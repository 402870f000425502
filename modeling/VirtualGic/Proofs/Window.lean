import VirtualGic.Proofs.Line
import VirtualGic.Window.Map
/-!
# Where an access leads

The interrupts whose fields an access reaches exist, each is reached once, and sets of requesters are reached under
version 2 only.  A load gives its register what the windows hold, and a store is what they make of it
(`Core.access_of_read`, `Core.access_of_write`).
-/
namespace VirtualGic

theorem Vm.has_of_linesFrom {vm : Vm} {vcpu : Nat} : ∀ (count id : Nat), ∀ l ∈ vm.linesFrom vcpu id count, vm.Has l
  | 0, _, l, hl => by cases hl
  | count + 1, id, l, hl => by
    unfold Vm.linesFrom at hl
    split at hl
    next => cases hl
    next k hk =>
      rcases List.mem_cons.1 hl with rfl | hl
      · exact Vm.has_of_find? hk
      · exact has_of_linesFrom count (id + 1) l hl

theorem Vm.has_of_coveredLines {vm : Vm} {vcpu offset width : Nat} {b : RegisterBlock} {frame? : Option Nat} {ls : List Line}
    (h : vm.coveredLines? vcpu b offset width frame? = some ls) : ∀ l ∈ ls, vm.Has l := by
  unfold Vm.coveredLines? at h
  simp only at h
  split at h
  next => cases h; intro l hl; cases hl
  next =>
    split at h
    next => cases h
    next => cases h; exact has_of_linesFrom _ _

theorem Vm.id_of_linesFrom {vm : Vm} {vcpu : Nat} : ∀ (count id : Nat), ∀ l ∈ vm.linesFrom vcpu id count, id ≤ l.id
  | 0, _, l, hl => by cases hl
  | count + 1, id, l, hl => by
    unfold Vm.linesFrom at hl
    split at hl
    next => cases hl
    next k hk =>
      rcases List.mem_cons.1 hl with rfl | hl
      · exact Nat.le_of_eq (Vm.id_of_find? hk).symm
      · exact Nat.le_of_succ_le (id_of_linesFrom count (id + 1) l hl)

theorem Vm.nodup_linesFrom {vm : Vm} {vcpu : Nat} : ∀ count id : Nat, (vm.linesFrom vcpu id count).Nodup
  | 0, _ => List.nodup_nil
  | count + 1, id => by
    unfold Vm.linesFrom
    split
    next => exact List.nodup_nil
    next k hk =>
      refine List.nodup_cons.2 ⟨fun hm => ?_, nodup_linesFrom count (id + 1)⟩
      have := Vm.id_of_linesFrom count (id + 1) k hm
      rw [Vm.id_of_find? hk] at this
      omega

/-- What holds of the fields that an access reaches. -/
structure ReachesFields (vm : Vm) (g : RegisterGroup) (bits : Nat) (ls : List Line) : Prop where
  has : ∀ l ∈ ls, vm.Has l
  nodup : ls.Nodup
  block : ∃ b ∈ registerLayout, b.group = g ∧ b.fieldBits = bits
  notRoute : g ≠ .route
  requesters : g = .setRequesters ∨ g = .clearRequesters → vm.version = .v2

theorem Vm.nodup_of_coveredLines {vm : Vm} {vcpu offset width : Nat} {b : RegisterBlock} {frame? : Option Nat} {ls : List Line}
    (h : vm.coveredLines? vcpu b offset width frame? = some ls) : ls.Nodup := by
  unfold Vm.coveredLines? at h
  simp only at h
  split at h
  next => cases h; exact List.nodup_nil
  next =>
    split at h
    next => cases h
    next => cases h; exact Vm.nodup_linesFrom _ _

theorem mem_of_blockAt? {offset : Nat} {b : RegisterBlock} (h : blockAt? offset = some b) : b ∈ registerLayout :=
  List.mem_of_find?_eq_some h

namespace Distributor

variable {c : Core}

def Place.Reaches (vm : Vm) : Place → Prop
  | .route id _ => vm.Has (.shared id)
  | .fields g bits ls => ReachesFields vm g bits ls
  | _ => True

theorem reaches_fieldsPlace? {b : RegisterBlock} {offset width : Nat} {p : Place}
    (h : fieldsPlace? c b offset width none = some p) (hb : b ∈ registerLayout) (hr : b.group ≠ .route)
    (hv : b.group = .setRequesters ∨ b.group = .clearRequesters → c.vm.version = .v2) : p.Reaches c.vm := by
  unfold fieldsPlace? at h
  rw [Option.map_eq_some_iff] at h
  obtain ⟨ls, hls, rfl⟩ := h
  exact ⟨Vm.has_of_coveredLines hls, Vm.nodup_of_coveredLines hls, ⟨b, hb, rfl, rfl⟩, hr, hv⟩

theorem reaches_route {vm : Vm} {id : Nat} {part : Option Bool} {p : Place}
    (h : (if vm.interruptCount ≤ id then none else if isPrivateId id then some .zero else some (.route id part)) = some p) :
    p.Reaches vm := by
  split at h
  next => cases h
  next hc =>
    split at h
    next => cases h; trivial
    next hp =>
      cases h
      refine ⟨Nat.lt_of_not_le hc, ⟨fun hb => (by cases hb), fun hlt => ?_⟩, fun home hh => (by cases hh)⟩
      exact absurd (decide_eq_true hlt) hp

theorem reaches_blockPlace? {b : RegisterBlock} {offset width : Nat} {p : Place}
    (h : blockPlace? c b offset width = some p) (hb : b ∈ registerLayout) : p.Reaches c.vm := by
  unfold blockPlace? at h
  split at h
  next => cases h; unfold miscPlace; split <;> trivial
  next => cases h; trivial
  next => cases h; trivial
  next =>
    exact reaches_route h
  next hg _ =>
    refine reaches_fieldsPlace? h hb ?_ ?_ <;> rw [hg]
    · decide
    · rintro (e | e) <;> cases e
  next hg hv =>
    refine reaches_fieldsPlace? h hb ?_ (fun _ => hv)
    rw [hg]
    decide
  next hg hv =>
    refine reaches_fieldsPlace? h hb ?_ (fun _ => hv)
    rw [hg]
    decide
  next => cases h; trivial
  next => cases h; trivial
  next => cases h; trivial
  next => cases h; trivial
  next => cases h; trivial
  next => cases h; trivial
  next => cases h; trivial
  next _ _ _ _ _ route3 _ _ _ _ route2 _ clear3 set3 =>
    refine reaches_fieldsPlace? h hb (fun hg => ?_) (fun hg => ?_)
    · cases hv : c.vm.version with
      | v2 => exact route2 hg hv
      | v3 => exact route3 hg hv
    · cases hv : c.vm.version with
      | v2 => rfl
      | v3 =>
        rcases hg with hg | hg
        · exact (set3 hg hv).elim
        · exact (clear3 hg hv).elim

/-- What an access reaches lies in a block that allows it, apart from the identification registers of version 2. -/
theorem place?_cases {addr : BitVec 64} {width : Nat} {p : Place} (h : place? c addr width = some p) :
    (∃ offset, p = .identification offset) ∨
      ∃ b ∈ registerLayout, b.allows addr width = true ∧ ∃ offset, blockPlace? c b offset width = some p := by
  unfold place? at h
  simp only at h
  split at h
  next => cases h
  next =>
    split at h
    next =>
      split at h
      next => cases h; exact .inl ⟨_, rfl⟩
      next => cases h
    next =>
      split at h
      next => cases h
      next b hb =>
        split at h
        next allowed => exact .inr ⟨b, mem_of_blockAt? hb, allowed, _, h⟩
        next => cases h

theorem reaches_place? {addr : BitVec 64} {width : Nat} {p : Place} (h : place? c addr width = some p) :
    p.Reaches c.vm := by
  rcases place?_cases h with ⟨_, rfl⟩ | ⟨b, hb, -, _, h⟩
  · trivial
  · exact reaches_blockPlace? h hb

end Distributor

namespace Redistributor

variable {c : Core}

def Place.Reaches (vm : Vm) : Place → Prop
  | .fields g bits ls => ReachesFields vm g bits ls
  | _ => True

/-- What the first frame of a vCPU holds. -/
inductive Place.InControl (vcpu : Nat) : Place → Prop
  | implementer : InControl vcpu .implementer
  | type (part : Option Bool) : InControl vcpu (.type vcpu part)
  | wake : InControl vcpu (.wake vcpu)
  | identification (offset : Nat) : InControl vcpu (.identification offset)
  | zero : InControl vcpu .zero

/-- The first frame is reached by words at least. -/
theorem controlPlace?_cases {vcpu offset width : Nat} {p : Place} (h : controlPlace? vcpu offset width = some p) :
    4 ≤ width ∧ p.InControl vcpu := by
  unfold controlPlace? at h
  simp only at h
  split at h
  next ok =>
    have word : 4 ≤ width := by
      simp only [Bool.and_eq_true, Bool.or_eq_true, beq_iff_eq] at ok
      omega
    split at h
    next => cases h; exact ⟨word, .identification _⟩
    next => split at h <;> cases h <;> exact ⟨word, by constructor⟩
  next => cases h

/-- The second frame holds fields, or nothing. -/
theorem bankPlace?_cases {vcpu : Nat} {addr : BitVec 64} {offset width : Nat} {p : Place}
    (h : bankPlace? c vcpu addr offset width = some p) :
    p = .zero ∨ ∃ b ∈ registerLayout, serves b.group = true ∧
      ∃ ls, c.vm.coveredLines? c.vcpu b offset width (some vcpu) = some ls ∧ p = .fields b.group b.fieldBits ls := by
  unfold bankPlace? at h
  split at h
  next => cases h; exact .inl rfl
  next b hb =>
    split at h
    next =>
      split at h
      next served =>
        obtain ⟨ls, hls, rfl⟩ := Option.map_eq_some_iff.1 h
        exact .inr ⟨b, mem_of_blockAt? hb, served, ls, hls, rfl⟩
      next => cases h; exact .inl rfl
    next => cases h

/-- What an access reaches lies in one of the two frames of a vCPU. -/
theorem place?_cases {addr : BitVec 64} {width : Nat} {p : Place} (h : place? c addr width = some p) :
    ∃ vcpu < c.vm.vcpuCount, ∃ offset,
      controlPlace? vcpu offset width = some p ∨ bankPlace? c vcpu addr offset width = some p := by
  unfold place? at h
  split at h
  next =>
    simp only at h
    split at h
    next lt =>
      split at h
      next => exact ⟨_, lt, _, .inl h⟩
      next => exact ⟨_, lt, _, .inr h⟩
    next => cases h
  next => cases h

theorem reaches_place? {addr : BitVec 64} {width : Nat} {p : Place} (h : place? c addr width = some p) :
    p.Reaches c.vm := by
  obtain ⟨vcpu, -, _, control | bank⟩ := place?_cases h
  · obtain ⟨-, inControl⟩ := controlPlace?_cases control
    cases inControl <;> trivial
  · rcases bankPlace?_cases bank with rfl | ⟨b, hb, served, ls, hls, rfl⟩
    · trivial
    · refine ⟨Vm.has_of_coveredLines hls, Vm.nodup_of_coveredLines hls, ⟨b, hb, rfl, rfl⟩, fun hg => ?_, fun hg => ?_⟩
      · rw [hg] at served; cases served
      · rcases hg with hg | hg <;> rw [hg] at served <;> cases served

end Redistributor

/-! ## What an access does -/

namespace Core

variable {c : Core} {a : Access}

/-- A load fills its register with what the windows hold. -/
theorem access_of_read (read : a.write = false) (f : RegisterFile) :
    c.access a f =
      match c.load? c.vm.addressMap a.addr a.width with
      | some v => (true, a.finishLoad f v, c)
      | none => (false, f, c) := by
  cases held : c.load? c.vm.addressMap a.addr a.width <;>
    simp only [access, accessThrough, Access.perform, read, held, Bool.false_eq_true, if_false]

/-- A store hands the low bytes of its register to the windows. -/
theorem access_of_write (write : a.write = true) (f : RegisterFile) :
    c.access a f =
      match c.store? c.vm.addressMap a.addr a.width (a.stored f) with
      | some c' => (true, f, c')
      | none => (false, f, c) := by
  cases made : c.store? c.vm.addressMap a.addr a.width (a.stored f) <;>
    simp only [access, accessThrough, Access.perform, write, made, if_true]

end Core
end VirtualGic
