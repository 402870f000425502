import Mathlib.Algebra.Group.Nat.Defs
import VirtualGic.Proofs.Reach
/-!
# Which accesses are served

`Partition.Serves` says of an address and a width whether an access is handled, in terms of the VM's partition and of the
register layout alone.  The machine decides it in this way at all times, and an access that it refuses changes nothing
(`Machine.Arises.access_served`).
-/
namespace VirtualGic

/-! ## The rule -/

/-- The group is served for each interrupt, under this version. -/
def RegisterGroup.perInterrupt (version : GicVersion) : RegisterGroup → Bool
  | .group | .setEnable | .clearEnable | .setPending | .clearPending | .setActive | .clearActive | .priority
  | .config => true
  | .targets | .clearRequesters | .setRequesters => version == .v2
  | .route => version == .v3
  | .misc | .groupModifier | .nonSecureAccess | .softwareInterrupt | .identification => false

namespace RegisterBlock

/-- The interrupt whose field lies at an offset. -/
def first (b : RegisterBlock) (offset : Nat) : Nat := (offset - b.base) * 8 / b.fieldBits

/-- The width is one of the block's, and the access is naturally aligned. -/
def Permits (b : RegisterBlock) (addr width : Nat) : Prop := b.widths &&& width ≠ 0 ∧ addr % width = 0

instance (b : RegisterBlock) (addr width : Nat) : Decidable (b.Permits addr width) :=
  inferInstanceAs (Decidable (_ ∧ _))

/-- The interrupt at an offset is implemented or, under version 3, private, if that matters for the block. -/
def Implements (b : RegisterBlock) (p : Partition) (offset : Nat) : Prop :=
  b.group.perInterrupt p.version = true →
    b.first offset < p.interrupts ∨ p.version = .v3 ∧ b.first offset < privateInterrupts

instance (b : RegisterBlock) (p : Partition) (offset : Nat) : Decidable (b.Implements p offset) :=
  inferInstanceAs (Decidable (_ → _))

end RegisterBlock

namespace Partition

/-- What is served of the distributor: under version 2 aligned words of the identification registers that end the first
4 KiB, elsewhere what a block of the layout permits. -/
def ServesDistributor (p : Partition) (offset width addr : Nat) : Prop :=
  if p.version = .v2 ∧ 0xFD0 ≤ offset ∧ offset < 0x1000 then width = 4 ∧ addr % 4 = 0
  else ∃ b ∈ registerLayout, b.covers offset = true ∧ b.Permits addr width ∧ b.Implements p offset

/-- What is served of a redistributor: in the first frame aligned words and the type register as a doubleword, in the
second what the layout permits, and all that lies outside the layout. -/
def ServesRedistributor (inner width addr : Nat) : Prop :=
  if inner < Redistributor.frameSize then (width = 4 ∨ inner = 8 ∧ width = 8) ∧ addr % width = 0
  else ∀ b ∈ registerLayout, b.covers (inner - Redistributor.frameSize) = true → b.Permits addr width

instance (p : Partition) (offset width addr : Nat) : Decidable (p.ServesDistributor offset width addr) :=
  inferInstanceAs (Decidable (ite _ _ _))

instance (inner width addr : Nat) : Decidable (ServesRedistributor inner width addr) :=
  inferInstanceAs (Decidable (ite _ _ _))

def InDistributor (p : Partition) (addr : Nat) : Prop :=
  p.distributor.toNat ≤ addr ∧ addr < p.distributor.toNat + distributorSize

def InRedistributors (p : Partition) (addr : Nat) : Prop :=
  p.version = .v3 ∧ p.redistributor.toNat ≤ addr ∧
    addr < p.redistributor.toNat + redistributorStride * p.cpus.length

instance (p : Partition) (addr : Nat) : Decidable (p.InDistributor addr) := inferInstanceAs (Decidable (_ ∧ _))

instance (p : Partition) (addr : Nat) : Decidable (p.InRedistributors addr) := inferInstanceAs (Decidable (_ ∧ _))

/-- **The accesses that are handled.** -/
def Serves (p : Partition) (addr width : Nat) : Prop :=
  p.InDistributor addr ∧ p.ServesDistributor (addr - p.distributor.toNat) width addr ∨
    p.InRedistributors addr ∧ ServesRedistributor ((addr - p.redistributor.toNat) % redistributorStride) width addr

instance (p : Partition) (addr width : Nat) : Decidable (p.Serves addr width) := inferInstanceAs (Decidable (_ ∨ _))

end Partition

/-! ## Windows -/

namespace Window

variable {w : Window} {addr : BitVec 64}

/-- The end of the window is an address. -/
def Bounded (w : Window) : Prop := w.base.toNat + w.size < 2 ^ 64

instance (w : Window) : Decidable w.Bounded := inferInstanceAs (Decidable (_ < _))

theorem toNat_limit (w : Window) : w.limit.toNat = (w.base.toNat + w.size) % 2 ^ 64 := by
  rw [limit, BitVec.toNat_add, BitVec.toNat_ofNat, Nat.add_mod_mod]

theorem contains_iff_limit : w.contains addr = true ↔ w.base.toNat ≤ addr.toNat ∧ addr.toNat < w.limit.toNat := by
  rw [contains, Bool.and_eq_true, decide_eq_true_eq, decide_eq_true_eq, BitVec.le_def, BitVec.lt_def]

/-- A window contains no address beyond its size, wherever it ends. -/
theorem lt_of_contains (h : w.contains addr = true) : w.base.toNat ≤ addr.toNat ∧ addr.toNat < w.base.toNat + w.size := by
  obtain ⟨above, below⟩ := contains_iff_limit.1 h
  rw [toNat_limit] at below
  exact ⟨above, Nat.lt_of_lt_of_le below (Nat.mod_le ..)⟩

/-- A window that ends at an address contains all addresses up to there. -/
theorem contains_iff (h : w.Bounded) :
    w.contains addr = true ↔ w.base.toNat ≤ addr.toNat ∧ addr.toNat < w.base.toNat + w.size := by
  rw [contains_iff_limit, toNat_limit, Nat.mod_eq_of_lt h]

/-- Another one contains none, unless it goes round the whole address space. -/
theorem contains_eq_false (h : ¬ w.Bounded) (small : w.size < 2 ^ 64) : w.contains addr = false := by
  have wraps : 2 ^ 64 ≤ w.base.toNat + w.size := Nat.not_lt.1 h
  have below : w.limit.toNat < w.base.toNat := by
    have base := w.base.isLt
    rw [toNat_limit]
    omega
  refine Bool.eq_false_iff.2 fun inside => ?_
  have inside := contains_iff_limit.1 inside
  exact absurd (Nat.lt_of_le_of_lt inside.1 inside.2) (Nat.lt_asymm below)

end Window

namespace Partition

/-- The windows are aligned, end at an address and do not overlap. -/
structure Laid (p : Partition) : Prop where
  distributor_aligned : p.distributor.toNat % 8 = 0
  distributor_bounded : (Window.distributor p.distributor).Bounded
  redistributor_aligned : p.version = .v3 → p.redistributor.toNat % 8 = 0
  redistributor_bounded : p.version = .v3 → (Window.redistributors p.redistributor p.cpus.length).Bounded
  apart : ∀ addr, p.InDistributor addr → ¬ p.InRedistributors addr

/-- The usual windows are. -/
theorem laid_standard (version : GicVersion) (id interrupts : Nat) {cpus : List Nat} (passthrough : List Nat)
    (h : cpus.length ≤ maxCpus) : (standard version id interrupts cpus passthrough).Laid where
  distributor_aligned := (by decide : distributorBase.toNat % 8 = 0)
  distributor_bounded := (by decide : (Window.distributor distributorBase).Bounded)
  redistributor_aligned := by
    rintro rfl
    exact (by decide : redistributorBase.toNat % 8 = 0)
  redistributor_bounded := by
    rintro rfl
    change 0x80A0000 + 0x20000 * cpus.length < 0x10000000000000000
    unfold maxCpus at h
    omega
  apart := by
    rintro addr ⟨-, hlt⟩ ⟨rfl, hle, -⟩
    change addr < 0x8000000 + 0x10000 at hlt
    change 0x80A0000 ≤ addr at hle
    omega

end Partition

/-! ## The layout -/

theorem registerLayout_apart : registerLayout.Pairwise fun b b' => b.base + b.size ≤ b'.base := by decide

theorem RegisterBlock.covers_iff {b : RegisterBlock} {offset : Nat} :
    b.covers offset = true ↔ b.base ≤ offset ∧ offset < b.base + b.size := by
  simp only [covers, Bool.and_eq_true, decide_eq_true_eq]

/-- The blocks do not overlap: one that covers an offset is the one that is found there. -/
theorem blockAt?_of_covers {b : RegisterBlock} {offset : Nat} (hb : b ∈ registerLayout) (h : b.covers offset = true) :
    blockAt? offset = some b := by
  obtain ⟨before, after, hl⟩ := List.append_of_mem hb
  refine List.find?_eq_some_iff_append.2 ⟨h, before, after, hl, fun b' hb' => ?_⟩
  have apart := registerLayout_apart
  rw [hl] at apart
  have hle := (List.pairwise_append.1 apart).2.2 b' hb' b List.mem_cons_self
  have hlow := (RegisterBlock.covers_iff.1 h).1
  rw [Bool.not_eq_true']
  exact Bool.eq_false_iff.2 fun hc => by
    have := (RegisterBlock.covers_iff.1 hc).2
    omega

theorem blockAt?_eq_some_iff {b : RegisterBlock} {offset : Nat} :
    blockAt? offset = some b ↔ b ∈ registerLayout ∧ b.covers offset = true :=
  ⟨fun h => ⟨mem_of_blockAt? h, List.find?_some (p := fun b : RegisterBlock => b.covers offset) h⟩,
    fun h => blockAt?_of_covers h.1 h.2⟩

theorem exists_covers_iff {offset : Nat} {P : RegisterBlock → Prop} :
    (∃ b ∈ registerLayout, b.covers offset = true ∧ P b) ↔ ∃ b, blockAt? offset = some b ∧ P b := by
  simp only [blockAt?_eq_some_iff, and_assoc]

theorem forall_covers_iff {offset : Nat} {P : RegisterBlock → Prop} :
    (∀ b ∈ registerLayout, b.covers offset = true → P b) ↔ ∀ b, blockAt? offset = some b → P b := by
  simp only [blockAt?_eq_some_iff, and_imp]

theorem RegisterBlock.allows_iff {b : RegisterBlock} {addr : BitVec 64} {width : Nat} (hw : width ∈ [1, 2, 4, 8]) :
    b.allows addr width = true ↔ b.Permits addr.toNat width := by
  have hw : [1, 2, 4, 8].contains width = true := List.contains_iff_mem.2 hw
  simp only [allows, Permits, hw, Bool.true_and, Bool.and_eq_true, bne_iff_ne, beq_iff_eq]

/-- The interrupts of a block are numbered in far less than 32 bits. -/
theorem RegisterBlock.first_mod {b : RegisterBlock} {offset : Nat} (h : offset < distributorSize) :
    b.first offset % 0x100000000 = b.first offset := by
  refine Nat.mod_eq_of_lt (Nat.lt_of_le_of_lt (Nat.div_le_self _ _) ?_)
  unfold distributorSize at h
  omega

/-! ## What an access reaches -/

variable {c : Core} {b : RegisterBlock} {addr : BitVec 64} {offset width vcpu : Nat}

/-- An access is refused where its first interrupt is not implemented, unless the register reads as zero. -/
theorem Vm.coveredLines?_isSome (vm : Vm) (frame? : Option Nat) :
    (vm.coveredLines? vcpu b offset width frame?).isSome = true ↔
      vm.version = .v3 ∧ frame?.isSome ≠ isPrivateId (b.first offset % 0x100000000) ∨
        b.first offset % 0x100000000 < vm.interruptCount := by
  unfold coveredLines? RegisterBlock.first
  simp only
  split
  next hz => exact iff_of_true rfl (.inl (by simpa only [Bool.and_eq_true, beq_iff_eq, bne_iff_ne] using hz))
  next hz =>
    simp only [Bool.and_eq_true, beq_iff_eq, bne_iff_ne] at hz
    split
    next hn => exact iff_of_false Bool.false_ne_true fun h => h.elim hz (Nat.not_lt.2 hn)
    next hn => exact iff_of_true rfl (.inr (Nat.lt_of_not_le hn))

/-- A redistributor serves the private interrupts, and nothing else lies there. -/
theorem Vm.coveredLines?_frame (vm : Vm) (checked : vm.partition.Checked) (v3 : vm.version = .v3) (frame : Nat) :
    (vm.coveredLines? vcpu b offset width (some frame)).isSome = true := by
  refine (vm.coveredLines?_isSome (some frame)).2 ?_
  by_cases hp : b.first offset % 0x100000000 < privateInterrupts
  · exact .inr (Nat.lt_of_lt_of_le hp checked.le_count)
  · exact .inl ⟨v3, fun h => hp (of_decide_eq_true h.symm)⟩

namespace Distributor

theorem fieldsPlace?_isSome (h : offset < distributorSize) :
    (fieldsPlace? c b offset width none).isSome = true ↔
      b.first offset < c.vm.interruptCount ∨ c.vm.version = .v3 ∧ b.first offset < privateInterrupts := by
  unfold fieldsPlace?
  rw [Option.isSome_map, Vm.coveredLines?_isSome, RegisterBlock.first_mod h, or_comm]
  simp [isPrivateId]

theorem routePlace?_isSome (vm : Vm) (hid : b.base = 0x6000) (hbits : b.fieldBits = 64) :
    (routePlace? vm offset width).isSome = true ↔ b.first offset < vm.interruptCount := by
  have hf : b.first offset = (offset - 0x6000) / 8 := by
    unfold RegisterBlock.first
    rw [hid, hbits]
    omega
  rw [hf]
  unfold routePlace?
  simp only
  split
  next h => exact iff_of_false Bool.false_ne_true (Nat.not_lt.2 h)
  next h => split <;> exact iff_of_true rfl (Nat.lt_of_not_le h)

theorem blockPlace?_of_perInterrupt (h : b.group.perInterrupt c.vm.version = true) (hr : b.group ≠ .route) :
    blockPlace? c b offset width = fieldsPlace? c b offset width none := by
  unfold blockPlace?
  revert h hr
  cases b.group <;> cases c.vm.version <;> intro h hr <;> first | rfl | exact absurd rfl hr | cases h

theorem blockPlace?_of_not_perInterrupt (h : b.group.perInterrupt c.vm.version = false) :
    (blockPlace? c b offset width).isSome = true := by
  unfold blockPlace?
  revert h
  cases b.group <;> cases c.vm.version <;> intro h <;> first | rfl | cases h

theorem blockPlace?_isSome (checked : c.vm.partition.Checked) (hb : b ∈ registerLayout) (h : offset < distributorSize) :
    (blockPlace? c b offset width).isSome = true ↔ b.Implements c.vm.partition offset := by
  cases hp : b.group.perInterrupt c.vm.version with
  | false => exact iff_of_true (blockPlace?_of_not_perInterrupt hp) fun hp' => absurd (hp.symm.trans hp') Bool.false_ne_true
  | true =>
    have needs : b.Implements c.vm.partition offset ↔
        b.first offset < c.vm.interruptCount ∨ c.vm.version = .v3 ∧ b.first offset < privateInterrupts :=
      ⟨fun h => h hp, fun h _ => h⟩
    rw [needs]
    by_cases hr : b.group = .route
    · -- route registers, under version 3
      have route : b.base = 0x6000 ∧ b.fieldBits = 64 :=
        (by decide : ∀ b ∈ registerLayout, b.group = .route → b.base = 0x6000 ∧ b.fieldBits = 64) b hb hr
      have v3 : c.vm.version = .v3 := by
        rw [hr] at hp
        exact eq_of_beq hp
      have e : blockPlace? c b offset width = routePlace? c.vm offset width := by
        unfold blockPlace?
        rw [hr, v3]
      rw [e, routePlace?_isSome c.vm route.1 route.2]
      exact ⟨.inl, fun h => h.elim id fun h => Nat.lt_of_lt_of_le h.2 checked.le_count⟩
    · rw [blockPlace?_of_perInterrupt hp hr, fieldsPlace?_isSome h]

/-- **What is served of the distributor.** -/
theorem place?_isSome (checked : c.vm.partition.Checked) (laid : c.vm.partition.Laid) (hw : width ∈ [1, 2, 4, 8])
    (h : c.vm.partition.InDistributor addr.toNat) :
    (place? c addr width).isSome = true ↔
      c.vm.partition.ServesDistributor (addr.toNat - c.vm.partition.distributor.toNat) width addr.toNat := by
  obtain ⟨hle, hlt⟩ := h
  have ho : (addr - c.vm.partition.distributor).toNat = addr.toNat - c.vm.partition.distributor.toNat :=
    BitVec.toNat_sub_of_le hle
  have hoff : addr.toNat - c.vm.partition.distributor.toNat < distributorSize := by omega
  unfold place? Partition.ServesDistributor
  simp only [ho, Vm.version, Bool.and_eq_true, beq_iff_eq, decide_eq_true_eq, if_neg (Nat.not_le.2 hoff), and_assoc]
  split
  next =>
    -- the base is a multiple of four
    have aligned : (addr.toNat - c.vm.partition.distributor.toNat) % 4 = 0 ↔ addr.toNat % 4 = 0 := by
      have := laid.distributor_aligned
      omega
    split
    next hz => exact iff_of_true rfl ⟨hz.1, aligned.1 hz.2⟩
    next hz => exact iff_of_false Bool.false_ne_true fun hz' => hz ⟨hz'.1, aligned.2 hz'.2⟩
  next =>
    rw [exists_covers_iff]
    cases hb : blockAt? (addr.toNat - c.vm.partition.distributor.toNat) with
    | none => exact iff_of_false Bool.false_ne_true fun ⟨_, found, _⟩ => by cases found
    | some b =>
      simp only [Option.some.injEq, exists_eq_left']
      rw [← RegisterBlock.allows_iff hw, ← blockPlace?_isSome checked (mem_of_blockAt? hb) hoff]
      split
      next ha => exact (and_iff_right ha).symm
      next ha => exact iff_of_false Bool.false_ne_true fun h => ha h.1

end Distributor

namespace Redistributor

theorem controlPlace?_isSome :
    (controlPlace? vcpu offset width).isSome = true ↔ (width = 4 ∨ offset = 8 ∧ width = 8) ∧ offset % width = 0 := by
  unfold controlPlace?
  simp only [Bool.and_eq_true, Bool.or_eq_true, beq_iff_eq]
  split
  next h =>
    refine iff_of_true ?_ h
    split
    next => rfl
    next => split <;> rfl
  next h => exact iff_of_false Bool.false_ne_true h

theorem bankPlace?_isSome (checked : c.vm.partition.Checked) (v3 : c.vm.version = .v3) (hw : width ∈ [1, 2, 4, 8]) :
    (bankPlace? c vcpu addr offset width).isSome = true ↔
      ∀ b ∈ registerLayout, b.covers offset = true → b.Permits addr.toNat width := by
  rw [forall_covers_iff]
  unfold bankPlace?
  cases blockAt? offset with
  | none => exact iff_of_true rfl fun _ found => by cases found
  | some b =>
    simp only [Option.some.injEq, forall_eq']
    rw [← RegisterBlock.allows_iff hw]
    split
    next ha =>
      refine iff_of_true ?_ ha
      split
      next => rw [Option.isSome_map]; exact c.vm.coveredLines?_frame checked v3 vcpu
      next => rfl
    next ha => exact iff_of_false Bool.false_ne_true ha

/-- **What is served of the redistributors.** -/
theorem place?_isSome (checked : c.vm.partition.Checked) (laid : c.vm.partition.Laid) (hw : width ∈ [1, 2, 4, 8])
    (h : c.vm.partition.InRedistributors addr.toNat) :
    (place? c addr width).isSome = true ↔ Partition.ServesRedistributor
      ((addr.toNat - c.vm.partition.redistributor.toNat) % redistributorStride) width addr.toNat := by
  obtain ⟨v3, hle, hlt⟩ := h
  have ho : (addr - c.vm.partition.redistributor).toNat = addr.toNat - c.vm.partition.redistributor.toNat :=
    BitVec.toNat_sub_of_le hle
  have hvcpu : (addr.toNat - c.vm.partition.redistributor.toNat) / redistributorStride < c.vm.vcpuCount :=
    Nat.div_lt_of_lt_mul (by unfold Vm.vcpuCount; omega)
  unfold place? Partition.ServesRedistributor
  simp only [ho, Vm.version, v3, beq_self_eq_true, if_true, if_pos hvcpu]
  split
  next =>
    rw [controlPlace?_isSome]
    refine and_congr_right fun hwidth => ?_
    -- the base and the stride are multiples of eight
    have := laid.redistributor_aligned v3
    unfold redistributorStride
    rcases hwidth with rfl | ⟨-, rfl⟩ <;> omega
  next => exact bankPlace?_isSome checked v3 hw

end Redistributor

/-! ## Accesses -/

namespace Access

variable {σ : Type} {a : Access} {f : RegisterFile} {s : σ} {load : Option (BitVec 64)} {store : BitVec 64 → Option σ}

theorem perform_fst {p : Bool} (hload : load.isSome = p) (hstore : ∀ v, (store v).isSome = p) :
    (a.perform f s load store).1 = p := by
  unfold perform
  split
  next =>
    rw [← hstore (a.stored f)]
    cases store (a.stored f) <;> rfl
  next =>
    rw [← hload]
    cases load <;> rfl

/-- What is refused has no effect. -/
theorem perform_of_refused (h : (a.perform f s load store).1 = false) : a.perform f s load store = (false, f, s) := by
  unfold perform at h ⊢
  split
  next hw =>
    rw [if_pos hw] at h
    cases hs : store (a.stored f) with
    | some s' => rw [hs] at h; cases h
    | none => rfl
  next hw =>
    rw [if_neg hw] at h
    cases hl : load with
    | some v => rw [hl] at h; cases h
    | none => rfl

end Access

/-- The windows of a VM are its distributor and, under version 3, its redistributors. -/
theorem Vm.addressMap_eq {vm : Vm} (checked : vm.partition.Checked) :
    vm.addressMap = .distributor vm.partition.distributor ::
      if vm.version = .v3 then [.redistributors vm.partition.redistributor vm.vcpuCount] else [] := by
  have hne : (vm.vcpuCount == 0) = false :=
    beq_eq_false_iff_ne.2 fun h => checked.cpus_ne (List.length_eq_zero_iff.1 h)
  unfold addressMap
  cases vm.version with
  | v2 => rfl
  | v3 => simp [AddressMap.attach, AddressMap.register, AddressMap.capacity, hne]

theorem Window.contains_distributor {p : Partition} (h : (Window.distributor p.distributor).Bounded) :
    (Window.distributor p.distributor).contains addr = decide (p.InDistributor addr.toNat) := by
  rw [Bool.eq_iff_iff, decide_eq_true_iff]
  exact contains_iff h

theorem Window.contains_redistributors {vm : Vm} (v3 : vm.version = .v3)
    (h : (Window.redistributors vm.partition.redistributor vm.vcpuCount).Bounded) :
    (Window.redistributors vm.partition.redistributor vm.vcpuCount).contains addr =
      decide (vm.partition.InRedistributors addr.toNat) := by
  rw [Bool.eq_iff_iff, decide_eq_true_iff]
  exact (contains_iff h).trans (and_iff_right v3).symm

namespace Core

/-- The access leads to a place in the window. -/
def leads (c : Core) (w : Window) (addr : BitVec 64) (width : Nat) : Bool :=
  match w with
  | .distributor _ => (Distributor.place? c addr width).isSome
  | .redistributors _ _ => (Redistributor.place? c addr width).isSome

theorem loadWindow?_isSome (w : Window) : (c.loadWindow? w addr width).isSome = c.leads w addr width := by
  cases w <;> exact Option.isSome_map

theorem storeWindow?_isSome (w : Window) (v : BitVec 64) :
    (c.storeWindow? w addr width v).isSome = c.leads w addr width := by
  cases w <;> exact Option.isSome_map

/-- **An access is handled if it leads to a place**, whatever is loaded or stored. -/
theorem access_fst (a : Access) (f : RegisterFile) :
    (c.access a f).1 = (c.vm.addressMap.find? (·.contains a.addr)).any (c.leads · a.addr a.width) := by
  refine Access.perform_fst ?_ fun v => ?_
  · unfold load?
    cases c.vm.addressMap.find? (·.contains a.addr) with
    | none => rfl
    | some w => exact loadWindow?_isSome w
  · unfold store?
    cases c.vm.addressMap.find? (·.contains a.addr) with
    | none => rfl
    | some w => exact storeWindow?_isSome w v

theorem leads_iff (checked : c.vm.partition.Checked) (laid : c.vm.partition.Laid) (hw : width ∈ [1, 2, 4, 8]) :
    (c.vm.addressMap.find? (·.contains addr)).any (c.leads · addr width) = true ↔
      c.vm.partition.Serves addr.toNat width := by
  rw [Vm.addressMap_eq checked, List.find?_cons, Window.contains_distributor laid.distributor_bounded]
  unfold Partition.Serves
  by_cases hd : c.vm.partition.InDistributor addr.toNat
  · rw [decide_eq_true hd, or_iff_left fun h => laid.apart _ hd h.1, and_iff_right hd]
    exact Distributor.place?_isSome checked laid hw hd
  · rw [decide_eq_false hd, or_iff_right fun h => hd h.1]
    by_cases v3 : c.vm.version = .v3
    · rw [if_pos v3, List.find?_singleton, Window.contains_redistributors v3 (laid.redistributor_bounded v3)]
      by_cases hr : c.vm.partition.InRedistributors addr.toNat
      · rw [decide_eq_true hr, and_iff_right hr]
        exact Redistributor.place?_isSome checked laid hw hr
      · rw [decide_eq_false hr]
        exact iff_of_false Bool.false_ne_true fun h => hr h.1
    · rw [if_neg v3]
      exact iff_of_false Bool.false_ne_true fun h => v3 h.1.1

end Core

namespace Machine

variable {m : Machine} {cpu i : Nat}

/-- **The partition decides which accesses are handled, and what is refused has no effect.** -/
theorem Arises.access_served (h : m.Arises) (hc : m.core? cpu = some (i, c)) (laid : c.vm.partition.Laid) (a : Access)
    (hw : a.width ∈ [1, 2, 4, 8]) (f : RegisterFile) :
    ((c.access a f).1 = true ↔ c.vm.partition.Serves a.addr.toNat a.width) ∧
      (¬ c.vm.partition.Serves a.addr.toNat a.width →
        c.access a f = (false, f, c) ∧ m.step ⟨cpu, .access a f⟩ = m) := by
  have served : (c.access a f).1 = true ↔ c.vm.partition.Serves a.addr.toNat a.width := by
    rw [Core.access_fst]
    exact Core.leads_iff (h.sound.core hc).station.checked laid hw
  refine ⟨served, fun hn => ?_⟩
  have refused : c.access a f = (false, f, c) :=
    Access.perform_of_refused (Bool.eq_false_iff.2 fun h => hn (served.1 h))
  refine ⟨refused, ?_⟩
  rw [step_of_core? hc]
  change m.putCore i (c.access a f).2.2 = m
  rw [refused]
  exact h.sound.putCore_self hc

/-- One CPU and only sixteen shared interrupts. -/
def narrow : Machine := started 1 [1] [.standard .v3 1 48 [0] []]

theorem reachable_narrow : narrow.Reachable := reachable_started (by decide +kernel)

/-- The type register of its redistributor is served as a doubleword, the enable bits of interrupts that it does not have
are not. -/
theorem access_served_narrow : ∃ c, narrow.core? 0 = some (0, c) ∧ c.vm.partition.Laid ∧
    (c.access ⟨redistributorBase + 8, 8, false, 0, false, true⟩ (.constant 0)).1 = true ∧
    narrow.step ⟨0, store (distributorBase + 0x108) 4 1⟩ = narrow := by
  have hc := reachable_narrow.arises.sound.core_of_pcpuOf? (vms_zero (by decide +kernel))
    (show narrow.firstVm.pcpuOf? 0 = some 0 by decide +kernel)
  have table : narrow.firstVm.partition = .standard .v3 1 48 [0] [] := by decide +kernel
  have laid : narrow.firstVm.partition.Laid := by
    rw [table]
    exact Partition.laid_standard .v3 1 48 [] (by decide)
  refine ⟨_, hc, laid, (reachable_narrow.arises.access_served hc laid _ (by decide) _).1.2 ?_,
    ((reachable_narrow.arises.access_served hc laid _ (by decide) _).2 ?_).2⟩
  · rw [table]
    decide
  · rw [table]
    decide

end Machine
end VirtualGic
