import VirtualGic.Proofs.Anywhere
import VirtualGic.Proofs.Requester
/-!
# What a state register shows

A core looks for the state of an interrupt in the record and in its own list registers, never in those of another core.
So a state register shows the true state of every interrupt (`Machine.Arises.reads_state`) except those that are in a list
register of another core, which it shows as idle.
-/
namespace VirtualGic

/-- The part of an interrupt's state that the fields of the group show. -/
def RegisterGroup.shows? : RegisterGroup → Option (Interrupt.State → Bool)
  | .setPending | .clearPending => some (·.pending)
  | .setActive | .clearActive => some (·.active)
  | _ => none

/-- The interrupt is in a list register of the core of another vCPU. -/
def Vm.awayFrom (vm : Vm) (vcpu : Nat) (l : Line) : Bool :=
  (vm.interrupt l).resident && !(vm.interrupt l).ownedBy vcpu

namespace Core

variable {c d : Core} {l : Line} {g : RegisterGroup} {ls : List Line} {a : Access} {part : Interrupt.State → Bool}

/-! ## One field -/

theorem lowBits_bitWord (b : Bool) : lowBits 1 (bitWord b) = bitWord b := by cases b <;> rfl

theorem getLsbD_bitWord (b : Bool) (j : Nat) : (bitWord b).getLsbD j = (decide (j = 0) && b) := by
  unfold bitWord
  rw [BitVec.getLsbD_setWidth, BitVec.getLsbD_ofBool]
  rcases Nat.eq_zero_or_pos j with rfl | hj
  · rfl
  · simp [Nat.ne_of_gt hj]

theorem readField_of_shows (hg : g.shows? = some part) (empty : (c.interrupt l).requesters = 0) :
    c.readField g l = bitWord (part (c.stateOf l)) := by
  cases g <;> cases hg <;> simp [readField, empty]

/-- **What a core sees of an interrupt**: its true state, but nothing of what is in another core's list register. -/
theorem stateOf_eq {m : Machine} {cpu i : Nat} (h : m.Sound) (hc : m.core? cpu = some (i, c)) (hl : c.vm.Has l) :
    c.stateOf l = if c.vm.awayFrom c.vcpu l then .idle else m.trueState c.vm l := by
  have hs := h.core hc
  unfold Vm.awayFrom
  cases hres : (c.vm.interrupt l).resident with
  | false =>
    simp only [Bool.false_and, Bool.false_eq_true, if_false]
    unfold stateOf Machine.trueState
    rw [held?_of_off hres, Machine.held?_eq_of_off hres]
    rfl
  | true =>
    cases hown : (c.vm.interrupt l).ownedBy c.vcpu with
    | true => exact (Machine.trueState_of_mayClaim h hc hl ((c.mayClaim_iff l).2 (.inr (eq_of_beq hown)))).symm
    | false =>
      -- the record of a resident is idle, and that is all that is seen
      have unseen : c.held? l = none := by
        have hown : (c.interrupt l).ownedBy c.vcpu = false := hown
        unfold held?
        simp only [hown, Bool.and_false, Bool.false_eq_true, if_false]
      unfold stateOf
      rw [unseen]
      exact (hs.records l hl).resident_idle hres

/-! ## Several fields -/

theorem getLsbD_readFields (hg : g.shows? = some part) (ls : List Line) (empty : ∀ l ∈ ls, (c.interrupt l).requesters = 0)
    {j : Nat} (hj : j < 64) : (c.readFields g 1 ls).getLsbD j = (ls[j]?).any fun l => part (c.stateOf l) := by
  induction ls generalizing j with
  | nil => exact BitVec.getLsbD_zero
  | cons l ls ih =>
    unfold readFields
    rw [readField_of_shows hg (empty l List.mem_cons_self), lowBits_bitWord, BitVec.getLsbD_or, getLsbD_bitWord,
      BitVec.getLsbD_shiftLeft]
    cases j with
    | zero => simp
    | succ j => simp [hj, ih (fun k hk => empty k (List.mem_cons_of_mem l hk)) (Nat.lt_of_succ_lt hj)]

/-! ## An access -/

def windowFields? (c : Core) (w : Window) (addr : BitVec 64) (width : Nat) : Option (RegisterGroup × List Line) :=
  match w with
  | .distributor _ => (Distributor.place? c addr width).bind fun
    | .fields g _ ls => some (g, ls)
    | _ => none
  | .redistributors _ _ => (Redistributor.place? c addr width).bind fun
    | .fields g _ ls => some (g, ls)
    | _ => none

/-- The fields that an access reaches: their group and their interrupts, in order. -/
def fields? (c : Core) (a : Access) : Option (RegisterGroup × List Line) :=
  (c.vm.addressMap.find? (·.contains a.addr)).bind fun w => c.windowFields? w a.addr a.width

theorem bits_of_shows {vm : Vm} {bits : Nat} (hg : g.shows? = some part) (h : ReachesFields vm g bits ls) : bits = 1 := by
  obtain ⟨b, hb, rfl, rfl⟩ := h.block
  have single : ∀ b ∈ registerLayout, b.group.shows?.isSome = true → b.fieldBits = 1 := by decide
  exact single b hb (by rw [hg]; rfl)

theorem windowFields?_load {w : Window} {addr : BitVec 64} {width : Nat} (h : c.windowFields? w addr width = some (g, ls))
    (hg : g.shows? = some part) :
    c.loadWindow? w addr width = some (c.readFields g 1 ls) ∧ ∀ l ∈ ls, c.vm.Has l := by
  unfold windowFields? at h
  unfold loadWindow?
  cases w with
  | distributor base =>
    obtain ⟨p, hp, hf⟩ := Option.bind_eq_some_iff.1 h
    have reach := Distributor.reaches_place? hp
    cases p with
    | fields g' bits ls' =>
      cases hf
      obtain rfl := bits_of_shows hg reach
      rw [hp]
      exact ⟨rfl, reach.has⟩
    | _ => cases hf
  | redistributors base count =>
    obtain ⟨p, hp, hf⟩ := Option.bind_eq_some_iff.1 h
    have reach := Redistributor.reaches_place? hp
    cases p with
    | fields g' bits ls' =>
      cases hf
      obtain rfl := bits_of_shows hg reach
      rw [hp]
      exact ⟨rfl, reach.has⟩
    | _ => cases hf

theorem access_of_fields (read : a.write = false) (h : c.fields? a = some (g, ls)) (hg : g.shows? = some part)
    (f : RegisterFile) :
    c.access a f = (true, a.finishLoad f (c.readFields g 1 ls), c) ∧ ∀ l ∈ ls, c.vm.Has l := by
  obtain ⟨w, hw, hf⟩ := Option.bind_eq_some_iff.1 h
  obtain ⟨loaded, has⟩ := windowFields?_load hf hg
  rw [access_of_read read, load?, hw, Option.bind_some, loaded]
  exact ⟨rfl, has⟩

theorem windowFields?_elsewhere {w : Window} {addr : BitVec 64} {width : Nat} (hvm : d.vm = c.vm)
    (hv : c.vcpu < c.vm.vcpuCount) (hv' : d.vcpu < c.vm.vcpuCount) (h : c.windowFields? w addr width = some (g, ls))
    (common : c.vm.version = .v3 ∨ ∀ l ∈ ls, l.home? = none) : d.windowFields? w addr width = some (g, ls) := by
  unfold windowFields? at h ⊢
  cases w with
  | distributor base =>
    obtain ⟨p, hp, hf⟩ := Option.bind_eq_some_iff.1 h
    cases p with
    | fields g' bits ls' =>
      cases hf
      simp only [Distributor.place?_elsewhere hvm hv hv' hp rfl common, Option.bind_some]
    | _ => cases hf
  | redistributors base count =>
    simp only [Redistributor.place?_elsewhere hvm] at h ⊢
    exact h

theorem fields?_elsewhere (hvm : d.vm = c.vm) (hv : c.vcpu < c.vm.vcpuCount) (hv' : d.vcpu < c.vm.vcpuCount)
    (h : c.fields? a = some (g, ls)) (common : c.vm.version = .v3 ∨ ∀ l ∈ ls, l.home? = none) :
    d.fields? a = some (g, ls) := by
  obtain ⟨w, hw, hf⟩ := Option.bind_eq_some_iff.1 h
  unfold fields?
  rw [hvm, hw, Option.bind_some]
  exact windowFields?_elsewhere hvm hv hv' hf common

end Core

namespace Machine

variable {m : Machine} {cpu k i : Nat} {c d : Core} {l : Line} {g : RegisterGroup} {ls : List Line} {a : Access}
  {part : Interrupt.State → Bool}

/-- What a state register shows to a vCPU: for each interrupt its true state, unless it is in a list register of another
core. -/
def Shows (m : Machine) (vm : Vm) (vcpu : Nat) (part : Interrupt.State → Bool) (ls : List Line) (v : BitVec 64) : Prop :=
  ∀ j < 64, v.getLsbD j = (ls[j]?).any fun l => !vm.awayFrom vcpu l && part (m.trueState vm l)

theorem countsRequesters_of_common (common : c.vm.version = .v3 ∨ ∀ l ∈ ls, l.home? = none) (has : ∀ l ∈ ls, c.vm.Has l)
    (hl : l ∈ ls) : c.vm.countsRequesters l = false := by
  unfold Vm.countsRequesters Interrupt.countsRequesters
  rcases common with v3 | shared
  · rw [v3]
    rfl
  · -- software interrupts are banked
    have soft : l.isSoftware = false := decide_eq_false fun hlt => by
      have banked := (has l hl).2.1.2 (Nat.lt_trans hlt (by decide))
      rw [Line.isBanked, shared l hl] at banked
      cases banked
    rw [soft, Bool.and_false]

theorem Arises.shows (h : m.Arises) (hc : m.core? cpu = some (i, c)) (read : a.write = false)
    (reach : c.fields? a = some (g, ls)) (state : g.shows? = some part)
    (common : c.vm.version = .v3 ∨ ∀ l ∈ ls, l.home? = none) (f : RegisterFile) :
    ∃ v, c.access a f = (true, a.finishLoad f v, c) ∧ m.Shows c.vm c.vcpu part ls v := by
  obtain ⟨done, has⟩ := Core.access_of_fields read reach state f
  refine ⟨_, done, fun j hj => ?_⟩
  have idle : part .idle = false := by cases g <;> cases state <;> rfl
  rw [Core.getLsbD_readFields state ls (fun l hl => h.requesters_eq_zero (vm_of_core? hc) (has l hl)
    (countsRequesters_of_common common has hl)) hj]
  cases hl : ls[j]? with
  | none => rfl
  | some l =>
    have := Core.stateOf_eq h.sound hc (has l (List.mem_of_getElem? hl))
    simp only [Option.any_some, this]
    cases c.vm.awayFrom c.vcpu l with
    | true => exact idle
    | false => rfl

/-- **Every vCPU reads the true state of each interrupt**, except that those in a list register of another vCPU's core
read as idle. -/
theorem Arises.reads_state (h : m.Arises) (hc : m.core? cpu = some (i, c)) (hd : m.core? k = some (i, d))
    (read : a.write = false) (reach : c.fields? a = some (g, ls)) (state : g.shows? = some part)
    (common : c.vm.version = .v3 ∨ ∀ l ∈ ls, l.home? = none) (f : RegisterFile) :
    ∃ v w, c.access a f = (true, a.finishLoad f v, c) ∧ m.Shows c.vm c.vcpu part ls v ∧
      d.access a f = (true, a.finishLoad f w, d) ∧ m.Shows c.vm d.vcpu part ls w := by
  have hvm : d.vm = c.vm := Option.some.inj ((vm_of_core? hd).symm.trans (vm_of_core? hc))
  have hreach : d.fields? a = some (g, ls) := Core.fields?_elsewhere hvm (h.sound.core hc).station.vcpu_lt
    (hvm ▸ (h.sound.core hd).station.vcpu_lt) reach common
  obtain ⟨v, hv, shown⟩ := h.shows hc read reach state common f
  obtain ⟨w, hw, shown'⟩ := h.shows hd read hreach state (by rw [hvm]; exact common) f
  rw [hvm] at shown'
  exact ⟨v, w, hv, shown, hw, shown'⟩

/-- A shared interrupt in a list register of the second core. -/
def lodged : Machine :=
  (started 2 [1] [.standard .v2 1 64 [0, 1] []]).run
    [⟨0, store (distributorBase + 0x104) 4 1⟩, ⟨0, store (distributorBase + 0x820) 1 2⟩, ⟨1, .inject 32⟩]

theorem reachable_lodged : lodged.Reachable := (reachable_started (by decide +kernel)).run _

/-- The core of a CPU of the lodged machine. -/
def lodgedCore (k : Nat) : Core := ⟨k, k, lodged.firstVm, lodged.interfaces.get k, lodged.bus, lodged.gic⟩

theorem core?_lodged {k : Nat} (hk : lodged.firstVm.pcpuOf? k = some k) : lodged.core? k = some (0, lodgedCore k) :=
  reachable_lodged.arises.sound.core_of_pcpuOf? (vms_zero (by decide +kernel)) hk

/-- A load of the pending bits of the first shared interrupts. -/
def asking : Access := ⟨distributorBase + 0x204, 4, false, 0, false, false⟩

theorem reads_state_lodged : lodged.firstVm.awayFrom 0 (.shared 32) = true ∧
    (lodged.trueState lodged.firstVm (.shared 32)).pending = true ∧
    ∃ v w, ((lodgedCore 0).access asking (.constant 0)).2.1 = asking.finishLoad (.constant 0) v ∧ v.getLsbD 0 = false ∧
      ((lodgedCore 1).access asking (.constant 0)).2.1 = asking.finishLoad (.constant 0) w ∧ w.getLsbD 0 = true := by
  obtain ⟨v, w, hv, shown, hw, shown'⟩ := reachable_lodged.arises.reads_state (core?_lodged (k := 0) (by decide +kernel))
    (core?_lodged (k := 1) (by decide +kernel)) (a := asking) rfl
    (show _ = some (.setPending, (List.range 32).map (.shared <| 32 + ·)) by decide +kernel) rfl
    (.inr (by decide)) (.constant 0)
  refine ⟨by decide +kernel, by decide +kernel, v, w, by rw [hv], ?_, by rw [hw], ?_⟩
  · rw [shown 0 (by decide)]
    decide +kernel
  · rw [shown' 0 (by decide)]
    decide +kernel

/-- **State registers do not read the same everywhere**: the first core does not look into the list registers of the
second. -/
theorem not_same_reading : ¬ ∀ (m : Machine) (cpu k i : Nat) (c d : Core) (a : Access) (f : RegisterFile)
    (g : RegisterGroup) (ls : List Line), m.Reachable → m.Quiet → m.core? cpu = some (i, c) → m.core? k = some (i, d) →
    a.write = false → c.fields? a = some (g, ls) → g.shows?.isSome = true → (∀ l ∈ ls, l.home? = none) →
    (c.access a f).1 = true → (c.access a f).2.1 = (d.access a f).2.1 := by
  intro h
  have same := h lodged 0 1 0 _ _ asking (.constant 0) .setPending ((List.range 32).map (.shared <| 32 + ·))
    reachable_lodged (quiet_of_all (by decide +kernel)) (core?_lodged (by decide +kernel))
    (core?_lodged (by decide +kernel)) rfl (by decide +kernel) rfl (by decide) (by decide +kernel)
  have differ : ((lodgedCore 0).access asking (.constant 0)).2.1.get 0 ≠
      ((lodgedCore 1).access asking (.constant 0)).2.1.get 0 := by decide +kernel
  exact differ (congrArg (·.get 0) same)

end Machine
end VirtualGic
