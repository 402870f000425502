import VirtualGic.Proofs.Partition
import VirtualGic.Vm.Routing
/-!
# The interrupts of a VM

`Vm.Has` says which lines a VM has, `Line.SeenBy` which of them a vCPU can name: looking a number up finds
exactly these (`find?_eq_some_iff`).
-/
namespace VirtualGic

def Line.SeenBy (l : Line) (vcpu : Nat) : Prop := ∀ home, l.home? = some home → home = vcpu

theorem Line.seenBy_home {l : Line} {home : Nat} (h : l.home? = some home) : l.SeenBy home := by
  intro v hv
  rw [h] at hv
  exact (Option.some.inj hv).symm

theorem Line.seenBy_shared {l : Line} (h : l.home? = none) (vcpu : Nat) : l.SeenBy vcpu := by
  intro v hv
  rw [h] at hv
  cases hv

/-! ## Looking a number up -/

namespace Vm

/-- The lines of a VM: the private numbers in each vCPU's bank, the others shared. -/
def Has (vm : Vm) (l : Line) : Prop :=
  l.id < vm.interruptCount ∧ (l.isBanked = true ↔ l.id < privateInterrupts) ∧
    ∀ home, l.home? = some home → home < vm.vcpuCount

theorem find?_eq_some_iff (vm : Vm) (vcpu id : Nat) (l : Line) :
    vm.find? vcpu id = some l ↔ vm.Has l ∧ l.SeenBy vcpu ∧ l.id = id := by
  unfold find?
  by_cases hc : vm.interruptCount ≤ id
  · rw [if_pos hc]
    constructor
    · intro h; cases h
    · rintro ⟨⟨hlt, -⟩, -, rfl⟩
      omega
  rw [if_neg hc]
  by_cases hp : isPrivateId id = true
  · rw [if_pos hp]
    have hp : id < privateInterrupts := by simpa [isPrivateId] using hp
    by_cases hv : vcpu < vm.vcpuCount
    · rw [if_pos hv]
      constructor
      · rintro ⟨⟩
        refine ⟨⟨Nat.lt_of_not_le hc, ⟨fun _ => hp, fun _ => rfl⟩, ?_⟩, Line.seenBy_home rfl, rfl⟩
        rintro home ⟨⟩
        exact hv
      · rintro ⟨⟨-, hb, -⟩, hs, rfl⟩
        cases l with
        | shared id => cases hb.2 hp
        | banked u id => rw [hs u rfl]; rfl
    · rw [if_neg hv]
      constructor
      · intro h; cases h
      · rintro ⟨⟨-, hb, hh⟩, hs, rfl⟩
        cases l with
        | shared id => cases hb.2 hp
        | banked u id => exact absurd (hs u rfl ▸ hh u rfl) hv
  · rw [if_neg hp]
    have hp : ¬ id < privateInterrupts := by simpa [isPrivateId] using hp
    constructor
    · rintro ⟨⟩
      exact ⟨⟨Nat.lt_of_not_le hc, ⟨fun h => (by cases h), fun h => absurd h hp⟩, fun _ h => (by cases h)⟩,
        Line.seenBy_shared rfl vcpu, rfl⟩
    · rintro ⟨⟨-, hb, -⟩, -, rfl⟩
      cases l with
      | shared id => rfl
      | banked u id => exact absurd (hb.1 rfl) hp

/-- The numbers below the count name interrupts: the private ones for the vCPUs that there are, the others for any. -/
theorem isSome_find?_iff (vm : Vm) (vcpu id : Nat) :
    (vm.find? vcpu id).isSome = true ↔ id < vm.interruptCount ∧ (vcpu < vm.vcpuCount ∨ privateInterrupts ≤ id) := by
  unfold find? isPrivateId
  by_cases hc : vm.interruptCount ≤ id
  · simp [hc, Nat.not_lt.2 hc]
  by_cases hp : id < privateInterrupts
  · by_cases hv : vcpu < vm.vcpuCount <;> simp [hc, Nat.lt_of_not_le hc, hp, hv]
  · simp [hc, Nat.lt_of_not_le hc, hp, Nat.le_of_not_lt hp]

theorem home?_of_find? {vm : Vm} {vcpu id : Nat} {l : Line} (h : vm.find? vcpu id = some l) :
    l.home? = if id < privateInterrupts then some vcpu else none := by
  obtain ⟨has, seen, rfl⟩ := (vm.find?_eq_some_iff vcpu id l).1 h
  cases l with
  | banked u id => rw [if_pos (has.2.1.1 rfl), ← seen u rfl]; rfl
  | shared id => rw [if_neg fun hp => by cases has.2.1.2 hp]; rfl

theorem has_of_find? {vm : Vm} {vcpu id : Nat} {l : Line} (h : vm.find? vcpu id = some l) : vm.Has l :=
  ((vm.find?_eq_some_iff vcpu id l).1 h).1

theorem id_of_find? {vm : Vm} {vcpu id : Nat} {l : Line} (h : vm.find? vcpu id = some l) : l.id = id :=
  ((vm.find?_eq_some_iff vcpu id l).1 h).2.2

theorem find?_id {vm : Vm} {vcpu : Nat} {l : Line} (has : vm.Has l) (seen : l.SeenBy vcpu) :
    vm.find? vcpu l.id = some l :=
  (vm.find?_eq_some_iff vcpu l.id l).2 ⟨has, seen, rfl⟩

theorem eq_of_id {vm : Vm} {vcpu : Nat} {l k : Line} (hl : vm.Has l) (hk : vm.Has k) (sl : l.SeenBy vcpu)
    (sk : k.SeenBy vcpu) (hid : l.id = k.id) : l = k := by
  have := find?_id hl sl
  rw [hid, find?_id hk sk] at this
  exact (Option.some.inj this).symm

theorem eq_of_home {vm : Vm} {l k : Line} (hl : vm.Has l) (hk : vm.Has k) (hh : l.home? = k.home?)
    (hid : l.id = k.id) : l = k := by
  cases h : l.home? with
  | none => exact eq_of_id hl hk (Line.seenBy_shared h 0) (Line.seenBy_shared (hh ▸ h) 0) hid
  | some home => exact eq_of_id hl hk (Line.seenBy_home h) (Line.seenBy_home (hh ▸ h)) hid

/-! ## What depends on the table only -/

section Table
variable {vm vm' : Vm}

theorem has_congr (h : vm'.partition = vm.partition) (l : Line) : vm'.Has l ↔ vm.Has l := by
  unfold Has interruptCount vcpuCount
  rw [h]

theorem find?_congr (h : vm'.partition = vm.partition) (vcpu id : Nat) : vm'.find? vcpu id = vm.find? vcpu id := by
  unfold find? interruptCount vcpuCount
  rw [h]

theorem version_congr (h : vm'.partition = vm.partition) : vm'.version = vm.version := by
  unfold version
  rw [h]

theorem vcpuCount_congr (h : vm'.partition = vm.partition) : vm'.vcpuCount = vm.vcpuCount := by
  unfold vcpuCount
  rw [h]

theorem countsRequesters_congr (h : vm'.partition = vm.partition) (l : Line) :
    vm'.countsRequesters l = vm.countsRequesters l := by
  unfold countsRequesters
  rw [version_congr h]

theorem pcpuOf?_congr (h : vm'.partition = vm.partition) (vcpu : Nat) : vm'.pcpuOf? vcpu = vm.pcpuOf? vcpu := by
  unfold pcpuOf?
  rw [h]

theorem targets_congr (h : vm'.partition = vm.partition) (l : Line) (s : Interrupt) :
    vm'.targets l s = vm.targets l s := by
  unfold targets vcpuSet routedVcpu?
  rw [version_congr h, vcpuCount_congr h]

theorem delivery_congr (h : vm'.partition = vm.partition) (l : Line) (s : Interrupt) :
    vm'.delivery l s = vm.delivery l s := by
  unfold delivery deliveryTo pcpusOf vcpuIds routedVcpu?
  rw [version_congr h, targets_congr h, vcpuCount_congr h, funext (pcpuOf?_congr h)]

end Table

/-- The delivery follows from what is written to the record's targets or route. -/
theorem delivery_eq {vm : Vm} {l : Line} {s t : Interrupt} (targets : t.targets = s.targets) (route : t.route = s.route) :
    vm.delivery l t = vm.delivery l s := by
  unfold delivery Vm.targets
  rw [targets, route]

end Vm

end VirtualGic
