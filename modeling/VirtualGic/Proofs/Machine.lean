import VirtualGic.Machine.Step
import VirtualGic.Machine.View
import VirtualGic.Proofs.Ownership
/-!
# Sound machines

`Machine.Sound`: every VM is pinned to CPUs of its own, its records and spill lists are in order, and the list
registers of each of its CPUs agree with them.  A CPU that works on its core keeps this for all of them, because a
core changes only what it may claim.
-/
namespace VirtualGic

/-! ## Tables -/

namespace Table

variable {α : Type} {t : Table α} {i : Nat}

theorem size_set (h : i < t.cells.size) (a : α) : (t.set i a).cells.size = t.cells.size := by
  simp only [set, h, if_true, Array.size_setIfInBounds]

theorem set_set (h : i < t.cells.size) (a b : α) : (t.set i a).set i b = t.set i b := by
  simp only [set, h, if_true, Array.size_setIfInBounds, Array.setIfInBounds_setIfInBounds]

end Table

namespace Machine

structure Sound (m : Machine) : Prop where
  interfaces : m.interfaces.cells.size = m.bus.cpus
  checked : ∀ {i : Nat} {vm : Vm}, m.vms[i]? = some vm → vm.partition.Checked
  reaches : ∀ {i : Nat} {vm : Vm}, m.vms[i]? = some vm → ∀ v cpu, vm.pcpuOf? v = some cpu → cpu < m.bus.cpus
  assigned : ∀ {i : Nat} {vm : Vm}, m.vms[i]? = some vm → ∀ v cpu, vm.pcpuOf? v = some cpu → m.assignments.get cpu = some ⟨i, v⟩
  runs : ∀ {cpu i v : Nat}, m.assignments.get cpu = some ⟨i, v⟩ → ∃ vm, m.vms[i]? = some vm ∧ vm.pcpuOf? v = some cpu
  records : ∀ {i : Nat} {vm : Vm}, m.vms[i]? = some vm → ∀ l, vm.Has l → (vm.interrupt l).Lawful vm l
  rest : ∀ {i : Nat} {vm : Vm}, m.vms[i]? = some vm → ∀ l, vm.Has l → (vm.interrupt l).AtRest l
  lists : ∀ {i : Nat} {vm : Vm}, m.vms[i]? = some vm → vm.Listed
  seated : ∀ {i : Nat} {vm : Vm}, m.vms[i]? = some vm → ∀ v cpu, vm.pcpuOf? v = some cpu → vm.Seated v (m.interfaces.get cpu)

/-- What a sound machine says of one of its VMs. -/
structure Houses (m : Machine) (i : Nat) (vm : Vm) : Prop where
  checked : vm.partition.Checked
  reaches : ∀ v cpu, vm.pcpuOf? v = some cpu → cpu < m.bus.cpus
  assigned : ∀ v cpu, vm.pcpuOf? v = some cpu → m.assignments.get cpu = some ⟨i, v⟩
  records : ∀ l, vm.Has l → (vm.interrupt l).Lawful vm l
  rest : ∀ l, vm.Has l → (vm.interrupt l).AtRest l
  lists : vm.Listed
  seated : ∀ v cpu, vm.pcpuOf? v = some cpu → vm.Seated v (m.interfaces.get cpu)

variable {m m' : Machine} {cpu i j v : Nat} {c c' : Core} {vm : Vm} {l : Line}

theorem Sound.houses (h : m.Sound) (hvm : m.vms[i]? = some vm) : m.Houses i vm :=
  ⟨h.checked hvm, h.reaches hvm, h.assigned hvm, h.records hvm, h.rest hvm, h.lists hvm, h.seated hvm⟩

theorem Sound.of_houses (interfaces : m.interfaces.cells.size = m.bus.cpus)
    (runs : ∀ {cpu i v : Nat}, m.assignments.get cpu = some ⟨i, v⟩ → ∃ vm, m.vms[i]? = some vm ∧ vm.pcpuOf? v = some cpu)
    (houses : ∀ {i : Nat} {vm : Vm}, m.vms[i]? = some vm → m.Houses i vm) : m.Sound :=
  ⟨interfaces, fun h => (houses h).checked, fun h => (houses h).reaches, fun h => (houses h).assigned, runs,
    fun h => (houses h).records, fun h => (houses h).rest, fun h => (houses h).lists, fun h => (houses h).seated⟩

/-! ## Cores -/

theorem vm_of_core? (h : m.core? cpu = some (i, c)) : m.vms[i]? = some c.vm := by
  obtain ⟨v, vm, -, hv, rfl⟩ := (m.core?_eq_some_iff cpu i c).1 h
  exact hv

theorem cpu_of_core? (h : m.core? cpu = some (i, c)) : c.cpu = cpu := by
  obtain ⟨v, vm, -, hv, rfl⟩ := (m.core?_eq_some_iff cpu i c).1 h
  rfl

theorem interface_of_core? (h : m.core? cpu = some (i, c)) : c.interface = m.interfaces.get cpu := by
  obtain ⟨v, vm, -, hv, rfl⟩ := (m.core?_eq_some_iff cpu i c).1 h
  rfl

theorem bus_of_core? (h : m.core? cpu = some (i, c)) : c.bus = m.bus := by
  obtain ⟨v, vm, -, hv, rfl⟩ := (m.core?_eq_some_iff cpu i c).1 h
  rfl

theorem assignment_of_core? (h : m.core? cpu = some (i, c)) : m.assignments.get cpu = some ⟨i, c.vcpu⟩ := by
  obtain ⟨v, vm, ha, hv, rfl⟩ := (m.core?_eq_some_iff cpu i c).1 h
  exact ha

theorem Sound.here (h : m.Sound) (hc : m.core? cpu = some (i, c)) : c.vm.pcpuOf? c.vcpu = some cpu := by
  obtain ⟨vm, hv, hp⟩ := h.runs (assignment_of_core? hc)
  rw [vm_of_core? hc] at hv
  cases hv
  exact hp

/-- Every core of a sound machine is sound. -/
theorem Sound.core (h : m.Sound) (hc : m.core? cpu = some (i, c)) : c.Sound := by
  have hvm := vm_of_core? hc
  refine ⟨⟨h.checked hvm, by rw [cpu_of_core? hc]; exact h.here hc, ?_⟩, h.records hvm, h.lists hvm, ?_⟩
  · rw [bus_of_core? hc]
    exact h.reaches hvm
  · rw [interface_of_core? hc]
    exact h.seated hvm _ _ (h.here hc)

theorem Sound.cpu_lt (h : m.Sound) (hc : m.core? cpu = some (i, c)) : cpu < m.interfaces.cells.size := by
  rw [h.interfaces]
  exact h.reaches (vm_of_core? hc) _ _ (h.here hc)

theorem Sound.core_of_pcpuOf? (h : m.Sound) (hvm : m.vms[i]? = some vm) (hp : vm.pcpuOf? v = some cpu) :
    m.core? cpu = some (i, ⟨cpu, v, vm, m.interfaces.get cpu, m.bus, m.gic⟩) :=
  (m.core?_eq_some_iff ..).2 ⟨v, vm, h.assigned hvm v cpu hp, hvm, rfl⟩

theorem step_of_core? (hc : m.core? cpu = some (i, c)) (a : Action) : m.step ⟨cpu, a⟩ = m.putCore i (c.act a) := by
  unfold step onCore
  rw [hc]

theorem step_of_idle (hc : m.core? cpu = none) (a : Action) : m.step ⟨cpu, a⟩ = m := by
  unfold step onCore
  rw [hc]

theorem vms_putCore_self (hc : m.core? cpu = some (i, c)) (c' : Core) : (m.putCore i c').vms[i]? = some c'.vm := by
  have hlt : i < m.vms.size := (Array.getElem?_eq_some_iff.1 (vm_of_core? hc)).1
  simp [putCore, hlt]

theorem vm_of_putCore (hc : m.core? cpu = some (i, c)) (h : (m.putCore i c').vms[j]? = some vm) :
    j = i ∧ vm = c'.vm ∨ j ≠ i ∧ m.vms[j]? = some vm := by
  by_cases hj : j = i
  · subst hj
    rw [vms_putCore_self hc] at h
    exact .inl ⟨rfl, (Option.some.inj h).symm⟩
  · rw [vms_putCore _ _ _ _ (Ne.symm hj)] at h
    exact .inr ⟨hj, h⟩

/-- The records that another vCPU's slots are credited to are not this core's to change. -/
theorem seated_of_local (h : c.vm.Seated v (m.interfaces.get cpu)) (hv : v ≠ c.vcpu) (hl : Core.Local c c') :
    c'.vm.Seated v (m.interfaces.get cpu) := by
  refine h.congr hl.partition (fun l n hhas hcr => ?_) (fun n => hl.occupant v n hv)
  rcases hl.record l hhas with e | ⟨h1, h2⟩
  · exact e
  · exfalso
    rcases hcr with hcr | hcr
    · rcases (c.mayClaim_iff l).1 h1 with ho | ho
      · exact absurd (ho.symm.trans hcr.1) (by simp)
      · exact hv (Option.some.inj (hcr.1.symm.trans ho))
    · rcases (c'.mayClaim_iff l).1 h2 with ho | ho
      · exact absurd (ho.symm.trans hcr.1) (by simp)
      · rw [hl.vcpu] at ho
        exact hv (Option.some.inj (hcr.1.symm.trans ho))

theorem cpus_putCore (hc : m.core? cpu = some (i, c)) (hl : Core.Local c c') : (m.putCore i c').bus.cpus = m.bus.cpus :=
  hl.cpus.trans (by rw [bus_of_core? hc])

/-- The VM of the core that works. -/
theorem Sound.houses_self (h : m.Sound) (hc : m.core? cpu = some (i, c)) (hs : c'.Sound) (hl : Core.Local c c')
    (rest : ∀ l, c.vm.Has l → (c'.interrupt l).AtRest l) : (m.putCore i c').Houses i c'.vm := by
  have hvm := vm_of_core? hc
  have hcpu : c'.cpu = cpu := hl.cpu.trans (cpu_of_core? hc)
  have hpart : c'.vm.partition = c.vm.partition := hl.partition
  have was : ∀ {v k : Nat}, c'.vm.pcpuOf? v = some k → c.vm.pcpuOf? v = some k := fun hp => by
    rwa [Vm.pcpuOf?_congr hpart] at hp
  refine ⟨hs.station.checked, fun v k hp => ?_, fun v k hp => h.assigned hvm v k (was hp), hs.records,
    fun l hh => rest l ((Vm.has_congr hpart l).1 hh), hs.lists, fun v k hp => ?_⟩
  · rw [cpus_putCore hc hl]
    exact h.reaches hvm v k (was hp)
  · rw [interfaces_putCore, hcpu]
    split
    next e =>
      subst e
      rw [(h.checked hvm).cpu_inj (was hp) (h.here hc), ← hl.vcpu]
      exact hs.seated
    next hne =>
      refine seated_of_local (h.seated hvm v k (was hp)) (fun hv => hne ?_) hl
      rw [hv] at hp
      exact Option.some.inj ((h.here hc).symm.trans (was hp))

/-- The other VMs do not run on the core's CPU. -/
theorem Sound.houses_other (h : m.Sound) (hc : m.core? cpu = some (i, c)) (hl : Core.Local c c') (hji : j ≠ i)
    (hj : m.vms[j]? = some vm) : (m.putCore i c').Houses j vm := by
  have house := h.houses hj
  refine { house with reaches := fun v k hp => ?_, seated := fun v k hp => ?_ }
  · rw [cpus_putCore hc hl]
    exact house.reaches v k hp
  · rw [interfaces_putCore, hl.cpu, cpu_of_core? hc]
    split
    next e =>
      subst e
      have ha := house.assigned v cpu hp
      rw [assignment_of_core? hc] at ha
      cases ha
      exact absurd rfl hji
    next => exact house.seated v k hp

/-- **A CPU that works on its core keeps the machine sound.** -/
theorem Sound.putCore (h : m.Sound) (hc : m.core? cpu = some (i, c)) (hs : c'.Sound) (hl : Core.Local c c')
    (rest : ∀ l, c.vm.Has l → (c'.interrupt l).AtRest l) : (m.putCore i c').Sound := by
  refine .of_houses ?_ (fun {k j v} ha => ?_) fun {j vm} hj => ?_
  · rw [cpus_putCore hc hl]
    show (m.interfaces.set c'.cpu c'.interface).cells.size = m.bus.cpus
    rw [hl.cpu, cpu_of_core? hc, Table.size_set (h.cpu_lt hc)]
    exact h.interfaces
  · obtain ⟨vm, hv, hp⟩ := h.runs (show m.assignments.get k = some ⟨j, v⟩ from ha)
    by_cases hj : j = i
    · subst hj
      obtain rfl := Option.some.inj ((vm_of_core? hc).symm.trans hv)
      exact ⟨c'.vm, vms_putCore_self hc c', by rw [Vm.pcpuOf?_congr hl.partition]; exact hp⟩
    · exact ⟨vm, by rw [vms_putCore _ _ _ _ (Ne.symm hj)]; exact hv, hp⟩
  · rcases vm_of_putCore hc hj with ⟨rfl, rfl⟩ | ⟨hji, hj⟩
    · exact h.houses_self hc hs hl rest
    · exact h.houses_other hc hl hji hj

/-! ## Putting back -/

theorem Sound.putCore_self (h : m.Sound) (hc : m.core? cpu = some (i, c)) : m.putCore i c = m := by
  have hlt := h.cpu_lt hc
  obtain ⟨v, vm, ha, hv, rfl⟩ := (m.core?_eq_some_iff cpu i c).1 hc
  obtain ⟨hi, e⟩ := Array.getElem?_eq_some_iff.1 hv
  have hvms : m.vms.setIfInBounds i vm = m.vms := by
    rw [← e]
    refine Array.ext_getElem? fun k => ?_
    rw [Array.getElem?_setIfInBounds]
    split
    next hk => rw [← hk, Array.getElem?_eq_getElem hi]
    next => rfl
  simp only [Machine.putCore, Table.set_get_self _ _ hlt, hvms]

theorem Sound.putCore_putCore {d : Core} (h : m.Sound) (hc : m.core? cpu = some (i, c)) (hc' : c'.cpu = cpu)
    (hd : d.cpu = cpu) : (m.putCore i c').putCore i d = m.putCore i d := by
  simp only [Machine.putCore, hc', hd, Table.set_set (h.cpu_lt hc), Array.setIfInBounds_setIfInBounds]

end Machine
end VirtualGic
