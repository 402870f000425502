import VirtualGic.Proofs.Mirror
/-!
# Building a VM

A VM of a table is built as a whole or not at all.  Once the table is without faults and all its CPUs have an inbox, no
line that it passes through can be refused (`Vm.exists_passThroughAll`), so nothing has been written where building fails,
and `Vm.Built` says what is there where it succeeds (`Machine.addVm_spec`).
-/
namespace VirtualGic

namespace Partition

/-- Where the lines that are passed through go at first. -/
def firstDelivery (p : Partition) : Delivery :=
  match p.version with
  | .v2 => .mask (.single (p.cpus.getD 0 0))
  | .v3 => .cpu (p.cpus.getD 0 0)

/-- The record of an interrupt at first. -/
def firstRecord (p : Partition) : Line → Interrupt
  | .banked v id => .banked p.version v (p.cpus.getD v 0) id
  | .shared id =>
    { Interrupt.shared (if id ∈ p.passthrough then p.firstDelivery else .cpu (p.cpus.getD 0 0)) with
      hardware := decide (id ∈ p.passthrough) }

end Partition

namespace Vm

/-- A new VM of a table, and what building it did to the physical distributor. -/
structure Built (p : Partition) (g : PhysicalGic) (vm : Vm) (g' : PhysicalGic) : Prop where
  partition : vm.partition = p
  pinned : ∀ v, vm.pcpuOf? v = p.cpus[v]?
  runs : ∀ v cpu, vm.vcpuOn? cpu = some v ↔ p.cpus[v]? = some cpu
  /-- A number names an interrupt for the vCPUs that there are, and a shared one for any. -/
  found : ∀ v id, (vm.find? v id).isSome = true ↔ id < p.interrupts ∧ (v < p.cpus.length ∨ privateInterrupts ≤ id)
  named : ∀ v id l, vm.find? v id = some l → l.id = id ∧ l.home? = if id < privateInterrupts then some v else none
  records : ∀ v id l, vm.find? v id = some l → vm.interrupt l = p.firstRecord l
  spillList : ∀ home, vm.spillList home = []
  /-- The lines that are passed through exist, and are delivered to the first CPU. -/
  taken : ∀ id ∈ p.passthrough, ∃ line, g.line? id = some line ∧
    g'.line? id = some { line with delivery := p.firstDelivery }
  spared : ∀ id ∉ p.passthrough, g'.line? id = g.line? id
  enables : g'.enables = g.enables
  sent : g'.sent = g.sent

variable {vm vm' : Vm} {p : Partition} {g g' : PhysicalGic} {ids : List Nat} {v cpu cpus id : Nat}

/-! ## The first delivery -/

theorem pcpusOf_single (checked : vm.partition.Checked) (hv : vm.pcpuOf? v = some cpu) :
    vm.pcpusOf (.single v) = .single cpu := by
  have lt : v < vm.vcpuCount := (List.getElem?_eq_some_iff.1 hv).1
  have small : v < 64 := Nat.lt_of_lt_of_le lt (Nat.le_trans checked.cpus_le (by decide))
  refine BitVec.eq_of_getLsbD_eq fun i _ => ?_
  rw [pcpusOf, CpuSet.getLsbD_ofList, CpuSet.getLsbD_single]
  congr 1
  rw [Bool.eq_iff_iff, List.contains_iff_mem, List.mem_filterMap, beq_iff_eq]
  constructor
  · rintro ⟨w, hw, hi⟩
    have hw := (List.mem_filter.1 hw).2
    rw [CpuSet.getLsbD_single, Bool.and_eq_true, beq_iff_eq] at hw
    rw [← hw.2, hv] at hi
    exact Option.some.inj hi
  · rintro rfl
    refine ⟨v, List.mem_filter.2 ⟨List.mem_range.2 lt, ?_⟩, hv⟩
    rw [CpuSet.getLsbD_single, decide_eq_true small, Bool.true_and, beq_self_eq_true]

/-- Under version 2 an interrupt at reset targets vCPU 0. -/
theorem targets_first (checked : vm.partition.Checked) (h2 : vm.version = .v2) {s : Interrupt} (targets : s.targets = 1)
    (id : Nat) : vm.targets (.shared id) s = .single 0 := by
  have first : s.targets.setWidth 64 = CpuSet.single 0 := by
    rw [targets]
    decide
  simp only [Vm.targets, h2, first]
  refine BitVec.eq_of_getLsbD_eq fun i _ => ?_
  rw [BitVec.getLsbD_and, getLsbD_vcpuSet checked, CpuSet.getLsbD_single, Bool.and_assoc]
  congr 1
  by_cases zero : 0 = i
  · have lt : i < vm.vcpuCount := zero ▸ List.length_pos_iff.2 checked.cpus_ne
    rw [decide_eq_true lt, Bool.and_true]
  · rw [beq_eq_false_iff_ne.2 zero, Bool.false_and]

/-- A route of zero names vCPU 0. -/
theorem delivery_reset (checked : vm.partition.Checked) (h3 : vm.version = .v3) (id : Nat) {s : Interrupt}
    (route : s.route = 0) : vm.delivery (.shared id) s = vm.deliveryTo (some 0) := by
  have first : 0 < vm.vcpuCount := List.length_pos_iff.2 checked.cpus_ne
  have any : routesAny (0 : BitVec 64) = false := by decide
  have zero : vm.routedVcpu? 0 = some 0 := by
    unfold routedVcpu?
    exact if_pos first
  simp only [delivery, h3, route, any, zero, Bool.false_eq_true, if_false]

/-- **An interrupt at reset is delivered to the first CPU.** -/
theorem delivery_first (checked : vm.partition.Checked) {s : Interrupt} (targets : s.targets = 1) (route : s.route = 0)
    (id : Nat) : vm.delivery (.shared id) s = vm.partition.firstDelivery := by
  obtain ⟨cpu, hcpu⟩ : ∃ cpu, vm.pcpuOf? 0 = some cpu := exists_pcpuOf? (List.length_pos_iff.2 checked.cpus_ne)
  have first : vm.partition.cpus.getD 0 0 = cpu := by
    rw [List.getD_eq_getElem?_getD]
    exact congrArg (·.getD 0) hcpu
  unfold Partition.firstDelivery
  rw [first]
  cases hver : vm.partition.version with
  | v3 => rw [delivery_reset checked hver id route, deliveryTo, Option.bind_some, hcpu]
  | v2 =>
    have h2 : vm.version = .v2 := hver
    have nonempty : (CpuSet.single cpu == 0) = false := by
      have lt : cpu < 64 := Nat.lt_of_lt_of_le (checked.cpu_lt cpu (List.mem_of_getElem? hcpu)) (by decide)
      rw [beq_eq_false_iff_ne]
      intro zero
      have bit : (CpuSet.single cpu).getLsbD cpu = true := by
        rw [CpuSet.getLsbD_single, decide_eq_true lt, Bool.true_and, beq_self_eq_true]
      rw [zero] at bit
      exact absurd bit (by simp)
    simp only [delivery, h2, targets_first checked h2 targets, pcpusOf_single checked hcpu, nonempty]
    rfl

/-! ## Taking over lines -/

/-- **No line of a range is refused.** -/
theorem exists_passThroughAll (ids : List Nat) (vm : Vm) (g : PhysicalGic)
    (h : ∀ id ∈ ids, privateInterrupts ≤ id ∧ id < vm.interruptCount) :
    ∃ vm' g', passThroughAll ids vm g = (.ok vm', g') := by
  induction ids generalizing vm g with
  | nil => exact ⟨vm, g, rfl⟩
  | cons id rest ih =>
    have range := h id List.mem_cons_self
    unfold passThroughAll passThrough
    rw [if_pos range]
    exact ih _ _ fun k hk => h k (List.mem_cons_of_mem _ hk)

theorem passThroughAll_logs (ids : List Nat) (vm : Vm) (g : PhysicalGic) (h : passThroughAll ids vm g = (.ok vm', g')) :
    g'.enables = g.enables ∧ g'.sent = g.sent := by
  induction ids generalizing vm g with
  | nil =>
    simp only [passThroughAll, Prod.mk.injEq] at h
    rw [h.2]
    exact ⟨rfl, rfl⟩
  | cons id rest ih =>
    unfold passThroughAll at h
    split at h
    next vm₁ g₁ h₁ =>
      obtain ⟨-, rfl⟩ := passThrough_eq_ok h₁
      obtain ⟨enables, sent⟩ := ih _ _ h
      exact ⟨enables.trans (PhysicalGic.enables_modifyLine ..), sent.trans (PhysicalGic.sent_modifyLine ..)⟩
    next => cases h

/-! ## The whole -/

/-- Building a VM either succeeds, for a table without faults whose CPUs have an inbox each, or writes nothing. -/
theorem create_cases (p : Partition) (cpus : Nat) (g : PhysicalGic) :
    (p.fault? = none ∧ (∀ cpu ∈ p.cpus, cpu < cpus) ∧ ∃ vm g', create p cpus g = (.ok vm, g')) ∨
      (¬ (p.fault? = none ∧ ∀ cpu ∈ p.cpus, cpu < cpus) ∧ ∃ e, create p cpus g = (.error e, g)) := by
  unfold create
  cases hf : p.fault? with
  | some e => exact .inr ⟨fun h => (by cases h.1), e, rfl⟩
  | none =>
    cases hcpu : p.cpus.find? (fun cpu => decide (cpus ≤ cpu)) with
    | some cpu =>
      have far : cpus ≤ cpu := by simpa using List.find?_some hcpu
      exact .inr ⟨fun h => absurd (h.2 cpu (List.mem_of_find?_eq_some hcpu)) (Nat.not_lt.2 far), _, rfl⟩
    | none =>
      have checked := (Partition.fault?_eq_none_iff p).1 hf
      refine .inl ⟨rfl, fun cpu hm => by simpa using List.find?_eq_none.1 hcpu cpu hm, ?_⟩
      exact exists_passThroughAll p.passthrough (reset p) g checked.passthrough_range

theorem interrupt_reset_first (checked : p.Checked) (id : Nat) :
    (reset p).interrupt (.shared id) = .shared (.cpu (p.cpus.getD 0 0)) := by
  have start : (reset p).interrupt (.shared id) = _ := Table.get_constant ..
  rw [start]
  cases hcpus : p.cpus with
  | nil => exact absurd hcpus checked.cpus_ne
  | cons cpu rest => rfl

theorem delivery_reset_first (checked : p.Checked) (id : Nat) :
    (reset p).delivery (.shared id) ((reset p).interrupt (.shared id)) = p.firstDelivery := by
  have same : (reset p).partition.Checked := checked
  rw [interrupt_reset_first checked]
  exact delivery_first same rfl rfl id

theorem interrupt_create (h : create p cpus g = (.ok vm, g')) {l : Line} (hl : vm.Has l) :
    vm.interrupt l = p.firstRecord l := by
  cases l with
  | banked v id => exact interrupt_create_banked h hl
  | shared id =>
    obtain ⟨hp, checked, -, fresh⟩ := create_spec h
    obtain ⟨-, -, all⟩ := create_eq_ok h
    obtain ⟨others, those⟩ := passThroughAll_lines _ _ _ all id
    obtain ⟨hw, d, e⟩ := interrupt_create_shared h id
    have hardware : hw = decide (id ∈ p.passthrough) := by
      have := fresh.hardware _ hl
      rw [e, hp] at this
      exact Bool.eq_iff_iff.2 (this.trans decide_eq_true_iff.symm)
    have delivery : d = if id ∈ p.passthrough then p.firstDelivery else .cpu (p.cpus.getD 0 0) := by
      rw [e] at others those
      split
      next hid => exact (those hid).2.trans (delivery_reset_first checked id)
      next hid =>
        exact (others hid).2.trans (congrArg Interrupt.delivery (interrupt_reset_first checked id))
    rw [e, hardware, delivery]
    rfl

theorem built_create (h : create p cpus g = (.ok vm, g')) : vm.Built p g g' := by
  obtain ⟨hp, checked, -, fresh⟩ := create_spec h
  obtain ⟨-, -, all⟩ := create_eq_ok h
  obtain ⟨enables, sent⟩ := passThroughAll_logs _ _ _ all
  have hc : vm.partition.Checked := by rw [hp]; exact checked
  have pinned (v : Nat) : vm.pcpuOf? v = p.cpus[v]? := by rw [← hp]; rfl
  refine ⟨hp, pinned, fun v cpu => by rw [vcpuOn?_eq_some_iff hc, pinned], fun v id => ?_, fun v id l hl => ?_,
    fun v id l hl => interrupt_create h (has_of_find? hl), fresh.spillList, fun id hid => ?_, fun id hid => ?_, enables, sent⟩
  · rw [isSome_find?_iff, interruptCount, vcpuCount, hp]
  · exact ⟨id_of_find? hl, home?_of_find? hl⟩
  · have lt : id < maxInterrupts := Nat.lt_of_lt_of_le (checked.passthrough_range id hid).2 checked.count_le
    have line : g.line? id = some (g.lines.get id) := if_pos lt
    refine ⟨_, line, ?_⟩
    rw [((passThroughAll_lines _ _ _ all id).2 hid).1, line, delivery_reset_first checked]
    rfl
  · exact ((passThroughAll_lines _ _ _ all id).1 hid).1

end Vm

namespace Machine

/-- **A VM is built as a whole or not at all.** -/
theorem addVm_spec (m : Machine) (p : Partition) :
    ((m.addVm p).1 = none ↔ p.fault? = none ∧ ∀ cpu ∈ p.cpus, cpu < m.bus.cpus) ∧
    ((m.addVm p).1 ≠ none → (m.addVm p).2 = m) ∧
    ((m.addVm p).1 = none → ∃ vm gic, (m.addVm p).2 = { m with gic := gic, vms := m.vms.push vm } ∧
      vm.Built p m.gic gic) := by
  unfold addVm
  rcases Vm.create_cases p m.bus.cpus m.gic with ⟨hf, hcpus, vm, g', h⟩ | ⟨hn, e, h⟩
  · rw [h]
    exact ⟨iff_of_true rfl ⟨hf, hcpus⟩, fun hne => absurd rfl hne, fun _ => ⟨vm, g', rfl, Vm.built_create h⟩⟩
  · rw [h]
    exact ⟨iff_of_false nofun hn, fun _ => rfl, nofun⟩

/-- Line 40 of a pair of CPUs goes to the first one of the table, and a CPU without an inbox is refused. -/
theorem addVm_spec_pair :
    (∃ vm gic, ((create 2 [1] true).addVm (.standard .v2 1 64 [1, 0] [40])).2 =
        { create 2 [1] true with gic := gic, vms := #[vm] } ∧
      gic.line? 40 = some { PhysicalLine.reset with delivery := .mask (.single 1) }) ∧
    ((create 2 [1] true).addVm (.standard .v2 1 64 [1, 2] [40])).1 = some (.invalidCpu 1 2) ∧
    ((create 2 [1] true).addVm (.standard .v2 1 64 [1, 2] [40])).2 = create 2 [1] true := by
  have accepted : ((create 2 [1] true).addVm (.standard .v2 1 64 [1, 0] [40])).1 = none :=
    (addVm_spec _ _).1.2 ⟨by decide, by decide⟩
  have refused : ((create 2 [1] true).addVm (.standard .v2 1 64 [1, 2] [40])).1 = some (.invalidCpu 1 2) := by
    decide
  obtain ⟨vm, gic, whole, built⟩ := (addVm_spec _ _).2.2 accepted
  refine ⟨⟨vm, gic, whole, ?_⟩, refused, (addVm_spec _ _).2.1 (by rw [refused]; nofun)⟩
  obtain ⟨line, before, after⟩ := built.taken 40 (by decide)
  have start : (create 2 [1] true).gic.line? 40 = some .reset := congrArg some (Table.get_constant ..)
  rw [after, Option.some.inj (start.symm.trans before)]
  rfl

end Machine
end VirtualGic
