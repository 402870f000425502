import VirtualGic.Proofs.Machine
/-!
# Booting

Building the VMs of checked tables and attaching their CPUs gives a sound machine: all interrupts are idle, all list
registers empty, and no message waits.
-/
namespace VirtualGic

/-! ## A fresh VM -/

/-- A VM in which nothing has happened. -/
structure Vm.Fresh (vm : Vm) : Prop where
  state : ∀ l, vm.Has l → (vm.interrupt l).state = .idle
  resident : ∀ l, vm.Has l → (vm.interrupt l).resident = false
  spilled : ∀ l, vm.Has l → (vm.interrupt l).spilled = false
  owner : ∀ l, vm.Has l → (vm.interrupt l).owner = l.home?
  requesters : ∀ l, vm.Has l → (vm.interrupt l).requesters = 0
  hardware : ∀ l, vm.Has l → ((vm.interrupt l).hardware = true ↔ l.id ∈ vm.partition.passthrough)
  spillList : ∀ home, vm.spillList home = []

namespace Vm

variable {vm vm' : Vm} {p : Partition} {l : Line} {f : CpuInterface} {v : Nat}

theorem Fresh.lawful (h : vm.Fresh) (hl : vm.Has l) : (vm.interrupt l).Lawful vm l := by
  refine .of_off (h.resident l hl) (fun v hv => ?_) (fun _ home hh => ?_) (fun hs => ?_) (h.hardware l hl)
  · rw [h.owner l hl] at hv
    exact hl.2.2 v hv
  · rw [h.owner l hl]
    exact hh
  · rw [h.spilled l hl] at hs
    cases hs

theorem Fresh.atRest (h : vm.Fresh) (hl : vm.Has l) : (vm.interrupt l).AtRest l := by
  refine ⟨fun ha => ?_, fun v hv _ _ => ?_⟩
  · rw [h.state l hl] at ha
    cases ha
  · rw [← h.owner l hl]
    exact hv

theorem Fresh.listed (h : vm.Fresh) : vm.Listed := by
  refine ⟨fun l hl => ?_, fun home => ?_, fun home id hm => ?_⟩
  · rw [h.spillList, h.spilled l hl]
    simp
  · rw [h.spillList]
    exact List.nodup_nil
  · rw [h.spillList] at hm
    cases hm

theorem Fresh.seated (h : vm.Fresh) (hf : ∀ n, (f.read n).isEmpty = true) : vm.Seated v f := by
  refine ⟨fun n hn => ?_, fun l n hl hc => ?_⟩
  · rw [hf] at hn
    cases hn
  · have := hc.2.1
    rw [h.resident l hl] at this
    cases this

theorem interrupt_reset_shared (p : Partition) (id : Nat) :
    ∃ d, (reset p).interrupt (.shared id) = .shared d := ⟨_, Table.get_constant ..⟩

theorem interrupt_reset_banked (p : Partition) {v id : Nat} (hv : v < p.cpus.length) (hid : id < privateInterrupts) :
    (reset p).interrupt (.banked v id) = .banked p.version v (p.cpus.getD v 0) id := by
  simp only [interrupt, reset, Table.get_generate, hv, if_true, Vcpu.reset, hid]

theorem fresh_reset (p : Partition) (l : Line) (hl : (reset p).Has l) :
    ((reset p).interrupt l).state = .idle ∧ ((reset p).interrupt l).resident = false ∧
      ((reset p).interrupt l).spilled = false ∧ ((reset p).interrupt l).owner = l.home? ∧
      ((reset p).interrupt l).requesters = 0 ∧ ((reset p).interrupt l).hardware = false := by
  cases l with
  | shared id =>
    obtain ⟨d, e⟩ := interrupt_reset_shared p id
    rw [e]
    exact ⟨rfl, rfl, rfl, rfl, rfl, rfl⟩
  | banked v id =>
    have hid : id < privateInterrupts := hl.2.1.1 rfl
    rw [interrupt_reset_banked p (hl.2.2 v rfl) hid]
    exact ⟨rfl, rfl, rfl, rfl, rfl, rfl⟩

theorem spillList_reset (p : Partition) (home : Option Nat) : (reset p).spillList home = [] := by
  cases home with
  | none => rfl
  | some v =>
    simp only [spillList, reset, Table.get_generate]
    split <;> rfl

/-- Taking over a physical line writes its delivery, and the delivery in the record. -/
theorem passThrough_eq_ok {g g' : PhysicalGic} {id : Nat} (h : vm.passThrough g id = (.ok vm', g')) :
    vm' = vm.setInterrupt (.shared id) { vm.interrupt (.shared id) with
      hardware := true, delivery := vm.delivery (.shared id) (vm.interrupt (.shared id)) } ∧
    g' = g.setDelivery id (vm.delivery (.shared id) (vm.interrupt (.shared id))) := by
  unfold passThrough at h
  split at h
  next =>
    have e : vm.delivery (.shared id) { vm.interrupt (.shared id) with hardware := true } =
        vm.delivery (.shared id) (vm.interrupt (.shared id)) := delivery_eq rfl rfl
    simp only [Prod.mk.injEq, Except.ok.injEq, e] at h
    exact ⟨h.1.symm, h.2.symm⟩
  next => cases h

/-- Taking over physical lines changes who stands behind an interrupt, and nothing else that matters at the start. -/
theorem passThroughAll_spec (ids : List Nat) (vm : Vm) (g : PhysicalGic) {vm' : Vm} {g' : PhysicalGic}
    (h : passThroughAll ids vm g = (.ok vm', g')) :
    vm'.partition = vm.partition ∧ (∀ home, vm'.spillList home = vm.spillList home) ∧
      ∀ l, ∃ hw d, vm'.interrupt l = { vm.interrupt l with hardware := hw, delivery := d } ∧
        (hw = true ↔ (vm.interrupt l).hardware = true ∨ l.home? = none ∧ l.id ∈ ids) := by
  induction ids generalizing vm g with
  | nil =>
    simp only [passThroughAll, Prod.mk.injEq, Except.ok.injEq] at h
    rw [← h.1]
    refine ⟨rfl, fun _ => rfl, fun l => ⟨(vm.interrupt l).hardware, (vm.interrupt l).delivery, rfl, ?_⟩⟩
    simp
  | cons id rest ih =>
    unfold passThroughAll at h
    split at h
    next vm₁ g₁ h₁ =>
      obtain ⟨hp, hs, hi⟩ := ih vm₁ g₁ h
      obtain ⟨rfl, -⟩ := passThrough_eq_ok h₁
      refine ⟨hp.trans (partition_setInterrupt ..), fun home => (hs home).trans (spillList_setInterrupt ..), fun l => ?_⟩
      obtain ⟨hw, d, e, hiff⟩ := hi l
      rw [interrupt_setInterrupt] at e hiff
      by_cases hl : Line.shared id = l
      · rw [if_pos hl] at e hiff
        refine ⟨hw, d, by rw [e, hl], hiff.trans ⟨fun _ => .inr ?_, fun _ => .inl rfl⟩⟩
        rw [← hl]
        exact ⟨rfl, List.mem_cons_self⟩
      · rw [if_neg hl] at e hiff
        refine ⟨hw, d, e, hiff.trans (or_congr_right (and_congr_right fun hh => ?_))⟩
        rw [List.mem_cons, or_iff_right]
        intro hid
        cases l with
        | shared k => exact hl (congrArg Line.shared hid.symm)
        | banked v k => cases hh
    next => cases h

/-- A VM is built of a table without faults whose CPUs all have an inbox. -/
theorem create_eq_ok {cpus : Nat} {g g' : PhysicalGic} (h : create p cpus g = (.ok vm, g')) :
    p.Checked ∧ (∀ cpu ∈ p.cpus, cpu < cpus) ∧ passThroughAll p.passthrough (reset p) g = (.ok vm, g') := by
  unfold create at h
  split at h
  next => cases h
  next hf =>
    split at h
    next => cases h
    next hcpu =>
      exact ⟨(Partition.fault?_eq_none_iff p).1 hf, fun cpu hm => by simpa using List.find?_eq_none.1 hcpu cpu hm, h⟩

/-- **A VM that was built is fresh**, and all its CPUs have an inbox. -/
theorem create_spec {cpus : Nat} {g g' : PhysicalGic} (h : create p cpus g = (.ok vm, g')) :
    vm.partition = p ∧ p.Checked ∧ (∀ cpu ∈ p.cpus, cpu < cpus) ∧ vm.Fresh := by
  obtain ⟨hc, hreach, all⟩ := create_eq_ok h
  obtain ⟨hp, hs, hi⟩ := passThroughAll_spec p.passthrough (reset p) g all
  have hp : vm.partition = p := hp
  refine ⟨hp, hc, hreach, ?_⟩
  have fresh : ∀ l, vm.Has l → (reset p).Has l := fun l hl => (has_congr (hp.trans rfl) l).1 hl
  refine ⟨fun l hl => ?_, fun l hl => ?_, fun l hl => ?_, fun l hl => ?_, fun l hl => ?_, fun l hl => ?_,
    fun home => ?_⟩
  all_goals try
    obtain ⟨hw, d, e, hiff⟩ := hi l
    obtain ⟨h1, h2, h3, h4, h5, h6⟩ := fresh_reset p l (fresh l hl)
    rw [e]
  · exact h1
  · exact h2
  · exact h3
  · exact h4
  · exact h5
  · rw [show ({ (reset p).interrupt l with hardware := hw, delivery := d } : Interrupt).hardware = hw from rfl, hiff,
      h6, hp]
    constructor
    · rintro (e | ⟨-, hm⟩)
      · cases e
      · exact hm
    · intro hm
      refine .inr ⟨?_, hm⟩
      have hge := (hc.passthrough_range _ hm).1
      cases hh : l.home? with
      | none => rfl
      | some v =>
        have := hl.2.1.1 (by rw [Line.isBanked, hh]; rfl)
        omega
  · rw [hs]
    exact spillList_reset p home

/-- Taking over physical lines leaves the banked interrupts alone. -/
theorem passThroughAll_banked (ids : List Nat) (vm : Vm) (g : PhysicalGic) {vm' : Vm} {g' : PhysicalGic}
    (h : passThroughAll ids vm g = (.ok vm', g')) (v id : Nat) : vm'.interrupt (.banked v id) = vm.interrupt (.banked v id) := by
  induction ids generalizing vm g with
  | nil =>
    simp only [passThroughAll, Prod.mk.injEq, Except.ok.injEq] at h
    rw [← h.1]
  | cons k rest ih =>
    unfold passThroughAll at h
    split at h
    next vm₁ g₁ h₁ =>
      obtain ⟨rfl, -⟩ := passThrough_eq_ok h₁
      rw [ih _ g₁ h, interrupt_setInterrupt, if_neg fun e => by cases e]
    next => cases h

/-- The shared interrupts of a VM that was built are at reset, except for the lines behind them. -/
theorem interrupt_create_shared {cpus : Nat} {g g' : PhysicalGic} (h : create p cpus g = (.ok vm, g')) (id : Nat) :
    ∃ hw d, vm.interrupt (.shared id) = { Interrupt.shared d with hardware := hw } := by
  obtain ⟨-, -, all⟩ := create_eq_ok h
  obtain ⟨hw, d, e, -⟩ := (passThroughAll_spec _ _ _ all).2.2 (.shared id)
  obtain ⟨d₀, e₀⟩ := interrupt_reset_shared p id
  exact ⟨hw, d, by rw [e, e₀]; rfl⟩

/-- The banked interrupts of a VM that was built are at reset. -/
theorem interrupt_create_banked {cpus : Nat} {g g' : PhysicalGic} (h : create p cpus g = (.ok vm, g')) {v id : Nat}
    (hl : vm.Has (.banked v id)) : vm.interrupt (.banked v id) = .banked p.version v (p.cpus.getD v 0) id := by
  obtain ⟨-, -, all⟩ := create_eq_ok h
  have hl : (reset p).Has (.banked v id) := (has_congr (create_spec h).1.symm _).2 hl
  rw [passThroughAll_banked _ _ _ all]
  exact interrupt_reset_banked p (hl.2.2 v rfl) (hl.2.1.1 rfl)

theorem vcpuOn?_eq_some_iff (h : vm.partition.Checked) (cpu v : Nat) :
    vm.vcpuOn? cpu = some v ↔ vm.pcpuOf? v = some cpu := by
  unfold vcpuOn? pcpuOf?
  rw [List.idxOf?_eq_some_iff]
  constructor
  · rintro ⟨hlt, he, -⟩
    rw [List.getElem?_eq_getElem hlt, he]
  · intro he
    obtain ⟨hlt, he'⟩ := List.getElem?_eq_some_iff.1 he
    refine ⟨hlt, he', fun j hj hjeq => ?_⟩
    have hjlt : j < vm.partition.cpus.length := Nat.lt_trans hj hlt
    have := h.cpu_inj (by rw [List.getElem?_eq_getElem hjlt, hjeq]) he
    omega

end Vm

/-! ## Attaching -/

theorem CpuInterface.read_create (count n : Nat) : (CpuInterface.create count).read n = .empty := by
  simp only [CpuInterface.create, CpuInterface.read, Array.getD_eq_getD_getElem?, Array.getElem?_replicate]
  split <;> rfl

namespace Machine

variable {m m' : Machine} {vm : Vm} {index cpu : Nat}

/-- A VM was attached to CPUs, and nothing else. -/
structure Attached (m : Machine) (index : Nat) (vm : Vm) (cpus : List Nat) (m' : Machine) : Prop where
  vms : m'.vms = m.vms
  bus : m'.bus = m.bus
  gic : m'.gic = m.gic
  size : m'.interfaces.cells.size = m.interfaces.cells.size
  registers : ∀ cpu, (m'.interfaces.get cpu).registers = (m.interfaces.get cpu).registers
  control : ∀ cpu, (m'.interfaces.get cpu).control =
    if cpu ∈ cpus then startControl vm else (m.interfaces.get cpu).control
  assignments : ∀ cpu, m'.assignments.get cpu =
    if cpu ∈ cpus then (vm.vcpuOn? cpu).map (⟨index, ·⟩) else m.assignments.get cpu

theorem attached_attach (h : m.attach cpu index vm = .ok m') (hlt : cpu < m.interfaces.cells.size) :
    m.Attached index vm [cpu] m' := by
  unfold attach at h
  split at h
  next => cases h
  next v hv =>
    cases h
    refine ⟨rfl, rfl, rfl, Table.size_set hlt _, fun k => ?_, fun k => ?_, fun k => ?_⟩
    · simp only [Table.get_modify]
      split
      next e => rw [e]
      next => rfl
    · simp only [Table.get_modify, List.mem_singleton, eq_comm (a := cpu)]
      split <;> rfl
    · simp only [Table.get_set, List.mem_singleton, eq_comm (a := cpu)]
      split
      next e => rw [e, hv]; rfl
      next => rfl

theorem Attached.cons {m₁ : Machine} {rest : List Nat} (h : m.Attached index vm [cpu] m₁)
    (h' : m₁.Attached index vm rest m') : m.Attached index vm (cpu :: rest) m' := by
  have either {α : Type} (k : Nat) (x y : α) :
      (if k ∈ rest then x else if k ∈ [cpu] then x else y) = if k ∈ cpu :: rest then x else y := by
    simp only [List.mem_cons, List.not_mem_nil, or_false]
    by_cases hk : k = cpu <;> simp [hk]
  refine ⟨h'.vms.trans h.vms, h'.bus.trans h.bus, h'.gic.trans h.gic, h'.size.trans h.size,
    fun k => (h'.registers k).trans (h.registers k), fun k => ?_, fun k => ?_⟩
  · rw [h'.control, h.control, either]
  · rw [h'.assignments, h.assignments, either]

theorem attached_attachCpus (cpus : List Nat) (h : attachCpus index vm cpus m = .ok m')
    (hlt : ∀ cpu ∈ cpus, cpu < m.interfaces.cells.size) : m.Attached index vm cpus m' := by
  induction cpus generalizing m with
  | nil =>
    cases h
    exact ⟨rfl, rfl, rfl, rfl, fun _ => rfl, fun _ => rfl, fun _ => rfl⟩
  | cons k rest ih =>
    unfold attachCpus at h
    split at h
    next m₁ h₁ =>
      have first := attached_attach h₁ (hlt k List.mem_cons_self)
      exact first.cons (ih h fun cpu hc => Nat.lt_of_lt_of_eq (hlt cpu (List.mem_cons_of_mem _ hc)) first.size.symm)
    next => cases h

/-- A machine that runs the VMs of some tables, in which nothing has happened. -/
structure Booted (m : Machine) (ps : List Partition) : Prop where
  sound : m.Sound
  partitions : ∀ (i : Nat) (vm : Vm), m.vms[i]? = some vm → vm.partition ∈ ps
  unused : ∀ cpu, m.assignments.get cpu = none → ∀ n, ((m.interfaces.get cpu).read n).isEmpty = true
  fresh : ∀ (i : Nat) (vm : Vm), m.vms[i]? = some vm → vm.Fresh
  quiet : m.Quiet
  bus : m.bus.Sound

theorem isEmpty_create (count n : Nat) : ((CpuInterface.create count).read n).isEmpty = true := by
  rw [CpuInterface.read_create]
  exact Core.isEmpty_empty

theorem booted_create (cpus : Nat) (sizes : List Nat) (doorbell : Bool) : Booted (create cpus sizes doorbell) [] := by
  have none : ∀ (i : Nat) (vm : Vm), (create cpus sizes doorbell).vms[i]? = some vm → False := fun i vm h => by
    simp [create] at h
  have idle : ∀ cpu, (create cpus sizes doorbell).assignments.get cpu = .none := fun cpu => Table.get_constant ..
  refine ⟨⟨?_, fun h => (none _ _ h).elim, fun h => (none _ _ h).elim, fun h => (none _ _ h).elim, fun h => ?_,
    fun h => (none _ _ h).elim, fun h => (none _ _ h).elim, fun h => (none _ _ h).elim, fun h => (none _ _ h).elim⟩,
    fun _ _ h => (none _ _ h).elim, fun cpu _ n => ?_, fun _ _ h => (none _ _ h).elim, fun cpu => ?_,
    MessageBus.sound_create cpus doorbell⟩
  · simp [create, Table.generate, MessageBus.cpus, MessageBus.create]
  · rw [idle] at h
    cases h
  · simp only [create, Table.get_generate]
    split <;> exact isEmpty_create ..
  · exact congrArg Inbox.waiting (MessageBus.inbox_create cpus doorbell cpu)

/-- One more VM, of a table, was built and attached to its CPUs. -/
structure Joined (m : Machine) (p : Partition) (vm : Vm) (m' : Machine) : Prop where
  created : Vm.create p m.bus.cpus m.gic = (.ok vm, m'.gic)
  vms : m'.vms = m.vms.push vm
  bus : m'.bus = m.bus
  size : m'.interfaces.cells.size = m.bus.cpus
  registers : ∀ cpu, (m'.interfaces.get cpu).registers = (m.interfaces.get cpu).registers
  control : ∀ cpu, (m'.interfaces.get cpu).control =
    if cpu ∈ p.cpus then startControl vm else (m.interfaces.get cpu).control
  assignments : ∀ cpu, m'.assignments.get cpu =
    if cpu ∈ p.cpus then (vm.vcpuOn? cpu).map (⟨m.vms.size, ·⟩) else m.assignments.get cpu

theorem bootVm_spec {p : Partition} (h : m.bootVm p = .ok m') (size : m.interfaces.cells.size = m.bus.cpus) :
    ∃ vm, m.Joined p vm m' := by
  unfold bootVm at h
  split at h
  next => cases h
  next m₁ h₁ =>
    unfold addVm at h₁
    split at h₁
    next vm g hcr =>
      obtain ⟨-, rfl⟩ := Prod.mk.inj h₁
      rw [show (m.vms.push vm).back? = some vm from Array.back?_push] at h
      have hsize : (m.vms.push vm).size - 1 = m.vms.size := by rw [Array.size_push, Nat.add_sub_cancel]
      simp only [hsize] at h
      obtain ⟨-, -, hreach, -⟩ := Vm.create_spec hcr
      have attached := attached_attachCpus _ h fun cpu hc => Nat.lt_of_lt_of_eq (hreach cpu hc) size.symm
      exact ⟨vm, by rw [attached.gic]; exact hcr, attached.vms, attached.bus, attached.size.trans size,
        attached.registers, attached.control, attached.assignments⟩
    next => cases h₁

theorem push_vms {vms : Array Vm} {i : Nat} {new : Vm} (h : (vms.push new)[i]? = some vm) :
    vms[i]? = some vm ∨ i = vms.size ∧ vm = new := by
  rw [Array.getElem?_push] at h
  split at h
  next e => exact .inr ⟨e, (Option.some.inj h).symm⟩
  next => exact .inl h

/-- The VMs are those that were there and the new one. -/
theorem Joined.vm_cases {p : Partition} {new : Vm} (h : m.Joined p new m') {i : Nat} (hi : m'.vms[i]? = some vm) :
    m.vms[i]? = some vm ∨ i = m.vms.size ∧ vm = new := push_vms (by rw [← h.vms]; exact hi)

theorem lt_of_getElem? {vms : Array Vm} {i : Nat} (h : vms[i]? = some vm) : i < vms.size :=
  (Array.getElem?_eq_some_iff.1 h).1

section Joining
variable {p : Partition} {ps : List Partition} {new : Vm}

theorem Joined.read (hj : m.Joined p new m') (cpu n : Nat) :
    (m'.interfaces.get cpu).read n = (m.interfaces.get cpu).read n := by
  unfold CpuInterface.read
  rw [hj.registers]

theorem Joined.mem_cpus (hj : m.Joined p new m') {v : Nat} (hp : new.pcpuOf? v = some cpu) : cpu ∈ p.cpus := by
  rw [← (Vm.create_spec hj.created).1]
  exact List.mem_of_getElem? hp

/-- The CPUs of the VMs that were there are not the table's. -/
theorem Booted.not_mem_cpus (h : Booted m ps) (disjoint : ∀ q ∈ ps, ∀ cpu ∈ q.cpus, cpu ∉ p.cpus) {i v : Nat}
    (hi : m.vms[i]? = some vm) (hp : vm.pcpuOf? v = some cpu) : cpu ∉ p.cpus :=
  disjoint _ (h.partitions i vm hi) cpu (List.mem_of_getElem? hp)

/-- The table's CPUs ran nothing. -/
theorem Booted.idle (h : Booted m ps) (disjoint : ∀ q ∈ ps, ∀ cpu ∈ q.cpus, cpu ∉ p.cpus) (hc : cpu ∈ p.cpus) :
    m.assignments.get cpu = none := by
  cases ha : m.assignments.get cpu with
  | none => rfl
  | some a =>
    obtain ⟨vm, hi, hp⟩ := h.sound.runs ha
    exact absurd hc (h.not_mem_cpus disjoint hi hp)

theorem Booted.houses_before (h : Booted m ps) (disjoint : ∀ q ∈ ps, ∀ cpu ∈ q.cpus, cpu ∉ p.cpus)
    (hj : m.Joined p new m') {i : Nat} (hi : m.vms[i]? = some vm) : m'.Houses i vm := by
  have house := h.sound.houses hi
  refine { house with reaches := fun v cpu hp => ?_, assigned := fun v cpu hp => ?_, seated := fun v cpu hp => ?_ }
  · rw [hj.bus]
    exact house.reaches v cpu hp
  · rw [hj.assignments, if_neg (h.not_mem_cpus disjoint hi hp)]
    exact house.assigned v cpu hp
  · exact (house.seated v cpu hp).congr_interface (congrArg Array.size (hj.registers cpu)) (hj.read cpu)

/-- The new VM finds empty list registers. -/
theorem Booted.houses_new (h : Booted m ps) (disjoint : ∀ q ∈ ps, ∀ cpu ∈ q.cpus, cpu ∉ p.cpus)
    (hj : m.Joined p new m') : m'.Houses m.vms.size new := by
  obtain ⟨hpart, hchecked, hreach, hfresh⟩ := Vm.create_spec hj.created
  have checked : new.partition.Checked := by rw [hpart]; exact hchecked
  refine ⟨checked, fun v cpu hp => ?_, fun v cpu hp => ?_, fun l hl => hfresh.lawful hl, fun l hl => hfresh.atRest hl,
    hfresh.listed, fun v cpu hp => hfresh.seated fun n => ?_⟩
  · rw [hj.bus]
    exact hreach cpu (hj.mem_cpus hp)
  · rw [hj.assignments, if_pos (hj.mem_cpus hp), (Vm.vcpuOn?_eq_some_iff checked cpu v).2 hp]
    rfl
  · rw [hj.read]
    exact h.unused cpu (h.idle disjoint (hj.mem_cpus hp)) n

theorem Booted.sound_joined (h : Booted m ps) (disjoint : ∀ q ∈ ps, ∀ cpu ∈ q.cpus, cpu ∉ p.cpus)
    (hj : m.Joined p new m') : m'.Sound := by
  have house := h.houses_new disjoint hj
  refine .of_houses (by rw [hj.size, hj.bus]) (fun {cpu i v} ha => ?_) fun hi => ?_
  · rw [hj.assignments] at ha
    rw [hj.vms]
    split at ha
    next =>
      obtain ⟨w, hw, e⟩ := Option.map_eq_some_iff.1 ha
      cases e
      exact ⟨new, by rw [Array.getElem?_push, if_pos rfl], (Vm.vcpuOn?_eq_some_iff house.checked cpu _).1 hw⟩
    next =>
      obtain ⟨vm, hi, hp⟩ := h.sound.runs ha
      exact ⟨vm, by rw [Array.getElem?_push, if_neg (Nat.ne_of_lt (lt_of_getElem? hi))]; exact hi, hp⟩
  · rcases hj.vm_cases hi with hi | ⟨rfl, rfl⟩
    · exact h.houses_before disjoint hj hi
    · exact house

/-- **A VM whose CPUs run nothing yet may join.** -/
theorem Booted.bootVm (h : Booted m ps) (hb : m.bootVm p = .ok m')
    (disjoint : ∀ q ∈ ps, ∀ cpu ∈ q.cpus, cpu ∉ p.cpus) : Booted m' (ps ++ [p]) := by
  obtain ⟨new, hj⟩ := bootVm_spec hb h.sound.interfaces
  obtain ⟨hpart, -, -, hfresh⟩ := Vm.create_spec hj.created
  refine ⟨h.sound_joined disjoint hj, fun i vm hi => ?_, fun cpu ha n => ?_, fun i vm hi => ?_, fun cpu => ?_,
    by rw [hj.bus]; exact h.bus⟩
  · rcases hj.vm_cases hi with hi | ⟨-, rfl⟩
    · exact List.mem_append_left _ (h.partitions i vm hi)
    · rw [hpart]
      exact List.mem_append_right _ (List.mem_singleton.2 rfl)
  · rw [hj.read]
    refine h.unused cpu ?_ n
    rw [hj.assignments] at ha
    split at ha
    next hc => exact h.idle disjoint hc
    next => exact ha
  · rcases hj.vm_cases hi with hi | ⟨-, rfl⟩
    · exact h.fresh i vm hi
    · exact hfresh
  · unfold waiting
    rw [hj.bus]
    exact h.quiet cpu

end Joining

/-- **What holds of a machine without VMs and survives each VM that joins it holds when it is booted.** -/
theorem Booted.bootAll {P : Machine → List Partition → Prop} (ps : List Partition) {earlier : List Partition}
    (h : Booted m earlier) (hp : P m earlier) (hf : Partition.faultAfter? earlier ps = none) (hb : bootAll ps m = .ok m')
    (each : ∀ (m m' : Machine) (earlier : List Partition) (p : Partition) (new : Vm), Booted m earlier → P m earlier →
      m.Joined p new m' → (∀ q ∈ earlier, q.Apart p) → P m' (earlier ++ [p])) :
    Booted m' (earlier ++ ps) ∧ P m' (earlier ++ ps) := by
  induction ps generalizing m earlier with
  | nil =>
    simp only [Machine.bootAll, Except.ok.injEq] at hb
    rw [← hb, List.append_nil]
    exact ⟨h, hp⟩
  | cons p rest ih =>
    unfold Partition.faultAfter? at hf
    rw [Option.or_eq_none_iff, Option.or_eq_none_iff] at hf
    obtain ⟨-, hc, hrest⟩ := hf
    have apart : ∀ q ∈ earlier, q.Apart p := fun q hq =>
      (Partition.conflict?_eq_none_iff q p).1 (List.findSome?_eq_none_iff.1 hc q hq)
    unfold Machine.bootAll at hb
    split at hb
    next m₁ h₁ =>
      obtain ⟨new, hj⟩ := bootVm_spec h₁ h.sound.interfaces
      have := ih (h.bootVm h₁ fun q hq => (apart q hq).cpus) (each m m₁ earlier p new h hp hj apart) hrest hb
      rw [List.append_assoc] at this
      exact this
    next => cases hb

theorem boot_induct {P : Machine → List Partition → Prop} {cpus : Nat} {sizes : List Nat} {doorbell : Bool}
    {ps : List Partition} (h : boot cpus sizes doorbell ps = .ok m) (start : P (create cpus sizes doorbell) [])
    (each : ∀ (m m' : Machine) (earlier : List Partition) (p : Partition) (new : Vm), Booted m earlier → P m earlier →
      m.Joined p new m' → (∀ q ∈ earlier, q.Apart p) → P m' (earlier ++ [p])) :
    Booted m ps ∧ P m ps := by
  unfold boot at h
  split at h
  next => cases h
  next hf => exact Booted.bootAll ps (booted_create cpus sizes doorbell) start hf h each

/-- The VMs of a machine that was booted are as they were built. -/
theorem created_of_boot {cpus : Nat} {sizes : List Nat} {doorbell : Bool} {ps : List Partition}
    (h : boot cpus sizes doorbell ps = .ok m) {i : Nat} (hi : m.vms[i]? = some vm) :
    ∃ p cpus g g', Vm.create p cpus g = (.ok vm, g') := by
  refine (boot_induct (P := fun m _ => ∀ (i : Nat) (vm : Vm), m.vms[i]? = some vm →
    ∃ p cpus g g', Vm.create p cpus g = (.ok vm, g')) h (fun i vm hi => ?_) ?_).2 i vm hi
  · simp [create] at hi
  · intro m m' _ p new _ hm hj _ i vm hi
    rcases hj.vm_cases hi with hi | ⟨-, rfl⟩
    · exact hm i vm hi
    · exact ⟨p, _, _, _, hj.created⟩

/-- The list registers of a machine that was booted are empty. -/
theorem empty_of_boot {cpus : Nat} {sizes : List Nat} {doorbell : Bool} {ps : List Partition}
    (h : boot cpus sizes doorbell ps = .ok m) (cpu n : Nat) : (m.interfaces.get cpu).read n = .empty := by
  refine (boot_induct (P := fun m _ => ∀ cpu, (m.interfaces.get cpu).read n = .empty) h (fun cpu => ?_) ?_).2 cpu
  · simp only [create, Table.get_generate]
    split <;> exact CpuInterface.read_create ..
  · intro m m' _ p new _ hm hj _ cpu
    unfold CpuInterface.read at hm ⊢
    rw [hj.registers]
    exact hm cpu

/-- **A machine that was booted has all its tables' VMs, and nothing has happened in them.** -/
theorem booted_of_boot {cpus : Nat} {sizes : List Nat} {doorbell : Bool} {ps : List Partition}
    (h : boot cpus sizes doorbell ps = .ok m) : Booted m ps :=
  (boot_induct (P := fun _ _ => True) h trivial fun _ _ _ _ _ _ _ _ _ => trivial).1

end Machine
end VirtualGic
