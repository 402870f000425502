import VirtualGic.Proofs.Reach
/-!
# Where interrupts are

`Machine.Placement`: list registers, records and spill lists agree about where each interrupt is, on every core and at
all times.
-/
namespace VirtualGic

/-- A list register holds something: it is not idle, or asks for maintenance. -/
def ListRegister.InUse (r : ListRegister) : Prop := r.state.isIdle = false ∨ r.isCompleted = true

theorem ListRegister.inUse_iff (r : ListRegister) : r.InUse ↔ r.isEmpty = false := by
  unfold InUse
  cases h : r.state.isIdle with
  | true => rw [r.isEmpty_or_isCompleted h]; simp
  | false => simp [isEmpty, h]

theorem Vm.Listed.count {vm : Vm} {l : Line} (h : vm.Listed) (hl : vm.Has l) :
    (vm.spillList l.home?).count l.id = if (vm.interrupt l).spilled = true then 1 else 0 := by
  rw [(h.nodup _).count]
  simp only [h.mem_iff l hl]

namespace Machine

structure Placement (m : Machine) : Prop where
  /-- What a list register holds is the interrupt that it names for the vCPU of its core. -/
  credited : ∀ {cpu i c} n, m.core? cpu = some (i, c) → (c.interface.read n).InUse →
    ∃ l, c.find? (c.interface.read n).intid.toNat = some l ∧ (c.interrupt l).resident = true ∧
      (c.interrupt l).slot = n ∧ (c.interrupt l).owner = some c.vcpu
  /-- What is resident has an owner, and is named by its slot on the owner's core. -/
  seat : ∀ {i : Nat} {vm : Vm} {l : Line}, m.vms[i]? = some vm → vm.Has l → (vm.interrupt l).resident = true →
    ∃ v cpu, (vm.interrupt l).owner = some v ∧ vm.pcpuOf? v = some cpu ∧
      (vm.interrupt l).slot < (m.interfaces.get cpu).count ∧
      ((m.interfaces.get cpu).read (vm.interrupt l).slot).names l.id = true
  /-- No interrupt is in two slots. -/
  unique : ∀ {cpu k i c d n n' l}, m.core? cpu = some (i, c) → m.core? k = some (i, d) →
    (c.interface.read n).InUse → (d.interface.read n').InUse →
    c.find? (c.interface.read n).intid.toNat = some l → d.find? (d.interface.read n').intid.toNat = some l →
    cpu = k ∧ n = n'
  /-- No interrupt is both resident and spilled. -/
  apart : ∀ {i : Nat} {vm : Vm} {l : Line}, m.vms[i]? = some vm → vm.Has l →
    ¬ ((vm.interrupt l).resident = true ∧ (vm.interrupt l).spilled = true)
  /-- A spilled interrupt is once on its list, another one never. -/
  listed : ∀ {i : Nat} {vm : Vm} {l : Line}, m.vms[i]? = some vm → vm.Has l →
    (vm.spillList l.home?).count l.id = if (vm.interrupt l).spilled = true then 1 else 0
  /-- The spill lists hold nothing else. -/
  nothingElse : ∀ {i : Nat} {vm : Vm} {home : Option Nat} {id : Nat}, m.vms[i]? = some vm → id ∈ vm.spillList home →
    ∃ l, vm.Has l ∧ l.home? = home ∧ l.id = id ∧ (vm.interrupt l).spilled = true
  /-- The record of a resident is idle. -/
  idle : ∀ {i : Nat} {vm : Vm} {l : Line}, m.vms[i]? = some vm → vm.Has l → (vm.interrupt l).resident = true →
    (vm.interrupt l).state = .idle
  /-- What is spilled is not idle. -/
  busy : ∀ {i : Nat} {vm : Vm} {l : Line}, m.vms[i]? = some vm → vm.Has l → (vm.interrupt l).spilled = true →
    (vm.interrupt l).state ≠ .idle

variable {m : Machine} {cpu i n : Nat} {c : Core} {l : Line}

theorem Sound.credited (h : m.Sound) (hc : m.core? cpu = some (i, c)) (hu : (c.interface.read n).InUse) :
    ∃ l, c.find? (c.interface.read n).intid.toNat = some l ∧ c.vm.Has l ∧ c.vm.Credits c.vcpu l n := by
  obtain ⟨l, hl, seen, hid, hcr⟩ := (h.core hc).seated.held n ((ListRegister.inUse_iff _).1 hu)
  refine ⟨l, ?_, hl, hcr⟩
  rw [← hid]
  exact Vm.find?_id hl seen

theorem Sound.places (h : m.Sound) : m.Placement where
  credited := fun n hc hu => by
    obtain ⟨l, hf, -, howner, hres, hslot⟩ := h.credited hc hu
    exact ⟨l, hf, hres, hslot, howner⟩
  seat := fun {i vm l} hvm hl hres => by
    obtain ⟨v, ho, -, -⟩ := (h.records hvm l hl).resident_owner hres
    obtain ⟨cpu, hcpu⟩ := Vm.exists_pcpuOf? ((h.records hvm l hl).owner_lt v ho)
    obtain ⟨hlt, hnames, -, -⟩ := (h.seated hvm v cpu hcpu).seat l _ hl ⟨ho, hres, rfl⟩
    exact ⟨v, cpu, ho, hcpu, hlt, hnames⟩
  unique := fun {cpu k i c d n n' l} hc hd hu hu' hf hf' => by
    obtain ⟨a, ha, -, hcr⟩ := h.credited hc hu
    obtain ⟨b, hb, -, hcr'⟩ := h.credited hd hu'
    obtain rfl := Option.some.inj (ha.symm.trans hf)
    obtain rfl := Option.some.inj (hb.symm.trans hf')
    -- one VM, and so one record
    have hvm : d.vm = c.vm := Option.some.inj ((vm_of_core? hd).symm.trans (vm_of_core? hc))
    rw [hvm] at hcr'
    have hv : d.vcpu = c.vcpu := Option.some.inj (hcr'.1.symm.trans hcr.1)
    rw [hv] at hcr'
    refine ⟨?_, hcr.slot_eq hcr'⟩
    have hthere := h.here hd
    rw [hvm, hv, h.here hc] at hthere
    exact Option.some.inj hthere
  apart := fun {i vm l} hvm hl hb => by
    have := (h.records hvm l hl).resident_unspilled hb.1
    rw [hb.2] at this
    cases this
  listed := fun hvm hl => (h.lists hvm).count hl
  nothingElse := fun hvm hm => by
    obtain ⟨l, hl, hh, hid⟩ := (h.lists hvm).has _ _ hm
    refine ⟨l, hl, hh, hid, ((h.lists hvm).mem_iff l hl).1 ?_⟩
    rw [hh, hid]
    exact hm
  idle := fun {i vm l} hvm hl hres => (h.records hvm l hl).resident_idle hres
  busy := fun {i vm l} hvm hl hs he => by
    have := (h.records hvm l hl).spilled_busy hs
    rw [he] at this
    cases this

/-- **List registers, records and spill lists agree in every reachable state.** -/
theorem Reachable.placement (h : m.Reachable) : m.Placement := h.arises.sound.places

theorem placement_crowded : (crowded.firstVm.interrupt (.shared 32)).resident = true ∧
    (crowded.firstVm.interrupt (.shared 33)).spilled = true ∧ crowded.Placement :=
  ⟨by decide +kernel, by decide +kernel, reachable_crowded.placement⟩

end Machine
end VirtualGic
