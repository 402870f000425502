import VirtualGic.Machine.Basic
/-!
# Looking at a machine

What is true of an interrupt wherever it is, and what waits for a CPU.  While a record
says that its interrupt is resident, the truth about it is in the list register of its
owner's CPU; otherwise it is in the record.
-/
namespace VirtualGic.Machine

/-! ## Interrupts -/

def ownerCpu? (vm : Vm) (l : Line) : Option Nat := (vm.interrupt l).owner.bind vm.pcpuOf?

/-- The list register that holds an interrupt, on whatever CPU. -/
def held? (m : Machine) (vm : Vm) (l : Line) : Option ListRegister :=
  if (vm.interrupt l).resident then
    (ownerCpu? vm l).map fun cpu => (m.interfaces.get cpu).read (vm.interrupt l).slot
  else none

/-- The state that an interrupt is truly in. -/
def trueState (m : Machine) (vm : Vm) (l : Line) : Interrupt.State :=
  match m.held? vm l with
  | some r => r.state
  | none => (vm.interrupt l).state

/-- The vCPUs whose request for a version 2 software interrupt is pending, the one that a list
register holds included. -/
def trueRequesters (m : Machine) (vm : Vm) (l : Line) : BitVec 8 :=
  let waiting := (vm.interrupt l).requesters
  match m.held? vm l with
  | some r => if r.state.pending then waiting ||| BitVec.twoPow 8 r.requester.toNat else waiting
  | none => waiting

/-! ## Messages -/

/-- The messages that wait for a CPU, oldest first. -/
def waiting (m : Machine) (cpu : Nat) : List Message := (m.bus.inbox cpu).waiting

/-- No message waits for any CPU. -/
def Quiet (m : Machine) : Prop := ∀ cpu, m.waiting cpu = []

/-! ## Taking a core out and putting it back -/

theorem core?_eq_some_iff (m : Machine) (cpu index : Nat) (c : Core) :
    m.core? cpu = some (index, c) ↔
      ∃ vcpu vm, m.assignments.get cpu = some ⟨index, vcpu⟩ ∧ m.vms[index]? = some vm ∧
        c = ⟨cpu, vcpu, vm, m.interfaces.get cpu, m.bus, m.gic⟩ := by
  unfold core?
  split
  next h => simp [h]
  next a h =>
    obtain ⟨i, vcpu⟩ := a
    split
    next hv =>
      simp only [h, Option.some.injEq, Assignment.mk.injEq, reduceCtorEq, false_iff]
      rintro ⟨_, vm, ⟨rfl, rfl⟩, e, -⟩
      rw [hv] at e
      exact absurd e (by simp)
    next vm hv =>
      simp only [h, Option.some.injEq, Prod.mk.injEq, Assignment.mk.injEq]
      constructor
      · rintro ⟨rfl, rfl⟩
        exact ⟨vcpu, vm, ⟨rfl, rfl⟩, hv, rfl⟩
      · rintro ⟨_, vm', ⟨rfl, rfl⟩, e, rfl⟩
        rw [hv, Option.some.injEq] at e
        exact ⟨rfl, by rw [e]⟩

theorem core?_putCore {m : Machine} {cpu index : Nat} {c d : Core}
    (h : m.core? cpu = some (index, c)) (ecpu : d.cpu = c.cpu) (evcpu : d.vcpu = c.vcpu) :
    (m.putCore index d).core? cpu = some (index, d) := by
  rw [core?_eq_some_iff] at h ⊢
  obtain ⟨vcpu, vm, ha, hv, rfl⟩ := h
  have bound : index < m.vms.size := (Array.getElem?_eq_some_iff.1 hv).1
  refine ⟨vcpu, d.vm, ha, ?_, ?_⟩
  · simp [putCore, bound]
  · cases d
    simp_all [putCore]

theorem interfaces_putCore (m : Machine) (index cpu : Nat) (c : Core) :
    (m.putCore index c).interfaces.get cpu =
      if c.cpu = cpu then c.interface else m.interfaces.get cpu := by
  simp [putCore]

theorem vms_putCore (m : Machine) (index i : Nat) (c : Core) (h : index ≠ i) :
    (m.putCore index c).vms[i]? = m.vms[i]? := by
  simp [putCore, h]

end VirtualGic.Machine
