import VirtualGic.Proofs.Guarded.Window
import VirtualGic.Proofs.Settling
/-!
# Guarded steps

What a CPU does in a step, with every operation guarded.  At all times the interfaces have at most 64 list registers and the
messages that wait name vCPUs as requesters, so no step stops: not at the list registers, whose numbers are shifted by, and
not at the requesters, which come from registers and messages.  What is left to ask for are widths that a guest can use,
windows that end at an address, and a queue whose length is a number.

The physical distributor and the bus stand for what the CPUs share and are not guarded.  So the count that the distributor
keeps of its enable writes stays outside: here it is the length of a list, which has no end.
-/
namespace VirtualGic

/-- An access moves one, two, four or eight bytes. -/
def Action.Sized : Action → Prop
  | .access a _ => a.width ∈ [1, 2, 4, 8]
  | .accessSystem _ _ | .inject _ | .maintain | .poll | .acknowledge | .complete _ => True

namespace Guarded

open VirtualGic.Core (Equipped)

variable {c : Core}

/-! ## System registers -/

/-- The vCPUs that a software interrupt request names. -/
def systemTargets (v : BitVec 64) (me : Nat) (vcpus : CpuSet) : Guarded CpuSet :=
  if v.getLsbD 40 then do
    let self : CpuSet ← bit me
    return vcpus &&& ~~~self
  else if v.extractLsb' 16 8 != 0 || v.extractLsb' 32 8 != 0 || v.extractLsb' 48 8 != 0 then return 0
  else
    let range := (v.extractLsb' 44 4).toNat
    if range ≤ 3 then do
      return (← shiftLeft (lowBits 16 v) (← mul 64 range 16)) &&& vcpus
    else return 0

theorem systemTargets_eq (v : BitVec 64) {me : Nat} (hme : me < 64) (vcpus : CpuSet) :
    systemTargets v me vcpus = .ok (SystemRegister.softwareTargets v me vcpus) := by
  refine ite_ok (fun _ => bind_eq (bit_eq hme) rfl) fun _ => ite_ok (fun _ => rfl) fun _ => ite_ok (fun near => ?_) fun _ => rfl
  exact bind_eq (mul_eq (by omega)) (bind_eq (shiftLeft_eq _ (by omega)) rfl)

def writeSystem? (c : Core) (r : SystemRegister) (v : BitVec 64) : Guarded (Option Core) :=
  if r = .softwareInterrupt then do
    let targets ← systemTargets v c.vcpu (← vcpuSet c.vm)
    return some (← send c (v.extractLsb' 24 4).toNat targets)
  else return if r = .enable then some c else none

theorem writeSystem?_eq (h : c.Equipped) (r : SystemRegister) (v : BitVec 64) :
    writeSystem? c r v = .ok (c.writeSystem? r v) := by
  refine ite_ok (fun _ => ?_) fun _ => rfl
  exact bind_eq (vcpuSet_eq h.checked) (bind_eq (systemTargets_eq v (vcpu_lt h.checked h.vcpu_lt) _)
    (bind_eq (send_eq h (v.extractLsb' 24 4).isLt _) rfl))

def accessSystem (c : Core) (a : SystemAccess) (f : RegisterFile) : Guarded (Bool × RegisterFile × Core) :=
  if a.read then return c.accessSystem a f
  else do
    match ← writeSystem? c a.target (f.get a.register) with
    | some c => return (true, f, c)
    | none => return (false, f, c)

theorem accessSystem_eq (h : c.Equipped) (a : SystemAccess) (f : RegisterFile) :
    accessSystem c a f = .ok (c.accessSystem a f) := by
  unfold accessSystem
  split
  next => rfl
  next write =>
    rw [writeSystem?_eq h, ok_bind, Core.accessSystem, if_neg write]
    cases c.writeSystem? a.target (f.get a.register) <;> rfl

/-! ## Actions -/

def act (c : Core) : Action → Guarded Core
  | .access a f => do return (← access c a f).2.2
  | .accessSystem a f => do return (← accessSystem c a f).2.2
  | .inject id => inject c id
  | .maintain => maintain c
  | .poll => do return (← poll c).2
  | .acknowledge => do return { c with interface := (← acknowledge c.interface).2 }
  | .complete number => do return { c with interface := ← complete c.interface number }

theorem act_eq (h : c.Equipped) (told : ∀ m ∈ c.waiting c.cpu, ∃ me, me < c.vm.vcpuCount ∧ m.Told c.vm me)
    (bounded : ∀ w ∈ c.vm.addressMap, w.Bounded) {a : Action} (sized : a.Sized)
    (counted : a = .poll → c.bus.pending c.cpu < 2 ^ 64) : act c a = .ok (c.act a) := by
  cases a with
  | access a f => exact bind_eq (access_eq h bounded sized f) rfl
  | accessSystem a f => exact bind_eq (accessSystem_eq h a f) rfl
  | inject id => exact inject_eq h id
  | maintain => exact maintain_eq h
  | poll => exact bind_eq (poll_eq h told (counted rfl)) rfl
  | acknowledge => exact bind_eq (acknowledge_eq c.interface) rfl
  | complete number => exact bind_eq (complete_eq c.interface number) rfl

def step (m : Machine) (e : Event) : Guarded Machine :=
  match m.core? e.cpu with
  | none => return m
  | some (index, c) => do return m.putCore index (← act c e.action)

end Guarded

namespace Machine

variable {m : Machine} {cpu i : Nat} {c : Core}

theorem few_of_boot {cpus : Nat} {sizes : List Nat} {doorbell : Bool} {ps : List Partition}
    (h : boot cpus sizes doorbell ps = .ok m) (cpu : Nat) : (m.interfaces.get cpu).count ≤ maxListRegisters := by
  have few (count : Nat) : (CpuInterface.create count).count ≤ maxListRegisters := by
    rw [CpuInterface.count, CpuInterface.create, Array.size_replicate]
    exact Nat.max_le.2 ⟨by decide, Nat.min_le_right ..⟩
  refine (boot_induct (P := fun m _ => ∀ cpu, (m.interfaces.get cpu).count ≤ maxListRegisters) h (fun cpu => ?_) ?_).2 cpu
  · simp only [create, Table.get_generate]
    split <;> exact few _
  · intro m m' _ p new _ hm hj _ cpu
    rw [CpuInterface.count, hj.registers]
    exact hm cpu

/-- **At all times an interface has no more list registers than a word has bits.** -/
theorem Arises.few (h : m.Arises) (cpu : Nat) : (m.interfaces.get cpu).count ≤ maxListRegisters := by
  refine h.induct (P := fun m => ∀ cpu, (m.interfaces.get cpu).count ≤ maxListRegisters)
    (fun m _ _ _ _ hb cpu => few_of_boot hb cpu) (fun m k i c ds c' hm few hc hmv cpu => ?_) cpu
  have changes := hmv.changes (hm.sound.core hc).station
  rw [interfaces_putCore]
  split
  next =>
    rw [changes.count, interface_of_core? hc]
    exact few k
  next => exact few cpu

theorem Arises.equipped (h : m.Arises) (hc : m.core? cpu = some (i, c)) : c.Equipped :=
  ⟨(h.sound.core hc).station, by rw [interface_of_core? hc]; exact h.few cpu⟩

/-- **No step ever stops.**  At all times, on every CPU, with every access of a proper width, every system register access,
every injected or completed number, and in maintenance and polling, the guarded step does what the step does: nothing is
divided by zero, shifted by too much, added or multiplied beyond its width, looked up beyond the end or written without
ownership.  A poll counts its messages, of which a queue holds no more than its length can say.  What the physical
distributor counts for itself, its enable writes, is no operation of a CPU and is not guarded. -/
theorem Arises.step_faultless (h : m.Arises) {e : Event} (sized : e.action.Sized)
    (bounded : ∀ vm ∈ m.vms, ∀ w ∈ vm.addressMap, w.Bounded) (counted : e.action = .poll → m.bus.pending e.cpu < 2 ^ 64) :
    Guarded.step m e = .ok (m.step e) := by
  obtain ⟨cpu, a⟩ := e
  unfold Guarded.step
  cases hc : m.core? cpu with
  | none =>
    rw [step_of_idle hc]
    rfl
  | some ic =>
    obtain ⟨i, c⟩ := ic
    rw [step_of_core? hc]
    have hcpu := cpu_of_core? hc
    refine Guarded.bind_eq (Guarded.act_eq (h.equipped hc) (fun msg hm => ?_) (bounded c.vm ?_) sized ?_) rfl
    · rw [hcpu, waiting_core hc] at hm
      exact h.directed.told h.sound hc hm
    · exact Array.mem_of_getElem? (vm_of_core? hc)
    · rw [hcpu, bus_of_core? hc]
      exact counted

/-- A CPU that handles a write which waits for it, and one that switches the distributor off. -/
theorem step_faultless_owed : owed.bus.pending 1 = 1 ∧ Guarded.step owed ⟨1, .poll⟩ = .ok (owed.step ⟨1, .poll⟩) ∧
    Guarded.step owed ⟨0, store distributorBase 4 0⟩ = .ok (owed.step ⟨0, store distributorBase 4 0⟩) := by
  have arises := reachable_owed.arises
  have bounded : ∀ vm ∈ owed.vms, ∀ w ∈ vm.addressMap, w.Bounded := by decide +kernel
  exact ⟨by decide +kernel, arises.step_faultless trivial bounded fun _ => by decide +kernel,
    arises.step_faultless (by decide : 4 ∈ [1, 2, 4, 8]) bounded fun poll => by cases poll⟩

end Machine
end VirtualGic
