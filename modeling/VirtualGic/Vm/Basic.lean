import VirtualGic.Interrupt.Ownership
import VirtualGic.Partition.Basic
import VirtualGic.Table
/-!
# Virtual machines

A VM is its partition, which never changes, and the state of its virtual interrupt
controller: the records of its interrupts, the spill lists, the distributor's enable
bits and, for each vCPU, its bank, the sleep bit of its redistributor and the last
occupant of each list register of its core.
-/
namespace VirtualGic

structure Vcpu where
  bank : Table Interrupt
  /-- Spilled interrupts of the bank, oldest first. -/
  spilled : List Nat
  /-- The redistributor is asleep. -/
  asleep : Bool
  /-- The last interrupt written to each list register. -/
  occupants : Table (Option Nat)

structure Vm where
  partition : Partition
  /-- The two group enable bits of the distributor. -/
  groupEnables : BitVec 2
  shared : Table Interrupt
  /-- Spilled shared interrupts, oldest first. -/
  spilled : List Nat
  vcpus : Table Vcpu

namespace Vm

/-! ## What the partition fixes -/

def id (vm : Vm) : Nat := vm.partition.id

def version (vm : Vm) : GicVersion := vm.partition.version

def vcpuCount (vm : Vm) : Nat := vm.partition.cpus.length

def interruptCount (vm : Vm) : Nat := vm.partition.interrupts

def vcpuIds (vm : Vm) : List Nat := List.range vm.vcpuCount

def vcpuSet (vm : Vm) : CpuSet := CpuSet.below vm.vcpuCount

/-- The physical CPU that runs a vCPU. -/
def pcpuOf? (vm : Vm) (vcpu : Nat) : Option Nat := vm.partition.cpus[vcpu]?

/-- The vCPU that runs on a physical CPU. -/
def vcpuOn? (vm : Vm) (cpu : Nat) : Option Nat := vm.partition.cpus.idxOf? cpu

/-- The interrupt of a number as a vCPU sees it: one of its own bank, or a shared one. -/
def find? (vm : Vm) (vcpu id : Nat) : Option Line :=
  if vm.interruptCount ≤ id then none
  else if isPrivateId id then
    if vcpu < vm.vcpuCount then some (.banked vcpu id) else none
  else some (.shared id)

def countsRequesters (vm : Vm) (l : Line) : Bool := Interrupt.countsRequesters vm.version l

/-! ## Records -/

def interrupt (vm : Vm) : Line → Interrupt
  | .shared id => vm.shared.get id
  | .banked vcpu id => (vm.vcpus.get vcpu).bank.get id

def setInterrupt (vm : Vm) (l : Line) (s : Interrupt) : Vm :=
  match l with
  | .shared id => { vm with shared := vm.shared.set id s }
  | .banked vcpu id =>
    { vm with vcpus := vm.vcpus.modify vcpu fun v => { v with bank := v.bank.set id s } }

/-- Writing one record changes that record and no other. -/
theorem interrupt_setInterrupt (vm : Vm) (l m : Line) (s : Interrupt) :
    (vm.setInterrupt l s).interrupt m = if l = m then s else vm.interrupt m := by
  cases l <;> cases m <;> simp only [setInterrupt, interrupt, Table.get_modify, Table.get_set,
    Line.shared.injEq, Line.banked.injEq, reduceCtorEq, if_false]
  split
  next h => subst h; simp
  next h => simp [h]

/-! ## Spill lists -/

/-- The list on which an interrupt of this home waits. -/
def spillList (vm : Vm) : Option Nat → List Nat
  | none => vm.spilled
  | some vcpu => (vm.vcpus.get vcpu).spilled

def setSpillList (vm : Vm) (home : Option Nat) (ids : List Nat) : Vm :=
  match home with
  | none => { vm with spilled := ids }
  | some vcpu => { vm with vcpus := vm.vcpus.modify vcpu ({ · with spilled := ids }) }

def park (vm : Vm) (l : Line) : Vm :=
  let s := vm.interrupt l
  if s.spilled then vm
  else
    let ids := vm.spillList l.home?
    (vm.setSpillList l.home? (if ids.contains l.id then ids else ids ++ [l.id])).setInterrupt l
      { s with spilled := true }

def unpark (vm : Vm) (l : Line) : Vm :=
  let s := vm.interrupt l
  if s.spilled then
    (vm.setSpillList l.home? ((vm.spillList l.home?).filter (· != l.id))).setInterrupt l
      { s with spilled := false }
  else vm

@[simp] theorem interrupt_setSpillList (vm : Vm) (home : Option Nat) (ids : List Nat) (l : Line) :
    (vm.setSpillList home ids).interrupt l = vm.interrupt l := by
  cases home <;> cases l <;> simp only [setSpillList, interrupt, Table.get_modify]
  split
  next h => subst h; rfl
  next => rfl

theorem interrupt_park (vm : Vm) (l m : Line) :
    (vm.park l).interrupt m =
      if l = m then { vm.interrupt l with spilled := true } else vm.interrupt m := by
  by_cases h : (vm.interrupt l).spilled = true
  · by_cases e : l = m
    · subst e; simp only [park, h, if_true]; rw [← h]
    · simp [park, h, e]
  · simp [park, h, interrupt_setInterrupt]

theorem interrupt_unpark (vm : Vm) (l m : Line) :
    (vm.unpark l).interrupt m =
      if l = m then { vm.interrupt l with spilled := false } else vm.interrupt m := by
  by_cases h : (vm.interrupt l).spilled = true
  · simp [unpark, h, interrupt_setInterrupt]
  · by_cases e : l = m
    · subst e
      have h := Bool.eq_false_iff.2 h
      simp only [unpark, h, Bool.false_eq_true, if_false, if_true]
      rw [← h]
    · simp [unpark, h, e]

/-! ## The rest of the controller -/

/-- The distributor forwards interrupts. -/
def enabled (vm : Vm) : Bool := vm.groupEnables != 0

def setAsleep (vm : Vm) (vcpu : Nat) (asleep : Bool) : Vm :=
  { vm with vcpus := vm.vcpus.modify vcpu ({ · with asleep := asleep }) }

def occupant? (vm : Vm) (vcpu slot : Nat) : Option Nat := (vm.vcpus.get vcpu).occupants.get slot

def setOccupant (vm : Vm) (vcpu slot id : Nat) : Vm :=
  { vm with
    vcpus := vm.vcpus.modify vcpu fun v => { v with occupants := v.occupants.set slot (some id) } }

end Vm
end VirtualGic
