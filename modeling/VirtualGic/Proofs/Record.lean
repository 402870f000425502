import VirtualGic.Core.Placement
import VirtualGic.Proofs.Line
/-!
# What each write leaves

The records, spill lists and slot occupants of a VM after each write to it, and the parts of a core that the
writes to its VM and to its interface leave alone.
-/
namespace VirtualGic

namespace Vm

@[simp] theorem partition_setInterrupt (vm : Vm) (l : Line) (s : Interrupt) :
    (vm.setInterrupt l s).partition = vm.partition := by cases l <;> rfl

@[simp] theorem partition_setSpillList (vm : Vm) (home : Option Nat) (ids : List Nat) :
    (vm.setSpillList home ids).partition = vm.partition := by cases home <;> rfl

@[simp] theorem partition_park (vm : Vm) (l : Line) : (vm.park l).partition = vm.partition := by
  simp only [park]
  split <;> simp

@[simp] theorem partition_unpark (vm : Vm) (l : Line) : (vm.unpark l).partition = vm.partition := by
  simp only [unpark]
  split <;> simp

@[simp] theorem partition_setOccupant (vm : Vm) (vcpu slot id : Nat) :
    (vm.setOccupant vcpu slot id).partition = vm.partition := rfl

@[simp] theorem interrupt_setOccupant (vm : Vm) (vcpu slot id : Nat) (l : Line) :
    (vm.setOccupant vcpu slot id).interrupt l = vm.interrupt l := by
  cases l <;> simp only [setOccupant, interrupt, Table.get_modify]
  split
  next h => subst h; rfl
  next => rfl

@[simp] theorem interrupt_setAsleep (vm : Vm) (vcpu : Nat) (asleep : Bool) (l : Line) :
    (vm.setAsleep vcpu asleep).interrupt l = vm.interrupt l := by
  cases l <;> simp only [setAsleep, interrupt, Table.get_modify]
  split
  next h => subst h; rfl
  next => rfl

@[simp] theorem spillList_setInterrupt (vm : Vm) (l : Line) (s : Interrupt) (home : Option Nat) :
    (vm.setInterrupt l s).spillList home = vm.spillList home := by
  cases l <;> cases home <;> simp only [setInterrupt, spillList, Table.get_modify]
  split
  next h => subst h; rfl
  next => rfl

theorem spillList_setSpillList (vm : Vm) (home k : Option Nat) (ids : List Nat) :
    (vm.setSpillList home ids).spillList k = if home = k then ids else vm.spillList k := by
  cases home <;> cases k <;> simp [setSpillList, spillList, Table.get_modify]
  split
  next h => subst h; rfl
  next => rfl

@[simp] theorem spillList_setOccupant (vm : Vm) (vcpu slot id : Nat) (home : Option Nat) :
    (vm.setOccupant vcpu slot id).spillList home = vm.spillList home := by
  cases home <;> simp only [setOccupant, spillList, Table.get_modify]
  split
  next h => subst h; rfl
  next => rfl

@[simp] theorem spillList_setAsleep (vm : Vm) (vcpu : Nat) (asleep : Bool) (home : Option Nat) :
    (vm.setAsleep vcpu asleep).spillList home = vm.spillList home := by
  cases home <;> simp only [setAsleep, spillList, Table.get_modify]
  split
  next h => subst h; rfl
  next => rfl

theorem spillList_park (vm : Vm) (l : Line) (home : Option Nat) (new : l.id ∉ vm.spillList l.home?)
    (off : (vm.interrupt l).spilled = false) :
    (vm.park l).spillList home =
      if l.home? = home then vm.spillList home ++ [l.id] else vm.spillList home := by
  have hc : (vm.spillList l.home?).contains l.id = false := by simpa using new
  simp only [park, off, Bool.false_eq_true, if_false, spillList_setInterrupt, spillList_setSpillList, hc]
  split
  next h => rw [h]
  next => rfl

theorem spillList_unpark (vm : Vm) (l : Line) (home : Option Nat) (on : (vm.interrupt l).spilled = true) :
    (vm.unpark l).spillList home =
      if l.home? = home then (vm.spillList home).filter (· != l.id) else vm.spillList home := by
  simp only [unpark, on, if_true, spillList_setInterrupt, spillList_setSpillList]
  split
  next h => rw [h]
  next => rfl

@[simp] theorem occupant?_setInterrupt (vm : Vm) (l : Line) (s : Interrupt) (vcpu slot : Nat) :
    (vm.setInterrupt l s).occupant? vcpu slot = vm.occupant? vcpu slot := by
  cases l <;> simp only [setInterrupt, occupant?, Table.get_modify]
  split
  next h => subst h; rfl
  next => rfl

@[simp] theorem occupant?_setSpillList (vm : Vm) (home : Option Nat) (ids : List Nat) (vcpu slot : Nat) :
    (vm.setSpillList home ids).occupant? vcpu slot = vm.occupant? vcpu slot := by
  cases home <;> simp only [setSpillList, occupant?, Table.get_modify]
  split
  next h => subst h; rfl
  next => rfl

@[simp] theorem occupant?_park (vm : Vm) (l : Line) (vcpu slot : Nat) :
    (vm.park l).occupant? vcpu slot = vm.occupant? vcpu slot := by
  simp only [park]
  split <;> simp

@[simp] theorem occupant?_unpark (vm : Vm) (l : Line) (vcpu slot : Nat) :
    (vm.unpark l).occupant? vcpu slot = vm.occupant? vcpu slot := by
  simp only [unpark]
  split <;> simp

@[simp] theorem occupant?_setAsleep (vm : Vm) (v : Nat) (asleep : Bool) (vcpu slot : Nat) :
    (vm.setAsleep v asleep).occupant? vcpu slot = vm.occupant? vcpu slot := by
  simp only [setAsleep, occupant?, Table.get_modify]
  split
  next h => subst h; rfl
  next => rfl

theorem occupant?_setOccupant (vm : Vm) (vcpu slot id v n : Nat) :
    (vm.setOccupant vcpu slot id).occupant? v n =
      if vcpu = v ∧ slot = n then some id else vm.occupant? v n := by
  simp only [setOccupant, occupant?, Table.get_modify]
  by_cases hv : vcpu = v
  · subst hv
    by_cases hn : slot = n <;> simp [hn]
  · simp [hv]

end Vm

/-! ## Cores -/

namespace Core

@[simp] theorem vm_setInterrupt (c : Core) (l : Line) (s : Interrupt) :
    (c.setInterrupt l s).vm = c.vm.setInterrupt l s := rfl

@[simp] theorem vcpu_setInterrupt (c : Core) (l : Line) (s : Interrupt) : (c.setInterrupt l s).vcpu = c.vcpu := rfl

@[simp] theorem vm_writeSlot (c : Core) (n : Nat) (r : ListRegister) : (c.writeSlot n r).vm = c.vm := rfl

@[simp] theorem interrupt_writeSlot (c : Core) (n : Nat) (r : ListRegister) (l : Line) :
    (c.writeSlot n r).interrupt l = c.interrupt l := rfl

theorem interrupt_spill (c : Core) (l m : Line) :
    (c.spill l).interrupt m = if l = m then { c.interrupt l with spilled := true } else c.interrupt m :=
  Vm.interrupt_park ..

theorem interrupt_unspill (c : Core) (l m : Line) :
    (c.unspill l).interrupt m = if l = m then { c.interrupt l with spilled := false } else c.interrupt m :=
  Vm.interrupt_unpark ..

theorem interrupt_claim (c : Core) (l m : Line) :
    (c.claim l).interrupt m = if l = m then (c.interrupt l).claim c.vcpu else c.interrupt m :=
  interrupt_update ..

theorem interrupt_release (c : Core) (l m : Line) :
    (c.release l).interrupt m =
      if l = m then (c.interrupt l).release c.vm.version l c.vcpu else c.interrupt m :=
  interrupt_update ..

end Core
end VirtualGic
