import VirtualGic.CpuInterface.Control
import VirtualGic.Interrupt.Rank
import VirtualGic.ListRegister
/-!
# Virtual CPU interfaces

The list registers of one physical CPU and their control register.  A register
that does not exist reads as empty and ignores writes.
-/
namespace VirtualGic

structure CpuInterface where
  registers : Array ListRegister
  control : Control
deriving DecidableEq, Repr

namespace CpuInterface

/-- An interface has between one and 64 list registers, all empty at reset. -/
def create (count : Nat) : CpuInterface where
  registers := Array.replicate (max 1 (min count maxListRegisters)) .empty
  control := .reset

def count (f : CpuInterface) : Nat := f.registers.size

def slots (f : CpuInterface) : List Nat := List.range f.count

def read (f : CpuInterface) (n : Nat) : ListRegister := f.registers.getD n .empty

def write (f : CpuInterface) (n : Nat) (r : ListRegister) : CpuInterface :=
  { f with registers := f.registers.setIfInBounds n r }

@[simp] theorem count_write (f : CpuInterface) (n : Nat) (r : ListRegister) :
    (f.write n r).count = f.count := by simp [count, write]

@[simp] theorem control_write (f : CpuInterface) (n : Nat) (r : ListRegister) :
    (f.write n r).control = f.control := rfl

theorem read_write (f : CpuInterface) (n m : Nat) (r : ListRegister) :
    (f.write n r).read m = if n = m ∧ n < f.count then r else f.read m := by
  simp only [read, write, count, Array.getD_eq_getD_getElem?, Array.getElem?_setIfInBounds]
  by_cases e : n = m
  · subst e
    by_cases h : n < f.registers.size <;> simp [h]
  · simp [e]

/-! ## What the registers show -/

def slotsWhere (f : CpuInterface) (p : ListRegister → Bool) : List Nat :=
  f.slots.filter fun n => p (f.read n)

theorem mem_slotsWhere (f : CpuInterface) (p : ListRegister → Bool) (n : Nat) :
    n ∈ f.slotsWhere p ↔ n < f.count ∧ p (f.read n) = true := by
  simp [slotsWhere, slots]

def freeSlot? (f : CpuInterface) : Option Nat := f.slots.find? fun n => (f.read n).isEmpty

def emptyWord (f : CpuInterface) : BitVec 64 := CpuSet.ofList (f.slotsWhere (·.isEmpty))

def completedWord (f : CpuInterface) : BitVec 64 := CpuSet.ofList (f.slotsWhere (·.isCompleted))

def status (f : CpuInterface) : Status where
  completed := !(f.slotsWhere (·.isCompleted)).isEmpty
  underflow := f.control.underflow && decide ((f.slotsWhere (!·.state.isIdle)).length ≤ 1)
  unmatched := f.control.unmatched && f.control.completions != 0
  noPending := f.control.noPending && (f.slotsWhere (·.state.pending)).isEmpty

/-- The interrupts in use, in the order of their slots. -/
def resident (f : CpuInterface) : List Nat :=
  (f.slotsWhere (!·.state.isIdle)).map fun n => (f.read n).intid.toNat

/-! ## The guest side -/

/-- The slot that the guest acknowledges next: the first waiting one of lowest priority value
and, where that is equal, of lowest number. -/
def nextSlot? (f : CpuInterface) : Option Nat :=
  let rank (n : Nat) : Rank := ⟨(f.read n).priority.toNat, (f.read n).number.toNat⟩
  firstBest (fun n m => (rank n).before (rank m)) (f.slotsWhere (·.state.isWaiting))

/-- The guest takes the next interrupt, which becomes active. -/
def acknowledge (f : CpuInterface) : Option (BitVec 32) × CpuInterface :=
  if f.control.enabled then
    match f.nextSlot? with
    | some n =>
      let r := f.read n
      (some r.number, f.write n { r with state := ⟨false, true⟩ })
    | none => (none, f)
  else (none, f)

/-- The guest completes an interrupt: the first active register of that number becomes
inactive; without one the completion is counted. -/
def complete (f : CpuInterface) (number : BitVec 32) : CpuInterface :=
  match f.slots.find? fun n => (f.read n).number == number && (f.read n).state.active with
  | some n =>
    let r := f.read n
    f.write n { r with state := { r.state with active := false } }
  | none => { f with control := { f.control with completions := f.control.completions + 1 } }

/-! ## Making room -/

/-- The slot to take from when none is free: of the waiting registers the least important,
if at least one other waits, else the least important active one. -/
def victim? (f : CpuInterface) : Option Nat :=
  let rank (n : Nat) : Rank := ⟨(f.read n).priority.toNat, (f.read n).intid.toNat⟩
  let least := firstBest fun n m => (rank m).before (rank n)
  let waiting := f.slotsWhere (·.state.isWaiting)
  if waiting.length > 1 then least waiting else least (f.slotsWhere (·.state.active))

end CpuInterface
end VirtualGic
