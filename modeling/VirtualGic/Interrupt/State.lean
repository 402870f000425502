/-!
# Pending and active

The state of an interrupt is two bits, in the order in which a list register
holds them.
-/
namespace VirtualGic.Interrupt

structure State where
  pending : Bool
  active : Bool
deriving DecidableEq, Repr

namespace State

def idle : State := ⟨false, false⟩

def isIdle (s : State) : Bool := !s.pending && !s.active

/-- Pending and not active: what a guest may acknowledge. -/
def isWaiting (s : State) : Bool := s.pending && !s.active

def ofBits (b : BitVec 2) : State := ⟨b.getLsbD 0, b.getLsbD 1⟩

def toBits (s : State) : BitVec 2 := BitVec.ofBool s.active ++ BitVec.ofBool s.pending

@[simp] theorem ofBits_toBits (s : State) : ofBits s.toBits = s := by
  cases s with | mk p a => cases p <;> cases a <;> rfl

@[simp] theorem toBits_ofBits (b : BitVec 2) : (ofBits b).toBits = b := by
  revert b; decide

theorem isIdle_iff (s : State) : s.isIdle = true ↔ s = idle := by
  cases s with | mk p a => cases p <;> cases a <;> decide

theorem isIdle_of_pending {s : State} (h : s.pending = true) : s.isIdle = false := by
  rw [isIdle, h, Bool.not_true, Bool.false_and]

theorem isIdle_of_active {s : State} (h : s.active = true) : s.isIdle = false := by
  rw [isIdle, h, Bool.not_true, Bool.and_false]

theorem isIdle_of_isWaiting {s : State} (h : s.isWaiting = true) : s.isIdle = false := by
  rw [isWaiting, Bool.and_eq_true] at h
  exact isIdle_of_pending h.1

theorem eq_of_not_pending {s : State} (busy : s.isIdle = false) (h : s.pending = false) : s = ⟨false, true⟩ := by
  cases s with | mk p a => cases p <;> cases a <;> simp_all [isIdle]

theorem eq_of_not_active {s : State} (busy : s.isIdle = false) (h : s.active = false) : s = ⟨true, false⟩ := by
  cases s with | mk p a => cases p <;> cases a <;> simp_all [isIdle]

end State
end VirtualGic.Interrupt
