import VirtualGic.Interrupt.Basic
/-!
# List registers

A list register presents one interrupt to the guest.  `ofWord` and `toWord` give
its layout in 64 bits, every bit of which belongs to one field.  The rest says
how an interrupt record is written into a list register and taken back.
-/
namespace VirtualGic

structure ListRegister where
  state : Interrupt.State
  /-- Completion deactivates the physical interrupt. -/
  hardware : Bool
  group1 : Bool
  unusedHigh : BitVec 4
  priority : BitVec 8
  unusedLow : BitVec 3
  /-- The physical interrupt; without `hardware`, bit 9 asks for maintenance on completion. -/
  physical : BitVec 13
  numberHigh : BitVec 19
  /-- The vCPU that requested a version 2 software interrupt. -/
  requester : BitVec 3
  intid : BitVec 10
deriving DecidableEq, Repr

namespace ListRegister

/-! ## Layout -/

def ofWord (w : BitVec 64) : ListRegister where
  state := .ofBits (w.extractLsb' 62 2)
  hardware := w.getLsbD 61
  group1 := w.getLsbD 60
  unusedHigh := w.extractLsb' 56 4
  priority := w.extractLsb' 48 8
  unusedLow := w.extractLsb' 45 3
  physical := w.extractLsb' 32 13
  numberHigh := w.extractLsb' 13 19
  requester := w.extractLsb' 10 3
  intid := w.extractLsb' 0 10

def toWord (r : ListRegister) : BitVec 64 :=
  r.state.toBits ++ BitVec.ofBool r.hardware ++ BitVec.ofBool r.group1 ++ r.unusedHigh ++
    r.priority ++ r.unusedLow ++ r.physical ++ r.numberHigh ++ r.requester ++ r.intid

def empty : ListRegister := ofWord 0

/-- The virtual interrupt number as the guest reads it, the requester included. -/
def number (r : ListRegister) : BitVec 32 := r.numberHigh ++ r.requester ++ r.intid

@[simp] theorem toWord_ofWord (w : BitVec 64) : (ofWord w).toWord = w := by
  simp only [toWord, ofWord, Interrupt.State.toBits_ofBits, ofBool_getLsbD]
  simp (disch := decide) only [BitVec.extractLsb'_append_extractLsb'_eq_extractLsb']
  exact BitVec.extractLsb'_eq_self

@[simp] theorem ofWord_toWord (r : ListRegister) : ofWord r.toWord = r := by
  cases r with | mk state hw group1 high priority low physical numberHigh requester intid
  simp only [ofWord, mk.injEq]
  refine ⟨?_, getLsbD_of_ofBool ?_, getLsbD_of_ofBool ?_, ?_, ?_, ?_, ?_, ?_, ?_, ?_⟩
  · rw [← Interrupt.State.ofBits_toBits state]
    congr 1
    simp (disch := decide) only [toWord, BitVec.extractLsb'_append_eq_of_le, BitVec.extractLsb'_eq_self, Nat.reduceSub, Interrupt.State.ofBits_toBits]
  all_goals
    simp (disch := decide) only [toWord, BitVec.extractLsb'_append_eq_of_le,
      BitVec.extractLsb'_append_eq_of_add_le, BitVec.extractLsb'_eq_self, Nat.reduceSub]

/-- The register with the bits of a word set as well. -/
def withBits (r : ListRegister) (w : BitVec 64) : ListRegister := ofWord (r.toWord ||| w)

/-- The register with an interrupt number in its low word.  A number that is too large for its
field sets bits of the fields above. -/
def withNumber (r : ListRegister) (id : Nat) : ListRegister := r.withBits (BitVec.ofNat 64 id)

/-- The register with the number of the physical interrupt in its high word. -/
def withPhysical (r : ListRegister) (id : Nat) : ListRegister :=
  r.withBits (BitVec.ofNat 64 id <<< 32)

/-- A number that fits changes its own field only. -/
theorem withNumber_eq (r : ListRegister) {id : Nat} (fits : id < 0x400) (clear : r.intid = 0) :
    r.withNumber id = { r with intid := BitVec.ofNat 10 id } := by
  rw [← ofWord_toWord { r with intid := BitVec.ofNat 10 id }, withNumber, withBits]
  congr 1
  apply BitVec.eq_of_getLsbD_eq
  intro i hi
  have high : 10 ≤ i → id.testBit i = false := fun h =>
    Nat.testBit_lt_two_pow (Nat.lt_of_lt_of_le fits (Nat.pow_le_pow_right (by decide : 0 < 2) h))
  simp only [toWord, clear, BitVec.getLsbD_or, BitVec.getLsbD_append, BitVec.getLsbD_ofNat]
  by_cases low : i < 10
  · simp [low, hi]
  · simp [low, high (Nat.le_of_not_lt low)]

/-- The number of a physical interrupt that fits changes its own field only. -/
theorem withPhysical_eq (r : ListRegister) {id : Nat} (fits : id < 0x2000)
    (clear : r.physical = 0) :
    r.withPhysical id = { r with physical := BitVec.ofNat 13 id } := by
  rw [← ofWord_toWord { r with physical := BitVec.ofNat 13 id }, withPhysical, withBits]
  congr 1
  apply BitVec.eq_of_getLsbD_eq
  intro i hi
  have high : 13 ≤ i - 32 → id.testBit (i - 32) = false := fun h =>
    Nat.testBit_lt_two_pow (Nat.lt_of_lt_of_le fits (Nat.pow_le_pow_right (by decide : 0 < 2) h))
  simp only [toWord, clear, BitVec.getLsbD_or, BitVec.getLsbD_append, BitVec.getLsbD_ofNat,
    BitVec.getLsbD_shiftLeft]
  by_cases low : i < 32
  · have h3 : i - 10 - 3 < 19 := by omega
    by_cases h1 : i < 10
    · simp [low, h1]
    · by_cases h2 : i - 10 < 3 <;> simp [low, h1, h2, h3]
  · have e : i - 10 - 3 - 19 = i - 32 := by omega
    have h1 : ¬ i < 10 := by omega
    have h2 : ¬ i - 10 < 3 := by omega
    have h3 : ¬ i - 10 - 3 < 19 := by omega
    by_cases mid : i - 32 < 13
    · have h : i - 32 < 64 := by omega
      simp [low, hi, e, h1, h2, h3, mid, h]
    · simp [low, e, h1, h2, h3, mid, high (Nat.le_of_not_lt mid)]

/-! ## Status -/

/-- The bit that asks for maintenance on completion. -/
def maintenanceBit (r : ListRegister) : Bool := r.physical.getLsbD 9

/-- May be reused without losing anything. -/
def isEmpty (r : ListRegister) : Bool := r.state.isIdle && (r.hardware || !r.maintenanceBit)

/-- Completed, and asked for maintenance. -/
def isCompleted (r : ListRegister) : Bool :=
  r.state.isIdle && !r.hardware && r.maintenanceBit

theorem isEmpty_or_isCompleted (r : ListRegister) (h : r.state.isIdle = true) :
    r.isEmpty = !r.isCompleted := by
  simp only [isEmpty, isCompleted, h]
  cases r.hardware <;> cases r.maintenanceBit <;> rfl

theorem isIdle_of_isEmpty {r : ListRegister} (h : r.isEmpty = true) : r.state.isIdle = true := by
  rw [isEmpty, Bool.and_eq_true] at h
  exact h.1

theorem isIdle_of_isCompleted {r : ListRegister} (h : r.isCompleted = true) : r.state.isIdle = true := by
  rw [isCompleted, Bool.and_eq_true, Bool.and_eq_true] at h
  exact h.1.1

theorem not_isEmpty_of_busy {r : ListRegister} (h : r.state.isIdle = false) : r.isEmpty = false := by
  rw [isEmpty, h, Bool.false_and]

theorem not_isCompleted_of_busy {r : ListRegister} (h : r.state.isIdle = false) : r.isCompleted = false := by
  rw [isCompleted, h, Bool.false_and, Bool.false_and]

theorem not_isCompleted_of_isEmpty {r : ListRegister} (h : r.isEmpty = true) : r.isCompleted = false := by
  rw [isEmpty_or_isCompleted r (isIdle_of_isEmpty h), Bool.not_eq_true'] at h
  exact h

theorem not_isEmpty_of_isCompleted {r : ListRegister} (h : r.isCompleted = true) : r.isEmpty = false := by
  rw [isEmpty_or_isCompleted r (isIdle_of_isCompleted h), h, Bool.not_true]

/-- Whether the interrupt it names, requester aside, is number `id`. -/
def names (r : ListRegister) (id : Nat) : Bool := r.intid.toNat == id

/-! ## Presenting an interrupt -/

/-- The value of the physical field that asks for maintenance on completion. -/
def askMaintenance : BitVec 13 := BitVec.twoPow 13 9

/-- The list register for an interrupt.  A hardware interrupt is not held pending and
active at once; a shared software interrupt asks for maintenance on completion. -/
def present (l : Line) (s : Interrupt) : ListRegister :=
  let r : ListRegister :=
    { empty with
      state := ⟨s.state.pending && !(s.hardware && s.state.active), s.state.active⟩
      hardware := s.hardware
      group1 := s.group1
      priority := s.priority
      physical := if s.hardware || l.isBanked then 0 else askMaintenance }
  (if s.hardware then r.withPhysical l.id else r).withNumber l.id

theorem present_eq (l : Line) (s : Interrupt) (fits : l.id < 0x400) :
    present l s =
      { empty with
        state := ⟨s.state.pending && !(s.hardware && s.state.active), s.state.active⟩
        hardware := s.hardware
        group1 := s.group1
        priority := s.priority
        physical :=
          if s.hardware then BitVec.ofNat 13 l.id else if l.isBanked then 0 else askMaintenance
        intid := BitVec.ofNat 10 l.id } := by
  unfold present
  cases h : s.hardware
  · simp only [Bool.false_eq_true, if_false, Bool.false_or]
    exact withNumber_eq _ fits rfl
  · simp only [if_true, Bool.true_or]
    rw [withPhysical_eq _ (Nat.lt_trans fits (by decide)) rfl]
    exact withNumber_eq _ fits rfl

/-- The lowest member of a set of requesters. -/
def lowestRequester? (requesters : BitVec 8) : Option Nat :=
  (List.range 8).find? requesters.getLsbD

def withoutRequester (requesters : BitVec 8) (n : Nat) : BitVec 8 :=
  requesters &&& ~~~(BitVec.twoPow 8 n)

theorem getLsbD_withoutRequester (requesters : BitVec 8) (n i : Nat) :
    (withoutRequester requesters n).getLsbD i = (requesters.getLsbD i && !(n == i)) := by
  simp only [withoutRequester, BitVec.getLsbD_and, BitVec.getLsbD_not, BitVec.getLsbD_twoPow]
  by_cases h : i < 8
  · by_cases e : n = i <;> simp [e, h]
  · simp [h, BitVec.getLsbD_of_ge requesters i (Nat.le_of_not_lt h)]

/-- The list register for a version 2 software interrupt, and the record afterwards.  One
request goes in at a time: the active one alone, else the lowest waiting requester,
which leaves the set.  While requesters are left, completion asks for maintenance. -/
def presentRequest (l : Line) (s : Interrupt) : ListRegister × Interrupt :=
  let (state, requester, s) : Interrupt.State × Nat × Interrupt :=
    if s.state.active then (⟨false, true⟩, s.activeRequester.toNat, s)
    else
      match lowestRequester? s.requesters with
      | some n =>
        (⟨true, false⟩, n, { s with requesters := withoutRequester s.requesters n })
      | none => (s.state, 0, s)
  let r : ListRegister :=
    { empty with
      state := state
      group1 := s.group1
      priority := s.priority
      physical := if s.requesters == 0 then 0 else askMaintenance
      requester := BitVec.ofNat 3 requester }
  (r.withNumber l.id, s)

/-- Take the request that a list register held back into the record. -/
def restoreRequest (r : ListRegister) (s : Interrupt) : Interrupt :=
  let requesters :=
    if r.state.pending then s.requesters ||| BitVec.twoPow 8 r.requester.toNat else s.requesters
  { s with
    activeRequester := if r.state.active then r.requester.setWidth 8 else s.activeRequester
    requesters := requesters
    state := { s.state with pending := s.state.pending || requesters != 0 } }

end ListRegister
end VirtualGic
