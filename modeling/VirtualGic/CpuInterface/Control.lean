/-!
# Interface control and maintenance status

`Control` is the control register of a virtual CPU interface: which maintenance
interrupts are wanted, and how many completions matched no list register.
`Status` says which maintenance interrupts are due.
-/
namespace VirtualGic

structure Control where
  /-- Interrupts are delivered to the guest. -/
  enabled : Bool
  /-- Maintenance when at most one list register is in use. -/
  underflow : Bool
  /-- Maintenance when a completion matched no list register. -/
  unmatched : Bool
  /-- Maintenance when no list register is pending. -/
  noPending : Bool
  /-- Bits 4 to 26, kept as written. -/
  other : BitVec 23
  /-- Completions that matched no list register, modulo 32. -/
  completions : BitVec 5
deriving DecidableEq, Repr

namespace Control

def ofWord (w : BitVec 32) : Control where
  enabled := w.getLsbD 0
  underflow := w.getLsbD 1
  unmatched := w.getLsbD 2
  noPending := w.getLsbD 3
  other := w.extractLsb' 4 23
  completions := w.extractLsb' 27 5

def toWord (c : Control) : BitVec 32 :=
  c.completions ++ c.other ++ BitVec.ofBool c.noPending ++ BitVec.ofBool c.unmatched ++
    BitVec.ofBool c.underflow ++ BitVec.ofBool c.enabled

/-- The named parts of the register; those that no field of its own stands for are kept as they are written. -/
def flags : List (String × BitVec 32) :=
  [("EN", 0x1), ("UIE", 0x2), ("LRENPIE", 0x4), ("NPIE", 0x8), ("VGRP0EIE", 0x10),
    ("VGRP0DIE", 0x20), ("VGRP1EIE", 0x40), ("VGRP1DIE", 0x80), ("EOICOUNT", 0xF8000000)]

def reset : Control := ofWord 0

@[simp] theorem toWord_ofWord (w : BitVec 32) : (ofWord w).toWord = w := by
  apply BitVec.eq_of_getLsbD_eq
  intro i hi
  simp only [toWord, ofWord, BitVec.getLsbD_append, BitVec.getLsbD_extractLsb',
    BitVec.getLsbD_ofBool]
  repeat' split
  all_goals grind

@[simp] theorem ofWord_toWord (c : Control) : ofWord c.toWord = c := by
  cases c with | mk enabled underflow unmatched noPending other completions
  simp only [ofWord, toWord, mk.injEq]
  refine ⟨?_, ?_, ?_, ?_, ?_, ?_⟩
  · simp only [BitVec.getLsbD_append, BitVec.getLsbD_ofBool]; simp
  · simp only [BitVec.getLsbD_append, BitVec.getLsbD_ofBool]; simp
  · simp only [BitVec.getLsbD_append, BitVec.getLsbD_ofBool]; simp
  · simp only [BitVec.getLsbD_append, BitVec.getLsbD_ofBool]; simp
  all_goals
    apply BitVec.eq_of_getLsbD_eq
    intro i hi
    simp only [BitVec.getLsbD_append, BitVec.getLsbD_extractLsb']
    grind

theorem and_twoPow_bne_zero (w : BitVec 32) {i : Nat} (hi : i < 32) :
    (w &&& BitVec.twoPow 32 i != 0) = w.getLsbD i := by
  have set : (BitVec.twoPow 32 i != 0#32) = true :=
    bne_iff_ne.2 fun zero => absurd (congrArg (BitVec.getLsbD · i) zero) (by simp [hi])
  rw [BitVec.and_twoPow]
  cases w.getLsbD i with
  | false => rfl
  | true => exact set

theorem and_completions (w : BitVec 32) : w &&& 0xF8000000#32 = (ofWord w).completions ++ 0#27 := by
  apply BitVec.eq_of_getLsbD_eq
  intro i hi
  have mask : ∀ i < 32, (0xF8000000#32).getLsbD i = decide (27 ≤ i) := by decide
  rw [BitVec.getLsbD_and, mask i hi, ofWord, BitVec.getLsbD_append, BitVec.getLsbD_extractLsb']
  grind

/-- The names are those of the fields: a word meets a mask where the field is not clear. -/
theorem flags_ofWord (w : BitVec 32) : flags.map (fun f => w &&& f.2 != 0) =
    [(ofWord w).enabled, (ofWord w).underflow, (ofWord w).unmatched, (ofWord w).noPending,
      (ofWord w).other.getLsbD 0, (ofWord w).other.getLsbD 1, (ofWord w).other.getLsbD 2,
      (ofWord w).other.getLsbD 3, (ofWord w).completions != 0] := by
  have bits : flags.map (·.2) = (List.range 8).map (BitVec.twoPow 32) ++ [0xF8000000#32] := by decide
  have masks : flags.map (fun f => w &&& f.2 != 0) = (flags.map (·.2)).map fun m => w &&& m != 0 :=
    (List.map_map ..).symm
  have single : (List.range 8).map ((fun m => w &&& m != 0) ∘ BitVec.twoPow 32) =
      (List.range 8).map w.getLsbD :=
    List.map_congr_left fun i hi =>
      and_twoPow_bne_zero w (Nat.lt_trans (List.mem_range.1 hi) (by decide))
  have count : ((ofWord w).completions ++ 0#27 != 0) = ((ofWord w).completions != 0) := by
    rw [Bool.eq_iff_iff, bne_iff_ne, bne_iff_ne]
    refine not_congr ?_
    rw [← BitVec.toNat_inj, ← BitVec.toNat_inj, BitVec.toNat_append]
    simp
  rw [masks, bits, List.map_append, List.map_map, single, List.map_singleton, and_completions, count]
  simp [ofWord, List.range_succ]

end Control

structure Status where
  /-- A list register completed and asked for maintenance. -/
  completed : Bool
  underflow : Bool
  unmatched : Bool
  noPending : Bool
deriving DecidableEq, Repr

namespace Status

def toWord (s : Status) : BitVec 32 :=
  (BitVec.ofBool s.noPending ++ BitVec.ofBool s.unmatched ++ BitVec.ofBool s.underflow ++
    BitVec.ofBool s.completed).setWidth 32

/-- The named bits of the register; the last four are never set here. -/
def flags : List (String × BitVec 32) :=
  [("EOI", 0x1), ("U", 0x2), ("LRENP", 0x4), ("NP", 0x8), ("VGRP0E", 0x10), ("VGRP0D", 0x20),
    ("VGRP1E", 0x40), ("VGRP1D", 0x80)]

/-- The names are those of the fields, and nothing else is ever due. -/
theorem flags_toWord (s : Status) : flags.map (fun f => s.toWord &&& f.2 != 0) =
    [s.completed, s.underflow, s.unmatched, s.noPending, false, false, false, false] := by
  obtain ⟨completed, underflow, unmatched, noPending⟩ := s
  revert completed underflow unmatched noPending
  decide

def quiet : Status := ⟨false, false, false, false⟩

end Status
end VirtualGic
