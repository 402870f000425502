/-!
# Words and sets of small numbers

Registers are 64 bit words.  A set of CPUs is such a word too: bit `n` stands
for CPU `n`.
-/
namespace VirtualGic

/-- The low `n` bits of a word, the others cleared. -/
def lowBits (n : Nat) (w : BitVec 64) : BitVec 64 := (w.setWidth n).setWidth 64

theorem getLsbD_lowBits (n : Nat) (w : BitVec 64) (i : Nat) :
    (lowBits n w).getLsbD i = (decide (i < n) && w.getLsbD i) := by
  simp only [lowBits, BitVec.getLsbD_setWidth]
  by_cases h : i < 64
  · simp [h]
  · simp [h, BitVec.getLsbD_of_ge w i (Nat.le_of_not_lt h)]

theorem ofBool_getLsbD {width : Nat} (w : BitVec width) (n : Nat) :
    BitVec.ofBool (w.getLsbD n) = w.extractLsb' n 1 := by
  apply BitVec.eq_of_getLsbD_eq
  intro i hi
  obtain rfl : i = 0 := Nat.lt_one_iff.1 hi
  simp only [BitVec.getLsbD_extractLsb', BitVec.getLsbD_ofBool, decide_true, Bool.true_and, Nat.add_zero,
    Nat.zero_lt_one]

theorem getLsbD_of_ofBool {width : Nat} {b : Bool} {w : BitVec width} {n : Nat}
    (h : w.extractLsb' n 1 = BitVec.ofBool b) : w.getLsbD n = b := by
  rw [← ofBool_getLsbD] at h
  exact BitVec.ofBool_eq_iff_eq.1 h

/-- A set of CPUs, physical or virtual: bit `n` stands for CPU `n`. -/
abbrev CpuSet := BitVec 64

namespace CpuSet

def single (n : Nat) : CpuSet := BitVec.twoPow 64 n

def below (n : Nat) : CpuSet := (BitVec.allOnes 64) >>> (64 - n)

def ofList (l : List Nat) : CpuSet := l.foldl (fun s n => s ||| single n) 0#64

/-- The members, lowest first. -/
def toList (s : CpuSet) : List Nat := (List.range 64).filter s.getLsbD

def erase (s : CpuSet) (n : Nat) : CpuSet := s &&& ~~~(single n)

theorem getLsbD_single (n i : Nat) : (single n).getLsbD i = (decide (i < 64) && n == i) := by
  simp only [single, BitVec.getLsbD_twoPow]
  by_cases h : n = i <;> simp [h]

theorem getLsbD_below (n i : Nat) (h : n ≤ 64) : (below n).getLsbD i = decide (i < n) := by
  simp only [below, BitVec.getLsbD_ushiftRight, BitVec.getLsbD_allOnes, decide_eq_decide]
  omega

theorem getLsbD_erase (s : CpuSet) (n i : Nat) :
    (s.erase n).getLsbD i = (s.getLsbD i && !(n == i)) := by
  simp only [erase, BitVec.getLsbD_and, BitVec.getLsbD_not, getLsbD_single]
  by_cases h : i < 64
  · simp [h]
  · simp [h, BitVec.getLsbD_of_ge s i (Nat.le_of_not_lt h)]

theorem getLsbD_ofList (l : List Nat) (i : Nat) :
    (ofList l).getLsbD i = (decide (i < 64) && l.contains i) := by
  have go : ∀ (l : List Nat) (s : CpuSet), (l.foldl (fun s n => s ||| single n) s).getLsbD i =
      (s.getLsbD i || (decide (i < 64) && l.contains i)) := by
    intro l
    induction l with
    | nil => simp
    | cons n l ih =>
      intro s
      rw [List.foldl_cons, ih, BitVec.getLsbD_or, getLsbD_single, List.contains_cons, Bool.or_assoc,
        Bool.and_or_distrib_left, BEq.comm (a := n)]
  simp [ofList, go]

theorem mem_toList (s : CpuSet) (i : Nat) : i ∈ s.toList ↔ s.getLsbD i = true := by
  simp only [toList, List.mem_filter, List.mem_range, and_iff_right_iff_imp]
  exact BitVec.lt_of_getLsbD

end CpuSet
end VirtualGic
