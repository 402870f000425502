import Mathlib.Algebra.Group.Nat.Defs
import VirtualGic.Bits
/-!
# Guarded operations

The numbers of the program have fixed widths, and an operation on them may stop it: a sum or a product that does not fit, a
difference below zero, a division by zero, a shift by the whole width, an index beyond the end (`Fault`).  `Guarded` is what
may stop in this way.  The modules beside this one run everything that a core does once more with every operation guarded,
and show that it does the same and never stops.

Shifts by constants, which place the fields of a word, are not guarded: each lies below the width of its word.
-/
namespace VirtualGic

/-- What stops the program. -/
inductive Fault where
  | division
  /-- A shift by the width of the word or more. -/
  | shift
  | overflow
  | bounds
  /-- A list register is written for an interrupt that the vCPU does not own. -/
  | ownership
deriving DecidableEq, Repr

abbrev Guarded := Except Fault

namespace Guarded

variable {α β : Type} {w n : Nat}

@[simp] theorem pure_eq (x : α) : (pure x : Guarded α) = .ok x := rfl

@[simp] theorem ok_bind (x : α) (f : α → Guarded β) : ((.ok x : Guarded α) >>= f) = f x := rfl

theorem bind_eq {x : Guarded α} {a : α} {f : α → Guarded β} {y : Guarded β} (hx : x = .ok a) (hf : f a = y) :
    x >>= f = y := by
  rw [hx]
  exact hf

/-! ## Numbers -/

/-- A sum in `w` bits. -/
def add (w a b : Nat) : Guarded Nat := if a + b < 2 ^ w then .ok (a + b) else .error .overflow

def sub (a b : Nat) : Guarded Nat := if b ≤ a then .ok (a - b) else .error .overflow

/-- A product in `w` bits. -/
def mul (w a b : Nat) : Guarded Nat := if a * b < 2 ^ w then .ok (a * b) else .error .overflow

def div (a b : Nat) : Guarded Nat := if b = 0 then .error .division else .ok (a / b)

def mod (a b : Nat) : Guarded Nat := if b = 0 then .error .division else .ok (a % b)

theorem add_eq {a b : Nat} (h : a + b < 2 ^ w) : add w a b = .ok (a + b) := if_pos h

theorem sub_eq {a b : Nat} (h : b ≤ a) : sub a b = .ok (a - b) := if_pos h

theorem mul_eq {a b : Nat} (h : a * b < 2 ^ w) : mul w a b = .ok (a * b) := if_pos h

theorem div_eq {a b : Nat} (h : b ≠ 0) : div a b = .ok (a / b) := if_neg h

theorem mod_eq {a b : Nat} (h : b ≠ 0) : mod a b = .ok (a % b) := if_neg h

/-! ## Words -/

def shiftLeft (x : BitVec w) (n : Nat) : Guarded (BitVec w) := if n < w then .ok (x <<< n) else .error .shift

def shiftRight (x : BitVec w) (n : Nat) : Guarded (BitVec w) := if n < w then .ok (x >>> n) else .error .shift

theorem shiftLeft_eq (x : BitVec w) (h : n < w) : shiftLeft x n = .ok (x <<< n) := if_pos h

theorem shiftRight_eq (x : BitVec w) (h : n < w) : shiftRight x n = .ok (x >>> n) := if_pos h

/-- The shift of a signed number. -/
def sshiftRight (x : BitVec w) (n : Nat) : Guarded (BitVec w) :=
  if n < w then .ok (x.sshiftRight n) else .error .shift

theorem sshiftRight_eq (x : BitVec w) (h : n < w) : sshiftRight x n = .ok (x.sshiftRight n) := if_pos h

/-- The word with bit `n` set. -/
def bit (n : Nat) : Guarded (BitVec w) := shiftLeft 1 n

theorem bit_eq (h : n < w) : bit n = .ok (BitVec.twoPow w n) := by
  rw [bit, shiftLeft_eq 1 h, BitVec.twoPow_eq]
  rfl

/-- The word whose low `n` bits are set. -/
def lowMask (n : Nat) : Guarded (BitVec 64) := do
  let top : BitVec 64 ← bit n
  return BitVec.ofNat 64 (← sub top.toNat 1)

theorem lowMask_eq (h : n < 64) : lowMask n = .ok (CpuSet.below n) := by
  have top : (BitVec.twoPow 64 n).toNat = 2 ^ n := by
    rw [BitVec.toNat_twoPow]
    exact Nat.mod_eq_of_lt (Nat.pow_lt_pow_right (by decide) h)
  rw [lowMask, bit_eq h, ok_bind, top, sub_eq Nat.one_le_two_pow, ok_bind, pure_eq]
  congr 1
  apply BitVec.eq_of_getLsbD_eq
  intro i hi
  rw [BitVec.getLsbD_ofNat, Nat.testBit_two_pow_sub_one, CpuSet.getLsbD_below n i (Nat.le_of_lt h), decide_eq_true hi,
    Bool.true_and]

theorem and_below (x : BitVec 64) (h : n ≤ 64) : x &&& CpuSet.below n = lowBits n x := by
  apply BitVec.eq_of_getLsbD_eq
  intro i _
  rw [BitVec.getLsbD_and, CpuSet.getLsbD_below n i h, getLsbD_lowBits, Bool.and_comm]

/-- Whether a word has bit `n` set. -/
def has (x : BitVec w) (n : Nat) : Guarded Bool := do return x &&& (← bit n) != 0

theorem has_eq (x : BitVec w) (h : n < w) : has x n = .ok (x.getLsbD n) := by
  rw [has, bit_eq h, ok_bind, pure_eq, BitVec.and_twoPow]
  cases x.getLsbD n with
  | false => rfl
  | true =>
    have set : BitVec.twoPow w n ≠ 0 := fun e => by
      have bit : (BitVec.twoPow w n).getLsbD n = true := by simp [h]
      rw [e] at bit
      simp at bit
    rw [if_pos rfl, bne_iff_ne.2 set]

def entry (xs : Array α) (i : Nat) : Guarded α := if h : i < xs.size then .ok xs[i] else .error .bounds

/-! ## Loops -/

theorem ite_ok {p : Prop} [Decidable p] {x y : Guarded α} {x' y' : α} (h : p → x = .ok x') (h' : ¬ p → y = .ok y') :
    (if p then x else y) = .ok (if p then x' else y') := by
  split
  next hp => exact h hp
  next hp => exact h' hp

/-- A test that is made only where another one holds. -/
def andThen (p : Bool) (x : Guarded Bool) : Guarded Bool := if p then x else .ok false

theorem andThen_eq {p q : Bool} {x : Guarded Bool} (h : p = true → x = .ok q) : andThen p x = .ok (p && q) := by
  cases p with
  | false => rfl
  | true => exact h rfl

theorem mapM_eq {x : Option α} {f : α → Guarded β} {g : α → β} (h : ∀ a, x = some a → f a = .ok (g a)) :
    x.mapM f = .ok (x.map g) := by
  cases x with
  | none => rfl
  | some a => exact bind_eq (h a rfl) rfl

/-- **A loop whose rounds do not stop does not stop**, where each round keeps what the rounds rely on. -/
theorem foldlM_eq {f : β → α → Guarded β} {g : β → α → β} (P : β → Prop) (xs : List α) (b : β) (hb : P b)
    (h : ∀ d, P d → ∀ a ∈ xs, f d a = .ok (g d a) ∧ P (g d a)) : xs.foldlM f b = .ok (xs.foldl g b) := by
  induction xs generalizing b with
  | nil => rfl
  | cons a xs ih =>
    obtain ⟨e, hp⟩ := h b hb a List.mem_cons_self
    rw [List.foldlM_cons, e, ok_bind, List.foldl_cons]
    exact ih (g b a) hp fun d hd x hx => h d hd x (List.mem_cons_of_mem a hx)

theorem filterAuxM_eq {p : α → Guarded Bool} {q : α → Bool} (xs acc : List α) (h : ∀ a ∈ xs, p a = .ok (q a)) :
    xs.filterAuxM p acc = .ok ((xs.filter q).reverse ++ acc) := by
  induction xs generalizing acc with
  | nil => rfl
  | cons a xs ih =>
    rw [List.filterAuxM, h a List.mem_cons_self, ok_bind, ih _ fun x hx => h x (List.mem_cons_of_mem a hx), List.filter_cons]
    cases q a <;> simp

theorem filterM_eq {p : α → Guarded Bool} {q : α → Bool} (xs : List α) (h : ∀ a ∈ xs, p a = .ok (q a)) :
    xs.filterM p = .ok (xs.filter q) := by
  rw [List.filterM, filterAuxM_eq xs [] h, ok_bind, pure_eq, List.append_nil, List.reverse_reverse]

theorem findM?_eq {p : α → Guarded Bool} {q : α → Bool} (xs : List α) (h : ∀ a ∈ xs, p a = .ok (q a)) :
    xs.findM? p = .ok (xs.find? q) := by
  induction xs with
  | nil => rfl
  | cons a xs ih =>
    rw [List.findM?, h a List.mem_cons_self, ok_bind, List.find?_cons]
    cases q a with
    | true => rfl
    | false => exact ih fun x hx => h x (List.mem_cons_of_mem a hx)

/-- The set of the numbers in a list. -/
def gather (ns : List Nat) : Guarded CpuSet := ns.foldlM (fun s n => do return s ||| (← bit n)) 0

theorem gather_eq {ns : List Nat} (h : ∀ n ∈ ns, n < 64) : gather ns = .ok (CpuSet.ofList ns) :=
  foldlM_eq (fun _ => True) ns 0 trivial fun s _ n hn => by
    rw [bit_eq (h n hn)]
    exact ⟨rfl, trivial⟩

end Guarded
end VirtualGic
