/-!
# Tables

A `Table` is a total map from numbers, kept in an array.  Cells past the end of
the array hold `rest`, so reading never fails and writing never needs a bound:
`get_set` says what a write does to every cell.  Writing back what a cell of the
array holds changes nothing at all (`set_get_self`).
-/
namespace VirtualGic

structure Table (α : Type) where
  cells : Array α
  rest : α

namespace Table

variable {α : Type}

/-- The table whose every cell is `rest`, the first `n` of them in its array. -/
def constant (n : Nat) (rest : α) : Table α := ⟨Array.replicate n rest, rest⟩

/-- The table that holds `f i` at each `i` below `n`. -/
def generate (n : Nat) (f : Nat → α) (rest : α) : Table α :=
  ⟨((List.range n).map f).toArray, rest⟩

def get (t : Table α) (i : Nat) : α := t.cells.getD i t.rest

/-- Write one cell, first growing the array when the cell lies past its end. -/
def set (t : Table α) (i : Nat) (a : α) : Table α :=
  if i < t.cells.size then { t with cells := t.cells.setIfInBounds i a }
  else { t with cells := (t.cells ++ Array.replicate (i - t.cells.size) t.rest).push a }

def modify (t : Table α) (i : Nat) (f : α → α) : Table α := t.set i (f (t.get i))

@[simp] theorem get_constant (n : Nat) (rest : α) (i : Nat) : (constant n rest).get i = rest := by
  by_cases h : i < n <;> simp [constant, get, Array.getD_eq_getD_getElem?, h]

theorem get_generate (n : Nat) (f : Nat → α) (rest : α) (i : Nat) :
    (generate n f rest).get i = if i < n then f i else rest := by
  by_cases h : i < n <;> simp [generate, get, Array.getD_eq_getD_getElem?, h]

@[simp] theorem get_set (t : Table α) (i j : Nat) (a : α) :
    (t.set i a).get j = if i = j then a else t.get j := by
  unfold set
  by_cases h : i < t.cells.size
  · simp only [h, if_true, get, Array.getD_eq_getD_getElem?]
    rw [Array.getElem?_setIfInBounds]
    by_cases e : i = j
    · subst e; simp [h]
    · simp [e]
  · simp only [h, if_false, get, Array.getD_eq_getD_getElem?]
    have size : t.cells.size ≤ i := Nat.le_of_not_lt h
    rw [Array.getElem?_push]
    by_cases e : i = j
    · subst e; simp [size]
    · have e' : ¬ j = (t.cells ++ Array.replicate (i - t.cells.size) t.rest).size := by
        simp; omega
      simp only [e', if_false, e, Array.getElem?_append, Array.getElem?_replicate]
      by_cases l : j < t.cells.size
      · simp [l]
      · have : t.cells[j]? = none := by simp; omega
        simp only [l, if_false, this]
        split <;> rfl

theorem set_get_self (t : Table α) (i : Nat) (h : i < t.cells.size) : t.set i (t.get i) = t := by
  have e : t.cells.setIfInBounds i t.cells[i] = t.cells := by
    apply Array.ext_getElem?
    intro j
    rw [Array.getElem?_setIfInBounds]
    split
    · rename_i e; subst e; simp [h]
    · rfl
  simp [set, get, h, e]

@[simp] theorem get_modify (t : Table α) (i j : Nat) (f : α → α) :
    (t.modify i f).get j = if i = j then f (t.get i) else t.get j := get_set ..

end Table
end VirtualGic
