/-!
# Which interrupt comes first

Interrupts compete by priority value and, where that is equal, by number: the
lower one is the more important.
-/
namespace VirtualGic

structure Rank where
  priority : Nat
  id : Nat
deriving DecidableEq, Repr

namespace Rank

def before (a b : Rank) : Bool :=
  decide (a.priority < b.priority) || (decide (a.priority = b.priority) && decide (a.id < b.id))

end Rank

/-- The better of what was found so far and one more element; what came first stays in a tie. -/
def better {α : Type} (beats : α → α → Bool) : Option α → α → Option α
  | none, a => some a
  | some b, a => if beats a b then some a else some b

/-- The first element of a list that no other one beats. -/
def firstBest {α : Type} (beats : α → α → Bool) (l : List α) : Option α :=
  l.foldl (better beats) none

theorem better_eq {α : Type} (beats : α → α → Bool) (b : Option α) (a : α) :
    better beats b a = some a ∨ better beats b a = b := by
  cases b with
  | none => exact .inl rfl
  | some b => simp only [better]; split <;> simp

theorem foldl_better_mem {α : Type} (beats : α → α → Bool) (l : List α) (b : Option α) (a : α)
    (h : l.foldl (better beats) b = some a) : b = some a ∨ a ∈ l := by
  induction l generalizing b with
  | nil => exact .inl h
  | cons x l ih =>
    rcases ih _ h with h | h
    · rcases better_eq beats b x with e | e <;> rw [e] at h
      · exact .inr (by simp_all)
      · exact .inl h
    · exact .inr (List.mem_cons_of_mem _ h)

theorem firstBest_mem {α : Type} {beats : α → α → Bool} {l : List α} {a : α}
    (h : firstBest beats l = some a) : a ∈ l :=
  (foldl_better_mem beats l none a h).resolve_left nofun

theorem isSome_foldl_better {α : Type} (beats : α → α → Bool) (l : List α) (b : α) :
    (l.foldl (better beats) (some b)).isSome = true := by
  induction l generalizing b with
  | nil => rfl
  | cons a l ih => rw [List.foldl_cons, better]; split <;> exact ih _

theorem isSome_firstBest {α : Type} (beats : α → α → Bool) (l : List α) :
    (firstBest beats l).isSome = !l.isEmpty := by
  cases l with
  | nil => rfl
  | cons a l => exact isSome_foldl_better beats l a

end VirtualGic
