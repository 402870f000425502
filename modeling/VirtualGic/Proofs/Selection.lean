import Mathlib.Data.List.MinMax
import Mathlib.Data.Prod.Lex
import VirtualGic.Proofs.Upkeep
/-!
# Which one is selected

Ranks are ordered by priority value, then by number.  A scan that keeps the better of what it found so far ends with the
first element that is least in this order (`firstBest_eq_argmin`), or greatest.  So it is known which list register has to
make room (`CpuInterface.victim_victim?`) and which spilled interrupt comes back first (`Core.firstSpilled?_first`).
-/
namespace VirtualGic

/-! ## Ranks -/

/-- What ranks are ordered by: a lower key is the more important. -/
def Rank.key (a : Rank) : ℕ ×ₗ ℕ := toLex (a.priority, a.id)

theorem Rank.before_eq (a b : Rank) : a.before b = decide (a.key < b.key) := by
  simp only [before, key, Prod.Lex.toLex_lt_toLex, Bool.decide_or, Bool.decide_and]

theorem Rank.id_eq_of_key_eq {a b : Rank} (h : a.key = b.key) : a.id = b.id := congrArg (fun k => (ofLex k).2) h

section Scan
variable {α β : Type} [LinearOrder β] {beats : α → α → Bool} {l : List α} {a b : α}

/-- **A scan for the best ends with the first element of lowest key.** -/
theorem firstBest_eq_argmin (f : α → β) (h : ∀ a b, beats a b = decide (f a < f b)) (l : List α) :
    firstBest beats l = l.argmin f := by
  have step : better beats = List.argAux fun b c => f b < f c := by
    funext o a
    cases o with
    | none => rfl
    | some b => simp only [better, List.argAux, h, decide_eq_true_eq]
  rw [firstBest, step]
  rfl

theorem firstBest_eq_argmax (f : α → β) (h : ∀ a b, beats a b = decide (f b < f a)) (l : List α) :
    firstBest beats l = l.argmax f := by
  have step : better beats = List.argAux fun b c => f c < f b := by
    funext o a
    cases o with
    | none => rfl
    | some b => simp only [better, List.argAux, h, decide_eq_true_eq]
  rw [firstBest, step]
  rfl

end Scan

/-- In an increasing list what comes first is the lower. -/
theorem le_of_idxOf_le {l : List ℕ} {a b : ℕ} (increasing : l.Pairwise (· < ·)) (ha : a ∈ l) (hb : b ∈ l)
    (h : l.idxOf a ≤ l.idxOf b) : a ≤ b := by
  have ia := List.idxOf_lt_length_of_mem ha
  have ib := List.idxOf_lt_length_of_mem hb
  rcases Nat.lt_or_eq_of_le h with h | h
  · have := List.pairwise_iff_getElem.1 increasing _ _ ia ib h
    rw [List.getElem_idxOf, List.getElem_idxOf] at this
    exact Nat.le_of_lt this
  · exact Nat.le_of_eq ((List.idxOf_inj ha).1 h)

/-! ## List registers -/

namespace CpuInterface

variable {f : CpuInterface} {n : Nat} {p : ListRegister → Bool}

/-- How unimportant what a slot shows is. -/
def keyOf (f : CpuInterface) (n : Nat) : ℕ ×ₗ ℕ := Rank.key ⟨(f.read n).priority.toNat, (f.read n).intid.toNat⟩

/-- Slot `n` is the first one of the least important among the slots with a property. -/
structure FirstLeast (f : CpuInterface) (p : ListRegister → Bool) (n : Nat) : Prop where
  slot_lt : n < f.count
  has : p (f.read n) = true
  least : ∀ k, k < f.count → p (f.read k) = true → f.keyOf k ≤ f.keyOf n
  first : ∀ k, k < f.count → p (f.read k) = true → f.keyOf k = f.keyOf n → n ≤ k

theorem firstLeast_of_argmax (h : (f.slotsWhere p).argmax f.keyOf = some n) : f.FirstLeast p n := by
  obtain ⟨mem, least, first⟩ := List.argmax_eq_some_iff.1 h
  obtain ⟨hn, hp⟩ := (f.mem_slotsWhere p n).1 mem
  have increasing : (f.slotsWhere p).Pairwise (· < ·) := List.pairwise_lt_range.filter _
  refine ⟨hn, hp, fun k hk hpk => least k ((f.mem_slotsWhere p k).2 ⟨hk, hpk⟩), fun k hk hpk e => ?_⟩
  have hk := (f.mem_slotsWhere p k).2 ⟨hk, hpk⟩
  exact le_of_idxOf_le increasing mem hk (first k hk e.ge)

/-- The slot that has to make room: of at least two waiting ones the least important, else the least important one with
the active bit, if there is any. -/
inductive Victim (f : CpuInterface) : Option Nat → Prop
  | waiting (n : Nat) (several : 2 ≤ (f.slotsWhere (·.state.isWaiting)).length)
    (least : f.FirstLeast (·.state.isWaiting) n) : Victim f (some n)
  | active (n : Nat) (few : (f.slotsWhere (·.state.isWaiting)).length < 2) (least : f.FirstLeast (·.state.active) n) :
    Victim f (some n)
  | none (few : (f.slotsWhere (·.state.isWaiting)).length < 2)
    (inactive : ∀ n, n < f.count → (f.read n).state.active = false) : Victim f none

/-- **The victim is chosen by what the list registers show**, whatever they show and however many there are. -/
theorem victim_victim? (f : CpuInterface) : f.Victim f.victim? := by
  have least : ∀ p, firstBest (fun n m => (Rank.mk (f.read m).priority.toNat (f.read m).intid.toNat).before
      ⟨(f.read n).priority.toNat, (f.read n).intid.toNat⟩) (f.slotsWhere p) = (f.slotsWhere p).argmax f.keyOf :=
    fun p => firstBest_eq_argmax f.keyOf (fun _ _ => Rank.before_eq ..) _
  simp only [victim?, least]
  split
  next several =>
    cases h : (f.slotsWhere (·.state.isWaiting)).argmax f.keyOf with
    | some n => exact .waiting n several (firstLeast_of_argmax h)
    | none =>
      rw [List.argmax_eq_none.1 h] at several
      cases several
  next few =>
    cases h : (f.slotsWhere (·.state.active)).argmax f.keyOf with
    | some n => exact .active n (Nat.not_lt.1 few |> Nat.lt_succ_of_le) (firstLeast_of_argmax h)
    | none =>
      refine .none (Nat.lt_succ_of_le (Nat.not_lt.1 few)) fun n hn => (Bool.not_eq_true _).mp fun active => ?_
      have mem := (f.mem_slotsWhere (·.state.active) n).2 ⟨hn, active⟩
      rw [List.argmax_eq_none.1 h] at mem
      cases mem

theorem lt_count_of_isWaiting (h : (f.read n).state.isWaiting = true) : n < f.count := by
  refine Nat.lt_of_not_le fun hge => ?_
  rw [read_of_ge hge] at h
  cases h

/-- A waiting victim is the least important of those that wait. -/
theorem Victim.least {m : Nat} (h : f.Victim (some n)) (waiting : (f.read n).state.isWaiting = true)
    (hm : (f.read m).state.isWaiting = true) : f.keyOf m ≤ f.keyOf n := by
  cases h with
  | waiting _ _ least => exact least.least m (lt_count_of_isWaiting hm) hm
  | active _ _ least =>
    rw [Interrupt.State.isWaiting, show _ = true from least.has, Bool.not_true, Bool.and_false] at waiting
    cases waiting

/-- The only waiting one is no victim. -/
theorem Victim.leaves {m : Nat} (h : f.Victim (some n)) (hm : (f.read m).state.isWaiting = true) :
    ∃ k, k ≠ n ∧ (f.read k).state.isWaiting = true := by
  cases h with
  | waiting _ several least =>
    have nodup : (f.slotsWhere (·.state.isWaiting)).Nodup := List.nodup_range.filter _
    have mem := (f.mem_slotsWhere (·.state.isWaiting) n).2 ⟨least.slot_lt, least.has⟩
    have rest : 0 < ((f.slotsWhere (·.state.isWaiting)).erase n).length := by
      rw [List.length_erase_of_mem mem]
      omega
    obtain ⟨k, hk⟩ := List.exists_mem_of_length_pos rest
    obtain ⟨hkn, hk⟩ := nodup.mem_erase_iff.1 hk
    exact ⟨k, hkn, ((f.mem_slotsWhere (·.state.isWaiting) k).1 hk).2⟩
  | active _ _ least =>
    refine ⟨m, ?_, hm⟩
    rintro rfl
    rw [Interrupt.State.isWaiting, show _ = true from least.has, Bool.not_true, Bool.and_false] at hm
    cases hm

end CpuInterface

/-! ## Spilled interrupts -/

namespace Core

variable {c : Core} {k l : Line} {p : Line → Bool}

/-- How unimportant an interrupt is. -/
def keyOf (c : Core) (l : Line) : ℕ ×ₗ ℕ := Rank.key ⟨(c.interrupt l).priority.toNat, l.id⟩

theorem firstSpilled?_eq (c : Core) (p : Line → Bool) : c.firstSpilled? p = (c.spilledLines p).argmin c.keyOf :=
  firstBest_eq_argmin c.keyOf (fun _ _ => Rank.before_eq ..) _

/-- **The first spilled interrupt is the most important one.** -/
theorem firstSpilled?_first (h : c.firstSpilled? p = some l) (hk : k ∈ c.spilledLines p) : c.keyOf l ≤ c.keyOf k := by
  rw [firstSpilled?_eq] at h
  exact (List.argmin_eq_some_iff.1 h).2.1 k hk

end Core
end VirtualGic
