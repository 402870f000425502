import VirtualGic.Message.Bus
/-!
# Inboxes

A ring that is never overfull, and full whenever messages wait behind it.  So an inbox with a message always has one
to take (`Inbox.Sound.exists_take`).
-/
namespace VirtualGic

namespace Inbox

variable {b rest : Inbox} {m : Message}

structure Sound (b : Inbox) : Prop where
  ring_le : b.ring.length ≤ ringDepth
  full : b.backlog ≠ [] → b.ring.length = ringDepth

theorem sound_empty : empty.Sound := ⟨by decide, fun h => absurd rfl h⟩

theorem Sound.post (h : b.Sound) (m : Message) : (b.post m).Sound := by
  unfold Inbox.post
  split
  next hc =>
    simp only [Bool.and_eq_true, decide_eq_true_eq, List.isEmpty_iff] at hc
    refine ⟨?_, fun hne => absurd hc.2 hne⟩
    rw [List.length_append]
    exact hc.1
  next hc =>
    refine ⟨h.ring_le, fun _ => ?_⟩
    by_cases hb : b.backlog = []
    · simp only [hb, List.isEmpty_nil, Bool.and_true, decide_eq_true_eq] at hc
      exact Nat.le_antisymm h.ring_le (Nat.le_of_not_lt hc)
    · exact h.full hb

theorem Sound.take (h : b.Sound) (ht : b.take = some (m, rest)) : rest.Sound := by
  match b with
  | ⟨[], _⟩ => cases ht
  | ⟨_ :: ring, []⟩ =>
    cases ht
    exact ⟨Nat.le_of_succ_le h.ring_le, fun hne => absurd rfl hne⟩
  | ⟨_ :: ring, next :: backlog⟩ =>
    cases ht
    have full := h.full (List.cons_ne_nil _ _)
    have e : (ring ++ [next]).length = ringDepth := by
      rw [List.length_append]
      exact full
    exact ⟨Nat.le_of_eq e, fun _ => e⟩

theorem Sound.exists_take (h : b.Sound) (hw : b.waiting ≠ []) : ∃ m rest, b.take = some (m, rest) := by
  match b with
  | ⟨[], []⟩ => exact absurd rfl hw
  | ⟨[], next :: backlog⟩ =>
    have full := h.full (List.cons_ne_nil _ _)
    cases full
  | ⟨m :: ring, []⟩ => exact ⟨m, ⟨ring, []⟩, rfl⟩
  | ⟨m :: ring, next :: backlog⟩ => exact ⟨m, ⟨ring ++ [next], backlog⟩, rfl⟩

end Inbox

namespace MessageBus

variable {b b' : MessageBus} {g g' : PhysicalGic} {cpu target : Nat} {m : Message}

def Sound (b : MessageBus) : Prop := ∀ cpu, (b.inbox cpu).Sound

theorem inbox_setIfInBounds (b : MessageBus) (cpu k : Nat) (x : Inbox) :
    ({ b with inboxes := b.inboxes.setIfInBounds cpu x } : MessageBus).inbox k = x ∨
      ({ b with inboxes := b.inboxes.setIfInBounds cpu x } : MessageBus).inbox k = b.inbox k := by
  unfold inbox
  rw [Array.getD_eq_getD_getElem?, Array.getD_eq_getD_getElem?, Array.getElem?_setIfInBounds]
  split
  next e =>
    subst e
    split
    next => exact .inl rfl
    next hout => rw [Array.getElem?_eq_none (Nat.le_of_not_lt hout)]; exact .inr rfl
  next => exact .inr rfl

theorem inbox_create (cpus : Nat) (doorbell : Bool) (cpu : Nat) : (create cpus doorbell).inbox cpu = .empty := by
  simp only [create, inbox, Array.getD_eq_getD_getElem?, Array.getElem?_replicate]
  split <;> rfl

theorem cpus_create (cpus : Nat) (doorbell : Bool) : (create cpus doorbell).cpus = cpus := Array.size_replicate

theorem sound_create (cpus : Nat) (doorbell : Bool) : (create cpus doorbell).Sound := fun cpu => by
  rw [inbox_create]
  exact Inbox.sound_empty

theorem Sound.post (h : b.Sound) (hp : b.post g target m = .ok (b', g')) : b'.Sound := by
  unfold MessageBus.post at hp
  split at hp
  next =>
    cases hp
    intro cpu
    unfold inbox
    rw [Array.getD_eq_getD_getElem?, Array.getElem?_modify]
    have hb := h cpu
    unfold inbox at hb
    rw [Array.getD_eq_getD_getElem?] at hb
    split
    next =>
      cases hc : b.inboxes[cpu]? with
      | none => exact Inbox.sound_empty
      | some x =>
        rw [hc] at hb
        exact hb.post m
    next => exact hb
  next => cases hp

theorem Sound.take (h : b.Sound) (ht : b.take cpu = some (m, b')) : b'.Sound := by
  unfold MessageBus.take at ht
  rw [Option.map_eq_some_iff] at ht
  obtain ⟨⟨x, rest⟩, ht, e⟩ := ht
  cases e
  intro k
  rcases b.inbox_setIfInBounds cpu k rest with e | e <;> rw [e]
  · exact (h cpu).take ht
  · exact h k

/-- **A message that waits can be taken.** -/
theorem Sound.exists_take (h : b.Sound) (hw : (b.inbox cpu).waiting ≠ []) : ∃ m b', b.take cpu = some (m, b') := by
  obtain ⟨m, rest, ht⟩ := (h cpu).exists_take hw
  exact ⟨m, _, by rw [MessageBus.take, ht]; rfl⟩

/-- **There is nothing to take exactly when no message waits.** -/
theorem Sound.take_eq_none_iff (h : b.Sound) (cpu : Nat) : b.take cpu = none ↔ (b.inbox cpu).waiting = [] := by
  constructor
  · intro hn
    apply Decidable.byContradiction
    intro hw
    obtain ⟨m, b', ht⟩ := h.exists_take hw
    rw [hn] at ht
    cases ht
  · intro hw
    cases ht : b.take cpu with
    | none => rfl
    | some x =>
      have hc := waiting_inbox_take ht cpu
      rw [hw, if_pos rfl] at hc
      cases hc

/-- A message for a CPU with an inbox is posted, and rings once if there is a doorbell. -/
theorem exists_post (b : MessageBus) (g : PhysicalGic) (m : Message) (h : target < b.cpus) :
    ∃ b', b.post g target m = .ok (b', if b.doorbell then g.send target doorbellInterrupt else g) ∧
      b'.cpus = b.cpus ∧ b'.doorbell = b.doorbell :=
  ⟨{ b with inboxes := b.inboxes.modify target (·.post m) }, by rw [post, if_pos h], Array.size_modify .., rfl⟩

theorem post_of_le (b : MessageBus) (g : PhysicalGic) (m : Message) (h : b.cpus ≤ target) :
    b.post g target m = .error ⟨target⟩ := by
  rw [post, if_neg (Nat.not_lt.2 h)]

theorem cpus_take (h : b.take cpu = some (m, b')) : b'.cpus = b.cpus := by
  obtain ⟨⟨_, rest⟩, -, e⟩ := Option.map_eq_some_iff.1 h
  cases e
  exact Array.size_setIfInBounds

theorem doorbell_take (h : b.take cpu = some (m, b')) : b'.doorbell = b.doorbell := by
  obtain ⟨⟨_, rest⟩, -, e⟩ := Option.map_eq_some_iff.1 h
  cases e
  rfl

end MessageBus
end VirtualGic
