import VirtualGic.PhysicalGic
/-!
# The message bus

Each physical CPU has an inbox: a ring of `ringDepth` messages and a backlog that
is used only while the ring is full.  Nothing is dropped, and messages arrive in
the order in which they were posted.
-/
namespace VirtualGic

structure Message where
  event : BitVec 32
  data : BitVec 64
deriving DecidableEq, Repr

structure Inbox where
  ring : List Message
  /-- Younger than every message of the ring. -/
  backlog : List Message
deriving DecidableEq, Repr

namespace Inbox

def empty : Inbox := ⟨[], []⟩

/-- The waiting messages, oldest first. -/
def waiting (b : Inbox) : List Message := b.ring ++ b.backlog

def post (b : Inbox) (m : Message) : Inbox :=
  if b.ring.length < ringDepth && b.backlog.isEmpty then { b with ring := b.ring ++ [m] }
  else { b with backlog := b.backlog ++ [m] }

/-- Take the oldest message; the oldest one of the backlog moves up into the ring. -/
def take : Inbox → Option (Message × Inbox)
  | ⟨[], _⟩ => none
  | ⟨m :: ring, []⟩ => some (m, ⟨ring, []⟩)
  | ⟨m :: ring, next :: backlog⟩ => some (m, ⟨ring ++ [next], backlog⟩)

theorem waiting_post (b : Inbox) (m : Message) : (b.post m).waiting = b.waiting ++ [m] := by
  unfold post
  split
  next h =>
    have : b.backlog = [] := by simp at h; exact h.2
    simp [waiting, this]
  next => simp [waiting]

theorem waiting_take {b rest : Inbox} {m : Message} (h : b.take = some (m, rest)) :
    b.waiting = m :: rest.waiting := by
  match b with
  | ⟨[], _⟩ => simp [take] at h
  | ⟨_ :: _, []⟩ => simp [take] at h; obtain ⟨rfl, rfl⟩ := h; rfl
  | ⟨_ :: _, _ :: _⟩ => simp [take] at h; obtain ⟨rfl, rfl⟩ := h; simp [waiting]

end Inbox

structure UnknownTarget where
  cpu : Nat
deriving DecidableEq, Repr

def UnknownTarget.message (e : UnknownTarget) : String :=
  s!"physical CPU {e.cpu} has no message queue"

structure MessageBus where
  inboxes : Array Inbox
  /-- Whether posting sends the target a physical interrupt. -/
  doorbell : Bool
deriving DecidableEq, Repr

namespace MessageBus

def create (cpus : Nat) (doorbell : Bool) : MessageBus :=
  ⟨Array.replicate cpus .empty, doorbell⟩

def cpus (b : MessageBus) : Nat := b.inboxes.size

def inbox (b : MessageBus) (cpu : Nat) : Inbox := b.inboxes.getD cpu .empty

/-- Queue a message and ring the target's doorbell. -/
def post (b : MessageBus) (g : PhysicalGic) (target : Nat) (m : Message) :
    Except UnknownTarget (MessageBus × PhysicalGic) :=
  if target < b.cpus then
    .ok ({ b with inboxes := b.inboxes.modify target (·.post m) },
      if b.doorbell then g.send target doorbellInterrupt else g)
  else .error ⟨target⟩

/-- The oldest message for a CPU, and the bus without it. -/
def take (b : MessageBus) (cpu : Nat) : Option (Message × MessageBus) :=
  (b.inbox cpu).take.map fun (m, rest) =>
    (m, { b with inboxes := b.inboxes.setIfInBounds cpu rest })

/-- Posting appends to the target's messages and leaves those of the others alone. -/
theorem waiting_inbox_post {b b' : MessageBus} {g g' : PhysicalGic} {target : Nat} {m : Message}
    (h : b.post g target m = .ok (b', g')) (cpu : Nat) :
    (b'.inbox cpu).waiting =
      (b.inbox cpu).waiting ++ if target = cpu then [m] else [] := by
  unfold post at h
  split at h
  next bound =>
    simp only [Except.ok.injEq, Prod.mk.injEq] at h
    obtain ⟨rfl, -⟩ := h
    simp only [inbox, Array.getD_eq_getD_getElem?, Array.getElem?_modify]
    by_cases e : target = cpu
    · subst e
      simp only [if_true]
      rw [Array.getElem?_eq_getElem bound]
      simp [Inbox.waiting_post]
    · simp [e]
  next => simp at h

/-- Taking removes the oldest message of a CPU and leaves those of the others alone. -/
theorem waiting_inbox_take {b b' : MessageBus} {cpu : Nat} {m : Message}
    (h : b.take cpu = some (m, b')) (i : Nat) :
    (b.inbox i).waiting = (if cpu = i then [m] else []) ++ (b'.inbox i).waiting := by
  simp only [take, Option.map_eq_some_iff, Prod.mk.injEq] at h
  obtain ⟨⟨_, rest⟩, taken, rfl, rfl⟩ := h
  have bound : cpu < b.inboxes.size := by
    apply Decidable.byContradiction
    intro out
    simp [inbox, Array.getD_eq_getD_getElem?, out, Inbox.empty, Inbox.take] at taken
  by_cases e : cpu = i
  · subst e
    rw [Inbox.waiting_take taken]
    simp [inbox, Array.getD_eq_getD_getElem?, bound]
  · simp [inbox, Array.getD_eq_getD_getElem?, e]

def pending (b : MessageBus) (cpu : Nat) : Nat := (b.inbox cpu).waiting.length

/-- Messages that found the ring of a CPU full. -/
def backlogged (b : MessageBus) (cpu : Nat) : Nat := (b.inbox cpu).backlog.length

end MessageBus
end VirtualGic
