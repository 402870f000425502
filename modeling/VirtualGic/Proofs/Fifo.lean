import VirtualGic.Proofs.Inbox
/-!
# First in, first out

A session of calls on the bus, by any CPUs and in any order.  What a CPU has taken, then what is in its ring and then
what is in its backlog are the messages that were posted to it, in order (`Session.Fifo`).
-/
namespace VirtualGic

/-! ## Sessions -/

/-- A call on the bus. -/
inductive BusCall where
  | post (target : Nat) (m : Message)
  | take (cpu : Nat)
deriving DecidableEq, Repr

/-- What a call on the bus comes to. -/
inductive BusAnswer where
  | posted (target : Nat) (m : Message)
  | refused (e : UnknownTarget)
  | took (cpu : Nat) (m : Message)
  | nothing (cpu : Nat)
deriving DecidableEq, Repr

namespace BusAnswer

def posted? (cpu : Nat) : BusAnswer → Option Message
  | posted target m => if target = cpu then some m else none
  | _ => none

def took? (cpu : Nat) : BusAnswer → Option Message
  | took k m => if k = cpu then some m else none
  | _ => none

/-- The CPU that a call rings for, where there is a doorbell. -/
def rings? : BusAnswer → Option Nat
  | posted target _ => some target
  | _ => none

end BusAnswer

/-- A bus with its physical distributor, and the answers that were given, oldest first. -/
structure Session where
  bus : MessageBus
  gic : PhysicalGic
  answers : List BusAnswer

namespace Session

def start (cpus : Nat) (doorbell : Bool) (g : PhysicalGic) : Session := ⟨.create cpus doorbell, g, []⟩

def call (s : Session) : BusCall → Session
  | .post target m =>
    match s.bus.post s.gic target m with
    | .ok (bus, gic) => ⟨bus, gic, s.answers ++ [.posted target m]⟩
    | .error e => { s with answers := s.answers ++ [.refused e] }
  | .take cpu =>
    match s.bus.take cpu with
    | some (m, bus) => { s with bus := bus, answers := s.answers ++ [.took cpu m] }
    | none => { s with answers := s.answers ++ [.nothing cpu] }

/-- The messages that were posted to a CPU, in order. -/
def posted (s : Session) (cpu : Nat) : List Message := s.answers.filterMap (·.posted? cpu)

/-- The messages that a CPU has taken, in order. -/
def taken (s : Session) (cpu : Nat) : List Message := s.answers.filterMap (·.took? cpu)

variable {s : Session} {cpus : Nat} {doorbell : Bool} {g : PhysicalGic}

theorem posted_snoc (b : MessageBus) (g : PhysicalGic) (as : List BusAnswer) (a : BusAnswer) (cpu : Nat) :
    (Session.mk b g (as ++ [a])).posted cpu = (Session.mk b g as).posted cpu ++ (a.posted? cpu).toList := by
  unfold posted
  rw [List.filterMap_append]
  cases h : a.posted? cpu <;> simp [h]

theorem taken_snoc (b : MessageBus) (g : PhysicalGic) (as : List BusAnswer) (a : BusAnswer) (cpu : Nat) :
    (Session.mk b g (as ++ [a])).taken cpu = (Session.mk b g as).taken cpu ++ (a.took? cpu).toList := by
  unfold taken
  rw [List.filterMap_append]
  cases h : a.took? cpu <;> simp [h]

/-! ## Order -/

/-- What holds at every point of a session. -/
structure Kept (cpus : Nat) (doorbell : Bool) (g : PhysicalGic) (s : Session) : Prop where
  sound : s.bus.Sound
  cpus : s.bus.cpus = cpus
  bell : s.bus.doorbell = doorbell
  order : ∀ cpu, s.posted cpu = s.taken cpu ++ (s.bus.inbox cpu).waiting
  rings : s.gic.sent.toList = g.sent.toList ++
    if doorbell then (s.answers.filterMap (·.rings?)).map fun target => (target, doorbellInterrupt) else []

theorem kept_start (cpus : Nat) (doorbell : Bool) (g : PhysicalGic) : (start cpus doorbell g).Kept cpus doorbell g where
  sound := MessageBus.sound_create cpus doorbell
  cpus := MessageBus.cpus_create cpus doorbell
  bell := rfl
  order := fun cpu => (congrArg Inbox.waiting (MessageBus.inbox_create cpus doorbell cpu)).symm
  rings := by simp [start]

/-- An answer that changes nothing but the list of answers. -/
theorem Kept.answered (h : s.Kept cpus doorbell g) {a : BusAnswer} (posted : ∀ cpu, a.posted? cpu = none)
    (took : ∀ cpu, a.took? cpu = none) (rings : a.rings? = none) :
    ({ s with answers := s.answers ++ [a] } : Session).Kept cpus doorbell g where
  sound := h.sound
  cpus := h.cpus
  bell := h.bell
  order := fun cpu => by
    rw [posted_snoc, taken_snoc, posted, took, Option.toList_none, List.append_nil, List.append_nil]
    exact h.order cpu
  rings := by
    simp only [List.filterMap_append, List.filterMap_cons, rings, List.filterMap_nil, List.append_nil]
    exact h.rings

theorem Kept.post (h : s.Kept cpus doorbell g) {target : Nat} (bound : target < s.bus.cpus) (m : Message) :
    (s.call (.post target m)).Kept cpus doorbell g := by
  obtain ⟨bus, hp, hcpus, hbell⟩ := s.bus.exists_post s.gic m bound
  rw [call, hp]
  refine ⟨h.sound.post hp, hcpus.trans h.cpus, hbell.trans h.bell, fun cpu => ?_, ?_⟩
  · rw [posted_snoc, taken_snoc, MessageBus.waiting_inbox_post hp cpu, ← List.append_assoc, BusAnswer.posted?]
    show s.posted cpu ++ _ = s.taken cpu ++ [] ++ _ ++ _
    rw [h.order cpu, List.append_nil]
    split <;> rfl
  · rw [h.bell]
    cases doorbell with
    | false => exact h.rings
    | true =>
      simp only [if_true, PhysicalGic.send, Array.toList_push, h.rings, List.filterMap_append, List.filterMap_cons,
        BusAnswer.rings?, List.filterMap_nil, List.map_append, List.map_cons, List.map_nil, List.append_assoc]

theorem Kept.take (h : s.Kept cpus doorbell g) {cpu : Nat} {m : Message} {bus : MessageBus}
    (ht : s.bus.take cpu = some (m, bus)) : (s.call (.take cpu)).Kept cpus doorbell g := by
  rw [call, ht]
  refine ⟨h.sound.take ht, (MessageBus.cpus_take ht).trans h.cpus, (MessageBus.doorbell_take ht).trans h.bell,
    fun k => ?_, ?_⟩
  · have hw := h.order k
    rw [MessageBus.waiting_inbox_take ht k, ← List.append_assoc] at hw
    rw [posted_snoc, taken_snoc, BusAnswer.took?]
    show s.posted k ++ [] = s.taken k ++ _ ++ _
    rw [List.append_nil, hw]
    split <;> rfl
  · simp only [List.filterMap_append, List.filterMap_cons, BusAnswer.rings?, List.filterMap_nil, List.append_nil]
    exact h.rings

/-- **Whatever call comes next, the order is kept.** -/
theorem Kept.call (h : s.Kept cpus doorbell g) (k : BusCall) : (s.call k).Kept cpus doorbell g := by
  cases k with
  | post target m =>
    by_cases bound : target < s.bus.cpus
    · exact h.post bound m
    · rw [Session.call, s.bus.post_of_le s.gic m (Nat.le_of_not_lt bound)]
      exact h.answered (fun _ => rfl) (fun _ => rfl) rfl
  | take cpu =>
    cases ht : s.bus.take cpu with
    | some x => exact h.take ht
    | none =>
      rw [Session.call, ht]
      exact h.answered (fun _ => rfl) (fun _ => rfl) rfl

theorem Kept.calls (h : s.Kept cpus doorbell g) (ks : List BusCall) : (ks.foldl Session.call s).Kept cpus doorbell g := by
  induction ks generalizing s with
  | nil => exact h
  | cons k ks ih => exact ih (h.call k)

/-! ## The bus is a queue -/

/-- A session that lost no message, kept them in order, and rang once for each. -/
structure Fifo (cpus : Nat) (doorbell : Bool) (g : PhysicalGic) (s : Session) : Prop where
  order : ∀ cpu, s.taken cpu ++ (s.bus.inbox cpu).ring ++ (s.bus.inbox cpu).backlog = s.posted cpu
  /-- There is nothing to take exactly when nothing is outstanding. -/
  nothing : ∀ cpu, s.bus.take cpu = none ↔ s.taken cpu = s.posted cpu
  ring_le : ∀ cpu, (s.bus.inbox cpu).ring.length ≤ ringDepth
  full : ∀ cpu, (s.bus.inbox cpu).backlog ≠ [] → (s.bus.inbox cpu).ring.length = ringDepth
  /-- Posting to a CPU with an inbox succeeds, and rings its doorbell once if there is one. -/
  accepts : ∀ target < cpus, ∀ m, ∃ bus, s.call (.post target m) =
    ⟨bus, if doorbell then s.gic.send target doorbellInterrupt else s.gic, s.answers ++ [.posted target m]⟩
  /-- Posting to any other CPU fails and changes nothing. -/
  refuses : ∀ target, cpus ≤ target → ∀ m,
    s.call (.post target m) = ⟨s.bus, s.gic, s.answers ++ [.refused ⟨target⟩]⟩
  /-- Nothing but the messages that were posted has rung, each of them once and in order. -/
  rings : s.gic.sent.toList = g.sent.toList ++
    if doorbell then (s.answers.filterMap (·.rings?)).map fun target => (target, doorbellInterrupt) else []

theorem Kept.fifo (h : s.Kept cpus doorbell g) : s.Fifo cpus doorbell g where
  order := fun cpu => by
    rw [List.append_assoc]
    exact (h.order cpu).symm
  nothing := fun cpu => by
    rw [h.sound.take_eq_none_iff, h.order cpu]
    constructor
    · intro hw
      rw [hw, List.append_nil]
    · exact fun e => List.append_right_eq_self.1 e.symm
  ring_le := fun cpu => (h.sound cpu).ring_le
  full := fun cpu => (h.sound cpu).full
  accepts := fun target bound m => by
    obtain ⟨bus, hp, -⟩ := s.bus.exists_post s.gic m (Nat.lt_of_lt_of_eq bound h.cpus.symm)
    exact ⟨bus, by rw [Session.call, hp, h.bell]⟩
  refuses := fun target bound m => by
    rw [Session.call, s.bus.post_of_le s.gic m (Nat.le_trans (Nat.le_of_eq h.cpus) bound)]
  rings := h.rings

/-- **The bus is a queue for each CPU**: however many CPUs there are and whatever is called on whichever of them, no
message is lost, doubled or overtaken, and each one rings once. -/
theorem fifo_calls (cpus : Nat) (doorbell : Bool) (g : PhysicalGic) (ks : List BusCall) :
    (ks.foldl Session.call (start cpus doorbell g)).Fifo cpus doorbell g :=
  ((kept_start cpus doorbell g).calls ks).fifo

end Session
end VirtualGic
