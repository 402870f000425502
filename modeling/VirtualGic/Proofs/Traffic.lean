import VirtualGic.Proofs.Relay
/-!
# How field writes get through

A write to a configuration field is stored at once, or it waits for the core of the vCPU that owns the interrupt; there
it is stored later or sent on.  `Traffic` is what a field holds with the writes to it that wait.  Whatever a core does
relays the writes that it asks for (`Core.Runs.traffic`), and a poll relays those that wait for the core, all of them and
in their order (`Core.traffic_poll`).
-/
namespace VirtualGic

/-- What a field holds, and for each vCPU what the writes that wait for its core will store, oldest first. -/
structure Traffic where
  held : BitVec 64
  waiting : Nat → List (BitVec 64)

namespace Traffic

variable {t t' : Traffic} {heir : Option Nat} {v w : Nat} {rs rs' : List (BitVec 64)}

theorem eq_of (held : t.held = t'.held) (waiting : ∀ v, t.waiting v = t'.waiting v) : t = t' := by
  cases t
  cases t'
  exact (mk.injEq ..).mpr ⟨held, funext waiting⟩

/-- Writes are carried out one after another, or are sent to the core of another vCPU. -/
def relay (t : Traffic) (heir : Option Nat) (rs : List (BitVec 64)) : Traffic :=
  match heir with
  | none => { t with held := rs.getLast?.getD t.held }
  | some v => { t with waiting := fun w => t.waiting w ++ if v = w then rs else [] }

/-- Only these writes are left for the core of a vCPU. -/
def leave (t : Traffic) (v : Nat) (rs : List (BitVec 64)) : Traffic :=
  { t with waiting := fun w => if v = w then rs else t.waiting w }

theorem relay_nil (t : Traffic) (heir : Option Nat) : t.relay heir [] = t := by
  cases heir with
  | none => rfl
  | some v => simp only [relay, ite_self, List.append_nil]

theorem relay_append (t : Traffic) (heir : Option Nat) (rs rs' : List (BitVec 64)) :
    t.relay heir (rs ++ rs') = (t.relay heir rs).relay heir rs' := by
  cases heir with
  | none =>
    simp only [relay, List.getLast?_append]
    cases rs'.getLast? <;> rfl
  | some v =>
    refine eq_of rfl fun w => ?_
    simp only [relay, List.append_assoc]
    split <;> rfl

theorem leave_self (t : Traffic) (v : Nat) : t.leave v (t.waiting v) = t := by
  refine eq_of rfl fun w => ?_
  unfold leave
  simp only
  split
  next e => rw [e]
  next => rfl

end Traffic

def Vm.traffic (vm : Vm) (waiting : Nat → List Message) (F : ConfigField) (l : Line) : Traffic where
  held := F.get (vm.interrupt l)
  waiting v :=
    match vm.pcpuOf? v with
    | some cpu => (waiting cpu).filterMap (·.stores? F vm l)
    | none => []

namespace Core

variable {c c' : Core} {F : ConfigField} {l m : Line} {d : Option Deed} {ds : List Deed} {msg : Message} {bus : MessageBus}

def traffic (c : Core) (F : ConfigField) (l : Line) : Traffic := c.vm.traffic c.waiting F l

/-- The vCPU whose core carries out the writes to an interrupt, where that is another's. -/
def heir? (c : Core) (l : Line) : Option Nat := if c.mayClaim l then none else (c.interrupt l).owner

/-- No core has a say in where its writes go. -/
theorem Local.heir? (h : Local c c') (hl : c.vm.Has l) : c'.heir? l = c.heir? l := by
  unfold Core.heir?
  rw [h.mayClaim hl]
  split
  next => rfl
  next may =>
    rcases h.record l hl with e | ⟨hmay, -⟩
    · rw [e]
    · exact absurd hmay may

theorem traffic_eq {t : Traffic} (hp : c'.vm.partition = c.vm.partition) (held : F.get (c'.interrupt l) = t.held)
    (hw : ∀ v cpu, c.vm.pcpuOf? v = some cpu → (c'.waiting cpu).filterMap (·.stores? F c.vm l) = t.waiting v)
    (none : ∀ v, c.vm.pcpuOf? v = none → t.waiting v = []) : c'.traffic F l = t := by
  refine Traffic.eq_of held fun v => ?_
  unfold traffic Vm.traffic
  simp only [Vm.pcpuOf?_congr hp, Message.stores?_congr hp]
  cases hv : c.vm.pcpuOf? v with
  | none => exact (none v hv).symm
  | some cpu => exact hw v cpu hv

theorem waiting_traffic {v cpu : Nat} (hv : c.vm.pcpuOf? v = some cpu) :
    (c.traffic F l).waiting v = (c.waiting cpu).filterMap (·.stores? F c.vm l) := by
  unfold traffic Vm.traffic
  simp only [hv]

theorem waiting_traffic_none {v : Nat} (hv : c.vm.pcpuOf? v = none) : (c.traffic F l).waiting v = [] := by
  unfold traffic Vm.traffic
  simp only [hv]

/-! ## Operations -/

/-- The writes wait as they did, unless one is sent on. -/
theorem Does.waits (h : Does c c' d) (kept : ∀ g k x, d = some (.forward g k x) → g.Fits x ∧
    Deed.stores? F c.vm l (.forward g k x) = none) (cpu : Nat) :
    (c'.waiting cpu).filterMap (·.stores? F c.vm l) = (c.waiting cpu).filterMap (·.stores? F c.vm l) := by
  obtain ⟨more, e, hmore⟩ := h.posts cpu
  have silent : more.filterMap (·.stores? F c.vm l) = [] := by
    rw [List.filterMap_eq_nil_iff]
    intro msg hmsg
    cases hr : msg.stores? F c.vm l with
    | none => rfl
    | some r =>
      obtain ⟨g, k, x, hd, hk, -, hw⟩ := hmore msg hmsg (Message.event_of_stores? hr)
      rw [hw.stores? hk (kept g k x hd).1, (kept g k x hd).2] at hr
      cases hr
  rw [e, List.filterMap_append, silent, List.append_nil]

theorem Does.traffic_of_silent (h : Does c c' d) (hl : c.vm.Has l) (fits : ∀ a ∈ d, a.Fits)
    (silent : ∀ a ∈ d, a.stores? F c.vm l = none) : c'.traffic F l = c.traffic F l := by
  refine traffic_eq h.same.partition ?_ (fun v cpu hv => ?_) fun v hv => waiting_traffic_none hv
  · refine (h.get hl).resolve_right ?_
    rintro ⟨a, ha, hr⟩
    rw [silent a ha] at hr
    cases hr
  · rw [h.waits (fun g k x hd => ⟨fits _ hd, silent _ hd⟩), waiting_traffic hv]

theorem Forwarded.traffic {g : RegisterGroup} {k : Line} {v r : BitVec 64} (h : Forwarded c c' g k v) (hs : c.Sound)
    (fits : g.Fits v) (hr : Deed.stores? F c.vm l (.forward g k v) = some r) :
    c'.traffic F l = (c.traffic F l).relay (c.heir? l) [r] := by
  obtain ⟨w, target, msg, ho, -, hw, hwait, hwr⟩ := h.message
  obtain rfl : k = l := Deed.line_of_stores? hr
  have hheir : c.heir? k = some w := by
    unfold Core.heir?
    rw [h.elsewhere, if_neg (by decide), ho]
  rw [hheir]
  refine traffic_eq h.posted.alike.partition (congrArg F.get (h.posted.interrupt k)) (fun v cpu hv => ?_) fun v hv => ?_
  · simp only [Traffic.relay]
    unfold waiting
    rw [hwait, List.filterMap_append, waiting_traffic hv]
    unfold waiting
    congr 1
    by_cases e : target = cpu
    · rw [if_pos e, if_pos (hs.station.checked.cpu_inj hw (hv.trans (congrArg some e.symm)))]
      simp only [List.filterMap_cons, List.filterMap_nil, hwr.stores? h.has fits, hr]
    · rw [if_neg e, if_neg]
      · rfl
      · rintro rfl
        exact e (Option.some.inj (hw.symm.trans hv))
  · simp only [Traffic.relay]
    rw [waiting_traffic_none hv, if_neg]
    · rfl
    · rintro rfl
      rw [hv] at hw
      cases hw

/-- **An operation relays the write in it.** -/
theorem Does.traffic (h : Does c c' d) (hs : c.Sound) (hl : c.vm.Has l) (fits : ∀ a ∈ d, a.Fits) :
    c'.traffic F l = (c.traffic F l).relay (c.heir? l) (d.toList.filterMap (·.stores? F c.vm l)) := by
  by_cases silent : ∀ a ∈ d, a.stores? F c.vm l = none
  · rw [List.filterMap_eq_nil_iff.2 fun a ha => silent a (Option.mem_toList.1 ha), Traffic.relay_nil]
    exact h.traffic_of_silent hl fits silent
  · -- the deed stores in the field
    cases d with
    | none => exact absurd (fun a ha => (by cases ha)) silent
    | some a =>
      cases hr : a.stores? F c.vm l with
      | none => exact absurd (fun b hb => by cases hb; exact hr) silent
      | some r =>
        simp only [Option.toList_some, List.filterMap_cons, List.filterMap_nil, hr]
        cases h with
        | handled k s deed h made =>
          obtain rfl : k = l := (deed a rfl).line.symm.trans (Deed.line_of_stores? hr)
          have hheir : c.heir? k = none := by
            unfold Core.heir?
            rw [h.may, if_pos rfl]
          rw [hheir]
          have hd : Does c c' (some a) := .handled k s deed h made
          refine traffic_eq hd.same.partition ?_ (fun v cpu hv => ?_) fun v hv => waiting_traffic_none hv
          · rw [h.get made deed, Option.bind_some, hr]
            rfl
          · simp only [Traffic.relay]
            rw [hd.waits (fun g j x he => by cases he; exact (deed _ rfl).elim), waiting_traffic hv]
        | forwarded g k v h => exact h.traffic hs (fits _ rfl) hr
        | restated b n has credited guest eq =>
          cases a with
          | write | forward | raise | deactivate => exact guest.elim
          | acknowledge | complete => cases hr

/-! ## Runs -/

/-- **A run relays the writes in it, in order.** -/
theorem Runs.traffic (h : Runs c ds c') (hs : c.Sound) (hl : c.vm.Has l) (fits : ∀ a ∈ ds, a.Fits) :
    c'.traffic F l = (c.traffic F l).relay (c.heir? l) (ds.filterMap (·.stores? F c.vm l)) := by
  induction h with
  | nil => exact (Traffic.relay_nil ..).symm
  | @cons c c' c'' d ds hd _ ih =>
    have hp := hd.same.partition
    have first := hd.traffic (F := F) hs hl fun a ha => fits a (List.mem_append_left _ (Option.mem_toList.2 ha))
    rw [ih (hd.sound hs) ((Vm.has_congr hp l).2 hl) fun a ha => fits a (List.mem_append_right _ ha), first,
      hd.local_.heir? hl, List.filterMap_append, Traffic.relay_append]
    simp only [Deed.stores?_congr hp]

end Core
end VirtualGic
