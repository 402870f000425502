import Mathlib.Algebra.BigOperators.Group.Finset.Piecewise
import Mathlib.Data.Prod.Lex
import VirtualGic.Proofs.Demand
import VirtualGic.Proofs.Order
/-!
# How messages come to an end

No core posts to itself, so a poll handles what waits when it starts, and leaves nothing (`Core.handles_poll`).  Nor do
the cores keep each other busy.  A demand that is met may be followed by offers, but an offer by nothing; a demand that is
passed on goes to the core of the owner, and while nothing else happens there it can be met.  So the burden of a machine
falls with every message that is handled, wherever that is (`Machine.Arises.burden_lt`).
-/
namespace VirtualGic

namespace Core

variable {c c' : Core} {d : Demand} {msg : Message} {bus : MessageBus} {cpu : Nat} {ds : List Deed}

/-! ## A core's own queue -/

/-- **No action posts to its own core.** -/
theorem own_act (h : c.Stationed) {a : Action} (ha : a ≠ .poll) : (c.act a).waiting c.cpu = c.waiting c.cpu :=
  (posts_act h ha c.cpu).own

/-- **Nor does the handling of a message.** -/
theorem own_handle (h : c.Stationed) (msg : Message) : (c.handle msg).waiting c.cpu = c.waiting c.cpu :=
  (posts_handle h msg c.cpu).own

/-- A core handles messages, each the oldest that waits for it then. -/
inductive Handles : Core → List Message → Core → Prop
  | nil (c : Core) : Handles c [] c
  | cons {c c' : Core} {msg : Message} {bus : MessageBus} {msgs : List Message} (h : c.bus.take c.cpu = some (msg, bus))
    (rest : Handles (({ c with bus := bus } : Core).handle msg) msgs c') : Handles c (msg :: msgs) c'

theorem handles_handleUpTo (msgs : List Message) (c : Core) (hs : c.Sound) (hb : c.bus.Sound)
    (hw : c.waiting c.cpu = msgs) :
    c.Handles msgs (c.handleUpTo msgs.length).2 ∧ (c.handleUpTo msgs.length).1 = msgs.length ∧
      (c.handleUpTo msgs.length).2.waiting c.cpu = [] := by
  induction msgs generalizing c with
  | nil => exact ⟨.nil c, rfl, hw⟩
  | cons first rest ih =>
    have hw : (c.bus.inbox c.cpu).waiting = first :: rest := hw
    have some : (c.bus.inbox c.cpu).waiting ≠ [] := fun e => by
      rw [hw] at e
      cases e
    obtain ⟨msg, bus, ht⟩ := hb.exists_take some
    have taken := MessageBus.waiting_inbox_take ht c.cpu
    rw [if_pos rfl, hw] at taken
    obtain ⟨rfl, left⟩ := List.cons.inj taken
    have hmv : c.Move _ _ := .handle first bus ht
    have hcpu := (hmv.local_ hs).cpu
    have own := own_handle (hs.alike (alike_take ht)).station first
    obtain ⟨handles, count, none⟩ := ih _ (hmv.sound hs) (hmv.bus_sound hs hb) (by
      rw [hcpu]
      exact own.trans left.symm)
    rw [hcpu] at none
    have next : c.handleUpTo (first :: rest).length =
        (((({ c with bus := bus } : Core).handle first).handleUpTo rest.length).1 + 1,
          ((({ c with bus := bus } : Core).handle first).handleUpTo rest.length).2) := by
      rw [List.length_cons, handleUpTo, (c.handleNext?_eq_some_iff _).2 ⟨first, bus, ht, rfl⟩]
    rw [next]
    exact ⟨.cons ht handles, congrArg (· + 1) count, none⟩

/-- **A poll handles the messages that wait when it starts**, and leaves none. -/
theorem handles_poll (hs : c.Sound) (hb : c.bus.Sound) :
    c.Handles (c.waiting c.cpu) c.poll.2 ∧ c.poll.1 = (c.waiting c.cpu).length ∧ c.poll.2.waiting c.cpu = [] :=
  handles_handleUpTo _ c hs hb rfl

/-! ## Where messages wait -/

/-- Whatever waits waited before, or this core has posted it. -/
theorem Change.arrives (h : Change c c') (hm : msg ∈ c'.waiting cpu) : msg ∈ c.waiting cpu ∨ c.Addressed cpu msg := by
  cases h with
  | write h =>
    obtain ⟨more, e, hmore⟩ := h.posts cpu
    rw [e] at hm
    exact (List.mem_append.1 hm).imp_right (hmore msg)
  | enables | sync => exact .inl hm
  | take other bus ht =>
    left
    unfold waiting
    rw [MessageBus.waiting_inbox_take ht cpu]
    exact List.mem_append_right _ hm

theorem Changes.arrives (h : Changes c c') (hm : msg ∈ c'.waiting cpu) : msg ∈ c.waiting cpu ∨ c.Addressed cpu msg := by
  induction h with
  | refl => exact .inl hm
  | tail hw w ih =>
    rcases w.arrives hm with old | new
    · exact ih old
    · exact .inr (new.same (Changes.same hw).symm)

/-- A demand that is met is followed by offers only. -/
theorem Does.offers (h : Does c c' (some d.deed)) : MessageBus.Grew (·.demands = false) c.bus c'.bus := by
  generalize e : d.deed = a at h
  cases h with
  | handled l s deed h =>
    exact h.frame.posted.imp fun msg ha => by rw [Message.demands_of_event ha.request]; rfl
  | forwarded g l v h => cases d <;> cases e
  | restated a n has credited guest eq =>
    rw [← e] at guest
    cases d <;> exact guest.elim

end Core

namespace Machine

variable {m m' : Machine} {cpu i : Nat} {c c' : Core} {msg : Message} {ds : List Deed}

/-- Every message waits for a core of the VM that it is about, as another vCPU of that VM put it. -/
def Directed (m : Machine) : Prop :=
  ∀ cpu, ∀ msg ∈ m.waiting cpu, ∃ (i : Nat) (vm : Vm), m.vms[i]? = some vm ∧ cpu ∈ vm.partition.cpus ∧ msg.Sent vm ∧
    ∃ me, me < vm.vcpuCount ∧ msg.Told vm me

theorem Directed.core (h : m.Directed) (hs : m.Sound) (hm : msg ∈ m.waiting cpu) :
    ∃ i c, m.core? cpu = some (i, c) ∧ msg.Sent c.vm := by
  obtain ⟨i, vm, hvm, hcpu, sent, -⟩ := h cpu msg hm
  obtain ⟨v, hv⟩ := List.mem_iff_getElem?.1 hcpu
  exact ⟨i, _, hs.core_of_pcpuOf? hvm hv, sent⟩

/-- A message that waits for a core was told by a vCPU of its VM. -/
theorem Directed.told (h : m.Directed) (hs : m.Sound) (hc : m.core? cpu = some (i, c)) (hm : msg ∈ m.waiting cpu) :
    ∃ me, me < c.vm.vcpuCount ∧ msg.Told c.vm me := by
  obtain ⟨j, vm, hvm, hcpu, -, told⟩ := h cpu msg hm
  obtain ⟨v, hv⟩ := List.mem_iff_getElem?.1 hcpu
  obtain ⟨-, rfl⟩ := Prod.mk.inj (Option.some.inj (hc.symm.trans (hs.core_of_pcpuOf? hvm hv)))
  exact told

theorem Directed.move (h : m.Directed) (hs : m.Sound) (hc : m.core? cpu = some (i, c)) (hmv : c.Move ds c') :
    (m.putCore i c').Directed := by
  have station := (hs.core hc).station
  have changes := hmv.changes station
  have hp := changes.same.partition
  have told {msg : Message} {vm : Vm} (hv : vm.partition = c.vm.partition) (h : ∃ me, me < c.vm.vcpuCount ∧ msg.Told c.vm me) :
      ∃ me, me < vm.vcpuCount ∧ msg.Told vm me := by
    obtain ⟨me, member, told⟩ := h
    exact ⟨me, by rwa [Vm.vcpuCount_congr hv], told.congr hv⟩
  intro k msg hm
  rcases changes.arrives (show msg ∈ c'.waiting k from hm) with old | new
  · rw [waiting_core hc] at old
    obtain ⟨j, vm, hvm, hk, sent, before⟩ := h k msg old
    by_cases hj : j = i
    · subst hj
      obtain rfl := Option.some.inj ((vm_of_core? hc).symm.trans hvm)
      exact ⟨j, c'.vm, vms_putCore_self hc c', by rw [hp]; exact hk, sent.congr hp, told hp before⟩
    · exact ⟨j, vm, (vms_putCore _ _ _ _ (Ne.symm hj)).trans hvm, hk, sent, before⟩
  · exact ⟨i, c'.vm, vms_putCore_self hc c', by rw [hp]; exact new.member, new.sent.congr hp,
      told hp ⟨c.vcpu, station.vcpu_lt, new.told⟩⟩

/-- **No message ever waits where nobody handles it.** -/
theorem Arises.directed (h : m.Arises) : m.Directed :=
  h.induct (fun m _ _ _ _ hb k msg hm => by rw [(booted_of_boot hb).quiet k] at hm; cases hm)
    fun _ _ _ _ _ _ hm hd hc hmv => hd.move hm.sound hc hmv

/-! ## Counting messages -/

variable {n target : Nat} {waits more : Nat → List Message} {p : Nat → Message → Bool}

/-- How many of the messages that wait for the CPUs below `n` have a property. -/
def load (n : Nat) (waits : Nat → List Message) (p : Nat → Message → Bool) : Nat :=
  ∑ cpu ∈ Finset.range n, (waits cpu).countP (p cpu)

theorem load_append (n : Nat) (waits more : Nat → List Message) (p : Nat → Message → Bool) :
    load n (fun cpu => waits cpu ++ more cpu) p = load n waits p + load n more p := by
  simp only [load, List.countP_append, Finset.sum_add_distrib]

theorem load_single (h : target < n) (msg : Message) (p : Nat → Message → Bool) :
    load n (fun cpu => if target = cpu then [msg] else []) p = if p target msg = true then 1 else 0 := by
  have single : ∀ cpu, (if target = cpu then [msg] else []).countP (p cpu) =
      if target = cpu then if p target msg = true then 1 else 0 else 0 := fun cpu => by
    by_cases hc : target = cpu
    · rw [if_pos hc, if_pos hc, List.countP_singleton, hc]
    · rw [if_neg hc, if_neg hc, List.countP_nil]
  unfold load
  rw [Finset.sum_congr rfl fun cpu _ => single cpu, Finset.sum_ite_eq, if_pos (Finset.mem_range.2 h)]

theorem load_eq_zero (h : ∀ cpu, ∀ msg ∈ waits cpu, p cpu msg = false) : load n waits p = 0 :=
  Finset.sum_eq_zero fun cpu _ => List.countP_eq_zero.2 fun msg hm => by rw [h cpu msg hm]; exact Bool.false_ne_true

/-- What the waiting messages still come to: first the demands among them, then the other messages, then the demands that
have a property. -/
def burdenOf (n : Nat) (waits : Nat → List Message) (p : Nat → Message → Bool) : ℕ ×ₗ ℕ ×ₗ ℕ :=
  toLex (load n waits fun _ msg => msg.demands, toLex (load n waits fun _ msg => !msg.demands, load n waits p))

/-- A CPU takes a message that makes no demand. -/
theorem burdenOf_silent (h : cpu < n) (demands : msg.demands = false) (q : Nat → Message → Bool) :
    burdenOf n waits q < burdenOf n (fun k => (if cpu = k then [msg] else []) ++ waits k) p := by
  simp only [burdenOf, Prod.Lex.toLex_lt_toLex, load_append, load_single h, demands, Bool.not_false, if_true,
    Bool.false_eq_true, if_false]
  omega

/-- A CPU takes a demand, and none is posted. -/
theorem burdenOf_met (h : cpu < n) (demands : msg.demands = true) (offers : ∀ k, ∀ msg ∈ more k, msg.demands = false)
    (q : Nat → Message → Bool) : burdenOf n (fun k => waits k ++ more k) q <
      burdenOf n (fun k => (if cpu = k then [msg] else []) ++ waits k) p := by
  simp only [burdenOf, Prod.Lex.toLex_lt_toLex, load_append, load_single h, load_eq_zero offers, demands, if_true]
  omega

/-- A CPU takes a demand with the property, and posts one without. -/
theorem burdenOf_passed {next : Message} (h : cpu < n) (ht : target < n) (demands : msg.demands = true)
    (demands' : next.demands = true) (has : p cpu msg = true) (hasNot : p target next = false) :
    burdenOf n (fun k => waits k ++ if target = k then [next] else []) p <
      burdenOf n (fun k => (if cpu = k then [msg] else []) ++ waits k) p := by
  simp only [burdenOf, Prod.Lex.toLex_lt_toLex, load_append, load_single h, load_single ht, demands, demands', has, hasNot,
    Bool.not_true, if_true, Bool.false_eq_true, if_false]
  omega

/-! ## Handling -/

/-- A message makes a demand that the core of this CPU can only pass on. -/
def astray (m : Machine) (cpu : Nat) (msg : Message) : Bool :=
  match m.assignments.get cpu with
  | none => false
  | some a =>
    match m.vms[a.vm]? with
    | none => false
    | some vm => (vm.demand? a.vcpu msg).any fun d => !(vm.interrupt d.line).availableTo a.vcpu

def burden (m : Machine) : ℕ ×ₗ ℕ ×ₗ ℕ := burdenOf m.bus.cpus m.waiting m.astray

theorem astray_of_demand {vm : Vm} {v : Nat} {d : Demand} (ha : m.assignments.get cpu = some ⟨i, v⟩)
    (hvm : m.vms[i]? = some vm) (hd : vm.demand? v msg = some d) :
    m.astray cpu msg = !(vm.interrupt d.line).availableTo v := by
  unfold astray
  simp only [ha, hvm, hd, Option.any_some]

theorem astray_putCore (h : m.Sound) (hc : m.core? cpu = some (i, c)) (hvm : c'.vm = c.vm) :
    (m.putCore i c').astray = m.astray := by
  have vms : (m.putCore i c').vms = m.vms := by
    have put := congrArg Machine.vms (h.putCore_self hc)
    simp only [putCore] at put ⊢
    rw [hvm, put]
  funext k msg
  unfold astray
  rw [vms]
  rfl

/-- A core that passes a demand on could not meet it, and the core that it goes to can. -/
theorem astray_passed {d : Demand} (h : m.Sound) (hc : m.core? cpu = some (i, c)) (demand : c.vm.demand? c.vcpu msg = some d)
    (may : c.mayClaim d.line = false) {w target : Nat} {next : Message} (owner : (c.interrupt d.line).owner = some w)
    (hw : c.vm.pcpuOf? w = some target) (demand' : c.vm.demand? w next = some d.carried) :
    m.astray cpu msg = true ∧ m.astray target next = false := by
  rw [astray_of_demand (assignment_of_core? hc) (vm_of_core? hc) demand,
    astray_of_demand (h.assigned (vm_of_core? hc) w target hw) (vm_of_core? hc) demand', Demand.line_carried]
  refine ⟨by rw [show (c.vm.interrupt d.line).availableTo c.vcpu = false from may]; rfl, ?_⟩
  rw [Interrupt.availableTo, show (c.vm.interrupt d.line).owner = some w from owner, beq_self_eq_true, Bool.or_true]
  rfl

/-- A core answers each message that waits for it. -/
theorem Arises.answers {bus : MessageBus} (hm : m.Arises) (hc : m.core? cpu = some (i, c)) (ht : c.bus.take cpu = some (msg, bus)) :
    ({ c with bus := bus } : Core).Answers msg (({ c with bus := bus } : Core).handle msg) := by
  have hcpu := cpu_of_core? hc
  have waits : msg ∈ m.waiting cpu := by
    rw [← waiting_core hc]
    unfold Core.waiting
    rw [MessageBus.waiting_inbox_take ht cpu, if_pos rfl]
    exact List.mem_cons_self
  obtain ⟨j, d, hd, sent⟩ := hm.directed.core hm.sound waits
  obtain ⟨-, rfl⟩ := Prod.mk.inj (Option.some.inj (hc.symm.trans hd))
  rw [← hcpu] at ht
  exact Core.answers_handle (c := { c with bus := bus }) ((hm.sound.core hc).alike (Core.alike_take ht)) sent

/-- **With every message that is handled the burden falls**: a demand is met, a message without one is gone, or a demand
that was astray arrives at the owner's core. -/
theorem Arises.burden_lt (hm : m.Arises) (h : m.handleNext? cpu = some m') : m'.burden < m.burden := by
  obtain ⟨i, c, msg, bus, hc, ht, hmv, rfl⟩ := handleNext?_cases h
  have hcpu := cpu_of_core? hc
  have hlt : cpu < m.bus.cpus := by
    rw [← hm.sound.interfaces]
    exact hm.sound.cpu_lt hc
  have answers := hm.answers hc (by rw [← hcpu]; exact ht)
  have cpus := (hmv.local_ (hm.sound.core hc)).cpus
  have before : m.waiting = fun k => (if cpu = k then [msg] else []) ++ (bus.inbox k).waiting := by
    rw [← waiting_core hc, ← hcpu]
    exact funext (MessageBus.waiting_inbox_take ht)
  generalize ({ c with bus := bus } : Core).handle msg = c' at answers cpus
  have cpus : (m.putCore i c').bus.cpus = m.bus.cpus := by rw [← bus_of_core? hc]; exact cpus
  unfold burden
  rw [cpus, before]
  cases answers with
  | silent demands same =>
    have after : (m.putCore i c').waiting = fun k => (bus.inbox k).waiting := congrArg (fun b k => (b.inbox k).waiting) same
    rw [after]
    exact burdenOf_silent hlt demands _
  | met d demands demand may does =>
    choose more after offers using does.offers.more
    have after : (m.putCore i c').waiting = fun k => (bus.inbox k).waiting ++ more k := funext after
    rw [after]
    exact burdenOf_met hlt demands offers _
  | passed d demands demand may passes =>
    obtain ⟨w, target, next, owner, -, hw, demands', demand', after⟩ := passes.message
    have after : (m.putCore i c').waiting = fun k => (bus.inbox k).waiting ++ if target = k then [next] else [] :=
      funext after
    obtain ⟨has, hasNot⟩ := astray_passed hm.sound hc demand may owner hw demand'
    rw [after, astray_putCore hm.sound hc passes.vm]
    exact burdenOf_passed hlt (hm.sound.reaches (vm_of_core? hc) w target hw) demands demands' has hasNot

/-! ## The end -/

/-- How the cores of a machine deal with their messages. -/
structure Settles (m : Machine) : Prop where
  /-- No action posts to its own core. -/
  act : ∀ cpu a, a ≠ .poll → (m.step ⟨cpu, a⟩).waiting cpu = m.waiting cpu
  /-- Nor does the handling of a message. -/
  handle : ∀ cpu i c msg bus, m.core? cpu = some (i, c) → c.bus.take cpu = some (msg, bus) →
    (m.putCore i (({ c with bus := bus } : Core).handle msg)).waiting cpu = (bus.inbox cpu).waiting
  /-- A poll handles the messages that wait when it starts, and leaves none. -/
  poll : ∀ cpu i c, m.core? cpu = some (i, c) →
    c.Handles (m.waiting cpu) c.poll.2 ∧ c.poll.1 = (m.waiting cpu).length ∧ (m.step ⟨cpu, .poll⟩).waiting cpu = []
  /-- A demand is met, or passed on in one message to the core of the owner; other messages are followed by none. -/
  answers : ∀ cpu i c msg bus, m.core? cpu = some (i, c) → c.bus.take cpu = some (msg, bus) →
    ({ c with bus := bus } : Core).Answers msg (({ c with bus := bus } : Core).handle msg)
  /-- The cores do not go on handling messages forever, whichever they handle first. -/
  finite : ∀ f : ℕ → Machine, f 0 = m → ¬ ∀ n, ∃ cpu, (f n).handleNext? cpu = some (f (n + 1))
  /-- Once none of them can, no message waits. -/
  quiet : ∀ m', Relation.ReflTransGen (fun m m' => ∃ cpu, m.handleNext? cpu = some m') m m' →
    (∀ cpu, m'.handleNext? cpu = none) → m'.Quiet

theorem Arises.handled (hm : m.Arises) (h : Relation.ReflTransGen (fun m m' => ∃ cpu, m.handleNext? cpu = some m') m m') :
    m'.Arises := by
  induction h with
  | refl => exact hm
  | tail _ h ih =>
    obtain ⟨cpu, h⟩ := h
    exact ih.handle cpu h

/-- **Where a message waits, one can be handled.** -/
theorem Arises.quiet_of_stuck (hm : m.Arises) (stuck : ∀ cpu, m.handleNext? cpu = none) : m.Quiet := by
  intro cpu
  refine List.eq_nil_iff_forall_not_mem.2 fun msg hmsg => ?_
  obtain ⟨i, c, hc, -⟩ := hm.directed.core hm.sound hmsg
  have waits : (m.bus.inbox cpu).waiting ≠ [] := List.ne_nil_of_mem hmsg
  obtain ⟨first, bus, ht⟩ := hm.bus_sound.exists_take waits
  rw [← bus_of_core? hc, ← cpu_of_core? hc] at ht
  have next : m.handleNext? cpu = some (m.putCore i (({ c with bus := bus } : Core).handle first)) := by
    simp only [handleNext?, hc, Option.bind_some, (c.handleNext?_eq_some_iff _).2 ⟨first, bus, ht, rfl⟩, Option.map_some]
  rw [stuck cpu] at next
  cases next

theorem Arises.not_forever (hm : m.Arises) (f : ℕ → Machine) (start : f 0 = m) :
    ¬ ∀ n, ∃ cpu, (f n).handleNext? cpu = some (f (n + 1)) := by
  intro forever
  -- the run that begins one message later has less of a burden
  induction hb : m.burden using (inferInstance : WellFoundedLT (ℕ ×ₗ ℕ ×ₗ ℕ)).wf.induction generalizing m f with
  | h b ih =>
    obtain ⟨cpu, h⟩ := forever 0
    rw [start] at h
    exact ih _ (hb ▸ hm.burden_lt h) (.handle cpu hm h) (fun n => f (n + 1)) rfl (fun n => forever (n + 1)) rfl

/-- **The cores of a machine come to an end with their messages**, at any time: no core posts to itself, so a poll handles
just what waits for it; a demand is met or goes to the core of the owner in one message, and nothing else is passed on; and
in whatever order single messages are handled, after finitely many of them none waits. -/
theorem Arises.settles (hm : m.Arises) : m.Settles where
  act := fun cpu a ha => by
    cases hc : m.core? cpu with
    | none => rw [step_of_idle hc]
    | some ic =>
      obtain ⟨i, c⟩ := ic
      have own := Core.own_act (hm.sound.core hc).station ha
      rw [waiting_core hc, cpu_of_core? hc] at own
      rw [step_of_core? hc]
      exact own
  handle := fun cpu i c msg bus hc ht => by
    rw [← cpu_of_core? hc] at ht ⊢
    exact Core.own_handle (c := { c with bus := bus }) ((hm.sound.core hc).station.same (Core.alike_take ht).toSame) msg
  poll := fun cpu i c hc => by
    obtain ⟨handles, count, none⟩ := Core.handles_poll (hm.sound.core hc) (by rw [bus_of_core? hc]; exact hm.bus_sound)
    rw [waiting_core hc, cpu_of_core? hc] at handles count
    rw [cpu_of_core? hc] at none
    rw [step_of_core? hc]
    exact ⟨handles, count, none⟩
  answers := fun _ _ _ _ _ hc ht => hm.answers hc ht
  finite := hm.not_forever
  quiet := fun _ h stuck => (hm.handled h).quiet_of_stuck stuck

/-- A field write waits for the second CPU, whose vCPU owns the interrupt. -/
def owed : Machine := engaged.run [⟨0, store (distributorBase + 0x420) 1 0x10⟩]

theorem reachable_owed : owed.Reachable := reachable_engaged.run _

theorem settles_owed : (owed.waiting 1).length = 1 ∧ (owed.step ⟨1, .poll⟩).waiting 1 = [] := by
  have arises := reachable_owed.arises
  have first : owed.vms[0]? = some owed.firstVm := vms_zero (by decide +kernel)
  have hc := arises.sound.core_of_pcpuOf? first (show owed.firstVm.pcpuOf? 1 = some 1 by decide +kernel)
  exact ⟨by decide +kernel, (arises.settles.poll 1 0 _ hc).2.2⟩

end Machine
end VirtualGic
