import VirtualGic.Proofs.Isolation
import VirtualGic.Proofs.Relay
import VirtualGic.Proofs.Service
/-!
# Errands

A field write that is asked for is carried out by a core that may, or sent on to one that will.  `Machine.Errands`
follows the writes that a core has asked for while the VM's cores handle their messages: each is done, or still to be
done by this core, or on its way in a message, and the VM's other interrupts stay what they are.  So once no message waits
all of them are done (`Errands.done`).
-/
namespace VirtualGic

/-! ## Writes in messages -/

theorem RegisterGroup.apply_apply (g : RegisterGroup) (vm : Vm) (l : Line) (v : BitVec 64) (s : Interrupt) :
    g.apply vm l v (g.apply vm l v s) = g.apply vm l v s := by
  cases g <;> simp only [apply] <;> (try split) <;> simp [BitVec.or_assoc, BitVec.and_assoc]
  -- where the interrupt is delivered follows from its targets or its route
  case targets | route => exact Vm.delivery_eq rfl rfl

namespace FieldWrite

def edit (vm : Vm) (w : FieldWrite) : Interrupt → Interrupt := w.group.apply vm w.line w.value

/-- A write that does the same after a message has carried it. -/
def Carried (vm : Vm) (w : FieldWrite) : Prop :=
  ∀ s, w.group.apply vm w.line ((w.value.setWidth 32).setWidth 64) s = w.edit vm s

end FieldWrite

theorem RegisterGroup.vcpusIn_narrow (vm : Vm) (v : BitVec 64) :
    vcpusIn vm ((v.setWidth 32).setWidth 64) = vcpusIn vm v := by
  simp only [vcpusIn, BitVec.setWidth_and, setWidth_narrow v (by decide : 8 ≤ 32)]

namespace FieldWrite

variable (vm : Vm) (l : Line)

theorem carried_route (v : BitVec 64) : Carried vm ⟨.route, l, v⟩ := fun s => by
  simp only [edit, RegisterGroup.apply, routeMask_narrow]

/-- A requester that is no vCPU of the VM is dropped, with or without a message. -/
theorem carried_requester (requester : Nat) : Carried vm ⟨.setRequesters, l, CpuSet.single requester⟩ := fun s => by
  simp only [edit, RegisterGroup.apply, RegisterGroup.vcpusIn_narrow]

theorem carried_pending : Carried vm ⟨.setPending, l, 1⟩ := fun s => by
  rw [edit, show ((1 : BitVec 64).setWidth 32).setWidth 64 = 1 by decide]

end FieldWrite

/-- The write that raises a software interrupt at the request of a vCPU. -/
def Vm.raisal (vm : Vm) (l : Line) (requester : Nat) : FieldWrite :=
  if vm.countsRequesters l then ⟨.setRequesters, l, CpuSet.single requester⟩ else ⟨.setPending, l, 1⟩

theorem Vm.line_raisal (vm : Vm) (l : Line) (requester : Nat) : (vm.raisal l requester).line = l := by
  unfold raisal
  split <;> rfl

/-- A message asks the core of a vCPU for a field write. -/
inductive Message.Asks (msg : Message) (vm : Vm) (v : Nat) (w : FieldWrite) : Prop
  | write (h : msg.Writes vm w.group w.line w.value)
  | inject (event : msg.event = Request.inject.code) (here : (Payload.ofWord msg.data).vm.toNat = vm.id)
    (software : isSoftwareId (Payload.ofWord msg.data).intid.toNat = true)
    (line : vm.find? v (Payload.ofWord msg.data).intid.toNat = some w.line)
    (raisal : w = vm.raisal w.line (Payload.ofWord msg.data).value.toNat)

namespace Message.Asks

variable {msg : Message} {vm : Vm} {v : Nat} {w u : FieldWrite}

theorem not_route {l : Line} (h : msg.Asks vm v w) : ¬ msg.About .route vm l := by
  intro ha
  have e := ha.request
  cases h with
  | write h => rw [h.about.request] at e; cases e
  | inject event => rw [event] at e; cases e

theorem congr {vm' : Vm} (h : msg.Asks vm v w) (hp : vm'.partition = vm.partition) : msg.Asks vm' v w := by
  cases h with
  | write h => exact .write (h.congr hp)
  | inject event here software line raisal =>
    refine .inject event ?_ software (by rw [Vm.find?_congr hp]; exact line) ?_
    · unfold Vm.id
      rw [hp]
      exact here
    · rw [Vm.raisal, Vm.countsRequesters_congr hp]
      exact raisal

/-- A message asks for a write to one interrupt only. -/
theorem line_eq (h : msg.Asks vm v w) (h' : msg.Asks vm v u) (hw : vm.Has w.line) (hu : vm.Has u.line) :
    w.line = u.line := by
  cases h with
  | write h =>
    cases h' with
    | write h' => exact Option.some.inj ((h.about.find? hw).symm.trans (h'.about.find? hu))
    | inject event => rw [h.about.request] at event; cases event
  | inject event here software line raisal =>
    cases h' with
    | write h' => rw [h'.about.request] at event; cases event
    | inject _ _ _ line' => exact Option.some.inj (line.symm.trans line')

end Message.Asks

namespace Core

variable {c : Core} {msg : Message} {l : Line} {w : FieldWrite} {id : Nat}

theorem raise_eq {l : Line} (hf : c.find? id = some l) (requester : Nat) :
    c.raise id requester = c.writeField (c.vm.raisal l requester).group l (c.vm.raisal l requester).value := by
  unfold raise Vm.raisal
  rw [hf]
  simp only
  split <;> rfl

theorem handle_of_asks (h : msg.Asks c.vm c.vcpu w) (hw : c.vm.Has w.line) :
    c.handle msg = c.writeField w.group w.line w.value ∨
      c.handle msg = c.writeField w.group w.line ((w.value.setWidth 32).setWidth 64) := by
  cases h with
  | write h =>
    refine .inr ?_
    simp only [handle, h.about.vm, beq_self_eq_true, if_true,
      (Request.ofCode?_eq_some_iff ..).2 h.about.request.symm, handleRequest, h.group, RegisterGroup.ofCode?_code,
      h.about.find? hw, h.value]
  | inject event here software line raisal =>
    refine .inl ?_
    have hr := raise_eq line (Payload.ofWord msg.data).value.toNat
    rw [← raisal] at hr
    simp only [handle, here, beq_self_eq_true, if_true, (Request.ofCode?_eq_some_iff ..).2 event.symm, handleRequest,
      software]
    exact hr

end Core

namespace Machine

variable {m m' m'' : Machine} {cpu i j : Nat} {c c' : Core} {vm vm' vm'' : Vm} {l : Line} {d : Option Deed} {ds : List Deed}

/-! ## What an interrupt is, kept -/

/-- The guest has completed the interrupt in its list register, which asks for maintenance. -/
def lapsed (m : Machine) (vm : Vm) (l : Line) : Bool := (m.held? vm l).any (·.isCompleted)

/-- What an interrupt is stays the same, wherever it is. -/
structure Leaves (m : Machine) (vm : Vm) (m' : Machine) (vm' : Vm) (l : Line) : Prop where
  standing : (m.standing vm l).Agrees True (m'.standing vm' l)
  lapsed : m'.lapsed vm' l = m.lapsed vm l

theorem Leaves.refl (m : Machine) (vm : Vm) (l : Line) : Leaves m vm m vm l := ⟨.refl _ _, rfl⟩

theorem Leaves.trans (h : Leaves m vm m' vm' l) (h' : Leaves m' vm' m'' vm'' l) : Leaves m vm m'' vm'' l :=
  ⟨h.standing.trans h'.standing, h'.lapsed.trans h.lapsed⟩

theorem leaves_of_held? (hp : vm'.partition = vm.partition) (record : vm'.interrupt l = vm.interrupt l)
    (held : m'.held? vm' l = m.held? vm l) : Leaves m vm m' vm' l :=
  ⟨by rw [standing_congr hp record held]; exact .refl _ _, congrArg (Option.any _) held⟩

/-- What a core leaves as it is stays as it is for all. -/
theorem leaves_putCore (h : m.Sound) (h' : (m.putCore i c').Sound) (hc : m.core? cpu = some (i, c))
    (hloc : Core.Local c c') (hl : c.vm.Has l) (leaves : c.mayClaim l = true → Core.Leaves c c' l) :
    Leaves m c.vm (m.putCore i c') c'.vm l := by
  rcases held?_cases h h' hc hloc hl with ⟨may, held, held'⟩ | ⟨-, record, held⟩
  · refine ⟨?_, ?_⟩
    · rw [standing_eq_recalled held, standing_eq_recalled held']
      exact (leaves may).recalled
    · rw [lapsed, lapsed, held, held']
      exact (leaves may).lapsed
  · exact leaves_of_held? hloc.partition record held

theorem Sound.does (h : m.Sound) (hc : m.core? cpu = some (i, c)) (hd : Core.Does c c' d) : (m.putCore i c').Sound :=
  h.putCore hc (hd.sound (h.core hc)) hd.local_ fun _ hl => hd.atRest (h.core hc) (h.rest (vm_of_core? hc)) hl

/-- **An interrupt that a core serves changes by the deed only.** -/
theorem standing_serves (h : m.Sound) (ht : m.Tallied) (hc : m.core? cpu = some (i, c)) (hs : Core.Serves c c' l d)
    (hl : c.vm.Has l) :
    (Deed.edits c.vm d.toList l (m.standing c.vm l)).Agrees ((c.vm.interrupt l).hardware = false)
      ((m.putCore i c').standing c'.vm l) ∧
    (c.vm.countsRequesters l = true → (m.putCore i c').lapsed c'.vm l = true → d = none ∧ m.lapsed c.vm l = true) := by
  rcases held?_cases h (h.does hc hs.does) hc hs.does.local_ hl with ⟨may, held, held'⟩ | ⟨may, record, held⟩
  · rw [standing_eq_recalled held, standing_eq_recalled held', lapsed, lapsed, held, held']
    exact ⟨hs.does.agrees (h.core hc) hl (fun a ha => (hs.tallies a ha).1) (fun a ha _ => (hs.tallies a ha).2)
      (ht.core h hc l hl may), hs.lapsed⟩
  · -- without a claim there is no deed
    obtain rfl : d = none := Option.eq_none_iff_forall_not_mem.2 fun a ha => by
      rw [hs.may a ha] at may
      cases may
    have leaves := leaves_of_held? (m := m) hs.does.same.partition record held
    exact ⟨leaves.standing.imp fun _ => trivial, fun _ after => ⟨rfl, by rw [← leaves.lapsed]; exact after⟩⟩

/-! ## Errands -/

/-- Writes to different interrupts of a VM, each of which a message can carry. -/
structure Sendable (vm : Vm) (ws : List FieldWrite) : Prop where
  has : ∀ w ∈ ws, vm.Has w.line
  unique : ∀ w ∈ ws, ∀ u ∈ ws, w.line = u.line → w = u
  carried : ∀ w ∈ ws, w.Carried vm

/-- A message that asks for the write waits for one of the VM's cores. -/
def Waits (m : Machine) (vm : Vm) (w : FieldWrite) : Prop :=
  ∃ v cpu msg, vm.pcpuOf? v = some cpu ∧ msg ∈ m.waiting cpu ∧ msg.Asks vm v w

/-- The write was carried out on what the interrupt was at the start, and leaves no completed list register behind. -/
structure Done (m₀ : Machine) (vm₀ : Vm) (m : Machine) (vm : Vm) (w : FieldWrite) : Prop where
  standing : (w.edit vm₀ (m₀.standing vm₀ w.line)).Agrees ((vm₀.interrupt w.line).hardware = false) (m.standing vm w.line)
  unlapsed : vm₀.countsRequesters w.line = true → m.lapsed vm w.line = false

/-- Nothing was done to the interrupt yet. -/
def Due (m₀ : Machine) (vm₀ : Vm) (m : Machine) (vm : Vm) (w : FieldWrite) : Prop :=
  (m₀.standing vm₀ w.line).Agrees ((vm₀.interrupt w.line).hardware = false) (m.standing vm w.line)

/-- Each write is done, or a core is about to carry it out or send it on, or it is on its way. -/
def Pursued (m₀ : Machine) (vm₀ : Vm) (todo : List FieldWrite) (m : Machine) (vm : Vm) (w : FieldWrite) : Prop :=
  Done m₀ vm₀ m vm w ∨ Due m₀ vm₀ m vm w ∧ (w ∈ todo ∨ m.Waits vm₀ w)

/-- How far the cores of a VM have come with some writes. -/
structure Errands (m₀ : Machine) (vm₀ : Vm) (ws todo : List FieldWrite) (m : Machine) (vm : Vm) : Prop where
  partition : vm.partition = vm₀.partition
  /-- Whatever waits for the VM's cores is about one of the writes. -/
  concerned : ∀ v cpu, vm₀.pcpuOf? v = some cpu → ∀ msg ∈ m.waiting cpu, ∃ w ∈ ws,
    msg.About .route vm₀ w.line ∨ msg.Asks vm₀ v w
  others : ∀ l, vm₀.Has l → (∀ w ∈ ws, w.line ≠ l) → m₀.Leaves vm₀ m vm l
  each : ∀ w ∈ ws, Pursued m₀ vm₀ todo m vm w

variable {m₀ : Machine} {vm₀ : Vm} {ws todo todo' : List FieldWrite} {w u : FieldWrite} {msg : Message} {bus : MessageBus}

theorem Done.leaves (h : Done m₀ vm₀ m vm w) (leaves : m.Leaves vm m' vm' w.line) : Done m₀ vm₀ m' vm' w :=
  ⟨h.standing.trans (leaves.standing.imp fun _ => trivial), fun counts => leaves.lapsed.trans (h.unlapsed counts)⟩

theorem Due.leaves (h : Due m₀ vm₀ m vm w) (leaves : m.Leaves vm m' vm' w.line) : Due m₀ vm₀ m' vm' w :=
  Interrupt.Agrees.trans h (leaves.standing.imp fun _ => trivial)

theorem Pursued.leaves (h : Pursued m₀ vm₀ todo m vm w) (leaves : m.Leaves vm m' vm' w.line)
    (waits : w ∈ todo ∨ m.Waits vm₀ w → w ∈ todo' ∨ m'.Waits vm₀ w) : Pursued m₀ vm₀ todo' m' vm' w :=
  h.imp (·.leaves leaves) fun ⟨due, hw⟩ => ⟨due.leaves leaves, waits hw⟩

/-- Before anything is done all writes are to do. -/
theorem errands_start (quiet : m.Quiet) (vm : Vm) (ws : List FieldWrite) : Errands m vm ws ws m vm where
  partition := rfl
  concerned := fun v cpu _ msg hm => by
    rw [quiet cpu] at hm
    cases hm
  others := fun l _ _ => .refl ..
  each := fun w hw => .inr ⟨.refl _ _, .inl hw⟩

/-- One step about one write: the other interrupts are left as they are, and the messages about them. -/
theorem Errands.step (E : Errands m₀ vm₀ ws todo m vm) (W : Sendable vm₀ ws) (hp : vm'.partition = vm.partition)
    (concerned : ∀ v cpu, vm₀.pcpuOf? v = some cpu → ∀ msg ∈ m'.waiting cpu, ∃ w ∈ ws,
      msg.About .route vm₀ w.line ∨ msg.Asks vm₀ v w)
    (hw : w ∈ ws) (leaves : ∀ l, vm₀.Has l → l ≠ w.line → m.Leaves vm m' vm' l)
    (waits : ∀ u ∈ ws, u ≠ w → u ∈ todo ∨ m.Waits vm₀ u → u ∈ todo' ∨ m'.Waits vm₀ u)
    (own : Pursued m₀ vm₀ todo m vm w → Pursued m₀ vm₀ todo' m' vm' w) : Errands m₀ vm₀ ws todo' m' vm' where
  partition := hp.trans E.partition
  concerned := concerned
  others := fun l hl hne => (E.others l hl hne).trans (leaves l hl fun e => hne w hw e.symm)
  each := fun u hu => by
    by_cases e : u = w
    · subst e
      exact own (E.each u hu)
    · exact (E.each u hu).leaves (leaves _ (W.has u hu) fun he => e (W.unique u hu w hw he)) (waits u hu e)

/-- What waits after a core has posted is what waited before and what it posted. -/
theorem concerned_of_grew {p : Message → Prop} (E : Errands m₀ vm₀ ws todo m c.vm) (hc : m.core? cpu = some (i, c))
    (grew : MessageBus.Grew p c.bus c'.bus) (new : ∀ v k, vm₀.pcpuOf? v = some k → ∀ msg ∈ c'.waiting k, p msg →
      ∃ w ∈ ws, msg.About .route vm₀ w.line ∨ msg.Asks vm₀ v w) :
    ∀ v k, vm₀.pcpuOf? v = some k → ∀ msg ∈ (m.putCore i c').waiting k, ∃ w ∈ ws,
      msg.About .route vm₀ w.line ∨ msg.Asks vm₀ v w := by
  intro v k hk msg hmsg
  obtain ⟨more, e, hmore⟩ := grew.more k
  have hmsg : msg ∈ (c'.bus.inbox k).waiting := hmsg
  have old := E.concerned v k hk msg
  rw [show m.waiting k = (c.bus.inbox k).waiting from congrFun (waiting_core hc).symm k] at old
  rcases List.mem_append.1 (e ▸ hmsg) with h | h
  · exact old h
  · exact new v k hk msg hmsg (hmore msg h)

theorem Waits.grew {p : Message → Prop} (h : m.Waits vm₀ w) (hc : m.core? cpu = some (i, c))
    (grew : MessageBus.Grew p c.bus c'.bus) : (m.putCore i c').Waits vm₀ w := by
  obtain ⟨v, k, msg, hk, hmsg, asks⟩ := h
  refine ⟨v, k, msg, hk, grew.mem ?_, asks⟩
  rw [bus_of_core? hc]
  exact hmsg

theorem Errands.hardware (E : Errands m₀ vm₀ ws todo m vm) (hw : w ∈ ws) :
    (vm.interrupt w.line).hardware = (vm₀.interrupt w.line).hardware := by
  rw [← (sameSettings_standing m vm w.line).hardware, ← (sameSettings_standing m₀ vm₀ w.line).hardware]
  rcases E.each w hw with done | ⟨due, -⟩
  · exact done.standing.hardware.trans (w.group.apply_keeps ..).2.2.2
  · exact due.hardware

/-- **A core serves the interrupt of a write**, and carries the write out or leaves it. -/
theorem Errands.serve (E : Errands m₀ vm₀ ws todo m c.vm) (W : Sendable vm₀ ws) (h : m.Sound) (ht : m.Tallied)
    (hc : m.core? cpu = some (i, c)) (hw : w ∈ ws) (hs : Core.Serves c c' w.line d)
    (deed : ∀ a ∈ d, a.edit c.vm = w.edit vm₀) (rest : ∀ u ∈ todo, u ∈ todo' ∨ u = w ∧ d.isSome = true) :
    Errands m₀ vm₀ ws todo' (m.putCore i c') c'.vm := by
  have has : ∀ {l}, vm₀.Has l → c.vm.Has l := fun hl => (Vm.has_congr E.partition _).2 hl
  have hloc := hs.does.local_
  refine E.step W hloc.partition (concerned_of_grew E hc hs.posted fun v k hk msg _ ha =>
      ⟨w, hw, .inl (ha.congr E.partition.symm)⟩) hw
    (fun l hl hne => leaves_putCore h (h.does hc hs.does) hc hloc (has hl) (hs.others l (has hl) hne)) (fun u hu hne hor => ?_)
    fun hor => ?_
  · rcases hor with hm | hm
    · exact .inl ((rest u hm).resolve_right fun ⟨e, _⟩ => hne e)
    · exact .inr (hm.grew hc hs.posted)
  · obtain ⟨stands, lapses⟩ := standing_serves h ht hc hs (has (W.has w hw))
    rw [Vm.countsRequesters_congr E.partition] at lapses
    have stands := stands.imp fun soft => (E.hardware hw).trans soft
    cases d with
    | some a =>
      have edits : Deed.edits c.vm (some a).toList w.line (m.standing c.vm w.line) = w.edit vm₀ (m.standing c.vm w.line) :=
        (if_pos (hs.line a rfl)).trans (congrFun (deed a rfl) _)
      rw [edits] at stands
      refine .inl ⟨.trans ?_ stands, fun counts => Bool.eq_false_iff.2 fun after => ?_⟩
      · rcases hor with done | ⟨due, -⟩
        · have twice : (w.edit vm₀ (w.edit vm₀ (m₀.standing vm₀ w.line))).Agrees _ (w.edit vm₀ (m.standing c.vm w.line)) :=
            w.group.agrees_apply w.value done.standing
          rwa [FieldWrite.edit, RegisterGroup.apply_apply] at twice
        · exact w.group.agrees_apply w.value due
      · cases (lapses counts after).1
    | none =>
      refine hor.imp (fun done => ⟨done.standing.trans stands, fun counts => Bool.eq_false_iff.2 fun after => ?_⟩)
        fun ⟨due, hm⟩ => ⟨Interrupt.Agrees.trans due stands, ?_⟩
      · have := (lapses counts after).2
        rw [done.unlapsed counts] at this
        cases this
      · rcases hm with hm | hm
        · exact .inl ((rest w hm).resolve_right fun ⟨_, e⟩ => by cases e)
        · exact .inr (hm.grew hc hs.posted)

/-- **A core sends a write on.** -/
theorem Errands.send (E : Errands m₀ vm₀ ws todo m c.vm) (W : Sendable vm₀ ws) (h : m.Sound) (h' : (m.putCore i c').Sound)
    (hc : m.core? cpu = some (i, c)) (hw : w ∈ ws) (alike : Core.Alike c c') {v k : Nat} (hk : vm₀.pcpuOf? v = some k)
    (asks : msg.Asks vm₀ v w) (sent : ∀ k', c'.waiting k' = c.waiting k' ++ if k = k' then [msg] else [])
    (rest : ∀ u ∈ todo, u ∈ todo' ∨ u = w) : Errands m₀ vm₀ ws todo' (m.putCore i c') c'.vm := by
  have waiting : ∀ k', (m.putCore i c').waiting k' = m.waiting k' ++ if k = k' then [msg] else [] := fun k' => by
    rw [← waiting_core hc]
    exact sent k'
  have kept : ∀ {u}, m.Waits vm₀ u → (m.putCore i c').Waits vm₀ u := fun ⟨v', k', msg', hk', hm, ha⟩ =>
    ⟨v', k', msg', hk', by rw [waiting]; exact List.mem_append_left _ hm, ha⟩
  have leaves : ∀ l, vm₀.Has l → m.Leaves c.vm (m.putCore i c') c'.vm l := fun l hl =>
    leaves_putCore h h' hc alike.local_ ((Vm.has_congr E.partition l).2 hl) fun _ => alike.leaves l
  refine E.step W alike.partition (fun v' k' hk' msg' hm => ?_) hw (fun l hl _ => leaves l hl) (fun u _ hne hor => ?_)
    fun hor => ?_
  · rw [waiting] at hm
    rcases List.mem_append.1 hm with old | new
    · exact E.concerned v' k' hk' msg' old
    · by_cases e : k = k'
      · subst e
        have checked := (h.core hc).station.checked
        rw [E.partition] at checked
        obtain rfl := checked.cpu_inj hk hk'
        rw [if_pos rfl] at new
        obtain rfl := List.mem_singleton.1 new
        exact ⟨w, hw, .inr asks⟩
      · rw [if_neg e] at new
        cases new
  · exact hor.imp (fun hm => (rest u hm).resolve_right hne) kept
  · refine hor.leaves (leaves _ (W.has w hw)) fun _ => .inr ⟨v, k, msg, hk, ?_, asks⟩
    rw [waiting, if_pos rfl]
    exact List.mem_append_right _ List.mem_cons_self

/-! ## Handling messages -/

theorem waiting_take (hc : m.core? cpu = some (i, c)) (hb : c.bus.take c.cpu = some (msg, bus)) (k : Nat) :
    m.waiting k = (if cpu = k then [msg] else []) ++ (m.putCore i { c with bus := bus }).waiting k := by
  rw [← waiting_core hc, ← cpu_of_core? hc]
  exact MessageBus.waiting_inbox_take hb k

theorem Sound.take (h : m.Sound) (hc : m.core? cpu = some (i, c)) (hb : c.bus.take c.cpu = some (msg, bus)) :
    (m.putCore i { c with bus := bus }).Sound :=
  have alike := Core.alike_take hb
  h.putCore hc ((h.core hc).alike alike) alike.local_ fun l hl => by
    rw [alike.interrupt]
    exact h.rest (vm_of_core? hc) l hl

theorem Tallied.take (ht : m.Tallied) (h : m.Sound) (hc : m.core? cpu = some (i, c))
    (hb : c.bus.take c.cpu = some (msg, bus)) : (m.putCore i { c with bus := bus }).Tallied :=
  ht.putCore h (h.take hc hb) hc (Core.alike_take hb).local_ fun l hl may counts =>
    (Core.alike_take hb).tallied (ht.core h hc l hl may counts)

/-- **The message that a core takes is about one of the writes.**  If it asks for the write, that is now for the core to
do. -/
theorem Errands.take (E : Errands m₀ vm₀ ws [] m c.vm) (W : Sendable vm₀ ws) (h : m.Sound)
    (hc : m.core? cpu = some (i, c)) (hb : c.bus.take c.cpu = some (msg, bus)) :
    ∃ w ∈ ws, (msg.About .route vm₀ w.line ∧ Errands m₀ vm₀ ws [] (m.putCore i { c with bus := bus }) c.vm) ∨
      (msg.Asks vm₀ c.vcpu w ∧ Errands m₀ vm₀ ws [w] (m.putCore i { c with bus := bus }) c.vm) := by
  have alike := Core.alike_take hb
  have here := h.here hc
  rw [Vm.pcpuOf?_congr E.partition] at here
  have checked := (h.core hc).station.checked
  rw [E.partition] at checked
  have waiting := waiting_take hc hb
  have concerned : ∀ v k, vm₀.pcpuOf? v = some k → ∀ msg ∈ (m.putCore i { c with bus := bus }).waiting k, ∃ w ∈ ws,
      msg.About .route vm₀ w.line ∨ msg.Asks vm₀ v w := fun v k hk msg' hm =>
    E.concerned v k hk msg' (by rw [waiting]; exact List.mem_append_right _ hm)
  have leaves : ∀ l, vm₀.Has l → m.Leaves c.vm (m.putCore i { c with bus := bus }) c.vm l := fun l hl =>
    leaves_putCore h (h.take hc hb) hc alike.local_ ((Vm.has_congr E.partition l).2 hl) fun _ => alike.leaves l
  -- a message for a write waits on, unless it is the one that was taken
  have kept : ∀ {u}, m.Waits vm₀ u → msg.Asks vm₀ c.vcpu u ∨ (m.putCore i { c with bus := bus }).Waits vm₀ u := by
    rintro u ⟨v, k, msg', hk, hm, asks⟩
    rw [waiting] at hm
    rcases List.mem_append.1 hm with taken | left
    · by_cases e : cpu = k
      · subst e
        obtain rfl := checked.cpu_inj here hk
        rw [if_pos rfl] at taken
        obtain rfl := List.mem_singleton.1 taken
        exact .inl asks
      · rw [if_neg e] at taken
        cases taken
    · exact .inr ⟨v, k, msg', hk, left, asks⟩
  obtain ⟨w, hw, about | asks⟩ := E.concerned c.vcpu cpu here msg (by
    rw [waiting, if_pos rfl]
    exact List.mem_append_left _ List.mem_cons_self)
  · have still : ∀ {u}, u ∈ [] ∨ m.Waits vm₀ u → u ∈ [] ∨ (m.putCore i { c with bus := bus }).Waits vm₀ u := fun hor =>
      .inr ((kept (hor.resolve_left List.not_mem_nil)).resolve_left fun asks => asks.not_route about)
    exact ⟨w, hw, .inl ⟨about, E.step W rfl concerned hw (fun l hl _ => leaves l hl) (fun u _ _ => still) fun hor =>
      hor.leaves (leaves _ (W.has w hw)) still⟩⟩
  · refine ⟨w, hw, .inr ⟨asks, E.step W rfl concerned hw (fun l hl _ => leaves l hl) (fun u hu hne hor => ?_) fun hor =>
      hor.leaves (leaves _ (W.has w hw)) fun _ => .inl List.mem_cons_self⟩⟩
    refine .inr ((kept (hor.resolve_left List.not_mem_nil)).resolve_left fun asks' => hne ?_)
    exact W.unique u hu w hw (asks'.line_eq asks (W.has u hu) (W.has w hw))

/-- **A core that handles a message carries the write out or sends it on.** -/
theorem Errands.write (E : Errands m₀ vm₀ ws todo m c.vm) (W : Sendable vm₀ ws) (h : m.Sound) (ht : m.Tallied)
    (hc : m.core? cpu = some (i, c)) (hw : w ∈ ws) {x : BitVec 64}
    (hx : x = w.value ∨ x = (w.value.setWidth 32).setWidth 64) (rest : ∀ u ∈ todo, u ∈ todo' ∨ u = w) :
    Errands m₀ vm₀ ws todo' (m.putCore i (c.writeField w.group w.line x)) (c.writeField w.group w.line x).vm := by
  have hs := h.core hc
  have has := (Vm.has_congr E.partition _).2 (W.has w hw)
  have same : w.group.apply c.vm w.line x = w.edit vm₀ := funext fun s => by
    rw [RegisterGroup.apply_congr E.partition]
    rcases hx with rfl | rfl
    · rfl
    · exact W.carried w hw s
  cases may : c.mayClaim w.line with
  | true =>
    exact E.serve W h ht hc hw (Core.serves_writeField hs (ht.core h hc) has may w.group x)
      (fun a ha => by cases ha; exact same) fun u hu => (rest u hu).imp_right fun e => ⟨e, rfl⟩
  | false =>
    have fwd := Core.forwarded_writeField hs has may w.group x
    obtain ⟨v, k, msg, -, -, hk, sent, writes⟩ := fwd.message
    have writes := writes.congr E.partition.symm
    refine E.send W h (h.does hc (.forwarded _ _ _ fwd)) hc hw fwd.posted.alike
      ((Vm.pcpuOf?_congr E.partition v).symm.trans hk) (.write ⟨writes.about, writes.group, writes.value.trans ?_⟩) sent rest
    rcases hx with rfl | rfl
    · rfl
    · exact setWidth_narrow w.value (Nat.le_refl 32)

theorem Errands.answer (E : Errands m₀ vm₀ ws todo m c.vm) (W : Sendable vm₀ ws) (h : m.Sound) (ht : m.Tallied)
    (hc : m.core? cpu = some (i, c)) (hw : w ∈ ws)
    (hm : msg.About .route vm₀ w.line ∧ todo = [] ∨ msg.Asks vm₀ c.vcpu w ∧ todo = [w]) :
    Errands m₀ vm₀ ws [] (m.putCore i (c.handle msg)) (c.handle msg).vm := by
  have has := (Vm.has_congr E.partition _).2 (W.has w hw)
  rcases hm with ⟨about, rfl⟩ | ⟨asks, rfl⟩
  · rw [Core.handle_of_route (about.congr E.partition) has]
    exact E.serve W h ht hc hw (Core.serves_accept (h.core hc) (ht.core h hc) has) (fun a ha => by cases ha)
      fun u hu => by cases hu
  · have only : ∀ u ∈ [w], u ∈ [] ∨ u = w := fun u hu => .inr (List.mem_singleton.1 hu)
    rcases Core.handle_of_asks (asks.congr E.partition) has with e | e <;> rw [e]
    · exact E.write W h ht hc hw (.inl rfl) only
    · exact E.write W h ht hc hw (.inr rfl) only

/-- **Handling a message** leaves nothing to do: a write is carried out or sent on. -/
theorem Errands.handle (E : Errands m₀ vm₀ ws [] m c.vm) (W : Sendable vm₀ ws) (h : m.Sound) (ht : m.Tallied)
    (hc : m.core? cpu = some (i, c)) (hb : c.bus.take c.cpu = some (msg, bus)) (hmv : c.Move ds c')
    (e : c' = ({ c with bus := bus } : Core).handle msg) : Errands m₀ vm₀ ws [] (m.putCore i c') c'.vm := by
  have h₁ := h.take hc hb
  have hc₁ := core?_putCore (d := { c with bus := bus }) hc rfl rfl
  have hcpu := cpu_of_core? hc
  have put : (m.putCore i { c with bus := bus }).putCore i c' = m.putCore i c' :=
    h.putCore_putCore hc hcpu ((hmv.local_ (h.core hc)).cpu.trans hcpu)
  rw [← put, e]
  obtain ⟨w, hw, ⟨about, E₁⟩ | ⟨asks, E₁⟩⟩ := E.take W h hc hb
  · exact Errands.answer (c := { c with bus := bus }) E₁ W h₁ (ht.take h hc hb) hc₁ hw (.inl ⟨about, rfl⟩)
  · exact Errands.answer (c := { c with bus := bus }) E₁ W h₁ (ht.take h hc hb) hc₁ hw (.inr ⟨asks, rfl⟩)

/-- What happens on the CPUs of other VMs makes no difference. -/
theorem Errands.elsewhere (E : Errands m₀ vm₀ ws todo m vm) (h : m.Sound) (hsep : m.Separate)
    (hc : m.core? cpu = some (j, c)) (hmv : c.Move ds c') (hvm : m.vms[i]? = some vm) (hne : i ≠ j) :
    Errands m₀ vm₀ ws todo (m.putCore j c') vm := by
  have untouched := Untouched.move h hsep hc hmv hvm hne
  have waiting : ∀ v k, vm₀.pcpuOf? v = some k → (m.putCore j c').waiting k = m.waiting k := fun v k hk =>
    congrArg Inbox.waiting (untouched.inbox v k (by rw [Vm.pcpuOf?_congr E.partition]; exact hk))
  have leaves : ∀ l, m.Leaves vm (m.putCore j c') vm l := fun l =>
    leaves_of_held? rfl rfl (held?_other h hc (hmv.local_ (h.core hc)).cpu hvm hne l)
  refine ⟨E.partition, fun v k hk msg hm => ?_, fun l hl hno => (E.others l hl hno).trans (leaves l), fun w hw =>
    (E.each w hw).leaves (leaves _) (Or.imp_right ?_)⟩
  · rw [waiting v k hk] at hm
    exact E.concerned v k hk msg hm
  · rintro ⟨v, k, msg, hk, hm, asks⟩
    exact ⟨v, k, msg, hk, by rw [waiting v k hk]; exact hm, asks⟩

/-! ## Polls -/

/-- The CPUs of a list poll, one after another. -/
def polls (cpus : List Nat) : List Event := cpus.map (⟨·, .poll⟩)

theorem Errands.handleMany (n : Nat) (hm : m.Arises) (W : Sendable vm₀ ws)
    (E : ∃ vm, m.vms[i]? = some vm ∧ Errands m₀ vm₀ ws [] m vm) :
    ∃ vm, (Machine.handleMany cpu n m).vms[i]? = some vm ∧ Errands m₀ vm₀ ws [] (Machine.handleMany cpu n m) vm := by
  induction n generalizing m with
  | zero => exact E
  | succ n ih =>
    unfold Machine.handleMany
    cases hn : m.handleNext? cpu with
    | none => exact E
    | some m' =>
      refine ih (.handle cpu hm hn) ?_
      obtain ⟨j, c, msg, bus, hc, hb, hmv, rfl⟩ := handleNext?_cases hn
      obtain ⟨vm, hvm, E⟩ := E
      by_cases hj : i = j
      · subst hj
        obtain rfl := Option.some.inj ((vm_of_core? hc).symm.trans hvm)
        exact ⟨_, vms_putCore_self hc _, E.handle W hm.sound hm.tallied hc hb hmv rfl⟩
      · exact ⟨vm, (vms_putCore _ _ _ _ (Ne.symm hj)).trans hvm, E.elsewhere hm.sound hm.separate hc hmv hvm hj⟩

theorem Errands.polls (cpus : List Nat) (hm : m.Arises) (W : Sendable vm₀ ws)
    (E : ∃ vm, m.vms[i]? = some vm ∧ Errands m₀ vm₀ ws [] m vm) :
    ∃ vm, (m.run (Machine.polls cpus)).vms[i]? = some vm ∧ Errands m₀ vm₀ ws [] (m.run (Machine.polls cpus)) vm := by
  induction cpus generalizing m with
  | nil => exact E
  | cons cpu cpus ih =>
    refine ih (m := m.step ⟨cpu, .poll⟩) (hm.step _) ?_
    rw [step_poll hm.sound]
    exact Errands.handleMany _ hm W E

/-- **Once no message waits all writes are done.** -/
theorem Errands.done (E : Errands m₀ vm₀ ws [] m vm) (quiet : m.Quiet) (hw : w ∈ ws) : Done m₀ vm₀ m vm w := by
  rcases E.each w hw with done | ⟨-, hm | ⟨v, k, msg, -, hm, -⟩⟩
  · exact done
  · cases hm
  · rw [quiet k] at hm
    cases hm

end Machine
end VirtualGic
