import VirtualGic.Proofs.Errand
import VirtualGic.Proofs.Write
/-!
# What messages ask for

A message about a field or an injected interrupt makes a `Demand` of its receiver.  The core that owns the interrupt, or
may claim it, meets the demand; any other core passes it on to the owner's, in one message, and does nothing else.  The
other messages make no demand, and handling them posts nothing (`Core.answers_handle`).
-/
namespace VirtualGic

/-- What a core is asked for: a field write, or to take a hardware interrupt that fired. -/
inductive Demand where
  | write (w : FieldWrite)
  | signal (l : Line)

namespace Demand

def line : Demand → Line
  | write w => w.line
  | signal l => l

/-- What is done to meet it. -/
def deed : Demand → Deed
  | write w => .write w.group w.line w.value
  | signal l => .raise l

/-- What is left of it in a message. -/
def carried : Demand → Demand
  | write w => write { w with value := (w.value.setWidth 32).setWidth 64 }
  | signal l => signal l

theorem line_carried (d : Demand) : d.carried.line = d.line := by cases d <;> rfl

end Demand

namespace Vm

/-- Injecting an interrupt, a software one at the request of a vCPU. -/
def injection (vm : Vm) (l : Line) (requester : Nat) : Demand :=
  if l.isSoftware then .write (vm.raisal l requester)
  else if (vm.interrupt l).hardware then .signal l
  else .write ⟨.setPending, l, 1⟩

/-- The demand that a message makes of the core of a vCPU. -/
def demand? (vm : Vm) (v : Nat) (msg : Message) : Option Demand :=
  let p := Payload.ofWord msg.data
  match Request.ofCode? msg.event with
  | some .inject => (vm.find? v p.intid.toNat).map (vm.injection · p.value.toNat)
  | some .writeField =>
    match RegisterGroup.ofCode? p.group.toNat, vm.find? p.bank.toNat p.intid.toNat with
    | some g, some l => some (.write ⟨g, l, p.value.setWidth 64⟩)
    | _, _ => none
  | _ => none

end Vm

/-- A message to inject an interrupt or to redo a field write. -/
def Message.demands (msg : Message) : Bool :=
  msg.event == Request.inject.code || msg.event == Request.writeField.code

variable {vm : Vm} {msg : Message} {l : Line} {v requester : Nat} {d : Demand}

theorem Message.demands_of_event {r : Request} (h : msg.event = r.code) :
    msg.demands = (r == .inject || r == .writeField) := by
  unfold demands
  rw [h]
  cases r <;> rfl

namespace Vm

theorem line_injection (vm : Vm) (l : Line) (requester : Nat) : (vm.injection l requester).line = l := by
  unfold injection
  split
  next => exact vm.line_raisal l requester
  next => split <;> rfl

theorem hardware_of_injection {k : Line} (h : vm.injection l requester = .signal k) : (vm.interrupt k).hardware = true := by
  unfold injection at h
  split at h
  next => cases h
  next =>
    split at h
    next hw => cases h; exact hw
    next => cases h

theorem demand?_of_inject (h : msg.event = Request.inject.code)
    (hl : vm.find? v (Payload.ofWord msg.data).intid.toNat = some l) :
    vm.demand? v msg = some (vm.injection l (Payload.ofWord msg.data).value.toNat) := by
  simp only [demand?, (Request.ofCode?_eq_some_iff ..).2 h.symm, hl, Option.map_some]

theorem demand?_of_writeField {g : RegisterGroup} (h : msg.About .writeField vm l) (hl : vm.Has l)
    (hg : (Payload.ofWord msg.data).group.toNat = g.code) :
    vm.demand? v msg = some (.write ⟨g, l, (Payload.ofWord msg.data).value.setWidth 64⟩) := by
  simp only [demand?, (Request.ofCode?_eq_some_iff ..).2 h.request.symm, hg, RegisterGroup.ofCode?_code, h.find? hl]

/-- What a message demands, for an interrupt of the VM. -/
theorem demand?_cases (h : vm.demand? v msg = some d) :
    (msg.event = Request.inject.code ∧ ∃ l, vm.find? v (Payload.ofWord msg.data).intid.toNat = some l ∧
      d = vm.injection l (Payload.ofWord msg.data).value.toNat) ∨
    (msg.event = Request.writeField.code ∧ ∃ g l,
      RegisterGroup.ofCode? (Payload.ofWord msg.data).group.toNat = some g ∧
      vm.find? (Payload.ofWord msg.data).bank.toNat (Payload.ofWord msg.data).intid.toNat = some l ∧
      d = .write ⟨g, l, (Payload.ofWord msg.data).value.setWidth 64⟩) := by
  unfold demand? at h
  simp only at h
  split at h
  next hr =>
    obtain ⟨l, hl, e⟩ := Option.map_eq_some_iff.1 h
    exact .inl ⟨((Request.ofCode?_eq_some_iff ..).1 hr).symm, l, hl, e.symm⟩
  next hr =>
    split at h
    next g l hg hl => exact .inr ⟨((Request.ofCode?_eq_some_iff ..).1 hr).symm, g, l, hg, hl, (Option.some.inj h).symm⟩
    next => cases h
  next => cases h

theorem has_of_demand? (h : vm.demand? v msg = some d) : vm.Has d.line := by
  rcases demand?_cases h with ⟨-, l, hl, rfl⟩ | ⟨-, g, l, -, hl, rfl⟩
  · rw [line_injection]
    exact has_of_find? hl
  · exact has_of_find? hl

theorem hardware_of_demand? (h : vm.demand? v msg = some (.signal l)) : (vm.interrupt l).hardware = true := by
  rcases demand?_cases h with ⟨-, k, -, e⟩ | ⟨-, g, k, -, -, e⟩
  · exact hardware_of_injection e.symm
  · cases e

theorem demands_of_demand? (h : vm.demand? v msg = some d) : msg.demands = true := by
  rcases demand?_cases h with ⟨e, -⟩ | ⟨e, -⟩ <;> rw [Message.demands_of_event e] <;> rfl

end Vm

/-- A message that a core of the VM sent makes a demand if it is one to inject an interrupt or to redo a field write. -/
theorem Message.Sent.exists_demand (h : msg.Sent vm) (hv : v < vm.vcpuCount) (hd : msg.demands = true) :
    ∃ d, vm.demand? v msg = some d := by
  cases h with
  | syncs h => rw [demands_of_event h.1] at hd; cases hd
  | about r l has h group =>
    cases r with
    | syncEnable | route => rw [demands_of_event h.request] at hd; cases hd
    | inject =>
      obtain ⟨k, hk⟩ := Option.isSome_iff_exists.1 ((vm.isSome_find?_iff v _).2 ⟨h.line ▸ has.1, .inl hv⟩)
      exact ⟨_, Vm.demand?_of_inject h.request hk⟩
    | writeField =>
      obtain ⟨g, hg⟩ := group rfl
      exact ⟨_, Vm.demand?_of_writeField h has hg⟩

theorem Message.Sent.here (h : msg.Sent vm) : (Payload.ofWord msg.data).vm.toNat = vm.id := by
  cases h with
  | syncs h => exact h.2
  | about r l has h group => exact h.vm

namespace Core

variable {c c' : Core}

/-! ## What a core does about a message -/

def carryOut (c : Core) : Demand → Core
  | .write w => c.writeField w.group w.line w.value
  | .signal l => c.injectHardware l

theorem handle_of_demand (here : (Payload.ofWord msg.data).vm.toNat = c.vm.id) (h : c.vm.demand? c.vcpu msg = some d) :
    c.handle msg = c.carryOut d := by
  rcases Vm.demand?_cases h with ⟨e, l, hl, rfl⟩ | ⟨e, g, l, hg, hl, rfl⟩
  · have hid := Vm.id_of_find? hl
    simp only [handle, here, beq_self_eq_true, if_true, (Request.ofCode?_eq_some_iff ..).2 e.symm, handleRequest, ← hid]
    unfold Vm.injection Line.isSoftware
    have hl : c.find? l.id = some l := by rw [hid]; exact hl
    split
    next => rw [raise_eq hl, carryOut, Vm.line_raisal]
    next soft =>
      unfold inject Line.isSoftware
      simp only [hl, soft, Bool.false_eq_true, if_false]
      rw [show (c.interrupt l).hardware = (c.vm.interrupt l).hardware from rfl]
      cases (c.vm.interrupt l).hardware <;> rfl
  · simp only [handle, here, beq_self_eq_true, if_true, (Request.ofCode?_eq_some_iff ..).2 e.symm, handleRequest, hg, hl,
      carryOut]

/-- A core passes a demand on: it posts one message to the core of the vCPU that owns the interrupt, of which that makes
the same demand, and does nothing else. -/
structure PassesOn (c c' : Core) (d : Demand) : Prop where
  vm : c'.vm = c.vm
  interface : c'.interface = c.interface
  message : ∃ w target msg, (c.interrupt d.line).owner = some w ∧ w ≠ c.vcpu ∧ c.vm.pcpuOf? w = some target ∧
    msg.demands = true ∧ c.vm.demand? w msg = some d.carried ∧
    ∀ cpu, c'.waiting cpu = c.waiting cpu ++ if target = cpu then [msg] else []

/-- What a core makes of a message. -/
inductive Answers (c : Core) (msg : Message) (c' : Core) : Prop
  /-- The message is about the distributor's switch, or offers an interrupt.  Nothing is posted. -/
  | silent (demands : msg.demands = false) (bus : c'.bus = c.bus)
  | met (d : Demand) (demands : msg.demands = true) (demand : c.vm.demand? c.vcpu msg = some d)
    (may : c.mayClaim d.line = true) (does : Does c c' (some d.deed))
  | passed (d : Demand) (demands : msg.demands = true) (demand : c.vm.demand? c.vcpu msg = some d)
    (may : c.mayClaim d.line = false) (passes : PassesOn c c' d)

/-! ## Messages without a demand -/

theorem outside_settle (c : Core) (n id : Nat) : (c.settle n id).bus = c.bus ∧ (c.settle n id).gic = c.gic := by
  unfold settle
  simp only
  split
  next => exact ⟨rfl, rfl⟩
  next =>
    split
    next => exact ⟨rfl, rfl⟩
    next =>
      split
      next => exact ⟨rfl, rfl⟩
      next => split <;> exact ⟨rfl, rfl⟩

/-- Seating an interrupt posts nothing and leaves the physical controller alone. -/
theorem outside_seat (c : Core) (l : Line) (n : Nat) : (c.seat l n).bus = c.bus ∧ (c.seat l n).gic = c.gic := by
  have settled := outside_settle c n l.id
  rw [seat_eq]
  generalize c.settle n l.id = d at settled
  exact settled

theorem bus_evict (c : Core) (n : Nat) : (c.evict n).bus = c.bus := by
  unfold evict
  split
  next => rfl
  next l _ =>
    split
    next => exact bus_withdraw c l
    next => rfl

theorem bus_makeRoom (c : Core) : c.makeRoom.1.bus = c.bus := by
  unfold makeRoom
  split
  next => rfl
  next =>
    split
    next => exact bus_evict ..
    next => rfl

theorem bus_place (c : Core) (l : Line) : (c.place l).1.bus = c.bus := by
  have room := bus_makeRoom c
  unfold place
  split
  next =>
    generalize c.makeRoom = x at room
    obtain ⟨d, n⟩ := x
    cases n with
    | some n => exact (outside_seat d l n).1.trans room
    | none => exact room
  next => rfl

/-- **Nothing is posted when an offered interrupt is accepted**, or is not. -/
theorem bus_accept (c : Core) (l : Line) : (c.accept l).bus = c.bus := by
  unfold accept
  split
  next =>
    simp only
    show (if _ then _ else _ : Core).bus = _
    split
    next => exact bus_place ..
    next => rfl
  next => rfl

theorem bus_handle_of_silent (h : msg.Sent c.vm) (hd : msg.demands = false) : (c.handle msg).bus = c.bus := by
  cases h with
  | syncs h =>
    simp only [handle, h.2, beq_self_eq_true, if_true, (Request.ofCode?_eq_some_iff ..).2 h.1.symm, handleRequest]
    rfl
  | about r l has h group =>
    cases r with
    | syncEnable =>
      simp only [handle, h.vm, beq_self_eq_true, if_true, (Request.ofCode?_eq_some_iff ..).2 h.request.symm, handleRequest]
      rfl
    | route =>
      rw [handle_of_route h has]
      exact bus_accept c l
    | inject | writeField => rw [Message.demands_of_event h.request] at hd; cases hd

/-! ## Messages with a demand -/

theorem passesOn_writeField (hs : c.Sound) {w : FieldWrite} (hl : c.vm.Has w.line) (may : c.mayClaim w.line = false) :
    PassesOn c (c.writeField w.group w.line w.value) (.write w) := by
  have fwd := forwarded_writeField hs hl may w.group w.value
  obtain ⟨owner, target, msg, ho, hne, ht, sent, writes⟩ := fwd.message
  have demand := Vm.demand?_of_writeField (v := owner) writes.about hl writes.group
  rw [writes.value] at demand
  exact ⟨fwd.posted.vm, fwd.posted.interface, owner, target, msg, ho, hne, ht, Vm.demands_of_demand? demand, demand, sent⟩

theorem passesOn_injectHardware (hs : c.Sound) (hl : c.vm.Has l) (hw : (c.interrupt l).hardware = true)
    (may : c.mayClaim l = false) : PassesOn c (c.injectHardware l) (.signal l) := by
  have shared := (hs.records l hl).shared_of_hardware hs.station.checked hl hw
  obtain ⟨owner, target, ho, hne, ht, e⟩ := forward_eq hs hl may .inject fun p => p
  have e : c.injectHardware l = c.post target .inject (c.payload (l.home?.getD owner) l.id) := by
    rw [injectHardware, may, if_neg (by decide)]
    exact e
  have hb : ∀ home, l.home? = some home → l.home?.getD owner = home := fun home hh => by rw [hh]; rfl
  have about : Message.About ⟨Request.inject.code, (c.payload (l.home?.getD owner) l.id).toWord⟩ .inject c.vm l :=
    about_payload hs.station hl hb .inject 0 0
  have found := Vm.find?_id hl (Line.seenBy_shared shared owner)
  have demand := Vm.demand?_of_inject about.request (by rw [about.line]; exact found)
  have signal : ∀ requester, c.vm.injection l requester = .signal l := fun requester => by
    have hard : l.isSoftware ≠ true := fun hsoft => by
      have soft := (hs.records l hl).soft_of_private hs.station.checked (Line.id_lt_of_isSoftware hsoft)
      rw [hw] at soft
      cases soft
    rw [Vm.injection, if_neg hard]
    exact if_pos hw
  rw [signal] at demand
  have posted := posted_post c target .inject (c.payload (l.home?.getD owner) l.id)
  rw [e]
  exact ⟨posted.vm, posted.interface, owner, target, _, ho, hne, ht, Vm.demands_of_demand? demand, demand,
    waiting_post hs.station ht .inject _⟩

theorem does_carryOut (hs : c.Sound) (hl : c.vm.Has d.line) (may : c.mayClaim d.line = true) :
    Does c (c.carryOut d) (some d.deed) := by
  cases d with
  | write w =>
    have does : Does c (c.writeField w.group w.line w.value) (some (c.deedOf w)) := does_writeField hs hl w.group w.value
    rwa [deedOf, if_pos (show c.mayClaim w.line = true from may)] at does
  | signal l =>
    obtain ⟨s, h, made⟩ := handled_injectHardware hs hl may
    exact .handled l s (fun a ha => by cases ha; rfl) h made

/-- **A core answers a message** from a core of its VM: it meets the demand, or passes it on where the interrupt is
another vCPU's; where there is none it posts nothing. -/
theorem answers_handle (hs : c.Sound) (sent : msg.Sent c.vm) : c.Answers msg (c.handle msg) := by
  cases hd : msg.demands with
  | false => exact .silent hd (bus_handle_of_silent sent hd)
  | true =>
    obtain ⟨d, demand⟩ := sent.exists_demand hs.station.vcpu_lt hd
    have has := Vm.has_of_demand? demand
    rw [handle_of_demand sent.here demand]
    cases may : c.mayClaim d.line with
    | true => exact .met d hd demand may (does_carryOut hs has may)
    | false =>
      refine .passed d hd demand may ?_
      cases d with
      | write w => exact passesOn_writeField hs has may
      | signal l => exact passesOn_injectHardware hs has (Vm.hardware_of_demand? demand) may

end Core
end VirtualGic
