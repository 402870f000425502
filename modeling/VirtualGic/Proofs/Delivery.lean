import VirtualGic.Core.Presentation
import VirtualGic.Proofs.Placement
/-!
# Delivery

What `deliver` does with an interrupt in hand: nothing where it is idle or disabled, else it ends in a list register,
or parked here with maintenance asked for, or offered to every other core that it targets.
-/
namespace VirtualGic

theorem Vm.getLsbD_vcpuSet {vm : Vm} (hc : vm.partition.Checked) (v : Nat) :
    vm.vcpuSet.getLsbD v = decide (v < vm.vcpuCount) :=
  CpuSet.getLsbD_below _ _ (Nat.le_trans hc.cpus_le (by decide))

theorem Vm.lt_of_routedVcpu? {vm : Vm} {route : BitVec 64} {vcpu : Nat} (h : vm.routedVcpu? route = some vcpu) :
    vcpu < vm.vcpuCount := by
  simp only [routedVcpu?, Option.ite_none_left_eq_some, Option.ite_none_right_eq_some, Option.some.injEq] at h
  exact h.2.2 ▸ h.2.1

theorem Vm.target_lt {vm : Vm} {l : Line} {s : Interrupt} {v : Nat} (hc : vm.partition.Checked) (hl : vm.Has l)
    (h : (vm.targets l s).getLsbD v = true) : v < vm.vcpuCount := by
  have hset : vm.vcpuSet.getLsbD v = true → v < vm.vcpuCount := fun h => by
    rw [getLsbD_vcpuSet hc] at h
    exact of_decide_eq_true h
  cases l with
  | banked home id =>
    have hv := Line.seenBy_of_target h home rfl
    rw [← hv]
    exact hl.2.2 home rfl
  | shared id =>
    unfold targets at h
    cases hver : vm.version <;> rw [hver] at h <;> simp only at h
    · rw [BitVec.getLsbD_and, Bool.and_eq_true] at h
      exact hset h.2
    · split at h
      next => exact hset h
      next =>
        split at h
        next w hw =>
          rw [CpuSet.getLsbD_single, Bool.and_eq_true, beq_iff_eq] at h
          exact h.2 ▸ lt_of_routedVcpu? hw
        next => simp at h

theorem Vm.exists_pcpuOf? {vm : Vm} {v : Nat} (h : v < vm.vcpuCount) : ∃ cpu, vm.pcpuOf? v = some cpu :=
  ⟨_, List.getElem?_eq_getElem h⟩

theorem Vm.mem_pcpusOf {vm : Vm} {v cpu : Nat} {vcpus : CpuSet} (hc : vm.partition.Checked)
    (hv : vm.pcpuOf? v = some cpu) (hm : vcpus.getLsbD v = true) : cpu ∈ (vm.pcpusOf vcpus).toList := by
  have hcpu : cpu < maxCpus := hc.cpu_lt cpu (List.mem_of_getElem? hv)
  have hlt : cpu < 64 := Nat.lt_of_lt_of_le hcpu (by decide)
  rw [CpuSet.mem_toList, pcpusOf, CpuSet.getLsbD_ofList, decide_eq_true hlt, Bool.true_and, List.contains_iff_mem,
    List.mem_filterMap]
  refine ⟨v, ?_, hv⟩
  rw [List.mem_filter]
  exact ⟨List.mem_range.2 (List.getElem?_eq_some_iff.1 hv).1, hm⟩

namespace Core

variable {c c' : Core} {l : Line} {s : Interrupt} {n target : Nat} {r : Request} {p : Payload}

/-! ## Posting -/

theorem post_eq (c : Core) (target : Nat) (r : Request) (p : Payload) :
    ∃ bus gic, c.post target r p = { c with bus := bus, gic := gic } ∧ bus.cpus = c.bus.cpus ∧
      (c.bus.Sound → bus.Sound) ∧ ∀ cpu, (bus.inbox cpu).waiting = (c.bus.inbox cpu).waiting ++
        if target = cpu ∧ target < c.bus.cpus then [⟨r.code, p.toWord⟩] else [] := by
  unfold post
  cases hb : c.bus.post c.gic target ⟨r.code, p.toWord⟩ with
  | ok b =>
    obtain ⟨bus, gic⟩ := b
    have hlt : target < c.bus.cpus := by
      unfold MessageBus.post at hb
      split at hb
      next h => exact h
      next => cases hb
    refine ⟨bus, gic, rfl, ?_, fun hs => hs.post hb, fun cpu => ?_⟩
    · rw [MessageBus.post, if_pos hlt] at hb
      cases hb
      simp [MessageBus.cpus]
    · rw [MessageBus.waiting_inbox_post hb cpu]
      by_cases hc : target = cpu
      · rw [if_pos hc, if_pos ⟨hc, hlt⟩]
      · rw [if_neg hc, if_neg (fun e => hc e.1)]
  | error e =>
    have hge : ¬ target < c.bus.cpus := by
      intro hlt
      rw [MessageBus.post, if_pos hlt] at hb
      cases hb
    refine ⟨c.bus, c.gic, rfl, rfl, id, fun cpu => ?_⟩
    rw [if_neg (fun e => hge e.2), List.append_nil]

/-- A core that differs in what it shares with all the others only. -/
structure Posted (r : Request) (c c' : Core) : Prop where
  vm : c'.vm = c.vm
  interface : c'.interface = c.interface
  cpu : c'.cpu = c.cpu
  vcpu : c'.vcpu = c.vcpu
  cpus : c'.bus.cpus = c.bus.cpus
  grew : MessageBus.Grew (·.event = r.code) c.bus c'.bus

theorem Posted.refl (r : Request) (c : Core) : Posted r c c := ⟨rfl, rfl, rfl, rfl, rfl, .refl _ _⟩

theorem Posted.trans {c'' : Core} (h : Posted r c c') (h' : Posted r c' c'') : Posted r c c'' :=
  ⟨h'.vm.trans h.vm, h'.interface.trans h.interface, h'.cpu.trans h.cpu, h'.vcpu.trans h.vcpu, h'.cpus.trans h.cpus,
    h.grew.trans h'.grew⟩

theorem Posted.alike (h : Posted r c c') : Alike c c' := by
  refine ⟨⟨h.cpu, h.vcpu, h.cpus, by rw [h.vm]⟩, fun l => ?_, fun home => by rw [h.vm], fun v n => by rw [h.vm],
    by rw [h.interface]⟩
  unfold interrupt
  rw [h.vm]

theorem Posted.interrupt (h : Posted r c c') (l : Line) : c'.interrupt l = c.interrupt l := h.alike.interrupt l

theorem Posted.held? (h : Posted r c c') (l : Line) : c'.held? l = c.held? l :=
  held?_congr h.vcpu (h.interrupt l) fun _ _ => by rw [h.interface]

theorem Posted.frame (h : Posted r c c') (l : Line) (about : MessageBus.Grew (·.About .route c.vm l) c.bus c'.bus) :
    Frame l c c' where
  toSame := h.alike.toSame
  fate := fun m _ _ => .kept (h.interrupt m) (h.held? m)
  occupant := fun v n _ => h.alike.occupant v n
  control := by rw [h.interface]; exact .refl _
  posted := about

theorem grew_post (c : Core) (target : Nat) (r : Request) (p : Payload) :
    MessageBus.Grew (· = ⟨r.code, p.toWord⟩) c.bus (c.post target r p).bus := by
  obtain ⟨bus, gic, e, hc, hs, hw⟩ := c.post_eq target r p
  rw [e]
  refine ⟨fun cpu => ⟨_, hw cpu, fun m hm => ?_⟩, hs⟩
  split at hm
  next => exact List.mem_singleton.1 hm
  next => cases hm

theorem grew_postAll (r : Request) (p : Payload) : ∀ (targets : List Nat) (c : Core),
    MessageBus.Grew (· = ⟨r.code, p.toWord⟩) c.bus (c.postAll targets r p).bus
  | [], _ => .refl _ _
  | target :: rest, c => (grew_post c target r p).trans (grew_postAll r p rest _)

theorem posted_post (c : Core) (target : Nat) (r : Request) (p : Payload) : Posted r c (c.post target r p) := by
  have grew := (grew_post c target r p).imp (q := (·.event = r.code)) fun m hm => by rw [hm]
  obtain ⟨bus, gic, e, hc, -, -⟩ := c.post_eq target r p
  rw [e] at grew ⊢
  exact ⟨rfl, rfl, rfl, rfl, hc, grew⟩

theorem mem_post (h : target < c.bus.cpus) (r : Request) (p : Payload) :
    ⟨r.code, p.toWord⟩ ∈ ((c.post target r p).bus.inbox target).waiting := by
  obtain ⟨bus, gic, e, hc, -, hw⟩ := c.post_eq target r p
  rw [e]
  show _ ∈ (bus.inbox target).waiting
  rw [hw, if_pos ⟨rfl, h⟩]
  exact List.mem_append_right _ List.mem_cons_self

theorem posted_postAll (r : Request) (p : Payload) : ∀ (targets : List Nat) (c : Core),
    Posted r c (c.postAll targets r p)
  | [], c => .refl r c
  | target :: rest, c => (posted_post c target r p).trans (posted_postAll r p rest _)

theorem mem_postAll (r : Request) (p : Payload) (targets : List Nat) (c : Core) (hm : target ∈ targets)
    (hlt : target < c.bus.cpus) : ⟨r.code, p.toWord⟩ ∈ ((c.postAll targets r p).bus.inbox target).waiting := by
  induction targets generalizing c with
  | nil => cases hm
  | cons first rest ih =>
    have hp := posted_post c first r p
    have e : c.postAll (first :: rest) r p = (c.post first r p).postAll rest r p := rfl
    rw [e]
    rcases List.mem_cons.1 hm with rfl | hm
    · exact (posted_postAll r p rest _).grew.mem (mem_post hlt r p)
    · exact ih _ hm (by rw [hp.cpus]; exact hlt)

/-- A payload that names an interrupt does so for its receiver, whatever request and value it carries. -/
theorem about_payload (h : c.Stationed) (hl : c.vm.Has l) {bank : Nat} (hb : ∀ home, l.home? = some home → bank = home)
    (r : Request) (g : BitVec 6) (v : BitVec 32) :
    Message.About ⟨r.code, ({ c.payload bank l.id with group := g, value := v } : Payload).toWord⟩ r c.vm l := by
  have hid := Vm.id_lt_of_has h.checked hl
  have hvm : c.vm.id < 2 ^ 8 := Nat.lt_of_le_of_lt h.checked.id_le (by decide)
  refine ⟨rfl, ?_, ?_, fun home hh => ?_⟩ <;> rw [Payload.ofWord_toWord]
  · exact (BitVec.toNat_ofNat ..).trans (Nat.mod_eq_of_lt hvm)
  · exact (BitVec.toNat_ofNat ..).trans (Nat.mod_eq_of_lt hid)
  · have hlt : home < 2 ^ 8 :=
      Nat.lt_of_lt_of_le (hl.2.2 home hh) (Nat.le_trans h.checked.cpus_le (by decide))
    rw [← hb home hh] at hlt ⊢
    exact (BitVec.toNat_ofNat ..).trans (Nat.mod_eq_of_lt hlt)

theorem posted_offer (c : Core) (l : Line) (vcpus : CpuSet) : Posted .route c (c.offer l vcpus) := posted_postAll ..

theorem frame_offer (h : c.Stationed) (hl : c.vm.Has l) (vcpus : CpuSet) : Frame l c (c.offer l vcpus) := by
  have hb : ∀ home, l.home? = some home → l.home?.getD c.vcpu = home := fun home hh => by rw [hh]; rfl
  refine (posted_offer c l vcpus).frame l ((grew_postAll .route _ _ c).imp fun m hm => ?_)
  rw [hm]
  exact about_payload h hl hb .route 0 0

/-- **Everyone an interrupt is offered to has a message about it.** -/
theorem mem_offer (h : c.Stationed) (hl : c.vm.Has l) {vcpus : CpuSet} {v cpu : Nat} (hm : vcpus.getLsbD v = true)
    (hv : c.vm.pcpuOf? v = some cpu) :
    ∃ m ∈ ((c.offer l vcpus).bus.inbox cpu).waiting, m.About .route c.vm l := by
  have hb : ∀ home, l.home? = some home → l.home?.getD c.vcpu = home := fun home hh => by rw [hh]; rfl
  exact ⟨_, mem_postAll .route _ _ c (Vm.mem_pcpusOf h.checked hv hm) (h.reaches v cpu hv),
    about_payload h hl hb .route 0 0⟩

/-! ## Delivering -/

/-- What became of an interrupt that waits for a core: it is parked where this vCPU is a target, and offered to the
others where it may be given up. -/
structure Waits (c c' : Core) (l : Line) : Prop where
  busy : (c.interrupt l).state.isIdle = false
  enabled : (c.interrupt l).enabled = true
  record : c'.interrupt l = { c.interrupt l with spilled := c.isTarget l || (c.interrupt l).spilled } ∨
    c'.interrupt l = Interrupt.release { c.interrupt l with spilled := c.isTarget l || (c.interrupt l).spilled }
      c.vm.version l c.vcpu
  pending : c.isTarget l = true → (c.interrupt l).state.pending = true → c'.interface.control.noPending = true
  active : c.isTarget l = true → (c.interrupt l).state.active = true → c'.interface.control.underflow = true
  offered : c.releasable l = true → ∀ v cpu, (c.vm.targets l (c.interrupt l)).getLsbD v = true → v ≠ c.vcpu →
    c.vm.pcpuOf? v = some cpu → ∃ m ∈ (c'.bus.inbox cpu).waiting, m.About .route c.vm l

inductive Delivered (c c' : Core) (l : Line) : Prop
  | quiet (why : (c.interrupt l).state.isIdle = true ∨ (c.interrupt l).enabled = false)
    (record : c'.interrupt l = c.interrupt l)
  | seated (n : Nat) (target : c.isTarget l = true) (record : c'.interrupt l = c.seated l n)
    (held : c'.held? l = some (c.presented l).1) (busy : (c.interrupt l).state.isIdle = false)
  | waits (waits : Waits c c' l)

structure Delivering (c c' : Core) (l : Line) : Prop where
  sound : c'.Sound
  frame : Frame l c c'
  completed : KeepsCompleted c c'
  outcome : Delivered c c' l

/-- What is left to do for an interrupt that was placed, or could not be. -/
def passOn (c d : Core) (l : Line) : Core :=
  if (d.interrupt l).resident || (c.vm.targets l (c.interrupt l)).erase d.vcpu == 0 || !d.releasable l then d
  else (d.release l).offer l ((c.vm.targets l (c.interrupt l)).erase d.vcpu)

theorem deliver_eq (c : Core) (l : Line) :
    c.deliver l =
      if ((c.stateOf l).isIdle || !(c.interrupt l).enabled) = true then c
      else passOn c (if c.isTarget l = true then (c.place l).1 else c) l := by
  unfold deliver passOn
  rfl

theorem releasable_congr (hp : c'.vm.partition = c.vm.partition) (hv : c'.vcpu = c.vcpu)
    (owner : (c'.interrupt l).owner = (c.interrupt l).owner) (resident : (c'.interrupt l).resident = (c.interrupt l).resident)
    (state : (c'.interrupt l).state = (c.interrupt l).state) : c'.releasable l = c.releasable l := by
  simp only [releasable, Interrupt.releasable, Interrupt.ownedBy, owner, resident, state, hv, Vm.version_congr hp]

theorem ne_zero_of_target {v w : Nat} {x : CpuSet} (h : x.getLsbD v = true) (hv : v ≠ w) : (x.erase w == 0) = false := by
  rw [beq_eq_false_iff_ne]
  intro e
  have hb : (x.erase w).getLsbD v = true := by
    rw [CpuSet.getLsbD_erase, h]
    simpa using Ne.symm hv
  rw [e] at hb
  simp at hb

/-- The last part of a delivery: what waits is given up and offered to the other targets. -/
theorem delivering_passOn {d : Core} (h : c.InHand l) (busy : (c.interrupt l).state.isIdle = false)
    (enabled : (c.interrupt l).enabled = true) (sound : d.Sound) (frame : Frame l c d) (completed : KeepsCompleted c d)
    (record : d.interrupt l = { c.interrupt l with spilled := c.isTarget l || (c.interrupt l).spilled })
    (pending : c.isTarget l = true → (c.interrupt l).state.pending = true → d.interface.control.noPending = true)
    (active : c.isTarget l = true → (c.interrupt l).state.active = true → d.interface.control.underflow = true) :
    Delivering c (passOn c d l) l := by
  have hrel : d.releasable l = c.releasable l :=
    releasable_congr frame.partition frame.vcpu (by rw [record]) (by rw [record]) (by rw [record])
  have hres : (d.interrupt l).resident = false := by rw [record]; exact h.off
  have hd : d.vm.Has l := (Vm.has_congr frame.partition l).2 h.has
  unfold passOn
  rw [hrel, hres, Bool.false_or, frame.vcpu]
  split
  next hno =>
    refine ⟨sound, frame, completed, .waits ⟨busy, enabled, .inl record, pending, active, fun hr v cpu hv hne _ => ?_⟩⟩
    rw [hr, ne_zero_of_target hv hne] at hno
    cases hno
  next hyes =>
    have hp := posted_offer (d.release l) l ((c.vm.targets l (c.interrupt l)).erase c.vcpu)
    have hsr := sound.release hd
    have hsame : Same c (d.release l) := (frame.trans (frame_release d l)).toSame
    have hdr : (d.release l).vm.Has l := (Vm.has_congr (Vm.partition_setInterrupt ..) l).2 hd
    refine ⟨hsr.alike hp.alike, (frame.trans (frame_release d l)).trans (frame_offer hsr.station hdr _), fun m hm => ?_,
      .waits ⟨busy, enabled, .inr ?_, fun ht hb => ?_, fun ht hb => ?_, fun _ v cpu hv hne hcpu => ?_⟩⟩
    · rw [hp.interface]
      exact completed m hm
    · rw [hp.interrupt, interrupt_release, if_pos rfl, record, Vm.version_congr frame.partition, frame.vcpu]
    · rw [hp.interface]
      exact pending ht hb
    · rw [hp.interface]
      exact active ht hb
    · have hv' : ((c.vm.targets l (c.interrupt l)).erase c.vcpu).getLsbD v = true := by
        rw [CpuSet.getLsbD_erase, hv]
        simpa using Ne.symm hne
      obtain ⟨m, hm, ha⟩ := mem_offer hsr.station hdr hv'
        (by rw [Vm.pcpuOf?_congr hsame.partition]; exact hcpu)
      exact ⟨m, hm, ha.congr hsame.partition.symm⟩

/-- **Delivering an interrupt in hand.** -/
theorem delivering_deliver (h : c.InHand l) : Delivering c (c.deliver l) l := by
  rw [deliver_eq, stateOf_of_off h.off]
  split
  next hq =>
    refine ⟨h.sound, .refl l c, fun _ _ => rfl, .quiet ?_ rfl⟩
    rw [Bool.or_eq_true, Bool.not_eq_true'] at hq
    exact hq
  next hq =>
    simp only [Bool.or_eq_true, Bool.not_eq_true', not_or, Bool.not_eq_true, Bool.not_eq_false] at hq
    obtain ⟨busy, enabled⟩ := hq
    cases ht : c.isTarget l with
    | false =>
      simp only [Bool.false_eq_true, if_false]
      refine delivering_passOn h busy enabled h.sound (.refl l c) (fun _ _ => rfl) ?_ (fun e => ?_) (fun e => ?_)
      · rw [ht, Bool.false_or]
      · rw [ht] at e; cases e
      · rw [ht] at e; cases e
    | true =>
      simp only [if_true]
      have hp := placing_place h enabled ht busy
      generalize c.place l = x at hp
      obtain ⟨d, placed⟩ := x
      cases hp.outcome with
      | seated n record held =>
        have hres : (d.interrupt l).resident = true := by rw [record]; rfl
        simp only [passOn, hres, Bool.true_or, if_true]
        exact ⟨hp.sound, hp.frame, hp.completed, .seated n ht record held busy⟩
      | parked record pending active =>
        refine delivering_passOn h busy enabled hp.sound hp.frame hp.completed ?_ (fun _ => pending) (fun _ => active)
        rw [record, ht, Bool.true_or]

end Core
end VirtualGic
