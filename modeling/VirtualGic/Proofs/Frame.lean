import VirtualGic.Proofs.Inbox
import VirtualGic.Proofs.Sound
/-!
# Frames

What an operation on one interrupt leaves of the others.  Making room in the list registers may touch them: one may
be evicted, and one that the guest has completed may be found in a slot that is reused (`Core.Fate`).  `Core.Frame`
says that nothing else happens to them, and that messages and requests for maintenance are only ever added.
-/
namespace VirtualGic

/-! ## Requests for maintenance and messages -/

structure Control.Kept (k k' : Control) : Prop where
  noPending : k.noPending = true → k'.noPending = true
  underflow : k.underflow = true → k'.underflow = true
  enabled : k'.enabled = k.enabled
  unmatched : k'.unmatched = k.unmatched
  completions : k'.completions = k.completions

theorem Control.Kept.refl (k : Control) : k.Kept k := ⟨id, id, rfl, rfl, rfl⟩

theorem Control.Kept.trans {k k' k'' : Control} (h : k.Kept k') (h' : k'.Kept k'') : k.Kept k'' :=
  ⟨h'.noPending ∘ h.noPending, h'.underflow ∘ h.underflow, h'.enabled.trans h.enabled,
    h'.unmatched.trans h.unmatched, h'.completions.trans h.completions⟩

/-- A bus on which only messages with a property were posted. -/
structure MessageBus.Grew (p : Message → Prop) (b b' : MessageBus) : Prop where
  more : ∀ cpu, ∃ more, (b'.inbox cpu).waiting = (b.inbox cpu).waiting ++ more ∧ ∀ m ∈ more, p m
  sound : b.Sound → b'.Sound

namespace MessageBus.Grew
variable {p q : Message → Prop} {b b' b'' : MessageBus}

theorem refl (p : Message → Prop) (b : MessageBus) : Grew p b b :=
  ⟨fun cpu => ⟨[], by simp, fun m hm => (by cases hm)⟩, id⟩

theorem trans (h : Grew p b b') (h' : Grew p b' b'') : Grew p b b'' := by
  refine ⟨fun cpu => ?_, h'.sound ∘ h.sound⟩
  obtain ⟨more, e, hm⟩ := h.more cpu
  obtain ⟨more', e', hm'⟩ := h'.more cpu
  refine ⟨more ++ more', by rw [e', e, List.append_assoc], fun m hmem => ?_⟩
  rcases List.mem_append.1 hmem with hmem | hmem
  · exact hm m hmem
  · exact hm' m hmem

theorem imp (h : Grew p b b') (hpq : ∀ m, p m → q m) : Grew q b b' := by
  refine ⟨fun cpu => ?_, h.sound⟩
  obtain ⟨more, e, hm⟩ := h.more cpu
  exact ⟨more, e, fun m hmem => hpq m (hm m hmem)⟩

theorem mem (h : Grew p b b') {cpu : Nat} {m : Message} (hm : m ∈ (b.inbox cpu).waiting) :
    m ∈ (b'.inbox cpu).waiting := by
  obtain ⟨more, e, -⟩ := h.more cpu
  rw [e]
  exact List.mem_append_left _ hm

end MessageBus.Grew

/-- A message that asks for something about an interrupt of a VM. -/
structure Message.About (m : Message) (r : Request) (vm : Vm) (l : Line) : Prop where
  request : m.event = r.code
  vm : (Payload.ofWord m.data).vm.toNat = vm.id
  line : (Payload.ofWord m.data).intid.toNat = l.id
  bank : ∀ home, l.home? = some home → (Payload.ofWord m.data).bank.toNat = home

/-- The receiver finds the interrupt that a message is about. -/
theorem Message.About.find? {m : Message} {r : Request} {vm : Vm} {l : Line} (h : m.About r vm l) (hl : vm.Has l) :
    vm.find? (Payload.ofWord m.data).bank.toNat (Payload.ofWord m.data).intid.toNat = some l := by
  rw [h.line]
  exact Vm.find?_id hl fun home hh => (h.bank home hh).symm

theorem Message.About.congr {m : Message} {r : Request} {vm vm' : Vm} {l : Line} (h : m.About r vm l)
    (hp : vm'.partition = vm.partition) : m.About r vm' l :=
  ⟨h.request, by unfold Vm.id; rw [hp]; exact h.vm, h.line, h.bank⟩

namespace Core

variable {c c' c'' : Core} {l m : Line} {s : Interrupt} {r : ListRegister} {n : Nat}

/-! ## The register that holds an interrupt -/

theorem credits_slot_iff (c : Core) (l : Line) :
    ((c.interrupt l).resident && (c.interrupt l).ownedBy c.vcpu) = true ↔
      c.vm.Credits c.vcpu l (c.interrupt l).slot := by
  rw [Bool.and_eq_true, Interrupt.ownedBy, beq_iff_eq]
  exact ⟨fun h => ⟨h.2, h.1, rfl⟩, fun h => ⟨h.2.1, h.1⟩⟩

theorem held?_eq (c : Core) (l : Line) :
    c.held? l =
      if ((c.interrupt l).resident && (c.interrupt l).ownedBy c.vcpu) = true then
        if (c.interface.read (c.interrupt l).slot).names l.id = true then
          some (c.interface.read (c.interrupt l).slot)
        else none
      else none := rfl

theorem held?_eq_some_iff (c : Core) (l : Line) (r : ListRegister) :
    c.held? l = some r ↔ ∃ n, c.vm.Credits c.vcpu l n ∧ c.interface.read n = r ∧ r.names l.id = true := by
  rw [held?_eq]
  constructor
  · intro h
    split at h
    next hc =>
      split at h
      next hn => cases h; exact ⟨_, (c.credits_slot_iff l).1 hc, rfl, hn⟩
      next => cases h
    next => cases h
  · rintro ⟨n, hc, rfl, hn⟩
    have hs : (c.interrupt l).slot = n := hc.2.2
    subst hs
    rw [if_pos ((c.credits_slot_iff l).2 hc), if_pos hn]

theorem Sound.held? (h : c.Sound) (hl : c.vm.Has l) (hc : c.vm.Credits c.vcpu l n) :
    c.held? l = some (c.interface.read n) := by
  have hn := (h.seated.seat l n hl hc).names
  rw [hc.2.2] at hn
  exact (c.held?_eq_some_iff l _).2 ⟨n, hc, rfl, hn⟩

theorem held?_of_off (off : (c.interrupt l).resident = false) : c.held? l = none := by
  simp only [held?, off, Bool.false_and, Bool.false_eq_true, if_false]

theorem stateOf_of_off (off : (c.interrupt l).resident = false) : c.stateOf l = (c.interrupt l).state := by
  unfold stateOf
  rw [held?_of_off off]

theorem held?_congr (hv : c'.vcpu = c.vcpu) (hi : c'.interrupt l = c.interrupt l)
    (hr : ∀ n, c.vm.Credits c.vcpu l n → c'.interface.read n = c.interface.read n) : c'.held? l = c.held? l := by
  rw [held?_eq, held?_eq, hi, hv]
  split
  next hc => rw [hr _ ((c.credits_slot_iff l).1 hc)]
  next => rfl

theorem stateOf_congr (hi : c'.interrupt l = c.interrupt l) (hh : c'.held? l = c.held? l) :
    c'.stateOf l = c.stateOf l := by
  unfold stateOf
  rw [hh, hi]

theorem takenBack_congr (hp : c'.vm.partition = c.vm.partition) (hi : c'.interrupt l = c.interrupt l)
    (r : ListRegister) : c'.takenBack l r = c.takenBack l r := by
  unfold takenBack
  rw [hi, Vm.countsRequesters_congr hp]

theorem resident_takenBack (c : Core) (l : Line) (r : ListRegister) : (c.takenBack l r).resident = false := by
  unfold takenBack
  split <;> rfl

/-! ## What becomes of the others -/

/-- What became of an interrupt that a core did not have in hand. -/
inductive Fate (c c' : Core) (m : Line) : Prop
  | kept (record : c'.interrupt m = c.interrupt m) (held : c'.held? m = c.held? m)
  | evicted (r : ListRegister) (held : c.held? m = some r) (busy : r.state.isIdle = false)
    (record : c'.interrupt m =
      Interrupt.release { c.takenBack m r with spilled := true } c.vm.version m c.vcpu)
    (pending : (c.takenBack m r).state.pending = true → c'.interface.control.noPending = true)
    (active : (c.takenBack m r).state.active = true → c'.interface.control.underflow = true)
  | settled (r : ListRegister) (held : c.held? m = some r) (empty : r.isEmpty = true)
    (record : c'.interrupt m =
      Interrupt.release { c.interrupt m with resident := false, state := .idle } c.vm.version m c.vcpu)

theorem resident_release (s : Interrupt) (version : GicVersion) (l : Line) (v : Nat) :
    (s.release version l v).resident = s.resident := by
  unfold Interrupt.release
  split <;> rfl

theorem Fate.trans (h : Fate c c' m) (h' : Fate c' c'' m) (same : Same c c')
    (kept : Control.Kept c'.interface.control c''.interface.control) : Fate c c'' m := by
  cases h with
  | kept hi hh =>
    cases h' with
    | kept hi' hh' => exact .kept (hi'.trans hi) (hh'.trans hh)
    | evicted r hr hb hi' hp ha =>
      rw [takenBack_congr same.partition hi] at hi' hp ha
      rw [Vm.version_congr same.partition, same.vcpu] at hi'
      exact .evicted r (hh ▸ hr) hb hi' hp ha
    | settled r hr he hi' =>
      rw [Vm.version_congr same.partition, same.vcpu, hi] at hi'
      exact .settled r (hh ▸ hr) he hi'
  | evicted r hr hb hi hp ha =>
    have off : (c'.interrupt m).resident = false := by
      rw [hi, resident_release]
      exact resident_takenBack c m r
    cases h' with
    | kept hi' hh' => exact .evicted r hr hb (hi'.trans hi) (kept.noPending ∘ hp) (kept.underflow ∘ ha)
    | evicted r' hr' => rw [held?_of_off off] at hr'; cases hr'
    | settled r' hr' => rw [held?_of_off off] at hr'; cases hr'
  | settled r hr he hi =>
    have off : (c'.interrupt m).resident = false := by rw [hi, resident_release]
    cases h' with
    | kept hi' hh' => exact .settled r hr he (hi'.trans hi)
    | evicted r' hr' => rw [held?_of_off off] at hr'; cases hr'
    | settled r' hr' => rw [held?_of_off off] at hr'; cases hr'

/-- An operation that has one interrupt in hand, and what it leaves of the rest. -/
structure Frame (l : Line) (c c' : Core) : Prop extends Same c c' where
  fate : ∀ m, c.vm.Has m → m ≠ l → Fate c c' m
  occupant : ∀ v n, v ≠ c.vcpu → c'.vm.occupant? v n = c.vm.occupant? v n
  control : Control.Kept c.interface.control c'.interface.control
  posted : MessageBus.Grew (·.About .route c.vm l) c.bus c'.bus

theorem Frame.refl (l : Line) (c : Core) : Frame l c c where
  toSame := .refl c
  fate := fun _ _ _ => .kept rfl rfl
  occupant := fun _ _ _ => rfl
  control := .refl _
  posted := .refl _ _

theorem Frame.trans (h : Frame l c c') (h' : Frame l c' c'') : Frame l c c'' where
  toSame := h.toSame.trans h'.toSame
  fate := fun m hm hml =>
    (h.fate m hm hml).trans (h'.fate m ((Vm.has_congr h.partition m).2 hm) hml) h.toSame h'.control
  occupant := fun v n hv => (h'.occupant v n (by rw [h.vcpu]; exact hv)).trans (h.occupant v n hv)
  control := h.control.trans h'.control
  posted := h.posted.trans (h'.posted.imp fun _ ha => ha.congr h.partition.symm)

theorem Frame.of_kept (same : Same c c') (record : ∀ m, m ≠ l → c'.interrupt m = c.interrupt m)
    (read : ∀ m n, c.vm.Has m → m ≠ l → c.vm.Credits c.vcpu m n → c'.interface.read n = c.interface.read n)
    (occupant : ∀ v n, v ≠ c.vcpu → c'.vm.occupant? v n = c.vm.occupant? v n)
    (control : Control.Kept c.interface.control c'.interface.control) (bus : c'.bus = c.bus) : Frame l c c' where
  toSame := same
  fate := fun m hm hml => .kept (record m hml) (held?_congr same.vcpu (record m hml) fun n hc => read m n hm hml hc)
  occupant := occupant
  control := control
  posted := by rw [bus]; exact .refl _ _

theorem frame_setInterrupt (c : Core) (l : Line) (s : Interrupt) : Frame l c (c.setInterrupt l s) :=
  .of_kept (same_setInterrupt c l s)
    (fun m hm => by rw [interrupt_setInterrupt, if_neg (Ne.symm hm)]) (fun _ _ _ _ _ => rfl)
    (fun _ _ _ => Vm.occupant?_setInterrupt ..) (.refl _) rfl

theorem frame_claim (c : Core) (l : Line) : Frame l c (c.claim l) := frame_setInterrupt ..

theorem frame_release (c : Core) (l : Line) : Frame l c (c.release l) := frame_setInterrupt ..

theorem frame_unspill (c : Core) (l : Line) : Frame l c (c.unspill l) :=
  .of_kept ⟨rfl, rfl, rfl, Vm.partition_unpark ..⟩
    (fun m hm => by rw [interrupt_unspill, if_neg (Ne.symm hm)]) (fun _ _ _ _ _ => rfl)
    (fun _ _ _ => Vm.occupant?_unpark ..) (.refl _) rfl

theorem frame_modifyControl (l : Line) {f : Control → Control} (hf : Control.Kept c.interface.control
    (f c.interface.control)) : Frame l c (c.modifyControl f) :=
  .of_kept ⟨rfl, rfl, rfl, rfl⟩ (fun _ _ => rfl) (fun _ _ _ _ _ => rfl) (fun _ _ _ => rfl) hf rfl

theorem kept_wantMaintenance (c : Core) (s : Interrupt.State) :
    Control.Kept c.interface.control (c.wantMaintenance s).interface.control := by
  refine ⟨fun h => ?_, fun h => ?_, rfl, rfl, rfl⟩
  · show (c.interface.control.noPending || s.pending) = true
    rw [h, Bool.true_or]
  · show (c.interface.control.underflow || s.active) = true
    rw [h, Bool.true_or]

theorem frame_spill (c : Core) (l : Line) : Frame l c (c.spill l) :=
  .of_kept ⟨rfl, rfl, rfl, Vm.partition_park ..⟩
    (fun m hm => by rw [interrupt_spill, if_neg (Ne.symm hm)]) (fun _ _ _ _ _ => rfl)
    (fun _ _ _ => Vm.occupant?_park ..) (kept_wantMaintenance c _) rfl

end Core
end VirtualGic
