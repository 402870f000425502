import VirtualGic.Proofs.Handling
/-!
# The operations on one interrupt

Writing a field, injecting a hardware interrupt, deactivating a spilled interrupt, retiring a list register, refilling
one and accepting an offer: each takes one interrupt in hand (`grasp`), changes its record and ends as `Core.Final`
says.  `Core.Made` says what the record was made from.
-/
namespace VirtualGic

def Interrupt.raised (s : Interrupt) : Interrupt := { s with state := { s.state with pending := true } }

def Interrupt.deactivated (s : Interrupt) : Interrupt := { s with state := { s.state with active := false } }

namespace Core

variable {c d : Core} {l : Line} {s t : Interrupt} {n : Nat} {f : Interrupt → Interrupt}

/-- Claim an interrupt and take it out of its list register. -/
def grasp (c : Core) (l : Line) : Core := (c.claim l).withdraw l

/-- Change the record of an interrupt in hand, which leaves its spill list once it is idle. -/
def edit (c : Core) (l : Line) (s : Interrupt) : Core :=
  if s.spilled && s.state.isIdle then (c.setInterrupt l s).unspill l else c.setInterrupt l s

def trimmed (s : Interrupt) : Interrupt := { s with spilled := s.spilled && !s.state.isIdle }

/-- The record that an interrupt has once this core has taken it out of its list register. -/
def recalled (c : Core) (l : Line) : Interrupt :=
  match c.held? l with
  | some r => c.takenBack l r
  | none => c.interrupt l

/-- What a record in hand was made from: what the interrupt's record is out of its list register. -/
structure Made (c : Core) (l : Line) (f : Interrupt → Interrupt) (s : Interrupt) : Prop where
  source : ∃ t, (c.recalled l).Agrees True t ∧ (f t).Agrees True s

/-! ## Records taken back -/

theorem recalled_of_held {r : ListRegister} (h : c.held? l = some r) : c.recalled l = c.takenBack l r := by
  unfold recalled
  rw [h]

theorem recalled_of_off (off : (c.interrupt l).resident = false) : c.recalled l = c.interrupt l := by
  unfold recalled
  rw [held?_of_off off]

theorem sameSettings_recalled (c : Core) (l : Line) : (c.interrupt l).SameSettings (c.recalled l) := by
  unfold recalled
  split
  next => exact sameSettings_takenBack ..
  next => exact .refl _

theorem state_takenBack (plain : c.vm.countsRequesters l = false) (r : ListRegister) :
    (c.takenBack l r).state = r.state := by
  simp only [takenBack, plain, Bool.false_eq_true, if_false]

theorem state_recalled (plain : c.vm.countsRequesters l = false) : (c.recalled l).state = c.stateOf l := by
  unfold recalled stateOf
  cases c.held? l with
  | some r => exact state_takenBack plain r
  | none => rfl

theorem agrees_takenBack {whole : Prop} (hp : d.vm.partition = c.vm.partition)
    (h : (c.interrupt l).Agrees whole (d.interrupt l)) (r : ListRegister) :
    (c.takenBack l r).Agrees whole (d.takenBack l r) := by
  have settings := ((sameSettings_takenBack c l r).symm.trans h.toSameSettings).trans (sameSettings_takenBack d l r)
  refine ⟨settings, fun w => ?_, fun w => ?_⟩ <;>
  · simp only [takenBack, ListRegister.restoreRequest, Vm.countsRequesters_congr hp]
    split <;> simp only [h.requesters w]

theorem agrees_recalled {whole : Prop} (hp : d.vm.partition = c.vm.partition)
    (h : (c.interrupt l).Agrees whole (d.interrupt l)) (held : d.held? l = c.held? l) :
    (c.recalled l).Agrees whole (d.recalled l) := by
  unfold recalled
  rw [held]
  split
  next => exact agrees_takenBack hp h _
  next => exact h

/-! ## Taking in hand -/

theorem claimed (h : c.mayClaim l = true) :
    (c.claim l).interrupt l = { c.interrupt l with owner := some c.vcpu } := by
  rw [interrupt_claim, if_pos rfl, Interrupt.claim]
  exact if_pos h

theorem held?_claim (h : c.Sound) (hl : c.vm.Has l) (may : c.mayClaim l = true) : (c.claim l).held? l = c.held? l := by
  rcases (c.mayClaim_iff l).1 may with ho | ho
  · have off := h.off_of_free hl ho
    rw [held?_of_off off]
    refine held?_of_off ?_
    rw [claimed may]
    exact off
  · refine held?_congr rfl ?_ (fun _ _ => rfl)
    rw [claimed may, ← ho]

theorem has_claim (hl : c.vm.Has l) : (c.claim l).vm.Has l := (Vm.has_congr (frame_claim c l).partition l).2 hl

theorem inHand_claim (h : c.Sound) (hl : c.vm.Has l) (may : c.mayClaim l = true)
    (off : (c.interrupt l).resident = false) : (c.claim l).InHand l := by
  refine ⟨h.claim hl, has_claim hl, ?_, ?_⟩ <;> rw [claimed may]
  · rfl
  · exact off

theorem inHand_grasp (h : c.Sound) (hl : c.vm.Has l) (may : c.mayClaim l = true) : (c.grasp l).InHand l :=
  inHand_withdraw (h.claim hl) (has_claim hl) (by rw [claimed may]; rfl)

theorem frame_grasp (h : c.Sound) (hl : c.vm.Has l) (may : c.mayClaim l = true) : Frame l c (c.grasp l) :=
  (frame_claim c l).trans (frame_withdraw (h.claim hl) (has_claim hl) (by rw [claimed may]; rfl))

/-- **What is taken in hand has the record that it has out of its list register.** -/
theorem made_grasp (h : c.Sound) (hl : c.vm.Has l) (may : c.mayClaim l = true) : Made c l id ((c.grasp l).interrupt l) := by
  have hi : (c.grasp l).interrupt l = (c.claim l).recalled l :=
    interrupt_withdraw (h.claim hl) (has_claim hl) (by rw [claimed may]; rfl)
  have hc : (c.interrupt l).Agrees True ((c.claim l).interrupt l) := by
    rw [claimed may]
    exact ⟨⟨rfl, rfl, rfl, rfl, rfl, rfl, rfl, rfl⟩, fun _ => rfl, fun _ => rfl⟩
  refine ⟨(c.grasp l).interrupt l, ?_, .refl _ _⟩
  rw [hi]
  exact agrees_recalled (frame_claim c l).partition hc (held?_claim h hl may)

theorem made_claim (h : c.Sound) (hl : c.vm.Has l) (may : c.mayClaim l = true)
    (off : (c.interrupt l).resident = false) : Made c l id ((c.claim l).interrupt l) := by
  have := made_grasp h hl may
  rw [grasp, withdraw_of_off (by rw [claimed may]; exact off)] at this
  exact this

/-! ## Changing a record in hand -/

theorem agrees_trimmed (s : Interrupt) : s.Agrees True (trimmed s) :=
  ⟨⟨rfl, rfl, rfl, rfl, rfl, rfl, rfl, rfl⟩, fun _ => rfl, fun _ => rfl⟩

theorem Made.edited (h : Made c l id t) (f : Interrupt → Interrupt) : Made c l f (trimmed (f t)) := by
  obtain ⟨u, hu, ht⟩ := h
  exact ⟨t, hu.trans ht, agrees_trimmed _⟩

/-- **An interrupt in hand may be given any record** that agrees on where it is. -/
theorem inHand_edit (h : c.InHand l) (owner : s.owner = (c.interrupt l).owner) (off : s.resident = false)
    (hardware : s.hardware = (c.interrupt l).hardware) (spilled : s.spilled = (c.interrupt l).spilled) :
    (c.edit l s).InHand l ∧ Frame l c (c.edit l s) ∧ (c.edit l s).interrupt l = trimmed s := by
  have hr := h.sound.records l h.has
  have lawful : (trimmed s).Lawful c.vm l := by
    refine .of_off off (fun v hv => hr.owner_lt v (by rw [← owner]; exact hv))
      (fun h2 home hh => owner.trans (hr.home_owner h2 home hh)) (fun hs => ?_) (by rw [← hr.passed, ← hardware]; rfl)
    simp only [trimmed, Bool.and_eq_true, Bool.not_eq_true'] at hs
    exact hs.2
  have mine : s.owner = some c.vcpu := owner.trans h.mine
  unfold edit
  split
  next hidle =>
    rw [Bool.and_eq_true] at hidle
    have htrim : trimmed s = { s with spilled := false } := by simp only [trimmed, hidle.2, Bool.not_true, Bool.and_false]
    have hal := alike_unspill c l s spilled
    have hu := h.sound.unspill h.has
    have hpu : (c.unspill l).vm.partition = c.vm.partition := Vm.partition_unpark ..
    have hiu : (c.unspill l).interrupt l = { c.interrupt l with spilled := false } := by
      rw [interrupt_unspill, if_pos rfl]
    have hs : ((c.unspill l).setInterrupt l { s with spilled := false }).Sound := by
      refine hu.set ?_ (by rw [hiu]; exact h.off) off (by rw [hiu])
      rw [← htrim]
      exact lawful.congr hpu
    have hrec : (((c.setInterrupt l s).unspill l).interrupt l) = { s with spilled := false } := by
      rw [interrupt_unspill, if_pos rfl, interrupt_setInterrupt, if_pos rfl]
    refine ⟨⟨hs.alike hal, ?_, ?_, ?_⟩, ?_, ?_⟩
    · exact (Vm.has_congr ((Vm.partition_unpark ..).trans (Vm.partition_setInterrupt ..)) l).2 h.has
    · rw [hrec]; exact mine
    · rw [hrec]; exact off
    · exact (frame_setInterrupt c l s).trans (frame_unspill ..)
    · rw [hrec, htrim]
  next hbusy =>
    have htrim : trimmed s = s := by
      unfold trimmed
      cases hsp : s.spilled with
      | false => rw [Bool.false_and, ← hsp]
      | true =>
        rw [hsp, Bool.true_and, Bool.not_eq_true] at hbusy
        rw [hbusy, Bool.not_false, Bool.and_true, ← hsp]
    rw [htrim] at lawful ⊢
    have hrec : (c.setInterrupt l s).interrupt l = s := by rw [interrupt_setInterrupt, if_pos rfl]
    refine ⟨⟨h.sound.set lawful h.off off spilled, ?_, ?_, ?_⟩, frame_setInterrupt c l s, hrec⟩
    · exact (Vm.has_congr (Vm.partition_setInterrupt ..) l).2 h.has
    · rw [hrec]; exact mine
    · rw [hrec]; exact off

theorem alike_gic (c : Core) (g : PhysicalGic) : Alike c { c with gic := g } :=
  ⟨⟨rfl, rfl, rfl, rfl⟩, fun _ => rfl, fun _ => rfl, fun _ _ => rfl, rfl⟩

theorem inHand_gic (h : c.InHand l) (g : PhysicalGic) : ({ c with gic := g } : Core).InHand l :=
  ⟨h.sound.alike (alike_gic c g), h.has, h.mine, h.off⟩

theorem frame_gic (c : Core) (l : Line) (g : PhysicalGic) : Frame l c { c with gic := g } :=
  frame_of_alike (alike_gic c g) rfl rfl

theorem ite_gic (p : Prop) [Decidable p] (c : Core) (g : PhysicalGic) :
    ∃ gic, (if p then { c with gic := g } else c) = { c with gic := gic } := by
  by_cases hp : p
  · exact ⟨g, if_pos hp⟩
  · exact ⟨c.gic, if_neg hp⟩

/-- **An edit of an interrupt in hand, delivered and given up.** -/
theorem handled_edit (has : c.vm.Has l) (may : c.mayClaim l = true) (frame : Frame l c d) (h : d.InHand l)
    (owner : s.owner = (d.interrupt l).owner) (off : s.resident = false)
    (hardware : s.hardware = (d.interrupt l).hardware) (spilled : s.spilled = (d.interrupt l).spilled) (g : PhysicalGic) :
    Handled c ((({ d.edit l s with gic := g } : Core).deliver l).release l) l (trimmed s) := by
  obtain ⟨he, hf, hi⟩ := inHand_edit h owner off hardware spilled
  have := handled_finish has may ((frame.trans hf).trans (frame_gic _ l g)) (inHand_gic he g)
  rw [show ({ d.edit l s with gic := g } : Core).interrupt l = trimmed s from hi] at this
  exact this

/-! ## Field writes and injection -/

theorem applyField_eq (c : Core) (g : RegisterGroup) (l : Line) (v : BitVec 64) :
    ∃ gic, c.applyField g l v =
      (({ (c.grasp l).edit l (g.apply (c.grasp l).vm l v ((c.grasp l).interrupt l)) with gic := gic } : Core).deliver
        l).release l := by
  unfold applyField edit grasp
  simp only
  split <;> split <;> exact ⟨_, rfl⟩

theorem handled_applyField (h : c.Sound) (hl : c.vm.Has l) (may : c.mayClaim l = true) (g : RegisterGroup)
    (v : BitVec 64) :
    ∃ s, Handled c (c.applyField g l v) l s ∧ Made c l (g.apply c.vm l v) s := by
  have hg := inHand_grasp h hl may
  have hf := frame_grasp h hl may
  obtain ⟨gic, e⟩ := c.applyField_eq g l v
  obtain ⟨h1, h2, h3, h4⟩ := g.apply_keeps (c.grasp l).vm l v ((c.grasp l).interrupt l)
  have hm := (made_grasp h hl may).edited (g.apply c.vm l v)
  rw [← g.apply_congr hf.partition] at hm
  refine ⟨_, ?_, hm⟩
  rw [e]
  exact handled_edit hl may hf hg h1 (h2.trans hg.off) h4 h3 gic

theorem injectHardware_eq (may : c.mayClaim l = true) :
    ∃ gic, c.injectHardware l =
      (({ (c.grasp l).edit l ((c.grasp l).interrupt l).raised with gic := gic } : Core).deliver l).release l := by
  refine ⟨(c.grasp l).gic, ?_⟩
  unfold injectHardware edit
  rw [if_pos may, if_neg]
  · rfl
  · simp [Interrupt.State.isIdle, Interrupt.raised]

theorem handled_injectHardware (h : c.Sound) (hl : c.vm.Has l) (may : c.mayClaim l = true) :
    ∃ s, Handled c (c.injectHardware l) l s ∧
      Made c l Interrupt.raised s := by
  have hg := inHand_grasp h hl may
  have hf := frame_grasp h hl may
  obtain ⟨gic, e⟩ := injectHardware_eq may
  refine ⟨_, ?_, (made_grasp h hl may).edited _⟩
  rw [e]
  exact handled_edit (s := ((c.grasp l).interrupt l).raised) hl may hf hg rfl hg.off rfl rfl gic

/-! ## Spilled interrupts -/

variable {p : Line → Bool}

theorem of_mem_spilledLines (h : l ∈ c.spilledLines p) :
    c.vm.Has l ∧ l.SeenBy c.vcpu ∧ (c.interrupt l).spilled = true ∧ p l = true := by
  unfold spilledLines at h
  rw [List.mem_filter, List.mem_filterMap, Bool.and_eq_true] at h
  obtain ⟨⟨id, -, hf⟩, hs, hp⟩ := h
  obtain ⟨hl, seen, -⟩ := (Vm.find?_eq_some_iff ..).1 hf
  exact ⟨hl, seen, hs, hp⟩

/-- **What waits is found**, on the list of this vCPU or on the list of the VM. -/
theorem mem_spilledLines_iff (h : c.Sound) (p : Line → Bool) (l : Line) : l ∈ c.spilledLines p ↔
    c.vm.Has l ∧ l.SeenBy c.vcpu ∧ (c.interrupt l).spilled = true ∧ p l = true := by
  refine ⟨of_mem_spilledLines, fun ⟨hl, seen, hs, hp⟩ => ?_⟩
  have hid := c.mem_spilledIds l seen ((h.lists.mem_iff l hl).2 hs)
  unfold spilledLines
  rw [List.mem_filter, List.mem_filterMap, hs, hp]
  exact ⟨⟨l.id, hid, Vm.find?_id hl seen⟩, rfl⟩

theorem firstSpilled?_spec (h : c.firstSpilled? p = some l) :
    c.vm.Has l ∧ l.SeenBy c.vcpu ∧ (c.interrupt l).spilled = true ∧ p l = true :=
  of_mem_spilledLines (firstBest_mem h)

theorem firstSpilled?_eq_none (h : c.Sound) (hn : c.firstSpilled? p = none) (hl : c.vm.Has l) (seen : l.SeenBy c.vcpu)
    (hs : (c.interrupt l).spilled = true) : p l = false := by
  have he : c.spilledLines p = [] := by
    have := isSome_firstBest (fun l m => (⟨(c.interrupt l).priority.toNat, l.id⟩ : Rank).before
      ⟨(c.interrupt m).priority.toNat, m.id⟩) (c.spilledLines p)
    rw [show firstBest _ (c.spilledLines p) = none from hn] at this
    simpa using this
  refine Bool.eq_false_iff.2 fun hp => ?_
  have hm := (mem_spilledLines_iff h p l).2 ⟨hl, seen, hs, hp⟩
  rw [he] at hm
  cases hm

theorem deliver_of_idle (off : (c.interrupt l).resident = false) (idle : (c.interrupt l).state.isIdle = true) :
    c.deliver l = c := by
  rw [deliver_eq, stateOf_of_off off, if_pos]
  rw [idle, Bool.true_or]

theorem deactivateSpilled_of_none
    (hn : (c.firstSpilled? fun l => (c.interrupt l).state.active && c.mayClaim l) = none) : c.deactivateSpilled = c := by
  unfold deactivateSpilled
  rw [hn]

theorem deactivateSpilled_eq (h : c.Sound)
    (hl : (c.firstSpilled? fun l => (c.interrupt l).state.active && c.mayClaim l) = some l) :
    ∃ gic, c.deactivateSpilled =
      (({ (c.claim l).edit l ((c.claim l).interrupt l).deactivated with gic := gic } : Core).deliver l).release l := by
  obtain ⟨-, -, hs, hp⟩ := firstSpilled?_spec hl
  obtain ⟨hhas, -, -, -⟩ := firstSpilled?_spec hl
  rw [Bool.and_eq_true] at hp
  generalize hx : ((c.claim l).interrupt l).deactivated = s
  have hsp : s.spilled = true := by
    rw [← hx, claimed hp.2]
    exact hs
  have off : s.resident = false := by
    rw [← hx, claimed hp.2]
    exact h.off_of_spilled hhas hs
  obtain ⟨gic, hg⟩ := ite_gic (((c.claim l).setInterrupt l s).interrupt l).hardware ((c.claim l).setInterrupt l s)
    (((c.claim l).setInterrupt l s).gic.setActive l.id false)
  have e : c.deactivateSpilled =
      (if (({ (c.claim l).setInterrupt l s with gic := gic } : Core).interrupt l).state.isIdle then
        ({ (c.claim l).setInterrupt l s with gic := gic } : Core).unspill l
      else ({ (c.claim l).setInterrupt l s with gic := gic } : Core).deliver l).release l := by
    rw [← hg, ← hx]
    unfold deactivateSpilled
    rw [hl]
    rfl
  have hi : ({ (c.claim l).setInterrupt l s with gic := gic } : Core).interrupt l = s :=
    (interrupt_setInterrupt ..).trans (if_pos rfl)
  refine ⟨gic, e.trans ?_⟩
  rw [hi, edit, hsp, Bool.true_and]
  cases hidle : s.state.isIdle with
  | true =>
    have hu : ({ ((c.claim l).setInterrupt l s).unspill l with gic := gic } : Core).interrupt l =
        { s with spilled := false } := by
      refine (interrupt_unspill ..).trans ?_
      rw [if_pos rfl, interrupt_setInterrupt, if_pos rfl]
    simp only [if_true]
    rw [deliver_of_idle (by rw [hu]; exact off) (by rw [hu]; exact hidle)]
    rfl
  | false => rfl

/-- **Deactivating** the most important spilled interrupt that is active. -/
theorem handled_deactivateSpilled (h : c.Sound)
    (hl : (c.firstSpilled? fun l => (c.interrupt l).state.active && c.mayClaim l) = some l) :
    ∃ s, Handled c c.deactivateSpilled l s ∧ Made c l Interrupt.deactivated s := by
  obtain ⟨hhas, -, hs, hp⟩ := firstSpilled?_spec hl
  rw [Bool.and_eq_true] at hp
  have off := h.off_of_spilled hhas hs
  have hc := inHand_claim h hhas hp.2 off
  obtain ⟨gic, e⟩ := deactivateSpilled_eq h hl
  rw [e]
  exact ⟨_, handled_edit (s := ((c.claim l).interrupt l).deactivated) hhas hp.2 (frame_claim c l) hc rfl hc.off rfl rfl gic,
    (made_claim h hhas hp.2 off).edited _⟩

/-! ## Placing what was claimed -/

theorem final_of_placed {e : Core} {placed : Bool} (h : c.InHand l) (target : c.isTarget l = true)
    (busy : (c.interrupt l).state.isIdle = false) (hp : Placed c d l placed)
    (record : e.interrupt l = (d.interrupt l).release c.vm.version l c.vcpu) (interface : e.interface = d.interface)
    (vcpu : e.vcpu = d.vcpu) : Final c e l (c.interrupt l) := by
  cases hp with
  | seated n rec held =>
    obtain ⟨-, -, q, hq⟩ := presented_spec h.sound h.has
    have hres : (d.interrupt l).resident = true := by rw [rec]; rfl
    rw [Interrupt.release_of_resident hres] at record
    refine .seated n q (c.presented l).1 target ?_ ?_ (fun soft plain => state_presented h.sound h.has soft plain)
      (Prod.ext rfl hq) busy
    · rw [record, rec, Core.seated, hq]
    · rw [← held]
      exact held?_congr vcpu record fun _ _ => by rw [interface]
  | parked rec pending active =>
    rw [rec] at record
    refine .parked busy target record (fun hp => ?_) (fun ha => ?_) <;> rw [interface]
    · exact pending hp
    · exact active ha

theorem isTarget_claim (may : c.mayClaim l = true) : (c.claim l).isTarget l = c.isTarget l := by
  unfold isTarget
  rw [claimed may, Vm.targets_congr (frame_claim c l).partition]
  rfl

/-- **Refilling** a free slot with an interrupt that this vCPU may claim. -/
theorem handled_refill (h : c.Sound) (hl : c.vm.Has l) (may : c.mayClaim l = true)
    (off : (c.interrupt l).resident = false) (enabled : (c.interrupt l).enabled = true) (target : c.isTarget l = true)
    (busy : (c.interrupt l).state.isIdle = false) (hn : c.interface.freeSlot? = some n) :
    ((c.claim l).place l).2 = true ∧ ∃ s, Handled c ((c.claim l).place l).1 l s ∧ Made c l id s := by
  have hc := inHand_claim h hl may off
  have ht := (isTarget_claim may).trans target
  have hen : ((c.claim l).interrupt l).enabled = true := by rw [claimed may]; exact enabled
  have hb : ((c.claim l).interrupt l).state.isIdle = false := by rw [claimed may]; exact busy
  have hp := placing_place hc hen ht hb
  have hplaced : ((c.claim l).place l).2 = true := by rw [place_of_free hc hen hn]
  refine ⟨hplaced, _, ⟨hl, may, hp.sound, (frame_claim c l).trans hp.frame, ?_, hc.off, ?_, ?_⟩, made_claim h hl may off⟩
  · rw [claimed may]
  · exact (hc.sound.records l hc.has).congr (frame_claim c l).partition.symm
  · have hout := hp.outcome
    rw [hplaced] at hout
    refine (final_of_placed hc ht hb hout ?_ rfl rfl).rebase (frame_claim c l).toSame
    cases hout with
    | seated n rec held =>
      have hres : (((c.claim l).place l).1.interrupt l).resident = true := by rw [rec]; rfl
      exact (Interrupt.release_of_resident hres).symm

/-- **Accepting an offer**: the interrupt is not this vCPU's to take, it is placed, or it is given up again. -/
theorem accept_cases (h : c.Sound) (hl : c.vm.Has l) :
    (c.mayClaim l = false ∧ c.accept l = c) ∨
    (∃ s, Handled c (c.accept l) l s ∧ Made c l id s) ∨
    (c.mayClaim l = true ∧ c.accept l = (c.claim l).release l ∧
      ((c.interrupt l).resident = true ∨ (c.interrupt l).state.isIdle = true ∨ c.isTarget l = false ∨
        (c.interrupt l).enabled = false)) := by
  cases may : c.mayClaim l with
  | false => exact .inl ⟨rfl, by simp only [accept, may, Bool.false_eq_true, if_false]⟩
  | true =>
    refine .inr ?_
    have hres : ((c.claim l).interrupt l).resident = (c.interrupt l).resident := by rw [claimed may]
    have hst : ((c.claim l).interrupt l).state = (c.interrupt l).state := by rw [claimed may]
    simp only [accept, may, if_true, hres, hst, isTarget_claim may]
    cases off : (c.interrupt l).resident with
    | true => exact .inr ⟨trivial, by simp, .inl rfl⟩
    | false =>
      cases busy : (c.interrupt l).state.isIdle with
      | true => exact .inr ⟨trivial, by simp, .inr (.inl rfl)⟩
      | false =>
        cases target : c.isTarget l with
        | false => exact .inr ⟨trivial, by simp, .inr (.inr (.inl rfl))⟩
        | true =>
          have hc := inHand_claim h hl may off
          have ht := (isTarget_claim may).trans target
          have hb : ((c.claim l).interrupt l).state.isIdle = false := by rw [hst]; exact busy
          have hen : ((c.claim l).interrupt l).enabled = (c.interrupt l).enabled := by rw [claimed may]
          simp only [Bool.not_false, Bool.and_true, if_true]
          cases enabled : (c.interrupt l).enabled with
          | false =>
            refine .inr ⟨trivial, ?_, .inr (.inr (.inr rfl))⟩
            have hm : (c.claim l).mayPlace l = false := by rw [mayPlace_eq hc, hen, enabled]
            simp only [place, hm, Bool.false_eq_true, if_false]
          | true =>
            have hp := placing_place hc (hen.trans enabled) ht hb
            refine .inl ⟨_, ⟨hl, may, ?_, ?_, ?_, hc.off, ?_, ?_⟩, made_claim h hl may off⟩
            · exact hp.sound.release ((Vm.has_congr hp.frame.partition l).2 hc.has)
            · exact ((frame_claim c l).trans hp.frame).trans (frame_release ..)
            · rw [claimed may]
            · exact (hc.sound.records l hc.has).congr (frame_claim c l).partition.symm
            · have hf : Final (c.claim l) (((c.claim l).place l).1.release l) l ((c.claim l).interrupt l) := by
                refine final_of_placed hc ht hb hp.outcome ?_ rfl rfl
                rw [interrupt_release, if_pos rfl, Vm.version_congr hp.frame.partition, hp.frame.vcpu]
              exact hf.rebase (frame_claim c l).toSame

/-! ## Retiring a list register -/

def retired (c : Core) (l : Line) (r : ListRegister) : Interrupt :=
  let s := { c.interrupt l with resident := false, state := r.state }
  if c.vm.countsRequesters l && s.requesters != 0 then { s with state := { s.state with pending := true } } else s

theorem retired_spec (c : Core) (l : Line) (r : ListRegister) :
    (c.retired l r).owner = (c.interrupt l).owner ∧ (c.retired l r).resident = false ∧
      (c.retired l r).spilled = (c.interrupt l).spilled ∧ (c.interrupt l).SameSettings (c.retired l r) ∧
      (c.vm.countsRequesters l = false → (c.retired l r).state = r.state) := by
  unfold retired
  simp only
  split
  next hc =>
    rw [Bool.and_eq_true] at hc
    exact ⟨rfl, rfl, rfl, ⟨rfl, rfl, rfl, rfl, rfl, rfl, rfl, rfl⟩, fun h => by rw [h] at hc; cases hc.1⟩
  next => exact ⟨rfl, rfl, rfl, ⟨rfl, rfl, rfl, rfl, rfl, rfl, rfl, rfl⟩, fun _ => rfl⟩

theorem retired_eq {r : ListRegister} (idle : r.state.isIdle = true) : c.retired l r = c.takenBack l r := by
  have hr := (Interrupt.State.isIdle_iff _).1 idle
  unfold retired takenBack ListRegister.restoreRequest
  cases c.vm.countsRequesters l with
  | false => rfl
  | true =>
    simp only [hr, Interrupt.State.idle, Bool.true_and, Bool.false_eq_true, if_false, Bool.false_or, if_true]
    split
    next h => rw [h]
    next h => rw [Bool.not_eq_true] at h; rw [h]

theorem retire_eq (h : c.Sound) (hl : c.vm.Has l) (hc : c.vm.Credits c.vcpu l n) :
    c.retire n =
      if (c.retired l (c.interface.read n)).state.isIdle then
        ((c.writeSlot n .empty).setInterrupt l (c.retired l (c.interface.read n))).release l
      else ((c.writeSlot n .empty).setInterrupt l (c.retired l (c.interface.read n))).deliver l := by
  have hn := (h.seated.seat l n hl hc).names
  rw [hc.2.2, ListRegister.names, beq_iff_eq] at hn
  have hf : (c.writeSlot n .empty).find? (c.interface.read n).intid.toNat = some l := by
    rw [hn]
    exact (h.find?_occupant hl hc).2
  have hcr : (c.writeSlot n .empty).isCredited l n = true := (c.isCredited_iff l n).2 hc
  unfold retire
  simp only [hf, hcr, if_true, interrupt_writeSlot, vm_writeSlot]
  rfl

/-- An interrupt that keeps a set of requesters is banked, and stays with its home. -/
theorem not_releasable_of_counts (hc : c.vm.countsRequesters l = true) (hl : c.vm.Has l) (s : Interrupt) (v : Nat) :
    s.releasable c.vm.version l v = false := by
  simp only [Vm.countsRequesters, Interrupt.countsRequesters, Bool.and_eq_true, Line.isSoftware, isSoftwareId,
    decide_eq_true_eq] at hc
  have hb : l.isBanked = true := by
    rw [hl.2.1]
    unfold privateInterrupts
    unfold softwareInterrupts at hc
    omega
  simp only [Interrupt.releasable, hc.1, hb, Bool.and_self, Bool.not_true, Bool.and_false]

/-- What a list register held is in hand once the register is cleared. -/
theorem inHand_retired (h : c.Sound) (hl : c.vm.Has l) (hc : c.vm.Credits c.vcpu l n) :
    ((c.writeSlot n .empty).setInterrupt l (c.retired l (c.interface.read n))).InHand l ∧
      Frame l c ((c.writeSlot n .empty).setInterrupt l (c.retired l (c.interface.read n))) ∧
      ((c.writeSlot n .empty).setInterrupt l (c.retired l (c.interface.read n))).interrupt l =
        c.retired l (c.interface.read n) := by
  obtain ⟨h1, h2, h3, h4, -⟩ := c.retired_spec l (c.interface.read n)
  have hr := h.records l hl
  have hunsp : (c.retired l (c.interface.read n)).spilled = false := h3.trans (hr.resident_unspilled hc.2.1)
  have lawful : (c.retired l (c.interface.read n)).Lawful c.vm l := by
    refine .of_off h2 (fun v hv => hr.owner_lt v (by rw [← h1]; exact hv))
      (fun hv home hh => h1.trans (hr.home_owner hv home hh)) (fun hs => ?_) (by rw [h4.hardware]; exact hr.passed)
    rw [hunsp] at hs
    cases hs
  have hread : ∀ m, m ≠ n → (c.interface.write n .empty).read m = c.interface.read m :=
    fun m hm => read_write_empty _ _ m hm _
  have hi := (interrupt_setInterrupt (c.writeSlot n .empty) l l (c.retired l (c.interface.read n))).trans (if_pos rfl)
  have hf : Frame l c ((c.writeSlot n .empty).setInterrupt l (c.retired l (c.interface.read n))) :=
    frame_vacate h hl hc hread (.refl _)
  refine ⟨⟨?_, (Vm.has_congr hf.partition l).2 hl, ?_, ?_⟩, hf, hi⟩
  · exact h.vacate hl hc (CpuInterface.count_write ..) hread (isEmpty_write_empty ..) lawful h2 hunsp
  · rw [hi]
    exact h1.trans hc.1
  · rw [hi]
    exact h2

/-- **Retiring a completed list register.** -/
theorem handled_retire (h : c.Sound) (completed : (c.interface.read n).isCompleted = true) :
    ∃ l s, Handled c (c.retire n) l s ∧ Made c l id s ∧
      ∀ m, m ≠ n → (c.interface.read m).isCompleted = true → (c.retire n).interface.read m = c.interface.read m := by
  have hidle := ListRegister.isIdle_of_isCompleted completed
  obtain ⟨l, hl, -, -, hc⟩ := h.seated.held n (ListRegister.not_isEmpty_of_isCompleted completed)
  obtain ⟨h1, h2, -, -, h5⟩ := c.retired_spec l (c.interface.read n)
  obtain ⟨hd, hf, hi⟩ := inHand_retired h hl hc
  have lawful := (hd.sound.records l hd.has).congr hf.partition.symm
  rw [hi] at lawful
  have hread : ∀ m, m ≠ n → (c.interface.write n .empty).read m = c.interface.read m :=
    fun m hm => read_write_empty _ _ m hm _
  generalize he : c.retired l (c.interface.read n) = s at *
  have mine : s.owner = some c.vcpu := h1.trans hc.1
  have may : c.mayClaim l = true := (c.mayClaim_iff l).2 (.inr hc.1)
  have made : Made c l id s := by
    refine ⟨s, ?_, .refl _ _⟩
    rw [recalled_of_held (h.held? hl hc), ← he, retired_eq hidle]
    exact .refl _ _
  have hdel := delivering_deliver hd
  refine ⟨l, s, ?_, made, fun m hm hcm => ?_⟩ <;> rw [retire_eq h hl hc, he]
  · have fin := handled_finish hl may hf hd
    rw [hi] at fin
    cases idle : s.state.isIdle with
    | true =>
      rw [deliver_of_idle (by rw [hi]; exact h2) (by rw [hi]; exact idle)] at fin
      exact fin
    | false =>
      -- what is pending again keeps a set of requesters, and is not given up
      have counts : c.vm.countsRequesters l = true := by
        cases hcount : c.vm.countsRequesters l with
        | true => rfl
        | false =>
          rw [h5 hcount] at idle
          exact absurd (hidle.symm.trans idle) (by decide)
      refine ⟨hl, may, hdel.sound, hf.trans hdel.frame, mine, h2, lawful, ?_⟩
      have hfin : Final _ (((c.writeSlot n .empty).setInterrupt l s).deliver l) l _ :=
        final_of_delivered hd hdel.outcome (Interrupt.release_of_not_releasable ?_).symm rfl rfl rfl
      · rw [hi] at hfin
        exact hfin.rebase hf.toSame
      · rw [Vm.version_congr hf.partition]
        exact not_releasable_of_counts counts hl _ _
  · have hk : ((c.writeSlot n .empty).setInterrupt l s).interface.read m = c.interface.read m := hread m hm
    split
    next => exact hk
    next => exact (hdel.completed m (by rw [hk]; exact hcm)).trans hk

end Core
end VirtualGic
