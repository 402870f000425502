import VirtualGic.Proofs.Frame
/-!
# Leaving a list register

`withdraw` takes an interrupt out of its list register and keeps its state; `evict` does so for the occupant of a
slot that is needed, `settle` for one that the guest has completed.  The core stays sound, and only these interrupts
notice.
-/
namespace VirtualGic

namespace Vm

theorem Seated.unique {vm : Vm} {vcpu n : Nat} {f : CpuInterface} {k l : Line} (h : vm.Seated vcpu f) (hk : vm.Has k)
    (hl : vm.Has l) (sk : k.SeenBy vcpu) (sl : l.SeenBy vcpu) (ck : vm.Credits vcpu k n) (cl : vm.Credits vcpu l n) :
    k = l := by
  have hnk := (h.seat k n hk ck).names
  have hnl := (h.seat l n hl cl).names
  rw [ck.2.2, ListRegister.names, beq_iff_eq] at hnk
  rw [cl.2.2, ListRegister.names, beq_iff_eq] at hnl
  exact eq_of_id hk hl sk sl (hnk.symm.trans hnl)

end Vm

namespace Core

/-- The running vCPU owns an interrupt that is in no list register. -/
structure InHand (c : Core) (l : Line) : Prop where
  sound : c.Sound
  has : c.vm.Has l
  mine : (c.interrupt l).owner = some c.vcpu
  off : (c.interrupt l).resident = false

variable {c c' : Core} {k l : Line} {s : Interrupt} {r : ListRegister} {f : CpuInterface} {n : Nat}

theorem Sound.unique (h : c.Sound) (hk : c.vm.Has k) (hl : c.vm.Has l) (ck : c.vm.Credits c.vcpu k n)
    (cl : c.vm.Credits c.vcpu l n) : k = l :=
  h.seated.unique hk hl (h.seen_of_credits hk ck) (h.seen_of_credits hl cl) ck cl

/-! ## Emptying a slot -/

/-- The interrupt that a slot is credited to leaves it. -/
theorem Sound.vacate (h : c.Sound) (hl : c.vm.Has l) (hc : c.vm.Credits c.vcpu l n)
    (count : f.count = c.interface.count) (read : ∀ k, k ≠ n → f.read k = c.interface.read k)
    (empty : (f.read n).isEmpty = true) (lawful : s.Lawful c.vm l) (off : s.resident = false)
    (unspilled : s.spilled = false) : (({ c with interface := f } : Core).setInterrupt l s).Sound := by
  have hp : (({ c with interface := f } : Core).setInterrupt l s).vm.partition = c.vm.partition :=
    Vm.partition_setInterrupt ..
  have hi : ∀ k, k ≠ l → (c.vm.setInterrupt l s).interrupt k = c.vm.interrupt k := fun k hk => by
    rw [Vm.interrupt_setInterrupt, if_neg (Ne.symm hk)]
  refine ⟨h.station.same ⟨rfl, rfl, rfl, hp⟩, fun k hk => ?_, ?_, ?_⟩
  · rw [interrupt_setInterrupt]
    split
    next e => subst e; exact lawful.congr hp
    next => exact (h.records k ((Vm.has_congr hp k).1 hk)).congr hp
  · refine h.lists.congr hp (fun home => Vm.spillList_setInterrupt ..) (fun k _ => ?_)
    rw [vm_setInterrupt, Vm.interrupt_setInterrupt]
    split
    next e => subst e; exact unspilled.trans ((h.records l hl).resident_unspilled hc.2.1).symm
    next => rfl
  · refine h.seated.vacate (fun k m hk hck => h.seen_of_credits hk hck) hl hc hp hi ?_
      (fun m => Vm.occupant?_setInterrupt ..) count read empty
    rw [vm_setInterrupt, Vm.interrupt_setInterrupt, if_pos rfl]
    exact off

theorem frame_vacate (h : c.Sound) (hl : c.vm.Has l) (hc : c.vm.Credits c.vcpu l n)
    (read : ∀ k, k ≠ n → f.read k = c.interface.read k)
    (control : Control.Kept c.interface.control f.control) :
    Frame l c (({ c with interface := f } : Core).setInterrupt l s) := by
  refine .of_kept ⟨rfl, rfl, rfl, Vm.partition_setInterrupt ..⟩ (fun k hk => ?_) (fun k m hk hkl hck => ?_)
    (fun v m _ => Vm.occupant?_setInterrupt ..) control rfl
  · rw [interrupt_setInterrupt, if_neg (Ne.symm hk)]
    rfl
  · refine read m ?_
    rintro rfl
    exact hkl (h.unique hk hl hck hc)

theorem read_write_empty (f : CpuInterface) (n k : Nat) (hk : k ≠ n) (r : ListRegister) :
    (f.write n r).read k = f.read k := by
  rw [CpuInterface.read_write, if_neg (fun e => hk e.1.symm)]

theorem isEmpty_empty : ListRegister.empty.isEmpty = true := by decide

theorem isEmpty_write_empty (f : CpuInterface) (n : Nat) : ((f.write n .empty).read n).isEmpty = true := by
  rw [CpuInterface.read_write]
  split
  next => exact isEmpty_empty
  next hn =>
    have hn : ¬ n < f.count := fun h => hn ⟨rfl, h⟩
    unfold CpuInterface.read
    rw [Array.getD_eq_getD_getElem?, Array.getElem?_eq_none (Nat.le_of_not_lt hn)]
    exact isEmpty_empty

/-! ## Withdrawing -/

theorem withdraw_of_off (off : (c.interrupt l).resident = false) : c.withdraw l = c := by
  simp only [withdraw, off, Bool.false_and, Bool.false_eq_true, if_false]

theorem withdraw_of_other (other : (c.interrupt l).owner ≠ some c.vcpu) : c.withdraw l = c := by
  have ho : (c.interrupt l).ownedBy c.vcpu = false := by
    rw [Interrupt.ownedBy, beq_eq_false_iff_ne]
    exact other
  simp only [withdraw, ho, Bool.and_false, Bool.false_eq_true, if_false]

theorem withdraw_of_held (h : c.held? l = some r) :
    c.withdraw l =
      if needsPresenting (c.takenBack l r) then
        ((c.writeSlot (c.interrupt l).slot .empty).setInterrupt l (c.takenBack l r)).wantNoPending
      else (c.writeSlot (c.interrupt l).slot .empty).setInterrupt l (c.takenBack l r) := by
  obtain ⟨n, hc, -, -⟩ := (c.held?_eq_some_iff l r).1 h
  have hs : (c.interrupt l).slot = n := hc.2.2
  subst hs
  simp only [withdraw, (c.credits_slot_iff l).2 hc, if_true, h]

theorem owner_takenBack (c : Core) (l : Line) (r : ListRegister) :
    (c.takenBack l r).owner = (c.interrupt l).owner := by
  unfold takenBack
  split <;> rfl

theorem spilled_takenBack (c : Core) (l : Line) (r : ListRegister) :
    (c.takenBack l r).spilled = (c.interrupt l).spilled := by
  unfold takenBack
  split <;> rfl

theorem hardware_takenBack (c : Core) (l : Line) (r : ListRegister) :
    (c.takenBack l r).hardware = (c.interrupt l).hardware := by
  unfold takenBack
  split <;> rfl

theorem busy_takenBack (c : Core) (l : Line) (r : ListRegister) (busy : r.state.isIdle = false) :
    (c.takenBack l r).state.isIdle = false := by
  unfold takenBack
  simp only [Interrupt.State.isIdle] at busy ⊢
  split
  next => simp only [ListRegister.restoreRequest]; cases hp : r.state.pending <;> simp_all
  next => exact busy

theorem Sound.lawful_takenBack (h : c.Sound) (hl : c.vm.Has l) (on : (c.interrupt l).resident = true) (r : ListRegister) :
    (c.takenBack l r).Lawful c.vm l := by
  have hr := h.records l hl
  refine .of_off (resident_takenBack c l r) (fun v hv => hr.owner_lt v (by rw [← owner_takenBack c l r]; exact hv))
    (fun h2 home hh => by rw [owner_takenBack]; exact hr.home_owner h2 home hh) (fun hs => ?_)
    (by rw [hardware_takenBack]; exact hr.passed)
  rw [spilled_takenBack, hr.resident_unspilled on] at hs
  cases hs

theorem alike_modifyControl (c : Core) (f : Control → Control) : Alike c (c.modifyControl f) :=
  ⟨⟨rfl, rfl, rfl, rfl⟩, fun _ => rfl, fun _ => rfl, fun _ _ => rfl, rfl⟩

theorem Sound.withdraw (h : c.Sound) (hl : c.vm.Has l) : (c.withdraw l).Sound := by
  by_cases hc : c.vm.Credits c.vcpu l (c.interrupt l).slot
  · have hs : ((c.writeSlot (c.interrupt l).slot .empty).setInterrupt l
        (c.takenBack l (c.interface.read (c.interrupt l).slot))).Sound :=
      h.vacate hl hc (CpuInterface.count_write ..) (fun k hk => read_write_empty _ _ k hk _) (isEmpty_write_empty ..)
        (h.lawful_takenBack hl hc.2.1 _) (resident_takenBack ..)
        ((spilled_takenBack ..).trans ((h.records l hl).resident_unspilled hc.2.1))
    rw [withdraw_of_held (h.held? hl hc)]
    split
    next => exact hs.alike (alike_modifyControl ..)
    next => exact hs
  · have e : c.withdraw l = c := by
      by_cases ho : (c.interrupt l).owner = some c.vcpu
      · refine withdraw_of_off ?_
        cases hres : (c.interrupt l).resident with
        | false => rfl
        | true => exact absurd ⟨ho, hres, rfl⟩ hc
      · exact withdraw_of_other ho
    rw [e]
    exact h

theorem frame_withdraw (h : c.Sound) (hl : c.vm.Has l) (mine : (c.interrupt l).owner = some c.vcpu) :
    Frame l c (c.withdraw l) := by
  cases hres : (c.interrupt l).resident with
  | false => rw [withdraw_of_off hres]; exact .refl l c
  | true =>
    have hc : c.vm.Credits c.vcpu l (c.interrupt l).slot := ⟨mine, hres, rfl⟩
    have hf : Frame l c ((c.writeSlot (c.interrupt l).slot .empty).setInterrupt l
        (c.takenBack l (c.interface.read (c.interrupt l).slot))) :=
      frame_vacate h hl hc (fun k hk => read_write_empty _ _ k hk _) (.refl _)
    rw [withdraw_of_held (h.held? hl hc)]
    split
    next => exact hf.trans (frame_modifyControl l ⟨fun _ => rfl, id, rfl, rfl, rfl⟩)
    next => exact hf

/-- **Withdrawing keeps the state that the guest left.** -/
theorem interrupt_withdraw (h : c.Sound) (hl : c.vm.Has l) (mine : (c.interrupt l).owner = some c.vcpu) :
    (c.withdraw l).interrupt l =
      match c.held? l with
      | some r => c.takenBack l r
      | none => c.interrupt l := by
  cases hres : (c.interrupt l).resident with
  | false => rw [withdraw_of_off hres, held?_of_off hres]
  | true =>
    have hc : c.vm.Credits c.vcpu l (c.interrupt l).slot := ⟨mine, hres, rfl⟩
    rw [withdraw_of_held (h.held? hl hc), h.held? hl hc]
    split
    next => exact (interrupt_setInterrupt ..).trans (if_pos rfl)
    next => exact (interrupt_setInterrupt ..).trans (if_pos rfl)

theorem inHand_withdraw (h : c.Sound) (hl : c.vm.Has l) (mine : (c.interrupt l).owner = some c.vcpu) :
    (c.withdraw l).InHand l := by
  have hf := frame_withdraw h hl mine
  refine ⟨h.withdraw hl, (Vm.has_congr hf.partition l).2 hl, ?_, ?_⟩
  all_goals rw [interrupt_withdraw h hl mine]
  · rw [hf.vcpu]
    split
    next => rw [owner_takenBack]; exact mine
    next => exact mine
  · split
    next => exact resident_takenBack ..
    next hn =>
      cases hres : (c.interrupt l).resident with
      | false => rfl
      | true =>
        have hc : c.vm.Credits c.vcpu l (c.interrupt l).slot := ⟨mine, hres, rfl⟩
        rw [h.held? hl hc] at hn
        cases hn

/-! ## Settling -/

/-- A settled interrupt: the guest has completed it. -/
def settled (c : Core) (l : Line) : Interrupt := { c.interrupt l with resident := false, state := .idle }

theorem Sound.find?_occupant (h : c.Sound) (hk : c.vm.Has k) (hc : c.vm.Credits c.vcpu k n) :
    c.vm.occupant? c.vcpu n = some k.id ∧ c.find? k.id = some k := by
  have ho := (h.seated.seat k n hk hc).occupant
  rw [hc.2.2] at ho
  exact ⟨ho, Vm.find?_id hk (h.seen_of_credits hk hc)⟩

/-- **Settling a slot**: where it is still credited to another interrupt, that one is settled. -/
theorem settle_cases (h : c.Sound) {id : Nat} (other : ∀ k, c.vm.Has k → c.vm.Credits c.vcpu k n → k.id ≠ id) :
    ((∀ k, c.vm.Has k → ¬ c.vm.Credits c.vcpu k n) ∧
      c.settle n id = { c with vm := c.vm.setOccupant c.vcpu n id }) ∨
    ∃ k, c.vm.Has k ∧ c.vm.Credits c.vcpu k n ∧
      c.settle n id =
        (({ c with vm := c.vm.setOccupant c.vcpu n id } : Core).setInterrupt k (c.settled k)).release k := by
  have find : ∀ old, ({ c with vm := c.vm.setOccupant c.vcpu n id } : Core).find? old = c.find? old := fun _ => rfl
  have credited : ∀ k, ({ c with vm := c.vm.setOccupant c.vcpu n id } : Core).isCredited k n = c.isCredited k n := by
    intro k
    simp only [isCredited, interrupt, Vm.interrupt_setOccupant]
  by_cases hk : ∃ k, c.vm.Has k ∧ c.vm.Credits c.vcpu k n
  · obtain ⟨k, hk, hc⟩ := hk
    refine .inr ⟨k, hk, hc, ?_⟩
    obtain ⟨ho, hf⟩ := h.find?_occupant hk hc
    have hid : (k.id == id) = false := by simpa using other k hk hc
    simp only [settle, ho, hid, find, hf, credited, (c.isCredited_iff k n).2 hc, if_true, Bool.false_eq_true, if_false]
    simp only [update, interrupt, Vm.interrupt_setOccupant, settled]
  · have free : ∀ k, c.vm.Has k → ¬ c.vm.Credits c.vcpu k n := fun k hk' hc => hk ⟨k, hk', hc⟩
    refine .inl ⟨free, ?_⟩
    simp only [settle]
    split
    next => rfl
    next old _ =>
      split
      next => rfl
      next =>
        split
        next => rfl
        next k hf =>
          rw [find] at hf
          rw [if_neg]
          rw [credited, isCredited_iff]
          exact free k (Vm.has_of_find? hf)

theorem Sound.setOccupant (h : c.Sound) (free : ∀ k, c.vm.Has k → ¬ c.vm.Credits c.vcpu k n) (id : Nat) :
    ({ c with vm := c.vm.setOccupant c.vcpu n id } : Core).Sound := by
  have hi : ∀ k, (c.vm.setOccupant c.vcpu n id).interrupt k = c.vm.interrupt k :=
    fun k => Vm.interrupt_setOccupant ..
  refine ⟨h.station.same ⟨rfl, rfl, rfl, rfl⟩, fun k hk => ?_, ?_, ?_⟩
  · show ((c.vm.setOccupant c.vcpu n id).interrupt k).Lawful _ k
    rw [hi]
    exact (h.records k hk).congr rfl
  · exact h.lists.congr rfl (fun home => Vm.spillList_setOccupant ..) (fun k _ => congrArg _ (hi k))
  · refine ⟨fun m hm => ?_, fun k m hk hc => ?_⟩
    · obtain ⟨k, hk, hs, hid, hc⟩ := h.seated.held m hm
      exact ⟨k, hk, hs, hid, by unfold Vm.Credits; rw [hi]; exact hc⟩
    · have hc : c.vm.Credits c.vcpu k m := by unfold Vm.Credits at hc ⊢; rw [hi] at hc; exact hc
      obtain ⟨h1, h2, h3, h4⟩ := h.seated.seat k m hk hc
      refine ⟨?_, ?_, ?_, ?_⟩ <;> rw [hi]
      · exact h1
      · exact h2
      · rw [Vm.occupant?_setOccupant, if_neg]
        · exact h3
        · rintro ⟨-, hn⟩
          exact free k hk (hn ▸ ⟨hc.1, hc.2.1, rfl⟩)
      · exact h4

theorem frame_setOccupant (c : Core) (l : Line) (n id : Nat) :
    Frame l c { c with vm := c.vm.setOccupant c.vcpu n id } :=
  .of_kept ⟨rfl, rfl, rfl, rfl⟩ (fun _ _ => Vm.interrupt_setOccupant ..) (fun _ _ _ _ _ => rfl)
    (fun v m hv => by rw [Vm.occupant?_setOccupant, if_neg (fun e => hv e.1.symm)]) (.refl _) rfl

theorem Sound.lawful_settled (h : c.Sound) (hk : c.vm.Has k) (hc : c.vm.Credits c.vcpu k n) :
    (c.settled k).Lawful c.vm k := by
  have hr := h.records k hk
  refine .of_off rfl hr.owner_lt hr.home_owner (fun hs => ?_) hr.passed
  exact absurd (hs.symm.trans (hr.resident_unspilled hc.2.1)) (by decide)

theorem Alike.held? (h : Alike c c') (m : Line) : c'.held? m = c.held? m :=
  held?_congr h.vcpu (h.interrupt m) fun n _ => by
    unfold CpuInterface.read
    rw [h.registers]

theorem Alike.stateOf (h : Alike c c') (m : Line) : c'.stateOf m = c.stateOf m := stateOf_congr (h.interrupt m) (h.held? m)

theorem frame_of_alike (h : Alike c c') (control : c'.interface.control = c.interface.control)
    (bus : c'.bus = c.bus) : Frame l c c' :=
  .of_kept h.toSame (fun m _ => h.interrupt m)
    (fun _ n _ _ _ => by unfold CpuInterface.read; rw [h.registers]) (fun v n _ => h.occupant v n)
    (by rw [control]; exact .refl _) bus

theorem release_setInterrupt (c : Core) (k : Line) (s : Interrupt) :
    (c.setInterrupt k s).release k =
      (c.setInterrupt k s).setInterrupt k (s.release c.vm.version k c.vcpu) := by
  have hv : (c.setInterrupt k s).vm.version = c.vm.version := Vm.version_congr (Vm.partition_setInterrupt ..)
  simp only [release, update, interrupt_setInterrupt, if_true, hv, vcpu_setInterrupt]

theorem alike_settled (c : Core) (k : Line) (n id : Nat) (s t : Interrupt) :
    Alike ({ (c.setInterrupt k s).setInterrupt k t with
        vm := ((c.setInterrupt k s).setInterrupt k t).vm.setOccupant c.vcpu n id } : Core)
      ((({ c with vm := c.vm.setOccupant c.vcpu n id } : Core).setInterrupt k s).setInterrupt k t) := by
  refine ⟨⟨rfl, rfl, rfl, ?_⟩, fun l => ?_, fun home => ?_, fun v m => ?_, rfl⟩
  · simp only [vm_setInterrupt, Vm.partition_setInterrupt, Vm.partition_setOccupant]
  · simp only [interrupt, vm_setInterrupt, Vm.interrupt_setInterrupt, Vm.interrupt_setOccupant]
  · simp only [vm_setInterrupt, Vm.spillList_setInterrupt, Vm.spillList_setOccupant]
  · simp only [vm_setInterrupt, Vm.occupant?_setInterrupt, Vm.occupant?_setOccupant]

/-- A slot whose register is empty, made ready for an interrupt. -/
structure Cleared (c c' : Core) (l : Line) (n : Nat) : Prop where
  sound : c'.Sound
  frame : Frame l c c'
  record : c'.interrupt l = c.interrupt l
  interface : c'.interface = c.interface
  free : ∀ k, c'.vm.Has k → ¬ c'.vm.Credits c'.vcpu k n
  occupant : c'.vm.occupant? c'.vcpu n = some l.id

theorem cleared_setOccupant (h : c'.Sound) (hf : Frame l c c') (hi : c'.interrupt l = c.interrupt l)
    (hif : c'.interface = c.interface) (free : ∀ k, c'.vm.Has k → ¬ c'.vm.Credits c'.vcpu k n) :
    Cleared c { c' with vm := c'.vm.setOccupant c'.vcpu n l.id } l n := by
  refine ⟨h.setOccupant free _, hf.trans (frame_setOccupant ..), (Vm.interrupt_setOccupant ..).trans hi, hif,
    fun k hk hc => free k hk ?_, ?_⟩
  · unfold Vm.Credits at hc ⊢
    rw [Vm.interrupt_setOccupant] at hc
    exact hc
  · rw [Vm.occupant?_setOccupant, if_pos ⟨rfl, rfl⟩]

theorem Cleared.alike {c'' : Core} (h : Cleared c c' l n) (e : Alike c' c'') (hif : c''.interface = c'.interface)
    (bus : c''.bus = c'.bus) : Cleared c c'' l n := by
  refine ⟨h.sound.alike e, h.frame.trans (frame_of_alike e (by rw [hif]) bus), (e.interrupt l).trans h.record,
    hif.trans h.interface, fun k hk hc => ?_, ?_⟩
  · refine h.free k ((Vm.has_congr e.partition k).1 hk) ?_
    have hi : c''.vm.interrupt k = c'.vm.interrupt k := e.interrupt k
    unfold Vm.Credits at hc ⊢
    rw [hi, e.vcpu] at hc
    exact hc
  · rw [e.occupant, e.vcpu]
    exact h.occupant

/-- The interrupt that the guest has completed gives up its slot. -/
theorem vacate_settled (h : c.Sound) (hk : c.vm.Has k) (hc : c.vm.Credits c.vcpu k n)
    (empty : (c.interface.read n).isEmpty = true) :
    ((c.setInterrupt k (c.settled k)).release k).Sound ∧ Frame l c ((c.setInterrupt k (c.settled k)).release k) ∧
      ∀ j, ((c.setInterrupt k (c.settled k)).release k).interrupt j =
        if k = j then (c.settled k).release c.vm.version k c.vcpu else c.interrupt j := by
  have hs : (c.setInterrupt k (c.settled k)).Sound :=
    h.vacate hk hc rfl (fun _ _ => rfl) empty (h.lawful_settled hk hc) rfl ((h.records k hk).resident_unspilled hc.2.1)
  have hp : (c.setInterrupt k (c.settled k)).vm.partition = c.vm.partition := Vm.partition_setInterrupt ..
  have hi : ∀ j, ((c.setInterrupt k (c.settled k)).release k).interrupt j =
      if k = j then (c.settled k).release c.vm.version k c.vcpu else c.interrupt j := fun j => by
    rw [release_setInterrupt, interrupt_setInterrupt]
    split
    next => rfl
    next hne => rw [interrupt_setInterrupt, if_neg hne]
  refine ⟨hs.release ((Vm.has_congr hp k).2 hk), ⟨?_, fun m hm hml => ?_, fun v m hv => ?_, .refl _, .refl _ _⟩, hi⟩
  · rw [release_setInterrupt]
    exact (same_setInterrupt ..).trans (same_setInterrupt ..)
  · by_cases hkm : k = m
    · subst hkm
      exact .settled _ (h.held? hk hc) empty ((hi k).trans (if_pos rfl))
    · have hm' := (hi m).trans (if_neg hkm)
      exact .kept hm' (held?_congr rfl hm' fun _ _ => rfl)
  · rw [release_setInterrupt]
    exact (Vm.occupant?_setInterrupt ..).trans (Vm.occupant?_setInterrupt ..)

theorem cleared_settle (h : c.Sound) (hl : c.vm.Has l) (seen : l.SeenBy c.vcpu)
    (off : (c.interrupt l).resident = false) (empty : (c.interface.read n).isEmpty = true) :
    Cleared c (c.settle n l.id) l n := by
  have other : ∀ k, c.vm.Has k → c.vm.Credits c.vcpu k n → k.id ≠ l.id := by
    intro k hk hc hid
    have e := Vm.eq_of_id hk hl (h.seen_of_credits hk hc) seen hid
    subst e
    exact absurd (off.symm.trans hc.2.1) (by decide)
  rcases settle_cases h other with ⟨free, e⟩ | ⟨k, hk, hc, e⟩
  · rw [e]
    exact cleared_setOccupant h (.refl l c) rfl rfl free
  · have hkl : k ≠ l := by
      rintro rfl
      exact absurd (off.symm.trans hc.2.1) (by decide)
    obtain ⟨hs, hf, hi⟩ := vacate_settled (l := l) h hk hc empty
    have free : ∀ j, ((c.setInterrupt k (c.settled k)).release k).vm.Has j →
        ¬ ((c.setInterrupt k (c.settled k)).release k).vm.Credits c.vcpu j n := by
      intro j hj hcj
      have e : ((c.setInterrupt k (c.settled k)).release k).vm.interrupt j = _ := hi j
      unfold Vm.Credits at hcj
      rw [e] at hcj
      split at hcj
      next =>
        have hres := hcj.2.1
        rw [resident_release] at hres
        cases hres
      next hne => exact hne (h.unique hk ((Vm.has_congr hf.partition j).1 hj) hc hcj)
    have hcl := cleared_setOccupant hs hf ((hi l).trans (if_neg hkl)) rfl free
    rw [e]
    rw [release_setInterrupt] at hcl ⊢
    exact hcl.alike (alike_settled ..) rfl rfl

end Core
end VirtualGic
