import VirtualGic.Proofs.Withdrawal
/-!
# Taking a list register

`seat` writes an interrupt into a slot whose register is empty, `makeRoom` finds or makes one, and `place` ends with
the interrupt either seated or parked with maintenance asked for.
-/
namespace VirtualGic

namespace ListRegister

variable {l : Line} {s : Interrupt}

theorem toNat_number {id : Nat} (fits : id < 0x400) : (BitVec.ofNat 10 id).toNat = id := by
  rw [BitVec.toNat_ofNat, Nat.mod_eq_of_lt fits]

theorem names_present (fits : l.id < 0x400) : (present l s).names l.id = true := by
  rw [present_eq l s fits, names, toNat_number fits]
  exact beq_self_eq_true _

theorem shows_present (fits : l.id < 0x400) : (present l s).Shows s := by
  rw [present_eq l s fits]
  exact ⟨rfl, rfl, rfl⟩

/-- Hardware keeps the pending state of its own interrupts that are active, and of no others. -/
theorem state_present (fits : l.id < 0x400) (apart : (s.hardware && s.state.active) = false) :
    (present l s).state = s.state := by
  rw [present_eq l s fits, apart]
  simp

/-- The request that goes into a list register: the state there, which is idle only if the interrupt is, the requester
and the requesters left. -/
theorem presentRequest_eq (l : Line) (s : Interrupt) (fits : l.id < 0x400) :
    ∃ state requester left physical,
      presentRequest l s =
        ({ empty with
            state := state
            group1 := s.group1
            priority := s.priority
            physical := physical
            requester := requester
            intid := BitVec.ofNat 10 l.id },
          { s with requesters := left }) ∧ (s.state.isIdle = false → state.isIdle = false) := by
  unfold presentRequest
  by_cases ha : s.state.active = true
  · rw [if_pos ha]
    exact ⟨_, _, s.requesters, _, Prod.ext (withNumber_eq _ fits rfl) rfl, fun _ => rfl⟩
  · rw [if_neg ha]
    cases lowestRequester? s.requesters with
    | none => exact ⟨_, _, s.requesters, _, Prod.ext (withNumber_eq _ fits rfl) rfl, id⟩
    | some n => exact ⟨_, _, _, _, Prod.ext (withNumber_eq _ fits rfl) rfl, fun _ => rfl⟩

end ListRegister

theorem Vm.id_lt_of_has {vm : Vm} {l : Line} (h : vm.partition.Checked) (hl : vm.Has l) : l.id < 0x400 := by
  have h1 := hl.1
  have h2 := h.count_le
  unfold Vm.interruptCount at h1
  unfold maxInterrupts at h2
  omega

theorem Interrupt.Lawful.soft_of_private {vm : Vm} {s : Interrupt} {l : Line} (h : s.Lawful vm l)
    (checked : vm.partition.Checked) (hp : l.id < privateInterrupts) : s.hardware = false := by
  cases hh : s.hardware with
  | false => rfl
  | true => exact absurd hp (Nat.not_lt_of_le (checked.passthrough_range _ (h.passed.1 hh)).1)

/-- Only shared interrupts are hardware interrupts. -/
theorem Interrupt.Lawful.shared_of_hardware {vm : Vm} {s : Interrupt} {l : Line} (h : s.Lawful vm l)
    (checked : vm.partition.Checked) (hl : vm.Has l) (hw : s.hardware = true) : l.home? = none := by
  cases hh : l.home? with
  | none => rfl
  | some v =>
    rw [h.soft_of_private checked (hl.2.1.1 (by rw [Line.isBanked, hh]; rfl))] at hw
    cases hw

theorem Vm.isSoftware_of_counts {vm : Vm} {l : Line} (hc : vm.countsRequesters l = true) : l.isSoftware = true := by
  unfold countsRequesters Interrupt.countsRequesters at hc
  exact (Bool.and_eq_true_iff.1 hc).2

theorem Line.id_lt_of_isSoftware {l : Line} (h : l.isSoftware = true) : l.id < privateInterrupts :=
  Nat.lt_trans (of_decide_eq_true h) (by decide)

/-- A version 2 software interrupt is no hardware interrupt. -/
theorem Interrupt.Lawful.soft_of_counts {vm : Vm} {s : Interrupt} {l : Line} (h : s.Lawful vm l)
    (checked : vm.partition.Checked) (hc : vm.countsRequesters l = true) : s.hardware = false :=
  h.soft_of_private checked (Line.id_lt_of_isSoftware (Vm.isSoftware_of_counts hc))

/-- A vCPU can name what targets it. -/
theorem Line.seenBy_of_target {vm : Vm} {l : Line} {s : Interrupt} {v : Nat} (h : (vm.targets l s).getLsbD v = true) :
    l.SeenBy v := by
  cases l with
  | shared id => exact Line.seenBy_shared rfl v
  | banked home id =>
    rintro w ⟨⟩
    have h : (CpuSet.single home).getLsbD v = true := h
    rw [CpuSet.getLsbD_single, Bool.and_eq_true, beq_iff_eq] at h
    exact h.2

namespace Core

variable {c c' : Core} {k l : Line} {s : Interrupt} {r : ListRegister} {n : Nat}

theorem Sound.soft_of_counts (h : c.Sound) (hl : c.vm.Has l) (hc : c.vm.countsRequesters l = true) :
    (c.interrupt l).hardware = false := (h.records l hl).soft_of_counts h.station.checked hc

/-- The list register that presents an interrupt with a record, and the record left behind. -/
def presentation (vm : Vm) (l : Line) (s : Interrupt) : ListRegister × Interrupt :=
  if vm.countsRequesters l then ListRegister.presentRequest l s else (ListRegister.present l s, s)

theorem presented_eq (c : Core) (l : Line) : c.presented l = presentation c.vm l (c.interrupt l) := rfl

theorem presentation_congr {vm vm' : Vm} (hp : vm'.partition = vm.partition) (l : Line) (s : Interrupt) :
    presentation vm' l s = presentation vm l s := by
  unfold presentation
  rw [Vm.countsRequesters_congr hp]

theorem presented_spec (h : c.Sound) (hl : c.vm.Has l) :
    (c.presented l).1.names l.id = true ∧ (c.presented l).1.Shows (c.interrupt l) ∧
      ∃ q, (c.presented l).2 = { c.interrupt l with requesters := q } := by
  have fits := Vm.id_lt_of_has h.station.checked hl
  unfold presented
  cases hc : c.vm.countsRequesters l with
  | true =>
    obtain ⟨state, req, left, phys, e, -⟩ := ListRegister.presentRequest_eq l (c.interrupt l) fits
    simp only [if_true, e]
    refine ⟨?_, ⟨rfl, rfl, (h.soft_of_counts hl hc).symm⟩, left, rfl⟩
    rw [ListRegister.names, ListRegister.toNat_number fits]
    exact beq_self_eq_true _
  | false =>
    simp only [Bool.false_eq_true, if_false]
    exact ⟨ListRegister.names_present fits, ListRegister.shows_present fits, (c.interrupt l).requesters, rfl⟩

theorem state_presented (h : c.Sound) (hl : c.vm.Has l) (soft : (c.interrupt l).hardware = false)
    (plain : c.vm.countsRequesters l = false) : (c.presented l).1.state = (c.interrupt l).state := by
  unfold presented
  simp only [plain, Bool.false_eq_true, if_false]
  exact ListRegister.state_present (Vm.id_lt_of_has h.station.checked hl) (by rw [soft, Bool.false_and])

theorem presented_congr (hp : c'.vm.partition = c.vm.partition) (hi : c'.interrupt l = c.interrupt l) :
    c'.presented l = c.presented l := by
  rw [presented_eq, presented_eq, hi, presentation_congr hp]

/-! ## Seating -/

def seated (c : Core) (l : Line) (n : Nat) : Interrupt :=
  { (c.presented l).2 with state := .idle, resident := true, slot := n, spilled := false }

theorem seated_eq (h : c.Sound) (hl : c.vm.Has l) (n : Nat) : ∃ q, c.seated l n =
    { c.interrupt l with requesters := q, state := .idle, resident := true, slot := n, spilled := false } := by
  obtain ⟨-, -, q, hq⟩ := presented_spec h hl
  exact ⟨q, by rw [seated, hq]⟩

theorem lawful_seated (h : c.InHand l) (enabled : (c.interrupt l).enabled = true) (target : c.isTarget l = true) (n : Nat) :
    (c.seated l n).Lawful c.vm l := by
  have hr := h.sound.records l h.has
  obtain ⟨q, hs⟩ := seated_eq h.sound h.has n
  rw [hs]
  exact ⟨hr.owner_lt, hr.home_owner, fun _ => ⟨c.vcpu, h.mine, Line.seenBy_of_target target, target⟩, fun _ => enabled,
    fun _ => rfl, fun _ => rfl, fun hsp => (by cases hsp), hr.passed⟩

/-- The core after an interrupt took a slot. -/
def taken (c : Core) (l : Line) (n : Nat) : Core :=
  ((c.unspill l).writeSlot n (c.presented l).1).setInterrupt l (c.seated l n)

theorem partition_taken (c : Core) (l : Line) (n : Nat) : (c.taken l n).vm.partition = c.vm.partition :=
  (Vm.partition_setInterrupt ..).trans (Vm.partition_unpark ..)

theorem interrupt_taken (c : Core) (l : Line) (n : Nat) (k : Line) :
    (c.taken l n).interrupt k = if l = k then c.seated l n else c.interrupt k := by
  rw [taken, interrupt_setInterrupt]
  split
  next => rfl
  next hk => rw [interrupt_writeSlot, interrupt_unspill, if_neg hk]

theorem listed_taken (h : c.InHand l) (n : Nat) : (c.taken l n).vm.Listed := by
  refine (h.sound.unspill h.has).lists.congr (Vm.partition_setInterrupt ..) (fun home => Vm.spillList_setInterrupt ..)
    fun k _ => ?_
  have taken : (c.taken l n).vm.interrupt k = _ := c.interrupt_taken l n k
  have unspilled : (c.unspill l).vm.interrupt k = _ := c.interrupt_unspill l k
  obtain ⟨q, hs⟩ := seated_eq h.sound h.has n
  rw [taken, unspilled, hs]
  split <;> rfl

theorem seated_taken (h : c.InHand l) (target : c.isTarget l = true) (hn : n < c.interface.count)
    (free : ∀ k, c.vm.Has k → ¬ c.vm.Credits c.vcpu k n) (occupant : c.vm.occupant? c.vcpu n = some l.id) :
    (c.taken l n).vm.Seated c.vcpu (c.taken l n).interface := by
  obtain ⟨names, shows, -⟩ := presented_spec h.sound h.has
  obtain ⟨q, hs⟩ := seated_eq h.sound h.has n
  have here : (c.taken l n).vm.interrupt l = c.seated l n := (c.interrupt_taken l n l).trans (if_pos rfl)
  refine h.sound.seated.take hn free h.has (Line.seenBy_of_target target) h.off (partition_taken ..) (fun k hk => ?_) ?_ ?_
    (fun m _ => ?_) names ?_
  · exact (c.interrupt_taken l n k).trans (if_neg (Ne.symm hk))
  · unfold Vm.Credits
    rw [here, hs]
    exact ⟨h.mine, rfl, rfl⟩
  · exact (Vm.occupant?_setInterrupt ..).trans ((Vm.occupant?_unpark ..).trans occupant)
  · exact (Vm.occupant?_setInterrupt ..).trans (Vm.occupant?_unpark ..)
  · rw [here, hs]
    exact ⟨shows.priority, shows.group1, shows.hardware⟩

theorem frame_taken (free : ∀ k, c.vm.Has k → ¬ c.vm.Credits c.vcpu k n) : Frame l c (c.taken l n) := by
  refine .of_kept ⟨rfl, rfl, rfl, partition_taken ..⟩ (fun m hm => ?_) (fun m k hm _ hck => ?_) (fun v m _ => ?_) (.refl _) rfl
  · rw [interrupt_taken, if_neg (Ne.symm hm)]
  · refine read_write_empty _ _ _ ?_ _
    rintro rfl
    exact free m hm hck
  · exact (Vm.occupant?_setInterrupt ..).trans (Vm.occupant?_unpark ..)

theorem held?_taken (h : c.InHand l) (hn : n < c.interface.count) : (c.taken l n).held? l = some (c.presented l).1 := by
  obtain ⟨names, -⟩ := presented_spec h.sound h.has
  obtain ⟨q, hs⟩ := seated_eq h.sound h.has n
  have here : (c.taken l n).vm.interrupt l = c.seated l n := (c.interrupt_taken l n l).trans (if_pos rfl)
  refine ((c.taken l n).held?_eq_some_iff l _).2 ⟨n, ?_, ?_, names⟩
  · unfold Vm.Credits
    rw [here, hs]
    exact ⟨h.mine, rfl, rfl⟩
  · exact (CpuInterface.read_write ..).trans (if_pos ⟨rfl, hn⟩)

theorem Sound.take (h : c.InHand l) (enabled : (c.interrupt l).enabled = true) (target : c.isTarget l = true)
    (hn : n < c.interface.count) (free : ∀ k, c.vm.Has k → ¬ c.vm.Credits c.vcpu k n)
    (occupant : c.vm.occupant? c.vcpu n = some l.id) : (c.taken l n).Sound := by
  have hp := c.partition_taken l n
  refine ⟨h.sound.station.same ⟨rfl, rfl, rfl, hp⟩, fun k hk => ?_, listed_taken h n, seated_taken h target hn free occupant⟩
  rw [interrupt_taken]
  refine Interrupt.Lawful.congr ?_ hp
  split
  next e => exact e ▸ lawful_seated h enabled target n
  next => exact h.sound.records k ((Vm.has_congr hp k).1 hk)

theorem spillList_unspill (c : Core) (l : Line) (home : Option Nat) :
    (c.unspill l).vm.spillList home =
      if (c.interrupt l).spilled = true ∧ l.home? = home then (c.vm.spillList home).filter (· != l.id)
      else c.vm.spillList home := by
  cases hs : (c.interrupt l).spilled with
  | false =>
    rw [unspill_of_unspilled hs, if_neg]
    rintro ⟨h, -⟩
    cases h
  | true =>
    show (c.vm.unpark l).spillList home = _
    rw [Vm.spillList_unpark _ _ _ hs]
    by_cases hh : l.home? = home
    · rw [if_pos hh, if_pos ⟨rfl, hh⟩]
    · rw [if_neg hh, if_neg (fun e => hh e.2)]

theorem alike_unspill (c : Core) (l : Line) (s : Interrupt) (hs : s.spilled = (c.interrupt l).spilled) :
    Alike ((c.unspill l).setInterrupt l { s with spilled := false }) ((c.setInterrupt l s).unspill l) := by
  refine ⟨⟨rfl, rfl, rfl, ?_⟩, fun k => ?_, fun home => ?_, fun v m => ?_, rfl⟩
  · show (((c.vm.setInterrupt l s).unpark l).partition) = ((c.vm.unpark l).setInterrupt l _).partition
    rw [Vm.partition_unpark, Vm.partition_setInterrupt, Vm.partition_setInterrupt, Vm.partition_unpark]
  · rw [interrupt_unspill, interrupt_setInterrupt, interrupt_setInterrupt, interrupt_setInterrupt, if_pos rfl]
    split
    next => rfl
    next hne => rw [interrupt_unspill, if_neg hne]
  · rw [spillList_unspill, interrupt_setInterrupt, if_pos rfl, hs, vm_setInterrupt, vm_setInterrupt,
      Vm.spillList_setInterrupt, Vm.spillList_setInterrupt, spillList_unspill]
  · show ((c.vm.setInterrupt l s).unpark l).occupant? v m = ((c.vm.unpark l).setInterrupt l _).occupant? v m
    rw [Vm.occupant?_unpark, Vm.occupant?_setInterrupt, Vm.occupant?_setInterrupt, Vm.occupant?_unpark]

theorem isTarget_congr (hp : c'.vm.partition = c.vm.partition) (hv : c'.vcpu = c.vcpu)
    (hi : c'.interrupt l = c.interrupt l) : c'.isTarget l = c.isTarget l := by
  unfold isTarget
  rw [hi, hv, Vm.targets_congr hp]

/-- The completed list registers are left for maintenance. -/
def KeepsCompleted (c c' : Core) : Prop :=
  ∀ m, (c.interface.read m).isCompleted = true → c'.interface.read m = c.interface.read m

theorem KeepsCompleted.trans {c'' : Core} (h : KeepsCompleted c c') (h' : KeepsCompleted c' c'') :
    KeepsCompleted c c'' :=
  fun m hm => (h' m (by rw [h m hm]; exact hm)).trans (h m hm)

/-- What an operation does that ends with an interrupt in a list register or parked. -/
inductive Placed (c c' : Core) (l : Line) : Bool → Prop
  | seated (n : Nat) (record : c'.interrupt l = c.seated l n) (held : c'.held? l = some (c.presented l).1) :
    Placed c c' l true
  | parked (record : c'.interrupt l = { c.interrupt l with spilled := true })
    (pending : (c.interrupt l).state.pending = true → c'.interface.control.noPending = true)
    (active : (c.interrupt l).state.active = true → c'.interface.control.underflow = true) : Placed c c' l false

structure Placing (c c' : Core) (l : Line) (placed : Bool) : Prop where
  sound : c'.Sound
  frame : Frame l c c'
  completed : KeepsCompleted c c'
  outcome : Placed c c' l placed

theorem seat_eq (c : Core) (l : Line) (n : Nat) :
    c.seat l n =
      (((c.settle n l.id).writeSlot n ((c.settle n l.id).presented l).1).setInterrupt l
        { ((c.settle n l.id).presented l).2 with state := .idle, resident := true, slot := n }).unspill l := rfl

theorem Cleared.inHand (h : Cleared c c' l n) (hh : c.InHand l) : c'.InHand l := by
  refine ⟨h.sound, (Vm.has_congr h.frame.partition l).2 hh.has, ?_, ?_⟩
  · rw [h.record, h.frame.vcpu]
    exact hh.mine
  · rw [h.record]
    exact hh.off

/-- Once the slot is settled, seating takes it. -/
theorem alike_seat (h : (c.settle n l.id).InHand l) : Alike ((c.settle n l.id).taken l n) (c.seat l n) := by
  rw [seat_eq]
  generalize c.settle n l.id = d at h
  obtain ⟨-, -, q, hq⟩ := presented_spec h.sound h.has
  exact alike_unspill (d.writeSlot n (d.presented l).1) l
    { (d.presented l).2 with state := .idle, resident := true, slot := n } (by rw [hq]; rfl)

theorem placing_seat (h : c.InHand l) (enabled : (c.interrupt l).enabled = true) (target : c.isTarget l = true)
    (hn : n < c.interface.count) (empty : (c.interface.read n).isEmpty = true) : Placing c (c.seat l n) l true := by
  have hc := cleared_settle h.sound h.has (Line.seenBy_of_target target) h.off empty
  have hd := hc.inHand h
  have hpr : (c.settle n l.id).presented l = c.presented l := presented_congr hc.frame.partition hc.record
  have hn' : n < (c.settle n l.id).interface.count := by rw [hc.interface]; exact hn
  have target' := (isTarget_congr hc.frame.partition hc.frame.vcpu hc.record).trans target
  have taken : ((c.settle n l.id).taken l n).Sound :=
    .take hd (by rw [hc.record]; exact enabled) target' hn' hc.free hc.occupant
  have alike := alike_seat hd
  refine ⟨taken.alike alike, hc.frame.trans ((frame_taken hc.free).trans (frame_of_alike alike rfl rfl)), fun m hm => ?_,
    .seated n ?_ ?_⟩
  · show (((c.settle n l.id).interface.write n _).read m) = _
    rw [read_write_empty, hc.interface]
    rintro rfl
    rw [ListRegister.not_isCompleted_of_isEmpty empty] at hm
    cases hm
  · rw [alike.interrupt, interrupt_taken, if_pos rfl, seated, hpr]
    rfl
  · rw [alike.held?, held?_taken hd hn', hpr]

/-! ## Making room -/

theorem Sound.spill (h : c.Sound) (hl : c.vm.Has l) (off : (c.interrupt l).resident = false)
    (busy : (c.interrupt l).state.isIdle = false) : (c.spill l).Sound := by
  unfold Core.spill wantMaintenance
  exact (h.park hl off busy).alike (alike_modifyControl ..)

theorem parked_spill (c : Core) (l : Line) : Placed c (c.spill l) l false := by
  refine .parked ((interrupt_spill ..).trans (if_pos rfl)) (fun hp => ?_) (fun ha => ?_)
  · show (c.interface.control.noPending || (c.interrupt l).state.pending) = true
    rw [hp, Bool.or_true]
  · show (c.interface.control.underflow || (c.interrupt l).state.active) = true
    rw [ha, Bool.or_true]

/-- A slot in which an interrupt may be seated. -/
structure Room (c c' : Core) (l : Line) (n : Nat) : Prop where
  sound : c'.Sound
  frame : Frame l c c'
  record : c'.interrupt l = c.interrupt l
  slot_lt : n < c'.interface.count
  empty : (c'.interface.read n).isEmpty = true
  completed : KeepsCompleted c c'

theorem evict_eq (h : c.Sound) (hk : c.vm.Has k) (hc : c.vm.Credits c.vcpu k n) :
    c.evict n = ((c.withdraw k).spill k).release k := by
  have hn := (h.seated.seat k n hk hc).names
  rw [hc.2.2, ListRegister.names, beq_iff_eq] at hn
  have hf : c.find? (c.interface.read n).intid.toNat = some k := by
    rw [hn]
    exact (h.find?_occupant hk hc).2
  simp only [evict, hf, (c.isCredited_iff k n).2 hc, if_true]

theorem interface_withdraw (h : c.held? l = some r) :
    (∀ m, (c.withdraw l).interface.read m = (c.interface.write (c.interrupt l).slot .empty).read m) ∧
      (c.withdraw l).interface.count = c.interface.count := by
  rw [withdraw_of_held h]
  split
  next => exact ⟨fun _ => rfl, CpuInterface.count_write ..⟩
  next => exact ⟨fun _ => rfl, CpuInterface.count_write ..⟩

theorem bus_withdraw (c : Core) (l : Line) : (c.withdraw l).bus = c.bus := by
  unfold withdraw
  simp only
  split
  next =>
    split
    next => rfl
    next => split <;> rfl
  next => rfl

/-- Where nothing was posted, it does not matter which interrupt was in hand. -/
theorem Frame.rebase (h : Frame k c c') (hk : Fate c c' k) (bus : c'.bus = c.bus) : Frame l c c' where
  toSame := h.toSame
  fate := fun m hm _ => by
    by_cases hmk : m = k
    · subst hmk; exact hk
    · exact h.fate m hm hmk
  occupant := h.occupant
  control := h.control
  posted := by rw [bus]; exact .refl _ _

theorem Fate.record_of_off (h : Fate c c' l) (off : (c.interrupt l).resident = false) :
    c'.interrupt l = c.interrupt l := by
  cases h with
  | kept record => exact record
  | evicted r held => rw [held?_of_off off] at held; cases held
  | settled r held => rw [held?_of_off off] at held; cases held

/-- **Evicting the occupant of a slot**, for an interrupt that is in none. -/
theorem room_evict (h : c.Sound) (hl : c.vm.Has l) (off : (c.interrupt l).resident = false)
    (hn : n < c.interface.count) (busy : (c.interface.read n).state.isIdle = false) : Room c (c.evict n) l n := by
  obtain ⟨k, hk, -, -, hc⟩ := h.seated.held n (ListRegister.not_isEmpty_of_busy busy)
  have hkl : k ≠ l := by
    rintro rfl
    exact absurd (off.symm.trans hc.2.1) (by decide)
  have held := h.held? hk hc
  have hw := inHand_withdraw h hk hc.1
  have fw := frame_withdraw h hk hc.1
  have taken : (c.withdraw k).interrupt k = c.takenBack k (c.interface.read n) := by
    rw [interrupt_withdraw h hk hc.1, held]
  have hb : ((c.withdraw k).interrupt k).state.isIdle = false := by
    rw [taken]
    exact busy_takenBack c k _ busy
  have hs := hw.sound.spill hw.has hw.off hb
  have fs := frame_spill (c.withdraw k) k
  have hf := (fw.trans fs).trans (frame_release ((c.withdraw k).spill k) k)
  obtain ⟨hread, hcount⟩ := interface_withdraw held
  rw [show (c.interrupt k).slot = n from hc.2.2] at hread
  have fate : Fate c (((c.withdraw k).spill k).release k) k := by
    refine .evicted _ held busy ?_ (fun hp => ?_) (fun ha => ?_)
    · rw [interrupt_release, if_pos rfl, interrupt_spill, if_pos rfl, taken]
      have hv := Vm.version_congr (fw.trans fs).partition
      rw [hv, (fw.trans fs).vcpu]
    · show (_ || ((c.withdraw k).interrupt k).state.pending) = true
      rw [taken, hp, Bool.or_true]
    · show (_ || ((c.withdraw k).interrupt k).state.active) = true
      rw [taken, ha, Bool.or_true]
  rw [evict_eq h hk hc]
  refine ⟨hs.release ((Vm.has_congr fs.partition k).2 hw.has), hf.rebase fate (bus_withdraw c k),
    (hf.fate l hl (Ne.symm hkl)).record_of_off off, ?_, ?_, fun m hm => ?_⟩
  · exact Nat.lt_of_lt_of_eq hn hcount.symm
  · show ((c.withdraw k).interface.read n).isEmpty = true
    rw [hread]
    exact isEmpty_write_empty ..
  · show (c.withdraw k).interface.read m = _
    rw [hread, read_write_empty]
    rintro rfl
    rw [ListRegister.not_isCompleted_of_busy busy] at hm
    cases hm

end Core

theorem CpuInterface.freeSlot?_spec {f : CpuInterface} {n : Nat} (h : f.freeSlot? = some n) :
    n < f.count ∧ (f.read n).isEmpty = true := by
  unfold freeSlot? at h
  have he : (f.read n).isEmpty = true := List.find?_some (p := fun n => (f.read n).isEmpty) h
  exact ⟨List.mem_range.1 (List.mem_of_find?_eq_some h), he⟩

theorem CpuInterface.victim?_spec {f : CpuInterface} {n : Nat} (h : f.victim? = some n) :
    n < f.count ∧ (f.read n).state.isIdle = false := by
  simp only [victim?] at h
  split at h
  next =>
    obtain ⟨hn, hw⟩ := (f.mem_slotsWhere _ n).1 (firstBest_mem h)
    exact ⟨hn, Interrupt.State.isIdle_of_isWaiting hw⟩
  next =>
    obtain ⟨hn, ha⟩ := (f.mem_slotsWhere _ n).1 (firstBest_mem h)
    exact ⟨hn, Interrupt.State.isIdle_of_active ha⟩

namespace Core

variable {c c' : Core} {k l : Line} {s : Interrupt} {r : ListRegister} {n : Nat}

/-- **Making room**: a slot whose register is empty, or the core as it is. -/
theorem makeRoom_cases (h : c.Sound) (hl : c.vm.Has l) (off : (c.interrupt l).resident = false) :
    (∃ n d, c.makeRoom = (d, some n) ∧ Room c d l n) ∨ c.makeRoom = (c, none) := by
  unfold makeRoom
  cases hfree : c.interface.freeSlot? with
  | some n =>
    obtain ⟨hn, he⟩ := CpuInterface.freeSlot?_spec hfree
    exact .inl ⟨n, c, rfl, h, .refl l c, rfl, hn, he, fun _ _ => rfl⟩
  | none =>
    cases hv : c.interface.victim? with
    | some n =>
      obtain ⟨hn, hb⟩ := CpuInterface.victim?_spec hv
      exact .inl ⟨n, c.evict n, rfl, room_evict h hl off hn hb⟩
    | none => exact .inr rfl

/-! ## Placing -/

theorem mayPlace_eq (h : c.InHand l) : c.mayPlace l = (c.interrupt l).enabled := by
  unfold mayPlace
  rw [h.off, (c.owns_iff l).2 h.mine]
  simp

/-- In a free list register an interrupt is seated at once. -/
theorem place_of_free (h : c.InHand l) (enabled : (c.interrupt l).enabled = true)
    (free : c.interface.freeSlot? = some n) : c.place l = (c.seat l n, true) := by
  have hm : c.mayPlace l = true := (mayPlace_eq h).trans enabled
  have room : c.makeRoom = (c, some n) := by rw [makeRoom, free]
  simp only [place, hm, if_true, room]

theorem Frame.inHand (h : Frame l c c') (hh : c.InHand l) (sound : c'.Sound) (record : c'.interrupt l = c.interrupt l) :
    c'.InHand l := by
  refine ⟨sound, (Vm.has_congr h.partition l).2 hh.has, ?_, ?_⟩
  · rw [record, h.vcpu]; exact hh.mine
  · rw [record]; exact hh.off

theorem Placed.of_room {placed : Bool} {d : Core} (hp : d.vm.partition = c.vm.partition)
    (record : d.interrupt l = c.interrupt l) (h : Placed d c' l placed) : Placed c c' l placed := by
  have hpr : d.presented l = c.presented l := presented_congr hp record
  cases h with
  | seated n rec held =>
    refine .seated n ?_ ?_
    · rw [rec, Core.seated, hpr]; rfl
    · rw [held, hpr]
  | parked rec pending active =>
    rw [record] at rec pending active
    exact .parked rec pending active

/-- **Placing an interrupt in hand** that is enabled and targets this vCPU. -/
theorem placing_place (h : c.InHand l) (enabled : (c.interrupt l).enabled = true) (target : c.isTarget l = true)
    (busy : (c.interrupt l).state.isIdle = false) : Placing c (c.place l).1 l (c.place l).2 := by
  have hm : c.mayPlace l = true := (mayPlace_eq h).trans enabled
  rcases makeRoom_cases h.sound h.has h.off with ⟨n, d, e, hr⟩ | e
  · have hp := placing_seat (hr.frame.inHand h hr.sound hr.record) (by rw [hr.record]; exact enabled)
      ((isTarget_congr hr.frame.partition hr.frame.vcpu hr.record).trans target) hr.slot_lt hr.empty
    simp only [place, hm, if_true, e]
    exact ⟨hp.sound, hr.frame.trans hp.frame, hr.completed.trans hp.completed,
      hp.outcome.of_room hr.frame.partition hr.record⟩
  · simp only [place, hm, if_true, e]
    exact ⟨h.sound.spill h.has h.off busy, frame_spill c l, fun _ _ => rfl, parked_spill c l⟩

end Core
end VirtualGic
