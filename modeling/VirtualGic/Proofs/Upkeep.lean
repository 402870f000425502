import VirtualGic.Proofs.Reach
import VirtualGic.Proofs.Status
/-!
# Upkeep of the list registers

What maintenance leaves behind (`Core.maintain`).  No list register waits to be retired, no completion waits to be
accounted for, and no refilling is due unless every list register is in use.
-/
namespace VirtualGic

/-! ## Presenting -/

theorem ListRegister.busy_presentRequest {l : Line} {s : Interrupt} (fits : l.id < 0x400)
    (busy : s.state.isIdle = false) : (presentRequest l s).1.state.isIdle = false := by
  obtain ⟨state, _, _, _, e, keeps⟩ := presentRequest_eq l s fits
  rw [e]
  exact keeps busy

theorem ListRegister.busy_present {l : Line} {s : Interrupt} (fits : l.id < 0x400) (busy : s.state.isIdle = false) :
    (present l s).state.isIdle = false := by
  rw [present_eq l s fits]
  simp only [Interrupt.State.isIdle] at busy ⊢
  cases ha : s.state.active with
  | true => rw [Bool.not_true, Bool.and_false]
  | false =>
    rw [ha] at busy
    rw [Bool.and_false, Bool.not_false, Bool.and_true s.state.pending]
    exact busy

namespace Core

variable {c d : Core} {k l : Line} {n : Nat}

theorem busy_presented (h : c.Sound) (hl : c.vm.Has l) (busy : (c.interrupt l).state.isIdle = false) :
    (c.presented l).1.state.isIdle = false := by
  have fits := Vm.id_lt_of_has h.station.checked hl
  unfold presented
  split
  next => exact ListRegister.busy_presentRequest fits busy
  next => exact ListRegister.busy_present fits busy

theorem interface_seat (h : c.InHand l) (target : c.isTarget l = true) (empty : (c.interface.read n).isEmpty = true) :
    (c.seat l n).interface = c.interface.write n (c.presented l).1 := by
  have hc := cleared_settle h.sound h.has (Line.seenBy_of_target target) h.off empty
  show (c.settle n l.id).interface.write n ((c.settle n l.id).presented l).1 = _
  rw [hc.interface, presented_congr hc.frame.partition hc.record]

theorem interface_evict (h : c.Sound) (busy : (c.interface.read n).state.isIdle = false) :
    (c.evict n).interface.count = c.interface.count ∧
      ∀ m, m ≠ n → (c.evict n).interface.read m = c.interface.read m := by
  obtain ⟨k, hk, hc, -⟩ := h.named busy
  obtain ⟨hread, hcount⟩ := interface_withdraw (h.held? hk hc)
  rw [show (c.interrupt k).slot = n from hc.2.2] at hread
  rw [evict_eq h hk hc]
  exact ⟨hcount, fun m hm => (hread m).trans (read_write_empty _ _ m hm _)⟩

/-- **Placing** brings an interrupt into a free list register, if there is one. -/
theorem enters_place (h : c.InHand l) (enabled : (c.interrupt l).enabled = true) (target : c.isTarget l = true)
    (busy : (c.interrupt l).state.isIdle = false) : c.interface.Enters (c.place l).1.interface := by
  cases hfree : c.interface.freeSlot? with
  | some n =>
    obtain ⟨hn, he⟩ := CpuInterface.freeSlot?_spec hfree
    rw [place_of_free h enabled hfree]
    exact .free n (c.presented l).1 hn (ListRegister.isIdle_of_isEmpty he) (busy_presented h.sound h.has busy)
      (interface_seat h target he)
  | none =>
    have hm : c.mayPlace l = true := (mayPlace_eq h).trans enabled
    simp only [place, hm, if_true, makeRoom, hfree]
    cases hv : c.interface.victim? with
    | some n =>
      obtain ⟨hn, hb⟩ := CpuInterface.victim?_spec hv
      have room := room_evict h.sound h.has h.off hn hb
      have hd := room.frame.inHand h room.sound room.record
      have ht := (isTarget_congr room.frame.partition room.frame.vcpu room.record).trans target
      have hp := busy_presented hd.sound hd.has (by rw [room.record]; exact busy)
      obtain ⟨hcount, hread⟩ := interface_evict h.sound hb
      refine .full hfree ?_ (fun m => ?_) ?_ <;> simp only [interface_seat hd ht room.empty]
      · exact (CpuInterface.count_write ..).trans hcount
      · rw [CpuInterface.read_write]
        split
        next => exact .inr hp
        next hne => exact .inl (hread m fun e => hne ⟨e.symm, room.slot_lt⟩)
      · exact room.frame.control
    | none => exact .full hfree rfl (fun m => .inl rfl) (kept_wantMaintenance c _)

theorem interface_passOn (c d : Core) (l : Line) : (passOn c d l).interface = d.interface := by
  unfold passOn
  split
  next => rfl
  next => exact (posted_offer ..).interface

/-- **Delivering** does no more than placing here, or leaves the list registers to those of the other targets. -/
theorem enters_deliver (h : c.InHand l) : c.interface.Enters (c.deliver l).interface := by
  rw [deliver_eq, stateOf_of_off h.off]
  split
  next => exact .nothing rfl
  next hq =>
    simp only [Bool.or_eq_true, Bool.not_eq_true', not_or, Bool.not_eq_true, Bool.not_eq_false] at hq
    rw [interface_passOn]
    split
    next target => exact enters_place h hq.2 target hq.1
    next => exact .nothing rfl

/-! ## Retiring -/

theorem upkept_retire (h : c.Sound) (completed : (c.interface.read n).isCompleted = true) :
    c.interface.Upkept (c.retire n).interface ∧ ((c.retire n).interface.read n).isCompleted = false := by
  obtain ⟨l, hl, -, -, hc⟩ := h.seated.held n (ListRegister.not_isEmpty_of_isCompleted completed)
  refine CpuInterface.Enters.upkept_cleared completed ?_
  rw [retire_eq h hl hc]
  split
  next => exact .nothing rfl
  next => exact enters_deliver (inHand_retired h hl hc).1

/-- **Retiring the completed list registers leaves none.** -/
theorem upkept_retireCompleted (h : c.Sound) :
    c.interface.Upkept c.retireCompleted.interface ∧ c.retireCompleted.interface.Retired := by
  have all := h.retireCompleted_induct (P := fun ns d => c.interface.Upkept d.interface ∧
      ∀ m, (d.interface.read m).isCompleted = true → m ∈ ns)
    ⟨.refl _, fun m hm => (c.interface.mem_slotsWhere _ m).2 ⟨CpuInterface.lt_count_of_isCompleted hm, hm⟩⟩
    fun d n ns hd completed ⟨upkept, left⟩ => ?_
  · exact ⟨all.1, fun n => (Bool.not_eq_true _).mp fun hn => List.not_mem_nil (all.2 n hn)⟩
  · obtain ⟨first, gone⟩ := upkept_retire hd completed
    refine ⟨upkept.trans first, fun m hm => ?_⟩
    -- it was completed before
    have before : (d.interface.read m).isCompleted = true := (Bool.not_eq_false _).mp fun hn => by
      rw [first.cleared hn] at hm
      cases hm
    refine (List.mem_cons.1 (left m before)).resolve_left ?_
    rintro rfl
    rw [gone] at hm
    cases hm

/-! ## Completions that matched no list register -/

theorem interface_edit (c : Core) (l : Line) (s : Interrupt) : (c.edit l s).interface = c.interface := by
  unfold edit
  split <;> rfl

theorem upkept_deactivateSpilled (h : c.Sound) (hr : c.interface.Retired)
    (hf : (c.firstSpilled? fun l => (c.interrupt l).state.active && c.mayClaim l) = some l) :
    c.interface.Upkept c.deactivateSpilled.interface := by
  obtain ⟨hl, -, hsp, hp⟩ := firstSpilled?_spec hf
  have may := ((Bool.and_eq_true ..).mp hp).2
  have hc := inHand_claim h hl may (h.off_of_spilled hl hsp)
  obtain ⟨gic, e⟩ := deactivateSpilled_eq h hf
  have hx := inHand_gic (inHand_edit (s := ((c.claim l).interrupt l).deactivated) hc rfl hc.off rfl rfl).1 gic
  have hi : ({ (c.claim l).edit l ((c.claim l).interrupt l).deactivated with gic := gic } : Core).interface =
      c.interface := interface_edit ..
  rw [e]
  generalize ({ (c.claim l).edit l ((c.claim l).interrupt l).deactivated with gic := gic } : Core) = x at hx hi
  have enters := enters_deliver hx
  rw [hi] at enters
  exact enters.upkept hr

theorem upkept_deactivateAll {α : Type} (xs : List α) (h : c.Sound) (hr : c.interface.Retired) :
    c.interface.Upkept (xs.foldl (fun c _ => c.deactivateSpilled) c).interface :=
  h.deactivateAll_induct (P := fun d => c.interface.Upkept d.interface) xs (.refl _) fun _ _ hd first upkept =>
    upkept.trans (upkept_deactivateSpilled hd (upkept.retired hr) first)

/-- **Accounting for the completions leaves none to account for.** -/
theorem upkept_settleUnmatched (h : c.Sound) (hr : c.interface.Retired) :
    c.interface.Upkept c.settleUnmatched.interface ∧ c.settleUnmatched.interface.status.unmatched = false := by
  have none : (c.modifyControl ({ · with completions := 0 })).interface.status.unmatched = false := Bool.and_false _
  have first : c.interface.Upkept (c.modifyControl ({ · with completions := 0 })).interface :=
    ⟨rfl, fun _ => id, fun _ => none, id⟩
  have rest := upkept_deactivateAll (c := c.modifyControl ({ · with completions := 0 }))
    (List.range c.interface.control.completions.toNat) (h.alike (alike_modifyControl ..)) (first.retired hr)
  exact ⟨first.trans rest, rest.unmatched none⟩

/-! ## Refilling -/

theorem spillList_settle (c : Core) (n id : Nat) (home : Option Nat) :
    (c.settle n id).vm.spillList home = c.vm.spillList home := by
  unfold settle
  cases c.vm.occupant? c.vcpu n with
  | none => exact Vm.spillList_setOccupant ..
  | some old =>
    simp only
    split
    next => exact Vm.spillList_setOccupant ..
    next =>
      split
      next => exact Vm.spillList_setOccupant ..
      next =>
        split
        next =>
          refine (Vm.spillList_setInterrupt ..).trans ?_
          exact (Vm.spillList_setInterrupt ..).trans (Vm.spillList_setOccupant ..)
        next => exact Vm.spillList_setOccupant ..

/-- What is seated leaves its spill list. -/
theorem spillList_seat (h : c.InHand l) (target : c.isTarget l = true) (empty : (c.interface.read n).isEmpty = true)
    (spilled : (c.interrupt l).spilled = true) (home : Option Nat) :
    (c.seat l n).vm.spillList home =
      if l.home? = home then (c.vm.spillList home).filter (· != l.id) else c.vm.spillList home := by
  have hc := cleared_settle h.sound h.has (Line.seenBy_of_target target) h.off empty
  rw [(alike_seat (hc.inHand h)).spillList]
  refine (Vm.spillList_setInterrupt ..).trans ((spillList_unspill ..).trans ?_)
  rw [hc.record]
  simp only [spilled, true_and, spillList_settle]

theorem length_spilledIds_seat (h : c.InHand l) (target : c.isTarget l = true)
    (empty : (c.interface.read n).isEmpty = true) (spilled : (c.interrupt l).spilled = true) :
    (c.seat l n).spilledIds.length < c.spilledIds.length := by
  have hmem : l.id ∈ c.vm.spillList l.home? := (h.sound.lists.mem_iff l h.has).2 spilled
  have shorter : ((c.vm.spillList l.home?).filter (· != l.id)).length < (c.vm.spillList l.home?).length :=
    List.length_filter_lt_length_iff_exists.2 ⟨l.id, hmem, by simp⟩
  have seen := Line.seenBy_of_target target
  have hv : (c.seat l n).vcpu = c.vcpu := (cleared_settle h.sound h.has seen h.off empty).frame.vcpu
  unfold spilledIds
  rw [hv, List.length_append, List.length_append, spillList_seat h target empty spilled,
    spillList_seat h target empty spilled]
  cases hh : l.home? with
  | none =>
    rw [hh] at shorter
    rw [if_neg (by simp), if_pos rfl]
    omega
  | some home =>
    rw [hh, seen home hh] at shorter
    rw [seen home hh, if_pos rfl, if_neg (by simp)]
    omega

/-- What is brought back into a free list register waits no longer. -/
theorem refilled (h : c.Sound) (hl : c.vm.Has l) (may : c.mayClaim l = true) (spilled : (c.interrupt l).spilled = true)
    (enabled : (c.interrupt l).enabled = true) (target : c.isTarget l = true)
    (busy : (c.interrupt l).state.isIdle = false) (free : c.interface.freeSlot? = some n) :
    c.interface.Enters ((c.claim l).place l).1.interface ∧
      ((c.claim l).place l).1.spilledIds.length < c.spilledIds.length := by
  have hc := inHand_claim h hl may (h.off_of_spilled hl spilled)
  have ht := (isTarget_claim may).trans target
  have hr := claimed may
  have hen : ((c.claim l).interrupt l).enabled = true := by rw [hr]; exact enabled
  have ids : (c.claim l).spilledIds = c.spilledIds := by
    unfold spilledIds claim update
    rw [vm_setInterrupt, Vm.spillList_setInterrupt, Vm.spillList_setInterrupt]
    rfl
  refine ⟨enters_place hc hen ht (by rw [hr]; exact busy), ?_⟩
  rw [place_of_free hc hen free, ← ids]
  exact length_spilledIds_seat hc ht (CpuInterface.freeSlot?_spec free).2 (by rw [hr]; exact spilled)

/-- **Refilling ends with every list register in use or with the requests for it dropped.**  Each round takes an
interrupt off the spill lists, so there are enough rounds. -/
theorem upkept_refillLoop (pendingOnly : Bool) (rounds : Nat) (c : Core) (h : c.Sound) (hr : c.interface.Retired)
    (enough : c.spilledIds.length < rounds) :
    c.interface.Upkept (refillLoop pendingOnly rounds [] c).interface ∧
      (refillLoop pendingOnly rounds [] c).interface.Calm := by
  induction rounds generalizing c with
  | zero => exact absurd enough (Nat.not_lt_zero _)
  | succ rounds ih =>
    unfold refillLoop
    cases hfree : c.interface.freeSlot? with
    | none => exact ⟨.refl _, .inl (CpuInterface.full_of_retired hr hfree)⟩
    | some n =>
      simp only
      cases hf : c.firstSpilled? fun l => !([] : List Nat).contains l.id && c.isWanted pendingOnly l with
      | none =>
        have calm : c.dropRequests.interface.Calm := .inr ⟨(CpuInterface.noPending_eq_false_iff _).2 (.inl rfl),
          (CpuInterface.underflow_eq_false_iff _).2 (.inl rfl)⟩
        exact ⟨⟨rfl, fun _ => id, id, fun _ => calm⟩, calm⟩
      | some l =>
        obtain ⟨hl, -, hsp, hw⟩ := firstSpilled?_spec hf
        obtain ⟨busy, enabled, may, target⟩ := busy_of_isWanted ((Bool.and_eq_true ..).mp hw).2
        obtain ⟨placed, _, hs, -⟩ := handled_refill h hl may (h.off_of_spilled hl hsp) enabled target busy hfree
        obtain ⟨enters, shorter⟩ := refilled h hl may hsp enabled target busy hfree
        have first := enters.upkept hr
        simp only [placed, if_true]
        obtain ⟨rest, calm⟩ := ih ((c.claim l).place l).1 hs.sound (first.retired hr) (by omega)
        exact ⟨first.trans rest, calm⟩

/-! ## Maintenance -/

/-- **Maintenance clears the status** that it was asked for, up to list registers that are all in use. -/
theorem Sound.maintained (h : c.Sound) :
    c.maintain.interface.Retired ∧ c.maintain.interface.status.unmatched = false ∧ c.maintain.interface.Calm := by
  unfold maintain
  simp only
  -- each part keeps clear what the parts before it cleared
  have h1 : c.interface.Upkept (if c.interface.status.completed = true then c.retireCompleted else c).interface ∧
      (if c.interface.status.completed = true then c.retireCompleted else c).interface.Retired ∧
      (if c.interface.status.completed = true then c.retireCompleted else c).Sound := by
    split
    next => exact ⟨(upkept_retireCompleted h).1, (upkept_retireCompleted h).2, (retireCompleted_runs h).sound h⟩
    next hd => exact ⟨.refl _, c.interface.completed_eq_false_iff.1 ((Bool.not_eq_true _).mp hd), h⟩
  generalize (if c.interface.status.completed = true then c.retireCompleted else c) = d at h1
  obtain ⟨upkept, retired, hd⟩ := h1
  have h2 : c.interface.Upkept (if c.interface.status.unmatched = true then d.settleUnmatched else d).interface ∧
      (if c.interface.status.unmatched = true then d.settleUnmatched else d).interface.Retired ∧
      (if c.interface.status.unmatched = true then d.settleUnmatched else d).interface.status.unmatched = false ∧
      (if c.interface.status.unmatched = true then d.settleUnmatched else d).Sound := by
    split
    next =>
      obtain ⟨settled, none⟩ := upkept_settleUnmatched hd retired
      exact ⟨upkept.trans settled, settled.retired retired, none, (settleUnmatched_runs hd).sound hd⟩
    next hu => exact ⟨upkept, retired, upkept.unmatched ((Bool.not_eq_true _).mp hu), hd⟩
  generalize (if c.interface.status.unmatched = true then d.settleUnmatched else d) = e at h2
  obtain ⟨upkept, retired, none, he⟩ := h2
  split
  next =>
    obtain ⟨refilled, calm⟩ := upkept_refillLoop c.interface.status.noPending (e.spilledIds.length + 1) e he retired
      (Nat.lt_succ_self _)
    exact ⟨refilled.retired retired, refilled.unmatched none, calm⟩
  next hn =>
    rw [Bool.or_eq_true, not_or, Bool.not_eq_true, Bool.not_eq_true] at hn
    exact ⟨retired, none, upkept.calm (.inr hn)⟩

end Core

namespace Machine

variable {m : Machine} {cpu i : Nat} {c : Core}

/-- **Maintenance leaves no maintenance due, up to list registers that are all in use.**  After it no list register
waits to be retired and no completion waits to be accounted for.  That no list register is pending stays a reason for
maintenance only if each of them holds an active interrupt, and that at most one is in use only if there is no other. -/
theorem Reachable.status_maintained (h : m.Reachable) (hc : m.core? cpu = some (i, c)) :
    ∃ c', (m.step ⟨cpu, .maintain⟩).core? cpu = some (i, c') ∧
      c'.interface.status.completed = false ∧ c'.interface.status.unmatched = false ∧
      (c'.interface.status.noPending = true → ∀ n, n < c'.interface.count → (c'.interface.read n).state = ⟨false, true⟩) ∧
      (c'.interface.status.underflow = true → c'.interface.count ≤ 1 ∧ c'.interface.Full) := by
  have hs := h.arises.sound.core hc
  have hl := (Core.maintain_runs hs).local_
  have e : m.step ⟨cpu, .maintain⟩ = m.putCore i c.maintain := by
    unfold Machine.step onCore
    rw [hc]
    rfl
  obtain ⟨retired, none, calm⟩ := hs.maintained
  rw [e]
  exact ⟨c.maintain, core?_putCore hc hl.cpu hl.vcpu, (CpuInterface.completed_eq_false_iff _).2 retired, none,
    fun due _ hn => calm.noPending due hn, calm.underflow⟩

/-- One list register with an active interrupt, of which the priority was changed while it was pending. -/
def saturated : Machine :=
  (started 1 [1] [.standard .v2 1 64 [0] []]).run
    [⟨0, store distributorBase 4 1⟩, ⟨0, store (distributorBase + 0x104) 4 1⟩, ⟨0, .inject 32⟩,
      ⟨0, store (distributorBase + 0x420) 1 0x10⟩, ⟨0, .acknowledge⟩]

theorem reachable_saturated : saturated.Reachable := (reachable_started (by decide +kernel)).run _

theorem status_maintained_saturated : ∃ i c c', saturated.core? 0 = some (i, c) ∧
    (saturated.step ⟨0, .maintain⟩).core? 0 = some (i, c') ∧
    c'.interface.status.completed = false ∧ c'.interface.status.unmatched = false ∧
    (c'.interface.status.noPending = true → ∀ n, n < c'.interface.count → (c'.interface.read n).state = ⟨false, true⟩) ∧
    (c'.interface.status.underflow = true → c'.interface.count ≤ 1 ∧ c'.interface.Full) := by
  obtain ⟨⟨i, c⟩, hc⟩ := Option.isSome_iff_exists.1 (show (saturated.core? 0).isSome = true by decide +kernel)
  obtain ⟨c', h⟩ := reachable_saturated.status_maintained hc
  exact ⟨i, c, c', hc, h⟩

/-- **Maintenance may stay due with nothing to bring back**: where no list register is free, the request is not dropped. -/
theorem noPending_saturated : saturated.Reachable ∧ ∃ i c, (saturated.step ⟨0, .maintain⟩).core? 0 = some (i, c) ∧
    c.spilledIds = [] ∧ c.interface.status.noPending = true := by
  refine ⟨reachable_saturated, ?_⟩
  have runs : ((saturated.step ⟨0, .maintain⟩).core? 0).any (fun ic =>
      ic.2.spilledIds.isEmpty && ic.2.interface.status.noPending) = true := by decide +kernel
  obtain ⟨⟨i, c⟩, hc, due⟩ := (Option.any_eq_true _ _).1 runs
  rw [Bool.and_eq_true, List.isEmpty_iff] at due
  exact ⟨i, c, hc, due⟩

end Machine
end VirtualGic
