import VirtualGic.Proofs.Effect
/-!
# Requests of software interrupts

Under version 2 the requests for a software interrupt are in two places: the record keeps a set of requesters, and a
list register that is pending holds one more.  `Interrupt.Tallied` says how the two go together with the pending bit
and with the bit that asks for maintenance.  With that, what an interrupt is out of its list register
(`Core.recalled`) changes by deeds only, the requesters included: where the requests are makes no difference
(`Core.Runs.agrees`).
-/
namespace VirtualGic

open Interrupt (State)

/-- How the record of an interrupt that keeps a set of requesters goes together with the list register that holds it. -/
structure Interrupt.Tallied (s : Interrupt) (held : Option ListRegister) : Prop where
  /-- Out of list registers it is pending while requests wait. -/
  pending : held = none → s.state.pending = (s.requesters != 0)
  /-- A list register asks for maintenance while requests wait behind it. -/
  asks : ∀ r ∈ held, r.maintenanceBit = (s.requesters != 0)
  /-- The request in a list register is none of those that wait. -/
  apart : ∀ r ∈ held, r.state.pending = true → s.requesters.getLsbD r.requester.toNat = false
  /-- A list register holds one request, pending or active. -/
  single : ∀ r ∈ held, r.state.pending = true → r.state.active = false

/-! ## Sets of requesters -/

theorem or_requester_ne_zero (q : BitVec 8) (k : BitVec 3) : (q ||| BitVec.twoPow 8 k.toNat != 0) = true := by
  rw [bne_iff_ne]
  intro h
  have hk : k.toNat < 8 := k.isLt
  have hb := congrArg (·.getLsbD k.toNat) h
  simp [hk] at hb

theorem or_requester_of_not_mem {q : BitVec 8} {k : BitVec 3} (h : q.getLsbD k.toNat = false) :
    ListRegister.withoutRequester (q ||| BitVec.twoPow 8 k.toNat) k.toNat = q := by
  apply BitVec.eq_of_getLsbD_eq
  intro i hi
  rw [ListRegister.getLsbD_withoutRequester, BitVec.getLsbD_or, BitVec.getLsbD_twoPow]
  by_cases e : k.toNat = i
  · subst e
    simp [h]
  · simp [e]

namespace ListRegister

theorem lowestRequester?_spec {q : BitVec 8} {n : Nat} (h : lowestRequester? q = some n) :
    n < 8 ∧ q.getLsbD n = true :=
  ⟨List.mem_range.1 (List.mem_of_find?_eq_some h), List.find?_some h⟩

theorem lowestRequester?_eq_none {q : BitVec 8} (h : lowestRequester? q = none) : q = 0 := by
  apply BitVec.eq_of_getLsbD_eq
  intro i hi
  rw [Bool.eq_false_iff.2 (List.find?_eq_none.1 h i (List.mem_range.2 hi))]
  exact (BitVec.getLsbD_zero).symm

theorem getLsbD_askMaintenance (q : BitVec 8) :
    (if q == 0 then (0 : BitVec 13) else askMaintenance).getLsbD 9 = (q != 0) := by
  rw [bne]
  split
  next h => rw [h]; rfl
  next h => rw [Bool.not_eq_true] at h; rw [h]; rfl

/-- A list register that presents the requests of a software interrupt, with `q` left to wait. -/
structure Presents (r : ListRegister) (q : BitVec 8) (s : Interrupt) : Prop where
  busy : r.state.isIdle = false
  active : r.state.active = s.state.active
  single : r.state.pending = true → r.state.active = false
  apart : r.state.pending = true → q.getLsbD r.requester.toNat = false
  asks : r.maintenanceBit = (q != 0)
  whole : (if r.state.pending then q ||| BitVec.twoPow 8 r.requester.toNat else q) = s.requesters

/-- **One request goes into the list register, none is lost.** -/
theorem presents_presentRequest {l : Line} {s : Interrupt} {r : ListRegister} {q : BitVec 8} (fits : l.id < 0x400)
    (tallied : s.state.pending = (s.requesters != 0)) (busy : s.state.isIdle = false)
    (h : presentRequest l s = (r, { s with requesters := q })) : r.Presents q s := by
  unfold presentRequest at h
  by_cases ha : s.state.active = true
  · simp only [ha, if_true, Prod.mk.injEq] at h
    obtain ⟨rfl, hq⟩ := h
    obtain rfl : s.requesters = q := congrArg Interrupt.requesters hq
    rw [withNumber_eq _ fits rfl]
    refine ⟨rfl, ha.symm, fun hp => (by cases hp), fun hp => (by cases hp), getLsbD_askMaintenance _, rfl⟩
  · rw [Bool.not_eq_true] at ha
    cases hn : lowestRequester? s.requesters with
    | none =>
      -- without requesters it would be idle
      rw [lowestRequester?_eq_none hn] at tallied
      rw [State.isIdle, ha, tallied] at busy
      cases busy
    | some n =>
      obtain ⟨hlt, hmem⟩ := lowestRequester?_spec hn
      simp only [ha, Bool.false_eq_true, if_false, hn, Prod.mk.injEq] at h
      obtain ⟨rfl, hq⟩ := h
      obtain rfl : withoutRequester s.requesters n = q := congrArg Interrupt.requesters hq
      rw [withNumber_eq _ fits rfl]
      have hk : (BitVec.ofNat 3 n).toNat = n := (BitVec.toNat_ofNat ..).trans (Nat.mod_eq_of_lt hlt)
      refine ⟨rfl, ha.symm, fun _ => rfl, fun _ => ?_, getLsbD_askMaintenance _, ?_⟩
      · simp only [hk, getLsbD_withoutRequester, beq_self_eq_true, Bool.not_true, Bool.and_false]
      · simp only [hk, if_true]
        apply BitVec.eq_of_getLsbD_eq
        intro i hi
        rw [BitVec.getLsbD_or, getLsbD_withoutRequester, BitVec.getLsbD_twoPow]
        by_cases e : n = i
        · subst e
          simp [hmem, hlt]
        · simp [e]

end ListRegister

theorem Interrupt.Tallied.congr {s t : Interrupt} {held : Option ListRegister} (h : s.Tallied held)
    (agrees : s.Agrees True t) : t.Tallied held := by
  refine ⟨fun hn => ?_, fun r hr => ?_, fun r hr hp => ?_, h.single⟩
  · rw [agrees.state trivial, agrees.requesters trivial]
    exact h.pending hn
  · rw [agrees.requesters trivial]
    exact h.asks r hr
  · rw [agrees.requesters trivial]
    exact h.apart r hr hp

theorem Interrupt.tallied_none {s : Interrupt} (h : s.state.pending = (s.requesters != 0)) : s.Tallied none :=
  ⟨fun _ => h, fun _ hr => (by cases hr), fun _ hr => (by cases hr), fun _ hr => (by cases hr)⟩

/-! ## Edits -/

section Edit
variable {vm : Vm} {l : Line} {s t : Interrupt} {whole : Prop}

/-- **A field write does the same to records that say the same.** -/
theorem RegisterGroup.agrees_apply (g : RegisterGroup) (v : BitVec 64) (h : s.Agrees whole t) :
    (g.apply vm l v s).Agrees whole (g.apply vm l v t) := by
  obtain ⟨⟨h1, h2, h3, h4, h5, h6, h7, h8⟩, hs, hr⟩ := h
  cases g <;> simp only [apply]
  case setRequesters | clearRequesters =>
    split
    next => exact ⟨⟨h1, h2, h3, h4, h5, h6, h7, h8⟩, fun w => by simp only [hs w, hr w], fun w => by simp only [hr w]⟩
    next => exact ⟨⟨h1, h2, h3, h4, h5, h6, h7, h8⟩, hs, hr⟩
  case targets =>
    split
    next => exact ⟨⟨h1, h2, h3, h4, h5, h6, h7, h8⟩, hs, hr⟩
    next => exact ⟨⟨h1, h2, h3, h4, rfl, h6, Vm.delivery_eq rfl h6, h8⟩, hs, hr⟩
  case route =>
    split
    next => exact ⟨⟨h1, h2, h3, h4, h5, h6, h7, h8⟩, hs, hr⟩
    next => exact ⟨⟨h1, h2, h3, h4, h5, rfl, Vm.delivery_eq h5 rfl, h8⟩, hs, hr⟩
  case setPending | clearPending | setActive | clearActive =>
    split
    next => exact ⟨⟨h1, h2, h3, h4, h5, h6, h7, h8⟩, hs, hr⟩
    next => exact ⟨⟨h1, h2, h3, h4, h5, h6, h7, h8⟩, fun w => by rw [hs w], hr⟩
  case group => exact ⟨⟨h1, h2, h3, rfl, h5, h6, h7, h8⟩, hs, hr⟩
  case priority => exact ⟨⟨h1, rfl, h3, h4, h5, h6, h7, h8⟩, hs, hr⟩
  case config =>
    split
    next => exact ⟨⟨h1, h2, h3, h4, h5, h6, h7, h8⟩, hs, hr⟩
    next => exact ⟨⟨h1, h2, rfl, h4, h5, h6, h7, h8⟩, hs, hr⟩
  case setEnable | clearEnable =>
    split
    next => exact ⟨⟨h1, h2, h3, h4, h5, h6, h7, h8⟩, hs, hr⟩
    next => exact ⟨⟨rfl, h2, h3, h4, h5, h6, h7, h8⟩, hs, hr⟩
  all_goals exact ⟨⟨h1, h2, h3, h4, h5, h6, h7, h8⟩, hs, hr⟩

theorem Deed.agrees_edit (d : Deed) (h : s.Agrees whole t) : (d.edit vm s).Agrees whole (d.edit vm t) := by
  cases d with
  | write g k v => exact g.agrees_apply v h
  | forward g k v => exact h
  | raise | deactivate | complete =>
    refine ⟨⟨h.enabled, h.priority, h.config, h.group1, h.targets, h.route, h.delivery, h.hardware⟩, fun w => ?_,
      h.requesters⟩
    simp only [edit, Interrupt.raised, Interrupt.deactivated, h.state w]
  | acknowledge => exact ⟨⟨h.enabled, h.priority, h.config, h.group1, h.targets, h.route, h.delivery, h.hardware⟩,
      fun _ => rfl, h.requesters⟩

/-- The pending bit of a record follows the set of requesters through every field write. -/
theorem RegisterGroup.tallied_apply (g : RegisterGroup) (v : BitVec 64) (counts : vm.countsRequesters l = true)
    (h : s.state.pending = (s.requesters != 0)) :
    (g.apply vm l v s).state.pending = ((g.apply vm l v s).requesters != 0) := by
  have soft : l.isSoftware = true := by
    simp only [Vm.countsRequesters, Interrupt.countsRequesters, Bool.and_eq_true] at counts
    exact counts.2
  cases g <;> simp only [apply, counts, soft, Bool.or_true, if_true]
  case setRequesters =>
    rw [h]
    by_cases hz : s.requesters = 0
    · rw [hz]
      simp
    · have hor : (s.requesters ||| vcpusIn vm v != 0) = true := by
        rw [bne_iff_ne]
        intro e
        exact hz (BitVec.or_eq_zero_iff.1 e).1
      rw [hor, Bool.or_true]
  case clearRequesters =>
    rw [h]
    by_cases hz : s.requesters = 0
    · rw [hz]
      simp
    · rw [bne_iff_ne.2 hz, Bool.true_and]
  case setActive | clearActive => split <;> exact h
  case targets | route => split <;> exact h
  case setEnable => split <;> exact h
  all_goals exact h

end Edit

namespace Deed

/-- A deed that does not raise an interrupt with a set of requesters as hardware does. -/
def Tallies (vm : Vm) (d : Deed) : Prop := ∀ l, d = raise l → vm.countsRequesters l = false

theorem tallied_edit {vm : Vm} {l : Line} {s : Interrupt} {d : Deed} (handles : d.Handles l) (tallies : d.Tallies vm)
    (counts : vm.countsRequesters l = true) (h : s.state.pending = (s.requesters != 0)) :
    (d.edit vm s).state.pending = ((d.edit vm s).requesters != 0) := by
  cases d with
  | write g k v =>
    obtain rfl : k = l := handles
    exact g.tallied_apply v counts h
  | raise k =>
    obtain rfl : k = l := handles
    rw [tallies k rfl] at counts
    cases counts
  | deactivate k => exact h
  | forward | acknowledge | complete => exact handles.elim

/-- What some deeds, one after another, do to the record of an interrupt. -/
def edits (vm : Vm) (ds : List Deed) (l : Line) (s : Interrupt) : Interrupt :=
  ds.foldl (fun s d => if d.line = l then d.edit vm s else s) s

theorem edits_append (vm : Vm) (ds es : List Deed) (l : Line) (s : Interrupt) :
    edits vm (ds ++ es) l s = edits vm es l (edits vm ds l s) :=
  List.foldl_append ..

theorem edits_toList (vm : Vm) (d : Option Deed) (l : Line) (s : Interrupt) (line : ∀ a ∈ d, a.line ≠ l) :
    edits vm d.toList l s = s := by
  cases d with
  | none => rfl
  | some a => exact if_neg (line a rfl)

theorem edit_congr {vm vm' : Vm} (hp : vm'.partition = vm.partition) (d : Deed) : d.edit vm' = d.edit vm := by
  cases d with
  | write g l v => exact funext fun s => g.apply_congr hp l v s
  | _ => rfl

theorem edits_congr {vm vm' : Vm} (hp : vm'.partition = vm.partition) (ds : List Deed) (l : Line) (s : Interrupt) :
    edits vm' ds l s = edits vm ds l s := by
  unfold edits
  simp only [edit_congr hp]

theorem agrees_edits {vm : Vm} {whole : Prop} (ds : List Deed) (l : Line) {s t : Interrupt} (h : s.Agrees whole t) :
    (edits vm ds l s).Agrees whole (edits vm ds l t) := by
  induction ds generalizing s t with
  | nil => exact h
  | cons d ds ih =>
    refine ih ?_
    show Interrupt.Agrees whole (if d.line = l then d.edit vm s else s) (if d.line = l then d.edit vm t else t)
    split
    next => exact d.agrees_edit h
    next => exact h

end Deed

namespace Core

variable {c c' : Core} {l m : Line} {s : Interrupt} {r : ListRegister} {q : BitVec 8} {d : Option Deed} {ds : List Deed}

/-! ## Taking back -/

theorem requesters_takenBack (counts : c.vm.countsRequesters l = true) (r : ListRegister) :
    (c.takenBack l r).requesters =
      if r.state.pending then (c.interrupt l).requesters ||| BitVec.twoPow 8 r.requester.toNat
      else (c.interrupt l).requesters := by
  simp only [takenBack, counts, if_true, ListRegister.restoreRequest]

/-- Out of its list register an interrupt is pending while requests wait, that of the register included. -/
theorem state_takenBack_of_counts (counts : c.vm.countsRequesters l = true) (r : ListRegister) :
    (c.takenBack l r).state = ⟨(c.takenBack l r).requesters != 0, r.state.active⟩ := by
  rw [requesters_takenBack counts]
  simp only [takenBack, counts, if_true, ListRegister.restoreRequest]
  cases r.state.pending with
  | true => simp only [if_true, or_requester_ne_zero, Bool.or_true]
  | false => simp only [Bool.false_eq_true, if_false, Bool.false_or]

theorem pending_recalled (counts : c.vm.countsRequesters l = true) (h : (c.interrupt l).Tallied (c.held? l)) :
    (c.recalled l).state.pending = ((c.recalled l).requesters != 0) := by
  unfold recalled
  cases hh : c.held? l with
  | some r =>
    simp only
    rw [state_takenBack_of_counts counts]
  | none => exact h.pending hh

/-! ## The interrupt in hand -/

theorem requesters_of_plain (plain : c.vm.countsRequesters l = false)
    (presents : presentation c.vm l s = (r, { s with requesters := q })) : q = s.requesters := by
  unfold presentation at presents
  rw [plain, if_neg (by decide)] at presents
  exact (congrArg (·.2.requesters) presents).symm

theorem presents_of_counts (fits : l.id < 0x400) (counts : c.vm.countsRequesters l = true)
    (tallied : s.state.pending = (s.requesters != 0)) (busy : s.state.isIdle = false)
    (presents : presentation c.vm l s = (r, { s with requesters := q })) : r.Presents q s := by
  unfold presentation at presents
  rw [counts, if_pos rfl] at presents
  exact ListRegister.presents_presentRequest fits tallied busy presents

theorem state_of_plain (fits : l.id < 0x400) (plain : c.vm.countsRequesters l = false)
    (presents : presentation c.vm l s = (r, { s with requesters := q })) (apart : (s.hardware && s.state.active) = false) :
    r.state = s.state := by
  unfold presentation at presents
  rw [plain, if_neg (by decide)] at presents
  exact (congrArg (·.1.state) presents).symm.trans (ListRegister.state_present fits apart)

/-- **However it ends, what is in hand stays what its record was made.** -/
theorem Final.agrees (h : Final c c' l s) (same : Same c c') (off : s.resident = false) (fits : l.id < 0x400)
    (tallied : c.vm.countsRequesters l = true → s.state.pending = (s.requesters != 0)) :
    s.Agrees ((s.hardware && s.state.active) = false) (c'.recalled l) := by
  have released : ∀ {t : Interrupt}, c'.interrupt l = t.release c.vm.version l c.vcpu → t.resident = false →
      s.Agrees True t → s.Agrees ((s.hardware && s.state.active) = false) (c'.recalled l) := fun {t} record toff agrees => by
    rw [recalled_of_off (by rw [record, resident_release]; exact toff), record]
    exact (agrees.trans (Interrupt.agrees_release ..)).imp fun _ => trivial
  cases h with
  | quiet why record => exact released record off (.refl _ _)
  | seated n q r target record held state presents busy =>
    have settings : s.SameSettings (c'.recalled l) := by
      refine .trans ?_ (sameSettings_recalled c' l)
      rw [record]
      exact ⟨rfl, rfl, rfl, rfl, rfl, rfl, rfl, rfl⟩
    have hq : (c'.interrupt l).requesters = q := by rw [record]
    rw [recalled_of_held held] at settings ⊢
    cases counts : c.vm.countsRequesters l with
    | false =>
      have plain : c'.vm.countsRequesters l = false := (Vm.countsRequesters_congr same.partition l).trans counts
      refine ⟨settings, fun apart => (state_takenBack plain r).trans (state_of_plain fits counts presents apart),
        fun _ => ?_⟩
      rw [← requesters_of_plain counts presents, ← hq]
      simp only [takenBack, plain, Bool.false_eq_true, if_false]
    | true =>
      have hp := presents_of_counts fits counts (tallied counts) busy presents
      have counts' : c'.vm.countsRequesters l = true := (Vm.countsRequesters_congr same.partition l).trans counts
      have hreq : (c'.takenBack l r).requesters = s.requesters := by
        rw [requesters_takenBack counts', hq]
        exact hp.whole
      refine ⟨settings, fun _ => ?_, fun _ => hreq⟩
      rw [state_takenBack_of_counts counts', hreq, ← tallied counts, hp.active]
  | parked busy target record =>
    exact released record off ⟨⟨rfl, rfl, rfl, rfl, rfl, rfl, rfl, rfl⟩, fun _ => rfl, fun _ => rfl⟩
  | offered busy target record => exact released record off (.refl _ _)

theorem Final.tallied (h : Final c c' l s) (off : s.resident = false) (fits : l.id < 0x400)
    (counts : c.vm.countsRequesters l = true) (tallied : s.state.pending = (s.requesters != 0)) :
    (c'.interrupt l).Tallied (c'.held? l) := by
  have released : ∀ {t : Interrupt}, c'.interrupt l = t.release c.vm.version l c.vcpu → t.resident = false →
      t.state.pending = (t.requesters != 0) → (c'.interrupt l).Tallied (c'.held? l) := fun {t} record toff ht => by
    rw [held?_of_off (by rw [record, resident_release]; exact toff), record]
    exact (Interrupt.tallied_none ht).congr (Interrupt.agrees_release ..)
  cases h with
  | quiet why record => exact released record off tallied
  | seated n q r target record held state presents busy =>
    have hp := presents_of_counts fits counts tallied busy presents
    rw [held, record]
    exact ⟨fun hn => (by cases hn), fun _ hr => by cases hr; exact hp.asks, fun _ hr => by cases hr; exact hp.apart,
      fun _ hr => by cases hr; exact hp.single⟩
  | parked busy target record => exact released record off tallied
  | offered busy target record => exact released record off tallied

/-! ## The others -/

theorem requesters_of_empty (hs : c.Sound) (hm : c.vm.Has m) (counts : c.vm.countsRequesters m = true)
    (tallied : (c.interrupt m).Tallied (c.held? m)) (held : c.held? m = some r) (empty : r.isEmpty = true) :
    (c.interrupt m).requesters = 0 := by
  obtain ⟨n, credits, hr, -⟩ := (c.held?_eq_some_iff m r).1 held
  have hw : r.hardware = false := by
    have shows := (hs.seated.seat m n hm credits).shows.hardware
    rw [credits.2.2, hr] at shows
    exact shows.trans (hs.soft_of_counts hm counts)
  have asks := tallied.asks r held
  simp only [ListRegister.isEmpty, hw, Bool.false_or, Bool.and_eq_true, Bool.not_eq_true'] at empty
  rw [empty.2] at asks
  simpa using asks.symm

/-- **What an operation leaves alone stays what it is**, in a list register or out of it. -/
theorem Fate.agrees (h : Fate c c' m) (same : Same c c') (hs : c.Sound) (hm : c.vm.Has m)
    (tallied : c.vm.countsRequesters m = true → (c.interrupt m).Tallied (c.held? m)) :
    (c.recalled m).Agrees True (c'.recalled m) := by
  cases h with
  | kept record held =>
    refine agrees_recalled same.partition ?_ held
    rw [record]
    exact .refl _ _
  | evicted r held busy record =>
    have off : (c'.interrupt m).resident = false := by
      rw [record, resident_release]
      exact resident_takenBack c m r
    rw [recalled_of_held held, recalled_of_off off, record]
    refine .trans ?_ (Interrupt.agrees_release ..)
    exact ⟨⟨rfl, rfl, rfl, rfl, rfl, rfl, rfl, rfl⟩, fun _ => rfl, fun _ => rfl⟩
  | settled r held empty record =>
    have off : (c'.interrupt m).resident = false := by rw [record, resident_release]
    have idle := (State.isIdle_iff _).1 (ListRegister.isIdle_of_isEmpty empty)
    rw [recalled_of_held held, recalled_of_off off, record]
    refine .trans (t := { c.interrupt m with resident := false, state := .idle }) ?_ (Interrupt.agrees_release ..)
    refine ⟨(sameSettings_takenBack c m r).symm.trans ⟨rfl, rfl, rfl, rfl, rfl, rfl, rfl, rfl⟩, fun _ => ?_, fun _ => ?_⟩
    · cases counts : c.vm.countsRequesters m with
      | false => exact idle.symm.trans (state_takenBack counts r).symm
      | true =>
        rw [state_takenBack_of_counts counts, requesters_takenBack counts,
          requesters_of_empty hs hm counts (tallied counts) held empty, idle]
        rfl
    · cases counts : c.vm.countsRequesters m with
      | false => simp only [takenBack, counts, Bool.false_eq_true, if_false]
      | true =>
        rw [requesters_takenBack counts, idle]
        rfl

theorem Fate.tallied (h : Fate c c' m) (hs : c.Sound) (hm : c.vm.Has m) (counts : c.vm.countsRequesters m = true)
    (tallied : (c.interrupt m).Tallied (c.held? m)) : (c'.interrupt m).Tallied (c'.held? m) := by
  cases h with
  | kept record held =>
    rw [record, held]
    exact tallied
  | evicted r held busy record =>
    rw [held?_of_off (by rw [record, resident_release]; exact resident_takenBack c m r), record]
    refine Interrupt.Tallied.congr (Interrupt.tallied_none (s := { c.takenBack m r with spilled := true }) ?_)
      (Interrupt.agrees_release ..)
    show (c.takenBack m r).state.pending = _
    rw [state_takenBack_of_counts counts]
  | settled r held empty record =>
    rw [held?_of_off (by rw [record, resident_release]), record]
    refine Interrupt.Tallied.congr (Interrupt.tallied_none
      (s := { c.interrupt m with resident := false, state := .idle }) ?_) (Interrupt.agrees_release ..)
    show false = ((c.interrupt m).requesters != 0)
    rw [requesters_of_empty hs hm counts tallied held empty]
    rfl

/-! ## What the guest changes -/

theorem Tallied.restated {st : State} (h : s.Tallied (some r))
    (pending : st.pending = true → r.state.pending = true ∧ st.active = false) :
    s.Tallied (some { r with state := st }) := by
  refine ⟨fun hn => (by cases hn), fun x hx => ?_, fun x hx hp => ?_, fun x hx hp => ?_⟩ <;> cases hx
  · exact h.asks r rfl
  · exact h.apart r rfl (pending hp).1
  · exact (pending hp).2

theorem agrees_completed (c : Core) (l : Line) (r : ListRegister) :
    (c.takenBack l r).deactivated.Agrees True (c.takenBack l { r with state := { r.state with active := false } }) := by
  unfold takenBack
  simp only
  split <;> exact ⟨⟨rfl, rfl, rfl, rfl, rfl, rfl, rfl, rfl⟩, fun _ => rfl, fun _ => rfl⟩

theorem agrees_acknowledged (plain : c.vm.countsRequesters l = false) (r : ListRegister) :
    ({ c.takenBack l r with state := ⟨false, true⟩ } : Interrupt).Agrees True
      (c.takenBack l { r with state := ⟨false, true⟩ }) := by
  unfold takenBack
  simp only [plain, Bool.false_eq_true, if_false]
  exact ⟨⟨rfl, rfl, rfl, rfl, rfl, rfl, rfl, rfl⟩, fun _ => rfl, fun _ => rfl⟩

/-! ## One operation -/

theorem tallied_made (made : Made c l (Deed.edit? c.vm d) s) (deed : ∀ a ∈ d, a.Handles l)
    (tallies : ∀ a ∈ d, a.Tallies c.vm) (counts : c.vm.countsRequesters l = true)
    (tallied : (c.interrupt l).Tallied (c.held? l)) : s.state.pending = (s.requesters != 0) := by
  obtain ⟨t, ht, hs⟩ := made
  have htt : t.state.pending = (t.requesters != 0) := by
    rw [ht.state trivial, ht.requesters trivial]
    exact pending_recalled counts tallied
  rw [hs.state trivial, hs.requesters trivial]
  cases d with
  | none => exact htt
  | some a => exact Deed.tallied_edit (deed a rfl) (tallies a rfl) counts htt

theorem Alike.agrees (h : Alike c c') (m : Line) : (c.recalled m).Agrees True (c'.recalled m) := by
  refine agrees_recalled h.partition ?_ (h.held? m)
  rw [h.interrupt]
  exact .refl _ _

theorem Alike.tallied (h : Alike c c') (tallied : (c.interrupt m).Tallied (c.held? m)) :
    (c'.interrupt m).Tallied (c'.held? m) := by
  rw [h.interrupt, h.held? m]
  exact tallied

/-- **Whatever a core does, requests and the bits that tell of them stay together.** -/
theorem Does.tallied (h : Does c c' d) (hs : c.Sound) (hm : c.vm.Has m) (tallies : ∀ a ∈ d, a.Tallies c.vm)
    (counts : c.vm.countsRequesters m = true) (tallied : (c.interrupt m).Tallied (c.held? m)) :
    (c'.interrupt m).Tallied (c'.held? m) := by
  cases h with
  | handled l s deed h made =>
    by_cases hml : m = l
    · subst hml
      exact h.final.tallied h.off (Vm.id_lt_of_has hs.station.checked hm) counts
        (tallied_made made deed tallies counts tallied)
    · exact (h.frame.fate m hm hml).tallied hs hm counts tallied
  | returned l has may eq =>
    rw [eq, held?_returned hs has may]
    exact tallied.congr (agrees_returned may m)
  | forwarded g l v h => exact h.posted.alike.tallied tallied
  | posted r other h => exact h.alike.tallied tallied
  | restated a n has credited guest eq =>
    rw [eq]
    by_cases ham : a.line = m
    · subst ham
      rw [hs.held? has credited] at tallied
      rw [held?_restated hs has credited]
      refine Tallied.restated tallied fun hp => ?_
      cases a with
      | acknowledge => cases hp
      | complete => exact ⟨hp, rfl⟩
      | write | forward | raise | deactivate => exact guest.elim
    · rw [held?_restated_other hs has credited hm ham]
      exact tallied
  | aside h => exact h.tallied tallied
  | dropped pendingOnly drained eq =>
    rw [eq]
    exact (alike_dropRequests c).tallied tallied

/-- The interrupt in hand is changed by the deed on it, up to the pending bit of hardware that is active. -/
theorem Handled.agrees_of_apart {s : Interrupt} (h : Handled c c' m s) (hs : c.Sound) (hm : c.vm.Has m)
    (deed : ∀ a ∈ d, a.Handles m) (made : Made c m (Deed.edit? c.vm d) s) (tallies : ∀ a ∈ d, a.Tallies c.vm)
    (tallied : c.vm.countsRequesters m = true → (c.interrupt m).Tallied (c.held? m)) :
    (Deed.edits c.vm d.toList m (c.recalled m)).Agrees ((s.hardware && s.state.active) = false) (c'.recalled m) := by
  have final := h.final.agrees h.frame.toSame h.off (Vm.id_lt_of_has hs.station.checked hm) fun counts =>
    tallied_made made deed tallies counts (tallied counts)
  obtain ⟨t, ht, hts⟩ := made
  refine .trans ?_ final
  refine .trans ?_ (hts.imp fun _ => trivial)
  cases d with
  | none => exact ht.imp fun _ => trivial
  | some a =>
    show (if a.line = m then a.edit c.vm (c.recalled m) else c.recalled m).Agrees _ _
    rw [if_pos (deed a rfl).line]
    exact (a.agrees_edit ht).imp fun _ => trivial

theorem Handled.agrees {s : Interrupt} (h : Handled c c' m s) (hs : c.Sound) (hm : c.vm.Has m) (deed : ∀ a ∈ d, a.Handles m)
    (made : Made c m (Deed.edit? c.vm d) s) (tallies : ∀ a ∈ d, a.Tallies c.vm)
    (tallied : c.vm.countsRequesters m = true → (c.interrupt m).Tallied (c.held? m)) :
    (Deed.edits c.vm d.toList m (c.recalled m)).Agrees ((c.interrupt m).hardware = false) (c'.recalled m) :=
  (h.agrees_of_apart hs hm deed made tallies tallied).imp fun soft => by
    rw [soft_of_lawful (hs.records m hm) h.lawful soft, Bool.false_and]

/-- What the guest does to an interrupt in a list register changes this interrupt only. -/
theorem agrees_restated {a : Deed} {n : Nat} (hs : c.Sound) (hm : c.vm.Has m) (has : c.vm.Has a.line)
    (credited : c.vm.Credits c.vcpu a.line n) (guest : a.Guest)
    (unasked : c.vm.countsRequesters m = true → a ≠ .acknowledge m) :
    (Deed.edits c.vm [a] m (c.recalled m)).Agrees True ((c.writeSlot n { c.interface.read n with
      state := (a.edit c.vm { c.interrupt a.line with state := (c.interface.read n).state }).state }).recalled m) := by
  show (if a.line = m then a.edit c.vm (c.recalled m) else c.recalled m).Agrees _ _
  by_cases ham : a.line = m
  · subst ham
    rw [if_pos rfl, recalled_of_held (hs.held? has credited), recalled_of_held (held?_restated hs has credited _)]
    cases a with
    | write | forward | raise | deactivate => exact guest.elim
    | complete k => exact (agrees_completed c k _).imp fun _ => trivial
    | acknowledge k =>
      have plain : c.vm.countsRequesters k = false := Bool.eq_false_iff.2 fun counts => unasked counts rfl
      exact (agrees_acknowledged plain _).imp fun _ => trivial
  · rw [if_neg ham]
    exact agrees_recalled rfl (.refl _ _) (held?_restated_other hs has credited hm ham _)

/-- **Whatever a core does, an interrupt is changed by its deeds only.**  An acknowledgement, which takes a request out
of a list register, is left aside where requests are counted. -/
theorem Does.agrees (h : Does c c' d) (hs : c.Sound) (hm : c.vm.Has m) (tallies : ∀ a ∈ d, a.Tallies c.vm)
    (unasked : ∀ a ∈ d, c.vm.countsRequesters m = true → a ≠ .acknowledge m)
    (tallied : c.vm.countsRequesters m = true → (c.interrupt m).Tallied (c.held? m)) :
    (Deed.edits c.vm d.toList m (c.recalled m)).Agrees ((c.interrupt m).hardware = false) (c'.recalled m) := by
  have alike : Alike c c' → (c.recalled m).Agrees ((c.interrupt m).hardware = false) (c'.recalled m) := fun h =>
    (h.agrees m).imp fun _ => trivial
  cases h with
  | handled l s deed h made =>
    by_cases hml : m = l
    · subst hml
      exact h.agrees hs hm deed made tallies tallied
    · rw [Deed.edits_toList c.vm d m _ fun a ha e => hml (e.symm.trans (deed a ha).line)]
      exact ((h.frame.fate m hm hml).agrees h.frame.toSame hs hm tallied).imp fun _ => trivial
  | returned l has may eq =>
    rw [eq]
    exact (agrees_recalled ((frame_claim c l).trans (frame_release _ l)).partition (agrees_returned may m)
      (held?_returned hs has may m)).imp fun _ => trivial
  | forwarded g l v h =>
    rw [show Deed.edits c.vm (some (Deed.forward g l v)).toList m (c.recalled m) = c.recalled m from ite_self _]
    exact alike h.posted.alike
  | posted r other h => exact alike h.alike
  | restated a n has credited guest eq =>
    rw [eq]
    exact (agrees_restated hs hm has credited guest fun counts => unasked a rfl counts).imp fun _ => trivial
  | aside h => exact alike h
  | dropped pendingOnly drained eq =>
    rw [eq]
    exact ((alike_dropRequests c).agrees m).imp fun _ => trivial

/-- A core has no deeds on what it may not claim. -/
theorem Does.edits_of_elsewhere (h : Does c c' d) (may : c.mayClaim m = false) (s : Interrupt) :
    Deed.edits c.vm d.toList m s = s := by
  cases h with
  | handled l t deed h =>
    refine Deed.edits_toList c.vm d m s fun a ha e => ?_
    have hl := h.may
    rw [← (deed a ha).line, e, may] at hl
    cases hl
  | forwarded g l v h => exact ite_self _
  | restated a n has credited =>
    refine Deed.edits_toList c.vm _ m s fun b hb e => ?_
    cases hb
    have hl := (c.mayClaim_iff a.line).2 (.inr credited.1)
    rw [e, may] at hl
    cases hl
  | returned | posted | aside | dropped => rfl

/-! ## Runs -/

theorem Runs.tallied (h : Runs c ds c') (hs : c.Sound) (hm : c.vm.Has m) (tallies : ∀ a ∈ ds, a.Tallies c.vm)
    (counts : c.vm.countsRequesters m = true) (tallied : (c.interrupt m).Tallied (c.held? m)) :
    (c'.interrupt m).Tallied (c'.held? m) := by
  induction h with
  | nil => exact tallied
  | @cons c c' c'' d ds hd _ ih =>
    have hp := hd.same.partition
    refine ih (hd.sound hs) ((Vm.has_congr hp m).2 hm) (fun a ha l hl => ?_) ((Vm.countsRequesters_congr hp m).trans counts)
      (hd.tallied hs hm (fun a ha => tallies a (List.mem_append_left _ (Option.mem_toList.2 ha))) counts tallied)
    exact (Vm.countsRequesters_congr hp l).trans (tallies a (List.mem_append_right _ ha) l hl)

theorem Runs.agrees (h : Runs c ds c') (hs : c.Sound) (hm : c.vm.Has m) (tallies : ∀ a ∈ ds, a.Tallies c.vm)
    (unasked : ∀ a ∈ ds, c.vm.countsRequesters m = true → a ≠ .acknowledge m)
    (tallied : c.vm.countsRequesters m = true → (c.interrupt m).Tallied (c.held? m)) :
    (Deed.edits c.vm ds m (c.recalled m)).Agrees ((c.interrupt m).hardware = false) (c'.recalled m) := by
  induction h with
  | nil => exact .refl _ _
  | @cons c c' c'' d ds hd _ ih =>
    have hp := hd.same.partition
    have hs' := hd.sound hs
    have hcount := Vm.countsRequesters_congr hp
    have first : ∀ a ∈ d, a ∈ d.toList ++ ds := fun a ha => List.mem_append_left _ (Option.mem_toList.2 ha)
    have rest : ∀ a ∈ ds, a ∈ d.toList ++ ds := fun a ha => List.mem_append_right _ ha
    have hd' := hd.agrees hs hm (fun a ha => tallies a (first a ha)) (fun a ha => unasked a (first a ha)) tallied
    have hrest := ih hs' ((Vm.has_congr hp m).2 hm) (fun a ha l hl => (hcount l).trans (tallies a (rest a ha) l hl))
      (fun a ha hc => unasked a (rest a ha) ((hcount m).symm.trans hc))
      (fun hc => hd.tallied hs hm (fun a ha => tallies a (first a ha)) ((hcount m).symm.trans hc)
        (tallied ((hcount m).symm.trans hc)))
    rw [Deed.edits_congr hp] at hrest
    rw [Deed.edits_append]
    exact (Deed.agrees_edits ds m hd').trans (hrest.imp fun soft => hardware_congr hs hs' hp hm soft)

theorem Runs.edits_of_elsewhere (h : Runs c ds c') (hm : c.vm.Has m) (may : c.mayClaim m = false) (s : Interrupt) :
    Deed.edits c.vm ds m s = s := by
  induction h with
  | nil => rfl
  | @cons c c' c'' d ds hd _ ih =>
    have hp := hd.same.partition
    have hrest := ih ((Vm.has_congr hp m).2 hm) ((hd.local_.mayClaim hm).trans may)
    rw [Deed.edits_congr hp] at hrest
    rw [Deed.edits_append, hd.edits_of_elsewhere may s]
    exact hrest

end Core
end VirtualGic
