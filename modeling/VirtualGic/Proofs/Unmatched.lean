import Mathlib.Data.List.Perm.Subperm
import VirtualGic.Proofs.Activity
import VirtualGic.Proofs.Refill
/-!
# Completions that match no list register

A completion that matches no list register is for an active interrupt that waits on a spill list (`Core.Outstanding`).
Each round of maintenance deactivates the most important one (`Core.Deactivates`).  If that one is pending too it is
presented again, and what has to make room for it may be active: then it is outstanding in the next round.
`Core.Accounted` says what all rounds do, and `Machine.Arises.accounts` that nothing else becomes inactive.
-/
namespace VirtualGic

theorem Interrupt.Agrees.deactivated {s t : Interrupt} {whole : Prop} (h : s.Agrees whole t) :
    s.deactivated.Agrees whole t.deactivated :=
  ⟨⟨h.enabled, h.priority, h.config, h.group1, h.targets, h.route, h.delivery, h.hardware⟩,
    fun w => by simp only [Interrupt.deactivated, h.state w], h.requesters⟩

namespace Core

variable {c c' d : Core} {j k l : Line} {ds : List Deed} {es ls : List Line} {n : Nat} {s : Interrupt}

/-! ## Between two operations -/

/-- What holds of a core between two operations. -/
structure Between (c : Core) : Prop where
  sound : c.Sound
  tallied : c.Tallied
  rest : ∀ l, c.vm.Has l → (c.interrupt l).AtRest l

theorem Does.between {a : Option Deed} (h : Does c c' a) (hb : c.Between) (tallies : ∀ b ∈ a, b.Tallies c.vm) :
    c'.Between :=
  ⟨h.sound hb.sound, h.keepsTallied hb.sound hb.tallied tallies,
    fun l hl => h.atRest hb.sound hb.rest ((Vm.has_congr h.same.partition l).1 hl)⟩

theorem Runs.between (h : Runs c ds c') (hb : c.Between) (tallies : ∀ a ∈ ds, a.Tallies c.vm) : c'.Between := by
  induction h with
  | nil => exact hb
  | cons hd _ ih =>
    refine ih (hd.between hb fun a ha => tallies a (List.mem_append_left _ (Option.mem_toList.2 ha))) fun a ha l hl => ?_
    exact (Vm.countsRequesters_congr hd.same.partition l).trans (tallies a (List.mem_append_right _ ha) l hl)

theorem Alike.between (h : Alike c d) (hb : c.Between) : d.Between := by
  refine ⟨hb.sound.alike h, fun l hl may counts => ?_, fun l hl => ?_⟩
  · rw [mayClaim_congr h.vcpu (h.interrupt l)] at may
    rw [Vm.countsRequesters_congr h.partition] at counts
    exact h.tallied (hb.tallied l ((Vm.has_congr h.partition l).1 hl) may counts)
  · rw [h.interrupt]
    exact hb.rest l ((Vm.has_congr h.partition l).1 hl)

/-- What an operation leaves alone stays what it is. -/
theorem Between.agrees_of_fate (h : c.Between) (same : Same c d) (hk : c.vm.Has k) (fate : Fate c d k) :
    (c.recalled k).Agrees True (d.recalled k) := by
  cases may : c.mayClaim k with
  | true => exact fate.agrees same h.sound hk (h.tallied k hk may)
  | false =>
    have elsewhere : c.held? k = none := Option.eq_none_iff_forall_ne_some.2 fun r held => by
      rw [(c.mayClaim_iff k).2 (.inr (owner_of_held held))] at may
      cases may
    cases fate with
    | kept record held => exact agrees_recalled same.partition (by rw [record]; exact .refl _ _) held
    | evicted r held | settled r held =>
      rw [elsewhere] at held
      cases held

/-- It is in no list register that did not hold it before. -/
theorem Fate.held {r : ListRegister} (h : Fate c d k) (held : d.held? k = some r) : c.held? k = some r := by
  cases h with
  | kept record same => rw [← same, held]
  | evicted r' before busy record =>
    rw [held?_of_off (by rw [record, resident_release]; exact resident_takenBack c k r')] at held
    cases held
  | settled r' before empty record =>
    rw [held?_of_off (by rw [record, resident_release])] at held
    cases held

/-! ## What may be completed without a list register -/

/-- This vCPU owns an active interrupt that waits on a list which its core serves. -/
structure Outstanding (c : Core) (l : Line) : Prop where
  has : c.vm.Has l
  seen : l.SeenBy c.vcpu
  spilled : (c.interrupt l).spilled = true
  active : (c.interrupt l).state.active = true
  owned : (c.interrupt l).owner = some c.vcpu

/-- A list register of this core shows an interrupt active. -/
def ShowsActive (c : Core) (l : Line) : Prop := c.vm.Has l ∧ ∃ r, c.held? l = some r ∧ r.state.active = true

theorem Outstanding.congr (h : c.Outstanding l) (same : Same c d) (record : d.interrupt l = c.interrupt l) :
    d.Outstanding l := by
  obtain ⟨has, seen, spilled, active, owned⟩ := h
  rw [← same.vcpu] at seen owned
  rw [← record] at spilled active owned
  exact ⟨(Vm.has_congr same.partition l).2 has, seen, spilled, active, owned⟩

theorem Alike.outstanding_iff (h : Alike c d) (l : Line) : d.Outstanding l ↔ c.Outstanding l :=
  ⟨fun o => o.congr h.toSame.symm (h.interrupt l).symm, fun o => o.congr h.toSame (h.interrupt l)⟩

theorem Alike.showsActive_iff (h : Alike c d) (l : Line) : d.ShowsActive l ↔ c.ShowsActive l := by
  unfold ShowsActive
  rw [h.held? l, Vm.has_congr h.partition l]

theorem Outstanding.off (o : c.Outstanding l) (h : c.Sound) : (c.interrupt l).resident = false :=
  h.off_of_spilled o.has o.spilled

theorem mem_outstanding (h : c.Between) :
    l ∈ c.spilledLines (fun l => (c.interrupt l).state.active && c.mayClaim l) ↔ c.Outstanding l := by
  rw [mem_spilledLines_iff h.sound, Bool.and_eq_true, mayClaim_iff]
  constructor
  · rintro ⟨has, seen, spilled, active, free⟩
    exact ⟨has, seen, spilled, active, free.resolve_left ((h.rest l has).active_owned active)⟩
  · rintro ⟨has, seen, spilled, active, owned⟩
    exact ⟨has, seen, spilled, active, .inr owned⟩

/-! ## One round -/

/-- A completion deactivated the most important outstanding interrupt. -/
structure Deactivates (c d : Core) (l : Line) : Prop extends Same c d where
  outstanding : c.Outstanding l
  first : ∀ k, c.Outstanding k → c.keyOf l ≤ c.keyOf k
  /-- It is otherwise what it was, in a list register or out of it. -/
  cleared : (c.recalled l).deactivated.Agrees True (d.recalled l)
  quiet : (c.interrupt l).state.pending = false →
    (d.interrupt l).resident = false ∧ (d.interrupt l).spilled = false ∧ (d.interrupt l).state = .idle
  others : ∀ k, c.vm.Has k → k ≠ l → (c.recalled k).Agrees True (d.recalled k)
  fate : ∀ k, c.vm.Has k → k ≠ l → Fate c d k
  /-- Only for a pending interrupt must others make room. -/
  spares : (c.interrupt l).state.pending = false → ∀ k, k ≠ l → d.interrupt k = c.interrupt k

theorem interrupt_edit_of_ne (hlk : l ≠ k) : (c.edit l s).interrupt k = c.interrupt k := by
  unfold edit
  split
  next => rw [interrupt_unspill, if_neg hlk, interrupt_setInterrupt, if_neg hlk]
  next => rw [interrupt_setInterrupt, if_neg hlk]

/-- What is made idle ends out of the list registers and off its spill list. -/
theorem Handled.quiet_of_idle (h : Handled c d l s) (idle : s.state = .idle) :
    (d.interrupt l).resident = false ∧ (d.interrupt l).spilled = false ∧ (d.interrupt l).state = .idle := by
  have unspilled : s.spilled = false := Bool.eq_false_iff.2 fun spilled => by
    have busy := h.lawful.spilled_busy spilled
    rw [idle] at busy
    cases busy
  cases h.final with
  | quiet why record =>
    rw [record, resident_release, Interrupt.spilled_release, Interrupt.state_release]
    exact ⟨h.off, unspilled, idle⟩
  | seated _ _ _ _ _ _ _ _ busy | parked busy | offered busy =>
    rw [idle] at busy
    cases busy

/-- An interrupt that becomes idle needs no room. -/
theorem deactivateSpilled_spares (h : c.Sound)
    (first : (c.firstSpilled? fun l => (c.interrupt l).state.active && c.mayClaim l) = some l)
    (inactive : (c.interrupt l).state.pending = false) (hkl : k ≠ l) :
    c.deactivateSpilled.interrupt k = c.interrupt k := by
  obtain ⟨has, -, spilled, wanted⟩ := firstSpilled?_spec first
  have may := ((Bool.and_eq_true ..).mp wanted).2
  have hand := inHand_claim h has may (h.off_of_spilled has spilled)
  obtain ⟨edited, -, record⟩ :=
    inHand_edit (s := ((c.claim l).interrupt l).deactivated) hand rfl hand.off rfl rfl
  obtain ⟨gic, e⟩ := deactivateSpilled_eq h first
  have idle : (((c.claim l).edit l ((c.claim l).interrupt l).deactivated).interrupt l).state.isIdle = true := by
    rw [record, claimed may]
    simp only [trimmed, Interrupt.deactivated, inactive, Interrupt.State.isIdle, Bool.not_false, Bool.and_self]
  rw [e, deliver_of_idle (inHand_gic edited gic).off idle, interrupt_release, if_neg (Ne.symm hkl)]
  exact (interrupt_edit_of_ne (Ne.symm hkl)).trans ((interrupt_claim ..).trans (if_neg (Ne.symm hkl)))

/-- **What a completion does** if an interrupt is outstanding. -/
theorem deactivates_deactivateSpilled (h : c.Between)
    (first : (c.firstSpilled? fun l => (c.interrupt l).state.active && c.mayClaim l) = some l) :
    c.Deactivates c.deactivateSpilled l ∧ c.deactivateSpilled.Between := by
  obtain ⟨s, handled, made⟩ := handled_deactivateSpilled h.sound first
  have outstanding := (mem_outstanding h).1 (firstBest_mem first)
  have may : c.mayClaim l = true := (c.mayClaim_iff l).2 (.inr outstanding.owned)
  have tallies : ∀ a ∈ some (Deed.deactivate l), a.Tallies c.vm := fun a ha k e => by cases ha; cases e
  have handles : ∀ a ∈ some (Deed.deactivate l), a.Handles l := fun a ha => by cases ha; rfl
  have agrees := handled.agrees_of_apart h.sound outstanding.has handles made tallies (h.tallied l outstanding.has may)
  have state : s.state = ⟨(c.interrupt l).state.pending, false⟩ := by
    obtain ⟨t, ht, hts⟩ := made
    rw [recalled_of_off (outstanding.off h.sound)] at ht
    rw [hts.state trivial, ← ht.state trivial]
    rfl
  refine ⟨⟨handled.frame.toSame, outstanding, fun k hk => firstSpilled?_first first ((mem_outstanding h).2 hk), ?_,
    fun inactive => handled.quiet_of_idle (by rw [state, inactive]; rfl),
    fun k hk hkl => h.agrees_of_fate handled.frame.toSame hk (handled.frame.fate k hk hkl), handled.frame.fate,
    fun inactive k hkl => deactivateSpilled_spares h.sound first inactive hkl⟩, ?_⟩
  · have cleared := agrees.imp (q := True) fun _ => by rw [state, Bool.and_false]
    rwa [show Deed.edits c.vm (some (Deed.deactivate l)).toList l (c.recalled l) = _ from if_pos rfl] at cleared
  · exact Does.between (.handled l s handles handled made) h tallies

namespace Deactivates

variable (h : c.Deactivates d l)
include h

theorem ne_of_active (active : (d.stateOf k).active = true) : k ≠ l := by
  rintro rfl
  rw [← active_recalled, h.cleared.state trivial] at active
  cases active

theorem kept (hs : c.Sound) (o : c.Outstanding k) (hkl : k ≠ l) : d.interrupt k = c.interrupt k :=
  (h.fate k o.has hkl).record_of_off (o.off hs)

/-- What else is outstanding stays so. -/
theorem stays (hs : c.Sound) (o : c.Outstanding k) (hkl : k ≠ l) : d.Outstanding k :=
  o.congr h.toSame (h.kept hs o hkl)

/-- What is outstanding afterwards was so before, or it was active in a list register and had to make room. -/
theorem was (hd : d.Sound) (o : d.Outstanding k) :
    k ≠ l ∧ (c.Outstanding k ∨ c.ShowsActive k ∧ (c.interrupt l).state.pending = true) := by
  have hkl : k ≠ l := h.ne_of_active (by rw [stateOf_of_off (o.off hd)]; exact o.active)
  refine ⟨hkl, ?_⟩
  cases pending : (c.interrupt l).state.pending with
  | false => exact .inl (o.congr h.toSame.symm (h.spares pending k hkl).symm)
  | true =>
    have hk := (Vm.has_congr h.partition k).1 o.has
    have active := o.active
    cases h.fate k hk hkl with
    | kept record => exact .inl (o.congr h.toSame.symm record.symm)
    | evicted r held busy record =>
      rw [record, Interrupt.state_release] at active
      exact .inr ⟨⟨hk, r, held, (active_takenBack c k r).symm.trans active⟩, rfl⟩
    | settled r held empty record =>
      rw [record, Interrupt.state_release] at active
      cases active

/-- What a list register shows active it showed so before. -/
theorem showed (shows : d.ShowsActive k) : k ≠ l ∧ c.ShowsActive k := by
  obtain ⟨has, r, held, active⟩ := shows
  have hk := (Vm.has_congr h.partition k).1 has
  have hkl : k ≠ l := h.ne_of_active (by rw [stateOf_of_held held]; exact active)
  exact ⟨hkl, hk, r, (h.fate k hk hkl).held held, active⟩

/-- What a later round may deactivate was active before this one. -/
theorem later (hd : d.Sound) (source : d.Outstanding k ∨ d.ShowsActive k) :
    k ≠ l ∧ (c.Outstanding k ∨ c.ShowsActive k) := by
  rcases source with o | shows
  · obtain ⟨hkl, before⟩ := h.was hd o
    exact ⟨hkl, before.imp_right (·.1)⟩
  · exact ⟨(h.showed shows).1, .inr (h.showed shows).2⟩

/-- What is outstanding afterwards is as it was, unless room was needed. -/
theorem origin (hs : c.Sound) (hd : d.Sound) (o : d.Outstanding k) :
    c.Outstanding k ∧ d.interrupt k = c.interrupt k ∨ (c.interrupt l).state.pending = true := by
  obtain ⟨hkl, before⟩ := h.was hd o
  exact before.imp (fun o => ⟨o, h.kept hs o hkl⟩) (·.2)

theorem keyOf (hk : c.vm.Has k) (hkl : k ≠ l) : d.keyOf k = c.keyOf k := by
  unfold Core.keyOf
  rw [(h.fate k hk hkl).settings.priority]

end Deactivates

/-! ## All rounds -/

/-- What a number of completions did: they deactivated the interrupts `ls`, in this order. -/
structure Accounted (c c' : Core) (rounds : Nat) (ls : List Line) : Prop extends Same c c' where
  nodup : ls.Nodup
  few : ls.length ≤ rounds
  /-- There are fewer only if none was left. -/
  enough : ls.length < rounds → ∀ l, ¬ c'.Outstanding l
  source : ∀ l ∈ ls, c.Outstanding l ∨ c.ShowsActive l
  order : ∀ l ∈ ls, ∀ k, c.Outstanding k → k ∉ ls → c.keyOf l < c.keyOf k
  /-- Where one was in a list register, another one was presented again. -/
  cause : ∀ l ∈ ls, ¬ c.Outstanding l → ∃ k ∈ ls, c.Outstanding k ∧ (c.interrupt k).state.pending = true
  /-- They are otherwise what they were, in a list register or out of it. -/
  cleared : ∀ l ∈ ls, (c.recalled l).deactivated.Agrees True (c'.recalled l)
  quiet : ∀ l ∈ ls, (c.recalled l).state.pending = false →
    (c'.interrupt l).resident = false ∧ (c'.interrupt l).spilled = false ∧ (c'.interrupt l).state = .idle
  others : ∀ k, c.vm.Has k → k ∉ ls → (c.recalled k).Agrees True (c'.recalled k)
  aside : ∀ k, c.vm.Has k → k ∉ ls → (c.interrupt k).resident = false → c'.interrupt k = c.interrupt k

theorem Accounted.nothing (h : 0 < n → ∀ l, ¬ c.Outstanding l) : c.Accounted c n [] where
  toSame := .refl c
  nodup := .nil
  few := Nat.zero_le n
  enough := h
  source := nofun
  order := nofun
  cause := nofun
  cleared := nofun
  quiet := nofun
  others _ _ _ := .refl _ _
  aside _ _ _ _ := rfl

theorem Accounted.has (h : c.Accounted c' n ls) (hl : l ∈ ls) : c.vm.Has l :=
  (h.source l hl).elim (·.has) (·.1)

/-- **The rounds add up**, from the first one on. -/
theorem Accounted.cons (hs : c.Sound) (hd : d.Sound) (h : c.Deactivates d l) (h' : d.Accounted c' n ls) :
    c.Accounted c' (n + 1) (l :: ls) := by
  have has : ∀ {k}, c.vm.Has k → d.vm.Has k := fun {k} hk => (Vm.has_congr h.partition k).2 hk
  have later : ∀ j ∈ ls, j ≠ l ∧ (c.Outstanding j ∨ c.ShowsActive j) := fun j hj => h.later hd (h'.source j hj)
  have hl : l ∉ ls := fun hl => (later l hl).1 rfl
  have hc : ∀ j ∈ ls, c.vm.Has j := fun j hj => (Vm.has_congr h.partition j).1 (h'.has hj)
  refine ⟨h.toSame.trans h'.toSame, List.nodup_cons.2 ⟨hl, h'.nodup⟩, Nat.succ_le_succ h'.few,
    fun fewer => h'.enough (Nat.lt_of_succ_lt_succ fewer), fun j hj => ?_, fun j hj k o hk => ?_, fun j hj out => ?_,
    fun j hj => ?_, fun j hj inactive => ?_, fun k hk hkl => ?_, fun k hk hkl off => ?_⟩
  · rcases List.mem_cons.1 hj with rfl | hj
    · exact .inl h.outstanding
    · exact (later j hj).2
  · rw [List.mem_cons, not_or] at hk
    rcases List.mem_cons.1 hj with rfl | hj
    · exact lt_of_le_of_ne (h.first k o) (keyOf_ne h.outstanding.seen h.outstanding.has o.seen o.has (Ne.symm hk.1))
    · have := h'.order j hj k (h.stays hs o hk.1) hk.2
      rwa [h.keyOf (hc j hj) (later j hj).1, h.keyOf o.has hk.1] at this
  · rcases List.mem_cons.1 hj with rfl | hj
    · exact absurd h.outstanding out
    by_cases o : d.Outstanding j
    · exact ⟨l, List.mem_cons_self, h.outstanding, (h.origin hs hd o).resolve_left fun before => out before.1⟩
    · obtain ⟨k, hk, o', pending⟩ := h'.cause j hj o
      rcases h.origin hs hd o' with ⟨o', record⟩ | again
      · exact ⟨k, List.mem_cons_of_mem l hk, o', by rw [← record]; exact pending⟩
      · exact ⟨l, List.mem_cons_self, h.outstanding, again⟩
  · rcases List.mem_cons.1 hj with rfl | hj
    · exact h.cleared.trans (h'.others j (has h.outstanding.has) hl)
    · exact (h.others j (hc j hj) (later j hj).1).deactivated.trans (h'.cleared j hj)
  · rcases List.mem_cons.1 hj with rfl | hj
    · rw [recalled_of_off (h.outstanding.off hs)] at inactive
      have quiet := h.quiet inactive
      rwa [h'.aside j (has h.outstanding.has) hl quiet.1]
    · refine h'.quiet j hj ?_
      rw [(h.others j (hc j hj) (later j hj).1).state trivial]
      exact inactive
  · rw [List.mem_cons, not_or] at hkl
    exact (h.others k hk hkl.1).trans (h'.others k (has hk) hkl.2)
  · rw [List.mem_cons, not_or] at hkl
    have record := (h.fate k hk hkl.1).record_of_off off
    exact (h'.aside k (has hk) hkl.2 (by rw [record]; exact off)).trans record

/-- Rounds do not look at what is not part of their records and list registers. -/
theorem Accounted.of_alike (h : Alike c d) (h' : d.Accounted c' n ls) : c.Accounted c' n ls := by
  have keys : ∀ k, d.keyOf k = c.keyOf k := fun k => by
    unfold Core.keyOf
    rw [h.interrupt]
  obtain ⟨same, nodup, few, enough, source, order, cause, cleared, quiet, others, aside⟩ := h'
  simp only [h.outstanding_iff, h.showsActive_iff, keys, recalled_alike h, h.interrupt, Vm.has_congr h.partition]
    at source order cause cleared quiet others aside
  exact ⟨h.toSame.trans same, nodup, few, enough, source, order, cause, cleared, quiet, others, aside⟩

theorem deactivated_of_none (none : (c.firstSpilled? fun l => (c.interrupt l).state.active && c.mayClaim l) = none)
    (n : Nat) : deactivated n c = [] := by
  induction n with
  | zero => rfl
  | succ n ih =>
    unfold deactivated
    rw [none, deactivateSpilled_of_none none, ih]
    rfl

/-- **What all rounds do**, one after another. -/
theorem accounted_deactivateAll {α : Type} (xs : List α) (c : Core) (h : c.Between) :
    c.Accounted (xs.foldl (fun c _ => c.deactivateSpilled) c) xs.length (deactivated xs.length c) := by
  induction xs generalizing c with
  | nil => exact .nothing fun pos => absurd pos (Nat.lt_irrefl 0)
  | cons x xs ih =>
    cases first : c.firstSpilled? fun l => (c.interrupt l).state.active && c.mayClaim l with
    | none =>
      rw [List.foldl_fixed' fun _ => deactivateSpilled_of_none first, deactivated_of_none first]
      refine .nothing fun _ l o => ?_
      have mem := (mem_outstanding h).2 o
      rw [firstSpilled?_eq, List.argmin_eq_none] at first
      rw [first] at mem
      cases mem
    | some l =>
      obtain ⟨round, between⟩ := deactivates_deactivateSpilled h first
      rw [List.foldl_cons, List.length_cons, deactivated, first]
      exact .cons h.sound between.sound round (ih _ between)

theorem accounted_settleUnmatched (h : c.Between) :
    c.Accounted c.settleUnmatched c.interface.control.completions.toNat
      (deactivated c.interface.control.completions.toNat (c.modifyControl ({ · with completions := 0 }))) := by
  have counted : Alike c (c.modifyControl ({ · with completions := 0 })) := alike_modifyControl ..
  have rounds := accounted_deactivateAll (List.range c.interface.control.completions.toNat) _ (counted.between h)
  rw [List.length_range] at rounds
  exact rounds.of_alike counted

/-! ## How many -/

/-- There are as many as there can be. -/
theorem Accounted.min_le (h : c.Accounted c' n ls) (hs : c.Sound) (nodup : es.Nodup)
    (all : ∀ l, l ∈ es ↔ c.Outstanding l) : min n es.length ≤ ls.length := by
  by_cases fewer : ls.length < n
  · -- what was outstanding is not so any more
    have sub : es ⊆ ls := fun k hk => Classical.byContradiction fun out => by
      have o := (all k).1 hk
      exact h.enough fewer k (o.congr h.toSame (h.aside k o.has out (o.off hs)))
    exact (Nat.min_le_right ..).trans (List.subperm_of_subset nodup sub).length_le
  · exact (Nat.min_le_left ..).trans (Nat.not_lt.1 fewer)

/-- Only what was outstanding was deactivated, or something that was active in a list register had to make room. -/
theorem Accounted.cases (h : c.Accounted c' n ls) (hs : c.Sound) (nodup : es.Nodup)
    (all : ∀ l, l ∈ es ↔ c.Outstanding l) :
    ls ⊆ es ∧ ls.length = min n es.length ∨
      (∃ l ∈ ls, c.ShowsActive l) ∧ ∃ k ∈ ls, k ∈ es ∧ (c.interrupt k).state.pending = true := by
  by_cases sub : ls ⊆ es
  · have most := Nat.le_min.2 ⟨h.few, (List.subperm_of_subset h.nodup sub).length_le⟩
    exact .inl ⟨sub, Nat.le_antisymm most (h.min_le hs nodup all)⟩
  · obtain ⟨l, hl, out⟩ : ∃ l ∈ ls, l ∉ es := by
      simpa only [List.subset_def, not_forall, exists_prop] using sub
    rw [all] at out
    obtain ⟨k, hk, o, pending⟩ := h.cause l hl out
    exact .inr ⟨⟨l, hl, (h.source l hl).resolve_left out⟩, k, hk, (all k).2 o, pending⟩

/-! ## Maintenance -/

/-- The core once its completed list registers are retired, when the completions are accounted for. -/
def caughtUp (c : Core) : Core := if c.interface.status.completed then c.retireCompleted else c

theorem caughtUp_runs (h : c.Sound) : Runs c [] c.caughtUp := by
  unfold caughtUp
  split
  next => exact retireCompleted_runs h
  next => exact .nil c

theorem Between.caughtUp (h : c.Between) : c.caughtUp.Between := (caughtUp_runs h.sound).between h nofun

theorem maintenanceDeeds_of_unmatched (due : c.interface.status.unmatched = true) :
    c.maintenanceDeeds = (deactivated c.caughtUp.interface.control.completions.toNat
      (c.caughtUp.modifyControl ({ · with completions := 0 }))).map .deactivate := if_pos due

/-- Retiring leaves the count of completions alone. -/
theorem completions_caughtUp (h : c.Sound) :
    c.caughtUp.interface.control.completions = c.interface.control.completions := by
  unfold caughtUp
  split
  next =>
    refine h.retireCompleted_induct (P := fun _ d => d.interface.control.completions = c.interface.control.completions)
      rfl fun d n _ hd completed e => ?_
    obtain ⟨_, _, handled, -⟩ := handled_retire hd completed
    exact handled.frame.control.completions.trans e
  next => rfl

theorem completions_settleUnmatched (h : c.Sound) : c.settleUnmatched.interface.control.completions = 0 := by
  have counted : Alike c (c.modifyControl ({ · with completions := 0 })) := alike_modifyControl ..
  refine (h.alike counted).deactivateAll_induct (P := fun d => d.interface.control.completions = 0) _ rfl
    fun d l hd first e => ?_
  obtain ⟨_, handled, -⟩ := handled_deactivateSpilled hd first
  exact handled.frame.control.completions.trans e

theorem completions_refill (h : c.Sound) (pendingOnly : Bool) :
    (c.refill pendingOnly).interface.control.completions = c.interface.control.completions := by
  obtain ⟨es, ls, rest, -, -, refilled⟩ := h.refill pendingOnly
  rw [refilled.control]
  split <;> rfl

/-- **Maintenance leaves no completion to account for.** -/
theorem completions_maintain (h : c.Sound) (due : c.interface.status.unmatched = true) :
    c.maintain.interface.control.completions = 0 := by
  have hs := (caughtUp_runs h).sound h
  have settled := completions_settleUnmatched hs
  unfold maintain
  simp only [due, if_true]
  split
  next => exact (completions_refill ((settleUnmatched_runs hs).sound hs) _).trans settled
  next => exact settled

end Core

namespace Machine

variable {m : Machine} {cpu i : Nat} {c : Core}

theorem Arises.between (h : m.Arises) (hc : m.core? cpu = some (i, c)) : c.Between :=
  ⟨h.sound.core hc, h.tallied.core h.sound hc, h.sound.rest (vm_of_core? hc)⟩

/-- **Accounting for completions.**  When maintenance accounts for the completions that matched no list register, it
deactivates some interrupts `ls`, of those that are outstanding the most important ones, as many as there are completions if
there are so many.  There are no others among them unless one that is still pending was presented again, which an active
one in a list register had to make room for.  What is deactivated is otherwise as it was, and off its spill list if it is
idle.  No completion is left, and on no core does another interrupt become inactive or active. -/
theorem Arises.accounts (h : m.Arises) (hc : m.core? cpu = some (i, c)) (due : c.interface.status.unmatched = true) :
    ∃ es ls : List Line, es.Nodup ∧ (∀ l, l ∈ es ↔ c.caughtUp.Outstanding l) ∧
      c.caughtUp.Accounted c.caughtUp.settleUnmatched c.interface.control.completions.toNat ls ∧
      min c.interface.control.completions.toNat es.length ≤ ls.length ∧
      (ls ⊆ es ∧ ls.length = min c.interface.control.completions.toNat es.length ∨
        (∃ l ∈ ls, c.caughtUp.ShowsActive l) ∧ ∃ k ∈ ls, k ∈ es ∧ (c.caughtUp.interrupt k).state.pending = true) ∧
      (∃ c', (m.step ⟨cpu, .maintain⟩).core? cpu = some (i, c') ∧ c'.interface.control.completions = 0) ∧
      ∀ (j : Nat) (vm : Vm) (l : Line), m.vms[j]? = some vm → vm.Has l →
        ∃ vm', (m.step ⟨cpu, .maintain⟩).vms[j]? = some vm' ∧
          (((m.step ⟨cpu, .maintain⟩).trueState vm' l).active = true ↔
            (m.trueState vm l).active = true ∧ ¬ (j = i ∧ l ∈ ls)) := by
  have hb := (h.between hc).caughtUp
  have hs := h.sound.core hc
  have rounds := Core.accounted_settleUnmatched hb
  have deeds := Core.maintenanceDeeds_of_unmatched due
  rw [Core.completions_caughtUp hs] at rounds deeds
  generalize Core.deactivated c.interface.control.completions.toNat
    (c.caughtUp.modifyControl ({ · with completions := 0 })) = ls at rounds deeds
  have nodup := Core.nodup_spilledLines hb.sound fun l => (c.caughtUp.interrupt l).state.active && c.caughtUp.mayClaim l
  have all := fun l => Core.mem_outstanding (l := l) hb
  have runs := (Core.maintain_runs hs).local_
  rw [step_of_core? hc]
  refine ⟨_, ls, nodup, all, rounds, rounds.min_le hb.sound nodup all, rounds.cases hb.sound nodup all,
    ⟨_, core?_putCore hc runs.cpu runs.vcpu, Core.completions_maintain hs due⟩, fun j vm l hvm hl => ?_⟩
  obtain ⟨vm', hvm', active⟩ := h.sound.active_move hc (.act .maintain nofun) hvm hl
  refine ⟨vm', hvm', ?_⟩
  rw [active]
  by_cases hji : j = i
  · have deeds : c.deeds .maintain = _ := deeds
    rw [if_pos hji, deeds, Deed.active_after_deactivate, Bool.and_eq_true, Bool.not_eq_true', decide_eq_false_iff_not]
    simp only [hji, true_and]
  · rw [if_neg hji]
    exact ⟨fun on => ⟨on, fun ⟨e, _⟩ => hji e⟩, (·.1)⟩

/-- Three interrupts are active at once, with one list register.  The guest completes the two that are spilled, of which one
is pending again. -/
def displaced : Machine :=
  uncrowded.run
    [⟨0, store distributorBase 4 1⟩, ⟨0, store (distributorBase + 0x104) 4 7⟩, ⟨0, .inject 32⟩, ⟨0, .acknowledge⟩,
      ⟨0, .inject 32⟩, ⟨0, .inject 34⟩, ⟨0, .acknowledge⟩, ⟨0, .inject 33⟩, ⟨0, .acknowledge⟩, ⟨0, .complete 32⟩,
      ⟨0, .complete 34⟩]

theorem reachable_displaced : displaced.Reachable := (Reachable.boot boot_uncrowded).run _

theorem core?_displaced : displaced.core? 0 = some (0, displaced.firstCore) :=
  reachable_displaced.arises.core?_first (by decide +kernel) (by decide +kernel)

theorem accounts_displaced : displaced.core? 0 = some (0, displaced.firstCore) ∧
    displaced.firstCore.interface.status.unmatched = true ∧
    ∃ es ls : List Line, es.Nodup ∧ (∀ l, l ∈ es ↔ displaced.firstCore.caughtUp.Outstanding l) ∧
      displaced.firstCore.caughtUp.Accounted displaced.firstCore.caughtUp.settleUnmatched 2 ls ∧
      min 2 es.length ≤ ls.length := by
  have due : displaced.firstCore.interface.status.unmatched = true := by decide +kernel
  obtain ⟨es, ls, nodup, all, rounds, enough, -⟩ := reachable_displaced.arises.accounts core?_displaced due
  have two : displaced.firstCore.interface.control.completions.toNat = 2 := by decide +kernel
  rw [two] at rounds enough
  exact ⟨core?_displaced, due, es, ls, nodup, all, rounds, enough⟩

/-- **A completion may deactivate what was in a list register**: it had to make room for what was completed before it. -/
theorem not_spared_displaced : ¬ ∀ (m : Machine) (cpu i : Nat) (c : Core) (l : Line), m.Reachable →
    m.core? cpu = some (i, c) → c.interface.status.unmatched = true → c.caughtUp.ShowsActive l →
    (c.caughtUp.settleUnmatched.stateOf l).active = true := by
  intro h
  have held : (displaced.firstCore.caughtUp.held? (.shared 33)).any (·.state.active) = true := by decide +kernel
  obtain ⟨r, held, active⟩ := (Option.any_eq_true _ _).1 held
  have has : displaced.firstCore.caughtUp.vm.Has (.shared 33) := has_shared (by decide +kernel) (by decide)
  have spared := h displaced 0 0 _ (.shared 33) reachable_displaced core?_displaced (by decide +kernel)
    ⟨has, r, held, active⟩
  exact absurd spared (by decide +kernel)

end Machine
end VirtualGic
