import VirtualGic.Proofs.Eviction
import VirtualGic.Proofs.Truth
/-!
# The active bit

The state of a hardware interrupt may lose its pending bit in a list register, and that of a version 2 software interrupt
follows the requests for it.  The active bit is simpler: of every interrupt it changes by the deeds on that very interrupt
and by nothing else, in a list register or out of it (`Core.Runs.active`), on whatever core
(`Machine.Sound.active_move`).
-/
namespace VirtualGic

open Interrupt (State)

/-! ## Deeds -/

theorem RegisterGroup.active_apply (g : RegisterGroup) (vm : Vm) (l : Line) (v : BitVec 64) (s : Interrupt) :
    (g.apply vm l v s).state.active = (g.stateAfter v s.state).active := by
  unfold apply stateAfter
  cases g with
  | setActive | clearActive => simp only; split <;> rfl
  | setPending | clearPending => simp only; split <;> split <;> rfl
  | setEnable | clearEnable | targets | config | route | setRequesters | clearRequesters =>
    simp only [ite_self]
    split <;> rfl
  | _ => simp only [ite_self]

namespace Deed

variable {s t : State}

/-- A deed does to the active bit of a record what it does to that of the state alone. -/
theorem active_edit (d : Deed) (vm : Vm) (s : Interrupt) : (d.edit vm s).state.active = (d.effect s.state).active := by
  cases d with
  | write g l v => exact g.active_apply vm l v s
  | _ => rfl

theorem active_effect (d : Deed) (h : s.active = t.active) : (d.effect s).active = (d.effect t).active := by
  cases d with
  | write g l v =>
    show (g.stateAfter v s).active = (g.stateAfter v t).active
    unfold RegisterGroup.stateAfter
    split
    next => exact h
    next =>
      cases g with
      | setActive | clearActive => rfl
      | _ => exact h
  | forward | raise => exact h
  | deactivate | complete | acknowledge => rfl

/-- The active bit after some deeds does not depend on what was pending before. -/
theorem active_after (ds : List Deed) (l : Line) (h : s.active = t.active) :
    (after ds l s).active = (after ds l t).active := by
  induction ds generalizing s t with
  | nil => exact h
  | cons d ds ih =>
    refine ih ?_
    show (if d.line = l then d.effect s else s).active = (if d.line = l then d.effect t else t).active
    split
    next => exact d.active_effect h
    next => exact h

/-- Deactivations clear the active bits of the interrupts that they are about. -/
theorem active_after_deactivate (ls : List Line) (l : Line) (s : State) :
    (after (ls.map .deactivate) l s).active = (s.active && !decide (l ∈ ls)) := by
  induction ls generalizing s with
  | nil => exact (Bool.and_true _).symm
  | cons k ls ih =>
    refine (ih _).trans ?_
    show ((if k = l then ⟨s.pending, false⟩ else s : State).active && _) = _
    by_cases hkl : k = l
    · simp [hkl]
    · simp [hkl, Ne.symm hkl]

end Deed

/-! ## Operations -/

theorem ListRegister.active_presentRequest (l : Line) (s : Interrupt) (fits : l.id < 0x400) :
    (presentRequest l s).1.state.active = s.state.active := by
  cases active : s.state.active with
  | true =>
    simp only [presentRequest, active, if_true]
    rw [withNumber_eq _ fits rfl]
  | false =>
    simp only [presentRequest, active, Bool.false_eq_true, if_false]
    rw [withNumber_eq _ fits rfl]
    cases lowestRequester? s.requesters with
    | some n => rfl
    | none => exact active

namespace Core

variable {c c' : Core} {l m : Line} {s : Interrupt} {d : Option Deed} {ds : List Deed}

/-- A list register shows an interrupt active exactly if it is. -/
theorem active_presentation (vm : Vm) (l : Line) (s : Interrupt) (fits : l.id < 0x400) :
    (presentation vm l s).1.state.active = s.state.active := by
  unfold presentation
  split
  next => exact ListRegister.active_presentRequest l s fits
  next => exact congrArg (·.state.active) (ListRegister.present_eq l s fits)

theorem active_takenBack (c : Core) (l : Line) (r : ListRegister) : (c.takenBack l r).state.active = r.state.active := by
  unfold takenBack
  split <;> rfl

/-- Out of its list register an interrupt is active exactly if it was in it. -/
theorem active_recalled (c : Core) (l : Line) : (c.recalled l).state.active = (c.stateOf l).active := by
  unfold recalled stateOf
  cases c.held? l with
  | some r => exact active_takenBack c l r
  | none => rfl

/-- However it ends, the interrupt in hand is active exactly if its record was made so. -/
theorem Final.active (h : Final c c' l s) (off : s.resident = false) (fits : l.id < 0x400) :
    (c'.stateOf l).active = s.state.active := by
  cases h with
  | quiet why record | offered busy target record =>
    rw [stateOf_of_off (by rw [record, resident_release]; exact off), record, Interrupt.state_release]
  | parked busy target record =>
    rw [stateOf_of_off (by rw [record, resident_release]; exact off), record, Interrupt.state_release]
  | seated n q r target record held state presents =>
    rw [stateOf_of_held held]
    have := active_presentation c.vm l s fits
    rwa [presents] at this

/-- What an operation leaves alone stays active or not. -/
theorem Fate.active (h : Fate c c' m) : (c'.stateOf m).active = (c.stateOf m).active := by
  cases h with
  | kept record held => rw [stateOf_congr record held]
  | evicted r held busy record =>
    have off : (c'.interrupt m).resident = false := by
      rw [record, resident_release]
      exact resident_takenBack c m r
    rw [stateOf_of_off off, stateOf_of_held held, record, Interrupt.state_release]
    exact active_takenBack c m r
  | settled r held empty record =>
    have off : (c'.interrupt m).resident = false := by rw [record, resident_release]
    rw [stateOf_of_off off, stateOf_of_held held, record, Interrupt.state_release,
      (State.isIdle_iff _).1 (ListRegister.isIdle_of_isEmpty empty)]

/-- The interrupt in hand is made active or inactive by the deed on it. -/
theorem Handled.active (h : Handled c c' l s) (hs : c.Sound) (made : Made c l (Deed.edit? c.vm d) s)
    (line : ∀ a ∈ d, a.line = l) : (c'.stateOf l).active = (Deed.after d.toList l (c.stateOf l)).active := by
  obtain ⟨t, ht, hts⟩ := made
  have before : t.state.active = (c.stateOf l).active := by rw [ht.state trivial, active_recalled]
  rw [h.final.active h.off (Vm.id_lt_of_has hs.station.checked h.has), hts.state trivial]
  cases d with
  | none => exact before
  | some a =>
    show (a.edit c.vm t).state.active = (if a.line = l then a.effect (c.stateOf l) else c.stateOf l).active
    rw [if_pos (line a rfl), a.active_edit, a.active_effect before]

theorem active_restated {a : Deed} {n : Nat} (hs : c.Sound) (has : c.vm.Has a.line)
    (credited : c.vm.Credits c.vcpu a.line n) (hm : c.vm.Has m) :
    ((c.writeSlot n { c.interface.read n with
      state := (a.edit c.vm { c.interrupt a.line with state := (c.interface.read n).state }).state }).stateOf m).active =
      (Deed.after [a] m (c.stateOf m)).active := by
  show _ = (if a.line = m then a.effect (c.stateOf m) else c.stateOf m).active
  by_cases ham : a.line = m
  · rw [← ham, if_pos rfl, stateOf_of_held (hs.held? has credited), stateOf_of_held (held?_restated hs has credited _)]
    exact a.active_edit ..
  · rw [if_neg ham]
    exact congrArg State.active (stateOf_congr rfl (held?_restated_other hs has credited hm ham _))

/-- **Whatever a core does, an interrupt becomes active or inactive by its deeds only.** -/
theorem Does.active (h : Does c c' d) (hs : c.Sound) (hm : c.vm.Has m) :
    (c'.stateOf m).active = (Deed.after d.toList m (c.stateOf m)).active := by
  cases h with
  | handled l s deed h made =>
    by_cases hml : m = l
    · subst hml
      exact h.active hs made fun a ha => (deed a ha).line
    · rw [Deed.after_toList d m _ fun a ha e => hml (e.symm.trans (deed a ha).line)]
      exact (h.frame.fate m hm hml).active
  | returned l has may eq =>
    rw [eq, stateOf_returned hs has may]
    rfl
  | forwarded g l v h =>
    rw [h.posted.alike.stateOf m]
    exact congrArg State.active (ite_self _).symm
  | posted r other h => exact congrArg State.active (h.alike.stateOf m)
  | restated a n has credited guest eq =>
    rw [eq]
    exact active_restated hs has credited hm
  | aside h => exact congrArg State.active (h.stateOf m)
  | dropped pendingOnly drained eq =>
    rw [eq]
    exact congrArg State.active ((alike_dropRequests c).stateOf m)

/-- **So it is in every run.** -/
theorem Runs.active (h : Runs c ds c') (hs : c.Sound) (hm : c.vm.Has m) :
    (c'.stateOf m).active = (Deed.after ds m (c.stateOf m)).active := by
  induction h with
  | nil => rfl
  | @cons c c' c'' d ds hd _ ih =>
    rw [ih (hd.sound hs) ((Vm.has_congr hd.same.partition m).2 hm), Deed.after_append]
    exact Deed.active_after ds m (hd.active hs hm)

theorem Move.active (h : Move c ds c') (hs : c.Sound) (hl : c.vm.Has l) :
    (c'.stateOf l).active = (Deed.after ds l (c.stateOf l)).active := by
  cases h with
  | act a ha => exact (act_runs hs ha).active hs hl
  | handle msg bus ht =>
    have := (runs_take hs ht).active (hs.alike (alike_take ht)) hl
    rwa [(alike_take ht).stateOf l] at this

end Core

namespace Machine

variable {m : Machine} {cpu i j : Nat} {c c' : Core} {vm : Vm} {l : Line} {ds : List Deed}

/-- **On whatever core, an interrupt becomes active or inactive by the deeds on it only**, and by those of the cores of its
own VM. -/
theorem Sound.active_move (h : m.Sound) (hc : m.core? cpu = some (i, c)) (hmv : c.Move ds c') (hvm : m.vms[j]? = some vm)
    (hl : vm.Has l) : ∃ vm', (m.putCore i c').vms[j]? = some vm' ∧
      ((m.putCore i c').trueState vm' l).active =
        (Deed.after (if j = i then ds else []) l (m.trueState vm l)).active := by
  have hcs := h.core hc
  have hloc := hmv.local_ hcs
  by_cases hj : j = i
  · subst hj
    obtain rfl := Option.some.inj ((vm_of_core? hc).symm.trans hvm)
    refine ⟨c'.vm, vms_putCore_self hc c', ?_⟩
    rw [if_pos rfl]
    cases may : c.mayClaim l with
    | true =>
      have hc' := core?_putCore hc hloc.cpu hloc.vcpu
      rw [trueState_of_mayClaim h hc hl may, ← hmv.active hcs hl]
      exact congrArg State.active <|
        trueState_of_mayClaim (h.move hc hmv) hc' ((Vm.has_congr hloc.partition l).2 hl) ((hloc.mayClaim hl).trans may)
    | false =>
      obtain ⟨record, held⟩ := held?_putCore_of_elsewhere h hc hloc hl may
      rw [hmv.after_of_elsewhere hcs hl may]
      unfold trueState
      rw [held, record]
  · rw [if_neg hj]
    exact ⟨vm, (vms_putCore _ _ _ _ (Ne.symm hj)).trans hvm,
      congrArg State.active (trueState_other h hc hloc.cpu hvm hj l)⟩

end Machine
end VirtualGic
