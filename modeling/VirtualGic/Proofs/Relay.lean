import VirtualGic.Proofs.Setting
/-!
# What is stored in configuration fields

Accesses and messages store in a configuration field what their deeds do, and nothing else stores in one.  A deed that
stores leaves just that in the field of the interrupt in hand (`Does.get`).
-/
namespace VirtualGic

namespace Core

variable {c c' : Core} {F : ConfigField} {l m : Line} {g : RegisterGroup} {v r : BitVec 64} {d : Option Deed} {ds : List Deed}
  {msg : Message} {w u : FieldWrite}

/-! ## What an access writes -/

theorem narrow_lowBits {bits : Nat} (hb : bits ≤ 32) (v : BitVec 64) :
    ((lowBits bits v).setWidth 32).setWidth 64 = lowBits bits v := by
  apply BitVec.eq_of_getLsbD_eq
  intro i hi
  simp only [BitVec.getLsbD_setWidth, getLsbD_lowBits]
  by_cases h : i < bits
  · have h32 : i < 32 := by omega
    simp only [h, h32, hi, decide_true, Bool.true_and]
  · simp only [h, decide_false, Bool.false_and, Bool.and_false]

theorem bits_le_of_reaches {bits : Nat} {ls : List Line} {vm : Vm} (h : ReachesFields vm g bits ls) : bits ≤ 32 := by
  obtain ⟨b, hb, hg, hbits⟩ := h.block
  have layout : ∀ b ∈ registerLayout, b.group ≠ .route → b.fieldBits ≤ 32 := by decide
  rw [← hbits]
  exact layout b hb (by rw [hg]; exact h.notRoute)

theorem Raises.fits (h : c.Raises g) (v : BitVec 64) : g.Fits v := by
  rintro (e | e) <;> rcases h with h | ⟨h, -⟩ <;> rw [h] at e <;> cases e

theorem Asked.fits (h : c.Asked w) : w.group.Fits w.value := by
  cases h with
  | pends h => exact h.raises.fits _
  | route => rintro (e | e) <;> cases e
  | field reach l v => exact fun _ => narrow_lowBits (bits_le_of_reaches reach) v

/-! ## What deeds store -/

theorem stores?_deedOf (w : FieldWrite) :
    (c.deedOf w).stores? F c.vm l = if w.line = l then F.stores? c.vm l w.group w.value else none := by
  unfold deedOf
  split <;> rfl

theorem fits_deedOf (h : w.group.Fits w.value) : (c.deedOf w).Fits := by
  unfold deedOf
  split <;> exact h

theorem Raises.stores? (h : c.Raises g) (F : ConfigField) (l : Line) (v : BitVec 64) : F.stores? c.vm l g v = none := by
  rcases h with rfl | ⟨rfl, -⟩ <;> cases F <;> rfl

theorem silent_deedOf (h : c.Raises w.group) : (c.deedOf w).stores? F c.vm l = none := by
  rw [stores?_deedOf, h.stores?, ite_self]

theorem Injected.silent {e : Deed} (h : c.Injected e) : e.stores? F c.vm l = none := by
  cases h with
  | fired => rfl
  | pends h => exact silent_deedOf h.raises

theorem Injected.fits {e : Deed} (h : c.Injected e) : e.Fits := by
  cases h with
  | fired => trivial
  | pends h => exact fits_deedOf (h.raises.fits _)

theorem silent_deeds {a : Action} (ha : ∀ acc f, a ≠ .access acc f) {e : Deed} (h : e ∈ c.deeds a) :
    e.stores? F c.vm l = none := by
  cases undertaken_deeds h with
  | asked => exact absurd rfl (ha _ _)
  | injected injected => exact injected.silent
  | deactivate | acknowledge | complete => rfl

theorem fits_deeds {a : Action} {e : Deed} (h : e ∈ c.deeds a) : e.Fits := by
  cases undertaken_deeds h with
  | asked asked => exact fits_deedOf asked.fits
  | injected injected => exact injected.fits
  | deactivate | acknowledge | complete => trivial

/-- What an action stores in the field of an interrupt, in order. -/
def storesOf (c : Core) (F : ConfigField) (l : Line) : Action → List (BitVec 64)
  | .access a f =>
    (c.accessWrites a f).filterMap fun w => if w.line = l then F.stores? c.vm l w.group w.value else none
  | _ => []

theorem filterMap_deeds (a : Action) : (c.deeds a).filterMap (·.stores? F c.vm l) = c.storesOf F l a := by
  cases a with
  | access acc f =>
    show ((c.accessWrites acc f).map c.deedOf).filterMap _ = _
    rw [List.filterMap_map]
    exact congrArg (List.filterMap · _) (funext fun w => stores?_deedOf w)
  | _ => exact List.filterMap_eq_nil_iff.2 fun e he => silent_deeds (fun acc f h => by cases h) he

/-! ## Messages -/

theorem fits_messageDeeds {e : Deed} (h : e ∈ c.messageDeeds msg) : e.Fits := by
  rcases mem_messageDeeds h with injected | ⟨g, k, -, -, rfl⟩
  · exact injected.fits
  · refine fits_deedOf fun _ => ?_
    rw [BitVec.setWidth_setWidth_of_le (Payload.ofWord msg.data).value (by decide : 32 ≤ 64), BitVec.setWidth_eq]

/-- **The deeds of a message store what the message says.** -/
theorem filterMap_messageDeeds (msg : Message) :
    (c.messageDeeds msg).filterMap (·.stores? F c.vm l) = (msg.stores? F c.vm l).toList := by
  unfold messageDeeds Message.stores?
  by_cases hvm : (Payload.ofWord msg.data).vm.toNat = c.vm.id
  · rw [if_pos (beq_iff_eq.2 hvm)]
    cases hr : Request.ofCode? msg.event with
    | none =>
      rw [if_neg]
      · rfl
      · rintro ⟨he, -⟩
        rw [(Request.ofCode?_eq_some_iff ..).2 he.symm] at hr
        cases hr
    | some q =>
      have he := (Request.ofCode?_eq_some_iff ..).1 hr
      by_cases hq : q = .writeField
      · subst hq
        rw [if_pos ⟨he.symm, hvm⟩]
        simp only [requestDeeds]
        cases RegisterGroup.ofCode? (Payload.ofWord msg.data).group.toNat with
        | none => rfl
        | some g =>
          cases c.vm.find? (Payload.ofWord msg.data).bank.toNat (Payload.ofWord msg.data).intid.toNat with
          | none => rfl
          | some k =>
            simp only [List.filterMap_cons, List.filterMap_nil, stores?_deedOf]
            split <;> rename_i e <;> rw [e] <;> rfl
      · rw [if_neg]
        · exact List.filterMap_eq_nil_iff.2 fun e h => (injected_requestDeeds hq h).silent
        · rintro ⟨hw, -⟩
          rw [(Request.ofCode?_eq_some_iff ..).2 hw.symm] at hr
          exact hq (Option.some.inj hr).symm
  · rw [if_neg (fun e => hvm (beq_iff_eq.1 e)), if_neg (fun e => hvm e.2)]
    rfl

end Core

namespace Core

variable {c c' : Core} {F : ConfigField} {l m : Line} {s : Interrupt} {d : Option Deed}

/-! ## The field of an interrupt in hand -/

theorem Final.settings (h : Final c c' l s) : s.SameSettings (c'.interrupt l) := by
  cases h with
  | quiet why record => rw [record]; exact Interrupt.sameSettings_release ..
  | seated n q r target record => rw [record]; exact ⟨rfl, rfl, rfl, rfl, rfl, rfl, rfl, rfl⟩
  | parked busy target record =>
    rw [record]
    refine .trans ?_ (Interrupt.sameSettings_release ..)
    exact ⟨rfl, rfl, rfl, rfl, rfl, rfl, rfl, rfl⟩
  | offered busy target record => rw [record]; exact Interrupt.sameSettings_release ..

theorem get_edit {a : Deed} {vm : Vm} (h : a.Handles l) (F : ConfigField) (t : Interrupt) :
    F.get (a.edit vm t) = (a.stores? F vm l).getD (F.get t) := by
  cases a with
  | write g k v =>
    cases h
    simp only [Deed.stores?, if_true]
    exact F.get_apply vm _ g v t
  | raise | deactivate => rfl
  | forward | acknowledge | complete => exact h.elim

/-- **The interrupt in hand has what the deed stores, or what it had.** -/
theorem Handled.get (h : Handled c c' l s) (made : Made c l (Deed.edit? c.vm d) s) (deed : ∀ a ∈ d, a.Handles l) :
    F.get (c'.interrupt l) = (d.bind (·.stores? F c.vm l)).getD (F.get (c.interrupt l)) := by
  obtain ⟨t, ht, hset⟩ := made
  have ht := (sameSettings_recalled c l).trans ht.toSameSettings
  rw [ConfigField.get_congr h.final.settings, ConfigField.get_congr hset.toSameSettings]
  cases d with
  | none => exact ConfigField.get_congr ht
  | some a =>
    rw [← ConfigField.get_congr ht]
    exact get_edit (deed a rfl) F t

/-- A field of an interrupt keeps what it holds, or gets what a deed stores. -/
theorem Does.get (h : Does c c' d) (hm : c.vm.Has m) : F.get (c'.interrupt m) = F.get (c.interrupt m) ∨
    ∃ a ∈ d, a.stores? F c.vm m = some (F.get (c'.interrupt m)) := by
  cases h with
  | handled l s deed h made =>
    by_cases hml : m = l
    · subst hml
      have hget := h.get (F := F) made deed
      cases d with
      | none => exact .inl hget
      | some a =>
        rw [Option.bind_some] at hget
        cases hr : a.stores? F c.vm m with
        | none => rw [hr] at hget; exact .inl hget
        | some r => rw [hr] at hget; exact .inr ⟨a, rfl, by rw [hr, hget]; rfl⟩
    · exact .inl (ConfigField.get_congr (h.frame.fate m hm hml).settings)
  | returned l has may eq =>
    left
    rw [eq, interrupt_returned may]
    split
    next e =>
      rw [ConfigField.get_congr (Interrupt.sameSettings_release ..), ← e]
      rfl
    next => rfl
  | forwarded g l v h => rw [h.posted.interrupt]; exact .inl rfl
  | posted q other h => rw [h.interrupt]; exact .inl rfl
  | restated a n has credited guest eq => rw [eq]; exact .inl rfl
  | aside h => rw [h.interrupt]; exact .inl rfl
  | dropped pendingOnly drained eq => rw [eq]; exact .inl rfl

end Core
end VirtualGic
