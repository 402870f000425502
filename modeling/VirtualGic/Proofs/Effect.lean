import VirtualGic.Proofs.Deed
/-!
# What deeds do to a state

The state of an interrupt that is no hardware interrupt and keeps no set of requesters changes by the deeds on it and
by nothing else: list registers, spill lists and messages only move it about.
-/
namespace VirtualGic

open Interrupt (State)

/-- What a field write does to the state of an interrupt. -/
def RegisterGroup.stateAfter (g : RegisterGroup) (v : BitVec 64) (s : State) : State :=
  if v == 0 then s
  else
    match g with
    | setPending => { s with pending := true }
    | clearPending => { s with pending := false }
    | setActive => { s with active := true }
    | clearActive => { s with active := false }
    | _ => s

/-- Sets of requesters are written under version 2 only. -/
def RegisterGroup.Proper (g : RegisterGroup) (vm : Vm) : Prop :=
  g = .setRequesters ∨ g = .clearRequesters → vm.version = .v2

namespace Deed

/-- What a deed does to the state of its interrupt. -/
def effect : Deed → State → State
  | write g _ v, s => g.stateAfter v s
  | forward .., s => s
  | raise _, s => { s with pending := true }
  | deactivate _, s | complete _, s => { s with active := false }
  | acknowledge _, _ => ⟨false, true⟩

/-- What some deeds, one after another, do to the state of an interrupt. -/
def after (ds : List Deed) (l : Line) (s : State) : State :=
  ds.foldl (fun s d => if d.line = l then d.effect s else s) s

def Proper (vm : Vm) : Deed → Prop
  | write g _ _ | forward g _ _ => g.Proper vm
  | _ => True

theorem after_append (ds es : List Deed) (l : Line) (s : State) : after (ds ++ es) l s = after es l (after ds l s) :=
  List.foldl_append ..

theorem after_toList (d : Option Deed) (l : Line) (s : State) (line : ∀ a ∈ d, a.line ≠ l) : after d.toList l s = s := by
  cases d with
  | none => rfl
  | some a => exact if_neg (line a rfl)

end Deed

section Edit
variable {vm : Vm} {l : Line} {s : Interrupt}

theorem RegisterGroup.state_apply {g : RegisterGroup} (plain : vm.countsRequesters l = false) (proper : g.Proper vm)
    (v : BitVec 64) : (g.apply vm l v s).state = g.stateAfter v s.state := by
  have requests : g = .setRequesters ∨ g = .clearRequesters → l.isSoftware = false := fun hg => by
    unfold Vm.countsRequesters Interrupt.countsRequesters at plain
    rw [proper hg, beq_self_eq_true, Bool.true_and] at plain
    exact plain
  unfold apply stateAfter
  cases g with
  | setRequesters => simp only [requests (.inl rfl), Bool.false_eq_true, if_false, ite_self]
  | clearRequesters => simp only [requests (.inr rfl), Bool.false_eq_true, if_false, ite_self]
  | setPending | clearPending =>
    simp only [plain, Bool.or_false]
    split <;> rfl
  | setEnable | setActive | clearActive =>
    simp only
    split <;> rfl
  | clearEnable =>
    simp only [plain, Bool.or_false]
    split <;> rfl
  | targets | route | config =>
    simp only [ite_self]
    split <;> rfl
  | _ => simp only [ite_self]

/-- A deed changes the state in a record as it changes the state alone. -/
theorem Deed.state_edit {d : Deed} (plain : vm.countsRequesters d.line = false) (proper : d.Proper vm) :
    (d.edit vm s).state = d.effect s.state := by
  cases d with
  | write g l v => exact RegisterGroup.state_apply plain proper v
  | _ => rfl

end Edit

namespace Core

variable {c c' : Core} {l m : Line} {s : Interrupt} {d : Option Deed}

theorem stateOf_of_held {r : ListRegister} (h : c.held? l = some r) : c.stateOf l = r.state := by
  unfold stateOf
  rw [h]

/-! ## One operation -/

/-- However it ends, the interrupt in hand has the state that its record was given. -/
theorem Final.state (h : Final c c' l s) (off : s.resident = false) (soft : s.hardware = false)
    (plain : c.vm.countsRequesters l = false) : c'.stateOf l = s.state := by
  cases h with
  | quiet why record =>
    rw [stateOf_of_off (by rw [record, resident_release]; exact off), record, Interrupt.state_release]
  | seated n q r target record held state =>
    rw [stateOf_of_held held]
    exact state soft plain
  | parked busy target record =>
    rw [stateOf_of_off (by rw [record, resident_release]; exact off), record, Interrupt.state_release]
  | offered busy target record =>
    rw [stateOf_of_off (by rw [record, resident_release]; exact off), record, Interrupt.state_release]

/-- **What an operation leaves alone keeps its state**, wherever that is afterwards. -/
theorem Fate.state (h : Fate c c' m) (plain : c.vm.countsRequesters m = false) : c'.stateOf m = c.stateOf m := by
  cases h with
  | kept record held => exact stateOf_congr record held
  | evicted r held busy record =>
    have off : (c'.interrupt m).resident = false := by
      rw [record, resident_release]
      exact resident_takenBack c m r
    rw [stateOf_of_off off, stateOf_of_held held, record, Interrupt.state_release]
    exact state_takenBack plain r
  | settled r held empty record =>
    have off : (c'.interrupt m).resident = false := by rw [record, resident_release]
    rw [stateOf_of_off off, stateOf_of_held held, record, Interrupt.state_release]
    exact ((Interrupt.State.isIdle_iff _).1 (ListRegister.isIdle_of_isEmpty empty)).symm

theorem soft_of_lawful {t : Interrupt} {vm : Vm} (h : s.Lawful vm l) (h' : t.Lawful vm l) (soft : s.hardware = false) :
    t.hardware = false := by
  cases ht : t.hardware with
  | false => rfl
  | true =>
    rw [h.passed.2 (h'.passed.1 ht)] at soft
    cases soft

/-- **The interrupt in hand changes its state by the deed only.** -/
theorem Handled.state (h : Handled c c' l s) (made : Made c l (Deed.edit? c.vm d) s) (hs : c.Sound)
    (soft : (c.interrupt l).hardware = false) (plain : c.vm.countsRequesters l = false) (line : ∀ a ∈ d, a.line = l)
    (proper : ∀ a ∈ d, a.Proper c.vm) : c'.stateOf l = Deed.after d.toList l (c.stateOf l) := by
  obtain ⟨t, ht, hts⟩ := made
  have hst : t.state = c.stateOf l := (ht.state trivial).trans (state_recalled plain)
  rw [h.final.state h.off (soft_of_lawful (hs.records l h.has) h.lawful soft) plain, hts.state trivial]
  cases d with
  | none => exact hst
  | some a =>
    have ha : a.line = l := line a rfl
    show (a.edit c.vm t).state = if a.line = l then a.effect (c.stateOf l) else c.stateOf l
    rw [if_pos ha, Deed.state_edit (by rw [ha]; exact plain) (proper a rfl), hst]

theorem held?_returned (hs : c.Sound) (has : c.vm.Has l) (may : c.mayClaim l = true) (m : Line) :
    ((c.claim l).release l).held? m = c.held? m := by
  have hi := interrupt_returned may m
  by_cases hlm : l = m
  · subst hlm
    rw [if_pos rfl] at hi
    cases off : (c.interrupt l).resident with
    | false => rw [held?_of_off off, held?_of_off (by rw [hi, resident_release]; exact off)]
    | true =>
      -- a resident is owned already, and is not given up
      have ho : (c.interrupt l).owner = some c.vcpu := by
        rcases (c.mayClaim_iff l).1 may with ho | ho
        · rw [hs.off_of_free has ho] at off
          cases off
        · exact ho
      rw [Interrupt.release_of_resident (show ({ c.interrupt l with owner := some c.vcpu } : Interrupt).resident = true
        from off), ← ho] at hi
      exact held?_congr rfl hi fun _ _ => rfl
  · rw [if_neg hlm] at hi
    exact held?_congr rfl hi fun _ _ => rfl

theorem agrees_returned (may : c.mayClaim l = true) (m : Line) :
    (c.interrupt m).Agrees True (((c.claim l).release l).interrupt m) := by
  rw [interrupt_returned may m]
  split
  next e =>
    subst e
    refine .trans ?_ (Interrupt.agrees_release ..)
    exact ⟨⟨rfl, rfl, rfl, rfl, rfl, rfl, rfl, rfl⟩, fun _ => rfl, fun _ => rfl⟩
  next => exact .refl _ _

theorem stateOf_returned (hs : c.Sound) (has : c.vm.Has l) (may : c.mayClaim l = true) (m : Line) :
    ((c.claim l).release l).stateOf m = c.stateOf m := by
  unfold stateOf
  rw [held?_returned hs has may]
  split
  next => rfl
  next => exact (agrees_returned may m).state trivial

theorem held?_restated {n : Nat} (hs : c.Sound) (has : c.vm.Has l) (credited : c.vm.Credits c.vcpu l n) (st : State) :
    (c.writeSlot n { c.interface.read n with state := st }).held? l = some { c.interface.read n with state := st } := by
  have hlt := (hs.seated.seat _ n has credited).slot_lt
  rw [credited.2.2] at hlt
  rw [(hs.restate has credited st).held? has credited]
  refine congrArg some ?_
  show (c.interface.write n _).read n = _
  rw [CpuInterface.read_write, if_pos ⟨rfl, hlt⟩]

theorem held?_restated_other {n : Nat} (hs : c.Sound) (has : c.vm.Has l) (credited : c.vm.Credits c.vcpu l n)
    (hm : c.vm.Has m) (hne : l ≠ m) (r : ListRegister) : (c.writeSlot n r).held? m = c.held? m := by
  refine held?_congr rfl rfl fun k hk => read_write_empty _ _ _ (fun hkn => hne ?_) _
  subst hkn
  exact hs.unique has hm credited hk

theorem stateOf_restated {a : Deed} {n : Nat} (hs : c.Sound) (has : c.vm.Has a.line)
    (credited : c.vm.Credits c.vcpu a.line n) (hm : c.vm.Has m) (plain : c.vm.countsRequesters m = false)
    (proper : a.Proper c.vm) :
    (c.writeSlot n { c.interface.read n with
      state := (a.edit c.vm { c.interrupt a.line with state := (c.interface.read n).state }).state }).stateOf m =
      Deed.after [a] m (c.stateOf m) := by
  show _ = if a.line = m then a.effect (c.stateOf m) else c.stateOf m
  by_cases ham : a.line = m
  · rw [← ham] at plain ⊢
    rw [if_pos rfl, stateOf_of_held (hs.held? has credited), stateOf_of_held (held?_restated hs has credited _)]
    exact Deed.state_edit plain proper
  · rw [if_neg ham]
    exact stateOf_congr rfl (held?_restated_other hs has credited hm ham _)

/-- **Whatever a core does, the state of an interrupt changes by its deeds only.** -/
theorem Does.state (h : Does c c' d) (hs : c.Sound) (hm : c.vm.Has m) (soft : (c.interrupt m).hardware = false)
    (plain : c.vm.countsRequesters m = false) (proper : ∀ a ∈ d, a.Proper c.vm) :
    c'.stateOf m = Deed.after d.toList m (c.stateOf m) := by
  cases h with
  | handled l s deed h made =>
    by_cases hml : m = l
    · subst hml
      exact h.state made hs soft plain (fun a ha => (deed a ha).line) proper
    · rw [Deed.after_toList d m _ fun a ha e => hml (e.symm.trans (deed a ha).line)]
      exact (h.frame.fate m hm hml).state plain
  | returned l has hmay eq =>
    rw [eq]
    exact stateOf_returned hs has hmay m
  | forwarded g l v h =>
    rw [h.posted.alike.stateOf m]
    exact (ite_self _).symm
  | posted r other h => exact h.alike.stateOf m
  | restated a n has credited guest eq =>
    rw [eq]
    exact stateOf_restated hs has credited hm plain (proper a rfl)
  | aside h => exact h.stateOf m
  | dropped pendingOnly drained eq =>
    rw [eq]
    exact (alike_dropRequests c).stateOf m

/-- A core has no deeds on what it may not claim. -/
theorem Does.after_of_elsewhere (h : Does c c' d) (may : c.mayClaim m = false) (s : State) :
    Deed.after d.toList m s = s := by
  cases h with
  | handled l t deed h =>
    refine Deed.after_toList d m s fun a ha e => ?_
    have hl := h.may
    rw [← (deed a ha).line, e, may] at hl
    cases hl
  | forwarded g l v h => exact ite_self _
  | restated a n has credited =>
    refine Deed.after_toList _ m s fun b hb e => ?_
    cases hb
    have hl := (c.mayClaim_iff a.line).2 (.inr credited.1)
    rw [e, may] at hl
    cases hl
  | returned | posted | aside | dropped => rfl

/-! ## Runs -/

theorem Deed.Proper.congr {vm vm' : Vm} (hp : vm'.partition = vm.partition) {a : Deed} (h : a.Proper vm) : a.Proper vm' := by
  cases a with
  | write | forward =>
    intro hg
    rw [Vm.version_congr hp]
    exact h hg
  | _ => trivial

theorem hardware_congr (hs : c.Sound) (hs' : c'.Sound) (hp : c'.vm.partition = c.vm.partition) (hm : c.vm.Has m)
    (soft : (c.interrupt m).hardware = false) : (c'.interrupt m).hardware = false :=
  soft_of_lawful (hs.records m hm) ((hs'.records m ((Vm.has_congr hp m).2 hm)).congr hp.symm) soft

theorem Runs.state {ds : List Deed} (h : Runs c ds c') (hs : c.Sound) (hm : c.vm.Has m)
    (soft : (c.interrupt m).hardware = false) (plain : c.vm.countsRequesters m = false) (proper : ∀ a ∈ ds, a.Proper c.vm) :
    c'.stateOf m = Deed.after ds m (c.stateOf m) := by
  induction h with
  | nil => rfl
  | @cons c c' c'' d ds hd _ ih =>
    have hp := hd.same.partition
    have hs' := hd.sound hs
    have first : ∀ a ∈ d, a.Proper c.vm := fun a ha =>
      proper a (List.mem_append_left _ (Option.mem_toList.2 ha))
    rw [Deed.after_append, ← hd.state hs hm soft plain first]
    exact ih hs' ((Vm.has_congr hp m).2 hm) (hardware_congr hs hs' hp hm soft)
      ((Vm.countsRequesters_congr hp m).trans plain)
      (fun a ha => Deed.Proper.congr hp (proper a (List.mem_append_right _ ha)))

theorem Runs.after_of_elsewhere {ds : List Deed} (h : Runs c ds c') (hm : c.vm.Has m) (may : c.mayClaim m = false)
    (s : State) : Deed.after ds m s = s := by
  induction h with
  | nil => rfl
  | cons hd _ ih =>
    rw [Deed.after_append, hd.after_of_elsewhere may s]
    exact ih ((Vm.has_congr hd.same.partition m).2 hm) ((hd.local_.mayClaim hm).trans may)

end Core
end VirtualGic
