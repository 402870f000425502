import VirtualGic.Proofs.Standing
/-!
# Serving one interrupt

What a core does about one interrupt, with what it leaves of the others (`Core.Serves`).  They may be moved, but stay
what they are (`Core.Leaves`), hardware interrupts included.
-/
namespace VirtualGic.Core

variable {c c' : Core} {l m : Line} {s : Interrupt} {d : Option Deed}

/-! ## Leaving alone -/

/-- The guest has completed the interrupt in its list register, which asks for maintenance. -/
def lapsed (c : Core) (l : Line) : Bool := (c.held? l).any (·.isCompleted)

theorem lapsed_of_off (off : (c.interrupt l).resident = false) : c.lapsed l = false := by
  unfold lapsed
  rw [held?_of_off off]
  rfl

theorem lapsed_of_held {r : ListRegister} (held : c.held? l = some r) (h : r.isCompleted = false) : c.lapsed l = false := by
  unfold lapsed
  rw [held, Option.any_some, h]

/-- What an interrupt is stays the same, in the list register that held it or out of it. -/
structure Leaves (c c' : Core) (m : Line) : Prop where
  recalled : (c.recalled m).Agrees True (c'.recalled m)
  lapsed : c'.lapsed m = c.lapsed m

theorem Leaves.refl (c : Core) (m : Line) : Leaves c c m := ⟨.refl _ _, rfl⟩

theorem Alike.leaves (h : Alike c c') (m : Line) : Leaves c c' m := ⟨h.agrees m, congrArg (Option.any _) (h.held? m)⟩

theorem Fate.leaves (h : Fate c c' m) (same : Same c c') (hs : c.Sound) (hm : c.vm.Has m)
    (tallied : c.vm.countsRequesters m = true → (c.interrupt m).Tallied (c.held? m)) : Leaves c c' m := by
  refine ⟨h.agrees same hs hm tallied, ?_⟩
  cases h with
  | kept record held => exact congrArg (Option.any _) held
  | evicted r held busy record =>
    rw [lapsed_of_held held (ListRegister.not_isCompleted_of_busy busy), lapsed_of_off]
    rw [record, resident_release]
    exact resident_takenBack c m r
  | settled r held empty record =>
    rw [lapsed_of_held held (ListRegister.not_isCompleted_of_isEmpty empty), lapsed_of_off]
    rw [record, resident_release]

/-! ## Serving -/

/-- An operation about one interrupt: the deed in it if there is one, and what is left of the others. -/
structure Serves (c c' : Core) (l : Line) (d : Option Deed) : Prop where
  does : Does c c' d
  line : ∀ a ∈ d, a.line = l
  may : ∀ a ∈ d, c.mayClaim l = true
  tallies : ∀ a ∈ d, a.Tallies c.vm ∧ a ≠ .acknowledge l
  others : ∀ m, c.vm.Has m → m ≠ l → c.mayClaim m = true → Leaves c c' m
  /-- A deed leaves no completed list register behind. -/
  lapsed : c.vm.countsRequesters l = true → c'.lapsed l = true → d = none ∧ c.lapsed l = true
  posted : MessageBus.Grew (·.About .route c.vm l) c.bus c'.bus

theorem Final.unlapsed (h : Final c c' l s) (off : s.resident = false) (fits : l.id < 0x400)
    (counts : c.vm.countsRequesters l = true) (tallied : s.state.pending = (s.requesters != 0)) : c'.lapsed l = false := by
  cases h with
  | quiet why record => exact lapsed_of_off (by rw [record, resident_release]; exact off)
  | seated n q r target record held state presents busy =>
    exact lapsed_of_held held
      (ListRegister.not_isCompleted_of_busy (presents_of_counts fits counts tallied busy presents).busy)
  | parked busy target record => exact lapsed_of_off (by rw [record, resident_release]; exact off)
  | offered busy target record => exact lapsed_of_off (by rw [record, resident_release]; exact off)

theorem Handled.serves (h : Handled c c' l s) (made : Made c l (Deed.edit? c.vm d) s) (hs : c.Sound) (ht : c.Tallied)
    (deed : ∀ a ∈ d, a.Handles l) (tallies : ∀ a ∈ d, a.Tallies c.vm) : Serves c c' l d where
  does := .handled l s deed h made
  line := fun a ha => (deed a ha).line
  may := fun _ _ => h.may
  tallies := fun a ha => ⟨tallies a ha, fun e => by
    have := deed a ha
    rw [e] at this
    exact this⟩
  others := fun m hm hml may => (h.frame.fate m hm hml).leaves h.frame.toSame hs hm (ht m hm may)
  lapsed := fun counts after => by
    have hfin := h.final.unlapsed h.off (Vm.id_lt_of_has hs.station.checked h.has) counts
      (tallied_made made deed tallies counts (ht l h.has h.may counts))
    rw [hfin] at after
    cases after
  posted := h.frame.posted

theorem serves_accept (hs : c.Sound) (ht : c.Tallied) (hl : c.vm.Has l) : Serves c (c.accept l) l none := by
  have none_deed : ∀ {p : Deed → Prop}, ∀ a ∈ (none : Option Deed), p a := fun a ha => by cases ha
  rcases accept_cases hs hl with ⟨-, e⟩ | ⟨s, h, made⟩ | ⟨may, e, -⟩
  · rw [e]
    exact ⟨.posted .route (by decide) (.refl _ c), none_deed, none_deed, none_deed, fun m _ _ _ => .refl c m,
      fun _ after => ⟨rfl, after⟩, .refl _ _⟩
  · exact h.serves made hs ht none_deed none_deed
  · have same := fun m => held?_returned hs hl may m
    rw [e]
    exact ⟨.returned l hl may rfl, none_deed, none_deed, none_deed,
      fun m _ _ _ => ⟨agrees_recalled ((frame_claim c l).trans (frame_release _ l)).partition (agrees_returned may m) (same m),
        congrArg (Option.any _) (same m)⟩,
      fun _ after => ⟨rfl, by rw [lapsed, ← same l]; exact after⟩, .refl _ _⟩

theorem serves_writeField (hs : c.Sound) (ht : c.Tallied) (hl : c.vm.Has l) (may : c.mayClaim l = true) (g : RegisterGroup)
    (v : BitVec 64) : Serves c (c.writeField g l v) l (some (.write g l v)) := by
  obtain ⟨s, h, made⟩ := handled_applyField hs hl may g v
  have e : c.writeField g l v = c.applyField g l v := by rw [writeField, may, if_pos rfl]
  rw [e]
  exact h.serves made hs ht (fun a ha => by cases ha; rfl) fun a ha => by cases ha; exact fun k e => by cases e

end VirtualGic.Core
