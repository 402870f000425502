import VirtualGic.Proofs.Tally
/-!
# Encoding

A list register is a word, and its fields share bits: the bit that asks for maintenance is one of those that number the
physical interrupt, and the requester of a software interrupt stands within the interrupt number.  What is encoded is read
back nevertheless.  The word gives back the number and the settings of the record, and once completed it asks for maintenance
if software is to be told; of the requests of a software interrupt one is taken and can be put back; and a word is in use,
empty or completed, only one of them (`ListRegister.encoding_exact`).
-/
namespace VirtualGic.ListRegister

open Interrupt (State)

/-! ## Completed words -/

/-- The word with the state cleared. -/
def withoutState (w : BitVec 64) : BitVec 64 := lowBits 62 w

theorem extractLsb'_lowBits {n start len : Nat} (w : BitVec 64) (low : start + len ≤ n) :
    (lowBits n w).extractLsb' start len = w.extractLsb' start len := by
  apply BitVec.eq_of_getLsbD_eq
  intro i hi
  have inside : start + i < n := by omega
  rw [BitVec.getLsbD_extractLsb', BitVec.getLsbD_extractLsb', getLsbD_lowBits, decide_eq_true inside, Bool.true_and]

theorem ofWord_withoutState (w : BitVec 64) : ofWord (withoutState w) = { ofWord w with state := .idle } := by
  have cleared : (lowBits 62 w).extractLsb' 62 2 = 0 := by
    apply BitVec.eq_of_getLsbD_eq
    intro i hi
    have above : ¬ 62 + i < 62 := by omega
    rw [BitVec.getLsbD_extractLsb', getLsbD_lowBits, decide_eq_false above, Bool.false_and, Bool.and_false]
    exact BitVec.getLsbD_zero.symm
  have kept (n : Nat) (low : n < 62) : (lowBits 62 w).getLsbD n = w.getLsbD n := by
    rw [getLsbD_lowBits, decide_eq_true low, Bool.true_and]
  simp (disch := decide) only [ofWord, withoutState, cleared, kept, extractLsb'_lowBits]
  rfl

/-- A completed list register asks for maintenance if it was told to and is not one of hardware. -/
theorem isCompleted_withoutState (r : ListRegister) :
    (ofWord (withoutState r.toWord)).isCompleted = (!r.hardware && r.maintenanceBit) := by
  rw [ofWord_withoutState, ofWord_toWord]
  rfl

theorem isEmpty_withoutState (r : ListRegister) :
    (ofWord (withoutState r.toWord)).isEmpty = (r.hardware || !r.maintenanceBit) := by
  rw [ofWord_withoutState, ofWord_toWord]
  rfl

/-! ## Records -/

/-- What the word of a list register that presents an interrupt says. -/
structure Encodes (w : BitVec 64) (l : Line) (s : Interrupt) : Prop where
  number : (ofWord w).number.toNat = l.id
  intid : (ofWord w).intid.toNat = l.id
  priority : (ofWord w).priority = s.priority
  group1 : (ofWord w).group1 = s.group1
  hardware : (ofWord w).hardware = s.hardware
  /-- Hardware keeps no interrupt pending and active at once. -/
  state : (ofWord w).state = if s.hardware = true ∧ s.state = ⟨true, true⟩ then ⟨false, true⟩ else s.state
  /-- Software is told of the completion of its shared interrupts. -/
  completed : (ofWord (withoutState w)).isCompleted = (!s.hardware && !l.isBanked)
  empty : (ofWord (withoutState w)).isEmpty = (s.hardware || l.isBanked)

theorem encodes_present (l : Line) (s : Interrupt) (fits : l.id < 1024) : Encodes (present l s).toWord l s := by
  have number : (BitVec.ofNat 10 l.id).toNat = l.id := toNat_number fits
  have kept : (⟨s.state.pending && !(s.hardware && s.state.active), s.state.active⟩ : State) =
      if s.hardware = true ∧ s.state = ⟨true, true⟩ then ⟨false, true⟩ else s.state := by
    obtain ⟨pending, active⟩ := s.state
    cases s.hardware <;> cases pending <;> cases active <;> rfl
  -- without hardware the physical field asks for maintenance, and does nothing else
  have asked : (!s.hardware && (if s.hardware then BitVec.ofNat 13 l.id
      else if l.isBanked then 0 else askMaintenance).getLsbD 9) = (!s.hardware && !l.isBanked) := by
    cases s.hardware with
    | true => rfl
    | false =>
      simp only [Bool.false_eq_true, if_false]
      cases l.isBanked <;> decide
  rw [present_eq l s fits]
  refine ⟨?_, ?_, ?_, ?_, ?_, ?_, ?_, ?_⟩
  · have high : empty.numberHigh ++ empty.requester = 0#22 := by decide
    rw [ofWord_toWord]
    show (empty.numberHigh ++ empty.requester ++ BitVec.ofNat 10 l.id).toNat = l.id
    rw [high, BitVec.toNat_append, number, BitVec.toNat_zero, Nat.zero_shiftLeft, Nat.zero_or]
  · rw [ofWord_toWord]
    exact number
  · rw [ofWord_toWord]
  · rw [ofWord_toWord]
  · rw [ofWord_toWord]
  · rw [ofWord_toWord]
    exact kept
  · rw [isCompleted_withoutState]
    exact asked
  · rw [isEmpty_withoutState, ← Bool.not_inj_iff, Bool.not_or, Bool.not_or, Bool.not_not]
    exact asked

/-! ## Requests -/

/-- What a list register took of a record, leaving `left`, can be put back. -/
structure PutsBack (r : ListRegister) (s left : Interrupt) : Prop where
  requesters : (restoreRequest r { left with state := r.state }).requesters = s.requesters
  state : (restoreRequest r { left with state := r.state }).state = s.state
  /-- A list register has three bits for the active requester. -/
  whole : s.activeRequester.toNat < 8 → restoreRequest r { left with state := r.state } = s

/-- How the word of a list register takes one request from a record and leaves `left`. -/
structure TakesOne (w : BitVec 64) (l : Line) (s left : Interrupt) : Prop where
  intid : (ofWord w).intid.toNat = l.id
  /-- The active request goes in alone. -/
  active : s.state.active = true →
    (ofWord w).state = ⟨false, true⟩ ∧ (ofWord w).requester = s.activeRequester.setWidth 3 ∧ left = s
  /-- Else the lowest requester is taken out of the set. -/
  waiting : s.state.active = false → s.requesters ≠ 0 →
    (ofWord w).state = ⟨true, false⟩ ∧ s.requesters.getLsbD (ofWord w).requester.toNat = true ∧
      (∀ n, n < (ofWord w).requester.toNat → s.requesters.getLsbD n = false) ∧
      left = { s with requesters := withoutRequester s.requesters (ofWord w).requester.toNat }
  /-- The requests left behind are presented once this one is completed. -/
  completed : (ofWord (withoutState w)).isCompleted = (left.requesters != 0)
  back : PutsBack (ofWord w) s left

/-- The lowest requester, as a member below which there is none. -/
theorem lowestRequester?_eq_some {q : BitVec 8} {n : Nat} (h : lowestRequester? q = some n) :
    n < 8 ∧ q.getLsbD n = true ∧ ∀ m, m < n → q.getLsbD m = false := by
  obtain ⟨member, inRange, least⟩ := List.find?_range_eq_some.1 h
  exact ⟨List.mem_range.1 inRange, member, fun m hm => (Bool.not_eq_true' _).mp (least m hm)⟩

theorem isSome_lowestRequester? {q : BitVec 8} (h : q ≠ 0) : ∃ n, lowestRequester? q = some n :=
  Option.ne_none_iff_exists'.1 fun none => h (lowestRequester?_eq_none none)

/-- Three bits hold a requester below eight. -/
theorem setWidth_requester {q : BitVec 8} (h : q.toNat < 8) : (q.setWidth 3).setWidth 8 = q := by
  apply BitVec.eq_of_toNat_eq
  rw [BitVec.toNat_setWidth, BitVec.toNat_setWidth, Nat.mod_eq_of_lt (a := q.toNat) h, Nat.mod_eq_of_lt q.isLt]

variable {l : Line} {s : Interrupt} {r : ListRegister} {q : BitVec 8}

/-- The word for one request of an interrupt. -/
def ofRequest (l : Line) (s : Interrupt) (state : State) (requester : BitVec 3) (left : BitVec 8) : ListRegister :=
  { empty with
    state := state
    group1 := s.group1
    priority := s.priority
    physical := if left == 0 then 0 else askMaintenance
    requester := requester
    intid := BitVec.ofNat 10 l.id }

theorem isCompleted_ofRequest (state : State) (requester : BitVec 3) (left : BitVec 8) :
    (ofWord (withoutState (ofRequest l s state requester left).toWord)).isCompleted = (left != 0) := by
  rw [isCompleted_withoutState]
  exact getLsbD_askMaintenance left

theorem presentRequest_of_active (fits : l.id < 0x400) (active : s.state.active = true) :
    presentRequest l s = (ofRequest l s ⟨false, true⟩ (s.activeRequester.setWidth 3) s.requesters, s) := by
  simp only [presentRequest, active, if_true]
  rw [withNumber_eq _ fits rfl]
  rfl

theorem presentRequest_of_lowest {n : Nat} (fits : l.id < 0x400) (inactive : s.state.active = false)
    (h : lowestRequester? s.requesters = some n) :
    presentRequest l s = (ofRequest l s ⟨true, false⟩ (BitVec.ofNat 3 n) (withoutRequester s.requesters n),
      { s with requesters := withoutRequester s.requesters n }) := by
  simp only [presentRequest, inactive, Bool.false_eq_true, if_false, h]
  rw [withNumber_eq _ fits rfl]
  rfl

theorem presentRequest_of_none (fits : l.id < 0x400) (inactive : s.state.active = false) (h : s.requesters = 0) :
    presentRequest l s = (ofRequest l s s.state 0 s.requesters, s) := by
  have none : lowestRequester? 0 = none := by decide
  simp only [presentRequest, inactive, Bool.false_eq_true, if_false, h, none]
  rw [withNumber_eq _ fits rfl]
  rfl

/-- What a list register took is put back if it shows the active bit, and its request and those left are all there were. -/
theorem putsBack_of_whole (active : r.state.active = s.state.active)
    (whole : (if r.state.pending then q ||| BitVec.twoPow 8 r.requester.toNat else q) = s.requesters)
    (tallied : s.state.pending = (s.requesters != 0))
    (kept : s.state.active = true → r.requester = s.activeRequester.setWidth 3) :
    PutsBack r s { s with requesters := q } := by
  have pending : (r.state.pending || s.requesters != 0) = s.state.pending := by
    rw [tallied]
    cases hp : r.state.pending with
    | false => exact Bool.false_or _
    | true => rw [← whole, hp, if_pos rfl, or_requester_ne_zero, Bool.true_or]
  have restored : restoreRequest r { ({ s with requesters := q } : Interrupt) with state := r.state } =
      { s with activeRequester := if s.state.active then r.requester.setWidth 8 else s.activeRequester } := by
    simp only [restoreRequest, whole, active, pending]
  refine ⟨by rw [restored], by rw [restored], fun small => restored.trans ?_⟩
  split
  next active => rw [kept active, setWidth_requester small]
  next => rfl

/-- What holds of the register for a request holds of its word. -/
theorem takesOne_ofRequest {state : State} {requester : BitVec 3} (fits : l.id < 0x400)
    (active : s.state.active = true →
      state = ⟨false, true⟩ ∧ requester = s.activeRequester.setWidth 3 ∧ { s with requesters := q } = s)
    (waiting : s.state.active = false → s.requesters ≠ 0 →
      state = ⟨true, false⟩ ∧ s.requesters.getLsbD requester.toNat = true ∧
        (∀ n, n < requester.toNat → s.requesters.getLsbD n = false) ∧ q = withoutRequester s.requesters requester.toNat)
    (back : PutsBack (ofRequest l s state requester q) s { s with requesters := q }) :
    TakesOne (ofRequest l s state requester q).toWord l s { s with requesters := q } := by
  have intid : (BitVec.ofNat 10 l.id).toNat = l.id := toNat_number fits
  refine ⟨?_, fun h => ?_, fun h some => ?_, isCompleted_ofRequest .., ?_⟩
  · rwa [ofWord_toWord]
  · rw [ofWord_toWord]
    exact active h
  · obtain ⟨hs, member, least, left⟩ := waiting h some
    rw [ofWord_toWord]
    exact ⟨hs, member, least, congrArg (fun left => { s with requesters := left }) left⟩
  · rwa [ofWord_toWord]

/-- **One request goes into the word, and it can be put back.** -/
theorem takesOne_presentRequest (fits : l.id < 0x400) (tallied : s.state.pending = (s.requesters != 0)) :
    TakesOne (presentRequest l s).1.toWord l s (presentRequest l s).2 := by
  cases active : s.state.active with
  | true =>
    have e := presentRequest_of_active fits active
    have presents := presents_presentRequest fits tallied (State.isIdle_of_active active) e
    rw [e]
    exact takesOne_ofRequest fits (fun _ => ⟨rfl, rfl, rfl⟩) (fun inactive => by cases active.symm.trans inactive)
      (putsBack_of_whole presents.active presents.whole tallied fun _ => rfl)
  | false =>
    have single : s.state.active ≠ true := ne_true_of_eq_false active
    by_cases none : s.requesters = 0
    · have idle : s.state.pending = false := tallied.trans (bne_eq_false_iff_eq.2 none)
      rw [presentRequest_of_none fits active none]
      exact takesOne_ofRequest fits (fun h => absurd h single) (fun _ some => absurd none some)
        (putsBack_of_whole rfl (if_neg (ne_true_of_eq_false idle)) tallied fun h => absurd h single)
    · obtain ⟨n, hn⟩ := isSome_lowestRequester? none
      obtain ⟨small, member, least⟩ := lowestRequester?_eq_some hn
      have e := presentRequest_of_lowest fits active hn
      have pending : s.state.pending = true := tallied.trans (bne_iff_ne.2 none)
      have presents := presents_presentRequest fits tallied (State.isIdle_of_pending pending) e
      have requester : (BitVec.ofNat 3 n).toNat = n := (BitVec.toNat_ofNat ..).trans (Nat.mod_eq_of_lt small)
      rw [e]
      refine takesOne_ofRequest fits (fun h => absurd h single) (fun _ _ => ?_)
        (putsBack_of_whole presents.active presents.whole tallied fun h => absurd h single)
      rw [requester]
      exact ⟨rfl, member, least, rfl⟩

/-! ## All words -/

/-- A word is in use, reusable or completed. -/
inductive Classed (w : BitVec 64) : Prop
  | busy (state : (ofWord w).state ≠ .idle) (kept : (ofWord w).isEmpty = false) (going : (ofWord w).isCompleted = false)
  | empty (state : (ofWord w).state = .idle) (empty : (ofWord w).isEmpty = true) (told : (ofWord w).isCompleted = false)
  | completed (state : (ofWord w).state = .idle) (kept : (ofWord w).isEmpty = false) (asks : (ofWord w).isCompleted = true)

theorem classed (w : BitVec 64) : Classed w := by
  cases idle : (ofWord w).state.isIdle with
  | false =>
    have state : (ofWord w).state ≠ .idle := fun h => by rw [h] at idle; cases idle
    exact .busy state (not_isEmpty_of_busy idle) (not_isCompleted_of_busy idle)
  | true =>
    have state := (State.isIdle_iff _).1 idle
    have other := isEmpty_or_isCompleted _ idle
    cases done : (ofWord w).isCompleted with
    | false => exact .empty state (other.trans (congrArg not done)) done
    | true => exact .completed state (other.trans (congrArg not done)) done

/-- **What a list register was given, it gives back.**  A record is read back from the word, and a completed word asks for
maintenance exactly if the interrupt is a shared one of software, whatever its number.  Of the requests of a software
interrupt one is taken, and putting it back undoes that.  And every word is in use, empty or completed, just one of them. -/
theorem encoding_exact :
    (∀ (l : Line) (s : Interrupt), l.id < 1024 → Encodes (present l s).toWord l s) ∧
      (∀ (l : Line) (s : Interrupt), l.id < 16 → s.state.pending = (s.requesters != 0) →
        TakesOne (presentRequest l s).1.toWord l s (presentRequest l s).2) ∧
      ∀ w : BitVec 64, Classed w :=
  ⟨encodes_present, fun _ _ fits tallied => takesOne_presentRequest (Nat.lt_trans fits (by decide)) tallied, classed⟩

/-- A hardware interrupt whose number has the bit that asks for maintenance, and a software interrupt with two requesters. -/
theorem encoding_exact_overlapping :
    Encodes (present (.shared 600) { Interrupt.shared .any with hardware := true }).toWord (.shared 600)
        { Interrupt.shared .any with hardware := true } ∧
      TakesOne (presentRequest (.banked 1 3) { Interrupt.banked .v2 1 0 3 with state := ⟨true, false⟩, requesters := 0x24 }).1.toWord
        (.banked 1 3) { Interrupt.banked .v2 1 0 3 with state := ⟨true, false⟩, requesters := 0x24 }
        (presentRequest (.banked 1 3) { Interrupt.banked .v2 1 0 3 with state := ⟨true, false⟩, requesters := 0x24 }).2 :=
  ⟨encoding_exact.1 _ _ (by decide), encoding_exact.2.1 _ _ (by decide) (by decide)⟩

end VirtualGic.ListRegister
