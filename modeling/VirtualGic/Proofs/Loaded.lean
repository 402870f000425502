import VirtualGic.Proofs.Guarded.Window
import VirtualGic.Proofs.Syndrome
/-!
# Loaded values

A load moves the low bytes of a word into a register, and zeros or copies of the sign fill what else is used of the register.
`Access.Loaded` says which number is in the register then.  It holds of one word only, and that is the word that a mask, two
shifts and a cut come to.  The other registers stay as they were, and the upper half of a register that is used with its 32 bits
is clear (`Access.fills_register`).  So it is with every load that a core serves (`Core.access_fills`).
-/
namespace VirtualGic

/-- A word whose sign was extended is cut to a shorter one. -/
theorem setWidth_signExtend {n k m : Nat} (h : k ≤ m) (w : BitVec n) : (w.signExtend m).setWidth k = w.signExtend k := by
  apply BitVec.eq_of_getLsbD_eq
  intro i hi
  have inside : i < m := by omega
  simp only [BitVec.getLsbD_setWidth, BitVec.getLsbD_signExtend, hi, inside, decide_true, Bool.true_and]

namespace Access

variable {a : Access} {v x y : BitVec 64}

/-- Eight bytes are moved with a whole register only. -/
def Proper (a : Access) : Prop := a.width ∈ [1, 2, 4] ∨ a.width = 8 ∧ a.wide = true

instance (a : Access) : Decidable a.Proper := inferInstanceAs (Decidable (_ ∨ _))

/-- How many bits of the register are used. -/
def span (a : Access) : Nat := if a.wide then 64 else 32

/-- What is in a register once the low bytes of a word were loaded into it. -/
structure Loaded (a : Access) (v x : BitVec 64) : Prop where
  bytes : AgreeBelow (8 * a.width) x v
  unsigned : a.signed = false → x.toNat = v.toNat % 2 ^ (8 * a.width)
  /-- What is used of the register is the same number as the bytes, be it negative or not. -/
  signed : a.signed = true → (x.setWidth a.span).toInt = (v.setWidth (8 * a.width)).toInt
  /-- What is not used of it is clear. -/
  unused : x.toNat < 2 ^ a.span

/-! ## The word of a load -/

theorem span_of_wide (wide : a.wide = true) : a.span = 64 := if_pos wide

theorem span_of_narrow (narrow : a.wide = false) : a.span = 32 := if_neg (ne_true_of_eq_false narrow)

theorem span_le (a : Access) : a.span ≤ 64 := by
  unfold span
  split <;> decide

/-- The bytes fit into what is used of the register. -/
theorem Proper.bits_le (h : a.Proper) : 8 * a.width ≤ a.span := by
  rcases h with short | ⟨whole, wide⟩
  · have short : 8 * a.width ≤ 32 := (by decide : ∀ w ∈ [1, 2, 4], 8 * w ≤ 32) a.width short
    refine Nat.le_trans short ?_
    unfold span
    split <;> decide
  · have full : 8 * a.width = 64 := by rw [whole]
    exact Nat.le_of_eq (full.trans (span_of_wide wide).symm)

theorem Proper.width_mem (h : a.Proper) : a.width ∈ [1, 2, 4, 8] := by
  rcases h with short | ⟨whole, -⟩
  · exact (by decide : ∀ w ∈ [1, 2, 4], w ∈ [1, 2, 4, 8]) a.width short
  · rw [whole]
    decide

theorem extend_unsigned (unsigned : a.signed = false) (v : BitVec 64) : a.extend v = lowBits (8 * a.width) v := by
  simp only [extend, unsigned, Bool.false_and, Bool.false_eq_true, if_false]

/-- The sign goes as far as the register is used. -/
theorem extend_signed (h : a.Proper) (signed : a.signed = true) (v : BitVec 64) :
    a.extend v = ((v.setWidth (8 * a.width)).signExtend a.span).setWidth 64 := by
  have bits := h.bits_le
  unfold extend
  simp only [signed, Bool.true_and, decide_eq_true_eq]
  cases wide : a.wide with
  | true =>
    rw [span_of_wide wide, BitVec.setWidth_eq]
    split
    next => rfl
    next whole =>
      -- a full register has no room for more of the sign
      have full : 8 * a.width = 64 := Nat.le_antisymm (span_of_wide wide ▸ bits) (Nat.not_lt.1 whole)
      rw [full, BitVec.signExtend_eq, lowBits, BitVec.setWidth_eq]
  | false =>
    rw [span_of_narrow wide] at bits ⊢
    have short : 8 * a.width < 64 := Nat.lt_of_le_of_lt bits (by decide)
    simp only [short, if_true, Bool.false_eq_true, if_false, lowBits]
    rw [setWidth_signExtend (by decide)]

theorem loaded_unsigned (h : a.Proper) (sign : a.signed = false) (v : BitVec 64) : a.Loaded v (lowBits (8 * a.width) v) := by
  have value : (lowBits (8 * a.width) v).toNat = v.toNat % 2 ^ (8 * a.width) := by
    rw [lowBits, BitVec.toNat_setWidth_of_le (Nat.le_trans h.bits_le a.span_le), BitVec.toNat_setWidth]
  constructor
  case bytes => exact AgreeBelow.lowBits_self _ v
  case unsigned => exact fun _ => value
  case signed =>
    intro signed
    cases sign.symm.trans signed
  case unused =>
    calc (lowBits (8 * a.width) v).toNat
      _ = v.toNat % 2 ^ (8 * a.width) := value
      _ < 2 ^ (8 * a.width) := Nat.mod_lt _ (Nat.two_pow_pos _)
      _ ≤ 2 ^ a.span := Nat.pow_le_pow_right (by decide) h.bits_le

theorem loaded_signed (h : a.Proper) (sign : a.signed = true) (v : BitVec 64) :
    a.Loaded v (((v.setWidth (8 * a.width)).signExtend a.span).setWidth 64) := by
  have bits := h.bits_le
  have span := a.span_le
  constructor
  case bytes =>
    intro i hi
    have inside : i < a.span := by omega
    have inWord : i < 64 := by omega
    simp only [BitVec.getLsbD_setWidth, BitVec.getLsbD_signExtend, hi, inside, inWord, if_true, decide_true, Bool.true_and]
  case unsigned =>
    intro unsigned
    cases sign.symm.trans unsigned
  case signed =>
    intro _
    rw [BitVec.setWidth_setWidth_of_le _ span, BitVec.setWidth_eq, BitVec.toInt_signExtend_of_le bits]
  case unused =>
    rw [BitVec.toNat_setWidth_of_le span]
    exact BitVec.isLt _

/-- **The word of a load is the number that was loaded.** -/
theorem loaded_extend (h : a.Proper) (v : BitVec 64) : a.Loaded v (a.extend v) := by
  cases sign : a.signed with
  | false =>
    rw [extend_unsigned sign]
    exact loaded_unsigned h sign v
  | true =>
    rw [extend_signed h sign]
    exact loaded_signed h sign v

/-- A load leaves no choice. -/
theorem Loaded.unique (hx : a.Loaded v x) (hy : a.Loaded v y) : x = y := by
  apply BitVec.eq_of_toNat_eq
  cases sign : a.signed with
  | false => exact (hx.unsigned sign).trans (hy.unsigned sign).symm
  | true =>
    have used : x.setWidth a.span = y.setWidth a.span :=
      BitVec.eq_of_toInt_eq ((hx.signed sign).trans (hy.signed sign).symm)
    have value := congrArg BitVec.toNat used
    rwa [BitVec.toNat_setWidth, BitVec.toNat_setWidth, Nat.mod_eq_of_lt hx.unused, Nat.mod_eq_of_lt hy.unused] at value

/-- Masking, shifting and cutting come to the number that is loaded, and to no other. -/
theorem loaded_iff (h : a.Proper) : a.Loaded v x ↔ Guarded.extend a v = .ok x := by
  rw [Guarded.extend_eq h.width_mem]
  constructor
  · intro loaded
    rw [loaded.unique (loaded_extend h v)]
  · intro e
    cases e
    exact loaded_extend h v

/-! ## The registers -/

theorem Loaded.upper (h : a.Loaded v x) (narrow : a.wide = false) : x.extractLsb' 32 32 = 0 := by
  have small : x.toNat < 2 ^ 32 := span_of_narrow narrow ▸ h.unused
  apply BitVec.eq_of_toNat_eq
  rw [BitVec.extractLsb'_toNat, Nat.shiftRight_eq_div_pow, Nat.div_eq_of_lt small]
  rfl

/-- What a load makes of the registers. -/
structure Fills (a : Access) (v : BitVec 64) (f f' : RegisterFile) : Prop where
  loaded : a.register ≤ 30 → a.Loaded v (f'.get a.register)
  ignored : 30 < a.register → f' = f
  others : ∀ n ≠ a.register, f'.get n = f.get n
  upper : a.wide = false → (f'.get a.register).extractLsb' 32 32 = 0

theorem fills_finishLoad (h : a.Proper) (v : BitVec 64) (f : RegisterFile) : a.Fills v f (a.finishLoad f v) := by
  have get (n : Nat) : (a.finishLoad f v).get n = if a.register = n ∧ a.register < 31 then a.extend v else f.get n :=
    f.get_set a.register n _
  have filled (low : a.register < 31) : a.Loaded v ((a.finishLoad f v).get a.register) := by
    rw [get, if_pos ⟨rfl, low⟩]
    exact loaded_extend h v
  constructor
  case loaded => exact fun low => filled (Nat.lt_succ_of_le low)
  case ignored => exact fun high => if_neg (Nat.not_lt.2 high)
  case others =>
    intro n hn
    rw [get, if_neg fun e => hn e.1.symm]
  case upper =>
    intro narrow
    by_cases low : a.register < 31
    · exact (filled low).upper narrow
    · -- there is no such register: it reads as zero
      rw [RegisterFile.get, if_neg low]
      rfl

/-- **A load fills its register**: with the bytes of the word, and with zeros or the sign above them as far as the register is
used.  The mask, the shifts and the cut that make up a load come to this word and to no other. -/
theorem fills_register (h : a.Proper) (v : BitVec 64) (f : RegisterFile) :
    a.Fills v f (a.finishLoad f v) ∧ ∀ x, a.Loaded v x ↔ Guarded.extend a v = .ok x :=
  ⟨fills_finishLoad h v f, fun _ => loaded_iff h⟩

/-- A load of two bytes, with their sign, into 32 bits of a register. -/
def halfword : Access := ⟨0, 2, false, 3, true, false⟩

/-- The halfword is negative. -/
theorem fills_register_halfword : halfword.Proper ∧ halfword.Loaded 0x48001 0xFFFF8001 ∧
    (halfword.finishLoad (.constant 7) 0x48001).get 4 = 7 ∧
    ((halfword.finishLoad (.constant 7) 0x48001).get 3).extractLsb' 32 32 = 0 := by
  have proper : halfword.Proper := by decide
  obtain ⟨fills, computed⟩ := fills_register proper 0x48001 (.constant 7)
  exact ⟨proper, (computed _).2 rfl, fills.others 4 (by decide), fills.upper rfl⟩

end Access

/-! ## Loads of a guest -/

theorem LoadStore.Moves.proper {i : LoadStore} {t : Transfer} (h : i.Moves t) (addr : BitVec 64) : (t.access addr).Proper := by
  have sizes : ∀ s : BitVec 2, 2 ^ s.toNat ∈ [1, 2, 4] ∨ 2 ^ s.toNat = 8 ∧ (s == 3) = true := by decide
  have short : ∀ s : BitVec 2, s < 3 → 2 ^ s.toNat ∈ [1, 2, 4] := by decide
  cases h with
  | store => exact (sizes i.scale).imp_right fun whole => ⟨whole.1, beq_iff_eq.2 whole.1⟩
  | load => exact sizes i.scale
  | signedWide _ narrow => exact .inl (short i.scale narrow)
  | signedNarrow _ narrow => exact .inl (short i.scale (BitVec.lt_trans narrow (by decide)))

/-- **No instruction moves eight bytes with half a register.**  A valid syndrome might say that one does. -/
theorem Transfer.proper_of_decode? {insn iss : BitVec 32} {t : Transfer} (invalid : iss.getLsbD 24 = false)
    (h : decode? insn iss = some t) (addr : BitVec 64) : (t.access addr).Proper := by
  obtain ⟨i, -, moves⟩ := (decode?_invalid_iff invalid).1 h
  exact moves.proper addr

/-- **Every load that a core serves fills its register**, and one that it refuses leaves the registers alone. -/
theorem Core.access_fills {c : Core} {a : Access} (h : a.Proper) (read : a.write = false) (f : RegisterFile) :
    match c.load? c.vm.addressMap a.addr a.width with
    | none => c.access a f = (false, f, c)
    | some v => ∃ f', c.access a f = (true, f', c) ∧ a.Fills v f f' := by
  rw [access_of_read read]
  cases c.load? c.vm.addressMap a.addr a.width with
  | none => rfl
  | some v => exact ⟨_, rfl, Access.fills_finishLoad h v f⟩

end VirtualGic
