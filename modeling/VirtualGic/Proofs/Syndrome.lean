import Mathlib.Algebra.Group.Nat.Defs
import VirtualGic.Guest.Syndrome
/-!
# What a trap describes

A load or store with an unsigned immediate offset is a word of fields (`LoadStore`), and `LoadStore.Moves` says what such an
instruction moves where its register is a general purpose one.  While the syndrome is not valid, these words are decoded, and
the bit that names the other register file makes no difference (`Transfer.decode?_eq_some_iff`).  A valid syndrome that
describes the same transfer is decoded to it whatever the instruction is, and the syndrome of a system register access gives
back the fields that it was put together from (`syndromes_agree`).
-/
namespace VirtualGic

/-! ## The instruction -/

structure LoadStore where
  scale : BitVec 2
  /-- The register is one of those for vectors and floating point numbers. -/
  vector : Bool
  opcode : BitVec 2
  offset : BitVec 12
  base : BitVec 5
  register : BitVec 5

namespace LoadStore

def toWord (i : LoadStore) : BitVec 32 :=
  i.scale ++ 0b111#3 ++ BitVec.ofBool i.vector ++ 0b01#2 ++ i.opcode ++ i.offset ++ i.base ++ i.register

def ofWord (w : BitVec 32) : LoadStore where
  scale := w.extractLsb' 30 2
  vector := w.getLsbD 26
  opcode := w.extractLsb' 22 2
  offset := w.extractLsb' 10 12
  base := w.extractLsb' 5 5
  register := w.extractLsb' 0 5

/-- The bytes that are moved. -/
def size (i : LoadStore) : Nat := 2 ^ i.scale.toNat

/-- The transfer of an instruction with a general purpose register.  Only loads that leave a part of the register to be filled
extend the sign. -/
inductive Moves (i : LoadStore) : Transfer → Prop
  | store : i.opcode = 0 → Moves i (.store i.register.toNat i.size)
  | load : i.opcode = 1 → Moves i (.load i.register.toNat i.size false (i.scale == 3))
  | signedWide : i.opcode = 2 → i.scale < 3 → Moves i (.load i.register.toNat i.size true true)
  | signedNarrow : i.opcode = 3 → i.scale < 2 → Moves i (.load i.register.toNat i.size true false)

theorem ofWord_toWord (i : LoadStore) : ofWord i.toWord = i := by
  cases i with | mk scale vector opcode offset base register
  simp only [ofWord, mk.injEq]
  refine ⟨?_, getLsbD_of_ofBool ?_, ?_, ?_, ?_, ?_⟩
  all_goals
    simp (disch := decide) only [toWord, BitVec.extractLsb'_append_eq_of_le,
      BitVec.extractLsb'_append_eq_of_add_le, BitVec.extractLsb'_eq_self, Nat.reduceSub]

theorem toWord_ofWord {w : BitVec 32} (major : w.extractLsb' 27 3 = 0b111#3) (minor : w.extractLsb' 24 2 = 0b01#2) :
    (ofWord w).toWord = w := by
  simp only [toWord, ofWord, ← major, ← minor, ofBool_getLsbD]
  simp (disch := decide) only [BitVec.extractLsb'_append_extractLsb'_eq_extractLsb']
  exact BitVec.extractLsb'_eq_self

theorem getLsbD_toWord (i : LoadStore) : i.toWord.getLsbD 26 = i.vector := congrArg vector i.ofWord_toWord

theorem toWord_masked (i : LoadStore) : i.toWord &&& 0x3B000000 = 0x39000000 := by
  have mask : (0x3B000000 : BitVec 32) = 0#2 ++ 0b111#3 ++ 0#1 ++ 0b11#2 ++ 0#2 ++ 0#12 ++ 0#5 ++ 0#5 := by decide
  rw [mask, toWord, BitVec.and_append]
  simp only [BitVec.and_append, BitVec.and_zero]
  decide

/-- The mask leaves the fixed bits of the form, all of them. -/
theorem masked_iff (w : BitVec 32) : w &&& 0x3B000000 = 0x39000000 ↔ ∃ i : LoadStore, w = i.toWord := by
  constructor
  · intro h
    have field (start len : Nat) : w.extractLsb' start len &&& (0x3B000000#32).extractLsb' start len =
        (0x39000000#32).extractLsb' start len := by
      rw [← BitVec.extractLsb'_and]
      exact congrArg _ h
    have major : w.extractLsb' 27 3 = 0b111#3 := BitVec.and_allOnes.symm.trans (field 27 3)
    have minor : w.extractLsb' 24 2 = 0b01#2 := BitVec.and_allOnes.symm.trans (field 24 2)
    exact ⟨ofWord w, (toWord_ofWord major minor).symm⟩
  · rintro ⟨i, rfl⟩
    exact i.toWord_masked

theorem ofInstruction?_toWord (i : LoadStore) (t : Transfer) :
    Transfer.ofInstruction? i.toWord = some t ↔ i.Moves t := by
  have scale : i.toWord.extractLsb' 30 2 = i.scale := congrArg LoadStore.scale i.ofWord_toWord
  have register : i.toWord.extractLsb' 0 5 = i.register := congrArg LoadStore.register i.ofWord_toWord
  have opcode : i.toWord.extractLsb' 22 2 = i.opcode := congrArg LoadStore.opcode i.ofWord_toWord
  have whole : (i.scale.toNat == 3) = (i.scale == 3) :=
    (by decide : ∀ s : BitVec 2, (s.toNat == 3) = (s == 3)) i.scale
  unfold Transfer.ofInstruction?
  rw [i.toWord_masked, bne_self_eq_false, if_neg Bool.false_ne_true]
  simp only [scale, register, opcode, whole, Nat.one_shiftLeft]
  constructor
  · intro h
    split at h
    next e => cases h; exact .store (BitVec.eq_of_toNat_eq e)
    next e => cases h; exact .load (BitVec.eq_of_toNat_eq e)
    next e =>
      split at h
      next narrow => cases h; exact .signedWide (BitVec.eq_of_toNat_eq e) narrow
      next => cases h
    next h0 h1 h2 =>
      have e : i.opcode = 3 :=
        (by decide : ∀ o : BitVec 2, o.toNat ≠ 0 → o.toNat ≠ 1 → o.toNat ≠ 2 → o = 3) _ h0 h1 h2
      split at h
      next narrow => cases h; exact .signedNarrow e narrow
      next => cases h
  · intro h
    cases h with
    | store e => rw [e]; rfl
    | load e => rw [e]; rfl
    | signedWide e narrow => rw [e]; exact if_pos narrow
    | signedNarrow e narrow => rw [e]; exact if_pos narrow

theorem exists_of_ofInstruction? {w : BitVec 32} {t : Transfer} (h : Transfer.ofInstruction? w = some t) :
    ∃ i : LoadStore, w = i.toWord := by
  unfold Transfer.ofInstruction? at h
  split at h
  next => cases h
  next masked =>
    rw [bne_iff_ne, Decidable.not_not] at masked
    exact (masked_iff w).1 masked

theorem Moves.bounds {i : LoadStore} {t : Transfer} (h : i.Moves t) : t.register < 32 ∧ ∃ k < 4, t.size = 2 ^ k := by
  have bounds : i.register.toNat < 32 ∧ ∃ k < 4, i.size = 2 ^ k := ⟨i.register.isLt, _, i.scale.isLt, rfl⟩
  cases h <;> exact bounds

end LoadStore

namespace Transfer

variable {insn iss : BitVec 32} {t : Transfer}

/-- Where the syndrome is not valid, the instruction is decoded. -/
theorem decode?_invalid_iff (invalid : iss.getLsbD 24 = false) :
    decode? insn iss = some t ↔ ∃ i : LoadStore, insn = i.toWord ∧ i.Moves t := by
  unfold decode?
  rw [invalid, if_neg Bool.false_ne_true]
  constructor
  · intro h
    obtain ⟨i, rfl⟩ := LoadStore.exists_of_ofInstruction? h
    exact ⟨i, rfl, (i.ofInstruction?_toWord t).1 h⟩
  · rintro ⟨i, rfl, h⟩
    exact (i.ofInstruction?_toWord t).2 h

/-- **Where the syndrome is not valid, loads and stores with an unsigned immediate offset are decoded**, as far as there is
such an operation of a general purpose register, and nothing else.  Whether the instruction names a general purpose register is
not looked at; of those that do, exactly the loads and stores are decoded. -/
theorem decode?_eq_some_iff (invalid : iss.getLsbD 24 = false) (t : Transfer) :
    (decode? insn iss = some t ↔ ∃ i : LoadStore, insn = i.toWord ∧ i.Moves t) ∧
    (insn.getLsbD 26 = false →
      (decode? insn iss = some t ↔ ∃ i : LoadStore, i.vector = false ∧ insn = i.toWord ∧ i.Moves t)) := by
  have decoded : decode? insn iss = some t ↔ _ := decode?_invalid_iff invalid
  refine ⟨decoded, fun general => decoded.trans ⟨?_, ?_⟩⟩
  · rintro ⟨i, rfl, h⟩
    exact ⟨i, i.getLsbD_toWord.symm.trans general, rfl, h⟩
  · rintro ⟨i, -, h⟩
    exact ⟨i, h⟩

/-- A load of two bytes into a register of 32 bits that extends the sign. -/
theorem decode?_eq_some_iff_halfword : (0x02C60040#32).getLsbD 24 = false ∧ (0x79C00023#32).getLsbD 26 = false ∧
    decode? 0x79C00023 0x02C60040 = some (.load 3 2 true false) :=
  ⟨by decide, by decide, ((decode?_eq_some_iff (by decide) _).2 (by decide)).2
    ⟨⟨1, false, 3, 0, 1, 3⟩, rfl, by decide, .signedNarrow rfl (by decide)⟩⟩

/-- **Not only instructions with a general purpose register are decoded**: the load of a byte of a vector register is taken
for that of a general purpose register. -/
theorem not_general : ¬ ∀ (insn iss : BitVec 32) (t : Transfer), iss.getLsbD 24 = false →
    (decode? insn iss = some t ↔ ∃ i : LoadStore, i.vector = false ∧ insn = i.toWord ∧ i.Moves t) := by
  intro h
  have taken : decode? 0x3D400000 0 = some (.load 0 1 false false) := by decide
  obtain ⟨i, general, word, -⟩ := (h 0x3D400000 0 _ (by decide)).1 taken
  have := congrArg (·.getLsbD 26) word
  rw [i.getLsbD_toWord, general] at this
  exact absurd this (by decide)

/-! ## The syndrome -/

/-- A valid syndrome says what a transfer moves.  About a store it need not say anything on the sign or the width of the
register. -/
structure DescribedBy (t : Transfer) (iss : BitVec 32) : Prop where
  valid : iss.getLsbD 24 = true
  size : (iss.extractLsb' 22 2).toNat = Nat.log2 t.size
  register : (iss.extractLsb' 16 5).toNat = t.register
  store : iss.getLsbD 6 = t.isStore
  signed : t.isStore = false → iss.getLsbD 21 = t.signed
  wide : t.isStore = false → iss.getLsbD 15 = t.wide

/-- A syndrome of a transfer, with nothing set that it need not say. -/
def toSyndrome (t : Transfer) : BitVec 32 :=
  0#7 ++ 1#1 ++ BitVec.ofNat 2 (Nat.log2 t.size) ++ BitVec.ofBool t.signed ++ BitVec.ofNat 5 t.register ++
    BitVec.ofBool t.wide ++ 0#8 ++ BitVec.ofBool t.isStore ++ 0#6

theorem ofSyndrome_of_describedBy {k : Nat} (size : t.size = 2 ^ k) (h : t.DescribedBy iss) : ofSyndrome iss = t := by
  have bytes : 1 <<< (iss.extractLsb' 22 2).toNat = t.size := by
    rw [h.size, size, Nat.log2_two_pow, Nat.one_shiftLeft]
  unfold ofSyndrome
  simp only [h.register, h.store, bytes]
  cases t with
  | load => rw [h.signed rfl, h.wide rfl]; rfl
  | store => rfl

theorem decode?_of_describedBy {k : Nat} (size : t.size = 2 ^ k) (h : t.DescribedBy iss) (insn : BitVec 32) :
    decode? insn iss = some t := by
  unfold decode?
  rw [h.valid, if_pos rfl, ofSyndrome_of_describedBy size h]

theorem describedBy_toSyndrome (bound : t.register < 32) {k : Nat} (lt : k < 4) (size : t.size = 2 ^ k) :
    t.DescribedBy t.toSyndrome := by
  refine ⟨getLsbD_of_ofBool ?_, ?_, ?_, getLsbD_of_ofBool ?_, fun _ => getLsbD_of_ofBool ?_, fun _ => getLsbD_of_ofBool ?_⟩
  all_goals
    simp (disch := decide) only [toSyndrome, BitVec.extractLsb'_append_eq_of_le,
      BitVec.extractLsb'_append_eq_of_add_le, BitVec.extractLsb'_eq_self, Nat.reduceSub]
  · rfl
  · rw [size, Nat.log2_two_pow, BitVec.toNat_ofNat, Nat.mod_eq_of_lt lt]
  · rw [BitVec.toNat_ofNat, Nat.mod_eq_of_lt bound]

end Transfer

/-- What the syndrome of a system register access is put together from. -/
structure SystemSyndrome where
  /-- The bits above say nothing about the access. -/
  unused : BitVec 10
  op0 : BitVec 2
  op2 : BitVec 3
  op1 : BitVec 3
  crn : BitVec 4
  register : BitVec 5
  crm : BitVec 4
  read : Bool

namespace SystemSyndrome

def toWord (s : SystemSyndrome) : BitVec 32 :=
  s.unused ++ s.op0 ++ s.op2 ++ s.op1 ++ s.crn ++ s.register ++ s.crm ++ BitVec.ofBool s.read

def access (s : SystemSyndrome) : SystemAccess where
  target := ⟨s.op0.toNat, s.op1.toNat, s.crn.toNat, s.crm.toNat, s.op2.toNat⟩
  register := s.register.toNat
  read := s.read

theorem decode_toWord (s : SystemSyndrome) : SystemAccess.decode s.toWord = s.access := by
  have read : s.toWord.getLsbD 0 = s.read := getLsbD_of_ofBool (BitVec.extractLsb'_append_eq_right)
  unfold SystemAccess.decode
  rw [read]
  simp (disch := decide) only [access, toWord, BitVec.extractLsb'_append_eq_of_le,
    BitVec.extractLsb'_append_eq_of_add_le, BitVec.extractLsb'_eq_self, Nat.reduceSub]

/-- The syndrome names a register by the numbers of its encoding. -/
theorem target_eq_iff (s : SystemSyndrome) (op0 : BitVec 2) (op1 : BitVec 3) (crn crm : BitVec 4) (op2 : BitVec 3) :
    s.access.target = ⟨op0.toNat, op1.toNat, crn.toNat, crm.toNat, op2.toNat⟩ ↔
      s.op0 = op0 ∧ s.op1 = op1 ∧ s.crn = crn ∧ s.crm = crm ∧ s.op2 = op2 := by
  simp only [access, SystemRegister.mk.injEq, BitVec.toNat_inj]

end SystemSyndrome

/-- **Both descriptions of a load or store agree, and none of a system register access is lost.**  A transfer that was
decoded from an instruction has a syndrome, and each of its syndromes is decoded to it. -/
theorem syndromes_agree :
    (∀ (insn invalid : BitVec 32) (t : Transfer), invalid.getLsbD 24 = false → Transfer.decode? insn invalid = some t →
      (∃ iss, t.DescribedBy iss) ∧ ∀ iss, t.DescribedBy iss → ∀ other addr, Transfer.decode? other iss = some t ∧
        (Transfer.decode? other iss).map (·.access addr) = (Transfer.decode? insn invalid).map (·.access addr)) ∧
    ∀ s : SystemSyndrome, SystemAccess.decode s.toWord = s.access ∧
      (s.access.target = .softwareInterrupt ↔ s.op0 = 3 ∧ s.op1 = 0 ∧ s.crn = 12 ∧ s.crm = 11 ∧ s.op2 = 5) ∧
      (s.access.target = .enable ↔ s.op0 = 3 ∧ s.op1 = 0 ∧ s.crn = 12 ∧ s.crm = 12 ∧ s.op2 = 5) := by
  refine ⟨fun insn invalid t hi decoded => ?_, fun s => ⟨s.decode_toWord, s.target_eq_iff 3 0 12 11 5,
    s.target_eq_iff 3 0 12 12 5⟩⟩
  obtain ⟨i, -, moves⟩ := (Transfer.decode?_invalid_iff hi).1 decoded
  obtain ⟨bound, k, lt, size⟩ := moves.bounds
  refine ⟨⟨_, Transfer.describedBy_toSyndrome bound lt size⟩, fun iss described other addr => ?_⟩
  have same := Transfer.decode?_of_describedBy size described other
  exact ⟨same, by rw [same, decoded]⟩

/-- Two bytes go into a register of 32 bits with their sign, and the bits of both syndromes that say nothing are set. -/
theorem syndromes_agree_halfword : (0x02C60040#32).getLsbD 24 = false ∧
    Transfer.decode? 0x79C00023 0x02C60040 = some (.load 3 2 true false) ∧
    Transfer.decode? 0xFFFFFFFF 0xFF637FBF = some (.load 3 2 true false) ∧
    (SystemAccess.decode (⟨0x3FF, 3, 5, 0, 12, 31, 11, true⟩ : SystemSyndrome).toWord).target = .softwareInterrupt := by
  have decoded : Transfer.decode? 0x79C00023 0x02C60040 = some (.load 3 2 true false) := by decide
  refine ⟨by decide, decoded, ?_, ?_⟩
  · exact ((syndromes_agree.1 _ _ _ (by decide) decoded).2 _
      ⟨by decide, by decide, by decide, by decide, by decide, by decide⟩ _ 0).1
  · obtain ⟨fields, software, -⟩ := syndromes_agree.2 ⟨0x3FF, 3, 5, 0, 12, 31, 11, true⟩
    rw [fields]
    exact software.2 ⟨rfl, rfl, rfl, rfl, rfl⟩

end VirtualGic
