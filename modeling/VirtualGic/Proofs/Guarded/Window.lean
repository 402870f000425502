import VirtualGic.Proofs.Guarded.Requests
import VirtualGic.Proofs.Relay
import VirtualGic.Proofs.Width
/-!
# Guarded windows

Guest accesses with every operation guarded.  Offsets lie within the block that covers them, blocks without fields are never
divided into fields, and the fields of an access lie within its width.
-/
namespace VirtualGic

namespace Guarded

open VirtualGic.Core (Equipped Strokes)

variable {c : Core} {vm : Vm} {b : RegisterBlock} {addr v : BitVec 64} {offset width bits : Nat} {frame? : Option Nat}
  {ls : List Line}

/-! ## Finding the window and the block -/

def size : Window → Guarded Nat
  | .distributor _ => return distributorSize
  | .redistributors _ count => mul 64 redistributorStride count

def contains (w : Window) (addr : BitVec 64) : Guarded Bool :=
  andThen (decide (w.base.toNat ≤ addr.toNat)) do return decide (addr.toNat < (← add 64 w.base.toNat (← size w)))

theorem size_eq {w : Window} (h : w.size < 2 ^ 64) : size w = .ok w.size := by
  cases w with
  | distributor => rfl
  | redistributors base count => exact mul_eq h

theorem contains_eq {w : Window} (h : w.Bounded) (addr : BitVec 64) : contains w addr = .ok (w.contains addr) := by
  have inside : w.contains addr = (decide (w.base.toNat ≤ addr.toNat) && decide (addr.toNat < w.base.toNat + w.size)) := by
    rw [Bool.eq_iff_iff, Window.contains_iff h, Bool.and_eq_true, decide_eq_true_eq, decide_eq_true_eq]
  rw [inside]
  exact andThen_eq fun _ => bind_eq (size_eq (Nat.lt_of_le_of_lt (Nat.le_add_left ..) h)) (bind_eq (add_eq h) rfl)

/-- **The end of a window has to be an address**: otherwise every access from its base on stops. -/
theorem contains_of_wraps {w : Window} (h : 2 ^ 64 ≤ w.base.toNat + w.size) (above : w.base.toNat ≤ addr.toNat) :
    contains w addr = .error .overflow := by
  unfold contains andThen
  rw [decide_eq_true above, if_pos rfl]
  by_cases hs : w.size < 2 ^ 64
  · rw [size_eq hs, ok_bind, add, if_neg (Nat.not_lt.2 h)]
    rfl
  · cases w with
    | distributor => exact absurd (by decide : distributorSize < 2 ^ 64) hs
    | redistributors base count =>
      have wraps : mul 64 redistributorStride count = .error .overflow := if_neg hs
      rw [size, wraps]
      rfl

/-- The block at an offset: the first eight are found by their number. -/
def blockAt? (offset : Nat) : Guarded (Option RegisterBlock) :=
  if offset < 0x400 then return registerLayout[offset >>> 7]?
  else
    (registerLayout.drop 8).findM? fun b =>
      andThen (decide (b.base ≤ offset)) do return decide (offset < (← add 64 b.base b.size))

theorem blockAt?_eq (offset : Nat) : blockAt? offset = .ok (VirtualGic.blockAt? offset) := by
  unfold blockAt?
  split
  next low =>
    have tile : ∀ k < 8, ∃ b, registerLayout[k]? = some b ∧ b.base = k * 0x80 ∧ b.size = 0x80 := by decide
    have number : offset >>> 7 = offset / 0x80 := Nat.shiftRight_eq_div_pow ..
    obtain ⟨b, hb, base, size⟩ := tile (offset / 0x80) (by omega)
    rw [number, hb, VirtualGic.blockAt?_of_covers (List.mem_of_getElem? hb) (RegisterBlock.covers_iff.2 (by omega))]
    rfl
  next high =>
    have split : registerLayout = registerLayout.take 8 ++ registerLayout.drop 8 := (List.take_append_drop 8 _).symm
    have below : ∀ b ∈ registerLayout.take 8, b.base + b.size ≤ 0x400 := by decide
    have small : ∀ b ∈ registerLayout.drop 8, b.base + b.size < 2 ^ 64 := by decide
    have none : (registerLayout.take 8).find? (·.covers offset) = none := List.find?_eq_none.2 fun b hb covers => by
      have := below b hb
      have := RegisterBlock.covers_iff.1 covers
      omega
    rw [VirtualGic.blockAt?, split, List.find?_append, none, Option.none_or]
    exact findM?_eq _ fun b hb => andThen_eq fun _ => bind_eq (add_eq (small b hb)) rfl

def allows (b : RegisterBlock) (addr : BitVec 64) (width : Nat) : Guarded Bool :=
  andThen ([1, 2, 4, 8].contains width && (b.widths &&& width) != 0) do return (← mod addr.toNat width) == 0

theorem allows_eq (b : RegisterBlock) (addr : BitVec 64) (width : Nat) : allows b addr width = .ok (b.allows addr width) := by
  refine andThen_eq fun h => bind_eq (mod_eq ?_) rfl
  rintro rfl
  simp at h

/-! ## Fields -/

/-- Every block that holds fields has a width to divide by, and its numbers fit. -/
theorem layout_spec : ∀ b ∈ registerLayout, b.base + b.size ≤ 0x10000 ∧ b.fieldBits ≤ 64 ∧
    (b.group ∉ [.misc, .softwareInterrupt, .identification] → b.fieldBits ≠ 0) := by decide

/-- The interrupts numbered from `first + i` on. -/
def linesFrom (vm : Vm) (vcpu first : Nat) : Nat → Nat → Guarded (List Line)
  | _, 0 => return []
  | i, count + 1 => do
    match vm.find? vcpu (← add 32 first i) with
    | none => return []
    | some l => return l :: (← linesFrom vm vcpu first (i + 1) count)

theorem linesFrom_eq (vm : Vm) (vcpu first : Nat) : ∀ count i : Nat, first + i + count < 2 ^ 32 →
    linesFrom vm vcpu first i count = .ok (vm.linesFrom vcpu (first + i) count)
  | 0, _, _ => rfl
  | count + 1, i, fits => by
    unfold linesFrom Vm.linesFrom
    rw [add_eq (by omega), ok_bind]
    cases vm.find? vcpu (first + i) with
    | none => rfl
    | some l => exact bind_eq (linesFrom_eq vm vcpu first count (i + 1) (by omega)) rfl

def coveredLines? (vm : Vm) (vcpu : Nat) (b : RegisterBlock) (offset width : Nat) (frame? : Option Nat) :
    Guarded (Option (List Line)) := do
  let first := (← div (← mul 64 (← sub offset b.base) 8) b.fieldBits) % 0x100000000
  if vm.version == .v3 && frame?.isSome != isPrivateId first then return some []
  else if vm.interruptCount ≤ first then return none
  else return some (← linesFrom vm (frame?.getD vcpu) first 0 (← div (← mul 64 width 8) b.fieldBits))

theorem coveredLines?_eq (checked : vm.partition.Checked) (vcpu : Nat) (hb : b ∈ registerLayout) (covers : b.covers offset = true)
    (fields : b.fieldBits ≠ 0) (hw : width ∈ [1, 2, 4, 8]) (frame? : Option Nat) :
    coveredLines? vm vcpu b offset width frame? = .ok (vm.coveredLines? vcpu b offset width frame?) := by
  obtain ⟨inside, -⟩ := layout_spec b hb
  have at' := RegisterBlock.covers_iff.1 covers
  have wide : width ≤ 8 := (by decide : ∀ w ∈ [1, 2, 4, 8], w ≤ 8) width hw
  unfold coveredLines? Vm.coveredLines?
  refine bind_eq (sub_eq at'.1) (bind_eq (mul_eq (by omega)) (bind_eq (div_eq fields) ?_))
  refine ite_ok (fun _ => rfl) fun _ => ite_ok (fun _ => rfl) fun implemented => ?_
  have count : vm.interruptCount ≤ 1020 := checked.count_le
  have few := Nat.div_le_self (width * 8) b.fieldBits
  exact bind_eq (mul_eq (by omega)) (bind_eq (div_eq fields) (bind_eq (linesFrom_eq _ _ _ _ 0 (by omega)) rfl))

/-- **A block without fields must not be divided into fields.** -/
theorem coveredLines?_of_fieldless (vcpu : Nat) (inside : b.base ≤ offset) (fits : (offset - b.base) * 8 < 2 ^ 64)
    (fieldless : b.fieldBits = 0) : coveredLines? vm vcpu b offset width frame? = .error .division := by
  have stops (a : Nat) : div a b.fieldBits = .error .division := if_pos fieldless
  unfold coveredLines?
  rw [sub_eq inside, ok_bind, mul_eq fits, ok_bind, stops]
  rfl

/-- The word whose low bits are set, as many as a field has. -/
def fieldMask (bits : Nat) : Guarded (BitVec 64) := if bits = 64 then return BitVec.allOnes 64 else lowMask bits

theorem fieldMask_eq (h : bits ≤ 64) : fieldMask bits = .ok (CpuSet.below bits) := by
  unfold fieldMask
  split
  next whole => rw [whole]; rfl
  next => exact lowMask_eq (by omega)

/-- Read the fields of several interrupts, the first of them being number `i` of its access. -/
def readFrom (c : Core) (g : RegisterGroup) (bits : Nat) (mask : BitVec 64) :
    Nat → BitVec 64 → List Line → Guarded (BitVec 64)
  | _, out, [] => return out
  | i, out, l :: ls => do
    let shift ← mul 64 i bits
    let field ← readField c g l
    readFrom c g bits mask (i + 1) (out ||| (← shiftLeft (field &&& mask) shift)) ls

def readFields (c : Core) (g : RegisterGroup) (bits : Nat) (ls : List Line) : Guarded (BitVec 64) := do
  readFrom c g bits (← fieldMask bits) 0 0 ls

/-- A field that lies within a word begins below its width. -/
theorem shift_lt {i k : Nat} (h : bits * (i + (k + 1)) ≤ 64) : i * bits < 64 := by
  have : bits * (i + 1) ≤ 64 := Nat.le_trans (Nat.mul_le_mul_left bits (by omega)) h
  rw [Nat.mul_succ, Nat.mul_comm] at this
  cases bits with
  | zero => exact Nat.zero_lt_succ 63
  | succ bits => omega

theorem readFrom_eq (h : c.Equipped) (g : RegisterGroup) (hbits : bits ≤ 64) : ∀ (ls : List Line) (i : Nat) (out : BitVec 64),
    (∀ l ∈ ls, c.vm.Has l) → bits * (i + ls.length) ≤ 64 →
    readFrom c g bits (CpuSet.below bits) i out ls = .ok (out ||| (c.readFields g bits ls <<< (i * bits)))
  | [], i, out, _, _ => by
    show Except.ok out = Except.ok (out ||| 0#64 <<< (i * bits))
    rw [BitVec.zero_shiftLeft, BitVec.or_zero]
  | l :: ls, i, out, has, fits => by
    rw [List.length_cons] at fits
    have lt := shift_lt fits
    unfold readFrom
    refine bind_eq (mul_eq (by omega)) (bind_eq (readField_eq h (has l List.mem_cons_self) g) ?_)
    rw [and_below _ hbits]
    refine bind_eq (shiftLeft_eq _ lt) ?_
    rw [readFrom_eq h g hbits ls (i + 1) _ (fun k hk => has k (List.mem_cons_of_mem l hk))
      (by rw [Nat.add_right_comm, Nat.add_assoc]; exact fits), Core.readFields, BitVec.shiftLeft_or_distrib, BitVec.or_assoc,
      ← BitVec.shiftLeft_add, Nat.succ_mul, Nat.add_comm bits]

theorem readFields_eq (h : c.Equipped) (g : RegisterGroup) (hbits : bits ≤ 64) (has : ∀ l ∈ ls, c.vm.Has l)
    (fits : bits * ls.length ≤ 64) : readFields c g bits ls = .ok (c.readFields g bits ls) := by
  refine bind_eq (fieldMask_eq hbits) ?_
  rw [readFrom_eq h g hbits ls 0 0 has (by rw [Nat.zero_add]; exact fits), Nat.zero_mul, BitVec.shiftLeft_zero]
  exact congrArg Except.ok BitVec.zero_or

/-- Write the fields of several interrupts, the first of them being number `i` of its access. -/
def writeFrom (g : RegisterGroup) (bits : Nat) (mask v : BitVec 64) : Nat → List Line → Core → Guarded Core
  | _, [], c => return c
  | i, l :: ls, c => do
    let shift ← mul 64 i bits
    let field := (← shiftRight v shift) &&& mask
    let c ← (if field == 0 && g.ignoresZero then pure c else writeField c g l field : Guarded Core)
    writeFrom g bits mask v (i + 1) ls c

def writeFields (g : RegisterGroup) (bits : Nat) (ls : List Line) (v : BitVec 64) (c : Core) : Guarded Core := do
  writeFrom g bits (← fieldMask bits) v 0 ls c

theorem writeFrom_eq (g : RegisterGroup) (hbits : bits ≤ 64) (v : BitVec 64) : ∀ (ls : List Line) (i : Nat) (c : Core),
    c.Equipped → (∀ l ∈ ls, c.vm.Has l) → bits * (i + ls.length) ≤ 64 →
    writeFrom g bits (CpuSet.below bits) v i ls c = .ok (Core.writeFields g bits ls (v >>> (i * bits)) c)
  | [], i, c, _, _, _ => rfl
  | l :: ls, i, c, h, has, fits => by
    rw [List.length_cons] at fits
    have lt := shift_lt fits
    have first : Strokes c (if (lowBits bits (v >>> (i * bits)) == 0 && g.ignoresZero) = true then c
        else c.writeField g l (lowBits bits (v >>> (i * bits)))) :=
      Core.strokes_ite (fun _ => .refl) fun _ => Core.strokes_writeField h.toStationed (has l List.mem_cons_self) g _
    unfold writeFrom Core.writeFields
    refine bind_eq (mul_eq (by omega)) (bind_eq (shiftRight_eq v lt) ?_)
    rw [and_below _ hbits]
    refine bind_eq (ite_ok (fun _ => rfl) fun _ => writeField_eq h (has l List.mem_cons_self) g _) ?_
    rw [writeFrom_eq g hbits v ls (i + 1) _ (first.equipped h) (fun k hk => first.has (has k (List.mem_cons_of_mem l hk)))
      (by rw [Nat.add_right_comm, Nat.add_assoc]; exact fits), Nat.succ_mul, BitVec.shiftRight_add]

theorem writeFields_eq (h : c.Equipped) (g : RegisterGroup) (hbits : bits ≤ 64) (has : ∀ l ∈ ls, c.vm.Has l)
    (fits : bits * ls.length ≤ 64) (v : BitVec 64) : writeFields g bits ls v c = .ok (Core.writeFields g bits ls v c) := by
  refine bind_eq (fieldMask_eq hbits) ?_
  rw [writeFrom_eq g hbits v ls 0 c h has (by rw [Nat.zero_add]; exact fits), Nat.zero_mul, BitVec.ushiftRight_zero]

/-! ## The distributor -/

namespace Distributor

open VirtualGic.Distributor (Place)

def routePlace? (vm : Vm) (offset width : Nat) : Guarded (Option Place) := do
  let id ← div (← sub offset 0x6000) 8
  if vm.interruptCount ≤ id then return none
  else if isPrivateId id then return some .zero
  else return some (.route id (if width == 8 then none else some (offset % 8 ≥ 4)))

def fieldsPlace? (c : Core) (b : RegisterBlock) (offset width : Nat) : Guarded (Option Place) := do
  return (← coveredLines? c.vm c.vcpu b offset width none).map (.fields b.group b.fieldBits ·)

/-- What an access within a block reaches. -/
def blockPlace? (c : Core) (b : RegisterBlock) (offset width : Nat) : Guarded (Option Place) :=
  match b.group, c.vm.version with
  | .misc, _ => return some (VirtualGic.Distributor.miscPlace offset)
  | .identification, _ => return some (.identification offset)
  | .softwareInterrupt, .v2 => return some .softwareInterrupt
  | .route, .v3 => routePlace? c.vm offset width
  | .targets, .v2 | .clearRequesters, .v2 | .setRequesters, .v2 => fieldsPlace? c b offset width
  | .softwareInterrupt, .v3 | .route, .v2 | .targets, .v3 | .clearRequesters, .v3
  | .setRequesters, .v3 | .groupModifier, _ | .nonSecureAccess, _ => return some .zero
  | _, _ => fieldsPlace? c b offset width

def place? (c : Core) (addr : BitVec 64) (width : Nat) : Guarded (Option Place) :=
  let offset := (addr - c.vm.partition.distributor).toNat
  if distributorSize ≤ offset then return none
  else if c.vm.version == .v2 && decide (0xFD0 ≤ offset) && decide (offset < 0x1000) then do
    let word ← andThen (width == 4) do return (← mod offset 4) == 0
    return if word then some (.identification offset) else none
  else do
    match ← blockAt? offset with
    | none => return none
    | some b =>
      let allowed ← allows b addr width
      if allowed then blockPlace? c b offset width else return none

theorem fieldsPlace?_eq (h : c.Equipped) (hb : b ∈ registerLayout) (covers : b.covers offset = true)
    (fields : b.fieldBits ≠ 0) (hw : width ∈ [1, 2, 4, 8]) :
    fieldsPlace? c b offset width = .ok (VirtualGic.Distributor.fieldsPlace? c b offset width none) :=
  bind_eq (coveredLines?_eq h.checked c.vcpu hb covers fields hw none) rfl

theorem blockPlace?_eq (h : c.Equipped) (hb : b ∈ registerLayout) (covers : b.covers offset = true)
    (hw : width ∈ [1, 2, 4, 8]) :
    blockPlace? c b offset width = .ok (VirtualGic.Distributor.blockPlace? c b offset width) := by
  obtain ⟨-, -, fields⟩ := layout_spec b hb
  have routes : b.group = .route → b.base = 0x6000 :=
    (by decide : ∀ b ∈ registerLayout, b.group = .route → b.base = 0x6000) b hb
  have at' := RegisterBlock.covers_iff.1 covers
  unfold blockPlace? VirtualGic.Distributor.blockPlace?
  have place (hf : b.group ∉ [.misc, .softwareInterrupt, .identification]) := fieldsPlace?_eq h hb covers (fields hf) hw
  cases hg : b.group <;> cases hv : c.vm.version <;> rw [hg] at place routes <;> simp only [pure_eq]
  case route.v3 =>
    have := routes rfl
    refine bind_eq (sub_eq (by omega)) (bind_eq (div_eq (by decide)) ?_)
    exact ite_ok (fun _ => rfl) fun _ => ite_ok (fun _ => rfl) fun _ => rfl
  all_goals exact place (by decide)

theorem place?_eq (h : c.Equipped) (hw : width ∈ [1, 2, 4, 8]) :
    place? c addr width = .ok (VirtualGic.Distributor.place? c addr width) := by
  unfold place? VirtualGic.Distributor.place?
  refine ite_ok (fun _ => rfl) fun _ => ite_ok (fun _ => ?_) fun _ => ?_
  · exact bind_eq (andThen_eq fun _ => bind_eq (mod_eq (by decide)) rfl) rfl
  · refine bind_eq (blockAt?_eq _) ?_
    cases hb : VirtualGic.blockAt? (addr - c.vm.partition.distributor).toNat with
    | none => rfl
    | some b =>
      obtain ⟨mem, covers⟩ := blockAt?_eq_some_iff.1 hb
      exact bind_eq (allows_eq b addr width) (ite_ok (fun _ => blockPlace?_eq h mem covers hw) fun _ => rfl)

/-- The vCPUs that a software interrupt request names. -/
def softwareTargets (vm : Vm) (me : Nat) (v : BitVec 64) : Guarded CpuSet := do
  let self : CpuSet ← bit me
  let all ← vcpuSet vm
  let filter := (v >>> 24).setWidth 2
  return (if filter == 0 then lowBits 8 (v >>> 16)
    else if filter == 1 then all &&& ~~~self
    else if filter == 2 then self
    else 0) &&& all

theorem softwareTargets_eq (checked : vm.partition.Checked) {me : Nat} (hme : me < vm.vcpuCount) (v : BitVec 64) :
    softwareTargets vm me v = .ok (VirtualGic.Distributor.softwareTargets vm me v) :=
  bind_eq (bit_eq (vcpu_lt checked hme)) (bind_eq (vcpuSet_eq checked) rfl)

def load (c : Core) : Place → Guarded (BitVec 64)
  | .fields g bits ls => readFields c g bits ls
  | p => return VirtualGic.Distributor.load c p

def store (c : Core) (v : BitVec 64) : Place → Guarded Core
  | .softwareInterrupt => do send c (v.setWidth 4).toNat (← softwareTargets c.vm c.vcpu v)
  | .route id part =>
    writeField c .route (.shared id) (VirtualGic.Distributor.mergeRoute (c.interrupt (.shared id)).route v part)
  | .fields g bits ls => writeFields g bits ls v c
  | p => return VirtualGic.Distributor.store c v p

end Distributor

theorem width_le (hw : width ∈ [1, 2, 4, 8]) : 8 * width ≤ 64 := (by decide : ∀ w ∈ [1, 2, 4, 8], 8 * w ≤ 64) width hw

namespace Distributor

open VirtualGic.Distributor (Place)

variable {p : Place}

theorem load_eq (h : c.Equipped) (hw : width ∈ [1, 2, 4, 8]) (hp : VirtualGic.Distributor.place? c addr width = some p) :
    load c p = .ok (VirtualGic.Distributor.load c p) := by
  have reach := VirtualGic.Distributor.reaches_place? hp
  have fits := Nat.le_trans (VirtualGic.Distributor.bits_le hp) (width_le hw)
  cases p with
  | fields g bits ls => exact readFields_eq h g (Nat.le_trans (Core.bits_le_of_reaches reach) (by decide)) reach.has fits
  | _ => rfl

theorem store_eq (h : c.Equipped) (hw : width ∈ [1, 2, 4, 8]) (hp : VirtualGic.Distributor.place? c addr width = some p)
    (v : BitVec 64) : store c v p = .ok (VirtualGic.Distributor.store c v p) := by
  have reach := VirtualGic.Distributor.reaches_place? hp
  have fits := Nat.le_trans (VirtualGic.Distributor.bits_le hp) (width_le hw)
  cases p with
  | softwareInterrupt => exact bind_eq (softwareTargets_eq h.checked h.vcpu_lt v) (send_eq h (v.setWidth 4).isLt _)
  | route id part => exact writeField_eq h reach _ _
  | fields g bits ls => exact writeFields_eq h g (Nat.le_trans (Core.bits_le_of_reaches reach) (by decide)) reach.has fits v
  | _ => rfl

end Distributor

/-! ## The redistributors -/

namespace Redistributor

open VirtualGic.Redistributor (Place frameSize)

/-- The type register. -/
def typeWord (vcpu vcpus : Nat) : Guarded (BitVec 64) := do
  let last := (← add 64 vcpu 1) == vcpus
  return (BitVec.ofNat 64 vcpu <<< 32) ||| (BitVec.ofNat 64 vcpu <<< 8) ||| (if last then 0x10 else 0)

theorem typeWord_eq {vcpu : Nat} (h : vcpu < 64) (vcpus : Nat) :
    typeWord vcpu vcpus = .ok (VirtualGic.Redistributor.typeWord vcpu vcpus) := bind_eq (add_eq (by omega)) rfl

def controlPlace? (vcpu offset width : Nat) : Guarded (Option Place) := do
  let whole := offset == 8 && width == 8
  let allowed ← andThen (width == 4 || whole) do return (← mod offset width) == 0
  return if allowed then
    if 0xFFD0 ≤ offset then some (.identification offset)
    else
      match offset with
      | 4 => some .implementer
      | 8 => some (.type vcpu (if whole then none else some false))
      | 0xC => some (.type vcpu (some true))
      | 0x14 => some (.wake vcpu)
      | _ => some .zero
  else none

theorem controlPlace?_eq (vcpu offset : Nat) (hw : width ∈ [1, 2, 4, 8]) :
    controlPlace? vcpu offset width = .ok (VirtualGic.Redistributor.controlPlace? vcpu offset width) := by
  refine bind_eq (andThen_eq fun _ => bind_eq (mod_eq ?_) rfl) rfl
  rintro rfl
  exact absurd hw (by decide)

def bankPlace? (c : Core) (vcpu : Nat) (addr : BitVec 64) (offset width : Nat) : Guarded (Option Place) := do
  match ← blockAt? offset with
  | none => return some .zero
  | some b =>
    let allowed ← allows b addr width
    if allowed then
      if VirtualGic.Redistributor.serves b.group then
        return (← coveredLines? c.vm c.vcpu b offset width (some vcpu)).map (.fields b.group b.fieldBits ·)
      else return some .zero
    else return none

theorem bankPlace?_eq (h : c.Equipped) (vcpu : Nat) (addr : BitVec 64) (offset : Nat) (hw : width ∈ [1, 2, 4, 8]) :
    bankPlace? c vcpu addr offset width = .ok (VirtualGic.Redistributor.bankPlace? c vcpu addr offset width) := by
  unfold bankPlace? VirtualGic.Redistributor.bankPlace?
  refine bind_eq (blockAt?_eq _) ?_
  cases hb : VirtualGic.blockAt? offset with
  | none => rfl
  | some b =>
    obtain ⟨mem, covers⟩ := blockAt?_eq_some_iff.1 hb
    refine bind_eq (allows_eq b addr width) (ite_ok (fun _ => ite_ok (fun serves => ?_) fun _ => rfl) fun _ => rfl)
    have fields : b.fieldBits ≠ 0 := (layout_spec b mem).2.2 fun hg => by
      simp only [List.mem_cons, List.not_mem_nil, or_false] at hg
      rcases hg with hg | hg | hg <;> rw [hg] at serves <;> cases serves
    exact bind_eq (coveredLines?_eq h.checked c.vcpu mem covers fields hw (some vcpu)) rfl

def place? (c : Core) (addr : BitVec 64) (width : Nat) : Guarded (Option Place) :=
  if c.vm.version == .v3 then do
    let offset := (addr - c.vm.partition.redistributor).toNat
    let vcpu ← div offset redistributorStride
    let inner ← mod offset redistributorStride
    if vcpu < c.vm.vcpuCount then
      if inner < frameSize then controlPlace? vcpu inner width
      else do bankPlace? c vcpu addr (← sub inner frameSize) width
    else return none
  else return none

theorem place?_eq (h : c.Equipped) (addr : BitVec 64) (hw : width ∈ [1, 2, 4, 8]) :
    place? c addr width = .ok (VirtualGic.Redistributor.place? c addr width) := by
  refine ite_ok (fun _ => ?_) fun _ => rfl
  refine bind_eq (div_eq (by decide)) (bind_eq (mod_eq (by decide)) (ite_ok (fun _ => ?_) fun _ => rfl))
  exact ite_ok (fun _ => controlPlace?_eq _ _ hw) fun second =>
    bind_eq (sub_eq (Nat.le_of_not_lt second)) (bankPlace?_eq h _ addr _ hw)

def load (c : Core) : Place → Guarded (BitVec 64)
  | .type vcpu part => do
    let word ← typeWord vcpu c.vm.vcpuCount
    return match part with
      | none => word
      | some false => lowBits 32 word
      | some true => word >>> 32
  | .fields g bits ls => readFields c g bits ls
  | p => return VirtualGic.Redistributor.load c p

def store (c : Core) (v : BitVec 64) : Place → Guarded Core
  | .fields g bits ls => writeFields g bits ls v c
  | p => return VirtualGic.Redistributor.store c v p

variable {p : Place}

/-- A type register is that of a vCPU: the first frames have them. -/
theorem vcpu_of_place? {vcpu : Nat} {part : Option Bool}
    (hp : VirtualGic.Redistributor.place? c addr width = some (.type vcpu part)) : vcpu < c.vm.vcpuCount := by
  obtain ⟨v, lt, _, control | bank⟩ := VirtualGic.Redistributor.place?_cases hp
  · obtain ⟨-, inControl⟩ := VirtualGic.Redistributor.controlPlace?_cases control
    cases inControl
    exact lt
  · rcases VirtualGic.Redistributor.bankPlace?_cases bank with e | ⟨_, -, -, _, -, e⟩ <;> cases e

theorem load_eq (h : c.Equipped) (hw : width ∈ [1, 2, 4, 8]) (hp : VirtualGic.Redistributor.place? c addr width = some p) :
    load c p = .ok (VirtualGic.Redistributor.load c p) := by
  have reach := VirtualGic.Redistributor.reaches_place? hp
  have fits := Nat.le_trans (VirtualGic.Redistributor.bits_le hp) (width_le hw)
  cases p with
  | type vcpu part => exact bind_eq (typeWord_eq (vcpu_lt h.checked (vcpu_of_place? hp)) _) rfl
  | fields g bits ls => exact readFields_eq h g (Nat.le_trans (Core.bits_le_of_reaches reach) (by decide)) reach.has fits
  | _ => rfl

theorem store_eq (h : c.Equipped) (hw : width ∈ [1, 2, 4, 8]) (hp : VirtualGic.Redistributor.place? c addr width = some p)
    (v : BitVec 64) : store c v p = .ok (VirtualGic.Redistributor.store c v p) := by
  have reach := VirtualGic.Redistributor.reaches_place? hp
  have fits := Nat.le_trans (VirtualGic.Redistributor.bits_le hp) (width_le hw)
  cases p with
  | fields g bits ls => exact writeFields_eq h g (Nat.le_trans (Core.bits_le_of_reaches reach) (by decide)) reach.has fits v
  | _ => rfl

end Redistributor

/-! ## Accesses -/

/-- A field is moved to the top of a word and back with its sign. -/
theorem sshiftRight_shiftLeft (hbits : 0 < bits) (hle : bits ≤ 64) (v : BitVec 64) :
    (lowBits bits v <<< (64 - bits)).sshiftRight (64 - bits) = (v.setWidth bits).signExtend 64 := by
  apply BitVec.eq_of_getLsbD_eq
  intro i hi
  have top : 63 - (64 - bits) = bits - 1 := by omega
  rw [BitVec.getLsbD_sshiftRight, BitVec.getLsbD_signExtend, BitVec.msb_eq_getLsbD_last, BitVec.msb_eq_getLsbD_last,
    decide_eq_false (Nat.not_le.2 hi), decide_eq_true hi, Bool.not_false, Bool.true_and, Bool.true_and]
  by_cases low : i < bits
  · rw [if_pos (show 64 - bits + i < 64 by omega), if_pos low, BitVec.getLsbD_shiftLeft, Nat.add_sub_cancel_left,
      getLsbD_lowBits, BitVec.getLsbD_setWidth]
    simp only [low, decide_true, Bool.true_and]
    rw [decide_eq_true (by omega), decide_eq_false (by omega)]
    simp
  · rw [if_neg (show ¬ 64 - bits + i < 64 by omega), if_neg low, BitVec.getLsbD_shiftLeft, top, getLsbD_lowBits,
      BitVec.getLsbD_setWidth, decide_eq_true (show 64 - 1 < 64 by decide),
      decide_eq_false (show ¬ 64 - 1 < 64 - bits by omega)]
    simp

/-- The register value of a load. -/
def extend (a : Access) (v : BitVec 64) : Guarded (BitVec 64) := do
  let bits ← mul 32 a.width 8
  let low ← (if bits < 64 then do return v &&& (← lowMask bits) else pure v : Guarded (BitVec 64))
  if a.signed && decide (bits < 64) then
    let shift ← sub 64 bits
    let word ← sshiftRight (← shiftLeft low shift) shift
    return if a.wide then word else lowBits 32 word
  else return low

theorem extend_eq {a : Access} (hw : a.width ∈ [1, 2, 4, 8]) (v : BitVec 64) : extend a v = .ok (a.extend v) := by
  have bounds : 0 < 8 * a.width ∧ 8 * a.width ≤ 64 :=
    (by decide : ∀ w ∈ [1, 2, 4, 8], 0 < 8 * w ∧ 8 * w ≤ 64) a.width hw
  have low : (if 8 * a.width < 64 then do return v &&& (← lowMask (8 * a.width)) else pure v) =
      (.ok (lowBits (8 * a.width) v) : Guarded (BitVec 64)) := by
    split
    next narrow => exact bind_eq (lowMask_eq narrow) (congrArg Except.ok (and_below v bounds.2))
    next whole =>
      have full : 8 * a.width = 64 := by omega
      rw [full, lowBits, BitVec.setWidth_eq, BitVec.setWidth_eq]
      rfl
  unfold extend
  rw [mul_eq (by omega), ok_bind, Nat.mul_comm a.width 8, low, ok_bind]
  refine ite_ok (fun narrow => ?_) fun _ => rfl
  have narrow : 8 * a.width < 64 := of_decide_eq_true (Bool.and_eq_true_iff.1 narrow).2
  refine bind_eq (sub_eq bounds.2) (bind_eq (shiftLeft_eq _ (by omega)) (bind_eq (sshiftRight_eq _ (by omega)) ?_))
  rw [sshiftRight_shiftLeft bounds.1 bounds.2]
  rfl

/-- What a window holds at an address. -/
def loadWindow? (c : Core) (w : Window) (addr : BitVec 64) (width : Nat) : Guarded (Option (BitVec 64)) := do
  match w with
  | .distributor _ => (← Distributor.place? c addr width).mapM (Distributor.load c)
  | .redistributors _ _ => (← Redistributor.place? c addr width).mapM (Redistributor.load c)

def storeWindow? (c : Core) (w : Window) (addr : BitVec 64) (width : Nat) (v : BitVec 64) : Guarded (Option Core) := do
  match w with
  | .distributor _ => (← Distributor.place? c addr width).mapM (Distributor.store c v)
  | .redistributors _ _ => (← Redistributor.place? c addr width).mapM (Redistributor.store c v)

theorem loadWindow?_eq (h : c.Equipped) (w : Window) (addr : BitVec 64) (hw : width ∈ [1, 2, 4, 8]) :
    loadWindow? c w addr width = .ok (c.loadWindow? w addr width) := by
  cases w with
  | distributor _ => exact bind_eq (Distributor.place?_eq h hw) (mapM_eq fun p hp => Distributor.load_eq h hw hp)
  | redistributors _ _ => exact bind_eq (Redistributor.place?_eq h addr hw) (mapM_eq fun p hp => Redistributor.load_eq h hw hp)

theorem storeWindow?_eq (h : c.Equipped) (w : Window) (addr : BitVec 64) (hw : width ∈ [1, 2, 4, 8]) (v : BitVec 64) :
    storeWindow? c w addr width v = .ok (c.storeWindow? w addr width v) := by
  cases w with
  | distributor _ => exact bind_eq (Distributor.place?_eq h hw) (mapM_eq fun p hp => Distributor.store_eq h hw hp v)
  | redistributors _ _ => exact bind_eq (Redistributor.place?_eq h addr hw) (mapM_eq fun p hp => Redistributor.store_eq h hw hp v)

/-- A guest access.  A store hands on its register as it is. -/
def access (c : Core) (a : Access) (f : RegisterFile) : Guarded (Bool × RegisterFile × Core) := do
  match ← c.vm.addressMap.findM? (contains · a.addr) with
  | none => return (false, f, c)
  | some w =>
    if a.write then
      match ← storeWindow? c w a.addr a.width (f.get a.register) with
      | some c => return (true, f, c)
      | none => return (false, f, c)
    else
      match ← loadWindow? c w a.addr a.width with
      | some v => return (true, f.set a.register (← extend a v), c)
      | none => return (false, f, c)

/-- **An access of a proper width does not stop**, where every window ends at an address. -/
theorem access_eq (h : c.Equipped) (bounded : ∀ w ∈ c.vm.addressMap, w.Bounded) {a : Access} (hw : a.width ∈ [1, 2, 4, 8])
    (f : RegisterFile) : access c a f = .ok (c.access a f) := by
  have found : c.vm.addressMap.findM? (contains · a.addr) = .ok (c.vm.addressMap.find? (·.contains a.addr)) :=
    findM?_eq _ fun w hw => contains_eq (bounded w hw) a.addr
  unfold access
  rw [found, ok_bind]
  cases hwin : c.vm.addressMap.find? (·.contains a.addr) with
  | none =>
    cases write : a.write with
    | false =>
      rw [Core.access_of_read write, Core.load?, hwin]
      rfl
    | true =>
      rw [Core.access_of_write write, Core.store?, hwin]
      rfl
  | some w =>
    simp only
    split
    next write =>
      rw [storeWindow?_eq h w a.addr hw, ok_bind, Core.access_store write, Core.store?, hwin, Option.bind_some]
      cases c.storeWindow? w a.addr a.width (f.get a.register) <;> rfl
    next read =>
      rw [loadWindow?_eq h w a.addr hw, ok_bind]
      rw [Core.access_of_read (Bool.not_eq_true _ ▸ read), Core.load?, hwin, Option.bind_some]
      cases c.loadWindow? w a.addr a.width with
      | none => rfl
      | some v => exact bind_eq (extend_eq hw v) rfl

end Guarded
end VirtualGic
