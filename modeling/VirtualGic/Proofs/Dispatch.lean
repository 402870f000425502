import VirtualGic.Proofs.Course
/-!
# Dispatches

What one core tells another, in the sender's own terms.  A message has room for the low bits of each field only
(`Dispatch.pack`); fields that fit come back as they were (`Dispatch.unpack_pack`), and whatever a vCPU has to tell fits
(`Vm.Tells.fits`).
-/
namespace VirtualGic

/-- The fields of a message before they are put together. -/
structure Dispatch where
  vm : Nat
  /-- The vCPU whose bank holds the interrupt; for a shared one, a vCPU that takes part. -/
  bank : Nat
  intid : Nat
  group : Nat
  /-- The value of a field write, or the requester of a software interrupt. -/
  value : BitVec 32
deriving DecidableEq, Repr

namespace Dispatch

/-- The word that carries the fields, each cut to its room. -/
def pack (d : Dispatch) : BitVec 64 :=
  (BitVec.ofNat 64 d.vm &&& 0xFF) <<< 56 ||| (BitVec.ofNat 64 d.bank &&& 0xFF) <<< 48 |||
    (BitVec.ofNat 64 d.intid &&& 0x3FF) <<< 38 ||| (BitVec.ofNat 64 d.group &&& 0x3F) <<< 32 ||| d.value.setWidth 64

def unpack (w : BitVec 64) : Dispatch where
  vm := (w >>> 56 &&& 0xFF).toNat
  bank := (w >>> 48 &&& 0xFF).toNat
  intid := (w >>> 38 &&& 0x3FF).toNat
  group := (w >>> 32 &&& 0x3F).toNat
  value := w.setWidth 32

/-- Every field has room in a message. -/
structure Fits (d : Dispatch) : Prop where
  vm : d.vm < 256
  bank : d.bank < 256
  intid : d.intid < 1024
  group : d.group < 64

/-- The fields, cut to their room. -/
def payload (d : Dispatch) : Payload where
  vm := BitVec.ofNat 8 d.vm
  bank := BitVec.ofNat 8 d.bank
  intid := BitVec.ofNat 10 d.intid
  group := BitVec.ofNat 6 d.group
  value := d.value

/-- What a receiver reads. -/
def ofPayload (p : Payload) : Dispatch := ⟨p.vm.toNat, p.bank.toNat, p.intid.toNat, p.group.toNat, p.value⟩

/-! ## Packing and unpacking -/

/-- A mask of `k` ones keeps the low `k` bits. -/
theorem and_ones (w : BitVec 64) (k : Nat) : w &&& (BitVec.allOnes k).setWidth 64 = lowBits k w := by
  apply BitVec.eq_of_getLsbD_eq
  intro i hi
  rw [BitVec.getLsbD_and, BitVec.getLsbD_setWidth, BitVec.getLsbD_allOnes, getLsbD_lowBits, decide_eq_true hi, Bool.true_and,
    Bool.and_comm]

theorem and_mask (w : BitVec 64) :
    w &&& 0xFF = lowBits 8 w ∧ w &&& 0x3FF = lowBits 10 w ∧ w &&& 0x3F = lowBits 6 w :=
  ⟨and_ones w 8, and_ones w 10, and_ones w 6⟩

/-- The fields do not overlap: the word is made of their low bits side by side. -/
theorem pack_eq (d : Dispatch) : d.pack = d.payload.toWord := by
  apply BitVec.eq_of_getLsbD_eq
  intro i hi
  simp only [pack, payload, Payload.toWord, and_mask, BitVec.getLsbD_or, BitVec.getLsbD_shiftLeft, getLsbD_lowBits,
    BitVec.getLsbD_append, BitVec.getLsbD_setWidth, BitVec.getLsbD_ofNat]
  repeat' split
  all_goals grind

theorem toNat_lowBits_ushiftRight (w : BitVec 64) (start : Nat) {len : Nat} (hlen : len ≤ 64) :
    (lowBits len (w >>> start)).toNat = (w.extractLsb' start len).toNat := by
  have small : w.toNat >>> start % 2 ^ len < 2 ^ 64 :=
    Nat.lt_of_lt_of_le (Nat.mod_lt _ (Nat.two_pow_pos len)) (Nat.pow_le_pow_right (by decide) hlen)
  rw [lowBits, BitVec.toNat_setWidth, BitVec.toNat_setWidth, BitVec.toNat_ushiftRight, BitVec.extractLsb'_toNat,
    Nat.mod_eq_of_lt small]

/-- A receiver reads the fields that are unpacked. -/
theorem unpack_eq (w : BitVec 64) : unpack w = ofPayload (Payload.ofWord w) := by
  have value : w.setWidth 32 = w.extractLsb' 0 32 := BitVec.setWidth_eq_extractLsb' (by decide)
  simp only [unpack, ofPayload, Payload.ofWord, and_mask, value,
    toNat_lowBits_ushiftRight w _ (by decide : 8 ≤ 64), toNat_lowBits_ushiftRight w _ (by decide : 10 ≤ 64),
    toNat_lowBits_ushiftRight w _ (by decide : 6 ≤ 64)]

theorem payload_ofPayload (p : Payload) : (ofPayload p).payload = p := by
  simp only [payload, ofPayload, BitVec.ofNat_toNat, BitVec.setWidth_eq]

theorem ofPayload_payload {d : Dispatch} (h : d.Fits) : ofPayload d.payload = d := by
  simp only [ofPayload, payload, BitVec.toNat_ofNat, Nat.mod_eq_of_lt h.vm, Nat.mod_eq_of_lt h.bank,
    Nat.mod_eq_of_lt h.intid, Nat.mod_eq_of_lt h.group]

theorem fits_unpack (w : BitVec 64) : (unpack w).Fits := by
  rw [unpack_eq]
  exact ⟨BitVec.isLt _, BitVec.isLt _, BitVec.isLt _, BitVec.isLt _⟩

theorem pack_unpack (w : BitVec 64) : (unpack w).pack = w := by
  rw [pack_eq, unpack_eq, payload_ofPayload, Payload.toWord_ofWord]

theorem unpack_pack {d : Dispatch} (h : d.Fits) : unpack d.pack = d := by
  rw [unpack_eq, pack_eq, Payload.ofWord_toWord, ofPayload_payload h]

end Dispatch

/-! ## What a core has to tell -/

/-- What vCPU `me` of a VM tells other cores. -/
inductive Vm.Tells (vm : Vm) (me : Nat) : Request → Dispatch → Prop
  /-- The distributor was switched on or off. -/
  | enable : Tells vm me .syncEnable ⟨vm.id, me, 0, 0, 0⟩
  | offer (l : Line) (has : vm.Has l) : Tells vm me .route ⟨vm.id, l.home?.getD me, l.id, 0, 0⟩
  /-- A hardware interrupt fired that another vCPU owns. -/
  | hardware (l : Line) (has : vm.Has l) (owner : Nat) (member : owner < vm.vcpuCount) :
    Tells vm me .inject ⟨vm.id, l.home?.getD owner, l.id, 0, 0⟩
  | software (id : Nat) (soft : id < softwareInterrupts) (target : Nat) (member : target < vm.vcpuCount) :
    Tells vm me .inject ⟨vm.id, target, id, 0, BitVec.ofNat 32 me⟩
  | write (g : RegisterGroup) (l : Line) (v : BitVec 64) (has : vm.Has l) (owner : Nat) (member : owner < vm.vcpuCount) :
    Tells vm me .writeField ⟨vm.id, l.home?.getD owner, l.id, g.code, v.setWidth 32⟩

variable {vm vm' : Vm} {me : Nat} {r : Request} {d : Dispatch} {l : Line}

theorem Vm.bank_lt (checked : vm.partition.Checked) (has : vm.Has l) (hme : me < vm.vcpuCount) : l.home?.getD me < 256 := by
  have few : vm.vcpuCount ≤ 8 := checked.cpus_le
  cases hh : l.home? with
  | none => exact Nat.lt_of_lt_of_le hme (Nat.le_trans few (by decide))
  | some home => exact Nat.lt_of_lt_of_le (has.2.2 home hh) (Nat.le_trans few (by decide))

/-- **Whatever a vCPU tells has room in a message.** -/
theorem Vm.Tells.fits (h : vm.Tells me r d) (checked : vm.partition.Checked) (hme : me < vm.vcpuCount) : d.Fits := by
  have few : vm.vcpuCount ≤ 8 := checked.cpus_le
  have id : vm.id < 256 := Nat.lt_of_le_of_lt checked.id_le (by decide)
  have member {v : Nat} (hv : v < vm.vcpuCount) : v < 256 := Nat.lt_of_lt_of_le hv (Nat.le_trans few (by decide))
  cases h with
  | enable => exact ⟨id, member hme, Nat.zero_lt_succ _, Nat.zero_lt_succ _⟩
  | offer l has => exact ⟨id, bank_lt checked has hme, id_lt_of_has checked has, Nat.zero_lt_succ _⟩
  | hardware l has owner lt => exact ⟨id, bank_lt checked has lt, id_lt_of_has checked has, Nat.zero_lt_succ _⟩
  | software id' soft target lt => exact ⟨id, member lt, Nat.lt_trans soft (by decide), Nat.zero_lt_succ _⟩
  | write g l v has owner lt => exact ⟨id, bank_lt checked has lt, id_lt_of_has checked has, Core.code_lt g⟩

theorem Vm.Tells.congr (h : vm.Tells me r d) (hp : vm'.partition = vm.partition) : vm'.Tells me r d := by
  have hid : vm.id = vm'.id := by unfold id; rw [hp]
  have has {l : Line} (hl : vm.Has l) : vm'.Has l := (has_congr hp l).2 hl
  have count {v : Nat} (hv : v < vm.vcpuCount) : v < vm'.vcpuCount := by rwa [vcpuCount_congr hp]
  cases h with
  | enable => exact hid ▸ .enable
  | offer l hl => exact hid ▸ .offer l (has hl)
  | hardware l hl owner lt => exact hid ▸ .hardware l (has hl) owner (count lt)
  | software id soft target lt => exact hid ▸ .software id soft target (count lt)
  | write g l v hl owner lt => exact hid ▸ .write g l v (has hl) owner (count lt)

/-- A message in which vCPU `me` of a VM tells something, packed. -/
def Message.Told (m : Message) (vm : Vm) (me : Nat) : Prop := ∃ r d, vm.Tells me r d ∧ m = ⟨r.code, d.pack⟩

theorem Message.Told.congr {m : Message} (h : m.Told vm me) (hp : vm'.partition = vm.partition) : m.Told vm' me := by
  obtain ⟨r, d, tells, e⟩ := h
  exact ⟨r, d, tells.congr hp, e⟩

/-- The payload that a core fills in is its dispatch, cut. -/
theorem Core.toWord_payload (c : Core) (bank id g : Nat) (v : BitVec 32) :
    ({ c.payload bank id with group := BitVec.ofNat 6 g, value := v } : Payload).toWord =
      Dispatch.pack ⟨c.vm.id, bank, id, g, v⟩ := by
  rw [Dispatch.pack_eq]
  rfl

end VirtualGic
