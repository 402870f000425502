import VirtualGic.Proofs.Served
/-!
# Where the fields of an access lie

`Partition.Locates` says that an address lies at an offset in the distributor or in the second frame of a redistributor.
There an access to a register leads to the fields that its block says (`Core.addresses_of_located`), and the interrupt of
each field is the next number, as far as the window serves it (`Vm.getElem?_coveredLines`).
-/
namespace VirtualGic

/-! ## Windows -/

namespace Partition

/-- The address lies in the distributor at this offset, or in the second frame of a redistributor, and the window ends at an
address.  The distributor comes first where the windows overlap. -/
def Locates (p : Partition) (addr : Nat) : Option Nat → Nat → Prop
  | none, offset =>
    (Window.distributor p.distributor).Bounded ∧ p.InDistributor addr ∧ addr = p.distributor.toNat + offset
  | some frame, offset =>
    (Window.redistributors p.redistributor p.cpus.length).Bounded ∧ ¬ p.InDistributor addr ∧ p.InRedistributors addr ∧
      offset < Redistributor.frameSize ∧
      addr = p.redistributor.toNat + (redistributorStride * frame + Redistributor.frameSize + offset)

instance (p : Partition) (addr : Nat) : ∀ (frame? : Option Nat) (offset : Nat), Decidable (p.Locates addr frame? offset)
  | none, _ => inferInstanceAs (Decidable (_ ∧ _))
  | some _, _ => inferInstanceAs (Decidable (_ ∧ _))

variable {p : Partition} {addr offset frame : Nat} {frame? : Option Nat}

theorem Locates.version (h : p.Locates addr (some frame) offset) : p.version = .v3 := h.2.2.1.1

theorem Locates.frame_lt (h : p.Locates addr (some frame) offset) : frame < p.cpus.length := by
  obtain ⟨-, -, ⟨-, -, hlt⟩, -, rfl⟩ := h
  unfold redistributorStride Redistributor.frameSize at hlt
  omega

theorem Locates.offset_lt (h : p.Locates addr frame? offset) : offset < distributorSize := by
  cases frame? with
  | none =>
    obtain ⟨-, ⟨-, hlt⟩, rfl⟩ := h
    omega
  | some frame => exact h.2.2.2.1

end Partition

/-- The groups with a field for each interrupt that a window has. -/
def RegisterGroup.servedThrough (version : GicVersion) (g : RegisterGroup) : Option Nat → Bool
  | none => g.perInterrupt version && g != .route
  | some _ => Redistributor.serves g

/-- The window that has the registers, the distributor or the redistributors. -/
def Vm.window (vm : Vm) : Option Nat → Window
  | none => .distributor vm.partition.distributor
  | some _ => .redistributors vm.partition.redistributor vm.vcpuCount

variable {vm : Vm} {c : Core} {b : RegisterBlock} {addr v : BitVec 64} {offset width vcpu id k : Nat} {frame? : Option Nat}
  {ls : List Line}

theorem Vm.find?_window (checked : vm.partition.Checked) (located : vm.partition.Locates addr.toNat frame? offset) :
    vm.addressMap.find? (·.contains addr) = some (vm.window frame?) := by
  rw [Vm.addressMap_eq checked, List.find?_cons]
  cases frame? with
  | none =>
    obtain ⟨bounded, inside, -⟩ := located
    rw [Window.contains_distributor bounded, decide_eq_true inside]
    rfl
  | some frame =>
    obtain ⟨bounded, apart, inside, -⟩ := located
    have outside : (Window.distributor vm.partition.distributor).contains addr = false :=
      Bool.eq_false_iff.2 fun h => apart (Window.lt_of_contains h)
    rw [outside, if_pos (show vm.version = .v3 from inside.1), List.find?_singleton,
      Window.contains_redistributors inside.1 bounded, decide_eq_true inside]
    rfl

/-- No block covers the identification registers that end the first 4 KiB. -/
theorem not_covers_identification (hb : blockAt? offset = some b) : ¬ (0xFD0 ≤ offset ∧ offset < 0x1000) := by
  obtain ⟨mem, covers⟩ := blockAt?_eq_some_iff.1 hb
  have apart : ∀ b ∈ registerLayout, b.base + b.size ≤ 0xFD0 ∨ 0x1000 ≤ b.base := by decide
  have := RegisterBlock.covers_iff.1 covers
  have := apart b mem
  omega

theorem Distributor.place?_of_located (located : c.vm.partition.Locates addr.toNat none offset)
    (hb : blockAt? offset = some b) :
    place? c addr width = if b.allows addr width then blockPlace? c b offset width else none := by
  have ho : (addr - c.vm.partition.distributor).toNat = offset := by
    obtain ⟨-, inside, e⟩ := located
    rw [BitVec.toNat_sub_of_le inside.1, e, Nat.add_sub_cancel_left]
  have notId := not_covers_identification hb
  unfold place?
  simp only [ho, if_neg (Nat.not_le.2 located.offset_lt), Bool.and_eq_true, decide_eq_true_eq, and_assoc]
  rw [if_neg fun h => notId h.2, hb]

theorem Redistributor.place?_of_located {frame : Nat} (located : c.vm.partition.Locates addr.toNat (some frame) offset) :
    place? c addr width = bankPlace? c frame addr offset width := by
  have hframe : frame < c.vm.vcpuCount := located.frame_lt
  obtain ⟨-, -, ⟨v3, hle, -⟩, hoff, he⟩ := located
  have ho : (addr - c.vm.partition.redistributor).toNat = redistributorStride * frame + (frameSize + offset) := by
    rw [BitVec.toNat_sub_of_le hle, he, Nat.add_sub_cancel_left, Nat.add_assoc]
  have inner : frameSize + offset < redistributorStride := by
    unfold frameSize redistributorStride at *
    omega
  unfold place?
  rw [if_pos (beq_iff_eq.2 (show c.vm.version = .v3 from v3))]
  simp only [ho, Nat.mul_add_mod, Nat.mod_eq_of_lt inner, Nat.mul_add_div (by decide : redistributorStride > 0),
    Nat.div_eq_of_lt inner, Nat.add_zero, if_pos hframe, Nat.add_sub_cancel_left,
    if_neg (Nat.not_lt.2 (Nat.le_add_right frameSize offset))]

namespace Core

theorem load?_of_window (checked : c.vm.partition.Checked) (located : c.vm.partition.Locates addr.toNat frame? offset) :
    c.load? c.vm.addressMap addr width = c.loadWindow? (c.vm.window frame?) addr width := by
  unfold load?
  rw [Vm.find?_window checked located, Option.bind_some]

theorem store?_of_window (checked : c.vm.partition.Checked) (located : c.vm.partition.Locates addr.toNat frame? offset) :
    c.store? c.vm.addressMap addr width v = c.storeWindow? (c.vm.window frame?) addr width v := by
  unfold store?
  rw [Vm.find?_window checked located, Option.bind_some]

theorem distributor_fields (located : c.vm.partition.Locates addr.toNat none offset) (hb : blockAt? offset = some b)
    (served : b.group.servedThrough c.vm.version none = true) (allowed : b.allows addr width = true) :
    Distributor.place? c addr width =
      (c.vm.coveredLines? c.vcpu b offset width none).map (.fields b.group b.fieldBits ·) := by
  rw [RegisterGroup.servedThrough, Bool.and_eq_true, bne_iff_ne] at served
  rw [Distributor.place?_of_located located hb, if_pos allowed, Distributor.blockPlace?_of_perInterrupt served.1 served.2,
    Distributor.fieldsPlace?]

theorem redistributor_fields {frame : Nat} (located : c.vm.partition.Locates addr.toNat (some frame) offset)
    (hb : blockAt? offset = some b) (served : b.group.servedThrough c.vm.version (some frame) = true)
    (allowed : b.allows addr width = true) :
    Redistributor.place? c addr width =
      (c.vm.coveredLines? c.vcpu b offset width (some frame)).map (.fields b.group b.fieldBits ·) := by
  have served : Redistributor.serves b.group = true := served
  rw [Redistributor.place?_of_located located, Redistributor.bankPlace?, hb]
  simp only [allowed, served, if_true]

/-- The address leads to the fields of these interrupts, which are `n` bits wide. -/
structure Addresses (c : Core) (addr : BitVec 64) (width : Nat) (g : RegisterGroup) (n : Nat) (ls : List Line) : Prop where
  load : c.load? c.vm.addressMap addr width = some (c.readFields g n ls)
  store : ∀ v, c.store? c.vm.addressMap addr width v = some (writeFields g n ls v c)

/-- **A register with fields is accessed as its block says**, through the distributor or a redistributor. -/
theorem addresses_of_located (checked : c.vm.partition.Checked) (located : c.vm.partition.Locates addr.toNat frame? offset)
    (hb : blockAt? offset = some b) (served : b.group.servedThrough c.vm.version frame? = true)
    (allowed : b.allows addr width = true) (covered : c.vm.coveredLines? c.vcpu b offset width frame? = some ls) :
    c.Addresses addr width b.group b.fieldBits ls := by
  cases frame? with
  | none =>
    have place := distributor_fields located hb served allowed
    rw [covered] at place
    refine ⟨?_, fun v => ?_⟩
    · rw [load?_of_window checked located]
      exact congrArg (Option.map (Distributor.load c)) place
    · rw [store?_of_window checked located]
      exact congrArg (Option.map (Distributor.store c v)) place
  | some frame =>
    have place := redistributor_fields located hb served allowed
    rw [covered] at place
    refine ⟨?_, fun v => ?_⟩
    · rw [load?_of_window checked located]
      exact congrArg (Option.map (Redistributor.load c)) place
    · rw [store?_of_window checked located]
      exact congrArg (Option.map (Redistributor.store c v)) place

/-- A register that the distributor does not serve under the VM's version has no fields. -/
theorem addresses_zero {g : RegisterGroup} {n : Nat} (checked : c.vm.partition.Checked)
    (located : c.vm.partition.Locates addr.toNat none offset) (hb : blockAt? offset = some b)
    (allowed : b.allows addr width = true) (zero : Distributor.blockPlace? c b offset width = some .zero) :
    c.Addresses addr width g n [] := by
  have place : Distributor.place? c addr width = some .zero := by
    rw [Distributor.place?_of_located located hb, if_pos allowed, zero]
  refine ⟨?_, fun v => ?_⟩
  · rw [load?_of_window checked located]
    exact congrArg (Option.map (Distributor.load c)) place
  · rw [store?_of_window checked located]
    exact congrArg (Option.map (Distributor.store c v)) place

namespace Addresses

variable {g : RegisterGroup} {n : Nat} {a : Access}

theorem access_load (h : c.Addresses a.addr a.width g n ls) (read : a.write = false) (f : RegisterFile) :
    c.access a f = (true, a.finishLoad f (c.readFields g n ls), c) := by
  rw [access_of_read read, h.load]

theorem access_store (h : c.Addresses a.addr a.width g n ls) (write : a.write = true) (f : RegisterFile) :
    c.access a f = (true, f, writeFields g n ls (a.stored f) c) := by
  rw [access_of_write write, h.store]

end Addresses

/-- A word that is loaded shows its fields from the lowest bits on. -/
theorem field_readFields {g : RegisterGroup} {n : Nat} : ∀ {ls : List Line} {k : Nat}, n * (k + 1) ≤ 64 →
    lowBits n (c.readFields g n ls >>> (n * k)) = (ls[k]?).elim 0 fun l => lowBits n (c.readField g l)
  | [], _, _ => by
    have blank : ∀ j, (0 : BitVec 64).getLsbD j = false := fun _ => BitVec.getLsbD_zero
    refine BitVec.eq_of_getLsbD_eq fun j _ => ?_
    rw [getLsbD_lowBits, BitVec.getLsbD_ushiftRight, readFields, List.getElem?_nil, Option.elim_none, blank, blank,
      Bool.and_false]
  | l :: ls, 0, _ => by
    refine BitVec.eq_of_getLsbD_eq fun j _ => ?_
    rw [Nat.mul_zero, BitVec.ushiftRight_zero, readFields, List.getElem?_cons_zero, Option.elim_some]
    by_cases hj : j < n <;> simp [getLsbD_lowBits, hj]
  | l :: ls, k + 1, hk => by
    have fits : n * (k + 1) + n ≤ 64 := hk
    rw [List.getElem?_cons_succ, ← field_readFields (Nat.le_trans (Nat.le_add_right _ n) fits), readFields]
    refine BitVec.eq_of_getLsbD_eq fun j _ => ?_
    simp only [getLsbD_lowBits, BitVec.getLsbD_ushiftRight, BitVec.getLsbD_or, BitVec.getLsbD_shiftLeft]
    by_cases hj : j < n
    · have inside : n * (k + 1) + j < 64 := by omega
      have above : ¬ n * (k + 1) + j < n := by rw [Nat.mul_succ]; omega
      rw [show n * (k + 1) + j - n = n * k + j by rw [Nat.mul_succ]; omega]
      simp [hj, inside, above]
    · simp [hj]

/-- Above its fields a word is blank. -/
theorem getLsbD_readFields_of_le {g : RegisterGroup} {n : Nat} : ∀ {ls : List Line} {j : Nat}, n * ls.length ≤ j →
    (c.readFields g n ls).getLsbD j = false
  | [], _, _ => BitVec.getLsbD_zero
  | l :: ls, j, h => by
    rw [List.length_cons, Nat.mul_succ] at h
    rw [readFields, BitVec.getLsbD_or, getLsbD_lowBits, BitVec.getLsbD_shiftLeft,
      getLsbD_readFields_of_le (show n * ls.length ≤ j - n by omega), decide_eq_false (show ¬ j < n by omega)]
    simp only [Bool.false_and, Bool.and_false, Bool.or_false]

theorem readFields_singleton {g : RegisterGroup} {n : Nat} (l : Line) :
    c.readFields g n [l] = lowBits n (c.readField g l) := by
  show lowBits n (c.readField g l) ||| (0#64 <<< n) = _
  rw [BitVec.zero_shiftLeft, BitVec.or_zero]

/-- What is handled of a register respects its widths and its alignment. -/
theorem allowed_of_handled {a : Access} {f : RegisterFile} (checked : c.vm.partition.Checked)
    (located : c.vm.partition.Locates a.addr.toNat frame? offset) (hb : blockAt? offset = some b)
    (handled : (c.access a f).1 = true) : b.allows a.addr a.width = true := by
  rw [access_fst, Vm.find?_window checked located, Option.any_some] at handled
  cases allowed : b.allows a.addr a.width with
  | true => rfl
  | false =>
    cases frame? with
    | none =>
      have handled : (Distributor.place? c a.addr a.width).isSome = true := handled
      rw [Distributor.place?_of_located located hb, allowed] at handled
      cases handled
    | some frame =>
      have handled : (Redistributor.place? c a.addr a.width).isSome = true := handled
      rw [Redistributor.place?_of_located located, Redistributor.bankPlace?, hb] at handled
      simp only [allowed, Bool.false_eq_true, if_false] at handled
      cases handled

/-- What is handled of a register with fields covers some of them. -/
theorem covered_of_handled {a : Access} {f : RegisterFile} (checked : c.vm.partition.Checked)
    (located : c.vm.partition.Locates a.addr.toNat frame? offset) (hb : blockAt? offset = some b)
    (served : b.group.servedThrough c.vm.version frame? = true) (handled : (c.access a f).1 = true) :
    ∃ ls, c.vm.coveredLines? c.vcpu b offset a.width frame? = some ls := by
  have allowed := allowed_of_handled checked located hb handled
  rw [access_fst, Vm.find?_window checked located, Option.any_some] at handled
  refine Option.isSome_iff_exists.1 ?_
  cases frame? with
  | none =>
    have handled : (Distributor.place? c a.addr a.width).isSome = true := handled
    rwa [distributor_fields located hb served allowed, Option.isSome_map] at handled
  | some frame =>
    have handled : (Redistributor.place? c a.addr a.width).isSome = true := handled
    rwa [redistributor_fields located hb served allowed, Option.isSome_map] at handled

end Core

/-! ## The interrupts of the fields -/

namespace Vm

/-- The interrupt of a number as a window serves it to a vCPU: under version 3 the distributor has the shared ones only,
and a redistributor only the banked ones of its vCPU. -/
def servedAt? (vm : Vm) (vcpu : Nat) (frame? : Option Nat) (id : Nat) : Option Line :=
  if vm.version = .v3 ∧ frame?.isSome ≠ isPrivateId id then none else vm.find? (frame?.getD vcpu) id

theorem servedAt?_congr {vm' : Vm} (hp : vm'.partition = vm.partition) :
    vm'.servedAt? vcpu frame? id = vm.servedAt? vcpu frame? id := by
  unfold servedAt?
  rw [Vm.version_congr hp, Vm.find?_congr hp]

theorem find?_eq_none_of_le (h : vm.interruptCount ≤ id) : vm.find? vcpu id = none := if_pos h

theorem find?_eq_none_iff (hv : vcpu < vm.vcpuCount) : vm.find? vcpu id = none ↔ vm.interruptCount ≤ id := by
  refine ⟨fun h => Nat.le_of_not_lt fun hlt => ?_, find?_eq_none_of_le⟩
  unfold find? at h
  rw [if_neg (Nat.not_le.2 hlt), if_pos hv] at h
  split at h <;> cases h

theorem getElem?_linesFrom (hv : vcpu < vm.vcpuCount) :
    ∀ (count id k : Nat), (vm.linesFrom vcpu id count)[k]? = if k < count then vm.find? vcpu (id + k) else none
  | 0, _, _ => rfl
  | count + 1, id, k => by
    unfold linesFrom
    cases hid : vm.find? vcpu id with
    | none =>
      have end_le := (find?_eq_none_iff hv).1 hid
      rw [find?_eq_none_of_le (Nat.le_trans end_le (Nat.le_add_right id k)), ite_self]
      rfl
    | some l =>
      cases k with
      | zero => rw [if_pos (Nat.succ_pos count)]; exact hid.symm
      | succ k =>
        rw [show id + (k + 1) = id + 1 + k by omega, List.getElem?_cons_succ, getElem?_linesFrom hv count (id + 1) k]
        simp only [Nat.add_lt_add_iff_right]

theorem length_linesFrom_le : ∀ count id : Nat, (vm.linesFrom vcpu id count).length ≤ count
  | 0, _ => Nat.le_refl 0
  | count + 1, id => by
    unfold linesFrom
    split
    next => exact Nat.zero_le _
    next => exact Nat.succ_le_succ (length_linesFrom_le count (id + 1))

theorem linesFrom_congr {vm' : Vm} (hp : vm'.partition = vm.partition) :
    ∀ count id : Nat, vm'.linesFrom vcpu id count = vm.linesFrom vcpu id count
  | 0, _ => rfl
  | count + 1, id => by
    unfold linesFrom
    rw [Vm.find?_congr hp]
    cases vm.find? vcpu id with
    | none => rfl
    | some l => exact congrArg (l :: ·) (linesFrom_congr hp count (id + 1))

theorem coveredLines?_congr {vm' : Vm} (hp : vm'.partition = vm.partition) :
    vm'.coveredLines? vcpu b offset width frame? = vm.coveredLines? vcpu b offset width frame? := by
  unfold coveredLines? interruptCount
  simp only [Vm.version_congr hp, linesFrom_congr hp, hp]

/-- An aligned block of fields has the banked interrupts or none of them. -/
theorem isPrivateId_add {first count : Nat} (aligned : first % count = 0) (divides : privateInterrupts % count = 0)
    (hk : k < count) : isPrivateId (first + k) = isPrivateId first := by
  have hq : first + k < privateInterrupts ↔ first < privateInterrupts := by
    obtain ⟨q, rfl⟩ := Nat.dvd_of_mod_eq_zero aligned
    obtain ⟨r, hr⟩ := Nat.dvd_of_mod_eq_zero divides
    rw [hr]
    constructor
    · intro h; omega
    · intro h
      have hqr : q + 1 ≤ r := Nat.lt_of_mul_lt_mul_left h
      calc
        count * q + k < count * (q + 1) := by rw [Nat.mul_succ]; omega
        _ ≤ count * r := Nat.mul_le_mul_left count hqr
  simp only [isPrivateId, hq]

/-- **The fields of an access are those of consecutive interrupts**, as far as the window serves them. -/
theorem getElem?_coveredLines (h : vm.coveredLines? vcpu b offset width frame? = some ls) (hoff : offset < distributorSize)
    (hv : frame?.getD vcpu < vm.vcpuCount) (aligned : b.first offset % (width * 8 / b.fieldBits) = 0)
    (divides : privateInterrupts % (width * 8 / b.fieldBits) = 0) (hk : k < width * 8 / b.fieldBits) :
    ls[k]? = vm.servedAt? vcpu frame? (b.first offset + k) := by
  have first : (offset - b.base) * 8 / b.fieldBits % 0x100000000 = b.first offset := RegisterBlock.first_mod hoff
  unfold coveredLines? at h
  simp only [first] at h
  unfold servedAt?
  rw [isPrivateId_add aligned divides hk]
  split at h
  next hz =>
    cases h
    rw [if_pos (by simpa only [Bool.and_eq_true, beq_iff_eq, bne_iff_ne] using hz)]
    rfl
  next hz =>
    rw [if_neg (by simpa only [Bool.and_eq_true, beq_iff_eq, bne_iff_ne] using hz)]
    split at h
    next => cases h
    next =>
      cases h
      rw [getElem?_linesFrom hv, if_pos hk]

theorem exists_coveredLines (vm : Vm) (vcpu width : Nat) (frame? : Option Nat) (hoff : offset < distributorSize)
    (implemented : b.first offset < vm.interruptCount) : ∃ ls, vm.coveredLines? vcpu b offset width frame? = some ls := by
  refine Option.isSome_iff_exists.1 ((vm.coveredLines?_isSome frame?).2 (.inr ?_))
  rw [RegisterBlock.first_mod hoff]
  exact implemented

theorem length_coveredLines_le (h : vm.coveredLines? vcpu b offset width frame? = some ls) :
    ls.length ≤ width * 8 / b.fieldBits := by
  unfold coveredLines? at h
  simp only at h
  split at h
  next => cases h; exact Nat.zero_le _
  next =>
    split at h
    next => cases h
    next => cases h; exact length_linesFrom_le _ _

end Vm
end VirtualGic
