import VirtualGic.Proofs.Located
/-!
# The width of an access

A load changes nothing but its register.  A store changes no register, and what it does depends on the bits of its width
alone: every place in the windows cuts the value that it is handed (`Distributor.bits_le`, `Redistributor.bits_le`), so the
bits above make no difference (`Machine.Arises.sees_width`).
-/
namespace VirtualGic

/-- The words are the same in their low `n` bits. -/
def AgreeBelow (n : Nat) (v w : BitVec 64) : Prop := ∀ j < n, v.getLsbD j = w.getLsbD j

namespace AgreeBelow

variable {n k : Nat} {v w : BitVec 64}

theorem mono (h : AgreeBelow n v w) (hk : k ≤ n) : AgreeBelow k v w := fun j hj => h j (Nat.lt_of_lt_of_le hj hk)

theorem setWidth (h : AgreeBelow n v w) : v.setWidth n = w.setWidth n := by
  refine BitVec.eq_of_getLsbD_eq fun j hj => ?_
  rw [BitVec.getLsbD_setWidth, BitVec.getLsbD_setWidth, h j hj]

theorem lowBits (h : AgreeBelow n v w) : lowBits n v = lowBits n w := congrArg (BitVec.setWidth 64) h.setWidth

theorem ushiftRight (h : AgreeBelow (k + n) v w) : AgreeBelow n (v >>> k) (w >>> k) := fun j hj => by
  rw [BitVec.getLsbD_ushiftRight, BitVec.getLsbD_ushiftRight, h (k + j) (Nat.add_lt_add_left hj k)]

theorem eq (h : AgreeBelow 64 v w) : v = w := BitVec.eq_of_getLsbD_eq h

theorem lowBits_self (n : Nat) (v : BitVec 64) : AgreeBelow n (VirtualGic.lowBits n v) v := fun j hj => by
  rw [getLsbD_lowBits, decide_eq_true hj, Bool.true_and]

end AgreeBelow

/-! ## What a place sees of a stored value -/

variable {c : Core} {g : RegisterGroup} {b : RegisterBlock} {ls : List Line} {addr v w : BitVec 64}
  {offset width vcpu n : Nat} {frame? : Option Nat}

namespace Vm

variable {vm : Vm}

/-- The fields of an access fit into its width. -/
theorem bits_coveredLines_le (h : vm.coveredLines? vcpu b offset width frame? = some ls) :
    b.fieldBits * ls.length ≤ 8 * width := by
  unfold coveredLines? at h
  simp only at h
  split at h
  next => cases h; exact Nat.zero_le _
  next =>
    split at h
    next => cases h
    next =>
      cases h
      calc
        _ ≤ b.fieldBits * (width * 8 / b.fieldBits) := Nat.mul_le_mul_left _ (length_linesFrom_le _ _)
        _ ≤ 8 * width := Nat.mul_comm width 8 ▸ Nat.mul_div_le _ _

end Vm

/-- The fields of a word are cut from its low bits, one after the other. -/
theorem Core.writeFields_agree : ∀ {ls : List Line} {v w : BitVec 64} {c : Core}, AgreeBelow (n * ls.length) v w →
    writeFields g n ls v c = writeFields g n ls w c
  | [], _, _, _, _ => rfl
  | l :: ls, v, w, c, h => by
    rw [List.length_cons, Nat.mul_succ, Nat.add_comm] at h
    unfold writeFields
    rw [(h.mono (Nat.le_add_right n _)).lowBits]
    exact writeFields_agree h.ushiftRight

theorem RegisterBlock.width_of_allows (h : b.allows addr width = true) :
    width ∈ [1, 2, 4, 8] ∧ b.widths &&& width ≠ 0 := by
  simp only [allows, Bool.and_eq_true, bne_iff_ne] at h
  exact ⟨List.contains_iff_mem.1 h.1.1, h.1.2⟩

/-- The registers that hold no fields of several interrupts have words at least. -/
theorem RegisterBlock.word_of_allows (hb : b ∈ registerLayout) (h : b.allows addr width = true)
    (hg : b.group = .misc ∨ b.group = .softwareInterrupt ∨ b.group = .route) : 4 ≤ width := by
  obtain ⟨hw, hs⟩ := width_of_allows h
  have words : ∀ b ∈ registerLayout, b.group = .misc ∨ b.group = .softwareInterrupt ∨ b.group = .route →
      ∀ width ∈ [1, 2, 4, 8], b.widths &&& width ≠ 0 → 4 ≤ width := by decide
  exact words b hb hg width hw hs

namespace Distributor

/-- How many low bits of a value matter to a store. -/
def Place.bits : Place → Nat
  | .control => 2
  | .softwareInterrupt => 26
  | .route _ none => 64
  | .route _ (some _) => 32
  | .fields _ bits ls => bits * ls.length
  | .type | .implementer | .zero | .identification _ => 0

theorem softwareTargets_agree (vm : Vm) (me : Nat) (h : AgreeBelow 26 v w) :
    softwareTargets vm me v = softwareTargets vm me w := by
  have filter : (v >>> 24).setWidth 2 = (w >>> 24).setWidth 2 := (h.ushiftRight (k := 24) (n := 2)).setWidth
  have named : lowBits 8 (v >>> 16) = lowBits 8 (w >>> 16) :=
    ((h.mono (by decide : 16 + 8 ≤ 26)).ushiftRight).lowBits
  unfold softwareTargets
  rw [filter, named]

theorem mergeRoute_agree (route : BitVec 64) {upper : Bool} (h : AgreeBelow 32 v w) :
    mergeRoute route v (some upper) = mergeRoute route w (some upper) := by
  cases upper with
  | false => exact congrArg ((route >>> 32 <<< 32) ||| ·) h.lowBits
  | true =>
    refine congrArg (· ||| lowBits 32 route) (BitVec.eq_of_getLsbD_eq fun j hj => ?_)
    rw [BitVec.getLsbD_shiftLeft, BitVec.getLsbD_shiftLeft]
    by_cases low : j < 32
    · rw [decide_eq_true low, Bool.not_true, Bool.and_false, Bool.false_and, Bool.false_and]
    · rw [h (j - 32) (by omega)]

/-- **A store sees so many bits of its value and no more.** -/
theorem store_agree : ∀ p : Place, AgreeBelow p.bits v w → store c v p = store c w p
  | .control, h => by
    have enables : v.setWidth 2 = w.setWidth 2 := AgreeBelow.setWidth h
    unfold store storeControl
    simp only [enables]
  | .softwareInterrupt, h => by
    have number : v.setWidth 4 = w.setWidth 4 := (h.mono (by decide : 4 ≤ 26)).setWidth
    unfold store
    simp only [number, softwareTargets_agree c.vm c.vcpu h]
  | .route id none, h => congrArg (c.writeField .route (.shared id) ·) h.eq
  | .route id (some _), h => congrArg (c.writeField .route (.shared id) ·) (mergeRoute_agree _ h)
  | .fields _ _ _, h => Core.writeFields_agree h
  | .type, _ | .implementer, _ | .zero, _ | .identification _, _ => rfl

theorem bits_fieldsPlace?_le {p : Place} (h : fieldsPlace? c b offset width frame? = some p) : p.bits ≤ 8 * width := by
  obtain ⟨ls, hls, rfl⟩ := Option.map_eq_some_iff.1 h
  exact Vm.bits_coveredLines_le hls

theorem bits_routePlace?_le {vm : Vm} {p : Place} (hw : 4 ≤ width) (h : routePlace? vm offset width = some p) :
    p.bits ≤ 8 * width := by
  unfold routePlace? at h
  simp only at h
  split at h
  next => cases h
  next =>
    split at h
    next => cases h; exact Nat.zero_le _
    next =>
      cases h
      split
      next hw8 => rw [eq_of_beq hw8]; exact Nat.le_refl 64
      next => exact Nat.mul_le_mul_left 8 hw

theorem bits_blockPlace?_le {p : Place} (hb : b ∈ registerLayout) (allowed : b.allows addr width = true)
    (h : blockPlace? c b offset width = some p) : p.bits ≤ 8 * width := by
  have word := RegisterBlock.word_of_allows hb allowed
  unfold blockPlace? at h
  split at h
  next hg =>
    have := word (.inl hg)
    cases h
    unfold miscPlace
    split
    next => exact Nat.le_trans (by decide : 2 ≤ 8 * 4) (Nat.mul_le_mul_left 8 this)
    all_goals exact Nat.zero_le _
  next => cases h; exact Nat.zero_le _
  next hg _ =>
    have := word (.inr (.inl hg))
    cases h
    exact Nat.le_trans (by decide : 26 ≤ 8 * 4) (Nat.mul_le_mul_left 8 this)
  next hg _ => exact bits_routePlace?_le (word (.inr (.inr hg))) h
  all_goals first
    | exact bits_fieldsPlace?_le h
    | cases h; exact Nat.zero_le _

/-- **The bits that a store sees lie within the width of its access.** -/
theorem bits_le {p : Place} (h : place? c addr width = some p) : p.bits ≤ 8 * width := by
  rcases place?_cases h with ⟨_, rfl⟩ | ⟨b, hb, allowed, _, h⟩
  · exact Nat.zero_le _
  · exact bits_blockPlace?_le hb allowed h

end Distributor

namespace Redistributor

/-- How many low bits of a value matter to a store. -/
def Place.bits : Place → Nat
  | .wake _ => 2
  | .fields _ bits ls => bits * ls.length
  | .implementer | .type _ _ | .identification _ | .zero => 0

/-- **A store sees so many bits of its value and no more.** -/
theorem store_agree : ∀ p : Place, AgreeBelow p.bits v w → store c v p = store c w p
  | .wake vcpu, h => congrArg (fun asleep => { c with vm := c.vm.setAsleep vcpu asleep }) (h 1 (by decide : 1 < 2))
  | .fields _ _ _, h => Core.writeFields_agree h
  | .implementer, _ | .type _ _, _ | .identification _, _ | .zero, _ => rfl

/-- **The bits that a store sees lie within the width of its access.** -/
theorem bits_le {p : Place} (h : place? c addr width = some p) : p.bits ≤ 8 * width := by
  obtain ⟨vcpu, -, _, control | bank⟩ := place?_cases h
  · obtain ⟨word, inControl⟩ := controlPlace?_cases control
    cases inControl with
    | wake => exact Nat.le_trans (by decide : 2 ≤ 8 * 4) (Nat.mul_le_mul_left 8 word)
    | implementer | type | identification | zero => exact Nat.zero_le _
  · rcases bankPlace?_cases bank with rfl | ⟨b, -, -, ls, hls, rfl⟩
    · exact Nat.zero_le _
    · exact Vm.bits_coveredLines_le hls

end Redistributor

/-! ## Accesses -/

namespace Core

variable {a : Access}

theorem storeWindow?_agree (win : Window) (h : AgreeBelow (8 * width) v w) :
    c.storeWindow? win addr width v = c.storeWindow? win addr width w := by
  cases win with
  | distributor _ =>
    exact Option.map_congr fun p hp => Distributor.store_agree p (h.mono (Distributor.bits_le hp))
  | redistributors _ _ =>
    exact Option.map_congr fun p hp => Redistributor.store_agree p (h.mono (Redistributor.bits_le hp))

/-- **The windows cut what they are handed**: the bits of a value above the width of a store have no effect. -/
theorem store?_agree (m : AddressMap) (h : AgreeBelow (8 * width) v w) :
    c.store? m addr width v = c.store? m addr width w := by
  unfold store?
  cases m.find? (·.contains addr) with
  | none => rfl
  | some win => exact storeWindow?_agree win h

theorem access_load (read : a.write = false) (f : RegisterFile) :
    (c.access a f).2.2 = c ∧ ((c.access a f).2.1 = f ∨ ∃ v, (c.access a f).2.1 = a.finishLoad f v) := by
  rw [access_of_read read]
  cases c.load? c.vm.addressMap a.addr a.width with
  | none => exact ⟨rfl, .inl rfl⟩
  | some v => exact ⟨rfl, .inr ⟨v, rfl⟩⟩

/-- A store hands its register to the windows, of which these see the low bits. -/
theorem access_store (write : a.write = true) (f : RegisterFile) :
    c.access a f = ((c.store? c.vm.addressMap a.addr a.width (f.get a.register)).isSome, f,
      (c.store? c.vm.addressMap a.addr a.width (f.get a.register)).getD c) := by
  have cut : c.store? c.vm.addressMap a.addr a.width (a.stored f) =
      c.store? c.vm.addressMap a.addr a.width (f.get a.register) := store?_agree _ (.lowBits_self _ _)
  rw [access_of_write write, cut]
  cases c.store? c.vm.addressMap a.addr a.width (f.get a.register) <;> rfl

end Core

namespace Machine

variable {m : Machine} {cpu i : Nat}

/-- **Loads change nothing but their register, stores see only their width.** -/
theorem Arises.sees_width (h : m.Arises) (hc : m.core? cpu = some (i, c)) (a : Access) (f : RegisterFile) :
    (a.write = false → (c.access a f).2.2 = c ∧ m.step ⟨cpu, .access a f⟩ = m ∧
      (∀ n ≠ a.register, (c.access a f).2.1.get n = f.get n) ∧ (31 ≤ a.register → (c.access a f).2.1 = f)) ∧
    (a.write = true → (c.access a f).2.1 = f ∧
      ∀ f' : RegisterFile, AgreeBelow (8 * a.width) (f'.get a.register) (f.get a.register) →
        c.store? c.vm.addressMap a.addr a.width (f'.get a.register) =
          c.store? c.vm.addressMap a.addr a.width (f.get a.register) ∧
        c.access a f' = ((c.access a f).1, f', (c.access a f).2.2) ∧
        m.step ⟨cpu, .access a f'⟩ = m.step ⟨cpu, .access a f⟩) := by
  refine ⟨fun read => ?_, fun write => ⟨by rw [Core.access_store write], fun f' agree => ?_⟩⟩
  · obtain ⟨same, file⟩ := Core.access_load (c := c) read f
    refine ⟨same, ?_, fun n hn => ?_, fun high => ?_⟩
    · rw [step_of_core? hc]
      change m.putCore i (c.access a f).2.2 = m
      rw [same]
      exact h.sound.putCore_self hc
    · rcases file with e | ⟨v, e⟩ <;> rw [e]
      exact (RegisterFile.get_set f a.register n _).trans (if_neg fun e => hn e.1.symm)
    · rcases file with e | ⟨v, e⟩ <;> rw [e]
      exact if_neg (Nat.not_lt.2 high)
  · have stored : c.store? c.vm.addressMap a.addr a.width (f'.get a.register) =
        c.store? c.vm.addressMap a.addr a.width (f.get a.register) := Core.store?_agree _ agree
    have done : c.access a f' = ((c.access a f).1, f', (c.access a f).2.2) := by
      rw [Core.access_store write, Core.access_store write, stored]
    refine ⟨stored, done, ?_⟩
    rw [step_of_core? hc, step_of_core? hc]
    change m.putCore i (c.access a f').2.2 = m.putCore i (c.access a f).2.2
    rw [done]

/-- A byte store of a priority and a load of the type register of a redistributor. -/
theorem sees_width_narrow : ∃ c, narrow.core? 0 = some (0, c) ∧
    narrow.step ⟨0, .access ⟨distributorBase + 0x420, 1, true, 3, false, false⟩ (.constant 0x1A0)⟩ =
      narrow.step ⟨0, .access ⟨distributorBase + 0x420, 1, true, 3, false, false⟩ (.constant 0xA0)⟩ ∧
    narrow.step ⟨0, .access ⟨redistributorBase + 8, 8, false, 3, false, true⟩ (.constant 0)⟩ = narrow ∧
    ((c.access ⟨redistributorBase + 8, 8, false, 3, false, true⟩ (.constant 0)).2.1.get 3 = 0x10) := by
  have hc := reachable_narrow.arises.sound.core_of_pcpuOf? (vms_zero (by decide +kernel))
    (show narrow.firstVm.pcpuOf? 0 = some 0 by decide +kernel)
  refine ⟨_, hc,
    (((reachable_narrow.arises.sees_width hc ⟨distributorBase + 0x420, 1, true, 3, false, false⟩ (.constant 0xA0)).2 rfl).2
      (.constant 0x1A0) ?_).2.2,
    ((reachable_narrow.arises.sees_width hc ⟨redistributorBase + 8, 8, false, 3, false, true⟩ (.constant 0)).1 rfl).2.1, ?_⟩
  · intro j hj
    have byte : ∀ j < 8, (0x1A0#64).getLsbD j = (0xA0#64).getLsbD j := by decide
    exact byte j hj
  · decide +kernel

end Machine
end VirtualGic
