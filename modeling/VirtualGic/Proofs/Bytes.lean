import VirtualGic.Proofs.Reach
import VirtualGic.Proofs.Width
import VirtualGic.Proofs.Write
/-!
# Bytes and words

A word of a register with a byte for each interrupt is its four bytes.  A store of the word does what the stores of its
bytes do one after the other, as far as their interrupts are implemented, and a load of the word is made of the loads of its
bytes (`Machine.Arises.word_of_bytes`).
-/
namespace VirtualGic

/-! ## The fields of a word one by one -/

namespace Core

variable {c d : Core} {g : RegisterGroup} {n first : Nat} {ls : List Line} {addr v : BitVec 64}

/-- Writing several fields is writing them one by one. -/
theorem writeFields_eq_foldl (g : RegisterGroup) (n : Nat) : ∀ (m : Nat) (ls : List Line) (v : BitVec 64) (c : Core),
    ls.length ≤ m → writeFields g n ls v c =
      (List.range m).foldl (fun d k => writeFields g n (ls[k]?.toList) (v >>> (n * k)) d) c
  | 0, ls, v, c, h => by
    rw [List.eq_nil_of_length_eq_zero (Nat.le_zero.1 h)]
    rfl
  | m + 1, [], v, c, _ => by
    have idle : ∀ ks : List Nat, ks.foldl (fun d k => writeFields g n ([][k]?.toList) (v >>> (n * k)) d) c = c := fun ks => by
      induction ks with
      | nil => rfl
      | cons k ks ih => exact ih
    exact (idle _).symm
  | m + 1, l :: ls, v, c, h => by
    rw [List.range_succ_eq_map, List.foldl_cons, List.foldl_map]
    have rest := writeFields_eq_foldl g n m ls (v >>> n) (writeFields g n [l] v c) (Nat.le_of_succ_le_succ h)
    simp only [Nat.succ_eq_add_one, List.getElem?_cons_succ, Nat.mul_zero, BitVec.ushiftRight_zero, Nat.mul_succ,
      Nat.add_comm _ n, BitVec.shiftRight_add, List.getElem?_cons_zero, Option.toList_some] at rest ⊢
    exact rest

/-- A word whose fields are bytes, and its bytes as far as their interrupts are implemented. -/
structure Bytewise (c : Core) (addr : BitVec 64) (first : Nat) (g : RegisterGroup) (ls : List Line) : Prop where
  length : ls.length ≤ 4
  has : ∀ l ∈ ls, c.vm.Has l
  beyond : ∀ k < 4, c.vm.interruptCount ≤ first + k → ls[k]? = none
  word : c.Addresses addr 4 g 8 ls
  byte : ∀ k < 4, first + k < c.vm.interruptCount → ∀ d : Core, Same c d →
    d.Addresses (addr + BitVec.ofNat 64 k) 1 g 8 ls[k]?.toList

/-- Storing bytes of a word, each into its own place, is writing their fields. -/
theorem Bytewise.foldl_store (w : c.Bytewise addr first g ls) (hs : c.Stationed) {step : Core → Nat → Core}
    (stores : ∀ k < 4, first + k < c.vm.interruptCount → ∀ d : Core, Same c d →
      d.Addresses (addr + BitVec.ofNat 64 k) 1 g 8 ls[k]?.toList → step d k = writeFields g 8 ls[k]?.toList (v >>> (8 * k)) d)
    (ks : List Nat) (hk : ∀ k ∈ ks, k < 4) (d : Core) (same : Same c d) :
    ks.foldl (fun d k => if decide (first + k < c.vm.interruptCount) then step d k else d) d =
      ks.foldl (fun d k => writeFields g 8 ls[k]?.toList (v >>> (8 * k)) d) d := by
  induction ks generalizing d with
  | nil => rfl
  | cons k ks ih =>
    have hk4 := hk k List.mem_cons_self
    have round : (if decide (first + k < c.vm.interruptCount) then step d k else d) =
        writeFields g 8 ls[k]?.toList (v >>> (8 * k)) d := by
      by_cases implemented : first + k < c.vm.interruptCount
      · rw [if_pos (decide_eq_true implemented)]
        exact stores k hk4 implemented d same (w.byte k hk4 implemented d same)
      · rw [if_neg (by rw [decide_eq_false implemented]; exact Bool.false_ne_true),
          w.beyond k hk4 (Nat.le_of_not_lt implemented)]
        rfl
    have has : ∀ l ∈ ls[k]?.toList, d.vm.Has l := fun l hl =>
      (Vm.has_congr same.partition l).2 (w.has l (List.mem_of_getElem? (Option.mem_toList.1 hl)))
    rw [List.foldl_cons, List.foldl_cons, round]
    exact ih (fun k' hk' => hk k' (List.mem_cons_of_mem k hk')) _
      (same.trans (Strokes.same (composes_strokes.writeFields g 8 _ _ d (hs.same same) has)))

end Core

/-! ## Words of byte registers -/

/-- An aligned word of a register with a byte for each interrupt, whose first interrupt is implemented: priorities, and in
the distributor also targets and requesters. -/
structure Partition.ByteWord (p : Partition) (addr : BitVec 64) (frame? : Option Nat) (offset : Nat) (b : RegisterBlock) :
    Prop where
  located : ∀ k < 4, p.Locates (addr.toNat + k) frame? (offset + k)
  aligned : addr.toNat % 4 = 0
  word : offset % 4 = 0
  block : blockAt? offset = some b
  bytes : b.group = .priority ∨ frame? = none ∧ b.group ∈ [.targets, .clearRequesters, .setRequesters]
  implemented : b.first offset < p.interrupts

namespace Partition.ByteWord

variable {p : Partition} {addr : BitVec 64} {frame? : Option Nat} {offset k : Nat} {b : RegisterBlock}

theorem toNat_add (w : p.ByteWord addr frame? offset b) (hk : k < 4) :
    (addr + BitVec.ofNat 64 k).toNat = addr.toNat + k := by
  have := w.aligned
  have := addr.isLt
  rw [BitVec.toNat_add, BitVec.toNat_ofNat, Nat.mod_eq_of_lt (show k < 2 ^ 64 by omega), Nat.mod_eq_of_lt (by omega)]

/-- The blocks of byte registers. -/
theorem layout (w : p.ByteWord addr frame? offset b) :
    b.fieldBits = 8 ∧ b.widths = 5 ∧ b.base % 4 = 0 ∧ b.size % 4 = 0 := by
  have bytes : ∀ b ∈ registerLayout, b.group ∈ [.priority, .targets, .clearRequesters, .setRequesters] →
      b.fieldBits = 8 ∧ b.widths = 5 ∧ b.base % 4 = 0 ∧ b.size % 4 = 0 := by decide
  refine bytes b (mem_of_blockAt? w.block) ?_
  rcases w.bytes with hg | ⟨-, hg⟩
  · rw [hg]
    exact List.mem_cons_self
  · exact List.mem_cons_of_mem _ hg

theorem first_eq (w : p.ByteWord addr frame? offset b) : b.first offset = offset - b.base := by
  unfold RegisterBlock.first
  rw [w.layout.1, Nat.mul_div_cancel _ (by decide : 0 < 8)]

theorem block_add (w : p.ByteWord addr frame? offset b) (hk : k < 4) :
    blockAt? (offset + k) = some b ∧ b.first (offset + k) = b.first offset + k := by
  obtain ⟨mem, covers⟩ := blockAt?_eq_some_iff.1 w.block
  obtain ⟨bits, -, base, size⟩ := w.layout
  have := RegisterBlock.covers_iff.1 covers
  have := w.word
  refine ⟨blockAt?_of_covers mem (RegisterBlock.covers_iff.2 (by omega)), ?_⟩
  rw [w.first_eq]
  unfold RegisterBlock.first
  rw [bits, Nat.mul_div_cancel _ (by decide : 0 < 8)]
  omega

theorem allows (w : p.ByteWord addr frame? offset b) : b.allows addr 4 = true := by
  refine (RegisterBlock.allows_iff (by decide)).2 ⟨?_, w.aligned⟩
  rw [w.layout.2.1]
  decide

theorem allows_byte (w : p.ByteWord addr frame? offset b) (addr' : BitVec 64) : b.allows addr' 1 = true := by
  refine (RegisterBlock.allows_iff (by decide)).2 ⟨?_, Nat.mod_one _⟩
  rw [w.layout.2.1]
  decide

theorem first_mod (w : p.ByteWord addr frame? offset b) : b.first offset % 4 = 0 := by
  have := w.layout.2.2.1
  have := w.word
  have := (RegisterBlock.covers_iff.1 (blockAt?_eq_some_iff.1 w.block).2).1
  rw [w.first_eq]
  omega

end Partition.ByteWord

namespace Core

variable {c d : Core} {addr : BitVec 64} {frame? : Option Nat} {offset : Nat} {b : RegisterBlock}

/-- Where the window serves the group, the bytes of the word are the fields of its interrupts. -/
theorem bytewise_of_served (hs : c.Stationed) (w : c.vm.partition.ByteWord addr frame? offset b)
    (served : b.group.servedThrough c.vm.version frame? = true) : ∃ ls, c.Bytewise addr (b.first offset) b.group ls := by
  have bits := w.layout.1
  have located : c.vm.partition.Locates addr.toNat frame? offset := w.located 0 (by decide)
  have hv : frame?.getD c.vcpu < c.vm.vcpuCount := by
    cases frame? with
    | none => exact hs.vcpu_lt
    | some frame => exact located.frame_lt
  obtain ⟨ls, hls⟩ := c.vm.exists_coveredLines c.vcpu 4 frame? located.offset_lt w.implemented
  have at_ : ∀ k < 4, ls[k]? = c.vm.servedAt? c.vcpu frame? (b.first offset + k) := fun k hk =>
    Vm.getElem?_coveredLines hls located.offset_lt hv (by rw [bits]; exact w.first_mod) (by rw [bits]; decide)
      (by rw [bits]; exact hk)
  refine ⟨ls, ?_, Vm.has_of_coveredLines hls, fun k hk hle => ?_, ?_, fun k hk implemented d same => ?_⟩
  · have := Vm.length_coveredLines_le hls
    rwa [bits] at this
  · rw [at_ k hk]
    unfold Vm.servedAt?
    rw [Vm.find?_eq_none_of_le hle, ite_self]
  · have := addresses_of_located hs.checked located w.block served w.allows hls
    rwa [bits] at this
  · -- the byte, on a core that has only done something else so far
    obtain ⟨block, first⟩ := w.block_add hk
    have hp := same.partition
    have located : d.vm.partition.Locates (addr + BitVec.ofNat 64 k).toNat frame? (offset + k) := by
      rw [hp, w.toNat_add hk]
      exact w.located k hk
    obtain ⟨bs, hbs⟩ := d.vm.exists_coveredLines d.vcpu 1 frame? located.offset_lt (b := b) (by
      rw [first]
      unfold Vm.interruptCount
      rw [hp]
      exact implemented)
    have single : bs = ls[k]?.toList := by
      have length := Vm.length_coveredLines_le hbs
      have head := Vm.getElem?_coveredLines (k := 0) hbs located.offset_lt
        (by rw [same.vcpu, Vm.vcpuCount_congr hp]; exact hv) (by rw [bits]; exact Nat.mod_one _) (by rw [bits]; decide)
        (by rw [bits]; decide)
      rw [same.vcpu, Vm.servedAt?_congr hp, first, Nat.add_zero, ← at_ k hk] at head
      rw [bits] at length
      rw [← head]
      cases bs with
      | nil => rfl
      | cons l bs => rw [List.eq_nil_of_length_eq_zero (Nat.le_zero.1 (Nat.le_of_succ_le_succ length))]; rfl
    have := addresses_of_located (hs.same same).checked located block
      (by rw [Vm.version_congr hp]; exact served) (w.allows_byte _) hbs
    rwa [bits, single] at this

/-- Under version 3 the distributor has neither targets nor requesters. -/
theorem bytewise_of_zero (hs : c.Stationed) (w : c.vm.partition.ByteWord addr none offset b) (v3 : c.vm.version = .v3)
    (hg : b.group ∈ [.targets, .clearRequesters, .setRequesters]) : c.Bytewise addr (b.first offset) b.group [] := by
  have zero : ∀ (d : Core) (offset width : Nat), d.vm.version = .v3 → Distributor.blockPlace? d b offset width = some .zero :=
    fun d offset width v3 => by
      unfold Distributor.blockPlace?
      rw [v3]
      simp only [List.mem_cons, List.not_mem_nil, or_false] at hg
      rcases hg with hg | hg | hg <;> rw [hg]
  refine ⟨Nat.zero_le _, nofun, fun _ _ _ => rfl, ?_, fun k hk _ d same => ?_⟩
  · exact addresses_zero hs.checked (w.located 0 (by decide)) w.block w.allows (zero c offset 4 v3)
  · have located : d.vm.partition.Locates (addr + BitVec.ofNat 64 k).toNat none (offset + k) := by
      rw [same.partition, w.toNat_add hk]
      exact w.located k hk
    exact addresses_zero (hs.same same).checked located (w.block_add hk).1 (w.allows_byte _)
      (zero d _ 1 (by rw [Vm.version_congr same.partition]; exact v3))

/-- **The bytes of a word are the fields of its interrupts.** -/
theorem bytewise (hs : c.Stationed) (w : c.vm.partition.ByteWord addr frame? offset b) :
    ∃ ls, c.Bytewise addr (b.first offset) b.group ls := by
  rcases w.bytes with hg | ⟨rfl, hg⟩
  · refine bytewise_of_served hs w ?_
    rw [hg]
    cases frame? <;> rfl
  · cases hv : c.vm.version with
    | v2 =>
      refine bytewise_of_served hs w ?_
      rw [hv]
      simp only [List.mem_cons, List.not_mem_nil, or_false] at hg
      rcases hg with hg | hg | hg <;> rw [hg] <;> rfl
    | v3 => exact ⟨[], bytewise_of_zero hs w hv hg⟩

end Core

/-! ## Accesses -/

/-- A byte of what an access covers. -/
def Access.byte (a : Access) (k : Nat) : Access := { a with addr := a.addr + BitVec.ofNat 64 k, width := 1 }

namespace Core

variable {c : Core} {first : Nat} {g : RegisterGroup} {ls : List Line} {a : Access}

/-- The stores of the bytes of a word write its fields. -/
theorem Bytewise.store (w : c.Bytewise a.addr first g ls) (hs : c.Stationed) (four : a.width = 4) (write : a.write = true)
    (f : RegisterFile) {fs : Nat → RegisterFile}
    (bytes : ∀ k < 4, AgreeBelow 8 ((fs k).get a.register) (f.get a.register >>> (8 * k))) :
    c.act (.access a f) = (((List.range 4).filter fun k => decide (first + k < c.vm.interruptCount)).map
      fun k => Action.access (a.byte k) (fs k)).foldl act c := by
  have word : c.act (.access a f) = writeFields g 8 ls (f.get a.register) c := by
    have := congrArg (·.2.2) ((show c.Addresses a.addr a.width g 8 ls from four ▸ w.word).access_store write f)
    refine this.trans (writeFields_agree ((AgreeBelow.lowBits_self _ _).mono ?_))
    rw [four]
    exact Nat.mul_le_mul_left 8 w.length
  rw [List.foldl_map, List.foldl_filter, word, writeFields_eq_foldl g 8 4 ls _ c w.length]
  refine (w.foldl_store hs (fun k hk _ d _ place => ?_) _ (fun k => List.mem_range.1) c (.refl c)).symm
  have := congrArg (·.2.2) (place.access_store (a := a.byte k) write (fs k))
  refine this.trans (writeFields_agree ?_)
  have one : ls[k]?.toList.length ≤ 1 := by cases ls[k]? <;> simp
  refine AgreeBelow.mono (n := 8) (fun j hj => ?_) (Nat.mul_le_mul_left 8 one)
  exact ((AgreeBelow.lowBits_self _ _) j hj).trans (bytes k hk j hj)

theorem concat_bytes {v : BitVec 64} (h : ∀ j, 32 ≤ j → v.getLsbD j = false) :
    ((v >>> (8 * 3)).setWidth 8 ++ (v >>> (8 * 2)).setWidth 8 ++ (v >>> (8 * 1)).setWidth 8 ++
      (v >>> (8 * 0)).setWidth 8).setWidth 64 = v := by
  refine BitVec.eq_of_getLsbD_eq fun j hj => ?_
  by_cases low : j < 32
  · simp only [BitVec.getLsbD_setWidth, BitVec.getLsbD_append, BitVec.getLsbD_ushiftRight, hj, decide_true, Bool.true_and]
    grind
  · rw [h j (Nat.le_of_not_lt low), BitVec.getLsbD_setWidth, BitVec.getLsbD_of_ge _ j (Nat.le_of_not_lt low), Bool.and_false]

/-- The loads of the bytes of a word are its bytes. -/
theorem Bytewise.load (w : c.Bytewise a.addr first g ls) (four : a.width = 4) (read : a.write = false) (f : RegisterFile) :
    ∃ bytes : Nat → BitVec 8,
      c.access a f = (true, a.finishLoad f ((bytes 3 ++ bytes 2 ++ bytes 1 ++ bytes 0).setWidth 64), c) ∧
      ∀ k < 4, if first + k < c.vm.interruptCount then
          c.access (a.byte k) f = (true, (a.byte k).finishLoad f ((bytes k).setWidth 64), c)
        else bytes k = 0 := by
  have upper : ∀ j, 32 ≤ j → (c.readFields g 8 ls).getLsbD j = false := fun j hj =>
    getLsbD_readFields_of_le (Nat.le_trans (Nat.mul_le_mul_left 8 w.length) hj)
  refine ⟨fun k => (c.readFields g 8 ls >>> (8 * k)).setWidth 8, ?_, fun k hk => ?_⟩
  · rw [concat_bytes upper]
    exact (show c.Addresses a.addr a.width g 8 ls from four ▸ w.word).access_load read f
  · have shown : ((c.readFields g 8 ls >>> (8 * k)).setWidth 8).setWidth 64 = c.readFields g 8 ls[k]?.toList := by
      refine (field_readFields (Nat.mul_le_mul_left 8 (Nat.le_trans hk (by decide : 4 ≤ 8)))).trans ?_
      cases ls[k]? with
      | none => rfl
      | some l => exact (readFields_singleton l).symm
    split
    next implemented =>
      rw [shown]
      exact (w.byte k hk implemented c (.refl c)).access_load (a := a.byte k) read f
    next beyond =>
      rw [w.beyond k hk (Nat.le_of_not_lt beyond)] at shown
      have zero := congrArg (BitVec.setWidth 8) shown
      rwa [BitVec.setWidth_setWidth_of_le _ (by decide : 8 ≤ 64), BitVec.setWidth_eq] at zero

end Core

namespace Machine

variable {m : Machine} {cpu i : Nat} {c : Core} {frame? : Option Nat} {offset : Nat} {b : RegisterBlock}

/-- What a CPU does on its own happens on its core. -/
theorem Arises.run_core (h : m.Arises) (hc : m.core? cpu = some (i, c)) (as : List Action) (ha : ∀ a ∈ as, a ≠ .poll) :
    (as.foldl Core.act c).cpu = cpu ∧ m.run (as.map (⟨cpu, ·⟩)) = m.putCore i (as.foldl Core.act c) := by
  induction as generalizing m c with
  | nil => exact ⟨cpu_of_core? hc, (h.sound.putCore_self hc).symm⟩
  | cons a as ih =>
    have own := (Core.act_runs (h.sound.core hc) (ha a List.mem_cons_self)).local_
    have stepped := step_of_core? hc a
    obtain ⟨hcpu, rest⟩ := ih (h.step ⟨cpu, a⟩) (by rw [stepped]; exact core?_putCore hc own.cpu own.vcpu)
      fun b hb => ha b (List.mem_cons_of_mem a hb)
    refine ⟨hcpu, rest.trans ?_⟩
    rw [stepped, h.sound.putCore_putCore hc (own.cpu.trans (cpu_of_core? hc)) hcpu]
    rfl

/-- **A word is its bytes.**  Storing a word does what storing its bytes does, lowest address first, as far as their
interrupts are implemented.  Loading it gives the bytes that are loaded one by one, zero where there is no interrupt. -/
theorem Arises.word_of_bytes (h : m.Arises) (hc : m.core? cpu = some (i, c)) (a : Access) (four : a.width = 4)
    (word : c.vm.partition.ByteWord a.addr frame? offset b) (f : RegisterFile) :
    (a.write = true → ∀ fs : Nat → RegisterFile,
      (∀ k < 4, AgreeBelow 8 ((fs k).get a.register) (f.get a.register >>> (8 * k))) →
      m.step ⟨cpu, .access a f⟩ = m.run (((List.range 4).filter fun k =>
        decide (b.first offset + k < c.vm.interruptCount)).map fun k => ⟨cpu, .access (a.byte k) (fs k)⟩)) ∧
    (a.write = false → ∃ bytes : Nat → BitVec 8,
      c.access a f = (true, a.finishLoad f ((bytes 3 ++ bytes 2 ++ bytes 1 ++ bytes 0).setWidth 64), c) ∧
      ∀ k < 4, if b.first offset + k < c.vm.interruptCount then
          c.access (a.byte k) f = (true, (a.byte k).finishLoad f ((bytes k).setWidth 64), c)
        else bytes k = 0) := by
  have station := (h.sound.core hc).station
  obtain ⟨ls, w⟩ := Core.bytewise station word
  refine ⟨fun write fs bytes => ?_, fun read => w.load four read f⟩
  have stores := w.store station four write f bytes
  have run := (h.run_core hc (((List.range 4).filter fun k => decide (b.first offset + k < c.vm.interruptCount)).map
    fun k => Action.access (a.byte k) (fs k)) fun a ha => by
      obtain ⟨k, -, rfl⟩ := List.mem_map.1 ha
      exact nofun).2
  rw [List.map_map] at run
  rw [step_of_core? hc, stores]
  exact run.symm

/-- The interrupts end in the middle of a word of priorities. -/
def ragged : Machine := started 1 [1] [.standard .v2 1 50 [0] []]

theorem reachable_ragged : ragged.Reachable := reachable_started (by decide +kernel)

/-- The word of priorities that starts with interrupt 48. -/
def lastWord (write : Bool) : Access := ⟨distributorBase + 0x430, 4, write, 0, false, false⟩

theorem word_of_bytes_ragged : ∃ c, ragged.core? 0 = some (0, c) ∧
    ragged.step ⟨0, .access (lastWord true) (.constant 0x40302010)⟩ = ragged.run
      ([0, 1].map fun k => ⟨0, .access ((lastWord true).byte k) (.constant (0x40302010#64 >>> (8 * k)))⟩) ∧
    ∃ bytes : Nat → BitVec 8, bytes 2 = 0 ∧ bytes 3 = 0 ∧ c.access (lastWord false) (.constant 7) =
      (true, (lastWord false).finishLoad (.constant 7) ((bytes 3 ++ bytes 2 ++ bytes 1 ++ bytes 0).setWidth 64), c) := by
  have hc := reachable_ragged.arises.sound.core_of_pcpuOf? (vms_zero (by decide +kernel))
    (show ragged.firstVm.pcpuOf? 0 = some 0 by decide +kernel)
  have table : ragged.firstVm.partition = .standard .v2 1 50 [0] [] := by decide +kernel
  have word (write : Bool) :
      ragged.firstVm.partition.ByteWord (lastWord write).addr none 0x430 ⟨.priority, 0x400, 0x400, 5, 8⟩ := by
    rw [table]
    cases write <;> exact ⟨by decide +kernel, by decide, by decide, by decide, .inl rfl, by decide⟩
  have count : ragged.firstVm.interruptCount = 50 := congrArg Partition.interrupts table
  refine ⟨_, hc, ((reachable_ragged.arises.word_of_bytes hc (lastWord true) rfl (word true) (.constant 0x40302010)).1 rfl
    (fun k => .constant (0x40302010#64 >>> (8 * k))) fun k _ j _ => rfl).trans ?_, ?_⟩
  · simp only [count]
    rfl
  · obtain ⟨bytes, loaded, each⟩ :=
      (reachable_ragged.arises.word_of_bytes hc (lastWord false) rfl (word false) (.constant 7)).2 rfl
    have beyond (k : Nat) (hk : k < 4) (hle : 2 ≤ k) : bytes k = 0 := by
      have := each k hk
      rwa [if_neg (by
        simp only [count]
        exact Nat.not_lt.2 (Nat.add_le_add_left hle 48))] at this
    exact ⟨bytes, beyond 2 (by decide) (by decide), beyond 3 (by decide) (by decide), loaded⟩

end Machine
end VirtualGic
