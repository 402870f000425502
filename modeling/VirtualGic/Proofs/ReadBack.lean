import VirtualGic.Proofs.Relay
import VirtualGic.Proofs.WellFormed
import VirtualGic.Proofs.Width
/-!
# What is written is read back

A write to a configuration register stores the implemented bits of each field, whatever the writes to the fields before it
bring about elsewhere, and leaves the configuration of all other interrupts alone (`Core.get_writeFields`).  So the
register reads back what `RegisterGroup.settled` says of each field (`Machine.Arises.reads_back`).
-/
namespace VirtualGic

/-! ## One field -/

namespace RegisterGroup

/-- The part of a record's configuration that the group shows. -/
def field? : RegisterGroup → Option ConfigField
  | .group => some .group
  | .setEnable | .clearEnable => some .enable
  | .priority => some .priority
  | .config => some .config
  | .targets => some .targets
  | .route => some .route
  | _ => none

/-- What a configuration field holds after `w` was written where it held `old`: the implemented bits of `w`, or of the two
together where ones set or clear.  Some fields are fixed. -/
def settled (g : RegisterGroup) (vm : Vm) (l : Line) (old w : BitVec 64) : BitVec 64 :=
  match g with
  | .group => w
  | .setEnable => if vm.countsRequesters l then 1 else old ||| w
  | .clearEnable => if vm.countsRequesters l then 1 else old &&& ~~~w
  | .priority => w &&& 0xF8
  | .config => if l.isSoftware then 0b10 else w &&& 0b10
  | .targets => match l.home? with
    | some home => CpuSet.single home
    | none => w &&& vm.vcpuSet
  | .route => w &&& Interrupt.routeMask
  | _ => old

/-- How wide the fields of a configuration register are. -/
def configBits : RegisterGroup → Nat
  | .group | .setEnable | .clearEnable => 1
  | .config => 2
  | .route => 64
  | _ => 8

theorem fieldBits_eq {b : RegisterBlock} (hb : b ∈ registerLayout) (hg : b.group.field? ≠ none) :
    b.fieldBits = b.group.configBits := by
  have widths : ∀ b ∈ registerLayout, b.group.field? ≠ none → b.fieldBits = b.group.configBits := by decide
  exact widths b hb hg

end RegisterGroup

theorem lowBits_eq_self {n : Nat} {v : BitVec 64} (h : ∀ j, n ≤ j → v.getLsbD j = false) : lowBits n v = v := by
  refine BitVec.eq_of_getLsbD_eq fun j _ => ?_
  rw [getLsbD_lowBits]
  by_cases hj : j < n
  · rw [decide_eq_true hj, Bool.true_and]
  · rw [h j (Nat.le_of_not_lt hj), Bool.and_false]

theorem lowBits_setWidth {n k : Nat} (hk : k ≤ n) (v : BitVec k) : lowBits n (v.setWidth 64) = v.setWidth 64 :=
  lowBits_eq_self fun j hj => by rw [BitVec.getLsbD_setWidth, BitVec.getLsbD_of_ge v j (Nat.le_trans hk hj), Bool.and_false]

section Field
variable {c : Core} {vm : Vm} {l : Line} {s : Interrupt} {g : RegisterGroup} {F : ConfigField}

/-- The home of a banked interrupt as a target. -/
theorem Interrupt.Configured.get_banked (h : s.Configured vm l) (checked : vm.partition.Checked) (hl : vm.Has l) {home : Nat}
    (hh : l.home? = some home) : ConfigField.targets.get s = CpuSet.single home := by
  have small : ∀ home < maxCpus, (BitVec.twoPow 8 home).setWidth 64 = CpuSet.single home := by decide
  rw [ConfigField.get, (h.banked home hh).1]
  exact small home (Nat.lt_of_lt_of_le (hl.2.2 home hh) checked.cpus_le)

/-- **A configuration register shows the record.** -/
theorem Core.readField_eq_get (hg : g.field? = some F) (checked : c.vm.partition.Checked) (hl : c.vm.Has l)
    (h : (c.interrupt l).Configured c.vm l) : c.readField g l = F.get (c.interrupt l) := by
  cases g <;> cases hg <;> try rfl
  unfold readField
  cases hh : l.home? with
  | none => rfl
  | some home => exact (h.get_banked checked hl hh).symm

/-- The field is wide enough for what the record holds. -/
theorem Interrupt.Configured.lowBits_get (h : s.Configured vm l) (hg : g.field? = some F) :
    lowBits g.configBits (F.get s) = F.get s := by
  cases g <;> cases hg
  case group | setEnable | clearEnable => exact lowBits_setWidth (Nat.le_refl 1) _
  case priority | targets => exact lowBits_setWidth (Nat.le_refl 8) _
  case config =>
    rcases h.config with e | e <;> rw [ConfigField.get, e] <;> rfl
  case route => exact lowBits_eq_self fun j hj => BitVec.getLsbD_of_ge _ j hj

theorem lowBits_one (v : BitVec 64) : lowBits 1 v = Core.bitWord (v.getLsbD 0) := by
  refine BitVec.eq_of_getLsbD_eq fun j hj => ?_
  unfold Core.bitWord
  rw [getLsbD_lowBits, BitVec.getLsbD_setWidth, BitVec.getLsbD_ofBool, decide_eq_true hj, Bool.true_and]
  rcases Nat.eq_zero_or_pos j with rfl | hpos
  · rfl
  · rw [decide_eq_false (Nat.not_lt.2 hpos), Bool.false_and, decide_eq_false (Nat.ne_of_gt hpos), Bool.false_and]

/-- Masking a field before or after it is widened is the same. -/
theorem setWidth_and_lowBits {n k : Nat} (hk : n ≤ k) (v : BitVec 64) (mask : BitVec k) :
    ((lowBits n v).setWidth k &&& mask).setWidth 64 = lowBits n v &&& mask.setWidth 64 := by
  refine BitVec.eq_of_getLsbD_eq fun j hj => ?_
  simp only [BitVec.getLsbD_setWidth, BitVec.getLsbD_and, getLsbD_lowBits, hj, decide_true, Bool.true_and]
  by_cases hn : j < n
  · simp [hn, Nat.lt_of_lt_of_le hn hk]
  · simp [hn]

/-- **A field holds what it settles to**, whatever was written. -/
theorem Interrupt.Configured.stores (h : s.Configured vm l) (checked : vm.partition.Checked) (hl : vm.Has l)
    (hg : g.field? = some F) (shared : g = .route → l.home? = none) (v : BitVec 64) :
    (F.stores? vm l g (lowBits g.configBits v)).getD (F.get s) =
      g.settled vm l (F.get s) (lowBits g.configBits v) := by
  cases g <;> cases hg
  case group =>
    show Core.bitWord ((lowBits 1 v).getLsbD 0) = lowBits 1 v
    rw [lowBits_one]
    cases v.getLsbD 0 <;> rfl
  case setEnable =>
    show ((if lowBits 1 v == 0 then none else some (Core.bitWord true)).getD (Core.bitWord s.enabled)) =
      if vm.countsRequesters l then 1 else Core.bitWord s.enabled ||| lowBits 1 v
    rw [lowBits_one]
    cases counts : vm.countsRequesters l with
    | true => rw [h.enabled counts]; cases v.getLsbD 0 <;> rfl
    | false => cases v.getLsbD 0 <;> cases s.enabled <;> rfl
  case clearEnable =>
    show ((if lowBits 1 v == 0 || vm.countsRequesters l then none else some (Core.bitWord false)).getD
        (Core.bitWord s.enabled)) =
      if vm.countsRequesters l then 1 else Core.bitWord s.enabled &&& ~~~(lowBits 1 v)
    rw [lowBits_one]
    cases counts : vm.countsRequesters l with
    | true => rw [h.enabled counts, Bool.or_true]; rfl
    | false => cases v.getLsbD 0 <;> cases s.enabled <;> rfl
  case priority => exact setWidth_and_lowBits (Nat.le_refl 8) v Interrupt.priorityMask
  case config =>
    show ((if l.isSoftware then none else some (((lowBits 2 v).setWidth 8 &&& Interrupt.edgeTriggered).setWidth 64)).getD
        (s.config.setWidth 64)) = if l.isSoftware then 0b10 else lowBits 2 v &&& 0b10
    cases soft : l.isSoftware with
    | true => rw [h.software soft]; rfl
    | false => exact setWidth_and_lowBits (by decide : 2 ≤ 8) v Interrupt.edgeTriggered
  case targets =>
    show ((if l.isBanked then none else some ((RegisterGroup.vcpusIn vm (lowBits 8 v)).setWidth 64)).getD
      (ConfigField.targets.get s)) = match l.home? with
        | some home => CpuSet.single home
        | none => lowBits 8 v &&& vm.vcpuSet
    cases hh : l.home? with
    | some home =>
      rw [Line.isBanked, hh]
      exact h.get_banked checked hl hh
    | none =>
      rw [Line.isBanked, hh]
      refine lowBits_eq_self fun j hj => ?_
      rw [BitVec.getLsbD_and, getLsbD_lowBits, decide_eq_false (Nat.not_lt.2 hj), Bool.false_and, Bool.false_and]
  case route =>
    have single : l.isBanked = false := by rw [Line.isBanked, shared rfl]; rfl
    show ((if l.isBanked then none else some (lowBits 64 v &&& Interrupt.routeMask)).getD s.route) = _
    rw [single]
    rfl

end Field

/-! ## All fields of an access -/

namespace Core

variable {c : Core} {l m : Line} {F : ConfigField} {g : RegisterGroup} {n : Nat}

/-- What does nothing when zero is written stores nothing then. -/
theorem stores?_zero (ignores : g.ignoresZero = true) (vm : Vm) (l : Line) : F.stores? vm l g 0 = none := by
  cases g <;> cases ignores <;> cases F <;> rfl

/-- **A write to a field changes the configuration of its interrupt only**, wherever that and the others go. -/
theorem get_writeField (h : c.Sound) (hl : c.vm.Has l) (may : c.mayClaim l = true) (g : RegisterGroup) (v : BitVec 64)
    (hm : c.vm.Has m) : F.get ((c.writeField g l v).interrupt m) =
      if m = l then (F.stores? c.vm l g v).getD (F.get (c.interrupt l)) else F.get (c.interrupt m) := by
  obtain ⟨s, handled, made⟩ := handled_applyField h hl may g v
  rw [writeField, if_pos may]
  split
  next e =>
    subst e
    have := handled.get (F := F) (d := some (.write g m v)) made (by rintro a ⟨⟩; rfl)
    rw [this, Option.bind_some]
    exact congrArg (Option.getD · _) (if_pos rfl)
  next e => exact ConfigField.get_congr (handled.frame.fate m hm e).settings

/-- Writing one of several fields, if that has any effect. -/
def writeOne (g : RegisterGroup) (l : Line) (v : BitVec 64) (c : Core) : Core :=
  if v == 0 && g.ignoresZero then c else c.writeField g l v

theorem writeOne_spec (h : c.Sound) (hl : c.vm.Has l) (may : c.mayClaim l = true) (g : RegisterGroup) (v : BitVec 64) :
    (writeOne g l v c).Sound ∧ Local c (writeOne g l v c) ∧ ∀ m, c.vm.Has m → F.get ((writeOne g l v c).interrupt m) =
      if m = l then (F.stores? c.vm l g v).getD (F.get (c.interrupt l)) else F.get (c.interrupt m) := by
  unfold writeOne
  split
  next idle =>
    rw [Bool.and_eq_true, beq_iff_eq] at idle
    refine ⟨h, .refl c, fun m _ => ?_⟩
    rw [idle.1, stores?_zero idle.2]
    split
    next e => rw [e]; rfl
    next => rfl
  next =>
    have does := does_writeField h hl g v
    exact ⟨does.sound h, does.local_, fun m hm => get_writeField h hl may g v hm⟩

/-- **Each field that is written holds what it stores, and the configuration of the other interrupts stays.** -/
theorem get_writeFields (n : Nat) : ∀ (ls : List Line) (v : BitVec 64) (c : Core), c.Sound → (∀ l ∈ ls, c.vm.Has l) →
    (∀ l ∈ ls, c.mayClaim l = true) → ls.Nodup →
    (∀ k l, ls[k]? = some l → F.get ((writeFields g n ls v c).interrupt l) =
      (F.stores? c.vm l g (lowBits n (v >>> (n * k)))).getD (F.get (c.interrupt l))) ∧
    ∀ m, c.vm.Has m → m ∉ ls → F.get ((writeFields g n ls v c).interrupt m) = F.get (c.interrupt m)
  | [], _, _, _, _, _, _ => ⟨nofun, fun _ _ _ => rfl⟩
  | l :: ls, v, c, h, has, may, nodup => by
    obtain ⟨fresh, nodup⟩ := List.nodup_cons.1 nodup
    obtain ⟨sound, own, first⟩ := writeOne_spec (F := F) h (has l List.mem_cons_self) (may l List.mem_cons_self) g
      (lowBits n v)
    have hasRest : ∀ k ∈ ls, c.vm.Has k := fun k hk => has k (List.mem_cons_of_mem l hk)
    obtain ⟨fields, others⟩ := get_writeFields n ls (v >>> n) (writeOne g l (lowBits n v) c) sound
      (fun k hk => (Vm.has_congr own.partition k).2 (hasRest k hk))
      (fun k hk => (own.mayClaim (hasRest k hk)).trans (may k (List.mem_cons_of_mem l hk))) nodup
    have same : writeFields g n (l :: ls) v c = writeFields g n ls (v >>> n) (writeOne g l (lowBits n v) c) := rfl
    rw [same]
    refine ⟨fun k j hj => ?_, fun m hm hnot => ?_⟩
    · cases k with
      | zero =>
        obtain rfl : l = j := Option.some.inj hj
        have hl := has l List.mem_cons_self
        rw [others l ((Vm.has_congr own.partition l).2 hl) fresh, first l hl, if_pos rfl, Nat.mul_zero,
          BitVec.ushiftRight_zero]
      | succ k =>
        have hj : ls[k]? = some j := hj
        have mem := List.mem_of_getElem? hj
        rw [fields k j hj, ConfigField.stores?_congr own.partition, first j (hasRest j mem),
          if_neg fun e : j = l => fresh (e ▸ mem), ← BitVec.shiftRight_add, Nat.mul_succ, Nat.add_comm n]
    · have ne : m ≠ l := fun e => hnot (e ▸ List.mem_cons_self)
      rw [others m ((Vm.has_congr own.partition m).2 hm) fun hmem => hnot (List.mem_cons_of_mem l hmem), first m hm,
        if_neg ne]

end Core

/-! ## Configuration registers -/

/-- The group configures interrupts: routes under version 3, as doublewords of the distributor, targets under version 2. -/
def RegisterGroup.configures (version : GicVersion) (frame? : Option Nat) (width : Nat) : RegisterGroup → Bool
  | .group | .setEnable | .clearEnable | .priority | .config => true
  | .targets => version == .v2
  | .route => version == .v3 && frame?.isNone && width == 8
  | _ => false

/-- The windows are aligned to doublewords. -/
structure Partition.Aligned (p : Partition) : Prop where
  distributor : p.distributor.toNat % 8 = 0
  redistributor : p.version = .v3 → p.redistributor.toNat % 8 = 0

theorem Partition.Locates.aligned {p : Partition} {addr offset width : Nat} {frame? : Option Nat}
    (located : p.Locates addr frame? offset) (aligned : p.Aligned) (hw : width ∈ [1, 2, 4, 8]) (ha : addr % width = 0) :
    offset % width = 0 := by
  have divides : 8 % width = 0 := (by decide : ∀ width ∈ [1, 2, 4, 8], 8 % width = 0) width hw
  have base : ∃ base, base % 8 = 0 ∧ addr = base + offset := by
    cases frame? with
    | none => exact ⟨_, aligned.distributor, located.2.2⟩
    | some frame =>
      have divides := aligned.redistributor located.version
      obtain ⟨-, -, -, -, e⟩ := located
      refine ⟨p.redistributor.toNat + (redistributorStride * frame + Redistributor.frameSize), ?_, by omega⟩
      unfold redistributorStride Redistributor.frameSize
      omega
  obtain ⟨base, hbase, rfl⟩ := base
  obtain ⟨q, rfl⟩ := Nat.dvd_of_mod_eq_zero hbase
  obtain ⟨r, hr⟩ := Nat.dvd_of_mod_eq_zero divides
  rw [hr, Nat.mul_assoc, Nat.mul_add_mod] at ha
  exact ha

section Blocks
variable {version : GicVersion} {frame? : Option Nat} {b : RegisterBlock} {addr : BitVec 64} {offset width : Nat}

theorem RegisterGroup.field_of_configures {g : RegisterGroup} (h : g.configures version frame? width = true) :
    g.field? ≠ none ∧ (g = .route → version = .v3 ∧ frame? = none ∧ width = 8) := by
  cases g
  case route =>
    rw [configures, Bool.and_eq_true, Bool.and_eq_true, beq_iff_eq, Option.isNone_iff_eq_none, beq_iff_eq] at h
    exact ⟨nofun, fun _ => ⟨h.1.1, h.1.2, h.2⟩⟩
  all_goals first | (cases h; done) | exact ⟨nofun, nofun⟩

theorem RegisterGroup.served_of_configures {g : RegisterGroup} (h : g.configures version frame? width = true)
    (other : g ≠ .route) (frames : frame? ≠ none → version = .v3) : g.servedThrough version frame? = true := by
  cases g
  case route => exact absurd rfl other
  case targets =>
    have v2 : version = .v2 := eq_of_beq h
    subst v2
    cases frame? with
    | none => rfl
    | some frame => cases frames nofun
  all_goals first | (cases frame? <;> rfl) | cases h

/-- The fields of an access fill its width, and their first interrupt is a multiple of their number. -/
theorem fills_of_configures (hb : b ∈ registerLayout) (h : b.group.configures version frame? width = true)
    (allowed : b.allows addr width = true) (covers : b.covers offset = true) (aligned : offset % width = 0) :
    b.first offset % (width * 8 / b.fieldBits) = 0 ∧ privateInterrupts % (width * 8 / b.fieldBits) = 0 ∧
      b.fieldBits * (width * 8 / b.fieldBits) = 8 * width := by
  obtain ⟨config, route⟩ := RegisterGroup.field_of_configures h
  obtain ⟨hw, permitted⟩ := RegisterBlock.width_of_allows allowed
  have shapes : ∀ b ∈ registerLayout, b.group.field? ≠ none → b.base % 8 = 0 ∧ ∀ width ∈ [1, 2, 4, 8],
      b.widths &&& width ≠ 0 → (b.group = .route → width = 8) →
      (b.fieldBits, width) ∈ [(1, 4), (8, 1), (8, 4), (2, 4), (64, 8)] := by decide
  obtain ⟨hbase, shape⟩ := shapes b hb config
  have shape := shape width hw permitted fun e => (route e).2.2
  have hle := (RegisterBlock.covers_iff.1 covers).1
  unfold RegisterBlock.first privateInterrupts
  simp only [List.mem_cons, Prod.mk.injEq, List.not_mem_nil, or_false] at shape
  rcases shape with ⟨bits, rfl⟩ | ⟨bits, rfl⟩ | ⟨bits, rfl⟩ | ⟨bits, rfl⟩ | ⟨bits, rfl⟩ <;> rw [bits] <;> omega

end Blocks

namespace Core

variable {c d : Core} {a : Access} {f : RegisterFile} {frame? : Option Nat} {b : RegisterBlock} {offset : Nat}

/-- The interrupts whose fields an access reaches, of those that lie in its width. -/
structure Fields (c : Core) (a : Access) (frame? : Option Nat) (b : RegisterBlock) (first : Nat) (ls : List Line) : Prop where
  addresses : ∀ d, Same c d → d.Addresses a.addr a.width b.group b.fieldBits ls
  has : ∀ l ∈ ls, c.vm.Has l
  nodup : ls.Nodup
  shared : b.group = .route → ∀ l ∈ ls, l.home? = none
  length : ls.length ≤ a.width * 8 / b.fieldBits
  served : ∀ k < a.width * 8 / b.fieldBits, ls[k]? = c.vm.servedAt? c.vcpu frame? (first + k)

theorem fields_of_block (hs : c.Stationed) (aligned : c.vm.partition.Aligned)
    (located : c.vm.partition.Locates a.addr.toNat frame? offset) (hb : blockAt? offset = some b)
    (config : b.group.configures c.vm.version frame? a.width = true) (other : b.group ≠ .route)
    (handled : (c.access a f).1 = true) : ∃ ls, c.Fields a frame? b (b.first offset) ls := by
  obtain ⟨mem, covers⟩ := blockAt?_eq_some_iff.1 hb
  have frames : frame? ≠ none → c.vm.version = .v3 := fun some => by
    cases frame? with
    | none => exact absurd rfl some
    | some frame => exact located.version
  have served := RegisterGroup.served_of_configures config other frames
  have allowed := allowed_of_handled hs.checked located hb handled
  obtain ⟨hw, -⟩ := RegisterBlock.width_of_allows allowed
  have natural := ((RegisterBlock.allows_iff hw).1 allowed).2
  obtain ⟨first, divides, -⟩ := fills_of_configures mem config allowed covers (located.aligned aligned hw natural)
  obtain ⟨ls, hls⟩ := covered_of_handled hs.checked located hb served handled
  have hv : frame?.getD c.vcpu < c.vm.vcpuCount := by
    cases frame? with
    | none => exact hs.vcpu_lt
    | some frame => exact located.frame_lt
  refine ⟨ls, fun d same => ?_, Vm.has_of_coveredLines hls, Vm.nodup_of_coveredLines hls, fun e => absurd e other,
    Vm.length_coveredLines_le hls, fun k hk => Vm.getElem?_coveredLines hls located.offset_lt hv first divides hk⟩
  have hp := same.partition
  exact addresses_of_located (hs.same same).checked (by rw [hp]; exact located) hb
    (by rw [Vm.version_congr hp]; exact served) allowed (by rw [Vm.coveredLines?_congr hp, same.vcpu]; exact hls)

/-- All of a route is a field of 64 bits. -/
theorem addresses_route {addr : BitVec 64} {width id : Nat} (checked : c.vm.partition.Checked)
    (located : c.vm.partition.Locates addr.toNat none offset) (hb : blockAt? offset = some b)
    (allowed : b.allows addr width = true) (place : Distributor.blockPlace? c b offset width = some (.route id none)) :
    c.Addresses addr width .route 64 [.shared id] := by
  have whole (v : BitVec 64) : lowBits 64 v = v := lowBits_eq_self fun j hj => BitVec.getLsbD_of_ge v j hj
  have place : Distributor.place? c addr width = some (.route id none) := by
    rw [Distributor.place?_of_located located hb, if_pos allowed, place]
  refine ⟨?_, fun v => ?_⟩
  · rw [load?_of_window checked located, readFields_singleton, whole]
    exact congrArg (Option.map (Distributor.load c)) place
  · have write : writeFields .route 64 [.shared id] v c = c.writeField .route (.shared id) v := by
      unfold writeFields
      rw [whole]
      simp only [RegisterGroup.ignoresZero, Bool.and_false, Bool.false_eq_true, if_false]
      rfl
    rw [store?_of_window checked located, write]
    exact congrArg (Option.map (Distributor.store c v)) place

/-- A route register is a field of its own, which the distributor has for shared interrupts. -/
theorem fields_of_route (hs : c.Stationed) (located : c.vm.partition.Locates a.addr.toNat frame? offset)
    (hb : blockAt? offset = some b) (config : b.group.configures c.vm.version frame? a.width = true)
    (route : b.group = .route) (handled : (c.access a f).1 = true) : ∃ ls, c.Fields a frame? b (b.first offset) ls := by
  obtain ⟨v3, rfl, width⟩ := (RegisterGroup.field_of_configures config).2 route
  have allowed := allowed_of_handled hs.checked located hb handled
  have layout : b.base = 0x6000 ∧ b.fieldBits = 64 :=
    (by decide : ∀ b ∈ registerLayout, b.group = .route → b.base = 0x6000 ∧ b.fieldBits = 64) b (mem_of_blockAt? hb) route
  have first : (offset - 0x6000) / 8 = b.first offset := by
    unfold RegisterBlock.first
    rw [layout.1, layout.2]
    omega
  have places (d : Core) (same : Same c d) :
      Distributor.blockPlace? d b offset a.width = Distributor.routePlace? c.vm offset a.width := by
    have v3 : d.vm.version = .v3 := by rw [Vm.version_congr same.partition]; exact v3
    unfold Distributor.blockPlace? Distributor.routePlace? Vm.interruptCount
    rw [route, v3, same.partition]
  have implemented : b.first offset < c.vm.interruptCount := by
    rw [access_fst, Vm.find?_window hs.checked located, Option.any_some] at handled
    have handled : (Distributor.place? c a.addr a.width).isSome = true := handled
    rw [Distributor.place?_of_located located hb, if_pos allowed, places c (.refl c),
      Distributor.routePlace?_isSome c.vm layout.1 layout.2] at handled
    exact handled
  have one : a.width * 8 / b.fieldBits = 1 := by rw [width, layout.2]
  unfold Distributor.routePlace? at places
  simp only [first, if_neg (Nat.not_le.2 implemented), width, beq_self_eq_true, if_true] at places
  have hd (d : Core) (same : Same c d) : d.vm.partition.Locates a.addr.toNat none offset := by
    rw [same.partition]
    exact located
  cases hp : isPrivateId (b.first offset) with
  | true =>
    refine ⟨[], fun d same => addresses_zero (hs.same same).checked (hd d same) hb allowed ?_, nofun, List.nodup_nil,
      fun _ => nofun, Nat.zero_le _, fun k hk => ?_⟩
    · rw [width, places d same, if_pos hp]
    · rw [one] at hk
      rw [Nat.lt_one_iff.1 hk]
      exact (if_pos ⟨v3, by rw [Nat.add_zero, hp]; exact nofun⟩).symm
  | false =>
    have shared : privateInterrupts ≤ b.first offset := Nat.le_of_not_lt (of_decide_eq_false hp)
    refine ⟨[.shared (b.first offset)], fun d same => ?_, ?_, List.nodup_cons.2 ⟨nofun, List.nodup_nil⟩, ?_,
      Nat.le_of_eq one.symm, fun k hk => ?_⟩
    · rw [route, layout.2]
      refine addresses_route (hs.same same).checked (hd d same) hb allowed ?_
      rw [width, places d same, if_neg (by rw [hp]; exact Bool.false_ne_true)]
    · intro l hl
      rw [List.mem_singleton.1 hl]
      exact ⟨implemented, ⟨nofun, fun h => absurd h (Nat.not_lt.2 shared)⟩, nofun⟩
    · intro _ l hl
      rw [List.mem_singleton.1 hl]
      rfl
    · rw [one] at hk
      rw [Nat.lt_one_iff.1 hk, Nat.add_zero, Vm.servedAt?, if_neg fun h => h.2 (by rw [hp]; rfl), Vm.find?,
        if_neg (Nat.not_le.2 implemented), if_neg (by rw [hp]; exact Bool.false_ne_true)]
      rfl

/-- **An access to a configuration register reaches the fields of the interrupts that its window serves.** -/
theorem fields_of_configures (hs : c.Stationed) (aligned : c.vm.partition.Aligned)
    (located : c.vm.partition.Locates a.addr.toNat frame? offset) (hb : blockAt? offset = some b)
    (config : b.group.configures c.vm.version frame? a.width = true) (handled : (c.access a f).1 = true) :
    ∃ ls, c.Fields a frame? b (b.first offset) ls := by
  by_cases route : b.group = .route
  · exact fields_of_route hs located hb config route handled
  · exact fields_of_block hs aligned located hb config route handled

end Core

/-! ## Reading back -/

namespace Core

variable {c : Core} {a : Access} {f : RegisterFile} {frame? : Option Nat} {b : RegisterBlock} {first k : Nat} {l : Line}
  {ls : List Line} {F : ConfigField}

/-- The field that a store writes is cut from the register, whatever is above the width. -/
theorem field_stored {n : Nat} (fits : n * (k + 1) ≤ 8 * a.width) :
    lowBits n (a.stored f >>> (n * k)) = lowBits n (f.get a.register >>> (n * k)) := by
  have cut := AgreeBelow.lowBits_self (8 * a.width) (f.get a.register)
  exact (cut.mono (show n * k + n ≤ 8 * a.width from fits)).ushiftRight.lowBits

/-- Each field that was written is read back as what it settles to. -/
theorem Fields.reads_settled (fields : c.Fields a frame? b first ls) (hs : c.Sound) (mem : b ∈ registerLayout)
    (hF : b.group.field? = some F) (fills : b.fieldBits * (a.width * 8 / b.fieldBits) = 8 * a.width)
    (claim : ∀ l ∈ ls, c.mayClaim l = true) (before : ∀ l ∈ ls, (c.interrupt l).Configured c.vm l) {d : Core}
    (hd : Core.writeFields b.group b.fieldBits ls (a.stored f) c = d) (own : Local c d)
    (after : ∀ l ∈ ls, (d.interrupt l).Configured d.vm l) (hk : k < a.width * 8 / b.fieldBits) (hl : ls[k]? = some l) :
    lowBits b.fieldBits (d.readField b.group l) = b.group.settled c.vm l (c.readField b.group l)
      (lowBits b.fieldBits (f.get a.register >>> (b.fieldBits * k))) := by
  have hmem := List.mem_of_getElem? hl
  have has := fields.has l hmem
  have checked := hs.station.checked
  have checked' : d.vm.partition.Checked := by rw [own.partition]; exact checked
  have bits := RegisterGroup.fieldBits_eq mem (by rw [hF]; nofun)
  have fits : b.fieldBits * (k + 1) ≤ 8 * a.width := fills ▸ Nat.mul_le_mul_left _ hk
  have written :=
    (get_writeFields (F := F) (g := b.group) b.fieldBits ls (a.stored f) c hs fields.has claim fields.nodup).1 k l hl
  rw [hd, field_stored fits] at written
  rw [readField_eq_get hF checked' ((Vm.has_congr own.partition l).2 has) (after l hmem),
    readField_eq_get hF checked has (before l hmem), bits, (after l hmem).lowBits_get hF, written, bits]
  exact (before l hmem).stores checked has hF (fun route => fields.shared route l hmem) _

end Core

namespace Machine

variable {m : Machine} {cpu i : Nat} {c : Core} {frame? : Option Nat} {b : RegisterBlock} {offset : Nat}

/-- **A configuration register reads back what was written to it**: each field holds what it settles to, fields without an
interrupt that the window serves are zero, and the configuration of all other interrupts is as before. -/
theorem Arises.reads_back (h : m.Arises) (hc : m.core? cpu = some (i, c)) (aligned : c.vm.partition.Aligned) (a : Access)
    (write : a.write = true) (f : RegisterFile) (located : c.vm.partition.Locates a.addr.toNat frame? offset)
    (hb : blockAt? offset = some b) (config : b.group.configures c.vm.version frame? a.width = true)
    (handled : (c.access a f).1 = true)
    (mine : ∀ k < a.width * 8 / b.fieldBits, ∀ l ∈ c.vm.servedAt? c.vcpu frame? (b.first offset + k), c.mayClaim l = true) :
    ∃ d v, (m.step ⟨cpu, .access a f⟩).core? cpu = some (i, d) ∧
      (∀ (r : Access) (f' : RegisterFile), r.addr = a.addr → r.width = a.width → r.write = false →
        d.access r f' = (true, r.finishLoad f' v, d)) ∧
      (∀ k < a.width * 8 / b.fieldBits, lowBits b.fieldBits (v >>> (b.fieldBits * k)) =
        (c.vm.servedAt? c.vcpu frame? (b.first offset + k)).elim 0 fun l =>
          b.group.settled c.vm l (c.readField b.group l)
            (lowBits b.fieldBits (f.get a.register >>> (b.fieldBits * k)))) ∧
      (∀ l, c.vm.Has l → (∀ k < a.width * 8 / b.fieldBits, c.vm.servedAt? c.vcpu frame? (b.first offset + k) ≠ some l) →
        ∀ F : ConfigField, F.get (d.interrupt l) = F.get (c.interrupt l)) ∧
      ∀ j ≠ i, (m.step ⟨cpu, .access a f⟩).vms[j]? = m.vms[j]? := by
  have hs := h.sound.core hc
  obtain ⟨ls, fields⟩ := Core.fields_of_configures hs.station aligned located hb config handled
  have stored := (fields.addresses c (.refl c)).access_store write f
  have claim : ∀ l ∈ ls, c.mayClaim l = true := fun l hl => by
    obtain ⟨k, hk⟩ := List.mem_iff_getElem?.1 hl
    have lt := Nat.lt_of_lt_of_le (List.getElem?_eq_some_iff.1 hk).1 fields.length
    exact mine k lt l (by rw [← fields.served k lt]; exact hk)
  obtain ⟨mem, covers⟩ := blockAt?_eq_some_iff.1 hb
  have allowed := Core.allowed_of_handled hs.station.checked located hb handled
  obtain ⟨hw, -⟩ := RegisterBlock.width_of_allows allowed
  have natural := located.aligned aligned hw ((RegisterBlock.allows_iff hw).1 allowed).2
  have fills := (fills_of_configures mem config allowed covers natural).2.2
  obtain ⟨F, hF⟩ := Option.ne_none_iff_exists'.1 (RegisterGroup.field_of_configures config).1
  have acted : c.act (.access a f) = Core.writeFields b.group b.fieldBits ls (a.stored f) c := congrArg (·.2.2) stored
  have own := (Core.act_runs hs (a := .access a f) nofun).local_
  have hd : (m.step ⟨cpu, .access a f⟩).core? cpu = some (i, c.act (.access a f)) := by
    rw [step_of_core? hc]
    exact core?_putCore hc own.cpu own.vcpu
  have after : ∀ l ∈ ls, ((c.act (.access a f)).interrupt l).Configured (c.act (.access a f)).vm l := fun l hl =>
    (h.step ⟨cpu, .access a f⟩).configured (vm_of_core? hd) ((Vm.has_congr own.partition l).2 (fields.has l hl))
  have served := fields.addresses _ own.toSame
  refine ⟨_, (c.act (.access a f)).readFields b.group b.fieldBits ls, hd, fun r f' addr width read => ?_, fun k hk => ?_,
    fun l hl uncovered F' => ?_, fun j hj => ?_⟩
  · exact (show (c.act (.access a f)).Addresses r.addr r.width b.group b.fieldBits ls by
      rw [addr, width]; exact served).access_load read f'
  · have fits : b.fieldBits * (k + 1) ≤ 64 := by
      have wide : a.width ≤ 8 := (by decide : ∀ width ∈ [1, 2, 4, 8], width ≤ 8) a.width hw
      have := Nat.mul_le_mul_left b.fieldBits (show k + 1 ≤ a.width * 8 / b.fieldBits from hk)
      omega
    rw [Core.field_readFields fits, fields.served k hk]
    cases hl : c.vm.servedAt? c.vcpu frame? (b.first offset + k) with
    | none => rfl
    | some l =>
      exact fields.reads_settled hs mem hF fills claim (fun l hl => h.configured (vm_of_core? hc) (fields.has l hl))
        acted.symm own after hk ((fields.served k hk).trans hl)
  · rw [acted]
    refine (Core.get_writeFields (F := F') b.fieldBits ls _ c hs fields.has claim fields.nodup).2 l hl fun hmem => ?_
    obtain ⟨k, hk⟩ := List.mem_iff_getElem?.1 hmem
    have lt := Nat.lt_of_lt_of_le (List.getElem?_eq_some_iff.1 hk).1 fields.length
    exact uncovered k lt ((fields.served k lt).symm.trans hk)
  · rw [step_of_core? hc]
    exact vms_putCore _ _ _ _ (Ne.symm hj)

/-- The priorities of the first shared interrupts. -/
def firstPriorities (write : Bool) : Access := ⟨distributorBase + 0x420, 4, write, 0, false, false⟩

/-- One of the interrupts is in the list register, another one waits for it. -/
theorem reads_back_crowded : ∃ d v,
    (crowded.step ⟨0, .access (firstPriorities true) (.constant 0x40302017)⟩).core? 0 = some (0, d) ∧
    d.access (firstPriorities false) (.constant 0) = (true, (firstPriorities false).finishLoad (.constant 0) v, d) ∧
    (crowded.firstVm.interrupt (.shared 33)).spilled = true ∧ lowBits 8 (v >>> (8 * 0)) = 0x10 ∧
    lowBits 8 (v >>> (8 * 3)) = 0x40 ∧
    ConfigField.enable.get (d.interrupt (.banked 0 3)) = ConfigField.enable.get (crowded.firstVm.interrupt (.banked 0 3)) := by
  have hc := reachable_crowded.arises.sound.core_of_pcpuOf? (vms_zero (by decide +kernel))
    (show crowded.firstVm.pcpuOf? 0 = some 0 by decide +kernel)
  have table : crowded.firstVm.partition = .standard .v2 1 64 [0] [] := by decide +kernel
  have served : ∀ k < 4, crowded.firstVm.servedAt? 0 none (32 + k) = some (.shared (32 + k)) := by
    unfold Vm.servedAt? Vm.find? Vm.version Vm.interruptCount
    rw [table]
    decide
  have unowned : ∀ k < 4, (crowded.firstVm.interrupt (.shared (32 + k))).availableTo 0 = true := by decide +kernel
  have located : crowded.firstVm.partition.Locates (firstPriorities true).addr.toNat none 0x420 := by
    rw [table]
    decide
  have hb : blockAt? 0x420 = some ⟨.priority, 0x400, 0x400, 5, 8⟩ := by decide
  obtain ⟨d, v, hd, loads, fields, others, -⟩ := reachable_crowded.arises.reads_back hc
    (by rw [table]; exact ⟨by decide, nofun⟩) (firstPriorities true) rfl (.constant 0x40302017) located hb
    rfl (by decide +kernel) (fun k hk l hl => by
      have hl : crowded.firstVm.servedAt? 0 none (32 + k) = some l := hl
      rw [served k hk] at hl
      cases hl
      exact unowned k hk)
  have read : ∀ k < 4, lowBits 8 (v >>> (8 * k)) = lowBits 8 (0x40302017#64 >>> (8 * k)) &&& 0xF8 := fun k hk =>
    (fields k hk).trans (congrArg (Option.elim · 0 _) (served k hk))
  refine ⟨d, v, hd, loads _ _ rfl rfl rfl, by decide +kernel, read 0 (by decide), read 3 (by decide),
    others (.banked 0 3) ?_ (fun k hk e => ?_) .enable⟩
  · exact ⟨by decide +kernel, by decide, fun home hh => by cases hh; decide +kernel⟩
  · have e : crowded.firstVm.servedAt? 0 none (32 + k) = some (.banked 0 3) := e
    rw [served k hk] at e
    cases e

end Machine
end VirtualGic
