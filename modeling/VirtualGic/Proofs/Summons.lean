import VirtualGic.Proofs.Addressees
import VirtualGic.Proofs.Outcome
import VirtualGic.Proofs.Requests
/-!
# Summons

A register that sends software interrupts names the vCPUs to which it does (`Distributor.Names`, `SystemRegister.Names`).  The
writer raises the interrupt on itself and asks the cores of the other vCPUs to raise it on theirs (`Machine.errands_send`).
Once no message waits it is pending on each of them, and nothing else has changed (`Machine.Summoning.delivers`).
-/
namespace VirtualGic

/-! ## Who is summoned -/

namespace Distributor

/-- Whom a request to the distributor is for: a list, all others, or the vCPU that makes it. -/
def targetFilter (v : BitVec 64) : BitVec 2 := (v >>> 24).setWidth 2

/-- The vCPUs that a request of vCPU `me` to the distributor names, those that do not exist included: eight of them are
listed, or it is for all others or for itself. -/
inductive Names (v : BitVec 64) (me n : Nat) : Prop
  | listed (list : targetFilter v = 0) (small : n < 8) (bit : v.getLsbD (16 + n) = true)
  | others (all : targetFilter v = 1) (other : n ≠ me)
  | itself (self : targetFilter v = 2) (same : n = me)

variable {v : BitVec 64} {me n : Nat}

theorem names_of_list (list : targetFilter v = 0) (small : n < 8) : Names v me n ↔ v.getLsbD (16 + n) = true := by
  constructor
  · intro h
    cases h with
    | listed _ _ bit => exact bit
    | others all => exact absurd (list.symm.trans all) (by decide)
    | itself self => exact absurd (list.symm.trans self) (by decide)
  · exact .listed list small

theorem names_of_others (all : targetFilter v = 1) : Names v me n ↔ n ≠ me := by
  constructor
  · intro h
    cases h with
    | listed list => exact absurd (all.symm.trans list) (by decide)
    | others _ other => exact other
    | itself self => exact absurd (all.symm.trans self) (by decide)
  · exact .others all

theorem names_of_itself (self : targetFilter v = 2) : Names v me n ↔ n = me := by
  constructor
  · intro h
    cases h with
    | listed list => exact absurd (self.symm.trans list) (by decide)
    | others all => exact absurd (self.symm.trans all) (by decide)
    | itself _ same => exact same
  · exact .itself self

/-- The last filter is reserved. -/
theorem not_names (reserved : targetFilter v = 3) : ¬ Names v me n := by
  intro h
  cases h with
  | listed list => exact absurd (reserved.symm.trans list) (by decide)
  | others all => exact absurd (reserved.symm.trans all) (by decide)
  | itself self => exact absurd (reserved.symm.trans self) (by decide)

/-- A request reaches the vCPUs that it names, as far as there are such. -/
theorem getLsbD_softwareTargets {vm : Vm} (checked : vm.partition.Checked) (me : Nat) (v : BitVec 64) (n : Nat) :
    (softwareTargets vm me v).getLsbD n = true ↔ n < vm.vcpuCount ∧ Names v me n := by
  have inVm := Vm.getLsbD_vcpuSet checked n
  unfold softwareTargets
  rw [BitVec.getLsbD_and, inVm, Bool.and_eq_true, decide_eq_true_eq, and_comm]
  refine and_congr_right fun hn => ?_
  have hn8 : n < 8 := Nat.lt_of_lt_of_le hn checked.cpus_le
  have hn64 : n < 64 := Nat.lt_trans hn8 (by decide)
  have filters : ∀ filter : BitVec 2, filter = 0 ∨ filter = 1 ∨ filter = 2 ∨ filter = 3 := by decide
  change ((if targetFilter v == 0 then lowBits 8 (v >>> 16) else if targetFilter v == 1 then vm.vcpuSet.erase me
    else if targetFilter v == 2 then CpuSet.single me else 0).getLsbD n = true ↔ _)
  rcases filters (targetFilter v) with list | all | self | reserved
  · rw [names_of_list list hn8, list, if_pos (by decide), getLsbD_lowBits, BitVec.getLsbD_ushiftRight, decide_eq_true hn8,
      Bool.true_and]
  · rw [names_of_others all, all, if_neg (by decide), if_pos (by decide), CpuSet.getLsbD_erase, inVm, decide_eq_true hn,
      Bool.true_and, Bool.not_eq_true', beq_eq_false_iff_ne, ne_comm]
  · rw [names_of_itself self, self, if_neg (by decide), if_neg (by decide), if_pos (by decide), CpuSet.getLsbD_single,
      decide_eq_true hn64, Bool.true_and, beq_iff_eq, eq_comm]
  · rw [reserved, if_neg (by decide), if_neg (by decide), if_neg (by decide)]
    exact iff_of_false (ne_true_of_eq_false BitVec.getLsbD_zero) (not_names reserved)

end Distributor

/-- An action writes a register that sends software interrupts: which one it sends, and the vCPUs that the register names. -/
inductive Core.Summons (c : Core) : Action → Nat → (Nat → Prop) → Prop
  | distributor {a : Access} {f : RegisterFile} {base : BitVec 64} (write : a.write = true)
      (window : c.vm.addressMap.find? (·.contains a.addr) = some (.distributor base))
      (place : Distributor.place? c a.addr a.width = some .softwareInterrupt) :
      Summons c (.access a f) ((a.stored f).setWidth 4).toNat (Distributor.Names (a.stored f) c.vcpu)
  | system {a : SystemAccess} {f : RegisterFile} (write : a.read = false) (register : a.target = .softwareInterrupt) :
      Summons c (.accessSystem a f) ((f.get a.register).extractLsb' 24 4).toNat
        (SystemRegister.Names (f.get a.register) c.vcpu)

theorem Vm.raisal_congr {vm vm' : Vm} (hp : vm'.partition = vm.partition) (l : Line) (requester : Nat) :
    vm'.raisal l requester = vm.raisal l requester := by
  unfold raisal
  rw [countsRequesters_congr hp]

namespace Core

variable {c d : Core} {a : Action} {id v : Nat} {targets : CpuSet} {named : Nat → Prop}

/-- The software interrupt is sent to the vCPUs that the register names, as far as there are such. -/
theorem Summons.sends (h : c.Summons a id named) (checked : c.vm.partition.Checked) : id < softwareInterrupts ∧
    ∃ targets, c.act a = c.send id targets ∧ ∀ v, targets.getLsbD v = true ↔ v < c.vm.vcpuCount ∧ named v := by
  cases h with
  | @distributor a f base write window place =>
    refine ⟨BitVec.isLt _, _, ?_, Distributor.getLsbD_softwareTargets checked c.vcpu (a.stored f)⟩
    simp only [act, access_of_write write, store?, window, Option.bind_some, storeWindow?, place, Option.map_some,
      Distributor.store]
  | @system a f write register =>
    refine ⟨BitVec.isLt _, SystemRegister.softwareTargets (f.get a.register) c.vcpu c.vm.vcpuSet, ?_, fun v => ?_⟩
    · simp only [act, accessSystem, write, register, Bool.false_eq_true, if_false, writeSystem?, if_true]
    · rw [SystemRegister.getLsbD_softwareTargets, Vm.getLsbD_vcpuSet checked, decide_eq_true_eq]

/-- The field writes that raise a software interrupt on a set of vCPUs. -/
def raisals (c : Core) (id : Nat) (targets : CpuSet) : List FieldWrite :=
  (c.vm.vcpuIds.filter targets.getLsbD).map fun v => c.vm.raisal (.banked v id) c.vcpu

theorem mem_raisals {w : FieldWrite} (hw : w ∈ c.raisals id targets) :
    ∃ v, v < c.vm.vcpuCount ∧ targets.getLsbD v = true ∧ w = c.vm.raisal (.banked v id) c.vcpu := by
  obtain ⟨v, hv, rfl⟩ := List.mem_map.1 hw
  obtain ⟨hv, ht⟩ := List.mem_filter.1 hv
  exact ⟨v, List.mem_range.1 hv, ht, rfl⟩

theorem vcpu_lt_eight (h : c.Stationed) : c.vcpu < 8 := Nat.lt_of_lt_of_le h.vcpu_lt h.checked.cpus_le

theorem carried_raisal (vm : Vm) (l : Line) (requester : Nat) : (vm.raisal l requester).Carried vm := by
  unfold Vm.raisal
  split
  next => exact FieldWrite.carried_requester vm l requester
  next => exact FieldWrite.carried_pending vm l

theorem sendable_raisals (h : c.Stationed) (hid : id < softwareInterrupts) (targets : CpuSet) :
    Machine.Sendable c.vm (c.raisals id targets) where
  has := fun w hw => by
    obtain ⟨v, hv, -, rfl⟩ := mem_raisals hw
    rw [Vm.line_raisal]
    exact h.has_banked hid hv
  unique := fun w hw u hu e => by
    obtain ⟨v, -, -, rfl⟩ := mem_raisals hw
    obtain ⟨v', -, -, rfl⟩ := mem_raisals hu
    rw [Vm.line_raisal, Vm.line_raisal] at e
    rw [e]
  carried := fun w hw => by
    obtain ⟨v, -, -, rfl⟩ := mem_raisals hw
    exact carried_raisal c.vm _ c.vcpu

end Core

namespace Machine

variable {m m' : Machine} {cpu i id v : Nat} {c d : Core} {vm : Vm} {l : Line} {a : Action} {targets : CpuSet}
  {m₀ : Machine} {vm₀ : Vm} {ws todo : List FieldWrite}

/-! ## Sending -/

/-- The message that a core sends asks the core of another vCPU to raise the interrupt there. -/
theorem asks_inject (h : c.Stationed) (hid : id < softwareInterrupts) (hv : v < c.vm.vcpuCount) :
    Message.Asks ⟨Request.inject.code, ({ c.payload v id with value := BitVec.ofNat 32 c.vcpu } : Payload).toWord⟩ c.vm v
      (c.vm.raisal (.banked v id) c.vcpu) := by
  have has := h.has_banked hid hv
  have about : Message.About ⟨Request.inject.code, ({ c.payload v id with value := BitVec.ofNat 32 c.vcpu } : Payload).toWord⟩
      .inject c.vm (.banked v id) :=
    Core.about_payload h has (fun home hh => by cases hh; rfl) .inject 0 (BitVec.ofNat 32 c.vcpu)
  refine .inject rfl about.vm ?_ ?_ ?_
  · rw [about.line]
    exact decide_eq_true hid
  · rw [Vm.line_raisal, about.line]
    exact Vm.find?_id has (Line.seenBy_home rfl)
  · rw [Vm.line_raisal, Payload.ofWord_toWord, BitVec.toNat_ofNat,
      Nat.mod_eq_of_lt (Nat.lt_trans (Core.vcpu_lt_eight h) (by decide))]

/-- **A core raises a software interrupt of its own or sends a request for another one.** -/
theorem Errands.sendTo {s : Nat} (E : Errands m₀ vm₀ ws (vm₀.raisal (.banked v id) s :: todo) m c.vm)
    (W : Sendable vm₀ ws) (h : m.Sound) (ht : m.Tallied) (hc : m.core? cpu = some (i, c)) (me : c.vcpu = s)
    (hid : id < softwareInterrupts) (hv : v < c.vm.vcpuCount) (hw : vm₀.raisal (.banked v id) s ∈ ws) :
    Errands m₀ vm₀ ws todo (m.putCore i (c.sendTo id v)) (c.sendTo id v).vm ∧
      ∃ d, Core.Does c (c.sendTo id v) d ∧ ∀ a ∈ d, a.Tallies c.vm := by
  subst me
  have hs := h.core hc
  have has := hs.station.has_banked hid hv
  have rest : ∀ u ∈ vm₀.raisal (.banked v id) c.vcpu :: todo, u ∈ todo ∨ u = vm₀.raisal (.banked v id) c.vcpu :=
    fun u hu => (List.mem_cons.1 hu).symm
  by_cases e : v = c.vcpu
  · subst e
    have own : c.sendTo id c.vcpu = c.writeField (vm₀.raisal (.banked c.vcpu id) c.vcpu).group
        (vm₀.raisal (.banked c.vcpu id) c.vcpu).line (vm₀.raisal (.banked c.vcpu id) c.vcpu).value := by
      rw [Core.sendTo, beq_self_eq_true, if_pos rfl,
        Core.raise_eq (show c.find? id = some (.banked c.vcpu id) from Vm.find?_id has (Line.seenBy_home rfl)),
        Vm.raisal_congr E.partition, Vm.line_raisal]
    rw [own]
    refine ⟨E.write W h ht hc hw (.inl rfl) rest, _,
      Core.does_writeField hs (by rw [Vm.line_raisal]; exact has) _ _, fun a ha => ?_⟩
    cases ha
    exact Core.tallies_deedOf _
  · obtain ⟨k, hk⟩ := Vm.exists_pcpuOf? hv
    have hd := Core.sendTo_other (c := c) id e
    have other : c.sendTo id v = c.post k .inject { c.payload v id with value := BitVec.ofNat 32 c.vcpu } := by
      rw [Core.sendTo, beq_eq_false_iff_ne.2 e, if_neg Bool.false_ne_true, hk]
    have asks := (asks_inject hs.station hid hv).congr E.partition.symm
    rw [Vm.raisal_congr E.partition] at asks
    refine ⟨E.send W h (h.does hc hd) hc hw ?_ ((Vm.pcpuOf?_congr E.partition v).symm.trans hk) asks (fun k' => ?_) rest,
      none, hd, fun a ha => by cases ha⟩
    · rw [other]
      exact (Core.posted_post ..).alike
    · obtain ⟨bus, gic, hp, -, -, hwait⟩ := c.post_eq k .inject { c.payload v id with value := BitVec.ofNat 32 c.vcpu }
      rw [other, hp]
      refine (hwait k').trans ?_
      by_cases hkk : k = k'
      · rw [if_pos hkk, if_pos ⟨hkk, hs.station.reaches v k hk⟩]
        rfl
      · rw [if_neg hkk, if_neg fun e => hkk e.1]
        rfl

theorem errands_send (hm : m.Arises) (quiet : m.Quiet) (hc : m.core? cpu = some (i, c)) (hid : id < softwareInterrupts)
    (targets : CpuSet) :
    Errands m c.vm (c.raisals id targets) [] (m.putCore i (c.send id targets)) (c.send id targets).vm := by
  have station := (hm.sound.core hc).station
  have W := Core.sendable_raisals station hid targets
  refine (Errands.foldl (fun v => c.vm.raisal (.banked v id) c.vcpu) (c.vm.vcpuIds.filter targets.getLsbD)
    (fun v hv m d todo h ht hd hvcpu E => ?_) hm.sound hm.tallied hc rfl (errands_start quiet c.vm _)).2
  have hlt : v < d.vm.vcpuCount := by
    rw [Vm.vcpuCount_congr E.partition]
    exact List.mem_range.1 (List.mem_filter.1 hv).1
  exact E.sendTo W h ht hd hvcpu hid hlt (List.mem_map_of_mem hv)

/-! ## Arriving -/

/-- A software interrupt has been raised at the request of a vCPU.  Under version 2 the request may wait behind an active
one. -/
structure Raised (m : Machine) (vm : Vm) (m' : Machine) (vm' : Vm) (l : Line) (requester : Nat) : Prop where
  pending : (vm.countsRequesters l = true → (m.trueState vm l).active = false) → (m'.trueState vm' l).pending = true
  requested : vm.countsRequesters l = true → (m'.trueRequesters vm' l).getLsbD requester = true
  active : (m'.trueState vm' l).active = (m.trueState vm l).active

/-- The write that raises a software interrupt leaves it pending and asked for. -/
theorem edit_raisal {vm : Vm} (checked : vm.partition.Checked) {l : Line} {requester : Nat} (hr : requester < vm.vcpuCount)
    (s : Interrupt) : ((vm.raisal l requester).edit vm s).state = ⟨true, s.state.active⟩ ∧
      (vm.countsRequesters l = true → ((vm.raisal l requester).edit vm s).requesters.getLsbD requester = true) := by
  unfold FieldWrite.edit
  rw [Vm.line_raisal]
  cases counts : vm.countsRequesters l with
  | false =>
    simp only [Vm.raisal, counts, Bool.false_eq_true, if_false, RegisterGroup.apply, Bool.or_false]
    exact ⟨rfl, fun h => by cases h⟩
  | true =>
    have few : requester < 8 := Nat.lt_of_lt_of_le hr checked.cpus_le
    have single : (RegisterGroup.vcpusIn vm (CpuSet.single requester)).getLsbD requester = true := by
      rw [RegisterGroup.vcpusIn, BitVec.getLsbD_setWidth, BitVec.getLsbD_and, CpuSet.getLsbD_single,
        Vm.getLsbD_vcpuSet checked]
      simp only [few, hr, Nat.lt_trans few (by decide : 8 < 64), beq_self_eq_true, decide_true, Bool.and_self]
    have asked : (s.requesters ||| RegisterGroup.vcpusIn vm (CpuSet.single requester)).getLsbD requester = true := by
      rw [BitVec.getLsbD_or, single, Bool.or_true]
    have waits : (s.requesters ||| RegisterGroup.vcpusIn vm (CpuSet.single requester) != 0) = true := by
      rw [bne_iff_ne]
      intro e
      rw [e] at asked
      exact absurd (asked.symm.trans BitVec.getLsbD_zero) (by decide)
    simp only [Vm.raisal, counts, if_true, RegisterGroup.apply, Vm.isSoftware_of_counts counts, waits, Bool.or_true]
    exact ⟨trivial, fun _ => asked⟩

theorem Done.raised {requester : Nat} (done : Done m₀ vm₀ m vm (vm₀.raisal l requester)) (h : m.Sound) (ht : m.Tallied)
    (hvm : m.vms[i]? = some vm) (hp : vm.partition = vm₀.partition) (hl : vm₀.Has l)
    (soft : (vm₀.interrupt l).hardware = false) (hr : requester < vm₀.vcpuCount) : Raised m₀ vm₀ m vm l requester := by
  have checked := h.checked hvm
  rw [hp] at checked
  obtain ⟨state, requested⟩ := edit_raisal checked (l := l) hr (m₀.standing vm₀ l)
  have stands := done.standing
  have unlapsed := done.unlapsed
  rw [Vm.line_raisal] at stands unlapsed
  have hstate : (m.standing vm l).state = ⟨true, (m₀.standing vm₀ l).state.active⟩ := (stands.state soft).trans state
  have active : (m.trueState vm l).active = (m₀.trueState vm₀ l).active := by
    rw [← active_standing, ← active_standing, hstate]
  have hcounts := Vm.countsRequesters_congr hp l
  refine ⟨fun inactive => ?_, fun counts => ?_, active⟩
  · cases counts : vm₀.countsRequesters l with
    | false => rw [trueState_eq_standing (hcounts.trans counts), hstate]
    | true =>
      rw [pending_of_inactive h ht hvm ((Vm.has_congr hp l).2 hl) (hcounts.trans counts) (active.trans (inactive counts)),
        hstate, unlapsed counts]
      rfl
  · rw [trueRequesters_eq_standing (hcounts.trans counts), stands.requesters soft]
    exact requested counts

/-- A vCPU sends a software interrupt while no message waits, and then CPUs poll, in any order, until none does. -/
structure Summoning (m : Machine) (cpu i : Nat) (c : Core) (a : Action) (id : Nat) (named : Nat → Prop) (es : List Nat) :
    Prop where
  reachable : m.Reachable
  quiet : m.Quiet
  core : m.core? cpu = some (i, c)
  summons : c.Summons a id named
  ends : (m.outcome cpu a es).Quiet

/-- **Whoever is summoned hears of it, and nothing else happens**: a software interrupt that is sent is raised on each vCPU
that the register names, and all else that is true of any interrupt of the VM is as it was. -/
theorem Summoning.delivers {named : Nat → Prop} {es : List Nat} (h : Summoning m cpu i c a id named es) :
    ∃ vm, (m.outcome cpu a es).vms[i]? = some vm ∧ ∀ l, c.vm.Has l →
      ((∃ v, named v ∧ l = .banked v id) → Raised m c.vm (m.outcome cpu a es) vm l c.vcpu) ∧
      ((∀ v, named v → l ≠ .banked v id) → SameTruth m c.vm (m.outcome cpu a es) vm l) := by
  have hc := h.core
  have arises := h.reachable.arises
  have station := (arises.sound.core hc).station
  obtain ⟨hid, targets, acts, reached⟩ := h.summons.sends station.checked
  have sent := errands_send arises h.quiet hc hid targets
  rw [← acts] at sent
  obtain ⟨vm, hvm, E⟩ := Errands.outcome arises (Core.sendable_raisals station hid targets) hc sent es
  have ran := (h.reachable.outcome cpu a es).arises
  refine ⟨vm, hvm, fun l hl => ⟨?_, fun others => ?_⟩⟩
  · rintro ⟨v, hv, rfl⟩
    have hlt : v < c.vm.vcpuCount := hl.2.2 v rfl
    have mem : c.vm.raisal (.banked v id) c.vcpu ∈ c.raisals id targets :=
      List.mem_map_of_mem (List.mem_filter.2 ⟨List.mem_range.2 hlt, (reached v).2 ⟨hlt, hv⟩⟩)
    have soft := ((arises.sound.records (vm_of_core? hc)) _ hl).soft_of_private station.checked
      (Nat.lt_trans hid (by decide))
    exact (E.done h.ends mem).raised ran.sound ran.tallied hvm E.partition hl soft station.vcpu_lt
  · have leaves := E.others l hl fun w hw => by
      obtain ⟨v, -, hv, rfl⟩ := Core.mem_raisals hw
      rw [Vm.line_raisal]
      exact (others v ((reached v).1 hv).2).symm
    exact sameTruth_of_standing arises.sound arises.tallied (vm_of_core? hc) ran.sound ran.tallied hvm E.partition hl
      leaves.standing fun _ => leaves.lapsed

/-- A store to the register that sends software interrupts. -/
def sending (w : BitVec 64) : Action := store (distributorBase + 0xF00) 4 w

/-- The first vCPU's core while it attends to software interrupt 1. -/
def attendant : Core := ⟨0, 0, attending.firstVm, attending.interfaces.get 0, attending.bus, attending.gic⟩

theorem summons_attending {w : BitVec 64} (word : lowBits 32 w = w) :
    attendant.Summons (sending w) (w.setWidth 4).toNat (Distributor.Names w 0) := by
  have window : attendant.vm.addressMap.find? (·.contains (distributorBase + 0xF00)) = some (.distributor distributorBase) :=
    by decide +kernel
  have place : Distributor.place? attendant (distributorBase + 0xF00) 4 = some .softwareInterrupt := by decide +kernel
  have summons : attendant.Summons (sending w) ((lowBits 32 w).setWidth 4).toNat (Distributor.Names (lowBits 32 w) 0) :=
    .distributor rfl window place
  rwa [word] at summons

theorem summoning_attending {w : BitVec 64} (es : List Nat) (word : lowBits 32 w = w)
    (ends : (attending.outcome 0 (sending w) es).bus.inboxes.all (·.waiting.isEmpty) = true) :
    Summoning attending 0 0 attendant (sending w) (w.setWidth 4).toNat (Distributor.Names w 0) es where
  reachable := reachable_attending
  quiet := quiet_of_all (by decide +kernel)
  core := reachable_attending.arises.sound.core_of_pcpuOf? (vms_zero (by decide +kernel)) (by decide +kernel)
  summons := summons_attending word
  ends := quiet_of_all ends

theorem has_attending : attending.firstVm.Has (.banked 0 1) :=
  Vm.has_of_find? (show attending.firstVm.find? 0 1 = _ by decide +kernel)

/-- The second vCPU is summoned with another number. -/
theorem delivers_attending : ∃ vm, (attending.outcome 0 (sending 0x20002) [1]).vms[0]? = some vm ∧
    Raised attending attending.firstVm (attending.outcome 0 (sending 0x20002) [1]) vm (.banked 1 2) 0 ∧
    SameTruth attending attending.firstVm (attending.outcome 0 (sending 0x20002) [1]) vm (.banked 0 1) := by
  have summoning : Summoning attending 0 0 attendant (sending 0x20002) 2 (Distributor.Names 0x20002 0) [1] :=
    summoning_attending [1] (by decide) (by decide +kernel)
  obtain ⟨vm, hvm, h⟩ := summoning.delivers
  have has : attendant.vm.Has (.banked 1 2) :=
    Vm.has_of_find? (show attending.firstVm.find? 1 2 = _ by decide +kernel)
  have named : Distributor.Names 0x20002 0 1 := .listed (by decide) (by decide) (by decide)
  exact ⟨vm, hvm, (h (.banked 1 2) has).1 ⟨1, named, rfl⟩, (h (.banked 0 1) has_attending).2 fun v _ e => by cases e⟩

/-- **A version 2 software interrupt that is active need not be pending when it is sent once more**, since the list register
goes on to hold the active one; **and it may become pending when another is sent**, which displaces it while it is asked for
already. -/
theorem not_pending_attending :
    (¬ ∀ (m : Machine) (cpu i id v : Nat) (c : Core) (a : Action) (named : Nat → Prop) (es : List Nat) (vm : Vm),
      Summoning m cpu i c a id named es → (m.outcome cpu a es).vms[i]? = some vm → c.vm.Has (.banked v id) →
      named v → ((m.outcome cpu a es).trueState vm (.banked v id)).pending = true) ∧
    ¬ ∀ (m : Machine) (cpu i id : Nat) (c : Core) (a : Action) (named : Nat → Prop) (es : List Nat) (vm : Vm) (l : Line),
      Summoning m cpu i c a id named es → (m.outcome cpu a es).vms[i]? = some vm → c.vm.Has l →
      (∀ v, named v → l ≠ .banked v id) → (m.outcome cpu a es).trueState vm l = m.trueState c.vm l := by
  constructor
  · intro h
    have pending := h attending 0 0 1 0 attendant (sending 0x2000001) _ [] _
      (summoning_attending [] (by decide) (by decide +kernel)) (vms_zero (by decide +kernel)) has_attending
      (.itself (by decide) rfl)
    exact absurd pending (by decide +kernel)
  · intro h
    have same := h attending 0 0 2 attendant (sending 0x2000002) _ [] _ (.banked 0 1)
      (summoning_attending [] (by decide) (by decide +kernel)) (vms_zero (by decide +kernel)) has_attending
      (fun v _ e => by cases e)
    exact absurd same (by decide +kernel)

end Machine
end VirtualGic
