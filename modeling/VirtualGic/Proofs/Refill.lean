import Mathlib.Data.List.Nodup
import VirtualGic.Proofs.Demand
import VirtualGic.Proofs.Eviction
/-!
# Refilling

What `refill` brings back (`Core.Sound.refill`): of the spilled interrupts that may be brought back here
(`Core.Eligible`) the most important ones, as many as there are free list registers.  Each round brings one back
(`Core.brought_round`), what several rounds did adds up (`Core.Brought.trans`), and there are enough rounds
(`Core.refillLoop_enough`).
-/
namespace VirtualGic

/-! ## What a list register shows of what comes back -/

/-- A list register presents an interrupt with the state of its record, and leaves a set of requesters there. -/
structure ListRegister.Restores (r : ListRegister) (left : BitVec 8) (counts : Bool) (l : Line) (s : Interrupt) : Prop where
  names : r.names l.id = true
  shows : r.Shows s
  /-- Hardware keeps the pending state of its own interrupts that are active. -/
  plain : counts = false →
    r.state = ⟨s.state.pending && !(s.hardware && s.state.active), s.state.active⟩ ∧ left = s.requesters
  active : counts = true → s.state.active = true →
    r.state = ⟨false, true⟩ ∧ r.requester = BitVec.ofNat 3 s.activeRequester.toNat ∧ left = s.requesters
  /-- The lowest requester goes in. -/
  waiting : counts = true → s.state.active = false →
    r.state = ⟨true, false⟩ ∧ s.requesters.getLsbD r.requester.toNat = true ∧
      (∀ i, i < r.requester.toNat → s.requesters.getLsbD i = false) ∧
      ∀ i, left.getLsbD i = (s.requesters.getLsbD i && !(r.requester.toNat == i))

namespace Core

variable {c c' c'' d : Core} {k l : Line} {ls ks es : List Line} {n : Nat} {pendingOnly : Bool}

theorem restores_presented (h : c.Sound) (hl : c.vm.Has l) (off : (c.interrupt l).resident = false)
    (tallied : c.vm.countsRequesters l = true → (c.interrupt l).Tallied (c.held? l))
    (busy : (c.interrupt l).state.isIdle = false) :
    (c.presented l).1.Restores (c.presented l).2.requesters (c.vm.countsRequesters l) l (c.interrupt l) := by
  have fits := Vm.id_lt_of_has h.station.checked hl
  obtain ⟨names, shows, -⟩ := presented_spec h hl
  refine ⟨names, shows, fun plain => ?_, fun counts ha => ?_, fun counts ha => ?_⟩
  · simp only [presented, plain, Bool.false_eq_true, if_false, ListRegister.present_eq l _ fits, true_and]
  · simp only [presented, counts, if_true, ListRegister.presentRequest, ha]
    rw [ListRegister.withNumber_eq _ fits rfl]
    exact ⟨rfl, rfl, trivial⟩
  · have pending := (tallied counts).pending (held?_of_off off)
    cases hn : ListRegister.lowestRequester? (c.interrupt l).requesters with
    | none =>
      -- without requesters it would be idle
      rw [ListRegister.lowestRequester?_eq_none hn] at pending
      rw [Interrupt.State.isIdle, ha, pending] at busy
      cases busy
    | some n =>
      obtain ⟨hmem, hlt, lowest⟩ := List.find?_range_eq_some.1 hn
      have hk : (BitVec.ofNat 3 n).toNat = n := (BitVec.toNat_ofNat ..).trans (Nat.mod_eq_of_lt (List.mem_range.1 hlt))
      simp only [presented, counts, if_true, ListRegister.presentRequest, ha, Bool.false_eq_true, if_false, hn]
      rw [ListRegister.withNumber_eq _ fits rfl]
      simp only [hk]
      exact ⟨trivial, hmem, fun i hi => by simpa using lowest i hi, ListRegister.getLsbD_withoutRequester _ n⟩

/-! ## What may come back -/

/-- A spilled interrupt that may be brought back here: it is enabled, targets this vCPU and is not owned elsewhere, and it
is pending or, unless only those are wanted, active. -/
structure Eligible (c : Core) (pendingOnly : Bool) (l : Line) : Prop where
  has : c.vm.Has l
  /-- It waits on the list of this vCPU or on the list of the VM. -/
  seen : l.SeenBy c.vcpu
  spilled : (c.interrupt l).spilled = true
  enabled : (c.interrupt l).enabled = true
  target : c.isTarget l = true
  free : (c.interrupt l).owner = none ∨ (c.interrupt l).owner = some c.vcpu
  wanted : if pendingOnly then (c.interrupt l).state.pending = true else (c.interrupt l).state.isIdle = false

theorem Eligible.busy (h : c.Eligible pendingOnly l) : (c.interrupt l).state.isIdle = false := by
  have wanted := h.wanted
  cases pendingOnly with
  | true => exact Interrupt.State.isIdle_of_pending wanted
  | false => exact wanted

theorem isWanted_iff (c : Core) (pendingOnly : Bool) (l : Line) : c.isWanted pendingOnly l = true ↔
    (c.interrupt l).enabled = true ∧ c.isTarget l = true ∧
      ((c.interrupt l).owner = none ∨ (c.interrupt l).owner = some c.vcpu) ∧
      if pendingOnly then (c.interrupt l).state.pending = true else (c.interrupt l).state.isIdle = false := by
  have may := c.mayClaim_iff l
  unfold mayClaim at may
  unfold isWanted
  rw [Bool.and_eq_true, Bool.and_eq_true, Bool.and_eq_true, may]
  cases pendingOnly <;> simp only [if_true, Bool.false_eq_true, if_false, Bool.not_eq_true'] <;> tauto

theorem mem_spilledLines (h : c.Sound) : l ∈ c.spilledLines (c.isWanted pendingOnly) ↔ c.Eligible pendingOnly l := by
  rw [mem_spilledLines_iff h, isWanted_iff]
  exact ⟨fun ⟨has, seen, spilled, enabled, target, free, wanted⟩ => ⟨has, seen, spilled, enabled, target, free, wanted⟩,
    fun ⟨has, seen, spilled, enabled, target, free, wanted⟩ => ⟨has, seen, spilled, enabled, target, free, wanted⟩⟩

theorem nodup_spilledIds (h : c.Sound) : c.spilledIds.Nodup := by
  refine List.nodup_append.2 ⟨h.lists.nodup _, h.lists.nodup _, fun a ha b hb => ?_⟩
  rintro rfl
  obtain ⟨k, hk, home, id⟩ := h.lists.has _ _ ha
  obtain ⟨l, hl, shared, id'⟩ := h.lists.has _ _ hb
  -- a number is banked or shared, not both
  have banked : k.isBanked = true := by rw [Line.isBanked, home]; rfl
  have private_ : l.id < privateInterrupts := by rw [id', ← id]; exact hk.2.1.1 banked
  have := hl.2.1.2 private_
  rw [Line.isBanked, shared] at this
  cases this

theorem nodup_spilledLines (h : c.Sound) (p : Line → Bool) : (c.spilledLines p).Nodup := by
  refine List.Pairwise.filter _ <| List.Nodup.filterMap (fun a a' b hb hb' => ?_) (nodup_spilledIds h)
  exact ((Vm.find?_eq_some_iff ..).1 hb).2.2.symm.trans ((Vm.find?_eq_some_iff ..).1 hb').2.2

/-! ## What refilling changes -/

/-- The last occupant of a slot that was taken over: the guest has completed it. -/
structure TakenOver (c c' : Core) (ls : List Line) (k : Line) : Prop where
  unspilled : (c.interrupt k).spilled = false
  credited : c.vm.Credits c.vcpu k (c.interrupt k).slot
  empty : (c.interface.read (c.interrupt k).slot).isEmpty = true
  taken : ∃ l ∈ ls, (c'.interrupt l).slot = (c.interrupt k).slot
  record : c'.interrupt k = { c.interrupt k with
    resident := false, state := .idle, owner := if c.vm.version == .v2 && k.isBanked then some c.vcpu else none }

/-- Some interrupts were brought back into list registers that were free.  All else is as it was, but for the last occupants
of these list registers. -/
structure Brought (c c' : Core) (ls : List Line) : Prop where
  same : Same c c'
  bus : c'.bus = c.bus
  gic : c'.gic = c.gic
  count : c'.interface.count = c.interface.count
  has : ∀ l ∈ ls, c.vm.Has l
  brought : ∀ l ∈ ls, ∃ n, n < c.interface.count ∧ (c.interface.read n).isEmpty = true ∧
    c'.interface.read n = (c.presented l).1 ∧ (c'.interface.read n).state.isIdle = false ∧
    c'.interrupt l = { c.interrupt l with
      owner := some c.vcpu, state := .idle, requesters := (c.presented l).2.requesters, resident := true, slot := n,
      spilled := false }
  lists : ∀ home, c'.vm.spillList home =
    (c.vm.spillList home).filter fun id => !ls.any fun l => l.home? == home && l.id == id
  slots : ∀ n, (c.interface.read n).isEmpty = false ∨ (∀ l ∈ ls, (c'.interrupt l).slot ≠ n) →
    c'.interface.read n = c.interface.read n
  others : ∀ k, c.vm.Has k → k ∉ ls → c'.interrupt k = c.interrupt k ∨ c.TakenOver c' ls k

theorem Brought.nothing (h : c'.interface.registers = c.interface.registers) (same : Same c c') (vm : c'.vm = c.vm)
    (bus : c'.bus = c.bus) (gic : c'.gic = c.gic) : Brought c c' [] where
  same := same
  bus := bus
  gic := gic
  count := congrArg Array.size h
  has := nofun
  brought := nofun
  lists home := by
    rw [vm]
    exact (List.filter_eq_self.2 fun _ _ => rfl).symm
  slots n _ := by
    unfold CpuInterface.read
    rw [h]
  others k _ _ := .inl (congrArg (·.interrupt k) vm)

/-- What was brought back sits in a slot that was free, with a list register in use. -/
theorem Brought.slot (h : Brought c c' ls) (hl : l ∈ ls) :
    (c.interface.read (c'.interrupt l).slot).isEmpty = true ∧
      (c'.interface.read (c'.interrupt l).slot).state.isIdle = false := by
  obtain ⟨n, -, empty, -, busy, record⟩ := h.brought l hl
  rw [record]
  exact ⟨empty, busy⟩

/-- What is free was free before and is not taken. -/
theorem Brought.untaken (h : Brought c c' ls) (empty : (c'.interface.read n).isEmpty = true) :
    c'.interface.read n = c.interface.read n := by
  refine h.slots n <| .inr fun l hl => ?_
  rintro rfl
  rw [ListRegister.not_isEmpty_of_busy (h.slot hl).2] at empty
  cases empty

/-- What is spilled afterwards is as it was. -/
theorem Brought.spilled (h : Brought c c' ls) (hk : c.vm.Has k) (spilled : (c'.interrupt k).spilled = true) :
    k ∉ ls ∧ c'.interrupt k = c.interrupt k := by
  have hkl : k ∉ ls := fun hkl => by
    obtain ⟨n, -, -, -, -, record⟩ := h.brought k hkl
    rw [record] at spilled
    cases spilled
  refine ⟨hkl, (h.others k hk hkl).resolve_right fun taken => ?_⟩
  rw [taken.record] at spilled
  exact absurd (taken.unspilled.symm.trans spilled) (by decide)

/-- Rounds after which something is spilled leave alone what was brought back. -/
theorem Brought.stays (h : Brought c c' ls) (h' : Brought c' c'' ks)
    (spilled : ∀ k ∈ ks, c.vm.Has k ∧ (c'.interrupt k).spilled = true) (hl : l ∈ ls) :
    c''.interrupt l = c'.interrupt l := by
  have aside : l ∉ ks := fun hk => (h.spilled (spilled l hk).1 (spilled l hk).2).1 hl
  refine (h'.others l ((Vm.has_congr h.same.partition l).2 (h.has l hl)) aside).resolve_right fun taken => ?_
  have busy := ListRegister.not_isEmpty_of_busy (h.slot hl).2
  exact absurd (busy.symm.trans taken.empty) (by decide)

/-- What a later round took over was there before the earlier ones. -/
theorem Brought.takenOver (h : Brought c c' ls) (same : c'.interrupt k = c.interrupt k) (taken : c'.TakenOver c'' ks k) :
    c.TakenOver c'' (ls ++ ks) k := by
  obtain ⟨unspilled, credited, empty, taken, record⟩ := taken
  rw [same] at unspilled credited empty record
  simp only [same] at taken
  obtain ⟨l, hl, slot⟩ := taken
  refine ⟨unspilled, ?_, by rw [← h.untaken empty]; exact empty, ⟨l, List.mem_append_right _ hl, slot⟩, ?_⟩
  · have same : c'.vm.interrupt k = c.vm.interrupt k := same
    unfold Vm.Credits at credited ⊢
    rw [same, h.same.vcpu] at credited
    exact credited
  · rw [Vm.version_congr h.same.partition, h.same.vcpu] at record
    exact record

/-- **Bringing back goes on**: what several rounds did adds up. -/
theorem Brought.trans (h : Brought c c' ls) (h' : Brought c' c'' ks)
    (spilled : ∀ k ∈ ks, c.vm.Has k ∧ (c'.interrupt k).spilled = true) : Brought c c'' (ls ++ ks) := by
  have partition := h.same.partition
  have stays : ∀ l ∈ ls, c''.interrupt l = c'.interrupt l := fun l hl => h.stays h' spilled hl
  refine ⟨h.same.trans h'.same, h'.bus.trans h.bus, h'.gic.trans h.gic, h'.count.trans h.count, fun l hl => ?_,
    fun l hl => ?_, fun home => ?_, fun n hn => ?_, fun k hk hkl => ?_⟩
  · exact (List.mem_append.1 hl).elim (h.has l) fun hl => (spilled l hl).1
  · rcases List.mem_append.1 hl with hl | hl
    · obtain ⟨n, hn, empty, register, busy, record⟩ := h.brought l hl
      have kept := h'.slots n (.inl (ListRegister.not_isEmpty_of_busy busy))
      exact ⟨n, hn, empty, kept.trans register, by rw [kept]; exact busy, (stays l hl).trans record⟩
    · obtain ⟨n, hn, empty, register, busy, record⟩ := h'.brought l hl
      have same := (h.spilled (spilled l hl).1 (spilled l hl).2).2
      rw [presented_congr partition same] at register record
      rw [same, h.same.vcpu] at record
      exact ⟨n, by rw [← h.count]; exact hn, by rw [← h.untaken empty]; exact empty, register, busy, record⟩
  · rw [h'.lists, h.lists, List.filter_filter]
    refine List.filter_congr fun id _ => ?_
    rw [List.any_append, Bool.not_or, Bool.and_comm]
  · have first : c'.interface.read n = c.interface.read n :=
      h.slots n <| hn.imp_right fun all l hl => by rw [← stays l hl]; exact all l (List.mem_append_left _ hl)
    refine (h'.slots n ?_).trans first
    exact hn.imp (fun e => by rw [first]; exact e) fun all l hl => all l (List.mem_append_right _ hl)
  · rw [List.mem_append, not_or] at hkl
    rcases h.others k hk hkl.1, h'.others k ((Vm.has_congr partition k).2 hk) hkl.2 with ⟨same | taken, same' | taken'⟩
    · exact .inl (same'.trans same)
    · exact .inr (h.takenOver same taken')
    · obtain ⟨unspilled, credited, empty, ⟨l, hl, slot⟩, record⟩ := taken
      exact .inr ⟨unspilled, credited, empty, ⟨l, List.mem_append_left _ hl, by rw [stays l hl]; exact slot⟩,
        same'.trans record⟩
    · -- it is in no list register any more
      have off : (c'.interrupt k).resident = false := by rw [taken.record]
      exact absurd (off.symm.trans taken'.credited.2.1) (by decide)

/-! ## One round -/

theorem release_of_idle {s : Interrupt} {version : GicVersion} {v : Nat} (mine : s.owner = some v) (off : s.resident = false)
    (idle : s.state = .idle) :
    s.release version k v = { s with owner := if version == .v2 && k.isBanked then some v else none } := by
  cases s
  cases mine
  cases off
  cases idle
  unfold Interrupt.release Interrupt.releasable Interrupt.ownedBy
  cases version == .v2 && k.isBanked <;> simp

/-- **Settling a slot**: its last occupant is idle from then on. -/
theorem interrupt_settle (h : c.Sound) (hl : c.vm.Has l) (seen : l.SeenBy c.vcpu) (off : (c.interrupt l).resident = false)
    (k : Line) : (c.settle n l.id).interrupt k = c.interrupt k ∨ c.vm.Credits c.vcpu k n ∧
      (c.settle n l.id).interrupt k = { c.interrupt k with
        resident := false, state := .idle, owner := if c.vm.version == .v2 && k.isBanked then some c.vcpu else none } := by
  have other : ∀ j, c.vm.Has j → c.vm.Credits c.vcpu j n → j.id ≠ l.id := fun j hj hc id => by
    obtain rfl := Vm.eq_of_id hj hl (h.seen_of_credits hj hc) seen id
    exact absurd (off.symm.trans hc.2.1) (by decide)
  rcases settle_cases h other with ⟨-, e⟩ | ⟨j, hj, hc, e⟩
  · exact .inl (by rw [e]; exact Vm.interrupt_setOccupant ..)
  · rw [e, release_setInterrupt, interrupt_setInterrupt]
    split
    next hjk =>
      subst hjk
      exact .inr ⟨hc, release_of_idle (s := c.settled j) hc.1 rfl rfl⟩
    next hjk =>
      rw [interrupt_setInterrupt, if_neg hjk]
      exact .inl (Vm.interrupt_setOccupant ..)

/-- Who owns an interrupt does not show in its list register. -/
theorem presented_claim (may : c.mayClaim l = true) :
    (c.claim l).presented l = ((c.presented l).1, { (c.presented l).2 with owner := some c.vcpu }) := by
  have partition : (c.claim l).vm.partition = c.vm.partition := (frame_claim c l).partition
  rw [presented_eq, presented_eq, presentation_congr partition, claimed may]
  unfold presentation ListRegister.presentRequest
  split
  next =>
    simp only
    split
    next => rfl
    next => cases ListRegister.lowestRequester? (c.interrupt l).requesters <;> rfl
  next => rfl

theorem filter_spilled (spilled : (c.interrupt l).spilled = true) (home : Option Nat) (ids : List Nat) :
    (if (c.interrupt l).spilled = true ∧ l.home? = home then ids.filter (· != l.id) else ids) =
      ids.filter fun id => !([l].any fun l => l.home? == home && l.id == id) := by
  by_cases hh : l.home? = home
  · rw [if_pos ⟨spilled, hh⟩]
    refine List.filter_congr fun id _ => ?_
    simp [hh, bne, eq_comm]
  · rw [if_neg fun e => hh e.2]
    refine (List.filter_eq_self.2 fun id _ => ?_).symm
    simp [hh]

/-- Seating an interrupt that was claimed leaves the others alone, but for the last occupant of the slot. -/
theorem takenOver_seat (h : c.Sound) (hand : (c.claim l).InHand l) (seen : l.SeenBy c.vcpu)
    (empty : (c.interface.read n).isEmpty = true) (slot : (((c.claim l).seat l n).interrupt l).slot = n)
    (hk : c.vm.Has k) (hlk : l ≠ k)
    (settled : ((c.claim l).seat l n).interrupt k = ((c.claim l).settle n l.id).interrupt k) :
    ((c.claim l).seat l n).interrupt k = c.interrupt k ∨ c.TakenOver ((c.claim l).seat l n) [l] k := by
  have unclaimed : (c.claim l).interrupt k = c.interrupt k := by rw [interrupt_claim, if_neg hlk]
  have last := interrupt_settle (n := n) hand.sound hand.has seen hand.off k
  rw [unclaimed] at last
  rw [settled]
  refine last.imp_right fun ⟨credited, last⟩ => ?_
  have same : (c.claim l).vm.interrupt k = c.vm.interrupt k := unclaimed
  unfold Vm.Credits at credited
  rw [same] at credited
  have old : (c.interrupt k).slot = n := credited.2.2
  rw [Vm.version_congr (frame_claim c l).partition] at last
  exact ⟨(h.records k hk).resident_unspilled credited.2.1, ⟨credited.1, credited.2.1, rfl⟩, by rw [old]; exact empty,
    ⟨l, List.mem_cons_self, slot.trans old.symm⟩, settled.trans last⟩

/-- **A round brings an interrupt back** into the free list register. -/
theorem brought_round (h : c.Sound) (free : c.interface.freeSlot? = some n) (hl : c.Eligible pendingOnly l) :
    c.Brought ((c.claim l).place l).1 [l] ∧
      ((c.claim l).place l).1.interface = c.interface.write n (c.presented l).1 := by
  have may := (c.mayClaim_iff l).2 hl.free
  have hand := inHand_claim h hl.has may (h.off_of_spilled hl.has hl.spilled)
  have enabled : ((c.claim l).interrupt l).enabled = true := by rw [claimed may]; exact hl.enabled
  have target := (isTarget_claim may).trans hl.target
  obtain ⟨hn, empty⟩ := CpuInterface.freeSlot?_spec free
  rw [place_of_free hand enabled free]
  have frame := (frame_claim c l).trans (placing_seat hand enabled target hn empty).frame
  have cleared := cleared_settle hand.sound hand.has hl.seen hand.off empty
  obtain ⟨interface, seated, lists⟩ := seat_of_settle rfl cleared.frame.partition cleared.record cleared.interface
  rw [presented_claim may] at interface lists
  obtain ⟨-, -, q, hq⟩ := presented_spec h hl.has
  have record : ((c.claim l).seat l n).interrupt l = { c.interrupt l with
      owner := some c.vcpu, state := .idle, requesters := (c.presented l).2.requesters, resident := true, slot := n,
      spilled := false } := by
    rw [seated, if_pos rfl, Core.seated, presented_claim may, hq]
  have register : ((c.claim l).seat l n).interface.read n = (c.presented l).1 := by
    rw [interface]
    exact (CpuInterface.read_write ..).trans (if_pos ⟨rfl, hn⟩)
  obtain ⟨bus, gic⟩ := outside_seat (c.claim l) l n
  refine ⟨⟨frame.toSame, bus, gic, by rw [interface]; exact CpuInterface.count_write ..,
    fun k hk => List.mem_singleton.1 hk ▸ hl.has, fun k hk => ?_, fun home => ?_, fun m hm => ?_, fun k hk hkl => ?_⟩,
    interface⟩
  · obtain rfl := List.mem_singleton.1 hk
    exact ⟨n, hn, empty, register, by rw [register]; exact busy_presented h hl.has hl.busy, record⟩
  · have unclaimed : (c.claim l).vm.spillList home = c.vm.spillList home := Vm.spillList_setInterrupt ..
    rw [lists, unclaimed, hq]
    exact filter_spilled hl.spilled home _
  · have hmn : m ≠ n := by
      rintro rfl
      refine hm.elim (fun full => absurd (empty.symm.trans full) (by decide)) fun all => ?_
      exact all l List.mem_cons_self (by rw [record])
    rw [interface]
    exact read_write_empty _ _ m hmn _
  · have hlk : l ≠ k := fun e => hkl (List.mem_singleton.2 e.symm)
    exact takenOver_seat h hand hl.seen empty (by rw [record]) hk hlk ((seated k).trans (if_neg hlk))

/-! ## All rounds -/

theorem Brought.keyOf (h : c.Brought c' ls) (hk : c.vm.Has k) : c'.keyOf k = c.keyOf k := by
  have priority : (c'.interrupt k).priority = (c.interrupt k).priority := by
    by_cases hkl : k ∈ ls
    · obtain ⟨_, -, -, -, -, record⟩ := h.brought k hkl
      rw [record]
    · rcases h.others k hk hkl with same | taken
      · rw [same]
      · rw [taken.record]
  unfold Core.keyOf
  rw [priority]

/-- What may come back afterwards is what might come before and has not come. -/
theorem Brought.eligible_iff (h : c.Brought c' ls) :
    c'.Eligible pendingOnly k ↔ c.Eligible pendingOnly k ∧ k ∉ ls := by
  have partition := h.same.partition
  have target : c'.interrupt k = c.interrupt k → c'.isTarget k = c.isTarget k := isTarget_congr partition h.same.vcpu
  constructor
  · rintro ⟨has, seen, spilled, enabled, ht, free, wanted⟩
    have has := (Vm.has_congr partition k).1 has
    obtain ⟨hkl, same⟩ := h.spilled has spilled
    rw [h.same.vcpu] at seen
    rw [target same] at ht
    rw [same] at spilled enabled free wanted
    rw [h.same.vcpu] at free
    exact ⟨⟨has, seen, spilled, enabled, ht, free, wanted⟩, hkl⟩
  · rintro ⟨⟨has, seen, spilled, enabled, ht, free, wanted⟩, hkl⟩
    have same := (h.others k has hkl).resolve_right fun taken => absurd (taken.unspilled.symm.trans spilled) (by decide)
    refine ⟨(Vm.has_congr partition k).2 has, ?_, ?_, ?_, (target same).trans ht, ?_, ?_⟩
    · rw [h.same.vcpu]; exact seen
    · rw [same]; exact spilled
    · rw [same]; exact enabled
    · rw [same, h.same.vcpu]; exact free
    · rw [same]; exact wanted

theorem length_free_write {f : CpuInterface} {r : ListRegister} (hn : n < f.count) (empty : (f.read n).isEmpty = true)
    (busy : r.isEmpty = false) :
    ((f.write n r).slotsWhere (·.isEmpty)).length + 1 = (f.slotsWhere (·.isEmpty)).length := by
  have nodup : (f.slotsWhere (·.isEmpty)).Nodup := List.nodup_range.filter _
  have nodup' : ((f.write n r).slotsWhere (·.isEmpty)).Nodup := List.nodup_range.filter _
  have mem := (f.mem_slotsWhere (·.isEmpty) n).2 ⟨hn, empty⟩
  have rest : ((f.write n r).slotsWhere (·.isEmpty)).Perm ((f.slotsWhere (·.isEmpty)).erase n) := by
    refine (List.perm_ext_iff_of_nodup nodup' (nodup.erase n)).2 fun m => ?_
    rw [nodup.mem_erase_iff, CpuInterface.mem_slotsWhere, CpuInterface.mem_slotsWhere, CpuInterface.count_write,
      CpuInterface.read_write]
    by_cases hmn : m = n
    · subst hmn
      simp [hn, busy]
    · simp [hmn, Ne.symm hmn]
  rw [rest.length_eq, List.length_erase_of_mem mem]
  have := List.length_pos_of_mem mem
  omega

theorem length_free_eq_zero {f : CpuInterface} (full : f.freeSlot? = none) : (f.slotsWhere (·.isEmpty)).length = 0 := by
  rw [List.length_eq_zero_iff]
  exact List.filter_eq_nil_iff.2 (List.find?_eq_none.1 full)

/-- There are enough rounds. -/
theorem refillLoop_enough (rounds rounds' : Nat) (c : Core) (h : c.Sound) (enough : c.spilledIds.length < rounds)
    (enough' : c.spilledIds.length < rounds') :
    refillLoop pendingOnly rounds [] c = refillLoop pendingOnly rounds' [] c := by
  induction rounds generalizing c rounds' with
  | zero => exact absurd enough (Nat.not_lt_zero _)
  | succ rounds ih =>
    obtain ⟨rounds', rfl⟩ := Nat.exists_eq_succ_of_ne_zero (Nat.ne_zero_of_lt enough')
    rw [refillLoop_succ h, refillLoop_succ h]
    cases free : c.interface.freeSlot? with
    | none => rfl
    | some n =>
      cases first : c.firstSpilled? (c.isWanted pendingOnly) with
      | none => rfl
      | some l =>
        obtain ⟨has, -, spilled, wanted⟩ := firstSpilled?_spec first
        obtain ⟨busy, enabled, may, target⟩ := busy_of_isWanted wanted
        obtain ⟨-, shorter⟩ := refilled h has may spilled enabled target busy free
        exact ih rounds' _ ((Operation.refill pendingOnly l n free first).sound h) (by omega) (by omega)

/-- Refilling from the members of `es` brought the members of `ls` back, and not those of `rest`. -/
structure Refilled (c c' : Core) (es ls rest : List Line) : Prop where
  perm : (ls ++ rest).Perm es
  length : ls.length = min (c.interface.slotsWhere (·.isEmpty)).length es.length
  order : ∀ l ∈ ls, ∀ k ∈ rest, c.keyOf l < c.keyOf k
  brought : c.Brought c' ls
  control : c'.interface.control =
    if es.length < (c.interface.slotsWhere (·.isEmpty)).length then
      { c.interface.control with noPending := false, underflow := false }
    else c.interface.control

/-- The most important one comes first. -/
theorem Refilled.cons (h : d.Refilled c' (es.erase l) ls ks) (nodup : es.Nodup)
    (all : ∀ k, k ∈ es ↔ c.Eligible pendingOnly k) (hl : l ∈ es) (first : ∀ k ∈ es, c.keyOf l ≤ c.keyOf k)
    (brought : c.Brought d [l]) (control : d.interface.control = c.interface.control)
    (room : (d.interface.slotsWhere (·.isEmpty)).length + 1 = (c.interface.slotsWhere (·.isEmpty)).length) :
    c.Refilled c' es (l :: ls) ks := by
  have fewer := List.length_erase_of_mem hl
  have some_left := List.length_pos_of_mem hl
  have member : ∀ k, k ∈ ls ++ ks → k ∈ es ∧ k ≠ l := fun k hk =>
    (nodup.mem_erase_iff.1 (h.perm.mem_iff.1 hk)).symm
  have has : ∀ k, k ∈ es → c.vm.Has k := fun k hk => ((all k).1 hk).has
  refine ⟨(h.perm.cons l).trans (List.perm_cons_erase hl).symm, ?_, fun j hj k hk => ?_,
    brought.trans h.brought fun k hk => ?_, ?_⟩
  · rw [List.length_cons, h.length]
    omega
  · obtain ⟨hke, hkl⟩ := member k (List.mem_append_right _ hk)
    rcases List.mem_cons.1 hj with rfl | hj
    · refine lt_of_le_of_ne (first k hke) ?_
      exact keyOf_ne ((all j).1 hl).seen (has j hl) ((all k).1 hke).seen (has k hke) (Ne.symm hkl)
    · have := h.order j hj k hk
      rw [brought.keyOf (has j (member j (List.mem_append_left _ hj)).1), brought.keyOf (has k hke)] at this
      exact this
  · obtain ⟨hke, hkl⟩ := member k (List.mem_append_left _ hk)
    have waits := brought.eligible_iff.2 ⟨(all k).1 hke, fun e => hkl (List.mem_singleton.1 e)⟩
    exact ⟨has k hke, waits.spilled⟩
  · rw [h.control, control]
    exact ite_congr (propext ⟨fun _ => by omega, fun _ => by omega⟩) (fun _ => rfl) fun _ => rfl

theorem refilled_of_full (full : c.interface.freeSlot? = none) : c.Refilled c es [] es := by
  have none := length_free_eq_zero full
  exact ⟨.refl _, by rw [none, Nat.zero_min]; rfl, nofun, .nothing rfl (.refl c) rfl rfl rfl, (if_neg (by omega)).symm⟩

theorem refilled_of_drained (free : c.interface.freeSlot? = some n) : c.Refilled c.dropRequests [] [] [] := by
  have room := List.length_pos_of_mem ((c.interface.mem_slotsWhere (·.isEmpty) n).2 (CpuInterface.freeSlot?_spec free))
  exact ⟨.refl _, by rw [List.length_nil, Nat.min_zero], nofun, .nothing rfl ⟨rfl, rfl, rfl, rfl⟩ rfl rfl rfl,
    (if_pos room).symm⟩

/-- **Refilling, round by round**: the induction is on the rounds, from the first one on. -/
theorem refilled_refillLoop (rounds : Nat) (c : Core) (h : c.Sound) (es : List Line) (nodup : es.Nodup)
    (all : ∀ l, l ∈ es ↔ c.Eligible pendingOnly l) (enough : es.length < rounds) :
    ∃ ls rest, c.Refilled (refillLoop pendingOnly rounds [] c) es ls rest := by
  induction rounds generalizing c es with
  | zero => exact absurd enough (Nat.not_lt_zero _)
  | succ rounds ih =>
    rw [refillLoop_succ h]
    cases free : c.interface.freeSlot? with
    | none => exact ⟨[], es, refilled_of_full free⟩
    | some n =>
      obtain ⟨hn, empty⟩ := CpuInterface.freeSlot?_spec free
      cases first : c.firstSpilled? (c.isWanted pendingOnly) with
      | none =>
        have none : es = [] := by
          rw [firstSpilled?_eq, List.argmin_eq_none] at first
          refine List.eq_nil_iff_forall_not_mem.2 fun l hl => ?_
          have := (mem_spilledLines h).2 ((all l).1 hl)
          rw [first] at this
          cases this
        subst none
        exact ⟨[], [], refilled_of_drained free⟩
      | some l =>
        have eligible := (mem_spilledLines h).1 (firstBest_mem first)
        have hl := (all l).2 eligible
        obtain ⟨brought, interface⟩ := brought_round h free eligible
        have sound := (Operation.refill pendingOnly l n free first).sound h
        simp only
        generalize ((c.claim l).place l).1 = d at brought interface sound
        have busy := busy_presented h eligible.has eligible.busy
        have smaller := length_free_write hn empty (ListRegister.not_isEmpty_of_busy busy)
        rw [← interface] at smaller
        have all' : ∀ k, k ∈ es.erase l ↔ d.Eligible pendingOnly k := fun k => by
          rw [nodup.mem_erase_iff, brought.eligible_iff, all k, List.mem_singleton, and_comm]
        have fewer := List.length_erase_of_mem hl
        have some_left := List.length_pos_of_mem hl
        obtain ⟨ls, rest, refilled⟩ := ih d sound (es.erase l) (nodup.erase l) all' (by omega)
        exact ⟨l :: ls, rest, refilled.cons nodup all hl
          (fun k hk => firstSpilled?_first first ((mem_spilledLines h).2 ((all k).1 hk))) brought
          (by rw [interface]; exact CpuInterface.control_write ..) smaller⟩

/-- **What refilling brings back.** -/
theorem Sound.refill (h : c.Sound) (pendingOnly : Bool) :
    ∃ es ls rest, es.Nodup ∧ (∀ l, l ∈ es ↔ c.Eligible pendingOnly l) ∧
      c.Refilled (c.refill pendingOnly) es ls rest := by
  have nodup := nodup_spilledLines h (c.isWanted pendingOnly)
  have short : (c.spilledLines (c.isWanted pendingOnly)).length ≤ c.spilledIds.length :=
    (List.length_filter_le ..).trans (List.length_filterMap_le ..)
  obtain ⟨ls, rest, refilled⟩ := refilled_refillLoop (c.spilledIds.length + 1) c h _ nodup (fun _ => mem_spilledLines h)
    (Nat.lt_succ_of_le short)
  exact ⟨_, ls, rest, nodup, fun _ => mem_spilledLines h, refilled⟩

end Core

namespace Machine

variable {m : Machine} {cpu : Nat} {c : Core}

/-- **Refilling is exact.**  Of the spilled interrupts that may come back, the most important ones do, as many as there are
free list registers, each with the state of its record.  Nothing else changes but for the last occupants of these list
registers, nothing is posted, and the requests for maintenance are dropped if there is room for more.  More rounds would
change nothing. -/
theorem Arises.refills (h : m.Arises) (hw : m.Working cpu c) (pendingOnly : Bool) :
    ∃ es ls rest, es.Nodup ∧ (∀ l, l ∈ es ↔ c.Eligible pendingOnly l) ∧
      c.Refilled (c.refill pendingOnly) es ls rest ∧
      (∀ l ∈ ls, (c.presented l).1.Restores (c.presented l).2.requesters (c.vm.countsRequesters l) l (c.interrupt l)) ∧
      ∀ rounds, c.spilledIds.length < rounds → Core.refillLoop pendingOnly rounds [] c = c.refill pendingOnly := by
  obtain ⟨hs, ht⟩ := h.working hw
  obtain ⟨es, ls, rest, nodup, all, refilled⟩ := hs.refill pendingOnly
  refine ⟨es, ls, rest, nodup, all, refilled, fun l hl => ?_, fun rounds enough =>
    Core.refillLoop_enough rounds _ c hs enough (Nat.lt_succ_self _)⟩
  have eligible := (all l).1 (refilled.perm.mem_iff.1 (List.mem_append_left _ hl))
  exact Core.restores_presented hs eligible.has (hs.off_of_spilled eligible.has eligible.spilled)
    (ht l eligible.has ((c.mayClaim_iff l).2 eligible.free)) eligible.busy

/-- The only list register holds an interrupt of the vCPU that the guest has completed, and another one is spilled. -/
def reusable : Machine :=
  uncrowded.run
    [⟨0, store distributorBase 4 1⟩, ⟨0, store (distributorBase + 0x104) 4 1⟩,
      ⟨0, store (distributorBase + 0x100) 4 0x100000⟩, ⟨0, .inject 20⟩, ⟨0, .inject 32⟩, ⟨0, .acknowledge⟩, ⟨0, .complete 20⟩]

theorem reachable_reusable : reusable.Reachable := (Reachable.boot boot_uncrowded).run _

theorem core?_reusable : reusable.core? 0 = some (0, reusable.firstCore) :=
  reachable_reusable.arises.core?_first (by decide +kernel) (by decide +kernel)

theorem refills_reusable : reusable.Working 0 reusable.firstCore ∧ reusable.firstCore.Eligible true (.shared 32) ∧
    ∃ es ls rest, es.Nodup ∧ (∀ l, l ∈ es ↔ reusable.firstCore.Eligible true l) ∧
      reusable.firstCore.Refilled (reusable.firstCore.refill true) es ls rest := by
  have working : reusable.Working 0 reusable.firstCore := .act core?_reusable .refl
  obtain ⟨es, ls, rest, nodup, all, refilled, -⟩ := reachable_reusable.arises.refills working true
  have eligible : reusable.firstCore.Eligible true (.shared 32) :=
    ⟨has_shared (by decide +kernel) (by decide), nofun, by decide +kernel, by decide +kernel, by decide +kernel,
      by decide +kernel, by decide +kernel⟩
  exact ⟨working, eligible, es, ls, rest, nodup, all, refilled⟩

/-- **The last occupant of a slot that is taken over need not be given up**: an interrupt of a vCPU never is under
version 2. -/
theorem not_given_up : ¬ ∀ (m : Machine) (cpu i : Nat) (c : Core) (pendingOnly : Bool) (k : Line), m.Reachable →
    m.core? cpu = some (i, c) → c.vm.Has k → c.vm.Credits c.vcpu k (c.interrupt k).slot →
    ((c.refill pendingOnly).interrupt k).resident = false → ((c.refill pendingOnly).interrupt k).owner = none := by
  intro h
  have free := h reusable 0 0 _ true (.banked 0 20) reachable_reusable core?_reusable
    ⟨by decide +kernel, by decide, fun _ h => by cases h; decide +kernel⟩
    ⟨by decide +kernel, by decide +kernel, rfl⟩ (by decide +kernel)
  exact absurd free (by decide +kernel)

end Machine
end VirtualGic
