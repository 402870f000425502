import VirtualGic.Proofs.Calls
import VirtualGic.Proofs.Selection
/-!
# Making room

What a call of `place` does when no list register is free (`Core.Accommodates`): the victim gives its slot up to the
newcomer and waits on its spill list, or else the newcomer does.  A waiting interrupt is evicted only if another one stays,
and it is the least important of those that wait (`Core.Evicted.least`); whether it is less important than the newcomer is
not asked.
-/
namespace VirtualGic

/-- Two interrupts of one number and one home are the same. -/
theorem Line.eq_of_home {k l : Line} (home : k.home? = l.home?) (id : k.id = l.id) : k = l := by
  cases k with
  | shared i =>
    cases l with
    | shared j => exact congrArg Line.shared id
    | banked => cases home
  | banked v i =>
    cases l with
    | shared => cases home
    | banked w j =>
      obtain rfl := Option.some.inj home
      exact congrArg (Line.banked v) id

namespace Core

variable {c c' d : Core} {j k l : Line} {n : Nat}

/-! ## The victim -/

/-- An interrupt was evicted from a slot: it waits on its spill list with the state that it had. -/
structure Evicted (c c' : Core) (k : Line) (n : Nat) : Prop where
  has : c.vm.Has k
  credited : c.vm.Credits c.vcpu k n
  off : (c'.interrupt k).resident = false
  spilled : (c'.interrupt k).spilled = true
  listed : k.id ∈ c'.vm.spillList k.home?
  settings : (c.interrupt k).SameSettings (c'.interrupt k)
  state : c.vm.countsRequesters k = false → (c'.interrupt k).state = c.stateOf k
  /-- A version 2 software interrupt has the same requests, and is pending if it has any. -/
  requests : c.vm.countsRequesters k = true → (c'.interrupt k).requesters = c.pendingRequesters k ∧
    (c'.interrupt k).state = ⟨c.pendingRequesters k != 0, (c.stateOf k).active⟩
  requester : c.vm.countsRequesters k = true → (c.stateOf k).active = true →
    (c'.interrupt k).activeRequester = (c.interface.read n).requester.setWidth 8
  owner : (c'.interrupt k).owner =
    if (c.stateOf k).active || (c.vm.version == .v2 && k.isBanked) then some c.vcpu else none

/-- The record that a version 2 software interrupt has out of its list register. -/
theorem takenBack_of_counts {r : ListRegister} (h : c.held? k = some r) (counts : c.vm.countsRequesters k = true) :
    (c.takenBack k r).requesters = c.pendingRequesters k ∧
      (c.takenBack k r).state = ⟨c.pendingRequesters k != 0, r.state.active⟩ ∧
      (r.state.active = true → (c.takenBack k r).activeRequester = r.requester.setWidth 8) := by
  have requesters : (c.takenBack k r).requesters = c.pendingRequesters k := by
    rw [requesters_takenBack counts, pendingRequesters, h]
  refine ⟨requesters, by rw [state_takenBack_of_counts counts, requesters], fun active => ?_⟩
  simp only [takenBack, counts, if_true, ListRegister.restoreRequest, active]

/-- What eviction makes of the records. -/
theorem interrupt_evict (h : c.Sound) (hk : c.vm.Has k) (hc : c.vm.Credits c.vcpu k n) (j : Line) :
    (c.evict n).interrupt j =
      if k = j then
        Interrupt.release { c.takenBack k (c.interface.read n) with spilled := true } c.vm.version k c.vcpu
      else c.interrupt j := by
  have fw := frame_withdraw h hk hc.1
  have fs := frame_spill (c.withdraw k) k
  have taken : (c.withdraw k).interrupt k = c.takenBack k (c.interface.read n) := by
    rw [interrupt_withdraw h hk hc.1, h.held? hk hc]
  have others : k ≠ j → (c.withdraw k).interrupt j = c.interrupt j := fun hkj => by
    rw [withdraw_of_held (h.held? hk hc)]
    split <;> exact (interrupt_setInterrupt ..).trans (if_neg hkj)
  rw [evict_eq h hk hc, interrupt_release, interrupt_spill, if_pos rfl, Vm.version_congr (fw.trans fs).partition,
    (fw.trans fs).vcpu, taken]
  split
  next => rfl
  next hkj => rw [interrupt_spill, if_neg hkj, others hkj]

theorem owner_evicted {s : Interrupt} {version : GicVersion} {v : Nat} (mine : s.owner = some v) (off : s.resident = false) :
    (s.release version k v).owner = if s.state.active || (version == .v2 && k.isBanked) then some v else none := by
  unfold Interrupt.release Interrupt.releasable Interrupt.ownedBy
  rw [mine, off]
  cases s.state.active <;> cases version == .v2 && k.isBanked <;> simp [mine]

/-- **Eviction** keeps the state of the victim. -/
theorem evicted_evict (h : c.Sound) (hk : c.vm.Has k) (hc : c.vm.Credits c.vcpu k n) (sound : (c.evict n).Sound)
    (same : Same c (c.evict n)) : Evicted c (c.evict n) k n := by
  have held := h.held? hk hc
  have state := stateOf_of_held held
  have record := (interrupt_evict h hk hc k).trans (if_pos rfl)
  have mine : (c.takenBack k (c.interface.read n)).owner = some c.vcpu := (owner_takenBack ..).trans hc.1
  have spilled : ((c.evict n).interrupt k).spilled = true := by rw [record, Interrupt.spilled_release]
  have active : (c.takenBack k (c.interface.read n)).state.active = (c.stateOf k).active := by
    rw [state]
    unfold takenBack
    split <;> rfl
  refine ⟨hk, hc, ?_, spilled, (sound.lists.mem_iff k ((Vm.has_congr same.partition k).2 hk)).2 spilled, ?_,
    fun plain => ?_, fun counts => ?_, fun counts ha => ?_, ?_⟩ <;> rw [record]
  · rw [resident_release]
    exact resident_takenBack ..
  · refine (sameSettings_takenBack c k (c.interface.read n)).trans (.trans ?_ (Interrupt.sameSettings_release ..))
    exact ⟨rfl, rfl, rfl, rfl, rfl, rfl, rfl, rfl⟩
  · rw [Interrupt.state_release, state]
    exact state_takenBack plain _
  · obtain ⟨requesters, st, -⟩ := takenBack_of_counts held counts
    rw [Interrupt.state_release, state]
    refine ⟨?_, st⟩
    rw [← requesters]
    unfold Interrupt.release
    split <;> rfl
  · rw [state] at ha
    rw [← (takenBack_of_counts held counts).2.2 ha]
    unfold Interrupt.release
    split <;> rfl
  · rw [← active]
    exact owner_evicted (s := { c.takenBack k (c.interface.read n) with spilled := true }) mine (resident_takenBack ..)

/-- Later changes to others do not matter. -/
theorem Evicted.congr (h : Evicted c d k n) (record : c'.interrupt k = d.interrupt k)
    (listed : k.id ∈ c'.vm.spillList k.home?) : Evicted c c' k n := by
  refine ⟨h.has, h.credited, ?_, ?_, listed, ?_, ?_, ?_, ?_, ?_⟩ <;> rw [record]
  exacts [h.off, h.spilled, h.settings, h.state, h.requests, h.requester, h.owner]

/-- The slot of the victim is credited to none. -/
theorem vacant_evict (h : c.Sound) (hk : c.vm.Has k) (hc : c.vm.Credits c.vcpu k n)
    (off : ((c.evict n).interrupt k).resident = false) (same : Same c (c.evict n)) (j : Line) (hj : (c.evict n).vm.Has j) :
    ¬ (c.evict n).vm.Credits (c.evict n).vcpu j n := by
  intro hcj
  by_cases hkj : k = j
  · subst hkj
    exact absurd (off.symm.trans hcj.2.1) (by decide)
  · have record : (c.evict n).vm.interrupt j = c.vm.interrupt j := (interrupt_evict h hk hc j).trans (if_neg hkj)
    unfold Vm.Credits at hcj
    rw [record, same.vcpu] at hcj
    exact hkj (h.unique hk ((Vm.has_congr same.partition j).1 hj) hc hcj)

/-- A slot that is credited to none is settled by noting who takes it. -/
theorem settle_of_vacant (h : c.Sound) (vacant : ∀ j, c.vm.Has j → ¬ c.vm.Credits c.vcpu j n) (id : Nat) :
    c.settle n id = { c with vm := c.vm.setOccupant c.vcpu n id } := by
  have other : ∀ j, c.vm.Has j → c.vm.Credits c.vcpu j n → j.id ≠ id := fun j hj hc => absurd hc (vacant j hj)
  rcases settle_cases h other with ⟨-, e⟩ | ⟨j, hj, hc, -⟩
  · exact e
  · exact absurd hc (vacant j hj)

/-! ## The newcomer -/

/-- **Seating an interrupt**, in terms of the core whose slot is settled. -/
theorem seat_of_settle {d : Core} (e : c.settle n l.id = d) (partition : d.vm.partition = c.vm.partition)
    (record : d.interrupt l = c.interrupt l) (interface : d.interface = c.interface) :
    (c.seat l n).interface = c.interface.write n (c.presented l).1 ∧
      (∀ j, (c.seat l n).interrupt j = if l = j then c.seated l n else d.interrupt j) ∧
      ∀ home, (c.seat l n).vm.spillList home =
        if (c.presented l).2.spilled = true ∧ l.home? = home then (c.vm.spillList home).filter (· != l.id)
        else c.vm.spillList home := by
  have presented : d.presented l = c.presented l := presented_congr partition record
  rw [seat_eq, e]
  refine ⟨?_, fun j => ?_, fun home => ?_⟩
  · show d.interface.write n (d.presented l).1 = _
    rw [presented, interface]
  · rw [interrupt_unspill, interrupt_setInterrupt, if_pos rfl, presented]
    split
    next => rfl
    next hlj => rw [interrupt_setInterrupt, if_neg hlj, interrupt_writeSlot]
  · rw [spillList_unspill, interrupt_setInterrupt, if_pos rfl, presented, vm_setInterrupt, Vm.spillList_setInterrupt,
      vm_writeSlot, ← e, spillList_settle]

/-- What a call of `place` does with a newcomer when no list register is free. -/
inductive Accommodates (c : Core) (l : Line) : Core × Bool → Prop
  /-- The newcomer takes the slot of the victim, which waits on its spill list. -/
  | evicting {c' : Core} (n : Nat) (k : Line) (victim : c.interface.victim? = some n) (evicted : Evicted c c' k n)
    (slot : (c'.interrupt l).slot = n) (held : c'.held? l = some (c.presented l).1)
    (unspilled : (c'.interrupt l).spilled = false)
    (slots : ∀ m, m ≠ n → c'.interface.read m = c.interface.read m)
    (records : ∀ j, j ≠ k → j ≠ l → c'.interrupt j = c.interrupt j) : Accommodates c l (c', true)
  /-- Nothing may go: the newcomer waits on its spill list. -/
  | parking {c' : Core} (none : c.interface.victim? = none)
    (record : c'.interrupt l = { c.interrupt l with spilled := true }) (listed : l.id ∈ c'.vm.spillList l.home?)
    (slots : c'.interface.registers = c.interface.registers)
    (records : ∀ j, j ≠ l → c'.interrupt j = c.interrupt j) : Accommodates c l (c', false)

theorem place_of_makeRoom {room : Core × Option Nat} (h : c.InHand l) (enabled : (c.interrupt l).enabled = true)
    (e : c.makeRoom = room) : c.place l = room.2.elim (room.1.spill l, false) fun n => (room.1.seat l n, true) := by
  have may : c.mayPlace l = true := (mayPlace_eq h).trans enabled
  rw [place, if_pos may, e]
  obtain ⟨d, _ | n⟩ := room <;> rfl

/-- A newcomer for which nothing may go. -/
theorem accommodates_spill (h : c.InHand l) (busy : (c.interrupt l).state.isIdle = false)
    (victim : c.interface.victim? = none) : c.Accommodates l (c.spill l, false) := by
  have spilled := (interrupt_spill c l l).trans (if_pos rfl)
  have has := (Vm.has_congr (frame_spill c l).partition l).2 h.has
  have listed := ((h.sound.spill h.has h.off busy).lists.mem_iff l has).2 (congrArg Interrupt.spilled spilled)
  exact .parking victim spilled listed rfl fun j hj => (interrupt_spill ..).trans (if_neg (Ne.symm hj))

/-- A newcomer that takes the slot of the victim. -/
theorem accommodates_evict (h : c.InHand l) (victim : c.interface.victim? = some n) :
    c.Accommodates l ((c.evict n).seat l n, true) := by
  obtain ⟨hn, hb⟩ := CpuInterface.victim?_spec victim
  obtain ⟨k, hk, hc, -⟩ := h.sound.named hb
  have room := room_evict h.sound h.has h.off hn hb
  have evicted := evicted_evict h.sound hk hc room.sound room.frame.toSame
  have records := interrupt_evict h.sound hk hc
  have hkl : k ≠ l := by
    rintro rfl
    exact absurd (h.off.symm.trans hc.2.1) (by decide)
  -- the slot is credited to none, so seating the newcomer settles nobody
  have settle := settle_of_vacant room.sound (vacant_evict h.sound hk hc evicted.off room.frame.toSame) l.id
  obtain ⟨interface, seated, lists⟩ := seat_of_settle settle rfl (Vm.interrupt_setOccupant ..) rfl
  have vcpu : ((c.evict n).seat l n).vcpu = c.vcpu := by
    rw [seat_eq, settle]
    exact room.frame.vcpu
  have presented : (c.evict n).presented l = c.presented l := presented_congr room.frame.partition room.record
  obtain ⟨names, -, q, hq⟩ := presented_spec h.sound h.has
  have newcomer : ((c.evict n).seat l n).interrupt l = c.seated l n := by
    rw [seated, if_pos rfl, Core.seated, presented, Core.seated]
  have register : ((c.evict n).seat l n).interface.read n = (c.presented l).1 := by
    rw [interface, CpuInterface.read_write, if_pos ⟨rfl, room.slot_lt⟩, presented]
  have others : ∀ j, l ≠ j → ((c.evict n).seat l n).interrupt j = (c.evict n).interrupt j := fun j hj =>
    ((seated j).trans (if_neg hj)).trans (Vm.interrupt_setOccupant ..)
  have listed : k.id ∈ ((c.evict n).seat l n).vm.spillList k.home? := by
    rw [lists]
    split
    next hl => exact List.mem_filter.2 ⟨evicted.listed, bne_iff_ne.2 fun id => hkl (Line.eq_of_home hl.2.symm id)⟩
    next => exact evicted.listed
  have evicted : Evicted c ((c.evict n).seat l n) k n := evicted.congr (others k (Ne.symm hkl)) listed
  refine .evicting n k victim evicted ?_ ?_ ?_ (fun m hm => ?_) fun j hjk hjl => ?_
  · rw [newcomer]; rfl
  · refine (held?_eq_some_iff ..).2 ⟨n, ?_, register, names⟩
    unfold Vm.Credits
    rw [show ((c.evict n).seat l n).vm.interrupt l = _ from newcomer, vcpu, Core.seated, hq]
    exact ⟨h.mine, rfl, rfl⟩
  · rw [newcomer]; rfl
  · rw [interface, read_write_empty _ _ m hm]
    exact (interface_evict h.sound hb).2 m hm
  · rw [others j (Ne.symm hjl), records, if_neg (Ne.symm hjk)]

/-- **Where no list register is free**, the victim makes room for the newcomer, or the newcomer is spilled. -/
theorem accommodates_place (h : c.InHand l) (enabled : (c.interrupt l).enabled = true)
    (busy : (c.interrupt l).state.isIdle = false) (full : c.interface.freeSlot? = none) :
    c.Accommodates l (c.place l) := by
  cases hv : c.interface.victim? with
  | none =>
    have parks : c.makeRoom = (c, none) := by simp only [makeRoom, full, hv]
    rw [place_of_makeRoom h enabled parks]
    exact accommodates_spill h busy hv
  | some n =>
    have evicts : c.makeRoom = (c.evict n, some n) := by simp only [makeRoom, full, hv]
    rw [place_of_makeRoom h enabled evicts]
    exact accommodates_evict h hv

/-- **A pending list register stays**: the only one is never evicted. -/
theorem Accommodates.waits {b : Bool} (h : c.Accommodates l (c', b))
    (waits : ∃ n, (c.interface.read n).state.isWaiting = true) : ∃ n, (c'.interface.read n).state.isWaiting = true := by
  obtain ⟨m, hm⟩ := waits
  cases h with
  | parking none record listed slots records =>
    refine ⟨m, ?_⟩
    unfold CpuInterface.read at hm ⊢
    rw [slots]
    exact hm
  | evicting n k victim evicted slot held unspilled slots records =>
    obtain ⟨m, hmn, hm⟩ := (victim ▸ c.interface.victim_victim?).leaves hm
    exact ⟨m, by rw [slots m hmn]; exact hm⟩

/-! ## The least important -/

theorem Sound.keyOf_slot (h : c.Sound) (hk : c.vm.Has k) (hc : c.vm.Credits c.vcpu k n) :
    c.interface.keyOf n = c.keyOf k := by
  obtain ⟨-, names, -, shows⟩ := h.seated.seat k n hk hc
  rw [hc.2.2] at names shows
  rw [ListRegister.names, beq_iff_eq] at names
  unfold CpuInterface.keyOf keyOf
  rw [names, shows.priority]
  rfl

/-- Interrupts that one core sees differ in their numbers. -/
theorem keyOf_ne (sj : j.SeenBy c.vcpu) (hj : c.vm.Has j) (sk : k.SeenBy c.vcpu) (hk : c.vm.Has k) (hjk : j ≠ k) :
    c.keyOf j ≠ c.keyOf k := fun e => by
  have id : j.id = k.id := Rank.id_eq_of_key_eq e
  exact hjk (Vm.eq_of_id hj hk sj sk id)

/-- A list register of this core shows an interrupt pending and not active. -/
def ShowsPending (c : Core) (k : Line) : Prop :=
  c.vm.Has k ∧ ∃ n, c.vm.Credits c.vcpu k n ∧ (c.interface.read n).state.isWaiting = true

/-- **A pending victim is the least important one of several.** -/
theorem Sound.least_waiting (h : c.Sound) (victim : c.interface.victim? = some n) (hk : c.vm.Has k)
    (hc : c.vm.Credits c.vcpu k n) (waiting : (c.interface.read n).state.isWaiting = true) :
    (∀ j, c.ShowsPending j → j ≠ k → c.keyOf j < c.keyOf k) ∧ ∃ j, c.ShowsPending j ∧ j ≠ k := by
  have hv := victim ▸ c.interface.victim_victim?
  obtain ⟨m, hmn, hm⟩ := hv.leaves waiting
  obtain ⟨j, hj, hjm, -⟩ := h.named (Interrupt.State.isIdle_of_isWaiting hm)
  refine ⟨fun i ⟨hi, p, hip, hp⟩ hik => ?_, j, ⟨hj, m, hjm, hm⟩, ?_⟩
  · have least := hv.least waiting hp
    rw [h.keyOf_slot hi hip, h.keyOf_slot hk hc] at least
    exact lt_of_le_of_ne least <| keyOf_ne (h.seen_of_credits hi hip) hi (h.seen_of_credits hk hc) hk hik
  · rintro rfl
    exact hmn (hjm.slot_eq hc)

/-- What a write to the pending bit of an interrupt passes to `place`. -/
def askedFor (c : Core) (l : Line) : Core :=
  (c.grasp l).edit l (RegisterGroup.setPending.apply (c.grasp l).vm l 1 ((c.grasp l).interrupt l))

theorem Calls.askedFor (has : c.vm.Has l) (may : c.mayClaim l = true)
    (busy : ((c.askedFor l).interrupt l).state.isIdle = false) (target : (c.askedFor l).isTarget l = true) : c.Calls (c.askedFor l) l :=
  .deliver (.write .setPending l 1 (c.askedFor l).gic has may) busy target

end Core

namespace Machine

variable {m : Machine} {cpu : Nat} {c d : Core} {l : Line} {n : Nat}

/-- The core of the first CPU, where that runs the first vCPU of the first VM. -/
def firstCore (m : Machine) : Core := ⟨0, 0, m.firstVm, m.interfaces.get 0, m.bus, m.gic⟩

theorem Arises.core?_first (h : m.Arises) (some_vm : 0 < m.vms.size) (pinned : m.firstVm.pcpuOf? 0 = some 0) :
    m.core? 0 = some (0, m.firstCore) :=
  h.sound.core_of_pcpuOf? (vms_zero some_vm) pinned

theorem Arises.sound_call (h : m.Arises) (hw : m.Working cpu c) (hd : d = c ∨ c.Calls d l) : d.Sound := by
  rcases hd with rfl | call
  · exact h.sound_working hw
  · exact (call.inHand (h.sound_working hw)).1.sound

/-- **Making room.**  Whatever the list registers show, they determine the victim.  Where none is free, a call of `place`
evicts it with the state that it had and seats the newcomer in its slot, or spills the newcomer if there is none, and one
that is pending stays if one was.  This is so for every call in the middle of an action, and for any other at a core between
two operations. -/
theorem Arises.makes_room (h : m.Arises) :
    (∀ f : CpuInterface, f.Victim f.victim?) ∧
      ∀ (cpu : Nat) (c d : Core) (l : Line), m.Working cpu c → (d = c ∨ c.Calls d l) → d.vm.Has l →
        (d.interrupt l).owner = some d.vcpu → (d.interrupt l).resident = false → (d.interrupt l).enabled = true →
        (d.interrupt l).state.isIdle = false → d.interface.freeSlot? = none →
        d.Accommodates l (d.place l) ∧ ((∃ n, (d.interface.read n).state.isWaiting = true) →
          ∃ n, ((d.place l).1.interface.read n).state.isWaiting = true) := by
  refine ⟨CpuInterface.victim_victim?, fun cpu c d l hw hd has mine off enabled busy full => ?_⟩
  have room := Core.accommodates_place ⟨h.sound_call hw hd, has, mine, off⟩ enabled busy full
  exact ⟨room, room.waits⟩

/-- Two list registers with a pending interrupt each, and two more interrupts: one is more important, the other less. -/
def occupied : Machine :=
  (started 1 [2] [.standard .v2 1 64 [0] []]).run
    [⟨0, store distributorBase 4 1⟩, ⟨0, store (distributorBase + 0x104) 4 0xf⟩,
      ⟨0, store (distributorBase + 0x420) 4 0x80104040⟩, ⟨0, .inject 32⟩, ⟨0, .inject 33⟩]

theorem reachable_occupied : occupied.Reachable := (reachable_started (by decide +kernel)).run _

theorem working_occupied : occupied.Working 0 occupied.firstCore :=
  .act (reachable_occupied.arises.core?_first (by decide +kernel) (by decide +kernel)) .refl

/-- Each of the two others asks for a list register, and none is free. -/
theorem calls_occupied {id : Nat} (other : id = 34 ∨ id = 35) :
    occupied.firstCore.Calls (occupied.firstCore.askedFor (.shared id)) (.shared id) ∧
      ((occupied.firstCore.askedFor (.shared id)).interrupt (.shared id)).enabled = true ∧
      (occupied.firstCore.askedFor (.shared id)).interface.freeSlot? = none ∧
      (occupied.firstCore.askedFor (.shared id)).interface.victim? = some 1 := by
  have facts : ∀ id ∈ [34, 35], id < occupied.firstCore.vm.interruptCount ∧
      occupied.firstCore.mayClaim (.shared id) = true ∧
      ((occupied.firstCore.askedFor (.shared id)).interrupt (.shared id)).state.isIdle = false ∧
      (occupied.firstCore.askedFor (.shared id)).isTarget (.shared id) = true ∧
      ((occupied.firstCore.askedFor (.shared id)).interrupt (.shared id)).enabled = true ∧
      (occupied.firstCore.askedFor (.shared id)).interface.freeSlot? = none ∧
      (occupied.firstCore.askedFor (.shared id)).interface.victim? = some 1 := by decide +kernel
  obtain ⟨lt, may, busy, target, rest⟩ := facts id (by simpa using other)
  exact ⟨.askedFor (has_shared lt (by rcases other with rfl | rfl <;> decide)) may busy target, rest⟩

theorem makes_room_occupied : occupied.Working 0 occupied.firstCore ∧
    occupied.firstCore.Calls (occupied.firstCore.askedFor (.shared 34)) (.shared 34) ∧
    (occupied.firstCore.askedFor (.shared 34)).interface.freeSlot? = none ∧
    (occupied.firstCore.askedFor (.shared 34)).Accommodates (.shared 34)
      ((occupied.firstCore.askedFor (.shared 34)).place (.shared 34)) := by
  obtain ⟨call, enabled, full, -⟩ := @calls_occupied 34 (.inl rfl)
  obtain ⟨hand, busy, -⟩ := call.inHand (reachable_occupied.arises.sound_working working_occupied)
  exact ⟨working_occupied, call, full, (reachable_occupied.arises.makes_room.2 0 _ _ _ working_occupied (.inr call)
    hand.has hand.mine hand.off enabled busy full).1⟩

/-- The only list register holds an active software interrupt, which is requested again. -/
def requested : Machine :=
  uncrowded.run
    [⟨0, store distributorBase 4 1⟩, ⟨0, store (distributorBase + 0x104) 4 1⟩,
      ⟨0, store (distributorBase + 0xf00) 4 0x2000001⟩, ⟨0, .acknowledge⟩, ⟨0, store (distributorBase + 0xf00) 4 0x2000001⟩]

theorem reachable_requested : requested.Reachable := (Reachable.boot boot_uncrowded).run _

/-- **Not every victim has the same state after it is evicted**: the requests for a software interrupt wait outside of its
list register while it is active, and make it pending as soon as it is out. -/
theorem not_same_state_evicted : ¬ ∀ (m : Machine) (cpu : Nat) (c d : Core) (l k : Line) (n : Nat), m.Reachable →
    m.Working cpu c → c.Calls d l → (d.interrupt l).enabled = true → d.interface.freeSlot? = none →
    d.interface.victim? = some n → d.vm.Has k → d.vm.Credits d.vcpu k n →
    ((d.place l).1.interrupt k).state = d.stateOf k := by
  intro h
  have call : requested.firstCore.Calls (requested.firstCore.askedFor (.shared 32)) (.shared 32) :=
    .askedFor (has_shared (by decide +kernel) (by decide)) (by decide +kernel) (by decide +kernel) (by decide +kernel)
  have same := h requested 0 _ _ _ (.banked 0 1) 0 reachable_requested
    (.act (reachable_requested.arises.core?_first (by decide +kernel) (by decide +kernel)) .refl) call (by decide +kernel)
    (by decide +kernel) (by decide +kernel) ⟨by decide +kernel, by decide, fun _ h => by cases h; decide +kernel⟩
    ⟨by decide +kernel, by decide +kernel, by decide +kernel⟩
  exact absurd same (by decide +kernel)

/-- **Evicting a pending interrupt.**  It is the least important of those that are pending in the list registers, of which
another one stays.  So it is more important than the newcomer exactly where all of them are. -/
theorem Arises.evicts_least (h : m.Arises) (hw : m.Working cpu c) (call : c.Calls d l)
    (enabled : (d.interrupt l).enabled = true) (full : d.interface.freeSlot? = none)
    (victim : d.interface.victim? = some n) (waiting : (d.interface.read n).state.isWaiting = true) :
    ∃ k, (d.place l).2 = true ∧ d.Evicted (d.place l).1 k n ∧ (∀ j, d.ShowsPending j → j ≠ k → d.keyOf j < d.keyOf k) ∧
      (∃ j, d.ShowsPending j ∧ j ≠ k) ∧ (d.keyOf l < d.keyOf k ∨ d.keyOf k < d.keyOf l) ∧
      (d.keyOf k < d.keyOf l ↔ ∀ j, d.ShowsPending j → d.keyOf j < d.keyOf l) := by
  obtain ⟨hand, busy, target⟩ := call.inHand (h.sound_working hw)
  have room := Core.accommodates_place hand enabled busy full
  generalize d.place l = placed at room
  cases room with
  | parking none => rw [none] at victim; cases victim
  | evicting n' k victim' evicted =>
    obtain rfl : n' = n := Option.some.inj (victim'.symm.trans victim)
    have seen := hand.sound.seen_of_credits evicted.has evicted.credited
    obtain ⟨least, another⟩ := hand.sound.least_waiting victim evicted.has evicted.credited waiting
    have differs : l ≠ k := by
      rintro rfl
      exact absurd (hand.off.symm.trans evicted.credited.2.1) (by decide)
    have ne := Core.keyOf_ne (Line.seenBy_of_target target) hand.has seen evicted.has differs
    refine ⟨k, rfl, evicted, least, another, lt_or_gt_of_ne ne, fun lt j hj => ?_, fun all => ?_⟩
    · by_cases hjk : j = k
      · rw [hjk]; exact lt
      · exact (least j hj hjk).trans lt
    · exact all k ⟨evicted.has, n', evicted.credited, waiting⟩

theorem evicts_least_occupied : (occupied.firstCore.askedFor (.shared 34)).interface.victim? = some 1 ∧
    ∃ k, (occupied.firstCore.askedFor (.shared 34)).Evicted
      ((occupied.firstCore.askedFor (.shared 34)).place (.shared 34)).1 k 1 ∧
      (occupied.firstCore.askedFor (.shared 34)).keyOf (.shared 34) <
        (occupied.firstCore.askedFor (.shared 34)).keyOf k := by
  obtain ⟨call, enabled, full, victim⟩ := @calls_occupied 34 (.inl rfl)
  obtain ⟨k, -, evicted, -, -, order, inverted⟩ :=
    reachable_occupied.arises.evicts_least working_occupied call enabled full victim (by decide +kernel)
  refine ⟨victim, k, evicted, order.resolve_right fun lt => ?_⟩
  -- interrupt 32 is less important than the newcomer
  have := inverted.1 lt (.shared 32) ⟨has_shared (by decide +kernel) (by decide), 0,
    ⟨by decide +kernel, by decide +kernel, by decide +kernel⟩, by decide +kernel⟩
  exact absurd this (by decide +kernel)

/-- **A pending interrupt gives way to a less important one**: the victim is not compared with the newcomer. -/
theorem inverted_occupied : ¬ ∀ (m : Machine) (cpu : Nat) (c d : Core) (l k : Line) (n : Nat), m.Reachable →
    m.Working cpu c → c.Calls d l → (d.interrupt l).enabled = true → d.interface.freeSlot? = none →
    d.interface.victim? = some n → (d.interface.read n).state.isWaiting = true → d.vm.Has k → d.vm.Credits d.vcpu k n →
    d.keyOf l < d.keyOf k := by
  intro h
  obtain ⟨call, enabled, full, victim⟩ := @calls_occupied 35 (.inr rfl)
  have before := h occupied 0 _ _ _ (.shared 33) 1 reachable_occupied working_occupied call enabled full victim
    (by decide +kernel) (has_shared (by decide +kernel) (by decide))
    ⟨by decide +kernel, by decide +kernel, by decide +kernel⟩
  exact absurd before (by decide +kernel)

end Machine
end VirtualGic
