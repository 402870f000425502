import VirtualGic.Proofs.Conserved
import VirtualGic.Proofs.Presented
import VirtualGic.Proofs.Standing
/-!
# No request is lost or made twice

`Machine.KeepsRequests`: the pending requests for a version 2 software interrupt are the set in its record and the one
request that a list register may hold.  They grow by the requests that are made and shrink by those that are withdrawn
and those that the guest takes.  Nothing else changes them, wherever the interrupt goes.
-/
namespace VirtualGic

/-! ## Deeds -/

namespace Deed

/-- What a deed does to the requests for an interrupt. -/
def request (vm : Vm) (l : Line) : Deed → BitVec 8 → BitVec 8
  | write .setRequesters k v, p => if k = l then p ||| RegisterGroup.vcpusIn vm v else p
  | write .clearRequesters k v, p => if k = l then p &&& ~~~(v.setWidth 8) else p
  | _, p => p

def requests (vm : Vm) (ds : List Deed) (l : Line) (p : BitVec 8) : BitVec 8 := ds.foldl (fun p d => d.request vm l p) p

variable {vm : Vm} {l : Line}

theorem requesters_edit (counts : vm.countsRequesters l = true) (d : Deed) (s : Interrupt) :
    (if d.line = l then d.edit vm s else s).requesters = d.request vm l s.requesters := by
  have soft : l.isSoftware = true := by
    simp only [Vm.countsRequesters, Interrupt.countsRequesters, Bool.and_eq_true] at counts
    exact counts.2
  split
  next hl =>
    cases d with
    | write g k v =>
      obtain rfl : k = l := hl
      cases g <;> simp only [edit, request, RegisterGroup.apply, soft, if_true] <;> (try split) <;> rfl
    | forward | raise | deactivate | acknowledge | complete => rfl
  next hne =>
    cases d with
    | write g k v => cases g <;> simp only [request] <;> exact (if_neg hne).symm
    | forward | raise | deactivate | acknowledge | complete => rfl

theorem requesters_edits (counts : vm.countsRequesters l = true) (ds : List Deed) (s : Interrupt) :
    (edits vm ds l s).requesters = requests vm ds l s.requesters := by
  induction ds generalizing s with
  | nil => rfl
  | cons d ds ih => exact (ih _).trans (congrArg (requests vm ds l) (requesters_edit counts d s))

end Deed

/-! ## What the guest takes -/

theorem CpuInterface.acknowledge_cases (f : CpuInterface) :
    f.acknowledge = (none, f) ∨ ∃ n, (f.read n).state.isWaiting = true ∧
      f.acknowledge = (some (f.read n).number, f.write n { f.read n with state := ⟨false, true⟩ }) := by
  unfold acknowledge
  split
  next =>
    cases hn : f.nextSlot? with
    | none => exact .inl rfl
    | some n => exact .inr ⟨n, ((f.mem_slotsWhere _ n).1 (firstBest_mem hn)).2, rfl⟩
  next => exact .inl rfl

theorem ListRegister.extractLsb'_number (r : ListRegister) : r.number.extractLsb' 10 3 = r.requester := by
  simp (disch := decide) only [number, BitVec.extractLsb'_append_eq_of_le,
    BitVec.extractLsb'_append_eq_of_add_le, BitVec.extractLsb'_eq_self, Nat.reduceSub]

namespace Core

variable {c : Core} {l : Line}

theorem deedOf_ne_acknowledge (w : FieldWrite) (k : Line) : c.deedOf w ≠ .acknowledge k := by
  unfold deedOf
  split <;> exact fun e => by cases e

theorem Injected.ne_acknowledge {e : Deed} (h : c.Injected e) (k : Line) : e ≠ .acknowledge k := by
  cases h with
  | fired => exact nofun
  | pends => exact deedOf_ne_acknowledge _ k

/-- **The guest takes the one request that its list register holds.** -/
theorem requesters_acknowledge (hs : c.Sound) (hl : c.vm.Has l) (counts : c.vm.countsRequesters l = true)
    (tallied : (c.interrupt l).Tallied (c.held? l)) :
    (∀ number, c.interface.acknowledge.1 = some number → c.find? (number.setWidth 10).toNat = some l →
      (c.recalled l).requesters.getLsbD (number.extractLsb' 10 3).toNat = true ∧
      (({ c with interface := c.interface.acknowledge.2 } : Core).recalled l).requesters =
        ListRegister.withoutRequester (c.recalled l).requesters (number.extractLsb' 10 3).toNat) ∧
    ((∀ number, c.interface.acknowledge.1 = some number → c.find? (number.setWidth 10).toNat ≠ some l) →
      (({ c with interface := c.interface.acknowledge.2 } : Core).recalled l).requesters = (c.recalled l).requesters) := by
  rcases c.interface.acknowledge_cases with e | ⟨n, waiting, e⟩
  · rw [e]
    exact ⟨fun _ h => (by cases h), fun _ => rfl⟩
  · rw [e]
    obtain ⟨k, hk, credits, found⟩ := hs.named (Interrupt.State.isIdle_of_isWaiting waiting)
    rw [← ListRegister.setWidth_number] at found
    have held' := held?_restated hs hk credits ⟨false, true⟩
    refine ⟨fun number hn hf => ?_, fun other => ?_⟩
    · obtain rfl := Option.some.inj hn
      obtain rfl := Option.some.inj (found.symm.trans hf)
      have held := hs.held? hk credits
      rw [Interrupt.State.isWaiting, Bool.and_eq_true] at waiting
      have apart := tallied.apart _ held waiting.1
      rw [ListRegister.extractLsb'_number, recalled_of_held held, requesters_takenBack counts, if_pos waiting.1]
      refine ⟨?_, ?_⟩
      · have hlt : (c.interface.read n).requester.toNat < 8 := (c.interface.read n).requester.isLt
        simp [hlt]
      · rw [or_requester_of_not_mem apart]
        exact (congrArg Interrupt.requesters (recalled_of_held held')).trans (requesters_takenBack counts _)
    · have hne : k ≠ l := fun e => other _ rfl (by rw [← e]; exact found)
      have agrees : (c.recalled l).Agrees True
          ((c.writeSlot n { c.interface.read n with state := ⟨false, true⟩ }).recalled l) :=
        agrees_recalled rfl (.refl True _) (held?_restated_other hs hk credits hl hne _)
      exact agrees.requesters trivial

end Core

/-! ## All requests -/

namespace Machine

variable {m : Machine} {cpu i : Nat} {c c' : Core} {vm : Vm} {l : Line} {t : Turn}

/-- The number of an interrupt that the guest on a CPU takes if it asks for one. -/
def given? (m : Machine) (cpu i : Nat) (l : Line) : Option (BitVec 32) :=
  match m.core? cpu with
  | some (j, c) => if j = i then c.interface.acknowledge.1.filter fun number =>
      c.find? (number.setWidth 10).toNat == some l else none
  | none => none

/-- What keeps the requests for a software interrupt, and what changes them. -/
structure KeepsRequests (m : Machine) (i : Nat) (vm : Vm) (l : Line) : Prop where
  /-- Out of list registers it is pending while requests wait. -/
  waits : (vm.interrupt l).resident = false → (vm.interrupt l).state.pending = ((vm.interrupt l).requesters != 0)
  /-- A list register that holds it asks for maintenance while requests wait, and its own request is none of them. -/
  shown : ∀ cpu n, m.Holds i l cpu n →
    ((m.interfaces.get cpu).read n).maintenanceBit = ((vm.interrupt l).requesters != 0) ∧
    (((m.interfaces.get cpu).read n).state.pending = true →
      (vm.interrupt l).requesters.getLsbD ((m.interfaces.get cpu).read n).requester.toNat = false)
  /-- Requests are made and withdrawn by deeds. -/
  changed : ∀ cpu t, t ≠ .act .poll → t ≠ .act .acknowledge → ∃ vm', (m.turn cpu t).vms[i]? = some vm' ∧
    (m.turn cpu t).trueRequesters vm' l = Deed.requests vm (m.deeds cpu t i) l (m.trueRequesters vm l)
  /-- The guest takes a request that was there. -/
  taken : ∀ cpu number, m.given? cpu i l = some number →
    (m.trueRequesters vm l).getLsbD (number.extractLsb' 10 3).toNat = true ∧
    ∃ vm', (m.turn cpu (.act .acknowledge)).vms[i]? = some vm' ∧
      (m.turn cpu (.act .acknowledge)).trueRequesters vm' l =
        ListRegister.withoutRequester (m.trueRequesters vm l) (number.extractLsb' 10 3).toNat
  untaken : ∀ cpu, m.given? cpu i l = none → ∃ vm', (m.turn cpu (.act .acknowledge)).vms[i]? = some vm' ∧
    (m.turn cpu (.act .acknowledge)).trueRequesters vm' l = m.trueRequesters vm l
  /-- All this happens on the core of the vCPU whose bank has the interrupt. -/
  home : ∀ cpu t, t ≠ .act .poll → (∀ home, l.home? = some home → vm.pcpuOf? home ≠ some cpu) →
    ∃ vm', (m.turn cpu t).vms[i]? = some vm' ∧ (m.turn cpu t).trueRequesters vm' l = m.trueRequesters vm l

theorem trueRequesters_move (h : m.Sound) (ht : m.Tallied) (hc : m.core? cpu = some (i, c)) {ds : List Deed}
    (hmv : c.Move ds c') (hl : c.vm.Has l) (counts : c.vm.countsRequesters l = true) (unasked : .acknowledge l ∉ ds) :
    (m.putCore i c').trueRequesters c'.vm l = Deed.requests c.vm ds l (m.trueRequesters c.vm l) := by
  have hp := (hmv.local_ (h.core hc)).partition
  rw [trueRequesters_eq_standing ((Vm.countsRequesters_congr hp l).trans counts), trueRequesters_eq_standing counts,
    ← Deed.requesters_edits counts]
  exact (standing_move h ht hc hmv hl fun _ => unasked).requesters ((h.core hc).soft_of_counts hl counts)

theorem trueRequesters_other {j : Nat} (h : m.Sound) (hc : m.core? cpu = some (i, c)) (hcpu : c'.cpu = c.cpu)
    (hj : m.vms[j]? = some vm) (hne : j ≠ i) (l : Line) :
    (m.putCore i c').trueRequesters vm l = m.trueRequesters vm l := by
  unfold trueRequesters
  rw [held?_other h hc hcpu hj hne]

theorem exists_home (hl : vm.Has l) (counts : vm.countsRequesters l = true) : ∃ home, l.home? = some home := by
  simp only [Vm.countsRequesters, Interrupt.countsRequesters, Bool.and_eq_true] at counts
  exact Option.isSome_iff_exists.1 (hl.2.1.2 (Nat.lt_trans (of_decide_eq_true counts.2) (by decide)))

/-- A version 2 software interrupt is its home's to claim, and nobody else's. -/
theorem mayClaim_iff_seen (h : m.Sound) (hc : m.core? cpu = some (i, c)) (hl : c.vm.Has l)
    (counts : c.vm.countsRequesters l = true) : c.mayClaim l = true ↔ l.SeenBy c.vcpu := by
  obtain ⟨home, hh⟩ := exists_home hl counts
  simp only [Vm.countsRequesters, Interrupt.countsRequesters, Bool.and_eq_true, beq_iff_eq] at counts
  have ho := ((h.core hc).records l hl).home_owner counts.1 home hh
  rw [c.mayClaim_iff, show (c.interrupt l).owner = some home from ho]
  constructor
  · rintro (e | e)
    · cases e
    · exact Option.some.inj e ▸ Line.seenBy_home hh
  · exact fun seen => .inr (congrArg some (seen home hh))

theorem acknowledge_not_mem {k : Line} (ht : t ≠ .act .acknowledge) : .acknowledge k ∉ c.turnDeeds t := by
  intro hm
  generalize he : Deed.acknowledge k = e at hm
  cases t with
  | act a =>
    cases Core.undertaken_deeds hm with
    | asked => exact Core.deedOf_ne_acknowledge _ k he.symm
    | injected injected => exact injected.ne_acknowledge k he.symm
    | acknowledge => exact ht rfl
    | deactivate | complete => cases he
  | handle =>
    unfold Core.turnDeeds at hm
    cases hb : c.bus.take c.cpu with
    | some mb =>
      rw [hb] at hm
      rcases Core.mem_messageDeeds hm with injected | ⟨g, l, -, -, rfl⟩
      · exact injected.ne_acknowledge k he.symm
      · exact Core.deedOf_ne_acknowledge _ k he.symm
    | none =>
      rw [hb] at hm
      cases hm

theorem Arises.requests_changed (h : m.Arises) (hvm : m.vms[i]? = some vm) (hl : vm.Has l)
    (counts : vm.countsRequesters l = true) (cpu : Nat) (ht : t ≠ .act .poll) (ha : t ≠ .act .acknowledge) :
    ∃ vm', (m.turn cpu t).vms[i]? = some vm' ∧
      (m.turn cpu t).trueRequesters vm' l = Deed.requests vm (m.deeds cpu t i) l (m.trueRequesters vm l) := by
  rcases turn_cases m cpu ht with ⟨e, hd⟩ | ⟨j, c, c', hc, hmv, e⟩
  · rw [e, hd]
    exact ⟨vm, hvm, rfl⟩
  · rw [e, deeds, hc]
    simp only
    by_cases hj : j = i
    · subst hj
      obtain rfl := Option.some.inj ((vm_of_core? hc).symm.trans hvm)
      rw [if_pos rfl]
      exact ⟨c'.vm, vms_putCore_self hc c', trueRequesters_move h.sound h.tallied hc hmv hl counts
        (acknowledge_not_mem ha)⟩
    · rw [if_neg hj]
      exact ⟨vm, (vms_putCore _ _ _ _ hj).trans hvm,
        trueRequesters_other h.sound hc (hmv.local_ (h.sound.core hc)).cpu hvm (Ne.symm hj) l⟩

theorem trueRequesters_of_mayClaim (h : m.Sound) (hc : m.core? cpu = some (i, c)) (hl : c.vm.Has l)
    (may : c.mayClaim l = true) (counts : c.vm.countsRequesters l = true) :
    m.trueRequesters c.vm l = (c.recalled l).requesters := by
  rw [trueRequesters_eq_standing counts, standing_of_mayClaim h hc hl may]

/-- Nobody but its home has a say in the requests for an interrupt. -/
theorem Arises.requests_elsewhere (h : m.Arises) (hvm : m.vms[i]? = some vm) (hl : vm.Has l)
    (counts : vm.countsRequesters l = true) (cpu : Nat) (ht : t ≠ .act .poll)
    (away : ∀ home, l.home? = some home → vm.pcpuOf? home ≠ some cpu) :
    ∃ vm', (m.turn cpu t).vms[i]? = some vm' ∧ (m.turn cpu t).trueRequesters vm' l = m.trueRequesters vm l := by
  rcases turn_cases m cpu ht with ⟨e, -⟩ | ⟨j, c, c', hc, hmv, e⟩
  · rw [e]
    exact ⟨vm, hvm, rfl⟩
  · rw [e]
    have hloc := hmv.local_ (h.sound.core hc)
    by_cases hj : j = i
    · subst hj
      obtain rfl := Option.some.inj ((vm_of_core? hc).symm.trans hvm)
      have may : c.mayClaim l = false := Bool.eq_false_iff.2 fun may => by
        obtain ⟨home, hh⟩ := exists_home hl counts
        have seen := (mayClaim_iff_seen h.sound hc hl counts).1 may home hh
        refine away home hh ?_
        rw [seen]
        exact h.sound.here hc
      obtain ⟨record, held⟩ := held?_putCore_of_elsewhere h.sound hc hloc hl may
      refine ⟨c'.vm, vms_putCore_self hc c', ?_⟩
      unfold trueRequesters
      rw [held, record]
    · exact ⟨vm, (vms_putCore _ _ _ _ hj).trans hvm, trueRequesters_other h.sound hc hloc.cpu hvm (Ne.symm hj) l⟩

theorem turn_of_core? (hc : m.core? cpu = some (i, c)) (a : Action) : m.turn cpu (.act a) = m.putCore i (c.act a) :=
  step_of_core? hc a

theorem given?_of_core? (hc : m.core? cpu = some (i, c)) (l : Line) :
    m.given? cpu i l = c.interface.acknowledge.1.filter fun number => c.find? (number.setWidth 10).toNat == some l := by
  unfold given?
  rw [hc]
  exact if_pos rfl

theorem vms_turn_acknowledge (hc : m.core? cpu = some (i, c)) :
    (m.turn cpu (.act .acknowledge)).vms[i]? = some c.vm := by
  rw [turn_of_core? hc]
  exact vms_putCore_self hc _

theorem trueRequesters_acknowledge (h : m.Sound) (hc : m.core? cpu = some (i, c)) (hl : c.vm.Has l)
    (may : c.mayClaim l = true) (counts : c.vm.countsRequesters l = true) :
    (m.turn cpu (.act .acknowledge)).trueRequesters c.vm l =
      (({ c with interface := c.interface.acknowledge.2 } : Core).recalled l).requesters := by
  have hmv : c.Move (c.deeds .acknowledge) (c.act .acknowledge) := .act .acknowledge fun e => by cases e
  have hc' := core?_putCore (d := c.act .acknowledge) hc rfl rfl
  rw [turn_of_core? hc]
  exact trueRequesters_of_mayClaim (h.move hc hmv) hc' hl may counts

theorem exists_core?_of_given? {number : BitVec 32} (given : m.given? cpu i l = some number) :
    ∃ c, m.core? cpu = some (i, c) := by
  unfold given? at given
  split at given
  next j c hc =>
    split at given
    next e => exact ⟨c, by rw [hc, e]⟩
    next => cases given
  next => cases given

theorem Arises.requests_taken (h : m.Arises) (hvm : m.vms[i]? = some vm) (hl : vm.Has l)
    (counts : vm.countsRequesters l = true) {number : BitVec 32} (given : m.given? cpu i l = some number) :
    (m.trueRequesters vm l).getLsbD (number.extractLsb' 10 3).toNat = true ∧
      ∃ vm', (m.turn cpu (.act .acknowledge)).vms[i]? = some vm' ∧
        (m.turn cpu (.act .acknowledge)).trueRequesters vm' l =
          ListRegister.withoutRequester (m.trueRequesters vm l) (number.extractLsb' 10 3).toNat := by
  obtain ⟨c, hc⟩ := exists_core?_of_given? given
  obtain rfl := Option.some.inj ((vm_of_core? hc).symm.trans hvm)
  rw [given?_of_core? hc, Option.filter_eq_some_iff, beq_iff_eq] at given
  have may := (mayClaim_iff_seen h.sound hc hl counts).2 (((Vm.find?_eq_some_iff ..).1 given.2).2.1)
  obtain ⟨mem, after⟩ := (Core.requesters_acknowledge (h.sound.core hc) hl counts (h.tallied.core h.sound hc l hl may counts)).1
    number given.1 given.2
  rw [trueRequesters_of_mayClaim h.sound hc hl may counts]
  exact ⟨mem, c.vm, vms_turn_acknowledge hc, (trueRequesters_acknowledge h.sound hc hl may counts).trans after⟩

theorem Arises.requests_untaken (h : m.Arises) (hvm : m.vms[i]? = some vm) (hl : vm.Has l)
    (counts : vm.countsRequesters l = true) (given : m.given? cpu i l = none) :
    ∃ vm', (m.turn cpu (.act .acknowledge)).vms[i]? = some vm' ∧
      (m.turn cpu (.act .acknowledge)).trueRequesters vm' l = m.trueRequesters vm l := by
  obtain ⟨home, hh⟩ := exists_home hl counts
  by_cases hcpu : vm.pcpuOf? home = some cpu
  · have hc := h.sound.core_of_pcpuOf? hvm hcpu
    have may := (mayClaim_iff_seen h.sound hc hl counts).2 (Line.seenBy_home hh)
    rw [given?_of_core? hc, Option.filter_eq_none_iff] at given
    refine ⟨vm, vms_turn_acknowledge hc, ?_⟩
    rw [trueRequesters_acknowledge h.sound hc hl may counts, trueRequesters_of_mayClaim h.sound hc hl may counts]
    exact (Core.requesters_acknowledge (h.sound.core hc) hl counts (h.tallied.core h.sound hc l hl may counts)).2
      fun number hn hf => given number hn (beq_iff_eq.2 hf)
  · exact h.requests_elsewhere hvm hl counts cpu (fun e => by cases e) fun k hk => by
      rw [Option.some.inj (hk.symm.trans hh)]
      exact hcpu

/-- **Requests are neither lost nor made twice**: at all times the pending bit of the record, the bit of the list register
that asks for maintenance and the requests go together, and what is pending, in the record or in a list register, changes
by the requests made, withdrawn and taken, and by nothing else that happens on any CPU. -/
theorem Arises.keepsRequests (h : m.Arises) (hvm : m.vms[i]? = some vm) (hl : vm.Has l)
    (counts : vm.countsRequesters l = true) : m.KeepsRequests i vm l where
  waits := fun off => (h.tallied i vm hvm l hl counts).pending (held?_eq_of_off off)
  shown := fun cpu n hh => by
    obtain ⟨c, hc, hu, hf⟩ := hh
    obtain ⟨k, hk, has, credits⟩ := h.sound.credited hc hu
    obtain rfl := Option.some.inj (hk.symm.trans hf)
    obtain rfl := Option.some.inj ((vm_of_core? hc).symm.trans hvm)
    have tallied := h.tallied.core h.sound hc k hl ((c.mayClaim_iff k).2 (.inr credits.1)) counts
    rw [(h.sound.core hc).held? hl credits] at tallied
    rw [← interface_of_core? hc]
    exact ⟨tallied.asks _ rfl, tallied.apart _ rfl⟩
  changed := fun cpu _ ht ha => h.requests_changed hvm hl counts cpu ht ha
  taken := fun _ _ given => h.requests_taken hvm hl counts given
  untaken := fun _ given => h.requests_untaken hvm hl counts given
  home := fun cpu _ ht away => h.requests_elsewhere hvm hl counts cpu ht away

/-- Both vCPUs have asked for a software interrupt of the first one. -/
def summoned : Machine :=
  (started 2 [1] [.standard .v2 1 64 [0, 1] []]).run
    [⟨0, store distributorBase 4 1⟩, ⟨1, store (distributorBase + 0xF00) 4 0x10001⟩, ⟨0, .poll⟩,
      ⟨0, store (distributorBase + 0xF00) 4 0x2000001⟩]

theorem reachable_summoned : summoned.Reachable := (reachable_started (by decide +kernel)).run _

/-- The first vCPU has taken one of the requests, and no message waits. -/
def attending : Machine := summoned.run [⟨1, .poll⟩, ⟨0, .acknowledge⟩]

theorem reachable_attending : attending.Reachable := reachable_summoned.run _

theorem keepsRequests_summoned : summoned.trueRequesters summoned.firstVm (.banked 0 1) = 3 ∧
    summoned.given? 0 0 (.banked 0 1) = some 1 ∧ summoned.KeepsRequests 0 summoned.firstVm (.banked 0 1) :=
  ⟨by decide +kernel, by decide +kernel, reachable_summoned.arises.keepsRequests (vms_zero (by decide +kernel))
    ⟨by decide +kernel, by decide, fun home hh => by cases hh; decide +kernel⟩ (by decide +kernel)⟩

end Machine
end VirtualGic
