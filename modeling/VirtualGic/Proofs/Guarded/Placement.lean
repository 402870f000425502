import VirtualGic.Proofs.Guarded.Operation
import VirtualGic.Proofs.Encoding
import VirtualGic.Proofs.Write
/-!
# Guarded placement

Targets, list registers and the placing of interrupts, with every operation guarded.  The numbers of vCPUs and CPUs are small
because the tables were checked, those of list registers because an interface has at most 64 of them (`Core.Equipped`); a
list register is written only after the vCPU was found to own the interrupt, and making room leaves that as it is.
-/
namespace VirtualGic

namespace Core

variable {c c' : Core} {k l : Line}

/-- A core at its station, whose interface has no more list registers than a word has bits. -/
structure Equipped (c : Core) : Prop extends Stationed c where
  few : c.interface.count ≤ maxListRegisters

theorem Changes.equipped (h : Changes c c') (hc : c.Equipped) : c'.Equipped :=
  ⟨hc.toStationed.same h.same, by rw [h.count]; exact hc.few⟩

theorem Strokes.equipped (h : Strokes c c') (hc : c.Equipped) : c'.Equipped := h.writes.changes.equipped hc

theorem Stationed.home_lt (h : c.Stationed) (hl : c.vm.Has l) {home : Nat} (hh : l.home? = some home) : home < 64 :=
  Nat.lt_of_lt_of_le (hl.2.2 home hh) (Nat.le_trans h.checked.cpus_le (by decide))

/-! ## Making room leaves an interrupt alone that is in no list register -/

theorem interrupt_withdraw_ne (c : Core) (h : k ≠ l) : (c.withdraw k).interrupt l = c.interrupt l := by
  unfold withdraw
  simp only
  split
  next =>
    split
    next => rw [interrupt_update, if_neg h]
    next =>
      split
      next => exact (interrupt_setInterrupt ..).trans (if_neg h)
      next => exact (interrupt_setInterrupt ..).trans (if_neg h)
  next => rfl

theorem interrupt_evict_of_off (off : (c.interrupt l).resident = false) (n : Nat) :
    (c.evict n).interrupt l = c.interrupt l := by
  unfold evict
  split
  next => rfl
  next k _ =>
    split
    next credited =>
      have other : k ≠ l := by
        rintro rfl
        exact absurd (off.symm.trans ((c.isCredited_iff k n).1 credited).2.1) (by decide)
      rw [interrupt_release, if_neg other, interrupt_spill, if_neg other, interrupt_withdraw_ne c other]
    next => rfl

theorem interrupt_makeRoom_of_off (off : (c.interrupt l).resident = false) : c.makeRoom.1.interrupt l = c.interrupt l := by
  unfold makeRoom
  split
  next => rfl
  next =>
    split
    next => exact interrupt_evict_of_off off _
    next => rfl

theorem owns_makeRoom (may : c.mayPlace l = true) : c.makeRoom.1.owns l = true := by
  simp only [mayPlace, Bool.and_eq_true, Bool.not_eq_true'] at may
  have same := strokes_makeRoom c
  rw [owns, interrupt_makeRoom_of_off may.1.2, same.same.vcpu]
  exact may.2

end Core

namespace Guarded

open VirtualGic.Core (Equipped)

variable {c : Core} {vm : Vm} {l : Line} {f : CpuInterface}

/-! ## Targets -/

def vcpuSet (vm : Vm) : Guarded CpuSet := lowMask vm.vcpuCount

theorem vcpu_lt (checked : vm.partition.Checked) {v : Nat} (hv : v < vm.vcpuCount) : v < 64 :=
  Nat.lt_of_lt_of_le hv (Nat.le_trans checked.cpus_le (by decide))

theorem vcpuSet_eq (checked : vm.partition.Checked) : vcpuSet vm = .ok vm.vcpuSet :=
  lowMask_eq (Nat.lt_of_le_of_lt checked.cpus_le (by decide))

def targets (vm : Vm) (l : Line) (s : Interrupt) : Guarded CpuSet :=
  match l, vm.version with
  | .banked vcpu _, _ => bit vcpu
  | .shared _, .v2 => do return s.targets.setWidth 64 &&& (← vcpuSet vm)
  | .shared _, .v3 =>
    if Vm.routesAny s.route then vcpuSet vm
    else match vm.routedVcpu? s.route with
      | some vcpu => bit vcpu
      | none => return 0

theorem targets_eq (checked : vm.partition.Checked) (hl : vm.Has l) (s : Interrupt) :
    targets vm l s = .ok (vm.targets l s) := by
  cases l with
  | banked vcpu id => exact bit_eq (vcpu_lt checked (hl.2.2 vcpu rfl))
  | shared id =>
    unfold targets Vm.targets
    cases vm.version with
    | v2 => simp only [vcpuSet_eq checked, ok_bind, pure_eq]
    | v3 =>
      refine ite_ok (fun _ => vcpuSet_eq checked) fun _ => ?_
      cases hr : vm.routedVcpu? s.route with
      | none => rfl
      | some vcpu => exact bit_eq (vcpu_lt checked (Vm.lt_of_routedVcpu? hr))

/-- The physical CPUs that run the given vCPUs. -/
def pcpusOf (vm : Vm) (vcpus : CpuSet) : Guarded CpuSet := do
  gather ((← vm.vcpuIds.filterM (has vcpus ·)).filterMap vm.pcpuOf?)

theorem pcpusOf_eq (checked : vm.partition.Checked) (vcpus : CpuSet) : pcpusOf vm vcpus = .ok (vm.pcpusOf vcpus) := by
  have members : vm.vcpuIds.filterM (has vcpus ·) = .ok (vm.vcpuIds.filter vcpus.getLsbD) :=
    filterM_eq _ fun v hv => has_eq vcpus (vcpu_lt checked (List.mem_range.1 hv))
  rw [pcpusOf, members, ok_bind]
  refine gather_eq fun cpu hc => ?_
  obtain ⟨v, -, hv⟩ := List.mem_filterMap.1 hc
  exact Nat.lt_trans (checked.cpu_lt cpu (List.mem_of_getElem? hv)) (by decide)

def delivery (vm : Vm) (l : Line) (s : Interrupt) : Guarded Delivery :=
  match l, vm.version with
  | .shared _, .v2 => do
    let cpus ← pcpusOf vm (← targets vm l s)
    return if cpus == 0 then .nowhere else .mask cpus
  | _, _ => return vm.delivery l s

theorem delivery_eq (checked : vm.partition.Checked) (hl : vm.Has l) (s : Interrupt) :
    delivery vm l s = .ok (vm.delivery l s) := by
  cases l with
  | banked => rfl
  | shared id =>
    unfold delivery
    cases hv : vm.version with
    | v2 => simp only [targets_eq checked hl, ok_bind, pcpusOf_eq checked, pure_eq, Vm.delivery, hv]
    | v3 => rfl

/-- Whether the interrupt targets the running vCPU. -/
def isTarget (c : Core) (l : Line) : Guarded Bool := do has (← targets c.vm l (c.interrupt l)) c.vcpu

theorem isTarget_eq (h : c.Equipped) (hl : c.vm.Has l) : isTarget c l = .ok (c.isTarget l) := by
  rw [isTarget, targets_eq h.checked hl, ok_bind, has_eq _ (vcpu_lt h.checked h.vcpu_lt)]
  rfl

/-! ## Interfaces -/

theorem slotsWhere_lt (few : f.count ≤ maxListRegisters) {p : ListRegister → Bool} {n : Nat} (hn : n ∈ f.slotsWhere p) :
    n < 64 :=
  Nat.lt_of_lt_of_le ((f.mem_slotsWhere p n).1 hn).1 few

/-- The slots whose registers have a property, by way of the word that the interface shows. -/
def slotsShown (f : CpuInterface) (p : ListRegister → Bool) : Guarded (Nat → Guarded Bool) := do
  let word ← gather (f.slotsWhere p)
  return has word

theorem slotsShown_eq (few : f.count ≤ maxListRegisters) (p : ListRegister → Bool) :
    slotsShown f p = .ok (has (CpuSet.ofList (f.slotsWhere p))) := by
  rw [slotsShown, gather_eq fun n => slotsWhere_lt few, ok_bind]
  rfl

theorem has_slots (few : f.count ≤ maxListRegisters) (p : ListRegister → Bool) {n : Nat} (hn : n ∈ f.slots) :
    has (CpuSet.ofList (f.slotsWhere p)) n = .ok (p (f.read n)) := by
  have hn : n < f.count := List.mem_range.1 hn
  have lt : n < 64 := Nat.lt_of_lt_of_le hn few
  rw [has_eq _ lt, CpuSet.getLsbD_ofList, decide_eq_true lt, Bool.true_and]
  congr 1
  rw [Bool.eq_iff_iff, List.contains_iff_mem, f.mem_slotsWhere]
  exact and_iff_right hn

def freeSlot? (f : CpuInterface) : Guarded (Option Nat) := do
  f.slots.findM? (← slotsShown f (·.isEmpty))

theorem freeSlot?_eq (few : f.count ≤ maxListRegisters) : freeSlot? f = .ok f.freeSlot? := by
  rw [freeSlot?, slotsShown_eq few, ok_bind]
  exact findM?_eq f.slots fun n => has_slots few (·.isEmpty)

/-- The slot to take from when none is free.  The waiting registers are counted in 31 bits and a sign. -/
def victim? (f : CpuInterface) : Guarded (Option Nat) := do
  let rank (n : Nat) : Rank := ⟨(f.read n).priority.toNat, (f.read n).intid.toNat⟩
  let least := firstBest fun n m => (rank m).before (rank n)
  let waiting := f.slotsWhere (·.state.isWaiting)
  let found ← waiting.foldlM (fun count _ => add 31 count 1) 0
  return if found > 1 then least waiting else least (f.slotsWhere (·.state.active))

theorem count_eq {α : Type} (xs : List α) (b : Nat) (h : b + xs.length < 2 ^ 31) :
    xs.foldlM (fun count _ => add 31 count 1) b = .ok (b + xs.length) := by
  induction xs generalizing b with
  | nil => rfl
  | cons a xs ih =>
    rw [List.length_cons] at h
    rw [List.foldlM_cons, add_eq (by omega), ok_bind, ih _ (by omega), List.length_cons, Nat.add_right_comm, Nat.add_assoc]

theorem victim?_eq (few : f.count ≤ maxListRegisters) : victim? f = .ok f.victim? := by
  have length : (f.slotsWhere (·.state.isWaiting)).length ≤ 64 :=
    Nat.le_trans (List.length_filter_le ..) (Nat.le_trans (Nat.le_of_eq List.length_range) few)
  rw [victim?, count_eq _ 0 (by omega), ok_bind, Nat.zero_add]
  rfl

def acknowledge (f : CpuInterface) : Guarded (Option (BitVec 32) × CpuInterface) :=
  if f.control.enabled then
    match f.nextSlot? with
    | some n => do
      let r ← entry f.registers n
      return (some r.number, f.write n { r with state := ⟨false, true⟩ })
    | none => return (none, f)
  else return (none, f)

theorem acknowledge_eq (f : CpuInterface) : acknowledge f = .ok f.acknowledge := by
  refine ite_ok (fun _ => ?_) fun _ => rfl
  cases hn : f.nextSlot? with
  | none => rfl
  | some n =>
    have lt : n < f.registers.size := ((f.mem_slotsWhere _ n).1 (firstBest_mem hn)).1
    have read : f.read n = f.registers[n] := by
      rw [CpuInterface.read, Array.getD_eq_getD_getElem?, Array.getElem?_eq_getElem lt]
      rfl
    simp only [entry, lt, dif_pos, ok_bind, read]
    rfl

/-- The guest completes an interrupt.  Completions that match no register are counted in 32 bits, of which five are kept. -/
def complete (f : CpuInterface) (number : BitVec 32) : Guarded CpuInterface :=
  match f.slots.find? fun n => (f.read n).number == number && (f.read n).state.active with
  | some n =>
    let r := f.read n
    return f.write n { r with state := { r.state with active := false } }
  | none => do
    let count ← add 32 f.control.completions.toNat 1
    return { f with control := { f.control with completions := BitVec.ofNat 5 count } }

theorem complete_eq (f : CpuInterface) (number : BitVec 32) : complete f number = .ok (f.complete number) := by
  unfold complete CpuInterface.complete
  cases f.slots.find? fun n => (f.read n).number == number && (f.read n).state.active with
  | some n => rfl
  | none =>
    have small := f.control.completions.isLt
    simp only [add_eq (show f.control.completions.toNat + 1 < 2 ^ 32 by omega), ok_bind, pure_eq, BitVec.ofNat_add,
      BitVec.ofNat_toNat, BitVec.setWidth_eq]
    rfl

/-! ## List registers -/

def presentRequest (l : Line) (s : Interrupt) : Guarded (ListRegister × Interrupt) := do
  let (state, requester, s) : Interrupt.State × Nat × Interrupt ←
    if s.state.active then pure (⟨false, true⟩, s.activeRequester.toNat, s)
    else
      match ListRegister.lowestRequester? s.requesters with
      | some n => do
        let taken : BitVec 8 ← bit n
        pure (⟨true, false⟩, n, { s with requesters := s.requesters &&& ~~~taken })
      | none => pure (s.state, 0, s)
  let r : ListRegister :=
    { ListRegister.empty with
      state := state
      group1 := s.group1
      priority := s.priority
      physical := if s.requesters == 0 then 0 else ListRegister.askMaintenance
      requester := BitVec.ofNat 3 requester }
  return (r.withNumber l.id, s)

theorem presentRequest_eq (l : Line) (s : Interrupt) : presentRequest l s = .ok (ListRegister.presentRequest l s) := by
  unfold presentRequest ListRegister.presentRequest
  split
  next => rfl
  next =>
    cases hn : ListRegister.lowestRequester? s.requesters with
    | none => rfl
    | some n =>
      simp only [bit_eq (w := 8) (ListRegister.lowestRequester?_eq_some hn).1, ok_bind, pure_eq]
      rfl

/-- The waiting requesters with the one that a list register holds, if that is pending. -/
def withHeld (waiting : BitVec 8) (r : ListRegister) : Guarded (BitVec 8) :=
  if r.state.pending then do return waiting ||| (← bit r.requester.toNat) else return waiting

theorem withHeld_eq (waiting : BitVec 8) (r : ListRegister) :
    withHeld waiting r = .ok (if r.state.pending then waiting ||| BitVec.twoPow 8 r.requester.toNat else waiting) :=
  ite_ok (fun _ => by rw [bit_eq r.requester.isLt]; rfl) fun _ => rfl

def restoreRequest (r : ListRegister) (s : Interrupt) : Guarded Interrupt := do
  let requesters ← withHeld s.requesters r
  return { s with
    activeRequester := if r.state.active then r.requester.setWidth 8 else s.activeRequester
    requesters := requesters
    state := { s.state with pending := s.state.pending || requesters != 0 } }

theorem restoreRequest_eq (r : ListRegister) (s : Interrupt) : restoreRequest r s = .ok (r.restoreRequest s) := by
  rw [restoreRequest, withHeld_eq, ok_bind]
  rfl

/-- The vCPUs whose request for a software interrupt is pending. -/
def pendingRequesters (c : Core) (l : Line) : Guarded (BitVec 8) :=
  match c.held? l with
  | some r => withHeld (c.interrupt l).requesters r
  | none => return (c.interrupt l).requesters

theorem pendingRequesters_eq (c : Core) (l : Line) : pendingRequesters c l = .ok (c.pendingRequesters l) := by
  unfold pendingRequesters Core.pendingRequesters
  cases c.held? l with
  | none => rfl
  | some r => exact withHeld_eq ..

/-! ## Taking out -/

def takenBack (c : Core) (l : Line) (r : ListRegister) : Guarded Interrupt :=
  let s := { c.interrupt l with resident := false, state := r.state }
  if c.vm.countsRequesters l then restoreRequest r s else return s

theorem takenBack_eq (c : Core) (l : Line) (r : ListRegister) : takenBack c l r = .ok (c.takenBack l r) :=
  ite_ok (fun _ => restoreRequest_eq ..) fun _ => rfl

def withdraw (c : Core) (l : Line) : Guarded Core :=
  let s := c.interrupt l
  if s.resident && s.ownedBy c.vcpu then
    match c.held? l with
    | none => return c.update l ({ · with resident := false })
    | some r => do
      let s' ← takenBack c l r
      let c := (c.writeSlot s.slot .empty).setInterrupt l s'
      return if Core.needsPresenting s' then c.wantNoPending else c
  else return c

theorem withdraw_eq (c : Core) (l : Line) : withdraw c l = .ok (c.withdraw l) := by
  refine ite_ok (fun _ => ?_) fun _ => rfl
  cases c.held? l with
  | none => rfl
  | some r =>
    simp only [takenBack_eq, ok_bind]
    rfl

/-! ## Putting in -/

/-- The running vCPU is one of its VM's. -/
def running (c : Core) : Guarded Unit := if c.vcpu < c.vm.vcpuCount then .ok () else .error .bounds

theorem running_eq (h : c.Equipped) : running c = .ok () := if_pos h.vcpu_lt

def presented (c : Core) (l : Line) : Guarded (ListRegister × Interrupt) :=
  let s := c.interrupt l
  if c.vm.countsRequesters l then presentRequest l s else return (ListRegister.present l s, s)

theorem presented_eq (c : Core) (l : Line) : presented c l = .ok (c.presented l) :=
  ite_ok (fun _ => presentRequest_eq ..) fun _ => rfl

/-- Write an interrupt into a list register, which only its owner may do. -/
def seat (c : Core) (l : Line) (n : Nat) : Guarded Core := do
  if !c.owns l then throw .ownership
  running c
  let c := c.settle n l.id
  let (r, s) ← presented c l
  let c := (c.writeSlot n r).setInterrupt l { s with state := .idle, resident := true, slot := n }
  return c.unspill l

theorem seat_eq (h : c.Equipped) (mine : c.owns l = true) (n : Nat) : seat c l n = .ok (c.seat l n) := by
  unfold seat
  simp only [mine, Bool.not_true, Bool.false_eq_true, if_false, pure_eq, ok_bind, running_eq h, presented_eq]
  rfl

/-- **Seating an interrupt of another vCPU stops.** -/
theorem seat_of_not_owned (foreign : c.owns l = false) (n : Nat) : seat c l n = .error .ownership := by
  unfold seat
  rw [foreign]
  rfl

def evict (c : Core) (n : Nat) : Guarded Core :=
  match c.find? (c.interface.read n).intid.toNat with
  | none => return c.writeSlot n .empty
  | some l =>
    if c.isCredited l n then do return ((← withdraw c l).spill l).release l else return c.writeSlot n .empty

theorem evict_eq (c : Core) (n : Nat) : evict c n = .ok (c.evict n) := by
  unfold evict Core.evict
  cases c.find? (c.interface.read n).intid.toNat with
  | none => rfl
  | some l => exact ite_ok (fun _ => by rw [withdraw_eq]; rfl) fun _ => rfl

def makeRoom (c : Core) : Guarded (Core × Option Nat) := do
  match ← freeSlot? c.interface with
  | some n => return (c, some n)
  | none =>
    match ← victim? c.interface with
    | some n => return (← evict c n, some n)
    | none => return (c, none)

theorem makeRoom_eq (h : c.Equipped) : makeRoom c = .ok c.makeRoom := by
  unfold makeRoom Core.makeRoom
  rw [freeSlot?_eq h.few, ok_bind]
  cases c.interface.freeSlot? with
  | some n => rfl
  | none =>
    simp only [victim?_eq h.few, ok_bind]
    cases c.interface.victim? with
    | some n => simp only [evict_eq, ok_bind, pure_eq]
    | none => rfl

def place (c : Core) (l : Line) : Guarded (Core × Bool) :=
  if c.mayPlace l then do
    match ← makeRoom c with
    | (c, some n) => return (← seat c l n, true)
    | (c, none) => return (c.spill l, false)
  else return (c, false)

/-- **No list register is written for an interrupt that the vCPU does not own.** -/
theorem place_eq (h : c.Equipped) (l : Line) : place c l = .ok (c.place l) := by
  unfold place Core.place
  refine ite_ok (fun may => ?_) fun _ => rfl
  have mine := Core.owns_makeRoom may
  have room := (Core.strokes_makeRoom c).equipped h
  rw [makeRoom_eq h, ok_bind]
  generalize c.makeRoom = x at mine room
  obtain ⟨d, n⟩ := x
  cases n with
  | none => rfl
  | some n =>
    simp only [seat_eq room mine, ok_bind]
    rfl

end Guarded
end VirtualGic
