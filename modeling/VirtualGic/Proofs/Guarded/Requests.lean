import VirtualGic.Proofs.Guarded.Presentation
/-!
# Guarded requests

Field writes, injection and messages with every operation guarded.  The requester of a software interrupt is this vCPU, or
comes in a message; then it is the vCPU that sent it (`Message.Told`).
-/
namespace VirtualGic

/-- A message that asks to raise a software interrupt names a vCPU as its requester. -/
theorem Message.Told.requester_lt {m : Message} {vm : Vm} {me : Nat} (h : m.Told vm me) (checked : vm.partition.Checked)
    (hme : me < vm.vcpuCount) (hr : Request.ofCode? m.event = some .inject) : (Payload.ofWord m.data).value.toNat < 64 := by
  obtain ⟨r, d, tells, rfl⟩ := h
  have hr : r = .inject := by
    rw [(Request.ofCode?_eq_some_iff _ r).2 rfl] at hr
    exact Option.some.inj hr
  rw [show (Payload.ofWord (d.pack)).value = d.value by rw [Dispatch.pack_eq, Payload.ofWord_toWord]; rfl]
  cases tells with
  | hardware => exact Nat.zero_lt_succ 63
  | software =>
    have small : me < 64 := Nat.lt_of_lt_of_le hme (Nat.le_trans checked.cpus_le (by decide))
    exact Nat.lt_of_le_of_lt (Nat.le_trans (Nat.le_of_eq (BitVec.toNat_ofNat ..)) (Nat.mod_le ..)) small
  | enable | offer | write => cases hr

namespace Guarded

open VirtualGic.Core (Equipped Same Strokes)

variable {c : Core} {l : Line}

/-! ## Register fields -/

def readField (c : Core) (g : RegisterGroup) (l : Line) : Guarded (BitVec 64) :=
  match g with
  | .targets =>
    match l.home? with
    | some vcpu => bit vcpu
    | none => return (c.interrupt l).targets.setWidth 64
  | .setRequesters | .clearRequesters => do return (← pendingRequesters c l).setWidth 64
  | g => return c.readField g l

theorem readField_eq (h : c.Equipped) (hl : c.vm.Has l) (g : RegisterGroup) : readField c g l = .ok (c.readField g l) := by
  cases g with
  | targets =>
    unfold readField Core.readField
    simp only
    cases hh : l.home? with
    | none => rfl
    | some home => exact bit_eq (h.home_lt hl hh)
  | setRequesters | clearRequesters =>
    rw [readField, pendingRequesters_eq]
    rfl
  | _ => rfl

/-- The record with the physical delivery that matches its targets. -/
def redirected (vm : Vm) (l : Line) (s : Interrupt) : Guarded Interrupt := do
  return { s with delivery := ← delivery vm l s }

theorem redirected_eq {vm : Vm} (checked : vm.partition.Checked) (hl : vm.Has l) (s : Interrupt) :
    redirected vm l s = .ok { s with delivery := vm.delivery l s } := bind_eq (delivery_eq checked hl s) rfl

/-- The record after a write to the interrupt's field. -/
def apply (g : RegisterGroup) (vm : Vm) (l : Line) (v : BitVec 64) (s : Interrupt) : Guarded Interrupt :=
  match g with
  | .targets =>
    if l.isBanked then return s
    else do redirected vm l { s with targets := (v &&& (← vcpuSet vm)).setWidth 8 }
  | .route =>
    if l.isBanked then return s
    else redirected vm l { s with route := v &&& Interrupt.routeMask }
  | .setRequesters =>
    if l.isSoftware then do
      let requesters := s.requesters ||| (v &&& (← vcpuSet vm)).setWidth 8
      return { s with
        requesters := requesters
        state := { s.state with pending := s.state.pending || requesters != 0 } }
    else return s
  | g => return g.apply vm l v s

theorem apply_eq {vm : Vm} (checked : vm.partition.Checked) (hl : vm.Has l) (g : RegisterGroup) (v : BitVec 64) (s : Interrupt) :
    apply g vm l v s = .ok (g.apply vm l v s) := by
  cases g with
  | targets => exact ite_ok (fun _ => rfl) fun _ => bind_eq (vcpuSet_eq checked) (redirected_eq checked hl _)
  | route => exact ite_ok (fun _ => rfl) fun _ => redirected_eq checked hl _
  | setRequesters => exact ite_ok (fun _ => bind_eq (vcpuSet_eq checked) rfl) fun _ => rfl
  | _ => rfl

def applyField (c : Core) (g : RegisterGroup) (l : Line) (v : BitVec 64) : Guarded Core := do
  let c ← withdraw (c.claim l) l
  let before := c.interrupt l
  let after ← apply g c.vm l v before
  let c := c.setInterrupt l after
  let c :=
    if g.differs before after && after.hardware then { c with gic := g.push l after c.gic } else c
  let c := if after.spilled && after.state.isIdle then c.unspill l else c
  return (← deliver c l).release l

theorem applyField_eq (h : c.Equipped) (hl : c.vm.Has l) (g : RegisterGroup) (v : BitVec 64) :
    applyField c g l v = .ok (c.applyField g l v) := by
  have grasped := Core.strokes_grasp c l
  have assigned : Strokes c ((c.grasp l).assign g l v) := .trans grasped (.single (.field g l v (grasped.has hl)))
  have listed : Strokes c
      (if ((g.apply (c.grasp l).vm l v ((c.grasp l).interrupt l)).spilled &&
            (g.apply (c.grasp l).vm l v ((c.grasp l).interrupt l)).state.isIdle) = true then
          ((c.grasp l).assign g l v).unspill l else (c.grasp l).assign g l v) :=
    Core.strokes_ite (fun _ => assigned.trans (Core.strokes_unspill ..)) fun _ => assigned
  have checked : (c.grasp l).vm.partition.Checked := (grasped.equipped h).checked
  rw [Core.applyField_assign]
  refine bind_eq (withdraw_eq ..) (bind_eq (apply_eq checked (grasped.has hl) g v _) ?_)
  exact bind_eq (deliver_eq (listed.equipped h) (listed.has hl)) rfl

def writeField (c : Core) (g : RegisterGroup) (l : Line) (v : BitVec 64) : Guarded Core :=
  if c.mayClaim l then applyField c g l v
  else
    return c.forward l .writeField fun p =>
      { p with group := BitVec.ofNat 6 g.code, value := v.setWidth 32 }

theorem writeField_eq (h : c.Equipped) (hl : c.vm.Has l) (g : RegisterGroup) (v : BitVec 64) :
    writeField c g l v = .ok (c.writeField g l v) :=
  ite_ok (fun _ => applyField_eq h hl g v) fun _ => rfl

/-! ## Injection -/

def raise (c : Core) (id requester : Nat) : Guarded Core :=
  match c.find? id with
  | none => return c
  | some l =>
    if c.vm.countsRequesters l then do writeField c .setRequesters l (← bit requester)
    else writeField c .setPending l 1

theorem raise_eq (h : c.Equipped) (id : Nat) {requester : Nat} (hr : requester < 64) :
    raise c id requester = .ok (c.raise id requester) := by
  unfold raise Core.raise
  cases hl : c.find? id with
  | none => rfl
  | some l =>
    have has := Vm.has_of_find? hl
    exact ite_ok (fun _ => bind_eq (bit_eq hr) (writeField_eq h has ..)) fun _ => writeField_eq h has ..

/-- **A requester that is no bit of a word stops the one that raises the interrupt.** -/
theorem raise_of_far {id requester : Nat} (hl : c.find? id = some l) (counts : c.vm.countsRequesters l = true)
    (far : 64 ≤ requester) : raise c id requester = .error .shift := by
  have stops : (bit requester : Guarded (BitVec 64)) = .error .shift := if_neg (Nat.not_lt.2 far)
  unfold raise
  simp only [hl, counts, if_true, stops]
  rfl

def injectHardware (c : Core) (l : Line) : Guarded Core :=
  if c.mayClaim l then do
    let c ← withdraw (c.claim l) l
    let c := c.update l fun s => { s with state := { s.state with pending := true } }
    return (← deliver c l).release l
  else return c.forward l .inject id

theorem injectHardware_eq (h : c.Equipped) (hl : c.vm.Has l) : injectHardware c l = .ok (c.injectHardware l) := by
  refine ite_ok (fun _ => ?_) fun _ => rfl
  have grasped := Core.strokes_grasp c l
  have pending := (grasped.equipped h).update l fun s => { s with state := { s.state with pending := true } }
  refine bind_eq (withdraw_eq ..) (bind_eq (deliver_eq pending ?_) rfl)
  exact (Vm.has_congr (Core.same_setInterrupt ..).partition l).2 (grasped.has hl)

def inject (c : Core) (id : Nat) : Guarded Core :=
  match c.find? id with
  | none => return c
  | some l =>
    if (c.interrupt l).hardware then injectHardware c l
    else if l.isSoftware then raise c id c.vcpu
    else writeField c .setPending l 1

theorem inject_eq (h : c.Equipped) (id : Nat) : inject c id = .ok (c.inject id) := by
  unfold inject Core.inject
  cases hl : c.find? id with
  | none => rfl
  | some l =>
    have has := Vm.has_of_find? hl
    refine ite_ok (fun _ => injectHardware_eq h has) fun _ => ?_
    exact ite_ok (fun _ => raise_eq h id (vcpu_lt h.checked h.vcpu_lt)) fun _ => writeField_eq h has ..

def sendTo (c : Core) (id vcpu : Nat) : Guarded Core :=
  if vcpu == c.vcpu then raise c id c.vcpu
  else
    match c.vm.pcpuOf? vcpu with
    | none => return c
    | some target => return c.post target .inject { c.payload vcpu id with value := BitVec.ofNat 32 c.vcpu }

theorem sendTo_eq (h : c.Equipped) (id vcpu : Nat) : sendTo c id vcpu = .ok (c.sendTo id vcpu) := by
  refine ite_ok (fun _ => raise_eq h id (vcpu_lt h.checked h.vcpu_lt)) fun _ => ?_
  cases c.vm.pcpuOf? vcpu <;> rfl

def send (c : Core) (id : Nat) (vcpus : CpuSet) : Guarded Core := do
  (← c.vm.vcpuIds.filterM (has vcpus ·)).foldlM (sendTo · id ·) c

theorem send_eq (h : c.Equipped) {id : Nat} (soft : id < softwareInterrupts) (vcpus : CpuSet) :
    send c id vcpus = .ok (c.send id vcpus) := by
  have members : c.vm.vcpuIds.filterM (has vcpus ·) = .ok (c.vm.vcpuIds.filter vcpus.getLsbD) :=
    filterM_eq _ fun v hv => has_eq vcpus (vcpu_lt h.checked (List.mem_range.1 hv))
  refine bind_eq members ?_
  refine foldlM_eq (fun d => Same c d ∧ d.Equipped) _ c ⟨.refl c, h⟩ fun d ⟨same, hd⟩ v hv => ⟨sendTo_eq hd id v, ?_⟩
  have lt : v < d.vm.vcpuCount := by
    rw [Vm.vcpuCount_congr same.partition]
    exact List.mem_range.1 (List.mem_filter.1 hv).1
  have sent : Strokes d (d.sendTo id v) := Core.composes_strokes.sendTo hd.toStationed soft lt
  exact ⟨same.trans sent.same, sent.equipped hd⟩

/-! ## Messages -/

def accept (c : Core) (l : Line) : Guarded Core :=
  if c.mayClaim l then do
    let c := c.claim l
    let s := c.interrupt l
    let wanted ← andThen (!s.resident && !s.state.isIdle) (isTarget c l)
    let c ← (if wanted then Prod.fst <$> place c l else pure c : Guarded Core)
    return c.release l
  else return c

theorem accept_eq (h : c.Equipped) (hl : c.vm.Has l) : accept c l = .ok (c.accept l) := by
  refine ite_ok (fun _ => ?_) fun _ => rfl
  have claimed := Core.strokes_claim c l
  have equipped := claimed.equipped h
  refine bind_eq (andThen_eq fun _ => isTarget_eq equipped (claimed.has hl)) (bind_eq (ite_ok (fun _ => ?_) fun _ => rfl) rfl)
  rw [place_eq equipped]
  rfl

def handleRequest (c : Core) (r : Request) (p : Payload) : Guarded Core :=
  let line? := c.vm.find? p.bank.toNat p.intid.toNat
  match r with
  | .syncEnable => return c.syncEnabled
  | .route =>
    match line? with
    | some l => accept c l
    | none => return c
  | .inject =>
    if isSoftwareId p.intid.toNat then raise c p.intid.toNat p.value.toNat
    else inject c p.intid.toNat
  | .writeField =>
    match RegisterGroup.ofCode? p.group.toNat, line? with
    | some g, some l => writeField c g l (p.value.setWidth 64)
    | _, _ => return c

theorem handleRequest_eq (h : c.Equipped) (r : Request) (p : Payload) (requester : r = .inject → p.value.toNat < 64) :
    handleRequest c r p = .ok (c.handleRequest r p) := by
  unfold handleRequest Core.handleRequest
  cases r with
  | syncEnable => rfl
  | route =>
    simp only
    cases hl : c.vm.find? p.bank.toNat p.intid.toNat with
    | none => rfl
    | some l => exact accept_eq h (Vm.has_of_find? hl)
  | inject => exact ite_ok (fun _ => raise_eq h _ (requester rfl)) fun _ => inject_eq h _
  | writeField =>
    simp only
    cases RegisterGroup.ofCode? p.group.toNat with
    | none => rfl
    | some g =>
      cases hl : c.vm.find? p.bank.toNat p.intid.toNat with
      | none => rfl
      | some l => exact writeField_eq h (Vm.has_of_find? hl) ..

def handle (c : Core) (m : Message) : Guarded Core :=
  let p := Payload.ofWord m.data
  if p.vm.toNat == c.vm.id then
    match Request.ofCode? m.event with
    | some r => handleRequest c r p
    | none => return c
  else return c

theorem handle_eq (h : c.Equipped) {m : Message} (told : ∃ me, me < c.vm.vcpuCount ∧ m.Told c.vm me) :
    handle c m = .ok (c.handle m) := by
  obtain ⟨me, hme, told⟩ := told
  refine ite_ok (fun _ => ?_) fun _ => rfl
  cases hr : Request.ofCode? m.event with
  | none => rfl
  | some r => exact handleRequest_eq h r _ fun inject => told.requester_lt h.checked hme (inject ▸ hr)

/-- Handle up to `n` messages after as many as were counted already. -/
def handleUpTo (handled : Nat) : Nat → Core → Guarded (Nat × Core)
  | 0, c => return (handled, c)
  | n + 1, c =>
    match c.bus.take c.cpu with
    | none => return (handled, c)
    | some (m, bus) => do
      let c ← handle { c with bus := bus } m
      handleUpTo (← add 64 handled 1) n c

theorem handleUpTo_eq (n handled : Nat) (c : Core) (h : c.Equipped)
    (told : ∀ m ∈ c.waiting c.cpu, ∃ me, me < c.vm.vcpuCount ∧ m.Told c.vm me) (fits : handled + n < 2 ^ 64) :
    handleUpTo handled n c = .ok (handled + (c.handleUpTo n).1, (c.handleUpTo n).2) := by
  induction n generalizing handled c with
  | zero => rfl
  | succ n ih =>
    unfold handleUpTo Core.handleUpTo Core.handleNext?
    cases ht : c.bus.take c.cpu with
    | none => rfl
    | some mb =>
      obtain ⟨m, bus⟩ := mb
      have same := (Core.alike_take ht).toSame
      have taken : ({ c with bus := bus } : Core).Equipped := h.congr same rfl
      have inbox : c.waiting c.cpu = m :: (bus.inbox c.cpu).waiting := by
        have split := MessageBus.waiting_inbox_take ht c.cpu
        rw [if_pos rfl] at split
        exact split
      have changes := Core.changes_handle taken.toStationed m
      have own := (Core.posts_handle taken.toStationed m c.cpu).own
      simp only [handle_eq taken (told m (inbox ▸ List.mem_cons_self)), ok_bind, add_eq (show handled + 1 < 2 ^ 64 by omega),
        Option.map_some]
      rw [ih (handled + 1) _ (changes.equipped taken) (fun k hk => ?_) (by omega), Nat.add_right_comm, Nat.add_assoc handled]
      -- no core posts to itself, so what waits now waited before
      rw [changes.same.cpu] at hk
      rw [own] at hk
      obtain ⟨me, hme, hk⟩ := told k (inbox ▸ List.mem_cons_of_mem m hk)
      have hp := changes.same.partition
      exact ⟨me, (Vm.vcpuCount_congr hp).symm ▸ hme, hk.congr hp⟩

def poll (c : Core) : Guarded (Nat × Core) := handleUpTo 0 (c.bus.pending c.cpu) c

/-- **A poll does not stop**, where as many messages wait as can be counted. -/
theorem poll_eq (h : c.Equipped) (told : ∀ m ∈ c.waiting c.cpu, ∃ me, me < c.vm.vcpuCount ∧ m.Told c.vm me)
    (fits : c.bus.pending c.cpu < 2 ^ 64) : poll c = .ok c.poll := by
  rw [poll, handleUpTo_eq _ 0 c h told (by rw [Nat.zero_add]; exact fits), Nat.zero_add]
  rfl

end Guarded
end VirtualGic
