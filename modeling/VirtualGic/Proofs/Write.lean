import VirtualGic.Proofs.Composition
import VirtualGic.Proofs.Dispatch
import VirtualGic.Proofs.Reach
/-!
# Single writes

Whatever a core does comes down to a few kinds of single writes (`Core.Write`): to one record, to a spill list, to its
interface, to a physical line, to another core's inbox.  Only a store to the distributor's control register and the
handling of the message that follows from it switch interfaces on and off.  So what each single write keeps, everything
keeps that a core does (`Core.act_writes`, `Core.handle_writes`).  A `Core.Stroke` tells in addition what a write does to
the requests of software interrupts: two kinds move a request between a record and a list register, the others leave all
requests alone.
-/
namespace VirtualGic

/-- A message that the distributor of a VM was enabled or disabled. -/
def Message.Syncs (m : Message) (vm : Vm) : Prop :=
  m.event = Request.syncEnable.code ∧ (Payload.ofWord m.data).vm.toNat = vm.id

/-- A message from one core of a VM to another: it is about the distributor, or about an interrupt of the VM. -/
inductive Message.Sent (m : Message) (vm : Vm) : Prop
  | syncs (h : m.Syncs vm)
  | about (r : Request) (l : Line) (has : vm.Has l) (h : m.About r vm l)
    (group : r = .writeField → ∃ g : RegisterGroup, (Payload.ofWord m.data).group.toNat = g.code)

theorem Message.syncs_congr {vm vm' : Vm} (hp : vm'.partition = vm.partition) (m : Message) : m.Syncs vm' ↔ m.Syncs vm := by
  unfold Syncs Vm.id
  rw [hp]

theorem Message.Sent.congr {m : Message} {vm vm' : Vm} (h : m.Sent vm) (hp : vm'.partition = vm.partition) : m.Sent vm' := by
  cases h with
  | syncs h => exact .syncs ((m.syncs_congr hp).2 h)
  | about r l has h group => exact .about r l ((Vm.has_congr hp l).2 has) (h.congr hp) group

/-- Two records agree on who requested the interrupt. -/
structure Interrupt.SameRequests (s t : Interrupt) : Prop where
  requesters : t.requesters = s.requesters
  active : t.activeRequester = s.activeRequester

theorem Interrupt.SameRequests.refl (s : Interrupt) : s.SameRequests s := ⟨rfl, rfl⟩

namespace Core

/-- Write an interrupt's field in its record and, where that makes a difference to a hardware interrupt, in its physical
line. -/
def assign (c : Core) (g : RegisterGroup) (l : Line) (v : BitVec 64) : Core :=
  let before := c.interrupt l
  let after := g.apply c.vm l v before
  let c := c.setInterrupt l after
  if g.differs before after && after.hardware then { c with gic := g.push l after c.gic } else c

/-- What this core has to say to the others of its VM. -/
structure Speaks (c : Core) (m : Message) : Prop where
  sent : m.Sent c.vm
  told : m.Told c.vm c.vcpu

/-- A message that this core may post to a CPU: another one of its VM. -/
structure Addressed (c : Core) (cpu : Nat) (m : Message) : Prop extends Speaks c m where
  member : cpu ∈ c.vm.partition.cpus
  other : cpu ≠ c.cpu

/-- A single write, other than those that switch interfaces on and off. -/
inductive Write (c : Core) : Core → Prop
  /-- A record keeps its settings. -/
  | record (l : Line) (s : Interrupt) (settings : (c.interrupt l).SameSettings s) : Write c (c.setInterrupt l s)
  | field (g : RegisterGroup) (l : Line) (v : BitVec 64) (has : c.vm.Has l) : Write c (c.assign g l v)
  | list (home : Option Nat) (ids : List Nat) : Write c { c with vm := c.vm.setSpillList home ids }
  | occupant (n id : Nat) : Write c { c with vm := c.vm.setOccupant c.vcpu n id }
  | asleep (vcpu : Nat) (asleep : Bool) : Write c { c with vm := c.vm.setAsleep vcpu asleep }
  | interface (f : CpuInterface) (enabled : f.control.enabled = c.interface.control.enabled)
    (count : f.count = c.interface.count) : Write c { c with interface := f }
  /-- The physical line of a hardware interrupt is activated or deactivated. -/
  | line (l : Line) (on : Bool) (has : c.vm.Has l) (hardware : (c.interrupt l).hardware = true) :
    Write c { c with gic := c.gic.setActive l.id on }
  | post (target : Nat) (r : Request) (p : Payload) (addressed : c.Addressed target ⟨r.code, p.toWord⟩) :
    Write c (c.post target r p)

abbrev Writes : Core → Core → Prop := Relation.ReflTransGen Write

variable {c c' c'' : Core} {l : Line} {s : Interrupt} {n : Nat}

theorem interrupt_assign (c : Core) (g : RegisterGroup) (l : Line) (v : BitVec 64) (k : Line) :
    (c.assign g l v).interrupt k = if l = k then g.apply c.vm l v (c.interrupt l) else c.interrupt k := by
  rw [← interrupt_setInterrupt]
  unfold assign
  simp only
  split <;> rfl

theorem gic_assign (c : Core) (g : RegisterGroup) (l : Line) (v : BitVec 64) :
    (c.assign g l v).gic =
      if (g.differs (c.interrupt l) (g.apply c.vm l v (c.interrupt l)) && (c.interrupt l).hardware) = true then
        g.push l (g.apply c.vm l v (c.interrupt l)) c.gic else c.gic := by
  rw [← (g.apply_keeps c.vm l v (c.interrupt l)).2.2.2]
  unfold assign
  simp only
  split <;> rfl

theorem Writes.trans (h : Writes c c') (h' : Writes c' c'') : Writes c c'' := Relation.ReflTransGen.trans h h'

theorem Write.same (h : Write c c') : Same c c' := by
  cases h with
  | record l s => exact same_setInterrupt c l s
  | field g l v =>
    unfold assign
    simp only
    split
    · exact ⟨rfl, rfl, rfl, Vm.partition_setInterrupt ..⟩
    · exact same_setInterrupt c l _
  | list => exact ⟨rfl, rfl, rfl, Vm.partition_setSpillList ..⟩
  | occupant | asleep | interface | line => exact ⟨rfl, rfl, rfl, rfl⟩
  | post target r p => exact (posted_post c target r p).alike.toSame

theorem Writes.same (h : Writes c c') : Same c c' := by
  induction h with
  | refl => exact .refl c
  | tail _ hw ih => exact ih.trans hw.same

/-! ## What a write leaves alone -/

theorem Addressed.same {cpu : Nat} {m : Message} (h : c.Addressed cpu m) (same : Same c c') : c'.Addressed cpu m where
  sent := h.sent.congr same.partition
  told := by rw [same.vcpu]; exact h.told.congr same.partition
  member := by rw [same.partition]; exact h.member
  other := by rw [same.cpu]; exact h.other

theorem Same.symm (h : Same c c') : Same c' c := ⟨h.cpu.symm, h.vcpu.symm, h.cpus.symm, h.partition.symm⟩

/-- No message for a CPU was taken out, and those that came in are addressed to it. -/
def Posts (c c' : Core) (cpu : Nat) : Prop :=
  ∃ more, c'.waiting cpu = c.waiting cpu ++ more ∧ ∀ m ∈ more, c.Addressed cpu m

/-- **No core posts to itself.** -/
theorem Posts.own (h : c.Posts c' c.cpu) : c'.waiting c.cpu = c.waiting c.cpu := by
  obtain ⟨more, e, addressed⟩ := h
  have none : more = [] := List.eq_nil_iff_forall_not_mem.2 fun m hm => (addressed m hm).other rfl
  rw [e, none, List.append_nil]

/-- A write takes no message out, and posts to other cores only. -/
theorem Write.posts (h : Write c c') (cpu : Nat) : c.Posts c' cpu := by
  have silent : c'.bus = c.bus → c.Posts c' cpu :=
    fun e => ⟨[], by rw [List.append_nil, waiting, waiting, e], fun _ hm => absurd hm List.not_mem_nil⟩
  cases h with
  | record | list | occupant | asleep | interface | line => exact silent rfl
  | field g l v =>
    refine silent ?_
    unfold assign
    simp only
    split <;> rfl
  | post target r p addressed =>
    obtain ⟨bus, gic, e, -, -, hw⟩ := c.post_eq target r p
    rw [e]
    refine ⟨_, hw cpu, fun m hm => ?_⟩
    split at hm
    next ht =>
      rw [List.mem_singleton.1 hm, ← ht.1]
      exact addressed
    next => cases hm

theorem Writes.posts (h : Writes c c') (cpu : Nat) : c.Posts c' cpu := by
  induction h with
  | refl => exact ⟨[], (List.append_nil _).symm, fun _ hm => absurd hm List.not_mem_nil⟩
  | tail hw w ih =>
    obtain ⟨more, e, hmore⟩ := ih
    obtain ⟨more', e', hmore'⟩ := w.posts cpu
    refine ⟨more ++ more', by rw [e', e, List.append_assoc], fun m hm => ?_⟩
    rcases List.mem_append.1 hm with hm | hm
    · exact hmore m hm
    · exact (hmore' m hm).same (Writes.same hw).symm

/-- A core keeps its list registers. -/
theorem Write.count (h : Write c c') : c'.interface.count = c.interface.count := by
  cases h with
  | record | list | occupant | asleep | line => rfl
  | field =>
    unfold assign
    simp only
    split <;> rfl
  | interface f enabled count => exact count
  | post target r p => exact congrArg CpuInterface.count (posted_post c target r p).interface

/-- A write leaves the distributor's switch and the interface's own as they are. -/
theorem Write.switch (h : Write c c') :
    c'.vm.groupEnables = c.vm.groupEnables ∧ c'.interface.control.enabled = c.interface.control.enabled := by
  cases h with
  | record l s => exact ⟨by cases l <;> rfl, rfl⟩
  | field g l v =>
    unfold assign
    simp only
    split <;> exact ⟨by cases l <;> rfl, rfl⟩
  | list home ids => exact ⟨by cases home <;> rfl, rfl⟩
  | occupant | asleep | line => exact ⟨rfl, rfl⟩
  | interface f enabled => exact ⟨rfl, enabled⟩
  | post target r p =>
    obtain ⟨bus, gic, e, -⟩ := c.post_eq target r p
    rw [e]
    exact ⟨rfl, rfl⟩

theorem Writes.switch (h : Writes c c') :
    c'.vm.groupEnables = c.vm.groupEnables ∧ c'.interface.control.enabled = c.interface.control.enabled := by
  induction h with
  | refl => exact ⟨rfl, rfl⟩
  | tail _ w ih => exact ⟨w.switch.1.trans ih.1, w.switch.2.trans ih.2⟩

/-! ## Strokes -/

/-- Nothing becomes of the requests of software interrupts, except that list registers may be cleared. -/
structure SameRequests (c c' : Core) : Prop where
  record : ∀ l, (c.interrupt l).SameRequests (c'.interrupt l)
  register : ∀ n, (c'.interface.read n).requester = (c.interface.read n).requester ∨ c'.interface.read n = .empty

/-- What a core does at a stroke: a write, or the two that move a request between a record and a list register. -/
inductive Stroke (c : Core) : Core → Prop
  | write {c' : Core} (h : Write c c') (requests : SameRequests c c') : Stroke c c'
  | field (g : RegisterGroup) (l : Line) (v : BitVec 64) (has : c.vm.Has l) : Stroke c (c.assign g l v)
  | takeBack (l : Line) (n : Nat) : Stroke c (c.setInterrupt l (c.takenBack l (c.interface.read n)))
  | present (l : Line) (n : Nat) (has : c.vm.Has l) :
    Stroke c ((c.writeSlot n (c.presented l).1).setInterrupt l
      { (c.presented l).2 with state := .idle, resident := true, slot := n })

abbrev Strokes : Core → Core → Prop := Relation.ReflTransGen Stroke

theorem sameSettings_presented (c : Core) (l : Line) : (c.interrupt l).SameSettings (c.presented l).2 := by
  unfold presented ListRegister.presentRequest
  split
  next =>
    simp only
    split
    next => exact .refl _
    next => split <;> exact ⟨rfl, rfl, rfl, rfl, rfl, rfl, rfl, rfl⟩
  next => exact .refl _

theorem Write.clear (c : Core) (n : Nat) (r : ListRegister) : Write c (c.writeSlot n r) :=
  .interface _ (congrArg Control.enabled (CpuInterface.control_write ..)) (CpuInterface.count_write ..)

theorem Stroke.writes (h : Stroke c c') : Writes c c' := by
  cases h with
  | write h => exact .single h
  | field g l v has => exact .single (.field g l v has)
  | takeBack l n => exact .single (.record l _ (sameSettings_takenBack c l _))
  | present l n has =>
    refine .head (.clear c n (c.presented l).1) (.single (.record l _ ?_))
    exact (sameSettings_presented c l).trans ⟨rfl, rfl, rfl, rfl, rfl, rfl, rfl, rfl⟩

theorem Strokes.writes (h : Strokes c c') : Writes c c' := by
  induction h with
  | refl => exact .refl
  | tail _ hs ih => exact ih.trans hs.writes

theorem Strokes.trans (h : Strokes c c') (h' : Strokes c' c'') : Strokes c c'' := Relation.ReflTransGen.trans h h'

theorem Strokes.same (h : Strokes c c') : Same c c' := h.writes.same

theorem Strokes.stationed (h : Strokes c c') (hs : c.Stationed) : c'.Stationed := hs.same h.same

theorem Strokes.has (h : Strokes c c') (hl : c.vm.Has l) : c'.vm.Has l := (Vm.has_congr h.same.partition l).2 hl

theorem SameRequests.of_records (record : ∀ l, (c.interrupt l).SameRequests (c'.interrupt l))
    (interface : c'.interface = c.interface) : SameRequests c c' :=
  ⟨record, fun _ => .inl (by rw [interface])⟩

/-- A write to an interface that moves no request. -/
theorem Stroke.interface (f : CpuInterface) (enabled : f.control.enabled = c.interface.control.enabled)
    (count : f.count = c.interface.count)
    (register : ∀ n, (f.read n).requester = (c.interface.read n).requester ∨ f.read n = .empty) :
    Stroke c { c with interface := f } :=
  .write (.interface f enabled count) ⟨fun _ => .refl _, register⟩

/-- A write to an interface that gives a list register the requester it had, or clears it. -/
theorem requester_write {f : CpuInterface} {r : ListRegister} (h : r.requester = (f.read n).requester ∨ r = .empty) (k : Nat) :
    ((f.write n r).read k).requester = (f.read k).requester ∨ (f.write n r).read k = .empty := by
  rw [CpuInterface.read_write]
  split
  next e => rw [← e.1]; exact h
  next => exact .inl rfl

theorem strokes_ite {p : Prop} [Decidable p] (h : p → Strokes c c') (h' : ¬ p → Strokes c c'') :
    Strokes c (if p then c' else c'') := by
  split
  next hp => exact h hp
  next hp => exact h' hp

/-! ## Records and list registers -/

theorem strokes_setInterrupt (h : (c.interrupt l).SameSettings s) (requests : (c.interrupt l).SameRequests s) :
    Strokes c (c.setInterrupt l s) := by
  refine .single (.write (.record l s h) (.of_records (fun k => ?_) rfl))
  rw [interrupt_setInterrupt]
  split
  next e => rw [← e]; exact requests
  next => exact .refl _

theorem strokes_update (c : Core) (l : Line) (f : Interrupt → Interrupt)
    (h : ∀ s : Interrupt, s.SameSettings (f s) ∧ s.SameRequests (f s)) : Strokes c (c.update l f) :=
  strokes_setInterrupt (h _).1 (h _).2

theorem strokes_claim (c : Core) (l : Line) : Strokes c (c.claim l) :=
  strokes_update c l _ fun s => by
    unfold Interrupt.claim
    split <;> exact ⟨⟨rfl, rfl, rfl, rfl, rfl, rfl, rfl, rfl⟩, ⟨rfl, rfl⟩⟩

theorem strokes_release (c : Core) (l : Line) : Strokes c (c.release l) :=
  strokes_update c l _ fun s => by
    rcases s.release_eq c.vm.version l c.vcpu with e | e <;> rw [e] <;>
      exact ⟨⟨rfl, rfl, rfl, rfl, rfl, rfl, rfl, rfl⟩, ⟨rfl, rfl⟩⟩

/-- A record on a spill list, or off it. -/
theorem strokes_listed (c : Core) (home : Option Nat) (ids : List Nat) (l : Line) (on : Bool) :
    Strokes c { c with vm := (c.vm.setSpillList home ids).setInterrupt l { c.vm.interrupt l with spilled := on } } := by
  have list : Strokes c { c with vm := c.vm.setSpillList home ids } :=
    .single <| .write (.list home ids) <| .of_records (fun k => by
      show (c.vm.interrupt k).SameRequests ((c.vm.setSpillList home ids).interrupt k)
      rw [Vm.interrupt_setSpillList]
      exact .refl _) rfl
  have record : ((c.vm.setSpillList home ids).interrupt l) = c.vm.interrupt l := Vm.interrupt_setSpillList ..
  refine list.trans (strokes_setInterrupt (s := { c.vm.interrupt l with spilled := on }) ?_ ?_)
  · show ((c.vm.setSpillList home ids).interrupt l).SameSettings _
    rw [record]
    exact ⟨rfl, rfl, rfl, rfl, rfl, rfl, rfl, rfl⟩
  · show ((c.vm.setSpillList home ids).interrupt l).SameRequests _
    rw [record]
    exact ⟨rfl, rfl⟩

theorem strokes_unspill (c : Core) (l : Line) : Strokes c (c.unspill l) := by
  unfold unspill Vm.unpark
  simp only
  split
  next => exact strokes_listed ..
  next => exact .refl

theorem strokes_modifyControl (c : Core) {f : Control → Control}
    (h : (f c.interface.control).enabled = c.interface.control.enabled) : Strokes c (c.modifyControl f) :=
  .single (.interface _ h rfl fun _ => .inl rfl)

theorem strokes_spill (c : Core) (l : Line) : Strokes c (c.spill l) := by
  have parked : Strokes c { c with vm := c.vm.park l } := by
    unfold Vm.park
    simp only
    split
    next => exact .refl
    next => exact strokes_listed ..
  exact parked.trans (.single (.interface _ rfl rfl fun _ => .inl rfl))

theorem strokes_clear (c : Core) (n : Nat) : Strokes c (c.writeSlot n .empty) :=
  .single (.write (.clear c n .empty) ⟨fun _ => .refl _, requester_write (.inr rfl)⟩)

theorem strokes_withdraw (c : Core) (l : Line) : Strokes c (c.withdraw l) := by
  unfold withdraw
  simp only
  refine strokes_ite (fun _ => ?_) fun _ => .refl
  split
  next => exact strokes_update c l _ fun s => ⟨⟨rfl, rfl, rfl, rfl, rfl, rfl, rfl, rfl⟩, ⟨rfl, rfl⟩⟩
  next r hr =>
    obtain ⟨n, credits, rfl, -⟩ := (c.held?_eq_some_iff l r).1 hr
    rw [show (c.interrupt l).slot = n from credits.2.2]
    -- it makes no difference whether the register is cleared before the record is written or after
    have taken : Strokes c ((c.writeSlot n .empty).setInterrupt l (c.takenBack l (c.interface.read n))) :=
      .head (.takeBack l n) (strokes_clear (c.setInterrupt l (c.takenBack l (c.interface.read n))) n)
    exact strokes_ite (fun _ => taken.trans (strokes_modifyControl _ rfl)) fun _ => taken

theorem strokes_settle (c : Core) (n id : Nat) : Strokes c (c.settle n id) := by
  have own : Strokes c { c with vm := c.vm.setOccupant c.vcpu n id } :=
    .single <| .write (.occupant n id) <| .of_records (fun k => by
      show (c.vm.interrupt k).SameRequests ((c.vm.setOccupant c.vcpu n id).interrupt k)
      rw [Vm.interrupt_setOccupant]
      exact .refl _) rfl
  unfold settle
  simp only
  split
  next => exact own
  next old _ =>
    refine strokes_ite (fun _ => own) fun _ => ?_
    split
    next => exact own
    next k _ =>
      refine strokes_ite (fun _ => own.trans ?_) fun _ => own
      refine .trans (strokes_update _ k _ fun s => ?_) (strokes_release ..)
      exact ⟨⟨rfl, rfl, rfl, rfl, rfl, rfl, rfl, rfl⟩, ⟨rfl, rfl⟩⟩

theorem strokes_seat (hl : c.vm.Has l) (n : Nat) : Strokes c (c.seat l n) := by
  rw [seat_eq]
  have settled := strokes_settle c n l.id
  exact (settled.tail (.present l n (settled.has hl))).trans (strokes_unspill ..)

theorem strokes_evict (c : Core) (n : Nat) : Strokes c (c.evict n) := by
  unfold evict
  split
  next => exact strokes_clear ..
  next l _ =>
    exact strokes_ite (fun _ => ((strokes_withdraw c l).trans (strokes_spill ..)).trans (strokes_release ..))
      fun _ => strokes_clear ..

theorem strokes_makeRoom (c : Core) : Strokes c c.makeRoom.1 := by
  unfold makeRoom
  split
  next => exact .refl
  next =>
    split
    next => exact strokes_evict ..
    next => exact .refl

theorem strokes_place (hl : c.vm.Has l) : Strokes c (c.place l).1 := by
  have room := strokes_makeRoom c
  unfold place
  split
  next =>
    generalize c.makeRoom = x at room
    obtain ⟨d, n⟩ := x
    cases n with
    | some n => exact room.trans (strokes_seat (room.has hl) n)
    | none => exact room.trans (strokes_spill d l)
  next => exact .refl

/-! ## Messages -/

/-- The CPU of another vCPU is another CPU. -/
theorem Stationed.ne_cpu (h : c.Stationed) {v target : Nat} (hv : v ≠ c.vcpu) (ht : c.vm.pcpuOf? v = some target) :
    target ≠ c.cpu := by
  rintro rfl
  exact hv (h.checked.cpu_inj ht h.here)

theorem strokes_addressed {target : Nat} {r : Request} {p : Payload} (h : c.Addressed target ⟨r.code, p.toWord⟩) :
    Strokes c (c.post target r p) := by
  have posted := posted_post c target r p
  refine .single (.write (.post target r p h) (.of_records (fun l => ?_) posted.interface))
  rw [posted.alike.interrupt]
  exact .refl _

theorem strokes_post (h : c.Stationed) {v target : Nat} (hv : v ≠ c.vcpu) (ht : c.vm.pcpuOf? v = some target) (r : Request)
    (p : Payload) (speaks : c.Speaks ⟨r.code, p.toWord⟩) : Strokes c (c.post target r p) :=
  strokes_addressed ⟨speaks, List.mem_of_getElem? ht, h.ne_cpu hv ht⟩

theorem strokes_postAll {targets : List Nat} (h : ∀ cpu ∈ targets, cpu ∈ c.vm.partition.cpus ∧ cpu ≠ c.cpu) (r : Request)
    (p : Payload) (speaks : c.Speaks ⟨r.code, p.toWord⟩) : Strokes c (c.postAll targets r p) :=
  foldl_composed targets c fun d hd cpu hc => by
    have addressed : c.Addressed cpu ⟨r.code, p.toWord⟩ :=
      ⟨speaks, (h cpu hc).1, (h cpu hc).2⟩
    exact strokes_addressed (addressed.same (Strokes.same hd))

theorem syncs_payload (h : c.Stationed) (bank id : Nat) :
    Message.Syncs ⟨Request.syncEnable.code, (c.payload bank id).toWord⟩ c.vm := by
  refine ⟨rfl, ?_⟩
  rw [Payload.ofWord_toWord]
  exact (BitVec.toNat_ofNat ..).trans (Nat.mod_eq_of_lt (Nat.lt_of_le_of_lt h.checked.id_le (by decide)))

theorem strokes_broadcast (h : c.Stationed) : Strokes c (c.broadcast .syncEnable (c.payload c.vcpu 0)) := by
  have told : Message.Told ⟨Request.syncEnable.code, (c.payload c.vcpu 0).toWord⟩ c.vm c.vcpu :=
    ⟨_, _, .enable, congrArg (Message.mk _) (c.toWord_payload c.vcpu 0 0 0)⟩
  refine strokes_postAll (fun cpu hc => ?_) .syncEnable _ ⟨.syncs (syncs_payload h c.vcpu 0), told⟩
  obtain ⟨hm, hne⟩ := List.mem_filter.1 hc
  exact ⟨hm, by simpa using hne⟩

/-- A payload that names an interrupt of the VM. -/
theorem speaks_payload (h : c.Stationed) (hl : c.vm.Has l) (r : Request) (hr : r ≠ .writeField) {w : Nat} {v : BitVec 32}
    (hw : ∀ home, l.home? = some home → w = home) (tells : c.vm.Tells c.vcpu r ⟨c.vm.id, w, l.id, 0, v⟩) :
    c.Speaks ⟨r.code, ({ c.payload w l.id with value := v } : Payload).toWord⟩ where
  sent := .about r l hl (about_payload h hl hw r 0 v) fun e => absurd e hr
  told := ⟨r, _, tells, congrArg (Message.mk _) (c.toWord_payload w l.id 0 v)⟩

theorem getD_home {home : Nat} (v : Nat) (hh : l.home? = some home) : l.home?.getD v = home := by
  rw [hh]
  rfl

theorem strokes_offer (h : c.Stationed) (hl : c.vm.Has l) {vcpus : CpuSet} (others : vcpus.getLsbD c.vcpu = false) :
    Strokes c (c.offer l vcpus) := by
  refine strokes_postAll (fun cpu hc => ?_) .route _
    (speaks_payload h hl .route (by decide) (fun _ => getD_home c.vcpu) (.offer l hl))
  rw [CpuSet.mem_toList, Vm.pcpusOf, CpuSet.getLsbD_ofList, Bool.and_eq_true, List.contains_iff_mem,
    List.mem_filterMap] at hc
  obtain ⟨-, v, hv, ht⟩ := hc
  refine ⟨List.mem_of_getElem? ht, h.ne_cpu (fun e => ?_) ht⟩
  have hm := (List.mem_filter.1 hv).2
  rw [e, others] at hm
  cases hm

/-- A request about an interrupt that this vCPU may not claim goes to the core of its owner. -/
theorem strokes_forward (h : c.Stationed) (may : c.mayClaim l = false) (r : Request)
    (fill : Payload → Payload)
    (speaks : ∀ owner, owner < c.vm.vcpuCount →
      c.Speaks ⟨r.code, (fill (c.payload (l.home?.getD owner) l.id)).toWord⟩) : Strokes c (c.forward l r fill) := by
  unfold forward
  cases ho : (c.interrupt l).owner with
  | none => exact .refl
  | some w =>
    have hw : w ≠ c.vcpu := by
      rintro rfl
      rw [(c.mayClaim_iff l).2 (.inr ho)] at may
      cases may
    simp only
    split
    next => exact .refl
    next target ht => exact strokes_post h hw ht r _ (speaks w (List.getElem?_eq_some_iff.1 ht).1)

/-! ## Presenting -/

theorem strokes_deliver (h : c.Stationed) (hl : c.vm.Has l) : Strokes c (c.deliver l) := by
  rw [deliver_eq]
  refine strokes_ite (fun _ => .refl) fun _ => ?_
  have placed : Strokes c (if c.isTarget l = true then (c.place l).1 else c) :=
    strokes_ite (fun _ => strokes_place hl) fun _ => .refl
  generalize (if c.isTarget l = true then (c.place l).1 else c) = d at placed
  have given : Strokes c (d.release l) := placed.trans (strokes_release d l)
  refine strokes_ite (fun _ => placed) fun _ => given.trans (strokes_offer (given.stationed h) (given.has hl) ?_)
  show ((c.vm.targets l (c.interrupt l)).erase d.vcpu).getLsbD d.vcpu = false
  rw [CpuSet.getLsbD_erase, beq_self_eq_true, Bool.not_true, Bool.and_false]

theorem strokes_accept (hl : c.vm.Has l) : Strokes c (c.accept l) := by
  refine strokes_ite (fun _ => ?_) fun _ => .refl
  have claimed := strokes_claim c l
  exact (strokes_ite (fun _ => claimed.trans (strokes_place (claimed.has hl))) fun _ => claimed).trans (strokes_release ..)

theorem strokes_refillLoop (pendingOnly : Bool) (rounds : Nat) (skipped : List Nat) (c : Core) :
    Strokes c (refillLoop pendingOnly rounds skipped c) := by
  induction rounds generalizing skipped c with
  | zero => exact .refl
  | succ rounds ih =>
    unfold refillLoop
    split
    next => exact .refl
    next =>
      split
      next => exact strokes_modifyControl _ rfl
      next l hl =>
        have claimed := strokes_claim c l
        have placed := claimed.trans (strokes_place (claimed.has (firstSpilled?_spec hl).1))
        exact strokes_ite (fun _ => placed.trans (ih ..)) fun _ => (placed.trans (strokes_release ..)).trans (ih ..)

/-- An interrupt is taken in hand, given another state, delivered and given up. -/
theorem strokes_handled (h : c.Stationed) (hl : c.vm.Has l) (w : Strokes c c') :
    Strokes c ((c'.deliver l).release l) :=
  (w.trans (strokes_deliver (w.stationed h) (w.has hl))).trans (strokes_release ..)

/-! ## Field writes -/

theorem applyField_assign (c : Core) (g : RegisterGroup) (l : Line) (v : BitVec 64) :
    c.applyField g l v =
      Core.release (Core.deliver
        (if ((g.apply (c.grasp l).vm l v ((c.grasp l).interrupt l)).spilled &&
            (g.apply (c.grasp l).vm l v ((c.grasp l).interrupt l)).state.isIdle) = true then
          ((c.grasp l).assign g l v).unspill l else (c.grasp l).assign g l v) l) l := rfl

theorem strokes_grasp (c : Core) (l : Line) : Strokes c (c.grasp l) := (strokes_claim c l).trans (strokes_withdraw ..)

theorem strokes_applyField (h : c.Stationed) (hl : c.vm.Has l) (g : RegisterGroup) (v : BitVec 64) :
    Strokes c (c.applyField g l v) := by
  rw [applyField_assign]
  have grasped := strokes_grasp c l
  have assigned : Strokes c ((c.grasp l).assign g l v) := .trans grasped (.single (.field g l v (grasped.has hl)))
  exact strokes_handled h hl (strokes_ite (fun _ => assigned.trans (strokes_unspill ..)) fun _ => assigned)

theorem strokes_writeField (h : c.Stationed) (hl : c.vm.Has l) (g : RegisterGroup) (v : BitVec 64) :
    Strokes c (c.writeField g l v) := by
  refine strokes_ite (fun _ => strokes_applyField h hl g v) fun may => ?_
  refine strokes_forward h (Bool.eq_false_iff.2 may) .writeField _ fun owner member => ⟨?_, ?_⟩
  · refine .about .writeField l hl (about_payload h hl (fun _ => getD_home owner) .writeField (BitVec.ofNat 6 g.code)
      (v.setWidth 32)) fun _ => ⟨g, ?_⟩
    rw [Payload.ofWord_toWord]
    exact (BitVec.toNat_ofNat ..).trans (Nat.mod_eq_of_lt (code_lt g))
  · exact ⟨_, _, .write g l v hl owner member,
      congrArg (Message.mk _) (c.toWord_payload (l.home?.getD owner) l.id g.code (v.setWidth 32))⟩

/-! ## Injection -/

theorem strokes_injectHardware (h : c.Stationed) (hl : c.vm.Has l) : Strokes c (c.injectHardware l) := by
  refine strokes_ite (fun _ => ?_) fun may => ?_
  · refine strokes_handled h hl ((strokes_grasp c l).trans (strokes_update _ l _ fun s => ?_))
    exact ⟨⟨rfl, rfl, rfl, rfl, rfl, rfl, rfl, rfl⟩, ⟨rfl, rfl⟩⟩
  · exact strokes_forward h (Bool.eq_false_iff.2 may) .inject _ fun owner member =>
      speaks_payload h hl .inject (by decide) (fun _ => getD_home owner) (.hardware l hl owner member)

/-! ## Maintenance -/

theorem strokes_deactivateSpilled (h : c.Stationed) : Strokes c c.deactivateSpilled := by
  unfold deactivateSpilled
  split
  next => exact .refl
  next l hl =>
    obtain ⟨has, -⟩ := firstSpilled?_spec hl
    simp only
    have inactive : Strokes c ((c.claim l).update l fun s => { s with state := { s.state with active := false } }) := by
      refine (strokes_claim c l).trans (strokes_update _ l _ fun s => ?_)
      exact ⟨⟨rfl, rfl, rfl, rfl, rfl, rfl, rfl, rfl⟩, ⟨rfl, rfl⟩⟩
    generalize ((c.claim l).update l fun s => { s with state := { s.state with active := false } }) = d at inactive
    have line : Strokes c (if (d.interrupt l).hardware then { d with gic := d.gic.setActive l.id false } else d) :=
      strokes_ite (fun hw => inactive.tail (.write (.line l false (inactive.has has) hw) (.of_records (fun _ => .refl _) rfl)))
        fun _ => inactive
    refine .trans (strokes_ite (fun _ => line.trans (strokes_unspill ..)) fun _ => ?_) (strokes_release ..)
    exact line.trans (strokes_deliver (line.stationed h) (line.has has))

theorem sameRequests_retired (c : Core) (l : Line) (r : ListRegister) : (c.interrupt l).SameRequests (c.retired l r) := by
  unfold retired
  simp only
  split <;> exact ⟨rfl, rfl⟩

theorem strokes_retire (h : c.Stationed) (n : Nat) : Strokes c (c.retire n) := by
  have cleared := strokes_clear c n
  unfold retire
  simp only
  split
  next => exact cleared
  next l hl =>
    have has := Vm.has_of_find? hl
    have changed : Strokes c ((c.writeSlot n .empty).setInterrupt l ((c.writeSlot n .empty).retired l (c.interface.read n))) :=
      cleared.trans (strokes_setInterrupt (retired_spec ..).2.2.2.1 (sameRequests_retired ..))
    refine strokes_ite (fun _ => ?_) fun _ => cleared
    exact strokes_ite (fun _ => changed.trans (strokes_release ..))
      fun _ => changed.trans (strokes_deliver (changed.stationed h) (changed.has has))

theorem strokes_retireCompleted (h : c.Stationed) : Strokes c c.retireCompleted :=
  foldl_composed _ c fun _ hd n _ => strokes_retire (Strokes.stationed hd h) n

theorem strokes_settleUnmatched (h : c.Stationed) : Strokes c c.settleUnmatched := by
  have counted := strokes_modifyControl (f := ({ · with completions := 0 })) c rfl
  exact counted.trans <| foldl_composed _ _ fun e he _ _ => strokes_deactivateSpilled (Strokes.stationed he (counted.stationed h))

theorem strokes_maintain (h : c.Stationed) : Strokes c c.maintain := by
  unfold maintain
  simp only
  have retired : Strokes c (if c.interface.status.completed = true then c.retireCompleted else c) :=
    strokes_ite (fun _ => strokes_retireCompleted h) fun _ => .refl
  generalize (if c.interface.status.completed = true then c.retireCompleted else c) = d at retired
  exact (retired.trans (strokes_ite (fun _ => strokes_settleUnmatched (retired.stationed h)) fun _ => .refl)).trans
    (strokes_ite (fun _ => strokes_refillLoop ..) fun _ => .refl)

/-! ## Actions and messages -/

theorem strokes_asleep (c : Core) (vcpu : Nat) (asleep : Bool) : Strokes c { c with vm := c.vm.setAsleep vcpu asleep } :=
  .single <| .write (.asleep vcpu asleep) <| .of_records (fun l => by
    show (c.vm.interrupt l).SameRequests ((c.vm.setAsleep vcpu asleep).interrupt l)
    rw [Vm.interrupt_setAsleep]
    exact .refl _) rfl

/-- **The pieces of accesses, injections and messages are made of strokes.** -/
theorem composes_strokes : Composes Stationed Stroke where
  keeps h strokes := ⟨Strokes.stationed strokes h, Strokes.same strokes⟩
  writeField h has g v := strokes_writeField h has g v
  injectHardware h has _ := strokes_injectHardware h has
  ask {c id v target} h soft hv other ht := by
    have has : c.vm.Has (.banked v id) := h.has_banked soft hv
    exact strokes_post h other ht .inject _
      (speaks_payload h has .inject (by decide) (fun home hh => by cases hh; rfl) (.software id soft v hv))
  accept _ has := strokes_accept has
  sleep := strokes_asleep

theorem control_acknowledge (f : CpuInterface) : f.acknowledge.2.control = f.control := by
  unfold CpuInterface.acknowledge
  split
  next =>
    split
    next => exact CpuInterface.control_write ..
    next => rfl
  next => rfl

theorem enabled_complete (f : CpuInterface) (number : BitVec 32) :
    (f.complete number).control.enabled = f.control.enabled := by
  unfold CpuInterface.complete
  split
  next => exact congrArg Control.enabled (CpuInterface.control_write ..)
  next => rfl

theorem count_acknowledge (f : CpuInterface) : f.acknowledge.2.count = f.count := by
  unfold CpuInterface.acknowledge
  split
  next =>
    split
    next => exact CpuInterface.count_write ..
    next => rfl
  next => rfl

theorem count_complete (f : CpuInterface) (number : BitVec 32) : (f.complete number).count = f.count := by
  unfold CpuInterface.complete
  split
  next => exact CpuInterface.count_write ..
  next => rfl

/-- The guest leaves the requester in a list register as it is. -/
theorem requester_acknowledge (f : CpuInterface) (n : Nat) :
    (f.acknowledge.2.read n).requester = (f.read n).requester ∨ f.acknowledge.2.read n = .empty := by
  unfold CpuInterface.acknowledge
  split
  next =>
    split
    next k _ => exact requester_write (r := { f.read k with state := ⟨false, true⟩ }) (.inl rfl) n
    next => exact .inl rfl
  next => exact .inl rfl

theorem requester_complete (f : CpuInterface) (number : BitVec 32) (n : Nat) :
    ((f.complete number).read n).requester = (f.read n).requester ∨ (f.complete number).read n = .empty := by
  unfold CpuInterface.complete
  split
  next k _ =>
    exact requester_write (r := { f.read k with state := { (f.read k).state with active := false } }) (.inl rfl) n
  next => exact .inl rfl

/-- **Every action is made of strokes**, or it is a store to the distributor's control register. -/
theorem act_strokes (h : c.Stationed) {a : Action} (ha : a ≠ .poll) :
    Strokes c (c.act a) ∨ ∃ v, c.act a = Distributor.storeControl c v := by
  cases a with
  | access a f => exact (composes_strokes.access h a f).imp_right fun e => ⟨_, e⟩
  | accessSystem a f => exact .inl (composes_strokes.accessSystem h a f)
  | inject id => exact .inl (composes_strokes.inject h id)
  | maintain => exact .inl (strokes_maintain h)
  | poll => exact absurd rfl ha
  | acknowledge =>
    exact .inl (.single (.interface _ (congrArg Control.enabled (control_acknowledge _)) (count_acknowledge _)
      (requester_acknowledge _)))
  | complete number =>
    exact .inl (.single (.interface _ (enabled_complete ..) (count_complete _ number) (requester_complete _ number)))

/-- **So is the handling of a message**, unless it is about the distributor's switch. -/
theorem handle_strokes (h : c.Stationed) (m : Message) :
    m.Syncs c.vm ∧ c.handle m = c.syncEnabled ∨ ¬ m.Syncs c.vm ∧ Strokes c (c.handle m) := by
  unfold handle
  simp only
  by_cases here : (Payload.ofWord m.data).vm.toNat = c.vm.id
  · rw [if_pos (beq_iff_eq.2 here)]
    cases hr : Request.ofCode? m.event with
    | none =>
      refine .inr ⟨fun hs => ?_, .refl⟩
      rw [(Request.ofCode?_eq_some_iff ..).2 hs.1.symm] at hr
      cases hr
    | some r =>
      by_cases sync : r = .syncEnable
      · subst sync
        exact .inl ⟨⟨((Request.ofCode?_eq_some_iff ..).1 hr).symm, here⟩, rfl⟩
      · refine .inr ⟨fun hs => ?_, composes_strokes.handleRequest h sync _⟩
        rw [(Request.ofCode?_eq_some_iff ..).2 hs.1.symm] at hr
        exact sync (Option.some.inj hr).symm
  · rw [if_neg fun e => here (beq_iff_eq.1 e)]
    exact .inr ⟨fun hs => here hs.2, .refl⟩

theorem act_writes (h : c.Stationed) {a : Action} (ha : a ≠ .poll) :
    Writes c (c.act a) ∨ ∃ v, c.act a = Distributor.storeControl c v :=
  (act_strokes h ha).imp_left Strokes.writes

theorem handle_writes (h : c.Stationed) (m : Message) :
    m.Syncs c.vm ∧ c.handle m = c.syncEnabled ∨ ¬ m.Syncs c.vm ∧ Writes c (c.handle m) :=
  (handle_strokes h m).imp_right fun ⟨other, strokes⟩ => ⟨other, strokes.writes⟩

/-! ## All that changes a core -/

/-- Set the distributor's enable bits. -/
def setEnables (c : Core) (e : BitVec 2) : Core := { c with vm := { c.vm with groupEnables := e } }

theorem storeControl_eq (c : Core) (v : BitVec 64) :
    Distributor.storeControl c v =
      if ((c.setEnables (v.setWidth 2)).vm.enabled == c.vm.enabled) = true then c.setEnables (v.setWidth 2)
      else (c.setEnables (v.setWidth 2)).syncEnabled.broadcast .syncEnable
        ((c.setEnables (v.setWidth 2)).payload c.vcpu 0) := rfl

theorem posts_storeControl (h : c.Stationed) (v : BitVec 64) (cpu : Nat) : c.Posts (Distributor.storeControl c v) cpu := by
  have same : Same c (c.setEnables (v.setWidth 2)).syncEnabled := ⟨rfl, rfl, rfl, rfl⟩
  rw [storeControl_eq]
  split
  next => exact ⟨[], (List.append_nil _).symm, fun _ hm => absurd hm List.not_mem_nil⟩
  next =>
    obtain ⟨more, e, addressed⟩ := (strokes_broadcast (h.same same)).writes.posts cpu
    exact ⟨more, e, fun m hm => (addressed m hm).same same.symm⟩

/-- **An action takes no message out, and posts to other cores only.** -/
theorem posts_act (h : c.Stationed) {a : Action} (ha : a ≠ .poll) (cpu : Nat) : c.Posts (c.act a) cpu := by
  rcases act_writes h ha with hw | ⟨v, e⟩
  · exact hw.posts cpu
  · rw [e]
    exact posts_storeControl h v cpu

/-- **So does the handling of a message.** -/
theorem posts_handle (h : c.Stationed) (m : Message) (cpu : Nat) : c.Posts (c.handle m) cpu := by
  rcases handle_writes h m with ⟨-, e⟩ | ⟨-, hw⟩
  · rw [e]
    exact ⟨[], (List.append_nil _).symm, fun _ hm => absurd hm List.not_mem_nil⟩
  · exact hw.posts cpu

/-- A single change: a write, of the distributor's switch and the interface's own included, or a message that is taken. -/
inductive Change (c : Core) : Core → Prop
  | write {c' : Core} (h : Write c c') : Change c c'
  | enables (e : BitVec 2) : Change c (c.setEnables e)
  | sync : Change c c.syncEnabled
  | take (m : Message) (bus : MessageBus) (h : c.bus.take c.cpu = some (m, bus)) : Change c { c with bus := bus }

abbrev Changes : Core → Core → Prop := Relation.ReflTransGen Change

theorem Change.same (h : Change c c') : Same c c' := by
  cases h with
  | write h => exact h.same
  | enables | sync => exact ⟨rfl, rfl, rfl, rfl⟩
  | take m bus h => exact (alike_take h).toSame

theorem Change.count (h : Change c c') : c'.interface.count = c.interface.count := by
  cases h with
  | write h => exact h.count
  | enables | sync | take => rfl

theorem Changes.trans (h : Changes c c') (h' : Changes c' c'') : Changes c c'' := Relation.ReflTransGen.trans h h'

theorem Changes.same (h : Changes c c') : Same c c' := by
  induction h with
  | refl => exact .refl c
  | tail _ hw ih => exact ih.trans hw.same

theorem Changes.count (h : Changes c c') : c'.interface.count = c.interface.count := by
  induction h with
  | refl => rfl
  | tail _ hw ih => exact hw.count.trans ih

theorem Writes.changes (h : Writes c c') : Changes c c' := by
  induction h with
  | refl => exact .refl
  | tail _ hw ih => exact .tail ih (.write hw)

theorem changes_storeControl (h : c.Stationed) (v : BitVec 64) : Changes c (Distributor.storeControl c v) := by
  have enables : Changes c (c.setEnables (v.setWidth 2)) := .single (.enables _)
  rw [storeControl_eq]
  split
  next => exact enables
  next =>
    have synced := enables.trans (.single .sync)
    exact synced.trans (strokes_broadcast (h.same synced.same)).writes.changes

theorem changes_handle (h : c.Stationed) (m : Message) : Changes c (c.handle m) := by
  rcases handle_writes h m with ⟨-, e⟩ | ⟨-, hw⟩
  · rw [e]
    exact .single .sync
  · exact hw.changes

theorem changes_handleUpTo (n : Nat) (c : Core) (h : c.Stationed) : Changes c (c.handleUpTo n).2 := by
  induction n generalizing c with
  | zero => exact .refl
  | succ n ih =>
    unfold handleUpTo
    cases hn : c.handleNext? with
    | none => exact .refl
    | some d =>
      obtain ⟨m, bus, ht, rfl⟩ := (c.handleNext?_eq_some_iff d).1 hn
      have taken : Changes c { c with bus := bus } := .single (.take m bus ht)
      have handled := taken.trans (changes_handle (h.same taken.same) m)
      exact handled.trans (ih _ (h.same handled.same))

/-- **Whatever a core does is made of single changes.** -/
theorem changes_act (h : c.Stationed) (a : Action) : Changes c (c.act a) := by
  by_cases ha : a = .poll
  · rw [ha]
    exact changes_handleUpTo _ c h
  · rcases act_writes h ha with hw | ⟨v, e⟩
    · exact hw.changes
    · rw [e]
      exact changes_storeControl h v

theorem Move.changes {ds : List Deed} (h : Move c ds c') (hs : c.Stationed) : Changes c c' := by
  cases h with
  | act a ha => exact changes_act hs a
  | handle m bus ht =>
    have taken : Changes c { c with bus := bus } := .single (.take m bus ht)
    exact taken.trans (changes_handle (hs.same taken.same) m)

end Core
end VirtualGic
