import VirtualGic.Proofs.Standing
import VirtualGic.Proofs.Write
/-!
# Single operations

An action of a core, or its handling of a message, is a sequence of single operations (`Core.Operation`), each of which
takes at most one interrupt in hand; only a maintenance drops requests for maintenance, and does so last
(`Core.maintain_operations`).  An operation calls `place` at most once.  `Core.Calls` lists these calls with the core by
then, and nothing comes onto a spill list but in one of them (`Core.Operation.spills`).
-/
namespace VirtualGic

namespace Core

variable {c c' c'' d : Core} {k l : Line} {n : Nat}

/-! ## Operations -/

/-- What is not an operation on an interrupt in hand: the records stay as they are, and so do the requests for
maintenance, to which others may be added. -/
structure Aside (c c' : Core) : Prop where
  runs : ∃ ds, c.Runs ds c' ∧ ∀ d ∈ ds, d.Tallies c.vm
  interrupt : ∀ l, c'.interrupt l = c.interrupt l
  noPending : c.interface.control.noPending = true → c'.interface.control.noPending = true
  underflow : c.interface.control.underflow = true → c'.interface.control.underflow = true

/-- A single operation of a core. -/
inductive Operation (c : Core) : Core → Prop
  | write (g : RegisterGroup) (l : Line) (v : BitVec 64) (has : c.vm.Has l) (may : c.mayClaim l = true) :
    Operation c (c.applyField g l v)
  | raise (l : Line) (has : c.vm.Has l) (may : c.mayClaim l = true) (hardware : (c.interrupt l).hardware = true) :
    Operation c (c.injectHardware l)
  | accept (l : Line) (has : c.vm.Has l) : Operation c (c.accept l)
  | retire (n : Nat) (completed : (c.interface.read n).isCompleted = true) : Operation c (c.retire n)
  | deactivate (l : Line) (first : (c.firstSpilled? fun l => (c.interrupt l).state.active && c.mayClaim l) = some l) :
    Operation c c.deactivateSpilled
  /-- One round of refilling. -/
  | refill (pendingOnly : Bool) (l : Line) (n : Nat) (free : c.interface.freeSlot? = some n)
    (first : c.firstSpilled? (c.isWanted pendingOnly) = some l) : Operation c ((c.claim l).place l).1
  | aside {c' : Core} (h : Aside c c') : Operation c c'

abbrev Operations : Core → Core → Prop := Relation.ReflTransGen Operation

theorem Operations.trans (h : Operations c c') (h' : Operations c' c'') : Operations c c'' :=
  Relation.ReflTransGen.trans h h'

/-- What an operation does to the interrupts, if it takes one in hand. -/
inductive Outcome (c c' : Core) : Prop
  | handled (l : Line) (s : Interrupt) (h : Handled c c' l s)
  /-- It was claimed and given up at once. -/
  | returned (l : Line) (has : c.vm.Has l) (may : c.mayClaim l = true) (eq : c' = (c.claim l).release l)
  | aside (h : Aside c c')

theorem none_ne_raise (l : Line) : none ≠ some (Deed.raise l) := (Option.some_ne_none _).symm

theorem Does.tallied_runs {d : Option Deed} (h : Does c c' d) (raises : ∀ l, d ≠ some (.raise l)) :
    ∃ ds, c.Runs ds c' ∧ ∀ d ∈ ds, d.Tallies c.vm :=
  ⟨_, h.runs, tallies_of_ne fun k hk => raises k (Option.mem_toList.1 hk)⟩

theorem Operation.runs_outcome (h : Operation c c') (hs : c.Sound) :
    (∃ ds, c.Runs ds c' ∧ ∀ d ∈ ds, d.Tallies c.vm) ∧ Outcome c c' := by
  have handled : ∀ {l s}, Handled c c' l s → Made c l id s →
      (∃ ds, c.Runs ds c' ∧ ∀ d ∈ ds, d.Tallies c.vm) ∧ Outcome c c' := fun hh made =>
    ⟨Does.tallied_runs (d := none) (.handled _ _ (fun _ ha => by cases ha) hh made) none_ne_raise, .handled _ _ hh⟩
  cases h with
  | write g l v has may =>
    obtain ⟨s, hh, made⟩ := handled_applyField hs has may g v
    exact ⟨Does.tallied_runs (d := some (.write g l v)) (.handled l s (fun a ha => by cases ha; rfl) hh made) nofun,
      .handled l s hh⟩
  | raise l has may hardware =>
    obtain ⟨s, hh, made⟩ := handled_injectHardware hs has may
    refine ⟨⟨_, Does.runs (d := some (.raise l)) (.handled l s (fun a ha => by cases ha; rfl) hh made), ?_⟩, .handled l s hh⟩
    -- no hardware interrupt keeps a set of requesters
    rintro d hd k rfl
    cases List.mem_singleton.1 hd
    refine Bool.eq_false_iff.2 fun counts => ?_
    rw [hs.soft_of_counts has counts] at hardware
    cases hardware
  | accept l has =>
    refine ⟨(accept_does hs has).tallied_runs none_ne_raise, ?_⟩
    rcases accept_cases hs has with ⟨-, e⟩ | ⟨s, hh, -⟩ | ⟨may, e, -⟩
    · rw [e]
      exact .aside ⟨⟨[], .nil c, nofun⟩, fun _ => rfl, id, id⟩
    · exact .handled l s hh
    · exact .returned l has may e
  | retire n completed =>
    obtain ⟨l, s, hh, made, -⟩ := handled_retire hs completed
    exact handled hh made
  | deactivate l first =>
    obtain ⟨s, hh, made⟩ := handled_deactivateSpilled hs first
    exact ⟨Does.tallied_runs (d := some (.deactivate l)) (.handled l s (fun a ha => by cases ha; rfl) hh made) nofun,
      .handled l s hh⟩
  | refill pendingOnly l n free first =>
    obtain ⟨has, -, spilled, wanted⟩ := firstSpilled?_spec first
    obtain ⟨busy, enabled, may, target⟩ := busy_of_isWanted wanted
    obtain ⟨-, s, hh, made⟩ := handled_refill hs has may (hs.off_of_spilled has spilled) enabled target busy free
    exact handled hh made
  | aside h => exact ⟨h.runs, .aside h⟩

theorem Operation.sound (h : Operation c c') (hs : c.Sound) : c'.Sound := by
  obtain ⟨⟨ds, runs, -⟩, -⟩ := h.runs_outcome hs
  exact runs.sound hs

theorem Operation.tallied (h : Operation c c') (hs : c.Sound) (ht : c.Tallied) : c'.Tallied := fun l hl may counts => by
  obtain ⟨⟨ds, runs, tallies⟩, -⟩ := h.runs_outcome hs
  have hloc := runs.local_
  have hl' := (Vm.has_congr hloc.partition l).1 hl
  rw [hloc.mayClaim hl'] at may
  rw [Vm.countsRequesters_congr hloc.partition] at counts
  exact runs.tallied hs hl' tallies counts (ht l hl' may counts)

theorem Operations.runs (h : Operations c c') (hs : c.Sound) : ∃ ds, c.Runs ds c' := by
  induction h with
  | refl => exact ⟨[], .nil c⟩
  | tail _ o ih =>
    obtain ⟨ds, runs⟩ := ih
    obtain ⟨⟨es, next, -⟩, -⟩ := o.runs_outcome (runs.sound hs)
    exact ⟨ds ++ es, runs.append next⟩

theorem Operations.sound (h : Operations c c') (hs : c.Sound) : c'.Sound := by
  obtain ⟨ds, runs⟩ := h.runs hs
  exact runs.sound hs

theorem Operations.tallied (h : Operations c c') (hs : c.Sound) (ht : c.Tallied) : c'.Tallied := by
  induction h with
  | refl => exact ht
  | tail ops o ih => exact o.tallied (Operations.sound ops hs) ih

/-! ## What actions are made of -/

theorem operations_aside (h : Aside c c') : Operations c c' := .single (.aside h)

theorem aside_posted {r : Request} {d : Option Deed} (h : Does c c' d) (raises : ∀ l, d ≠ some (.raise l))
    (hp : Posted r c c') : Aside c c' :=
  ⟨h.tallied_runs raises, hp.interrupt, by rw [hp.interface]; exact id, by rw [hp.interface]; exact id⟩

theorem operations_writeField (h : c.Sound) (hl : c.vm.Has l) (g : RegisterGroup) (v : BitVec 64) :
    Operations c (c.writeField g l v) := by
  cases may : c.mayClaim l with
  | true =>
    rw [writeField, may, if_pos rfl]
    exact .single (.write g l v hl may)
  | false =>
    have hf := forwarded_writeField h hl may g v
    exact operations_aside (aside_posted (.forwarded g l v hf) (fun _ e => (by cases e)) hf.posted)

theorem operations_injectHardware (h : c.Sound) (hl : c.vm.Has l) (hardware : (c.interrupt l).hardware = true) :
    Operations c (c.injectHardware l) := by
  cases may : c.mayClaim l with
  | true => exact .single (.raise l hl may hardware)
  | false =>
    obtain ⟨w, target, -, -, -, e⟩ := forward_eq h hl may .inject fun p => p
    have e : c.injectHardware l = _ := (if_neg (by rw [may]; decide)).trans e
    rw [e]
    exact operations_aside (aside_posted (.posted .inject (by decide) (posted_post ..)) none_ne_raise (posted_post ..))

/-- **The pieces of accesses, injections and messages are made of operations.** -/
theorem composes_operations : Composes Sound Operation where
  keeps h ops := by
    obtain ⟨ds, runs⟩ := Operations.runs ops h
    exact ⟨runs.sound h, runs.local_.toSame⟩
  writeField h has g v := operations_writeField h has g v
  injectHardware h has hardware := operations_injectHardware h has hardware
  ask _ _ _ _ _ :=
    operations_aside (aside_posted (.posted .inject (by decide) (posted_post ..)) none_ne_raise (posted_post ..))
  accept _ has := .single (.accept _ has)
  sleep c vcpu asleep := operations_aside
    ⟨(setAsleep_does c vcpu asleep).tallied_runs none_ne_raise, fun _ => Vm.interrupt_setAsleep .., id, id⟩

theorem operations_syncEnabled (c : Core) : Operations c c.syncEnabled :=
  operations_aside ⟨(syncEnabled_does c).tallied_runs none_ne_raise, fun _ => rfl, id, id⟩

theorem operations_storeControl (c : Core) (v : BitVec 64) : Operations c (Distributor.storeControl c v) := by
  have hd := does_storeControl_enables c (v.setWidth 2)
  have enables : Operations c { c with vm := { c.vm with groupEnables := v.setWidth 2 } } :=
    operations_aside ⟨hd.tallied_runs none_ne_raise, fun l => by cases l <;> rfl, id, id⟩
  unfold Distributor.storeControl
  simp only
  split
  next => exact enables
  next =>
    refine enables.trans ((operations_syncEnabled _).trans (operations_aside ?_))
    exact aside_posted (.posted .syncEnable (by decide) (posted_postAll ..)) none_ne_raise (posted_postAll ..)

theorem control_complete (f : CpuInterface) (number : BitVec 32) :
    (f.complete number).control.noPending = f.control.noPending ∧
      (f.complete number).control.underflow = f.control.underflow := by
  unfold CpuInterface.complete
  split <;> exact ⟨rfl, rfl⟩

/-- **Every action is made of operations**, but for maintenance. -/
theorem act_operations (h : c.Sound) {a : Action} (ha : a ≠ .poll) (hm : a ≠ .maintain) : Operations c (c.act a) := by
  cases a with
  | access a f =>
    show Operations c (c.access a f).2.2
    rcases composes_operations.access h a f with ops | e
    · exact ops
    · rw [e]
      exact operations_storeControl c (a.stored f)
  | accessSystem a f => exact composes_operations.accessSystem h a f
  | inject id => exact composes_operations.inject h id
  | maintain => exact absurd rfl hm
  | poll => exact absurd rfl ha
  | acknowledge =>
    have control := control_acknowledge c.interface
    refine operations_aside ⟨⟨_, acknowledge_runs h, tallies_deeds h .acknowledge⟩, fun _ => rfl, fun hn => ?_, fun hu => ?_⟩
    · exact (congrArg Control.noPending control).trans hn
    · exact (congrArg Control.underflow control).trans hu
  | complete number =>
    obtain ⟨noPending, underflow⟩ := control_complete c.interface number
    exact operations_aside
      ⟨⟨_, complete_runs h number, tallies_deeds h (.complete number)⟩, fun _ => rfl, noPending.trans, underflow.trans⟩

/-- **So is the handling of a message.** -/
theorem handle_operations (h : c.Sound) (m : Message) : Operations c (c.handle m) := by
  unfold handle
  simp only
  split
  next =>
    cases Request.ofCode? m.event with
    | none => exact .refl
    | some r =>
      by_cases sync : r = .syncEnable
      · rw [sync]
        exact operations_syncEnabled c
      · exact composes_operations.handleRequest h sync _
  next => exact .refl

/-! ## Maintenance -/

theorem operations_retireCompleted (h : c.Sound) : Operations c c.retireCompleted :=
  h.retireCompleted_induct (P := fun _ => Operations c) .refl fun _ n _ _ completed ops => ops.tail (.retire n completed)

theorem operations_deactivateSpilled (c : Core) : Operations c c.deactivateSpilled := by
  cases hf : c.firstSpilled? fun l => (c.interrupt l).state.active && c.mayClaim l with
  | none =>
    rw [deactivateSpilled_of_none hf]
  | some l => exact .single (.deactivate l hf)

theorem operations_settleUnmatched (c : Core) : Operations c c.settleUnmatched := by
  have count : Does c (c.modifyControl ({ · with completions := 0 })) none := .aside (alike_modifyControl ..) rfl id
  have first : Operations c (c.modifyControl ({ · with completions := 0 })) :=
    operations_aside ⟨count.tallied_runs none_ne_raise, fun _ => rfl, id, id⟩
  exact first.trans (foldl_composed _ _ fun d _ _ _ => operations_deactivateSpilled d)

/-- Nothing on the spill lists that this core serves is wanted here. -/
def Drained (c : Core) (pendingOnly : Bool) : Prop :=
  ∀ l, c.vm.Has l → l.SeenBy c.vcpu → (c.interrupt l).spilled = true → c.isWanted pendingOnly l = false

/-- No round of refilling skips an interrupt. -/
theorem refillLoop_succ (h : c.Sound) (pendingOnly : Bool) (rounds : Nat) :
    refillLoop pendingOnly (rounds + 1) [] c =
      match c.interface.freeSlot?, c.firstSpilled? (c.isWanted pendingOnly) with
      | none, _ => c
      | some _, none => c.dropRequests
      | some _, some l => refillLoop pendingOnly rounds [] ((c.claim l).place l).1 := by
  have all : (fun l : Line => !([] : List Nat).contains l.id && c.isWanted pendingOnly l) = c.isWanted pendingOnly := by
    funext l
    exact Bool.true_and _
  rw [refillLoop]
  cases free : c.interface.freeSlot? with
  | none => rfl
  | some n =>
    simp only [all]
    cases first : c.firstSpilled? (c.isWanted pendingOnly) with
    | none => rfl
    | some l =>
      obtain ⟨has, -, spilled, wanted⟩ := firstSpilled?_spec first
      obtain ⟨busy, enabled, may, target⟩ := busy_of_isWanted wanted
      obtain ⟨placed, -⟩ := handled_refill h has may (h.off_of_spilled has spilled) enabled target busy free
      simp only [placed, if_true]

/-- **Refilling** is made of operations, and drops the requests for maintenance once there is nothing left to bring
back. -/
theorem operations_refillLoop (pendingOnly : Bool) (rounds : Nat) (c : Core) (h : c.Sound) :
    ∃ d, Operations c d ∧ (refillLoop pendingOnly rounds [] c = d ∨
      d.Drained pendingOnly ∧ refillLoop pendingOnly rounds [] c = d.dropRequests) := by
  induction rounds generalizing c with
  | zero => exact ⟨c, .refl, .inl rfl⟩
  | succ rounds ih =>
    rw [refillLoop_succ h]
    cases free : c.interface.freeSlot? with
    | none => exact ⟨c, .refl, .inl rfl⟩
    | some n =>
      cases first : c.firstSpilled? (c.isWanted pendingOnly) with
      | none => exact ⟨c, .refl, .inr ⟨fun l hl seen hsp => firstSpilled?_eq_none h first hl seen hsp, rfl⟩⟩
      | some l =>
        have round : Operation c ((c.claim l).place l).1 := .refill pendingOnly l n free first
        obtain ⟨d, rest, e⟩ := ih _ (round.sound h)
        exact ⟨d, .head round rest, e⟩

/-- **Maintenance** is made of operations.  It drops the requests for maintenance where one of those is due, once nothing
is left to bring back: nothing pending, if it is due because nothing is pending. -/
theorem maintain_operations (h : c.Sound) :
    ∃ d, Operations c d ∧ (c.maintain = d ∨
      (c.interface.status.noPending || c.interface.status.underflow) = true ∧ d.Drained c.interface.status.noPending ∧
        c.maintain = d.dropRequests) := by
  unfold maintain
  simp only
  have h1 : Operations c (if c.interface.status.completed = true then c.retireCompleted else c) := by
    split
    next => exact operations_retireCompleted h
    next => exact .refl
  generalize (if c.interface.status.completed = true then c.retireCompleted else c) = d at h1
  have h2 : Operations d (if c.interface.status.unmatched = true then d.settleUnmatched else d) := by
    split
    next => exact operations_settleUnmatched d
    next => exact .refl
  have h12 := h1.trans h2
  generalize (if c.interface.status.unmatched = true then d.settleUnmatched else d) = e at h12
  split
  next due =>
    obtain ⟨x, ops, outcome⟩ := operations_refillLoop c.interface.status.noPending (e.spilledIds.length + 1) e (h12.sound h)
    exact ⟨x, h12.trans ops, outcome.imp_right fun ⟨drained, e⟩ => ⟨due, drained, e⟩⟩
  next => exact ⟨e, h12, .inl rfl⟩

/-! ## Calls -/

/-- What an operation delivers, and the core by then. -/
inductive Delivers (c : Core) : Core → Line → Prop
  | write (g : RegisterGroup) (l : Line) (v : BitVec 64) (gic : PhysicalGic) (has : c.vm.Has l) (may : c.mayClaim l = true) :
    Delivers c { (c.grasp l).edit l (g.apply (c.grasp l).vm l v ((c.grasp l).interrupt l)) with gic := gic } l
  | raise (l : Line) (gic : PhysicalGic) (has : c.vm.Has l) (may : c.mayClaim l = true) :
    Delivers c { (c.grasp l).edit l ((c.grasp l).interrupt l).raised with gic := gic } l
  | retire (n : Nat) (l : Line) (has : c.vm.Has l) (credited : c.vm.Credits c.vcpu l n) :
    Delivers c ((c.writeSlot n .empty).setInterrupt l (c.retired l (c.interface.read n))) l
  | deactivate (l : Line) (gic : PhysicalGic)
    (first : (c.firstSpilled? fun l => (c.interrupt l).state.active && c.mayClaim l) = some l) :
    Delivers c { (c.claim l).edit l ((c.claim l).interrupt l).deactivated with gic := gic } l

/-- A call of `place` in an operation, and the core by then. -/
inductive Calls (c : Core) : Core → Line → Prop
  | deliver {d : Core} {l : Line} (h : c.Delivers d l) (busy : (d.interrupt l).state.isIdle = false)
    (target : d.isTarget l = true) : Calls c d l
  | accept (l : Line) (has : c.vm.Has l) (may : c.mayClaim l = true) (off : (c.interrupt l).resident = false)
    (busy : (c.interrupt l).state.isIdle = false) (target : c.isTarget l = true) : Calls c (c.claim l) l
  | refill (pendingOnly : Bool) (l : Line) (n : Nat) (free : c.interface.freeSlot? = some n)
    (first : c.firstSpilled? (c.isWanted pendingOnly) = some l) : Calls c (c.claim l) l

theorem Delivers.inHand (h : c.Delivers d l) (hs : c.Sound) : d.InHand l ∧ Frame l c d := by
  cases h with
  | write g l v gic has may =>
    have hg := inHand_grasp hs has may
    obtain ⟨h1, h2, h3, h4⟩ := g.apply_keeps (c.grasp l).vm l v ((c.grasp l).interrupt l)
    obtain ⟨he, hf, -⟩ := inHand_edit hg h1 (h2.trans hg.off) h4 h3
    exact ⟨inHand_gic he gic, ((frame_grasp hs has may).trans hf).trans (frame_gic ..)⟩
  | raise l gic has may =>
    have hg := inHand_grasp hs has may
    obtain ⟨he, hf, -⟩ := inHand_edit (s := ((c.grasp l).interrupt l).raised) hg rfl hg.off rfl rfl
    exact ⟨inHand_gic he gic, ((frame_grasp hs has may).trans hf).trans (frame_gic ..)⟩
  | retire n l has credited =>
    obtain ⟨hh, hf, -⟩ := inHand_retired hs has credited
    exact ⟨hh, hf⟩
  | deactivate l gic first =>
    obtain ⟨has, -, spilled, hp⟩ := firstSpilled?_spec first
    rw [Bool.and_eq_true] at hp
    have hc := inHand_claim hs has hp.2 (hs.off_of_spilled has spilled)
    obtain ⟨he, hf, -⟩ := inHand_edit (s := ((c.claim l).interrupt l).deactivated) hc rfl hc.off rfl rfl
    exact ⟨inHand_gic he gic, ((frame_claim c l).trans hf).trans (frame_gic ..)⟩

/-- **What is passed to `place` is in hand**, neither idle nor meant for others only. -/
theorem Calls.inHand (h : c.Calls d l) (hs : c.Sound) :
    d.InHand l ∧ (d.interrupt l).state.isIdle = false ∧ d.isTarget l = true := by
  cases h with
  | deliver h busy target => exact ⟨(h.inHand hs).1, busy, target⟩
  | accept l has may off busy target =>
    exact ⟨inHand_claim hs has may off, by rw [claimed may]; exact busy, (isTarget_claim may).trans target⟩
  | refill pendingOnly l n free first =>
    obtain ⟨has, -, spilled, wanted⟩ := firstSpilled?_spec first
    obtain ⟨busy, -, may, target⟩ := busy_of_isWanted wanted
    exact ⟨inHand_claim hs has may (hs.off_of_spilled has spilled), by rw [claimed may]; exact busy,
      (isTarget_claim may).trans target⟩

/-! ## What comes onto the spill lists -/

theorem spilled_withdraw (c : Core) (l k : Line) : ((c.withdraw l).interrupt k).spilled = (c.interrupt k).spilled := by
  have update : ∀ (c' : Core) (s : Interrupt), c'.vm = c.vm → s.spilled = (c.interrupt l).spilled →
      ((c'.setInterrupt l s).interrupt k).spilled = (c.interrupt k).spilled := fun c' s vm hs => by
    rw [interrupt_setInterrupt]
    split
    next e => rw [← e]; exact hs
    next => exact congrArg (fun vm => (vm.interrupt k).spilled) vm
  unfold withdraw
  simp only
  split
  next =>
    split
    next => exact update c _ rfl rfl
    next r _ =>
      split
      next => exact update (c.writeSlot _ .empty) _ rfl (spilled_takenBack c l r)
      next => exact update (c.writeSlot _ .empty) _ rfl (spilled_takenBack c l r)
  next => rfl

theorem spilled_claim (c : Core) (l k : Line) : ((c.claim l).interrupt k).spilled = (c.interrupt k).spilled := by
  rw [interrupt_claim]
  split
  next e =>
    rw [← e]
    unfold Interrupt.claim
    split <;> rfl
  next => rfl

theorem spilled_release (c : Core) (l k : Line) : ((c.release l).interrupt k).spilled = (c.interrupt k).spilled := by
  rw [interrupt_release]
  split
  next e => rw [← e]; exact Interrupt.spilled_release ..
  next => rfl

/-- An edit keeps what is spilled, unless that becomes idle. -/
theorem spilled_of_edit {s : Interrupt} (hs : s.spilled = (c.interrupt l).spilled)
    (h : ((c.edit l s).interrupt k).spilled = true) : (c.interrupt k).spilled = true := by
  have set : ((c.setInterrupt l s).interrupt k).spilled = (c.interrupt k).spilled := by
    rw [interrupt_setInterrupt]
    split
    next e => rw [← e]; exact hs
    next => rfl
  unfold edit at h
  split at h
  next =>
    rw [interrupt_unspill] at h
    split at h
    next => cases h
    next => exact set.symm.trans h
  next => exact set.symm.trans h

/-- Taking an interrupt in hand puts nothing onto a spill list. -/
theorem Delivers.spilled (h : c.Delivers d l) (new : (d.interrupt k).spilled = true) :
    (c.interrupt k).spilled = true := by
  have grasp : ∀ k, ((c.grasp l).interrupt k).spilled = (c.interrupt k).spilled := fun k =>
    (spilled_withdraw ..).trans (spilled_claim ..)
  cases h with
  | write g l v gic has may =>
    exact (grasp k).symm.trans (spilled_of_edit (g.apply_keeps (c.grasp l).vm l v ((c.grasp l).interrupt l)).2.2.1 new)
  | raise l gic has may => exact (grasp k).symm.trans (spilled_of_edit (s := ((c.grasp l).interrupt l).raised) rfl new)
  | retire n l has credited =>
    rw [interrupt_setInterrupt] at new
    split at new
    next e => rw [(c.retired_spec l _).2.2.1] at new; rw [← e]; exact new
    next => exact new
  | deactivate l gic first =>
    exact (spilled_claim c l k).symm.trans (spilled_of_edit (s := ((c.claim l).interrupt l).deactivated) rfl new)

theorem interrupt_passOn_spilled (c d : Core) (l k : Line) :
    ((passOn c d l).interrupt k).spilled = (d.interrupt k).spilled := by
  unfold passOn
  split
  next => rfl
  next => rw [(posted_offer ..).interrupt, spilled_release]

theorem spilled_deliver (h : c.InHand l) (new : ((c.deliver l).interrupt k).spilled = true) :
    (c.interrupt k).spilled = true ∨ (c.interrupt l).state.isIdle = false ∧ c.isTarget l = true ∧
      ((c.place l).1.interrupt k).spilled = true := by
  rw [deliver_eq, stateOf_of_off h.off] at new
  split at new
  next => exact .inl new
  next busy =>
    simp only [Bool.or_eq_true, not_or, Bool.not_eq_true] at busy
    rw [interrupt_passOn_spilled] at new
    split at new
    next target => exact .inr ⟨busy.1, target, new⟩
    next => exact .inl new

/-- **Nothing comes onto a spill list but in a call of `place`.** -/
theorem Operation.spills (h : Operation c c') (hs : c.Sound) (new : (c'.interrupt k).spilled = true)
    (old : (c.interrupt k).spilled = false) : ∃ d l, c.Calls d l ∧ ((d.place l).1.interrupt k).spilled = true := by
  have delivered : ∀ {d l}, c.Delivers d l → ((d.deliver l).interrupt k).spilled = true →
      ∃ d l, c.Calls d l ∧ ((d.place l).1.interrupt k).spilled = true := fun hd new => by
    rcases spilled_deliver (hd.inHand hs).1 new with spilled | ⟨busy, target, placed⟩
    · exact absurd (old.symm.trans (hd.spilled spilled)) (by decide)
    · exact ⟨_, _, .deliver hd busy target, placed⟩
  cases h with
  | write g l v has may =>
    obtain ⟨gic, e⟩ := c.applyField_eq g l v
    rw [e, spilled_release] at new
    exact delivered (.write g l v gic has may) new
  | raise l has may _ =>
    obtain ⟨gic, e⟩ := injectHardware_eq may
    rw [e, spilled_release] at new
    exact delivered (.raise l gic has may) new
  | accept l has =>
    unfold Core.accept at new
    simp only at new
    split at new
    next may =>
      rw [spilled_release] at new
      split at new
      next asked =>
        simp only [Bool.and_eq_true, Bool.not_eq_true', isTarget_claim may, claimed may] at asked
        exact ⟨_, l, .accept l has may asked.1.1 asked.1.2 asked.2, new⟩
      next => exact absurd (old.symm.trans ((spilled_claim ..).symm.trans new)) (by decide)
    next => exact absurd (old.symm.trans new) (by decide)
  | retire n completed =>
    obtain ⟨l, has, -, -, credited⟩ := hs.seated.held n (ListRegister.not_isEmpty_of_isCompleted completed)
    rw [retire_eq hs has credited] at new
    split at new
    next =>
      rw [spilled_release] at new
      exact absurd (old.symm.trans ((Delivers.retire n l has credited).spilled new)) (by decide)
    next => exact delivered (.retire n l has credited) new
  | deactivate l first =>
    obtain ⟨gic, e⟩ := deactivateSpilled_eq hs first
    rw [e, spilled_release] at new
    exact delivered (.deactivate l gic first) new
  | refill pendingOnly l n free first => exact ⟨_, l, .refill pendingOnly l n free first, new⟩
  | aside h => exact absurd (old.symm.trans ((congrArg _ (h.interrupt k)).symm.trans new)) (by decide)

end Core

namespace Machine

variable {m : Machine} {cpu : Nat} {d : Core}

/-- A core of this machine between two operations: at rest, or in the middle of an action or of the handling of a
message. -/
inductive Working (m : Machine) (cpu : Nat) : Core → Prop
  | act {i : Nat} {c d : Core} (hc : m.core? cpu = some (i, c)) (ops : c.Operations d) : Working m cpu d
  | handle {i : Nat} {c d : Core} {msg : Message} {bus : MessageBus} (hc : m.core? cpu = some (i, c))
    (ht : c.bus.take c.cpu = some (msg, bus)) (ops : Core.Operations { c with bus := bus } d) : Working m cpu d

theorem Arises.working (h : m.Arises) (hw : m.Working cpu d) : d.Sound ∧ d.Tallied := by
  cases hw with
  | act hc ops =>
    have hs := h.sound.core hc
    exact ⟨ops.sound hs, ops.tallied hs (h.tallied.core h.sound hc)⟩
  | handle hc ht ops =>
    have hs := (h.sound.core hc).alike (Core.alike_take ht)
    exact ⟨ops.sound hs, ops.tallied hs fun l hl may counts =>
      (Core.alike_take ht).tallied (h.tallied.core h.sound hc l hl may counts)⟩

theorem Arises.sound_working (h : m.Arises) (hw : m.Working cpu d) : d.Sound := (h.working hw).1

end Machine
end VirtualGic
