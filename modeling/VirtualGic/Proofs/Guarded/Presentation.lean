import VirtualGic.Proofs.Guarded.Placement
/-!
# Guarded presentation

Delivery, refilling and maintenance with every operation guarded.
-/
namespace VirtualGic

namespace Core

variable {c c' : Core} {l : Line}

theorem Equipped.congr (h : c.Equipped) (same : Same c c') (count : c'.interface.count = c.interface.count) : c'.Equipped :=
  ⟨h.toStationed.same same, by rw [count]; exact h.few⟩

theorem Equipped.update (h : c.Equipped) (l : Line) (f : Interrupt → Interrupt) : (c.update l f).Equipped :=
  h.congr (same_setInterrupt ..) rfl

end Core

namespace Guarded

open VirtualGic.Core (Equipped Same Strokes)

variable {c : Core} {l : Line}

/-! ## Delivery -/

def offer (c : Core) (l : Line) (vcpus : CpuSet) : Guarded Core := do
  let cpus ← pcpusOf c.vm vcpus
  let targets ← (List.range 64).filterM (has cpus ·)
  return c.postAll targets .route (c.payload (l.home?.getD c.vcpu) l.id)

theorem offer_eq (h : c.Equipped) (l : Line) (vcpus : CpuSet) : offer c l vcpus = .ok (c.offer l vcpus) := by
  rw [offer, pcpusOf_eq h.checked, ok_bind, filterM_eq _ fun n hn => has_eq _ (List.mem_range.1 hn), ok_bind]
  rfl

def deliver (c : Core) (l : Line) : Guarded Core :=
  if (c.stateOf l).isIdle || !(c.interrupt l).enabled then return c
  else do
    let targets ← targets c.vm l (c.interrupt l)
    let here ← has targets c.vcpu
    let c ← (if here then Prod.fst <$> place c l else pure c : Guarded Core)
    let others := targets &&& ~~~(← bit c.vcpu)
    if (c.interrupt l).resident || others == 0 || !c.releasable l then return c
    else offer (c.release l) l others

theorem deliver_eq (h : c.Equipped) (hl : c.vm.Has l) : deliver c l = .ok (c.deliver l) := by
  rw [Core.deliver_eq]
  refine ite_ok (fun _ => rfl) fun _ => ?_
  have placed : Strokes c (if c.isTarget l = true then (c.place l).1 else c) :=
    Core.strokes_ite (fun _ => Core.strokes_place hl) fun _ => .refl
  have here : (if c.isTarget l = true then Prod.fst <$> place c l else pure c) =
      .ok (if c.isTarget l = true then (c.place l).1 else c) :=
    ite_ok (fun _ => by rw [place_eq h]; rfl) fun _ => rfl
  rw [targets_eq h.checked hl, ok_bind, has_eq _ (vcpu_lt h.checked h.vcpu_lt), ok_bind]
  refine bind_eq here ?_
  generalize (if c.isTarget l = true then (c.place l).1 else c) = d at placed
  have hd := placed.equipped h
  rw [bit_eq (vcpu_lt hd.checked hd.vcpu_lt), ok_bind]
  exact ite_ok (fun _ => rfl) fun _ => offer_eq ((Core.strokes_release d l).equipped hd) l _

/-! ## Refilling -/

/-- The best of the spilled interrupts with a property that this core serves. -/
def firstSpilled? (c : Core) (p : Line → Guarded Bool) : Guarded (Option Line) := do
  running c
  let rank (l : Line) : Rank := ⟨(c.interrupt l).priority.toNat, l.id⟩
  let candidates ← (c.spilledIds.filterMap c.find?).filterM fun l => andThen (c.interrupt l).spilled (p l)
  return firstBest (fun l m => (rank l).before (rank m)) candidates

theorem firstSpilled?_eq (h : c.Equipped) {p : Line → Guarded Bool} {q : Line → Bool}
    (hp : ∀ l, c.vm.Has l → p l = .ok (q l)) : firstSpilled? c p = .ok (c.firstSpilled? q) := by
  rw [firstSpilled?, running_eq h, ok_bind]
  refine bind_eq (filterM_eq (q := fun l => (c.interrupt l).spilled && q l) _ fun l hl => ?_) rfl
  obtain ⟨id, -, hf⟩ := List.mem_filterMap.1 hl
  exact andThen_eq fun _ => hp l (Vm.has_of_find? hf)

def isWanted (c : Core) (pendingOnly : Bool) (l : Line) : Guarded Bool :=
  let s := c.interrupt l
  andThen ((if pendingOnly then s.state.pending else !s.state.isIdle) && s.enabled && s.availableTo c.vcpu) (isTarget c l)

theorem isWanted_eq (h : c.Equipped) (hl : c.vm.Has l) (pendingOnly : Bool) :
    isWanted c pendingOnly l = .ok (c.isWanted pendingOnly l) :=
  andThen_eq fun _ => isTarget_eq h hl

def refillLoop (pendingOnly : Bool) : Nat → List Nat → Core → Guarded Core
  | 0, _, c => return c
  | rounds + 1, skipped, c => do
    match ← freeSlot? c.interface with
    | none => return c
    | some _ =>
      match ← firstSpilled? c fun l => andThen (!skipped.contains l.id) (isWanted c pendingOnly l) with
      | none => return c.dropRequests
      | some l =>
        let (c, placed) ← place (c.claim l) l
        if placed then refillLoop pendingOnly rounds skipped c
        else refillLoop pendingOnly rounds (l.id :: skipped) (c.release l)

theorem refillLoop_eq (pendingOnly : Bool) (rounds : Nat) (skipped : List Nat) (c : Core) (h : c.Equipped) :
    refillLoop pendingOnly rounds skipped c = .ok (Core.refillLoop pendingOnly rounds skipped c) := by
  induction rounds generalizing skipped c with
  | zero => rfl
  | succ rounds ih =>
    have candidate : firstSpilled? c (fun l => andThen (!skipped.contains l.id) (isWanted c pendingOnly l)) =
        .ok (c.firstSpilled? fun l => !skipped.contains l.id && c.isWanted pendingOnly l) :=
      firstSpilled?_eq h fun l hl => andThen_eq fun _ => isWanted_eq h hl pendingOnly
    unfold refillLoop Core.refillLoop
    rw [freeSlot?_eq h.few, ok_bind]
    cases c.interface.freeSlot? with
    | none => rfl
    | some _ =>
      simp only [candidate, ok_bind]
      cases hl : c.firstSpilled? fun l => !skipped.contains l.id && c.isWanted pendingOnly l with
      | none => rfl
      | some l =>
        have claimed := Core.strokes_claim c l
        have placed := claimed.trans (Core.strokes_place (claimed.has (Core.firstSpilled?_spec hl).1))
        simp only [place_eq (claimed.equipped h), ok_bind]
        exact ite_ok (fun _ => ih skipped _ (placed.equipped h)) fun _ =>
          ih _ _ ((placed.trans (Core.strokes_release ..)).equipped h)

def refill (c : Core) (pendingOnly : Bool) : Guarded Core := refillLoop pendingOnly (c.spilledIds.length + 1) [] c

theorem refill_eq (h : c.Equipped) (pendingOnly : Bool) : refill c pendingOnly = .ok (c.refill pendingOnly) :=
  refillLoop_eq pendingOnly _ [] c h

/-! ## Maintenance -/

def deactivateSpilled (c : Core) : Guarded Core := do
  match ← firstSpilled? c fun l => return (c.interrupt l).state.active && c.mayClaim l with
  | none => return c
  | some l =>
    let c := (c.claim l).update l fun s => { s with state := { s.state with active := false } }
    let c := if (c.interrupt l).hardware then { c with gic := c.gic.setActive l.id false } else c
    let c ← (if (c.interrupt l).state.isIdle then pure (c.unspill l) else deliver c l : Guarded Core)
    return c.release l

theorem deactivateSpilled_eq (h : c.Equipped) : deactivateSpilled c = .ok c.deactivateSpilled := by
  have candidate : firstSpilled? c (fun l => return (c.interrupt l).state.active && c.mayClaim l) =
      .ok (c.firstSpilled? fun l => (c.interrupt l).state.active && c.mayClaim l) := firstSpilled?_eq h fun _ _ => rfl
  unfold deactivateSpilled Core.deactivateSpilled
  rw [candidate, ok_bind]
  cases hl : c.firstSpilled? fun l => (c.interrupt l).state.active && c.mayClaim l with
  | none => rfl
  | some l =>
    have claimed := Core.strokes_claim c l
    have same : Same c ((c.claim l).update l fun s => { s with state := { s.state with active := false } }) :=
      claimed.same.trans (Core.same_setInterrupt ..)
    have equipped := (claimed.equipped h).update l fun s => { s with state := { s.state with active := false } }
    have has := (Vm.has_congr same.partition l).2 (Core.firstSpilled?_spec hl).1
    simp only
    generalize ((c.claim l).update l fun s => { s with state := { s.state with active := false } }) = d at equipped has
    have same' : Same d (if (d.interrupt l).hardware then { d with gic := d.gic.setActive l.id false } else d) ∧
        (if (d.interrupt l).hardware then { d with gic := d.gic.setActive l.id false } else d : Core).interface = d.interface := by
      split <;> exact ⟨⟨rfl, rfl, rfl, rfl⟩, rfl⟩
    generalize (if (d.interrupt l).hardware then { d with gic := d.gic.setActive l.id false } else d) = e at same'
    have delivered : (if (e.interrupt l).state.isIdle = true then pure (e.unspill l) else deliver e l) =
        .ok (if (e.interrupt l).state.isIdle = true then e.unspill l else e.deliver l) :=
      ite_ok (fun _ => rfl) fun _ => deliver_eq (equipped.congr same'.1 (congrArg _ same'.2))
        ((Vm.has_congr same'.1.partition l).2 has)
    rw [delivered]
    rfl

def retire (c : Core) (n : Nat) : Guarded Core :=
  let r := c.interface.read n
  let c := c.writeSlot n .empty
  match c.find? r.intid.toNat with
  | none => return c
  | some l =>
    if c.isCredited l n then
      let s := { c.interrupt l with resident := false, state := r.state }
      let s :=
        if c.vm.countsRequesters l && s.requesters != 0 then
          { s with state := { s.state with pending := true } }
        else s
      let c := c.setInterrupt l s
      if s.state.isIdle then return c.release l else deliver c l
    else return c

theorem retire_eq (h : c.Equipped) (n : Nat) : retire c n = .ok (c.retire n) := by
  have cleared := (Core.strokes_clear c n).equipped h
  unfold retire Core.retire
  simp only
  cases hl : (c.writeSlot n .empty).find? (c.interface.read n).intid.toNat with
  | none => rfl
  | some l =>
    refine ite_ok (fun _ => ?_) fun _ => rfl
    refine ite_ok (fun _ => rfl) fun _ => deliver_eq (cleared.congr (Core.same_setInterrupt ..) rfl) ?_
    exact (Vm.has_congr (Core.same_setInterrupt ..).partition l).2 (Vm.has_of_find? hl)

def retireCompleted (c : Core) : Guarded Core := do
  (← c.interface.slots.filterM (← slotsShown c.interface (·.isCompleted))).foldlM retire c

theorem retireCompleted_eq (h : c.Equipped) : retireCompleted c = .ok c.retireCompleted := by
  rw [retireCompleted, slotsShown_eq h.few, ok_bind, filterM_eq _ fun n => has_slots h.few (·.isCompleted), ok_bind]
  exact foldlM_eq Equipped _ c h fun d hd n _ => ⟨retire_eq hd n, (Core.strokes_retire hd.toStationed n).equipped hd⟩

def settleUnmatched (c : Core) : Guarded Core :=
  let count := c.interface.control.completions.toNat
  (List.range count).foldlM (fun c _ => deactivateSpilled c) (c.modifyControl ({ · with completions := 0 }))

theorem settleUnmatched_eq (h : c.Equipped) : settleUnmatched c = .ok c.settleUnmatched :=
  foldlM_eq Equipped _ _ (h.congr ⟨rfl, rfl, rfl, rfl⟩ rfl) fun _ hd _ _ =>
    ⟨deactivateSpilled_eq hd, (Core.strokes_deactivateSpilled hd.toStationed).equipped hd⟩

def maintain (c : Core) : Guarded Core := do
  let due := c.interface.status
  let c ← (if due.completed then retireCompleted c else pure c : Guarded Core)
  let c ← (if due.unmatched then settleUnmatched c else pure c : Guarded Core)
  if due.noPending || due.underflow then refill c due.noPending else return c

theorem maintain_eq (h : c.Equipped) : maintain c = .ok c.maintain := by
  have step {p : Prop} [Decidable p] {d d' : Core} (hd : d.Equipped) {x : Guarded Core} (hx : x = .ok d')
      (strokes : Strokes d d') : (if p then x else pure d) = .ok (if p then d' else d) ∧ (if p then d' else d).Equipped :=
    ⟨ite_ok (fun _ => hx) fun _ => rfl, (Core.strokes_ite (fun _ => strokes) fun _ => .refl).equipped hd⟩
  unfold maintain Core.maintain
  simp only
  obtain ⟨retired, hd⟩ := step (p := c.interface.status.completed = true) h (retireCompleted_eq h)
    (Core.strokes_retireCompleted h.toStationed)
  rw [retired, ok_bind]
  generalize (if c.interface.status.completed = true then c.retireCompleted else c) = d at hd
  obtain ⟨settled, he⟩ := step (p := c.interface.status.unmatched = true) hd (settleUnmatched_eq hd)
    (Core.strokes_settleUnmatched hd.toStationed)
  rw [settled, ok_bind]
  exact ite_ok (fun _ => refill_eq he _) fun _ => rfl

end Guarded
end VirtualGic
