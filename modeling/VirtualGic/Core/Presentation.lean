import VirtualGic.Core.Placement
/-!
# Presenting interrupts

`deliver` brings an interrupt to the guest, here or by way of the cores of its other
targets; `refill` fills free list registers from the spill lists.
-/
namespace VirtualGic.Core

def offer (c : Core) (l : Line) (vcpus : CpuSet) : Core :=
  c.postAll (c.vm.pcpusOf vcpus).toList .route (c.payload (l.home?.getD c.vcpu) l.id)

/-- Present an interrupt that this vCPU owns: place it here if the vCPU is a target, and where
that fails give it up and offer it to the other targets. -/
def deliver (c : Core) (l : Line) : Core :=
  if (c.stateOf l).isIdle || !(c.interrupt l).enabled then c
  else
    let targets := c.vm.targets l (c.interrupt l)
    let c := if targets.getLsbD c.vcpu then (c.place l).1 else c
    let others := targets.erase c.vcpu
    if (c.interrupt l).resident || others == 0 || !c.releasable l then c
    else (c.release l).offer l others

/-! ## Refilling -/

/-- Whether a spilled interrupt may be brought back here: it is pending or, unless only those
are wanted, active; it is enabled, not owned elsewhere, and targets this vCPU. -/
def isWanted (c : Core) (pendingOnly : Bool) (l : Line) : Bool :=
  let s := c.interrupt l
  (if pendingOnly then s.state.pending else !s.state.isIdle) && s.enabled &&
    s.availableTo c.vcpu && c.isTarget l

/-- Drop the requests for maintenance when list registers run empty. -/
def dropRequests (c : Core) : Core :=
  c.modifyControl ({ · with noPending := false, underflow := false })

/-- Fill free list registers, most important interrupt first, passing over the numbers in
`skipped`.  Each round places an interrupt or skips one, so as many rounds as there are
spilled interrupts, and one more, reach the end. -/
def refillLoop (pendingOnly : Bool) : Nat → List Nat → Core → Core
  | 0, _, c => c
  | rounds + 1, skipped, c =>
    match c.interface.freeSlot? with
    | none => c
    | some _ =>
      match c.firstSpilled? (fun l => !skipped.contains l.id && c.isWanted pendingOnly l) with
      | none => c.dropRequests
      | some l =>
        let (c, placed) := (c.claim l).place l
        if placed then refillLoop pendingOnly rounds skipped c
        else refillLoop pendingOnly rounds (l.id :: skipped) (c.release l)

/-- Fill free list registers from the spill lists.  Once nothing wanted is left, maintenance on
running empty is no longer asked for. -/
def refill (c : Core) (pendingOnly : Bool) : Core :=
  refillLoop pendingOnly (c.spilledIds.length + 1) [] c

/-! ## Completions that matched no list register -/

/-- Deactivate the most important spilled active interrupt that is not owned elsewhere. -/
def deactivateSpilled (c : Core) : Core :=
  match c.firstSpilled? fun l => (c.interrupt l).state.active && c.mayClaim l with
  | none => c
  | some l =>
    let c := (c.claim l).update l fun s => { s with state := { s.state with active := false } }
    let c := if (c.interrupt l).hardware then { c with gic := c.gic.setActive l.id false } else c
    let c := if (c.interrupt l).state.isIdle then c.unspill l else c.deliver l
    c.release l

end VirtualGic.Core
