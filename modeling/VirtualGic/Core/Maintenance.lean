import VirtualGic.Core.Presentation
/-!
# Maintenance

The maintenance interrupt of a core: completed list registers are retired, completions
that matched none are accounted for, and free list registers are refilled.
-/
namespace VirtualGic.Core

/-- Retire one completed list register.  Requesters of a version 2 software interrupt that still
wait make it pending again. -/
def retire (c : Core) (n : Nat) : Core :=
  let r := c.interface.read n
  let c := c.writeSlot n .empty
  match c.find? r.intid.toNat with
  | none => c
  | some l =>
    if c.isCredited l n then
      let s := { c.interrupt l with resident := false, state := r.state }
      let s :=
        if c.vm.countsRequesters l && s.requesters != 0 then
          { s with state := { s.state with pending := true } }
        else s
      let c := c.setInterrupt l s
      if s.state.isIdle then c.release l else c.deliver l
    else c

def retireCompleted (c : Core) : Core :=
  (c.interface.slotsWhere (·.isCompleted)).foldl (·.retire ·) c

/-- Account for the completions that matched no list register. -/
def settleUnmatched (c : Core) : Core :=
  let count := c.interface.control.completions.toNat
  (List.range count).foldl (fun c _ => c.deactivateSpilled)
    (c.modifyControl ({ · with completions := 0 }))

/-- Deactivations come before refilling, so that an interrupt which the guest has completed is not
presented again. -/
def maintain (c : Core) : Core :=
  let due := c.interface.status
  let c := if due.completed then c.retireCompleted else c
  let c := if due.unmatched then c.settleUnmatched else c
  if due.noPending || due.underflow then c.refill due.noPending else c

end VirtualGic.Core
