import VirtualGic.Core.Basic
/-!
# Placing interrupts in list registers

`withdraw` takes an interrupt out of its list register and `place` puts one in,
making room by `evict` when every register is in use.  All of them act for the
running vCPU, on interrupts that it owns.
-/
namespace VirtualGic.Core

/-! ## Taking out -/

/-- The record of an interrupt that is taken out of list register `r`. -/
def takenBack (c : Core) (l : Line) (r : ListRegister) : Interrupt :=
  let s := { c.interrupt l with resident := false, state := r.state }
  if c.vm.countsRequesters l then r.restoreRequest s else s

/-- A pending interrupt that nothing else will signal again.  A level triggered hardware line is
signalled again by the distributor. -/
def needsPresenting (s : Interrupt) : Bool :=
  s.state.pending && s.enabled && (s.config &&& Interrupt.edgeTriggered != 0 || !s.hardware)

/-- Take an interrupt out of its list register, keeping the state that the guest left in it. -/
def withdraw (c : Core) (l : Line) : Core :=
  let s := c.interrupt l
  if s.resident && s.ownedBy c.vcpu then
    match c.held? l with
    | none => c.update l ({ · with resident := false })
    | some r =>
      let s' := c.takenBack l r
      let c := (c.writeSlot s.slot .empty).setInterrupt l s'
      if needsPresenting s' then c.wantNoPending else c
  else c

/-! ## Putting in -/

/-- Whether the running vCPU's slot `n` is credited to the interrupt. -/
def isCredited (c : Core) (l : Line) (n : Nat) : Bool :=
  let s := c.interrupt l
  s.ownedBy c.vcpu && s.resident && s.slot == n

/-- Settle the last occupant of a slot, whose hardware list register may have completed
without maintenance: it is no longer resident, and idle. -/
def settle (c : Core) (n id : Nat) : Core :=
  let previous := c.vm.occupant? c.vcpu n
  let c := { c with vm := c.vm.setOccupant c.vcpu n id }
  match previous with
  | none => c
  | some old =>
    if old == id then c
    else
      match c.find? old with
      | none => c
      | some l =>
        if c.isCredited l n then
          (c.update l ({ · with resident := false, state := .idle })).release l
        else c

/-- The list register that presents an interrupt, and the record left behind. -/
def presented (c : Core) (l : Line) : ListRegister × Interrupt :=
  let s := c.interrupt l
  if c.vm.countsRequesters l then ListRegister.presentRequest l s
  else (ListRegister.present l s, s)

def seat (c : Core) (l : Line) (n : Nat) : Core :=
  let c := c.settle n l.id
  let (r, s) := c.presented l
  let c := (c.writeSlot n r).setInterrupt l { s with state := .idle, resident := true, slot := n }
  c.unspill l

/-- Move the occupant of a slot to its spill list.  A register that is credited to no
interrupt is cleared. -/
def evict (c : Core) (n : Nat) : Core :=
  match c.find? (c.interface.read n).intid.toNat with
  | none => c.writeSlot n .empty
  | some l =>
    if c.isCredited l n then ((c.withdraw l).spill l).release l else c.writeSlot n .empty

/-- A free slot, after evicting a less important interrupt when there is none. -/
def makeRoom (c : Core) : Core × Option Nat :=
  match c.interface.freeSlot? with
  | some n => (c, some n)
  | none =>
    match c.interface.victim? with
    | some n => (c.evict n, some n)
    | none => (c, none)

def mayPlace (c : Core) (l : Line) : Bool :=
  (c.interrupt l).enabled && !(c.interrupt l).resident && c.owns l

/-- Put an interrupt into a list register and say whether that was done.  When there is no
room it is spilled. -/
def place (c : Core) (l : Line) : Core × Bool :=
  if c.mayPlace l then
    match c.makeRoom with
    | (c, some n) => (c.seat l n, true)
    | (c, none) => (c.spill l, false)
  else (c, false)

end VirtualGic.Core
