import VirtualGic.CpuInterface.Basic
import VirtualGic.Message.Bus
import VirtualGic.Message.Payload
import VirtualGic.Vm.Routing
/-!
# A core

What one physical CPU works on while it runs a vCPU: the VM, its own interface, and
the message bus and physical distributor that all CPUs share.  A core never touches
another core's interface; what must happen there is posted as a message.
-/
namespace VirtualGic

structure Core where
  cpu : Nat
  vcpu : Nat
  vm : Vm
  interface : CpuInterface
  bus : MessageBus
  gic : PhysicalGic

namespace Core

/-! ## Records -/

def interrupt (c : Core) (l : Line) : Interrupt := c.vm.interrupt l

def setInterrupt (c : Core) (l : Line) (s : Interrupt) : Core :=
  { c with vm := c.vm.setInterrupt l s }

def update (c : Core) (l : Line) (f : Interrupt → Interrupt) : Core :=
  c.setInterrupt l (f (c.interrupt l))

theorem interrupt_setInterrupt (c : Core) (l m : Line) (s : Interrupt) :
    (c.setInterrupt l s).interrupt m = if l = m then s else c.interrupt m :=
  Vm.interrupt_setInterrupt ..

theorem interrupt_update (c : Core) (l m : Line) (f : Interrupt → Interrupt) :
    (c.update l f).interrupt m = if l = m then f (c.interrupt l) else c.interrupt m :=
  Vm.interrupt_setInterrupt ..

def find? (c : Core) (id : Nat) : Option Line := c.vm.find? c.vcpu id

def owns (c : Core) (l : Line) : Bool := (c.interrupt l).ownedBy c.vcpu

/-- Whether the running vCPU owns the interrupt or may claim it. -/
def mayClaim (c : Core) (l : Line) : Bool := (c.interrupt l).availableTo c.vcpu

def claim (c : Core) (l : Line) : Core := c.update l (·.claim c.vcpu)

def releasable (c : Core) (l : Line) : Bool :=
  (c.interrupt l).releasable c.vm.version l c.vcpu

def release (c : Core) (l : Line) : Core := c.update l (·.release c.vm.version l c.vcpu)

def isTarget (c : Core) (l : Line) : Bool :=
  (c.vm.targets l (c.interrupt l)).getLsbD c.vcpu

/-! ## The interface -/

def writeSlot (c : Core) (n : Nat) (r : ListRegister) : Core :=
  { c with interface := c.interface.write n r }

def modifyControl (c : Core) (f : Control → Control) : Core :=
  { c with interface := { c.interface with control := f c.interface.control } }

/-- Ask for maintenance when no list register is pending. -/
def wantNoPending (c : Core) : Core := c.modifyControl ({ · with noPending := true })

/-- Ask for the maintenance that brings a spilled interrupt of this state back. -/
def wantMaintenance (c : Core) (s : Interrupt.State) : Core :=
  c.modifyControl fun k =>
    { k with noPending := k.noPending || s.pending, underflow := k.underflow || s.active }

def setEnabled (c : Core) (on : Bool) : Core := c.modifyControl ({ · with enabled := on })

def syncEnabled (c : Core) : Core := c.setEnabled c.vm.enabled

/-- The list register of this core that holds an interrupt. -/
def held? (c : Core) (l : Line) : Option ListRegister :=
  let s := c.interrupt l
  if s.resident && s.ownedBy c.vcpu then
    let r := c.interface.read s.slot
    if r.names l.id then some r else none
  else none

def stateOf (c : Core) (l : Line) : Interrupt.State :=
  match c.held? l with
  | some r => r.state
  | none => (c.interrupt l).state

/-- The vCPUs whose request for a software interrupt is pending, the one that a list register of
this core holds included. -/
def pendingRequesters (c : Core) (l : Line) : BitVec 8 :=
  let waiting := (c.interrupt l).requesters
  match c.held? l with
  | some r => if r.state.pending then waiting ||| BitVec.twoPow 8 r.requester.toNat else waiting
  | none => waiting

/-! ## Messages -/

/-- Post to a physical CPU.  A CPU without an inbox is passed over. -/
def post (c : Core) (target : Nat) (r : Request) (p : Payload) : Core :=
  match c.bus.post c.gic target ⟨r.code, p.toWord⟩ with
  | .ok (bus, gic) => { c with bus := bus, gic := gic }
  | .error _ => c

def postAll (c : Core) (targets : List Nat) (r : Request) (p : Payload) : Core :=
  targets.foldl (·.post · r p) c

def payload (c : Core) (bank id : Nat) : Payload where
  vm := BitVec.ofNat 8 c.vm.id
  bank := BitVec.ofNat 8 bank
  intid := BitVec.ofNat 10 id
  group := 0
  value := 0

/-- Post to every other core that runs a vCPU of this VM, in the order of the vCPUs. -/
def broadcast (c : Core) (r : Request) (p : Payload) : Core :=
  c.postAll (c.vm.partition.cpus.filter (· != c.cpu)) r p

/-! ## Spill lists -/

/-- Park an interrupt that has no list register, and ask for the maintenance that brings
it back. -/
def spill (c : Core) (l : Line) : Core :=
  { c with vm := c.vm.park l }.wantMaintenance (c.interrupt l).state

def unspill (c : Core) (l : Line) : Core := { c with vm := c.vm.unpark l }

/-- The numbers that wait on the lists this core serves. -/
def spilledIds (c : Core) : List Nat := c.vm.spillList (some c.vcpu) ++ c.vm.spillList none

/-- The spilled interrupts with a property that this core serves, in list order. -/
def spilledLines (c : Core) (p : Line → Bool) : List Line :=
  (c.spilledIds.filterMap c.find?).filter fun l => (c.interrupt l).spilled && p l

def firstSpilled? (c : Core) (p : Line → Bool) : Option Line :=
  let rank (l : Line) : Rank := ⟨(c.interrupt l).priority.toNat, l.id⟩
  firstBest (fun l m => (rank l).before (rank m)) (c.spilledLines p)

end Core
end VirtualGic
