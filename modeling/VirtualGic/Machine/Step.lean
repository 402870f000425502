import VirtualGic.Core.Maintenance
import VirtualGic.Core.Messages
import VirtualGic.Core.SystemRegisters
import VirtualGic.Machine.Basic
import VirtualGic.Window.Map
/-!
# Steps

What can happen on a CPU, and the states that a machine can reach from its start by
any sequence of such steps.
-/
namespace VirtualGic

inductive Action where
  /-- A trapped guest load or store. -/
  | access (a : Access) (f : RegisterFile)
  /-- A trapped guest access to a system register. -/
  | accessSystem (a : SystemAccess) (f : RegisterFile)
  | inject (id : Nat)
  | maintain
  | poll
  | acknowledge
  | complete (number : BitVec 32)

namespace Core

def act (c : Core) : Action → Core
  | .access a f => (c.access a f).2.2
  | .accessSystem a f => (c.accessSystem a f).2.2
  | .inject id => c.inject id
  | .maintain => c.maintain
  | .poll => c.poll.2
  | .acknowledge => { c with interface := c.interface.acknowledge.2 }
  | .complete number => { c with interface := c.interface.complete number }

end Core

structure Event where
  cpu : Nat
  action : Action

namespace Machine

def step (m : Machine) (e : Event) : Machine := m.onCore e.cpu (·.act e.action)

def run (m : Machine) (es : List Event) : Machine := es.foldl step m

/-- The states of a machine that runs the VMs of checked tables. -/
inductive Reachable : Machine → Prop
  | boot {cpus : Nat} {sizes : List Nat} {doorbell : Bool} {ps : List Partition} {m : Machine} :
    Machine.boot cpus sizes doorbell ps = .ok m → Reachable m
  | step {m : Machine} (e : Event) : Reachable m → Reachable (m.step e)

/-- A CPU handles its oldest message.  Nothing where none waits or the CPU runs no vCPU. -/
def handleNext? (m : Machine) (cpu : Nat) : Option Machine :=
  (m.core? cpu).bind fun (index, c) => c.handleNext?.map (m.putCore index ·)

/-- One round of polling over the CPUs that run a vCPU, in ascending order: the messages handled
and the machine afterwards. -/
def pollRound (m : Machine) : Nat × Machine :=
  m.attached.foldl (fun (handled, m) cpu =>
    match m.core? cpu with
    | none => (handled, m)
    | some (index, c) =>
      let (n, c) := c.poll
      (handled + n, m.putCore index c)) (0, m)

end Machine
end VirtualGic
