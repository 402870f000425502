import VirtualGic.Interrupt.Basic
import VirtualGic.Table
/-!
# The physical distributor

What has been written to the physical distributor: the settings of each line,
every write that enabled or disabled one, and the software generated interrupts
sent to other CPUs.  Settings of a line that does not exist are dropped.
-/
namespace VirtualGic

structure PhysicalLine where
  enabled : Bool
  priority : BitVec 8
  config : BitVec 8
  pending : Bool
  active : Bool
  delivery : Delivery
deriving DecidableEq, Repr

def PhysicalLine.reset : PhysicalLine := ⟨false, 0, 0, false, false, .nowhere⟩

structure PhysicalGic where
  lines : Table PhysicalLine
  /-- Each write that enabled or disabled a line, oldest first. -/
  enables : Array (Nat × Bool)
  /-- Target CPU and number of each interrupt sent, oldest first. -/
  sent : Array (Nat × Nat)

namespace PhysicalGic

def reset : PhysicalGic := ⟨.constant maxInterrupts .reset, #[], #[]⟩

def line? (g : PhysicalGic) (id : Nat) : Option PhysicalLine :=
  if id < maxInterrupts then some (g.lines.get id) else none

def modifyLine (g : PhysicalGic) (id : Nat) (f : PhysicalLine → PhysicalLine) : PhysicalGic :=
  if id < maxInterrupts then { g with lines := g.lines.modify id f } else g

def setEnabled (g : PhysicalGic) (id : Nat) (on : Bool) : PhysicalGic :=
  { g.modifyLine id ({ · with enabled := on }) with enables := g.enables.push (id, on) }

def setPriority (g : PhysicalGic) (id : Nat) (priority : BitVec 8) : PhysicalGic :=
  g.modifyLine id ({ · with priority := priority })

def setConfig (g : PhysicalGic) (id : Nat) (config : BitVec 8) : PhysicalGic :=
  g.modifyLine id ({ · with config := config })

def setPending (g : PhysicalGic) (id : Nat) (on : Bool) : PhysicalGic :=
  g.modifyLine id ({ · with pending := on })

def setActive (g : PhysicalGic) (id : Nat) (on : Bool) : PhysicalGic :=
  g.modifyLine id ({ · with active := on })

def setDelivery (g : PhysicalGic) (id : Nat) (delivery : Delivery) : PhysicalGic :=
  g.modifyLine id ({ · with delivery := delivery })

def send (g : PhysicalGic) (cpu id : Nat) : PhysicalGic :=
  { g with sent := g.sent.push (cpu, id) }

@[simp] theorem line?_modifyLine (g : PhysicalGic) (i j : Nat) (f : PhysicalLine → PhysicalLine) :
    (g.modifyLine i f).line? j = if i = j then (g.line? j).map f else g.line? j := by
  unfold modifyLine line?
  by_cases h : i < maxInterrupts
  · by_cases e : i = j
    · subst e; simp [h]
    · simp [h, e]
  · by_cases e : i = j
    · subst e; simp [h]
    · simp [h, e]

end PhysicalGic
end VirtualGic
