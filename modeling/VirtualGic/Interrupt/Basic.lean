import VirtualGic.Bits
import VirtualGic.Platform
import VirtualGic.Interrupt.State
/-!
# Interrupt records

A `Line` names one interrupt of a VM: a shared one, or one of the banked
interrupts of a vCPU.  An `Interrupt` is everything that can change about it.
-/
namespace VirtualGic

inductive Line where
  | shared (id : Nat)
  | banked (vcpu id : Nat)
deriving DecidableEq, Repr

namespace Line

def id : Line → Nat
  | shared id => id
  | banked _ id => id

/-- The vCPU whose bank holds the interrupt. -/
def home? : Line → Option Nat
  | shared _ => none
  | banked vcpu _ => some vcpu

def isBanked (l : Line) : Bool := l.home?.isSome

def isSoftware (l : Line) : Bool := isSoftwareId l.id

end Line

/-- Where the physical distributor takes an interrupt. -/
inductive Delivery where
  | cpu (n : Nat)
  | mask (cpus : CpuSet)
  /-- Any one CPU that takes part. -/
  | any
  | nowhere
deriving DecidableEq, Repr

structure Interrupt where
  /-- The vCPU that may hold the interrupt in its list registers. -/
  owner : Option Nat
  /-- The state while no list register holds the interrupt. -/
  state : Interrupt.State
  enabled : Bool
  priority : BitVec 8
  config : BitVec 8
  group1 : Bool
  /-- The vCPUs that it targets under version 2. -/
  targets : BitVec 8
  /-- The affinity that it is routed to under version 3. -/
  route : BitVec 64
  /-- The physical counterpart of `targets` or `route`. -/
  delivery : Delivery
  /-- Whether the physical line of the same number stands behind it. -/
  hardware : Bool
  /-- Whether a list register of the owner holds it. -/
  resident : Bool
  /-- The list register that holds it, or held it last. -/
  slot : Nat
  /-- Whether it waits on a spill list. -/
  spilled : Bool
  /-- The vCPUs whose request for a version 2 software interrupt waits. -/
  requesters : BitVec 8
  /-- The vCPU that requested the active instance. -/
  activeRequester : BitVec 8
deriving DecidableEq, Repr

namespace Interrupt

def priorityMask : BitVec 8 := 0xF8

def edgeTriggered : BitVec 8 := 0b10

/-- The routing mode bit and the three low affinity bytes are implemented. -/
def routeMask : BitVec 64 := 0x80FFFFFF

/-- Routing mode: any vCPU may take the interrupt. -/
def routeAny : BitVec 64 := 0x80000000

/-- A shared interrupt at reset targets vCPU 0. -/
def shared (delivery : Delivery) : Interrupt where
  owner := none
  state := .idle
  enabled := false
  priority := 0
  config := 0
  group1 := false
  targets := 1
  route := 0
  delivery := delivery
  hardware := false
  resident := false
  slot := 0
  spilled := false
  requesters := 0
  activeRequester := 0

/-- A banked interrupt at reset belongs to its vCPU.  Software interrupts are edge
triggered and, under version 2, always enabled. -/
def banked (version : GicVersion) (vcpu pcpu id : Nat) : Interrupt where
  owner := some vcpu
  state := .idle
  enabled := isSoftwareId id && version == .v2
  priority := 0
  config := if isSoftwareId id then edgeTriggered else 0
  group1 := false
  targets := BitVec.twoPow 8 vcpu
  route := BitVec.ofNat 64 vcpu
  delivery := .cpu pcpu
  hardware := false
  resident := false
  slot := 0
  spilled := false
  requesters := 0
  activeRequester := 0

/-- Version 2 keeps one pending bit per requester of a software interrupt. -/
def countsRequesters (version : GicVersion) (l : Line) : Bool := version == .v2 && l.isSoftware

end Interrupt
end VirtualGic
