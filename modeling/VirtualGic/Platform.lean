/-!
# The board

Hard limits of the machine, the default addresses of its devices, and the
record of what was found out about a particular board.
-/
namespace VirtualGic

inductive GicVersion where
  | v2
  | v3
deriving DecidableEq, Repr

/-! ## Limits -/

/-- Physical CPUs that can be partitioned. -/
def maxCpus : Nat := 8

/-- Interrupt numbers from here on are special and name no line. -/
def maxInterrupts : Nat := 1020

/-- Interrupts below this number are banked, one copy per vCPU. -/
def privateInterrupts : Nat := 32

/-- Interrupts below this number are generated by software. -/
def softwareInterrupts : Nat := 16

def maxListRegisters : Nat := 64

/-- The largest VM number that fits in a message. -/
def maxVmId : Nat := 255

/-- The physical software generated interrupt that tells a CPU it has a message. -/
def doorbellInterrupt : Nat := 1

def ringDepth : Nat := 64

def isPrivateId (id : Nat) : Bool := id < privateInterrupts

def isSoftwareId (id : Nat) : Bool := id < softwareInterrupts

/-! ## Addresses -/

def uartBase : BitVec 64 := 0x9000000

def distributorBase : BitVec 64 := 0x8000000

def distributorSize : Nat := 0x10000

def redistributorBase : BitVec 64 := 0x80A0000

/-- One redistributor has two frames of 64 KiB. -/
def redistributorStride : Nat := 0x20000

structure PlatformInfo where
  uart : BitVec 64
  version : GicVersion
  distributor : BitVec 64
  redistributor : BitVec 64
  /-- Size of the whole redistributor region, zero when unknown. -/
  redistributorSize : BitVec 64
  cpus : Nat
deriving DecidableEq, Repr

/-- The virtual machine board that is assumed until a device tree says otherwise. -/
def PlatformInfo.default : PlatformInfo where
  uart := uartBase
  version := .v3
  distributor := distributorBase
  redistributor := redistributorBase
  redistributorSize := 0
  cpus := 4

end VirtualGic
