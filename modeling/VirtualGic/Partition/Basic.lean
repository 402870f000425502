import VirtualGic.Platform
/-!
# Partitions

The static table of one VM: the physical CPU of each vCPU, the size and place of
its virtual interrupt controller, and the physical interrupts passed through to it.
-/
namespace VirtualGic

structure Partition where
  id : Nat
  version : GicVersion
  interrupts : Nat
  distributor : BitVec 64
  redistributor : BitVec 64
  /-- The physical CPU of each vCPU, by vCPU number. -/
  cpus : List Nat
  /-- The physical interrupts passed through. -/
  passthrough : List Nat
deriving DecidableEq, Repr

namespace Partition

def defaultRedistributor : GicVersion → BitVec 64
  | .v2 => 0
  | .v3 => redistributorBase

/-- A table with the usual bases. -/
def standard (version : GicVersion) (id interrupts : Nat) (cpus passthrough : List Nat) :
    Partition where
  id := id
  version := version
  interrupts := interrupts
  distributor := distributorBase
  redistributor := defaultRedistributor version
  cpus := cpus
  passthrough := passthrough

end Partition
end VirtualGic
