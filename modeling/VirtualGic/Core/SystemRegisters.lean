import VirtualGic.Core.Injection
import VirtualGic.Guest.Syndrome
/-!
# System registers

The two trapped registers of the virtual CPU interface: one generates software
interrupts, the other says that only system registers are used.
-/
namespace VirtualGic

namespace SystemRegister

/-- System registers only, both bypasses disabled. -/
def enableValue : BitVec 64 := 7

/-- The vCPUs that a software interrupt request names.  vCPU `n` has affinity `0.0.0.n`: a request
to all others goes to every other vCPU, a list names 16 consecutive vCPUs from a selected range,
and any other cluster is empty. -/
def softwareTargets (v : BitVec 64) (me : Nat) (vcpus : CpuSet) : CpuSet :=
  if v.getLsbD 40 then vcpus.erase me
  else if v.extractLsb' 16 8 != 0 || v.extractLsb' 32 8 != 0 || v.extractLsb' 48 8 != 0 then 0
  else
    let range := (v.extractLsb' 44 4).toNat
    if range ≤ 3 then (lowBits 16 v <<< (range * 16)) &&& vcpus else 0

end SystemRegister

namespace Core

def readSystem? (r : SystemRegister) : Option (BitVec 64) :=
  if r = .softwareInterrupt then some 0
  else if r = .enable then some SystemRegister.enableValue
  else none

def writeSystem? (c : Core) (r : SystemRegister) (v : BitVec 64) : Option Core :=
  if r = .softwareInterrupt then
    some (c.send (v.extractLsb' 24 4).toNat
      (SystemRegister.softwareTargets v c.vcpu c.vm.vcpuSet))
  else if r = .enable then some c
  else none

def accessSystem (c : Core) (a : SystemAccess) (f : RegisterFile) : Bool × RegisterFile × Core :=
  if a.read then
    match readSystem? a.target with
    | some v => (true, f.set a.register v, c)
    | none => (false, f, c)
  else
    match c.writeSystem? a.target (f.get a.register) with
    | some c => (true, f, c)
    | none => (false, f, c)

end Core
end VirtualGic
