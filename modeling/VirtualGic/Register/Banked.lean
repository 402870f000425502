import VirtualGic.Core.FieldAccess
/-!
# Banked registers

An access to a banked register covers the fields of consecutive interrupts, the
lowest bits belonging to the first.  Fields past the last interrupt read as zero and
ignore writes.
-/
namespace VirtualGic

namespace Vm

/-- The interrupts numbered from `id` on, as a vCPU sees them, up to the first that does not
exist. -/
def linesFrom (vm : Vm) (vcpu : Nat) : Nat → Nat → List Line
  | _, 0 => []
  | id, count + 1 =>
    match vm.find? vcpu id with
    | none => []
    | some l => l :: linesFrom vm vcpu (id + 1) count

/-- The interrupts whose fields an access covers, none where the register reads as zero: under
version 3 the banked interrupts are served by the redistributors only, and nothing else is.
An access whose first interrupt is not implemented is refused.  Interrupts are numbered in 32 bits.
`frame?` is the vCPU of the redistributor that is accessed. -/
def coveredLines? (vm : Vm) (vcpu : Nat) (b : RegisterBlock) (offset width : Nat)
    (frame? : Option Nat) : Option (List Line) :=
  let first := (offset - b.base) * 8 / b.fieldBits % 0x100000000
  if vm.version == .v3 && frame?.isSome != isPrivateId first then some []
  else if vm.interruptCount ≤ first then none
  else some (vm.linesFrom (frame?.getD vcpu) first (width * 8 / b.fieldBits))

end Vm

namespace Core

def readFields (c : Core) (g : RegisterGroup) (bits : Nat) : List Line → BitVec 64
  | [] => 0
  | l :: rest => lowBits bits (c.readField g l) ||| (c.readFields g bits rest <<< bits)

/-- Write the fields of several interrupts from one word, the first interrupt first. -/
def writeFields (g : RegisterGroup) (bits : Nat) : List Line → BitVec 64 → Core → Core
  | [], _, c => c
  | l :: rest, v, c =>
    let field := lowBits bits v
    writeFields g bits rest (v >>> bits)
      (if field == 0 && g.ignoresZero then c else c.writeField g l field)

def loadBlock? (c : Core) (b : RegisterBlock) (offset width : Nat) (frame? : Option Nat) :
    Option (BitVec 64) :=
  (c.vm.coveredLines? c.vcpu b offset width frame?).map (c.readFields b.group b.fieldBits)

def storeBlock? (c : Core) (b : RegisterBlock) (offset width : Nat) (frame? : Option Nat)
    (v : BitVec 64) : Option Core :=
  (c.vm.coveredLines? c.vcpu b offset width frame?).map fun ls =>
    writeFields b.group b.fieldBits ls v c

end Core
end VirtualGic
