import VirtualGic.Window.Distributor
/-!
# The redistributor windows

Under version 3 each vCPU has a redistributor of two frames.  The first holds its own
registers, the second the banked registers of its private interrupts.  Any vCPU may
access any redistributor; the frame decides whose bank is meant.
-/
namespace VirtualGic.Redistributor

def frameSize : Nat := 0x10000

/-- The type register: the vCPU as affinity in bits 39 to 32 and as number in bits 23 to 8, and
bit 4 set for the last one. -/
def typeWord (vcpu vcpus : Nat) : BitVec 64 :=
  (BitVec.ofNat 64 vcpu <<< 32) ||| (BitVec.ofNat 64 vcpu <<< 8) |||
    (if vcpu + 1 == vcpus then 0x10 else 0)

/-- The wake register: while the redistributor sleeps, so do its children. -/
def wakeWord (asleep : Bool) : BitVec 32 := if asleep then 6 else 0

inductive Place where
  | implementer
  /-- The type register of a vCPU: all of it, its lower or its upper word. -/
  | type (vcpu : Nat) (part : Option Bool)
  | wake (vcpu : Nat)
  | identification (offset : Nat)
  /-- Reads as zero and ignores writes. -/
  | zero
  | fields (kind : RegisterGroup) (bits : Nat) (lines : List Line)
deriving DecidableEq, Repr

/-- What an access to the first frame reaches: aligned words and one doubleword. -/
def controlPlace? (vcpu offset width : Nat) : Option Place :=
  let whole := offset == 8 && width == 8
  if (width == 4 || whole) && offset % width == 0 then
    if 0xFFD0 ≤ offset then some (.identification offset)
    else
      match offset with
      | 4 => some .implementer
      | 8 => some (.type vcpu (if whole then none else some false))
      | 0xC => some (.type vcpu (some true))
      | 0x14 => some (.wake vcpu)
      | _ => some .zero
  else none

def serves : RegisterGroup → Bool
  | .group | .setEnable | .clearEnable | .setPending | .clearPending | .setActive | .clearActive
  | .priority | .config => true
  | _ => false

/-- What an access to the second frame reaches. -/
def bankPlace? (c : Core) (vcpu : Nat) (addr : BitVec 64) (offset width : Nat) : Option Place :=
  match blockAt? offset with
  | none => some .zero
  | some b =>
    if b.allows addr width then
      if serves b.group then
        (c.vm.coveredLines? c.vcpu b offset width (some vcpu)).map
          (.fields b.group b.fieldBits ·)
      else some .zero
    else none

/-- What an access to the redistributors of the running VM reaches. -/
def place? (c : Core) (addr : BitVec 64) (width : Nat) : Option Place :=
  if c.vm.version == .v3 then
    let offset := (addr - c.vm.partition.redistributor).toNat
    let vcpu := offset / redistributorStride
    let inner := offset % redistributorStride
    if vcpu < c.vm.vcpuCount then
      if inner < frameSize then controlPlace? vcpu inner width
      else bankPlace? c vcpu addr (inner - frameSize) width
    else none
  else none

def load (c : Core) : Place → BitVec 64
  | .implementer => Distributor.implementer.setWidth 64
  | .type vcpu part =>
    let word := typeWord vcpu c.vm.vcpuCount
    match part with
    | none => word
    | some false => lowBits 32 word
    | some true => word >>> 32
  | .wake vcpu => (wakeWord (c.vm.vcpus.get vcpu).asleep).setWidth 64
  | .identification offset => (Distributor.identification .v3 offset).setWidth 64
  | .zero => 0
  | .fields g bits ls => c.readFields g bits ls

/-- Only the sleep bit of the wake register and the banked fields can be written. -/
def store (c : Core) (v : BitVec 64) : Place → Core
  | .wake vcpu => { c with vm := c.vm.setAsleep vcpu (v.getLsbD 1) }
  | .fields g bits ls => Core.writeFields g bits ls v c
  | .implementer | .type _ _ | .identification _ | .zero => c

end VirtualGic.Redistributor
