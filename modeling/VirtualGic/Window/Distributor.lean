import VirtualGic.Core.Injection
import VirtualGic.Register.Banked
/-!
# The distributor window

What an access to the distributor reaches, and what loads and stores do there.  A
load never changes anything; an access that reaches nothing is refused.
-/
namespace VirtualGic.Distributor

/-! ## Constants -/

/-- Affinity routing, always on under version 3. -/
def affinityRouting : BitVec 32 := 0x10

def implementer : BitVec 32 := 0x43B

/-- The type register: blocks of 32 interrupts, counted in 32 bits, less one in bits 4 to 0, vCPUs
less one in bits 7 to 5 and, under version 3, interrupt number bits less one in bits 23 to 19. -/
def typeWord (version : GicVersion) (interrupts vcpus : Nat) : BitVec 32 :=
  let numberBits : BitVec 5 := match version with
    | .v2 => 0
    | .v3 => 9
  0#8 ++ numberBits ++ 0#11 ++ BitVec.ofNat 3 (vcpus - 1) ++
    BitVec.ofNat 5 ((interrupts + 31) / 32 % 0x100000000 - 1)

/-- The identification registers, by their place in the last 4 KiB of a window. -/
def identification (version : GicVersion) (offset : Nat) : BitVec 32 :=
  match offset % 0x1000 with
  | 0xFE8 => match version with
    | .v2 => 0x20
    | .v3 => 0x30
  | 0xFF0 => 0x0D
  | 0xFF4 => 0xF0
  | 0xFF8 => 0x05
  | 0xFFC => 0xB1
  | _ => 0

/-! ## What an access reaches -/

inductive Place where
  | control
  | type
  | implementer
  /-- Reads as zero and ignores writes. -/
  | zero
  | identification (offset : Nat)
  | softwareInterrupt
  /-- The route of a shared interrupt: all of it, its lower or its upper word. -/
  | route (id : Nat) (part : Option Bool)
  | fields (kind : RegisterGroup) (bits : Nat) (lines : List Line)
deriving DecidableEq, Repr

def miscPlace (offset : Nat) : Place :=
  match offset with
  | 0 => .control
  | 4 => .type
  | 8 => .implementer
  | _ => .zero

/-- A route register is reached as a doubleword or as two words. -/
def routePlace? (vm : Vm) (offset width : Nat) : Option Place :=
  let id := (offset - 0x6000) / 8
  if vm.interruptCount ≤ id then none
  else if isPrivateId id then some .zero
  else some (.route id (if width == 8 then none else some (offset % 8 ≥ 4)))

def fieldsPlace? (c : Core) (b : RegisterBlock) (offset width : Nat) (frame? : Option Nat) :
    Option Place :=
  (c.vm.coveredLines? c.vcpu b offset width frame?).map (.fields b.group b.fieldBits ·)

/-- What an access within a block reaches. -/
def blockPlace? (c : Core) (b : RegisterBlock) (offset width : Nat) : Option Place :=
  match b.group, c.vm.version with
  | .misc, _ => some (miscPlace offset)
  | .identification, _ => some (.identification offset)
  | .softwareInterrupt, .v2 => some .softwareInterrupt
  | .route, .v3 => routePlace? c.vm offset width
  | .targets, .v2 | .clearRequesters, .v2 | .setRequesters, .v2 =>
    fieldsPlace? c b offset width none
  | .softwareInterrupt, .v3 | .route, .v2 | .targets, .v3 | .clearRequesters, .v3
  | .setRequesters, .v3 | .groupModifier, _ | .nonSecureAccess, _ => some .zero
  | _, _ => fieldsPlace? c b offset width none

/-- What an access to the distributor of the running VM reaches.  Under version 2 the
identification registers end the first 4 KiB. -/
def place? (c : Core) (addr : BitVec 64) (width : Nat) : Option Place :=
  let offset := (addr - c.vm.partition.distributor).toNat
  if distributorSize ≤ offset then none
  else if c.vm.version == .v2 && decide (0xFD0 ≤ offset) && decide (offset < 0x1000) then
    if width == 4 && offset % 4 == 0 then some (.identification offset) else none
  else
    match blockAt? offset with
    | none => none
    | some b => if b.allows addr width then blockPlace? c b offset width else none

/-! ## Loads -/

def controlWord (vm : Vm) : BitVec 32 :=
  vm.groupEnables.setWidth 32 ||| (match vm.version with | .v2 => 0 | .v3 => affinityRouting)

def load (c : Core) : Place → BitVec 64
  | .control => (controlWord c.vm).setWidth 64
  | .type => (typeWord c.vm.version c.vm.interruptCount c.vm.vcpuCount).setWidth 64
  | .implementer => implementer.setWidth 64
  | .zero => 0
  | .identification offset => (identification c.vm.version offset).setWidth 64
  | .softwareInterrupt => 0
  | .route id part =>
    let route := (c.interrupt (.shared id)).route
    match part with
    | none => route
    | some false => lowBits 32 route
    | some true => route >>> 32
  | .fields g bits ls => c.readFields g bits ls

/-! ## Stores -/

/-- Set the group enable bits; when the distributor goes on or off, this core and every other
core of the VM follow. -/
def storeControl (c : Core) (v : BitVec 64) : Core :=
  let before := c.vm.enabled
  let c := { c with vm := { c.vm with groupEnables := v.setWidth 2 } }
  if c.vm.enabled == before then c
  else c.syncEnabled.broadcast .syncEnable (c.payload c.vcpu 0)

/-- The vCPUs that a software interrupt request names: a list, all others, or itself. -/
def softwareTargets (vm : Vm) (me : Nat) (v : BitVec 64) : CpuSet :=
  let filter := (v >>> 24).setWidth 2
  (if filter == 0 then lowBits 8 (v >>> 16)
    else if filter == 1 then vm.vcpuSet.erase me
    else if filter == 2 then CpuSet.single me
    else 0) &&& vm.vcpuSet

/-- A route with one of its words replaced, or all of it. -/
def mergeRoute (route v : BitVec 64) : Option Bool → BitVec 64
  | none => v
  | some false => (route >>> 32 <<< 32) ||| lowBits 32 v
  | some true => (v <<< 32) ||| lowBits 32 route

def store (c : Core) (v : BitVec 64) : Place → Core
  | .control => storeControl c v
  | .type | .implementer | .zero | .identification _ => c
  | .softwareInterrupt => c.send (v.setWidth 4).toNat (softwareTargets c.vm c.vcpu v)
  | .route id part =>
    c.writeField .route (.shared id) (mergeRoute (c.interrupt (.shared id)).route v part)
  | .fields g bits ls => Core.writeFields g bits ls v c

end VirtualGic.Distributor
