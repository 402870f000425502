import VirtualGic.Machine.Step
import VirtualGic.Proofs.Deed
/-!
# What an action does on purpose

The deeds of an action, and of a message, can be read off it and the core at its start.
-/
namespace VirtualGic

/-! ## What is asked for -/

/-- A field write that is asked for. -/
structure FieldWrite where
  group : RegisterGroup
  line : Line
  value : BitVec 64
deriving DecidableEq, Repr

/-- The field writes of one word, in order.  Zeros that change nothing are passed over. -/
def fieldWrites (g : RegisterGroup) (bits : Nat) : List Line → BitVec 64 → List FieldWrite
  | [], _ => []
  | l :: rest, v =>
    (if lowBits bits v == 0 && g.ignoresZero then [] else [⟨g, l, lowBits bits v⟩]) ++
      fieldWrites g bits rest (v >>> bits)

namespace Core

/-- What a core does about a field write: it carries it out or sends it on. -/
def deedOf (c : Core) (w : FieldWrite) : Deed :=
  if c.mayClaim w.line then .write w.group w.line w.value else .forward w.group w.line w.value

/-- A software interrupt of the running vCPU is raised by a field write. -/
def raiseWrites (c : Core) (id requester : Nat) : List FieldWrite :=
  match c.find? id with
  | none => []
  | some l =>
    if c.vm.countsRequesters l then [⟨.setRequesters, l, CpuSet.single requester⟩] else [⟨.setPending, l, 1⟩]

/-- The field writes of a software interrupt that is sent to a set of vCPUs. -/
def sendWrites (c : Core) (id : Nat) (vcpus : CpuSet) : List FieldWrite :=
  if c.vcpu ∈ c.vm.vcpuIds.filter vcpus.getLsbD then c.raiseWrites id c.vcpu else []

/-- The field writes of a store to a window. -/
def windowWrites (c : Core) (w : Window) (addr : BitVec 64) (width : Nat) (v : BitVec 64) : List FieldWrite :=
  match w with
  | .distributor _ =>
    match Distributor.place? c addr width with
    | some (.softwareInterrupt) => c.sendWrites (v.setWidth 4).toNat (Distributor.softwareTargets c.vm c.vcpu v)
    | some (.route id part) =>
      [⟨.route, .shared id, Distributor.mergeRoute (c.interrupt (.shared id)).route v part⟩]
    | some (.fields g bits ls) => fieldWrites g bits ls v
    | _ => []
  | .redistributors _ _ =>
    match Redistributor.place? c addr width with
    | some (.fields g bits ls) => fieldWrites g bits ls v
    | _ => []

def accessWrites (c : Core) (a : Access) (f : RegisterFile) : List FieldWrite :=
  if a.write then
    match c.vm.addressMap.find? (·.contains a.addr) with
    | some w => c.windowWrites w a.addr a.width (a.stored f)
    | none => []
  else []

def systemWrites (c : Core) (a : SystemAccess) (f : RegisterFile) : List FieldWrite :=
  if a.read then []
  else if a.target = .softwareInterrupt then
    c.sendWrites ((f.get a.register).extractLsb' 24 4).toNat
      (SystemRegister.softwareTargets (f.get a.register) c.vcpu c.vm.vcpuSet)
  else []

/-! ## Deeds -/

def injectDeeds (c : Core) (id : Nat) : List Deed :=
  match c.find? id with
  | none => []
  | some l =>
    if (c.interrupt l).hardware then if c.mayClaim l then [.raise l] else []
    else if l.isSoftware then (c.raiseWrites id c.vcpu).map c.deedOf
    else [c.deedOf ⟨.setPending, l, 1⟩]

/-- The interrupts that a number of completions without a list register deactivate. -/
def deactivated : Nat → Core → List Line
  | 0, _ => []
  | k + 1, c =>
    (c.firstSpilled? fun l => (c.interrupt l).state.active && c.mayClaim l).toList ++ deactivated k c.deactivateSpilled

/-- The deeds of maintenance: deactivations, once the completed list registers are retired. -/
def maintenanceDeeds (c : Core) : List Deed :=
  let d := if c.interface.status.completed then c.retireCompleted else c
  if c.interface.status.unmatched then
    (deactivated d.interface.control.completions.toNat (d.modifyControl ({ · with completions := 0 }))).map .deactivate
  else []

def acknowledgeDeeds (c : Core) : List Deed :=
  if c.interface.control.enabled then
    match c.interface.nextSlot? with
    | some n => (c.find? (c.interface.read n).intid.toNat).toList.map .acknowledge
    | none => []
  else []

def completeDeeds (c : Core) (number : BitVec 32) : List Deed :=
  match c.interface.slots.find? fun n =>
      (c.interface.read n).number == number && (c.interface.read n).state.active with
  | some n => (c.find? (c.interface.read n).intid.toNat).toList.map .complete
  | none => []

/-- The deeds of an action other than handling messages. -/
def deeds (c : Core) : Action → List Deed
  | .access a f => (c.accessWrites a f).map c.deedOf
  | .accessSystem a f => (c.systemWrites a f).map c.deedOf
  | .inject id => c.injectDeeds id
  | .maintain => c.maintenanceDeeds
  | .poll => []
  | .acknowledge => c.acknowledgeDeeds
  | .complete number => c.completeDeeds number

def requestDeeds (c : Core) (r : Request) (p : Payload) : List Deed :=
  match r with
  | .syncEnable | .route => []
  | .inject =>
    if isSoftwareId p.intid.toNat then (c.raiseWrites p.intid.toNat p.value.toNat).map c.deedOf
    else c.injectDeeds p.intid.toNat
  | .writeField =>
    match RegisterGroup.ofCode? p.group.toNat, c.vm.find? p.bank.toNat p.intid.toNat with
    | some g, some l => [c.deedOf ⟨g, l, p.value.setWidth 64⟩]
    | _, _ => []

def messageDeeds (c : Core) (m : Message) : List Deed :=
  if (Payload.ofWord m.data).vm.toNat == c.vm.id then
    match Request.ofCode? m.event with
    | some r => c.requestDeeds r (Payload.ofWord m.data)
    | none => []
  else []

end Core
end VirtualGic
