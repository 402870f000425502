import VirtualGic.Core.Presentation
import VirtualGic.Register.Field
/-!
# Reading and writing register fields

A field is read from the record or, where the interrupt's state is concerned, from the
list register of this core that holds it.  A write takes the interrupt out of its list
register, changes the record and delivers it again; where another vCPU owns the
interrupt, the write is sent to that vCPU's core.
-/
namespace VirtualGic.Core

def bitWord (b : Bool) : BitVec 64 := (BitVec.ofBool b).setWidth 64

def readField (c : Core) (g : RegisterGroup) (l : Line) : BitVec 64 :=
  let s := c.interrupt l
  match g with
  | .group => bitWord s.group1
  | .setEnable | .clearEnable => bitWord s.enabled
  | .setPending | .clearPending => bitWord ((c.stateOf l).pending || s.requesters != 0)
  | .setActive | .clearActive => bitWord (c.stateOf l).active
  | .priority => s.priority.setWidth 64
  | .targets =>
    match l.home? with
    | some vcpu => CpuSet.single vcpu
    | none => s.targets.setWidth 64
  | .config => s.config.setWidth 64
  | .route => s.route
  | .setRequesters | .clearRequesters => (c.pendingRequesters l).setWidth 64
  | .misc | .groupModifier | .nonSecureAccess | .softwareInterrupt | .identification => 0

/-- Write an interrupt's field where this vCPU owns the interrupt or has just claimed it. -/
def applyField (c : Core) (g : RegisterGroup) (l : Line) (v : BitVec 64) : Core :=
  let c := (c.claim l).withdraw l
  let before := c.interrupt l
  let after := g.apply c.vm l v before
  let c := c.setInterrupt l after
  let c :=
    if g.differs before after && after.hardware then { c with gic := g.push l after c.gic } else c
  let c := if after.spilled && after.state.isIdle then c.unspill l else c
  (c.deliver l).release l

/-- Send a request about an interrupt to the core of the vCPU that owns it.  The payload names the
bank of the interrupt, or for a shared one the owner. -/
def forward (c : Core) (l : Line) (r : Request) (fill : Payload → Payload) : Core :=
  match (c.interrupt l).owner with
  | none => c
  | some owner =>
    match c.vm.pcpuOf? owner with
    | none => c
    | some target => c.post target r (fill (c.payload (l.home?.getD owner) l.id))

def writeField (c : Core) (g : RegisterGroup) (l : Line) (v : BitVec 64) : Core :=
  if c.mayClaim l then c.applyField g l v
  else
    c.forward l .writeField fun p =>
      { p with group := BitVec.ofNat 6 g.code, value := v.setWidth 32 }

end VirtualGic.Core
