import VirtualGic.Core.Injection
/-!
# Handling messages

What a core does with the messages in its inbox.  A message for another VM, of an
unknown kind, or about an interrupt that does not exist is dropped.
-/
namespace VirtualGic.Core

/-- Present an interrupt that another core offers, if it is free and still targets this vCPU. -/
def accept (c : Core) (l : Line) : Core :=
  if c.mayClaim l then
    let c := c.claim l
    let s := c.interrupt l
    let c := if !s.resident && !s.state.isIdle && c.isTarget l then (c.place l).1 else c
    c.release l
  else c

def handleRequest (c : Core) (r : Request) (p : Payload) : Core :=
  let line? := c.vm.find? p.bank.toNat p.intid.toNat
  match r with
  | .syncEnable => c.syncEnabled
  | .route =>
    match line? with
    | some l => c.accept l
    | none => c
  | .inject =>
    if isSoftwareId p.intid.toNat then c.raise p.intid.toNat p.value.toNat
    else c.inject p.intid.toNat
  | .writeField =>
    match RegisterGroup.ofCode? p.group.toNat, line? with
    | some g, some l => c.writeField g l (p.value.setWidth 64)
    | _, _ => c

def handle (c : Core) (m : Message) : Core :=
  let p := Payload.ofWord m.data
  if p.vm.toNat == c.vm.id then
    match Request.ofCode? m.event with
    | some r => c.handleRequest r p
    | none => c
  else c

/-- Take the oldest message and handle it. -/
def handleNext? (c : Core) : Option Core :=
  (c.bus.take c.cpu).map fun (m, bus) => { c with bus := bus }.handle m

/-- Handle up to `n` messages; the number handled and the core afterwards. -/
def handleUpTo : Nat → Core → Nat × Core
  | 0, c => (0, c)
  | n + 1, c =>
    match c.handleNext? with
    | none => (0, c)
    | some c =>
      let (handled, c) := handleUpTo n c
      (handled + 1, c)

/-- Handle the waiting messages.  No core posts to itself, so the messages that wait at the start
are all there are. -/
def poll (c : Core) : Nat × Core := handleUpTo (c.bus.pending c.cpu) c

end VirtualGic.Core
