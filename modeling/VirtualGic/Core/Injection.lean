import VirtualGic.Core.FieldAccess
/-!
# Injecting interrupts

Interrupts come from the physical distributor, from device models and, as software
interrupts, from the guest itself.
-/
namespace VirtualGic.Core

/-- Make a software interrupt of the running vCPU pending at the request of a vCPU. -/
def raise (c : Core) (id requester : Nat) : Core :=
  match c.find? id with
  | none => c
  | some l =>
    if c.vm.countsRequesters l then c.writeField .setRequesters l (CpuSet.single requester)
    else c.writeField .setPending l 1

/-- A hardware interrupt that fires was deactivated before, so a list register that still names it
is finished. -/
def injectHardware (c : Core) (l : Line) : Core :=
  if c.mayClaim l then
    let c := (c.claim l).withdraw l
    let c := c.update l fun s => { s with state := { s.state with pending := true } }
    (c.deliver l).release l
  else c.forward l .inject id

/-- Make an interrupt pending for the running vCPU and present it. -/
def inject (c : Core) (id : Nat) : Core :=
  match c.find? id with
  | none => c
  | some l =>
    if (c.interrupt l).hardware then c.injectHardware l
    else if l.isSoftware then c.raise id c.vcpu
    else c.writeField .setPending l 1

/-- Raise a software interrupt on one vCPU at the request of the running one. -/
def sendTo (c : Core) (id vcpu : Nat) : Core :=
  if vcpu == c.vcpu then c.raise id c.vcpu
  else
    match c.vm.pcpuOf? vcpu with
    | none => c
    | some target =>
      c.post target .inject { c.payload vcpu id with value := BitVec.ofNat 32 c.vcpu }

def send (c : Core) (id : Nat) (vcpus : CpuSet) : Core :=
  (c.vm.vcpuIds.filter vcpus.getLsbD).foldl (·.sendTo id ·) c

end VirtualGic.Core
