import VirtualGic.Core.Basic
import VirtualGic.Vm.Create
/-!
# The machine

All physical CPUs with their interfaces, the VMs, which vCPU each CPU runs, and what
they share: the message bus and the physical distributor.  A CPU works on its own
`Core`, which is taken out of the machine and put back, so nothing else can change.
-/
namespace VirtualGic

structure Assignment where
  vm : Nat
  vcpu : Nat
deriving DecidableEq, Repr

structure Machine where
  gic : PhysicalGic
  bus : MessageBus
  interfaces : Table CpuInterface
  vms : Array Vm
  assignments : Table (Option Assignment)

namespace Machine

/-! ## Set-up -/

/-- A machine without VMs.  The sizes of the interfaces are repeated over the CPUs. -/
def create (cpus : Nat) (sizes : List Nat) (doorbell : Bool) : Machine where
  gic := .reset
  bus := .create cpus doorbell
  interfaces := .generate cpus (fun cpu => .create (sizes.getD (cpu % sizes.length) 1)) (.create 1)
  vms := #[]
  assignments := .constant cpus none

/-- Build the VM of a table.  When that fails, the machine has no new VM. -/
def addVm (m : Machine) (p : Partition) : Option ConfigError × Machine :=
  match Vm.create p m.bus.cpus m.gic with
  | (.ok vm, gic) => (none, { m with gic := gic, vms := m.vms.push vm })
  | (.error e, gic) => (some e, { m with gic := gic })

/-- The control register of a CPU that starts to run a VM: unmatched completions ask for
maintenance. -/
def startControl (vm : Vm) : Control :=
  { Control.reset with unmatched := true, enabled := vm.enabled }

/-- Let a CPU run the vCPU of a VM that is pinned to it.  Its list registers stay as they are. -/
def attach (m : Machine) (cpu index : Nat) (vm : Vm) : Except ConfigError Machine :=
  match vm.vcpuOn? cpu with
  | none => .error (.notOnCpu vm.id cpu)
  | some vcpu =>
    .ok { m with
      interfaces := m.interfaces.modify cpu ({ · with control := startControl vm })
      assignments := m.assignments.set cpu (some ⟨index, vcpu⟩) }

def attachCpus (index : Nat) (vm : Vm) : List Nat → Machine → Except ConfigError Machine
  | [], m => .ok m
  | cpu :: rest, m =>
    match m.attach cpu index vm with
    | .ok m => attachCpus index vm rest m
    | .error e => .error e

/-- Build the VM of a table and attach its CPUs. -/
def bootVm (m : Machine) (p : Partition) : Except ConfigError Machine :=
  match m.addVm p with
  | (some e, _) => .error e
  | (none, m) =>
    match m.vms.back? with
    | none => .ok m
    | some vm => attachCpus (m.vms.size - 1) vm p.cpus m

def bootAll : List Partition → Machine → Except ConfigError Machine
  | [], m => .ok m
  | p :: rest, m =>
    match m.bootVm p with
    | .ok m => bootAll rest m
    | .error e => .error e

/-- A machine that runs the VMs of a list of tables, which are checked first. -/
def boot (cpus : Nat) (sizes : List Nat) (doorbell : Bool) (ps : List Partition) :
    Except ConfigError Machine :=
  match faultAmong? ps with
  | some e => .error e
  | none => bootAll ps (create cpus sizes doorbell)

/-! ## Cores -/

/-- The core of a CPU that runs a vCPU, and the index of its VM. -/
def core? (m : Machine) (cpu : Nat) : Option (Nat × Core) :=
  match m.assignments.get cpu with
  | none => none
  | some a =>
    match m.vms[a.vm]? with
    | none => none
    | some vm => some (a.vm, ⟨cpu, a.vcpu, vm, m.interfaces.get cpu, m.bus, m.gic⟩)

def putCore (m : Machine) (index : Nat) (c : Core) : Machine :=
  { m with
    gic := c.gic
    bus := c.bus
    interfaces := m.interfaces.set c.cpu c.interface
    vms := m.vms.setIfInBounds index c.vm }

/-- Let a CPU work on its core.  Nothing happens where it runs no vCPU. -/
def onCore (m : Machine) (cpu : Nat) (f : Core → Core) : Machine :=
  match m.core? cpu with
  | none => m
  | some (index, c) => m.putCore index (f c)

/-- The CPUs below `n` that run a vCPU. -/
def attached (m : Machine) : List Nat :=
  (List.range m.bus.cpus).filter fun cpu => (m.assignments.get cpu).isSome

end Machine
end VirtualGic
