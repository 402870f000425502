import VirtualGic.Partition.Validation
import VirtualGic.PhysicalGic
import VirtualGic.Vm.Routing
/-!
# Building a VM

A VM starts from a table without faults whose CPUs all have an inbox.  Building it
takes over its passthrough interrupts, which writes their physical delivery.
-/
namespace VirtualGic

/-- A vCPU at reset: its redistributor sleeps. -/
def Vcpu.reset (version : GicVersion) (vcpu pcpu : Nat) : Vcpu where
  bank := .generate privateInterrupts (.banked version vcpu pcpu) (.banked version vcpu pcpu 0)
  spilled := []
  asleep := true
  occupants := .constant maxListRegisters none

namespace Vm

/-- The VM of a table, all interrupts at reset. -/
def reset (p : Partition) : Vm where
  partition := p
  groupEnables := 0
  shared := .constant p.interrupts
    (.shared (match p.cpus with | [] => .nowhere | cpu :: _ => .cpu cpu))
  spilled := []
  vcpus := .generate p.cpus.length (fun v => .reset p.version v (p.cpus.getD v 0))
    (.reset p.version 0 0)

/-- Back a shared interrupt by the physical line of its number. -/
def passThrough (vm : Vm) (g : PhysicalGic) (id : Nat) : Except ConfigError Vm × PhysicalGic :=
  if privateInterrupts ≤ id ∧ id < vm.interruptCount then
    let s := { vm.interrupt (.shared id) with hardware := true }
    let s := { s with delivery := vm.delivery (.shared id) s }
    (.ok (vm.setInterrupt (.shared id) s), g.setDelivery id s.delivery)
  else (.error (.invalidPassthrough vm.id id), g)

/-- Take over several physical lines in order, up to the first that cannot be. -/
def passThroughAll : List Nat → Vm → PhysicalGic → Except ConfigError Vm × PhysicalGic
  | [], vm, g => (.ok vm, g)
  | id :: rest, vm, g =>
    match vm.passThrough g id with
    | (.ok vm, g) => passThroughAll rest vm g
    | (.error e, g) => (.error e, g)

/-- Build the VM of a table on a board whose CPUs below `cpus` have an inbox. -/
def create (p : Partition) (cpus : Nat) (g : PhysicalGic) : Except ConfigError Vm × PhysicalGic :=
  match p.fault? with
  | some e => (.error e, g)
  | none =>
    match p.cpus.find? (fun cpu => decide (cpus ≤ cpu)) with
    | some cpu => (.error (.invalidCpu p.id cpu), g)
    | none => passThroughAll p.passthrough (reset p) g

end Vm
end VirtualGic
