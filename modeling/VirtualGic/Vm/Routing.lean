import VirtualGic.Vm.Basic
/-!
# Targets

Which vCPUs an interrupt may be delivered to, and the physical delivery that
matches: a banked interrupt goes to its home; a shared one follows its target set
under version 2 and its affinity under version 3.
-/
namespace VirtualGic.Vm

/-- The vCPU that an affinity names.  vCPU `n` has affinity `0.0.n`, so the two upper bytes must
be zero. -/
def routedVcpu? (vm : Vm) (route : BitVec 64) : Option Nat :=
  if route &&& 0xFFFF00 != 0 then none
  else
    let vcpu := (route.setWidth 8).toNat
    if vcpu < vm.vcpuCount then some vcpu else none

/-- Any vCPU may take the interrupt. -/
def routesAny (route : BitVec 64) : Bool := route &&& Interrupt.routeAny != 0

/-- The vCPUs that an interrupt may be delivered to. -/
def targets (vm : Vm) (l : Line) (s : Interrupt) : CpuSet :=
  match l, vm.version with
  | .banked vcpu _, _ => .single vcpu
  | .shared _, .v2 => s.targets.setWidth 64 &&& vm.vcpuSet
  | .shared _, .v3 =>
    if routesAny s.route then vm.vcpuSet
    else match vm.routedVcpu? s.route with
      | some vcpu => .single vcpu
      | none => 0

def pcpusOf (vm : Vm) (vcpus : CpuSet) : CpuSet :=
  .ofList ((vm.vcpuIds.filter vcpus.getLsbD).filterMap vm.pcpuOf?)

def deliveryTo (vm : Vm) (vcpu : Option Nat) : Delivery :=
  match vcpu.bind vm.pcpuOf? with
  | some cpu => .cpu cpu
  | none => .nowhere

/-- The physical delivery that matches the targets of an interrupt. -/
def delivery (vm : Vm) (l : Line) (s : Interrupt) : Delivery :=
  match l, vm.version with
  | .banked vcpu _, _ => vm.deliveryTo (some vcpu)
  | .shared _, .v2 =>
    let cpus := vm.pcpusOf (vm.targets l s)
    if cpus == 0 then .nowhere else .mask cpus
  | .shared _, .v3 =>
    if routesAny s.route then .any else vm.deliveryTo (vm.routedVcpu? s.route)

end VirtualGic.Vm
