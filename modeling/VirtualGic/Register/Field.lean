import VirtualGic.Register.Group
import VirtualGic.PhysicalGic
import VirtualGic.Vm.Routing
/-!
# Register fields

What writing the field of one interrupt does to its record, which part of the record
a group stands for, and how that part is written to the physical line.
-/
namespace VirtualGic.RegisterGroup

/-- The vCPUs named by a value, as the record of a version 2 interrupt holds them. -/
def vcpusIn (vm : Vm) (v : BitVec 64) : BitVec 8 := (v &&& vm.vcpuSet).setWidth 8

/-- The record after `v` has been written to the interrupt's field.  Software interrupts cannot be
disabled under version 2, where their pending bit follows the set of requesters, and their
configuration is fixed; banked interrupts have neither targets nor a route. -/
def apply (g : RegisterGroup) (vm : Vm) (l : Line) (v : BitVec 64) (s : Interrupt) : Interrupt :=
  match g with
  | group => { s with group1 := v.getLsbD 0 }
  | setEnable => if v == 0 then s else { s with enabled := true }
  | clearEnable => if v == 0 || vm.countsRequesters l then s else { s with enabled := false }
  | setPending =>
    if v == 0 || vm.countsRequesters l then s
    else { s with state := { s.state with pending := true } }
  | clearPending =>
    if v == 0 || vm.countsRequesters l then s
    else { s with state := { s.state with pending := false } }
  | setActive => if v == 0 then s else { s with state := { s.state with active := true } }
  | clearActive => if v == 0 then s else { s with state := { s.state with active := false } }
  | priority => { s with priority := v.setWidth 8 &&& Interrupt.priorityMask }
  | targets =>
    if l.isBanked then s
    else
      let s := { s with targets := vcpusIn vm v }
      { s with delivery := vm.delivery l s }
  | config =>
    if l.isSoftware then s else { s with config := v.setWidth 8 &&& Interrupt.edgeTriggered }
  | route =>
    if l.isBanked then s
    else
      let s := { s with route := v &&& Interrupt.routeMask }
      { s with delivery := vm.delivery l s }
  | setRequesters =>
    if l.isSoftware then
      let requesters := s.requesters ||| vcpusIn vm v
      { s with
        requesters := requesters
        state := { s.state with pending := s.state.pending || requesters != 0 } }
    else s
  | clearRequesters =>
    if l.isSoftware then
      let requesters := s.requesters &&& ~~~(v.setWidth 8)
      { s with
        requesters := requesters
        state := { s.state with pending := s.state.pending && requesters != 0 } }
    else s
  | misc | groupModifier | nonSecureAccess | softwareInterrupt | identification => s

/-- Whether the part of a record that the group stands for differs between two records. -/
def differs (g : RegisterGroup) (s t : Interrupt) : Bool :=
  match g with
  | group => s.group1 != t.group1
  | setEnable | clearEnable => s.enabled != t.enabled
  | setPending | clearPending | setActive | clearActive => s.state != t.state
  | priority => s.priority != t.priority
  | targets => s.targets != t.targets
  | config => s.config != t.config
  | route => s.route != t.route
  | setRequesters | clearRequesters => s.requesters != t.requesters
  | misc | groupModifier | nonSecureAccess | softwareInterrupt | identification => false

/-- Write the part of a record that the group stands for to the physical line. -/
def push (g : RegisterGroup) (l : Line) (s : Interrupt) (gic : PhysicalGic) : PhysicalGic :=
  match g with
  | setEnable | clearEnable => gic.setEnabled l.id s.enabled
  | setPending | clearPending => gic.setPending l.id s.state.pending
  | setActive | clearActive => gic.setActive l.id s.state.active
  | priority => gic.setPriority l.id s.priority
  | config => gic.setConfig l.id s.config
  | targets | route => gic.setDelivery l.id s.delivery
  | misc | group | groupModifier | nonSecureAccess | softwareInterrupt | clearRequesters
  | setRequesters | identification => gic

end VirtualGic.RegisterGroup
