import VirtualGic.Proofs.Confined
import VirtualGic.Proofs.Forgotten
/-!
# Isolation

The VMs of checked tables share the bus, the physical distributor and the interrupt numbers, but no CPU and no
physical line.  What happens on a CPU of one VM leaves every other VM alone: its controller, the interfaces and
inboxes of its CPUs, and the lines that are passed through to it.
-/
namespace VirtualGic

namespace Machine

variable {m m' : Machine} {cpu i j : Nat} {c c' : Core} {vm : Vm} {ds : List Deed}

/-! ## Separate lines -/

/-- No physical line is passed through to two VMs. -/
def Separate (m : Machine) : Prop :=
  ∀ (i j : Nat) (vm vm' : Vm), m.vms[i]? = some vm → m.vms[j]? = some vm' → i ≠ j →
    ∀ id ∈ vm.partition.passthrough, id ∉ vm'.partition.passthrough

theorem Separate.joined {p : Partition} {new : Vm} {ps : List Partition} (h : m.Separate) (hm : Booted m ps)
    (hj : m.Joined p new m') (apart : ∀ q ∈ ps, ∀ id ∈ q.passthrough, id ∉ p.passthrough) : m'.Separate := by
  obtain ⟨hpart, -⟩ := Vm.create_spec hj.created
  intro i j vm vm' hi hj' hne id hid hid'
  rcases hj.vm_cases hi with hi | ⟨rfl, rfl⟩ <;> rcases hj.vm_cases hj' with hj' | ⟨rfl, rfl⟩
  · exact h i j vm vm' hi hj' hne id hid hid'
  · rw [hpart] at hid'
    exact apart _ (hm.partitions i vm hi) id hid hid'
  · rw [hpart] at hid
    exact apart _ (hm.partitions j vm' hj') id hid' hid
  · exact hne rfl

theorem separate_of_boot {cpus : Nat} {sizes : List Nat} {doorbell : Bool} {ps : List Partition}
    (h : boot cpus sizes doorbell ps = .ok m) : m.Separate :=
  (boot_induct (P := fun m _ => m.Separate) h (fun i _ _ _ hi => by simp [create] at hi)
    fun _ _ _ _ _ hm hs hj hc => hs.joined hm hj fun q hq => (hc q hq).passthrough).2

theorem Separate.putCore (h : m.Separate) (hc : m.core? cpu = some (i, c)) (hp : c'.vm.partition = c.vm.partition) :
    (m.putCore i c').Separate := by
  -- the tables of the VMs never change
  have table : ∀ {k : Nat} {vm : Vm}, (m.putCore i c').vms[k]? = some vm →
      ∃ old, m.vms[k]? = some old ∧ vm.partition = old.partition := fun {k vm} hk => by
    rcases vm_of_putCore hc hk with ⟨rfl, rfl⟩ | ⟨-, hk⟩
    · exact ⟨c.vm, vm_of_core? hc, hp⟩
    · exact ⟨vm, hk, rfl⟩
  intro i j vm vm' hi hj hne
  obtain ⟨a, ha, ea⟩ := table hi
  obtain ⟨b, hb, eb⟩ := table hj
  rw [ea, eb]
  exact h i j a b ha hb hne

/-- **No physical line is ever passed through to two VMs.** -/
theorem Arises.separate (h : m.Arises) : m.Separate :=
  h.induct (fun _ _ _ _ _ hb => separate_of_boot hb) fun _ _ _ _ _ _ hm hsep hc hmv =>
    hsep.putCore hc (hmv.local_ (hm.sound.core hc)).partition

/-! ## Other VMs -/

/-- Nothing of what belongs to a VM differs between two machines. -/
structure Untouched (m m' : Machine) (j : Nat) (vm : Vm) : Prop where
  /-- Its records, spill lists, distributor and redistributors. -/
  controller : m'.vms[j]? = some vm
  assignment : ∀ v cpu, vm.pcpuOf? v = some cpu → m'.assignments.get cpu = m.assignments.get cpu
  /-- The list registers and the control register of its CPUs. -/
  interface : ∀ v cpu, vm.pcpuOf? v = some cpu → m'.interfaces.get cpu = m.interfaces.get cpu
  inbox : ∀ v cpu, vm.pcpuOf? v = some cpu → m'.bus.inbox cpu = m.bus.inbox cpu
  /-- The interrupts that were sent to its CPUs. -/
  sent : ∀ v cpu, vm.pcpuOf? v = some cpu → m'.gic.sentTo cpu = m.gic.sentTo cpu
  lines : ∀ id ∈ vm.partition.passthrough, m.gic.Spares m'.gic id

theorem Untouched.refl (h : m.vms[j]? = some vm) : m.Untouched m j vm :=
  ⟨h, fun _ _ _ => rfl, fun _ _ _ => rfl, fun _ _ _ => rfl, fun _ _ _ => rfl, fun _ _ => .refl ..⟩

theorem Untouched.trans {m'' : Machine} (h : m.Untouched m' j vm) (h' : m'.Untouched m'' j vm) : m.Untouched m'' j vm where
  controller := h'.controller
  assignment := fun v cpu hv => (h'.assignment v cpu hv).trans (h.assignment v cpu hv)
  interface := fun v cpu hv => (h'.interface v cpu hv).trans (h.interface v cpu hv)
  inbox := fun v cpu hv => (h'.inbox v cpu hv).trans (h.inbox v cpu hv)
  sent := fun v cpu hv => (h'.sent v cpu hv).trans (h.sent v cpu hv)
  lines := fun id hid => (h.lines id hid).trans (h'.lines id hid)

theorem gic_of_core? (h : m.core? cpu = some (i, c)) : c.gic = m.gic := by
  obtain ⟨v, vm, -, -, rfl⟩ := (m.core?_eq_some_iff cpu i c).1 h
  rfl

/-- **A move of a core leaves the other VMs alone.** -/
theorem Untouched.move (hs : m.Sound) (hsep : m.Separate) (hc : m.core? cpu = some (i, c)) (hmv : c.Move ds c')
    (hj : m.vms[j]? = some vm) (hne : j ≠ i) : m.Untouched (m.putCore i c') j vm := by
  have confined := hmv.confined (hs.core hc)
  -- no CPU of the one VM is a CPU of the other
  have other : ∀ v k, vm.pcpuOf? v = some k → k ∉ c.vm.partition.cpus := fun v k hk hm => by
    obtain ⟨w, hw⟩ := List.mem_iff_getElem?.1 hm
    exact hs.disjoint (vm_of_core? hc) hj hne hw hk
  refine ⟨(vms_putCore _ _ _ _ (Ne.symm hne)).trans hj, fun _ _ _ => rfl, fun v k hk => ?_, fun v k hk => ?_,
    fun v k hk => ?_, fun id hid => ?_⟩
  · rw [interfaces_putCore, if_neg]
    rw [(hmv.local_ (hs.core hc)).cpu]
    exact (hs.cpu_ne hc hj hne hk).symm
  · rw [← bus_of_core? hc]
    exact confined.inbox k (other v k hk)
  · rw [← gic_of_core? hc]
    exact confined.sent k (other v k hk)
  · rw [← gic_of_core? hc]
    exact confined.spares (hs.core hc) (hsep j i vm c.vm hj (vm_of_core? hc) hne id hid)

/-- **Isolation**: whatever happens on a CPU of one VM, every other VM stays as it is, with the interfaces, the inboxes
and the doorbells of its CPUs and the physical lines that are passed through to it. -/
theorem Reachable.isolated (h : m.Reachable) (hc : m.core? cpu = some (i, c)) (hj : m.vms[j]? = some vm) (hne : j ≠ i)
    (a : Action) : m.Untouched (m.step ⟨cpu, a⟩) j vm := by
  have here : m.assignments.get cpu = some ⟨i, c.vcpu⟩ := assignment_of_core? hc
  -- a poll makes several moves, of one CPU and so for one VM
  refine (h.arises.keeps (P := fun m' => m.Untouched m' j vm ∧ m'.assignments.get cpu = m.assignments.get cpu)
    ⟨.refl hj, rfl⟩ fun m' i' c' ds d hm' hp hc' hmv => ?_).1
  have same := assignment_of_core? hc'
  rw [hp.2, here] at same
  obtain rfl : i = i' := (Assignment.mk.inj (Option.some.inj same)).1
  exact ⟨hp.1.trans (.move hm'.sound hm'.separate hc' hmv hp.1.controller hne), hp.2⟩

/-- Two VMs, each with a CPU and a physical line of its own. -/
def paired : Machine :=
  (started 2 [2] [.standard .v2 1 64 [0] [40], .standard .v2 2 64 [1] [41]]).run
    [⟨0, store distributorBase 4 1⟩, ⟨0, store (distributorBase + 0x104) 4 0x100⟩,
      ⟨1, store (distributorBase + 0x104) 4 0x200⟩, ⟨1, .inject 41⟩]

theorem reachable_paired : paired.Reachable := (reachable_started (by decide +kernel)).run _

theorem isolated_paired : ∃ i c vm, paired.core? 0 = some (i, c) ∧ paired.vms[1]? = some vm ∧ 1 ≠ i ∧
    ((paired.step ⟨0, .inject 40⟩).firstVm.interrupt (.shared 40)).resident = true ∧
    paired.Untouched (paired.step ⟨0, .inject 40⟩) 1 vm := by
  have runs : (paired.core? 0).any (fun ic => decide (1 ≠ ic.1)) = true := by decide +kernel
  obtain ⟨⟨i, c⟩, hc, hi⟩ := (Option.any_eq_true _ _).1 runs
  obtain ⟨vm, hvm⟩ := Option.isSome_iff_exists.1 (show (paired.vms[1]?).isSome = true by decide +kernel)
  have hi : 1 ≠ i := of_decide_eq_true hi
  exact ⟨i, c, vm, hc, hvm, hi, by decide +kernel, reachable_paired.isolated hc hvm hi _⟩

end Machine
end VirtualGic
