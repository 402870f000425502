import VirtualGic.Proofs.Forgotten
import VirtualGic.Proofs.Write
/-!
# The distributor's switch

The interfaces of a VM's cores follow its distributor.  A core that enables or disables the distributor switches its own
interface at once and tells the others by messages that carry no value: whoever handles one does as the distributor says
then.  So at all times an interface is as the distributor is, or a message waits for its CPU (`Machine.Arises.coherent`).
-/
namespace VirtualGic

/-! ## The two registers -/

theorem Control.getLsbD_toWord (k : Control) : k.toWord.getLsbD 0 = k.enabled :=
  congrArg Control.enabled k.ofWord_toWord

/-- The distributor is on when one of the two enable bits of its control register is set. -/
theorem Distributor.controlWord_and (vm : Vm) : (controlWord vm &&& 3 != 0) = vm.enabled := by
  unfold controlWord Vm.enabled
  generalize vm.groupEnables = e
  cases vm.version <;> revert e <;> decide

namespace Core

variable {c c' : Core} {ds : List Deed} {msg : Message} {bus : MessageBus} {cpu : Nat}

/-! ## Cores -/

/-- The interface is as the distributor is, or a message waits that says so. -/
def Coherent (c : Core) : Prop :=
  c.interface.control.enabled = c.vm.enabled ∨ ∃ msg ∈ c.waiting c.cpu, msg.Syncs c.vm

theorem coherent_syncEnabled (c : Core) : c.syncEnabled.Coherent := .inl rfl

theorem Writes.enabled (h : Writes c c') : c'.vm.enabled = c.vm.enabled := by
  unfold Vm.enabled
  rw [h.switch.1]

theorem Writes.coherent (h : Writes c c') (hc : c.Coherent) : c'.Coherent := by
  unfold Coherent
  rw [h.switch.2, h.enabled, h.same.cpu, (h.posts c.cpu).own]
  exact hc.imp_right fun ⟨msg, hm, hs⟩ => ⟨msg, hm, (msg.syncs_congr h.same.partition).2 hs⟩

/-- Every other core of the VM gets the message. -/
theorem told_broadcast (h : c.Stationed) (bank id : Nat) (hm : cpu ∈ c.vm.partition.cpus) (hne : cpu ≠ c.cpu) :
    ∃ msg ∈ (c.broadcast .syncEnable (c.payload bank id)).waiting cpu, msg.Syncs c.vm := by
  obtain ⟨w, hw⟩ := List.mem_iff_getElem?.1 hm
  exact ⟨_, mem_postAll .syncEnable _ _ c (List.mem_filter.2 ⟨hm, bne_iff_ne.2 hne⟩) (h.reaches w cpu hw),
    syncs_payload h bank id⟩

/-- A store to the distributor's control register leaves it on or off, or it switches this interface and tells every other
core of the VM. -/
theorem storeControl_cases (h : c.Stationed) (v : BitVec 64) :
    (Distributor.storeControl c v = c.setEnables (v.setWidth 2) ∧ (c.setEnables (v.setWidth 2)).vm.enabled = c.vm.enabled) ∨
      (Distributor.storeControl c v).interface.control.enabled = (Distributor.storeControl c v).vm.enabled ∧
        ∀ cpu ∈ c.vm.partition.cpus, cpu ≠ c.cpu → ∃ msg ∈ (Distributor.storeControl c v).waiting cpu, msg.Syncs c.vm := by
  rw [storeControl_eq]
  split
  next e => exact .inl ⟨rfl, beq_iff_eq.1 e⟩
  next =>
    refine .inr ⟨?_, fun cpu hm hne => ?_⟩
    · have posted : Posted .syncEnable (c.setEnables (v.setWidth 2)).syncEnabled
          ((c.setEnables (v.setWidth 2)).syncEnabled.broadcast .syncEnable
            ((c.setEnables (v.setWidth 2)).payload c.vcpu 0)) := posted_postAll ..
      rw [posted.interface, posted.vm]
      rfl
    · exact told_broadcast (c := (c.setEnables (v.setWidth 2)).syncEnabled) (h.same ⟨rfl, rfl, rfl, rfl⟩) c.vcpu 0 hm hne

/-- **Whatever a core does at one time, it stays coherent.** -/
theorem Move.coherent (h : Move c ds c') (hs : c.Stationed) (hc : c.Coherent) : c'.Coherent := by
  cases h with
  | act a ha =>
    rcases act_writes hs ha with hw | ⟨v, e⟩
    · exact hw.coherent hc
    · rw [e]
      rcases storeControl_cases hs v with ⟨e, he⟩ | ⟨he, -⟩
      · unfold Coherent
        rw [e, he]
        exact hc
      · exact .inl he
  | handle msg bus ht =>
    rcases handle_writes (hs.same (alike_take ht).toSame) msg with ⟨-, e⟩ | ⟨other, hw⟩
    · rw [e]
      exact coherent_syncEnabled _
    · -- the message that was taken is not the one that this core waits for
      refine hw.coherent (hc.imp_right fun ⟨told, hm, hsync⟩ => ⟨told, mem_of_take ht hm fun _ e => ?_, hsync⟩)
      rw [e] at hsync
      exact other hsync

/-- **The other cores of the VM are told** when the distributor goes on or off. -/
theorem Move.tells (h : Move c ds c') (hs : c.Stationed) (hm : cpu ∈ c.vm.partition.cpus) (hne : cpu ≠ c.cpu) :
    c'.vm.enabled = c.vm.enabled ∨ ∃ msg ∈ c'.waiting cpu, msg.Syncs c.vm := by
  cases h with
  | act a ha =>
    rcases act_writes hs ha with hw | ⟨v, e⟩
    · exact .inl hw.enabled
    · rw [e]
      refine (storeControl_cases hs v).imp (fun ⟨e, he⟩ => ?_) fun ⟨_, told⟩ => told cpu hm hne
      rw [e]
      exact he
  | handle msg bus ht =>
    rcases handle_writes (hs.same (alike_take ht).toSame) msg with ⟨-, e⟩ | ⟨-, hw⟩
    · rw [e]
      exact .inl rfl
    · exact .inl hw.enabled

end Core

namespace Machine

variable {m m' : Machine} {cpu i : Nat} {c c' : Core} {ds : List Deed}

/-! ## Machines -/

/-- Every core of every VM is coherent. -/
def Coherent (m : Machine) : Prop :=
  ∀ (i : Nat) (vm : Vm), m.vms[i]? = some vm → ∀ v cpu, vm.pcpuOf? v = some cpu →
    (m.interfaces.get cpu).control.enabled = vm.enabled ∨ ∃ msg ∈ m.waiting cpu, msg.Syncs vm

theorem Coherent.core (h : m.Coherent) (hs : m.Sound) (hc : m.core? cpu = some (i, c)) : c.Coherent := by
  have told := h i c.vm (vm_of_core? hc) c.vcpu cpu (hs.here hc)
  rw [← waiting_core hc, ← interface_of_core? hc] at told
  unfold Core.Coherent
  rw [cpu_of_core? hc]
  exact told

theorem Coherent.joined {p : Partition} {new : Vm} {ps : List Partition} (h : m.Coherent) (hm : Booted m ps)
    (hj : m.Joined p new m') (apart : ∀ q ∈ ps, ∀ cpu ∈ q.cpus, cpu ∉ p.cpus) : m'.Coherent := by
  obtain ⟨hpart, -⟩ := Vm.create_spec hj.created
  intro i vm hi v cpu hv
  rw [hj.control, show m'.waiting cpu = m.waiting cpu by rw [waiting, waiting, hj.bus]]
  rcases hj.vm_cases hi with hi | ⟨-, rfl⟩
  · rw [if_neg (apart _ (hm.partitions i vm hi) cpu (List.mem_of_getElem? hv))]
    exact h i vm hi v cpu hv
  · rw [if_pos (hpart ▸ List.mem_of_getElem? hv)]
    exact .inl rfl

theorem Coherent.move (h : m.Coherent) (hs : m.Sound) (hc : m.core? cpu = some (i, c)) (hmv : c.Move ds c') :
    (m.putCore i c').Coherent := by
  have hcs := hs.core hc
  have same := (hmv.local_ hcs).toSame
  have own := hmv.coherent hcs.station (h.core hs hc)
  unfold Core.Coherent at own
  intro j vm hj v k hv
  rw [interfaces_putCore, same.cpu]
  -- what waits for another core goes on waiting
  have still : ∀ vm : Vm, k ≠ c.cpu → (∃ msg ∈ m.waiting k, msg.Syncs vm) → ∃ msg ∈ c'.waiting k, msg.Syncs vm :=
    fun vm hne ⟨msg, hm, hsync⟩ => ⟨msg, hmv.grew hcs hne (by rw [waiting_core hc]; exact hm), hsync⟩
  rcases vm_of_putCore hc hj with ⟨rfl, rfl⟩ | ⟨hne, hj⟩
  · rw [Vm.pcpuOf?_congr same.partition] at hv
    by_cases hk : c.cpu = k
    · rw [if_pos hk, ← hk]
      rw [same.cpu] at own
      exact own
    · rw [if_neg hk]
      have syncs : (∃ msg ∈ c'.waiting k, msg.Syncs c.vm) → ∃ msg ∈ (m.putCore j c').waiting k, msg.Syncs c'.vm :=
        fun ⟨msg, hm, hsync⟩ => ⟨msg, hm, (msg.syncs_congr same.partition).2 hsync⟩
      rcases hmv.tells hcs.station (List.mem_of_getElem? hv) (Ne.symm hk) with e | told
      · rw [e]
        exact (h j c.vm (vm_of_core? hc) v k hv).imp_right fun told => syncs (still c.vm (Ne.symm hk) told)
      · exact .inr (syncs told)
  · have hk := hs.cpu_ne hc hj hne hv
    rw [if_neg hk.symm]
    exact (h j vm hj v k hv).imp_right (still vm hk)

/-- **Every core is coherent at all times.** -/
theorem Arises.coherent (h : m.Arises) : m.Coherent :=
  h.induct
    (fun _ _ _ _ _ hb => (boot_induct (P := fun m _ => m.Coherent) hb (fun i _ hi => by simp [create] at hi)
      fun _ _ _ _ _ hm hp hj hc => hp.joined hm hj fun q hq => (hc q hq).cpus).2)
    fun _ _ _ _ _ _ hm hp hc hmv => hp.move hm.sound hc hmv

/-- **The interfaces follow the distributor**: however stores to its control register, messages and whatever else happens
on the cores of a VM interleave, the enable bit in the control register of each interface is set exactly when the
distributor's is, or a message about it waits for that CPU; so where no message waits they agree. -/
theorem Arises.enable_follows (h : m.Arises) (hc : m.core? cpu = some (i, c)) :
    ((m.interfaces.get cpu).control.toWord.getLsbD 0 = (Distributor.controlWord c.vm &&& 3 != 0) ∨
      ∃ msg ∈ m.waiting cpu, msg.Syncs c.vm) ∧
    (m.waiting cpu = [] →
      (m.interfaces.get cpu).control.toWord.getLsbD 0 = (Distributor.controlWord c.vm &&& 3 != 0)) := by
  have hcpu := cpu_of_core? hc
  have told := h.coherent i c.vm (vm_of_core? hc) c.vcpu cpu (by rw [← hcpu]; exact (h.sound.core hc).station.here)
  rw [Control.getLsbD_toWord, Distributor.controlWord_and]
  refine ⟨told, fun none => told.resolve_right fun ⟨msg, hm, _⟩ => ?_⟩
  rw [none] at hm
  cases hm

/-- One core of two has enabled the distributor. -/
def switched : Machine := (started 2 [2] [.standard .v2 1 64 [0, 1] []]).run [⟨0, store distributorBase 4 1⟩]

theorem reachable_switched : switched.Reachable := (reachable_started (by decide +kernel)).run _

theorem enable_follows_switched :
    (switched.interfaces.get 1).control.toWord.getLsbD 0 ≠ (Distributor.controlWord switched.firstVm &&& 3 != 0) ∧
      ∃ msg ∈ switched.waiting 1, msg.Syncs switched.firstVm := by
  have arises := reachable_switched.arises
  have first : switched.vms[0]? = some switched.firstVm := vms_zero (by decide +kernel)
  have hc := arises.sound.core_of_pcpuOf? first (show switched.firstVm.pcpuOf? 1 = some 1 by decide +kernel)
  have differs : (switched.interfaces.get 1).control.toWord.getLsbD 0 ≠
      (Distributor.controlWord switched.firstVm &&& 3 != 0) := by decide +kernel
  exact ⟨differs, (arises.enable_follows hc).1.resolve_left differs⟩

end Machine
end VirtualGic
