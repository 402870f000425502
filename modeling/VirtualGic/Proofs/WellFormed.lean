import VirtualGic.Proofs.Creation
import VirtualGic.Proofs.Requester
/-!
# Well-formed records

The guest writes to every field of a record, with values of its choosing, directly or by way of a message.  What the
fields may hold is fixed all the same (`Interrupt.WellFormed`): unimplemented bits stay zero, sets hold vCPUs of the VM
only, and what the class of an interrupt fixes is never written (`Machine.Arises.wellFormed`).
-/
namespace VirtualGic

/-- What the settings of an interrupt may be, whatever was written to them. -/
structure Interrupt.Configured (s : Interrupt) (vm : Vm) (l : Line) : Prop where
  priority : s.priority &&& ~~~priorityMask = 0
  config : s.config = 0 ∨ s.config = edgeTriggered
  software : l.isSoftware = true → s.config = edgeTriggered
  route : s.route &&& ~~~routeMask = 0
  targets : ∀ v, s.targets.getLsbD v = true → v < vm.vcpuCount
  /-- A banked interrupt goes to its home. -/
  banked : ∀ home, l.home? = some home → s.targets = BitVec.twoPow 8 home ∧ s.route = BitVec.ofNat 64 home ∧
    ∃ cpu, vm.pcpuOf? home = some cpu ∧ s.delivery = .cpu cpu
  /-- Under version 3 the delivery follows the route from the start. -/
  delivery : vm.version = .v3 → s.delivery = vm.delivery l s
  /-- A version 2 software interrupt cannot be disabled. -/
  enabled : vm.countsRequesters l = true → s.enabled = true

/-- What the fields of a record may hold. -/
structure Interrupt.WellFormed (s : Interrupt) (vm : Vm) (l : Line) : Prop extends s.Configured vm l, s.Sourced vm where
  /-- Only version 2 software interrupts have requesters. -/
  requesterless : vm.countsRequesters l = false → s.requesters = 0
  hardware : s.hardware = true ↔ l.id ∈ vm.partition.passthrough

section Record
variable {vm vm' : Vm} {l : Line} {s t : Interrupt}

theorem Interrupt.Configured.settings (h : s.Configured vm l) (hs : s.SameSettings t) : t.Configured vm l where
  priority := by rw [hs.priority]; exact h.priority
  config := by rw [hs.config]; exact h.config
  software := by rw [hs.config]; exact h.software
  route := by rw [hs.route]; exact h.route
  targets := by rw [hs.targets]; exact h.targets
  banked := by rw [hs.targets, hs.route, hs.delivery]; exact h.banked
  delivery := fun h3 => hs.delivery.trans ((h.delivery h3).trans (Vm.delivery_eq hs.targets hs.route).symm)
  enabled := by rw [hs.enabled]; exact h.enabled

theorem Interrupt.Configured.congr (h : s.Configured vm l) (hp : vm'.partition = vm.partition) : s.Configured vm' l where
  priority := h.priority
  config := h.config
  software := h.software
  route := h.route
  targets := by rw [Vm.vcpuCount_congr hp]; exact h.targets
  banked := fun home hh => by rw [Vm.pcpuOf?_congr hp]; exact h.banked home hh
  delivery := by rw [Vm.version_congr hp, Vm.delivery_congr hp]; exact h.delivery
  enabled := by rw [Vm.countsRequesters_congr hp]; exact h.enabled

/-! ## Field writes -/

theorem and_mask_and_not {n : Nat} (v mask : BitVec n) : v &&& mask &&& ~~~mask = 0 := by
  rw [BitVec.and_assoc, BitVec.and_not_self]
  exact BitVec.and_zero

theorem and_edgeTriggered (v : BitVec 8) : v &&& Interrupt.edgeTriggered = 0 ∨ v &&& Interrupt.edgeTriggered = Interrupt.edgeTriggered := by
  revert v
  decide

namespace RegisterGroup

/-- **No field write puts into a record what it may not hold**, whatever the value. -/
theorem configured_apply (g : RegisterGroup) (checked : vm.partition.Checked) (v : BitVec 64) (h : s.Configured vm l) :
    (g.apply vm l v s).Configured vm l := by
  have derived := fun h3 => g.delivery_apply (v := v) (h.delivery h3)
  revert derived
  have shared : l.isBanked = false → ∀ home, l.home? ≠ some home := fun hb home hh => by
    rw [Line.isBanked, hh] at hb
    cases hb
  cases g <;> simp only [apply] <;> (try split) <;> intro derived
  case priority => exact { h with priority := and_mask_and_not _ _, delivery := derived }
  case config.isFalse hard =>
    exact { h with config := and_edgeTriggered _, software := fun hs => absurd hs hard, delivery := derived }
  case targets.isFalse hb =>
    exact { h with
      targets := fun n => lt_of_vcpusIn checked
      banked := fun home hh => absurd hh (shared (Bool.eq_false_iff.2 hb) home)
      delivery := derived }
  case route.isFalse hb =>
    exact { h with
      route := and_mask_and_not _ _
      banked := fun home hh => absurd hh (shared (Bool.eq_false_iff.2 hb) home)
      delivery := derived }
  case setEnable.isFalse => exact { h with enabled := fun _ => rfl, delivery := derived }
  case clearEnable.isFalse kept =>
    rw [Bool.or_eq_true, not_or] at kept
    exact { h with enabled := fun counts => absurd counts kept.2, delivery := derived }
  all_goals exact { h with delivery := derived }

end RegisterGroup
end Record

/-! ## At the start -/

section Create
variable {vm : Vm} {p : Partition} {cpus : Nat} {g g' : PhysicalGic} {l : Line}

/-- Under version 3 a new VM's shared interrupts are delivered to its first CPU, whether a line stands behind them or not. -/
theorem Vm.delivery_create (h : create p cpus g = (.ok vm, g')) (h3 : vm.version = .v3) {id : Nat}
    (hl : vm.Has (.shared id)) :
    (vm.interrupt (.shared id)).delivery = vm.delivery (.shared id) (vm.interrupt (.shared id)) := by
  obtain ⟨rfl, checked, -⟩ := create_spec h
  have first : vm.partition.firstDelivery = .cpu (vm.partition.cpus.getD 0 0) := by
    unfold Partition.firstDelivery
    rw [show vm.partition.version = .v3 from h3]
  rw [interrupt_create h hl, delivery_first checked rfl rfl]
  show (if id ∈ vm.partition.passthrough then vm.partition.firstDelivery else .cpu _) = _
  rw [first, ite_self]

theorem Vm.configured_shared (h : create p cpus g = (.ok vm, g')) {id : Nat} (hl : vm.Has (.shared id)) :
    (vm.interrupt (.shared id)).Configured vm (.shared id) := by
  obtain ⟨hp, checked, -⟩ := create_spec h
  have derived := fun h3 => delivery_create h h3 hl
  have hard : (Line.shared id).isSoftware = false := Bool.eq_false_iff.2 fun hs => by
    cases hl.2.1.2 (Line.id_lt_of_isSoftware hs)
  obtain ⟨hw, d, e⟩ := interrupt_create_shared h id
  rw [e] at derived ⊢
  refine ⟨BitVec.zero_and, .inl rfl, fun hs => ?_, BitVec.zero_and, fun v hv => ?_, fun home hh => (by cases hh), derived,
    fun counts => ?_⟩
  · rw [hard] at hs
    cases hs
  · -- vCPU 0 is the only target
    have hv : (1#8).getLsbD v = true := hv
    rw [BitVec.getLsbD_one] at hv
    simp only [Bool.and_eq_true, decide_eq_true_eq] at hv
    rw [hv.2]
    exact List.length_pos_iff.2 (hp ▸ checked.cpus_ne)
  · rw [Vm.countsRequesters, Interrupt.countsRequesters, hard, Bool.and_false] at counts
    cases counts

theorem Vm.configured_banked (h : create p cpus g = (.ok vm, g')) {home id : Nat} (hl : vm.Has (.banked home id)) :
    (vm.interrupt (.banked home id)).Configured vm (.banked home id) := by
  obtain ⟨hp, checked, -⟩ := create_spec h
  have hc : vm.partition.Checked := by rw [hp]; exact checked
  have hv : home < vm.vcpuCount := hl.2.2 home rfl
  obtain ⟨cpu, hcpu⟩ := exists_pcpuOf? hv
  have hget : p.cpus.getD home 0 = cpu := by
    rw [List.getD_eq_getElem?_getD, ← hp]
    exact congrArg (·.getD 0) hcpu
  rw [interrupt_create_banked h hl]
  refine ⟨BitVec.zero_and, ?_, fun hs => if_pos hs, ?_, fun v hv' => ?_, fun k hk => ?_, fun _ => ?_, fun counts => ?_⟩
  · cases hs : isSoftwareId id with
    | true => exact .inr (if_pos hs)
    | false => exact .inl (if_neg (by rw [hs]; decide))
  · have small : ∀ n < maxCpus, BitVec.ofNat 64 n &&& ~~~Interrupt.routeMask = 0 := by decide
    exact small home (Nat.lt_of_lt_of_le hv hc.cpus_le)
  · have hv' : (BitVec.twoPow 8 home).getLsbD v = true := hv'
    rw [BitVec.getLsbD_twoPow, Bool.and_eq_true, decide_eq_true_eq, decide_eq_true_eq] at hv'
    rw [← hv'.2]
    exact hv
  · cases hk
    exact ⟨rfl, rfl, cpu, hcpu, congrArg Delivery.cpu hget⟩
  · have derived : vm.delivery (.banked home id) (.banked p.version home (p.cpus.getD home 0) id) = .cpu cpu := by
      simp only [Vm.delivery, deliveryTo, Option.bind_some, hcpu]
    rw [derived]
    exact congrArg Delivery.cpu hget
  · simp only [Vm.countsRequesters, Interrupt.countsRequesters, Bool.and_eq_true] at counts
    show (isSoftwareId id && p.version == .v2) = true
    rw [← hp]
    exact Bool.and_eq_true_iff.2 ⟨counts.2, counts.1⟩

theorem Vm.configured_create (h : create p cpus g = (.ok vm, g')) (hl : vm.Has l) : (vm.interrupt l).Configured vm l := by
  cases l with
  | shared id => exact configured_shared h hl
  | banked home id => exact configured_banked h hl

end Create

/-! ## At all times -/

namespace Core

variable {c c' : Core} {l : Line}

/-- **The settings of an interrupt change by the writes to its fields only.** -/
theorem Change.settings_or_field (h : Change c c') (l : Line) :
    (c.interrupt l).SameSettings (c'.interrupt l) ∨ ∃ g v, c'.interrupt l = RegisterGroup.apply g c.vm l v (c.interrupt l) := by
  have same : c'.interrupt l = c.interrupt l → (c.interrupt l).SameSettings (c'.interrupt l) := fun e => by
    rw [e]
    exact .refl _
  cases h with
  | write h =>
    cases h with
    | record k s settings =>
      left
      rw [interrupt_setInterrupt]
      split
      next e => rw [← e]; exact settings
      next => exact .refl _
    | field g k v has =>
      rw [interrupt_assign]
      split
      next e => exact .inr ⟨g, v, by rw [e]⟩
      next => exact .inl (.refl _)
    | list home ids => exact .inl (same (Vm.interrupt_setSpillList ..))
    | occupant n id => exact .inl (same (Vm.interrupt_setOccupant ..))
    | asleep v on => exact .inl (same (Vm.interrupt_setAsleep ..))
    | interface | line => exact .inl (.refl _)
    | post target r p => exact .inl (same ((posted_post c target r p).alike.interrupt l))
  | enables e => exact .inl (same (by cases l <;> rfl))
  | sync | take => exact .inl (.refl _)

theorem Change.configured (h : Change c c') (checked : c.vm.partition.Checked)
    (hl : (c.interrupt l).Configured c.vm l) : (c'.interrupt l).Configured c'.vm l := by
  refine .congr ?_ h.same.partition
  rcases h.settings_or_field l with same | ⟨g, v, e⟩
  · exact hl.settings same
  · rw [e]
    exact g.configured_apply checked v hl

theorem Changes.configured (h : Changes c c') (checked : c.vm.partition.Checked)
    (hl : (c.interrupt l).Configured c.vm l) : (c'.interrupt l).Configured c'.vm l := by
  induction h with
  | refl => exact hl
  | tail hc w ih => exact w.configured (by rw [(Changes.same hc).partition]; exact checked) ih

end Core

namespace Machine

variable {m : Machine} {i : Nat} {vm : Vm} {l : Line}

theorem Arises.configured (h : m.Arises) (hvm : m.vms[i]? = some vm) (hl : vm.Has l) : (vm.interrupt l).Configured vm l := by
  refine h.vm_induct (P := fun vm => vm.Has l → (vm.interrupt l).Configured vm l) hvm
    (fun p cpus g g' vm created => Vm.configured_create created) (fun m cpu i c ds c' hm hc hmv ih hl => ?_) hl
  have hs := hm.sound.core hc
  exact (hmv.changes hs.station).configured hs.station.checked (ih ((Vm.has_congr (hmv.local_ hs).partition l).1 hl))

/-- **Every record is well-formed at all times**, whatever the guest writes. -/
theorem Arises.wellFormed (h : m.Arises) (hvm : m.vms[i]? = some vm) (hl : vm.Has l) :
    (vm.interrupt l).WellFormed vm l := by
  obtain ⟨cpu, hcpu⟩ := Vm.exists_pcpuOf? (List.length_pos_iff.2 (h.sound.checked hvm).cpus_ne)
  have sourced := (h.sourced (h.sound.core_of_pcpuOf? hvm hcpu)).record l hl
  exact ⟨h.configured hvm hl, sourced, h.requesters_eq_zero hvm hl, (h.sound.records hvm l hl).passed⟩

/-- Ones were written to registers of the first software interrupts. -/
def scribbled : Machine :=
  (started 2 [1] [.standard .v2 1 64 [0, 1] []]).run
    ([0x180, 0x400, 0xC00, 0xF20].map fun offset =>
      ⟨0, store (distributorBase + offset) 4 0xFFFFFFFF⟩)

theorem wellFormed_scribbled : scribbled.firstVm.Has (.banked 0 3) ∧
    (scribbled.firstVm.interrupt (.banked 0 3)).priority = 0xF8 ∧
    (scribbled.firstVm.interrupt (.banked 0 3)).requesters = 3 ∧
    (scribbled.firstVm.interrupt (.banked 0 3)).WellFormed scribbled.firstVm (.banked 0 3) := by
  have reachable : scribbled.Reachable := (reachable_started (by decide +kernel)).run _
  have has : scribbled.firstVm.Has (.banked 0 3) :=
    ⟨by decide +kernel, by decide, fun home hh => by cases hh; decide +kernel⟩
  exact ⟨has, by decide +kernel, by decide +kernel, reachable.arises.wellFormed (vms_zero (by decide +kernel)) has⟩

end Machine
end VirtualGic
