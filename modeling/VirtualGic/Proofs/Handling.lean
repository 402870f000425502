import VirtualGic.Core.Maintenance
import VirtualGic.Core.Messages
import VirtualGic.Proofs.Delivery
/-!
# Handling an interrupt

Field writes, injection, deactivation and retirement all go the same way: the interrupt is taken in hand, its record
is changed to some `s`, it is delivered and given up (`Core.Handled`).  `Core.Final` says how that ends.
-/
namespace VirtualGic

namespace Interrupt

variable {s t u : Interrupt} {version : GicVersion} {l : Line} {v : Nat}

/-- Two records of an interrupt with the same settings. -/
structure SameSettings (s t : Interrupt) : Prop where
  enabled : t.enabled = s.enabled
  priority : t.priority = s.priority
  config : t.config = s.config
  group1 : t.group1 = s.group1
  targets : t.targets = s.targets
  route : t.route = s.route
  delivery : t.delivery = s.delivery
  hardware : t.hardware = s.hardware

theorem SameSettings.refl (s : Interrupt) : SameSettings s s := ⟨rfl, rfl, rfl, rfl, rfl, rfl, rfl, rfl⟩

theorem SameSettings.symm (h : SameSettings s t) : SameSettings t s :=
  ⟨h.enabled.symm, h.priority.symm, h.config.symm, h.group1.symm, h.targets.symm, h.route.symm, h.delivery.symm,
    h.hardware.symm⟩

theorem SameSettings.trans (h : SameSettings s t) (h' : SameSettings t u) : SameSettings s u :=
  ⟨h'.enabled.trans h.enabled, h'.priority.trans h.priority, h'.config.trans h.config, h'.group1.trans h.group1,
    h'.targets.trans h.targets, h'.route.trans h.route, h'.delivery.trans h.delivery, h'.hardware.trans h.hardware⟩

/-- Two records of an interrupt that say the same, of its state and its requesters at least where `whole` holds. -/
structure Agrees (whole : Prop) (s t : Interrupt) : Prop extends SameSettings s t where
  state : whole → t.state = s.state
  requesters : whole → t.requesters = s.requesters

theorem Agrees.refl (whole : Prop) (s : Interrupt) : Agrees whole s s := ⟨.refl s, fun _ => rfl, fun _ => rfl⟩

theorem Agrees.symm {whole : Prop} (h : Agrees whole s t) : Agrees whole t s :=
  ⟨h.toSameSettings.symm, fun w => (h.state w).symm, fun w => (h.requesters w).symm⟩

theorem Agrees.trans {whole : Prop} (h : Agrees whole s t) (h' : Agrees whole t u) : Agrees whole s u :=
  ⟨h.toSameSettings.trans h'.toSameSettings, fun w => (h'.state w).trans (h.state w),
    fun w => (h'.requesters w).trans (h.requesters w)⟩

theorem Agrees.imp {p q : Prop} (h : Agrees p s t) (hqp : q → p) : Agrees q s t :=
  ⟨h.toSameSettings, fun w => h.state (hqp w), fun w => h.requesters (hqp w)⟩

theorem agrees_release (s : Interrupt) (version : GicVersion) (l : Line) (v : Nat) :
    Agrees True s (s.release version l v) := by
  unfold release
  split <;> exact ⟨⟨rfl, rfl, rfl, rfl, rfl, rfl, rfl, rfl⟩, fun _ => rfl, fun _ => rfl⟩

theorem sameSettings_release (s : Interrupt) (version : GicVersion) (l : Line) (v : Nat) :
    SameSettings s (s.release version l v) := by
  unfold release
  split <;> exact ⟨rfl, rfl, rfl, rfl, rfl, rfl, rfl, rfl⟩

theorem state_release (s : Interrupt) (version : GicVersion) (l : Line) (v : Nat) :
    (s.release version l v).state = s.state := by
  unfold release
  split <;> rfl

theorem spilled_release (s : Interrupt) (version : GicVersion) (l : Line) (v : Nat) :
    (s.release version l v).spilled = s.spilled := by
  unfold release
  split <;> rfl

theorem release_of_not_releasable (h : s.releasable version l v = false) : s.release version l v = s := by
  simp only [release, h, Bool.false_eq_true, if_false]

theorem release_of_resident (h : s.resident = true) : s.release version l v = s :=
  release_of_not_releasable (by simp only [releasable, h, Bool.not_true, Bool.and_false, Bool.false_and])

theorem release_of_active (h : s.state.active = true) : s.release version l v = s :=
  release_of_not_releasable (by simp only [releasable, h, Bool.not_true, Bool.and_false, Bool.false_and])

theorem release_release (s : Interrupt) (version : GicVersion) (l : Line) (v : Nat) :
    (s.release version l v).release version l v = s.release version l v := by
  rcases s.release_eq version l v with h | h
  · rw [h, h]
  · rw [h]
    refine release_of_not_releasable ?_
    have ho : ({ s with owner := none } : Interrupt).ownedBy v = false := rfl
    simp only [releasable, ho, Bool.false_and]

theorem owner_release (h : s.owner = some v) :
    (s.release version l v).owner = none ∨ (s.release version l v).owner = some v := by
  rcases s.release_eq version l v with e | e <;> rw [e]
  · exact .inr h
  · exact .inl rfl

theorem availableTo_release (h : s.owner = some v) : (s.release version l v).availableTo v = true := by
  unfold availableTo
  rw [Bool.or_eq_true, beq_iff_eq, beq_iff_eq]
  exact owner_release h

end Interrupt

namespace RegisterGroup

theorem apply_congr {vm vm' : Vm} (hp : vm'.partition = vm.partition) (g : RegisterGroup) (l : Line) (v : BitVec 64)
    (s : Interrupt) : g.apply vm' l v s = g.apply vm l v s := by
  have hset : vm'.vcpuSet = vm.vcpuSet := by
    unfold Vm.vcpuSet
    rw [Vm.vcpuCount_congr hp]
  unfold apply vcpusIn
  simp only [Vm.countsRequesters_congr hp, hset, Vm.delivery_congr hp]

theorem apply_keeps (g : RegisterGroup) (vm : Vm) (l : Line) (v : BitVec 64) (s : Interrupt) :
    (g.apply vm l v s).owner = s.owner ∧ (g.apply vm l v s).resident = s.resident ∧
      (g.apply vm l v s).spilled = s.spilled ∧ (g.apply vm l v s).hardware = s.hardware := by
  cases g <;> simp only [apply] <;> (try split) <;> simp

end RegisterGroup

namespace Core

variable {c c' d e : Core} {l m : Line} {s : Interrupt} {n : Nat}

theorem sameSettings_takenBack (c : Core) (l : Line) (r : ListRegister) :
    (c.interrupt l).SameSettings (c.takenBack l r) := by
  unfold takenBack
  split <;> exact ⟨rfl, rfl, rfl, rfl, rfl, rfl, rfl, rfl⟩

/-- **What an operation leaves alone keeps its settings.** -/
theorem Fate.settings (h : Fate c c' m) : (c.interrupt m).SameSettings (c'.interrupt m) := by
  cases h with
  | kept record => rw [record]; exact .refl _
  | evicted r held busy record =>
    rw [record]
    refine (sameSettings_takenBack c m r).trans (.trans ?_ (Interrupt.sameSettings_release ..))
    exact ⟨rfl, rfl, rfl, rfl, rfl, rfl, rfl, rfl⟩
  | settled r held empty record =>
    rw [record]
    refine .trans ?_ (Interrupt.sameSettings_release ..)
    exact ⟨rfl, rfl, rfl, rfl, rfl, rfl, rfl, rfl⟩

/-! ## How handling ends -/

/-- How an operation ends that made the record of the interrupt in hand `s`. -/
inductive Final (c c' : Core) (l : Line) (s : Interrupt) : Prop
  | quiet (why : s.state.isIdle = true ∨ s.enabled = false)
    (record : c'.interrupt l = s.release c.vm.version l c.vcpu)
  | seated (n : Nat) (q : BitVec 8) (r : ListRegister) (target : (c.vm.targets l s).getLsbD c.vcpu = true)
    (record : c'.interrupt l =
      { s with requesters := q, state := .idle, resident := true, slot := n, spilled := false })
    (held : c'.held? l = some r)
    (state : s.hardware = false → c.vm.countsRequesters l = false → r.state = s.state)
    (presents : presentation c.vm l s = (r, { s with requesters := q })) (busy : s.state.isIdle = false)
  | parked (busy : s.state.isIdle = false) (target : (c.vm.targets l s).getLsbD c.vcpu = true)
    (record : c'.interrupt l = Interrupt.release { s with spilled := true } c.vm.version l c.vcpu)
    (pending : s.state.pending = true → c'.interface.control.noPending = true)
    (active : s.state.active = true → c'.interface.control.underflow = true)
  | offered (busy : s.state.isIdle = false) (target : (c.vm.targets l s).getLsbD c.vcpu = false)
    (record : c'.interrupt l = s.release c.vm.version l c.vcpu)
    (offers : s.releasable c.vm.version l c.vcpu = true → ∀ v cpu, (c.vm.targets l s).getLsbD v = true →
      c.vm.pcpuOf? v = some cpu → ∃ m ∈ (c'.bus.inbox cpu).waiting, m.About .route c.vm l)

theorem Final.rebase (h : Final d c' l s) (same : Same c d) : Final c c' l s := by
  have ht : d.vm.targets l s = c.vm.targets l s := Vm.targets_congr same.partition ..
  have hv := Vm.version_congr same.partition
  cases h with
  | quiet why record => exact .quiet why (by rw [record, hv, same.vcpu])
  | seated n q r target record held state presents busy =>
    rw [Vm.countsRequesters_congr same.partition] at state
    rw [presentation_congr same.partition] at presents
    exact .seated n q r (by rw [← ht, ← same.vcpu]; exact target) record held state presents busy
  | parked busy target record pending active =>
    exact .parked busy (by rw [← ht, ← same.vcpu]; exact target) (by rw [record, hv, same.vcpu]) pending active
  | offered busy target record offers =>
    refine .offered busy (by rw [← ht, ← same.vcpu]; exact target) (by rw [record, hv, same.vcpu])
      (fun hr v cpu hv' hc => ?_)
    obtain ⟨m, hm, ha⟩ := offers (by rw [hv, same.vcpu]; exact hr) v cpu (by rw [ht]; exact hv')
      (by rw [Vm.pcpuOf?_congr same.partition]; exact hc)
    exact ⟨m, hm, ha.congr same.partition.symm⟩

/-- An operation that took an interrupt in hand, made its record `s`, delivered it and gave it up. -/
structure Handled (c c' : Core) (l : Line) (s : Interrupt) : Prop where
  has : c.vm.Has l
  may : c.mayClaim l = true
  sound : c'.Sound
  frame : Frame l c c'
  mine : s.owner = some c.vcpu
  off : s.resident = false
  lawful : s.Lawful c.vm l
  final : Final c c' l s

theorem final_of_delivered (h : c.InHand l) (hd : Delivered c d l)
    (record : e.interrupt l = (d.interrupt l).release c.vm.version l c.vcpu) (interface : e.interface = d.interface)
    (bus : e.bus = d.bus) (vcpu : e.vcpu = d.vcpu) : Final c e l (c.interrupt l) := by
  cases hd with
  | quiet why rec =>
    rw [rec] at record
    exact .quiet why record
  | seated n target rec held busy =>
    obtain ⟨-, -, q, hq⟩ := presented_spec h.sound h.has
    have hres : (d.interrupt l).resident = true := by rw [rec]; rfl
    rw [Interrupt.release_of_resident hres] at record
    refine .seated n q (c.presented l).1 target ?_ ?_ (fun soft plain => state_presented h.sound h.has soft plain)
      (Prod.ext rfl hq) busy
    · rw [record, rec, Core.seated, hq]
    · rw [← held]
      exact held?_congr vcpu record fun _ _ => by rw [interface]
  | waits w =>
    have hrec : e.interrupt l = Interrupt.release
        { c.interrupt l with spilled := c.isTarget l || (c.interrupt l).spilled } c.vm.version l c.vcpu := by
      rcases w.record with hw | hw <;> rw [record, hw]
      exact Interrupt.release_release ..
    cases ht : c.isTarget l with
    | true =>
      rw [ht, Bool.true_or] at hrec
      refine .parked w.busy ht hrec (fun hp => ?_) (fun ha => ?_) <;> rw [interface]
      · exact w.pending ht hp
      · exact w.active ht ha
    | false =>
      rw [ht, Bool.false_or] at hrec
      refine .offered w.busy ht hrec (fun hr v cpu hv hc => ?_)
      rw [bus]
      refine w.offered hr v cpu hv ?_ hc
      rintro rfl
      exact absurd (ht.symm.trans hv) (by decide)

/-- **Delivering and giving up an interrupt in hand.** -/
theorem handled_finish (has : c.vm.Has l) (may : c.mayClaim l = true) (f : Frame l c d) (h : d.InHand l) :
    Handled c ((d.deliver l).release l) l (d.interrupt l) := by
  have hd := delivering_deliver h
  have hhas : (d.deliver l).vm.Has l := (Vm.has_congr hd.frame.partition l).2 h.has
  have hfinal : Final d ((d.deliver l).release l) l (d.interrupt l) :=
    final_of_delivered h hd.outcome
      (by rw [interrupt_release, if_pos rfl, Vm.version_congr hd.frame.partition, hd.frame.vcpu]) rfl rfl rfl
  refine ⟨has, may, hd.sound.release hhas, (f.trans hd.frame).trans (frame_release ..), ?_, h.off, ?_,
    hfinal.rebase f.toSame⟩
  · rw [h.mine, f.vcpu]
  · exact (h.sound.records l h.has).congr f.partition.symm

end Core
end VirtualGic
