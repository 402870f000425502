import VirtualGic.Proofs.Places
/-!
# What the guest is presented with

A list register that holds an interrupt shows the settings that its record has now, and only interrupts that are
enabled and target the vCPU of the core are held there.  So the guest acknowledges no others.
-/
namespace VirtualGic

/-- The number that a list register shows names the interrupt that it holds. -/
theorem ListRegister.setWidth_number (r : ListRegister) : r.number.setWidth 10 = r.intid :=
  BitVec.setWidth_append_eq_right

theorem CpuInterface.acknowledge_eq_some {f : CpuInterface} {number : BitVec 32} (h : f.acknowledge.1 = some number) :
    ∃ n, n < f.count ∧ (f.read n).state.isWaiting = true ∧ (f.read n).number = number := by
  unfold acknowledge at h
  split at h
  next =>
    cases hn : f.nextSlot? with
    | none => rw [hn] at h; cases h
    | some n =>
      rw [hn] at h
      obtain ⟨hlt, hw⟩ := (f.mem_slotsWhere _ n).1 (firstBest_mem hn)
      exact ⟨n, hlt, hw, Option.some.inj h⟩
  next => cases h

namespace Core

variable {c : Core} {n : Nat} {l : Line}

/-- List register `n` presents an interrupt, which may be presented on this core, as its record says. -/
structure Presents (c : Core) (n : Nat) (l : Line) : Prop where
  named : c.find? (c.interface.read n).intid.toNat = some l
  enabled : (c.interrupt l).enabled = true
  target : (c.vm.targets l (c.interrupt l)).getLsbD c.vcpu = true
  shows : (c.interface.read n).Shows (c.interrupt l)

theorem Sound.presents_of_busy (h : c.Sound) (busy : (c.interface.read n).state.isIdle = false) : ∃ l, c.Presents n l := by
  obtain ⟨l, hl, hc, named⟩ := h.named busy
  have lawful := h.records l hl
  have shows := (h.seated.seat l n hl hc).shows
  rw [hc.2.2] at shows
  obtain ⟨v, hv, -, target⟩ := lawful.resident_owner hc.2.1
  obtain rfl : c.vcpu = v := Option.some.inj (hc.1.symm.trans hv)
  exact ⟨l, named, lawful.resident_enabled hc.2.1, target, shows⟩

/-- What the guest of a core acknowledges is presented to it. -/
theorem Sound.presents_acknowledged (h : c.Sound) {number : BitVec 32} (ha : c.interface.acknowledge.1 = some number) :
    ∃ n l, (c.interface.read n).number = number ∧ c.find? (number.setWidth 10).toNat = some l ∧ c.Presents n l := by
  obtain ⟨n, -, waiting, e⟩ := CpuInterface.acknowledge_eq_some ha
  obtain ⟨l, hp⟩ := h.presents_of_busy (Interrupt.State.isIdle_of_isWaiting waiting)
  refine ⟨n, l, e, ?_, hp⟩
  rw [← e, ListRegister.setWidth_number]
  exact hp.named

end Core

namespace Machine

variable {m : Machine} {cpu i : Nat} {c : Core}

/-- **Only enabled interrupts are presented, and only to their targets**: in every reachable state a list register in
use shows the priority, the group and the hardware bit of the record that it names, which is enabled and targets the
vCPU of its core.  So whatever number the guest acknowledges is that of such an interrupt. -/
theorem Reachable.presents (h : m.Reachable) (hc : m.core? cpu = some (i, c)) :
    (∀ n, (c.interface.read n).state.isIdle = false → ∃ l, c.Presents n l) ∧
      ∀ number, c.interface.acknowledge.1 = some number →
        ∃ n l, (c.interface.read n).number = number ∧ c.find? (number.setWidth 10).toNat = some l ∧ c.Presents n l :=
  have hs := h.arises.sound.core hc
  ⟨fun _ busy => hs.presents_of_busy busy, fun _ ha => hs.presents_acknowledged ha⟩

theorem presents_crowded : ∃ i c, crowded.core? 0 = some (i, c) ∧ (c.interface.read 0).state.isIdle = false ∧
    c.interface.acknowledge.1 = some 32 ∧ (∃ l, c.Presents 0 l) ∧
    ∃ n l, (c.interface.read n).number = 32 ∧ c.find? ((32 : BitVec 32).setWidth 10).toNat = some l ∧ c.Presents n l := by
  have runs : (crowded.core? 0).any (fun ic => !(ic.2.interface.read 0).state.isIdle &&
      decide (ic.2.interface.acknowledge.1 = some 32)) = true := by decide +kernel
  obtain ⟨⟨i, c⟩, hc, hp⟩ := (Option.any_eq_true _ _).1 runs
  simp only [Bool.and_eq_true, Bool.not_eq_true', decide_eq_true_eq] at hp
  obtain ⟨held, acknowledged⟩ := reachable_crowded.presents hc
  exact ⟨i, c, hc, hp.1, hp.2, held 0 hp.1, acknowledged 32 hp.2⟩

end Machine
end VirtualGic
