import VirtualGic.Proofs.Record
/-!
# Custody

Who holds an interrupt.  `Interrupt.Lawful` is what its record says on its own, `Vm.Listed` that the spill lists hold
the spilled interrupts, `Vm.Seated` that the list registers of a vCPU and the records agree about who sits where.
`Core.Sound` puts them together for the core of a VM's vCPU.  They hold between any two writes that belong together;
the lemmas here say so for each of these, and for what a core does not look at.
-/
namespace VirtualGic

/-- What the record of an interrupt satisfies at all times. -/
structure Interrupt.Lawful (s : Interrupt) (vm : Vm) (l : Line) : Prop where
  owner_lt : ∀ v, s.owner = some v → v < vm.vcpuCount
  home_owner : vm.version = .v2 → ∀ home, l.home? = some home → s.owner = some home
  resident_owner : s.resident = true →
    ∃ v, s.owner = some v ∧ l.SeenBy v ∧ (vm.targets l s).getLsbD v = true
  resident_enabled : s.resident = true → s.enabled = true
  resident_idle : s.resident = true → s.state = .idle
  resident_unspilled : s.resident = true → s.spilled = false
  spilled_busy : s.spilled = true → s.state.isIdle = false
  passed : s.hardware = true ↔ l.id ∈ vm.partition.passthrough

theorem Interrupt.Lawful.congr {s : Interrupt} {vm vm' : Vm} {l : Line} (h : s.Lawful vm l)
    (hp : vm'.partition = vm.partition) : s.Lawful vm' l := by
  refine ⟨fun v hv => ?_, fun h2 => h.home_owner (by rw [← Vm.version_congr hp]; exact h2), fun hr => ?_,
    h.resident_enabled, h.resident_idle, h.resident_unspilled, h.spilled_busy, by rw [hp]; exact h.passed⟩
  · rw [Vm.vcpuCount_congr hp]
    exact h.owner_lt v hv
  · rw [Vm.targets_congr hp]
    exact h.resident_owner hr

/-- The record of an interrupt that is in no list register. -/
theorem Interrupt.Lawful.of_off {s : Interrupt} {vm : Vm} {l : Line} (off : s.resident = false)
    (owner_lt : ∀ v, s.owner = some v → v < vm.vcpuCount)
    (home_owner : vm.version = .v2 → ∀ home, l.home? = some home → s.owner = some home)
    (spilled_busy : s.spilled = true → s.state.isIdle = false)
    (passed : s.hardware = true ↔ l.id ∈ vm.partition.passthrough) : s.Lawful vm l := by
  refine ⟨owner_lt, home_owner, ?_, ?_, ?_, ?_, spilled_busy, passed⟩ <;> intro hr <;> rw [off] at hr <;> cases hr

/-- A list register shows the settings of the interrupt that it holds. -/
structure ListRegister.Shows (r : ListRegister) (s : Interrupt) : Prop where
  priority : r.priority = s.priority
  group1 : r.group1 = s.group1
  hardware : r.hardware = s.hardware

namespace Vm

/-- Slot `n` of a vCPU is credited to an interrupt. -/
def Credits (vm : Vm) (vcpu : Nat) (l : Line) (n : Nat) : Prop :=
  (vm.interrupt l).owner = some vcpu ∧ (vm.interrupt l).resident = true ∧ (vm.interrupt l).slot = n

/-- The spill lists hold the spilled interrupts, each once and each on its own list. -/
structure Listed (vm : Vm) : Prop where
  mem_iff : ∀ l, vm.Has l → (l.id ∈ vm.spillList l.home? ↔ (vm.interrupt l).spilled = true)
  nodup : ∀ home, (vm.spillList home).Nodup
  has : ∀ home id, id ∈ vm.spillList home → ∃ l, vm.Has l ∧ l.home? = home ∧ l.id = id

/-- What an interface has to say about an interrupt that a slot of it is credited to. -/
structure Seat (vm : Vm) (vcpu : Nat) (f : CpuInterface) (l : Line) : Prop where
  slot_lt : (vm.interrupt l).slot < f.count
  names : (f.read (vm.interrupt l).slot).names l.id = true
  occupant : vm.occupant? vcpu (vm.interrupt l).slot = some l.id
  shows : (f.read (vm.interrupt l).slot).Shows (vm.interrupt l)

/-- The list registers of a vCPU hold the interrupts that are credited with them. -/
structure Seated (vm : Vm) (vcpu : Nat) (f : CpuInterface) : Prop where
  held : ∀ n, (f.read n).isEmpty = false →
    ∃ l, vm.Has l ∧ l.SeenBy vcpu ∧ l.id = (f.read n).intid.toNat ∧ vm.Credits vcpu l n
  seat : ∀ l n, vm.Has l → vm.Credits vcpu l n → vm.Seat vcpu f l

variable {vm vm' : Vm} {vcpu : Nat} {f f' : CpuInterface} {l : Line}

theorem Credits.slot_eq {n k : Nat} (h : vm.Credits vcpu l n) (h' : vm.Credits vcpu l k) : n = k :=
  h.2.2.symm.trans h'.2.2

theorem Listed.congr (h : vm.Listed) (hp : vm'.partition = vm.partition)
    (hl : ∀ home, vm'.spillList home = vm.spillList home)
    (hs : ∀ l, vm.Has l → (vm'.interrupt l).spilled = (vm.interrupt l).spilled) : vm'.Listed := by
  refine ⟨fun l hl' => ?_, fun home => ?_, fun home id hm => ?_⟩
  · have hl' := (has_congr hp l).1 hl'
    rw [hl, hs l hl']
    exact h.mem_iff l hl'
  · rw [hl]
    exact h.nodup home
  · rw [hl] at hm
    obtain ⟨l, hh, h1, h2⟩ := h.has home id hm
    exact ⟨l, (has_congr hp l).2 hh, h1, h2⟩

/-- **Only the records of residents matter to their seats.** -/
theorem Seated.congr (h : vm.Seated vcpu f) (hp : vm'.partition = vm.partition)
    (hs : ∀ l n, vm.Has l → vm.Credits vcpu l n ∨ vm'.Credits vcpu l n → vm'.interrupt l = vm.interrupt l)
    (ho : ∀ n, vm'.occupant? vcpu n = vm.occupant? vcpu n) : vm'.Seated vcpu f := by
  refine ⟨fun n hn => ?_, fun l n hl hc => ?_⟩
  · obtain ⟨l, hl, hseen, hid, hc⟩ := h.held n hn
    have e := hs l n hl (.inl hc)
    exact ⟨l, (has_congr hp l).2 hl, hseen, hid, by unfold Credits; rw [e]; exact hc⟩
  · have hl := (has_congr hp l).1 hl
    have e := hs l n hl (.inr hc)
    have hc : vm.Credits vcpu l n := by unfold Credits at hc ⊢; rw [e] at hc; exact hc
    obtain ⟨h1, h2, h3, h4⟩ := h.seat l n hl hc
    refine ⟨?_, ?_, ?_, ?_⟩ <;> rw [e]
    · exact h1
    · exact h2
    · rw [ho]; exact h3
    · exact h4

theorem Listed.park (h : vm.Listed) (hl : vm.Has l) : (vm.park l).Listed := by
  by_cases hsp : (vm.interrupt l).spilled = true
  · have e : vm.park l = vm := by simp only [Vm.park, hsp, if_true]
    rw [e]
    exact h
  have hsp : (vm.interrupt l).spilled = false := by simpa using hsp
  have hp : (vm.park l).partition = vm.partition := partition_park ..
  have new : l.id ∉ vm.spillList l.home? := fun hm => by
    have := (h.mem_iff l hl).1 hm
    rw [hsp] at this
    cases this
  refine ⟨fun k hk => ?_, fun home => ?_, fun home id hm => ?_⟩
  · have hk := (has_congr hp k).1 hk
    rw [spillList_park _ _ _ new hsp, interrupt_park]
    by_cases e : l = k
    · subst e
      simp
    · rw [if_neg e, ← h.mem_iff k hk]
      by_cases hh : l.home? = k.home?
      · rw [if_pos hh, List.mem_append, List.mem_singleton, or_iff_left]
        intro hid
        exact e (eq_of_home hl hk hh hid.symm)
      · rw [if_neg hh]
  · rw [spillList_park _ _ _ new hsp]
    split
    next hh =>
      rw [List.nodup_append]
      refine ⟨h.nodup home, by simp, fun a ha b hb => ?_⟩
      rw [List.mem_singleton] at hb
      rintro rfl
      exact new (by rw [hh, ← hb]; exact ha)
    next => exact h.nodup home
  · rw [spillList_park _ _ _ new hsp] at hm
    split at hm
    next hh =>
      rcases List.mem_append.1 hm with hm | hm
      · obtain ⟨k, hk, h1, h2⟩ := h.has home id hm
        exact ⟨k, (has_congr hp k).2 hk, h1, h2⟩
      · exact ⟨l, (has_congr hp l).2 hl, hh, (List.mem_singleton.1 hm).symm⟩
    next =>
      obtain ⟨k, hk, h1, h2⟩ := h.has home id hm
      exact ⟨k, (has_congr hp k).2 hk, h1, h2⟩

theorem Listed.unpark (h : vm.Listed) (hl : vm.Has l) : (vm.unpark l).Listed := by
  by_cases hsp : (vm.interrupt l).spilled = true
  · have hp : (vm.unpark l).partition = vm.partition := partition_unpark ..
    refine ⟨fun k hk => ?_, fun home => ?_, fun home id hm => ?_⟩
    · have hk := (has_congr hp k).1 hk
      rw [spillList_unpark _ _ _ hsp, interrupt_unpark]
      by_cases e : l = k
      · subst e
        simp
      · rw [if_neg e, ← h.mem_iff k hk]
        by_cases hh : l.home? = k.home?
        · rw [if_pos hh, List.mem_filter, and_iff_left]
          simp only [bne_iff_ne, ne_eq]
          exact fun hid => e (eq_of_home hl hk hh hid.symm)
        · rw [if_neg hh]
    · rw [spillList_unpark _ _ _ hsp]
      split
      next => exact (h.nodup home).filter _
      next => exact h.nodup home
    · rw [spillList_unpark _ _ _ hsp] at hm
      have hm : id ∈ vm.spillList home := by
        split at hm
        next => exact (List.mem_filter.1 hm).1
        next => exact hm
      obtain ⟨k, hk, h1, h2⟩ := h.has home id hm
      exact ⟨k, (has_congr hp k).2 hk, h1, h2⟩
  · have e : vm.unpark l = vm := by simp only [Vm.unpark, hsp, Bool.false_eq_true, if_false]
    rw [e]
    exact h

/-- A write to the record of an interrupt that is in no list register, before and after, moves none. -/
theorem Seated.aside (h : vm.Seated vcpu f) (hp : vm'.partition = vm.partition)
    (hothers : ∀ k, k ≠ l → vm'.interrupt k = vm.interrupt k) (off : (vm.interrupt l).resident = false)
    (off' : (vm'.interrupt l).resident = false) (ho : ∀ n, vm'.occupant? vcpu n = vm.occupant? vcpu n) :
    vm'.Seated vcpu f := by
  refine h.congr hp (fun k n _ hc => hothers k ?_) ho
  rintro rfl
  rcases hc with hc | hc
  · exact absurd (off.symm.trans hc.2.1) (by decide)
  · exact absurd (off'.symm.trans hc.2.1) (by decide)

theorem Seated.congr_interface (h : vm.Seated vcpu f) (hc : f'.count = f.count) (hr : ∀ n, f'.read n = f.read n) :
    vm.Seated vcpu f' := by
  refine ⟨fun n hn => ?_, fun l n hl hcr => ?_⟩
  · rw [hr] at hn ⊢
    exact h.held n hn
  · obtain ⟨h1, h2, h3, h4⟩ := h.seat l n hl hcr
    exact ⟨by rw [hc]; exact h1, by rw [hr]; exact h2, h3, by rw [hr]; exact h4⟩

theorem Seated.vacate {n : Nat} (h : vm.Seated vcpu f)
    (seen : ∀ k m, vm.Has k → vm.Credits vcpu k m → k.SeenBy vcpu) (hl : vm.Has l) (hc : vm.Credits vcpu l n)
    (hp : vm'.partition = vm.partition) (hothers : ∀ k, k ≠ l → vm'.interrupt k = vm.interrupt k)
    (off : (vm'.interrupt l).resident = false) (ho : ∀ m, vm'.occupant? vcpu m = vm.occupant? vcpu m)
    (hcount : f'.count = f.count) (hread : ∀ m, m ≠ n → f'.read m = f.read m)
    (hempty : (f'.read n).isEmpty = true) : vm'.Seated vcpu f' := by
  refine ⟨fun m hm => ?_, fun k m hk hcr => ?_⟩
  · have hmn : m ≠ n := fun e => by rw [e, hempty] at hm; cases hm
    rw [hread m hmn] at hm ⊢
    obtain ⟨k, hk, hseen, hid, hck⟩ := h.held m hm
    have hkl : k ≠ l := fun e => by subst e; exact hmn (hck.slot_eq hc)
    refine ⟨k, (has_congr hp k).2 hk, hseen, hid, ?_⟩
    unfold Credits
    rw [hothers k hkl]
    exact hck
  · have hk := (has_congr hp k).1 hk
    have hkl : k ≠ l := fun e => by
      subst e
      have := hcr.2.1
      rw [off] at this
      cases this
    have e := hothers k hkl
    have hck : vm.Credits vcpu k m := by unfold Credits at hcr ⊢; rw [e] at hcr; exact hcr
    obtain ⟨h1, h2, h3, h4⟩ := h.seat k m hk hck
    have hmn : (vm.interrupt k).slot ≠ n := by
      intro hslot
      rw [hslot] at h2
      have hnl := (h.seat l n hl hc).names
      rw [hc.2.2] at hnl
      simp only [ListRegister.names, beq_iff_eq] at h2 hnl
      exact hkl (eq_of_id hk hl (seen k m hk hck) (seen l n hl hc) (h2.symm.trans hnl))
    refine ⟨?_, ?_, ?_, ?_⟩ <;> rw [e]
    · rw [hcount]; exact h1
    · rw [hread _ hmn]; exact h2
    · rw [ho]; exact h3
    · rw [hread _ hmn]; exact h4

theorem Seated.take {n : Nat} {r : ListRegister} (h : vm.Seated vcpu f) (hn : n < f.count)
    (free : ∀ k, vm.Has k → ¬ vm.Credits vcpu k n) (hl : vm.Has l) (seen : l.SeenBy vcpu)
    (off : (vm.interrupt l).resident = false) (hp : vm'.partition = vm.partition)
    (hothers : ∀ k, k ≠ l → vm'.interrupt k = vm.interrupt k) (hc : vm'.Credits vcpu l n)
    (ho : vm'.occupant? vcpu n = some l.id) (ho' : ∀ m, m ≠ n → vm'.occupant? vcpu m = vm.occupant? vcpu m)
    (names : r.names l.id = true) (shows : r.Shows (vm'.interrupt l)) : vm'.Seated vcpu (f.write n r) := by
  have hw : (f.write n r).read n = r := by rw [CpuInterface.read_write, if_pos ⟨rfl, hn⟩]
  have hw' : ∀ m, m ≠ n → (f.write n r).read m = f.read m := fun m hm => by
    rw [CpuInterface.read_write, if_neg (fun e => hm e.1.symm)]
  refine ⟨fun m hm => ?_, fun k m hk hcr => ?_⟩
  · by_cases hmn : m = n
    · subst hmn
      rw [hw]
      simp only [ListRegister.names, beq_iff_eq] at names
      exact ⟨l, (has_congr hp l).2 hl, seen, names.symm, hc⟩
    · rw [hw' m hmn] at hm ⊢
      obtain ⟨k, hk, hseen, hid, hck⟩ := h.held m hm
      have hkl : k ≠ l := fun e => by
        subst e
        have := hck.2.1
        rw [off] at this
        cases this
      refine ⟨k, (has_congr hp k).2 hk, hseen, hid, ?_⟩
      unfold Credits
      rw [hothers k hkl]
      exact hck
  · by_cases hkl : k = l
    · subst hkl
      have hs := hc.2.2
      refine ⟨?_, ?_, ?_, ?_⟩ <;> rw [hs]
      · rw [CpuInterface.count_write]; exact hn
      · rw [hw]; exact names
      · exact ho
      · rw [hw]; exact shows
    · have hk := (has_congr hp k).1 hk
      have e := hothers k hkl
      have hck : vm.Credits vcpu k m := by unfold Credits at hcr ⊢; rw [e] at hcr; exact hcr
      have hmn : (vm.interrupt k).slot ≠ n := fun hs => free k hk ⟨hck.1, hck.2.1, hs⟩
      obtain ⟨h1, h2, h3, h4⟩ := h.seat k m hk hck
      refine ⟨?_, ?_, ?_, ?_⟩ <;> rw [e]
      · rw [CpuInterface.count_write]; exact h1
      · rw [hw' _ hmn]; exact h2
      · rw [ho' _ hmn]; exact h3
      · rw [hw' _ hmn]; exact h4

end Vm
end VirtualGic
