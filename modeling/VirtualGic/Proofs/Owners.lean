import VirtualGic.Proofs.Reach
/-!
# Who owns what

`Machine.Ownership`: what is in a list register or active has an owner, nothing else has one except by birth, and a
CPU only ever takes an interrupt that is free or gives up one of its own.
-/
namespace VirtualGic.Machine

variable {m m' : Machine} {cpu i : Nat} {c c' : Core} {a : Action}

/-- Between two states of a machine a CPU has only worked on its core. -/
structure Worked (cpu i : Nat) (c : Core) (m m' : Machine) : Prop where
  core : ∃ c', m'.core? cpu = some (i, c') ∧ Core.Local c c'
  others : ∀ j, j ≠ i → m'.vms[j]? = m.vms[j]?

/-- **Whatever happens on a CPU, polls included, is work on its core.** -/
theorem Arises.worked (h : m.Arises) (hc : m.core? cpu = some (i, c)) (a : Action) :
    Worked cpu i c m (m.step ⟨cpu, a⟩) := by
  refine h.keeps ⟨⟨c, hc, .refl c⟩, fun _ _ => rfl⟩ fun m' j d ds d' h' hw hd hmv => ?_
  obtain ⟨c', hc', hl⟩ := hw.core
  rw [hc'] at hd
  cases hd
  have hmove := hmv.local_ (h'.sound.core hc')
  exact ⟨⟨d', core?_putCore hc' hmove.cpu hmove.vcpu, hl.trans hmove⟩, fun k hk =>
    (vms_putCore _ _ _ _ (Ne.symm hk)).trans (hw.others k hk)⟩

structure Ownership (m : Machine) : Prop where
  /-- What is in a list register or active has an owner. -/
  owned : ∀ {i : Nat} {vm : Vm} {l : Line}, m.vms[i]? = some vm → vm.Has l →
    (vm.interrupt l).resident = true ∨ (vm.interrupt l).state.active = true → ∃ v, (vm.interrupt l).owner = some v
  /-- What is neither belongs to nobody but the vCPU whose bank holds it. -/
  free : ∀ {i v : Nat} {vm : Vm} {l : Line}, m.vms[i]? = some vm → vm.Has l → (vm.interrupt l).owner = some v →
    (vm.interrupt l).resident = false → (vm.interrupt l).state.active = false → l.home? = some v
  /-- A banked interrupt is in no list register but its home's. -/
  home : ∀ {i home : Nat} {vm : Vm} {l : Line}, m.vms[i]? = some vm → vm.Has l → l.home? = some home →
    (vm.interrupt l).resident = true → (vm.interrupt l).owner = some home
  /-- Under version 2 a banked interrupt is always its home's. -/
  fixed : ∀ {i home : Nat} {vm : Vm} {l : Line}, m.vms[i]? = some vm → vm.Has l → vm.version = .v2 →
    l.home? = some home → (vm.interrupt l).owner = some home
  /-- A CPU takes what is free for its vCPU, or gives up what its vCPU owns. -/
  handover : ∀ {cpu i : Nat} {vm vm' : Vm} {l : Line} (a : Action), m.vms[i]? = some vm → vm.Has l →
    (m.step ⟨cpu, a⟩).vms[i]? = some vm' → (vm'.interrupt l).owner ≠ (vm.interrupt l).owner →
    ∃ v, vm.pcpuOf? v = some cpu ∧
      ((vm.interrupt l).owner = none ∧ (vm'.interrupt l).owner = some v ∨
        (vm.interrupt l).owner = some v ∧ (vm'.interrupt l).owner = none)

theorem Arises.handover (h : m.Arises) {vm vm' : Vm} {l : Line} (a : Action) (hvm : m.vms[i]? = some vm) (hl : vm.Has l)
    (hvm' : (m.step ⟨cpu, a⟩).vms[i]? = some vm') (moved : (vm'.interrupt l).owner ≠ (vm.interrupt l).owner) :
    ∃ v, vm.pcpuOf? v = some cpu ∧
      ((vm.interrupt l).owner = none ∧ (vm'.interrupt l).owner = some v ∨
        (vm.interrupt l).owner = some v ∧ (vm'.interrupt l).owner = none) := by
  cases hc : m.core? cpu with
  | none =>
    rw [step_of_idle hc, hvm] at hvm'
    cases hvm'
    exact absurd rfl moved
  | some ic =>
    obtain ⟨j, c⟩ := ic
    have hw := h.worked hc a
    by_cases hj : i = j
    · subst hj
      obtain ⟨c', hc', hloc⟩ := hw.core
      obtain rfl := Option.some.inj ((vm_of_core? hc).symm.trans hvm)
      obtain rfl := Option.some.inj ((vm_of_core? hc').symm.trans hvm')
      have here := h.sound.here hc
      rcases hloc.record l hl with e | ⟨before, after⟩
      · exact absurd (congrArg Interrupt.owner e) moved
      · refine ⟨c.vcpu, here, ?_⟩
        rw [c.mayClaim_iff] at before
        rw [c'.mayClaim_iff, hloc.vcpu] at after
        -- free or this vCPU's on both sides, and not the same
        rcases before with free | mine <;> rcases after with free' | mine'
        · exact absurd (free'.trans free.symm) moved
        · exact .inl ⟨free, mine'⟩
        · exact .inr ⟨mine, free'⟩
        · exact absurd (mine'.trans mine.symm) moved
    · rw [hw.others i hj, hvm] at hvm'
      cases hvm'
      exact absurd rfl moved

/-- **Ownership is held by those who need it, and changes hands only through being free.** -/
theorem Reachable.ownership (h : m.Reachable) : m.Ownership where
  owned := fun {i vm l} hvm hl busy => by
    rcases busy with resident | active
    · obtain ⟨v, ho, -, -⟩ := (h.arises.sound.records hvm l hl).resident_owner resident
      exact ⟨v, ho⟩
    · exact Option.ne_none_iff_exists'.1 ((h.arises.sound.rest hvm l hl).active_owned active)
  free := fun {i v vm l} hvm hl ho off inactive => (h.arises.sound.rest hvm l hl).owner_home v ho off inactive
  home := fun {i home vm l} hvm hl hh resident => by
    obtain ⟨v, ho, seen, -⟩ := (h.arises.sound.records hvm l hl).resident_owner resident
    rw [ho, seen home hh]
  fixed := fun {i home vm l} hvm hl h2 hh => (h.arises.sound.records hvm l hl).home_owner h2 home hh
  handover := fun a hvm hl hvm' moved => h.arises.handover a hvm hl hvm' moved

theorem ownership_crowded : (crowded.firstVm.interrupt (.shared 32)).owner = some 0 ∧
    (crowded.firstVm.interrupt (.shared 33)).owner = none ∧ crowded.Ownership :=
  ⟨by decide +kernel, by decide +kernel, reachable_crowded.ownership⟩

end VirtualGic.Machine
