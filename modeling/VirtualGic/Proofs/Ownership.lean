import VirtualGic.Proofs.Deed
/-!
# Ownership at rest

While no operation has it in hand, an interrupt is owned if it is active or in a list register, and otherwise only by
the vCPU whose bank holds it.
-/
namespace VirtualGic

/-- An interrupt that no operation has in hand. -/
structure Interrupt.AtRest (s : Interrupt) (l : Line) : Prop where
  active_owned : s.state.active = true → s.owner ≠ none
  owner_home : ∀ v, s.owner = some v → s.resident = false → s.state.active = false → l.home? = some v

theorem Interrupt.atRest_release {s : Interrupt} {version : GicVersion} {l : Line} {v : Nat} (mine : s.owner = some v)
    (home : version = .v2 → ∀ home, l.home? = some home → s.owner = some home) :
    (s.release version l v).AtRest l := by
  unfold release
  split
  next h =>
    simp only [releasable, Bool.and_eq_true, Bool.not_eq_true'] at h
    refine ⟨fun ha => ?_, fun w hw => (by cases hw)⟩
    rw [show ({ s with owner := none } : Interrupt).state = s.state from rfl, h.1.2] at ha
    cases ha
  next h =>
    refine ⟨fun _ => by rw [mine]; simp, fun w hw off inactive => ?_⟩
    rw [mine] at hw
    cases hw
    have ho : s.ownedBy v = true := by rw [ownedBy, mine]; exact beq_self_eq_true _
    simp only [releasable, ho, off, inactive, Bool.not_false, Bool.true_and, Bool.not_eq_true, Bool.not_eq_false',
      Bool.and_eq_true, beq_iff_eq] at h
    obtain ⟨h2, hb⟩ := h
    cases hh : l.home? with
    | none => rw [Line.isBanked, hh] at hb; cases hb
    | some k => rw [← home h2 k hh, mine]

namespace Core

variable {c c' : Core} {l m : Line} {s : Interrupt} {d : Option Deed}

theorem Final.atRest (h : Final c c' l s) (mine : s.owner = some c.vcpu) (lawful : s.Lawful c.vm l) :
    (c'.interrupt l).AtRest l := by
  cases h with
  | quiet why record => rw [record]; exact Interrupt.atRest_release mine lawful.home_owner
  | seated n q r target record =>
    rw [record]
    exact ⟨fun ha => (by cases ha), fun v _ off => (by cases off)⟩
  | parked busy target record =>
    rw [record]
    exact Interrupt.atRest_release mine lawful.home_owner
  | offered busy target record => rw [record]; exact Interrupt.atRest_release mine lawful.home_owner

theorem Fate.atRest (h : Fate c c' m) (hs : c.Sound) (hm : c.vm.Has m) (rest : (c.interrupt m).AtRest m) :
    (c'.interrupt m).AtRest m := by
  have lawful := hs.records m hm
  cases h with
  | kept record => rw [record]; exact rest
  | evicted r held busy record =>
    have ho := owner_takenBack c m r
    rw [record]
    exact Interrupt.atRest_release (ho.trans (owner_of_held held))
      (fun h2 home hh => ho.trans (lawful.home_owner h2 home hh))
  | settled r held empty record =>
    rw [record]
    exact Interrupt.atRest_release (owner_of_held held) lawful.home_owner

/-- **Whatever a core does, its interrupts are at rest afterwards.** -/
theorem Does.atRest (h : Does c c' d) (hs : c.Sound) (rest : ∀ m, c.vm.Has m → (c.interrupt m).AtRest m) (hm : c.vm.Has m) :
    (c'.interrupt m).AtRest m := by
  cases h with
  | handled l s deed h =>
    by_cases hml : m = l
    · subst hml
      exact h.final.atRest h.mine h.lawful
    · exact (h.frame.fate m hm hml).atRest hs hm (rest m hm)
  | returned l has may eq =>
    rw [eq, interrupt_returned may]
    split
    next e =>
      subst e
      refine Interrupt.atRest_release rfl (fun h2 home hh => ?_)
      have ho := (hs.records l has).home_owner h2 home hh
      rcases (c.mayClaim_iff l).1 may with he | he
      · rw [he] at ho; cases ho
      · exact he.symm.trans ho
    next => exact rest m hm
  | forwarded g l v h => rw [h.posted.interrupt]; exact rest m hm
  | posted r other h => rw [h.interrupt]; exact rest m hm
  | restated a n has credited guest eq =>
    rw [eq]
    exact rest m hm
  | aside h => rw [h.interrupt]; exact rest m hm
  | dropped pendingOnly drained eq =>
    rw [eq]
    exact rest m hm

theorem Runs.atRest {ds : List Deed} (h : Runs c ds c') (hs : c.Sound) (rest : ∀ m, c.vm.Has m → (c.interrupt m).AtRest m)
    (hm : c.vm.Has m) : (c'.interrupt m).AtRest m := by
  induction h with
  | nil => exact rest m hm
  | cons hd _ ih =>
    have hp := hd.same.partition
    exact ih (hd.sound hs) (fun k hk => hd.atRest hs rest ((Vm.has_congr hp k).1 hk)) ((Vm.has_congr hp m).2 hm)

end Core
end VirtualGic
