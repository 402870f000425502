import VirtualGic.Proofs.Ownership
/-!
# Nobody is forgotten

A pending interrupt that is in no list register is covered: a core of one of its targets has a message about it, or
it is parked and such a core has asked for maintenance.  Whatever a core does keeps this, for the messages and the
requests of all cores together.
-/
namespace VirtualGic

/-- Pending and enabled, in no list register, and with a vCPU to take it. -/
structure Vm.Stranded (vm : Vm) (l : Line) : Prop where
  state : (vm.interrupt l).state = ⟨true, false⟩
  enabled : (vm.interrupt l).enabled = true
  off : (vm.interrupt l).resident = false
  targets : vm.targets l (vm.interrupt l) ≠ 0

/-- A core of one of its targets has been told to present the interrupt. -/
def Vm.Told (vm : Vm) (waiting : Nat → List Message) (l : Line) : Prop :=
  ∃ v cpu m, (vm.targets l (vm.interrupt l)).getLsbD v = true ∧ vm.pcpuOf? v = some cpu ∧ m ∈ waiting cpu ∧
    m.About .route vm l

/-- The interrupt is parked, and a core that may take it wants maintenance when nothing is pending there. -/
def Vm.Awaited (vm : Vm) (noPending : Nat → Bool) (l : Line) : Prop :=
  (vm.interrupt l).spilled = true ∧
    ∃ v cpu, (vm.targets l (vm.interrupt l)).getLsbD v = true ∧ (vm.interrupt l).availableTo v = true ∧
      vm.pcpuOf? v = some cpu ∧ noPending cpu = true

def Vm.Covered (vm : Vm) (waiting : Nat → List Message) (noPending : Nat → Bool) (l : Line) : Prop :=
  vm.Stranded l → vm.Told waiting l ∨ vm.Awaited noPending l

namespace Vm

variable {vm vm' : Vm} {waiting waiting' : Nat → List Message} {noPending noPending' : Nat → Bool} {l : Line}

theorem Covered.mono (h : vm.Covered waiting noPending l) (hp : vm'.partition = vm.partition)
    (hi : vm'.interrupt l = vm.interrupt l)
    (hw : ∀ v cpu, vm.pcpuOf? v = some cpu → ∀ m ∈ waiting cpu, m ∈ waiting' cpu)
    (hn : ∀ v cpu, vm.pcpuOf? v = some cpu → noPending cpu = true → noPending' cpu = true) :
    vm'.Covered waiting' noPending' l := by
  intro hs
  have ht : vm'.targets l (vm'.interrupt l) = vm.targets l (vm.interrupt l) := by rw [hi, targets_congr hp]
  obtain ⟨h1, h2, h3, h4⟩ := hs
  rw [hi] at h1 h2 h3
  rw [ht] at h4
  rcases h ⟨h1, h2, h3, h4⟩ with ⟨v, cpu, m, hv, hc, hm, ha⟩ | ⟨hsp, v, cpu, hv, hav, hc, hnp⟩
  · exact .inl ⟨v, cpu, m, by rw [ht]; exact hv, by rw [pcpuOf?_congr hp]; exact hc, hw v cpu hc m hm, ha.congr hp⟩
  · exact .inr ⟨by rw [hi]; exact hsp, v, cpu, by rw [ht]; exact hv, by rw [hi]; exact hav,
      by rw [pcpuOf?_congr hp]; exact hc, hn v cpu hc hnp⟩

end Vm

/-- What is not with its home is not one of the interrupts that stay there. -/
theorem Interrupt.Lawful.unbanked {s : Interrupt} {vm : Vm} {l : Line} (h : s.Lawful vm l)
    (away : ∀ home, l.home? = some home → s.owner ≠ some home) : (vm.version == .v2 && l.isBanked) = false := by
  cases hver : (vm.version == .v2 && l.isBanked) with
  | false => rfl
  | true =>
    rw [Bool.and_eq_true, beq_iff_eq] at hver
    cases hh : l.home? with
    | none => rw [Line.isBanked, hh] at hver; cases hver.2
    | some home => exact absurd (h.home_owner hver.1 home hh) (away home hh)

namespace Core

variable {c c' : Core} {l m : Line} {s : Interrupt} {d : Option Deed} {others : Nat → Bool}

/-- The messages that wait, as a core sees the bus. -/
def waiting (c : Core) (cpu : Nat) : List Message := (c.bus.inbox cpu).waiting

/-- Who wants maintenance when nothing is pending, given what is so of the other cores. -/
def noPending (c : Core) (others : Nat → Bool) (cpu : Nat) : Bool :=
  if cpu = c.cpu then c.interface.control.noPending else others cpu

def Covered (c : Core) (others : Nat → Bool) (l : Line) : Prop := c.vm.Covered c.waiting (c.noPending others) l

theorem noPending_mono (hc : c'.cpu = c.cpu)
    (h : c.interface.control.noPending = true → c'.interface.control.noPending = true) (cpu : Nat)
    (hn : c.noPending others cpu = true) : c'.noPending others cpu = true := by
  unfold noPending at hn ⊢
  rw [hc]
  split at hn
  next hcpu => rw [if_pos hcpu]; exact h hn
  next hcpu => rw [if_neg hcpu]; exact hn

theorem noPending_self (h : c.interface.control.noPending = true) : c.noPending others c.cpu = true := by
  unfold noPending
  rw [if_pos rfl]
  exact h

theorem covered_of_parked (hs : c.Sound) (same : Same c c') (spilled : (c'.interrupt l).spilled = true)
    (target : (c.vm.targets l (c'.interrupt l)).getLsbD c.vcpu = true)
    (owner : (c'.interrupt l).owner = none ∨ (c'.interrupt l).owner = some c.vcpu)
    (armed : (c'.interrupt l).state = ⟨true, false⟩ → c'.interface.control.noPending = true) : c'.Covered others l := by
  intro hst
  refine .inr ⟨spilled, c.vcpu, c.cpu, ?_, ?_, ?_, ?_⟩
  · rw [Vm.targets_congr same.partition]
    exact target
  · have := (c'.mayClaim_iff l).2 (by rw [same.vcpu]; exact owner)
    rw [← same.vcpu]
    exact this
  · rw [Vm.pcpuOf?_congr same.partition]
    exact hs.station.here
  · rw [← same.cpu]
    exact noPending_self (armed hst.state)

theorem targets_release (vm : Vm) (l k : Line) (s : Interrupt) (version : GicVersion) (v : Nat) :
    vm.targets l (s.release version k v) = vm.targets l s := by
  rcases s.release_eq version k v with e | e <;> rw [e]
  rfl

theorem exists_target {x : CpuSet} (h : x ≠ 0) : ∃ v, x.getLsbD v = true := by
  refine Classical.byContradiction fun hn => h ?_
  apply BitVec.eq_of_getLsbD_eq
  intro i _
  cases hb : x.getLsbD i with
  | false => exact BitVec.getLsbD_zero.symm
  | true => exact absurd ⟨i, hb⟩ hn

/-- What is pending for another vCPU may be given up: what is banked under version 2 targets the vCPU that owns it. -/
theorem Handled.releasable (h : Handled c c' l s) (pending : s.state = ⟨true, false⟩) {v : Nat}
    (hv : (c.vm.targets l s).getLsbD v = true) (target : (c.vm.targets l s).getLsbD c.vcpu = false) :
    s.releasable c.vm.version l c.vcpu = true := by
  have owned : s.ownedBy c.vcpu = true := by
    rw [Interrupt.ownedBy, h.mine]
    exact beq_self_eq_true _
  have unbanked : (c.vm.version == .v2 && l.isBanked) = false := h.lawful.unbanked fun home hh hown => by
    rw [h.mine] at hown
    rw [← Line.seenBy_of_target hv home hh, ← Option.some.inj hown, target] at hv
    cases hv
  simp only [Interrupt.releasable, owned, h.off, pending, unbanked, Bool.not_false, Bool.and_self]

/-- **The interrupt in hand ends covered.** -/
theorem Handled.covered (h : Handled c c' l s) (hs : c.Sound) : c'.Covered others l := by
  have same := h.frame.toSame
  cases h.final with
  | quiet why record =>
    intro hst
    have hrec : c'.vm.interrupt l = s.release c.vm.version l c.vcpu := record
    rcases why with hidle | hdis
    · have := hst.state
      rw [hrec, Interrupt.state_release] at this
      rw [this] at hidle
      cases hidle
    · have := hst.enabled
      rw [hrec, (Interrupt.sameSettings_release ..).enabled, hdis] at this
      cases this
  | seated n q r target record =>
    intro hst
    have := hst.off
    rw [show c'.vm.interrupt l = _ from record] at this
    cases this
  | parked busy target record pending =>
    refine covered_of_parked hs same ?_ ?_ (h.final.owner h.mine) (fun hst => pending ?_)
    · rw [record, Interrupt.spilled_release]
    · rw [record, targets_release]
      exact target
    · rw [record, Interrupt.state_release] at hst
      rw [show s.state = _ from hst]
  | offered busy target record offers =>
    intro hst
    have hrec : c'.vm.interrupt l = s.release c.vm.version l c.vcpu := record
    obtain ⟨h1, -, -, h4⟩ := hst
    rw [hrec, Interrupt.state_release] at h1
    rw [hrec, targets_release, Vm.targets_congr same.partition] at h4
    obtain ⟨v, hv⟩ := exists_target h4
    have hrel := h.releasable h1 hv target
    obtain ⟨cpu, hcpu⟩ := Vm.exists_pcpuOf? (Vm.target_lt hs.station.checked h.has hv)
    obtain ⟨m, hm, ha⟩ := offers hrel v cpu hv hcpu
    refine .inl ⟨v, cpu, m, ?_, by rw [Vm.pcpuOf?_congr same.partition]; exact hcpu, hm, ha.congr same.partition⟩
    rw [hrec, targets_release, Vm.targets_congr same.partition]
    exact hv

/-- **What an operation leaves alone stays covered**, and what it evicts becomes so. -/
theorem Fate.covered (h : Fate c c' m) (hs : c.Sound) (hm : c.vm.Has m) (same : Same c c')
    (kept : Control.Kept c.interface.control c'.interface.control)
    (grew : ∀ cpu, ∀ msg ∈ c.waiting cpu, msg ∈ c'.waiting cpu) (hc : c.Covered others m) : c'.Covered others m := by
  have owner := h.owner
  cases h with
  | kept record =>
    exact Vm.Covered.mono hc same.partition record (fun _ cpu _ => grew cpu)
      (fun _ cpu _ => noPending_mono same.cpu kept.noPending cpu)
  | evicted r held busy record pending =>
    obtain ⟨n, hcr, -⟩ := (c.held?_eq_some_iff m r).1 held
    obtain ⟨v, hv, -, ht⟩ := (hs.records m hm).resident_owner hcr.2.1
    rw [owner_of_held held] at hv
    cases hv
    have hset := sameSettings_takenBack c m r
    refine covered_of_parked hs same ?_ ?_ ?_ (fun hst => pending ?_)
    · rw [record, Interrupt.spilled_release]
    · rw [record, targets_release]
      unfold Vm.targets at ht ⊢
      simp only [hset.targets, hset.route]
      exact ht
    · rcases owner with e | ⟨-, ho⟩
      · exact .inr (by rw [e]; exact owner_of_held held)
      · exact ho
    · rw [record, Interrupt.state_release] at hst
      rw [show (c.takenBack m r).state = _ from hst]
  | settled r held empty record =>
    intro hst
    have := hst.state
    rw [show c'.vm.interrupt m = _ from record, Interrupt.state_release] at this
    cases this

theorem covered_returned (hs : c.Sound) (has : c.vm.Has l) (may : c.mayClaim l = true) (hc : c.Covered others l) :
    ((c.claim l).release l).Covered others l := by
  have same := ((frame_claim c l).trans (frame_release _ l)).toSame
  have hrec := interrupt_returned may l
  rw [if_pos rfl] at hrec
  intro hst
  obtain ⟨h1, h2, h3, h4⟩ := hst
  have ht : ∀ v, (((c.claim l).release l).vm.targets l (((c.claim l).release l).vm.interrupt l)).getLsbD v =
      (c.vm.targets l (c.vm.interrupt l)).getLsbD v := fun v => by
    rw [show ((c.claim l).release l).vm.interrupt l = _ from hrec, targets_release, Vm.targets_congr same.partition]
    rfl
  have hst' : c.vm.Stranded l := by
    rw [show ((c.claim l).release l).vm.interrupt l = _ from hrec] at h1 h2 h3 h4
    rw [Interrupt.state_release] at h1
    rw [(Interrupt.sameSettings_release ..).enabled] at h2
    rw [resident_release] at h3
    rw [targets_release, Vm.targets_congr same.partition] at h4
    exact ⟨h1, h2, h3, h4⟩
  rcases hc hst' with ⟨v, cpu, m, hv, hcpu, hm, ha⟩ | ⟨hsp, v, cpu, hv, hav, hcpu, hn⟩
  · exact .inl ⟨v, cpu, m, (ht v).trans hv, by rw [Vm.pcpuOf?_congr same.partition]; exact hcpu, hm,
      ha.congr same.partition⟩
  · refine .inr ⟨?_, v, cpu, (ht v).trans hv, ?_, by rw [Vm.pcpuOf?_congr same.partition]; exact hcpu, hn⟩
    · rw [show ((c.claim l).release l).vm.interrupt l = _ from hrec, Interrupt.spilled_release]
      exact hsp
    · rw [show ((c.claim l).release l).vm.interrupt l = _ from hrec]
      rcases (c.mayClaim_iff l).1 may with ho | ho
      · -- what was free is given up again
        have hrel : ({ c.interrupt l with owner := some c.vcpu } : Interrupt).releasable c.vm.version l c.vcpu = true := by
          have hb : (c.vm.version == .v2 && l.isBanked) = false := (hs.records l has).unbanked fun home hh hown => by
            rw [ho] at hown
            cases hown
          have hact : (c.interrupt l).state.active = false := by rw [show (c.interrupt l).state = _ from hst'.state]
          have hoff : (c.interrupt l).resident = false := hst'.off
          simp only [Interrupt.releasable, Interrupt.ownedBy, hact, hoff, hb, beq_self_eq_true, Bool.not_false,
            Bool.and_self]
        simp only [Interrupt.release, hrel, if_true, Interrupt.availableTo, beq_self_eq_true, Bool.true_or]
      · have hvv : v = c.vcpu := by
          have hav : (c.interrupt l).availableTo v = true := hav
          rw [Interrupt.availableTo, ho] at hav
          simpa using Eq.symm (by simpa using hav : c.vcpu = v)
        rw [hvv]
        exact Interrupt.availableTo_release rfl

theorem covered_dropped (hs : c.Sound) {pendingOnly : Bool} (hm : c.vm.Has m)
    (drained : ∀ l, c.vm.Has l → l.SeenBy c.vcpu → (c.interrupt l).spilled = true → c.isWanted pendingOnly l = false)
    (hc : c.Covered others m) : c.dropRequests.Covered others m := by
  intro hst
  rcases hc hst with told | ⟨hsp, v, cpu, hv, hav, hcpu, hn⟩
  · exact .inl told
  · refine .inr ⟨hsp, v, cpu, hv, hav, hcpu, ?_⟩
    have hne : cpu ≠ c.cpu := by
      rintro rfl
      have hvv := hs.station.checked.cpu_inj hcpu hs.station.here
      rw [hvv] at hv hav
      have hw := drained m hm (Line.seenBy_of_target hv) hsp
      have h1 : (c.interrupt m).state = ⟨true, false⟩ := hst.state
      have h2 : (c.interrupt m).enabled = true := hst.enabled
      have h3 : (c.interrupt m).availableTo c.vcpu = true := hav
      have h4 : c.isTarget m = true := hv
      simp only [isWanted, h1, h2, h3, h4, Interrupt.State.isIdle] at hw
      cases pendingOnly <;> cases hw
    unfold noPending at hn ⊢
    rw [if_neg hne] at hn
    rw [if_neg (show cpu ≠ c.dropRequests.cpu from hne)]
    exact hn

/-- **Whatever a core does, nobody is forgotten.** -/
theorem Does.covered (h : Does c c' d) (hs : c.Sound) (hm : c.vm.Has m) (hc : c.Covered others m) :
    c'.Covered others m := by
  have grew : ∀ v cpu, c.vm.pcpuOf? v = some cpu → ∀ msg ∈ c.waiting cpu, msg ∈ c'.waiting cpu :=
    fun _ _ _ _ hmsg => h.grown.mem hmsg
  cases h with
  | handled l s deed h =>
    by_cases hml : m = l
    · subst hml
      exact h.covered hs
    · exact (h.frame.fate m hm hml).covered hs hm h.frame.toSame h.frame.control
        (fun cpu msg hmsg => h.frame.posted.mem hmsg) hc
  | returned l has may eq =>
    rw [eq]
    by_cases hlm : l = m
    · subst hlm
      exact covered_returned hs has may hc
    · have hi := interrupt_returned may m
      rw [if_neg hlm] at hi
      exact Vm.Covered.mono hc ((frame_claim c l).trans (frame_release _ l)).partition hi
        (fun _ _ _ _ hmsg => hmsg) (fun _ cpu _ => noPending_mono rfl id cpu)
  | forwarded g l v h =>
    exact Vm.Covered.mono hc h.posted.alike.partition (h.posted.interrupt m) grew
      (fun _ cpu _ => noPending_mono h.posted.cpu (by rw [h.posted.interface]; exact id) cpu)
  | posted r other h =>
    exact Vm.Covered.mono hc h.alike.partition (h.interrupt m) grew
      (fun _ cpu _ => noPending_mono h.cpu (by rw [h.interface]; exact id) cpu)
  | restated a n has credited guest eq =>
    rw [eq]
    exact Vm.Covered.mono hc rfl rfl (fun _ _ _ _ hmsg => hmsg) (fun _ cpu _ => noPending_mono rfl id cpu)
  | aside h bus np =>
    exact Vm.Covered.mono hc h.partition (h.interrupt m) grew (fun _ cpu _ => noPending_mono h.cpu np cpu)
  | dropped pendingOnly drained eq =>
    rw [eq]
    exact covered_dropped hs hm drained hc

theorem Runs.covered {ds : List Deed} (h : Runs c ds c') (hs : c.Sound) (hm : c.vm.Has m) (hc : c.Covered others m) :
    c'.Covered others m := by
  induction h with
  | nil => exact hc
  | cons hd _ ih => exact ih (hd.sound hs) ((Vm.has_congr hd.same.partition m).2 hm) (hd.covered hs hm hc)

end Core
end VirtualGic
