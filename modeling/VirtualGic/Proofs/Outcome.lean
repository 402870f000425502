import VirtualGic.Proofs.Errand
/-!
# What errands come to

A core starts its errands one after another (`Machine.Errands.foldl`).  What is true of an interrupt once they are done can
be read off what it stands for (`Machine.sameTruth_of_standing`).
-/
namespace VirtualGic.Machine

variable {m m' : Machine} {cpu i : Nat} {c c' : Core} {vm vm' : Vm} {l : Line} {d : Option Deed} {r : ListRegister}

/-! ## Starting errands -/

theorem Tallied.does (ht : m.Tallied) (h : m.Sound) (hc : m.core? cpu = some (i, c)) (hd : Core.Does c c' d)
    (tallies : ∀ a ∈ d, a.Tallies c.vm) : (m.putCore i c').Tallied :=
  ht.putCore h (h.does hc hd) hc hd.local_ (hd.keepsTallied (h.core hc) (ht.core h hc) tallies)

/-- **A loop whose rounds each see to one write sees to all.** -/
theorem Errands.foldl {α : Type} {m₀ : Machine} {vm₀ : Vm} {ws : List FieldWrite} {f : Core → α → Core}
    {v : Nat} (ask : α → FieldWrite) (xs : List α)
    (round : ∀ x ∈ xs, ∀ (m : Machine) (c : Core) (todo : List FieldWrite), m.Sound → m.Tallied → m.core? cpu = some (i, c) →
      c.vcpu = v → Errands m₀ vm₀ ws (ask x :: todo) m c.vm → Errands m₀ vm₀ ws todo (m.putCore i (f c x)) (f c x).vm ∧
        ∃ d, Core.Does c (f c x) d ∧ ∀ a ∈ d, a.Tallies c.vm)
    (h : m.Sound) (ht : m.Tallied) (hc : m.core? cpu = some (i, c)) (hv : c.vcpu = v)
    (E : Errands m₀ vm₀ ws (xs.map ask) m c.vm) :
    (xs.foldl f c).cpu = cpu ∧ Errands m₀ vm₀ ws [] (m.putCore i (xs.foldl f c)) (xs.foldl f c).vm := by
  induction xs generalizing m c with
  | nil =>
    rw [List.foldl_nil, h.putCore_self hc]
    exact ⟨cpu_of_core? hc, E⟩
  | cons x xs ih =>
    obtain ⟨E', d, hd, tallies⟩ := round x List.mem_cons_self m c (xs.map ask) h ht hc hv E
    have hcpu := hd.same.cpu.trans (cpu_of_core? hc)
    obtain ⟨hcpu', done⟩ := ih (fun y hy => round y (List.mem_cons_of_mem x hy)) (h.does hc hd) (ht.does h hc hd tallies)
      (core?_putCore hc hd.same.cpu hd.same.vcpu) (hd.same.vcpu.trans hv) E'
    rw [h.putCore_putCore hc hcpu hcpu'] at done
    exact ⟨hcpu', done⟩

/-- What a machine comes to: a CPU acts, and then CPUs poll. -/
def outcome (m : Machine) (cpu : Nat) (a : Action) (es : List Nat) : Machine := m.run (⟨cpu, a⟩ :: polls es)

theorem Reachable.outcome (h : m.Reachable) (cpu : Nat) (a : Action) (es : List Nat) : (m.outcome cpu a es).Reachable :=
  h.run _

/-- The errands that an action starts are done once no message waits. -/
theorem Errands.outcome {ws : List FieldWrite} {a : Action} (hm : m.Arises) (W : Sendable c.vm ws)
    (hc : m.core? cpu = some (i, c)) (E : Errands m c.vm ws [] (m.putCore i (c.act a)) (c.act a).vm) (es : List Nat) :
    ∃ vm, (m.outcome cpu a es).vms[i]? = some vm ∧ Errands m c.vm ws [] (m.outcome cpu a es) vm := by
  refine Errands.polls es (m := m.step ⟨cpu, a⟩) (hm.step _) W ?_
  rw [step_of_core? hc]
  exact ⟨_, vms_putCore_self hc _, E⟩

/-! ## What is true in the end -/

/-- **However the cores come to it, the same errands have the same outcome.** -/
theorem Errands.agree {m₀ : Machine} {vm₀ : Vm} {ws : List FieldWrite} (E : Errands m₀ vm₀ ws [] m vm)
    (E' : Errands m₀ vm₀ ws [] m' vm') (quiet : m.Quiet) (quiet' : m'.Quiet) (hl : vm₀.Has l) :
    (m.standing vm l).Agrees ((vm₀.interrupt l).hardware = false) (m'.standing vm' l) ∧
      (vm₀.countsRequesters l = true → m'.lapsed vm' l = m.lapsed vm l) := by
  by_cases hw : ∃ w ∈ ws, w.line = l
  · obtain ⟨w, hw, rfl⟩ := hw
    have done := E.done quiet hw
    have done' := E'.done quiet' hw
    exact ⟨done.standing.symm.trans done'.standing, fun counts => (done'.unlapsed counts).trans (done.unlapsed counts).symm⟩
  · have none : ∀ w ∈ ws, w.line ≠ l := fun w hm e => hw ⟨w, hm, e⟩
    have leaves := E.others l hl none
    have leaves' := E'.others l hl none
    exact ⟨(leaves.standing.symm.trans leaves'.standing).imp fun _ => trivial,
      fun _ => leaves'.lapsed.trans leaves.lapsed.symm⟩

/-- The same is true of an interrupt in two machines, wherever it is.  Behind an active version 2 software interrupt further
requests may wait with the pending bit set or not. -/
structure SameTruth (m : Machine) (vm : Vm) (m' : Machine) (vm' : Vm) (l : Line) : Prop where
  state : (vm.countsRequesters l = true → (m.trueState vm l).active = false) → m'.trueState vm' l = m.trueState vm l
  active : (m'.trueState vm' l).active = (m.trueState vm l).active
  requesters : vm.countsRequesters l = true → m'.trueRequesters vm' l = m.trueRequesters vm l

/-- The list register that holds an interrupt shows whether it is a hardware interrupt. -/
theorem Sound.hardware_held (h : m.Sound) (hvm : m.vms[i]? = some vm) (hl : vm.Has l) (held : m.held? vm l = some r) :
    r.hardware = (vm.interrupt l).hardware := by
  unfold held? at held
  split at held
  next resident =>
    obtain ⟨cpu, howner, rfl⟩ := Option.map_eq_some_iff.1 held
    obtain ⟨v, ho, hcpu⟩ := Option.bind_eq_some_iff.1 howner
    exact ((h.seated hvm v cpu hcpu).seat l _ hl ⟨ho, resident, rfl⟩).shows.hardware
  next => cases held

/-- While a version 2 software interrupt is not active, it is pending if it stands for requests, unless they wait for the
maintenance that the guest's completion asks for. -/
theorem pending_of_inactive (h : m.Sound) (ht : m.Tallied) (hvm : m.vms[i]? = some vm) (hl : vm.Has l)
    (counts : vm.countsRequesters l = true) (inactive : (m.trueState vm l).active = false) :
    (m.trueState vm l).pending = ((m.standing vm l).state.pending && !m.lapsed vm l) := by
  have tallied := ht i vm hvm l hl counts
  unfold trueState at inactive ⊢
  unfold standing lapsed
  cases held : m.held? vm l with
  | none => simp only [Option.any_none, Bool.not_false, Bool.and_true]
  | some r =>
    have soft := (h.hardware_held hvm hl held).trans ((h.records hvm l hl).soft_of_counts (h.checked hvm) counts)
    have asks := tallied.asks r held
    rw [held] at inactive
    simp only [counts, if_true, ListRegister.restoreRequest, Option.any_some, ListRegister.isCompleted,
      Interrupt.State.isIdle, inactive, soft, asks]
    cases r.state.pending <;> simp

/-- **What an interrupt stands for tells what is true of it.** -/
theorem sameTruth_of_standing (h : m.Sound) (ht : m.Tallied) (hvm : m.vms[i]? = some vm) (h' : m'.Sound) (ht' : m'.Tallied)
    (hvm' : m'.vms[i]? = some vm') (hp : vm'.partition = vm.partition) (hl : vm.Has l)
    (stands : (m.standing vm l).Agrees True (m'.standing vm' l))
    (lapsed : vm.countsRequesters l = true → m'.lapsed vm' l = m.lapsed vm l) : SameTruth m vm m' vm' l := by
  have hl' := (Vm.has_congr hp l).2 hl
  have hcounts := Vm.countsRequesters_congr hp l
  have active : (m'.trueState vm' l).active = (m.trueState vm l).active := by
    rw [← active_standing, ← active_standing, stands.state trivial]
  refine ⟨fun inactive => ?_, active, fun counts => ?_⟩
  · cases counts : vm.countsRequesters l with
    | false =>
      rw [trueState_eq_standing counts, trueState_eq_standing (hcounts.trans counts)]
      exact stands.state trivial
    | true =>
      have off := inactive counts
      have pending : (m'.trueState vm' l).pending = (m.trueState vm l).pending := by
        rw [pending_of_inactive h ht hvm hl counts off,
          pending_of_inactive h' ht' hvm' hl' (hcounts.trans counts) (active.trans off), stands.state trivial, lapsed counts]
      show Interrupt.State.mk (m'.trueState vm' l).pending (m'.trueState vm' l).active = _
      rw [pending, active]
  · rw [trueRequesters_eq_standing counts, trueRequesters_eq_standing (hcounts.trans counts)]
    exact stands.requesters trivial

end VirtualGic.Machine
