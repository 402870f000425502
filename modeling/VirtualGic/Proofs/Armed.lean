import Mathlib.Data.List.Induction
import VirtualGic.Proofs.Calls
import VirtualGic.Proofs.Requester
/-!
# What asks for active interrupts

An active interrupt that waits on a spill list is brought back by the maintenance that is due when the list registers run
empty.  Parking it asks for that maintenance.  The request is dropped by refilling only, and while such an interrupt still
waits only by a maintenance that is due because nothing is pending, which looks for pending interrupts
(`Core.Sound.unarmed_maintain`).  So an interrupt that nothing asks for was left behind by such a maintenance, and nothing
has touched it since (`Machine.armed_unless_dropped`).
-/
namespace VirtualGic

namespace Core

variable {c c' d : Core} {l l' : Line} {s : Interrupt} {st : Interrupt.State}

/-- An active interrupt of another vCPU stays as it is. -/
theorem Local.record_of_active (h : Local c c') (has : c.vm.Has l) (rest : (c'.interrupt l).AtRest l)
    (active : (c'.interrupt l).state.active = true) {v : Nat}
    (owner : (c'.interrupt l).owner = none ∨ (c'.interrupt l).owner = some v) (away : v ≠ c.vcpu) :
    c'.interrupt l = c.interrupt l := by
  refine (h.record l has).resolve_right fun ⟨_, may⟩ => ?_
  have owned := rest.active_owned active
  have here := ((mayClaim_iff ..).1 may).resolve_left owned
  have there := owner.resolve_left owned
  rw [h.vcpu] at here
  exact away (Option.some.inj (there.symm.trans here))

/-! ## Single operations -/

/-- An enabled interrupt of this core waits on a spill list in state `st`, which is active, and no maintenance is asked for
that would bring it back. -/
structure Unarmed (c : Core) (l : Line) (st : Interrupt.State) : Prop where
  has : c.vm.Has l
  spilled : (c.interrupt l).spilled = true
  enabled : (c.interrupt l).enabled = true
  target : c.isTarget l = true
  may : c.mayClaim l = true
  state : (c.interrupt l).state = st
  active : st.active = true
  unarmed : c.interface.control.underflow = false

theorem Unarmed.of_kept (u : c'.Unarmed l st) (partition : c'.vm.partition = c.vm.partition) (vcpu : c'.vcpu = c.vcpu)
    (record : c'.interrupt l = c.interrupt l)
    (underflow : c.interface.control.underflow = true → c'.interface.control.underflow = true) : c.Unarmed l st := by
  obtain ⟨has, spilled, enabled, target, may, state, active, unarmed⟩ := u
  rw [isTarget_congr partition vcpu record] at target
  rw [mayClaim_congr vcpu record] at may
  rw [record] at spilled enabled state
  refine ⟨(Vm.has_congr partition l).1 has, spilled, enabled, target, may, state, active, Bool.eq_false_iff.2 fun on => ?_⟩
  rw [underflow on] at unarmed
  cases unarmed

/-- What is in hand ends armed, if at all it is active and waits here. -/
theorem Handled.armed (h : Handled c c' l s) (u : c'.Unarmed l st) : False := by
  obtain ⟨-, spilled, enabled, target, -, state, active, unarmed⟩ := u
  rw [← state] at active
  cases h.final with
  | quiet why record =>
    rw [record, Interrupt.state_release] at active
    rw [record, (Interrupt.sameSettings_release ..).enabled] at enabled
    rcases why with idle | disabled
    · exact absurd (idle.symm.trans (Interrupt.State.isIdle_of_active active)) (by decide)
    · exact absurd (disabled.symm.trans enabled) (by decide)
  | seated n q r _ record =>
    rw [record] at spilled
    cases spilled
  | parked busy _ record pending asks =>
    rw [record, Interrupt.state_release] at active
    exact absurd ((asks active).symm.trans unarmed) (by decide)
  | offered busy others record =>
    rw [record, Interrupt.state_release] at active
    have record := record.trans (Interrupt.release_of_active active)
    unfold isTarget at target
    rw [record, h.frame.vcpu, Vm.targets_congr h.frame.partition, others] at target
    cases target

/-- What is not in hand is as it was, if afterwards it is active and waits here with nothing asking for it. -/
theorem Fate.unarmed (h : Fate c c' l) (same : Same c c')
    (underflow : c.interface.control.underflow = true → c'.interface.control.underflow = true) (u : c'.Unarmed l st) :
    c.Unarmed l st := by
  cases h with
  | kept record => exact u.of_kept same.partition same.vcpu record underflow
  | evicted r held busy record pending active =>
    have := u.active
    rw [← u.state, record, Interrupt.state_release] at this
    exact absurd ((active this).symm.trans u.unarmed) (by decide)
  | settled r held empty record =>
    have := u.active
    rw [← u.state, record, Interrupt.state_release] at this
    cases this

/-- **No operation leaves an interrupt behind.** -/
theorem Operation.unarmed (h : Operation c c') (hs : c.Sound) (u : c'.Unarmed l st) : c.Unarmed l st := by
  obtain ⟨⟨ds, runs, -⟩, outcome⟩ := h.runs_outcome hs
  have same : Same c c' := runs.local_.toSame
  cases outcome with
  | handled l' s h =>
    by_cases hl : l = l'
    · subst hl
      exact (h.armed u).elim
    · exact (h.frame.fate l ((Vm.has_congr same.partition l).1 u.has) hl).unarmed same h.frame.control.underflow u
  | returned l' has may eq =>
    subst eq
    by_cases hl : l' = l
    · subst hl
      obtain ⟨-, spilled, enabled, target, -, state, active, unarmed⟩ := u
      have record := interrupt_returned may l'
      rw [if_pos rfl] at record
      have busy : (c.interrupt l').state.active = true := by
        rw [← state, record, Interrupt.state_release] at active
        exact active
      -- it is active, so it is not given up
      have record := record.trans <| Interrupt.release_of_active (s := { c.interrupt l' with owner := some c.vcpu }) busy
      unfold isTarget at target
      rw [record, same.vcpu, Vm.targets_congr same.partition] at target
      rw [record] at spilled enabled state
      exact ⟨has, spilled, enabled, target, may, state, active, unarmed⟩
    · exact u.of_kept same.partition same.vcpu ((interrupt_returned may l).trans (if_neg hl)) id
  | aside h => exact u.of_kept same.partition same.vcpu (h.interrupt l) h.underflow

theorem Operations.unarmed (h : Operations c c') (hs : c.Sound) (u : c'.Unarmed l st) : c.Unarmed l st := by
  induction h with
  | refl => exact u
  | tail ops o ih => exact ih (o.unarmed (Operations.sound ops hs) u)

/-! ## Actions -/

theorem unarmed_handleUpTo (n : Nat) (c : Core) (hs : c.Sound) (u : (c.handleUpTo n).2.Unarmed l st) : c.Unarmed l st := by
  induction n generalizing c with
  | zero => exact u
  | succ n ih =>
    unfold handleUpTo at u
    cases hn : c.handleNext? with
    | none =>
      rw [hn] at u
      exact u
    | some d =>
      rw [hn] at u
      obtain ⟨msg, bus, taken, rfl⟩ := (c.handleNext?_eq_some_iff d).1 hn
      have hb : ({ c with bus := bus } : Core).Sound := hs.alike (alike_take taken)
      have ops := handle_operations hb msg
      have before := ops.unarmed hb (ih _ (ops.sound hb) u)
      exact before.of_kept rfl rfl rfl id

/-- **Maintenance leaves an interrupt behind** only if it is due because nothing is pending, and the interrupt is not
pending. -/
theorem Sound.unarmed_maintain (h : c.Sound) (u : c.maintain.Unarmed l st) :
    c.Unarmed l st ∨ c.interface.status.noPending = true ∧ st = ⟨false, true⟩ := by
  obtain ⟨d, ops, e | ⟨-, drained, e⟩⟩ := maintain_operations h
  · rw [e] at u
    exact .inl (ops.unarmed h u)
  · rw [e] at u
    obtain ⟨has, spilled, enabled, target, may, state, active, -⟩ := u
    have seen : l.SeenBy d.vcpu := Line.seenBy_of_target target
    have left := drained l has seen spilled
    have may : (d.interrupt l).availableTo d.vcpu = true := may
    have target : d.isTarget l = true := target
    have enabled : (d.interrupt l).enabled = true := enabled
    have state : (d.interrupt l).state = st := state
    unfold isWanted at left
    simp only [enabled, may, target, Bool.and_true, state] at left
    cases hn : c.interface.status.noPending with
    | false =>
      rw [hn, if_neg (by decide), Interrupt.State.isIdle_of_active active] at left
      cases left
    | true =>
      rw [hn, if_pos rfl] at left
      exact .inr ⟨rfl, Interrupt.State.eq_of_not_pending (Interrupt.State.isIdle_of_active active) left⟩

theorem Sound.unarmed_act (h : c.Sound) (a : Action) (u : (c.act a).Unarmed l st) :
    c.Unarmed l st ∨ a = .maintain ∧ c.interface.status.noPending = true ∧ st = ⟨false, true⟩ := by
  by_cases hm : a = .maintain
  · subst hm
    exact (h.unarmed_maintain u).imp_right fun left => ⟨rfl, left⟩
  · by_cases hp : a = .poll
    · subst hp
      exact .inl (unarmed_handleUpTo _ c h u)
    · exact .inl ((act_operations h hp hm).unarmed h u)

end Core

/-! ## Runs -/

/-- An enabled interrupt waits on its spill list while it is active, owned by a vCPU that is among its targets. -/
structure Vm.Benched (vm : Vm) (l : Line) (v : Nat) : Prop where
  has : vm.Has l
  spilled : (vm.interrupt l).spilled = true
  enabled : (vm.interrupt l).enabled = true
  active : (vm.interrupt l).state.active = true
  owner : (vm.interrupt l).owner = some v
  target : (vm.targets l (vm.interrupt l)).getLsbD v = true

namespace Machine

variable {m m₀ : Machine} {cpu i j k v : Nat} {c c' : Core} {vm : Vm} {l : Line} {st : Interrupt.State} {ds : List Deed}
  {es : List Event}

/-- On a CPU that runs a vCPU of a VM, an interrupt of that vCPU waits in an active state with nothing asking for it. -/
def Unarmed (m : Machine) (i k : Nat) (l : Line) (st : Interrupt.State) : Prop :=
  ∃ c, m.core? k = some (i, c) ∧ c.Unarmed l st

/-- In the course of a run a CPU maintained its list registers because nothing was pending there, and ever since an
interrupt that is not pending waits with nothing asking for it. -/
def Dropped (m₀ : Machine) (es : List Event) (i k : Nat) (l : Line) : Prop :=
  ∃ es₁ es₂, es = es₁ ++ ⟨k, .maintain⟩ :: es₂ ∧ ((m₀.run es₁).interfaces.get k).status.noPending = true ∧
    ∀ es₃, es₃ <+: es₂ → (m₀.run (es₁ ++ ⟨k, .maintain⟩ :: es₃)).Unarmed i k l ⟨false, true⟩

theorem Sound.unarmed_iff (h : m.Sound) (hvm : m.vms[i]? = some vm) (hk : vm.pcpuOf? v = some k) :
    m.Unarmed i k l st ↔ vm.Benched l v ∧ (vm.interrupt l).state = st ∧ (m.interfaces.get k).control.underflow = false := by
  have hc := h.core_of_pcpuOf? hvm hk
  constructor
  · rintro ⟨d, hd, u⟩
    cases hc.symm.trans hd
    obtain ⟨has, spilled, enabled, target, may, state, active, unarmed⟩ := u
    have busy : (vm.interrupt l).state.active = true := (congrArg Interrupt.State.active state).trans active
    have owner := ((Core.mayClaim_iff ..).1 may).resolve_left ((h.rest hvm l has).active_owned busy)
    exact ⟨⟨has, spilled, enabled, busy, owner, target⟩, state, unarmed⟩
  · rintro ⟨⟨has, spilled, enabled, active, owner, target⟩, state, unarmed⟩
    exact ⟨_, hc, has, spilled, enabled, target, (Core.mayClaim_iff ..).2 (.inr owner), state, state ▸ active, unarmed⟩

/-- What another CPU does leaves no interrupt behind here: an active interrupt is touched by the core of its owner only. -/
theorem Sound.unarmed_other (h : m.Sound) (hc : m.core? cpu = some (i, c)) (hmv : c.Move ds c') (other : k ≠ cpu)
    (u : (m.putCore i c').Unarmed j k l st) : m.Unarmed j k l st := by
  obtain ⟨d, hd, u⟩ := u
  have hs := h.core hc
  have hloc := hmv.local_ hs
  rcases core?_putCore_cases hc hloc.cpu hloc.vcpu hd with ⟨rfl, -⟩ | ⟨-, d₀, hd₀, vcpu, interface, e | ⟨e, e₀⟩⟩
  · exact absurd rfl other
  · exact ⟨d₀, hd₀, u.of_kept (congrArg Vm.partition e) vcpu (congrArg (Vm.interrupt · l) e) (by rw [interface]; exact id)⟩
  · have partition : d.vm.partition = d₀.vm.partition := by rw [e, e₀, hloc.partition]
    have has : c.vm.Has l := e₀ ▸ (Vm.has_congr partition l).1 u.has
    have here : d.interrupt l = c'.interrupt l := congrArg (Vm.interrupt · l) e
    have before : d₀.interrupt l = c.interrupt l := congrArg (Vm.interrupt · l) e₀
    have away : d.vcpu ≠ c.vcpu := fun same => by
      have at_k := h.here hd₀
      rw [← vcpu, same, e₀, h.here hc] at at_k
      exact other (Option.some.inj at_k).symm
    have record := hloc.record_of_active has (hmv.atRest hs (h.rest (vm_of_core? hc)) has)
      (by rw [← here, u.state]; exact u.active) (by rw [← here]; exact (Core.mayClaim_iff ..).1 u.may) away
    exact ⟨d₀, hd₀, u.of_kept partition vcpu (here.trans (record.trans before.symm)) (by rw [interface]; exact id)⟩

/-- **One event leaves an interrupt behind** only if it is maintenance of its own CPU, due because nothing is pending. -/
theorem Arises.unarmed_step (h : m.Arises) (e : Event) (u : (m.step e).Unarmed i k l st) :
    m.Unarmed i k l st ∨ e = ⟨k, .maintain⟩ ∧ (m.interfaces.get k).status.noPending = true ∧ st = ⟨false, true⟩ := by
  obtain ⟨cpu, a⟩ := e
  by_cases other : k = cpu
  · subst other
    cases hc : m.core? k with
    | none =>
      rw [step_of_idle hc] at u
      exact .inl u
    | some ic =>
      obtain ⟨j, c⟩ := ic
      have hs := h.sound.core hc
      obtain ⟨d, hd, u⟩ := u
      rw [step_of_core? hc, core?_putCore hc (Core.same_act hs a).cpu (Core.same_act hs a).vcpu] at hd
      cases hd
      rcases hs.unarmed_act a u with u | ⟨rfl, due, state⟩
      · exact .inl ⟨c, hc, u⟩
      · exact .inr ⟨rfl, interface_of_core? hc ▸ due, state⟩
  · refine .inl (h.keeps (P := fun m' => m'.Unarmed i k l st → m.Unarmed i k l st) id ?_ u)
    exact fun m' j c ds c' hm ih hc hmv u => ih (hm.sound.unarmed_other hc hmv other u)

theorem run_append (m : Machine) (es es' : List Event) : m.run (es ++ es') = (m.run es).run es' := List.foldl_append

/-- **What was left behind was left behind by such a maintenance**, and has been since. -/
theorem dropped_of_unarmed {cpus : Nat} {sizes : List Nat} {doorbell : Bool} {ps : List Partition}
    (hb : boot cpus sizes doorbell ps = .ok m₀) (u : (m₀.run es).Unarmed i k l st) :
    st = ⟨false, true⟩ ∧ m₀.Dropped es i k l := by
  have reachable : ∀ es, (m₀.run es).Reachable := (Reachable.boot hb).run
  induction es using List.reverseRecOn with
  | nil =>
    obtain ⟨c, hc, u⟩ := u
    have spilled := (booted_of_boot hb).fresh i c.vm (vm_of_core? hc) |>.spilled l u.has
    exact absurd (spilled.symm.trans u.spilled) (by decide)
  | append_singleton es e ih =>
    have last : m₀.run (es ++ [e]) = (m₀.run es).step e := run_append ..
    have now := u
    rw [last] at u
    rcases (reachable es).arises.unarmed_step e u with u | ⟨rfl, due, rfl⟩
    · obtain ⟨rfl, es₁, es₂, rfl, due, since⟩ := ih u
      refine ⟨rfl, es₁, es₂ ++ [e], by simp, due, fun es₃ h => ?_⟩
      rcases List.prefix_concat_iff.1 h with rfl | h
      · simpa using now
      · exact since es₃ h
    · refine ⟨rfl, es, [], rfl, due, fun es₃ h => ?_⟩
      rw [List.prefix_nil.1 h]
      exact now

/-- **What asks for active interrupts**: underflow maintenance is enabled on the core of the owner, except where that core
dropped the request in a maintenance for lack of pending interrupts, and the interrupt is not pending. -/
theorem armed_unless_dropped {cpus : Nat} {sizes : List Nat} {doorbell : Bool} {ps : List Partition}
    (hb : boot cpus sizes doorbell ps = .ok m₀) (es : List Event) (hvm : (m₀.run es).vms[i]? = some vm)
    (benched : vm.Benched l v) :
    ∃ k, vm.pcpuOf? v = some k ∧ (((m₀.run es).interfaces.get k).control.underflow = true ∨
      (vm.interrupt l).state = ⟨false, true⟩ ∧ m₀.Dropped es i k l) := by
  have sound := ((Reachable.boot hb).run es).arises.sound
  have hv := (sound.records hvm l benched.has).owner_lt v benched.owner
  obtain ⟨k, hk⟩ : ∃ k, vm.pcpuOf? v = some k := ⟨_, List.getElem?_eq_getElem hv⟩
  refine ⟨k, hk, ?_⟩
  cases hu : ((m₀.run es).interfaces.get k).control.underflow with
  | true => exact .inl rfl
  | false => exact .inr (dropped_of_unarmed hb ((sound.unarmed_iff hvm hk).2 ⟨benched, rfl, hu⟩))

/-- One list register: interrupt 33 evicts the active 32, becomes active and is completed.  Then nothing is pending. -/
def stalling : List Event :=
  [⟨0, store distributorBase 4 1⟩, ⟨0, store (distributorBase + 0x104) 4 3⟩, ⟨0, .inject 32⟩, ⟨0, .acknowledge⟩,
    ⟨0, .inject 33⟩, ⟨0, store (distributorBase + 0x421) 1 0x10⟩, ⟨0, .acknowledge⟩, ⟨0, .complete 33⟩, ⟨0, .maintain⟩]

def stalled : Machine := uncrowded.run stalling

theorem benched_stalled : stalled.firstVm.Benched (.shared 32) 0 :=
  ⟨has_shared (by decide +kernel) (by decide), by decide +kernel, by decide +kernel, by decide +kernel, by decide +kernel,
    by decide +kernel⟩

theorem armed_unless_dropped_stalled :
    stalled.firstVm.Benched (.shared 32) 0 ∧ uncrowded.Dropped stalling 0 0 (.shared 32) := by
  refine ⟨benched_stalled, ?_⟩
  obtain ⟨k, hk, armed | ⟨-, dropped⟩⟩ :=
    armed_unless_dropped boot_uncrowded stalling (vms_zero (by decide +kernel)) benched_stalled
  all_goals cases Option.some.inj ((show stalled.firstVm.pcpuOf? 0 = some 0 by decide +kernel).symm.trans hk)
  · exact absurd armed (by decide +kernel)
  · exact dropped

/-- **An active interrupt can stall**: it waits, and its core does not ask for the maintenance that brings it back. -/
theorem stalled_unarmed : ¬ ∀ (m : Machine) (i k v : Nat) (vm : Vm) (l : Line), m.Reachable → m.vms[i]? = some vm →
    vm.Benched l v → vm.pcpuOf? v = some k → (m.interfaces.get k).control.underflow = true := by
  intro h
  have armed := h stalled 0 0 0 _ _ ((Reachable.boot boot_uncrowded).run stalling) (vms_zero (by decide +kernel))
    benched_stalled (by decide +kernel)
  exact absurd armed (by decide +kernel)

end Machine
end VirtualGic
