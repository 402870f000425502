import VirtualGic.Proofs.Forgotten
import VirtualGic.Proofs.Queue
/-!
# The true state of an interrupt

Wherever an interrupt is, on whatever core, its true state changes only by deeds on that very interrupt.  Where it is
shown, moved, parked or sent on makes no difference (`Arises.trueState_turn`).
-/
namespace VirtualGic

open Interrupt (State)

namespace Core

variable {c c' : Core} {l : Line} {ds : List Deed} {msg : Message} {cpu : Nat}

/-- The messages that wait after a move waited before, or ask for field writes that were forwarded. -/
theorem Move.mem_waiting (h : Move c ds c') (hs : c.Sound) (hm : msg ∈ c'.waiting cpu) : msg ∈ c.waiting cpu ∨
    (msg.event = Request.writeField.code → ∃ g l v, .forward g l v ∈ ds ∧ c.vm.Has l ∧
      (∃ w, c.vm.pcpuOf? w = some cpu) ∧ msg.Writes c.vm g l v) := by
  cases h with
  | act a ha =>
    obtain ⟨more, e, hmore⟩ := (act_runs hs ha).posts cpu
    rw [e] at hm
    exact (List.mem_append.1 hm).imp_right (hmore msg)
  | handle other bus ht =>
    obtain ⟨more, e, hmore⟩ := (runs_take hs ht).posts cpu
    rw [e] at hm
    refine (List.mem_append.1 hm).imp (fun hw => ?_) (hmore msg)
    unfold waiting
    rw [MessageBus.waiting_inbox_take ht cpu]
    exact List.mem_append_right _ hw

theorem Move.proper (h : Move c ds c') (messages : ∀ msg ∈ c.waiting c.cpu, msg.Proper c.vm) : ∀ d ∈ ds, d.Proper c.vm := by
  cases h with
  | act a ha => exact proper_deeds a
  | handle msg bus ht =>
    refine proper_messageDeeds (messages msg ?_)
    unfold waiting
    rw [MessageBus.waiting_inbox_take ht c.cpu, if_pos rfl]
    exact List.mem_cons_self

/-- **A move changes the state of an interrupt by its deeds only.** -/
theorem Move.state (h : Move c ds c') (hs : c.Sound) (hl : c.vm.Has l) (soft : (c.interrupt l).hardware = false)
    (plain : c.vm.countsRequesters l = false) (proper : ∀ d ∈ ds, d.Proper c.vm) :
    c'.stateOf l = Deed.after ds l (c.stateOf l) := by
  cases h with
  | act a ha => exact (act_runs hs ha).state hs hl soft plain proper
  | handle msg bus ht =>
    have := (runs_take hs ht).state (hs.alike (alike_take ht)) hl soft plain proper
    rwa [(alike_take ht).stateOf l] at this

theorem Move.after_of_elsewhere (h : Move c ds c') (hs : c.Sound) (hl : c.vm.Has l) (may : c.mayClaim l = false)
    (s : State) : Deed.after ds l s = s := by
  cases h with
  | act a ha => exact (act_runs hs ha).after_of_elsewhere hl may s
  | handle msg bus ht => exact (runs_take hs ht).after_of_elsewhere hl may s

end Core

namespace Machine

variable {m : Machine} {cpu i j : Nat} {c c' : Core} {vm vm' : Vm} {l : Line} {ds : List Deed}

/-! ## Messages -/

/-- The messages to a VM's cores are proper. -/
def Proper (m : Machine) : Prop :=
  ∀ (i : Nat) (vm : Vm), m.vms[i]? = some vm → ∀ v cpu, vm.pcpuOf? v = some cpu → ∀ msg ∈ m.waiting cpu, msg.Proper vm

theorem Proper.core (h : m.Proper) (hs : m.Sound) (hc : m.core? cpu = some (i, c)) :
    ∀ msg ∈ c.waiting c.cpu, msg.Proper c.vm := by
  rw [waiting_core hc]
  exact h i c.vm (vm_of_core? hc) _ _ (hs.core hc).station.here

theorem Proper.move (h : m.Proper) (hs : m.Sound) (hc : m.core? cpu = some (i, c)) (hmv : c.Move ds c') :
    (m.putCore i c').Proper := by
  have hcs := hs.core hc
  have hloc := hmv.local_ hcs
  have proper := hmv.proper (h.core hs hc)
  intro j vm hj v k hk msg hmsg
  have hnew := hmv.mem_waiting hcs (show msg ∈ c'.waiting k from hmsg)
  rw [waiting_core hc] at hnew
  rcases vm_of_putCore hc hj with ⟨rfl, rfl⟩ | ⟨hne, hj⟩
  · rw [Vm.pcpuOf?_congr hloc.partition] at hk
    intro he g hg
    unfold RegisterGroup.Proper
    rw [Vm.version_congr hloc.partition]
    rcases hnew with hold | hnew
    · exact h j c.vm (vm_of_core? hc) v k hk msg hold he g hg
    · obtain ⟨g', l, x, hd, -, -, hw⟩ := hnew he
      exact hw.proper (proper _ hd) he g hg
  · rcases hnew with hold | hnew
    · exact h j vm hj v k hk msg hold
    · -- nothing that another VM sends asks for a field write
      intro he
      obtain ⟨-, -, -, -, -, ⟨w, hw⟩, -⟩ := hnew he
      exact (hs.disjoint (vm_of_core? hc) hj hne hw hk).elim

theorem Arises.proper (h : m.Arises) : m.Proper := by
  refine h.induct (fun m cpus sizes doorbell ps hb i vm hi v k hk msg hm => ?_) fun m cpu i c ds c' hm hp hc hmv =>
    hp.move hm.sound hc hmv
  rw [(booted_of_boot hb).quiet k] at hm
  cases hm

/-! ## Where the state is -/

theorem held?_eq_of_off (off : (vm.interrupt l).resident = false) : m.held? vm l = none := by
  simp only [held?, off, Bool.false_eq_true, if_false]

/-- What a core may claim is in no list register but those of the core. -/
theorem held?_of_mayClaim (h : m.Sound) (hc : m.core? cpu = some (i, c)) (hl : c.vm.Has l) (may : c.mayClaim l = true) :
    m.held? c.vm l = c.held? l := by
  have hcs := h.core hc
  cases hres : (c.vm.interrupt l).resident with
  | false => rw [held?_eq_of_off hres, Core.held?_of_off hres]
  | true =>
    rcases (c.mayClaim_iff l).1 may with ho | ho
    · exact absurd (hres.symm.trans (hcs.off_of_free hl ho)) (by decide)
    · have here := hcs.station.here
      rw [cpu_of_core? hc] at here
      have ho : (c.vm.interrupt l).owner = some c.vcpu := ho
      rw [hcs.held? hl ⟨ho, hres, rfl⟩, interface_of_core? hc]
      simp only [held?, hres, if_true, ownerCpu?, ho, Option.bind_some, here, Option.map_some]

/-- The list register that holds an interrupt is one of the interface of the owner's CPU. -/
theorem held?_congr {m' : Machine} (hi : vm'.interrupt l = vm.interrupt l) (hp : vm'.partition = vm.partition)
    (hf : ∀ v k, (vm.interrupt l).owner = some v → vm.pcpuOf? v = some k → m'.interfaces.get k = m.interfaces.get k) :
    m'.held? vm' l = m.held? vm l := by
  unfold held? ownerCpu?
  rw [hi, funext fun v => Vm.pcpuOf?_congr hp v]
  cases ho : (vm.interrupt l).owner with
  | none => rfl
  | some v =>
    rw [Option.bind_some]
    cases hk : vm.pcpuOf? v with
    | none => rfl
    | some k => rw [Option.map_some, Option.map_some, hf v k ho hk]

/-- What a core may not claim stays where it is, whatever the core does. -/
theorem held?_putCore_of_elsewhere (h : m.Sound) (hc : m.core? cpu = some (i, c)) (hloc : Core.Local c c')
    (hl : c.vm.Has l) (may : c.mayClaim l = false) :
    c'.vm.interrupt l = c.vm.interrupt l ∧ (m.putCore i c').held? c'.vm l = m.held? c.vm l := by
  have hcs := h.core hc
  have record : c'.vm.interrupt l = c.vm.interrupt l := by
    rcases hloc.record l hl with e | ⟨e, -⟩
    · exact e
    · rw [may] at e; cases e
  refine ⟨record, held?_congr record hloc.partition fun v k ho hk => ?_⟩
  rw [interfaces_putCore, if_neg]
  intro e
  rw [← e, hloc.cpu] at hk
  have hv := hcs.station.checked.cpu_inj hk hcs.station.here
  have := (c.mayClaim_iff l).2 (.inr (by rw [← hv]; exact ho))
  rw [may] at this
  cases this

theorem held?_other (h : m.Sound) (hc : m.core? cpu = some (i, c)) (hcpu : c'.cpu = c.cpu) (hj : m.vms[j]? = some vm)
    (hne : j ≠ i) (l : Line) : (m.putCore i c').held? vm l = m.held? vm l := by
  refine held?_congr rfl rfl fun v k _ hk => ?_
  rw [interfaces_putCore, if_neg]
  rw [hcpu]
  exact (h.cpu_ne hc hj hne hk).symm

/-- What a core may claim is in the state that the core sees. -/
theorem trueState_of_mayClaim (h : m.Sound) (hc : m.core? cpu = some (i, c)) (hl : c.vm.Has l)
    (may : c.mayClaim l = true) : m.trueState c.vm l = c.stateOf l := by
  unfold trueState
  rw [held?_of_mayClaim h hc hl may]
  rfl

/-- **The true state of an interrupt of a core's own VM changes by the deeds of the core.** -/
theorem trueState_move (h : m.Sound) (hp : m.Proper) (hc : m.core? cpu = some (i, c)) (hmv : c.Move ds c')
    (hl : c.vm.Has l) (soft : (c.vm.interrupt l).hardware = false) (plain : c.vm.countsRequesters l = false) :
    (m.putCore i c').trueState c'.vm l = Deed.after ds l (m.trueState c.vm l) := by
  have hcs := h.core hc
  have hloc := hmv.local_ hcs
  have proper := hmv.proper (hp.core h hc)
  have hc' := core?_putCore hc hloc.cpu hloc.vcpu
  cases may : c.mayClaim l with
  | true =>
    rw [trueState_of_mayClaim h hc hl may, ← hmv.state hcs hl soft plain proper]
    exact trueState_of_mayClaim (h.move hc hmv) hc' ((Vm.has_congr hloc.partition l).2 hl) ((hloc.mayClaim hl).trans may)
  | false =>
    obtain ⟨record, held⟩ := held?_putCore_of_elsewhere h hc hloc hl may
    rw [hmv.after_of_elsewhere hcs hl may]
    unfold trueState
    rw [held, record]

theorem trueState_other (h : m.Sound) (hc : m.core? cpu = some (i, c)) (hcpu : c'.cpu = c.cpu) (hj : m.vms[j]? = some vm)
    (hne : j ≠ i) (l : Line) : (m.putCore i c').trueState vm l = m.trueState vm l := by
  unfold trueState
  rw [held?_other h hc hcpu hj hne]

end Machine

/-! ## Turns -/

/-- What happens on a CPU at one time. -/
inductive Turn where
  | act (a : Action)
  | handle

def Core.turnDeeds (c : Core) : Turn → List Deed
  | .act a => c.deeds a
  | .handle =>
    match c.bus.take c.cpu with
    | some (msg, _) => c.messageDeeds msg
    | none => []

namespace Machine

variable {m : Machine} {cpu i : Nat} {vm : Vm} {l : Line} {t : Turn}

def turn (m : Machine) (cpu : Nat) : Turn → Machine
  | .act a => m.step ⟨cpu, a⟩
  | .handle => (m.handleNext? cpu).getD m

/-- The deeds of a turn in the VM at an index. -/
def deeds (m : Machine) (cpu : Nat) (t : Turn) (i : Nat) : List Deed :=
  match m.core? cpu with
  | some (j, c) => if j = i then c.turnDeeds t else []
  | none => []

theorem turn_cases (m : Machine) (cpu : Nat) (ht : t ≠ .act .poll) :
    (m.turn cpu t = m ∧ ∀ i, m.deeds cpu t i = []) ∨
      ∃ i c c', m.core? cpu = some (i, c) ∧ c.Move (c.turnDeeds t) c' ∧ m.turn cpu t = m.putCore i c' := by
  cases t with
  | act a =>
    rcases step_cases m cpu (a := a) (fun e => ht (by rw [e])) with ⟨hc, e⟩ | ⟨i, c, hc, hmv, e⟩
    · exact .inl ⟨e, fun i => by rw [deeds, hc]⟩
    · exact .inr ⟨i, c, _, hc, hmv, e⟩
  | handle =>
    unfold turn
    cases hn : m.handleNext? cpu with
    | some m' =>
      obtain ⟨i, c, msg, bus, hc, hb, hmv, rfl⟩ := handleNext?_cases hn
      refine .inr ⟨i, c, _, hc, ?_, rfl⟩
      rw [Core.turnDeeds, hb]
      exact hmv
    | none =>
      refine .inl ⟨rfl, fun i => ?_⟩
      unfold deeds Core.turnDeeds
      cases hc : m.core? cpu with
      | none => rfl
      | some jc =>
        rw [handleNext?, hc, Option.bind_some, Option.map_eq_none_iff, Core.handleNext?, Option.map_eq_none_iff] at hn
        simp only [hn, ite_self]

/-- **Scheduling is transparent**: at each turn of each CPU the true state of an interrupt that is no hardware interrupt
and keeps no set of requesters changes by the deeds on that very interrupt, and by nothing else. -/
theorem Arises.trueState_turn (h : m.Arises) (cpu : Nat) (ht : t ≠ .act .poll) (hvm : m.vms[i]? = some vm)
    (hl : vm.Has l) (soft : (vm.interrupt l).hardware = false) (plain : vm.countsRequesters l = false) :
    ∃ vm', (m.turn cpu t).vms[i]? = some vm' ∧
      (m.turn cpu t).trueState vm' l = Deed.after (m.deeds cpu t i) l (m.trueState vm l) := by
  rcases turn_cases m cpu ht with ⟨e, hd⟩ | ⟨j, c, c', hc, hmv, e⟩
  · rw [e, hd]
    exact ⟨vm, hvm, rfl⟩
  · rw [e, deeds, hc]
    simp only
    by_cases hj : j = i
    · subst hj
      obtain rfl := Option.some.inj ((vm_of_core? hc).symm.trans hvm)
      rw [if_pos rfl]
      exact ⟨c'.vm, vms_putCore_self hc c', trueState_move h.sound h.proper hc hmv hl soft plain⟩
    · rw [if_neg hj]
      exact ⟨vm, (vms_putCore _ _ _ _ hj).trans hvm,
        trueState_other h.sound hc (hmv.local_ (h.sound.core hc)).cpu hvm (Ne.symm hj) l⟩

theorem trueState_turn_crowded : crowded.deeds 0 (.act .acknowledge) 0 = [.acknowledge (.shared 32)] ∧
    (crowded.firstVm.interrupt (.shared 32)).state = .idle ∧
    ∃ vm', (crowded.turn 0 (.act .acknowledge)).vms[0]? = some vm' ∧
      (crowded.turn 0 (.act .acknowledge)).trueState vm' (.shared 32) =
        Deed.after (crowded.deeds 0 (.act .acknowledge) 0) (.shared 32) (crowded.trueState crowded.firstVm (.shared 32)) :=
  ⟨by decide +kernel, by decide +kernel,
    reachable_crowded.arises.trueState_turn 0 (fun h => by cases h) (vms_zero (by decide +kernel))
      ⟨by decide +kernel, by decide, fun _ h => (by cases h)⟩ (by decide +kernel) (by decide +kernel)⟩

end Machine
end VirtualGic
