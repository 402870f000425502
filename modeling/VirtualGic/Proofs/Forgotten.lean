import VirtualGic.Proofs.Reach
/-!
# No lost interrupt

At all times every pending interrupt that is in no list register is covered (`Machine.covered`).  What is new beside
the operations of a core is that handling a message takes it out of the queue: where it was the one that told of an
interrupt, its receiver presents the interrupt, or it need not be presented there.
-/
namespace VirtualGic

namespace Core

variable {c c' : Core} {m : Line} {others : Nat → Bool} {ds : List Deed} {bus : MessageBus} {msg : Message}

theorem mem_of_take (h : c.bus.take c.cpu = some (msg, bus)) {cpu : Nat} {other : Message} (hm : other ∈ c.waiting cpu)
    (hne : cpu = c.cpu → other ≠ msg) : other ∈ (bus.inbox cpu).waiting := by
  unfold waiting at hm
  rw [MessageBus.waiting_inbox_take h cpu] at hm
  rcases List.mem_append.1 hm with hm | hm
  · split at hm
    next e => exact absurd (List.mem_singleton.1 hm) (hne e.symm)
    next => cases hm
  · exact hm

/-- Taking a message out forgets nobody that this core was not told to present. -/
theorem covered_take (hs : c.Sound) (h : c.bus.take c.cpu = some (msg, bus)) (hc : c.Covered others m)
    (hno : msg.About .route c.vm m → c.isTarget m = false) : ({ c with bus := bus } : Core).Covered others m := by
  intro hst
  rcases hc hst with ⟨v, cpu, other, hv, hcpu, hm, ha⟩ | hawaited
  · refine .inl ⟨v, cpu, other, hv, hcpu, mem_of_take h hm fun e he => ?_, ha⟩
    subst e he
    have hvv := hs.station.checked.cpu_inj hcpu hs.station.here
    have ht : c.isTarget m = true := by
      rw [hvv] at hv
      exact hv
    rw [hno ha] at ht
    cases ht
  · exact .inr hawaited

theorem handle_of_route (h : msg.About .route c.vm m) (hm : c.vm.Has m) : c.handle msg = c.accept m := by
  simp only [handle, h.vm, beq_self_eq_true, if_true, (Request.ofCode?_eq_some_iff ..).2 h.request.symm, handleRequest,
    h.find? hm]

/-- **A core that is told of an interrupt it is a target of covers it.** -/
theorem covered_accept (hs : c.Sound) (hm : c.vm.Has m) (rest : (c.interrupt m).AtRest m) (target : c.isTarget m = true) :
    (c.accept m).Covered others m := by
  rcases accept_cases hs hm with ⟨may, e⟩ | ⟨s, h, made⟩ | ⟨may, e, why⟩
  · -- it is another vCPU's, so it is in a list register, active, or of that vCPU's bank
    rw [e]
    intro hst
    obtain ⟨w, _, ho, hw, -⟩ := exists_owner hs hm may
    have hact : (c.interrupt m).state.active = false := by rw [show (c.interrupt m).state = _ from hst.state]
    have hhome := rest.owner_home w ho hst.off hact
    exact absurd (Line.seenBy_of_target target w hhome) hw
  · exact h.covered hs
  · rw [e]
    intro hst
    have hrec : ((c.claim m).release m).vm.interrupt m = _ := (interrupt_returned may m).trans (if_pos rfl)
    rcases why with h | h | h | h
    · have := hst.off
      rw [hrec, resident_release] at this
      exact absurd (h.symm.trans this) (by decide)
    · have := hst.state
      rw [hrec, Interrupt.state_release] at this
      rw [show (c.interrupt m).state = _ from this] at h
      cases h
    · exact absurd (h.symm.trans target) (by decide)
    · have := hst.enabled
      rw [hrec, (Interrupt.sameSettings_release ..).enabled] at this
      exact absurd (h.symm.trans this) (by decide)

/-- **Whatever a core does at one time, nobody is forgotten.** -/
theorem Move.covered (h : Move c ds c') (hs : c.Sound) (rest : ∀ l, c.vm.Has l → (c.interrupt l).AtRest l)
    (hm : c.vm.Has m) (hc : c.Covered others m) : c'.Covered others m := by
  cases h with
  | act a ha => exact (act_runs hs ha).covered hs hm hc
  | handle msg bus ht =>
    have hs' := hs.alike (alike_take ht)
    by_cases hA : msg.About .route c.vm m ∧ c.isTarget m = true
    · have hm' : ({ c with bus := bus } : Core).vm.Has m := hm
      rw [handle_of_route (c := { c with bus := bus }) hA.1 hm']
      exact covered_accept hs' hm' (rest m hm) hA.2
    · refine (runs_take hs ht).covered hs' hm (covered_take hs ht hc fun ha => ?_)
      cases htar : c.isTarget m with
      | false => rfl
      | true => exact absurd ⟨ha, htar⟩ hA

theorem Move.grew (h : Move c ds c') (hs : c.Sound) {cpu : Nat} (hne : cpu ≠ c.cpu) {other : Message}
    (hm : other ∈ c.waiting cpu) : other ∈ c'.waiting cpu := by
  cases h with
  | act a ha => exact (act_runs hs ha).grown.mem hm
  | handle msg bus ht => exact (runs_take hs ht).grown.mem (mem_of_take ht hm fun e => absurd e hne)

end Core

namespace Machine

variable {m : Machine} {cpu i j : Nat} {c c' : Core} {vm vm' : Vm} {l : Line} {ds : List Deed}

def noPending (m : Machine) (cpu : Nat) : Bool := (m.interfaces.get cpu).control.noPending

theorem noPending_core (hc : m.core? cpu = some (i, c)) : c.noPending m.noPending = m.noPending := by
  funext k
  unfold Core.noPending
  rw [cpu_of_core? hc, interface_of_core? hc]
  split
  next e => rw [e]; rfl
  next => rfl

theorem waiting_core (hc : m.core? cpu = some (i, c)) : c.waiting = m.waiting := by
  funext k
  unfold Core.waiting waiting
  rw [bus_of_core? hc]

theorem noPending_putCore (m : Machine) (c' : Core) : (m.putCore i c').noPending = c'.noPending m.noPending := by
  funext k
  unfold noPending Core.noPending
  rw [interfaces_putCore]
  by_cases hk : c'.cpu = k
  · rw [if_pos hk, if_pos hk.symm]
  · rw [if_neg hk, if_neg (Ne.symm hk)]

theorem Sound.disjoint (h : m.Sound) (hi : m.vms[i]? = some vm) (hj : m.vms[j]? = some vm') (hne : j ≠ i) {v w k : Nat}
    (hv : vm.pcpuOf? v = some k) (hw : vm'.pcpuOf? w = some k) : False := by
  have ha := h.assigned hi v k hv
  rw [h.assigned hj w k hw] at ha
  cases ha
  exact hne rfl

theorem Sound.cpu_ne (h : m.Sound) (hc : m.core? cpu = some (i, c)) (hj : m.vms[j]? = some vm) (hne : j ≠ i) {v k : Nat}
    (hk : vm.pcpuOf? v = some k) : k ≠ c.cpu := by
  rintro rfl
  exact h.disjoint (vm_of_core? hc) hj hne (h.core hc).station.here hk

/-- Nobody is forgotten on this machine. -/
def Covered (m : Machine) : Prop :=
  ∀ (i : Nat) (vm : Vm), m.vms[i]? = some vm → ∀ l, vm.Has l → vm.Covered m.waiting m.noPending l

theorem Covered.move (h : m.Covered) (hs : m.Sound) (hc : m.core? cpu = some (i, c)) (hmv : c.Move ds c') :
    (m.putCore i c').Covered := by
  have hcs := hs.core hc
  have hloc := hmv.local_ hcs
  intro j vm hj l hl
  rw [noPending_putCore]
  rcases vm_of_putCore hc hj with ⟨rfl, rfl⟩ | ⟨hne, hj⟩
  · have hl' := (Vm.has_congr hloc.partition l).1 hl
    have hcov := h j c.vm (vm_of_core? hc) l hl'
    rw [← noPending_core hc, ← waiting_core hc] at hcov
    exact hmv.covered hcs (hs.rest (vm_of_core? hc)) hl' hcov
  · have hother : ∀ v k, vm.pcpuOf? v = some k → k ≠ c.cpu := fun v k hk => hs.cpu_ne hc hj hne hk
    refine (h j vm hj l hl).mono rfl rfl (fun v k hk msg hmsg => ?_) (fun v k hk hn => ?_)
    · rw [← waiting_core hc] at hmsg
      exact hmv.grew hcs (hother v k hk) hmsg
    · unfold Core.noPending
      rw [hloc.cpu, if_neg (hother v k hk)]
      exact hn

/-- **At all times nobody is forgotten.** -/
theorem Arises.covered (h : m.Arises) : m.Covered := by
  refine h.induct (fun m cpus sizes doorbell ps hb i vm hi l hl hst => ?_) fun m cpu i c ds c' hm hcov hc hmv =>
    hcov.move hm.sound hc hmv
  have := hst.state
  rw [((booted_of_boot hb).fresh i vm hi).state l hl] at this
  cases this

/-- **No lost interrupt**: a pending interrupt that is enabled, in no list register and has a target is named by a
message to the core of a target, or it is on its spill list and the core of a target that may take it wants maintenance
when nothing is pending there. -/
theorem Reachable.told_or_parked (h : m.Reachable) (hvm : m.vms[i]? = some vm) (hl : vm.Has l)
    (state : (vm.interrupt l).state = ⟨true, false⟩) (enabled : (vm.interrupt l).enabled = true)
    (off : (vm.interrupt l).resident = false) (targets : vm.targets l (vm.interrupt l) ≠ 0) :
    (∃ v cpu msg, (vm.targets l (vm.interrupt l)).getLsbD v = true ∧ vm.pcpuOf? v = some cpu ∧
      msg ∈ m.waiting cpu ∧ msg.About .route vm l) ∨
    (l.id ∈ vm.spillList l.home? ∧ ∃ v cpu, (vm.targets l (vm.interrupt l)).getLsbD v = true ∧
      ((vm.interrupt l).owner = none ∨ (vm.interrupt l).owner = some v) ∧ vm.pcpuOf? v = some cpu ∧
      (m.interfaces.get cpu).control.noPending = true) := by
  rcases h.arises.covered i vm hvm l hl ⟨state, enabled, off, targets⟩ with told | ⟨hsp, v, cpu, hv, hav, hcpu, hn⟩
  · exact .inl told
  · refine .inr ⟨((h.arises.sound.lists hvm).mem_iff l hl).2 hsp, v, cpu, hv, ?_, hcpu, hn⟩
    unfold Interrupt.availableTo at hav
    rwa [Bool.or_eq_true, beq_iff_eq, beq_iff_eq] at hav

theorem told_or_parked_crowded : (crowded.firstVm.interrupt (.shared 33)).state = ⟨true, false⟩ ∧
    ((∃ v cpu msg, (crowded.firstVm.targets (.shared 33) (crowded.firstVm.interrupt (.shared 33))).getLsbD v = true ∧
      crowded.firstVm.pcpuOf? v = some cpu ∧ msg ∈ crowded.waiting cpu ∧ msg.About .route crowded.firstVm (.shared 33)) ∨
    (33 ∈ crowded.firstVm.spillList none ∧ ∃ v cpu,
      (crowded.firstVm.targets (.shared 33) (crowded.firstVm.interrupt (.shared 33))).getLsbD v = true ∧
      ((crowded.firstVm.interrupt (.shared 33)).owner = none ∨ (crowded.firstVm.interrupt (.shared 33)).owner = some v) ∧
      crowded.firstVm.pcpuOf? v = some cpu ∧ (crowded.interfaces.get cpu).control.noPending = true)) := by
  have has : crowded.firstVm.Has (.shared 33) := ⟨by decide +kernel, by decide, fun _ h => (by cases h)⟩
  have state : (crowded.firstVm.interrupt (.shared 33)).state = ⟨true, false⟩ := by decide +kernel
  exact ⟨state, reachable_crowded.told_or_parked (vms_zero (by decide +kernel)) has state (by decide +kernel)
    (by decide +kernel) (by decide +kernel)⟩

end Machine
end VirtualGic
