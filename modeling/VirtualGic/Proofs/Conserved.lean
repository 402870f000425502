import VirtualGic.Proofs.Forgotten
import VirtualGic.Proofs.Places
/-!
# Every interrupt has its place

Once no message waits, an enabled interrupt that has something to do is in one list register or once on its spill list
(`Machine.Place`).  The one way out is an active interrupt of which the owner is no target: it is not given up while it
is active, so it is neither placed here nor offered to anyone (`Vm.Tended`).
-/
namespace VirtualGic

/-! ## Active interrupts -/

/-- Active and enabled, and neither in a list register nor parked. -/
structure Vm.Loose (vm : Vm) (l : Line) : Prop where
  active : (vm.interrupt l).state.active = true
  enabled : (vm.interrupt l).enabled = true
  off : (vm.interrupt l).resident = false
  unspilled : (vm.interrupt l).spilled = false

/-- The interrupt is owned by a vCPU that it does not target. -/
def Vm.Astray (vm : Vm) (l : Line) : Prop :=
  ∃ v, (vm.interrupt l).owner = some v ∧ (vm.targets l (vm.interrupt l)).getLsbD v = false

def Vm.Tended (vm : Vm) (l : Line) : Prop := vm.Loose l → vm.Astray l

theorem Vm.Tended.congr {vm vm' : Vm} {l : Line} (h : vm.Tended l) (hp : vm'.partition = vm.partition)
    (hi : vm'.interrupt l = vm.interrupt l) : vm'.Tended l := by
  intro hl
  obtain ⟨h1, h2, h3, h4⟩ := hl
  rw [hi] at h1 h2 h3 h4
  obtain ⟨v, ho, ht⟩ := h ⟨h1, h2, h3, h4⟩
  exact ⟨v, by rw [hi]; exact ho, by rw [hi, targets_congr hp]; exact ht⟩

namespace Core

variable {c c' : Core} {l m : Line} {s : Interrupt} {d : Option Deed} {ds : List Deed}

/-- **The interrupt in hand ends tended**: what is active is not given up. -/
theorem Handled.tended (h : Handled c c' l s) : c'.vm.Tended l := by
  intro hl
  obtain ⟨h1, h2, h3, h4⟩ := hl
  cases h.final with
  | quiet why record =>
    rw [show c'.vm.interrupt l = _ from record] at h1 h2
    rw [Interrupt.state_release] at h1
    rw [(Interrupt.sameSettings_release ..).enabled] at h2
    rcases why with idle | disabled
    · cases idle.symm.trans (Interrupt.State.isIdle_of_active h1)
    · rw [disabled] at h2
      cases h2
  | seated n q r target record =>
    rw [show c'.vm.interrupt l = _ from record] at h3
    cases h3
  | parked busy target record =>
    rw [show c'.vm.interrupt l = _ from record, Interrupt.spilled_release] at h4
    cases h4
  | offered busy target record =>
    rw [show c'.vm.interrupt l = _ from record, Interrupt.state_release] at h1
    have hrec : c'.vm.interrupt l = s := record.trans (Interrupt.release_of_active h1)
    refine ⟨c.vcpu, by rw [hrec]; exact h.mine, ?_⟩
    rw [hrec, Vm.targets_congr h.frame.partition]
    exact target

theorem Fate.tended (h : Fate c c' m) (same : Same c c') (ht : c.vm.Tended m) : c'.vm.Tended m := by
  cases h with
  | kept record => exact ht.congr same.partition record
  | evicted r held busy record =>
    intro hl
    have := hl.unspilled
    rw [show c'.vm.interrupt m = _ from record, Interrupt.spilled_release] at this
    cases this
  | settled r held empty record =>
    intro hl
    have := hl.active
    rw [show c'.vm.interrupt m = _ from record, Interrupt.state_release] at this
    cases this

theorem tended_returned (may : c.mayClaim l = true) (ht : c.vm.Tended l) : ((c.claim l).release l).vm.Tended l := by
  intro hl
  have hp := ((frame_claim c l).trans (frame_release _ l)).partition
  have hrec : ((c.claim l).release l).vm.interrupt l =
      Interrupt.release { c.interrupt l with owner := some c.vcpu } c.vm.version l c.vcpu :=
    (interrupt_returned may l).trans (if_pos rfl)
  have active : (c.interrupt l).state.active = true := by
    have := hl.active
    rw [hrec, Interrupt.state_release] at this
    exact this
  have hrec : ((c.claim l).release l).vm.interrupt l = { c.interrupt l with owner := some c.vcpu } :=
    hrec.trans (Interrupt.release_of_active active)
  obtain ⟨-, h2, h3, h4⟩ := hl
  rw [hrec] at h2 h3 h4
  obtain ⟨v, ho, target⟩ := ht ⟨active, h2, h3, h4⟩
  -- a vCPU that may claim what is owned owns it
  have hv : v = c.vcpu := by
    rcases (c.mayClaim_iff l).1 may with free | mine
    · cases free.symm.trans ho
    · exact Option.some.inj (ho.symm.trans mine)
  refine ⟨v, by rw [hrec, hv], ?_⟩
  rw [hrec, Vm.targets_congr hp]
  exact target

/-- **Whatever a core does, active interrupts stay tended.** -/
theorem Does.tended (h : Does c c' d) (hm : c.vm.Has m) (ht : c.vm.Tended m) : c'.vm.Tended m := by
  cases h with
  | handled l s deed h =>
    by_cases hml : m = l
    · subst hml
      exact h.tended
    · exact (h.frame.fate m hm hml).tended h.frame.toSame ht
  | returned l has may eq =>
    rw [eq]
    by_cases hlm : l = m
    · subst hlm
      exact tended_returned may ht
    · exact ht.congr ((frame_claim c l).trans (frame_release _ l)).partition ((interrupt_returned may m).trans (if_neg hlm))
  | forwarded g l v h => exact ht.congr h.posted.alike.partition (h.posted.interrupt m)
  | posted r other h => exact ht.congr h.alike.partition (h.interrupt m)
  | restated a n has credited guest eq =>
    rw [eq]
    exact ht
  | aside h => exact ht.congr h.partition (h.interrupt m)
  | dropped pendingOnly drained eq =>
    rw [eq]
    exact ht

theorem Runs.tended (h : Runs c ds c') (hm : c.vm.Has m) (ht : c.vm.Tended m) : c'.vm.Tended m := by
  induction h with
  | nil => exact ht
  | cons hd _ ih => exact ih ((Vm.has_congr hd.same.partition m).2 hm) (hd.tended hm ht)

theorem Move.tended (h : Move c ds c') (hs : c.Sound) (hm : c.vm.Has m) (ht : c.vm.Tended m) : c'.vm.Tended m := by
  cases h with
  | act a ha => exact (act_runs hs ha).tended hm ht
  | handle msg bus hb => exact (runs_take hs hb).tended hm ht

end Core

namespace Machine

variable {m : Machine} {cpu i n : Nat} {vm : Vm} {l : Line}

/-- **At all times active interrupts are tended.** -/
theorem Arises.tended (h : m.Arises) (hvm : m.vms[i]? = some vm) (hl : vm.Has l) : vm.Tended l := by
  refine h.induct (P := fun m => ∀ (i : Nat) (vm : Vm), m.vms[i]? = some vm → ∀ l, vm.Has l → vm.Tended l)
    (fun m cpus sizes doorbell ps hb i vm hi l hl hloose => ?_) (fun m cpu i c ds c' hm ht hc hmv j vm hj l hl => ?_)
    i vm hvm l hl
  · have := hloose.active
    rw [((booted_of_boot hb).fresh i vm hi).state l hl] at this
    cases this
  · rcases vm_of_putCore hc hj with ⟨rfl, rfl⟩ | ⟨-, hj⟩
    · have hcs := hm.sound.core hc
      have hl' := (Vm.has_congr (hmv.local_ hcs).partition l).1 hl
      exact hmv.tended hcs hl' (ht j c.vm (vm_of_core? hc) l hl')
    · exact ht j vm hj l hl

/-! ## Places -/

/-- A list register of a CPU holds an interrupt of a VM. -/
def Holds (m : Machine) (i : Nat) (l : Line) (cpu n : Nat) : Prop :=
  ∃ c, m.core? cpu = some (i, c) ∧ (c.interface.read n).InUse ∧ c.find? (c.interface.read n).intid.toNat = some l

/-- How an interrupt is in one place: a single list register, or its spill list. -/
inductive Place (m : Machine) (i : Nat) (vm : Vm) (l : Line) : Prop
  | held (cpu n : Nat) (here : m.Holds i l cpu n) (only : ∀ k n', m.Holds i l k n' → k = cpu ∧ n' = n)
    (unlisted : l.id ∉ vm.spillList l.home?)
  | parked (unheld : ∀ cpu n, ¬ m.Holds i l cpu n) (once : (vm.spillList l.home?).count l.id = 1)

theorem Sound.resident_of_holds (h : m.Sound) (hvm : m.vms[i]? = some vm) (hh : m.Holds i l cpu n) :
    (vm.interrupt l).resident = true := by
  obtain ⟨c, hc, hu, hf⟩ := hh
  obtain ⟨k, hk, -, credits⟩ := h.credited hc hu
  obtain rfl := Option.some.inj (hk.symm.trans hf)
  obtain rfl := Option.some.inj ((vm_of_core? hc).symm.trans hvm)
  exact credits.2.1

/-- What is resident is held by one list register, unless it is idle there. -/
theorem Sound.place_of_resident (h : m.Sound) (hvm : m.vms[i]? = some vm) (hl : vm.Has l)
    (resident : (vm.interrupt l).resident = true) (busy : (m.trueState vm l).isIdle = false) : m.Place i vm l := by
  obtain ⟨v, ho, -, -⟩ := (h.records hvm l hl).resident_owner resident
  obtain ⟨cpu, hcpu⟩ := Vm.exists_pcpuOf? ((h.records hvm l hl).owner_lt v ho)
  have hc := h.core_of_pcpuOf? hvm hcpu
  have hcs := h.core hc
  have credits : vm.Credits v l (vm.interrupt l).slot := ⟨ho, resident, rfl⟩
  have names := (hcs.seated.seat l _ hl credits).names
  rw [ListRegister.names, beq_iff_eq] at names
  have held : m.held? vm l = some ((m.interfaces.get cpu).read (vm.interrupt l).slot) := by
    simp only [held?, resident, if_true, ownerCpu?, ho, Option.bind_some, hcpu, Option.map_some]
  have inUse : ((m.interfaces.get cpu).read (vm.interrupt l).slot).InUse := by
    unfold trueState at busy
    rw [held] at busy
    exact .inl busy
  have found : vm.find? v ((m.interfaces.get cpu).read (vm.interrupt l).slot).intid.toNat = some l := by
    rw [names]
    exact (hcs.find?_occupant hl credits).2
  refine .held cpu (vm.interrupt l).slot ⟨_, hc, inUse, found⟩ (fun k n' hh => ?_) fun hm => ?_
  · obtain ⟨d, hd, hu, hf⟩ := hh
    exact h.places.unique hd hc hu inUse hf found
  · have := ((h.lists hvm).mem_iff l hl).1 hm
    exact h.places.apart hvm hl ⟨resident, this⟩

theorem place_of_spilled (h : m.Sound) (hvm : m.vms[i]? = some vm) (hl : vm.Has l)
    (spilled : (vm.interrupt l).spilled = true) : m.Place i vm l := by
  refine .parked (fun cpu n hh => ?_) ?_
  · exact h.places.apart hvm hl ⟨h.resident_of_holds hvm hh, spilled⟩
  · rw [(h.lists hvm).count hl, if_pos spilled]

/-- **Conservation**: once no message waits, an enabled interrupt that has a target and is not idle is in one list
register or once on its spill list, unless it is active in no list register and its owner is none of its targets.  Then
it has no place. -/
theorem Reachable.conserved (h : m.Reachable) (quiet : m.Quiet) (hvm : m.vms[i]? = some vm) (hl : vm.Has l)
    (enabled : (vm.interrupt l).enabled = true) (targets : vm.targets l (vm.interrupt l) ≠ 0)
    (busy : (m.trueState vm l).isIdle = false) :
    m.Place i vm l ∨
      (vm.interrupt l).state.active = true ∧
        (∃ v, (vm.interrupt l).owner = some v ∧ (vm.targets l (vm.interrupt l)).getLsbD v = false) ∧
        (∀ cpu n, ¬ m.Holds i l cpu n) ∧ l.id ∉ vm.spillList l.home? := by
  have hs := h.arises.sound
  cases resident : (vm.interrupt l).resident with
  | true => exact .inl (hs.place_of_resident hvm hl resident busy)
  | false =>
    have unheld : ∀ cpu n, ¬ m.Holds i l cpu n := fun cpu n hh => by
      rw [hs.resident_of_holds hvm hh] at resident
      cases resident
    cases spilled : (vm.interrupt l).spilled with
    | true => exact .inl (place_of_spilled hs hvm hl spilled)
    | false =>
      have unlisted : l.id ∉ vm.spillList l.home? := fun hm => by
        rw [((hs.lists hvm).mem_iff l hl).1 hm] at spilled
        cases spilled
      have here : m.trueState vm l = (vm.interrupt l).state := by
        simp only [trueState, held?, resident, Bool.false_eq_true, if_false]
      rw [here] at busy
      cases active : (vm.interrupt l).state.active with
      | true => exact .inr ⟨rfl, h.arises.tended hvm hl ⟨active, enabled, resident, spilled⟩, unheld, unlisted⟩
      | false =>
        -- what is only pending is parked or has a message about it, and none waits
        have state : (vm.interrupt l).state = ⟨true, false⟩ := Interrupt.State.eq_of_not_active busy active
        rcases h.arises.covered i vm hvm l hl ⟨state, enabled, resident, targets⟩ with ⟨v, k, msg, -, -, hm, -⟩ | ⟨hsp, -⟩
        · rw [quiet k] at hm
          cases hm
        · rw [hsp] at spilled
          cases spilled

theorem conserved_crowded : (crowded.firstVm.interrupt (.shared 33)).spilled = true ∧
    crowded.Place 0 crowded.firstVm (.shared 33) := by
  have has : crowded.firstVm.Has (.shared 33) := ⟨by decide +kernel, by decide, fun _ h => (by cases h)⟩
  refine ⟨by decide +kernel, ?_⟩
  rcases reachable_crowded.conserved (quiet_of_all (by decide +kernel)) (vms_zero (by decide +kernel)) has
    (by decide +kernel) (by decide +kernel) (by decide +kernel) with place | ⟨active, -⟩
  · exact place
  · exact absurd active (by decide +kernel)

/-- The first CPU's guest routes an interrupt to the second CPU and makes it active. -/
def stray : Machine :=
  (started 2 [1] [.standard .v2 1 64 [0, 1] []]).run
    [⟨0, store (distributorBase + 0x104) 4 1⟩, ⟨0, store (distributorBase + 0x820) 1 2⟩,
      ⟨0, store (distributorBase + 0x304) 4 1⟩]

theorem reachable_stray : stray.Reachable := (reachable_started (by decide +kernel)).run _

/-- **An active interrupt may have no place**: enabled, with a target, in no list register and on no spill list. -/
theorem nowhere_stray : stray.Reachable ∧ stray.Quiet ∧ (stray.firstVm.interrupt (.shared 32)).enabled = true ∧
    stray.firstVm.targets (.shared 32) (stray.firstVm.interrupt (.shared 32)) ≠ 0 ∧
    (stray.trueState stray.firstVm (.shared 32)).isIdle = false ∧ ¬ stray.Place 0 stray.firstVm (.shared 32) := by
  have hvm := vms_zero (m := stray) (by decide +kernel)
  refine ⟨reachable_stray, quiet_of_all (by decide +kernel), by decide +kernel, by decide +kernel, by decide +kernel, ?_⟩
  rintro (⟨cpu, n, here, -, -⟩ | ⟨-, once⟩)
  · exact absurd (reachable_stray.arises.sound.resident_of_holds hvm here) (by decide +kernel)
  · exact absurd once (by decide +kernel)

end Machine
end VirtualGic
