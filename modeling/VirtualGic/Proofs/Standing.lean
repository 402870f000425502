import VirtualGic.Proofs.Tally
import VirtualGic.Proofs.Truth
/-!
# What an interrupt is, wherever it is

`Machine.standing`: the record that an interrupt would have out of its list register, on whatever CPU that is.  It
changes by the deeds on the interrupt and by nothing else (`Machine.standing_move`).
-/
namespace VirtualGic

namespace Core

variable {c c' : Core} {l m : Line} {ds : List Deed} {msg : Message}

/-! ## Deeds that raise -/

theorem deedOf_ne_raise (w : FieldWrite) (k : Line) : c.deedOf w ≠ .raise k := by
  unfold deedOf
  split <;> exact fun e => by cases e

theorem tallies_of_ne (h : ∀ k, .raise k ∉ ds) : ∀ d ∈ ds, d.Tallies c.vm := fun _ hd k e => absurd (e ▸ hd) (h k)

theorem tallies_deedOf (w : FieldWrite) : (c.deedOf w).Tallies c.vm := fun k e => absurd e (deedOf_ne_raise w k)

/-- A version 2 software interrupt does not fire. -/
theorem Injected.tallies {d : Deed} (h : c.Injected d) (hs : c.Sound) : d.Tallies c.vm := by
  cases h with
  | fired has hw =>
    intro k e
    cases e
    refine Bool.eq_false_iff.2 fun counts => ?_
    rw [hs.soft_of_counts has counts] at hw
    cases hw
  | pends => exact tallies_deedOf _

theorem tallies_deeds (hs : c.Sound) (a : Action) : ∀ d ∈ c.deeds a, d.Tallies c.vm := by
  intro d hd
  cases undertaken_deeds hd with
  | asked => exact tallies_deedOf _
  | injected injected => exact injected.tallies hs
  | deactivate | acknowledge | complete => exact fun _ e => by cases e

theorem tallies_messageDeeds (hs : c.Sound) (msg : Message) : ∀ d ∈ c.messageDeeds msg, d.Tallies c.vm := by
  intro d hd
  rcases mem_messageDeeds hd with injected | ⟨g, l, -, -, rfl⟩
  · exact injected.tallies hs
  · exact tallies_deedOf _

/-! ## Moves -/

theorem recalled_alike (h : Alike c c') (m : Line) : c'.recalled m = c.recalled m := by
  unfold recalled
  rw [h.held? m, h.interrupt]
  split
  next => exact takenBack_congr h.partition (h.interrupt m) _
  next => rfl

/-- Requests and the bits that tell of them go together wherever this core may see to it. -/
def Tallied (c : Core) : Prop :=
  ∀ l, c.vm.Has l → c.mayClaim l = true → c.vm.countsRequesters l = true → (c.interrupt l).Tallied (c.held? l)

theorem Does.keepsTallied {d : Option Deed} (h : Does c c' d) (hs : c.Sound) (ht : c.Tallied)
    (tallies : ∀ a ∈ d, a.Tallies c.vm) : c'.Tallied := fun l hl may counts => by
  have hp := h.same.partition
  have hl' := (Vm.has_congr hp l).1 hl
  rw [h.local_.mayClaim hl'] at may
  rw [Vm.countsRequesters_congr hp] at counts
  exact h.tallied hs hl' tallies counts (ht l hl' may counts)

theorem Move.keepsTallied (h : Move c ds c') (hs : c.Sound) (ht : c.Tallied) : c'.Tallied := fun l hl may counts => by
  have hloc := h.local_ hs
  have hl' := (Vm.has_congr hloc.partition l).1 hl
  rw [hloc.mayClaim hl'] at may
  rw [Vm.countsRequesters_congr hloc.partition] at counts
  have tallied := ht l hl' may counts
  cases h with
  | act a ha => exact (act_runs hs ha).tallied hs hl' (tallies_deeds hs a) counts tallied
  | handle msg bus hb =>
    exact (runs_take hs hb).tallied (hs.alike (alike_take hb)) hl' (tallies_messageDeeds hs msg) counts
      ((alike_take hb).tallied tallied)

/-- **A move changes an interrupt by its deeds only.** -/
theorem Move.agrees (h : Move c ds c') (hs : c.Sound) (hm : c.vm.Has m)
    (unasked : c.vm.countsRequesters m = true → .acknowledge m ∉ ds)
    (tallied : c.vm.countsRequesters m = true → (c.interrupt m).Tallied (c.held? m)) :
    (Deed.edits c.vm ds m (c.recalled m)).Agrees ((c.interrupt m).hardware = false) (c'.recalled m) := by
  have unasked : ∀ a ∈ ds, c.vm.countsRequesters m = true → a ≠ .acknowledge m := fun a ha hc e =>
    unasked hc (e ▸ ha)
  cases h with
  | act a ha => exact (act_runs hs ha).agrees hs hm (tallies_deeds hs a) unasked tallied
  | handle msg bus ht =>
    have := (runs_take hs ht).agrees (hs.alike (alike_take ht)) hm (tallies_messageDeeds hs msg) unasked fun hc =>
      (alike_take ht).tallied (tallied hc)
    rwa [recalled_alike (alike_take ht)] at this

theorem Move.edits_of_elsewhere (h : Move c ds c') (hs : c.Sound) (hm : c.vm.Has m) (may : c.mayClaim m = false)
    (s : Interrupt) : Deed.edits c.vm ds m s = s := by
  cases h with
  | act a ha => exact (act_runs hs ha).edits_of_elsewhere hm may s
  | handle msg bus ht => exact (runs_take hs ht).edits_of_elsewhere hm may s

end Core

namespace Machine

variable {m : Machine} {cpu i j : Nat} {c c' : Core} {vm : Vm} {l : Line} {ds : List Deed}

/-- What a core may claim is where the core has it, before and after, and the rest stays where it is. -/
theorem held?_cases (h : m.Sound) (h' : (m.putCore i c').Sound) (hc : m.core? cpu = some (i, c)) (hloc : Core.Local c c')
    (hl : c.vm.Has l) :
    c.mayClaim l = true ∧ m.held? c.vm l = c.held? l ∧ (m.putCore i c').held? c'.vm l = c'.held? l ∨
      c.mayClaim l = false ∧ c'.vm.interrupt l = c.vm.interrupt l ∧ (m.putCore i c').held? c'.vm l = m.held? c.vm l := by
  cases may : c.mayClaim l with
  | true =>
    exact .inl ⟨rfl, held?_of_mayClaim h hc hl may, held?_of_mayClaim h' (core?_putCore hc hloc.cpu hloc.vcpu)
      ((Vm.has_congr hloc.partition l).2 hl) ((hloc.mayClaim hl).trans may)⟩
  | false => exact .inr ⟨rfl, held?_putCore_of_elsewhere h hc hloc hl may⟩

/-- The record that an interrupt has once it is taken out of its list register, on whatever CPU. -/
def standing (m : Machine) (vm : Vm) (l : Line) : Interrupt :=
  match m.held? vm l with
  | some r =>
    let s := { vm.interrupt l with resident := false, state := r.state }
    if vm.countsRequesters l then r.restoreRequest s else s
  | none => vm.interrupt l

theorem standing_eq_recalled (held : m.held? c.vm l = c.held? l) : m.standing c.vm l = c.recalled l := by
  unfold standing
  rw [held]
  rfl

theorem standing_of_mayClaim (h : m.Sound) (hc : m.core? cpu = some (i, c)) (hl : c.vm.Has l)
    (may : c.mayClaim l = true) : m.standing c.vm l = c.recalled l :=
  standing_eq_recalled (held?_of_mayClaim h hc hl may)

theorem standing_congr {m' : Machine} {vm' : Vm} (hp : vm'.partition = vm.partition)
    (record : vm'.interrupt l = vm.interrupt l) (held : m'.held? vm' l = m.held? vm l) :
    m'.standing vm' l = m.standing vm l := by
  unfold standing
  rw [held, record, Vm.countsRequesters_congr hp]

theorem sameSettings_standing (m : Machine) (vm : Vm) (l : Line) : (vm.interrupt l).SameSettings (m.standing vm l) := by
  unfold standing
  split
  next =>
    simp only
    split <;> exact ⟨rfl, rfl, rfl, rfl, rfl, rfl, rfl, rfl⟩
  next => exact .refl _

theorem trueState_eq_standing (plain : vm.countsRequesters l = false) : m.trueState vm l = (m.standing vm l).state := by
  unfold trueState standing
  cases m.held? vm l with
  | some r => simp only [plain, Bool.false_eq_true, if_false]
  | none => rfl

theorem active_standing (m : Machine) (vm : Vm) (l : Line) :
    (m.standing vm l).state.active = (m.trueState vm l).active := by
  unfold trueState standing
  cases m.held? vm l with
  | some r =>
    simp only
    split <;> rfl
  | none => rfl

theorem trueRequesters_eq_standing (counts : vm.countsRequesters l = true) :
    m.trueRequesters vm l = (m.standing vm l).requesters := by
  unfold trueRequesters standing
  cases m.held? vm l with
  | some r => simp only [counts, if_true, ListRegister.restoreRequest]
  | none => rfl

/-! ## Requests, wherever they are -/

def Tallied (m : Machine) : Prop :=
  ∀ (i : Nat) (vm : Vm), m.vms[i]? = some vm → ∀ l, vm.Has l → vm.countsRequesters l = true →
    (vm.interrupt l).Tallied (m.held? vm l)

theorem Tallied.core (h : m.Tallied) (hs : m.Sound) (hc : m.core? cpu = some (i, c)) : c.Tallied := fun l hl may counts => by
  rw [← held?_of_mayClaim hs hc hl may]
  exact h i c.vm (vm_of_core? hc) l hl counts

theorem Tallied.putCore (h : m.Tallied) (hs : m.Sound) (hs' : (m.putCore i c').Sound) (hc : m.core? cpu = some (i, c))
    (hloc : Core.Local c c') (ht : c'.Tallied) : (m.putCore i c').Tallied := by
  intro j vm hj l hl counts
  rcases vm_of_putCore hc hj with ⟨rfl, rfl⟩ | ⟨hne, hj⟩
  · have hl' := (Vm.has_congr hloc.partition l).1 hl
    rcases held?_cases hs hs' hc hloc hl' with ⟨may, -, held⟩ | ⟨-, record, held⟩
    · rw [held]
      exact ht l hl ((hloc.mayClaim hl').trans may) counts
    · rw [record, held]
      exact h j c.vm (vm_of_core? hc) l hl' ((Vm.countsRequesters_congr hloc.partition l).symm.trans counts)
  · rw [held?_other hs hc hloc.cpu hj hne]
    exact h j vm hj l hl counts

theorem Tallied.move (h : m.Tallied) (hs : m.Sound) (hc : m.core? cpu = some (i, c)) (hmv : c.Move ds c') :
    (m.putCore i c').Tallied :=
  h.putCore hs (hs.move hc hmv) hc (hmv.local_ (hs.core hc)) (hmv.keepsTallied (hs.core hc) (h.core hs hc))

/-- **At all times requests and the bits that tell of them go together.** -/
theorem Arises.tallied (h : m.Arises) : m.Tallied := by
  refine h.induct (fun m cpus sizes doorbell ps hb i vm hi l hl counts => ?_) fun m cpu i c ds c' hm ht hc hmv =>
    ht.move hm.sound hc hmv
  have fresh := (booted_of_boot hb).fresh i vm hi
  rw [held?_eq_of_off (fresh.resident l hl)]
  refine Interrupt.tallied_none ?_
  rw [fresh.state l hl, fresh.requesters l hl]
  rfl

/-- **What an interrupt of a core's own VM is changes by the deeds of the core.** -/
theorem standing_move (h : m.Sound) (ht : m.Tallied) (hc : m.core? cpu = some (i, c)) (hmv : c.Move ds c')
    (hl : c.vm.Has l) (unasked : c.vm.countsRequesters l = true → .acknowledge l ∉ ds) :
    (Deed.edits c.vm ds l (m.standing c.vm l)).Agrees ((c.vm.interrupt l).hardware = false)
      ((m.putCore i c').standing c'.vm l) := by
  have hcs := h.core hc
  have hloc := hmv.local_ hcs
  rcases held?_cases h (h.move hc hmv) hc hloc hl with ⟨may, held, held'⟩ | ⟨may, record, held⟩
  · rw [standing_eq_recalled held, standing_eq_recalled held']
    exact hmv.agrees hcs hl unasked (ht.core h hc l hl may)
  · rw [hmv.edits_of_elsewhere hcs hl may, standing_congr hloc.partition record held]
    exact .refl _ _

end Machine
end VirtualGic
