import VirtualGic.Proofs.Boot
import VirtualGic.Proofs.Course
/-!
# What a machine goes through

`Machine.Arises`: the states that a machine passes through, those between the messages of one poll included.  A poll
is the handling of single messages (`step_poll`), so every reachable state arises, and an invariant has to be shown
for single moves of single cores only.
-/
namespace VirtualGic

namespace Core

variable {c c' : Core} {l : Line} {ds : List Deed}

/-- What a core does at one time, with its deeds: an action, or the handling of its oldest message. -/
inductive Move (c : Core) : List Deed → Core → Prop
  | act (a : Action) (h : a ≠ .poll) : Move c (c.deeds a) (c.act a)
  | handle (m : Message) (bus : MessageBus) (h : c.bus.take c.cpu = some (m, bus)) :
    Move c (c.messageDeeds m) (({ c with bus := bus } : Core).handle m)

theorem alike_take {bus : MessageBus} {m : Message} (h : c.bus.take c.cpu = some (m, bus)) :
    Alike c { c with bus := bus } :=
  ⟨⟨rfl, rfl, MessageBus.cpus_take h, rfl⟩, fun _ => rfl, fun _ => rfl, fun _ _ => rfl, rfl⟩

theorem runs_take {bus : MessageBus} {m : Message} (hs : c.Sound) (h : c.bus.take c.cpu = some (m, bus)) :
    Runs { c with bus := bus } (c.messageDeeds m) (({ c with bus := bus } : Core).handle m) :=
  handle_runs (hs.alike (alike_take h)) m

theorem Move.sound (h : Move c ds c') (hs : c.Sound) : c'.Sound := by
  cases h with
  | act a ha => exact (act_runs hs ha).sound hs
  | handle m bus ht => exact (runs_take hs ht).sound (hs.alike (alike_take ht))

theorem Move.local_ (h : Move c ds c') (hs : c.Sound) : Local c c' := by
  cases h with
  | act a ha => exact (act_runs hs ha).local_
  | handle m bus ht => exact (alike_take ht).local_.trans (runs_take hs ht).local_

theorem Move.atRest (h : Move c ds c') (hs : c.Sound) (rest : ∀ l, c.vm.Has l → (c.interrupt l).AtRest l)
    (hl : c.vm.Has l) : (c'.interrupt l).AtRest l := by
  cases h with
  | act a ha => exact (act_runs hs ha).atRest hs rest hl
  | handle m bus ht => exact (runs_take hs ht).atRest (hs.alike (alike_take ht)) rest hl

theorem Move.bus_sound (h : Move c ds c') (hs : c.Sound) (hb : c.bus.Sound) : c'.bus.Sound := by
  cases h with
  | act a ha => exact (act_runs hs ha).grown.sound hb
  | handle m bus ht => exact (runs_take hs ht).grown.sound (hb.take ht)

theorem handleNext?_eq_some_iff (c d : Core) :
    c.handleNext? = some d ↔ ∃ m bus, c.bus.take c.cpu = some (m, bus) ∧ ({ c with bus := bus } : Core).handle m = d := by
  rw [handleNext?, Option.map_eq_some_iff]
  constructor
  · rintro ⟨⟨m, bus⟩, ht, e⟩
    exact ⟨m, bus, ht, e⟩
  · rintro ⟨m, bus, ht, e⟩
    exact ⟨⟨m, bus⟩, ht, e⟩

theorem same_handleUpTo (n : Nat) (c : Core) (hs : c.Sound) : Same c (c.handleUpTo n).2 := by
  induction n generalizing c with
  | zero => exact .refl c
  | succ n ih =>
    unfold handleUpTo
    cases hn : c.handleNext? with
    | none => exact .refl c
    | some d =>
      obtain ⟨m, bus, ht, rfl⟩ := (c.handleNext?_eq_some_iff d).1 hn
      have hmv : c.Move _ _ := .handle m bus ht
      exact (hmv.local_ hs).toSame.trans (ih _ (hmv.sound hs))

theorem same_act (hs : c.Sound) (a : Action) : Same c (c.act a) := by
  by_cases hp : a = .poll
  · subst hp
    exact same_handleUpTo _ c hs
  · exact ((Move.act a hp).local_ hs).toSame

end Core

namespace Machine

variable {m m' : Machine} {cpu i : Nat} {c c' : Core} {ds : List Deed}

/-- The states that a machine passes through. -/
inductive Arises : Machine → Prop
  | boot {cpus : Nat} {sizes : List Nat} {doorbell : Bool} {ps : List Partition} {m : Machine} :
    Machine.boot cpus sizes doorbell ps = .ok m → Arises m
  | act {m : Machine} (cpu : Nat) {a : Action} (h : a ≠ .poll) : Arises m → Arises (m.step ⟨cpu, a⟩)
  | handle {m m' : Machine} (cpu : Nat) : Arises m → m.handleNext? cpu = some m' → Arises m'

/-! ## Moves -/

theorem step_cases (m : Machine) (cpu : Nat) {a : Action} (h : a ≠ .poll) :
    (m.core? cpu = none ∧ m.step ⟨cpu, a⟩ = m) ∨
      ∃ i c, m.core? cpu = some (i, c) ∧ c.Move (c.deeds a) (c.act a) ∧ m.step ⟨cpu, a⟩ = m.putCore i (c.act a) := by
  cases hc : m.core? cpu with
  | none => exact .inl ⟨rfl, step_of_idle hc a⟩
  | some ic => exact .inr ⟨ic.1, ic.2, rfl, .act a h, step_of_core? hc a⟩

theorem handleNext?_cases (h : m.handleNext? cpu = some m') :
    ∃ i c msg bus, m.core? cpu = some (i, c) ∧ c.bus.take c.cpu = some (msg, bus) ∧
      c.Move (c.messageDeeds msg) (({ c with bus := bus } : Core).handle msg) ∧
      m' = m.putCore i (({ c with bus := bus } : Core).handle msg) := by
  unfold handleNext? at h
  rw [Option.bind_eq_some_iff] at h
  obtain ⟨⟨i, c⟩, hc, h⟩ := h
  rw [Option.map_eq_some_iff] at h
  obtain ⟨d, hd, rfl⟩ := h
  obtain ⟨msg, bus, ht, rfl⟩ := (c.handleNext?_eq_some_iff d).1 hd
  exact ⟨i, c, msg, bus, hc, ht, .handle msg bus ht, rfl⟩

/-- **What holds at the start and survives each move holds throughout.** -/
theorem Arises.induct {P : Machine → Prop} (h : m.Arises)
    (boot : ∀ m cpus sizes doorbell ps, Machine.boot cpus sizes doorbell ps = .ok m → P m)
    (move : ∀ m cpu i c ds c', m.Arises → P m → m.core? cpu = some (i, c) → c.Move ds c' → P (m.putCore i c')) : P m := by
  induction h with
  | boot h => exact boot _ _ _ _ _ h
  | act cpu ha hm ih =>
    rcases step_cases _ cpu ha with ⟨-, e⟩ | ⟨i, c, hc, hmv, e⟩
    · rw [e]
      exact ih
    · rw [e]
      exact move _ cpu i c _ _ hm ih hc hmv
  | handle cpu hm h ih =>
    obtain ⟨i, c, msg, bus, hc, -, hmv, rfl⟩ := handleNext?_cases h
    exact move _ cpu i c _ _ hm ih hc hmv

/-- **What holds of a VM that was built and survives the moves of its cores holds of every VM at all times.** -/
theorem Arises.vm_induct {P : Vm → Prop} {vm : Vm} (h : m.Arises) (hvm : m.vms[i]? = some vm)
    (create : ∀ p cpus g g' vm, Vm.create p cpus g = (.ok vm, g') → P vm)
    (move : ∀ (m : Machine) cpu i (c : Core) ds (c' : Core), m.Arises → m.core? cpu = some (i, c) → c.Move ds c' →
      P c.vm → P c'.vm) : P vm := by
  refine h.induct (P := fun m => ∀ (i : Nat) (vm : Vm), m.vms[i]? = some vm → P vm) (fun m _ _ _ _ hb i vm hi => ?_)
    (fun m cpu i c ds c' hm ih hc hmv j vm hj => ?_) i vm hvm
  · obtain ⟨p, cpus, g, g', hcreate⟩ := created_of_boot hb hi
    exact create p cpus g g' vm hcreate
  · rcases vm_of_putCore hc hj with ⟨rfl, rfl⟩ | ⟨-, hj⟩
    · exact move m cpu j c ds c' hm hc hmv (ih j c.vm (vm_of_core? hc))
    · exact ih j vm hj

theorem Sound.move (h : m.Sound) (hc : m.core? cpu = some (i, c)) (hmv : c.Move ds c') : (m.putCore i c').Sound :=
  h.putCore hc (hmv.sound (h.core hc)) (hmv.local_ (h.core hc)) fun _ hl =>
    hmv.atRest (h.core hc) (h.rest (vm_of_core? hc)) hl

/-- **Every machine is sound at all times.** -/
theorem Arises.sound (h : m.Arises) : m.Sound :=
  h.induct (fun _ _ _ _ _ hb => (booted_of_boot hb).sound) fun _ _ _ _ _ _ _ hs hc hmv => hs.move hc hmv

theorem Arises.bus_sound (h : m.Arises) : m.bus.Sound :=
  h.induct (fun _ _ _ _ _ hb => (booted_of_boot hb).bus) fun _ _ _ _ _ _ hm hb hc hmv =>
    hmv.bus_sound (hm.sound.core hc) (by rw [bus_of_core? hc]; exact hb)

/-! ## Polls -/

/-- Handle up to `n` messages of a CPU, one after another. -/
def handleMany (cpu : Nat) : Nat → Machine → Machine
  | 0, m => m
  | n + 1, m =>
    match m.handleNext? cpu with
    | none => m
    | some m' => handleMany cpu n m'

theorem putCore_handleUpTo (n : Nat) (m : Machine) (c : Core) (h : m.Sound) (hc : m.core? cpu = some (i, c)) :
    m.putCore i (c.handleUpTo n).2 = handleMany cpu n m := by
  induction n generalizing m c with
  | zero => exact h.putCore_self hc
  | succ n ih =>
    unfold Core.handleUpTo handleMany handleNext?
    rw [hc, Option.bind_some]
    simp only
    cases hn : c.handleNext? with
    | none => exact h.putCore_self hc
    | some d =>
      obtain ⟨msg, bus, ht, rfl⟩ := (c.handleNext?_eq_some_iff d).1 hn
      have hmv : c.Move _ _ := .handle msg bus ht
      have hl := hmv.local_ (h.core hc)
      have hcpu := hl.cpu.trans (cpu_of_core? hc)
      have hc' := core?_putCore hc hl.cpu hl.vcpu
      have hput := ih _ _ (h.move hc hmv) hc'
      rw [h.putCore_putCore hc hcpu ((Core.same_handleUpTo n _ (hmv.sound (h.core hc))).cpu.trans hcpu)] at hput
      exact hput

/-- **A poll is the handling of messages one after another.** -/
theorem step_poll (h : m.Sound) (cpu : Nat) : m.step ⟨cpu, .poll⟩ = handleMany cpu (m.bus.pending cpu) m := by
  unfold step onCore
  cases hc : m.core? cpu with
  | none =>
    have hn : m.handleNext? cpu = none := by rw [handleNext?, hc]; rfl
    cases m.bus.pending cpu with
    | zero => rfl
    | succ n => rw [handleMany, hn]
  | some ic =>
    obtain ⟨i, c⟩ := ic
    show m.putCore i (c.handleUpTo (c.bus.pending c.cpu)).2 = _
    rw [bus_of_core? hc, cpu_of_core? hc]
    exact putCore_handleUpTo _ m c h hc

theorem arises_handleMany (n : Nat) (h : m.Arises) : (handleMany cpu n m).Arises := by
  induction n generalizing m with
  | zero => exact h
  | succ n ih =>
    unfold handleMany
    cases hn : m.handleNext? cpu with
    | none => exact h
    | some m' => exact ih (.handle cpu h hn)

/-- What survives the moves of a core survives what happens on its CPU. -/
theorem Arises.keeps {P : Machine → Prop} {a : Action} (h : m.Arises) (hp : P m)
    (move : ∀ m i c ds c', m.Arises → P m → m.core? cpu = some (i, c) → c.Move ds c' → P (m.putCore i c')) :
    P (m.step ⟨cpu, a⟩) := by
  by_cases ha : a = .poll
  · rw [ha, step_poll h.sound]
    generalize m.bus.pending cpu = n
    induction n generalizing m with
    | zero => exact hp
    | succ n ih =>
      unfold handleMany
      cases hn : m.handleNext? cpu with
      | none => exact hp
      | some m' =>
        obtain ⟨i, c, msg, bus, hc, -, hmv, rfl⟩ := handleNext?_cases hn
        exact ih (.handle cpu h hn) (move m i c _ _ h hp hc hmv)
  · rcases step_cases m cpu ha with ⟨-, e⟩ | ⟨i, c, hc, hmv, e⟩ <;> rw [e]
    · exact hp
    · exact move m i c _ _ h hp hc hmv

theorem Arises.step (h : m.Arises) (e : Event) : (m.step e).Arises := by
  obtain ⟨cpu, a⟩ := e
  by_cases ha : a = .poll
  · rw [ha, step_poll h.sound]
    exact arises_handleMany _ h
  · exact .act cpu ha h

/-- **Every reachable state arises.** -/
theorem Reachable.arises (h : m.Reachable) : m.Arises := by
  induction h with
  | boot h => exact .boot h
  | step e _ ih => exact ih.step e

theorem Reachable.run (h : m.Reachable) (es : List Event) : (m.run es).Reachable := by
  induction es generalizing m with
  | nil => exact h
  | cons e es ih => exact ih (.step e h)

/-! ## Particular runs -/

def store (addr : BitVec 64) (width : Nat) (v : BitVec 64) : Action :=
  .access ⟨addr, width, true, 0, false, false⟩ (.constant v)

/-- The machine that boots with these tables, where they are in order. -/
def started (cpus : Nat) (sizes : List Nat) (ps : List Partition) : Machine :=
  match boot cpus sizes true ps with
  | .ok m => m
  | .error _ => create cpus sizes true

theorem boot_started {cpus : Nat} {sizes : List Nat} {ps : List Partition}
    (h : (boot cpus sizes true ps).isOk = true) : boot cpus sizes true ps = .ok (started cpus sizes ps) := by
  unfold started
  split
  next m hm => exact hm
  next e he => rw [he] at h; cases h

theorem reachable_started {cpus : Nat} {sizes : List Nat} {ps : List Partition}
    (h : (boot cpus sizes true ps).isOk = true) : (started cpus sizes ps).Reachable := .boot (boot_started h)

/-- One CPU with one list register, and a VM of one vCPU. -/
def uncrowded : Machine := started 1 [1] [.standard .v2 1 64 [0] []]

theorem boot_uncrowded : boot 1 [1] true [.standard .v2 1 64 [0] []] = .ok uncrowded := boot_started (by decide +kernel)

theorem quiet_of_all (h : m.bus.inboxes.all (·.waiting.isEmpty) = true) : m.Quiet := by
  intro cpu
  unfold waiting MessageBus.inbox
  rw [Array.getD_eq_getD_getElem?]
  cases hc : m.bus.inboxes[cpu]? with
  | none => rfl
  | some b => exact List.isEmpty_iff.1 (Array.all_eq_true'.1 h b (Array.mem_of_getElem? hc))

/-- One list register and two pending interrupts: the second is parked. -/
def crowded : Machine :=
  (started 1 [1] [.standard .v2 1 64 [0] []]).run
    [⟨0, store distributorBase 4 1⟩, ⟨0, store (distributorBase + 0x104) 4 3⟩, ⟨0, .inject 32⟩, ⟨0, .inject 33⟩]

theorem reachable_crowded : crowded.Reachable := (reachable_started (by decide +kernel)).run _

def firstVm (m : Machine) : Vm := m.vms.getD 0 (.reset (.standard .v2 0 0 [] []))

theorem vms_zero (h : 0 < m.vms.size) : m.vms[0]? = some m.firstVm := by
  rw [firstVm, Array.getD_eq_getD_getElem?, Array.getElem?_eq_getElem h]
  rfl

theorem has_shared {vm : Vm} {id : Nat} (lt : id < vm.interruptCount) (shared : privateInterrupts ≤ id) :
    vm.Has (.shared id) :=
  ⟨lt, ⟨nofun, fun h => absurd h (Nat.not_lt.2 shared)⟩, nofun⟩

end Machine
end VirtualGic
