import VirtualGic.Proofs.Operation
/-!
# What a core does

Everything a core does is a run of a few kinds of operations (`Core.Does`).  Those that change an interrupt on purpose
carry the `Deed`; the others only move interrupts between their places.  What the operations keep is proved here once
for all of them.
-/
namespace VirtualGic

/-- What is done to an interrupt on purpose. -/
inductive Deed where
  /-- A field is written. -/
  | write (g : RegisterGroup) (l : Line) (v : BitVec 64)
  /-- A field write is sent to the core of the owner. -/
  | forward (g : RegisterGroup) (l : Line) (v : BitVec 64)
  /-- A hardware interrupt becomes pending. -/
  | raise (l : Line)
  /-- A completion without a list register deactivates an interrupt. -/
  | deactivate (l : Line)
  | acknowledge (l : Line)
  | complete (l : Line)
deriving DecidableEq, Repr

namespace Deed

def line : Deed → Line
  | write _ l _ | forward _ l _ | raise l | deactivate l | acknowledge l | complete l => l

def edit (vm : Vm) : Deed → Interrupt → Interrupt
  | write g l v => g.apply vm l v
  | forward .. => id
  | raise _ => Interrupt.raised
  | deactivate _ | complete _ => Interrupt.deactivated
  | acknowledge _ => fun s => { s with state := ⟨false, true⟩ }

def Handles (l : Line) : Deed → Prop
  | write _ k _ | raise k | deactivate k => k = l
  | _ => False

/-- A deed of the guest in its list register. -/
def Guest : Deed → Prop
  | acknowledge _ | complete _ => True
  | _ => False

theorem Handles.line {a : Deed} {l : Line} (h : a.Handles l) : a.line = l := by
  cases a with
  | write | raise | deactivate => exact h
  | forward | acknowledge | complete => exact h.elim

def edit? (vm : Vm) : Option Deed → Interrupt → Interrupt
  | some d => d.edit vm
  | none => id

end Deed

/-- A message that asks for a field write. -/
structure Message.Writes (m : Message) (vm : Vm) (g : RegisterGroup) (l : Line) (v : BitVec 64) : Prop where
  about : m.About .writeField vm l
  group : (Payload.ofWord m.data).group.toNat = g.code
  value : (Payload.ofWord m.data).value = v.setWidth 32

theorem Message.Writes.congr {m : Message} {vm vm' : Vm} {g : RegisterGroup} {l : Line} {v : BitVec 64}
    (h : m.Writes vm g l v) (hp : vm'.partition = vm.partition) : m.Writes vm' g l v :=
  ⟨h.about.congr hp, h.group, h.value⟩

namespace Core

variable {c c' c'' : Core} {l m : Line} {s t : Interrupt} {n : Nat} {d : Option Deed}

/-- A field write that was sent to the core of the owner. -/
structure Forwarded (c c' : Core) (g : RegisterGroup) (l : Line) (v : BitVec 64) : Prop where
  has : c.vm.Has l
  elsewhere : c.mayClaim l = false
  posted : Posted .writeField c c'
  message : ∃ w target m, (c.interrupt l).owner = some w ∧ w ≠ c.vcpu ∧ c.vm.pcpuOf? w = some target ∧
    (∀ cpu, (c'.bus.inbox cpu).waiting = (c.bus.inbox cpu).waiting ++ if target = cpu then [m] else []) ∧
    m.Writes c.vm g l v

/-- One operation of a core, and the deed in it if there is one. -/
inductive Does (c c' : Core) : Option Deed → Prop
  /-- An interrupt was taken in hand and delivered. -/
  | handled {d : Option Deed} (l : Line) (s : Interrupt) (deed : ∀ a ∈ d, a.Handles l) (h : Handled c c' l s)
    (made : Made c l (Deed.edit? c.vm d) s) : Does c c' d
  /-- An interrupt was claimed and given up at once. -/
  | returned (l : Line) (has : c.vm.Has l) (may : c.mayClaim l = true) (eq : c' = (c.claim l).release l) : Does c c' none
  | forwarded (g : RegisterGroup) (l : Line) (v : BitVec 64) (h : Forwarded c c' g l v) :
    Does c c' (some (.forward g l v))
  | posted (r : Request) (other : r ≠ .writeField) (h : Posted r c c') : Does c c' none
  /-- The guest changed the state of an interrupt in its list register. -/
  | restated (a : Deed) (n : Nat) (has : c.vm.Has a.line) (credited : c.vm.Credits c.vcpu a.line n)
    (guest : a.Guest)
    (eq : c' = c.writeSlot n { c.interface.read n with
      state := (a.edit c.vm { c.interrupt a.line with state := (c.interface.read n).state }).state }) :
    Does c c' (some a)
  | aside (h : Alike c c') (bus : c'.bus = c.bus)
    (noPending : c.interface.control.noPending = true → c'.interface.control.noPending = true) : Does c c' none
  /-- The requests for maintenance were dropped, with nothing left to bring back. -/
  | dropped (pendingOnly : Bool)
    (drained : ∀ l, c.vm.Has l → l.SeenBy c.vcpu → (c.interrupt l).spilled = true → c.isWanted pendingOnly l = false)
    (eq : c' = c.dropRequests) : Does c c' none

/-! ## Soundness -/

/-- A list register with another state shows the same of its interrupt. -/
theorem read_restate (f : CpuInterface) (n k : Nat) (st : Interrupt.State) :
    ((f.write n { f.read n with state := st }).read k).intid = (f.read k).intid ∧
      ((f.write n { f.read n with state := st }).read k).priority = (f.read k).priority ∧
      ((f.write n { f.read n with state := st }).read k).group1 = (f.read k).group1 ∧
      ((f.write n { f.read n with state := st }).read k).hardware = (f.read k).hardware := by
  rw [CpuInterface.read_write]
  split
  next h => rw [h.1]; exact ⟨rfl, rfl, rfl, rfl⟩
  next => exact ⟨rfl, rfl, rfl, rfl⟩

theorem Sound.restate (h : c.Sound) (hl : c.vm.Has l) (hc : c.vm.Credits c.vcpu l n) (st : Interrupt.State) :
    (c.writeSlot n { c.interface.read n with state := st }).Sound := by
  refine ⟨h.station.same ⟨rfl, rfl, rfl, rfl⟩, h.records, h.lists, fun k hk => ?_, fun j k hj hcj => ?_⟩
  · obtain ⟨hi, -⟩ := read_restate c.interface n k st
    rw [show ((c.writeSlot n { c.interface.read n with state := st }).interface.read k).intid = _ from hi]
    by_cases hkn : k = n
    · subst hkn
      have hn := (h.seated.seat l k hl hc).names
      rw [hc.2.2, ListRegister.names, beq_iff_eq] at hn
      exact ⟨l, hl, h.seen_of_credits hl hc, hn.symm, hc⟩
    · have e : (c.interface.write n { c.interface.read n with state := st }).read k = c.interface.read k :=
        read_write_empty _ _ _ hkn _
      exact h.seated.held k (by rw [← e]; exact hk)
  · obtain ⟨h1, h2, h3, h4⟩ := h.seated.seat j k hj hcj
    obtain ⟨hi, hp, hg, hh⟩ := read_restate c.interface n (c.vm.interrupt j).slot st
    refine ⟨Nat.lt_of_lt_of_eq h1 (CpuInterface.count_write ..).symm, ?_, h3, ?_⟩
    · unfold ListRegister.names at h2 ⊢
      rw [← hi] at h2
      exact h2
    · exact ⟨hp.trans h4.priority, hg.trans h4.group1, hh.trans h4.hardware⟩

theorem alike_dropRequests (c : Core) : Alike c c.dropRequests := alike_modifyControl ..

/-- **Whatever a core does, it stays sound.** -/
theorem Does.sound (h : Does c c' d) (hs : c.Sound) : c'.Sound := by
  cases h with
  | handled l s deed h => exact h.sound
  | returned l has may eq =>
    rw [eq]
    exact (hs.claim has).release (has_claim has)
  | forwarded g l v h => exact hs.alike h.posted.alike
  | posted r other h => exact hs.alike h.alike
  | restated a n has credited guest eq =>
    rw [eq]
    exact hs.restate has credited _
  | aside h => exact hs.alike h
  | dropped pendingOnly drained eq =>
    rw [eq]
    exact hs.alike (alike_dropRequests c)

theorem Does.same (h : Does c c' d) : Same c c' := by
  cases h with
  | handled l s deed h => exact h.frame.toSame
  | returned l has may eq =>
    rw [eq]
    exact ((frame_claim c l).trans (frame_release _ l)).toSame
  | forwarded g l v h => exact h.posted.alike.toSame
  | posted r other h => exact h.alike.toSame
  | restated a n has credited guest eq =>
    rw [eq]
    exact ⟨rfl, rfl, rfl, rfl⟩
  | aside h => exact h.toSame
  | dropped pendingOnly drained eq =>
    rw [eq]
    exact ⟨rfl, rfl, rfl, rfl⟩

/-- An operation takes no message out. -/
theorem Does.grown (h : Does c c' d) : MessageBus.Grew (fun _ => True) c.bus c'.bus := by
  have any : ∀ {p : Message → Prop}, MessageBus.Grew p c.bus c'.bus → MessageBus.Grew (fun _ => True) c.bus c'.bus :=
    fun h => h.imp fun _ _ => trivial
  cases h with
  | handled l s deed h => exact any h.frame.posted
  | returned l has may eq => rw [eq]; exact .refl _ _
  | forwarded g l v h => exact any h.posted.grew
  | posted r other h => exact any h.grew
  | restated a n has credited guest eq => rw [eq]; exact .refl _ _
  | aside h bus => rw [bus]; exact .refl _ _
  | dropped pendingOnly drained eq => rw [eq]; exact .refl _ _

/-! ## What the other cores rely on -/

/-- A core changes only what it may claim, and gives it up or owns it afterwards. -/
structure Local (c c' : Core) : Prop extends Same c c' where
  record : ∀ m, c.vm.Has m → c'.interrupt m = c.interrupt m ∨ (c.mayClaim m = true ∧ c'.mayClaim m = true)
  occupant : ∀ v n, v ≠ c.vcpu → c'.vm.occupant? v n = c.vm.occupant? v n

theorem Local.refl (c : Core) : Local c c := ⟨.refl c, fun _ _ => .inl rfl, fun _ _ _ => rfl⟩

theorem mayClaim_congr (hv : c'.vcpu = c.vcpu) (hi : c'.interrupt m = c.interrupt m) : c'.mayClaim m = c.mayClaim m := by
  unfold mayClaim
  rw [hi, hv]

theorem Local.mayClaim (h : Local c c') (hm : c.vm.Has m) : c'.mayClaim m = c.mayClaim m := by
  rcases h.record m hm with e | ⟨h1, h2⟩
  · exact mayClaim_congr h.vcpu e
  · rw [h1, h2]

theorem Local.trans (h : Local c c') (h' : Local c' c'') : Local c c'' := by
  refine ⟨h.toSame.trans h'.toSame, fun m hm => ?_, fun v n hv => ?_⟩
  · have hm' := (Vm.has_congr h.partition m).2 hm
    rcases h'.record m hm' with e' | ⟨h1, h2⟩
    · rcases h.record m hm with e | ⟨h1, h2⟩
      · exact .inl (e'.trans e)
      · exact .inr ⟨h1, (mayClaim_congr h'.vcpu e').trans h2⟩
    · exact .inr ⟨(h.mayClaim hm).symm.trans h1, h2⟩
  · exact (h'.occupant v n (by rw [h.vcpu]; exact hv)).trans (h.occupant v n hv)

theorem Final.owner (h : Final c c' l s) (mine : s.owner = some c.vcpu) :
    (c'.interrupt l).owner = none ∨ (c'.interrupt l).owner = some c.vcpu := by
  cases h with
  | quiet why record => rw [record]; exact Interrupt.owner_release mine
  | seated n q r target record => rw [record]; exact .inr mine
  | parked busy target record => rw [record]; exact Interrupt.owner_release mine
  | offered busy target record => rw [record]; exact Interrupt.owner_release mine

theorem owner_of_held {r : ListRegister} (h : c.held? m = some r) : (c.interrupt m).owner = some c.vcpu := by
  obtain ⟨n, hc, -⟩ := (c.held?_eq_some_iff m r).1 h
  exact hc.1

theorem Fate.owner (h : Fate c c' m) : c'.interrupt m = c.interrupt m ∨
    (c.interrupt m).owner = some c.vcpu ∧
      ((c'.interrupt m).owner = none ∨ (c'.interrupt m).owner = some c.vcpu) := by
  cases h with
  | kept record => exact .inl record
  | evicted r held busy record =>
    refine .inr ⟨owner_of_held held, ?_⟩
    rw [record]
    exact Interrupt.owner_release ((owner_takenBack c m r).trans (owner_of_held held))
  | settled r held empty record =>
    refine .inr ⟨owner_of_held held, ?_⟩
    rw [record]
    exact Interrupt.owner_release (owner_of_held held)

theorem Handled.local_ (h : Handled c c' l s) : Local c c' := by
  refine ⟨h.frame.toSame, fun m hm => ?_, h.frame.occupant⟩
  by_cases hml : m = l
  · subst hml
    refine .inr ⟨h.may, (c'.mayClaim_iff m).2 ?_⟩
    rw [h.frame.vcpu]
    exact h.final.owner h.mine
  · rcases (h.frame.fate m hm hml).owner with e | ⟨h1, h2⟩
    · exact .inl e
    · refine .inr ⟨(c.mayClaim_iff m).2 (.inr h1), (c'.mayClaim_iff m).2 ?_⟩
      rw [h.frame.vcpu]
      exact h2

theorem Alike.local_ (h : Alike c c') : Local c c' :=
  ⟨h.toSame, fun m _ => .inl (h.interrupt m), fun v n _ => h.occupant v n⟩

theorem interrupt_returned (may : c.mayClaim l = true) (m : Line) :
    ((c.claim l).release l).interrupt m =
      if l = m then Interrupt.release { c.interrupt l with owner := some c.vcpu } c.vm.version l c.vcpu
      else c.interrupt m := by
  rw [interrupt_release, claimed may, Vm.version_congr (frame_claim c l).partition]
  split
  next => rfl
  next hne => exact (interrupt_claim ..).trans (if_neg hne)

theorem Does.local_ (h : Does c c' d) : Local c c' := by
  cases h with
  | handled l s deed h => exact h.local_
  | returned l has may eq =>
    rw [eq]
    refine ⟨((frame_claim c l).trans (frame_release _ l)).toSame, fun m hm => ?_,
      ((frame_claim c l).trans (frame_release _ l)).occupant⟩
    have hi := interrupt_returned may m
    by_cases hlm : l = m
    · subst hlm
      rw [if_pos rfl] at hi
      refine .inr ⟨may, (mayClaim_iff ..).2 ?_⟩
      rw [hi]
      exact Interrupt.owner_release rfl
    · rw [if_neg hlm] at hi
      exact .inl hi
  | forwarded g l v h => exact h.posted.alike.local_
  | posted r other h => exact h.alike.local_
  | restated a n has credited guest eq =>
    rw [eq]
    exact ⟨⟨rfl, rfl, rfl, rfl⟩, fun _ _ => .inl rfl, fun _ _ _ => rfl⟩
  | aside h => exact h.local_
  | dropped pendingOnly drained eq =>
    rw [eq]
    exact (alike_dropRequests c).local_

/-! ## Runs -/

/-- A run of operations and the deeds in it. -/
inductive Runs : Core → List Deed → Core → Prop
  | nil (c : Core) : Runs c [] c
  | cons {c c' c'' : Core} {d : Option Deed} {ds : List Deed} : Does c c' d → Runs c' ds c'' →
    Runs c (d.toList ++ ds) c''

theorem Does.runs (h : Does c c' d) : Runs c d.toList c' := by
  have := Runs.cons h (.nil c')
  rwa [List.append_nil] at this

theorem Runs.silent {ds : List Deed} (h : Does c c' none) (hr : Runs c' ds c'') : Runs c ds c'' := Runs.cons h hr

theorem Runs.append {ds es : List Deed} (h : Runs c ds c') (h' : Runs c' es c'') : Runs c (ds ++ es) c'' := by
  induction h with
  | nil => exact h'
  | cons hd _ ih =>
    rw [List.append_assoc]
    exact .cons hd (ih h')

theorem Runs.sound {ds : List Deed} (h : Runs c ds c') (hs : c.Sound) : c'.Sound := by
  induction h with
  | nil => exact hs
  | cons hd _ ih => exact ih (hd.sound hs)

theorem Runs.local_ {ds : List Deed} (h : Runs c ds c') : Local c c' := by
  induction h with
  | nil => exact .refl _
  | cons hd _ ih => exact hd.local_.trans ih

theorem Runs.grown {ds : List Deed} (h : Runs c ds c') : MessageBus.Grew (fun _ => True) c.bus c'.bus := by
  induction h with
  | nil => exact .refl _ _
  | cons hd _ ih => exact hd.grown.trans ih

end Core
end VirtualGic
