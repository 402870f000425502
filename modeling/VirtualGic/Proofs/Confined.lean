import VirtualGic.Proofs.Write
/-!
# Confinement

What a core may change of what it shares with the other cores: the inboxes of the CPUs of its own VM, whose doorbells
it rings, and the physical lines behind the VM's own hardware interrupts.  Each single change stays within that
(`Core.Confined`), so a whole move of a core does.
-/
namespace VirtualGic

/-! ## The shared parts -/

/-- Nothing was written to a physical line. -/
structure PhysicalGic.Spares (g g' : PhysicalGic) (id : Nat) : Prop where
  line : g'.line? id = g.line? id
  enables : g'.enables.filter (·.1 == id) = g.enables.filter (·.1 == id)

/-- The interrupts that were sent to a CPU. -/
def PhysicalGic.sentTo (g : PhysicalGic) (cpu : Nat) : Array (Nat × Nat) := g.sent.filter (·.1 == cpu)

namespace PhysicalGic

variable {g g' g'' : PhysicalGic} {id k : Nat}

theorem Spares.refl (g : PhysicalGic) (id : Nat) : g.Spares g id := ⟨rfl, rfl⟩

theorem Spares.trans (h : g.Spares g' id) (h' : g'.Spares g'' id) : g.Spares g'' id :=
  ⟨h'.line.trans h.line, h'.enables.trans h.enables⟩

theorem enables_modifyLine (g : PhysicalGic) (k : Nat) (f : PhysicalLine → PhysicalLine) :
    (g.modifyLine k f).enables = g.enables := by
  unfold modifyLine
  split <;> rfl

theorem sent_modifyLine (g : PhysicalGic) (k : Nat) (f : PhysicalLine → PhysicalLine) :
    (g.modifyLine k f).sent = g.sent := by
  unfold modifyLine
  split <;> rfl

theorem spares_modifyLine (hne : k ≠ id) (f : PhysicalLine → PhysicalLine) : g.Spares (g.modifyLine k f) id :=
  ⟨by rw [line?_modifyLine, if_neg hne], by rw [enables_modifyLine]⟩

theorem spares_setEnabled (hne : k ≠ id) (on : Bool) : g.Spares (g.setEnabled k on) id := by
  refine ⟨(spares_modifyLine hne _).line, ?_⟩
  have hb : ((k, on).1 == id) = false := beq_eq_false_iff_ne.2 hne
  show (g.enables.push (k, on)).filter (·.1 == id) = _
  rw [Array.filter_push]
  exact if_neg (by rw [hb]; exact Bool.false_ne_true)

end PhysicalGic

namespace RegisterGroup

variable {l : Line} {s : Interrupt} {gic : PhysicalGic} {id : Nat}

theorem spares_push (g : RegisterGroup) (hne : l.id ≠ id) : gic.Spares (g.push l s gic) id := by
  cases g with
  | setEnable | clearEnable => exact PhysicalGic.spares_setEnabled hne _
  | setPending | clearPending | setActive | clearActive | priority | config | targets | route =>
    exact PhysicalGic.spares_modifyLine hne _
  | misc | group | groupModifier | nonSecureAccess | softwareInterrupt | clearRequesters | setRequesters
  | identification => exact .refl ..

theorem sent_push (g : RegisterGroup) : (g.push l s gic).sent = gic.sent := by
  cases g <;> first | rfl | exact PhysicalGic.sent_modifyLine ..

end RegisterGroup

theorem MessageBus.post_eq_ok {b b' : MessageBus} {g g' : PhysicalGic} {target : Nat} {m : Message}
    (h : b.post g target m = .ok (b', g')) : (∀ cpu, target ≠ cpu → b'.inbox cpu = b.inbox cpu) ∧
      (g' = g ∨ g' = g.send target doorbellInterrupt) := by
  unfold post at h
  split at h
  next =>
    simp only [Except.ok.injEq, Prod.mk.injEq] at h
    obtain ⟨rfl, rfl⟩ := h
    refine ⟨fun cpu hne => ?_, ?_⟩
    · simp only [inbox, Array.getD_eq_getD_getElem?, Array.getElem?_modify, hne, if_false]
    · split
      next => exact .inr rfl
      next => exact .inl rfl
  next => cases h

theorem MessageBus.inbox_take {b b' : MessageBus} {cpu : Nat} {m : Message} (h : b.take cpu = some (m, b')) {k : Nat}
    (hne : cpu ≠ k) : b'.inbox k = b.inbox k := by
  simp only [take, Option.map_eq_some_iff, Prod.mk.injEq] at h
  obtain ⟨⟨_, rest⟩, -, rfl, rfl⟩ := h
  simp only [inbox, Array.getD_eq_getD_getElem?, Array.getElem?_setIfInBounds, hne, if_false]

namespace Core

/-- What a core leaves alone, whatever it does for its VM. -/
structure Confined (c c' : Core) : Prop where
  partition : c'.vm.partition = c.vm.partition
  hardware : ∀ l, (c'.interrupt l).hardware = (c.interrupt l).hardware
  inbox : ∀ cpu, cpu ∉ c.vm.partition.cpus → c'.bus.inbox cpu = c.bus.inbox cpu
  sent : ∀ cpu, cpu ∉ c.vm.partition.cpus → c'.gic.sentTo cpu = c.gic.sentTo cpu
  lines : ∀ id, (∀ l, c.vm.Has l → l.id = id → (c.interrupt l).hardware = false) → c.gic.Spares c'.gic id

variable {c c' c'' : Core} {l : Line} {s : Interrupt} {n : Nat}

theorem Confined.refl (c : Core) : Confined c c :=
  ⟨rfl, fun _ => rfl, fun _ _ => rfl, fun _ _ => rfl, fun _ _ => .refl ..⟩

theorem Confined.trans (h : Confined c c') (h' : Confined c' c'') : Confined c c'' where
  partition := h'.partition.trans h.partition
  hardware := fun l => (h'.hardware l).trans (h.hardware l)
  inbox := fun cpu hc => (h'.inbox cpu (by rw [h.partition]; exact hc)).trans (h.inbox cpu hc)
  sent := fun cpu hc => (h'.sent cpu (by rw [h.partition]; exact hc)).trans (h.sent cpu hc)
  lines := fun id hid => (h.lines id hid).trans <| h'.lines id fun l hl he => by
    rw [h.hardware]
    exact hid l ((Vm.has_congr h.partition l).1 hl) he

/-- A core that writes to its own records and list registers only. -/
theorem Confined.of_own (partition : c'.vm.partition = c.vm.partition)
    (hardware : ∀ l, (c'.interrupt l).hardware = (c.interrupt l).hardware) (bus : c'.bus = c.bus) (gic : c'.gic = c.gic) :
    Confined c c' :=
  ⟨partition, hardware, fun _ _ => by rw [bus], fun _ _ => by rw [gic], fun _ _ => by rw [gic]; exact .refl ..⟩

/-- No line is written to that is not passed through to the VM. -/
theorem Confined.spares (h : Confined c c') (hs : c.Sound) {id : Nat} (hid : id ∉ c.vm.partition.passthrough) :
    c.gic.Spares c'.gic id :=
  h.lines id fun l hl e => Bool.eq_false_iff.2 fun hw => hid (e ▸ (hs.records l hl).passed.1 hw)

/-! ## Single changes -/

theorem confined_setInterrupt (h : s.hardware = (c.interrupt l).hardware) : Confined c (c.setInterrupt l s) := by
  refine .of_own (Vm.partition_setInterrupt ..) (fun k => ?_) rfl rfl
  rw [interrupt_setInterrupt]
  split
  next e => rw [← e]; exact h
  next => rfl

/-- Writing to the line of a hardware interrupt stays within the VM. -/
theorem confined_gic {gic : PhysicalGic} (hl : c.vm.Has l) (hw : (c.interrupt l).hardware = true)
    (sent : gic.sent = c.gic.sent) (others : ∀ id, l.id ≠ id → c.gic.Spares gic id) : Confined c { c with gic := gic } := by
  refine ⟨rfl, fun _ => rfl, fun _ _ => rfl, fun cpu _ => ?_, fun id hid => others id fun e => ?_⟩
  · show gic.sentTo cpu = _
    rw [PhysicalGic.sentTo, sent]
    rfl
  · have := hid l hl e
    rw [hw] at this
    cases this

theorem confined_assign (hl : c.vm.Has l) (g : RegisterGroup) (v : BitVec 64) : Confined c (c.assign g l v) := by
  have hw := (g.apply_keeps c.vm l v (c.interrupt l)).2.2.2
  unfold assign
  simp only
  generalize g.apply c.vm l v (c.interrupt l) = after at hw
  have edited : Confined c (c.setInterrupt l after) := confined_setInterrupt hw
  have record : (c.setInterrupt l after).interrupt l = after := by rw [interrupt_setInterrupt, if_pos rfl]
  generalize c.setInterrupt l after = d at edited record
  split
  next hp =>
    rw [Bool.and_eq_true] at hp
    refine edited.trans (confined_gic ((Vm.has_congr edited.partition l).2 hl) ?_ g.sent_push fun _ hne => g.spares_push hne)
    rw [record]
    exact hp.2
  next => exact edited

/-- Posting rings a doorbell at most. -/
theorem spares_post (c : Core) (target : Nat) (r : Request) (p : Payload) (id : Nat) :
    c.gic.Spares (c.post target r p).gic id := by
  unfold post
  cases hb : c.bus.post c.gic target ⟨r.code, p.toWord⟩ with
  | error e => exact .refl ..
  | ok bg =>
    show c.gic.Spares bg.2 id
    rcases (MessageBus.post_eq_ok hb).2 with e | e <;> rw [e]
    · exact .refl ..
    · exact ⟨rfl, rfl⟩

/-- Posting to a CPU of the VM stays within the VM. -/
theorem confined_post {target : Nat} (h : target ∈ c.vm.partition.cpus) (r : Request) (p : Payload) :
    Confined c (c.post target r p) := by
  have lines := spares_post c target r p
  unfold post at lines ⊢
  cases hb : c.bus.post c.gic target ⟨r.code, p.toWord⟩ with
  | error e => exact .refl c
  | ok bg =>
    rw [hb] at lines
    obtain ⟨bus, gic⟩ := bg
    obtain ⟨others, hg⟩ := MessageBus.post_eq_ok hb
    refine ⟨rfl, fun _ => rfl, fun cpu hc => others cpu fun e => hc (e ▸ h), fun cpu hc => ?_, fun id _ => lines id⟩
    show gic.sentTo cpu = c.gic.sentTo cpu
    rcases hg with rfl | rfl
    · rfl
    · have hb : ((target, doorbellInterrupt).1 == cpu) = false := beq_eq_false_iff_ne.2 fun e => hc (e ▸ h)
      show (c.gic.sent.push (target, doorbellInterrupt)).filter (·.1 == cpu) = _
      rw [Array.filter_push]
      exact if_neg (by rw [hb]; exact Bool.false_ne_true)

theorem Write.confined (h : Write c c') : Confined c c' := by
  cases h with
  | record l s settings => exact confined_setInterrupt settings.hardware
  | field g l v has => exact confined_assign has g v
  | list home ids =>
    exact .of_own (Vm.partition_setSpillList ..) (fun k => congrArg Interrupt.hardware (Vm.interrupt_setSpillList ..)) rfl rfl
  | occupant n id => exact .of_own rfl (fun k => congrArg Interrupt.hardware (Vm.interrupt_setOccupant ..)) rfl rfl
  | asleep v on => exact .of_own rfl (fun k => congrArg Interrupt.hardware (Vm.interrupt_setAsleep ..)) rfl rfl
  | interface f => exact .of_own rfl (fun _ => rfl) rfl rfl
  | line l on has hardware =>
    exact confined_gic has hardware (PhysicalGic.sent_modifyLine ..) fun _ hne => PhysicalGic.spares_modifyLine hne _
  | post target r p addressed => exact confined_post addressed.member r p

theorem Change.confined (h : Change c c') (hs : c.Stationed) : Confined c c' := by
  cases h with
  | write h => exact h.confined
  | enables e => exact .of_own rfl (fun l => by cases l <;> rfl) rfl rfl
  | sync => exact .of_own rfl (fun _ => rfl) rfl rfl
  | take m bus ht =>
    refine ⟨rfl, fun _ => rfl, fun cpu hc => MessageBus.inbox_take ht ?_, fun _ _ => rfl, fun _ _ => .refl ..⟩
    rintro rfl
    exact hc (List.mem_of_getElem? hs.here)

/-! ## Moves -/

theorem Changes.confined (h : Changes c c') (hs : c.Stationed) : Confined c c' := by
  induction h with
  | refl => exact .refl c
  | tail hw w ih => exact ih.trans (w.confined (hs.same (Changes.same hw)))

/-- **Whatever a core does at one time stays within its VM.** -/
theorem Move.confined {ds : List Deed} (h : Move c ds c') (hs : c.Sound) : Confined c c' :=
  (h.changes hs.station).confined hs.station

end Core
end VirtualGic
