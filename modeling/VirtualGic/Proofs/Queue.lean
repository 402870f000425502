import VirtualGic.Proofs.Effect
import VirtualGic.Proofs.Reach
/-!
# Field writes in the queues

What an action or a message comes to is sorted out here: which deeds there can be, and where their field writes come from
(`Core.Undertaken`, `Core.mem_messageDeeds`).  The messages that ask for field writes are those that deeds of a VM's own
cores have sent, to cores of the same VM.  Sets of requesters are asked for under version 2 only.
-/
namespace VirtualGic

namespace Core

variable {c c' : Core} {l : Line} {d : Option Deed} {ds : List Deed} {e : Deed} {w : FieldWrite} {id requester : Nat}
  {msg : Message}

/-! ## What is asked for -/

/-- A field write that makes an interrupt pending. -/
inductive Pends (c : Core) : FieldWrite → Prop
  | request {l : Line} (requester : Nat) (counts : c.vm.countsRequesters l = true) :
    Pends c ⟨.setRequesters, l, CpuSet.single requester⟩
  | plain (l : Line) : Pends c ⟨.setPending, l, 1⟩

/-- A field write that a guest asks for. -/
inductive Asked (c : Core) : FieldWrite → Prop
  | pends {w : FieldWrite} (h : c.Pends w) : Asked c w
  | route (id : Nat) (v : BitVec 64) : Asked c ⟨.route, .shared id, v⟩
  | field {g : RegisterGroup} {bits : Nat} {ls : List Line} (reach : ReachesFields c.vm g bits ls) (l : Line)
    (v : BitVec 64) : Asked c ⟨g, l, lowBits bits v⟩

theorem pends_raiseWrites (h : w ∈ c.raiseWrites id requester) : c.Pends w := by
  unfold raiseWrites at h
  split at h
  next => cases h
  next l _ =>
    split at h <;> rw [List.mem_singleton.1 h]
    next counts => exact .request requester counts
    next => exact .plain l

theorem pends_sendWrites {vcpus : CpuSet} (h : w ∈ c.sendWrites id vcpus) : c.Pends w := by
  unfold sendWrites at h
  split at h
  next => exact pends_raiseWrites h
  next => cases h

theorem pends_systemWrites {a : SystemAccess} {f : RegisterFile} (h : w ∈ c.systemWrites a f) : c.Pends w := by
  unfold systemWrites at h
  split at h
  next => cases h
  next =>
    split at h
    next => exact pends_sendWrites h
    next => cases h

theorem asked_fieldWrites {g : RegisterGroup} {bits : Nat} {ls : List Line} {v : BitVec 64}
    (reach : ReachesFields c.vm g bits ls) (h : w ∈ fieldWrites g bits ls v) : c.Asked w := by
  obtain ⟨l, -, u, rfl⟩ := mem_fieldWrites h
  exact .field reach l u

theorem asked_windowWrites {win : Window} {addr : BitVec 64} {width : Nat} {v : BitVec 64}
    (h : w ∈ c.windowWrites win addr width v) : c.Asked w := by
  unfold windowWrites at h
  split at h
  next =>
    split at h
    next => exact .pends (pends_sendWrites h)
    next =>
      rw [List.mem_singleton.1 h]
      exact .route _ _
    next hp => exact asked_fieldWrites (Distributor.reaches_place? hp) h
    next => cases h
  next =>
    split at h
    next hp => exact asked_fieldWrites (Redistributor.reaches_place? hp) h
    next => cases h

theorem asked_accessWrites {a : Access} {f : RegisterFile} (h : w ∈ c.accessWrites a f) : c.Asked w := by
  unfold accessWrites at h
  split at h
  next =>
    split at h
    next => exact asked_windowWrites h
    next => cases h
  next => cases h

/-! ## What is undertaken -/

/-- What an injected interrupt comes to: it fires, or a field is written. -/
inductive Injected (c : Core) : Deed → Prop
  | fired {l : Line} (has : c.vm.Has l) (hw : (c.interrupt l).hardware = true) : Injected c (.raise l)
  | pends {w : FieldWrite} (h : c.Pends w) : Injected c (c.deedOf w)

/-- What an action comes to. -/
inductive Undertaken (c : Core) : Action → Deed → Prop
  | asked {a : Access} {f : RegisterFile} {w : FieldWrite} (h : c.Asked w) : Undertaken c (.access a f) (c.deedOf w)
  | injected {a : Action} {e : Deed} (h : c.Injected e) : Undertaken c a e
  | deactivate (l : Line) : Undertaken c .maintain (.deactivate l)
  | acknowledge (l : Line) : Undertaken c .acknowledge (.acknowledge l)
  | complete {number : BitVec 32} (l : Line) : Undertaken c (.complete number) (.complete l)

theorem injected_map {ws : List FieldWrite} (h : ∀ w ∈ ws, c.Pends w) (he : e ∈ ws.map c.deedOf) : c.Injected e := by
  obtain ⟨w, hw, rfl⟩ := List.mem_map.1 he
  exact .pends (h w hw)

theorem injected_injectDeeds (h : e ∈ c.injectDeeds id) : c.Injected e := by
  unfold injectDeeds at h
  split at h
  next => cases h
  next l hl =>
    split at h
    next hw =>
      split at h
      next =>
        rw [List.mem_singleton.1 h]
        exact .fired (has_of_find?_core hl) hw
      next => cases h
    next =>
      split at h
      next => exact injected_map (fun w hw => pends_raiseWrites hw) h
      next =>
        rw [List.mem_singleton.1 h]
        exact .pends (.plain l)

theorem mem_maintenanceDeeds {a : Deed} (h : a ∈ c.maintenanceDeeds) : ∃ l, a = .deactivate l := by
  unfold maintenanceDeeds at h
  simp only at h
  split at h
  next =>
    obtain ⟨l, -, rfl⟩ := List.mem_map.1 h
    exact ⟨l, rfl⟩
  next => cases h

theorem mem_acknowledgeDeeds {a : Deed} (h : a ∈ c.acknowledgeDeeds) : ∃ l, a = .acknowledge l := by
  unfold acknowledgeDeeds at h
  split at h
  next =>
    split at h
    next =>
      obtain ⟨l, -, rfl⟩ := List.mem_map.1 h
      exact ⟨l, rfl⟩
    next => cases h
  next => cases h

theorem mem_completeDeeds {number : BitVec 32} {a : Deed} (h : a ∈ c.completeDeeds number) : ∃ l, a = .complete l := by
  unfold completeDeeds at h
  split at h
  next =>
    obtain ⟨l, -, rfl⟩ := List.mem_map.1 h
    exact ⟨l, rfl⟩
  next => cases h

theorem undertaken_deeds {a : Action} (h : e ∈ c.deeds a) : c.Undertaken a e := by
  cases a with
  | access a f =>
    obtain ⟨w, hw, rfl⟩ := List.mem_map.1 h
    exact .asked (asked_accessWrites hw)
  | accessSystem a f => exact .injected (injected_map (fun w hw => pends_systemWrites hw) h)
  | inject id => exact .injected (injected_injectDeeds h)
  | maintain =>
    obtain ⟨l, rfl⟩ := mem_maintenanceDeeds h
    exact .deactivate l
  | poll => cases h
  | acknowledge =>
    obtain ⟨l, rfl⟩ := mem_acknowledgeDeeds h
    exact .acknowledge l
  | complete number =>
    obtain ⟨l, rfl⟩ := mem_completeDeeds h
    exact .complete l

theorem injected_requestDeeds {q : Request} (hq : q ≠ .writeField) {p : Payload} (h : e ∈ c.requestDeeds q p) :
    c.Injected e := by
  unfold requestDeeds at h
  cases q with
  | syncEnable | route => cases h
  | inject =>
    simp only at h
    split at h
    next => exact injected_map (fun w hw => pends_raiseWrites hw) h
    next => exact injected_injectDeeds h
  | writeField => exact absurd rfl hq

/-- A message injects an interrupt, or it brings a field write. -/
theorem mem_messageDeeds (h : e ∈ c.messageDeeds msg) : c.Injected e ∨ ∃ g l, msg.event = Request.writeField.code ∧
    RegisterGroup.ofCode? (Payload.ofWord msg.data).group.toNat = some g ∧
    e = c.deedOf ⟨g, l, (Payload.ofWord msg.data).value.setWidth 64⟩ := by
  unfold messageDeeds at h
  split at h
  next =>
    split at h
    next q hr =>
      by_cases hq : q = .writeField
      · subst hq
        unfold requestDeeds at h
        simp only at h
        split at h
        next g l hg _ =>
          exact .inr ⟨g, l, ((Request.ofCode?_eq_some_iff ..).1 hr).symm, hg, List.mem_singleton.1 h⟩
        next => cases h
      · exact .inl (injected_requestDeeds hq h)
    next => cases h
  next => cases h

/-! ## What is undertaken is proper -/

def Raises (c : Core) (g : RegisterGroup) : Prop := g = .setPending ∨ g = .setRequesters ∧ c.vm.version = .v2

theorem Pends.raises (h : c.Pends w) : c.Raises w.group := by
  cases h with
  | request _ counts =>
    simp only [Vm.countsRequesters, Interrupt.countsRequesters, Bool.and_eq_true, beq_iff_eq] at counts
    exact .inr ⟨rfl, counts.1⟩
  | plain => exact .inl rfl

theorem Raises.proper {g : RegisterGroup} (h : c.Raises g) : g.Proper c.vm := by
  intro hg
  rcases h with rfl | ⟨-, hv⟩
  · rcases hg with e | e <;> cases e
  · exact hv

theorem Asked.proper (h : c.Asked w) : w.group.Proper c.vm := by
  cases h with
  | pends h => exact h.raises.proper
  | route => rintro (e | e) <;> cases e
  | field reach => exact reach.requesters

theorem proper_deedOf (h : w.group.Proper c.vm) : (c.deedOf w).Proper c.vm := by
  unfold deedOf
  split <;> exact h

theorem Injected.proper (h : c.Injected e) : e.Proper c.vm := by
  cases h with
  | fired => trivial
  | pends h => exact proper_deedOf h.raises.proper

theorem proper_deeds (a : Action) : ∀ d ∈ c.deeds a, d.Proper c.vm := by
  intro d hd
  cases undertaken_deeds hd with
  | asked asked => exact proper_deedOf asked.proper
  | injected injected => exact injected.proper
  | deactivate | acknowledge | complete => trivial

end Core

/-- Where a message asks for a write to a set of requesters, version 2 runs. -/
def Message.Proper (msg : Message) (vm : Vm) : Prop :=
  msg.event = Request.writeField.code → ∀ g, RegisterGroup.ofCode? (Payload.ofWord msg.data).group.toNat = some g →
    g.Proper vm

theorem Message.Writes.proper {msg : Message} {vm : Vm} {g : RegisterGroup} {l : Line} {v : BitVec 64}
    (h : msg.Writes vm g l v) (hg : g.Proper vm) : msg.Proper vm := by
  intro _ k hk
  rw [h.group, RegisterGroup.ofCode?_code] at hk
  cases hk
  exact hg

namespace Core

variable {c c' : Core} {l : Line} {d : Option Deed} {ds : List Deed} {msg : Message}

theorem proper_messageDeeds (h : msg.Proper c.vm) : ∀ d ∈ c.messageDeeds msg, d.Proper c.vm := by
  intro d hd
  rcases mem_messageDeeds hd with injected | ⟨g, l, event, hg, rfl⟩
  · exact injected.proper
  · exact proper_deedOf (h event g hg)

/-! ## What is sent -/

/-- The messages that an operation adds to a queue ask for a field write only where one is forwarded. -/
theorem Does.posts (h : Does c c' d) (cpu : Nat) : ∃ more, c'.waiting cpu = c.waiting cpu ++ more ∧
    ∀ msg ∈ more, msg.event = Request.writeField.code → ∃ g l v, d = some (.forward g l v) ∧ c.vm.Has l ∧
      (∃ w, c.vm.pcpuOf? w = some cpu) ∧ msg.Writes c.vm g l v := by
  have other : ∀ {r : Request}, r ≠ .writeField → MessageBus.Grew (·.event = r.code) c.bus c'.bus →
      ∃ more, c'.waiting cpu = c.waiting cpu ++ more ∧
        ∀ msg ∈ more, msg.event = Request.writeField.code → ∃ g l v, d = some (.forward g l v) ∧ c.vm.Has l ∧
          (∃ w, c.vm.pcpuOf? w = some cpu) ∧ msg.Writes c.vm g l v := fun {r} hr grew => by
    obtain ⟨more, e, hm⟩ := grew.more cpu
    refine ⟨more, e, fun msg hmsg he => absurd ((hm msg hmsg).symm.trans he) ?_⟩
    cases r <;> first | decide | exact absurd rfl hr
  have same : c'.bus = c.bus → ∃ more, c'.waiting cpu = c.waiting cpu ++ more ∧
        ∀ msg ∈ more, msg.event = Request.writeField.code → ∃ g l v, d = some (.forward g l v) ∧ c.vm.Has l ∧
          (∃ w, c.vm.pcpuOf? w = some cpu) ∧ msg.Writes c.vm g l v := fun e => by
    refine other (r := .route) (by decide) ?_
    rw [e]
    exact .refl _ _
  cases h with
  | handled l s deed h => exact other (r := .route) (by decide) (h.frame.posted.imp fun _ ha => ha.request)
  | returned l has may eq => exact same (by rw [eq]; rfl)
  | forwarded g l v h =>
    obtain ⟨w, target, msg, -, -, hw, hwait, hwr⟩ := h.message
    refine ⟨_, hwait cpu, fun m hm _ => ?_⟩
    split at hm
    next e =>
      rw [List.mem_singleton.1 hm]
      exact ⟨g, l, v, rfl, h.has, ⟨w, by rw [← e]; exact hw⟩, hwr⟩
    next => cases hm
  | posted r hr h => exact other hr h.grew
  | restated a n has credited guest eq => exact same (by rw [eq]; rfl)
  | aside h bus np => exact same bus
  | dropped pendingOnly drained eq => exact same (by rw [eq]; rfl)

/-- The messages that a run adds to a queue ask for field writes that it forwards, and wait for cores of its own VM. -/
theorem Runs.posts (h : Runs c ds c') (cpu : Nat) : ∃ more, c'.waiting cpu = c.waiting cpu ++ more ∧
    ∀ msg ∈ more, msg.event = Request.writeField.code → ∃ g l v, .forward g l v ∈ ds ∧ c.vm.Has l ∧
      (∃ w, c.vm.pcpuOf? w = some cpu) ∧ msg.Writes c.vm g l v := by
  induction h with
  | nil => exact ⟨[], (List.append_nil _).symm, fun msg hm => (by cases hm)⟩
  | @cons c c' c'' d ds hd _ ih =>
    obtain ⟨more, e, hm⟩ := hd.posts cpu
    obtain ⟨more', e', hm'⟩ := ih
    have hp := hd.same.partition
    refine ⟨more ++ more', by rw [e', e, List.append_assoc], fun msg hmsg he => ?_⟩
    rcases List.mem_append.1 hmsg with hmsg | hmsg
    · obtain ⟨g, l, v, rfl, hl, hcpu, hw⟩ := hm msg hmsg he
      exact ⟨g, l, v, List.mem_append_left _ List.mem_cons_self, hl, hcpu, hw⟩
    · obtain ⟨g, l, v, hd', hl, ⟨w, hcpu⟩, hw⟩ := hm' msg hmsg he
      exact ⟨g, l, v, List.mem_append_right _ hd', (Vm.has_congr hp l).1 hl,
        ⟨w, by rw [← Vm.pcpuOf?_congr hp]; exact hcpu⟩, hw.congr hp.symm⟩

/-- A move adds to the queues of the other cores what its run adds. -/
theorem Move.posts (h : Move c ds c') (hs : c.Sound) {cpu : Nat} (hne : cpu ≠ c.cpu) :
    ∃ more, c'.waiting cpu = c.waiting cpu ++ more ∧
      ∀ msg ∈ more, msg.event = Request.writeField.code → ∃ g l v, .forward g l v ∈ ds ∧ c.vm.Has l ∧
        (∃ w, c.vm.pcpuOf? w = some cpu) ∧ msg.Writes c.vm g l v := by
  cases h with
  | act a ha => exact (act_runs hs ha).posts cpu
  | handle msg bus ht =>
    obtain ⟨more, e, hmore⟩ := (runs_take hs ht).posts cpu
    refine ⟨more, ?_, hmore⟩
    rw [e]
    unfold waiting
    rw [MessageBus.waiting_inbox_take ht cpu, if_neg (Ne.symm hne)]
    rfl

end Core
end VirtualGic
