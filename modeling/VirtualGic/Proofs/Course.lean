import VirtualGic.Proofs.Action
import VirtualGic.Proofs.Cover
import VirtualGic.Proofs.Window
/-!
# Actions as runs

Each action of a CPU, and the handling of each message, is a run of the operations of `Core.Does` with the deeds that
`Core.deeds` and `Core.messageDeeds` list.
-/
namespace VirtualGic.Core

variable {c c' : Core} {l m : Line} {n : Nat}

/-! ## Field writes -/

theorem deedOf_congr (h : Local c c') {w : FieldWrite} (hl : c.vm.Has w.line) : c'.deedOf w = c.deedOf w := by
  unfold deedOf
  rw [h.mayClaim hl]

theorem exists_owner (h : c.Sound) (hl : c.vm.Has l) (may : c.mayClaim l = false) :
    ∃ w target, (c.interrupt l).owner = some w ∧ w ≠ c.vcpu ∧ c.vm.pcpuOf? w = some target := by
  cases ho : (c.interrupt l).owner with
  | none =>
    have := (c.mayClaim_iff l).2 (.inl ho)
    rw [may] at this
    cases this
  | some w =>
    obtain ⟨target, ht⟩ := Vm.exists_pcpuOf? ((h.records l hl).owner_lt w ho)
    refine ⟨w, target, rfl, ?_, ht⟩
    rintro rfl
    have := (c.mayClaim_iff l).2 (.inr ho)
    rw [may] at this
    cases this

theorem forward_eq (h : c.Sound) (hl : c.vm.Has l) (may : c.mayClaim l = false) (r : Request) (fill : Payload → Payload) :
    ∃ w target, (c.interrupt l).owner = some w ∧ w ≠ c.vcpu ∧ c.vm.pcpuOf? w = some target ∧
      c.forward l r fill = c.post target r (fill (c.payload (l.home?.getD w) l.id)) := by
  obtain ⟨w, target, ho, hw, ht⟩ := exists_owner h hl may
  exact ⟨w, target, ho, hw, ht, by simp only [forward, ho, ht]⟩

/-- A message to the CPU of a vCPU waits there. -/
theorem waiting_post (h : c.Stationed) {w target : Nat} (ht : c.vm.pcpuOf? w = some target) (r : Request) (p : Payload)
    (cpu : Nat) :
    (c.post target r p).waiting cpu = c.waiting cpu ++ if target = cpu then [⟨r.code, p.toWord⟩] else [] := by
  obtain ⟨bus, gic, e, -, -, hwait⟩ := c.post_eq target r p
  rw [e]
  refine (hwait cpu).trans ?_
  by_cases hc : target = cpu
  · rw [if_pos hc, if_pos ⟨hc, h.reaches w target ht⟩]
    rfl
  · rw [if_neg hc, if_neg fun e => hc e.1]
    rfl

theorem code_lt (g : RegisterGroup) : g.code < 64 := by cases g <;> decide

theorem forwarded_writeField (h : c.Sound) (hl : c.vm.Has l) (may : c.mayClaim l = false) (g : RegisterGroup)
    (v : BitVec 64) : Forwarded c (c.writeField g l v) g l v := by
  obtain ⟨w, target, ho, hw, ht, e⟩ := forward_eq h hl may .writeField fun p =>
    { p with group := BitVec.ofNat 6 g.code, value := v.setWidth 32 }
  have hf : c.writeField g l v = c.forward l .writeField fun p =>
      { p with group := BitVec.ofNat 6 g.code, value := v.setWidth 32 } := by
    rw [writeField, may, if_neg (by decide)]
  have e := hf.trans e
  have hb : ∀ home, l.home? = some home → l.home?.getD w = home := fun home hh => by rw [hh]; rfl
  refine ⟨hl, may, ?_, w, target, _, ho, hw, ht, fun cpu => ?_,
    about_payload h.station hl hb .writeField (BitVec.ofNat 6 g.code) (v.setWidth 32), ?_, ?_⟩
  · rw [e]
    exact posted_post ..
  · rw [e]
    exact waiting_post h.station ht .writeField _ cpu
  · rw [Payload.ofWord_toWord]
    exact (BitVec.toNat_ofNat ..).trans (Nat.mod_eq_of_lt (code_lt g))
  · rw [Payload.ofWord_toWord]

/-- **A field write is carried out or sent to the owner's core.** -/
theorem does_writeField (h : c.Sound) (hl : c.vm.Has l) (g : RegisterGroup) (v : BitVec 64) :
    Does c (c.writeField g l v) (some (c.deedOf ⟨g, l, v⟩)) := by
  unfold deedOf
  cases may : c.mayClaim l with
  | true =>
    obtain ⟨s, hs, made⟩ := handled_applyField h hl may g v
    have e : c.writeField g l v = c.applyField g l v := by rw [writeField, may, if_pos rfl]
    rw [e, if_pos rfl]
    exact .handled l s (fun a ha => by cases ha; rfl) hs made
  | false =>
    rw [if_neg (by decide)]
    exact .forwarded g l v (forwarded_writeField h hl may g v)

theorem writeField_runs (h : c.Sound) (hl : c.vm.Has l) (g : RegisterGroup) (v : BitVec 64) :
    Runs c [c.deedOf ⟨g, l, v⟩] (c.writeField g l v) := (does_writeField h hl g v).runs

/-- A field write of a word writes bits of it to one of the interrupts. -/
theorem mem_fieldWrites {g : RegisterGroup} {bits : Nat} {ls : List Line} {v : BitVec 64} {w : FieldWrite}
    (h : w ∈ fieldWrites g bits ls v) : ∃ l ∈ ls, ∃ u, w = ⟨g, l, lowBits bits u⟩ := by
  induction ls generalizing v with
  | nil => cases h
  | cons l rest ih =>
    unfold fieldWrites at h
    rcases List.mem_append.1 h with h | h
    · split at h
      next => cases h
      next => exact ⟨l, List.mem_cons_self, v, List.mem_singleton.1 h⟩
    · obtain ⟨k, hk, u, e⟩ := ih h
      exact ⟨k, List.mem_cons_of_mem l hk, u, e⟩

theorem mem_of_fieldWrites {g : RegisterGroup} {bits : Nat} {ls : List Line} {v : BitVec 64} {w : FieldWrite}
    (h : w ∈ fieldWrites g bits ls v) : w.line ∈ ls := by
  obtain ⟨l, hl, u, rfl⟩ := mem_fieldWrites h
  exact hl

theorem writeFields_runs (g : RegisterGroup) (bits : Nat) (ls : List Line) (v : BitVec 64) (c : Core) (h : c.Sound)
    (hl : ∀ l ∈ ls, c.vm.Has l) :
    Runs c ((fieldWrites g bits ls v).map c.deedOf) (writeFields g bits ls v c) := by
  induction ls generalizing v c with
  | nil => exact .nil c
  | cons l rest ih =>
    have hrest : ∀ k ∈ rest, c.vm.Has k := fun k hk => hl k (List.mem_cons_of_mem _ hk)
    unfold fieldWrites writeFields
    simp only
    split
    next => exact ih _ c h hrest
    next =>
      have hd := does_writeField h (hl l List.mem_cons_self) g (lowBits bits v)
      have hloc := hd.local_
      have hr := ih (v >>> bits) _ (hd.sound h) fun k hk => (Vm.has_congr hloc.partition k).2 (hrest k hk)
      have e : (fieldWrites g bits rest (v >>> bits)).map (c.writeField g l (lowBits bits v)).deedOf =
          (fieldWrites g bits rest (v >>> bits)).map c.deedOf :=
        List.map_congr_left fun w hw => deedOf_congr hloc (hrest _ (mem_of_fieldWrites hw))
      rw [e] at hr
      exact .cons hd hr

/-! ## Software interrupts and injection -/

theorem has_of_find?_core {id : Nat} (h : c.find? id = some l) : c.vm.Has l := Vm.has_of_find? h

theorem has_of_raiseWrites {id requester : Nat} {w : FieldWrite} (h : w ∈ c.raiseWrites id requester) :
    c.vm.Has w.line := by
  unfold raiseWrites at h
  split at h
  next => cases h
  next l hl =>
    have hh := has_of_find?_core hl
    split at h <;> rw [List.mem_singleton.1 h] <;> exact hh

theorem raise_runs (h : c.Sound) (id requester : Nat) :
    Runs c ((c.raiseWrites id requester).map c.deedOf) (c.raise id requester) := by
  unfold raiseWrites raise
  cases hf : c.find? id with
  | none => exact .nil c
  | some l =>
    have hh := has_of_find?_core hf
    simp only
    split
    next => exact writeField_runs h hh ..
    next => exact writeField_runs h hh ..

theorem find?_congr (h : Same c c') (id : Nat) : c'.find? id = c.find? id := by
  unfold find?
  rw [Vm.find?_congr h.partition, h.vcpu]

theorem raiseWrites_congr (h : Same c c') (id requester : Nat) : c'.raiseWrites id requester = c.raiseWrites id requester := by
  unfold raiseWrites
  rw [find?_congr h]
  simp only [Vm.countsRequesters_congr h.partition]

theorem raiseDeeds_congr (h : Local c c') (id requester : Nat) :
    (c'.raiseWrites id requester).map c'.deedOf = (c.raiseWrites id requester).map c.deedOf := by
  rw [raiseWrites_congr h.toSame]
  exact List.map_congr_left fun w hw => deedOf_congr h (has_of_raiseWrites hw)

theorem forward_inject_runs (h : c.Sound) (hl : c.vm.Has l) (may : c.mayClaim l = false) :
    Runs c [] (c.forward l .inject fun p => p) := by
  obtain ⟨w, target, -, -, -, e⟩ := forward_eq h hl may .inject fun p => p
  rw [e]
  exact .silent (.posted .inject (by decide) (posted_post ..)) (.nil _)

theorem inject_runs (h : c.Sound) (id : Nat) : Runs c (c.injectDeeds id) (c.inject id) := by
  unfold injectDeeds inject
  cases hf : c.find? id with
  | none => exact .nil c
  | some l =>
    have hh := has_of_find?_core hf
    simp only
    split
    next =>
      cases may : c.mayClaim l with
      | true =>
        obtain ⟨s, hs, made⟩ := handled_injectHardware h hh may
        have hd : Does c (c.injectHardware l) (some (.raise l)) := .handled l s (fun a ha => by cases ha; rfl) hs made
        exact hd.runs
      | false =>
        have e : c.injectHardware l = c.forward l .inject fun p => p := by
          rw [injectHardware, may, if_neg (by decide)]
          rfl
        rw [e]
        exact forward_inject_runs h hh may
    next =>
      split
      next => exact raise_runs h id c.vcpu
      next => exact writeField_runs h hh ..

theorem sendTo_other (id : Nat) {v : Nat} (hv : v ≠ c.vcpu) : Does c (c.sendTo id v) none := by
  have e : (v == c.vcpu) = false := by rw [beq_eq_false_iff_ne]; exact hv
  unfold sendTo
  rw [e, if_neg (by decide)]
  split
  next => exact .posted .inject (by decide) (.refl _ c)
  next => exact .posted .inject (by decide) (posted_post ..)

theorem sendAll_runs (id : Nat) (vs : List Nat) (c : Core) (h : c.Sound) (nodup : vs.Nodup) :
    Runs c (if c.vcpu ∈ vs then (c.raiseWrites id c.vcpu).map c.deedOf else []) (vs.foldl (·.sendTo id ·) c) := by
  induction vs generalizing c with
  | nil => exact .nil c
  | cons v vs ih =>
    rw [List.foldl_cons]
    obtain ⟨hv, hnd⟩ := List.nodup_cons.1 nodup
    by_cases hvc : v = c.vcpu
    · subst hvc
      have e : c.sendTo id c.vcpu = c.raise id c.vcpu := by rw [sendTo, beq_self_eq_true, if_pos rfl]
      have hr := raise_runs h id c.vcpu
      have hrest := ih (c.raise id c.vcpu) (hr.sound h) hnd
      rw [if_neg (by rw [hr.local_.vcpu]; exact hv)] at hrest
      rw [if_pos List.mem_cons_self, e]
      have := hr.append hrest
      rwa [List.append_nil] at this
    · have hd := sendTo_other (c := c) id hvc
      have hrest := ih (c.sendTo id v) (hd.sound h) hnd
      rw [hd.same.vcpu, raiseDeeds_congr hd.local_] at hrest
      have e : (c.vcpu ∈ v :: vs) ↔ c.vcpu ∈ vs := by
        rw [List.mem_cons]
        exact or_iff_right (Ne.symm hvc)
      simp only [e]
      exact .silent hd hrest

theorem send_runs (h : c.Sound) (id : Nat) (vcpus : CpuSet) :
    Runs c ((c.sendWrites id vcpus).map c.deedOf) (c.send id vcpus) := by
  have := sendAll_runs id (c.vm.vcpuIds.filter vcpus.getLsbD) c h (List.nodup_range.filter _)
  unfold sendWrites
  split
  next hm => rw [if_pos hm] at this; exact this
  next hm => rw [if_neg hm] at this; exact this

/-! ## Maintenance -/

/-- **Retiring goes register by register**: each is still completed when its turn comes. -/
theorem Sound.retireCompleted_induct {P : List Nat → Core → Prop} (h : c.Sound)
    (start : P (c.interface.slotsWhere (·.isCompleted)) c)
    (step : ∀ d n ns, d.Sound → (d.interface.read n).isCompleted = true → P (n :: ns) d → P ns (d.retire n)) :
    P [] c.retireCompleted := by
  unfold retireCompleted
  have nodup : (c.interface.slotsWhere (·.isCompleted)).Nodup := List.nodup_range.filter _
  have completed : ∀ n ∈ c.interface.slotsWhere (·.isCompleted), (c.interface.read n).isCompleted = true :=
    fun n hn => ((c.interface.mem_slotsWhere _ n).1 hn).2
  generalize c.interface.slotsWhere (·.isCompleted) = ns at start nodup completed
  induction ns generalizing c with
  | nil => exact start
  | cons n ns ih =>
    obtain ⟨hn, hnd⟩ := List.nodup_cons.1 nodup
    have hcm := completed n List.mem_cons_self
    obtain ⟨_, _, handled, -, keeps⟩ := handled_retire h hcm
    refine ih handled.sound (step c n ns h hcm start) hnd fun m hm => ?_
    have hcm := completed m (List.mem_cons_of_mem _ hm)
    rw [keeps m (fun e => hn (e ▸ hm)) hcm]
    exact hcm

theorem retireCompleted_runs (h : c.Sound) : Runs c [] c.retireCompleted :=
  h.retireCompleted_induct (P := fun _ => Runs c []) (.nil c) fun d n _ hd completed runs => by
    obtain ⟨l, s, handled, made, -⟩ := handled_retire hd completed
    have retires : Does d (d.retire n) none := .handled l s (fun a ha => by cases ha) handled made
    exact runs.append retires.runs

/-- What each deactivation keeps all of them keep. -/
theorem Sound.deactivateAll_induct {α : Type} {P : Core → Prop} (xs : List α) (h : c.Sound) (start : P c)
    (step : ∀ d l, d.Sound → (d.firstSpilled? fun l => (d.interrupt l).state.active && d.mayClaim l) = some l → P d →
      P d.deactivateSpilled) : P (xs.foldl (fun c _ => c.deactivateSpilled) c) := by
  induction xs generalizing c with
  | nil => exact start
  | cons x xs ih =>
    rw [List.foldl_cons]
    cases first : c.firstSpilled? fun l => (c.interrupt l).state.active && c.mayClaim l with
    | none =>
      rw [deactivateSpilled_of_none first]
      exact ih h start
    | some l =>
      obtain ⟨_, handled, -⟩ := handled_deactivateSpilled h first
      exact ih handled.sound (step c l h first start)

theorem deactivateAll_runs {α : Type} (xs : List α) (c : Core) (h : c.Sound) :
    Runs c ((deactivated xs.length c).map .deactivate) (xs.foldl (fun c _ => c.deactivateSpilled) c) := by
  induction xs generalizing c with
  | nil => exact .nil c
  | cons x xs ih =>
    rw [List.foldl_cons, List.length_cons, deactivated, List.map_append]
    cases hf : c.firstSpilled? fun l => (c.interrupt l).state.active && c.mayClaim l with
    | none =>
      rw [deactivateSpilled_of_none hf]
      exact ih c h
    | some l =>
      obtain ⟨s, hs, made⟩ := handled_deactivateSpilled h hf
      have hd : Does c c.deactivateSpilled (some (.deactivate l)) :=
        .handled l s (fun a ha => by cases ha; rfl) hs made
      exact .cons hd (ih _ (hd.sound h))

theorem settleUnmatched_runs (h : c.Sound) :
    Runs c ((deactivated c.interface.control.completions.toNat (c.modifyControl ({ · with completions := 0 }))).map
      .deactivate) c.settleUnmatched := by
  have hd : Does c (c.modifyControl ({ · with completions := 0 })) none :=
    .aside (alike_modifyControl ..) rfl id
  have hr := deactivateAll_runs (List.range c.interface.control.completions.toNat) _ (hd.sound h)
  rw [List.length_range] at hr
  exact .silent hd hr

theorem busy_of_isWanted {pendingOnly : Bool} (h : c.isWanted pendingOnly l = true) :
    (c.interrupt l).state.isIdle = false ∧ (c.interrupt l).enabled = true ∧ c.mayClaim l = true ∧
      c.isTarget l = true := by
  unfold isWanted at h
  simp only [Bool.and_eq_true] at h
  obtain ⟨⟨⟨h1, h2⟩, h3⟩, h4⟩ := h
  refine ⟨?_, h2, h3, h4⟩
  cases pendingOnly with
  | true =>
    simp only [if_true] at h1
    exact Interrupt.State.isIdle_of_pending h1
  | false => simpa using h1

theorem refillLoop_runs (pendingOnly : Bool) (rounds : Nat) (c : Core) (h : c.Sound) :
    Runs c [] (refillLoop pendingOnly rounds [] c) := by
  induction rounds generalizing c with
  | zero => exact .nil c
  | succ rounds ih =>
    unfold refillLoop
    cases hfree : c.interface.freeSlot? with
    | none => exact .nil c
    | some n =>
      simp only
      cases hf : c.firstSpilled? fun l => !([] : List Nat).contains l.id && c.isWanted pendingOnly l with
      | none =>
        have drained : ∀ l, c.vm.Has l → l.SeenBy c.vcpu → (c.interrupt l).spilled = true →
            c.isWanted pendingOnly l = false := fun l hl seen hsp => by
          have := firstSpilled?_eq_none h hf hl seen hsp
          simpa using this
        exact .silent (.dropped pendingOnly drained rfl) (.nil _)
      | some l =>
        obtain ⟨hl, seen, hsp, hw⟩ := firstSpilled?_spec hf
        rw [Bool.and_eq_true] at hw
        obtain ⟨busy, enabled, may, target⟩ := busy_of_isWanted hw.2
        obtain ⟨placed, s, hs, made⟩ := handled_refill h hl may (h.off_of_spilled hl hsp) enabled target busy hfree
        have hd : Does c ((c.claim l).place l).1 none := .handled l s (fun a ha => by cases ha) hs made
        simp only [placed, if_true]
        exact .silent hd (ih _ (hd.sound h))

theorem maintain_runs (h : c.Sound) : Runs c c.maintenanceDeeds c.maintain := by
  unfold maintenanceDeeds maintain
  simp only
  have h1 : Runs c [] (if c.interface.status.completed = true then c.retireCompleted else c) := by
    split
    next => exact retireCompleted_runs h
    next => exact .nil c
  generalize (if c.interface.status.completed = true then c.retireCompleted else c) = d at h1
  have hd := h1.sound h
  have h2 : Runs d (if c.interface.status.unmatched = true then
      (deactivated d.interface.control.completions.toNat (d.modifyControl ({ · with completions := 0 }))).map .deactivate
      else []) (if c.interface.status.unmatched = true then d.settleUnmatched else d) := by
    split
    next => exact settleUnmatched_runs hd
    next => exact .nil d
  have h12 := h1.append h2
  generalize (if c.interface.status.unmatched = true then d.settleUnmatched else d) = e at h2 h12
  have he := h2.sound hd
  have h3 : Runs e [] (if (c.interface.status.noPending || c.interface.status.underflow) = true then
      e.refill c.interface.status.noPending else e) := by
    split
    next => exact refillLoop_runs _ _ e he
    next => exact .nil e
  have h123 := h12.append h3
  rwa [List.append_nil, List.nil_append] at h123

/-! ## Messages -/

theorem accept_does (h : c.Sound) (hl : c.vm.Has l) : Does c (c.accept l) none := by
  rcases accept_cases h hl with ⟨-, e⟩ | ⟨s, hs, made⟩ | ⟨may, e, -⟩
  · rw [e]
    exact .posted .route (by decide) (.refl _ c)
  · exact .handled l s (fun a ha => by cases ha) hs made
  · exact .returned l hl may e

theorem alike_setEnabled (c : Core) (on : Bool) : Alike c (c.setEnabled on) := alike_modifyControl ..

theorem syncEnabled_does (c : Core) : Does c c.syncEnabled none := .aside (alike_setEnabled c _) rfl id

theorem handle_runs (h : c.Sound) (m : Message) : Runs c (c.messageDeeds m) (c.handle m) := by
  unfold messageDeeds handle
  simp only
  split
  next =>
    cases hr : Request.ofCode? m.event with
    | none => exact .nil c
    | some r =>
      unfold requestDeeds handleRequest
      cases r with
      | syncEnable => exact (syncEnabled_does c).runs
      | route =>
        simp only
        split
        next l hl => exact (accept_does h (Vm.has_of_find? hl)).runs
        next => exact .nil c
      | inject =>
        simp only
        split
        next => exact raise_runs h _ _
        next => exact inject_runs h _
      | writeField =>
        simp only
        cases hg : RegisterGroup.ofCode? (Payload.ofWord m.data).group.toNat with
        | none => exact .nil c
        | some g =>
          cases hf : c.vm.find? (Payload.ofWord m.data).bank.toNat (Payload.ofWord m.data).intid.toNat with
          | none => exact .nil c
          | some l => exact writeField_runs h (Vm.has_of_find? hf) g _
  next => exact .nil c

/-! ## The guest's list registers -/

theorem pending_of_nextSlot? {f : CpuInterface} (h : f.nextSlot? = some n) : (f.read n).state.pending = true := by
  obtain ⟨-, hw⟩ := (f.mem_slotsWhere _ n).1 (firstBest_mem h)
  rw [Interrupt.State.isWaiting, Bool.and_eq_true] at hw
  exact hw.1

/-- A list register in use is credited to the interrupt that it names. -/
theorem Sound.named (h : c.Sound) (busy : (c.interface.read n).state.isIdle = false) :
    ∃ l, c.vm.Has l ∧ c.vm.Credits c.vcpu l n ∧ c.find? (c.interface.read n).intid.toNat = some l := by
  obtain ⟨l, hl, seen, hid, hc⟩ := h.seated.held n (ListRegister.not_isEmpty_of_busy busy)
  exact ⟨l, hl, hc, by rw [← hid]; exact Vm.find?_id hl seen⟩

theorem acknowledge_runs (h : c.Sound) :
    Runs c c.acknowledgeDeeds { c with interface := c.interface.acknowledge.2 } := by
  unfold acknowledgeDeeds CpuInterface.acknowledge
  cases he : c.interface.control.enabled with
  | false => exact .nil c
  | true =>
    cases hn : c.interface.nextSlot? with
    | none => exact .nil c
    | some n =>
      have hp := pending_of_nextSlot? hn
      obtain ⟨l, hl, hc, hf⟩ := h.named (n := n) (Interrupt.State.isIdle_of_pending hp)
      simp only [if_true, hf]
      have hd : Does c (c.writeSlot n { c.interface.read n with state := ⟨false, true⟩ }) (some (.acknowledge l)) :=
        .restated (.acknowledge l) n hl hc trivial rfl
      exact hd.runs

theorem complete_runs (h : c.Sound) (number : BitVec 32) :
    Runs c (c.completeDeeds number) { c with interface := c.interface.complete number } := by
  unfold completeDeeds CpuInterface.complete
  cases hn : c.interface.slots.find? fun n =>
      (c.interface.read n).number == number && (c.interface.read n).state.active with
  | none =>
    have hd : Does c { c with interface := { c.interface with control :=
        { c.interface.control with completions := c.interface.control.completions + 1 } } } none :=
      .aside ⟨⟨rfl, rfl, rfl, rfl⟩, fun _ => rfl, fun _ => rfl, fun _ _ => rfl, rfl⟩ rfl id
    exact hd.runs
  | some n =>
    have ha := List.find?_some hn
    simp only [Bool.and_eq_true] at ha
    obtain ⟨l, hl, hc, hf⟩ := h.named (n := n) (Interrupt.State.isIdle_of_active ha.2)
    simp only [hf]
    have hd : Does c (c.writeSlot n { c.interface.read n with
        state := { (c.interface.read n).state with active := false } }) (some (.complete l)) :=
      .restated (.complete l) n hl hc trivial rfl
    exact hd.runs

/-! ## Accesses -/

theorem does_storeControl_enables (c : Core) (e : BitVec 2) :
    Does c { c with vm := { c.vm with groupEnables := e } } none := by
  refine .aside ⟨⟨rfl, rfl, rfl, rfl⟩, fun l => ?_, fun home => ?_, fun _ _ => rfl, rfl⟩ rfl id
  · cases l <;> rfl
  · cases home <;> rfl

theorem storeControl_runs (c : Core) (v : BitVec 64) : Runs c [] (Distributor.storeControl c v) := by
  have hd := does_storeControl_enables c (v.setWidth 2)
  unfold Distributor.storeControl
  simp only
  split
  next => exact hd.runs
  next =>
    refine .silent hd (.silent (syncEnabled_does _) ?_)
    have hp : Does _ (({ c with vm := { c.vm with groupEnables := v.setWidth 2 } } : Core).syncEnabled.broadcast .syncEnable
        (({ c with vm := { c.vm with groupEnables := v.setWidth 2 } } : Core).syncEnabled.payload
          ({ c with vm := { c.vm with groupEnables := v.setWidth 2 } } : Core).syncEnabled.vcpu 0)) none :=
      .posted .syncEnable (by decide) (posted_postAll ..)
    exact hp.runs

theorem setAsleep_does (c : Core) (vcpu : Nat) (asleep : Bool) : Does c { c with vm := c.vm.setAsleep vcpu asleep } none :=
  .aside ⟨⟨rfl, rfl, rfl, rfl⟩, fun _ => Vm.interrupt_setAsleep .., fun _ => Vm.spillList_setAsleep ..,
    fun _ _ => Vm.occupant?_setAsleep .., rfl⟩ rfl id

theorem store_runs (h : c.Sound) {v : BitVec 64} {addr : BitVec 64} {width : Nat} {w : Window} {c' : Core}
    (hs : c.storeWindow? w addr width v = some c') : Runs c ((c.windowWrites w addr width v).map c.deedOf) c' := by
  unfold storeWindow? at hs
  unfold windowWrites
  cases w with
  | distributor base =>
    simp only at hs ⊢
    rw [Option.map_eq_some_iff] at hs
    obtain ⟨p, hp, rfl⟩ := hs
    have reach := Distributor.reaches_place? hp
    rw [hp]
    cases p with
    | control => exact storeControl_runs c v
    | type => exact .nil c
    | implementer => exact .nil c
    | zero => exact .nil c
    | identification offset => exact .nil c
    | softwareInterrupt => exact send_runs h _ _
    | route id part => exact writeField_runs h reach .route _
    | fields g bits ls => exact writeFields_runs g bits ls v c h reach.has
  | redistributors base count =>
    simp only at hs ⊢
    rw [Option.map_eq_some_iff] at hs
    obtain ⟨p, hp, rfl⟩ := hs
    have reach := Redistributor.reaches_place? hp
    rw [hp]
    cases p with
    | implementer => exact .nil c
    | type vcpu part => exact .nil c
    | wake vcpu => exact (setAsleep_does c vcpu _).runs
    | identification offset => exact .nil c
    | zero => exact .nil c
    | fields g bits ls => exact writeFields_runs g bits ls v c h reach.has

theorem refused_runs {w : Window} {addr : BitVec 64} {width : Nat} {v : BitVec 64}
    (hs : c.storeWindow? w addr width v = none) : c.windowWrites w addr width v = [] := by
  unfold storeWindow? at hs
  unfold windowWrites
  cases w with
  | distributor base =>
    simp only at hs ⊢
    rw [Option.map_eq_none_iff] at hs
    rw [hs]
  | redistributors base count =>
    simp only at hs ⊢
    rw [Option.map_eq_none_iff] at hs
    rw [hs]

theorem access_runs (h : c.Sound) (a : Access) (f : RegisterFile) :
    Runs c ((c.accessWrites a f).map c.deedOf) (c.access a f).2.2 := by
  unfold accessWrites
  cases write : a.write with
  | false =>
    rw [access_of_read write, if_neg Bool.false_ne_true]
    cases c.load? c.vm.addressMap a.addr a.width <;> exact .nil c
  | true =>
    rw [access_of_write write, if_pos rfl, store?]
    cases c.vm.addressMap.find? (·.contains a.addr) with
    | none => exact .nil c
    | some w =>
      simp only [Option.bind_some]
      cases hs : c.storeWindow? w a.addr a.width (a.stored f) with
      | none => rw [refused_runs hs]; exact .nil c
      | some c' => exact store_runs h hs

theorem accessSystem_runs (h : c.Sound) (a : SystemAccess) (f : RegisterFile) :
    Runs c ((c.systemWrites a f).map c.deedOf) (c.accessSystem a f).2.2 := by
  unfold systemWrites accessSystem
  split
  next => split <;> exact .nil c
  next =>
    unfold writeSystem?
    by_cases ht : a.target = .softwareInterrupt
    · simp only [ht, if_true]
      exact send_runs h _ _
    · simp only [ht, if_false]
      by_cases he : a.target = .enable
      · simp only [he, if_true]
        exact .nil c
      · simp only [he, if_false]
        exact .nil c

/-- **Every action other than handling messages is a run with the deeds it is listed with.** -/
theorem act_runs (h : c.Sound) {a : Action} (ha : a ≠ .poll) : Runs c (c.deeds a) (c.act a) := by
  cases a with
  | access a f => exact access_runs h a f
  | accessSystem a f => exact accessSystem_runs h a f
  | inject id => exact inject_runs h id
  | maintain => exact maintain_runs h
  | poll => exact absurd rfl ha
  | acknowledge => exact acknowledge_runs h
  | complete number => exact complete_runs h number

end VirtualGic.Core
