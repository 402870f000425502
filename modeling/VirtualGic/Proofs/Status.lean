import VirtualGic.Proofs.Placement
/-!
# Maintenance status

What clears the maintenance status of an interface, and what keeps it clear.  An interrupt enters a free list register,
or all of them are in use (`CpuInterface.Enters`); either way no status appears that was not there before
(`CpuInterface.Upkept`).
-/
namespace VirtualGic.CpuInterface

variable {f f' f'' : CpuInterface} {n : Nat}

/-! ## Clear -/

/-- No list register waits to be retired. -/
def Retired (f : CpuInterface) : Prop := ∀ n, (f.read n).isCompleted = false

/-- Every list register is in use. -/
def Full (f : CpuInterface) : Prop := ∀ n, n < f.count → (f.read n).state.isIdle = false

/-- No maintenance is due that refills list registers, unless none is free. -/
def Calm (f : CpuInterface) : Prop := f.Full ∨ f.status.noPending = false ∧ f.status.underflow = false

theorem read_of_ge (h : f.count ≤ n) : f.read n = .empty := by
  rw [read, Array.getD_eq_getD_getElem?, Array.getElem?_eq_none h, Option.getD_none]

theorem lt_count_of_isCompleted (h : (f.read n).isCompleted = true) : n < f.count := by
  refine Nat.lt_of_not_le fun hge => ?_
  rw [read_of_ge hge] at h
  cases h

theorem completed_eq_false_iff (f : CpuInterface) : f.status.completed = false ↔ f.Retired := by
  have e : f.status.completed = false ↔ f.slotsWhere (·.isCompleted) = [] := by
    simp only [status, Bool.not_eq_false', List.isEmpty_iff]
  rw [e, List.eq_nil_iff_forall_not_mem]
  constructor
  · intro h n
    rw [← Bool.not_eq_true]
    exact fun hc => h n ((f.mem_slotsWhere _ n).2 ⟨lt_count_of_isCompleted hc, hc⟩)
  · intro h n hn
    exact absurd ((h n).symm.trans ((f.mem_slotsWhere _ n).1 hn).2) (by decide)

theorem noPending_eq_false_iff (f : CpuInterface) : f.status.noPending = false ↔
    f.control.noPending = false ∨ ∃ n, n < f.count ∧ (f.read n).state.pending = true := by
  simp only [status, Bool.and_eq_false_iff, List.isEmpty_eq_false_iff_exists_mem, mem_slotsWhere]

theorem underflow_eq_false_iff (f : CpuInterface) : f.status.underflow = false ↔
    f.control.underflow = false ∨ 1 < (f.slotsWhere (!·.state.isIdle)).length := by
  simp only [status, Bool.and_eq_false_iff, decide_eq_false_iff_not, Nat.not_le]

theorem length_slotsWhere_le {p : ListRegister → Bool} (hcount : f'.count = f.count)
    (h : ∀ m, p (f.read m) = true → p (f'.read m) = true) : (f.slotsWhere p).length ≤ (f'.slotsWhere p).length := by
  unfold slotsWhere slots
  rw [hcount, ← List.countP_eq_length_filter, ← List.countP_eq_length_filter]
  exact List.countP_mono_left fun m _ => h m

theorem isEmpty_of_freeSlot?_eq_none (h : f.freeSlot? = none) (hn : n < f.count) : (f.read n).isEmpty = false :=
  (Bool.not_eq_true _).mp (List.find?_eq_none.1 h n (List.mem_range.2 hn))

/-- **An interface that has no register to retire and none to fill is in use throughout.** -/
theorem full_of_retired (h : f.Retired) (none : f.freeSlot? = none) : f.Full := by
  intro n hn
  cases hidle : (f.read n).state.isIdle with
  | false => rfl
  | true =>
    have he := isEmpty_of_freeSlot?_eq_none none hn
    rw [ListRegister.isEmpty_or_isCompleted _ hidle, h n] at he
    cases he

theorem length_busy_of_full (h : f.Full) : (f.slotsWhere (!·.state.isIdle)).length = f.count := by
  have all : f.slotsWhere (!·.state.isIdle) = f.slots :=
    List.filter_eq_self.2 fun n hn => by simpa using h n (List.mem_range.1 hn)
  rw [all, slots, List.length_range]

/-- What is written over a register that is idle leaves the others in use. -/
theorem Calm.write (h : f.Calm) (hn : n < f.count) (idle : (f.read n).state.isIdle = true) (r : ListRegister) :
    (f.write n r).Calm := by
  rcases h with full | ⟨noPending, underflow⟩
  · exact absurd (idle.symm.trans (full n hn)) (by decide)
  have other : ∀ m, (f.read m).state.isIdle = false → (f.write n r).read m = f.read m := fun m hm => by
    rw [read_write, if_neg]
    rintro ⟨rfl, -⟩
    exact absurd (idle.symm.trans hm) (by decide)
  refine .inr ⟨(noPending_eq_false_iff _).2 ?_, (underflow_eq_false_iff _).2 ?_⟩
  · refine ((noPending_eq_false_iff f).1 noPending).imp id ?_
    rintro ⟨m, hm, hp⟩
    have busy := Interrupt.State.isIdle_of_pending hp
    exact ⟨m, Nat.lt_of_lt_of_eq hm (count_write ..).symm, by rw [other m busy]; exact hp⟩
  · refine ((underflow_eq_false_iff f).1 underflow).imp id fun hlt => ?_
    refine Nat.lt_of_lt_of_le hlt (length_slotsWhere_le (count_write ..) fun m hm => ?_)
    rw [other m (by simpa using hm)]
    exact hm

/-- Refilling stays due only where every list register holds an active interrupt. -/
theorem Calm.noPending (h : f.Calm) (due : f.status.noPending = true) {n : Nat} (hn : n < f.count) :
    (f.read n).state = ⟨false, true⟩ := by
  rcases h with full | ⟨none, -⟩
  · have busy := full n hn
    have waits : (f.read n).state.pending = false := by
      rw [← Bool.not_eq_true]
      intro hp
      have := f.noPending_eq_false_iff.2 (.inr ⟨n, hn, hp⟩)
      exact absurd (due.symm.trans this) (by decide)
    exact Interrupt.State.eq_of_not_pending busy waits
  · exact absurd (due.symm.trans none) (by decide)

/-- Refilling stays due only where one register is all there is. -/
theorem Calm.underflow (h : f.Calm) (due : f.status.underflow = true) : f.count ≤ 1 ∧ f.Full := by
  rcases h with full | ⟨-, none⟩
  · refine ⟨?_, full⟩
    rw [← length_busy_of_full full]
    refine Nat.le_of_not_lt fun hlt => ?_
    exact absurd (due.symm.trans (f.underflow_eq_false_iff.2 (.inr hlt))) (by decide)
  · exact absurd (due.symm.trans none) (by decide)

/-! ## Kept clear -/

/-- What maintenance leaves clear, whatever part of it is at work. -/
structure Upkept (f f' : CpuInterface) : Prop where
  count : f'.count = f.count
  completed : ∀ m, (f'.read m).isCompleted = true → (f.read m).isCompleted = true
  unmatched : f.status.unmatched = false → f'.status.unmatched = false
  calm : f.Calm → f'.Calm

theorem Upkept.refl (f : CpuInterface) : f.Upkept f := ⟨rfl, fun _ => id, id, id⟩

theorem Upkept.trans (h : f.Upkept f') (h' : f'.Upkept f'') : f.Upkept f'' :=
  ⟨h'.count.trans h.count, fun m hm => h.completed m (h'.completed m hm), h'.unmatched ∘ h.unmatched, h'.calm ∘ h.calm⟩

theorem Upkept.cleared (h : f.Upkept f') (hn : (f.read n).isCompleted = false) : (f'.read n).isCompleted = false := by
  rw [← Bool.not_eq_true] at hn ⊢
  exact fun hc => hn (h.completed n hc)

theorem Upkept.retired (h : f.Upkept f') (hr : f.Retired) : f'.Retired := fun m => h.cleared (hr m)

/-- How an operation brought at most one interrupt into the list registers. -/
inductive Enters (f f' : CpuInterface) : Prop
  | nothing (eq : f' = f)
  | free (n : Nat) (r : ListRegister) (lt : n < f.count) (idle : (f.read n).state.isIdle = true)
    (busy : r.state.isIdle = false) (eq : f' = f.write n r)
  /-- Without a free one, something else made room or the interrupt stayed out. -/
  | full (none : f.freeSlot? = none) (count : f'.count = f.count)
    (read : ∀ m, f'.read m = f.read m ∨ (f'.read m).state.isIdle = false) (kept : f.control.Kept f'.control)

theorem Enters.count (h : f.Enters f') : f'.count = f.count := by
  cases h with
  | nothing eq => rw [eq]
  | free n r lt idle busy eq => rw [eq, count_write]
  | full none count read kept => exact count

theorem Enters.kept (h : f.Enters f') : f.control.Kept f'.control := by
  cases h with
  | nothing eq => rw [eq]; exact .refl _
  | free n r lt idle busy eq => rw [eq]; exact .refl _
  | full none count read kept => exact kept

theorem Enters.unmatched (h : f.Enters f') : f'.status.unmatched = f.status.unmatched := by
  simp only [status, h.kept.unmatched, h.kept.completions]

theorem Enters.completed (h : f.Enters f') {m : Nat} (hm : (f'.read m).isCompleted = true) :
    (f.read m).isCompleted = true := by
  have of_read : f'.read m = f.read m ∨ (f'.read m).state.isIdle = false → (f.read m).isCompleted = true := by
    rintro (e | busy)
    · rw [← e]
      exact hm
    · rw [ListRegister.not_isCompleted_of_busy busy] at hm
      cases hm
  refine of_read ?_
  cases h with
  | nothing eq => exact .inl (by rw [eq])
  | free n r lt idle busy eq =>
    rw [eq, read_write]
    split
    next => exact .inr busy
    next => exact .inl rfl
  | full none count read kept => exact read m

theorem Enters.calm (h : f.Enters f') (hc : f.Calm) (full : f.freeSlot? = none → f.Full) : f'.Calm := by
  cases h with
  | nothing eq => rw [eq]; exact hc
  | free n r lt idle busy eq => rw [eq]; exact hc.write lt idle r
  | full none count read kept =>
    refine .inl fun m hm => ?_
    rcases read m with e | busy
    · rw [e]
      exact full none m (Nat.lt_of_lt_of_eq hm count)
    · exact busy

/-- **What enters leaves the status clear**, once no register waits to be retired. -/
theorem Enters.upkept (h : f.Enters f') (hr : f.Retired) : f.Upkept f' :=
  ⟨h.count, fun _ => h.completed, fun hu => h.unmatched.trans hu, fun hc => h.calm hc (full_of_retired hr)⟩

/-- What enters after a completed register was cleared. -/
theorem Enters.upkept_cleared (completed : (f.read n).isCompleted = true) (h : (f.write n .empty).Enters f') :
    f.Upkept f' ∧ (f'.read n).isCompleted = false := by
  have hn := lt_count_of_isCompleted completed
  have cleared : (f.write n .empty).read n = .empty := by rw [read_write, if_pos ⟨rfl, hn⟩]
  have free : (f.write n .empty).freeSlot? ≠ none := fun none => by
    have := isEmpty_of_freeSlot?_eq_none none (Nat.lt_of_lt_of_eq hn (count_write ..).symm)
    rw [cleared] at this
    cases this
  have idle := ListRegister.isIdle_of_isCompleted completed
  have gone : ∀ m, ((f.write n .empty).read m).isCompleted = true → m ≠ n ∧ (f.read m).isCompleted = true := by
    intro m hm
    rw [read_write] at hm
    split at hm
    next => cases hm
    next hne => exact ⟨fun e => hne ⟨e.symm, hn⟩, hm⟩
  refine ⟨⟨h.count.trans (count_write ..), fun m hm => (gone m (h.completed hm)).2, fun hu => h.unmatched.trans hu,
    fun hc => h.calm (hc.write hn idle _) fun none => absurd none free⟩, ?_⟩
  rw [← Bool.not_eq_true]
  exact fun hm => (gone n (h.completed hm)).1 rfl

end VirtualGic.CpuInterface
