import VirtualGic.Partition.Validation
/-!
# Sets of partitions

`Partition.Checked` is what a table has to be on its own, `Partition.Apart` what two of them have to be to each other, and
`ConfigError.Occurs` what a fault says of a list of tables.  No fault is found in a list exactly where all its tables are
checked and any two of them are apart, and a fault that is found is there (`faultAmong?_spec`).
-/
namespace VirtualGic

namespace Partition

structure Checked (p : Partition) : Prop where
  id_le : p.id ≤ maxVmId
  cpus_ne : p.cpus ≠ []
  cpus_le : p.cpus.length ≤ maxCpus
  cpu_lt : ∀ cpu ∈ p.cpus, cpu < maxCpus
  cpus_nodup : p.cpus.Nodup
  le_count : privateInterrupts ≤ p.interrupts
  count_le : p.interrupts ≤ maxInterrupts
  passthrough_range : ∀ id ∈ p.passthrough, privateInterrupts ≤ id ∧ id < p.interrupts
  passthrough_nodup : p.passthrough.Nodup

/-- A physical CPU runs one vCPU of a checked table. -/
theorem Checked.cpu_inj {p : Partition} (h : p.Checked) {v w cpu : Nat} (hv : p.cpus[v]? = some cpu)
    (hw : p.cpus[w]? = some cpu) : v = w := by
  obtain ⟨hlv, hv⟩ := List.getElem?_eq_some_iff.1 hv
  obtain ⟨hlw, hw⟩ := List.getElem?_eq_some_iff.1 hw
  exact (List.getElem_inj h.cpus_nodup).1 (hv.trans hw.symm)

/-- Two tables that share nothing. -/
structure Apart (p q : Partition) : Prop where
  id : p.id ≠ q.id
  cpus : ∀ cpu ∈ p.cpus, cpu ∉ q.cpus
  passthrough : ∀ id ∈ p.passthrough, id ∉ q.passthrough

end Partition

/-! ## What a fault says -/

/-- A number is listed by two tables, or twice by one. -/
def SharedAmong (entries : Partition → List Nat) (ps : List Partition) (n first second : Nat) : Prop :=
  (first ≠ second ∧ ∃ p q, [p, q].Sublist ps ∧ p.id = first ∧ q.id = second ∧ n ∈ entries p ∧ n ∈ entries q) ∨
    (first = second ∧ ∃ p ∈ ps, p.id = first ∧ 2 ≤ (entries p).count n)

def ConfigError.Occurs (ps : List Partition) : ConfigError → Prop
  | noVcpus vm => ∃ p ∈ ps, p.id = vm ∧ p.cpus = []
  | tooManyVcpus vm count max => max = maxCpus ∧ ∃ p ∈ ps, p.id = vm ∧ p.cpus.length = count ∧ max < count
  | invalidCpu vm cpu => ∃ p ∈ ps, p.id = vm ∧ cpu ∈ p.cpus ∧ maxCpus ≤ cpu
  | cpuConflict cpu first second => SharedAmong Partition.cpus ps cpu first second
  | interruptCount vm count min max => min = privateInterrupts ∧ max = maxInterrupts ∧
      ∃ p ∈ ps, p.id = vm ∧ p.interrupts = count ∧ ¬ (min ≤ count ∧ count ≤ max)
  | invalidPassthrough vm id => ∃ p ∈ ps, p.id = vm ∧ id ∈ p.passthrough ∧ ¬ (privateInterrupts ≤ id ∧ id < p.interrupts)
  | passthroughConflict id first second => SharedAmong Partition.passthrough ps id first second
  | vmIdOutOfRange vm => ∃ p ∈ ps, p.id = vm ∧ maxVmId < vm
  | duplicateVm vm => ∃ p q, [p, q].Sublist ps ∧ p.id = vm ∧ q.id = vm
  | notOnCpu .. => False

namespace Partition

/-! ## One table -/

section List
variable {bad : Nat → Option ConfigError} {again : Nat → ConfigError} {e : ConfigError}

/-- The first fault of a list, given the entries before it: an entry that is bad, or one that was there before. -/
def listFault? (bad : Nat → Option ConfigError) (again : Nat → ConfigError) : List Nat → List Nat → Option ConfigError
  | _, [] => none
  | seen, x :: rest => (bad x).or (if seen.contains x then some (again x) else listFault? bad again (x :: seen) rest)

theorem cpuFault?_eq (vm : Nat) (seen cpus : List Nat) : cpuFault? vm seen cpus =
    listFault? (fun cpu => if maxCpus ≤ cpu then some (.invalidCpu vm cpu) else none) (.cpuConflict · vm vm) seen cpus := by
  induction cpus generalizing seen with
  | nil => rfl
  | cons cpu rest ih =>
    unfold cpuFault? listFault?
    rw [ih]
    split <;> rfl

theorem passthroughFault?_eq (vm count : Nat) (seen ids : List Nat) : passthroughFault? vm count seen ids =
    listFault? (fun id => if id < privateInterrupts || count ≤ id then some (.invalidPassthrough vm id) else none)
      (.passthroughConflict · vm vm) seen ids := by
  induction ids generalizing seen with
  | nil => rfl
  | cons id rest ih =>
    unfold passthroughFault? listFault?
    rw [ih]
    split <;> rfl

theorem listFault?_eq_none_iff (seen xs : List Nat) : listFault? bad again seen xs = none ↔
    (∀ x ∈ xs, bad x = none ∧ x ∉ seen) ∧ xs.Nodup := by
  induction xs generalizing seen with
  | nil => exact ⟨fun _ => ⟨fun _ h => (by cases h), List.nodup_nil⟩, fun _ => rfl⟩
  | cons x rest ih =>
    unfold listFault?
    rw [Option.or_eq_none_iff, List.forall_mem_cons, List.nodup_cons, and_assoc, and_assoc]
    refine and_congr_right fun _ => ?_
    by_cases hx : x ∈ seen
    · simp [hx]
    · simp only [List.contains_iff_mem, hx, if_false, ih, not_false_eq_true, true_and, List.mem_cons, not_or]
      constructor
      · rintro ⟨all, nodup⟩
        exact ⟨fun y hy => ⟨(all y hy).1, (all y hy).2.2⟩, fun hm => (all x hm).2.1 rfl, nodup⟩
      · rintro ⟨all, fresh, nodup⟩
        exact ⟨fun y hy => ⟨(all y hy).1, fun e => fresh (e ▸ hy), (all y hy).2⟩, nodup⟩

theorem listFault?_cases {seen xs : List Nat} (h : listFault? bad again seen xs = some e) :
    (∃ x ∈ xs, bad x = some e) ∨ ∃ x, again x = e ∧ (x ∈ seen ∧ x ∈ xs ∨ 2 ≤ xs.count x) := by
  induction xs generalizing seen with
  | nil => cases h
  | cons x rest ih =>
    unfold listFault? at h
    rcases Option.or_eq_some_iff.1 h with h | ⟨-, h⟩
    · exact .inl ⟨x, List.mem_cons_self, h⟩
    split at h
    next hx => exact .inr ⟨x, Option.some.inj h, .inl ⟨List.contains_iff_mem.1 hx, List.mem_cons_self⟩⟩
    next =>
      rcases ih h with ⟨y, hy, hb⟩ | ⟨y, he, ⟨hs, hy⟩ | twice⟩
      · exact .inl ⟨y, List.mem_cons_of_mem _ hy, hb⟩
      · refine .inr ⟨y, he, ?_⟩
        rcases List.mem_cons.1 hs with rfl | hs
        · exact .inr (by rw [List.count_cons_self]; exact Nat.succ_le_succ (List.count_pos_iff.2 hy))
        · exact .inl ⟨hs, List.mem_cons_of_mem _ hy⟩
      · exact .inr ⟨y, he, .inr (Nat.le_trans twice (List.count_le_count_cons ..))⟩

end List

theorem cpuFault?_eq_none_iff (vm : Nat) (cpus : List Nat) :
    cpuFault? vm [] cpus = none ↔ (∀ cpu ∈ cpus, cpu < maxCpus) ∧ cpus.Nodup := by
  rw [cpuFault?_eq, listFault?_eq_none_iff]
  simp

theorem passthroughFault?_eq_none_iff (vm count : Nat) (ids : List Nat) : passthroughFault? vm count [] ids = none ↔
    (∀ id ∈ ids, privateInterrupts ≤ id ∧ id < count) ∧ ids.Nodup := by
  rw [passthroughFault?_eq, listFault?_eq_none_iff]
  simp

variable {p q : Partition} {e : ConfigError} {ps : List Partition}

theorem countFault?_eq_none_iff (p : Partition) :
    p.countFault? = none ↔ privateInterrupts ≤ p.interrupts ∧ p.interrupts ≤ maxInterrupts := by
  simp [countFault?]

/-- **The tables in which no fault is found are the checked ones.** -/
theorem fault?_eq_none_iff (p : Partition) : p.fault? = none ↔ p.Checked := by
  have test {c : Prop} [Decidable c] {e : ConfigError} {o : Option ConfigError} :
      (if c then some e else o) = none ↔ ¬ c ∧ o = none := by
    by_cases h : c <;> simp [h]
  unfold fault?
  rw [test, test, test, Option.or_eq_none_iff, Option.or_eq_none_iff, cpuFault?_eq_none_iff, countFault?_eq_none_iff,
    passthroughFault?_eq_none_iff, Nat.not_lt, Nat.not_lt, List.isEmpty_iff]
  constructor
  · rintro ⟨h1, h2, h3, ⟨h4, h5⟩, ⟨h6, h7⟩, h8, h9⟩
    exact ⟨h1, h2, h3, h4, h5, h6, h7, h8, h9⟩
  · rintro ⟨h1, h2, h3, h4, h5, h6, h7, h8, h9⟩
    exact ⟨h1, h2, h3, ⟨h4, h5⟩, ⟨h6, h7⟩, h8, h9⟩

theorem occurs_of_cpuFault? (h : cpuFault? p.id [] p.cpus = some e) (hp : p ∈ ps) : e.Occurs ps := by
  rw [cpuFault?_eq] at h
  rcases listFault?_cases h with ⟨cpu, hc, h⟩ | ⟨cpu, rfl, ⟨h, -⟩ | twice⟩
  · obtain ⟨high, ⟨⟩⟩ := Option.ite_none_right_eq_some.1 h
    exact ⟨p, hp, rfl, hc, high⟩
  · cases h
  · exact .inr ⟨rfl, p, hp, rfl, twice⟩

theorem occurs_of_passthroughFault? (h : passthroughFault? p.id p.interrupts [] p.passthrough = some e) (hp : p ∈ ps) :
    e.Occurs ps := by
  rw [passthroughFault?_eq] at h
  rcases listFault?_cases h with ⟨id, hid, h⟩ | ⟨id, rfl, ⟨h, -⟩ | twice⟩
  · obtain ⟨out, ⟨⟩⟩ := Option.ite_none_right_eq_some.1 h
    refine ⟨p, hp, rfl, hid, fun range => ?_⟩
    simp only [Bool.or_eq_true, decide_eq_true_eq] at out
    omega
  · cases h
  · exact .inr ⟨rfl, p, hp, rfl, twice⟩

theorem occurs_of_countFault? (h : p.countFault? = some e) (hp : p ∈ ps) : e.Occurs ps := by
  obtain ⟨out, ⟨⟩⟩ := Option.ite_none_left_eq_some.1 h
  exact ⟨rfl, rfl, p, hp, rfl, rfl, out⟩

theorem occurs_of_fault? (h : p.fault? = some e) (hp : p ∈ ps) : e.Occurs ps := by
  unfold fault? at h
  split at h
  next high => cases h; exact ⟨p, hp, rfl, high⟩
  next =>
  split at h
  next empty => cases h; exact ⟨p, hp, rfl, List.isEmpty_iff.1 empty⟩
  next =>
  split at h
  next many => cases h; exact ⟨rfl, p, hp, rfl, rfl, many⟩
  next =>
  rcases Option.or_eq_some_iff.1 h with h | ⟨-, h⟩
  · exact occurs_of_cpuFault? h hp
  rcases Option.or_eq_some_iff.1 h with h | ⟨-, h⟩
  · exact occurs_of_countFault? h hp
  · exact occurs_of_passthroughFault? h hp

/-! ## Several tables -/

theorem find?_contains_eq_none_iff (xs ys : List Nat) : ys.find? xs.contains = none ↔ ∀ x ∈ xs, x ∉ ys := by
  rw [List.find?_eq_none]
  constructor
  · intro h x hx hy
    exact h x hy (List.contains_iff_mem.2 hx)
  · intro h y hy hx
    exact h y (List.contains_iff_mem.1 hx) hy

theorem conflict?_eq_none_iff (p q : Partition) : conflict? p q = none ↔ p.Apart q := by
  unfold conflict?
  by_cases hid : p.id = q.id
  · rw [if_pos (beq_iff_eq.2 hid)]
    exact ⟨fun h => (by cases h), fun h => absurd hid h.id⟩
  · rw [if_neg (mt beq_iff_eq.1 hid), Option.or_eq_none_iff, Option.map_eq_none_iff, Option.map_eq_none_iff,
      find?_contains_eq_none_iff, find?_contains_eq_none_iff]
    exact ⟨fun h => ⟨hid, h.1, h.2⟩, fun h => ⟨h.cpus, h.passthrough⟩⟩

theorem occurs_of_conflict? (h : conflict? p q = some e) (hs : [p, q].Sublist ps) : e.Occurs ps := by
  -- an entry of the later table that the earlier one lists too
  have shared {xs ys : List Nat} {x : Nat} (h : ys.find? xs.contains = some x) : x ∈ xs ∧ x ∈ ys :=
    ⟨List.contains_iff_mem.1 (List.find?_some h), List.mem_of_find?_eq_some h⟩
  unfold conflict? at h
  split at h
  next same =>
    cases h
    exact ⟨p, q, hs, beq_iff_eq.1 same, rfl⟩
  next differs =>
  have differs : p.id ≠ q.id := fun e => differs (beq_iff_eq.2 e)
  rcases Option.or_eq_some_iff.1 h with h | ⟨-, h⟩
  · obtain ⟨cpu, hc, rfl⟩ := Option.map_eq_some_iff.1 h
    exact .inl ⟨differs, p, q, hs, rfl, rfl, shared hc⟩
  · obtain ⟨id, hid, rfl⟩ := Option.map_eq_some_iff.1 h
    exact .inl ⟨differs, p, q, hs, rfl, rfl, shared hid⟩

theorem faultAfter?_eq_none_iff (earlier ps : List Partition) : faultAfter? earlier ps = none ↔
    (∀ p ∈ ps, p.Checked ∧ ∀ q ∈ earlier, q.Apart p) ∧ ps.Pairwise Apart := by
  induction ps generalizing earlier with
  | nil => exact ⟨fun _ => ⟨fun _ h => (by cases h), .nil⟩, fun _ => rfl⟩
  | cons p rest ih =>
    unfold faultAfter?
    rw [Option.or_eq_none_iff, Option.or_eq_none_iff, fault?_eq_none_iff, List.findSome?_eq_none_iff, ih,
      List.forall_mem_cons, List.pairwise_cons]
    simp only [conflict?_eq_none_iff, List.mem_append, List.mem_singleton]
    constructor
    · rintro ⟨checked, apart, all, pairwise⟩
      exact ⟨⟨⟨checked, apart⟩, fun r hr => ⟨(all r hr).1, fun q hq => (all r hr).2 q (.inl hq)⟩⟩,
        fun r hr => (all r hr).2 p (.inr rfl), pairwise⟩
    · rintro ⟨⟨⟨checked, apart⟩, all⟩, first, pairwise⟩
      refine ⟨checked, apart, fun r hr => ⟨(all r hr).1, fun q hq => ?_⟩, pairwise⟩
      rcases hq with hq | rfl
      · exact (all r hr).2 q hq
      · exact first r hr

theorem occurs_of_faultAfter? {earlier ps : List Partition} (h : faultAfter? earlier ps = some e) :
    e.Occurs (earlier ++ ps) := by
  induction ps generalizing earlier with
  | nil => cases h
  | cons p rest ih =>
    unfold faultAfter? at h
    rcases Option.or_eq_some_iff.1 h with h | ⟨-, h⟩
    · exact occurs_of_fault? h (List.mem_append_right _ List.mem_cons_self)
    rcases Option.or_eq_some_iff.1 h with h | ⟨-, h⟩
    · obtain ⟨q, hq, h⟩ := List.exists_of_findSome?_eq_some h
      exact occurs_of_conflict? h ((List.singleton_sublist.2 hq).append (List.singleton_sublist.2 List.mem_cons_self))
    · have := ih h
      rwa [List.append_assoc] at this

end Partition

/-- **No fault is found exactly where there is none**: all tables are checked and any two of them are apart.  A fault that is
found is there. -/
theorem faultAmong?_spec (ps : List Partition) :
    (faultAmong? ps = none ↔ (∀ p ∈ ps, p.Checked) ∧ ps.Pairwise Partition.Apart) ∧
      ∀ e, faultAmong? ps = some e → e.Occurs ps := by
  refine ⟨(Partition.faultAfter?_eq_none_iff [] ps).trans (and_congr_left fun _ => ?_), fun e h => ?_⟩
  · exact forall₂_congr fun p _ => and_iff_left fun _ h => (by cases h)
  · exact Partition.occurs_of_faultAfter? h

/-- Two tables pass line 40 through. -/
theorem faultAmong?_spec_shared :
    faultAmong? [.standard .v3 0 64 [0, 1] [40], .standard .v3 2 64 [2] [40]] = some (.passthroughConflict 40 0 2) ∧
    SharedAmong Partition.passthrough [.standard .v3 0 64 [0, 1] [40], .standard .v3 2 64 [2] [40]] 40 0 2 := by
  have found : faultAmong? [.standard .v3 0 64 [0, 1] [40], .standard .v3 2 64 [2] [40]] =
      some (.passthroughConflict 40 0 2) := by decide
  exact ⟨found, (faultAmong?_spec _).2 _ found⟩

end VirtualGic
