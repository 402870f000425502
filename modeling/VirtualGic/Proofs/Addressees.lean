import VirtualGic.Core.SystemRegisters
/-!
# Addressees

A request to send a software interrupt is a word.  It says all others, or it lists sixteen vCPUs of a selected range by
affinity; `SystemRegister.Names` says which vCPUs those are, and the set that the request is turned into has these and no
others of the vCPUs there are (`SystemRegister.targets_named`).
-/
namespace VirtualGic
namespace SystemRegister

/-- The selected range.  A range is sixteen vCPUs. -/
def range (v : BitVec 64) : Nat := (v.extractLsb' 44 4).toNat

/-- The affinity of a request is `0.0.0` above the lowest level, where all vCPUs are. -/
structure InCluster (v : BitVec 64) : Prop where
  level1 : v.extractLsb' 16 8 = 0
  level2 : v.extractLsb' 32 8 = 0
  level3 : v.extractLsb' 48 8 = 0

/-- The vCPUs that a request of vCPU `me` names, those that do not exist included. -/
inductive Names (v : BitVec 64) (me n : Nat) : Prop
  | others (all : v.getLsbD 40 = true) (other : n ≠ me)
  | listed (list : v.getLsbD 40 = false) (cluster : InCluster v) (inRange : range v = n / 16) (bit : v.getLsbD (n % 16) = true)

variable {v : BitVec 64} {me n : Nat} {vcpus : CpuSet}

theorem names_of_all (all : v.getLsbD 40 = true) : Names v me n ↔ n ≠ me := by
  constructor
  · intro h
    cases h with
    | others _ other => exact other
    | listed list => exact absurd list (ne_false_of_eq_true all)
  · exact .others all

theorem names_of_list (list : v.getLsbD 40 = false) :
    Names v me n ↔ InCluster v ∧ range v = n / 16 ∧ v.getLsbD (n % 16) = true := by
  constructor
  · intro h
    cases h with
    | others all => exact absurd all (ne_true_of_eq_false list)
    | listed _ cluster inRange bit => exact ⟨cluster, inRange, bit⟩
  · rintro ⟨cluster, inRange, bit⟩
    exact .listed list cluster inRange bit

theorem inCluster_iff :
    (v.extractLsb' 16 8 != 0 || v.extractLsb' 32 8 != 0 || v.extractLsb' 48 8 != 0) = false ↔ InCluster v := by
  simp only [Bool.or_eq_false_iff, bne_eq_false_iff_eq]
  exact ⟨fun ⟨⟨h1, h2⟩, h3⟩ => ⟨h1, h2, h3⟩, fun ⟨h1, h2, h3⟩ => ⟨⟨h1, h2⟩, h3⟩⟩

/-- A list moved up by whole ranges.  The topmost range ends with the word. -/
theorem getLsbD_moved {r : Nat} (hr : r ≤ 3) :
    (lowBits 16 v <<< (r * 16)).getLsbD n = (decide (r = n / 16) && v.getLsbD (n % 16)) := by
  rw [BitVec.getLsbD_shiftLeft, getLsbD_lowBits]
  by_cases h : r = n / 16
  · subst h
    have inWord : n < 64 := by omega
    have above : ¬ n < n / 16 * 16 := by omega
    have offset : n - n / 16 * 16 = n % 16 := by omega
    have small : n % 16 < 16 := Nat.mod_lt n (by decide)
    simp only [inWord, above, offset, small, decide_true, decide_false, Bool.not_false, Bool.true_and]
  · have outside : n < r * 16 ∨ 16 ≤ n - r * 16 := by omega
    rcases outside with below | beyond
    · simp only [below, h, decide_true, decide_false, Bool.not_true, Bool.and_false, Bool.false_and]
    · simp only [Nat.not_lt.2 beyond, h, decide_false, Bool.false_and, Bool.and_false]

/-- The vCPUs of a set are below 64, so a range that is not one of the first four has none of them. -/
theorem range_le_of_member (h : vcpus.getLsbD n = true) (inRange : range v = n / 16) : range v ≤ 3 := by
  have := BitVec.lt_of_getLsbD h
  omega

theorem getLsbD_softwareTargets (v : BitVec 64) (me n : Nat) (vcpus : CpuSet) :
    (softwareTargets v me vcpus).getLsbD n = true ↔ vcpus.getLsbD n = true ∧ Names v me n := by
  unfold softwareTargets
  split
  next all =>
    rw [names_of_all all, CpuSet.getLsbD_erase, Bool.and_eq_true, Bool.not_eq_true', beq_eq_false_iff_ne, ne_comm]
  next list =>
    rw [names_of_list (Bool.not_eq_true _ ▸ list)]
    split
    next elsewhere =>
      have outside : ¬ InCluster v := fun h => absurd (inCluster_iff.2 h) (ne_false_of_eq_true elsewhere)
      simp [outside]
    next here =>
      have cluster : InCluster v := inCluster_iff.1 (Bool.not_eq_true _ ▸ here)
      change ((if range v ≤ 3 then lowBits 16 v <<< (range v * 16) &&& vcpus else 0).getLsbD n = true ↔ _)
      split
      next near =>
        rw [BitVec.getLsbD_and, getLsbD_moved near, Bool.and_eq_true, Bool.and_eq_true, decide_eq_true_eq, and_comm,
          and_iff_right cluster]
      next far =>
        have nobody : vcpus.getLsbD n = true → range v ≠ n / 16 := fun h inRange => far (range_le_of_member h inRange)
        simpa [cluster] using fun h inRange => absurd inRange (nobody h)

/-- **A request reaches the vCPUs that it names, each of them and no other.**  A range beyond the fourth names nobody, and a list
arrives in its range as it was written: no bit of it is lost at the top of the word, and none comes round into another range. -/
theorem targets_named (v : BitVec 64) (me : Nat) (vcpus : CpuSet) :
    (∀ n, (softwareTargets v me vcpus).getLsbD n = true ↔ vcpus.getLsbD n = true ∧ Names v me n) ∧
      (v.getLsbD 40 = false → 3 < range v → softwareTargets v me vcpus = 0) ∧
      (v.getLsbD 40 = false → InCluster v → range v ≤ 3 → ∀ i, i < 16 →
        (softwareTargets v me vcpus).getLsbD (range v * 16 + i) = (vcpus.getLsbD (range v * 16 + i) && v.getLsbD i)) := by
  refine ⟨fun n => getLsbD_softwareTargets v me n vcpus, fun list far => ?_, fun list cluster near i hi => ?_⟩
  · refine BitVec.eq_of_getLsbD_eq fun n _ => ?_
    refine (Bool.eq_false_iff.2 fun named => ?_).trans BitVec.getLsbD_zero.symm
    obtain ⟨member, named⟩ := (getLsbD_softwareTargets v me n vcpus).1 named
    obtain ⟨-, inRange, -⟩ := (names_of_list list).1 named
    exact absurd (range_le_of_member member inRange) (Nat.not_le.2 far)
  · have inRange : range v = (range v * 16 + i) / 16 := by omega
    have offset : (range v * 16 + i) % 16 = i := by omega
    rw [Bool.eq_iff_iff, getLsbD_softwareTargets, names_of_list list, offset, Bool.and_eq_true]
    exact and_congr_right fun _ => ⟨fun h => h.2.2, fun bit => ⟨cluster, inRange, bit⟩⟩

/-- The list of the second range is for vCPUs 16 to 31, and the list of the sixth for nobody. -/
theorem targets_named_ranges :
    (softwareTargets 0x100000008001 0 (CpuSet.below 20)).getLsbD 16 = true ∧
      softwareTargets 0x500000008001 0 (CpuSet.below 20) = 0 ∧
      (softwareTargets 0x100000008001 0 (CpuSet.below 20)).getLsbD (1 * 16 + 15) = false := by
  have cluster : InCluster 0x100000008001 := ⟨by decide, by decide, by decide⟩
  refine ⟨((targets_named _ 0 _).1 16).2 ⟨by decide, .listed (by decide) cluster (by decide) (by decide)⟩,
    (targets_named 0x500000008001 0 _).2.1 (by decide) (by decide), ?_⟩
  exact ((targets_named 0x100000008001 0 _).2.2 (by decide) cluster (by decide) 15 (by decide)).trans (by decide)

end SystemRegister
end VirtualGic
