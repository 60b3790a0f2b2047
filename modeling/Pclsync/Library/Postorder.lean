import Mathlib.Algebra.BigOperators.Intervals
import Mathlib.Algebra.BigOperators.Ring.Finset
import Mathlib.Algebra.Order.BigOperators.Group.Finset
import Mathlib.Data.Nat.Log
import Mathlib.Tactic.Ring
import Mathlib.Tactic.Linarith

/-! Post-order numbering of a growing `K`-ary tree: each leaf is followed by
the parents it completes. `slot` is the position of a leaf, and the parents
of level `level` completed by a leaf are those whose group ends with it. -/

namespace Pclsync.Library.Postorder
open Finset

/-- Position of leaf `leaf`: the leaves before it and the parents those
leaves complete, on every level. -/
def slot (K leaf : ℕ) : ℕ := ∑ level ∈ range (leaf + 1), leaf / K ^ level

/-- Nodes of a complete tree with `level` levels of parents. -/
def nodes (K level : ℕ) : ℕ := ∑ j ∈ range (level + 1), K ^ j

variable {K : ℕ}

theorem slot_zero : slot K 0 = 0 := by simp [slot]

/-- Levels above the root of a leaf's own path contribute nothing. -/
theorem sum_div_pow (base : 1 < K) {leaf count : ℕ} (enough : leaf < K ^ count) :
    ∑ level ∈ range count, leaf / K ^ level = slot K leaf := by
  have vanish : ∀ level, leaf < K ^ level → leaf / K ^ level = 0 := fun _ => Nat.div_eq_of_lt
  have extend : ∀ {few many : ℕ}, few ≤ many → leaf < K ^ few →
      ∑ level ∈ range few, leaf / K ^ level = ∑ level ∈ range many, leaf / K ^ level := by
    intro few many le small
    refine sum_subset (range_subset_range.mpr le) ?_
    intro level _ outside
    refine vanish level (small.trans_le (Nat.pow_le_pow_right (by omega) ?_))
    simpa using outside
  rcases le_total count (leaf + 1) with short | long
  · exact extend short enough
  · refine (extend long ?_).symm
    exact (Nat.lt_pow_self base).trans (Nat.pow_lt_pow_right base (Nat.lt_succ_self leaf))

theorem slot_eq (base : 1 < K) (leaf : ℕ) : slot K leaf = leaf + slot K (leaf / K) := by
  have small : leaf / K < K ^ leaf := (Nat.div_le_self leaf K).trans_lt (Nat.lt_pow_self base)
  rw [slot, sum_range_succ', pow_zero, Nat.div_one, Nat.add_comm, ← sum_div_pow base small]
  simp only [Nat.pow_succ', Nat.div_div_eq_div_mul]

/-- Only a leaf that fills its group completes parents; `completed` of them,
one on each of the lowest levels. -/
theorem slot_succ (base : 1 < K) (leaf : ℕ) :
    ∃ completed, slot K (leaf + 1) = slot K leaf + 1 + completed ∧
      ∀ level, level < completed ↔ K ^ (level + 1) ∣ leaf + 1 := by
  induction leaf using Nat.strongRecOn with
  | ind leaf ih =>
    by_cases full : K ∣ leaf + 1
    · obtain ⟨groups, split⟩ := full
      have positive : 0 < groups := Nat.pos_of_ne_zero (by rintro rfl; simp at split)
      obtain ⟨group, rfl⟩ : ∃ group, groups = group + 1 := ⟨groups - 1, by omega⟩
      have above : (leaf + 1) / K = group + 1 := by rw [split, Nat.mul_div_cancel_left _ (by omega)]
      have below : leaf / K = group := by
        refine Nat.div_eq_of_lt_le ?_ ?_
        · rw [Nat.mul_comm]; rw [Nat.mul_succ] at split; omega
        · rw [Nat.mul_comm]; omega
      have smaller : group < leaf := by
        have : 2 * (group + 1) ≤ K * (group + 1) := Nat.mul_le_mul_right _ base
        omega
      obtain ⟨completed, next, levels⟩ := ih group smaller
      refine ⟨completed + 1, ?_, ?_⟩
      · rw [slot_eq base (leaf + 1), slot_eq base leaf, above, below, next]
        ring
      · intro level
        cases level with
        | zero => simp [split]
        | succ level =>
          rw [Nat.succ_lt_succ_iff, levels level, split, Nat.pow_succ' (n := level + 1)]
          exact (Nat.mul_dvd_mul_iff_left (by omega)).symm
    · have same : (leaf + 1) / K = leaf / K := by
        rw [Nat.succ_div, if_neg full, Nat.add_zero]
      refine ⟨0, ?_, ?_⟩
      · rw [slot_eq base (leaf + 1), slot_eq base leaf, same]
        ring
      · intro level
        refine ⟨fun impossible => absurd impossible (Nat.not_lt_zero level), fun divides => ?_⟩
        exact absurd ((Dvd.intro_left _ (Nat.pow_succ (n := K) (m := level)).symm).trans divides) full

theorem slot_strictMono (base : 1 < K) : StrictMono (slot K) := by
  refine strictMono_nat_of_lt_succ fun leaf => ?_
  obtain ⟨completed, next, _⟩ := slot_succ base leaf
  omega

/-- No leaf stands where the parents stand that another leaf completes. -/
theorem slot_ne_parent (base : 1 < K) {level group : ℕ} (leaf : ℕ) :
    slot K leaf ≠ slot K ((group + 1) * K ^ (level + 1) - 1) + level + 1 := by
  have leaves : 0 < (group + 1) * K ^ (level + 1) := Nat.mul_pos (by omega) (Nat.pow_pos (by omega))
  obtain ⟨completed, next, levels⟩ := slot_succ base ((group + 1) * K ^ (level + 1) - 1)
  rw [Nat.sub_add_cancel leaves] at next levels
  have inside : level < completed := (levels level).mpr (Nat.dvd_mul_left _ _)
  intro same
  rcases Nat.lt_or_ge leaf ((group + 1) * K ^ (level + 1)) with before | behind
  · have early := (slot_strictMono base).monotone (Nat.le_sub_one_of_lt before)
    omega
  · have late := (slot_strictMono base).monotone behind
    omega

theorem nodes_zero : nodes K 0 = 1 := by simp [nodes]

theorem nodes_succ (level : ℕ) : nodes K (level + 1) = K * nodes K level + 1 := by
  rw [nodes, sum_range_succ', nodes, mul_sum, pow_zero]
  simp only [Nat.pow_succ']

theorem nodes_add (level : ℕ) : nodes K (level + 1) = K ^ (level + 1) + nodes K level := by
  rw [nodes, sum_range_succ, nodes, Nat.add_comm]

/-- Where a complete group of the given level ends: after its last leaf and
the parents on the levels up to it, and before anything higher. -/
theorem slot_group_end (base : 1 < K) (level group : ℕ) :
    slot K ((group + 1) * K ^ level - 1) + level + 1 =
      nodes K level * (group + 1) + slot K (group / K) := by
  induction level with
  | zero =>
    have shift := slot_eq base group
    simp only [nodes_zero, pow_zero, Nat.mul_one, Nat.add_sub_cancel]
    omega
  | succ level ih =>
    have leaves : 0 < (group + 1) * K ^ level := Nat.mul_pos (by omega) (Nat.pow_pos (by omega))
    have parent : ((group + 1) * K ^ (level + 1) - 1) / K = (group + 1) * K ^ level - 1 := by
      refine Nat.div_eq_of_lt_le ?_ ?_
      · rw [Nat.pow_succ, ← Nat.mul_assoc, Nat.sub_mul]; omega
      · rw [Nat.sub_add_cancel leaves, Nat.pow_succ, ← Nat.mul_assoc]
        have : 0 < (group + 1) * K ^ level * K := Nat.mul_pos leaves (by omega)
        omega
    have unfold := slot_eq base ((group + 1) * K ^ (level + 1) - 1)
    rw [parent] at unfold
    have total : 0 < (group + 1) * K ^ (level + 1) := Nat.mul_pos (by omega) (Nat.pow_pos (by omega))
    have grown : nodes K (level + 1) * (group + 1) =
        (group + 1) * K ^ (level + 1) + nodes K level * (group + 1) := by
      rw [nodes_add]; ring
    omega

end Pclsync.Library.Postorder
