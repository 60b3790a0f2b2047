import Mathlib

/-! Half-open ranges of natural numbers that tile an interval: nothing is left
out, nothing is covered twice. Tilings are built piece by piece, from left to
right, so a layout is verified in the order in which it is laid out. -/

namespace Pclsync.Library
open Set

/-- The spans of `pieces` are disjoint and together are exactly `[lo, hi)`. -/
structure Tiles {ι : Type*} (span : ι → Set ℕ) (pieces : Set ι) (lo hi : ℕ) : Prop where
  ordered : lo ≤ hi
  inside : ∀ piece ∈ pieces, span piece ⊆ Ico lo hi
  covers : Ico lo hi ⊆ ⋃ piece ∈ pieces, span piece
  disjoint : pieces.PairwiseDisjoint span

namespace Tiles
variable {ι : Type*} {span : ι → Set ℕ} {pieces rest : Set ι} {lo mid hi : ℕ}

theorem union_eq (tiles : Tiles span pieces lo hi) : ⋃ piece ∈ pieces, span piece = Ico lo hi :=
  Subset.antisymm (iUnion₂_subset tiles.inside) tiles.covers

theorem empty (span : ι → Set ℕ) (lo : ℕ) : Tiles span ∅ lo lo :=
  ⟨le_rfl, by simp, by simp, by simp⟩

theorem single {piece : ι} (ordered : lo ≤ hi) (exact : span piece = Ico lo hi) :
    Tiles span {piece} lo hi :=
  ⟨ordered, by simp [exact], by simp [exact], pairwiseDisjoint_singleton piece span⟩

theorem append (first : Tiles span pieces lo mid) (last : Tiles span rest mid hi) :
    Tiles span (pieces ∪ rest) lo hi := by
  have before : Ico lo mid ⊆ Ico lo hi := Ico_subset_Ico_right last.ordered
  have after : Ico mid hi ⊆ Ico lo hi := Ico_subset_Ico_left first.ordered
  refine ⟨first.ordered.trans last.ordered, ?_, ?_, ?_⟩
  · rintro piece (member | member)
    · exact (first.inside piece member).trans before
    · exact (last.inside piece member).trans after
  · rw [← Ico_union_Ico_eq_Ico first.ordered last.ordered, biUnion_union]
    exact union_subset_union first.covers last.covers
  · rw [pairwiseDisjoint_union]
    refine ⟨first.disjoint, last.disjoint, ?_⟩
    intro piece member other present _
    refine disjoint_of_subset (first.inside piece member) (last.inside other present) ?_
    exact Ico_disjoint_Ico_same

/-- Consecutive groups of pieces, each tiling up to the bound where the next
one starts, tile the whole run. -/
theorem sequence (groups : ℕ → Set ι) (bound : ℕ → ℕ) (count : ℕ)
    (each : ∀ n < count, Tiles span (groups n) (bound n) (bound (n + 1))) :
    Tiles span (⋃ n < count, groups n) (bound 0) (bound count) := by
  induction count with
  | zero => simpa using empty span (bound 0)
  | succ count ih =>
    have earlier := ih (fun n inside => each n (Nat.lt_succ_of_lt inside))
    rw [biUnion_lt_succ]
    exact earlier.append (each count (Nat.lt_succ_self count))

end Tiles
end Pclsync.Library
