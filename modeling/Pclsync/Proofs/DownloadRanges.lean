import Pclsync.Net.DownloadRanges

/-! The ranges of a download lie one behind the other. Blocks before the last are
whole, so a range begins where its first block does; only a file of a single block
is planned with the length of the block in place of its own. -/

namespace Pclsync.Proofs.DownloadRanges
open Pclsync.Net.DownloadRanges Pclsync.Net.BlockTable Pclsync.Net.BlockHeader

variable {α : Type} {files : List α} {checksums : FileChecksums} {blockactions : ℕ → BlockAction}
variable {range : Range α} {ranges : List (Range α)} {pos stop other i left : ℕ}

/-- Ranges one behind the other, each right at its place. -/
def Tiled (right : ℕ → Range α → Prop) : ℕ → List (Range α) → ℕ → Prop
  | pos, [], stop => pos = stop
  | pos, range :: ranges, stop => right pos range ∧ Tiled right (pos + range.len) ranges stop

/-- The block is copied from the file of the range, from where the range has it. -/
structure Recorded (files : List α) (checksums : FileChecksums) (blockactions : ℕ → BlockAction) (pos : ℕ)
    (range : Range α) (i : ℕ) : Prop where
  copied : (blockactions i).type = .copy
  file : files[(blockactions i).idx]? = range.filename
  off : (blockactions i).off = range.off + (i * checksums.blocksize - pos)

/-- A range at a position of the target: what is transferred comes from there, and
the blocks of what is copied are those recorded for the source. -/
structure RightAt (files : List α) (checksums : FileChecksums) (blockactions : ℕ → BlockAction) (pos : ℕ)
    (range : Range α) : Prop where
  transfer : range.type = .transfer → range.off = pos
  copy : range.type = .copy → ∀ i, pos ≤ i * checksums.blocksize → i * checksums.blocksize < pos + range.len →
    Recorded files checksums blockactions pos range i

section Tiles
variable {right : ℕ → Range α → Prop}

theorem Tiled.unique (first : Tiled right pos ranges stop) (second : Tiled right pos ranges other) : stop = other := by
  induction ranges generalizing pos with
  | nil => exact first.symm.trans second
  | cons range ranges ih => exact ih first.2 second.2

theorem Tiled.iff (tiled : Tiled right pos ranges stop) : Tiled right pos ranges other ↔ stop = other :=
  ⟨fun also => tiled.unique also, fun same => same ▸ tiled⟩

theorem Tiled.congr {also : ℕ → Range α → Prop} (same : ∀ pos range, right pos range ↔ also pos range) :
    Tiled right pos ranges stop ↔ Tiled also pos ranges stop := by
  rw [funext fun pos => funext fun range => propext (same pos range)]

end Tiles

section Loop

/-- The range while it is extended up to a block. -/
structure Extending (files : List α) (checksums : FileChecksums) (blockactions : ℕ → BlockAction) (pos i : ℕ)
    (range : Range α) : Prop where
  ends : pos + range.len ≤ i * checksums.blocksize
  transfer : range.type = .transfer → range.off = pos
  copy : range.type = .copy → ∀ j < i, pos ≤ j * checksums.blocksize → Recorded files checksums blockactions pos range j

theorem Extending.right (extending : Extending files checksums blockactions pos i range) :
    RightAt files checksums blockactions pos range := by
  refine ⟨extending.transfer, fun copied j behind before => extending.copy copied j ?_ behind⟩
  exact lt_of_mul_lt_mul_right (before.trans_le extending.ends) (Nat.zero_le _)

theorem newRange_extending (positive : 0 < checksums.blocksize) {len : ℕ} (short : len ≤ checksums.blocksize) :
    Extending files checksums blockactions (i * checksums.blocksize) (i + 1)
      (newRange files checksums blockactions i len) := by
  have only : ∀ j < i + 1, i * checksums.blocksize ≤ j * checksums.blocksize → j = i := fun j before behind =>
    Nat.le_antisymm (Nat.le_of_lt_succ before) (Nat.le_of_mul_le_mul_right behind positive)
  by_cases copied : (blockactions i).type = .copy
  · rw [newRange, if_pos copied]
    constructor
    · rw [Nat.succ_mul]
      exact Nat.add_le_add_left short _
    · intro transferred
      cases transferred
    · intro _ j before behind
      rw [only j before behind]
      exact ⟨copied, rfl, by rw [Nat.sub_self, Nat.add_zero]⟩
  · rw [newRange, if_neg copied]
    constructor
    · rw [Nat.succ_mul]
      exact Nat.add_le_add_left short _
    · exact fun _ => rfl
    · exact fun also => absurd also copied

variable [DecidableEq α]

theorem Extending.more (extending : Extending files checksums blockactions pos i range)
    (whole : pos + range.len = i * checksums.blocksize) (continues : ¬ breaks files range (blockactions i)) {len : ℕ}
    (short : len ≤ checksums.blocksize) :
    Extending files checksums blockactions pos (i + 1) { range with len := range.len + len } := by
  have same_type : (blockactions i).type = range.type := by
    by_contra different
    exact continues (.inl different)
  refine ⟨?_, extending.transfer, fun copied j before behind => ?_⟩
  · rw [Nat.succ_mul]
    dsimp only
    omega
  · rcases Nat.lt_or_eq_of_le (Nat.le_of_lt_succ before) with earlier | rfl
    · obtain ⟨type, file, off⟩ := extending.copy copied j earlier behind
      exact ⟨type, file, off⟩
    · have same_file : range.filename = files[(blockactions j).idx]? := by
        by_contra different
        exact continues (.inr ⟨copied, .inl different⟩)
      have same_off : range.off + range.len = (blockactions j).off := by
        by_contra different
        exact continues (.inr ⟨copied, .inr different⟩)
      refine ⟨same_type.trans copied, same_file.symm, ?_⟩
      dsimp only
      omega

theorem blockLen_inner (inner : i + 1 < checksums.blockcnt) : blockLen checksums i = checksums.blocksize :=
  if_neg (by omega)

theorem blockLen_le (positive : 0 < checksums.blocksize) : blockLen checksums i ≤ checksums.blocksize := by
  have rest := Nat.mod_lt checksums.filesize positive
  unfold blockLen
  split
  · split
    · exact le_rfl
    · exact rest.le
  · exact le_rfl

/-- The length of so many blocks from a block on. -/
def lengths (checksums : FileChecksums) (left i : ℕ) : ℕ := ((List.range left).map fun k => blockLen checksums (i + k)).sum

theorem lengths_succ : lengths checksums (left + 1) i = blockLen checksums i + lengths checksums left (i + 1) := by
  rw [lengths, lengths, List.range_succ_eq_map, List.map_cons, List.sum_cons, List.map_map, Nat.add_zero]
  congr 2
  apply List.map_congr_left
  intro k _
  simp only [Function.comp, Nat.succ_eq_add_one, Nat.add_assoc, Nat.add_comm k]

/-- The loop gives ranges that lie one behind the other and hold all blocks. -/
theorem extend_tiled (positive : 0 < checksums.blocksize) (blocks : i + left = checksums.blockcnt)
    (extending : Extending files checksums blockactions pos i range)
    (whole : left ≠ 0 → pos + range.len = i * checksums.blocksize) :
    Tiled (RightAt files checksums blockactions) pos (extend files checksums blockactions left i range)
      (pos + range.len + lengths checksums left i) := by
  induction left generalizing i pos range with
  | zero => exact ⟨extending.right, rfl⟩
  | succ left ih =>
    have start := whole (Nat.succ_ne_zero left)
    have short := @blockLen_le checksums i positive
    have full : left ≠ 0 → blockLen checksums i = checksums.blocksize := fun more => blockLen_inner (by omega)
    rw [extend, lengths_succ]
    by_cases broken : breaks files range (blockactions i)
    · rw [if_pos broken]
      refine ⟨extending.right, ?_⟩
      have len : (newRange files checksums blockactions i (blockLen checksums i)).len = blockLen checksums i := by
        unfold newRange
        split <;> rfl
      have rest := ih (by omega) (@newRange_extending α files checksums blockactions i positive _ short) (by
        intro more
        rw [len, full more, Nat.succ_mul])
      rw [len, ← start, Nat.add_assoc] at rest
      exact rest
    · rw [if_neg broken]
      have rest := ih (by omega) (extending.more start broken short) (by
        intro more
        dsimp only
        rw [full more, ← Nat.add_assoc, start, Nat.succ_mul])
      dsimp only at rest
      rw [← Nat.add_assoc pos] at rest
      rw [← Nat.add_assoc]
      exact rest

theorem lengths_eq (more : 2 ≤ checksums.blockcnt) :
    lengths checksums (checksums.blockcnt - 1) 1 =
      (checksums.blockcnt - 2) * checksums.blocksize + blockLen checksums (checksums.blockcnt - 1) := by
  obtain ⟨inner, count⟩ : ∃ inner, checksums.blockcnt = inner + 2 := ⟨checksums.blockcnt - 2, by omega⟩
  have whole : ∀ k ∈ List.range inner, blockLen checksums (1 + k) = checksums.blocksize := fun k member =>
    blockLen_inner (by have := List.mem_range.mp member; omega)
  rw [count, lengths, Nat.add_sub_cancel, show inner + 2 - 1 = inner + 1 by omega, List.range_succ, List.map_append,
    List.sum_append, List.map_congr_left whole, List.map_const', List.sum_replicate, List.length_range]
  simp only [smul_eq_mul, List.map_cons, List.map_nil, List.sum_cons, List.sum_nil, Nat.add_zero, Nat.add_comm 1]

/-- All blocks together are as long as the file exactly when they are counted rightly. -/
theorem total_iff (more : 2 ≤ checksums.blockcnt) (positive : 0 < checksums.blocksize) :
    checksums.blocksize + lengths checksums (checksums.blockcnt - 1) 1 = checksums.filesize ↔
      checksums.blockcnt = checksums.filesize ⌈/⌉ checksums.blocksize := by
  obtain ⟨inner, count⟩ : ∃ inner, checksums.blockcnt = inner + 2 := ⟨checksums.blockcnt - 2, by omega⟩
  rw [lengths_eq more, blockLen, if_pos rfl, count, Nat.add_sub_cancel, Nat.ceilDiv_eq_add_pred_div]
  have division := Nat.div_add_mod' checksums.filesize checksums.blocksize
  have rest := Nat.mod_lt checksums.filesize positive
  by_cases even : checksums.filesize % checksums.blocksize = 0
  · have rounded : (checksums.filesize + checksums.blocksize - 1) / checksums.blocksize =
        checksums.filesize / checksums.blocksize := by
      apply Nat.div_eq_of_lt_le
      · omega
      · rw [Nat.succ_mul]
        omega
    rw [if_pos even, rounded]
    constructor
    · intro total
      apply Nat.eq_of_mul_eq_mul_right positive
      rw [Nat.add_mul]
      omega
    · intro same
      rw [← same, Nat.add_mul] at division
      omega
  · have rounded : (checksums.filesize + checksums.blocksize - 1) / checksums.blocksize =
        checksums.filesize / checksums.blocksize + 1 := by
      apply Nat.div_eq_of_lt_le
      · rw [Nat.succ_mul]
        omega
      · rw [Nat.succ_mul, Nat.succ_mul]
        omega
    rw [if_neg even, rounded]
    constructor
    · intro total
      have same : (inner + 1) * checksums.blocksize = checksums.filesize / checksums.blocksize * checksums.blocksize := by
        rw [Nat.succ_mul]
        omega
      have quotient := Nat.eq_of_mul_eq_mul_right positive same
      omega
    · intro same
      have quotient : inner + 1 = checksums.filesize / checksums.blocksize := by omega
      rw [← quotient, Nat.succ_mul] at division
      omega

end Loop

section Plan
variable {result : Result} {scan : FileChecksums → ℕ → BlockAction} {filesize : ℕ}

/-- The ranges tile the file, transfers come from their position, and copies are of
the blocks recorded for their source. -/
def Right (files : List α) (result : Result) (scan : FileChecksums → ℕ → BlockAction) (filesize : ℕ)
    (ranges : List (Range α)) : Prop :=
  Tiled (fun pos range => (range.type = .transfer → range.off = pos) ∧
    (range.type = .copy → ∃ checksums, result = .ok (some checksums) ∧
      RightAt files checksums (scan checksums) pos range)) 0 ranges filesize

theorem right_full : Right files result scan filesize [⟨.transfer, 0, filesize, none⟩] :=
  ⟨⟨fun _ => rfl, fun copied => by cases copied⟩, Nat.zero_add filesize⟩

variable [DecidableEq α]

/-- The plan for an object ends at the lengths of its blocks taken together. -/
theorem plan_tiled {ranges : List (Range α)} (planned : plan files checksums blockactions = .ok ranges) :
    Tiled (RightAt files checksums blockactions) 0 ranges
      (checksums.blocksize + lengths checksums (checksums.blockcnt - 1) 1) := by
  rw [plan] at planned
  split at planned
  · cases planned
  · rename_i some_block
    split at planned
    · cases planned
    · rename_i divides
      cases planned
      have len : (newRange files checksums blockactions 0 checksums.blocksize).len = checksums.blocksize := by
        unfold newRange
        split <;> rfl
      rcases Nat.eq_zero_or_pos checksums.blocksize with zero | positive
      · -- Without a block size there is only the first range, and it is empty.
        have single : checksums.blockcnt - 1 = 0 := by omega
        have empty : lengths checksums 0 1 = 0 := rfl
        rw [single, extend, zero, empty]
        rw [zero] at len
        refine ⟨⟨fun transferred => ?_, fun _ j _ before => ?_⟩, by rw [len]; rfl⟩
        · rw [newRange] at transferred ⊢
          split at transferred
          · cases transferred
          · rename_i other
            rw [if_neg other, Nat.zero_mul]
        · rw [len] at before
          exact absurd before (Nat.not_lt_zero _)
      · have count : 1 + (checksums.blockcnt - 1) = checksums.blockcnt := by omega
        have first := @newRange_extending α files checksums blockactions 0 positive checksums.blocksize le_rfl
        rw [Nat.zero_mul] at first
        have all := extend_tiled positive count first (fun _ => by rw [len, Nat.zero_add, Nat.one_mul])
        rwa [len, Nat.zero_add] at all

end Plan
end Pclsync.Proofs.DownloadRanges
