import Pclsync.Proofs.CryptoOffsets
import Pclsync.Library.Tiling

/-! The sectors of an encrypted file tile it. Data sectors are laid out block by
block: a data sector, then the authenticator sectors it completes. Only the
last block differs: it holds the last authenticator sector of every level. -/

namespace Pclsync.Proofs.CryptoLayout
open Pclsync.Crypto Library CryptoOffsets Set

inductive Piece where
  | data (sectorid : ℕ)
  | auth (level id : ℕ)
  | master
deriving DecidableEq

/-- The sectors that a file of `size` bytes consists of. -/
def Present (size : ℕ) : Piece → Prop
  | .data sectorid => sectorid ≤ lastSector size
  | .auth level id => level < (offsetBySize size).treelevels ∧ id ≤ lastSector size / hashTreeSectors ^ (level + 1)
  | .master => (offsetBySize size).needmasterauth = true

def pieces (size : ℕ) : Set Piece := {piece | Present size piece}

/-- `length` bytes from `offset` on. -/
def bytes (offset length : ℕ) : Set ℕ := Ico offset (offset + length)

/-- The bytes of a sector. An authenticator sector is placed by
`pfscrypto_get_auth_off` for the first data sector it covers. -/
def span (size : ℕ) : Piece → Set ℕ
  | .data sectorid => bytes (dataOffsetBySectorid sectorid) (min sectorSize (size - sectorid * sectorSize))
  | .auth level id =>
    let place := getAuthOff (id * hashTreeSectors ^ (level + 1)) level (offsetBySize size)
    bytes place.offset place.size
  | .master => bytes (offsetBySize size).masterauthoff authSize

theorem getAuthOffLoop_eq (level sizesecd secd aid : ℕ) :
    (getAuthOffLoop level sizesecd secd aid).1 = sizesecd / 128 ^ level ∧
    (getAuthOffLoop level sizesecd secd aid).2.1 = secd / 128 ^ level := by
  induction level generalizing sizesecd secd aid with
  | zero => simp [getAuthOffLoop]
  | succ level ih =>
    rw [getAuthOffLoop, (ih _ _ _).1, (ih _ _ _).2, Nat.pow_succ', Nat.div_div_eq_div_mul, Nat.div_div_eq_div_mul]
    exact ⟨rfl, rfl⟩

/-- The authenticator of a sector stands in its group's sector of the level:
the last one of the level behind the data, any other in its block. -/
theorem getAuthOff_place {size : ℕ} (positive : 0 < size) (admitted : Admitted size) (sectorid : ℕ)
    {level : ℕ} (inside : level < levels (lastSector size)) :
    let place := getAuthOff sectorid level (offsetBySize size)
    (place.offset, place.size) =
      if sectorid / 128 ^ (level + 1) = lastSector size / 128 ^ (level + 1)
      then (lastStart size level, 32 * lastEntries (lastSector size) level)
      else (authOffset level (sectorid / 128 ^ (level + 1)), 4096) := by
  have few := levels_le admitted
  have last : getLastSectoridBySize (expected size).plainsize = lastSector size := by
    have small : lastSector size ≤ 4294967294 := admitted
    simp only [getLastSectoridBySize, expected, filled, Nat.ne_of_gt positive, if_false]
    exact u32_of_lt (Nat.lt_of_le_of_lt small (by omega))
  have loop := getAuthOffLoop_eq level (lastSector size / 128) (sectorid / 128) (sectorid % 128)
  rw [Nat.div_div_eq_div_mul, Nat.div_div_eq_div_mul, ← Nat.pow_succ'] at loop
  simp only [getAuthOff, offsetBySize_eq positive admitted, last, hashTreeSectors, loop.1, loop.2]
  split
  · rw [expected_lastOff (by omega), expected_lastLen (by omega), expectedOff_inside inside.le, expectedLen_inside inside]
  · rfl

theorem treelevels_eq {size : ℕ} (positive : 0 < size) (admitted : Admitted size) :
    (offsetBySize size).treelevels = levels (lastSector size) := by
  rw [offsetBySize_eq positive admitted]
  rfl

section
variable {size : ℕ} (positive : 0 < size) (admitted : Admitted size)
include positive admitted

theorem span_last {level : ℕ} (inside : level < levels (lastSector size)) :
    span size (.auth level (lastSector size / 128 ^ (level + 1))) =
      Ico (lastStart size level) (lastStart size (level + 1)) := by
  have place := getAuthOff_place positive admitted
    (lastSector size / 128 ^ (level + 1) * 128 ^ (level + 1)) inside
  rw [Nat.mul_div_cancel _ (Nat.pow_pos (by omega)), if_pos rfl, Prod.mk.injEq] at place
  simp only [span, bytes, hashTreeSectors, place.1, place.2, lastStart_succ]

/-- A full authenticator sector stands `level` sectors behind the data sector
that completes it. -/
theorem span_full {level id sectorid : ℕ} (completes : (id + 1) * 128 ^ (level + 1) = sectorid + 1)
    (before : sectorid < lastSector size) :
    span size (.auth level id) = Ico (4096 * (Postorder.slot 128 sectorid + 1 + level))
      (4096 * (Postorder.slot 128 sectorid + 1 + (level + 1))) := by
  have earlier : id < lastSector size / 128 ^ (level + 1) := by
    rw [Nat.lt_iff_add_one_le, Nat.le_div_iff_mul_le (Nat.pow_pos (by omega)), completes]
    exact before
  have inside : level < levels (lastSector size) := by
    have nonzero : lastSector size / 128 ^ (level + 1) ≠ 0 := by omega
    exact Nat.lt_of_succ_lt (div_pow_ne_zero.mp nonzero)
  have small : id < 134217728 := by
    have bound : lastSector size ≤ 4294967294 := admitted
    have wide : 128 ≤ 128 ^ (level + 1) := Nat.le_self_pow (Nat.succ_ne_zero level) 128
    have : lastSector size / 128 ^ (level + 1) ≤ lastSector size / 128 := Nat.div_le_div_left wide (by omega)
    omega
  have few := levels_le admitted
  have place := getAuthOff_place positive admitted (id * 128 ^ (level + 1)) inside
  rw [Nat.mul_div_cancel _ (Nat.pow_pos (by omega)), if_neg earlier.ne, Prod.mk.injEq,
    authOffset_eq (by omega) small, completes, Nat.add_sub_cancel] at place
  simp only [span, bytes, hashTreeSectors, place.1, place.2]
  congr 1 <;> ring

/-- The pieces that stand between data sector `sectorid` and the next one. -/
def block (sectorid : ℕ) : Set Piece :=
  {.data sectorid} ∪ {piece | ∃ level id, piece = .auth level id ∧ (id + 1) * 128 ^ (level + 1) = sectorid + 1}

omit positive admitted in
private theorem block_eq {sectorid completed : ℕ}
    (levels : ∀ level, level < completed ↔ 128 ^ (level + 1) ∣ sectorid + 1) :
    block sectorid = {.data sectorid} ∪ ⋃ level < completed, {.auth level ((sectorid + 1) / 128 ^ (level + 1) - 1)} := by
  refine congrArg _ (Set.ext fun piece => ?_)
  simp only [mem_ofPred_eq, mem_iUnion, mem_singleton_iff, exists_prop]
  constructor
  · rintro ⟨level, id, rfl, completes⟩
    refine ⟨level, (levels level).mpr ⟨id + 1, by rw [← completes, Nat.mul_comm]⟩, ?_⟩
    rw [← completes, Nat.mul_div_cancel _ (Nat.pow_pos (by omega)), Nat.add_sub_cancel]
  · rintro ⟨level, inside, rfl⟩
    obtain ⟨groups, split⟩ := (levels level).mp inside
    have nonzero : groups ≠ 0 := by rintro rfl; simp at split
    refine ⟨level, _, rfl, ?_⟩
    rw [split, Nat.mul_div_cancel_left _ (Nat.pow_pos (by omega)), Nat.sub_add_cancel (Nat.pos_of_ne_zero nonzero),
      Nat.mul_comm]

theorem block_tiles {sectorid : ℕ} (before : sectorid < lastSector size) :
    Tiles (span size) (block sectorid) (4096 * Postorder.slot 128 sectorid) (4096 * Postorder.slot 128 (sectorid + 1)) := by
  obtain ⟨completed, next, levels⟩ := Postorder.slot_succ (K := 128) (by omega) sectorid
  have data : span size (.data sectorid) =
      Ico (4096 * Postorder.slot 128 sectorid) (4096 * (Postorder.slot 128 sectorid + 1)) := by
    have bounds := lastSector_bounds positive
    have whole : min sectorSize (size - sectorid * sectorSize) = 4096 := by
      simp only [sectorSize]
      omega
    simp only [span, bytes, dataOffset_eq, whole]
    rfl
  have auths : Tiles (span size) (⋃ level < completed, {Piece.auth level ((sectorid + 1) / 128 ^ (level + 1) - 1)})
      (4096 * (Postorder.slot 128 sectorid + 1 + 0)) (4096 * (Postorder.slot 128 sectorid + 1 + completed)) := by
    refine Tiles.sequence _ (fun level => 4096 * (Postorder.slot 128 sectorid + 1 + level)) completed ?_
    intro level inside
    have divides := (levels level).mp inside
    have completes : ((sectorid + 1) / 128 ^ (level + 1) - 1 + 1) * 128 ^ (level + 1) = sectorid + 1 := by
      have nonzero : 0 < (sectorid + 1) / 128 ^ (level + 1) :=
        Nat.div_pos (Nat.le_of_dvd (by omega) divides) (Nat.pow_pos (by omega))
      rw [Nat.sub_add_cancel nonzero, Nat.div_mul_cancel divides]
    exact Tiles.single (by omega) (span_full positive admitted completes before)
  rw [block_eq levels, next]
  exact (Tiles.single (by omega) data).append auths

/-- The last data sector and the last authenticator sector of every level. -/
def lastBlock (size : ℕ) : Set Piece :=
  {.data (lastSector size)} ∪ ⋃ level < levels (lastSector size), {.auth level (lastSector size / 128 ^ (level + 1))}

theorem lastBlock_tiles : Tiles (span size) (lastBlock size) (4096 * Postorder.slot 128 (lastSector size))
    (lastStart size (levels (lastSector size))) := by
  have bounds := lastSector_bounds positive
  have data : span size (.data (lastSector size)) =
      Ico (4096 * Postorder.slot 128 (lastSector size)) (lastStart size 0) := by
    have rest : min sectorSize (size - lastSector size * sectorSize) = size - 4096 * lastSector size := by
      simp only [sectorSize]
      omega
    simp only [span, bytes, dataOffset_eq, rest, lastStart, Finset.range_zero, Finset.sum_empty, Nat.add_zero]
  have ordered : 4096 * Postorder.slot 128 (lastSector size) ≤ lastStart size 0 := by simp [lastStart]
  refine (Tiles.single ordered data).append (Tiles.sequence _ (lastStart size) (levels (lastSector size)) ?_)
  intro level inside
  refine Tiles.single ?_ (span_last positive admitted inside)
  rw [lastStart_succ]
  omega

/-- The master authenticator, in files of more than one sector. -/
def masterPiece (size : ℕ) : Set Piece := {piece | piece = .master ∧ size > sectorSize}

theorem master_tiles : Tiles (span size) (masterPiece size) (lastStart size (levels (lastSector size)))
    (cryptoSize size) := by
  have ending : cryptoSize size = lastStart size (levels (lastSector size)) + if size > sectorSize then 32 else 0 := by
    simp only [cryptoSize, offsetBySize_eq positive admitted, CryptoOffsets.fileSize, expected, filled, decide_eq_true_eq]
  have position : span size .master = Ico (lastStart size (levels (lastSector size)))
      (lastStart size (levels (lastSector size)) + 32) := by
    simp only [span, bytes, offsetBySize_eq positive admitted, expected, filled]
  by_cases large : size > sectorSize
  · have exact : masterPiece size = {.master} := by ext piece; simp [masterPiece, large]
    rw [exact, ending, if_pos large]
    exact Tiles.single (by omega) position
  · have none : masterPiece size = ∅ := by ext piece; simp [masterPiece, large]
    rw [none, ending, if_neg large]
    exact Tiles.empty _ _

omit positive admitted in
private theorem mem_blocks {level id : ℕ} :
    Piece.auth level id ∈ ⋃ sectorid < lastSector size, block sectorid ↔ id < lastSector size / 128 ^ (level + 1) := by
  rw [Nat.lt_iff_add_one_le, Nat.le_div_iff_mul_le (Nat.pow_pos (by omega))]
  constructor
  · intro member
    obtain ⟨sectorid, before, completes⟩ : ∃ sectorid < lastSector size,
        (id + 1) * 128 ^ (level + 1) = sectorid + 1 := by simpa [block] using member
    omega
  · intro inside
    have leaves : 0 < (id + 1) * 128 ^ (level + 1) := Nat.mul_pos (by omega) (Nat.pow_pos (by omega))
    have found : ∃ sectorid < lastSector size, (id + 1) * 128 ^ (level + 1) = sectorid + 1 :=
      ⟨(id + 1) * 128 ^ (level + 1) - 1, by omega, by omega⟩
    simpa [block] using found

theorem pieces_eq : pieces size =
    ((⋃ sectorid < lastSector size, block sectorid) ∪ lastBlock size) ∪ masterPiece size := by
  ext piece
  cases piece with
  | data sectorid =>
    simp [pieces, Present, block, lastBlock, masterPiece, Nat.le_iff_lt_or_eq, or_comm]
  | master =>
    simp [pieces, Present, block, lastBlock, masterPiece, offsetBySize_eq positive admitted, expected, filled]
  | auth level id =>
    have last : Piece.auth level id ∈ lastBlock size ↔
        level < levels (lastSector size) ∧ id = lastSector size / 128 ^ (level + 1) := by simp [lastBlock]
    have other : Piece.auth level id ∉ masterPiece size := by simp [masterPiece]
    have present : Piece.auth level id ∈ pieces size ↔
        level < levels (lastSector size) ∧ id ≤ lastSector size / 128 ^ (level + 1) := by
      rw [← treelevels_eq positive admitted]
      rfl
    rw [mem_union, mem_union, mem_blocks, last, present, or_iff_left other]
    constructor
    · rintro ⟨inside, le⟩
      rcases Nat.lt_or_eq_of_le le with before | rfl
      · exact Or.inl before
      · exact Or.inr ⟨inside, rfl⟩
    · rintro (before | ⟨inside, rfl⟩)
      · have nonzero : lastSector size / 128 ^ (level + 1) ≠ 0 := by omega
        exact ⟨Nat.lt_of_succ_lt (div_pow_ne_zero.mp nonzero), before.le⟩
      · exact ⟨inside, le_rfl⟩

theorem tiles : Tiles (span size) (pieces size) 0 (cryptoSize size) := by
  have blocks := Tiles.sequence block (fun sectorid => 4096 * Postorder.slot 128 sectorid) (lastSector size)
    (fun sectorid before => block_tiles positive admitted before)
  simp only [Postorder.slot_zero, Nat.mul_zero] at blocks
  rw [pieces_eq positive admitted]
  exact (blocks.append (lastBlock_tiles positive admitted)).append (master_tiles positive admitted)

/-- Sectors with a common parent on a level are placed in the same
authenticator sector of it, at their own entries. -/
theorem span_auth {sectorid level : ℕ} (inside : level < (offsetBySize size).treelevels) :
    let place := getAuthOff sectorid level (offsetBySize size)
    span size (.auth level (sectorid / hashTreeSectors ^ (level + 1))) = bytes place.offset place.size := by
  rw [treelevels_eq positive admitted] at inside
  have own := getAuthOff_place positive admitted sectorid inside
  have first := getAuthOff_place positive admitted
    (sectorid / 128 ^ (level + 1) * 128 ^ (level + 1)) inside
  rw [Nat.mul_div_cancel _ (Nat.pow_pos (by omega)), ← own, Prod.mk.injEq] at first
  simp only [span, hashTreeSectors, first.1, first.2]

end

/-- The data sectors, the authenticator sectors of every level and the master
authenticator are pairwise disjoint, and together they are the whole file. -/
theorem layout_tiles (size : ℕ) (positive : 0 < size) (admitted : Admitted size) :
    (pieces size).PairwiseDisjoint (span size) ∧
    ⋃ piece ∈ pieces size, span size piece = Ico 0 (cryptoSize size) ∧
    ∀ sectorid ≤ lastSector size, ∀ level < (offsetBySize size).treelevels,
      let place := getAuthOff sectorid level (offsetBySize size)
      span size (.auth level (sectorid / hashTreeSectors ^ (level + 1))) = bytes place.offset place.size :=
  ⟨(tiles positive admitted).disjoint, (tiles positive admitted).union_eq,
    fun _ _ _ inside => span_auth positive admitted inside⟩

/-- A file with a full group of sectors and one more byte. -/
theorem layout_tiles_second_group :
    (pieces 528385).PairwiseDisjoint (span 528385) ∧
    ⋃ piece ∈ pieces 528385, span 528385 piece = Ico 0 532641 := by
  have tiling := layout_tiles 528385 (by omega) (by decide)
  have ending : cryptoSize 528385 = 532641 := by decide +kernel
  exact ⟨tiling.1, ending ▸ tiling.2.1⟩

end Pclsync.Proofs.CryptoLayout
