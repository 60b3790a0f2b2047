import Pclsync.Proofs.CryptoOffsets

/-! Positions of data sectors. `pfscrypto_sector_id` counts in sectors and 32 bits what
`psync_fs_crypto_data_offset_by_sectorid` counts in bytes and 64 bits. -/

namespace Pclsync.Proofs.CryptoSectorId
open Pclsync.Crypto Library CryptoOffsets

/-- The last sector whose position fits `uint32_t`. -/
def lastPlacedSector : ℕ := 4261412864

theorem sectorIdLoop_eq (sectorid sect : ℕ) (small : sect < 4294967296) :
    sectorIdLoop sectorid sect = u32 (sect + Postorder.slot 128 (sectorid / 128)) := by
  induction sectorid, sect using sectorIdLoop.induct with
  | case1 sectorid sect few =>
    rw [sectorIdLoop, if_pos few, Nat.div_eq_of_lt few, Postorder.slot_zero, Nat.add_zero, u32_of_lt small]
  | case2 sectorid sect many ih =>
    rw [sectorIdLoop, if_neg many, ih (Nat.mod_lt _ (by omega)), Postorder.slot_eq (by omega) (sectorid / 128)]
    simp only [hashTreeSectors, u32]
    omega

theorem sectorId_eq {sectorid : ℕ} (small : sectorid < 4294967296) : sectorId sectorid = u32 (Postorder.slot 128 sectorid) := by
  rw [sectorId, sectorIdLoop_eq _ _ small, Postorder.slot_eq (by omega) sectorid]

theorem slot_lastPlaced : Postorder.slot 128 lastPlacedSector = 4294967295 := by
  have step : ∀ leaf parent : ℕ, leaf / 128 = parent → Postorder.slot 128 leaf = leaf + Postorder.slot 128 parent := by
    rintro leaf _ rfl
    exact Postorder.slot_eq (by omega) leaf
  calc Postorder.slot 128 lastPlacedSector
      = lastPlacedSector + Postorder.slot 128 33292288 := step _ _ (by decide)
    _ = lastPlacedSector + (33292288 + Postorder.slot 128 260096) := by rw [step 33292288 260096 (by decide)]
    _ = lastPlacedSector + (33292288 + (260096 + Postorder.slot 128 2032)) := by
      rw [step 260096 2032 (by decide)]
    _ = lastPlacedSector + (33292288 + (260096 + (2032 + Postorder.slot 128 15))) := by
      rw [step 2032 15 (by decide)]
    _ = 4294967295 := by
      rw [step 15 0 (by decide), Postorder.slot_zero]
      decide

/-- Sectors up to this one are those whose positions fit. -/
theorem slot_fits {sectorid : ℕ} : Postorder.slot 128 sectorid < 4294967296 ↔ sectorid ≤ lastPlacedSector := by
  rw [← (Postorder.slot_strictMono (K := 128) (by omega)).le_iff_le, slot_lastPlaced]
  omega

/-- An authenticator sector that signs one sector at least. -/
def Signs (level id : ℕ) : Prop := level < maxHashTreeLevel ∧ id * hashTreeSectors ^ (level + 1) ≤ maxSectorid

theorem Signs.small {level id : ℕ} (signs : Signs level id) : id < 134217728 := by
  have wide : 128 ≤ 128 ^ (level + 1) := Nat.le_self_pow (Nat.succ_ne_zero level) 128
  have bound : id * 128 ^ (level + 1) ≤ 4294967294 := signs.2
  have := Nat.mul_le_mul_left id wide
  omega

/-- In 64 bits no authenticator sector stands where a data sector does. -/
theorem authOffset_ne {level id : ℕ} (signs : Signs level id) (sectorid : ℕ) :
    authOffset level id ≠ dataOffsetBySectorid sectorid := by
  rw [authOffset_eq (Nat.le_of_lt_succ signs.1) signs.small, dataOffset_eq]
  intro same
  exact Postorder.slot_ne_parent (by omega) sectorid (Nat.eq_of_mul_eq_mul_left (by omega) same).symm

theorem dataOffset_strictMono : StrictMono dataOffsetBySectorid := by
  intro earlier later lt
  rw [dataOffset_eq, dataOffset_eq]
  exact Nat.mul_lt_mul_of_pos_left (Postorder.slot_strictMono (by omega) lt) (by omega)

/-- The 32-bit position of a data sector is right. -/
structure Placed (sectorid : ℕ) : Prop where
  agrees : sectorId sectorid * sectorSize = dataOffsetBySectorid sectorid
  increasing : ∀ earlier < sectorid, sectorId earlier < sectorId sectorid
  apart : ∀ level id, Signs level id → authOffset level id ≠ sectorId sectorid * sectorSize

theorem sectorId_fits {sectorid : ℕ} (inside : sectorid ≤ lastPlacedSector) : sectorId sectorid = Postorder.slot 128 sectorid := by
  have small : sectorid < 4294967296 := inside.trans_lt (by decide)
  rw [sectorId_eq small, u32_of_lt (slot_fits.mpr inside)]

theorem sectorId_agrees {sectorid : ℕ} (inside : sectorid ≤ lastPlacedSector) :
    sectorId sectorid * sectorSize = dataOffsetBySectorid sectorid := by
  rw [sectorId_fits inside, dataOffset_eq, Nat.mul_comm]

/-- A sector id is placed right if and only if its position fits 32 bits. -/
theorem placed_iff (sectorid : ℕ) (admitted : sectorid ≤ maxSectorid) : Placed sectorid ↔ sectorid ≤ lastPlacedSector := by
  constructor
  · intro placed
    have agrees := placed.agrees
    have small : sectorid < 4294967296 := admitted.trans_lt (by decide)
    rw [sectorId_eq small, dataOffset_eq, Nat.mul_comm] at agrees
    have same := Nat.eq_of_mul_eq_mul_left (by decide) agrees
    exact slot_fits.mp (same ▸ Nat.mod_lt _ (by omega))
  · intro inside
    refine ⟨sectorId_agrees inside, fun earlier lt => ?_, fun level id signs => ?_⟩
    · rw [sectorId_fits inside, sectorId_fits (lt.le.trans inside)]
      exact Postorder.slot_strictMono (by omega) lt
    · rw [sectorId_agrees inside]
      exact authOffset_ne signs sectorid

theorem placed_iff_last : Placed lastPlacedSector := (placed_iff lastPlacedSector (by decide)).mpr (Nat.le_refl _)

/-- The next sector is placed at the start of the file. -/
theorem sectorId_wraps : 4261412865 ≤ maxSectorid ∧ sectorId 4261412865 = 0 ∧ sectorId 0 = 0 ∧
    dataOffsetBySectorid 4261412865 = 17592186044416 := by
  have next : Postorder.slot 128 4261412865 = 4294967296 := by
    have same : 4261412865 / 128 = lastPlacedSector / 128 := by decide
    have last := slot_lastPlaced
    rw [Postorder.slot_eq (by omega)] at last ⊢
    rw [same]
    have isLast : lastPlacedSector = 4261412864 := rfl
    omega
  refine ⟨by decide, ?_, sectorId_fits (Nat.zero_le _), ?_⟩
  · rw [sectorId_eq (by decide), next]
    decide
  · rw [dataOffset_eq, next]

end Pclsync.Proofs.CryptoSectorId
