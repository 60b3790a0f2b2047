import Pclsync.Crypto.Layout
import Pclsync.Library.Postorder
import Mathlib.Tactic.IntervalCases

/-! Closed form of the layout: where the sectors of an encrypted file of
`size` plain bytes stand, as a function of its last data sector. -/

namespace Pclsync.Proofs.CryptoOffsets
open Pclsync.Crypto Library Finset

/-- Last data sector of a file of `size > 0` bytes. -/
def lastSector (size : ℕ) : ℕ := (size - 1) / sectorSize

/-- A size the layout is meant for: its sector ids fit `uint32_t` and are not
the invalid one. -/
def Admitted (size : ℕ) : Prop := lastSector size ≤ maxSectorid

instance (size : ℕ) : Decidable (Admitted size) := inferInstanceAs (Decidable (_ ≤ _))

/-- Levels of authenticator sectors above `last + 1` data sectors. -/
def levels (last : ℕ) : ℕ := Nat.log 128 last + 1

/-- Authenticators in the last sector of a level. -/
def lastEntries (last level : ℕ) : ℕ := last / 128 ^ level % 128 + 1

/-- Where the last authenticator sector of a level starts: they stand one after
the other behind the last data sector. -/
def lastStart (size level : ℕ) : ℕ :=
  4096 * Postorder.slot 128 (lastSector size) + (size - 4096 * lastSector size) +
    ∑ j ∈ range level, 32 * lastEntries (lastSector size) j

theorem lastStart_succ (size level : ℕ) :
    lastStart size (level + 1) = lastStart size level + 32 * lastEntries (lastSector size) level := by
  rw [lastStart, sum_range_succ, ← Nat.add_assoc, lastStart]

theorem lastSector_bounds {size : ℕ} (positive : 0 < size) :
    4096 * lastSector size < size ∧ size ≤ 4096 * lastSector size + 4096 := by
  simp only [lastSector, sectorSize]
  omega

theorem div_pow_ne_zero {last level : ℕ} : last / 128 ^ (level + 1) ≠ 0 ↔ level + 1 < levels last := by
  rw [levels, Nat.succ_lt_succ_iff, Nat.lt_iff_add_one_le, Nat.div_ne_zero_iff]
  rcases Nat.eq_zero_or_pos last with rfl | positive
  · simp
  · rw [Nat.le_log_iff_pow_le (by omega) (by omega)]
    simp

theorem div_levels (last : ℕ) : last / 128 ^ levels last = 0 :=
  Nat.div_eq_of_lt (Nat.lt_pow_succ_log_self (by omega) last)

theorem levels_pos (last : ℕ) : 0 < levels last := Nat.succ_pos _

/-- No admitted file reaches the end of the per-level arrays. -/
theorem levels_le {last : ℕ} (small : last ≤ maxSectorid) : levels last ≤ 5 := by
  have bound : Nat.log 128 last < 5 := Nat.log_lt_of_lt_pow' (by omega) (by simp only [maxSectorid] at small; omega)
  simp only [levels]
  omega

theorem u32_of_lt {n : ℕ} (small : n < 4294967296) : u32 n = n := Nat.mod_eq_of_lt small

theorem offsetLoop_eq (id off : ℕ) : offsetLoop id off = off + 4096 * Postorder.slot 128 (id / 128) := by
  induction id, off using offsetLoop.induct with
  | case1 id off small =>
    rw [offsetLoop, if_pos small, Nat.div_eq_of_lt small, Postorder.slot_zero, Nat.mul_zero, Nat.add_zero]
  | case2 id off large ih =>
    rw [offsetLoop, if_neg large, ih, Postorder.slot_eq (by omega) (id / 128)]
    simp only [hashTreeSectors, sectorSize]
    ring

theorem dataOffset_eq (sectorid : ℕ) : dataOffsetBySectorid sectorid = 4096 * Postorder.slot 128 sectorid := by
  rw [dataOffsetBySectorid, offsetLoop_eq, Postorder.slot_eq (by omega) sectorid]
  simp only [sectorSize]
  ring

/-- The products of `psync_fs_crypto_auth_offset` fit for every sector that signs something. -/
theorem authLoop_eq (id ret : ℕ) (small : id < 134217728) : authLoop id ret = offsetLoop id ret := by
  induction id, ret using authLoop.induct with
  | case1 id ret few => rw [authLoop, offsetLoop, if_pos few, if_pos few]
  | case2 id ret many ih =>
    have fits : id / hashTreeSectors * sectorSize < 4294967296 := by simp only [hashTreeSectors, sectorSize]; omega
    rw [authLoop, offsetLoop, if_neg many, if_neg many, ih ((Nat.div_le_self _ _).trans_lt small), u32_of_lt fits]

theorem maxLevelSize_eq {level : ℕ} (inside : level ≤ 6) : maxLevelSize level = 4096 * Postorder.nodes 128 level := by
  interval_cases level <;> decide

/-- A full authenticator sector follows the last data sector it covers and the
sectors of the levels below that end with it. -/
theorem authOffset_eq {level id : ℕ} (inside : level ≤ 5) (small : id < 134217728) :
    authOffset level id = 4096 * (Postorder.slot 128 ((id + 1) * 128 ^ (level + 1) - 1) + level + 1) := by
  have ending := Postorder.slot_group_end (K := 128) (by omega) (level + 1) id
  have nonempty : 1 ≤ Postorder.nodes 128 (level + 1) * (id + 1) := by
    rw [Postorder.nodes_succ]
    exact Nat.mul_pos (by omega) (by omega)
  rw [authOffset, authLoop_eq _ _ small, offsetLoop_eq, u32_of_lt (by omega), maxLevelSize_eq (by omega), sectorSize, Nat.mul_assoc]
  omega

/-! The two loops fill the per-level arrays from opposite ends; `filled` is
the structure in between. -/

def expectedOff (size level : ℕ) : ℕ :=
  if level ≤ levels (lastSector size) then lastStart size level else 0

def expectedLen (size level : ℕ) : ℕ :=
  if level < levels (lastSector size) then 32 * lastEntries (lastSector size) level
  else if level = levels (lastSector size) then 32 else 0

def filled (size : ℕ) (present : ℕ → Bool) : CryptoOffsets where
  masterauthoff := lastStart size (levels (lastSector size))
  plainsize := size
  lastauthsectoroff := Vector.ofFn fun level => if present level then expectedOff size level else 0
  lastauthsectorlen := Vector.ofFn fun level => if present level then expectedLen size level else 0
  treelevels := levels (lastSector size)
  needmasterauth := size > sectorSize

/-- The layout of an encrypted file of `size > 0` bytes. -/
def expected (size : ℕ) : CryptoOffsets := filled size fun _ => true

theorem filled_congr {size : ℕ} {present other : ℕ → Bool}
    (same : ∀ level ≤ levels (lastSector size), present level = other level) :
    filled size present = filled size other := by
  have beyond : ∀ level, present level ≠ other level → expectedOff size level = 0 ∧ expectedLen size level = 0 := by
    intro level different
    have outside : ¬ level ≤ levels (lastSector size) := fun inside => different (same level inside)
    simp only [expectedOff, expectedLen]
    refine ⟨if_neg outside, ?_⟩
    rw [if_neg (by omega), if_neg (by omega)]
  simp only [filled, CryptoOffsets.mk.injEq, true_and, and_true]
  constructor <;> refine congrArg _ (funext fun level => ?_) <;>
    by_cases agree : present level = other level
  · rw [agree]
  · rw [(beyond level agree).1]; simp
  · rw [agree]
  · rw [(beyond level agree).2]; simp

theorem setLast_filled (size level : ℕ) (present : ℕ → Bool) :
    (filled size present).setLast level (expectedOff size level) (expectedLen size level) =
      filled size fun other => present other || level == other := by
  simp only [CryptoOffsets.setLast, filled, CryptoOffsets.mk.injEq, true_and, and_true]
  constructor <;> refine Vector.ext fun index inside => ?_ <;>
    simp only [Vector.getElem_setIfInBounds, Vector.getElem_ofFn] <;>
    by_cases same : level = index <;> simp [same]

theorem expected_lastOff {size level : ℕ} (inside : level < 6) :
    (expected size).lastOff level = expectedOff size level := by
  simp [CryptoOffsets.lastOff, expected, filled, inside]

theorem expected_lastLen {size level : ℕ} (inside : level < 6) :
    (expected size).lastLen level = expectedLen size level := by
  simp [CryptoOffsets.lastLen, expected, filled, inside]

/-- The entries of a level's last sector, read off the count below it. -/
theorem lastEntries_eq (last level : ℕ) :
    (if (last / 128 ^ level + 1) % hashTreeSectors = 0 then hashTreeSectors
      else (last / 128 ^ level + 1) % hashTreeSectors) = lastEntries last level := by
  simp only [lastEntries, hashTreeSectors]
  split <;> omega

theorem expectedLen_inside {size level : ℕ} (inside : level < levels (lastSector size)) :
    expectedLen size level = 32 * lastEntries (lastSector size) level := if_pos inside

theorem expectedOff_inside {size level : ℕ} (inside : level ≤ levels (lastSector size)) :
    expectedOff size level = lastStart size level := if_pos inside

theorem expectedLen_top (size : ℕ) : expectedLen size (levels (lastSector size)) = 32 := by simp [expectedLen]

/-- The levels below `level` are filled; the loop sets the rest at its end. -/
private def started (size level : ℕ) : CryptoOffsets :=
  { filled size (fun other => other < level) with masterauthoff := 0, treelevels := 0 }

private theorem started_setLast {size level : ℕ} (inside : level < levels (lastSector size)) :
    (started size level).setLast level (lastStart size level) (32 * lastEntries (lastSector size) level) =
      started size (level + 1) := by
  have step := setLast_filled size level (fun other => other < level)
  have next : filled size (fun other => decide (other < level) || level == other) =
      filled size (fun other => decide (other < level + 1)) :=
    filled_congr fun other _ => by rw [Bool.eq_iff_iff]; simp; omega
  rw [next, expectedLen_inside inside, expectedOff_inside inside.le] at step
  exact congrArg (fun offsets : CryptoOffsets => { offsets with masterauthoff := 0, treelevels := 0 }) step

private theorem started_finish {size : ℕ} :
    { (started size (levels (lastSector size))).setLast (levels (lastSector size))
        (lastStart size (levels (lastSector size))) 32 with
      masterauthoff := lastStart size (levels (lastSector size))
      treelevels := levels (lastSector size) } = expected size := by
  have step := setLast_filled size (levels (lastSector size)) (fun other => other < levels (lastSector size))
  have all : filled size (fun other => decide (other < levels (lastSector size)) || levels (lastSector size) == other) =
      expected size :=
    filled_congr fun other inside => by simp; omega
  rw [all, expectedLen_top, expectedOff_inside le_rfl] at step
  rw [← step]
  rfl

theorem count_above (last level : ℕ) :
    (last / 128 ^ level + 1 + hashTreeSectors - 1) / hashTreeSectors = last / 128 ^ (level + 1) + 1 := by
  rw [Nat.pow_succ, ← Nat.div_div_eq_div_mul]
  generalize last / 128 ^ level = count
  simp only [hashTreeSectors]
  omega

private theorem loop_expected {size : ℕ} (remaining : ℕ) :
    ∀ level, level + remaining + 1 = levels (lastSector size) →
      offsetBySizeLoop (lastSector size / 128 ^ level + 1) level (lastStart size level) (started size level) =
        expected size := by
  induction remaining with
  | zero =>
    intro level top
    have final : lastSector size / 128 ^ (level + 1) = 0 := by
      rw [show level + 1 = levels (lastSector size) by omega]
      exact div_levels _
    rw [offsetBySizeLoop, count_above, if_neg (by omega), lastEntries_eq, authSize, Nat.mul_comm, ← lastStart_succ,
      started_setLast (by omega), show level + 1 = levels (lastSector size) by omega]
    exact started_finish
  | succ remaining ih =>
    intro level top
    have more : 0 < lastSector size / 128 ^ (level + 1) := Nat.pos_of_ne_zero (div_pow_ne_zero.mpr (by omega))
    rw [offsetBySizeLoop, count_above, if_pos (by omega), lastEntries_eq, authSize, Nat.mul_comm, ← lastStart_succ,
      started_setLast (by omega)]
    exact ih (level + 1) (by omega)

private theorem started_zero (size : ℕ) :
    { CryptoOffsets.zero with plainsize := size, needmasterauth := size > sectorSize } = started size 0 := by
  simp [started, filled, CryptoOffsets.zero, Vector.ext_iff]

/-- `pfscrypto_offset_by_size` computes the closed form. -/
theorem offsetBySize_eq {size : ℕ} (positive : 0 < size) (admitted : Admitted size) :
    offsetBySize size = expected size := by
  have bounds := lastSector_bounds positive
  have small : lastSector size ≤ 4294967294 := admitted
  have count : (size + sectorSize - 1) / sectorSize = lastSector size / 128 ^ 0 + 1 := by
    simp only [sectorSize, pow_zero, Nat.div_one]
    omega
  have ending : (if size % sectorSize = 0
        then dataOffsetBySectorid (u32 (u32 (size / sectorSize) + 4294967295)) + sectorSize
        else dataOffsetBySectorid (u32 (size / sectorSize)) + size % sectorSize) = lastStart size 0 := by
    simp only [lastStart, range_zero, sum_empty, Nat.add_zero, ← dataOffset_eq]
    split
    next whole =>
      have last : u32 (u32 (size / sectorSize) + 4294967295) = lastSector size := by
        simp only [u32, sectorSize] at *
        omega
      rw [last]
      simp only [sectorSize] at *
      omega
    next partially =>
      have last : u32 (size / sectorSize) = lastSector size := by
        simp only [u32, sectorSize] at *
        omega
      rw [last]
      simp only [sectorSize] at *
      omega
  rw [offsetBySize]
  simp only [Nat.ne_of_gt positive, if_false, count, ending]
  rw [started_zero]
  exact loop_expected (levels (lastSector size) - 1) 0 (by have := levels_pos (lastSector size); omega)

end Pclsync.Proofs.CryptoOffsets
