import Pclsync.Proofs.CryptoOffsets

/-! The size of an encrypted file determines its layout. Stripping one level of
authenticators after the other from the encrypted size, counting them by
division, runs the layout backwards. -/

namespace Pclsync.Proofs.CryptoSize
open Pclsync.Crypto Library CryptoOffsets Finset

/-- The bytes of a file with the authenticators of its lowest levels only:
every sector of a level has one on the level above. -/
def stripped (size level : ℕ) : ℕ := size + ∑ j ∈ range level, 32 * (lastSector size / 128 ^ j + 1)

theorem stripped_succ (size level : ℕ) :
    stripped size (level + 1) = stripped size level + 32 * (lastSector size / 128 ^ level + 1) := by
  rw [stripped, sum_range_succ, ← Nat.add_assoc, stripped]

/-- Counting the authenticators level by level gives the position behind the
last of them. -/
theorem lastStart_top {size : ℕ} (positive : 0 < size) :
    lastStart size (levels (lastSector size)) = stripped size (levels (lastSector size)) := by
  have bounds := lastSector_bounds positive
  rw [stripped, lastStart]
  generalize lastSector size = last at *
  have above : Postorder.slot 128 (last / 128) = ∑ j ∈ range (levels last), last / 128 ^ (j + 1) := by
    have small : last / 128 < 128 ^ levels last :=
      (Nat.div_le_self _ _).trans_lt (Nat.lt_pow_succ_log_self (by omega) last)
    rw [← Postorder.sum_div_pow (by omega) small]
    simp only [Nat.div_div_eq_div_mul, ← Nat.pow_succ']
  have each : ∀ j, 32 * (last / 128 ^ j + 1) = 4096 * (last / 128 ^ (j + 1)) + 32 * lastEntries last j := by
    intro j
    rw [lastEntries, Nat.pow_succ, ← Nat.div_div_eq_div_mul]
    generalize last / 128 ^ j = count
    omega
  have total := Postorder.slot_eq (K := 128) (by omega) last
  simp only [each, sum_add_distrib, ← mul_sum, ← above]
  omega

/-- A subtree of the level holds as much as `maxLevelSize`, and its
authenticator stands one level up. -/
theorem maxLevelSize_add {level : ℕ} (inside : level ≤ 6) :
    maxLevelSize level + 32 = 4096 * 128 ^ level + ∑ j ∈ range (level + 1), 32 * 128 ^ (level - j) := by
  have nodes := maxLevelSize_eq inside
  interval_cases level <;> rw [nodes] <;> simp [Postorder.nodes, sum_range_succ]

/-- All subtrees of the level but the last are full, and the last is not empty. -/
theorem stripped_bounds {size : ℕ} (positive : 0 < size) (level : ℕ) (inside : level ≤ 6) :
    lastSector size / 128 ^ level * (maxLevelSize level + 32) < stripped size (level + 1) ∧
    stripped size (level + 1) ≤ (lastSector size / 128 ^ level + 1) * (maxLevelSize level + 32) := by
  have bounds := lastSector_bounds positive
  set last := lastSector size
  have power : ∀ j ≤ level, 128 ^ level = 128 ^ (level - j) * 128 ^ j := fun j le => by
    rw [← Nat.pow_add, Nat.sub_add_cancel le]
  have lower : last / 128 ^ level * 128 ^ level ≤ last := Nat.div_mul_le_self _ _
  have upper : last < (last / 128 ^ level + 1) * 128 ^ level := by
    have := Nat.lt_mul_div_succ last (Nat.pow_pos (n := level) (show 0 < 128 by omega))
    rwa [Nat.mul_comm] at this
  have fewer : ∀ j ∈ range (level + 1), last / 128 ^ level * (32 * 128 ^ (level - j)) ≤ 32 * (last / 128 ^ j + 1) := by
    intro j member
    have le : j ≤ level := Nat.lt_succ_iff.mp (mem_range.mp member)
    have count : last / 128 ^ level * 128 ^ (level - j) ≤ last / 128 ^ j := by
      rw [Nat.le_div_iff_mul_le (Nat.pow_pos (by omega)), Nat.mul_assoc, ← power j le]
      exact lower
    calc last / 128 ^ level * (32 * 128 ^ (level - j)) = 32 * (last / 128 ^ level * 128 ^ (level - j)) := by ring
      _ ≤ 32 * (last / 128 ^ j + 1) := Nat.mul_le_mul_left 32 (by omega)
  have more : ∀ j ∈ range (level + 1), 32 * (last / 128 ^ j + 1) ≤ (last / 128 ^ level + 1) * (32 * 128 ^ (level - j)) := by
    intro j member
    have le : j ≤ level := Nat.lt_succ_iff.mp (mem_range.mp member)
    have count : last / 128 ^ j < (last / 128 ^ level + 1) * 128 ^ (level - j) := by
      rw [Nat.div_lt_iff_lt_mul (Nat.pow_pos (by omega)), Nat.mul_assoc, ← power j le]
      exact upper
    calc 32 * (last / 128 ^ j + 1) ≤ 32 * ((last / 128 ^ level + 1) * 128 ^ (level - j)) := Nat.mul_le_mul_left 32 count
      _ = (last / 128 ^ level + 1) * (32 * 128 ^ (level - j)) := by ring
  rw [maxLevelSize_add inside, stripped, Nat.mul_add, Nat.mul_add, mul_sum, mul_sum]
  constructor
  · refine Nat.add_lt_add_of_lt_of_le ?_ (sum_le_sum fewer)
    calc last / 128 ^ level * (4096 * 128 ^ level) = 4096 * (last / 128 ^ level * 128 ^ level) := by ring
      _ ≤ 4096 * last := Nat.mul_le_mul_left 4096 lower
      _ < size := bounds.1
  · refine Nat.add_le_add ?_ (sum_le_sum more)
    calc size ≤ 4096 * (last + 1) := by omega
      _ ≤ 4096 * ((last / 128 ^ level + 1) * 128 ^ level) := Nat.mul_le_mul_left 4096 upper
      _ = (last / 128 ^ level + 1) * (4096 * 128 ^ level) := by ring

/-- The division that counts the authenticators of a level is exact. -/
theorem count_eq {size level : ℕ} (positive : 0 < size) (inside : level ≤ 6) :
    (stripped size (level + 1) + maxLevelSize level + authSize - 1) / (maxLevelSize level + authSize) =
      lastSector size / 128 ^ level + 1 := by
  have bounds := stripped_bounds positive level inside
  simp only [authSize]
  refine Nat.div_eq_of_lt_le ?_ ?_
  · rw [Nat.succ_mul]
    omega
  · rw [Nat.succ_mul (lastSector size / 128 ^ level + 1)]
    omega

/-- The structure with the levels from `level` on recovered. -/
private def recovered (size level : ℕ) : CryptoOffsets :=
  { filled size (fun other => level ≤ other) with plainsize := 0 }

private theorem recovered_setLast {size level : ℕ} (inside : level < levels (lastSector size)) :
    (recovered size (level + 1)).setLast level (lastStart size level) (32 * lastEntries (lastSector size) level) =
      recovered size level := by
  have step := setLast_filled size level (fun other => level + 1 ≤ other)
  have next : filled size (fun other => decide (level + 1 ≤ other) || level == other) =
      filled size (fun other => decide (level ≤ other)) :=
    filled_congr fun other _ => by rw [Bool.eq_iff_iff]; simp; omega
  rw [next, expectedLen_inside inside, expectedOff_inside inside.le] at step
  exact congrArg (fun offsets : CryptoOffsets => { offsets with plainsize := 0 }) step

theorem loop_recovers {size : ℕ} (positive : 0 < size) (admitted : Admitted size) (level : ℕ)
    (inside : level ≤ levels (lastSector size)) :
    offsetsByCryptosizeLoop level (stripped size level) (lastStart size level) (recovered size level) = expected size := by
  induction level with
  | zero =>
    have all : filled size (fun other => decide (0 ≤ other)) = expected size := filled_congr fun other _ => by simp
    have nothing : stripped size 0 = size := by simp [stripped]
    rw [offsetsByCryptosizeLoop, nothing, ← all]
    rfl
  | succ level ih =>
    have few := levels_le admitted
    have size' : stripped size (level + 1) - (lastSector size / 128 ^ level + 1) * authSize = stripped size level := by
      rw [stripped_succ, authSize, Nat.mul_comm, Nat.add_sub_cancel]
    have off' : lastStart size (level + 1) - lastEntries (lastSector size) level * 32 = lastStart size level := by
      rw [lastStart_succ, Nat.mul_comm, Nat.add_sub_cancel]
    rw [offsetsByCryptosizeLoop, count_eq positive (by omega), size', lastEntries_eq, authSize, off',
      Nat.mul_comm (lastEntries _ _), recovered_setLast (by omega)]
    exact ih (by omega)

/-- The tree of the file's own number of levels holds it, and no smaller one. -/
theorem levelBySize_eq {size : ℕ} (positive : 0 < size) (admitted : Admitted size) :
    levelBySize (stripped size (levels (lastSector size))) = levels (lastSector size) := by
  have few := levels_le admitted
  have nonempty := levels_pos (lastSector size)
  have holds : stripped size (levels (lastSector size)) ≤ maxLevelSize (levels (lastSector size)) := by
    have upper := (stripped_bounds positive (levels (lastSector size)) (by omega)).2
    rw [stripped_succ, div_levels] at upper
    omega
  have smaller : ∀ level, 1 ≤ level → level < levels (lastSector size) →
      maxLevelSize level < stripped size (levels (lastSector size)) := by
    intro level one below
    have lower := (stripped_bounds positive level (by omega)).1
    have nonzero : 1 ≤ lastSector size / 128 ^ level := by
      obtain ⟨level, rfl⟩ : ∃ before, level = before + 1 := ⟨level - 1, by omega⟩
      exact Nat.one_le_iff_ne_zero.mpr (div_pow_ne_zero.mpr below)
    have one_tree := Nat.mul_le_mul_right (maxLevelSize level + 32) nonzero
    have grows : stripped size (level + 1) ≤ stripped size (levels (lastSector size)) :=
      Nat.add_le_add_left (sum_le_sum_of_subset (range_subset_range.mpr below)) size
    omega
  have found : (List.range' 1 maxHashTreeLevel).find?
      (fun level => stripped size (levels (lastSector size)) ≤ maxLevelSize level) = some (levels (lastSector size)) := by
    rw [List.find?_range'_eq_some]
    refine ⟨by simpa using holds, by simp [maxHashTreeLevel]; omega, ?_⟩
    intro level one below
    simpa using smaller level one below
  rw [levelBySize, found]
  rfl

theorem cryptoSize_eq {size : ℕ} (positive : 0 < size) (admitted : Admitted size) :
    cryptoSize size = stripped size (levels (lastSector size)) + if size > sectorSize then 32 else 0 := by
  rw [← lastStart_top positive]
  simp only [cryptoSize, offsetBySize_eq positive admitted, CryptoOffsets.fileSize, expected, filled, decide_eq_true_eq]

private theorem recovered_start (size : ℕ) :
    { CryptoOffsets.zero with
      needmasterauth := decide (size > sectorSize)
      masterauthoff := lastStart size (levels (lastSector size))
      treelevels := levels (lastSector size) : CryptoOffsets }.setLast (levels (lastSector size))
        (lastStart size (levels (lastSector size))) 32 = recovered size (levels (lastSector size)) := by
  have step := setLast_filled size (levels (lastSector size)) (fun _ => false)
  have top : filled size (fun other => false || levels (lastSector size) == other) =
      filled size (fun other => decide (levels (lastSector size) ≤ other)) :=
    filled_congr fun other inside => by rw [Bool.eq_iff_iff]; simp; omega
  have empty : filled size (fun _ => false) =
      { CryptoOffsets.zero with
        needmasterauth := decide (size > sectorSize)
        masterauthoff := lastStart size (levels (lastSector size))
        treelevels := levels (lastSector size)
        plainsize := size } := by
    simp [filled, CryptoOffsets.zero, Vector.ext_iff]
  rw [top, expectedLen_top, expectedOff_inside le_rfl, empty] at step
  exact congrArg (fun offsets : CryptoOffsets => { offsets with plainsize := 0 }) step

/-- `psync_fs_crypto_offsets_by_cryptosize` finds the layout again. -/
theorem offsetsByCryptosize_eq {size : ℕ} (positive : 0 < size) (admitted : Admitted size) :
    offsetsByCryptosize (cryptoSize size) = expected size := by
  have bounds := lastSector_bounds positive
  have ending := cryptoSize_eq positive admitted
  have grows : stripped size 1 ≤ stripped size (levels (lastSector size)) :=
    Nat.add_le_add_left (sum_le_sum_of_subset (range_subset_range.mpr (levels_pos _))) size
  have first : stripped size 1 = size + 32 * (lastSector size + 1) := by simp [stripped]
  have master : (decide (cryptoSize size > sectorSize + authSize)) = decide (size > sectorSize) := by
    have single : size ≤ 4096 → stripped size (levels (lastSector size)) = size + 32 := by
      intro small
      have zero : lastSector size = 0 := by omega
      simp [zero, levels, stripped]
    rw [Bool.eq_iff_iff, ending]
    simp only [decide_eq_true_eq, sectorSize, authSize]
    split <;> omega
  have body : (if decide (size > sectorSize) then cryptoSize size - authSize else cryptoSize size) =
      stripped size (levels (lastSector size)) := by
    rw [ending]
    by_cases large : size > sectorSize <;> simp [large, authSize]
  have large : ¬ cryptoSize size ≤ authSize := by
    rw [ending]
    simp only [authSize]
    omega
  rw [offsetsByCryptosize, if_neg large]
  simp only [master, body, levelBySize_eq positive admitted]
  have start := recovered_start size
  rw [lastStart_top positive] at start
  rw [authSize, start, ← lastStart_top positive]
  have loop := loop_recovers positive admitted (levels (lastSector size)) le_rfl
  rwa [← lastStart_top positive] at loop

theorem admitted_mono {size larger : ℕ} (le : size ≤ larger) (admitted : Admitted larger) : Admitted size :=
  (Nat.div_le_div_right (Nat.sub_le_sub_right le 1)).trans admitted

theorem cryptoSize_zero : cryptoSize 0 = 0 := by decide

theorem offsetsByCryptosize_zero : offsetsByCryptosize 0 = offsetBySize 0 := by decide

/-- The layout is a function of the encrypted size. -/
theorem offsetsByCryptosize_cryptoSize {size : ℕ} (admitted : Admitted size) :
    offsetsByCryptosize (cryptoSize size) = offsetBySize size := by
  rcases Nat.eq_zero_or_pos size with rfl | positive
  · exact cryptoSize_zero ▸ offsetsByCryptosize_zero
  · rw [offsetsByCryptosize_eq positive admitted, offsetBySize_eq positive admitted]

theorem plainSize_cryptoSize {size : ℕ} (admitted : Admitted size) : plainSize (cryptoSize size) = size := by
  rw [plainSize, offsetsByCryptosize_cryptoSize admitted]
  rcases Nat.eq_zero_or_pos size with rfl | positive
  · decide
  · rw [offsetBySize_eq positive admitted]
    rfl

theorem cryptoSize_lt {size larger : ℕ} (lt : size < larger) (admitted : Admitted larger) :
    cryptoSize size < cryptoSize larger := by
  have positive : 0 < larger := by omega
  have before := admitted_mono lt.le admitted
  rcases Nat.eq_zero_or_pos size with rfl | some
  · rw [cryptoSize_zero, cryptoSize_eq positive admitted, stripped]
    omega
  · have sectors : lastSector size ≤ lastSector larger := Nat.div_le_div_right (Nat.sub_le_sub_right lt.le 1)
    have deeper : levels (lastSector size) ≤ levels (lastSector larger) :=
      Nat.succ_le_succ (Nat.log_mono_right sectors)
    have counts : ∑ j ∈ range (levels (lastSector size)), 32 * (lastSector size / 128 ^ j + 1) ≤
        ∑ j ∈ range (levels (lastSector larger)), 32 * (lastSector larger / 128 ^ j + 1) := by
      refine (sum_le_sum fun j _ => ?_).trans (sum_le_sum_of_subset (range_subset_range.mpr deeper))
      exact Nat.mul_le_mul_left 32 (Nat.succ_le_succ (Nat.div_le_div_right sectors))
    rw [cryptoSize_eq some before, cryptoSize_eq positive admitted, stripped, stripped]
    simp only [sectorSize]
    split <;> split <;> omega

/-- The size codec: decoding an encrypted size gives the plain size back and
the same layout, and larger files are larger encrypted. -/
theorem size_codec (size : ℕ) (admitted : Admitted size) :
    plainSize (cryptoSize size) = size ∧
    (∀ smaller < size, cryptoSize smaller < cryptoSize size) ∧
    offsetsByCryptosize (cryptoSize size) = offsetBySize size :=
  ⟨plainSize_cryptoSize admitted, fun _ lt => cryptoSize_lt lt admitted, offsetsByCryptosize_cryptoSize admitted⟩

/-- One byte past a full group, where the tree gets its second level. -/
theorem size_codec_second_group :
    plainSize 532641 = 524289 + 4096 ∧ offsetsByCryptosize 532641 = offsetBySize 528385 := by
  have codec := size_codec 528385 (by decide)
  have ending : cryptoSize 528385 = 532641 := by decide +kernel
  rw [ending] at codec
  exact ⟨codec.1, codec.2.2⟩

end Pclsync.Proofs.CryptoSize
