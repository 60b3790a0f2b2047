import Pclsync.Net.BlockHeader

/-! Which headers the readers of block checksums take rightly. The sum in the
ceiling division wraps only for sizes at the end of the range, and then no block
is counted; a count of blocks can also be too large for where it is put. -/

namespace Pclsync.Proofs.BlockHeader
open Pclsync.Net.BlockHeader Library

variable {stream : List UInt8} {i : ℕ}

/-- An object with all blocks of the file. -/
structure Sound (stream : List UInt8) (blocks : ℕ) (checksums : FileChecksums) : Prop where
  filesize : checksums.filesize = filesize stream
  blocksize : checksums.blocksize = blocksize stream
  blockcnt : checksums.blockcnt = blocks
  filled : checksums.blocks.length = checksumSize * blocks

/-- The number of blocks of the file that the header is about. -/
def fileBlocks (stream : List UInt8) : ℕ := filesize stream ⌈/⌉ blocksize stream

/-- The numbers of a call are exact, and it gives an error or a sound object. -/
structure Right (stream : List UInt8) (call : Call) : Prop where
  count : ∀ i ∈ call.count, i = fileBlocks stream
  allocated : ∀ size ∈ call.allocated, size = 24 + 28 * fileBlocks stream
  result : ∀ checksums, call.result = .ok checksums → ∃ object ∈ checksums, Sound stream (fileBlocks stream) object

/-- The call ends, without a division by zero, and is right. -/
def Reads (stream : List UInt8) (call : Option Call) : Prop := ∃ done ∈ call, Right stream done

section Count

theorem leNumber_take_lt (width : ℕ) (bytes : List UInt8) : leNumber (bytes.take width) < 256 ^ width :=
  (leNumber_lt _).trans_le (Nat.pow_le_pow_right (by decide) (List.length_take_le width bytes))

theorem filesize_lt (stream : List UInt8) : filesize stream < 2 ^ 64 := leNumber_take_lt 8 stream

theorem blocksize_lt (stream : List UInt8) : blocksize stream < 2 ^ 32 := leNumber_take_lt 4 (stream.drop 8)

theorem fileBlocks_eq (stream : List UInt8) :
    fileBlocks stream = (filesize stream + blocksize stream - 1) / blocksize stream :=
  Nat.ceilDiv_eq_add_pred_div _ _

theorem blockCount_exact (some_size : blocksize stream ≠ 0) (fits : filesize stream + blocksize stream ≤ 2 ^ 64) :
    blockCount (filesize stream) (blocksize stream) = some (fileBlocks stream) := by
  have exact_sum : (filesize stream + blocksize stream + 2 ^ 64 - 1) % 2 ^ 64 =
      filesize stream + blocksize stream - 1 := by omega
  rw [blockCount, if_neg some_size, exact_sum, fileBlocks_eq]

theorem blockCount_wrapped (some_size : blocksize stream ≠ 0) (wraps : 2 ^ 64 < filesize stream + blocksize stream) :
    blockCount (filesize stream) (blocksize stream) = some 0 := by
  have large := filesize_lt stream
  have small := blocksize_lt stream
  have wrapped : (filesize stream + blocksize stream + 2 ^ 64 - 1) % 2 ^ 64 < blocksize stream := by omega
  rw [blockCount, if_neg some_size, Nat.div_eq_of_lt wrapped]

theorem fileBlocks_pos (some_size : blocksize stream ≠ 0) (some_file : 0 < filesize stream) : 0 < fileBlocks stream := by
  rw [fileBlocks_eq]
  exact Nat.div_pos (by omega) (Nat.pos_of_ne_zero some_size)

theorem entriesSize_eq (small : i < 2 ^ 32) : entriesSize i = 28 * i := Nat.mod_eq_of_lt (by omega)

theorem allocSize_eq (small : entriesSize i < maxChecksumsSize) : allocSize i = 24 + entriesSize i := by
  apply Nat.mod_eq_of_lt
  simp only [maxChecksumsSize] at small
  omega

end Count

section Readers

/-- With a number of blocks that fits, the entries are read or the read fails. -/
theorem readBlocks_sound (small : 28 * i < maxChecksumsSize) {checksums : Option FileChecksums}
    (read : readBlocks stream i = .ok checksums) : ∃ object ∈ checksums, Sound stream i object := by
  simp only [maxChecksumsSize] at small
  have num : checksumSize * i % 2 ^ 64 = checksumSize * i := by
    apply Nat.mod_eq_of_lt
    simp only [checksumSize]
    omega
  rw [readBlocks, num] at read
  by_cases complete : ((stream.drop headerSize).take (toInt (checksumSize * i)).toNat).length = checksumSize * i
  · rw [if_neg (not_not.mpr complete)] at read
    cases read
    have few : i % 2 ^ 32 = i := Nat.mod_eq_of_lt (by omega)
    refine ⟨_, rfl, ?_⟩
    constructor
    · rfl
    · rfl
    · exact few
    · dsimp only
      exact complete
  · rw [if_pos complete] at read
    cases read

/-- A call that has counted and allocated rightly reads rightly. -/
theorem readBlocks_right (small : 28 * fileBlocks stream < maxChecksumsSize) :
    Right stream ⟨some (fileBlocks stream), some (allocSize (fileBlocks stream)), readBlocks stream (fileBlocks stream)⟩ := by
  have few : fileBlocks stream < 2 ^ 32 := by
    simp only [maxChecksumsSize] at small
    omega
  constructor
  · rintro _ ⟨⟩
    rfl
  · rintro _ ⟨⟩
    have below : entriesSize (fileBlocks stream) < maxChecksumsSize := by
      rw [entriesSize_eq few]
      exact small
    rw [allocSize_eq below, entriesSize_eq few]
  · intro checksums read
    dsimp only at read
    exact @readBlocks_sound stream (fileBlocks stream) small checksums read

theorem getChecksums_iff (complete : headerSize ≤ stream.length) : Reads stream (getChecksums stream) ↔
    blocksize stream ≠ 0 ∧ filesize stream + blocksize stream ≤ 2 ^ 64 ∧ 28 * fileBlocks stream < maxChecksumsSize := by
  rw [getChecksums, if_neg (Nat.not_lt.mpr complete)]
  by_cases zero : blocksize stream = 0
  · rw [blockCount, if_pos zero]
    constructor
    · rintro ⟨done, crash, _⟩
      cases crash
    · exact fun fits => absurd zero fits.1
  have large := filesize_lt stream
  have small_size := blocksize_lt stream
  by_cases fits : filesize stream + blocksize stream ≤ 2 ^ 64
  · rw [blockCount_exact zero fits]
    simp only [bind, Option.bind]
    constructor
    · rintro ⟨done, same, right⟩
      refine ⟨zero, fits, ?_⟩
      by_cases refused : maxChecksumsSize ≤ entriesSize (fileBlocks stream)
      · rw [if_pos refused] at same
        cases same
        obtain ⟨object, missing, _⟩ := right.result none rfl
        cases missing
      · rw [if_neg refused] at same
        cases same
        have below := Nat.not_le.mp refused
        have size := right.allocated _ rfl
        rw [allocSize_eq below] at size
        omega
    · rintro ⟨_, _, small⟩
      have few : fileBlocks stream < 2 ^ 32 := by
        simp only [maxChecksumsSize] at small
        omega
      rw [entriesSize_eq few, if_neg (Nat.not_le.mpr small)]
      exact ⟨_, rfl, readBlocks_right small⟩
  · have wraps := Nat.not_le.mp fits
    rw [blockCount_wrapped zero wraps]
    constructor
    · rintro ⟨done, same, right⟩
      cases same
      have none_counted := right.count 0 rfl
      have some_block := fileBlocks_pos zero (show 0 < filesize stream by omega)
      omega
    · exact fun all => absurd all.2.1 fits

theorem getUploadChecksums_iff (complete : headerSize ≤ stream.length) : Reads stream (getUploadChecksums stream) ↔
    blocksize stream ≠ 0 ∧ filesize stream + blocksize stream ≤ 2 ^ 64 ∧ fileBlocks stream < 2 ^ 32 := by
  rw [getUploadChecksums, if_neg (Nat.not_lt.mpr complete)]
  by_cases zero : blocksize stream = 0
  · rw [blockCount, if_pos zero]
    constructor
    · rintro ⟨done, crash, _⟩
      cases crash
    · exact fun fits => absurd zero fits.1
  have large := filesize_lt stream
  have small_size := blocksize_lt stream
  by_cases fits : filesize stream + blocksize stream ≤ 2 ^ 64
  · rw [blockCount_exact zero fits]
    simp only [bind, Option.bind]
    constructor
    · rintro ⟨done, same, right⟩
      refine ⟨zero, fits, ?_⟩
      have counted : fileBlocks stream % 2 ^ 32 = fileBlocks stream := by
        split at same
        · cases same
          exact right.count _ rfl
        · split at same
          · cases same
            exact right.count _ rfl
          · cases same
            exact right.count _ rfl
      rw [← counted]
      exact Nat.mod_lt _ (by decide)
    · rintro ⟨_, _, few⟩
      rw [Nat.mod_eq_of_lt few, entriesSize_eq few]
      by_cases refused : maxChecksumsSize ≤ 28 * fileBlocks stream
      · rw [if_pos refused]
        exact ⟨_, rfl, by rintro _ ⟨⟩; rfl, by rintro _ ⟨⟩, by rintro _ ⟨⟩⟩
      · rw [if_neg refused]
        by_cases empty : filesize stream = 0
        · rw [if_pos empty]
          exact ⟨_, rfl, by rintro _ ⟨⟩; rfl, by rintro _ ⟨⟩, by rintro _ ⟨⟩⟩
        · rw [if_neg empty]
          exact ⟨_, rfl, readBlocks_right (Nat.not_le.mp refused)⟩
  · have wraps := Nat.not_le.mp fits
    rw [blockCount_wrapped zero wraps]
    constructor
    · rintro ⟨done, same, right⟩
      have empty : ¬ filesize stream = 0 := by omega
      rw [Option.bind_eq_bind, Option.bind_some, if_neg (by decide), if_neg empty] at same
      cases same
      have none_counted := right.count _ rfl
      have some_block := fileBlocks_pos zero (show 0 < filesize stream by omega)
      omega
    · exact fun all => absurd all.2.1 fits

/-- A reader that gets no whole header reports an error. -/
theorem short_header (short : stream.length < headerSize) :
    Reads stream (getChecksums stream) ∧ Reads stream (getUploadChecksums stream) := by
  rw [getChecksums, getUploadChecksums, if_pos short, if_pos short]
  exact ⟨⟨_, rfl, by rintro _ ⟨⟩, by rintro _ ⟨⟩, by rintro _ ⟨⟩⟩, _, rfl, by rintro _ ⟨⟩, by rintro _ ⟨⟩, by rintro _ ⟨⟩⟩

end Readers

/-- Both readers are right exactly when the header is cut off, or when it has a
block size, its sizes do not wrap, and the blocks fit the bound of the first
reader (within the 32 bits of the second one). -/
theorem readers_iff (stream : List UInt8) :
    (Reads stream (getChecksums stream) ↔ stream.length < headerSize ∨ blocksize stream ≠ 0 ∧
      filesize stream + blocksize stream ≤ 2 ^ 64 ∧ 28 * fileBlocks stream < maxChecksumsSize) ∧
    (Reads stream (getUploadChecksums stream) ↔ stream.length < headerSize ∨ blocksize stream ≠ 0 ∧
      filesize stream + blocksize stream ≤ 2 ^ 64 ∧ fileBlocks stream < 2 ^ 32) := by
  rcases Nat.lt_or_ge stream.length headerSize with short | complete
  · have both := short_header short
    exact ⟨iff_of_true both.1 (.inl short), iff_of_true both.2 (.inl short)⟩
  · have whole : ¬ stream.length < headerSize := Nat.not_lt.mpr complete
    simp only [whole, false_or]
    exact ⟨getChecksums_iff complete, getUploadChecksums_iff complete⟩

/-- A header without block size, and one of a gibibyte in blocks of 64 bytes. -/
theorem readers_wrong : ¬ Reads (List.replicate 24 0) (getChecksums (List.replicate 24 0)) ∧
    ¬ Reads (List.replicate 24 0) (getUploadChecksums (List.replicate 24 0)) ∧
    ¬ Reads ([0, 0, 0, 64, 0, 0, 0, 0, 64] ++ List.replicate 15 0)
      (getChecksums ([0, 0, 0, 64, 0, 0, 0, 0, 64] ++ List.replicate 15 0)) := by
  have crash : getChecksums (List.replicate 24 0) = none ∧ getUploadChecksums (List.replicate 24 0) = none := by decide
  have missing : getChecksums ([0, 0, 0, 64, 0, 0, 0, 0, 64] ++ List.replicate 15 0) =
      some ⟨some (2 ^ 24), none, .ok none⟩ := by decide
  rw [crash.1, crash.2, missing]
  refine ⟨?_, ?_, ?_⟩
  · rintro ⟨done, none_done, _⟩
    cases none_done
  · rintro ⟨done, none_done, _⟩
    cases none_done
  · rintro ⟨done, same, right⟩
    cases same
    obtain ⟨object, none_object, _⟩ := right.result none rfl
    cases none_object

end Pclsync.Proofs.BlockHeader
