import Pclsync.Hash.Crc32c

/-! The fast paths of the checksum against the one byte by byte. -/

namespace Pclsync.Proofs.Crc32c
open Library Library.Crc Hash

section Words

/-- The bytes of a number are shifted apart. -/
theorem shifts_bytes (count : ℕ) (crc : BitVec 32) :
    shifts poly (32 + count) crc =
      shifts poly (32 + count) ((byteAt crc 0).setWidth 32) ^^^ shifts poly (24 + count) ((byteAt crc 1).setWidth 32) ^^^
        shifts poly (16 + count) ((byteAt crc 2).setWidth 32) ^^^ shifts poly (8 + count) ((byteAt crc 3).setWidth 32) := by
  have first := @shifts_split 32 poly 8 (24 + count) crc
  have second := @shifts_split 32 poly 8 (16 + count) (crc >>> 8)
  have third := @shifts_split 32 poly 8 (8 + count) (crc >>> 16)
  have fourth := @shifts_split 32 poly 8 count (crc >>> 24)
  have zero : crc >>> 24 >>> 8 = 0#32 := by
    rw [← BitVec.shiftRight_add]
    exact BitVec.ushiftRight_eq_zero (le_refl 32)
  rw [← BitVec.shiftRight_add] at second third
  rw [zero, shifts_zero, BitVec.xor_zero] at fourth
  rw [show 8 + (24 + count) = 32 + count by omega] at first
  rw [show 8 + (16 + count) = 24 + count by omega] at second
  rw [show 8 + (8 + count) = 16 + count by omega] at third
  rw [first, second, third, fourth]
  simp only [byteAt, BitVec.xor_assoc]
  rfl

/-- A number is put together from its bytes. -/
theorem bytes_sum (crc : BitVec 32) :
    crc = (byteAt crc 0).setWidth 32 ^^^ (byteAt crc 1).setWidth 32 <<< 8 ^^^ (byteAt crc 2).setWidth 32 <<< 16 ^^^
      (byteAt crc 3).setWidth 32 <<< 24 := by
  have first := split_low 8 crc
  have second := split_low 8 (crc >>> 8)
  have third := split_low 8 (crc >>> 16)
  have fourth := split_low 8 (crc >>> 24)
  have zero : crc >>> 24 >>> 8 = 0#32 := by
    rw [← BitVec.shiftRight_add]
    exact BitVec.ushiftRight_eq_zero (le_refl 32)
  rw [← BitVec.shiftRight_add] at second third
  rw [zero, BitVec.zero_shiftLeft, BitVec.xor_zero] at fourth
  rw [fourth] at third
  rw [third] at second
  rw [second] at first
  simp only [BitVec.shiftLeft_xor_distrib, ← BitVec.shiftLeft_add] at first
  simp only [byteAt, BitVec.xor_assoc] at first ⊢
  exact first

theorem byteAt_high (uint : BitVec 64) (place : ℕ) :
    byteAt ((uint >>> 32).setWidth 32) place = if place < 4 then byteAt uint (place + 4) else 0#8 := by
  apply BitVec.eq_of_getLsbD_eq
  intro index inside
  have place' : 32 + (8 * place + index) = 8 * (place + 4) + index := by omega
  split
  · simp [byteAt, inside, place']
    intro above
    omega
  · simp [byteAt, inside]
    intro below
    omega

end Words

section Steps

variable (tables : Tables)

theorem crc64BitUint_eq (crc : BitVec 32) (uint : BitVec 64) : crc64BitUint tables crc uint = feedBits poly 64 uint.toNat crc := by
  have low : BitVec.ofNat 32 (uint.toNat % 2 ^ 32) = uint.setWidth 32 := by
    apply BitVec.eq_of_toNat_eq
    simp
  have high : BitVec.ofNat 32 (uint.toNat / 2 ^ 32) = (uint >>> 32).setWidth 32 := by
    apply BitVec.eq_of_toNat_eq
    simp [Nat.shiftRight_eq_div_pow]
  have fits := uint.isLt
  have parts : feedBits poly 64 uint.toNat crc =
      shifts poly (32 + 32) (crc ^^^ uint.setWidth 32) ^^^ shifts poly (32 + 0) ((uint >>> 32).setWidth 32) := by
    have halves : feedBits poly 64 uint.toNat crc = feedBits poly 32 (uint.toNat / 2 ^ 32) (feedBits poly 32 uint.toNat crc) :=
      feedBits_add 32 32 uint.toNat crc
    rw [halves, ← feedBits_mod 32 uint.toNat, feedBits_eq (Nat.mod_lt _ (by decide)) le_rfl, feedBits_eq (by omega) le_rfl, shifts_xor,
      low, high, ← shifts_add]
  rw [parts, shifts_bytes 32, shifts_bytes 0]
  simp only [crc64BitUint, tables.table_eq, byteAt_high, BitVec.xor_assoc]
  rfl

theorem crc8Bit_eq (crc : BitVec 32) (byte : UInt8) : crc8Bit tables crc byte = feedBits poly 8 byte.toNat crc := by
  have value : BitVec.ofNat 32 byte.toNat = byte.toBitVec.setWidth 32 := by
    apply BitVec.eq_of_toNat_eq
    simp
  have upper : (crc ^^^ byte.toBitVec.setWidth 32) >>> 8 = crc >>> 8 := by
    have none : byte.toBitVec.setWidth 32 >>> 8 = 0#32 := by
      apply BitVec.eq_of_getLsbD_eq
      intro index inside
      simp
    rw [BitVec.ushiftRight_xor_distrib, none, BitVec.xor_zero]
  have split := @shifts_split 32 poly 8 0 (crc ^^^ byte.toBitVec.setWidth 32)
  rw [feedBits_eq byte.toNat_lt (by decide), value]
  simp only [crc8Bit, tables.table_eq, byteAt]
  rw [upper] at split
  exact split.symm

theorem crc32cShiftChunk_eq (crc : BitVec 32) : crc32cShiftChunk tables crc = shifts poly (8 * parallelChunk) crc := by
  conv_rhs => rw [bytes_sum crc]
  simp only [shifts_xor, crc32cShiftChunk, tables.chunk_eq]
  have first : (byteAt crc 0).setWidth 32 <<< (8 * ((0 : Fin 4) : ℕ)) = (byteAt crc 0).setWidth 32 := BitVec.shiftLeft_zero _
  generalize 8 * parallelChunk = count
  rw [first]
  rfl

theorem leNumber_getD (data : Bytes) (place : ℕ) : leNumber data / 256 ^ place % 256 = (data.getD place 0).toNat := by
  induction data generalizing place with
  | nil => simp [leNumber]
  | cons byte rest ih =>
    have small := byte.toNat_lt
    cases place with
    | zero =>
      simp only [leNumber, pow_zero, Nat.div_one, List.getD_cons_zero]
      omega
    | succ place =>
      have high : (byte.toNat + 256 * leNumber rest) / 256 = leNumber rest := by omega
      rw [leNumber, pow_succ', ← Nat.div_div_eq_div_mul, high, ih, List.getD_cons_succ]

theorem leNumber_take (data : Bytes) (count : ℕ) : leNumber (data.take count) = leNumber data % 256 ^ count := by
  induction data generalizing count with
  | nil => simp [leNumber]
  | cons byte rest ih =>
    have small := byte.toNat_lt
    cases count with
    | zero => simp [leNumber, Nat.mod_one]
    | succ count =>
      have low : (byte.toNat + 256 * leNumber rest) % 256 = byte.toNat := by omega
      have high : (byte.toNat + 256 * leNumber rest) / 256 = leNumber rest := by omega
      rw [List.take_succ_cons, leNumber, leNumber, ih, pow_succ', Nat.mod_mul, low, high]

theorem load_toNat {width : ℕ} {data : Bytes} (enough : width ≤ data.length) : (load width data).toNat = leNumber (data.take width) := by
  have small := leNumber_lt (data.take width)
  rw [List.length_take, Nat.min_eq_left enough, show 256 = 2 ^ 8 from rfl, ← pow_mul] at small
  rw [load, BitVec.toNat_ofNat, Nat.mod_eq_of_lt small]

theorem crcWordHw_eq {width : ℕ} {data : Bytes} (crc : BitVec 32) (enough : width ≤ data.length) :
    crcWordHw crc (load width data) = feed poly crc (data.take width) := by
  rw [crcWordHw, load_toNat enough, feed_number, List.length_take, Nat.min_eq_left enough]

theorem crc64Bit_uint {data : Bytes} (crc : BitVec 32) (enough : 8 ≤ data.length) :
    crc64Bit tables crc data = crc64BitUint tables crc (load 8 data) := by
  have low : (load 8 data).setWidth 32 = load 4 data := by
    apply BitVec.eq_of_toNat_eq
    rw [BitVec.toNat_setWidth, load_toNat enough, load_toNat (by omega), leNumber_take, leNumber_take]
    omega
  have bytes : ∀ place < 8, byteAt (load 8 data) place = (data.getD place 0).toBitVec := by
    intro place inside
    have small : place < 8 := inside
    apply BitVec.eq_of_toNat_eq
    rw [byteAt, BitVec.toNat_setWidth, BitVec.toNat_ushiftRight, load_toNat enough, Nat.shiftRight_eq_div_pow, leNumber_take,
      UInt8.toNat_toBitVec, ← leNumber_getD]
    interval_cases place <;> omega
  simp only [crc64Bit, crc64BitUint, low, bytes 4 (by decide), bytes 5 (by decide), bytes 6 (by decide), bytes 7 (by decide)]

theorem crc64Bit_eq {data : Bytes} (crc : BitVec 32) (enough : 8 ≤ data.length) :
    crc64Bit tables crc data = feed poly crc (data.take 8) := by
  rw [crc64Bit_uint tables crc enough, crc64BitUint_eq]
  exact crcWordHw_eq crc enough

end Steps

section Loops

variable {step : BitVec 32 → Bytes → BitVec 32} {size : ℕ}

/-- A step feeds the first bytes. -/
def Feeds (step : BitVec 32 → Bytes → BitVec 32) (size : ℕ) : Prop :=
  ∀ (crc : BitVec 32) (data : Bytes), size ≤ data.length → step crc data = feed poly crc (data.take size)

theorem feed_take_drop (crc : BitVec 32) (data : Bytes) (count : ℕ) :
    feed poly (feed poly crc (data.take count)) (data.drop count) = feed poly crc data := by
  rw [← feed_append, List.take_append_drop]

theorem prologue_feed {each : BitVec 32 → UInt8 → BitVec 32} (feeds : ∀ crc byte, each crc byte = feedBits poly 8 byte.toNat crc)
    (align addr : ℕ) (crc : BitVec 32) (data : Bytes) :
    feed poly (prologue each align addr crc data).1 (prologue each align addr crc data).2 = feed poly crc data := by
  induction data generalizing addr crc with
  | nil => rfl
  | cons byte rest ih =>
    unfold prologue
    by_cases apart : addr % align ≠ 0
    · rw [if_pos apart, ih, feeds, feed_cons]
    · rw [if_neg apart]

theorem words_feed (feeds : Feeds step size) (crc : BitVec 32) (data : Bytes) :
    feed poly (words step size crc data).1 (words step size crc data).2 = feed poly crc data := by
  fun_induction words step size crc data with
  | case1 crc data enough ih => rw [ih, feeds crc data enough.2, feed_take_drop]
  | case2 => rfl

theorem unrolled_feeds (feeds : Feeds step size) (count : ℕ) : Feeds (unrolled step size count) (size * count) := by
  induction count with
  | zero =>
    intro crc data _
    rw [Nat.mul_zero, List.take_zero, feed_nil, unrolled]
  | succ count ih =>
    intro crc data enough
    rw [Nat.mul_succ] at enough
    have rest : size * count ≤ (data.drop size).length := by
      rw [List.length_drop]
      omega
    rw [unrolled, feeds crc data (by omega), ih _ _ rest, ← feed_append, ← List.take_add, Nat.mul_succ, Nat.add_comm]

/-- Each of the three remainders is that of its block. -/
theorem streams_feed (feeds : Feeds step size) (count : ℕ) (crc0 crc1 crc2 : BitVec 32) (data0 : Bytes)
    (enough : parallelChunk * 2 + size * count ≤ data0.length) :
    (streams step size count (crc0, crc1, crc2) data0).1 =
      (feed poly crc0 (data0.take (size * count)), feed poly crc1 ((data0.drop parallelChunk).take (size * count)),
        feed poly crc2 ((data0.drop (parallelChunk * 2)).take (size * count))) := by
  induction count generalizing crc0 crc1 crc2 data0 with
  | zero => simp only [streams, Nat.mul_zero, List.take_zero, feed_nil]
  | succ count ih =>
    have grows : size * (count + 1) = size * count + size := Nat.mul_succ size count
    rw [grows] at enough
    have more : parallelChunk * 2 + size * count ≤ (data0.drop size).length := by
      rw [List.length_drop]
      omega
    have part : ∀ (crc : BitVec 32) (offset : ℕ), offset + size ≤ data0.length →
        feed poly (step crc (data0.drop offset)) (((data0.drop size).drop offset).take (size * count)) =
          feed poly crc ((data0.drop offset).take (size * (count + 1))) := by
      intro crc offset inside
      have here : size ≤ (data0.drop offset).length := by
        rw [List.length_drop]
        omega
      rw [feeds crc _ here, ← feed_append, List.drop_drop, Nat.add_comm size offset, ← List.drop_drop, ← List.take_add, Nat.mul_succ,
        Nat.add_comm size]
    have first := part crc0 0 (by omega)
    rw [List.drop_zero, List.drop_zero] at first
    rw [streams, ih _ _ _ _ more, first, part crc1 parallelChunk (by omega), part crc2 (parallelChunk * 2) (by omega)]

/-- The remainders of three blocks are put together. -/
theorem chunks_feeds (tables : Tables) (feeds : Feeds step size) (divides : size * (parallelChunk / size) = parallelChunk) :
    Feeds (chunks tables step size) (parallelChunk * 3) := by
  intro crc data enough
  have apart := streams_feed feeds (parallelChunk / size) crc 0#32 0#32 data (by omega)
  rw [divides] at apart
  unfold chunks
  generalize streams step size (parallelChunk / size) (crc, 0#32, 0#32) data = result at apart ⊢
  obtain ⟨crcs, rest⟩ := result
  dsimp only at apart
  subst apart
  dsimp only
  have second : ((data.drop parallelChunk).take parallelChunk).length = parallelChunk := by
    rw [List.length_take, List.length_drop]
    omega
  have third : ((data.drop (parallelChunk * 2)).take parallelChunk).length = parallelChunk := by
    rw [List.length_take, List.length_drop]
    omega
  have whole : data.take (parallelChunk * 3) = data.take parallelChunk ++ (data.drop parallelChunk).take parallelChunk ++
      (data.drop (parallelChunk * 2)).take parallelChunk := by
    have twice : parallelChunk * 2 = parallelChunk + parallelChunk := Nat.mul_two _
    have thrice : parallelChunk * 3 = parallelChunk + parallelChunk + parallelChunk := rfl
    rw [twice, thrice, List.take_add, List.take_add]
  rw [whole, feed_join, third, feed_join, second, crc32cShiftChunk_eq, crc32cShiftChunk_eq]

theorem foldl_feed {each : BitVec 32 → UInt8 → BitVec 32} (feeds : ∀ crc byte, each crc byte = feedBits poly 8 byte.toNat crc)
    (crc : BitVec 32) (data : Bytes) : data.foldl each crc = feed poly crc data := by
  have same : each = fun crc byte => feedBits poly 8 byte.toNat crc := by
    funext crc byte
    exact feeds crc byte
  rw [same]
  rfl

end Loops

section Paths

variable (tables : Tables) (addr : ℕ) (crc : BitVec 32) (data : Bytes)

theorem crc32cSw_eq : crc32cSw tables addr crc data = crc32c crc data := by
  have start := prologue_feed (crc8Bit_eq tables) 4 addr crc data
  unfold crc32cSw
  dsimp only
  generalize prologue (crc8Bit tables) 4 addr crc data = aligned at start ⊢
  have blocks := words_feed (unrolled_feeds (fun crc data enough => crc64Bit_eq tables crc enough) 8 : Feeds _ 64) aligned.1 aligned.2
  generalize words (unrolled (crc64Bit tables) 8 8) 64 aligned.1 aligned.2 = apart at blocks ⊢
  have rest := words_feed (fun crc data enough => crc64Bit_eq tables crc enough : Feeds (crc64Bit tables) 8) apart.1 apart.2
  rw [foldl_feed (crc8Bit_eq tables), rest, blocks, start]
  rfl

theorem crc32cHw_eq (word : WordSize) : crc32cHw tables word addr crc data = crc32c crc data := by
  have feeds : Feeds (fun crc data => crcWordHw crc (load word.size data)) word.size := fun crc data enough => crcWordHw_eq crc enough
  have divides : word.size * (parallelChunk / word.size) = parallelChunk := by cases word <;> rfl
  have bytes : ∀ crc byte, crc8BitHw crc byte = feedBits poly 8 byte.toNat crc := fun _ _ => rfl
  have start := prologue_feed bytes word.size addr crc data
  unfold crc32cHw
  dsimp only
  generalize prologue crc8BitHw word.size addr crc data = aligned at start ⊢
  have blocks := words_feed (chunks_feeds tables feeds divides) aligned.1 aligned.2
  generalize words (chunks tables (fun crc data => crcWordHw crc (load word.size data)) word.size) (parallelChunk * 3) aligned.1 aligned.2 =
    apart at blocks ⊢
  have fours := words_feed (unrolled_feeds feeds 4) apart.1 apart.2
  generalize words (unrolled (fun crc data => crcWordHw crc (load word.size data)) word.size 4) (word.size * 4) apart.1 apart.2 =
    unrolled at fours ⊢
  have rest := words_feed feeds unrolled.1 unrolled.2
  rw [foldl_feed bytes, rest, fours, blocks, start]
  rfl

theorem pcrc32cCompute_eq (word : WordSize) (hasHwCrc : Bool) (crcHashw : ℕ) :
    (pcrc32cCompute tables word hasHwCrc crcHashw addr crc data).1 = crc32c crc data := by
  unfold pcrc32cCompute
  dsimp only
  split
  · exact crc32cHw_eq tables addr crc data word
  · split
    · exact crc32cSw_eq tables addr crc data
    · split
      · exact crc32cHw_eq tables addr crc data word
      · exact crc32cSw_eq tables addr crc data

/-- All paths give the checksum, wherever the buffer is, and a text may be given in two parts. -/
theorem paths_agree (word : WordSize) (hasHwCrc : Bool) (crcHashw : ℕ) :
    crc32cHw tables word addr crc data = crc32c crc data ∧ crc32cSw tables addr crc data = crc32c crc data ∧
      (pcrc32cCompute tables word hasHwCrc crcHashw addr crc data).1 = crc32c crc data ∧
      ∀ (next : ℕ) (more : Bytes),
        (pcrc32cCompute tables word hasHwCrc (pcrc32cCompute tables word hasHwCrc crcHashw addr crc data).2 next
          (pcrc32cCompute tables word hasHwCrc crcHashw addr crc data).1 more).1 =
          (pcrc32cCompute tables word hasHwCrc crcHashw addr crc (data ++ more)).1 := by
  refine ⟨crc32cHw_eq tables addr crc data word, crc32cSw_eq tables addr crc data,
    pcrc32cCompute_eq tables addr crc data word hasHwCrc crcHashw, fun next more => ?_⟩
  rw [pcrc32cCompute_eq, pcrc32cCompute_eq, pcrc32cCompute_eq]
  exact (feed_append data more).symm

end Paths

end Pclsync.Proofs.Crc32c
