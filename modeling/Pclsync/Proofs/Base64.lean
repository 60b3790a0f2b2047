import Pclsync.Crypto.Base64

/-! The codec in terms of numbers of six bits. The decoder has written three bytes for every four of them, and the byte that
it fills is the last one that is written. -/

namespace Pclsync.Proofs.Base64
open Pclsync.Crypto.Base64 Library

section Bits

/-- What holds of the first numbers holds of the small bytes. -/
theorem of_small (holds : UInt8 → Prop) (bound : ℕ) (all : ∀ n < bound, holds (UInt8.ofNat n)) {b : UInt8} (small : b.toNat < bound) :
    holds b := by
  have found := all b.toNat small
  rwa [UInt8.ofNat_toNat] at found

theorem of_byte (holds : UInt8 → Prop) (all : ∀ n < 256, holds (UInt8.ofNat n)) (b : UInt8) : holds b := of_small holds _ all b.toNat_lt

/-- The parts that a byte is cut into. -/
structure Cut (b : UInt8) : Prop where
  two : (b >>> 2) <<< 2 ||| (b &&& 0x03) = b
  four : (b >>> 4) <<< 4 ||| (b &&& 0x0f) = b
  six : (b >>> 6) <<< 6 ||| (b &&& 0x3f) = b
  high2 : (b >>> 2).toNat < 64
  high4 : (b >>> 4).toNat < 16
  high6 : (b >>> 6).toNat < 4
  low2 : (b &&& 0x03).toNat < 4
  low4 : (b &&& 0x0f).toNat < 16
  low6 : (b &&& 0x3f).toNat < 64

theorem cut (b : UInt8) : Cut b where
  two := of_byte (fun b => (b >>> 2) <<< 2 ||| (b &&& 0x03) = b) (by decide +kernel) b
  four := of_byte (fun b => (b >>> 4) <<< 4 ||| (b &&& 0x0f) = b) (by decide +kernel) b
  six := of_byte (fun b => (b >>> 6) <<< 6 ||| (b &&& 0x3f) = b) (by decide +kernel) b
  high2 := of_byte (fun b => (b >>> 2).toNat < 64) (by decide +kernel) b
  high4 := of_byte (fun b => (b >>> 4).toNat < 16) (by decide +kernel) b
  high6 := of_byte (fun b => (b >>> 6).toNat < 4) (by decide +kernel) b
  low2 := of_byte (fun b => (b &&& 0x03).toNat < 4) (by decide +kernel) b
  low4 := of_byte (fun b => (b &&& 0x0f).toNat < 16) (by decide +kernel) b
  low6 := of_byte (fun b => (b &&& 0x3f).toNat < 64) (by decide +kernel) b

/-- A number of six bits that is put together from two parts. -/
structure Joined (high low shift mask : UInt8) : Prop where
  upper : (high <<< shift + low) >>> shift = high
  lower : (high <<< shift + low) &&& mask = low
  small : (high <<< shift + low).toNat < 64

theorem of_two (holds : UInt8 → UInt8 → Prop) (bound other : ℕ) (all : ∀ n < bound, ∀ m < other, holds (UInt8.ofNat n) (UInt8.ofNat m))
    {high low : UInt8} (first : high.toNat < bound) (second : low.toNat < other) : holds high low :=
  of_small (holds high) other (fun m less => of_small (fun high => holds high (UInt8.ofNat m)) bound (fun n fewer => all n fewer m less) first) second

theorem joined_four {high low : UInt8} (first : high.toNat < 4) (second : low.toNat < 16) : Joined high low 4 0x0f where
  upper := of_two (fun high low => (high <<< 4 + low) >>> 4 = high) 4 16 (by decide +kernel) first second
  lower := of_two (fun high low => (high <<< 4 + low) &&& 0x0f = low) 4 16 (by decide +kernel) first second
  small := of_two (fun high low => (high <<< 4 + low).toNat < 64) 4 16 (by decide +kernel) first second

theorem joined_two {high low : UInt8} (first : high.toNat < 16) (second : low.toNat < 4) : Joined high low 2 0x03 where
  upper := of_two (fun high low => (high <<< 2 + low) >>> 2 = high) 16 4 (by decide +kernel) first second
  lower := of_two (fun high low => (high <<< 2 + low) &&& 0x03 = low) 16 4 (by decide +kernel) first second
  small := of_two (fun high low => (high <<< 2 + low).toNat < 64) 16 4 (by decide +kernel) first second

/-- The four numbers of a group. -/
def first (b0 : UInt8) : UInt8 := b0 >>> 2
def second (b0 b1 : UInt8) : UInt8 := ((b0 &&& 0x03) <<< 4) + (b1 >>> 4)
def third (b1 b2 : UInt8) : UInt8 := ((b1 &&& 0x0f) <<< 2) + (b2 >>> 6)
def fourth (b2 : UInt8) : UInt8 := b2 &&& 0x3f

variable (b0 b1 b2 : UInt8)

theorem second_joined : Joined (b0 &&& 0x03) (b1 >>> 4) 4 0x0f := joined_four (cut b0).low2 (cut b1).high4
theorem third_joined : Joined (b1 &&& 0x0f) (b2 >>> 6) 2 0x03 := joined_two (cut b1).low4 (cut b2).high6

/-- What the decoder puts together. -/
theorem byte_first : first b0 <<< 2 ||| second b0 b1 >>> 4 = b0 := by
  rw [first, second, (second_joined b0 b1).upper, (cut b0).two]

theorem byte_second : (second b0 b1 &&& 0x0f) <<< 4 ||| third b1 b2 >>> 2 = b1 := by
  rw [second, third, (second_joined b0 b1).lower, (third_joined b1 b2).upper, (cut b1).four]

theorem byte_third : (third b1 b2 &&& 0x03) <<< 6 ||| fourth b2 = b2 := by
  rw [third, fourth, (third_joined b1 b2).lower, (cut b2).six]

end Bits

/-- The numbers that are encoded. What is missing of the last group counts as zeros. -/
def sextets : Bytes → List UInt8
  | b0 :: b1 :: b2 :: rest => first b0 :: second b0 b1 :: third b1 b2 :: fourth b2 :: sextets rest
  | [b0, b1] => [first b0, second b0 b1, third b1 0]
  | [b0] => [first b0, second b0 0]
  | [] => []

example (str : Bytes) : (sextets str).length ≤ 2 * str.length := by
  fun_induction sextets str <;> simp_all
  omega

theorem sextets_small (str : Bytes) : ∀ value ∈ sextets str, value.toNat < 64 := by
  induction str using sextets.induct with
  | case1 b0 b1 b2 rest ih =>
    rw [sextets]
    simp only [List.forall_mem_cons]
    exact ⟨(cut b0).high2, (second_joined b0 b1).small, (third_joined b1 b2).small, (cut b2).low6, ih⟩
  | case2 b0 b1 =>
    rw [sextets]
    simp only [List.forall_mem_cons]
    exact ⟨(cut b0).high2, (second_joined b0 b1).small, (third_joined b1 0).small, by simp⟩
  | case3 b0 =>
    rw [sextets]
    simp only [List.forall_mem_cons]
    exact ⟨(cut b0).high2, (second_joined b0 0).small, by simp⟩
  | case4 =>
    rw [sextets]
    simp

theorem length_sextets (str : Bytes) : (sextets str).length ≤ (str.length + 2) / 3 * 4 := by
  induction str using sextets.induct with
  | case1 b0 b1 b2 rest ih =>
    rw [sextets]
    simp only [List.length_cons]
    omega
  | case2 b0 b1 => rw [sextets]; simp
  | case3 b0 => rw [sextets]; simp
  | case4 => rw [sextets]; simp

section Alphabet

variable {value : UInt8}

theorem base64Char_mem (small : value.toNat < 64) : base64Char value ∈ base64Table :=
  of_small (fun value => base64Char value ∈ base64Table) 64 (by decide +kernel) small

theorem reverse_char (small : value.toNat < 64) : base64ReverseTable.getD (base64Char value).toNat (-2) = value.toNat :=
  of_small (fun value => base64ReverseTable.getD (base64Char value).toNat (-2) = value.toNat) 64 (by decide +kernel) small

end Alphabet

section Encoder

variable {size : ℕ}

/-- The loop and what is written after it. -/
theorem encode_spec (str : Bytes) (p : Buffer size) (room : p.bytes.length + (sextets str).length ≤ size) :
    ∃ after, (base64EncodeLoop str p >>= fun (current, p) => base64EncodeRest current p) = .ok after ∧
      after.bytes = p.bytes ++ (sextets str).map base64Char := by
  induction str using sextets.induct generalizing p with
  | case1 b0 b1 b2 rest ih =>
    rw [sextets] at room ⊢
    simp only [List.length_cons] at room
    obtain ⟨next, put, written⟩ := Buffer.put_ok p
      [base64Char (first b0), base64Char (second b0 b1), base64Char (third b1 b2), base64Char (fourth b2)] (by simp; omega)
    obtain ⟨after, run, bytes⟩ := ih next (by
      rw [written, List.length_append]
      simp only [List.length_cons, List.length_nil]
      omega)
    refine ⟨after, ?_, ?_⟩
    · rw [base64EncodeLoop]
      simp only [first, second, third, fourth] at put
      rw [put]
      exact run
    · rw [bytes, written, List.append_assoc]
      rfl
  | case2 b0 b1 =>
    rw [sextets] at room ⊢
    obtain ⟨after, put, written⟩ := Buffer.put_ok p
      [base64Char (first b0), base64Char (second b0 b1), base64Char (third b1 0)] room
    refine ⟨after, ?_, written⟩
    have last : third b1 0 = (b1 &&& 0x0f) <<< 2 := by
      rw [third, show (0 : UInt8) >>> 6 = 0 by rfl, UInt8.add_zero]
    simp only [first, second, last] at put
    exact put
  | case3 b0 =>
    rw [sextets] at room ⊢
    obtain ⟨after, put, written⟩ := Buffer.put_ok p [base64Char (first b0), base64Char (second b0 0)] room
    refine ⟨after, ?_, written⟩
    have last : second b0 0 = (b0 &&& 0x03) <<< 4 := by
      rw [second, show (0 : UInt8) >>> 4 = 0 by rfl, UInt8.add_zero]
    simp only [first, last] at put
    exact put
  | case4 => exact ⟨p, rfl, by rw [sextets, List.map_nil, List.append_nil]⟩

theorem base64Encode_eq (str : Bytes) :
    base64Encode str = .ok ((sextets str).map base64Char ++ [0], (sextets str).length) := by
  have few := length_sextets str
  obtain ⟨after, run, bytes⟩ := encode_spec str (Buffer.malloc ((str.length + 2) / 3 * 4 + 1)) (by
    rw [Buffer.bytes_malloc, List.length_nil]
    omega)
  rw [Buffer.bytes_malloc, List.nil_append] at bytes
  obtain ⟨last, put, written⟩ := Buffer.put_ok after [0] (by
    rw [bytes, List.length_map, List.length_singleton]
    omega)
  cases looped : base64EncodeLoop str (Buffer.malloc ((str.length + 2) / 3 * 4 + 1)) with
  | error fault =>
    rw [looped] at run
    cases run
  | ok pair =>
    rw [looped, ok_bind] at run
    rw [base64Encode, looped]
    simp only [ok_bind, run, put, written, bytes, List.length_map]
    rfl

end Encoder

section Decoder

variable {i spare : ℕ} {written : Bytes} {ch part : UInt8} {rest : Bytes} {result : Cells}

theorem char_zero (phase : i % 4 = 0) :
    base64DecodeChar ch i written.length (.filled written (spare + 1)) = .ok (written.length, .filled (written ++ [ch <<< 2]) spare) := by
  simp only [base64DecodeChar, phase, Cells.store_next, ok_bind]
  rfl

/-- The byte is filled, and the next one in part. -/
theorem store_both (byte next : UInt8) : (do
    let result ← (Cells.filled (written ++ [part]) (spare + 1)).store written.length byte
    let result ← result.store (written.length + 1) next
    return (written.length + 1, result)) = (.ok (written.length + 1, .filled (written ++ [byte] ++ [next]) spare) : Checked (ℕ × Cells)) := by
  have place : written.length + 1 = (written ++ [byte]).length := by rw [List.length_append, List.length_singleton]
  rw [Cells.store_last, ok_bind, place, Cells.store_next, ok_bind]
  rfl

theorem char_one (phase : i % 4 = 1) : base64DecodeChar ch i written.length (.filled (written ++ [part]) (spare + 1)) =
    .ok (written.length + 1, .filled (written ++ [part ||| ch >>> 4] ++ [(ch &&& 0x0f) <<< 4]) spare) := by
  simp only [base64DecodeChar, phase, Cells.load_last, ok_bind]
  exact store_both _ _

theorem char_two (phase : i % 4 = 2) : base64DecodeChar ch i written.length (.filled (written ++ [part]) (spare + 1)) =
    .ok (written.length + 1, .filled (written ++ [part ||| ch >>> 2] ++ [(ch &&& 0x03) <<< 6]) spare) := by
  simp only [base64DecodeChar, phase, Cells.load_last, ok_bind]
  exact store_both _ _

theorem char_three (phase : i % 4 = 3) : base64DecodeChar ch i written.length (.filled (written ++ [part]) spare) =
    .ok (written.length + 1, .filled (written ++ [part ||| ch]) spare) := by
  simp only [base64DecodeChar, phase, Cells.load_last, ok_bind, Cells.store_last]
  rfl

/-- After `i` characters the block has three bytes for every four of them, and the one that is filled in part. -/
structure Reached (size i j : ℕ) (result : Cells) (bytes : Bytes) (spare : ℕ) : Prop where
  block : result = .filled bytes spare
  size : bytes.length + spare = size
  index : j = 3 * i / 4
  whole : i % 4 = 0 → bytes.length = j
  part : i % 4 ≠ 0 → bytes.length = j + 1

theorem index_next (start : i % 4 ≠ 0) : 3 * (i + 1) / 4 = 3 * i / 4 + 1 := by
  have phase : i % 4 = 1 ∨ i % 4 = 2 ∨ i % 4 = 3 := by omega
  have parts : i = 4 * (i / 4) + i % 4 := (Nat.div_add_mod i 4).symm
  obtain one | two | three := phase <;> omega

theorem decodeChar_reached (ch : UInt8) {size j : ℕ} {bytes : Bytes} (reached : Reached size i j result bytes spare) (room : 3 * (i + 1) / 4 < size) :
    ∃ after last left, base64DecodeChar ch i j result = .ok (3 * (i + 1) / 4, after) ∧ Reached size (i + 1) (3 * (i + 1) / 4) after last left := by
  obtain ⟨rfl, sized, index, whole, partly⟩ := reached
  by_cases start : i % 4 = 0
  · obtain rfl := whole start
    obtain ⟨left, rfl⟩ : ∃ left, spare = left + 1 := ⟨spare - 1, by omega⟩
    refine ⟨_, bytes ++ [ch <<< 2], left, ?_, rfl, ?_, rfl, ?_, ?_⟩
    · rw [char_zero start]
      congr 2
      omega
    all_goals
      simp only [List.length_append, List.length_singleton]
      omega
  · obtain ⟨written, part, rfl⟩ : ∃ written part, bytes = written ++ [part] := by
      rcases List.eq_nil_or_concat bytes with rfl | ⟨written, part, rfl⟩
      · have := partly start
        rw [List.length_nil] at this
        omega
      · exact ⟨written, part, List.concat_eq_append⟩
    have length := partly start
    rw [List.length_append, List.length_singleton] at length sized
    obtain rfl : j = written.length := by omega
    have moved := index_next start
    clear whole partly
    by_cases last : i % 4 = 3
    · refine ⟨_, written ++ [part ||| ch], spare, ?_, rfl, ?_, rfl, ?_, ?_⟩
      · rw [char_three last]
        congr 2
        omega
      all_goals
        simp only [List.length_append, List.length_singleton]
        omega
    · obtain ⟨left, rfl⟩ : ∃ left, spare = left + 1 := ⟨spare - 1, by omega⟩
      have middle : ∃ byte next, base64DecodeChar ch i written.length (.filled (written ++ [part]) (left + 1)) =
          .ok (written.length + 1, .filled (written ++ [byte] ++ [next]) left) := by
        rcases (by omega : i % 4 = 1 ∨ i % 4 = 2) with one | two
        · exact ⟨_, _, char_one one⟩
        · exact ⟨_, _, char_two two⟩
      obtain ⟨byte, next, stored⟩ := middle
      refine ⟨_, written ++ [byte] ++ [next], left, ?_, rfl, ?_, rfl, ?_, ?_⟩
      · rw [stored]
        congr 2
        omega
      all_goals
        simp only [List.length_append, List.length_singleton]
        omega

theorem decodeLoop_reached {size j : ℕ} {bytes : Bytes} (str : Bytes) (reached : Reached size i j result bytes spare)
    (room : 3 * (i + str.length) / 4 < size) :
    base64DecodeLoop str i j result = .ok none ∨
      ∃ count last after end' left, base64DecodeLoop str i j result = .ok (some (last, after)) ∧ Reached size count last after end' left ∧
        count ≤ i + str.length := by
  induction str generalizing i j result bytes spare with
  | nil => exact Or.inr ⟨i, j, result, bytes, spare, rfl, reached, Nat.le_refl _⟩
  | cons byte rest ih =>
    rw [List.length_cons] at room
    rw [base64DecodeLoop]
    dsimp only
    split
    next =>
      rcases ih reached (by omega) with none | ⟨count, last, after, end', left, run, kept, few⟩
      · exact Or.inl none
      · exact Or.inr ⟨count, last, after, end', left, run, kept, by rw [List.length_cons]; omega⟩
    next =>
      split
      next => exact Or.inl rfl
      next =>
        obtain ⟨after, bytes, left, stored, next⟩ := decodeChar_reached (UInt8.ofNat (base64ReverseTable.getD byte.toNat (-2)).toNat)
          reached (by omega)
        rw [stored, ok_bind]
        rcases ih next (by omega) with none | ⟨count, last, after, end', left, run, kept, few⟩
        · exact Or.inl none
        · exact Or.inr ⟨count, last, after, end', left, run, kept, by rw [List.length_cons]; omega⟩

/-- A character of the alphabet. -/
theorem decodeLoop_char (value : UInt8) {j : ℕ} (small : value.toNat < 64) : base64DecodeLoop (base64Char value :: rest) i j result =
    base64DecodeChar value i j result >>= fun (j, result) => base64DecodeLoop rest (i + 1) j result := by
  rw [base64DecodeLoop]
  dsimp only
  rw [reverse_char small, if_neg (by omega), if_neg (by omega), Int.toNat_natCast, UInt8.ofNat_toNat]

theorem length_snoc (bytes : Bytes) (byte : UInt8) : bytes.length + 1 = (bytes ++ [byte]).length := by
  rw [List.length_append, List.length_singleton]

/-- The first byte of a group is whole after two characters. -/
theorem decode_two (b0 b1 : UInt8) (start : i % 4 = 0) :
    base64DecodeLoop (base64Char (first b0) :: base64Char (second b0 b1) :: rest) i written.length (.filled written (spare + 2)) =
      base64DecodeLoop rest (i + 2) (written ++ [b0]).length (.filled (written ++ [b0] ++ [(second b0 b1 &&& 0x0f) <<< 4]) spare) := by
  rw [decodeLoop_char (first b0) (cut b0).high2, char_zero start, ok_bind]
  dsimp only
  rw [decodeLoop_char (second b0 b1) (second_joined b0 b1).small, char_one (by omega), ok_bind, byte_first]
  dsimp only
  rw [length_snoc written b0]

/-- The second one is whole after three. -/
theorem decode_three (b0 b1 b2 : UInt8) (start : i % 4 = 0) :
    base64DecodeLoop (base64Char (first b0) :: base64Char (second b0 b1) :: base64Char (third b1 b2) :: rest) i written.length
        (.filled written (spare + 3)) =
      base64DecodeLoop rest (i + 3) (written ++ [b0] ++ [b1]).length
        (.filled (written ++ [b0] ++ [b1] ++ [(third b1 b2 &&& 0x03) <<< 6]) spare) := by
  rw [decode_two b0 b1 start, decodeLoop_char (third b1 b2) (third_joined b1 b2).small, char_two (by omega), ok_bind, byte_second]
  dsimp only
  rw [length_snoc (written ++ [b0]) b1]

/-- A group gives its bytes back. -/
theorem decode_sextets (str : Bytes) (start : i % 4 = 0) (room : str.length < spare) :
    ∃ parts left, base64DecodeLoop ((sextets str).map base64Char) i written.length (.filled written spare) =
      .ok (some ((written ++ str).length, .filled (written ++ str ++ parts) left)) := by
  induction str using sextets.induct generalizing i written spare with
  | case1 b0 b1 b2 tail ih =>
    simp only [List.length_cons] at room
    obtain ⟨more, rfl⟩ : ∃ more, spare = more + 3 := ⟨spare - 3, by omega⟩
    obtain ⟨parts, left, run⟩ := @ih (i + 3 + 1) more (written ++ [b0] ++ [b1] ++ [b2]) (by omega) (by omega)
    refine ⟨parts, left, ?_⟩
    rw [sextets]
    simp only [List.map_cons]
    rw [decode_three b0 b1 b2 start, decodeLoop_char (fourth b2) (cut b2).low6, char_three (by omega), ok_bind, byte_third]
    dsimp only
    rw [length_snoc _ b2, run]
    simp only [List.append_assoc, List.singleton_append, List.cons_append, List.nil_append]
  | case2 b0 b1 =>
    simp only [List.length_cons, List.length_nil] at room
    obtain ⟨more, rfl⟩ : ∃ more, spare = more + 3 := ⟨spare - 3, by omega⟩
    refine ⟨[(third b1 0 &&& 0x03) <<< 6], more, ?_⟩
    rw [sextets]
    simp only [List.map_cons, List.map_nil]
    rw [decode_three b0 b1 0 start, base64DecodeLoop, List.append_assoc written [b0] [b1]]
    rfl
  | case3 b0 =>
    simp only [List.length_cons, List.length_nil] at room
    obtain ⟨more, rfl⟩ : ∃ more, spare = more + 2 := ⟨spare - 2, by omega⟩
    refine ⟨[(second b0 0 &&& 0x0f) <<< 4], more, ?_⟩
    rw [sextets]
    simp only [List.map_cons, List.map_nil]
    rw [decode_two b0 0 start, base64DecodeLoop]
    rfl
  | case4 =>
    refine ⟨[], spare, ?_⟩
    rw [sextets, List.map_nil, base64DecodeLoop, List.append_nil, List.append_nil]
    rfl

/-- The terminator is put behind the bytes that count. -/
theorem store_end {bytes : Bytes} {count size : ℕ} (within : count ≤ bytes.length) (sized : bytes.length + spare = size) (room : count < size) :
    ∃ after, (Cells.filled bytes spare).store count 0 = .ok after ∧ after.take count = (bytes.take count).map some ∧ after.length = size := by
  refine ⟨(Cells.filled bytes spare).set count (some 0), ?_, ?_, ?_⟩
  · rw [Cells.store, if_pos (by rw [Cells.length_filled]; omega)]
  · rw [List.take_set_of_le (Nat.le_refl count), Cells.filled, List.take_append_of_le_length (by rw [List.length_map]; exact within), List.map_take]
  · rw [List.length_set, Cells.length_filled, sized]

/-- What the decoder gives stays in its block and is written. -/
theorem base64Decode_safe (str : Bytes) : base64Decode str = .ok none ∨
    ∃ result, ∃ bytes : Bytes, base64Decode str = .ok (some (result, bytes.length)) ∧ result.take bytes.length = bytes.map some ∧
      result.length = (str.length + 3) / 4 * 3 + 1 := by
  have begins : Reached ((str.length + 3) / 4 * 3 + 1) 0 0 (Cells.malloc ((str.length + 3) / 4 * 3 + 1)) [] ((str.length + 3) / 4 * 3 + 1) :=
    ⟨Cells.malloc_eq _, Nat.zero_add _, rfl, fun _ => rfl, fun phase => absurd rfl phase⟩
  obtain none | ⟨count, last, after, bytes, left, run, ⟨rfl, sized, index, whole, partly⟩, few⟩ := decodeLoop_reached str begins (by omega)
  · left
    rw [base64Decode, none]
    rfl
  · right
    have within : last ≤ bytes.length := by
      by_cases phase : count % 4 = 0
      · exact (whole phase).ge
      · have := partly phase
        omega
    obtain ⟨result, stored, front, length⟩ := store_end within sized (by omega)
    have counted : (bytes.take last).length = last := by rw [List.length_take, Nat.min_eq_left within]
    refine ⟨result, bytes.take last, ?_, ?_, length⟩
    · rw [base64Decode, run, ok_bind]
      dsimp only
      rw [stored, counted]
      rfl
    · rw [counted, front]

theorem length_decoded (str : Bytes) : str.length < ((sextets str).length + 3) / 4 * 3 + 1 := by
  induction str using sextets.induct with
  | case1 b0 b1 b2 rest ih =>
    rw [sextets]
    simp only [List.length_cons]
    omega
  | case2 b0 b1 => rw [sextets]; simp
  | case3 b0 => rw [sextets]; simp
  | case4 => rw [sextets]; simp

theorem base64Decode_sextets (str : Bytes) : ∃ result, base64Decode ((sextets str).map base64Char) = .ok (some (result, str.length)) ∧
    result.take str.length = str.map some := by
  obtain ⟨parts, left, run⟩ := @decode_sextets 0 (((sextets str).length + 3) / 4 * 3 + 1) [] str rfl (length_decoded str)
  have safe := base64Decode_safe ((sextets str).map base64Char)
  rw [base64Decode, List.length_map, Cells.malloc_eq] at safe ⊢
  rw [List.length_nil] at run
  rw [run, ok_bind] at safe ⊢
  dsimp only at safe ⊢
  rw [List.nil_append] at safe ⊢
  cases stored : (Cells.filled (str ++ parts) left).store str.length 0 with
  | error fault =>
    rw [stored] at safe
    obtain none | ⟨result, bytes, ran, _⟩ := safe
    · cases none
    · cases ran
  | ok result =>
    refine ⟨result, rfl, ?_⟩
    rw [Cells.store] at stored
    split at stored
    · cases stored
      rw [List.take_set_of_le (Nat.le_refl _), Cells.filled, List.take_append_of_le_length (by simp), ← List.map_take, List.take_left]
    · cases stored

end Decoder

theorem sextets_injective {str other : Bytes} (same : (sextets str).map base64Char = (sextets other).map base64Char) : str = other := by
  obtain ⟨result, decoded, bytes⟩ := base64Decode_sextets str
  obtain ⟨also, again, others⟩ := base64Decode_sextets other
  rw [same, again] at decoded
  injection decoded with decoded
  injection decoded with decoded
  injection decoded with results lengths
  rw [results, lengths] at others
  exact (List.map_inj_right fun _ _ => Option.some.inj).mp (bytes.symm.trans others)

/-- What is encoded is decoded again, and no input makes the decoder leave its block or count a byte that is not written. -/
theorem codec :
    (∃ text : Bytes → Bytes, text.Injective ∧ ∀ str, base64Encode str = .ok (text str ++ [0], (text str).length) ∧
      (∀ byte ∈ text str, byte ∈ base64Table) ∧
        ∃ result, base64Decode (text str) = .ok (some (result, str.length)) ∧ result.take str.length = str.map some) ∧
    ∀ str, base64Decode str = .ok none ∨ ∃ result, ∃ bytes : Bytes, base64Decode str = .ok (some (result, bytes.length)) ∧
      result.take bytes.length = bytes.map some ∧ result.length = (str.length + 3) / 4 * 3 + 1 := by
  refine ⟨⟨fun str => (sextets str).map base64Char, fun _ _ => sextets_injective, fun str => ⟨?_, ?_, base64Decode_sextets str⟩⟩, base64Decode_safe⟩
  · rw [base64Encode_eq, List.length_map]
  · intro byte member
    obtain ⟨value, inside, rfl⟩ := List.mem_map.mp member
    exact base64Char_mem (sextets_small str value inside)

end Pclsync.Proofs.Base64
