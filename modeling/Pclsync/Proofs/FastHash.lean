import Pclsync.Hash.FastHash
import Pclsync.Proofs.Crc32c

/-! A hash does not depend on how its input was cut into pieces, nor on the machine that computes it. What counts of
the buffer is the part that is filled. -/

namespace Pclsync.Proofs.FastHash
open Library Library.Crc Hash
open Pclsync.Proofs.Crc32c (crc64BitUint_eq)

section Checksum

/-- The checksum of a word on any machine. -/
def wordCrc (crc data : Word) : Word := (feedBits poly 64 data.toNat (crc.setWidth 32)).setWidth 64

theorem machine_crc (machine : Machine) (tables : Tables) : machine.crc tables = wordCrc := by
  funext crc data
  unfold Machine.crc
  cases machine.hardware with
  | false => simp only [Bool.false_eq_true, ite_false, fhCrc32_64sw, crc64BitUint_eq, wordCrc]
  | true =>
    simp only [ite_true]
    cases machine.word with
    | eight => rfl
    | four =>
      have low : (data.setWidth 32).toNat = data.toNat % 2 ^ 32 := BitVec.toNat_setWidth 32 data
      have high : ((data >>> 32).setWidth 32).toNat = data.toNat / 2 ^ 32 := by
        have fits := data.isLt
        rw [BitVec.toNat_setWidth, BitVec.toNat_ushiftRight, Nat.shiftRight_eq_div_pow, Nat.mod_eq_of_lt (by omega)]
      have halves : feedBits poly 64 data.toNat (crc.setWidth 32) =
          feedBits poly 32 (data.toNat / 2 ^ 32) (feedBits poly 32 data.toNat (crc.setWidth 32)) := feedBits_add 32 32 data.toNat _
      rw [fhCrc32_64hw, crcWordHw, crcWordHw, low, high, feedBits_mod, wordCrc, halves]

end Checksum

section Buffer

variable {buff data : Bytes} {place len : ℕ}

theorem length_copyTo (inside : place + data.length ≤ buff.length) : (copyTo buff place data).length = buff.length := by
  simp only [copyTo, List.length_append, List.length_take, List.length_drop]
  omega

theorem take_copyTo (inside : place ≤ buff.length) : (copyTo buff place data).take (place + data.length) = buff.take place ++ data := by
  have front : (buff.take place ++ data).length = place + data.length := by
    rw [List.length_append, List.length_take, Nat.min_eq_left inside]
  unfold copyTo
  exact List.take_left' front

@[simp] theorem length_setFilled : (setFilled buff len).length = buff.length := List.length_set

theorem filled_setFilled (size : buff.length = blockLen) (small : len < blockLen) : filled (setFilled buff len) = len := by
  have inside : blockLen - 1 < (setFilled buff len).length := by
    rw [length_setFilled, size]
    decide
  rw [filled, List.getD_eq_getElem _ _ inside]
  simp only [setFilled, List.getElem_set_self, UInt8.toNat_ofNat']
  exact Nat.mod_eq_of_lt (lt_trans small (by decide))

theorem take_setFilled (short : place < blockLen) : (setFilled buff len).take place = buff.take place := by
  unfold setFilled
  exact List.take_set_of_le (by omega)

theorem filled_copyTo (size : buff.length = blockLen) (inside : place + data.length < blockLen) : filled (copyTo buff place data) = filled buff := by
  have same : (copyTo buff place data)[blockLen - 1]? = buff[blockLen - 1]? := by
    have front : (buff.take place ++ data).length = place + data.length := by
      rw [List.length_append, List.length_take, Nat.min_eq_left (by omega)]
    rw [copyTo, List.getElem?_append_right (by omega), front, List.getElem?_drop]
    congr 1
    omega
  rw [filled, filled, List.getD_eq_getElem?_getD, List.getD_eq_getElem?_getD, same]

end Buffer

section Blocks

variable {crc : Word → Word → Word} {state : HashState}

theorem roundGen_congr {one two : ℕ → Word} (same : ∀ place < 8, one place = two place) : roundGen crc one state = roundGen crc two state := by
  unfold roundGen
  rw [same 0 (by decide), same 1 (by decide), same 2 (by decide), same 3 (by decide), same 4 (by decide), same 5 (by decide),
    same 6 (by decide), same 7 (by decide)]

/-- A round reads a block. -/
theorem roundGen_take (data : Bytes) : roundGen crc (fhLoad64 (data.take blockLen)) state = roundGen crc (fhLoad64 data) state := by
  refine roundGen_congr fun place inside => ?_
  rw [fhLoad64, fhLoad64, load, load, List.drop_take, List.take_take, Nat.min_eq_left]
  change 8 ≤ 64 - 8 * place
  omega

theorem blocks_short {data : Bytes} (short : data.length < blockLen) : blocks crc state data = (state, data) := by
  rw [blocks, if_neg (Nat.not_le.mpr short)]

theorem blocks_step {data : Bytes} (enough : blockLen ≤ data.length) :
    blocks crc state data = blocks crc (roundGen crc (fhLoad64 (data.take blockLen)) state) (data.drop blockLen) := by
  rw [blocks, if_pos enough, roundGen_take]

theorem blocks_rest (data : Bytes) : (blocks crc state data).2.length < blockLen := by
  fun_induction blocks crc state data with
  | case1 state data enough ih => exact ih
  | case2 state data short => exact Nat.not_le.mp short

/-- What was left of the input goes on with the next. -/
theorem blocks_append (data more : Bytes) :
    blocks crc state (data ++ more) = blocks crc (blocks crc state data).1 ((blocks crc state data).2 ++ more) := by
  fun_induction blocks crc state data with
  | case1 state data enough ih =>
    have longer : blockLen ≤ (data ++ more).length := by
      rw [List.length_append]
      omega
    rw [blocks_step longer, List.take_append_of_le_length enough, List.drop_append_of_le_length enough, roundGen_take]
    exact ih
  | case2 state data short => rfl

end Blocks

section Update

variable {start : HashState} {bytes : Bytes} {ctx : Ctx} {tables : Tables} {machine : Machine}

/-- What a context holds of the input so far. -/
structure Holds (start : HashState) (bytes : Bytes) (ctx : Ctx) : Prop where
  size : ctx.buff.length = blockLen
  short : filled ctx.buff < blockLen
  absorbed : blocks wordCrc start bytes = (ctx.state, ctx.buff.take (filled ctx.buff))
  length : ctx.length = BitVec.ofNat 64 bytes.length

theorem init_holds {buff : Bytes} (size : buff.length = blockLen) :
    Holds (fastHash256Init tables buff).state [] (fastHash256Init tables buff) := by
  have empty : filled (fastHash256Init tables buff).buff = 0 := filled_setFilled size (by decide)
  refine ⟨length_setFilled.trans size, ?_, ?_, rfl⟩
  · rw [empty]
    decide
  · rw [empty, List.take_zero, blocks_short (by decide)]

/-- The whole blocks of the input are taken, the rest goes to the buffer. -/
theorem updateBlocks_holds {state : HashState} {buff data : Bytes} {length : Word} (size : buff.length = blockLen)
    (absorbed : blocks wordCrc start bytes = blocks wordCrc state data) (counted : length = BitVec.ofNat 64 bytes.length) :
    Holds start bytes (updateBlocks wordCrc ⟨state, length, buff⟩ data) := by
  have short : (blocks wordCrc state data).2.length < blockLen := blocks_rest data
  unfold updateBlocks
  dsimp only
  generalize blocks wordCrc state data = result at absorbed short ⊢
  obtain ⟨after, rest⟩ := result
  dsimp only at short ⊢
  have copied : (copyTo buff 0 rest).length = blockLen := by
    rw [length_copyTo (by omega), size]
  have fill : filled (setFilled (copyTo buff 0 rest) rest.length) = rest.length := filled_setFilled copied short
  have front : (copyTo buff 0 rest).take rest.length = rest := by
    have taken : (copyTo buff 0 rest).take (0 + rest.length) = buff.take 0 ++ rest := take_copyTo (Nat.zero_le buff.length)
    rwa [Nat.zero_add, List.take_zero, List.nil_append] at taken
  refine ⟨length_setFilled.trans copied, ?_, ?_, counted⟩
  · rw [fill]
    exact short
  · rw [fill, take_setFilled short, front, absorbed]

theorem update_holds (holds : Holds start bytes ctx) (data : Bytes) :
    Holds start (bytes ++ data) (fastHash256Update machine tables ctx data) := by
  obtain ⟨size, short, absorbed, length⟩ := holds
  obtain ⟨state, counted, buff⟩ := ctx
  dsimp only at size short absorbed length
  have taken : (buff.take (filled buff)).length = filled buff := by
    rw [List.length_take]
    omega
  have next : blocks wordCrc start (bytes ++ data) = _ := blocks_append bytes data
  rw [absorbed] at next
  have total : counted + BitVec.ofNat 64 data.length = BitVec.ofNat 64 (bytes ++ data).length := by
    rw [length, List.length_append, BitVec.ofNat_add]
  unfold fastHash256Update
  dsimp only
  rw [machine_crc]
  by_cases fits : data.length + filled buff < blockLen
  · rw [if_pos fits]
    have less : filled buff + data.length < blockLen := by omega
    have marked : filled (setFilled buff (filled buff + data.length)) = filled buff + data.length := filled_setFilled size less
    have sizeMarked : (setFilled buff (filled buff + data.length)).length = blockLen := length_setFilled.trans size
    have kept : filled (copyTo (setFilled buff (filled buff + data.length)) (filled buff) data) = filled buff + data.length := by
      rw [filled_copyTo sizeMarked less, marked]
    refine ⟨?_, ?_, ?_, total⟩
    · change (copyTo (setFilled buff (filled buff + data.length)) (filled buff) data).length = blockLen
      rw [length_copyTo (by omega), sizeMarked]
    · change filled (copyTo (setFilled buff (filled buff + data.length)) (filled buff) data) < blockLen
      rw [kept]
      exact less
    · change _ = (state, (copyTo (setFilled buff (filled buff + data.length)) (filled buff) data).take
        (filled (copyTo (setFilled buff (filled buff + data.length)) (filled buff) data)))
      rw [kept, take_copyTo (by omega), take_setFilled short, next, blocks_short]
      rw [List.length_append, taken]
      exact less
  · rw [if_neg fits]
    unfold updateLong
    dsimp only
    by_cases empty : filled buff = 0
    · rw [if_neg (not_not.mpr empty)]
      refine updateBlocks_holds size ?_ total
      rw [next, empty, List.take_zero, List.nil_append]
    · rw [if_pos empty]
      have part : (data.take (blockLen - filled buff)).length = blockLen - filled buff := by
        rw [List.length_take]
        omega
      have whole : copyTo buff (filled buff) (data.take (blockLen - filled buff)) = buff.take (filled buff) ++ data.take (blockLen - filled buff) := by
        rw [copyTo, part, List.drop_eq_nil_of_le (by omega), List.append_nil]
      have full : (copyTo buff (filled buff) (data.take (blockLen - filled buff))).length = blockLen := by
        rw [length_copyTo (by omega), size]
      refine updateBlocks_holds full ?_ total
      have enough : blockLen ≤ (buff.take (filled buff) ++ data).length := by
        rw [List.length_append, taken]
        omega
      have front : (buff.take (filled buff) ++ data).take blockLen = copyTo buff (filled buff) (data.take (blockLen - filled buff)) := by
        rw [whole, List.take_append, taken, List.take_of_length_le (by omega)]
      have back : (buff.take (filled buff) ++ data).drop blockLen = data.drop (blockLen - filled buff) := by
        rw [List.drop_append, taken, List.drop_eq_nil_of_le (by omega), List.nil_append]
      rw [next, blocks_step enough, front, back]

/-- All pieces in turn. -/
theorem updates_hold (pieces : List Bytes) (holds : Holds start bytes ctx) :
    Holds start (bytes ++ pieces.flatten) (pieces.foldl (fastHash256Update machine tables) ctx) := by
  induction pieces generalizing bytes ctx with
  | nil =>
    rw [List.flatten_nil, List.append_nil]
    exact holds
  | cons piece rest ih =>
    rw [List.flatten_cons, ← List.append_assoc]
    exact ih (update_holds holds piece)

end Update

section Final

variable {start : HashState} {bytes : Bytes} {one two : Ctx} {tables : Tables}

theorem length_tableBytes (row : BitVec 8 → BitVec 32) {count : ℕ} (small : count ≤ 1016) : (tableBytes row count).length = count := by
  have all : ((List.range 254).flatMap fun index => leBytes 4 (row (BitVec.ofNat 8 (index + 2))).toNat).length = 1016 := by
    rw [List.length_flatMap]
    simp only [length_leBytes, List.map_const', List.length_range, List.sum_replicate]
    rfl
  rw [tableBytes, List.length_take, all]
  omega

/-- The digest is that of the input, whatever else is in the buffer. -/
theorem final_holds (machine other : Machine) (holds : Holds start bytes one) (also : Holds start bytes two) :
    fastHash256Final machine tables one = fastHash256Final other tables two := by
  have same := holds.absorbed.symm.trans also.absorbed
  have states : one.state = two.state := congrArg Prod.fst same
  have fronts : one.buff.take (filled one.buff) = two.buff.take (filled two.buff) := congrArg Prod.snd same
  have shortOne := holds.short
  have shortTwo := also.short
  have fills : filled one.buff = filled two.buff := by
    have lengths := congrArg List.length fronts
    rw [List.length_take, List.length_take, holds.size, also.size] at lengths
    omega
  have padded : ∀ ctx : Ctx, ctx.buff.length = blockLen → filled ctx.buff < blockLen →
      copyTo ctx.buff (filled ctx.buff) (tableBytes tables.row1 (blockLen - filled ctx.buff)) =
        ctx.buff.take (filled ctx.buff) ++ tableBytes tables.row1 (blockLen - filled ctx.buff) := by
    intro ctx size short
    rw [copyTo, length_tableBytes tables.row1 (by simp only [blockLen]; omega), List.drop_eq_nil_of_le (by omega), List.append_nil]
  have lengths : one.length = two.length := holds.length.trans also.length.symm
  unfold fastHash256Final
  dsimp only
  rw [padded one holds.size holds.short, padded two also.size also.short, fronts, fills, states, lengths, machine_crc, machine_crc]

/-- The digest of the pieces is that of the whole, on any machines and with any bytes in the buffers at the start. -/
theorem digest_of_pieces (tables : Tables) (machine other : Machine) (buff : Vector UInt8 blockLen) (before : Vector UInt8 blockLen)
    (pieces : List Bytes) :
    fastHash256Final machine tables (pieces.foldl (fastHash256Update machine tables) (fastHash256Init tables buff.toList)) =
      fastHash256Final other tables (fastHash256Update other tables (fastHash256Init tables before.toList) pieces.flatten) := by
  have first : Holds _ [] (fastHash256Init tables buff.toList) := init_holds (Vector.length_toList)
  have second : Holds _ [] (fastHash256Init tables before.toList) := init_holds (Vector.length_toList)
  have cut : Holds _ _ (pieces.foldl (fastHash256Update machine tables) (fastHash256Init tables buff.toList)) :=
    updates_hold pieces first
  have whole : Holds _ _ (fastHash256Update other tables (fastHash256Init tables before.toList) pieces.flatten) :=
    update_holds second pieces.flatten
  exact final_holds machine other cut whole

end Final

end Pclsync.Proofs.FastHash
