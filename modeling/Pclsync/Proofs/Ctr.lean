import Pclsync.Crypto.Ctr
import Pclsync.Library.KeyStream

/-! The counter mode codec masks its buffer with a key stream, whatever the
pieces, as long as a call that starts inside a block reaches the end of that
block. A shorter call wraps `datalen` round and runs out of memory. -/

namespace Pclsync.Proofs.Ctr
open Pclsync.Crypto Library

variable {enc : CtrEncdec} {data key : Bytes} {counter count blocksrem datalen dataoffset : ℕ}

theorem length_counterBlock : (counterBlock enc counter).length = 16 := by
  apply enc.encoder.length_encrypt
  have length := enc.length_iv
  simp only [copyIvAndXorWithCounter, le64, List.length_append, length_xorBytes, List.length_take, List.length_drop,
    List.length_map, List.length_range, length]
  omega

/-- The counter blocks of one codec. -/
def keyStream (enc : CtrEncdec) : KeyStream 16 := ⟨counterBlock enc, fun _ => length_counterBlock⟩

/-- The buffer masked, and the memory behind it as it was. -/
def masked (enc : CtrEncdec) (dataoffset : ℕ) (data : Bytes) (datalen : ℕ) : Bytes :=
  (keyStream enc).mask dataoffset (data.take datalen) ++ data.drop datalen

theorem take_masked (fits : datalen ≤ data.length) :
    (masked enc dataoffset data datalen).take datalen = (keyStream enc).mask dataoffset (data.take datalen) := by
  apply List.take_left'
  rw [KeyStream.length_mask, List.length_take, Nat.min_eq_left fits]

theorem drop_masked (fits : datalen ≤ data.length) :
    (masked enc dataoffset data datalen).drop datalen = data.drop datalen := by
  apply List.drop_left'
  rw [KeyStream.length_mask, List.length_take, Nat.min_eq_left fits]

theorem length_masked : (masked enc dataoffset data datalen).length = data.length := by
  rw [masked, List.length_append, KeyStream.length_mask, ← List.length_append, List.take_append_drop]

@[simp] theorem masked_none : masked enc dataoffset data 0 = data := by
  rw [masked, List.take_zero, KeyStream.mask_nil, List.drop_zero, List.nil_append]

/-- Two neighbouring pieces are masked together as one by one. -/
theorem masked_add {first second : ℕ} (fits : first ≤ data.length) :
    masked enc dataoffset data (first + second) =
      (masked enc dataoffset data first).take first ++
        masked enc (dataoffset + first) ((masked enc dataoffset data first).drop first) second := by
  have length : (data.take first).length = first := by rw [List.length_take, Nat.min_eq_left fits]
  rw [take_masked fits, drop_masked fits, masked, masked, List.take_add, KeyStream.mask_append, length, List.drop_drop,
    List.append_assoc]

theorem masked_masked (fits : datalen ≤ data.length) :
    masked enc dataoffset (masked enc dataoffset data datalen) datalen = data := by
  rw [masked, take_masked fits, drop_masked fits, KeyStream.mask_mask, List.take_append_drop]

section Loops

/-- A write inside one block of the stream. -/
theorem xorCntAt_within (inside : dataoffset % 16 + count ≤ 16) (fits : count ≤ data.length) :
    xorCntAt data ((counterBlock enc (dataoffset / 16)).drop (dataoffset % 16)) count =
      some (masked enc dataoffset data count) := by
  have length : (data.take count).length = count := by rw [List.length_take, Nat.min_eq_left fits]
  rw [xorCntAt, if_pos fits, xorCntInplace, masked, KeyStream.mask, length, KeyStream.bytes_within _ inside]
  rfl

theorem xorCntAt_start (small : count ≤ 16) (fits : count ≤ data.length) :
    xorCntAt data (counterBlock enc counter) count = some (masked enc (counter * 16) data count) := by
  have place : counter * 16 % 16 = 0 := Nat.mul_mod_left counter 16
  have block : counter * 16 / 16 = counter := Nat.mul_div_cancel counter (by decide)
  have within := @xorCntAt_within enc data count (counter * 16) (by omega) fits
  rwa [place, block, List.drop_zero] at within

theorem ctrLoop_masked (small : datalen < 16) (fits : blocksrem * 16 + datalen ≤ data.length) :
    ctrLoop enc blocksrem counter datalen data =
      some (masked enc (counter * 16) data (blocksrem * 16 + datalen)) := by
  induction blocksrem generalizing counter data with
  | zero =>
    rw [Nat.zero_mul, Nat.zero_add] at fits ⊢
    rw [ctrLoop]
    split
    · exact xorCntAt_start small.le fits
    · rename_i empty
      rw [not_not.mp empty, masked_none]
  | succ blocksrem ih =>
    rw [Nat.succ_mul] at fits
    have first := @xorCntAt_start enc data counter 16 le_rfl (by omega)
    have rest := @ih ((masked enc (counter * 16) data 16).drop 16) (counter + 1)
      (by rw [List.length_drop, length_masked]; omega)
    simp only [ctrLoop, aesBlockSize, first, rest, bind, Option.bind]
    rw [show (blocksrem + 1) * 16 + datalen = 16 + (blocksrem * 16 + datalen) by omega,
      show (counter + 1) * 16 = counter * 16 + 16 by omega, @masked_add enc data _ 16 _ (by omega)]

/-- More blocks than there is memory: the loop runs out of it. -/
theorem ctrLoop_fault (short : data.length < blocksrem * 16 + datalen) :
    ctrLoop enc blocksrem counter datalen data = none := by
  induction blocksrem generalizing counter data with
  | zero =>
    rw [Nat.zero_mul, Nat.zero_add] at short
    rw [ctrLoop, if_pos (by omega), xorCntAt, if_neg (by omega)]
  | succ blocksrem ih =>
    rw [Nat.succ_mul] at short
    by_cases fits : 16 ≤ data.length
    · have first := @xorCntAt_start enc data counter 16 le_rfl fits
      have rest := @ih ((masked enc (counter * 16) data 16).drop 16) (counter + 1)
        (by rw [List.length_drop, length_masked]; omega)
      simp only [ctrLoop, aesBlockSize, first, rest, bind, Option.bind]
    · simp only [ctrLoop, aesBlockSize, xorCntAt, if_neg fits, bind, Option.bind]

end Loops

/-- A call that starts on a block boundary or gets as far as the next one. -/
def Reaches (dataoffset datalen : ℕ) : Prop :=
  dataoffset % 16 = 0 ∨ 16 - dataoffset % 16 ≤ datalen

instance : Decidable (Reaches dataoffset datalen) := inferInstanceAs (Decidable (_ ∨ _))

theorem decode_masked (reaches : Reaches dataoffset datalen) (fits : datalen ≤ data.length)
    (addressable : data.length < 2 ^ 64) :
    ctrEncdecDecode enc data datalen dataoffset = some (masked enc dataoffset data datalen) := by
  by_cases aligned : dataoffset % 16 = 0
  · have start : dataoffset / 16 * 16 = dataoffset := by omega
    have whole : datalen / 16 * 16 + datalen % 16 = datalen := by omega
    simp only [ctrEncdecDecode, aesBlockSize, aligned, ne_eq, not_true_eq_false, if_false]
    rw [ctrLoop_masked (by omega) (by omega), start, whole]
  · have far := reaches.resolve_left aligned
    have wraps : (2 ^ 64 + datalen - (16 - dataoffset % 16)) % 2 ^ 64 =
        datalen - (16 - dataoffset % 16) := by omega
    simp only [ctrEncdecDecode, aesBlockSize, ne_eq, aligned, not_false_eq_true, if_true, wraps]
    generalize remaining : 16 - dataoffset % 16 = blocksrem at far wraps ⊢
    have first := @xorCntAt_within enc data blocksrem dataoffset (by omega) (by omega)
    have next : (dataoffset / 16 + 1) * 16 = dataoffset + blocksrem := by omega
    have whole : (datalen - blocksrem) / 16 * 16 + (datalen - blocksrem) % 16 =
        datalen - blocksrem := by omega
    rw [first]
    simp only [bind, Option.bind]
    rw [ctrLoop_masked (by omega) (by rw [List.length_drop, length_masked]; omega), next, whole]
    simp only
    rw [← masked_add (by omega), Nat.add_sub_cancel' far]

/-- `datalen` wraps round to nearly the whole address space. -/
theorem decode_fault (short : ¬ Reaches dataoffset datalen) (addressable : data.length < 2 ^ 64) :
    ctrEncdecDecode enc data datalen dataoffset = none := by
  rw [Reaches, not_or] at short
  obtain ⟨aligned, short⟩ := short
  simp only [ctrEncdecDecode, aesBlockSize, ne_eq, aligned, not_false_eq_true, if_true]
  generalize remaining : 16 - dataoffset % 16 = blocksrem at short ⊢
  by_cases fits : blocksrem ≤ data.length
  · have first := @xorCntAt_within enc data blocksrem dataoffset (by omega) fits
    have wraps : (2 ^ 64 + datalen - blocksrem) % 2 ^ 64 = 2 ^ 64 + datalen - blocksrem := by omega
    rw [first, wraps]
    simp only [bind, Option.bind]
    rw [ctrLoop_fault (by rw [List.length_drop, length_masked]; omega)]
  · simp only [xorCntAt, if_neg fits, bind, Option.bind]

/-- Every piece gets as far as the end of the block it starts in. -/
def Reaching (dataoffset : ℕ) : List ℕ → Prop
  | [] => True
  | datalen :: pieces => Reaches dataoffset datalen ∧ Reaching (dataoffset + datalen) pieces

theorem decodePieces_masked {pieces : List ℕ} (reaching : Reaching dataoffset pieces) (fits : pieces.sum ≤ data.length)
    (addressable : data.length < 2 ^ 64) :
    decodePieces enc dataoffset pieces data = some (masked enc dataoffset data pieces.sum) := by
  induction pieces generalizing dataoffset data with
  | nil => rw [decodePieces, List.sum_nil, masked_none]
  | cons datalen pieces ih =>
    rw [List.sum_cons] at fits
    have first := @decode_masked enc data datalen dataoffset reaching.1 (by omega) addressable
    have rest := @ih ((masked enc dataoffset data datalen).drop datalen) (dataoffset + datalen) reaching.2
      (by rw [List.length_drop, length_masked]; omega) (by rw [List.length_drop, length_masked]; omega)
    simp only [decodePieces, first, rest, bind, Option.bind]
    rw [List.sum_cons, masked_add (by omega)]

theorem decodePieces_fault {pieces : List ℕ} (short : ¬ Reaching dataoffset pieces) (fits : pieces.sum ≤ data.length)
    (addressable : data.length < 2 ^ 64) : decodePieces enc dataoffset pieces data = none := by
  induction pieces generalizing dataoffset data with
  | nil => exact absurd trivial short
  | cons datalen pieces ih =>
    rw [List.sum_cons] at fits
    by_cases reaches : Reaches dataoffset datalen
    · have first := @decode_masked enc data datalen dataoffset reaches (by omega) addressable
      have rest := @ih ((masked enc dataoffset data datalen).drop datalen) (dataoffset + datalen)
        (fun reaching => short ⟨reaches, reaching⟩)
        (by rw [List.length_drop, length_masked]; omega) (by rw [List.length_drop, length_masked]; omega)
      simp only [decodePieces, first, rest, bind, Option.bind]
    · simp only [decodePieces, decode_fault reaches addressable, bind, Option.bind]

/-- What is asked of the codec on one buffer and one way of cutting it up: the
pieces give what the whole gives, a second pass restores the input, and the
memory behind the buffer stays as it was. -/
structure Streams (enc : CtrEncdec) (dataoffset : ℕ) (pieces : List ℕ) (data out : Bytes) : Prop where
  whole : ctrEncdecDecode enc data pieces.sum dataoffset = some out
  cut : decodePieces enc dataoffset pieces data = some out
  twice : ctrEncdecDecode enc out pieces.sum dataoffset = some data
  length : out.length = data.length
  outside : out.drop pieces.sum = data.drop pieces.sum

theorem streams_exactly {pieces : List ℕ} (fits : pieces.sum ≤ data.length) (addressable : data.length < 2 ^ 64) :
    (∃ out, Streams enc dataoffset pieces data out) ↔
      Reaches dataoffset pieces.sum ∧ Reaching dataoffset pieces := by
  constructor
  · rintro ⟨out, streams⟩
    constructor
    · by_contra short
      have whole := streams.whole
      rw [decode_fault short addressable] at whole
      exact Option.some_ne_none _ whole.symm
    · by_contra short
      have cut := streams.cut
      rw [decodePieces_fault short fits addressable] at cut
      exact Option.some_ne_none _ cut.symm
  · rintro ⟨reaches, reaching⟩
    refine ⟨masked enc dataoffset data pieces.sum, ?_⟩
    constructor
    · exact decode_masked reaches fits addressable
    · exact decodePieces_masked reaching fits addressable
    · rw [decode_masked reaches (by rwa [length_masked]) (by rwa [length_masked]), masked_masked fits]
    · exact length_masked
    · exact drop_masked fits

/-- The codec keeps its promise on a buffer and its pieces exactly when every
call that starts inside a block is long enough to finish that block. -/
theorem streams_iff (enc : CtrEncdec) (dataoffset : ℕ) (pieces : List ℕ) (data : Bytes)
    (fits : pieces.sum ≤ data.length) (addressable : data.length < 2 ^ 64) :
    (∃ out, Streams enc dataoffset pieces data out) ↔
      Reaches dataoffset pieces.sum ∧ Reaching dataoffset pieces :=
  streams_exactly fits addressable

/-- A codec with the cipher that does nothing. -/
def plainEncdec : CtrEncdec := ⟨default, List.range 16 |>.map UInt8.ofNat, rfl⟩

/-- From inside one block over a whole one into a third. -/
theorem streams_iff_three :
    (∃ out, Streams plainEncdec 12 [4, 16, 2] (List.replicate 24 7) out) ↔
      Reaches 12 22 ∧ Reaching 12 [4, 16, 2] :=
  streams_iff plainEncdec 12 [4, 16, 2] (List.replicate 24 7) (by decide) (by rw [List.length_replicate]; decide)

/-- One byte at offset one, and a second one behind it. -/
theorem streams_short : ¬ ∃ out, Streams plainEncdec 1 [1] [7, 9] out := by
  rw [streams_exactly (by decide) (by decide)]
  exact fun both => absurd both.1 (by decide)

end Pclsync.Proofs.Ctr
