import Pclsync.Proofs.Base32
import Pclsync.Proofs.CryptoSector

/-! A file name survives encryption. The text cipher is chaining over the name
padded with zero bytes; the decoder finds the end of the name again at the first
zero byte and insists on zero bytes behind it. -/

namespace Pclsync.Proofs.Filename
open Pclsync.Crypto Library Base32 CryptoSector

/-- A name with `count` zero bytes behind it. -/
def padded (name : Bytes) (count : ℕ) : Bytes := name ++ List.replicate count 0

section Padding
variable {name : Bytes} {count : ℕ}

@[simp] theorem length_padded : (padded name count).length = name.length + count := by
  rw [padded, List.length_append, List.length_replicate]

theorem padded_terminated : padded name count ++ [0] = padded name (count + 1) := by
  rw [padded, padded, List.append_assoc, ← List.replicate_succ']

theorem padded_succ : padded name (count + 1) = name ++ 0 :: List.replicate count 0 := by
  rw [padded, List.replicate_succ]

theorem drop_padded {offset : ℕ} (inside : offset ≤ name.length) :
    (padded name count).drop offset = padded (name.drop offset) count :=
  List.drop_append_of_le_length inside

theorem take_padded {offset : ℕ} (inside : offset ≤ name.length) : (padded name count).take offset = name.take offset :=
  List.take_append_of_le_length inside

theorem cstring_padded (noNul : 0 ∉ name) : cstring (padded name (count + 1)) = name := by
  rw [cstring, padded_succ, List.takeWhile_append_of_pos (fun byte inside => by
    simpa using fun zero : byte = 0 => noNul (zero ▸ inside))]
  simp

theorem paddingClean_ok {ret : Bytes} (len stop : ℕ) (inside : stop ≤ ret.length) :
    ∃ clean, paddingClean ret len stop = .ok clean := by
  induction left : stop - len generalizing len with
  | zero =>
    refine ⟨true, ?_⟩
    rw [paddingClean, if_neg (by omega)]
    rfl
  | succ left ih =>
    rw [paddingClean, if_pos (by omega), readByte_ok (by omega)]
    simp only [ok_bind]
    split
    · exact ⟨false, rfl⟩
    · exact ih (len + 1) (by omega)

theorem paddingClean_zeros {ret : Bytes} {len stop : ℕ} (inside : stop ≤ ret.length)
    (zeros : ∀ index (below : index < ret.length), len ≤ index → ret[index] = 0) :
    paddingClean ret len stop = .ok true := by
  induction left : stop - len generalizing len with
  | zero =>
    rw [paddingClean, if_neg (by omega)]
    rfl
  | succ left ih =>
    rw [paddingClean, if_pos (by omega), readByte_ok (by omega)]
    simp only [ok_bind, zeros len (by omega) le_rfl, ne_eq, not_true, if_false]
    exact ih (fun index below after => zeros index below (by omega)) (by omega)

theorem paddingClean_padded {len stop : ℕ} (after : name.length ≤ len) (inside : stop ≤ name.length + count) :
    paddingClean (padded name count) len stop = .ok true := by
  apply paddingClean_zeros (by simpa using inside)
  intro index below beyond
  simp only [padded]
  rw [List.getElem_append_right (by omega), List.getElem_replicate]

end Padding

section Encoder
variable {txt : Bytes}

theorem copyPad_eq {offset txtlen : ℕ} (inside : offset + txtlen ≤ txt.length) (count : ℕ)
    (enough : 16 ≤ txtlen + count) :
    copyPad 16 txt offset txtlen = .ok ((padded ((txt.drop offset).take txtlen) count).take 16) := by
  have partLength : ((txt.drop offset).take txtlen).length = txtlen := by
    rw [List.length_take, List.length_drop]
    omega
  rw [copyPad]
  split
  · rw [readAt_ok (by omega), take_padded (by omega), List.take_take, Nat.min_eq_left ‹_›]
  · have whole : ((txt.drop offset).take txtlen).take 16 = (txt.drop offset).take txtlen :=
      List.take_of_length_le (by omega)
    rw [readAt_ok inside, ok_bind, padded, List.take_append, whole, partLength, List.take_replicate,
      Nat.min_eq_left (by omega)]
    rfl

/-- The loop chains over what is left of the text, padded to whole blocks. -/
theorem encodeTextLoop_spec {size : ℕ} (aes : Aes) (txt : Bytes) (offset txtlen count : ℕ) (chain : Bytes)
    (outptr : Buffer size) (start : chain.length = 16) (inside : offset + txtlen ≤ txt.length) (nonempty : 0 < txtlen)
    (padding : count < 16) (whole : (txtlen + count) % 16 = 0) (room : outptr.bytes.length + txtlen + count ≤ size) :
    ∃ after, encodeTextLoop aes txt offset txtlen chain outptr = .ok after ∧
      after.bytes = outptr.bytes ++ (aes.chainEncrypt chain
        (blocksOf 16 ((txtlen + count) / 16) (padded ((txt.drop offset).take txtlen) count))).flatten := by
  induction turns : (txtlen + count) / 16 generalizing offset txtlen chain outptr with
  | zero => omega
  | succ blocks ih =>
    set part := (txt.drop offset).take txtlen with partDef
    have partLength : part.length = txtlen := by
      rw [List.length_take, List.length_drop]
      omega
    have blockLength : ((padded part count).take 16).length = 16 := by
      rw [List.length_take, length_padded]
      omega
    have masked : (xorBytes chain ((padded part count).take 16)).length = 16 := by
      rw [length_xorBytes, start, blockLength, Nat.min_self]
    set aesdst := aes.encrypt (xorBytes chain ((padded part count).take 16)) with aesdstDef
    have aesdstLength : aesdst.length = 16 := aes.length_encrypt _ masked
    have same : aes.encrypt (xor16Inplace ((padded part count).take 16) chain) = aesdst := by
      rw [xor16_eq blockLength, List.take_of_length_le start.le, xorBytes_comm]
    obtain ⟨next, put, written⟩ := Buffer.put_ok outptr aesdst (by omega)
    rw [encodeTextLoop, copyPad_eq inside count (by omega)]
    simp only [ok_bind, ← partDef, same, put]
    rw [blocksOf, BlockCipher.chainEncrypt, List.flatten_cons, ← aesdstDef]
    by_cases last : copyPadLeft 16 txtlen = 0
    · have none : blocks = 0 := by
        rw [copyPadLeft] at last
        split at last <;> omega
      refine ⟨next, ?_, ?_⟩
      · rw [dif_pos last]
        rfl
      · rw [written, none, blocksOf, BlockCipher.chainEncrypt, List.flatten_nil, List.append_nil]
    · have more : 16 < txtlen ∧ copyPadLeft 16 txtlen = txtlen - 16 := by
        rw [copyPadLeft] at last ⊢
        split at last
        · rw [if_pos ‹_›]
          omega
        · exact absurd rfl last
      have rest : (padded part count).drop 16 = padded ((txt.drop (offset + 16)).take (txtlen - 16)) count := by
        rw [drop_padded (by omega), partDef, List.drop_take, List.drop_drop]
      rw [dif_neg last, more.2, rest]
      obtain ⟨after, run, bytes⟩ := ih (offset + 16) (txtlen - 16) aesdst next aesdstLength (by omega) (by omega) (by omega) (by
          rw [written, List.length_append]
          omega) (by omega)
      refine ⟨after, run, ?_⟩
      rw [bytes, written, List.append_assoc]

theorem alignA256Bs_spec (n : ℕ) : n ≤ alignA256Bs n ∧ alignA256Bs n < n + 16 ∧ alignA256Bs n % 16 = 0 := by
  rw [alignA256Bs, aesBlockSize]
  omega

theorem encodeText_short (enc : TextEncdec) {name : Bytes} (nonempty : 0 < name.length) (short : name.length ≤ 16) :
    encodeText enc (name ++ [0]) name.length =
      .ok (enc.aes.encrypt (xorBytes (padded name (16 - name.length)) (enc.iv.take 16)), 16) := by
  have part : ((name ++ [0]).drop 0).take name.length = name := List.take_left' rfl
  have blockLength : (padded name (16 - name.length)).length = 16 := by
    rw [length_padded]
    omega
  have whole : (padded name (16 - name.length)).take 16 = padded name (16 - name.length) :=
    List.take_of_length_le blockLength.le
  have size : alignA256Bs name.length = 16 := by
    rw [alignA256Bs, aesBlockSize]
    omega
  have ivLength : (enc.iv.take 16).length = 16 := by
    have enough := enc.ivlen
    rw [aesBlockSize] at enough
    rw [List.length_take]
    omega
  have sealed : (enc.aes.encrypt (xorBytes (padded name (16 - name.length)) (enc.iv.take 16))).length = 16 := by
    apply enc.aes.length_encrypt
    rw [length_xorBytes, blockLength, ivLength]
    rfl
  obtain ⟨next, put, written⟩ := Buffer.put_ok (Buffer.malloc (alignA256Bs name.length))
    (enc.aes.encrypt (xorBytes (padded name (16 - name.length)) (enc.iv.take 16))) (by
      rw [sealed, size, Buffer.bytes_malloc]
      rfl)
  rw [encodeText, if_pos (show name.length ≤ aesBlockSize from short),
    copyPad_eq (by simp) (16 - name.length) (by omega), part, whole]
  simp only [ok_bind, xor16_eq blockLength, put, written, Buffer.bytes_malloc, List.nil_append, size]
  rfl

/-- The first block of a long name is masked with the authenticator of the rest. -/
def firstBlock (enc : TextEncdec) (name : Bytes) : Bytes :=
  enc.aes.encrypt (xorBytes (name.take 16) ((hmacSha512 enc.sha512 enc.iv (name.drop 16)).take 16))

/-- A long name with `count` bytes of padding, enciphered. -/
def longText (enc : TextEncdec) (name : Bytes) (count : ℕ) : Bytes :=
  firstBlock enc name ++ (enc.aes.chainEncrypt (firstBlock enc name)
    (blocksOf 16 ((name.length - 16 + count) / 16) (padded (name.drop 16) count))).flatten

theorem firstBlock_masked (enc : TextEncdec) {name : Bytes} (long : 16 < name.length) :
    (xorBytes (name.take 16) ((hmacSha512 enc.sha512 enc.iv (name.drop 16)).take 16)).length = 16 := by
  rw [length_xorBytes, List.length_take, List.length_take, length_hmac]
  omega

theorem encodeText_long (enc : TextEncdec) {name : Bytes} {count : ℕ} (long : 16 < name.length)
    (size : alignA256Bs name.length = name.length + count) :
    encodeText enc (name ++ [0]) name.length = .ok (longText enc name count, name.length + count) := by
  obtain ⟨_, tight, whole⟩ := alignA256Bs_spec name.length
  have textLength : (name ++ [0]).length = name.length + 1 := List.length_append
  have rest : ((name ++ [0]).drop 16).take (name.length - 16) = name.drop 16 := by
    rw [List.drop_append_of_le_length (by omega), List.take_left' List.length_drop]
  have head : ((name ++ [0]).drop 0).take 16 = name.take 16 := List.take_append_of_le_length long.le
  have headLength : (name.take 16).length = 16 := by
    rw [List.length_take]
    omega
  have sealed : (firstBlock enc name).length = 16 := enc.aes.length_encrypt _ (firstBlock_masked enc long)
  obtain ⟨next, put, written⟩ := Buffer.put_ok (Buffer.malloc (alignA256Bs name.length))
    (firstBlock enc name) (by
      rw [sealed, Buffer.bytes_malloc, List.length_nil]
      omega)
  rw [Buffer.bytes_malloc, List.nil_append] at written
  obtain ⟨after, run, bytes⟩ := encodeTextLoop_spec enc.aes (name ++ [0]) 16 (name.length - 16) count
    (firstBlock enc name) next sealed (by omega) (by omega) (by omega) (by omega) (by
      rw [written, sealed]
      omega)
  rw [encodeText, if_neg (show ¬name.length ≤ aesBlockSize from Nat.not_le.mpr long), readAt_ok (by omega),
    readAt_ok (by omega), rest, head]
  simp only [ok_bind, xor16_eq headLength]
  rw [← firstBlock, put]
  simp only [ok_bind, run, bytes, rest, written, size]
  rfl

theorem length_longText (enc : TextEncdec) {name : Bytes} (count : ℕ) (long : 16 < name.length)
    (whole : (name.length + count) % 16 = 0) : (longText enc name count).length = name.length + count := by
  have sealed : (firstBlock enc name).length = 16 := enc.aes.length_encrypt _ (firstBlock_masked enc long)
  have parts : ∀ block ∈ blocksOf 16 ((name.length - 16 + count) / 16) (padded (name.drop 16) count),
      block.length = 16 := by
    apply blocksOf_whole
    rw [length_padded, List.length_drop]
    omega
  rw [longText, List.length_append, sealed,
    length_flatten_whole (enc.aes.chainEncrypt_whole sealed parts),
    BlockCipher.length_chainEncrypt, length_blocksOf, aesBlockSize]
  omega

end Encoder

section Decoder
variable {data : Bytes}

theorem decodeTextLoop_spec {size : ℕ} (aes : Aes) (data : Bytes) (blocks offset : ℕ) (outptr : Buffer size)
    (inside : offset + (blocks + 1) * 16 ≤ data.length) (room : outptr.bytes.length + blocks * 16 ≤ size) :
    ∃ after, decodeTextLoop aes data blocks offset outptr = .ok after ∧
      after.bytes = outptr.bytes ++ (aes.chainDecrypt ((data.drop offset).take 16)
        (blocksOf 16 blocks (data.drop (offset + 16)))).flatten := by
  induction blocks generalizing offset outptr with
  | zero => exact ⟨outptr, rfl, by simp [blocksOf, BlockCipher.chainDecrypt]⟩
  | succ blocks ih =>
    have blockLength : ∀ position, position + 16 ≤ data.length → ((data.drop position).take 16).length = 16 := by
      intro position fits
      rw [List.length_take, List.length_drop]
      omega
    have opened := aes.length_decrypt _ (blockLength (offset + 16) (by omega))
    have same : xor16Inplace (aes.decrypt ((data.drop (offset + 16)).take 16)) ((data.drop offset).take 16) =
        xorBytes (aes.decrypt ((data.drop (offset + 16)).take 16)) ((data.drop offset).take 16) := by
      rw [xor16_eq opened, List.take_take, Nat.min_self]
    have blockOut : (xorBytes (aes.decrypt ((data.drop (offset + 16)).take 16)) ((data.drop offset).take 16)).length =
        16 := by
      rw [length_xorBytes, opened, blockLength offset (by omega)]
      rfl
    obtain ⟨next, put, written⟩ := Buffer.put_ok outptr
      (xorBytes (aes.decrypt ((data.drop (offset + 16)).take 16)) ((data.drop offset).take 16)) (by omega)
    obtain ⟨after, run, bytes⟩ := ih (offset + 16) next (by omega) (by
      rw [written, List.length_append]
      omega)
    refine ⟨after, ?_, ?_⟩
    · rw [decodeTextLoop, readAt_ok (by omega), readAt_ok (by omega)]
      simp only [ok_bind, same, put, run]
    · rw [bytes, written, blocksOf, BlockCipher.chainDecrypt, List.flatten_cons, List.append_assoc, List.drop_drop]

theorem decodeText_one (enc : TextEncdec) (data : Bytes) (inside : 16 ≤ data.length) :
    let ret := xorBytes (enc.aes.decrypt (data.take 16)) (enc.iv.take 16) ++ [0]
    ret.length = 17 ∧ decodeText enc data 16 = (do
      let len ← strlenAt ret 0
      if ← paddingClean ret (len + 1) 16 then return some ret else return none) := by
  intro ret
  have blockLength : (data.take 16).length = 16 := by
    rw [List.length_take]
    omega
  have opened := enc.aes.length_decrypt _ blockLength
  have ivLength : (enc.iv.take 16).length = 16 := by
    have enough := enc.ivlen
    rw [aesBlockSize] at enough
    rw [List.length_take]
    omega
  have plainLength : (xorBytes (enc.aes.decrypt (data.take 16)) (enc.iv.take 16)).length = 16 := by
    rw [length_xorBytes, opened, ivLength]
    rfl
  obtain ⟨next, put, written⟩ := Buffer.put_ok (Buffer.malloc (16 + 1))
    (xorBytes (enc.aes.decrypt (data.take 16)) (enc.iv.take 16)) (by
      rw [plainLength, Buffer.bytes_malloc]
      decide)
  rw [Buffer.bytes_malloc, List.nil_append] at written
  obtain ⟨closed, putNul, terminated⟩ := Buffer.put_ok next [0] (by
    rw [written, plainLength, List.length_singleton])
  refine ⟨by rw [List.length_append, plainLength, List.length_singleton], ?_⟩
  rw [decodeText, if_neg (by decide), readAt_ok (by omega), List.drop_zero]
  simp only [aesBlockSize, show 16 / 16 = 1 by rfl, if_true, ok_bind, xor16_eq opened, put, putNul, written,
    plainLength, terminated]
  rfl

theorem decodeText_more (enc : TextEncdec) (data : Bytes) (blocks : ℕ) (inside : (blocks + 2) * 16 ≤ data.length) :
    let ret := enc.aes.decrypt (data.take 16) ++
      (enc.aes.chainDecrypt (data.take 16) (blocksOf 16 (blocks + 1) (data.drop 16))).flatten ++ [0]
    ret.length = (blocks + 2) * 16 + 1 ∧ decodeText enc data ((blocks + 2) * 16) = (do
      let len ← strlenAt ret 16
      let message ← readAt ret 16 len
      let ret := xor16Inplace ret (hmacSha512 enc.sha512 enc.iv message)
      if ← paddingClean ret (len + 16 + 1) ((blocks + 2) * 16) then return some ret else return none) := by
  intro ret
  have blockLength : (data.take 16).length = 16 := by
    rw [List.length_take]
    omega
  have opened := enc.aes.length_decrypt _ blockLength
  have parts : ∀ block ∈ blocksOf 16 (blocks + 1) (data.drop 16), block.length = 16 := by
    apply blocksOf_whole
    rw [List.length_drop]
    omega
  have restLength : (enc.aes.chainDecrypt (data.take 16) (blocksOf 16 (blocks + 1) (data.drop 16))).flatten.length =
      (blocks + 1) * 16 := by
    rw [length_flatten_whole (BlockCipher.chainDecrypt_whole blockLength parts), BlockCipher.length_chainDecrypt,
      length_blocksOf]
  have retLength : ret.length = (blocks + 2) * 16 + 1 := by
    rw [List.length_append, List.length_append, opened, restLength, List.length_singleton, aesBlockSize]
    omega
  refine ⟨retLength, ?_⟩
  obtain ⟨first, put, written⟩ := Buffer.put_ok (Buffer.malloc ((blocks + 2) * 16 + 1))
    (enc.aes.decrypt (data.take 16)) (by
      rw [opened, Buffer.bytes_malloc, List.length_nil, aesBlockSize]
      omega)
  rw [Buffer.bytes_malloc, List.nil_append] at written
  obtain ⟨full, run, bytes⟩ := decodeTextLoop_spec enc.aes data (blocks + 1) 0 first (by omega) (by
      rw [written, opened, aesBlockSize]
      omega)
  rw [List.drop_zero, Nat.zero_add, written] at bytes
  have plainLength : full.bytes.length = (blocks + 2) * 16 := by
    rw [bytes, List.length_append, opened, restLength, aesBlockSize]
    omega
  obtain ⟨closed, putNul, terminated⟩ := Buffer.put_ok full [0] (by
    rw [plainLength, List.length_singleton])
  have accepted : ¬((blocks + 2) * 16 % aesBlockSize ≠ 0 ∨ (blocks + 2) * 16 = 0) := by
    rw [aesBlockSize]
    omega
  have count : (blocks + 2) * 16 / aesBlockSize = blocks + 2 := Nat.mul_div_cancel _ (by decide)
  have final : closed.bytes = ret := by rw [terminated, bytes]
  rw [decodeText, if_neg accepted, readAt_ok (by omega), List.drop_zero]
  simp only [count, show blocks + 2 ≠ 1 by omega, if_false, ok_bind, put, show blocks + 2 - 1 = blocks + 1 by omega, run,
    putNul, plainLength, final]

/-- Whatever is decoded, no access leaves its block. -/
theorem decodeText_ok (enc : TextEncdec) (data : Bytes) (datalen : ℕ) (inside : datalen ≤ data.length) :
    ∃ result, decodeText enc data datalen = .ok result := by
  by_cases refused : datalen % aesBlockSize ≠ 0 ∨ datalen = 0
  · exact ⟨none, by rw [decodeText, if_pos refused]; rfl⟩
  rw [aesBlockSize] at refused
  obtain rfl | ⟨blocks, rfl⟩ : datalen = 16 ∨ ∃ blocks, datalen = (blocks + 2) * 16 := by
    rcases Nat.lt_or_ge datalen 32 with one | more
    · left
      omega
    · exact .inr ⟨datalen / 16 - 2, by omega⟩
  · obtain ⟨retLength, run⟩ := decodeText_one enc data inside
    obtain ⟨len, found, _⟩ := strlenAt_ok
      (xorBytes (enc.aes.decrypt (data.take 16)) (enc.iv.take 16) ++ [0]) 0 (by simp)
    obtain ⟨clean, checked⟩ := paddingClean_ok (len + 1) 16 (show 16 ≤ _ by rw [retLength]; omega)
    rw [run, found, ok_bind, checked, ok_bind]
    cases clean
    · exact ⟨_, rfl⟩
    · exact ⟨_, rfl⟩
  · obtain ⟨retLength, run⟩ := decodeText_more enc data blocks inside
    rw [run]
    generalize enc.aes.decrypt (data.take 16) ++
      (enc.aes.chainDecrypt (data.take 16) (blocksOf 16 (blocks + 1) (data.drop 16))).flatten = plain at retLength
    obtain ⟨len, found, ends⟩ := strlenAt_ok (plain ++ [0]) 16 (by
      rw [List.length_append, List.length_singleton] at retLength
      rw [List.drop_append_of_le_length (by omega)]
      simp)
    rw [found, ok_bind, readAt_ok (by omega), ok_bind]
    have masked : (xor16Inplace (plain ++ [0])
        (hmacSha512 enc.sha512 enc.iv (((plain ++ [0]).drop 16).take len))).length = (blocks + 2) * 16 + 1 := by
      rw [xor16Inplace, length_xorCnt (by rw [length_hmac, aesBlockSize]; omega), retLength]
    obtain ⟨clean, checked⟩ := paddingClean_ok (len + 16 + 1) ((blocks + 2) * 16)
      (show (blocks + 2) * 16 ≤ _ by rw [masked]; omega)
    simp only [checked, ok_bind]
    cases clean
    · exact ⟨_, rfl⟩
    · exact ⟨_, rfl⟩

section RoundTrip
variable (enc : TextEncdec) {name : Bytes} (noNul : 0 ∉ name)
include noNul

theorem decodeText_short (nonempty : 0 < name.length) (short : name.length ≤ 16) {rest : Bytes} :
    decodeText enc (enc.aes.encrypt (xorBytes (padded name (16 - name.length)) (enc.iv.take 16)) ++ rest) 16 =
      .ok (some (padded name (16 - name.length + 1))) := by
  have ivLength : (enc.iv.take 16).length = 16 := by
    have enough := enc.ivlen
    rw [aesBlockSize] at enough
    rw [List.length_take]
    omega
  have blockLength : (padded name (16 - name.length)).length = 16 := by
    rw [length_padded]
    omega
  have masked : (xorBytes (padded name (16 - name.length)) (enc.iv.take 16)).length = 16 := by
    rw [length_xorBytes, blockLength, ivLength]
    rfl
  have sealed := enc.aes.length_encrypt _ masked
  obtain ⟨_, run⟩ := decodeText_one enc (enc.aes.encrypt (xorBytes (padded name (16 - name.length))
    (enc.iv.take 16)) ++ rest) (by rw [List.length_append, sealed, aesBlockSize]; omega)
  rw [List.take_left' sealed, enc.aes.decrypt_encrypt _ masked, xorBytes_cancel (by omega), padded_terminated] at run
  rw [run, strlenAt_append name (List.replicate (16 - name.length) 0) (by
    rw [List.drop_zero, padded_succ]) noNul, ok_bind, paddingClean_padded (by omega) (by omega), ok_bind]
  rfl

theorem decodeText_long (long : 16 < name.length) {count : ℕ} (size : alignA256Bs name.length = name.length + count)
    {rest : Bytes} :
    decodeText enc (longText enc name count ++ rest) (name.length + count) =
      .ok (some (padded name (count + 1))) := by
  obtain ⟨_, tight, whole⟩ := alignA256Bs_spec name.length
  obtain ⟨blocks, total⟩ : ∃ blocks, name.length + count = (blocks + 2) * 16 := ⟨(name.length + count) / 16 - 2, by omega⟩
  have turns : (name.length - 16 + count) / 16 = blocks + 1 := by omega
  have tailNul : 0 ∉ name.drop 16 := fun inside => noNul (List.mem_of_mem_drop inside)
  have tailLength : (name.drop 16).length = name.length - 16 := List.length_drop
  have headLength : (name.take 16).length = 16 := by
    rw [List.length_take]
    omega
  have sealed : (firstBlock enc name).length = 16 := enc.aes.length_encrypt _ (firstBlock_masked enc long)
  rw [longText, turns, total]
  set hmac := hmacSha512 enc.sha512 enc.iv (name.drop 16) with hmacDef
  set parts := blocksOf 16 (blocks + 1) (padded (name.drop 16) count) with partsDef
  have partsWhole : ∀ block ∈ parts, block.length = 16 := blocksOf_whole (by
    rw [length_padded]
    omega)
  have flat : parts.flatten = padded (name.drop 16) count := by
    rw [flatten_blocksOf, List.take_of_length_le (by rw [length_padded]; omega)]
  have chained := enc.aes.chainEncrypt_whole sealed partsWhole
  have chainCount : (enc.aes.chainEncrypt (firstBlock enc name) parts).length = blocks + 1 := by
    rw [BlockCipher.length_chainEncrypt, length_blocksOf]
  have found := blocksOf_flatten chained rest
  rw [chainCount] at found
  have maskLength : (hmac.take 16).length = 16 := by
    rw [List.length_take, length_hmac]
    omega
  have maskedLength : (xorBytes (name.take 16) (hmac.take 16)).length = 16 := firstBlock_masked enc long
  have opened : enc.aes.decrypt (firstBlock enc name) = xorBytes (name.take 16) (hmac.take 16) :=
    enc.aes.decrypt_encrypt _ maskedLength
  obtain ⟨_, run⟩ := decodeText_more enc (firstBlock enc name ++
    (enc.aes.chainEncrypt (firstBlock enc name) parts).flatten ++ rest) blocks (by
      rw [List.length_append, List.length_append, sealed, length_flatten_whole chained, chainCount, aesBlockSize]
      omega)
  rw [List.append_assoc, List.take_left' sealed, List.drop_left' sealed, found, opened,
    BlockCipher.chainDecrypt_chainEncrypt sealed partsWhole, flat, List.append_assoc, padded_terminated] at run
  have tail : (xorBytes (name.take 16) (hmac.take 16) ++ padded (name.drop 16) (count + 1)).drop 16 =
      name.drop 16 ++ 0 :: List.replicate count 0 := by
    rw [List.drop_left' maskedLength, padded_succ]
  have unmasked : xor16Inplace (xorBytes (name.take 16) (hmac.take 16) ++ padded (name.drop 16) (count + 1)) hmac =
      padded name (count + 1) := by
    rw [xor16Inplace, xorCntInplace, aesBlockSize, List.take_left' maskedLength, List.drop_left' maskedLength,
      xorBytes_cancel (by omega), padded, ← List.append_assoc, List.take_append_drop, padded]
  rw [List.append_assoc, run, strlenAt_append _ _ tail tailNul, ok_bind, readAt_ok (by
    rw [List.length_append, maskedLength, length_padded]
    omega), tail, List.take_left' rfl, ok_bind, ← hmacDef]
  simp only [unmasked]
  rw [paddingClean_padded (by omega) (by omega), ok_bind]
  rfl

/-- The text cipher on a terminated name: the block holds what its length says,
and decoding it gives the name back. -/
theorem text_round_trip (nonempty : name ≠ []) :
    ∃ sealed count, encodeText enc (name ++ [0]) name.length = .ok (sealed, sealed.length) ∧
      ∀ rest, decodeText enc (sealed ++ rest) sealed.length = .ok (some (padded name (count + 1))) := by
  have positive := List.length_pos_iff.mpr nonempty
  rcases Nat.lt_or_ge 16 name.length with long | short
  · obtain ⟨above, tight, whole⟩ := alignA256Bs_spec name.length
    obtain ⟨count, size⟩ := Nat.exists_eq_add_of_le above
    have outLength := length_longText enc count long (by omega)
    refine ⟨longText enc name count, count, ?_, ?_⟩
    · rw [outLength]
      exact encodeText_long enc long size
    · intro rest
      rw [outLength]
      exact decodeText_long enc noNul long size
  · have sealed : (enc.aes.encrypt (xorBytes (padded name (16 - name.length)) (enc.iv.take 16))).length = 16 := by
      have enough := enc.ivlen
      rw [aesBlockSize] at enough
      apply enc.aes.length_encrypt
      rw [length_xorBytes, length_padded, List.length_take, aesBlockSize]
      omega
    refine ⟨enc.aes.encrypt (xorBytes (padded name (16 - name.length)) (enc.iv.take 16)), 16 - name.length, ?_, ?_⟩
    · rw [sealed]
      exact encodeText_short enc positive short
    · intro rest
      rw [sealed]
      exact decodeText_short enc noNul positive short

end RoundTrip
end Decoder

theorem alphabet_safe : ∀ char ∈ base32Table, char ≠ 0 ∧ char ≠ 0x2f := by decide +kernel

section Filename
variable (key : TextEncdec) (name : Bytes)

theorem flddecode_ok {stored : Bytes} (terminated : 0 ∈ stored) :
    ∃ result, flddecodeFilename key stored = .ok result := by
  obtain ⟨len, found, ends⟩ := strlenAt_ok stored 0 (by simpa using terminated)
  rw [flddecodeFilename, found, ok_bind]
  rcases base32Decode_spec stored len (by omega) with ⟨_, run⟩ | ⟨_, out, _, _, run, _, _⟩
  · exact ⟨none, by rw [run]; rfl⟩
  · obtain ⟨result, decoded⟩ := decodeText_ok key (out ++ [0]) out.length (by simp)
    exact ⟨result, by rw [run]; exact decoded⟩

theorem fldencode_opens (nonempty : name ≠ []) (noNul : 0 ∉ name) :
    ∃ encoded buffer, fldencodeFilename key (name ++ [0]) = .ok (encoded ++ [0]) ∧
      (∀ char ∈ encoded, char ∈ base32Table) ∧ flddecodeFilename key (encoded ++ [0]) = .ok (some buffer) ∧
      cstring buffer = name := by
  obtain ⟨sealed, count, encoded, opens⟩ := text_round_trip key noNul nonempty
  obtain ⟨values, zeros, written, small, same, short⟩ := base32Encode_spec sealed sealed.length le_rfl
  rw [List.take_length] at same
  have inTable : ∀ char ∈ values.map symbol, char ∈ base32Table := by
    intro char member
    obtain ⟨value, inside, rfl⟩ := List.mem_map.mp member
    exact symbol_mem value (small value inside)
  have noNulEncoded : 0 ∉ values.map symbol := fun inside => (alphabet_safe 0 (inTable 0 inside)).1 rfl
  refine ⟨values.map symbol, padded name (count + 1), ?_, inTable, ?_, cstring_padded noNul⟩
  · rw [fldencodeFilename, strlenAt_append name [] rfl noNul, ok_bind, encoded, ok_bind]
    simp only [written, ok_bind]
    rfl
  · rw [flddecodeFilename, strlenAt_append (values.map symbol) [] rfl noNulEncoded, ok_bind,
      List.length_map, base32_round_trip small same short, ok_bind]
    exact opens [0]

/-- No access of encoder or decoder leaves its block, the encoded form is in the
alphabet, and it determines the name. -/
theorem filename_round_trip (nonempty : name ≠ []) (noNul : 0 ∉ name) :
    ∃ encoded, fldencodeFilename key (name ++ [0]) = .ok (encoded ++ [0]) ∧
      (∀ char ∈ encoded, char ∈ base32Table ∧ char ≠ 0 ∧ char ≠ 0x2f) ∧
      (∃ buffer, flddecodeFilename key (encoded ++ [0]) = .ok (some buffer) ∧ cstring buffer = name) ∧
      (∀ other, other ≠ [] → 0 ∉ other →
        fldencodeFilename key (other ++ [0]) = .ok (encoded ++ [0]) → other = name) ∧
      ∀ stored, 0 ∈ stored → ∃ result, flddecodeFilename key stored = .ok result := by
  obtain ⟨encoded, buffer, written, inTable, opens, same⟩ := fldencode_opens key name nonempty noNul
  refine ⟨encoded, written, fun char member => ⟨inTable char member, alphabet_safe char (inTable char member)⟩,
    ⟨buffer, opens, same⟩, ?_, fun stored terminated => flddecode_ok key terminated⟩
  intro other otherNonempty otherNoNul sameForm
  obtain ⟨_, otherBuffer, otherWritten, _, otherOpens, otherSame⟩ := fldencode_opens key other otherNonempty otherNoNul
  have equal := List.append_cancel_right (Except.ok.inj (otherWritten.symm.trans sameForm))
  rw [equal, opens] at otherOpens
  cases otherOpens
  exact otherSame.symm.trans same

/-- A name of seventeen bytes takes two blocks and fifty-two characters. -/
theorem filename_round_trip_two_blocks :
    ∃ encoded, fldencodeFilename ⟨default, default, List.replicate 16 9, by decide⟩ (List.replicate 17 97 ++ [0]) =
      .ok (encoded ++ [0]) ∧
      ∃ buffer, flddecodeFilename ⟨default, default, List.replicate 16 9, by decide⟩ (encoded ++ [0]) =
        .ok (some buffer) ∧ cstring buffer = List.replicate 17 97 := by
  obtain ⟨encoded, written, _, opens, _⟩ := filename_round_trip ⟨default, default, List.replicate 16 9, by decide⟩
    (List.replicate 17 97) (by decide) (by decide)
  exact ⟨encoded, written, opens⟩

end Filename
end Pclsync.Proofs.Filename
