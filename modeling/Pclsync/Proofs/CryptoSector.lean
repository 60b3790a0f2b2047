import Pclsync.Crypto.Sector

/-! A sector is recovered from its ciphertext and authenticator. Encoder and
decoder are both reduced to block chaining; the last two blocks of a sector
that is not a multiple of the block size trade places and are treated apart. -/

namespace Pclsync.Proofs.CryptoSector
open Pclsync.Crypto Library

theorem length_hmac (sha512 : Sha512) (key message : Bytes) : (hmacSha512 sha512 key message).length = 64 :=
  sha512.length_digest _

theorem xor16_eq {data key : Bytes} (whole : data.length = 16) :
    xor16Inplace data key = xorBytes data (key.take 16) := by
  rw [xor16Inplace, xorCntInplace, aesBlockSize, List.take_of_length_le (by omega), List.drop_of_length_le (by omega),
    List.append_nil]

theorem length_xorCnt {data key : Bytes} {count : ℕ} (enough : count ≤ key.length) :
    (xorCntInplace data key count).length = data.length := by
  simp [xorCntInplace]
  omega

theorem length_copyTo {data src : Bytes} {offset : ℕ} (fits : offset + src.length ≤ data.length) :
    (copyTo data offset src).length = data.length := by
  simp [copyTo]
  omega

section Chaining
variable (aes : Aes)

theorem encodeSecLoop_eq {blocks : ℕ} {chain data : Bytes} (start : chain.length = 16)
    (enough : blocks * 16 ≤ data.length) :
    encodeSecLoop aes blocks chain data =
      ((aes.chainEncrypt chain (blocksOf 16 blocks data)).flatten,
        (aes.chainEncrypt chain (blocksOf 16 blocks data)).getLastD chain) := by
  induction blocks generalizing chain data with
  | zero => rfl
  | succ blocks ih =>
    rw [Nat.succ_mul] at enough
    have masked : (xorBytes chain (data.take 16)).length = 16 := by
      rw [length_xorBytes, List.length_take]
      omega
    have next := aes.length_encrypt _ masked
    rw [encodeSecLoop, xor16_eq start, ih next (by rw [List.length_drop]; omega)]
    simp only [blocksOf, BlockCipher.chainEncrypt, List.flatten_cons, List.getLastD_cons]

theorem decodeSecLoop_eq {blocks : ℕ} {chain data : Bytes} (start : chain.length = 16)
    (enough : blocks * 16 ≤ data.length) :
    decodeSecLoop aes blocks chain data =
      ((aes.chainDecrypt chain (blocksOf 16 blocks data)).flatten, (blocksOf 16 blocks data).getLastD chain) := by
  induction blocks generalizing chain data with
  | zero => rfl
  | succ blocks ih =>
    rw [Nat.succ_mul] at enough
    have block : (data.take 16).length = 16 := by
      rw [List.length_take]
      omega
    have whole : chain.take 16 = chain := List.take_of_length_le start.le
    rw [decodeSecLoop, xor16_eq (aes.length_decrypt _ block), whole, ih block (by rw [List.length_drop]; omega)]
    simp only [blocksOf, BlockCipher.chainDecrypt, List.flatten_cons, List.getLastD_cons]

theorem decode4_eq {chain src : Bytes} (start : chain.length = 16) (enough : src.length = 64) :
    decode4BlocksConsecXor aes src (chain ++ src.take 48) = (aes.chainDecrypt chain (blocksOf 16 4 src)).flatten := by
  have parts : src.take 48 = src.take 16 ++ ((src.drop 16).take 16 ++ (src.drop 32).take 16) := by
    rw [show 48 = 16 + (16 + 16) by omega, List.take_add, List.take_add, List.drop_drop]
  have block : ∀ offset, offset + 16 ≤ 64 → ((src.drop offset).take 16).length = 16 := by
    intro offset inside
    rw [List.length_take, List.length_drop]
    omega
  have first : (src.take 16).length = 16 := by
    rw [List.length_take]
    omega
  simp only [decode4BlocksConsecXor, parts, List.append_assoc]
  rw [xorBytes_append (by rw [aes.length_decrypt _ first, start]),
    xorBytes_append (by rw [aes.length_decrypt _ (block 16 (by omega)), first]),
    xorBytes_append (by rw [aes.length_decrypt _ (block 32 (by omega)), block 16 (by omega)])]
  simp [blocksOf, BlockCipher.chainDecrypt]

theorem decodeSecLoop4_eq {turns : ℕ} {chain data : Bytes} (start : chain.length = 16)
    (enough : turns * 64 ≤ data.length) :
    decodeSecLoop4 aes turns chain data =
      ((aes.chainDecrypt chain (blocksOf 16 (4 * turns) data)).flatten,
        (blocksOf 16 (4 * turns) data).getLastD chain) := by
  induction turns generalizing chain data with
  | zero => rfl
  | succ turns ih =>
    rw [Nat.succ_mul] at enough
    have four : (data.take 64).length = 64 := by
      rw [List.length_take]
      omega
    have last : ((data.take 64).drop 48).length = 16 := by
      rw [List.length_drop, four]
    have head : blocksOf 16 4 (data.take 64) = blocksOf 16 4 data := by
      simp [blocksOf, List.take_take, List.drop_take]
    have ending : (blocksOf 16 4 data).getLastD chain = (data.take 64).drop 48 := by
      simp [blocksOf, List.drop_take]
    rw [decodeSecLoop4, decode4_eq aes start four, ih last (by rw [List.length_drop]; omega), Nat.mul_succ, Nat.add_comm,
      blocksOf_add, BlockCipher.chainDecrypt_append, head, ending, List.flatten_append]
    simp only [List.getLastD_eq_getLast?, List.getLast?_append, Option.getD_or] at ending ⊢
    rw [ending]

/-- The loop over four blocks and the loop over single blocks decrypt one chain. -/
theorem decodeSecLoops_eq {datalen : ℕ} {chain : Bytes} (data : Bytes) (start : chain.length = 16)
    (whole : datalen % 16 = 0) (enough : datalen ≤ data.length) :
    let four := decodeSecLoop4 aes (datalen / 64) chain data
    let one := decodeSecLoop aes (datalen % 64 / 16) four.2 (data.drop (datalen / 64 * 64))
    four.1 ++ one.1 = (aes.chainDecrypt chain (blocksOf 16 (datalen / 16) data)).flatten ∧
      one.2 = (blocksOf 16 (datalen / 16) data).getLastD chain := by
  have split : datalen / 16 = 4 * (datalen / 64) + datalen % 64 / 16 := by omega
  have position : 4 * (datalen / 64) * 16 = datalen / 64 * 64 := by omega
  have middle : ((blocksOf 16 (4 * (datalen / 64)) data).getLastD chain).length = 16 := by
    rcases List.mem_cons.mp List.getLastD_mem_cons with same | member
    · rw [same, start]
    · exact blocksOf_whole (by omega) _ member
  simp only [decodeSecLoop4_eq aes start (show datalen / 64 * 64 ≤ data.length by omega)]
  rw [decodeSecLoop_eq aes middle (by rw [List.length_drop]; omega), split, blocksOf_add, position]
  refine ⟨?_, ?_⟩
  · rw [BlockCipher.chainDecrypt_append, List.flatten_append]
  · simp only [List.getLastD_eq_getLast?, List.getLast?_append, Option.getD_or]

end Chaining

/-! The comparison of authenticators. -/

theorem foldl_or (bytes : Bytes) (start : UInt8) :
    bytes.foldl (fun r byte => r ||| byte.toUInt32) start.toUInt32 = (bytes.foldl (· ||| ·) start).toUInt32 := by
  induction bytes generalizing start with
  | nil => rfl
  | cons byte bytes ih => rw [List.foldl_cons, ← UInt8.toUInt32_or, ih, List.foldl_cons]

theorem foldl_or_eq_zero (bytes : Bytes) (start : UInt8) :
    bytes.foldl (· ||| ·) start = 0 ↔ start = 0 ∧ ∀ byte ∈ bytes, byte = 0 := by
  induction bytes generalizing start with
  | nil => simp
  | cons byte bytes ih =>
    rw [List.foldl_cons, ih, UInt8.or_eq_zero_iff, List.forall_mem_cons, and_assoc]

theorem xorBytes_eq_zero {first second : Bytes} (same : first.length = second.length) :
    (∀ byte ∈ xorBytes first second, byte = 0) ↔ first = second := by
  induction first generalizing second with
  | nil =>
    cases second with
    | nil => simp [xorBytes]
    | cons _ _ => simp at same
  | cons byte first ih =>
    cases second with
    | nil => simp at same
    | cons key second =>
      have rest := ih (Nat.succ.inj same)
      simp only [xorBytes] at rest ⊢
      rw [List.zipWith_cons_cons, List.forall_mem_cons, rest, UInt8.xor_eq_zero_iff, List.cons.injEq]

theorem mask_eq (r : UInt8) : ((((r.toUInt32 - 1) >>> 8) &&& 1) ^^^ 1).toNat = if r = 0 then 0 else 1 := by
  revert r
  decide +kernel

theorem memcmpConst_eq {first second : Bytes} {cnt : ℕ} (same : (first.take cnt).length = (second.take cnt).length) :
    memcmpConst first second cnt = if first.take cnt = second.take cnt then 0 else 1 := by
  have fold := foldl_or (xorBytes (first.take cnt) (second.take cnt)) 0
  have zero := foldl_or_eq_zero (xorBytes (first.take cnt) (second.take cnt)) 0
  rw [xorBytes_eq_zero same] at zero
  simp only [memcmpConst]
  rw [show (0 : UInt32) = (0 : UInt8).toUInt32 from rfl, fold, mask_eq]
  simp only [zero, true_and]

theorem decode2_encode2 (aes : Aes) {src : Bytes} (whole : src.length = 32) :
    decode2BlocksConsec aes (encode2BlocksConsec aes src) = src := by
  have first : (src.take 16).length = 16 := by
    rw [List.length_take]
    omega
  have second : ((src.drop 16).take 16).length = 16 := by
    rw [List.length_take, List.length_drop]
    omega
  have sealed := aes.length_encrypt _ first
  have other := aes.length_encrypt _ second
  simp only [decode2BlocksConsec, encode2BlocksConsec, List.take_left' sealed, List.drop_left' sealed,
    List.take_of_length_le other.le, aes.decrypt_encrypt _ first, aes.decrypt_encrypt _ second]
  rw [← List.take_add, List.take_of_length_le whole.le]

theorem length_decode2 (aes : Aes) {src : Bytes} (whole : src.length = 32) :
    (decode2BlocksConsec aes src).length = 32 := by
  have first : (src.take 16).length = 16 := by
    rw [List.length_take]
    omega
  have second : ((src.drop 16).take 16).length = 16 := by
    rw [List.length_take, List.length_drop]
    omega
  rw [decode2BlocksConsec, List.length_append, aes.length_decrypt _ first, aes.length_decrypt _ second, aesBlockSize]

/-- Ciphertext stealing: the partial last block and the whole block before it. -/
theorem steal_opens (aes : Aes) {chain block last : Bytes} (start : chain.length = 16) (whole : block.length = 16)
    (partially : last.length < 16) :
    let aesdst := aes.encrypt (xorBytes chain block)
    let sealed := aes.encrypt (xorCntInplace aesdst last last.length)
    let opened := xorCntInplace (aes.decrypt sealed) (aesdst.take last.length) last.length
    sealed.length = 16 ∧ opened.take last.length = last ∧
      xor16Inplace (aes.decrypt (copyTo opened 0 (aesdst.take last.length))) chain = block := by
  intro aesdst sealed opened
  have masked : (xorBytes chain block).length = 16 := by rw [length_xorBytes, start, whole, Nat.min_self]
  have dstLength : aesdst.length = 16 := aes.length_encrypt _ masked
  have stolen : (aesdst.take last.length).length = last.length := by
    rw [List.length_take]
    omega
  have hidden : xorCntInplace aesdst last last.length =
      xorBytes (aesdst.take last.length) last ++ aesdst.drop last.length := by
    rw [xorCntInplace, List.take_length]
  have hiddenLength : (xorCntInplace aesdst last last.length).length = 16 := by
    rw [length_xorCnt le_rfl, dstLength]
  have headLength : (xorBytes (aesdst.take last.length) last).length = last.length := by
    rw [length_xorBytes, stolen, Nat.min_self]
  have shown : opened = last ++ aesdst.drop last.length := by
    simp only [opened, sealed]
    rw [aes.decrypt_encrypt _ hiddenLength, xorCntInplace, hidden, List.take_left' headLength,
      List.drop_left' headLength, List.take_of_length_le stolen.le, xorBytes_comm (aesdst.take last.length),
      xorBytes_cancel stolen.ge]
  have restored : copyTo opened 0 (aesdst.take last.length) = aesdst := by
    rw [copyTo, stolen, shown, List.take_zero, List.nil_append, Nat.zero_add, List.drop_left' rfl, List.take_append_drop]
  refine ⟨aes.length_encrypt _ hiddenLength, by rw [shown, List.take_left' rfl], ?_⟩
  rw [restored, aes.decrypt_encrypt _ masked, xor16_eq masked, List.take_of_length_le start.le, xorBytes_comm chain,
    xorBytes_cancel (by omega)]

/-- The whole blocks come back, and both sides end on the same chain value. -/
theorem chain_opens (aes : Aes) (rest : Bytes) {datalen : ℕ} {chain data : Bytes} (start : chain.length = 16)
    (whole : datalen % 16 = 0) (enough : datalen ≤ data.length) :
    let sealed := encodeSecLoop aes (datalen / 16) chain data
    let four := decodeSecLoop4 aes (datalen / 64) chain (sealed.1 ++ rest)
    let one := decodeSecLoop aes (datalen % 64 / 16) four.2 ((sealed.1 ++ rest).drop (datalen / 64 * 64))
    sealed.1.length = datalen ∧ four.1 ++ one.1 = data.take datalen ∧ one.2 = sealed.2 ∧ sealed.2.length = 16 := by
  intro sealed four one
  have count : datalen / 16 * 16 = datalen := by omega
  have parts : ∀ block ∈ blocksOf 16 (datalen / 16) data, block.length = 16 := blocksOf_whole (by omega)
  have form : sealed = _ := encodeSecLoop_eq aes start (show datalen / 16 * 16 ≤ data.length by omega)
  have outParts := aes.chainEncrypt_whole start parts
  have outCount : (aes.chainEncrypt chain (blocksOf 16 (datalen / 16) data)).length = datalen / 16 := by
    rw [BlockCipher.length_chainEncrypt, length_blocksOf]
  have found := blocksOf_flatten outParts rest
  rw [outCount] at found
  have outLength : sealed.1.length = datalen := by
    rw [form, length_flatten_whole outParts, outCount, aesBlockSize, count]
  have loops := decodeSecLoops_eq aes (sealed.1 ++ rest) start whole (by
    rw [List.length_append, outLength]
    omega)
  refine ⟨outLength, ?_, ?_, ?_⟩
  · rw [loops.1, form, found, BlockCipher.chainDecrypt_chainEncrypt start parts, flatten_blocksOf, count]
  · rw [loops.2, form, found]
  · rw [form]
    rcases List.mem_cons.mp List.getLastD_mem_cons with same | member
    · rw [same, start]
    · exact outParts _ member

section RoundTrip
variable (enc : SectorEncdec) {rnd data : Bytes} (sectorid : ℕ) (nonce : rnd.length = 16)
include nonce

/-- Less than a block: the nonce is the ciphertext, and the data is hidden in
the authenticator. -/
theorem openSec_short (short : data.length < 16) :
    openSec enc (encodeSec enc rnd data sectorid).out (encodeSec enc rnd data sectorid).authout =
      ⟨data, rnd ++ (hmacSha512 enc.sha512 enc.iv (data ++ le64 sectorid ++ rnd)).take 16⟩ := by
  set mac := (hmacSha512 enc.sha512 enc.iv (data ++ le64 sectorid ++ rnd)).take 16
  have macLength : mac.length = 16 := by
    rw [List.length_take, length_hmac]
    omega
  have outLength : (rnd.take data.length).length = data.length := by
    rw [List.length_take]
    omega
  have masked : xorCntInplace rnd data data.length = xorBytes (rnd.take data.length) data ++ rnd.drop data.length := by
    rw [xorCntInplace, List.take_length]
  have headLength : (xorBytes (rnd.take data.length) data).length = data.length := by
    rw [length_xorBytes, outLength, Nat.min_self]
  have authLength : (xorCntInplace rnd data data.length ++ mac).length = 32 := by
    rw [List.length_append, length_xorCnt le_rfl, macLength, nonce]
  have unmasked : xorCntInplace (xorCntInplace rnd data data.length ++ mac) (rnd.take data.length) data.length =
      data ++ (rnd.drop data.length ++ mac) := by
    rw [xorCntInplace, masked, List.append_assoc, List.take_left' headLength, List.drop_left' headLength,
      List.take_of_length_le outLength.le, xorBytes_comm (rnd.take data.length), xorBytes_cancel outLength.ge]
  simp only [encodeSec, openSec, aesBlockSize, short, if_true, outLength]
  rw [decode2_encode2 enc.aes authLength, unmasked, List.take_left' rfl]
  simp only [copyTo, List.take_zero, List.nil_append, Nat.zero_add, outLength]
  rw [List.drop_left' rfl, ← List.append_assoc, List.take_append_drop]

/-- The two halves of the nonce stand around the authenticator. -/
theorem unwrap_hmac {mac : Bytes} (macLength : mac.length = 16) :
    let hmac := rnd.take 8 ++ mac ++ rnd.drop 8
    (hmac.drop 8).take 16 = mac ∧
      copyTo (copyTo hmac 8 ((hmac.drop 24).take 8)) 16 ((hmac.drop 8).take 16) = rnd ++ mac := by
  obtain ⟨front, back, rfl, frontLength, backLength⟩ :
      ∃ front back, rnd = front ++ back ∧ front.length = 8 ∧ back.length = 8 :=
    ⟨rnd.take 8, rnd.drop 8, (List.take_append_drop 8 rnd).symm, by rw [List.length_take]; omega,
      by rw [List.length_drop]; omega⟩
  have joined : (front ++ mac).length = 24 := by rw [List.length_append, frontLength, macLength]
  simp only [List.take_left' frontLength, List.drop_left' frontLength]
  have inner : ((front ++ mac ++ back).drop 8).take 16 = mac := by
    rw [List.append_assoc, List.drop_left' frontLength, List.take_left' macLength]
  have outer : ((front ++ mac ++ back).drop 24).take 8 = back := by
    rw [List.drop_left' joined, List.take_of_length_le backLength.le]
  have start : (front ++ mac ++ back).take 8 = front := by rw [List.append_assoc, List.take_left' frontLength]
  have moved : copyTo (front ++ mac ++ back) 8 back = front ++ back ++ ((front ++ mac ++ back).drop 16) := by
    rw [copyTo, backLength, start]
  have rest : ((front ++ mac ++ back).drop 16).length = 16 := by
    simp [frontLength, macLength, backLength]
  have nonceLength : (front ++ back).length = 16 := by rw [List.length_append, frontLength, backLength]
  refine ⟨inner, ?_⟩
  rw [inner, outer, moved, copyTo, List.take_left' nonceLength, List.drop_of_length_le (by
    rw [List.length_append, nonceLength, rest, macLength]), List.append_nil]

omit nonce in
theorem openSec_aligned {auth : Bytes} (long : 16 ≤ data.length) (aligned : data.length % 16 = 0) :
    let hmac := decode2BlocksConsec enc.aes auth
    let four := decodeSecLoop4 enc.aes (data.length / 64) ((hmac.drop 8).take 16) data
    let one := decodeSecLoop enc.aes (data.length % 64 / 16) four.2 (data.drop (data.length / 64 * 64))
    openSec enc data auth = ⟨four.1 ++ one.1,
      copyTo (copyTo hmac 8 ((hmac.drop 24).take 8)) 16 ((hmac.drop 8).take 16)⟩ := by
  simp only [openSec, aesBlockSize, Nat.not_lt.mpr long, if_false, aligned, ne_eq, not_true]

omit nonce in
theorem openSec_steal {auth : Bytes} (long : 16 ≤ data.length) (partially : data.length % 16 ≠ 0) :
    let hmac := decode2BlocksConsec enc.aes auth
    let needsteal := data.length % 16
    let datalen := data.length - (needsteal + 16)
    let four := decodeSecLoop4 enc.aes (datalen / 64) ((hmac.drop 8).take 16) data
    let one := decodeSecLoop enc.aes (datalen % 64 / 16) four.2 (data.drop (datalen / 64 * 64))
    let aesdst := xorCntInplace (enc.aes.decrypt ((data.drop datalen).take 16)) ((data.drop datalen).drop 16) needsteal
    openSec enc data auth =
      ⟨four.1 ++ one.1 ++ xor16Inplace (enc.aes.decrypt
          (copyTo aesdst 0 (((data.drop datalen).drop 16).take needsteal))) one.2 ++ aesdst.take needsteal,
        copyTo (copyTo hmac 8 ((hmac.drop 24).take 8)) 16 ((hmac.drop 8).take 16)⟩ := by
  simp only [openSec, aesBlockSize, Nat.not_lt.mpr long, if_false, partially, ne_eq, not_false_eq_true, if_true]

/-- Whole blocks: chaining from the authenticator on. -/
theorem openSec_whole (long : 16 ≤ data.length) (aligned : data.length % 16 = 0) :
    openSec enc (encodeSec enc rnd data sectorid).out (encodeSec enc rnd data sectorid).authout =
      ⟨data, rnd ++ (hmacSha512 enc.sha512 enc.iv (data ++ le64 sectorid ++ rnd)).take 16⟩ := by
  set mac := (hmacSha512 enc.sha512 enc.iv (data ++ le64 sectorid ++ rnd)).take 16 with macDef
  have macLength : mac.length = 16 := by
    rw [List.length_take, length_hmac]
    omega
  have authLength : (rnd.take 8 ++ mac ++ rnd.drop 8).length = 32 := by
    simp [nonce, macLength]
  obtain ⟨inner, outer⟩ := unwrap_hmac nonce macLength
  have encoded : encodeSec enc rnd data sectorid = ⟨(encodeSecLoop enc.aes (data.length / 16) mac data).1,
      encode2BlocksConsec enc.aes (rnd.take 8 ++ mac ++ rnd.drop 8)⟩ := by
    simp only [encodeSec, aesBlockSize, Nat.not_lt.mpr long, if_false, aligned, ne_eq, not_true, macDef]
  have opened := chain_opens enc.aes [] macLength aligned le_rfl
  simp only [List.append_nil, List.take_length] at opened
  obtain ⟨outLength, plain, -, -⟩ := opened
  simp only [encoded]
  rw [openSec_aligned enc (by rw [outLength]; exact long) (by rw [outLength]; exact aligned),
    decode2_encode2 enc.aes authLength, outer, inner, outLength, plain]

/-- A partial last block takes the ciphertext it needs from the block before it. -/
theorem openSec_partial (long : 16 ≤ data.length) (partially : data.length % 16 ≠ 0) :
    openSec enc (encodeSec enc rnd data sectorid).out (encodeSec enc rnd data sectorid).authout =
      ⟨data, rnd ++ (hmacSha512 enc.sha512 enc.iv (data ++ le64 sectorid ++ rnd)).take 16⟩ := by
  set mac := (hmacSha512 enc.sha512 enc.iv (data ++ le64 sectorid ++ rnd)).take 16 with macDef
  have macLength : mac.length = 16 := by
    rw [List.length_take, length_hmac]
    omega
  have authLength : (rnd.take 8 ++ mac ++ rnd.drop 8).length = 32 := by
    simp [nonce, macLength]
  obtain ⟨inner, outer⟩ := unwrap_hmac nonce macLength
  set needsteal := data.length % 16 with needstealDef
  set datalen := data.length - (needsteal + 16) with datalenDef
  have small : needsteal < 16 := Nat.mod_lt _ (by omega)
  have whole : datalen % 16 = 0 := by omega
  set block := (data.drop datalen).take 16 with blockDef
  set last := (data.drop datalen).drop 16 with lastDef
  have blockLength : block.length = 16 := by
    rw [List.length_take, List.length_drop]
    omega
  have lastLength : last.length = needsteal := by
    rw [List.length_drop, List.length_drop]
    omega
  obtain ⟨sealed, sealedDef⟩ : ∃ sealed, encodeSecLoop enc.aes (datalen / 16) mac data = sealed := ⟨_, rfl⟩
  set aesdst := enc.aes.encrypt (xorBytes sealed.2 block) with aesdstDef
  set swapped := enc.aes.encrypt (xorCntInplace aesdst last last.length) with swappedDef
  have opened := chain_opens enc.aes (swapped ++ aesdst.take needsteal) macLength whole
    (show datalen ≤ data.length by omega)
  simp only [sealedDef] at opened
  obtain ⟨outLength, plain, chained, chainLength⟩ := opened
  obtain ⟨swappedLength, tailOpens, blockOpens⟩ := steal_opens enc.aes chainLength blockLength
    (show last.length < 16 by omega)
  have aesdstLength : aesdst.length = 16 := by
    apply enc.aes.length_encrypt
    rw [length_xorBytes, chainLength, blockLength, Nat.min_self]
  have stolen : (aesdst.take needsteal).length = needsteal := by
    rw [List.length_take]
    omega
  have masked : xor16Inplace sealed.2 (data.drop datalen) = xorBytes sealed.2 block := xor16_eq chainLength
  have encoded : encodeSec enc rnd data sectorid = ⟨sealed.1 ++ swapped ++ aesdst.take needsteal,
      encode2BlocksConsec enc.aes (rnd.take 8 ++ mac ++ rnd.drop 8)⟩ := by
    simp only [encodeSec, aesBlockSize, Nat.not_lt.mpr long, if_false, partially, ne_eq, not_false_eq_true, if_true,
      ← macDef, ← needstealDef, ← datalenDef, sealedDef, masked, ← aesdstDef, ← lastDef, swappedDef, lastLength]
  have cipherLength : (sealed.1 ++ (swapped ++ aesdst.take needsteal)).length = data.length := by
    rw [List.length_append, List.length_append, outLength, swappedLength, stolen]
    omega
  have ending : (sealed.1 ++ (swapped ++ aesdst.take needsteal)).drop datalen = swapped ++ aesdst.take needsteal :=
    List.drop_left' outLength
  have restored : data.take datalen ++ block ++ last = data := by
    rw [List.append_assoc, List.take_append_drop, List.take_append_drop]
  simp only [encoded, List.append_assoc sealed.1]
  rw [openSec_steal enc (by rw [cipherLength]; exact long) (by rw [cipherLength]; exact partially),
    decode2_encode2 enc.aes authLength, outer, inner, cipherLength, ← needstealDef, ← datalenDef, plain, ending,
    List.take_left' swappedLength, List.drop_left' swappedLength, chained, List.take_of_length_le stolen.le,
    ← lastLength, tailOpens, blockOpens, restored]

theorem openSec_encodeSec :
    openSec enc (encodeSec enc rnd data sectorid).out (encodeSec enc rnd data sectorid).authout =
      ⟨data, rnd ++ (hmacSha512 enc.sha512 enc.iv (data ++ le64 sectorid ++ rnd)).take 16⟩ := by
  rcases Nat.lt_or_ge data.length 16 with short | long
  · exact openSec_short enc sectorid nonce short
  · by_cases aligned : data.length % 16 = 0
    · exact openSec_whole enc sectorid nonce long aligned
    · exact openSec_partial enc sectorid nonce long aligned

end RoundTrip

theorem length_opened (enc : SectorEncdec) {data auth : Bytes} (authLength : auth.length = 32) :
    (openSec enc data auth).hmac.length = 32 := by
  have plain := length_decode2 enc.aes authLength
  rcases Nat.lt_or_ge data.length 16 with short | long
  · have masked : (xorCntInplace (decode2BlocksConsec enc.aes auth) data data.length).length = 32 := by
      rw [length_xorCnt le_rfl, plain]
    simp only [openSec, aesBlockSize, short, if_true]
    rw [length_copyTo (by omega), masked]
  · obtain ⟨hmac, hmacDef⟩ : ∃ hmac, decode2BlocksConsec enc.aes auth = hmac := ⟨_, rfl⟩
    rw [hmacDef] at plain
    have moved : (copyTo (copyTo hmac 8 ((hmac.drop 24).take 8)) 16 ((hmac.drop 8).take 16)).length = 32 := by
      have upper : ((hmac.drop 24).take 8).length = 8 := by
        rw [List.length_take, List.length_drop]
        omega
      have lower : ((hmac.drop 8).take 16).length = 16 := by
        rw [List.length_take, List.length_drop]
        omega
      have first : (copyTo hmac 8 ((hmac.drop 24).take 8)).length = hmac.length := length_copyTo (by omega)
      rw [length_copyTo (by omega), first, plain]
    by_cases aligned : data.length % 16 = 0
    · rw [openSec_aligned enc long aligned, hmacDef, moved]
    · rw [openSec_steal enc long aligned, hmacDef, moved]

/-- The return value tells whether the stored half of the authenticator agrees
with the one recomputed from the decoded bytes, the id and the nonce. -/
theorem decodeSec_fst (enc : SectorEncdec) {data auth : Bytes} (sectorid : ℕ) (authLength : auth.length = 32) :
    let opened := openSec enc data auth
    let recomputed := hmacSha512 enc.sha512 enc.iv (opened.out ++ le64 sectorid ++ opened.hmac.take 16)
    (decodeSec enc data auth sectorid).1 =
      if recomputed.take 16 = (opened.hmac.drop 16).take 16 then 0 else -1 := by
  intro opened recomputed
  have stored : ((opened.hmac.drop 16).take 16).length = 16 := by
    rw [List.length_take, List.length_drop, length_opened enc authLength]
    omega
  have computed : (recomputed.take 16).length = 16 := by
    rw [List.length_take, length_hmac]
    omega
  have compared := memcmpConst_eq (computed.trans stored.symm)
  simp only [decodeSec]
  rw [compared]
  split <;> rfl

theorem decodeSec_encodeSec (enc : SectorEncdec) {rnd data : Bytes} (sectorid : ℕ) (nonce : rnd.length = 16) :
    decodeSec enc (encodeSec enc rnd data sectorid).out (encodeSec enc rnd data sectorid).authout sectorid =
      (0, data) := by
  have macLength : ((hmacSha512 enc.sha512 enc.iv (data ++ le64 sectorid ++ rnd)).take 16).length = 16 := by
    rw [List.length_take, length_hmac]
    omega
  simp only [decodeSec, openSec_encodeSec enc sectorid nonce, List.take_left' nonce, List.drop_left' nonce]
  rw [memcmpConst_eq (by rw [List.take_of_length_le macLength.le]), List.take_take, Nat.min_self, if_pos rfl]
  rfl

/-- For a sector of any length, decoding undoes encoding, and any stored sector
is accepted exactly when its authenticator is the recomputed one. -/
theorem sector_round_trip (enc : SectorEncdec) {rnd data : Bytes} (sectorid : ℕ) (nonce : rnd.length = 16) :
    decodeSec enc (encodeSec enc rnd data sectorid).out (encodeSec enc rnd data sectorid).authout sectorid = (0, data) ∧
      ∀ stored auth, auth.length = 32 →
        let opened := openSec enc stored auth
        let recomputed := hmacSha512 enc.sha512 enc.iv (opened.out ++ le64 sectorid ++ opened.hmac.take 16)
        (decodeSec enc stored auth sectorid).2 = opened.out ∧
          (decodeSec enc stored auth sectorid).1 =
            if recomputed.take 16 = (opened.hmac.drop 16).take 16 then 0 else -1 := by
  refine ⟨decodeSec_encodeSec enc sectorid nonce, ?_⟩
  intro stored auth authLength opened recomputed
  exact ⟨rfl, decodeSec_fst enc sectorid authLength⟩

/-- Seventeen bytes: one whole block and one stolen byte. -/
theorem sector_round_trip_steal :
    decodeSec ⟨default, default, []⟩ (encodeSec ⟨default, default, []⟩ (List.replicate 16 7) (List.replicate 17 5) 3).out
      (encodeSec ⟨default, default, []⟩ (List.replicate 16 7) (List.replicate 17 5) 3).authout 3 =
        (0, List.replicate 17 5) :=
  (sector_round_trip ⟨default, default, []⟩ 3 (by simp)).1

end Pclsync.Proofs.CryptoSector
