import Pclsync.Library.BlockCipher

/-! Encryption of one data sector. The cipher and the hash come from the TLS
library and are parameters; buffers are byte strings, and a buffer that is
reused in place is rebound under its own name. -/

namespace Pclsync.Crypto
open Library

abbrev Bytes := List UInt8

/-- `PSYNC_AES256_BLOCK_SIZE` -/
abbrev aesBlockSize : ℕ := 16

abbrev Aes := BlockCipher aesBlockSize

structure Sha512 where
  digest : Bytes → Bytes
  length_digest : ∀ message, (digest message).length = 64

instance : Inhabited Sha512 := ⟨⟨fun _ => List.replicate 64 0, fun _ => by simp⟩⟩

/-- `psync_hmac_sha512`, and the `init`, `update` and `final` steps: the context
hashes the concatenation of its updates. The key is cut at the block length. -/
def hmacSha512 (sha512 : Sha512) (key message : Bytes) : Bytes :=
  let key := key.take 128
  let padded := key ++ List.replicate (128 - key.length) 0
  let inner := padded.map (· ^^^ 0x36)
  let outer := padded.map (· ^^^ 0x5c)
  sha512.digest (outer ++ sha512.digest (inner ++ message))

/-- `pcrypto_encdec_iv_t`; one key schedule serves both directions. -/
structure SectorEncdec where
  aes : Aes
  sha512 : Sha512
  iv : Bytes

/-- `memcpy(data + offset, src, ..)` -/
def copyTo (data : Bytes) (offset : ℕ) (src : Bytes) : Bytes :=
  data.take offset ++ src ++ data.drop (offset + src.length)

/-- `xor_cnt_inplace` -/
def xorCntInplace (data key : Bytes) (count : ℕ) : Bytes :=
  xorBytes (data.take count) (key.take count) ++ data.drop count

/-- `xor16_aligned_inplace` and `xor16_unaligned_inplace` -/
def xor16Inplace (data key : Bytes) : Bytes := xorCntInplace data key aesBlockSize

/-- `psync_aes256_encode_2blocks_consec` -/
def encode2BlocksConsec (aes : Aes) (src : Bytes) : Bytes :=
  aes.encrypt (src.take 16) ++ aes.encrypt ((src.drop 16).take 16)

/-- `psync_aes256_decode_2blocks_consec` -/
def decode2BlocksConsec (aes : Aes) (src : Bytes) : Bytes :=
  aes.decrypt (src.take 16) ++ aes.decrypt ((src.drop 16).take 16)

/-- `psync_aes256_decode_4blocks_consec_xor` -/
def decode4BlocksConsecXor (aes : Aes) (src bxor : Bytes) : Bytes :=
  xorBytes (aes.decrypt (src.take 16) ++ aes.decrypt ((src.drop 16).take 16) ++
    aes.decrypt ((src.drop 32).take 16) ++ aes.decrypt ((src.drop 48).take 16)) bxor

/-- The eight bytes of a `uint64_t` in memory. -/
def le64 (value : ℕ) : Bytes := (List.range 8).map fun index => UInt8.ofNat (value >>> (8 * index))

/-- Output and authenticator of `pcrypto_encode_sec`. -/
structure EncodedSector where
  out : Bytes
  authout : Bytes
deriving DecidableEq, Repr

/-- The `while (datalen)` loop of `pcrypto_encode_sec`, `blocks` turns: the
output, and what `aessrc` holds after the last exchange of the two buffers. -/
def encodeSecLoop (aes : Aes) : ℕ → Bytes → Bytes → Bytes × Bytes
  | 0, aessrc, _ => ([], aessrc)
  | blocks + 1, aessrc, data =>
    let aesdst := aes.encrypt (xor16Inplace aessrc data)
    let (out, aessrc) := encodeSecLoop aes blocks aesdst (data.drop 16)
    (aesdst ++ out, aessrc)

/-- `pcrypto_encode_sec`, with the nonce `rnd` that it draws. -/
def encodeSec (enc : SectorEncdec) (rnd data : Bytes) (sectorid : ℕ) : EncodedSector :=
  let hmacsha1bin := hmacSha512 enc.sha512 enc.iv (data ++ le64 sectorid ++ rnd)
  if data.length < aesBlockSize then
    let aessrc := xorCntInplace rnd data data.length
    let aesdst := hmacsha1bin.take 16
    ⟨rnd.take data.length, encode2BlocksConsec enc.aes (aessrc ++ aesdst)⟩
  else
    let needsteal := data.length % 16
    let datalen := if needsteal ≠ 0 then data.length - (needsteal + 16) else data.length
    let authout := encode2BlocksConsec enc.aes (rnd.take 8 ++ hmacsha1bin.take 16 ++ rnd.drop 8)
    let (out, aessrc) := encodeSecLoop enc.aes (datalen / 16) (hmacsha1bin.take 16) data
    if needsteal ≠ 0 then
      let data := data.drop datalen
      let aesdst := enc.aes.encrypt (xor16Inplace aessrc data)
      let tail := aesdst.take needsteal
      let aesdst := xorCntInplace aesdst (data.drop 16) needsteal
      ⟨out ++ enc.aes.encrypt aesdst ++ tail, authout⟩
    else ⟨out, authout⟩

/-- The loop over four blocks of `pcrypto_decode_sec`: the output, and the first
block of `aesxor` after the last turn. -/
def decodeSecLoop4 (aes : Aes) : ℕ → Bytes → Bytes → Bytes × Bytes
  | 0, aesxor, _ => ([], aesxor)
  | turns + 1, aesxor, data =>
    let aessrc := data.take 64
    let aesdst := decode4BlocksConsecXor aes aessrc (aesxor ++ aessrc.take 48)
    let (out, aesxor) := decodeSecLoop4 aes turns (aessrc.drop 48) (data.drop 64)
    (aesdst ++ out, aesxor)

/-- The `while (datalen)` loop of `pcrypto_decode_sec`. -/
def decodeSecLoop (aes : Aes) : ℕ → Bytes → Bytes → Bytes × Bytes
  | 0, aesxor, _ => ([], aesxor)
  | blocks + 1, aesxor, data =>
    let aessrc := data.take 16
    let aesdst := xor16Inplace (aes.decrypt aessrc) aesxor
    let (out, aesxor) := decodeSecLoop aes blocks aessrc (data.drop 16)
    (aesdst ++ out, aesxor)

/-- Decoded bytes, and the nonce and authenticator that came with them. -/
structure OpenedSector where
  out : Bytes
  hmac : Bytes
deriving DecidableEq, Repr

/-- `pcrypto_decode_sec` up to the recomputation of the authenticator. -/
def openSec (enc : SectorEncdec) (data auth : Bytes) : OpenedSector :=
  let hmac := decode2BlocksConsec enc.aes auth
  if data.length < aesBlockSize then
    let hmac := xorCntInplace hmac data data.length
    ⟨hmac.take data.length, copyTo hmac 0 data⟩
  else
    let needsteal := data.length % 16
    let datalen := if needsteal ≠ 0 then data.length - (needsteal + 16) else data.length
    let aesxor := (hmac.drop 8).take 16
    let hmac := copyTo hmac 8 ((hmac.drop 24).take 8)
    let hmac := copyTo hmac 16 aesxor
    let (out4, aesxor) := decodeSecLoop4 enc.aes (datalen / 64) aesxor data
    let (out1, aesxor) := decodeSecLoop enc.aes (datalen % 64 / 16) aesxor (data.drop (datalen / 64 * 64))
    if needsteal ≠ 0 then
      let data := data.drop datalen
      let aesdst := xorCntInplace (enc.aes.decrypt (data.take 16)) (data.drop 16) needsteal
      let tail := aesdst.take needsteal
      let aesdst := copyTo aesdst 0 ((data.drop 16).take needsteal)
      ⟨out4 ++ out1 ++ xor16Inplace (enc.aes.decrypt aesdst) aesxor ++ tail, hmac⟩
    else ⟨out4 ++ out1, hmac⟩

/-- `memcmp_const`: zero exactly when the bytes agree. -/
def memcmpConst (s1 s2 : Bytes) (cnt : ℕ) : ℕ :=
  let r := (xorBytes (s1.take cnt) (s2.take cnt)).foldl (fun r byte => r ||| byte.toUInt32) (0 : UInt32)
  ((((r - 1) >>> 8) &&& 1) ^^^ 1).toNat

/-- `pcrypto_decode_sec`: the return value and the output buffer. -/
def decodeSec (enc : SectorEncdec) (data auth : Bytes) (sectorid : ℕ) : ℤ × Bytes :=
  let opened := openSec enc data auth
  let hmacsha1bin := hmacSha512 enc.sha512 enc.iv (opened.out ++ le64 sectorid ++ opened.hmac.take 16)
  (-(memcmpConst hmacsha1bin (opened.hmac.drop 16) 16 : ℤ), opened.out)

/-- `pcrypto_sign_sec` -/
def signSec (enc : SectorEncdec) (data : Bytes) : Bytes :=
  encode2BlocksConsec enc.aes (hmacSha512 enc.sha512 enc.iv data)

end Pclsync.Crypto
