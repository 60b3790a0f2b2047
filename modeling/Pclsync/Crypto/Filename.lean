import Pclsync.Crypto.Sector
import Pclsync.Library.Memory

/-! Encrypted file names: the text cipher, base32, and the two functions that
compose them. Blocks from `malloc` carry their size; the scratch blocks on the
stack have fixed sizes and are plain byte strings. -/

namespace Pclsync.Crypto
open Library

/-- `pcrypto_key_iv_t`. The constructors refuse a key whose iv is less than a
block; encoder and decoder are made from one key. -/
structure TextEncdec where
  aes : Aes
  sha512 : Sha512
  iv : Bytes
  ivlen : aesBlockSize ≤ iv.length

/-- `ALIGN_A256_BS` -/
def alignA256Bs (n : ℕ) : ℕ := (n + aesBlockSize - 1) / aesBlockSize * aesBlockSize

/-- The block that `copy_pad` leaves in `dst`. -/
def copyPad (cnt : ℕ) (txt : Bytes) (offset txtlen : ℕ) : Checked Bytes :=
  if cnt ≤ txtlen then readAt txt offset cnt
  else do
    let dst ← readAt txt offset txtlen
    return dst ++ List.replicate (cnt - txtlen) 0

/-- What `copy_pad` leaves of `txtlen`. -/
def copyPadLeft (cnt txtlen : ℕ) : ℕ := if cnt ≤ txtlen then txtlen - cnt else 0

/-- The `do` loop of `pcrypto_encode_text`. -/
def encodeTextLoop {size : ℕ} (aes : Aes) (txt : Bytes) (offset txtlen : ℕ) (aesdst : Bytes)
    (outptr : Buffer size) : Checked (Buffer size) := do
  let aessrc ← copyPad 16 txt offset txtlen
  let aesdst := aes.encrypt (xor16Inplace aessrc aesdst)
  let outptr ← outptr.put aesdst
  if done : copyPadLeft 16 txtlen = 0 then return outptr
  else encodeTextLoop aes txt (offset + 16) (copyPadLeft 16 txtlen) aesdst outptr
termination_by txtlen
decreasing_by
  simp only [copyPadLeft] at done ⊢
  split at done
  · rw [if_pos ‹_›]
    omega
  · exact absurd rfl done

/-- `pcrypto_encode_text`: the block and its length `*outlen`. -/
def encodeText (enc : TextEncdec) (txt : Bytes) (txtlen : ℕ) : Checked (Bytes × ℕ) := do
  let ol := alignA256Bs txtlen
  let outptr := Buffer.malloc ol
  if txtlen ≤ aesBlockSize then
    let aessrc ← copyPad 16 txt 0 txtlen
    let aesdst := enc.aes.encrypt (xor16Inplace aessrc enc.iv)
    let outptr ← outptr.put aesdst
    return (outptr.bytes, ol)
  else
    let message ← readAt txt 16 (txtlen - 16)
    let hmac := hmacSha512 enc.sha512 enc.iv message
    let aessrc ← readAt txt 0 16
    let aesdst := enc.aes.encrypt (xor16Inplace aessrc hmac)
    let outptr ← outptr.put aesdst
    let outptr ← encodeTextLoop enc.aes txt 16 (txtlen - 16) aesdst outptr
    return (outptr.bytes, ol)

/-- The `while (--datalen)` loop of `pcrypto_decode_text`, `blocks` turns. -/
def decodeTextLoop {size : ℕ} (aes : Aes) (data : Bytes) : ℕ → ℕ → Buffer size → Checked (Buffer size)
  | 0, _, outptr => return outptr
  | blocks + 1, offset, outptr => do
    let xorptr ← readAt data offset 16
    let aessrc ← readAt data (offset + 16) 16
    let outptr ← outptr.put (xor16Inplace (aes.decrypt aessrc) xorptr)
    decodeTextLoop aes data blocks (offset + 16) outptr

/-- The search for a byte that is not zero from `len` up to `stop`. -/
def paddingClean (ret : Bytes) (len stop : ℕ) : Checked Bool :=
  if len < stop then do
    let byte ← readByte ret len
    if byte ≠ 0 then return false
    else paddingClean ret (len + 1) stop
  else return true
termination_by stop - len

/-- `pcrypto_decode_text`: `none` is the `NULL` it returns. -/
def decodeText (enc : TextEncdec) (data : Bytes) (datalen : ℕ) : Checked (Option Bytes) := do
  if datalen % aesBlockSize ≠ 0 ∨ datalen = 0 then return none
  else
    let outptr := Buffer.malloc (datalen + 1)
    let blocks := datalen / aesBlockSize
    if blocks = 1 then
      let aessrc ← readAt data 0 16
      let outptr ← outptr.put (xor16Inplace (enc.aes.decrypt aessrc) enc.iv)
      let stop := outptr.bytes.length
      let outptr ← outptr.put [0]
      let ret := outptr.bytes
      let len ← strlenAt ret 0
      if ← paddingClean ret (len + 1) stop then return some ret else return none
    else
      let aessrc ← readAt data 0 16
      let outptr ← outptr.put (enc.aes.decrypt aessrc)
      let outptr ← decodeTextLoop enc.aes data (blocks - 1) 0 outptr
      let stop := outptr.bytes.length
      let outptr ← outptr.put [0]
      let ret := outptr.bytes
      let len ← strlenAt ret 16
      let message ← readAt ret 16 len
      let ret := xor16Inplace ret (hmacSha512 enc.sha512 enc.iv message)
      if ← paddingClean ret (len + 16 + 1) stop then return some ret else return none

def base32Table : Bytes := "ABCDEFGHIJKLMNOPQRSTUVWXYZ234567".toList.map fun char => char.toNat.toUInt8

/-- `table[0x1f & (buff >> bits)]` -/
def base32Char (buff : UInt32) (bits : ℕ) : UInt8 :=
  base32Table.getD (0x1f &&& (buff >>> UInt32.ofNat bits)).toNat 0

/-- The loop `while (length)` of `psync_base32_encode`: `bits`, `buff` and `p`. -/
def base32EncodeLoop {size : ℕ} (str : Bytes) (offset length bits : ℕ) (buff : UInt32) (p : Buffer size) :
    Checked (ℕ × UInt32 × Buffer size) :=
  if length = 0 then .ok (bits, buff, p)
  else if bits < 5 then do
    let byte ← readByte str offset
    let buff := (buff <<< 8) ||| byte.toUInt32
    let bits := bits + 8 - 5
    let p ← p.put [base32Char buff bits]
    base32EncodeLoop str (offset + 1) (length - 1) bits buff p
  else do
    let bits := bits - 5
    let p ← p.put [base32Char buff bits]
    base32EncodeLoop str offset length bits buff p
termination_by 8 * length + bits

/-- The loop `while (bits)` of `psync_base32_encode`. -/
def base32EncodeRest {size : ℕ} (bits : ℕ) (buff : UInt32) (p : Buffer size) : Checked (Buffer size) :=
  if bits = 0 then .ok p
  else if bits < 5 then do
    let buff := buff <<< UInt32.ofNat (5 - bits)
    let p ← p.put [base32Char buff 0]
    base32EncodeRest 0 buff p
  else do
    let bits := bits - 5
    let p ← p.put [base32Char buff bits]
    base32EncodeRest bits buff p
termination_by bits

/-- `psync_base32_encode`: the terminated block and `*ret_length`. -/
def base32Encode (str : Bytes) (length : ℕ) : Checked (Bytes × ℕ) := do
  let p := Buffer.malloc ((length + 4) / 5 * 8 + 1)
  let (bits, buff, p) ← base32EncodeLoop str 0 length 0 0 p
  let p ← base32EncodeRest bits buff p
  let retLength := p.bytes.length
  let p ← p.put [0]
  return (p.bytes, retLength)

/-- The five bits of a character of the alphabet. -/
def base32Value (ch : UInt8) : Option UInt8 :=
  if 65 ≤ ch ∧ ch ≤ 90 then some ((ch &&& 0x1f) - 1)
  else if 50 ≤ ch ∧ ch ≤ 55 then some (ch - (50 - 26))
  else none

def base32DecodeLoop {size : ℕ} (str : Bytes) :
    ℕ → ℕ → ℕ → UInt32 → Buffer size → Checked (Option (Buffer size))
  | 0, _, _, _, p => return some p
  | length + 1, offset, bits, buff, p => do
    let ch ← readByte str offset
    match base32Value ch with
    | none => return none
    | some ch =>
      let buff := (buff <<< 5) + ch.toUInt32
      let bits := bits + 5
      if bits ≥ 8 then
        let bits := bits - 8
        let p ← p.put [(buff >>> UInt32.ofNat bits).toUInt8]
        base32DecodeLoop str length (offset + 1) bits buff p
      else base32DecodeLoop str length (offset + 1) bits buff p

/-- `psync_base32_decode`: the terminated block and `*ret_length`. -/
def base32Decode (str : Bytes) (length : ℕ) : Checked (Option (Bytes × ℕ)) := do
  let p := Buffer.malloc ((length + 7) / 8 * 5 + 1)
  match ← base32DecodeLoop str length 0 0 0 p with
  | none => return none
  | some p =>
    let retLength := p.bytes.length
    let p ← p.put [0]
    return some (p.bytes, retLength)

/-- `pcryptofolder_fldencode_filename` -/
def fldencodeFilename (encoder : TextEncdec) (name : Bytes) : Checked Bytes := do
  let len ← strlenAt name 0
  let (filenameenc, filenameenclen) ← encodeText encoder name len
  let (filenameb32, _) ← base32Encode filenameenc filenameenclen
  return filenameb32

/-- `pcryptofolder_flddecode_filename` -/
def flddecodeFilename (decoder : TextEncdec) (name : Bytes) : Checked (Option Bytes) := do
  let len ← strlenAt name 0
  match ← base32Decode name len with
  | none => return none
  | some (filenameenc, filenameenclen) => decodeText decoder filenameenc filenameenclen

/-- The text of a C string. -/
def cstring (buffer : Bytes) : Bytes := buffer.takeWhile (· ≠ 0)

end Pclsync.Crypto
