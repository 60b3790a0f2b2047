import Pclsync.Crypto.Sector

/-! The counter mode stream codec. A buffer is the memory from the pointer to
the end of the address space, so that writes behind the buffer can be told;
the loops for aligned and unaligned pointers do the same to the bytes. -/

namespace Pclsync.Crypto
open Library

/-- `pcrypto_ctr_encdec_t` -/
structure CtrEncdec where
  encoder : Aes
  iv : Bytes
  length_iv : iv.length = aesBlockSize

/-- `pcrypto_ctr_encdec_create`; `createEncoder` is `paes_create_encoder`, on
the `PSYNC_AES256_KEY_SIZE` bytes before the initialisation vector. -/
def ctrEncdecCreate (createEncoder : Bytes → Option Aes) (key : Bytes) : Option CtrEncdec :=
  if long : key.length < 32 + aesBlockSize then none
  else (createEncoder (key.take 32)).map fun encoder =>
    { encoder
      iv := (key.drop 32).take aesBlockSize
      length_iv := by
        rw [List.length_take, List.length_drop]
        omega }

/-- `copy_iv_and_xor_with_counter` -/
def copyIvAndXorWithCounter (iv : Bytes) (counter : ℕ) : Bytes := xorBytes (iv.take 8) (le64 counter)

/-- What `psync_aes256_encode_block` leaves in `aesdst` for a counter. -/
def counterBlock (enc : CtrEncdec) (counter : ℕ) : Bytes :=
  enc.encoder.encrypt (copyIvAndXorWithCounter enc.iv counter ++ enc.iv.drop 8)

/-- `xor_cnt_inplace`, unless it runs past the end of memory. -/
def xorCntAt (data key : Bytes) (count : ℕ) : Option Bytes :=
  if count ≤ data.length then some (xorCntInplace data key count) else none

/-- The loop over whole blocks and the tail of `datalen` bytes behind it. -/
def ctrLoop (enc : CtrEncdec) : ℕ → ℕ → ℕ → Bytes → Option Bytes
  | 0, counter, datalen, data =>
    if datalen ≠ 0 then xorCntAt data (counterBlock enc counter) datalen else some data
  | blocksrem + 1, counter, datalen, data => do
    let data ← xorCntAt data (counterBlock enc counter) aesBlockSize
    let rest ← ctrLoop enc blocksrem (counter + 1) datalen (data.drop aesBlockSize)
    some (data.take aesBlockSize ++ rest)

/-- `pcrypto_ctr_encdec_decode`; `datalen` is a `size_t`. -/
def ctrEncdecDecode (enc : CtrEncdec) (data : Bytes) (datalen dataoffset : ℕ) : Option Bytes :=
  let counter := dataoffset / aesBlockSize
  let dataoffset := dataoffset % aesBlockSize
  if dataoffset ≠ 0 then do
    let blocksrem := aesBlockSize - dataoffset
    let data ← xorCntAt data ((counterBlock enc counter).drop dataoffset) blocksrem
    let datalen := (2 ^ 64 + datalen - blocksrem) % 2 ^ 64
    let rest ← ctrLoop enc (datalen / aesBlockSize) (counter + 1) (datalen % aesBlockSize) (data.drop blocksrem)
    some (data.take blocksrem ++ rest)
  else ctrLoop enc (datalen / aesBlockSize) counter (datalen % aesBlockSize) data

/-- The buffer decoded in consecutive pieces of the given lengths, each at its
own offset. -/
def decodePieces (enc : CtrEncdec) (dataoffset : ℕ) : List ℕ → Bytes → Option Bytes
  | [], data => some data
  | datalen :: pieces, data => do
    let data ← ctrEncdecDecode enc data datalen dataoffset
    let rest ← decodePieces enc (dataoffset + datalen) pieces (data.drop datalen)
    some (data.take datalen ++ rest)

end Pclsync.Crypto
