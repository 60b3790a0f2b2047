import Mathlib
import Pclsync.Hash.Crc32c

/-! A hash of 256 bits that is fed in pieces. Whole blocks are taken from the input, and what is left of it stays in
the buffer, whose last byte is how much of it is filled. -/

namespace Pclsync.Hash
open Library

abbrev Word := BitVec 64

/-- `PSYNC_FAST_HASH256_BLOCK_LEN` -/
abbrev blockLen : ℕ := 64

/-- `PSYNC_FAST_HASH256_LEN` -/
abbrev hashLen : ℕ := 32

/-- The words of `state` in `psync_fast_hash256_ctx`. -/
structure HashState where
  a : Word
  b : Word
  c : Word
  d : Word
  x : Word
  y : Word

/-- `psync_fast_hash256_ctx` -/
structure Ctx where
  state : HashState
  length : Word
  buff : Bytes

def k0 : Word := 0xc3a5c85c97cb3127#64
def k1 : Word := 0xb492b66fbe98f273#64
def k2 : Word := 0x9ae16a3b2f90404f#64

/-- `fh_shiftmix` -/
def fhShiftmix (val : Word) : Word := val ^^^ val >>> 47

/-- `fh_rotate64` -/
def fhRotate64 (val : Word) (shift : ℕ) : Word := if shift ≠ 0 then val >>> shift ||| val <<< (64 - shift) else val

/-- `fh_hashmul3` -/
def fhHashmul3 (u v mul : Word) : Word := fhShiftmix ((fhShiftmix ((u ^^^ v) * mul) ^^^ v) * mul) * mul

/-- `fh_hashmul2` -/
def fhHashmul2 (u v : Word) : Word := fhHashmul3 u v 0x9ddfea08eb382d69#64

/-- `fh_crc32_64sw`, which looks at the low half of `crc` only. -/
def fhCrc32_64sw (tables : Tables) (crc data : Word) : Word := (crc64BitUint tables (crc.setWidth 32) data).setWidth 64

/-- `fh_crc32_64hw` -/
def fhCrc32_64hw (word : WordSize) (crc data : Word) : Word :=
  match word with
  | .eight => (crcWordHw (crc.setWidth 32) data).setWidth 64
  | .four => (crcWordHw (crcWordHw (crc.setWidth 32) (data.setWidth 32)) ((data >>> 32).setWidth 32)).setWidth 64

/-- The part of the machine that the hash depends on: whether `crc_hashw` is 2, and the size of its words. -/
structure Machine where
  hardware : Bool
  word : WordSize

/-- The checksum of a word in a round. -/
def Machine.crc (machine : Machine) (tables : Tables) : Word → Word → Word :=
  if machine.hardware then fhCrc32_64hw machine.word else fhCrc32_64sw tables

/-- `fh_load64` of a word of a block. -/
def fhLoad64 (block : Bytes) (place : ℕ) : Word := load 8 (block.drop (8 * place))

/-- `ROUND_GEN` -/
def roundGen (crc : Word → Word → Word) (word : ℕ → Word) (state : HashState) : HashState :=
  let a := state.a + word 0
  let b := state.b + word 1
  let c := state.c + word 2
  let d := state.d + word 3
  let b := b ^^^ fhRotate64 a 21
  let d := d ^^^ fhRotate64 c 17
  let x := crc state.x (a + b)
  let y := crc state.y (c + d)
  let a := a + word 4
  let b := b + word 5
  let c := c + word 6
  let d := d + word 7
  let a := a ^^^ fhRotate64 b 13
  let c := c ^^^ fhRotate64 d 16
  let x := crc x (a + b)
  let y := crc y (c + d)
  ⟨d, a, b, c, y, x⟩

/-- `memcpy` to a place of the buffer. -/
def copyTo (buff : Bytes) (place : ℕ) (data : Bytes) : Bytes := buff.take place ++ data ++ buff.drop (place + data.length)

/-- The last byte of the buffer. -/
def filled (buff : Bytes) : ℕ := (buff.getD (blockLen - 1) 0).toNat

def setFilled (buff : Bytes) (len : ℕ) : Bytes := buff.set (blockLen - 1) (UInt8.ofNat len)

/-- The bytes of a row of `crc32c_table`, from the third entry on. -/
def tableBytes (row : BitVec 8 → BitVec 32) (count : ℕ) : Bytes :=
  (List.range 254).flatMap (fun index => leBytes 4 (row (BitVec.ofNat 8 (index + 2))).toNat) |>.take count

/-- `pcrc32c_fast_hash256_init`, which leaves the rest of the buffer as it is. -/
def fastHash256Init (tables : Tables) (buff : Bytes) : Ctx :=
  let bytes := tableBytes tables.row0 48
  { state := ⟨fhLoad64 bytes 0, fhLoad64 bytes 1, fhLoad64 bytes 2, fhLoad64 bytes 3, fhLoad64 bytes 4, fhLoad64 bytes 5⟩
    length := 0#64
    buff := setFilled buff 0 }

/-- `psync_fast_hash256_update_short_sw` -/
def updateShort (ctx : Ctx) (cdata : Bytes) : Ctx :=
  let l := filled ctx.buff
  let buff := setFilled ctx.buff (l + cdata.length)
  { ctx with buff := copyTo buff l cdata }

/-- The loop over the whole blocks of the input. -/
def blocks (crc : Word → Word → Word) (state : HashState) (cdata : Bytes) : HashState × Bytes :=
  if blockLen ≤ cdata.length then blocks crc (roundGen crc (fhLoad64 cdata) state) (cdata.drop blockLen) else (state, cdata)
termination_by cdata.length
decreasing_by
  rw [List.length_drop]
  simp only [blockLen] at *
  omega

/-- The end of `psync_fast_hash256_update_long_hw` and `psync_fast_hash256_update_long_sw`. -/
def updateBlocks (crc : Word → Word → Word) (ctx : Ctx) (cdata : Bytes) : Ctx :=
  let (state, rest) := blocks crc ctx.state cdata
  { ctx with state, buff := setFilled (copyTo ctx.buff 0 rest) rest.length }

/-- `psync_fast_hash256_update_long_hw` and `psync_fast_hash256_update_long_sw` -/
def updateLong (crc : Word → Word → Word) (ctx : Ctx) (cdata : Bytes) : Ctx :=
  let l := filled ctx.buff
  if l ≠ 0 then
    let buff := copyTo ctx.buff l (cdata.take (blockLen - l))
    updateBlocks crc { ctx with state := roundGen crc (fhLoad64 buff) ctx.state, buff } (cdata.drop (blockLen - l))
  else updateBlocks crc ctx cdata

/-- `pcrc32c_fast_hash256_update` -/
def fastHash256Update (machine : Machine) (tables : Tables) (ctx : Ctx) (data : Bytes) : Ctx :=
  let ctx := { ctx with length := ctx.length + BitVec.ofNat 64 data.length }
  if data.length + filled ctx.buff < blockLen then updateShort ctx data else updateLong (machine.crc tables) ctx data

/-- `pcrc32c_fast_hash256_final` -/
def fastHash256Final (machine : Machine) (tables : Tables) (ctx : Ctx) : Bytes :=
  let len := filled ctx.buff
  let buff := copyTo ctx.buff len (tableBytes tables.row1 (blockLen - len))
  let len := ctx.length
  let buff64 := Function.update (Function.update (Function.update (Function.update (fhLoad64 buff)
    0 (fhLoad64 buff 0 + len * k0)) 1 (fhLoad64 buff 1 ^^^ fhHashmul2 len k0)) 2 (fhLoad64 buff 2 ^^^ len * k1)) 3 (fhLoad64 buff 3 - len * k2)
  let ⟨a, b, c, d, x, y⟩ := roundGen (machine.crc tables) buff64 ctx.state
  let d := d ^^^ fhRotate64 a 43
  let a := a + fhRotate64 b 42
  let b := b ^^^ fhRotate64 c 41
  let c := c + fhRotate64 d 40
  let a := fhHashmul2 a (x + b)
  let b := fhHashmul2 b (y + c)
  let c := fhHashmul2 c (x + d)
  let d := fhHashmul2 d (y + a)
  [a + b + y + x, fhShiftmix ((a + x) * k0) * k0 + b, fhShiftmix ((c ^^^ y) * k1) * k1 + d, fhShiftmix ((x - y) * k2) * k2 + (c ^^^ d)].flatMap
    fun value => leBytes 8 value.toNat

end Pclsync.Hash
