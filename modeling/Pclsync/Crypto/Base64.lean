import Pclsync.Library.Cells

/-! Base64 without padding. The decoder keeps a byte that is only filled in part at the end of what it has written. -/

namespace Pclsync.Crypto.Base64
open Library

abbrev Bytes := List UInt8

def base64Table : Bytes := "ABCDEFGHIJKLMNOPQRSTUVWXYZabcdefghijklmnopqrstuvwxyz0123456789-_".toList.map fun char => char.toNat.toUInt8

def base64ReverseTable : List ℤ := [
  -2, -2, -2, -2, -2, -2, -2, -2, -2, -1, -1, -2, -2, -1, -2, -2, -2, -2, -2,
  -2, -2, -2, -2, -2, -2, -2, -2, -2, -2, -2, -2, -2, -1, -2, -2, -2, -2, -2,
  -2, -2, -2, -2, -2, 62, -2, 62, -2, 63, 52, 53, 54, 55, 56, 57, 58, 59, 60,
  61, -2, -2, -2, -1, -2, -2, -2, 0, 1, 2, 3, 4, 5, 6, 7, 8, 9, 10,
  11, 12, 13, 14, 15, 16, 17, 18, 19, 20, 21, 22, 23, 24, 25, -2, -2, -2, -2,
  63, -2, 26, 27, 28, 29, 30, 31, 32, 33, 34, 35, 36, 37, 38, 39, 40, 41, 42,
  43, 44, 45, 46, 47, 48, 49, 50, 51, -2, -2, -2, -2, -2, -2, -2, -2, -2, -2,
  -2, -2, -2, -2, -2, -2, -2, -2, -2, -2, -2, -2, -2, -2, -2, -2, -2, -2, -2,
  -2, -2, -2, -2, -2, -2, -2, -2, -2, -2, -2, -2, -2, -2, -2, -2, -2, -2, -2,
  -2, -2, -2, -2, -2, -2, -2, -2, -2, -2, -2, -2, -2, -2, -2, -2, -2, -2, -2,
  -2, -2, -2, -2, -2, -2, -2, -2, -2, -2, -2, -2, -2, -2, -2, -2, -2, -2, -2,
  -2, -2, -2, -2, -2, -2, -2, -2, -2, -2, -2, -2, -2, -2, -2, -2, -2, -2, -2,
  -2, -2, -2, -2, -2, -2, -2, -2, -2, -2, -2, -2, -2, -2, -2, -2, -2, -2, -2,
  -2, -2, -2, -2, -2, -2, -2, -2, -2]

/-- `base64_table[index]` -/
def base64Char (index : UInt8) : UInt8 := base64Table.getD index.toNat 0

/-- The loop over groups of three bytes. -/
def base64EncodeLoop {size : ℕ} : Bytes → Buffer size → Checked (Bytes × Buffer size)
  | b0 :: b1 :: b2 :: rest, p => do
    let p ← p.put [base64Char (b0 >>> 2), base64Char (((b0 &&& 0x03) <<< 4) + (b1 >>> 4)),
      base64Char (((b1 &&& 0x0f) <<< 2) + (b2 >>> 6)), base64Char (b2 &&& 0x3f)]
    base64EncodeLoop rest p
  | current, p => return (current, p)

/-- What is written for an incomplete last group. -/
def base64EncodeRest {size : ℕ} (current : Bytes) (p : Buffer size) : Checked (Buffer size) :=
  match current with
  | b0 :: b1 :: _ => p.put [base64Char (b0 >>> 2), base64Char (((b0 &&& 0x03) <<< 4) + (b1 >>> 4)), base64Char ((b1 &&& 0x0f) <<< 2)]
  | [b0] => p.put [base64Char (b0 >>> 2), base64Char ((b0 &&& 0x03) <<< 4)]
  | [] => return p

/-- `psync_base64_encode`: the terminated block and `*ret_length`. -/
def base64Encode (str : Bytes) : Checked (Bytes × ℕ) := do
  let p := Buffer.malloc ((str.length + 2) / 3 * 4 + 1)
  let (current, p) ← base64EncodeLoop str p
  let p ← base64EncodeRest current p
  let retLength := p.bytes.length
  let p ← p.put [0]
  return (p.bytes, retLength)

/-- The `switch` on `i % 4`: what it leaves of `j` and of the block. -/
def base64DecodeChar (ch : UInt8) (i j : ℕ) (result : Cells) : Checked (ℕ × Cells) :=
  match i % 4 with
  | 0 => do
    let result ← result.store j (ch <<< 2)
    return (j, result)
  | 1 => do
    let part ← result.load j
    let result ← result.store j (part ||| ch >>> 4)
    let result ← result.store (j + 1) ((ch &&& 0x0f) <<< 4)
    return (j + 1, result)
  | 2 => do
    let part ← result.load j
    let result ← result.store j (part ||| ch >>> 2)
    let result ← result.store (j + 1) ((ch &&& 0x03) <<< 6)
    return (j + 1, result)
  | _ => do
    let part ← result.load j
    let result ← result.store j (part ||| ch)
    return (j + 1, result)

/-- The loop of `psync_base64_decode`: `none` is the `NULL` that it returns. -/
def base64DecodeLoop : Bytes → ℕ → ℕ → Cells → Checked (Option (ℕ × Cells))
  | [], _, j, result => return some (j, result)
  | byte :: rest, i, j, result =>
    let ch := base64ReverseTable.getD byte.toNat (-2)
    if ch = -1 then base64DecodeLoop rest i j result
    else if ch = -2 then return none
    else do
      let (j, result) ← base64DecodeChar (UInt8.ofNat ch.toNat) i j result
      base64DecodeLoop rest (i + 1) j result

/-- `psync_base64_decode`: the block and `*ret_length`. -/
def base64Decode (str : Bytes) : Checked (Option (Cells × ℕ)) := do
  let result := Cells.malloc ((str.length + 3) / 4 * 3 + 1)
  match ← base64DecodeLoop str 0 0 result with
  | none => return none
  | some (j, result) =>
    let result ← result.store j 0
    return some (result, j)

end Pclsync.Crypto.Base64
