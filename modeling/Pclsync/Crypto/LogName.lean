import Pclsync.Library.LittleEndian

/-! The names of the files that belong to a task: the bytes of its id in hexadecimal, and a letter. -/

namespace Pclsync.Crypto.LogName
open Library

/-- One half of an entry of `__hex_lookup`. -/
def hexDigit (n : ℕ) : Char := if n < 10 then Char.ofNat (48 + n) else Char.ofNat (87 + n)

/-- `psync_binhex` -/
def binhex (src : List UInt8) : List Char := src.flatMap fun byte => [hexDigit (byte.toNat / 16), hexDigit (byte.toNat % 16)]

/-- The name that is made of an id: eight bytes in the order of the memory, and `l` for a log, `f` for one that is finalised. -/
def fileName (fileid : ℕ) (kind : Char) : List Char := binhex (leBytes 8 fileid) ++ [kind]

/-- Conversion to `uint32_t`, the type that `conv_xdigit` returns. -/
def u32 (n : ℤ) : ℕ := (n % 2 ^ 32).toNat

/-- Conversion to `uint64_t`. -/
def u64 (n : ℕ) : ℕ := n % 2 ^ 64

def isxdigit (dig : Char) : Bool :=
  (48 ≤ dig.toNat && dig.toNat ≤ 57) || (97 ≤ dig.toNat && dig.toNat ≤ 102) || (65 ≤ dig.toNat && dig.toNat ≤ 70)

/-- `conv_xdigit` -/
def convXdigit (dig : Char) : ℕ :=
  if 48 ≤ dig.toNat ∧ dig.toNat ≤ 57 then dig.toNat - 48
  else if 97 ≤ dig.toNat ∧ dig.toNat ≤ 102 then dig.toNat - 97 + 10
  else u32 (dig.toNat - 65 + 10)

/-- What the pointer plus an index points to; the string ends with a zero. -/
def charAt (fn : List Char) (index : ℕ) : Char := fn.getD index (Char.ofNat 0)

/-- The loop of `psync_fs_pause_task_by_name`. -/
def taskLoop (taskid mul : ℕ) : List Char → ℕ
  | first :: second :: fn =>
    if isxdigit first && isxdigit second then
      -- the pointer has moved on by now
      taskLoop (u64 (taskid + mul * u32 (convXdigit (charAt fn 0) * 16 + convXdigit (charAt fn 1)))) (u64 (mul * 256)) fn
    else taskid
  | _ => taskid

/-- The id that `psync_fs_pause_task_by_name` looks up. -/
def taskByName (fn : List Char) : ℕ := taskLoop 0 1 fn

end Pclsync.Crypto.LogName
