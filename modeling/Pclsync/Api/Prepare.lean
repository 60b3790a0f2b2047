import Pclsync.Library.LittleEndian

/-! How a request to the API is laid out. A first pass adds up the bytes that it
takes, a second one writes them in order. Sizes are `size_t`. -/

namespace Pclsync.Api.Prepare
open Library

/-- The part of `binparam` that its type selects; a string has `opts` bytes. -/
inductive Value where
  | str (str : List UInt8)
  | num (num : ℕ)
  | bool (num : ℕ)
deriving DecidableEq, Repr

/-- `binparam` -/
structure Binparam where
  paramname : List UInt8
  value : Value
deriving DecidableEq, Repr

/-- `PARAM_STR`, `PARAM_NUM` and `PARAM_BOOL` -/
def Value.paramtype : Value → ℕ
  | .str _ => 0
  | .num _ => 1
  | .bool _ => 2

/-- What a parameter adds to `plen`. -/
def paramLen (param : Binparam) : ℕ :=
  match param.value with
  | .str str => param.paramname.length + str.length + 5
  | .num _ => param.paramname.length + 1 + 8
  | .bool _ => param.paramname.length + 2

/-- `plen += len` -/
def addLen (plen len : ℕ) : ℕ := (plen + len) % 2 ^ 64

/-- The sizing pass: one byte for the length of the command, one for the number
of parameters, and eight for the length of the data where there are any. -/
def sizing (command : List UInt8) (params : List Binparam) (datalen : ℤ) : ℕ :=
  let plen := addLen command.length 2
  let plen := if datalen ≠ -1 then addLen plen 8 else plen
  params.foldl (fun plen param => addLen plen (paramLen param)) plen

/-- `memcpy(data, &datalen, sizeof(uint64_t))` -/
def datalenBytes (datalen : ℤ) : List UInt8 := leBytes 8 (datalen % 2 ^ 64).toNat

/-- The value of a parameter. -/
def writeValue : Value → List UInt8
  | .str str => leBytes 4 str.length ++ str
  | .num num => leBytes 8 num
  | .bool num => [UInt8.ofNat (num &&& 1)]

/-- What the writing pass writes for a parameter. -/
def writeParam (param : Binparam) : List UInt8 :=
  UInt8.ofNat ((param.value.paramtype <<< 6) + param.paramname.length) :: (param.paramname ++ writeValue param.value)

/-- The command with its length, and the length of the data. -/
def writeCommand (command : List UInt8) (datalen : ℤ) : List UInt8 :=
  (if datalen ≠ -1 then UInt8.ofNat (command.length ||| 128) :: datalenBytes datalen
    else [UInt8.ofNat command.length]) ++ command

/-- `papi_prepare`: `NULL`, or all bytes written and `*retlen`. -/
def prepare (command : List UInt8) (params : List Binparam) (datalen : ℤ) : Option (List UInt8 × ℕ) :=
  let plen := sizing command params datalen
  if 65535 < plen then none
  else
    let sdata := leBytes 2 plen ++ writeCommand command datalen ++ [UInt8.ofNat params.length] ++ params.flatMap writeParam
    some (sdata, addLen plen 2)

end Pclsync.Api.Prepare
