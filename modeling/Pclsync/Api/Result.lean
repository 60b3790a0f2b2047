import Pclsync.Library.LittleEndian

/-! The two passes of the parser for binary API responses. The first pass finds
the room that the result takes, the second builds it. Both walk the same bytes
by recursion; `fuel` bounds the number of nested calls and turns. -/

namespace Pclsync.Api
open Library

abbrev Bytes := List UInt8

/-- Why a pass ends early. `outside` is an access beyond the response, beyond a
block of the second pass, or through a null pointer. -/
inductive Stop where
  | reject
  | outside
  | fuel
deriving DecidableEq, Repr

abbrev Pass := Except Stop

/-! Ranges of the type byte, `RPARAM_*`. -/

abbrev isShortStr (type : ℕ) : Prop := type ≥ 100 ∧ type < 100 + 50

abbrev isStr (type : ℕ) : Prop := isShortStr type ∨ (type ≥ 0 ∧ type ≤ 3)

abbrev isLongRstr (type : ℕ) : Prop := type ≥ 4 ∧ type ≤ 7

abbrev isRstr (type : ℕ) : Prop := isLongRstr type ∨ (type ≥ 150 ∧ type < 150 + 50)

abbrev isNum (type : ℕ) : Prop := type ≥ 8 ∧ type ≤ 15

abbrev isSmallNum (type : ℕ) : Prop := type ≥ 200 ∧ type < 200 + 20

/-- `*data`, `*datalen` and `*strcnt` of `calc_ret_len`. -/
structure Input where
  data : Bytes
  datalen : ℕ
  strcnt : ℕ
deriving DecidableEq, Repr

namespace Input

/-- `_NEED_DATA` -/
def needData (input : Input) (cnt : ℕ) : Pass Unit :=
  if input.datalen < cnt then .error .reject else .ok ()

/-- `**data` -/
def peek (input : Input) : Pass ℕ :=
  match input.data with
  | [] => .error .outside
  | byte :: _ => .ok byte.toNat

/-- `*data += len; *datalen -= len`, where the counter must not wrap. -/
def advance (input : Input) (len : ℕ) : Pass Input :=
  if len ≤ input.datalen then .ok { input with data := input.data.drop len, datalen := input.datalen - len }
  else .error .outside

/-- `memcpy` into a zeroed variable. -/
def copy (input : Input) (len : ℕ) : Pass ℕ :=
  if len ≤ input.data.length then .ok (leNumber (input.data.take len)) else .error .outside

/-- The number of `l` bytes that stands behind a type byte. -/
def number (input : Input) (l : ℕ) : Pass (ℕ × Input) := do
  input.needData l
  let len ← input.copy l
  let input ← input.advance l
  return (len, input)

end Input

mutual

/-- `calc_ret_len`; `-1` is `reject`. -/
def calcRetLen : ℕ → Input → Pass (ℕ × Input)
  | 0, _ => .error .fuel
  | fuel + 1, input => do
    input.needData 1
    let type ← input.peek
    let input ← input.advance 1
    if isStr type then
      let (len, input) ← if isShortStr type then .ok (type - 100, input) else input.number (type - 0 + 1)
      input.needData len
      let input ← input.advance len
      return (8 + (len + 8) / 8 * 8, { input with strcnt := input.strcnt + 1 })
    else if isRstr type then
      let (len, input) ← if isLongRstr type then input.number (type - 4 + 1) else .ok (type - 150, input)
      if len < input.strcnt then return (0, input) else .error .reject
    else if isNum type then
      let len := type - 8 + 1
      input.needData len
      let input ← input.advance len
      return (16, input)
    else if isSmallNum type then return (0, input)
    else if type = 18 ∨ type = 19 then return (0, input)
    else if type = 17 then
      let (ret, cnt, input) ← calcArray fuel 16 0 input
      return (ret + 8 * cnt, input)
    else if type = 16 then
      let (ret, cnt, input) ← calcHash fuel 16 0 input
      return (ret + 16 * cnt, input)
    else if type = 20 then
      input.needData 8
      let input ← input.advance 8
      return (16, input)
    else .error .reject

/-- The loop over the elements of an array. The first turn looks at the next
byte without asking whether there is one. -/
def calcArray : ℕ → ℕ → ℕ → Input → Pass (ℕ × ℕ × Input)
  | 0, _, _, _ => .error .fuel
  | fuel + 1, ret, cnt, input => do
    if (← input.peek) ≠ 255 then
      let (r, input) ← calcRetLen fuel input
      input.needData 1
      calcArray fuel (ret + r) ((cnt + 1) % 2 ^ 32) input
    else
      let input ← input.advance 1
      return (ret, cnt, input)

/-- The loop over the pairs of a hash. -/
def calcHash : ℕ → ℕ → ℕ → Input → Pass (ℕ × ℕ × Input)
  | 0, _, _, _ => .error .fuel
  | fuel + 1, ret, cnt, input => do
    if (← input.peek) ≠ 255 then
      let (r, input) ← calcRetLen fuel input
      let (r', input) ← calcRetLen fuel input
      input.needData 1
      calcHash fuel (ret + r + r') ((cnt + 1) % 2 ^ 32) input
    else
      let input ← input.advance 1
      return (ret, cnt, input)

end

/-- Without fuel nothing is counted. -/
example (input : Input) : calcRetLen 0 input = .error .fuel := by rw [calcRetLen]
example (ret cnt : ℕ) (input : Input) : calcArray 0 ret cnt input = .error .fuel := by rw [calcArray]
example (ret cnt : ℕ) (input : Input) : calcHash 0 ret cnt input = .error .fuel := by rw [calcHash]

/-- A `binresult *`: null, one of the constants, or a place in the result block. -/
inductive Ptr where
  | null
  | numSmall (index : ℕ)
  | boolTrue
  | boolFalse
  | heap (addr : ℕ)
deriving DecidableEq, Repr

/-- What the second pass writes at one place of the result block. -/
inductive Cell where
  | str (length : ℕ) (text : Bytes)
  | num (value : ℕ)
  | data (value : ℕ)
  | array (length table : ℕ)
  | hash (length table : ℕ)
  | pointers (entries : List Ptr)
  | pairs (entries : List (Ptr × Ptr))
deriving DecidableEq, Repr

/-- The bytes that are written: a string with its terminator behind the header. -/
def Cell.size : Cell → ℕ
  | .str length _ => 8 + length + 1
  | .num _ | .data _ | .array _ _ | .hash _ _ => 16
  | .pointers entries => 8 * entries.length
  | .pairs entries => 16 * entries.length

/-- `*indata`, `*odata` as an offset in the result block, and the string table
up to `*nextstrid`, with the sizes of the two blocks. -/
structure Output where
  retlen : ℕ
  strcnt : ℕ
  indata : Bytes
  odata : ℕ
  cells : List (ℕ × Cell)
  strings : List Ptr
deriving DecidableEq, Repr

namespace Output

/-- `len` bytes of `*indata`, and the pointer behind them. -/
def take (out : Output) (len : ℕ) : Pass (Bytes × Output) :=
  if len ≤ out.indata.length then .ok (out.indata.take len, { out with indata := out.indata.drop len })
  else .error .outside

def number (out : Output) (len : ℕ) : Pass (ℕ × Output) := do
  let (digits, out) ← out.take len
  return (leNumber digits, out)

def peek (out : Output) : Pass ℕ :=
  match out.indata with
  | [] => .error .outside
  | byte :: _ => .ok byte.toNat

def store (out : Output) (addr : ℕ) (cell : Cell) : Pass Output :=
  if addr + cell.size ≤ out.retlen then .ok { out with cells := out.cells ++ [(addr, cell)] }
  else .error .outside

/-- `strings[*nextstrid] = ret; (*nextstrid)++` -/
def addString (out : Output) (ret : Ptr) : Pass Output :=
  if out.strings.length < out.strcnt then .ok { out with strings := out.strings ++ [ret] } else .error .outside

/-- `strings[id]`, of the entries that are filled. -/
def string (out : Output) (id : ℕ) : Pass Ptr :=
  match out.strings[id]? with
  | some ret => .ok ret
  | none => .error .outside

/-- `key->type == PARAM_STR` -/
def isParamStr (out : Output) : Ptr → Pass Bool
  | .null => .error .outside
  | .heap addr => .ok (out.cells.any fun (at_, cell) =>
      decide (at_ = addr) && match cell with | .str _ _ => true | _ => false)
  | _ => .ok false

end Output

mutual

/-- `do_parse_result` -/
def doParseResult : ℕ → Output → Pass (Ptr × Output)
  | 0, _ => .error .fuel
  | fuel + 1, out => do
    let type ← out.peek
    let (_, out) ← out.take 1
    if isStr type then
      let (len, out) ← if isShortStr type then .ok (type - 100, out) else out.number (type - 0 + 1)
      let ret := out.odata
      let out ← out.addString (.heap ret)
      let (text, out) ← out.take len
      let out ← out.store ret (.str len text)
      return (.heap ret, { out with odata := ret + 8 + (len + 8) / 8 * 8 })
    else if isRstr type then
      let (id, out) ← if isLongRstr type then out.number (type - 4 + 1) else .ok (type - 150, out)
      return (← out.string id, out)
    else if isNum type then
      let ret := out.odata
      let (num, out) ← out.number (type - 8 + 1)
      let out ← out.store ret (.num num)
      return (.heap ret, { out with odata := ret + 16 })
    else if isSmallNum type then return (.numSmall (type - 200), out)
    else if type = 19 then return (.boolTrue, out)
    else if type = 18 then return (.boolFalse, out)
    else if type = 17 then
      let ret := out.odata
      let (arr, out) ← parseArray fuel { out with odata := ret + 16 }
      let table := out.odata
      let out ← out.store table (.pointers arr)
      let out ← out.store ret (.array arr.length table)
      return (.heap ret, { out with odata := table + 8 * arr.length })
    else if type = 16 then
      let ret := out.odata
      let (arr, out) ← parseHash fuel { out with odata := ret + 16 }
      let table := out.odata
      let out ← out.store table (.pairs arr)
      let out ← out.store ret (.hash arr.length table)
      return (.heap ret, { out with odata := table + 16 * arr.length })
    else if type = 20 then
      let ret := out.odata
      let (num, out) ← out.number 8
      let out ← out.store ret (.data num)
      return (.heap ret, { out with odata := ret + 16 })
    else return (.null, out)

/-- The entries that the loop over an array leaves in `arr`. -/
def parseArray : ℕ → Output → Pass (List Ptr × Output)
  | 0, _ => .error .fuel
  | fuel + 1, out => do
    if (← out.peek) ≠ 255 then
      let (entry, out) ← doParseResult fuel out
      let (arr, out) ← parseArray fuel out
      return (entry :: arr, out)
    else
      let (_, out) ← out.take 1
      return ([], out)

/-- The entries that the loop over a hash leaves in `arr`: a pair whose key is
not a string is overwritten by the next one. -/
def parseHash : ℕ → Output → Pass (List (Ptr × Ptr) × Output)
  | 0, _ => .error .fuel
  | fuel + 1, out => do
    if (← out.peek) ≠ 255 then
      let (key, out) ← doParseResult fuel out
      let (value, out) ← doParseResult fuel out
      let keyed ← out.isParamStr key
      let (arr, out) ← parseHash fuel out
      return (if keyed then (key, value) :: arr else arr, out)
    else
      let (_, out) ← out.take 1
      return ([], out)

end

/-- Without fuel nothing is read. -/
example (out : Output) : doParseResult 0 out = .error .fuel := by rw [doParseResult]
example (out : Output) : parseArray 0 out = .error .fuel := by rw [parseArray]
example (out : Output) : parseHash 0 out = .error .fuel := by rw [parseHash]

/-- Fuel that no response of this length uses up. -/
def parseFuel (data : Bytes) : ℕ := 2 * data.length + 2

/-- The first pass over a whole response. -/
def retLen (data : Bytes) : Pass (ℕ × Input) := calcRetLen (parseFuel data) ⟨data, data.length, 0⟩

/-- `parse_result`: `none` is `NULL`. -/
def parseResult (data : Bytes) : Pass (Option (Ptr × Output)) :=
  match retLen data with
  | .error .reject => .ok none
  | .error stop => .error stop
  | .ok (retlen, input) => do
    let (res, out) ← doParseResult (parseFuel data) ⟨retlen, input.strcnt, data, 0, [], []⟩
    return some (res, out)

end Pclsync.Api
