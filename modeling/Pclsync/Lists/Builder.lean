import Pclsync.Library.Chunks
import Pclsync.Library.LittleEndian
import Pclsync.Library.Regions

/-! A list of records is collected in chunks and then packed in one block. The strings of a record are copied at once, and the
offsets of their pointers and their lengths are kept in the order in which they come, as numbers of 32 bits. -/

namespace Pclsync.Lists.Builder
open Library

abbrev Bytes := List UInt8

/-- A string of a caller, a copy in `string_list`, a copy in the block. -/
inductive Pointer where
  | source (bytes : Bytes)
  | copy (list next : ℕ)
  | packed (place : ℕ)
deriving DecidableEq, Repr

abbrev Memory := Region Pointer

/-- The size of a record, and the place of the first one behind the fields of the list. Records are those of the program. -/
structure Layout where
  elementSize : ℕ
  elementsOffset : ℕ
  small : elementSize < 2 ^ 32

def Layout.elementsPerList (layout : Layout) : ℕ := if layout.elementSize ≤ 200 then 40 else 12

/-- `psync_list_string_list` -/
structure StringList where
  size : ℕ
  buffer : Buffer size

structure Builder (layout : Layout) where
  elements : List (Chunk Memory)
  strings : List StringList
  lastStrings : Option ℕ
  numbers : List (Chunk (Option (BitVec 32)))
  stringalloc : ℕ
  cnt : ℕ
  current : Chunks.Place
  cstrcnt : Chunks.Place

variable {layout : Layout}

/-- `psync_list_builder_create` -/
def create (layout : Layout) : Builder layout := ⟨[], [], none, [], 0, 0, ⟨0, 0⟩, ⟨0, 0⟩⟩

/-- `psync_list_bulder_push_num`, and what the caller writes there. -/
def pushNum (builder : Builder layout) (number : BitVec 32) : Checked (Builder layout × Chunks.Place) := do
  let (numbers, place) ← Chunks.push 1000 none builder.numbers (some number)
  return ({ builder with numbers }, place)

/-- `psync_list_bulder_pop_num` -/
def popNum (builder : Builder layout) (popoff : Chunks.Place) : Checked (BitVec 32 × Chunks.Place) := do
  let number ← (← Chunks.load builder.numbers popoff).elim (.error .read) .ok
  return (number, Chunks.advance builder.numbers popoff)

def reserveElement (builder : Builder layout) : Builder layout :=
  let elements := Chunks.reserve layout.elementsPerList (Region.malloc layout.elementSize) builder.elements
  { builder with elements, current := Chunks.free elements }

def pushCount (builder : Builder layout) : Checked (Builder layout) := do
  let (builder, cstrcnt) ← pushNum builder 0
  return { builder with cstrcnt }

/-- `last_elements->used++` and `cnt++` -/
def countElement (builder : Builder layout) : Builder layout :=
  { builder with elements := Chunks.count builder.elements, cnt := builder.cnt + 1 }

/-- `psync_list_bulder_add_element` -/
def addElement (builder : Builder layout) : Checked (Builder layout) := do
  let builder ← pushCount (reserveElement builder)
  return countElement builder

/-- The list that has room for a string, as the last one. -/
def stringList (builder : Builder layout) (length : ℕ) : List StringList × Option ℕ × ℕ :=
  let longer (size : ℕ) := builder.strings ++ [⟨size, Buffer.malloc size⟩]
  if length > 2000 then (longer length, builder.lastStrings, builder.strings.length)
  else match builder.lastStrings.bind fun last => builder.strings[last]?.map (last, ·) with
    | some (last, list) =>
      if list.buffer.bytes.length + length > 4000 then (longer 4000, some builder.strings.length, builder.strings.length)
      else (builder.strings, some last, last)
    | none => (longer 4000, some builder.strings.length, builder.strings.length)

/-- `memcpy` to the end of a list. -/
def putString (strings : List StringList) (list : ℕ) (bytes : Bytes) : Checked (List StringList × Pointer) := do
  match strings[list]? with
  | none => .error .write
  | some old =>
    let buffer ← old.buffer.put bytes
    return (strings.set list ⟨old.size, buffer⟩, .copy list old.buffer.bytes.length)

/-- What `memcpy` reads, from a string of the caller or a copy of one. -/
def fromBuilder (strings : List StringList) (length : ℕ) : Pointer → Checked Bytes
  | .source bytes => readAt bytes 0 length
  | .copy list next => (strings[list]?).elim (.error .read) fun list => readAt list.buffer.bytes next length
  | .packed _ => .error .read

/-- The numbers of a string, and one more string of the element. -/
def pushString (builder : Builder layout) (offset length : ℕ) : Checked (Builder layout) := do
  let (builder, _) ← pushNum builder (BitVec.ofNat 32 offset)
  let (builder, _) ← pushNum builder (BitVec.ofNat 32 length)
  let cstrcnt ← (← Chunks.load builder.numbers builder.cstrcnt).elim (.error .read) .ok
  return { builder with numbers := ← Chunks.store builder.numbers builder.cstrcnt (some (cstrcnt + 1)) }

/-- `psync_list_add_lstring_offset` -/
def addLstringOffset (builder : Builder layout) (offset length : ℕ) : Checked (Builder layout) := do
  let length := length + 1
  let element ← Chunks.load builder.elements builder.current
  let str ← element.readPointer offset
  let (strings, lastStrings, list) := stringList builder length
  let (strings, s) ← putString strings list (← fromBuilder builder.strings length str)
  let elements ← Chunks.store builder.elements builder.current (← element.writePointer offset s)
  pushString { builder with elements, strings, lastStrings, stringalloc := builder.stringalloc + length } offset length

/-- `psync_list_add_string_offset` -/
def addStringOffset (builder : Builder layout) (offset : ℕ) : Checked (Builder layout) := do
  let element ← Chunks.load builder.elements builder.current
  match ← element.readPointer offset with
  | .source bytes => addLstringOffset builder offset (← strlenAt bytes 0)
  | .copy list next =>
    let list ← (builder.strings[list]?).elim (.error .read) .ok
    addLstringOffset builder offset (← strlenAt list.buffer.bytes next)
  | .packed _ => .error .read

/-- A string of a record: with its length, or as a string that has none of its end in it. -/
structure Attached where
  offset : ℕ
  text : Bytes
  measured : Bool
  ends : measured = true → 0 ∉ text

def Attached.bytes (string : Attached) : Bytes := string.text ++ [0]

/-- A record as its maker leaves it. The pointers of its strings are fields of it. -/
structure Row (layout : Layout) where
  record : Memory
  strings : List Attached
  size : record.length = layout.elementSize
  sources : ∀ string ∈ strings, record.readPointer string.offset = .ok (.source string.bytes)
  fields : strings.Pairwise fun first other => first.offset + Region.width ≤ other.offset ∨ other.offset + Region.width ≤ first.offset

def attach (builder : Builder layout) (string : Attached) : Checked (Builder layout) :=
  if string.measured then addStringOffset builder string.offset else addLstringOffset builder string.offset string.text.length

/-- The maker of a record writes it, and adds its strings. -/
def make (builder : Builder layout) (row : Row layout) : Checked (Builder layout) := do
  let elements ← Chunks.store builder.elements builder.current row.record
  row.strings.foldlM attach { builder with elements }

/-- The element of a row: a new one, and in the inner loop that of the row before it. -/
def openRow (inner : Bool) (builder : Builder layout) : Checked (Builder layout) :=
  if inner then do
    let numbers ← Chunks.store builder.numbers builder.cstrcnt (some 0)
    return { builder with numbers }
  else pushCount (reserveElement builder)

/-- Both loops of `psql_list_add`. In the inner one a record is made for rows until one is kept. `true` is the end of the
outer one, `false` that of the inner one. -/
def addRows (inner : Bool) (builder : Builder layout) : List (Row layout × Bool) → Checked (Builder layout × Bool)
  | (row, kept) :: rest => do
    let builder ← make (← openRow inner builder) row
    if kept then addRows false (countElement builder) rest else addRows true builder rest
  | [] => return if inner then (countElement builder, false) else (builder, true)

/-- `psql_list_add`. A fetch behind the end of the rows starts with the first one again. -/
def psqlListAdd (builder : Builder layout) (rows : List (Row layout × Bool)) : ℕ → Checked (Option (Builder layout))
  | 0 => return none
  | fetches + 1 => do
    let (builder, ended) ← addRows false builder rows
    if ended then return some builder else psqlListAdd builder rows fetches

/-- What is added: an element, or those rows of a result for which the callback returns zero. -/
inductive Added (layout : Layout) where
  | element (row : Row layout)
  | rows (rows : List (Row layout × Bool))

def add (fetches : ℕ) (builder : Builder layout) : Added layout → Checked (Option (Builder layout))
  | .element row => do return some (← make (← addElement builder) row)
  | .rows rows => psqlListAdd builder rows fetches

def addAll (fetches : ℕ) (builder : Builder layout) : List (Added layout) → Checked (Option (Builder layout))
  | [] => return some builder
  | added :: rest => do
    match ← add fetches builder added with
    | none => return none
    | some builder => addAll fetches builder rest

/-- The block while it is filled. -/
structure Replay where
  ret : Memory
  elem : ℕ
  str : ℕ
  popoff : Chunks.Place

/-- What `memcpy` reads. The strings of the callers are no longer there. -/
def fromReplay (strings : List StringList) (ret : Memory) (length : ℕ) : Pointer → Checked Memory
  | .source _ => .error .read
  | .copy list next => do return Region.ofBytes (← fromBuilder strings length (.copy list next))
  | .packed place => ret.read place length

def copyString (builder : Builder layout) (replay : Replay) : Checked Replay := do
  let (offset, popoff) ← popNum builder replay.popoff
  let (length, popoff) ← popNum builder popoff
  let pstr ← replay.ret.readPointer (replay.elem + offset.toNat)
  let ret ← replay.ret.write replay.str (← fromReplay builder.strings replay.ret length.toNat pstr)
  let ret ← ret.writePointer (replay.elem + offset.toNat) (.packed replay.str)
  return { replay with ret, popoff, str := replay.str + length.toNat }

def copyStrings (builder : Builder layout) (replay : Replay) : ℕ → Checked Replay
  | 0 => return replay
  | scnt + 1 => do copyStrings builder (← copyString builder replay) scnt

def copyElement (builder : Builder layout) (replay : Replay) (element : Memory) : Checked Replay := do
  let ret ← replay.ret.write replay.elem element
  let (scnt, popoff) ← popNum builder replay.popoff
  let replay ← copyStrings builder { replay with ret, popoff } scnt.toNat
  return { replay with elem := replay.elem + layout.elementSize }

/-- `psync_list_builder_finalize` -/
def finalize (builder : Builder layout) : Checked Memory := do
  let sz := layout.elementsOffset + layout.elementSize * builder.cnt + builder.stringalloc
  let ret ← (Region.malloc sz).write 0 (Region.ofBytes ((leBytes 8 builder.cnt).take layout.elementsOffset))
  let elem := layout.elementsOffset
  let replay ← Chunks.forEach (copyElement builder) ⟨ret, elem, elem + layout.elementSize * builder.cnt, ⟨0, 0⟩⟩ builder.elements
  return replay.ret

/-- A whole run. `none` is a result whose rows are fetched more often. -/
def build (layout : Layout) (fetches : ℕ) (added : List (Added layout)) : Checked (Option Memory) := do
  match ← addAll fetches (create layout) added with
  | none => return none
  | some builder => return some (← finalize builder)

end Pclsync.Lists.Builder
