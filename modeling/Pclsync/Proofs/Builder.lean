import Pclsync.Lists.Builder

/-! What is added is packed. While a list is collected every record has copies of its strings, and the numbers of its strings
are next to one another, in the order in which they are read again. -/

namespace Pclsync.Proofs.Builder
open Pclsync.Lists.Builder Library

variable {layout : Layout}

section Strings

variable {strings after later : List StringList} {last : Option ℕ} {list : ℕ} {bytes : Bytes}

/-- What could be read can still be read. -/
def Grows (strings after : List StringList) : Prop :=
  ∀ ⦃list next length bytes⦄, fromBuilder strings length (.copy list next) = .ok bytes → fromBuilder after length (.copy list next) = .ok bytes

theorem Grows.refl (strings : List StringList) : Grows strings strings := fun _ _ _ _ read => read

theorem Grows.trans (first : Grows strings after) (second : Grows after later) : Grows strings later := fun _ _ _ _ read => second (first read)

theorem grows_append (strings more : List StringList) : Grows strings (strings ++ more) := by
  intro list next length bytes read
  rw [fromBuilder] at read ⊢
  cases found : strings[list]? with
  | none =>
    rw [found] at read
    cases read
  | some old =>
    rw [List.getElem?_append_left (List.getElem?_eq_some_iff.mp found).1]
    exact read

/-- The last list of strings is one of those with a fixed size. -/
def LastOk (strings : List StringList) (last : Option ℕ) : Prop := ∀ list, last = some list → ∃ old, strings[list]? = some old ∧ old.size = 4000

theorem LastOk.append (ok : LastOk strings last) (more : List StringList) : LastOk (strings ++ more) last := by
  intro list same
  obtain ⟨old, found, size⟩ := ok list same
  exact ⟨old, by rwa [List.getElem?_append_left (List.getElem?_eq_some_iff.mp found).1], size⟩

theorem lastOk_new (strings : List StringList) : LastOk (strings ++ [⟨4000, Buffer.malloc 4000⟩]) (some strings.length) := by
  intro list same
  cases same
  exact ⟨_, List.getElem?_concat_length, rfl⟩

/-- A list with room for a string. -/
theorem stringList_spec (builder : Builder layout) (ok : LastOk builder.strings builder.lastStrings) (length : ℕ) :
    ∃ strings last list old, stringList builder length = (strings, last, list) ∧ strings[list]? = some old ∧
      old.buffer.bytes.length + length ≤ old.size ∧ Grows builder.strings strings ∧ LastOk strings last := by
  have longer : ¬2000 < length → ∃ old, (builder.strings ++ [⟨4000, Buffer.malloc 4000⟩])[builder.strings.length]? = some old ∧
      old.buffer.bytes.length + length ≤ old.size := fun short =>
    ⟨_, List.getElem?_concat_length, by change 0 + length ≤ 4000; omega⟩
  unfold stringList
  dsimp only
  split
  next long =>
    refine ⟨_, _, _, _, rfl, List.getElem?_concat_length, ?_, grows_append _ _, ok.append _⟩
    rw [Buffer.bytes_malloc, List.length_nil, Nat.zero_add]
  next short =>
    split
    next last list found =>
      obtain ⟨index, same, present⟩ := Option.bind_eq_some_iff.mp found
      obtain ⟨old, there, pair⟩ := Option.map_eq_some_iff.mp present
      cases pair
      obtain ⟨known, again, size⟩ := ok last same
      rw [there] at again
      cases again
      split
      next full =>
        obtain ⟨old, there, room⟩ := longer short
        exact ⟨_, _, _, old, rfl, there, room, grows_append _ _, lastOk_new _⟩
      next spare =>
        exact ⟨_, _, _, list, rfl, there, by omega, Grows.refl _, same ▸ ok⟩
    next =>
      obtain ⟨old, there, room⟩ := longer short
      exact ⟨_, _, _, old, rfl, there, room, grows_append _ _, lastOk_new _⟩

/-- A string at the end of its list. -/
theorem putString_spec {old : StringList} (found : strings[list]? = some old) (room : old.buffer.bytes.length + bytes.length ≤ old.size)
    (ok : LastOk strings last) : ∃ after next, putString strings list bytes = .ok (after, .copy list next) ∧ Grows strings after ∧
      fromBuilder after bytes.length (.copy list next) = .ok bytes ∧ LastOk after last := by
  obtain ⟨buffer, put, filled⟩ := old.buffer.put_ok bytes room
  have present := (List.getElem?_eq_some_iff.mp found).1
  refine ⟨strings.set list ⟨old.size, buffer⟩, old.buffer.bytes.length, ?_, ?_, ?_, ?_⟩
  · rw [putString, found]
    dsimp only
    rw [put]
    rfl
  · intro other next length text read
    rw [fromBuilder] at read ⊢
    by_cases own : list = other
    · subst own
      rw [found, Option.elim_some, readAt] at read
      rw [List.getElem?_set_self present, Option.elim_some, filled, readAt, List.length_append]
      split at read
      next inside =>
        rw [if_pos (by omega), ← read, List.drop_append_of_le_length (by omega), List.take_append_of_le_length (by rw [List.length_drop]; omega)]
      next => cases read
    · rwa [List.getElem?_set_ne own]
  · rw [fromBuilder, List.getElem?_set_self present, Option.elim_some, filled, readAt, if_pos (by rw [List.length_append]), List.drop_left,
      List.take_length]
  · intro index same
    obtain ⟨known, there, size⟩ := ok index same
    by_cases own : list = index
    · subst own
      rw [found] at there
      cases there
      exact ⟨_, List.getElem?_set_self present, size⟩
    · exact ⟨known, by rwa [List.getElem?_set_ne own], size⟩

end Strings

section Make

variable {builder start after : Builder layout} {row : Row layout} {rows : List (Row layout)} {front items : List (Option (BitVec 32))}
  {done todo : List Attached} {string : Attached} {element : Memory}

/-- The numbers of a string. -/
def pair (string : Attached) : List (Option (BitVec 32)) :=
  [some (BitVec.ofNat 32 string.offset), some (BitVec.ofNat 32 (string.text.length + 1))]

def numbersOf (row : Row layout) : List (Option (BitVec 32)) := some (BitVec.ofNat 32 row.strings.length) :: row.strings.flatMap pair

/-- The bytes of all strings. -/
def textOf (strings : List Attached) : Bytes := strings.flatMap Attached.bytes

def textsOf (rows : List (Row layout)) : Bytes := rows.flatMap fun row => textOf row.strings

def Copied (strings : List StringList) (element : Memory) (string : Attached) : Prop :=
  ∃ list next, element.readPointer string.offset = .ok (.copy list next) ∧
    fromBuilder strings string.bytes.length (.copy list next) = .ok string.bytes

/-- Not in the pointer of a string. -/
def Outside (strings : List Attached) (index : ℕ) : Prop := ∀ string ∈ strings, index < string.offset ∨ string.offset + Region.width ≤ index

/-- A record of which some strings are copied. -/
structure Filled (strings : List StringList) (row : Row layout) (done todo : List Attached) (element : Memory) : Prop where
  size : element.length = layout.elementSize
  copied : ∀ string ∈ done, Copied strings element string
  sources : ∀ string ∈ todo, element.readPointer string.offset = .ok (.source string.bytes)
  data : ∀ index, Outside row.strings index → element[index]? = row.record[index]?

/-- A builder while a record is made. -/
structure Making (start : Builder layout) (front : List (Option (BitVec 32))) (row : Row layout) (done todo : List Attached)
    (builder : Builder layout) : Prop where
  elements : ∃ element, Chunks.store start.elements start.current element = .ok builder.elements ∧ Filled builder.strings row done todo element
  current : builder.current = start.current
  cstrcnt : builder.cstrcnt = start.cstrcnt
  numbers : Chunks.Holds 1000 builder.numbers (front ++ some (BitVec.ofNat 32 done.length) :: done.flatMap pair)
  place : Chunks.At builder.numbers start.cstrcnt front (some (BitVec.ofNat 32 done.length)) (done.flatMap pair)
  grows : Grows start.strings builder.strings
  last : LastOk builder.strings builder.lastStrings
  stringalloc : builder.stringalloc = start.stringalloc + (textOf done).length
  cnt : builder.cnt = start.cnt

theorem pushNum_spec (holds : Chunks.Holds 1000 builder.numbers items) (number : BitVec 32) :
    ∃ numbers place, pushNum builder number = .ok ({ builder with numbers }, place) ∧ Chunks.Holds 1000 numbers (items ++ [some number]) ∧
      Chunks.At numbers place items (some number) [] ∧
      ∀ {earlier front value rest}, Chunks.At builder.numbers earlier front value rest → Chunks.At numbers earlier front value (rest ++ [some number]) := by
  obtain ⟨numbers, place, pushed, all, own, others⟩ := holds.push_eq (by decide) none (some number)
  refine ⟨numbers, place, ?_, all, own, others⟩
  rw [pushNum, pushed]
  rfl

theorem pushString_spec {rest : List (Option (BitVec 32))} {number : BitVec 32} (holds : Chunks.Holds 1000 builder.numbers items)
    (place : Chunks.At builder.numbers builder.cstrcnt front (some number) rest) (string : Attached) :
    ∃ numbers, pushString builder string.offset (string.text.length + 1) = .ok { builder with numbers } ∧
      Chunks.Holds 1000 numbers (front ++ some (number + 1) :: (rest ++ pair string)) ∧
      Chunks.At numbers builder.cstrcnt front (some (number + 1)) (rest ++ pair string) := by
  obtain ⟨first, _, pushed, holds, _, stays⟩ := pushNum_spec holds (BitVec.ofNat 32 string.offset)
  obtain ⟨second, _, next, all, _, remains⟩ :=
    @pushNum_spec _ { builder with numbers := first } _ holds (BitVec.ofNat 32 (string.text.length + 1))
  have counted := remains (stays place)
  obtain ⟨numbers, stored, kept, whole⟩ := all.store_eq counted (some (number + 1))
  rw [List.append_assoc] at kept whole
  refine ⟨numbers, ?_, whole, kept⟩
  rw [pushString, pushed, ok_bind]
  dsimp only
  rw [next, ok_bind]
  dsimp only
  rw [counted.load_eq, ok_bind, Option.elim_some, ok_bind, stored]
  rfl

@[simp] theorem length_bytes (string : Attached) : string.bytes.length = string.text.length + 1 := by
  rw [Attached.bytes, List.length_append, List.length_singleton]

theorem Copied.grow {strings more : List StringList} (copied : Copied strings element string) (grows : Grows strings more) : Copied more element string := by
  obtain ⟨list, next, pointer, read⟩ := copied
  exact ⟨list, next, pointer, grows read⟩

/-- Two strings of a record have pointers that are apart. -/
def Apart (first other : Attached) : Prop := first.offset + Region.width ≤ other.offset ∨ other.offset + Region.width ≤ first.offset

theorem Apart.symm {first other : Attached} (apart : Apart first other) : Apart other first := Or.symm apart

/-- The next string of a record is copied. -/
theorem Filled.copy {strings more : List StringList} (filled : Filled strings row done (string :: todo) element) (grows : Grows strings more)
    {list next : ℕ} (copied : fromBuilder more string.bytes.length (.copy list next) = .ok string.bytes) (member : string ∈ row.strings)
    (before : ∀ other ∈ done, Apart other string) (behind : ∀ other ∈ todo, Apart other string) :
    Filled more row (done ++ [string]) todo (element.overwrite string.offset (Region.parts (.copy list next))) := by
  have inside := Region.inside_of_readPointer (filled.sources string List.mem_cons_self)
  have room : string.offset + (Region.parts (Pointer.copy list next)).length ≤ element.length := by rwa [Region.length_parts]
  have others : ∀ other, Apart other string →
      (element.overwrite string.offset (Region.parts (.copy list next))).readPointer other.offset = element.readPointer other.offset := by
    intro other apart
    apply Region.readPointer_overwrite_other _ room
    rw [Region.length_parts]
    exact apart
  constructor
  · rw [Region.length_overwrite room, filled.size]
  · intro other present
    obtain old | new := List.mem_append.mp present
    · obtain ⟨from_list, place, pointer, read⟩ := filled.copied other old
      exact ⟨from_list, place, (others other (before other old)).trans pointer, grows read⟩
    · rw [List.mem_singleton.mp new]
      exact ⟨list, next, Region.readPointer_overwrite inside _, copied⟩
  · intro other present
    rw [others other (behind other present)]
    exact filled.sources other (List.mem_cons_of_mem _ present)
  · intro index outside
    rw [← filled.data index outside]
    obtain before | behind := outside string member
    · exact Region.getElem?_overwrite_before before (Nat.le_of_add_right_le inside)
    · exact Region.getElem?_overwrite_behind (by rwa [Region.length_parts]) (Nat.le_of_add_right_le inside)

theorem Making.lstring (making : Making start front row done (string :: todo) builder) (member : string ∈ row.strings)
    (before : ∀ other ∈ done, Apart other string) (behind : ∀ other ∈ todo, Apart other string) :
    ∃ after, addLstringOffset builder string.offset string.text.length = .ok after ∧ Making start front row (done ++ [string]) todo after := by
  obtain ⟨element, stored, filled⟩ := making.elements
  have pointer := filled.sources string List.mem_cons_self
  have inside := Region.inside_of_readPointer pointer
  have loaded : Chunks.load builder.elements builder.current = .ok element := by
    rw [making.current]
    exact Chunks.load_store stored
  obtain ⟨strings, last, list, old, chosen, found, room, grown, ok⟩ := stringList_spec builder making.last (string.text.length + 1)
  obtain ⟨more, next, put, grows, copied, okay⟩ := @putString_spec _ _ _ string.bytes _ found (by rwa [length_bytes]) ok
  have written : element.writePointer string.offset (.copy list next) = .ok (element.overwrite string.offset (Region.parts (.copy list next))) := by
    rw [Region.writePointer, Region.write, if_pos (by rwa [Region.length_parts])]
  obtain ⟨elements, again⟩ := Chunks.exists_store stored (element.overwrite string.offset (Region.parts (.copy list next)))
  have kept : Chunks.store builder.elements builder.current (element.overwrite string.offset (Region.parts (.copy list next))) = .ok elements := by
    rw [making.current, Chunks.store_store stored, again]
  have source : fromBuilder builder.strings (string.text.length + 1) (.source string.bytes) = .ok string.bytes := by
    rw [fromBuilder, readAt_zero, if_pos (by rw [length_bytes]), List.take_of_length_le (by rw [length_bytes])]
  obtain ⟨numbers, pushed, whole, place⟩ := @pushString_spec _
    { builder with elements, strings := more, lastStrings := last, stringalloc := builder.stringalloc + (string.text.length + 1) }
    front _ _ _ making.numbers (making.cstrcnt ▸ making.place) string
  have one_more : BitVec.ofNat 32 done.length + 1 = BitVec.ofNat 32 (done ++ [string]).length := by
    rw [List.length_append, List.length_singleton]
    exact (BitVec.ofNat_add _ _).symm
  have pairs : done.flatMap pair ++ pair string = (done ++ [string]).flatMap pair := by
    rw [List.flatMap_append, List.flatMap_singleton]
  rw [one_more, pairs] at whole place
  refine ⟨{ builder with
    elements, strings := more, lastStrings := last, stringalloc := builder.stringalloc + (string.text.length + 1), numbers }, ?_, ?_⟩
  · rw [addLstringOffset, loaded, ok_bind, pointer, ok_bind, chosen]
    dsimp only
    rw [source, ok_bind, put, ok_bind]
    dsimp only
    rw [written, ok_bind, kept, ok_bind, pushed]
  · constructor
    · exact ⟨_, again, filled.copy (grown.trans grows) copied member before behind⟩
    · exact making.current
    · exact making.cstrcnt
    · exact whole
    · exact making.cstrcnt ▸ place
    · exact making.grows.trans (grown.trans grows)
    · exact okay
    · rw [making.stringalloc, textOf, textOf, List.flatMap_append, List.flatMap_singleton, List.length_append, length_bytes, Nat.add_assoc]
    · exact making.cnt

theorem Making.attach (making : Making start front row done (string :: todo) builder) (member : string ∈ row.strings)
    (before : ∀ other ∈ done, Apart other string) (behind : ∀ other ∈ todo, Apart other string) :
    ∃ after, attach builder string = .ok after ∧ Making start front row (done ++ [string]) todo after := by
  obtain ⟨after, added, next⟩ := making.lstring member before behind
  refine ⟨after, ?_, next⟩
  rw [Lists.Builder.attach]
  split
  next measured =>
    obtain ⟨element, stored, filled⟩ := making.elements
    have loaded : Chunks.load builder.elements builder.current = .ok element := by
      rw [making.current]
      exact Chunks.load_store stored
    have length : strlenAt string.bytes 0 = .ok string.text.length := strlenAt_append string.text [] rfl (string.ends measured)
    rw [addStringOffset, loaded, ok_bind, filled.sources string List.mem_cons_self, ok_bind]
    dsimp only
    rw [length, ok_bind, added]
  next => exact added

/-- All strings of a record are copied. -/
theorem Making.all (making : Making start front row done todo builder) (strings : row.strings = done ++ todo) :
    ∃ after, todo.foldlM Lists.Builder.attach builder = .ok after ∧ Making start front row row.strings [] after := by
  induction todo generalizing done builder with
  | nil =>
    rw [List.append_nil] at strings
    exact ⟨builder, rfl, strings ▸ making⟩
  | cons string todo ih =>
    have fields : (done ++ string :: todo).Pairwise Apart := strings ▸ row.fields
    obtain ⟨_, later, across⟩ := List.pairwise_append.mp fields
    have behind : ∀ other ∈ todo, Apart other string := fun other present => ((List.pairwise_cons.mp later).1 other present).symm
    obtain ⟨after, attached, next⟩ := making.attach (strings ▸ List.mem_append_right _ List.mem_cons_self)
      (fun other present => across other present string List.mem_cons_self) behind
    obtain ⟨final, rest, whole⟩ := ih next (by rw [strings, List.append_assoc]; rfl)
    refine ⟨final, ?_, whole⟩
    rw [List.foldlM_cons, attached, ok_bind, rest]

/-- A record that is made. Its element can be any one that is allocated, and its numbers follow the ones before it. -/
theorem make_spec {elements : List (Chunk Memory)} (stored : Chunks.store builder.elements builder.current row.record = .ok elements)
    (numbers : Chunks.Holds 1000 builder.numbers (front ++ [some 0])) (place : Chunks.At builder.numbers builder.cstrcnt front (some 0) [])
    (last : LastOk builder.strings builder.lastStrings) :
    ∃ after, make builder row = .ok after ∧ Making builder front row row.strings [] after := by
  have making : Making builder front row [] row.strings { builder with elements } := by
    constructor
    · exact ⟨row.record, stored, row.size, nofun, row.sources, fun _ _ => rfl⟩
    · rfl
    · rfl
    · exact numbers
    · exact place
    · exact Grows.refl _
    · exact last
    · rfl
    · rfl
  obtain ⟨after, made, whole⟩ := making.all rfl
  refine ⟨after, ?_, whole⟩
  rw [make, stored, ok_bind, made]

end Make

section Collect

variable {builder after : Builder layout} {row : Row layout} {rows : List (Row layout)}

/-- What a builder has of the records that are kept. -/
structure Collected (builder : Builder layout) (rows : List (Row layout)) : Prop where
  elements : ∃ items, Chunks.Holds layout.elementsPerList builder.elements items ∧
    List.Forall₂ (fun row => Filled builder.strings row row.strings []) rows items
  numbers : Chunks.Holds 1000 builder.numbers (rows.flatMap numbersOf)
  last : LastOk builder.strings builder.lastStrings
  stringalloc : builder.stringalloc = (textsOf rows).length
  cnt : builder.cnt = rows.length

/-- An element is allocated and not counted yet. Its count of strings is zero. -/
structure Opened (builder : Builder layout) (rows : List (Row layout)) : Prop where
  elements : ∃ items element, Chunks.Open layout.elementsPerList builder.elements builder.current items element ∧
    List.Forall₂ (fun row => Filled builder.strings row row.strings []) rows items
  numbers : Chunks.Holds 1000 builder.numbers (rows.flatMap numbersOf ++ [some 0])
  place : Chunks.At builder.numbers builder.cstrcnt (rows.flatMap numbersOf) (some 0) []
  last : LastOk builder.strings builder.lastStrings
  stringalloc : builder.stringalloc = (textsOf rows).length
  cnt : builder.cnt = rows.length

theorem elementsPerList_pos (layout : Layout) : 0 < layout.elementsPerList := by
  unfold Layout.elementsPerList
  split <;> decide

theorem collected_create (layout : Layout) : Collected (create layout) [] :=
  ⟨⟨[], Chunks.holds_nil, .nil⟩, Chunks.holds_nil, nofun, rfl, rfl⟩

theorem Filled.grow {strings more : List StringList} {done todo : List Attached} {element : Memory} (filled : Filled strings row done todo element)
    (grows : Grows strings more) : Filled more row done todo element :=
  ⟨filled.size, fun string member => (filled.copied string member).grow grows, filled.sources, filled.data⟩

/-- An element for the next record. -/
theorem Collected.reserve (collected : Collected builder rows) : ∃ opened, pushCount (reserveElement builder) = .ok opened ∧ Opened opened rows := by
  obtain ⟨items, holds, filled⟩ := collected.elements
  obtain ⟨element, slot⟩ := Chunks.open_reserve holds (elementsPerList_pos layout) (Region.malloc layout.elementSize)
  obtain ⟨numbers, cstrcnt, pushed, all, place, _⟩ := @pushNum_spec _ (reserveElement builder) _ collected.numbers 0
  refine ⟨{ reserveElement builder with numbers, cstrcnt }, ?_, ⟨items, element, slot, filled⟩, all, place, collected.last, collected.stringalloc, collected.cnt⟩
  rw [pushCount, pushed]
  rfl

/-- A record that is not kept has no strings, and leaves its element for the next one. -/
theorem Opened.reject (opened : Opened builder rows) (none : row.strings = []) : ∃ after, make builder row = .ok after ∧ Opened after rows := by
  obtain ⟨items, element, slot, filled⟩ := opened.elements
  obtain ⟨elements, stored, written⟩ := slot.store_eq row.record
  refine ⟨{ builder with elements }, ?_, ⟨items, row.record, written, filled⟩, opened.numbers, opened.place, opened.last, opened.stringalloc, opened.cnt⟩
  rw [make, stored, ok_bind, none]
  rfl

/-- The count of strings is reset. -/
theorem Opened.reset (opened : Opened builder rows) :
    ∃ numbers, Chunks.store builder.numbers builder.cstrcnt (some 0) = .ok numbers ∧ Opened { builder with numbers } rows := by
  obtain ⟨numbers, stored, place, holds⟩ := opened.numbers.store_eq opened.place (some 0)
  exact ⟨numbers, stored, opened.elements, holds, place, opened.last, opened.stringalloc, opened.cnt⟩

theorem numbersOf_concat (rows : List (Row layout)) (row : Row layout) :
    (rows ++ [row]).flatMap numbersOf = rows.flatMap numbersOf ++ some (BitVec.ofNat 32 row.strings.length) :: row.strings.flatMap pair := by
  rw [List.flatMap_append, List.flatMap_singleton, numbersOf]

/-- The element of a record that is made is one more. -/
theorem Making.collected {start : Builder layout} {items : List Memory} {elements : List (Chunk Memory)} {element : Memory}
    (making : Making start (rows.flatMap numbersOf) row row.strings [] builder)
    (filled : List.Forall₂ (fun row => Filled start.strings row row.strings []) rows items)
    (own : Filled builder.strings row row.strings [] element) (holds : Chunks.Holds layout.elementsPerList elements (items ++ [element]))
    (stringalloc : start.stringalloc = (textsOf rows).length) {cnt : ℕ} (counted : cnt = rows.length + 1) :
    Collected { builder with elements, cnt } (rows ++ [row]) := by
  constructor
  · refine ⟨_, holds, List.rel_append (filled.imp fun row element old => old.grow making.grows) (.cons own .nil)⟩
  · rw [numbersOf_concat]
    exact making.numbers
  · exact making.last
  · rw [textsOf, List.flatMap_append, List.flatMap_singleton, List.length_append]
    exact making.stringalloc.trans (congrArg (· + _) stringalloc)
  · rw [List.length_append]
    exact counted

/-- A record that is kept. -/
theorem Opened.keep (opened : Opened builder rows) (row : Row layout) :
    ∃ after, make builder row = .ok after ∧ Collected (countElement after) (rows ++ [row]) := by
  obtain ⟨items, old, slot, filled⟩ := opened.elements
  obtain ⟨elements, stored, _⟩ := slot.store_eq row.record
  obtain ⟨after, made, making⟩ := make_spec stored opened.numbers opened.place opened.last
  obtain ⟨element, written, own⟩ := making.elements
  obtain ⟨final, same, counted⟩ := slot.store_eq element
  rw [written] at same
  cases same
  exact ⟨after, made, making.collected filled own counted.holds_count opened.stringalloc (congrArg (· + 1) (making.cnt.trans opened.cnt))⟩

/-- An element that is counted before it is made. -/
theorem Collected.element (collected : Collected builder rows) (row : Row layout) :
    ∃ start after, addElement builder = .ok start ∧ make start row = .ok after ∧ Collected after (rows ++ [row]) := by
  obtain ⟨opened, reserved, open_slot⟩ := collected.reserve
  obtain ⟨items, old, slot, filled⟩ := open_slot.elements
  obtain ⟨elements, stored, _⟩ := slot.count_eq.store_eq row.record
  obtain ⟨after, made, making⟩ := @make_spec _ (countElement opened) row _ _ stored open_slot.numbers open_slot.place open_slot.last
  obtain ⟨element, written, own⟩ := making.elements
  obtain ⟨final, same, _, holds⟩ := slot.holds_count.store_eq slot.count_eq element
  have whole : final = after.elements := by
    have again := same.symm.trans written
    cases again
    rfl
  refine ⟨countElement opened, after, ?_, made, ?_⟩
  · rw [addElement, reserved]
    rfl
  · rw [whole] at holds
    exact making.collected filled own holds open_slot.stringalloc (making.cnt.trans (congrArg (· + 1) open_slot.cnt))

/-- The rows of a result that are kept. -/
def keptRows (list : List (Row layout × Bool)) : List (Row layout) := (list.filter Prod.snd).map Prod.fst

def keptOf : Added layout → List (Row layout)
  | .element row => [row]
  | .rows list => keptRows list

/-- A row that is not kept adds no string, and another one comes after it. -/
structure Skips (list : List (Row layout × Bool)) : Prop where
  bare : ∀ row ∈ list, row.2 = false → row.1.strings = []
  last : ∀ row ∈ list.getLast?, row.2 = true

theorem Skips.tail {row : Row layout × Bool} {list : List (Row layout × Bool)} (skips : Skips (row :: list)) : Skips list := by
  refine ⟨fun other member => skips.bare other (List.mem_cons_of_mem _ member), fun other member => skips.last other ?_⟩
  cases list with
  | nil => cases member
  | cons next list => rwa [List.getLast?_cons_cons]

theorem Skips.nonempty {row : Row layout} {list : List (Row layout × Bool)} (skips : Skips ((row, false) :: list)) : list ≠ [] := by
  rintro rfl
  exact Bool.false_ne_true (skips.last _ rfl)

/-- The rows of a result, from the outer loop or from the inner one. -/
theorem addRows_spec {list : List (Row layout × Bool)} (skips : Skips list) {inner : Bool}
    (start : if inner then Opened builder rows ∧ list ≠ [] else Collected builder rows) :
    ∃ after, addRows inner builder list = .ok (after, true) ∧ Collected after (rows ++ keptRows list) := by
  induction list generalizing inner builder rows with
  | nil =>
    cases inner with
    | true => exact absurd rfl start.2
    | false => exact ⟨builder, rfl, by rw [keptRows, List.filter_nil, List.map_nil, List.append_nil]; exact start⟩
  | cons head list ih =>
    obtain ⟨row, kept⟩ := head
    have slot : ∃ opened, openRow inner builder = .ok opened ∧ Opened opened rows := by
      cases inner with
      | true =>
        obtain ⟨numbers, stored, opened⟩ := start.1.reset
        refine ⟨{ builder with numbers }, ?_, opened⟩
        rw [openRow, if_pos rfl, stored]
        rfl
      | false => exact start.reserve
    obtain ⟨opened, reserved, empty⟩ := slot
    rw [addRows, reserved, ok_bind]
    cases kept with
    | true =>
      obtain ⟨after, made, collected⟩ := empty.keep row
      obtain ⟨final, added, whole⟩ := @ih _ (rows ++ [row]) skips.tail false collected
      refine ⟨final, ?_, ?_⟩
      · rw [made, ok_bind, if_pos rfl, added]
      · rw [List.append_assoc] at whole
        exact whole
    | false =>
      obtain ⟨after, made, again⟩ := empty.reject (skips.bare _ List.mem_cons_self rfl)
      obtain ⟨final, added, whole⟩ := @ih _ rows skips.tail true ⟨again, skips.nonempty⟩
      refine ⟨final, ?_, whole⟩
      rw [made, ok_bind, if_neg Bool.false_ne_true, added]

/-- The strings can be counted with 32 bits. -/
def Short (row : Row layout) : Prop := ∀ string ∈ row.strings, string.text.length + 1 < 2 ^ 32

/-- What is added has short strings, and rows that are not kept have none and are followed by one that is. -/
structure Packable (added : Added layout) : Prop where
  short : ∀ row ∈ keptOf added, Short row
  skips : ∀ list, added = .rows list → Skips list

theorem add_spec {added : Added layout} (packable : Packable added) (collected : Collected builder rows) (fetches : ℕ) :
    ∃ after, add (fetches + 1) builder added = .ok (some after) ∧ Collected after (rows ++ keptOf added) := by
  cases added with
  | element row =>
    obtain ⟨start, after, begun, made, whole⟩ := collected.element row
    refine ⟨after, ?_, whole⟩
    rw [add, begun, ok_bind, made]
    rfl
  | rows list =>
    obtain ⟨after, added, whole⟩ := @addRows_spec _ _ rows list (packable.skips list rfl) false collected
    refine ⟨after, ?_, whole⟩
    rw [add, psqlListAdd, added]
    rfl

theorem addAll_spec {added : List (Added layout)} (packable : ∀ one ∈ added, Packable one) (collected : Collected builder rows) (fetches : ℕ) :
    ∃ after, addAll (fetches + 1) builder added = .ok (some after) ∧ Collected after (rows ++ added.flatMap keptOf) := by
  induction added generalizing builder rows with
  | nil => exact ⟨builder, rfl, by rw [List.flatMap_nil, List.append_nil]; exact collected⟩
  | cons first added ih =>
    obtain ⟨after, one, next⟩ := add_spec (packable first List.mem_cons_self) collected fetches
    obtain ⟨final, rest, whole⟩ := ih (fun other member => packable other (List.mem_cons_of_mem _ member)) next
    refine ⟨final, ?_, ?_⟩
    · rw [addAll, one, ok_bind]
      exact rest
    · rwa [List.flatMap_cons, ← List.append_assoc]

end Collect

section Finalize

variable {builder : Builder layout} {rows : List (Row layout)} {strings : List Attached} {string : Attached} {element : Memory}
  {popoff : Chunks.Place} {numbers later : List (Option (BitVec 32))} {place : ℕ}

theorem popNum_spec (holds : Chunks.Holds 1000 builder.numbers numbers) {number : BitVec 32}
    (ahead : Chunks.Ahead builder.numbers popoff (some number :: later)) :
    ∃ next, popNum builder popoff = .ok (number, next) ∧ Chunks.Ahead builder.numbers next later := by
  obtain ⟨loaded, rest⟩ := holds.advance_eq ahead
  refine ⟨_, ?_, rest⟩
  rw [popNum, loaded]
  rfl

/-- The record of some strings whose copies are in the block, from a place on. -/
def redirect (element : Memory) (place : ℕ) : List Attached → Memory
  | [] => element
  | string :: strings => redirect (element.overwrite string.offset (Region.parts (.packed place))) (place + string.bytes.length) strings

/-- The strings of a record can be copied. -/
structure Ready (strings : List StringList) (element : Memory) (todo : List Attached) : Prop where
  copied : ∀ string ∈ todo, Copied strings element string
  apart : todo.Pairwise Apart
  short : ∀ string ∈ todo, string.text.length + 1 < 2 ^ 32

theorem Copied.inside {strings : List StringList} (copied : Copied strings element string) : string.offset + Region.width ≤ element.length := by
  obtain ⟨_, _, pointer, _⟩ := copied
  exact Region.inside_of_readPointer pointer

theorem Ready.next {store : List StringList} (ready : Ready store element (string :: strings)) (place : ℕ) :
    Ready store (element.overwrite string.offset (Region.parts (.packed place))) strings := by
  have room := (ready.copied string List.mem_cons_self).inside
  obtain ⟨first, rest⟩ := List.pairwise_cons.mp ready.apart
  refine ⟨fun other member => ?_, rest, fun other member => ready.short other (List.mem_cons_of_mem _ member)⟩
  obtain ⟨list, next, pointer, read⟩ := ready.copied other (List.mem_cons_of_mem _ member)
  refine ⟨list, next, ?_, read⟩
  rw [Region.readPointer_overwrite_other _ (by rwa [Region.length_parts]), pointer]
  rw [Region.length_parts]
  exact (first other member).symm

theorem length_redirect {store : List StringList} (ready : Ready store element strings) (place : ℕ) :
    (redirect element place strings).length = element.length := by
  induction strings generalizing element place with
  | nil => rfl
  | cons string strings ih =>
    rw [redirect, ih (ready.next place), Region.length_overwrite]
    rw [Region.length_parts]
    exact (ready.copied string List.mem_cons_self).inside

theorem malloc_add (first second : ℕ) : (Region.malloc (first + second) : Memory) = Region.malloc first ++ Region.malloc second := by
  rw [Region.malloc, Region.malloc, Region.malloc, List.replicate_add]

/-- The next string of a record: a copy is made behind the others, and the pointer in the record is that of the copy. -/
theorem copyString_spec (front gap texts : Memory) (spare : ℕ) (holds : Chunks.Holds 1000 builder.numbers numbers) (small : element.length < 2 ^ 32)
    (copied : Copied builder.strings element string) (short : string.text.length + 1 < 2 ^ 32)
    (ahead : Chunks.Ahead builder.numbers popoff (pair string ++ later))
    (here : place = front.length + element.length + gap.length + texts.length) :
    ∃ next, copyString builder ⟨front ++ element ++ (gap ++ texts ++ Region.malloc (string.bytes.length + spare)), front.length, place, popoff⟩ =
        .ok ⟨front ++ element.overwrite string.offset (Region.parts (.packed place)) ++ (gap ++ (texts ++ Region.ofBytes string.bytes) ++ Region.malloc spare),
          front.length, place + string.bytes.length, next⟩ ∧ Chunks.Ahead builder.numbers next later := by
  have inside := copied.inside
  have room : string.offset + (Region.parts (Pointer.packed place)).length ≤ element.length := by rwa [Region.length_parts]
  obtain ⟨list, from_place, pointer, read⟩ := copied
  obtain ⟨second, first_number, behind⟩ := popNum_spec holds ahead
  obtain ⟨next, second_number, rest⟩ := popNum_spec holds behind
  refine ⟨next, ?_, rest⟩
  have offset : (BitVec.ofNat 32 string.offset).toNat = string.offset := by
    rw [BitVec.toNat_ofNat, Nat.mod_eq_of_lt (by omega)]
  have length : (BitVec.ofNat 32 (string.text.length + 1)).toNat = string.bytes.length := by
    rw [BitVec.toNat_ofNat, Nat.mod_eq_of_lt short, length_bytes]
  have found : Region.readPointer (front ++ element ++ (gap ++ texts ++ Region.malloc (string.bytes.length + spare)))
      (front.length + string.offset) = .ok (.copy list from_place) := by
    rw [Region.readPointer_append inside, pointer]
  have bytes : ∀ ret, fromReplay builder.strings ret string.bytes.length (.copy list from_place) = .ok (Region.ofBytes string.bytes) := fun ret => by
    rw [fromReplay, read]
    rfl
  have copy : Region.write (front ++ element ++ (gap ++ texts ++ Region.malloc (string.bytes.length + spare))) place (Region.ofBytes string.bytes) =
      .ok (front ++ element ++ (gap ++ (texts ++ Region.ofBytes string.bytes) ++ Region.malloc spare)) := by
    have written := @Region.write_middle _ (Region.ofBytes string.bytes) (front ++ element ++ gap ++ texts)
      (Region.malloc string.bytes.length) (Region.malloc spare) (by rw [Region.length_ofBytes, Region.length_malloc])
    rw [here, malloc_add]
    simpa only [List.append_assoc, List.length_append, Nat.add_assoc] using written
  have pointed := @Region.write_append _ _ front _ (gap ++ (texts ++ Region.ofBytes string.bytes) ++ Region.malloc spare) _ room
  rw [copyString, first_number, ok_bind]
  dsimp only
  rw [second_number, ok_bind]
  dsimp only
  rw [offset, length, found, ok_bind, bytes, ok_bind, copy, ok_bind, Region.writePointer, pointed]
  rfl

/-- All strings of a record. -/
theorem copyStrings_spec (front gap texts : Memory) (spare : ℕ) (holds : Chunks.Holds 1000 builder.numbers numbers) (small : element.length < 2 ^ 32)
    (ready : Ready builder.strings element strings) (ahead : Chunks.Ahead builder.numbers popoff (strings.flatMap pair ++ later))
    (here : place = front.length + element.length + gap.length + texts.length) :
    ∃ next, copyStrings builder ⟨front ++ element ++ (gap ++ texts ++ Region.malloc ((textOf strings).length + spare)), front.length, place, popoff⟩
        strings.length = .ok ⟨front ++ redirect element place strings ++ (gap ++ (texts ++ Region.ofBytes (textOf strings)) ++ Region.malloc spare),
          front.length, place + (textOf strings).length, next⟩ ∧ Chunks.Ahead builder.numbers next later := by
  induction strings generalizing element texts place popoff with
  | nil =>
    refine ⟨popoff, ?_, ahead⟩
    rw [textOf, List.flatMap_nil, List.length_nil, Nat.zero_add, Region.ofBytes, List.map_nil, List.append_nil]
    rfl
  | cons string strings ih =>
    have whole : textOf (string :: strings) = string.bytes ++ textOf strings := rfl
    rw [List.flatMap_cons, List.append_assoc] at ahead
    rw [whole, List.length_append, Nat.add_assoc]
    obtain ⟨second, copied, behind⟩ := copyString_spec front gap texts ((textOf strings).length + spare) holds small
      (ready.copied string List.mem_cons_self) (ready.short string List.mem_cons_self) ahead here
    have length : (element.overwrite string.offset (Region.parts (.packed place))).length = element.length := by
      rw [Region.length_overwrite]
      rw [Region.length_parts]
      exact (ready.copied string List.mem_cons_self).inside
    obtain ⟨next, rest, last⟩ := @ih _ _ (place + string.bytes.length) (texts ++ Region.ofBytes string.bytes) (by rwa [length]) (ready.next place) behind
      (by rw [length, List.length_append, Region.length_ofBytes]; omega)
    refine ⟨next, ?_, last⟩
    rw [List.length_cons, copyStrings, copied, ok_bind, rest, redirect, Region.ofBytes, Region.ofBytes, Region.ofBytes, List.map_append,
      List.append_assoc texts, Nat.add_assoc]

/-- Pointers that are apart take their width each. -/
theorem length_strings (apart : strings.Pairwise Apart) (inside : ∀ string ∈ strings, string.offset + Region.width ≤ element.length) :
    strings.length * Region.width ≤ element.length := by
  let places := strings.flatMap fun string => List.range' string.offset Region.width
  have nodup : places.Nodup := by
    apply List.nodup_flatMap.mpr
    refine ⟨fun string _ => List.nodup_range', apart.imp fun {first other} away => ?_⟩
    intro place here there
    rw [List.mem_range'_1] at here there
    obtain before | behind := away <;> omega
  have within : places ⊆ List.range element.length := by
    intro place member
    obtain ⟨string, used, here⟩ := List.mem_flatMap.mp member
    rw [List.mem_range'_1] at here
    have fits := inside string used
    apply List.mem_range.mpr
    omega
  have all := (nodup.subperm within).length_le
  have length : places.length = strings.length * Region.width := by simp [places, List.length_flatMap]
  rwa [length, List.length_range] at all

/-- The records in the block, with the strings from a place on. -/
def packedElements (place : ℕ) : List (Row layout) → List Memory → Memory
  | row :: rows, item :: items => redirect item place row.strings ++ packedElements (place + (textOf row.strings).length) rows items
  | _, _ => []

theorem Filled.ready {store : List StringList} {row : Row layout} (filled : Filled store row row.strings [] element)
    (short : ∀ string ∈ row.strings, string.text.length + 1 < 2 ^ 32) : Ready store element row.strings := ⟨filled.copied, row.fields, short⟩

/-- The next record and its strings. -/
theorem copyElement_spec {row : Row layout} (front gap texts : Memory) (spare : ℕ) (holds : Chunks.Holds 1000 builder.numbers numbers)
    (filled : Filled builder.strings row row.strings [] element) (short : ∀ string ∈ row.strings, string.text.length + 1 < 2 ^ 32)
    (ahead : Chunks.Ahead builder.numbers popoff (numbersOf row ++ later))
    (here : place = front.length + layout.elementSize + gap.length + texts.length) :
    ∃ next, copyElement builder ⟨front ++ Region.malloc layout.elementSize ++ (gap ++ texts ++ Region.malloc ((textOf row.strings).length + spare)),
          front.length, place, popoff⟩ element =
        .ok ⟨front ++ redirect element place row.strings ++ (gap ++ (texts ++ Region.ofBytes (textOf row.strings)) ++ Region.malloc spare),
          front.length + layout.elementSize, place + (textOf row.strings).length, next⟩ ∧ Chunks.Ahead builder.numbers next later := by
  have ready := filled.ready short
  have small : element.length < 2 ^ 32 := by
    rw [filled.size]
    exact layout.small
  obtain ⟨second, number, behind⟩ := popNum_spec holds ahead
  have start : place = front.length + element.length + gap.length + texts.length := by rwa [filled.size]
  obtain ⟨next, copied, rest⟩ := copyStrings_spec front gap texts spare holds small ready behind start
  refine ⟨next, ?_, rest⟩
  have few : (BitVec.ofNat 32 row.strings.length).toNat = row.strings.length := by
    have fits := length_strings ready.apart fun string member => (ready.copied string member).inside
    rw [Region.width] at fits
    rw [BitVec.toNat_ofNat, Nat.mod_eq_of_lt (by omega)]
  have written := @Region.write_middle _ element front (Region.malloc layout.elementSize)
    (gap ++ texts ++ Region.malloc ((textOf row.strings).length + spare)) (by rw [filled.size, Region.length_malloc])
  rw [copyElement, written, ok_bind]
  dsimp only
  rw [number, ok_bind]
  dsimp only
  rw [few, copied]
  rfl

theorem textsOf_cons (row : Row layout) (rows : List (Row layout)) : textsOf (row :: rows) = textOf row.strings ++ textsOf rows := rfl

/-- All records. -/
theorem copyElements_spec {items : List Memory} (front texts : Memory) (holds : Chunks.Holds 1000 builder.numbers numbers)
    (filled : List.Forall₂ (fun row => Filled builder.strings row row.strings []) rows items)
    (short : ∀ row ∈ rows, ∀ string ∈ row.strings, string.text.length + 1 < 2 ^ 32)
    (ahead : Chunks.Ahead builder.numbers popoff (rows.flatMap numbersOf)) (here : place = front.length + layout.elementSize * rows.length + texts.length) :
    ∃ replay, items.foldlM (copyElement builder) ⟨front ++ Region.malloc (layout.elementSize * rows.length) ++
        (texts ++ Region.malloc (textsOf rows).length), front.length, place, popoff⟩ = .ok replay ∧
      replay.ret = front ++ packedElements place rows items ++ (texts ++ Region.ofBytes (textsOf rows)) := by
  induction filled generalizing front texts place popoff with
  | nil =>
    refine ⟨_, rfl, ?_⟩
    rfl
  | @cons row element rows items own filled ih =>
    rw [List.flatMap_cons] at ahead
    rw [List.length_cons] at here ⊢
    have size : layout.elementSize * (rows.length + 1) = layout.elementSize + layout.elementSize * rows.length := by
      rw [Nat.mul_add, Nat.mul_one, Nat.add_comm]
    have start : place = front.length + layout.elementSize + (Region.malloc (layout.elementSize * rows.length) : Memory).length + texts.length := by
      rw [Region.length_malloc, here, size]
      omega
    obtain ⟨next, copied, behind⟩ := copyElement_spec front (Region.malloc (layout.elementSize * rows.length)) texts (textsOf rows).length holds own
      (short row List.mem_cons_self) ahead start
    have length : (redirect element place row.strings).length = layout.elementSize := by
      rw [length_redirect (own.ready (short row List.mem_cons_self)), own.size]
    have fronts : (front ++ redirect element place row.strings).length = front.length + layout.elementSize := by
      rw [List.length_append, length]
    have further : place + (textOf row.strings).length = (front ++ redirect element place row.strings).length + layout.elementSize * rows.length +
        (texts ++ Region.ofBytes (textOf row.strings)).length := by
      rw [fronts, List.length_append, Region.length_ofBytes, here, size]
      omega
    obtain ⟨replay, rest, whole⟩ := ih (front ++ redirect element place row.strings) (texts ++ Region.ofBytes (textOf row.strings))
      (fun other member => short other (List.mem_cons_of_mem _ member)) behind further
    refine ⟨replay, ?_, ?_⟩
    · rw [fronts] at rest
      rw [size, malloc_add, textsOf_cons, List.length_append, List.foldlM_cons]
      simp only [List.append_assoc] at copied rest ⊢
      rw [copied, ok_bind, rest]
    · rw [whole, packedElements, textsOf_cons, Region.ofBytes, Region.ofBytes, Region.ofBytes, List.map_append]
      simp only [List.append_assoc]

/-- The number of elements in front, or the part of it that has room. -/
theorem header_spec (offset cnt more : ℕ) :
    ∃ head : Memory, (Region.malloc (offset + more)).write 0 (Region.ofBytes ((leBytes 8 cnt).take offset)) = .ok (head ++ Region.malloc more) ∧
      head.length = offset ∧ head.slice 0 (min offset 8) = Region.ofBytes ((leBytes 8 cnt).take offset) := by
  generalize numbered : (Region.ofBytes ((leBytes 8 cnt).take offset) : Memory) = number
  have width : number.length = min offset 8 := by
    rw [← numbered, Region.length_ofBytes, List.length_take, length_leBytes]
  have split : offset + more = min offset 8 + (offset - min offset 8 + more) := by omega
  have written := @Region.write_middle _ number [] (Region.malloc (min offset 8)) (Region.malloc (offset - min offset 8) ++ Region.malloc more)
    (by rw [width, Region.length_malloc])
  refine ⟨number ++ Region.malloc (offset - min offset 8), ?_, ?_, ?_⟩
  · rw [split, malloc_add, malloc_add, List.append_assoc]
    exact written
  · rw [List.length_append, width, Region.length_malloc]
    omega
  · rw [Region.slice, List.drop_zero, ← width, List.take_left]

/-- The block: the number of elements, the records, and the strings. -/
theorem finalize_spec (collected : Collected builder rows) (short : ∀ row ∈ rows, ∀ string ∈ row.strings, string.text.length + 1 < 2 ^ 32) :
    ∃ head items, head.length = layout.elementsOffset ∧
      head.slice 0 (min layout.elementsOffset 8) = Region.ofBytes ((leBytes 8 rows.length).take layout.elementsOffset) ∧
      List.Forall₂ (fun row => Filled builder.strings row row.strings []) rows items ∧
      finalize builder = .ok (head ++ packedElements (layout.elementsOffset + layout.elementSize * rows.length) rows items ++
        Region.ofBytes (textsOf rows)) := by
  obtain ⟨items, holds, filled⟩ := collected.elements
  obtain ⟨head, written, size, count⟩ := header_spec layout.elementsOffset rows.length (layout.elementSize * rows.length + (textsOf rows).length)
  have start : layout.elementsOffset + layout.elementSize * rows.length = head.length + layout.elementSize * rows.length + ([] : Memory).length := by
    rw [size, List.length_nil, Nat.add_zero]
  obtain ⟨replay, ran, whole⟩ := copyElements_spec head [] collected.numbers filled short collected.numbers.ahead start
  refine ⟨head, items, size, count, filled, ?_⟩
  rw [List.nil_append, List.append_assoc, ← malloc_add, size] at ran
  rw [finalize, collected.cnt, collected.stringalloc, Nat.add_assoc]
  dsimp only
  rw [written, ok_bind, holds.forEach_eq, ran, ok_bind, whole]
  rfl

end Finalize

section Packing

variable {rows : List (Row layout)} {strings : List Attached} {string : Attached} {element : Memory} {store : List StringList} {place elem : ℕ}

/-- A copy of a string, and the pointer to it. -/
structure Copy where
  pointer : ℕ
  place : ℕ
  bytes : Bytes

def copiesOf (elem place : ℕ) : List Attached → List Copy
  | [] => []
  | string :: strings => ⟨elem + string.offset, place, string.bytes⟩ :: copiesOf elem (place + string.bytes.length) strings

/-- The copies for records from a place on. -/
def copies (elem place : ℕ) : List (Row layout) → List Copy
  | [] => []
  | row :: rows => copiesOf elem place row.strings ++ copies (elem + layout.elementSize) (place + (textOf row.strings).length) rows

/-- The block that is returned: the number of elements, their records in order, and a copy of each string. -/
structure Packed (rows : List (Row layout)) (ret : Memory) : Prop where
  size : ret.length = layout.elementsOffset + layout.elementSize * rows.length + (textsOf rows).length
  count : ret.slice 0 (min layout.elementsOffset 8) = Region.ofBytes ((leBytes 8 rows.length).take layout.elementsOffset)
  data : ∀ i row index, rows[i]? = some row → index < layout.elementSize → Outside row.strings index →
    ret[layout.elementsOffset + layout.elementSize * i + index]? = row.record[index]?
  strings : ∀ copy ∈ copies layout.elementsOffset (layout.elementsOffset + layout.elementSize * rows.length) rows,
    ret.readPointer copy.pointer = .ok (.packed copy.place) ∧ ret.read copy.place copy.bytes.length = .ok (Region.ofBytes copy.bytes)
  apart : (copies layout.elementsOffset (layout.elementsOffset + layout.elementSize * rows.length) rows).Pairwise fun first other =>
    first.place + first.bytes.length ≤ other.place

/-- A pointer that is apart from those of the strings stays. -/
theorem readPointer_redirect {offset : ℕ} (ready : Ready store element strings)
    (apart : ∀ string ∈ strings, offset + Region.width ≤ string.offset ∨ string.offset + Region.width ≤ offset) :
    (redirect element place strings).readPointer offset = element.readPointer offset := by
  induction strings generalizing element place with
  | nil => rfl
  | cons string strings ih =>
    have room := (ready.copied string List.mem_cons_self).inside
    rw [redirect, ih (ready.next place) fun other member => apart other (List.mem_cons_of_mem _ member)]
    apply Region.readPointer_overwrite_other
    · rw [Region.length_parts]
      exact apart string List.mem_cons_self
    · rwa [Region.length_parts]

theorem getElem?_redirect {index : ℕ} (ready : Ready store element strings) (outside : Outside strings index) :
    (redirect element place strings)[index]? = element[index]? := by
  induction strings generalizing element place with
  | nil => rfl
  | cons string strings ih =>
    have room := (ready.copied string List.mem_cons_self).inside
    rw [redirect, ih (ready.next place) fun other member => outside other (List.mem_cons_of_mem _ member)]
    obtain before | behind := outside string List.mem_cons_self
    · exact Region.getElem?_overwrite_before before (Nat.le_of_add_right_le room)
    · exact Region.getElem?_overwrite_behind (by rwa [Region.length_parts]) (Nat.le_of_add_right_le room)

/-- The pointers of a record are those of the copies. -/
theorem redirect_copies (ready : Ready store element strings) : ∀ copy ∈ copiesOf elem place strings, ∃ offset, copy.pointer = elem + offset ∧
    offset + Region.width ≤ element.length ∧ (redirect element place strings).readPointer offset = .ok (.packed copy.place) := by
  induction strings generalizing element place with
  | nil => exact nofun
  | cons string strings ih =>
    have room := (ready.copied string List.mem_cons_self).inside
    obtain ⟨first, rest⟩ := List.pairwise_cons.mp ready.apart
    intro copy member
    obtain rfl | member := List.mem_cons.mp member
    · refine ⟨string.offset, rfl, room, ?_⟩
      rw [redirect, readPointer_redirect (ready.next place) first]
      exact Region.readPointer_overwrite room _
    · obtain ⟨offset, here, inside, pointed⟩ := ih (ready.next place) copy member
      refine ⟨offset, here, ?_, pointed⟩
      rwa [Region.length_overwrite (by rwa [Region.length_parts])] at inside

/-- The copies of a record lie next to one another. -/
theorem copiesOf_text (front behind : Memory) (here : place = front.length) : ∀ copy ∈ copiesOf elem place strings,
    (front ++ Region.ofBytes (textOf strings) ++ behind).read copy.place copy.bytes.length = .ok (Region.ofBytes copy.bytes) := by
  induction strings generalizing front place with
  | nil => exact nofun
  | cons string strings ih =>
    have whole : (Region.ofBytes (textOf (string :: strings)) : Memory) = Region.ofBytes string.bytes ++ Region.ofBytes (textOf strings) := by
      rw [textOf, List.flatMap_cons, Region.ofBytes, List.map_append]
      rfl
    intro copy member
    obtain rfl | member := List.mem_cons.mp member
    · have read := @Region.read_append _ front (Region.ofBytes string.bytes) (Region.ofBytes (textOf strings) ++ behind) string.bytes.length 0
        (by rw [Region.length_ofBytes, Nat.zero_add])
      dsimp only
      rw [whole, here]
      simp only [List.append_assoc, Nat.add_zero] at read ⊢
      rw [read, Region.read, if_pos (by rw [Region.length_ofBytes, Nat.zero_add]), Region.slice, List.drop_zero, List.take_of_length_le]
      rw [Region.length_ofBytes]
    · have read := ih (front ++ Region.ofBytes string.bytes) (by rw [List.length_append, Region.length_ofBytes, here]) copy member
      rw [whole]
      simpa only [List.append_assoc] using read

theorem copiesOf_places : (∀ copy ∈ copiesOf elem place strings, place ≤ copy.place ∧ copy.place + copy.bytes.length ≤ place + (textOf strings).length) ∧
    (copiesOf elem place strings).Pairwise fun first other => first.place + first.bytes.length ≤ other.place := by
  induction strings generalizing place with
  | nil => exact ⟨nofun, .nil⟩
  | cons string strings ih =>
    obtain ⟨within, apart⟩ := @ih (place + string.bytes.length)
    have total : (textOf (string :: strings)).length = string.bytes.length + (textOf strings).length := by
      rw [textOf, List.flatMap_cons, List.length_append]
      rfl
    rw [total]
    constructor
    · intro copy member
      obtain rfl | member := List.mem_cons.mp member
      · dsimp only
        exact ⟨Nat.le_refl _, by omega⟩
      · obtain ⟨least, most⟩ := within copy member
        exact ⟨by omega, by omega⟩
    · exact List.pairwise_cons.mpr ⟨fun copy member => (within copy member).1, apart⟩

theorem copies_places : (∀ copy ∈ copies elem place rows, place ≤ copy.place) ∧
    (copies elem place rows).Pairwise fun first other => first.place + first.bytes.length ≤ other.place := by
  induction rows generalizing elem place with
  | nil => exact ⟨nofun, .nil⟩
  | cons row rows ih =>
    obtain ⟨least, apart⟩ := @ih (place + (textOf row.strings).length) (elem + layout.elementSize)
    obtain ⟨within, own⟩ := @copiesOf_places row.strings place elem
    constructor
    · intro copy member
      obtain own | later := List.mem_append.mp member
      · exact (within copy own).1
      · exact Nat.le_of_add_right_le (least copy later)
    · apply List.pairwise_append.mpr
      exact ⟨own, apart, fun first early other late => (within first early).2.trans (least other late)⟩

/-- What is in the block behind some front and some strings. -/
theorem packedElements_spec {items : List Memory} (filled : List.Forall₂ (fun row => Filled store row row.strings []) rows items)
    (short : ∀ row ∈ rows, ∀ string ∈ row.strings, string.text.length + 1 < 2 ^ 32) (front texts : Memory)
    (here : place = front.length + layout.elementSize * rows.length + texts.length) :
    (packedElements place rows items).length = layout.elementSize * rows.length ∧
      (∀ i row index, rows[i]? = some row → index < layout.elementSize → Outside row.strings index →
        (packedElements place rows items)[layout.elementSize * i + index]? = row.record[index]?) ∧
      ∀ copy ∈ copies front.length place rows,
        (front ++ packedElements place rows items ++ (texts ++ Region.ofBytes (textsOf rows))).readPointer copy.pointer = .ok (.packed copy.place) ∧
        (front ++ packedElements place rows items ++ (texts ++ Region.ofBytes (textsOf rows))).read copy.place copy.bytes.length =
          .ok (Region.ofBytes copy.bytes) := by
  induction filled generalizing front texts place with
  | nil => exact ⟨rfl, nofun, nofun⟩
  | @cons row element rows items own filled ih =>
    have ready := own.ready (short row List.mem_cons_self)
    have length : (redirect element place row.strings).length = layout.elementSize := (length_redirect ready place).trans own.size
    have fronts : (front ++ redirect element place row.strings).length = front.length + layout.elementSize := by
      rw [List.length_append, length]
    have size : layout.elementSize * (rows.length + 1) = layout.elementSize + layout.elementSize * rows.length := by
      rw [Nat.mul_add, Nat.mul_one, Nat.add_comm]
    rw [List.length_cons, size] at here
    have further : place + (textOf row.strings).length = (front ++ redirect element place row.strings).length + layout.elementSize * rows.length +
        (texts ++ Region.ofBytes (textOf row.strings)).length := by
      rw [fronts, List.length_append, Region.length_ofBytes, here]
      omega
    obtain ⟨rest, data, behind⟩ := ih (fun other member => short other (List.mem_cons_of_mem _ member))
      (front ++ redirect element place row.strings) (texts ++ Region.ofBytes (textOf row.strings)) further
    have bytes : (Region.ofBytes (textsOf (row :: rows)) : Memory) = Region.ofBytes (textOf row.strings) ++ Region.ofBytes (textsOf rows) := by
      rw [textsOf_cons, Region.ofBytes, List.map_append]
      rfl
    rw [packedElements, bytes]
    refine ⟨?_, ?_, ?_⟩
    · rw [List.length_append, length, rest, List.length_cons, size]
    · intro i other index found inside outside
      cases i with
      | zero =>
        cases found
        rw [Nat.mul_zero, Nat.zero_add, List.getElem?_append_left (by rwa [length]), getElem?_redirect ready outside]
        exact own.data index outside
      | succ i =>
        have skip : layout.elementSize * (i + 1) + index = (redirect element place row.strings).length + (layout.elementSize * i + index) := by
          rw [length, Nat.mul_add, Nat.mul_one]
          omega
        rw [skip, List.getElem?_append_right (Nat.le_add_right _ _), Nat.add_sub_cancel_left]
        exact data i other index found inside outside
    · intro copy member
      obtain first | later := List.mem_append.mp member
      · obtain ⟨offset, pointer, inside, pointed⟩ := redirect_copies ready copy first
        constructor
        · have read := @Region.readPointer_append _ _ front (redirect element place row.strings)
            (packedElements (place + (textOf row.strings).length) rows items ++ (texts ++ (Region.ofBytes (textOf row.strings) ++
              Region.ofBytes (textsOf rows)))) offset (by rwa [length, ← own.size])
          rw [pointer]
          simp only [List.append_assoc] at read ⊢
          rw [read, pointed]
        · have start : place = (front ++ redirect element place row.strings ++
              packedElements (place + (textOf row.strings).length) rows items ++ texts).length := by
            rw [List.length_append, List.length_append, fronts, rest, here]
            omega
          have read := copiesOf_text (front ++ redirect element place row.strings ++
            packedElements (place + (textOf row.strings).length) rows items ++ texts) (Region.ofBytes (textsOf rows)) start copy first
          simpa only [List.append_assoc] using read
      · rw [← fronts] at later
        have found := behind copy later
        simpa only [List.append_assoc] using found

theorem packed_spec {builder : Builder layout} (collected : Collected builder rows)
    (short : ∀ row ∈ rows, ∀ string ∈ row.strings, string.text.length + 1 < 2 ^ 32) : ∃ ret, finalize builder = .ok ret ∧ Packed rows ret := by
  obtain ⟨head, items, length, count, filled, finished⟩ := finalize_spec collected short
  have start : layout.elementsOffset + layout.elementSize * rows.length = head.length + layout.elementSize * rows.length + ([] : Memory).length := by
    rw [length, List.length_nil, Nat.add_zero]
  obtain ⟨size, data, copied⟩ := packedElements_spec filled short head [] start
  rw [List.nil_append, length] at copied
  refine ⟨_, finished, ?_, ?_, ?_, copied, copies_places.2⟩
  · rw [List.length_append, List.length_append, length, size, Region.length_ofBytes]
  · rw [← count, Region.slice, Region.slice, List.drop_zero, List.drop_zero, List.append_assoc,
      List.take_append_of_le_length (by rw [length]; exact Nat.min_le_left _ _)]
  · intro i row index found inside outside
    have last : layout.elementSize * i + index < layout.elementSize * rows.length := by
      have below : i + 1 ≤ rows.length := (List.getElem?_eq_some_iff.mp found).1
      have most := Nat.mul_le_mul_left layout.elementSize below
      rw [Nat.mul_add, Nat.mul_one] at most
      omega
    rw [← size] at last
    rw [Nat.add_assoc, List.append_assoc, List.getElem?_append_right (by rw [length]; exact Nat.le_add_right _ _), length, Nat.add_sub_cancel_left,
      List.getElem?_append_left last]
    exact data i row index found inside outside

/-- What is added is packed, if no row that is left out has strings or is the last one, and each string can be counted with 32 bits. -/
theorem build_packed (layout : Layout) (added : List (Added layout)) (packable : ∀ one ∈ added, Packable one) (fetches : ℕ) :
    ∃ ret, build layout (fetches + 1) added = .ok (some ret) ∧ Packed (added.flatMap keptOf) ret := by
  obtain ⟨builder, all, collected⟩ := addAll_spec packable (collected_create layout) fetches
  rw [List.nil_append] at collected
  have short : ∀ row ∈ added.flatMap keptOf, ∀ string ∈ row.strings, string.text.length + 1 < 2 ^ 32 := by
    intro row member
    obtain ⟨one, used, kept⟩ := List.mem_flatMap.mp member
    exact (packable one used).short row kept
  obtain ⟨ret, finished, packed⟩ := packed_spec collected short
  refine ⟨ret, ?_, packed⟩
  rw [build, all, ok_bind]
  dsimp only
  rw [finished]
  rfl

/-- A record that is the pointer of its string. -/
def named (text : Bytes) : Row ⟨8, 8, by decide⟩ where
  record := Region.parts (.source (text ++ [0]))
  strings := [⟨0, text, false, nofun⟩]
  size := Region.length_parts _
  sources := fun string member => by
    obtain rfl := List.mem_singleton.mp member
    exact Region.readPointer_parts _
  fields := List.pairwise_singleton _ _

/-- A record without a string. -/
def blank : Row ⟨8, 8, by decide⟩ := ⟨Region.malloc 8, [], Region.length_malloc 8, nofun, .nil⟩

theorem named_short (text : Bytes) (few : text.length < 100) : Short (named text) := by
  intro string member
  obtain rfl := List.mem_singleton.mp member
  dsimp only
  omega

/-- An element, and a row that is left out in front of one that is kept. -/
theorem build_packed_named : ∃ ret, build ⟨8, 8, by decide⟩ 1 [.element (named [104]), .rows [(blank, false), (named [105], true)]] = .ok (some ret) ∧
    Packed [named [104], named [105]] ret := by
  refine build_packed ⟨8, 8, by decide⟩ [.element (named [104]), .rows [(blank, false), (named [105], true)]] ?_ 0
  intro one member
  obtain rfl | member := List.mem_cons.mp member
  · refine ⟨fun row used => ?_, nofun⟩
    obtain rfl := List.mem_singleton.mp used
    exact named_short _ (by decide)
  · obtain rfl := List.mem_singleton.mp member
    refine ⟨fun row used => ?_, fun list same => ?_⟩
    · obtain rfl := List.mem_singleton.mp used
      exact named_short _ (by decide)
    · cases same
      refine ⟨fun row used out => ?_, fun row last => ?_⟩
      · obtain rfl | used := List.mem_cons.mp used
        · rfl
        · obtain rfl := List.mem_singleton.mp used
          cases out
      · cases last
        rfl

/-- A row that is left out when it has a string. -/
def skipped : List (Row ⟨8, 8, by decide⟩ × Bool) := [(named [104], false), (named [105, 106], true)]

theorem psqlListAdd_ended {builder after : Builder layout} {list : List (Row layout × Bool)} (ended : addRows false builder list = .ok (after, true))
    (fetches : ℕ) : psqlListAdd builder list (fetches + 1) = .ok (some after) := by
  rw [psqlListAdd, ended]
  rfl

/-- However often the rows are fetched, the block has the bytes of the string that is left out. -/
theorem skipped_size {ret : Memory} {fetches : ℕ} (built : build ⟨8, 8, by decide⟩ fetches [.rows skipped] = .ok (some ret)) : ret.length = 21 := by
  have ends : (addRows false (create _) skipped).map Prod.snd = .ok true := by decide +kernel
  have size : (build _ 1 [.rows skipped]).map (Option.map List.length) = .ok (some 21) := by decide +kernel
  cases fetches with
  | zero => cases built
  | succ fetches =>
    cases added : addRows false (create _) skipped with
    | error fault =>
      rw [added] at ends
      cases ends
    | ok pair =>
      obtain ⟨after, ended⟩ := pair
      rw [added] at ends
      obtain rfl : ended = true := Except.ok.inj ends
      have same : build ⟨8, 8, by decide⟩ (fetches + 1) [.rows skipped] = build _ 1 [.rows skipped] := by
        rw [build, build, addAll, addAll, add, add, psqlListAdd_ended added, psqlListAdd_ended added 0]
        rfl
      rw [← same, built] at size
      exact Option.some.inj (Except.ok.inj size)

theorem not_packed : ¬∀ (layout : Layout) (added : List (Added layout)),
    ∃ fetches ret, build layout fetches added = .ok (some ret) ∧ Packed (added.flatMap keptOf) ret := by
  intro all
  obtain ⟨fetches, ret, built, packed⟩ := all _ [.rows skipped]
  have size := packed.size
  rw [skipped_size built] at size
  revert size
  decide

end Packing

end Pclsync.Proofs.Builder
