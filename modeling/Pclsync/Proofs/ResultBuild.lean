import Pclsync.Proofs.ResultLength

/-! The second pass against the grammar of responses. Over bytes that denote a
value it stays in the room that the first pass found, fills the string table in
the order of the definitions and leaves a result that stands for the value. -/

namespace Pclsync.Proofs.ResultBuild
open Pclsync.Api Library ResultLength

/-- The pointers stand for the trees. A string is the entry of the string table
under the id of its definition. -/
inductive Represents (strings : List Ptr) (cells : List (ℕ × Cell)) : List Ptr → List Tree → Prop where
  | nil : Represents strings cells [] []
  | str {ptrs : List Ptr} {trees : List Tree} {id addr : ℕ} {text : Bytes}
      (entry : strings[id]? = some (.heap addr)) (cell : (addr, Cell.str text.length text) ∈ cells)
      (rest : Represents strings cells ptrs trees) :
      Represents strings cells (.heap addr :: ptrs) (.str id text :: trees)
  | num {ptrs : List Ptr} {trees : List Tree} {addr value : ℕ} (cell : (addr, Cell.num value) ∈ cells)
      (rest : Represents strings cells ptrs trees) :
      Represents strings cells (.heap addr :: ptrs) (.num value :: trees)
  | small {ptrs : List Ptr} {trees : List Tree} {value : ℕ} (rest : Represents strings cells ptrs trees) :
      Represents strings cells (.numSmall value :: ptrs) (.num value :: trees)
  | bool {ptrs : List Ptr} {trees : List Tree} (value : Bool) (rest : Represents strings cells ptrs trees) :
      Represents strings cells ((if value then .boolTrue else .boolFalse) :: ptrs) (.bool value :: trees)
  | data {ptrs : List Ptr} {trees : List Tree} {addr value : ℕ} (cell : (addr, Cell.data value) ∈ cells)
      (rest : Represents strings cells ptrs trees) :
      Represents strings cells (.heap addr :: ptrs) (.data value :: trees)
  | array {ptrs entries : List Ptr} {trees elements : List Tree} {addr table : ℕ}
      (cell : (addr, Cell.array entries.length table) ∈ cells) (pointers : (table, Cell.pointers entries) ∈ cells)
      (inner : Represents strings cells entries elements) (rest : Represents strings cells ptrs trees) :
      Represents strings cells (.heap addr :: ptrs) (.array elements :: trees)
  | hash {ptrs : List Ptr} {entries : List (Ptr × Ptr)} {trees : List Tree} {elements : List (Tree × Tree)}
      {addr table : ℕ} (cell : (addr, Cell.hash entries.length table) ∈ cells)
      (pointers : (table, Cell.pairs entries) ∈ cells)
      (inner : Represents strings cells (flat entries) (flat elements)) (rest : Represents strings cells ptrs trees) :
      Represents strings cells (.heap addr :: ptrs) (.hash elements :: trees)

theorem prefix_entry {α : Type} {front whole : List α} {index : ℕ} {entry : α} (longer : front <+: whole)
    (found : front[index]? = some entry) : whole[index]? = some entry := by
  obtain ⟨rest, rfl⟩ := longer
  obtain ⟨inside, rfl⟩ := List.getElem?_eq_some_iff.mp found
  rw [List.getElem?_append_left inside, found]

namespace Represents
variable {strings more : List Ptr} {cells others : List (ℕ × Cell)} {ptrs last : List Ptr} {trees ends : List Tree}

theorem mono (represents : Represents strings cells ptrs trees) (longer : strings <+: more) (larger : cells ⊆ others) :
    Represents more others ptrs trees := by
  induction represents with
  | nil => exact .nil
  | str entry cell _ rest => exact .str (prefix_entry longer entry) (larger cell) rest
  | num cell _ rest => exact .num (larger cell) rest
  | small _ rest => exact .small rest
  | bool value _ rest => exact .bool value rest
  | data cell _ rest => exact .data (larger cell) rest
  | array cell pointers _ _ inner rest => exact .array (larger cell) (larger pointers) inner rest
  | hash cell pointers _ _ inner rest => exact .hash (larger cell) (larger pointers) inner rest

theorem append (represents : Represents strings cells ptrs trees) (tail : Represents strings cells last ends) :
    Represents strings cells (ptrs ++ last) (trees ++ ends) := by
  induction represents with
  | nil => exact tail
  | str entry cell _ rest => exact .str entry cell rest
  | num cell _ rest => exact .num cell rest
  | small _ rest => exact .small rest
  | bool value _ rest => exact .bool value rest
  | data cell _ rest => exact .data cell rest
  | array cell pointers inner _ _ rest => exact .array cell pointers inner rest
  | hash cell pointers inner _ _ rest => exact .hash cell pointers inner rest

theorem length_eq (represents : Represents strings cells ptrs trees) : ptrs.length = trees.length := by
  induction represents with
  | nil => rfl
  | str _ _ _ rest | num _ _ rest | small _ rest | bool _ _ rest | data _ _ rest | array _ _ _ _ _ rest
  | hash _ _ _ _ _ rest => rw [List.length_cons, List.length_cons, rest]

/-- No value has a null pointer for its result. -/
theorem ne_null (represents : Represents strings cells ptrs trees) : .null ∉ ptrs := by
  induction represents with
  | nil => exact List.not_mem_nil
  | bool value _ rest => cases value <;> simpa using rest
  | str _ _ _ rest | num _ _ rest | small _ rest | data _ _ rest | array _ _ _ _ _ rest | hash _ _ _ _ _ rest =>
    simpa using rest

end Represents

/-- Two places of the result block do not meet. -/
def Apart (first second : ℕ × Cell) : Prop :=
  first.1 + first.2.size ≤ second.1 ∨ second.1 + second.2.size ≤ first.1

/-- What is written lies before `*odata`, and nothing is written twice. -/
structure Packed (out : Output) : Prop where
  below : ∀ cell ∈ out.cells, cell.1 + cell.2.size ≤ out.odata
  apart : out.cells.Pairwise Apart

/-- From `before` to `after` at most `room` bytes were taken, and all that is new
was written there. -/
structure Extends (before after : Output) (room : ℕ) : Prop where
  retlen : after.retlen = before.retlen
  strcnt : after.strcnt = before.strcnt
  start : before.odata ≤ after.odata
  stop : after.odata ≤ before.odata + room
  strings : before.strings <+: after.strings
  cells : ∃ added, after.cells = before.cells ++ added ∧ added.Pairwise Apart ∧
    ∀ cell ∈ added, before.odata ≤ cell.1 ∧ cell.1 + cell.2.size ≤ after.odata

/-- The table holds the strings defined so far, in order. -/
structure Tabled (out : Output) (texts : List Bytes) : Prop where
  length_eq : out.strings.length = texts.length
  entry : ∀ (id : ℕ) (text : Bytes), texts[id]? = some text →
    ∃ addr, out.strings[id]? = some (Ptr.heap addr) ∧ (addr, Cell.str text.length text) ∈ out.cells

section Extends
variable {before middle after : Output} {room more : ℕ} {texts : List Bytes}

theorem Extends.refl (out : Output) : Extends out out 0 :=
  ⟨rfl, rfl, le_rfl, le_rfl, List.prefix_rfl, [], (List.append_nil _).symm, .nil, nofun⟩

theorem Extends.subset (extended : Extends before after room) : before.cells ⊆ after.cells := by
  obtain ⟨added, same, _⟩ := extended.cells
  rw [same]
  exact List.subset_append_left _ _

theorem Extends.trans (first : Extends before middle room) (second : Extends middle after more) :
    Extends before after (room + more) := by
  obtain ⟨added, same, apart, inside⟩ := first.cells
  obtain ⟨others, same', apart', inside'⟩ := second.cells
  have low := first.start
  have high := second.start
  have stop := first.stop
  have stop' := second.stop
  refine ⟨second.retlen.trans first.retlen, second.strcnt.trans first.strcnt, low.trans high, by omega,
    first.strings.trans second.strings, added ++ others, by rw [same', same, List.append_assoc], ?_, ?_⟩
  · refine List.pairwise_append.mpr ⟨apart, apart', fun cell old other new => .inl ?_⟩
    exact (inside cell old).2.trans (inside' other new).1
  · intro cell member
    rcases List.mem_append.mp member with old | new
    · exact ⟨(inside cell old).1, (inside cell old).2.trans high⟩
    · exact ⟨low.trans (inside' cell new).1, (inside' cell new).2⟩

theorem Packed.extend (packed : Packed before) (extended : Extends before after room) : Packed after := by
  obtain ⟨added, same, apart, inside⟩ := extended.cells
  refine ⟨?_, ?_⟩
  · intro cell member
    rw [same] at member
    rcases List.mem_append.mp member with old | new
    · exact (packed.below cell old).trans extended.start
    · exact (inside cell new).2
  · rw [same]
    refine List.pairwise_append.mpr ⟨packed.apart, apart, fun cell old other new => .inl ?_⟩
    exact (packed.below cell old).trans (inside other new).1

end Extends

theorem Cell.size_pos {cell : Cell} (node : (∀ entries, cell ≠ .pointers entries) ∧ ∀ entries, cell ≠ .pairs entries) :
    0 < cell.size := by
  cases cell with
  | pointers entries => exact absurd rfl (node.1 entries)
  | pairs entries => exact absurd rfl (node.2 entries)
  | _ => simp [Cell.size]

/-- At the place of a node that is not a string there is no string. -/
theorem Packed.not_str {out : Output} (packed : Packed out) {addr : ℕ} {node : Cell} (member : (addr, node) ∈ out.cells)
    (positive : 0 < node.size) (other : ∀ length text, node ≠ .str length text) :
    out.isParamStr (.heap addr) = .ok false := by
  have symmetric : Std.Symm Apart := ⟨fun _ _ apart => apart.symm⟩
  have none : ∀ cell ∈ out.cells, ¬(cell.1 = addr ∧ ∃ length text, cell.2 = .str length text) := by
    rintro ⟨place, cell⟩ found ⟨rfl, length, text, rfl⟩
    rcases packed.apart.forall member found (by
      intro same
      exact other length text (Prod.mk.inj same).2) with apart | apart
    · simp only at apart
      omega
    · simp only [Cell.size] at apart
      omega
  rw [Output.isParamStr]
  congr 1
  rw [List.any_eq_false]
  rintro ⟨place, cell⟩ found holds
  rw [Bool.and_eq_true, decide_eq_true_eq] at holds
  refine none _ found ⟨holds.1, ?_⟩
  cases cell with
  | str length text => exact ⟨length, text, rfl⟩
  | _ => exact absurd holds.2 nofun

/-- The type of a key is found at its place. -/
theorem isParamStr_eq {out : Output} {key : Ptr} {tree : Tree} (packed : Packed out)
    (represents : Represents out.strings out.cells [key] [tree]) : out.isParamStr key = .ok tree.isStr := by
  cases represents with
  | str entry cell rest =>
    rw [Output.isParamStr]
    congr 1
    exact List.any_eq_true.mpr ⟨_, cell, by simp⟩
  | num cell rest => exact packed.not_str cell (by simp [Cell.size]) nofun
  | small rest => rfl
  | bool value rest => cases value <;> rfl
  | data cell rest => exact packed.not_str cell (by simp [Cell.size]) nofun
  | array cell pointers inner rest => exact packed.not_str cell (by simp [Cell.size]) nofun
  | hash cell pointers inner rest => exact packed.not_str cell (by simp [Cell.size]) nofun

/-- The state with the bytes that are left. -/
abbrev from_ (out : Output) (data : Bytes) : Output := { out with indata := data }

section Types
variable {fuel : ℕ} {out : Output} {type : UInt8} {data : Bytes}

theorem take_append (front rest : Bytes) : (from_ out (front ++ rest)).take front.length = .ok (front, from_ out rest) := by
  rw [Output.take, if_pos (by simp)]
  simp

theorem number_append (digits rest : Bytes) :
    (from_ out (digits ++ rest)).number digits.length = .ok (leNumber digits, from_ out rest) := by
  rw [Output.number, take_append]
  rfl

theorem addString_ok (ptr : Ptr) (room : out.strings.length < out.strcnt) :
    (from_ out data).addString ptr = .ok (from_ { out with strings := out.strings ++ [ptr] } data) := if_pos room

theorem store_ok (addr : ℕ) (cell : Cell) (room : addr + cell.size ≤ out.retlen) :
    (from_ out data).store addr cell = .ok (from_ { out with cells := out.cells ++ [(addr, cell)] } data) :=
  if_pos room

theorem peek_cons : (from_ out (type :: data)).peek = .ok type.toNat := rfl

theorem take_one : (from_ out (type :: data)).take 1 = .ok ([type], from_ out data) := take_append [type] data

theorem build_str (range : isStr type.toNat) : doParseResult (fuel + 1) (from_ out (type :: data)) = (do
    let (len, out) ← if isShortStr type.toNat then .ok (type.toNat - 100, from_ out data)
      else (from_ out data).number (type.toNat + 1)
    let ret := out.odata
    let out ← out.addString (.heap ret)
    let (text, out) ← out.take len
    let out ← out.store ret (.str len text)
    return (.heap ret, { out with odata := ret + 8 + (len + 8) / 8 * 8 })) := by
  rw [doParseResult, peek_cons, take_one]
  simp only [ok_bind, if_pos range]
  rfl

theorem build_rstr (range : isRstr type.toNat) : doParseResult (fuel + 1) (from_ out (type :: data)) = (do
    let (id, out) ← if isLongRstr type.toNat then (from_ out data).number (type.toNat - 4 + 1)
      else .ok (type.toNat - 150, from_ out data)
    return (← out.string id, out)) := by
  have str : ¬isStr type.toNat := by omega
  rw [doParseResult, peek_cons, take_one]
  simp only [ok_bind, if_neg str, if_pos range]

theorem build_num (range : isNum type.toNat) : doParseResult (fuel + 1) (from_ out (type :: data)) = (do
    let (num, next) ← (from_ out data).number (type.toNat - 8 + 1)
    let next ← next.store out.odata (.num num)
    return (.heap out.odata, { next with odata := out.odata + 16 })) := by
  have str : ¬isStr type.toNat := by omega
  have rstr : ¬isRstr type.toNat := by omega
  rw [doParseResult, peek_cons, take_one]
  simp only [ok_bind, if_neg str, if_neg rstr, if_pos range]

theorem build_small (range : isSmallNum type.toNat) :
    doParseResult (fuel + 1) (from_ out (type :: data)) = .ok (.numSmall (type.toNat - 200), from_ out data) := by
  have str : ¬isStr type.toNat := by omega
  have rstr : ¬isRstr type.toNat := by omega
  have num : ¬isNum type.toNat := by omega
  rw [doParseResult, peek_cons, take_one]
  simp only [ok_bind, if_neg str, if_neg rstr, if_neg num, if_pos range]
  rfl

theorem build_bool (value : Bool) : doParseResult (fuel + 1) (from_ out ((if value then 19 else 18) :: data)) =
    .ok (if value then .boolTrue else .boolFalse, from_ out data) := by
  rw [doParseResult, peek_cons, take_one]
  cases value <;> rfl

theorem build_data : doParseResult (fuel + 1) (from_ out (20 :: data)) = (do
    let (num, next) ← (from_ out data).number 8
    let next ← next.store out.odata (.data num)
    return (.heap out.odata, { next with odata := out.odata + 16 })) := by
  rw [doParseResult, peek_cons, take_one]
  rfl

/-- Behind the header of a string its text is copied. -/
theorem build_str_header {head : Bytes} {len : ℕ} (header : Carries 100 50 0 head len) :
    doParseResult (fuel + 1) (from_ out (head ++ data)) = (do
      let next ← (from_ out data).addString (.heap out.odata)
      let (text, next) ← next.take len
      let next ← next.store out.odata (.str len text)
      return (.heap out.odata, { next with odata := out.odata + 8 + (len + 8) / 8 * 8 })) := by
  cases header with
  | short type range =>
    rw [List.singleton_append, build_str (.inl range), if_pos range]
    rfl
  | long type digits range width =>
    have long : ¬isShortStr type.toNat := by omega
    rw [List.cons_append, build_str (.inr range), if_neg long, show type.toNat + 1 = digits.length by omega,
      number_append]
    rfl

theorem build_rstr_header {head : Bytes} {id : ℕ} (header : Carries 150 50 4 head id) :
    doParseResult (fuel + 1) (from_ out (head ++ data)) = (do return (← out.string id, from_ out data)) := by
  cases header with
  | short type range =>
    have short : ¬isLongRstr type.toNat := by omega
    rw [List.singleton_append, build_rstr (.inr range), if_neg short]
    rfl
  | long type digits range width =>
    rw [List.cons_append, build_rstr (.inl range), if_pos range, ← width, number_append]
    rfl

theorem build_array : doParseResult (fuel + 1) (from_ out (17 :: data)) = (do
    let (arr, next) ← parseArray fuel (from_ { out with odata := out.odata + 16 } data)
    let table := next.odata
    let next ← next.store table (.pointers arr)
    let next ← next.store out.odata (.array arr.length table)
    return (.heap out.odata, { next with odata := table + 8 * arr.length })) := by
  rw [doParseResult, peek_cons, take_one]
  rfl

theorem build_hash : doParseResult (fuel + 1) (from_ out (16 :: data)) = (do
    let (arr, next) ← parseHash fuel (from_ { out with odata := out.odata + 16 } data)
    let table := next.odata
    let next ← next.store table (.pairs arr)
    let next ← next.store out.odata (.hash arr.length table)
    return (.heap out.odata, { next with odata := table + 16 * arr.length })) := by
  rw [doParseResult, peek_cons, take_one]
  rfl

theorem parseArray_end : parseArray (fuel + 1) (from_ out (255 :: data)) = .ok ([], from_ out data) := by
  rw [parseArray, peek_cons, take_one]
  rfl

theorem parseHash_end : parseHash (fuel + 1) (from_ out (255 :: data)) = .ok ([], from_ out data) := by
  rw [parseHash, peek_cons, take_one]
  rfl

theorem parseArray_next (more : type.toNat ≠ 255) : parseArray (fuel + 1) (from_ out (type :: data)) = (do
    let (entry, out) ← doParseResult fuel (from_ out (type :: data))
    let (arr, out) ← parseArray fuel out
    return (entry :: arr, out)) := by
  rw [parseArray, peek_cons]
  simp only [ok_bind, if_pos more]

theorem parseHash_next (more : type.toNat ≠ 255) : parseHash (fuel + 1) (from_ out (type :: data)) = (do
    let (key, out) ← doParseResult fuel (from_ out (type :: data))
    let (value, out) ← doParseResult fuel out
    let keyed ← out.isParamStr key
    let (arr, out) ← parseHash fuel out
    return (if keyed then (key, value) :: arr else arr, out)) := by
  rw [parseHash, peek_cons]
  simp only [ok_bind, if_pos more]

end Types

/-! One value, and the loops over the rest of an array or a hash. -/

/-- The part of the second pass that belongs to a shape. -/
def build (shape : Shape) (fuel : ℕ) (out : Output) : Pass (List Ptr × Output) :=
  match shape with
  | .value => do
    let (ptr, out) ← doParseResult fuel out
    return ([ptr], out)
  | .elements => parseArray fuel out
  | .pairs => do
    let (entries, out) ← parseHash fuel out
    return (flat entries, out)

/-- Of the pairs of a hash those whose key is a string are kept. -/
def shown : Shape → List Tree → List Tree
  | .pairs, trees => flat (keyed trees)
  | _, trees => trees

theorem build_value {fuel : ℕ} {out next : Output} {ptrs : List Ptr} (run : build .value fuel out = .ok (ptrs, next)) :
    ∃ ptr, doParseResult fuel out = .ok (ptr, next) ∧ ptrs = [ptr] := by
  rw [build] at run
  cases found : doParseResult fuel out with
  | error stop =>
    rw [found] at run
    cases run
  | ok pair =>
    rw [found] at run
    cases run
    exact ⟨pair.1, rfl, rfl⟩

theorem build_pairs {fuel : ℕ} {out next : Output} {ptrs : List Ptr} (run : build .pairs fuel out = .ok (ptrs, next)) :
    ∃ entries, parseHash fuel out = .ok (entries, next) ∧ ptrs = flat entries := by
  rw [build] at run
  cases found : parseHash fuel out with
  | error stop =>
    rw [found] at run
    cases run
  | ok pair =>
    rw [found] at run
    cases run
    exact ⟨pair.1, rfl, rfl⟩

/-- What the second pass leaves behind for trees that take `size` bytes. -/
structure Built (before after : Output) (size : ℕ) (texts : List Bytes) (ptrs : List Ptr) (trees : List Tree) : Prop where
  extended : Extends before after size
  tabled : Tabled after texts
  represents : Represents after.strings after.cells ptrs trees

section Nodes
variable {out next : Output} {texts : List Bytes}

/-- A node without a table, written where the block is free. -/
theorem Extends.node (out : Output) (cell : Cell) (room : ℕ) (fits : cell.size ≤ room) :
    Extends out { out with cells := out.cells ++ [(out.odata, cell)], odata := out.odata + room } room := by
  refine ⟨rfl, rfl, Nat.le_add_right _ _, le_rfl, List.prefix_rfl, _, rfl, List.pairwise_singleton _ _, ?_⟩
  intro other member
  rw [List.mem_singleton.mp member]
  exact ⟨le_rfl, Nat.add_le_add_left fits _⟩

/-- A string, which also gets the next entry of the table. -/
theorem Extends.text (out : Output) (text : Bytes) :
    Extends out { out with
      strings := out.strings ++ [.heap out.odata], cells := out.cells ++ [(out.odata, .str text.length text)],
      odata := out.odata + 8 + (text.length + 8) / 8 * 8 } (8 + (text.length + 8) / 8 * 8) := by
  refine ⟨rfl, rfl, by simp only; omega, by simp only; omega, List.prefix_append _ _, _, rfl,
    List.pairwise_singleton _ _, ?_⟩
  intro other member
  rw [List.mem_singleton.mp member]
  simp only [Cell.size]
  omega

theorem Tabled.text (tabled : Tabled out texts) (text : Bytes) (odata : ℕ) :
    Tabled { out with
      strings := out.strings ++ [.heap out.odata], cells := out.cells ++ [(out.odata, .str text.length text)],
      odata := odata } (texts ++ [text]) := by
  refine ⟨by simp [tabled.length_eq], fun id other defined => ?_⟩
  rcases Nat.lt_or_ge id texts.length with old | new
  · rw [List.getElem?_append_left old] at defined
    obtain ⟨addr, entry, cell⟩ := tabled.entry id other defined
    exact ⟨addr, prefix_entry (List.prefix_append _ _) entry, List.mem_append_left _ cell⟩
  · rw [List.getElem?_append_right new] at defined
    obtain ⟨inside, rfl⟩ := List.getElem?_eq_some_iff.mp defined
    have last : id = out.strings.length := by
      rw [List.length_singleton] at inside
      rw [tabled.length_eq]
      omega
    refine ⟨out.odata, ?_, by simp⟩
    simp [last]

/-- The header of an array or a hash in front of its entries, the table behind them. -/
theorem Extends.table {size taken : ℕ} (header table : Cell) (room : ℕ) (small : header.size = 16)
    (extended : Extends { out with odata := out.odata + 16 } next size) (fits : table.size = taken)
    (inside : taken ≤ room) :
    Extends out { next with
      cells := next.cells ++ [(next.odata, table)] ++ [(out.odata, header)], odata := next.odata + taken }
        (16 + size + room) := by
  obtain ⟨added, same, apart, bounds⟩ := extended.cells
  have start := extended.start
  have stop := extended.stop
  simp only at same bounds start stop
  refine ⟨extended.retlen, extended.strcnt, by simp only; omega, by simp only; omega, extended.strings,
    added ++ [(next.odata, table)] ++ [(out.odata, header)], by simp [same], ?_, ?_⟩
  · have first : (added ++ [(next.odata, table)]).Pairwise Apart := by
      refine List.pairwise_append.mpr ⟨apart, List.pairwise_singleton _ _, fun cell old other new => .inl ?_⟩
      rw [List.mem_singleton.mp new]
      exact (bounds cell old).2
    refine List.pairwise_append.mpr ⟨first, List.pairwise_singleton _ _, fun cell old other new => .inr ?_⟩
    rw [List.mem_singleton.mp new]
    simp only [small]
    rcases List.mem_append.mp old with early | late
    · exact (bounds cell early).1
    · rw [List.mem_singleton.mp late]
      exact start
  · intro cell member
    rcases List.mem_append.mp member with early | late
    · rcases List.mem_append.mp early with inner | last
      · have bound := bounds cell inner
        simp only
        omega
      · rw [List.mem_singleton.mp last]
        simp only
        omega
    · rw [List.mem_singleton.mp late]
      simp only [small]
      omega

theorem Tabled.extend {room : ℕ} (tabled : Tabled out texts) (extended : Extends out next room)
    (same : next.strings = out.strings) : Tabled next texts := by
  refine ⟨by rw [same, tabled.length_eq], fun id text defined => ?_⟩
  obtain ⟨addr, entry, cell⟩ := tabled.entry id text defined
  exact ⟨addr, by rw [same, entry], extended.subset cell⟩

theorem Packed.later (packed : Packed out) (taken : ℕ) : Packed { out with odata := out.odata + taken } :=
  ⟨fun cell member => (packed.below cell member).trans (Nat.le_add_right _ _), packed.apart⟩

end Nodes

theorem length_flat {α : Type} (pairs : List (α × α)) : (flat pairs).length = 2 * pairs.length := by
  induction pairs with
  | nil => rfl
  | cons pair pairs ih =>
    rw [flat, List.flatMap_cons, List.length_append, ← flat, ih]
    simp only [List.length_cons, List.length_nil]
    omega

theorem keyed_le (trees : List Tree) : 2 * (keyed trees).length ≤ trees.length := by
  induction trees using keyed.induct with
  | case1 key value rest str ih =>
    rw [keyed, if_pos str]
    simp only [List.length_cons]
    omega
  | case2 key value rest other ih =>
    rw [keyed, if_neg other]
    simp only [List.length_cons]
    omega
  | case3 trees short =>
    rw [keyed]
    · exact Nat.zero_le _
    · exact short

theorem reads_texts {shape : Shape} {texts after : List Bytes} {bytes : Bytes} {trees : List Tree} {size : ℕ}
    (reads : Reads shape texts bytes trees size after) : texts <+: after := by
  induction reads with
  | str header => exact List.prefix_append _ _
  | array entries ih | hash entries ih => exact ih
  | element head tail first second => exact first.trans second
  | pair head body tail first second third => exact first.trans (second.trans third)
  | _ => exact List.prefix_rfl

theorem reads_build {shape : Shape} {texts after : List Bytes} {bytes : Bytes} {trees : List Tree} {size : ℕ}
    (reads : Reads shape texts bytes trees size after) (fuel : ℕ) (out : Output) (rest : Bytes)
    (enough : needed shape bytes.length ≤ fuel) (packed : Packed out) (tabled : Tabled out texts)
    (room : out.odata + size ≤ out.retlen) (capacity : after.length ≤ out.strcnt) :
    ∃ ptrs next, build shape fuel (from_ out (bytes ++ rest)) = .ok (ptrs, from_ next rest) ∧
      Built out next size after ptrs (shown shape trees) := by
  induction reads generalizing fuel out rest with
  | @str texts head text header =>
    obtain ⟨type, digits, headDef, _⟩ := header.nonempty
    obtain ⟨fuel, rfl⟩ := fuel_succ (by rw [headDef]; simp) enough
    rw [List.length_append, List.length_singleton, ← tabled.length_eq] at capacity
    have extended := Extends.text out text
    have table := tabled.text text (out.odata + 8 + (text.length + 8) / 8 * 8)
    refine ⟨[.heap out.odata], _, ?_, extended, table, ?_⟩
    · rw [build, List.append_assoc, build_str_header header, addString_ok _ capacity]
      simp only [ok_bind]
      rw [take_append]
      simp only [ok_bind]
      rw [store_ok _ _ (by simp only [Cell.size]; omega)]
      rfl
    · refine .str ?_ (by simp) .nil
      simp [← tabled.length_eq]
  | @rstr texts head text id header known =>
    obtain ⟨type, digits, headDef, _⟩ := header.nonempty
    obtain ⟨fuel, rfl⟩ := fuel_succ (by rw [headDef]; simp) enough
    obtain ⟨addr, entry, cell⟩ := tabled.entry id text known
    refine ⟨[.heap addr], out, ?_, .refl out, tabled, .str entry cell .nil⟩
    rw [build, build_rstr_header header, Output.string, entry]
    rfl
  | @num texts digits type range width =>
    obtain ⟨fuel, rfl⟩ := fuel_succ (by simp) enough
    have extended := Extends.node out (.num (leNumber digits)) 16 le_rfl
    refine ⟨[.heap out.odata], _, ?_, extended, tabled.extend extended rfl, .num (by simp) .nil⟩
    rw [build, List.cons_append, build_num range, ← width, number_append]
    simp only [ok_bind]
    rw [store_ok _ _ room]
    rfl
  | @small texts type range =>
    obtain ⟨fuel, rfl⟩ := fuel_succ (by simp) enough
    refine ⟨[.numSmall (type.toNat - 200)], out, ?_, .refl out, tabled, .small .nil⟩
    rw [build, List.singleton_append, build_small range]
    rfl
  | @bool texts value =>
    obtain ⟨fuel, rfl⟩ := fuel_succ (by simp) enough
    refine ⟨[if value then .boolTrue else .boolFalse], out, ?_, .refl out, tabled, .bool value .nil⟩
    rw [build, List.singleton_append, build_bool]
    rfl
  | @data texts digits width =>
    obtain ⟨fuel, rfl⟩ := fuel_succ (by simp) enough
    have extended := Extends.node out (.data (leNumber digits)) 16 le_rfl
    refine ⟨[.heap out.odata], _, ?_, extended, tabled.extend extended rfl, .data (by simp) .nil⟩
    rw [build, List.cons_append, build_data, ← width, number_append]
    simp only [ok_bind]
    rw [store_ok _ _ room]
    rfl
  | @array texts after body trees size entries ih =>
    obtain ⟨fuel, rfl⟩ := fuel_succ (by simp) enough
    obtain ⟨ptrs, next, run, built⟩ := ih fuel { out with odata := out.odata + 16 } rest
      (by simp [needed] at enough ⊢; omega) (packed.later 16) ⟨tabled.length_eq, tabled.entry⟩
      (by simp only; omega) capacity
    have count : ptrs.length = trees.length := built.represents.length_eq
    have stop : next.odata ≤ out.odata + 16 + size := built.extended.stop
    have sizes : next.retlen = out.retlen := built.extended.retlen
    have extended := Extends.table (.array ptrs.length next.odata) (.pointers ptrs) (8 * trees.length) rfl
      built.extended rfl (by rw [Cell.size, count])
    refine ⟨[.heap out.odata], _, ?_, extended, ?_, ?_⟩
    · rw [build, List.cons_append, build_array]
      rw [build] at run
      rw [run]
      simp only [ok_bind]
      rw [store_ok _ _ (by simp only [Cell.size]; omega)]
      simp only [ok_bind]
      rw [store_ok _ _ (by simp only [Cell.size]; omega)]
      rfl
    · refine ⟨built.tabled.length_eq, fun id text defined => ?_⟩
      obtain ⟨addr, entry, cell⟩ := built.tabled.entry id text defined
      exact ⟨addr, entry, by simp [cell]⟩
    · exact .array (List.mem_append_right _ (List.mem_singleton_self _))
        (List.mem_append_left _ (List.mem_append_right _ (List.mem_singleton_self _)))
        (built.represents.mono List.prefix_rfl
          (List.Subset.trans (List.subset_append_left _ _) (List.subset_append_left _ _))) .nil
  | @hash texts after body trees size entries ih =>
    obtain ⟨fuel, rfl⟩ := fuel_succ (by simp) enough
    obtain ⟨ptrs, next, run, built⟩ := ih fuel { out with odata := out.odata + 16 } rest
      (by simp [needed] at enough ⊢; omega) (packed.later 16) ⟨tabled.length_eq, tabled.entry⟩
      (by simp only; omega) capacity
    obtain ⟨arr, found, rfl⟩ := build_pairs run
    have count : 2 * arr.length ≤ trees.length := by
      have same := built.represents.length_eq
      rw [shown, length_flat, length_flat] at same
      exact same.le.trans (keyed_le trees)
    have stop : next.odata ≤ out.odata + 16 + size := built.extended.stop
    have sizes : next.retlen = out.retlen := built.extended.retlen
    have extended := Extends.table (.hash arr.length next.odata) (.pairs arr) (8 * trees.length) rfl
      built.extended rfl (by rw [Cell.size]; omega)
    refine ⟨[.heap out.odata], _, ?_, extended, ?_, ?_⟩
    · rw [build, List.cons_append, build_hash, found]
      simp only [ok_bind]
      rw [store_ok _ _ (by simp only [Cell.size]; omega)]
      simp only [ok_bind]
      rw [store_ok _ _ (by simp only [Cell.size]; omega)]
      rfl
    · refine ⟨built.tabled.length_eq, fun id text defined => ?_⟩
      obtain ⟨addr, entry, cell⟩ := built.tabled.entry id text defined
      exact ⟨addr, entry, by simp [cell]⟩
    · exact .hash (List.mem_append_right _ (List.mem_singleton_self _))
        (List.mem_append_left _ (List.mem_append_right _ (List.mem_singleton_self _)))
        (built.represents.mono List.prefix_rfl
          (List.Subset.trans (List.subset_append_left _ _) (List.subset_append_left _ _))) .nil
  | elementsEnd =>
    obtain ⟨fuel, rfl⟩ := fuel_succ (by simp) enough
    exact ⟨[], out, parseArray_end, .refl out, tabled, .nil⟩
  | @element texts middle after front body tree trees size more head tail first second =>
    obtain ⟨type, front, rfl, valued⟩ := head.nonempty
    obtain ⟨fuel, rfl⟩ := fuel_succ (by simp) enough
    simp only [needed, List.length_append, List.length_cons] at enough
    have longer := (reads_texts tail).length_le
    obtain ⟨_, next, run, built⟩ := first fuel out (body ++ rest) (by simp only [needed, List.length_cons]; omega) packed
      tabled (by omega) (longer.trans capacity)
    obtain ⟨entry, found, rfl⟩ := build_value run
    have stop := built.extended.stop
    have sizes := built.extended.retlen
    obtain ⟨arr, last, loop, builtRest⟩ := second fuel next rest (by
        have nonempty : 0 < body.length := by
          obtain ⟨_, _, rfl, _⟩ := tail.nonempty
          simp
        simp only [needed]
        omega) (packed.extend built.extended) built.tabled (by omega) (by rw [built.extended.strcnt]; exact capacity)
    rw [build] at loop
    refine ⟨entry :: arr, last, ?_, built.extended.trans builtRest.extended, builtRest.tabled, ?_⟩
    · rw [build, List.append_assoc, List.cons_append, parseArray_next (valued rfl), ← List.cons_append, found]
      simp only [ok_bind]
      rw [loop]
      rfl
    · exact (built.represents.mono builtRest.extended.strings builtRest.extended.subset).append builtRest.represents
  | pairsEnd =>
    obtain ⟨fuel, rfl⟩ := fuel_succ (by simp) enough
    exact ⟨[], out, by rw [build, List.singleton_append, parseHash_end]; rfl, .refl out, tabled, .nil⟩
  | @pair texts second third after front next body key value trees size other more head inner tail first middle last =>
    obtain ⟨type, front, rfl, valued⟩ := head.nonempty
    obtain ⟨fuel, rfl⟩ := fuel_succ (by simp) enough
    simp only [needed, List.length_append, List.length_cons] at enough
    have longer := (reads_texts inner).length_le
    have longest := (reads_texts tail).length_le
    obtain ⟨_, keyOut, run, keyBuilt⟩ := first fuel out (next ++ body ++ rest)
      (by simp only [needed, List.length_cons]; omega) packed tabled (by omega) (by omega)
    obtain ⟨keyPtr, found, rfl⟩ := build_value run
    have keyStop := keyBuilt.extended.stop
    have keySizes := keyBuilt.extended.retlen
    have keyCount := keyBuilt.extended.strcnt
    have keyPacked := packed.extend keyBuilt.extended
    obtain ⟨_, valueOut, run', valueBuilt⟩ := middle fuel keyOut (body ++ rest) (by simp only [needed]; omega) keyPacked
      keyBuilt.tabled (by omega) (by omega)
    obtain ⟨valuePtr, found', rfl⟩ := build_value run'
    have valueStop := valueBuilt.extended.stop
    have valueSizes := valueBuilt.extended.retlen
    have valueCount := valueBuilt.extended.strcnt
    have valuePacked := keyPacked.extend valueBuilt.extended
    have keyed_ := keyBuilt.represents.mono valueBuilt.extended.strings valueBuilt.extended.subset
    have param : (from_ valueOut (body ++ rest)).isParamStr keyPtr = .ok key.isStr :=
      isParamStr_eq ⟨valuePacked.below, valuePacked.apart⟩ keyed_
    obtain ⟨_, lastOut, loop, lastBuilt⟩ := last fuel valueOut rest (by
        obtain ⟨_, _, rfl, _⟩ := tail.nonempty
        simp only [needed, List.length_cons] at enough ⊢
        omega) valuePacked valueBuilt.tabled (by omega) (by omega)
    obtain ⟨arr, foundRest, rfl⟩ := build_pairs loop
    refine ⟨flat (if key.isStr then (keyPtr, valuePtr) :: arr else arr), lastOut, ?_,
      (keyBuilt.extended.trans valueBuilt.extended).trans lastBuilt.extended, lastBuilt.tabled, ?_⟩
    · rw [List.append_assoc] at found
      rw [build, List.append_assoc, List.append_assoc, List.cons_append, parseHash_next (valued rfl), ← List.cons_append, found]
      simp only [ok_bind]
      rw [found']
      simp only [ok_bind]
      rw [param, ok_bind, foundRest]
      rfl
    · have entries := lastBuilt.represents
      rw [shown] at entries ⊢
      rw [keyed]
      by_cases str : key.isStr
      · rw [if_pos str, if_pos str]
        have front := keyed_.mono lastBuilt.extended.strings lastBuilt.extended.subset
        have behind := valueBuilt.represents.mono lastBuilt.extended.strings lastBuilt.extended.subset
        exact front.append (behind.append entries)
      · rw [if_neg str, if_neg str]
        exact entries

/-- What is written into the two blocks of the second pass stays inside them. -/
structure InBlocks (out : Output) : Prop where
  odata : out.odata ≤ out.retlen
  cells : ∀ cell ∈ out.cells, cell.1 + cell.2.size ≤ out.retlen
  apart : out.cells.Pairwise Apart
  strings : out.strings.length = out.strcnt

/-- The passes agree. The length of a response is sent as a `uint32_t`. -/
theorem passes_agree {message : Bytes} {retlen : ℕ} {input : Input} (sent : message.length < 2 ^ 32)
    (accepted : retLen message = .ok (retlen, input)) :
    ∃ bytes tree texts ptr out, message = bytes ++ input.data ∧ Reads .value [] bytes [tree] retlen texts ∧
      doParseResult (parseFuel message) ⟨retlen, input.strcnt, message, 0, [], []⟩ = .ok (ptr, out) ∧
      out.indata = input.data ∧ out.retlen = retlen ∧ out.strcnt = input.strcnt ∧ InBlocks out ∧
      Represents out.strings out.cells [ptr] [tree] ∧ ptr ≠ .null ∧ Tabled out texts := by
  have verdict := scan_verdict .value [] message (parseFuel message) 0 0 (fun other => absurd rfl other) (by
    rw [if_pos rfl, parseFuel]
    omega)
  rw [retLen, show (⟨message, message.length, 0⟩ : Input) = at_ message ([] : List Bytes).length from rfl] at accepted
  rcases value_verdict verdict with ⟨r, front, rest, tree, size, texts, found, split, reads⟩ | found | ⟨found, _⟩
  · rw [found] at accepted
    cases accepted
    subst split
    rw [List.length_append] at sent
    obtain ⟨ret, again, sized⟩ := reads_calc reads (parseFuel (front ++ rest)) rest (by
      rw [parseFuel, List.length_append]
      omega)
    rw [again] at found
    cases found
    have same := sized (by omega)
    subst same
    have empty : Packed ⟨retlen, texts.length, [], 0, [], []⟩ := ⟨by simp, .nil⟩
    obtain ⟨_, out, run, built⟩ := reads_build reads (parseFuel (front ++ rest))
      ⟨retlen, texts.length, [], 0, [], []⟩ rest (by
        rw [needed, parseFuel, List.length_append]
        omega) empty ⟨rfl, by simp⟩ (Nat.zero_add retlen).le le_rfl
    obtain ⟨ptr, parsed, rfl⟩ := build_value run
    have extended := built.extended
    have packed := empty.extend extended
    have stop : out.odata ≤ 0 + retlen := extended.stop
    have sizes : out.retlen = retlen := extended.retlen
    have strcnt : out.strcnt = texts.length := extended.strcnt
    refine ⟨front, tree, texts, ptr, from_ out rest, rfl, reads, parsed, rfl, sizes, strcnt,
      ⟨by simp only; omega, ?_, packed.apart, by rw [strcnt]; exact built.tabled.length_eq⟩, built.represents, ?_,
      ⟨built.tabled.length_eq, built.tabled.entry⟩⟩
    · intro cell member
      have inside := packed.below cell member
      simp only
      omega
    · rintro rfl
      exact built.represents.ne_null (List.mem_singleton_self _)
  · rw [found] at accepted
    cases accepted
  · rw [found] at accepted
    cases accepted

/-- An array of a string, a reference to it and a hash with one pair. -/
theorem passes_agree_nested :
    ∃ tree texts ptr out, Reads .value [] [17, 101, 97, 150, 16, 100, 8, 5, 255, 255] [tree] 120 texts ∧
      doParseResult 22 ⟨120, 2, [17, 101, 97, 150, 16, 100, 8, 5, 255, 255], 0, [], []⟩ = .ok (ptr, out) ∧
      out.indata = [] ∧ InBlocks out ∧ Represents out.strings out.cells [ptr] [tree] := by
  have accepted : retLen [17, 101, 97, 150, 16, 100, 8, 5, 255, 255] = .ok (120, ⟨[], 0, 2⟩) := rfl
  obtain ⟨bytes, tree, texts, ptr, out, split, reads, run, consumed, _, _, inside, represents, _⟩ :=
    passes_agree (by decide) accepted
  rw [List.append_nil] at split
  subst split
  exact ⟨tree, texts, ptr, out, reads, run, consumed, inside, represents⟩

end Pclsync.Proofs.ResultBuild
