import Pclsync.Pages.Pqsort

/-! The cleaning of the page cache on disk, from the point where its mutex is
held. Rows are those of the table `pagecache`; the columns that nothing here
reads are left out. -/

namespace Pclsync.Pages.Clean
open Library Pqsort

/-- The `type` of a row. -/
inductive PageType where
  | free
  | read
  | cache
deriving DecidableEq, Repr

structure PageRow where
  id : ℕ
  hash : Option ℕ
  pageid : Option ℕ
  type : PageType
  lastuse : ℕ
  usecnt : ℕ
  crc : Option ℕ
deriving DecidableEq, Repr

instance : Inhabited PageRow := ⟨⟨0, none, none, .free, 0, 0, none⟩⟩

/-- `pagecache`; the identifier is an integer primary key, counted from one. -/
structure PageTable where
  rows : List PageRow
  ordered : rows.Pairwise fun row next => row.id < next.id
  positive : ∀ row ∈ rows, 0 < row.id

/-- `PSYNC_FS_FIRST_PAGES_UNDER_ID` -/
abbrev firstPagesUnderId : ℕ := 128 * 1024 / 4096

/-- `PSYNC_FS_XFIRST_PAGES_UNDER_ID` -/
abbrev xfirstPagesUnderId : ℕ := 1024 * 1024 / 4096

/-- `pagecache_entry` -/
structure Entry where
  lastuse : ℕ
  id : ℕ
  usecnt : ℕ
  isfirst : Bool
  isxfirst : Bool
deriving DecidableEq, Repr

/-- The stores into an entry. Both flags are taken from column 2, `lastuse`. -/
def toEntry (row : PageRow) : Entry :=
  { lastuse := row.lastuse % 2 ^ 32
    id := row.id % 2 ^ 32
    usecnt := if row.usecnt > 65535 then 65535 else row.usecnt
    isfirst := row.lastuse < firstPagesUnderId
    isxfirst := row.lastuse < xfirstPagesUnderId }

instance : Inhabited Entry := ⟨toEntry default⟩

/-- The conversion to `int`. -/
def int32 (number : ℤ) : ℤ := number.bmod (2 ^ 32)

section Comparisons
-- what becomes of the difference of two numbers; in the source it is narrowed to `int`
variable (narrow : ℤ → ℤ)

/-- `pagecache_entry_cmp_lastuse` -/
def cmpLastuse (e1 e2 : Entry) : ℤ := narrow ((e2.lastuse : ℤ) - e1.lastuse)

/-- `pagecache_entry_cmp_usecnt_lastuse2` and so on up to 16. -/
def cmpUsecntLastuse (uses : ℕ) (e1 e2 : Entry) : ℤ :=
  if e1.usecnt ≥ uses ∧ e2.usecnt < uses then -1
  else if e2.usecnt ≥ uses ∧ e1.usecnt < uses then 1
  else narrow ((e2.lastuse : ℤ) - e1.lastuse)

/-- `pagecache_entry_cmp_id` -/
def cmpId (e1 e2 : Entry) : ℤ := narrow (narrow e1.id - narrow e2.id)

/-- `pagecache_entry_cmp_xfirst_pages` -/
def cmpXfirstPages (e1 e2 : Entry) : ℤ :=
  let d : ℤ := e2.isxfirst.toInt - e1.isxfirst.toInt
  if d ≠ 0 then d else narrow ((e2.lastuse : ℤ) - e1.lastuse)

/-- `pagecache_entry_cmp_first_pages` -/
def cmpFirstPages (e1 e2 : Entry) : ℤ :=
  let d : ℤ := e2.isfirst.toInt - e1.isfirst.toInt
  if d ≠ 0 then d
  else if e1.isfirst then narrow ((e2.lastuse : ℤ) - e1.lastuse)
  else
    let d : ℤ := e2.isxfirst.toInt - e1.isxfirst.toInt
    if d ≠ 0 then d else narrow ((e2.lastuse : ℤ) - e1.lastuse)

end Comparisons

section Reading
variable (rows : List PageRow) (cnt : ℕ) (waiting : ℕ → Bool)

/-- The loop over the rows of one query; it breaks off when the database is
waited for. The pair is `e` and the entries so far. -/
def readRows : List PageRow → ℕ × List Entry → ℕ × List Entry
  | [], so_far => so_far
  | row :: rest, (e, entries) =>
    if cnt ≤ entries.length then (e, entries)
    else if row.type = .read then
      let entries := entries ++ [toEntry row]
      if entries.length &&& 0x3ff = 0x3ff ∧ waiting entries.length then (row.id, entries)
      else readRows rest (row.id, entries)
    else readRows rest (row.id, entries)

/-- The outer loop, at most `fuel` times. -/
def readEntries : ℕ → ℕ × List Entry → Option (List Entry)
  | 0, _ => none
  | fuel + 1, (e, entries) =>
    if entries.length < cnt then
      let batch := (rows.filter (e < ·.id)).take 50000
      if batch = [] then some entries
      else readEntries fuel (readRows cnt waiting batch (e, entries))
    else some entries

end Reading

/-- The array `oentries` with the pointer `entries` into it. -/
structure Sweep where
  items : ℕ → Entry
  start : ℕ
  cnt : ℕ
  state : PqState

/-- `psync_qpartition(entries, cnt, rcnt, ..); cnt -= rcnt; entries += rcnt;` -/
def reserve (fuel : ℕ) (compar : Entry → Entry → ℤ) (rcnt : ℕ) (sweep : Sweep) : Option Sweep := do
  let (part, state) ← qpartition compar fuel (fun place => sweep.items (sweep.start + place)) sweep.cnt rcnt sweep.state
  some
    { items := fun place => if place < sweep.start then sweep.items place else part (place - sweep.start)
      start := sweep.start + rcnt
      cnt := sweep.cnt - rcnt
      state }

/-- The row that the `UPDATE` leaves. -/
def freed (row : PageRow) : PageRow := { row with type := .free, hash := none, pageid := none, crc := none }

/-- `UPDATE pagecache SET type=.. WHERE id=?` -/
def freePage (rows : List PageRow) (id : ℕ) : List PageRow :=
  rows.map fun row => if row.id = id then freed row else row

/-- The table, the counter `free_db_pages` and the generator of the pivots. -/
structure Cache where
  rows : List PageRow
  freeDbPages : ℕ
  state : PqState

/-- `SELECT MAX(id) FROM pagecache` -/
def maxId (rows : List PageRow) : ℕ := (rows.map PageRow.id).foldr max 0

/-- `clean_cache`; `sizeof(pagecache_entry)` is 12. What lies past the last entry
is never read. -/
def cleanCache (waiting : ℕ → Bool) (fuel : ℕ) (cache : Cache) : Option Cache :=
  let cnt := maxId cache.rows
  if cnt = 0 then some cache
  else do
    let entries ← readEntries cache.rows cnt waiting fuel (0, [])
    let ocnt := entries.length
    let sweep : Sweep := ⟨fun place => entries.getD place (entries.headD default), 0, ocnt, cache.state⟩
    let sweep ← reserve fuel (cmpFirstPages int32) (15 * ocnt / 100) sweep
    let sweep ← reserve fuel (cmpXfirstPages int32) (5 * ocnt / 100) sweep
    let ocnt := sweep.cnt
    let sweep ← reserve fuel (cmpLastuse int32) (40 * ocnt / 100) sweep
    let sweep ← reserve fuel (cmpUsecntLastuse int32 2) (20 * ocnt / 100) sweep
    let sweep ← reserve fuel (cmpUsecntLastuse int32 4) (15 * ocnt / 100) sweep
    let sweep ← reserve fuel (cmpUsecntLastuse int32 8) (10 * ocnt / 100) sweep
    let sweep ← reserve fuel (cmpUsecntLastuse int32 16) (5 * ocnt / 100) sweep
    let (doomed, state) ← pqsort (cmpId int32) fuel (fun place => sweep.items (sweep.start + place)) sweep.cnt sweep.cnt 12
      sweep.state
    let ids := (contents sweep.cnt doomed).map Entry.id
    some { rows := ids.foldl freePage cache.rows, freeDbPages := cache.freeDbPages + ids.length, state }

end Pclsync.Pages.Clean
