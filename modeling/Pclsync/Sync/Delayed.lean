import Mathlib.Logic.Function.Basic
import Pclsync.Library.Separated

/-! Syncs that wait until they can be registered, and the tests on the paths of two syncs. A read behind the end of a string
is `none`. -/

namespace Pclsync.Sync.Delayed
open Library.Separated

/-- `/` -/
abbrev slash : UInt8 := 47

/-- `PSYNC_DOWNLOAD_ONLY` -/
abbrev downloadOnly : ℕ := 1

section Paths

/-- A byte of a string, which ends with a zero. -/
def readAt (str : List UInt8) (index : ℕ) : Option UInt8 := (str ++ [0])[index]?

/-- `memcmp`, if it finds no difference. -/
def sameBytes (str1 str2 : List UInt8) (len : ℕ) : Option Bool :=
  if len ≤ str1.length + 1 ∧ len ≤ str2.length + 1 then some (decide ((str1 ++ [0]).take len = (str2 ++ [0]).take len)) else none

/-- `while (len > 1 && isSlash(len - 1)) len--` -/
def strip (isSlash : ℕ → Option Bool) : ℕ → Option ℕ
  | 0 => some 0
  | 1 => some 1
  | len + 2 => do if ← isSlash (len + 1) then strip isSlash (len + 1) else some (len + 2)

def slashAt (str : List UInt8) (index : ℕ) : Option Bool := (readAt str index).map (· == slash)

/-- `psyncer_str_has_prefix` -/
def psyncerStrHasPrefix (str1 str2 : List UInt8) : Option Bool := do
  let len1 ← strip (slashAt str1) str1.length
  let len2 := str2.length
  if len2 < len1 then
    if !(← slashAt str1 len2) then some false else sameBytes str1 str2 len2
  else
    if !(← slashAt str2 len1) then some false else sameBytes str1 str2 len1

/-- The test of the second loop of `psyncer_str_starts_with`, which looks at the first string if the second one has no slash. -/
def eitherSlashAt (str1 str2 : List UInt8) (index : ℕ) : Option Bool := do
  if ← slashAt str2 index then some true else slashAt str1 index

/-- `psyncer_str_starts_with` -/
def psyncerStrStartsWith (str1 str2 : List UInt8) : Option Bool := do
  let len1 ← strip (slashAt str1) str1.length
  let len2 ← strip (eitherSlashAt str1 str2) str2.length
  if len2 < len1 then some false else sameBytes str1 str2 len1

/-- An absolute path: the names, the root if there are none, and the slashes after them. -/
structure Path where
  names : List (Word slash)
  trailing : ℕ
  plain : ∀ name ∈ names, 0 ∉ name.text
deriving DecidableEq

/-- The path without slashes after it. -/
def Path.bare (path : Path) : List UInt8 := if path.names = [] then [slash] else joined path.names

def Path.text (path : Path) : List UInt8 := path.bare ++ List.replicate path.trailing slash

end Paths

section Tables

/-- What `stat` says of a path. -/
structure Stat where
  isFolder : Bool
  modeOk : ℕ → Bool
  inode : ℕ
  device : ℕ

/-- A row of `syncfolderdelayed`. -/
structure DelayedRow where
  id : ℕ
  localpath : Path
  remotepath : List UInt8
  synctype : ℕ

/-- A row of `syncfolder`. -/
structure SyncRow where
  folderid : ℕ
  localpath : Path
  synctype : ℕ
  inode : ℕ
  deviceid : ℕ

structure Tables where
  delayed : List DelayedRow
  syncs : List SyncRow

/-- What `pfolder_id_create` gives for the remote path. -/
inductive Remote
  | folder (folderid : ℕ)
  | offline
  | refused

/-- What the file system, the server and the database answer while a row is looked at. -/
structure Answers where
  stat : Option Stat
  remote : Remote
  known : Bool
  commits : Bool

/-- What is left to do after a row. -/
inductive Next
  | goOn
  | stop
deriving DecidableEq

def delete (tables : Tables) (id : ℕ) : Tables := { tables with delayed := tables.delayed.filter (·.id ≠ id) }

/-- A registered sync stands in the way of a path. -/
def conflicts (sync : SyncRow) (localpath : Path) : Bool :=
  psyncerStrHasPrefix sync.localpath.text localpath.text == some true || sync.localpath.text == localpath.text

/-- The transaction that registers a row. -/
def insert (tables : Tables) (row : DelayedRow) (folderid : ℕ) (st : Stat) : Tables × Bool :=
  if tables.syncs.any fun sync => sync.folderid == folderid && sync.localpath.text == row.localpath.text then (tables, false)
  else ({ tables with syncs := tables.syncs ++ [⟨folderid, row.localpath, row.synctype, st.inode, st.device⟩] }, true)

/-- The loop body of `psyncer_check_delayed`. -/
def checkRow (tables : Tables) (row : DelayedRow) (answers : Answers) : Tables × Next :=
  match answers.stat with
  | none => (delete tables row.id, .goOn)
  | some st =>
    if !st.isFolder || !st.modeOk (if row.synctype &&& downloadOnly ≠ 0 then 7 else 5) then (delete tables row.id, .goOn)
    else if tables.syncs.any (conflicts · row.localpath) then (delete tables row.id, .goOn)
    else match answers.remote with
      | .offline => (tables, .stop)
      | .refused => (delete tables row.id, .goOn)
      | .folder folderid =>
        if !answers.known then (if answers.commits then delete tables row.id else tables, .goOn)
        else
          let (registered, affected) := insert (delete tables row.id) row folderid st
          if answers.commits then (registered, if affected then .goOn else .stop) else (tables, .stop)

/-- The first row, if there is one. -/
def checkFirst (tables : Tables) (answers : Answers) : Tables × Next :=
  match tables.delayed with
  | [] => (tables, .stop)
  | row :: _ => checkRow tables row answers

/-- `psyncer_check_delayed`, with as many rows as it looks at before it stops or there are no more. A row that was looked at
is gone when the next one is, so that the next one is the first. -/
def psyncerCheckDelayed (answers : ℕ → Answers) : (rows : ℕ) → Tables → Tables
  | 0, tables => tables
  | rows + 1, tables =>
    let (tables, next) := checkFirst tables (answers rows)
    if next = .goOn then psyncerCheckDelayed answers rows tables else tables

/-- Another part of the program adds a row, or the rows are checked. -/
inductive Event
  | arrive (row : DelayedRow)
  | check (answers : ℕ → Answers) (rows : ℕ)

def step (tables : Tables) : Event → Tables
  | .arrive row => { tables with delayed := tables.delayed ++ [row] }
  | .check answers rows => psyncerCheckDelayed answers rows tables

end Tables

end Pclsync.Sync.Delayed
