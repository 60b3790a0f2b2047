import Pclsync.Library.Table

/-! A folder of the server gets a row among the local folders of a sync. The row counts the tasks
that are still to be done in its folder. -/

namespace Pclsync.Syncer
open Library

abbrev Name := List UInt8

/-- A row of `localfolder`. Any column but the first can be `NULL`. -/
structure LocalFolder where
  id : ℕ
  localparentfolderid : Option ℕ
  folderid : Option ℕ
  syncid : Option ℕ
  flags : Option ℕ
  taskcnt : Option ℤ
  name : Option Name
deriving DecidableEq, Repr

/-- What `klocalfolderpsn` has of a row. A `NULL` differs from every other one. -/
def LocalFolder.psn (row : LocalFolder) : Option (ℕ × ℕ × Name) :=
  row.syncid.bind fun syncid => row.localparentfolderid.bind fun parent => row.name.map fun name => (syncid, parent, name)

/-- The primary key, the index, and the row 0 above the folders, which is in no sync. -/
def Keys (rows : List LocalFolder) : Prop :=
  (rows.map LocalFolder.id).Nodup ∧ (rows.filterMap LocalFolder.psn).Nodup ∧ ∀ row ∈ rows, row.id = 0 → row.syncid = none

instance : DecidablePred Keys := fun _ => inferInstanceAs (Decidable (_ ∧ _))

/-- `sequence` is the last id that was given, and `syncs` are the ids of `syncfolder`. -/
structure Db where
  localfolder : Table LocalFolder Keys
  sequence : ℕ
  below : ∀ row ∈ localfolder.rows, row.id ≤ sequence
  syncs : List ℕ

namespace Db

variable (db : Db)

/-- A statement that sets columns other than the key. -/
def update (change : LocalFolder → LocalFolder) (kept : ∀ row, (change row).id = row.id) : Db where
  localfolder := db.localfolder.update change
  sequence := db.sequence
  below row member := by
    have ids : (db.localfolder.update change).rows.map LocalFolder.id = _ := db.localfolder.update_column kept
    have there := List.mem_map_of_mem (f := LocalFolder.id) member
    rw [ids] at there
    obtain ⟨old, within, same⟩ := List.mem_map.mp there
    exact same ▸ db.below old within
  syncs := db.syncs

/-- `INSERT OR IGNORE INTO localfolder`. The parent and the sync of a row must be there. -/
def insertOrIgnore (localparentfolderid folderid syncid : ℕ) (name : Name) : Option Db :=
  let row : LocalFolder := ⟨db.sequence + 1, some localparentfolderid, some folderid, some syncid, some 0, some 1, some name⟩
  if valid : Keys (db.localfolder.rows ++ [row]) ∧ localparentfolderid ∈ db.localfolder.rows.map LocalFolder.id ∧ syncid ∈ db.syncs then
    some {
      localfolder := ⟨db.localfolder.rows ++ [row], valid.1⟩
      sequence := db.sequence + 1
      below := fun other member => by
        rcases List.mem_append.mp member with old | new
        · exact (db.below other old).trans (Nat.le_succ _)
        · rw [List.mem_singleton.mp new]
      syncs := db.syncs }
  else none

/-- `SELECT id FROM localfolder WHERE syncid=? AND folderid=?` -/
def known (syncid folderid : ℕ) : Option LocalFolder :=
  db.localfolder.rows.find? fun row => row.syncid = some syncid ∧ row.folderid = some folderid

/-- `SELECT id, folderid FROM localfolder WHERE localparentfolderid=? AND syncid=? AND name=?` -/
def named (localparentfolderid syncid : ℕ) (name : Name) : Option LocalFolder :=
  db.localfolder.rows.find? fun row => row.localparentfolderid = some localparentfolderid ∧ row.syncid = some syncid ∧ row.name = some name

/-- `UPDATE localfolder SET folderid=? WHERE id=?` -/
def setFolderid (folderid id : ℕ) : Db :=
  db.update (fun row => if row.id = id then { row with folderid := some folderid } else row) (fun row => by split <;> rfl)

/-- `UPDATE localfolder SET taskcnt=taskcnt+1 WHERE id=?` -/
def folderIncTasks (lfolderid : ℕ) : Db :=
  db.update (fun row => if row.id = lfolderid then { row with taskcnt := row.taskcnt.map (· + 1) } else row)
    (fun row => by split <;> rfl)

/-- `UPDATE localfolder SET taskcnt=taskcnt+1 WHERE id=?` -/
def folderDecTasks (lfolderid : ℕ) : Db :=
  db.update (fun row => if row.id = lfolderid then { row with taskcnt := row.taskcnt.map (· + 1) } else row)
    (fun row => by split <;> rfl)

end Db

/-- `pfile_invalid_chars`, which has the slash alone. -/
def invalidChar (char : UInt8) : Bool := char = 47

/-- `vname`, or the name itself when nothing in it is invalid. -/
def validName (name : Name) : Name := name.map fun char => if invalidChar char then 95 else char

/-- `psyncer_db_folder_create` -/
def dbFolderCreate (syncid folderid localparentfolderid : ℕ) (name : Name) (db : Db) : ℕ × Db :=
  let lfolderid := ((db.known syncid folderid).map LocalFolder.id).getD 0
  if lfolderid ≠ 0 then (lfolderid, db)
  else match db.insertOrIgnore localparentfolderid folderid syncid (validName name) with
    | some inserted => (inserted.sequence, inserted)
    | none =>
      match db.named localparentfolderid syncid (validName name) with
      | none => (0, db.folderIncTasks 0)
      | some row =>
        -- The id of the local folder is bound first, to the column that is set.
        if row.id ≠ 0 ∧ row.folderid.getD 0 ≠ folderid then (row.id, (db.setFolderid row.id folderid).folderIncTasks row.id)
        else (row.id, db.folderIncTasks row.id)

/-- A task of a folder is queued, or is done by `call_func_for_folder` or
`call_func_for_folder_name`. -/
inductive Step
  | queued
  | completed
deriving DecidableEq, Repr

def step (lfolderid : ℕ) (db : Db) : Step → Db
  | .queued => db.folderIncTasks lfolderid
  | .completed => db.folderDecTasks lfolderid

def run (lfolderid : ℕ) (db : Db) (steps : List Step) : Db := steps.foldl (step lfolderid) db

/-- The counter of a row, if there is one. -/
def taskcnt (db : Db) (lfolderid : ℕ) : Option ℤ :=
  (db.localfolder.rows.find? fun row => row.id = lfolderid).bind LocalFolder.taskcnt

end Pclsync.Syncer
