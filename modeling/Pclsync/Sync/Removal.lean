import Pclsync.Paths.Sync
import Pclsync.Sync.Move

/-! A local folder is removed from the database with all that is below it. The three removals look for the
children, delete rows and report to the path status in different orders. What is on the disk, and the uploads that
are stopped on the way, are left out. -/

namespace Pclsync.Sync.Removal
open Pclsync.Paths

/-- `PSYNC_UPLOAD_FILE` -/
abbrev uploadFile : ℕ := 3

/-- A row of `task`. -/
structure Task where
  type : ℕ
  localitemid : ℕ
deriving DecidableEq, Repr

/-- A call of `ppathstatus_syncfldr_deleted`, and whether the parent is still in the database. -/
structure Report where
  syncid : ℕ
  folderid : ℕ
  found : Bool
deriving DecidableEq, Repr

/-- The ids of `syncfolder`, the tables without the row of folder 0, the trees of the path status, and what was
reported to it. -/
structure State where
  syncfolder : List ℕ
  localfolder : List LocalFolder
  localfile : List LocalFile
  syncedfolder : List SyncedFolder
  task : List Task
  syncData : ℕ → Option TaskTree
  reports : List Report

namespace State

variable (s : State)

/-- `SELECT localparentfolderid FROM localfolder WHERE id=?` -/
def parents (folderid : ℕ) : Option ℕ := (s.localfolder.find? fun row => row.id = folderid).map LocalFolder.localparentfolderid

/-- Rows go while the row of their parent is gone. -/
def cascade : ℕ → List LocalFolder → List LocalFolder
  | 0, rows => rows
  | steps + 1, rows =>
    cascade steps (rows.filter fun row => row.localparentfolderid = 0 ∨ ∃ parent ∈ rows, parent.id = row.localparentfolderid)

/-- `DELETE FROM localfolder`, with the rows that refer to those that go, and `psql_affected`. -/
def deleteFolders (which : LocalFolder → Bool) : State × Bool :=
  let rows := cascade s.localfolder.length (s.localfolder.filter fun row => !which row)
  ({ s with
    localfolder := rows
    localfile := s.localfile.filter fun file => file.localparentfolderid = 0 ∨ ∃ parent ∈ rows, parent.id = file.localparentfolderid },
    s.localfolder.any which)

/-- `DELETE FROM localfile` -/
def deleteFiles (which : LocalFile → Bool) : State := { s with localfile := s.localfile.filter fun file => !which file }

/-- `DELETE FROM syncedfolder WHERE localfolderid=?` -/
def deleteSynced (localfolderid : ℕ) : State :=
  { s with syncedfolder := s.syncedfolder.filter fun row => row.localfolderid ≠ localfolderid }

/-- `pupload_del_tasks` -/
def delTasks (localfileid : ℕ) : State :=
  { s with task := s.task.filter fun task => ¬(task.type = uploadFile ∧ task.localitemid = localfileid) }

/-- `pupload_del_tasks` for some files. -/
def delTasksOf (which : LocalFile → Bool) : State :=
  ((s.localfile.filter which).map LocalFile.id).foldl delTasks s

/-- `ppathstatus_syncfldr_deleted` -/
def report (fuel syncid folderid : ℕ) : Outcome State :=
  (Paths.Sync.syncfldrDeleted s.parents fuel s.syncData syncid folderid).map fun syncData =>
    { s with syncData, reports := s.reports ++ [⟨syncid, folderid, (s.parents folderid).isSome⟩] }

end State

/-- A loop over the rows of a query. -/
def each {α : Type} (body : State → α → Outcome State) : State → List α → Outcome State
  | s, [] => .next s
  | s, row :: rest => (body s row).bind fun s => each body s rest

/-- `delete_local_folder_rec`. No row is read from the last query, whose result would be reported. -/
def deleteLocalFolderRec : ℕ → State → ℕ → Outcome State
  | 0, _, _ => .exhausted
  | fuel + 1, s, localfolderid =>
    (each (deleteLocalFolderRec fuel) s
      ((s.localfolder.filter fun row => row.localparentfolderid = localfolderid).map LocalFolder.id)).bind fun s =>
    let within : LocalFile → Bool := fun file => file.localparentfolderid = localfolderid
    let s := (s.delTasksOf within).deleteFiles within
    let s := (s.deleteFolders fun row => row.id = localfolderid).1
    .next (s.deleteSynced localfolderid)

/-- `delete_local_folder_from_db` -/
def deleteLocalFolderFromDb : ℕ → State → ℕ × ℕ → Outcome State
  | 0, _, _ => .exhausted
  | fuel + 1, s, (localfolderid, syncid) =>
    if localfolderid = 0 then s.report fuel syncid localfolderid
    else
      (each (deleteLocalFolderFromDb fuel) s
        ((s.localfolder.filter fun row => row.localparentfolderid = localfolderid).map fun row => (row.id, row.syncid))).bind fun s =>
      let within : LocalFile → Bool := fun file => file.localparentfolderid = localfolderid
      let s := (s.delTasksOf within).deleteFiles within
      let s := s.deleteSynced localfolderid
      let s := (s.deleteFolders fun row => row.id = localfolderid).1
      s.report fuel syncid localfolderid

/-- `DELETE FROM localfolder`, and if rows went `DELETE FROM syncedfolder` for a folder. -/
def deleteWithSynced (s : State) (which : LocalFolder → Bool) (localfolderid : ℕ) : State :=
  match s.deleteFolders which with
  | (s, true) => s.deleteSynced localfolderid
  | (s, false) => s

/-- `task_del_folder_rec_do` -/
def taskDelFolderRecDo (syncid : ℕ) : ℕ → State → ℕ → Outcome State
  | 0, _, _ => .exhausted
  | fuel + 1, s, localfolderid =>
    let within : LocalFile → Bool := fun file => file.localparentfolderid = localfolderid ∧ file.syncid = syncid
    let s := (s.delTasksOf within).deleteFiles within
    let child : LocalFolder → Bool := fun row => row.localparentfolderid = localfolderid ∧ row.syncid = syncid
    (each (taskDelFolderRecDo syncid fuel) s ((s.localfolder.filter child).map LocalFolder.id)).bind fun s =>
    (deleteWithSynced s child localfolderid).report fuel syncid localfolderid

/-- `psync_add_local_path_to_list_by_localfolderid`: whether there is a path. -/
def hasPath (s : State) (syncid : ℕ) : ℕ → ℕ → Outcome Bool
  | 0, _ => .exhausted
  | fuel + 1, localfolderid =>
    if syncid ∉ s.syncfolder then .next false
    else if localfolderid = 0 then .next true
    else match s.parents localfolderid with
      | none => .next false
      | some parent => hasPath s syncid fuel parent

/-- `task_del_folder_rec` -/
def taskDelFolderRec (fuel : ℕ) (s : State) (localfolderid syncid : ℕ) : Outcome State :=
  (hasPath s syncid fuel localfolderid).bind fun found =>
  if found then
    (taskDelFolderRecDo syncid fuel s localfolderid).bind fun s =>
    .next (deleteWithSynced s (fun row => row.id = localfolderid ∧ row.syncid = syncid) localfolderid)
  else .next s

/-- The three removals. -/
inductive Remover
  | deleteLocalFolderRec
  | deleteLocalFolderFromDb
  | taskDelFolderRec
deriving DecidableEq, Repr

def remove (remover : Remover) (fuel : ℕ) (s : State) (localfolderid syncid : ℕ) : Outcome State :=
  match remover with
  | .deleteLocalFolderRec => deleteLocalFolderRec fuel s localfolderid
  | .deleteLocalFolderFromDb => deleteLocalFolderFromDb fuel s (localfolderid, syncid)
  | .taskDelFolderRec => taskDelFolderRec fuel s localfolderid syncid

end Pclsync.Sync.Removal
