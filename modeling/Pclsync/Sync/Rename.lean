import Pclsync.Paths.Sync
import Pclsync.Sync.Move
import Pclsync.Sync.Trashes

/-! A local folder is renamed by a task: its row within a transaction, and the folder on the disk before that is
committed. Of the disk there is what is known of the entries of the folder: which are still at the old path and which
came to the new one. -/

namespace Pclsync.Sync.Rename
open Library Trashes

/-- A path of the file system. -/
abbrev Path := List UInt8

abbrev slash : UInt8 := 47

/-- What `stat` says of the new path, and `psync_rename_conflicted_file` of a file there. -/
inductive Target
  | unknown
  | folder
  | file (renamed : Bool)
deriving DecidableEq, Repr

/-- What a `rename` of the folder answers: it is done, `ENOSPC` or `EDQUOT`, `EBUSY` or `EROFS`, `ENOENT`, one of
`EEXIST`, `ENOTEMPTY` and `ENOTDIR`, or any other error. -/
inductive Answer
  | done
  | full
  | busy
  | noEntry
  | taken (target : Target)
  | other
deriving DecidableEq, Repr

/-- What else the system answers: whether the old folder can be listed, which of its entries can be looked at, which
renames of entries are done, and the calls of `psync_rmdir_with_trashes`. -/
structure System where
  opendir : Bool
  lstat : Name → Bool
  rename : Path → Path → Bool
  trash : Trashes.System
  ignored : Name → Bool

/-- The entries at the old path, those that came from there to the new one, and renames of entries elsewhere. -/
structure Disk where
  old : Option Entries
  arrived : Option Entries
  elsewhere : List (Path × Path)

/-- The regular files and folders that `ppath_ls` passes on. -/
def listed (system : System) : Entries → List Name
  | .nil => []
  | .cons _ .other rest => listed system rest
  | .cons name _ rest => if system.lstat name then name :: listed system rest else listed system rest

/-- An entry is taken out of a folder. -/
def take (wanted : Name) : Entries → Option (Entry × Entries)
  | .nil => none
  | .cons name entry rest =>
    if name = wanted then some (entry, rest) else (take wanted rest).map fun taken => (taken.1, .cons name entry taken.2)

section Disk

variable (system : System) (oldpath newpath : Path)

/-- `pfile_rename` of what may be an entry of the old folder. -/
def renameEntry (disk : Disk) (source target : Path) : Disk :=
  if system.rename source target then
    match (oldpath ++ [slash]).isPrefixOf? source with
    | none => { disk with elsewhere := disk.elsewhere ++ [(source, target)] }
    | some name =>
      match disk.old.bind (take name) with
      | none => disk
      | some (entry, rest) =>
        match (newpath ++ [slash]).isPrefixOf? target with
        | none => { disk with old := some rest }
        | some name => { disk with old := some rest, arrived := some (.cons name entry (disk.arrived.getD .nil)) }
  else disk

/-- `do_move` -/
def doMove (disk : Disk) (name : Name) : Disk := renameEntry system oldpath newpath disk (oldpath ++ name) (newpath ++ name)

/-- `move_folder_contents` -/
def moveFolderContents (disk : Disk) : ℤ × Disk :=
  let disk := if system.opendir then (disk.old.elim [] (listed system)).foldl (doMove system oldpath newpath) disk else disk
  match disk.old with
  | none => (-1, disk)
  | some entries =>
    match rmdirWithTrashes system.trash system.ignored [] entries with
    | none => (0, { disk with old := none })
    | some left => (-1, { disk with old := some left })

/-- `task_renamedir`, which is done when the answers are. -/
def taskRenamedir : List Answer → Disk → Option (ℤ × Disk)
  | [], _ => none
  | .done :: _, disk => some (0, { disk with old := none, arrived := disk.old })
  | .full :: rest, disk => taskRenamedir rest disk
  | .busy :: _, disk => some (-1, disk)
  | .noEntry :: _, disk => some (0, disk)
  | .taken .unknown :: _, disk => some (-1, disk)
  | .taken .folder :: _, disk => some (moveFolderContents system oldpath newpath disk)
  | .taken (.file true) :: rest, disk => taskRenamedir rest disk
  | .taken (.file false) :: _, disk => some (-1, disk)
  | .other :: _, disk => some (-1, disk)

end Disk

/-- What the database allows: the keys of `localfolder`, parents that are there and syncs that are. -/
def Allowed (syncfolder : List (ℕ × Path)) (rows : List LocalFolder) : Prop :=
  FolderKeys rows ∧ (∀ row ∈ rows, row.localparentfolderid = 0 ∨ ∃ parent ∈ rows, parent.id = row.localparentfolderid) ∧
    ∀ row ∈ rows, ∃ sync ∈ syncfolder, sync.1 = row.syncid

instance (syncfolder : List (ℕ × Path)) : DecidablePred (Allowed syncfolder) := fun _ =>
  inferInstanceAs (Decidable (_ ∧ _ ∧ _))

structure State (syncfolder : List (ℕ × Path)) where
  localfolder : Table LocalFolder (Allowed syncfolder)
  status : Paths.Sync.State
  disk : Disk

/-- The loop of `psync_add_local_path_to_list_by_localfolderid`, with the path that is found so far. -/
def walk (rows : List LocalFolder) (base : Path) : ℕ → ℕ → Path → Option (Option Path)
  | 0, _, _ => none
  | fuel + 1, localfolderid, path =>
    if localfolderid = 0 then some (some (base ++ path))
    else match rows.find? fun row => row.id = localfolderid with
      | none => some none
      | some row => walk rows base fuel row.localparentfolderid (slash :: row.name ++ path)

/-- `pfolder_lpath_lfldr` -/
def lpathLfldr (syncfolder : List (ℕ × Path)) (rows : List LocalFolder) (fuel localfolderid syncid : ℕ) : Option (Option Path) :=
  match syncfolder.find? fun sync => sync.1 = syncid with
  | none => some none
  | some sync => walk rows sync.2 fuel localfolderid []

/-- What a task says of a folder. -/
structure Task where
  newsyncid : ℕ
  localfolderid : ℕ
  newlocalparentfolderid : ℕ
  newname : Name

/-- The row as the task wants it. -/
def Task.row (task : Task) : LocalFolder := ⟨task.localfolderid, task.newlocalparentfolderid, task.newsyncid, task.newname⟩

/-- `UPDATE localfolder SET syncid=?, localparentfolderid=?, name=? WHERE id=?` -/
def Task.change (task : Task) (row : LocalFolder) : LocalFolder :=
  if row.id = task.localfolderid then task.row else row

section Transaction

variable {syncfolder : List (ℕ × Path)}

/-- `psql_rollback`, to a state of the tables. What was queued is not run. -/
def State.rollback (s : State syncfolder) (before : Table LocalFolder (Allowed syncfolder)) : State syncfolder :=
  { s with localfolder := before, status := { s.status with commitcbs := [] } }

/-- `psql_commit`, which rolls back if a statement failed. What was queued is left to be run. -/
def State.commit (s : State syncfolder) (before : Table LocalFolder (Allowed syncfolder)) (failed : Bool) : State syncfolder :=
  if failed then s.rollback before else s

/-- `task_renamefolder` -/
def taskRenamefolder (system : System) (answers : List Answer) (fuel : ℕ) (task : Task) (s : State syncfolder) :
    Option (ℤ × State syncfolder) :=
  match s.localfolder.rows.find? fun row => row.id = task.localfolderid with
  | none => some (0, s)
  | some row =>
    if row.syncid = task.newsyncid ∧ row.localparentfolderid = task.newlocalparentfolderid ∧ row.name = task.newname then some (0, s)
    else do
      match ← lpathLfldr syncfolder s.localfolder.rows fuel task.localfolderid row.syncid with
      | none => some (0, s)
      | some oldpath =>
        let before := s.localfolder
        let status := Paths.Sync.syncfldrMoved s.status
          ⟨⟨task.localfolderid, row.localparentfolderid, task.newlocalparentfolderid⟩, row.syncid, task.newsyncid⟩
        let failed := ¬Allowed syncfolder (before.rows.map task.change)
        let s := { s with status, localfolder := before.update task.change }
        match ← lpathLfldr syncfolder s.localfolder.rows fuel task.localfolderid task.newsyncid with
        | none => some (0, s.rollback before)
        | some newpath =>
          let (ret, disk) ← taskRenamedir system oldpath newpath answers s.disk
          let s := { s with disk }
          if ret = 0 then some (ret, s.commit before failed) else some (ret, s.rollback before)

end Transaction

end Pclsync.Sync.Rename
