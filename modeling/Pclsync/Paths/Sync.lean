import Pclsync.Paths.Drive

/-! The tasks of the local folders, with a tree for each sync. The drive's tree is beside
them because a move of a local folder looks it up. -/

namespace Pclsync.Paths.Sync
open Pclsync.Library.Marks Pclsync.Paths

/-- `SYNC_PARENT_CACHE_SIZE` -/
abbrev syncParentCacheSize : ℕ := 64

/-- `sync_folder_moved_params_t` -/
structure SyncFolderMoved extends FolderMoved where
  oldSync : ℕ
  newSync : ℕ
deriving DecidableEq, Repr

/-- The column `localparentfolderid` of the rows of `localfolder`, the trees, the callbacks
of the open transaction, and of which folders of which sync tasks were reported. -/
structure State where
  drive : Drive.State
  parents : ℕ → Option ℕ
  syncData : ℕ → Option TaskTree
  commitcbs : List SyncFolderMoved
  tasks : ℕ → ℕ → Bool

def State.init (driveParents parents : ℕ → Option ℕ) : State where
  drive := .init driveParents
  parents := parents
  syncData := fun _ => none
  commitcbs := []
  tasks := fun _ _ => false

/-- `get_sync_data` with `create` set. -/
def getSyncData (syncData : ℕ → Option TaskTree) (sync : ℕ) : TaskTree := (syncData sync).getD (.init syncParentCacheSize)

/-- `ppathstatus_syncfldr_task_completed`, where `left` is what `local_folder_has_tasks`
says. -/
def syncfldrTaskCompleted (parents : ℕ → Option ℕ) (fuel : ℕ) (syncData : ℕ → Option TaskTree) (sync folderid : ℕ) (left : Bool) :
    Outcome (ℕ → Option TaskTree) :=
  if left then .next syncData
  else match syncData sync with
    | none => .next syncData
    | some tree => match tree.folderTasks folderid with
      | none => .next syncData
      | some ft =>
        if ft.children ≠ 0 then .next (Function.update syncData sync (some (tree.put folderid (some { ft with own := false }))))
        else (climb parents (tree.put folderid none) folderid (countDown parents true fuel)).map fun result =>
          Function.update syncData sync (some result.1)

/-- `sync_folder_moved` -/
def syncFolderMoved (parents : ℕ → Option ℕ) (fuel : ℕ) (syncData : ℕ → Option TaskTree) (moved : SyncFolderMoved) :
    Outcome (ℕ → Option TaskTree) :=
  (countUp parents fuel (getSyncData syncData moved.newSync) moved.newParent).bind fun up =>
    let syncData := Function.update syncData moved.newSync (some up.1)
    match syncData moved.oldSync with
    | none => .failed
    | some tree => (countDown parents false fuel tree moved.oldParent).map fun down =>
      Function.update syncData moved.oldSync (some down.1)

/-- `ppathstatus_syncfldr_moved`: the lookup of the folder's tasks is `get_folder_tasks`. -/
def syncfldrMoved (s : State) (moved : SyncFolderMoved) : State :=
  if moved.oldParent = moved.newParent ∧ moved.oldSync = moved.newSync then s
  else match s.syncData moved.oldSync with
    | none => s
    | some tree =>
      let tree := { tree with parentCacheLru := delFromParentCache tree.parentCacheLru moved.folderid }
      let s := { s with syncData := Function.update s.syncData moved.oldSync (some tree) }
      match s.drive.tree.folderTasks moved.folderid with
      | none => s
      | some _ => { s with commitcbs := s.commitcbs ++ [moved] }

/-- `ppathstatus_syncfldr_deleted` -/
def syncfldrDeleted (parents : ℕ → Option ℕ) (fuel : ℕ) (syncData : ℕ → Option TaskTree) (sync folderid : ℕ) :
    Outcome (ℕ → Option TaskTree) :=
  match syncData sync with
  | none => .next syncData
  | some tree => (fldrDeleted parents fuel tree folderid).map fun tree => Function.update syncData sync (some tree)

/-- Who deletes a local folder: `task_del_folder_rec_do` reports it while the row is there,
`delete_local_folder_from_db` once it is gone, and `delete_local_folder_rec` not at all,
since it looks at the row of another query. -/
inductive Deleter where
  | taskDelFolderRecDo
  | deleteLocalFolderFromDb
  | deleteLocalFolderRec
deriving DecidableEq, Repr

/-- Anything about the drive, a new local folder, `ppath_syncfldr_task_added`,
`ppathstatus_syncfldr_task_completed`, `scan_rename_folder` or `task_renamefolder`, a
deletion, `ppathstatus_syncfldr_delete`, and one of the callbacks that `psql_commit` runs. -/
inductive Action where
  | drive (action : Drive.Action)
  | create (folderid parent : ℕ)
  | added (sync folderid : ℕ)
  | completed (sync folderid : ℕ) (left : Bool)
  | moved (folderid oldSync newSync newParent : ℕ)
  | deleted (deleter : Deleter) (sync folderid : ℕ)
  | syncDeleted (sync : ℕ)
  | callback
deriving DecidableEq, Repr

/-- What is known of the tasks of one folder. -/
def State.report (s : State) (sync folderid : ℕ) (tasks : Bool) : State :=
  { s with tasks := Function.update s.tasks sync (Function.update (s.tasks sync) folderid tasks) }

def perform (fuel : ℕ) (s : State) : Action → Outcome State
  | .drive action => (Drive.perform fuel s.drive action).map fun drive => { s with drive := drive }
  | .create folderid parent => .next { s with parents := Function.update s.parents folderid (some parent) }
  | .added sync folderid =>
    (taskAdded s.parents fuel (getSyncData s.syncData sync) folderid).map fun tree =>
      { s with syncData := Function.update s.syncData sync (some tree) }.report sync folderid true
  | .completed sync folderid left =>
    (syncfldrTaskCompleted s.parents fuel s.syncData sync folderid left).map fun syncData =>
      { s with syncData := syncData }.report sync folderid (s.tasks sync folderid && left)
  | .moved folderid oldSync newSync newParent =>
    match s.parents folderid with
    | none => .next s
    | some oldParent =>
      let s := syncfldrMoved s ⟨⟨folderid, oldParent, newParent⟩, oldSync, newSync⟩
      .next { s with parents := Function.update s.parents folderid (some newParent) }
  | .deleted .taskDelFolderRecDo sync folderid =>
    (syncfldrDeleted s.parents fuel s.syncData sync folderid).map fun syncData =>
      { s with syncData := syncData, parents := Function.update s.parents folderid none }.report sync folderid false
  | .deleted .deleteLocalFolderFromDb sync folderid =>
    let parents := Function.update s.parents folderid none
    (syncfldrDeleted parents fuel s.syncData sync folderid).map fun syncData =>
      { s with syncData := syncData, parents := parents }.report sync folderid false
  | .deleted .deleteLocalFolderRec sync folderid =>
    .next ({ s with parents := Function.update s.parents folderid none }.report sync folderid false)
  | .syncDeleted sync =>
    .next { s with syncData := Function.update s.syncData sync none, tasks := Function.update s.tasks sync fun _ => false }
  | .callback =>
    match s.commitcbs with
    | [] => .next s
    | moved :: rest =>
      (syncFolderMoved s.parents fuel s.syncData moved).map fun syncData => { s with syncData := syncData, commitcbs := rest }

/-- Some actions in a row. -/
def performAll (fuel : ℕ) (s : State) : List Action → Outcome State
  | [] => .next s
  | action :: rest => (perform fuel s action).bind fun s => performAll fuel s rest

end Pclsync.Paths.Sync
