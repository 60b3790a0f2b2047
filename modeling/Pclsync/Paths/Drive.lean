import Pclsync.Paths.Tree

/-! The tasks of the drive's folders. What a move changes is counted when its transaction
is committed, from the rows as they are then. -/

namespace Pclsync.Paths.Drive
open Pclsync.Library.Marks Pclsync.Paths

/-- `PARENT_CACHE_SIZE` -/
abbrev parentCacheSize : ℕ := 128

/-- The column `parentfolderid` of the rows of `folder`, the tree, the callbacks of the
open transaction, and of which folders tasks were reported last. -/
structure State where
  parents : ℕ → Option ℕ
  tree : TaskTree
  commitcbs : List FolderMoved
  tasks : ℕ → Bool

/-- Before anything is reported. -/
def State.init (parents : ℕ → Option ℕ) : State where
  parents := parents
  tree := .init parentCacheSize
  commitcbs := []
  tasks := fun _ => false

/-- `ppathstatus_drive_fldr_changed`, where `changed` says that the folder has files or
folders to create. -/
def driveFldrChanged (parents : ℕ → Option ℕ) (fuel : ℕ) (tree : TaskTree) (folderid : ℕ) (changed : Bool) : Outcome TaskTree :=
  if changed then taskAdded parents fuel tree folderid
  else
    match tree.folderTasks folderid with
    | none => .next tree
    | some ft =>
      if ft.children ≠ 0 then .next (tree.put folderid (some { ft with own := false }))
      else if ¬ ft.own then .failed
      else (climb parents (tree.put folderid none) folderid (countDown parents false fuel)).map Prod.fst

/-- `ppathstatus_fldr_moved` -/
def fldrMoved (s : State) (folderid oldParent newParent : ℕ) : State :=
  if oldParent = newParent then s
  else
    let tree := { s.tree with parentCacheLru := delFromParentCache s.tree.parentCacheLru folderid }
    match tree.folderTasks folderid with
    | none => { s with tree := tree }
    | some _ => { s with tree := tree, commitcbs := s.commitcbs ++ [⟨folderid, oldParent, newParent⟩] }

/-- `process_createfolder`, `process_modifyfolder`, `process_deletefolder`, a report of the
file system's tasks, and one of the callbacks that `psql_commit` runs. A folder without a
row that is modified is created, and one that is created again has its row changed. -/
inductive Action where
  | create (folderid parent : ℕ)
  | modify (folderid parent : ℕ)
  | delete (folderid : ℕ)
  | changed (folderid : ℕ) (tasks : Bool)
  | callback
deriving DecidableEq, Repr

def State.create (s : State) (folderid parent : ℕ) : State :=
  { s with parents := Function.update s.parents folderid (some parent) }

def perform (fuel : ℕ) (s : State) : Action → Outcome State
  | .create folderid parent => .next (s.create folderid parent)
  | .modify folderid parent =>
    match s.parents folderid with
    | none => .next (s.create folderid parent)
    | some oldParent => .next (fldrMoved (s.create folderid parent) folderid oldParent parent)
  | .delete folderid =>
    (fldrDeleted s.parents fuel s.tree folderid).map fun tree =>
      { s with tree := tree, parents := Function.update s.parents folderid none, tasks := Function.update s.tasks folderid false }
  | .changed folderid tasks =>
    (driveFldrChanged s.parents fuel s.tree folderid tasks).map fun tree =>
      { s with tree := tree, tasks := Function.update s.tasks folderid tasks }
  | .callback =>
    match s.commitcbs with
    | [] => .next s
    | moved :: rest =>
      (folderMoved s.parents fuel s.tree moved).map fun tree =>
        { s with tree := tree, commitcbs := rest }

/-- Some actions in a row. -/
def performAll (fuel : ℕ) (s : State) : List Action → Outcome State
  | [] => .next s
  | action :: rest => (perform fuel s action).bind fun s => performAll fuel s rest

/-- The statuses that a folder of the drive may have. -/
inductive PathStatus where
  | inSync
  | inProg
  | paused
deriving DecidableEq, Repr

/-- `psync_path_status_drive_folder_locked`, where `ok` is what `pstatus_ok_status_arr`
says. -/
def driveFolderLocked (ok : Bool) (s : State) (folderid : ℕ) : PathStatus :=
  if (s.tree.folderTasks folderid).isSome then (if ok then .inProg else .paused) else .inSync

end Pclsync.Paths.Drive
