import Pclsync.Library.Marks

/-! The folders that have tasks, and the cache of their parents. The drive has one such
tree and each sync has one, with the same functions on them. -/

namespace Pclsync.Paths
open Pclsync.Library.Marks

/-- `folder_tasks_t`: `children` is `child_task_cnt` and `own` is `own_tasks`. -/
abbrev FolderTasks := Mark

/-- `folder_tasks` and `parent_cache_lru` with the entry that is replaced next in front. An
entry that is linked in `cache_free` has no value. -/
structure TaskTree where
  folderTasks : ℕ → Option FolderTasks
  parentCacheLru : List (Option (ℕ × ℕ))

/-- An assertion may fail, and a loop may need more steps than it is given. -/
inductive Outcome (α : Type) where
  | next (result : α)
  | failed
  | exhausted
deriving DecidableEq, Repr

def Outcome.bind {α β : Type} : Outcome α → (α → Outcome β) → Outcome β
  | .next result, rest => rest result
  | .failed, _ => .failed
  | .exhausted, _ => .exhausted

def Outcome.map {α β : Type} (f : α → β) (outcome : Outcome α) : Outcome β := outcome.bind fun result => .next (f result)

/-- A tree without tasks, and the cache of it. -/
def TaskTree.init (cacheSize : ℕ) : TaskTree where
  folderTasks := fun _ => none
  parentCacheLru := List.replicate cacheSize none

def TaskTree.put (tree : TaskTree) (folderid : ℕ) (ft : Option FolderTasks) : TaskTree :=
  { tree with folderTasks := Function.update tree.folderTasks folderid ft }

/-- `get_folder_tasks` with `create` set. -/
def TaskTree.getOrCreate (tree : TaskTree) (folderid : ℕ) : FolderTasks := (tree.folderTasks folderid).getD ⟨0, false⟩

/-- An entry that `parent_cache_hash` has for a folder. -/
def isEntry (folderid : ℕ) (entry : Option (ℕ × ℕ)) : Bool := entry.any fun entry => entry.1 == folderid

/-- `ppathstatus_del_from_parent_cache`, `sync_del_from_parent_cache` -/
def delFromParentCache (lru : List (Option (ℕ × ℕ))) (folderid : ℕ) : List (Option (ℕ × ℕ)) :=
  if lru.any (isEntry folderid) then none :: lru.eraseP (isEntry folderid) else lru

/-- `get_parent_folder`, `get_sync_parent_folder`, where `parents` are the rows of the
database. -/
def getParentFolder (parents : ℕ → Option ℕ) (lru : List (Option (ℕ × ℕ))) (folderid : ℕ) :
    Option ℕ × List (Option (ℕ × ℕ)) :=
  if folderid = 0 then (none, lru)
  else match lru.find? (isEntry folderid) with
    | some entry => (entry.map Prod.snd, lru.eraseP (isEntry folderid) ++ [entry])
    | none => match parents folderid with
      | none => (none, lru)
      | some parent => (some parent, lru.tail ++ [some (folderid, parent)])

/-- The parent of a folder is next in a loop, which ends at a folder without one. -/
def climb (parents : ℕ → Option ℕ) (tree : TaskTree) (folderid : ℕ)
    (loop : TaskTree → ℕ → Outcome (TaskTree × Option ℕ)) : Outcome (TaskTree × Option ℕ) :=
  match getParentFolder parents tree.parentCacheLru folderid with
  | (none, lru) => .next ({ tree with parentCacheLru := lru }, none)
  | (some parent, lru) => loop { tree with parentCacheLru := lru } parent

/-- The loop that counts a folder that has tasks now in its parents, from one of them up.
The result has the folder where it stopped, if that is not above the root. -/
def countUp (parents : ℕ → Option ℕ) : (fuel : ℕ) → TaskTree → ℕ → Outcome (TaskTree × Option ℕ)
  | 0, _, _ => .exhausted
  | fuel + 1, tree, folderid =>
    let ft := tree.getOrCreate folderid
    let ft := { ft with children := ft.children + 1 }
    if 1 < ft.children ∨ ft.own then .next (tree.put folderid (some ft), some folderid)
    else climb parents (tree.put folderid (some ft)) folderid (countUp parents fuel)

/-- `child_task_cnt--`, which wraps around. -/
def decrement (count : ℕ) : ℕ := if count = 0 then 2 ^ 32 - 1 else count - 1

/-- The loop that takes a folder without tasks out of the counts of its parents. Only
`ppathstatus_syncfldr_task_completed` asserts that there is something to take. -/
def countDown (parents : ℕ → Option ℕ) (positive : Bool) : (fuel : ℕ) → TaskTree → ℕ → Outcome (TaskTree × Option ℕ)
  | 0, _, _ => .exhausted
  | fuel + 1, tree, folderid =>
    match tree.folderTasks folderid with
    | none => .failed
    | some ft =>
      if positive ∧ ft.children = 0 then .failed
      else
        let ft := { ft with children := decrement ft.children }
        if ft.children ≠ 0 ∨ ft.own then .next (tree.put folderid (some ft), some folderid)
        else climb parents (tree.put folderid none) folderid (countDown parents positive fuel)

/-- `ppath_syncfldr_task_added_locked`, and `ppathstatus_drive_fldr_changed` for a folder
with tasks. -/
def taskAdded (parents : ℕ → Option ℕ) (fuel : ℕ) (tree : TaskTree) (folderid : ℕ) : Outcome TaskTree :=
  let ft := tree.getOrCreate folderid
  if ft.own ∨ ft.children ≠ 0 then .next (tree.put folderid (some { ft with own := true }))
  else (climb parents (tree.put folderid (some { ft with own := true })) folderid (countUp parents fuel)).map Prod.fst

/-- `folder_moved_params_t` -/
structure FolderMoved where
  folderid : ℕ
  oldParent : ℕ
  newParent : ℕ
deriving DecidableEq, Repr

/-- `folder_moved`, and `sync_folder_moved` within one sync. -/
def folderMoved (parents : ℕ → Option ℕ) (fuel : ℕ) (tree : TaskTree) (moved : FolderMoved) : Outcome TaskTree :=
  (countUp parents fuel tree moved.newParent).bind fun result =>
    (countDown parents false fuel result.1 moved.oldParent).map Prod.fst

/-- `ppathstatus_fldr_deleted`, `ppathstatus_syncfldr_deleted`: the folder that is taken out
of the cache at the end is the one where the loop stopped. -/
def fldrDeleted (parents : ℕ → Option ℕ) (fuel : ℕ) (tree : TaskTree) (folderid : ℕ) : Outcome TaskTree :=
  match tree.folderTasks folderid with
  | none => .next { tree with parentCacheLru := delFromParentCache tree.parentCacheLru folderid }
  | some _ =>
    (climb parents (tree.put folderid none) folderid (countDown parents false fuel)).map fun result =>
      match result.2 with
      | none => result.1
      | some stopped => { result.1 with parentCacheLru := delFromParentCache result.1.parentCacheLru stopped }

end Pclsync.Paths
