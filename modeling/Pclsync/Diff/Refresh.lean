import Mathlib.Data.List.Basic
import Mathlib.Data.UInt

/-! The folders to refresh after a batch of entries of the diff. Their ids are collected in an array that grows, and
are handed over to a thread that sorts them and leaves out the repeated ones. -/

namespace Pclsync.Diff.Refresh

/-- `PSYNC_INVALID_FOLDERID`, which is no id of a folder. -/
abbrev invalidFolderid : UInt64 := UInt64.ofNat (2 ^ 64 - 1)

/-- `psync_folderid_t` of a folder. -/
abbrev FolderId := {id : UInt64 // id ≠ invalidFolderid}

/-- An entry of the diff: its metadata, and the parent folder there. -/
abbrev Entry := Option (Option FolderId)

/-- `refresh_folders` up to `refresh_last`, and `refresh_allocated`. -/
structure State where
  folders : List FolderId
  allocated : ℕ

section Quick

/-- Where an item is in memory, and what is there. -/
abbrev Pointer := ℕ × FolderId

/-- `cmp_folderid`: the pointers are compared, not what they point to. -/
def cmpFolderid (ptr1 ptr2 : Pointer) : ℤ :=
  if ptr1.1 < ptr2.1 then -1 else if ptr1.1 > ptr2.1 then 1 else 0

/-- The items of an array with their places. -/
def places : (base : ℕ) → List FolderId → List Pointer
  | _, [] => []
  | base, item :: rest => (base, item) :: places (base + 8) rest

/-- Two runs are merged. Of two items that compare equal the one of the first run is taken. -/
def mergeRuns (cmp : Pointer → Pointer → ℤ) : List Pointer → List Pointer → List Pointer
  | [], right => right
  | x :: left, [] => x :: left
  | x :: left, y :: right =>
    if cmp x y ≤ 0 then x :: mergeRuns cmp left (y :: right) else y :: mergeRuns cmp (x :: left) right

/-- `qsort` of the C library, a merge sort that compares the items where they are in the array. -/
def qsort (cmp : Pointer → Pointer → ℤ) (base : ℕ) (items : List FolderId) : List FolderId :=
  if items.length ≤ 1 then items
  else
    let half := items.length / 2
    let left := qsort cmp base (items.take half)
    let right := qsort cmp (base + 8 * half) (items.drop half)
    (mergeRuns cmp (places base left) (places (base + 8 * half) right)).map Prod.snd
termination_by items.length
decreasing_by
  · rw [List.length_take]
    omega
  · rw [List.length_drop]
    omega

end Quick

/-- The items that differ from the one before them. -/
def skipRepeated (last : UInt64) : List FolderId → List FolderId
  | [] => []
  | id :: rest => if id.val ≠ last then id :: skipRepeated id.val rest else skipRepeated last rest

/-- `psync_diff_refresh_thread`: the folders that are refreshed, in this order. -/
def refreshThread (base : ℕ) (folders : List FolderId) : List FolderId :=
  skipRepeated invalidFolderid (qsort cmpFolderid base folders)

/-- `psync_diff_refresh_fs_add_folder` -/
def addFolder (need : Bool) (s : State) (folderid : FolderId) : Option State :=
  if need then
    let allocated :=
      if s.allocated = s.folders.length then (if s.allocated ≠ 0 then s.allocated * 2 % 2 ^ 32 else 8) else s.allocated
    if s.folders.length < allocated then some ⟨s.folders ++ [folderid], allocated⟩ else none
  else some s

/-- The parent folders of entries. -/
def parents (entries : List Entry) : List FolderId := entries.filterMap Option.join

/-- The loop of `psync_diff_refresh_fs`. -/
def addParents (s : State) (lastfolderid : UInt64) : List Entry → Option State
  | [] => some s
  | none :: rest => addParents s lastfolderid rest
  | some none :: rest => addParents s lastfolderid rest
  | some (some folderid) :: rest =>
    if folderid.val = lastfolderid then addParents s lastfolderid rest
    else (addFolder true s folderid).bind fun s => addParents s folderid.val rest

/-- `psync_diff_refresh_fs`, with the folders that are handed over to a thread if there are any. -/
def refreshFs (need : Bool) (s : State) (entries : List Entry) : Option (State × Option (List FolderId)) :=
  if need then
    (addParents s invalidFolderid entries).map fun s => if s.folders = [] then (s, none) else (⟨[], 0⟩, some s.folders)
  else some (s, none)

/-- What happens while the diff is processed, and whether `psync_fs_need_per_folder_refresh` says yes then. -/
inductive Event
  | collect (need : Bool) (folderid : FolderId)
  | batch (need : Bool) (entries : List Entry)

/-- The events in turn, with the folders that each thread refreshes. The array of a thread is at `base`. -/
def run (base : ℕ) : State → List Event → Option (State × List (List FolderId))
  | s, [] => some (s, [])
  | s, .collect need folderid :: rest => (addFolder need s folderid).bind fun s => run base s rest
  | s, .batch need entries :: rest =>
    (refreshFs need s entries).bind fun result =>
      (run base result.1 rest).map fun (s, refreshed) =>
        match result.2 with
        | none => (s, refreshed)
        | some folders => (s, refreshThread base folders :: refreshed)

end Pclsync.Diff.Refresh
