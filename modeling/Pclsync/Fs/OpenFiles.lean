import Pclsync.Trees.Search

/-! The tree of the open files. Their ids are compared by the sign of a difference of two 64-bit numbers, in each
of the loops. A file that gets another id comes to another place. -/

namespace Pclsync.OpenFiles
open Library Ptree

/-- The tree, and the ids of the files by their addresses. -/
structure Files where
  heap : Heap
  openfiles : Option ℕ
  fileid : ℕ → Int64

/-- `d` -/
def difference (fileid other : Int64) : ℤ := (fileid - other).toInt

namespace Files

variable (files : Files)

/-- How the loops go on at a file. -/
def compare (fileid : Int64) (file : ℕ) : Ordering :=
  if difference fileid (files.fileid file) < 0 then .lt
  else if 0 < difference fileid (files.fileid file) then .gt
  else .eq

/-- The loops that look for a file. -/
def lookup (fuel : ℕ) (fileid : Int64) : Option (Option ℕ) := search (files.compare fileid) fuel files.heap files.openfiles

/-- The loop that looks for the place of a file, with the last difference. -/
def locate (fileid : Int64) : ℕ → ℕ → Option (ℕ × ℤ)
  | 0, _ => none
  | fuel + 1, file =>
    let d := difference fileid (files.fileid file)
    if d < 0 then
      match (files.heap file).left with
      | some left => locate fileid fuel left
      | none => some (file, d)
    else if 0 < d then
      match (files.heap file).right with
      | some right => locate fileid fuel right
      | none => some (file, d)
    else some (file, d)

/-- The file is put next to the place that was found. -/
def addAt (fuel : ℕ) (place : Option (ℕ × ℤ)) (file : ℕ) : Option Files := do
  let (heap, openfiles) ←
    match place with
    | none => getAddBefore fuel files.heap files.openfiles none file
    | some (near, d) =>
      if d < 0 then getAddBefore fuel files.heap files.openfiles (some near) file
      else getAddAfter fuel files.heap files.openfiles (some near) file
  return { files with heap, openfiles }

def locateRoot (fuel : ℕ) (fileid : Int64) : Option (Option (ℕ × ℤ)) :=
  match files.openfiles with
  | none => some none
  | some root => (files.locate fileid fuel root).map some

/-- A file with another id. -/
def setFileid (file : ℕ) (fileid : Int64) : Files := { files with fileid := Function.update files.fileid file fileid }

/-- `ptree_del` -/
def delete (fuel file : ℕ) : Option Files := do
  let (heap, openfiles) ← getDel fuel files.heap files.openfiles file
  return { files with heap, openfiles }

/-- `psync_fs_create_file`, which returns the file that is open already, or `file`. -/
def createFile (fuel : ℕ) (fileid : Int64) (file : ℕ) : Option (ℕ × Files) := do
  match ← files.locateRoot fuel fileid with
  | some (near, d) =>
    if d = 0 then some (near, files)
    else
      let files ← (files.setFileid file fileid).addAt fuel (some (near, d)) file
      return (file, files)
  | none =>
    let files ← (files.setFileid file fileid).addAt fuel none file
    return (file, files)

/-- `psync_fs_update_openfile`, as far as the tree is concerned. A file with other writes is left as it is. -/
def updateOpenfile (fuel : ℕ) (taskid newfileid : Int64) (sameWriteid : Bool) : Option Files := do
  match ← files.lookup fuel (-taskid) with
  | none => some files
  | some file =>
    if sameWriteid then
      let files ← (files.setFileid file newfileid).delete fuel file
      let place ← files.locateRoot fuel newfileid
      files.addAt fuel place file
    else some files

/-- The way of a file with an id. -/
def goesLeft (fileid : Int64) (other : ℕ) : Bool := difference fileid (files.fileid other) < 0

/-- The last file on the way, if there is one, and its free side. -/
def placeRoot (fuel : ℕ) (fileid : Int64) : Option (Option (ℕ × Side)) :=
  match files.openfiles with
  | none => some none
  | some root => (place (files.goesLeft fileid) fuel files.heap root).map some

/-- `psync_fs_update_openfile_fileid_locked` -/
def updateOpenfileFileidLocked (fuel file : ℕ) (fileid : Int64) : Option Files := do
  let files ← files.delete fuel file
  let files := files.setFileid file fileid
  let near ← files.placeRoot fuel fileid
  let (heap, openfiles) := putAt files.heap files.openfiles near file
  let (heap, openfiles) ← getAddedAt fuel heap openfiles (near.map Prod.fst) file
  return { files with heap, openfiles }

end Files

/-- What is done to the tree: a file is opened or closed, or gets another id. -/
inductive Op
  | create (fileid : Int64) (file : ℕ)
  | update (taskid newfileid : Int64) (sameWriteid : Bool)
  | rekey (file : ℕ) (fileid : Int64)
  | close (file : ℕ)

def apply (fuel : ℕ) (files : Files) : Op → Option Files
  | .create fileid file => (files.createFile fuel fileid file).map Prod.snd
  | .update taskid newfileid sameWriteid => files.updateOpenfile fuel taskid newfileid sameWriteid
  | .rekey file fileid => files.updateOpenfileFileidLocked fuel file fileid
  | .close file => files.delete fuel file

end Pclsync.OpenFiles
