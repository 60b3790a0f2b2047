import Mathlib

/-! The path of a folder from its id, and the id from the path. A function that climbs or walks is given a number of steps, and
`none` says that it needs more. -/

namespace Pclsync.Paths.Folder

/-- `/` -/
abbrev slash : UInt8 := 47

/-- The columns of `folder` that the queries use. -/
structure FolderRow where
  id : ℕ
  parentfolderid : Option ℕ
  name : List UInt8
deriving DecidableEq, Repr

/-- `psync_error` -/
inductive Error
  | remoteFolderNotFound
deriving DecidableEq, Repr

variable (rows : List FolderRow)

section Id

/-- `SELECT id FROM folder WHERE parentfolderid=? AND name=?` -/
def child (parentfolderid : ℕ) (name : List UInt8) : Option ℕ :=
  (rows.find? fun row => row.parentfolderid = some parentfolderid ∧ row.name = name).map (·.id)

/-- The loop of `pfolder_id`. -/
def walk : (steps : ℕ) → ℕ → List UInt8 → Option (Except Error ℕ)
  | 0, _, _ => none
  | steps + 1, cfolderid, path =>
    let path := path.dropWhile (· = slash)
    if path = [] then some (.ok cfolderid)
    else
      let name := path.takeWhile (· ≠ slash)
      match child rows cfolderid name with
      | none => some (.error .remoteFolderNotFound)
      | some folderid => walk steps folderid (path.drop name.length)

/-- `pfolder_id`. What is behind a zero byte is not part of a string. -/
def pfolderId (steps : ℕ) (path : List UInt8) : Option (Except Error ℕ) :=
  let path := path.takeWhile (· ≠ 0)
  if path.head? = some slash then walk rows steps 0 path else some (.error .remoteFolderNotFound)

end Id

section Path

/-- `psync_add_path_to_list` puts each name in front of the list, and an empty one for the root. `some none` says that a folder
is not in the table. -/
def addPathToList : (steps : ℕ) → ℕ → List (List UInt8) → Option (Option (List (List UInt8)))
  | 0, _, _ => none
  | steps + 1, folderid, lst =>
    if folderid = 0 then some (some ([] :: lst))
    else match rows.find? (·.id = folderid) with
      | none => some none
      | some row => addPathToList steps (row.parentfolderid.getD 0) (row.name :: lst)

/-- The size of the buffer of `psync_join_string_list`. -/
def bufferSize (sep : List UInt8) (lst : List (List UInt8)) : ℕ := (lst.map List.length).sum + lst.length * sep.length + 1

/-- What `psync_join_string_list` writes before it steps back. -/
def written (sep : List UInt8) (lst : List (List UInt8)) : List UInt8 := lst.flatMap (· ++ sep)

/-- `psync_join_string_list`, with `retlen` if it is set. -/
def joinStringList (sep : List UInt8) (lst : List (List UInt8)) : List UInt8 × Option ℕ :=
  if lst = [] then ([], none)
  else
    let ret := (written sep lst).take ((written sep lst).length - sep.length)
    (ret, some ret.length)

/-- `pfolder_path` -/
def pfolderPath (steps : ℕ) (folderid : ℕ) : Option (Option (List UInt8 × Option ℕ)) :=
  (addPathToList rows steps folderid []).map fun found => found.map fun lst =>
    let joined := joinStringList [slash] lst
    if joined.1 = [] then ([slash], some 1) else joined

end Path

end Pclsync.Paths.Folder
