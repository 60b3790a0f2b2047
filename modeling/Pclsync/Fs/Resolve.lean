import Pclsync.Fs.Tasks

/-! The folder of a path of the drive. Three functions walk along the components of a path, from
folder to folder, and look at the pending tasks of each before its rows. -/

namespace Pclsync.Fs

def PSYNC_PERM_ALL : BitVec 32 := 15

def slash : UInt8 := 47

/-- A row of `folder`, with the low bits of its permissions. -/
structure PathRow where
  id : ℤ
  permissions : BitVec 32
  flags : ℕ
  userid : ℕ
deriving DecidableEq, Repr

/-- What the functions look at: `folder` has the row of a name in a folder, `folders` the folders
with tasks, `encode` the encrypted name, if there is an encoder. -/
structure View where
  folder : ℤ → Name → Option PathRow
  folders : ℤ → Option FolderTasks
  encode : ℤ → Name → Option Name
  sharedfolder : ℕ → ℤ → Option ℕ
  myUserid : ℕ
  fakePrefix : Name

/-- Why there is no result; `cryptoError` is left in `cryptoerr`. -/
inductive NoFolder where
  | notFound
  | cryptoError
deriving DecidableEq, Repr

/-- `psync_fspath_t` -/
structure FsPath where
  folderid : ℤ
  name : Name
  permissions : BitVec 32
  flags : ℕ
  shareid : ℕ
deriving DecidableEq, Repr

namespace View

variable (view : View)

/-- `get_encname_for_folder` where the folder is encrypted. -/
def ename (folderid : ℤ) (flags : ℕ) (component : Name) : Except NoFolder Name :=
  if flags &&& flagEncrypted ≠ 0 then
    match view.encode folderid component with
    | none => .error .cryptoError
    | some ename => .ok ename
  else .ok component

/-- `check_userid` -/
def checkUserid (userid : ℕ) (folderid : ℤ) (shareid : ℕ) : ℕ :=
  if userid = view.myUserid ∨ shareid ≠ 0 then shareid else (view.sharedfolder userid folderid).getD shareid

/-- `ret_folder_data` -/
def retFolderData (folderid : ℤ) (name : Name) (permissions : BitVec 32) (flags shareid : ℕ) : Except NoFolder FsPath :=
  if flags &&& flagEncrypted ≠ 0 ∧ ¬view.fakePrefix <+: name then
    match view.encode folderid name with
    | none => .error .cryptoError
    | some encname => .ok ⟨folderid, encname, permissions, flags, shareid⟩
  else .ok ⟨folderid, name, permissions, flags, shareid⟩

end View

/-- Where `psync_fsfolder_resolve_path` is. -/
structure Resolving where
  cfolderid : ℤ
  permissions : BitVec 32
  flags : ℕ
  shareid : ℕ
deriving DecidableEq, Repr

/-- Where `psync_fsfolderid_by_path` is. -/
structure ById where
  cfolderid : ℤ
  flags : ℕ
deriving DecidableEq, Repr

/-- Where `psync_fsfolderidperm_by_path` is. -/
structure ByIdPerm where
  cfolderid : ℤ
  flags : ℕ
  permissions : BitVec 32
deriving DecidableEq, Repr

namespace View

variable (view : View)

/-- A component in the loop of `psync_fsfolder_resolve_path`. -/
def resolveStep (place : Resolving) (component : Name) : Except NoFolder Resolving := do
  let ename ← view.ename place.cfolderid place.flags component
  let row := view.folder place.cfolderid ename
  match view.folders place.cfolderid with
  | some folder =>
    match folder.findMkdir ename 0 with
    | some made =>
      if made.flags &&& flagInvisible ≠ 0 then .error .notFound
      else .ok { place with cfolderid := made.folderid, flags := made.flags }
    | none =>
      match row with
      | some row =>
        if (folder.findRmdir ename 0).isSome then .error .notFound
        else .ok {
          cfolderid := row.id
          permissions := place.permissions &&& row.permissions
          flags := row.flags
          shareid := view.checkUserid row.userid row.id place.shareid }
      | none => .error .notFound
  | none =>
    match row with
    | some row => .ok {
        cfolderid := row.id
        permissions := row.permissions
        flags := row.flags
        shareid := view.checkUserid row.userid row.id place.shareid }
    | none => .error .notFound

/-- A component in the loop of `psync_fsfolderid_by_path`. -/
def byPathStep (place : ById) (component : Name) : Except NoFolder ById := do
  let ename ← view.ename place.cfolderid place.flags component
  let row := view.folder place.cfolderid ename
  match view.folders place.cfolderid with
  | some folder =>
    match folder.findMkdir ename 0 with
    | some made => .ok ⟨made.folderid, made.flags⟩
    | none =>
      match row with
      | some row => if (folder.findRmdir ename 0).isSome then .error .notFound else .ok ⟨row.id, row.flags⟩
      | none => .error .notFound
  | none =>
    match row with
    | some row => .ok ⟨row.id, row.flags⟩
    | none => .error .notFound

/-- A component in the loop of `psync_fsfolderidperm_by_path`. -/
def permByPathStep (place : ByIdPerm) (component : Name) : Except NoFolder ByIdPerm := do
  let ename ← view.ename place.cfolderid place.flags component
  let row := view.folder place.cfolderid ename
  match view.folders place.cfolderid with
  | some folder =>
    match folder.findMkdir ename 0 with
    | some made => .ok { place with cfolderid := made.folderid, flags := made.flags }
    | none =>
      match row with
      | some row =>
        if (folder.findRmdir ename 0).isSome then .error .notFound else .ok ⟨row.id, row.flags, row.permissions⟩
      | none => .error .notFound
  | none =>
    match row with
    | some row => .ok ⟨row.id, row.flags, row.permissions⟩
    | none => .error .notFound

end View

/-- What is behind the slashes at the start. -/
def skipSlashes (path : Name) : Name := path.dropWhile (· = slash)

/-- The bytes before the first slash, and the rest with the slash. -/
def component (path : Name) : Name := path.takeWhile (· ≠ slash)
def behind (path : Name) : Name := path.dropWhile (· ≠ slash)

theorem length_behind_skipSlashes {path : Name} (more : skipSlashes path ≠ []) :
    (behind (skipSlashes path)).length < path.length := by
  have shorter : (skipSlashes path).length ≤ path.length := (List.dropWhile_sublist _).length_le
  have head : decide ((skipSlashes path).head more = slash) = false := List.head_dropWhile_not (· = slash) more
  obtain ⟨byte, rest, same⟩ := List.exists_cons_of_ne_nil more
  have other : byte ≠ slash := by simpa [same] using head
  have below : (behind (byte :: rest)).length ≤ rest.length := by
    rw [behind, List.dropWhile_cons_of_pos (by simpa using other)]
    exact (List.dropWhile_sublist _).length_le
  rw [same] at shorter ⊢
  rw [List.length_cons] at shorter
  omega

section Loops
variable {Place : Type}

/-- The loop of the two functions that walk to the end of the path. -/
def walk (step : Place → Name → Except NoFolder Place) (place : Place) (path : Name) : Except NoFolder Place :=
  if skipSlashes path = [] then .ok place
  else
    match step place (component (skipSlashes path)) with
    | .ok place => walk step place (behind (skipSlashes path))
    | .error reason => .error reason
termination_by path.length
decreasing_by
  apply length_behind_skipSlashes
  assumption

/-- The loop of the function that leaves the last component, which has no slash behind it. -/
def walkToLast (step : Place → Name → Except NoFolder Place) (place : Place) (path : Name) : Except NoFolder (Place × Name) :=
  if skipSlashes path = [] then .error .notFound
  else if slash ∉ skipSlashes path then .ok (place, skipSlashes path)
  else
    match step place (component (skipSlashes path)) with
    | .ok place => walkToLast step place (behind (skipSlashes path))
    | .error reason => .error reason
termination_by path.length
decreasing_by
  apply length_behind_skipSlashes
  assumption

end Loops

namespace View

variable (view : View)

/-- `psync_fsfolder_resolve_path` -/
def resolvePath (path : Name) : Except NoFolder FsPath :=
  if path.head? ≠ some slash then .error .notFound
  else
    match walkToLast view.resolveStep ⟨0, PSYNC_PERM_ALL, 0, 0⟩ path with
    | .ok (place, name) => view.retFolderData place.cfolderid name place.permissions place.flags place.shareid
    | .error reason => .error reason

/-- `psync_fsfolderid_by_path` -/
def folderidByPath (path : Name) : Except NoFolder ById :=
  if path.head? ≠ some slash then .error .notFound
  else walk view.byPathStep ⟨0, 0⟩ path

/-- `psync_fsfolderidperm_by_path` -/
def folderidpermByPath (path : Name) : Except NoFolder ByIdPerm :=
  if path.head? ≠ some slash then .error .notFound
  else walk view.permByPathStep ⟨0, 0, 0⟩ path

end View

end Pclsync.Fs
