import Pclsync.Fs.Tasks

/-! Which tasks a renamed folder or file waits for. The dependencies are written with the rows of the rename. -/

namespace Pclsync.Fs.Depend

/-- The table `fstaskdepend`. -/
abbrev Depends := List (ℕ × ℕ)

section Writing

variable (tasks : List Task) (depends : Depends)

/-- `psync_fstask_depend` -/
def depend (taskid dependontaskid : ℕ) : Depends := depends.insert (taskid, dependontaskid)

/-- The tasks that are selected, except some. -/
def dependOnRows (taskid : ℕ) (except : List ℕ) (folderid : ℤ) (name : Name) : Depends :=
  (tasks.filter fun task => task.folderid = folderid ∧ task.text1 = name ∧ task.id ∉ except ∧ task.status ≠ 3).foldl
    (fun depends task => depend depends taskid task.id) depends

/-- `psync_fstask_depend_on_name` -/
def dependOnName (taskid : ℕ) (folderid : ℤ) (name : Name) : Depends := dependOnRows tasks depends taskid [taskid] folderid name

/-- `psync_fstask_depend_on_name2` -/
def dependOnName2 (taskid taskid2 : ℕ) (folderid : ℤ) (name : Name) : Depends :=
  dependOnRows tasks depends taskid [taskid, taskid2] folderid name

def dependIf (condition : Prop) [Decidable condition] (taskid dependontaskid : ℕ) : Depends :=
  if condition then depend depends taskid dependontaskid else depends

end Writing

/-- A rename and what it meets. -/
structure Rename where
  world : World
  drive : Drive
  depends : Depends
  id : ℤ
  parentfolderid : ℤ
  name : Name
  toFolderid : ℤ
  newName : Name

namespace Rename

variable (r : Rename)

/-- The tasks of the folder that is left. -/
def parentTasks : FolderTasks :=
  let (folder, state) := r.drive.state.getOrCreate r.parentfolderid
  (state.deref folder).tasks

section Folder

variable (targetflags : ℕ)

/-- The tasks of the folder that is entered. -/
def targetTasks : FolderTasks :=
  let (folder, state) := r.drive.state.get r.toFolderid
  tasksAt state folder

/-- The row of `psync_fstask_delete_folder_if_ex`, if there is one. -/
def removal : List Task := (deleteFolderIfEx r.world r.drive r.drive.state r.toFolderid r.newName r.id).1

def ftaskid : ℕ := insertid (r.drive.tasks ++ r.removal)

def ttaskid : ℕ := r.ftaskid + 1

/-- The rows when the dependencies are written. -/
def folderRows : List Task :=
  let tasks := r.drive.tasks ++ r.removal ++ [{
      id := r.ftaskid, type := .renfolderFrom, status := 10, folderid := r.parentfolderid, sfolderid := r.id, text1 := r.name },
    { id := r.ttaskid, type := .renfolderTo, status := 0, folderid := r.toFolderid, sfolderid := r.id, text1 := r.newName,
      int1 := r.ftaskid, int2 := targetflags }]
  if r.id < 0 then setSfolderid r.toFolderid (-r.id) tasks else tasks

/-- What `psync_fstask_delete_folder_if_ex` writes for its row. -/
def removalDepends : Depends :=
  r.removal.foldl (fun depends row =>
    let depends := (r.targetTasks.findMkdir r.newName 0).elim depends fun made =>
      dependIf depends (made.taskid ≠ 0) row.id made.taskid
    dependIf depends (row.sfolderid < 0) row.id (-row.sfolderid).toNat) r.depends

/-- The dependencies that `psync_fstask_rename_folder` leaves. -/
def folderDepends : Depends :=
  let depends := dependIf r.removalDepends (r.id < 0) r.ttaskid (-r.id).toNat
  let depends := r.removal.foldl (fun depends row => depend depends r.ttaskid row.id) depends
  let depends := dependIf depends (r.parentfolderid < 0) r.ttaskid (-r.parentfolderid).toNat
  let depends := dependIf depends (r.toFolderid < 0 ∧ r.toFolderid ≠ r.parentfolderid) r.ttaskid (-r.toFolderid).toNat
  let depends := dependOnName2 (r.folderRows targetflags) depends r.ttaskid r.ftaskid r.parentfolderid r.name
  -- the folder is the one that moves, not the one that it moves to
  let depends := dependOnName (r.folderRows targetflags) depends r.ttaskid r.id r.newName
  (r.parentTasks.findMkdir r.name 0).elim depends fun made => depend depends r.ttaskid made.taskid

end Folder

section File

def fileFtaskid : ℕ := insertid r.drive.tasks

def fileTtaskid : ℕ := r.fileFtaskid + 1

/-- The rows when the dependencies are written. -/
def fileRows : List Task :=
  let tasks := r.drive.tasks ++ [{
      id := r.fileFtaskid, type := .renfileFrom, status := 10, folderid := r.parentfolderid, fileid := r.id, text1 := r.name },
    { id := r.fileTtaskid, type := .renfileTo, status := 0, folderid := r.toFolderid, fileid := r.id, text1 := r.newName,
      int1 := r.fileFtaskid, int2 := rfileidOf (r.parentTasks.findCreat r.name 0) }]
  if r.id < 0 then setSfolderid r.toFolderid (-r.id) tasks else tasks

/-- The dependencies that `psync_fstask_rename_file` leaves. -/
def fileDepends : Depends :=
  let depends := dependIf r.depends (r.id < 0) r.fileTtaskid (-r.id).toNat
  let depends := dependIf depends (r.parentfolderid < 0) r.fileTtaskid (-r.parentfolderid).toNat
  let depends := dependIf depends (r.toFolderid < 0 ∧ r.toFolderid ≠ r.parentfolderid) r.fileTtaskid (-r.toFolderid).toNat
  let depends := dependOnName2 r.fileRows depends r.fileTtaskid r.fileFtaskid r.parentfolderid r.name
  let depends := dependOnName r.fileRows depends r.fileTtaskid r.toFolderid r.newName
  (r.parentTasks.findCreat r.name 0).elim depends fun cr => depend depends r.fileTtaskid cr.taskid

end File

end Rename

end Pclsync.Fs.Depend
