import Pclsync.Fs.Resolve
import Pclsync.Fs.Session

/-! Extended attributes are rows with the number of an object. A file gets another number when a task for it is made, and again
when the task is done, and its rows are given the new number then. -/

namespace Pclsync.Fs

section Numbers

/-- What a number is when it is stored in 64 bits with a sign. -/
def int64 (number : ℤ) : ℤ := Int.bmod number (2 ^ 64)

/-- `UINT64_MAX` -/
abbrev uint64Max : ℕ := 2 ^ 64 - 1

/-- `OBJECT_MULTIPLIER` -/
abbrev objectMultiplier : ℤ := 8

abbrev objectFolder : ℤ := 0

abbrev objectFile : ℤ := 1

abbrev objectTask : ℤ := 2

abbrev objectStaticfile : ℤ := 3

def folderidToObjid (id : ℤ) : ℤ := int64 (id * objectMultiplier + objectFolder)

def fileidToObjid (id : ℤ) : ℤ := int64 (id * objectMultiplier + objectFile)

def taskidToObjid (id : ℤ) : ℤ := int64 (id * objectMultiplier + objectTask)

/-- The task ids of static files count down. -/
def staticTaskidToObjid (id : ℤ) : ℤ := int64 ((uint64Max - id + 1) * objectMultiplier + objectStaticfile)

end Numbers

section Table

/-- The table `fsxattr`. -/
abbrev Fsxattr := ℤ → Name → Option (List UInt8)

/-- `update_object_id`, which replaces the rows with the same name. -/
def updateObjectId (ooid noid : ℤ) (fsxattr : Fsxattr) : Fsxattr := fun objectid name =>
  if objectid = noid then (fsxattr ooid name).or (fsxattr noid name)
  else if objectid = ooid then none
  else fsxattr objectid name

/-- `psync_fs_task_to_file` -/
def psyncFsTaskToFile (taskid fileid : ℤ) : Fsxattr → Fsxattr := updateObjectId (taskidToObjid taskid) (fileidToObjid fileid)

/-- `psync_fs_task_to_folder` -/
def psyncFsTaskToFolder (taskid folderid : ℤ) : Fsxattr → Fsxattr := updateObjectId (taskidToObjid taskid) (folderidToObjid folderid)

/-- `psync_fs_static_to_task` -/
def psyncFsStaticToTask (statictaskid taskid : ℤ) : Fsxattr → Fsxattr :=
  updateObjectId (staticTaskidToObjid statictaskid) (taskidToObjid taskid)

/-- `psync_fs_file_to_task` -/
def psyncFsFileToTask (fileid taskid : ℤ) : Fsxattr → Fsxattr := updateObjectId (fileidToObjid fileid) (taskidToObjid taskid)

end Table

section Lookup

/-- What a path is resolved with besides the tasks and the rows. -/
structure Outside where
  permissions : ℤ → BitVec 32
  userid : ℤ → ℕ
  encode : ℤ → Name → Option Name
  sharedfolder : ℕ → ℤ → Option ℕ
  myUserid : ℕ
  fakePrefix : Name

/-- The drive and the tables. -/
structure Store where
  world : World
  drive : Drive
  outside : Outside
  fsxattr : Fsxattr

namespace Store

variable (store : Store)

def view : View where
  folder folderid name := (store.world.folder folderid name).map fun row =>
    ⟨row.id, store.outside.permissions row.id, row.flags, store.outside.userid row.id⟩
  folders folderid := (store.drive.state.lookup folderid).map (·.tasks)
  encode := store.outside.encode
  sharedfolder := store.outside.sharedfolder
  myUserid := store.outside.myUserid
  fakePrefix := store.outside.fakePrefix

/-- The number of a row that is not hidden by a pending task. No row has the number that stands for none. -/
def rowObjid (tasks : FolderTasks) (folderid : ℤ) (name : Name) : ℤ :=
  let folder := if (tasks.findRmdir name 0).isSome then none else store.world.folder folderid name
  let file := if (tasks.findUnlink name 0).isSome then none else store.world.file folderid name
  match folder, file with
  | some row, _ => folderidToObjid row.id
  | none, some row => fileidToObjid row.id
  | none, none => -1

/-- The number of a pending file. -/
def creatObjid (cr : Creat) : ℤ :=
  if cr.fileid > 0 then fileidToObjid cr.fileid
  else if cr.fileid = 0 then staticTaskidToObjid cr.taskid
  else
    match selectTask store.drive.tasks (-cr.fileid).toNat with
    | some row => if row.type = .creat then taskidToObjid (-cr.fileid) else fileidToObjid row.fileid
    | none => -1

/-- The part of `xattr_get_object_id_locked` behind the path. -/
def objectId (folderid : ℤ) (name : Name) : ℤ :=
  let tasks := store.drive.state.tasksOf folderid
  match tasks.findMkdir name 0, tasks.findCreat name 0 with
  | some made, _ => if made.folderid > 0 then folderidToObjid made.folderid else taskidToObjid (-made.folderid)
  | none, some cr => store.creatObjid cr
  | none, none => if folderid < 0 then -1 else store.rowObjid tasks folderid name

/-- `xattr_get_object_id_locked` -/
def xattrGetObjectIdLocked (path : Name) : ℤ :=
  if path = [slash] then 0
  else
    match store.view.resolvePath path with
    | .ok fspath => store.objectId fspath.folderid fspath.name
    | .error _ => -1

/-- The attributes that a path has. -/
def attributes (path : Name) : Name → Option (List UInt8) :=
  if store.xattrGetObjectIdLocked path = -1 then fun _ => none else store.fsxattr (store.xattrGetObjectIdLocked path)

end Store

end Lookup

section Start

/-- `.directory` -/
def directory : Name := [46, 100, 105, 114, 101, 99, 116, 111, 114, 121]

/-- `.pcloudicon.png` -/
def pcloudicon : Name := [46, 112, 99, 108, 111, 117, 100, 105, 99, 111, 110, 46, 112, 110, 103]

/-- Static files of the root are added, with what `psync_local_taskid` is before. -/
def addStatics (world : World) : List Name → ℕ → Drive → Drive
  | [], _, drive => drive
  | name :: names, taskid, drive =>
    let added := addLocalCreatStatic world drive 0 name taskid
    addStatics world names (if added.ret = .ok then taskid - 1 else taskid) added.drive

/-- `psync_fsstatic_add_files` -/
def fsstaticAddFiles (world : World) (drive : Drive) : Drive := addStatics world [directory, pcloudicon] uint64Max drive

/-- `psync_fs_init_once` -/
def fsInitOnce (world : World) (junk : Junk) (tasks : List Task) : Drive :=
  fsstaticAddFiles world ⟨(fstaskInit junk tasks).state, tasks.map resetStatus⟩

end Start

end Pclsync.Fs
