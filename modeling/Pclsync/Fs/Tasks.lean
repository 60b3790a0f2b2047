import Pclsync.Fs.Folder

/-! Live operations on the drive. Each one changes the tasks of the folder it works
in and stores rows of `fstask` from which they are rebuilt after a restart. Which
tasks wait for which, and the upload itself, are left out. -/

namespace Pclsync.Fs

/-- `PSYNC_FS_TASK_*` -/
inductive TaskType where
  | mkdir
  | rmdir
  | creat
  | unlink
  | renfileFrom
  | renfileTo
  | renfolderFrom
  | renfolderTo
  | modify
  | unSetRev
  | setFileMod
  | setFileCr
deriving DecidableEq, Repr

/-- A row of `fstask`. A number that was never set reads as zero. -/
structure Task where
  id : ℕ
  type : TaskType
  status : ℕ
  folderid : ℤ
  sfolderid : ℤ := 0
  fileid : ℤ := 0
  text1 : Name
  text2 : Option (List UInt8) := none
  int1 : ℤ := 0
  int2 : ℤ := 0
deriving DecidableEq, Repr

/-- The id that the next row gets: one more than the largest, which is the last. -/
def insertid (tasks : List Task) : ℕ :=
  match tasks.getLast? with
  | none => 1
  | some task => task.id + 1

/-- A row of `folder`. -/
structure FolderRow where
  id : ℤ
  parentfolderid : ℤ
  name : Name
  flags : ℕ
deriving DecidableEq, Repr

/-- A row of `file`. -/
structure FileRow where
  id : ℤ
  parentfolderid : ℤ
  name : Name
deriving DecidableEq, Repr

/-- What an operation meets outside the tasks: the tables that follow the server,
the cache of former places of files, the uploads that run, a new key or none, the
clock, and whether its transaction commits. -/
structure World where
  folders : List FolderRow
  files : List FileRow
  history : ℤ → Option (ℤ × Name)
  inUploadBatch : ℤ → Bool
  newKey : Option (List UInt8)
  time : ℕ
  commits : Bool

namespace World

/-- `SELECT id, flags FROM folder WHERE parentfolderid=? AND name=?` -/
def folder (world : World) (parentfolderid : ℤ) (name : Name) : Option FolderRow :=
  world.folders.find? fun row => row.parentfolderid = parentfolderid ∧ row.name = name

/-- `SELECT id FROM folder WHERE parentfolderid=? AND id != ? AND name=?` -/
def otherFolder (world : World) (parentfolderid id : ℤ) (name : Name) : Option FolderRow :=
  world.folders.find? fun row => row.parentfolderid = parentfolderid ∧ row.id ≠ id ∧ row.name = name

/-- `SELECT id FROM file WHERE parentfolderid=? AND name=?` -/
def file (world : World) (parentfolderid : ℤ) (name : Name) : Option FileRow :=
  world.files.find? fun row => row.parentfolderid = parentfolderid ∧ row.name = name

/-- `SELECT name FROM folder WHERE parentfolderid=?` -/
def folderNames (world : World) (parentfolderid : ℤ) : List Name :=
  (world.folders.filter fun row => row.parentfolderid = parentfolderid).map (·.name)

/-- `SELECT name FROM file WHERE parentfolderid=?` -/
def fileNames (world : World) (parentfolderid : ℤ) : List Name :=
  (world.files.filter fun row => row.parentfolderid = parentfolderid).map (·.name)

end World

/-- The folders in memory and the rows in the database. -/
structure Drive where
  state : Folders
  tasks : List Task
deriving DecidableEq, Repr

/-- No pending task and no open file. -/
def Drive.empty : Drive := ⟨.empty, []⟩

/-- Why an operation fails. -/
inductive Error where
  | exist
  | access
  | noEntry
  | notEmpty
  | crypto
  | io
deriving DecidableEq, Repr

/-- What an operation returns. A failed assertion or a null pointer ends the
process. -/
inductive Ret where
  | ok
  | error (error : Error)
  | crash
deriving DecidableEq, Repr

structure Outcome where
  drive : Drive
  ret : Ret
deriving DecidableEq, Repr

/-- `PSYNC_FOLDER_FLAG_ENCRYPTED` -/
abbrev flagEncrypted : ℕ := 1
/-- `PSYNC_FOLDER_FLAG_INVISIBLE` -/
abbrev flagInvisible : ℕ := 2

variable (world : World) (drive : Drive)

/-- Return without new rows. -/
def back (state : Folders) (ret : Ret) : Outcome := ⟨{ drive with state := state }, ret⟩

/-- `psync_fstask_mkdir` -/
def mkdir (folderid : ℤ) (name : Name) (folderflags : ℕ) : Outcome :=
  let (folder, state) := drive.state.getOrCreate folderid
  let tasks := (state.deref folder).tasks
  if folderid ≥ 0 ∧ (world.folder folderid name).isSome ∧ (tasks.findRmdir name 0).isNone then
    back drive (state.release folder) (.error .exist)
  else match tasks.findMkdir name 0 with
    | some task =>
      back drive (state.release folder) (.error (if task.flags &&& flagInvisible ≠ 0 then .access else .exist))
    | none =>
      let encrypted := folderflags &&& flagEncrypted ≠ 0
      if encrypted ∧ world.newKey.isNone then back drive (state.release folder) (.error .crypto)
      else if ¬world.commits then back drive (state.release folder) (.error .io)
      else
        let taskid := insertid drive.tasks
        let row : Task := {
          id := taskid, type := .mkdir, status := 0, folderid := folderid, sfolderid := folderid, text1 := name,
          text2 := if encrypted then world.newKey else none, int1 := world.time }
        let task : Mkdir := ⟨name, -(taskid : ℤ), taskid, folderflags &&& flagEncrypted⟩
        ⟨⟨(state.update folder (·.putMkdir task)).release folder, drive.tasks ++ [row]⟩, .ok⟩

/-- The tasks of a folder that may not be there. -/
def tasksAt (state : Folders) (folder : Option ℕ) : FolderTasks :=
  match folder with
  | some addr => (state.deref addr).tasks
  | none => .empty

/-- Nothing is in the folder, as `psync_fstask_rmdir` and `psync_fstask_can_rmdir` check. -/
def folderEmpty (tasks : FolderTasks) (folderid : ℤ) : Prop :=
  tasks.creats = [] ∧ tasks.mkdirs = [] ∧ (folderid ≥ 0 →
    (∀ name ∈ world.fileNames folderid, (tasks.findUnlink name 0).isSome) ∧
    (∀ name ∈ world.folderNames folderid, (tasks.findRmdir name 0).isSome))

instance (tasks : FolderTasks) (folderid : ℤ) : Decidable (folderEmpty world tasks folderid) := by
  unfold folderEmpty
  infer_instance

/-- The folder of the server that a removal is about. -/
def folderToRemove (tasks : FolderTasks) (folderid : ℤ) (parentflags : ℕ) (name : Name) : Except Error ℤ :=
  match world.folder folderid name with
  | none => .error .noEntry
  | some row =>
    if (tasks.findRmdir name 0).isSome then .error .noEntry
    else if row.flags &&& flagEncrypted ≠ 0 ∧ parentflags &&& flagEncrypted = 0 then .error .access
    else .ok row.id

/-- `psync_fstask_can_rmdir`. A folder without tasks and without such a row is
released although it is not there. -/
def canRmdir (folderid : ℤ) (parentflags : ℕ) (name : Name) : Outcome :=
  let (folder, state) := drive.state.get folderid
  let tasks := tasksAt state folder
  let found : Except Error ℤ := match tasks.findMkdir name 0 with
    | some mk => .ok mk.folderid
    | none => folderToRemove world tasks folderid parentflags name
  match found with
  | .error .noEntry =>
    match folder with
    | some folder => back drive (state.release folder) (.error .noEntry)
    | none => back drive state .crash
  | .error error => back drive (state.releaseIf folder) (.error error)
  | .ok cfolderid =>
    let (cfolder, state) := state.get cfolderid
    back drive ((state.releaseIf cfolder).releaseIf folder)
      (if folderEmpty world (tasksAt state cfolder) cfolderid then .ok else .error .notEmpty)

/-- `psync_fstask_rmdir` -/
def rmdir (folderid : ℤ) (parentflags : ℕ) (name : Name) : Outcome :=
  let (folder, state) := drive.state.getOrCreate folderid
  let tasks := (state.deref folder).tasks
  let mk := tasks.findMkdir name 0
  let found : Except Error ℤ := match mk with
    | some mk => .ok mk.folderid
    | none => folderToRemove world tasks folderid parentflags name
  match found with
  | .error error => back drive (state.release folder) (.error error)
  | .ok cfolderid =>
    -- the count goes down before the folder is known to be empty
    let state := if mk.isSome then state.update folder (·.addCount (-1)) else state
    let (cfolder, state) := state.get cfolderid
    if ¬folderEmpty world (tasksAt state cfolder) cfolderid then
      back drive ((state.releaseIf cfolder).release folder) (.error .notEmpty)
    else
      let state := if mk.isSome then state.update folder (·.change (·.delMkdir name 0)) else state
      let state := state.releaseIf cfolder
      if ¬world.commits then back drive (state.release folder) (.error .io)
      else
        let taskid := insertid drive.tasks
        let row : Task := {
          id := taskid, type := .rmdir, status := 0, folderid := folderid, sfolderid := cfolderid, text1 := name }
        ⟨⟨(state.update folder (·.putRmdir ⟨name, cfolderid, taskid⟩)).release folder, drive.tasks ++ [row]⟩, .ok⟩

/-- `psync_fstask_add_creat`, with the reference that its caller holds meanwhile. -/
def addCreat (folderid : ℤ) (name : Name) (fileid : ℤ) (encsymkey : Option (List UInt8)) : Outcome :=
  let (folder, state) := drive.state.getOrCreate folderid
  if fileid < 0 then back drive state .crash
  else if ¬world.commits then back drive (state.release folder) (.error .io)
  else
    let taskid := insertid drive.tasks
    let row : Task := {
      id := taskid, type := .creat, status := 1, folderid := folderid, fileid := fileid, sfolderid := folderid,
      text1 := name, text2 := encsymkey }
    let un : Unlink := ⟨name, -(taskid : ℤ), taskid⟩
    let task : Creat := ⟨name, -(taskid : ℤ), fileid.toNat, taskid⟩
    ⟨⟨(state.update folder fun folder => (folder.putUnlink un).putCreat task).release folder,
      drive.tasks ++ [row]⟩, .ok⟩

/-- `psync_fstask_add_modified_file`, with the reference that its caller holds
meanwhile. -/
def addModifiedFile (folderid : ℤ) (name : Name) (fileid : ℤ) (hash : ℕ) (encsymkey : Option (List UInt8)) :
    Outcome :=
  let (folder, state) := drive.state.getOrCreate folderid
  if fileid ≤ 0 then back drive state .crash
  else
    let state := state.update folder (·.takeCreat name 0)
    if ¬world.commits then back drive (state.release folder) (.error .io)
    else
      let taskid := insertid drive.tasks
      let row : Task := {
        id := taskid, type := .modify, status := 1, folderid := folderid, fileid := fileid, sfolderid := folderid,
        text1 := name, text2 := encsymkey, int2 := hash }
      let un : Unlink := ⟨name, fileid, taskid⟩
      let task : Creat := ⟨name, -(taskid : ℤ), fileid.toNat, taskid⟩
      ⟨⟨(state.update folder fun folder => (folder.putUnlink un).putCreat task).release folder,
        drive.tasks ++ [row]⟩, .ok⟩

/-- `psync_fstask_add_local_creat_static`, with the id that `psync_local_taskid` has. -/
def addLocalCreatStatic (folderid : ℤ) (name : Name) (taskid : ℕ) : Outcome :=
  let (folder, state) := drive.state.getOrCreate folderid
  let tasks := (state.deref folder).tasks
  if (tasks.findCreat name 0).isSome then back drive (state.release folder) (.error .exist)
  else if folderid ≥ 0 ∧ (tasks.findUnlink name 0).isNone ∧ (world.file folderid name).isSome then
    back drive (state.release folder) (.error .exist)
  else
    back drive ((state.update folder fun folder =>
      (folder.putUnlink ⟨name, 0, taskid⟩).putCreat ⟨name, 0, 0, taskid⟩).release folder) .ok

/-- `get_file_at_old_location`: the file that is now where `fileid` was moved from. -/
def getFileAtOldLocation (state : Folders) (fileid : ℤ) : ℤ × Folders :=
  if fileid < 0 then (0, state)
  else match world.history fileid with
    | none => (0, state)
    | some (folderid, name) =>
      let (folder, held) := state.get folderid
      let tasks := tasksAt held folder
      let state := held.releaseIf folder
      match tasks.findCreat name 0 with
      | some cr => (cr.fileid, state)
      | none =>
        if (tasks.findUnlink name 0).isSome then (0, state)
        else match world.file folderid name with
          | some row => (row.id, state)
          | none => (0, state)

/-- `psync_fstask_stop_and_delete_file`. The row of a file that is still open is
marked by `psync_fs_mark_openfile_deleted`. -/
def stopAndDeleteFile (openfiles : List OpenFile) (fileid : ℤ) (tasks : List Task) : List Task :=
  if world.inUploadBatch (-fileid) then tasks
  else tasks.map fun task =>
    if task.id = -fileid then
      { task with status := if openfiles.any fun fl => fl.fileid = fileid then 12 else 11 }
    else if task.fileid = fileid ∧ task.status ≠ 10 then { task with status := 11 }
    else task

/-- `psync_fstask_can_unlink` -/
def canUnlink (folderid : ℤ) (name : Name) : Outcome :=
  let (folder, state) := drive.state.get folderid
  let tasks := tasksAt state folder
  let ret :=
    if (tasks.findCreat name 0).isSome then .ok
    else if (world.file folderid name).isNone ∨ (tasks.findUnlink name 0).isSome then .error .noEntry
    else .ok
  back drive (state.releaseIf folder) ret

/-- `psync_fstask_unlink` after the file is known. -/
def unlinkFile (folder : ℕ) (state : Folders) (folderid : ℤ) (name : Name) (fileid : ℤ) (rfileid : ℕ) : Outcome :=
  let (revoffileid, state) := getFileAtOldLocation world state fileid
  if ¬world.commits then back drive (state.release folder) (.error .io)
  else
    let tasks := if fileid < 0 then stopAndDeleteFile world state.openfiles fileid drive.tasks else drive.tasks
    let taskid := insertid tasks
    let row : Task :=
      if revoffileid ≠ 0 then {
        id := taskid, type := .unSetRev, status := 0, folderid := folderid, fileid := revoffileid, int1 := fileid,
        text1 := name, int2 := rfileid }
      else {
        id := taskid, type := .unlink, status := if fileid < 0 then 11 else 0, folderid := folderid,
        fileid := fileid, text1 := name, int2 := rfileid }
    ⟨⟨(state.update folder (·.putUnlink ⟨name, fileid, taskid⟩)).release folder, tasks ++ [row]⟩, .ok⟩

/-- `psync_fstask_unlink` -/
def unlink (folderid : ℤ) (name : Name) : Outcome :=
  let (folder, state) := drive.state.getOrCreate folderid
  let tasks := (state.deref folder).tasks
  match tasks.findCreat name 0 with
  | none =>
    match world.file folderid name with
    | none => back drive (state.release folder) (.error .noEntry)
    | some row =>
      if (tasks.findUnlink name 0).isSome then back drive (state.release folder) (.error .noEntry)
      else unlinkFile world drive folder state folderid name row.id 0
  | some cr =>
    -- a static file has no row
    if cr.fileid = 0 then
      back drive ((state.update folder fun folder =>
        (folder.takeUnlink cr.name cr.taskid).takeCreat name 0).release folder) .ok
    else unlinkFile world drive folder (state.update folder (·.takeCreat name 0)) folderid name cr.fileid cr.rfileid

/-- `UPDATE fstask SET sfolderid=? WHERE id=?` -/
def setSfolderid (sfolderid id : ℤ) (tasks : List Task) : List Task :=
  tasks.map fun task => if task.id = id then { task with sfolderid := sfolderid } else task

/-- The file on the server that a pending file replaces. -/
def rfileidOf (pending : Option Creat) : ℕ :=
  match pending with
  | some cr => cr.rfileid
  | none => 0

/-- A pending file that another one is renamed over is not uploaded any more. -/
def stopReplaced (openfiles : List OpenFile) (replaced : Option Creat) (tasks : List Task) : List Task :=
  match replaced with
  | some cr => if cr.fileid < 0 then stopAndDeleteFile world openfiles cr.fileid tasks else tasks
  | none => tasks

/-- `psync_fstask_rename_file` -/
def renameFile (fileid parentfolderid : ℤ) (name : Name) (toFolderid : ℤ) (newName : Name) : Outcome :=
  let (folder, state) := drive.state.getOrCreate parentfolderid
  let rfileid := rfileidOf ((state.deref folder).tasks.findCreat name 0)
  if ¬world.commits then back drive (state.release folder) (.error .io)
  else
    let ftaskid := insertid drive.tasks
    let ttaskid := ftaskid + 1
    let source : Task := {
      id := ftaskid, type := .renfileFrom, status := 10, folderid := parentfolderid, fileid := fileid,
      text1 := name }
    let target : Task := {
      id := ttaskid, type := .renfileTo, status := 0, folderid := toFolderid, fileid := fileid, text1 := newName,
      int1 := ftaskid, int2 := rfileid }
    let tasks := drive.tasks ++ [source, target]
    let tasks := if fileid < 0 then setSfolderid toFolderid (-fileid) tasks else tasks
    let state := (state.update folder (·.takeCreat name 0)).renameOpenfile fileid toFolderid
    let state := (state.update folder (·.putUnlink ⟨name, fileid, ftaskid⟩)).release folder
    let (folder, state) := state.getOrCreate toFolderid
    let tasks := stopReplaced world state.openfiles ((state.deref folder).tasks.findCreat newName 0) tasks
    ⟨⟨(state.update folder fun folder => ((folder.takeCreat newName 0).putUnlink ⟨newName, fileid, ttaskid⟩).putCreat
      ⟨newName, fileid, rfileid, ttaskid⟩).release folder, tasks⟩, .ok⟩

/-- `psync_fstask_delete_folder_if_ex`: the row that removes a folder of that name. -/
def deleteFolderIfEx (state : Folders) (folderid : ℤ) (name : Name) (fromFid : ℤ) : List Task × Folders :=
  let (folder, held) := state.get folderid
  let tasks := tasksAt held folder
  let state := held.releaseIf folder
  let row (cfolderid : ℤ) : List Task := [{
    id := insertid drive.tasks, type := .rmdir, status := 0, folderid := folderid, sfolderid := cfolderid,
    text1 := name }]
  let query : List Task :=
    if folderid < 0 then []
    else match world.otherFolder folderid fromFid name with
      | some other => if other.id = 0 then [] else row other.id
      | none => []
  match tasks.findMkdir name 0 with
  | some mk => (if mk.folderid = 0 then query else row mk.folderid, state)
  | none => (if (tasks.findRmdir name 0).isSome then [] else query, state)

/-- `psync_fstask_rename_folder` -/
def renameFolder (folderid parentfolderid : ℤ) (name : Name) (toFolderid : ℤ) (newName : Name)
    (targetflags : ℕ) : Outcome :=
  let (removal, state) := deleteFolderIfEx world drive drive.state toFolderid newName folderid
  let tasks := drive.tasks ++ removal
  let ftaskid := insertid tasks
  let ttaskid := ftaskid + 1
  let source : Task := {
    id := ftaskid, type := .renfolderFrom, status := 10, folderid := parentfolderid, sfolderid := folderid,
    text1 := name }
  let target : Task := {
    id := ttaskid, type := .renfolderTo, status := 0, folderid := toFolderid, sfolderid := folderid,
    text1 := newName, int1 := ftaskid, int2 := targetflags }
  let tasks := tasks ++ [source, target]
  let tasks := if folderid < 0 then setSfolderid toFolderid (-folderid) tasks else tasks
  let (folder, state) := state.getOrCreate parentfolderid
  if ¬world.commits then back drive (state.release folder) (.error .io)
  else
    let state := (state.update folder fun folder =>
      (folder.takeMkdir name 0).putRmdir ⟨name, folderid, ftaskid⟩).release folder
    let (folder, state) := state.getOrCreate toFolderid
    -- the entry that goes is the one with the old name
    ⟨⟨(state.update folder fun folder => ((folder.takeMkdir name 0).putRmdir ⟨newName, folderid, ttaskid⟩).putMkdir
      ⟨newName, folderid, ttaskid, targetflags⟩).release folder, tasks⟩, .ok⟩

end Pclsync.Fs
