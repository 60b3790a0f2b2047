import Pclsync.Fs.Tasks

/-! What happens to the tasks of a folder when the upload is done with one of
them. The entry goes, or gets the id that the server gave. -/

namespace Pclsync.Fs

/-- `psync_fstask_walk_tree` for a mkdir, and the new id for what it finds. -/
def setMkdirFolderid (wanted folderid : ℤ) : List Mkdir → List Mkdir
  | [] => []
  | mk :: rest =>
    if mk.folderid = wanted then { mk with folderid := folderid } :: rest
    else mk :: setMkdirFolderid wanted folderid rest

/-- `psync_fstask_walk_tree` for a creat, and the new id for what it finds. -/
def setCreatFileid (wanted fileid : ℤ) : List Creat → List Creat
  | [] => []
  | cr :: rest =>
    if cr.fileid = wanted then { cr with fileid := fileid } :: rest else cr :: setCreatFileid wanted fileid rest

/-- `SELECT ... FROM fstask WHERE id=?` -/
def selectTask (tasks : List Task) (taskid : ℕ) : Option Task := tasks.find? fun task => task.id = taskid

/-- Get the folder if it is there, work on it, release it. -/
def onFolderIf (state : Folders) (folderid : ℤ) (change : Folder → Folder) : Folders :=
  match state.get folderid with
  | (some folder, state) => (state.update folder change).release folder
  | (none, state) => state

/-- The folder of a new directory gets its id from the server: it is taken out of
the tree, and released in its new place. -/
def rekey (state : Folders) (folderid newFolderid : ℤ) : Folders :=
  match state.get folderid with
  | (some folder, state) => (state.update folder fun folder => { folder with folderid := newFolderid }).release folder
  | (none, state) => state

variable (drive : Drive)

/-- `psync_fstask_folder_created` -/
def folderCreated (parentfolderid : ℤ) (taskid : ℕ) (folderid : ℤ) (name : Name) : Drive :=
  let mk := match drive.state.lookup parentfolderid with
    | some folder => folder.tasks.findMkdir name taskid
    | none => none
  let state := onFolderIf drive.state parentfolderid (·.takeMkdir name taskid)
  let state := if mk.isSome then state
    else match selectTask drive.tasks taskid with
      | some row => onFolderIf state row.sfolderid (·.change fun tasks =>
          { tasks with mkdirs := setMkdirFolderid (-(taskid : ℤ)) folderid tasks.mkdirs })
      | none => state
  { drive with state := rekey state (-(taskid : ℤ)) folderid }

/-- `psync_fstask_folder_deleted` -/
def folderDeleted (parentfolderid : ℤ) (taskid : ℕ) (name : Name) : Drive :=
  { drive with state := onFolderIf drive.state parentfolderid (·.takeRmdir name taskid) }

/-- `psync_fstask_look_for_creat_in_db` -/
def lookForCreatInDb (taskid : ℕ) (fileid : ℤ) (state : Folders) : Folders :=
  match selectTask drive.tasks taskid with
  | some row => onFolderIf state row.sfolderid (·.change fun tasks =>
      { tasks with creats := setCreatFileid (-(taskid : ℤ)) fileid tasks.creats })
  | none => state

/-- `psync_fstask_file_created` -/
def fileCreated (parentfolderid : ℤ) (taskid : ℕ) (name : Name) (fileid : ℤ) : Drive :=
  let cr := match drive.state.lookup parentfolderid with
    | some folder => folder.tasks.findCreat name taskid
    | none => none
  let state := onFolderIf drive.state parentfolderid fun folder =>
    (folder.takeCreat name taskid).takeUnlink name taskid
  { drive with state := if cr.isSome then state else lookForCreatInDb drive taskid fileid state }

/-- `psync_fstask_file_modified` -/
def fileModified (parentfolderid : ℤ) (taskid : ℕ) (name : Name) (fileid : ℤ) : Drive :=
  fileCreated drive parentfolderid taskid name fileid

/-- `psync_fstask_file_deleted` -/
def fileDeleted (parentfolderid : ℤ) (taskid : ℕ) (name : Name) : Drive :=
  { drive with state := onFolderIf drive.state parentfolderid (·.takeUnlink name taskid) }

/-- `psync_fstask_file_renamed` -/
def fileRenamed (folderid : ℤ) (taskid : ℕ) (name : Name) (frtaskid : ℕ) : Drive :=
  let state := onFolderIf drive.state folderid fun folder => (folder.takeUnlink name taskid).takeCreat name taskid
  let state := match selectTask drive.tasks frtaskid with
    | some row => onFolderIf state row.folderid (·.takeUnlink row.text1 row.id)
    | none => state
  ⟨state, drive.tasks.filter fun task => task.id ≠ frtaskid⟩

/-- `psync_fstask_folder_renamed` -/
def folderRenamed (parentfolderid : ℤ) (taskid : ℕ) (name : Name) (frtaskid : ℕ) : Drive :=
  let state := onFolderIf drive.state parentfolderid fun folder =>
    (folder.takeMkdir name taskid).takeRmdir name taskid
  let state := match selectTask drive.tasks frtaskid with
    | some row => onFolderIf state row.folderid (·.takeRmdir row.text1 row.id)
    | none => state
  ⟨state, drive.tasks.filter fun task => task.id ≠ frtaskid⟩

end Pclsync.Fs
