import Mathlib

/-! Folders with pending tasks. A folder has a tree of entries for each kind of
task, a count of all entries and a count of the references to it. It is in the
tree of folders as long as one of the counts is not zero. -/

namespace Pclsync.Fs

abbrev Name := List UInt8

/-- `strcmp` of two names. -/
def strcmp : Name → Name → Ordering
  | [], [] => .eq
  | [], _ :: _ => .lt
  | _ :: _, [] => .gt
  | byte :: rest, other :: others => (compare byte other).then (strcmp rest others)

/-- `psync_fstask_mkdir_t` -/
structure Mkdir where
  name : Name
  folderid : ℤ
  taskid : ℕ
  flags : ℕ
deriving DecidableEq, Repr

/-- `psync_fstask_rmdir_t` -/
structure Rmdir where
  name : Name
  folderid : ℤ
  taskid : ℕ
deriving DecidableEq, Repr

/-- `psync_fstask_creat_t` -/
structure Creat where
  name : Name
  fileid : ℤ
  rfileid : ℕ
  taskid : ℕ
deriving DecidableEq, Repr

/-- `psync_fstask_unlink_t` -/
structure Unlink where
  name : Name
  fileid : ℤ
  taskid : ℕ
deriving DecidableEq, Repr

/-- Where the trees find the name and the task id of an entry. -/
class Entry (α : Type) where
  name : α → Name
  taskid : α → ℕ

instance : Entry Mkdir := ⟨Mkdir.name, Mkdir.taskid⟩
instance : Entry Rmdir := ⟨Rmdir.name, Rmdir.taskid⟩
instance : Entry Creat := ⟨Creat.name, Creat.taskid⟩
instance : Entry Unlink := ⟨Unlink.name, Unlink.taskid⟩

section Trees
variable {α : Type} [Entry α]

/-- `psync_fstask_insert_into_tree`. A tree is the list of its entries in order;
an entry goes behind those of the same name. -/
def insertIntoTree (element : α) : List α → List α
  | [] => [element]
  | node :: rest =>
    if strcmp (Entry.name element) (Entry.name node) = .lt then element :: node :: rest
    else node :: insertIntoTree element rest

/-- An entry of that name, and of that task if one is given. -/
def wanted (name : Name) (taskid : ℕ) (node : α) : Bool :=
  Entry.name node = name ∧ (taskid = 0 ∨ Entry.taskid node = taskid)

/-- `psync_fstask_search_tree` -/
def searchTree (name : Name) (taskid : ℕ) (tree : List α) : Option α := tree.find? (wanted name taskid)

/-- `ptree_del` of the entry that the search finds. -/
def deleteFromTree (name : Name) (taskid : ℕ) (tree : List α) : List α := tree.eraseP (wanted name taskid)

end Trees

/-- The four trees of a folder. -/
structure FolderTasks where
  mkdirs : List Mkdir
  rmdirs : List Rmdir
  creats : List Creat
  unlinks : List Unlink
deriving DecidableEq, Repr

namespace FolderTasks

def empty : FolderTasks := ⟨[], [], [], []⟩

/-- How many entries there are. -/
def count (tasks : FolderTasks) : ℤ :=
  tasks.mkdirs.length + tasks.rmdirs.length + tasks.creats.length + tasks.unlinks.length

def findMkdir (tasks : FolderTasks) (name : Name) (taskid : ℕ) : Option Mkdir := searchTree name taskid tasks.mkdirs
def findRmdir (tasks : FolderTasks) (name : Name) (taskid : ℕ) : Option Rmdir := searchTree name taskid tasks.rmdirs
def findCreat (tasks : FolderTasks) (name : Name) (taskid : ℕ) : Option Creat := searchTree name taskid tasks.creats
def findUnlink (tasks : FolderTasks) (name : Name) (taskid : ℕ) : Option Unlink := searchTree name taskid tasks.unlinks

def addMkdir (task : Mkdir) (tasks : FolderTasks) : FolderTasks :=
  { tasks with mkdirs := insertIntoTree task tasks.mkdirs }
def addRmdir (task : Rmdir) (tasks : FolderTasks) : FolderTasks :=
  { tasks with rmdirs := insertIntoTree task tasks.rmdirs }
def addCreat (task : Creat) (tasks : FolderTasks) : FolderTasks :=
  { tasks with creats := insertIntoTree task tasks.creats }
def addUnlink (task : Unlink) (tasks : FolderTasks) : FolderTasks :=
  { tasks with unlinks := insertIntoTree task tasks.unlinks }

/-- An unlink at some place of its tree. -/
def addUnlinkAt (place : ℕ) (task : Unlink) (tasks : FolderTasks) : FolderTasks :=
  { tasks with unlinks := tasks.unlinks.take place ++ task :: tasks.unlinks.drop place }

/-! The found entry is taken out; without one nothing changes. -/

def delMkdir (name : Name) (taskid : ℕ) (tasks : FolderTasks) : FolderTasks :=
  { tasks with mkdirs := deleteFromTree name taskid tasks.mkdirs }
def delRmdir (name : Name) (taskid : ℕ) (tasks : FolderTasks) : FolderTasks :=
  { tasks with rmdirs := deleteFromTree name taskid tasks.rmdirs }
def delCreat (name : Name) (taskid : ℕ) (tasks : FolderTasks) : FolderTasks :=
  { tasks with creats := deleteFromTree name taskid tasks.creats }
def delUnlink (name : Name) (taskid : ℕ) (tasks : FolderTasks) : FolderTasks :=
  { tasks with unlinks := deleteFromTree name taskid tasks.unlinks }

end FolderTasks

/-- `psync_fstask_folder_t`. The address tells nodes apart; the counts are
unsigned in the source. -/
structure Folder where
  addr : ℕ
  folderid : ℤ
  tasks : FolderTasks
  taskscnt : ℤ
  refcnt : ℤ
deriving DecidableEq, Repr

namespace Folder

def addCount (count : ℤ) (folder : Folder) : Folder := { folder with taskscnt := folder.taskscnt + count }
def change (change : FolderTasks → FolderTasks) (folder : Folder) : Folder := { folder with tasks := change folder.tasks }

/-- Inserting an entry, and `taskscnt++`. -/
def put (add : FolderTasks → FolderTasks) (folder : Folder) : Folder := (folder.change add).addCount 1

def putMkdir (task : Mkdir) : Folder → Folder := put (·.addMkdir task)
def putRmdir (task : Rmdir) : Folder → Folder := put (·.addRmdir task)
def putCreat (task : Creat) : Folder → Folder := put (·.addCreat task)
def putUnlink (task : Unlink) : Folder → Folder := put (·.addUnlink task)
def putUnlinkAt (place : ℕ) (task : Unlink) : Folder → Folder := put (·.addUnlinkAt place task)

/-- If there is such an entry, taking it out, and `taskscnt--`. -/
def take (present : FolderTasks → Bool) (del : FolderTasks → FolderTasks) (folder : Folder) : Folder :=
  if present folder.tasks then (folder.change del).addCount (-1) else folder

def takeMkdir (name : Name) (taskid : ℕ) : Folder → Folder :=
  take (fun tasks => (tasks.findMkdir name taskid).isSome) (·.delMkdir name taskid)
def takeRmdir (name : Name) (taskid : ℕ) : Folder → Folder :=
  take (fun tasks => (tasks.findRmdir name taskid).isSome) (·.delRmdir name taskid)
def takeCreat (name : Name) (taskid : ℕ) : Folder → Folder :=
  take (fun tasks => (tasks.findCreat name taskid).isSome) (·.delCreat name taskid)
def takeUnlink (name : Name) (taskid : ℕ) : Folder → Folder :=
  take (fun tasks => (tasks.findUnlink name taskid).isSome) (·.delUnlink name taskid)

/-- What is read through a pointer that no folder has. -/
def missing (addr : ℕ) : Folder := ⟨addr, 0, .empty, 0, 0⟩

end Folder

/-- `psync_openfile_t`: the file, and the folder that it holds a reference to. -/
structure OpenFile where
  fileid : ℤ
  currentfolder : ℕ
deriving DecidableEq, Repr

/-- The tree `folders`, the open files, and what is not there any more: the next
address to be allocated and the folders that were freed. -/
structure Folders where
  folders : List Folder
  openfiles : List OpenFile
  next : ℕ
  freed : List Folder
deriving DecidableEq, Repr

namespace Folders

def empty : Folders := ⟨[], [], 0, []⟩

/-- The folder at an address. -/
def deref (state : Folders) (addr : ℕ) : Folder :=
  (state.folders.find? fun folder => folder.addr = addr).getD (.missing addr)

/-- The folder with an id. -/
def lookup (state : Folders) (folderid : ℤ) : Option Folder :=
  state.folders.find? fun folder => folder.folderid = folderid

def update (state : Folders) (addr : ℕ) (change : Folder → Folder) : Folders :=
  { state with folders := state.folders.map fun folder => if folder.addr = addr then change folder else folder }

/-- `psync_fstask_get_ref_locked` -/
def getRef (state : Folders) (addr : ℕ) : Folders :=
  state.update addr fun folder => { folder with refcnt := folder.refcnt + 1 }

/-- `psync_fstask_get_or_create_folder_tasks_locked` -/
def getOrCreate (state : Folders) (folderid : ℤ) : ℕ × Folders :=
  match state.lookup folderid with
  | some folder => (folder.addr, state.getRef folder.addr)
  | none => (state.next, { state with
      folders := state.folders ++ [⟨state.next, folderid, .empty, 0, 1⟩], next := state.next + 1 })

/-- `psync_fstask_get_folder_tasks_locked` -/
def get (state : Folders) (folderid : ℤ) : Option ℕ × Folders :=
  match state.lookup folderid with
  | some folder => (some folder.addr, state.getRef folder.addr)
  | none => (none, state)

/-- `psync_fstask_release_folder_tasks_locked` -/
def release (state : Folders) (addr : ℕ) : Folders :=
  let folder := state.deref addr
  let folder := { folder with refcnt := folder.refcnt - 1 }
  if folder.refcnt = 0 ∧ folder.taskscnt = 0 then { state with
    folders := state.folders.filter fun other => other.addr ≠ addr, freed := state.freed ++ [folder] }
  else state.update addr fun _ => folder

/-- Release of a folder that may not be there. -/
def releaseIf (state : Folders) : Option ℕ → Folders
  | none => state
  | some addr => state.release addr

/-- `psync_fs_rename_openfile_locked`, without the name. -/
def renameOpenfile (state : Folders) (fileid folderid : ℤ) : Folders :=
  match state.openfiles.find? fun fl => fl.fileid = fileid with
  | none => state
  | some fl =>
    if (state.deref fl.currentfolder).folderid = folderid then state
    else
      let (addr, state) := (state.release fl.currentfolder).getOrCreate folderid
      { state with openfiles := ⟨fileid, addr⟩ :: state.openfiles.eraseP fun fl => fl.fileid = fileid }

/-- A file is opened in a folder and keeps a reference to it. -/
def openFile (state : Folders) (fileid folderid : ℤ) : Folders :=
  let (addr, state) := state.getOrCreate folderid
  { state with openfiles := ⟨fileid, addr⟩ :: state.openfiles }

/-- An open file is closed for good. -/
def closeFile (state : Folders) (fl : OpenFile) : Folders :=
  { state with openfiles := state.openfiles.erase fl }.release fl.currentfolder

/-- The tasks of a folder by its id. -/
def tasksOf (state : Folders) (folderid : ℤ) : FolderTasks :=
  match state.lookup folderid with
  | some folder => folder.tasks
  | none => .empty

end Folders

end Pclsync.Fs
