import Pclsync.Fs.Completion
import Pclsync.Fs.Init

/-! Sessions on the drive: live operations with their results, the checks of the
file system, open files, and the reports of the upload. -/

namespace Pclsync.Fs

/-- A live operation with its arguments. -/
inductive Op where
  | mkdir (folderid : ℤ) (name : Name) (folderflags : ℕ)
  | rmdir (folderid : ℤ) (parentflags : ℕ) (name : Name)
  | creat (folderid : ℤ) (name : Name) (fileid : ℤ) (encsymkey : Option (List UInt8))
  | modify (folderid : ℤ) (name : Name) (fileid : ℤ) (hash : ℕ) (encsymkey : Option (List UInt8))
  | unlink (folderid : ℤ) (name : Name)
  | renameFile (fileid parentfolderid : ℤ) (name : Name) (toFolderid : ℤ) (newName : Name)
  | renameFolder (folderid parentfolderid : ℤ) (name : Name) (toFolderid : ℤ) (newName : Name) (targetflags : ℕ)
deriving DecidableEq, Repr

def runOp (world : World) (drive : Drive) : Op → Outcome
  | .mkdir folderid name folderflags => mkdir world drive folderid name folderflags
  | .rmdir folderid parentflags name => rmdir world drive folderid parentflags name
  | .creat folderid name fileid encsymkey => addCreat world drive folderid name fileid encsymkey
  | .modify folderid name fileid hash encsymkey => addModifiedFile world drive folderid name fileid hash encsymkey
  | .unlink folderid name => unlink world drive folderid name
  | .renameFile fileid parentfolderid name toFolderid newName =>
    renameFile world drive fileid parentfolderid name toFolderid newName
  | .renameFolder folderid parentfolderid name toFolderid newName targetflags =>
    renameFolder world drive folderid parentfolderid name toFolderid newName targetflags

/-- What `psync_fs_rename` looks up before it renames: the id of the pending file
or folder, else that of a row, and those are positive. -/
def Called (drive : Drive) : Op → Prop
  | .renameFile fileid parentfolderid name _ _ =>
    match (drive.state.tasksOf parentfolderid).findCreat name 0 with
    | some cr => cr.fileid = fileid
    | none => 0 < fileid
  | .renameFolder folderid parentfolderid name _ _ _ =>
    match (drive.state.tasksOf parentfolderid).findMkdir name 0 with
    | some mk => mk.folderid = folderid
    | none => 0 < folderid
  | _ => True

/-- Anything that happens to the folders. -/
inductive Event where
  | op (op : Op)
  | canRmdir (folderid : ℤ) (parentflags : ℕ) (name : Name)
  | canUnlink (folderid : ℤ) (name : Name)
  | staticFile (folderid : ℤ) (name : Name) (taskid : ℕ)
  | opened (fileid folderid : ℤ)
  | closed (fl : OpenFile)
  | folderCreated (parentfolderid : ℤ) (taskid : ℕ) (folderid : ℤ) (name : Name)
  | folderDeleted (parentfolderid : ℤ) (taskid : ℕ) (name : Name)
  | fileCreated (parentfolderid : ℤ) (taskid : ℕ) (name : Name) (fileid : ℤ)
  | fileModified (parentfolderid : ℤ) (taskid : ℕ) (name : Name) (fileid : ℤ)
  | fileDeleted (parentfolderid : ℤ) (taskid : ℕ) (name : Name)
  | fileRenamed (folderid : ℤ) (taskid : ℕ) (name : Name) (frtaskid : ℕ)
  | folderRenamed (parentfolderid : ℤ) (taskid : ℕ) (name : Name) (frtaskid : ℕ)
deriving DecidableEq, Repr

/-- One event. Only an open file can be closed. -/
def step (world : World) (drive : Drive) : Event → Outcome
  | .op op => runOp world drive op
  | .canRmdir folderid parentflags name => canRmdir world drive folderid parentflags name
  | .canUnlink folderid name => canUnlink world drive folderid name
  | .staticFile folderid name taskid => addLocalCreatStatic world drive folderid name taskid
  | .opened fileid folderid => ⟨{ drive with state := drive.state.openFile fileid folderid }, .ok⟩
  | .closed fl =>
    ⟨if fl ∈ drive.state.openfiles then { drive with state := drive.state.closeFile fl } else drive, .ok⟩
  | .folderCreated parentfolderid taskid folderid name =>
    ⟨folderCreated drive parentfolderid taskid folderid name, .ok⟩
  | .folderDeleted parentfolderid taskid name => ⟨folderDeleted drive parentfolderid taskid name, .ok⟩
  | .fileCreated parentfolderid taskid name fileid => ⟨fileCreated drive parentfolderid taskid name fileid, .ok⟩
  | .fileModified parentfolderid taskid name fileid => ⟨fileModified drive parentfolderid taskid name fileid, .ok⟩
  | .fileDeleted parentfolderid taskid name => ⟨fileDeleted drive parentfolderid taskid name, .ok⟩
  | .fileRenamed folderid taskid name frtaskid => ⟨fileRenamed drive folderid taskid name frtaskid, .ok⟩
  | .folderRenamed parentfolderid taskid name frtaskid =>
    ⟨folderRenamed drive parentfolderid taskid name frtaskid, .ok⟩

/-- An event, the state it came in, and what it met there. -/
structure Step where
  world : World
  before : Drive
  event : Event

/-- Events from an empty drive; a crash ends the session. -/
inductive Session : List Step → Drive → Prop where
  | start : Session [] .empty
  | step {steps : List Step} {drive after : Drive} {ret : Ret} (world : World) (event : Event)
      (before : Session steps drive) (result : Fs.step world drive event = ⟨after, ret⟩) (running : ret ≠ .crash) :
      Session (steps ++ [⟨world, drive, event⟩]) after

/-- Operations that succeed, one after the other from an empty drive, while files
are opened and closed. -/
inductive Successful : List Step → Drive → Prop where
  | start : Successful [] .empty
  | op {steps : List Step} {drive after : Drive} (world : World) (op : Op) (before : Successful steps drive)
      (called : Called drive op) (success : runOp world drive op = ⟨after, .ok⟩) :
      Successful (steps ++ [⟨world, drive, .op op⟩]) after
  | opened {steps : List Step} {drive : Drive} (fileid folderid : ℤ) (before : Successful steps drive) :
      Successful steps { drive with state := drive.state.openFile fileid folderid }
  | closed {steps : List Step} {drive : Drive} (fl : OpenFile) (before : Successful steps drive)
      (member : fl ∈ drive.state.openfiles) :
      Successful steps { drive with state := drive.state.closeFile fl }

end Pclsync.Fs
