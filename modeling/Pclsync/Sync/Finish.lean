import Pclsync.Library.Directory

/-! The end of a download. What was downloaded takes the name of the local file, and a file that has
the name already is looked at before. -/

namespace Pclsync.Finish
open Library

abbrev Path := List Char
abbrev Bytes := List UInt8

/-- `PSYNC_NET_OK`, `PSYNC_NET_PERMFAIL` and `PSYNC_NET_TEMPFAIL`. -/
inductive Net
  | ok
  | permfail
  | tempfail
deriving DecidableEq, Repr

/-- What `fstat` gives. -/
structure Stat where
  size : ℕ
  mtimenative : ℕ
deriving DecidableEq, Repr

def fileChanged (st st2 : Stat) : Bool := st.size != st2.size || st.mtimenative != st2.mtimenative

/-- `PSYNC_COPY_BUFFER_SIZE` -/
def copyBufferSize : ℕ := 256 * 1024

/-- A file is read from its start to the size that it had before. -/
inductive ReadEnd
  | whole (bytes : Bytes)
  | short
  | failed
deriving DecidableEq, Repr

/-- The loop over `pfile_read`. An error is `none`, and a file with no more answers has ended. -/
def readLoop : ℕ → List (Option Bytes) → Bytes → ReadEnd
  | 0, _, read => .whole read
  | _ + 1, [], _ => .short
  | _ + 1, none :: _, _ => .failed
  | rsz + 1, some data :: reads, read =>
    if (data.take (min (rsz + 1) copyBufferSize)).isEmpty then .short
    else readLoop (rsz + 1 - (data.take (min (rsz + 1) copyBufferSize)).length) reads
      (read ++ data.take (min (rsz + 1) copyBufferSize))

/-- The answers of the system while a file is read once. -/
structure Pass where
  before : Option Stat
  reads : List (Option Bytes)
  after : Option Stat
deriving DecidableEq, Repr

inductive PassEnd
  | again
  | failed
  | done (bytes : Bytes) (size : ℕ)
deriving DecidableEq, Repr

/-- From `retry` on. A file that changes is read again. -/
def onePass (pass : Pass) : PassEnd :=
  match pass.before with
  | none => .failed
  | some st =>
    match readLoop st.size pass.reads [] with
    | .failed => .failed
    | .short =>
      match pass.after with
      | none => .failed
      | some st2 => if fileChanged st st2 then .again else .failed
    | .whole bytes =>
      match pass.after with
      | none => .failed
      | some st2 => if fileChanged st st2 then .again else .done bytes st.size

/-- A local file with the answers to whoever reads it. A pass that notices no change has read what the
file holds. -/
structure LocalFile where
  inode : ℕ
  content : Bytes
  opens : Bool
  passes : List Pass
  settled : ∀ pass ∈ passes, ∀ bytes size, onePass pass = .done bytes size → bytes = content

abbrev Disk := Directory Path LocalFile

/-- What `psync_get_local_file_checksum` returns. -/
inductive Checksum
  | ok (hexsum : Bytes) (fsize : ℕ)
  | permfail
deriving DecidableEq, Repr

section
variable (sha1hex : Bytes → Bytes)

/-- It does not return as long as the file changes. -/
def checksumPasses : List Pass → Option Checksum
  | [] => none
  | pass :: passes =>
    match onePass pass with
    | .again => checksumPasses passes
    | .failed => some .permfail
    | .done bytes size => some (.ok (sha1hex bytes) size)

/-- `psync_get_local_file_checksum` -/
def getLocalFileChecksum : Option LocalFile → Option Checksum
  | none => some .permfail
  | some file => if file.opens then checksumPasses sha1hex file.passes else some .permfail

end

/-- A row of `filerevision`. -/
structure FileRevision where
  fileid : ℕ
  hash : ℕ
  ctime : ℕ
  size : ℕ
deriving DecidableEq, Repr

/-- A row of `hashchecksum`. -/
structure HashChecksum where
  hash : ℕ
  size : ℕ
  checksum : Bytes
deriving DecidableEq, Repr

/-- A row of `file`. -/
structure FileRow where
  id : ℕ
  parentfolderid : ℕ
deriving DecidableEq, Repr

/-- A row of `localfile`. -/
structure LocalFileRow where
  id : ℕ
  localparentfolderid : ℕ
  fileid : ℕ
  hash : ℕ
  syncid : ℕ
  size : ℕ
  inode : ℕ
  name : Path
  checksum : Bytes
deriving DecidableEq, Repr

/-- The tables, and the folders that `psyncer_dl_has_folder` knows. -/
structure Tables where
  filerevision : List FileRevision
  hashchecksum : List HashChecksum
  file : List FileRow
  localfile : List LocalFileRow
  dlFolders : List ℕ
deriving DecidableEq, Repr

/-- A revision as `listrevisions` tells it. -/
structure Revision where
  hash : ℕ
  size : ℕ
  created : ℕ
  checksum : Bytes
deriving DecidableEq, Repr

/-- How `listrevisions` ends. -/
inductive Answer
  | noApi
  | noResult
  | reply (result : ℕ) (revisions : List Revision) (metadata : Revision)
deriving DecidableEq, Repr

/-- How the calls to the server, to the database and to the system go. -/
structure Calls where
  answer : Answer
  revisionsCommit : Bool
  renameConflict : Bool
  renameFinal : Bool
  stat : Bool
  unlink : Bool
  commit : Bool
deriving DecidableEq, Repr

/-- `psync_handle_api_result` -/
def handleApiResult (result : ℕ) : Net :=
  if result = 2000 then .tempfail
  else if result = 2003 ∨ result = 2009 ∨ result = 2005 ∨ result = 2029 ∨ result = 2067 ∨ result = 5002 then .permfail
  else if result = 2007 then .permfail
  else .tempfail

/-- `is_revision_local`. There are no revisions of size zero, and an empty file is taken for one. -/
def isRevisionLocal (tables : Tables) (localhashhex : Bytes) (filesize fileid : ℕ) : Bool :=
  if filesize = 0 then true
  else tables.filerevision.any fun f => f.fileid = fileid ∧
    tables.hashchecksum.any fun h => f.hash = h.hash ∧ h.size = filesize ∧ h.checksum = localhashhex

namespace Tables

variable (tables : Tables)

/-- The two `REPLACE INTO` for a revision. -/
def addRevision (fileid : ℕ) (revision : Revision) : Tables :=
  { tables with
    filerevision := (tables.filerevision.filter fun f => ¬(f.fileid = fileid ∧ f.hash = revision.hash)) ++
      [⟨fileid, revision.hash, revision.created, revision.size⟩]
    hashchecksum := (tables.hashchecksum.filter fun h => ¬(h.hash = revision.hash ∧ h.size = revision.size)) ++
      [⟨revision.hash, revision.size, revision.checksum⟩] }

/-- `SELECT parentfolderid FROM file WHERE id=?` -/
def parent (fileid : ℕ) : Option ℕ := (tables.file.find? fun row => row.id = fileid).map FileRow.parentfolderid

/-- The rows of `localfile` for a name. -/
def named (syncid localfolderid : ℕ) (filename : Path) (row : LocalFileRow) : Bool :=
  row.syncid = syncid ∧ row.localparentfolderid = localfolderid ∧ row.name = filename

end Tables

/-- `download_file_revisions`. A revision of a file without a row breaks a foreign key, and the
transaction is rolled back. -/
def downloadFileRevisions (fileid : ℕ) (calls : Calls) (tables : Tables) : Net × Tables :=
  match calls.answer with
  | .noApi => (.tempfail, tables)
  | .noResult => (.tempfail, tables)
  | .reply result revisions metadata =>
    if result ≠ 0 then (handleApiResult result, tables)
    else if calls.revisionsCommit ∧ (tables.parent fileid).isSome then
      (.ok, (revisions ++ [metadata]).foldl (fun tables revision => tables.addRevision fileid revision) tables)
    else (.ok, tables)

/-- `psync_is_revision_of_file` -/
def isRevisionOfFile (localhashhex : Bytes) (filesize fileid : ℕ) (calls : Calls) (tables : Tables) : Net × Bool × Tables :=
  if isRevisionLocal tables localhashhex filesize fileid then (.ok, true, tables)
  else
    match downloadFileRevisions fileid calls tables with
    | (.ok, tables) => (.ok, isRevisionLocal tables localhashhex filesize fileid, tables)
    | (ret, tables) => (ret, false, tables)

/-- The last dot of a path, or its end. A dot at the very start does not count. -/
def lastDot (path : Path) : ℕ → ℕ
  | 0 => 0
  | idx + 1 => if path[idx + 1]? = some '.' then idx + 1 else lastDot path idx

def dotidx (path : Path) : ℕ := if lastDot path path.length = 0 then path.length else lastDot path path.length

/-- ` (conflicted)`, ` (conflicted 1)` and so on. -/
def conflictSuffix (num : ℕ) : Path :=
  if num = 0 then " (conflicted)".toList else " (conflicted ".toList ++ num.repr.toList ++ ")".toList

def conflictName (path : Path) (num : ℕ) : Path := path.take (dotidx path) ++ conflictSuffix num ++ path.drop (dotidx path)

/-- `pfile_rename`, which may fail. -/
def pfileRename (works : Bool) (old new : Path) (disk : Disk) : Option Disk := if works then disk.rename old new else none

/-- `pfile_delete`, which may fail. -/
def pfileDelete (works : Bool) (path : Path) (disk : Disk) : Disk := if works then disk.erase path else disk

/-- `psync_rename_conflicted_file` -/
def renameConflictedFile (works : Bool) (path : Path) (disk : Disk) : Option Disk :=
  (disk.firstFree (conflictName path)).bind fun num => pfileRename works path (conflictName path num) disk

/-- `download_task_t` -/
structure DownloadTask where
  fileid : ℕ
  syncid : ℕ
  localfolderid : ℕ
  localpath : Path
  filename : Path
  localexists : Bool
  localsize : ℕ
  checksum : Bytes
  stop : ℕ
deriving DecidableEq, Repr

namespace DownloadTask

def localname (dt : DownloadTask) : Path := dt.localpath ++ '/' :: dt.filename

/-- The name ends in `PSYNC_APPEND_PARTIAL_FILES`. -/
def tmpname (dt : DownloadTask) : Path := dt.localname ++ ".part".toList

end DownloadTask

/-- What is downloaded, as the server has it. -/
structure Target where
  checksum : Bytes
  size : ℕ
  hash : ℕ
deriving DecidableEq, Repr

structure World where
  disk : Disk
  tables : Tables

/-- `create_conflicted` -/
def createConflicted (dt : DownloadTask) (calls : Calls) (world : World) : Option World :=
  (renameConflictedFile calls.renameConflict dt.localname world.disk).map fun disk =>
    { disk
      tables := { world.tables with
        localfile := world.tables.localfile.filter fun row => !Tables.named dt.syncid dt.localfolderid dt.filename row } }

/-- `pfile_rename_overwrite` of the partial file; the two names differ. -/
def renameOverwrite (dt : DownloadTask) (calls : Calls) (world : World) : Bool × World :=
  match pfileRename calls.renameFinal dt.tmpname dt.localname world.disk with
  | some disk => (true, { world with disk })
  | none => (false, world)

section
variable (sha1hex : Bytes → Bytes) (dt : DownloadTask) (target : Target) (calls : Calls) (world : World)

/-- `rename_if_notex`; `false` is its -1. There is no result while the file still changes. -/
def renameIfNotex : Option (Bool × World) :=
  match getLocalFileChecksum sha1hex (world.disk.lookup dt.localname) with
  | none => none
  | some .permfail => some (renameOverwrite dt calls world)
  | some (.ok localhashhex filesize) =>
    match isRevisionOfFile localhashhex filesize dt.fileid calls world.tables with
    | (.tempfail, _, tables) => some (false, { world with tables })
    | (.ok, false, tables) =>
      match createConflicted dt calls { world with tables } with
      | none => some (false, { world with tables })
      | some world => some (renameOverwrite dt calls world)
    | (_, _, tables) => some (renameOverwrite dt calls { world with tables })

/-- The row of `localfile` is written. -/
def recordLocal (file : LocalFile) (localfile : List LocalFileRow) : List LocalFileRow :=
  match localfile.find? (Tables.named dt.syncid dt.localfolderid dt.filename) with
  | some found => localfile.map fun row =>
      if row.id = found.id then
        ⟨row.id, dt.localfolderid, dt.fileid, target.hash, dt.syncid, file.content.length, file.inode, dt.filename, target.checksum⟩
      else row
  | none => localfile ++ [⟨(localfile.map LocalFileRow.id).foldl max 0 + 1, dt.localfolderid, dt.fileid, target.hash, dt.syncid,
      file.content.length, file.inode, dt.filename, target.checksum⟩]

/-- The file row is still in a folder that is downloaded. -/
def wanted : Bool :=
  match world.tables.parent dt.fileid with
  | none => false
  | some parentfolderid => world.tables.dlFolders.contains parentfolderid

/-- `stat_and_create_local`. A file that has been moved or deleted on the server meanwhile is deleted. -/
def statAndCreateLocal : Bool × World :=
  match world.disk.lookup dt.localname with
  | none => (false, world)
  | some file =>
    if !calls.stat || file.content.length ≠ target.size then (false, world)
    else if !wanted dt world then
      (true, { disk := pfileDelete calls.unlink dt.localname world.disk
               tables := if calls.commit then { world.tables with
                   localfile := world.tables.localfile.filter fun row => !Tables.named dt.syncid dt.localfolderid dt.filename row }
                 else world.tables })
    else if calls.commit then
      (true, { world with tables := { world.tables with localfile := recordLocal dt target file world.tables.localfile } })
    else (false, world)

/-- `rename_and_create_local` -/
def renameAndCreateLocal : Option (Bool × World) :=
  (renameIfNotex sha1hex dt calls world).map fun renamed =>
    if renamed.1 then statAndCreateLocal dt target calls renamed.2 else renamed

/-- `task_run_download_file` when the partial file has the right checksum. -/
def foundCandidate : Option (Bool × World) :=
  match getLocalFileChecksum sha1hex (world.disk.lookup dt.tmpname) with
  | none => none
  | some .permfail => some (false, world)
  | some (.ok checksum csize) =>
    if csize = target.size ∧ checksum = target.checksum then renameAndCreateLocal sha1hex dt target calls world
    else some (false, world)

/-- `task_run_download_file` when the local file has it. -/
def foundExisting : Option (Bool × World) :=
  match getLocalFileChecksum sha1hex (world.disk.lookup dt.localname) with
  | none => none
  | some .permfail => some (false, world)
  | some (.ok checksum localsize) =>
    if target.size = localsize ∧ checksum = target.checksum then some (statAndCreateLocal dt target calls world)
    else some (false, world)

/-- `task_download_file` for a file that had the right checksum when the task began. -/
def downloadKnown : Option (Bool × World) :=
  if dt.localexists ∧ dt.localsize = target.size ∧ dt.checksum = target.checksum then
    some (statAndCreateLocal dt target calls world)
  else some (false, world)

/-- `task_download_file` after a local file or a peer has been asked for the content. -/
def downloadFrom (rt : Net) : Option (Bool × World) :=
  match rt with
  | .ok => renameAndCreateLocal sha1hex dt target calls world
  | _ => some (false, world)

/-- The end of `task_download_file`. -/
def downloadRanges (sameChecksum : Bool) : Option (Bool × World) :=
  if !sameChecksum || dt.stop = 2 then
    some (false, if dt.stop = 2 then { world with disk := pfileDelete calls.unlink dt.tmpname world.disk } else world)
  else renameAndCreateLocal sha1hex dt target calls world

/-- `finish_async_download` -/
def finishAsyncDownload (error : ℕ) : Option (Bool × World) :=
  if error ≠ 0 then some (false, world)
  else if dt.stop = 2 then some (false, { world with disk := pfileDelete calls.unlink dt.tmpname world.disk })
  else renameAndCreateLocal sha1hex dt target calls world

/-- `PSYNC_SERVER_ERROR_NOT_MOD` -/
def serverErrorNotMod : ℕ := 104

/-- `finish_async_download_existing` -/
def finishAsyncDownloadExisting (error : ℕ) : Option (Bool × World) :=
  if error = serverErrorNotMod then some (statAndCreateLocal dt target calls world)
  else finishAsyncDownload sha1hex dt target calls world error

/-- The ways in which a download may end. -/
inductive Completion
  | candidate
  | existing
  | known
  | copied (rt : Net)
  | peer (rt : Net)
  | threaded (sameChecksum : Bool)
  | async (error : ℕ)
  | asyncExisting (error : ℕ)
deriving DecidableEq, Repr

def complete : Completion → Option (Bool × World)
  | .candidate => foundCandidate sha1hex dt target calls world
  | .existing => foundExisting sha1hex dt target calls world
  | .known => downloadKnown dt target calls world
  | .copied rt => downloadFrom sha1hex dt target calls world rt
  | .peer rt => downloadFrom sha1hex dt target calls world rt
  | .threaded sameChecksum => downloadRanges sha1hex dt target calls world sameChecksum
  | .async error => finishAsyncDownload sha1hex dt target calls world error
  | .asyncExisting error => finishAsyncDownloadExisting sha1hex dt target calls world error

end
end Pclsync.Finish
