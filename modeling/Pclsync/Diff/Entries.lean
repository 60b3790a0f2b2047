import Pclsync.Library.Keyed

/-! Files and folders of the account as the diff tells them, and as the client enters its own changes
before the diff does. The folders count their children, and the used quota follows the user's files. -/

namespace Pclsync.Diff
open Library

abbrev Name := List UInt8

/-- A row of `folder`. The root has no parent. -/
structure FolderRow where
  id : ℕ
  parentfolderid : Option ℕ
  userid : ℕ
  permissions : ℕ
  name : Name
  ctime : ℕ
  mtime : ℕ
  flags : ℕ
  subdircnt : ℤ
deriving DecidableEq, Repr

/-- A row of `file`. -/
structure FileRow where
  id : ℕ
  parentfolderid : ℕ
  userid : ℕ
  size : ℕ
  hash : ℕ
  name : Name
deriving DecidableEq, Repr

/-- The metadata of a folder. -/
structure FolderMeta where
  folderid : ℕ
  parentfolderid : ℕ
  ismine : Bool
  userid : ℕ
  perms : ℕ
  name : Name
  created : ℕ
  modified : ℕ
  flags : ℕ
deriving DecidableEq, Repr

/-- The metadata of a file. Another file may have been replaced by it. -/
structure FileMeta where
  fileid : ℕ
  parentfolderid : ℕ
  ismine : Bool
  userid : ℕ
  size : ℕ
  hash : ℕ
  name : Name
  deletedfileid : Option ℕ
deriving DecidableEq, Repr

/-- The tables, `used_quota` and the row `usedquota` of the settings. -/
structure Db where
  myUserid : ℕ
  folder : Keyed FolderRow.id
  file : Keyed FileRow.id
  usedQuota : UInt64
  setting : UInt64

/-- `PSYNC_PERM_ALL` -/
def permAll : ℕ := 15

section
variable (db : Db)

/-- Another child, or one less. -/
def FolderRow.bump (delta : ℤ) (mtime : ℕ) (row : FolderRow) : FolderRow :=
  { row with subdircnt := row.subdircnt + delta, mtime := mtime }

theorem FolderRow.bump_id (delta : ℤ) (mtime : ℕ) (row : FolderRow) : (row.bump delta mtime).id = row.id := rfl

/-- A folder row as `INSERT` makes it. -/
def FolderMeta.row (entry : FolderMeta) : FolderRow where
  id := entry.folderid
  parentfolderid := some entry.parentfolderid
  userid := if entry.ismine then db.myUserid else entry.userid
  permissions := if entry.ismine then permAll else entry.perms
  name := entry.name
  ctime := entry.created
  mtime := entry.modified
  flags := entry.flags
  subdircnt := 0

/-- The columns that `UPDATE folder` sets. -/
def FolderMeta.over (entry : FolderMeta) (row : FolderRow) : FolderRow :=
  { entry.row db with id := row.id, subdircnt := row.subdircnt }

theorem FolderMeta.over_id (entry : FolderMeta) (row : FolderRow) : (entry.over db row).id = row.id := rfl

/-- A file row as `INSERT` makes it. -/
def FileMeta.row (entry : FileMeta) : FileRow where
  id := entry.fileid
  parentfolderid := entry.parentfolderid
  userid := if entry.ismine then db.myUserid else entry.userid
  size := entry.size
  hash := entry.hash
  name := entry.name

/-- The columns that `UPDATE file` sets; the id is set to what it is. -/
def FileMeta.over (entry : FileMeta) (row : FileRow) : FileRow := { entry.row db with id := row.id }

theorem FileMeta.over_id (entry : FileMeta) (row : FileRow) : (entry.over db row).id = row.id := rfl

/-- `UPDATE folder SET subdircnt=subdircnt+?, mtime=? WHERE id=?` -/
def addSubdircnt (delta : ℤ) (mtime id : ℕ) : Db :=
  { db with folder := db.folder.set id (FolderRow.bump delta mtime) (FolderRow.bump_id delta mtime) }

/-- `UPDATE folder` with what the entry says. -/
def updateFolder (entry : FolderMeta) : Db :=
  { db with folder := db.folder.set entry.folderid (entry.over db) (entry.over_id db) }

/-- `UPDATE file` with what the entry says. -/
def updateFile (entry : FileMeta) : Db := { db with file := db.file.set entry.fileid (entry.over db) (entry.over_id db) }

/-- `process_createfolder` -/
def processCreatefolder (entry : FolderMeta) : Db :=
  match db.folder.find entry.folderid with
  | none => addSubdircnt { db with folder := db.folder.insert (entry.row db) } 1 entry.modified entry.parentfolderid
  | some _ => addSubdircnt (updateFolder db entry) 1 entry.modified entry.parentfolderid

/-- `process_modifyfolder`. A missing parent is read as 0. -/
def processModifyfolder (entry : FolderMeta) : Db :=
  match db.folder.find entry.folderid with
  | none => processCreatefolder db entry
  | some old =>
    if old.parentfolderid.getD 0 ≠ entry.parentfolderid then
      addSubdircnt (addSubdircnt (updateFolder db entry) (-1) entry.modified (old.parentfolderid.getD 0)) 1 entry.modified
        entry.parentfolderid
    else updateFolder db entry

/-- `process_deletefolder` -/
def processDeletefolder (entry : FolderMeta) : Db :=
  match db.folder.find entry.folderid with
  | none => db
  | some _ =>
    addSubdircnt { db with folder := db.folder.erase entry.folderid } (-1) entry.modified entry.parentfolderid

/-- `check_for_deletedfileid` -/
def checkForDeletedfileid (entry : FileMeta) : Db :=
  match entry.deletedfileid with
  | none => db
  | some fileid => { db with file := db.file.erase fileid }

/-- `INSERT OR IGNORE`, and `UPDATE` when it did nothing. -/
def insertOrUpdateFile (entry : FileMeta) : Db :=
  match db.file.find entry.fileid with
  | none => { db with file := db.file.insert (entry.row db) }
  | some _ => updateFile db entry

/-- The size of a new content is added when it is the user's. -/
def addQuota (entry : FileMeta) : Db :=
  if entry.ismine then { db with usedQuota := db.usedQuota + UInt64.ofNat entry.size } else db

/-- `process_createfile` -/
def processCreatefile (entry : FileMeta) : Db := insertOrUpdateFile (checkForDeletedfileid (addQuota db entry) entry) entry

/-- `process_modifyfile` -/
def processModifyfile (entry : FileMeta) : Db :=
  match db.file.find entry.fileid with
  | none => processCreatefile db entry
  | some old =>
    let db := if old.userid = db.myUserid then { db with usedQuota := db.usedQuota - UInt64.ofNat old.size } else db
    updateFile (checkForDeletedfileid (addQuota db entry) entry) entry

/-- `process_deletefile` -/
def processDeletefile (entry : FileMeta) : Db :=
  match db.file.find entry.fileid with
  | none => db
  | some _ =>
    let db := { db with file := db.file.erase entry.fileid }
    if entry.ismine then { db with usedQuota := db.usedQuota - UInt64.ofNat entry.size } else db

/-- `pdiff_file_create`: an existing row is left as it is. -/
def pdiffFileCreate (entry : FileMeta) : Db :=
  let db := checkForDeletedfileid db entry
  { db with file := db.file.insert (entry.row db) }

end

/-- An entry of the diff. The others have nothing to do with files and folders. -/
inductive Entry
  | createfolder (entry : FolderMeta)
  | modifyfolder (entry : FolderMeta)
  | deletefolder (entry : FolderMeta)
  | createfile (entry : FileMeta)
  | modifyfile (entry : FileMeta)
  | deletefile (entry : FileMeta)
  | other
deriving DecidableEq, Repr

def process (db : Db) : Entry → Db
  | .createfolder entry => processCreatefolder db entry
  | .modifyfolder entry => processModifyfolder db entry
  | .deletefolder entry => processDeletefolder db entry
  | .createfile entry => processCreatefile db entry
  | .modifyfile entry => processModifyfile db entry
  | .deletefile entry => processDeletefile db entry
  | .other => db

/-- `process_entries`. A transaction that fails leaves the tables as they were, and `used_quota` is read
again from the settings. -/
def processEntries (db : Db) (entries : List Entry) (authProvided commits : Bool) : Db :=
  if !authProvided then db
  else if commits then { entries.foldl process db with setting := (entries.foldl process db).usedQuota }
  else { db with usedQuota := db.setting }

/-- A batch of the diff, or a change of the client's own that has just been made. -/
inductive Step
  | diff (entries : List Entry) (authProvided commits : Bool)
  | fileCreate (entry : FileMeta)
  | fileUpdate (entry : FileMeta)
  | fileDelete (entry : FileMeta)
  | fldrUpdate (entry : FolderMeta)
  | fldrDelete (entry : FolderMeta)
deriving DecidableEq, Repr

/-- `process_entries`, `pdiff_file_create`, `pdiff_file_update`, `pdiff_file_delete`, `pdiff_fldr_update`
and `pdiff_fldr_delete`. -/
def step (db : Db) : Step → Db
  | .diff entries authProvided commits => processEntries db entries authProvided commits
  | .fileCreate entry => pdiffFileCreate db entry
  | .fileUpdate entry => processModifyfile db entry
  | .fileDelete entry => processDeletefile db entry
  | .fldrUpdate entry => processModifyfolder db entry
  | .fldrDelete entry => processDeletefolder db entry

end Pclsync.Diff
