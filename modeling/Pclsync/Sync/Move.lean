import Pclsync.Library.Table

/-! A local folder moves from one sync to another. Either the local scanner finds it in its new
place, or the server says so and the folder is renamed by a task. -/

namespace Pclsync.Sync
open Library

abbrev Name := List UInt8

/-- A row of `localfolder`. The parent 0 is the root of a sync. -/
structure LocalFolder where
  id : ℕ
  localparentfolderid : ℕ
  syncid : ℕ
  name : Name
deriving DecidableEq, Repr

/-- A row of `localfile`. -/
structure LocalFile where
  id : ℕ
  localparentfolderid : ℕ
  syncid : ℕ
deriving DecidableEq, Repr

/-- A row of `syncedfolder`. -/
structure SyncedFolder where
  syncid : ℕ
  folderid : ℕ
  localfolderid : ℕ
  synctype : ℕ
deriving DecidableEq, Repr

/-- The primary key and the index `klocalfolderpsn`. -/
def FolderKeys (rows : List LocalFolder) : Prop :=
  (rows.map LocalFolder.id).Nodup ∧ (rows.map fun row => (row.syncid, row.localparentfolderid, row.name)).Nodup

/-- The primary key and the index `ksyncedfolderdownsyncidlocalfolderid`. -/
def SyncedKeys (rows : List SyncedFolder) : Prop :=
  (rows.map fun row => (row.syncid, row.folderid)).Nodup ∧ (rows.map fun row => (row.localfolderid, row.syncid)).Nodup

instance : DecidablePred FolderKeys := fun _ => inferInstanceAs (Decidable (_ ∧ _))
instance : DecidablePred SyncedKeys := fun _ => inferInstanceAs (Decidable (_ ∧ _))

structure Db where
  localfolder : Table LocalFolder FolderKeys
  localfile : List LocalFile
  syncedfolder : Table SyncedFolder SyncedKeys

namespace Db

variable (db : Db)

/-- `UPDATE localfolder SET syncid=? WHERE id=?` -/
def setFolderSync (syncid localfolderid : ℕ) : Db :=
  { db with localfolder := db.localfolder.update fun row => if row.id = localfolderid then { row with syncid := syncid } else row }

/-- `UPDATE syncedfolder SET syncid=? WHERE localfolderid=?` -/
def setSyncedSync (syncid localfolderid : ℕ) : Db :=
  { db with syncedfolder := db.syncedfolder.update fun row =>
      if row.localfolderid = localfolderid then { row with syncid := syncid } else row }

/-- `UPDATE localfolder SET localparentfolderid=?, syncid=?, name=? WHERE id=?` -/
def moveFolder (localfolderid syncid localparentfolderid : ℕ) (name : Name) : Db :=
  { db with localfolder := db.localfolder.update fun row =>
      if row.id = localfolderid then { row with localparentfolderid := localparentfolderid, syncid := syncid, name := name } else row }

/-- `SELECT id FROM localfolder WHERE localparentfolderid=?` -/
def children (localfolderid : ℕ) : List ℕ :=
  (db.localfolder.rows.filter fun row => row.localparentfolderid = localfolderid).map LocalFolder.id

end Db

/-- `update_syncid_rec`. The recursion is as deep as the folders are. -/
def updateSyncidRec (syncid : ℕ) : ℕ → ℕ → Db → Option Db
  | 0, _, _ => none
  | fuel + 1, localfolderid, db =>
    let db := (db.setFolderSync syncid localfolderid).setSyncedSync syncid localfolderid
    (db.children localfolderid).foldlM (fun db child => updateSyncidRec syncid fuel child db) db

/-- `sync_folderlist`: where a folder was found. -/
structure FolderList where
  localid : ℕ
  localparentfolderid : ℕ
  syncid : ℕ
  synctype : ℕ
  name : Name
deriving DecidableEq, Repr

/-- `scan_rename_folder` -/
def scanRenameFolder (fuel : ℕ) (rnfr rnto : FolderList) (db : Db) : Option Db :=
  if ∀ row ∈ db.localfolder.rows, row.id ≠ rnfr.localid then some db
  else
    let db := db.moveFolder rnfr.localid rnto.syncid rnto.localparentfolderid rnto.name
    let db := { db with syncedfolder := db.syncedfolder.update fun row =>
      if row.localfolderid = rnfr.localid then { row with syncid := rnto.syncid, synctype := rnto.synctype } else row }
    if rnfr.syncid ≠ rnto.syncid then updateSyncidRec rnto.syncid fuel rnfr.localid db else some db

/-- What `process_modifyfolder` does for a folder that goes from a sync to another: the row of
`syncedfolder`, and the local folder for the task. -/
def modifyFolder (folderid oldsyncid newsyncid synctype : ℕ) (db : Db) : Option (Db × ℕ) :=
  match db.syncedfolder.rows.find? fun row => row.folderid = folderid ∧ row.syncid = oldsyncid with
  | none => none
  | some row =>
    some ({ db with syncedfolder := db.syncedfolder.update fun row =>
      if row.syncid = oldsyncid ∧ row.folderid = folderid then { row with syncid := newsyncid, synctype := synctype } else row },
      row.localfolderid)

/-- `task_renamefolder`. It is rolled back if there is no path for the folder or the rename fails,
which `renamed` says. -/
def taskRenamefolder (newsyncid localfolderid newlocalparentfolderid : ℕ) (newname : Name) (renamed : Bool) (db : Db) : Db :=
  match db.localfolder.rows.find? fun row => row.id = localfolderid with
  | none => db
  | some row =>
    if row.syncid = newsyncid ∧ row.localparentfolderid = newlocalparentfolderid ∧ row.name = newname then db
    else if renamed then db.moveFolder localfolderid newsyncid newlocalparentfolderid newname
    else db

end Pclsync.Sync
