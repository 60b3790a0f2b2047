import Pclsync.Library.Sorting

/-! The local scanner. A folder on the disk is compared with the rows of the database for it. Items
that are gone and items that are new are taken for one item that has moved when they are the same by
their inodes. -/

namespace Pclsync.Scan
open Library.Sorting

abbrev Name := List UInt8

/-- `sync_folderlist`, up to the ids that `copy_folderlist_element` sets. -/
structure Element where
  localid : UInt64
  remoteid : UInt64
  inode : UInt64
  deviceid : UInt64
  mtimenat : UInt64
  size : UInt64
  isfolder : Bool
  name : Name
deriving DecidableEq, Repr

/-- The difference of two unsigned numbers, in a signed one. -/
def diff (first second : UInt64) : ℤ := (first - second).toBitVec.toInt

def compareSizeinodemtime (f1 f2 : Element) : ℤ :=
  if diff f1.size f2.size < 0 then -1
  else if 0 < diff f1.size f2.size then 1
  else if diff f1.inode f2.inode < 0 then -1
  else if 0 < diff f1.inode f2.inode then 1
  else if diff f1.mtimenat f2.mtimenat < 0 then -1
  else if 0 < diff f1.mtimenat f2.mtimenat then 1
  else 0

def compareInode (f1 f2 : Element) : ℤ :=
  if diff f1.inode f2.inode < 0 then -1
  else if 0 < diff f1.inode f2.inode then 1
  else 0

/-- The calls for the two lists that were taken out: the second list is walked along the first. -/
def renames (extracted : Extracted Element) : List (Element × Element) := extracted.extracted1.zip extracted.extracted2

/-- The calls of `scan_rename_folder` in one round of `scanner_scan`. -/
def renameFolders (delfolders newfolders : List Element) : List (Element × Element) :=
  renames (extractRepeating compareInode delfolders newfolders)

/-- The calls of `scan_rename_file`. -/
def renameFiles (delfiles newfiles : List Element) : List (Element × Element) :=
  renames (extractRepeating compareSizeinodemtime delfiles newfiles)

/-- The sign of `strcmp`. -/
def strcmp : Name → Name → ℤ
  | [], [] => 0
  | [], _ :: _ => -1
  | _ :: _, [] => 1
  | first :: s1, second :: s2 => if first < second then -1 else if second < first then 1 else strcmp s1 s2

example (s1 s2 : Name) : strcmp s1 s2 ≤ 1 := by
  fun_induction strcmp s1 s2 <;> simp_all

def folderlistCmp (f1 f2 : Element) : ℤ := strcmp f1.name f2.name

/-- What is put on one of the lists of the scan. -/
inductive Event
  | new (element : Element)
  | deleted (element : Element)
  | modified (element : Element)
deriving DecidableEq, Repr

def Event.name : Event → Name
  | .new element => element.name
  | .deleted element => element.name
  | .modified element => element.name

/-- The names that are not for the scanner, and the device of the folder. -/
structure Scanner where
  isNameToIgnore : Name → Bool
  isValidUtf8 : Name → Bool
  deviceid : UInt64

namespace Scanner

variable (scanner : Scanner)

def addNewElement (element : Element) : List Event :=
  if element.isfolder && element.deviceid != scanner.deviceid then []
  else if scanner.isNameToIgnore element.name then []
  else if !scanner.isValidUtf8 element.name then []
  else [.new element]

end Scanner

/-- What `scanner_local_folder_to_list` lists. -/
structure Disk where
  entries : List Element
  names : (entries.map Element.name).Nodup
  fresh : ∀ element ∈ entries, element.localid = 0

/-- The rows of a folder, where a folder and a file can have one name. -/
structure Rows where
  folders : List Element
  files : List Element
  folderNames : (folders.map Element.name).Nodup
  fileNames : (files.map Element.name).Nodup
  areFolders : ∀ element ∈ folders, element.isfolder = true ∧ element.localid ≠ 0
  areFiles : ∀ element ∈ files, element.isfolder = false

/-- `scanner_db_folder_to_list` -/
def Rows.list (rows : Rows) : List Element := rows.folders ++ rows.files

/-- What the loop over both lists finds: an entry of the disk, a row, or one of each with one name. -/
inductive Found
  | disk (fdisk : Element)
  | row (fdb : Element)
  | both (fdisk fdb : Element)
deriving DecidableEq, Repr

def Found.name : Found → Name
  | .disk fdisk => fdisk.name
  | .row fdb => fdb.name
  | .both fdisk _ => fdisk.name

/-- The loops of `scanner_scan_folder` over the sorted lists. -/
def walk : List Element → List Element → List Found
  | [], dblist => dblist.map .row
  | fdisk :: disklist, [] => .disk fdisk :: walk disklist []
  | fdisk :: disklist, fdb :: dblist =>
    if strcmp fdisk.name fdb.name = 0 then .both fdisk fdb :: walk disklist dblist
    else if strcmp fdisk.name fdb.name < 0 then .disk fdisk :: walk disklist (fdb :: dblist)
    else .row fdb :: walk (fdisk :: disklist) dblist
termination_by disklist dblist => disklist.length + dblist.length

example (disklist dblist : List Element) : (walk disklist dblist).length ≤ disklist.length + dblist.length := by
  fun_induction walk disklist dblist <;> simp_all <;> omega

/-- A file on the disk has the ids of its row. -/
def withIds (fdisk fdb : Element) : Element := { fdisk with localid := fdb.localid, remoteid := fdb.remoteid }

def fileChanged (fdisk fdb : Element) : Bool :=
  fdisk.mtimenat != fdb.mtimenat || fdisk.size != fdb.size || fdisk.inode != fdb.inode

/-- A folder that is on another device than its row says, and is another one there. -/
def folderChanged (fdisk fdb : Element) : Bool := fdisk.deviceid != fdb.deviceid && fdisk.inode != fdb.inode

namespace Scanner

variable (scanner : Scanner)

/-- What is put on the lists for one step. -/
def events : Found → List Event
  | .disk fdisk => scanner.addNewElement fdisk
  | .row fdb => [.deleted fdb]
  | .both fdisk fdb =>
    if fdisk.isfolder = fdb.isfolder then
      if !fdisk.isfolder && fileChanged fdisk fdb then [.modified (withIds fdisk fdb)] else []
    else .deleted fdb :: scanner.addNewElement fdisk

/-- The entry of the disk after the step. Its ids are those of its row, if it has one. -/
def after : Found → Option Element
  | .disk fdisk => some fdisk
  | .row _ => none
  | .both fdisk fdb =>
    if fdisk.isfolder = fdb.isfolder then
      if fdisk.isfolder && folderChanged fdisk fdb && fdisk.deviceid = scanner.deviceid then some { withIds fdisk fdb with localid := 0 }
      else some (withIds fdisk fdb)
    else some fdisk

/-- The entries of the disk for which `scanner_scan_folder` is called again. -/
def subfolders (disklist : List Element) : List Element :=
  disklist.filter fun element => element.isfolder && element.localid != 0 && element.deviceid == scanner.deviceid

/-- One call of `scanner_scan_folder`: what is put on the lists, and the folders for the next calls. -/
def scanFolder (disk : Disk) (rows : Rows) : List Event × List Element :=
  let steps := walk (sort folderlistCmp disk.entries) (sort folderlistCmp rows.list)
  (steps.flatMap scanner.events, scanner.subfolders (steps.filterMap scanner.after))

end Scanner

end Pclsync.Scan
