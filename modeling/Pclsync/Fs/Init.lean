import Pclsync.Fs.Tasks

/-! The folders after a restart, rebuilt from the rows of `fstask` in the order of
their ids. Each row changes one folder and may notify that a folder changed. -/

namespace Pclsync.Fs

/-- The folders so far, and the notifications: the folder that a task works in and
the folder that it said was changed. -/
structure Rebuilt where
  state : Folders
  changed : List (ℤ × ℤ)

namespace Rebuilt

def empty : Rebuilt := ⟨.empty, []⟩

/-- Get or create the folder, work on it, release it. -/
def onFolder (rebuilt : Rebuilt) (folderid : ℤ) (change : Folder → Folder) : Rebuilt :=
  let (folder, state) := rebuilt.state.getOrCreate folderid
  { rebuilt with state := (state.update folder change).release folder }

/-- `ppathstatus_drive_fldr_changed`, called for folders of the server only. -/
def fldrChanged (row : Task) (folderid : ℤ) (rebuilt : Rebuilt) : Rebuilt :=
  if folderid ≥ 0 then { rebuilt with changed := rebuilt.changed ++ [(row.folderid, folderid)] } else rebuilt

end Rebuilt

/-- What is read from memory that nothing was written to, while the row with an
id is replayed. -/
structure Junk where
  taskid : ℕ → ℕ
  place : ℕ → ℕ

variable (junk : Junk) (row : Task) (rebuilt : Rebuilt)

/-- `psync_init_task_mkdir` -/
def initTaskMkdir : Rebuilt :=
  let task : Mkdir := ⟨row.text1, -(row.id : ℤ), row.id, if row.text2.isNone then 0 else flagEncrypted⟩
  (rebuilt.onFolder row.folderid (·.putMkdir task)).fldrChanged row row.folderid

/-- `psync_init_task_rmdir` -/
def initTaskRmdir : Rebuilt :=
  rebuilt.onFolder row.folderid fun folder =>
    (folder.takeMkdir row.text1 0).putRmdir ⟨row.text1, row.sfolderid, row.id⟩

/-- `psync_init_task_creat` -/
def initTaskCreat : Rebuilt :=
  let un : Unlink := ⟨row.text1, -(row.id : ℤ), row.id⟩
  let task : Creat := ⟨row.text1, -(row.id : ℤ), row.fileid.toNat, row.id⟩
  (rebuilt.onFolder row.folderid fun folder => (folder.putUnlink un).putCreat task).fldrChanged row row.folderid

/-- `psync_init_do_task_unlink` -/
def initDoTaskUnlink (fileid : ℤ) : Rebuilt :=
  rebuilt.onFolder row.folderid fun folder => (folder.takeCreat row.text1 0).putUnlink ⟨row.text1, fileid, row.id⟩

/-- `psync_init_task_unlink` -/
def initTaskUnlink : Rebuilt := initDoTaskUnlink row rebuilt row.fileid

/-- `psync_init_task_unlink_set_rev` -/
def initTaskUnlinkSetRev : Rebuilt := initDoTaskUnlink row rebuilt row.int1

/-- `psync_init_task_renfile_from` -/
def initTaskRenfileFrom : Rebuilt :=
  rebuilt.onFolder row.folderid fun folder =>
    (folder.takeCreat row.text1 0).putUnlink ⟨row.text1, row.fileid, row.id⟩

/-- `psync_init_task_renfile_to`. The name of the unlink is looked for where a
creat has it, so the place that it gets in the tree depends on what is there. -/
def initTaskRenfileTo : Rebuilt :=
  let un : Unlink := ⟨row.text1, row.fileid, row.id⟩
  let cr : Creat := ⟨row.text1, row.fileid, row.int2.toNat, row.id⟩
  let rebuilt := rebuilt.onFolder row.folderid fun folder =>
    ((folder.takeCreat row.text1 0).putUnlinkAt (junk.place row.id) un).putCreat cr
  { rebuilt with state := rebuilt.state.renameOpenfile row.fileid row.folderid }.fldrChanged row row.folderid

/-- `psync_init_task_renfolder_from` -/
def initTaskRenfolderFrom : Rebuilt :=
  rebuilt.onFolder row.folderid fun folder =>
    (folder.takeMkdir row.text1 0).putRmdir ⟨row.text1, row.sfolderid, row.id⟩

/-- `psync_init_task_renfolder_to`. `folderid` is the folder that moved. -/
def initTaskRenfolderTo : Rebuilt :=
  let folderid := row.sfolderid
  let rm : Rmdir := ⟨row.text1, folderid, row.id⟩
  let mk : Mkdir := ⟨row.text1, folderid, row.id, row.int2.toNat⟩
  (rebuilt.onFolder row.folderid fun folder => (folder.putRmdir rm).putMkdir mk).fldrChanged row folderid

/-- `psync_init_task_modify`. The file id is made from the task id of the new
entry before that is set. -/
def initTaskModify : Rebuilt :=
  let un : Unlink := ⟨row.text1, row.fileid, row.id⟩
  let cr : Creat := ⟨row.text1, -(junk.taskid row.id : ℤ), row.fileid.toNat, row.id⟩
  (rebuilt.onFolder row.folderid fun folder =>
    ((folder.takeCreat row.text1 0).putUnlink un).putCreat cr).fldrChanged row row.folderid

/-- `psync_init_task_func`; other types are skipped. -/
def initTask : Rebuilt :=
  match row.type with
  | .mkdir => initTaskMkdir row rebuilt
  | .rmdir => initTaskRmdir row rebuilt
  | .creat => initTaskCreat row rebuilt
  | .unlink => initTaskUnlink row rebuilt
  | .renfileFrom => initTaskRenfileFrom row rebuilt
  | .renfileTo => initTaskRenfileTo junk row rebuilt
  | .renfolderFrom => initTaskRenfolderFrom row rebuilt
  | .renfolderTo => initTaskRenfolderTo row rebuilt
  | .modify => initTaskModify junk row rebuilt
  | .unSetRev => initTaskUnlinkSetRev row rebuilt
  | .setFileMod | .setFileCr => rebuilt

/-- The two `UPDATE`s of `psync_fstask_init`. -/
def resetStatus (task : Task) : Task :=
  if task.status = 1 ∨ task.status = 2 then { task with status := 0 }
  else if task.status = 12 then { task with status := 11 }
  else task

/-- `psync_fstask_init` -/
def fstaskInit (tasks : List Task) : Rebuilt :=
  ((tasks.map resetStatus).filter fun task => task.status ≠ 3).foldl (fun rebuilt row => initTask junk row rebuilt)
    .empty

end Pclsync.Fs
