import Pclsync.Proofs.FolderErrors
import Pclsync.Proofs.FolderOverlay

/-! Restart of the drive. The replay of a row edits the tasks of one folder, and
the rows that an operation stores edit them as the operation did, except where the
two paths differ: a modified file, and a folder that is renamed over another one
or that the server already has. -/

namespace Pclsync.Proofs.Restart
open Pclsync.Fs Folders FolderViews FolderCounts FolderErrors FolderOverlay

/-- The same entries in each tree. -/
structure SameTasks (tasks other : FolderTasks) : Prop where
  mkdirs : tasks.mkdirs.Perm other.mkdirs
  rmdirs : tasks.rmdirs.Perm other.rmdirs
  creats : tasks.creats.Perm other.creats
  unlinks : tasks.unlinks.Perm other.unlinks

/-- After a restart every folder has the entries that it had, and each notification
names the folder of its task. -/
def Recovered (drive : Drive) : Prop :=
  ∀ junk, (∀ folderid, SameTasks ((fstaskInit junk drive.tasks).state.tasksOf folderid)
      (drive.state.tasksOf folderid)) ∧
    ∀ note ∈ (fstaskInit junk drive.tasks).changed, note.2 = note.1

/-- What the replay of a row does to the tasks of its folder. -/
def edit (junk : Junk) (row : Task) (tasks : FolderTasks) : FolderTasks :=
  match row.type with
  | .mkdir => tasks.addMkdir ⟨row.text1, -(row.id : ℤ), row.id, if row.text2.isNone then 0 else flagEncrypted⟩
  | .rmdir | .renfolderFrom => (tasks.delMkdir row.text1 0).addRmdir ⟨row.text1, row.sfolderid, row.id⟩
  | .creat => (tasks.addUnlink ⟨row.text1, -(row.id : ℤ), row.id⟩).addCreat
      ⟨row.text1, -(row.id : ℤ), row.fileid.toNat, row.id⟩
  | .unlink | .renfileFrom => (tasks.delCreat row.text1 0).addUnlink ⟨row.text1, row.fileid, row.id⟩
  | .unSetRev => (tasks.delCreat row.text1 0).addUnlink ⟨row.text1, row.int1, row.id⟩
  | .renfileTo => ((tasks.delCreat row.text1 0).addUnlinkAt (junk.place row.id)
      ⟨row.text1, row.fileid, row.id⟩).addCreat ⟨row.text1, row.fileid, row.int2.toNat, row.id⟩
  | .renfolderTo => (tasks.addRmdir ⟨row.text1, row.sfolderid, row.id⟩).addMkdir
      ⟨row.text1, row.sfolderid, row.id, row.int2.toNat⟩
  | .modify => ((tasks.delCreat row.text1 0).addUnlink ⟨row.text1, row.fileid, row.id⟩).addCreat
      ⟨row.text1, -(junk.taskid row.id : ℤ), row.fileid.toNat, row.id⟩
  | .setFileMod | .setFileCr => tasks

/-- The rows replayed in turn on the tasks of all folders. -/
def replay (junk : Junk) (rows : List Task) (overlay : ℤ → FolderTasks) : ℤ → FolderTasks :=
  rows.foldl (fun overlay row => Function.update overlay row.folderid (edit junk row (overlay row.folderid))) overlay

section Rebuild
variable {junk : Junk} {row task : Task} {rebuilt : Rebuilt} {tasks rows : List Task} {overlay : ℤ → FolderTasks}
  {change : Folder → Folder} {edited : FolderTasks → FolderTasks}

/-- The folders that are rebuilt have the tasks of an overlay. -/
structure Follows (rebuilt : Rebuilt) (overlay : ℤ → FolderTasks) : Prop where
  sound : Sound [] rebuilt.state
  closed : rebuilt.state.openfiles = []
  tasks : rebuilt.state.tasksOf = overlay

theorem onFolder_follows (follows : Follows rebuilt overlay) (edits : Edits change edited) (folderid : ℤ) :
    Follows (rebuilt.onFolder folderid change) (Function.update overlay folderid (edited (overlay folderid))) := by
  have held := follows.sound.getOrCreate folderid
  have place := place_getOrCreate follows.sound folderid
  have views : (rebuilt.state.getOrCreate folderid).2.tasksOf = overlay := by
    rw [← follows.tasks]
    funext id
    exact tasksOf_getOrCreate folderid id
  have closed : (rebuilt.state.getOrCreate folderid).2.openfiles = [] := by
    rw [openfiles_getOrCreate]
    exact follows.closed
  obtain ⟨sound, tasks⟩ := put_view held place edits
  rw [views] at tasks
  refine ⟨sound, ?_, tasks⟩
  simp only [Rebuilt.onFolder, openfiles_release, openfiles_update, closed]

theorem fldrChanged_follows (follows : Follows rebuilt overlay) (folderid : ℤ) :
    Follows (rebuilt.fldrChanged row folderid) overlay := by
  rw [Rebuilt.fldrChanged]
  split
  · exact ⟨follows.sound, follows.closed, follows.tasks⟩
  · exact follows

/-- No file is open yet. -/
theorem renameOpenfile_follows (follows : Follows rebuilt overlay) (fileid folderid : ℤ) :
    Follows { rebuilt with state := rebuilt.state.renameOpenfile fileid folderid } overlay := by
  have same : rebuilt.state.renameOpenfile fileid folderid = rebuilt.state := by
    rw [Folders.renameOpenfile, follows.closed]
    rfl
  rw [same]
  exact follows

/-- One row edits the tasks of its folder. -/
theorem initTask_follows (follows : Follows rebuilt overlay) (row : Task) :
    Follows (initTask junk row rebuilt)
      (Function.update overlay row.folderid (edit junk row (overlay row.folderid))) := by
  have work := @onFolder_follows rebuilt overlay
  cases kind : row.type with
  | mkdir =>
    simp only [initTask, edit, kind]
    exact fldrChanged_follows (work follows (.putMkdir _) _) _
  | rmdir =>
    simp only [initTask, edit, kind]
    exact work follows (.comp (.putRmdir _) (.takeMkdir _ _)) _
  | creat =>
    simp only [initTask, edit, kind]
    exact fldrChanged_follows (work follows (.comp (.putCreat _) (.putUnlink _)) _) _
  | unlink =>
    simp only [initTask, edit, kind]
    exact work follows (.comp (.putUnlink _) (.takeCreat _ _)) _
  | renfileFrom =>
    simp only [initTask, edit, kind]
    exact work follows (.comp (.putUnlink _) (.takeCreat _ _)) _
  | renfileTo =>
    simp only [initTask, edit, kind]
    exact fldrChanged_follows (renameOpenfile_follows
      (work follows (.comp (.putCreat _) (.comp (.putUnlinkAt _ _) (.takeCreat _ _))) _) _ _) _
  | renfolderFrom =>
    simp only [initTask, edit, kind]
    exact work follows (.comp (.putRmdir _) (.takeMkdir _ _)) _
  | renfolderTo =>
    simp only [initTask, edit, kind]
    exact fldrChanged_follows (work follows (.comp (.putMkdir _) (.putRmdir _)) _) _
  | modify =>
    simp only [initTask, edit, kind]
    exact fldrChanged_follows (work follows (.comp (.putCreat _) (.comp (.putUnlink _) (.takeCreat _ _))) _) _
  | unSetRev =>
    simp only [initTask, edit, kind]
    exact work follows (.comp (.putUnlink _) (.takeCreat _ _)) _
  | setFileMod =>
    simp only [initTask, edit, kind, Function.update_eq_self]
    exact follows
  | setFileCr =>
    simp only [initTask, edit, kind, Function.update_eq_self]
    exact follows

/-- A moved folder that the server has is notified only in itself. -/
def Told (row : Task) : Prop := row.type = .renfolderTo → row.sfolderid < 0 ∨ row.sfolderid = row.folderid

theorem fldrChanged_told {folderid : ℤ} (told : folderid < 0 ∨ folderid = row.folderid)
    (before : ∀ note ∈ rebuilt.changed, note.2 = note.1) :
    ∀ note ∈ (rebuilt.fldrChanged row folderid).changed, note.2 = note.1 := by
  rw [Rebuilt.fldrChanged]
  split
  · intro note member
    cases List.mem_append.mp member with
    | inl old => exact before note old
    | inr new =>
      rw [List.mem_singleton.mp new]
      simp only
      omega
  · exact before

theorem initTask_told (told : Told row) (before : ∀ note ∈ rebuilt.changed, note.2 = note.1) :
    ∀ note ∈ (initTask junk row rebuilt).changed, note.2 = note.1 := by
  cases kind : row.type with
  | mkdir | creat | modify | renfileTo =>
    simp only [initTask, kind]
    exact fldrChanged_told (.inr rfl) before
  | renfolderTo =>
    simp only [initTask, kind]
    exact fldrChanged_told (told kind) before
  | rmdir | unlink | unSetRev | renfileFrom | renfolderFrom | setFileMod | setFileCr =>
    simp only [initTask, kind]
    exact before

/-- The rows rebuilt in turn. -/
def rebuild (junk : Junk) (rows : List Task) (rebuilt : Rebuilt) : Rebuilt :=
  rows.foldl (fun rebuilt row => initTask junk row rebuilt) rebuilt

theorem rebuild_follows (follows : Follows rebuilt overlay) (rows : List Task) :
    Follows (rebuild junk rows rebuilt) (replay junk rows overlay) := by
  induction rows generalizing rebuilt overlay with
  | nil => exact follows
  | cons row rows ih => exact ih (initTask_follows follows row)

theorem rebuild_told (told : ∀ row ∈ rows, Told row) (before : ∀ note ∈ rebuilt.changed, note.2 = note.1) :
    ∀ note ∈ (rebuild junk rows rebuilt).changed, note.2 = note.1 := by
  induction rows generalizing rebuilt with
  | nil => exact before
  | cons row rows ih =>
    apply ih fun later member => told later (List.mem_cons_of_mem _ member)
    exact initTask_told (told row List.mem_cons_self) before

theorem initTask_status (status : ℕ) : initTask junk { row with status := status } = initTask junk row := by
  funext rebuilt
  cases row with
  | mk id type => cases type <;> rfl

theorem initTask_resetStatus : initTask junk (resetStatus row) = initTask junk row := by
  rw [resetStatus]
  split
  · exact initTask_status 0
  · split
    · exact initTask_status 11
    · rfl

theorem resetStatus_status : (resetStatus row).status = 3 ↔ row.status = 3 := by
  rw [resetStatus]
  split
  · next early =>
    simp only
    omega
  · split
    · next deleted =>
      simp only
      omega
    · rfl

/-- Without rows of finished uploads, every row is replayed. -/
theorem fstaskInit_eq (unfinished : ∀ task ∈ tasks, task.status ≠ 3) :
    fstaskInit junk tasks = rebuild junk tasks .empty := by
  have kept : (tasks.map resetStatus).filter (fun task => task.status ≠ 3) = tasks.map resetStatus := by
    rw [List.filter_eq_self]
    intro task member
    obtain ⟨before, inside, rfl⟩ := List.mem_map.mp member
    rw [decide_eq_true_iff, Ne, resetStatus_status]
    exact unfinished before inside
  rw [fstaskInit, kept, List.foldl_map, rebuild]
  congr 1
  funext rebuilt row
  rw [initTask_resetStatus]

theorem fstaskInit_tasksOf (unfinished : ∀ task ∈ tasks, task.status ≠ 3) :
    (fstaskInit junk tasks).state.tasksOf = replay junk tasks fun _ => .empty := by
  rw [fstaskInit_eq unfinished]
  exact (rebuild_follows ⟨.empty, rfl, rfl⟩ tasks).tasks

theorem replay_row : replay junk (tasks ++ [row]) overlay = Function.update (replay junk tasks overlay) row.folderid
    (edit junk row (replay junk tasks overlay row.folderid)) := by
  rw [replay, List.foldl_append]
  rfl

/-- Rows may change in what their replay does not read. -/
theorem replay_map {relabel : Task → Task} (folderid : ∀ task ∈ tasks, (relabel task).folderid = task.folderid)
    (alike : ∀ task ∈ tasks, edit junk (relabel task) = edit junk task) :
    replay junk (tasks.map relabel) overlay = replay junk tasks overlay := by
  induction tasks generalizing overlay with
  | nil => rfl
  | cons task tasks ih =>
    rw [List.map_cons, replay, List.foldl_cons, folderid task List.mem_cons_self, alike task List.mem_cons_self]
    exact ih (fun other later => folderid other (List.mem_cons_of_mem _ later))
      fun other later => alike other (List.mem_cons_of_mem _ later)

end Rebuild
/-- The same tasks, with the unlinks in any order. -/
structure Alike (tasks other : FolderTasks) : Prop where
  mkdirs : tasks.mkdirs = other.mkdirs
  rmdirs : tasks.rmdirs = other.rmdirs
  creats : tasks.creats = other.creats
  unlinks : tasks.unlinks.Perm other.unlinks

namespace Alike
variable {tasks other third : FolderTasks}

theorem refl (tasks : FolderTasks) : Alike tasks tasks := ⟨rfl, rfl, rfl, .refl _⟩

theorem symm (alike : Alike tasks other) : Alike other tasks :=
  ⟨alike.mkdirs.symm, alike.rmdirs.symm, alike.creats.symm, alike.unlinks.symm⟩

theorem trans (first : Alike tasks other) (second : Alike other third) : Alike tasks third :=
  ⟨first.mkdirs.trans second.mkdirs, first.rmdirs.trans second.rmdirs, first.creats.trans second.creats,
    first.unlinks.trans second.unlinks⟩

theorem sameTasks (alike : Alike tasks other) : SameTasks tasks other :=
  ⟨.of_eq alike.mkdirs, .of_eq alike.rmdirs, .of_eq alike.creats, alike.unlinks⟩

theorem addMkdir (alike : Alike tasks other) (task : Mkdir) : Alike (tasks.addMkdir task) (other.addMkdir task) :=
  ⟨congrArg (insertIntoTree task) alike.mkdirs, alike.rmdirs, alike.creats, alike.unlinks⟩

theorem addRmdir (alike : Alike tasks other) (task : Rmdir) : Alike (tasks.addRmdir task) (other.addRmdir task) :=
  ⟨alike.mkdirs, congrArg (insertIntoTree task) alike.rmdirs, alike.creats, alike.unlinks⟩

theorem addCreat (alike : Alike tasks other) (task : Creat) : Alike (tasks.addCreat task) (other.addCreat task) :=
  ⟨alike.mkdirs, alike.rmdirs, congrArg (insertIntoTree task) alike.creats, alike.unlinks⟩

theorem delMkdir (alike : Alike tasks other) (name : Name) : Alike (tasks.delMkdir name 0) (other.delMkdir name 0) :=
  ⟨congrArg (deleteFromTree name 0) alike.mkdirs, alike.rmdirs, alike.creats, alike.unlinks⟩

theorem delCreat (alike : Alike tasks other) (name : Name) : Alike (tasks.delCreat name 0) (other.delCreat name 0) :=
  ⟨alike.mkdirs, alike.rmdirs, congrArg (deleteFromTree name 0) alike.creats, alike.unlinks⟩

theorem insertIntoTree_perm (task : Unlink) (tree : List Unlink) : (insertIntoTree task tree).Perm (task :: tree) := by
  induction tree with
  | nil => exact .refl _
  | cons node rest ih =>
    rw [insertIntoTree]
    split
    · exact .refl _
    · exact .trans (.cons node ih) (.swap _ _ _)

theorem addUnlink (alike : Alike tasks other) (task : Unlink) : Alike (tasks.addUnlink task) (other.addUnlink task) := by
  refine ⟨alike.mkdirs, alike.rmdirs, alike.creats, ?_⟩
  calc
    (tasks.addUnlink task).unlinks.Perm (task :: tasks.unlinks) := insertIntoTree_perm task _
    List.Perm _ (task :: other.unlinks) := .cons task alike.unlinks
    List.Perm _ (other.addUnlink task).unlinks := (insertIntoTree_perm task _).symm

/-- An unlink at another place than its own. -/
theorem addUnlinkAt (alike : Alike tasks other) (place : ℕ) (task : Unlink) :
    Alike (tasks.addUnlinkAt place task) (other.addUnlink task) := by
  refine ⟨alike.mkdirs, alike.rmdirs, alike.creats, ?_⟩
  have placed : (tasks.addUnlinkAt place task).unlinks.Perm (task :: tasks.unlinks) := by
    have middle : (tasks.addUnlinkAt place task).unlinks.Perm
        (task :: (tasks.unlinks.take place ++ tasks.unlinks.drop place)) := List.perm_middle
    rw [List.take_append_drop] at middle
    exact middle
  exact placed.trans (.trans (.cons task alike.unlinks) (insertIntoTree_perm task _).symm)

/-- The replay of a row does the same to the same tasks. -/
theorem edit (alike : Alike tasks other) (junk : Junk) (row : Task) :
    Alike (Restart.edit junk row tasks) (Restart.edit junk row other) := by
  cases kind : row.type with
  | mkdir =>
    simp only [Restart.edit, kind]
    exact alike.addMkdir _
  | rmdir | renfolderFrom =>
    simp only [Restart.edit, kind]
    exact (alike.delMkdir _).addRmdir _
  | creat =>
    simp only [Restart.edit, kind]
    exact (alike.addUnlink _).addCreat _
  | unlink | renfileFrom | unSetRev =>
    simp only [Restart.edit, kind]
    exact (alike.delCreat _).addUnlink _
  | renfileTo =>
    simp only [Restart.edit, kind]
    have taken := alike.delCreat row.text1
    exact ((taken.addUnlinkAt _ _).trans ((refl _).addUnlinkAt _ _).symm).addCreat _
  | renfolderTo =>
    simp only [Restart.edit, kind]
    exact (alike.addRmdir _).addMkdir _
  | modify =>
    simp only [Restart.edit, kind]
    exact ((alike.delCreat _).addUnlink _).addCreat _
  | setFileMod | setFileCr =>
    simp only [Restart.edit, kind]
    exact alike

end Alike

/-- A row of that type has that id. -/
def Created (tasks : List Task) (type : TaskType) (id : ℤ) : Prop :=
  ∃ task ∈ tasks, (task.id : ℤ) = id ∧ task.type = type

/-- Ids grow, every row is replayed, a negative id is that of the row that created
the file or folder, and the rows replay to the tasks in memory. -/
structure Recoverable (drive : Drive) : Prop where
  ids : drive.tasks.Pairwise fun task later => task.id < later.id
  unfinished : ∀ task ∈ drive.tasks, task.status ≠ 3
  told : ∀ task ∈ drive.tasks, Told task
  mkdirs : ∀ folderid, ∀ mk ∈ (drive.state.tasksOf folderid).mkdirs, mk.folderid ≠ 0 ∧
    (mk.folderid < 0 → Created drive.tasks .mkdir (-mk.folderid))
  creats : ∀ folderid, ∀ cr ∈ (drive.state.tasksOf folderid).creats, cr.fileid ≠ 0 ∧
    (cr.fileid < 0 → Created drive.tasks .creat (-cr.fileid))
  sound : Settled Sound drive.state
  replayed : ∀ junk folderid, Alike (replay junk drive.tasks (fun _ => .empty) folderid) (drive.state.tasksOf folderid)

section Rows
variable {row task other : Task} {tasks rows : List Task} {type : TaskType} {id : ℤ}

theorem lt_insertid (ids : tasks.Pairwise fun task later => task.id < later.id) (member : task ∈ tasks) :
    task.id < insertid tasks := by
  rw [insertid]
  cases List.eq_nil_or_concat tasks with
  | inl empty =>
    subst empty
    cases member
  | inr some =>
    obtain ⟨front, last, rfl⟩ := some
    rw [List.concat_eq_append] at ids member ⊢
    rw [List.getLast?_append, List.getLast?_singleton, Option.some_or]
    cases List.mem_append.mp member with
    | inl early =>
      have below := (List.pairwise_append.mp ids).2.2 task early last (List.mem_singleton_self _)
      exact below.trans (Nat.lt_succ_self _)
    | inr same =>
      rw [List.mem_singleton.mp same]
      exact Nat.lt_succ_self _

theorem insertid_ne_zero : insertid tasks ≠ 0 := by
  rw [insertid]
  split
  · exact one_ne_zero
  · exact Nat.succ_ne_zero _

theorem insertid_append : insertid (tasks ++ [row]) = row.id + 1 := by
  rw [insertid, List.getLast?_append, List.getLast?_singleton, Option.some_or]

theorem insertid_map {relabel : Task → Task} (same : ∀ task ∈ tasks, (relabel task).id = task.id) :
    insertid (tasks.map relabel) = insertid tasks := by
  rw [insertid, insertid, List.getLast?_map]
  cases last : tasks.getLast? with
  | none => rfl
  | some task =>
    simp only [Option.map_some]
    rw [same task (List.mem_of_getLast? last)]

theorem same_of_id (ids : tasks.Pairwise fun task later => task.id < later.id) (member : task ∈ tasks)
    (otherMember : other ∈ tasks) (same : task.id = other.id) : task = other := by
  have distinct : (tasks.map (·.id)).Nodup := List.pairwise_map.mpr (ids.imp fun below => Nat.ne_of_lt below)
  exact List.inj_on_of_nodup_map distinct member otherMember same

theorem Created.append (created : Created tasks type id) (rows : List Task) : Created (tasks ++ rows) type id := by
  obtain ⟨task, member, same⟩ := created
  exact ⟨task, List.mem_append_left _ member, same⟩

/-- Where a pending folder comes from. -/
theorem mkdirs_edit {junk : Junk} {tasks : FolderTasks} {mk : Mkdir} (member : mk ∈ (edit junk row tasks).mkdirs) :
    mk ∈ tasks.mkdirs ∨ (row.type = .mkdir ∧ mk.folderid = -(row.id : ℤ)) ∨
      (row.type = .renfolderTo ∧ mk.folderid = row.sfolderid) := by
  cases kind : row.type with
  | mkdir =>
    simp only [edit, kind] at member
    cases mem_insertIntoTree.mp member with
    | inl new => exact .inr (.inl ⟨rfl, by rw [new]⟩)
    | inr old => exact .inl old
  | renfolderTo =>
    simp only [edit, kind] at member
    cases mem_insertIntoTree.mp member with
    | inl new => exact .inr (.inr ⟨rfl, by rw [new]⟩)
    | inr old => exact .inl old
  | rmdir | renfolderFrom =>
    simp only [edit, kind] at member
    exact .inl (mem_of_mem_deleteFromTree member)
  | creat | unlink | unSetRev | renfileFrom | renfileTo | modify | setFileMod | setFileCr =>
    simp only [edit, kind] at member
    exact .inl member

/-- Where a pending file comes from. -/
theorem creats_edit {junk : Junk} {tasks : FolderTasks} {cr : Creat} (unmodified : row.type ≠ .modify)
    (member : cr ∈ (edit junk row tasks).creats) :
    cr ∈ tasks.creats ∨ (row.type = .creat ∧ cr.fileid = -(row.id : ℤ)) ∨
      (row.type = .renfileTo ∧ cr.fileid = row.fileid) := by
  cases kind : row.type with
  | creat =>
    simp only [edit, kind] at member
    cases mem_insertIntoTree.mp member with
    | inl new => exact .inr (.inl ⟨rfl, by rw [new]⟩)
    | inr old => exact .inl old
  | renfileTo =>
    simp only [edit, kind] at member
    cases mem_insertIntoTree.mp member with
    | inl new => exact .inr (.inr ⟨rfl, by rw [new]⟩)
    | inr old => exact .inl (mem_of_mem_deleteFromTree old)
  | unlink | unSetRev | renfileFrom =>
    simp only [edit, kind] at member
    exact .inl (mem_of_mem_deleteFromTree member)
  | modify => exact absurd kind unmodified
  | mkdir | rmdir | renfolderFrom | renfolderTo | setFileMod | setFileCr =>
    simp only [edit, kind] at member
    exact .inl member

end Rows

/-- A row that an operation may store next. -/
structure Storable (tasks : List Task) (row : Task) : Prop where
  id : row.id = insertid tasks
  unfinished : row.status ≠ 3
  unmodified : row.type ≠ .modify
  told : Told row
  folder : row.type = .renfolderTo → row.sfolderid ≠ 0 ∧
    (row.sfolderid < 0 → Created tasks .mkdir (-row.sfolderid))
  file : row.type = .renfileTo → row.fileid ≠ 0 ∧ (row.fileid < 0 → Created tasks .creat (-row.fileid))

theorem Storable.plain {tasks : List Task} {row : Task} (status : ℕ) (type : TaskType) (id : row.id = insertid tasks)
    (same : row.status = status) (kind : row.type = type) (unfinished : status ≠ 3)
    (plain : type ≠ .modify ∧ type ≠ .renfolderTo ∧ type ≠ .renfileTo) : Storable tasks row where
  id := id
  unfinished := by rw [same]; exact unfinished
  unmodified := by rw [kind]; exact plain.1
  told moved := absurd (kind.symm.trans moved) plain.2.1
  folder moved := absurd (kind.symm.trans moved) plain.2.1
  file moved := absurd (kind.symm.trans moved) plain.2.2

namespace Recoverable
variable {drive : Drive} {row : Task} {state : Folders}

theorem recovered (recoverable : Recoverable drive) : Recovered drive := by
  intro junk
  constructor
  · intro folderid
    rw [fstaskInit_tasksOf recoverable.unfinished]
    exact (recoverable.replayed junk folderid).sameTasks
  · rw [fstaskInit_eq recoverable.unfinished]
    apply rebuild_told recoverable.told
    intro note member
    cases member

theorem empty : Recoverable .empty where
  ids := List.Pairwise.nil
  unfinished _ member := nomatch member
  told _ member := nomatch member
  mkdirs _ _ member := nomatch member
  creats _ _ member := nomatch member
  sound := .empty
  replayed _ _ := .refl _

/-- The tasks of one folder change as the replay of the new row will change them. -/
theorem put {edited : FolderTasks} (recoverable : Recoverable drive) (storable : Storable drive.tasks row)
    (sound : Settled Sound state) (view : state.tasksOf = Function.update drive.state.tasksOf row.folderid edited)
    (alike : ∀ junk, Alike (edit junk row (drive.state.tasksOf row.folderid)) edited) :
    Recoverable ⟨state, drive.tasks ++ [row]⟩ := by
  have own : Created (drive.tasks ++ [row]) row.type row.id :=
    ⟨row, List.mem_append_right _ (List.mem_singleton_self _), rfl, rfl⟩
  have nonzero : row.id ≠ 0 := by
    rw [storable.id]
    exact insertid_ne_zero
  constructor
  · rw [List.pairwise_append]
    refine ⟨recoverable.ids, List.pairwise_singleton _ _, ?_⟩
    intro task member later same
    rw [List.mem_singleton.mp same, storable.id]
    exact lt_insertid recoverable.ids member
  · intro task member
    cases List.mem_append.mp member with
    | inl old => exact recoverable.unfinished task old
    | inr new =>
      rw [List.mem_singleton.mp new]
      exact storable.unfinished
  · intro task member
    cases List.mem_append.mp member with
    | inl old => exact recoverable.told task old
    | inr new =>
      rw [List.mem_singleton.mp new]
      exact storable.told
  · intro folderid mk member
    have old : ∀ id, mk ∈ (drive.state.tasksOf id).mkdirs → mk.folderid ≠ 0 ∧
        (mk.folderid < 0 → Created (drive.tasks ++ [row]) .mkdir (-mk.folderid)) := by
      intro id inside
      obtain ⟨some, created⟩ := recoverable.mkdirs id mk inside
      exact ⟨some, fun negative => (created negative).append _⟩
    simp only [view] at member
    by_cases here : folderid = row.folderid
    · subst here
      rw [Function.update_self, ← (alike ⟨fun _ => 0, fun _ => 0⟩).mkdirs] at member
      obtain inside | ⟨kind, new⟩ | ⟨kind, new⟩ := mkdirs_edit member
      · exact old _ inside
      · rw [kind] at own
        rw [new, neg_neg]
        exact ⟨by omega, fun _ => own⟩
      · rw [new]
        exact ⟨(storable.folder kind).1, fun negative => ((storable.folder kind).2 negative).append _⟩
    · rw [Function.update_of_ne here] at member
      exact old _ member
  · intro folderid cr member
    have old : ∀ id, cr ∈ (drive.state.tasksOf id).creats → cr.fileid ≠ 0 ∧
        (cr.fileid < 0 → Created (drive.tasks ++ [row]) .creat (-cr.fileid)) := by
      intro id inside
      obtain ⟨some, created⟩ := recoverable.creats id cr inside
      exact ⟨some, fun negative => (created negative).append _⟩
    simp only [view] at member
    by_cases here : folderid = row.folderid
    · subst here
      rw [Function.update_self, ← (alike ⟨fun _ => 0, fun _ => 0⟩).creats] at member
      obtain inside | ⟨kind, new⟩ | ⟨kind, new⟩ := creats_edit storable.unmodified member
      · exact old _ inside
      · rw [kind] at own
        rw [new, neg_neg]
        exact ⟨by omega, fun _ => own⟩
      · rw [new]
        exact ⟨(storable.file kind).1, fun negative => ((storable.file kind).2 negative).append _⟩
    · rw [Function.update_of_ne here] at member
      exact old _ member
  · exact sound
  · intro junk folderid
    simp only [replay_row, view]
    have before := recoverable.replayed junk
    by_cases here : folderid = row.folderid
    · subst here
      rw [Function.update_self, Function.update_self]
      exact ((before row.folderid).edit junk row).trans (alike junk)
    · rw [Function.update_of_ne here, Function.update_of_ne here]
      exact before folderid

end Recoverable

/-- A row that changed in nothing that a replay reads. -/
structure Relabeled (row other : Task) : Prop where
  id : other.id = row.id
  type : other.type = row.type
  folderid : other.folderid = row.folderid
  unfinished : row.status ≠ 3 → other.status ≠ 3
  told : Told row → Told other
  edit : ∀ junk, edit junk other = edit junk row

namespace Recoverable
variable {drive : Drive} {tasks : List Task} {state : Folders} {relabel : Task → Task}

theorem created_map {type : TaskType} {id : ℤ} (relabeled : ∀ row ∈ tasks, Relabeled row (relabel row))
    (created : Created tasks type id) : Created (tasks.map relabel) type id := by
  obtain ⟨task, member, same, kind⟩ := created
  refine ⟨relabel task, List.mem_map_of_mem member, ?_, ?_⟩
  · rw [(relabeled task member).id]
    exact same
  · rw [(relabeled task member).type]
    exact kind

theorem map (recoverable : Recoverable ⟨state, tasks⟩) (relabeled : ∀ row ∈ tasks, Relabeled row (relabel row)) :
    Recoverable ⟨state, tasks.map relabel⟩ := by
  constructor
  · rw [List.pairwise_map]
    refine recoverable.ids.imp_of_mem ?_
    intro task later member laterMember below
    rw [(relabeled task member).id, (relabeled later laterMember).id]
    exact below
  · intro task member
    obtain ⟨before, inside, rfl⟩ := List.mem_map.mp member
    exact (relabeled before inside).unfinished (recoverable.unfinished before inside)
  · intro task member
    obtain ⟨before, inside, rfl⟩ := List.mem_map.mp member
    exact (relabeled before inside).told (recoverable.told before inside)
  · intro folderid mk member
    obtain ⟨some, created⟩ := recoverable.mkdirs folderid mk member
    exact ⟨some, fun negative => created_map relabeled (created negative)⟩
  · intro folderid cr member
    obtain ⟨some, created⟩ := recoverable.creats folderid cr member
    exact ⟨some, fun negative => created_map relabeled (created negative)⟩
  · exact recoverable.sound
  · intro junk folderid
    simp only
    rw [replay_map (fun task member => (relabeled task member).folderid) fun task member =>
      (relabeled task member).edit junk]
    exact recoverable.replayed junk folderid

end Recoverable

section Relabel
variable {row : Task} {tasks : List Task} {state : Folders}

theorem Relabeled.refl (row : Task) : Relabeled row row :=
  ⟨rfl, rfl, rfl, fun unfinished => unfinished, fun told => told, fun _ => rfl⟩

theorem Relabeled.status {status : ℕ} (unfinished : status ≠ 3) : Relabeled row { row with status := status } := by
  refine ⟨rfl, rfl, rfl, fun _ => unfinished, fun told => told, ?_⟩
  intro junk
  funext tasks
  cases row with
  | mk id type => cases type <;> rfl

/-- The replay of a created file or folder does not read where it is now. -/
theorem Relabeled.sfolderid {sfolderid : ℤ} (created : row.type = .mkdir ∨ row.type = .creat) :
    Relabeled row { row with sfolderid := sfolderid } := by
  refine ⟨rfl, rfl, rfl, fun unfinished => unfinished, ?_, ?_⟩
  · intro told moved
    cases created with
    | inl folder => exact absurd (folder.symm.trans moved) (by decide)
    | inr file => exact absurd (file.symm.trans moved) (by decide)
  · intro junk
    funext tasks
    cases row with
    | mk id type =>
      cases created with
      | inl folder =>
        simp only at folder
        subst folder
        rfl
      | inr file =>
        simp only at file
        subst file
        rfl

theorem Recoverable.stopAndDeleteFile (recoverable : Recoverable ⟨state, tasks⟩) (world : World)
    (openfiles : List OpenFile) (fileid : ℤ) :
    Recoverable ⟨state, Fs.stopAndDeleteFile world openfiles fileid tasks⟩ := by
  rw [Fs.stopAndDeleteFile]
  split
  · exact recoverable
  · apply recoverable.map
    intro row _
    split
    · exact .status (by split <;> decide)
    split
    · exact .status (by decide)
    · exact .refl row

theorem Recoverable.setSfolderid {type : TaskType} {id sfolderid : ℤ} (recoverable : Recoverable ⟨state, tasks⟩)
    (created : Created tasks type id) (kind : type = .mkdir ∨ type = .creat) :
    Recoverable ⟨state, Fs.setSfolderid sfolderid id tasks⟩ := by
  obtain ⟨task, member, same, own⟩ := created
  apply recoverable.map
  intro row inside
  split
  · next here =>
    have both : row = task := same_of_id recoverable.ids inside member (by omega)
    subst both
    apply Relabeled.sfolderid
    rw [own]
    exact kind
  · exact .refl row

end Relabel

/-- The rows of an operation replay to what it does in memory, as far as the tables
and the pending tasks before it tell. A file is not modified, and a folder that is
renamed has no number from the server yet, finds nothing of its new name in the
target, and nothing pending of its old name. -/
def Restorable (world : World) (drive : Drive) : Op → Prop
  | .modify _ _ _ _ _ => False
  | .renameFolder folderid parentfolderid name toFolderid newName _ =>
    (folderid < 0 ∨ folderid = toFolderid) ∧
    (drive.state.tasksOf toFolderid).findMkdir newName 0 = none ∧
    ((drive.state.tasksOf toFolderid).findRmdir newName 0 ≠ none ∨ toFolderid < 0 ∨
      ∀ other, world.otherFolder toFolderid folderid newName = some other → other.id = 0) ∧
    (Function.update drive.state.tasksOf parentfolderid
      ((drive.state.tasksOf parentfolderid).delMkdir name 0) toFolderid).findMkdir name 0 = none
  | _ => True

section Operations
variable {world : World} {drive after : Drive} {folderid fileid : ℤ} {name : Name}

theorem views (drive : Drive) (folderid : ℤ) :
    (drive.state.getOrCreate folderid).2.tasksOf = drive.state.tasksOf :=
  funext fun id => tasksOf_getOrCreate folderid id

theorem mkdir_recoverable (recoverable : Recoverable drive) {folderflags : ℕ}
    (success : mkdir world drive folderid name folderflags = ⟨after, .ok⟩) : Recoverable after := by
  obtain ⟨sound, view⟩ := work_view recoverable.sound
    (.putMkdir ⟨name, -(insertid drive.tasks : ℤ), insertid drive.tasks, folderflags &&& flagEncrypted⟩) folderid
  unfold mkdir at success
  simp only [back] at success
  split at success
  · cases success
  split at success
  · cases success
  split at success
  · cases success
  next keyed =>
  split at success
  · cases success
  · cases success
    refine recoverable.put (.plain 0 .mkdir rfl rfl rfl (by decide) (by decide)) sound view ?_
    intro junk
    have flags : (if (if folderflags &&& flagEncrypted ≠ 0 then world.newKey else none).isNone = true then 0
        else flagEncrypted) = folderflags &&& flagEncrypted := by
      have bit : folderflags &&& 1 = folderflags % 2 := Nat.and_one_is_mod _
      by_cases plain : folderflags &&& flagEncrypted = 0
      · simp [plain]
      · have secret : ¬world.newKey.isNone = true := fun missing => keyed ⟨plain, missing⟩
        rw [if_pos plain, if_neg secret]
        change ¬folderflags &&& 1 = 0 at plain
        change 1 = folderflags &&& 1
        omega
    simp only [edit, flags]
    exact .refl _

theorem rmdir_recoverable (recoverable : Recoverable drive) {parentflags : ℕ}
    (success : rmdir world drive folderid parentflags name = ⟨after, .ok⟩) : Recoverable after := by
  have held := soundAccess.hold recoverable.sound folderid
  have place := place_getOrCreate recoverable.sound folderid
  have same := views drive folderid
  have seen := tasks_getOrCreate recoverable.sound.toLinked folderid
  unfold rmdir at success
  generalize drive.state.getOrCreate folderid = created at held place same seen success
  obtain ⟨folder, state⟩ := created
  simp only [back] at held place same seen success
  have removed : ∀ cfolderid, ⟨⟨((((state.get cfolderid).2.update folder (·.takeMkdir name 0)).releaseIf
        (state.get cfolderid).1).update folder (·.putRmdir ⟨name, cfolderid, insertid drive.tasks⟩)).release folder,
      drive.tasks ++ [{
        id := insertid drive.tasks, type := .rmdir, status := 0, folderid := folderid, sfolderid := cfolderid,
        text1 := name }]⟩, .ok⟩ = (⟨after, .ok⟩ : Outcome) → Recoverable after := by
    intro cfolderid result
    have got := soundAccess.get held cfolderid
    have gotPlace := place.get (fun _ _ => rfl) cfolderid
    have taken := got.update (List.mem_append_right _ List.mem_cons_self) (.takeMkdir name 0)
    have takenView := got.tasksOf_update (List.mem_append_right _ List.mem_cons_self) gotPlace (.takeMkdir name 0)
    have finished := soundAccess.releaseIf taken
    have finishedPlace := (gotPlace.update (·.takeMkdir name 0) folder (Edits.takeMkdir name 0).addr
      (Edits.takeMkdir name 0).folderid).releaseIf (fun _ _ => rfl) (state.get cfolderid).1
    have finishedView := releaseIf_view taken
    have gotView : (state.get cfolderid).2.tasksOf = drive.state.tasksOf := by
      rw [← same]
      funext id
      exact tasksOf_get cfolderid id
    rw [takenView, gotView] at finishedView
    have open_files : refsOf (((state.get cfolderid).2.update folder (·.takeMkdir name 0)).releaseIf
        (state.get cfolderid).1) = refsOf state := by
      rw [refsOf, openfiles_releaseIf, openfiles_update, openfiles_get]
    rw [← open_files] at finished
    obtain ⟨sound, view⟩ := settled_put finished finishedPlace (.putRmdir ⟨name, cfolderid, insertid drive.tasks⟩)
    rw [finishedView, Function.update_idem, Function.update_self] at view
    cases result
    exact recoverable.put (.plain 0 .rmdir rfl rfl rfl (by decide) (by decide)) sound view fun _ => .refl _
  cases pending : (state.deref folder).tasks.findMkdir name 0 with
  | none =>
    simp only [pending, Option.isSome_none, Bool.false_eq_true, if_false] at success
    split at success
    · cases success
    next cfolderid _ =>
    split at success
    · cases success
    split at success
    · cases success
    · apply removed cfolderid
      rw [takeMkdir_absent held.toLinked pending]
      exact success
  | some mk =>
    have commuted : (state.update folder (·.addCount (-1))).get mk.folderid =
        ((state.get mk.folderid).1, (state.get mk.folderid).2.update folder (·.addCount (-1))) :=
      get_update (·.addCount (-1)) (fun _ => rfl) (fun _ => rfl) (fun _ => rfl) mk.folderid
    simp only [pending, Option.isSome_some, if_true, commuted] at success
    rw [takeMkdir_late held.toLinked (by rw [pending, Option.isSome_some])] at success
    split at success
    · cases success
    split at success
    · cases success
    · exact removed mk.folderid success

theorem addCreat_recoverable (recoverable : Recoverable drive) {encsymkey : Option (List UInt8)}
    (success : addCreat world drive folderid name fileid encsymkey = ⟨after, .ok⟩) : Recoverable after := by
  obtain ⟨sound, view⟩ := work_view recoverable.sound
    (.comp (.putCreat ⟨name, -(insertid drive.tasks : ℤ), fileid.toNat, insertid drive.tasks⟩)
      (.putUnlink ⟨name, -(insertid drive.tasks : ℤ), insertid drive.tasks⟩)) folderid
  unfold addCreat at success
  simp only [back] at success
  split at success
  · cases success
  split at success
  · cases success
  · cases success
    exact recoverable.put (.plain 1 .creat rfl rfl rfl (by decide) (by decide)) sound view fun _ => .refl _

/-- A file that is known is unlinked: its pending entry, if any, is gone before. -/
theorem unlinkFile_recoverable (recoverable : Recoverable drive) {folder : ℕ} {state : Folders} {rfileid : ℕ}
    (held : Sound (folder :: refsOf state) state)
    (place : At Folder.folderid folder folderid state)
    (view : state.tasksOf = Function.update drive.state.tasksOf folderid
      ((drive.state.tasksOf folderid).delCreat name 0))
    (success : unlinkFile world drive folder state folderid name fileid rfileid = ⟨after, .ok⟩) :
    Recoverable after := by
  have looked := getFileAtOldLocation_state world held.toLinked fileid
  have stopped : Recoverable ⟨drive.state,
      if fileid < 0 then stopAndDeleteFile world state.openfiles fileid drive.tasks else drive.tasks⟩ := by
    split
    · exact recoverable.stopAndDeleteFile world state.openfiles fileid
    · exact recoverable
  unfold unlinkFile at success
  generalize getFileAtOldLocation world state fileid = found at looked success
  obtain ⟨revoffileid, other⟩ := found
  simp only [back] at looked success
  subst looked
  split at success
  · cases success
  generalize (if fileid < 0 then stopAndDeleteFile world other.openfiles fileid drive.tasks else drive.tasks) = tasks
    at stopped success
  cases success
  obtain ⟨sound, put⟩ := settled_put held place (.putUnlink ⟨name, fileid, insertid tasks⟩)
  rw [view, Function.update_idem, Function.update_self] at put
  split
  · exact stopped.put (.plain 0 .unSetRev rfl rfl rfl (by decide) (by decide)) sound put fun _ => .refl _
  · refine stopped.put (.plain (if fileid < 0 then 11 else 0) .unlink rfl rfl rfl ?_ (by decide)) sound put
      fun _ => .refl _
    split <;> decide

theorem unlink_recoverable (recoverable : Recoverable drive)
    (success : unlink world drive folderid name = ⟨after, .ok⟩) : Recoverable after := by
  have held := soundAccess.hold recoverable.sound folderid
  have place := place_getOrCreate recoverable.sound folderid
  have same := views drive folderid
  have seen := tasks_getOrCreate recoverable.sound.toLinked folderid
  unfold unlink at success
  generalize drive.state.getOrCreate folderid = created at held place same seen success
  obtain ⟨folder, state⟩ := created
  simp only [back] at held place same seen success
  rw [seen] at success
  cases pending : (drive.state.tasksOf folderid).findCreat name 0 with
  | none =>
    simp only [pending] at success
    split at success
    · cases success
    split at success
    · cases success
    · apply unlinkFile_recoverable recoverable held place ?_ success
      have absent : (drive.state.tasksOf folderid).delCreat name 0 = drive.state.tasksOf folderid := by
        rw [FolderTasks.delCreat, deleteFromTree_absent pending]
      rw [absent, Function.update_eq_self]
      exact same
  | some cr =>
    simp only [pending] at success
    have some := (recoverable.creats folderid cr (mem_of_searchTree pending)).1
    rw [if_neg some] at success
    have taken := held.update List.mem_cons_self (.takeCreat name 0)
    have takenPlace := place.update (·.takeCreat name 0) folder (Edits.takeCreat name 0).addr
      (Edits.takeCreat name 0).folderid
    have takenView := held.tasksOf_update List.mem_cons_self place (.takeCreat name 0)
    rw [same] at takenView
    exact unlinkFile_recoverable recoverable taken takenPlace takenView success

/-- The file that `psync_fs_rename` looked up is on the server or was created. -/
theorem called_file {toFolderid : ℤ} {newName : Name} (recoverable : Recoverable drive)
    (called : Called drive (.renameFile fileid folderid name toFolderid newName)) :
    fileid ≠ 0 ∧ (fileid < 0 → Created drive.tasks .creat (-fileid)) := by
  rw [Called] at called
  split at called
  · next cr pending =>
    subst called
    exact recoverable.creats folderid cr (mem_of_searchTree pending)
  · exact ⟨by omega, fun negative => by omega⟩

/-- A file leaves the folder where it was. -/
theorem renfileFrom_recoverable (recoverable : Recoverable drive) (fileid folderid toFolderid : ℤ) (name : Name) :
    Recoverable ⟨((((drive.state.getOrCreate folderid).2.update (drive.state.getOrCreate folderid).1
        (·.takeCreat name 0)).renameOpenfile fileid toFolderid).update (drive.state.getOrCreate folderid).1
        (·.putUnlink ⟨name, fileid, insertid drive.tasks⟩)).release (drive.state.getOrCreate folderid).1,
      drive.tasks ++ [{
        id := insertid drive.tasks, type := .renfileFrom, status := 10, folderid := folderid, fileid := fileid,
        text1 := name }]⟩ := by
  have held := soundAccess.hold recoverable.sound folderid
  have place := place_getOrCreate recoverable.sound folderid
  have same := views drive folderid
  generalize drive.state.getOrCreate folderid = created at held place same ⊢
  obtain ⟨folder, state⟩ := created
  have taken : Sound (folder :: refsOf (state.update folder (·.takeCreat name 0)))
      (state.update folder (·.takeCreat name 0)) := held.update List.mem_cons_self (.takeCreat name 0)
  have takenPlace := place.update (·.takeCreat name 0) folder (Edits.takeCreat name 0).addr
    (Edits.takeCreat name 0).folderid
  have takenView := held.tasksOf_update List.mem_cons_self place (.takeCreat name 0)
  have moved := soundAccess.renameOpenfile taken fileid toFolderid
  obtain ⟨movedView, movedPlace⟩ := renameOpenfile_view taken takenPlace fileid toFolderid
  obtain ⟨sound, view⟩ := settled_put moved movedPlace (.putUnlink ⟨name, fileid, insertid drive.tasks⟩)
  rw [movedView, takenView, same, Function.update_idem, Function.update_self] at view
  exact recoverable.put (.plain 10 .renfileFrom rfl rfl rfl (by decide) (by decide)) sound view fun _ => .refl _

/-- A file comes into a folder, over what has its new name there. -/
theorem renfileTo_recoverable (recoverable : Recoverable drive) (some : fileid ≠ 0)
    (file : fileid < 0 → Created drive.tasks .creat (-fileid)) (ftaskid rfileid : ℕ) (toFolderid : ℤ) (newName : Name) :
    Recoverable ⟨work drive.state toFolderid fun folder =>
        ((folder.takeCreat newName 0).putUnlink ⟨newName, fileid, insertid drive.tasks⟩).putCreat
          ⟨newName, fileid, rfileid, insertid drive.tasks⟩,
      drive.tasks ++ [{
        id := insertid drive.tasks, type := .renfileTo, status := 0, folderid := toFolderid, fileid := fileid,
        text1 := newName, int1 := ftaskid, int2 := rfileid }]⟩ := by
  obtain ⟨sound, view⟩ := work_view recoverable.sound
    (.comp (.putCreat ⟨newName, fileid, rfileid, insertid drive.tasks⟩)
      (.comp (.putUnlink ⟨newName, fileid, insertid drive.tasks⟩) (.takeCreat newName 0))) toFolderid
  refine recoverable.put ⟨rfl, by simp, by simp, ?_, ?_, fun _ => ⟨some, file⟩⟩ sound view ?_
  · intro moved
    cases moved
  · intro moved
    cases moved
  · intro junk
    simp only [edit, Int.toNat_natCast]
    exact ((Alike.refl _).addUnlinkAt _ _).addCreat _

theorem Recoverable.stopReplaced {tasks : List Task} {state : Folders} (recoverable : Recoverable ⟨state, tasks⟩)
    (openfiles : List OpenFile) (replaced : Option Creat) :
    Recoverable ⟨state, Fs.stopReplaced world openfiles replaced tasks⟩ := by
  unfold Fs.stopReplaced
  split
  · split
    · exact recoverable.stopAndDeleteFile world openfiles _
    · exact recoverable
  · exact recoverable

theorem renameFile_recoverable (recoverable : Recoverable drive) {toFolderid : ℤ} {newName : Name}
    (called : Called drive (.renameFile fileid folderid name toFolderid newName))
    (success : renameFile world drive fileid folderid name toFolderid newName = ⟨after, .ok⟩) :
    Recoverable after := by
  obtain ⟨some, file⟩ := called_file recoverable called
  have source := renfileFrom_recoverable recoverable fileid folderid toFolderid name
  have target := renfileTo_recoverable source some (fun negative => (file negative).append _) (insertid drive.tasks)
    (rfileidOf (((drive.state.getOrCreate folderid).2.deref (drive.state.getOrCreate folderid).1).tasks.findCreat name 0))
    toFolderid newName
  unfold renameFile at success
  simp only [back] at success
  split at success
  · cases success
  cases success
  apply Recoverable.stopReplaced
  rw [insertid_append, List.append_assoc] at target
  split
  · next negative => exact target.setSfolderid ((file negative).append _) (.inr rfl)
  · exact target

/-- The folder that `psync_fs_rename` looked up is on the server or was created. -/
theorem called_folder {parentfolderid toFolderid : ℤ} {newName : Name} {targetflags : ℕ}
    (recoverable : Recoverable drive)
    (called : Called drive (.renameFolder folderid parentfolderid name toFolderid newName targetflags)) :
    folderid ≠ 0 ∧ (folderid < 0 → Created drive.tasks .mkdir (-folderid)) := by
  rw [Called] at called
  split at called
  · next mk pending =>
    subst called
    exact recoverable.mkdirs parentfolderid mk (mem_of_searchTree pending)
  · exact ⟨by omega, fun negative => by omega⟩

/-- Nothing of the new name is in the target. -/
theorem deleteFolderIfEx_vacant {toFolderid : ℤ} {newName : Name} (recoverable : Recoverable drive)
    (absent : (drive.state.tasksOf toFolderid).findMkdir newName 0 = none)
    (vacant : (drive.state.tasksOf toFolderid).findRmdir newName 0 ≠ none ∨ toFolderid < 0 ∨
      ∀ other, world.otherFolder toFolderid folderid newName = some other → other.id = 0) :
    deleteFolderIfEx world drive drive.state toFolderid newName folderid = ([], drive.state) := by
  have returned := releaseIf_get recoverable.sound.toLinked toFolderid
  have seen := tasks_get recoverable.sound.toLinked toFolderid
  unfold deleteFolderIfEx
  simp only [returned, seen, absent, Prod.mk.injEq, and_true]
  split
  · rfl
  next unremoved =>
  rw [← Option.isSome_iff_ne_none] at vacant
  cases vacant with
  | inl removed => exact absurd removed unremoved
  | inr other =>
    split
    · rfl
    next server =>
    split
    · next row found => rw [if_pos (other.resolve_left server row found)]
    · rfl

/-- A folder leaves its parent. -/
theorem renfolderFrom_recoverable (recoverable : Recoverable drive) (folderid parentfolderid : ℤ) (name : Name) :
    Recoverable ⟨work drive.state parentfolderid fun folder =>
        (folder.takeMkdir name 0).putRmdir ⟨name, folderid, insertid drive.tasks⟩,
      drive.tasks ++ [{
        id := insertid drive.tasks, type := .renfolderFrom, status := 10, folderid := parentfolderid,
        sfolderid := folderid, text1 := name }]⟩ := by
  obtain ⟨sound, view⟩ := work_view recoverable.sound
    (.comp (.putRmdir ⟨name, folderid, insertid drive.tasks⟩) (.takeMkdir name 0)) parentfolderid
  exact recoverable.put (.plain 10 .renfolderFrom rfl rfl rfl (by decide) (by decide)) sound view fun _ => .refl _

/-- A folder comes into another one, where nothing has its old name. -/
theorem renfolderTo_recoverable (recoverable : Recoverable drive) (some : folderid ≠ 0)
    (folder : folderid < 0 → Created drive.tasks .mkdir (-folderid)) {toFolderid : ℤ}
    (own : folderid < 0 ∨ folderid = toFolderid) (ftaskid targetflags : ℕ) (newName : Name)
    (absent : (drive.state.tasksOf toFolderid).findMkdir name 0 = none) :
    Recoverable ⟨work drive.state toFolderid fun folder =>
        ((folder.takeMkdir name 0).putRmdir ⟨newName, folderid, insertid drive.tasks⟩).putMkdir
          ⟨newName, folderid, insertid drive.tasks, targetflags⟩,
      drive.tasks ++ [{
        id := insertid drive.tasks, type := .renfolderTo, status := 0, folderid := toFolderid, sfolderid := folderid,
        text1 := newName, int1 := ftaskid, int2 := targetflags }]⟩ := by
  obtain ⟨sound, view⟩ := work_view recoverable.sound
    (.comp (.putMkdir ⟨newName, folderid, insertid drive.tasks, targetflags⟩)
      (.comp (.putRmdir ⟨newName, folderid, insertid drive.tasks⟩) (.takeMkdir name 0))) toFolderid
  have kept : (drive.state.tasksOf toFolderid).delMkdir name 0 = drive.state.tasksOf toFolderid := by
    rw [FolderTasks.delMkdir, deleteFromTree_absent absent]
  rw [kept] at view
  refine recoverable.put ⟨rfl, by simp, by simp, fun _ => own, fun _ => ⟨some, folder⟩, ?_⟩ sound view ?_
  · intro moved
    cases moved
  · intro junk
    simp only [edit, Int.toNat_natCast]
    exact .refl _

theorem renameFolder_recoverable (recoverable : Recoverable drive) {parentfolderid toFolderid : ℤ} {newName : Name}
    {targetflags : ℕ}
    (called : Called drive (.renameFolder folderid parentfolderid name toFolderid newName targetflags))
    (restorable : Restorable world drive (.renameFolder folderid parentfolderid name toFolderid newName targetflags))
    (success : renameFolder world drive folderid parentfolderid name toFolderid newName targetflags = ⟨after, .ok⟩) :
    Recoverable after := by
  obtain ⟨some, folder⟩ := called_folder recoverable called
  obtain ⟨own, absent, vacant, old⟩ := restorable
  have removal := deleteFolderIfEx_vacant recoverable absent vacant
  have source := renfolderFrom_recoverable recoverable folderid parentfolderid name
  have gone : ((work drive.state parentfolderid fun folder =>
      (folder.takeMkdir name 0).putRmdir ⟨name, folderid, insertid drive.tasks⟩).tasksOf toFolderid).findMkdir name 0 =
        none := by
    obtain ⟨_, view⟩ := work_view recoverable.sound
      (.comp (.putRmdir ⟨name, folderid, insertid drive.tasks⟩) (.takeMkdir name 0)) parentfolderid
    rw [view]
    by_cases same : toFolderid = parentfolderid
    · subst same
      rw [Function.update_self] at old ⊢
      exact old
    · rw [Function.update_of_ne same] at old ⊢
      exact old
  have target := renfolderTo_recoverable source some (fun negative => (folder negative).append _) own
    (insertid drive.tasks) targetflags newName gone
  unfold renameFolder at success
  simp only [back, removal, List.append_nil] at success
  split at success
  · cases success
  cases success
  rw [insertid_append, List.append_assoc] at target
  split
  · next negative => exact target.setSfolderid ((folder negative).append _) (.inl rfl)
  · exact target

theorem runOp_recoverable (recoverable : Recoverable drive) {op : Op} (called : Called drive op)
    (restorable : Restorable world drive op) (success : runOp world drive op = ⟨after, .ok⟩) : Recoverable after := by
  cases op with
  | mkdir folderid name folderflags => exact mkdir_recoverable recoverable success
  | rmdir folderid parentflags name => exact rmdir_recoverable recoverable success
  | creat folderid name fileid encsymkey => exact addCreat_recoverable recoverable success
  | modify folderid name fileid hash encsymkey => exact absurd restorable not_false
  | unlink folderid name => exact unlink_recoverable recoverable success
  | renameFile fileid parentfolderid name toFolderid newName => exact renameFile_recoverable recoverable called success
  | renameFolder folderid parentfolderid name toFolderid newName targetflags =>
    exact renameFolder_recoverable recoverable called restorable success

/-- The folders may be held by others as long as they have the same tasks. -/
theorem Recoverable.hold {state : Folders} (recoverable : Recoverable drive) (sound : Settled Sound state)
    (view : state.tasksOf = drive.state.tasksOf) : Recoverable { drive with state := state } where
  ids := recoverable.ids
  unfinished := recoverable.unfinished
  told := recoverable.told
  mkdirs := by
    simp only [view]
    exact recoverable.mkdirs
  creats := by
    simp only [view]
    exact recoverable.creats
  sound := sound
  replayed := by
    simp only [view]
    exact recoverable.replayed

end Operations

section Runs
variable {steps : List Step} {drive : Drive}

theorem successful_recoverable (run : Successful steps drive)
    (restorable : ∀ step ∈ steps, ∀ op, step.event = .op op → Restorable step.world step.before op) :
    Recoverable drive := by
  induction run with
  | start => exact .empty
  | op world op before called success ih =>
    have recoverable := ih fun step member => restorable step (List.mem_append_left _ member)
    have last := restorable _ (List.mem_append_right _ (List.mem_singleton_self _)) op rfl
    exact runOp_recoverable recoverable called last success
  | opened fileid folderid before ih =>
    have recoverable := ih restorable
    apply recoverable.hold (soundAccess.openFile recoverable.sound fileid folderid)
    funext id
    exact tasksOf_getOrCreate folderid id
  | closed fl before member ih =>
    have recoverable := ih restorable
    apply recoverable.hold (soundAccess.closeFile recoverable.sound member)
    funext id
    have out := recoverable.sound.perm ((List.perm_cons_erase member).map (·.currentfolder))
    exact (out.openfiles _).tasksOf_release id

/-- Operations whose rows replay to what they did are recovered by a restart. -/
theorem restart_recovers (run : Successful steps drive)
    (restorable : ∀ step ∈ steps, ∀ op, step.event = .op op → Restorable step.world step.before op) :
    Recovered drive :=
  (successful_recoverable run restorable).recovered

end Runs

/-- `mkdir a`, and a file that is created in it. -/
theorem restart_recovers_creat : Recovered (addCreat bare oneFolder (-1) [98] 0 none).drive := by
  have made : Successful _ oneFolder := .op bare (.mkdir 0 [97] 0) .start trivial rfl
  have created : Successful _ (addCreat bare oneFolder (-1) [98] 0 none).drive :=
    .op bare (.creat (-1) [98] 0 none) made trivial rfl
  apply restart_recovers created
  intro step member op same
  rw [List.nil_append, List.singleton_append, List.mem_cons, List.mem_singleton] at member
  cases member with
  | inl first =>
    subst first
    cases same
    trivial
  | inr second =>
    subst second
    cases same
    trivial

/-- A file that was modified has another id after the restart. -/
theorem restart_modified : ¬∀ steps drive, Successful steps drive → Recovered drive := by
  intro all
  have modified : Successful _ (addModifiedFile bare .empty 0 [97] 5 0 none).drive :=
    .op bare (.modify 0 [97] 5 0 none) .start trivial rfl
  have same := ((all _ _ modified ⟨fun _ => 0, fun _ => 0⟩).1 0).creats
  revert same
  decide

end Pclsync.Proofs.Restart
