import Pclsync.Fs.Xattr
import Pclsync.Proofs.Resolve
import Pclsync.Proofs.Restart

/-! Whose attributes they are: the numbers of objects, before and after a restart, and what is given a new number. -/

namespace Pclsync.Proofs.Xattr
open Pclsync.Fs Folders FolderCounts FolderOverlay FolderViews Restart

section Objects

/-- What attributes are kept for. -/
inductive Object where
  | folder (id : ℤ)
  | file (id : ℤ)
  | task (id : ℤ)
  | staticfile (taskid : ℤ)
deriving DecidableEq, Repr

namespace Object

def objid : Object → ℤ
  | folder id => folderidToObjid id
  | file id => fileidToObjid id
  | task id => taskidToObjid id
  | staticfile taskid => staticTaskidToObjid taskid

/-- The numbers that are left for an object. The ones of static files are counted from the end. -/
def InRange : Object → Prop
  | folder id => 0 ≤ id ∧ id < 2 ^ 60
  | file id => 0 ≤ id ∧ id < 2 ^ 60
  | task id => 0 ≤ id ∧ id < 2 ^ 60
  | staticfile taskid => 2 ^ 64 - 2 ^ 60 < taskid ∧ taskid < 2 ^ 64

/-- The number without a bound. -/
def number : Object → ℤ
  | folder id => 8 * id
  | file id => 8 * id + 1
  | task id => 8 * id + 2
  | staticfile taskid => 8 * (2 ^ 64 - taskid) + 3

theorem int64_eq {number : ℤ} (nonneg : 0 ≤ number) (below : number < 2 ^ 63) : int64 number = number := by
  unfold int64
  apply Int.bmod_eq_of_le_mul_two
  · push_cast
    omega
  · push_cast
    omega

theorem number_range {object : Object} (inRange : object.InRange) : 0 ≤ object.number ∧ object.number < 2 ^ 63 := by
  cases object <;>
  · simp only [InRange] at inRange
    simp only [number]
    omega

theorem objid_eq {object : Object} (inRange : object.InRange) : object.objid = object.number := by
  obtain ⟨nonneg, below⟩ := number_range inRange
  rw [← int64_eq nonneg below]
  have last : ((uint64Max : ℕ) : ℤ) = 2 ^ 64 - 1 := by norm_num
  cases object with
  | folder id =>
    simp only [objid, folderidToObjid, number]
    congr 1
    ring
  | file id =>
    simp only [objid, fileidToObjid, number]
    congr 1
    ring
  | task id =>
    simp only [objid, taskidToObjid, number]
    congr 1
    ring
  | staticfile taskid =>
    simp only [objid, staticTaskidToObjid, number, last]
    congr 1
    ring

theorem objid_inj {object other : Object} (inRange : object.InRange) (otherRange : other.InRange) :
    object.objid = other.objid ↔ object = other := by
  rw [objid_eq inRange, objid_eq otherRange]
  refine ⟨fun same => ?_, fun same => by rw [same]⟩
  cases object <;> cases other <;>
  · simp only [number] at same
    congr 1
    omega

theorem objid_found {object : Object} (inRange : object.InRange) : object.objid ≠ -1 := by
  rw [objid_eq inRange]
  have := (number_range inRange).1
  omega

end Object

end Objects

section Lookup

variable (store : Store)

/-- The object of a pending file. A modified file is the file on the server. -/
def creatObject (cr : Creat) : Object :=
  if cr.fileid > 0 then .file cr.fileid
  else if cr.fileid = 0 then .staticfile cr.taskid
  else
    match selectTask store.drive.tasks (-cr.fileid).toNat with
    | some row => if row.type = .creat then .task (-cr.fileid) else .file row.fileid
    | none => .task (-cr.fileid)

/-- The object of a row that no pending task hides. -/
def rowObject (tasks : FolderTasks) (folderid : ℤ) (name : Name) : Option Object :=
  let folder := if (tasks.findRmdir name 0).isSome then none else store.world.folder folderid name
  let file := if (tasks.findUnlink name 0).isSome then none else store.world.file folderid name
  match folder, file with
  | some row, _ => some (.folder row.id)
  | none, some row => some (.file row.id)
  | none, none => none

/-- What has that name in a folder. -/
def objectAt (folderid : ℤ) (name : Name) : Option Object :=
  let tasks := store.drive.state.tasksOf folderid
  match tasks.findMkdir name 0, tasks.findCreat name 0 with
  | some made, _ => some (if made.folderid > 0 then .folder made.folderid else .task (-made.folderid))
  | none, some cr => some (creatObject store cr)
  | none, none => if folderid < 0 then none else rowObject store tasks folderid name

/-- What a path leads to. -/
def objectOf (path : Name) : Option Object :=
  if path = [slash] then some (.folder 0)
  else
    match store.view.resolvePath path with
    | .ok fspath => objectAt store fspath.folderid fspath.name
    | .error _ => none

/-- The row of a pending file is there, if it has one. -/
def HasRow (folderid : ℤ) (name : Name) : Prop :=
  (store.drive.state.tasksOf folderid).findMkdir name 0 = none →
    ∀ cr, (store.drive.state.tasksOf folderid).findCreat name 0 = some cr → cr.fileid < 0 →
      (selectTask store.drive.tasks (-cr.fileid).toNat).isSome

/-- The row of the pending file that a path leads to is there. -/
def Rowed (path : Name) : Prop :=
  path ≠ [slash] → ∀ fspath, store.view.resolvePath path = .ok fspath → HasRow store fspath.folderid fspath.name

variable {store} {folderid : ℤ} {name path : Name} {object other : Object}

theorem objectId_eq (rowed : HasRow store folderid name) (found : objectAt store folderid name = some object) :
    store.objectId folderid name = object.objid := by
  unfold HasRow at rowed
  unfold objectAt at found
  unfold Store.objectId
  generalize store.drive.state.tasksOf folderid = tasks at rowed found ⊢
  cases made : tasks.findMkdir name 0 with
  | some mk =>
    simp only [made, Option.some.injEq] at found ⊢
    rw [← found]
    split <;> rfl
  | none =>
    cases created : tasks.findCreat name 0 with
    | some cr =>
      simp only [made, created, Option.some.injEq] at found ⊢
      rw [← found]
      unfold creatObject Store.creatObjid
      split
      · rfl
      split
      · rfl
      · obtain ⟨row, stored⟩ := Option.isSome_iff_exists.mp (rowed made cr created (by omega))
        rw [stored]
        dsimp only
        split <;> rfl
    | none =>
      simp only [made, created] at found ⊢
      split at found
      · cases found
      · next server =>
        rw [if_neg server]
        unfold rowObject at found
        unfold Store.rowObjid
        generalize (if (tasks.findRmdir name 0).isSome then none else store.world.folder folderid name) = folder at found ⊢
        generalize (if (tasks.findUnlink name 0).isSome then none else store.world.file folderid name) = file at found ⊢
        cases folder with
        | some row =>
          cases found
          rfl
        | none =>
          cases file with
          | some row =>
            cases found
            rfl
          | none => cases found

/-- Without its row a pending file is there, and is not found. -/
theorem objectId_missing (lost : ¬HasRow store folderid name) :
    (objectAt store folderid name).isSome ∧ store.objectId folderid name = -1 := by
  unfold HasRow at lost
  push Not at lost
  obtain ⟨made, cr, created, negative, stored⟩ := lost
  unfold objectAt Store.objectId
  simp only [made, created, Option.isSome_some, true_and]
  unfold Store.creatObjid
  rw [if_neg (by omega), if_neg (by omega), Option.not_isSome_iff_eq_none.mp stored]

theorem xattrGetObjectId_eq (rowed : Rowed store path) (found : objectOf store path = some object) :
    store.xattrGetObjectIdLocked path = object.objid := by
  unfold objectOf at found
  unfold Store.xattrGetObjectIdLocked
  by_cases root : path = [slash]
  · rw [if_pos root] at found ⊢
    cases found
    rfl
  · rw [if_neg root] at found ⊢
    cases resolved : store.view.resolvePath path with
    | error reason =>
      rw [resolved] at found
      cases found
    | ok fspath =>
      rw [resolved] at found
      exact objectId_eq (rowed root fspath resolved) found

/-- Existing objects are found, and different ones have different numbers. -/
def Identified (store : Store) : Prop :=
  ∀ path object, objectOf store path = some object → store.xattrGetObjectIdLocked path ≠ -1 ∧
    ∀ path' other, objectOf store path' = some other → object ≠ other →
      store.xattrGetObjectIdLocked path ≠ store.xattrGetObjectIdLocked path'

/-- The ids of all objects are below the bound. -/
def Ranged (store : Store) : Prop := ∀ path object, objectOf store path = some object → object.InRange

theorem identified_iff (ranged : Ranged store) : Identified store ↔ ∀ path, Rowed store path := by
  constructor
  · intro identified path root fspath resolved
    by_contra lost
    obtain ⟨there, missing⟩ := objectId_missing lost
    obtain ⟨object, there⟩ := Option.isSome_iff_exists.mp there
    have found : objectOf store path = some object := by
      unfold objectOf
      rw [if_neg root, resolved]
      exact there
    apply (identified path object found).1
    unfold Store.xattrGetObjectIdLocked
    rw [if_neg root, resolved]
    exact missing
  · intro rowed path object found
    have inRange := ranged path object found
    rw [xattrGetObjectId_eq (rowed path) found]
    refine ⟨Object.objid_found inRange, fun path' other found' differs => ?_⟩
    rw [xattrGetObjectId_eq (rowed path') found']
    exact fun same => differs ((Object.objid_inj inRange (ranged path' other found')).mp same)

end Lookup

section Restart

/-- The same tables, tasks that are found alike, and rows that say the same of pending files. -/
structure Same (store other : Store) : Prop where
  world : other.world = store.world
  outside : other.outside = store.outside
  tasks : ∀ folderid, Alike (store.drive.state.tasksOf folderid) (other.drive.state.tasksOf folderid)
  rows : ∀ taskid, (selectTask other.drive.tasks taskid).map (fun row => (row.type, row.fileid)) =
    (selectTask store.drive.tasks taskid).map fun row => (row.type, row.fileid)

variable {store other : Store} {tasks later : FolderTasks}

theorem findMkdir_alike (alike : Alike tasks later) (name : Name) : later.findMkdir name 0 = tasks.findMkdir name 0 := by
  rw [FolderTasks.findMkdir, FolderTasks.findMkdir, alike.mkdirs]

theorem findRmdir_alike (alike : Alike tasks later) (name : Name) : later.findRmdir name 0 = tasks.findRmdir name 0 := by
  rw [FolderTasks.findRmdir, FolderTasks.findRmdir, alike.rmdirs]

theorem findCreat_alike (alike : Alike tasks later) (name : Name) : later.findCreat name 0 = tasks.findCreat name 0 := by
  rw [FolderTasks.findCreat, FolderTasks.findCreat, alike.creats]

theorem findUnlink_alike (alike : Alike tasks later) (name : Name) :
    (later.findUnlink name 0).isSome = (tasks.findUnlink name 0).isSome := by
  rw [Bool.eq_iff_iff]
  simp only [FolderTasks.findUnlink, searchTree, List.find?_isSome, alike.unlinks.mem_iff]

theorem creatObjid_same (same : Same store other) (cr : Creat) : other.creatObjid cr = store.creatObjid cr := by
  unfold Store.creatObjid
  have rows := same.rows (-cr.fileid).toNat
  cases before : selectTask store.drive.tasks (-cr.fileid).toNat with
  | none =>
    rw [before] at rows
    rw [Option.map_eq_none_iff.mp rows]
  | some row =>
    rw [before, Option.map_some] at rows
    obtain ⟨last, after, equal⟩ := Option.map_eq_some_iff.mp rows
    rw [Prod.mk.injEq] at equal
    rw [after]
    simp only [equal.1, equal.2]

theorem objectId_same (same : Same store other) (folderid : ℤ) (name : Name) : other.objectId folderid name = store.objectId folderid name := by
  have alike := same.tasks folderid
  unfold Store.objectId Store.rowObjid
  simp only [findMkdir_alike alike, findCreat_alike alike, findRmdir_alike alike, findUnlink_alike alike, same.world]
  cases (store.drive.state.tasksOf folderid).findMkdir name 0 with
  | some made => rfl
  | none =>
    cases (store.drive.state.tasksOf folderid).findCreat name 0 with
    | some cr => exact creatObjid_same same cr
    | none => rfl

/-- Where a component leads, as far as the next one needs it. -/
def leads (store : Store) (folderid : ℤ) (flags : ℕ) (component : Name) : Except NoFolder (ℤ × ℕ) := do
  let ename ← store.view.ename folderid flags component
  match (store.drive.state.tasksOf folderid).findMkdir ename 0 with
  | some made => if made.flags &&& flagInvisible ≠ 0 then .error .notFound else .ok (made.folderid, made.flags)
  | none =>
    match store.world.folder folderid ename with
    | some row =>
      if ((store.drive.state.tasksOf folderid).findRmdir ename 0).isSome then .error .notFound else .ok (row.id, row.flags)
    | none => .error .notFound

def ends (place : Resolving) : ℤ × ℕ := (place.cfolderid, place.flags)

theorem resolveStep_leads (place : Resolving) (component : Name) :
    (store.view.resolveStep place component).map ends = leads store place.cfolderid place.flags component := by
  have folders : store.view.folders place.cfolderid = (store.drive.state.lookup place.cfolderid).map (·.tasks) := rfl
  unfold View.resolveStep leads
  cases store.view.ename place.cfolderid place.flags component with
  | error reason => rfl
  | ok ename =>
    have stored : store.view.folder place.cfolderid ename = (store.world.folder place.cfolderid ename).map fun row =>
      ⟨row.id, store.outside.permissions row.id, row.flags, store.outside.userid row.id⟩ := rfl
    simp only [folders, stored, bind, Except.bind]
    cases looked : store.drive.state.lookup place.cfolderid with
    | some folder =>
      have tasks : store.drive.state.tasksOf place.cfolderid = folder.tasks := by
        rw [Folders.tasksOf, looked]
      simp only [tasks, Option.map_some]
      cases folder.tasks.findMkdir ename 0 with
      | some made =>
        simp only
        split <;> rfl
      | none =>
        cases store.world.folder place.cfolderid ename with
        | some row =>
          simp only [Option.map_some]
          split <;> rfl
        | none => rfl
    | none =>
      have tasks : store.drive.state.tasksOf place.cfolderid = .empty := by
        rw [Folders.tasksOf, looked]
      simp only [tasks, Option.map_none]
      cases store.world.folder place.cfolderid ename <;> rfl

theorem leads_same (same : Same store other) (folderid : ℤ) (flags : ℕ) (component : Name) :
    leads other folderid flags component = leads store folderid flags component := by
  have alike := same.tasks folderid
  have encoded : other.view.ename folderid flags component = store.view.ename folderid flags component := by
    simp only [View.ename, Store.view, same.outside]
  unfold leads
  simp only [encoded, findMkdir_alike alike, findRmdir_alike alike, same.world]

theorem resolveStep_same (same : Same store other) (component : Name) {place later : Resolving} (here : ends later = ends place) :
    (other.view.resolveStep later component).map ends = (store.view.resolveStep place component).map ends := by
  obtain ⟨folderid, flags⟩ := Prod.mk.inj here
  rw [resolveStep_leads, resolveStep_leads, leads_same same, folderid, flags]

/-- Where the last component is looked for, and its name. -/
def last (result : Resolving × Name) : (ℤ × ℕ) × Name := (ends result.1, result.2)

theorem walkToLast_same (same : Same store other) (path : Name) (place later : Resolving) (here : ends later = ends place) :
    (walkToLast other.view.resolveStep later path).map last = (walkToLast store.view.resolveStep place path).map last := by
  fun_induction walkToLast store.view.resolveStep place path generalizing later with
  | case1 place path none =>
    rw [walkToLast, if_pos none]
  | case2 place path more single =>
    rw [walkToLast, if_neg more, if_pos single]
    simp only [Except.map, last, here]
  | case3 place path more several next found ih =>
    rw [walkToLast, if_neg more, if_neg several]
    have step := resolveStep_same same (component (skipSlashes path)) here
    rw [found] at step
    cases foundLater : other.view.resolveStep later (component (skipSlashes path)) with
    | error reason =>
      rw [foundLater] at step
      cases step
    | ok nextLater =>
      rw [foundLater] at step
      exact ih nextLater (Except.ok.inj step)
  | case4 place path more several reason failed =>
    rw [walkToLast, if_neg more, if_neg several]
    have step := resolveStep_same same (component (skipSlashes path)) here
    rw [failed] at step
    cases foundLater : other.view.resolveStep later (component (skipSlashes path)) with
    | error reason =>
      rw [foundLater] at step
      exact congrArg Except.error (Except.error.inj step)
    | ok nextLater =>
      rw [foundLater] at step
      cases step

theorem retFolderData_same (same : Same store other) (folderid : ℤ) (name : Name) (permissions permissions' : BitVec 32)
    (flags shareid shareid' : ℕ) :
    (other.view.retFolderData folderid name permissions flags shareid).map (fun fspath => (fspath.folderid, fspath.name)) =
      (store.view.retFolderData folderid name permissions' flags shareid').map fun fspath => (fspath.folderid, fspath.name) := by
  have encode : other.view.encode = store.view.encode := congrArg Outside.encode same.outside
  have hidden : other.view.fakePrefix = store.view.fakePrefix := congrArg Outside.fakePrefix same.outside
  unfold View.retFolderData
  simp only [encode, hidden]
  split
  · cases store.view.encode folderid name <;> rfl
  · rfl

/-- The folder and the name that a path ends in. -/
theorem resolvePath_same (same : Same store other) (path : Name) :
    (other.view.resolvePath path).map (fun fspath => (fspath.folderid, fspath.name)) =
      (store.view.resolvePath path).map fun fspath => (fspath.folderid, fspath.name) := by
  unfold View.resolvePath
  split
  · rfl
  · have walked := walkToLast_same same path ⟨0, PSYNC_PERM_ALL, 0, 0⟩ ⟨0, PSYNC_PERM_ALL, 0, 0⟩ rfl
    cases before : walkToLast store.view.resolveStep ⟨0, PSYNC_PERM_ALL, 0, 0⟩ path with
    | error reason =>
      rw [before] at walked
      cases after : walkToLast other.view.resolveStep ⟨0, PSYNC_PERM_ALL, 0, 0⟩ path with
      | error reason =>
        rw [after] at walked
        exact congrArg Except.error (Except.error.inj walked)
      | ok found =>
        rw [after] at walked
        cases walked
    | ok found =>
      rw [before] at walked
      cases after : walkToLast other.view.resolveStep ⟨0, PSYNC_PERM_ALL, 0, 0⟩ path with
      | error reason =>
        rw [after] at walked
        cases walked
      | ok foundLater =>
        rw [after] at walked
        have equal := Except.ok.inj walked
        simp only [last, ends, Prod.mk.injEq] at equal
        obtain ⟨⟨folderid, flags⟩, name⟩ := equal
        dsimp only
        rw [folderid, flags, name]
        exact retFolderData_same same _ _ _ _ _ _ _

theorem xattrGetObjectId_same (same : Same store other) (path : Name) :
    other.xattrGetObjectIdLocked path = store.xattrGetObjectIdLocked path := by
  have resolved := resolvePath_same same path
  unfold Store.xattrGetObjectIdLocked
  split
  · rfl
  · cases before : store.view.resolvePath path with
    | error reason =>
      rw [before] at resolved
      cases after : other.view.resolvePath path with
      | error reason => rfl
      | ok fspath =>
        rw [after] at resolved
        cases resolved
    | ok fspath =>
      rw [before] at resolved
      cases after : other.view.resolvePath path with
      | error reason =>
        rw [after] at resolved
        cases resolved
      | ok last =>
        rw [after] at resolved
        have equal := Except.ok.inj resolved
        rw [Prod.mk.injEq] at equal
        simp only [equal.1, equal.2]
        exact objectId_same same _ _

end Restart

section Statics

variable {world start : World} {drive later : Drive} {name other : Name}

/-- There is no file of that name in the root, so that a static one is added. -/
def Vacant (world : World) (drive : Drive) (name : Name) : Prop :=
  (drive.state.tasksOf 0).findCreat name 0 = none ∧
    (((drive.state.tasksOf 0).findUnlink name 0).isSome = false → world.file 0 name = none)

/-- What a static file adds to the tasks of the root. -/
def withStatic (name : Name) (taskid : ℕ) (tasks : FolderTasks) : FolderTasks :=
  (tasks.addUnlink ⟨name, 0, taskid⟩).addCreat ⟨name, 0, 0, taskid⟩

theorem addLocalCreatStatic_rows (taskid : ℕ) : (addLocalCreatStatic world drive 0 name taskid).drive.tasks = drive.tasks := by
  unfold addLocalCreatStatic
  simp only [back]
  split
  · rfl
  · split <;> rfl

theorem addLocalCreatStatic_vacant (sound : Settled Sound drive.state) (vacant : Vacant world drive name) (taskid : ℕ) :
    (addLocalCreatStatic world drive 0 name taskid).ret = .ok ∧
      Settled Sound (addLocalCreatStatic world drive 0 name taskid).drive.state ∧
        (addLocalCreatStatic world drive 0 name taskid).drive.state.tasksOf =
          Function.update drive.state.tasksOf 0 (withStatic name taskid (drive.state.tasksOf 0)) := by
  have seen := tasks_getOrCreate sound.toLinked 0
  obtain ⟨settled, view⟩ := work_view sound (.comp (.putCreat ⟨name, 0, 0, taskid⟩) (.putUnlink ⟨name, 0, taskid⟩)) 0
  obtain ⟨absent, hidden⟩ := vacant
  unfold addLocalCreatStatic
  simp only [back, seen, absent, Option.isSome_none, Bool.false_eq_true, if_false]
  rw [if_neg ?_]
  · exact ⟨rfl, settled, view⟩
  · rintro ⟨_, shown, stored⟩
    rw [hidden (Option.isSome_eq_false_iff.mpr shown)] at stored
    cases stored

theorem addLocalCreatStatic_taken (sound : Settled Sound drive.state) (taken : ¬Vacant world drive name) (taskid : ℕ) :
    (addLocalCreatStatic world drive 0 name taskid).ret ≠ .ok ∧
      Settled Sound (addLocalCreatStatic world drive 0 name taskid).drive.state ∧
        (addLocalCreatStatic world drive 0 name taskid).drive.state.tasksOf = drive.state.tasksOf := by
  have seen := tasks_getOrCreate sound.toLinked 0
  have settled : Settled Sound ((drive.state.getOrCreate 0).2.release (drive.state.getOrCreate 0).1) :=
    soundAccess.settle (soundAccess.hold sound 0)
  have released : ((drive.state.getOrCreate 0).2.release (drive.state.getOrCreate 0).1).tasksOf = drive.state.tasksOf := by
    funext id
    rw [(soundAccess.hold sound 0).tasksOf_release, tasksOf_getOrCreate]
  unfold addLocalCreatStatic
  simp only [back, seen]
  split
  · exact ⟨by simp, settled, released⟩
  · next absent =>
    rw [if_pos ?_]
    · exact ⟨by simp, settled, released⟩
    · unfold Vacant at taken
      rw [Option.not_isSome_iff_eq_none] at absent
      simp only [absent, true_and, Classical.not_imp] at taken
      exact ⟨le_refl 0, Option.isSome_eq_false_iff.mp taken.1, Option.isSome_iff_ne_none.mpr taken.2⟩

/-- A static file of another name is not in the way. -/
theorem vacant_withStatic (differs : name ≠ other) (taskid : ℕ)
    (view : later.state.tasksOf = Function.update drive.state.tasksOf 0 (withStatic name taskid (drive.state.tasksOf 0))) :
    Vacant world later other ↔ Vacant world drive other := by
  unfold Vacant
  rw [view, Function.update_self]
  have creats : (withStatic name taskid (drive.state.tasksOf 0)).findCreat other 0 = (drive.state.tasksOf 0).findCreat other 0 :=
    Resolve.searchTree_insert differs _
  have unlinks : (withStatic name taskid (drive.state.tasksOf 0)).findUnlink other 0 = (drive.state.tasksOf 0).findUnlink other 0 :=
    Resolve.searchTree_insert differs _
  rw [creats, unlinks]

/-- Both drives get the same static files, with the same numbers. -/
theorem addStatics_alike {names : List Name} (distinct : names.Nodup) (taskid : ℕ) (sound : Settled Sound drive.state)
    (soundLater : Settled Sound later.state) (alike : ∀ folderid, Alike (drive.state.tasksOf folderid) (later.state.tasksOf folderid))
    (vacant : ∀ name ∈ names, Vacant start drive name ↔ Vacant world later name) (folderid : ℤ) :
    Alike ((addStatics start names taskid drive).state.tasksOf folderid) ((addStatics world names taskid later).state.tasksOf folderid) := by
  induction names generalizing taskid drive later with
  | nil => exact alike folderid
  | cons name names ih =>
    obtain ⟨apart, distinct⟩ := List.nodup_cons.mp distinct
    have here := vacant name List.mem_cons_self
    have rest : ∀ other ∈ names, name ≠ other ∧ (Vacant start drive other ↔ Vacant world later other) := fun other member =>
      ⟨fun same => apart (same ▸ member), vacant other (List.mem_cons_of_mem name member)⟩
    unfold addStatics
    by_cases free : Vacant start drive name
    · obtain ⟨added, settled, view⟩ := addLocalCreatStatic_vacant sound free taskid
      obtain ⟨addedLater, settledLater, viewLater⟩ := addLocalCreatStatic_vacant soundLater (here.mp free) taskid
      simp only [added, addedLater, if_true]
      apply ih distinct (taskid - 1) settled settledLater
      · intro id
        rw [view, viewLater]
        by_cases root : id = 0
        · rw [root, Function.update_self, Function.update_self]
          exact ((alike 0).addUnlink _).addCreat _
        · rw [Function.update_of_ne root, Function.update_of_ne root]
          exact alike id
      · intro other member
        obtain ⟨differs, same⟩ := rest other member
        rw [vacant_withStatic differs taskid view, vacant_withStatic differs taskid viewLater]
        exact same
    · obtain ⟨added, settled, view⟩ := addLocalCreatStatic_taken sound free taskid
      obtain ⟨addedLater, settledLater, viewLater⟩ := addLocalCreatStatic_taken soundLater (fun yes => free (here.mpr yes)) taskid
      simp only [added, addedLater, if_false]
      apply ih distinct taskid settled settledLater
      · rw [view, viewLater]
        exact alike
      · intro other member
        unfold Vacant
        rw [view, viewLater]
        exact (rest other member).2

theorem addStatics_rows (names : List Name) (taskid : ℕ) : (addStatics world names taskid drive).tasks = drive.tasks := by
  induction names generalizing taskid drive with
  | nil => rfl
  | cons name names ih =>
    unfold addStatics
    rw [ih, addLocalCreatStatic_rows]

end Statics

section Runs

/-- Successful operations whose rows are replayed as they were made: no file is modified, and what is renamed leaves nothing behind. -/
structure Run where
  steps : List Step
  drive : Drive
  successful : Successful steps drive
  restorable : ∀ step ∈ steps, ∀ op, step.event = .op op → Restorable step.world step.before op

namespace Run

variable (run : Run) (start world : World) (outside : Outside) (fsxattr : Fsxattr) (junk : Junk)

/-- The drive with the static files that its start found place for. -/
def before : Store := ⟨world, fsstaticAddFiles start run.drive, outside, fsxattr⟩

/-- The drive after a restart. -/
def after : Store := ⟨world, fsInitOnce world junk run.drive.tasks, outside, fsxattr⟩

/-- The same static files are added at the restart. -/
def SameStatics : Prop := ∀ name ∈ [directory, pcloudicon], Vacant start run.drive name ↔ Vacant world run.drive name

end Run

theorem resetStatus_type (row : Task) : (resetStatus row).id = row.id ∧ (resetStatus row).type = row.type ∧ (resetStatus row).fileid = row.fileid := by
  unfold resetStatus
  split
  · exact ⟨rfl, rfl, rfl⟩
  · split <;> exact ⟨rfl, rfl, rfl⟩

theorem selectTask_reset (tasks : List Task) (taskid : ℕ) :
    (selectTask (tasks.map resetStatus) taskid).map (fun row => (row.type, row.fileid)) =
      (selectTask tasks taskid).map fun row => (row.type, row.fileid) := by
  unfold selectTask
  induction tasks with
  | nil => rfl
  | cons row rows ih =>
    obtain ⟨id, type, fileid⟩ := resetStatus_type row
    rw [List.map_cons, List.find?_cons, List.find?_cons, id]
    split
    · simp only [Option.map_some, type, fileid]
    · exact ih

/-- The tasks that a restart rebuilds are those of the run. -/
theorem rebuilt_alike (run : Run) (junk : Junk) :
    Settled Sound (fstaskInit junk run.drive.tasks).state ∧
      ∀ folderid, Alike (run.drive.state.tasksOf folderid) ((fstaskInit junk run.drive.tasks).state.tasksOf folderid) := by
  have recoverable := successful_recoverable run.successful run.restorable
  constructor
  · rw [fstaskInit_eq recoverable.unfinished]
    have follows : Follows (rebuild junk run.drive.tasks .empty) _ := rebuild_follows ⟨.empty, rfl, rfl⟩ run.drive.tasks
    rw [Settled, refsOf, follows.closed]
    exact follows.sound
  · intro folderid
    rw [fstaskInit_tasksOf recoverable.unfinished]
    exact (recoverable.replayed junk folderid).symm

theorem restart_same (run : Run) {start world : World} (outside : Outside) (fsxattr : Fsxattr) (junk : Junk)
    (statics : run.SameStatics start world) : Same (run.before start world outside fsxattr) (run.after world outside fsxattr junk) := by
  have recoverable := successful_recoverable run.successful run.restorable
  obtain ⟨sound, alike⟩ := rebuilt_alike run junk
  refine ⟨rfl, rfl, ?_, ?_⟩
  · apply addStatics_alike (by decide) uint64Max recoverable.sound sound alike
    intro name member
    rw [statics name member]
    unfold Vacant
    rw [findCreat_alike (alike 0), findUnlink_alike (alike 0)]
  · intro taskid
    simp only [Run.before, Run.after, fsInitOnce, fsstaticAddFiles, addStatics_rows]
    exact selectTask_reset run.drive.tasks taskid

/-- A pending file with a negative id has its row. -/
def Stored (tasks : List Task) (creats : List Creat) : Prop :=
  ∀ cr ∈ creats, cr.fileid < 0 → (selectTask tasks (-cr.fileid).toNat).isSome

theorem selectTask_created {tasks : List Task} {type : TaskType} {id : ℤ} (created : Created tasks type id) :
    (selectTask tasks id.toNat).isSome := by
  obtain ⟨task, member, own, _⟩ := created
  unfold selectTask
  rw [List.find?_isSome]
  exact ⟨task, member, by simp; omega⟩

theorem addStatics_stored {world : World} {drive : Drive} {tasks : List Task} (names : List Name) (taskid : ℕ) (sound : Settled Sound drive.state)
    (stored : ∀ folderid, Stored tasks (drive.state.tasksOf folderid).creats) (folderid : ℤ) :
    Stored tasks ((addStatics world names taskid drive).state.tasksOf folderid).creats := by
  induction names generalizing taskid drive with
  | nil => exact stored folderid
  | cons name names ih =>
    unfold addStatics
    by_cases free : Vacant world drive name
    · obtain ⟨_, settled, view⟩ := addLocalCreatStatic_vacant sound free taskid
      apply ih _ settled
      intro id cr member
      rw [view] at member
      by_cases root : id = 0
      · rw [root, Function.update_self] at member
        cases mem_insertIntoTree.mp member with
        | inl added =>
          rw [added]
          intro negative
          cases negative
        | inr old => exact stored 0 cr old
      · rw [Function.update_of_ne root] at member
        exact stored id cr member
    · obtain ⟨_, settled, view⟩ := addLocalCreatStatic_taken sound free taskid
      apply ih _ settled
      rw [view]
      exact stored

/-- In a run the pending file that a path leads to has its row. -/
theorem run_rowed (run : Run) (start world : World) (outside : Outside) (fsxattr : Fsxattr) (path : Name) :
    Rowed (run.before start world outside fsxattr) path := by
  have recoverable := successful_recoverable run.successful run.restorable
  have stored : ∀ folderid, Stored run.drive.tasks ((addStatics start [directory, pcloudicon] uint64Max run.drive).state.tasksOf folderid).creats :=
    addStatics_stored _ _ recoverable.sound fun folderid cr member negative =>
      selectTask_created ((recoverable.creats folderid cr member).2 negative)
  intro _ fspath _ _ cr found negative
  have row := stored fspath.folderid cr (mem_of_searchTree found) negative
  simp only [Run.before, fsstaticAddFiles, addStatics_rows]
  exact row

end Runs

section Transitions

/-- An object gets another number. -/
inductive Transition where
  | staticToTask (statictaskid taskid : ℤ)
  | taskToFile (taskid fileid : ℤ)
  | taskToFolder (taskid folderid : ℤ)
  | fileToTask (fileid taskid : ℤ)
deriving DecidableEq, Repr

namespace Transition

def source : Transition → Object
  | staticToTask statictaskid _ => .staticfile statictaskid
  | taskToFile taskid _ => .task taskid
  | taskToFolder taskid _ => .task taskid
  | fileToTask fileid _ => .file fileid

def target : Transition → Object
  | staticToTask _ taskid => .task taskid
  | taskToFile _ fileid => .file fileid
  | taskToFolder _ folderid => .folder folderid
  | fileToTask _ taskid => .task taskid

def change : Transition → Fsxattr → Fsxattr
  | staticToTask statictaskid taskid => psyncFsStaticToTask statictaskid taskid
  | taskToFile taskid fileid => psyncFsTaskToFile taskid fileid
  | taskToFolder taskid folderid => psyncFsTaskToFolder taskid folderid
  | fileToTask fileid taskid => psyncFsFileToTask fileid taskid

end Transition

/-- Ids of a transition are below the bound. -/
structure Moving where
  transition : Transition
  source : transition.source.InRange
  target : transition.target.InRange

namespace Moving

variable (moving : Moving)

def ooid : ℤ := moving.transition.source.objid

def noid : ℤ := moving.transition.target.objid

/-- All attributes of the object, and no others, have the new number. -/
structure Moves (fsxattr later : Fsxattr) : Prop where
  target : later moving.noid = fsxattr moving.ooid
  source : later moving.ooid = fun _ => none
  others : ∀ objectid, objectid ≠ moving.ooid → objectid ≠ moving.noid → later objectid = fsxattr objectid

/-- The new number has no attribute that the object lacks. -/
def Spare (fsxattr : Fsxattr) : Prop := ∀ name, fsxattr moving.ooid name = none → fsxattr moving.noid name = none

theorem ooid_ne : moving.ooid ≠ moving.noid := by
  intro same
  have object := (Object.objid_inj moving.source moving.target).mp same
  cases kind : moving.transition <;> rw [kind] at object <;> cases object

theorem change_eq (fsxattr : Fsxattr) : moving.transition.change fsxattr = updateObjectId moving.ooid moving.noid fsxattr := by
  unfold ooid noid
  cases moving.transition <;> rfl

theorem target_iff (fsxattr : Fsxattr) : moving.transition.change fsxattr moving.noid = fsxattr moving.ooid ↔ moving.Spare fsxattr := by
  rw [change_eq]
  unfold updateObjectId Spare
  simp only [if_true, funext_iff]
  refine forall_congr' fun name => ?_
  cases fsxattr moving.ooid name with
  | none => exact ⟨fun same _ => same, fun spare => spare rfl⟩
  | some value => exact ⟨fun _ none => (Option.some_ne_none value none).elim, fun _ => rfl⟩

theorem moves_iff (fsxattr : Fsxattr) : moving.Moves fsxattr (moving.transition.change fsxattr) ↔ moving.Spare fsxattr := by
  rw [← target_iff]
  refine ⟨fun moves => moves.target, fun target => ⟨target, ?_, ?_⟩⟩
  · rw [change_eq]
    funext name
    unfold updateObjectId
    rw [if_neg moving.ooid_ne, if_pos rfl]
  · intro objectid notSource notTarget
    rw [change_eq]
    funext name
    unfold updateObjectId
    rw [if_neg notTarget, if_neg notSource]

end Moving

/-- A path that leads to the object before a transition and to what it has become after it. -/
structure Upload extends Moving where
  path : Name
  before : Store
  after : Store
  rowed : Rowed before path
  rowedAfter : Rowed after path
  found : objectOf before path = some transition.source
  foundAfter : objectOf after path = some transition.target
  changed : after.fsxattr = transition.change before.fsxattr

theorem attributes_eq {store : Store} {path : Name} {object : Object} (inRange : object.InRange) (rowed : Rowed store path)
    (found : objectOf store path = some object) : store.attributes path = store.fsxattr object.objid := by
  unfold Store.attributes
  rw [xattrGetObjectId_eq rowed found, if_neg (Object.objid_found inRange)]

/-- The attributes of the path are those from before. -/
theorem Upload.kept_iff (upload : Upload) :
    upload.after.attributes upload.path = upload.before.attributes upload.path ↔ upload.Spare upload.before.fsxattr := by
  rw [attributes_eq upload.target upload.rowedAfter upload.foundAfter, attributes_eq upload.source upload.rowed upload.found, upload.changed]
  exact upload.target_iff _

end Transitions

section Identity

/-- A user without encryption and shares. -/
def plain : Outside where
  permissions _ := 0
  userid _ := 0
  encode _ _ := none
  sharedfolder _ _ := none
  myUserid := 0
  fakePrefix := []

theorem resolvePath_child (store : Store) : store.view.resolvePath [slash, 97] = .ok ⟨0, [97], PSYNC_PERM_ALL, 0, 0⟩ := by
  unfold View.resolvePath
  rw [if_neg (by decide), walkToLast, if_neg (by decide), if_pos (by decide)]
  rfl

end Identity

end Pclsync.Proofs.Xattr
