import Pclsync.Fs.Session
import Pclsync.Proofs.FolderViews

/-! The counts of folders through whole sessions. -/

namespace Pclsync.Proofs.FolderCounts
open Pclsync.Fs Folders FolderViews

section Operations
variable {Inv : List ℕ → Folders → Prop} {Allowed : (Folder → Folder) → Prop} (rules : Rules Inv Allowed)
include rules
variable {world : World} {drive : Drive} {state : Folders} {folder : ℕ} {folderid fileid : ℤ} {name : Name}

theorem settle_put {change : Folder → Folder} (held : Inv (folder :: refsOf state) state)
    (balanced : Balanced change) : Settled Inv ((state.update folder change).release folder) :=
  rules.settle (rules.update held List.mem_cons_self (rules.balanced balanced))

theorem settled_mkdir (settled : Settled Inv drive.state) (folderflags : ℕ) :
    Settled Inv (mkdir world drive folderid name folderflags).drive.state := by
  have held := rules.hold settled folderid
  unfold mkdir
  generalize drive.state.getOrCreate folderid = created at held ⊢
  obtain ⟨folder, state⟩ := created
  simp only at held ⊢
  split
  · exact rules.settle held
  split
  · exact rules.settle held
  split
  · exact rules.settle held
  split
  · exact rules.settle held
  · exact settle_put rules held (.putMkdir _)

theorem settled_addCreat (settled : Settled Inv drive.state) (nonnegative : 0 ≤ fileid)
    (encsymkey : Option (List UInt8)) : Settled Inv (addCreat world drive folderid name fileid encsymkey).drive.state := by
  have held := rules.hold settled folderid
  unfold addCreat
  generalize drive.state.getOrCreate folderid = created at held ⊢
  obtain ⟨folder, state⟩ := created
  simp only at held ⊢
  rw [if_neg (not_lt.mpr nonnegative)]
  split
  · exact rules.settle held
  · exact settle_put rules held ((Balanced.putCreat _).comp (.putUnlink _))

theorem settled_addModifiedFile (settled : Settled Inv drive.state) (positive : 0 < fileid) (hash : ℕ)
    (encsymkey : Option (List UInt8)) :
    Settled Inv (addModifiedFile world drive folderid name fileid hash encsymkey).drive.state := by
  have held := rules.hold settled folderid
  unfold addModifiedFile
  generalize drive.state.getOrCreate folderid = created at held ⊢
  obtain ⟨folder, state⟩ := created
  simp only at held ⊢
  rw [if_neg (not_le.mpr positive)]
  have taken := rules.update held List.mem_cons_self (rules.balanced (.takeCreat name 0))
  split
  · exact rules.settle taken
  · exact settle_put rules taken ((Balanced.putCreat _).comp (.putUnlink _))

theorem settled_addLocalCreatStatic (settled : Settled Inv drive.state) (taskid : ℕ) :
    Settled Inv (addLocalCreatStatic world drive folderid name taskid).drive.state := by
  have held := rules.hold settled folderid
  unfold addLocalCreatStatic
  generalize drive.state.getOrCreate folderid = created at held ⊢
  obtain ⟨folder, state⟩ := created
  simp only at held ⊢
  split
  · exact rules.settle held
  split
  · exact rules.settle held
  · exact settle_put rules held ((Balanced.putCreat _).comp (.putUnlink _))

/-- Looking where a file came from gives the folder back. -/
theorem getFileAtOldLocation_inv (world : World) (fileid : ℤ) (held : Inv (folder :: refsOf state) state) :
    Inv (folder :: refsOf (getFileAtOldLocation world state fileid).2) (getFileAtOldLocation world state fileid).2 := by
  unfold getFileAtOldLocation
  split
  · exact held
  split
  · exact held
  next oldFolderid oldName _ =>
  have returned : Inv (folder :: refsOf ((state.get oldFolderid).2.releaseIf (state.get oldFolderid).1))
      ((state.get oldFolderid).2.releaseIf (state.get oldFolderid).1) := by
    rw [refsOf, openfiles_releaseIf, openfiles_get]
    exact rules.releaseIf (rules.get held oldFolderid)
  simp only
  split
  · exact returned
  split
  · exact returned
  split <;> exact returned

theorem settled_unlinkFile (held : Inv (folder :: refsOf state) state) (rfileid : ℕ) :
    Settled Inv (unlinkFile world drive folder state folderid name fileid rfileid).drive.state := by
  have looked := getFileAtOldLocation_inv rules world fileid held
  unfold unlinkFile
  generalize getFileAtOldLocation world state fileid = found at looked ⊢
  obtain ⟨revoffileid, state⟩ := found
  simp only at looked ⊢
  split
  · exact rules.settle looked
  · exact settle_put rules looked (.putUnlink _)

theorem settled_unlink (settled : Settled Inv drive.state) :
    Settled Inv (unlink world drive folderid name).drive.state := by
  have held := rules.hold settled folderid
  unfold unlink
  generalize drive.state.getOrCreate folderid = created at held ⊢
  obtain ⟨folder, state⟩ := created
  simp only at held ⊢
  split
  · split
    · exact rules.settle held
    split
    · exact rules.settle held
    · exact settled_unlinkFile rules held 0
  split
  · exact settle_put rules held ((Balanced.takeCreat _ _).comp (.takeUnlink _ _))
  · exact settled_unlinkFile rules (rules.update held List.mem_cons_self (rules.balanced (.takeCreat name 0))) _

theorem settled_renameFile (settled : Settled Inv drive.state) (toFolderid : ℤ) (newName : Name) :
    Settled Inv (renameFile world drive fileid folderid name toFolderid newName).drive.state := by
  have held := rules.hold settled folderid
  unfold renameFile
  generalize drive.state.getOrCreate folderid = created at held ⊢
  obtain ⟨folder, state⟩ := created
  simp only at held ⊢
  split
  · exact rules.settle held
  have taken : Inv (folder :: refsOf (state.update folder (·.takeCreat name 0)))
      (state.update folder (·.takeCreat name 0)) :=
    rules.update held List.mem_cons_self (rules.balanced (.takeCreat name 0))
  have moved := rules.renameOpenfile taken fileid toFolderid
  have left := settle_put rules moved (.putUnlink ⟨name, fileid, insertid drive.tasks⟩)
  have entered := rules.hold left toFolderid
  exact settle_put rules entered
    ((Balanced.putCreat _).comp ((Balanced.putUnlink _).comp (.takeCreat newName 0)))

theorem settled_renameFolder (settled : Settled Inv drive.state) (parentfolderid toFolderid : ℤ) (newName : Name)
    (targetflags : ℕ) :
    Settled Inv (renameFolder world drive folderid parentfolderid name toFolderid newName targetflags).drive.state := by
  have looked : Settled Inv (deleteFolderIfEx world drive drive.state toFolderid newName folderid).2 := by
    have returned : Settled Inv ((drive.state.get toFolderid).2.releaseIf (drive.state.get toFolderid).1) :=
      rules.settleIf (rules.holdIf settled toFolderid)
    unfold deleteFolderIfEx
    simp only
    split <;> exact returned
  unfold renameFolder
  generalize deleteFolderIfEx world drive drive.state toFolderid newName folderid = removed at looked ⊢
  obtain ⟨removal, state⟩ := removed
  have held := rules.hold looked parentfolderid
  simp only at held ⊢
  split
  · exact rules.settle held
  have left := settle_put rules held
    ((Balanced.putRmdir ⟨name, folderid, insertid (drive.tasks ++ removal)⟩).comp (.takeMkdir name 0))
  exact settle_put rules (rules.hold left toFolderid)
    ((Balanced.putMkdir _).comp ((Balanced.putRmdir _).comp (.takeMkdir name 0)))

omit rules in
/-- The count and then the entry, with a look at another folder between them. -/
theorem takeMkdir_late {refs : List ℕ} (linked : Linked refs state)
    (pending : ((state.deref folder).tasks.findMkdir name 0).isSome = true) (cfolderid : ℤ) :
    ((state.get cfolderid).2.update folder (·.addCount (-1))).update folder (·.change (·.delMkdir name 0)) =
      (state.get cfolderid).2.update folder (·.takeMkdir name 0) := by
  rw [update_update (·.addCount (-1)) _ fun _ => rfl]
  apply update_congr
  rintro node inside rfl
  have here : (state.get cfolderid).2.deref node.addr = node :=
    deref_of_mem (linkedRules.get linked cfolderid).addrs inside
  have same : node.tasks = (state.deref node.addr).tasks := by
    calc
      node.tasks = ((state.get cfolderid).2.deref node.addr).tasks := by rw [here]
      _ = (state.deref node.addr).tasks := tasksAt_get cfolderid (some node.addr)
  rw [Folder.takeMkdir, Folder.take, if_pos]
  · rfl
  · rw [same]
    exact pending

omit rules in
theorem takeMkdir_absent {refs : List ℕ} (linked : Linked refs state)
    (absent : (state.deref folder).tasks.findMkdir name 0 = none) (cfolderid : ℤ) :
    (state.get cfolderid).2.update folder (·.takeMkdir name 0) = (state.get cfolderid).2 := by
  apply update_eq_self
  rintro node inside rfl
  have here : (state.get cfolderid).2.deref node.addr = node :=
    deref_of_mem (linkedRules.get linked cfolderid).addrs inside
  have same : node.tasks = (state.deref node.addr).tasks := by
    calc
      node.tasks = ((state.get cfolderid).2.deref node.addr).tasks := by rw [here]
      _ = (state.deref node.addr).tasks := tasksAt_get cfolderid (some node.addr)
  rw [Folder.takeMkdir, Folder.take, if_neg]
  simp [same, absent]

/-- A pending folder that is removed is empty, or the count may go down alone. -/
theorem settled_rmdir (settled : Settled Inv drive.state) (linked : Settled Linked drive.state) (parentflags : ℕ)
    (allowed : ∀ mk, (drive.state.tasksOf folderid).findMkdir name 0 = some mk →
      folderEmpty world (drive.state.tasksOf mk.folderid) mk.folderid ∨ Allowed (·.addCount (-1))) :
    Settled Inv (rmdir world drive folderid parentflags name).drive.state := by
  have held := rules.hold settled folderid
  have known := linkedRules.hold linked folderid
  have seen := tasks_getOrCreate linked folderid
  have views : ∀ id, (drive.state.getOrCreate folderid).2.tasksOf id = drive.state.tasksOf id :=
    fun id => tasksOf_getOrCreate folderid id
  unfold rmdir
  generalize drive.state.getOrCreate folderid = created at held known seen views ⊢
  obtain ⟨folder, state⟩ := created
  simp only at held known seen views ⊢
  rw [seen]
  cases pending : (drive.state.tasksOf folderid).findMkdir name 0 with
  | none =>
    simp only [Option.isSome_none, Bool.false_eq_true, if_false]
    split
    · exact rules.settle held
    next cfolderid _ =>
    have both := rules.releaseIf (rules.get held cfolderid)
    rw [refsOf, ← openfiles_get state cfolderid, ← openfiles_releaseIf _ (state.get cfolderid).1] at both
    split
    · exact rules.settle both
    split
    · exact rules.settle both
    · exact settle_put rules both (.putRmdir _)
  | some mk =>
    have commuted : (state.update folder (·.addCount (-1))).get mk.folderid =
        ((state.get mk.folderid).1, (state.get mk.folderid).2.update folder (·.addCount (-1))) :=
      get_update (·.addCount (-1)) (fun _ => rfl) (fun _ => rfl) (fun _ => rfl) mk.folderid
    have both := rules.get held mk.folderid
    have member : folder ∈ (state.get mk.folderid).1.toList ++ folder :: refsOf state :=
      List.mem_append_right _ List.mem_cons_self
    simp only [Option.isSome_some, if_true, commuted]
    rw [tasksAt_update (·.addCount (-1)) (fun _ => rfl) (fun _ => rfl), tasks_get known, views]
    split
    · next full =>
      cases allowed mk pending with
      | inl empty => exact absurd empty full
      | inr drop =>
        have dropped := rules.releaseIf (rules.update both member drop)
        apply rules.settle
        rw [refsOf, openfiles_releaseIf, openfiles_update, openfiles_get]
        exact dropped
    · rw [takeMkdir_late known (by rw [seen, pending, Option.isSome_some]) mk.folderid]
      have taken := rules.releaseIf (rules.update both member (rules.balanced (.takeMkdir name 0)))
      rw [refsOf, ← openfiles_get state mk.folderid, ← openfiles_update _ folder (·.takeMkdir name 0),
        ← openfiles_releaseIf _ (state.get mk.folderid).1] at taken
      split
      · exact rules.settle taken
      · exact settle_put rules taken (.putRmdir _)

theorem settled_canRmdir (settled : Settled Inv drive.state) (parentflags : ℕ)
    (running : (canRmdir world drive folderid parentflags name).ret ≠ .crash) :
    Settled Inv (canRmdir world drive folderid parentflags name).drive.state := by
  have held := rules.holdIf settled folderid
  unfold canRmdir at running ⊢
  generalize drive.state.get folderid = got at held running ⊢
  obtain ⟨folder, state⟩ := got
  simp only at held running ⊢
  split at running
  · cases folder with
    | some folder => exact rules.settle held
    | none => exact absurd rfl running
  · exact rules.settleIf held
  · next cfolderid _ =>
    have both := rules.get held cfolderid
    have returned := rules.releaseIf both
    simp only [back]
    refine rules.settleIf ?_
    rw [refsOf, openfiles_releaseIf, openfiles_get]
    exact returned

theorem settled_canUnlink (settled : Settled Inv drive.state) :
    Settled Inv (canUnlink world drive folderid name).drive.state :=
  rules.settleIf (rules.holdIf settled folderid)

/-! The reports of the upload. -/

theorem settled_onFolderIf {change : Folder → Folder} (settled : Settled Inv state) (balanced : Balanced change)
    (folderid : ℤ) : Settled Inv (onFolderIf state folderid change) := by
  have held := rules.holdIf settled folderid
  unfold onFolderIf
  generalize state.get folderid = got at held ⊢
  obtain ⟨folder, state⟩ := got
  cases folder with
  | none => exact held
  | some folder => exact settle_put rules held balanced

theorem settled_rekey (settled : Settled Inv state) (folderid newFolderid : ℤ) :
    Settled Inv (rekey state folderid newFolderid) := by
  have held := rules.holdIf settled folderid
  unfold rekey
  generalize state.get folderid = got at held ⊢
  obtain ⟨folder, state⟩ := got
  cases folder with
  | none => exact held
  | some folder => exact settle_put rules held ⟨⟨fun _ => rfl, fun _ => rfl⟩, fun _ => rfl⟩

end Operations

theorem length_setMkdirFolderid (wanted folderid : ℤ) (tree : List Mkdir) :
    (setMkdirFolderid wanted folderid tree).length = tree.length := by
  induction tree with
  | nil => rfl
  | cons mk rest ih =>
    rw [setMkdirFolderid]
    split
    · rfl
    · rw [List.length_cons, ih, List.length_cons]

theorem length_setCreatFileid (wanted fileid : ℤ) (tree : List Creat) :
    (setCreatFileid wanted fileid tree).length = tree.length := by
  induction tree with
  | nil => rfl
  | cons cr rest ih =>
    rw [setCreatFileid]
    split
    · rfl
    · rw [List.length_cons, ih, List.length_cons]

section Reports
variable {Inv : List ℕ → Folders → Prop} {Allowed : (Folder → Folder) → Prop} (rules : Rules Inv Allowed)
include rules
variable {drive : Drive} (parentfolderid : ℤ) (taskid : ℕ) (name : Name)

theorem settled_folderCreated (settled : Settled Inv drive.state) (folderid : ℤ) :
    Settled Inv (folderCreated drive parentfolderid taskid folderid name).state := by
  have taken := settled_onFolderIf rules settled (.takeMkdir name taskid) parentfolderid
  refine settled_rekey rules (iteInduction (motive := Settled Inv) (fun _ => taken) fun _ => ?_) _ _
  split
  · apply settled_onFolderIf rules taken
    exact .trees fun tasks => by simp only [FolderTasks.count, length_setMkdirFolderid]
  · exact taken

theorem settled_folderDeleted (settled : Settled Inv drive.state) :
    Settled Inv (folderDeleted drive parentfolderid taskid name).state :=
  settled_onFolderIf rules settled (.takeRmdir name taskid) parentfolderid

theorem settled_fileCreated (settled : Settled Inv drive.state) (fileid : ℤ) :
    Settled Inv (fileCreated drive parentfolderid taskid name fileid).state := by
  have taken := settled_onFolderIf rules settled ((Balanced.takeUnlink name taskid).comp (.takeCreat name taskid))
    parentfolderid
  refine iteInduction (motive := Settled Inv) (fun _ => taken) fun _ => ?_
  rw [lookForCreatInDb]
  split
  · apply settled_onFolderIf rules taken
    exact .trees fun tasks => by simp only [FolderTasks.count, length_setCreatFileid]
  · exact taken

theorem settled_fileDeleted (settled : Settled Inv drive.state) :
    Settled Inv (fileDeleted drive parentfolderid taskid name).state :=
  settled_onFolderIf rules settled (.takeUnlink name taskid) parentfolderid

theorem settled_fileRenamed (settled : Settled Inv drive.state) (frtaskid : ℕ) :
    Settled Inv (fileRenamed drive parentfolderid taskid name frtaskid).state := by
  have taken := settled_onFolderIf rules settled ((Balanced.takeCreat name taskid).comp (.takeUnlink name taskid))
    parentfolderid
  rw [fileRenamed]
  simp only
  split
  · exact settled_onFolderIf rules taken (.takeUnlink _ _) _
  · exact taken

theorem settled_folderRenamed (settled : Settled Inv drive.state) (frtaskid : ℕ) :
    Settled Inv (folderRenamed drive parentfolderid taskid name frtaskid).state := by
  have taken := settled_onFolderIf rules settled ((Balanced.takeRmdir name taskid).comp (.takeMkdir name taskid))
    parentfolderid
  rw [folderRenamed]
  simp only
  split
  · exact settled_onFolderIf rules taken (.takeRmdir _ _) _
  · exact taken

end Reports

/-- The removal of a pending folder that is not empty, as the database and the
pending tasks before the step have it. -/
def RemovesFull (step : Step) : Prop :=
  ∃ folderid parentflags name mk, step.event = .op (.rmdir folderid parentflags name) ∧
    (step.before.state.tasksOf folderid).findMkdir name 0 = some mk ∧
    ¬folderEmpty step.world (step.before.state.tasksOf mk.folderid) mk.folderid

section Runs
variable {Inv : List ℕ → Folders → Prop} {Allowed : (Folder → Folder) → Prop} {world : World} {drive after : Drive}
  {steps : List Step}

theorem settled_runOp (rules : Rules Inv Allowed) (settled : Settled Inv drive.state)
    (linked : Settled Linked drive.state) (op : Op) (running : (runOp world drive op).ret ≠ .crash)
    (allowed : RemovesFull ⟨world, drive, .op op⟩ → Allowed (·.addCount (-1))) :
    Settled Inv (runOp world drive op).drive.state := by
  cases op with
  | mkdir folderid name folderflags => exact settled_mkdir rules settled folderflags
  | rmdir folderid parentflags name =>
    apply settled_rmdir rules settled linked
    intro mk pending
    by_cases empty : folderEmpty world (drive.state.tasksOf mk.folderid) mk.folderid
    · exact .inl empty
    · exact .inr (allowed ⟨folderid, parentflags, name, mk, rfl, pending, empty⟩)
  | creat folderid name fileid encsymkey =>
    apply settled_addCreat rules settled
    by_contra negative
    apply running
    simp [runOp, addCreat, back, not_le.mp negative]
  | modify folderid name fileid hash encsymkey =>
    apply settled_addModifiedFile rules settled
    by_contra nonpositive
    apply running
    simp [runOp, addModifiedFile, back, not_lt.mp nonpositive]
  | unlink folderid name => exact settled_unlink rules settled
  | renameFile fileid parentfolderid name toFolderid newName => exact settled_renameFile rules settled _ _
  | renameFolder folderid parentfolderid name toFolderid newName targetflags =>
    exact settled_renameFolder rules settled _ _ _ _

theorem settled_step (rules : Rules Inv Allowed) (settled : Settled Inv drive.state)
    (linked : Settled Linked drive.state) (event : Event) (running : (Fs.step world drive event).ret ≠ .crash)
    (allowed : RemovesFull ⟨world, drive, event⟩ → Allowed (·.addCount (-1))) :
    Settled Inv (Fs.step world drive event).drive.state := by
  cases event with
  | op op => exact settled_runOp rules settled linked op running allowed
  | canRmdir folderid parentflags name => exact settled_canRmdir rules settled parentflags running
  | canUnlink folderid name => exact settled_canUnlink rules settled
  | staticFile folderid name taskid => exact settled_addLocalCreatStatic rules settled taskid
  | opened fileid folderid => exact rules.openFile settled fileid folderid
  | closed fl =>
    rw [Fs.step]
    simp only
    split
    · next member => exact rules.closeFile settled member
    · exact settled
  | folderCreated parentfolderid taskid folderid name => exact settled_folderCreated rules _ _ _ settled _
  | folderDeleted parentfolderid taskid name => exact settled_folderDeleted rules _ _ _ settled
  | fileCreated parentfolderid taskid name fileid => exact settled_fileCreated rules _ _ _ settled _
  | fileModified parentfolderid taskid name fileid => exact settled_fileCreated rules _ _ _ settled _
  | fileDeleted parentfolderid taskid name => exact settled_fileDeleted rules _ _ _ settled
  | fileRenamed folderid taskid name frtaskid => exact settled_fileRenamed rules _ _ _ settled _
  | folderRenamed parentfolderid taskid name frtaskid => exact settled_folderRenamed rules _ _ _ settled _

/-- References are counted right in every session. -/
theorem session_linked (session : Session steps drive) : Settled Linked drive.state := by
  induction session with
  | start => exact .empty
  | step world event before result running ih =>
    have kept := settled_step linkedRules ih ih event (by rw [result]; exact running)
      fun _ => ⟨fun _ => rfl, fun _ => rfl⟩
    rw [result] at kept
    exact kept

/-- All counts are right in every session that removes no pending folder with
something in it. -/
theorem session_counted (session : Session steps drive) (empty : ∀ step ∈ steps, ¬RemovesFull step) :
    Settled Counted drive.state := by
  induction session with
  | start => exact .empty
  | step world event before result running ih =>
    have counted := ih fun step member => empty step (List.mem_append_left _ member)
    have kept := settled_step countedRules counted (session_linked before) event (by rw [result]; exact running)
      fun full => absurd full (empty _ (List.mem_append_right _ (List.mem_singleton_self _)))
    rw [result] at kept
    exact kept

end Runs

/-- Nothing is on the server. -/
def bare : World := ⟨[], [], fun _ => none, fun _ => false, none, 0, true⟩

/-- The drive after `mkdir a`. -/
def oneFolder : Drive := (mkdir bare .empty 0 [97] 0).drive

/-- `mkdir a` and `rmdir a`. -/
theorem session_counted_rmdir : Settled Counted (rmdir bare oneFolder 0 0 [97]).drive.state := by
  have made : Session _ oneFolder := .step bare (.op (.mkdir 0 [97] 0)) .start rfl (by decide)
  have removed : Session _ (rmdir bare oneFolder 0 0 [97]).drive :=
    .step bare (.op (.rmdir 0 0 [97])) made (rfl : Fs.step _ _ _ = ⟨_, .ok⟩) (by decide)
  apply session_counted removed
  intro step member
  rw [List.nil_append, List.singleton_append, List.mem_cons, List.mem_singleton] at member
  rintro ⟨folderid, parentflags, name, mk, same, pending, full⟩
  cases member with
  | inl first =>
    rw [first] at same
    cases same
  | inr second =>
    subst second
    cases same
    have found : mk = ⟨[97], -1, 1, 0⟩ := Option.some.inj (pending.symm.trans (by decide))
    subst found
    exact full (by decide)

/-- The drive after `mkdir a/b`. -/
def twoFolders : Drive := (mkdir bare oneFolder (-1) [98] 0).drive

/-- `rmdir a` then fails, and the folder that has the entry of `a` is freed. -/
theorem not_counted : ¬∀ steps drive, Session steps drive → Settled Counted drive.state := by
  intro all
  have made : Session _ oneFolder := .step bare (.op (.mkdir 0 [97] 0)) .start rfl (by decide)
  have filled : Session _ twoFolders := .step bare (.op (.mkdir (-1) [98] 0)) made rfl (by decide)
  have removed : Session _ (rmdir bare twoFolders 0 0 [97]).drive :=
    .step bare (.op (.rmdir 0 0 [97])) filled (rfl : Fs.step _ _ _ = ⟨_, .error .notEmpty⟩) (by decide)
  have lost := (all _ _ removed).freed
  revert lost
  decide

end Pclsync.Proofs.FolderCounts
