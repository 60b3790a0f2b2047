import Pclsync.Proofs.FolderCounts

/-! Operations that fail. They give back what they got, and leave the folders as
they were unless they took an entry out before they failed. -/

namespace Pclsync.Proofs.FolderErrors
open Pclsync.Fs Folders FolderViews FolderCounts

/-- An operation takes an entry of that name out, or counts it as gone, before it
knows that it succeeds. -/
def TakesFirst (state : Folders) : Op → Prop
  | .rmdir folderid _ name => (state.tasksOf folderid).findMkdir name 0 ≠ none
  | .modify folderid name _ _ _ => (state.tasksOf folderid).findCreat name 0 ≠ none
  | .unlink folderid name => (state.tasksOf folderid).findCreat name 0 ≠ none
  | _ => False

/-- An outcome leaves the folders as they were if it is an error. -/
def Clean (drive : Drive) (outcome : Outcome) : Prop :=
  ∀ error, outcome.ret = .error error → outcome.drive.state.folders = drive.state.folders

section Kept
variable {world : World} {drive : Drive} {refs : List ℕ} {state : Folders} {folder : ℕ} {folderid fileid : ℤ}
  {name : Name} {ret : Ret} {outcome : Outcome}

theorem Clean.back (same : state.folders = drive.state.folders) : Clean drive (back drive state ret) :=
  fun _ _ => same

theorem Clean.ok (result : outcome.ret = .ok) : Clean drive outcome := by
  intro error failed
  rw [result] at failed
  cases failed

theorem Clean.crash (result : outcome.ret = .crash) : Clean drive outcome := by
  intro error failed
  rw [result] at failed
  cases failed

/-- Looking where a file came from changes nothing. -/
theorem getFileAtOldLocation_state (world : World) (linked : Linked refs state) (fileid : ℤ) :
    (getFileAtOldLocation world state fileid).2 = state := by
  unfold getFileAtOldLocation
  split
  · rfl
  split
  · rfl
  next oldFolderid oldName _ =>
  have same := releaseIf_get linked oldFolderid
  simp only
  split
  · exact same
  split
  · exact same
  split <;> exact same

/-- Removing a folder of that name only adds a row. -/
theorem deleteFolderIfEx_state (world : World) (linked : Linked refs drive.state) (folderid : ℤ) (name : Name) (fromFid : ℤ) :
    (deleteFolderIfEx world drive drive.state folderid name fromFid).2 = drive.state := by
  have same := releaseIf_get linked folderid
  unfold deleteFolderIfEx
  simp only
  split <;> exact same

theorem mkdir_clean (linked : Linked refs drive.state) (folderflags : ℕ) :
    Clean drive (mkdir world drive folderid name folderflags) := by
  have returned := release_getOrCreate linked folderid
  unfold mkdir
  generalize drive.state.getOrCreate folderid = created at returned ⊢
  obtain ⟨folder, state⟩ := created
  simp only at returned ⊢
  split
  · exact .back returned
  split
  · exact .back returned
  split
  · exact .back returned
  split
  · exact .back returned
  · exact .ok rfl

theorem addCreat_clean (linked : Linked refs drive.state) (encsymkey : Option (List UInt8)) :
    Clean drive (addCreat world drive folderid name fileid encsymkey) := by
  have returned := release_getOrCreate linked folderid
  unfold addCreat
  generalize drive.state.getOrCreate folderid = created at returned ⊢
  obtain ⟨folder, state⟩ := created
  simp only at returned ⊢
  split
  · exact .crash rfl
  split
  · exact .back returned
  · exact .ok rfl

/-- A folder that is no longer pending is removed without a trace of the attempt. -/
theorem rmdir_clean (linked : Linked refs drive.state) (parentflags : ℕ)
    (absent : (drive.state.tasksOf folderid).findMkdir name 0 = none) :
    Clean drive (rmdir world drive folderid parentflags name) := by
  have returned := release_getOrCreate linked folderid
  have held := linked.getOrCreate folderid
  have seen := tasks_getOrCreate linked folderid
  unfold rmdir
  generalize drive.state.getOrCreate folderid = created at returned held seen ⊢
  obtain ⟨folder, state⟩ := created
  simp only at returned held seen ⊢
  rw [seen, absent]
  simp only [Option.isSome_none, Bool.false_eq_true, if_false]
  split
  · exact .back returned
  next cfolderid _ =>
  rw [releaseIf_get held cfolderid]
  split
  · exact .back returned
  split
  · exact .back returned
  · exact .ok rfl

theorem addModifiedFile_clean (linked : Linked refs drive.state) (hash : ℕ) (encsymkey : Option (List UInt8))
    (absent : (drive.state.tasksOf folderid).findCreat name 0 = none) :
    Clean drive (addModifiedFile world drive folderid name fileid hash encsymkey) := by
  have returned := release_getOrCreate linked folderid
  have held := linked.getOrCreate folderid
  have seen := tasks_getOrCreate linked folderid
  unfold addModifiedFile
  generalize drive.state.getOrCreate folderid = created at returned held seen ⊢
  obtain ⟨folder, state⟩ := created
  simp only at returned held seen ⊢
  split
  · exact .crash rfl
  have same : state.update folder (·.takeCreat name 0) = state := by
    apply update_eq_self
    rintro node inside rfl
    rw [deref_of_mem held.addrs inside] at seen
    rw [Folder.takeCreat, Folder.take, if_neg]
    simp [seen, absent]
  rw [same]
  split
  · exact .back returned
  · exact .ok rfl

theorem unlink_clean (linked : Linked refs drive.state)
    (absent : (drive.state.tasksOf folderid).findCreat name 0 = none) :
    Clean drive (unlink world drive folderid name) := by
  have returned := release_getOrCreate linked folderid
  have held := linked.getOrCreate folderid
  have seen := tasks_getOrCreate linked folderid
  unfold unlink
  generalize drive.state.getOrCreate folderid = created at returned held seen ⊢
  obtain ⟨folder, state⟩ := created
  simp only at returned held seen ⊢
  rw [seen, absent]
  simp only
  split
  · exact .back returned
  split
  · exact .back returned
  next row _ _ =>
  have same := getFileAtOldLocation_state world held row.id
  unfold unlinkFile
  simp only
  split
  · rw [same]
    exact .back returned
  · exact .ok rfl

theorem renameFile_clean (linked : Linked refs drive.state) (toFolderid : ℤ) (newName : Name) :
    Clean drive (renameFile world drive fileid folderid name toFolderid newName) := by
  have returned := release_getOrCreate linked folderid
  unfold renameFile
  generalize drive.state.getOrCreate folderid = created at returned ⊢
  obtain ⟨folder, state⟩ := created
  simp only at returned ⊢
  split
  · exact .back returned
  · exact .ok rfl

theorem renameFolder_clean (linked : Linked refs drive.state) (parentfolderid toFolderid : ℤ) (newName : Name)
    (targetflags : ℕ) :
    Clean drive (renameFolder world drive folderid parentfolderid name toFolderid newName targetflags) := by
  have looked := deleteFolderIfEx_state world linked toFolderid newName folderid
  have returned := release_getOrCreate linked parentfolderid
  unfold renameFolder
  simp only [looked]
  split
  · exact .back returned
  · exact .ok rfl

end Kept
/-- Whatever is at an address has that count of tasks. -/
abbrev CountAt (addr : ℕ) (count : ℤ) : Folders → Prop := At Folder.taskscnt addr count

/-- An outcome does not leave the folders as they were if it is an error. -/
def Traced (drive : Drive) (outcome : Outcome) : Prop :=
  ∀ error, outcome.ret = .error error → outcome.drive.state.folders ≠ drive.state.folders

section Traces
variable {world : World} {drive : Drive} {refs : List ℕ} {state : Folders} {folder : ℕ} {folderid fileid : ℤ}
  {name : Name} {ret : Ret} {outcome : Outcome} {before : Folder}

theorem Traced.back (inside : before ∈ drive.state.folders)
    (counted : CountAt before.addr (before.taskscnt - 1) state) : Traced drive (back drive state ret) := by
  intro error failed same
  have kept : before ∈ state.folders := by
    rw [← same] at inside
    exact inside
  have count := counted before kept rfl
  omega

theorem Traced.ok (result : outcome.ret = .ok) : Traced drive outcome := by
  intro error failed
  rw [result] at failed
  cases failed

theorem Traced.crash (result : outcome.ret = .crash) : Traced drive outcome := by
  intro error failed
  rw [result] at failed
  cases failed

/-- In a folder with tasks that was got, a change may lower the count. -/
theorem lowered (linked : Linked refs state) (pending : state.tasksOf folderid ≠ .empty) :
    ∃ before ∈ state.folders, before.addr = (state.getOrCreate folderid).1 ∧
      ∀ change : Folder → Folder, (∀ folder, (change folder).addr = folder.addr) →
        (∀ folder, folder.tasks = state.tasksOf folderid → (change folder).taskscnt = folder.taskscnt - 1) →
        CountAt before.addr (before.taskscnt - 1) ((state.getOrCreate folderid).2.update before.addr change) := by
  rw [Folders.tasksOf] at *
  rw [Folders.getOrCreate]
  cases found : state.lookup folderid with
  | none =>
    rw [found] at pending
    exact absurd rfl pending
  | some before =>
    have member := (lookup_mem found).1
    refine ⟨before, member, rfl, ?_⟩
    intro change kept one node inside own
    simp only [Folders.getRef] at inside
    rw [update_update (fun folder => { folder with refcnt := folder.refcnt + 1 }) change fun _ => rfl] at inside
    obtain ⟨first, firstInside, rfl⟩ := mem_update.mp inside
    have addr : first.addr = before.addr := by
      split at own
      · assumption
      · exact own
    have same : first = before := eq_of_addr linked.addrs firstInside member addr
    subst same
    rw [if_pos rfl]
    exact one { first with refcnt := first.refcnt + 1 } rfl

theorem rmdir_traced (linked : Linked refs drive.state) (parentflags : ℕ)
    (pending : (drive.state.tasksOf folderid).findMkdir name 0 ≠ none) :
    Traced drive (rmdir world drive folderid parentflags name) := by
  have filled : drive.state.tasksOf folderid ≠ .empty := by
    intro empty
    rw [empty] at pending
    exact pending rfl
  obtain ⟨before, inside, own, drop⟩ := lowered linked filled
  have counted := drop (·.addCount (-1)) (fun _ => rfl) fun _ _ => rfl
  have seen := tasks_getOrCreate linked folderid
  obtain ⟨mk, found⟩ := Option.ne_none_iff_exists'.mp pending
  unfold rmdir
  generalize drive.state.getOrCreate folderid = created at own counted seen ⊢
  obtain ⟨folder, state⟩ := created
  simp only at own counted seen ⊢
  subst own
  rw [seen, found]
  simp only [Option.isSome_some, if_true]
  have unread : ∀ (folder : Folder) count, Folder.taskscnt { folder with refcnt := count } = folder.taskscnt :=
    fun _ _ => rfl
  have looked := counted.get unread mk.folderid
  split
  · exact .back inside ((looked.releaseIf unread _).release unread _)
  split
  · have gone := looked.update (·.change (·.delMkdir name 0)) before.addr (fun _ => rfl) fun _ => rfl
    exact .back inside ((gone.releaseIf unread _).release unread _)
  · exact .ok rfl

/-- Taking a pending creat out lowers the count. -/
theorem lowered_takeCreat (linked : Linked refs state)
    (pending : (state.tasksOf folderid).findCreat name 0 ≠ none) :
    ∃ before ∈ state.folders, before.addr = (state.getOrCreate folderid).1 ∧
      CountAt before.addr (before.taskscnt - 1)
        ((state.getOrCreate folderid).2.update before.addr (·.takeCreat name 0)) := by
  have filled : state.tasksOf folderid ≠ .empty := by
    intro empty
    rw [empty] at pending
    exact pending rfl
  obtain ⟨before, inside, own, drop⟩ := lowered linked filled
  refine ⟨before, inside, own, drop _ (Balanced.takeCreat name 0).addr ?_⟩
  intro folder same
  rw [Folder.takeCreat, Folder.take, if_pos]
  · rfl
  · rw [same, Option.isSome_iff_ne_none]
    exact pending

theorem addModifiedFile_traced (linked : Linked refs drive.state) (hash : ℕ) (encsymkey : Option (List UInt8))
    (pending : (drive.state.tasksOf folderid).findCreat name 0 ≠ none) :
    Traced drive (addModifiedFile world drive folderid name fileid hash encsymkey) := by
  obtain ⟨before, inside, own, counted⟩ := lowered_takeCreat linked pending
  unfold addModifiedFile
  generalize drive.state.getOrCreate folderid = created at own counted ⊢
  obtain ⟨folder, state⟩ := created
  simp only at own counted ⊢
  subst own
  split
  · exact .crash rfl
  split
  · exact .back inside (counted.release (fun _ _ => rfl) _)
  · exact .ok rfl

theorem unlink_traced (linked : Linked refs drive.state)
    (pending : (drive.state.tasksOf folderid).findCreat name 0 ≠ none) :
    Traced drive (unlink world drive folderid name) := by
  obtain ⟨before, inside, own, counted⟩ := lowered_takeCreat linked pending
  have seen := tasks_getOrCreate linked folderid
  have held := linkedRules.update (linked.getOrCreate folderid) List.mem_cons_self (Balanced.takeCreat name 0).toKept
  obtain ⟨cr, found⟩ := Option.ne_none_iff_exists'.mp pending
  unfold unlink
  generalize drive.state.getOrCreate folderid = created at own counted seen held ⊢
  obtain ⟨folder, state⟩ := created
  simp only at own counted seen held ⊢
  subst own
  rw [seen, found]
  simp only
  split
  · exact .ok rfl
  have same := getFileAtOldLocation_state world held cr.fileid
  unfold unlinkFile
  simp only
  split
  · rw [same]
    exact .back inside (counted.release (fun _ _ => rfl) _)
  · exact .ok rfl

end Traces

/-- An operation that fails leaves the folders of any session as they were, unless
it took an entry out before. -/
theorem error_leaves_folders {steps : List Step} {drive : Drive} (session : Session steps drive) (world : World)
    (op : Op) {error : Error} (failed : (runOp world drive op).ret = .error error) :
    (runOp world drive op).drive.state.folders = drive.state.folders ↔ ¬TakesFirst drive.state op := by
  have linked := session_linked session
  cases op with
  | mkdir folderid name folderflags => exact iff_of_true (mkdir_clean linked _ error failed) not_false
  | rmdir folderid parentflags name =>
    by_cases pending : (drive.state.tasksOf folderid).findMkdir name 0 = none
    · exact iff_of_true (rmdir_clean linked _ pending error failed) (not_not.mpr pending)
    · exact iff_of_false (rmdir_traced linked _ pending error failed) (not_not.mpr pending)
  | creat folderid name fileid encsymkey => exact iff_of_true (addCreat_clean linked _ error failed) not_false
  | modify folderid name fileid hash encsymkey =>
    by_cases pending : (drive.state.tasksOf folderid).findCreat name 0 = none
    · exact iff_of_true (addModifiedFile_clean linked _ _ pending error failed) (not_not.mpr pending)
    · exact iff_of_false (addModifiedFile_traced linked _ _ pending error failed) (not_not.mpr pending)
  | unlink folderid name =>
    by_cases pending : (drive.state.tasksOf folderid).findCreat name 0 = none
    · exact iff_of_true (unlink_clean linked pending error failed) (not_not.mpr pending)
    · exact iff_of_false (unlink_traced linked pending error failed) (not_not.mpr pending)
  | renameFile fileid parentfolderid name toFolderid newName =>
    exact iff_of_true (renameFile_clean linked _ _ error failed) not_false
  | renameFolder folderid parentfolderid name toFolderid newName targetflags =>
    exact iff_of_true (renameFolder_clean linked _ _ _ _ error failed) not_false

/-- `mkdir a` twice. -/
theorem error_leaves_folders_exist :
    (runOp bare oneFolder (.mkdir 0 [97] 0)).drive.state.folders = oneFolder.state.folders ↔
      ¬TakesFirst oneFolder.state (.mkdir 0 [97] 0) :=
  have made : Session _ oneFolder := .step bare (.op (.mkdir 0 [97] 0)) .start rfl (by decide)
  have failed : (runOp bare oneFolder (.mkdir 0 [97] 0)).ret = .error .exist := by decide
  error_leaves_folders made bare (.mkdir 0 [97] 0) failed

/-- The transaction that should remove `a` does not commit. -/
theorem error_changes_folders : ¬∀ steps drive, Session steps drive → ∀ world op error,
    (runOp world drive op).ret = .error error →
    (runOp world drive op).drive.state.folders = drive.state.folders := by
  intro all
  have made : Session _ oneFolder := .step bare (.op (.mkdir 0 [97] 0)) .start rfl (by decide)
  have same := all _ _ made { bare with commits := false } (.rmdir 0 0 [97]) .io (by decide)
  revert same
  decide

end Pclsync.Proofs.FolderErrors
