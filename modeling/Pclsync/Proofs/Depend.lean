import Pclsync.Library.Waiting
import Pclsync.Fs.Depend
import Pclsync.Proofs.Restart

/-! When a renamed folder waits for every pending task of its old and its new place. A renamed file does. -/

namespace Pclsync.Proofs.Depend
open Pclsync.Fs Depend Library.Waiting

section Writing

variable {tasks : List Task} {depends : Depends} {pair : ℕ × ℕ} {taskid : ℕ}

/-- A task that is pending for a name in a folder. -/
def Concerns (folderid : ℤ) (name : Name) (task : Task) : Prop := task.folderid = folderid ∧ task.text1 = name ∧ task.status ≠ 3

theorem mem_depend (on : ℕ) : pair ∈ depend depends taskid on ↔ pair ∈ depends ∨ pair = (taskid, on) := by
  unfold depend
  rw [List.mem_insert_iff, or_comm]

theorem mem_dependIf (condition : Prop) [Decidable condition] (on : ℕ) :
    pair ∈ dependIf depends condition taskid on ↔ pair ∈ depends ∨ condition ∧ pair = (taskid, on) := by
  unfold dependIf
  split
  · next holds => rw [mem_depend, and_iff_right holds]
  · next fails => simp only [fails, false_and, or_false]

theorem mem_dependEach (rows : List Task) :
    pair ∈ rows.foldl (fun depends task => depend depends taskid task.id) depends ↔
      pair ∈ depends ∨ ∃ row ∈ rows, pair = (taskid, row.id) := by
  induction rows generalizing depends with
  | nil => simp
  | cons row rows ih =>
    rw [List.foldl_cons, ih, mem_depend]
    simp only [List.mem_cons, exists_eq_or_imp, or_assoc]

theorem mem_dependOnRows (except : List ℕ) (folderid : ℤ) (name : Name) :
    pair ∈ dependOnRows tasks depends taskid except folderid name ↔
      pair ∈ depends ∨ ∃ row ∈ tasks, Concerns folderid name row ∧ row.id ∉ except ∧ pair = (taskid, row.id) := by
  unfold dependOnRows Concerns
  rw [mem_dependEach]
  simp only [List.mem_filter, decide_eq_true_eq]
  apply or_congr_right
  constructor
  · rintro ⟨row, ⟨member, folder, text, apart, pending⟩, same⟩
    exact ⟨row, member, ⟨folder, text, pending⟩, apart, same⟩
  · rintro ⟨row, member, ⟨folder, text, pending⟩, apart, same⟩
    exact ⟨row, ⟨member, folder, text, apart, pending⟩, same⟩

theorem mem_dependElim {α : Type} (found : Option α) (on : α → ℕ) :
    (pair ∈ found.elim depends fun entry => depend depends taskid (on entry)) ↔
      pair ∈ depends ∨ ∃ entry ∈ found, pair = (taskid, on entry) := by
  cases found with
  | none => simp
  | some entry => simp [mem_depend]

end Writing

section Order

variable {tasks : List Task} {depends : Depends} {taskid : ℕ}

/-- The task waits for these others, and in no order of the uploader it is done before one of them is done or given up. -/
structure Waits (depends : Depends) (taskid : ℕ) (others : ℕ → Prop) : Prop where
  direct : ∀ other, others other → (taskid, other) ∈ depends
  order : ∀ before after last, run depends (before ++ .done taskid :: after) = some last →
    ∀ other, others other → .done other ∈ before ∨ .removed other ∈ before

theorem waits_iff (others : ℕ → Prop) : Waits depends taskid others ↔ ∀ other, others other → (taskid, other) ∈ depends :=
  ⟨Waits.direct, fun written => ⟨written, fun _ _ _ taken other wanted => run_after taken (written other wanted)⟩⟩

end Order

section Folder

variable (r : Rename) (targetflags : ℕ)

/-- The pending tasks of the old and the new place in some rows, but those of the rename. -/
def Others (r : Rename) (rows : List Task) (ftaskid ttaskid other : ℕ) : Prop :=
  ∃ row ∈ rows, other = row.id ∧ row.id ≠ ftaskid ∧ row.id ≠ ttaskid ∧
    (Concerns r.parentfolderid r.name row ∨ Concerns r.toFolderid r.newName row)

/-- A task that the rename waits for because of the ids of the folders, or because it moves what is renamed or removes what is in its way. -/
def Covered (other : ℕ) : Prop :=
  r.id < 0 ∧ other = (-r.id).toNat ∨ r.parentfolderid < 0 ∧ other = (-r.parentfolderid).toNat ∨
    r.toFolderid < 0 ∧ other = (-r.toFolderid).toNat ∨ (∃ row ∈ r.removal, other = row.id) ∨
      ∃ made ∈ r.parentTasks.findMkdir r.name 0, other = made.taskid

/-- Each pending task of the new place is also one of the old place, or the new place is in the folder itself, or it is covered. -/
def FolderFits (r : Rename) (rows : List Task) : Prop :=
  ∀ row ∈ rows, row.id ≠ r.ftaskid → row.id ≠ r.ttaskid → Concerns r.toFolderid r.newName row →
    Concerns r.parentfolderid r.name row ∨ Concerns r.id r.newName row ∨ Covered r row.id

theorem removal_cases : r.removal = [] ∨ ∃ row, r.removal = [row] ∧ row.id = insertid r.drive.tasks := by
  unfold Rename.removal deleteFolderIfEx
  generalize r.drive.state.get r.toFolderid = held
  obtain ⟨folder, state⟩ := held
  dsimp only
  cases (tasksAt state folder).findMkdir r.newName 0 with
  | some made =>
    dsimp only
    split
    · split
      · exact Or.inl rfl
      · split
        · split
          · exact Or.inl rfl
          · exact Or.inr ⟨_, rfl, rfl⟩
        · exact Or.inl rfl
    · exact Or.inr ⟨_, rfl, rfl⟩
  | none =>
    dsimp only
    split
    · exact Or.inl rfl
    · split
      · exact Or.inl rfl
      · split
        · split
          · exact Or.inl rfl
          · exact Or.inr ⟨_, rfl, rfl⟩
        · exact Or.inl rfl

/-- The removal has a number of its own. -/
theorem removal_id {row : Task} (member : row ∈ r.removal) : row.id ≠ r.ttaskid := by
  obtain none | ⟨only, same, _⟩ := removal_cases r
  · rw [none] at member
    cases member
  · rw [same, List.mem_singleton] at member
    unfold Rename.ttaskid Rename.ftaskid
    rw [same, Restart.insertid_append, member]
    omega

theorem mem_removalDepends (other : ℕ) : (r.ttaskid, other) ∈ r.removalDepends ↔ (r.ttaskid, other) ∈ r.depends := by
  have apart : ∀ row ∈ r.removal, row.id ≠ r.ttaskid := fun row member => removal_id r member
  unfold Rename.removalDepends
  generalize r.removal = rows at apart
  generalize r.depends = depends
  induction rows generalizing depends with
  | nil => exact Iff.rfl
  | cons row rows ih =>
    have differs : ∀ on, (r.ttaskid, other) ≠ (row.id, on) := fun on same =>
      apart row List.mem_cons_self (Prod.mk.inj same).1.symm
    rw [List.foldl_cons]
    refine (ih (fun later member => apart later (List.mem_cons_of_mem row member)) _).trans ?_
    rw [mem_dependIf]
    simp only [differs, and_false, or_false]
    cases r.targetTasks.findMkdir r.newName 0 with
    | none => exact Iff.rfl
    | some made =>
      rw [Option.elim_some, mem_dependIf]
      simp only [differs, and_false, or_false]

theorem mem_folderDepends (fresh : ∀ pair ∈ r.depends, pair.1 ≠ r.ttaskid) (other : ℕ) :
    (r.ttaskid, other) ∈ r.folderDepends targetflags ↔ Covered r other ∨
      ∃ row ∈ r.folderRows targetflags, other = row.id ∧
        (Concerns r.parentfolderid r.name row ∧ row.id ≠ r.ttaskid ∧ row.id ≠ r.ftaskid ∨ Concerns r.id r.newName row ∧ row.id ≠ r.ttaskid) := by
  have old : (r.ttaskid, other) ∉ r.removalDepends := fun member => fresh _ ((mem_removalDepends r other).mp member) rfl
  unfold Rename.folderDepends dependOnName dependOnName2 Covered
  simp only [mem_dependElim, mem_dependOnRows, mem_dependIf, mem_dependEach, old, Prod.mk.injEq, true_and, List.mem_cons, List.not_mem_nil,
    not_or, or_false, false_or]
  constructor
  · rintro ((((((moved | removed) | parent) | ⟨⟨into, _⟩, same⟩) | ⟨row, member, concerns, ⟨apart, apart2⟩, same⟩) |
      ⟨row, member, concerns, apart, same⟩) | made)
    · exact Or.inl (Or.inl moved)
    · exact Or.inl (Or.inr (Or.inr (Or.inr (Or.inl removed))))
    · exact Or.inl (Or.inr (Or.inl parent))
    · exact Or.inl (Or.inr (Or.inr (Or.inl ⟨into, same⟩)))
    · exact Or.inr ⟨row, member, same, Or.inl ⟨concerns, apart, apart2⟩⟩
    · exact Or.inr ⟨row, member, same, Or.inr ⟨concerns, apart⟩⟩
    · exact Or.inl (Or.inr (Or.inr (Or.inr (Or.inr made))))
  · rintro ((moved | parent | ⟨into, same⟩ | removed | made) | ⟨row, member, same, ⟨concerns, apart, apart2⟩ | ⟨concerns, apart⟩⟩)
    · exact Or.inl (Or.inl (Or.inl (Or.inl (Or.inl (Or.inl moved)))))
    · exact Or.inl (Or.inl (Or.inl (Or.inl (Or.inr parent))))
    · by_cases here : r.toFolderid = r.parentfolderid
      · rw [here] at into same
        exact Or.inl (Or.inl (Or.inl (Or.inl (Or.inr ⟨into, same⟩))))
      · exact Or.inl (Or.inl (Or.inl (Or.inr ⟨⟨into, here⟩, same⟩)))
    · exact Or.inl (Or.inl (Or.inl (Or.inl (Or.inl (Or.inr removed)))))
    · exact Or.inr made
    · exact Or.inl (Or.inl (Or.inr ⟨row, member, concerns, ⟨apart, apart2⟩, same⟩))
    · exact Or.inl (Or.inr ⟨row, member, concerns, apart, same⟩)

theorem folder_iff (keys : ((r.folderRows targetflags).map (·.id)).Nodup) (fresh : ∀ pair ∈ r.depends, pair.1 ≠ r.ttaskid) :
    Waits (r.folderDepends targetflags) r.ttaskid (Others r (r.folderRows targetflags) r.ftaskid r.ttaskid) ↔ FolderFits r (r.folderRows targetflags) := by
  rw [waits_iff]
  simp only [mem_folderDepends r targetflags fresh]
  constructor
  · intro written row member notFrom notTo concerns
    have found := written row.id ⟨row, member, rfl, notFrom, notTo, Or.inr concerns⟩
    obtain covered | ⟨other, inside, same, which⟩ := found
    · exact Or.inr (Or.inr covered)
    · have equal : row = other := List.inj_on_of_nodup_map keys member inside same
      rw [← equal] at which
      exact which.imp And.left fun own => Or.inl own.1
  · rintro fits other ⟨row, member, same, notFrom, notTo, old | new⟩
    · exact Or.inr ⟨row, member, same, Or.inl ⟨old, notTo, notFrom⟩⟩
    · obtain old | own | covered := fits row member notFrom notTo new
      · exact Or.inr ⟨row, member, same, Or.inl ⟨old, notTo, notFrom⟩⟩
      · exact Or.inr ⟨row, member, same, Or.inr ⟨own, notTo⟩⟩
      · exact Or.inl (same ▸ covered)

/-- These are the rows that the operation leaves. -/
theorem folderRows_eq {after : Drive}
    (success : renameFolder r.world r.drive r.id r.parentfolderid r.name r.toFolderid r.newName targetflags = ⟨after, .ok⟩) :
    after.tasks = r.folderRows targetflags := by
  unfold renameFolder at success
  simp only [back] at success
  split at success
  · cases success
  · cases success
    rfl

end Folder

section File

variable (r : Rename)

theorem file_waits : Waits r.fileDepends r.fileTtaskid (Others r r.fileRows r.fileFtaskid r.fileTtaskid) := by
  rw [waits_iff]
  rintro other ⟨row, member, same, notFrom, notTo, concerns⟩
  unfold Rename.fileDepends dependOnName dependOnName2
  simp only [mem_dependElim, mem_dependOnRows, mem_dependIf, Prod.mk.injEq, true_and, List.mem_cons, List.not_mem_nil, not_or, or_false]
  cases concerns with
  | inl old => exact Or.inl (Or.inl (Or.inr ⟨row, member, old, ⟨notTo, notFrom⟩, same⟩))
  | inr new => exact Or.inl (Or.inr ⟨row, member, new, notTo, same⟩)

/-- These are the rows that the operation leaves, but for the file that it replaces. -/
theorem fileRows_eq {after : Drive}
    (success : renameFile r.world r.drive r.id r.parentfolderid r.name r.toFolderid r.newName = ⟨after, .ok⟩) :
    ∃ openfiles replaced, after.tasks = stopReplaced r.world openfiles replaced r.fileRows := by
  unfold renameFile at success
  simp only [back] at success
  split at success
  · cases success
  · cases success
    exact ⟨_, _, rfl⟩

end File

section Calls

/-- A rename of a folder that succeeds. Ids are keys of their table, and no dependency is left of a row that is gone. -/
structure FolderCall extends Rename where
  targetflags : ℕ
  after : Drive
  success : renameFolder world drive id parentfolderid name toFolderid newName targetflags = ⟨after, .ok⟩
  keys : (after.tasks.map (·.id)).Nodup
  fresh : ∀ pair ∈ depends, pair.1 ≠ toRename.ttaskid

/-- A rename of a file that succeeds. -/
structure FileCall extends Rename where
  after : Drive
  success : renameFile world drive id parentfolderid name toFolderid newName = ⟨after, .ok⟩

/-- A renamed folder waits for every pending task of both places exactly if these fit, and a renamed file always does. -/
theorem waits_for_both (folder : FolderCall) (file : FileCall) :
    (Waits (folder.folderDepends folder.targetflags) folder.ttaskid (Others folder.toRename folder.after.tasks folder.ftaskid folder.ttaskid) ↔
      FolderFits folder.toRename folder.after.tasks) ∧
        Waits file.fileDepends file.fileTtaskid (Others file.toRename file.fileRows file.fileFtaskid file.fileTtaskid) := by
  have rows := folderRows_eq folder.toRename folder.targetflags folder.success
  have keys := folder.keys
  rw [rows] at keys ⊢
  exact ⟨folder_iff folder.toRename folder.targetflags keys folder.fresh, file_waits file.toRename⟩

/-- The server has a folder `b` in the folder 7. -/
def occupied : World := { FolderCounts.bare with folders := [⟨9, 7, [98], 0⟩] }

/-- The folder 5 comes to the place of `b`, which is removed. -/
def intoRemoved : Rename where
  world := occupied
  drive := (rmdir occupied .empty 7 0 [98]).drive
  depends := []
  id := 5
  parentfolderid := 0
  name := [97]
  toFolderid := 7
  newName := [98]

/-- The folder does not wait for the removal. -/
theorem not_waiting : ¬∀ folder : FolderCall,
    Waits (folder.folderDepends folder.targetflags) folder.ttaskid (Others folder.toRename folder.after.tasks folder.ftaskid folder.ttaskid) := by
  intro all
  let folder : FolderCall := {
    toRename := intoRemoved
    targetflags := 0
    after := (renameFolder occupied intoRemoved.drive 5 0 [97] 7 [98] 0).drive
    success := rfl
    keys := by decide
    fresh := fun _ member => absurd member List.not_mem_nil }
  have written := (all folder).direct 1 ⟨_, List.mem_cons_self, rfl, by decide, by decide, Or.inr ⟨rfl, rfl, by decide⟩⟩
  revert written
  decide

end Calls

end Pclsync.Proofs.Depend
