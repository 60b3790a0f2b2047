import Pclsync.Proofs.TaskMoves
import Pclsync.Paths.Drive

/-! The counts of the drive's folders over any run. -/

namespace Pclsync.Proofs.DriveTasks
open Pclsync.Library.Marks Pclsync.Paths Pclsync.Paths.Drive Pclsync.Proofs.TaskTree Pclsync.Proofs.TaskMoves

variable {s : State} {f : ℕ}

/-- What holds in every state. -/
structure Counts (s : State) : Prop where
  right : Right s.parents s.commitcbs s.tasks s.tree
  forest : ∃ rank, Forest s.parents rank

/-- When a step does what it is meant to do. No folder that the step looks above has a
stale entry in the cache, no folder whose move is not counted yet loses its mark, a deleted
folder has no subfolder with tasks, a folder is only created again where it was or without
tasks, and no folder is put below itself. -/
def Sound (s : State) : Action → Prop
  | .create f parent => f ≠ 0 ∧ ¬ Below s.parents parent f ∧ (s.parents f = some parent ∨ s.tree.folderTasks f = none)
  | .modify f parent => f ≠ 0 ∧ ¬ Below s.parents parent f ∧ (s.parents f = none → s.tree.folderTasks f = none)
  | .delete f =>
    Clear s.parents s.tree.parentCacheLru f ∧
      ∀ ft, s.tree.folderTasks f = some ft → ft.children = 0 ∧ Removable s.parents s.commitcbs s.tree f
  | .changed f tasks =>
    Clear s.parents s.tree.parentCacheLru f ∧
      (tasks = false → s.tree.folderTasks f = some ⟨0, true⟩ → Removable s.parents s.commitcbs s.tree f)
  | .callback =>
    match s.commitcbs with
    | [] => True
    | moved :: rest =>
      Clear s.parents s.tree.parentCacheLru moved.oldParent ∧ Clear s.parents s.tree.parentCacheLru moved.newParent ∧
        ∀ k, Pending rest k → ¬ Empties s.tree.folderTasks (above s.parents) moved.oldParent k

/-- The runs from a forest without tasks, where every step does what it is meant to do. -/
inductive Run : State → Prop where
  | init {parents : ℕ → Option ℕ} {rank : ℕ → ℕ} : Forest parents rank → Run (State.init parents)
  | step {s next : State} {action : Action} {fuel : ℕ} : Run s → Sound s action → perform fuel s action = .next next → Run next

theorem create_safe {parent : ℕ} (counts : Counts s) (notBelow : ¬ Below s.parents parent f)
    (free : s.parents f = some parent ∨ s.tree.folderTasks f = none) : Counts (s.create f parent) := by
  obtain same | absent := free
  · rw [State.create, Function.update_eq_self_iff.mpr same.symm]
    exact counts
  · obtain ⟨rank, forest⟩ := counts.forest
    exact ⟨counts.right.reparent absent _, forest_update forest notBelow⟩

theorem modify_safe {fuel parent : ℕ} (counts : Counts s) (sound : Sound s (.modify f parent)) :
    Safe Counts (perform fuel s (.modify f parent)) := by
  obtain ⟨notRoot, notBelow, free⟩ := sound
  obtain ⟨rank, forest⟩ := counts.forest
  rw [perform]
  cases row : s.parents f with
  | none => exact create_safe counts notBelow (.inr (free row))
  | some oldParent =>
    have up : above s.parents f = some oldParent := by rw [above, if_neg notRoot, row]
    simp only [fldrMoved]
    split
    next same => exact create_safe counts notBelow (.inl (row.trans (congrArg some same)))
    next =>
      simp only [State.create]
      cases found : s.tree.folderTasks f with
      | none => exact ⟨(counts.right.reparent found _).cache _, forest_update forest notBelow⟩
      | some ft => exact ⟨(counts.right.queue up (by simp [found])).cache _, forest_update forest notBelow⟩

theorem delete_safe {fuel : ℕ} (counts : Counts s) (sound : Sound s (.delete f)) : Safe Counts (perform fuel s (.delete f)) := by
  obtain ⟨clear, childless⟩ := sound
  obtain ⟨rank, forest⟩ := counts.forest
  apply Safe.map
  apply (fldrDeleted_safe forest counts.right clear childless).mono
  rintro tree ⟨right, absent⟩
  exact ⟨right.reparent absent _, rank, forest_remove forest⟩

theorem changed_safe {fuel : ℕ} {tasks : Bool} (counts : Counts s) (sound : Sound s (.changed f tasks)) :
    Safe Counts (perform fuel s (.changed f tasks)) := by
  obtain ⟨clear, removable⟩ := sound
  obtain ⟨rank, forest⟩ := counts.forest
  apply Safe.map
  rw [driveFldrChanged]
  cases tasks with
  | true =>
    apply (taskAdded_safe forest counts.right clear).mono
    intro tree right
    exact ⟨right, rank, forest⟩
  | false =>
    simp only [Bool.false_eq_true, if_false]
    cases found : s.tree.folderTasks f with
    | none =>
      have same : Function.update s.tasks f false = s.tasks :=
        Function.update_eq_self_iff.mpr (counts.right.tasks_of_absent found).symm
      exact ⟨by rw [same]; exact counts.right, rank, forest⟩
    | some ft =>
      simp only
      split
      next some => exact ⟨counts.right.flag found (.inr (Nat.pos_of_ne_zero some)), rank, forest⟩
      next zero =>
        push Not at zero
        have own : ft.own = true := by
          obtain own | positive := counts.right.tally.used f ft found
          · exact own
          · omega
        have last : s.tree.folderTasks f = some ⟨0, true⟩ := by
          rw [found, show ft = ⟨ft.children, ft.own⟩ from rfl, zero, own]
        simp only [own, not_true_eq_false, if_false]
        apply Safe.map
        apply (remove_safe forest counts.right found zero clear (removable rfl last)).mono
        rintro result ⟨right, _⟩
        exact ⟨right, rank, forest⟩

theorem callback_safe {fuel : ℕ} (counts : Counts s) (sound : Sound s .callback) : Safe Counts (perform fuel s .callback) := by
  obtain ⟨parents, tree, commitcbs, tasks⟩ := s
  cases commitcbs with
  | nil => exact counts
  | cons moved rest =>
    obtain ⟨clearOld, clearNew, kept⟩ := sound
    obtain ⟨rank, forest⟩ := counts.forest
    apply Safe.map
    apply (folderMoved_safe forest counts.right clearOld clearNew kept).mono
    intro tree right
    exact ⟨right, rank, forest⟩

/-- Each step that does what it is meant to do keeps the counts. -/
theorem perform_safe {action : Action} {fuel : ℕ} (counts : Counts s) (sound : Sound s action) : Safe Counts (perform fuel s action) := by
  cases action with
  | create f parent => exact create_safe counts sound.2.1 sound.2.2
  | modify f parent => exact modify_safe counts sound
  | delete f => exact delete_safe counts sound
  | changed f tasks => exact changed_safe counts sound
  | callback => exact callback_safe counts sound

/-- Each step that does what it is meant to do comes to an end. -/
theorem perform_ends {action : Action} (counts : Counts s) (sound : Sound s action) : ∃ fuel, perform fuel s action ≠ .exhausted := by
  obtain ⟨rank, forest⟩ := counts.forest
  cases action with
  | create f parent => exact ⟨0, by simp [perform]⟩
  | modify f parent =>
    refine ⟨0, ?_⟩
    rw [perform]
    split <;> simp
  | delete f => exact ⟨rank f, map_ne (fldrDeleted_ends forest sound.1)⟩
  | changed f tasks =>
    refine ⟨rank f, map_ne ?_⟩
    rw [driveFldrChanged]
    split
    · exact taskAdded_ends forest sound.1
    · split
      · simp
      · split
        · simp
        · split
          · simp
          · exact map_ne (remove_ends forest sound.1)
  | callback =>
    obtain ⟨parents, tree, commitcbs, tasks⟩ := s
    cases commitcbs with
    | nil => exact ⟨0, by simp [perform]⟩
    | cons moved rest => exact ⟨_, map_ne (folderMoved_ends forest counts.right sound.1 sound.2.1)⟩

theorem run_keeps (run : Run s) : Counts s := by
  induction run with
  | init forest => exact ⟨Right.init _, _, forest⟩
  | @step s next action fuel _ sound performed counts =>
    have safe : Safe Counts (perform fuel s action) := perform_safe counts sound
    rw [performed] at safe
    exact safe

/-- What the counts are for: a folder has a mark exactly while tasks were reported at or
below it, and counts its children that do. -/
structure Correct (s : State) : Prop where
  marked : ∀ f, s.tree.folderTasks f ≠ none ↔ ∃ g, Below s.parents g f ∧ s.tasks g = true
  counts : ∀ f ft, s.tree.folderTasks f = some ft →
    ft.children = {g | above s.parents g = some f ∧ s.tree.folderTasks g ≠ none}.ncard ∧ ft.own = s.tasks f
  status : ∀ ok f, driveFolderLocked ok s f = .inSync ↔ ¬ ∃ g, Below s.parents g f ∧ s.tasks g = true

theorem Counts.correct (counts : Counts s) (committed : s.commitcbs = []) : Correct s := by
  obtain ⟨rank, forest⟩ := counts.forest
  have right := counts.right
  rw [committed] at right
  refine ⟨right.marked_iff forest, fun f ft found => right.children found, ?_⟩
  intro ok f
  rw [← right.marked_iff forest f, driveFolderLocked, not_not]
  cases s.tree.folderTasks f with
  | none => simp
  | some ft => cases ok <;> simp

/-- In every run whose steps do what they are meant to do, the counts are correct whenever
all callbacks have run, no assertion fails and every loop ends. -/
theorem run_drive_counts (run : Run s) : (s.commitcbs = [] → Correct s) ∧
    ∀ action, Sound s action → (∀ fuel, perform fuel s action ≠ .failed) ∧ ∃ fuel next, perform fuel s action = .next next := by
  have counts := run_keeps run
  refine ⟨counts.correct, fun action sound => ⟨?_, ?_⟩⟩
  · intro fuel failed
    have safe : Safe Counts (perform fuel s action) := perform_safe counts sound
    rw [failed] at safe
    exact safe
  · obtain ⟨fuel, ends⟩ := perform_ends counts sound
    obtain ⟨result, performed, _⟩ := Safe.returns (perform_safe counts sound) ends
    exact ⟨fuel, result, performed⟩

/-- Folders 1, 2 and 5 in the root, 3 in 1 and 4 in 3. -/
def rows : ℕ → Option ℕ
  | 1 => some 0
  | 2 => some 0
  | 3 => some 1
  | 4 => some 3
  | 5 => some 0
  | _ => none

theorem rows_forest : Forest rows id := by
  intro f parent next
  rw [above] at next
  split at next
  · cases next
  · unfold rows at next
    split at next <;> simp_all <;> omega

theorem init_clear (parents : ℕ → Option ℕ) (f : ℕ) : Clear parents (State.init parents).tree.parentCacheLru f := by
  intro g _ parent member
  cases List.eq_of_mem_replicate member

theorem run_drive_counts_reported : ∃ s, perform 10 (State.init rows) (.changed 4 true) = .next s ∧ Correct s ∧
    driveFolderLocked true s 1 = .inProg := by
  obtain ⟨s, performed⟩ : ∃ s, perform 10 (State.init rows) (.changed 4 true) = .next s := ⟨_, rfl⟩
  have committed : Outcome.map State.commitcbs (perform 10 (State.init rows) (.changed 4 true)) = .next [] := rfl
  have status : Outcome.map (driveFolderLocked true · 1) (perform 10 (State.init rows) (.changed 4 true)) = .next .inProg := rfl
  rw [performed] at committed status
  have sound : Sound (State.init rows) (.changed 4 true) := ⟨init_clear rows 4, fun absurd => by cases absurd⟩
  refine ⟨s, performed, ?_, ?_⟩
  · exact (run_drive_counts (.step (.init rows_forest) sound performed)).1 (Outcome.next.inj committed)
  · exact Outcome.next.inj status

/-- Folder 4 has tasks, and goes from 3 to 5 in the transaction where 3 goes from 1 to 2.
The first callback takes the tasks out of 3, and then out of 2, which never had them. -/
theorem moved_together : Forest rows id ∧
    performAll 10 (State.init rows) [.changed 4 true, .modify 4 5, .modify 3 2, .callback] = .failed :=
  ⟨rows_forest, rfl⟩

end Pclsync.Proofs.DriveTasks
