import Pclsync.Proofs.TaskMoves
import Pclsync.Paths.Sync

/-! The counts of the local folders over any run. The tree of each sync is right for its
own moves. -/

namespace Pclsync.Proofs.SyncTasks
open Pclsync.Library.Marks Pclsync.Paths Pclsync.Paths.Sync Pclsync.Proofs.TaskTree Pclsync.Proofs.TaskMoves

variable {s : State} {f sync other : ℕ} {pending : List SyncFolderMoved}

/-- The moves of a sync that are not counted yet. -/
def movesOf (sync : ℕ) (pending : List SyncFolderMoved) : List FolderMoved :=
  pending.filterMap fun moved => if moved.oldSync = sync then some moved.toFolderMoved else none

/-- What holds in every state. -/
structure Counts (s : State) : Prop where
  right : ∀ sync, Right s.parents (movesOf sync s.commitcbs) (s.tasks sync) (getSyncData s.syncData sync)
  within : ∀ moved ∈ s.commitcbs, moved.oldSync = moved.newSync
  forest : ∃ rank, Forest s.parents rank

/-- No sync has tasks for a folder. -/
def Idle (s : State) (f : ℕ) : Prop := ∀ sync, (getSyncData s.syncData sync).folderTasks f = none

/-- When a step does what it is meant to do. No folder that the step looks above has a
stale entry in the cache and no folder whose move is not counted yet loses its mark. A
folder that moves or is deleted has tasks in no other sync, the tree of the drive has the
folder that moves whenever that of its sync does, and it has no tasks when the sync is
another one. A deleted folder has no subfolder with tasks, and none itself unless it is
reported before its row goes. -/
def Sound (s : State) : Action → Prop
  | .drive _ => True
  | .create f parent => f ≠ 0 ∧ ¬ Below s.parents parent f ∧ Idle s f
  | .added sync f => Clear s.parents (getSyncData s.syncData sync).parentCacheLru f
  | .completed sync f left => left = false → ∀ ft, (getSyncData s.syncData sync).folderTasks f = some ft → ft.children = 0 →
      Clear s.parents (getSyncData s.syncData sync).parentCacheLru f ∧
        Removable s.parents (movesOf sync s.commitcbs) (getSyncData s.syncData sync) f
  | .moved f oldSync newSync newParent => ∀ oldParent, s.parents f = some oldParent →
      f ≠ 0 ∧ ¬ Below s.parents newParent f ∧
        (∀ sync, sync ≠ oldSync → (getSyncData s.syncData sync).folderTasks f = none) ∧
        (oldSync = newSync → oldParent ≠ newParent → ∀ tree, s.syncData oldSync = some tree →
          (s.drive.tree.folderTasks f = none ↔ tree.folderTasks f = none)) ∧
        (oldSync ≠ newSync → (getSyncData s.syncData oldSync).folderTasks f = none ∧ s.drive.tree.folderTasks f = none)
  | .deleted .taskDelFolderRecDo sync f =>
    Clear s.parents (getSyncData s.syncData sync).parentCacheLru f ∧
      (∀ other, other ≠ sync → (getSyncData s.syncData other).folderTasks f = none) ∧
      ∀ ft, (getSyncData s.syncData sync).folderTasks f = some ft →
        ft.children = 0 ∧ Removable s.parents (movesOf sync s.commitcbs) (getSyncData s.syncData sync) f
  | .deleted _ _ f => Idle s f
  | .syncDeleted sync => movesOf sync s.commitcbs = []
  | .callback =>
    match s.commitcbs with
    | [] => True
    | moved :: rest =>
      Clear s.parents (getSyncData s.syncData moved.oldSync).parentCacheLru moved.oldParent ∧
        Clear s.parents (getSyncData s.syncData moved.oldSync).parentCacheLru moved.newParent ∧
        ∀ k, Pending (movesOf moved.oldSync rest) k →
          ¬ Empties (getSyncData s.syncData moved.oldSync).folderTasks (above s.parents) moved.oldParent k

/-- The runs from forests without tasks, where every step does what it is meant to do. -/
inductive Run : State → Prop where
  | init {driveParents parents : ℕ → Option ℕ} {rank : ℕ → ℕ} : Forest parents rank → Run (State.init driveParents parents)
  | step {s next : State} {action : Action} {fuel : ℕ} : Run s → Sound s action → perform fuel s action = .next next → Run next

@[simp] theorem getSyncData_self (data : ℕ → Option TaskTree) (tree : TaskTree) :
    getSyncData (Function.update data sync (some tree)) sync = tree := by
  simp [getSyncData]

@[simp] theorem getSyncData_of_ne {data : ℕ → Option TaskTree} {new : Option TaskTree} (ne : other ≠ sync) :
    getSyncData (Function.update data sync new) other = getSyncData data other := by
  simp [getSyncData, ne]

theorem getSyncData_eq {data : ℕ → Option TaskTree} {tree : TaskTree} (found : data sync = some tree) : getSyncData data sync = tree := by
  simp [getSyncData, found]

/-- One tree changes, and what is known of its tasks. -/
theorem Counts.change {tree : TaskTree} {tasks : Bool} (counts : Counts s)
    (right : Right s.parents (movesOf sync s.commitcbs) (Function.update (s.tasks sync) f tasks) tree) :
    Counts ({ s with syncData := Function.update s.syncData sync (some tree) }.report sync f tasks) := by
  refine ⟨fun k => ?_, counts.within, counts.forest⟩
  by_cases own : k = sync
  · subst own
    simpa [State.report] using right
  · simpa [State.report, own] using counts.right k

/-- Nothing changes but what was known anyway. -/
theorem Counts.known {tasks : Bool} (counts : Counts s) (known : s.tasks sync f = tasks) : Counts (s.report sync f tasks) := by
  rw [State.report, ← known, Function.update_eq_self, Function.update_eq_self]
  exact counts

theorem Counts.reparent {parent : Option ℕ} (counts : Counts s) (idle : Idle s f)
    (forest : ∃ rank, Forest (Function.update s.parents f parent) rank) :
    Counts { s with parents := Function.update s.parents f parent } :=
  ⟨fun sync => (counts.right sync).reparent (idle sync) parent, counts.within, forest⟩

theorem added_safe {fuel : ℕ} (counts : Counts s) (sound : Sound s (.added sync f)) : Safe Counts (perform fuel s (.added sync f)) := by
  obtain ⟨rank, forest⟩ := counts.forest
  apply Safe.map
  apply (taskAdded_safe forest (counts.right sync) sound).mono
  intro tree right
  exact counts.change right

theorem completed_safe {fuel : ℕ} {left : Bool} (counts : Counts s) (sound : Sound s (.completed sync f left)) :
    Safe Counts (perform fuel s (.completed sync f left)) := by
  obtain ⟨rank, forest⟩ := counts.forest
  apply Safe.map
  rw [syncfldrTaskCompleted]
  cases left with
  | true =>
    simp only [if_true, Bool.and_true]
    exact counts.known rfl
  | false =>
    simp only [Bool.false_eq_true, if_false, Bool.and_false]
    have right := counts.right sync
    cases data : s.syncData sync with
    | none =>
      have absent : (getSyncData s.syncData sync).folderTasks f = none := by simp [getSyncData, data, TaskTree.init]
      exact counts.known (right.tasks_of_absent absent)
    | some tree =>
      have read := getSyncData_eq data
      rw [Sound, read] at sound
      rw [read] at right
      simp only
      cases found : tree.folderTasks f with
      | none =>
        exact counts.known (right.tasks_of_absent found)
      | some ft =>
        simp only
        split
        next some => exact counts.change (right.flag found (.inr (Nat.pos_of_ne_zero some)))
        next zero =>
          push Not at zero
          obtain ⟨clear, removable⟩ := sound rfl ft found zero
          apply Safe.map
          apply (remove_safe forest right found zero clear removable).mono
          rintro result ⟨right, _⟩
          exact counts.change right

theorem movesOf_append (moved : SyncFolderMoved) :
    movesOf sync (pending ++ [moved]) = movesOf sync pending ++ if moved.oldSync = sync then [moved.toFolderMoved] else [] := by
  rw [movesOf, List.filterMap_append, ← movesOf]
  congr 1
  by_cases own : moved.oldSync = sync <;> simp [own]

theorem moved_safe {fuel newSync newParent : ℕ} (counts : Counts s) (sound : Sound s (.moved f sync newSync newParent)) :
    Safe Counts (perform fuel s (.moved f sync newSync newParent)) := by
  obtain ⟨rank, forest⟩ := counts.forest
  rw [perform]
  cases row : s.parents f with
  | none => exact counts
  | some oldParent =>
    obtain ⟨notRoot, notBelow, others, agree, across⟩ := sound oldParent row
    have forest := forest_update forest notBelow
    simp only [syncfldrMoved]
    split
    next same =>
      have still : Function.update s.parents f (some newParent) = s.parents := by
        rw [Function.update_eq_self_iff, row, same.1]
      change Counts { s with parents := _ }
      rw [still]
      exact counts
    next differs =>
      cases data : s.syncData sync with
      | none =>
        have idle : Idle s f := by
          intro k
          by_cases own : k = sync
          · subst own
            simp [getSyncData, data, TaskTree.init]
          · exact others k own
        exact counts.reparent idle forest
      | some tree =>
        have read := getSyncData_eq data
        have right := counts.right sync
        rw [read] at right
        -- the cache of the tree does not matter
        have cached : ∀ k, getSyncData (Function.update s.syncData sync
            (some { tree with parentCacheLru := delFromParentCache tree.parentCacheLru f })) k =
              if k = sync then { tree with parentCacheLru := delFromParentCache tree.parentCacheLru f } else getSyncData s.syncData k := by
          intro k
          by_cases own : k = sync <;> simp [own]
        have quiet : tree.folderTasks f = none → Counts
            { s with
              parents := Function.update s.parents f (some newParent)
              syncData := Function.update s.syncData sync (some { tree with parentCacheLru := delFromParentCache tree.parentCacheLru f }) } := by
          intro absent
          refine ⟨fun k => ?_, counts.within, forest⟩
          simp only [cached]
          split
          next own => exact own ▸ (right.reparent absent _).cache _
          next own => exact (counts.right k).reparent (others k own) _
        simp only
        cases drive : s.drive.tree.folderTasks f with
        | none =>
          apply quiet
          by_cases within : sync = newSync
          · exact (agree within (fun same => differs ⟨same, within⟩) tree data).mp drive
          · rw [← read]
            exact (across within).1
        | some ft =>
          have within : sync = newSync := by
            by_contra apart
            rw [(across apart).2] at drive
            cases drive
          have marked : tree.folderTasks f ≠ none := by
            intro absent
            rw [(agree within (fun same => differs ⟨same, within⟩) tree data).mpr absent] at drive
            cases drive
          have up : above s.parents f = some oldParent := by rw [above, if_neg notRoot, row]
          refine ⟨fun k => ?_, ?_, forest⟩
          · simp only [cached, movesOf_append]
            by_cases own : k = sync
            · subst own
              simp only [if_true]
              exact (right.queue up marked).cache _
            · simp only [own, Ne.symm own, if_false, List.append_nil]
              exact (counts.right k).reparent (others k own) _
          · intro moved member
            obtain old | new := List.mem_append.mp member
            · exact counts.within moved old
            · rw [List.mem_singleton.mp new]
              exact within

theorem deleted_safe {fuel : ℕ} {deleter : Deleter} (counts : Counts s) (sound : Sound s (.deleted deleter sync f)) :
    Safe Counts (perform fuel s (.deleted deleter sync f)) := by
  obtain ⟨rank, forest⟩ := counts.forest
  have removed : ∃ rank, Forest (Function.update s.parents f none) rank := ⟨rank, forest_remove forest⟩
  have known : Idle s f → s.tasks sync f = false := fun idle => (counts.right sync).tasks_of_absent (idle sync)
  cases deleter with
  | taskDelFolderRecDo =>
    obtain ⟨clear, others, childless⟩ := sound
    apply Safe.map
    rw [syncfldrDeleted]
    cases data : s.syncData sync with
    | none =>
      have idle : Idle s f := by
        intro k
        by_cases own : k = sync
        · subst own
          simp [getSyncData, data, TaskTree.init]
        · exact others k own
      exact (counts.reparent idle removed).known (known idle)
    | some tree =>
      have right := counts.right sync
      rw [getSyncData_eq data] at right clear childless
      apply Safe.map
      apply (fldrDeleted_safe forest right clear childless).mono
      rintro result ⟨right, absent⟩
      have changed := counts.change right
      refine changed.reparent (fun k => ?_) removed
      by_cases own : k = sync
      · subst own
        simpa [State.report] using absent
      · simpa [State.report, own] using others k own
  | deleteLocalFolderFromDb =>
    have gone := counts.reparent sound removed
    apply Safe.map
    rw [syncfldrDeleted]
    cases data : s.syncData sync with
    | none => exact gone.known (known sound)
    | some tree =>
      have absent := sound sync
      have right := gone.right sync
      rw [getSyncData_eq data] at absent
      rw [getSyncData_eq data] at right
      apply Safe.map
      rw [fldrDeleted, absent]
      have same : Function.update (s.tasks sync) f false = s.tasks sync := Function.update_eq_self_iff.mpr (known sound).symm
      refine gone.change ?_
      rw [same]
      exact right.cache _
  | deleteLocalFolderRec =>
    exact (counts.reparent sound removed).known (known sound)

/-- Within one sync a move is one of its tree. -/
theorem syncFolderMoved_eq {parents : ℕ → Option ℕ} {fuel : ℕ} (data : ℕ → Option TaskTree) {moved : SyncFolderMoved}
    (within : moved.oldSync = moved.newSync) :
    syncFolderMoved parents fuel data moved =
      (folderMoved parents fuel (getSyncData data moved.oldSync) moved.toFolderMoved).map fun tree =>
        Function.update data moved.oldSync (some tree) := by
  rw [syncFolderMoved, folderMoved, ← within]
  cases countUp parents fuel (getSyncData data moved.oldSync) moved.newParent with
  | next up =>
    simp only [Outcome.bind, Outcome.map, Function.update_self, Function.update_idem]
    cases countDown parents false fuel up.1 moved.oldParent with
    | next down => rfl
    | failed => rfl
    | exhausted => rfl
  | failed => rfl
  | exhausted => rfl

theorem movesOf_cons {moved : SyncFolderMoved} : movesOf sync (moved :: pending) =
    if moved.oldSync = sync then moved.toFolderMoved :: movesOf sync pending else movesOf sync pending := by
  rw [movesOf, List.filterMap_cons, ← movesOf]
  by_cases own : moved.oldSync = sync <;> simp [own]

theorem callback_safe {fuel : ℕ} (counts : Counts s) (sound : Sound s .callback) : Safe Counts (perform fuel s .callback) := by
  obtain ⟨drive, parents, data, commitcbs, tasks⟩ := s
  cases commitcbs with
  | nil => exact counts
  | cons moved rest =>
    obtain ⟨clearOld, clearNew, kept⟩ := sound
    obtain ⟨rank, forest⟩ := counts.forest
    have right := counts.right moved.oldSync
    simp only [movesOf_cons, if_true] at right
    apply Safe.map
    rw [syncFolderMoved_eq data (counts.within moved List.mem_cons_self)]
    apply Safe.map
    apply (folderMoved_safe forest right clearOld clearNew kept).mono
    intro tree after
    refine ⟨fun k => ?_, fun later member => counts.within later (List.mem_cons_of_mem _ member), rank, forest⟩
    by_cases own : k = moved.oldSync
    · subst own
      simpa using after
    · have other := counts.right k
      simp only [movesOf_cons, Ne.symm own, if_false] at other
      simpa [own] using other

theorem syncDeleted_safe (counts : Counts s) (sound : Sound s (.syncDeleted sync)) :
    Counts { s with syncData := Function.update s.syncData sync none, tasks := Function.update s.tasks sync fun _ => false } := by
  refine ⟨fun k => ?_, counts.within, counts.forest⟩
  by_cases own : k = sync
  · subst own
    rw [Sound] at sound
    simp only [sound, Function.update_self, getSyncData, Option.getD_none]
    exact Right.init _
  · simpa [own] using counts.right k

/-- Each step that does what it is meant to do keeps the counts, and the drive's assertions
are its own matter. -/
theorem perform_safe {action : Action} {fuel : ℕ} (counts : Counts s) (sound : Sound s action) (ours : ∀ drive, action ≠ .drive drive) :
    Safe Counts (perform fuel s action) := by
  cases action with
  | drive action => exact absurd rfl (ours action)
  | create f parent =>
    obtain ⟨rank, forest⟩ := counts.forest
    exact counts.reparent sound.2.2 (forest_update forest sound.2.1)
  | added sync f => exact added_safe counts sound
  | completed sync f left => exact completed_safe counts sound
  | moved f oldSync newSync newParent => exact moved_safe counts sound
  | deleted deleter sync f => exact deleted_safe counts sound
  | syncDeleted sync => exact syncDeleted_safe counts sound
  | callback => exact callback_safe counts sound

theorem perform_keeps {action : Action} {fuel : ℕ} {next : State} (counts : Counts s) (sound : Sound s action)
    (performed : perform fuel s action = .next next) : Counts next := by
  cases action with
  | drive action =>
    rw [perform] at performed
    cases result : Drive.perform fuel s.drive action with
    | next drive =>
      rw [result] at performed
      cases performed
      exact ⟨counts.right, counts.within, counts.forest⟩
    | failed =>
      rw [result] at performed
      cases performed
    | exhausted =>
      rw [result] at performed
      cases performed
  | _ =>
    have safe : Safe Counts (perform fuel s _) := perform_safe counts sound (by simp)
    rw [performed] at safe
    exact safe

theorem run_keeps (run : Run s) : Counts s := by
  induction run with
  | init forest =>
    refine ⟨fun sync => ?_, fun moved member => ?_, _, forest⟩
    · exact Right.init _
    · cases member
  | step _ sound performed counts => exact perform_keeps counts sound performed

/-- Each step that does what it is meant to do comes to an end. -/
theorem perform_ends {action : Action} (counts : Counts s) (sound : Sound s action) (ours : ∀ drive, action ≠ .drive drive) :
    ∃ fuel, perform fuel s action ≠ .exhausted := by
  obtain ⟨rank, forest⟩ := counts.forest
  cases action with
  | drive action => exact absurd rfl (ours action)
  | create f parent => exact ⟨0, by simp [perform]⟩
  | added sync f => exact ⟨rank f, map_ne (taskAdded_ends forest sound)⟩
  | completed sync f left =>
    refine ⟨rank f, map_ne ?_⟩
    rw [syncfldrTaskCompleted]
    cases left with
    | true => simp
    | false =>
      simp only [Bool.false_eq_true, if_false]
      cases data : s.syncData sync with
      | none => simp
      | some tree =>
        rw [Sound, getSyncData_eq data] at sound
        simp only
        cases found : tree.folderTasks f with
        | none => simp
        | some ft =>
          simp only
          split
          · simp
          next zero =>
            push Not at zero
            exact map_ne (remove_ends forest (sound rfl ft found zero).1)
  | moved f oldSync newSync newParent =>
    refine ⟨0, ?_⟩
    rw [perform]
    split <;> simp
  | deleted deleter sync f =>
    cases deleter with
    | taskDelFolderRecDo =>
      refine ⟨rank f, map_ne ?_⟩
      rw [syncfldrDeleted]
      cases data : s.syncData sync with
      | none => simp
      | some tree =>
        have clear := sound.1
        rw [getSyncData_eq data] at clear
        exact map_ne (fldrDeleted_ends forest clear)
    | deleteLocalFolderFromDb =>
      refine ⟨0, map_ne ?_⟩
      rw [syncfldrDeleted]
      cases data : s.syncData sync with
      | none => simp
      | some tree =>
        have absent := sound sync
        rw [getSyncData_eq data] at absent
        simp [fldrDeleted, absent, Outcome.map, Outcome.bind]
    | deleteLocalFolderRec => exact ⟨0, by simp [perform]⟩
  | syncDeleted sync => exact ⟨0, by simp [perform]⟩
  | callback =>
    obtain ⟨drive, parents, data, commitcbs, tasks⟩ := s
    cases commitcbs with
    | nil => exact ⟨0, by simp [perform]⟩
    | cons moved rest =>
      have right := counts.right moved.oldSync
      simp only [movesOf_cons, if_true] at right
      refine ⟨rank moved.oldParent + rank moved.newParent + 1, map_ne ?_⟩
      rw [syncFolderMoved_eq data (counts.within moved List.mem_cons_self)]
      exact map_ne (folderMoved_ends forest right sound.1 sound.2.1)

/-- What the counts of a sync are for: a folder has a mark exactly while it has tasks or a
child that has one, and counts its children that do. -/
structure Correct (s : State) : Prop where
  marked : ∀ sync f, (getSyncData s.syncData sync).folderTasks f ≠ none ↔
    s.tasks sync f = true ∨ ∃ g, above s.parents g = some f ∧ (getSyncData s.syncData sync).folderTasks g ≠ none
  counts : ∀ sync f ft, (getSyncData s.syncData sync).folderTasks f = some ft →
    ft.children = {g | above s.parents g = some f ∧ (getSyncData s.syncData sync).folderTasks g ≠ none}.ncard ∧ ft.own = s.tasks sync f

theorem Counts.correct (counts : Counts s) (committed : s.commitcbs = []) : Correct s := by
  have trees : ∀ sync, Right s.parents [] (s.tasks sync) (getSyncData s.syncData sync) := by
    intro sync
    have right := counts.right sync
    rwa [committed] at right
  refine ⟨fun sync f => ?_, fun sync f ft found => (trees sync).children found⟩
  have right := trees sync
  constructor
  · intro marked
    obtain ⟨ft, found⟩ := Option.ne_none_iff_exists'.mp marked
    obtain ⟨count, own⟩ := right.children found
    obtain tasks | positive := right.tally.used f ft found
    · exact .inl (own ▸ tasks)
    · obtain ⟨g, member⟩ := Set.nonempty_of_ncard_ne_zero (count ▸ Nat.ne_of_gt positive)
      exact .inr ⟨g, member⟩
  · rintro (tasks | ⟨g, up, marked⟩)
    · intro absent
      rw [right.tasks_of_absent absent] at tasks
      cases tasks
    · exact right.tally.marked_parent marked up (by simp)

/-- In every run whose steps do what they are meant to do, the counts of every sync are
correct whenever all callbacks have run, no assertion about them fails and every loop ends. -/
theorem run_sync_counts (run : Run s) : (s.commitcbs = [] → Correct s) ∧
    ∀ action, Sound s action → (∀ drive, action ≠ .drive drive) →
      (∀ fuel, perform fuel s action ≠ .failed) ∧ ∃ fuel next, perform fuel s action = .next next := by
  have counts := run_keeps run
  refine ⟨counts.correct, fun action sound ours => ⟨?_, ?_⟩⟩
  · intro fuel failed
    have safe : Safe Counts (perform fuel s action) := perform_safe counts sound ours
    rw [failed] at safe
    exact safe
  · obtain ⟨fuel, ends⟩ := perform_ends counts sound ours
    obtain ⟨result, performed, _⟩ := Safe.returns (perform_safe counts sound ours) ends
    exact ⟨fuel, result, performed⟩

/-- Local folders 1 and 2 in the root, and 3 in 1. -/
def rows : ℕ → Option ℕ
  | 1 => some 0
  | 2 => some 0
  | 3 => some 1
  | _ => none

theorem rows_forest : Forest rows id := by
  intro f parent next
  rw [above] at next
  split at next
  · cases next
  · unfold rows at next
    split at next <;> simp_all <;> omega

theorem run_sync_counts_added : ∃ s, perform 10 (State.init rows rows) (.added 1 3) = .next s ∧ Correct s ∧
    (getSyncData s.syncData 1).folderTasks 1 = some ⟨1, false⟩ := by
  obtain ⟨s, performed⟩ : ∃ s, perform 10 (State.init rows rows) (.added 1 3) = .next s := ⟨_, rfl⟩
  have committed : Outcome.map State.commitcbs (perform 10 (State.init rows rows) (.added 1 3)) = .next [] := rfl
  have counted : Outcome.map (fun s => (getSyncData s.syncData 1).folderTasks 1) (perform 10 (State.init rows rows) (.added 1 3)) =
    .next (some ⟨1, false⟩) := rfl
  rw [performed] at committed counted
  have sound : Sound (State.init rows rows) (.added 1 3) := by
    intro g _ parent member
    cases List.eq_of_mem_replicate member
  refine ⟨s, performed, ?_, ?_⟩
  · exact (run_sync_counts (.step (.init rows_forest) sound performed)).1 (Outcome.next.inj committed)
  · exact Outcome.next.inj counted

/-- Folder 3 has tasks and goes from 1 to 2 while the drive has none: it stays counted
in 1. -/
theorem moved_uncounted : Forest rows id ∧
    (performAll 10 (State.init rows rows) [.added 1 3, .moved 3 1 1 2]).map (fun s =>
      (s.commitcbs, s.parents 3, [1, 2, 3].map fun f => ((getSyncData s.syncData 1).folderTasks f).map Mark.children)) =
        .next ([], some 2, [some 1, none, some 0]) :=
  ⟨rows_forest, rfl⟩

end Pclsync.Proofs.SyncTasks
