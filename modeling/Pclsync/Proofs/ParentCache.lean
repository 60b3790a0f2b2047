import Pclsync.Proofs.TaskTree
import Pclsync.Paths.Sync

/-! The caches of parents over any run. A lookup only adds what the rows say, so an entry
can become wrong only when a row changes or goes and its folder stays in the cache. -/

namespace Pclsync.Proofs.ParentCache
open Pclsync.Library.Marks Pclsync.Paths Pclsync.Paths.Sync Pclsync.Proofs.TaskTree

variable {parents : ℕ → Option ℕ} {lru : List (Option (ℕ × ℕ))} {tree : TaskTree} {f fuel : ℕ}

/-- Two entries of one folder. -/
def Same (entry other : Option (ℕ × ℕ)) : Prop := ∃ f, isEntry f entry = true ∧ isEntry f other = true

/-- Every entry has the parent of its folder, and no folder has two. -/
structure Coherent (parents : ℕ → Option ℕ) (lru : List (Option (ℕ × ℕ))) : Prop where
  rows : ∀ f parent, some (f, parent) ∈ lru → parents f = some parent
  single : lru.Pairwise fun entry other => ¬ Same entry other

/-- What a function returns, if it returns, satisfies a predicate. -/
def Returns {α : Type} (holds : α → Prop) : Outcome α → Prop
  | .next result => holds result
  | _ => True

section Outcome
variable {α β : Type} {holds : α → Prop} {holdsNext : β → Prop} {outcome : Outcome α}

theorem Returns.mono {weaker : α → Prop} (returns : Returns holds outcome) (mono : ∀ result, holds result → weaker result) :
    Returns weaker outcome := by
  cases outcome with
  | next result => exact mono result returns
  | failed => trivial
  | exhausted => trivial

theorem Returns.bind {rest : α → Outcome β} (returns : Returns holds outcome)
    (next : ∀ result, holds result → Returns holdsNext (rest result)) : Returns holdsNext (outcome.bind rest) := by
  cases outcome with
  | next result => exact next result returns
  | failed => trivial
  | exhausted => trivial

theorem Returns.map {f : α → β} (returns : Returns (fun result => holdsNext (f result)) outcome) : Returns holdsNext (outcome.map f) :=
  returns.bind fun _ holds => holds

end Outcome

theorem Coherent.init (cacheSize : ℕ) : Coherent parents (TaskTree.init cacheSize).parentCacheLru := by
  refine ⟨fun f parent member => ?_, ?_⟩
  · cases List.eq_of_mem_replicate member
  · apply List.pairwise_replicate.mpr
    right
    rintro ⟨f, own, _⟩
    simp [isEntry] at own

/-- Once an entry is taken out its folder has none. -/
theorem Coherent.erase (coherent : Coherent parents lru) (f : ℕ) :
    Coherent parents (lru.eraseP (isEntry f)) ∧ ∀ entry ∈ lru.eraseP (isEntry f), isEntry f entry = false := by
  refine ⟨⟨fun g parent member => coherent.rows g parent (List.mem_of_mem_eraseP member), ?_⟩, ?_⟩
  · exact coherent.single.sublist List.eraseP_sublist
  · intro entry member
    obtain same | ⟨found, before, after, earlier, own, whole, erased⟩ := List.exists_or_eq_self_of_eraseP (isEntry f) lru
    · rw [same] at member
      exact Bool.eq_false_of_not_eq_true (List.eraseP_eq_self_iff.mp same entry member)
    · have single := coherent.single
      rw [whole, List.pairwise_append, List.pairwise_cons] at single
      rw [erased, List.mem_append] at member
      apply Bool.eq_false_of_not_eq_true
      obtain first | last := member
      · exact earlier entry first
      · intro also
        exact single.2.1.1 entry last ⟨f, own, also⟩

theorem Coherent.append {entry : Option (ℕ × ℕ)} (coherent : Coherent parents lru)
    (row : ∀ f parent, entry = some (f, parent) → parents f = some parent)
    (fresh : ∀ other ∈ lru, ∀ f, isEntry f entry = true → isEntry f other = false) : Coherent parents (lru ++ [entry]) := by
  constructor
  · intro f parent member
    obtain old | new := List.mem_append.mp member
    · exact coherent.rows f parent old
    · exact row f parent (List.mem_singleton.mp new).symm
  · rw [List.pairwise_append]
    refine ⟨coherent.single, List.pairwise_singleton _ _, ?_⟩
    intro other member new same
    rw [List.mem_singleton.mp same]
    rintro ⟨f, first, second⟩
    rw [fresh other member f second] at first
    cases first

/-- A lookup keeps the cache coherent. -/
theorem getParentFolder_coherent (coherent : Coherent parents lru) (f : ℕ) : Coherent parents (getParentFolder parents lru f).2 := by
  rw [getParentFolder]
  split
  · exact coherent
  · split
    next entry found =>
      obtain ⟨parent, rfl⟩ := isEntry_iff.mp (List.find?_some found)
      obtain ⟨kept, absent⟩ := coherent.erase f
      apply kept.append
      · intro g up same
        exact coherent.rows g up (same ▸ List.mem_of_find?_eq_some found)
      · intro other member g own
        have same : f = g := by simpa [isEntry] using own
        exact same ▸ absent other member
    next missing =>
      split
      · exact coherent
      next parent row =>
        have rest : Coherent parents lru.tail :=
          ⟨fun g up member => coherent.rows g up (List.mem_of_mem_tail member), coherent.single.sublist (List.tail_sublist lru)⟩
        apply rest.append
        · intro g up same
          cases same
          exact row
        · intro other member g own
          have same : f = g := by simpa [isEntry] using own
          have absent := List.find?_eq_none.mp missing other (List.mem_of_mem_tail member)
          exact same ▸ Bool.eq_false_of_not_eq_true absent

/-- A folder that is taken out of the cache has no entry. -/
theorem delFromParentCache_coherent (coherent : Coherent parents lru) (f : ℕ) :
    Coherent parents (delFromParentCache lru f) ∧ ∀ parent, some (f, parent) ∉ delFromParentCache lru f := by
  rw [delFromParentCache]
  split
  · obtain ⟨kept, absent⟩ := coherent.erase f
    refine ⟨⟨?_, ?_⟩, ?_⟩
    · intro g parent member
      obtain absurd | old := List.mem_cons.mp member
      · cases absurd
      · exact kept.rows g parent old
    · refine List.pairwise_cons.mpr ⟨?_, kept.single⟩
      rintro other _ ⟨g, own, _⟩
      simp [isEntry] at own
    · intro parent member
      obtain absurd | old := List.mem_cons.mp member
      · cases absurd
      · simpa [isEntry] using absent _ old
  next none =>
    refine ⟨coherent, fun parent member => none ?_⟩
    exact List.any_eq_true.mpr ⟨_, member, by simp [isEntry]⟩

/-- The row of a folder without an entry may change. -/
theorem Coherent.reparent (coherent : Coherent parents lru) (absent : ∀ parent, some (f, parent) ∉ lru) (new : Option ℕ) :
    Coherent (Function.update parents f new) lru := by
  refine ⟨fun g parent member => ?_, coherent.single⟩
  have other : g ≠ f := by
    rintro rfl
    exact absent parent member
  rw [Function.update_of_ne other]
  exact coherent.rows g parent member

theorem climb_coherent (tree : TaskTree) {loop : TaskTree → ℕ → Outcome (TaskTree × Option ℕ)} (coherent : Coherent parents tree.parentCacheLru)
    (next : ∀ tree parent, Coherent parents tree.parentCacheLru →
      Returns (fun result => Coherent parents result.1.parentCacheLru) (loop tree parent)) :
    Returns (fun result => Coherent parents result.1.parentCacheLru) (climb parents tree f loop) := by
  have looked := getParentFolder_coherent coherent f
  rw [climb]
  split
  next lru read =>
    rw [read] at looked
    exact looked
  next parent lru read =>
    rw [read] at looked
    exact next _ parent looked

theorem countUp_coherent (tree : TaskTree) (f : ℕ) (coherent : Coherent parents tree.parentCacheLru) :
    Returns (fun result => Coherent parents result.1.parentCacheLru) (countUp parents fuel tree f) := by
  induction fuel generalizing tree f with
  | zero => trivial
  | succ fuel ih =>
    rw [countUp]
    simp only
    split
    · exact coherent
    · exact climb_coherent (tree.put f _) coherent ih

theorem countDown_coherent {positive : Bool} (tree : TaskTree) (f : ℕ) (coherent : Coherent parents tree.parentCacheLru) :
    Returns (fun result => Coherent parents result.1.parentCacheLru) (countDown parents positive fuel tree f) := by
  induction fuel generalizing tree f with
  | zero => trivial
  | succ fuel ih =>
    rw [countDown]
    split
    · trivial
    · split
      · trivial
      · simp only
        split
        · exact coherent
        · exact climb_coherent (tree.put f _) coherent ih

theorem taskAdded_coherent (tree : TaskTree) (coherent : Coherent parents tree.parentCacheLru) :
    Returns (fun result => Coherent parents result.parentCacheLru) (taskAdded parents fuel tree f) := by
  rw [taskAdded]
  split
  · exact coherent
  · exact Returns.map (climb_coherent (tree.put f _) coherent countUp_coherent)

theorem folderMoved_coherent {moved : FolderMoved} (coherent : Coherent parents tree.parentCacheLru) :
    Returns (fun result => Coherent parents result.parentCacheLru) (folderMoved parents fuel tree moved) := by
  rw [folderMoved]
  apply (countUp_coherent tree moved.newParent coherent).bind
  intro up between
  exact Returns.map (countDown_coherent up.1 moved.oldParent between)

/-- A deleted folder that had no tasks is in the cache no more. -/
theorem fldrDeleted_coherent (coherent : Coherent parents tree.parentCacheLru) (idle : tree.folderTasks f = none) :
    Returns (fun result => Coherent parents result.parentCacheLru ∧ ∀ parent, some (f, parent) ∉ result.parentCacheLru)
      (fldrDeleted parents fuel tree f) := by
  rw [fldrDeleted, idle]
  exact delFromParentCache_coherent coherent f

/-- What holds of the caches in every state. -/
structure Caches (s : State) : Prop where
  drive : Coherent s.drive.parents s.drive.tree.parentCacheLru
  sync : ∀ sync, Coherent s.parents (getSyncData s.syncData sync).parentCacheLru

/-- No sync but one has an entry of a folder. -/
def Apart (s : State) (sync f : ℕ) : Prop :=
  ∀ other, other ≠ sync → ∀ parent, some (f, parent) ∉ (getSyncData s.syncData other).parentCacheLru

/-- When a step on the drive takes out the entry of the row that it changes: a deleted
folder has no tasks, and a folder that is created again has no other parent. -/
def DriveTidy (s : Drive.State) : Drive.Action → Prop
  | .create f parent => s.parents f = some parent ∨ s.parents f = none
  | .delete f => s.tree.folderTasks f = none
  | _ => True

/-- When a step takes out the entry of the row that it changes: a deleted folder has no
tasks, one that is deleted without a report is in no cache, and one that moves or is
deleted is in the cache of its own sync only. -/
def Tidy (s : State) : Action → Prop
  | .drive action => DriveTidy s.drive action
  | .create f parent => s.parents f = some parent ∨ s.parents f = none
  | .moved f oldSync _ newParent => s.parents f ≠ some newParent → Apart s oldSync f
  | .deleted .deleteLocalFolderRec _ f => ∀ sync parent, some (f, parent) ∉ (getSyncData s.syncData sync).parentCacheLru
  | .deleted _ sync f => (getSyncData s.syncData sync).folderTasks f = none ∧ Apart s sync f
  | _ => True

/-- The runs where every step takes out the entry of the row that it changes. -/
inductive TidyRun : State → Prop where
  | init (driveParents parents : ℕ → Option ℕ) : TidyRun (State.init driveParents parents)
  | step {s next : State} {action : Action} {fuel : ℕ} : TidyRun s → Tidy s action → perform fuel s action = .next next → TidyRun next

theorem Coherent.create {parent : ℕ} (coherent : Coherent parents lru) (same : parents f = some parent ∨ parents f = none) :
    Coherent (Function.update parents f (some parent)) lru := by
  obtain same | absent := same
  · rwa [Function.update_eq_self_iff.mpr same.symm]
  · apply coherent.reparent
    intro up member
    rw [coherent.rows f up member] at absent
    cases absent

theorem drive_coherent {s : Drive.State} {action : Drive.Action} (coherent : Coherent s.parents s.tree.parentCacheLru)
    (tidy : DriveTidy s action) :
    Returns (fun next => Coherent next.parents next.tree.parentCacheLru) (Drive.perform fuel s action) := by
  cases action with
  | create f parent => exact coherent.create tidy
  | modify f parent =>
    rw [Drive.perform]
    cases row : s.parents f with
    | none => exact coherent.create (.inr row)
    | some oldParent =>
      simp only [Drive.fldrMoved]
      split
      next same => exact coherent.create (.inl (row.trans (congrArg some same)))
      next =>
        obtain ⟨kept, absent⟩ := delFromParentCache_coherent coherent f
        simp only [Drive.State.create]
        cases s.tree.folderTasks f with
        | none => exact kept.reparent absent _
        | some ft => exact kept.reparent absent _
  | delete f =>
    apply Returns.map
    apply (fldrDeleted_coherent coherent tidy).mono
    rintro tree ⟨kept, absent⟩
    exact kept.reparent absent _
  | changed f tasks =>
    apply Returns.map
    rw [Drive.driveFldrChanged]
    split
    · exact taskAdded_coherent s.tree coherent
    · split
      · exact coherent
      · split
        · exact coherent
        · split
          · trivial
          · exact Returns.map (climb_coherent (s.tree.put f none) coherent countDown_coherent)
  | callback =>
    rw [Drive.perform]
    split
    · exact coherent
    · exact Returns.map (folderMoved_coherent coherent)

/-- The cache of one sync changes. -/
theorem Caches.change {s : State} (sync : ℕ) (tree : TaskTree) (caches : Caches s) (coherent : Coherent s.parents tree.parentCacheLru) (tasks : ℕ → ℕ → Bool)
    (commitcbs : List SyncFolderMoved) :
    Caches { s with syncData := Function.update s.syncData sync (some tree), tasks := tasks, commitcbs := commitcbs } := by
  refine ⟨caches.drive, fun k => ?_⟩
  by_cases own : k = sync
  · subst own
    simpa [getSyncData] using coherent
  · simpa [getSyncData, own] using caches.sync k

theorem Caches.reparent {s : State} (caches : Caches s)
    (absent : ∀ sync parent, some (f, parent) ∉ (getSyncData s.syncData sync).parentCacheLru) (new : Option ℕ) :
    Caches { s with parents := Function.update s.parents f new } :=
  ⟨caches.drive, fun sync => (caches.sync sync).reparent (absent sync) new⟩

theorem init_absent (cacheSize : ℕ) (parent : ℕ) : some (f, parent) ∉ (TaskTree.init cacheSize).parentCacheLru := by
  intro member
  cases List.eq_of_mem_replicate member

/-- A folder that is in no cache but that of one sync, where it is taken out. -/
theorem Apart.absent {s : State} {sync : ℕ} (apart : Apart s sync f) (gone : ∀ parent, some (f, parent) ∉ tree.parentCacheLru) :
    ∀ k parent, some (f, parent) ∉ (getSyncData (Function.update s.syncData sync (some tree)) k).parentCacheLru := by
  intro k parent
  by_cases own : k = sync
  · subst own
    simpa [getSyncData] using gone parent
  · simpa [getSyncData, own] using apart k own parent

theorem Apart.absent_none {s : State} {sync : ℕ} (apart : Apart s sync f) (none : s.syncData sync = none) :
    ∀ k parent, some (f, parent) ∉ (getSyncData s.syncData k).parentCacheLru := by
  intro k parent
  by_cases own : k = sync
  · subst own
    rw [getSyncData, none]
    exact init_absent _ parent
  · exact apart k own parent

theorem moved_coherent {s : State} {oldSync newSync newParent : ℕ} (caches : Caches s) (tidy : Tidy s (.moved f oldSync newSync newParent)) :
    Returns Caches (perform fuel s (.moved f oldSync newSync newParent)) := by
  rw [perform]
  cases row : s.parents f with
  | none => exact caches
  | some oldParent =>
    -- the row stays or the folder is in no cache
    have reparent : ∀ next : State, Caches next → next.parents = s.parents →
        (oldParent ≠ newParent → ∀ k parent, some (f, parent) ∉ (getSyncData next.syncData k).parentCacheLru) →
        Caches { next with parents := Function.update s.parents f (some newParent) } := by
      intro next kept same absent
      rw [← same]
      by_cases stays : oldParent = newParent
      · rw [Function.update_eq_self_iff.mpr (by rw [same, row, stays])]
        exact kept
      · exact kept.reparent (absent stays) _
    have apart : oldParent ≠ newParent → Apart s oldSync f := fun differs => tidy (by simpa [row] using differs)
    simp only [syncfldrMoved]
    split
    next same => exact reparent s caches rfl fun differs => absurd same.1 differs
    next =>
      cases data : s.syncData oldSync with
      | none => exact reparent s caches rfl fun differs => (apart differs).absent_none data
      | some tree =>
        have coherent := caches.sync oldSync
        simp only [getSyncData, data, Option.getD_some] at coherent
        obtain ⟨kept, gone⟩ := delFromParentCache_coherent coherent f
        simp only
        cases s.drive.tree.folderTasks f with
        | none =>
          have changed := caches.change oldSync { tree with parentCacheLru := delFromParentCache tree.parentCacheLru f }
            kept s.tasks s.commitcbs
          exact reparent _ changed rfl fun differs => (apart differs).absent gone
        | some ft =>
          have changed := caches.change oldSync { tree with parentCacheLru := delFromParentCache tree.parentCacheLru f }
            kept s.tasks (s.commitcbs ++ [⟨⟨f, oldParent, newParent⟩, oldSync, newSync⟩])
          exact reparent _ changed rfl fun differs => (apart differs).absent gone

theorem deleted_coherent {s : State} {deleter : Deleter} {sync : ℕ} (caches : Caches s) (tidy : Tidy s (.deleted deleter sync f)) :
    Returns Caches (perform fuel s (.deleted deleter sync f)) := by
  -- whether the row goes before or after the report
  have reported : ∀ parents, (getSyncData s.syncData sync).folderTasks f = none → Apart s sync f →
      Returns (fun data => Caches ({ s with syncData := data, parents := Function.update s.parents f none }.report sync f false))
        (syncfldrDeleted parents fuel s.syncData sync f) := by
    intro parents idle apart
    rw [syncfldrDeleted]
    cases data : s.syncData sync with
    | none =>
      have gone := caches.reparent (apart.absent_none data) none
      exact ⟨gone.drive, gone.sync⟩
    | some tree =>
      have coherent := caches.sync sync
      simp only [getSyncData, data, Option.getD_some] at coherent idle
      obtain ⟨kept, gone⟩ := delFromParentCache_coherent coherent f
      apply Returns.map
      rw [fldrDeleted, idle]
      have changed := caches.change sync { tree with parentCacheLru := delFromParentCache tree.parentCacheLru f }
        kept s.tasks s.commitcbs
      have removed := changed.reparent (apart.absent gone) none
      exact ⟨removed.drive, removed.sync⟩
  cases deleter with
  | taskDelFolderRecDo => exact Returns.map (reported s.parents tidy.1 tidy.2)
  | deleteLocalFolderFromDb => exact Returns.map (reported _ tidy.1 tidy.2)
  | deleteLocalFolderRec =>
    have gone := caches.reparent tidy none
    exact ⟨gone.drive, gone.sync⟩

theorem completed_coherent {s : State} {sync : ℕ} {left : Bool} (caches : Caches s) :
    Returns Caches (perform fuel s (.completed sync f left)) := by
  apply Returns.map
  have report : ∀ next : State, Caches next → Caches (next.report sync f (s.tasks sync f && left)) :=
    fun next kept => ⟨kept.drive, kept.sync⟩
  rw [syncfldrTaskCompleted]
  split
  · exact report s caches
  · split
    · exact report s caches
    next tree data =>
      have coherent := caches.sync sync
      simp only [getSyncData, data, Option.getD_some] at coherent
      split
      · exact report s caches
      · split
        · exact report _ (caches.change sync (tree.put f _) coherent s.tasks s.commitcbs)
        · apply Returns.map
          apply (climb_coherent (tree.put f none) coherent countDown_coherent).mono
          intro result kept
          exact report _ (caches.change sync result.1 kept s.tasks s.commitcbs)

theorem callback_coherent {s : State} (caches : Caches s) : Returns Caches (perform fuel s .callback) := by
  rw [perform]
  split
  · exact caches
  next moved rest pending =>
    apply Returns.map
    rw [syncFolderMoved]
    apply (countUp_coherent _ moved.newParent (caches.sync moved.newSync)).bind
    intro up coherent
    have between := caches.change moved.newSync up.1 coherent s.tasks rest
    simp only
    split
    · trivial
    next tree data =>
      apply Returns.map
      have read := between.sync moved.oldSync
      simp only [getSyncData, data, Option.getD_some] at read
      apply (countDown_coherent tree moved.oldParent read).mono
      intro down kept
      exact between.change moved.oldSync down.1 kept s.tasks rest

/-- Each step that takes out the entry of the row that it changes keeps the caches right. -/
theorem perform_coherent {s : State} {action : Action} (caches : Caches s) (tidy : Tidy s action) :
    Returns Caches (perform fuel s action) := by
  cases action with
  | drive action =>
    apply Returns.map
    apply (drive_coherent caches.drive tidy).mono
    intro drive coherent
    exact ⟨coherent, caches.sync⟩
  | create f parent => exact ⟨caches.drive, fun sync => (caches.sync sync).create tidy⟩
  | added sync f =>
    apply Returns.map
    apply (taskAdded_coherent _ (caches.sync sync)).mono
    intro tree coherent
    exact caches.change sync tree coherent _ s.commitcbs
  | completed sync f left => exact completed_coherent caches
  | moved f oldSync newSync newParent => exact moved_coherent caches tidy
  | deleted deleter sync f => exact deleted_coherent caches tidy
  | syncDeleted sync =>
    refine ⟨caches.drive, fun k => ?_⟩
    by_cases own : k = sync
    · subst own
      simpa [getSyncData] using Coherent.init _
    · simpa [getSyncData, own] using caches.sync k
  | callback => exact callback_coherent caches

theorem run_caches {s : State} (run : TidyRun s) : Caches s := by
  induction run with
  | init driveParents parents => exact ⟨Coherent.init _, fun _ => Coherent.init _⟩
  | @step s next action fuel _ tidy performed caches =>
    have returns : Returns Caches (perform fuel s action) := perform_coherent caches tidy
    rw [performed] at returns
    exact returns

/-- In every run whose steps take out the entries of the rows that they change, the caches
agree with the rows, and no cache has a folder without a row. -/
theorem run_coherent {s : State} (run : TidyRun s) :
    (∀ f parent, some (f, parent) ∈ s.drive.tree.parentCacheLru → s.drive.parents f = some parent) ∧
      ∀ sync tree, s.syncData sync = some tree → ∀ f parent, some (f, parent) ∈ tree.parentCacheLru → s.parents f = some parent := by
  have caches := run_caches run
  refine ⟨caches.drive.rows, fun sync tree data => ?_⟩
  have coherent := caches.sync sync
  simp only [getSyncData, data, Option.getD_some] at coherent
  exact coherent.rows

/-- Folder 1 in the root. -/
def single : ℕ → Option ℕ
  | 1 => some 0
  | _ => none

theorem run_coherent_deleted : ∃ s, performAll 10 (State.init single single)
      [.drive (.changed 1 true), .drive (.changed 1 false), .drive (.delete 1)] = .next s ∧
    ∀ parent, some (1, parent) ∉ s.drive.tree.parentCacheLru := by
  have first := TidyRun.step (.init single single) (show Tidy _ (.drive (.changed 1 true)) from trivial) (show perform 10 _ _ = .next _ from rfl)
  have second := first.step (show Tidy _ (.drive (.changed 1 false)) from trivial) (show perform 10 _ _ = .next _ from rfl)
  have third := second.step (show Tidy _ (.drive (.delete 1)) from rfl) (show perform 10 _ _ = .next _ from rfl)
  refine ⟨_, rfl, fun parent member => ?_⟩
  have row := (run_coherent third).1 1 parent member
  cases row

/-- A folder with tasks that is deleted is looked up when its parent is counted down, and
stays in the cache. -/
theorem deleted_cached : (Drive.performAll 10 (Drive.State.init single) [.changed 1 true, .delete 1]).map (fun s =>
    (s.parents 1, s.tree.parentCacheLru.getLast?)) = .next (none, some (some (1, 0))) := rfl

end Pclsync.Proofs.ParentCache
