import Pclsync.Proofs.ParentCache
import Pclsync.Proofs.TaskMoves
import Pclsync.Sync.Removal

/-! What a removal leaves. Where each folder is of the sync that is named, the removal by a task goes over the
subtree in post-order, and `View` says what is done once some folders are visited. -/

namespace Pclsync.Proofs.Removal
open Pclsync.Library.Marks Pclsync.Paths Pclsync.Sync Pclsync.Sync.Removal
open Pclsync.Paths.Sync (getSyncData syncfldrDeleted)
open Pclsync.Proofs.TaskTree (Below Forest Fresh Clear Caches Safe above)
open Pclsync.Proofs.TaskMoves (Right Pending)
open Pclsync.Proofs.ParentCache (Returns)

variable {s t : State} {f root syncid fuel : ℕ}

/-- A folder is in the subtree of another one. -/
def Under (s : State) (root f : ℕ) : Prop := Below s.parents f root

/-- What the database keeps, what the counts are for, and caches that agree with the rows. -/
structure Settled (s : State) : Prop where
  ids : (s.localfolder.map LocalFolder.id).Nodup
  positive : ∀ row ∈ s.localfolder, row.id ≠ 0
  parent : ∀ row ∈ s.localfolder, row.localparentfolderid = 0 ∨ ∃ parent ∈ s.localfolder, parent.id = row.localparentfolderid
  sync : ∀ row ∈ s.localfolder, row.syncid ∈ s.syncfolder
  fileIds : (s.localfile.map LocalFile.id).Nodup
  fileParent : ∀ file ∈ s.localfile, file.localparentfolderid = 0 ∨ ∃ parent ∈ s.localfolder, parent.id = file.localparentfolderid
  forest : ∃ rank, Forest s.parents rank
  counts : ∀ sync, Right s.parents [] (owned (getSyncData s.syncData sync).folderTasks) (getSyncData s.syncData sync)
  own : ∀ row ∈ s.localfolder, ∀ sync, sync ≠ row.syncid → (getSyncData s.syncData sync).folderTasks row.id = none
  fresh : ∀ sync f, Fresh s.parents (getSyncData s.syncData sync).parentCacheLru f
  reports : s.reports = []

/-- Of the subtree there is no row and no upload left, each of its folders was reported while its parent could be found,
and the counts are right for the tasks elsewhere. Nothing else has changed. -/
structure Clean (before : State) (root : ℕ) (after : State) : Prop where
  syncfolder : after.syncfolder = before.syncfolder
  localfolder : ∀ row, row ∈ after.localfolder ↔ row ∈ before.localfolder ∧ ¬Under before root row.id
  localfile : ∀ file, file ∈ after.localfile ↔ file ∈ before.localfile ∧ ¬Under before root file.localparentfolderid
  syncedfolder : ∀ row, row ∈ after.syncedfolder ↔ row ∈ before.syncedfolder ∧ ¬Under before root row.localfolderid
  task : ∀ task, task ∈ after.task ↔ task ∈ before.task ∧
    ¬(task.type = uploadFile ∧ ∃ file ∈ before.localfile, Under before root file.localparentfolderid ∧ file.id = task.localitemid)
  reported : ∀ row ∈ before.localfolder, Under before root row.id → ⟨row.syncid, row.id, true⟩ ∈ after.reports
  counts : ∀ sync, ∃ tasks, (∀ f, tasks f = true ↔ owned (getSyncData before.syncData sync).folderTasks f = true ∧ ¬Under before root f) ∧
    Right after.parents [] tasks (getSyncData after.syncData sync)

section Rows

theorem parents_eq_some (ids : (s.localfolder.map LocalFolder.id).Nodup) {parent : ℕ} :
    s.parents f = some parent ↔ ∃ row ∈ s.localfolder, row.id = f ∧ row.localparentfolderid = parent := by
  unfold State.parents
  rw [Option.map_eq_some_iff]
  constructor
  · rintro ⟨row, found, same⟩
    exact ⟨row, List.mem_of_find?_eq_some found, by simpa using List.find?_some found, same⟩
  · rintro ⟨row, member, rfl, same⟩
    refine ⟨row, ?_, same⟩
    rw [List.find?_eq_some_iff_append]
    obtain ⟨before, after, whole⟩ := List.append_of_mem member
    refine ⟨decide_eq_true rfl, before, after, whole, fun other earlier => ?_⟩
    rw [whole, List.map_append, List.map_cons, List.nodup_append] at ids
    have apart := ids.2.2 other.id (List.mem_map_of_mem earlier) row.id List.mem_cons_self
    simpa using apart

theorem cascade_self {rows : List LocalFolder} (steps : ℕ)
    (parent : ∀ row ∈ rows, row.localparentfolderid = 0 ∨ ∃ parent ∈ rows, parent.id = row.localparentfolderid) :
    State.cascade steps rows = rows := by
  induction steps with
  | zero => rfl
  | succ steps ih =>
    rw [State.cascade, List.filter_eq_self.mpr fun row member => decide_eq_true (parent row member)]
    exact ih

theorem foldl_delTasks (ids : List ℕ) (s : State) :
    ids.foldl State.delTasks s =
      { s with task := s.task.filter fun task => ¬(task.type = uploadFile ∧ task.localitemid ∈ ids) } := by
  induction ids generalizing s with
  | nil => simp
  | cons id rest ih =>
    rw [List.foldl_cons, ih, State.delTasks]
    simp only [List.filter_filter]
    congr 1
    apply List.filter_congr
    intro task _
    simp only [List.mem_cons, ← Bool.decide_and, decide_eq_decide]
    tauto

theorem delTasksOf_eq (s : State) (which : LocalFile → Bool) :
    s.delTasksOf which =
      { s with task := s.task.filter fun task =>
        ¬(task.type = uploadFile ∧ task.localitemid ∈ (s.localfile.filter which).map LocalFile.id) } := foldl_delTasks _ s

end Rows

section Reports

variable {parents : ℕ → Option ℕ} {tree : TaskTree}

/-- A report makes no mark, and caches only rows. -/
def Shrinks (parents : ℕ → Option ℕ) (tree after : TaskTree) : Prop :=
  (∀ k, tree.folderTasks k = none → after.folderTasks k = none) ∧ Caches parents tree.parentCacheLru after.parentCacheLru

theorem shrinks_put {after : TaskTree} {mark : Option Mark} (changes : tree.folderTasks f = none → mark = none)
    (shrinks : Shrinks parents (tree.put f mark) after) : Shrinks parents tree after := by
  refine ⟨fun k absent => shrinks.1 k ?_, shrinks.2⟩
  by_cases own : k = f
  · subst own
    exact (Function.update_self ..).trans (changes absent)
  · exact (Function.update_of_ne own ..).trans absent

theorem climb_shrinks (tree : TaskTree) {loop : TaskTree → ℕ → Outcome (TaskTree × Option ℕ)}
    (next : ∀ tree parent, Returns (fun result => Shrinks parents tree result.1) (loop tree parent)) :
    Returns (fun result => Shrinks parents tree result.1) (climb parents tree f loop) := by
  have caches := TaskTree.getParentFolder_caches parents tree.parentCacheLru f
  rw [climb]
  split
  next lru read =>
    rw [read] at caches
    exact ⟨fun k absent => absent, caches⟩
  next parent lru read =>
    rw [read] at caches
    refine (next { tree with parentCacheLru := lru } parent).mono fun result shrinks => ?_
    exact ⟨shrinks.1, caches.trans shrinks.2⟩

theorem countDown_shrinks {positive : Bool} (tree : TaskTree) (f : ℕ) :
    Returns (fun result => Shrinks parents tree result.1) (countDown parents positive fuel tree f) := by
  induction fuel generalizing tree f with
  | zero => trivial
  | succ fuel ih =>
    rw [countDown]
    cases found : tree.folderTasks f with
    | none => trivial
    | some ft =>
      have marked : ∀ mark, tree.folderTasks f = none → mark = (none : Option Mark) := fun mark absent => by
        rw [found] at absent
        cases absent
      simp only
      split
      · trivial
      · split
        · exact shrinks_put (marked _) ⟨fun k absent => absent, fun k parent member => .inl member⟩
        · exact (climb_shrinks (tree.put f none) ih).mono fun result => shrinks_put fun _ => rfl

theorem fldrDeleted_shrinks (tree : TaskTree) (f : ℕ) : Returns (Shrinks parents tree) (fldrDeleted parents fuel tree f) := by
  have deleted : ∀ lru k, Caches parents lru (delFromParentCache lru k) := fun lru k g parent member =>
    .inl (TaskTree.mem_delFromParentCache member)
  rw [fldrDeleted]
  split
  · exact ⟨fun k absent => absent, deleted _ _⟩
  · apply Returns.map
    refine (climb_shrinks (tree.put f none) countDown_shrinks).mono fun result shrinks => ?_
    have kept := shrinks_put (fun _ => rfl) shrinks
    split
    · exact kept
    · exact ⟨kept.1, kept.2.trans (deleted _ _)⟩

end Reports

/-- What is done so far: the folders whose files went, whose own row went, whose row of `syncedfolder` went, and that
were reported. -/
structure Progress where
  cleared : Set ℕ
  gone : Set ℕ
  unlinked : Set ℕ
  reported : Set ℕ

/-- The state in the middle of a removal. -/
structure View (s : State) (syncid : ℕ) (done : Progress) (t : State) : Prop where
  syncfolder : t.syncfolder = s.syncfolder
  ids : (t.localfolder.map LocalFolder.id).Nodup
  localfolder : ∀ row, row ∈ t.localfolder ↔ row ∈ s.localfolder ∧ row.id ∉ done.gone
  closed : ∀ row ∈ s.localfolder, row.localparentfolderid ∈ done.gone → row.id ∈ done.gone
  positive : 0 ∉ done.gone
  localfile : ∀ file, file ∈ t.localfile ↔ file ∈ s.localfile ∧ file.localparentfolderid ∉ done.gone ∧
    ¬(file.localparentfolderid ∈ done.cleared ∧ file.syncid = syncid)
  syncedfolder : ∀ row, row ∈ t.syncedfolder ↔ row ∈ s.syncedfolder ∧ row.localfolderid ∉ done.unlinked
  task : ∀ task, task ∈ t.task ↔ task ∈ s.task ∧ ¬(task.type = uploadFile ∧
    ∃ file ∈ s.localfile, file.localparentfolderid ∈ done.cleared ∧ file.syncid = syncid ∧ file.id = task.localitemid)
  reports : ∀ f ∈ done.reported, ⟨syncid, f, true⟩ ∈ t.reports
  counts : ∀ sync, ∃ tasks, (∀ f, tasks f = true ↔ owned (getSyncData s.syncData sync).folderTasks f = true ∧ f ∉ done.reported) ∧
    Right t.parents [] tasks (getSyncData t.syncData sync)
  unmarked : ∀ f ∈ done.reported, ∀ sync, (getSyncData t.syncData sync).folderTasks f = none
  others : ∀ sync, sync ≠ syncid → getSyncData t.syncData sync = getSyncData s.syncData sync
  fresh : ∀ f, f ∉ done.gone → Fresh t.parents (getSyncData t.syncData syncid).parentCacheLru f

section Steps

variable {done : Progress} {id : ℕ}

theorem view_start (settled : Settled s) : View s syncid ⟨∅, ∅, ∅, ∅⟩ s where
  syncfolder := rfl
  ids := settled.ids
  localfolder row := by simp
  closed row _ inside := inside.elim
  positive inside := inside.elim
  localfile file := by simp
  syncedfolder row := by simp
  task task := by simp
  reports f inside := inside.elim
  counts sync := ⟨_, fun f => by simp, settled.counts sync⟩
  unmarked f inside := inside.elim
  others sync _ := rfl
  fresh f _ := settled.fresh syncid f

/-- The files of a folder go, and their uploads. -/
theorem clear_view (view : View s syncid done t) (here : id ∉ done.gone) :
    View s syncid { done with cleared := insert id done.cleared }
      ((t.delTasksOf fun file => file.localparentfolderid = id ∧ file.syncid = syncid).deleteFiles fun file =>
        file.localparentfolderid = id ∧ file.syncid = syncid) := by
  rw [delTasksOf_eq]
  refine { view with localfile := fun file => ?_, task := fun task => ?_ }
  · rw [State.deleteFiles, List.mem_filter, view.localfile]
    simp only [Set.mem_insert_iff, Bool.not_eq_true', decide_eq_false_iff_not]
    tauto
  · simp only [State.deleteFiles, List.mem_filter, view.task, List.mem_map, view.localfile, decide_eq_true_eq, Set.mem_insert_iff]
    constructor
    · rintro ⟨⟨old, kept⟩, now⟩
      refine ⟨old, fun ⟨upload, file, member, within, same, named⟩ => ?_⟩
      by_cases before : file.localparentfolderid ∈ done.cleared
      · exact kept ⟨upload, file, member, before, same, named⟩
      · have own := within.resolve_right before
        exact now ⟨upload, file, ⟨⟨member, own ▸ here, fun ⟨inside, _⟩ => before inside⟩, own, same⟩, named⟩
    · rintro ⟨old, kept⟩
      refine ⟨⟨old, fun ⟨upload, file, member, within, rest⟩ => kept ⟨upload, file, member, .inr within, rest⟩⟩, ?_⟩
      rintro ⟨upload, file, ⟨⟨member, -, -⟩, own, same⟩, named⟩
      exact kept ⟨upload, file, member, .inl own, same, named⟩

/-- Rows with the same id are one. -/
theorem row_unique (settled : Settled s) {row other : LocalFolder} (member : row ∈ s.localfolder) (also : other ∈ s.localfolder)
    (same : row.id = other.id) : row = other := List.inj_on_of_nodup_map settled.ids member also same

/-- The ids of the rows that a statement is for. -/
def named (s : State) (which : LocalFolder → Bool) : Set ℕ := {f | ∃ row ∈ s.localfolder, which row = true ∧ row.id = f}

/-- Rows of reported folders go, below which no row is left. -/
theorem deleteFolders_view (settled : Settled s) (view : View s syncid done t) (which : LocalFolder → Bool)
    (reported : named s which ⊆ done.reported)
    (below : ∀ row ∈ s.localfolder, row.localparentfolderid ∈ named s which → row.id ∈ done.gone) :
    View s syncid { done with gone := done.gone ∪ named s which } (t.deleteFolders which).1 := by
  have kept : ∀ row, row ∈ t.localfolder.filter (fun row => !which row) ↔ row ∈ s.localfolder ∧ row.id ∉ done.gone ∪ named s which := by
    intro row
    rw [List.mem_filter, view.localfolder, Set.mem_union, not_or, Bool.not_eq_true']
    constructor
    · rintro ⟨⟨member, stays⟩, notWhich⟩
      refine ⟨member, stays, ?_⟩
      rintro ⟨other, also, chosen, same⟩
      rw [row_unique settled also member same, notWhich] at chosen
      cases chosen
    · rintro ⟨member, stays, notNamed⟩
      exact ⟨⟨member, stays⟩, Bool.eq_false_of_not_eq_true fun chosen => notNamed ⟨row, member, chosen, rfl⟩⟩
  have closed : ∀ row ∈ s.localfolder, row.localparentfolderid ∈ done.gone ∪ named s which → row.id ∈ done.gone ∪ named s which := by
    rintro row member (before | now)
    · exact .inl (view.closed row member before)
    · exact .inl (below row member now)
  have whole : State.cascade t.localfolder.length (t.localfolder.filter fun row => !which row) = t.localfolder.filter fun row => !which row := by
    apply cascade_self
    intro row member
    obtain ⟨old, stays⟩ := (kept row).mp member
    obtain root | ⟨parent, inside, same⟩ := settled.parent row old
    · exact .inl root
    · refine .inr ⟨parent, (kept parent).mpr ⟨inside, fun gone => stays ?_⟩, same⟩
      exact closed row old (same ▸ gone)
  have rows : (t.deleteFolders which).1.localfolder = t.localfolder.filter fun row => !which row := whole
  have ids : ((t.deleteFolders which).1.localfolder.map LocalFolder.id).Nodup := by
    rw [rows]
    exact view.ids.sublist (List.filter_sublist.map _)
  have parents : ∀ f, f ∉ named s which → (t.deleteFolders which).1.parents f = t.parents f := by
    intro f free
    apply Option.ext
    intro parent
    rw [parents_eq_some ids, parents_eq_some view.ids, rows]
    constructor
    · rintro ⟨row, member, named⟩
      exact ⟨row, List.mem_of_mem_filter member, named⟩
    · rintro ⟨row, member, rfl, same⟩
      refine ⟨row, List.mem_filter.mpr ⟨member, ?_⟩, rfl, same⟩
      rw [Bool.not_eq_true']
      exact Bool.eq_false_of_not_eq_true fun chosen => free ⟨row, ((view.localfolder row).mp member).1, chosen, rfl⟩
  have positive : 0 ∉ done.gone ∪ named s which := by
    rintro (before | ⟨row, member, -, zero⟩)
    · exact view.positive before
    · exact settled.positive row member zero
  refine ⟨view.syncfolder, ids, fun row => ?_, closed, positive, fun file => ?_, view.syncedfolder, view.task, view.reports, fun sync => ?_,
    view.unmarked, view.others, fun f stays => ?_⟩
  · rw [rows]
    exact kept row
  · change file ∈ t.localfile.filter (fun file => decide (file.localparentfolderid = 0 ∨ ∃ parent ∈ State.cascade _ _, _)) ↔ _
    rw [whole, List.mem_filter, view.localfile, decide_eq_true_iff]
    constructor
    · rintro ⟨⟨member, -, stays⟩, root | ⟨parent, inside, same⟩⟩
      · exact ⟨member, root ▸ positive, stays⟩
      · exact ⟨member, same ▸ ((kept parent).mp inside).2, stays⟩
    · rintro ⟨member, free, stays⟩
      refine ⟨⟨member, fun before => free (.inl before), stays⟩, ?_⟩
      obtain root | ⟨parent, inside, same⟩ := settled.fileParent file member
      · exact .inl root
      · exact .inr ⟨parent, (kept parent).mpr ⟨inside, same ▸ free⟩, same⟩
  · obtain ⟨tasks, known, right⟩ := view.counts sync
    refine ⟨tasks, known, ?_⟩
    refine ⟨right.tally.reparent fun k marked => ?_, right.owned, right.marked, trivial⟩
    have free : k ∉ named s which := fun chosen => marked (view.unmarked k (reported chosen) sync)
    change above _ k = above _ k
    rw [above, above, parents k free]
  · rw [Set.mem_union, not_or] at stays
    intro parent member
    rw [parents f stays.2]
    exact view.fresh f stays.1 parent member

theorem deleteWithSynced_view (settled : Settled s) (view : View s syncid done t) (which : LocalFolder → Bool)
    (reported : named s which ⊆ done.reported) (present : ∀ f ∈ named s which, f ∉ done.gone)
    (below : ∀ row ∈ s.localfolder, row.localparentfolderid ∈ named s which → row.id ∈ done.gone) :
    View s syncid { done with gone := done.gone ∪ named s which, unlinked := done.unlinked ∪ {f | f = id ∧ (named s which).Nonempty} }
      (deleteWithSynced t which id) := by
  have deleted := deleteFolders_view settled view which reported below
  have affected : (t.deleteFolders which).2 = true ↔ (named s which).Nonempty := by
    change t.localfolder.any which = true ↔ _
    rw [List.any_eq_true]
    constructor
    · rintro ⟨row, member, chosen⟩
      exact ⟨row.id, row, ((view.localfolder row).mp member).1, chosen, rfl⟩
    · rintro ⟨_, row, member, chosen, rfl⟩
      exact ⟨row, (view.localfolder row).mpr ⟨member, present row.id ⟨row, member, chosen, rfl⟩⟩, chosen⟩
  rw [deleteWithSynced]
  generalize t.deleteFolders which = result at deleted affected
  obtain ⟨after, flag⟩ := result
  cases flag with
  | true =>
    refine { deleted with syncedfolder := fun row => ?_ }
    change row ∈ after.syncedfolder.filter _ ↔ _
    rw [List.mem_filter, deleted.syncedfolder, decide_eq_true_iff, Set.mem_union, not_or, and_assoc]
    simp [affected.mp rfl]
  | false =>
    have nothing : {f | f = id ∧ (named s which).Nonempty} = ∅ := by
      ext f
      simp only [Set.mem_ofPred_eq, Set.mem_empty_iff_false, iff_false, not_and]
      exact fun _ some => Bool.false_ne_true (affected.mpr some)
    rw [nothing, Set.union_empty]
    exact deleted

theorem getSyncData_none {data : ℕ → Option TaskTree} (none : data syncid = none) (k : ℕ) :
    (getSyncData data syncid).folderTasks k = Option.none := by
  rw [getSyncData, none]
  rfl

/-- What the trees are after a report. -/
theorem reported_view (settled : Settled s) (view : View s syncid done t) {row : LocalFolder} (member : row ∈ s.localfolder)
    (own : row.syncid = syncid) (stays : row.id ∉ done.gone) {data : ℕ → Option TaskTree}
    (others : ∀ sync, sync ≠ syncid → getSyncData data sync = getSyncData t.syncData sync)
    (shrinks : Shrinks t.parents (getSyncData t.syncData syncid) (getSyncData data syncid))
    (right : ∀ tasks, Right t.parents [] tasks (getSyncData t.syncData syncid) →
      Right t.parents [] (Function.update tasks row.id false) (getSyncData data syncid))
    (unmarked : (getSyncData data syncid).folderTasks row.id = none) :
    View s syncid { done with reported := insert row.id done.reported }
      { t with syncData := data, reports := t.reports ++ [⟨syncid, row.id, (t.parents row.id).isSome⟩] } := by
  have found : t.parents row.id = some row.localparentfolderid :=
    (parents_eq_some view.ids).mpr ⟨row, (view.localfolder row).mpr ⟨member, stays⟩, rfl, rfl⟩
  have elsewhere : ∀ sync, sync ≠ syncid → (getSyncData t.syncData sync).folderTasks row.id = none := fun sync other => by
    rw [view.others sync other]
    exact settled.own row member sync (own ▸ other)
  refine { view with reports := fun f inside => ?_, counts := fun sync => ?_, unmarked := fun f inside sync => ?_, others := fun sync other => ?_, fresh := fun f free => ?_ }
  · rw [List.mem_append, List.mem_singleton, found]
    obtain rfl | before := inside
    · exact .inr rfl
    · exact .inl (view.reports f before)
  · obtain ⟨tasks, known, held⟩ := view.counts sync
    refine ⟨Function.update tasks row.id false, fun f => ?_, ?_⟩
    · by_cases same : f = row.id
      · subst same
        simp
      · rw [Function.update_of_ne same, known]
        simp [same]
    · by_cases same : sync = syncid
      · subst same
        exact right tasks held
      · have none := elsewhere sync same
        have idle : tasks row.id = false := held.tasks_of_absent none
        rw [Function.update_eq_self_iff.mpr idle.symm]
        change Right t.parents [] tasks (getSyncData data sync)
        rw [others sync same]
        exact held
  · change (getSyncData data sync).folderTasks f = none
    by_cases same : sync = syncid
    · subst same
      obtain rfl | before := inside
      · exact unmarked
      · exact shrinks.1 f (view.unmarked f before sync)
    · rw [others sync same]
      obtain rfl | before := inside
      · exact elsewhere sync same
      · exact view.unmarked f before sync
  · exact (others sync other).trans (view.others sync other)
  · intro parent cached
    obtain old | now := shrinks.2 f parent cached
    · exact view.fresh f free parent old
    · exact now

/-- A folder below which no row is left is reported while its own row is there. -/
theorem report_view (settled : Settled s) (view : View s syncid done t) {rank : ℕ → ℕ} (forest : Forest s.parents rank)
    {row : LocalFolder} (member : row ∈ s.localfolder) (own : row.syncid = syncid) (stays : row.id ∉ done.gone)
    (empty : ∀ child ∈ s.localfolder, child.localparentfolderid = row.id → child.id ∈ done.gone) (enough : rank row.id ≤ fuel) :
    ∃ after, t.report fuel syncid row.id = .next after ∧ View s syncid { done with reported := insert row.id done.reported } after := by
  have known : ∀ {f parent}, t.parents f = some parent → ∃ row ∈ s.localfolder, row.id ∉ done.gone ∧ row.id = f ∧ row.localparentfolderid = parent := by
    intro f parent found
    obtain ⟨row, there, same, up⟩ := (parents_eq_some view.ids).mp found
    obtain ⟨old, free⟩ := (view.localfolder row).mp there
    exact ⟨row, old, free, same, up⟩
  have rises : ∀ {f parent}, above t.parents f = some parent → t.parents f = some parent := by
    intro f parent found
    rw [above] at found
    split at found
    · cases found
    · exact found
  have forestNow : Forest t.parents fun f => rank f + (fuel - rank row.id) := by
    intro f parent found
    obtain ⟨row, old, -, rfl, up⟩ := known (rises found)
    have above : above s.parents row.id = some parent := by
      rw [TaskTree.above, if_neg (settled.positive row old)]
      exact (parents_eq_some settled.ids).mpr ⟨row, old, rfl, up⟩
    have less := forest row.id parent above
    dsimp only
    omega
  have clear : Clear t.parents (getSyncData t.syncData syncid).parentCacheLru row.id := by
    intro g below
    apply view.fresh
    induction below with
    | refl => exact stays
    | tail _ next free =>
      obtain ⟨row, old, -, rfl, rfl⟩ := known (rises next)
      exact fun gone => free (view.closed row old gone)
  have childless : ∀ tasks, Right t.parents [] tasks (getSyncData t.syncData syncid) → ∀ ft,
      (getSyncData t.syncData syncid).folderTasks row.id = some ft →
        ft.children = 0 ∧ TaskMoves.Removable t.parents [] (getSyncData t.syncData syncid) row.id := by
    intro tasks right ft found
    have nobody : ∀ k, ¬Pending [] k := by
      rintro k ⟨_, absurd, _⟩
      cases absurd
    refine ⟨?_, nobody _, fun _ _ k own => (nobody k own).elim⟩
    have none : kids (getSyncData t.syncData syncid).folderTasks (TaskMoves.counted t.parents []) row.id = ∅ := by
      ext k
      simp only [kids, Set.mem_ofPred_eq, Set.mem_empty_iff_false, iff_false, not_and]
      intro _ up
      obtain ⟨child, old, free, -, within⟩ := known (rises up)
      exact free (empty child old within)
    have count := right.tally.counted row.id ft found
    rw [none, Set.ncard_empty, link_none] at count
    exact count
  rw [State.report, syncfldrDeleted]
  cases data : t.syncData syncid with
  | none =>
    have absent := getSyncData_none data row.id
    refine ⟨_, rfl, reported_view settled view member own stays (fun _ _ => rfl) ⟨fun k absent => absent, fun k parent cached => .inl cached⟩
      (fun tasks right => ?_) absent⟩
    have idle : tasks row.id = false := right.tasks_of_absent absent
    rwa [Function.update_eq_self_iff.mpr idle.symm]
  | some tree =>
    have read : getSyncData t.syncData syncid = tree := by rw [getSyncData, data]; rfl
    rw [read] at clear childless
    obtain ⟨tasks, -, right⟩ := view.counts syncid
    rw [read] at right
    have ends : fldrDeleted t.parents fuel tree row.id ≠ .exhausted := by
      have ends := TaskMoves.fldrDeleted_ends forestNow clear
      rwa [Nat.add_sub_cancel' enough] at ends
    have safe : ∀ tasks, Right t.parents [] tasks tree → Safe _ (fldrDeleted t.parents fuel tree row.id) := fun tasks right =>
      TaskMoves.fldrDeleted_safe forestNow right clear (childless tasks right)
    obtain ⟨after, result, -, unmarked⟩ := (safe tasks right).returns ends
    have shrinks := @fldrDeleted_shrinks fuel t.parents tree row.id
    simp only [result] at shrinks safe ⊢
    have now : getSyncData (Function.update t.syncData syncid (some after)) syncid = after := by
      rw [getSyncData, Function.update_self]
      rfl
    refine ⟨_, rfl, reported_view settled view member own stays (fun sync other => ?_) ?_ (fun tasks right => ?_) ?_⟩
    · change (Function.update t.syncData syncid (some after) sync).getD _ = _
      rw [Function.update_of_ne other]
      rfl
    · rw [read, now]
      exact shrinks
    · rw [read] at right
      rw [now]
      exact (safe tasks right).1
    · rw [now]
      exact unmarked

end Steps

section Subtrees

variable {id : ℕ} {rank : ℕ → ℕ}

/-- The folders of a subtree that have a row. -/
def subtree (s : State) (id : ℕ) : Set ℕ := {f | Under s id f ∧ ∃ row ∈ s.localfolder, row.id = f}

theorem above_row (settled : Settled s) {row : LocalFolder} (member : row ∈ s.localfolder) :
    above s.parents row.id = some row.localparentfolderid := by
  rw [above, if_neg (settled.positive row member)]
  exact (parents_eq_some settled.ids).mpr ⟨row, member, rfl, rfl⟩

theorem row_above (settled : Settled s) {parent : ℕ} (up : above s.parents f = some parent) :
    ∃ row ∈ s.localfolder, row.id = f ∧ row.localparentfolderid = parent := by
  rw [above] at up
  split at up
  · cases up
  · exact (parents_eq_some settled.ids).mp up

theorem rank_le (forest : Forest s.parents rank) (under : Under s id f) : rank id ≤ rank f := by
  induction under with
  | refl => exact le_refl _
  | tail _ next ih => exact (forest _ _ next).le.trans ih

/-- A subtree is its root with the subtrees of the children. -/
theorem mem_subtree (settled : Settled s) {row : LocalFolder} (member : row ∈ s.localfolder) :
    f ∈ subtree s row.id ↔ f = row.id ∨ ∃ child ∈ s.localfolder, child.localparentfolderid = row.id ∧ f ∈ subtree s child.id := by
  constructor
  · rintro ⟨under, there⟩
    obtain same | ⟨child, below, next⟩ := Relation.ReflTransGen.cases_tail under
    · exact .inl same.symm
    · obtain ⟨child, inside, rfl, up⟩ := row_above settled next
      exact .inr ⟨child, inside, up, below, there⟩
  · rintro (rfl | ⟨child, inside, up, under, there⟩)
    · exact ⟨.refl, row, member, rfl⟩
    · refine ⟨under.tail ?_, there⟩
      rw [above_row settled inside, up]

theorem self_subtree {row : LocalFolder} (member : row ∈ s.localfolder) : row.id ∈ subtree s row.id := ⟨.refl, row, member, rfl⟩

/-- The subtrees of two children are apart. -/
theorem children_apart (settled : Settled s) (forest : Forest s.parents rank) {one two : LocalFolder} (first : one ∈ s.localfolder)
    (second : two ∈ s.localfolder) (same : one.localparentfolderid = two.localparentfolderid) (here : f ∈ subtree s one.id)
    (there : f ∈ subtree s two.id) : one = two := by
  have among : ∀ {one two : LocalFolder}, one ∈ s.localfolder → two ∈ s.localfolder → one.localparentfolderid = two.localparentfolderid →
      Below s.parents one.id two.id → one = two := by
    intro one two first second same below
    obtain equal | ⟨parent, next, rest⟩ := Relation.ReflTransGen.cases_head below
    · exact row_unique settled first second equal
    · rw [above_row settled first, Option.some.injEq] at next
      have up := above_row settled second
      rw [← same, next] at up
      have lower := rank_le forest rest
      have higher := forest _ _ up
      omega
  have unique : Relator.RightUnique fun f parent => above s.parents f = some parent := fun f one two up also =>
    Option.some.inj (up.symm.trans also)
  obtain below | below := Relation.ReflTransGen.total_of_right_unique unique here.1 there.1
  · exact among first second same below
  · exact (among second first same.symm below).symm

/-- A folder is not below its child. -/
theorem not_below_child (settled : Settled s) (forest : Forest s.parents rank) {child : LocalFolder} (member : child ∈ s.localfolder) :
    child.localparentfolderid ∉ subtree s child.id := by
  rintro ⟨under, -⟩
  have lower := rank_le forest under
  have higher := forest _ _ (above_row settled member)
  omega

/-- What is done once a subtree is visited. The row of its root is left. -/
def Progress.visit (s : State) (done : Progress) (id : ℕ) : Progress where
  cleared := done.cleared ∪ subtree s id
  gone := done.gone ∪ {f ∈ subtree s id | f ≠ id}
  unlinked := done.unlinked ∪ {f ∈ subtree s id | ∃ child ∈ s.localfolder, child.localparentfolderid = f}
  reported := done.reported ∪ subtree s id

/-- What is done once some subtrees are visited. -/
theorem visits_eq (done : Progress) (ids : List ℕ) :
    ids.foldl (Progress.visit s) done =
      { cleared := done.cleared ∪ {f | ∃ id ∈ ids, f ∈ subtree s id}
        gone := done.gone ∪ {f | ∃ id ∈ ids, f ∈ subtree s id ∧ f ≠ id}
        unlinked := done.unlinked ∪ {f | (∃ id ∈ ids, f ∈ subtree s id) ∧ ∃ child ∈ s.localfolder, child.localparentfolderid = f}
        reported := done.reported ∪ {f | ∃ id ∈ ids, f ∈ subtree s id} } := by
  induction ids generalizing done with
  | nil => simp
  | cons id rest ih =>
    rw [List.foldl_cons, ih]
    simp only [Progress.visit, Progress.mk.injEq]
    refine ⟨?_, ?_, ?_, ?_⟩
    all_goals
      ext f
      simp only [Set.mem_union, Set.mem_ofPred_eq, List.exists_mem_cons_iff, or_and_right, or_assoc]

end Subtrees

section Walk

variable {id : ℕ} {rank : ℕ → ℕ} {done : Progress}

/-- A subtree that a removal can go over: each folder is of the sync, and its row is there. -/
structure Ready (s : State) (syncid : ℕ) (done : Progress) (id : ℕ) : Prop where
  sync : ∀ row ∈ s.localfolder, row.id ∈ subtree s id → row.syncid = syncid
  present : ∀ f ∈ subtree s id, f ∉ done.gone

/-- A loop over children whose subtrees are apart. -/
theorem each_view (body : State → ℕ → Outcome State) (ids : List ℕ)
    (apart : ids.Pairwise fun one two => Disjoint (subtree s one) (subtree s two))
    (step : ∀ t done id, id ∈ ids → View s syncid done t → (∀ f ∈ subtree s id, f ∉ done.gone) →
      ∃ after, body t id = .next after ∧ View s syncid (done.visit s id) after)
    (view : View s syncid done t) (present : ∀ id ∈ ids, ∀ f ∈ subtree s id, f ∉ done.gone) :
    ∃ after, each body t ids = .next after ∧ View s syncid (ids.foldl (Progress.visit s) done) after := by
  induction ids generalizing t done with
  | nil => exact ⟨t, rfl, view⟩
  | cons id rest ih =>
    rw [List.pairwise_cons] at apart
    obtain ⟨middle, first, viewed⟩ := step t done id List.mem_cons_self view (present id List.mem_cons_self)
    have later : ∀ other ∈ rest, ∀ f ∈ subtree s other, f ∉ (done.visit s id).gone := by
      rintro other member f inside (before | ⟨here, -⟩)
      · exact present other (List.mem_cons_of_mem _ member) f inside before
      · exact Set.disjoint_left.mp (apart.1 other member) here inside
    obtain ⟨after, others, result⟩ := ih apart.2 (fun t done id member => step t done id (List.mem_cons_of_mem _ member)) viewed later
    refine ⟨after, ?_, result⟩
    rw [each, first]
    exact others

/-- The removal of a subtree, but for the row of its root. -/
theorem taskDelFolderRecDo_view (settled : Settled s) (forest : Forest s.parents rank) {bound : ℕ}
    (bounded : ∀ row ∈ s.localfolder, rank row.id < bound) (view : View s syncid done t) {row : LocalFolder} (member : row ∈ s.localfolder)
    (ready : Ready s syncid done row.id) (enough : 2 * bound ≤ fuel + rank row.id) :
    ∃ after, taskDelFolderRecDo syncid fuel t row.id = .next after ∧ View s syncid (done.visit s row.id) after := by
  induction fuel generalizing t done row with
  | zero =>
    have small := bounded row member
    omega
  | succ fuel ih =>
    have small := bounded row member
    have own := ready.sync row member (self_subtree member)
    have here := ready.present row.id (self_subtree member)
    have cleared := clear_view view here
    rw [taskDelFolderRecDo]
    generalize ((t.delTasksOf fun file => file.localparentfolderid = row.id ∧ file.syncid = syncid).deleteFiles fun file =>
      file.localparentfolderid = row.id ∧ file.syncid = syncid) = now at cleared
    -- the children are those of the tree
    have inner : ∀ child ∈ s.localfolder, child.localparentfolderid = row.id → ∀ f ∈ subtree s child.id, f ∈ subtree s row.id :=
      fun child inside up f below => (mem_subtree settled member).mpr (.inr ⟨child, inside, up, below⟩)
    have sync : ∀ child ∈ s.localfolder, child.localparentfolderid = row.id → child.syncid = syncid := fun child inside up =>
      ready.sync child inside (inner child inside up child.id (self_subtree inside))
    have listed : ∀ c, c ∈ (now.localfolder.filter fun child => child.localparentfolderid = row.id ∧ child.syncid = syncid).map LocalFolder.id ↔
        ∃ child ∈ s.localfolder, child.localparentfolderid = row.id ∧ child.id = c := by
      intro c
      simp only [List.mem_map, List.mem_filter, cleared.localfolder, decide_eq_true_eq]
      constructor
      · rintro ⟨child, ⟨⟨inside, -⟩, up, -⟩, same⟩
        exact ⟨child, inside, up, same⟩
      · rintro ⟨child, inside, up, same⟩
        exact ⟨child, ⟨⟨inside, ready.present _ (inner child inside up _ (self_subtree inside))⟩, up, sync child inside up⟩, same⟩
    have distinct : ((now.localfolder.filter fun child => child.localparentfolderid = row.id ∧ child.syncid = syncid).map LocalFolder.id).Nodup :=
      cleared.ids.sublist (List.filter_sublist.map _)
    generalize ((now.localfolder.filter fun child => child.localparentfolderid = row.id ∧ child.syncid = syncid).map LocalFolder.id) = children
      at listed distinct
    have disjoint : ∀ one ∈ s.localfolder, one.localparentfolderid = row.id → ∀ two ∈ s.localfolder, two.localparentfolderid = row.id →
        ∀ f, f ∈ subtree s one.id → f ∈ subtree s two.id → one = two := fun one first upOne two second upTwo f =>
      children_apart settled forest first second (upOne.trans upTwo.symm)
    have apart : children.Pairwise fun one two => Disjoint (subtree s one) (subtree s two) := by
      refine distinct.imp_of_mem fun {one two} first second differ => Set.disjoint_left.mpr fun f left right => ?_
      obtain ⟨childOne, insideOne, upOne, rfl⟩ := (listed one).mp first
      obtain ⟨childTwo, insideTwo, upTwo, rfl⟩ := (listed two).mp second
      exact differ (congrArg LocalFolder.id (disjoint childOne insideOne upOne childTwo insideTwo upTwo f left right))
    obtain ⟨middle, walked, viewed⟩ := each_view (taskDelFolderRecDo syncid fuel) children apart
      (fun t done c member viewed present => by
        obtain ⟨child, inside, up, rfl⟩ := (listed c).mp member
        refine ih viewed inside ⟨fun other there below => ready.sync other there (inner child inside up _ below), present⟩ ?_
        have deeper := forest _ _ (above_row settled inside)
        rw [up] at deeper
        omega)
      cleared (fun c member f below => by
        obtain ⟨child, inside, up, rfl⟩ := (listed c).mp member
        exact ready.present f (inner child inside up f below))
    rw [visits_eq] at viewed
    have tree : ∀ f, f ∈ subtree s row.id ↔ f = row.id ∨ ∃ c ∈ children, f ∈ subtree s c := by
      intro f
      rw [mem_subtree settled member]
      refine or_congr_right ⟨?_, ?_⟩
      · rintro ⟨child, inside, up, below⟩
        exact ⟨child.id, (listed _).mpr ⟨child, inside, up, rfl⟩, below⟩
      · rintro ⟨c, listed', below⟩
        obtain ⟨child, inside, up, rfl⟩ := (listed c).mp listed'
        exact ⟨child, inside, up, below⟩
    have strict : ∀ c ∈ children, row.id ∉ subtree s c := by
      intro c listed'
      obtain ⟨child, inside, up, rfl⟩ := (listed c).mp listed'
      rw [← up]
      exact not_below_child settled forest inside
    have self : ∀ c ∈ children, c ∈ subtree s c := by
      intro c listed'
      obtain ⟨child, inside, -, rfl⟩ := (listed c).mp listed'
      exact self_subtree inside
    have names : ∀ f, f ∈ named s (fun child => child.localparentfolderid = row.id ∧ child.syncid = syncid) ↔ f ∈ children := by
      intro f
      rw [listed]
      constructor
      · rintro ⟨child, inside, chosen, same⟩
        exact ⟨child, inside, (of_decide_eq_true chosen).1, same⟩
      · rintro ⟨child, inside, up, same⟩
        exact ⟨child, inside, decide_eq_true ⟨up, sync child inside up⟩, same⟩
    have deleted := @deleteWithSynced_view _ _ _ _ row.id settled viewed
      (fun child => child.localparentfolderid = row.id ∧ child.syncid = syncid)
      (fun f inside => .inr ⟨f, (names f).mp inside, self f ((names f).mp inside)⟩)
      (fun f inside => by
        have listed' := (names f).mp inside
        rintro (before | ⟨c, other, below, differ⟩)
        · exact ready.present f ((tree f).mpr (.inr ⟨f, listed', self f listed'⟩)) before
        · obtain ⟨childOne, insideOne, upOne, rfl⟩ := (listed f).mp listed'
          obtain ⟨childTwo, insideTwo, upTwo, rfl⟩ := (listed c).mp other
          exact differ (congrArg LocalFolder.id (disjoint childOne insideOne upOne childTwo insideTwo upTwo _ (self_subtree insideOne) below)))
      (fun other there inside => by
        have listed' := (names _).mp inside
        obtain ⟨child, within, up, same⟩ := (listed _).mp listed'
        refine .inr ⟨child.id, same ▸ listed', (mem_subtree settled within).mpr (.inr ⟨other, there, same.symm, self_subtree there⟩), ?_⟩
        intro equal
        obtain rfl := row_unique settled there within equal
        exact not_below_child settled forest there (same ▸ self_subtree there))
    obtain ⟨after, reported, result⟩ := report_view settled deleted forest member own
      (by
        rintro ((before | ⟨c, listed', below, -⟩) | inside)
        · exact here before
        · exact strict c listed' below
        · exact strict row.id ((names _).mp inside) (self_subtree member))
      (fun child inside up => .inr ((names _).mpr ((listed _).mpr ⟨child, inside, up, rfl⟩)))
      (by omega : rank row.id ≤ fuel)
    refine ⟨after, by rw [walked]; exact reported, ?_⟩
    have parents : (named s fun child => child.localparentfolderid = row.id ∧ child.syncid = syncid).Nonempty ↔
        ∃ child ∈ s.localfolder, child.localparentfolderid = row.id := by
      constructor
      · rintro ⟨f, inside⟩
        obtain ⟨child, within, up, -⟩ := (listed f).mp ((names f).mp inside)
        exact ⟨child, within, up⟩
      · rintro ⟨child, within, up⟩
        exact ⟨child.id, (names _).mpr ((listed _).mpr ⟨child, within, up, rfl⟩)⟩
    convert result using 1
    simp only [Progress.visit, Progress.mk.injEq]
    refine ⟨?_, ?_, ?_, ?_⟩
    · ext f
      simp only [Set.mem_union, Set.mem_insert_iff, Set.mem_ofPred_eq, tree]
      tauto
    · ext f
      simp only [Set.mem_union, Set.mem_ofPred_eq, tree, names]
      constructor
      · rintro (before | ⟨same | ⟨c, listed', below⟩, differ⟩)
        · exact .inl (.inl before)
        · exact (differ same).elim
        · by_cases root : f = c
          · exact .inr (root ▸ listed')
          · exact .inl (.inr ⟨c, listed', below, root⟩)
      · rintro ((before | ⟨c, listed', below, -⟩) | listed')
        · exact .inl before
        · exact .inr ⟨.inr ⟨c, listed', below⟩, fun same => strict c listed' (same ▸ below)⟩
        · exact .inr ⟨.inr ⟨f, listed', self f listed'⟩, fun same => strict f listed' (same ▸ self f listed')⟩
    · ext f
      simp only [Set.mem_union, Set.mem_ofPred_eq, tree, parents]
      constructor
      · rintro (before | ⟨rfl | below, some⟩)
        · exact .inl (.inl before)
        · exact .inr ⟨rfl, some⟩
        · exact .inl (.inr ⟨below, some⟩)
      · rintro ((before | ⟨below, some⟩) | ⟨rfl, some⟩)
        · exact .inl before
        · exact .inr ⟨.inr below, some⟩
        · exact .inr ⟨.inl rfl, some⟩
    · ext f
      simp only [Set.mem_union, Set.mem_insert_iff, Set.mem_ofPred_eq, tree]
      tauto

theorem hasPath_settled (settled : Settled s) (forest : Forest s.parents rank) (known : syncid ∈ s.syncfolder)
    (there : id = 0 ∨ ∃ row ∈ s.localfolder, row.id = id) (enough : rank id < fuel) : hasPath s syncid fuel id = .next true := by
  induction fuel generalizing id with
  | zero => omega
  | succ fuel ih =>
    rw [hasPath, if_neg (not_not.mpr known)]
    split
    · rfl
    next positive =>
      obtain ⟨row, member, rfl⟩ := there.resolve_left positive
      have up := above_row settled member
      have deeper := forest _ _ up
      rw [above, if_neg positive] at up
      rw [up]
      refine ih ((settled.parent row member).imp_right ?_) (by omega)
      rintro ⟨parent, inside, same⟩
      exact ⟨parent, inside, same⟩

/-- A file or a folder is in the subtree by its row. -/
theorem under_iff (settled : Settled s) {row : LocalFolder} (member : row ∈ s.localfolder) : Under s row.id f ↔ f ∈ subtree s row.id := by
  refine ⟨fun under => ⟨under, ?_⟩, fun inside => inside.1⟩
  obtain same | ⟨_, next, -⟩ := Relation.ReflTransGen.cases_head under
  · exact ⟨row, member, same.symm⟩
  · obtain ⟨other, there, same, -⟩ := row_above settled next
    exact ⟨other, there, same⟩

/-- What the removal by a task leaves when each folder is of its sync. -/
theorem taskDelFolderRec_view (settled : Settled s) {row : LocalFolder} (member : row ∈ s.localfolder)
    (sync : ∀ other ∈ s.localfolder, other.id ∈ subtree s row.id → other.syncid = syncid) :
    ∃ enough, ∀ fuel, enough ≤ fuel → ∃ after, taskDelFolderRec fuel s row.id syncid = .next after ∧
      View s syncid
        ⟨subtree s row.id, subtree s row.id,
          {f ∈ subtree s row.id | f = row.id ∨ ∃ child ∈ s.localfolder, child.localparentfolderid = f}, subtree s row.id⟩ after := by
  obtain ⟨rank, forest⟩ := settled.forest
  obtain ⟨bound, bounded⟩ : ∃ bound, ∀ row ∈ s.localfolder, rank row.id < bound := by
    refine ⟨(s.localfolder.map fun row => rank row.id).sum + 1, fun row member => Nat.lt_succ_of_le ?_⟩
    exact List.single_le_sum (fun _ _ => Nat.zero_le _) _ (List.mem_map.mpr ⟨row, member, rfl⟩)
  have own := sync row member (self_subtree member)
  refine ⟨2 * bound, fun fuel enough => ?_⟩
  have small := bounded row member
  obtain ⟨middle, walked, viewed⟩ := taskDelFolderRecDo_view settled forest bounded (view_start settled) member
    ⟨sync, fun _ _ gone => gone.elim⟩ (by omega : 2 * bound ≤ fuel + rank row.id)
  have path : hasPath s syncid fuel row.id = .next true :=
    hasPath_settled settled forest (own ▸ settled.sync row member) (.inr ⟨row, member, rfl⟩) (by omega)
  have names : named s (fun other => other.id = row.id ∧ other.syncid = syncid) = {row.id} := by
    ext f
    constructor
    · rintro ⟨other, -, chosen, rfl⟩
      exact (of_decide_eq_true chosen).1
    · rintro rfl
      exact ⟨row, member, decide_eq_true ⟨rfl, own⟩, rfl⟩
  have deleted := @deleteWithSynced_view _ _ _ _ row.id settled viewed (fun other => other.id = row.id ∧ other.syncid = syncid)
    (by rw [names, Set.singleton_subset_iff]; exact .inr (self_subtree member))
    (by
      rw [names]
      rintro f rfl (absurd | ⟨-, differ⟩)
      · exact absurd
      · exact differ rfl)
    (by
      rw [names]
      intro other there up
      refine .inr ⟨(mem_subtree settled member).mpr (.inr ⟨other, there, up, self_subtree there⟩), fun same => ?_⟩
      obtain rfl := row_unique settled there member same
      exact not_below_child settled forest there (up ▸ self_subtree there))
  rw [names] at deleted
  refine ⟨_, by rw [taskDelFolderRec, path]; dsimp only [Outcome.bind]; rw [if_pos rfl, walked], ?_⟩
  convert deleted using 1
  simp only [Progress.visit, Set.empty_union, Progress.mk.injEq, true_and, and_true]
  constructor
  · ext f
    simp only [Set.mem_union, Set.mem_ofPred_eq, Set.mem_singleton_iff]
    by_cases same : f = row.id
    · subst same
      simp [self_subtree member]
    · simp [same]
  · ext f
    simp only [Set.mem_union, Set.mem_ofPred_eq, Set.singleton_nonempty, and_true]
    by_cases same : f = row.id
    · subst same
      simp [self_subtree member]
    · simp [same]

end Walk

section Added

variable {good : Report → Prop}

/-- What is reported on the way. -/
def Adds (good : Report → Prop) (s t : State) : Prop := ∀ report ∈ t.reports, report ∈ s.reports ∨ good report

theorem Adds.trans {middle : State} (first : Adds good s middle) (second : Adds good middle t) : Adds good s t := by
  intro report member
  obtain before | now := second report member
  · exact first report before
  · exact .inr now

theorem each_adds {α : Type} {body : State → α → Outcome State} (step : ∀ s row, Returns (Adds good s) (body s row)) (s : State)
    (rows : List α) : Returns (Adds good s) (each body s rows) := by
  induction rows generalizing s with
  | nil => exact fun report member => .inl member
  | cons row rest ih => exact (step s row).bind fun middle first => (ih middle).mono fun after => first.trans

theorem report_adds {middle : State} (first : Adds good s middle) (same : t.reports = middle.reports)
    (new : good ⟨syncid, f, (t.parents f).isSome⟩) : Returns (Adds good s) (t.report fuel syncid f) := by
  rw [State.report]
  apply Returns.map
  cases syncfldrDeleted t.parents fuel t.syncData syncid f with
  | failed => trivial
  | exhausted => trivial
  | next data =>
    intro report member
    obtain before | now := List.mem_append.mp member
    · exact first report (same ▸ before)
    · rw [List.mem_singleton.mp now]
      exact .inr new

theorem delTasksOf_reports (s : State) (which : LocalFile → Bool) : (s.delTasksOf which).reports = s.reports := by
  rw [delTasksOf_eq]

theorem deleteWithSynced_reports (s : State) (which : LocalFolder → Bool) : (deleteWithSynced s which f).reports = s.reports := by
  rw [deleteWithSynced]
  split
  next after same => exact congrArg (fun result => result.1.reports) same.symm
  next after same => exact congrArg (fun result => result.1.reports) same.symm

theorem deleteLocalFolderRec_adds (s : State) (f : ℕ) : Returns (Adds (fun _ => False) s) (deleteLocalFolderRec fuel s f) := by
  induction fuel generalizing s f with
  | zero => trivial
  | succ fuel ih =>
    rw [deleteLocalFolderRec]
    refine (each_adds ih s _).bind fun middle first => first.trans fun report member => .inl ?_
    change report ∈ (middle.delTasksOf _).reports at member
    rwa [delTasksOf_reports] at member

theorem cascade_sublist (steps : ℕ) (rows : List LocalFolder) : (State.cascade steps rows).Sublist rows := by
  induction steps generalizing rows with
  | zero => exact .refl _
  | succ steps ih => exact (ih _).trans List.filter_sublist

theorem deleteLocalFolderFromDb_adds (s : State) (which : ℕ × ℕ) :
    Returns (Adds (fun report => report.found = true → report.folderid = 0) s) (deleteLocalFolderFromDb fuel s which) := by
  induction fuel generalizing s which with
  | zero => trivial
  | succ fuel ih =>
    obtain ⟨localfolderid, syncid⟩ := which
    rw [deleteLocalFolderFromDb]
    split
    next root => exact report_adds (fun report member => .inl member) rfl fun _ => root
    next =>
      refine (each_adds ih s _).bind fun middle first => report_adds first (delTasksOf_reports middle _) fun found => ?_
      -- the row is gone
      dsimp only at found
      rw [State.parents, Option.isSome_map, List.find?_isSome] at found
      obtain ⟨row, member, same⟩ := found
      have left := (cascade_sublist _ _).subset member
      rw [List.mem_filter, Bool.not_eq_true'] at left
      exact (Bool.false_ne_true (left.2.symm.trans same)).elim

theorem taskDelFolderRecDo_adds (s : State) (f : ℕ) :
    Returns (Adds (fun report => report.syncid = syncid) s) (taskDelFolderRecDo syncid fuel s f) := by
  induction fuel generalizing s f with
  | zero => trivial
  | succ fuel ih =>
    rw [taskDelFolderRecDo]
    refine (each_adds ih _ _).bind fun middle first => report_adds (fun report member => ?_) (deleteWithSynced_reports middle _) rfl
    obtain old | new := first report member
    · change report ∈ (s.delTasksOf _).reports at old
      rw [delTasksOf_reports] at old
      exact .inl old
    · exact .inr new

theorem taskDelFolderRec_adds (s : State) (f : ℕ) :
    Returns (Adds (fun report => report.syncid = syncid) s) (taskDelFolderRec fuel s f syncid) := by
  rw [taskDelFolderRec]
  cases hasPath s syncid fuel f with
  | failed => trivial
  | exhausted => trivial
  | next found =>
    cases found with
    | false => exact fun report member => .inl member
    | true =>
      refine (taskDelFolderRecDo_adds s f).bind fun middle first report member => first report ?_
      rwa [deleteWithSynced_reports] at member

end Added

/-- A state, the folder to remove, and the sync that the caller names. -/
structure Input where
  state : State
  root : LocalFolder
  syncid : ℕ
  settled : Settled state
  there : root ∈ state.localfolder

/-- A removal ends and leaves what it should. -/
def Meets (input : Input) (remover : Remover) : Prop :=
  ∃ enough, ∀ fuel, enough ≤ fuel → ∃ after, remove remover fuel input.state input.root.id input.syncid = .next after ∧
    Clean input.state input.root.id after

/-- Each folder of the subtree is of the sync that is named, each file of it of another sync has no upload, and each folder
of it but the root that has a row of `syncedfolder` has a child. -/
structure Kept (input : Input) : Prop where
  sync : ∀ row ∈ input.state.localfolder, Under input.state input.root.id row.id → row.syncid = input.syncid
  upload : ∀ file ∈ input.state.localfile, Under input.state input.root.id file.localparentfolderid → file.syncid ≠ input.syncid →
    ∀ task ∈ input.state.task, task.type = uploadFile → task.localitemid ≠ file.id
  synced : ∀ row ∈ input.state.syncedfolder, Under input.state input.root.id row.localfolderid → row.localfolderid = input.root.id ∨
    ∃ child ∈ input.state.localfolder, child.localparentfolderid = row.localfolderid

/-- What a removal by a task leaves is what it should, if the uploads and the rows of `syncedfolder` are. -/
theorem clean_iff (settled : Settled s) {root : LocalFolder} (there : root ∈ s.localfolder)
    (view : View s syncid
      ⟨subtree s root.id, subtree s root.id, {f ∈ subtree s root.id | f = root.id ∨ ∃ child ∈ s.localfolder, child.localparentfolderid = f},
        subtree s root.id⟩ t)
    (sync : ∀ row ∈ s.localfolder, row.id ∈ subtree s root.id → row.syncid = syncid) :
    Clean s root.id t ↔
      (∀ file ∈ s.localfile, file.localparentfolderid ∈ subtree s root.id → file.syncid ≠ syncid →
        ∀ task ∈ s.task, task.type = uploadFile → task.localitemid ≠ file.id) ∧
      ∀ row ∈ s.syncedfolder, row.localfolderid ∈ subtree s root.id → row.localfolderid = root.id ∨
        ∃ child ∈ s.localfolder, child.localparentfolderid = row.localfolderid := by
  have under : ∀ f, Under s root.id f ↔ f ∈ subtree s root.id := fun f => under_iff settled there
  constructor
  · intro clean
    constructor
    · intro file member within other task queued upload same
      have left : task ∈ t.task := (view.task task).mpr ⟨queued, fun ⟨_, also, inside, _, own, named⟩ => by
        have equal : also = file := List.inj_on_of_nodup_map settled.fileIds inside member (named.trans same)
        exact other (equal ▸ own)⟩
      exact ((clean.task task).mp left).2 ⟨upload, file, member, (under _).mpr within, same.symm⟩
    · intro row member within
      by_contra kept
      have left : row ∈ t.syncedfolder := (view.syncedfolder row).mpr ⟨member, fun inside => kept inside.2⟩
      exact ((clean.syncedfolder row).mp left).2 ((under _).mpr within)
  · rintro ⟨uploads, synced⟩
    refine ⟨view.syncfolder, fun row => ?_, fun file => ?_, fun row => ?_, fun task => ?_, fun row member within => ?_, fun sync => ?_⟩
    · rw [under]
      exact view.localfolder row
    · rw [under, view.localfile]
      exact and_congr_right fun _ => ⟨fun kept => kept.1, fun kept => ⟨kept, fun inside => kept inside.1⟩⟩
    · rw [under, view.syncedfolder]
      refine and_congr_right fun member => not_congr ⟨fun inside => inside.1, fun within => ⟨within, synced row member within⟩⟩
    · rw [view.task]
      refine and_congr_right fun queued => not_congr (and_congr_right fun upload => ?_)
      constructor
      · rintro ⟨file, member, within, -, named⟩
        exact ⟨file, member, (under _).mpr within, named⟩
      · rintro ⟨file, member, within, named⟩
        refine ⟨file, member, (under _).mp within, ?_, named⟩
        by_contra other
        exact uploads file member ((under _).mp within) other task queued upload named.symm
    · rw [sync row member ((under _).mp within)]
      exact view.reports row.id ((under _).mp within)
    · simp only [under]
      exact view.counts sync

/-- Of the removals only that by a task reports in time, and it leaves the rows of `syncedfolder` of folders without
children. -/
theorem removed_iff (input : Input) (remover : Remover) : Meets input remover ↔ remover = .taskDelFolderRec ∧ Kept input := by
  obtain ⟨s, root, syncid, settled, there⟩ := input
  have under : ∀ f, Under s root.id f ↔ f ∈ subtree s root.id := fun f => under_iff settled there
  constructor
  · rintro ⟨enough, meets⟩
    obtain ⟨after, result, clean⟩ := meets enough (le_refl enough)
    dsimp only at result clean
    cases remover with
    | deleteLocalFolderRec =>
      have adds : Returns (Adds (fun _ => False) s) (remove .deleteLocalFolderRec enough s root.id syncid) := deleteLocalFolderRec_adds s root.id
      rw [result] at adds
      have reported := adds _ (clean.reported root there .refl)
      simp [settled.reports] at reported
    | deleteLocalFolderFromDb =>
      have adds : Returns (Adds (fun report => report.found = true → report.folderid = 0) s)
          (remove .deleteLocalFolderFromDb enough s root.id syncid) := deleteLocalFolderFromDb_adds s (root.id, syncid)
      rw [result] at adds
      have reported := adds _ (clean.reported root there .refl)
      simp [settled.reports, settled.positive root there] at reported
    | taskDelFolderRec =>
      have adds : Returns (Adds (fun report => report.syncid = syncid) s) (remove .taskDelFolderRec enough s root.id syncid) :=
        taskDelFolderRec_adds s root.id
      rw [result] at adds
      have sync : ∀ row ∈ s.localfolder, row.id ∈ subtree s root.id → row.syncid = syncid := by
        intro row member within
        simpa [settled.reports] using adds _ (clean.reported row member ((under _).mpr within))
      obtain ⟨more, views⟩ := taskDelFolderRec_view settled there sync
      obtain ⟨final, ends, view⟩ := views (max enough more) (le_max_right _ _)
      obtain ⟨same, ended, clean⟩ := meets (max enough more) (le_max_left _ _)
      obtain rfl : final = same := Outcome.next.inj (ends.symm.trans ended)
      obtain ⟨uploads, synced⟩ := (clean_iff settled there view sync).mp clean
      refine ⟨rfl, fun row member within => sync row member ((under _).mp within), fun file member within => uploads file member ((under _).mp within),
        fun row member within => synced row member ((under _).mp within)⟩
  · rintro ⟨rfl, kept⟩
    have sync : ∀ row ∈ s.localfolder, row.id ∈ subtree s root.id → row.syncid = syncid := fun row member within =>
      kept.sync row member ((under _).mpr within)
    obtain ⟨enough, views⟩ := taskDelFolderRec_view settled there sync
    refine ⟨enough, fun fuel more => ?_⟩
    obtain ⟨after, ends, view⟩ := views fuel more
    refine ⟨after, ends, (clean_iff settled there view sync).mpr ⟨fun file member within => ?_, fun row member within => ?_⟩⟩
    · exact kept.upload file member ((under _).mpr within)
    · exact kept.synced row member ((under _).mpr within)

/-- One folder in the root of a sync. -/
def oneFolder : State where
  syncfolder := [1]
  localfolder := [⟨1, 0, 1, []⟩]
  localfile := []
  syncedfolder := []
  task := []
  syncData := fun _ => none
  reports := []

theorem oneFolder_parents : oneFolder.parents = Function.update (fun _ => none) 1 (some 0) := by
  funext f
  by_cases own : f = 1
  · subst own
    rfl
  · rw [Function.update_of_ne own, State.parents, oneFolder, List.find?_cons_of_neg (by simpa using Ne.symm own)]
    rfl

theorem oneFolder_settled : Settled oneFolder where
  ids := by decide
  positive := by decide
  parent := by decide
  sync := by decide
  fileIds := by decide
  fileParent := by decide
  forest := by
    refine ⟨id, fun f parent up => ?_⟩
    rw [oneFolder_parents, above] at up
    split at up
    · cases up
    · by_cases own : f = 1
      · subst own
        cases up
        exact Nat.zero_lt_one
      · rw [Function.update_of_ne own] at up
        cases up
  counts _ := Right.init _
  own row _ sync _ := rfl
  fresh sync f parent member := by
    cases List.eq_of_mem_replicate member
  reports := rfl

/-- The local scanner removes it and the path status hears nothing. -/
theorem not_removed : ¬∀ input remover, Meets input remover := fun all => by
  obtain ⟨enough, meets⟩ := all ⟨oneFolder, ⟨1, 0, 1, []⟩, 1, oneFolder_settled, List.mem_cons_self⟩ .deleteLocalFolderRec
  obtain ⟨after, result, clean⟩ := meets enough (le_refl enough)
  have adds : Returns (Adds (fun _ => False) oneFolder) (remove .deleteLocalFolderRec enough oneFolder 1 1) :=
    deleteLocalFolderRec_adds oneFolder 1
  dsimp only at result clean
  rw [result] at adds
  have reported := adds _ (clean.reported ⟨1, 0, 1, []⟩ List.mem_cons_self .refl)
  simp [oneFolder] at reported

end Pclsync.Proofs.Removal
