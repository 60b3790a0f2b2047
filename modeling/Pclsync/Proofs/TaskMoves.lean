import Pclsync.Proofs.TaskTree

/-! Trees whose counts are right for the parents that the folders have once the moves
that are not counted yet are undone. Each function on a tree keeps that. -/

namespace Pclsync.Proofs.TaskMoves
open Pclsync.Library.Marks Pclsync.Paths Pclsync.Proofs.TaskTree

variable {parents : ℕ → Option ℕ} {pending : List FolderMoved} {tasks : ℕ → Bool} {tree : TaskTree} {f g : ℕ}

/-- The parent that a folder is counted at: the old one of its first move that is not
counted yet. -/
def counted (parents : ℕ → Option ℕ) : List FolderMoved → ℕ → Option ℕ
  | [] => above parents
  | moved :: rest => Function.update (counted parents rest) moved.folderid (some moved.oldParent)

/-- Each move goes on where the one before it ended, and the last one at the row. -/
def Chained (parents : ℕ → Option ℕ) : List FolderMoved → Prop
  | [] => True
  | moved :: rest => counted parents rest moved.folderid = some moved.newParent ∧ Chained parents rest

/-- A folder whose move is not counted yet. -/
def Pending (pending : List FolderMoved) (f : ℕ) : Prop := ∃ moved ∈ pending, moved.folderid = f

/-- What holds of a tree, where `tasks` says which folders have tasks of their own. -/
structure Right (parents : ℕ → Option ℕ) (pending : List FolderMoved) (tasks : ℕ → Bool) (tree : TaskTree) : Prop where
  tally : Tally tree.folderTasks (counted parents pending) none none
  owned : owned tree.folderTasks = tasks
  marked : ∀ f, Pending pending f → tree.folderTasks f ≠ none
  chained : Chained parents pending

/-- A folder may lose its mark: no folder whose move is not counted yet loses its own with
it. -/
def Removable (parents : ℕ → Option ℕ) (pending : List FolderMoved) (tree : TaskTree) (f : ℕ) : Prop :=
  ¬ Pending pending f ∧ ∀ parent, above parents f = some parent →
    ∀ k, Pending pending k → ¬ Empties tree.folderTasks (above parents) parent k

theorem counted_of_not_pending (free : ¬ Pending pending f) : counted parents pending f = above parents f := by
  induction pending with
  | nil => rfl
  | cons moved rest ih =>
    have other : f ≠ moved.folderid := fun same => free ⟨moved, List.mem_cons_self, same.symm⟩
    rw [counted, Function.update_of_ne other]
    exact ih fun ⟨later, member, same⟩ => free ⟨later, List.mem_cons_of_mem _ member, same⟩

theorem counted_update_of_ne {parent : Option ℕ} (other : g ≠ f) :
    counted (Function.update parents f parent) pending g = counted parents pending g := by
  induction pending with
  | nil => simp [counted, above, other]
  | cons moved rest ih =>
    rw [counted, counted]
    by_cases same : g = moved.folderid
    · subst same
      simp
    · rw [Function.update_of_ne same, Function.update_of_ne same, ih]

/-- A move that is queued changes nothing yet. -/
theorem counted_append {oldParent parent : ℕ} (row : above parents f = some oldParent) :
    counted (Function.update parents f (some parent)) (pending ++ [⟨f, oldParent, parent⟩]) = counted parents pending := by
  induction pending with
  | nil =>
    funext g
    rw [List.nil_append, counted, counted, counted]
    by_cases own : g = f
    · subst own
      rw [Function.update_self, row]
    · rw [Function.update_of_ne own, above, above, Function.update_of_ne own]
  | cons moved rest ih => rw [List.cons_append, counted, counted, ih]

theorem chained_append {oldParent parent : ℕ} (row : above parents f = some oldParent) (chained : Chained parents pending) :
    Chained (Function.update parents f (some parent)) (pending ++ [⟨f, oldParent, parent⟩]) := by
  induction pending with
  | nil =>
    have notRoot : f ≠ 0 := by
      rintro rfl
      simp [above] at row
    simp [Chained, counted, above, notRoot]
  | cons moved rest ih =>
    refine ⟨?_, ih chained.2⟩
    change counted _ (rest ++ _) _ = _
    rw [counted_append row]
    exact chained.1

theorem chained_update {parent : Option ℕ} (free : ¬ Pending pending f) (chained : Chained parents pending) :
    Chained (Function.update parents f parent) pending := by
  induction pending with
  | nil => trivial
  | cons moved rest ih =>
    have other : moved.folderid ≠ f := fun same => free ⟨moved, List.mem_cons_self, same⟩
    refine ⟨?_, ih (fun ⟨later, member, same⟩ => free ⟨later, List.mem_cons_of_mem _ member, same⟩) chained.2⟩
    rw [counted_update_of_ne other]
    exact chained.1

/-- A folder that goes below another one that is not below it leaves a forest. -/
theorem forest_update {rank : ℕ → ℕ} {parent : ℕ} (forest : Forest parents rank) (free : ¬ Below parents parent f) :
    ∃ rank, Forest (Function.update parents f (some parent)) rank := by
  classical
  refine ⟨fun g => if Below parents g f then rank g + rank parent + 1 else rank g, ?_⟩
  intro g up next
  by_cases own : g = f
  · subst own
    have same : up = parent := by
      rw [above] at next
      split at next
      · cases next
      · simpa using next.symm
    subst same
    simp only [free, if_false, show Below parents g g from .refl, if_true]
    omega
  · have row : above parents g = some up := by
      rwa [above, Function.update_of_ne own] at next
    have lower := forest g up row
    by_cases below : Below parents up f
    · simp only [below, if_true, show Below parents g f from .head row below]
      omega
    · have notBelow : ¬ Below parents g f := by
        intro below'
        obtain rfl | ⟨middle, first, rest⟩ := Relation.ReflTransGen.cases_head below'
        · exact own rfl
        · rw [row, Option.some.injEq] at first
          exact below (first ▸ rest)
      simp only [below, notBelow, if_false]
      exact lower

theorem forest_remove {rank : ℕ → ℕ} (forest : Forest parents rank) : Forest (Function.update parents f none) rank := by
  intro g up next
  apply forest
  rw [above] at next ⊢
  split at next
  · cases next
  next notRoot =>
    rw [if_neg notRoot]
    by_cases own : g = f
    · subst own
      simp at next
    · rwa [Function.update_of_ne own] at next

theorem Right.init (cacheSize : ℕ) : Right parents [] (fun _ => false) (.init cacheSize) where
  tally := Tally.init
  owned := rfl
  marked := by
    rintro f ⟨_, member, _⟩
    cases member
  chained := trivial

/-- The cache does not matter. -/
theorem Right.cache (right : Right parents pending tasks tree) (lru : List (Option (ℕ × ℕ))) :
    Right parents pending tasks { tree with parentCacheLru := lru } :=
  ⟨right.tally, right.owned, right.marked, right.chained⟩

theorem Right.free (right : Right parents pending tasks tree) (absent : tree.folderTasks f = none) : ¬ Pending pending f :=
  fun own => right.marked f own absent

theorem Right.agree (right : Right parents pending tasks tree) :
    ∀ f, tree.folderTasks f = none → above parents f = counted parents pending f :=
  fun _ absent => (counted_of_not_pending (right.free absent)).symm

theorem Right.tasks_of_absent (right : Right parents pending tasks tree) (absent : tree.folderTasks f = none) : tasks f = false := by
  rw [← right.owned, Library.Marks.owned, absent]
  rfl

/-- A row that changes while its folder has no mark. -/
theorem Right.reparent (right : Right parents pending tasks tree) (absent : tree.folderTasks f = none) (parent : Option ℕ) :
    Right (Function.update parents f parent) pending tasks tree := by
  refine ⟨?_, right.owned, right.marked, chained_update (right.free absent) right.chained⟩
  apply right.tally.reparent
  intro k marked
  apply counted_update_of_ne
  rintro rfl
  exact marked absent

/-- A row that changes with its move queued. -/
theorem Right.queue {oldParent parent : ℕ} (right : Right parents pending tasks tree) (row : above parents f = some oldParent)
    (marked : tree.folderTasks f ≠ none) :
    Right (Function.update parents f (some parent)) (pending ++ [⟨f, oldParent, parent⟩]) tasks tree := by
  refine ⟨?_, right.owned, ?_, chained_append row right.chained⟩
  · rw [counted_append row]
    exact right.tally
  · rintro k ⟨moved, member, same⟩
    obtain old | new := List.mem_append.mp member
    · exact right.marked k ⟨moved, old, same⟩
    · rw [List.mem_singleton.mp new] at same
      exact same ▸ marked

/-- Folders that keep their marks are counted where they are. -/
theorem agree_of_free {marks : ℕ → Option Mark} {start : ℕ}
    (kept : ∀ k, Pending pending k → ¬ Empties marks (above parents) start k) :
    ∀ k, Empties marks (above parents) start k → above parents k = counted parents pending k := by
  intro k empties
  exact (counted_of_not_pending fun own => kept k own empties).symm

variable {rank : ℕ → ℕ} {fuel : ℕ}

theorem owned_update (new : Option Mark) (right : Right parents pending tasks tree) :
    owned (tree.put f new).folderTasks = Function.update tasks f (new.any Mark.own) := by
  funext k
  by_cases own : k = f
  · subst own
    simp [owned, TaskTree.put]
  · simp [owned, TaskTree.put, own, ← right.owned]

/-- A mark that stays and only has its flag set. -/
theorem Right.flag {ft : Mark} {own : Bool} (right : Right parents pending tasks tree) (found : tree.folderTasks f = some ft)
    (keeps : own = true ∨ 0 < ft.children) :
    Right parents pending (Function.update tasks f own) (tree.put f (some { ft with own := own })) := by
  refine ⟨?_, owned_update _ right, ?_, right.chained⟩
  · exact right.tally.revise found rfl keeps fun _ _ => ⟨rfl, rfl⟩
  · intro k pending
    by_cases own : k = f
    · subst own
      simp [TaskTree.put]
    · simpa [TaskTree.put, own] using right.marked k pending

/-- A folder that gets tasks is counted in its parents. -/
theorem taskAdded_safe (forest : Forest parents rank) (right : Right parents pending tasks tree) (clear : Clear parents tree.parentCacheLru f) :
    Safe (Right parents pending (Function.update tasks f true)) (taskAdded parents fuel tree f) := by
  rw [taskAdded]
  cases found : tree.folderTasks f with
  | some ft =>
    have used : ft.own = true ∨ ft.children ≠ 0 := by
      obtain own | positive := right.tally.used f ft found
      · exact .inl own
      · exact .inr (Nat.ne_of_gt positive)
    simp only [TaskTree.getOrCreate, found, Option.getD_some, used, if_true]
    exact right.flag found (.inl rfl)
  | none =>
    simp only [TaskTree.getOrCreate, found, Option.getD_none, Bool.false_eq_true, ne_eq, not_true_eq_false, or_self, if_false]
    have notSelf : counted parents pending f ≠ some f := by
      rw [← right.agree f found]
      intro self
      exact lt_irrefl _ (forest f f self)
    have begun := right.tally.begin ⟨0, true⟩ found rfl (.inl rfl) (fun _ _ => rfl) notSelf
    rw [← right.agree f found] at begun
    have owns : owned (tree.put f (some ⟨0, true⟩)).folderTasks = Function.update tasks f true := owned_update _ right
    have others : ∀ k, Pending pending k → (tree.put f (some ⟨0, true⟩)).folderTasks k ≠ none := by
      intro k own
      by_cases same : k = f
      · subst same
        simp [TaskTree.put]
      · simpa [TaskTree.put, same] using right.marked k own
    apply Safe.map
    apply climb_safe (tree.put f (some ⟨0, true⟩)) clear
    · intro lru _ root
      rw [root] at begun
      exact ⟨begun, owns, others, right.chained⟩
    · intro lru parent _ next clear
      rw [next] at begun
      have later : ∀ k, (tree.put f (some ⟨0, true⟩)).folderTasks k = none → above parents k = counted parents pending k := by
        intro k missing
        by_cases same : k = f
        · subst same
          simp [TaskTree.put] at missing
        · exact right.agree k (by simpa [TaskTree.put, same] using missing)
      apply (countUp_safe forest { tree.put f (some ⟨0, true⟩) with parentCacheLru := lru } clear begun later).mono
      intro result done
      exact ⟨done.tally, done.owned.trans owns, fun k own => done.grows.marked (others k own), right.chained⟩

/-- A folder that has neither tasks nor children with tasks any more is taken out, and of
the counts of its parents. -/
theorem remove_safe {mark : Mark} {positive : Bool} (forest : Forest parents rank) (right : Right parents pending tasks tree)
    (found : tree.folderTasks f = some mark) (childless : mark.children = 0) (clear : Clear parents tree.parentCacheLru f)
    (removable : Removable parents pending tree f) :
    Safe (fun result => Right parents pending (Function.update tasks f false) result.1 ∧ result.1.folderTasks f = none)
      (climb parents (tree.put f none) f (countDown parents positive fuel)) := by
  obtain ⟨free, kept⟩ := removable
  have same : counted parents pending f = above parents f := counted_of_not_pending free
  have notSelf : counted parents pending f ≠ some f := by
    rw [same]
    intro self
    exact lt_irrefl _ (forest f f self)
  have unmarked := right.tally.unmark found (by simpa using childless) (by simp) notSelf
  rw [same] at unmarked
  have owns : owned (tree.put f none).folderTasks = Function.update tasks f false := owned_update _ right
  have others : ∀ k, Pending pending k → (tree.put f none).folderTasks k ≠ none := by
    intro k own
    have other : k ≠ f := by
      rintro rfl
      exact free own
    simpa [TaskTree.put, other] using right.marked k own
  apply climb_safe (tree.put f none) clear
  · intro lru _ root
    rw [root] at unmarked
    exact ⟨⟨unmarked, owns, others, right.chained⟩, Function.update_self ..⟩
  · intro lru parent _ next clear
    rw [next] at unmarked
    have fewer : ∀ {k}, Empties (tree.put f none).folderTasks (above parents) parent k →
        Empties tree.folderTasks (above parents) parent k := by
      intro k empties
      apply empties.mono
      intro j read
      by_cases own : j = f
      · subst own
        simp [TaskTree.put] at read
      · simpa [TaskTree.put, own] using read
    have agree := agree_of_free fun k (own : Pending pending k) empties => kept parent next k own (fewer empties)
    apply (countDown_safe forest { tree.put f none with parentCacheLru := lru } clear unmarked agree).mono
    intro result done
    refine ⟨⟨done.tally, done.owned.trans owns, ?_, right.chained⟩, done.absent f (Function.update_self ..)⟩
    intro k own
    exact done.marked k (others k own) fun empties => kept parent next k own (fewer empties)

/-- A folder without marked children that is deleted has no mark any more. -/
theorem fldrDeleted_safe (forest : Forest parents rank) (right : Right parents pending tasks tree)
    (clear : Clear parents tree.parentCacheLru f)
    (childless : ∀ ft, tree.folderTasks f = some ft → ft.children = 0 ∧ Removable parents pending tree f) :
    Safe (fun result => Right parents pending (Function.update tasks f false) result ∧ result.folderTasks f = none)
      (fldrDeleted parents fuel tree f) := by
  rw [fldrDeleted]
  cases found : tree.folderTasks f with
  | none =>
    have same : Function.update tasks f false = tasks := Function.update_eq_self_iff.mpr (right.tasks_of_absent found).symm
    exact ⟨by rw [same]; exact right.cache _, found⟩
  | some ft =>
    obtain ⟨zero, removable⟩ := childless ft found
    apply Safe.map
    apply (remove_safe forest right found zero clear removable).mono
    rintro result ⟨kept, absent⟩
    cases result.2 with
    | none => exact ⟨kept, absent⟩
    | some stopped => exact ⟨kept.cache _, absent⟩

/-- The first move that is not counted yet is one link to count at the new parent and one
at the old one. -/
theorem Right.moves {moved : FolderMoved} (right : Right parents (moved :: pending) tasks tree) :
    Tally tree.folderTasks (counted parents pending) (some moved.newParent) (some moved.oldParent) ∧
      (∀ k, tree.folderTasks k = none → above parents k = counted parents pending k) ∧
      ∀ k, Pending pending k → tree.folderTasks k ≠ none := by
  have marked : ∀ k, Pending pending k → tree.folderTasks k ≠ none := by
    rintro k ⟨later, member, same⟩
    exact right.marked k ⟨later, List.mem_cons_of_mem _ member, same⟩
  have moves := right.tally.move (right.marked moved.folderid ⟨moved, List.mem_cons_self, rfl⟩) (Function.update_self ..) moved.newParent
  have after : Function.update (counted parents (moved :: pending)) moved.folderid (some moved.newParent) = counted parents pending := by
    rw [counted, Function.update_idem, Function.update_eq_self_iff]
    exact right.chained.1.symm
  rw [after] at moves
  exact ⟨moves, fun k missing => (counted_of_not_pending fun own => marked k own missing).symm, marked⟩

theorem folderMoved_safe {moved : FolderMoved} (forest : Forest parents rank) (right : Right parents (moved :: pending) tasks tree)
    (clearOld : Clear parents tree.parentCacheLru moved.oldParent) (clearNew : Clear parents tree.parentCacheLru moved.newParent)
    (kept : ∀ k, Pending pending k → ¬ Empties tree.folderTasks (above parents) moved.oldParent k) :
    Safe (Right parents pending tasks) (folderMoved parents fuel tree moved) := by
  obtain ⟨moves, agree, marked⟩ := right.moves
  rw [folderMoved]
  apply (countUp_safe forest tree clearNew moves agree).bind
  intro up countedUp
  apply Safe.map
  have old : tree.folderTasks moved.oldParent ≠ none := moves.marked_of_owes
  have free : ∀ k, Pending pending k → ¬ Empties up.1.folderTasks (above parents) moved.oldParent k := by
    intro k own empties
    obtain before | absent := (empties.of_grows moves countedUp.tally countedUp.grows agree).1 old
    · exact kept k own before
    · exact marked k own absent
  apply (countDown_safe forest up.1 (clearOld.caches countedUp.cache) countedUp.tally (agree_of_free free)).mono
  intro down countedDown
  refine ⟨countedDown.tally, (countedDown.owned.trans countedUp.owned).trans right.owned, ?_, right.chained.2⟩
  intro k own
  exact countedDown.marked k (countedUp.grows.marked (marked k own)) (free k own)

theorem taskAdded_ends (forest : Forest parents rank) (clear : Clear parents tree.parentCacheLru f) :
    taskAdded parents (rank f) tree f ≠ .exhausted := by
  rw [taskAdded]
  split
  · simp
  · apply map_ne
    apply climb_ends (tree.put f _) clear
    intro lru parent next clear
    exact countUp_ends forest _ clear (forest f parent next)

theorem remove_ends {positive : Bool} (forest : Forest parents rank) (clear : Clear parents tree.parentCacheLru f) :
    climb parents (tree.put f none) f (countDown parents positive (rank f)) ≠ .exhausted := by
  apply climb_ends (tree.put f none) clear
  intro lru parent next clear
  exact countDown_ends forest _ clear (forest f parent next)

theorem fldrDeleted_ends (forest : Forest parents rank) (clear : Clear parents tree.parentCacheLru f) :
    fldrDeleted parents (rank f) tree f ≠ .exhausted := by
  rw [fldrDeleted]
  split
  · simp
  · exact map_ne (remove_ends forest clear)

theorem folderMoved_ends {moved : FolderMoved} (forest : Forest parents rank) (right : Right parents (moved :: pending) tasks tree)
    (clearOld : Clear parents tree.parentCacheLru moved.oldParent) (clearNew : Clear parents tree.parentCacheLru moved.newParent) :
    folderMoved parents (rank moved.oldParent + rank moved.newParent + 1) tree moved ≠ .exhausted := by
  obtain ⟨moves, agree, _⟩ := right.moves
  rw [folderMoved]
  apply bind_ne (countUp_ends forest tree clearNew (by omega)) (countUp_safe forest tree clearNew moves agree)
  intro up countedUp
  apply map_ne
  exact countDown_ends forest up.1 (clearOld.caches countedUp.cache) (by omega)

/-- A folder has a mark exactly while it or a folder below it has tasks of its own. -/
theorem Right.marked_iff (forest : Forest parents rank) (right : Right parents [] tasks tree) (f : ℕ) :
    tree.folderTasks f ≠ none ↔ ∃ g, Below parents g f ∧ tasks g = true := by
  rw [right.tally.marked_iff forest f]
  constructor
  · rintro ⟨g, below, mark, found, own⟩
    refine ⟨g, below, ?_⟩
    rw [← right.owned, Library.Marks.owned, found]
    exact own
  · rintro ⟨g, below, own⟩
    rw [← right.owned, Library.Marks.owned, Option.any_eq_true] at own
    obtain ⟨mark, found, own⟩ := own
    exact ⟨g, below, mark, found, own⟩

/-- A mark counts the children of its folder that have marks. -/
theorem Right.children (right : Right parents [] tasks tree) {ft : FolderTasks} (found : tree.folderTasks f = some ft) :
    ft.children = {g | above parents g = some f ∧ tree.folderTasks g ≠ none}.ncard ∧ ft.own = tasks f := by
  have count : ft.children = (kids tree.folderTasks (above parents) f).ncard := right.tally.counted f ft found
  constructor
  · rw [count]
    congr 1
    ext g
    exact and_comm
  · rw [← right.owned, Library.Marks.owned, found]
    rfl

end Pclsync.Proofs.TaskMoves
