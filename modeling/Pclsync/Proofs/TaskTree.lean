import Pclsync.Paths.Tree

/-! The loops that count folders with tasks. Where no folder above has a stale entry in
the cache, a loop keeps the counts right, and it ends when the parents are a forest. -/

namespace Pclsync.Proofs.TaskTree
open Pclsync.Library.Marks Pclsync.Paths

variable {parents vparents : ℕ → Option ℕ} {lru : List (Option (ℕ × ℕ))} {tree : TaskTree} {f g : ℕ}

/-- The parent of a folder, which the root does not have. -/
def above (parents : ℕ → Option ℕ) (folderid : ℕ) : Option ℕ := if folderid = 0 then none else parents folderid

/-- The entry of a folder in the cache, if any, has its parent. -/
def Fresh (parents : ℕ → Option ℕ) (lru : List (Option (ℕ × ℕ))) (f : ℕ) : Prop :=
  ∀ parent, some (f, parent) ∈ lru → parents f = some parent

/-- A folder is at or below another one. -/
def Below (parents : ℕ → Option ℕ) : ℕ → ℕ → Prop := Relation.ReflTransGen fun f parent => above parents f = some parent

/-- No folder from one of them up has a stale entry. -/
def Clear (parents : ℕ → Option ℕ) (lru : List (Option (ℕ × ℕ))) (f : ℕ) : Prop := ∀ g, Below parents f g → Fresh parents lru g

def Forest (parents : ℕ → Option ℕ) (rank : ℕ → ℕ) : Prop := ∀ f parent, above parents f = some parent → rank parent < rank f

/-- No assertion fails, and what a function returns satisfies a predicate. -/
def Safe {α : Type} (holds : α → Prop) : Outcome α → Prop
  | .next result => holds result
  | .failed => False
  | .exhausted => True

section Outcome
variable {α β : Type} {holds : α → Prop} {holdsNext : β → Prop} {outcome : Outcome α}

theorem Safe.mono {weaker : α → Prop} (safe : Safe holds outcome) (mono : ∀ result, holds result → weaker result) : Safe weaker outcome := by
  cases outcome with
  | next result => exact mono result safe
  | failed => exact safe
  | exhausted => trivial

theorem Safe.bind {rest : α → Outcome β} (safe : Safe holds outcome) (next : ∀ result, holds result → Safe holdsNext (rest result)) :
    Safe holdsNext (outcome.bind rest) := by
  cases outcome with
  | next result => exact next result safe
  | failed => exact safe
  | exhausted => trivial

theorem Safe.map {f : α → β} (safe : Safe (fun result => holdsNext (f result)) outcome) : Safe holdsNext (outcome.map f) :=
  safe.bind fun _ holds => holds

theorem map_ne {f : α → β} (ends : outcome ≠ .exhausted) : outcome.map f ≠ .exhausted := by
  cases outcome with
  | next result => simp [Outcome.map, Outcome.bind]
  | failed => simp [Outcome.map, Outcome.bind]
  | exhausted => exact absurd rfl ends

theorem bind_ne {rest : α → Outcome β} (ends : outcome ≠ .exhausted) (safe : Safe holds outcome)
    (next : ∀ result, holds result → rest result ≠ .exhausted) : outcome.bind rest ≠ .exhausted := by
  cases outcome with
  | next result => exact next result safe
  | failed => exact safe.elim
  | exhausted => exact absurd rfl ends

/-- A function whose assertions hold and whose loops end returns something. -/
theorem Safe.returns (safe : Safe holds outcome) (ends : outcome ≠ .exhausted) : ∃ result, outcome = .next result ∧ holds result := by
  cases outcome with
  | next result => exact ⟨result, rfl, safe⟩
  | failed => exact safe.elim
  | exhausted => exact absurd rfl ends

end Outcome

theorem isEntry_iff {entry : Option (ℕ × ℕ)} : isEntry f entry = true ↔ ∃ parent, entry = some (f, parent) := by
  cases entry with
  | none => simp [isEntry]
  | some entry =>
    obtain ⟨folderid, parent⟩ := entry
    simp [isEntry]

theorem Clear.up (clear : Clear parents lru f) (next : above parents f = some g) : Clear parents lru g :=
  fun k below => clear k (.head next below)

/-- What a function keeps of the cache: an entry that it adds is a row. -/
def Caches (parents : ℕ → Option ℕ) (lru after : List (Option (ℕ × ℕ))) : Prop :=
  ∀ k parent, some (k, parent) ∈ after → some (k, parent) ∈ lru ∨ parents k = some parent

theorem Caches.trans {middle after : List (Option (ℕ × ℕ))} (first : Caches parents lru middle) (second : Caches parents middle after) :
    Caches parents lru after := by
  intro k parent member
  obtain between | row := second k parent member
  · exact first k parent between
  · exact .inr row

theorem Clear.caches {after : List (Option (ℕ × ℕ))} (clear : Clear parents lru f) (caches : Caches parents lru after) :
    Clear parents after f := by
  intro g below parent member
  obtain old | row := caches g parent member
  · exact clear g below parent old
  · exact row

theorem mem_delFromParentCache {entry : ℕ × ℕ} (member : some entry ∈ delFromParentCache lru f) : some entry ∈ lru := by
  rw [delFromParentCache] at member
  split at member
  · rw [List.mem_cons] at member
    obtain absurd | member := member
    · cases absurd
    · exact List.mem_of_mem_eraseP member
  · exact member

theorem getParentFolder_caches (parents : ℕ → Option ℕ) (lru : List (Option (ℕ × ℕ))) (f : ℕ) :
    Caches parents lru (getParentFolder parents lru f).2 := by
  intro k parent member
  rw [getParentFolder] at member
  split at member
  · exact .inl member
  · split at member
    next entry found =>
      rw [List.mem_append, List.mem_singleton] at member
      obtain old | rfl := member
      · exact .inl (List.mem_of_mem_eraseP old)
      · exact .inl (List.mem_of_find?_eq_some found)
    next =>
      split at member
      · exact .inl member
      next row found =>
        rw [List.mem_append, List.mem_singleton, Option.some.injEq, Prod.mk.injEq] at member
        obtain old | ⟨rfl, rfl⟩ := member
        · exact .inl (List.mem_of_mem_tail old)
        · exact .inr found

theorem getParentFolder_eq (fresh : Fresh parents lru f) : (getParentFolder parents lru f).1 = above parents f := by
  rw [getParentFolder, above]
  split
  · rfl
  · split
    next entry found =>
      obtain ⟨parent, rfl⟩ := isEntry_iff.mp (List.find?_some found)
      exact (fresh parent (List.mem_of_find?_eq_some found)).symm
    next =>
      split
      next none => exact none.symm
      next row found => exact found.symm

/-- What a loop needs at the next folder. -/
theorem climb_safe (tree : TaskTree) {loop : TaskTree → ℕ → Outcome (TaskTree × Option ℕ)} {holds : TaskTree × Option ℕ → Prop}
    (clear : Clear parents tree.parentCacheLru f)
    (root : ∀ lru, Caches parents tree.parentCacheLru lru → above parents f = none →
      holds ({ tree with parentCacheLru := lru }, none))
    (next : ∀ lru parent, Caches parents tree.parentCacheLru lru → above parents f = some parent → Clear parents lru parent →
      Safe holds (loop { tree with parentCacheLru := lru } parent)) : Safe holds (climb parents tree f loop) := by
  have found := getParentFolder_eq (clear f .refl)
  have caches := getParentFolder_caches parents tree.parentCacheLru f
  rw [climb]
  split
  next lru read =>
    rw [read] at found caches
    exact root lru caches found.symm
  next parent lru read =>
    rw [read] at found caches
    exact next lru parent caches found.symm ((clear.caches caches).up found.symm)

theorem climb_ends (tree : TaskTree) {loop : TaskTree → ℕ → Outcome (TaskTree × Option ℕ)} (clear : Clear parents tree.parentCacheLru f)
    (next : ∀ lru parent, above parents f = some parent → Clear parents lru parent →
      loop { tree with parentCacheLru := lru } parent ≠ .exhausted) : climb parents tree f loop ≠ .exhausted := by
  have found := getParentFolder_eq (clear f .refl)
  have clear := clear.caches (getParentFolder_caches parents tree.parentCacheLru f)
  rw [climb]
  split
  next lru read => simp
  next parent lru read =>
    rw [read] at found clear
    exact next lru parent found.symm (clear.up found.symm)

/-- What counting up keeps: the counts are right again, the marks only grow, and no folder
gets or loses tasks of its own. -/
structure CountedUp (parents vparents : ℕ → Option ℕ) (owes : Option ℕ) (tree after : TaskTree) : Prop where
  tally : Tally after.folderTasks vparents none owes
  owned : owned after.folderTasks = owned tree.folderTasks
  grows : Grows tree.folderTasks after.folderTasks
  cache : Caches parents tree.parentCacheLru after.parentCacheLru

theorem countUp_safe {rank : ℕ → ℕ} {owes : Option ℕ} (forest : Forest parents rank) :
    ∀ {fuel : ℕ} (tree : TaskTree) {f : ℕ}, Clear parents tree.parentCacheLru f → Tally tree.folderTasks vparents (some f) owes →
      (∀ k, tree.folderTasks k = none → above parents k = vparents k) →
      Safe (fun result => CountedUp parents vparents owes tree result.1) (countUp parents fuel tree f) := by
  intro fuel
  induction fuel with
  | zero => intro tree f clear tally agree; trivial
  | succ fuel ih =>
    intro tree f clear tally agree
    rw [countUp]
    cases found : tree.folderTasks f with
    | some ft =>
      have more : 1 < ft.children + 1 ∨ ft.own = true := by
        obtain own | positive := tally.used f ft found
        · exact .inr own
        · exact .inl (Nat.succ_lt_succ positive)
      simp only [TaskTree.getOrCreate, found, Option.getD_some, more, if_true]
      refine ⟨?_, ?_, ?_, fun _ _ member => .inl member⟩
      · apply tally.revise found
        · simp
        · exact .inr (Nat.succ_pos _)
        · intro k other
          simp [link_of_ne other.symm]
      · apply owned_update_of_eq
        simp [Library.Marks.owned, found]
      · apply grows_update
        intro mark same
        rw [found, Option.some.injEq] at same
        exact ⟨1, by rw [same]⟩
    | none =>
      simp only [TaskTree.getOrCreate, found, Option.getD_none, Nat.zero_add, lt_irrefl, Bool.false_eq_true, or_self, if_false]
      have notSelf : vparents f ≠ some f := by
        intro same
        exact lt_irrefl _ (forest f f ((agree f found).trans same))
      have begun := tally.begin ⟨1, false⟩ found (by simp) (.inr Nat.one_pos) (fun k other => link_of_ne other.symm) notSelf
      have owned : owned (Function.update tree.folderTasks f (some ⟨1, false⟩)) = owned tree.folderTasks := by
        apply owned_update_of_eq
        simp [Library.Marks.owned, found]
      have grows : Grows tree.folderTasks (Function.update tree.folderTasks f (some ⟨1, false⟩)) := by
        apply grows_update
        intro mark same
        simp [found] at same
      rw [← agree f found] at begun
      apply climb_safe (tree.put f (some ⟨1, false⟩)) clear
      · intro lru caches root
        rw [root] at begun
        exact ⟨begun, owned, grows, caches⟩
      · intro lru parent caches next clear
        rw [next] at begun
        have later : ∀ k, (Function.update tree.folderTasks f (some ⟨1, false⟩)) k = none → above parents k = vparents k := by
          intro k absent
          by_cases own : k = f
          · subst own
            simp at absent
          · rw [Function.update_of_ne own] at absent
            exact agree k absent
        apply (ih { tree.put f (some ⟨1, false⟩) with parentCacheLru := lru } clear begun later).mono
        intro result counted
        exact ⟨counted.tally, counted.owned.trans owned, grows.trans counted.grows, caches.trans counted.cache⟩

/-- What counting down keeps: the counts are right again, and only the folders that lost
their last child are no longer marked. -/
structure CountedDown (parents vparents : ℕ → Option ℕ) (f : ℕ) (tree after : TaskTree) : Prop where
  tally : Tally after.folderTasks vparents none none
  owned : owned after.folderTasks = owned tree.folderTasks
  marked : ∀ k, tree.folderTasks k ≠ none → ¬ Empties tree.folderTasks (above parents) f k → after.folderTasks k ≠ none
  absent : ∀ k, tree.folderTasks k = none → after.folderTasks k = none
  cache : Caches parents tree.parentCacheLru after.parentCacheLru

theorem countDown_safe {rank : ℕ → ℕ} {positive : Bool} (forest : Forest parents rank) :
    ∀ {fuel : ℕ} (tree : TaskTree) {f : ℕ}, Clear parents tree.parentCacheLru f → Tally tree.folderTasks vparents none (some f) →
      (∀ k, Empties tree.folderTasks (above parents) f k → above parents k = vparents k) →
      Safe (fun result => CountedDown parents vparents f tree result.1) (countDown parents positive fuel tree f) := by
  intro fuel
  induction fuel with
  | zero => intro tree f clear tally agree; trivial
  | succ fuel ih =>
    intro tree f clear tally agree
    obtain ⟨ft, found⟩ := Option.ne_none_iff_exists'.mp tally.marked_of_owes
    have counted := tally.counted f ft found
    rw [link_none, link_self, Nat.add_zero] at counted
    have some : ft.children ≠ 0 := by omega
    rw [countDown]
    simp only [found, some, and_false, if_false, decrement]
    split
    next kept =>
      refine ⟨?_, ?_, ?_, ?_, fun _ _ member => .inl member⟩
      · apply tally.revise found
        · simp
          omega
        · obtain more | own := kept
          · exact .inr (Nat.pos_of_ne_zero more)
          · exact .inl own
        · intro k other
          simp [link_of_ne other.symm]
      · apply owned_update_of_eq
        simp [Library.Marks.owned, found]
      · intro k marked _
        by_cases own : k = f
        · subst own
          simp [TaskTree.put]
        · simpa [TaskTree.put, own] using marked
      · intro k missing
        have other : k ≠ f := by
          rintro rfl
          simp [found] at missing
        simpa [TaskTree.put, other] using missing
    next gone =>
      push Not at gone
      have last : tree.folderTasks f = Option.some ⟨1, false⟩ := by
        rw [found, show ft = ⟨ft.children, ft.own⟩ from rfl, Bool.eq_false_of_not_eq_true gone.2, show ft.children = 1 by omega]
      have same := agree f (.here last)
      have notSelf : vparents f ≠ Option.some f := by
        intro self
        exact lt_irrefl _ (forest f f (same.trans self))
      have unmarked := tally.unmark last (by simp) (fun k other => link_of_ne other.symm) notSelf
      have owned : owned (Function.update tree.folderTasks f none) = owned tree.folderTasks := by
        apply owned_update_of_eq
        simp [Library.Marks.owned, last]
      have stays : ∀ k, tree.folderTasks k = none → Function.update tree.folderTasks f none k = none := by
        intro k missing
        by_cases own : k = f
        · subst own
          simp
        · simpa [own] using missing
      rw [← same] at unmarked
      apply climb_safe (tree.put f none) clear
      · intro lru caches root
        rw [root] at unmarked
        refine ⟨unmarked, owned, ?_, stays, caches⟩
        intro k marked kept
        have other : k ≠ f := by
          rintro rfl
          exact kept (.here last)
        simpa [TaskTree.put, other] using marked
      · intro lru parent caches next clear
        rw [next] at unmarked
        have fewer : ∀ {k}, Empties (Function.update tree.folderTasks f none) (above parents) parent k →
            Empties tree.folderTasks (above parents) f k := by
          intro k empties
          refine .above last next (empties.mono ?_)
          intro j read
          by_cases own : j = f
          · subst own
            simp at read
          · simpa [own] using read
        apply (ih { tree.put f none with parentCacheLru := lru } clear unmarked fun k empties => agree k (fewer empties)).mono
        intro result counted
        refine ⟨counted.tally, counted.owned.trans owned, ?_, fun k missing => counted.absent k (stays k missing), caches.trans counted.cache⟩
        intro k marked kept
        have other : k ≠ f := by
          rintro rfl
          exact kept (.here last)
        apply counted.marked k
        · simpa [TaskTree.put, other] using marked
        · exact fun empties => kept (fewer empties)

theorem countUp_ends {rank : ℕ → ℕ} (forest : Forest parents rank) :
    ∀ {fuel : ℕ} (tree : TaskTree) {f : ℕ}, Clear parents tree.parentCacheLru f → rank f < fuel →
      countUp parents fuel tree f ≠ .exhausted := by
  intro fuel
  induction fuel with
  | zero => intro tree f clear enough; omega
  | succ fuel ih =>
    intro tree f clear enough
    rw [countUp]
    simp only
    split
    · simp
    · apply climb_ends (tree.put f _) clear
      intro lru parent next clear
      have lower := forest f parent next
      exact ih _ clear (by omega)

theorem countDown_ends {rank : ℕ → ℕ} {positive : Bool} (forest : Forest parents rank) :
    ∀ {fuel : ℕ} (tree : TaskTree) {f : ℕ}, Clear parents tree.parentCacheLru f → rank f < fuel →
      countDown parents positive fuel tree f ≠ .exhausted := by
  intro fuel
  induction fuel with
  | zero => intro tree f clear enough; omega
  | succ fuel ih =>
    intro tree f clear enough
    rw [countDown]
    split
    · simp
    · split
      · simp
      · simp only
        split
        · simp
        · apply climb_ends (tree.put f _) clear
          intro lru parent next clear
          have lower := forest f parent next
          exact ih _ clear (by omega)

end Pclsync.Proofs.TaskTree
