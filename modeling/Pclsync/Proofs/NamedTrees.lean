import Pclsync.Fs.NamedTrees
import Pclsync.Proofs.TreeSearch
import Pclsync.Proofs.Ptree

/-! The trees of a folder are sorted by the names of their entries as long as a new entry is compared by these. -/

namespace Pclsync.Proofs.NamedTrees
open Library Pclsync.NamedTrees TreeSearch
open Pclsync.Ptree (Heap met getBeside search)
open Fs (strcmp Name)

/-! `strcmp` is a total order. -/

theorem strcmp_eq_compareLex : strcmp = List.compareLex compare := by
  funext s1 s2
  induction s1 generalizing s2 with
  | nil => cases s2 <;> rfl
  | cons byte rest ih =>
    cases s2 with
    | nil => rfl
    | cons other others => rw [Fs.strcmp, ih, List.compareLex_cons_cons]

theorem strcmp_eq {s1 s2 : Name} : strcmp s1 s2 = .eq ↔ s1 = s2 := by
  rw [strcmp_eq_compareLex]
  exact Std.LawfulEqCmp.compare_eq_iff_eq

theorem strcmp_swap (s1 s2 : Name) : strcmp s1 s2 = (strcmp s2 s1).swap := by
  rw [strcmp_eq_compareLex]
  exact Std.OrientedCmp.eq_swap

/-- A name is not behind another one. -/
def Le (s1 s2 : Name) : Prop := (strcmp s1 s2).isLE = true

theorem le_trans {s1 s2 s3 : Name} (one : Le s1 s2) (two : Le s2 s3) : Le s1 s3 := by
  unfold Le at *
  rw [strcmp_eq_compareLex] at *
  exact Std.TransCmp.isLE_trans one two

theorem lt_of_lt_of_le {s1 s2 s3 : Name} (one : strcmp s1 s2 = .lt) (two : Le s2 s3) : strcmp s1 s3 = .lt := by
  unfold Le at *
  rw [strcmp_eq_compareLex] at *
  exact Std.TransCmp.lt_of_lt_of_isLE one two

theorem lt_of_le_of_lt {s1 s2 s3 : Name} (one : Le s1 s2) (two : strcmp s2 s3 = .lt) : strcmp s1 s3 = .lt := by
  unfold Le at *
  rw [strcmp_eq_compareLex] at *
  exact Std.TransCmp.lt_of_isLE_of_lt one two

theorem le_antisymm {s1 s2 : Name} (one : Le s1 s2) (two : Le s2 s1) : s1 = s2 := by
  rw [← strcmp_eq]
  unfold Le at *
  rw [strcmp_swap s2 s1] at two
  cases compared : strcmp s1 s2 <;> rw [compared] at one two
  · exact absurd two (by decide)
  · exact absurd one (by decide)

theorem le_of_lt {s1 s2 : Name} (less : strcmp s1 s2 = .lt) : Le s1 s2 := by
  rw [Le, less]
  decide

theorem le_of_not_lt {s1 s2 : Name} (notLess : strcmp s1 s2 ≠ .lt) : Le s2 s1 := by
  rw [Le, strcmp_swap]
  cases compared : strcmp s1 s2
  · exact absurd compared notLess
  · decide
  · decide

section Tree

variable {kind : Kind} {tree : Tree} {ids : List ℕ} {fuel : ℕ}

def nameOf (kind : Kind) (tree : Tree) (node : ℕ) : Name := (tree.element node).name kind

/-- The names of two nodes are in order. -/
def InOrder (kind : Kind) (tree : Tree) (one two : ℕ) : Prop := Le (nameOf kind tree one) (nameOf kind tree two)

/-- What a search is for. -/
def Wanted (kind : Kind) (tree : Tree) (name : Name) (taskid node : ℕ) : Prop :=
  nameOf kind tree node = name ∧ (taskid = 0 ∨ (tree.element node).taskid = taskid)

/-- What is found is in the tree and wanted, or nothing in the tree is. -/
def Found (kind : Kind) (tree : Tree) (ids : List ℕ) (name : Name) (taskid : ℕ) : Option ℕ → Prop
  | some node => node ∈ ids ∧ Wanted kind tree name taskid node
  | none => ∀ node ∈ ids, ¬Wanted kind tree name taskid node

theorem follows {name : Name} {one two : ℕ} (order : InOrder kind tree one two) :
    Follows (fun node => strcmp name (nameOf kind tree node)) one two := by
  refine ⟨fun less => lt_of_lt_of_le less order, fun more => ?_⟩
  dsimp only at more ⊢
  rw [strcmp_swap, Ordering.swap_eq_gt] at more ⊢
  exact lt_of_le_of_lt order more

/-- A node with the others on one side of it, the nearest first. -/
def lay (side : Side) (others : List ℕ) (node : ℕ) (rest : List ℕ) : List ℕ :=
  match side with
  | .right => rest ++ node :: others
  | .left => others.reverse ++ node :: rest

theorem getBeside_lay {side : Side} {others rest : List ℕ} {node : ℕ} (stands : PtreeChange.Stands tree.heap tree.root ids)
    (same : ids = lay side others node rest) (enough : ids.length < fuel) : getBeside side fuel tree.heap node = some others.head? := by
  cases side with
  | right => exact (Proofs.Ptree.getBeside_stands stands same enough).1
  | left =>
    have prev := (Proofs.Ptree.getBeside_stands stands same enough).2
    rwa [List.getLast?_reverse] at prev

theorem lay_next {side : Side} {others rest : List ℕ} {node next : ℕ} :
    ∃ more, lay side (next :: others) node rest = lay side others next more := by
  cases side with
  | right => exact ⟨rest ++ [node], by simp [lay]⟩
  | left => exact ⟨node :: rest, by simp [lay]⟩

/-- The neighbours with the name are looked at, until one is of the task. -/
theorem scan_stands {side : Side} {others rest : List ℕ} {node steps : ℕ} {name : Name} {taskid : ℕ}
    (stands : PtreeChange.Stands tree.heap tree.root ids) (same : ids = lay side others node rest) (enough : ids.length < fuel)
    (more : others.length < steps) : scan kind tree side name taskid fuel steps node =
      some ((others.takeWhile fun other => nameOf kind tree other = name).find? fun other => (tree.element other).taskid = taskid) := by
  induction others generalizing node rest steps with
  | nil =>
    obtain ⟨steps, rfl⟩ : ∃ less, steps = less + 1 := ⟨steps - 1, by omega⟩
    rw [scan, getBeside_lay stands same enough]
    rfl
  | cons next others ih =>
    obtain ⟨steps, rfl⟩ : ∃ less, steps = less + 1 := ⟨steps - 1, by omega⟩
    obtain ⟨after, equal⟩ := @lay_next side others rest node next
    have later := ih (same.trans equal) (by simpa using more : others.length < steps)
    rw [scan, getBeside_lay stands same enough]
    simp only [List.head?_cons, Option.bind_eq_bind, Option.bind_some]
    by_cases here : nameOf kind tree next = name
    · have compared : strcmp name ((tree.element next).name kind) = .eq := strcmp_eq.mpr here.symm
      rw [if_neg (by simp [compared]), List.takeWhile_cons_of_pos (by simpa using here)]
      by_cases task : (tree.element next).taskid = taskid
      · rw [if_pos task, List.find?_cons_of_pos (by simpa using task)]
      · rw [if_neg task, List.find?_cons_of_neg (by simpa using task), later]
    · have compared : strcmp name ((tree.element next).name kind) ≠ .eq := fun equal => here (strcmp_eq.mp equal).symm
      rw [if_pos compared, List.takeWhile_cons_of_neg (by simpa using here)]
      rfl

/-- Where the name of an element goes down to the first ones, the first ones have it. -/
theorem mem_takeWhile {α : Type} {p : α → Bool} {list : List α} {x : α} (member : x ∈ list) (holds : p x = true)
    (down : list.Pairwise fun y z => p z = true → p y = true) : x ∈ list.takeWhile p := by
  induction list with
  | nil => exact absurd member List.not_mem_nil
  | cons head rest ih =>
    obtain ⟨first, others⟩ := List.pairwise_cons.mp down
    rcases List.mem_cons.mp member with rfl | later
    · rw [List.takeWhile_cons_of_pos holds]
      exact List.mem_cons_self
    · rw [List.takeWhile_cons_of_pos (first x later holds)]
      exact List.mem_cons_of_mem _ (ih later others)

/-- The nodes on one side of a node with the name have it up to some place. -/
theorem lay_down {side : Side} {others rest : List ℕ} {node : ℕ} {name : Name} (sorted : (lay side others node rest).Pairwise (InOrder kind tree))
    (here : nameOf kind tree node = name) :
    others.Pairwise fun y z => decide (nameOf kind tree z = name) = true → decide (nameOf kind tree y = name) = true := by
  cases side with
  | right =>
    obtain ⟨-, later, -⟩ := List.pairwise_append.mp sorted
    obtain ⟨first, others⟩ := List.pairwise_cons.mp later
    refine others.imp_of_mem fun {y z} there _ order same => ?_
    rw [decide_eq_true_eq] at same ⊢
    subst same
    exact le_antisymm order (here ▸ first y there)
  | left =>
    obtain ⟨early, -, between⟩ := List.pairwise_append.mp sorted
    rw [List.pairwise_reverse] at early
    refine early.imp_of_mem fun {y z} there _ order same => ?_
    rw [decide_eq_true_eq] at same ⊢
    subst same
    exact le_antisymm (here ▸ between y (List.mem_reverse.mpr there) node List.mem_cons_self) order

/-- A scan that finds nothing has passed no node that is wanted. -/
theorem scan_none {side : Side} {others rest : List ℕ} {node : ℕ} {name : Name} {taskid : ℕ}
    (sorted : (lay side others node rest).Pairwise (InOrder kind tree)) (here : nameOf kind tree node = name)
    (none : ((others.takeWhile fun other => nameOf kind tree other = name).find? fun other => (tree.element other).taskid = taskid) = none) :
    ∀ other ∈ others, nameOf kind tree other = name → (tree.element other).taskid ≠ taskid := by
  intro other member same task
  have inside := mem_takeWhile member (decide_eq_true same) (lay_down sorted here)
  exact List.find?_eq_none.mp none other inside (decide_eq_true task)

theorem scan_some {others : List ℕ} {node : ℕ} {name : Name} {taskid : ℕ}
    (found : ((others.takeWhile fun other => nameOf kind tree other = name).find? fun other => (tree.element other).taskid = taskid) = some node) :
    node ∈ others ∧ Wanted kind tree name taskid node := by
  have inside := List.mem_of_find?_eq_some found
  exact ⟨(List.takeWhile_sublist _).mem inside, by simpa using List.mem_takeWhile_imp inside,
    .inr (by simpa using List.find?_some found)⟩

theorem searchTree_stands (stands : PtreeChange.Stands tree.heap tree.root ids) (sorted : ids.Pairwise (InOrder kind tree))
    (enough : ids.length < fuel) (name : Name) (taskid : ℕ) :
    ∃ result, searchTree kind tree name taskid fuel = some result ∧ Found kind tree ids name taskid result := by
  obtain ⟨first, searched, finds⟩ := search_stands stands (sorted.imp fun order => @follows _ _ name _ _ order) enough.le
  unfold searchTree
  rw [show (fun node => strcmp name ((tree.element node).name kind)) = fun node => strcmp name (nameOf kind tree node) from rfl, searched]
  cases first with
  | none => exact ⟨none, rfl, fun node member wanted => finds node member (strcmp_eq.mpr wanted.1.symm)⟩
  | some node =>
    obtain ⟨member, compared⟩ := finds
    have here : nameOf kind tree node = name := (strcmp_eq.mp compared).symm
    simp only [Option.bind_eq_bind, Option.bind_some]
    by_cases task : taskid = 0 ∨ (tree.element node).taskid = taskid
    · rw [if_pos task]
      exact ⟨some node, rfl, member, here, task⟩
    · rw [if_neg task]
      obtain ⟨early, late, rfl⟩ := List.append_of_mem member
      have left : early ++ node :: late = lay .left early.reverse node late := by rw [lay, List.reverse_reverse]
      have right : early ++ node :: late = lay .right late node early := rfl
      have lengths : (early ++ node :: late).length = early.length + late.length + 1 := by simp; omega
      rw [scan_stands stands left enough (by rw [List.length_reverse]; omega), scan_stands stands right enough (by omega)]
      simp only [Option.bind_some]
      cases before : (early.reverse.takeWhile fun other => nameOf kind tree other = name).find?
          (fun other => (tree.element other).taskid = taskid) with
      | some other =>
        have found := scan_some before
        exact ⟨some other, rfl, List.mem_append_left _ (List.mem_reverse.mp found.1), found.2⟩
      | none =>
        refine ⟨_, rfl, ?_⟩
        cases behind : (late.takeWhile fun other => nameOf kind tree other = name).find?
            (fun other => (tree.element other).taskid = taskid) with
        | some other =>
          have found := scan_some behind
          exact ⟨List.mem_append_right _ (List.mem_cons_of_mem _ found.1), found.2⟩
        | none =>
          rintro other there ⟨same, none | own⟩
          · exact task (.inl none)
          · rcases List.mem_append.mp there with earlier | rest
            · exact scan_none (left ▸ sorted) here before other (List.mem_reverse.mpr earlier) same own
            · rcases List.mem_cons.mp rest with rfl | later
              · exact task (.inr own)
              · exact scan_none (right ▸ sorted) here behind other later same own

/-- The comparisons that are made on the way of a new element are true of the names. -/
def Agrees (kind : Kind) (tree : Tree) (nameoff fuel : ℕ) (element : Element) : Prop :=
  ∀ id ∈ met (goesLeft kind tree nameoff element) fuel tree.heap tree.root,
    (goesLeft kind tree nameoff element id = true → Le (element.name kind) (nameOf kind tree id)) ∧
      (goesLeft kind tree nameoff element id = false → Le (nameOf kind tree id) (element.name kind))

/-- They are, when the names are what is compared. -/
theorem agrees_own (element : Element) : Agrees kind tree (nameOffset kind) fuel element := by
  intro id _
  unfold goesLeft
  rw [decide_eq_true_eq, decide_eq_false_iff_not]
  exact ⟨le_of_lt, le_of_not_lt⟩

theorem nameOf_update {heap : Heap} {root : Option ℕ} {newnode id : ℕ} {element : Element} (other : id ≠ newnode) :
    nameOf kind ⟨heap, root, Function.update tree.element newnode element⟩ id = nameOf kind tree id := by
  unfold nameOf
  dsimp only
  rw [Function.update_of_ne other]

theorem nameOf_new {heap : Heap} {root : Option ℕ} {newnode : ℕ} {element : Element} :
    nameOf kind ⟨heap, root, Function.update tree.element newnode element⟩ newnode = element.name kind := by
  unfold nameOf
  dsimp only
  rw [Function.update_self]

/-- The tree is sorted with a new element if and only if the comparisons were true of the names. -/
theorem insertIntoTree_stands {nameoff newnode : ℕ} {element : Element} (stands : PtreeChange.Stands tree.heap tree.root ids)
    (sorted : ids.Pairwise (InOrder kind tree)) (fresh : newnode ∉ ids) (enough : ids.length < fuel) :
    ∃ after more, insertIntoTree kind tree nameoff fuel newnode element = some after ∧ PtreeChange.Stands after.heap after.root more ∧
      more.Perm (newnode :: ids) ∧ (more.Pairwise (InOrder kind after) ↔ Agrees kind tree nameoff fuel element) := by
  obtain ⟨heap, root, more, inserted, result, placed⟩ :=
    @insert_stands (goesLeft kind tree nameoff element) newnode tree.heap fuel tree.root ids stands fresh enough
  have apart : ∀ id ∈ ids, id ≠ newnode := fun id member same => fresh (same ▸ member)
  have old : ids.Pairwise (InOrder kind ⟨heap, root, Function.update tree.element newnode element⟩) :=
    sorted.imp_of_mem fun {x y} first second order => by
      unfold InOrder
      rwa [nameOf_update (apart x first), nameOf_update (apart y second)]
  refine ⟨⟨heap, root, Function.update tree.element newnode element⟩, more, ?_, result, placed.perm, ?_⟩
  · rw [insertIntoTree, inserted]
    rfl
  · rw [placed.pairwise (InOrder kind ⟨heap, root, Function.update tree.element newnode element⟩) (fun x y z => le_trans) old]
    refine forall₂_congr fun id member => ?_
    have inside := apart id (met_subset stands enough.le id member)
    unfold InOrder
    rw [nameOf_new, nameOf_update inside]

theorem deleteFromTree_stands {node : ℕ} (stands : PtreeChange.Stands tree.heap tree.root ids) (sorted : ids.Pairwise (InOrder kind tree))
    (there : node ∈ ids) (enough : ids.length < fuel) : ∃ after, deleteFromTree tree fuel node = some after ∧
      PtreeChange.Stands after.heap after.root (ids.erase node) ∧ (ids.erase node).Pairwise (InOrder kind after) := by
  obtain ⟨heap, root, deleted, result⟩ := PtreeChange.getDel_stands stands there enough
  refine ⟨⟨heap, root, tree.element⟩, ?_, result, ?_⟩
  · rw [deleteFromTree, deleted]
    rfl
  · exact sorted.sublist List.erase_sublist

end Tree

/-! Runs of operations. -/

/-- The operation adds a new node, or takes away one that is there. -/
def Valid (live : List ℕ) : Op → Prop
  | .add _ newnode _ => newnode ∉ live
  | .injectCreat newnode _ => newnode ∉ live
  | .injectUnlink newnode _ => newnode ∉ live
  | .del _ node => node ∈ live

/-- The nodes of the tree after the operation, in some order. -/
def livesOn (live : List ℕ) : Op → List ℕ
  | .add _ newnode _ => newnode :: live
  | .injectCreat newnode _ => newnode :: live
  | .injectUnlink newnode _ => newnode :: live
  | .del _ node => live.erase node

/-- The branch that goes wrong: an entry is compared by what is at the place of a name in other entries. -/
def Fits (fuel : ℕ) (folder : Folder) : Op → Prop
  | .injectUnlink _ element => Agrees .unlink (folder .unlink) (nameOffset .creat) fuel element
  | _ => True

/-- The states of a folder whose trees were empty, with the nodes in each of them. `allowed` is what the steps meet. -/
inductive Run (allowed : ℕ → Folder → Op → Prop) : Folder → (Kind → List ℕ) → Prop
  | start {folder : Folder} (empty : ∀ kind, (folder kind).root = none) : Run allowed folder fun _ => []
  | step {folder after : Folder} {live : Kind → List ℕ} (op : Op) (before : Run allowed folder live) (valid : Valid (live op.kind) op)
      (meets : allowed ((live op.kind).length + 1) folder op) (ran : apply ((live op.kind).length + 1) folder op = some after) :
      Run allowed after (Function.update live op.kind (livesOn (live op.kind) op))

/-- What a tree of a folder is for. -/
structure Sorted (kind : Kind) (tree : Tree) (live : List ℕ) : Prop where
  sorted : ∃ ids, ids.Perm live ∧ PtreeChange.Stands tree.heap tree.root ids ∧ ids.Pairwise (InOrder kind tree)
  finds : ∀ name taskid fuel, live.length < fuel →
    ∃ result, searchTree kind tree name taskid fuel = some result ∧ Found kind tree live name taskid result

theorem sorted_of_stands {kind : Kind} {tree : Tree} {ids live : List ℕ} (perm : ids.Perm live)
    (stands : PtreeChange.Stands tree.heap tree.root ids) (order : ids.Pairwise (InOrder kind tree)) : Sorted kind tree live := by
  refine ⟨⟨ids, perm, stands, order⟩, fun name taskid fuel enough => ?_⟩
  obtain ⟨result, searched, found⟩ := searchTree_stands stands order (perm.length_eq ▸ enough) name taskid
  refine ⟨result, searched, ?_⟩
  cases result with
  | some node => exact ⟨perm.mem_iff.mp found.1, found.2⟩
  | none => exact fun node member => found node (perm.mem_iff.mpr member)

theorem insert_sorted {kind : Kind} {tree after : Tree} {live : List ℕ} {nameoff newnode : ℕ} {element : Element}
    (sorted : Sorted kind tree live) (fresh : newnode ∉ live) (agrees : Agrees kind tree nameoff (live.length + 1) element)
    (ran : insertIntoTree kind tree nameoff (live.length + 1) newnode element = some after) : Sorted kind after (newnode :: live) := by
  obtain ⟨ids, perm, stands, order⟩ := sorted.sorted
  obtain ⟨final, more, inserted, result, permMore, iff⟩ := insertIntoTree_stands stands order (fun member => fresh (perm.mem_iff.mp member))
    (by rw [perm.length_eq]; exact Nat.lt_succ_self _ : ids.length < live.length + 1)
  cases ran.symm.trans inserted
  exact sorted_of_stands (permMore.trans (perm.cons newnode)) result (iff.mpr agrees)

theorem delete_sorted {kind : Kind} {tree after : Tree} {live : List ℕ} {node : ℕ} (sorted : Sorted kind tree live) (there : node ∈ live)
    (ran : deleteFromTree tree (live.length + 1) node = some after) : Sorted kind after (live.erase node) := by
  obtain ⟨ids, perm, stands, order⟩ := sorted.sorted
  obtain ⟨final, deleted, result, orderAfter⟩ := deleteFromTree_stands stands order (perm.mem_iff.mpr there)
    (by rw [perm.length_eq]; exact Nat.lt_succ_self _ : ids.length < live.length + 1)
  cases ran.symm.trans deleted
  exact sorted_of_stands (perm.erase node) result orderAfter

/-- What one step does to its tree. -/
theorem change_sorted {folder : Folder} {after : Tree} {live : List ℕ} (op : Op) (sorted : Sorted op.kind (folder op.kind) live)
    (valid : Valid live op) (fits : Fits (live.length + 1) folder op) (ran : op.change (live.length + 1) (folder op.kind) = some after) :
    Sorted op.kind after (livesOn live op) := by
  cases op with
  | add kind newnode element => exact insert_sorted sorted valid (agrees_own element) ran
  | injectCreat newnode element => exact insert_sorted sorted valid (agrees_own element) ran
  | injectUnlink newnode element => exact insert_sorted sorted valid fits ran
  | del kind node => exact delete_sorted sorted valid ran

theorem sorted_empty {kind : Kind} {tree : Tree} (empty : tree.root = none) : Sorted kind tree [] :=
  sorted_of_stands (List.Perm.refl []) ⟨.nil, empty, trivial, trivial, rfl, List.nodup_nil⟩ List.Pairwise.nil

/-- No tree has a node. -/
def noTasks : Folder := fun _ => ⟨fun _ => ⟨none, none, none, 0⟩, none, fun _ => ⟨0, []⟩⟩

end Pclsync.Proofs.NamedTrees
