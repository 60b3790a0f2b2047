import Mathlib

/-! Sorting from the bottom up with a comparator that need not be an order, and what two sorted lists
have in common. What a sort keeps of its input is stated for the items that compare equal with any
one of them: they stay as they were. -/

namespace Pclsync.Library.Sorting

variable {α : Type} (cmp : α → α → ℤ)

/-- The comparator is a total preorder on some items. -/
structure Ordered (items : Set α) : Prop where
  swap : ∀ x ∈ items, ∀ y ∈ items, 0 < cmp x y ↔ cmp y x < 0
  trans : ∀ x ∈ items, ∀ y ∈ items, ∀ z ∈ items, cmp x y ≤ 0 → cmp y z ≤ 0 → cmp x z ≤ 0

def le (x y : α) : Bool := cmp x y ≤ 0

/-- The items that compare equal. -/
def same (x y : α) : Bool := cmp x y = 0

def Sorted (list : List α) : Prop := list.Pairwise fun x y => cmp x y ≤ 0

/-- One pass of a sort: neighbouring runs of `2 ^ level` items are merged. It counts the pairs of
runs. -/
def pass (level : ℕ) (list : List α) : List α × ℕ :=
  if list = [] then ([], 0)
  else if list.drop (2 ^ level) = [] then (list, 1)
  else
    ((list.take (2 ^ level)).merge ((list.drop (2 ^ level)).take (2 ^ level)) (le cmp) ++
      (pass level (list.drop (2 ^ level + 2 ^ level))).1, (pass level (list.drop (2 ^ level + 2 ^ level))).2 + 1)
termination_by list.length
decreasing_by
  all_goals
    have positive : 0 < list.length := List.length_pos_of_ne_nil (by assumption)
    have run : 0 < 2 ^ level := Nat.two_pow_pos level
    rw [List.length_drop]
    omega

variable {cmp} {level : ℕ}

theorem pass_nil : pass cmp level [] = ([], 0) := by
  rw [pass, if_pos rfl]

theorem pass_short {list : List α} (nonempty : list ≠ []) (short : list.drop (2 ^ level) = []) : pass cmp level list = (list, 1) := by
  rw [pass, if_neg nonempty, if_pos short]

theorem pass_long {list : List α} (long : list.drop (2 ^ level) ≠ []) : pass cmp level list =
    ((list.take (2 ^ level)).merge ((list.drop (2 ^ level)).take (2 ^ level)) (le cmp) ++
      (pass cmp level (list.drop (2 ^ level + 2 ^ level))).1, (pass cmp level (list.drop (2 ^ level + 2 ^ level))).2 + 1) := by
  have nonempty : list ≠ [] := fun empty => long (by rw [empty, List.drop_nil])
  rw [pass, if_neg nonempty, if_neg long]

theorem split_runs (list : List α) (run : ℕ) : list.take run ++ ((list.drop run).take run ++ list.drop (run + run)) = list := by
  rw [← List.drop_drop, List.take_append_drop, List.take_append_drop]

theorem pass_perm (list : List α) : (pass cmp level list).1.Perm list := by
  induction list using pass.induct level with
  | case1 => rw [pass_nil]
  | case2 list nonempty short => rw [pass_short nonempty short]
  | case3 list _ long ih =>
    have merged : ((list.take (2 ^ level)).merge ((list.drop (2 ^ level)).take (2 ^ level)) (le cmp) ++ _).Perm _ :=
      (List.merge_perm_append (le cmp)).append ih
    rw [List.append_assoc, split_runs] at merged
    rw [pass_long long]
    exact merged

theorem pass_length (list : List α) : (pass cmp level list).1.length = list.length := (pass_perm list).length_eq

/-- More than one pair of runs. -/
theorem two_pow_lt_length {list : List α} (many : 1 < (pass cmp level list).2) : 2 ^ level + 2 ^ level < list.length := by
  by_contra few
  by_cases long : list.drop (2 ^ level) = []
  · by_cases nonempty : list = []
    · rw [nonempty, pass_nil] at many
      exact Nat.not_lt_zero 1 many
    · rw [pass_short nonempty long] at many
      exact Nat.lt_irrefl 1 many
  · have last : list.drop (2 ^ level + 2 ^ level) = [] := List.drop_eq_nil_of_le (Nat.not_lt.mp few)
    rw [pass_long long, last, pass_nil] at many
    exact Nat.lt_irrefl 1 many

variable (cmp)

/-- Passes with longer and longer runs, until there is one pair of them. -/
def sortFrom (level : ℕ) (list : List α) : List α :=
  if 1 < (pass cmp level list).2 then sortFrom (level + 1) (pass cmp level list).1 else (pass cmp level list).1
termination_by list.length - level
decreasing_by
  have many := two_pow_lt_length (by assumption)
  have small := Nat.lt_two_pow_self (n := level)
  rw [pass_length]
  omega

def sort (list : List α) : List α := sortFrom cmp 0 list

variable {cmp} {items : Set α}

theorem le_eq {x y : α} : le cmp x y = true ↔ cmp x y ≤ 0 := decide_eq_true_iff

namespace Ordered

variable (ordered : Ordered cmp items)
include ordered

theorem subset {fewer : Set α} (within : fewer ⊆ items) : Ordered cmp fewer where
  swap x first y second := ordered.swap x (within first) y (within second)
  trans x first y second z third := ordered.trans x (within first) y (within second) z (within third)

theorem congr {other : α → α → ℤ} (agree : ∀ x ∈ items, ∀ y ∈ items, cmp x y = other x y) : Ordered other items where
  swap x first y second := by
    rw [← agree x first y second, ← agree y second x first]
    exact ordered.swap x first y second
  trans x first y second z third := by
    rw [← agree x first y second, ← agree y second z third, ← agree x first z third]
    exact ordered.trans x first y second z third

theorem self {x : α} (member : x ∈ items) : cmp x x = 0 := by
  have := ordered.swap x member x member
  omega

theorem zero_comm {x y : α} (first : x ∈ items) (second : y ∈ items) : cmp x y = 0 ↔ cmp y x = 0 := by
  have one := ordered.swap x first y second
  have two := ordered.swap y second x first
  omega

/-- An item before one that compares equal with a third is before that one. -/
theorem lt_of_lt_of_le {x y z : α} (first : x ∈ items) (second : y ∈ items) (third : z ∈ items) (less : cmp x y < 0)
    (next : cmp y z ≤ 0) : cmp x z < 0 := by
  by_contra later
  have back : cmp z x ≤ 0 := by
    have := ordered.swap z third x first
    omega
  have around := ordered.trans y second z third x first next back
  have := ordered.swap y second x first
  omega

theorem lt_of_le_of_lt {x y z : α} (first : x ∈ items) (second : y ∈ items) (third : z ∈ items) (less : cmp x y ≤ 0)
    (next : cmp y z < 0) : cmp x z < 0 := by
  by_contra later
  have back : cmp z x ≤ 0 := by
    have := ordered.swap z third x first
    omega
  have around := ordered.trans z third x first y second back less
  have := ordered.swap z third y second
  omega

end Ordered

theorem merge_sorted (ordered : Ordered cmp items) {left right : List α} (leftIn : ∀ x ∈ left, x ∈ items)
    (rightIn : ∀ x ∈ right, x ∈ items) (leftSorted : Sorted cmp left) (rightSorted : Sorted cmp right) :
    Sorted cmp (left.merge right (le cmp)) := by
  induction left generalizing right with
  | nil => rwa [List.nil_merge]
  | cons x left outer =>
    induction right with
    | nil => rwa [List.merge_right]
    | cons y right inner =>
      have here := leftIn x List.mem_cons_self
      have there := rightIn y List.mem_cons_self
      rw [List.cons_merge_cons]
      split
      next first =>
        rw [le_eq] at first
        refine List.Pairwise.cons (fun z member => ?_)
          (outer (fun x member => leftIn x (List.mem_cons_of_mem _ member)) rightIn leftSorted.tail rightSorted)
        rcases List.mem_merge.mp member with old | new
        · exact List.rel_of_pairwise_cons leftSorted old
        · rcases List.mem_cons.mp new with rfl | later
          · exact first
          · exact ordered.trans x here y there z (rightIn z new) first (List.rel_of_pairwise_cons rightSorted later)
      next second =>
        rw [le_eq] at second
        have before : cmp y x ≤ 0 := by
          have := ordered.swap x here y there
          omega
        refine List.Pairwise.cons (fun z member => ?_)
          (inner (fun y member => rightIn y (List.mem_cons_of_mem _ member)) rightSorted.tail)
        rcases List.mem_merge.mp member with old | new
        · rcases List.mem_cons.mp old with rfl | later
          · exact before
          · exact ordered.trans y there x here z (leftIn z old) before (List.rel_of_pairwise_cons leftSorted later)
        · exact List.rel_of_pairwise_cons rightSorted new

/-- What compares equal with an item that is before all of a list is not in it. -/
theorem filter_same_eq_nil (ordered : Ordered cmp items) {x y : α} {list : List α} {c : α} (second : x ∈ items)
    (third : c ∈ items) (inside : y ∈ items) (listIn : ∀ z ∈ list, z ∈ items) (before : cmp y x < 0)
    (after : ∀ z ∈ list, cmp x z ≤ 0) (equal : same cmp c y = true) : list.filter (same cmp c) = [] := by
  rw [List.filter_eq_nil_iff]
  intro z member also
  rw [same, decide_eq_true_eq] at equal also
  have one := ordered.lt_of_lt_of_le inside second (listIn z member) before (after z member)
  have back := (ordered.zero_comm third inside).mp equal
  have := ordered.trans z (listIn z member) c third y inside
    (by rw [(ordered.zero_comm third (listIn z member)).mp also]) (by rw [equal])
  have := ordered.swap z (listIn z member) y inside
  omega

theorem merge_filter (ordered : Ordered cmp items) {left right : List α} {c : α} (third : c ∈ items)
    (leftIn : ∀ x ∈ left, x ∈ items) (rightIn : ∀ x ∈ right, x ∈ items) (leftSorted : Sorted cmp left) :
    (left.merge right (le cmp)).filter (same cmp c) = left.filter (same cmp c) ++ right.filter (same cmp c) := by
  induction left generalizing right with
  | nil => rw [List.nil_merge, List.filter_nil, List.nil_append]
  | cons x left outer =>
    induction right with
    | nil => rw [List.merge_right, List.filter_nil, List.append_nil]
    | cons y right inner =>
      have here := leftIn x List.mem_cons_self
      have there := rightIn y List.mem_cons_self
      rw [List.cons_merge_cons]
      split
      next first =>
        rw [List.filter_cons, List.filter_cons,
          outer (fun x member => leftIn x (List.mem_cons_of_mem _ member)) rightIn leftSorted.tail]
        split <;> rfl
      next second =>
        rw [le_eq] at second
        rw [List.filter_cons, inner (fun y member => rightIn y (List.mem_cons_of_mem _ member))]
        split
        next equal =>
          have before : cmp y x < 0 := by
            have := ordered.swap x here y there
            omega
          have none : (x :: left).filter (same cmp c) = [] := by
            refine filter_same_eq_nil ordered here third there leftIn before (fun z member => ?_) equal
            rcases List.mem_cons.mp member with rfl | later
            · rw [ordered.self here]
            · exact List.rel_of_pairwise_cons leftSorted later
          rw [none, List.nil_append, List.nil_append, List.filter_cons, if_pos equal]
        next differ => rw [List.filter_cons_of_neg (a := y) differ]

variable (cmp) in
/-- A list of sorted runs of one size, of which the last may be shorter. -/
inductive Runs (size : ℕ) : List α → Prop
  | last {run : List α} (sorted : Sorted cmp run) (short : run.length ≤ size) : Runs size run
  | more {run rest : List α} (sorted : Sorted cmp run) (full : run.length = size) (others : Runs size rest) : Runs size (run ++ rest)

theorem Runs.take {size : ℕ} {list : List α} (runs : Runs cmp size list) : Sorted cmp (list.take size) := by
  cases runs with
  | last sorted short => rwa [List.take_of_length_le short]
  | more sorted full others => rwa [List.take_left' full]

theorem Runs.drop {size : ℕ} {list : List α} (runs : Runs cmp size list) : Runs cmp size (list.drop size) := by
  cases runs with
  | last sorted short =>
    rw [List.drop_eq_nil_of_le short]
    exact .last List.Pairwise.nil (Nat.zero_le _)
  | more sorted full others => rwa [List.drop_left' full]

theorem runs_one (list : List α) : Runs cmp (2 ^ 0) list := by
  induction list with
  | nil => exact .last List.Pairwise.nil (Nat.zero_le _)
  | cons head rest ih => exact @Runs.more _ cmp _ [head] rest (List.pairwise_singleton _ _) rfl ih

theorem mem_take_drop {list : List α} {start count : ℕ} {x : α} (member : x ∈ (list.drop start).take count) : x ∈ list :=
  List.mem_of_mem_drop (List.mem_of_mem_take member)

theorem pass_runs (ordered : Ordered cmp items) {list : List α} (within : ∀ x ∈ list, x ∈ items) (runs : Runs cmp (2 ^ level) list) :
    Runs cmp (2 ^ (level + 1)) (pass cmp level list).1 := by
  have double : 2 ^ (level + 1) = 2 ^ level + 2 ^ level := by
    rw [pow_succ]
    omega
  induction list using pass.induct level with
  | case1 =>
    rw [pass_nil]
    exact .last List.Pairwise.nil (Nat.zero_le _)
  | case2 list nonempty short =>
    have few : list.length ≤ 2 ^ level := List.drop_eq_nil_iff.mp short
    rw [pass_short nonempty short]
    exact .last (List.take_of_length_le few ▸ runs.take) (by dsimp only; omega)
  | case3 list _ long ih =>
    have sorted : Sorted cmp ((list.take (2 ^ level)).merge ((list.drop (2 ^ level)).take (2 ^ level)) (le cmp)) :=
      merge_sorted ordered (fun x member => within x (List.mem_of_mem_take member)) (fun x member => within x (mem_take_drop member))
        runs.take runs.drop.take
    have length : ((list.take (2 ^ level)).merge ((list.drop (2 ^ level)).take (2 ^ level)) (le cmp)).length =
        min (2 ^ (level + 1)) list.length := by
      rw [List.length_merge, List.length_take, List.length_take, List.length_drop]
      omega
    have rest := ih (fun x member => within x (List.mem_of_mem_drop member)) (by rw [← List.drop_drop]; exact runs.drop.drop)
    rw [pass_long long]
    by_cases full : 2 ^ (level + 1) ≤ list.length
    · exact .more sorted (by rw [length]; omega) rest
    · have last : list.drop (2 ^ level + 2 ^ level) = [] := List.drop_eq_nil_of_le (by omega)
      rw [last, pass_nil, List.append_nil]
      exact .last sorted (by rw [length]; omega)

theorem pass_filter (ordered : Ordered cmp items) {list : List α} {c : α} (third : c ∈ items) (within : ∀ x ∈ list, x ∈ items)
    (runs : Runs cmp (2 ^ level) list) : (pass cmp level list).1.filter (same cmp c) = list.filter (same cmp c) := by
  induction list using pass.induct level with
  | case1 => rw [pass_nil]
  | case2 list nonempty short => rw [pass_short nonempty short]
  | case3 list _ long ih =>
    have rest := ih (fun x member => within x (List.mem_of_mem_drop member)) (by rw [← List.drop_drop]; exact runs.drop.drop)
    rw [pass_long long, List.filter_append, rest, merge_filter ordered third (fun x member => within x (List.mem_of_mem_take member))
      (fun x member => within x (mem_take_drop member)) runs.take, List.append_assoc, ← List.filter_append, ← List.filter_append,
      split_runs]

theorem one_pair {list : List α} (few : (pass cmp level list).2 ≤ 1) : list.length ≤ 2 ^ level + 2 ^ level := by
  by_contra many
  have positive := Nat.two_pow_pos level
  have nonempty : ∀ {size : ℕ}, size < list.length → list.drop size ≠ [] := fun more empty => by
    rw [List.drop_eq_nil_iff] at empty
    omega
  rw [pass_long (nonempty (by omega))] at few
  have some : 1 ≤ (pass cmp level (list.drop (2 ^ level + 2 ^ level))).2 := by
    by_cases short : (list.drop (2 ^ level + 2 ^ level)).drop (2 ^ level) = []
    · rw [pass_short (nonempty (by omega)) short]
    · rw [pass_long short]
      exact Nat.le_add_left 1 _
  dsimp only at few
  omega

theorem sortFrom_perm (level : ℕ) (list : List α) : (sortFrom cmp level list).Perm list := by
  induction level, list using sortFrom.induct cmp with
  | case1 level list many ih =>
    rw [sortFrom, if_pos many]
    exact ih.trans (pass_perm list)
  | case2 level list few =>
    rw [sortFrom, if_neg few]
    exact pass_perm list

theorem sortFrom_sorted (ordered : Ordered cmp items) {level : ℕ} {list : List α} (within : ∀ x ∈ list, x ∈ items)
    (runs : Runs cmp (2 ^ level) list) : Sorted cmp (sortFrom cmp level list) := by
  induction level, list using sortFrom.induct cmp with
  | case1 level list many ih =>
    rw [sortFrom, if_pos many]
    exact ih (fun x member => within x ((pass_perm list).mem_iff.mp member)) (pass_runs ordered within runs)
  | case2 level list few =>
    have short := one_pair (Nat.not_lt.mp few)
    have whole := (pass_runs ordered within runs).take
    rw [List.take_of_length_le (by rw [pass_length, pow_succ]; omega)] at whole
    rw [sortFrom, if_neg few]
    exact whole

theorem sortFrom_filter (ordered : Ordered cmp items) {c : α} (third : c ∈ items) {level : ℕ} {list : List α}
    (within : ∀ x ∈ list, x ∈ items) (runs : Runs cmp (2 ^ level) list) :
    (sortFrom cmp level list).filter (same cmp c) = list.filter (same cmp c) := by
  induction level, list using sortFrom.induct cmp with
  | case1 level list many ih =>
    rw [sortFrom, if_pos many, ih (fun x member => within x ((pass_perm list).mem_iff.mp member)) (pass_runs ordered within runs),
      pass_filter ordered third within runs]
  | case2 level list few => rw [sortFrom, if_neg few, pass_filter ordered third within runs]

theorem sort_perm (list : List α) : (sort cmp list).Perm list := sortFrom_perm 0 list

theorem sort_sorted (ordered : Ordered cmp items) {list : List α} (within : ∀ x ∈ list, x ∈ items) : Sorted cmp (sort cmp list) :=
  sortFrom_sorted ordered within (runs_one list)

/-- Some item is before all others. -/
theorem Ordered.exists_first {list : List α} (ordered : Ordered cmp {item | item ∈ list}) (nonempty : list ≠ []) :
    ∃ first ∈ list, ∀ item ∈ list, cmp first item ≤ 0 := by
  have sorted := sort_sorted ordered (fun _ member => member : ∀ item ∈ list, item ∈ _)
  have perm : (sort cmp list).Perm list := sort_perm list
  cases found : sort cmp list with
  | nil =>
    rw [found] at perm
    exact absurd perm.nil_eq.symm nonempty
  | cons first rest =>
    rw [found] at sorted perm
    have member := perm.mem_iff.mp List.mem_cons_self
    refine ⟨first, member, fun item there => ?_⟩
    rcases List.mem_cons.mp (perm.mem_iff.mpr there) with rfl | later
    · rw [ordered.self member]
    · exact List.rel_of_pairwise_cons sorted later

/-- The sort is stable. -/
theorem sort_filter (ordered : Ordered cmp items) {list : List α} (within : ∀ x ∈ list, x ∈ items) {c : α} (third : c ∈ items) :
    (sort cmp list).filter (same cmp c) = list.filter (same cmp c) :=
  sortFrom_filter ordered third within (runs_one list)

/-- What is taken out of two lists, and what is left in them. -/
structure Extracted (α : Type) where
  extracted1 : List α
  extracted2 : List α
  list1 : List α
  list2 : List α
deriving DecidableEq, Repr

namespace Extracted

/-- An item stays in its list, or two items are taken out. -/
def keep1 (x : α) (rest : Extracted α) : Extracted α := { rest with list1 := x :: rest.list1 }
def keep2 (y : α) (rest : Extracted α) : Extracted α := { rest with list2 := y :: rest.list2 }
def take (x y : α) (rest : Extracted α) : Extracted α :=
  { rest with extracted1 := x :: rest.extracted1, extracted2 := y :: rest.extracted2 }

end Extracted

variable (cmp) in
/-- Items that compare equal are taken out of both lists while these are walked together. -/
def extract : List α → List α → Extracted α
  | [], list2 => ⟨[], [], [], list2⟩
  | x :: list1, [] => ⟨[], [], x :: list1, []⟩
  | x :: list1, y :: list2 =>
    if cmp x y < 0 then (extract list1 (y :: list2)).keep1 x
    else if 0 < cmp x y then (extract (x :: list1) list2).keep2 y
    else (extract list1 list2).take x y
termination_by list1 list2 => list1.length + list2.length

/-- `psync_list_extract_repeating`, in terms of the items. -/
def extractRepeating (cmp : α → α → ℤ) (list1 list2 : List α) : Extracted α := extract cmp (sort cmp list1) (sort cmp list2)

/-- The items that compare equal with one of them, in the order that they had: the first ones of each
list are taken out, as many as both lists have. -/
structure Split (cmp : α → α → ℤ) (list1 list2 : List α) (c : α) (result : Extracted α) : Prop where
  extracted1 : result.extracted1.filter (same cmp c) = (list1.filter (same cmp c)).take (list2.filter (same cmp c)).length
  extracted2 : result.extracted2.filter (same cmp c) = (list2.filter (same cmp c)).take (list1.filter (same cmp c)).length
  left1 : result.list1.filter (same cmp c) = (list1.filter (same cmp c)).drop (list2.filter (same cmp c)).length
  left2 : result.list2.filter (same cmp c) = (list2.filter (same cmp c)).drop (list1.filter (same cmp c)).length
  pairs : ((result.extracted1.zip result.extracted2).filter fun pair => same cmp c pair.1) =
    (list1.filter (same cmp c)).zip (list2.filter (same cmp c))

namespace Split

variable {list1 list2 : List α} {c x y : α} {result : Extracted α}

theorem keep1 (rest : Split cmp list1 list2 c result) (alone : same cmp c x = true → list2.filter (same cmp c) = []) :
    Split cmp (x :: list1) list2 c (result.keep1 x) := by
  obtain ⟨one, two, three, four, five⟩ := rest
  by_cases equal : same cmp c x = true
  · have none := alone equal
    constructor <;> rw [none]
    · exact one.trans (by rw [none, List.length_nil, List.take_zero, List.take_zero])
    · exact two.trans (by rw [none, List.take_nil, List.take_nil])
    · rw [none, List.length_nil, List.drop_zero] at three
      rw [List.length_nil, List.drop_zero, List.filter_cons_of_pos equal, ← three]
      exact List.filter_cons_of_pos equal
    · exact four.trans (by rw [none, List.drop_nil, List.drop_nil])
    · exact five.trans (by rw [none, List.zip_nil_right, List.zip_nil_right])
  · have skip : (x :: list1).filter (same cmp c) = list1.filter (same cmp c) := List.filter_cons_of_neg equal
    constructor <;> rw [skip]
    · exact one
    · exact two
    · exact (List.filter_cons_of_neg equal).trans three
    · exact four
    · exact five

theorem keep2 (rest : Split cmp list1 list2 c result) (alone : same cmp c y = true → list1.filter (same cmp c) = []) :
    Split cmp list1 (y :: list2) c (result.keep2 y) := by
  obtain ⟨one, two, three, four, five⟩ := rest
  by_cases equal : same cmp c y = true
  · have none := alone equal
    constructor <;> rw [none]
    · exact one.trans (by rw [none, List.take_nil, List.take_nil])
    · exact two.trans (by rw [none, List.length_nil, List.take_zero, List.take_zero])
    · exact three.trans (by rw [none, List.drop_nil, List.drop_nil])
    · rw [none, List.length_nil, List.drop_zero] at four
      rw [List.length_nil, List.drop_zero, List.filter_cons_of_pos equal, ← four]
      exact List.filter_cons_of_pos equal
    · exact five.trans (by rw [none, List.zip_nil_left, List.zip_nil_left])
  · have skip : (y :: list2).filter (same cmp c) = list2.filter (same cmp c) := List.filter_cons_of_neg equal
    constructor <;> rw [skip]
    · exact one
    · exact two
    · exact three
    · exact (List.filter_cons_of_neg equal).trans four
    · exact five

theorem take (rest : Split cmp list1 list2 c result) (equals : same cmp c x = same cmp c y) :
    Split cmp (x :: list1) (y :: list2) c (result.take x y) := by
  obtain ⟨one, two, three, four, five⟩ := rest
  cases equal : same cmp c x with
  | true =>
    have also : same cmp c y = true := equals ▸ equal
    constructor <;> simp_all [Extracted.take]
  | false =>
    have also : same cmp c y = false := equals ▸ equal
    constructor <;> simp_all [Extracted.take]

end Split

theorem same_right (ordered : Ordered cmp items) {x y c : α} (here : x ∈ items) (there : y ∈ items) (third : c ∈ items)
    (equal : cmp x y = 0) : same cmp c x = same cmp c y := by
  have back := (ordered.zero_comm here there).mp equal
  have one := ordered.trans c third x here y there
  have two := ordered.trans c third y there x here
  have three := ordered.trans x here y there c third
  have four := ordered.trans y there x here c third
  have zeroX := ordered.zero_comm third here
  have zeroY := ordered.zero_comm third there
  have swapX := ordered.swap x here c third
  have swapY := ordered.swap y there c third
  have iff : cmp c x = 0 ↔ cmp c y = 0 := by omega
  simp only [same, iff]

theorem filter_same_later (ordered : Ordered cmp items) {x y c : α} {list : List α} (here : x ∈ items) (third : c ∈ items)
    (within : ∀ z ∈ y :: list, z ∈ items) (sorted : Sorted cmp (y :: list)) (before : cmp x y < 0)
    (equal : same cmp c x = true) : (y :: list).filter (same cmp c) = [] := by
  have there := within y List.mem_cons_self
  refine filter_same_eq_nil ordered there third here within before (fun z member => ?_) equal
  rcases List.mem_cons.mp member with rfl | later
  · rw [ordered.self there]
  · exact List.rel_of_pairwise_cons sorted later

theorem extract_split (ordered : Ordered cmp items) {list1 list2 : List α} {c : α} (third : c ∈ items)
    (within1 : ∀ x ∈ list1, x ∈ items) (within2 : ∀ x ∈ list2, x ∈ items) (sorted1 : Sorted cmp list1) (sorted2 : Sorted cmp list2) :
    Split cmp list1 list2 c (extract cmp list1 list2) := by
  induction list1, list2 using extract.induct cmp with
  | case1 list2 =>
    rw [extract]
    constructor <;> simp
  | case2 x list1 =>
    rw [extract]
    constructor <;> simp
  | case3 x list1 y list2 less ih =>
    have rest := ih (fun x member => within1 x (List.mem_cons_of_mem _ member)) within2 sorted1.tail sorted2
    rw [extract, if_pos less]
    exact rest.keep1 (filter_same_later ordered (within1 x List.mem_cons_self) third within2 sorted2 less)
  | case4 x list1 y list2 notLess more ih =>
    have rest := ih within1 (fun x member => within2 x (List.mem_cons_of_mem _ member)) sorted1 sorted2.tail
    have less : cmp y x < 0 := (ordered.swap x (within1 x List.mem_cons_self) y (within2 y List.mem_cons_self)).mp more
    rw [extract, if_neg notLess, if_pos more]
    exact rest.keep2 (filter_same_later ordered (within2 y List.mem_cons_self) third within1 sorted1 less)
  | case5 x list1 y list2 notLess notMore ih =>
    have rest := ih (fun x member => within1 x (List.mem_cons_of_mem _ member)) (fun x member => within2 x (List.mem_cons_of_mem _ member))
      sorted1.tail sorted2.tail
    rw [extract, if_neg notLess, if_neg notMore]
    exact rest.take (same_right ordered (within1 x List.mem_cons_self) (within2 y List.mem_cons_self) third (by omega))

/-- What is in common is taken out of both lists, in the order that it had. -/
theorem extractRepeating_split (ordered : Ordered cmp items) {list1 list2 : List α} {c : α} (third : c ∈ items)
    (within1 : ∀ x ∈ list1, x ∈ items) (within2 : ∀ x ∈ list2, x ∈ items) :
    Split cmp list1 list2 c (extractRepeating cmp list1 list2) := by
  have split := extract_split ordered third (fun x member => within1 x ((sort_perm list1).mem_iff.mp member))
    (fun x member => within2 x ((sort_perm list2).mem_iff.mp member)) (sort_sorted ordered within1) (sort_sorted ordered within2)
  obtain ⟨one, two, three, four, five⟩ := split
  rw [sort_filter ordered within1 third, sort_filter ordered within2 third] at one two three four five
  exact ⟨one, two, three, four, five⟩

/-- Nothing is lost, whatever the comparator is. -/
theorem extract_perm (list1 list2 : List α) : ((extract cmp list1 list2).extracted1 ++ (extract cmp list1 list2).list1).Perm list1 ∧
    ((extract cmp list1 list2).extracted2 ++ (extract cmp list1 list2).list2).Perm list2 ∧
    (extract cmp list1 list2).extracted1.length = (extract cmp list1 list2).extracted2.length := by
  induction list1, list2 using extract.induct cmp with
  | case1 list2 => simp [extract]
  | case2 x list1 => simp [extract]
  | case3 x list1 y list2 less ih =>
    rw [extract, if_pos less]
    exact ⟨List.perm_middle.trans (ih.1.cons x), ih.2.1, ih.2.2⟩
  | case4 x list1 y list2 notLess more ih =>
    rw [extract, if_neg notLess, if_pos more]
    exact ⟨ih.1, List.perm_middle.trans (ih.2.1.cons y), ih.2.2⟩
  | case5 x list1 y list2 notLess notMore ih =>
    rw [extract, if_neg notLess, if_neg notMore]
    exact ⟨ih.1.cons x, ih.2.1.cons y, congrArg (· + 1) ih.2.2⟩

theorem extractRepeating_perm (list1 list2 : List α) :
    ((extractRepeating cmp list1 list2).extracted1 ++ (extractRepeating cmp list1 list2).list1).Perm list1 ∧
    ((extractRepeating cmp list1 list2).extracted2 ++ (extractRepeating cmp list1 list2).list2).Perm list2 ∧
    (extractRepeating cmp list1 list2).extracted1.length = (extractRepeating cmp list1 list2).extracted2.length := by
  obtain ⟨one, two, three⟩ := @extract_perm _ cmp (sort cmp list1) (sort cmp list2)
  exact ⟨one.trans (sort_perm list1), two.trans (sort_perm list2), three⟩

/-- Only what compares equal is taken out together. -/
theorem extract_equal (list1 list2 : List α) :
    ∀ pair ∈ (extract cmp list1 list2).extracted1.zip (extract cmp list1 list2).extracted2, cmp pair.1 pair.2 = 0 := by
  induction list1, list2 using extract.induct cmp with
  | case1 list2 => simp [extract]
  | case2 x list1 => simp [extract]
  | case3 x list1 y list2 less ih =>
    rw [extract, if_pos less]
    exact ih
  | case4 x list1 y list2 notLess more ih =>
    rw [extract, if_neg notLess, if_pos more]
    exact ih
  | case5 x list1 y list2 notLess notMore ih =>
    rw [extract, if_neg notLess, if_neg notMore]
    intro pair member
    rcases List.mem_cons.mp member with rfl | later
    · dsimp only
      omega
    · exact ih pair later

end Pclsync.Library.Sorting
