import Pclsync.Library.Intervals
import Pclsync.Proofs.Ptree
import Pclsync.Trees.IntervalTree

/-! A tree of intervals is a set of offsets: what is added, removed and cut is the union, the difference and the
cut of sets, and the intervals stay in order with gaps between them. -/

namespace Pclsync.Proofs.IntervalTree
open Library Pclsync.IntervalTree Shape PtreeHeap PtreeChange
open Pclsync.Ptree hiding Op apply

/-- A tree in memory with these intervals, in order. -/
def Holds (memory : Memory) (tree : Option ℕ) (list : List (ℕ × ℕ)) : Prop :=
  ∃ ids, Stands memory.heap tree ids ∧ ids.map memory.interval = list

section
variable {memory : Memory} {heap : Heap} {id point : ℕ} {ids : List ℕ}

@[simp] theorem interval_setHeap : ({ memory with heap } : Memory).interval = memory.interval := rfl

@[simp] theorem interval_setLo : (memory.setLo id point).interval id = (point, memory.hi id) := by
  simp [Memory.interval, Memory.setLo]

@[simp] theorem interval_setHi : (memory.setHi id point).interval id = (memory.lo id, point) := by
  simp [Memory.interval, Memory.setHi]

@[simp] theorem interval_new {lo hi : ℕ} : (intervalNew memory id lo hi).interval id = (lo, hi) := by
  simp [Memory.interval, intervalNew, Memory.setLo, Memory.setHi]

theorem map_setLo (absent : id ∉ ids) : ids.map (memory.setLo id point).interval = ids.map memory.interval :=
  List.map_congr_left fun x member => by
    simp [Memory.interval, Memory.setLo, ne_of_mem_of_not_mem member absent]

theorem map_setHi (absent : id ∉ ids) : ids.map (memory.setHi id point).interval = ids.map memory.interval :=
  List.map_congr_left fun x member => by
    simp [Memory.interval, Memory.setHi, ne_of_mem_of_not_mem member absent]

theorem map_new {lo hi : ℕ} (absent : id ∉ ids) : ids.map (intervalNew memory id lo hi).interval = ids.map memory.interval :=
  (map_setHi absent).trans (map_setLo absent)

end

section
variable {memory : Memory} {tree : Option ℕ} {early late : List ℕ} {fuel passes e node newnode lo hi low point : ℕ} {side : Side}

theorem nodup_middle (stands : Stands memory.heap tree (early ++ e :: late)) : e ∉ early ∧ e ∉ late := by
  obtain ⟨_, _, _, _, _, nodup⟩ := stands
  rw [List.nodup_middle, List.nodup_cons, List.mem_append, not_or] at nodup
  exact nodup.1

theorem del_stands (stands : Stands memory.heap tree (early ++ e :: late)) (enough : (early ++ e :: late).length < fuel) :
    ∃ heap final, del fuel memory tree e = some ({ memory with heap }, final) ∧ Stands heap final (early ++ late) := by
  obtain ⟨heap, final, deletes, standsFinal⟩ := getDel_stands stands (show e ∈ early ++ e :: late by simp) enough
  rw [List.erase_append_right _ (nodup_middle stands).1, List.erase_cons_head] at standsFinal
  refine ⟨heap, final, ?_, standsFinal⟩
  rw [del, deletes]
  rfl

theorem consumeIntervals_holds (stands : Stands memory.heap tree (early ++ e :: late)) (enough : (early ++ e :: late).length < fuel)
    (more : late.length < passes) :
    ∃ after final, consumeIntervals fuel passes memory tree e = some (after, final) ∧
      Holds after final (early.map memory.interval ++ Intervals.consume (memory.lo e) (memory.hi e) (late.map memory.interval)) := by
  induction late generalizing memory tree passes with
  | nil =>
    cases passes with
    | zero => cases more
    | succ passes =>
      rw [consumeIntervals, (Ptree.getBeside_stands stands rfl enough).1]
      exact ⟨memory, tree, rfl, _, stands, by rw [List.map_append]; rfl⟩
  | cons next rest ih =>
    cases passes with
    | zero => cases more
    | succ passes =>
      rw [consumeIntervals, (Ptree.getBeside_stands stands rfl enough).1, List.map_cons, Memory.interval, Intervals.consume]
      simp only [List.head?_cons, Option.bind_eq_bind, Option.bind_some]
      by_cases apart : memory.lo next > memory.hi e
      · rw [if_pos apart, if_pos apart]
        exact ⟨memory, tree, rfl, _, stands, by rw [List.map_append]; rfl⟩
      · rw [if_neg apart, if_neg apart]
        have shift : early ++ e :: next :: rest = (early ++ [e]) ++ next :: rest := by simp
        have absent := nodup_middle stands
        rw [shift] at stands enough
        obtain ⟨heap, final, deletes, standsFinal⟩ := del_stands stands enough
        rw [List.append_assoc, List.singleton_append] at standsFinal
        rw [deletes, Option.bind_some]
        dsimp only
        by_cases past : memory.hi next ≥ memory.hi e
        · rw [if_pos past, if_pos past]
          refine ⟨_, final, rfl, _, standsFinal, ?_⟩
          rw [List.map_append, List.map_cons, interval_setHi, map_setHi absent.1, map_setHi fun member => absent.2 (List.mem_cons_of_mem _ member)]
          rfl
        · rw [if_neg past, if_neg past]
          simp only [List.length_append, List.length_cons, List.length_nil] at enough more
          have shorter : (early ++ e :: rest).length < fuel := by
            rw [List.length_append, List.length_cons]
            omega
          let freed : Memory := { memory with heap }
          have standsFreed : Stands freed.heap final (early ++ e :: rest) := standsFinal
          exact ih standsFreed shorter (by omega)

theorem addNew_holds (stands : Stands memory.heap tree (early ++ late)) (there : e ∈ early ++ late) (fresh : newnode ∉ early ++ late)
    (place : insertAt side (some e) newnode (early ++ late) = early ++ newnode :: late) (enough : (early ++ late).length + 1 < fuel) :
    ∃ after final, addNew side fuel memory tree e newnode lo hi = some (after, final) ∧
      Holds after final (early.map memory.interval ++ Intervals.consume lo hi (late.map memory.interval)) := by
  obtain ⟨heap, final, adds, standsFinal⟩ : ∃ heap final, getAdd side fuel memory.heap tree (some e) newnode = some (heap, final) ∧
      Stands heap final (insertAt side (some e) newnode (early ++ late)) :=
    getAdd_stands stands fresh (fun id same => by cases same; exact there) (Nat.lt_of_succ_lt enough)
  rw [place] at standsFinal
  rw [List.mem_append, not_or] at fresh
  rw [List.length_append] at enough
  let added : Memory := { intervalNew memory newnode lo hi with heap }
  have isNew : added.lo newnode = lo ∧ added.hi newnode = hi := Prod.mk.inj interval_new
  have same : early.map added.interval = early.map memory.interval ∧ late.map added.interval = late.map memory.interval :=
    ⟨map_new fresh.1, map_new fresh.2⟩
  have long : (early ++ newnode :: late).length < fuel := by
    rw [List.length_append, List.length_cons]
    omega
  obtain ⟨after, last, consumes, held⟩ : ∃ after last, consumeIntervals fuel fuel added final newnode = some (after, last) ∧
      Holds after last (early.map added.interval ++ Intervals.consume (added.lo newnode) (added.hi newnode) (late.map added.interval)) :=
    consumeIntervals_holds standsFinal long (by omega)
  rw [same.1, same.2, isNew.1, isNew.2] at held
  refine ⟨after, last, ?_, held⟩
  rw [addNew]
  change (getAdd side fuel memory.heap tree (some e) newnode).bind _ = _
  rw [adds, Option.bind_some]
  exact consumes

/-- The intervals around one of them. -/
theorem ordered_around (ordered : Ordered low ((early ++ e :: late).map memory.interval)) :
    (∀ id ∈ early, memory.hi id < memory.lo e) ∧ memory.lo e < memory.hi e ∧ ∀ id ∈ late, memory.hi e < memory.lo id := by
  rw [List.map_append, List.map_cons] at ordered
  obtain ⟨before, _, nonempty, after⟩ := Intervals.ordered_split ordered
  exact ⟨fun id member => before _ (List.mem_map_of_mem member), nonempty, fun id member => Intervals.le_of_mem after (List.mem_map_of_mem member)⟩

/-- An insertion in a place that has been found. -/
theorem insert_place (ordered : Ordered low ((early ++ late).map memory.interval)) (before : ∀ id ∈ early, memory.hi id < lo) :
    Intervals.insert lo hi ((early ++ late).map memory.interval) =
      early.map memory.interval ++ Intervals.insert lo hi (late.map memory.interval) := by
  rw [List.map_append] at ordered ⊢
  refine Intervals.insert_append (Intervals.ordered_left ordered) fun interval member => ?_
  obtain ⟨id, isThere, rfl⟩ := List.mem_map.mp member
  exact before id isThere

theorem insert_place_consume (ordered : Ordered low ((early ++ late).map memory.interval)) (before : ∀ id ∈ early, memory.hi id < lo)
    (after : ∀ id ∈ late, lo < memory.lo id) :
    Intervals.insert lo hi ((early ++ late).map memory.interval) =
      early.map memory.interval ++ Intervals.consume lo hi (late.map memory.interval) := by
  rw [insert_place ordered before, Intervals.insert_consume]
  intro interval member
  obtain ⟨id, isThere, rfl⟩ := List.mem_map.mp member
  exact after id isThere

/-- The descent stays between the intervals that end before the new one and those that start after its start. -/
theorem descend_holds {shape : Shape ℕ} {parent : Option ℕ} (stands : Stands memory.heap tree (early ++ shape.ids ++ late))
    (ordered : Ordered low ((early ++ shape.ids ++ late).map memory.interval)) (rep : Rep memory.heap parent shape) (isRoot : shape.root = some e)
    (before : ∀ id ∈ early, memory.hi id < lo) (after : ∀ id ∈ late, lo < memory.lo id)
    (fresh : newnode ∉ early ++ shape.ids ++ late) (enough : (early ++ shape.ids ++ late).length + 1 < fuel) (more : shape.ids.length ≤ passes) :
    ∃ changed final, descend fuel newnode lo hi passes memory tree e = some (changed, final) ∧
      Holds changed final (Intervals.insert lo hi ((early ++ shape.ids ++ late).map memory.interval)) := by
  induction shape generalizing early late parent passes e with
  | nil => cases isRoot
  | node left id right lower upper =>
    cases isRoot
    obtain ⟨here, repLeft, repRight⟩ := rep
    have around : early ++ (Shape.node left id right).ids ++ late = (early ++ left.ids) ++ id :: (right.ids ++ late) := by simp [Shape.ids]
    have absent := nodup_middle (around ▸ stands)
    obtain ⟨beforeHere, nonempty, afterHere⟩ := ordered_around (around ▸ ordered)
    have length : (Shape.node left id right).ids.length = left.ids.length + right.ids.length + 1 := by
      simp only [Shape.ids, List.length_append, List.length_cons]
      omega
    cases passes with
    | zero => omega
    | succ passes =>
      rw [descend, here]
      by_cases inside : memory.lo id ≤ lo ∧ memory.hi id ≥ lo
      · rw [if_pos inside]
        have place : Intervals.insert lo hi ((early ++ (Shape.node left id right).ids ++ late).map memory.interval) =
            (early ++ left.ids).map memory.interval ++ Intervals.insert lo hi ((id :: (right.ids ++ late)).map memory.interval) := by
          rw [around] at ordered ⊢
          exact insert_place ordered fun x member => (beforeHere x member).trans_le inside.1
        rw [place, List.map_cons, Memory.interval, Intervals.insert, if_pos inside]
        by_cases covered : memory.hi id ≥ hi
        · rw [if_pos covered, if_pos covered]
          refine ⟨memory, tree, rfl, _, stands, ?_⟩
          rw [around, List.map_append, List.map_cons]
          rfl
        · rw [if_neg covered, if_neg covered]
          have consumed := @consumeIntervals_holds (memory.setHi id hi) tree (early ++ left.ids) (right.ids ++ late) fuel fuel id
            (around ▸ stands) (around ▸ Nat.lt_of_succ_lt enough) (by
              rw [List.length_append, List.length_append, length] at enough
              rw [List.length_append]
              omega)
          have isHere := Prod.mk.inj (@interval_setHi memory id hi)
          rw [map_setHi absent.1, map_setHi absent.2, isHere.1, isHere.2] at consumed
          exact consumed
      · rw [if_neg inside]
        by_cases below : memory.lo id > lo
        · rw [if_pos below]
          have afterNow : ∀ x ∈ id :: (right.ids ++ late), lo < memory.lo x := by
            intro x member
            obtain rfl | member := List.mem_cons.mp member
            · exact below
            · have later := afterHere x member
              omega
          cases isLeft : left.root with
          | some child =>
            have shift : early ++ (Shape.node left id right).ids ++ late = early ++ left.ids ++ id :: (right.ids ++ late) := around
            rw [shift] at stands ordered fresh enough ⊢
            exact lower stands ordered repLeft isLeft before afterNow fresh enough (by omega)
          | none =>
            obtain rfl := root_eq_none.mp isLeft
            rw [ids_nil, List.append_nil] at around absent
            rw [around] at stands ordered fresh enough ⊢
            dsimp only
            by_cases touches : memory.lo id ≤ hi ∧ memory.hi id ≥ hi
            · rw [if_pos touches]
              refine ⟨_, tree, rfl, _, stands, ?_⟩
              rw [insert_place ordered before, List.map_append, List.map_cons, List.map_cons, map_setLo absent.1, map_setLo absent.2, interval_setLo,
                Memory.interval, Intervals.insert, if_neg inside, if_pos below, if_pos touches]
            · rw [if_neg touches, insert_place_consume ordered before afterNow]
              refine addNew_holds stands (by simp) fresh ?_ enough
              rw [insertAt, insertBeside_append _ _ _ absent.1]
              simp [Shape.around]
        · rw [if_neg below]
          have beforeNow : ∀ x ∈ early ++ left.ids ++ [id], memory.hi x < lo := by
            intro x member
            obtain member | member := List.mem_append.mp member
            · have earlier := beforeHere x member
              omega
            · cases List.mem_singleton.mp member
              omega
          have shift : early ++ (Shape.node left id right).ids ++ late = (early ++ left.ids ++ [id]) ++ right.ids ++ late := by simp [Shape.ids]
          cases isRight : right.root with
          | some child =>
            rw [shift] at stands ordered fresh enough ⊢
            exact upper stands ordered repRight isRight beforeNow after fresh enough (by omega)
          | none =>
            obtain rfl := root_eq_none.mp isRight
            rw [ids_nil, List.append_nil] at shift
            rw [shift] at stands ordered fresh enough ⊢
            dsimp only
            rw [insert_place_consume ordered beforeNow after]
            refine addNew_holds stands (by simp) fresh ?_ enough
            rw [insertAt, List.append_assoc _ [id], List.singleton_append, insertBeside_append _ _ _ absent.1]
            simp [Shape.around]

theorem add_holds {ids : List ℕ} (stands : Stands memory.heap tree ids) (ordered : Ordered low (ids.map memory.interval))
    (fresh : newnode ∉ ids) (enough : ids.length + 1 < fuel) :
    ∃ after final, add fuel memory tree newnode lo hi = some (after, final) ∧
      Holds after final (Intervals.insert lo hi (ids.map memory.interval)) := by
  obtain ⟨whole, isTree, rep, balanced, rfl, nodup⟩ := stands
  have standsWhole : Stands memory.heap tree ([] ++ whole.ids ++ []) := by
    rw [List.nil_append, List.append_nil]
    exact ⟨whole, isTree, rep, balanced, rfl, nodup⟩
  cases isRoot : whole.root with
  | none =>
    obtain rfl := root_eq_none.mp isRoot
    obtain rfl : tree = none := isTree
    refine ⟨_, _, rfl, [newnode], ?_, ?_⟩
    · obtain ⟨heap, final, adds, standsFinal⟩ := @getAdd_stands memory.heap none none [] .right fuel newnode ⟨.nil, rfl, trivial, trivial, rfl, nodup⟩
        fresh (fun id same => by cases same) (Nat.lt_of_succ_lt enough)
      cases adds
      exact standsFinal
    · rw [List.map_singleton, interval_setHeap, interval_new]
      rfl
  | some root =>
    obtain rfl : tree = some root := isTree.trans isRoot
    have same : [] ++ whole.ids ++ [] = whole.ids := by simp
    have descends := @descend_holds memory (some root) [] [] fuel fuel root newnode lo hi low whole none standsWhole (same.symm ▸ ordered) rep isRoot
      (by simp) (by simp) (same.symm ▸ fresh) (same.symm ▸ enough) (by omega)
    rw [same] at descends
    exact descends

/-! The first interval that ends after a point. -/

theorem firstFrom_stands {shape : Shape ℕ} {parent : Option ℕ} (stands : Stands memory.heap tree (early ++ shape.ids ++ late))
    (ordered : Ordered low ((early ++ shape.ids ++ late).map memory.interval)) (rep : Rep memory.heap parent shape) (isRoot : shape.root = some e)
    (before : ∀ id ∈ early, memory.hi id ≤ point) (after : ∀ id ∈ late, point < memory.hi id)
    (enough : (early ++ shape.ids ++ late).length < fuel) (more : shape.ids.length ≤ passes) :
    ∃ past next, early ++ shape.ids ++ late = past ++ next ∧ (∀ id ∈ past, memory.hi id ≤ point) ∧ (∀ id ∈ next, point < memory.hi id) ∧
      firstFrom fuel memory point passes e = some next.head? := by
  induction shape generalizing early late parent passes e with
  | nil => cases isRoot
  | node left id right lower upper =>
    cases isRoot
    obtain ⟨here, repLeft, repRight⟩ := rep
    have around : early ++ (Shape.node left id right).ids ++ late = (early ++ left.ids) ++ id :: (right.ids ++ late) := by simp [Shape.ids]
    obtain ⟨beforeHere, nonempty, afterHere⟩ := ordered_around (around ▸ ordered)
    have nonemptyAll : ∀ x ∈ right.ids ++ late, memory.lo x < memory.hi x := fun x member =>
      Intervals.nonempty_of_mem ordered (List.mem_map_of_mem (by rw [around]; simp at member ⊢; tauto))
    have length : (Shape.node left id right).ids.length = left.ids.length + right.ids.length + 1 := by
      simp only [Shape.ids, List.length_append, List.length_cons]
      omega
    cases passes with
    | zero => omega
    | succ passes =>
      rw [firstFrom, here]
      by_cases ended : point ≥ memory.hi id
      · rw [if_pos ended]
        have beforeNow : ∀ x ∈ early ++ left.ids ++ [id], memory.hi x ≤ point := by
          intro x member
          obtain member | member := List.mem_append.mp member
          · have earlier := beforeHere x member
            omega
          · cases List.mem_singleton.mp member
            exact ended
        have shift : early ++ (Shape.node left id right).ids ++ late = (early ++ left.ids ++ [id]) ++ right.ids ++ late := by simp [Shape.ids]
        cases isRight : right.root with
        | some child =>
          rw [shift] at stands ordered enough ⊢
          exact upper stands ordered repRight isRight beforeNow after enough (by omega)
        | none =>
          obtain rfl := root_eq_none.mp isRight
          rw [ids_nil, List.append_nil] at shift
          refine ⟨_, _, shift, beforeNow, after, ?_⟩
          rw [around] at stands enough
          exact (Ptree.getBeside_stands stands rfl enough).1
      · rw [if_neg ended]
        have afterNow : ∀ x ∈ id :: (right.ids ++ late), point < memory.hi x := by
          intro x member
          obtain rfl | member := List.mem_cons.mp member
          · omega
          · have later := afterHere x member
            have whole := nonemptyAll x member
            omega
        by_cases started : point ≥ memory.lo id
        · rw [if_pos started]
          refine ⟨_, _, around, fun x member => ?_, afterNow, rfl⟩
          have earlier := beforeHere x member
          omega
        · rw [if_neg started]
          cases isLeft : left.root with
          | some child =>
            rw [around] at stands ordered enough ⊢
            exact lower stands ordered repLeft isLeft before afterNow enough (by omega)
          | none =>
            obtain rfl := root_eq_none.mp isLeft
            rw [ids_nil, List.append_nil] at around
            exact ⟨_, _, around, before, afterNow, rfl⟩

theorem firstInterval_stands {ids : List ℕ} (stands : Stands memory.heap tree ids) (ordered : Ordered low (ids.map memory.interval))
    (point : ℕ) (enough : ids.length < fuel) :
    ∃ past next, ids = past ++ next ∧ (∀ id ∈ past, memory.hi id ≤ point) ∧ (∀ id ∈ next, point < memory.hi id) ∧
      firstIntervalContainingOrAfter fuel memory tree point = some next.head? := by
  obtain ⟨whole, isTree, rep, balanced, rfl, nodup⟩ := stands
  cases isRoot : whole.root with
  | none =>
    obtain rfl := root_eq_none.mp isRoot
    obtain rfl : tree = none := isTree
    exact ⟨[], [], rfl, by simp, by simp, rfl⟩
  | some root =>
    obtain rfl : tree = some root := isTree.trans isRoot
    have same : [] ++ whole.ids ++ [] = whole.ids := by simp
    have found := @firstFrom_stands memory (some root) [] [] fuel fuel root low point whole none
      (same.symm ▸ ⟨whole, isTree, rep, balanced, rfl, nodup⟩) (same.symm ▸ ordered) rep isRoot
      (by simp) (by simp) (same.symm ▸ enough) (by omega)
    rw [same] at found
    exact found

/-! Removals. -/

theorem remove_cons {rest : List ℕ} : Intervals.remove lo hi ((e :: rest).map memory.interval) =
    (if memory.lo e < lo then [(memory.lo e, min (memory.hi e) lo)] else []) ++
      (if hi < memory.hi e then [(max (memory.lo e) hi, memory.hi e)] else []) ++ Intervals.remove lo hi (rest.map memory.interval) := by
  rw [List.map_cons, Intervals.remove, List.flatMap_cons, Memory.interval, Intervals.cut_mk, Intervals.rise_mk]
  rfl

theorem splitNew_stands (stands : Stands memory.heap tree (early ++ e :: late)) (fresh : newnode ∉ early ++ e :: late)
    (enough : (early ++ e :: late).length < fuel) :
    ∃ heap final, getAddAfter fuel memory.heap tree (some e) newnode = some (heap, final) ∧ Stands heap final (early ++ e :: newnode :: late) := by
  obtain ⟨heap, final, adds, standsFinal⟩ : ∃ heap final, getAdd .right fuel memory.heap tree (some e) newnode = some (heap, final) ∧
      Stands heap final (insertAt .right (some e) newnode (early ++ e :: late)) :=
    getAdd_stands stands fresh (fun id same => by cases same; simp) enough
  rw [insertAt, insertBeside_append _ _ _ (nodup_middle stands).1] at standsFinal
  refine ⟨heap, final, adds, ?_⟩
  simpa [Shape.around] using standsFinal

/-- The loop looks at the intervals that end after the start of what is removed. -/
theorem removeFrom_holds (stands : Stands memory.heap tree (early ++ late)) (ordered : Ordered low (late.map memory.interval))
    (past : ∀ id ∈ late, lo < memory.hi id) (nonempty : lo < hi) (fresh : newnode ∉ early ++ late)
    (enough : (early ++ late).length + 1 < fuel) (more : late.length ≤ passes) :
    ∃ after final, removeFrom fuel newnode lo hi passes memory tree late.head? = some (after, final) ∧
      Holds after final (early.map memory.interval ++ Intervals.remove lo hi (late.map memory.interval)) := by
  induction late generalizing early memory tree passes low with
  | nil =>
    refine ⟨memory, tree, ?_, _, stands, by rw [List.map_append]; rfl⟩
    cases passes <;> rfl
  | cons tr rest ih =>
    cases passes with
    | zero => cases more
    | succ passes =>
      have absent := nodup_middle stands
      obtain ⟨_, whole, later⟩ := ordered_around (show Ordered low (([] ++ tr :: rest).map memory.interval) from ordered)
      have orderedRest : Ordered (memory.hi tr + 1) (rest.map memory.interval) := ordered.2.2
      have ends : lo < memory.hi tr := past tr List.mem_cons_self
      have pastRest : ∀ id ∈ rest, lo < memory.hi id := fun id member => past id (List.mem_cons_of_mem _ member)
      have apartRest : hi ≤ memory.hi tr → Intervals.remove lo hi (rest.map memory.interval) = rest.map memory.interval := by
        intro bound
        refine Intervals.remove_apart orderedRest nonempty fun interval member => .inr ?_
        obtain ⟨id, isThere, rfl⟩ := List.mem_map.mp member
        have start : memory.hi tr < memory.lo id := later id isThere
        show hi ≤ memory.lo id
        omega
      have walks : getNext fuel memory.heap tr = some rest.head? := (Ptree.getBeside_stands stands rfl (Nat.lt_of_succ_lt enough)).1
      rw [List.head?_cons, removeFrom, remove_cons]
      by_cases splits : memory.lo tr < lo ∧ memory.hi tr > hi
      · rw [if_pos splits, if_pos splits.1, if_pos splits.2, min_eq_right ends.le, max_eq_right (splits.1.trans nonempty).le, apartRest splits.2.le]
        have apart : newnode ∉ early ∧ newnode ≠ tr ∧ newnode ∉ rest := by simpa using fresh
        obtain ⟨heap, final, adds, standsFinal⟩ := splitNew_stands stands fresh (Nat.lt_of_succ_lt enough)
        let added : Memory := { intervalNew memory newnode hi (memory.hi tr) with heap }
        refine ⟨added.setHi tr lo, final, ?_, _, standsFinal, ?_⟩
        · change (getAddAfter fuel memory.heap tree (some tr) newnode).bind _ = _
          rw [adds]
          rfl
        · have atNew : (added.setHi tr lo).interval newnode = (hi, memory.hi tr) := by
            simp [added, Memory.interval, Memory.setHi, Memory.setLo, intervalNew, apart.2.1]
          have atTr : (added.setHi tr lo).interval tr = (memory.lo tr, lo) := by
            simp [added, Memory.interval, Memory.setHi, Memory.setLo, intervalNew, apart.2.1.symm]
          have others : ∀ {ids : List ℕ}, tr ∉ ids → newnode ∉ ids → ids.map (added.setHi tr lo).interval = ids.map memory.interval :=
            fun notTr notNew => (map_setHi notTr).trans (map_new notNew)
          rw [List.map_append, List.map_cons, List.map_cons, others absent.1 apart.1, others absent.2 apart.2.2, atTr, atNew]
          rfl
      · rw [if_neg splits, walks]
        simp only [Option.bind_eq_bind, Option.bind_some]
        have shift : early ++ tr :: rest = early ++ [tr] ++ rest := by simp
        have shorter : rest.length ≤ passes := Nat.le_of_succ_le_succ more
        by_cases starts : lo ≤ memory.lo tr ∧ memory.lo tr < hi
        · rw [if_pos starts, if_neg (by omega : ¬ memory.lo tr < lo)]
          have isTr := Prod.mk.inj (@interval_setLo memory tr hi)
          rw [isTr.1, isTr.2, max_eq_right starts.2.le]
          have ended : ∀ id ∈ rest, lo < (memory.setLo tr hi).hi id := pastRest
          have orderedAfter : Ordered (memory.hi tr + 1) (rest.map (memory.setLo tr hi).interval) := (map_setLo absent.2).symm ▸ orderedRest
          by_cases whole : hi ≥ memory.hi tr
          · rw [if_pos whole, if_neg (by omega : ¬ hi < memory.hi tr)]
            obtain ⟨heap, final, deletes, standsFinal⟩ := @del_stands (memory.setLo tr hi) tree early rest fuel tr stands (Nat.lt_of_succ_lt enough)
            rw [deletes]
            have removes := @ih { memory.setLo tr hi with heap } final early passes _ standsFinal orderedAfter ended
              (by simp at fresh ⊢; tauto) (by simp at enough ⊢; omega) shorter
            rw [interval_setHeap, map_setLo absent.1, map_setLo absent.2] at removes
            exact removes
          · rw [if_neg whole, if_pos (by omega : hi < memory.hi tr)]
            have removes := @ih (memory.setLo tr hi) tree (early ++ [tr]) passes _ (shift ▸ stands) orderedAfter ended
              (shift ▸ fresh) (shift ▸ enough) shorter
            rw [List.map_append, List.map_singleton, interval_setLo, map_setLo absent.1, map_setLo absent.2, List.append_assoc] at removes
            exact removes
        · rw [if_neg starts]
          by_cases below : memory.lo tr < lo
          · rw [if_pos below, if_pos below, min_eq_right ends.le, if_neg (by omega : ¬ hi < memory.hi tr)]
            have orderedAfter : Ordered (memory.hi tr + 1) (rest.map (memory.setHi tr lo).interval) := (map_setHi absent.2).symm ▸ orderedRest
            have ended : ∀ id ∈ rest, lo < (memory.setHi tr lo).hi id := by
              intro id member
              have other : id ≠ tr := ne_of_mem_of_not_mem member absent.2
              simpa [Memory.setHi, other] using pastRest id member
            have removes := @ih (memory.setHi tr lo) tree (early ++ [tr]) passes _ (shift ▸ stands) orderedAfter ended
              (shift ▸ fresh) (shift ▸ enough) shorter
            rw [List.map_append, List.map_singleton, interval_setHi, map_setHi absent.1, map_setHi absent.2, List.append_assoc] at removes
            exact removes
          · rw [if_neg below, if_neg below, max_eq_left (by omega), if_pos (by omega : hi < memory.hi tr), apartRest (by omega)]
            exact ⟨memory, tree, rfl, _, stands, by rw [List.map_append]; rfl⟩

theorem remove_holds {ids : List ℕ} (stands : Stands memory.heap tree ids) (ordered : Ordered low (ids.map memory.interval))
    (nonempty : lo < hi) (fresh : newnode ∉ ids) (enough : ids.length + 1 < fuel) :
    ∃ after final, remove fuel memory tree newnode lo hi = some (after, final) ∧
      Holds after final (Intervals.remove lo hi (ids.map memory.interval)) := by
  obtain ⟨past, next, rfl, before, ends, found⟩ := firstInterval_stands stands ordered lo (Nat.lt_of_succ_lt enough)
  rw [remove, found]
  rw [List.map_append] at ordered ⊢
  have untouched : Intervals.remove lo hi (past.map memory.interval) = past.map memory.interval := by
    refine Intervals.remove_apart (Intervals.ordered_left ordered) nonempty fun interval member => .inl ?_
    obtain ⟨id, isThere, rfl⟩ := List.mem_map.mp member
    exact before id isThere
  obtain ⟨bound, orderedNext⟩ := Intervals.ordered_right ordered
  have split : Intervals.remove lo hi (past.map memory.interval ++ next.map memory.interval) =
      past.map memory.interval ++ Intervals.remove lo hi (next.map memory.interval) := by
    rw [Intervals.remove, List.flatMap_append]
    exact congrArg (· ++ _) untouched
  rw [split]
  rw [List.length_append] at enough
  exact removeFrom_holds stands orderedNext ends nonempty fresh (by rw [List.length_append]; exact enough) (by omega)

/-! Cuts. -/

/-- The loop goes from the last interval backwards. -/
theorem cutFrom_holds {ids : List ℕ} (stands : Stands memory.heap tree ids) (ordered : Ordered low (ids.map memory.interval))
    (enough : ids.length < fuel) (more : ids.length ≤ passes) :
    ∃ after final, cutFrom fuel point passes memory tree ids.getLast? = some (after, final) ∧
      Holds after final (Intervals.cutEnd point (ids.map memory.interval)) := by
  induction ids using List.reverseRecOn generalizing memory tree passes with
  | nil =>
    refine ⟨memory, tree, ?_, _, stands, rfl⟩
    cases passes <;> rfl
  | append_singleton early last ih =>
    rw [List.length_append, List.length_singleton] at enough more
    cases passes with
    | zero => omega
    | succ passes =>
      obtain ⟨before, whole, _⟩ := ordered_around ordered
      have orderedEarly := Intervals.ordered_left (List.map_append ▸ ordered)
      have absent := nodup_middle stands
      have keeps : ∀ {bound}, memory.lo last ≤ bound → Intervals.cutEnd bound (early.map memory.interval) = early.map memory.interval := by
        intro bound start
        refine Intervals.cutEnd_before orderedEarly fun interval member => ?_
        obtain ⟨id, isThere, rfl⟩ := List.mem_map.mp member
        exact (before id isThere).le.trans start
      have parts : Intervals.cutEnd point ((early ++ [last]).map memory.interval) =
          Intervals.cutEnd point (early.map memory.interval) ++
            if memory.lo last < point then [(memory.lo last, min (memory.hi last) point)] else [] := by
        rw [List.map_append, Intervals.cutEnd, List.flatMap_append, List.map_singleton, List.flatMap_singleton, Memory.interval, Intervals.cut_mk]
        rfl
      rw [List.getLast?_concat, cutFrom, parts]
      by_cases beyond : memory.hi last > point
      · rw [if_pos beyond]
        by_cases starts : memory.lo last < point
        · rw [if_pos starts, if_pos starts, keeps starts.le, min_eq_right beyond.le]
          refine ⟨_, tree, rfl, _, stands, ?_⟩
          rw [List.map_append, List.map_singleton, interval_setHi, map_setHi absent.1]
        · rw [if_neg starts, if_neg starts, List.append_nil]
          have long : (early ++ [last]).length < fuel := by
            rw [List.length_append, List.length_singleton]
            exact enough
          obtain ⟨heap, final, deletes, standsFinal⟩ := del_stands stands long
          rw [List.append_nil] at standsFinal
          rw [(Ptree.getBeside_stands stands rfl long).2]
          simp only [Option.bind_eq_bind, Option.bind_some, deletes]
          exact @ih { memory with heap } final passes standsFinal orderedEarly (by omega) (by omega)
      · rw [if_neg beyond, if_pos (by omega), min_eq_left (by omega), keeps (by omega)]
        exact ⟨memory, tree, rfl, _, stands, by rw [List.map_append]; rfl⟩

theorem cutEnd_holds {ids : List ℕ} (stands : Stands memory.heap tree ids) (ordered : Ordered low (ids.map memory.interval))
    (enough : ids.length < fuel) :
    ∃ after final, cutEnd fuel memory tree point = some (after, final) ∧ Holds after final (Intervals.cutEnd point (ids.map memory.interval)) := by
  rw [cutEnd, (Ptree.getEnd_stands stands enough.le).2]
  exact cutFrom_holds stands ordered enough enough.le

end

/-! Every sequence of operations. -/

/-- A new address is not one of the nodes. -/
def Fresh (memory : Memory) (tree : Option ℕ) (newnode : ℕ) : Prop := ∀ ids, Stands memory.heap tree ids → newnode ∉ ids

/-- What the callers and `malloc` promise. -/
def Valid (memory : Memory) (tree : Option ℕ) : Op → Prop
  | .add lo hi newnode => lo < hi ∧ Fresh memory tree newnode
  | .remove lo hi newnode => lo < hi ∧ Fresh memory tree newnode
  | .cutEnd _ => True

/-- What the operation does to a set of offsets. -/
def change (set : Set ℕ) : Op → Set ℕ
  | .add lo hi _ => set ∪ Set.Ico lo hi
  | .remove lo hi _ => set \ Set.Ico lo hi
  | .cutEnd point => set ∩ Set.Iio point

/-- The trees that the operations make out of the empty one, with the sets of offsets that are meant. -/
inductive Reached : Memory → Option ℕ → Set ℕ → Prop
  | empty (memory : Memory) : Reached memory none ∅
  | step {memory after : Memory} {tree final : Option ℕ} {set : Set ℕ} (op : Op) (fuel : ℕ) (before : Reached memory tree set)
      (valid : Valid memory tree op) (enough : ∀ ids, Stands memory.heap tree ids → ids.length + 1 < fuel)
      (ran : apply fuel memory tree op = some (after, final)) : Reached after final (change set op)

/-- What a tree is for its users: it is in memory, with the intervals in order and a gap between any two; its offsets
are those of the set; the first interval that ends after a point is found; and what is done next is done. -/
structure Represents (memory : Memory) (tree : Option ℕ) (set : Set ℕ) (ids : List ℕ) : Prop where
  stands : Stands memory.heap tree ids
  ordered : Ordered 0 (ids.map memory.interval)
  covers : ∀ x, Intervals.Covers (ids.map memory.interval) x ↔ x ∈ set
  first : ∀ fuel point, ids.length < fuel → ∃ past next, ids = past ++ next ∧ (∀ id ∈ past, memory.hi id ≤ point) ∧
    (∀ id ∈ next, point < memory.hi id) ∧ firstIntervalContainingOrAfter fuel memory tree point = some next.head?
  next : ∀ fuel op, Valid memory tree op → ids.length + 1 < fuel → ∃ after final, apply fuel memory tree op = some (after, final)

section
variable {memory : Memory} {tree : Option ℕ} {set : Set ℕ} {ids : List ℕ} {fuel : ℕ} {op : Op}

theorem apply_holds (stands : Stands memory.heap tree ids) (ordered : Ordered 0 (ids.map memory.interval))
    (covers : ∀ x, Intervals.Covers (ids.map memory.interval) x ↔ x ∈ set) (valid : Valid memory tree op) (enough : ids.length + 1 < fuel) :
    ∃ after final list, apply fuel memory tree op = some (after, final) ∧ Holds after final list ∧ Ordered 0 list ∧
      ∀ x, Intervals.Covers list x ↔ x ∈ change set op := by
  cases op with
  | add lo hi newnode =>
    obtain ⟨nonempty, fresh⟩ := valid
    obtain ⟨after, final, adds, holds⟩ : ∃ after final, add fuel memory tree newnode lo hi = some (after, final) ∧
        Holds after final (Intervals.insert lo hi (ids.map memory.interval)) := add_holds stands ordered (fresh ids stands) enough
    refine ⟨after, final, _, adds, holds, Intervals.insert_ordered (Nat.zero_le lo) nonempty ordered, fun x => ?_⟩
    rw [Intervals.covers_insert ordered, covers, change, Set.mem_union, Set.mem_Ico, or_comm]
  | remove lo hi newnode =>
    obtain ⟨nonempty, fresh⟩ := valid
    obtain ⟨after, final, removes, holds⟩ := remove_holds stands ordered nonempty (fresh ids stands) enough
    refine ⟨after, final, _, removes, holds, Intervals.remove_ordered ordered nonempty, fun x => ?_⟩
    rw [Intervals.covers_remove, covers, change, Set.mem_sdiff, Set.mem_Ico]
  | cutEnd point =>
    obtain ⟨after, final, cuts, holds⟩ : ∃ after final, cutEnd fuel memory tree point = some (after, final) ∧
        Holds after final (Intervals.cutEnd point (ids.map memory.interval)) := cutEnd_holds stands ordered (Nat.lt_of_succ_lt enough)
    refine ⟨after, final, _, cuts, holds, Intervals.cutEnd_ordered ordered, fun x => ?_⟩
    rw [Intervals.covers_cutEnd, covers, change, Set.mem_inter_iff, Set.mem_Iio]

theorem reached_holds (reached : Reached memory tree set) : ∃ ids, Stands memory.heap tree ids ∧ Ordered 0 (ids.map memory.interval) ∧
    ∀ x, Intervals.Covers (ids.map memory.interval) x ↔ x ∈ set := by
  induction reached with
  | empty memory =>
    exact ⟨[], ⟨.nil, rfl, trivial, trivial, rfl, List.nodup_nil⟩, trivial, fun x => by simp⟩
  | step op fuel _ valid enough ran ih =>
    obtain ⟨ids, stands, ordered, covers⟩ := ih
    obtain ⟨after, final, list, runs, ⟨idsAfter, standsAfter, rfl⟩, orderedAfter, coversAfter⟩ :=
      apply_holds stands ordered covers valid (enough ids stands)
    cases ran.symm.trans runs
    exact ⟨idsAfter, standsAfter, orderedAfter, coversAfter⟩

end

theorem reached_represents {memory : Memory} {tree : Option ℕ} {set : Set ℕ} (reached : Reached memory tree set) :
    ∃ ids, Represents memory tree set ids := by
  obtain ⟨ids, stands, ordered, covers⟩ := reached_holds reached
  refine ⟨ids, stands, ordered, covers, fun fuel point enough => firstInterval_stands stands ordered point enough, fun fuel op valid enough => ?_⟩
  obtain ⟨after, final, _, runs, _⟩ := apply_holds stands ordered covers valid enough
  exact ⟨after, final, runs⟩

theorem reached_represents_one : ∃ memory, Reached memory (some 5) (∅ ∪ Set.Ico 3 8) ∧ ∃ ids, Represents memory (some 5) (∅ ∪ Set.Ico 3 8) ids := by
  have empty : ∀ {heap : Heap} {ids : List ℕ}, Stands heap none ids → ids = [] := by
    rintro heap ids ⟨whole, isRoot, _, _, rfl, _⟩
    rw [root_eq_none.mp isRoot.symm]
    rfl
  let memory : Memory := ⟨fun _ => ⟨none, none, none, 0⟩, fun _ => 0, fun _ => 0⟩
  have valid : Valid memory none (.add 3 8 5) := ⟨by decide, fun ids stands => by rw [empty stands]; exact List.not_mem_nil⟩
  have one : Reached _ _ (change ∅ (.add 3 8 5)) :=
    .step (.add 3 8 5) 2 (.empty memory) valid (fun ids stands => by rw [empty stands]; decide) rfl
  exact ⟨_, one, reached_represents one⟩

end Pclsync.Proofs.IntervalTree
