import Pclsync.Proofs.PtreeChange

/-! The trees are balanced search trees after every sequence of insertions and deletions, with right heights and
parents, and their nodes stand in the order in which they were put next to each other. -/

namespace Pclsync.Proofs.Ptree
open Library Pclsync.Ptree Shape PtreeHeap PtreeLoops PtreeChange

/-! Walks. -/

section
variable {heap : Heap} {tree : Option ℕ} {ids : List ℕ} {side : Side} {fuel node : ℕ} {path : List (Frame ℕ)} {shape : Shape ℕ}

/-- `ptree_get_first` and `ptree_get_last` -/
theorem getEnd_stands (stands : Stands heap tree ids) (enough : ids.length ≤ fuel) :
    getFirst fuel heap tree = some ids.head? ∧ getLast fuel heap tree = some ids.getLast? := by
  obtain ⟨whole, rfl, rep, _, rfl, _⟩ := stands
  unfold getFirst getLast getEnd
  rw [← extreme_left, ← extreme_right]
  cases isRoot : whole.root with
  | none =>
    rw [root_eq_none.mp isRoot]
    exact ⟨rfl, rfl⟩
  | some root =>
    have walks : ∀ side, (walk side fuel heap root).map some = some (whole.extreme side) := by
      intro side
      rw [walk_rep rep isRoot enough]
      cases isEnd : whole.extreme side with
      | none =>
        rw [extreme_eq_none.mp isEnd] at isRoot
        cases isRoot
      | some last => rfl
    exact ⟨walks .left, walks .right⟩

/-- The node that follows the hole on a side. -/
def follows (side : Side) : List (Frame ℕ) → Option ℕ
  | [] => none
  | frame :: rest => if frame.side = side then follows side rest else some frame.id

theorem climb_rep (rep : RepPath heap path (some node)) (nodup : (plug path shape).ids.Nodup) (isNode : shape.root = some node)
    (parent : (heap node).parent = top path) (enough : path.length < fuel) : climb side fuel heap node = some (follows side path) := by
  induction path generalizing node shape fuel with
  | nil =>
    cases fuel with
    | zero => exact absurd enough (Nat.not_lt_zero _)
    | succ fuel => rw [climb, parent]; rfl
  | cons frame rest ih =>
    cases fuel with
    | zero => exact absurd enough (Nat.not_lt_zero _)
    | succ fuel =>
      obtain ⟨atFrame, _, above⟩ := rep
      have nodupShape := nodup
      rw [plug] at nodup
      have inside := (nodup_plug nodup).1
      rw [Frame.fill, ids_join, nodup_around] at inside
      have notOther : some node ≠ frame.other.root := fun isOther =>
        inside.2.2.2.2 node (root_mem isNode) (root_mem isOther.symm)
      rw [climb, parent, top_cons, follows]
      dsimp only
      by_cases same : frame.side = side
      · subst same
        rw [atFrame, child_nodeOf, if_pos rfl, if_pos rfl]
        refine ih above nodup (by rw [Frame.fill, root_join]) ?_ (Nat.lt_of_succ_lt_succ enough)
        rw [atFrame, parent_nodeOf]
      · have isOpposite : side = frame.side.opposite := by
          cases side <;> cases held : frame.side <;> simp_all [Side.opposite]
        rw [if_neg same, atFrame, isOpposite, opposite_nodeOf, if_neg notOther]

theorem follows_right : follows .right path = (behind path).head? := by
  induction path with
  | nil => rfl
  | cons frame rest ih =>
    rw [follows, behind]
    cases frame.side with
    | left => rfl
    | right => exact ih

theorem follows_left : follows .left path = (before path).getLast? := by
  induction path with
  | nil => rfl
  | cons frame rest ih =>
    rw [follows, before]
    cases frame.side with
    | left => rw [List.append_nil]; exact ih
    | right => rw [List.getLast?_append]; simp

/-- `ptree_get_next` and `ptree_get_prev` -/
theorem getBeside_stands {early late : List ℕ} (stands : Stands heap tree ids) (here : ids = early ++ node :: late) (enough : ids.length < fuel) :
    getNext fuel heap node = some late.head? ∧ getPrev fuel heap node = some early.getLast? := by
  obtain ⟨whole, rfl, rep, balanced, same, nodup⟩ := stands
  have member : node ∈ whole.ids := by rw [same, here]; simp
  obtain ⟨path, left, right, rfl, fits, balancedHere⟩ := exists_path balanced member
  obtain ⟨repHere, repPath⟩ := rep_unplug rep fits
  obtain ⟨atNode, repLeft, repRight⟩ := repHere
  have lengths := length_plug path (.node left node right)
  have nodupWhole : (plug path (.node left node right)).ids.Nodup := same ▸ nodup
  have inside := (nodup_plug nodupWhole).1
  rw [show (Shape.node left node right).ids = around .left left.ids node right.ids from rfl, nodup_around] at inside
  rw [here] at same
  rw [ids_plug, Shape.ids] at same
  have notBefore := ((nodup_plug nodupWhole).2 node (by simp [Shape.ids])).1
  have notBehind := ((nodup_plug nodupWhole).2 node (by simp [Shape.ids])).2
  have parts : early = before path ++ left.ids ∧ late = right.ids ++ behind path := by
    have split : before path ++ left.ids ++ node :: (right.ids ++ behind path) = early ++ node :: late := by simpa using same
    have unique := (List.append_cons_inj_of_notMem (show node ∉ before path ++ left.ids by simp [notBefore, inside.1])
      (show node ∉ right.ids ++ behind path by simp [notBehind, inside.2.1])).mp split
    exact ⟨unique.1.symm, unique.2.2.symm⟩
  obtain ⟨rfl, rfl⟩ := parts
  have parent : (heap node).parent = top path := by rw [atNode]
  have lengthIds : (Shape.node left node right).ids.length = left.ids.length + right.ids.length + 1 := by
    simp only [Shape.ids, List.length_append, List.length_cons]
    omega
  have longer : path.length + (left.ids.length + right.ids.length + 1) < fuel := by
    have whole : (plug path (.node left node right)).ids.length = ids.length := by
      rw [here, ids_plug, Shape.ids]
      simp only [List.length_append, List.length_cons]
      omega
    omega
  have climbs : ∀ side, climb side fuel heap node = some (follows side path) := fun side =>
    climb_rep repPath nodupWhole rfl parent (by omega)
  constructor
  · rw [getNext, getBeside, Node.child, atNode]
    dsimp only
    cases isRight : right.root with
    | none =>
      dsimp only
      rw [climbs, follows_right, root_eq_none.mp isRight]
      rfl
    | some child =>
      dsimp only
      rw [Side.opposite, walk_rep repRight isRight (by omega), extreme_left]
      cases listed : right.ids with
      | nil =>
        have member := root_mem isRight
        rw [listed] at member
        cases member
      | cons first rest => rfl
  · rw [getPrev, getBeside, Node.child, atNode]
    dsimp only
    cases isLeft : left.root with
    | none =>
      dsimp only
      rw [climbs, follows_left, root_eq_none.mp isLeft, ids_nil, List.append_nil]
    | some child =>
      dsimp only
      rw [Side.opposite, walk_rep repLeft isLeft (by omega), extreme_right, List.getLast?_append]
      cases listed : left.ids.getLast? with
      | none =>
        have member := root_mem isLeft
        rw [List.getLast?_eq_none_iff.mp listed] at member
        cases member
      | some last => rfl

end

/-! The traversal that may free each node. -/

/-- The nodes that have been passed to the function hold anything. -/
def junked (junk : ℕ → Node) (ids : List ℕ) (heap : Heap) : Heap := fun x => if x ∈ ids then junk x else heap x

section
variable {heap : Heap} {junk : ℕ → Node} {shape left right : Shape ℕ} {parent tree : Option ℕ} {fuel root id : ℕ} {ids : List ℕ}

theorem postorder_perm : shape.postorder.Perm shape.ids := by
  induction shape with
  | nil => exact .nil
  | node left id right lower upper =>
    rw [postorder, Shape.ids, List.append_assoc]
    exact lower.append ((List.perm_append_comm).trans (.cons id upper))

theorem junked_apply {x : ℕ} (absent : x ∉ ids) : junked junk ids heap x = heap x := if_neg absent

theorem rep_junked (junk : ℕ → Node) (rep : Rep heap parent shape) (apart : ∀ x ∈ shape.ids, x ∉ ids) : Rep (junked junk ids heap) parent shape :=
  rep.congr fun x member => junked_apply (apart x member)

theorem junked_nil : junked junk [] heap = heap := by
  funext x
  exact junked_apply List.not_mem_nil

theorem junked_append {one two : List ℕ} : junked junk two (junked junk one heap) = junked junk (one ++ two) heap := by
  funext x
  unfold junked
  by_cases inTwo : x ∈ two
  · rw [if_pos inTwo, if_pos (List.mem_append_right _ inTwo)]
  · by_cases inOne : x ∈ one
    · rw [if_neg inTwo, if_pos inOne, if_pos (List.mem_append_left _ inOne)]
    · rw [if_neg inTwo, if_neg inOne, if_neg (by simp [inOne, inTwo])]

theorem junked_update : Function.update (junked junk ids heap) id (junk id) = junked junk (id :: ids) heap := by
  funext x
  rw [Function.update_apply]
  unfold junked
  by_cases same : x = id
  · rw [if_pos same, if_pos (by simp [same]), same]
  · rw [if_neg same]
    simp only [List.mem_cons, same, false_or]

theorem junked_congr {other : List ℕ} (same : ∀ x, x ∈ ids ↔ x ∈ other) : junked junk ids heap = junked junk other heap := by
  funext x
  unfold junked
  simp only [same]

/-- The walk down looks at the shape alone. -/
theorem walkSafe_congr {after : Heap} (rep : Rep heap parent shape) (isRoot : shape.root = some root)
    (same : ∀ x ∈ shape.ids, after x = heap x) : walkSafe fuel after root = walkSafe fuel heap root := by
  induction shape generalizing parent root fuel with
  | nil => cases isRoot
  | node left id right lower upper =>
    cases isRoot
    obtain ⟨here, repLeft, repRight⟩ := rep
    cases fuel with
    | zero => rfl
    | succ fuel =>
      rw [walkSafe, walkSafe, same id (by simp [Shape.ids]), here]
      cases isLeft : left.root with
      | some child => exact lower repLeft isLeft fun x member => same x (by simp [Shape.ids, member])
      | none =>
        cases isRight : right.root with
        | some child => exact upper repRight isRight fun x member => same x (by simp [Shape.ids, member])
        | none => rfl

/-- From the node to which the walk down from the root goes, the loop passes all nodes of a shape, the root last. -/
theorem callSafe_rep (junk : ℕ → Node) (rep : Rep heap parent shape) (nodup : shape.ids.Nodup) (isRoot : shape.root = some root)
    (enough : shape.ids.length ≤ fuel) : ∃ leaf, (∀ any, shape.ids.length ≤ any → walkSafe any heap root = some leaf) ∧
      ∀ steps, callSafe junk fuel (steps + shape.ids.length) heap (some leaf) =
        (getNextSafe fuel (junked junk (shape.ids.erase root) heap) root).bind fun next =>
          (callSafe junk fuel steps (junked junk shape.ids heap) next).map (shape.postorder ++ ·) := by
  induction shape generalizing heap parent root with
  | nil => cases isRoot
  | node left id right lower upper =>
    cases isRoot
    obtain ⟨here, repLeft, repRight⟩ := rep
    rw [show (Shape.node left id right).ids = around .left left.ids id right.ids from rfl, nodup_around] at nodup
    obtain ⟨freshLeft, freshRight, nodupLeft, nodupRight, apart⟩ := nodup
    have length : (Shape.node left id right).ids.length = left.ids.length + right.ids.length + 1 := by
      simp only [Shape.ids, List.length_append, List.length_cons]
      omega
    have erased : (Shape.node left id right).ids.erase id = left.ids ++ right.ids := by
      rw [Shape.ids, List.erase_append_right _ freshLeft, List.erase_cons_head]
    rw [erased, length]
    -- what is left to do once the children have been passed
    let result (steps : ℕ) (passed : List ℕ) : Option (List ℕ) :=
      (getNextSafe fuel (junked junk (left.ids ++ right.ids) heap) id).bind fun next =>
        (callSafe junk fuel steps (junked junk (Shape.node left id right).ids heap) next).map (passed ++ ·)
    have result_map : ∀ steps before passed, (result steps passed).map (before ++ ·) = result steps (before ++ passed) := by
      intro steps before passed
      simp only [result, Option.map_bind]
      congr 1
      funext next
      rw [Function.comp_apply, Option.map_map]
      congr 1
      funext rest
      rw [Function.comp_apply, List.append_assoc]
    have visitRoot : ∀ steps, callSafe junk fuel (steps + 1) (junked junk (left.ids ++ right.ids) heap) (some id) = result steps [id] := by
      intro steps
      have all : junked junk (id :: (left.ids ++ right.ids)) heap = junked junk (Shape.node left id right).ids heap :=
        junked_congr fun x => by simp [Shape.ids]; tauto
      rw [callSafe, junked_update, all]
      change Option.bind _ _ = Option.bind _ _
      congr 1
      funext next
      cases callSafe junk fuel steps (junked junk (Shape.node left id right).ids heap) next <;> rfl
    have atId : ∀ {before : List ℕ}, id ∉ before → junked junk before heap id = ⟨left.root, right.root, parent, (Shape.node left id right).height⟩ :=
      fun absent => (junked_apply absent).trans here
    -- the right child, with the left one passed
    have visitRight : ∀ {child}, right.root = some child → ∃ leaf, (∀ any, right.ids.length ≤ any → walkSafe any heap child = some leaf) ∧
        ∀ steps, callSafe junk fuel (steps + 1 + right.ids.length) (junked junk left.ids heap) (some leaf) =
          result steps (right.postorder ++ [id]) := by
      intro child isRight
      have apartRight : ∀ x ∈ right.ids, x ∉ left.ids := fun x member inLeft => apart x inLeft member
      obtain ⟨leaf, walks, passes⟩ := upper (rep_junked junk repRight apartRight) nodupRight isRight (by omega)
      refine ⟨leaf, fun any enough => ?_, fun steps => ?_⟩
      · rw [← walks any enough]
        exact (walkSafe_congr repRight isRight fun x member => junked_apply (apartRight x member)).symm
      · have childIn := root_mem isRight
        have notErased : child ∉ right.ids.erase child := fun member => (nodupRight.mem_erase_iff.mp member).1 rfl
        have parentChild : (heap child).parent = some id := by
          obtain ⟨l, i, r, rfl⟩ := exists_join .left right (by rw [isRight]; exact Option.some_ne_none _)
          cases isRight
          rw [repRight.1]
        have goesUp : getNextSafe fuel (junked junk (right.ids.erase child) (junked junk left.ids heap)) child = some (some id) := by
          rw [getNextSafe, junked_apply notErased, junked_apply (apartRight child childIn), parentChild]
          dsimp only
          rw [junked_apply fun member => freshRight (List.mem_of_mem_erase member), atId freshLeft, isRight]
          exact if_pos rfl
        rw [passes (steps + 1), goesUp, Option.bind_some, junked_append, visitRoot, result_map]
    cases isLeft : left.root with
    | none =>
      obtain rfl := root_eq_none.mp isLeft
      cases isRight : right.root with
      | none =>
        obtain rfl := root_eq_none.mp isRight
        refine ⟨id, fun any enough => ?_, fun steps => ?_⟩
        · cases any with
          | zero => cases enough
          | succ any => rw [walkSafe, here]; rfl
        · have visited := visitRoot steps
          rw [ids_nil, List.append_nil, junked_nil] at visited
          exact visited
      | some child =>
        obtain ⟨leaf, walks, passes⟩ := visitRight isRight
        refine ⟨leaf, fun any enough => ?_, fun steps => ?_⟩
        · cases any with
          | zero => omega
          | succ any =>
            rw [walkSafe, here, isRight]
            exact walks any (by omega)
        · have passed := passes steps
          rw [ids_nil, junked_nil] at passed
          rw [ids_nil, List.length_nil, show steps + (0 + right.ids.length + 1) = steps + 1 + right.ids.length by omega]
          exact passed
    | some child =>
      obtain ⟨leaf, walks, passes⟩ := lower repLeft nodupLeft isLeft (by omega)
      refine ⟨leaf, fun any enough => ?_, fun steps => ?_⟩
      · cases any with
        | zero => omega
        | succ any =>
          rw [walkSafe, here, isLeft]
          exact walks any (by omega)
      · have childIn := root_mem isLeft
        have notErased : child ∉ left.ids.erase child := fun member => (nodupLeft.mem_erase_iff.mp member).1 rfl
        have parentChild : (heap child).parent = some id := by
          obtain ⟨l, i, r, rfl⟩ := exists_join .left left (by rw [isLeft]; exact Option.some_ne_none _)
          cases isLeft
          rw [repLeft.1]
        have idFresh : id ∉ left.ids.erase child := fun member => freshLeft (List.mem_of_mem_erase member)
        rw [show steps + (left.ids.length + right.ids.length + 1) = steps + 1 + right.ids.length + left.ids.length by omega, passes]
        cases isRight : right.root with
        | none =>
          obtain rfl := root_eq_none.mp isRight
          have goesUp : getNextSafe fuel (junked junk (left.ids.erase child) heap) child = some (some id) := by
            rw [getNextSafe, junked_apply notErased, parentChild]
            dsimp only
            rw [atId idFresh]
            rfl
          have visited := visitRoot steps
          rw [ids_nil, List.append_nil] at visited
          rw [goesUp, Option.bind_some, ids_nil, List.length_nil, Nat.add_zero, visited]
          have shorter : (Shape.node left id .nil).postorder = left.postorder ++ [id] := by simp [postorder]
          rw [shorter]
          exact result_map steps left.postorder [id]
        | some other =>
          obtain ⟨leafRight, walksRight, passesRight⟩ := visitRight isRight
          have ne : other ≠ child := fun same => apart child childIn (same ▸ root_mem isRight)
          have goesDown : getNextSafe fuel (junked junk (left.ids.erase child) heap) child = some (some leafRight) := by
            rw [getNextSafe, junked_apply notErased, parentChild]
            dsimp only
            rw [atId idFresh, isRight]
            dsimp only
            rw [if_neg ne, walkSafe_congr repRight isRight fun x member => junked_apply fun erased =>
              apart x (List.mem_of_mem_erase erased) member, walksRight fuel (by omega)]
            rfl
          rw [goesDown, Option.bind_some, passesRight steps]
          exact (result_map steps left.postorder (right.postorder ++ [id])).trans (by rw [← List.append_assoc]; rfl)

/-- A child comes before its parent. -/
theorem child_first {child : ℕ} (rep : Rep heap parent shape) (member : child ∈ shape.ids) (isParent : (heap child).parent = some id) :
    (shape.root = some child ∧ parent = some id) ∨ [child, id].Sublist shape.postorder := by
  induction shape generalizing parent with
  | nil => cases member
  | node left top right lower upper =>
    obtain ⟨here, repLeft, repRight⟩ := rep
    have pair : ∀ {before : List ℕ}, child ∈ before → [child, top].Sublist (before ++ [top]) := fun listed =>
      List.Sublist.append (List.singleton_sublist.mpr listed) (List.Sublist.refl [top])
    have listed : ∀ {below : Shape ℕ}, below.root = some child → child ∈ below.postorder := fun isRoot =>
      postorder_perm.mem_iff.mpr (root_mem isRoot)
    rw [postorder]
    rcases List.mem_append.mp member with inLeft | inRest
    · refine .inr ?_
      rcases lower repLeft inLeft with ⟨isRoot, same⟩ | before
      · cases same
        exact pair (List.mem_append_left _ (listed isRoot))
      · exact (before.trans (List.sublist_append_left _ _)).trans (List.sublist_append_left _ _)
    · rcases List.mem_cons.mp inRest with rfl | inRight
      · rw [here] at isParent
        exact .inl ⟨rfl, isParent⟩
      · refine .inr ?_
        rcases upper repRight inRight with ⟨isRoot, same⟩ | before
        · cases same
          exact pair (List.mem_append_right _ (listed isRoot))
        · exact (before.trans (List.sublist_append_right _ _)).trans (List.sublist_append_left _ _)

/-- `ptree_for_each_element_call_safe` -/
theorem forEachCallSafe_stands (stands : Stands heap tree ids) (enough : ids.length ≤ fuel) :
    ∃ visited, forEachCallSafe junk fuel heap tree = some visited ∧ visited.Perm ids ∧
      ∀ child ∈ ids, ∀ id, (heap child).parent = some id → [child, id].Sublist visited := by
  obtain ⟨whole, rfl, rep, _, rfl, nodup⟩ := stands
  refine ⟨whole.postorder, ?_, postorder_perm, fun child member id isParent => ?_⟩
  · rw [forEachCallSafe]
    cases isRoot : whole.root with
    | none =>
      rw [root_eq_none.mp isRoot]
      cases fuel <;> rfl
    | some root =>
      obtain ⟨leaf, walks, passes⟩ := callSafe_rep junk rep nodup isRoot enough
      have parentRoot : (heap root).parent = none := by
        obtain ⟨l, i, r, rfl⟩ := exists_join .left whole (by rw [isRoot]; exact Option.some_ne_none _)
        cases isRoot
        rw [rep.1]
      have goesUp : getNextSafe fuel (junked junk (whole.ids.erase root) heap) root = some none := by
        rw [getNextSafe, junked_apply fun member => (nodup.mem_erase_iff.mp member).1 rfl, parentRoot]
      have passed := passes (fuel - whole.ids.length)
      rw [Nat.sub_add_cancel enough, goesUp, Option.bind_some] at passed
      rw [getFirstSafe, walks fuel enough]
      refine passed.trans ?_
      cases fuel - whole.ids.length <;> simp [callSafe]
  · rcases child_first rep member isParent with ⟨_, same⟩ | before
    · cases same
    · exact before

end

/-! Every sequence of operations. -/

/-- The operation is about nodes that are there, and a new one that is not. -/
def Valid (heap : Heap) (ids : List ℕ) : Op → Prop
  | .addBefore near newnode => newnode ∉ ids ∧ ∀ id, near = some id → id ∈ ids
  | .addAfter near newnode => newnode ∉ ids ∧ ∀ id, near = some id → id ∈ ids
  | .addedAt (some (id, side)) newnode => newnode ∉ ids ∧ id ∈ ids ∧ (heap id).child side = none
  | .addedAt none _ => ids = []
  | .del id => id ∈ ids

/-- What the operation does to the sequence of the nodes. -/
def sequel (ids : List ℕ) : Op → List ℕ
  | .addBefore near newnode => insertAt .left near newnode ids
  | .addAfter near newnode => insertAt .right near newnode ids
  | .addedAt (some (id, side)) newnode => insertAt side (some id) newnode ids
  | .addedAt none newnode => [newnode]
  | .del id => ids.erase id

/-- The trees that the operations make out of the empty one, with the sequences of their nodes. The rest of the
memory may be changed by others. -/
inductive Reached : Heap → Option ℕ → List ℕ → Prop
  | empty (heap : Heap) : Reached heap none []
  | elsewhere {heap after : Heap} {tree : Option ℕ} {ids : List ℕ} (before : Reached heap tree ids)
      (same : ∀ id ∈ ids, after id = heap id) : Reached after tree ids
  | step {heap after : Heap} {tree final : Option ℕ} {ids : List ℕ} (op : Op) (before : Reached heap tree ids)
      (valid : Valid heap ids op) (ran : apply (ids.length + 1) heap tree op = some (after, final)) :
      Reached after final (sequel ids op)

section
variable {heap : Heap} {tree : Option ℕ} {ids : List ℕ} {fuel : ℕ} {op : Op}

theorem apply_stands (stands : Stands heap tree ids) (valid : Valid heap ids op) (enough : ids.length < fuel) :
    ∃ after final, apply fuel heap tree op = some (after, final) ∧ Stands after final (sequel ids op) := by
  cases op with
  | addBefore node newnode => exact getAdd_stands stands valid.1 valid.2 enough
  | addAfter node newnode => exact getAdd_stands stands valid.1 valid.2 enough
  | addedAt place newnode =>
    cases place with
    | none => exact getAddedAt_empty fuel tree
    | some place => exact getAddedAt_stands stands valid.1 valid.2.1 valid.2.2 enough
  | del node => exact getDel_stands stands valid enough

theorem reached_stands (reached : Reached heap tree ids) : Stands heap tree ids := by
  induction reached with
  | empty heap => exact ⟨.nil, rfl, trivial, trivial, rfl, List.nodup_nil⟩
  | elsewhere _ same ih =>
    obtain ⟨whole, isRoot, rep, balanced, rfl, nodup⟩ := ih
    exact ⟨whole, isRoot, rep.congr same, balanced, rfl, nodup⟩
  | step op _ valid ran ih =>
    obtain ⟨after, final, runs, stands⟩ := apply_stands ih valid (Nat.lt_succ_self _)
    cases ran.symm.trans runs
    exact stands

end

/-- What a tree is for its users. -/
structure Works (heap : Heap) (tree : Option ℕ) (ids : List ℕ) : Prop where
  /-- It is in memory with true heights and the parents of its nodes, is balanced, and has its nodes in order. -/
  stands : Stands heap tree ids
  ends : ∀ fuel, ids.length ≤ fuel → getFirst fuel heap tree = some ids.head? ∧ getLast fuel heap tree = some ids.getLast?
  beside : ∀ fuel early id late, ids = early ++ id :: late → ids.length < fuel →
    getNext fuel heap id = some late.head? ∧ getPrev fuel heap id = some early.getLast?
  freed : ∀ fuel junk, ids.length ≤ fuel → ∃ visited, forEachCallSafe junk fuel heap tree = some visited ∧ visited.Perm ids ∧
    ∀ child ∈ ids, ∀ id, (heap child).parent = some id → [child, id].Sublist visited
  next : ∀ fuel op, Valid heap ids op → ids.length < fuel →
    ∃ after final, apply fuel heap tree op = some (after, final) ∧ Stands after final (sequel ids op)

theorem reached_works {heap : Heap} {tree : Option ℕ} {ids : List ℕ} (reached : Reached heap tree ids) : Works heap tree ids := by
  have stands := reached_stands reached
  exact ⟨stands, fun fuel enough => getEnd_stands stands enough, fun fuel early id late here enough => getBeside_stands stands here enough,
    fun fuel junk enough => forEachCallSafe_stands stands enough, fun fuel op valid enough => apply_stands stands valid enough⟩

theorem reached_works_two : ∃ heap tree, Reached heap tree [3, 5] ∧ Works heap tree [3, 5] := by
  have one : Reached _ _ [5] := .step (.addAfter none 5) (.empty fun _ => ⟨none, none, none, 0⟩) ⟨by simp, by simp⟩ rfl
  have two : Reached _ _ [3, 5] := .step (.addBefore (some 5) 3) one ⟨by simp, by simp⟩ rfl
  exact ⟨_, _, two, reached_works two⟩

end Pclsync.Proofs.Ptree
