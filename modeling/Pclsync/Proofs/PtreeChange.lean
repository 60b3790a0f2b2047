import Pclsync.Proofs.PtreeLoops

/-! Insertion into a tree in memory, and deletion from it. -/

namespace Pclsync.Proofs.PtreeChange
open Library Pclsync.Ptree Shape PtreeHeap PtreeLoops

/-! Insertion. -/

section
variable {heap : Heap} {shape whole child other : Shape ℕ} {path rest : List (Frame ℕ)} {frame : Frame ℕ} {fuel node newnode tree : ℕ}
  {side : Side} {parent : Option ℕ}

theorem walk_rep (rep : Rep heap parent shape) (isRoot : shape.root = some tree) (enough : shape.ids.length ≤ fuel) :
    walk side fuel heap tree = shape.extreme side := by
  induction shape using join_induction side generalizing parent tree fuel with
  | nil => cases isRoot
  | join child id other ih _ =>
    obtain ⟨here, repChild, _⟩ := rep_join.mp rep
    rw [root_join] at isRoot
    cases isRoot
    have length : (join side child id other).ids.length = child.ids.length + other.ids.length + 1 := by rw [ids_join, length_around]
    cases fuel with
    | zero => omega
    | succ fuel =>
      rw [walk, here, child_nodeOf, extreme_join]
      cases isChild : child.root with
      | none =>
        rw [root_eq_none.mp isChild]
        rfl
      | some below =>
        obtain ⟨last, isLast⟩ := Option.ne_none_iff_exists'.mp fun empty : child.extreme side = none => by
          rw [extreme_eq_none.mp empty] at isChild
          cases isChild
        rw [isLast, Option.some_or, ← isLast]
        exact ih repChild isChild (by omega)

theorem initNode_apply {x : ℕ} (ne : x ≠ newnode) : initNode heap newnode x = heap x := Function.update_of_ne ne _ _

/-- A leaf at a free place. -/
theorem hang_rep (rep : Rep heap none (plug path (join side .nil node other))) (fits : Fits path (join side .nil node other).height)
    (balanced : (join side .nil node other).Balanced) (nodup : (plug path (join side .nil node other)).ids.Nodup)
    (fresh : newnode ∉ (plug path (join side .nil node other)).ids) (enough : path.length < fuel) :
    ∃ after whole, goUpRebalanceAdd fuel (((initNode heap newnode).setChild node side (some newnode)).setParent newnode (some node))
        (plug path (join side .nil node other)).root node = some (after, whole.root) ∧
      Rep after none whole ∧ whole.Balanced ∧ whole.ids = before path ++ around side [newnode] node other.ids ++ behind path := by
  obtain ⟨repHere, repPath⟩ := rep_unplug rep fits
  obtain ⟨atNode, _, repOther⟩ := rep_join.mp repHere
  obtain ⟨_, balancedOther, near⟩ := balanced_join.mp balanced
  rw [ids_plug, List.mem_append, List.mem_append, not_or, not_or] at fresh
  obtain ⟨⟨freshBefore, freshHere⟩, freshBehind⟩ := fresh
  rw [ids_join, mem_around, not_or, not_or] at freshHere
  obtain ⟨ne, _, freshOther⟩ := freshHere
  obtain ⟨inside, apart⟩ := nodup_plug nodup
  rw [ids_join, nodup_around] at inside
  obtain ⟨notBefore, notBehind⟩ := apart node (by rw [ids_join, mem_around]; exact .inl rfl)
  let hung : Heap := ((initNode heap newnode).setChild node side (some newnode)).setParent newnode (some node)
  have others : ∀ x, x ≠ newnode → x ≠ node → hung x = heap x := by
    intro x notNew notNode
    simp only [hung, Heap.setParent, Heap.setChild, set_apply, if_neg notNew, if_neg notNode, initNode_apply notNew]
  have hungNew : hung newnode = ⟨none, none, some node, 1⟩ := by
    simp only [hung, Heap.setParent, Heap.setChild, set_apply, if_true, if_neg ne, initNode, Function.update_self]
  have hungNode : hung node = nodeOf side (some newnode) other.root (top path) (join side .nil node other).height := by
    simp only [hung, Heap.setParent, Heap.setChild, set_apply, if_true, if_neg (Ne.symm ne), initNode_apply (Ne.symm ne), atNode,
      setChild_nodeOf]
  let leaf : Shape ℕ := .node .nil newnode .nil
  let frame : Frame ℕ := ⟨side, node, (join side .nil node other).height, other⟩
  have repPath' : RepPath hung (frame :: path) leaf.root := by
    refine ⟨hungNode, repOther.congr fun x member => others x ?_ ?_, ?_⟩
    · rintro rfl
      exact freshOther member
    · rintro rfl
      exact inside.2.1 member
    · rw [root_join] at repPath
      refine repPath.congr fun x member => others x ?_ ?_
      · rintro rfl
        exact member.elim freshBefore freshBehind
      · rintro rfl
        exact member.elim notBefore notBehind
  have ids : (plug (frame :: path) leaf).ids = before path ++ around side [newnode] node other.ids ++ behind path := by
    rw [plug, ids_plug, Frame.fill, ids_join]
    rfl
  have nodupHung : (plug (frame :: path) leaf).ids.Nodup := by
    rw [ids, around_perm.nodup_iff, List.nodup_cons]
    rw [ids_plug, ids_join] at nodup
    refine ⟨?_, nodup⟩
    rw [List.mem_append, List.mem_append, mem_around]
    have absent : newnode ∉ ([] : List ℕ) := List.not_mem_nil
    tauto
  obtain ⟨after, whole, goes, repWhole, balancedWhole, idsWhole⟩ := goUpRebalanceAdd_rep enough
    (show Rep hung (some frame.id) leaf from ⟨hungNew, trivial, trivial⟩) repPath' nodupHung ⟨trivial, trivial, by decide, by decide⟩
    (.inr rfl) ⟨balancedOther, near, height_join, fits⟩
  refine ⟨after, whole, ?_, repWhole, balancedWhole, idsWhole.trans ids⟩
  rw [root_plug, root_join]
  exact goes

theorem addBeside_rep (side : Side) (rep : Rep heap none whole) (balanced : whole.Balanced) (nodup : whole.ids.Nodup) (member : node ∈ whole.ids)
    (fresh : newnode ∉ whole.ids) (enough : whole.ids.length < fuel) :
    ∃ after final, addBeside side fuel heap whole.root node newnode = some (after, final.root) ∧ Rep after none final ∧
      final.Balanced ∧ final.ids = insertBeside side node newnode whole.ids := by
  obtain ⟨path, child, other, rfl, fits, balancedHere⟩ := exists_path_join side balanced member
  obtain ⟨repHere, _⟩ := rep_unplug rep fits
  obtain ⟨atNode, repChild, _⟩ := rep_join.mp repHere
  have ne : node ≠ newnode := by rintro rfl; exact fresh member
  have length := length_plug path (join side child node other)
  rw [ids_join, length_around] at length
  obtain ⟨inside, apart⟩ := nodup_plug nodup
  rw [ids_join, nodup_around] at inside
  have notBefore := (apart node (by rw [ids_join, mem_around]; exact .inl rfl)).1
  have childEq : ((initNode heap newnode) node).child side = child.root := by rw [initNode_apply ne, atNode, child_nodeOf]
  rw [addBeside]
  simp only [childEq]
  cases isChild : child.root with
  | none =>
    obtain rfl := root_eq_none.mp isChild
    obtain ⟨after, final, goes, repFinal, balancedFinal, ids⟩ := hang_rep rep fits balancedHere nodup fresh (show path.length < fuel by omega)
    exact ⟨after, final, goes, repFinal, balancedFinal, ids.trans (insertBeside_free nodup).symm⟩
  | some below =>
    let frame : Frame ℕ := ⟨side, node, (join side child node other).height, other⟩
    have nonempty : child ≠ .nil := by rintro rfl; cases isChild
    obtain ⟨balancedChild, balancedOther, near⟩ := balanced_join.mp balancedHere
    obtain ⟨inner, last, id, same, fitsLast, sides, balancedLast, isEnd⟩ := exists_end side.opposite (frame :: path) balancedChild
      ⟨balancedOther, near, height_join, fits⟩ nonempty
    have again : plug path (join side child node other) = plug (inner ++ frame :: path) (join side.opposite .nil id last) := same
    have walks : walk side.opposite fuel (initNode heap newnode) below = some id := by
      rw [← isEnd]
      refine walk_rep (repChild.congr fun x listed => initNode_apply ?_) isChild (by omega)
      rintro rfl
      refine fresh ?_
      rw [ids_plug, ids_join, List.mem_append, List.mem_append, mem_around]
      exact .inl (.inr (.inr (.inl listed)))
    have lengthLast := length_plug (inner ++ frame :: path) (join side.opposite .nil id last)
    rw [← again] at lengthLast
    rw [again] at rep nodup fresh
    obtain ⟨after, final, goes, repFinal, balancedFinal, ids⟩ := hang_rep rep fitsLast balancedLast nodup
      fresh (show (inner ++ frame :: path).length < fuel by omega)
    rw [← again] at goes
    refine ⟨after, final, ?_, repFinal, balancedFinal, ids.trans ?_⟩
    · rw [← goes]
      simp only [walks, Option.bind_eq_bind, Option.bind_some]
    · -- the end of the child is next to the node
      have idsSame := congrArg Shape.ids again
      rw [ids_plug, ids_plug, ids_join, ids_join] at idsSame
      rw [ids_plug, ids_join]
      cases side with
      | left =>
        have late : behind (inner ++ frame :: path) = node :: other.ids ++ behind path := behind_append_right sides
        simp only [around, Side.opposite, late, ids_nil] at idsSame ⊢
        have early : before path ++ child.ids = before (inner ++ frame :: path) ++ (last.ids ++ [id]) := by
          refine List.append_cancel_right (?_ : _ ++ (node :: other.ids ++ behind path) = _)
          simpa using idsSame
        have absent : node ∉ before path ++ child.ids := by
          rw [List.mem_append, not_or]
          exact ⟨notBefore, inside.1⟩
        have put := insertBeside_append .left newnode (other.ids ++ behind path) absent
        have parts : before path ++ (child.ids ++ node :: other.ids) ++ behind path =
            before path ++ child.ids ++ node :: (other.ids ++ behind path) := by simp
        rw [parts, put, early]
        simp [around]
      | right =>
        have early : before (inner ++ frame :: path) = before path ++ (other.ids ++ [node]) := before_append_left sides
        simp only [around, Side.opposite, early, ids_nil, List.nil_append] at idsSame ⊢
        have late : child.ids ++ behind path = id :: last.ids ++ behind (inner ++ frame :: path) := by
          refine List.append_cancel_left (?_ : before path ++ (other.ids ++ [node]) ++ _ = _)
          simpa using idsSame
        have absent : node ∉ before path ++ other.ids := by
          rw [List.mem_append, not_or]
          exact ⟨notBefore, inside.2.1⟩
        have put := insertBeside_append .right newnode (child.ids ++ behind path) absent
        have parts : before path ++ (other.ids ++ node :: child.ids) ++ behind path =
            before path ++ other.ids ++ node :: (child.ids ++ behind path) := by simp
        rw [parts, put, late]
        simp [around]

end

/-! The operations on a tree in memory. -/

/-- A balanced tree in memory whose nodes are these, in order. -/
def Stands (heap : Heap) (tree : Option ℕ) (ids : List ℕ) : Prop :=
  ∃ whole : Shape ℕ, tree = whole.root ∧ Rep heap none whole ∧ whole.Balanced ∧ whole.ids = ids ∧ ids.Nodup

section
variable {heap : Heap} {tree node parent : Option ℕ} {ids : List ℕ} {side : Side} {fuel newnode : ℕ}

/-- A new number next to one that is there is not there twice. -/
theorem insertAt_nodup (nodup : ids.Nodup) (fresh : newnode ∉ ids) (there : ∀ id, node = some id → id ∈ ids) :
    (insertAt side node newnode ids).Nodup := by
  cases node with
  | none =>
    cases side with
    | right => exact List.nodup_cons.mpr ⟨fresh, nodup⟩
    | left =>
      have swapped : (ids ++ [newnode]).Perm (newnode :: ids) := by simp
      exact swapped.nodup_iff.mpr (List.nodup_cons.mpr ⟨fresh, nodup⟩)
  | some id =>
    obtain ⟨early, late, rfl⟩ := List.append_of_mem (there id rfl)
    have absent : id ∉ early := by
      rw [List.nodup_append] at nodup
      exact fun member => nodup.2.2 id member id List.mem_cons_self rfl
    rw [insertAt, insertBeside_append _ _ _ absent, around_perm.nodup_iff, List.nodup_cons]
    have same : early ++ around side [] id [] ++ late = early ++ id :: late := by cases side <;> simp [around]
    rw [same]
    exact ⟨fresh, nodup⟩

theorem getAdd_stands (stands : Stands heap tree ids) (fresh : newnode ∉ ids) (there : ∀ id, node = some id → id ∈ ids)
    (enough : ids.length < fuel) :
    ∃ after final, getAdd side fuel heap tree node newnode = some (after, final) ∧ Stands after final (insertAt side node newnode ids) := by
  obtain ⟨whole, rfl, rep, balanced, rfl, nodup⟩ := stands
  have nodupFinal : (insertAt side node newnode whole.ids).Nodup := insertAt_nodup nodup fresh there
  cases isRoot : whole.root with
  | none =>
    obtain rfl := root_eq_none.mp isRoot
    have empty : node = none := Option.eq_none_iff_forall_not_mem.mpr fun id isNode => List.not_mem_nil (there id isNode)
    subst empty
    refine ⟨_, _, rfl, .node .nil newnode .nil, rfl, ⟨?_, trivial, trivial⟩, ⟨trivial, trivial, by decide, by decide⟩, ?_, nodupFinal⟩
    · exact Function.update_self _ _ _
    · cases side <;> rfl
  | some root =>
    have nonempty : whole ≠ .nil := by rintro rfl; cases isRoot
    cases node with
    | none =>
      obtain ⟨last, isEnd⟩ := Option.ne_none_iff_exists'.mp fun empty : whole.extreme side.opposite = none =>
        nonempty (extreme_eq_none.mp empty)
      have member : last ∈ whole.ids := by
        cases side with
        | right => exact List.mem_of_head? (extreme_left.symm.trans isEnd)
        | left => exact List.mem_of_getLast? (extreme_right.symm.trans isEnd)
      obtain ⟨after, final, adds, repFinal, balancedFinal, same⟩ := addBeside_rep side.opposite rep balanced nodup member fresh enough
      rw [insertBeside_extreme nodup isEnd] at same
      refine ⟨after, final.root, ?_, final, rfl, repFinal, balancedFinal, same, nodupFinal⟩
      rw [getAdd]
      simp only [walk_rep rep isRoot enough.le, isEnd, Option.bind_eq_bind, Option.bind_some]
      rw [← isRoot]
      exact adds
    | some id =>
      obtain ⟨after, final, adds, repFinal, balancedFinal, same⟩ := addBeside_rep side rep balanced nodup (there id rfl) fresh enough
      refine ⟨after, final.root, ?_, final, rfl, repFinal, balancedFinal, same, nodupFinal⟩
      rw [isRoot] at adds
      exact adds

/-- A node below one that has a free place there. -/
theorem getAddedAt_stands {id : ℕ} (stands : Stands heap tree ids) (fresh : newnode ∉ ids) (there : id ∈ ids)
    (free : (heap id).child side = none) (enough : ids.length < fuel) :
    ∃ after final, getAddedAt fuel (putAt heap tree (some (id, side)) newnode).1 (putAt heap tree (some (id, side)) newnode).2 (some id) newnode =
        some (after, final) ∧ Stands after final (insertAt side (some id) newnode ids) := by
  obtain ⟨whole, rfl, rep, balanced, rfl, nodup⟩ := stands
  have nodupFinal : (insertAt side (some id) newnode whole.ids).Nodup :=
    insertAt_nodup nodup fresh fun held same => by cases same; exact there
  have ne : id ≠ newnode := by rintro rfl; exact fresh there
  obtain ⟨path, child, other, rfl, fits, balancedHere⟩ := exists_path_join side balanced there
  obtain ⟨repHere, _⟩ := rep_unplug rep fits
  obtain ⟨atNode, _, _⟩ := rep_join.mp repHere
  rw [atNode, child_nodeOf, root_eq_none] at free
  subst free
  have length := length_plug path (join side .nil id other)
  obtain ⟨after, final, goes, repFinal, balancedFinal, same⟩ := hang_rep rep fits balancedHere nodup fresh (show path.length < fuel by omega)
  refine ⟨after, final.root, ?_, final, rfl, repFinal, balancedFinal, same.trans (insertBeside_free nodup).symm, nodupFinal⟩
  rw [getAddedAt, putAt]
  have swapped : (initNode (heap.setChild id side (some newnode)) newnode).setParent newnode (some id) =
      ((initNode heap newnode).setChild id side (some newnode)).setParent newnode (some id) := by
    funext x
    simp only [Heap.setParent, Heap.setChild, set_apply, initNode, Function.update_apply, if_true, if_neg ne, if_neg (Ne.symm ne)]
    split
    · rfl
    · rfl
  rw [← goes, ← swapped]

theorem getAddedAt_empty (fuel : ℕ) (tree : Option ℕ) :
    ∃ after final, getAddedAt fuel (putAt heap tree none newnode).1 (putAt heap tree none newnode).2 none newnode = some (after, final) ∧
      Stands after final [newnode] := by
  refine ⟨_, _, rfl, .node .nil newnode .nil, rfl, ⟨?_, trivial, trivial⟩, ⟨trivial, trivial, by decide, by decide⟩, rfl,
    List.nodup_singleton _⟩
  rw [Heap.setParent, set_apply, if_pos rfl, putAt, initNode, Function.update_self]
  rfl

end

/-! Deletion. -/

section
variable {heap : Heap} {tree : Option ℕ} {ids : List ℕ} {side : Side} {fuel node : ℕ} {path : List (Frame ℕ)} {child repl : Shape ℕ}

/-- A node without two children. -/
theorem replaceMeWith_rep (side : Side) (rep : Rep heap none (plug path (join side .nil node repl))) (fits : Fits path (join side .nil node repl).height)
    (balanced : (join side .nil node repl).Balanced) (nodup : (plug path (join side .nil node repl)).ids.Nodup)
    (enough : path.length < fuel) :
    ∃ after final, replaceMeWith fuel heap (plug path (join side .nil node repl)).root node repl.root = some (after, final.root) ∧
      Rep after none final ∧ final.Balanced ∧ final.ids = before path ++ repl.ids ++ behind path := by
  obtain ⟨repHere, repPath⟩ := rep_unplug rep fits
  obtain ⟨atNode, _, repRepl⟩ := rep_join.mp repHere
  obtain ⟨_, balancedRepl, near⟩ := balanced_join.mp balanced
  have lower : (join side .nil node repl).height = repl.height + 1 := by
    have nonneg := repl.height_nonneg
    rw [height_join, height_nil, max_eq_right nonneg]
  have parentEq : (heap node).parent = top path := by rw [atNode, parent_nodeOf]
  rw [replaceMeWith]
  simp only [parentEq]
  cases path with
  | nil =>
    cases isRoot : repl.root with
    | none =>
      obtain rfl := root_eq_none.mp isRoot
      exact ⟨heap, .nil, rfl, trivial, trivial, rfl⟩
    | some root =>
      obtain ⟨left, id, right, rfl⟩ := exists_join .left repl (by rw [isRoot]; exact Option.some_ne_none _)
      obtain ⟨lowerRoot, higherRoot⟩ := near
      have nonnegLeft := left.height_nonneg
      have nonnegRight := right.height_nonneg
      rw [height_join, height_nil] at higherRoot
      obtain rfl := height_eq_zero.mp (show left.height = 0 by omega)
      obtain rfl := height_eq_zero.mp (show right.height = 0 by omega)
      rw [root_join] at isRoot
      cases isRoot
      let frame : Frame ℕ := ⟨.left, root, 1, .nil⟩
      have atRoot : (heap.setParent root none) root = nodeOf .left none none none 1 := by
        rw [Heap.setParent, set_apply, if_pos rfl, repRepl.1]
        rfl
      have fitsLeaf : Fits [frame] 0 := ⟨trivial, ⟨by simp [frame], by simp [frame]⟩, by simp [frame], trivial⟩
      obtain ⟨after, final, goes, repFinal, balancedFinal, same⟩ := goUpRebalanceDel_rep enough
        (show Rep (heap.setParent root none) (some frame.id) .nil from trivial)
        (show RepPath (heap.setParent root none) [frame] (Shape.nil : Shape ℕ).root from ⟨atRoot, trivial, trivial⟩)
        (List.nodup_singleton _) trivial (.inl rfl) fitsLeaf
      exact ⟨after, final, goes, repFinal, balancedFinal, same⟩
  | cons frame rest =>
    have memberNode : node ∈ (join side .nil node repl).ids := by rw [ids_join, mem_around]; exact .inl rfl
    obtain ⟨otherNe, _, rootNe⟩ := RepPath.parent_ne nodup
    have nodupRepl : (plug (frame :: rest) repl).ids.Nodup := by
      rw [ids_plug] at nodup ⊢
      refine nodup.sublist (List.Sublist.append_right (List.Sublist.append_left ?_ _) _)
      rw [ids_join]
      cases side <;> simp [around]
    obtain ⟨linked, repLinked⟩ := RepPath.unlink repPath repRepl nodupRepl
    obtain ⟨after, final, goes, repFinal, balancedFinal, same⟩ := goUpRebalanceDel_rep (show rest.length < fuel from Nat.lt_of_succ_lt enough)
      repLinked linked nodupRepl balancedRepl (.inr lower) fits
    refine ⟨after, final, ?_, repFinal, balancedFinal, same.trans ids_plug⟩
    rw [← goes, root_plug, root_join]
    have atFrame := repPath.1
    rw [root_join] at atFrame
    have links : (if some node = (heap frame.id).left then
        (heap.setChild frame.id .left repl.root, rootOf (frame :: rest) (some node))
        else (heap.setChild frame.id .right repl.root, rootOf (frame :: rest) (some node))) =
        (heap.setChild frame.id frame.side repl.root, rootOf (frame :: rest) repl.root) := by
      rw [atFrame]
      cases which : frame.side with
      | left => exact if_pos rfl
      | right => exact if_neg (Ne.symm otherNe)
    simp only [top_cons, links]

theorem RepPath.outer {inner : List (Frame ℕ)} {hole : Option ℕ} (rep : RepPath heap (inner ++ path) hole) :
    RepPath heap path (rootOf inner hole) := by
  induction inner generalizing hole with
  | nil => exact rep
  | cons frame rest ih => exact ih rep.2.2

/-- The walk to the node that takes the place of a deleted one goes down the inner frames. -/
theorem walkAddr_rep {inner : List (Frame ℕ)} {el : ℕ} (rep : RepPath heap (inner ++ path) (some el)) (free : (heap el).child side = none)
    (sides : ∀ frame ∈ inner, frame.side = side) (enough : inner.length < fuel) (addr : ℕ × Side) :
    ∃ root, rootOf inner (some el) = some root ∧
      walkAddr side fuel heap addr root = some ((inner.head?.map fun frame => (frame.id, frame.side)).getD addr, el) := by
  induction inner using List.reverseRecOn generalizing fuel path addr with
  | nil =>
    cases fuel with
    | zero => exact absurd enough (Nat.not_lt_zero _)
    | succ fuel =>
      refine ⟨el, rfl, ?_⟩
      rw [walkAddr, free]
      rfl
  | append_singleton inner frame ih =>
    rw [List.append_assoc] at rep
    have atFrame := (RepPath.outer rep).1
    have isSide : frame.side = side := sides frame (by simp)
    cases fuel with
    | zero => exact absurd enough (Nat.not_lt_zero _)
    | succ fuel =>
      obtain ⟨root, isRoot, walks⟩ := ih rep (fun held member => sides held (List.mem_append_left _ member))
        (by simpa using enough) (frame.id, side)
      refine ⟨frame.id, rootOf_append, ?_⟩
      rw [walkAddr, atFrame, isSide, child_nodeOf, isRoot]
      refine walks.trans ?_
      cases inner with
      | nil => simp [isSide]
      | cons first rest => simp

/-- A node of the path has another address. -/
theorem rename_rep {after : Heap} {inner : List (Frame ℕ)} {frame : Frame ℕ} {el : ℕ} {shape : Shape ℕ}
    (rep : RepPath heap (inner ++ frame :: path) shape.root) (nodup : (plug (inner ++ frame :: path) shape).ids.Nodup)
    (outer : RepPath after ({ frame with id := el } :: path) (rootOf inner shape.root))
    (same : ∀ x, x ∈ before inner ∨ x ∈ behind inner →
      after x = if rootOf inner shape.root = some x then { heap x with parent := some el } else heap x) :
    RepPath after (inner ++ { frame with id := el } :: path) shape.root := by
  induction inner generalizing shape with
  | nil => exact outer
  | cons first rest ih =>
    obtain ⟨atFirst, repOther, above⟩ := rep
    rw [rootOf] at outer same
    rw [List.cons_append, plug, plug_append] at nodup
    obtain ⟨inside, _⟩ := nodup_plug nodup
    obtain ⟨here, apart⟩ := nodup_plug inside
    have inHere : ∀ x, x = first.id ∨ x ∈ first.other.ids → x ∈ (first.fill shape).ids := by
      intro x either
      rw [Frame.fill, ids_join, mem_around]
      exact either.imp_right .inr
    have member : ∀ x, x = first.id ∨ x ∈ first.other.ids → x ∈ before (first :: rest) ∨ x ∈ behind (first :: rest) := by
      intro x either
      simp only [before, behind]
      cases first.side with
      | left => exact .inr (List.mem_append_left _ (by simpa using either))
      | right => exact .inl (List.mem_append_right _ (by simpa using either.symm))
    have rootElse : ∀ x ∈ (first.fill shape).ids, x ≠ first.id ∨ rest ≠ [] → rootOf rest (some first.id) ≠ some x := by
      intro x listed other isRoot
      cases rest with
      | nil =>
        cases isRoot
        exact other.elim (fun ne => ne rfl) fun nonempty => nonempty rfl
      | cons next rest =>
        obtain ⟨id, isId, onPath⟩ := rootOf_cons next rest (some first.id)
        cases isId.symm.trans isRoot
        exact onPath.elim (apart _ listed).1 (apart _ listed).2
    have nodupFill := here
    rw [Frame.fill, ids_join, nodup_around] at nodupFill
    have renamed : RepPath after (rest ++ { frame with id := el } :: path) (first.fill shape).root := by
      refine ih ?_ ?_ ?_ ?_
      · rw [Frame.fill, root_join]
        exact above
      · rw [plug_append]
        exact nodup
      · rw [Frame.fill, root_join]
        exact outer
      · intro x onPath
        rw [Frame.fill, root_join]
        refine same x ?_
        rw [before, behind]
        exact onPath.imp (List.mem_append_left _) (List.mem_append_right _)
    rw [Frame.fill, root_join] at renamed
    refine ⟨?_, repOther.congr fun x listed => ?_, renamed⟩
    · rw [same _ (member _ (.inl rfl)), atFirst]
      cases rest with
      | nil => rw [rootOf, if_pos rfl, setParent_nodeOf]; rfl
      | cons next rest => exact if_neg (rootElse _ (inHere _ (.inl rfl)) (.inr (List.cons_ne_nil _ _)))
    · rw [same x (member x (.inr listed)), if_neg (rootElse x (inHere x (.inr listed)) (.inl ?_))]
      rintro rfl
      exact nodupFill.2.1 listed

/-- The first part of what is done for the node that takes the place of a deleted one. -/
def takePlace (heap : Heap) (node el : ℕ) : Heap :=
  Ptree.reparent (Ptree.reparent (Function.update heap el (heap node)) (heap node).left (some el)) (heap node).right (some el)

/-- The rest of it. -/
def linkAbove (heap : Heap) (path : List (Frame ℕ)) (el : ℕ) : Heap :=
  match path with
  | [] => heap
  | frame :: _ => heap.setChild frame.id frame.side (some el)

/-- The fields of the node are read again in between, but they are the same. -/
theorem takePlace_eq {el : ℕ} (ne : node ≠ el) :
    Ptree.reparent (Ptree.reparent (Function.update heap el (heap node)) ((Function.update heap el (heap node) : Heap) node).left (some el))
        ((Ptree.reparent (Function.update heap el (heap node)) ((Function.update heap el (heap node) : Heap) node).left (some el)) node).right
        (some el) = takePlace heap node el := by
  have right : ∀ (memory : Heap) (child parent : Option ℕ), ((Ptree.reparent memory child parent) node).right = (memory node).right := by
    intro memory child parent
    rw [reparent_apply]
    split <;> rfl
  rw [right, Function.update_of_ne ne, takePlace]

theorem takePlace_apply {el : ℕ} {hole other parent : Option ℕ} {high : ℤ} (atNode : heap node = nodeOf side hole other parent high)
    (freshHole : hole ≠ some el) (freshOther : other ≠ some el) (x : ℕ) :
    takePlace heap node el x =
      if x = el then nodeOf side hole other parent high
      else if hole = some x ∨ other = some x then { heap x with parent := some el } else heap x := by
  have children : ∀ x, ((heap node).left = some x ∨ (heap node).right = some x) ↔ (hole = some x ∨ other = some x) := by
    intro x
    rw [atNode]
    cases side with
    | left => exact Iff.rfl
    | right => exact or_comm
  rw [takePlace, reparent_apply, reparent_apply]
  by_cases isEl : x = el
  · subst isEl
    have neither := (children x).not.mpr (not_or.mpr ⟨freshHole, freshOther⟩)
    rw [not_or] at neither
    rw [if_neg neither.1, if_neg neither.2, if_pos rfl, Function.update_self, atNode]
  · rw [if_neg isEl, Function.update_of_ne isEl]
    by_cases either : hole = some x ∨ other = some x
    · rw [if_pos either]
      rcases (children x).mpr either with isLeft | isRight
      · rw [if_pos isLeft]
        split <;> rfl
      · rw [if_pos isRight]
        split <;> rfl
    · have neither := (children x).not.mpr either
      rw [not_or] at neither
      rw [if_neg either, if_neg neither.1, if_neg neither.2]

theorem linkAbove_apply {el : ℕ} (x : ℕ) (off : x ∉ before path ∧ x ∉ behind path) : linkAbove heap path el x = heap x := by
  cases path with
  | nil => rfl
  | cons frame rest =>
    have ne : x ≠ frame.id := by
      rintro rfl
      simp only [before, behind, List.mem_append, not_or] at off
      cases which : frame.side <;> rw [which] at off <;> simp at off
    rw [linkAbove, Heap.setChild, set_apply, if_neg ne]

/-- The node with the new address, in its place. -/
theorem takePlace_rep {inner : List (Frame ℕ)} {frame : Frame ℕ} {el : ℕ} {shape : Shape ℕ}
    (rep : RepPath heap (inner ++ frame :: path) shape.root) (repShape : Rep heap (top (inner ++ frame :: path)) shape)
    (nodup : (plug (inner ++ frame :: path) shape).ids.Nodup) (fresh : el ∉ (plug (inner ++ frame :: path) shape).ids) :
    RepPath (linkAbove (takePlace heap frame.id el) path el) (inner ++ { frame with id := el } :: path) shape.root ∧
      Rep (linkAbove (takePlace heap frame.id el) path el) (top (inner ++ { frame with id := el } :: path)) shape ∧
      (takePlace heap frame.id el frame.id).parent = top path ∧
      ∀ x, x ∈ before path ∨ x ∈ behind path → takePlace heap frame.id el x = heap x := by
  obtain ⟨atNode, repOther, above⟩ := RepPath.outer rep
  rw [plug_append, plug] at nodup fresh
  have freshParts := fresh
  rw [ids_plug, Frame.fill, ids_join, List.mem_append, List.mem_append, mem_around, not_or, not_or, not_or, not_or] at freshParts
  obtain ⟨⟨freshBefore, freshNode, freshInner, freshOther⟩, freshBehind⟩ := freshParts
  obtain ⟨inside, apart⟩ := nodup_plug nodup
  rw [Frame.fill, ids_join] at apart
  rw [Frame.fill, ids_join, nodup_around] at inside
  obtain ⟨nodeInner, nodeOther, nodupInner, nodupOther, disjoint⟩ := inside
  have holeIn : ∀ x, rootOf inner shape.root = some x → x ∈ (plug inner shape).ids := fun x isRoot =>
    root_mem (root_plug.trans isRoot)
  have placed := takePlace_apply atNode (fun isEl => freshInner (holeIn el isEl)) (fun isEl => freshOther (root_mem isEl))
  have offPath : ∀ x, x = frame.id ∨ x ∈ (plug inner shape).ids ∨ x ∈ frame.other.ids → x ∉ before path ∧ x ∉ behind path :=
    fun x member => apart x (mem_around.mpr member)
  -- the nodes below get a new parent, if they are children of the node
  have below : ∀ x ∈ (plug inner shape).ids, linkAbove (takePlace heap frame.id el) path el x =
      if rootOf inner shape.root = some x then { heap x with parent := some el } else heap x := by
    intro x member
    rw [linkAbove_apply x (offPath x (.inr (.inl member))), placed, if_neg (by rintro rfl; exact freshInner member)]
    have notOther : frame.other.root ≠ some x := fun isOther => disjoint x member (root_mem isOther)
    simp only [notOther, or_false]
  have innerIn : ∀ x, x ∈ before inner ∨ x ∈ behind inner ∨ x ∈ shape.ids → x ∈ (plug inner shape).ids := by
    intro x member
    rw [ids_plug, List.mem_append, List.mem_append]
    tauto
  have still : ∀ x, x ∈ before path ∨ x ∈ behind path → takePlace heap frame.id el x = heap x := by
    intro x onPath
    have notHere : ¬(x = frame.id ∨ x ∈ (plug inner shape).ids ∨ x ∈ frame.other.ids) := fun here =>
      onPath.elim (offPath x here).1 (offPath x here).2
    rw [not_or, not_or] at notHere
    have notEl : x ≠ el := by rintro rfl; exact onPath.elim freshBefore freshBehind
    have notChild : ¬(rootOf inner shape.root = some x ∨ frame.other.root = some x) := by
      rintro (isHole | isOther)
      · exact notHere.2.1 (holeIn x isHole)
      · exact notHere.2.2 (root_mem isOther)
    rw [placed, if_neg notEl, if_neg notChild]
  have outer : RepPath (linkAbove (takePlace heap frame.id el) path el) ({ frame with id := el } :: path) (rootOf inner shape.root) := by
    refine ⟨?_, (repOther.reparent (some el) nodupOther).congr fun x member => ?_, ?_⟩
    · dsimp only
      rw [linkAbove_apply el ⟨freshBefore, freshBehind⟩, placed, if_pos rfl]
    · rw [linkAbove_apply x (offPath x (.inr (.inr member))), placed, if_neg (by rintro rfl; exact freshOther member), reparent_apply]
      have notHole : rootOf inner shape.root ≠ some x := fun isRoot => disjoint x (holeIn x isRoot) member
      simp only [notHole, false_or]
    · have kept : RepPath (takePlace heap frame.id el) path (some frame.id) := above.congr still
      cases path with
      | nil => trivial
      | cons first rest => exact kept.rehang (nodup_plug_nil nodup) _
  refine ⟨rename_rep rep ?_ outer fun x member => below x (innerIn x (member.imp_right .inl)), ?_, ?_, still⟩
  · rw [plug_append]
    exact nodup
  rotate_left
  · have notChild : ¬(rootOf inner shape.root = some frame.id ∨ frame.other.root = some frame.id) := by
      rintro (isHole | isOther)
      · exact nodeInner (holeIn _ isHole)
      · exact nodeOther (root_mem isOther)
    rw [placed, if_neg (Ne.symm freshNode), if_neg notChild, atNode, parent_nodeOf]
  · cases inner with
    | nil =>
      refine (repShape.reparent (some el) nodupInner).congr fun x member => ?_
      rw [below x member, reparent_apply]
      rfl
    | cons first rest =>
      refine repShape.congr fun x member => ?_
      rw [below x (innerIn x (.inr (.inr member))), if_neg]
      intro isRoot
      obtain ⟨id, isId, onPath⟩ := rootOf_cons first rest shape.root
      cases isId.symm.trans isRoot
      obtain ⟨early, late⟩ := (nodup_plug nodupInner).2 _ member
      exact onPath.elim early late

/-- A node with two children. -/
theorem replaceBy_rep (side : Side) {other : Shape ℕ} {below : ℕ} (rep : Rep heap none (plug path (join side child node other)))
    (fits : Fits path (join side child node other).height) (balanced : (join side child node other).Balanced)
    (nodup : (plug path (join side child node other)).ids.Nodup) (isChild : child.root = some below)
    (enough : (plug path (join side child node other)).ids.length < fuel) :
    ∃ after final, replaceBy side fuel heap (plug path (join side child node other)).root node below = some (after, final.root) ∧
      Rep after none final ∧ final.Balanced ∧ final.ids = (plug path (join side child node other)).ids.erase node := by
  let frame : Frame ℕ := ⟨side, node, (join side child node other).height, other⟩
  have nonempty : child ≠ .nil := by rintro rfl; cases isChild
  obtain ⟨balancedChild, balancedOther, near⟩ := balanced_join.mp balanced
  obtain ⟨inner, low, el, same, fitsLast, sides, balancedLast, _⟩ := exists_end side.opposite (frame :: path) balancedChild
    ⟨balancedOther, near, height_join, fits⟩ nonempty
  have again : plug path (join side child node other) = plug (inner ++ frame :: path) (join side.opposite .nil el low) := same
  have atNode := (rep_join.mp (rep_unplug rep fits).1).1
  rw [again] at rep
  obtain ⟨repEl, repPath⟩ := rep_unplug rep fitsLast
  obtain ⟨atEl, _, repLow⟩ := rep_join.mp repEl
  rw [root_join] at repPath
  have lower : (join side.opposite .nil el low).height = low.height + 1 := by
    have nonneg := low.height_nonneg
    rw [height_join, height_nil, max_eq_right nonneg]
  have idsEl : (plug path (join side child node other)).ids.Perm (el :: (plug (inner ++ frame :: path) low).ids) := by
    rw [again, ids_plug, ids_join, ids_plug]
    exact around_nil_perm
  have nodupLow : (plug (inner ++ frame :: path) low).ids.Nodup := (List.nodup_cons.mp (idsEl.nodup_iff.mp nodup)).2
  have fresh : el ∉ (plug (inner ++ frame :: path) low).ids := (List.nodup_cons.mp (idsEl.nodup_iff.mp nodup)).1
  have lengths := length_plug (inner ++ frame :: path) (join side.opposite .nil el low)
  rw [← again, List.length_append, List.length_cons] at lengths
  -- the way to the node
  obtain ⟨root, isRoot, walks⟩ := walkAddr_rep repPath (by rw [atEl, child_nodeOf, root]) sides
    (show inner.length < fuel by omega) (node, side)
  have isBelow : root = below := by
    have here := (RepPath.outer repPath).1
    rw [isRoot] at here
    have children := congrArg (Node.child side) (here.symm.trans atNode)
    rw [child_nodeOf, child_nodeOf, isChild] at children
    exact Option.some.inj children
  subst isBelow
  obtain ⟨head, tail, isPath⟩ : ∃ head tail, inner ++ frame :: path = head :: tail := by
    cases inner with
    | nil => exact ⟨frame, path, rfl⟩
    | cons first rest => exact ⟨first, rest ++ frame :: path, rfl⟩
  have isAddr : ((inner.head?.map fun held => (held.id, held.side)).getD (node, side)) = (head.id, head.side) := by
    cases inner with
    | nil => cases isPath; rfl
    | cons first rest => cases isPath; rfl
  have renamed : ∃ head' tail', inner ++ { frame with id := el } :: path = head' :: tail' ∧
      (if head.id = node then el else head.id) = head'.id := by
    cases inner with
    | nil =>
      cases isPath
      exact ⟨_, _, rfl, if_pos rfl⟩
    | cons first rest =>
      cases isPath
      refine ⟨head, _, rfl, if_neg ?_⟩
      intro isNode
      rw [plug_append, plug] at nodupLow
      have inside := (nodup_plug nodupLow).1
      rw [Frame.fill, ids_join, nodup_around] at inside
      refine inside.1 ?_
      rw [plug, ids_plug, Frame.fill, ids_join, List.mem_append, List.mem_append, mem_around]
      exact .inl (.inr (.inl isNode.symm))
  obtain ⟨head', tail', isPath', isParent⟩ := renamed
  have ids : (plug (inner ++ { frame with id := el } :: path) low).ids = (plug path (join side child node other)).ids.erase node :=
    ids_rename same sides nodup
  -- the memory before the last loop
  have unlinked := RepPath.unlink (show RepPath heap (head :: tail) (some el) by rw [← isPath]; exact repPath) repLow (by rw [← isPath]; exact nodupLow)
  rw [← isPath] at unlinked
  obtain ⟨placedPath, placedLow, parentNode, still⟩ := takePlace_rep unlinked.1 (by rw [isPath]; exact unlinked.2) nodupLow fresh
  have lengthPath : tail'.length < fuel := by
    have longer := congrArg List.length isPath'
    rw [List.length_append, List.length_cons, List.length_cons] at longer
    omega
  rw [isPath'] at placedPath placedLow ids
  obtain ⟨after, final, goes, repFinal, balancedFinal, idsFinal⟩ := goUpRebalanceDel_rep lengthPath placedLow placedPath
    (by rw [ids]; exact nodup.erase node) (balanced_join.mp balancedLast).2.1 (.inr lower) (isPath' ▸ fits_rename fitsLast)
  refine ⟨after, final, ?_, repFinal, balancedFinal, idsFinal.trans ids⟩
  rw [← goes, replaceBy, walks, isAddr]
  have parentEl : (heap el).parent = some head.id := by rw [atEl, parent_nodeOf, isPath, top_cons]
  have belowEl : (heap el).child side = low.root := by
    rw [atEl, nodeOf_opposite, child_nodeOf]
  simp only [Option.bind_eq_bind, Option.bind_some, parentEl, belowEl]
  have ne : node ≠ el := by
    rintro rfl
    refine fresh ?_
    rw [plug_append, plug, ids_plug, Frame.fill, ids_join, List.mem_append, List.mem_append, mem_around]
    exact .inl (.inr (.inl rfl))
  have isTop : (takePlace (Ptree.reparent (heap.setChild head.id head.side low.root) low.root (some head.id)) node el node).parent =
      top path := parentNode
  simp only [takePlace_eq ne, isTop, isParent, ← isPath', rootOf_append]
  cases path with
  | nil => rfl
  | cons first rest =>
    obtain ⟨otherNe, _, _⟩ := RepPath.parent_ne nodup
    have above : RepPath (Ptree.reparent (heap.setChild head.id head.side low.root) low.root (some head.id)) (first :: rest) (some node) :=
      (RepPath.outer unlinked.1).2.2
    have onPath : first.id ∈ before (first :: rest) ∨ first.id ∈ behind (first :: rest) := by
      simp only [before, behind]
      cases first.side <;> simp
    have atFirst : takePlace (Ptree.reparent (heap.setChild head.id head.side low.root) low.root (some head.id)) node el first.id =
        nodeOf first.side (some node) first.other.root (top rest) first.height := (still _ onPath).trans above.1
    simp only [top_cons, atFirst]
    rw [root_plug, root_join, linkAbove]
    cases first.side with
    | left => exact if_pos rfl
    | right => exact if_neg otherNe

theorem getDel_stands (stands : Stands heap tree ids) (there : node ∈ ids) (enough : ids.length < fuel) :
    ∃ after final, getDel fuel heap tree node = some (after, final) ∧ Stands after final (ids.erase node) := by
  obtain ⟨whole, rfl, rep, balanced, rfl, nodup⟩ := stands
  have nodupFinal := nodup.erase node
  obtain ⟨path, left, right, rfl, fits, balancedHere⟩ := exists_path balanced there
  have atNode : heap node = ⟨left.root, right.root, top path, (Shape.node left node right).height⟩ := (rep_unplug rep fits).1.1
  have lengths := length_plug path (.node left node right)
  rw [getDel, atNode]
  cases isLeft : left.root with
  | none =>
    obtain rfl := root_eq_none.mp isLeft
    obtain ⟨after, final, replaces, repFinal, balancedFinal, same⟩ := replaceMeWith_rep .left rep fits balancedHere nodup
      (show path.length < fuel by omega)
    refine ⟨after, final.root, ?_, final, rfl, repFinal, balancedFinal, same.trans (ids_erase .left nodup).symm, nodupFinal⟩
    cases isRight : right.root with
    | none => rw [isRight] at replaces; exact replaces
    | some root => rw [isRight] at replaces; exact replaces
  | some leftRoot =>
    cases isRight : right.root with
    | none =>
      obtain rfl := root_eq_none.mp isRight
      obtain ⟨after, final, replaces, repFinal, balancedFinal, same⟩ := replaceMeWith_rep .right rep fits
        (balanced_join.mpr ⟨balancedHere.2.1, balancedHere.1, balancedHere.2.2.symm⟩) nodup (show path.length < fuel by omega)
      refine ⟨after, final.root, ?_, final, rfl, repFinal, balancedFinal, same.trans (ids_erase .right nodup).symm, nodupFinal⟩
      rw [isLeft] at replaces
      exact replaces
    | some rightRoot =>
      dsimp only
      split
      · obtain ⟨after, final, replaces, repFinal, balancedFinal, same⟩ := replaceBy_rep .left rep fits balancedHere nodup isLeft enough
        exact ⟨after, final.root, replaces, final, rfl, repFinal, balancedFinal, same, nodupFinal⟩
      · obtain ⟨after, final, replaces, repFinal, balancedFinal, same⟩ := replaceBy_rep .right rep fits
          (balanced_join.mpr ⟨balancedHere.2.1, balancedHere.1, balancedHere.2.2.symm⟩) nodup isRight enough
        exact ⟨after, final.root, replaces, final, rfl, repFinal, balancedFinal, same, nodupFinal⟩

end

end Pclsync.Proofs.PtreeChange
