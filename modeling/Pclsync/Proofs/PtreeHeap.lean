import Pclsync.Trees.Ptree

/-! Shapes in memory, and what a rotation does to one. -/

namespace Pclsync.Proofs.PtreeHeap
open Library Pclsync.Ptree Shape

/-- A node with a child on one side and another one on the opposite side. -/
def nodeOf (side : Side) (child other parent : Option ℕ) (height : ℤ) : Node :=
  match side with
  | .left => ⟨child, other, parent, height⟩
  | .right => ⟨other, child, parent, height⟩

section
variable {side : Side} {child other parent new : Option ℕ} {height : ℤ}

@[simp] theorem child_nodeOf : (nodeOf side child other parent height).child side = child := by cases side <;> rfl
@[simp] theorem opposite_nodeOf : (nodeOf side child other parent height).child side.opposite = other := by cases side <;> rfl
@[simp] theorem parent_nodeOf : (nodeOf side child other parent height).parent = parent := by cases side <;> rfl
@[simp] theorem height_nodeOf : (nodeOf side child other parent height).height = height := by cases side <;> rfl
@[simp] theorem setChild_nodeOf : (nodeOf side child other parent height).setChild side new = nodeOf side new other parent height := by
  cases side <;> rfl
@[simp] theorem setOpposite_nodeOf :
    (nodeOf side child other parent height).setChild side.opposite new = nodeOf side child new parent height := by cases side <;> rfl
theorem nodeOf_opposite : nodeOf side.opposite child other parent height = nodeOf side other child parent height := by
  cases side <;> rfl
@[simp] theorem setParent_nodeOf :
    { nodeOf side child other parent height with parent := new } = nodeOf side child other new height := by cases side <;> rfl
theorem max_nodeOf (heights : Option ℕ → ℤ) :
    max (heights (nodeOf side child other parent height).left) (heights (nodeOf side child other parent height).right) =
      max (heights child) (heights other) := by
  cases side
  · rfl
  · exact max_comm _ _
theorem setHeight_nodeOf {higher : ℤ} :
    { nodeOf side child other parent height with height := higher } = nodeOf side child other parent higher := by cases side <;> rfl

end

/-! Memory. -/

theorem set_apply (heap : Heap) (id x : ℕ) (change : Node → Node) :
    heap.set id change x = if x = id then change (heap id) else heap x := by
  rw [Heap.set, Function.update_apply]

theorem reparent_apply (heap : Heap) (node parent : Option ℕ) (x : ℕ) :
    reparent heap node parent x = if node = some x then { heap x with parent } else heap x := by
  cases node with
  | none => rw [if_neg (by simp)]; rfl
  | some node =>
    rw [reparent, Heap.setParent, set_apply]
    by_cases same : x = node
    · rw [if_pos same, if_pos (congrArg some same.symm), same]
    · rw [if_neg same, if_neg fun also => same (Option.some.inj also).symm]

/-- The shape is in memory, with the right heights. -/
def Rep (heap : Heap) : Option ℕ → Shape ℕ → Prop
  | _, .nil => True
  | parent, .node left id right =>
    heap id = ⟨left.root, right.root, parent, (Shape.node left id right).height⟩ ∧ Rep heap (some id) left ∧ Rep heap (some id) right

/-- So are the frames of a path, with the heights that they had. -/
def RepPath (heap : Heap) : List (Frame ℕ) → Option ℕ → Prop
  | [], _ => True
  | frame :: rest, hole =>
    heap frame.id = nodeOf frame.side hole frame.other.root (top rest) frame.height ∧ Rep heap (some frame.id) frame.other ∧
      RepPath heap rest (some frame.id)

section
variable {heap after : Heap} {parent new hole : Option ℕ} {shape child other : Shape ℕ} {side : Side} {id : ℕ}
  {path : List (Frame ℕ)}

theorem rep_join : Rep heap parent (join side child id other) ↔
    heap id = nodeOf side child.root other.root parent (join side child id other).height ∧
      Rep heap (some id) child ∧ Rep heap (some id) other := by
  cases side with
  | left => exact Iff.rfl
  | right => exact ⟨fun ⟨here, left, right⟩ => ⟨here, right, left⟩, fun ⟨here, left, right⟩ => ⟨here, right, left⟩⟩

theorem Rep.congr (rep : Rep heap parent shape) (same : ∀ x ∈ shape.ids, after x = heap x) : Rep after parent shape := by
  induction shape generalizing parent with
  | nil => trivial
  | node left id right lower upper =>
    obtain ⟨here, repLeft, repRight⟩ := rep
    refine ⟨(same id (by simp [ids])).trans here, lower repLeft fun x member => ?_, upper repRight fun x member => ?_⟩
    · exact same x (by simp [ids, member])
    · exact same x (by simp [ids, member])

theorem RepPath.congr (rep : RepPath heap path hole) (same : ∀ x, x ∈ before path ∨ x ∈ behind path → after x = heap x) :
    RepPath after path hole := by
  induction path generalizing hole with
  | nil => trivial
  | cons frame rest ih =>
    obtain ⟨here, others, above⟩ := rep
    have inside : ∀ x, x = frame.id ∨ x ∈ frame.other.ids → x ∈ before (frame :: rest) ∨ x ∈ behind (frame :: rest) := by
      intro x one
      simp only [before, behind]
      cases frame.side with
      | left => exact .inr (List.mem_append_left _ (by simpa using one))
      | right => exact .inl (List.mem_append_right _ (by simpa using one.symm))
    refine ⟨(same _ (inside _ (.inl rfl))).trans here, others.congr fun x member => same x (inside x (.inr member)),
      ih above fun x one => same x ?_⟩
    simp only [before, behind]
    exact one.imp (List.mem_append_left _) (List.mem_append_right _)

theorem Rep.height (rep : Rep heap parent shape) : Ptree.height heap shape.root = shape.height := by
  cases shape with
  | nil => rfl
  | node left id right =>
    rw [root, Ptree.height, rep.1]

/-- A shape below another node. -/
theorem Rep.reparent (rep : Rep heap parent shape) (new : Option ℕ) (nodup : shape.ids.Nodup) : Rep (Ptree.reparent heap shape.root new) new shape := by
  cases shape with
  | nil => trivial
  | node left id right =>
    obtain ⟨fresh, unused, _⟩ := nodup_around.mp (show (around .left left.ids id right.ids).Nodup from nodup)
    obtain ⟨here, repLeft, repRight⟩ := rep
    refine ⟨?_, repLeft.congr fun x member => ?_, repRight.congr fun x member => ?_⟩
    · rw [reparent_apply, root, if_pos rfl, here]
    · rw [reparent_apply, root, if_neg]
      rintro ⟨⟩
      exact fresh member
    · rw [reparent_apply, root, if_neg]
      rintro ⟨⟩
      exact unused member

end

/-! One rotation. -/

section
variable {heap : Heap} {side : Side} {e e2 : ℕ} {inner outer other parent old : Option ℕ} {high low : ℤ}

theorem height_congr {after : Heap} {tree : Option ℕ} (same : ∀ id, tree = some id → (after id).height = (heap id).height) :
    Ptree.height after tree = Ptree.height heap tree := by
  cases tree with
  | none => rfl
  | some id => exact same id rfl

theorem height_reparent {tree node new : Option ℕ} : Ptree.height (reparent heap node new) tree = Ptree.height heap tree := by
  refine height_congr fun id _ => ?_
  rw [reparent_apply]
  split <;> rfl

theorem recalcHeight_eq (atE : heap e = nodeOf side inner other parent high) :
    recalcHeight heap e = Function.update heap e
      (nodeOf side inner other parent (max (Ptree.height heap inner) (Ptree.height heap other) + 1)) := by
  rw [recalcHeight, Heap.setHeight, Heap.set, atE, max_nodeOf, setHeight_nodeOf]

theorem adopt_eq (atE : heap e = nodeOf side inner other parent high) (fresh : inner ≠ some e)
    (nonneg : 0 ≤ Ptree.height heap other) :
    adopt side heap e = Function.update (reparent heap inner (some e)) e
      (nodeOf side inner other parent (max (Ptree.height heap inner) (Ptree.height heap other) + 1)) := by
  rw [adopt, atE, child_nodeOf, opposite_nodeOf]
  cases inner with
  | none =>
    have taller : max (Ptree.height heap none) (Ptree.height heap other) = Ptree.height heap other := max_eq_right nonneg
    rw [taller, Heap.setHeight, Heap.set, atE, setHeight_nodeOf]
    rfl
  | some moved =>
    change recalcHeight (reparent heap (some moved) (some e)) e = _
    have still : reparent heap (some moved) (some e) e = nodeOf side (some moved) other parent high := by
      rw [reparent_apply, if_neg fresh, atE]
    rw [recalcHeight_eq still, height_reparent, height_reparent]

/-- The child takes the place of `e`, and `e` takes its inner child. -/
theorem rotate_eq (atE : heap e = nodeOf side (some e2) other parent high) (atE2 : heap e2 = nodeOf side outer inner old low)
    (ne : e ≠ e2) (freshOther : other ≠ some e ∧ other ≠ some e2) (freshInner : inner ≠ some e ∧ inner ≠ some e2)
    (freshOuter : outer ≠ some e ∧ outer ≠ some e2) (nonneg : 0 ≤ Ptree.height heap other) :
    rotate side heap e = some (Function.update (Function.update (reparent heap inner (some e)) e
        (nodeOf side inner other (some e2) (max (Ptree.height heap inner) (Ptree.height heap other) + 1))) e2
        (nodeOf side outer (some e) parent
          (max (Ptree.height heap outer) (max (Ptree.height heap inner) (Ptree.height heap other) + 1) + 1)), e2) := by
  have swapped : e2 ≠ e := ne.symm
  let lower := max (Ptree.height heap inner) (Ptree.height heap other) + 1
  -- the inner child is taken from one node to the other
  let taken : Heap := (heap.setParent e2 parent).setChild e side inner
  have takenApply : ∀ x, taken x = if x = e then nodeOf side inner other parent high
      else if x = e2 then nodeOf side outer inner parent low else heap x := by
    intro x
    simp only [taken, Heap.setChild, Heap.setParent, set_apply, if_neg ne, atE, atE2, setChild_nodeOf, setParent_nodeOf]
  have heights : ∀ {tree}, tree ≠ some e → tree ≠ some e2 → Ptree.height taken tree = Ptree.height heap tree := by
    intro tree freshE freshE2
    refine height_congr fun id same => ?_
    rw [takenApply, if_neg fun isE => freshE (same.trans (congrArg some isE)),
      if_neg fun isE2 => freshE2 (same.trans (congrArg some isE2))]
  have takenE : taken e = nodeOf side inner other parent high := by rw [takenApply, if_pos rfl]
  have adopted := adopt_eq takenE freshInner.1 (by rw [heights freshOther.1 freshOther.2]; exact nonneg)
  rw [heights freshOther.1 freshOther.2, heights freshInner.1 freshInner.2] at adopted
  -- `e` goes below its child
  let placed : Heap := ((adopt side taken e).setParent e (some e2)).setChild e2 side.opposite (some e)
  have placedApply : ∀ x, placed x = if x = e2 then nodeOf side outer (some e) parent low
      else if x = e then nodeOf side inner other (some e2) lower else reparent heap inner (some e) x := by
    intro x
    have atE2 : taken e2 = nodeOf side outer inner parent low := by rw [takenApply, if_neg swapped, if_pos rfl]
    have others : x ≠ e → x ≠ e2 → taken x = heap x := fun notE notE2 => by rw [takenApply, if_neg notE, if_neg notE2]
    simp only [placed, Heap.setChild, Heap.setParent, set_apply, adopted, Function.update_apply, if_neg swapped, if_true,
      setParent_nodeOf, reparent_apply, if_neg freshInner.2, atE2, setOpposite_nodeOf]
    split
    · rfl
    · next notE2 =>
      split
      · rfl
      · next notE => rw [others notE notE2]
  have placedE2 : placed e2 = nodeOf side outer (some e) parent low := by rw [placedApply, if_pos rfl]
  have heightE : Ptree.height placed (some e) = lower := by
    rw [Ptree.height, placedApply, if_neg ne, if_pos rfl, height_nodeOf]
  have heightOuter : Ptree.height placed outer = Ptree.height heap outer := by
    rw [← show Ptree.height (reparent heap inner (some e)) outer = Ptree.height heap outer from height_reparent]
    refine height_congr fun id same => ?_
    rw [placedApply, if_neg fun isE2 => freshOuter.2 (same.trans (congrArg some isE2)),
      if_neg fun isE => freshOuter.1 (same.trans (congrArg some isE))]
  have result : recalcHeight placed e2 = Function.update (Function.update (reparent heap inner (some e)) e
      (nodeOf side inner other (some e2) lower)) e2 (nodeOf side outer (some e) parent (max (Ptree.height heap outer) lower + 1)) := by
    rw [recalcHeight_eq placedE2, heightOuter, heightE]
    funext x
    simp only [Function.update_apply, placedApply]
    split
    · rfl
    · rfl
  rw [← result, rotate, atE, child_nodeOf]
  have given : ((heap.setParent e2 parent) e2).child side.opposite = inner := by
    rw [Heap.setParent, set_apply, if_pos rfl, atE2, setParent_nodeOf, opposite_nodeOf]
  simp only [parent_nodeOf, given]
  rfl

theorem rotateFrom_eq : rotateFrom side = rotate side := by cases side <;> rfl

/-- One rotation of a shape in memory. -/
theorem rotate_rep {outer inner other : Shape ℕ} (atE : heap e = nodeOf side (some e2) other.root parent high)
    (repChild : Rep heap (some e) (join side outer e2 inner)) (repOther : Rep heap (some e) other)
    (nodup : (join side (join side outer e2 inner) e other).ids.Nodup) :
    ∃ after, rotate side heap e = some (after, e2) ∧ Rep after parent (join side outer e2 (join side inner e other)) ∧
      ∀ x, x ∉ (join side (join side outer e2 inner) e other).ids → after x = heap x := by
  obtain ⟨atE2, repOuter, repInner⟩ := rep_join.mp repChild
  rw [ids_join, ids_join, nodup_around, nodup_around] at nodup
  obtain ⟨freshE, freshOther, ⟨freshOuter, freshInner, nodupOuter, nodupInner, apart⟩, nodupOther, far⟩ := nodup
  simp only [mem_around, not_or, or_imp, forall_and, forall_eq] at freshE far
  obtain ⟨ne, notOuter, notInner⟩ := freshE
  obtain ⟨farE2, farOuter, farInner⟩ := far
  have rooted : ∀ {shape : Shape ℕ} {id : ℕ}, id ∉ shape.ids → shape.root ≠ some id := fun absent isRoot => absent (root_mem isRoot)
  have turned := rotate_eq atE atE2 ne ⟨rooted freshOther, rooted farE2⟩ ⟨rooted notInner, rooted freshInner⟩
    ⟨rooted notOuter, rooted freshOuter⟩ (by rw [repOther.height]; exact height_nonneg _)
  rw [repInner.height, repOther.height, repOuter.height] at turned
  refine ⟨_, turned, rep_join.mpr ⟨?_, ?_, rep_join.mpr ⟨?_, ?_, ?_⟩⟩, ?_⟩
  · rw [Function.update_self, root_join, height_join, height_join]
  · refine repOuter.congr fun x member => ?_
    rw [Function.update_of_ne (by rintro rfl; exact freshOuter member), Function.update_of_ne (by rintro rfl; exact notOuter member),
      reparent_apply, if_neg fun isRoot => apart x member (root_mem isRoot)]
  · rw [Function.update_of_ne ne, Function.update_self, height_join]
  · refine (repInner.reparent (some e) nodupInner).congr fun x member => ?_
    rw [Function.update_of_ne (by rintro rfl; exact freshInner member), Function.update_of_ne (by rintro rfl; exact notInner member)]
  · refine repOther.congr fun x member => ?_
    rw [Function.update_of_ne (by rintro rfl; exact farE2 member), Function.update_of_ne (by rintro rfl; exact freshOther member),
      reparent_apply, if_neg fun isRoot => farInner x (root_mem isRoot) member]
  · intro x outside
    simp only [ids_join, mem_around, not_or] at outside
    obtain ⟨notE, ⟨notE2, _, outInner⟩, _⟩ := outside
    rw [Function.update_of_ne notE2, Function.update_of_ne notE, reparent_apply, if_neg (rooted outInner)]

end

/-! The rotations of a node whose sides are too different. -/

section
variable {heap : Heap} {side : Side} {e : ℕ} {parent : Option ℕ} {high : ℤ} {child other : Shape ℕ} {path : List (Frame ℕ)}

theorem straighten_rep (atE : heap e = nodeOf side child.root other.root parent high) (repChild : Rep heap (some e) child)
    (nodup : (join side child e other).ids.Nodup) (balanced : child.Balanced) (balancedOther : other.Balanced)
    (heavy : child.height = other.height + 2) :
    ∃ after top2 outer inner root, child.root = some root ∧ straighten side heap e root = some after ∧
      after e = nodeOf side (some top2) other.root parent high ∧ Rep after (some e) (join side outer top2 inner) ∧
      (join side outer top2 inner).ids = child.ids ∧ (∀ x, x ≠ e → x ∉ child.ids → after x = heap x) ∧
      (join side outer top2 (join side inner e other)).Balanced ∧
      ((join side outer top2 (join side inner e other)).height = child.height ∨
        (join side outer top2 (join side inner e other)).height = child.height + 1 ∧ ¬child.Uneven) := by
  have nonneg := other.height_nonneg
  obtain ⟨outer, x, inner, rfl⟩ := exists_join side child (by
    intro isNil
    rw [root_eq_none] at isNil
    rw [isNil, height_nil] at heavy
    omega)
  obtain ⟨balancedOuter, balancedInner, near⟩ := balanced_join.mp balanced
  obtain ⟨atX, repOuter, repInner⟩ := rep_join.mp repChild
  rw [ids_join, nodup_around] at nodup
  obtain ⟨freshE, _, nodupChild, _, _⟩ := nodup
  rw [height_join] at heavy ⊢
  have heights : Ptree.height heap ((heap x).child side.opposite) = inner.height ∧ Ptree.height heap ((heap x).child side) = outer.height := by
    rw [atX, opposite_nodeOf, child_nodeOf, repInner.height, repOuter.height]
    exact ⟨rfl, rfl⟩
  by_cases double : inner.height > outer.height
  · obtain ⟨far, y, close, rfl⟩ := exists_join side.opposite inner (by
      intro isNil
      rw [root_eq_none] at isNil
      rw [isNil, height_nil] at double
      exact absurd double (not_lt.mpr outer.height_nonneg))
    obtain ⟨balancedFar, balancedClose, nearInner⟩ := balanced_join.mp balancedInner
    have shaped : join side outer x (join side.opposite far y close) = join side.opposite (join side.opposite far y close) x outer :=
      (join_opposite).symm
    obtain ⟨turned, rotates, repTurned, still⟩ := rotate_rep
      (show heap x = nodeOf side.opposite (some y) outer.root (some e) (join side outer x (join side.opposite far y close)).height by
        rw [atX, root_join, nodeOf_opposite]) repInner repOuter (by rw [← shaped]; exact nodupChild)
    rw [← shaped] at still
    have turnedE : turned e = nodeOf side (some x) other.root parent high := by rw [still e freshE, atE, root_join]
    have back : join side.opposite far y (join side.opposite close x outer) = join side (join side outer x close) y far := by
      rw [join_opposite, join_opposite]
    rw [back] at repTurned
    have same : (join side (join side outer x close) y far).ids = (join side outer x (join side.opposite far y close)).ids := by
      cases side <;> simp [around, Side.opposite]
    refine ⟨turned.setChild e side (some y), y, join side outer x close, far, x, root_join, ?_, ?_, ?_, same, ?_, ?_, ?_⟩
    · rw [straighten, heights.1, heights.2, if_pos double, rotateFrom_eq, rotates]
      rfl
    · rw [Heap.setChild, set_apply, if_pos rfl, turnedE, setChild_nodeOf]
    · refine repTurned.congr fun z member => ?_
      rw [same] at member
      rw [Heap.setChild, set_apply, if_neg (by rintro rfl; exact freshE member)]
    · intro z notE outside
      rw [Heap.setChild, set_apply, if_neg notE, still z outside]
    · obtain ⟨lower, higher⟩ := near
      obtain ⟨lowerInner, higherInner⟩ := nearInner
      rw [height_join] at heavy lower higher double
      refine balanced_join.mpr ⟨balanced_join.mpr ⟨balancedOuter, balancedClose, ?_⟩, balanced_join.mpr ⟨balancedFar, balancedOther, ?_⟩, ?_⟩
      · constructor <;> omega
      · constructor <;> omega
      · rw [height_join, height_join]
        constructor <;> omega
    · refine .inl ?_
      obtain ⟨lower, higher⟩ := near
      obtain ⟨lowerInner, higherInner⟩ := nearInner
      simp only [height_join] at heavy lower higher double ⊢
      omega
  · refine ⟨heap, x, outer, inner, x, root_join, ?_, by rw [atE, root_join], repChild, rfl, fun _ _ _ => rfl, ?_, ?_⟩
    · rw [straighten, heights.1, heights.2, if_neg double]
    · obtain ⟨lower, higher⟩ := near
      refine balanced_join.mpr ⟨balancedOuter, balanced_join.mpr ⟨balancedInner, balancedOther, ?_⟩, ?_⟩
      · constructor <;> omega
      · rw [height_join]
        constructor <;> omega
    · obtain ⟨lower, higher⟩ := near
      rw [uneven_join, height_join, height_join]
      omega

theorem RepPath.parent_ne {frame : Frame ℕ} {rest : List (Frame ℕ)} (nodup : (plug (frame :: rest) (join side child e other)).ids.Nodup) :
    frame.other.root ≠ some e ∧ frame.id ≠ e ∧ rootOf (frame :: rest) (some e) ≠ some e := by
  have member : e ∈ (join side child e other).ids := by rw [ids_join, mem_around]; exact .inl rfl
  obtain ⟨notBefore, notBehind⟩ := (nodup_plug nodup).2 e member
  obtain ⟨id, isRoot, onPath⟩ := rootOf_cons frame rest (some e)
  have absent : e ≠ frame.id ∧ e ∉ frame.other.ids := by
    simp only [before, behind, List.mem_append, not_or] at notBefore notBehind
    cases which : frame.side <;> rw [which] at notBefore notBehind <;> simp at notBefore notBehind <;> tauto
  refine ⟨fun isOther => absent.2 (root_mem isOther), absent.1.symm, fun same => ?_⟩
  cases isRoot.symm.trans same
  exact onPath.elim notBefore notBehind

/-- The path, when what hangs in the hole is another node. -/
theorem RepPath.rehang {frame : Frame ℕ} {rest : List (Frame ℕ)} {hole : Option ℕ} (rep : RepPath heap (frame :: rest) hole)
    (nodup : (plug (frame :: rest) .nil).ids.Nodup) (new : Option ℕ) :
    RepPath (heap.setChild frame.id frame.side new) (frame :: rest) new := by
  obtain ⟨atFrame, repOther, above⟩ := rep
  rw [plug, Frame.fill] at nodup
  obtain ⟨inside, apart⟩ := nodup_plug nodup
  obtain ⟨_, freshOther, _⟩ := nodup_around.mp (by rwa [ids_join] at inside)
  obtain ⟨notBefore, notBehind⟩ := apart frame.id (by rw [ids_join, mem_around]; exact .inl rfl)
  have others : ∀ x, x ≠ frame.id → heap.setChild frame.id frame.side new x = heap x := by
    intro x ne
    rw [Heap.setChild, set_apply, if_neg ne]
  refine ⟨?_, repOther.congr fun x member => others x ?_, above.congr fun x member => others x ?_⟩
  · rw [Heap.setChild, set_apply, if_pos rfl, atFrame, setChild_nodeOf]
  · rintro rfl
    exact freshOther member
  · rintro rfl
    exact member.elim notBefore notBehind

/-- The whole, when the shape in the hole is another one. -/
theorem RepPath.relink {frame : Frame ℕ} {rest : List (Frame ℕ)} {hole new : Option ℕ} {shape : Shape ℕ}
    (rep : RepPath heap (frame :: rest) hole) (repShape : Rep heap (some frame.id) shape)
    (nodup : (plug (frame :: rest) shape).ids.Nodup) (root : shape.root = new) :
    RepPath (heap.setChild frame.id frame.side new) (frame :: rest) new ∧
      Rep (heap.setChild frame.id frame.side new) (some frame.id) shape := by
  subst root
  refine ⟨rep.rehang (nodup_plug_nil nodup) _, repShape.congr fun x member => ?_⟩
  have inside := (nodup_plug (show (plug rest (frame.fill shape)).ids.Nodup from nodup)).1
  rw [Frame.fill, ids_join, nodup_around] at inside
  rw [Heap.setChild, set_apply, if_neg (by rintro rfl; exact inside.1 member)]

theorem reparent_setChild {id : ℕ} {node new link : Option ℕ} (ne : node ≠ some id) :
    reparent (heap.setChild id side link) node new = (reparent heap node new).setChild id side link := by
  funext x
  rw [reparent_apply, Heap.setChild, Heap.setChild, set_apply, set_apply, reparent_apply, reparent_apply, if_neg ne]
  by_cases same : x = id
  · subst same
    rw [if_neg ne, if_pos rfl, if_pos rfl]
  · rw [if_neg same, if_neg same]

/-- A shape that hung below another node comes into the hole. -/
theorem RepPath.unlink {frame : Frame ℕ} {rest : List (Frame ℕ)} {hole : Option ℕ} {shape : Shape ℕ}
    (repPath : RepPath heap (frame :: rest) hole) (rep : Rep heap parent shape) (nodup : (plug (frame :: rest) shape).ids.Nodup) :
    RepPath (Ptree.reparent (heap.setChild frame.id frame.side shape.root) shape.root (some frame.id)) (frame :: rest) shape.root ∧
      Rep (Ptree.reparent (heap.setChild frame.id frame.side shape.root) shape.root (some frame.id)) (some frame.id) shape := by
  obtain ⟨inside, apart⟩ := nodup_plug nodup
  have offPath : ∀ x, x ∈ before (frame :: rest) ∨ x ∈ behind (frame :: rest) → shape.root ≠ some x := by
    intro x onPath isRoot
    exact onPath.elim (apart x (root_mem isRoot)).1 (apart x (root_mem isRoot)).2
  have frameOn : frame.id ∈ before (frame :: rest) ∨ frame.id ∈ behind (frame :: rest) := by
    simp only [before, behind]
    cases frame.side <;> simp
  rw [reparent_setChild (offPath _ frameOn)]
  have still : RepPath (Ptree.reparent heap shape.root (some frame.id)) (frame :: rest) hole := by
    refine repPath.congr fun x onPath => ?_
    rw [reparent_apply, if_neg (offPath x onPath)]
  exact still.relink (rep.reparent _ inside) nodup rfl

theorem rebalance_rep (side : Side) (atE : heap e = nodeOf side child.root other.root (top path) high) (repChild : Rep heap (some e) child)
    (repOther : Rep heap (some e) other) (repPath : RepPath heap path (some e))
    (nodup : (plug path (join side child e other)).ids.Nodup) (balanced : child.Balanced) (balancedOther : other.Balanced)
    (heavy : child.height = other.height + 2) :
    ∃ after shape, rebalance side heap (rootOf path (some e)) e = some (after, rootOf path shape.root, top path) ∧
      Rep after (top path) shape ∧ RepPath after path shape.root ∧ shape.ids = (join side child e other).ids ∧
      shape.Balanced ∧ (shape.height = child.height ∨ shape.height = child.height + 1 ∧ ¬child.Uneven) := by
  obtain ⟨inside, apart⟩ := nodup_plug nodup
  obtain ⟨freshChild, freshOther, nodupChild, nodupOther, disjoint⟩ := nodup_around.mp (by rwa [ids_join] at inside)
  obtain ⟨straight, top2, outer, inner, root, isRoot, straightens, straightE, repStraight, same, still, balancedShape, heights⟩ :=
    straighten_rep atE repChild inside balanced balancedOther heavy
  have repOtherStraight : Rep straight (some e) other := repOther.congr fun x member =>
    still x (by rintro rfl; exact freshOther member) fun here => disjoint x here member
  have nodupStraight : (join side (join side outer top2 inner) e other).ids.Nodup := by
    rw [ids_join, same, ← ids_join]
    exact inside
  obtain ⟨turned, rotates, repTurned, rest⟩ := rotate_rep straightE repStraight repOtherStraight nodupStraight
  have ids : (join side outer top2 (join side inner e other)).ids = (join side child e other).ids := by
    rw [show (join side child e other).ids = around side child.ids e other.ids from ids_join, ← same]
    cases side <;> simp [around]
  have onPath : ∀ x, x ∈ before path ∨ x ∈ behind path → turned x = heap x := by
    intro x member
    have absent : x ∉ (join side child e other).ids := fun here => member.elim (apart x here).1 (apart x here).2
    rw [ids_join, mem_around] at absent
    rw [rest x (by rw [ids_join, same, mem_around]; exact absent), still x (fun isE => absent (.inl isE)) fun here => absent (.inr (.inl here))]
  have repAbove : RepPath turned path (some e) := repPath.congr onPath
  have child_eq : (heap e).child side = some root := by rw [atE, child_nodeOf, isRoot]
  cases path with
  | nil =>
    refine ⟨turned, _, ?_, repTurned, trivial, ids, balancedShape, heights⟩
    rw [rebalance, child_eq]
    simp only [Option.bind_eq_bind, Option.bind_some, straightens, rootOf, if_true, rotateFrom_eq, rotates, root_join]
    rfl
  | cons frame above =>
    obtain ⟨otherNe, idNe, rootNe⟩ := RepPath.parent_ne nodup
    have nodupTurned : (plug (frame :: above) (join side outer top2 (join side inner e other))).ids.Nodup := by
      rw [ids_plug, ids, ← ids_plug]
      exact nodup
    obtain ⟨linked, repLinked⟩ := RepPath.relink repAbove repTurned nodupTurned rfl
    refine ⟨_, _, ?_, repLinked, linked, ids, balancedShape, heights⟩
    have absentFrame : frame.id ≠ e ∧ frame.id ∉ child.ids := by
      refine ⟨idNe, fun member => ?_⟩
      have outside := apart frame.id (by rw [ids_join, mem_around]; exact .inr (.inl member))
      simp only [before, behind, List.mem_append, not_or] at outside
      cases which : frame.side <;> rw [which] at outside <;> simp at outside
    have parent_eq : (straight e).parent = some frame.id := by rw [straightE, parent_nodeOf, top_cons]
    have atFrame : straight frame.id = nodeOf frame.side (some e) frame.other.root (top above) frame.height := by
      rw [still _ absentFrame.1 absentFrame.2]
      exact repPath.1
    rw [rebalance, child_eq]
    simp only [Option.bind_eq_bind, Option.bind_some, straightens, if_neg (Ne.symm rootNe), parent_eq, atFrame, rotateFrom_eq, rotates,
      root_join]
    cases which : frame.side with
    | left => exact if_pos rfl
    | right => exact if_neg otherNe

end
end Pclsync.Proofs.PtreeHeap
