import Mathlib

/-! Shapes of binary search trees, and shapes with a hole. A path to a node leaves the rest of the tree
as a list of frames, the innermost one first. -/

namespace Pclsync.Library

inductive Side
  | left
  | right
deriving DecidableEq, Repr

def Side.opposite : Side → Side
  | .left => .right
  | .right => .left

@[simp] theorem Side.opposite_opposite (side : Side) : side.opposite.opposite = side := by cases side <;> rfl

inductive Shape (α : Type)
  | nil
  | node (left : Shape α) (id : α) (right : Shape α)
deriving DecidableEq, Repr

namespace Shape

variable {α : Type}

def root : Shape α → Option α
  | .nil => none
  | .node _ id _ => some id

/-- In order. -/
def ids : Shape α → List α
  | .nil => []
  | .node left id right => left.ids ++ id :: right.ids

/-- Children before their parents. -/
def postorder : Shape α → List α
  | .nil => []
  | .node left id right => left.postorder ++ right.postorder ++ [id]

def height : Shape α → ℤ
  | .nil => 0
  | .node left _ right => max left.height right.height + 1

/-- The heights of two siblings. -/
def Near (one other : ℤ) : Prop := one ≤ other + 1 ∧ other ≤ one + 1

def Balanced : Shape α → Prop
  | .nil => True
  | .node left _ right => left.Balanced ∧ right.Balanced ∧ Near left.height right.height

/-- A node with a child on one side and another one on the opposite side. -/
def join (side : Side) (child : Shape α) (id : α) (other : Shape α) : Shape α :=
  match side with
  | .left => .node child id other
  | .right => .node other id child

/-- Numbers around a node, those of the child on one side first. -/
def around (side : Side) (child : List α) (id : α) (other : List α) : List α :=
  match side with
  | .left => child ++ id :: other
  | .right => other ++ id :: child

variable {side : Side} {child other shape : Shape α} {id : α}

@[simp] theorem ids_nil : (nil : Shape α).ids = [] := rfl
@[simp] theorem height_nil : (nil : Shape α).height = 0 := rfl

@[simp] theorem root_join : (join side child id other).root = some id := by cases side <;> rfl

@[simp] theorem ids_join : (join side child id other).ids = around side child.ids id other.ids := by cases side <;> rfl

@[simp] theorem height_join : (join side child id other).height = max child.height other.height + 1 := by
  cases side
  · rfl
  · exact congrArg (· + 1) (max_comm _ _)

theorem join_opposite : join side.opposite child id other = join side other id child := by cases side <;> rfl

theorem Near.symm {one two : ℤ} (near : Near one two) : Near two one := ⟨near.2, near.1⟩

theorem balanced_join : (join side child id other).Balanced ↔ child.Balanced ∧ other.Balanced ∧ Near child.height other.height := by
  cases side with
  | left => exact Iff.rfl
  | right => exact ⟨fun ⟨first, second, near⟩ => ⟨second, first, near.symm⟩, fun ⟨first, second, near⟩ => ⟨second, first, near.symm⟩⟩

/-- The two sides of a node are alike. -/
@[elab_as_elim] theorem join_induction {motive : Shape α → Prop} (side : Side) (nil : motive .nil)
    (join : ∀ child id other, motive child → motive other → motive (join side child id other)) (shape : Shape α) : motive shape := by
  induction shape with
  | nil => exact nil
  | node left id right lower upper =>
    cases side with
    | left => exact join left id right lower upper
    | right => exact join right id left upper lower

theorem exists_join (side : Side) (shape : Shape α) (nonempty : shape.root ≠ none) : ∃ child id other, shape = join side child id other := by
  cases shape with
  | nil => exact absurd rfl nonempty
  | node left id right =>
    cases side with
    | left => exact ⟨left, id, right, rfl⟩
    | right => exact ⟨right, id, left, rfl⟩

theorem root_eq_none : shape.root = none ↔ shape = .nil := by cases shape <;> simp [root]

theorem height_nonneg (shape : Shape α) : 0 ≤ shape.height := by
  induction shape with
  | nil => exact le_refl 0
  | node left id right lower _ =>
    have more : left.height ≤ max left.height right.height := le_max_left _ _
    simp only [height]
    omega

theorem height_eq_zero : shape.height = 0 ↔ shape = .nil := by
  cases shape with
  | nil => simp [height]
  | node left id right =>
    have nonneg := left.height_nonneg
    have more : left.height ≤ max left.height right.height := le_max_left _ _
    simp only [height, reduceCtorEq, iff_false]
    omega

theorem root_mem (isRoot : shape.root = some id) : id ∈ shape.ids := by
  cases shape with
  | nil => cases isRoot
  | node left other right =>
    cases isRoot
    exact List.mem_append_right _ List.mem_cons_self

theorem mem_around {xs ys : List α} {x : α} : x ∈ around side xs id ys ↔ x = id ∨ x ∈ xs ∨ x ∈ ys := by
  cases side <;> simp only [around, List.mem_append, List.mem_cons] <;> tauto

theorem nodup_around {xs ys : List α} : (around side xs id ys).Nodup ↔
    id ∉ xs ∧ id ∉ ys ∧ xs.Nodup ∧ ys.Nodup ∧ ∀ x ∈ xs, x ∉ ys := by
  have split : ∀ {one two : List α}, (one ++ id :: two).Nodup ↔
      id ∉ one ∧ id ∉ two ∧ one.Nodup ∧ two.Nodup ∧ ∀ x ∈ one, x ∉ two := by
    intro one two
    rw [List.nodup_append, List.nodup_cons]
    simp only [List.mem_cons, ne_eq]
    constructor
    · rintro ⟨first, ⟨fresh, second⟩, apart⟩
      exact ⟨fun member => apart id member id (.inl rfl) rfl, fresh, first, second, fun x here there => apart x here x (.inr there) rfl⟩
    · rintro ⟨early, late, first, second, apart⟩
      refine ⟨first, ⟨late, second⟩, ?_⟩
      rintro x here y (rfl | there) rfl
      · exact early here
      · exact apart x here there
  cases side with
  | left => exact split
  | right =>
    refine split.trans ⟨?_, ?_⟩
    · rintro ⟨early, late, first, second, apart⟩
      exact ⟨late, early, second, first, fun x here there => apart x there here⟩
    · rintro ⟨early, late, first, second, apart⟩
      exact ⟨late, early, second, first, fun x here there => apart x there here⟩

/-! Shapes with a hole. -/

/-- A node on the path to the hole, its height with the hole filled, and its child on the other side. -/
structure Frame (α : Type) where
  side : Side
  id : α
  height : ℤ
  other : Shape α

def Frame.fill (frame : Frame α) (shape : Shape α) : Shape α := join frame.side shape frame.id frame.other

def plug : List (Frame α) → Shape α → Shape α
  | [], shape => shape
  | frame :: rest, shape => plug rest (frame.fill shape)

/-- The node above the hole. -/
def top (path : List (Frame α)) : Option α := path.head?.map Frame.id

/-- The root of the whole. -/
def rootOf : List (Frame α) → Option α → Option α
  | [], hole => hole
  | frame :: rest, _ => rootOf rest (some frame.id)

/-- In order, before the hole. -/
def before : List (Frame α) → List α
  | [] => []
  | frame :: rest => before rest ++ match frame.side with
    | .left => []
    | .right => frame.other.ids ++ [frame.id]

/-- In order, behind the hole. -/
def behind : List (Frame α) → List α
  | [] => []
  | frame :: rest => (match frame.side with
    | .left => frame.id :: frame.other.ids
    | .right => []) ++ behind rest

/-- A balanced shape of this height can stand in the hole. -/
def Fits : List (Frame α) → ℤ → Prop
  | [], _ => True
  | frame :: rest, hole => frame.other.Balanced ∧ Near hole frame.other.height ∧
      frame.height = max hole frame.other.height + 1 ∧ Fits rest frame.height

variable {path inner : List (Frame α)} {frame : Frame α} {hole : Option α}

@[simp] theorem top_nil : top ([] : List (Frame α)) = none := rfl
@[simp] theorem top_cons : top (frame :: path) = some frame.id := rfl

theorem root_plug : (plug path shape).root = rootOf path shape.root := by
  induction path generalizing shape with
  | nil => rfl
  | cons frame rest ih => rw [plug, ih, Frame.fill, root_join, rootOf]

theorem ids_plug : (plug path shape).ids = before path ++ shape.ids ++ behind path := by
  induction path generalizing shape with
  | nil => simp [plug, before, behind]
  | cons frame rest ih =>
    rw [plug, ih, Frame.fill, ids_join, before, behind]
    cases frame.side <;> simp [around]

theorem plug_append : plug (inner ++ path) shape = plug path (plug inner shape) := by
  induction inner generalizing shape with
  | nil => rfl
  | cons frame rest ih => exact ih

theorem plug_balanced (balanced : shape.Balanced) (fits : Fits path shape.height) : (plug path shape).Balanced := by
  induction path generalizing shape with
  | nil => exact balanced
  | cons frame rest ih =>
    obtain ⟨also, near, height, above⟩ := fits
    refine ih (balanced_join.mpr ⟨balanced, also, near⟩) ?_
    rw [Frame.fill, height_join, ← height]
    exact above

theorem rootOf_append : rootOf (inner ++ path) hole = rootOf path (rootOf inner hole) := by
  induction inner generalizing hole with
  | nil => rfl
  | cons frame rest ih => exact ih

theorem nodup_plug (nodup : (plug path shape).ids.Nodup) :
    shape.ids.Nodup ∧ ∀ x ∈ shape.ids, x ∉ before path ∧ x ∉ behind path := by
  rw [ids_plug, List.nodup_append, List.nodup_append] at nodup
  obtain ⟨⟨_, inside, early⟩, _, late⟩ := nodup
  exact ⟨inside, fun x member => ⟨fun here => early x here x member rfl, fun there => late x (List.mem_append_right _ member) x there rfl⟩⟩

theorem nodup_plug_nil (nodup : (plug path shape).ids.Nodup) : (plug path .nil).ids.Nodup := by
  rw [ids_plug] at nodup ⊢
  exact nodup.sublist (List.Sublist.append_right (List.Sublist.append_left (List.nil_sublist _) _) _)

theorem fits_rename {other : α} {hole : ℤ} (fits : Fits (inner ++ frame :: path) hole) :
    Fits (inner ++ { frame with id := other } :: path) hole := by
  induction inner generalizing hole with
  | nil => exact fits
  | cons first rest ih =>
    obtain ⟨balanced, near, height, above⟩ := fits
    exact ⟨balanced, near, height, ih above⟩

theorem length_around {xs ys : List α} : (around side xs id ys).length = xs.length + ys.length + 1 := by
  cases side <;> simp only [around, List.length_append, List.length_cons] <;> omega

theorem length_plug (path : List (Frame α)) (shape : Shape α) : path.length + shape.ids.length ≤ (plug path shape).ids.length := by
  induction path generalizing shape with
  | nil => simp [plug]
  | cons frame rest ih =>
    have longer := ih (frame.fill shape)
    rw [Frame.fill, ids_join, length_around] at longer
    rw [plug, List.length_cons, Frame.fill]
    omega

/-- The root of the whole is on the path, if that goes anywhere. -/
theorem rootOf_cons (frame : Frame α) (path : List (Frame α)) (hole : Option α) : ∃ id, rootOf (frame :: path) hole = some id ∧ (id ∈ before (frame :: path) ∨ id ∈ behind (frame :: path)) := by
  induction path generalizing frame hole with
  | nil =>
    refine ⟨frame.id, rfl, ?_⟩
    simp only [before, behind]
    cases frame.side <;> simp
  | cons next rest ih =>
    obtain ⟨id, isRoot, member⟩ := ih next (some frame.id)
    refine ⟨id, isRoot, ?_⟩
    rw [before, behind]
    exact member.imp (List.mem_append_left _) (List.mem_append_right _)

/-- The two subtrees of the root are not of the same height. -/
def Uneven : Shape α → Prop
  | .nil => True
  | .node left _ right => left.height ≠ right.height

theorem uneven_join : (join side child id other).Uneven ↔ child.height ≠ other.height := by
  cases side with
  | left => exact Iff.rfl
  | right => exact ne_comm

/-- A path to a node of a balanced shape. -/
theorem exists_path (balanced : shape.Balanced) (member : id ∈ shape.ids) :
    ∃ path left right, shape = plug path (.node left id right) ∧ Fits path (node left id right).height ∧
      (node left id right).Balanced := by
  have go : ∀ {shape : Shape α} (path : List (Frame α)), shape.Balanced → Fits path shape.height → id ∈ shape.ids →
      ∃ inner left right, plug path shape = plug inner (.node left id right) ∧ Fits inner (node left id right).height ∧
        (node left id right).Balanced := by
    intro shape
    induction shape with
    | nil => intro path _ _ member; cases member
    | node left top right lower upper =>
      intro path balanced fits member
      obtain ⟨first, second, near⟩ := balanced
      rcases List.mem_append.mp member with low | high
      · exact lower (⟨.left, top, (node left top right).height, right⟩ :: path) first
          ⟨second, near, rfl, fits⟩ low
      · rcases List.mem_cons.mp high with rfl | high
        · exact ⟨path, left, right, rfl, fits, first, second, near⟩
        · exact upper (⟨.right, top, (node left top right).height, left⟩ :: path) second
            ⟨first, near.symm, congrArg (· + 1) (max_comm _ _), fits⟩ high
  exact go [] balanced trivial member

/-- The node at one end. -/
def extreme (side : Side) : Shape α → Option α
  | .nil => none
  | .node left id right =>
    match side with
    | .left => (left.extreme .left).or (some id)
    | .right => (right.extreme .right).or (some id)

theorem extreme_join : (join side child id other).extreme side = (child.extreme side).or (some id) := by cases side <;> rfl

theorem extreme_eq_none : shape.extreme side = none ↔ shape = .nil := by
  cases shape with
  | nil => simp [extreme]
  | node left id right => cases side <;> simp [extreme]

theorem extreme_left : shape.extreme .left = shape.ids.head? := by
  induction shape with
  | nil => rfl
  | node left id right ih _ =>
    rw [extreme, ih, ids, List.head?_append, List.head?_cons]

theorem extreme_right : shape.extreme .right = shape.ids.getLast? := by
  induction shape with
  | nil => rfl
  | node left id right _ ih =>
    rw [extreme, ih, ids, List.getLast?_append, List.getLast?_cons]
    cases right.ids.getLast? <;> rfl

/-- A path to the node at one end of a balanced shape. -/
theorem exists_end (side : Side) (path : List (Frame α)) (balanced : shape.Balanced) (fits : Fits path shape.height) (nonempty : shape ≠ .nil) :
    ∃ inner child id, plug path shape = plug (inner ++ path) (join side .nil id child) ∧
      Fits (inner ++ path) (join side .nil id child).height ∧ (∀ frame ∈ inner, frame.side = side) ∧
      (join side .nil id child).Balanced ∧ shape.extreme side = some id := by
  induction shape using join_induction side generalizing path with
  | nil => exact absurd rfl nonempty
  | join child id other ih _ =>
    by_cases empty : child = .nil
    · subst empty
      exact ⟨[], other, id, rfl, fits, by simp, balanced, by rw [extreme_join]; rfl⟩
    · obtain ⟨balancedChild, balancedOther, near⟩ := balanced_join.mp balanced
      let frame : Frame α := ⟨side, id, (join side child id other).height, other⟩
      obtain ⟨inner, last, end', whole, inside, sides, also, isEnd⟩ :=
        ih (frame :: path) balancedChild ⟨balancedOther, near, height_join, fits⟩ empty
      refine ⟨inner ++ [frame], last, end', ?_, ?_, ?_, also, ?_⟩
      · rw [List.append_assoc]
        exact whole
      · rw [List.append_assoc]
        exact inside
      · intro held member
        rcases List.mem_append.mp member with member | member
        · exact sides held member
        · rw [List.mem_singleton.mp member]
      · rw [extreme_join, isEnd, Option.some_or]

/-- A path to a node of a balanced shape, from one side of the node. -/
theorem exists_path_join (side : Side) (balanced : shape.Balanced) (member : id ∈ shape.ids) :
    ∃ path child other, shape = plug path (join side child id other) ∧ Fits path (join side child id other).height ∧
      (join side child id other).Balanced := by
  obtain ⟨path, left, right, whole, fits, balancedHere⟩ := exists_path balanced member
  cases side with
  | left => exact ⟨path, left, right, whole, fits, balancedHere⟩
  | right => exact ⟨path, right, left, whole, fits, balancedHere⟩

theorem before_append : before (inner ++ path) = before path ++ before inner := by
  induction inner with
  | nil => exact (List.append_nil _).symm
  | cons frame rest ih => rw [List.cons_append, before, ih, before, List.append_assoc]

theorem behind_append : behind (inner ++ path) = behind inner ++ behind path := by
  induction inner with
  | nil => rfl
  | cons frame rest ih => rw [List.cons_append, behind, ih, behind, List.append_assoc]

/-- A path that goes to the left all the way has nothing before it. -/
theorem before_left (sides : ∀ frame ∈ inner, frame.side = .left) : before inner = [] := by
  induction inner with
  | nil => rfl
  | cons frame rest ih =>
    rw [before, sides frame List.mem_cons_self, List.append_nil]
    exact ih fun held member => sides held (List.mem_cons_of_mem _ member)

theorem behind_right (sides : ∀ frame ∈ inner, frame.side = .right) : behind inner = [] := by
  induction inner with
  | nil => rfl
  | cons frame rest ih =>
    rw [behind, sides frame List.mem_cons_self, List.nil_append]
    exact ih fun held member => sides held (List.mem_cons_of_mem _ member)

theorem before_append_left (sides : ∀ frame ∈ inner, frame.side = .left) : before (inner ++ path) = before path := by
  rw [before_append, before_left sides, List.append_nil]

theorem behind_append_right (sides : ∀ frame ∈ inner, frame.side = .right) : behind (inner ++ path) = behind path := by
  rw [behind_append, behind_right sides, List.nil_append]

theorem around_perm {xs ys zs : List α} {new : α} :
    (xs ++ around side [new] id ys ++ zs).Perm (new :: (xs ++ around side [] id ys ++ zs)) := by
  cases side with
  | left =>
    simp only [around, List.append_assoc, List.cons_append, List.nil_append]
    exact List.perm_middle
  | right =>
    simp only [around, List.append_assoc, List.cons_append, List.nil_append]
    have moved : (xs ++ ys ++ [id] ++ new :: zs).Perm (new :: (xs ++ ys ++ [id] ++ zs)) := List.perm_middle
    simpa using moved

theorem around_nil_perm {xs ys zs : List α} : (xs ++ around side [] id ys ++ zs).Perm (id :: (xs ++ ys ++ zs)) := by
  cases side with
  | left =>
    simp only [around, List.append_assoc, List.cons_append, List.nil_append]
    exact List.perm_middle
  | right =>
    have moved : (xs ++ ys ++ id :: zs).Perm (id :: (xs ++ ys ++ zs)) := List.perm_middle
    simpa [around] using moved

/-- A number more, next to one that is there. -/
def insertBeside [DecidableEq α] (side : Side) (id new : α) : List α → List α
  | [] => []
  | x :: rest => if x = id then (match side with | .left => new :: x :: rest | .right => x :: new :: rest)
    else x :: insertBeside side id new rest

/-- A number more, next to one that is there or at the end on the opposite side. -/
def insertAt [DecidableEq α] (side : Side) (id : Option α) (new : α) (ids : List α) : List α :=
  match id, side with
  | some id, _ => insertBeside side id new ids
  | none, .right => new :: ids
  | none, .left => ids ++ [new]

theorem insertBeside_append [DecidableEq α] {xs : List α} (side : Side) (new : α) (ys : List α) (fresh : id ∉ xs) :
    insertBeside side id new (xs ++ id :: ys) = xs ++ around side [new] id [] ++ ys := by
  induction xs with
  | nil => cases side <;> simp [insertBeside, around]
  | cons x rest ih =>
    rw [List.mem_cons, not_or] at fresh
    rw [List.cons_append]
    simp only [insertBeside]
    rw [if_neg (Ne.symm fresh.1), ih fresh.2]
    simp

/-- The new number hangs below the node, where that has no child. -/
theorem insertBeside_free [DecidableEq α] {new : α} (nodup : (plug path (join side .nil id other)).ids.Nodup) :
    insertBeside side id new (plug path (join side .nil id other)).ids =
      before path ++ around side [new] id other.ids ++ behind path := by
  obtain ⟨inside, apart⟩ := nodup_plug nodup
  rw [ids_join, nodup_around] at inside
  have notBefore := (apart id (by rw [ids_join, mem_around]; exact .inl rfl)).1
  rw [ids_plug, ids_join]
  cases side with
  | left =>
    have put := insertBeside_append .left new (other.ids ++ behind path) notBefore
    simpa [around] using put
  | right =>
    have late : id ∉ before path ++ other.ids := by
      rw [List.mem_append, not_or]
      exact ⟨notBefore, inside.2.1⟩
    have put := insertBeside_append .right new (behind path) late
    simpa [around] using put

theorem ids_erase [DecidableEq α] (side : Side) (nodup : (plug path (join side .nil id other)).ids.Nodup) :
    (plug path (join side .nil id other)).ids.erase id = before path ++ other.ids ++ behind path := by
  obtain ⟨inside, apart⟩ := nodup_plug nodup
  rw [ids_join, nodup_around] at inside
  have notBefore := (apart id (by rw [ids_join, mem_around]; exact .inl rfl)).1
  have late : id ∉ before path ++ other.ids := by
    rw [List.mem_append, not_or]
    exact ⟨notBefore, inside.2.1⟩
  rw [ids_plug, ids_join, ids_nil]
  cases side with
  | left =>
    simp only [around, List.nil_append, List.append_assoc, List.cons_append]
    rw [List.erase_append_right _ notBefore, List.erase_cons_head]
  | right =>
    simp only [around, List.append_assoc, List.cons_append, List.nil_append]
    rw [← List.append_assoc, List.erase_append_right _ late, List.erase_cons_head, List.append_assoc]

/-- The nearest node takes the place of another one. -/
theorem ids_rename [DecidableEq α] {new : α} {height : ℤ} {low : Shape α}
    (same : plug (⟨side, id, height, other⟩ :: path) child = plug (inner ++ ⟨side, id, height, other⟩ :: path) (join side.opposite .nil new low))
    (sides : ∀ frame ∈ inner, frame.side = side.opposite) (nodup : (plug path (join side child id other)).ids.Nodup) :
    (plug (inner ++ ⟨side, new, height, other⟩ :: path) low).ids = (plug path (join side child id other)).ids.erase id := by
  obtain ⟨inside, apart⟩ := nodup_plug nodup
  rw [ids_join, nodup_around] at inside
  have notBefore := (apart id (by rw [ids_join, mem_around]; exact .inl rfl)).1
  have whole := congrArg Shape.ids same
  rw [ids_plug, ids_plug, ids_join, before_append, behind_append] at whole
  rw [ids_plug, before_append, behind_append, ids_plug, ids_join]
  cases side with
  | left =>
    rw [behind_right sides] at whole ⊢
    simp only [before, behind, around, Side.opposite, ids_nil, List.append_nil, List.nil_append, List.append_assoc, List.cons_append]
      at whole ⊢
    have isChild : child.ids = before inner ++ (low.ids ++ [new]) := by
      have cancelled := List.append_cancel_left whole
      refine List.append_cancel_right (?_ : _ ++ id :: (other.ids ++ behind path) = _)
      simpa using cancelled
    have absent : id ∉ before path ++ child.ids := by
      rw [List.mem_append, not_or]
      exact ⟨notBefore, inside.1⟩
    have parts : before path ++ (child.ids ++ id :: (other.ids ++ behind path)) =
        before path ++ child.ids ++ id :: (other.ids ++ behind path) := (List.append_assoc _ _ _).symm
    rw [parts, List.erase_append_right _ absent, List.erase_cons_head, isChild]
    simp
  | right =>
    rw [before_left sides] at whole ⊢
    simp only [before, behind, around, Side.opposite, ids_nil, List.append_nil, List.nil_append, List.append_assoc, List.cons_append]
      at whole ⊢
    have isChild : child.ids ++ behind path = new :: (low.ids ++ (behind inner ++ behind path)) := by
      refine List.append_cancel_left (?_ : before path ++ (other.ids ++ [id]) ++ _ = _)
      simpa using whole
    have absent : id ∉ before path ++ other.ids := by
      rw [List.mem_append, not_or]
      exact ⟨notBefore, inside.2.1⟩
    have parts : before path ++ (other.ids ++ id :: (child.ids ++ behind path)) =
        before path ++ other.ids ++ id :: (child.ids ++ behind path) := (List.append_assoc _ _ _).symm
    rw [parts, List.erase_append_right _ absent, List.erase_cons_head, isChild]
    simp

theorem insertBeside_extreme [DecidableEq α] {new : α} (nodup : shape.ids.Nodup) (isEnd : shape.extreme side.opposite = some id) :
    insertBeside side.opposite id new shape.ids = insertAt side none new shape.ids := by
  cases side with
  | right =>
    rw [Side.opposite, extreme_left] at isEnd
    obtain ⟨rest, split⟩ := List.head?_eq_some_iff.mp isEnd
    rw [split]
    simp [insertBeside, insertAt, Side.opposite]
  | left =>
    rw [Side.opposite, extreme_right] at isEnd
    obtain ⟨early, split⟩ := List.getLast?_eq_some_iff.mp isEnd
    rw [split, List.nodup_append] at nodup
    rw [split, insertBeside_append _ _ _ fun member => nodup.2.2 id member id (by simp) rfl]
    simp [insertAt, around, Side.opposite]

end Shape
end Pclsync.Library
