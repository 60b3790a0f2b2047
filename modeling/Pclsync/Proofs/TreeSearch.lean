import Pclsync.Trees.Search
import Pclsync.Proofs.PtreeChange

/-! A search finds what is in a tree when the nodes are in order, and a new node comes into order when it is so
with the nodes that it meets. -/

namespace Pclsync.Proofs.TreeSearch
open Library Pclsync.Ptree PtreeHeap PtreeChange
open Shape (insertBeside insertAt insertBeside_append)

section Search

variable {compare : ℕ → Ordering} {heap : Heap} {tree : Option ℕ} {ids : List ℕ} {fuel : ℕ}

/-- What is sought is before the later node if it is before the earlier one, and behind the earlier one if it is
behind the later one. -/
def Follows (compare : ℕ → Ordering) (one two : ℕ) : Prop :=
  (compare one = .lt → compare two = .lt) ∧ (compare two = .gt → compare one = .gt)

/-- A node that is sought, or none if there is none. -/
def Finds (compare : ℕ → Ordering) (ids : List ℕ) (result : Option ℕ) : Prop :=
  match result with
  | some node => node ∈ ids ∧ compare node = .eq
  | none => ∀ node ∈ ids, compare node ≠ .eq

theorem search_rep {parent : Option ℕ} {shape : Shape ℕ} (rep : Rep heap parent shape) (sorted : shape.ids.Pairwise (Follows compare))
    (enough : shape.ids.length ≤ fuel) : ∃ result, search compare fuel heap shape.root = some result ∧ Finds compare shape.ids result := by
  induction shape generalizing parent fuel with
  | nil =>
    refine ⟨none, ?_, fun _ member => absurd member List.not_mem_nil⟩
    cases fuel <;> rfl
  | node left id right lower upper =>
    obtain ⟨here, repLeft, repRight⟩ := rep
    obtain ⟨sortedLeft, sortedRest, apart⟩ := List.pairwise_append.mp sorted
    rw [List.pairwise_cons] at sortedRest
    rw [Shape.ids, List.length_append, List.length_cons] at enough
    obtain ⟨fuel, rfl⟩ : ∃ less, fuel = less + 1 := ⟨fuel - 1, by omega⟩
    rw [Shape.root, search]
    cases compared : compare id with
    | lt =>
      obtain ⟨result, found, finds⟩ := lower repLeft sortedLeft (by omega : left.ids.length ≤ fuel)
      refine ⟨result, by rw [here]; exact found, ?_⟩
      cases result with
      | some node => exact ⟨List.mem_append_left _ finds.1, finds.2⟩
      | none =>
        intro node member
        rcases List.mem_append.mp member with before | after
        · exact finds node before
        · rcases List.mem_cons.mp after with rfl | later
          · rw [compared]
            decide
          · rw [(sortedRest.1 node later).1 compared]
            decide
    | gt =>
      obtain ⟨result, found, finds⟩ := upper repRight sortedRest.2 (by omega : right.ids.length ≤ fuel)
      refine ⟨result, by rw [here]; exact found, ?_⟩
      cases result with
      | some node => exact ⟨List.mem_append_right _ (List.mem_cons_of_mem _ finds.1), finds.2⟩
      | none =>
        intro node member
        rcases List.mem_append.mp member with before | after
        · rw [(apart node before id List.mem_cons_self).2 compared]
          decide
        · rcases List.mem_cons.mp after with rfl | later
          · rw [compared]
            decide
          · exact finds node later
    | eq => exact ⟨some id, rfl, List.mem_append_right _ List.mem_cons_self, compared⟩

/-- A search ends, whatever the order of the nodes is. -/
theorem search_total (stands : Stands heap tree ids) (enough : ids.length ≤ fuel) :
    ∃ result, search compare fuel heap tree = some result ∧ ∀ node, result = some node → node ∈ ids ∧ compare node = .eq := by
  obtain ⟨shape, rfl, rep, -, rfl, -⟩ := stands
  generalize none = parent at rep
  induction shape generalizing parent fuel with
  | nil =>
    refine ⟨none, ?_, fun _ same => (by cases same)⟩
    cases fuel <;> rfl
  | node left id right lower upper =>
    obtain ⟨here, repLeft, repRight⟩ := rep
    rw [Shape.ids, List.length_append, List.length_cons] at enough
    obtain ⟨fuel, rfl⟩ : ∃ less, fuel = less + 1 := ⟨fuel - 1, by omega⟩
    rw [Shape.root, search, Shape.ids]
    cases compared : compare id with
    | lt =>
      obtain ⟨result, found, inside⟩ := lower (by omega : left.ids.length ≤ fuel) (some id) repLeft
      exact ⟨result, by rw [here]; exact found, fun node same => (inside node same).imp_left (List.mem_append_left _)⟩
    | gt =>
      obtain ⟨result, found, inside⟩ := upper (by omega : right.ids.length ≤ fuel) (some id) repRight
      exact ⟨result, by rw [here]; exact found,
        fun node same => (inside node same).imp_left fun member => List.mem_append_right _ (List.mem_cons_of_mem _ member)⟩
    | eq =>
      refine ⟨some id, rfl, fun node same => ?_⟩
      cases same
      exact ⟨List.mem_append_right _ List.mem_cons_self, compared⟩

theorem search_stands (stands : Stands heap tree ids) (sorted : ids.Pairwise (Follows compare)) (enough : ids.length ≤ fuel) :
    ∃ result, search compare fuel heap tree = some result ∧ Finds compare ids result := by
  obtain ⟨whole, rfl, rep, -, rfl, -⟩ := stands
  exact search_rep rep sorted enough

end Search

section Insert

variable {goesLeft : ℕ → Bool} {newnode : ℕ}

/-- The nodes in order, with a new one. -/
def put (goesLeft : ℕ → Bool) (newnode : ℕ) : Shape ℕ → List ℕ
  | .nil => [newnode]
  | .node left id right =>
    if goesLeft id then put goesLeft newnode left ++ id :: right.ids else left.ids ++ id :: put goesLeft newnode right

/-- The nodes on the way. -/
def way (goesLeft : ℕ → Bool) : Shape ℕ → List ℕ
  | .nil => []
  | .node left id right => id :: if goesLeft id then way goesLeft left else way goesLeft right

theorem put_perm (shape : Shape ℕ) : (put goesLeft newnode shape).Perm (newnode :: shape.ids) := by
  induction shape with
  | nil => exact List.Perm.refl _
  | node left id right lower upper =>
    rw [put, Shape.ids]
    split
    · exact lower.append_right _
    · exact ((upper.cons id).append_left left.ids).trans
        (((List.Perm.swap newnode id right.ids).append_left left.ids).trans List.perm_middle)

/-- The new node is in order with all nodes if it is with those on its way. -/
theorem put_pairwise {R : ℕ → ℕ → Prop} (trans : ∀ x y z, R x y → R y z → R x z) {shape : Shape ℕ} (sorted : shape.ids.Pairwise R) :
    (put goesLeft newnode shape).Pairwise R ↔
      ∀ id ∈ way goesLeft shape, (goesLeft id = true → R newnode id) ∧ (goesLeft id = false → R id newnode) := by
  induction shape with
  | nil => simp [put, way]
  | node left id right lower upper =>
    obtain ⟨sortedLeft, sortedRest, apart⟩ := List.pairwise_append.mp sorted
    obtain ⟨next, sortedRight⟩ := List.pairwise_cons.mp sortedRest
    rw [put, way, List.forall_mem_cons]
    cases goes : goesLeft id with
    | true =>
      rw [if_pos rfl, if_pos rfl, ← lower sortedLeft]
      constructor
      · intro all
        obtain ⟨before, -, between⟩ := List.pairwise_append.mp all
        have new := between newnode ((put_perm left).mem_iff.mpr List.mem_cons_self) id List.mem_cons_self
        exact ⟨⟨fun _ => new, fun right => by cases right⟩, before⟩
      · rintro ⟨⟨new, -⟩, before⟩
        refine List.pairwise_append.mpr ⟨before, sortedRest, fun x there y later => ?_⟩
        rcases List.mem_cons.mp ((put_perm left).mem_iff.mp there) with rfl | old
        · rcases List.mem_cons.mp later with rfl | behind
          · exact new rfl
          · exact trans _ _ _ (new rfl) (next y behind)
        · exact apart x old y later
    | false =>
      rw [if_neg Bool.false_ne_true, if_neg Bool.false_ne_true, ← upper sortedRight]
      constructor
      · intro all
        obtain ⟨-, rest, -⟩ := List.pairwise_append.mp all
        obtain ⟨first, after⟩ := List.pairwise_cons.mp rest
        exact ⟨⟨fun left => (by cases left), fun _ => first newnode ((put_perm right).mem_iff.mpr List.mem_cons_self)⟩, after⟩
      · rintro ⟨⟨-, new⟩, after⟩
        have behind : ∀ y ∈ put goesLeft newnode right, R id y := fun y there => by
          rcases List.mem_cons.mp ((put_perm right).mem_iff.mp there) with rfl | old
          · exact new rfl
          · exact next y old
        refine List.pairwise_append.mpr ⟨sortedLeft, List.pairwise_cons.mpr ⟨behind, after⟩, fun x there y later => ?_⟩
        rcases List.mem_cons.mp later with rfl | old
        · exact apart x there y List.mem_cons_self
        · exact trans _ _ _ (apart x there id List.mem_cons_self) (behind y old)

theorem insertBeside_other {side : Side} {id x : ℕ} {rest : List ℕ} (differ : x ≠ id) :
    insertBeside side id newnode (x :: rest) = x :: insertBeside side id newnode rest := by
  simp only [insertBeside]
  rw [if_neg differ]

theorem insertBeside_mem {side : Side} {id : ℕ} {xs ys : List ℕ} (member : id ∈ xs) :
    insertBeside side id newnode (xs ++ ys) = insertBeside side id newnode xs ++ ys := by
  induction xs with
  | nil => exact absurd member List.not_mem_nil
  | cons x rest ih =>
    by_cases here : x = id
    · simp only [List.cons_append, insertBeside]
      rw [if_pos here, if_pos here]
      cases side <;> rfl
    · have later : id ∈ rest := (List.mem_cons.mp member).resolve_left fun same => here same.symm
      rw [List.cons_append, insertBeside_other here, insertBeside_other here, ih later, List.cons_append]

theorem insertBeside_later {side : Side} {id : ℕ} {xs ys : List ℕ} (absent : id ∉ xs) :
    insertBeside side id newnode (xs ++ ys) = xs ++ insertBeside side id newnode ys := by
  induction xs with
  | nil => rfl
  | cons x rest ih =>
    rw [List.mem_cons, not_or] at absent
    rw [List.cons_append, insertBeside_other fun same => absent.1 same.symm, ih absent.2, List.cons_append]

variable {heap : Heap} {fuel : ℕ}

theorem place_rep {parent : Option ℕ} {shape : Shape ℕ} {root : ℕ} (rep : Rep heap parent shape) (nodup : shape.ids.Nodup)
    (isRoot : shape.root = some root) (enough : shape.ids.length ≤ fuel) :
    ∃ id side, place goesLeft fuel heap root = some (id, side) ∧ id ∈ shape.ids ∧ side = sideOf goesLeft id ∧ (heap id).child side = none ∧
      insertBeside side id newnode shape.ids = put goesLeft newnode shape := by
  induction shape generalizing parent fuel root with
  | nil => cases isRoot
  | node left id right lower upper =>
    obtain rfl : root = id := (Option.some.inj isRoot).symm
    obtain ⟨here, repLeft, repRight⟩ := rep
    have member : root ∈ (Shape.node left root right).ids := List.mem_append_right _ List.mem_cons_self
    rw [Shape.ids] at nodup enough member ⊢
    obtain ⟨nodupLeft, nodupRest, apart⟩ := List.nodup_append.mp nodup
    obtain ⟨notRight, nodupRight⟩ := List.nodup_cons.mp nodupRest
    have notLeft : root ∉ left.ids := fun there => apart root there root List.mem_cons_self rfl
    rw [List.length_append, List.length_cons] at enough
    obtain ⟨fuel, rfl⟩ : ∃ less, fuel = less + 1 := ⟨fuel - 1, by omega⟩
    have side : sideOf goesLeft root = if goesLeft root then .left else .right := rfl
    rw [place, put]
    cases goes : goesLeft root with
    | true =>
      rw [goes, if_pos rfl] at side
      have below : (heap root).child (sideOf goesLeft root) = left.root := by rw [side, here]; rfl
      rw [below, if_pos rfl]
      cases isLeft : left.root with
      | none =>
        obtain rfl := Shape.root_eq_none.mp isLeft
        refine ⟨root, _, rfl, member, rfl, below, ?_⟩
        rw [side]
        exact insertBeside_append .left newnode right.ids notLeft
      | some child =>
        obtain ⟨id, last, placed, inside, way, free, same⟩ := lower repLeft nodupLeft isLeft (by omega : left.ids.length ≤ fuel)
        exact ⟨id, last, placed, List.mem_append_left _ inside, way, free, by rw [insertBeside_mem inside, same]⟩
    | false =>
      rw [goes, if_neg Bool.false_ne_true] at side
      have below : (heap root).child (sideOf goesLeft root) = right.root := by rw [side, here]; rfl
      rw [below, if_neg Bool.false_ne_true]
      cases isRight : right.root with
      | none =>
        obtain rfl := Shape.root_eq_none.mp isRight
        have last := insertBeside_append .right newnode [] notLeft
        rw [List.append_nil] at last
        refine ⟨root, _, rfl, member, rfl, below, ?_⟩
        rw [side]
        exact last
      | some child =>
        obtain ⟨id, last, placed, inside, way, free, same⟩ := upper repRight nodupRight isRight (by omega : right.ids.length ≤ fuel)
        have absent : id ∉ left.ids := fun there => apart id there id (List.mem_cons_of_mem _ inside) rfl
        have other : ¬root = id := fun equal => notRight (equal ▸ inside)
        refine ⟨id, last, placed, List.mem_append_right _ (List.mem_cons_of_mem _ inside), way, free, ?_⟩
        rw [insertBeside_later absent, insertBeside_other other, same]

theorem met_rep {parent : Option ℕ} {shape : Shape ℕ} (rep : Rep heap parent shape) (enough : shape.ids.length ≤ fuel) :
    met goesLeft fuel heap shape.root = way goesLeft shape := by
  induction shape generalizing parent fuel with
  | nil => cases fuel <;> rfl
  | node left id right lower upper =>
    obtain ⟨here, repLeft, repRight⟩ := rep
    rw [Shape.ids, List.length_append, List.length_cons] at enough
    obtain ⟨fuel, rfl⟩ : ∃ less, fuel = less + 1 := ⟨fuel - 1, by omega⟩
    rw [Shape.root, met, way, here, sideOf]
    cases goesLeft id with
    | true => exact congrArg (id :: ·) (lower repLeft (by omega))
    | false => exact congrArg (id :: ·) (upper repRight (by omega))

theorem way_subset (shape : Shape ℕ) : ∀ id ∈ way goesLeft shape, id ∈ shape.ids := by
  induction shape with
  | nil => exact fun id member => member
  | node left id right lower upper =>
    rw [way, Shape.ids]
    refine List.forall_mem_cons.mpr ⟨List.mem_append_right _ List.mem_cons_self, fun other member => ?_⟩
    split at member
    · exact List.mem_append_left _ (lower other member)
    · exact List.mem_append_right _ (List.mem_cons_of_mem _ (upper other member))

variable {tree : Option ℕ} {ids : List ℕ}

theorem met_subset (stands : Stands heap tree ids) (enough : ids.length ≤ fuel) : ∀ id ∈ met goesLeft fuel heap tree, id ∈ ids := by
  obtain ⟨shape, rfl, rep, -, rfl, -⟩ := stands
  rw [met_rep rep enough]
  exact way_subset shape

/-- The nodes in order after a new one came to the free place on its way. It is in order with the others if it is with
those that it meets. -/
structure Placed (goesLeft : ℕ → Bool) (newnode fuel : ℕ) (heap : Heap) (tree : Option ℕ) (ids more : List ℕ) : Prop where
  perm : more.Perm (newnode :: ids)
  pairwise : ∀ R : ℕ → ℕ → Prop, (∀ x y z, R x y → R y z → R x z) → ids.Pairwise R →
    (more.Pairwise R ↔ ∀ id ∈ met goesLeft fuel heap tree, (goesLeft id = true → R newnode id) ∧ (goesLeft id = false → R id newnode))

theorem placed_put {shape : Shape ℕ} (rep : Rep heap none shape) (enough : shape.ids.length ≤ fuel) :
    Placed goesLeft newnode fuel heap shape.root shape.ids (put goesLeft newnode shape) := by
  refine ⟨put_perm shape, fun R trans sorted => ?_⟩
  rw [met_rep rep enough]
  exact put_pairwise trans sorted

theorem placed_empty : Placed goesLeft newnode fuel heap none [] [newnode] := by
  refine ⟨List.Perm.refl _, fun R _ _ => iff_of_true (List.pairwise_singleton _ _) fun id member => ?_⟩
  cases fuel <;> exact absurd member List.not_mem_nil

/-- The place is free, and the new node next to it is in its order. -/
theorem place_stands {root : ℕ} (stands : Stands heap (some root) ids) (enough : ids.length ≤ fuel) :
    ∃ id side, place goesLeft fuel heap root = some (id, side) ∧ id ∈ ids ∧ side = sideOf goesLeft id ∧ (heap id).child side = none ∧
      Placed goesLeft newnode fuel heap (some root) ids (insertAt side (some id) newnode ids) := by
  obtain ⟨shape, isRoot, rep, -, rfl, nodup⟩ := stands
  obtain ⟨id, side, placed, member, way, free, same⟩ : ∃ id side, place goesLeft fuel heap root = some (id, side) ∧ id ∈ shape.ids ∧
      side = sideOf goesLeft id ∧ (heap id).child side = none ∧ insertBeside side id newnode shape.ids = put goesLeft newnode shape :=
    place_rep rep nodup isRoot.symm enough
  refine ⟨id, side, placed, member, way, free, ?_⟩
  rw [isRoot, insertAt, same]
  exact placed_put rep enough

/-- A new node comes into a tree. -/
theorem insert_stands (stands : Stands heap tree ids) (fresh : newnode ∉ ids) (enough : ids.length < fuel) :
    ∃ after final more, Ptree.insert goesLeft fuel heap tree newnode = some (after, final) ∧ Stands after final more ∧
      Placed goesLeft newnode fuel heap tree ids more := by
  cases tree with
  | none =>
    have empty : ids = [] := by
      obtain ⟨shape, isRoot, -, -, rfl, -⟩ := stands
      rw [Shape.root_eq_none.mp isRoot.symm]
      rfl
    subst empty
    obtain ⟨after, final, added, result⟩ : ∃ after final, getAdd .right fuel heap none none newnode = some (after, final) ∧
        Stands after final (insertAt .right none newnode []) := getAdd_stands stands fresh (fun _ same => by cases same) enough
    exact ⟨after, final, _, added, result, placed_empty⟩
  | some root =>
    obtain ⟨id, side, placed, member, -, -, more⟩ : ∃ id side, place goesLeft fuel heap root = some (id, side) ∧ id ∈ ids ∧
        side = sideOf goesLeft id ∧ (heap id).child side = none ∧
        Placed goesLeft newnode fuel heap (some root) ids (insertAt side (some id) newnode ids) := place_stands stands enough.le
    obtain ⟨after, final, added, result⟩ : ∃ after final, getAdd side fuel heap (some root) (some id) newnode = some (after, final) ∧
        Stands after final (insertAt side (some id) newnode ids) :=
      getAdd_stands stands fresh (fun other equal => by cases equal; exact member) enough
    refine ⟨after, final, _, ?_, result, more⟩
    rw [Ptree.insert, placed]
    cases side <;> exact added

end Insert

end Pclsync.Proofs.TreeSearch
