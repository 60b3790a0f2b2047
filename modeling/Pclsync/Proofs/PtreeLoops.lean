import Pclsync.Proofs.PtreeHeap

/-! The two loops that go up from a change and balance the tree again. -/

namespace Pclsync.Proofs.PtreeLoops
open Library Pclsync.Ptree Shape PtreeHeap

section
variable {heap : Heap} {shape : Shape ℕ} {path rest : List (Frame ℕ)} {frame : Frame ℕ} {fuel : ℕ} {old : ℤ}

/-- Memory with a path and the shape in its hole has the whole. -/
theorem rep_plug (repShape : Rep heap (top path) shape) (repPath : RepPath heap path shape.root) (fits : Fits path shape.height) :
    Rep heap none (plug path shape) := by
  induction path generalizing shape with
  | nil => exact repShape
  | cons frame rest ih =>
    obtain ⟨atFrame, repOther, above⟩ := repPath
    obtain ⟨_, _, height, fitsAbove⟩ := fits
    refine ih (rep_join.mpr ⟨?_, repShape, repOther⟩) ?_ ?_
    · rw [atFrame, height_join, height]
    · rw [Frame.fill, root_join]
      exact above
    · rw [Frame.fill, height_join, ← height]
      exact fitsAbove

theorem rep_unplug (rep : Rep heap none (plug path shape)) (fits : Fits path shape.height) :
    Rep heap (top path) shape ∧ RepPath heap path shape.root := by
  induction path generalizing shape with
  | nil => exact ⟨rep, trivial⟩
  | cons frame rest ih =>
    obtain ⟨_, _, height, fitsAbove⟩ := fits
    obtain ⟨repFill, above⟩ := @ih (frame.fill shape) rep (by rw [Frame.fill, height_join, ← height]; exact fitsAbove)
    obtain ⟨atFrame, repShape, repOther⟩ := rep_join.mp repFill
    rw [Frame.fill, root_join] at above
    refine ⟨repShape, ?_, repOther, above⟩
    rw [atFrame, height_join, height]

/-- The two heights that the loops look at. -/
theorem heights_eq (repShape : Rep heap (some frame.id) shape) (repPath : RepPath heap (frame :: rest) shape.root) :
    (frame.side = .left → Ptree.height heap (heap frame.id).left = shape.height ∧
      Ptree.height heap (heap frame.id).right = frame.other.height) ∧
    (frame.side = .right → Ptree.height heap (heap frame.id).left = frame.other.height ∧
      Ptree.height heap (heap frame.id).right = shape.height) := by
  obtain ⟨atFrame, repOther, _⟩ := repPath
  constructor
  · intro which
    rw [atFrame, which]
    exact ⟨repShape.height, repOther.height⟩
  · intro which
    rw [atFrame, which]
    exact ⟨repOther.height, repShape.height⟩

/-- A node whose height is set to the right one. -/
theorem setHeight_rep {height : ℤ} (repShape : Rep heap (some frame.id) shape) (repPath : RepPath heap (frame :: rest) shape.root)
    (nodup : (plug (frame :: rest) shape).ids.Nodup) (right : height = (frame.fill shape).height) :
    Rep (heap.setHeight frame.id height) (top rest) (frame.fill shape) ∧
      RepPath (heap.setHeight frame.id height) rest (frame.fill shape).root := by
  obtain ⟨atFrame, repOther, above⟩ := repPath
  rw [plug, Frame.fill] at nodup
  obtain ⟨inside, apart⟩ := nodup_plug nodup
  obtain ⟨freshShape, freshOther, _⟩ := nodup_around.mp (by rwa [ids_join] at inside)
  obtain ⟨notBefore, notBehind⟩ := apart frame.id (by rw [ids_join, mem_around]; exact .inl rfl)
  have others : ∀ x, x ≠ frame.id → heap.setHeight frame.id height x = heap x := by
    intro x ne
    rw [Heap.setHeight, set_apply, if_neg ne]
  refine ⟨rep_join.mpr ⟨?_, repShape.congr fun x member => others x ?_, repOther.congr fun x member => others x ?_⟩, ?_⟩
  · rw [Heap.setHeight, set_apply, if_pos rfl, atFrame, setHeight_nodeOf, right, Frame.fill]
  · rintro rfl
    exact freshShape member
  · rintro rfl
    exact freshOther member
  · rw [Frame.fill, root_join]
    refine above.congr fun x member => others x ?_
    rintro rfl
    exact member.elim notBefore notBehind

theorem setHeight_parent {height : ℤ} (repPath : RepPath heap (frame :: rest) shape.root) :
    ((heap.setHeight frame.id height) frame.id).parent = top rest := by
  rw [Heap.setHeight, set_apply, if_pos rfl, repPath.1, setHeight_nodeOf, parent_nodeOf]

/-- A whole whose path fits what is in the hole now. -/
theorem finished (path : List (Frame ℕ)) (repShape : Rep heap (top path) shape) (repPath : RepPath heap path shape.root) (balanced : shape.Balanced)
    (fits : Fits path shape.height) :
    ∃ whole : Shape ℕ, rootOf path shape.root = whole.root ∧ Rep heap none whole ∧ whole.Balanced ∧
      whole.ids = (plug path shape).ids :=
  ⟨plug path shape, root_plug.symm, rep_plug repShape repPath fits, plug_balanced balanced fits, rfl⟩

/-- Which branch the loops take where the heights differ by two. -/
theorem steep (side : Side) {l r high low : ℤ} (two : high = low + 2) (sides : side = .left → l = high ∧ r = low)
    (mirrored : side = .right → l = low ∧ r = high) :
    l - r ≠ 0 ∧ ¬(l - r = 1 ∨ l - r = -1) ∧ (if l - r = 2 then Side.left else .right) = side := by
  cases side with
  | left =>
    obtain ⟨rfl, rfl⟩ := sides rfl
    exact ⟨by omega, by omega, if_pos (by omega)⟩
  | right =>
    obtain ⟨rfl, rfl⟩ := mirrored rfl
    exact ⟨by omega, by omega, if_neg (by omega)⟩

/-- Up from a shape that has grown by one. It has grown unevenly unless it is the new leaf. -/
theorem goUpRebalanceAdd_rep (enough : rest.length < fuel) (repShape : Rep heap (some frame.id) shape)
    (repPath : RepPath heap (frame :: rest) shape.root) (nodup : (plug (frame :: rest) shape).ids.Nodup)
    (balanced : shape.Balanced) (grown : shape.Uneven ∨ shape.height = 1) (fits : Fits (frame :: rest) (shape.height - 1)) :
    ∃ after whole, goUpRebalanceAdd fuel heap (rootOf (frame :: rest) shape.root) frame.id = some (after, whole.root) ∧
      Rep after none whole ∧ whole.Balanced ∧ whole.ids = (plug (frame :: rest) shape).ids := by
  induction fuel generalizing heap shape frame rest with
  | zero => exact absurd enough (Nat.not_lt_zero _)
  | succ fuel ih =>
    obtain ⟨heightsLeft, heightsRight⟩ := heights_eq repShape repPath
    obtain ⟨balancedOther, ⟨lower, higher⟩, height, fitsAbove⟩ := fits
    have difference : shape.height = frame.other.height ∨ shape.height = frame.other.height + 1 ∨
        shape.height = frame.other.height + 2 := by omega
    rw [goUpRebalanceAdd]
    rcases difference with same | one | two
    · -- the other side was higher
      have even : Ptree.height heap (heap frame.id).left - Ptree.height heap (heap frame.id).right = 0 := by
        cases which : frame.side with
        | left => rw [(heightsLeft which).1, (heightsLeft which).2, same, sub_self]
        | right => rw [(heightsRight which).1, (heightsRight which).2, same, sub_self]
      obtain ⟨whole, isRoot, rep, balancedWhole, ids⟩ := finished (frame :: rest) repShape repPath balanced
        ⟨balancedOther, ⟨by omega, by omega⟩, by omega, fitsAbove⟩
      refine ⟨heap, whole, ?_, rep, balancedWhole, ids⟩
      simp only [even, if_true, isRoot]
    · -- both sides were alike, and the node is higher now
      have filled : (frame.fill shape).height = shape.height + 1 := by
        rw [Frame.fill, height_join]
        omega
      have odd : ∀ l r : ℤ, (l = shape.height ∧ r = frame.other.height) ∨ (l = frame.other.height ∧ r = shape.height) →
          l - r ≠ 0 ∧ (l - r = 1 ∨ l - r = -1) ∧ r + (l - r + 1) / 2 + 1 = (frame.fill shape).height := by
        intro l r either
        rw [filled]
        omega
      obtain ⟨notEven, isOne, newHeight⟩ := odd (Ptree.height heap (heap frame.id).left) (Ptree.height heap (heap frame.id).right) (by
        cases which : frame.side with
        | left => exact .inl (heightsLeft which)
        | right => exact .inr (heightsRight which))
      have uneven : (frame.fill shape).Uneven := by
        rw [Frame.fill, uneven_join]
        omega
      have balancedFill : (frame.fill shape).Balanced := balanced_join.mpr ⟨balanced, balancedOther, ⟨by omega, by omega⟩⟩
      obtain ⟨repFill, repAbove⟩ := setHeight_rep repShape repPath nodup newHeight
      simp only [notEven, if_false, isOne, if_true, setHeight_parent repPath]
      cases rest with
      | nil => exact ⟨_, frame.fill shape, by rw [top_nil, rootOf, Frame.fill, root_join]; rfl, repFill, balancedFill, rfl⟩
      | cons next rest =>
        have above : Fits (next :: rest) ((frame.fill shape).height - 1) := by
          have grew : (frame.fill shape).height - 1 = frame.height := by omega
          rw [grew]
          exact fitsAbove
        obtain ⟨after, whole, goes, rep, balancedWhole, ids⟩ := ih (Nat.lt_of_succ_lt_succ enough) repFill repAbove nodup balancedFill
          (.inl uneven) above
        refine ⟨after, whole, ?_, rep, balancedWhole, ids⟩
        rw [Frame.fill, root_join] at goes
        exact goes
    · -- this side was higher already
      have uneven : shape.Uneven := by
        rcases grown with uneven | leaf
        · exact uneven
        · have nonneg := frame.other.height_nonneg
          omega
      obtain ⟨atFrame, repOther, above⟩ := repPath
      obtain ⟨after, turned, rebalances, rep, repAbove, ids, balancedTurned, heightTurned⟩ :=
        rebalance_rep frame.side atFrame repShape repOther above nodup balanced balancedOther two
      have sameHeight : turned.height = frame.height := by
        rcases heightTurned with same | ⟨_, notUneven⟩
        · omega
        · exact absurd uneven notUneven
      obtain ⟨whole, isRoot, repWhole, balancedWhole, idsWhole⟩ := finished rest rep repAbove balancedTurned (by rw [sameHeight]; exact fitsAbove)
      refine ⟨after, whole, ?_, repWhole, balancedWhole, ?_⟩
      · obtain ⟨notEven, notOne, isSide⟩ := steep frame.side two heightsLeft heightsRight
        simp only [isSide, if_neg notEven, if_neg notOne]
        rw [rootOf, rebalances, ← isRoot]
        rfl
      · rw [idsWhole, ids_plug, ids, ← ids_plug]
        rfl

/-- Up from a shape that may have lost one of its height. -/
theorem goUpRebalanceDel_rep (enough : rest.length < fuel) (repShape : Rep heap (some frame.id) shape)
    (repPath : RepPath heap (frame :: rest) shape.root) (nodup : (plug (frame :: rest) shape).ids.Nodup)
    (balanced : shape.Balanced) (lost : old = shape.height ∨ old = shape.height + 1) (fits : Fits (frame :: rest) old) :
    ∃ after whole, goUpRebalanceDel fuel heap (rootOf (frame :: rest) shape.root) frame.id = some (after, whole.root) ∧
      Rep after none whole ∧ whole.Balanced ∧ whole.ids = (plug (frame :: rest) shape).ids := by
  induction fuel generalizing heap shape frame rest old with
  | zero => exact absurd enough (Nat.not_lt_zero _)
  | succ fuel ih =>
    obtain ⟨heightsLeft, heightsRight⟩ := heights_eq repShape repPath
    obtain ⟨balancedOther, ⟨lower, higher⟩, height, fitsAbove⟩ := fits
    have difference : shape.height = frame.other.height ∨
        (shape.height = frame.other.height + 1 ∨ frame.other.height = shape.height + 1) ∧ old = shape.height ∨
        frame.other.height = shape.height + 1 ∧ old = shape.height + 1 ∨ frame.other.height = shape.height + 2 ∧ old = shape.height + 1 := by
      omega
    have either : (Ptree.height heap (heap frame.id).left = shape.height ∧ Ptree.height heap (heap frame.id).right = frame.other.height) ∨
        (Ptree.height heap (heap frame.id).left = frame.other.height ∧ Ptree.height heap (heap frame.id).right = shape.height) := by
      cases which : frame.side with
      | left => exact .inl (heightsLeft which)
      | right => exact .inr (heightsRight which)
    rw [goUpRebalanceDel]
    rcases difference with same | ⟨one, kept⟩ | ⟨one, lower⟩ | ⟨two, lower⟩
    · -- the node may be lower now
      have filled : (frame.fill shape).height = shape.height + 1 := by
        rw [Frame.fill, height_join]
        omega
      have even : Ptree.height heap (heap frame.id).left - Ptree.height heap (heap frame.id).right = 0 ∧
          Ptree.height heap (heap frame.id).right + 1 = (frame.fill shape).height := by
        rw [filled]
        omega
      have balancedFill : (frame.fill shape).Balanced := balanced_join.mpr ⟨balanced, balancedOther, ⟨by omega, by omega⟩⟩
      obtain ⟨repFill, repAbove⟩ := setHeight_rep repShape repPath nodup even.2
      simp only [even.1, if_true, setHeight_parent repPath]
      cases rest with
      | nil => exact ⟨_, frame.fill shape, by rw [top_nil, rootOf, Frame.fill, root_join]; rfl, repFill, balancedFill, rfl⟩
      | cons next rest =>
        obtain ⟨after, whole, goes, rep, balancedWhole, ids⟩ := ih (Nat.lt_of_succ_lt_succ enough) repFill repAbove nodup balancedFill
          (by omega) fitsAbove
        refine ⟨after, whole, ?_, rep, balancedWhole, ids⟩
        rw [Frame.fill, root_join] at goes
        exact goes
    · obtain ⟨whole, isRoot, rep, balancedWhole, ids⟩ := finished (frame :: rest) repShape repPath balanced
        ⟨balancedOther, ⟨by omega, by omega⟩, by omega, fitsAbove⟩
      refine ⟨heap, whole, ?_, rep, balancedWhole, ids⟩
      rw [if_neg (by omega), if_pos (by omega), isRoot]
    · obtain ⟨whole, isRoot, rep, balancedWhole, ids⟩ := finished (frame :: rest) repShape repPath balanced
        ⟨balancedOther, ⟨by omega, by omega⟩, by omega, fitsAbove⟩
      refine ⟨heap, whole, ?_, rep, balancedWhole, ids⟩
      rw [if_neg (by omega), if_pos (by omega), isRoot]
    · -- the other side is too high now
      obtain ⟨atFrame, repOther, above⟩ := repPath
      have mirrored : join frame.side.opposite frame.other frame.id shape = frame.fill shape := join_opposite
      obtain ⟨after, turned, rebalances, rep, repAbove, ids, balancedTurned, heightTurned⟩ :=
        rebalance_rep frame.side.opposite (by rw [atFrame, nodeOf_opposite]) repOther repShape above
          (by rw [mirrored]; exact nodup) balancedOther balanced two
      rw [mirrored] at ids
      obtain ⟨notEven, notOne, isSide⟩ := steep frame.side.opposite two
        (fun which => heightsRight (by cases side : frame.side <;> rw [side] at which; cases which))
        (fun which => heightsLeft (by cases side : frame.side <;> rw [side] at which; cases which))
      simp only [isSide, if_neg notEven, if_neg notOne]
      rw [rootOf, rebalances]
      simp only [Option.bind_eq_bind, Option.bind_some]
      cases rest with
      | nil => exact ⟨after, turned, rfl, rep, balancedTurned, ids⟩
      | cons next rest =>
        obtain ⟨final, whole, goes, repWhole, balancedWhole, idsWhole⟩ := ih (Nat.lt_of_succ_lt_succ enough) rep repAbove
          (by rw [ids_plug, ids, ← ids_plug]; exact nodup) balancedTurned (by omega) fitsAbove
        refine ⟨final, whole, goes, repWhole, balancedWhole, ?_⟩
        rw [idsWhole, ids_plug, ids, ← ids_plug]
        rfl

end

end Pclsync.Proofs.PtreeLoops
