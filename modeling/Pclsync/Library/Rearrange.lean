import Mathlib

/-! Arrays as functions of the position, rearranged in place. A rearrangement
moves only what lies in its range; a cut is a position that no element has to
cross on the way to its place. -/

namespace Pclsync.Library

variable {α : Type*}

/-- The first `count` elements. -/
def contents (count : ℕ) (items : ℕ → α) : List α := (List.range count).map items

section
variable {items : ℕ → α}

@[simp] theorem length_contents (count : ℕ) : (contents count items).length = count := by
  rw [contents, List.length_map, List.length_range]

theorem contents_add (first second : ℕ) :
    contents (first + second) items = contents first items ++ contents second fun place => items (first + place) := by
  rw [contents, List.range_add, List.map_append, List.map_map]
  rfl

theorem mem_contents {count : ℕ} {item : α} : item ∈ contents count items ↔ ∃ place < count, items place = item := by
  simp [contents]

end

/-- Two elements trade places. -/
def exchange (items : ℕ → α) (first second : ℕ) : ℕ → α := fun place =>
  if place = first then items second else if place = second then items first else items place

section
variable {items : ℕ → α} {first second place : ℕ}

@[simp] theorem exchange_first : exchange items first second first = items second := if_pos rfl

@[simp] theorem exchange_second : exchange items first second second = items first := by
  unfold exchange
  split
  · rename_i same
    rw [same]
  · exact if_pos rfl

theorem exchange_other (one : place ≠ first) (other : place ≠ second) :
    exchange items first second place = items place := by
  rw [exchange, if_neg one, if_neg other]

end

/-- The element at `last` is moved down to `first`, the ones between move up. -/
def moveDown (items : ℕ → α) (first last : ℕ) : ℕ → α := fun place =>
  if place = first then items last else if first < place ∧ place ≤ last then items (place - 1) else items place

section
variable {items : ℕ → α} {first last place : ℕ}

@[simp] theorem moveDown_first : moveDown items first last first = items last := if_pos rfl

theorem moveDown_between (after : first < place) (upto : place ≤ last) :
    moveDown items first last place = items (place - 1) := by
  rw [moveDown, if_neg (by omega), if_pos ⟨after, upto⟩]

theorem moveDown_before (before : place < first) : moveDown items first last place = items place := by
  rw [moveDown, if_neg (by omega), if_neg (by omega)]

end

/-- The elements from `lo` to `hi` are permuted, all others stay. -/
def Rearranged (lo hi : ℕ) (before after : ℕ → α) : Prop :=
  ∃ move : Equiv.Perm ℕ, (∀ place, ¬ (lo ≤ place ∧ place ≤ hi) → move place = place) ∧ after = before ∘ move

namespace Rearranged
variable {lo hi count : ℕ} {before between after items : ℕ → α}

theorem refl (lo hi : ℕ) (items : ℕ → α) : Rearranged lo hi items items := ⟨1, fun _ _ => rfl, rfl⟩

theorem trans (first : Rearranged lo hi before between) (second : Rearranged lo hi between after) :
    Rearranged lo hi before after := by
  obtain ⟨move, fixed, rfl⟩ := first
  obtain ⟨next, still, rfl⟩ := second
  refine ⟨move * next, ?_, rfl⟩
  intro place outside
  rw [Equiv.Perm.mul_apply, still place outside, fixed place outside]

theorem mono {low high : ℕ} (lower : low ≤ lo) (upper : hi ≤ high) (moved : Rearranged lo hi before after) :
    Rearranged low high before after := by
  obtain ⟨move, fixed, same⟩ := moved
  exact ⟨move, fun place outside => fixed place (fun inside => outside (by omega)), same⟩

theorem outside (moved : Rearranged lo hi before after) {place : ℕ} (away : ¬ (lo ≤ place ∧ place ≤ hi)) :
    after place = before place := by
  obtain ⟨move, fixed, rfl⟩ := moved
  rw [Function.comp, fixed place away]

/-- A permutation that fixes what is outside a range keeps the range. -/
private theorem keeps {move : Equiv.Perm ℕ} (fixed : ∀ place, ¬ (lo ≤ place ∧ place ≤ hi) → move place = place)
    {place : ℕ} (inside : lo ≤ place ∧ place ≤ hi) : lo ≤ move place ∧ move place ≤ hi := by
  by_contra away
  have same := move.injective (fixed (move place) away)
  rw [same] at away
  exact away inside

/-- What holds of all elements of the range holds of them afterwards. -/
theorem all {P : α → Prop} (moved : Rearranged lo hi before after)
    (holds : ∀ place, lo ≤ place → place ≤ hi → P (before place)) :
    ∀ place, lo ≤ place → place ≤ hi → P (after place) := by
  obtain ⟨move, fixed, rfl⟩ := moved
  intro place lower upper
  have inside := keeps fixed ⟨lower, upper⟩
  exact holds _ inside.1 inside.2

theorem exchanged {first second : ℕ} (one : lo ≤ first ∧ first ≤ hi) (other : lo ≤ second ∧ second ≤ hi) :
    Rearranged lo hi items (exchange items first second) := by
  refine ⟨Equiv.swap first second, ?_, ?_⟩
  · intro place away
    apply Equiv.swap_apply_of_ne_of_ne
    · rintro rfl
      exact away one
    · rintro rfl
      exact away other
  · funext place
    rw [exchange, Function.comp, Equiv.swap_apply_def]
    split
    · rfl
    · split <;> rfl

theorem movedDown {first last : ℕ} (lower : lo ≤ first) (order : first ≤ last) (upper : last ≤ hi) :
    Rearranged lo hi items (moveDown items first last) := by
  induction last, order using Nat.le_induction generalizing items with
  | base =>
    have same : moveDown items first first = items := by
      funext place
      unfold moveDown
      split
      · rename_i at_first
        rw [at_first]
      · rw [if_neg (by omega)]
    rw [same]
    exact refl lo hi items
  | succ last order ih =>
    have two : moveDown items first (last + 1) = moveDown (exchange items last (last + 1)) first last := by
      funext place
      simp only [moveDown, exchange]
      by_cases start : place = first
      · simp only [start, if_true]
      · simp only [start, if_false]
        by_cases within : first < place ∧ place ≤ last
        · rw [if_pos ⟨within.1, by omega⟩, if_pos within, if_neg (by omega), if_neg (by omega)]
        · rw [if_neg within]
          by_cases final : place = last + 1
          · subst final
            rw [if_pos ⟨by omega, le_rfl⟩, if_neg (by omega), if_pos rfl, Nat.add_sub_cancel]
          · rw [if_neg (by omega), if_neg (by omega), if_neg final]
    rw [two]
    exact (exchanged ⟨by omega, by omega⟩ ⟨by omega, upper⟩).trans (ih (by omega))

theorem perm (moved : Rearranged lo hi before after) (bound : hi < count) :
    (contents count after).Perm (contents count before) := by
  obtain ⟨move, fixed, rfl⟩ := moved
  have places : ((List.range count).map move).Perm (List.range count) := by
    rw [List.perm_ext_iff_of_nodup (List.nodup_range.map move.injective) List.nodup_range]
    intro place
    rw [List.mem_map, List.mem_range]
    constructor
    · rintro ⟨source, small, rfl⟩
      rw [List.mem_range] at small
      by_cases inside : lo ≤ source ∧ source ≤ hi
      · have := keeps fixed inside
        omega
      · rwa [fixed source inside]
    · intro small
      refine ⟨move.symm place, ?_, move.apply_symm_apply place⟩
      rw [List.mem_range]
      by_contra large
      have still := fixed (move.symm place) (by omega)
      rw [move.apply_symm_apply] at still
      omega
  rw [contents, contents, ← List.map_map]
  exact places.map before

end Rearranged

/-- A comparison function whose sign is a total preorder. -/
structure Comparator (compar : α → α → ℤ) : Prop where
  flip : ∀ left right, compar left right < 0 ↔ 0 < compar right left
  trans : ∀ left middle right, compar left middle ≤ 0 → compar middle right ≤ 0 → compar left right ≤ 0

namespace Comparator
variable {compar : α → α → ℤ} (comparator : Comparator compar)
include comparator

theorem self (item : α) : compar item item = 0 := by
  have := comparator.flip item item
  omega

theorem of_not {left right : α} (not : ¬ compar left right < 0) : compar right left ≤ 0 := by
  have := comparator.flip left right
  omega

end Comparator

/-- Every element up to `last` is in order with all after it there. -/
def SortedTo (compar : α → α → ℤ) (items : ℕ → α) (last : ℕ) : Prop :=
  ∀ first second, first < second → second ≤ last → compar (items first) (items second) ≤ 0

namespace SortedTo
variable {compar : α → α → ℤ} {items before after : ℕ → α} {first last : ℕ}

/-- The next element is moved down to its place. -/
theorem moveDown (sorted : SortedTo compar items last) (positive : 0 < first) (upto : first ≤ last + 1)
    (low : ∀ place < first, compar (items place) (items (last + 1)) ≤ 0)
    (high : ∀ place, first ≤ place → place ≤ last → compar (items (last + 1)) (items place) ≤ 0) :
    SortedTo compar (moveDown items first (last + 1)) (last + 1) := by
  intro left right order bound
  rcases Nat.lt_trichotomy right first with before | rfl | after
  · rw [moveDown_before before, moveDown_before (order.trans before)]
    exact sorted left right order (by omega)
  · rw [moveDown_before order, moveDown_first]
    exact low left order
  · rw [moveDown_between after bound]
    rcases Nat.lt_trichotomy left first with lower | rfl | upper
    · rw [moveDown_before lower]
      exact sorted left (right - 1) (by omega) (by omega)
    · rw [moveDown_first]
      exact high (right - 1) (by omega) (by omega)
    · rw [moveDown_between upper (by omega)]
      exact sorted (left - 1) (right - 1) (by omega) (by omega)

/-- If the first `count` elements were not greater than `item`, then the first
`count` after sorting are not: any others could only have taken their places. -/
theorem low (comparator : Comparator compar) (sorted : SortedTo compar after last) (moved : Rearranged 0 last before after)
    {count : ℕ} {item : α} (few : count ≤ last + 1) (small : ∀ place < count, compar (before place) item ≤ 0) :
    ∀ place < count, compar (after place) item ≤ 0 := by
  intro place bound
  by_contra greater
  obtain ⟨move, fixed, rfl⟩ := moved
  have into : ∀ source ∈ Finset.range count, move.symm source ∈ Finset.range place := by
    intro source member
    rw [Finset.mem_range] at member ⊢
    by_contra late
    have value : before (move (move.symm source)) = before source := by rw [move.apply_symm_apply]
    have inside : move.symm source ≤ last := by
      by_contra away
      have still := fixed (move.symm source) (by omega)
      rw [move.apply_symm_apply] at still
      omega
    have own := small source member
    rw [← value] at own
    rcases Nat.eq_or_lt_of_le (Nat.le_of_not_lt late) with same | beyond
    · rw [← same] at own
      exact greater own
    · exact greater (comparator.trans _ _ _ (sorted place _ beyond inside) own)
  have fewer := Finset.card_le_card_of_injOn move.symm into move.symm.injective.injOn
  rw [Finset.card_range, Finset.card_range] at fewer
  omega

end SortedTo

/-- No element before the position is greater than one from it on. -/
def Cut (compar : α → α → ℤ) (count : ℕ) (items : ℕ → α) (position : ℕ) : Prop :=
  ∀ first < position, ∀ second, position ≤ second → second < count → compar (items first) (items second) ≤ 0

namespace Cut
variable {compar : α → α → ℤ} {count lo hi position : ℕ} {before after items : ℕ → α}

theorem zero : Cut compar count items 0 := fun _ small => absurd small (Nat.not_lt_zero _)

theorem top (large : count ≤ position) : Cut compar count items position :=
  fun _ _ _ beyond small => absurd (large.trans beyond) (Nat.not_le.mpr small)

/-- A rearrangement on one side of a cut leaves it a cut. -/
theorem rearranged (cut : Cut compar count before position) (moved : Rearranged lo hi before after) (bound : hi < count)
    (aside : position ≤ lo ∨ hi < position) : Cut compar count after position := by
  intro first small second beyond inside
  rcases aside with below | above
  · have still : after first = before first := moved.outside (by omega)
    by_cases within : lo ≤ second ∧ second ≤ hi
    · rw [still]
      exact moved.all (P := fun item => compar (before first) item ≤ 0)
        (fun place _ upper => cut first small place (by omega) (by omega)) second within.1 within.2
    · rw [still, moved.outside within]
      exact cut first small second beyond inside
  · have still : after second = before second := moved.outside (by omega)
    by_cases within : lo ≤ first ∧ first ≤ hi
    · rw [still]
      exact moved.all (P := fun item => compar item (before second) ≤ 0)
        (fun place _ _ => cut place (by omega) second beyond inside) first within.1 within.2
    · rw [still, moved.outside within]
      exact cut first small second beyond inside

end Cut

/-- The element at `mid` parts the range around it. -/
structure Divided (compar : α → α → ℤ) (items : ℕ → α) (lo mid hi : ℕ) : Prop where
  low : ∀ place, lo ≤ place → place < mid → compar (items place) (items mid) ≤ 0
  high : ∀ place, mid < place → place ≤ hi → compar (items mid) (items place) ≤ 0

namespace Divided
variable {compar : α → α → ℤ} {count lo mid hi : ℕ} {items : ℕ → α}

/-- A pivot between two cuts is a cut itself, on either side of it. -/
theorem cut (comparator : Comparator compar) (divided : Divided compar items lo mid hi)
    (below : Cut compar count items lo) (above : Cut compar count items (hi + 1)) (inside : lo ≤ mid ∧ mid ≤ hi)
    (bound : hi < count) : Cut compar count items mid ∧ Cut compar count items (mid + 1) := by
  have left : ∀ first < mid, compar (items first) (items mid) ≤ 0 := by
    intro first small
    by_cases within : lo ≤ first
    · exact divided.low first within small
    · exact below first (by omega) mid inside.1 (by omega)
  have right : ∀ second, mid < second → second < count → compar (items mid) (items second) ≤ 0 := by
    intro second large small
    by_cases within : second ≤ hi
    · exact divided.high second large within
    · exact above mid (by omega) second (by omega) small
  constructor
  · intro first small second beyond present
    rcases Nat.eq_or_lt_of_le beyond with rfl | large
    · exact left first small
    · exact comparator.trans _ _ _ (left first small) (right second large present)
  · intro first small second beyond present
    rcases Nat.eq_or_lt_of_le (Nat.le_of_lt_succ small) with rfl | lower
    · exact right second beyond present
    · exact comparator.trans _ _ _ (left first lower) (right second beyond present)

end Divided
end Pclsync.Library
