import Pclsync.Pages.Pqsort

/-! One round of either sort: the pivot lies in the range and the exchange loop
ends with the pivot between what is not greater and what is not less. -/

namespace Pclsync.Proofs.Pivot
open Pclsync.Pages.Pqsort Library

variable {α : Type} {compar : α → α → ℤ} {items : ℕ → α} {cnt lo mid hi l r : ℕ} {state : PqState}

/-- Whatever holds of the five candidates holds of their median. -/
theorem med5_of {P : ℕ → Prop} {a b c d e : ℕ} (first : P a) (second : P b) (third : P c) (fourth : P d) (fifth : P e) :
    P (med5 compar items a b c d e) := by
  unfold med5
  split_ifs <;> dsimp only <;> split_ifs <;> assumption

theorem pqChoosePart_inside {base : ℕ} (some_left : 0 < cnt) :
    base ≤ (pqChoosePart compar items base cnt state).1 ∧ (pqChoosePart compar items base cnt state).1 < base + cnt := by
  induction cnt using Nat.strong_induction_on generalizing base state with
  | _ cnt ih =>
    rw [pqChoosePart]
    split
    · rename_i large
      simp only [qsortRecM] at large
      have part : ∀ offset, offset + cnt / 5 ≤ cnt → ∀ state,
          base ≤ (pqChoosePart compar items (base + offset) (cnt / 5) state).1 ∧
            (pqChoosePart compar items (base + offset) (cnt / 5) state).1 < base + cnt := by
        intro offset fits state
        have := @ih (cnt / 5) (by omega) state (base + offset) (by omega)
        omega
      have first := part 0 (by omega)
      rw [Nat.add_zero] at first
      exact med5_of (P := fun place => base ≤ place ∧ place < base + cnt) (first _) (part _ (by omega) _)
        (part _ (by omega) _) (part _ (by omega) _) (part _ (by omega) _)
    · have draw : ∀ number : ℕ, base ≤ base + number % cnt ∧ base + number % cnt < base + cnt := by
        intro number
        have := Nat.mod_lt number some_left
        omega
      exact med5_of (P := fun place => base ≤ place ∧ place < base + cnt) (draw _) (draw _) (draw _) (draw _) (draw _)

section Three
variable (comparator : Comparator compar)

theorem sort3_rearranged (low : lo ≤ mid) (high : mid ≤ hi) : Rearranged lo hi items (sort3 compar items lo mid hi) := by
  have one : ∀ items : ℕ → α, Rearranged lo hi items (exchange items mid lo) :=
    fun _ => Rearranged.exchanged ⟨low, high⟩ ⟨le_rfl, low.trans high⟩
  have two : ∀ items : ℕ → α, Rearranged lo hi items (exchange items mid hi) :=
    fun _ => Rearranged.exchanged ⟨low, high⟩ ⟨low.trans high, le_rfl⟩
  simp only [sort3]
  split_ifs
  · exact ((one _).trans (two _)).trans (one _)
  · exact (one _).trans (two _)
  · exact one _
  · exact (two _).trans (one _)
  · exact two _
  · exact Rearranged.refl lo hi items

include comparator in
theorem sort3_ordered (low : lo ≤ mid) (high : mid < hi) :
    compar (sort3 compar items lo mid hi lo) (sort3 compar items lo mid hi mid) ≤ 0 ∧
      compar (sort3 compar items lo mid hi mid) (sort3 compar items lo mid hi hi) ≤ 0 := by
  have away : hi ≠ mid := by omega
  have apart : hi ≠ lo := by omega
  rcases Nat.eq_or_lt_of_le low with rfl | between
  · have self : ∀ item : α, ¬ compar item item < 0 := fun item => by rw [comparator.self]; omega
    simp only [sort3]
    simp only [self, if_false]
    split
    · rename_i less
      rw [exchange_first, exchange_second, comparator.self]
      exact ⟨le_rfl, less.le⟩
    · rename_i not
      rw [comparator.self]
      exact ⟨le_rfl, comparator.of_not not⟩
  · have inner : lo ≠ mid := by omega
    simp only [sort3]
    by_cases swapped : compar (items mid) (items lo) < 0
    · simp only [swapped, if_true, exchange_first, exchange_second, exchange_other away apart]
      split
      · rw [exchange_other inner apart.symm, exchange_second]
        split
        · rename_i less
          simp only [exchange_first, exchange_second, exchange_other inner apart.symm, exchange_other away apart]
          exact ⟨less.le, swapped.le⟩
        · rename_i high not
          simp only [exchange_first, exchange_second, exchange_other inner apart.symm, exchange_other away apart]
          exact ⟨comparator.of_not not, high.le⟩
      · rename_i not
        rw [exchange_second, exchange_first, exchange_other away apart]
        exact ⟨swapped.le, comparator.of_not not⟩
    · simp only [swapped, if_false, exchange_first, exchange_other inner apart.symm]
      split
      · rename_i less
        split
        · rename_i lower
          simp only [exchange_first, exchange_second, exchange_other inner apart.symm, exchange_other away apart]
          exact ⟨lower.le, comparator.of_not swapped⟩
        · rename_i not
          simp only [exchange_first, exchange_second, exchange_other inner apart.symm]
          exact ⟨comparator.of_not not, less.le⟩
      · rename_i not
        exact ⟨comparator.of_not swapped, comparator.of_not not⟩

end Three

section Exchange
variable (comparator : Comparator compar)

include comparator in
theorem scanUp_found (before : l ≤ mid) (bound : mid < cnt) :
    ∃ left, scanUp compar items cnt mid l = some left ∧ l ≤ left ∧ left ≤ mid ∧
      (∀ place, l ≤ place → place < left → compar (items place) (items mid) < 0) ∧
      ¬ compar (items left) (items mid) < 0 := by
  fun_induction scanUp compar items cnt mid l with
  | case1 l _ less ih =>
    have further : l + 1 ≤ mid := by
      rcases Nat.eq_or_lt_of_le before with rfl | further
      · rw [comparator.self] at less
        omega
      · exact further
    obtain ⟨left, found, after, upto, low, stop⟩ := ih further
    refine ⟨left, found, by omega, upto, ?_, stop⟩
    intro place from_here until_there
    rcases Nat.eq_or_lt_of_le from_here with rfl | later
    · exact less
    · exact low place later until_there
  | case2 l _ not => exact ⟨l, rfl, le_rfl, before, fun place _ _ => by omega, not⟩
  | case3 => omega

include comparator in
theorem scanDown_found (after : mid < r) :
    ∃ right, scanDown compar items mid r = some right ∧ mid ≤ right ∧ right < r ∧
      (∀ place, right < place → place < r → compar (items mid) (items place) < 0) ∧
      ¬ compar (items mid) (items right) < 0 := by
  induction r with
  | zero => omega
  | succ r ih =>
    rw [scanDown]
    split
    · rename_i less
      have further : mid < r := by
        rcases Nat.eq_or_lt_of_le (Nat.le_of_lt_succ after) with rfl | further
        · rw [comparator.self] at less
          omega
        · exact further
      obtain ⟨right, found, upto, before, high, stop⟩ := ih further
      refine ⟨right, found, upto, by omega, ?_, stop⟩
      intro place beyond until_here
      rcases Nat.eq_or_lt_of_le (Nat.le_of_lt_succ until_here) with rfl | earlier
      · exact less
      · exact high place beyond earlier
    · rename_i not
      exact ⟨r, rfl, Nat.le_of_lt_succ after, Nat.lt_succ_self r, fun place _ _ => by omega, not⟩

/-- What the exchange loop has done on either side of the pivot. -/
structure Around (compar : α → α → ℤ) (items : ℕ → α) (lo l mid r hi : ℕ) : Prop where
  start : lo ≤ l
  before : l ≤ mid
  after : mid < r
  stop : r ≤ hi + 1
  low : ∀ place, lo ≤ place → place < l → compar (items place) (items mid) ≤ 0
  high : ∀ place, r ≤ place → place ≤ hi → compar (items mid) (items place) ≤ 0

include comparator in
/-- The pivot moves along when it is exchanged, and then its new place is not
looked at again from the side it came to. -/
theorem exchangeLoop_divides (bound : hi < cnt) (around : Around compar items lo l mid r hi) :
    ∃ out place, exchangeLoop compar items cnt mid l r = some (out, place) ∧ Rearranged lo hi items out ∧
      l ≤ place ∧ place < r ∧ Divided compar out lo place hi := by
  obtain ⟨start, before, after, stop, low, high⟩ := around
  induction size : r - l using Nat.strong_induction_on generalizing items mid l r with
  | _ size ih =>
    obtain ⟨left, up, from_l, to_mid, below, stops⟩ := @scanUp_found _ compar items cnt mid l comparator before (by omega)
    obtain ⟨right, down, from_mid, to_r, above, halts⟩ := @scanDown_found _ compar items mid r comparator after
    have small : ∀ place, lo ≤ place → place < left → compar (items place) (items mid) ≤ 0 := by
      intro place first last
      by_cases earlier : place < l
      · exact low place first earlier
      · exact (below place (by omega) last).le
    have large : ∀ place, right < place → place ≤ hi → compar (items mid) (items place) ≤ 0 := by
      intro place first last
      by_cases later : r ≤ place
      · exact high place later last
      · exact (above place first (by omega)).le
    rw [exchangeLoop_found up down]
    by_cases met : right ≤ left
    · obtain rfl : left = mid := by omega
      obtain rfl : right = left := by omega
      rw [if_pos met]
      exact ⟨items, _, rfl, Rearranged.refl lo hi items, by omega, by omega, ⟨small, large⟩⟩
    · rw [if_neg met]
      have moved : Rearranged lo hi items (exchange items left right) :=
        Rearranged.exchanged ⟨by omega, by omega⟩ ⟨by omega, by omega⟩
      have not_greater := comparator.of_not halts
      have not_less := comparator.of_not stops
      by_cases at_left : mid = left
      · subst at_left
        rw [if_pos rfl]
        have step := @ih (right + 1 - (mid + 1)) (by omega) (exchange items mid right) right (mid + 1) (right + 1)
          (by omega) (by omega) (by omega) (by omega)
          (by
            intro place first last
            rw [exchange_second]
            by_cases here : place = mid
            · rw [here, exchange_first]
              exact not_greater
            · rw [exchange_other here (by omega)]
              exact small place first (by omega))
          (by
            intro place first last
            rw [exchange_second, exchange_other (by omega) (by omega)]
            exact large place (by omega) last)
          rfl
        obtain ⟨out, place, done, rest, lower, upper, divided⟩ := step
        exact ⟨out, place, done, moved.trans rest, by omega, by omega, divided⟩
      · rw [if_neg at_left]
        by_cases at_right : mid = right
        · subst at_right
          rw [if_pos rfl]
          have step := @ih (mid - left) (by omega) (exchange items left mid) left left mid
            (by omega) (by omega) (by omega) (by omega)
            (by
              intro place first last
              rw [exchange_first, exchange_other (by omega) (by omega)]
              exact small place first last)
            (by
              intro place first last
              rw [exchange_first]
              by_cases here : place = mid
              · rw [here, exchange_second]
                exact not_less
              · rw [exchange_other (by omega) here]
                exact large place (by omega) last)
            rfl
          obtain ⟨out, place, done, rest, lower, upper, divided⟩ := step
          exact ⟨out, place, done, moved.trans rest, by omega, by omega, divided⟩
        · rw [if_neg at_right]
          have pivot : exchange items left right mid = items mid := exchange_other at_left at_right
          have step := @ih (right - (left + 1)) (by omega) (exchange items left right) mid (left + 1) right
            (by omega) (by omega) (by omega) (by omega)
            (by
              intro place first last
              rw [pivot]
              by_cases here : place = left
              · rw [here, exchange_first]
                exact not_greater
              · rw [exchange_other here (by omega)]
                exact small place first (by omega))
            (by
              intro place first last
              rw [pivot]
              by_cases here : place = right
              · rw [here, exchange_second]
                exact not_less
              · rw [exchange_other (by omega) here]
                exact large place (by omega) last)
            rfl
          obtain ⟨out, place, done, rest, lower, upper, divided⟩ := step
          exact ⟨out, place, done, moved.trans rest, by omega, by omega, divided⟩

end Exchange

/-- One round over a range of at least three elements. In a short range the
pivot ends strictly inside. -/
theorem round_divides (comparator : Comparator compar) (bound : hi < cnt) (wide : lo + 2 ≤ hi) :
    ∃ out place,
      exchangeLoop compar (choosePivot compar items lo hi state).items cnt (choosePivot compar items lo hi state).mid
        (choosePivot compar items lo hi state).l (choosePivot compar items lo hi state).r = some (out, place) ∧
      Rearranged lo hi items out ∧ lo ≤ place ∧ place ≤ hi ∧ Divided compar out lo place hi ∧
      (hi - lo ≤ qsortMtr → lo < place ∧ place < hi) := by
  unfold choosePivot
  by_cases short : hi - lo ≤ qsortMtr
  · simp only [short, if_true]
    have ordered := @sort3_ordered _ compar items lo (lo + (hi - lo) / 2) hi comparator (by omega) (by omega)
    have sorted := @sort3_rearranged _ compar items lo (lo + (hi - lo) / 2) hi (by omega) (by omega)
    obtain ⟨out, place, done, moved, lower, upper, divided⟩ := exchangeLoop_divides comparator bound
      (show Around compar (sort3 compar items lo (lo + (hi - lo) / 2) hi) lo (lo + 1) (lo + (hi - lo) / 2) hi hi from
        { start := by omega
          before := by omega
          after := by omega
          stop := by omega
          low := fun place first last => by
            obtain rfl : place = lo := by omega
            exact ordered.1
          high := fun place first last => by
            obtain rfl : place = hi := by omega
            exact ordered.2 })
    exact ⟨out, place, done, sorted.trans moved, by omega, by omega, divided, fun _ => by omega⟩
  · simp only [short, if_false]
    have inside := @pqChoosePart_inside _ compar items (hi - lo) state lo (by omega)
    obtain ⟨out, place, done, moved, lower, upper, divided⟩ := exchangeLoop_divides comparator bound
      (show Around compar items lo lo (pqChoosePart compar items lo (hi - lo) state).1 (hi + 1) hi from
        { start := by omega
          before := by omega
          after := by omega
          stop := by omega
          low := fun place first last => by omega
          high := fun place first last => by omega })
    exact ⟨out, place, done, moved, by omega, by omega, divided, fun narrow => absurd narrow (by simp)⟩

/-- The order of the integers. -/
def difference (left right : ℤ) : ℤ := left - right

theorem difference_comparator : Comparator difference := by
  constructor
  · intro left right
    unfold difference
    omega
  · intro left middle right
    unfold difference
    omega

end Pclsync.Proofs.Pivot
