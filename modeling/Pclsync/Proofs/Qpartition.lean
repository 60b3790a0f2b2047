import Pclsync.Proofs.Pivot

/-! Partial selection. A boundary inside the array stays inside the range that
the rounds narrow down; a boundary past the end lets a pivot on the last element
leave an empty range, which the code does not notice. -/

namespace Pclsync.Proofs.Qpartition
open Pclsync.Pages.Pqsort Library Pivot

variable {α : Type} {compar : α → α → ℤ} {items out : ℕ → α} {cnt sortFirst : ℕ} {state : PqState}

/-- What is asked of the result. -/
structure Selected (compar : α → α → ℤ) (cnt sortFirst : ℕ) (items out : ℕ → α) : Prop where
  perm : (contents cnt out).Perm (contents cnt items)
  outside : ∀ place, cnt ≤ place → out place = items place
  parted : Cut compar cnt out sortFirst

/-- The function returns, with what is asked of it. -/
def Selects (compar : α → α → ℤ) (items : ℕ → α) (cnt sortFirst : ℕ) (state : PqState) : Prop :=
  ∃ fuel out last, qpartition compar fuel items cnt sortFirst state = some (out, last) ∧
    Selected compar cnt sortFirst items out

/-- The ranges between the rounds of a run. -/
def Reached (compar : α → α → ℤ) (cnt sf : ℕ) : Segment α → Segment α → Prop :=
  Relation.ReflTransGen fun segment next => qpartitionRound compar cnt sf segment = some (.again next)

/-- What the rounds keep. -/
structure Narrowed (compar : α → α → ℤ) (cnt sf : ℕ) (items : ℕ → α) (segment : Segment α) : Prop where
  moved : Rearranged 0 (cnt - 1) items segment.items
  bound : segment.hi < cnt
  below : Cut compar cnt segment.items segment.lo
  above : Cut compar cnt segment.items (segment.hi + 1)
  holds : sf < cnt → segment.lo ≤ sf ∧ sf ≤ segment.hi

theorem selected_of (moved : Rearranged 0 (cnt - 1) items out) (positive : 0 < cnt)
    (parted : Cut compar cnt out sortFirst) : Selected compar cnt sortFirst items out :=
  ⟨moved.perm (by omega), fun place beyond => moved.outside (by omega), parted⟩

section Round
variable (comparator : Comparator compar) {sf : ℕ} {segment : Segment α}
include comparator

/-- A range of at most three elements is put in order. -/
theorem short_cut (narrowed : Narrowed compar cnt sf items segment) (nonempty : segment.lo ≤ segment.hi)
    (short : segment.hi - segment.lo ≤ 2) :
    Cut compar cnt (choosePivot compar segment.items segment.lo segment.hi segment.state).items sf ∧
      Rearranged segment.lo segment.hi segment.items
        (choosePivot compar segment.items segment.lo segment.hi segment.state).items := by
  obtain ⟨items, lo, hi, state⟩ := segment
  obtain ⟨-, bound, below, above, holds⟩ := narrowed
  simp only at nonempty short bound below above holds ⊢
  have few : hi - lo ≤ qsortMtr := by
    simp only [qsortMtr]
    omega
  simp only [choosePivot, few, if_true]
  have sorted := @sort3_rearranged _ compar items lo (lo + (hi - lo) / 2) hi (by omega) (by omega)
  refine ⟨?_, sorted⟩
  by_cases inside : sf < cnt
  · obtain ⟨from_lo, to_hi⟩ := holds inside
    have low := below.rearranged sorted bound (.inl le_rfl)
    have high := above.rearranged sorted bound (.inr (Nat.lt_succ_self hi))
    rcases Nat.eq_or_lt_of_le from_lo with rfl | later
    · exact low
    · have ordered := @sort3_ordered _ compar items lo (lo + (hi - lo) / 2) hi comparator (by omega) (by omega)
      have divided : Divided compar (sort3 compar items lo (lo + (hi - lo) / 2) hi) lo (lo + (hi - lo) / 2) hi := by
        constructor
        · intro place first last
          obtain rfl : place = lo := by omega
          exact ordered.1
        · intro place first last
          obtain rfl : place = hi := by omega
          exact ordered.2
      have cuts := divided.cut comparator low high ⟨by omega, by omega⟩ bound
      by_cases middle : sf = lo + (hi - lo) / 2
      · rw [middle]
        exact cuts.1
      · rw [show sf = lo + (hi - lo) / 2 + 1 by omega]
        exact cuts.2
  · exact Cut.top (by omega)

/-- A round returns with the selection made, or goes on with a smaller range. -/
theorem round_narrows (narrowed : Narrowed compar cnt sf items segment) (nonempty : segment.lo ≤ segment.hi) :
    (∃ out last, qpartitionRound compar cnt sf segment = some (.finished out last) ∧ Selected compar cnt sf items out) ∨
      ∃ next, qpartitionRound compar cnt sf segment = some (.again next) ∧ Narrowed compar cnt sf items next ∧
        next.hi + 1 - next.lo < segment.hi + 1 - segment.lo ∧ (cnt ≤ qsortMtr + 1 → next.lo ≤ next.hi) := by
  have bound := narrowed.bound
  unfold qpartitionRound
  rw [if_neg (Nat.not_lt.mpr nonempty)]
  by_cases short : segment.hi - segment.lo ≤ 2
  · obtain ⟨parted, sorted⟩ := short_cut comparator narrowed nonempty short
    simp only [short, if_true]
    exact .inl ⟨_, _, rfl, selected_of (narrowed.moved.trans (sorted.mono (Nat.zero_le _) (by omega))) (by omega) parted⟩
  · obtain ⟨out, mid, done, moved, lower, upper, divided, strict⟩ :=
      @round_divides _ compar segment.items cnt segment.lo segment.hi segment.state comparator bound (by omega)
    simp only [short, if_false, done, bind, Option.bind]
    have whole := narrowed.moved.trans (moved.mono (Nat.zero_le _) (by omega))
    have below := narrowed.below.rearranged moved bound (.inl le_rfl)
    have above := narrowed.above.rearranged moved bound (.inr (Nat.lt_succ_self _))
    have cuts := divided.cut comparator below above ⟨lower, upper⟩ bound
    by_cases before : mid < sf
    · rw [if_pos before]
      refine .inr ⟨_, rfl, ⟨whole, bound, cuts.2, above, ?_⟩, ?_, ?_⟩
      · intro inside
        exact ⟨before, (narrowed.holds inside).2⟩
      · simp only
        omega
      · simp only [qsortMtr] at strict ⊢
        omega
    · rw [if_neg before]
      by_cases after : sf < mid
      · rw [if_pos after]
        refine .inr ⟨_, rfl, ⟨whole, by simp only; omega, below, ?_, ?_⟩, ?_, ?_⟩
        · simp only
          rw [Nat.sub_add_cancel (by omega)]
          exact cuts.1
        · intro inside
          have := narrowed.holds inside
          simp only
          omega
        · simp only
          omega
        · simp only [qsortMtr] at strict ⊢
          omega
      · rw [if_neg after]
        obtain rfl : mid = sf := by omega
        exact .inl ⟨_, _, rfl, selected_of whole (by omega) cuts.1⟩

/-- Rounds that never meet an empty range come to an end. -/
theorem rounds_select (narrowed : Narrowed compar cnt sf items segment)
    (never : ∀ next, Reached compar cnt sf segment next → next.lo ≤ next.hi) :
    ∃ enough out last, (∀ fuel ≥ enough, qpartitionRounds compar cnt sf fuel segment = some (out, last)) ∧
      Selected compar cnt sf items out := by
  induction size : segment.hi + 1 - segment.lo using Nat.strong_induction_on generalizing segment with
  | _ size ih =>
    rcases round_narrows comparator narrowed (never segment .refl) with
      ⟨out, last, done, selected⟩ | ⟨next, more, further, smaller, _⟩
    · refine ⟨1, out, last, ?_, selected⟩
      intro fuel positive
      obtain ⟨turns, rfl⟩ := Nat.exists_eq_succ_of_ne_zero (show fuel ≠ 0 by omega)
      rw [qpartitionRounds, done]
    · have later : ∀ after, Reached compar cnt sf next after → after.lo ≤ after.hi :=
        fun after reached => never after (.head more reached)
      obtain ⟨enough, out, last, rest, selected⟩ := ih _ (by omega) further later rfl
      refine ⟨enough + 1, out, last, ?_, selected⟩
      intro fuel more_left
      obtain ⟨turns, rfl⟩ := Nat.exists_eq_succ_of_ne_zero (show fuel ≠ 0 by omega)
      rw [qpartitionRounds, more]
      exact rest turns (by omega)

/-- With the boundary inside the array, or few elements, no range is empty. -/
theorem never_empty (narrowed : Narrowed compar cnt sf items segment) (nonempty : segment.lo ≤ segment.hi)
    (inside : sf < cnt ∨ cnt ≤ qsortMtr + 1) :
    ∀ next, Reached compar cnt sf segment next → Narrowed compar cnt sf items next ∧ next.lo ≤ next.hi := by
  intro next reached
  induction reached with
  | refl => exact ⟨narrowed, nonempty⟩
  | tail _ step ih =>
    rcases round_narrows comparator ih.1 ih.2 with ⟨out, last, done, _⟩ | ⟨next, more, further, _, few⟩
    · rw [done] at step
      cases Option.some.inj step
    · rw [more] at step
      obtain rfl := Round.again.inj (Option.some.inj step)
      refine ⟨further, ?_⟩
      rcases inside with boundary | short
      · have := further.holds boundary
        omega
      · exact few short

end Round

/-- A run that meets an empty range has no result. -/
theorem rounds_lost {sf : ℕ} {segment lost : Segment α} (reached : Reached compar cnt sf segment lost)
    (empty : lost.hi < lost.lo) (fuel : ℕ) : qpartitionRounds compar cnt sf fuel segment = none := by
  induction reached using Relation.ReflTransGen.head_induction_on generalizing fuel with
  | refl =>
    cases fuel with
    | zero => rfl
    | succ fuel => rw [qpartitionRounds, qpartitionRound, if_pos empty]
  | head step _ ih =>
    cases fuel with
    | zero => rfl
    | succ fuel =>
      rw [qpartitionRounds, step]
      exact ih fuel

/-- No round of the run leaves its pivot on the last element of its range while
the boundary lies beyond: the range it would go on with is empty. -/
def PivotsInside (compar : α → α → ℤ) (items : ℕ → α) (cnt sortFirst : ℕ) (state : PqState) : Prop :=
  ∀ segment, Reached compar cnt sortFirst ⟨items, 0, cnt - 1, state⟩ segment → segment.lo ≤ segment.hi

theorem narrowed_start (several : 1 < cnt) : Narrowed compar cnt sortFirst items ⟨items, 0, cnt - 1, state⟩ :=
  { moved := Rearranged.refl _ _ _
    bound := by simp only; omega
    below := Cut.zero
    above := Cut.top (by simp only; omega)
    holds := fun inside => ⟨Nat.zero_le _, by simp only; omega⟩ }

/-- With enough rounds the result does not depend on their number. -/
theorem qpartition_selects (comparator : Comparator compar) (items : ℕ → α) (state : PqState)
    (inside : sortFirst < cnt ∨ cnt ≤ qsortMtr + 1 ∨ PivotsInside compar items cnt sortFirst state) :
    ∃ enough out last, (∀ fuel ≥ enough, qpartition compar fuel items cnt sortFirst state = some (out, last)) ∧
      Selected compar cnt sortFirst items out := by
  by_cases trivial : cnt ≤ 1
  · refine ⟨0, items, state, ?_, List.Perm.refl _, fun _ _ => rfl, ?_⟩
    · intro fuel _
      rw [qpartition, if_pos trivial]
    · rcases Nat.eq_zero_or_pos sortFirst with rfl | positive
      · exact Cut.zero
      · exact Cut.top (by omega)
  · have start := @narrowed_start _ compar items cnt sortFirst state (by omega)
    have never : PivotsInside compar items cnt sortFirst state := by
      rcases inside with boundary | short | never
      · exact fun next reached => (never_empty comparator start (Nat.zero_le _) (.inl boundary) next reached).2
      · exact fun next reached => (never_empty comparator start (Nat.zero_le _) (.inr short) next reached).2
      · exact never
    obtain ⟨enough, out, last, done, selected⟩ := rounds_select comparator start never
    refine ⟨enough, out, last, ?_, selected⟩
    intro fuel more
    rw [qpartition, if_neg trivial]
    exact done fuel more

theorem selects_exactly (comparator : Comparator compar) :
    Selects compar items cnt sortFirst state ↔
      sortFirst < cnt ∨ cnt ≤ qsortMtr + 1 ∨ PivotsInside compar items cnt sortFirst state := by
  constructor
  · rintro ⟨fuel, out, last, done, _⟩
    by_cases trivial : cnt ≤ 1
    · refine .inr (.inl ?_)
      simp only [qsortMtr]
      omega
    · refine .inr (.inr ?_)
      intro segment reached
      by_contra empty
      rw [qpartition, if_neg trivial, rounds_lost reached (by omega)] at done
      contradiction
  · intro condition
    obtain ⟨enough, out, last, done, selected⟩ := qpartition_selects comparator items state condition
    exact ⟨enough, out, last, done enough le_rfl, selected⟩

/-- Selection works for every boundary inside the array and for every array of
at most 65 elements; otherwise exactly when no pivot ends on the last element. -/
theorem selects_iff (comparator : Comparator compar) (items : ℕ → α) (cnt sortFirst : ℕ) (state : PqState) :
    Selects compar items cnt sortFirst state ↔
      sortFirst < cnt ∨ cnt ≤ qsortMtr + 1 ∨ PivotsInside compar items cnt sortFirst state :=
  selects_exactly comparator

section Numbers

/-- The first three of five numbers in falling order. -/
theorem selects_iff_five :
    Selects difference (fun place => 5 - place) 5 3 PqState.start ↔
      3 < 5 ∨ 5 ≤ qsortMtr + 1 ∨ PivotsInside difference (fun place => 5 - place) 5 3 PqState.start :=
  selects_iff difference_comparator (fun place => 5 - place) 5 3 PqState.start

/-- A single largest element. -/
def single (top place : ℕ) : ℤ := if place = top then 1 else 0

theorem single_eq {top place : ℕ} (greatest : ¬ difference (single top place) (single top top) < 0) : place = top := by
  by_contra other
  simp [difference, single, other] at greatest

theorem exchange_single {top last : ℕ} : exchange (single top) top last = single last := by
  funext place
  unfold exchange single
  by_cases here : place = top
  · by_cases same : last = top
    · simp [here, same]
    · rw [if_pos here, if_neg same, if_neg (by omega)]
  · rw [if_neg here]
    split
    · exact if_pos rfl
    · rfl

/-- A single largest element that is the pivot ends up last. -/
theorem exchangeLoop_single {top last count : ℕ} (inside : top < last) (bound : last < count) :
    exchangeLoop difference (single top) count top 0 (last + 1) = some (single last, last) := by
  obtain ⟨left, up, _, _, _, stops⟩ :=
    @scanUp_found _ difference (single top) count top 0 difference_comparator (Nat.zero_le _) (by omega)
  obtain rfl := single_eq stops
  have down : scanDown difference (single left) left (last + 1) = some last := by
    rw [scanDown, if_neg (by simp [difference, single, inside.ne'])]
  rw [exchangeLoop_found up down, if_neg (by omega), if_pos rfl, exchange_single]
  obtain ⟨again, up, _, _, _, stops⟩ :=
    @scanUp_found _ difference (single last) count last (left + 1) difference_comparator (by omega) bound
  obtain rfl := single_eq stops
  have down : scanDown difference (single again) again (again + 1) = some again := by
    rw [scanDown, if_neg (by simp [difference])]
  rw [exchangeLoop_found up down, if_pos le_rfl]

/-- With the boundary past the end the next range is empty. -/
theorem round_single {top last sf : ℕ} (inside : top < last) (long : qsortMtr < last) (beyond : last < sf)
    (picks : (pqChoosePart difference (single top) 0 last state).1 = top) :
    ∃ next, qpartitionRound difference (last + 1) sf ⟨single top, 0, last, state⟩ = some (.again next) ∧
      next.hi < next.lo := by
  have wide : ¬ last ≤ 2 := by
    simp only [qsortMtr] at long
    omega
  have loop := @exchangeLoop_single top last (last + 1) inside (Nat.lt_succ_self last)
  refine ⟨⟨single last, last + 1, last, (pqChoosePart difference (single top) 0 last state).2⟩, ?_,
    Nat.lt_succ_self last⟩
  rw [qpartitionRound, if_neg (Nat.not_lt_zero _)]
  simp only [wide, if_false, choosePivot, Nat.sub_zero, Nat.not_le.mpr long, picks, loop, bind, Option.bind, beyond, if_true]

/-- The generator after 170 numbers, as after 34 choices of a pivot. -/
theorem after_170 : pqRnd^[170] PqState.start = ⟨0xd2d6be74, 0xbcf32fe1, 0xf906b2ee, 0x663fc072⟩ := by decide +kernel

/-- Three of the five candidates among 91 elements are the largest one. -/
theorem pivot_single :
    (pqChoosePart difference (single 44) 0 90 ⟨0xd2d6be74, 0xbcf32fe1, 0xf906b2ee, 0x663fc072⟩).1 = 44 := by
  rw [pqChoosePart, if_neg (by decide)]
  decide

/-- The whole array is asked for: 91 elements, the largest at 44. -/
theorem selects_whole : ¬ Selects difference (single 44) 91 91 (pqRnd^[170] PqState.start) := by
  rw [after_170]
  rintro ⟨fuel, out, last, done, _⟩
  obtain ⟨next, step, empty⟩ := @round_single _ 44 90 91 (by decide) (by decide) (by decide) pivot_single
  rw [qpartition, if_neg (by decide), rounds_lost (.single step) empty] at done
  contradiction

end Numbers
end Pclsync.Proofs.Qpartition
