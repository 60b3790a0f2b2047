import Pclsync.Pages.Pqsort

/-! Both sorts look at their elements only through the comparison: elements that
stand for others are sorted as those are. -/

namespace Pclsync.Proofs.PqsortMap
open Pclsync.Pages.Pqsort Library

variable {α β : Type} {compar : α → α → ℤ} {other : β → β → ℤ} {image : α → β} {items : ℕ → α}
  {cnt lo hi mid l r sf : ℕ} {state : PqState}

theorem exchange_comp (first second : ℕ) : exchange (image ∘ items) first second = image ∘ exchange items first second := by
  funext place
  simp only [exchange, Function.comp]
  split
  · rfl
  · split <;> rfl

theorem moveDown_comp (first last : ℕ) : moveDown (image ∘ items) first last = image ∘ moveDown items first last := by
  funext place
  simp only [moveDown, Function.comp]
  split
  · rfl
  · split <;> rfl

section
variable (same : ∀ left right, other (image left) (image right) = compar left right)
include same

theorem med5_comp (a b c d e : ℕ) : med5 other (image ∘ items) a b c d e = med5 compar items a b c d e := by
  simp only [med5, Function.comp, same]

theorem pqChoosePart_comp (base count : ℕ) (state : PqState) :
    pqChoosePart other (image ∘ items) base count state = pqChoosePart compar items base count state := by
  induction count using Nat.strong_induction_on generalizing base state with
  | _ count ih =>
    rw [pqChoosePart, pqChoosePart.eq_def compar]
    split
    · rename_i large
      simp only [qsortRecM] at large
      simp only [ih (count / 5) (by omega), med5_comp same]
    · simp only [med5_comp same]

theorem sort3_comp : sort3 other (image ∘ items) lo mid hi = image ∘ sort3 compar items lo mid hi := by
  have first : (if other ((image ∘ items) mid) ((image ∘ items) lo) < 0 then exchange (image ∘ items) mid lo
      else image ∘ items) = image ∘ (if compar (items mid) (items lo) < 0 then exchange items mid lo else items) := by
    simp only [Function.comp_apply, same, exchange_comp]
    split <;> rfl
  unfold sort3
  simp only [first]
  generalize (if compar (items mid) (items lo) < 0 then exchange items mid lo else items) = items
  simp only [exchange_comp, Function.comp_apply, same]
  split
  · split <;> rfl
  · rfl

/-- A start with every element replaced by its image. -/
def mapStart (image : α → β) (start : Start α) : Start β :=
  { items := image ∘ start.items, mid := start.mid, l := start.l, r := start.r, state := start.state }

theorem choosePivot_comp :
    choosePivot other (image ∘ items) lo hi state = mapStart image (choosePivot compar items lo hi state) := by
  unfold choosePivot
  by_cases short : hi - lo ≤ qsortMtr
  · simp only [short, if_true, sort3_comp same, mapStart]
  · simp only [short, if_false, pqChoosePart_comp same, mapStart]

theorem scanUp_comp : scanUp other (image ∘ items) cnt mid l = scanUp compar items cnt mid l := by
  fun_induction scanUp compar items cnt mid l with
  | case1 l bound less ih =>
    rw [scanUp, if_pos bound, Function.comp_apply, Function.comp_apply, same, if_pos less]
    exact ih
  | case2 l bound stop => rw [scanUp, if_pos bound, Function.comp_apply, Function.comp_apply, same, if_neg stop]
  | case3 l bound => rw [scanUp, if_neg bound]

theorem scanDown_comp : scanDown other (image ∘ items) mid r = scanDown compar items mid r := by
  induction r with
  | zero => rfl
  | succ r ih => rw [scanDown, scanDown, ih, Function.comp_apply, Function.comp_apply, same]

theorem exchangeLoop_comp : exchangeLoop other (image ∘ items) cnt mid l r =
    (exchangeLoop compar items cnt mid l r).map fun result => (image ∘ result.1, result.2) := by
  induction size : r - l using Nat.strong_induction_on generalizing items mid l r with
  | _ size ih =>
    have upward := @scanUp_comp _ _ _ _ _ items cnt mid l same
    have downward := @scanDown_comp _ _ _ _ _ items mid r same
    cases up : scanUp compar items cnt mid l with
    | none =>
      rw [exchangeLoop_stuck (.inl up), exchangeLoop_stuck (.inl (upward.trans up))]
      rfl
    | some left =>
      cases down : scanDown compar items mid r with
      | none =>
        rw [exchangeLoop_stuck (.inr down), exchangeLoop_stuck (.inr (downward.trans down))]
        rfl
      | some right =>
        have after := scanUp_ge up
        have before := scanDown_lt down
        rw [exchangeLoop_found up down, exchangeLoop_found (upward.trans up) (downward.trans down)]
        split
        · rfl
        · split
          · rw [exchange_comp]
            exact ih _ (by omega) rfl
          · split
            · rw [exchange_comp]
              exact ih _ (by omega) rfl
            · rw [exchange_comp]
              exact ih _ (by omega) rfl

/-- A segment with every element replaced by its image. -/
def mapSegment (image : α → β) (segment : Segment α) : Segment β :=
  { items := image ∘ segment.items, lo := segment.lo, hi := segment.hi, state := segment.state }

def mapRound {σ τ : Type} (image : α → β) (next : σ → τ) : Round α σ → Round β τ
  | .finished items state => .finished (image ∘ items) state
  | .again rest => .again (next rest)

theorem qpartitionRound_comp (segment : Segment α) : qpartitionRound other cnt sf (mapSegment image segment) =
    (qpartitionRound compar cnt sf segment).map (mapRound image (mapSegment image)) := by
  obtain ⟨items, lo, hi, state⟩ := segment
  simp only [qpartitionRound, mapSegment, choosePivot_comp same, mapStart, exchangeLoop_comp same]
  split
  · rfl
  · split
    · rfl
    · cases exchangeLoop compar (choosePivot compar items lo hi state).items cnt
        (choosePivot compar items lo hi state).mid (choosePivot compar items lo hi state).l
        (choosePivot compar items lo hi state).r with
      | none => rfl
      | some result =>
        simp only [Option.map, bind, Option.bind]
        split
        · rfl
        · split <;> rfl

theorem qpartitionRounds_comp (fuel : ℕ) (segment : Segment α) :
    qpartitionRounds other cnt sf fuel (mapSegment image segment) =
      (qpartitionRounds compar cnt sf fuel segment).map fun result => (image ∘ result.1, result.2) := by
  induction fuel generalizing segment with
  | zero => rfl
  | succ fuel ih =>
    rw [qpartitionRounds, qpartitionRounds, qpartitionRound_comp same]
    cases qpartitionRound compar cnt sf segment with
    | none => rfl
    | some round =>
      cases round with
      | finished items state => rfl
      | again next => exact ih next

theorem qpartition_comp (fuel sortFirst : ℕ) (state : PqState) :
    qpartition other fuel (image ∘ items) cnt sortFirst state =
      (qpartition compar fuel items cnt sortFirst state).map fun result => (image ∘ result.1, result.2) := by
  rw [qpartition, qpartition]
  split
  · rfl
  · exact qpartitionRounds_comp same fuel ⟨items, 0, cnt - 1, state⟩

/-- The pending ranges with every element replaced by its image. -/
def mapPending (image : α → β) (pending : Pending α) : Pending β :=
  { items := image ∘ pending.items, lo := pending.lo, hi := pending.hi, stack := pending.stack, state := pending.state }

omit same in
theorem pop_comp (stack : List (ℕ × ℕ)) :
    pop (image ∘ items) state stack = mapRound image (mapPending image) (pop items state stack) := by
  cases stack <;> rfl

theorem pqsortRound_comp (pending : Pending α) : pqsortRound other cnt sf (mapPending image pending) =
    (pqsortRound compar cnt sf pending).map (mapRound image (mapPending image)) := by
  obtain ⟨items, lo, hi, stack, state⟩ := pending
  simp only [pqsortRound, mapPending, choosePivot_comp same, mapStart, exchangeLoop_comp same]
  cases exchangeLoop compar (choosePivot compar items lo hi state).items cnt (choosePivot compar items lo hi state).mid
    (choosePivot compar items lo hi state).l (choosePivot compar items lo hi state).r with
  | none => rfl
  | some result =>
    simp only [Option.map, bind, Option.bind]
    split_ifs
    · exact congrArg some (pop_comp stack)
    · rfl
    · rfl
    · rfl
    · rfl
    · rfl

theorem pqsortRounds_comp (fuel : ℕ) (pending : Pending α) :
    pqsortRounds other cnt sf fuel (mapPending image pending) =
      (pqsortRounds compar cnt sf fuel pending).map fun result => (image ∘ result.1, result.2) := by
  induction fuel generalizing pending with
  | zero => rfl
  | succ fuel ih =>
    rw [pqsortRounds, pqsortRounds, pqsortRound_comp same]
    cases pqsortRound compar cnt sf pending with
    | none => rfl
    | some round =>
      cases round with
      | finished items state => rfl
      | again next => exact ih next

theorem smallest_comp (last : ℕ) : smallest other (image ∘ items) last = smallest compar items last := by
  induction last with
  | zero => rfl
  | succ last ih => simp only [smallest, ih, Function.comp_apply, same]

theorem seat_comp (moving lo : ℕ) : seat other (image ∘ items) moving lo = seat compar items moving lo := by
  induction lo with
  | zero => rw [seat, seat, Function.comp_apply, Function.comp_apply, same]
  | succ lo ih => rw [seat, seat, ih, Function.comp_apply, Function.comp_apply, same]

theorem insertLoop_comp (turns l : ℕ) (items : ℕ → α) :
    insertLoop other turns l (image ∘ items) = (insertLoop compar turns l items).map (image ∘ ·) := by
  induction turns generalizing l items with
  | zero => rfl
  | succ turns ih =>
    rw [insertLoop, insertLoop, seat_comp same]
    cases seat compar items (l + 1) l with
    | none => rfl
    | some lo =>
      simp only [bind, Option.bind]
      split
      · rw [moveDown_comp]
        exact ih _ _
      · exact ih _ _

theorem pqsort_comp (fuel sortFirst size : ℕ) (state : PqState) :
    pqsort other fuel (image ∘ items) cnt sortFirst size state =
      (pqsort compar fuel items cnt sortFirst size state).map fun result => (image ∘ result.1, result.2) := by
  have sorts : ∀ items : ℕ → α, insertionSort other (image ∘ items) cnt sortFirst size =
      (insertionSort compar items cnt sortFirst size).map (image ∘ ·) := by
    intro items
    simp only [insertionSort, smallest_comp same, exchange_comp]
    exact insertLoop_comp same _ _ _
  have rounds := fun fuel => @pqsortRounds_comp _ _ _ _ image cnt sortFirst same fuel ⟨items, 0, cnt - 1, [], state⟩
  simp only [mapPending] at rounds
  rw [pqsort, pqsort]
  split
  · rw [rounds]
    cases pqsortRounds compar cnt sortFirst fuel ⟨items, 0, cnt - 1, [], state⟩ with
    | none => rfl
    | some result =>
      simp only [Option.map, bind, Option.bind, sorts]
      cases insertionSort compar result.1 cnt sortFirst size <;> rfl
  · split
    · rfl
    · rw [sorts]
      cases insertionSort compar items cnt sortFirst size <;> rfl

end
end Pclsync.Proofs.PqsortMap
