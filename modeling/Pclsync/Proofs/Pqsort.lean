import Pclsync.Proofs.Pivot

/-! Partial sorting. The rounds of the quicksort only have to leave two cuts
behind, one among the first elements and one just past the boundary; the larger
half of every range waits on the stack, so its depth is logarithmic. The
insertion sort then orders everything up to the second cut. -/

namespace Pclsync.Proofs.Pqsort
open Pclsync.Pages.Pqsort Library Pivot

variable {α : Type} {compar : α → α → ℤ} {items out : ℕ → α} {cnt sf : ℕ} {state : PqState}
  {range : ℕ × ℕ} {ranges kept stack : List (ℕ × ℕ)} {position : ℕ}

/-- The position lies inside none of the ranges. -/
def Clear (position : ℕ) (ranges : List (ℕ × ℕ)) : Prop := ∀ range ∈ ranges, position ≤ range.1 ∨ range.2 < position

/-- A cut within eight elements of the target, or a range that will leave one. -/
def Marked (compar : α → α → ℤ) (cnt : ℕ) (items : ℕ → α) (ranges : List (ℕ × ℕ)) (target : ℕ) : Prop :=
  (∃ position, target ≤ position ∧ position ≤ target + qsortTresh ∧ Cut compar cnt items position ∧
    Clear position ranges) ∨
  ∃ range ∈ ranges, range.1 ≤ target ∧ target ≤ range.2 + 1

/-- A range with `depth` others below it on the stack is that much shorter. -/
def Depth (cnt : ℕ) : List (ℕ × ℕ) → Prop
  | [] => True
  | range :: ranges => (range.2 - range.1 + 1) * 2 ^ ranges.length ≤ cnt ∧ Depth cnt ranges

/-- The elements that are still to be parted. -/
def mass (ranges : List (ℕ × ℕ)) : ℕ := (ranges.map fun range => range.2 - range.1 + 1).sum

/-- A range that waits for its round. -/
structure Waits (compar : α → α → ℤ) (cnt : ℕ) (items : ℕ → α) (range : ℕ × ℕ) : Prop where
  long : range.1 + qsortTresh ≤ range.2
  bound : range.2 < cnt
  below : Cut compar cnt items range.1
  above : Cut compar cnt items (range.2 + 1)

/-- What the rounds keep, with the current range before those of the stack. -/
structure Work (compar : α → α → ℤ) (cnt sf : ℕ) (items out : ℕ → α) (ranges : List (ℕ × ℕ)) : Prop where
  moved : Rearranged 0 (cnt - 1) items out
  waits : ∀ range ∈ ranges, Waits compar cnt out range
  apart : ranges.Pairwise fun range other => range.2 < other.1 ∨ other.2 < range.1
  first : Marked compar cnt out ranges 1
  last : Marked compar cnt out ranges sf
  depth : Depth cnt ranges

section Step
variable {lo hi mid : ℕ} {after : ℕ → α}

/-- The ranges that a round may keep: those on either side of the pivot. -/
structure Keeps (lo mid hi sf : ℕ) (kept : List (ℕ × ℕ)) : Prop where
  sides : ∀ range ∈ kept, range = (lo, mid - 1) ∧ lo < mid ∨ range = (mid + 1, hi) ∧ mid < hi
  long : ∀ range ∈ kept, range.1 + qsortTresh ≤ range.2
  left : mid - lo ≤ qsortTresh ∨ (lo, mid - 1) ∈ kept
  right : hi - mid ≤ qsortTresh ∨ sf ≤ mid ∨ (mid + 1, hi) ∈ kept
  apart : kept.Pairwise fun range other => range.2 < other.1 ∨ other.2 < range.1

/-- A cut in or at the ends of the current range is clear of all other ranges. -/
theorem clear_within (apart : ∀ range ∈ stack, hi < range.1 ∨ range.2 < lo) (lower : lo ≤ position)
    (upper : position ≤ hi + 1) : Clear position stack := by
  intro range member
  rcases apart range member with above | below
  · exact .inl (by omega)
  · exact .inr (by omega)

theorem clear_append (left : Clear position kept) (right : Clear position stack) : Clear position (kept ++ stack) := by
  intro range member
  rcases List.mem_append.mp member with inside | outside
  · exact left range inside
  · exact right range outside

theorem clear_kept (keeps : Keeps lo mid hi sf kept)
    (place : position ≤ lo ∨ position = mid ∨ position = mid + 1 ∨ hi < position) (inside : lo ≤ mid ∧ mid ≤ hi) :
    Clear position kept := by
  intro range member
  rcases keeps.sides range member with ⟨rfl, _⟩ | ⟨rfl, _⟩ <;> dsimp only <;> omega

/-- The mark of a target survives a round: if the target was in the current
range, it is now in a kept side or near the pivot or the end of the range. -/
theorem marked_step {target : ℕ} (near : target ≤ sf + 1) (marked : Marked compar cnt out ((lo, hi) :: stack) target)
    (moved : Rearranged lo hi out after) (bound : hi < cnt) (inside : lo ≤ mid ∧ mid ≤ hi)
    (cuts : Cut compar cnt after mid ∧ Cut compar cnt after (mid + 1)) (above : Cut compar cnt after (hi + 1))
    (apart : ∀ range ∈ stack, hi < range.1 ∨ range.2 < lo) (keeps : Keeps lo mid hi sf kept) :
    Marked compar cnt after (kept ++ stack) target := by
  rcases marked with ⟨position, lower, upper, cut, clear⟩ | ⟨range, member, lower, upper⟩
  · have here := clear (lo, hi) List.mem_cons_self
    have others : Clear position stack := fun range member => clear range (List.mem_cons_of_mem _ member)
    refine .inl ⟨position, lower, upper, cut.rearranged moved bound here, clear_append ?_ others⟩
    apply clear_kept keeps _ inside
    dsimp only at here
    omega
  · rcases List.mem_cons.mp member with rfl | waiting
    · dsimp only at lower upper
      by_cases before : mid < target
      · rcases keeps.right with short | beyond | right
        · exact .inl ⟨hi + 1, upper, by omega, above,
            clear_append (clear_kept keeps (by omega) inside) (clear_within apart (by omega) le_rfl)⟩
        · exact .inl ⟨mid + 1, by omega, by omega, cuts.2,
            clear_append (clear_kept keeps (by omega) inside) (clear_within apart (by omega) (by omega))⟩
        · exact .inr ⟨_, List.mem_append_left _ right, before, upper⟩
      · rcases keeps.left with short | left
        · exact .inl ⟨mid, by omega, by omega, cuts.1,
            clear_append (clear_kept keeps (by omega) inside) (clear_within apart (by omega) (by omega))⟩
        · exact .inr ⟨_, List.mem_append_left _ left, lower, by dsimp only; omega⟩
    · exact .inr ⟨range, List.mem_append_right _ waiting, lower, upper⟩

theorem work_step (comparator : Comparator compar) (work : Work compar cnt sf items out ((lo, hi) :: stack))
    (moved : Rearranged lo hi out after) (inside : lo ≤ mid ∧ mid ≤ hi) (divided : Divided compar after lo mid hi)
    (keeps : Keeps lo mid hi sf kept) (depth : Depth cnt (kept ++ stack)) :
    Work compar cnt sf items after (kept ++ stack) := by
  have current := work.waits (lo, hi) List.mem_cons_self
  have bound : hi < cnt := current.bound
  obtain ⟨away, separate⟩ := List.pairwise_cons.mp work.apart
  have apart : ∀ range ∈ stack, hi < range.1 ∨ range.2 < lo := away
  have below := current.below.rearranged moved bound (.inl le_rfl)
  have above := current.above.rearranged moved bound (.inr (Nat.lt_succ_self hi))
  have cuts := divided.cut comparator below above inside bound
  constructor
  · exact work.moved.trans (moved.mono (Nat.zero_le _) (by omega))
  · intro range member
    rcases List.mem_append.mp member with new | old
    · have long := keeps.long range new
      rcases keeps.sides range new with ⟨rfl, nonempty⟩ | ⟨rfl, nonempty⟩
      · refine ⟨long, ?_, below, ?_⟩
        · dsimp only
          omega
        · dsimp only
          rw [Nat.sub_add_cancel (by omega)]
          exact cuts.1
      · exact ⟨long, bound, cuts.2, above⟩
    · have waits := work.waits range (List.mem_cons_of_mem _ old)
      have beside := apart range old
      have long := waits.long
      exact ⟨long, waits.bound, waits.below.rearranged moved bound (by omega), waits.above.rearranged moved bound (by omega)⟩
  · rw [List.pairwise_append]
    refine ⟨keeps.apart, separate, ?_⟩
    intro range new other old
    have beside := apart other old
    rcases keeps.sides range new with ⟨rfl, _⟩ | ⟨rfl, _⟩ <;> dsimp only <;> omega
  · exact marked_step (by omega) work.first moved bound inside cuts above apart keeps
  · exact marked_step (by omega) work.last moved bound inside cuts above apart keeps
  · exact depth

end Step

section Depth
variable {other : ℕ × ℕ}

theorem Depth.shorter (depth : Depth cnt (range :: stack)) (less : other.2 - other.1 ≤ range.2 - range.1) :
    Depth cnt (other :: stack) := by
  refine ⟨le_trans ?_ depth.1, depth.2⟩
  exact Nat.mul_le_mul_right _ (Nat.succ_le_succ less)

/-- The shorter of two ranges goes on top of the longer one. -/
theorem Depth.push {short long : ℕ × ℕ} (depth : Depth cnt (range :: stack))
    (order : short.2 - short.1 ≤ long.2 - long.1)
    (fit : short.2 - short.1 + 1 + (long.2 - long.1 + 1) ≤ range.2 - range.1 + 1) :
    Depth cnt (short :: long :: stack) := by
  refine ⟨?_, depth.shorter (by omega)⟩
  calc (short.2 - short.1 + 1) * 2 ^ (long :: stack).length
      = (short.2 - short.1 + 1) * 2 * 2 ^ stack.length := by rw [List.length_cons, pow_succ', Nat.mul_assoc]
    _ ≤ (range.2 - range.1 + 1) * 2 ^ stack.length := Nat.mul_le_mul_right _ (by omega)
    _ ≤ cnt := depth.1

/-- The ranges below the current one leave room for another on the stack. -/
theorem Depth.room (depth : Depth cnt (range :: ranges)) (fits : cnt < 2 ^ stackSize) : ranges.length < stackSize := by
  have positive : 2 ^ ranges.length ≤ (range.2 - range.1 + 1) * 2 ^ ranges.length :=
    Nat.le_mul_of_pos_left _ (Nat.succ_pos _)
  exact (Nat.pow_lt_pow_iff_right (by decide)).mp (positive.trans_lt (depth.1.trans_lt fits))

end Depth

section Rounds
variable {pending : Pending α}

/-- The ranges of a pending sort, the current one first. -/
def rangesOf (pending : Pending α) : List (ℕ × ℕ) := (pending.lo, pending.hi) :: pending.stack

/-- A round ends the sort with all its work done, or leaves less of it. -/
def Progress (compar : α → α → ℤ) (cnt sf : ℕ) (items : ℕ → α) (before : ℕ) : Round α (Pending α) → Prop
  | .finished out _ => Work compar cnt sf items out []
  | .again next => Work compar cnt sf items next.items (rangesOf next) ∧ mass (rangesOf next) < before

theorem progress_pop {before : ℕ} (work : Work compar cnt sf items out stack) (less : mass stack < before) :
    Progress compar cnt sf items before (pop out state stack) := by
  cases stack with
  | nil => exact work
  | cons range stack => exact ⟨work, less⟩

theorem round_works (comparator : Comparator compar) (fits : cnt < 2 ^ stackSize)
    (work : Work compar cnt sf items pending.items (rangesOf pending)) :
    ∃ round, pqsortRound compar cnt sf pending = some round ∧
      Progress compar cnt sf items (mass (rangesOf pending)) round := by
  obtain ⟨before, lo, hi, stack, state⟩ := pending
  have current := work.waits (lo, hi) List.mem_cons_self
  have long : lo + 8 ≤ hi := current.long
  have depth := work.depth
  obtain ⟨after, mid, done, moved, lower, upper, divided, -⟩ :=
    @round_divides _ compar before cnt lo hi state comparator current.bound (by omega)
  have step := fun kept => @work_step _ compar items before cnt sf kept stack lo hi mid after comparator work moved
    ⟨lower, upper⟩ divided
  simp only [rangesOf] at depth work ⊢
  simp only [pqsortRound, done, bind, Option.bind]
  by_cases skip : hi - mid ≤ qsortTresh ∨ sf ≤ mid
  · rw [if_pos skip]
    by_cases short : mid - lo ≤ qsortTresh
    · rw [if_pos short]
      refine ⟨_, rfl, progress_pop (step [] ⟨by simp, by simp, .inl short, by tauto, .nil⟩ depth.2) ?_⟩
      simp only [mass, List.map_cons, List.sum_cons]
      omega
    · rw [if_neg short]
      simp only [qsortTresh] at short
      refine ⟨_, rfl, step [(lo, mid - 1)] ⟨?_, ?_, ?_, by tauto, List.pairwise_singleton _ _⟩
        (depth.shorter (by dsimp only; omega)), ?_⟩
      · simp [qsortTresh]
        omega
      · simp [qsortTresh]
        omega
      · simp
      · simp only [rangesOf, mass, List.map_cons, List.sum_cons]
        omega
  · rw [if_neg skip]
    rw [not_or] at skip
    simp only [qsortTresh] at skip
    by_cases short : mid - lo ≤ qsortTresh
    · rw [if_pos short]
      refine ⟨_, rfl, step [(mid + 1, hi)] ⟨?_, ?_, .inl short, ?_, List.pairwise_singleton _ _⟩
        (depth.shorter (by dsimp only; omega)), ?_⟩
      · simp [qsortTresh]
        omega
      · simp [qsortTresh]
        omega
      · simp
      · simp only [rangesOf, mass, List.map_cons, List.sum_cons]
        omega
    · rw [if_neg short]
      simp only [qsortTresh] at short
      have both : ∀ kept, kept = [(lo, mid - 1), (mid + 1, hi)] ∨ kept = [(mid + 1, hi), (lo, mid - 1)] →
          Keeps lo mid hi sf kept := by
        rintro kept (rfl | rfl)
        · constructor <;> simp [qsortTresh] <;> omega
        · constructor <;> simp [qsortTresh] <;> omega
      by_cases larger : hi - mid < mid - lo
      · have pushed := @Depth.push cnt (lo, hi) stack (mid + 1, hi) (lo, mid - 1) depth (by dsimp only; omega)
          (by dsimp only; omega)
        have room := pushed.room fits
        rw [List.length_cons] at room
        rw [if_neg (Nat.not_le.mpr room), if_pos larger]
        refine ⟨_, rfl, step _ (both _ (.inr rfl)) pushed, ?_⟩
        simp only [rangesOf, mass, List.map_cons, List.sum_cons]
        omega
      · have pushed := @Depth.push cnt (lo, hi) stack (lo, mid - 1) (mid + 1, hi) depth (by dsimp only; omega)
          (by dsimp only; omega)
        have room := pushed.room fits
        rw [List.length_cons] at room
        rw [if_neg (Nat.not_le.mpr room), if_neg larger]
        refine ⟨_, rfl, step _ (both _ (.inl rfl)) pushed, ?_⟩
        simp only [rangesOf, mass, List.map_cons, List.sum_cons]
        omega

/-- The quicksort comes to an end within as many rounds as there are elements. -/
theorem rounds_work (comparator : Comparator compar) (fits : cnt < 2 ^ stackSize)
    (work : Work compar cnt sf items pending.items (rangesOf pending)) :
    ∃ out last, (∀ fuel ≥ mass (rangesOf pending), pqsortRounds compar cnt sf fuel pending = some (out, last)) ∧
      Work compar cnt sf items out [] := by
  induction size : mass (rangesOf pending) using Nat.strong_induction_on generalizing pending with
  | _ size ih =>
    have some_left : 0 < mass (rangesOf pending) := by
      simp only [rangesOf, mass, List.map_cons, List.sum_cons]
      omega
    obtain ⟨round, done, progress⟩ := round_works comparator fits work
    cases round with
    | finished out last =>
      refine ⟨out, last, ?_, progress⟩
      intro fuel enough
      obtain ⟨turns, rfl⟩ := Nat.exists_eq_succ_of_ne_zero (show fuel ≠ 0 by omega)
      rw [pqsortRounds, done]
    | again next =>
      obtain ⟨out, last, rest, finished⟩ := ih _ (size ▸ progress.2) progress.1 rfl
      refine ⟨out, last, ?_, finished⟩
      intro fuel enough
      obtain ⟨turns, rfl⟩ := Nat.exists_eq_succ_of_ne_zero (show fuel ≠ 0 by omega)
      rw [pqsortRounds, done]
      have less := progress.2
      exact rest turns (by omega)

end Rounds

section Insertion
variable (comparator : Comparator compar) {l last : ℕ}

include comparator in
theorem smallest_least (last : ℕ) :
    smallest compar items last ≤ last ∧ ∀ place ≤ last, compar (items (smallest compar items last)) (items place) ≤ 0 := by
  induction last with
  | zero =>
    refine ⟨le_rfl, fun place bound => ?_⟩
    obtain rfl : place = 0 := by omega
    exact (comparator.self _).le
  | succ last ih =>
    rw [smallest]
    by_cases less : compar (items (last + 1)) (items (smallest compar items last)) < 0
    · simp only [less, if_true]
      refine ⟨le_rfl, fun place bound => ?_⟩
      rcases Nat.eq_or_lt_of_le bound with rfl | earlier
      · exact (comparator.self _).le
      · exact comparator.trans _ _ _ less.le (ih.2 place (by omega))
    · simp only [less, if_false]
      refine ⟨ih.1.trans (Nat.le_succ last), fun place bound => ?_⟩
      rcases Nat.eq_or_lt_of_le bound with rfl | earlier
      · exact comparator.of_not less
      · exact ih.2 place (by omega)

/-- The smallest element at the base stops the search for a seat. -/
theorem seat_found {moving : ℕ} (least : compar (items 0) (items moving) ≤ 0) (flip : ∀ left right,
    compar left right < 0 ↔ 0 < compar right left) :
    ∃ lo, seat compar items moving l = some lo ∧ 0 < lo ∧ lo ≤ l + 1 ∧
      ¬ compar (items moving) (items (lo - 1)) < 0 ∧
      ∀ place, lo ≤ place → place ≤ l → compar (items moving) (items place) < 0 := by
  induction l with
  | zero =>
    have stop : ¬ compar (items moving) (items 0) < 0 := by
      rw [flip]
      omega
    rw [seat, if_neg stop]
    exact ⟨1, rfl, Nat.one_pos, le_rfl, stop, fun place _ _ => by omega⟩
  | succ l ih =>
    rw [seat]
    split
    · rename_i less
      obtain ⟨lo, found, positive, upto, stop, high⟩ := ih
      refine ⟨lo, found, positive, by omega, stop, fun place from_lo bound => ?_⟩
      rcases Nat.eq_or_lt_of_le bound with rfl | earlier
      · exact less
      · exact high place from_lo (by omega)
    · rename_i stop
      exact ⟨l + 2, rfl, Nat.succ_pos _, le_rfl, stop, fun place _ _ => by omega⟩

include comparator in
theorem insertLoop_sorts (turns : ℕ) (sorted : SortedTo compar items l)
    (least : ∀ place ≤ l + turns, compar (items 0) (items place) ≤ 0) :
    ∃ out, insertLoop compar turns l items = some out ∧ Rearranged 0 (l + turns) items out ∧
      SortedTo compar out (l + turns) := by
  induction turns generalizing l items with
  | zero => exact ⟨items, rfl, Rearranged.refl _ _ _, sorted⟩
  | succ turns ih =>
    obtain ⟨lo, found, positive, upto, stop, high⟩ :=
      @seat_found _ compar items l (l + 1) (least (l + 1) (by omega)) comparator.flip
    have low : ∀ place < lo, compar (items place) (items (l + 1)) ≤ 0 := by
      intro place before
      have edge := comparator.of_not stop
      rcases Nat.eq_or_lt_of_le (Nat.le_sub_one_of_lt before) with rfl | earlier
      · exact edge
      · exact comparator.trans _ _ _ (sorted place (lo - 1) earlier (by omega)) edge
    have order := sorted.moveDown positive upto low (fun place from_lo bound => (high place from_lo bound).le)
    have moved : Rearranged 0 (l + 1 + turns) items (moveDown items lo (l + 1)) :=
      Rearranged.movedDown (Nat.zero_le lo) upto (by omega)
    have same : (if lo ≠ l + 1 then moveDown items lo (l + 1) else items) = moveDown items lo (l + 1) := by
      split
      · rfl
      · rename_i equal
        rw [not_not.mp equal]
        funext place
        unfold moveDown
        split
        · rename_i here
          rw [here]
        · rw [if_neg (by omega)]
    have base : moveDown items lo (l + 1) 0 = items 0 := moveDown_before positive
    obtain ⟨out, rest, further, ordered⟩ := @ih (moveDown items lo (l + 1)) (l + 1) order (by
      intro place bound
      rw [base]
      exact moved.all (P := fun item => compar (items 0) item ≤ 0)
        (fun place _ bound => least place (by omega)) place (Nat.zero_le _) bound)
    refine ⟨out, ?_, ?_, ?_⟩
    · simp only [insertLoop, found, bind, Option.bind, same]
      exact rest
    · rw [show l + (turns + 1) = l + 1 + turns by omega]
      exact moved.trans further
    · rw [show l + (turns + 1) = l + 1 + turns by omega]
      exact ordered

end Insertion

/-- What is asked of the result: the first elements are in order and none of
them is greater than any element behind it. -/
structure SortedFirst (compar : α → α → ℤ) (cnt sortFirst : ℕ) (items out : ℕ → α) : Prop where
  perm : (contents cnt out).Perm (contents cnt items)
  outside : ∀ place, cnt ≤ place → out place = items place
  ordered : ∀ first < sortFirst, ∀ second, first < second → second < cnt → compar (out first) (out second) ≤ 0

theorem insertionSort_sorts (comparator : Comparator compar) {size early late : ℕ} (sized : 0 < size) (several : 1 < cnt)
    (moved : Rearranged 0 (cnt - 1) items out)
    (first : 1 ≤ early ∧ early ≤ qsortTresh + 1) (firstCut : Cut compar cnt out early)
    (last : sf ≤ late ∧ late ≤ sf + qsortTresh) (lastCut : Cut compar cnt out late) :
    ∃ result, insertionSort compar out cnt sf size = some result ∧ SortedFirst compar cnt sf items result := by
  simp only [qsortTresh] at first last
  have reach : 8 ≤ (8 * size + 4) / size := by
    rw [Nat.le_div_iff_mul_le sized]
    omega
  generalize top : min (cnt - 1) (sf + 8) = hi
  generalize seen : min ((8 * size + 4) / size) hi = r
  obtain ⟨within, least⟩ := @smallest_least _ compar out comparator r
  generalize place : smallest compar out r = lo at within least
  have all : ∀ position < cnt, compar (out lo) (out position) ≤ 0 := by
    intro position bound
    by_cases near : position ≤ r
    · exact least position near
    · exact comparator.trans _ _ _ (least 0 (Nat.zero_le r)) (firstCut 0 first.1 position (by omega) bound)
  have swapped : Rearranged 0 hi out (exchange out 0 lo) :=
    Rearranged.exchanged ⟨le_rfl, Nat.zero_le hi⟩ ⟨Nat.zero_le lo, by omega⟩
  have base : ∀ position ≤ hi, compar (exchange out 0 lo 0) (exchange out 0 lo position) ≤ 0 := by
    intro position bound
    rw [exchange_first]
    exact swapped.all (P := fun item => compar (out lo) item ≤ 0) (fun position _ bound => all position (by omega))
      position (Nat.zero_le _) bound
  have two : SortedTo compar (exchange out 0 lo) 1 := by
    intro left right order bound
    obtain rfl : left = 0 := by omega
    exact base right (by omega)
  have whole : 1 + (hi - 1) = hi := by omega
  obtain ⟨result, done, further, ordered⟩ := insertLoop_sorts comparator (hi - 1) two (by rwa [whole])
  rw [whole] at further ordered
  have inner := swapped.trans further
  have total := moved.trans (inner.mono le_rfl (show hi ≤ cnt - 1 by omega))
  refine ⟨result, ?_, total.perm (by omega), fun position beyond => total.outside (by omega), ?_⟩
  · simp only [insertionSort, qsortTresh, top, seen, place]
    exact done
  · intro left small right order bound
    by_cases near : right ≤ hi
    · exact ordered left right order near
    · rw [inner.outside (by omega : ¬ (0 ≤ right ∧ right ≤ hi))]
      exact ordered.low comparator inner (show late ≤ hi + 1 by omega)
        (fun position inside => lastCut position inside right (by omega) bound) left (by omega)

/-- With no range left the marks are cuts. -/
theorem marked_done {target : ℕ} (marked : Marked compar cnt out [] target) :
    ∃ cut, target ≤ cut ∧ cut ≤ target + qsortTresh ∧ Cut compar cnt out cut := by
  rcases marked with ⟨cut, lower, upper, parts, _⟩ | ⟨_, member, _⟩
  · exact ⟨cut, lower, upper, parts⟩
  · cases member

/-- The whole array waits for the first round. -/
theorem work_start (several : qsortTresh < cnt) : Work compar cnt sf items items [(0, cnt - 1)] := by
  simp only [qsortTresh] at several
  have whole : Waits compar cnt items (0, cnt - 1) :=
    { long := by simp only [qsortTresh]; omega
      bound := by dsimp only; omega
      below := Cut.zero
      above := Cut.top (by dsimp only; omega) }
  constructor
  · exact Rearranged.refl _ _ _
  · simpa using whole
  · exact List.pairwise_singleton _ _
  · exact .inr ⟨_, List.mem_singleton_self _, Nat.zero_le _, by dsimp only; omega⟩
  · by_cases inside : sf ≤ cnt
    · exact .inr ⟨_, List.mem_singleton_self _, Nat.zero_le _, by dsimp only; omega⟩
    · exact .inl ⟨sf, le_rfl, Nat.le_add_right _ _, Cut.top (by omega), fun range member => by
        rw [List.mem_singleton.mp member]
        exact .inr (by dsimp only; omega)⟩
  · exact ⟨by simp only [List.length_nil, pow_zero]; omega, trivial⟩

theorem pqsort_sorted (comparator : Comparator compar) (items : ℕ → α) (cnt sortFirst size : ℕ) (state : PqState)
    (sized : 0 < size) (fits : cnt < 2 ^ stackSize) :
    ∃ out last, (∀ fuel ≥ cnt, pqsort compar fuel items cnt sortFirst size state = some (out, last)) ∧
      SortedFirst compar cnt sortFirst items out := by
  by_cases long : qsortTresh < cnt
  · have start := @work_start _ compar items cnt sortFirst long
    obtain ⟨between, last, rounds, work⟩ :=
      @rounds_work _ compar items cnt sortFirst ⟨items, 0, cnt - 1, [], state⟩ comparator fits start
    obtain ⟨early, lower, upper, parts⟩ := marked_done work.first
    obtain ⟨late, from_first, near, splits⟩ := marked_done work.last
    obtain ⟨out, done, sorted⟩ := insertionSort_sorts comparator sized (by simp only [qsortTresh] at long; omega)
      work.moved ⟨lower, by omega⟩ parts ⟨from_first, near⟩ splits
    refine ⟨out, last, ?_, sorted⟩
    intro fuel enough
    have turns := rounds fuel (by
      simp only [rangesOf, mass, List.map_cons, List.map_nil, List.sum_cons, List.sum_nil]
      omega)
    simp only [pqsort, if_pos long, turns, bind, Option.bind, done]
  · by_cases short : cnt ≤ 1
    · refine ⟨items, state, ?_, List.Perm.refl _, fun _ _ => rfl, fun first _ second _ _ => by omega⟩
      intro fuel _
      rw [pqsort, if_neg long, if_pos short]
    · simp only [qsortTresh] at long
      obtain ⟨out, done, sorted⟩ := @insertionSort_sorts _ compar items items cnt sortFirst comparator size 9
        (sortFirst + 8) sized (by omega) (Rearranged.refl _ _ _) ⟨by decide, by decide⟩ (Cut.top (by omega))
        ⟨by omega, le_rfl⟩ (Cut.top (by omega))
      refine ⟨out, state, ?_, sorted⟩
      intro fuel _
      simp only [pqsort, qsortTresh, if_neg long, if_neg short, done, bind, Option.bind]

/-- The function returns within as many rounds as there are elements, never
needs more stack than it has, and sorts what it is asked to. -/
theorem pqsort_sorts (comparator : Comparator compar) (items : ℕ → α) (cnt sortFirst size : ℕ) (state : PqState)
    (sized : 0 < size) (fits : cnt < 2 ^ stackSize) :
    ∃ out last, (∀ fuel ≥ cnt, pqsort compar fuel items cnt sortFirst size state = some (out, last)) ∧
      SortedFirst compar cnt sortFirst items out :=
  pqsort_sorted comparator items cnt sortFirst size state sized fits

/-- Twenty numbers in falling order, all of them to be sorted. -/
theorem pqsort_sorts_twenty :
    ∃ out last, (∀ fuel ≥ 20, pqsort difference fuel (fun place => 20 - place) 20 20 4 PqState.start = some (out, last)) ∧
      SortedFirst difference 20 20 (fun place => 20 - place) out :=
  pqsort_sorts difference_comparator (fun place => 20 - place) 20 20 4 PqState.start (by decide) (by decide)

end Pclsync.Proofs.Pqsort
