import Mathlib

/-! Sets of numbers as lists of half-open intervals, in order and with a gap between any
two. Adding an interval joins those that it meets or touches. -/

namespace Pclsync.Library

/-- Intervals from a bound on, none of them empty, with a gap between any two. -/
def Ordered : ℕ → List (ℕ × ℕ) → Prop
  | _, [] => True
  | low, (lo, hi) :: rest => low ≤ lo ∧ lo < hi ∧ Ordered (hi + 1) rest

instance decidableOrdered : (low : ℕ) → (list : List (ℕ × ℕ)) → Decidable (Ordered low list)
  | _, [] => isTrue trivial
  | low, (lo, hi) :: rest =>
    have := decidableOrdered (hi + 1) rest
    inferInstanceAs (Decidable (low ≤ lo ∧ lo < hi ∧ Ordered (hi + 1) rest))

/-- A set of numbers as a list of intervals. -/
structure Intervals where
  list : List (ℕ × ℕ)
  ordered : Ordered 0 list

namespace Intervals

/-- Some interval has the number. -/
def Covers (list : List (ℕ × ℕ)) (x : ℕ) : Prop := ∃ interval ∈ list, interval.1 ≤ x ∧ x < interval.2

instance (list : List (ℕ × ℕ)) (x : ℕ) : Decidable (Covers list x) := List.decidableBEx _ _

variable {list rest : List (ℕ × ℕ)} {low lo hi x : ℕ}

@[simp] theorem not_covers_nil : ¬ Covers [] x := by
  rintro ⟨_, member, _⟩
  cases member

@[simp] theorem covers_cons : Covers ((lo, hi) :: rest) x ↔ (lo ≤ x ∧ x < hi) ∨ Covers rest x := by
  simp [Covers]

theorem nonempty_of_mem {interval : ℕ × ℕ} (ordered : Ordered low list) (member : interval ∈ list) : interval.1 < interval.2 := by
  induction list generalizing low with
  | nil => cases member
  | cons first rest ih =>
    obtain rfl | member := List.mem_cons.mp member
    · exact ordered.2.1
    · exact ih ordered.2.2 member

theorem ordered_mono {less : ℕ} (ordered : Ordered low list) (below : less ≤ low) : Ordered less list := by
  cases list with
  | nil => trivial
  | cons first rest => exact ⟨below.trans ordered.1, ordered.2⟩

theorem le_of_covers (ordered : Ordered low list) (covers : Covers list x) : low ≤ x := by
  induction list generalizing low with
  | nil => exact absurd covers not_covers_nil
  | cons first rest ih =>
    obtain ⟨lo, hi⟩ := first
    obtain ⟨bound, nonempty, later⟩ := ordered
    obtain here | there := covers_cons.mp covers
    · omega
    · have above := ih later there
      omega

/-- There is a gap before each interval. -/
theorem not_covers_before (ordered : Ordered low list) (member : (x + 1, hi) ∈ list) : ¬ Covers list x := by
  induction list generalizing low with
  | nil => cases member
  | cons first rest ih =>
    obtain ⟨firstLo, firstHi⟩ := first
    obtain ⟨_, nonempty, later⟩ := ordered
    intro covers
    obtain same | member := List.mem_cons.mp member
    · obtain ⟨rfl, rfl⟩ := Prod.mk.inj same
      obtain here | there := covers_cons.mp covers
      · omega
      · have beyond := le_of_covers later there
        omega
    · obtain here | there := covers_cons.mp covers
      · have beyond := le_of_covers later ⟨_, member, le_rfl, nonempty_of_mem later member⟩
        simp only at beyond
        omega
      · exact ih later member there

/-- The first interval that has a number or is after it, and those that follow. -/
def firstFrom (point : ℕ) (list : List (ℕ × ℕ)) : List (ℕ × ℕ) := list.dropWhile fun interval => interval.2 ≤ point

theorem firstFrom_ordered {point : ℕ} (ordered : Ordered low list) :
    (∀ interval ∈ firstFrom point list, point < interval.2) ∧ ∃ low, Ordered low (firstFrom point list) := by
  induction list generalizing low with
  | nil => exact ⟨by simp [firstFrom], low, trivial⟩
  | cons first rest ih =>
    obtain ⟨lo, hi⟩ := first
    obtain ⟨above, nonempty, later⟩ := ordered
    rw [firstFrom, List.dropWhile_cons]
    split
    next => exact ih later
    next past =>
      have past : point < hi := by simpa using past
      refine ⟨?_, low, above, nonempty, later⟩
      intro interval member
      obtain rfl | member := List.mem_cons.mp member
      · exact past
      · -- the others start after the first one ends
        have start := le_of_covers later ⟨interval, member, le_rfl, ?_⟩
        · have whole := nonempty_of_mem later member
          omega
        · exact nonempty_of_mem later member

/-- From a number on nothing is left out. -/
theorem covers_firstFrom {point : ℕ} (past : point ≤ x) : Covers (firstFrom point list) x ↔ Covers list x := by
  induction list with
  | nil => rfl
  | cons first rest ih =>
    obtain ⟨lo, hi⟩ := first
    rw [firstFrom, List.dropWhile_cons]
    split
    next before =>
      have before : hi ≤ point := by simpa using before
      rw [← firstFrom, ih, covers_cons]
      constructor
      · exact .inr
      · rintro (inside | there)
        · omega
        · exact there
    next => rfl

/-- Joins an interval with those after it that it meets or touches. -/
def consume (lo : ℕ) : ℕ → List (ℕ × ℕ) → List (ℕ × ℕ)
  | hi, [] => [(lo, hi)]
  | hi, (nextLo, nextHi) :: rest =>
    if hi < nextLo then (lo, hi) :: (nextLo, nextHi) :: rest
    else if hi ≤ nextHi then (lo, nextHi) :: rest
    else consume lo hi rest

theorem consume_ordered (bound : low ≤ lo) (nonempty : lo < hi) (ordered : Ordered lo rest) : Ordered low (consume lo hi rest) := by
  induction rest with
  | nil => exact ⟨bound, nonempty, trivial⟩
  | cons next rest ih =>
    obtain ⟨nextLo, nextHi⟩ := next
    obtain ⟨above, alsoNonempty, later⟩ := ordered
    rw [consume]
    split
    next apart => exact ⟨bound, nonempty, apart, alsoNonempty, later⟩
    next =>
      split
      next => exact ⟨bound, by omega, later⟩
      next => exact ih (ordered_mono later (by omega))

theorem covers_consume (ordered : Ordered lo rest) :
    Covers (consume lo hi rest) x ↔ (lo ≤ x ∧ x < hi) ∨ Covers rest x := by
  induction rest with
  | nil => simp [consume]
  | cons next rest ih =>
    obtain ⟨nextLo, nextHi⟩ := next
    obtain ⟨above, alsoNonempty, later⟩ := ordered
    rw [consume, covers_cons]
    split
    · rw [covers_cons, covers_cons]
    · split
      · rw [covers_cons]
        constructor
        · rintro (inside | there)
          · omega
          · exact .inr (.inr there)
        · rintro (inside | inside | there)
          · exact .inl (by omega)
          · exact .inl (by omega)
          · exact .inr there
      · rw [ih (ordered_mono later (by omega))]
        constructor
        · rintro (inside | there)
          · exact .inl inside
          · exact .inr (.inr there)
        · rintro (inside | inside | there)
          · exact .inl inside
          · exact .inl (by omega)
          · exact .inr there

/-- An interval more. -/
def insert (lo hi : ℕ) : List (ℕ × ℕ) → List (ℕ × ℕ)
  | [] => [(lo, hi)]
  | (firstLo, firstHi) :: rest =>
    if firstLo ≤ lo ∧ lo ≤ firstHi then if hi ≤ firstHi then (firstLo, firstHi) :: rest else consume firstLo hi rest
    else if lo < firstLo then
      if firstLo ≤ hi ∧ hi ≤ firstHi then (lo, firstHi) :: rest else consume lo hi ((firstLo, firstHi) :: rest)
    else (firstLo, firstHi) :: insert lo hi rest

theorem insert_ordered (bound : low ≤ lo) (nonempty : lo < hi) (ordered : Ordered low list) : Ordered low (insert lo hi list) := by
  induction list generalizing low with
  | nil => exact ⟨bound, nonempty, trivial⟩
  | cons first rest ih =>
    obtain ⟨firstLo, firstHi⟩ := first
    obtain ⟨above, alsoNonempty, later⟩ := ordered
    rw [insert]
    split
    next inside =>
      split
      · exact ⟨above, alsoNonempty, later⟩
      · exact consume_ordered above (by omega) (ordered_mono later (by omega))
    next =>
      split
      next =>
        split
        · exact ⟨bound, by omega, later⟩
        · exact consume_ordered bound nonempty ⟨by omega, alsoNonempty, later⟩
      next => exact ⟨above, alsoNonempty, ih (by omega) later⟩

theorem covers_insert (ordered : Ordered low list) :
    Covers (insert lo hi list) x ↔ (lo ≤ x ∧ x < hi) ∨ Covers list x := by
  induction list generalizing low with
  | nil => simp [insert]
  | cons first rest ih =>
    obtain ⟨firstLo, firstHi⟩ := first
    obtain ⟨above, alsoNonempty, later⟩ := ordered
    rw [insert, covers_cons]
    split
    next inside =>
      split
      · rw [covers_cons]
        constructor
        · rintro (here | there)
          · exact .inr (.inl here)
          · exact .inr (.inr there)
        · rintro (here | here | there)
          · exact .inl (by omega)
          · exact .inl here
          · exact .inr there
      · rw [covers_consume (ordered_mono later (by omega))]
        constructor
        · rintro (here | there)
          · omega
          · exact .inr (.inr there)
        · rintro (here | here | there)
          · exact .inl (by omega)
          · exact .inl (by omega)
          · exact .inr there
    next =>
      split
      next =>
        split
        · rw [covers_cons]
          constructor
          · rintro (here | there)
            · omega
            · exact .inr (.inr there)
          · rintro (here | here | there)
            · exact .inl (by omega)
            · exact .inl (by omega)
            · exact .inr there
        · have whole : Ordered lo ((firstLo, firstHi) :: rest) := ⟨by omega, alsoNonempty, later⟩
          rw [covers_consume whole, covers_cons]
      next =>
        rw [covers_cons, ih later]
        constructor
        · rintro (here | here | there)
          · exact .inr (.inl here)
          · exact .inl here
          · exact .inr (.inr there)
        · rintro (here | here | there)
          · exact .inr (.inl here)
          · exact .inl here
          · exact .inr (.inr there)

/-- Intervals in order around one of them. -/
theorem ordered_split {early late : List (ℕ × ℕ)} (ordered : Ordered low (early ++ (lo, hi) :: late)) :
    (∀ interval ∈ early, interval.2 < lo) ∧ low ≤ lo ∧ lo < hi ∧ Ordered (hi + 1) late := by
  induction early generalizing low with
  | nil => exact ⟨fun _ member => absurd member List.not_mem_nil, ordered⟩
  | cons first rest ih =>
    obtain ⟨firstLo, firstHi⟩ := first
    obtain ⟨above, nonempty, later⟩ := ordered
    obtain ⟨before, bound, more⟩ := ih later
    refine ⟨?_, by omega, more⟩
    intro interval member
    obtain rfl | member := List.mem_cons.mp member
    · exact bound
    · exact before interval member

theorem ordered_left {early : List (ℕ × ℕ)} (ordered : Ordered low (early ++ rest)) : Ordered low early := by
  induction early generalizing low with
  | nil => trivial
  | cons first early ih => exact ⟨ordered.1, ordered.2.1, ih ordered.2.2⟩

theorem ordered_right {early : List (ℕ × ℕ)} (ordered : Ordered low (early ++ rest)) : ∃ bound, Ordered bound rest := by
  induction early generalizing low with
  | nil => exact ⟨low, ordered⟩
  | cons first early ih => exact ih ordered.2.2

theorem le_of_mem (ordered : Ordered low list) {interval : ℕ × ℕ} (member : interval ∈ list) : low ≤ interval.1 :=
  le_of_covers ordered ⟨interval, member, le_rfl, nonempty_of_mem ordered member⟩

theorem insert_append {early : List (ℕ × ℕ)} (ordered : Ordered low early) (before : ∀ interval ∈ early, interval.2 < lo) :
    insert lo hi (early ++ rest) = early ++ insert lo hi rest := by
  induction early generalizing low with
  | nil => rfl
  | cons first early ih =>
    obtain ⟨firstLo, firstHi⟩ := first
    have past : firstHi < lo := before _ List.mem_cons_self
    have nonempty : firstLo < firstHi := ordered.2.1
    rw [List.cons_append, insert, if_neg (by omega), if_neg (by omega),
      ih ordered.2.2 fun interval member => before interval (List.mem_cons_of_mem _ member), List.cons_append]

theorem insert_consume (after : ∀ interval ∈ list, lo < interval.1) : insert lo hi list = consume lo hi list := by
  cases list with
  | nil => rfl
  | cons first rest =>
    obtain ⟨firstLo, firstHi⟩ := first
    have above : lo < firstLo := after _ List.mem_cons_self
    rw [insert, if_neg (by omega), if_pos above]
    split
    next inside => rw [consume, if_neg (by omega), if_pos inside.2]
    next => rfl

/-- What is left of an interval before a number. -/
def cut (point : ℕ) (interval : ℕ × ℕ) : List (ℕ × ℕ) := if interval.1 < point then [(interval.1, min interval.2 point)] else []

/-- What is left of an interval from a number on. -/
def rise (point : ℕ) (interval : ℕ × ℕ) : List (ℕ × ℕ) := if point < interval.2 then [(max interval.1 point, interval.2)] else []

theorem cut_mk {point : ℕ} : cut point (lo, hi) = if lo < point then [(lo, min hi point)] else [] := rfl

theorem rise_mk {point : ℕ} : rise point (lo, hi) = if point < hi then [(max lo point, hi)] else [] := rfl

/-- Without the numbers from one on. -/
def cutEnd (point : ℕ) (list : List (ℕ × ℕ)) : List (ℕ × ℕ) := list.flatMap (cut point)

/-- Without the numbers of an interval. -/
def remove (lo hi : ℕ) (list : List (ℕ × ℕ)) : List (ℕ × ℕ) := list.flatMap fun interval => cut lo interval ++ rise hi interval

theorem covers_cut {point : ℕ} {interval : ℕ × ℕ} : Covers (cut point interval) x ↔ (interval.1 ≤ x ∧ x < interval.2) ∧ x < point := by
  rw [cut]
  split
  · rw [covers_cons, lt_min_iff, and_assoc]
    simp
  · simp only [not_covers_nil, false_iff]
    omega

theorem covers_rise {point : ℕ} {interval : ℕ × ℕ} : Covers (rise point interval) x ↔ (interval.1 ≤ x ∧ x < interval.2) ∧ point ≤ x := by
  rw [rise]
  split
  · rw [covers_cons, max_le_iff]
    simp only [not_covers_nil, or_false]
    tauto
  · simp only [not_covers_nil, false_iff]
    omega

theorem covers_flatMap {f : ℕ × ℕ → List (ℕ × ℕ)} : Covers (list.flatMap f) x ↔ ∃ interval ∈ list, Covers (f interval) x := by
  simp only [Covers, List.mem_flatMap]
  constructor
  · rintro ⟨piece, ⟨interval, member, isPiece⟩, inside⟩
    exact ⟨interval, member, piece, isPiece, inside⟩
  · rintro ⟨interval, member, piece, isPiece, inside⟩
    exact ⟨piece, ⟨interval, member, isPiece⟩, inside⟩

theorem covers_append {xs ys : List (ℕ × ℕ)} : Covers (xs ++ ys) x ↔ Covers xs x ∨ Covers ys x := by
  simp only [Covers, List.mem_append, or_and_right, exists_or]

theorem covers_cutEnd {point : ℕ} : Covers (cutEnd point list) x ↔ Covers list x ∧ x < point := by
  rw [cutEnd, covers_flatMap]
  simp only [covers_cut]
  simp only [Covers, ← and_assoc, exists_and_right]

theorem covers_remove : Covers (remove lo hi list) x ↔ Covers list x ∧ ¬ (lo ≤ x ∧ x < hi) := by
  rw [remove, covers_flatMap]
  simp only [covers_append, covers_cut, covers_rise, ← and_or_left]
  simp only [Covers, ← and_assoc, exists_and_right]
  rw [not_and_or, not_le, not_lt]

/-- Pieces of each interval, in order inside it, are in order. -/
theorem ordered_flatMap {f : ℕ × ℕ → List (ℕ × ℕ)} (ordered : Ordered low list)
    (pieces : ∀ interval rest, interval.1 < interval.2 → Ordered (interval.2 + 1) rest → Ordered interval.1 (f interval ++ rest)) :
    Ordered low (list.flatMap f) := by
  induction list generalizing low with
  | nil => trivial
  | cons first rest ih =>
    obtain ⟨above, nonempty, later⟩ := ordered
    exact ordered_mono (pieces first _ nonempty (ih later)) above

theorem cutEnd_ordered {point : ℕ} (ordered : Ordered low list) : Ordered low (cutEnd point list) := by
  refine ordered_flatMap ordered fun interval rest nonempty later => ?_
  rw [cut]
  split
  next before => exact ⟨le_rfl, lt_min nonempty before, ordered_mono later (by omega)⟩
  next => exact ordered_mono later (by omega)

theorem remove_ordered (ordered : Ordered low list) (nonempty : lo < hi) : Ordered low (remove lo hi list) := by
  refine ordered_flatMap ordered fun interval rest whole later => ?_
  have upper : Ordered interval.1 (rise hi interval ++ rest) := by
    rw [rise]
    split
    next past => exact ⟨le_max_left _ _, max_lt whole past, later⟩
    next => exact ordered_mono later (by omega)
  rw [cut]
  split
  next before =>
    refine ⟨le_rfl, lt_min whole before, ?_⟩
    rw [rise]
    split
    next => exact ⟨by omega, by omega, later⟩
    next => exact ordered_mono later (by omega)
  next => exact upper

theorem cutEnd_before {point : ℕ} (ordered : Ordered low list) (before : ∀ interval ∈ list, interval.2 ≤ point) : cutEnd point list = list := by
  refine (List.flatMap_congr fun interval member => ?_).trans (List.flatMap_singleton' list)
  have nonempty := nonempty_of_mem ordered member
  have bound := before interval member
  rw [cut, if_pos (by omega), min_eq_left bound]

theorem remove_apart (ordered : Ordered low list) (nonempty : lo < hi)
    (apart : ∀ interval ∈ list, interval.2 ≤ lo ∨ hi ≤ interval.1) : remove lo hi list = list := by
  refine (List.flatMap_congr fun interval member => ?_).trans (List.flatMap_singleton' list)
  have whole := nonempty_of_mem ordered member
  obtain before | after := apart interval member
  · rw [cut, rise, if_pos (by omega), if_neg (by omega), min_eq_left before, List.append_nil]
  · rw [cut, rise, if_neg (by omega), if_pos (by omega), max_eq_left after, List.nil_append]

def empty : Intervals := ⟨[], trivial⟩

def add (set : Intervals) (lo hi : ℕ) (nonempty : lo < hi) : Intervals :=
  ⟨insert lo hi set.list, insert_ordered (Nat.zero_le _) nonempty set.ordered⟩

instance : Membership ℕ Intervals := ⟨fun set x => Covers set.list x⟩

instance (set : Intervals) (x : ℕ) : Decidable (x ∈ set) := inferInstanceAs (Decidable (Covers set.list x))

theorem mem_iff {set : Intervals} : x ∈ set ↔ Covers set.list x := Iff.rfl

@[simp] theorem not_mem_empty : x ∉ empty := not_covers_nil

@[simp] theorem mem_add {set : Intervals} (nonempty : lo < hi) : x ∈ set.add lo hi nonempty ↔ (lo ≤ x ∧ x < hi) ∨ x ∈ set :=
  covers_insert set.ordered

end Intervals
end Pclsync.Library
