import Mathlib

/-! Tables with open addressing: an entry lies at its own slot or behind it, with
no vacant slot on the way. Slots are taken in a circle. -/

namespace Pclsync.Library.Probing

variable {ε : Type*} {size fuel : ℕ} {home : ε → ℕ} {slots : ℕ → Option ε} {test : ε → Bool}
variable {first last slot hole vacant place : ℕ} {entry : ε}

/-- The slot behind a slot. -/
def after (size slot : ℕ) : ℕ := if size ≤ slot + 1 then 0 else slot + 1

/-- The number of steps from one slot to another. -/
def gap (size first last : ℕ) : ℕ := if first ≤ last then last - first else last + size - first

/-- No entry has a vacant slot on its way, unless it is one of the given kind. -/
def ReachedBut (size : ℕ) (home : ε → ℕ) (slots : ℕ → Option ε) (except : ℕ → Prop) : Prop :=
  ∀ slot < size, ∀ entry, slots slot = some entry → ∀ place < size, gap size (home entry) place < gap size (home entry) slot →
    slots place ≠ none ∨ except place

/-- Every entry is reached from its own slot. -/
def Reached (size : ℕ) (home : ε → ℕ) (slots : ℕ → Option ε) : Prop := ReachedBut size home slots fun _ => False

/-- The table has the entry. -/
def Has (size : ℕ) (slots : ℕ → Option ε) (entry : ε) : Prop := ∃ slot < size, slots slot = some entry

/-- The table has no entry twice. -/
def Once (size : ℕ) (slots : ℕ → Option ε) : Prop :=
  ∀ first < size, ∀ last < size, ∀ entry, slots first = some entry → slots last = some entry → first = last

section Circle

theorem gap_lt (first_lt : first < size) (last_lt : last < size) : gap size first last < size := by
  unfold gap
  split <;> omega

@[simp] theorem gap_self : gap size slot slot = 0 := by
  unfold gap
  split <;> omega

theorem gap_eq_zero (first_lt : first < size) : gap size first last = 0 ↔ first = last := by
  unfold gap
  split <;> omega

theorem gap_right (first_lt : first < size) (last_lt : last < size) (slot_lt : slot < size) (same : gap size first last = gap size first slot) :
    last = slot := by
  unfold gap at same
  split_ifs at same <;> omega

theorem after_lt (slot_lt : slot < size) : after size slot < size := by
  unfold after
  split <;> omega

/-- A step away from where one began. -/
theorem gap_after (first_lt : first < size) (slot_lt : slot < size) (inside : gap size first slot + 1 < size) :
    gap size first (after size slot) = gap size first slot + 1 := by
  unfold gap after at *
  split at inside <;> split <;> split <;> omega

/-- A step nearer to where one goes. -/
theorem gap_step (slot_lt : slot < size) (last_lt : last < size) (apart : slot ≠ last) :
    gap size slot last = gap size (after size slot) last + 1 := by
  unfold gap after
  split <;> split <;> split <;> omega

/-- The way over a slot in between. -/
theorem gap_trans (first_lt : first < size) (last_lt : last < size) (place_lt : place < size)
    (between : gap size first place ≤ gap size first last) :
    gap size first last = gap size first place + gap size place last := by
  unfold gap at *
  split_ifs at * <;> omega

end Circle

section Fill
variable {old : ε}

theorem Reached.fill (reached : Reached size home slots)
    (way : ∀ place < size, gap size (home entry) place < gap size (home entry) slot → slots place ≠ none) :
    Reached size home (Function.update slots slot (some entry)) := by
  intro other other_lt content same place place_lt near
  left
  by_cases here : place = slot
  · rw [here, Function.update_self]
    exact Option.some_ne_none entry
  · rw [Function.update_of_ne here]
    by_cases new : other = slot
    · rw [new, Function.update_self] at same
      cases same
      rw [new] at near
      exact way place place_lt near
    · rw [Function.update_of_ne new] at same
      exact (reached other other_lt content same place place_lt near).resolve_right id

/-- An entry gives way to another one with the same slot of its own. -/
theorem Reached.replace (reached : Reached size home slots) (slot_lt : slot < size) (filled : slots slot = some old)
    (same_home : home entry = home old) : Reached size home (Function.update slots slot (some entry)) := by
  apply reached.fill
  intro place place_lt near
  rw [same_home] at near
  exact (reached slot slot_lt old filled place place_lt near).resolve_right id

theorem has_fill (slot_lt : slot < size) (is_vacant : slots slot = none) (content : ε) :
    Has size (Function.update slots slot (some entry)) content ↔ Has size slots content ∨ content = entry := by
  constructor
  · rintro ⟨other, other_lt, same⟩
    by_cases new : other = slot
    · rw [new, Function.update_self] at same
      exact .inr (Option.some.inj same).symm
    · rw [Function.update_of_ne new] at same
      exact .inl ⟨other, other_lt, same⟩
  · rintro (⟨other, other_lt, same⟩ | rfl)
    · have apart : other ≠ slot := by
        rintro rfl
        rw [is_vacant] at same
        cases same
      exact ⟨other, other_lt, by rw [Function.update_of_ne apart, same]⟩
    · exact ⟨slot, slot_lt, Function.update_self ..⟩

theorem has_replace (once : Once size slots) (slot_lt : slot < size) (filled : slots slot = some old) (content : ε) :
    Has size (Function.update slots slot (some entry)) content ↔ Has size slots content ∧ content ≠ old ∨ content = entry := by
  constructor
  · rintro ⟨other, other_lt, same⟩
    by_cases new : other = slot
    · rw [new, Function.update_self] at same
      exact .inr (Option.some.inj same).symm
    · rw [Function.update_of_ne new] at same
      refine .inl ⟨⟨other, other_lt, same⟩, ?_⟩
      rintro rfl
      exact new (once other other_lt slot slot_lt content same filled)
  · rintro (⟨⟨other, other_lt, same⟩, different⟩ | rfl)
    · have apart : other ≠ slot := by
        rintro rfl
        rw [filled] at same
        exact different (Option.some.inj same).symm
      exact ⟨other, other_lt, by rw [Function.update_of_ne apart, same]⟩
    · exact ⟨slot, slot_lt, Function.update_self ..⟩

theorem once_fill (once : Once size slots) (new : ¬ Has size slots entry) :
    Once size (Function.update slots slot (some entry)) := by
  intro one one_lt two two_lt content first second
  by_cases one_slot : one = slot
  · by_cases two_slot : two = slot
    · rw [one_slot, two_slot]
    · rw [one_slot, Function.update_self] at first
      rw [Function.update_of_ne two_slot] at second
      cases first
      exact absurd ⟨two, two_lt, second⟩ new
  · rw [Function.update_of_ne one_slot] at first
    by_cases two_slot : two = slot
    · rw [two_slot, Function.update_self] at second
      cases second
      exact absurd ⟨one, one_lt, first⟩ new
    · rw [Function.update_of_ne two_slot] at second
      exact once one one_lt two two_lt content first second

/-- An entry on whose way a slot is vacant lies before that slot. -/
theorem Reached.before (reached : Reached size home slots) (home_lt : home entry < size) (slot_lt : slot < size)
    (is_vacant : slots slot = none) (place_lt : place < size) (filled : slots place = some entry) :
    gap size (home entry) place < gap size (home entry) slot := by
  rcases Nat.lt_trichotomy (gap size (home entry) place) (gap size (home entry) slot) with before | same | behind
  · exact before
  · rw [gap_right home_lt place_lt slot_lt same, is_vacant] at filled
    cases filled
  · rcases reached place place_lt entry filled slot slot_lt behind with full | impossible
    · exact absurd is_vacant full
    · exact impossible.elim

/-- The slot a number of steps further on. -/
theorem gap_iterate {start steps : ℕ} (start_lt : start < size) (inside : steps < size) :
    (after size)^[steps] start < size ∧ gap size start ((after size)^[steps] start) = steps := by
  induction steps with
  | zero => exact ⟨start_lt, gap_self⟩
  | succ steps ih =>
    obtain ⟨lt, same⟩ := ih (by omega)
    rw [Function.iterate_succ_apply']
    refine ⟨after_lt lt, ?_⟩
    rw [gap_after start_lt lt (by omega), same]

/-- Fewer entries than slots leave a slot vacant. -/
theorem exists_vacant {slots : ℕ → Option ℕ} {count : ℕ} (once : Once size slots)
    (bounded : ∀ entry, Has size slots entry → entry < count) (few : count < size) : ∃ vacant < size, slots vacant = none := by
  by_contra full
  have filled : ∀ slot < size, ∃ entry, slots slot = some entry := fun slot slot_lt =>
    Option.ne_none_iff_exists'.mp fun is_vacant => full ⟨slot, slot_lt, is_vacant⟩
  choose! entry content using filled
  have maps : ∀ slot ∈ Finset.range size, entry slot ∈ Finset.range count := by
    intro slot member
    have slot_lt := Finset.mem_range.mp member
    exact Finset.mem_range.mpr (bounded _ ⟨slot, slot_lt, content slot slot_lt⟩)
  have fewer : (Finset.range count).card < (Finset.range size).card := by
    rw [Finset.card_range, Finset.card_range]
    exact few
  obtain ⟨one, one_in, two, two_in, apart, same⟩ := Finset.exists_ne_map_eq_of_card_lt_of_maps_to fewer maps
  have one_lt := Finset.mem_range.mp one_in
  have two_lt := Finset.mem_range.mp two_in
  exact apart (once one one_lt two two_lt (entry one) (content one one_lt) (by rw [same]; exact content two two_lt))

end Fill

section Probe

/-- Steps from a slot to the first entry that passes the test, or to a vacant slot. -/
def probe (size : ℕ) (slots : ℕ → Option ε) (test : ε → Bool) : ℕ → ℕ → Option (Option (ℕ × ε))
  | 0, _ => none
  | fuel + 1, slot =>
    match slots slot with
    | none => some none
    | some entry => if test entry then some (some (slot, entry)) else probe size slots test fuel (after size slot)

/-- What a probe finds from a slot on. -/
structure Found (size : ℕ) (home : ε → ℕ) (slots : ℕ → Option ε) (test : ε → Bool) (start : ℕ)
    (result : Option (ℕ × ε)) : Prop where
  here : ∀ slot entry, result = some (slot, entry) → slot < size ∧ slots slot = some entry ∧ test entry = true
  nowhere : result = none → ∀ entry, Has size slots entry → home entry = start → test entry = false

theorem probe_found {start : ℕ} (start_lt : start < size) (reached : Reached size home slots)
    (vacant_lt : vacant < size) (is_vacant : slots vacant = none) (slot_lt : slot < size)
    (steps : fuel + gap size start slot = size)
    (failed : ∀ place < size, gap size start place < gap size start slot →
      ∃ entry, slots place = some entry ∧ test entry = false) :
    ∃ result, probe size slots test fuel slot = some result ∧ Found size home slots test start result := by
  induction fuel generalizing slot with
  | zero =>
    have inside := gap_lt start_lt slot_lt
    omega
  | succ fuel ih =>
    rw [probe]
    cases content : slots slot with
    | none =>
      refine ⟨none, rfl, ⟨(fun slot entry missing => by cases missing), ?_⟩⟩
      rintro _ entry ⟨other, other_lt, has⟩ begins
      subst begins
      obtain ⟨seen, same, wrong⟩ := failed other other_lt (reached.before start_lt slot_lt content other_lt has)
      rw [has] at same
      cases same
      exact wrong
    | some entry =>
      dsimp only
      by_cases right : test entry = true
      · rw [if_pos right]
        refine ⟨some (slot, entry), rfl, ⟨?_, fun missing => by cases missing⟩⟩
        rintro _ _ ⟨⟩
        exact ⟨slot_lt, content, right⟩
      · rw [if_neg right]
        have seen : ∀ place < size, gap size start place < gap size start slot + 1 →
            ∃ entry, slots place = some entry ∧ test entry = false := by
          intro place place_lt near
          rcases Nat.lt_or_eq_of_le (Nat.le_of_lt_succ near) with before | same
          · exact failed place place_lt before
          · rw [gap_right start_lt place_lt slot_lt same]
            exact ⟨entry, content, Bool.eq_false_iff.mpr right⟩
        -- The vacant slot has not been passed, so the circle is not closed yet.
        have open_still : gap size start slot + 1 < size := by
          by_contra closed
          have near := gap_lt start_lt vacant_lt
          obtain ⟨entry, full, _⟩ := seen vacant vacant_lt (by omega)
          rw [is_vacant] at full
          cases full
        have next := gap_after start_lt slot_lt open_still
        apply ih (after_lt slot_lt) (by omega)
        rw [next]
        exact seen

/-- From its own slot a probe ends, and misses no entry that passes. -/
theorem probe_spec {start : ℕ} (start_lt : start < size) (reached : Reached size home slots)
    (vacant_lt : vacant < size) (is_vacant : slots vacant = none) (test : ε → Bool) :
    ∃ result, probe size slots test size start = some result ∧ Found size home slots test start result := by
  apply probe_found start_lt reached vacant_lt is_vacant start_lt
  · rw [gap_self, Nat.add_zero]
  · intro place place_lt near
    rw [gap_self] at near
    exact absurd near (Nat.not_lt_zero _)

end Probe

section Close

/-- Steps from a slot on: whether the hole comes before the other slot. -/
def passes (size hole stop : ℕ) : ℕ → ℕ → Option Bool
  | 0, _ => none
  | fuel + 1, slot =>
    if slot = hole then some true else if slot = stop then some false else passes size hole stop fuel (after size slot)

theorem passes_eq {stop : ℕ} (hole_lt : hole < size) (stop_lt : stop < size) (slot_lt : slot < size) (apart : hole ≠ stop)
    (enough : gap size slot stop < fuel) :
    passes size hole stop fuel slot = some (decide (gap size slot hole < gap size slot stop)) := by
  induction fuel generalizing slot with
  | zero => exact absurd enough (Nat.not_lt_zero _)
  | succ fuel ih =>
    rw [passes]
    by_cases at_hole : slot = hole
    · rw [if_pos at_hole, at_hole, gap_self]
      have positive : 0 < gap size hole stop := Nat.pos_of_ne_zero fun zero => apart ((gap_eq_zero hole_lt).mp zero)
      rw [decide_eq_true positive]
    · rw [if_neg at_hole]
      by_cases at_stop : slot = stop
      · rw [if_pos at_stop, at_stop, gap_self, decide_eq_false (Nat.not_lt_zero _)]
      · have nearer := gap_step slot_lt stop_lt at_stop
        have closer := gap_step slot_lt hole_lt at_hole
        rw [if_neg at_stop, ih (after_lt slot_lt) (by omega), nearer, closer]
        simp only [Nat.add_lt_add_iff_right]

/-- Closes the hole that a removal leaves: each entry further on whose way led over
the hole moves into it and leaves a new one. -/
def close (size : ℕ) (home : ε → ℕ) : ℕ → (ℕ → Option ε) → ℕ → ℕ → Option (ℕ → Option ε)
  | 0, _, _, _ => none
  | fuel + 1, slots, hole, slot =>
    let slot := after size slot
    match slots slot with
    | none => some slots
    | some entry =>
      if home entry ≠ slot then
        match passes size hole slot size (home entry) with
        | none => none
        | some true => close size home fuel (Function.update (Function.update slots hole (some entry)) slot none) slot slot
        | some false => close size home fuel slots hole slot
      else close size home fuel slots hole slot

/-- The table while a hole is closed: only the hole is missing on a way, and not on
the ways of the entries between the hole and the slot reached. -/
structure Closing (size : ℕ) (home : ε → ℕ) (slots : ℕ → Option ε) (hole slot vacant : ℕ) : Prop where
  hole_lt : hole < size
  slot_lt : slot < size
  vacant_lt : vacant < size
  is_hole : slots hole = none
  is_vacant : slots vacant = none
  before : gap size hole slot < gap size hole vacant
  reached : ReachedBut size home slots fun place => place = hole
  closed : ∀ other < size, gap size hole other ≤ gap size hole slot → ∀ entry, slots other = some entry →
    ¬ gap size (home entry) hole < gap size (home entry) other

/-- What closing a hole keeps. -/
structure Closed (size : ℕ) (home : ε → ℕ) (slots : ℕ → Option ε) (vacant : ℕ) (result : ℕ → Option ε) : Prop where
  reached : Reached size home result
  is_vacant : result vacant = none
  has : ∀ entry, Has size result entry ↔ Has size slots entry
  once : Once size slots → Once size result

/-- A step over an entry whose way does not lead over the hole. -/
theorem Closing.skip (closing : Closing size home slots hole slot vacant)
    (filled : slots (after size slot) = some entry)
    (free : ¬ gap size (home entry) hole < gap size (home entry) (after size slot)) :
    Closing size home slots hole (after size slot) vacant := by
  have vacant_near := gap_lt closing.hole_lt closing.vacant_lt
  have before := closing.before
  have step := gap_after closing.hole_lt closing.slot_lt (by omega)
  refine { closing with slot_lt := after_lt closing.slot_lt, before := ?_, closed := ?_ }
  · have apart : gap size hole slot + 1 ≠ gap size hole vacant := by
      intro same
      rw [← step] at same
      rw [gap_right closing.hole_lt (after_lt closing.slot_lt) closing.vacant_lt same, closing.is_vacant] at filled
      cases filled
    omega
  · intro other other_lt near content same
    rcases Nat.lt_or_eq_of_le near with earlier | here
    · exact closing.closed other other_lt (by omega) content same
    · have place := gap_right closing.hole_lt other_lt (after_lt closing.slot_lt) here
      subst place
      rw [filled] at same
      cases same
      exact free

/-- A step that moves an entry into the hole. -/
theorem Closing.move (closing : Closing size home slots hole slot vacant)
    (filled : slots (after size slot) = some entry)
    (crosses : gap size (home entry) hole < gap size (home entry) (after size slot)) :
    Closing size home (Function.update (Function.update slots hole (some entry)) (after size slot) none)
      (after size slot) (after size slot) vacant := by
  have next_lt := after_lt closing.slot_lt
  have hole_apart : hole ≠ after size slot := by
    intro same
    rw [← same, closing.is_hole] at filled
    cases filled
  have vacant_apart : vacant ≠ after size slot := by
    intro same
    rw [← same, closing.is_vacant] at filled
    cases filled
  have vacant_hole : vacant ≠ hole := by
    intro same
    have before := closing.before
    rw [same, gap_self] at before
    exact absurd before (Nat.not_lt_zero _)
  constructor
  · exact next_lt
  · exact next_lt
  · exact closing.vacant_lt
  · rw [Function.update_self]
  · rw [Function.update_of_ne vacant_apart, Function.update_of_ne vacant_hole]
    exact closing.is_vacant
  · rw [gap_self]
    exact Nat.pos_of_ne_zero fun zero => vacant_apart ((gap_eq_zero next_lt).mp zero).symm
  · intro other other_lt content same place place_lt near
    by_cases new_hole : place = after size slot
    · exact .inr new_hole
    · left
      rw [Function.update_of_ne new_hole]
      by_cases old_hole : place = hole
      · rw [old_hole, Function.update_self]
        exact Option.some_ne_none entry
      · rw [Function.update_of_ne old_hole]
        by_cases emptied : other = after size slot
        · rw [emptied, Function.update_self] at same
          cases same
        · rw [Function.update_of_ne emptied] at same
          by_cases moved : other = hole
          · rw [moved, Function.update_self] at same
            cases same
            rw [moved] at near
            exact (closing.reached _ next_lt entry filled place place_lt (near.trans crosses)).resolve_right old_hole
          · rw [Function.update_of_ne moved] at same
            exact (closing.reached other other_lt content same place place_lt near).resolve_right old_hole
  · intro other other_lt near content same
    rw [gap_self] at near
    have here := (gap_eq_zero next_lt).mp (Nat.le_zero.mp near)
    rw [← here, Function.update_self] at same
    cases same

/-- At a vacant slot no entry further on can miss the hole. -/
theorem Closing.finish (closing : Closing size home slots hole slot vacant) (home_lt : ∀ entry, home entry < size)
    (ends : slots (after size slot) = none) : Reached size home slots := by
  intro other other_lt content same place place_lt near
  rcases closing.reached other other_lt content same place place_lt near with full | here
  · exact .inl full
  · subst here
    have vacant_near := gap_lt closing.hole_lt closing.vacant_lt
    have before := closing.before
    have next_lt := after_lt closing.slot_lt
    have step := gap_after closing.hole_lt closing.slot_lt (by omega)
    rcases Nat.lt_or_ge (gap size place slot) (gap size place other) with further | scanned
    · have apart : gap size place (after size slot) ≠ gap size place other := by
        intro same_gap
        rw [gap_right place_lt next_lt other_lt same_gap, same] at ends
        cases ends
      have way := gap_trans (home_lt content) other_lt place_lt near.le
      have nearer : gap size (home content) (after size slot) < gap size (home content) other := by
        by_contra beyond
        have around := gap_lt (home_lt content) next_lt
        have back := gap_trans (home_lt content) next_lt place_lt (by omega)
        omega
      rcases closing.reached other other_lt content same _ next_lt nearer with full | hole_again
      · exact absurd ends full
      · rw [hole_again, gap_self] at step
        omega
    · exact absurd near (closing.closed other other_lt scanned content same)

theorem has_move (apart : hole ≠ slot) (hole_lt : hole < size) (slot_lt : slot < size) (is_hole : slots hole = none)
    (filled : slots slot = some entry) (content : ε) :
    Has size (Function.update (Function.update slots hole (some entry)) slot none) content ↔ Has size slots content := by
  constructor
  · rintro ⟨other, other_lt, same⟩
    by_cases emptied : other = slot
    · rw [emptied, Function.update_self] at same
      cases same
    · rw [Function.update_of_ne emptied] at same
      by_cases moved : other = hole
      · rw [moved, Function.update_self] at same
        cases same
        exact ⟨slot, slot_lt, filled⟩
      · rw [Function.update_of_ne moved] at same
        exact ⟨other, other_lt, same⟩
  · rintro ⟨other, other_lt, same⟩
    by_cases here : other = slot
    · rw [here, filled] at same
      cases same
      exact ⟨hole, hole_lt, by rw [Function.update_of_ne apart, Function.update_self]⟩
    · have not_hole : other ≠ hole := by
        rintro rfl
        rw [is_hole] at same
        cases same
      exact ⟨other, other_lt, by rw [Function.update_of_ne here, Function.update_of_ne not_hole, same]⟩

theorem once_move (slot_lt : slot < size) (filled : slots slot = some entry)
    (once : Once size slots) : Once size (Function.update (Function.update slots hole (some entry)) slot none) := by
  intro one one_lt two two_lt content first second
  by_cases one_slot : one = slot
  · rw [one_slot, Function.update_self] at first
    cases first
  by_cases two_slot : two = slot
  · rw [two_slot, Function.update_self] at second
    cases second
  rw [Function.update_of_ne one_slot] at first
  rw [Function.update_of_ne two_slot] at second
  by_cases one_hole : one = hole
  · by_cases two_hole : two = hole
    · rw [one_hole, two_hole]
    · rw [one_hole, Function.update_self] at first
      rw [Function.update_of_ne two_hole] at second
      cases first
      exact absurd (once two two_lt slot slot_lt entry second filled) two_slot
  · rw [Function.update_of_ne one_hole] at first
    by_cases two_hole : two = hole
    · rw [two_hole, Function.update_self] at second
      cases second
      exact absurd (once one one_lt slot slot_lt entry first filled) one_slot
    · rw [Function.update_of_ne two_hole] at second
      exact once one one_lt two two_lt content first second

/-- Closing a hole ends and leaves every other entry reached. -/
theorem close_spec (closing : Closing size home slots hole slot vacant) (home_lt : ∀ entry, home entry < size)
    (enough : gap size slot vacant ≤ fuel) :
    ∃ result, close size home fuel slots hole slot = some result ∧ Closed size home slots vacant result := by
  induction fuel generalizing slots hole slot with
  | zero =>
    have here := (gap_eq_zero closing.slot_lt).mp (Nat.le_zero.mp enough)
    have before := closing.before
    rw [here] at before
    exact absurd before (lt_irrefl _)
  | succ fuel ih =>
    have apart : slot ≠ vacant := by
      rintro rfl
      exact absurd closing.before (lt_irrefl _)
    have nearer := gap_step closing.slot_lt closing.vacant_lt apart
    rw [close]
    cases filled : slots (after size slot) with
    | none =>
      exact ⟨slots, rfl, closing.finish home_lt filled, closing.is_vacant, fun _ => Iff.rfl, id⟩
    | some entry =>
      dsimp only
      have hole_apart : hole ≠ after size slot := by
        intro same
        rw [← same, closing.is_hole] at filled
        cases filled
      by_cases own : home entry ≠ after size slot
      · have answer := passes_eq closing.hole_lt (after_lt closing.slot_lt) (home_lt entry) hole_apart
          (gap_lt (home_lt entry) (after_lt closing.slot_lt))
        rw [if_pos own, answer]
        by_cases crosses : gap size (home entry) hole < gap size (home entry) (after size slot)
        · rw [decide_eq_true crosses]
          obtain ⟨result, done, kept⟩ := ih (closing.move filled crosses) (by omega)
          refine ⟨result, done, kept.reached, kept.is_vacant, fun content => (kept.has content).trans ?_, fun once => ?_⟩
          · exact has_move hole_apart closing.hole_lt (after_lt closing.slot_lt) closing.is_hole filled content
          · exact kept.once (once_move (after_lt closing.slot_lt) filled once)
        · rw [decide_eq_false crosses]
          exact ih (closing.skip filled crosses) (by omega)
      · rw [if_neg own]
        have free : ¬ gap size (home entry) hole < gap size (home entry) (after size slot) := by
          rw [not_not.mp own, gap_self]
          exact Nat.not_lt_zero _
        exact ih (closing.skip filled free) (by omega)

/-- Removing an entry and closing the hole. -/
theorem remove_spec (reached : Reached size home slots) (once : Once size slots) (home_lt : ∀ entry, home entry < size)
    (vacant_lt : vacant < size) (is_vacant : slots vacant = none) (slot_lt : slot < size)
    (filled : slots slot = some entry) :
    ∃ result, close size home size (Function.update slots slot none) slot slot = some result ∧
      Reached size home result ∧ result vacant = none ∧ Once size result ∧
      ∀ content, Has size result content ↔ Has size slots content ∧ content ≠ entry := by
  have apart : slot ≠ vacant := by
    rintro rfl
    rw [is_vacant] at filled
    cases filled
  have closing : Closing size home (Function.update slots slot none) slot slot vacant := by
    constructor
    · exact slot_lt
    · exact slot_lt
    · exact vacant_lt
    · rw [Function.update_self]
    · rw [Function.update_of_ne apart.symm]
      exact is_vacant
    · rw [gap_self]
      exact Nat.pos_of_ne_zero fun zero => apart ((gap_eq_zero slot_lt).mp zero)
    · intro other other_lt content same place place_lt near
      by_cases here : place = slot
      · exact .inr here
      · left
        rw [Function.update_of_ne here]
        by_cases emptied : other = slot
        · rw [emptied, Function.update_self] at same
          cases same
        · rw [Function.update_of_ne emptied] at same
          exact (reached other other_lt content same place place_lt near).resolve_right id
    · intro other other_lt near content same
      rw [gap_self] at near
      have here := (gap_eq_zero slot_lt).mp (Nat.le_zero.mp near)
      rw [← here, Function.update_self] at same
      cases same
  have without : Once size (Function.update slots slot none) := by
    intro one one_lt two two_lt content first second
    by_cases one_slot : one = slot
    · rw [one_slot, Function.update_self] at first
      cases first
    by_cases two_slot : two = slot
    · rw [two_slot, Function.update_self] at second
      cases second
    rw [Function.update_of_ne one_slot] at first
    rw [Function.update_of_ne two_slot] at second
    exact once one one_lt two two_lt content first second
  obtain ⟨result, done, kept⟩ := close_spec closing home_lt (gap_lt slot_lt vacant_lt).le
  refine ⟨result, done, kept.reached, kept.is_vacant, kept.once without, fun content => (kept.has content).trans ?_⟩
  constructor
  · rintro ⟨other, other_lt, same⟩
    have other_apart : other ≠ slot := by
      rintro rfl
      rw [Function.update_self] at same
      cases same
    rw [Function.update_of_ne other_apart] at same
    refine ⟨⟨other, other_lt, same⟩, ?_⟩
    rintro rfl
    exact other_apart (once other other_lt slot slot_lt content same filled)
  · rintro ⟨⟨other, other_lt, same⟩, different⟩
    have other_apart : other ≠ slot := by
      rintro rfl
      rw [filled] at same
      exact different (Option.some.inj same).symm
    exact ⟨other, other_lt, by rw [Function.update_of_ne other_apart, same]⟩

end Close
end Pclsync.Library.Probing
