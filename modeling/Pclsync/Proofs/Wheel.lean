import Pclsync.Timers.Wheel

/-! Every timer of the wheel is in the list of its deadline, no more than one turn of
its level away. A second takes out the timers that are due and no others. -/

namespace Pclsync.Proofs.Wheel
open Pclsync.Timers Pclsync.Library.Shelves

/-- The seconds of one list of a level. -/
abbrev width (level : ℕ) : ℕ := 2 ^ (level * arrayShift)

/-- A timer is in the list of its deadline, which comes within one turn after a time. -/
def Placed (now : ℕ) (timer : Timer) (place : ℕ × ℕ) : Prop :=
  timer.numsec = 0 ∨ place = slot place.1 timer.runat ∧ now / width place.1 < timer.runat / width place.1 ∧
    timer.runat / width place.1 ≤ now / width place.1 + arraySize

/-- All timers are where they belong at a time. -/
def Filed (now : ℕ) (wheel : Wheel) : Prop := ∀ place ∈ slots, ∀ timer ∈ wheel place, Placed now timer place

/-- What the wheel holds. -/
abbrev held (wheel : Wheel) : Multiset Timer := items slots wheel

theorem mem_held {wheel : Wheel} {timer : Timer} : timer ∈ held wheel ↔ ∃ place ∈ slots, timer ∈ wheel place := mem_items

theorem mem_slots {level m : ℕ} : (level, m) ∈ slots ↔ level < 3 ∧ m < 64 := by
  simp [slots, levels, arraySize, arrayShift]

theorem slot_mem {level : ℕ} (below : level < 3) (runat : ℕ) : slot level runat ∈ slots :=
  mem_slots.mpr ⟨below, Nat.mod_lt _ (by decide)⟩

section Down
variable {wheel : Wheel} {now tmdiv level sh : ℕ}

theorem moveDown_held (below : level < 2) : held (moveDown tmdiv level sh wheel) = held wheel := by
  have inside : (level + 1, tmdiv % arraySize) ∈ slots := mem_slots.mpr ⟨by omega, Nat.mod_lt _ (by decide)⟩
  have target : ∀ timer ∈ wheel (level + 1, tmdiv % arraySize), (level, timer.runat / 2 ^ sh % arraySize) ∈ slots :=
    fun timer _ => mem_slots.mpr ⟨by omega, Nat.mod_lt _ (by decide)⟩
  have other : ∀ timer : Timer, (level, timer.runat / 2 ^ sh % arraySize) ≠ (level + 1, tmdiv % arraySize) := by
    intro timer same
    have levels := congrArg Prod.fst same
    simp at levels
  have pushed := items_pushAll wheel target
  have cleared := items_clear (pushAll wheel (fun timer => (level, timer.runat / 2 ^ sh % arraySize))
    (wheel (level + 1, tmdiv % arraySize))) inside
  rw [pushAll_other other, pushed] at cleared
  exact add_right_cancel cleared

theorem moveDown_empty : moveDown tmdiv level sh wheel (level + 1, tmdiv % arraySize) = [] := by
  rw [moveDown]
  exact Function.update_self ..

/-- Lists of higher levels stay as they are. -/
theorem moveDown_above {place : ℕ × ℕ} (above : level + 1 < place.1) :
    moveDown tmdiv level sh wheel place = wheel place := by
  have other : place ≠ (level + 1, tmdiv % arraySize) := by
    rintro rfl
    exact absurd above (Nat.lt_irrefl _)
  rw [moveDown, Function.update_of_ne other, pushAll_other]
  rintro timer rfl
  simp at above

/-- A deadline of the list that is emptied belongs to the turn of the level below. -/
theorem moves {runat : ℕ} (below : level < 2) (turn : (now + 1) % width (level + 1) = 0)
    (same : (now + 1) / width (level + 1) % arraySize = runat / width (level + 1) % arraySize)
    (after : now / width (level + 1) < runat / width (level + 1))
    (near : runat / width (level + 1) ≤ now / width (level + 1) + arraySize) :
    now / width level < runat / width level ∧ runat / width level ≤ now / width level + arraySize := by
  have kinds : level = 0 ∨ level = 1 := by omega
  obtain rfl | rfl := kinds
  · simp only [width, arrayShift, arraySize, Nat.reduceAdd, Nat.reduceMul, Nat.reducePow] at *
    omega
  · simp only [width, arrayShift, arraySize, Nat.reduceAdd, Nat.reduceMul, Nat.reducePow] at *
    omega

theorem moveDown_filed (filed : Filed now wheel) (below : level < 2) (turn : (now + 1) % width (level + 1) = 0) :
    Filed now (moveDown ((now + 1) / width (level + 1)) level (level * arrayShift) wheel) := by
  rintro place inside timer member
  by_cases emptied : place = (level + 1, (now + 1) / width (level + 1) % arraySize)
  · rw [emptied, moveDown_empty] at member
    exact absurd member List.not_mem_nil
  rw [moveDown, Function.update_of_ne emptied, mem_pushAll] at member
  obtain kept | ⟨moved, rfl⟩ := member
  · exact filed place inside timer kept
  have source : (level + 1, (now + 1) / width (level + 1) % arraySize) ∈ slots :=
    mem_slots.mpr ⟨by omega, Nat.mod_lt _ (by decide)⟩
  obtain wild | ⟨same, after, near⟩ := filed _ source timer moved
  · exact .inl wild
  · exact .inr ⟨rfl, moves below turn (congrArg Prod.snd same) after near⟩

end Down

section Second
variable {wheel : Wheel} {now : ℕ}

/-- The lists of the upper levels whose turn it is are empty. -/
structure Turned (now : ℕ) (wheel : Wheel) : Prop where
  filed : Filed now wheel
  middle : (now + 1) % width 1 = 0 → wheel (slot 1 (now + 1)) = []
  upper : (now + 1) % width 2 = 0 → wheel (slot 2 (now + 1)) = []

theorem check_turned (filed : Filed now wheel) (turn : (now + 1) % arraySize = 0) :
    Turned now (timerCheckUpperLevels (levels - 2) ((now + 1) / arraySize) 0 0 wheel) ∧
    held (timerCheckUpperLevels (levels - 2) ((now + 1) / arraySize) 0 0 wheel) = held wheel := by
  have one : levels - 2 = 1 := rfl
  rw [one, timerCheckUpperLevels]
  split
  · next first =>
    rw [timerCheckUpperLevels]
    have whole : (now + 1) % width 2 = 0 := by
      simp only [width, arrayShift, arraySize, Nat.reduceMul, Nat.reducePow] at *
      omega
    have parts : (now + 1) / arraySize / arraySize = (now + 1) / width 2 := by
      rw [Nat.div_div_eq_div_mul]
      rfl
    rw [parts]
    have upper := moveDown_filed filed (by omega : 1 < 2) whole
    have both := moveDown_filed upper (by omega : 0 < 2) turn
    refine ⟨⟨both, fun _ => moveDown_empty, ?_⟩, ?_⟩
    · intro _
      rw [moveDown_above (by simp [slot])]
      exact moveDown_empty
    · rw [moveDown_held (by omega), moveDown_held (by omega)]
  · next other =>
    have partly : (now + 1) % width 2 ≠ 0 := by
      simp only [width, arrayShift, arraySize, Nat.reduceMul, Nat.reducePow] at *
      omega
    refine ⟨⟨moveDown_filed filed (by omega : 0 < 2) turn, fun _ => moveDown_empty, fun whole => absurd whole partly⟩, ?_⟩
    exact moveDown_held (by omega)

/-- A list that is empty has no timer of its turn. -/
theorem later {level runat : ℕ} (below : level < 3) (after : now / width level < runat / width level)
    (near : runat / width level ≤ now / width level + arraySize)
    (other : (now + 1) % width level = 0 → slot level runat ≠ slot level (now + 1)) :
    (now + 1) / width level < runat / width level ∧ runat / width level ≤ (now + 1) / width level + arraySize := by
  have kinds : level = 0 ∨ level = 1 ∨ level = 2 := by omega
  simp only [slot, ne_eq, Prod.mk.injEq, true_and] at other
  obtain rfl | rfl | rfl := kinds
  all_goals
    simp only [width, arrayShift, arraySize, Nat.reduceMul, Nat.reducePow] at *
    omega

theorem second_filed (turned : Turned now wheel) :
    Filed (now + 1) (Function.update wheel (0, (now + 1) % arraySize) []) := by
  intro place inside timer member
  by_cases own : place = (0, (now + 1) % arraySize)
  · rw [own, Function.update_self] at member
    exact absurd member List.not_mem_nil
  rw [Function.update_of_ne own] at member
  obtain wild | ⟨same, after, near⟩ := turned.filed place inside timer member
  · exact .inl wild
  have below : place.1 < 3 := (mem_slots.mp inside).1
  refine .inr ⟨same, later below after near ?_⟩
  intro turn due
  rw [← same] at due
  have kinds : place.1 = 0 ∨ place.1 = 1 ∨ place.1 = 2 := by omega
  obtain bottom | middle | top := kinds
  · rw [bottom] at due
    apply own
    rw [due]
    simp [slot]
  · rw [middle] at due turn
    rw [due, turned.middle turn] at member
    exact absurd member List.not_mem_nil
  · rw [top] at due turn
    rw [due, turned.upper turn] at member
    exact absurd member List.not_mem_nil

/-- `PTIMER_IS_RUNNING` -/
def mark (timer : Timer) : Timer := { timer with isRunning := true }

/-- One second finds the timers that are due at it. -/
theorem prepareSecond_spec (filed : Filed now wheel) (list : List Timer) :
    Filed (now + 1) (prepareSecond (wheel, list) (now + 1)).1 ∧ ∃ found : List Timer,
      (prepareSecond (wheel, list) (now + 1)).2 = list ++ found.map mark ∧
      held (prepareSecond (wheel, list) (now + 1)).1 + found = held wheel ∧
      ∀ timer ∈ found, timer.numsec = 0 ∨ timer.runat = now + 1 := by
  have checked : ∃ after, Turned now after ∧ held after = held wheel ∧ (prepareSecond (wheel, list) (now + 1)) =
      (Function.update after (0, (now + 1) % arraySize) [], list ++ (after (0, (now + 1) % arraySize)).map mark) := by
    by_cases turn : (now + 1) % arraySize = 0
    · obtain ⟨turned, whole⟩ := check_turned filed turn
      refine ⟨_, turned, whole, ?_⟩
      simp only [prepareSecond, turn, if_true]
      rfl
    · refine ⟨wheel, ⟨filed, fun middle => absurd middle turn, ?_⟩, rfl, ?_⟩
      · intro upper
        simp only [width, arrayShift, arraySize, Nat.reduceMul, Nat.reducePow] at turn upper
        omega
      · simp only [prepareSecond, if_neg turn]
        rfl
  obtain ⟨after, turned, whole, same⟩ := checked
  have inside : (0, (now + 1) % arraySize) ∈ slots := mem_slots.mpr ⟨by omega, Nat.mod_lt _ (by decide)⟩
  rw [same]
  refine ⟨second_filed turned, _, rfl, ?_, ?_⟩
  · rw [← whole]
    exact items_clear after inside
  · intro timer member
    obtain wild | ⟨place, above, near⟩ := turned.filed _ inside timer member
    · exact .inl wild
    · right
      have slots := congrArg Prod.snd place
      simp only [slot, width, arrayShift, arraySize, Nat.reduceMul, Nat.reducePow, Nat.div_one] at slots above near
      omega

/-- A processing run finds the timers whose deadline came since the one before, and
leaves the others where they belong. -/
theorem timerPrepareTimers_spec {start stop : ℕ} (order : start ≤ stop) (filed : Filed start wheel) :
    Filed stop (timerPrepareTimers start stop wheel).1 ∧ ∃ found : List Timer,
      (timerPrepareTimers start stop wheel).2 = found.map mark ∧
      held (timerPrepareTimers start stop wheel).1 + found = held wheel ∧
      ∀ timer ∈ found, timer.numsec = 0 ∨ start < timer.runat ∧ timer.runat ≤ stop := by
  obtain ⟨seconds, rfl⟩ := Nat.exists_eq_add_of_le order
  rw [timerPrepareTimers, Nat.add_sub_cancel_left]
  induction seconds with
  | zero => exact ⟨filed, [], rfl, by simp [held], by simp⟩
  | succ seconds ih =>
    obtain ⟨before, found, same, whole, due⟩ := ih (by omega)
    rw [List.range'_concat, List.foldl_append, List.foldl_cons, List.foldl_nil]
    generalize (List.range' (start + 1) seconds).foldl prepareSecond (wheel, []) = state at before same whole
    obtain ⟨after, list⟩ := state
    have next : start + 1 + 1 * seconds = start + seconds + 1 := by omega
    rw [next]
    obtain ⟨filed, more, longer, rest, now⟩ := prepareSecond_spec before list
    refine ⟨filed, found ++ more, ?_, ?_, ?_⟩
    · rw [longer, List.map_append, ← same]
    · rw [← whole, ← rest, ← Multiset.coe_add]
      abel
    · intro timer member
      cases List.mem_append.mp member with
      | inl old =>
        obtain wild | inside := due timer old
        · exact .inl wild
        · exact .inr ⟨inside.1, by omega⟩
      | inr new =>
        obtain wild | exactly := now timer new
        · exact .inl wild
        · exact .inr ⟨by omega, by omega⟩

/-- What stays in the wheel is due later. -/
theorem Filed.later (filed : Filed now wheel) {timer : Timer} (member : timer ∈ held wheel) :
    timer.numsec = 0 ∨ now < timer.runat := by
  obtain ⟨place, inside, listed⟩ := mem_held.mp member
  obtain wild | ⟨_, after, _⟩ := filed place inside timer listed
  · exact .inl wild
  · exact .inr (Nat.lt_of_div_lt_div after)

end Second

end Pclsync.Proofs.Wheel
