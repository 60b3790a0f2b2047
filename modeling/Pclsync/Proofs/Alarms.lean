import Pclsync.Proofs.Wheel
import Pclsync.Timers.Alarm

/-! The wheel calls every timer as its alarm says, in any order of registrations, stops
and runs in which no timer is registered too far ahead of the last processed second. -/

namespace Pclsync.Proofs.Alarms
open Pclsync.Timers Pclsync.Library.Shelves Pclsync.Proofs.Wheel

/-- The level is the first one whose range has the timeout. -/
def Sane (numsec level : ℕ) : Prop :=
  level < 3 ∧ numsec ≤ arraySize ^ (level + 1) ∧ (level = 0 ∨ arraySize ^ level < numsec)

theorem registered_spec (numsec : ℕ) : Sane (registered numsec).1 (registered numsec).2 ∧
    (numsec ≤ range → (registered numsec).1 = numsec) ∧ ((registered numsec).1 = 0 → numsec = 0) := by
  simp only [Sane, registered, findLevel, levels, arraySize, arrayShift, range, Nat.reducePow, Nat.reduceMul, Nat.reduceAdd]
  split_ifs <;> simp_all

/-- A timeout from now on is within one turn of its level. -/
theorem Sane.near {numsec level : ℕ} (sane : Sane numsec level) (some : numsec ≠ 0) (now : ℕ) :
    now / width level < (now + numsec) / width level ∧
    (now + numsec) / width level ≤ now / width level + arraySize := by
  obtain ⟨below, fits, first⟩ := sane
  have kinds : level = 0 ∨ level = 1 ∨ level = 2 := by omega
  obtain rfl | rfl | rfl := kinds
  all_goals
    simp only [width, arrayShift, arraySize, Nat.reduceMul, Nat.reducePow, Nat.reduceAdd] at *
    omega

/-- Where the timer of an alarm is. -/
def Stands (s : State) (id : ℕ) : Alarm → Prop
  | .unset => s.next ≤ id
  | .set numsec deadline => numsec ≠ 0 ∧ ∃ timer ∈ held s.wheel, timer.id = id ∧ timer.numsec = numsec ∧ timer.runat = deadline
  | .due numsec clock last => numsec ≠ 0 ∧ clock = s.now ∧
    ∃ timer ∈ s.phase.rest, timer.id = id ∧ timer.numsec = numsec ∧ timer.stopAfterRun = last
  | .called numsec clock last => numsec ≠ 0 ∧ clock = s.now ∧
    ∃ timer ∈ s.phase.called, timer.id = id ∧ timer.numsec = numsec ∧ timer.stopAfterRun = last
  | .stopped => id < s.next ∧ ∀ timer, timer ∈ held s.wheel ∨ timer ∈ s.phase.rest ∨ timer ∈ s.phase.called → timer.id ≠ id
  | .other => id < s.next

/-- All timers that there are. -/
def whole (s : State) : Multiset Timer := held s.wheel + s.phase.called + s.phase.rest

/-- The invariant of the timers. -/
structure Inv (s : State) : Prop where
  filed : Filed s.processed s.wheel
  order : s.lt ≤ s.now
  rested : s.phase = .asleep → s.lt = s.now
  distinct : ((whole s).map Timer.id).Nodup
  fresh : ∀ timer ∈ whole s, timer.id < s.next
  sane : ∀ timer ∈ whole s, Sane timer.numsec timer.level
  quiet : ∀ timer ∈ held s.wheel, timer.isRunning = false ∧ timer.stopAfterRun = false
  marked : ∀ timer, timer ∈ s.phase.called ∨ timer ∈ s.phase.rest → timer.isRunning = true
  stands : ∀ id, ∃ state, alarm id s.log = some state ∧ Stands s id state

section Facts
variable {s : State} {timer mate : Timer} {id : ℕ}

theorem mem_whole : timer ∈ whole s ↔ timer ∈ held s.wheel ∨ timer ∈ s.phase.called ∨ timer ∈ s.phase.rest := by
  simp [whole, or_assoc]

/-- Two timers of one name are one. -/
theorem Inv.same (inv : Inv s) (member : timer ∈ whole s) (other : mate ∈ whole s) (name : timer.id = mate.id) : timer = mate :=
  Multiset.inj_on_of_nodup_map inv.distinct timer member mate other name

/-- The wheel, the called timers and the others have no name in common. -/
theorem Inv.apart (inv : Inv s) : (∀ timer ∈ held s.wheel, ∀ mate, mate ∈ s.phase.called ∨ mate ∈ s.phase.rest → timer.id ≠ mate.id) ∧
    ∀ timer ∈ s.phase.called, ∀ mate ∈ s.phase.rest, timer.id ≠ mate.id := by
  have distinct := inv.distinct
  rw [whole, Multiset.map_add, Multiset.map_add] at distinct
  obtain ⟨first, _, rests⟩ := Multiset.nodup_add.mp distinct
  obtain ⟨_, _, calls⟩ := Multiset.nodup_add.mp first
  obtain ⟨heldRest, calledRest⟩ := Multiset.disjoint_add_left.mp rests
  constructor
  · rintro timer inside mate (called | rest) name
    · exact Multiset.disjoint_left.mp calls (Multiset.mem_map_of_mem _ inside)
        (name ▸ Multiset.mem_map_of_mem _ (Multiset.mem_coe.mpr called))
    · exact Multiset.disjoint_left.mp heldRest (Multiset.mem_map_of_mem _ inside)
        (name ▸ Multiset.mem_map_of_mem _ (Multiset.mem_coe.mpr rest))
  · intro timer called mate rest name
    exact Multiset.disjoint_left.mp calledRest (Multiset.mem_map_of_mem _ (Multiset.mem_coe.mpr called))
      (name ▸ Multiset.mem_map_of_mem _ (Multiset.mem_coe.mpr rest))

theorem mem_timers : timer ∈ s.timers ↔ timer ∈ whole s := by
  rw [mem_whole, mem_held]
  simp only [State.timers, List.mem_append, List.mem_flatMap, List.mem_range, slots, Finset.mem_product, Finset.mem_range,
    Prod.exists, levels, arraySize, arrayShift]
  constructor
  · rintro ((called | rest) | ⟨level, below, m, small, member⟩)
    · exact .inr (.inl called)
    · exact .inr (.inr rest)
    · exact .inl ⟨level, m, ⟨below, small⟩, member⟩
  · rintro (⟨level, m, ⟨below, small⟩, member⟩ | called | rest)
    · exact .inr ⟨level, below, m, small, member⟩
    · exact .inl (.inl called)
    · exact .inl (.inr rest)

/-- The alarms follow an event. -/
theorem Inv.alarms {after : State} {event : Event} (inv : Inv s) (log : after.log = event :: s.log)
    (each : ∀ id state, Stands s id state → ∃ new, state.next id event = some new ∧ Stands after id new) :
    ∀ id, ∃ state, alarm id after.log = some state ∧ Stands after id state := by
  intro id
  obtain ⟨state, same, stands⟩ := inv.stands id
  obtain ⟨new, next, kept⟩ := each id state stands
  refine ⟨new, ?_, kept⟩
  rw [log, alarm, same]
  exact next

end Facts

section Steps
variable {s : State}

/-- The timer thread reads the clock. -/
theorem tick_inv (inv : Inv s) (asleep : s.phase = .asleep) (seconds : ℕ) :
    Inv { s with now := s.now + seconds, phase := .woken } := by
  have same := inv.rested asleep
  have everything : whole { s with now := s.now + seconds, phase := .woken } = whole s := by
    simp [whole, asleep, Phase.called, Phase.rest]
  have filed := inv.filed
  simp only [State.processed, asleep] at filed
  refine ⟨?_, Nat.le_add_right_of_le inv.order, ?_, ?_, ?_, ?_, inv.quiet, ?_, ?_⟩
  · simp only [State.processed, same]
    exact filed
  · intro again
    cases again
  · rw [everything]
    exact inv.distinct
  · rw [everything]
    exact inv.fresh
  · rw [everything]
    exact inv.sane
  · rintro timer (called | rest)
    · exact absurd called List.not_mem_nil
    · exact absurd rest List.not_mem_nil
  · intro id
    obtain ⟨state, log, stands⟩ := inv.stands id
    refine ⟨state, log, ?_⟩
    cases state with
    | unset | other | set numsec deadline => exact stands
    | due numsec clock last | called numsec clock last =>
      obtain ⟨_, _, timer, member, _⟩ := stands
      simp [asleep, Phase.rest, Phase.called] at member
    | stopped =>
      refine ⟨stands.1, fun timer member => stands.2 timer ?_⟩
      simpa [asleep, Phase.rest, Phase.called] using member

/-- The timer thread finds the timers that are due. -/
theorem prepare_inv (inv : Inv s) (woken : s.phase = .woken) :
    Inv { s with
      wheel := (timerPrepareTimers s.lt s.now s.wheel).1,
      phase := .runs [] (timerPrepareTimers s.lt s.now s.wheel).2, log := .ran s.now :: s.log } := by
  have filed := inv.filed
  simp only [State.processed, woken] at filed
  obtain ⟨after, found, same, all, due⟩ := timerPrepareTimers_spec inv.order filed
  rw [same]
  generalize (timerPrepareTimers s.lt s.now s.wheel).1 = wheel at after all
  have before : whole s = held wheel + found := by simp [whole, woken, Phase.called, Phase.rest, all]
  have known : ∀ timer ∈ held wheel + (found : Multiset Timer), timer ∈ whole s := by
    rw [before]
    exact fun timer member => member
  have inWheel : ∀ timer ∈ held wheel, timer ∈ held s.wheel := by
    intro timer member
    rw [← all]
    exact Multiset.mem_add.mpr (.inl member)
  have inFound : ∀ timer ∈ found, timer ∈ held s.wheel := by
    intro timer member
    rw [← all]
    exact Multiset.mem_add.mpr (.inr (Multiset.mem_coe.mpr member))
  have origin : ∀ timer ∈ held wheel + ([] : List Timer) + (found.map mark : List Timer),
      ∃ old ∈ whole s, timer.id = old.id ∧ timer.numsec = old.numsec ∧ timer.level = old.level := by
    intro timer member
    simp only [Multiset.mem_add, Multiset.mem_coe, List.not_mem_nil, or_false, List.mem_map] at member
    obtain inside | ⟨old, old_found, rfl⟩ := member
    · exact ⟨timer, known timer (Multiset.mem_add.mpr (.inl inside)), rfl, rfl, rfl⟩
    · exact ⟨old, known old (Multiset.mem_add.mpr (.inr (Multiset.mem_coe.mpr old_found))), rfl, rfl, rfl⟩
  refine ⟨after, inv.order, ?_, ?_, ?_, ?_, ?_, ?_, ?_⟩
  · intro asleep
    cases asleep
  · have names : ((held wheel + ([] : List Timer) + (found.map mark : List Timer)).map Timer.id) = (whole s).map Timer.id := by
      rw [before]
      simp only [Multiset.map_add, Multiset.coe_nil, add_zero, Multiset.map_coe, List.map_map]
      rfl
    simp only [whole, Phase.called, Phase.rest]
    rw [names]
    exact inv.distinct
  · intro timer member
    obtain ⟨old, known, name, _⟩ := origin timer member
    rw [name]
    exact inv.fresh old known
  · intro timer member
    obtain ⟨old, known, _, numsec, level⟩ := origin timer member
    rw [numsec, level]
    exact inv.sane old known
  · exact fun timer member => inv.quiet timer (inWheel timer member)
  · rintro timer (called | rest)
    · exact absurd called List.not_mem_nil
    · obtain ⟨old, _, rfl⟩ := List.mem_map.mp rest
      rfl
  · apply inv.alarms rfl
    intro id state stands
    cases state with
    | unset => exact ⟨_, rfl, stands⟩
    | other => exact ⟨_, rfl, stands⟩
    | set numsec deadline =>
      obtain ⟨some, timer, member, name, timeout, runat⟩ := stands
      refine ⟨_, rfl, ?_⟩
      rw [← all, Multiset.mem_add, Multiset.mem_coe] at member
      cases member with
      | inl kept =>
        have later := (after.later kept).resolve_left (timeout ▸ some)
        rw [if_neg (by omega)]
        exact ⟨some, timer, kept, name, timeout, runat⟩
      | inr taken =>
        have soon := (due timer taken).resolve_left (timeout ▸ some)
        rw [if_pos (by omega)]
        exact ⟨some, rfl, mark timer, List.mem_map_of_mem taken, name, timeout, (inv.quiet timer (inFound timer taken)).2⟩
    | due numsec clock last | called numsec clock last =>
      obtain ⟨_, _, timer, member, _⟩ := stands
      simp [woken, Phase.rest, Phase.called] at member
    | stopped =>
      refine ⟨_, rfl, stands.1, ?_⟩
      rintro timer (kept | rest | called)
      · exact stands.2 timer (.inl (inWheel timer kept))
      · obtain ⟨old, taken, rfl⟩ := List.mem_map.mp rest
        exact stands.2 old (.inl (inFound old taken))
      · exact absurd called List.not_mem_nil

/-- The timer thread calls the next timer that it found. -/
theorem call_inv (inv : Inv s) {called rest : List Timer} {timer : Timer} (runs : s.phase = .runs called (timer :: rest)) :
    Inv { s with phase := .runs (called ++ [timer]) rest, log := .called timer.id :: s.log } := by
  have everything : whole { s with phase := .runs (called ++ [timer]) rest, log := .called timer.id :: s.log } = whole s := by
    simp only [whole, runs, Phase.called, Phase.rest, ← Multiset.coe_add, ← Multiset.cons_coe, ← Multiset.singleton_add,
      Multiset.coe_nil, add_zero]
    abel
  have member : timer ∈ s.phase.rest := by
    rw [runs]
    exact List.mem_cons_self
  have known : timer ∈ whole s := mem_whole.mpr (.inr (.inr member))
  obtain ⟨wheelApart, callApart⟩ := inv.apart
  have filed := inv.filed
  simp only [State.processed, runs] at filed
  refine ⟨filed, inv.order, ?_, ?_, ?_, ?_, inv.quiet, ?_, ?_⟩
  · intro asleep
    cases asleep
  · rw [everything]
    exact inv.distinct
  · rw [everything]
    exact inv.fresh
  · rw [everything]
    exact inv.sane
  · rintro mate (already | later)
    · apply inv.marked mate
      simp only [runs, Phase.called, Phase.rest] at already ⊢
      simp only [List.mem_append, List.mem_singleton] at already
      obtain old | rfl := already
      · exact .inl old
      · exact .inr List.mem_cons_self
    · apply inv.marked mate
      rw [runs]
      exact .inr (List.mem_cons_of_mem timer later)
  · apply inv.alarms rfl
    intro id state stands
    cases state with
    | unset =>
      have below := inv.fresh timer known
      have other : timer.id ≠ id := Nat.ne_of_lt (Nat.lt_of_lt_of_le below stands)
      exact ⟨.unset, if_neg other, stands⟩
    | other => exact ⟨_, rfl, stands⟩
    | set numsec deadline =>
      obtain ⟨some, mate, inside, rfl, same⟩ := stands
      have other := wheelApart mate inside timer (.inr member)
      exact ⟨.set numsec deadline, if_neg other.symm, some, mate, inside, rfl, same⟩
    | due numsec clock last =>
      obtain ⟨some, now, mate, later, rfl, same⟩ := stands
      by_cases own : timer.id = mate.id
      · have one := inv.same known (mem_whole.mpr (.inr (.inr later))) own
        subst one
        exact ⟨.called numsec clock last, by rw [Alarm.next, if_pos rfl], some, now, timer, by simp [Phase.called], rfl, same⟩
      · refine ⟨.due numsec clock last, by rw [Alarm.next, if_neg own], some, now, mate, ?_, rfl, same⟩
        rw [runs] at later
        have other : mate ≠ timer := by
          rintro rfl
          exact own rfl
        exact (List.mem_cons.mp later).resolve_left other
    | called numsec clock last =>
      obtain ⟨some, now, mate, before, rfl, same⟩ := stands
      have other := callApart mate before timer member
      rw [runs] at before
      exact ⟨.called numsec clock last, if_neg other.symm, some, now, mate, List.mem_append_left _ before, rfl, same⟩
    | stopped =>
      have other := stands.2 timer (.inr (.inl member))
      refine ⟨.stopped, if_neg other, stands.1, ?_⟩
      rintro mate (kept | later | already)
      · exact stands.2 mate (.inl kept)
      · apply stands.2 mate
        rw [runs]
        exact .inr (.inl (List.mem_cons_of_mem timer later))
      · simp only [Phase.called, List.mem_append, List.mem_singleton] at already
        obtain before | rfl := already
        · apply stands.2 mate
          rw [runs]
          exact .inr (.inr before)
        · exact other

/-- The timers that go on after a round, with their new deadlines. -/
def again (now : ℕ) (called : List Timer) : List Timer :=
  (called.filter fun timer => !timer.stopAfterRun).map fun timer =>
    { timer with isRunning := false, runat := now + timer.numsec }

theorem mem_again {now : ℕ} {called : List Timer} {timer : Timer} : timer ∈ again now called ↔
    ∃ old ∈ called, old.stopAfterRun = false ∧ timer = { old with isRunning := false, runat := now + old.numsec } := by
  simp only [again, List.mem_map, List.mem_filter, Bool.not_eq_true']
  constructor
  · rintro ⟨old, ⟨member, goes⟩, rfl⟩
    exact ⟨old, member, goes, rfl⟩
  · rintro ⟨old, member, goes, rfl⟩
    exact ⟨old, ⟨member, goes⟩, rfl⟩

/-- A timer with a timeout that starts now belongs in the list of its deadline. -/
theorem placed_slot {timer : Timer} (sane : Sane timer.numsec timer.level) {now : ℕ} (runat : timer.runat = now + timer.numsec) :
    Placed now timer (slot timer.level timer.runat) := by
  by_cases wild : timer.numsec = 0
  · exact .inl wild
  · right
    rw [runat]
    exact ⟨rfl, sane.near wild now⟩

/-- The round ends. -/
theorem finish_inv (inv : Inv s) {called : List Timer} (runs : s.phase = .runs called []) : Inv (s.finish called) := by
  have inside : ∀ timer ∈ called, timer ∈ s.phase.called := by
    rw [runs]
    exact fun timer member => member
  have sane : ∀ timer ∈ called, Sane timer.numsec timer.level :=
    fun timer member => inv.sane timer (mem_whole.mpr (.inr (.inl (inside timer member))))
  obtain ⟨wheelApart, _⟩ := inv.apart
  have old : ∀ timer ∈ again s.now called, ∃ mate ∈ called, mate.stopAfterRun = false ∧ timer.id = mate.id ∧
      timer.numsec = mate.numsec ∧ timer.level = mate.level ∧ timer.runat = s.now + mate.numsec ∧
      timer.isRunning = false ∧ timer.stopAfterRun = false := by
    intro timer member
    obtain ⟨mate, before, goes, rfl⟩ := mem_again.mp member
    exact ⟨mate, before, goes, rfl, rfl, rfl, rfl, rfl, goes⟩
  have target : ∀ timer ∈ again s.now called, slot timer.level timer.runat ∈ slots := by
    intro timer member
    obtain ⟨mate, before, _, _, _, level, _⟩ := old timer member
    rw [level]
    exact slot_mem (sane mate before).1 timer.runat
  have all : held (s.finish called).wheel = held s.wheel + again s.now called := items_pushAll s.wheel target
  have everything : whole (s.finish called) = held s.wheel + again s.now called := by
    rw [← all]
    simp [whole, State.finish, Phase.called, Phase.rest]
  have before : whole s = held s.wheel + called := by simp [whole, runs, Phase.called, Phase.rest]
  have filed := inv.filed
  simp only [State.processed, runs] at filed
  refine ⟨?_, Nat.le_refl _, fun _ => rfl, ?_, ?_, ?_, ?_, ?_, ?_⟩
  · intro place inPlace timer member
    simp only [State.finish, State.processed] at member ⊢
    obtain kept | ⟨new, rfl⟩ := mem_pushAll.mp member
    · exact filed place inPlace timer kept
    · obtain ⟨mate, earlier, _, _, numsec, level, runat, _⟩ := old timer new
      apply placed_slot
      · rw [numsec, level]
        exact sane mate earlier
      · rw [runat, numsec]
  · have fewer : ((again s.now called).map Timer.id).Sublist (called.map Timer.id) := by
      have same : (again s.now called).map Timer.id = (called.filter fun timer => !timer.stopAfterRun).map Timer.id := by
        simp [again]
      rw [same]
      exact List.filter_sublist.map _
    have distinct := inv.distinct
    rw [before, Multiset.map_add, Multiset.map_coe] at distinct
    rw [everything, Multiset.map_add, Multiset.map_coe]
    exact Multiset.nodup_of_le (Multiset.add_le_add_left (Multiset.coe_le.mpr fewer.subperm)) distinct
  · intro timer member
    rw [everything, Multiset.mem_add, Multiset.mem_coe] at member
    cases member with
    | inl kept => exact inv.fresh timer (mem_whole.mpr (.inl kept))
    | inr new =>
      obtain ⟨mate, earlier, _, name, _⟩ := old timer new
      rw [name]
      exact inv.fresh mate (mem_whole.mpr (.inr (.inl (inside mate earlier))))
  · intro timer member
    rw [everything, Multiset.mem_add, Multiset.mem_coe] at member
    cases member with
    | inl kept => exact inv.sane timer (mem_whole.mpr (.inl kept))
    | inr new =>
      obtain ⟨mate, earlier, _, _, numsec, level, _⟩ := old timer new
      rw [numsec, level]
      exact sane mate earlier
  · intro timer member
    rw [all, Multiset.mem_add, Multiset.mem_coe] at member
    cases member with
    | inl kept => exact inv.quiet timer kept
    | inr new =>
      obtain ⟨mate, _, _, _, _, _, _, idle, goes⟩ := old timer new
      exact ⟨idle, goes⟩
  · rintro timer (already | rest)
    · exact absurd already List.not_mem_nil
    · exact absurd rest List.not_mem_nil
  · apply inv.alarms rfl
    intro id state stands
    cases state with
    | unset => exact ⟨_, rfl, stands⟩
    | other => exact ⟨_, rfl, stands⟩
    | set numsec deadline =>
      obtain ⟨some, timer, kept, same⟩ := stands
      refine ⟨_, rfl, some, timer, ?_, same⟩
      rw [all]
      exact Multiset.mem_add.mpr (.inl kept)
    | due numsec clock last =>
      obtain ⟨_, _, timer, member, _⟩ := stands
      simp [runs, Phase.rest] at member
    | called numsec clock last =>
      obtain ⟨some, rfl, timer, member, rfl, rfl, rfl⟩ := stands
      rw [runs] at member
      refine ⟨_, rfl, ?_⟩
      have below := inv.fresh timer (mem_whole.mpr (.inr (.inl (inside timer member))))
      cases goes : timer.stopAfterRun with
      | false =>
        refine ⟨some, { timer with isRunning := false, runat := s.now + timer.numsec }, ?_, rfl, rfl, rfl⟩
        rw [all, Multiset.mem_add, Multiset.mem_coe]
        exact .inr (mem_again.mpr ⟨timer, member, goes, rfl⟩)
      | true =>
        refine ⟨below, ?_⟩
        rintro mate (kept | rest | already)
        · rw [all, Multiset.mem_add, Multiset.mem_coe] at kept
          cases kept with
          | inl kept => exact wheelApart mate kept timer (.inl (inside timer member))
          | inr new =>
            obtain ⟨source, earlier, again, name, _⟩ := old mate new
            intro same
            have one := inv.same (mem_whole.mpr (.inr (.inl (inside source earlier))))
              (mem_whole.mpr (.inr (.inl (inside timer member)))) (name ▸ same)
            rw [one, goes] at again
            cases again
        · exact absurd rest List.not_mem_nil
        · exact absurd already List.not_mem_nil
    | stopped =>
      refine ⟨.stopped, rfl, stands.1, ?_⟩
      rintro mate (kept | rest | already)
      · rw [all, Multiset.mem_add, Multiset.mem_coe] at kept
        cases kept with
        | inl kept => exact stands.2 mate (.inl kept)
        | inr new =>
          obtain ⟨source, earlier, _, name, _⟩ := old mate new
          rw [name]
          exact stands.2 source (.inr (.inr (inside source earlier)))
      · exact absurd rest List.not_mem_nil
      · exact absurd already List.not_mem_nil

/-- A timer is registered for no more than one turn of its level. -/
theorem register_inv (inv : Inv s) {numsec : ℕ} (onTime : OnTime s (.register numsec)) : Inv (s.register numsec) := by
  obtain ⟨sane, exactly, nothing⟩ := registered_spec numsec
  have target : slot (registered numsec).2 (s.now + (registered numsec).1) ∈ slots := slot_mem sane.1 _
  have all : held (s.register numsec).wheel = held s.wheel +
      {⟨s.next, (registered numsec).1, s.now + (registered numsec).1, (registered numsec).2, false, false⟩} :=
    items_push target _
  have everything : whole (s.register numsec) = whole s +
      {⟨s.next, (registered numsec).1, s.now + (registered numsec).1, (registered numsec).2, false, false⟩} := by
    rw [whole, all]
    simp only [State.register, whole]
    abel
  have behind : s.processed ≤ s.now := by
    rw [State.processed]
    split
    · exact inv.order
    · exact Nat.le_refl _
  refine ⟨?_, inv.order, inv.rested, ?_, ?_, ?_, ?_, inv.marked, ?_⟩
  · intro place inPlace timer member
    obtain kept | ⟨rfl, rfl⟩ := mem_push.mp member
    · exact inv.filed place inPlace timer kept
    · by_cases wild : numsec = 0
      · left
        rw [exactly (wild ▸ Nat.zero_le _)]
        exact wild
      · have some : (registered numsec).1 ≠ 0 := fun none => wild (nothing none)
        have after := (sane.near some s.now).1
        exact .inr ⟨rfl, Nat.lt_of_le_of_lt (Nat.div_le_div_right behind) after, onTime wild⟩
  · rw [everything, Multiset.map_add, Multiset.map_singleton, Multiset.nodup_add]
    refine ⟨inv.distinct, Multiset.nodup_singleton _, Multiset.disjoint_singleton.mpr ?_⟩
    intro old
    obtain ⟨timer, member, name⟩ := Multiset.mem_map.mp old
    exact absurd (inv.fresh timer member) (name ▸ Nat.lt_irrefl _)
  · intro timer member
    rw [everything, Multiset.mem_add, Multiset.mem_singleton] at member
    cases member with
    | inl old => exact Nat.lt_succ_of_lt (inv.fresh timer old)
    | inr new =>
      subst new
      exact Nat.lt_succ_self _
  · intro timer member
    rw [everything, Multiset.mem_add, Multiset.mem_singleton] at member
    cases member with
    | inl old => exact inv.sane timer old
    | inr new =>
      subst new
      exact sane
  · intro timer member
    rw [all, Multiset.mem_add, Multiset.mem_singleton] at member
    cases member with
    | inl old => exact inv.quiet timer old
    | inr new =>
      subst new
      exact ⟨rfl, rfl⟩
  · apply inv.alarms rfl
    intro id state stands
    cases state with
    | unset =>
      by_cases own : s.next = id
      · subst own
        refine ⟨_, by rw [Alarm.next, if_pos rfl], ?_⟩
        by_cases inside : 1 ≤ numsec ∧ numsec ≤ range
        · rw [if_pos inside]
          have same := exactly inside.2
          refine ⟨by omega, ⟨s.next, (registered numsec).1, s.now + (registered numsec).1, (registered numsec).2, false, false⟩,
            ?_, rfl, same, ?_⟩
          · rw [all]
            exact Multiset.mem_add.mpr (.inr (Multiset.mem_singleton_self _))
          · simp only [same]
        · rw [if_neg inside]
          exact Nat.lt_succ_self s.next
      · exact ⟨.unset, by rw [Alarm.next, if_neg own], Nat.lt_of_le_of_ne stands own⟩
    | other => exact ⟨_, rfl, Nat.lt_succ_of_lt stands⟩
    | set numsec deadline =>
      obtain ⟨some, timer, kept, same⟩ := stands
      refine ⟨_, rfl, some, timer, ?_, same⟩
      rw [all]
      exact Multiset.mem_add.mpr (.inl kept)
    | due numsec clock last => exact ⟨_, rfl, stands⟩
    | called numsec clock last => exact ⟨_, rfl, stands⟩
    | stopped =>
      refine ⟨.stopped, rfl, Nat.lt_succ_of_lt stands.1, ?_⟩
      rintro timer (kept | member)
      · rw [all, Multiset.mem_add, Multiset.mem_singleton] at kept
        cases kept with
        | inl old => exact stands.2 timer (.inl old)
        | inr new =>
          subst new
          exact Nat.ne_of_gt stands.1
      · exact stands.2 timer (.inr member)

theorem rest_map (phase : Phase) (change : Timer → Timer) : (phase.map change).rest = phase.rest.map change := by
  cases phase <;> rfl

theorem called_map (phase : Phase) (change : Timer → Timer) : (phase.map change).called = phase.called.map change := by
  cases phase <;> rfl

/-- A flag changes nothing else. -/
theorem flag_same (id : ℕ) (timer : Timer) : (State.flag id timer).id = timer.id ∧ (State.flag id timer).numsec = timer.numsec ∧
    (State.flag id timer).level = timer.level ∧ (State.flag id timer).isRunning = timer.isRunning ∧
    (State.flag id timer).stopAfterRun = (timer.stopAfterRun || id = timer.id) := by
  rw [State.flag]
  split
  · next own => simp [own]
  · next other => simp [Ne.symm other]

/-- A timer that runs is told to be the last time. -/
theorem stopping_inv (inv : Inv s) (name : ℕ) :
    Inv { s with phase := s.phase.map (State.flag name), log := .stopping name :: s.log } := by
  have everything : ∀ timer ∈ whole { s with phase := s.phase.map (State.flag name), log := .stopping name :: s.log },
      ∃ old ∈ whole s, timer.id = old.id ∧ timer.numsec = old.numsec ∧ timer.level = old.level := by
    intro timer member
    simp only [mem_whole, rest_map, called_map, List.mem_map] at member
    obtain kept | ⟨old, called, rfl⟩ | ⟨old, rest, rfl⟩ := member
    · exact ⟨timer, mem_whole.mpr (.inl kept), rfl, rfl, rfl⟩
    · obtain ⟨same, numsec, level, _⟩ := flag_same name old
      exact ⟨old, mem_whole.mpr (.inr (.inl called)), same, numsec, level⟩
    · obtain ⟨same, numsec, level, _⟩ := flag_same name old
      exact ⟨old, mem_whole.mpr (.inr (.inr rest)), same, numsec, level⟩
  have names : (whole { s with phase := s.phase.map (State.flag name), log := .stopping name :: s.log }).map Timer.id =
      (whole s).map Timer.id := by
    have alike : Timer.id ∘ State.flag name = Timer.id := funext fun timer => (flag_same name timer).1
    simp only [whole, rest_map, called_map, Multiset.map_add, Multiset.map_coe, List.map_map, alike]
  refine ⟨?_, inv.order, ?_, ?_, ?_, ?_, inv.quiet, ?_, ?_⟩
  · have filed := inv.filed
    cases same : s.phase <;> simp only [State.processed, same, Phase.map] at filed ⊢ <;> exact filed
  · intro asleep
    apply inv.rested
    cases same : s.phase <;> simp [same, Phase.map] at asleep ⊢
  · rw [names]
    exact inv.distinct
  · intro timer member
    obtain ⟨old, known, same, _⟩ := everything timer member
    rw [same]
    exact inv.fresh old known
  · intro timer member
    obtain ⟨old, known, _, numsec, level⟩ := everything timer member
    rw [numsec, level]
    exact inv.sane old known
  · intro timer member
    simp only [rest_map, called_map, List.mem_map] at member
    obtain ⟨old, called, rfl⟩ | ⟨old, rest, rfl⟩ := member
    · rw [(flag_same name old).2.2.2.1]
      exact inv.marked old (.inl called)
    · rw [(flag_same name old).2.2.2.1]
      exact inv.marked old (.inr rest)
  · apply inv.alarms rfl
    intro id state stands
    cases state with
    | unset => exact ⟨_, rfl, stands⟩
    | other => exact ⟨_, rfl, stands⟩
    | set numsec deadline => exact ⟨_, rfl, stands⟩
    | due numsec clock last =>
      obtain ⟨some, now, timer, member, rfl, same, rfl⟩ := stands
      obtain ⟨named, timeout, _, _, flags⟩ := flag_same name timer
      refine ⟨_, rfl, some, now, State.flag name timer, ?_, named, timeout.trans same, flags⟩
      rw [rest_map]
      exact List.mem_map_of_mem member
    | called numsec clock last =>
      obtain ⟨some, now, timer, member, rfl, same, rfl⟩ := stands
      obtain ⟨named, timeout, _, _, flags⟩ := flag_same name timer
      refine ⟨_, rfl, some, now, State.flag name timer, ?_, named, timeout.trans same, flags⟩
      rw [called_map]
      exact List.mem_map_of_mem member
    | stopped =>
      refine ⟨.stopped, rfl, stands.1, ?_⟩
      simp only [rest_map, called_map, List.mem_map]
      rintro timer (kept | ⟨old, rest, rfl⟩ | ⟨old, called, rfl⟩)
      · exact stands.2 timer (.inl kept)
      · rw [(flag_same name old).1]
        exact stands.2 old (.inr (.inl rest))
      · rw [(flag_same name old).1]
        exact stands.2 old (.inr (.inr called))

/-- A timer that does not run is gone. -/
theorem stopped_inv (inv : Inv s) {gone : Timer} (member : gone ∈ held s.wheel) :
    Inv { s with
      wheel := fun place => (s.wheel place).filter fun timer => timer.id ≠ gone.id, log := .stopped gone.id :: s.log } := by
  obtain ⟨wheelApart, _⟩ := inv.apart
  have all : held (fun place => (s.wheel place).filter fun timer => timer.id ≠ gone.id) =
      (held s.wheel).filter fun timer => timer.id ≠ gone.id := by
    rw [held, items_filter]
    simp
  have fewer : whole { s with
      wheel := fun place => (s.wheel place).filter fun timer => timer.id ≠ gone.id, log := .stopped gone.id :: s.log } ≤
      whole s := by
    simp only [whole, all]
    exact Multiset.add_le_add_right (Multiset.add_le_add_right (Multiset.filter_le _ _))
  refine ⟨?_, inv.order, inv.rested, ?_, ?_, ?_, ?_, inv.marked, ?_⟩
  · intro place inPlace timer kept
    exact inv.filed place inPlace timer (List.mem_filter.mp kept).1
  · exact Multiset.nodup_of_le (Multiset.map_le_map fewer) inv.distinct
  · exact fun timer inside => inv.fresh timer (Multiset.mem_of_le fewer inside)
  · exact fun timer inside => inv.sane timer (Multiset.mem_of_le fewer inside)
  · intro timer inside
    rw [all] at inside
    exact inv.quiet timer (Multiset.mem_filter.mp inside).1
  · apply inv.alarms rfl
    intro id state stands
    cases state with
    | unset => exact ⟨_, rfl, stands⟩
    | other => exact ⟨_, rfl, stands⟩
    | due numsec clock last =>
      obtain ⟨some, now, timer, rest, rfl, same⟩ := stands
      have other := wheelApart gone member timer (.inr rest)
      exact ⟨.due numsec clock last, by rw [Alarm.next, if_neg other], some, now, timer, rest, rfl, same⟩
    | called numsec clock last =>
      obtain ⟨some, now, timer, called, rfl, same⟩ := stands
      have other := wheelApart gone member timer (.inl called)
      exact ⟨.called numsec clock last, by rw [Alarm.next, if_neg other], some, now, timer, called, rfl, same⟩
    | set numsec deadline =>
      obtain ⟨some, timer, kept, rfl, same⟩ := stands
      refine ⟨_, rfl, ?_⟩
      split
      · next own =>
        refine ⟨inv.fresh timer (mem_whole.mpr (.inl kept)), ?_⟩
        rintro mate (left | rest | called)
        · rw [all] at left
          rw [← own]
          exact (Multiset.mem_filter.mp left).2
        · exact (wheelApart timer kept mate (.inr rest)).symm
        · exact (wheelApart timer kept mate (.inl called)).symm
      · next other =>
        refine ⟨some, timer, ?_, rfl, same⟩
        rw [all]
        exact Multiset.mem_filter.mpr ⟨kept, Ne.symm other⟩
    | stopped =>
      refine ⟨.stopped, rfl, stands.1, ?_⟩
      rintro timer (kept | others)
      · rw [all] at kept
        exact stands.2 timer (.inl (Multiset.mem_filter.mp kept).1)
      · exact stands.2 timer (.inr others)

theorem stop_inv (inv : Inv s) {id : ℕ} {after : State} (stops : s.stop id = some after) : Inv after := by
  rw [State.stop, Option.map_eq_some_iff] at stops
  obtain ⟨timer, found, same⟩ := stops
  have member := mem_timers.mp (List.mem_of_find?_eq_some found)
  have name : timer.id = id := by
    have matched := List.find?_some found
    simpa using matched
  subst name
  split at same
  · cases same
    exact stopping_inv inv timer.id
  · next idle =>
    cases same
    apply stopped_inv inv
    obtain kept | running := mem_whole.mp member
    · exact kept
    · exact absurd (inv.marked timer running) idle

theorem step_inv (inv : Inv s) {action : Action} {after : State} (onTime : OnTime s action)
    (result : step s action = some after) : Inv after := by
  generalize same : s.phase = phase
  cases action with
  | register numsec =>
    cases phase <;> simp only [step, Option.some.injEq] at result <;> subst result <;> exact register_inv inv onTime
  | stop id =>
    cases phase <;> simp only [step] at result <;> exact stop_inv inv result
  | tick seconds =>
    cases phase <;> simp only [step, same, Option.some.injEq, reduceCtorEq] at result
    subst result
    exact tick_inv inv same seconds
  | prepare =>
    cases phase <;> simp only [step, same, Option.some.injEq, reduceCtorEq] at result
    subst result
    exact prepare_inv inv same
  | call =>
    cases phase with
    | asleep | woken => simp only [step, same, reduceCtorEq] at result
    | runs called rest =>
      cases rest with
      | nil => simp only [step, same, reduceCtorEq] at result
      | cons timer rest =>
        simp only [step, same, Option.some.injEq] at result
        subst result
        exact call_inv inv same
  | finish =>
    cases phase with
    | asleep | woken => simp only [step, same, reduceCtorEq] at result
    | runs called rest =>
      cases rest with
      | nil =>
        simp only [step, same, Option.some.injEq] at result
        subst result
        exact finish_inv inv same
      | cons timer rest => simp only [step, same, reduceCtorEq] at result

end Steps

theorem init_inv (now : ℕ) : Inv (.init now) := by
  have none : ∀ timer, timer ∉ held (State.init now).wheel := by
    intro timer member
    obtain ⟨place, _, listed⟩ := mem_held.mp member
    exact absurd listed List.not_mem_nil
  have empty : whole (.init now) = 0 := by
    apply Multiset.eq_zero_of_forall_notMem
    intro timer member
    obtain kept | called | rest := mem_whole.mp member
    · exact none timer kept
    · exact absurd called List.not_mem_nil
    · exact absurd rest List.not_mem_nil
  refine ⟨?_, Nat.le_refl _, fun _ => rfl, ?_, ?_, ?_, ?_, ?_, ?_⟩
  · intro place _ timer member
    exact absurd member List.not_mem_nil
  · rw [empty]
    exact Multiset.nodup_zero
  · rw [empty]
    simp
  · rw [empty]
    simp
  · exact fun timer member => absurd member (none timer)
  · rintro timer (called | rest)
    · exact absurd called List.not_mem_nil
    · exact absurd rest List.not_mem_nil
  · exact fun id => ⟨.unset, rfl, Nat.zero_le id⟩

theorem run_inv {s : State} (run : Run OnTime s) : Inv s := by
  induction run with
  | init now => exact init_inv now
  | step action before onTime result ih => exact step_inv ih onTime result

/-- When the clock was not read since the last run no timer is too far ahead. -/
theorem onTime_of_processed {s : State} (same : s.processed = s.now) (action : Action) : OnTime s action := by
  cases action with
  | register numsec =>
    intro some
    obtain ⟨sane, _, nothing⟩ := registered_spec numsec
    rw [same]
    exact (sane.near (fun none => some (nothing none)) s.now).2
  | tick seconds | prepare | call | finish | stop id => exact trivial

/-- Every timer is called as its alarm says, and what is in the wheel after a processing
run is due later. -/
theorem run_alarms {s : State} (run : Run OnTime s) : (∀ id, (alarm id s.log).isSome) ∧
    ∀ id numsec deadline, alarm id s.log = some (.set numsec deadline) → s.processed < deadline := by
  have inv := run_inv run
  constructor
  · intro id
    obtain ⟨state, same, _⟩ := inv.stands id
    rw [same]
    rfl
  · intro id numsec deadline same
    obtain ⟨state, other, stands⟩ := inv.stands id
    rw [same] at other
    cases other
    obtain ⟨some, timer, member, _, timeout, runat⟩ := stands
    rw [← runat]
    exact (inv.filed.later member).resolve_left (timeout ▸ some)

/-- A timer that is stopped by another thread in its second run. -/
theorem run_alarms_stopping : ∃ s, Run OnTime s ∧ s.now = 10 ∧ alarm 0 s.log = some .stopped ∧ ∀ id, (alarm id s.log).isSome := by
  have registers : Run OnTime _ := .step (.register 5) (.init 0) (fun _ => by decide) rfl
  have ticks : Run OnTime _ := .step (.tick 5) registers trivial rfl
  have prepares : Run OnTime _ := .step .prepare ticks trivial rfl
  have calls : Run OnTime _ := .step .call prepares trivial rfl
  have ends : Run OnTime _ := .step .finish calls trivial rfl
  have later : Run OnTime _ := .step (.tick 5) ends trivial rfl
  have due : Run OnTime _ := .step .prepare later trivial rfl
  have stops : Run OnTime _ := .step (.stop 0) due trivial rfl
  have last : Run OnTime _ := .step .call stops trivial rfl
  have ended : Run OnTime _ := .step .finish last trivial rfl
  exact ⟨_, ended, rfl, rfl, (run_alarms ended).1⟩

/-- A timer for 64 seconds is registered after the clock was read, and is called at once. -/
theorem called_early : ∃ s, Run (fun _ _ => True) s ∧ s.now = 1 ∧ Event.registered 0 64 1 ∈ s.log ∧ Event.called 0 ∈ s.log ∧
    alarm 0 s.log = none := by
  have ticks : Run (fun _ _ => True) _ := .step (.tick 1) (.init 0) trivial rfl
  have registers : Run (fun _ _ => True) _ := .step (.register 64) ticks trivial rfl
  have prepares : Run (fun _ _ => True) _ := .step .prepare registers trivial rfl
  have calls : Run (fun _ _ => True) _ := .step .call prepares trivial rfl
  exact ⟨_, calls, rfl, by decide, by decide, rfl⟩

end Pclsync.Proofs.Alarms
