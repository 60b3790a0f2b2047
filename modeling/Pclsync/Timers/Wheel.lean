import Pclsync.Library.Shelves

/-! The timers. A timer is in one of three levels of 64 lists, by its deadline, and
moves down a level each time the clock gets to its list. The timer thread reads the
clock before it takes the mutex, and other threads may register timers in between. -/

namespace Pclsync.Timers
open Pclsync.Library.Shelves

/-- `TIMER_ARRAY_SIZE_SHIFT` -/
abbrev arrayShift : ℕ := 6

/-- `TIMER_ARRAY_SIZE` -/
abbrev arraySize : ℕ := 2 ^ arrayShift

/-- `TIMER_LEVELS` -/
abbrev levels : ℕ := 3

/-- `psync_timer_structure_t`, with a name in place of its address. -/
structure Timer where
  id : ℕ
  numsec : ℕ
  runat : ℕ
  level : ℕ
  isRunning : Bool
  stopAfterRun : Bool
deriving DecidableEq, Repr

/-- `timerlists`: a list for each level and slot. -/
abbrev Wheel := ℕ × ℕ → List Timer

/-- The lists that there are. -/
def slots : Finset (ℕ × ℕ) := Finset.range levels ×ˢ Finset.range arraySize

/-- The list of a level for a time. -/
def slot (level runat : ℕ) : ℕ × ℕ := (level, runat / 2 ^ (level * arrayShift) % arraySize)

/-- The last loop of `timer_check_upper_levels`. -/
def moveDown (tmdiv level sh : ℕ) (wheel : Wheel) : Wheel :=
  let m := tmdiv % arraySize
  Function.update
    (pushAll wheel (fun timer => (level, timer.runat / 2 ^ sh % arraySize)) (wheel (level + 1, m))) (level + 1, m) []

/-- `timer_check_upper_levels`, where `upper` is how many levels are above the next one. -/
def timerCheckUpperLevels : (upper tmdiv level sh : ℕ) → Wheel → Wheel
  | 0, tmdiv, level, sh, wheel => moveDown tmdiv level sh wheel
  | upper + 1, tmdiv, level, sh, wheel =>
    moveDown tmdiv level sh
      (if tmdiv % arraySize = 0 then
        timerCheckUpperLevels upper (tmdiv / arraySize) (level + 1) (sh + arrayShift) wheel
      else wheel)

/-- The loop of `timer_prepare_timers` for one second, and the timers found so far. -/
def prepareSecond (state : Wheel × List Timer) (i : ℕ) : Wheel × List Timer :=
  let m := i % arraySize
  let wheel := if m = 0 then timerCheckUpperLevels (levels - 2) (i / arraySize) 0 0 state.1 else state.1
  (Function.update wheel (0, m) [],
    state.2 ++ (wheel (0, m)).map fun timer => { timer with isRunning := true })

/-- `timer_prepare_timers` -/
def timerPrepareTimers (start stop : ℕ) (wheel : Wheel) : Wheel × List Timer :=
  (List.range' (start + 1) (stop - start)).foldl prepareSecond (wheel, [])

/-- The loop of `ptimer_register` that finds the level, and the range of that level. -/
def findLevel (numsec : ℕ) : (left n i : ℕ) → ℕ × ℕ
  | 0, n, i => (n, i)
  | left + 1, n, i => if numsec ≤ n then (n, i) else findLevel numsec left (n * arraySize) (i + 1)

/-- The timeout that a timer gets, and its level. -/
def registered (numsec : ℕ) : ℕ × ℕ :=
  let found := findLevel numsec levels arraySize 0
  if found.2 = levels then (found.1 / arraySize, found.2 - 1) else (numsec, found.2)

/-- What the timer thread does: it sleeps, it has read the clock, or it calls the timers
that it found. -/
inductive Phase where
  | asleep
  | woken
  | runs (called rest : List Timer)

namespace Phase

def called : Phase → List Timer
  | .runs called _ => called
  | _ => []

def rest : Phase → List Timer
  | .runs _ rest => rest
  | _ => []

def map (change : Timer → Timer) : Phase → Phase
  | .runs called rest => .runs (called.map change) (rest.map change)
  | phase => phase

end Phase

/-- What happens to timers. -/
inductive Event where
  | registered (id numsec clock : ℕ)
  | stopped (id : ℕ)
  | stopping (id : ℕ)
  | ran (clock : ℕ)
  | called (id : ℕ)
  | done
deriving DecidableEq, Repr

/-- `psync_current_time`, the time that was processed last, and the wheel. -/
structure State where
  now : ℕ
  lt : ℕ
  wheel : Wheel
  phase : Phase
  next : ℕ
  log : List Event

namespace State

/-- `ptimer_init` -/
def init (now : ℕ) : State := ⟨now, now, fun _ => [], .asleep, 0, []⟩

/-- The last second whose timers were found. -/
def processed (s : State) : ℕ :=
  match s.phase with
  | .woken => s.lt
  | _ => s.now

/-- `ptimer_register` -/
def register (s : State) (numsec : ℕ) : State :=
  let found := registered numsec
  let timer : Timer := ⟨s.next, found.1, s.now + found.1, found.2, false, false⟩
  { s with
    wheel := push s.wheel (slot timer.level timer.runat) timer, next := s.next + 1,
    log := .registered s.next numsec s.now :: s.log }

/-- A timer that runs must not run again. -/
def flag (id : ℕ) (timer : Timer) : Timer := if timer.id = id then { timer with stopAfterRun := true } else timer

/-- The timers that are somewhere. -/
def timers (s : State) : List Timer :=
  s.phase.called ++ s.phase.rest ++
    (List.range levels).flatMap fun level => (List.range arraySize).flatMap fun m => s.wheel (level, m)

/-- `ptimer_stop` of a timer that is still there. -/
def stop (s : State) (id : ℕ) : Option State :=
  (s.timers.find? fun timer => timer.id = id).map fun timer =>
    if timer.isRunning then { s with phase := s.phase.map (flag id), log := .stopping id :: s.log }
    else
      { s with
        wheel := fun place => (s.wheel place).filter fun timer => timer.id ≠ id, log := .stopped id :: s.log }

/-- The second loop of `timer_process_timers`, and the end of the round. -/
def finish (s : State) (called : List Timer) : State :=
  let again := (called.filter fun timer => !timer.stopAfterRun).map fun timer =>
    { timer with isRunning := false, runat := s.now + timer.numsec }
  { s with
    wheel := pushAll s.wheel (fun timer => slot timer.level timer.runat) again, lt := s.now, phase := .asleep,
    log := .done :: s.log }

end State

/-- What can happen: the timer thread goes on, or any thread registers or stops a timer. -/
inductive Action where
  | tick (seconds : ℕ)
  | prepare
  | call
  | finish
  | register (numsec : ℕ)
  | stop (id : ℕ)
deriving DecidableEq, Repr

def step (s : State) (action : Action) : Option State :=
  match s.phase, action with
  | _, .register numsec => some (s.register numsec)
  | _, .stop id => s.stop id
  | .asleep, .tick seconds => some { s with now := s.now + seconds, phase := .woken }
  | .woken, .prepare =>
    let prepared := timerPrepareTimers s.lt s.now s.wheel
    some { s with wheel := prepared.1, phase := .runs [] prepared.2, log := .ran s.now :: s.log }
  | .runs called (timer :: rest), .call =>
    some { s with phase := .runs (called ++ [timer]) rest, log := .called timer.id :: s.log }
  | .runs called [], .finish => some (s.finish called)
  | _, _ => none

/-- Runs in which each step is allowed by a rule. -/
inductive Run (Rule : State → Action → Prop) : State → Prop where
  | init (now : ℕ) : Run Rule (.init now)
  | step {s after : State} (action : Action) (before : Run Rule s) (rule : Rule s action)
      (result : Pclsync.Timers.step s action = some after) : Run Rule after

end Pclsync.Timers
