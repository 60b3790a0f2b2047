import Pclsync.Timers.Wheel

/-! What a timer is for: it is called once, in the first processing run at or after its
deadline, and then has a new deadline, until somebody stops it. -/

namespace Pclsync.Timers

/-- What one timer waits for. -/
inductive Alarm where
  | unset
  | set (numsec deadline : ℕ)
  | due (numsec clock : ℕ) (last : Bool)
  | called (numsec clock : ℕ) (last : Bool)
  | stopped
  | other
deriving DecidableEq, Repr

/-- The longest timeout. -/
abbrev range : ℕ := arraySize ^ levels

/-- What an event is for one timer, if it may happen: a timer is called only when it is
due, and a processing run does not end before that. -/
def Alarm.next (id : ℕ) : Alarm → Event → Option Alarm
  | .unset, .registered new numsec clock =>
    if new = id then some (if 1 ≤ numsec ∧ numsec ≤ range then .set numsec (clock + numsec) else .other) else some .unset
  | .unset, .called old => if old = id then none else some .unset
  | .set numsec deadline, .ran clock => some (if deadline ≤ clock then .due numsec clock false else .set numsec deadline)
  | .set numsec deadline, .called old => if old = id then none else some (.set numsec deadline)
  | .set numsec deadline, .stopped old => some (if old = id then .stopped else .set numsec deadline)
  | .due numsec clock last, .called old => some (if old = id then .called numsec clock last else .due numsec clock last)
  | .due numsec clock last, .stopping old => some (.due numsec clock (last || old = id))
  | .due numsec clock last, .stopped old => some (if old = id then .stopped else .due numsec clock last)
  | .due _ _ _, .ran _ => none
  | .due _ _ _, .done => none
  | .called numsec clock last, .called old => if old = id then none else some (.called numsec clock last)
  | .called numsec clock last, .stopping old => some (.called numsec clock (last || old = id))
  | .called numsec clock last, .stopped old => some (if old = id then .stopped else .called numsec clock last)
  | .called numsec clock last, .done => some (if last then .stopped else .set numsec (clock + numsec))
  | .called _ _ _, .ran _ => none
  | .stopped, .called old => if old = id then none else some .stopped
  | alarm, _ => some alarm

/-- A timer after some events, the last one first, if all of them may happen. -/
def alarm (id : ℕ) : List Event → Option Alarm
  | [] => some .unset
  | event :: log => (alarm id log).bind fun alarm => alarm.next id event

/-- A timer is registered for no more than one turn of its level after the second that
was processed last, as it always is when the clock was not read since. -/
def OnTime (s : State) : Action → Prop
  | .register numsec => numsec ≠ 0 →
    (s.now + (registered numsec).1) / 2 ^ ((registered numsec).2 * arrayShift) ≤
      s.processed / 2 ^ ((registered numsec).2 * arrayShift) + arraySize
  | _ => True

end Pclsync.Timers
