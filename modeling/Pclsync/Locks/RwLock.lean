import Mathlib

/-! The read-write lock. A thread counts its own recursive locks; the lock counts
the threads that hold it and those that wait. Each step is what a thread does while
it has the mutex, until it returns or waits on a condition. -/

namespace Pclsync.Locks

/-- `PSYNC_WR_RESERVED` -/
abbrev wrReserved : ℕ := 2 ^ 32 - 1

/-- `psync_rwlock_lockcnt_t`: the counts `cnt[0]` and `cnt[1]` of a thread. -/
structure Count where
  rd : ℕ
  wr : ℕ
deriving DecidableEq, Repr

/-- The call in whose loop a thread waits. -/
inductive Loop where
  | rdlock
  | timedrdlock
  | wrlock
  | timedwrlock
  | rslock
  | towrlock
deriving DecidableEq, Repr

inductive Cond where
  | rcond
  | wcond
deriving DecidableEq, Repr

/-- The condition that a loop waits on. -/
def Loop.cond : Loop → Cond
  | .rdlock | .timedrdlock => .rcond
  | .wrlock | .timedwrlock | .rslock | .towrlock => .wcond

/-- Where a thread is. One that was signalled waits only for the mutex. -/
inductive Place where
  | running
  | waiting (loop : Loop) (signalled : Bool)
deriving DecidableEq, Repr

structure Thread where
  cnt : Count
  place : Place
deriving DecidableEq, Repr

/-- `psync_rwlock_t`, with the threads that use it. -/
structure RwLock (T : Type) where
  rcount : ℕ
  rwait : ℕ
  wcount : ℕ
  wwait : ℕ
  preferRead : Bool
  reserved : Bool
  threads : T → Thread

/-- What a call returns, or that it waits. -/
inductive Ret where
  | done
  | refused
  | waits
deriving DecidableEq, Repr

/-- The outcome of a step: an assertion fails, or the lock is another. -/
inductive Result (T : Type) where
  | failed
  | next (rw : RwLock T) (ret : Ret)

variable {T : Type} [DecidableEq T]

namespace RwLock

/-- `plocks_init` -/
def init : RwLock T := ⟨0, 0, 0, 0, false, false, fun _ => ⟨⟨0, 0⟩, .running⟩⟩

def set (rw : RwLock T) (t : T) (thread : Thread) : RwLock T :=
  { rw with threads := Function.update rw.threads t thread }

/-- `psync_rwlock_set_count`, when the thread returns. -/
def setCount (rw : RwLock T) (t : T) (rd wr : ℕ) : RwLock T := rw.set t ⟨⟨rd, wr⟩, .running⟩

/-- `pthread_cond_wait`: the mutex is given back. -/
def condWait (rw : RwLock T) (t : T) (loop : Loop) : RwLock T :=
  rw.set t ⟨(rw.threads t).cnt, .waiting loop false⟩

/-- A thread that waits on a condition does not any more. -/
def wakeOn (cond : Cond) (thread : Thread) : Thread :=
  match thread.place with
  | .running => thread
  | .waiting loop signalled => { thread with place := .waiting loop (signalled || loop.cond = cond) }

/-- `pthread_cond_broadcast` -/
def broadcast (rw : RwLock T) (cond : Cond) : RwLock T := { rw with threads := fun t => wakeOn cond (rw.threads t) }

/-- `pthread_cond_signal` of `wcond`, with the thread that it wakes. -/
def signal (rw : RwLock T) (pick : T) : RwLock T := rw.set pick (wakeOn .wcond (rw.threads pick))

end RwLock

open RwLock

/-- `pdbg_assert` -/
def pdbgAssert (condition : Prop) [Decidable condition] (rest : Result T) : Result T :=
  if condition then rest else .failed

/-- One more on a count. -/
abbrev increment (count : ℕ) : ℕ := (count + 1) % 2 ^ 32

variable (rw : RwLock T) (t : T)

/-- `psync_rwlock_check_rdrecursive_in`, or the rest of the call. -/
def checkRdrecursiveIn (rest : Result T) : Result T :=
  let cnt := (rw.threads t).cnt
  if cnt.rd ≠ 0 then .next (rw.setCount t (increment cnt.rd) cnt.wr) .done
  else if cnt.wr ≠ 0 then
    pdbgAssert (cnt.wr ≠ wrReserved) (.next (rw.setCount t cnt.rd (increment cnt.wr)) .done)
  else rest

/-- `psync_rwlock_check_wrrecursive_in`, or the rest of the call. -/
def checkWrrecursiveIn (rest : Result T) : Result T :=
  let cnt := (rw.threads t).cnt
  pdbgAssert (cnt.rd = 0)
    (if cnt.wr ≠ 0 then
      pdbgAssert (cnt.wr ≠ wrReserved) (.next (rw.setCount t cnt.rd (increment cnt.wr)) .done)
    else rest)

/-- When `plocks_rdlock` waits. -/
def readerWaits : Prop := rw.wcount ≠ 0 ∨ (rw.wwait ≠ 0 ∧ rw.reserved = false)

/-- When `plocks_wrlock` waits. -/
def writerWaits : Prop := rw.rcount ≠ 0 ∨ rw.wcount ≠ 0 ∨ rw.reserved = true

/-- When `plocks_rslock` waits. -/
def reserverWaits : Prop := rw.wcount ≠ 0 ∨ rw.reserved = true

instance : Decidable (readerWaits rw) := inferInstanceAs (Decidable (_ ∨ _))
instance : Decidable (writerWaits rw) := inferInstanceAs (Decidable (_ ∨ _))
instance : Decidable (reserverWaits rw) := inferInstanceAs (Decidable (_ ∨ _))

/-- The loop of `plocks_rdlock` and `plocks_timedrdlock`. -/
def rdlockLoop (loop : Loop) : Result T :=
  if readerWaits rw then .next ({ rw with rwait := rw.rwait + 1 }.condWait t loop) .waits
  else .next ({ rw with rcount := rw.rcount + 1 }.setCount t 1 0) .done

/-- The loop of `plocks_wrlock` and `plocks_timedwrlock`. -/
def wrlockLoop (loop : Loop) : Result T :=
  if writerWaits rw then .next ({ rw with wwait := rw.wwait + 1 }.condWait t loop) .waits
  else .next ({ rw with wcount := rw.wcount + 1 }.setCount t 0 1) .done

/-- The loop of `plocks_rslock`. -/
def rslockLoop : Result T :=
  if reserverWaits rw then .next ({ rw with wwait := rw.wwait + 1 }.condWait t .rslock) .waits
  else
    let rw := if rw.rwait ≠ 0 then rw.broadcast .rcond else rw
    .next ({ rw with rcount := rw.rcount + 1, reserved := true }.setCount t 1 wrReserved) .done

/-- The loop of `plocks_towrlock`. -/
def towrlockLoop : Result T :=
  let cnt := (rw.threads t).cnt
  if rw.rcount ≠ 0 then .next ({ rw with wwait := rw.wwait + 1 }.condWait t .towrlock) .waits
  else
    pdbgAssert (rw.wcount = 0)
      (.next ({ rw with wcount := rw.wcount + 1, reserved := false }.setCount t 0 cnt.rd) .done)

/-- `plocks_rdlock` -/
def rdlock : Result T := checkRdrecursiveIn rw t (rdlockLoop rw t .rdlock)

/-- `plocks_tryrdlock` -/
def tryrdlock : Result T :=
  checkRdrecursiveIn rw t
    (if readerWaits rw then .next rw .refused
    else .next ({ rw with rcount := rw.rcount + 1 }.setCount t 1 0) .done)

/-- `plocks_timedrdlock` -/
def timedrdlock : Result T := checkRdrecursiveIn rw t (rdlockLoop rw t .timedrdlock)

/-- `plocks_wrlock` -/
def wrlock : Result T := checkWrrecursiveIn rw t (wrlockLoop rw t .wrlock)

/-- `plocks_trywrlock` -/
def trywrlock : Result T :=
  checkWrrecursiveIn rw t
    (if writerWaits rw then .next rw .refused
    else .next ({ rw with wcount := rw.wcount + 1 }.setCount t 0 1) .done)

/-- `plocks_timedwrlock` -/
def timedwrlock : Result T := checkWrrecursiveIn rw t (wrlockLoop rw t .timedwrlock)

/-- `plocks_rslock` -/
def rslock : Result T :=
  let cnt := (rw.threads t).cnt
  pdbgAssert (cnt.rd = 0)
    (if cnt.wr ≠ 0 then
      if cnt.wr = wrReserved then .next (rw.setCount t (increment cnt.rd) cnt.wr) .done
      else .next (rw.setCount t cnt.rd (increment cnt.wr)) .done
    else rslockLoop rw t)

/-- `plocks_towrlock` -/
def towrlock : Result T :=
  let cnt := (rw.threads t).cnt
  if cnt.wr ≠ 0 ∧ cnt.wr ≠ wrReserved then .next rw .done
  else
    pdbgAssert (cnt.rd ≠ 0) <| pdbgAssert (rw.rcount ≠ 0) <| pdbgAssert (rw.wcount = 0) <|
      if rw.reserved ∧ cnt.wr ≠ wrReserved then .next rw .refused
      else towrlockLoop { rw with reserved := true, rcount := rw.rcount - 1 } t

/-- The rest of `plocks_unlock` for the last of a thread's read locks. -/
def unlockRead (pick : T) : Result T :=
  let cnt := (rw.threads t).cnt
  let own := rw.reserved = true ∧ cnt.wr = wrReserved
  let rw : RwLock T := if own then { rw.setCount t cnt.rd 0 with reserved := false } else rw
  let rw : RwLock T := { rw with rcount := rw.rcount - 1 }
  .next (if rw.rcount = 0 ∧ rw.wwait ≠ 0 then if rw.reserved then rw.broadcast .wcond else rw.signal pick else rw)
    .done

/-- The rest of `plocks_unlock` for the last of a thread's write locks. -/
def unlockWrite (pick : T) : Result T :=
  pdbgAssert (rw.wcount ≠ 0) <|
    let rw : RwLock T := { rw with wcount := rw.wcount - 1 }
    if rw.wcount ≠ 0 then .next rw .done
    else if rw.reserved then pdbgAssert (rw.wwait ≠ 0) (.next (rw.broadcast .wcond) .done)
    else if rw.preferRead then
      .next (if rw.rwait ≠ 0 then rw.broadcast .rcond else if rw.wwait ≠ 0 then rw.signal pick else rw) .done
    else .next (if rw.wwait ≠ 0 then rw.signal pick else if rw.rwait ≠ 0 then rw.broadcast .rcond else rw) .done

/-- `plocks_unlock` after `psync_rwlock_check_recursive_out`. -/
def unlockLast (pick : T) : Result T :=
  pdbgAssert (¬(rw.rcount ≠ 0 ∧ rw.wcount ≠ 0)) <|
    if rw.rcount ≠ 0 then unlockRead rw t pick else unlockWrite rw pick

/-- `plocks_unlock` -/
def unlock (pick : T) : Result T :=
  let cnt := (rw.threads t).cnt
  if cnt.rd ≠ 0 then
    let rw := rw.setCount t (cnt.rd - 1) cnt.wr
    if cnt.rd - 1 > 0 then .next rw .done else unlockLast rw t pick
  else
    pdbgAssert (cnt.wr ≠ 0) <|
      let rw := rw.setCount t cnt.rd (cnt.wr - 1)
      if cnt.wr - 1 > 0 then .next rw .done else unlockLast rw t pick

/-- What a thread does next: a call, or in a call that waits, its return from the
wait or its timeout. -/
inductive Action (T : Type) where
  | rdlock
  | tryrdlock
  | timedrdlock
  | wrlock
  | trywrlock
  | timedwrlock
  | rslock
  | towrlock
  | unlock (pick : T)
  | wake
  | timeout
deriving DecidableEq, Repr

/-- A thread that waits has the mutex again. -/
def wake (loop : Loop) : Result T :=
  match loop with
  | .rdlock | .timedrdlock => rdlockLoop { rw with rwait := rw.rwait - 1 } t loop
  | .wrlock | .timedwrlock => wrlockLoop { rw with wwait := rw.wwait - 1 } t loop
  | .rslock => rslockLoop { rw with wwait := rw.wwait - 1 } t
  | .towrlock => towrlockLoop { rw with wwait := rw.wwait - 1 } t

/-- `pthread_cond_timedwait` gives up. -/
def timeout (loop : Loop) : Option (Result T) :=
  let cnt := (rw.threads t).cnt
  match loop with
  | .timedrdlock => some (.next ({ rw with rwait := rw.rwait - 1 }.setCount t cnt.rd cnt.wr) .refused)
  | .timedwrlock =>
    let rw := { rw with wwait := rw.wwait - 1 }.setCount t cnt.rd cnt.wr
    some (.next (if rw.wwait = 0 ∧ rw.wcount = 0 ∧ rw.rwait ≠ 0 then rw.broadcast .rcond else rw) .refused)
  | _ => none

/-- One step of a thread, if it is where it can do that. -/
def step (action : Action T) : Option (Result T) :=
  match (rw.threads t).place, action with
  | .running, .rdlock => some (rdlock rw t)
  | .running, .tryrdlock => some (tryrdlock rw t)
  | .running, .timedrdlock => some (timedrdlock rw t)
  | .running, .wrlock => some (wrlock rw t)
  | .running, .trywrlock => some (trywrlock rw t)
  | .running, .timedwrlock => some (timedwrlock rw t)
  | .running, .rslock => some (rslock rw t)
  | .running, .towrlock => some (towrlock rw t)
  | .running, .unlock pick => some (unlock rw t pick)
  | .waiting loop _, .wake => some (wake rw t loop)
  | .waiting loop _, .timeout => timeout rw t loop
  | _, _ => none

/-- A thread waits on a condition and nobody has woken it. -/
def Asleep (thread : Thread) (cond : Cond) : Prop := ∃ loop, thread.place = .waiting loop false ∧ loop.cond = cond

/-- A signal wakes a thread that sleeps on `wcond`, if there is one. -/
def Picks : Action T → Prop
  | .unlock pick => (∃ u, Asleep (rw.threads u) .wcond) → Asleep (rw.threads pick) .wcond
  | _ => True

/-- Runs of any threads from a new lock, in which each step is allowed by a rule. -/
inductive Run (Rule : RwLock T → T → Action T → Prop) : RwLock T → Prop where
  | init : Run Rule .init
  | step {rw after : RwLock T} {ret : Ret} (t : T) (action : Action T) (before : Run Rule rw) (rule : Rule rw t action)
      (picks : Picks rw action) (result : Locks.step rw t action = some (.next after ret)) : Run Rule after

end Pclsync.Locks
