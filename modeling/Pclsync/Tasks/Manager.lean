import Mathlib

/-! A task manager: threads that each complete with a result, and the owner, who may wait for
some of the results before it frees the manager. -/

namespace Pclsync.Tasks

/-- The `status` of a task. -/
inductive Status where
  | running
  | ready
  | done
  | returned
deriving DecidableEq, Repr

inductive WaitFor (taskcnt : ℕ) where
  | nobody
  | freed
  | task (id : Fin taskcnt)
deriving DecidableEq, Repr

/-- Where the thread of a task is: in its callback, asleep in `psync_task_complete`, woken there,
back in the callback, and in `psync_task_dec_refcnt` with the mutex or behind it. `zero` says
that the count that was read is zero. -/
inductive Place where
  | run
  | wait
  | woken
  | back
  | release (zero : Bool)
  | destroy
  | gone
deriving DecidableEq, Repr

/-- Where the owner is: outside, asleep in `psync_task_papi_result`, woken there, behind the first
test of `psync_task_free`, and in its last part with the mutex or behind it. -/
inductive Owner (taskcnt : ℕ) where
  | idle
  | wait (id : Fin taskcnt)
  | woken (id : Fin taskcnt)
  | destroyLast
  | freeing
  | release (zero : Bool)
  | destroy
  | gone
deriving DecidableEq, Repr

/-- `psync_task_manager_t`, with `locked` while its mutex is held over several steps, what each
`psync_task_complete` returned (`true` for 0), how often the owner got each result, how often the
memory was freed, and whether it was used behind that or its mutex destroyed while held. -/
structure Manager (taskcnt : ℕ) where
  locked : Bool
  refcnt : ℕ
  waitfor : WaitFor taskcnt
  status : Fin taskcnt → Status
  task : Fin taskcnt → Place
  owner : Owner taskcnt
  completed : Fin taskcnt → Option Bool
  taken : Fin taskcnt → ℕ
  frees : ℕ
  broken : Bool

variable {taskcnt : ℕ}

namespace Manager

/-- `psync_task_run_tasks` -/
def runTasks : Manager taskcnt where
  locked := false
  refcnt := taskcnt + 1
  waitfor := .nobody
  status := fun _ => .running
  task := fun _ => .run
  owner := .idle
  completed := fun _ => none
  taken := fun _ => 0
  frees := 0
  broken := false

variable (tm : Manager taskcnt) (id : Fin taskcnt)

/-- A thread looks at the manager. -/
def use : Manager taskcnt := { tm with broken := tm.broken || tm.frees ≠ 0 }

def moveTask (place : Place) : Manager taskcnt := { tm with task := Function.update tm.task id place }

def moveOwner (owner : Owner taskcnt) : Manager taskcnt := { tm with owner := owner }

def setStatus (status : Status) : Manager taskcnt := { tm with status := Function.update tm.status id status }

/-- `pthread_cond_signal` on the condition of a task, on which the task and the owner wait. If
both do, one of them is woken. -/
def signal (ownerFirst : Bool) : Manager taskcnt :=
  if tm.owner = .wait id ∧ (ownerFirst ∨ tm.task id ≠ .wait) then tm.moveOwner (.woken id)
  else if tm.task id = .wait then tm.moveTask id .woken
  else tm

/-- `psync_task_complete` returns. -/
def complete (result : Bool) : Manager taskcnt :=
  { tm.moveTask id .back with completed := Function.update tm.completed id (some result) }

/-- The owner gets a result. -/
def take : Manager taskcnt := { (tm.setStatus id .done).moveOwner .idle with taken := Function.update tm.taken id (tm.taken id + 1) }

/-- The loop of `psync_task_free`. -/
def returnReady : Manager taskcnt :=
  { tm with
    status := fun id => if tm.status id = .ready then .returned else tm.status id
    task := fun id => if tm.status id = .ready ∧ tm.task id = .wait then .woken else tm.task id }

/-- `psync_task_destroy` -/
def destroy : Manager taskcnt := { tm.use with frees := tm.frees + 1, broken := tm.use.broken || tm.locked }

end Manager

/-- The steps. `skip` is a callback that returns without a result, `wakeup` and `wakeupOwner` are
wakeups without a reason, and `test` is the first test of `psync_task_free`. -/
inductive Event (taskcnt : ℕ) where
  | complete (id : Fin taskcnt) (ownerFirst : Bool)
  | wakeup (id : Fin taskcnt)
  | recheck (id : Fin taskcnt)
  | skip (id : Fin taskcnt)
  | dec (id : Fin taskcnt)
  | unlock (id : Fin taskcnt)
  | destroy (id : Fin taskcnt)
  | get (id : Fin taskcnt) (ownerFirst : Bool)
  | wakeupOwner
  | recheckOwner
  | test
  | free
  | unlockOwner
  | destroyOwner
deriving DecidableEq, Repr

/-- `psync_task_complete` up to the wait. -/
def complete (tm : Manager taskcnt) (id : Fin taskcnt) (ownerFirst : Bool) : Option (Manager taskcnt) :=
  if tm.task id = .run ∧ tm.locked = false then
    let tm := tm.use
    if tm.waitfor = .task id then some (((tm.setStatus id .ready).signal id ownerFirst).complete id true)
    else if tm.waitfor = .freed then some (tm.complete id false)
    else some ((tm.setStatus id .ready).moveTask id .wait)
  else none

/-- `psync_task_complete` from the wait on. -/
def recheck (tm : Manager taskcnt) (id : Fin taskcnt) : Option (Manager taskcnt) :=
  if tm.task id = .woken ∧ tm.locked = false then
    let tm := tm.use
    if tm.status id = .ready then some (tm.moveTask id .wait)
    else some (tm.complete id (tm.status id ≠ .returned))
  else none

/-- `psync_task_papi_result` up to the wait. -/
def get (tm : Manager taskcnt) (id : Fin taskcnt) (ownerFirst : Bool) : Option (Manager taskcnt) :=
  if tm.owner = .idle ∧ tm.locked = false then
    let tm := tm.use
    match tm.status id with
    | .running => some { tm.moveOwner (.wait id) with waitfor := .task id }
    | .ready => some ((tm.take id).signal id ownerFirst)
    | _ => some tm
  else none

/-- `psync_task_papi_result` from the wait on. -/
def recheckOwner (tm : Manager taskcnt) : Option (Manager taskcnt) :=
  match tm.owner with
  | .woken id =>
    if tm.locked then none
    else
      let tm := { tm.use with waitfor := .nobody }
      if tm.status id = .running then some { tm.moveOwner (.wait id) with waitfor := .task id }
      else some (tm.take id)
  | _ => none

/-- The part of `psync_task_free` with the mutex. -/
def free (tm : Manager taskcnt) : Option (Manager taskcnt) :=
  if tm.owner = .freeing ∧ tm.locked = false then
    let refcnt := tm.refcnt - 1
    some { ({ tm.use with waitfor := .freed }.returnReady).moveOwner (.release (refcnt = 0)) with refcnt := refcnt, locked := true }
  else none

def step (tm : Manager taskcnt) : Event taskcnt → Option (Manager taskcnt)
  | .complete id ownerFirst => complete tm id ownerFirst
  | .wakeup id => if tm.task id = .wait then some (tm.moveTask id .woken) else none
  | .recheck id => recheck tm id
  | .skip id => if tm.task id = .run then some (tm.moveTask id .back) else none
  -- `psync_task_dec_refcnt`
  | .dec id =>
    if tm.task id = .back ∧ tm.locked = false then
      let refcnt := tm.refcnt - 1
      some { tm.use.moveTask id (.release (refcnt = 0)) with refcnt := refcnt, locked := true }
    else none
  | .unlock id =>
    match tm.task id with
    | .release zero => some { tm.use.moveTask id (if zero then .destroy else .gone) with locked := false }
    | _ => none
  | .destroy id => if tm.task id = .destroy then some (tm.destroy.moveTask id .gone) else none
  | .get id ownerFirst => get tm id ownerFirst
  | .wakeupOwner =>
    match tm.owner with
    | .wait id => some (tm.moveOwner (.woken id))
    | _ => none
  | .recheckOwner => recheckOwner tm
  | .test => if tm.owner = .idle then some (tm.use.moveOwner (if tm.refcnt = 1 then .destroyLast else .freeing)) else none
  | .free => free tm
  | .unlockOwner =>
    match tm.owner with
    | .release zero => some { tm.use.moveOwner (if zero then .destroy else .gone) with locked := false }
    | _ => none
  | .destroyOwner => if tm.owner = .destroyLast ∨ tm.owner = .destroy then some (tm.destroy.moveOwner .gone) else none

end Pclsync.Tasks
