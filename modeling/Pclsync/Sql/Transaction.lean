import Mathlib.Data.List.Basic
import Mathlib.Data.Nat.Notation

/-! Transactions and the callbacks that wait for their end. An assertion that fails, a statement that is `NULL` and a list
whose nodes are freed end the program, which is `none`. -/

namespace Pclsync.Sql

/-- A statement cannot be prepared, its run fails, or it is done. -/
inductive Outcome where
  | unprepared
  | failed
  | done
deriving DecidableEq, Repr

/-- The function of a callback that is run. -/
inductive Half where
  | commit
  | rollback
deriving DecidableEq, Repr

/-- The write lock, counted as it is taken again and again, the globals of the module, and what callbacks were run.
The nodes of `commitcbs` are not there before the first transaction, and after one that had some. -/
structure State (α : Type) where
  lock : ℕ
  inTransaction : Bool
  transactionFailed : Bool
  commitcbs : Option (List α)
  runs : List (α × Half)

def State.initial {α : Type} : State α := ⟨0, false, false, none, []⟩

variable {α : Type}

def psqlLock (s : State α) : State α := { s with lock := s.lock + 1 }

def psqlUnlock (s : State α) : Option (State α) := if 0 < s.lock then some { s with lock := s.lock - 1 } else none

/-- `psql_prepare`: whether there is a statement, which holds the lock. -/
def psqlPrepare (outcome : Outcome) (s : State α) : Option (State α × Bool) := do
  let s := psqlLock s
  if outcome = .unprepared then
    let s ← psqlUnlock s
    return (s, false)
  else return (s, true)

/-- `psql_run_free`: whether it returns 0. -/
def psqlRunFree (outcome : Outcome) (res : Bool) (s : State α) : Option (State α × Bool) := do
  if res then
    let s := if outcome = .done then s else { s with transactionFailed := true }
    let s ← psqlUnlock s
    return (s, outcome = .done)
  else none

/-- `commit` -/
def commit (success : Bool) (s : State α) : Option (State α) := do
  let cbs ← s.commitcbs
  let half := if success then Half.commit else .rollback
  return { s with runs := s.runs ++ cbs.map (·, half), commitcbs := if cbs.isEmpty then some [] else none }

/-- `psql_start`: whether it returns 0. -/
def psqlStart (begun : Outcome) (s : State α) : Option (State α × Bool) := do
  let s := psqlLock s
  let (s, res) ← psqlPrepare begun s
  if s.inTransaction then none
  else if !res then return (s, false)
  else
    let (s, ok) ← psqlRunFree begun res s
    if ok then return ({ s with inTransaction := true, transactionFailed := false, commitcbs := some [] }, true)
    else return (s, false)

/-- `psql_rollback` -/
def psqlRollback (rolled : Outcome) (s : State α) : Option (State α) := do
  let (s, res) ← psqlPrepare rolled s
  if s.inTransaction then
    let (s, _) ← psqlRunFree rolled res s
    let s ← commit false s
    psqlUnlock { s with inTransaction := false }
  else none

/-- `psql_commit`: whether it returns 0. -/
def psqlCommit (committed rolled : Outcome) (s : State α) : Option (State α × Bool) := do
  if s.inTransaction then
    if s.transactionFailed then
      let s ← psqlRollback rolled s
      return (s, false)
    else
      let (s, res) ← psqlPrepare committed s
      let (s, ok) ← psqlRunFree committed res s
      if ok then
        let s ← commit true s
        let s ← psqlUnlock { s with inTransaction := false }
        return (s, true)
      else
        let s ← psqlRollback rolled s
        return (s, false)
  else none

/-- `psql_translation_add_cb` -/
def psqlTranslationAddCb (cb : α) (s : State α) : Option (State α) := do
  if s.inTransaction then
    let cbs ← s.commitcbs
    return { s with commitcbs := some (cbs ++ [cb]) }
  else none

/-- What a caller does. Most callers do not look at what `psql_start` returns. -/
inductive Op (α : Type) where
  | start (begun : Outcome) (checked : Bool)
  | addCb (cb : α)
  | statement (ok : Bool)
  | commit (committed rolled : Outcome)
  | rollback (rolled : Outcome)
deriving DecidableEq, Repr

/-- A statement of the caller, which takes the lock for itself. -/
def statement (ok : Bool) (s : State α) : Option (State α) := do
  let outcome := if ok then Outcome.done else .failed
  let (s, res) ← psqlPrepare outcome s
  let (s, _) ← psqlRunFree outcome res s
  return s

def step (s : State α) : Op α → Option (State α)
  | .start begun _ => (psqlStart begun s).map Prod.fst
  | .addCb cb => psqlTranslationAddCb cb s
  | .statement ok => statement ok s
  | .commit committed rolled => (psqlCommit committed rolled s).map Prod.fst
  | .rollback rolled => psqlRollback rolled s

def exec (ops : List (Op α)) : Option (State α) := ops.foldlM step State.initial

/-- Whether a caller is in a transaction as far as it knows: callbacks are added there, and it is ended once. -/
def caller : Bool → Op α → Option Bool
  | false, .start begun checked => some (begun = .done ∨ checked = false)
  | inside, .statement _ => some inside
  | true, .addCb _ => some true
  | true, .commit _ _ => some false
  | true, .rollback _ => some false
  | _, _ => none

/-- The steps of callers, one transaction after the other. -/
structure Run (α : Type) where
  ops : List (Op α)
  inside : Bool
  performed : ops.foldlM caller false = some inside

end Pclsync.Sql
