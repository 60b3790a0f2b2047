import Pclsync.Sql.Transaction

/-! Runs of transactions. While every `BEGIN` succeeds, the callbacks that were run are those of the transactions that ended,
each with the right function, and the lock is held in transactions only. -/

namespace Pclsync.Proofs.Transaction
open Pclsync.Sql

variable {α : Type}

/-- The transactions that ended with what was committed of them, and the callbacks of the one that is open. -/
structure Ledger (α : Type) where
  finished : List (List α × Half)
  current : List α
  failed : Bool

namespace Ledger

def empty : Ledger α := ⟨[], [], false⟩

def finish (ledger : Ledger α) (half : Half) : Ledger α := { ledger with finished := ledger.finished ++ [(ledger.current, half)] }

/-- What a step is to do: a transaction is committed if `COMMIT` succeeds, which is not run after a statement that failed. -/
def record (ledger : Ledger α) : Op α → Ledger α
  | .start _ _ => { ledger with current := [], failed := false }
  | .addCb cb => { ledger with current := ledger.current ++ [cb] }
  | .statement ok => { ledger with failed := ledger.failed || !ok }
  | .commit committed _ => ledger.finish (if ledger.failed = false ∧ committed = .done then .commit else .rollback)
  | .rollback _ => ledger.finish .rollback

/-- Each callback of each transaction that ended, once. -/
def runs (ledger : Ledger α) : List (α × Half) := ledger.finished.flatMap fun done => done.1.map (·, done.2)

theorem runs_finish (ledger : Ledger α) (half : Half) : (ledger.finish half).runs = ledger.runs ++ ledger.current.map (·, half) := by
  rw [runs, finish, List.flatMap_append, List.flatMap_singleton, runs]

end Ledger

def ledger (ops : List (Op α)) : Ledger α := ops.foldl Ledger.record Ledger.empty

/-- `BEGIN` succeeds, and the end of a transaction can be prepared. -/
def Smooth : Op α → Prop
  | .start begun _ => begun = .done
  | .addCb _ => True
  | .statement _ => True
  | .commit committed rolled => committed ≠ .unprepared ∧ rolled ≠ .unprepared
  | .rollback rolled => rolled ≠ .unprepared

/-- The state agrees with the ledger. -/
structure Kept (inside : Bool) (ledger : Ledger α) (s : State α) : Prop where
  runs : s.runs = ledger.runs
  lock : s.lock = if inside then 1 else 0

/-- What is kept from step to step. -/
structure Inv (inside : Bool) (ledger : Ledger α) (s : State α) : Prop extends Kept inside ledger s where
  flag : s.inTransaction = inside
  cbs : inside = true → s.commitcbs = some ledger.current
  failed : inside = true → s.transactionFailed = ledger.failed

section Functions

variable {s : State α} {outcome committed rolled : Outcome} {cbs : List α}

/-- What a statement that is run leaves: the lock is as it was. -/
def ran (outcome : Outcome) (s : State α) : State α := if outcome = .done then s else { s with transactionFailed := true }

theorem prepare_run (prepared : outcome ≠ .unprepared) : (do
    let (s, res) ← psqlPrepare outcome s
    psqlRunFree outcome res s) = some (ran outcome s, decide (outcome = .done)) := by
  cases outcome with
  | unprepared => exact absurd rfl prepared
  | failed => rfl
  | done => rfl

theorem statement_eq (ok : Bool) : statement ok s = some { s with transactionFailed := s.transactionFailed || !ok } := by
  cases ok with
  | false => rw [Bool.not_false, Bool.or_true]; rfl
  | true => rw [Bool.not_true, Bool.or_false]; rfl

theorem psqlStart_done (outside : s.inTransaction = false) : psqlStart .done s =
    some ({ s with lock := s.lock + 1, inTransaction := true, transactionFailed := false, commitcbs := some [] }, true) := by
  obtain ⟨lock, inTransaction, transactionFailed, commitcbs, runs⟩ := s
  cases outside
  rfl

/-- A transaction that cannot begin keeps the lock. -/
theorem psqlStart_leaks (outside : s.inTransaction = false) (lost : outcome ≠ .done) :
    ∃ after, psqlStart outcome s = some (after, false) ∧ after.lock = s.lock + 1 := by
  obtain ⟨lock, inTransaction, transactionFailed, commitcbs, runs⟩ := s
  cases outside
  cases outcome with
  | unprepared => exact ⟨_, rfl, rfl⟩
  | failed => exact ⟨_, rfl, rfl⟩
  | done => exact absurd rfl lost

/-- The end of a transaction: the callbacks are run with one function, and the lock is given back. -/
structure Ended (half : Half) (cbs : List α) (s after : State α) : Prop where
  runs : after.runs = s.runs ++ cbs.map (·, half)
  lock : after.lock + 1 = s.lock
  flag : after.inTransaction = false

theorem commit_unlock (success : Bool) (registered : s.commitcbs = some cbs) (held : 0 < s.lock) : ∃ after, (do
    let s ← commit success s
    psqlUnlock { s with inTransaction := false }) = some after ∧ Ended (if success then .commit else .rollback) cbs s after := by
  refine ⟨{ s with
    lock := s.lock - 1
    inTransaction := false
    runs := s.runs ++ cbs.map (·, if success then .commit else .rollback)
    commitcbs := if cbs.isEmpty then some [] else none }, ?_, rfl, Nat.sub_add_cancel held, rfl⟩
  rw [commit, registered]
  exact if_pos held

theorem psqlRollback_eq (prepared : rolled ≠ .unprepared) (inside : s.inTransaction = true) : psqlRollback rolled s = (do
    let s ← commit false (ran rolled s)
    psqlUnlock { s with inTransaction := false }) := by
  obtain ⟨lock, inTransaction, transactionFailed, commitcbs, runs⟩ := s
  cases inside
  cases rolled with
  | unprepared => exact absurd rfl prepared
  | failed => rfl
  | done => rfl

theorem psqlRollback_ends (prepared : rolled ≠ .unprepared) (inside : s.inTransaction = true) (registered : s.commitcbs = some cbs)
    (held : 0 < s.lock) : ∃ after, psqlRollback rolled s = some after ∧ Ended .rollback cbs s after := by
  have kept : (ran rolled s).commitcbs = s.commitcbs ∧ (ran rolled s).lock = s.lock ∧ (ran rolled s).runs = s.runs := by
    unfold ran
    split <;> exact ⟨rfl, rfl, rfl⟩
  obtain ⟨after, unlocked, runs, lock, flag⟩ := @commit_unlock _ (ran rolled s) cbs false (kept.1.trans registered) (kept.2.1 ▸ held)
  rw [psqlRollback_eq prepared inside]
  exact ⟨after, unlocked, by rw [runs, kept.2.2]; rfl, by rw [lock, kept.2.1], flag⟩

theorem psqlCommit_eq (prepared : committed ≠ .unprepared) (inside : s.inTransaction = true) : psqlCommit committed rolled s =
    if s.transactionFailed = false ∧ committed = .done then do
      let s ← commit true s
      let s ← psqlUnlock { s with inTransaction := false }
      return (s, true)
    else do
      let s ← psqlRollback rolled { s with transactionFailed := true }
      return (s, false) := by
  obtain ⟨lock, inTransaction, transactionFailed, commitcbs, runs⟩ := s
  cases inside
  cases transactionFailed with
  | true => rfl
  | false =>
    cases committed with
    | unprepared => exact absurd rfl prepared
    | failed => rfl
    | done => rfl

theorem psqlCommit_ends (prepared : committed ≠ .unprepared) (also : rolled ≠ .unprepared) (inside : s.inTransaction = true)
    (registered : s.commitcbs = some cbs) (held : 0 < s.lock) : ∃ after ok, psqlCommit committed rolled s = some (after, ok) ∧
      Ended (if s.transactionFailed = false ∧ committed = .done then .commit else .rollback) cbs s after := by
  rw [psqlCommit_eq prepared inside]
  split
  next =>
    obtain ⟨after, unlocked, ended⟩ := commit_unlock true registered held
    refine ⟨after, true, ?_, ended⟩
    cases done : commit true s with
    | none =>
      rw [done] at unlocked
      cases unlocked
    | some last =>
      rw [done] at unlocked
      exact congrArg (· >>= fun s => some (s, true)) unlocked
  next =>
    obtain ⟨after, rolledBack, runs, lock, flag⟩ := @psqlRollback_ends _ { s with transactionFailed := true } rolled cbs also inside registered held
    refine ⟨after, false, ?_, runs, lock, flag⟩
    rw [rolledBack]
    rfl

end Functions

section Steps

variable {inside later : Bool} {ledger : Ledger α} {s : State α} {op : Op α}

theorem step_inv (inv : Inv inside ledger s) (taken : caller inside op = some later) (smooth : Smooth op) :
    ∃ after, step s op = some after ∧ Inv later (ledger.record op) after := by
  have ends : ∀ {half : Half} {after : State α}, inside = true → Ended half ledger.current s after → Inv false (ledger.finish half) after := by
    rintro half after rfl ended
    have held := inv.lock
    have freed := ended.lock
    rw [if_pos rfl] at held
    refine ⟨⟨?_, ?_⟩, ended.flag, fun impossible => Bool.noConfusion impossible, fun impossible => Bool.noConfusion impossible⟩
    · rw [ended.runs, Ledger.runs_finish, inv.runs]
    · rw [if_neg Bool.false_ne_true]
      omega
  cases op with
  | start begun checked =>
    cases inside with
    | true => cases taken
    | false =>
      obtain rfl : begun = .done := smooth
      cases taken
      refine ⟨_, congrArg (Option.map Prod.fst) (psqlStart_done inv.flag), ⟨inv.runs, ?_⟩, rfl, fun _ => rfl, fun _ => rfl⟩
      change s.lock + 1 = 1
      rw [inv.lock]
      rfl
  | addCb cb =>
    cases inside with
    | false => cases taken
    | true =>
      cases taken
      refine ⟨{ s with commitcbs := some (ledger.current ++ [cb]) }, ?_, ⟨inv.runs, inv.lock⟩, inv.flag, fun _ => rfl, inv.failed⟩
      rw [step, psqlTranslationAddCb, inv.flag, inv.cbs rfl]
      rfl
  | statement ok =>
    have same : later = inside := by cases inside <;> cases taken <;> rfl
    subst same
    refine ⟨_, statement_eq ok, ⟨inv.runs, inv.lock⟩, inv.flag, inv.cbs, fun open' => ?_⟩
    change (s.transactionFailed || !ok) = (ledger.failed || !ok)
    rw [inv.failed open']
  | commit committed rolled =>
    cases inside with
    | false => cases taken
    | true =>
      cases taken
      obtain ⟨after, ok, done, ended⟩ := psqlCommit_ends smooth.1 smooth.2 inv.flag (inv.cbs rfl) (by rw [inv.lock]; decide)
      rw [inv.failed rfl] at ended
      exact ⟨after, congrArg (Option.map Prod.fst) done, ends rfl ended⟩
  | rollback rolled =>
    cases inside with
    | false => cases taken
    | true =>
      cases taken
      obtain ⟨after, done, ended⟩ := psqlRollback_ends smooth inv.flag (inv.cbs rfl) (by rw [inv.lock]; decide)
      exact ⟨after, done, ends rfl ended⟩

theorem exec_inv (ops : List (Op α)) (performed : ops.foldlM caller inside = some later) (smooth : ∀ op ∈ ops, Smooth op)
    (inv : Inv inside ledger s) : ∃ after, ops.foldlM step s = some after ∧ Inv later (ops.foldl Ledger.record ledger) after := by
  induction ops generalizing inside ledger s with
  | nil =>
    cases performed
    exact ⟨s, rfl, inv⟩
  | cons op ops ih =>
    rw [List.foldlM_cons] at performed
    cases taken : caller inside op with
    | none =>
      rw [taken] at performed
      cases performed
    | some middle =>
      rw [taken] at performed
      obtain ⟨next, stepped, kept⟩ := step_inv inv taken (smooth op List.mem_cons_self)
      obtain ⟨after, ran, last⟩ := ih performed (fun op member => smooth op (List.mem_cons_of_mem _ member)) kept
      refine ⟨after, ?_, last⟩
      rw [List.foldlM_cons, stepped]
      exact ran

end Steps

theorem initial_inv : Inv false Ledger.empty (State.initial : State α) where
  runs := rfl
  lock := rfl
  flag := rfl
  cbs impossible := Bool.noConfusion impossible
  failed impossible := Bool.noConfusion impossible

/-- In a run in which every `BEGIN` succeeds, each callback is run once, when its own transaction ends and with the function
that belongs to its end, and the lock is held as long as callers are in a transaction. -/
theorem run_kept (run : Run α) (smooth : ∀ op ∈ run.ops, Smooth op) :
    ∃ state, exec run.ops = some state ∧ Kept run.inside (ledger run.ops) state := by
  obtain ⟨state, ran, inv⟩ := exec_inv run.ops run.performed smooth initial_inv
  exact ⟨state, ran, inv.toKept⟩

/-- A transaction of which a statement fails, and one that is committed. -/
def two : Run ℕ where
  ops := [.start .done true, .addCb 1, .statement false, .commit .done .done, .statement true, .start .done false, .addCb 2, .commit .done .done]
  inside := false
  performed := rfl

theorem two_kept : ∃ state, exec two.ops = some state ∧ Kept false (ledger two.ops) state :=
  run_kept two (by simp [two, Smooth])

/-- A caller that looks at the result of `psql_start` goes on without the lock that it has. -/
def lost : Run ℕ where
  ops := [.start .failed true]
  inside := false
  performed := rfl

theorem leaked : ¬∀ run : Run ℕ, ∃ state, exec run.ops = some state ∧ Kept run.inside (ledger run.ops) state := by
  intro all
  obtain ⟨state, executed, kept⟩ := all lost
  obtain ⟨after, started, lock⟩ := @psqlStart_leaks ℕ State.initial .failed rfl (by decide)
  have same : exec lost.ops = some after := by
    change ((psqlStart .failed State.initial).map Prod.fst >>= some) = some after
    rw [started]
    rfl
  rw [same] at executed
  cases executed
  have free := kept.lock
  rw [lock] at free
  cases free

end Pclsync.Proofs.Transaction
