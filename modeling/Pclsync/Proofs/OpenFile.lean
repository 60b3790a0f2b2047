import Pclsync.Fs.OpenFile

/-! The count of an open file is the number of those that have a reference to it, whatever
happens in which order. -/

namespace Pclsync.Proofs.OpenFile
open Pclsync.Fs.Open

variable {of next : OpenFile} {files after : Files} {event : Event} {id : ℕ} {flushed : Bool}

/-- Those who will call `psync_fs_dec_of_refcnt` once more. -/
def holders (of : OpenFile) : ℕ := of.handles + of.closing + of.expired + of.releasing + of.helpers

/-- A timer whose callback was not called. -/
def Pending (of : OpenFile) (id : ℕ) : Prop := ∃ timer, of.timers id = some timer ∧ timer.called = false

/-- The timers of a file: the one that it knows waits for its callback, and all others were
called and will not be armed again. -/
structure Timed (of : OpenFile) : Prop where
  known : ∀ id, Pending of id ↔ of.writetimer = some id
  called : ∀ id timer, of.timers id = some timer → timer.called = true → timer.isRunning = true ∧ timer.stopAfterRun = true
  fresh : ∀ id, of.nextTimer ≤ id → of.timers id = none

/-- A file is in the tree until its count is zero, and freed then. -/
structure Living (of : OpenFile) : Prop where
  linked : of.linked = true ↔ of.refcnt ≠ 0
  frees : of.frees = if of.refcnt = 0 then 1 else 0

structure Inv (of : OpenFile) : Prop where
  timed : Timed of
  living : Living of
  count : of.refcnt = holders of + if of.writetimer.isSome then 1 else 0

theorem create_inv (fileid : ℤ) (writeid : ℕ) (setup : Setup) : Inv ((OpenFile.create fileid writeid).setup setup) where
  timed := by
    refine ⟨fun id => ⟨?_, ?_⟩, ?_, fun id _ => rfl⟩
    · rintro ⟨timer, there, _⟩
      cases there
    · rintro ⟨⟩
    · rintro id timer ⟨⟩
  living := ⟨by simp [OpenFile.setup, OpenFile.create], by simp [OpenFile.setup, OpenFile.create]⟩
  count := rfl

/-- The timer that the file knows is there. -/
theorem Timed.get (timed : Timed of) (own : of.writetimer = some id) : ∃ timer, of.timers id = some timer ∧ timer.called = false :=
  (timed.known id).mpr own

theorem stop_running {timer : Timer} (there : of.timers id = some timer) (running : timer.isRunning = true) :
    of.ptimerStop id = some (true, of.setTimer id (some { timer with stopAfterRun := true })) := by
  simp [OpenFile.ptimerStop, there, running]

theorem stop_armed {timer : Timer} (there : of.timers id = some timer) (armed : timer.isRunning = false) :
    of.ptimerStop id = some (false, of.setTimer id none) := by
  simp [OpenFile.ptimerStop, there, armed]

/-- A timer changes, but not whether it waits. -/
theorem Timed.change {timer other : Timer} (timed : Timed of) (there : of.timers id = some timer) (same : other.called = timer.called)
    (marked : other.called = true → other.isRunning = true ∧ other.stopAfterRun = true) : Timed (of.setTimer id (some other)) where
  known := by
    intro x
    have before := timed.known x
    by_cases here : x = id
    · subst here
      simpa [Pending, OpenFile.setTimer, there, same] using before
    · simpa [Pending, OpenFile.setTimer, here] using before
  called := by
    intro x found has
    by_cases here : x = id
    · subst here
      simp only [OpenFile.setTimer, Function.update_self, Option.some.injEq] at has
      exact has ▸ marked
    · simp only [OpenFile.setTimer, Function.update_of_ne here] at has
      exact timed.called x found has
  fresh := by
    intro x new
    by_cases here : x = id
    · subst here
      rw [timed.fresh x new] at there
      cases there
    · simpa [OpenFile.setTimer, here] using timed.fresh x new

/-- The timer that the file knows is there no more, or was called. -/
theorem Timed.clear {timer : Option Timer} (timed : Timed of) (own : of.writetimer = some id)
    (gone : ∀ other, timer = some other → other.called = true ∧ other.isRunning = true ∧ other.stopAfterRun = true) :
    Timed { of.setTimer id timer with writetimer := none } where
  known := by
    intro x
    have before := timed.known x
    simp only [reduceCtorEq, iff_false]
    rintro ⟨found, has, waits⟩
    by_cases here : x = id
    · subst here
      simp only [OpenFile.setTimer, Function.update_self] at has
      rw [(gone found has).1] at waits
      cases waits
    · simp only [OpenFile.setTimer, Function.update_of_ne here] at has
      have known := before.mp ⟨found, has, waits⟩
      rw [own] at known
      exact here (Option.some.inj known).symm
  called := by
    intro x found has
    by_cases here : x = id
    · subst here
      simp only [OpenFile.setTimer, Function.update_self] at has
      exact fun _ => (gone found has).2
    · simp only [OpenFile.setTimer, Function.update_of_ne here] at has
      exact timed.called x found has
  fresh := by
    intro x new
    obtain ⟨found, there, _⟩ := timed.get own
    by_cases here : x = id
    · subst here
      rw [timed.fresh x new] at there
      cases there
    · simpa [OpenFile.setTimer, here] using timed.fresh x new

/-- A new timer, when there is none that waits. -/
theorem Timed.register (timed : Timed of) (free : of.writetimer = none) : Timed of.ptimerRegister where
  known := by
    intro x
    have before := timed.known x
    rw [free] at before
    by_cases here : x = of.nextTimer
    · simp [Pending, OpenFile.ptimerRegister, OpenFile.setTimer, here]
    · simp only [Pending, OpenFile.ptimerRegister, OpenFile.setTimer, Function.update_of_ne here, Option.some.injEq, Ne.symm here, iff_false]
      simpa [Pending] using before
  called := by
    intro x found has
    by_cases here : x = of.nextTimer
    · subst here
      simp only [OpenFile.ptimerRegister, OpenFile.setTimer, Function.update_self, Option.some.injEq] at has
      intro called
      rw [← has] at called
      cases called
    · simp only [OpenFile.ptimerRegister, OpenFile.setTimer, Function.update_of_ne here] at has
      exact timed.called x found has
  fresh := by
    intro x new
    simp only [OpenFile.ptimerRegister] at new
    have here : x ≠ of.nextTimer := by omega
    simpa [OpenFile.ptimerRegister, OpenFile.setTimer, here] using timed.fresh x (by omega)

theorem Living.inc (living : Living of) (some : of.refcnt ≠ 0) : Living of.incRefcnt := by
  have linked := living.linked.mpr some
  have unfreed : of.frees = 0 := by rw [living.frees, if_neg some]
  constructor
  · simp [OpenFile.incRefcnt, linked]
  · simp [OpenFile.incRefcnt, unfreed]

theorem Living.dec (living : Living of) (some : of.refcnt ≠ 0) : Living of.decRefcnt := by
  have linked := living.linked.mpr some
  have unfreed : of.frees = 0 := by rw [living.frees, if_neg some]
  rw [OpenFile.decRefcnt]
  split
  next last =>
    have last : of.refcnt - 1 = 0 := last
    exact ⟨by simp [last], by simp [last, unfreed]⟩
  next others =>
    have others : of.refcnt - 1 ≠ 0 := others
    exact ⟨by simp [linked, others], by simp [others, unfreed]⟩

theorem decRefcnt_timed (timed : Timed of) : Timed of.decRefcnt := by
  rw [OpenFile.decRefcnt]
  split
  · exact ⟨timed.known, timed.called, timed.fresh⟩
  · exact ⟨timed.known, timed.called, timed.fresh⟩

@[simp] theorem decRefcnt_refcnt : of.decRefcnt.refcnt = of.refcnt - 1 := by
  rw [OpenFile.decRefcnt]
  split <;> rfl

@[simp] theorem decRefcnt_writetimer : of.decRefcnt.writetimer = of.writetimer := by
  rw [OpenFile.decRefcnt]
  split <;> rfl

/-- The count with the timer that the file knows. -/
theorem Inv.count_some (inv : Inv of) (own : of.writetimer = some id) : of.refcnt = holders of + 1 := by
  rw [inv.count, own]
  rfl

theorem Inv.count_none (inv : Inv of) (free : of.writetimer = none) : of.refcnt = holders of := by
  rw [inv.count, free]
  rfl

/-- The timer that the file knows is marked as running, or stopped. -/
theorem stop_inv (inv : Inv of) (own : of.writetimer = some id) :
    (∃ next, of.ptimerStop id = some (true, next) ∧ Inv next ∧ next.handles = of.handles) ∨
      of.ptimerStop id = some (false, of.setTimer id none) := by
  obtain ⟨timer, there, waits⟩ := inv.timed.get own
  cases running : timer.isRunning with
  | true =>
    left
    have timed : Timed (of.setTimer id (some { timer with stopAfterRun := true })) :=
      inv.timed.change there rfl fun _ => ⟨running, rfl⟩
    exact ⟨_, stop_running there running, ⟨timed, ⟨inv.living.linked, inv.living.frees⟩, inv.count⟩, rfl⟩
  | false => exact .inr (stop_armed there running)

theorem stopped_timed (inv : Inv of) (own : of.writetimer = some id) : Timed { of.setTimer id none with writetimer := none } := by
  apply inv.timed.clear own
  rintro other ⟨⟩

theorem incWriteid_inv (inv : Inv of) (held : 0 < of.handles) : ∃ next, of.incWriteid = some next ∧ Inv next := by
  have used : of.refcnt ≠ 0 := by
    have count := inv.count
    rw [holders] at count
    omega
  have marked : Inv { of with releasedforupload := false, writeid := of.writeid + 1 } :=
    ⟨⟨inv.timed.known, inv.timed.called, inv.timed.fresh⟩, ⟨inv.living.linked, inv.living.frees⟩, inv.count⟩
  have markedUsed : { of with releasedforupload := false, writeid := of.writeid + 1 }.refcnt ≠ 0 := used
  rw [OpenFile.incWriteid]
  revert marked markedUsed
  generalize { of with releasedforupload := false, writeid := of.writeid + 1 } = of
  intro inv used
  cases own : of.writetimer with
  | none =>
    have timed : Timed of.incRefcnt := ⟨inv.timed.known, inv.timed.called, inv.timed.fresh⟩
    have living := inv.living.inc used
    refine ⟨_, rfl, timed.register own, ⟨living.linked, living.frees⟩, ?_⟩
    have count : of.incRefcnt.refcnt = holders of + 1 := congrArg (· + 1) (inv.count_none own)
    exact count
  | some id =>
    obtain ⟨next, stops, after, _⟩ | stops := stop_inv inv own
    · exact ⟨next, by simp only [stops], after⟩
    · refine ⟨(of.setTimer id none).ptimerRegister, by simp only [stops], ?_, ⟨inv.living.linked, inv.living.frees⟩, ?_⟩
      · exact (stopped_timed inv own).register rfl
      · exact inv.count_some own

theorem flush_inv (inv : Inv of) (held : 0 < of.handles) : ∃ next, of.flush flushed = some next ∧ Inv next ∧ next.handles = of.handles := by
  rw [OpenFile.flush]
  split
  · exact ⟨of, rfl, inv, rfl⟩
  next =>
    have marked : Inv { of with releasedforupload := true } :=
      ⟨⟨inv.timed.known, inv.timed.called, inv.timed.fresh⟩, ⟨inv.living.linked, inv.living.frees⟩, inv.count⟩
    have markedHeld : 0 < { of with releasedforupload := true }.handles := held
    have same : { of with releasedforupload := true }.handles = of.handles := rfl
    revert marked markedHeld same
    generalize { of with releasedforupload := true } = marked
    intro inv held same
    cases own : marked.writetimer with
    | none => exact ⟨marked, by simp only [own], inv, same⟩
    | some id =>
      obtain ⟨next, stops, after, kept⟩ | stops := stop_inv inv own
      · exact ⟨next, by simp only [own, stops], after, kept.trans same⟩
      · refine ⟨{ marked.setTimer id none with refcnt := marked.refcnt - 1, writetimer := none }, by simp only [own, stops]; rfl, ?_, same⟩
        have count := inv.count_some own
        have others : marked.refcnt - 1 ≠ 0 := by
          rw [holders] at count
          omega
        have linked := inv.living.linked.mpr (by omega)
        have unfreed : marked.frees = 0 := by rw [inv.living.frees, if_neg (by omega)]
        have timed := stopped_timed inv own
        refine ⟨⟨timed.known, timed.called, timed.fresh⟩, ⟨?_, ?_⟩, ?_⟩
        · simp [OpenFile.setTimer, linked, others]
        · simp [OpenFile.setTimer, unfreed, others]
        · simp only [count, Nat.add_sub_cancel]
          rfl

/-- The callback of a timer that runs. -/
theorem call_inv (inv : Inv of) {timer : Timer} (there : of.timers id = some timer) (running : timer.isRunning = true)
    (waits : timer.called = false) :
    ∃ next, (of.setTimer id (some { timer with called := true })).writeTimer id flushed = some next ∧ Inv next := by
  have own : of.writetimer = some id := (inv.timed.known id).mp ⟨timer, there, waits⟩
  have count := inv.count_some own
  have stops : (of.setTimer id (some { timer with called := true })).ptimerStop id =
      some (true, of.setTimer id (some { timer with called := true, stopAfterRun := true })) := by
    simp [OpenFile.ptimerStop, OpenFile.setTimer, running]
  have timed : Timed { of.setTimer id (some { timer with called := true, stopAfterRun := true }) with writetimer := none } := by
    apply inv.timed.clear own
    intro other same
    rw [← Option.some.inj same]
    exact ⟨rfl, running, rfl⟩
  rw [OpenFile.writeTimer, stops]
  simp only
  -- the reference of the timer goes to the callback or to the thread that it starts
  split_ifs
  all_goals
    refine ⟨_, rfl, ⟨timed.known, timed.called, timed.fresh⟩, ⟨inv.living.linked, inv.living.frees⟩, ?_⟩
    simp only [holders, OpenFile.setTimer, Option.isSome_none, Bool.false_eq_true, if_false] at count ⊢
    omega

/-- The count after some have come and others have gone. -/
theorem Inv.recount {after : OpenFile} (inv : Inv of) (same : after.writetimer = of.writetimer)
    (shift : after.refcnt + holders of = of.refcnt + holders after) :
    after.refcnt = holders after + if after.writetimer.isSome then 1 else 0 := by
  have count := inv.count
  rw [same]
  omega

/-- Somebody gives up a reference. -/
theorem Inv.drop {after : OpenFile} (inv : Inv of)
    (same : after = { of.decRefcnt with
      handles := after.handles, closing := after.closing, expired := after.expired, releasing := after.releasing, helpers := after.helpers })
    (less : holders of = holders after + 1) : Inv after := by
  have count := inv.count
  have timed := decRefcnt_timed inv.timed
  have living := inv.living.dec (show of.refcnt ≠ 0 by omega)
  have writetimer : after.writetimer = of.writetimer := by rw [same]; exact decRefcnt_writetimer
  have refcnt : after.refcnt = of.refcnt - 1 := by rw [same]; exact decRefcnt_refcnt
  have recount := inv.recount writetimer (show after.refcnt + holders of = of.refcnt + holders after by omega)
  refine ⟨?_, ?_, recount⟩
  · rw [same]
    exact ⟨timed.known, timed.called, timed.fresh⟩
  · rw [same]
    exact ⟨living.linked, living.frees⟩

/-- A call of `psync_fs_dec_of_refcnt` does not count the holders. -/
theorem decRefcnt_counts (of : OpenFile) : of.decRefcnt.handles = of.handles ∧ of.decRefcnt.closing = of.closing ∧ of.decRefcnt.expired = of.expired ∧
    of.decRefcnt.releasing = of.releasing ∧ of.decRefcnt.helpers = of.helpers := by
  rw [OpenFile.decRefcnt]
  split <;> exact ⟨rfl, rfl, rfl, rfl, rfl⟩

/-- A timer that was called goes away. -/
theorem Timed.finish {timer : Timer} (timed : Timed of) (there : of.timers id = some timer) (called : timer.called = true) :
    Timed (of.setTimer id none) where
  known := by
    intro x
    have before : Pending of x ↔ (of.setTimer id none).writetimer = some x := timed.known x
    by_cases here : x = id
    · subst here
      rw [← before]
      simp [Pending, OpenFile.setTimer, there, called]
    · simpa [Pending, OpenFile.setTimer, here] using before
  called := by
    intro x found has
    by_cases here : x = id
    · simp [OpenFile.setTimer, here] at has
    · simp only [OpenFile.setTimer, Function.update_of_ne here] at has
      exact timed.called x found has
  fresh := by
    intro x new
    by_cases here : x = id
    · simp [OpenFile.setTimer, here]
    · simpa [OpenFile.setTimer, here] using timed.fresh x new

/-- Each step with a file keeps the invariant. -/
theorem step_inv (inv : Inv of) (goes : of.step event = some next) : Inv next := by
  have used : 0 < of.handles → of.refcnt ≠ 0 := by
    intro held
    have count := inv.count
    rw [holders] at count
    omega
  obtain ⟨handles, closing, expired, releasing, helpers⟩ := decRefcnt_counts of
  cases event with
  | opened setup =>
    simp only [OpenFile.step, Option.ite_none_right_eq_some, Option.some.injEq] at goes
    obtain ⟨linked, rfl⟩ := goes
    have living := inv.living.inc (inv.living.linked.mp linked)
    refine ⟨⟨inv.timed.known, inv.timed.called, inv.timed.fresh⟩, ⟨living.linked, living.frees⟩, inv.recount rfl ?_⟩
    simp only [holders, OpenFile.setup, OpenFile.incRefcnt]
    omega
  | openFailed =>
    simp only [OpenFile.step, Option.ite_none_right_eq_some, Option.some.injEq] at goes
    obtain ⟨held, rfl⟩ := goes
    refine ⟨⟨inv.timed.known, inv.timed.called, inv.timed.fresh⟩, ⟨inv.living.linked, inv.living.frees⟩, inv.recount rfl ?_⟩
    simp only [holders]
    omega
  | write =>
    simp only [OpenFile.step, Option.ite_none_right_eq_some] at goes
    obtain ⟨held, goes⟩ := goes
    obtain ⟨other, same, after⟩ := incWriteid_inv inv held
    rw [same, Option.some.injEq] at goes
    exact goes ▸ after
  | reopen =>
    simp only [OpenFile.step, Option.ite_none_right_eq_some, Option.some.injEq] at goes
    obtain ⟨held, rfl⟩ := goes
    exact ⟨⟨inv.timed.known, inv.timed.called, inv.timed.fresh⟩, ⟨inv.living.linked, inv.living.frees⟩, inv.count⟩
  | uploaded writeid newfileid =>
    simp only [OpenFile.step, Option.ite_none_right_eq_some, Option.some.injEq] at goes
    obtain ⟨linked, rfl⟩ := goes
    exact ⟨⟨inv.timed.known, inv.timed.called, inv.timed.fresh⟩, ⟨inv.living.linked, inv.living.frees⟩, inv.count⟩
  | flush flushed =>
    simp only [OpenFile.step, Option.ite_none_right_eq_some] at goes
    obtain ⟨held, goes⟩ := goes
    obtain ⟨other, same, after, _⟩ := flush_inv inv held
    rw [same, Option.some.injEq] at goes
    exact goes ▸ after
  | release flushed =>
    simp only [OpenFile.step, Option.ite_none_right_eq_some] at goes
    obtain ⟨held, goes⟩ := goes
    obtain ⟨other, same, after, kept⟩ := flush_inv inv held
    rw [same, Option.map_some, Option.some.injEq] at goes
    subst goes
    refine ⟨⟨after.timed.known, after.timed.called, after.timed.fresh⟩, ⟨after.living.linked, after.living.frees⟩, after.recount rfl ?_⟩
    simp only [holders]
    omega
  | close =>
    simp only [OpenFile.step, Option.ite_none_right_eq_some, Option.some.injEq] at goes
    obtain ⟨some, rfl⟩ := goes
    apply inv.drop rfl
    simp only [holders, handles, expired, releasing, helpers]
    omega
  | prepare id =>
    simp only [OpenFile.step] at goes
    split at goes
    next timer there =>
      simp only [Option.ite_none_left_eq_some, Option.some.injEq] at goes
      obtain ⟨armed, rfl⟩ := goes
      refine ⟨inv.timed.change there rfl ?_, ⟨inv.living.linked, inv.living.frees⟩, inv.count⟩
      intro called
      exact ⟨rfl, (inv.timed.called id timer there called).2⟩
    next => cases goes
  | call id flushed =>
    simp only [OpenFile.step] at goes
    split at goes
    next timer there =>
      simp only [Option.ite_none_right_eq_some, Bool.not_eq_true] at goes
      obtain ⟨⟨running, waits⟩, goes⟩ := goes
      obtain ⟨other, same, after⟩ := call_inv inv there running waits
      rw [same, Option.some.injEq] at goes
      exact goes ▸ after
    next => cases goes
  | expire =>
    simp only [OpenFile.step, Option.ite_none_right_eq_some, Option.some.injEq] at goes
    obtain ⟨some, rfl⟩ := goes
    apply inv.drop rfl
    simp only [holders, handles, closing, releasing, helpers]
    omega
  | finish id =>
    simp only [OpenFile.step] at goes
    split at goes
    next timer there =>
      simp only [Option.ite_none_right_eq_some, Option.some.injEq] at goes
      obtain ⟨called, rfl⟩ := goes
      rw [if_pos (inv.timed.called id timer there called).2]
      exact ⟨inv.timed.finish there called, ⟨inv.living.linked, inv.living.frees⟩, inv.count⟩
    next => cases goes
  | released =>
    simp only [OpenFile.step, Option.ite_none_right_eq_some, Option.some.injEq] at goes
    obtain ⟨some, rfl⟩ := goes
    apply inv.drop rfl
    simp only [holders, handles, closing, expired, helpers]
    omega
  | help =>
    simp only [OpenFile.step, Option.ite_none_right_eq_some, Option.some.injEq] at goes
    obtain ⟨held, rfl⟩ := goes
    have living := inv.living.inc (used held)
    refine ⟨⟨inv.timed.known, inv.timed.called, inv.timed.fresh⟩, ⟨living.linked, living.frees⟩, inv.recount rfl ?_⟩
    simp only [holders, OpenFile.incRefcnt]
    omega
  | helped =>
    simp only [OpenFile.step, Option.ite_none_right_eq_some, Option.some.injEq] at goes
    obtain ⟨some, rfl⟩ := goes
    apply inv.drop rfl
    simp only [holders, handles, closing, expired, releasing]
    omega

/-- What holds of the references to a file. -/
structure Right (of : OpenFile) : Prop where
  count : of.refcnt = (of.handles + of.closing) + {id | Pending of id}.ncard + (of.expired + of.releasing + of.helpers)
  linked : of.linked = true ↔ of.refcnt ≠ 0
  frees : of.frees = if of.refcnt = 0 then 1 else 0
  unarmed : of.refcnt = 0 → ∀ id, ¬ Pending of id
  timer : ∀ id, of.writetimer = some id → ∃ timer, of.timers id = some timer

theorem Inv.right (inv : Inv of) : Right of := by
  have same : {id | Pending of id} = {id | of.writetimer = some id} := Set.ext inv.timed.known
  have armed : {id | Pending of id}.ncard = if of.writetimer.isSome then 1 else 0 := by
    rw [same]
    cases of.writetimer with
    | none => simp
    | some own => simp
  refine ⟨?_, inv.living.linked, inv.living.frees, ?_, ?_⟩
  · rw [armed, inv.count, holders]
    omega
  · intro none id waits
    have count := inv.count_some ((inv.timed.known id).mp waits)
    omega
  · intro id own
    obtain ⟨timer, there, _⟩ := inv.timed.get own
    exact ⟨timer, there⟩

/-- The runs of all files, from when none was opened. -/
inductive Run : Files → Prop where
  | init (file : ℕ → OpenFile) : Run ⟨file, 0⟩
  | step {files after : Files} : Run files → Step files after → Run after

theorem run_inv (run : Run files) : ∀ i < files.next, Inv (files.file i) := by
  induction run with
  | init => exact fun i inside => absurd inside (Nat.not_lt_zero i)
  | @step files after _ step inv =>
    cases step with
    | create fileid writeid setup absent =>
      intro i inside
      simp only at inside
      by_cases here : i = files.next
      · subst here
        simpa using create_inv fileid writeid setup
      · simpa [here] using inv i (by omega)
    | event i event inside goes =>
      intro other below
      by_cases here : other = i
      · subst here
        simpa using step_inv (inv other inside) goes
      · simpa [here] using inv other below

/-- Nothing can happen to a file that was freed. The timer thread may still free a timer. -/
theorem Inv.unused (inv : Inv of) (freed : of.refcnt = 0) (goes : of.step event = some next) : ∃ id, event = .finish id := by
  have unlinked : ¬ of.linked = true := fun linked => inv.living.linked.mp linked freed
  have count := inv.right.count
  have unarmed := inv.right.unarmed freed
  have none : of.handles = 0 ∧ of.closing = 0 ∧ of.expired = 0 ∧ of.releasing = 0 ∧ of.helpers = 0 := by omega
  obtain ⟨handles, closing, expired, releasing, helpers⟩ := none
  cases event with
  | finish id => exact ⟨id, rfl⟩
  | prepare id =>
    simp only [OpenFile.step] at goes
    split at goes
    next timer there =>
      simp only [Option.ite_none_left_eq_some] at goes
      have waits : timer.called = false := by
        by_contra called
        exact goes.1 (inv.timed.called id timer there (by simpa using called)).1
      exact absurd ⟨timer, there, waits⟩ (unarmed id)
    next => cases goes
  | call id flushed =>
    simp only [OpenFile.step] at goes
    split at goes
    next timer there =>
      simp only [Option.ite_none_right_eq_some, Bool.not_eq_true] at goes
      exact absurd ⟨timer, there, goes.1.2⟩ (unarmed id)
    next => cases goes
  | _ => simp [OpenFile.step, unlinked, handles, closing, expired, releasing, helpers] at goes

/-- In every run the count of every file is right, nothing happens to a file that was freed,
and no call meets a timer that is not there any more. -/
theorem run_counts (run : Run files) {i : ℕ} (inside : i < files.next) :
    Right (files.file i) ∧
      ((files.file i).refcnt = 0 → ∀ event next, (files.file i).step event = some next → ∃ id, event = .finish id) ∧
      (0 < (files.file i).handles →
        (∃ next, (files.file i).step .write = some next) ∧ ∀ flushed, ∃ next, (files.file i).step (.flush flushed) = some next) := by
  have inv := run_inv run i inside
  refine ⟨inv.right, fun freed event next goes => inv.unused freed goes, fun held => ⟨?_, fun flushed => ?_⟩⟩
  · obtain ⟨next, same, _⟩ := incWriteid_inv inv held
    exact ⟨next, by rw [OpenFile.step, if_pos held, same]⟩
  · obtain ⟨next, same, _⟩ := flush_inv inv held
    exact ⟨next, by rw [OpenFile.step, if_pos held, same]⟩

/-- A new file is written to and closed while its timer runs. -/
theorem run_counts_written : ∃ files, Run files ∧ Right (files.file 0) ∧ (files.file 0).refcnt = 0 ∧ (files.file 0).frees = 1 := by
  have created : Run _ := .step (.init fun _ => .create 0 0) (.create (-7) 0 ⟨none, none, false⟩ (fun i inside => absurd inside (Nat.not_lt_zero i)))
  have writes : Run _ := .step created (.event 0 .write Nat.one_pos rfl)
  have fires : Run _ := .step writes (.event 0 (.prepare 0) Nat.one_pos rfl)
  have releases : Run _ := .step fires (.event 0 (.release true) Nat.one_pos rfl)
  have calls : Run _ := .step releases (.event 0 (.call 0 true) Nat.one_pos rfl)
  have closes : Run _ := .step calls (.event 0 .close Nat.one_pos rfl)
  have expires : Run _ := .step closes (.event 0 .expire Nat.one_pos rfl)
  exact ⟨_, expires, (run_counts expires Nat.one_pos).1, rfl, rfl⟩

end Pclsync.Proofs.OpenFile
