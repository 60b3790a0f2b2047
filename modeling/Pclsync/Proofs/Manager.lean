import Pclsync.Library.LastOut
import Pclsync.Tasks.Manager

/-! Each result of a task manager has one owner, no waiter misses one, and the last thread frees
the manager, as long as the owner does not read the count while a task gives up its reference. -/

namespace Pclsync.Proofs.Manager
open Pclsync.Library Pclsync.Tasks

variable {taskcnt : ℕ}

def placePhase : Place → LastOut.Phase
  | .run => .sharing
  | .wait => .sharing
  | .woken => .sharing
  | .back => .sharing
  | .release zero => .leaving zero
  | .destroy => .destroying
  | .gone => .gone

def ownerPhase : Owner taskcnt → LastOut.Phase
  | .idle => .sharing
  | .wait _ => .sharing
  | .woken _ => .sharing
  | .destroyLast => .last
  | .freeing => .sharing
  | .release zero => .leaving zero
  | .destroy => .destroying
  | .gone => .gone

/-- The manager as an object that its tasks and its owner share. -/
def shared (tm : Manager taskcnt) : LastOut.Shared (Option (Fin taskcnt)) where
  phase thread := thread.elim (ownerPhase tm.owner) fun id => placePhase (tm.task id)
  locked := tm.locked
  refcnt := tm.refcnt
  frees := tm.frees

/-- The owner waits for a task. -/
def On (owner : Owner taskcnt) (id : Fin taskcnt) : Prop := owner = .wait id ∨ owner = .woken id

/-- The owner has given up the results. -/
def Left : Owner taskcnt → Prop
  | .destroyLast => True
  | .release _ => True
  | .destroy => True
  | .gone => True
  | _ => False

/-- The thread of a task is behind `psync_task_complete`. -/
def Past (place : Place) : Prop := place ≠ .run ∧ place ≠ .wait ∧ place ≠ .woken

/-- What a task, its status, the return value and the number of times that the owner has the
result can be together. -/
inductive Fits (owner : Owner taskcnt) (id : Fin taskcnt) : Place → Status → Option Bool → ℕ → Prop where
  | running : Fits owner id .run .running none 0
  | skipped {place : Place} (past : Past place) : Fits owner id place .running none 0
  | asleep (free : ¬ On owner id) (stays : ¬ Left owner) : Fits owner id .wait .ready none 0
  | woken (free : ¬ On owner id) (stays : ¬ Left owner) : Fits owner id .woken .ready none 0
  | taken (free : ¬ On owner id) : Fits owner id .woken .done none 1
  | returned (left : Left owner) : Fits owner id .woken .returned none 0
  | handed {place : Place} (past : Past place) (own : owner = .woken id) : Fits owner id place .ready (some true) 0
  | done {place : Place} (past : Past place) (free : ¬ On owner id) : Fits owner id place .done (some true) 1
  | refused {place : Place} {status : Status} (past : Past place) (left : Left owner) (back : status = .running ∨ status = .returned) : Fits owner id place status (some false) 0

/-- What `waitfor` says about the owner. -/
def waitedFor : Owner taskcnt → WaitFor taskcnt
  | .idle => .nobody
  | .wait id => .task id
  | .woken id => .task id
  | .destroyLast => .nobody
  | .freeing => .nobody
  | .release _ => .freed
  | .destroy => .freed
  | .gone => .freed

structure Inv (tm : Manager taskcnt) : Prop where
  count : LastOut.Inv (shared tm)
  unbroken : tm.broken = false
  fits : ∀ id, Fits tm.owner id (tm.task id) (tm.status id) (tm.completed id) (tm.taken id)
  waits : tm.frees = 0 → tm.waitfor = waitedFor tm.owner

variable {tm next : Manager taskcnt} {id other : Fin taskcnt} {owner : Owner taskcnt} {place : Place} {status : Status}
  {completed : Option Bool} {taken : ℕ} {event : Event taskcnt}

theorem Fits.mono {after : Owner taskcnt} (fits : Fits owner id place status completed taken) (on : On after id → On owner id)
    (left : Left owner ↔ Left after) (handed : owner = .woken id → after = .woken id) : Fits after id place status completed taken := by
  cases fits with
  | running => exact .running
  | skipped past => exact .skipped past
  | asleep free stays => exact .asleep (fun own => free (on own)) fun own => stays (left.mpr own)
  | woken free stays => exact .woken (fun own => free (on own)) fun own => stays (left.mpr own)
  | taken free => exact .taken fun own => free (on own)
  | returned own => exact .returned (left.mp own)
  | handed past own => exact .handed past (handed own)
  | done past free => exact .done past fun own => free (on own)
  | refused past own back => exact .refused past (left.mp own) back

theorem Fits.move {after : Place} (fits : Fits owner id place status completed taken) (past : Past place) (moved : Past after) :
    Fits owner id after status completed taken := by
  cases fits with
  | running => exact absurd rfl past.1
  | skipped => exact .skipped moved
  | asleep => exact absurd rfl past.2.1
  | woken => exact absurd rfl past.2.2
  | taken => exact absurd rfl past.2.2
  | returned => exact absurd rfl past.2.2
  | handed _ own => exact .handed moved own
  | done _ free => exact .done moved free
  | refused _ own back => exact .refused moved own back

theorem shared_task (place : Place) (task : next.task = Function.update tm.task id place) (owner : ownerPhase next.owner = ownerPhase tm.owner) :
    (shared next).phase = Function.update (shared tm).phase (some id) (placePhase place) := by
  funext thread
  cases thread with
  | none => simpa [shared] using owner
  | some other =>
    by_cases same : other = id
    · subst same
      simp [shared, task]
    · simp [shared, task, same]

theorem shared_owner (task : ∀ id, placePhase (next.task id) = placePhase (tm.task id)) :
    (shared next).phase = Function.update (shared tm).phase none (ownerPhase next.owner) := by
  funext thread
  cases thread with
  | none => simp [shared]
  | some id => simpa [shared] using task id

theorem shared_same (task : ∀ id, placePhase (next.task id) = placePhase (tm.task id)) (owner : ownerPhase next.owner = ownerPhase tm.owner)
    (locked : next.locked = tm.locked) (refcnt : next.refcnt = tm.refcnt) (frees : next.frees = tm.frees) : shared next = shared tm := by
  have phase : (shared next).phase = (shared tm).phase := by
    funext thread
    cases thread with
    | none => exact owner
    | some id => exact task id
  rw [shared, shared] at *
  simp only [LastOut.Shared.mk.injEq] at *
  exact ⟨phase, locked, refcnt, frees⟩

/-- The manager is there for the thread of a task that is not gone, and for its owner. -/
theorem Inv.task_present (inv : Inv tm) (there : placePhase (tm.task id) ≠ .gone) : tm.frees = 0 :=
  inv.count.present (t := some id) there

theorem Inv.owner_present (inv : Inv tm) (there : ownerPhase tm.owner ≠ .gone) : tm.frees = 0 :=
  inv.count.present (t := none) there

theorem Inv.use_broken (inv : Inv tm) (there : tm.frees = 0) : tm.use.broken = false := by
  rw [Manager.use, inv.unbroken, there]
  rfl

/-- The thread of one task goes on where it shares the manager as before. -/
theorem Inv.stay (inv : Inv tm) (id : Fin taskcnt) (use : tm.frees = 0)
    (phases : ∀ id, placePhase (next.task id) = placePhase (tm.task id)) (owner : ownerPhase next.owner = ownerPhase tm.owner)
    (locked : next.locked = tm.locked) (refcnt : next.refcnt = tm.refcnt) (frees : next.frees = tm.frees)
    (broken : next.broken = tm.use.broken)
    (fits : Fits next.owner id (next.task id) (next.status id) (next.completed id) (next.taken id))
    (others : ∀ other, other ≠ id → Fits next.owner other (next.task other) (next.status other) (next.completed other) (next.taken other))
    (told : next.waitfor = waitedFor next.owner) : Inv next where
  count := by
    rw [shared_same phases owner locked refcnt frees]
    exact inv.count
  unbroken := broken.trans (inv.use_broken use)
  fits other := by
    by_cases same : other = id
    · rw [same]
      exact fits
    · exact others other same
  waits _ := told

theorem placePhase_past (past : Past place) (there : placePhase place ≠ .gone) : place = .back ∨ (∃ zero, place = .release zero) ∨ place = .destroy := by
  obtain ⟨run, wait, woken⟩ := past
  cases place with
  | run => exact absurd rfl run
  | wait => exact absurd rfl wait
  | woken => exact absurd rfl woken
  | back => exact .inl rfl
  | release zero => exact .inr (.inl ⟨zero, rfl⟩)
  | destroy => exact .inr (.inr rfl)
  | gone => exact absurd rfl there

theorem past_back : Past .back := ⟨Place.noConfusion, Place.noConfusion, Place.noConfusion⟩

/-- A task that is in its callback has no result. -/
theorem Inv.at_run (inv : Inv tm) (own : tm.task id = .run) : tm.status id = .running ∧ tm.completed id = none ∧ tm.taken id = 0 := by
  have fits := inv.fits id
  rw [own] at fits
  generalize tm.status id = status at fits ⊢
  generalize tm.completed id = completed at fits ⊢
  generalize tm.taken id = taken at fits ⊢
  cases fits with
  | running => exact ⟨rfl, rfl, rfl⟩
  | skipped past => exact absurd rfl past.1
  | handed past => exact absurd rfl past.1
  | done past => exact absurd rfl past.1
  | refused past => exact absurd rfl past.1

theorem waits_task (same : waitedFor owner = .task id) : On owner id := by
  cases owner with
  | wait id =>
    cases same
    exact .inl rfl
  | woken id =>
    cases same
    exact .inr rfl
  | _ => cases same

theorem waits_on (on : On owner id) : waitedFor owner = .task id := by
  rcases on with rfl | rfl
  · rfl
  · rfl

theorem waits_freed (same : waitedFor owner = .freed) : Left owner := by
  cases owner with
  | release zero => trivial
  | destroy => trivial
  | gone => trivial
  | _ => cases same

/-- While a task is there and the manager not freed, the owner has not left. -/
theorem Inv.stays (inv : Inv tm) (there : placePhase (tm.task id) ≠ .gone) (unfreed : tm.waitfor ≠ .freed) : ¬ Left tm.owner := by
  intro left
  have waited := inv.waits (inv.task_present there)
  cases own : tm.owner with
  | destroyLast =>
    have last : (shared tm).phase none = .last := by
      show ownerPhase tm.owner = .last
      rw [own]
      rfl
    exact there (inv.count.alone none last (some id) (Option.some_ne_none id))
  | release zero =>
    rw [own] at waited
    exact unfreed waited
  | destroy =>
    rw [own] at waited
    exact unfreed waited
  | gone =>
    rw [own] at waited
    exact unfreed waited
  | _ =>
    rw [own] at left
    exact left.elim

theorem complete_inv {ownerFirst : Bool} (inv : Inv tm) (moved : complete tm id ownerFirst = some next) : Inv next := by
  simp only [complete] at moved
  split at moved
  next ready =>
    obtain ⟨own, _⟩ := ready
    obtain ⟨running, open', untaken⟩ := inv.at_run own
    have there : placePhase (tm.task id) ≠ .gone := by rw [own]; exact LastOut.Phase.noConfusion
    have use : tm.frees = 0 := inv.task_present there
    have waitsFor := inv.waits use
    have phases (place : Place) (sharing : placePhase place = .sharing) (other : Fin taskcnt) :
        placePhase (Function.update tm.task id place other) = placePhase (tm.task other) := by
      by_cases same : other = id
      · subst same
        rw [Function.update_self, own, sharing]
        rfl
      · rw [Function.update_of_ne same]
    split at moved
    next waited =>
      have on : On tm.owner id := waits_task (waitsFor.symm.trans waited)
      have done : (tm.use.setStatus id .ready).signal id ownerFirst = (tm.use.setStatus id .ready).moveOwner (.woken id) := by
        rw [Manager.signal]
        rcases on with asleep | awake
        · rw [if_pos ⟨asleep, .inr (by simp [Manager.setStatus, Manager.use, own])⟩]
        · rw [if_neg (by simp [Manager.setStatus, Manager.use, awake]), if_neg (by simp [Manager.setStatus, Manager.use, own])]
          simp [Manager.setStatus, Manager.use, Manager.moveOwner, awake]
      cases moved
      rw [done]
      refine inv.stay id use (phases .back rfl) ?_ rfl rfl rfl rfl ?_ ?_ ?_
      · rcases on with on | on
        · rw [on]
          rfl
        · rw [on]
          rfl
      · simp only [Manager.complete, Manager.moveTask, Manager.moveOwner, Manager.setStatus, Manager.use, Function.update_self, untaken]
        exact .handed past_back rfl
      · intro other distinct
        simp only [Manager.complete, Manager.moveTask, Manager.moveOwner, Manager.setStatus, Manager.use, Function.update_of_ne distinct]
        apply (inv.fits other).mono
        · rintro (same | same)
          · cases same
          · cases same
            exact absurd rfl distinct
        · rcases on with on | on
          · rw [on]
            exact Iff.rfl
          · rw [on]
        · intro own
          rcases on with on | on
          · rw [on] at own
            cases own
          · rw [on] at own
            exact own
      · exact waited
    next =>
      split at moved
      next freed =>
        cases moved
        refine inv.stay id use (phases .back rfl) rfl rfl rfl rfl rfl ?_ ?_ waitsFor
        · simp only [Manager.complete, Manager.moveTask, Manager.use, Function.update_self, untaken, running]
          exact .refused past_back (waits_freed (waitsFor.symm.trans freed)) (.inl rfl)
        · intro other distinct
          simp only [Manager.complete, Manager.moveTask, Manager.use, Function.update_of_ne distinct]
          exact inv.fits other
      next unwaited unfreed =>
        have stays : ¬ Left tm.owner := inv.stays (by rw [own]; exact LastOut.Phase.noConfusion) unfreed
        cases moved
        refine inv.stay id use (phases .wait rfl) rfl rfl rfl rfl rfl ?_ ?_ waitsFor
        · simp only [Manager.setStatus, Manager.moveTask, Manager.use, Function.update_self, open', untaken]
          exact .asleep (fun on => unwaited (waitsFor.trans (waits_on on))) stays
        · intro other distinct
          simp only [Manager.setStatus, Manager.moveTask, Manager.use, Function.update_of_ne distinct]
          exact inv.fits other
  next => cases moved

/-- The phases of the tasks when one moves that shares the manager as before. -/
theorem phases_update {old : Place} (own : tm.task id = old) (same : placePhase place = placePhase old) (other : Fin taskcnt) :
    placePhase (Function.update tm.task id place other) = placePhase (tm.task other) := by
  by_cases here : other = id
  · subst here
    rw [Function.update_self, same, own]
  · rw [Function.update_of_ne here]

/-- `psync_task_complete` returns behind its wait. -/
theorem Fits.resume (fits : Fits owner id .woken status completed taken) (changed : status ≠ .ready) :
    Fits owner id .back status (some (status ≠ .returned)) taken := by
  cases fits with
  | skipped past => exact absurd rfl past.2.2
  | woken => exact absurd rfl changed
  | taken free => exact .done past_back free
  | returned left => exact .refused past_back left (.inr rfl)
  | handed past => exact absurd rfl past.2.2
  | done past => exact absurd rfl past.2.2
  | refused past => exact absurd rfl past.2.2

theorem recheck_inv (inv : Inv tm) (moved : recheck tm id = some next) : Inv next := by
  simp only [recheck] at moved
  split at moved
  next ready =>
    obtain ⟨own, _⟩ := ready
    have there : placePhase (tm.task id) ≠ .gone := by rw [own]; exact LastOut.Phase.noConfusion
    have use : tm.frees = 0 := inv.task_present there
    have fits := inv.fits id
    rw [own] at fits
    have others : ∀ other, other ≠ id → Fits tm.owner other (tm.task other) (tm.status other) (tm.completed other) (tm.taken other) :=
      fun other _ => inv.fits other
    split at moved
    next still =>
      have still : tm.status id = .ready := still
      rw [still] at fits
      cases moved
      refine inv.stay id use (phases_update own rfl) rfl rfl rfl rfl rfl ?_ ?_ (inv.waits use)
      · simp only [Manager.moveTask, Manager.use, Function.update_self, still]
        generalize tm.completed id = completed at fits ⊢
        generalize tm.taken id = taken at fits ⊢
        cases fits with
        | woken free stays => exact .asleep free stays
        | handed past => exact absurd rfl past.2.2
        | refused past => exact absurd rfl past.2.2
      · intro other distinct
        simp only [Manager.moveTask, Manager.use, Function.update_of_ne distinct]
        exact others other distinct
    next changed =>
      have changed : tm.status id ≠ .ready := changed
      cases moved
      refine inv.stay id use (phases_update own rfl) rfl rfl rfl rfl rfl ?_ ?_ (inv.waits use)
      · simp only [Manager.complete, Manager.moveTask, Manager.use, Function.update_self]
        exact fits.resume changed
      · intro other distinct
        simp only [Manager.complete, Manager.moveTask, Manager.use, Function.update_of_ne distinct]
        exact others other distinct
  next => cases moved

theorem wakeup_inv (inv : Inv tm) (own : tm.task id = .wait) : Inv (tm.moveTask id .woken) := by
  have there : placePhase (tm.task id) ≠ .gone := by rw [own]; exact LastOut.Phase.noConfusion
  have use : tm.frees = 0 := inv.task_present there
  refine inv.stay id use (phases_update own rfl) rfl rfl rfl rfl ?_ ?_ ?_ (inv.waits use)
  · rw [inv.use_broken use]
    exact inv.unbroken
  · have fits := inv.fits id
    rw [own] at fits
    simp only [Manager.moveTask, Function.update_self]
    generalize tm.status id = status at fits ⊢
    generalize tm.completed id = completed at fits ⊢
    generalize tm.taken id = taken at fits ⊢
    cases fits with
    | skipped past => exact absurd rfl past.2.1
    | asleep free stays => exact .woken free stays
    | handed past => exact absurd rfl past.2.1
    | done past => exact absurd rfl past.2.1
    | refused past => exact absurd rfl past.2.1
  · intro other distinct
    simp only [Manager.moveTask, Function.update_of_ne distinct]
    exact inv.fits other

theorem skip_inv (inv : Inv tm) (own : tm.task id = .run) : Inv (tm.moveTask id .back) := by
  have there : placePhase (tm.task id) ≠ .gone := by rw [own]; exact LastOut.Phase.noConfusion
  have use : tm.frees = 0 := inv.task_present there
  obtain ⟨running, open', untaken⟩ := inv.at_run own
  refine inv.stay id use (phases_update own rfl) rfl rfl rfl rfl ?_ ?_ ?_ (inv.waits use)
  · rw [inv.use_broken use]
    exact inv.unbroken
  · simp only [Manager.moveTask, Function.update_self, running, open', untaken]
    exact .skipped past_back
  · intro other distinct
    simp only [Manager.moveTask, Function.update_of_ne distinct]
    exact inv.fits other

/-- The thread of a task goes on behind its callback. -/
theorem fits_past (inv : Inv tm) (past : Past (tm.task id)) (moved : Past place) (other : Fin taskcnt) :
    Fits tm.owner other (Function.update tm.task id place other) (tm.status other) (tm.completed other) (tm.taken other) := by
  by_cases same : other = id
  · subst same
    rw [Function.update_self]
    exact (inv.fits other).move past moved
  · rw [Function.update_of_ne same]
    exact inv.fits other

theorem past_release (zero : Bool) : Past (.release zero) := ⟨Place.noConfusion, Place.noConfusion, Place.noConfusion⟩

theorem past_destroy : Past .destroy := ⟨Place.noConfusion, Place.noConfusion, Place.noConfusion⟩

theorem past_gone : Past .gone := ⟨Place.noConfusion, Place.noConfusion, Place.noConfusion⟩

theorem dec_inv (inv : Inv tm) (moved : step tm (.dec id) = some next) : Inv next := by
  simp only [step] at moved
  split at moved
  next ready =>
    obtain ⟨own, unlocked⟩ := ready
    have there : placePhase (tm.task id) ≠ .gone := by rw [own]; exact LastOut.Phase.noConfusion
    have use : tm.frees = 0 := inv.task_present there
    cases moved
    refine ⟨?_, inv.use_broken use, ?_, inv.waits⟩
    · refine inv.count.leave (t := some id) ?_ unlocked (shared_task (.release (tm.refcnt - 1 = 0)) rfl rfl) rfl rfl rfl
      show placePhase (tm.task id) = .sharing
      rw [own]
      rfl
    · exact fits_past inv (by rw [own]; exact past_back) (past_release _)
  next => cases moved

theorem unlock_inv (inv : Inv tm) (moved : step tm (.unlock id) = some next) : Inv next := by
  simp only [step] at moved
  split at moved
  next zero own =>
    have there : placePhase (tm.task id) ≠ .gone := by rw [own]; exact LastOut.Phase.noConfusion
    have use : tm.frees = 0 := inv.task_present there
    cases moved
    refine ⟨?_, inv.use_broken use, ?_, inv.waits⟩
    · have here : (shared tm).phase (some id) = .leaving zero := by
        show placePhase (tm.task id) = .leaving zero
        rw [own]
        rfl
      have moves : (shared { tm.use.moveTask id (if zero then .destroy else .gone) with locked := false }).phase =
          Function.update (shared tm).phase (some id) (placePhase (if zero then .destroy else .gone)) := shared_task _ rfl rfl
      refine inv.count.unlock here (moves.trans ?_) rfl rfl rfl
      cases zero
      · rfl
      · rfl
    · apply fits_past inv (by rw [own]; exact past_release zero)
      split
      · exact past_destroy
      · exact past_gone
  next => cases moved

theorem destroy_inv (inv : Inv tm) (moved : step tm (.destroy id) = some next) : Inv next := by
  simp only [step] at moved
  split at moved
  next own =>
    cases moved
    have here : (shared tm).phase (some id) = .destroying := by
      show placePhase (tm.task id) = .destroying
      rw [own]
      rfl
    have moved : (shared (tm.destroy.moveTask id .gone)).phase = Function.update (shared tm).phase (some id) .gone :=
      shared_task .gone rfl rfl
    obtain ⟨count, use, unlocked⟩ := inv.count.destroy (.inl here) moved rfl rfl
    have use : tm.frees = 0 := use
    have unlocked : tm.locked = false := unlocked
    refine ⟨count, ?_, ?_, ?_⟩
    · show (tm.use.broken || tm.locked) = false
      rw [inv.use_broken use, unlocked]
      rfl
    · exact fits_past inv (by rw [own]; exact past_destroy) past_gone
    · intro there
      have freed : tm.frees + 1 = 0 := there
      omega
  next => cases moved

/-- The owner turns to something else than this task. -/
theorem Fits.turn {after : Owner taskcnt} (fits : Fits owner id place status completed taken) (left : Left owner ↔ Left after)
    (unowned : owner ≠ .woken id) (free : ¬ On after id) : Fits after id place status completed taken :=
  fits.mono (fun on => absurd on free) left fun own => absurd own unowned

/-- A task that is not complete does not look at the owner. -/
theorem Fits.incomplete {after : Owner taskcnt} (fits : Fits owner id place .running completed taken) (stays : ¬ Left owner) :
    Fits after id place .running completed taken := by
  cases fits with
  | running => exact .running
  | skipped past => exact .skipped past
  | refused _ left => exact absurd left stays

theorem get_inv {ownerFirst : Bool} (inv : Inv tm) (moved : Tasks.get tm id ownerFirst = some next) : Inv next := by
  simp only [Tasks.get] at moved
  split at moved
  next ready =>
    obtain ⟨own, _⟩ := ready
    have use : tm.frees = 0 := inv.owner_present (by rw [own]; exact LastOut.Phase.noConfusion)
    have others (after : Owner taskcnt) (stays : ¬ Left after) (other : Fin taskcnt) (free : ¬ On after other) :
        Fits after other (tm.task other) (tm.status other) (tm.completed other) (tm.taken other) := by
      have fits := inv.fits other
      rw [own] at fits
      exact fits.turn (iff_of_false not_false stays) (fun same => by cases same) free
    split at moved
    next running =>
      have running : tm.status id = .running := running
      cases moved
      refine inv.stay id use (fun _ => rfl) (by rw [own]; rfl) rfl rfl rfl rfl ?_ ?_ rfl
      · have fits := inv.fits id
        rw [own, running] at fits
        simp only [Manager.moveOwner, Manager.use, running]
        exact fits.incomplete not_false
      · intro other distinct
        apply others (.wait id) not_false
        rintro (same | same)
        · cases same
          exact distinct rfl
        · cases same
    next isReady =>
      have isReady : tm.status id = .ready := isReady
      have fits := inv.fits id
      rw [own, isReady] at fits
      have unowned : ((tm.use.take id).owner = .wait id ∧ (ownerFirst ∨ (tm.use.take id).task id ≠ .wait)) = False := by
        simp [Manager.take, Manager.moveOwner]
      cases moved
      rw [Manager.signal, if_neg (by rw [unowned]; exact not_false)]
      have got : ∀ place completed taken, Fits .idle id place .ready completed taken →
          Fits .idle id (if place = .wait then .woken else place) .done completed (taken + 1) := by
        intro place completed taken fits
        cases fits with
        | asleep free => exact .taken free
        | woken free => exact .taken free
        | handed _ own => cases own
        | refused _ left => exact left.elim
      have got := got _ _ _ fits
      split
      next asleep =>
        have asleep : tm.task id = .wait := asleep
        refine inv.stay id use (phases_update asleep rfl) (by rw [own]; rfl) rfl rfl rfl rfl ?_ ?_ ?_
        · rw [if_pos asleep] at got
          simpa [Manager.take, Manager.moveTask, Manager.moveOwner, Manager.setStatus, Manager.use] using got
        · intro other distinct
          simp only [Manager.take, Manager.moveTask, Manager.moveOwner, Manager.setStatus, Manager.use, Function.update_of_ne distinct]
          exact others .idle not_false other (by rintro (same | same) <;> cases same)
        · exact (inv.waits use).trans (by rw [own]; rfl)
      next awake =>
        have awake : tm.task id ≠ .wait := awake
        refine inv.stay id use (fun _ => rfl) (by rw [own]; rfl) rfl rfl rfl rfl ?_ ?_ ?_
        · rw [if_neg awake] at got
          simpa [Manager.take, Manager.moveOwner, Manager.setStatus, Manager.use] using got
        · intro other distinct
          simp only [Manager.take, Manager.moveOwner, Manager.setStatus, Manager.use, Function.update_of_ne distinct]
          exact others .idle not_false other (by rintro (same | same) <;> cases same)
        · exact (inv.waits use).trans (by rw [own]; rfl)
    next =>
      cases moved
      exact inv.stay id use (fun _ => rfl) rfl rfl rfl rfl rfl (inv.fits id) (fun other _ => inv.fits other) (inv.waits use)
  next => cases moved

theorem wakeupOwner_inv (inv : Inv tm) (own : tm.owner = .wait id) : Inv (tm.moveOwner (.woken id)) := by
  have use : tm.frees = 0 := inv.owner_present (by rw [own]; exact LastOut.Phase.noConfusion)
  have turned (other : Fin taskcnt) : Fits (.woken id) other (tm.task other) (tm.status other) (tm.completed other) (tm.taken other) := by
    have fits := inv.fits other
    rw [own] at fits
    apply fits.mono
    · rintro (same | same)
      · cases same
      · cases same
        exact .inl rfl
    · exact Iff.rfl
    · intro same
      cases same
  refine inv.stay id use (fun _ => rfl) (by rw [own]; rfl) rfl rfl rfl ?_ (turned id) (fun other _ => turned other) ?_
  · rw [inv.use_broken use]
    exact inv.unbroken
  · exact (inv.waits use).trans (by rw [own]; rfl)

theorem recheckOwner_inv (inv : Inv tm) (moved : recheckOwner tm = some next) : Inv next := by
  simp only [recheckOwner] at moved
  split at moved
  next id own =>
    have use : tm.frees = 0 := inv.owner_present (by rw [own]; exact LastOut.Phase.noConfusion)
    have fits := inv.fits id
    rw [own] at fits
    have others (after : Owner taskcnt) (stays : ¬ Left after) (other : Fin taskcnt) (distinct : other ≠ id) (free : ¬ On after other) :
        Fits after other (tm.task other) (tm.status other) (tm.completed other) (tm.taken other) := by
      have fits := inv.fits other
      rw [own] at fits
      apply fits.turn (iff_of_false not_false stays) _ free
      rintro ⟨⟩
      exact distinct rfl
    split at moved
    · cases moved
    next =>
      split at moved
      next running =>
        have running : tm.status id = .running := running
        rw [running] at fits
        cases moved
        refine inv.stay id use (fun _ => rfl) (by rw [own]; rfl) rfl rfl rfl rfl ?_ ?_ rfl
        · simp only [Manager.moveOwner, Manager.use, running]
          exact fits.incomplete not_false
        · intro other distinct
          apply others (.wait id) not_false other distinct
          rintro (same | same)
          · cases same
            exact distinct rfl
          · cases same
      next complete =>
        have complete : tm.status id ≠ .running := complete
        cases moved
        refine inv.stay id use (fun _ => rfl) (by rw [own]; rfl) rfl rfl rfl rfl ?_ ?_ rfl
        · simp only [Manager.take, Manager.moveOwner, Manager.setStatus, Manager.use, Function.update_self]
          generalize tm.status id = status at fits complete
          generalize tm.completed id = completed at fits ⊢
          generalize tm.taken id = taken at fits ⊢
          generalize tm.task id = place at fits ⊢
          cases fits with
          | running => exact absurd rfl complete
          | skipped => exact absurd rfl complete
          | asleep free => exact absurd (.inr rfl) free
          | woken free => exact absurd (.inr rfl) free
          | taken free => exact absurd (.inr rfl) free
          | returned left => exact left.elim
          | handed past => exact .done past (by rintro (same | same) <;> cases same)
          | done _ free => exact absurd (.inr rfl) free
          | refused _ left => exact left.elim
        · intro other distinct
          simp only [Manager.take, Manager.moveOwner, Manager.setStatus, Manager.use, Function.update_of_ne distinct]
          exact others .idle not_false other distinct (by rintro (same | same) <;> cases same)
  next => cases moved

theorem ownerPhase_gone (gone : ownerPhase owner = .gone) : owner = .gone := by
  cases owner with
  | gone => rfl
  | _ => cases gone

theorem placePhase_gone (gone : placePhase place = .gone) : place = .gone := by
  cases place with
  | gone => rfl
  | _ => cases gone

/-- A task that is gone does not look at the owner, unless it handed its result over. -/
theorem Fits.settle {after : Owner taskcnt} (fits : Fits owner id .gone status completed taken) (left : Left after)
    (unowned : owner ≠ .woken id) (free : ¬ On after id) : Fits after id .gone status completed taken := by
  cases fits with
  | skipped past => exact .skipped past
  | handed _ own => exact absurd own unowned
  | done past => exact .done past free
  | refused past _ back => exact .refused past left back

theorem test_inv (inv : Inv tm) (quiet : tm.refcnt = 1 → tm.locked = false) (own : tm.owner = .idle) :
    Inv (tm.use.moveOwner (if tm.refcnt = 1 then .destroyLast else .freeing)) := by
  have use : tm.frees = 0 := inv.owner_present (by rw [own]; exact LastOut.Phase.noConfusion)
  have here : (shared tm).phase none = .sharing := by
    show ownerPhase tm.owner = .sharing
    rw [own]
    rfl
  have nobody : tm.frees = 0 → tm.waitfor = .nobody := by
    intro there
    have waited := inv.waits there
    rwa [own] at waited
  split
  next one =>
    have count : LastOut.Inv (shared (tm.use.moveOwner .destroyLast)) :=
      inv.count.check here (quiet one) one (shared_owner fun _ => rfl) rfl rfl rfl
    refine ⟨count, inv.use_broken use, ?_, nobody⟩
    intro other
    have gone : tm.task other = .gone := placePhase_gone (count.alone none rfl (some other) (Option.some_ne_none other))
    have fits := inv.fits other
    rw [own, gone] at fits
    show Fits .destroyLast other (tm.task other) (tm.status other) (tm.completed other) (tm.taken other)
    rw [gone]
    exact fits.settle trivial (fun same => by cases same) (by rintro (same | same) <;> cases same)
  next =>
    have same : shared (tm.use.moveOwner .freeing) = shared tm := shared_same (fun _ => rfl) (by rw [own]; rfl) rfl rfl rfl
    refine ⟨?_, inv.use_broken use, ?_, nobody⟩
    · rw [same]
      exact inv.count
    · intro other
      have fits := inv.fits other
      rw [own] at fits
      exact fits.turn (iff_of_false not_false not_false) (fun same => by cases same) (by rintro (same | same) <;> cases same)

/-- The owner gives the results up that it did not take. -/
theorem Fits.give {after : Owner taskcnt} (fits : Fits .freeing id place status completed taken) (left : Left after) (free : ¬ On after id) :
    Fits after id (if status = .ready ∧ place = .wait then .woken else place) (if status = .ready then .returned else status) completed taken := by
  cases fits with
  | running => exact .running
  | skipped past => exact .skipped past
  | asleep => exact .returned left
  | woken => exact .returned left
  | taken => exact .taken free
  | returned => exact .returned left
  | handed _ own => cases own
  | done past => exact .done past free
  | refused _ left => exact left.elim

theorem free_inv (inv : Inv tm) (moved : Tasks.free tm = some next) : Inv next := by
  simp only [Tasks.free] at moved
  split at moved
  next ready =>
    obtain ⟨own, unlocked⟩ := ready
    have use : tm.frees = 0 := inv.owner_present (by rw [own]; exact LastOut.Phase.noConfusion)
    have here : (shared tm).phase none = .sharing := by
      show ownerPhase tm.owner = .sharing
      rw [own]
      rfl
    cases moved
    refine ⟨?_, inv.use_broken use, ?_, fun _ => rfl⟩
    · refine inv.count.leave here unlocked ?_ rfl rfl rfl
      refine shared_owner fun other => ?_
      show placePhase (if tm.status other = .ready ∧ tm.task other = .wait then .woken else tm.task other) = placePhase (tm.task other)
      split
      next both =>
        rw [both.2]
        rfl
      next => rfl
    · intro other
      have fits := inv.fits other
      rw [own] at fits
      exact fits.give trivial (by rintro (same | same) <;> cases same)
  next => cases moved

theorem unlockOwner_inv (inv : Inv tm) (moved : step tm .unlockOwner = some next) : Inv next := by
  simp only [step] at moved
  split at moved
  next zero own =>
    have use : tm.frees = 0 := inv.owner_present (by rw [own]; exact LastOut.Phase.noConfusion)
    have here : (shared tm).phase none = .leaving zero := by
      show ownerPhase tm.owner = .leaving zero
      rw [own]
      rfl
    cases moved
    refine ⟨?_, inv.use_broken use, ?_, ?_⟩
    · have moves : (shared { tm.use.moveOwner (if zero then .destroy else .gone) with locked := false }).phase =
          Function.update (shared tm).phase none (ownerPhase (if zero then (.destroy : Owner taskcnt) else .gone)) := shared_owner fun _ => rfl
      refine inv.count.unlock here (moves.trans ?_) rfl rfl rfl
      cases zero
      · rfl
      · rfl
    · intro other
      have fits := inv.fits other
      rw [own] at fits
      cases zero
      · exact fits.turn Iff.rfl (fun same => by cases same) (by rintro (same | same) <;> cases same)
      · exact fits.turn Iff.rfl (fun same => by cases same) (by rintro (same | same) <;> cases same)
    · intro there
      refine (inv.waits there).trans ?_
      rw [own]
      cases zero
      · rfl
      · rfl
  next => cases moved

theorem destroyOwner_inv (inv : Inv tm) (moved : step tm .destroyOwner = some next) : Inv next := by
  simp only [step] at moved
  split at moved
  next own =>
    cases moved
    have here : (shared tm).phase none = .destroying ∨ (shared tm).phase none = .last := by
      rcases own with own | own
      · right
        show ownerPhase tm.owner = .last
        rw [own]
        rfl
      · left
        show ownerPhase tm.owner = .destroying
        rw [own]
        rfl
    have moved : (shared (tm.destroy.moveOwner .gone)).phase = Function.update (shared tm).phase none .gone := shared_owner fun _ => rfl
    obtain ⟨count, use, unlocked⟩ := inv.count.destroy here moved rfl rfl
    have use : tm.frees = 0 := use
    have unlocked : tm.locked = false := unlocked
    refine ⟨count, ?_, ?_, ?_⟩
    · show (tm.use.broken || tm.locked) = false
      rw [inv.use_broken use, unlocked]
      rfl
    · intro other
      have fits := inv.fits other
      rcases own with own | own
      · rw [own] at fits
        exact fits.turn (iff_of_true trivial trivial) (fun same => by cases same) (by rintro (same | same) <;> cases same)
      · rw [own] at fits
        exact fits.turn (iff_of_true trivial trivial) (fun same => by cases same) (by rintro (same | same) <;> cases same)
    · intro there
      have freed : tm.frees + 1 = 0 := there
      omega
  next => cases moved

/-- The first test of the owner does not fall between a task's last step on the count and its
unlock. -/
def Quiet (tm : Manager taskcnt) (event : Event taskcnt) : Prop := event = .test → tm.refcnt = 1 → tm.locked = false

theorem step_inv (inv : Inv tm) (quiet : Quiet tm event) (moved : step tm event = some next) : Inv next := by
  cases event with
  | complete id ownerFirst => exact complete_inv inv moved
  | wakeup id =>
    simp only [step] at moved
    split at moved
    next own =>
      cases moved
      exact wakeup_inv inv own
    next => cases moved
  | recheck id => exact recheck_inv inv moved
  | skip id =>
    simp only [step] at moved
    split at moved
    next own =>
      cases moved
      exact skip_inv inv own
    next => cases moved
  | dec id => exact dec_inv inv moved
  | unlock id => exact unlock_inv inv moved
  | destroy id => exact destroy_inv inv moved
  | get id ownerFirst => exact get_inv inv moved
  | wakeupOwner =>
    simp only [step] at moved
    split at moved
    next own =>
      cases moved
      exact wakeupOwner_inv inv own
    next => cases moved
  | recheckOwner => exact recheckOwner_inv inv moved
  | test =>
    simp only [step] at moved
    split at moved
    next own =>
      cases moved
      exact test_inv inv (quiet rfl) own
    next => cases moved
  | free => exact free_inv inv moved
  | unlockOwner => exact unlockOwner_inv inv moved
  | destroyOwner => exact destroyOwner_inv inv moved

/-- The runs in which every test is quiet. -/
inductive Run : Manager taskcnt → Prop where
  | init : Run .runTasks
  | step {tm next : Manager taskcnt} (event : Event taskcnt) : Run tm → Quiet tm event → step tm event = some next → Run next

theorem runTasks_shared : shared (Manager.runTasks : Manager taskcnt) = ⟨fun _ => .sharing, false, Fintype.card (Option (Fin taskcnt)), 0⟩ := by
  have phase : (shared (Manager.runTasks : Manager taskcnt)).phase = fun _ => .sharing := by
    funext thread
    cases thread with
    | none => rfl
    | some id => rfl
  rw [← phase, Fintype.card_option, Fintype.card_fin]
  rfl

theorem run_inv (run : Run tm) : Inv tm := by
  induction run with
  | init =>
    refine ⟨?_, rfl, fun _ => .running, fun _ => rfl⟩
    rw [runTasks_shared]
    exact LastOut.init_inv (Fintype.card_pos_iff.mpr ⟨none⟩)
  | step event _ quiet moved inv => exact step_inv inv quiet moved

/-- Each result has one owner, a thread that waits for a task waits for one that is not complete,
and the memory is freed once, by the last thread. -/
structure Right (tm : Manager taskcnt) : Prop where
  unbroken : tm.broken = false
  once : tm.frees ≤ 1
  last : tm.frees ≠ 0 → (∀ id, tm.task id = .gone) ∧ tm.owner = .gone
  freed : (∀ id, tm.task id = .gone) → tm.owner = .gone → tm.frees = 1
  single : ∀ id, tm.taken id ≤ 1 ∧ (tm.completed id = some false → tm.taken id = 0)
  taken : ∀ id, tm.owner = .gone → tm.completed id = some true → tm.taken id = 1
  waiter : ∀ id, tm.owner = .wait id → tm.status id = .running ∧ tm.completed id = none
  sleeper : ∀ id, tm.task id = .wait → tm.status id = .ready ∧ ¬ Left tm.owner

theorem Fits.single (fits : Fits owner id place status completed taken) : taken ≤ 1 ∧ (completed = some false → taken = 0) := by
  cases fits with
  | taken => exact ⟨le_rfl, fun same => by cases same⟩
  | done => exact ⟨le_rfl, fun same => by cases same⟩
  | _ => exact ⟨Nat.zero_le 1, fun _ => rfl⟩

theorem Inv.right (inv : Inv tm) : Right tm where
  unbroken := inv.unbroken
  once := by
    by_cases there : tm.frees = 0
    · omega
    · exact (inv.count.freed there).1.le
  last freed := by
    have gone := (inv.count.freed freed).2
    exact ⟨fun id => placePhase_gone (gone (some id)), ownerPhase_gone (gone none)⟩
  freed tasks own := by
    apply inv.count.over
    intro thread
    cases thread with
    | none =>
      show ownerPhase tm.owner = .gone
      rw [own]
      rfl
    | some id =>
      show placePhase (tm.task id) = .gone
      rw [tasks id]
      rfl
  single id := (inv.fits id).single
  taken id own handed := by
    have fits := inv.fits id
    rw [own, handed] at fits
    generalize tm.status id = status at fits
    generalize tm.taken id = taken at fits ⊢
    generalize tm.task id = place at fits
    cases fits with
    | handed _ same => cases same
    | done => rfl
  waiter id own := by
    have fits := inv.fits id
    rw [own] at fits
    generalize tm.status id = status at fits ⊢
    generalize tm.completed id = completed at fits ⊢
    generalize tm.taken id = taken at fits
    generalize tm.task id = place at fits
    cases fits with
    | running => exact ⟨rfl, rfl⟩
    | skipped => exact ⟨rfl, rfl⟩
    | asleep free => exact absurd (.inl rfl) free
    | woken free => exact absurd (.inl rfl) free
    | taken free => exact absurd (.inl rfl) free
    | returned left => exact left.elim
    | handed _ same => cases same
    | done _ free => exact absurd (.inl rfl) free
    | refused _ left => exact left.elim
  sleeper id own := by
    have fits := inv.fits id
    rw [own] at fits
    generalize tm.status id = status at fits ⊢
    generalize tm.completed id = completed at fits
    generalize tm.taken id = taken at fits
    cases fits with
    | skipped past => exact absurd rfl past.2.1
    | asleep _ stays => exact ⟨rfl, stays⟩
    | handed past => exact absurd rfl past.2.1
    | done past => exact absurd rfl past.2.1
    | refused past => exact absurd rfl past.2.1

/-- In every run in which every test is quiet, each result has one owner and the memory is freed
once, by the last thread. -/
theorem run_handoff (run : Run tm) : Right tm := (run_inv run).right

/-- The owner waits for a task, takes the result and frees the manager. -/
theorem run_handoff_taken : ∃ tm : Manager 1, Right tm ∧ tm.taken 0 = 1 ∧ tm.frees = 1 := by
  have waits : Run (_ : Manager 1) := .step (.get 0 true) .init (fun same => by cases same) rfl
  have completes : Run _ := .step (.complete 0 true) waits (fun same => by cases same) rfl
  have takes : Run _ := .step .recheckOwner completes (fun same => by cases same) rfl
  have leaves : Run _ := .step (.dec 0) takes (fun same => by cases same) rfl
  have unlocks : Run _ := .step (.unlock 0) leaves (fun same => by cases same) rfl
  have tests : Run _ := .step .test unlocks (fun _ _ => rfl) rfl
  have destroys : Run _ := .step .destroyOwner tests (fun same => by cases same) rfl
  exact ⟨_, run_handoff destroys, rfl, rfl⟩

/-- The owner frees the manager while the task that took its reference away has the mutex. -/
theorem test_early : ∃ tm : Manager 1,
    [.get 0 true, .complete 0 true, .recheckOwner, .dec 0, .test, .destroyOwner].foldlM step .runTasks = some tm ∧
      tm.task 0 = .release false ∧ tm.frees = 1 ∧ ¬ Right tm := by
  refine ⟨_, rfl, rfl, rfl, ?_⟩
  intro right
  cases right.unbroken

end Pclsync.Proofs.Manager
