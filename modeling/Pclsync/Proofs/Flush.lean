import Pclsync.Library.Census
import Pclsync.Pages.Flush

/-! A flush that meets no error of the cache file gives back all that it took, and nobody waits
for a page when no such flush is under way. -/

namespace Pclsync.Proofs.Flush
open Pclsync.Library Pclsync.Pages.Flush

variable {nosleep updates : ℕ} {env : Env} {pages : List Page} {ops rest : List Op} {mutexes left : List Mutex}

/-- The mutexes that are held after some steps. None is taken twice or released without being
held, and what the allocator looks at is changed with the mutex of the cache only. -/
def held : List Op → List Mutex → Option (List Mutex)
  | [], mutexes => some mutexes
  | .lock mutex :: ops, mutexes => if mutex ∈ mutexes then none else held ops (mutex :: mutexes)
  | .unlock mutex :: ops, mutexes => if mutex ∈ mutexes then held ops (mutexes.erase mutex) else none
  | _ :: ops, mutexes => if .cache ∈ mutexes then held ops mutexes else none

/-- A flush that leaves the mutexes and its announcement as they were. -/
def Restores (ops : List Op) : Prop := held ops [] = some [] ∧ ops.count .enter = 1 ∧ ops.count .leave = 1

/-- No write to the cache file and no sync of it fails. -/
def Ok (env : Env) : Prop :=
  env.inHash = true → env.pages ≠ [] → (∀ page ∈ env.pages.takeWhile Page.row, page.written = true) ∧ env.synced = true

theorem held_append : held (ops ++ rest) mutexes = (held ops mutexes).bind (held rest) := by
  induction ops generalizing mutexes with
  | nil => rfl
  | cons op ops ih =>
    cases op with
    | lock mutex =>
      simp only [List.cons_append, held]
      split
      · rfl
      · exact ih
    | unlock mutex =>
      simp only [List.cons_append, held]
      split
      · exact ih
      · rfl
    | _ =>
      simp only [List.cons_append, held]
      split
      · exact ih
      · rfl

/-- Steps after which the same mutexes are held, without an announcement. -/
structure Keeps (mutexes : List Mutex) (ops : List Op) : Prop where
  held : held ops mutexes = some mutexes
  enter : ops.count .enter = 0
  leave : ops.count .leave = 0

theorem Keeps.nil : Keeps mutexes [] := ⟨rfl, rfl, rfl⟩

theorem Keeps.append (first : Keeps mutexes ops) (last : Keeps mutexes rest) : Keeps mutexes (ops ++ rest) where
  held := by rw [held_append, first.held, Option.bind_some, last.held]
  enter := by rw [List.count_append, first.enter, last.enter]
  leave := by rw [List.count_append, first.leave, last.leave]

theorem Keeps.flatten (each : Keeps mutexes ops) (times : ℕ) : Keeps mutexes (List.replicate times ops).flatten := by
  induction times with
  | zero => exact .nil
  | succ times ih =>
    rw [List.replicate_succ, List.flatten_cons]
    exact each.append ih

theorem Keeps.cons_free (later : Keeps (.cache :: mutexes) ops) : Keeps (.cache :: mutexes) (.free :: ops) where
  held := by
    simp only [Flush.held, List.mem_cons_self, if_true]
    exact later.held
  enter := by simpa using later.enter
  leave := by simpa using later.leave

theorem free_keeps (times : ℕ) : Keeps (.cache :: mutexes) (List.replicate times .free) := by
  induction times with
  | zero => exact .nil
  | succ times ih =>
    rw [List.replicate_succ]
    exact ih.cons_free

theorem pause_keeps : Keeps [.cache, .sql, .flushCache] pause := ⟨rfl, rfl, rfl⟩

theorem discardPages_keeps : Keeps [.cache, .flushCache] (discardPages env) := by
  rw [discardPages]
  split
  · exact (((free_keeps _).append ⟨rfl, rfl, rfl⟩).append (free_keeps _)).append ⟨rfl, rfl, rfl⟩
  · exact .nil

theorem nap_keeps (naps : ℕ) : Keeps [.flushCache] (nap nosleep naps) := by
  rw [nap]
  split
  · have loop : Keeps [.cache, .flushCache] (List.replicate naps [Op.unlock .cache, .lock .cache]).flatten :=
      Keeps.flatten ⟨rfl, rfl, rfl⟩ naps
    refine ⟨?_, ?_, ?_⟩
    · rw [List.cons_append, Flush.held, if_neg (by decide), held_append, loop.held]
      rfl
    · simpa [List.count_append] using loop.enter
    · simpa [List.count_append] using loop.leave
  · exact .nil

theorem window_keeps : Keeps [.cache, .sql, .flushCache] (if nosleep ≠ 1 ∧ updates % 64 = 0 then .wake :: pause else []) := by
  split
  · exact ⟨rfl, rfl, rfl⟩
  · exact .nil

theorem updatePages_keeps : Keeps [.cache, .sql, .flushCache] (updatePages nosleep updates pages).1 := by
  induction pages generalizing updates with
  | nil => exact .nil
  | cons page rest ih =>
    exact (window_keeps.append ih).cons_free

theorem updateRecords_keeps {records : ℕ} : Keeps [.cache, .sql, .flushCache] (updateRecords nosleep updates records).1 := by
  induction records generalizing updates with
  | zero => exact .nil
  | succ records ih =>
    rw [updateRecords]
    apply Keeps.append _ ih
    split
    · exact pause_keeps
    · exact .nil

/-- The last part of a flush releases what is held and takes the announcement back. -/
structure Ends (mutexes : List Mutex) (ops : List Op) : Prop where
  held : held ops mutexes = some []
  enter : ops.count .enter = 0
  leave : ops.count .leave = 1

theorem Keeps.ends (first : Keeps mutexes ops) (last : Ends mutexes rest) : Ends mutexes (ops ++ rest) where
  held := by rw [held_append, first.held, Option.bind_some, last.held]
  enter := by rw [List.count_append, first.enter, last.enter]
  leave := by rw [List.count_append, first.leave, last.leave]

theorem insertRows_keeps (inserted : ℕ) : Keeps [.cache, .sql, .flushCache] (insertRows inserted) := pause_keeps.flatten _

theorem update_ends : Ends [.cache, .flushCache] (update nosleep env pages).1 := by
  rw [update]
  simp only [List.append_assoc]
  have opens {ops : List Op} (later : Ends [.cache, .sql, .flushCache] ops) :
      Ends [.cache, .flushCache] ([.unlock .cache, .lock .sql, .lock .cache] ++ ops) :=
    ⟨later.held, by simpa using later.enter, by simpa using later.leave⟩
  apply opens
  refine Keeps.ends ?_ (updatePages_keeps.ends (Keeps.ends ?_ ⟨rfl, rfl, rfl⟩))
  · cases env.inserted with
    | none => exact .nil
    | some inserted => exact insertRows_keeps inserted
  · cases env.records with
    | none => exact .nil
    | some records => exact updateRecords_keeps

/-- What is left of a flush: it ends well, or the cache file has an error. -/
theorem syncPages_ends (synced : env.synced = true) : Ends [.flushCache] (syncPages nosleep env pages).1 := by
  rw [syncPages, if_neg (by simp [synced])]
  have last : Ends [.cache, .flushCache] (update nosleep env pages).1 := update_ends
  exact ⟨last.held, by simpa using last.enter, by simpa using last.leave⟩

theorem writePages_ends (written : ∀ page ∈ env.pages.takeWhile Page.row, page.written = true) (synced : env.synced = true) :
    Ends [.flushCache] (writePages nosleep env).1 := by
  rw [writePages, if_neg (by simpa using written)]
  exact (nap_keeps _).ends (syncPages_ends synced)

theorem collectPages_ends (ok : Ok env) : Ends [.cache, .flushCache] (collectPages nosleep env).1 := by
  rw [collectPages]
  split
  · exact update_ends
  next inHash =>
    split
    · exact (free_keeps _).ends update_ends
    next some =>
      obtain ⟨written, synced⟩ := ok (not_not.mp inHash) some
      have last : Ends [.flushCache] (writePages nosleep env).1 := writePages_ends written synced
      apply (free_keeps _).ends
      exact ⟨last.held, by simpa using last.enter, by simpa using last.leave⟩

/-- An error of the cache file. -/
theorem collectPages_fails (fails : ¬ Ok env) : (collectPages nosleep env).1.count .leave = 0 := by
  simp only [Ok, Classical.not_imp] at fails
  obtain ⟨inHash, some, failed⟩ := fails
  rw [collectPages, if_neg (not_not.mpr inHash), if_neg some]
  simp only [List.count_append, List.count_replicate]
  have quiet : (writePages nosleep env).1.count .leave = 0 := by
    rw [writePages]
    split
    · rfl
    next written =>
      have written : ∀ page ∈ env.pages.takeWhile Page.row, page.written = true := by simpa using written
      have unsynced : env.synced ≠ true := fun synced => failed ⟨written, synced⟩
      simp only [syncPages, unsynced, List.count_append, (nap_keeps _).leave]
      rfl
  simpa using quiet

/-- A flush restores all that it took if and only if the cache file has no error. -/
theorem flushPages_restores : Restores (flushPages nosleep env).1 ↔ Ok env := by
  constructor
  · intro restores
    by_contra fails
    have left := restores.2.2
    rw [flushPages] at left
    simp only [List.count_append, discardPages_keeps.leave, collectPages_fails fails] at left
    cases left
  · intro ok
    have last : Ends [.cache, .flushCache] (discardPages env ++ (collectPages nosleep env).1) := discardPages_keeps.ends (collectPages_ends ok)
    rw [flushPages]
    simp only [List.append_assoc]
    refine ⟨last.held, ?_, ?_⟩
    · rw [List.count_append, last.enter]
      rfl
    · rw [List.count_append, last.leave]
      rfl

section Runs
variable {T : Type} {c next : Cache T} {t : T} {event : Event} {thread : Thread} {op : Op} {after : After}

/-- How often a thread will announce a flush. -/
def enters : Thread → ℕ
  | .flush ops _ => ops.count .enter
  | _ => 0

/-- How often a thread will take an announcement back. -/
def leaves : Thread → ℕ
  | .flush ops _ => ops.count .leave
  | _ => 0

/-- Whether a thread counts as a waiter. -/
def waits : Thread → ℕ
  | .wait => 1
  | .woken => 1
  | _ => 0

/-- What is left of a flush without errors. -/
def Stage (ops : List Op) : Prop :=
  ∃ tail : List Op, tail.count .enter = 0 ∧ tail.count .leave ≤ 1 ∧
    (ops = tail ∨ (tail.count .leave = 1 ∧ (ops = .enter :: tail ∨ ops = .lock .cache :: .enter :: tail)))

theorem flushPages_stage (ok : Ok env) : Stage (flushPages nosleep env).1 := by
  obtain ⟨_, enter, leave⟩ := flushPages_restores.mpr ok
  rw [flushPages] at enter leave ⊢
  refine ⟨_, ?_, ?_, .inr ⟨?_, .inr rfl⟩⟩
  · simpa using enter
  · simpa using leave.le
  · simpa using leave

theorem Stage.tail (stage : Stage (op :: rest)) : Stage rest := by
  obtain ⟨tail, enter, leave, rfl | ⟨one, same | same⟩⟩ := stage
  · refine ⟨rest, ?_, ?_, .inl rfl⟩
    · rw [List.count_cons] at enter
      omega
    · rw [List.count_cons] at leave
      omega
  · obtain ⟨_, rfl⟩ := List.cons.inj same
    exact ⟨rest, enter, leave, .inl rfl⟩
  · obtain ⟨_, rfl⟩ := List.cons.inj same
    exact ⟨tail, enter, leave, .inr ⟨one, .inl rfl⟩⟩

/-- A flush that announced itself and did not take it back. -/
theorem Stage.begun (stage : Stage ops) (more : ops.count .enter < ops.count .leave) : .enter ∉ ops ∧ .leave ∈ ops := by
  obtain ⟨tail, enter, leave, rfl | ⟨one, rfl | rfl⟩⟩ := stage
  · exact ⟨List.count_eq_zero.mp enter, List.count_pos_iff.mp (by omega)⟩
  · simp [enter, one] at more
  · simp [enter, one] at more

/-- Nothing is announced behind the end of a flush. -/
theorem Stage.last (stage : Stage (.leave :: rest)) : rest.count .enter = 0 := by
  obtain ⟨tail, enter, leave, rfl | ⟨one, same | same⟩⟩ := stage
  · simpa using enter
  · cases same
  · cases same

variable [Fintype T]

structure Inv (c : Cache T) : Prop where
  running : c.flushPageRunning + ∑ t, enters (c.threads t) = ∑ t, leaves (c.threads t)
  waiters : c.freePageWaiters = ∑ t, waits (c.threads t)
  waiting : ∀ t, c.threads t = .wait → c.flushPageRunning ≠ 0
  stage : ∀ t ops after, c.threads t = .flush ops after → Stage ops

theorem broadcast_inv (running : c.flushPageRunning + ∑ t, enters (c.threads t) = ∑ t, leaves (c.threads t))
    (waiters : c.freePageWaiters = ∑ t, waits (c.threads t)) (stage : ∀ t ops after, c.threads t = .flush ops after → Stage ops) :
    Inv c.broadcast ∧ ∀ t, c.broadcast.threads t ≠ .wait := by
  rw [Cache.broadcast]
  split
  next some =>
    have same (kind : Thread → ℕ) (alike : kind .wait = kind .woken) :
        ∑ t, kind (if c.threads t = .wait then .woken else c.threads t) = ∑ t, kind (c.threads t) := by
      apply Finset.sum_congr rfl
      intro t _
      split
      next waits => rw [waits, alike]
      next => rfl
    have awake : ∀ t, (if c.threads t = .wait then Thread.woken else c.threads t) ≠ .wait := by
      intro t
      split
      · exact Thread.noConfusion
      · assumption
    refine ⟨⟨?_, ?_, fun t wait => absurd wait (awake t), ?_⟩, awake⟩
    · rw [same enters rfl, same leaves rfl]
      exact running
    · rw [same waits rfl]
      exact waiters
    · intro t ops after own
      simp only at own
      split at own
      · cases own
      · exact stage t ops after own
  next none =>
    have awake : ∀ t, c.threads t ≠ .wait := by
      intro t wait
      have zero : ∑ t, waits (c.threads t) = 0 := by omega
      have own := Finset.sum_eq_zero_iff.mp zero t (Finset.mem_univ t)
      rw [wait] at own
      cases own
    exact ⟨⟨running, waiters, fun t wait => absurd wait (awake t), stage⟩, awake⟩

variable [DecidableEq T]

theorem sum_goes (threads : next.threads = Function.update c.threads t thread) (weight : Thread → ℕ) :
    ∑ other, weight (next.threads other) + weight (c.threads t) = ∑ other, weight (c.threads other) + weight thread := by
  rw [threads]
  exact Census.sum_update (Finset.mem_univ t) weight c.threads thread

theorem stage_goes (inv : Inv c) (threads : next.threads = Function.update c.threads t thread)
    (stage : ∀ ops after, thread = .flush ops after → Stage ops) : ∀ t ops after, next.threads t = .flush ops after → Stage ops := by
  intro other ops after own
  rw [threads] at own
  by_cases same : other = t
  · subst same
    rw [Function.update_self] at own
    exact stage ops after own
  · rw [Function.update_of_ne same] at own
    exact inv.stage other ops after own

/-- One thread goes on, and the numbers change with it. -/
theorem Inv.goes (inv : Inv c) (thread : Thread) (threads : next.threads = Function.update c.threads t thread)
    (running : next.flushPageRunning + enters thread + leaves (c.threads t) = c.flushPageRunning + enters (c.threads t) + leaves thread)
    (waiters : next.freePageWaiters + waits (c.threads t) = c.freePageWaiters + waits thread)
    (kept : c.flushPageRunning ≠ 0 → next.flushPageRunning ≠ 0) (waiting : thread = .wait → next.flushPageRunning ≠ 0)
    (stage : ∀ ops after, thread = .flush ops after → Stage ops) : Inv next := by
  refine ⟨?_, ?_, ?_, stage_goes inv threads stage⟩
  · have entered := sum_goes threads enters
    have left := sum_goes threads leaves
    have before := inv.running
    omega
  · have waited := sum_goes threads waits
    have before := inv.waiters
    omega
  · intro other own
    rw [threads] at own
    by_cases same : other = t
    · subst same
      rw [Function.update_self] at own
      exact waiting own
    · rw [Function.update_of_ne same] at own
      exact kept (inv.waiting other own)

/-- Where a thread is neither in a flush nor behind it. -/
def Away (thread : Thread) : Prop := enters thread = 0 ∧ leaves thread = 0

variable {place : Thread}

/-- A thread that is not in a flush goes on elsewhere, not to wait and not in a flush. -/
theorem Inv.moves (inv : Inv c) (own : c.threads t = place) (thread : Thread) (threads : next.threads = Function.update c.threads t thread)
    (running : next.flushPageRunning = c.flushPageRunning) (waiters : next.freePageWaiters + waits place = c.freePageWaiters)
    (before : Away place) (behind : Away thread) (awake : waits thread = 0) (outside : ∀ ops after, thread ≠ .flush ops after) : Inv next := by
  subst own
  apply inv.goes thread threads
  · rw [running, before.1, before.2, behind.1, behind.2]
  · rw [awake, Nat.add_zero]
    exact waiters
  · rw [running]
    exact id
  · rintro rfl
    cases awake
  · exact fun ops after own => absurd own (outside ops after)

/-- A thread that is not in a flush waits, while one is announced. -/
theorem Inv.sleeps (inv : Inv c) (own : c.threads t = place) (threads : next.threads = Function.update c.threads t .wait)
    (running : next.flushPageRunning = c.flushPageRunning) (waiters : next.freePageWaiters + waits place = c.freePageWaiters + 1)
    (before : Away place) (flushing : c.flushPageRunning ≠ 0) : Inv next := by
  subst own
  apply inv.goes .wait threads
  · rw [running, before.1, before.2]
    rfl
  · exact waiters
  · rw [running]
    exact id
  · rw [running]
    exact fun _ => flushing
  · exact fun ops after own => Thread.noConfusion own

theorem lookFree_inv (inv : Inv c) (own : c.threads t = place) (before : Away place) (awake : waits place = 0) : Inv (c.lookFree t) := by
  have same : c.freePageWaiters + waits place = c.freePageWaiters := by rw [awake, Nat.add_zero]
  rw [Cache.lookFree]
  split
  · exact inv.moves own .idle rfl rfl same before ⟨rfl, rfl⟩ rfl fun _ _ => Thread.noConfusion
  next =>
    split
    next flushing =>
      refine inv.sleeps own rfl rfl ?_ before flushing
      rw [awake]
      rfl
    next => exact inv.moves own (.call 1 .relook) rfl rfl same before ⟨rfl, rfl⟩ rfl fun _ _ => Thread.noConfusion

omit [Fintype T] [DecidableEq T] in
theorem broadcast_own (awake : c.threads t ≠ .wait) : c.broadcast.threads t = c.threads t := by
  rw [Cache.broadcast]
  split
  · exact if_neg awake
  · rfl

omit [Fintype T] in
theorem broadcast_move (behind : thread ≠ .wait) :
    c.broadcast.move t thread = (c.move t thread).broadcast := by
  have awake : (fun other => if (c.move t thread).threads other = .wait then .woken else (c.move t thread).threads other) =
      Function.update (fun other => if c.threads other = .wait then .woken else c.threads other) t thread := by
    funext other
    by_cases same : other = t
    · subst same
      simp [Cache.move, behind]
    · simp [Cache.move, same]
  by_cases some : c.freePageWaiters ≠ 0
  · rw [Cache.broadcast, if_pos some, Cache.broadcast, if_pos (show (c.move t thread).freePageWaiters ≠ 0 from some), awake]
    rfl
  · rw [Cache.broadcast, if_neg some, Cache.broadcast, if_neg (show ¬ (c.move t thread).freePageWaiters ≠ 0 from some)]

omit [DecidableEq T] in
/-- A flush that takes its announcement back had made it. -/
theorem Inv.announced (inv : Inv c) (own : c.threads t = .flush (.leave :: ops) after) : c.flushPageRunning ≠ 0 := by
  have each (other : T) : enters (c.threads other) ≤ leaves (c.threads other) := by
    cases place : c.threads other with
    | flush ops after =>
      obtain ⟨tail, enter, leave, rfl | ⟨one, rfl | rfl⟩⟩ := inv.stage other ops after place
      · simp [enters, enter]
      · simp [enters, leaves, enter, one]
      · simp [enters, leaves, enter, one]
    | _ => exact le_rfl
  have more : enters (c.threads t) < leaves (c.threads t) := by
    rw [own]
    simp [enters, leaves, (inv.stage t _ after own).last]
  have less : ∑ t, enters (c.threads t) < ∑ t, leaves (c.threads t) :=
    Finset.sum_lt_sum (fun other _ => each other) ⟨t, Finset.mem_univ t, more⟩
  have running := inv.running
  omega

/-- One step of a flush. -/
theorem perform_inv (inv : Inv c) (own : c.threads t = .flush (op :: ops) after) (moved : c.perform t op = some next) :
    Inv (next.move t (.flush ops after)) := by
  have stage : ∀ rest behind, Thread.flush ops after = .flush rest behind → Stage rest := by
    rintro rest behind ⟨⟩
    exact (inv.stage t _ after own).tail
  have quiet (c' : Cache T) (threads : c'.threads = c.threads) (running : c'.flushPageRunning = c.flushPageRunning)
      (waiters : c'.freePageWaiters = c.freePageWaiters) (enter : op ≠ .enter) (leave : op ≠ .leave) : Inv (c'.move t (.flush ops after)) := by
    apply inv.goes (.flush ops after)
    · rw [← threads]
      rfl
    · rw [own]
      simp [Cache.move, running, enters, leaves, enter, leave]
    · rw [own]
      simp [Cache.move, waiters, waits]
    · simp only [Cache.move, running]
      exact id
    · exact Thread.noConfusion
    · exact stage
  cases op with
  | lock mutex =>
    simp only [Cache.perform] at moved
    split at moved
    · cases moved
      exact quiet _ rfl rfl rfl Op.noConfusion Op.noConfusion
    · cases moved
  | unlock mutex =>
    simp only [Cache.perform] at moved
    split at moved
    · cases moved
      exact quiet _ rfl rfl rfl Op.noConfusion Op.noConfusion
    · cases moved
  | enter =>
    cases moved
    apply inv.goes (.flush ops after) rfl
    · rw [own]
      simp [Cache.move, enters, leaves]
      omega
    · rw [own]
      rfl
    · intro _
      exact Nat.succ_ne_zero _
    · exact Thread.noConfusion
    · exact stage
  | leave =>
    cases moved
    have running := inv.announced own
    rw [broadcast_move Thread.noConfusion]
    let c' := { c with flushcacherun := false, flushPageRunning := c.flushPageRunning - 1 }.move t (.flush ops after)
    have threads : c'.threads = Function.update c.threads t (.flush ops after) := rfl
    have fewer : c'.flushPageRunning = c.flushPageRunning - 1 := rfl
    have same : c'.freePageWaiters = c.freePageWaiters := rfl
    refine (broadcast_inv (c := c') ?_ ?_ (stage_goes inv threads stage)).1
    · have entered := sum_goes threads enters
      have left := sum_goes threads leaves
      have before := inv.running
      have entersSame : enters (c.threads t) = enters (.flush ops after) := by
        rw [own]
        simp [enters]
      have leavesMore : leaves (c.threads t) = leaves (.flush ops after) + 1 := by
        rw [own]
        simp [leaves]
      omega
    · have waited := sum_goes threads waits
      have before := inv.waiters
      have waitsSame : waits (c.threads t) = waits (.flush ops after) := by
        rw [own]
        rfl
      omega
  | free =>
    cases moved
    exact quiet _ rfl rfl rfl (by decide) (by decide)
  | wake =>
    cases moved
    rw [broadcast_move Thread.noConfusion]
    have moved := quiet c rfl rfl rfl (by decide) (by decide)
    exact (broadcast_inv moved.running moved.waiters moved.stage).1

omit [DecidableEq T] in
theorem Inv.counted (inv : Inv c) (own : c.threads t = .woken) : c.freePageWaiters ≠ 0 := by
  have one : waits (c.threads t) ≤ ∑ t, waits (c.threads t) :=
    Finset.single_le_sum (f := fun t => waits (c.threads t)) (fun _ _ => Nat.zero_le _) (Finset.mem_univ t)
  rw [own, ← inv.waiters] at one
  exact Nat.one_le_iff_ne_zero.mp one

theorem recheck_inv (inv : Inv c) (moved : step c t .recheck = some next) : Inv next := by
  simp only [step] at moved
  split at moved
  next ready =>
    have own := ready.1
    have waiters : c.freePageWaiters ≠ 0 := inv.counted own
    have fewer : c.freePageWaiters - 1 + waits .woken = c.freePageWaiters := Nat.sub_add_cancel (Nat.one_le_iff_ne_zero.mpr waiters)
    split at moved
    next flushing =>
      cases moved
      refine inv.sleeps own rfl rfl ?_ ⟨rfl, rfl⟩ flushing.1
      exact congrArg (· + 1) fewer
    next =>
      split at moved
      · cases moved
        exact inv.moves own (.call 1 .relook) rfl rfl fewer ⟨rfl, rfl⟩ ⟨rfl, rfl⟩ rfl fun _ _ => Thread.noConfusion
      · cases moved
        exact inv.moves own .idle rfl rfl fewer ⟨rfl, rfl⟩ ⟨rfl, rfl⟩ rfl fun _ _ => Thread.noConfusion
  next => cases moved

theorem relook_inv (inv : Inv c) (moved : step c t .relook = some next) : Inv next := by
  simp only [step] at moved
  split at moved
  next ready =>
    split at moved
    · cases moved
      exact inv.moves ready.1 (.call 1 .relook) rfl rfl rfl ⟨rfl, rfl⟩ ⟨rfl, rfl⟩ rfl fun _ _ => Thread.noConfusion
    · cases moved
      exact inv.moves ready.1 .idle rfl rfl rfl ⟨rfl, rfl⟩ ⟨rfl, rfl⟩ rfl fun _ _ => Thread.noConfusion
  next => cases moved

theorem enter_inv {low : Bool} (inv : Inv c) (moved : step c t (.enter low) = some next) : Inv next := by
  simp only [step] at moved
  split at moved
  next inside own =>
    have flagged : Inv { c with flushcacherun := true } := ⟨inv.running, inv.waiters, inv.waiting, inv.stage⟩
    split at moved
    · cases moved
    next =>
      split at moved
      next =>
        split at moved
        · cases moved
          exact flagged.moves own (.call 2 .look) rfl rfl rfl ⟨rfl, rfl⟩ ⟨rfl, rfl⟩ rfl fun _ _ => Thread.noConfusion
        · cases moved
          exact lookFree_inv flagged own ⟨rfl, rfl⟩ rfl
      next =>
        cases moved
        exact lookFree_inv inv own ⟨rfl, rfl⟩ rfl
  next => cases moved

theorem done_inv (inv : Inv c) (moved : step c t .done = some next) : Inv next := by
  simp only [step] at moved
  split at moved
  next own =>
    cases moved
    exact inv.moves own .idle rfl rfl rfl ⟨rfl, rfl⟩ ⟨rfl, rfl⟩ rfl fun _ _ => Thread.noConfusion
  next own =>
    cases moved
    exact inv.moves own .look rfl rfl rfl ⟨rfl, rfl⟩ ⟨rfl, rfl⟩ rfl fun _ _ => Thread.noConfusion
  next own =>
    cases moved
    exact inv.moves own .relook rfl rfl rfl ⟨rfl, rfl⟩ ⟨rfl, rfl⟩ rfl fun _ _ => Thread.noConfusion
  next => cases moved

/-- A flush starts that will announce itself as often as it takes it back. -/
theorem start_inv {nosleep : ℕ} (inv : Inv c) (own : c.threads t = .call nosleep after) (ok : Ok env) :
    Inv (c.move t (.flush (flushPages nosleep env).1 after)) := by
  have restores : Restores (flushPages nosleep env).1 := flushPages_restores.mpr ok
  apply inv.goes (.flush (flushPages nosleep env).1 after) rfl
  · rw [own]
    simp [Cache.move, enters, leaves, restores.2.1, restores.2.2]
  · rw [own]
    rfl
  · exact id
  · exact Thread.noConfusion
  · rintro ops after ⟨⟩
    exact flushPages_stage ok

/-- A step keeps the counts, when every flush that starts meets no error of the cache file. -/
theorem step_inv (inv : Inv c) (ok : ∀ env, event = .start env → Ok env) (moved : step c t event = some next) : Inv next := by
  cases event with
  | spawn nosleep =>
    simp only [step] at moved
    split at moved
    next own =>
      cases moved
      exact inv.moves own (.call nosleep .done) rfl rfl rfl ⟨rfl, rfl⟩ ⟨rfl, rfl⟩ rfl fun _ _ => Thread.noConfusion
    next => cases moved
  | get inside =>
    simp only [step] at moved
    split at moved
    next own =>
      cases moved
      exact inv.moves own (.allocate inside) rfl rfl rfl ⟨rfl, rfl⟩ ⟨rfl, rfl⟩ rfl fun _ _ => Thread.noConfusion
    next => cases moved
  | put =>
    simp only [step] at moved
    split at moved
    · cases moved
      exact ⟨inv.running, inv.waiters, inv.waiting, inv.stage⟩
    · cases moved
  | enter low => exact enter_inv inv moved
  | look =>
    simp only [step] at moved
    split at moved
    next ready =>
      cases moved
      exact lookFree_inv inv ready.1 ⟨rfl, rfl⟩ rfl
    next => cases moved
  | wakeup =>
    simp only [step] at moved
    split at moved
    next own =>
      cases moved
      apply inv.goes .woken rfl
      · rw [own]
        rfl
      · rw [own]
        rfl
      · exact id
      · exact Thread.noConfusion
      · exact fun ops after own => Thread.noConfusion own
    next => cases moved
  | recheck => exact recheck_inv inv moved
  | relook => exact relook_inv inv moved
  | start env =>
    simp only [step] at moved
    split at moved
    next nosleep after own =>
      cases moved
      exact start_inv inv own (ok env rfl)
    next => cases moved
  | op =>
    simp only [step] at moved
    split at moved
    next op ops after own =>
      obtain ⟨done, performed, rfl⟩ := Option.map_eq_some_iff.mp moved
      exact perform_inv inv own performed
    next => cases moved
  | done => exact done_inv inv moved

/-- No thread is in the cache, and some pages are free. -/
def init (freePages : ℕ) : Cache T := ⟨fun _ => none, 0, false, 0, freePages, fun _ => .idle⟩

/-- The runs in which no flush meets an error of the cache file. -/
inductive Run : Cache T → Prop where
  | init (freePages : ℕ) : Run (init freePages)
  | step {c next : Cache T} (t : T) (event : Event) : Run c → (∀ env, event = .start env → Ok env) → step c t event = some next → Run next

theorem run_inv (run : Run c) : Inv c := by
  induction run with
  | init freePages =>
    have none (weight : Thread → ℕ) (zero : weight .idle = 0) : ∑ t, weight ((init freePages : Cache T).threads t) = 0 :=
      Finset.sum_eq_zero fun _ _ => zero
    refine ⟨?_, (none waits rfl).symm, fun t own => Thread.noConfusion own, fun t ops after own => Thread.noConfusion own⟩
    rw [none enters rfl, none leaves rfl]
    rfl
  | step t event _ ok moved inv => exact step_inv inv ok moved

/-- A thread that waits for a page waits for a flush that announced itself and will take the
announcement back. -/
def Unwedged (c : Cache T) : Prop :=
  ∀ t, c.threads t = .wait → ∃ u ops after, c.threads u = .flush ops after ∧ .enter ∉ ops ∧ .leave ∈ ops

omit [DecidableEq T] in
theorem Inv.unwedged (inv : Inv c) : Unwedged c := by
  intro t wait
  have running := inv.running
  have announced := inv.waiting t wait
  have more : ∑ t, enters (c.threads t) < ∑ t, leaves (c.threads t) := by omega
  obtain ⟨u, _, more⟩ := Finset.exists_lt_of_sum_lt more
  cases own : c.threads u with
  | flush ops after =>
    rw [own] at more
    exact ⟨u, ops, after, own, (inv.stage u ops after own).begun more⟩
  | _ =>
    rw [own] at more
    cases more

/-- A flush gives back all that it took if and only if the cache file has no error, and in a run
of such flushes nobody waits for one that is over. -/
theorem flush_unwedged (nosleep : ℕ) (env : Env) (run : Run c) : (Restores (flushPages nosleep env).1 ↔ Ok env) ∧ Unwedged c :=
  ⟨flushPages_restores, (run_inv run).unwedged⟩

end Runs

/-- What the database and the disk answer to a flush of no pages. -/
def nothing : Env := ⟨false, false, 0, 0, false, 0, [], 0, true, none, none, true⟩

/-- One thread waits for a page while another flushes. -/
theorem flush_unwedged_waits : ∃ c : Cache Bool, c.threads true = .wait ∧ Unwedged c := by
  have none : Run (init 0 : Cache Bool) := .init 0
  have calls : Run _ := .step false (.spawn 0) none (fun _ => Event.noConfusion) rfl
  have starts : Run _ := .step false (.start nothing) calls (by rintro env ⟨⟩ some; cases some) rfl
  have locks : Run _ := .step false .op starts (fun _ => Event.noConfusion) rfl
  have enters : Run _ := .step false .op locks (fun _ => Event.noConfusion) rfl
  have unlocks : Run _ := .step false .op enters (fun _ => Event.noConfusion) rfl
  have gets : Run _ := .step true (.get false) unlocks (fun _ => Event.noConfusion) rfl
  have looks : Run _ := .step true (.enter false) gets (fun _ => Event.noConfusion) rfl
  exact ⟨_, rfl, (flush_unwedged 0 nothing looks).2⟩

/-- A page of which the cache file takes only a part. -/
def cutShort : Env := ⟨false, false, 0, 0, true, 0, [⟨true, false, true⟩], 0, true, none, none, true⟩

/-- After that flush a thread waits for a page, and no thread flushes any more. -/
theorem cutShort_wedges : ¬ Restores (flushPages 1 cutShort).1 ∧
    ∃ events : List (Bool × Event), ∃ c, events.foldlM (fun c event => step c event.1 event.2) (init 0) = some c ∧
      c.threads true = .wait ∧ c.threads false = .idle ∧ ¬ Unwedged c := by
  refine ⟨?_, [(false, .spawn 1), (false, .start cutShort), (false, .op), (false, .op), (false, .op), (false, .op), (false, .op),
    (false, .op), (false, .op), (false, .done), (true, .get false), (true, .enter false)], _, rfl, rfl, rfl, ?_⟩
  · intro restores
    cases restores.2.2
  · intro unwedged
    obtain ⟨u, ops, after, own, _⟩ := unwedged true rfl
    cases u <;> cases own

end Pclsync.Proofs.Flush
