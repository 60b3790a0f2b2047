import Mathlib

/-! The flush of the page cache, as what it does to the mutexes and to what the allocator
looks at, and the threads that allocate pages and may wait for a flush. -/

namespace Pclsync.Pages.Flush

inductive Mutex where
  | cache
  | flushCache
  | sql
deriving DecidableEq, Repr

/-- What a flush does: take and release a mutex, announce itself at its start and at its end,
put a page on the free list, and wake those who wait for one. -/
inductive Op where
  | lock (mutex : Mutex)
  | unlock (mutex : Mutex)
  | enter
  | leave
  | free
  | wake
deriving DecidableEq, Repr

/-- For a page that is to be flushed, whether the database has a row for it, whether `pwrite`
is complete, and whether the update changes the row. -/
structure Page where
  row : Bool
  written : Bool
  updated : Bool
deriving DecidableEq, Repr

/-- What the disk, the database and the cache answer to a flush. `inserted` and `records` are
how many rows the database gets, if it is asked. -/
structure Env where
  diskfull : Bool
  noDbPages : Bool
  cacheOnly : ℕ
  discarded : ℕ
  inHash : Bool
  cacheOnlyThen : ℕ
  pages : List Page
  naps : ℕ
  synced : Bool
  inserted : Option ℕ
  records : Option ℕ
  committed : Bool
deriving DecidableEq, Repr

/-- A commit in the middle, without the mutex of the cache. -/
def pause : List Op := [.unlock .cache, .unlock .sql, .lock .sql, .lock .cache]

/-- The pages that a full disk leaves no room for. -/
def discardPages (env : Env) : List Op :=
  if env.diskfull ∧ env.noDbPages then
    List.replicate env.cacheOnly .free ++ [.unlock .cache, .lock .cache] ++ List.replicate env.discarded .free ++ [.wake]
  else []

/-- The wait before the sync. -/
def nap (nosleep naps : ℕ) : List Op :=
  if nosleep ≠ 1 then .lock .cache :: (List.replicate naps [.unlock .cache, .lock .cache]).flatten ++ [.unlock .cache] else []

/-- The rows that are inserted, with a pause after each 64. -/
def insertRows (inserted : ℕ) : List Op := (List.replicate (inserted / 64) pause).flatten

/-- The loop over the pages that were written, with the number of updates. -/
def updatePages (nosleep : ℕ) : ℕ → List Page → List Op × ℕ
  | updates, [] => ([], updates)
  | updates, page :: rest =>
    let updates := if page.updated then updates + 1 else updates
    let (ops, total) := updatePages nosleep updates rest
    (.free :: (if nosleep ≠ 1 ∧ updates % 64 = 0 then .wake :: pause else []) ++ ops, total)

/-- The loop over the access records. -/
def updateRecords (nosleep : ℕ) : ℕ → ℕ → List Op × ℕ
  | updates, 0 => ([], updates)
  | updates, records + 1 =>
    let (ops, total) := updateRecords nosleep (updates + 1) records
    ((if nosleep = 0 ∧ (updates + 1) % 128 = 0 then pause else []) ++ ops, total)

/-- `flush_pages` from `psql_start` on. -/
def update (nosleep : ℕ) (env : Env) (pages : List Page) : List Op × ℤ :=
  let inserts := match env.inserted with
    | none => ([], 0)
    | some inserted => (insertRows inserted, 1)
  let flushed := updatePages nosleep inserts.2 pages
  let accessed := match env.records with
    | none => ([], flushed.2)
    | some records => updateRecords nosleep flushed.2 records
  ([.unlock .cache, .lock .sql, .lock .cache] ++ inserts.1 ++ flushed.1 ++ accessed.1 ++
    [.leave, .unlock .cache, .unlock .sql, .unlock .flushCache], if accessed.2 ≠ 0 ∧ ¬ env.committed then -1 else 0)

/-- `flush_pages` from the sync on. -/
def syncPages (nosleep : ℕ) (env : Env) (pages : List Page) : List Op × ℤ :=
  if ¬ env.synced then ([.unlock .flushCache], -1)
  else
    let (ops, ret) := update nosleep env pages
    (.lock .cache :: ops, ret)

/-- `flush_pages` from the first write on. -/
def writePages (nosleep : ℕ) (env : Env) : List Op × ℤ :=
  let pages := env.pages.takeWhile Page.row
  if pages.any fun page => ¬ page.written then ([.unlock .flushCache], -1)
  else
    let (ops, ret) := syncPages nosleep env pages
    (nap nosleep env.naps ++ ops, ret)

/-- `flush_pages` from the test of `cache_pages_in_hash` on. -/
def collectPages (nosleep : ℕ) (env : Env) : List Op × ℤ :=
  if ¬ env.inHash then update nosleep env []
  else if env.pages = [] then
    let (ops, ret) := update nosleep env []
    (List.replicate env.cacheOnlyThen .free ++ ops, ret)
  else
    let (ops, ret) := writePages nosleep env
    (List.replicate env.cacheOnlyThen .free ++ .unlock .cache :: ops, ret)

/-- `flush_pages`, with what it returns. -/
def flushPages (nosleep : ℕ) (env : Env) : List Op × ℤ :=
  let (ops, ret) := collectPages nosleep env
  ([.lock .cache, .enter, .unlock .cache, .lock .flushCache, .lock .cache] ++ discardPages env ++ ops, ret)

/-- What a thread does behind a flush: nothing, or look for a free page. -/
inductive After where
  | done
  | look
  | relook
deriving DecidableEq, Repr

/-- Where a thread is. `look`, `woken` and `relook` want the mutex of the cache back in
`psync_pagecache_get_free_page`. -/
inductive Thread where
  | idle
  | allocate (runflushcacheinside : Bool)
  | look
  | wait
  | woken
  | relook
  | call (nosleep : ℕ) (after : After)
  | flush (ops : List Op) (after : After)
deriving DecidableEq, Repr

/-- `flush_page_running`, `flushcacherun`, `free_page_waiters` and the length of `free_pages`,
with the owners of the mutexes and the threads. -/
structure Cache (T : Type) where
  owner : Mutex → Option T
  flushPageRunning : ℕ
  flushcacherun : Bool
  freePageWaiters : ℕ
  freePages : ℕ
  threads : T → Thread

variable {T : Type} [DecidableEq T]

namespace Cache
variable (c : Cache T) (t : T)

def move (thread : Thread) : Cache T := { c with threads := Function.update c.threads t thread }

/-- `pthread_cond_broadcast`, if there are waiters. -/
def broadcast : Cache T :=
  if c.freePageWaiters ≠ 0 then { c with threads := fun t => if c.threads t = .wait then .woken else c.threads t } else c

/-- A step of `flush_pages`, without the thread's own place. -/
def perform : Op → Option (Cache T)
  | .lock mutex => if c.owner mutex = none then some { c with owner := Function.update c.owner mutex (some t) } else none
  | .unlock mutex => if c.owner mutex = some t then some { c with owner := Function.update c.owner mutex none } else none
  | .enter => some { c with flushPageRunning := c.flushPageRunning + 1, flushcacherun := true }
  | .leave => some { c with flushcacherun := false, flushPageRunning := c.flushPageRunning - 1 }.broadcast
  | .free => some { c with freePages := c.freePages + 1 }
  | .wake => some c.broadcast

/-- A page from the free list. -/
def takePage : Cache T := { c with freePages := c.freePages - 1 }.move t .idle

/-- `psync_pagecache_get_free_page` from the test of the free list on. -/
def lookFree : Cache T :=
  if c.freePages ≠ 0 then c.takePage t
  else if c.flushPageRunning ≠ 0 then { c with freePageWaiters := c.freePageWaiters + 1 }.move t .wait
  else c.move t (.call 1 .relook)

end Cache

/-- What a thread does next. -/
inductive Event where
  | spawn (nosleep : ℕ)
  | get (runflushcacheinside : Bool)
  | put
  | enter (low : Bool)
  | look
  | wakeup
  | recheck
  | relook
  | start (env : Env)
  | op
  | done
deriving DecidableEq, Repr

/-- The steps of a thread. Each part of the allocator that holds the mutex of the cache is one. -/
def step (c : Cache T) (t : T) : Event → Option (Cache T)
  | .spawn nosleep => if c.threads t = .idle then some (c.move t (.call nosleep .done)) else none
  | .get inside => if c.threads t = .idle then some (c.move t (.allocate inside)) else none
  -- `psync_pagecache_return_free_page`
  | .put => if c.threads t = .idle ∧ c.owner .cache = none then some { c with freePages := c.freePages + 1 } else none
  | .enter low =>
    match c.threads t with
    | .allocate inside =>
      if c.owner .cache ≠ none then none
      else if low ∧ ¬ c.flushcacherun then
        let c := { c with flushcacherun := true }
        if inside then some (c.move t (.call 2 .look)) else some (c.lookFree t)
      else some (c.lookFree t)
    | _ => none
  | .look => if c.threads t = .look ∧ c.owner .cache = none then some (c.lookFree t) else none
  -- a wakeup without a reason
  | .wakeup => if c.threads t = .wait then some (c.move t .woken) else none
  | .recheck =>
    if c.threads t = .woken ∧ c.owner .cache = none then
      let c := { c with freePageWaiters := c.freePageWaiters - 1 }
      if c.flushPageRunning ≠ 0 ∧ c.freePages = 0 then some ({ c with freePageWaiters := c.freePageWaiters + 1 }.move t .wait)
      else if c.freePages = 0 then some (c.move t (.call 1 .relook))
      else some (c.takePage t)
    else none
  | .relook =>
    if c.threads t = .relook ∧ c.owner .cache = none then
      if c.freePages = 0 then some (c.move t (.call 1 .relook)) else some (c.takePage t)
    else none
  | .start env =>
    match c.threads t with
    | .call nosleep after => some (c.move t (.flush (flushPages nosleep env).1 after))
    | _ => none
  | .op =>
    match c.threads t with
    | .flush (op :: ops) after => (c.perform t op).map fun c => c.move t (.flush ops after)
    | _ => none
  | .done =>
    match c.threads t with
    | .flush [] .done => some (c.move t .idle)
    | .flush [] .look => some (c.move t .look)
    | .flush [] .relook => some (c.move t .relook)
    | _ => none

end Pclsync.Pages.Flush
