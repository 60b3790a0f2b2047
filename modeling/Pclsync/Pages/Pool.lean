import Pclsync.Library.Shelves

/-! The pages of the page cache: the free list, the buckets of the hash and the hands of the
operations that run, with the two counters. A part of the source that holds the mutex of the
cache is one step. -/

namespace Pclsync.Pages.Pool
open Pclsync.Library

/-- `CACHE_PAGES`, the size of the memory over the size of a page. -/
def memoryPages : ℕ := 64 * 1024 * 1024 / 4096

/-- The `type` of a page in memory. -/
inductive PageType where
  | read
  | cache
deriving DecidableEq, Repr

/-- What the source looks at to find a page. -/
structure Page where
  hash : BitVec 64
  pageid : BitVec 64
  type : PageType
deriving DecidableEq, Repr

/-- `pagehash_by_hash_and_pageid` -/
def pagehash (cacheHash : ℕ) [NeZero cacheHash] (hash pageid : BitVec 64) : Fin cacheHash := Fin.ofNat cacheHash (hash + pageid).toNat

variable {cachePages cacheHash : ℕ}

/-- Where `flush_pages` lets go of the mutex of the cache, with `pages_to_flush`: before it
discards, before it writes, before it updates the database, and in the middle of the updates. -/
inductive Flush (cachePages : ℕ) where
  | none
  | discard (pages : List (Fin cachePages))
  | write (pages : List (Fin cachePages))
  | update (pages : List (Fin cachePages))
  | pause (nosleep updates pagecnt : ℕ) (pages : List (Fin cachePages))
deriving DecidableEq, Repr

def Flush.pages : Flush cachePages → List (Fin cachePages)
  | .none => []
  | .discard pages => pages
  | .write pages => pages
  | .update pages => pages
  | .pause _ _ _ pages => pages

/-- `bucket` is `cache_hash`, and `hand` is what an operation took from the free list and did not
give back or insert. -/
structure Cache (cachePages cacheHash : ℕ) (T : Type) where
  page : Fin cachePages → Page
  freePages : List (Fin cachePages)
  bucket : Fin cacheHash → List (Fin cachePages)
  hand : T → List (Fin cachePages)
  cachePagesFree : BitVec 32
  cachePagesInHash : BitVec 32
  flush : Flush cachePages

variable {T : Type}

namespace Cache

def init : Cache cachePages cacheHash T where
  page := fun _ => ⟨0, 0, .read⟩
  freePages := List.finRange cachePages
  bucket := fun _ => []
  hand := fun _ => []
  cachePagesFree := BitVec.ofNat 32 cachePages
  cachePagesInHash := 0
  flush := .none

variable (c : Cache cachePages cacheHash T)

/-- `psync_list_del`, from the list that the page is in. -/
def listDel (p : Fin cachePages) : Cache cachePages cacheHash T := { c with freePages := c.freePages.erase p, bucket := fun b => (c.bucket b).erase p }

/-- `psync_pagecache_return_free_page_locked` -/
def returnFreePage (p : Fin cachePages) : Cache cachePages cacheHash T := { c with freePages := p :: c.freePages, cachePagesFree := c.cachePagesFree + 1 }

/-- `psync_list_add_tail` to a bucket. -/
def listAddTail (b : Fin cacheHash) (p : Fin cachePages) : Cache cachePages cacheHash T := { c with bucket := Shelves.push c.bucket b p }

/-- A page of a bucket as `flush_pages` comes to it: one to read is put on the list, another is
freed. `lower` is what the first of the two loops takes off the counter. -/
def collectPage (lower : BitVec 32) : Cache cachePages cacheHash T × List (Fin cachePages) → Fin cachePages → Cache cachePages cacheHash T × List (Fin cachePages)
  | (c, pages), p =>
    match (c.page p).type with
    | .read => (c, pages ++ [p])
    | .cache => ({ (c.listDel p).returnFreePage p with cachePagesInHash := c.cachePagesInHash - lower }, pages)

/-- `flush_pages` up to the sort, with a full disk. -/
def startDiscard : Cache cachePages cacheHash T :=
  let (c, pages) := (Shelves.gather c.bucket).foldl (collectPage 1) (c, [])
  { c with flush := .discard pages }

/-- `flush_pages` from the test of `cache_pages_in_hash` up to the sort. -/
def collectPages : Cache cachePages cacheHash T :=
  if c.cachePagesInHash ≠ 0 then
    let (c, pages) := (Shelves.gather c.bucket).foldl (collectPage 0) (c, [])
    { c with
      cachePagesInHash := BitVec.ofNat 32 pages.length
      flush := if pages.length ≠ 0 then .write pages else .update [] }
  else { c with flush := .update [] }

def discardPage (p : Fin cachePages) : Cache cachePages cacheHash T :=
  { (c.listDel p).returnFreePage p with cachePagesInHash := c.cachePagesInHash - 1 }

/-- `flush_pages` from behind the sort of the pages that a full disk leaves no room for. -/
def discardPages (pages : List (Fin cachePages)) : Cache cachePages cacheHash T := ((pages.take (cachePages / 2)).foldl discardPage c).collectPages

/-- The loop over the pages that were written, up to the next pause. -/
def updatePages (nosleep : ℕ) (affected : List (Fin cachePages)) (c : Cache cachePages cacheHash T) : ℕ → ℕ → List (Fin cachePages) → Cache cachePages cacheHash T
  | _, pagecnt, [] => { c with cachePagesInHash := c.cachePagesInHash - BitVec.ofNat 32 pagecnt, flush := .none }
  | updates, pagecnt, p :: pages =>
    let c := (c.listDel p).returnFreePage p
    let updates := if p ∈ affected then updates + 1 else updates
    let pagecnt := if p ∈ affected then pagecnt + 1 else pagecnt
    if nosleep ≠ 1 ∧ updates % 64 = 0 then { c with flush := .pause nosleep updates pagecnt pages }
    else updatePages nosleep affected c updates pagecnt pages

variable [DecidableEq T]

/-- The two allocators take the first free page. -/
def takePage (t : T) (p : Fin cachePages) (freePages : List (Fin cachePages)) : Cache cachePages cacheHash T :=
  { c with freePages := freePages, hand := Function.update c.hand t (p :: c.hand t) }

/-- A page leaves the hand of an operation. -/
def drop (t : T) (pages : List (Fin cachePages)) : Cache cachePages cacheHash T := { c with hand := Function.update c.hand t pages }

/-- What an operation writes into a page that it holds. -/
def setPage (p : Fin cachePages) (page : Page) : Cache cachePages cacheHash T := { c with page := Function.update c.page p page }

end Cache

/-- The steps. `bad` are the pages whose checksum does not match, `waited` says that a request
waits for the page, and `affected` are the pages whose row the database updates. -/
inductive Event (cachePages : ℕ) where
  | getFreePageIfAvailable
  | getFreePage
  | returnFreePage
  | addPage (page : Page)
  | addPageIfNotExists (hash pageid : BitVec 64) (waited : Bool)
  | checkPage (hash pageid : BitVec 64) (bad : List (Fin cachePages))
  | switchPage (oldhash newhash pageid : BitVec 64)
  | startFlush (diskfull : Bool)
  | discard (sorted : List (Fin cachePages))
  | write (sorted : List (Fin cachePages)) (rows : ℕ)
  | fail
  | update (nosleep : ℕ) (inserted : Bool) (affected : List (Fin cachePages))
  | resume (affected : List (Fin cachePages))
deriving DecidableEq, Repr

variable [DecidableEq T] [NeZero cacheHash]

/-- `psync_pagecache_get_free_page_if_available` -/
def getFreePageIfAvailable (c : Cache cachePages cacheHash T) (t : T) : Cache cachePages cacheHash T :=
  match c.freePages with
  | [] => c
  | p :: freePages => c.takePage t p freePages

/-- The end of `psync_pagecache_get_free_page`. -/
def getFreePage (c : Cache cachePages cacheHash T) (t : T) : Option (Cache cachePages cacheHash T) :=
  match c.freePages with
  | [] => none
  | p :: freePages => some { c.takePage t p freePages with cachePagesFree := c.cachePagesFree - 1 }

/-- `psync_pagecache_return_free_page` -/
def returnFreePage (c : Cache cachePages cacheHash T) (t : T) : Option (Cache cachePages cacheHash T) :=
  match c.hand t with
  | [] => none
  | p :: pages => some ((c.drop t pages).returnFreePage p)

/-- A page that was read goes to its bucket. -/
def addPage (c : Cache cachePages cacheHash T) (t : T) (page : Page) : Option (Cache cachePages cacheHash T) :=
  match c.hand t with
  | [] => none
  | p :: pages => some { (((c.setPage p page).drop t pages).listAddTail (pagehash cacheHash page.hash page.pageid) p) with
      cachePagesInHash := c.cachePagesInHash + 1 }

/-- `psync_pagecache_add_page_if_not_exists` without a row in the database. -/
def addPageIfNotExists (c : Cache cachePages cacheHash T) (t : T) (hash pageid : BitVec 64) (waited : Bool) : Option (Cache cachePages cacheHash T) :=
  match c.hand t with
  | [] => none
  | p :: pages =>
    let c := (c.setPage p ⟨hash, pageid, .read⟩).drop t pages
    if (c.bucket (pagehash cacheHash hash pageid)).any (fun q => c.page q = ⟨hash, pageid, .read⟩) ∨ waited then some (c.returnFreePage p)
    else some { c.listAddTail (pagehash cacheHash hash pageid) p with cachePagesInHash := c.cachePagesInHash + 1 }

/-- `check_page_in_memory_by_hash` -/
def checkPage (c : Cache cachePages cacheHash T) (hash pageid : BitVec 64) (bad : List (Fin cachePages)) : Cache cachePages cacheHash T :=
  match (c.bucket (pagehash cacheHash hash pageid)).find? fun p => (c.page p).hash = hash ∧ (c.page p).pageid = pageid ∧ p ∈ bad with
  | none => c
  | some p => { (c.listDel p).returnFreePage p with cachePagesInHash := c.cachePagesInHash - 1 }

/-- `switch_memory_page_to_hash` -/
def switchPage (c : Cache cachePages cacheHash T) (oldhash newhash pageid : BitVec 64) : Cache cachePages cacheHash T :=
  match (c.bucket (pagehash cacheHash oldhash pageid)).find? fun p => c.page p = ⟨oldhash, pageid, .read⟩ with
  | none => c
  | some p => ((c.listDel p).setPage p ⟨newhash, pageid, .read⟩).listAddTail (pagehash cacheHash newhash pageid) p

def step (c : Cache cachePages cacheHash T) (t : T) : Event cachePages → Option (Cache cachePages cacheHash T)
  | .getFreePageIfAvailable => some (getFreePageIfAvailable c t)
  | .getFreePage => getFreePage c t
  | .returnFreePage => returnFreePage c t
  | .addPage page => addPage c t page
  | .addPageIfNotExists hash pageid waited => addPageIfNotExists c t hash pageid waited
  | .checkPage hash pageid bad => some (checkPage c hash pageid bad)
  | .switchPage oldhash newhash pageid => some (switchPage c oldhash newhash pageid)
  -- one flush at a time has `flush_cache_mutex`
  | .startFlush diskfull => if c.flush = .none then some (if diskfull then c.startDiscard else c.collectPages) else none
  | .discard sorted =>
    match c.flush with
    | .discard pages => if sorted.Perm pages then some (c.discardPages sorted) else none
    | _ => none
  -- the pages that the database has rows for are the first ones
  | .write sorted rows =>
    match c.flush with
    | .write pages => if sorted.Perm pages then some { c with flush := .update (sorted.take rows) } else none
    | _ => none
  | .fail =>
    match c.flush with
    | .write _ => some { c with flush := .none }
    | _ => none
  | .update nosleep inserted affected =>
    match c.flush with
    | .update pages => some (c.updatePages nosleep affected (if inserted then 1 else 0) 0 pages)
    | _ => none
  | .resume affected =>
    match c.flush with
    | .pause nosleep updates pagecnt pages => some (c.updatePages nosleep affected updates pagecnt pages)
    | _ => none

end Pclsync.Pages.Pool
