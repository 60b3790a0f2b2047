import Mathlib

/-! The reader threads of the page cache and the cache of download links that they share. An
entry of it is counted: a reader takes a reference when it finds the entry or when it has
filled it, and the one that gives up the last reference frees the entry. -/

namespace Pclsync.Pages

/-- The `status` of an entry: 0, 1 and 2. -/
inductive Status where
  | loading
  | good
  | bad
deriving DecidableEq, Repr

/-- `psync_urls_t`, with whether it is in `url_cache_tree` and how often it was freed. -/
structure Urls where
  hash : BitVec 64
  refcnt : ℕ
  status : Status
  linked : Bool
  frees : ℕ
deriving DecidableEq, Repr

namespace Urls

/-- An entry that `get_urls_for_request` adds. -/
def new (hash : BitVec 64) : Urls := ⟨hash, 0, .loading, true, 0⟩

def acquire (urls : Urls) : Urls := { urls with refcnt := urls.refcnt + 1 }

/-- `set_urls` with links. -/
def setGood (urls : Urls) : Urls := { urls with status := .good, refcnt := urls.refcnt + 1 }

/-- `set_urls` without links. -/
def setFailed (urls : Urls) : Urls :=
  let urls := { urls with linked := false }
  if urls.refcnt ≠ 0 then { urls with status := .bad } else { urls with frees := urls.frees + 1, status := .bad }

/-- A waiter that finds that there are no links. -/
def dropFailed (urls : Urls) : Urls :=
  let urls := { urls with refcnt := urls.refcnt - 1 }
  if urls.refcnt = 0 then { urls with frees := urls.frees + 1 } else urls

/-- `release_urls` -/
def release (urls : Urls) : Urls :=
  let urls := { urls with refcnt := urls.refcnt - 1 }
  if urls.refcnt = 0 then
    let urls := if urls.status = .good then { urls with linked := false } else urls
    { urls with frees := urls.frees + 1 }
  else urls

/-- `release_bad_urls` -/
def releaseBad (urls : Urls) : Urls :=
  let urls := if urls.status = .good then { urls with status := .bad, linked := false } else urls
  let urls := { urls with refcnt := urls.refcnt - 1 }
  if urls.refcnt = 0 then { urls with frees := urls.frees + 1 } else urls

end Urls

/-- Where a reader is: at its first statement, at `retry`, waiting for links, getting them,
behind `set_urls` in `get_urls`, at the test of `needkey`, behind it, and returned. -/
inductive Place where
  | idle
  | retry
  | wait (entry : ℕ)
  | fetch (entry : ℕ)
  | fetched (entry : ℕ)
  | key (entry : ℕ)
  | read (entry : ℕ)
  | done
deriving DecidableEq, Repr

/-- A run of `psync_pagecache_read_unmodified_thread`, with whether ranges are left. -/
structure Reader where
  place : Place
  hash : BitVec 64
  needkey : Bool
  ranges : Bool
  tries : ℕ
deriving DecidableEq, Repr

/-- The entries by the order in which they were allocated, and for each reader the references
that it took and gave up. -/
structure Cache (T : Type) where
  urls : ℕ → Urls
  next : ℕ
  readers : T → Reader
  acquired : T → ℕ → ℕ
  released : T → ℕ → ℕ

/-- How the requests for pages end. A reply that the link is gone asks for another link. -/
inductive Served where
  | ok
  | failed
  | sendFailed
  | gone
deriving DecidableEq, Repr

/-- What the network, and the search in the tree, answer to a reader. -/
inductive Event where
  | start (online : Bool) (hash : BitVec 64) (needkey ranges : Bool)
  | find (entry : ℕ)
  | make
  | wake
  | cached
  | link (ok : Bool)
  | rest (enc : Option (BitVec 64)) (left : Bool)
  | key (enc : BitVec 64)
  | serve (served : Served)
deriving DecidableEq, Repr

/-- `PSYNC_CRYPTO_MAX_ERROR` -/
def maxError : BitVec 64 := 511

/-- `psync_crypto_is_error` -/
def cryptoIsError (ptr : BitVec 64) : Bool := ptr ≤ maxError

/-- `psync_crypto_to_error`, for which a pointer is cut to the size of an `int`. -/
def cryptoToError (ptr : BitVec 64) : BitVec 32 := -ptr.setWidth 32

variable {T : Type} [DecidableEq T]

namespace Cache
variable (c : Cache T) (t : T)

def set (entry : ℕ) (urls : Urls) : Cache T := { c with urls := Function.update c.urls entry urls }

def put (reader : Reader) : Cache T := { c with readers := Function.update c.readers t reader }

def move (place : Place) : Cache T := c.put t { c.readers t with place := place }

def take (entry : ℕ) : Cache T :=
  { c with acquired := Function.update c.acquired t (Function.update (c.acquired t) entry (c.acquired t entry + 1)) }

def give (entry : ℕ) : Cache T :=
  { c with released := Function.update c.released t (Function.update (c.released t) entry (c.released t entry + 1)) }

/-- The reader releases an entry and goes on elsewhere. -/
def leave (entry : ℕ) (release : Urls → Urls) (place : Place) : Cache T :=
  ((c.set entry (release (c.urls entry))).give t entry).move t place

end Cache

section Steps
variable (c : Cache T) (t : T)

/-- The start of `psync_pagecache_read_unmodified_thread`. -/
def start (online : Bool) (hash : BitVec 64) (needkey ranges : Bool) : Option (Cache T) :=
  match (c.readers t).place with
  | .idle => some (c.put t ⟨if online then .retry else .done, hash, needkey, ranges, 0⟩)
  | _ => none

/-- `get_urls_for_request` when the search finds an entry. -/
def find (entry : ℕ) : Option (Cache T) :=
  match (c.readers t).place with
  | .retry =>
    if entry < c.next ∧ (c.urls entry).linked ∧ (c.urls entry).hash = (c.readers t).hash then
      some (((c.set entry (c.urls entry).acquire).take t entry).move t (.wait entry))
    else none
  | _ => none

/-- `get_urls_for_request` when the search does not find an entry. The tree is searched by the
sign of a difference that wraps around, so that it may miss one. -/
def make : Option (Cache T) :=
  match (c.readers t).place with
  | .retry => some ({ c.set c.next (.new (c.readers t).hash) with next := c.next + 1 }.move t (.fetch c.next))
  | _ => none

/-- The waiting in `get_urls_for_request`. -/
def wake : Option (Cache T) :=
  match (c.readers t).place with
  | .wait entry =>
    match (c.urls entry).status with
    | .loading => none
    | .good => some (c.move t (.key entry))
    -- `psync_pagecache_send_error`
    | .bad => some (c.leave t entry Urls.dropFailed .done)
  | _ => none

/-- `pcache_get` has the links. -/
def cached : Option (Cache T) :=
  match (c.readers t).place with
  | .fetch entry => some (((c.set entry (c.urls entry).setGood).take t entry).move t (.key entry))
  | _ => none

/-- The answer to `getfilelink` in `get_urls`. -/
def link (ok : Bool) : Option (Cache T) :=
  match (c.readers t).place with
  | .fetch entry =>
    if ok then some (((c.set entry (c.urls entry).setGood).take t entry).move t (.fetched entry))
    else some ((c.set entry (c.urls entry).setFailed).move t .done)
  | _ => none

/-- The rest of `get_urls`, with the answer to `crypto_getfilekey` and whether ranges are left. -/
def rest (enc : Option (BitVec 64)) (left : Bool) : Option (Cache T) :=
  let reader := c.readers t
  match reader.place with
  | .fetched entry =>
    if reader.needkey ∧ enc.all cryptoIsError then some (c.move t (.key entry))
    else some (c.put t { reader with place := .key entry, needkey := false, ranges := reader.ranges && left })
  | _ => none

/-- The key, with what `pcryptofolder_filencoder_get` returns if it is needed. -/
def key (enc : BitVec 64) : Option (Cache T) :=
  let reader := c.readers t
  match reader.place with
  | .key entry =>
    if reader.needkey then
      if cryptoToError enc ≠ 0 then some (c.move t .done)
      else some (c.put t { reader with place := .read entry, needkey := false })
    else some (c.move t (.read entry))
  | _ => none

/-- The requests for the pages, up to the next try or the end. -/
def serve (served : Served) : Option (Cache T) :=
  let reader := c.readers t
  match reader.place with
  | .read entry =>
    if ¬ reader.ranges then some (c.leave t entry Urls.release .done)
    else
      match served with
      | .ok => some (c.leave t entry Urls.release .done)
      | .failed => some (c.leave t entry Urls.release .done)
      | .sendFailed =>
        if reader.tries < 5 then some (c.put t { reader with place := .retry, tries := reader.tries + 1 })
        else some (c.leave t entry Urls.release .done)
      | .gone =>
        if reader.tries < 5 then
          some ((c.leave t entry Urls.releaseBad .retry).put t { reader with place := .retry, tries := reader.tries + 1 })
        else some (c.leave t entry Urls.release .done)
  | _ => none

end Steps

/-- `psync_pagecache_read_unmodified_thread` from one use of the link cache or answer of the
network to the next. -/
def step (c : Cache T) (t : T) : Event → Option (Cache T)
  | .start online hash needkey ranges => start c t online hash needkey ranges
  | .find entry => find c t entry
  | .make => make c t
  | .wake => wake c t
  | .cached => cached c t
  | .link ok => link c t ok
  | .rest enc left => rest c t enc left
  | .key enc => key c t enc
  | .serve served => serve c t served

def stepAll (c : Cache T) (events : List (T × Event)) : Option (Cache T) := events.foldlM (fun c event => step c event.1 event.2) c

/-- Nothing is in the cache and nobody reads. -/
def Cache.init : Cache T where
  urls := fun _ => ⟨0, 0, .bad, false, 0⟩
  next := 0
  readers := fun _ => ⟨.idle, 0, false, false, 0⟩
  acquired := fun _ _ => 0
  released := fun _ _ => 0

end Pclsync.Pages
