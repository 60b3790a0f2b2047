import Mathlib

/-! The object cache. A value that is handed to `pcache_add` stays until a get takes
it or somebody frees it: a delete, a cleaning, or its timer. A thread holds the mutex
of a bucket while it walks it, and the timer thread may mark timers as running all
the while. -/

namespace Pclsync.Objects

/-- `CACHE_HASH_SIZE` -/
abbrev hashSize : ℕ := 2048

/-- `CACHE_NUM_LOCKS` -/
abbrev numLocks : ℕ := 8

/-- A string, less its terminator. -/
abbrev Key := List (BitVec 8)

/-- `compute_hash` -/
def computeHash (seed : BitVec 32) (key : Key) : BitVec 32 :=
  let hash := key.foldl (fun (hash : BitVec 32) (c : BitVec 8) => c.signExtend 32 + (hash <<< 5) + hash) seed
  let hash := hash + (hash <<< 3)
  hash ^^^ (hash >>> 11)

/-- `hash_to_bucket` -/
def hashToBucket (hash : BitVec 32) : ℕ := (hash % hashSize).toNat

/-- `hash_to_lock` of a hash. -/
def hashToLock (hash : BitVec 32) : ℕ := (hash * numLocks / hashSize % numLocks).toNat

/-- `hash_to_lock` of the number of a bucket. -/
def bucketLock (bucket : ℕ) : ℕ := bucket * numLocks / hashSize % numLocks

/-- `cache_entry_t`, with the address at which it was allocated. -/
structure Entry (V F : Type) where
  id : ℕ
  value : V
  free : F
  hash : BitVec 32
  key : Key
deriving DecidableEq

/-- The `opts` of a timer. -/
structure Opts where
  isRunning : Bool
  stopAfterRun : Bool
deriving DecidableEq, Repr

variable {T V F : Type}

/-- Where a thread is. One that walks a bucket has the entries that it did not see yet. -/
inductive Place (V F : Type) where
  | idle
  | get (key : Key) (rest : List (Entry V F))
  | del (key : Key) (rest : List (Entry V F))
  | restart (key : Key)
  | clean (prefixes : Option (List Key)) (bucket : ℕ) (rest : List (Entry V F))
  | bucket (prefixes : Option (List Key)) (bucket : ℕ)
  | free (he : Entry V F) (next : Place V F)
  | stop (he : Entry V F) (timers rest : List (Entry V F))
  | process (timers rest : List (Entry V F))

/-- What happened to a value. -/
inductive Event (V F : Type) where
  | added (he : Entry V F)
  | returned (he : Entry V F)
  | freed (he : Entry V F)
deriving DecidableEq

/-- The cache, its timers, and the threads that use it. The timer thread is `none`. -/
structure Cache (T V F : Type) where
  seed : BitVec 32
  buckets : ℕ → List (Entry V F)
  locks : ℕ → Option (Option T)
  timers : Entry V F → Option Opts
  places : Option T → Place V F
  next : ℕ
  log : List (Event V F)

/-- What a step returns to the caller. -/
inductive Ret (V F : Type) where
  | goes
  | null
  | got (he : Entry V F)

/-- The outcome of a step: memory that is not there any more is used, or the cache is another. -/
inductive Result (T V F : Type) where
  | failed
  | next (c : Cache T V F) (ret : Ret V F)

/-- `pcache_init` -/
def Cache.init (seed : BitVec 32) : Cache T V F :=
  ⟨seed, fun _ => [], fun _ => none, fun _ => none, fun _ => .idle, 0, []⟩

variable [DecidableEq T] [DecidableEq V] [DecidableEq F]

namespace Cache
variable (c : Cache T V F) (t : Option T)

def move (place : Place V F) : Cache T V F := { c with places := Function.update c.places t place }

def lock (l : ℕ) : Cache T V F := { c with locks := Function.update c.locks l (some t) }

def unlock (l : ℕ) : Cache T V F := { c with locks := Function.update c.locks l none }

def record (event : Event V F) : Cache T V F := { c with log := event :: c.log }

def setTimer (he : Entry V F) (opts : Option Opts) : Cache T V F := { c with timers := Function.update c.timers he opts }

def setBucket (bucket : ℕ) (list : List (Entry V F)) : Cache T V F :=
  { c with buckets := Function.update c.buckets bucket list }

/-- `ptimer_stop`, if the timer is still there, and whether the callback may run. -/
def ptimerStop (he : Entry V F) : Option (Bool × Cache T V F) :=
  (c.timers he).map fun opts =>
    if opts.isRunning then (true, c.setTimer he (some { opts with stopAfterRun := true })) else (false, c.setTimer he none)

/-- `psync_list_del` of an entry that is in the list. -/
def listDel (bucket : ℕ) (he : Entry V F) : Option (Cache T V F) :=
  if he ∈ c.buckets bucket then some (c.setBucket bucket ((c.buckets bucket).erase he)) else none

/-- A thread takes an entry from its list, unless the timer runs. -/
def claim (he : Entry V F) (bucket : ℕ) (busy : Cache T V F → Result T V F) (taken : Cache T V F → Result T V F) :
    Result T V F :=
  match c.ptimerStop he with
  | none => .failed
  | some (true, c) => busy c
  | some (false, c) =>
    match c.listDel bucket he with
    | none => .failed
    | some c => taken c

end Cache

/-- The loop over a bucket in `pcache_add`: whether `l` reaches `maxkeys`. -/
def full (hash : BitVec 32) (key : Key) (maxkeys l : ℕ) : List (Entry V F) → Bool
  | [] => false
  | he :: rest =>
    if he.hash = hash ∧ he.key = key then
      if l + 1 = maxkeys then true else full hash key maxkeys (l + 1) rest
    else full hash key maxkeys l rest

variable (c : Cache T V F) (t : Option T)

/-- `pcache_get` takes the mutex. -/
def pcacheGet (key : Key) : Option (Result T V F) :=
  let h := computeHash c.seed key
  if c.locks (hashToLock h) = none then
    some (.next ((c.lock t (hashToLock h)).move t (.get key (c.buckets (hashToBucket h)))) .goes)
  else none

/-- `pcache_add`. When the timer runs does not depend on the cache. -/
def pcacheAdd (key : Key) (ptr : V) (freefunc : F) (maxkeys : ℕ) : Option (Result T V F) :=
  let h := computeHash c.seed key
  let lst := c.buckets (hashToBucket h)
  let he : Entry V F := ⟨c.next, ptr, freefunc, h, key⟩
  if c.locks (hashToLock h) = none then
    let added := { c with next := c.next + 1 }.record (.added he)
    if maxkeys ≠ 0 ∧ full h key maxkeys 0 lst then some (.next (added.move t (.free he .idle)) .goes)
    else some (.next ((added.setBucket (hashToBucket h) (he :: lst)).setTimer he (some ⟨false, false⟩)) .goes)
  else none

/-- `pcache_del` takes the mutex. -/
def pcacheDel (key : Key) : Option (Result T V F) :=
  let h := computeHash c.seed key
  if c.locks (hashToLock h) = none then
    some (.next ((c.lock t (hashToLock h)).move t (.del key (c.buckets (hashToBucket h)))) .goes)
  else none

/-- The next bucket of `pcache_clean` or `pcache_clean_oneof`. -/
def pcacheClean (prefixes : Option (List Key)) (h : ℕ) : Option (Result T V F) :=
  if h < hashSize then
    if c.locks (bucketLock h) = none then
      some (.next ((c.lock t (bucketLock h)).move t (.clean prefixes h (c.buckets h))) .goes)
    else none
  else some (.next (c.move t .idle) .goes)

/-- `pcache_clean` takes every key, `pcache_clean_oneof` those with a prefix. -/
def cleans (prefixes : Option (List Key)) (key : Key) : Bool :=
  match prefixes with
  | none => true
  | some prefixes => prefixes.any fun start => start.isPrefixOf key

/-- `timer_prepare_timers` finds these timers due. -/
def prepareTimers (fired : List (Entry V F)) : Option (Result T V F) :=
  if fired.Nodup ∧ ∀ he ∈ fired, c.timers he = some ⟨false, false⟩ then
    some (.next ({ c with timers := fun he => if he ∈ fired then some ⟨true, false⟩ else c.timers he }.move t
      (.process fired fired)) .goes)
  else none

/-- `cache_timer`, until it frees the value. -/
def cacheTimer (he : Entry V F) (timers rest : List (Entry V F)) : Option (Result T V F) :=
  if c.locks (hashToLock he.hash) = none then
    match c.listDel (hashToBucket he.hash) he with
    | none => some .failed
    | some c => some (.next (c.move t (.free he (.stop he timers rest))) .goes)
  else none

/-- A timer that ran is freed, or armed again. -/
def rearm (opts : Opts) : Option Opts := if opts.stopAfterRun then none else some ⟨false, false⟩

/-- The end of `timer_process_timers`. -/
def processed (timers : List (Entry V F)) : Result T V F :=
  if ∀ he ∈ timers, c.timers he ≠ none then
    .next ({ c with timers := fun he => if he ∈ timers then (c.timers he).bind rearm else c.timers he }.move t .idle) .goes
  else .failed

/-- What a thread that is in a call does next. -/
def proceed : Option (Result T V F) :=
  match c.places t with
  | .idle => none
  | .get key [] => some (.next ((c.unlock (hashToLock (computeHash c.seed key))).move t .idle) .null)
  | .get key (he :: rest) =>
    let h := computeHash c.seed key
    if he.hash = h ∧ he.key = key then
      some (c.claim he (hashToBucket h) (fun c => .next (c.move t (.get key rest)) .goes)
        (fun c => .next (((c.unlock (hashToLock h)).record (.returned he)).move t .idle) (.got he)))
    else some (.next (c.move t (.get key rest)) .goes)
  | .del key [] => some (.next ((c.unlock (hashToLock (computeHash c.seed key))).move t .idle) .goes)
  | .del key (he :: rest) =>
    let h := computeHash c.seed key
    if he.hash = h ∧ he.key = key then
      some (c.claim he (hashToBucket h) (fun c => .next (c.move t (.del key rest)) .goes)
        (fun c => .next ((c.unlock (hashToLock h)).move t (.free he (.restart key))) .goes))
    else some (.next (c.move t (.del key rest)) .goes)
  | .restart key => pcacheDel c t key
  | .clean prefixes h [] => some (.next ((c.unlock (bucketLock h)).move t (.bucket prefixes (h + 1))) .goes)
  | .clean prefixes h (he :: rest) =>
    if cleans prefixes he.key then
      some (c.claim he h (fun c => .next (c.move t (.clean prefixes h rest)) .goes)
        (fun c => .next (c.move t (.free he (.clean prefixes h rest))) .goes))
    else some (.next (c.move t (.clean prefixes h rest)) .goes)
  | .bucket prefixes h => pcacheClean c t prefixes h
  | .free he next => some (.next ((c.record (.freed he)).move t next) .goes)
  | .stop he timers rest =>
    match c.ptimerStop he with
    | none => some .failed
    | some (_, c) => some (.next (c.move t (.process timers rest)) .goes)
  | .process timers [] => some (processed c t timers)
  | .process timers (he :: rest) => cacheTimer c t he timers rest

/-- What a thread does. Only the timer thread looks for timers that are due. -/
inductive Action (V F : Type) where
  | get (key : Key)
  | add (key : Key) (ptr : V) (freefunc : F) (maxkeys : ℕ)
  | del (key : Key)
  | clean
  | cleanOneof (prefixes : List Key)
  | fire (fired : List (Entry V F))
  | proceed

/-- One step of a thread, if it can do it now. -/
def step (action : Action V F) : Option (Result T V F) :=
  match c.places t, action with
  | .idle, .get key => pcacheGet c t key
  | .idle, .add key ptr freefunc maxkeys => pcacheAdd c t key ptr freefunc maxkeys
  | .idle, .del key => pcacheDel c t key
  | .idle, .clean => some (.next (c.move t (.bucket none 0)) .goes)
  | .idle, .cleanOneof prefixes => some (.next (c.move t (.bucket (some prefixes) 0)) .goes)
  | .idle, .fire fired => if t = none then prepareTimers c t fired else none
  | _, .proceed => proceed c t
  | _, _ => none

/-- Runs of any threads from a new cache, in which each step is allowed by a rule. -/
inductive Run (Rule : Action V F → Prop) : Cache T V F → Prop where
  | init (seed : BitVec 32) : Run Rule (.init seed)
  | step {c after : Cache T V F} {ret : Ret V F} (t : Option T) (action : Action V F) (before : Run Rule c)
      (rule : Rule action) (result : Objects.step c t action = some (.next after ret)) : Run Rule after

end Pclsync.Objects
