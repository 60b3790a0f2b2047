import Pclsync.Objects.Cache

/-! Every value in the object cache has one fate at a time. Who takes an entry from its
list decides it, and only the holder of the mutex, or the timer that already runs, can. -/

namespace Pclsync.Proofs.Objects
open Pclsync.Objects

/-- What became of an entry, or of one that was not allocated. -/
inductive Fate (T : Type) where
  | unused
  | cached
  | pending (t : Option T)
  | returned
  | freed
deriving DecidableEq

variable {T V F : Type}

/-- The bucket that a thread walks, and the entries it did not see. -/
def cursor (seed : BitVec 32) : Place V F → Option (ℕ × List (Entry V F))
  | .get key rest | .del key rest => some (hashToBucket (computeHash seed key), rest)
  | .clean _ h rest => some (h, rest)
  | .free _ next => cursor seed next
  | _ => none

/-- A thread is in `timer_process_timers`. -/
def Ticks : Place V F → Prop
  | .process _ _ | .stop _ _ _ => True
  | .free _ next => Ticks next
  | _ => False

/-- The timers that `timer_prepare_timers` found. -/
def found : Place V F → List (Entry V F)
  | .process timers _ | .stop _ timers _ => timers
  | .free _ next => found next
  | _ => []

/-- Those whose callback did not take the entry yet. -/
def waiting : Place V F → List (Entry V F)
  | .process _ rest | .stop _ _ rest => rest
  | .free _ next => waiting next
  | _ => []

/-- Those whose callback did not stop them yet. -/
def unstopped : Place V F → List (Entry V F)
  | .process _ rest => rest
  | .stop he _ rest => he :: rest
  | .free _ next => unstopped next
  | _ => []

/-- Where a thread goes on after it freed an entry. -/
def Resumes : Place V F → Prop
  | .free _ _ | .get _ _ => False
  | _ => True

/-- The timer of an entry runs. -/
def Busy (timers : Entry V F → Option Opts) (he : Entry V F) : Prop := ∃ stop, timers he = some ⟨true, stop⟩

/-- A bucket has the entries that hash to it, the newest first. -/
structure Stored (buckets : ℕ → List (Entry V F)) (fate : Entry V F → Fate T) : Prop where
  cached : ∀ b he, he ∈ buckets b ↔ fate he = .cached ∧ hashToBucket he.hash = b
  recent : ∀ b, (buckets b).Pairwise fun newer older => older.id < newer.id

/-- A thread that walks a bucket has its mutex, and nobody else changes what it walks. -/
structure Guarded (seed : BitVec 32) (buckets : ℕ → List (Entry V F)) (locks : ℕ → Option (Option T))
    (places : Option T → Place V F) : Prop where
  locked : ∀ l t, locks l = some t ↔ ∃ b rest, cursor seed (places t) = some (b, rest) ∧ bucketLock b = l
  walked : ∀ t b rest, cursor seed (places t) = some (b, rest) → rest <:+ buckets b

/-- A cached entry has a timer. One that runs leaves the cache by its callback. -/
structure Timed (timers : Entry V F → Option Opts) (fate : Entry V F → Fate T) (place : Place V F) : Prop where
  armed : ∀ he, fate he = .cached → he ∉ found place → timers he = some ⟨false, false⟩
  absent : ∀ he, fate he ≠ .cached → he ∉ found place → timers he = none
  busy : ∀ he ∈ found place, Busy timers he
  used : ∀ he ∈ found place, fate he ≠ .unused
  waits : ∀ he ∈ found place, fate he = .cached ↔ he ∈ waiting place
  stopped : ∀ he ∈ found place, he ∉ unstopped place → timers he = some ⟨true, true⟩
  subset : ∀ he ∈ unstopped place, he ∈ found place
  distinct : (unstopped place).Nodup

variable [DecidableEq T] [DecidableEq V] [DecidableEq F]

/-- The log tells the fate. -/
structure Recorded (log : List (Event V F)) (fate : Entry V F → Fate T) : Prop where
  added : ∀ he, log.count (.added he) = if fate he = .unused then 0 else 1
  returned : ∀ he, log.count (.returned he) = if fate he = .returned then 1 else 0
  freed : ∀ he, log.count (.freed he) = if fate he = .freed then 1 else 0

/-- The invariant of the cache. -/
structure Inv (c : Cache T V F) (fate : Entry V F → Fate T) : Prop where
  fresh : ∀ he, fate he ≠ .unused → he.id < c.next
  hashed : ∀ he, fate he ≠ .unused → he.hash = computeHash c.seed he.key
  recorded : Recorded c.log fate
  stored : Stored c.buckets fate
  guarded : Guarded c.seed c.buckets c.locks c.places
  pending : ∀ t he, fate he = .pending t ↔ ∃ next, c.places t = .free he next
  resumes : ∀ t he next, c.places t = .free he next → Resumes next
  skipped : ∀ t key rest, c.places t = .get key rest → ∀ he ∈ c.buckets (hashToBucket (computeHash c.seed key)),
    he.key = key → he ∉ rest → Busy c.timers he
  sole : ∀ t, Ticks (c.places t) → t = none
  timed : Timed c.timers fate (c.places none)

omit [DecidableEq T] [DecidableEq V] [DecidableEq F] in
/-- The mutex of a hash is the mutex of its bucket. -/
theorem bucketLock_hashToBucket (hash : BitVec 32) : bucketLock (hashToBucket hash) = hashToLock hash := by
  simp only [bucketLock, hashToBucket, hashToLock, numLocks, hashSize]
  simp
  omega

section Guard
variable {seed : BitVec 32} {buckets : ℕ → List (Entry V F)} {locks : ℕ → Option (Option T)}
  {places : Option T → Place V F} {t : Option T} {place : Place V F} {b l : ℕ} {rest list : List (Entry V F)}

omit [DecidableEq T] [DecidableEq V] [DecidableEq F] in
/-- Two threads do not walk buckets of one mutex. -/
theorem Guarded.alone (guarded : Guarded seed buckets locks places) {u : Option T} {b' : ℕ} {rest' : List (Entry V F)}
    (own : cursor seed (places t) = some (b, rest)) (other : cursor seed (places u) = some (b', rest'))
    (same : bucketLock b' = bucketLock b) : u = t := by
  have mine := (guarded.locked (bucketLock b) t).mpr ⟨b, rest, own, rfl⟩
  have theirs := (guarded.locked (bucketLock b) u).mpr ⟨b', rest', other, same⟩
  rw [mine] at theirs
  exact (Option.some.inj theirs).symm

omit [DecidableEq T] [DecidableEq V] [DecidableEq F] in
theorem Guarded.unwalked (guarded : Guarded seed buckets locks places) (free : locks (bucketLock b) = none)
    (u : Option T) : ∀ rest, cursor seed (places u) ≠ some (b, rest) := by
  intro rest walks
  have held := (guarded.locked (bucketLock b) u).mpr ⟨b, rest, walks, rfl⟩
  rw [free] at held
  cases held

omit [DecidableEq V] [DecidableEq F] in
/-- A thread that holds no mutex before or after. -/
theorem Guarded.same (guarded : Guarded seed buckets locks places) (before : cursor seed (places t) = none)
    (after : cursor seed place = none) : Guarded seed buckets locks (Function.update places t place) := by
  constructor
  · intro l u
    rw [guarded.locked]
    by_cases own : u = t
    · subst own
      simp [before, after]
    · simp [own]
  · intro u b rest walks
    by_cases own : u = t
    · subst own
      simp [after] at walks
    · rw [Function.update_of_ne own] at walks
      exact guarded.walked u b rest walks

omit [DecidableEq V] [DecidableEq F] in
theorem Guarded.lock (guarded : Guarded seed buckets locks places) (before : cursor seed (places t) = none)
    (after : cursor seed place = some (b, buckets b)) (free : locks (bucketLock b) = none) :
    Guarded seed buckets (Function.update locks (bucketLock b) (some t)) (Function.update places t place) := by
  constructor
  · intro l u
    by_cases own : u = t
    · subst own
      rw [Function.update_self, after]
      by_cases mine : l = bucketLock b
      · subst mine
        simp
      · rw [Function.update_of_ne mine, guarded.locked, before]
        simp only [reduceCtorEq, false_and, exists_const, Option.some.injEq, Prod.mk.injEq, false_iff, not_exists]
        rintro b' rest ⟨⟨same, _⟩, other⟩
        exact mine (by rw [← other, same])
    · rw [Function.update_of_ne own, ← guarded.locked]
      by_cases mine : l = bucketLock b
      · subst mine
        rw [Function.update_self, free]
        simp [Ne.symm own]
      · rw [Function.update_of_ne mine]
  · intro u b' rest walks
    by_cases own : u = t
    · subst own
      rw [Function.update_self, after] at walks
      cases walks
      exact List.suffix_refl _
    · rw [Function.update_of_ne own] at walks
      exact guarded.walked u b' rest walks

omit [DecidableEq V] [DecidableEq F] in
theorem Guarded.unlock (guarded : Guarded seed buckets locks places) (before : cursor seed (places t) = some (b, rest))
    (after : cursor seed place = none) :
    Guarded seed buckets (Function.update locks (bucketLock b) none) (Function.update places t place) := by
  constructor
  · intro l u
    by_cases own : u = t
    · subst own
      rw [Function.update_self, after]
      by_cases mine : l = bucketLock b
      · subst mine
        simp
      · rw [Function.update_of_ne mine, guarded.locked, before]
        simp only [reduceCtorEq, false_and, exists_const, Option.some.injEq, Prod.mk.injEq, iff_false, not_exists]
        rintro b' rest ⟨⟨same, _⟩, other⟩
        exact mine (by rw [← other, same])
    · rw [Function.update_of_ne own]
      by_cases mine : l = bucketLock b
      · subst mine
        rw [Function.update_self]
        simp only [reduceCtorEq, false_iff, not_exists]
        rintro b' rest' ⟨other, same⟩
        exact own (guarded.alone before other same)
      · rw [Function.update_of_ne mine, guarded.locked]
  · intro u b' rest walks
    by_cases own : u = t
    · subst own
      simp [after] at walks
    · rw [Function.update_of_ne own] at walks
      exact guarded.walked u b' rest walks

omit [DecidableEq V] [DecidableEq F] in
/-- A thread that sees the next entry. -/
theorem Guarded.advance (guarded : Guarded seed buckets locks places) {he : Entry V F}
    (before : cursor seed (places t) = some (b, he :: rest)) (after : cursor seed place = some (b, rest)) :
    Guarded seed buckets locks (Function.update places t place) := by
  constructor
  · intro l u
    rw [guarded.locked]
    by_cases own : u = t
    · subst own
      simp [before, after]
    · simp [own]
  · intro u b' rest' walks
    by_cases own : u = t
    · subst own
      rw [Function.update_self, after] at walks
      cases walks
      exact (List.suffix_cons he rest).trans (guarded.walked u b (he :: rest) before)
    · rw [Function.update_of_ne own] at walks
      exact guarded.walked u b' rest' walks

omit [DecidableEq T] [DecidableEq V] [DecidableEq F] in
/-- A bucket changes under those who walk it. -/
theorem Guarded.setBucket (guarded : Guarded seed buckets locks places)
    (kept : ∀ t rest, cursor seed (places t) = some (b, rest) → rest <:+ list) :
    Guarded seed (Function.update buckets b list) locks places := by
  refine ⟨guarded.locked, ?_⟩
  intro t b' rest walks
  by_cases own : b' = b
  · subst own
    rw [Function.update_self]
    exact kept t rest walks
  · rw [Function.update_of_ne own]
    exact guarded.walked t b' rest walks

omit [DecidableEq V] [DecidableEq F] in
/-- A thread that walks the same as before. -/
theorem Guarded.alike (guarded : Guarded seed buckets locks places) (walks : cursor seed place = cursor seed (places t)) :
    Guarded seed buckets locks (Function.update places t place) := by
  have same : ∀ u, cursor seed (Function.update places t place u) = cursor seed (places u) := by
    intro u
    by_cases own : u = t
    · subst own
      rw [Function.update_self, walks]
    · rw [Function.update_of_ne own]
  constructor
  · intro l u
    rw [same]
    exact guarded.locked l u
  · intro u b rest left
    rw [same] at left
    exact guarded.walked u b rest left

end Guard

section Store
variable {buckets : ℕ → List (Entry V F)} {fate : Entry V F → Fate T} {he : Entry V F} {b : ℕ}

omit [DecidableEq T] [DecidableEq V] [DecidableEq F] in
theorem Stored.nodup (stored : Stored buckets fate) (b : ℕ) : (buckets b).Nodup := by
  apply (stored.recent b).imp
  rintro newer older before rfl
  exact absurd before (Nat.lt_irrefl _)

omit [DecidableEq T] in
/-- An entry leaves its bucket. -/
theorem Stored.erase (stored : Stored buckets fate) (member : he ∈ buckets b) {new : Fate T} (gone : new ≠ .cached) :
    Stored (Function.update buckets b ((buckets b).erase he)) (Function.update fate he new) := by
  have home := ((stored.cached b he).mp member).2
  constructor
  · intro b' other
    by_cases own : b' = b
    · subst own
      rw [Function.update_self, (stored.nodup b').mem_erase_iff, stored.cached]
      by_cases same : other = he
      · subst same
        simp [gone]
      · simp [same]
    · rw [Function.update_of_ne own, stored.cached]
      by_cases same : other = he
      · subst same
        simp [gone, home, Ne.symm own]
      · simp [same]
  · intro b'
    by_cases own : b' = b
    · subst own
      rw [Function.update_self]
      exact (stored.recent b').sublist List.erase_sublist
    · rw [Function.update_of_ne own]
      exact stored.recent b'

omit [DecidableEq T] in
/-- An entry that is younger than all enters. -/
theorem Stored.cons (stored : Stored buckets fate) (unused : fate he = .unused) (home : hashToBucket he.hash = b)
    (youngest : ∀ older ∈ buckets b, older.id < he.id) :
    Stored (Function.update buckets b (he :: buckets b)) (Function.update fate he .cached) := by
  constructor
  · intro b' other
    by_cases own : b' = b
    · subst own
      rw [Function.update_self, List.mem_cons, stored.cached]
      by_cases same : other = he
      · subst same
        simp [home]
      · simp [same]
    · rw [Function.update_of_ne own, stored.cached]
      by_cases same : other = he
      · subst same
        simp [unused, home, Ne.symm own]
      · simp [same]
  · intro b'
    by_cases own : b' = b
    · subst own
      rw [Function.update_self, List.pairwise_cons]
      exact ⟨youngest, stored.recent b'⟩
    · rw [Function.update_of_ne own]
      exact stored.recent b'

omit [DecidableEq T] in
/-- The fate of an entry that is not in the cache changes. -/
theorem Stored.same (stored : Stored buckets fate) {new : Fate T} (out : fate he ≠ .cached) (gone : new ≠ .cached) :
    Stored buckets (Function.update fate he new) := by
  refine ⟨?_, stored.recent⟩
  intro b other
  rw [stored.cached]
  by_cases same : other = he
  · subst same
    simp [out, gone]
  · simp [same]

end Store

section Record
variable {log : List (Event V F)} {fate : Entry V F → Fate T} {he : Entry V F} {t : Option T}

theorem Recorded.add (recorded : Recorded log fate) (unused : fate he = .unused) {new : Fate T}
    (kind : new = .cached ∨ ∃ t, new = .pending t) : Recorded (.added he :: log) (Function.update fate he new) := by
  obtain ⟨added, returned, freed⟩ := recorded
  constructor
  all_goals
    intro other
    rw [List.count_cons]
    by_cases same : other = he
    · subst same
      obtain cached | ⟨t, pending⟩ := kind <;> simp_all
    · simp [Ne.symm same, same, added, returned, freed]

theorem Recorded.claim (recorded : Recorded log fate) (cached : fate he = .cached) :
    Recorded log (Function.update fate he (.pending t)) := by
  obtain ⟨added, returned, freed⟩ := recorded
  constructor
  all_goals
    intro other
    by_cases same : other = he
    · subst same
      simp_all
    · simp [same, added, returned, freed]

theorem Recorded.take (recorded : Recorded log fate) (cached : fate he = .cached) :
    Recorded (.returned he :: log) (Function.update fate he .returned) := by
  obtain ⟨added, returned, freed⟩ := recorded
  constructor
  all_goals
    intro other
    rw [List.count_cons]
    by_cases same : other = he
    · subst same
      simp_all
    · simp [Ne.symm same, same, added, returned, freed]

theorem Recorded.free (recorded : Recorded log fate) (pending : fate he = .pending t) :
    Recorded (.freed he :: log) (Function.update fate he .freed) := by
  obtain ⟨added, returned, freed⟩ := recorded
  constructor
  all_goals
    intro other
    rw [List.count_cons]
    by_cases same : other = he
    · subst same
      simp_all
    · simp [Ne.symm same, same, added, returned, freed]

end Record

section Timer
variable {timers : Entry V F → Option Opts} {fate : Entry V F → Fate T} {he : Entry V F} {place next : Place V F}
  {all rest : List (Entry V F)}

omit [DecidableEq T] [DecidableEq V] [DecidableEq F] in
theorem found_nil (quiet : ¬Ticks place) : found place = [] ∧ waiting place = [] ∧ unstopped place = [] := by
  induction place with
  | process all rest | stop he all rest => exact absurd trivial quiet
  | free he next ih => exact ih quiet
  | _ => exact ⟨rfl, rfl, rfl⟩

omit [DecidableEq T] [DecidableEq V] [DecidableEq F] in
theorem Timed.alike (timed : Timed timers fate place) (one : found next = found place) (two : waiting next = waiting place)
    (three : unstopped next = unstopped place) : Timed timers fate next := by
  obtain ⟨armed, absent, busy, used, waits, stopped, subset, distinct⟩ := timed
  rw [← one, ← two] at waits
  rw [← one, ← three] at stopped subset
  rw [← one] at armed absent busy used
  rw [← three] at distinct
  exact ⟨armed, absent, busy, used, waits, stopped, subset, distinct⟩

omit [DecidableEq T] [DecidableEq V] [DecidableEq F] in
theorem Timed.quiet (timed : Timed timers fate place) (before : ¬Ticks place) (after : ¬Ticks next) :
    Timed timers fate next := by
  obtain ⟨one, two, three⟩ := found_nil before
  obtain ⟨first, second, third⟩ := found_nil after
  exact timed.alike (by rw [one, first]) (by rw [two, second]) (by rw [three, third])

omit [DecidableEq T] in
/-- A timer that does not run is stopped, and its entry leaves the cache. -/
theorem Timed.claim (timed : Timed timers fate place) (idle : ¬Busy timers he) {new : Fate T} (gone : new ≠ .cached) :
    Timed (Function.update timers he none) (Function.update fate he new) place := by
  have out : he ∉ found place := fun member => idle (timed.busy he member)
  have other : ∀ mate ∈ found place, mate ≠ he := by
    rintro mate member rfl
    exact out member
  constructor
  · intro mate cached absent
    by_cases same : mate = he
    · subst same
      simp [gone] at cached
    · rw [Function.update_of_ne same] at cached ⊢
      exact timed.armed mate cached absent
  · intro mate cached absent
    by_cases same : mate = he
    · subst same
      simp
    · rw [Function.update_of_ne same] at cached ⊢
      exact timed.absent mate cached absent
  · intro mate member
    rw [Busy, Function.update_of_ne (other mate member)]
    exact timed.busy mate member
  · intro mate member
    rw [Function.update_of_ne (other mate member)]
    exact timed.used mate member
  · intro mate member
    rw [Function.update_of_ne (other mate member)]
    exact timed.waits mate member
  · intro mate member
    rw [Function.update_of_ne (other mate member)]
    exact timed.stopped mate member
  · exact timed.subset
  · exact timed.distinct

omit [DecidableEq T] in
/-- A timer that runs is told not to run again. -/
theorem Timed.flag (timed : Timed timers fate place) (busy : Busy timers he) :
    Timed (Function.update timers he (some ⟨true, true⟩)) fate place := by
  have member : he ∈ found place := by
    by_contra out
    obtain ⟨stop, runs⟩ := busy
    by_cases cached : fate he = .cached
    · rw [timed.armed he cached out] at runs
      cases runs
    · rw [timed.absent he cached out] at runs
      cases runs
  have other : ∀ mate ∉ found place, mate ≠ he := by
    rintro mate out rfl
    exact out member
  constructor
  · intro mate cached absent
    rw [Function.update_of_ne (other mate absent)]
    exact timed.armed mate cached absent
  · intro mate cached absent
    rw [Function.update_of_ne (other mate absent)]
    exact timed.absent mate cached absent
  · intro mate inside
    by_cases same : mate = he
    · subst same
      exact ⟨true, Function.update_self ..⟩
    · rw [Busy, Function.update_of_ne same]
      exact timed.busy mate inside
  · exact timed.used
  · exact timed.waits
  · intro mate inside done
    by_cases same : mate = he
    · subst same
      exact Function.update_self ..
    · rw [Function.update_of_ne same]
      exact timed.stopped mate inside done
  · exact timed.subset
  · exact timed.distinct

omit [DecidableEq T] in
/-- A new entry with a timer that was just registered. -/
theorem Timed.add (timed : Timed timers fate place) (unused : fate he = .unused) :
    Timed (Function.update timers he (some ⟨false, false⟩)) (Function.update fate he .cached) place := by
  have other : ∀ mate ∈ found place, mate ≠ he := by
    rintro mate member rfl
    exact timed.used mate member unused
  constructor
  · intro mate cached absent
    by_cases same : mate = he
    · subst same
      exact Function.update_self ..
    · rw [Function.update_of_ne same] at cached ⊢
      exact timed.armed mate cached absent
  · intro mate cached absent
    by_cases same : mate = he
    · subst same
      simp at cached
    · rw [Function.update_of_ne same] at cached ⊢
      exact timed.absent mate cached absent
  · intro mate member
    rw [Busy, Function.update_of_ne (other mate member)]
    exact timed.busy mate member
  · intro mate member
    rw [Function.update_of_ne (other mate member)]
    exact timed.used mate member
  · intro mate member
    rw [Function.update_of_ne (other mate member)]
    exact timed.waits mate member
  · intro mate member
    rw [Function.update_of_ne (other mate member)]
    exact timed.stopped mate member
  · exact timed.subset
  · exact timed.distinct

omit [DecidableEq T] in
/-- The fate of an entry that is not in the cache, and whose timer nobody looks at. -/
theorem Timed.same (timed : Timed timers fate place) {new : Fate T} (out : fate he ≠ .cached) (gone : new ≠ .cached)
    (used : new ≠ .unused) : Timed timers (Function.update fate he new) place := by
  constructor
  · intro mate cached absent
    by_cases same : mate = he
    · subst same
      simp [gone] at cached
    · rw [Function.update_of_ne same] at cached
      exact timed.armed mate cached absent
  · intro mate cached absent
    by_cases same : mate = he
    · subst same
      exact timed.absent mate out absent
    · rw [Function.update_of_ne same] at cached
      exact timed.absent mate cached absent
  · exact timed.busy
  · intro mate member
    by_cases same : mate = he
    · subst same
      rw [Function.update_self]
      exact used
    · rw [Function.update_of_ne same]
      exact timed.used mate member
  · intro mate member
    by_cases same : mate = he
    · subst same
      rw [Function.update_self, ← timed.waits mate member]
      simp [out, gone]
    · rw [Function.update_of_ne same]
      exact timed.waits mate member
  · exact timed.stopped
  · exact timed.subset
  · exact timed.distinct

omit [DecidableEq T] in
/-- The timer thread finds timers that are due. -/
theorem Timed.fire (timed : Timed timers fate place) (quiet : ¬Ticks place) {fired : List (Entry V F)}
    (distinct : fired.Nodup) (due : ∀ he ∈ fired, timers he = some ⟨false, false⟩) :
    Timed (fun he => if he ∈ fired then some ⟨true, false⟩ else timers he) fate (.process fired fired) := by
  obtain ⟨one, _, _⟩ := found_nil quiet
  have cached : ∀ he ∈ fired, fate he = .cached := by
    intro he member
    by_contra gone
    have absent := timed.absent he gone (by rw [one]; exact List.not_mem_nil)
    rw [due he member] at absent
    cases absent
  constructor
  · intro he kept out
    simp only [found] at out
    rw [if_neg out]
    exact timed.armed he kept (by rw [one]; exact List.not_mem_nil)
  · intro he gone out
    simp only [found] at out
    rw [if_neg out]
    exact timed.absent he gone (by rw [one]; exact List.not_mem_nil)
  · intro he member
    exact ⟨false, if_pos member⟩
  · intro he member unused
    rw [cached he member] at unused
    cases unused
  · intro he member
    exact ⟨fun _ => member, fun _ => cached he member⟩
  · intro he member out
    exact absurd member out
  · exact fun he member => member
  · exact distinct

omit [DecidableEq T] in
/-- The callback of a timer takes its entry. -/
theorem Timed.expire (timed : Timed timers fate (.process all (he :: rest))) {t : Option T} :
    Timed timers (Function.update fate he (.pending t)) (.free he (.stop he all rest)) := by
  have member : he ∈ all := timed.subset he List.mem_cons_self
  have last : he ∉ rest := (List.nodup_cons.mp timed.distinct).1
  constructor
  · intro mate cached out
    by_cases same : mate = he
    · subst same
      exact absurd member out
    · rw [Function.update_of_ne same] at cached
      exact timed.armed mate cached out
  · intro mate cached out
    by_cases same : mate = he
    · subst same
      exact absurd member out
    · rw [Function.update_of_ne same] at cached
      exact timed.absent mate cached out
  · exact timed.busy
  · intro mate inside
    by_cases same : mate = he
    · subst same
      simp
    · rw [Function.update_of_ne same]
      exact timed.used mate inside
  · intro mate inside
    by_cases same : mate = he
    · subst same
      simp [waiting, last]
    · rw [Function.update_of_ne same, timed.waits mate inside]
      simp [waiting, same]
  · exact timed.stopped
  · exact timed.subset
  · exact timed.distinct

omit [DecidableEq T] in
/-- The callback stops its own timer. -/
theorem Timed.stop (timed : Timed timers fate (.stop he all rest)) :
    Timed (Function.update timers he (some ⟨true, true⟩)) fate (.process all rest) := by
  have member : he ∈ all := timed.subset he List.mem_cons_self
  obtain ⟨armed, absent, busy, used, waits, stopped, subset, distinct⟩ := timed.flag (timed.busy he member)
  refine ⟨armed, absent, busy, used, waits, ?_, ?_, (List.nodup_cons.mp distinct).2⟩
  · intro mate inside done
    by_cases same : mate = he
    · subst same
      exact Function.update_self ..
    · exact stopped mate inside (by simpa [unstopped, same] using done)
  · exact fun mate left => subset mate (List.mem_cons_of_mem he left)

omit [DecidableEq T] in
/-- All timers that ran are freed. -/
theorem Timed.settle (timed : Timed timers fate (.process all [])) :
    (∀ he ∈ all, timers he ≠ none) ∧
    Timed (fun he => if he ∈ all then (timers he).bind rearm else timers he) fate .idle := by
  have freed : ∀ he ∈ all, (timers he).bind rearm = none := by
    intro he member
    rw [timed.stopped he member List.not_mem_nil]
    rfl
  have gone : ∀ he ∈ all, fate he ≠ .cached := by
    intro he member cached
    exact absurd ((timed.waits he member).mp cached) List.not_mem_nil
  refine ⟨?_, ?_, ?_, ?_, ?_, ?_, ?_, ?_, ?_⟩
  · intro he member absent
    obtain ⟨stop, runs⟩ := timed.busy he member
    rw [absent] at runs
    cases runs
  · intro he cached _
    have out : he ∉ all := fun member => gone he member cached
    rw [if_neg out]
    exact timed.armed he cached out
  · intro he out _
    split
    · next member => exact freed he member
    · next absent => exact timed.absent he out absent
  all_goals simp [found, waiting, unstopped]

end Timer

/-- Nothing that was freed is used, and the invariant holds after. -/
def Keeps : Result T V F → Prop
  | .failed => False
  | .next after _ => ∃ fate, Inv after fate

section Moves
variable {c : Cache T V F} {fate : Entry V F → Fate T} {t : Option T} {he : Entry V F} {place : Place V F} {b : ℕ}
  {rest : List (Entry V F)}

/-- A place at which a thread neither frees an entry nor processes timers. -/
structure Plain (place : Place V F) : Prop where
  kept : ∀ he next, place ≠ .free he next
  quiet : ¬Ticks place

omit [DecidableEq V] [DecidableEq F] in
/-- A thread that frees nothing before or after. -/
theorem pending_same {places : Option T → Place V F} {fate : Entry V F → Fate T}
    (pending : ∀ t he, fate he = .pending t ↔ ∃ next, places t = .free he next)
    (before : ∀ he next, places t ≠ .free he next) (after : ∀ he next, place ≠ .free he next) :
    ∀ u he, fate he = .pending u ↔ ∃ next, Function.update places t place u = .free he next := by
  intro u he
  rw [pending]
  by_cases own : u = t
  · subst own
    simp [before, after]
  · rw [Function.update_of_ne own]

/-- A thread goes on, and perhaps takes or gives back a mutex. -/
theorem Inv.move {locks : ℕ → Option (Option T)} (inv : Inv c fate) (before : Plain (c.places t)) (after : Plain place)
    (guarded : Guarded c.seed c.buckets locks (Function.update c.places t place))
    (skipped : ∀ key rest, place = .get key rest → ∀ he ∈ c.buckets (hashToBucket (computeHash c.seed key)),
      he.key = key → he ∉ rest → Busy c.timers he) :
    Inv ({ c with locks := locks }.move t place) fate := by
  refine ⟨inv.fresh, inv.hashed, inv.recorded, inv.stored, guarded, ?_, ?_, ?_, ?_, ?_⟩
  · exact pending_same inv.pending before.kept after.kept
  · intro u he next freeing
    by_cases own : u = t
    · subst own
      simp only [Cache.move, Function.update_self] at freeing
      exact absurd freeing (after.kept he next)
    · simp only [Cache.move, Function.update_of_ne own] at freeing
      exact inv.resumes u he next freeing
  · intro u key rest seen
    by_cases own : u = t
    · subst own
      simp only [Cache.move, Function.update_self] at seen
      exact skipped key rest seen
    · simp only [Cache.move, Function.update_of_ne own] at seen
      exact inv.skipped u key rest seen
  · intro u ticks
    by_cases own : u = t
    · subst own
      simp only [Cache.move, Function.update_self] at ticks
      exact absurd ticks after.quiet
    · simp only [Cache.move, Function.update_of_ne own] at ticks
      exact inv.sole u ticks
  · by_cases own : none = t
    · subst own
      simp only [Cache.move, Function.update_self]
      exact inv.timed.quiet before.quiet after.quiet
    · simp only [Cache.move, Function.update_of_ne own]
      exact inv.timed

theorem Inv.flag (inv : Inv c fate) (busy : Busy c.timers he) : Inv (c.setTimer he (some ⟨true, true⟩)) fate := by
  refine ⟨inv.fresh, inv.hashed, inv.recorded, inv.stored, inv.guarded, inv.pending, inv.resumes, ?_, inv.sole,
    inv.timed.flag busy⟩
  intro u key rest seen mate member same out
  by_cases own : mate = he
  · subst own
    exact ⟨true, Function.update_self ..⟩
  · obtain ⟨stop, runs⟩ := inv.skipped u key rest seen mate member same out
    exact ⟨stop, (Function.update_of_ne own ..).trans runs⟩

/-- An entry whose timer does not run leaves the cache. -/
theorem Inv.leave {locks : ℕ → Option (Option T)} {log : List (Event V F)} {new : Fate T} (inv : Inv c fate)
    (member : he ∈ c.buckets b) (idle : ¬Busy c.timers he) (gone : new ≠ .cached) (before : ¬Ticks (c.places t))
    (after : ¬Ticks place) (far : ∀ key rest, place ≠ .get key rest)
    (resumes : ∀ he next, place = .free he next → Resumes next) (recorded : Recorded log (Function.update fate he new))
    (guarded : Guarded c.seed (Function.update c.buckets b ((c.buckets b).erase he)) locks
      (Function.update c.places t place))
    (pending : ∀ u mate, Function.update fate he new mate = .pending u ↔
      ∃ next, Function.update c.places t place u = .free mate next) :
    Inv { c with
      buckets := Function.update c.buckets b ((c.buckets b).erase he), timers := Function.update c.timers he none,
      locks := locks, log := log, places := Function.update c.places t place } (Function.update fate he new) := by
  have cached := ((inv.stored.cached b he).mp member).1
  have used : fate he ≠ .unused := by
    simp [cached]
  have known : ∀ mate, Function.update fate he new mate ≠ .unused → fate mate ≠ .unused := by
    intro mate kind
    by_cases own : mate = he
    · subst own
      exact used
    · rwa [Function.update_of_ne own] at kind
  refine ⟨?_, ?_, recorded, inv.stored.erase member gone, guarded, pending, ?_, ?_, ?_, ?_⟩
  · exact fun mate kind => inv.fresh mate (known mate kind)
  · exact fun mate kind => inv.hashed mate (known mate kind)
  · intro u mate next freeing
    by_cases own : u = t
    · subst own
      simp only [Function.update_self] at freeing
      exact resumes mate next freeing
    · simp only [Function.update_of_ne own] at freeing
      exact inv.resumes u mate next freeing
  · intro u key rest seen mate inside same out
    have stays : mate ∈ c.buckets (hashToBucket (computeHash c.seed key)) := by
      by_cases home : hashToBucket (computeHash c.seed key) = b
      · simp only [home, Function.update_self] at inside
        rw [home]
        exact List.mem_of_mem_erase inside
      · simpa only [Function.update_of_ne home] using inside
    by_cases own : u = t
    · subst own
      simp only [Function.update_self] at seen
      exact absurd seen (far key rest)
    · simp only [Function.update_of_ne own] at seen
      obtain ⟨stop, runs⟩ := inv.skipped u key rest seen mate stays same out
      have other : mate ≠ he := by
        rintro rfl
        exact idle ⟨stop, runs⟩
      exact ⟨stop, (Function.update_of_ne other ..).trans runs⟩
  · intro u ticks
    by_cases own : u = t
    · subst own
      simp only [Function.update_self] at ticks
      exact absurd ticks after
    · simp only [Function.update_of_ne own] at ticks
      exact inv.sole u ticks
  · by_cases own : none = t
    · subst own
      simp only [Function.update_self]
      exact (inv.timed.claim idle gone).quiet before after
    · simp only [Function.update_of_ne own]
      exact inv.timed.claim idle gone

/-- The timer of a cached entry is armed, or runs. -/
theorem Inv.timer (inv : Inv c fate) (cached : fate he = .cached) :
    c.timers he = some ⟨false, false⟩ ∨ Busy c.timers he := by
  by_cases member : he ∈ found (c.places none)
  · exact .inr (inv.timed.busy he member)
  · exact .inl (inv.timed.armed he cached member)

/-- A thread takes an entry that it sees in its bucket, unless the timer runs. -/
theorem claim_keeps {busy taken : Cache T V F → Result T V F} (inv : Inv c fate) (member : he ∈ c.buckets b)
    (goesOn : Busy c.timers he → Keeps (busy (c.setTimer he (some ⟨true, true⟩))))
    (leaves : ¬Busy c.timers he → Keeps (taken ((c.setTimer he none).setBucket b ((c.buckets b).erase he)))) :
    Keeps (c.claim he b busy taken) := by
  have cached := ((inv.stored.cached b he).mp member).1
  obtain armed | runs := inv.timer cached
  · have idle : ¬Busy c.timers he := by
      rintro ⟨stop, runs⟩
      rw [armed] at runs
      cases runs
    have kept : he ∈ (c.setTimer he none).buckets b := member
    simp only [Cache.claim, Cache.ptimerStop, armed, Option.map_some, Bool.false_eq_true, if_false, Cache.listDel, if_pos kept]
    exact leaves idle
  · obtain ⟨stop, same⟩ := runs
    simp only [Cache.claim, Cache.ptimerStop, same, Option.map_some, if_true]
    exact goesOn ⟨stop, same⟩

omit [DecidableEq T] [DecidableEq V] [DecidableEq F] in
/-- The entries that a thread did not see yet stay in its bucket. -/
theorem suffix_erase [DecidableEq (Entry V F)] {list : List (Entry V F)} (walked : he :: rest <:+ list) (distinct : list.Nodup) :
    rest <:+ list.erase he := by
  obtain ⟨seen, rfl⟩ := walked
  have first : he ∉ seen := by
    intro member
    exact (List.nodup_append.mp distinct).2.2 he member he List.mem_cons_self rfl
  rw [List.erase_append_right _ first, List.erase_cons_head]
  exact List.suffix_append ..

/-- A thread that walks a bucket takes an entry and gives the mutex back. -/
theorem guarded_take (inv : Inv c fate) (walks : cursor c.seed (c.places t) = some (b, he :: rest))
    (after : cursor c.seed place = none) :
    Guarded c.seed (Function.update c.buckets b ((c.buckets b).erase he)) (Function.update c.locks (bucketLock b) none)
      (Function.update c.places t place) := by
  have free := inv.guarded.unlock walks after
  apply free.setBucket
  intro u rest left
  exact absurd left (free.unwalked (Function.update_self ..) u rest)

/-- A thread that walks a bucket takes an entry and goes on. -/
theorem guarded_clean (inv : Inv c fate) (walks : cursor c.seed (c.places t) = some (b, he :: rest))
    (after : cursor c.seed place = some (b, rest)) :
    Guarded c.seed (Function.update c.buckets b ((c.buckets b).erase he)) c.locks (Function.update c.places t place) := by
  have ahead := inv.guarded.advance walks after
  have here : cursor c.seed (Function.update c.places t place t) = some (b, rest) := by
    rw [Function.update_self]
    exact after
  apply ahead.setBucket
  intro u rest' left
  have own := ahead.alone here left rfl
  subst own
  rw [here] at left
  cases left
  exact suffix_erase (inv.guarded.walked u b (he :: rest) walks) (inv.stored.nodup b)

omit [DecidableEq V] [DecidableEq F] in
/-- A thread is about to free an entry that it took. -/
theorem pending_claim [DecidableEq (Entry V F)] {places : Option T → Place V F} {fate : Entry V F → Fate T} {next : Place V F}
    (pending : ∀ t he, fate he = .pending t ↔ ∃ next, places t = .free he next)
    (before : ∀ he next, places t ≠ .free he next) (free : ∀ u, fate he ≠ .pending u) :
    ∀ u mate, Function.update fate he (.pending t) mate = .pending u ↔
      ∃ next', Function.update places t (.free he next) u = .free mate next' := by
  intro u mate
  by_cases same : mate = he
  · subst same
    rw [Function.update_self]
    by_cases own : u = t
    · subst own
      simp
    · rw [Function.update_of_ne own, ← pending]
      simp [free u, Ne.symm own]
  · rw [Function.update_of_ne same, pending]
    by_cases own : u = t
    · subst own
      simp [before, Ne.symm same]
    · rw [Function.update_of_ne own]

omit [DecidableEq T] [DecidableEq V] [DecidableEq F] in
/-- An entry that nobody is about to free before or after. -/
theorem pending_other [DecidableEq (Entry V F)] {places : Option T → Place V F} {fate : Entry V F → Fate T} {new : Fate T}
    (pending : ∀ t he, fate he = .pending t ↔ ∃ next, places t = .free he next)
    (before : ∀ u, fate he ≠ .pending u) (after : ∀ u, new ≠ .pending u) :
    ∀ u mate, Function.update fate he new mate = .pending u ↔ ∃ next, places u = .free mate next := by
  intro u mate
  rw [← pending]
  by_cases same : mate = he
  · subst same
    simp [before, after]
  · rw [Function.update_of_ne same]

end Moves

section Walks
variable {c : Cache T V F} {fate : Entry V F → Fate T} {t : Option T} {he : Entry V F} {key : Key} {b : ℕ}
  {prefixes : Option (List Key)} {rest : List (Entry V F)} {place : Place V F}

omit [DecidableEq T] [DecidableEq V] [DecidableEq F] in
theorem plain_get : Plain (.get key rest) := ⟨by simp, by simp [Ticks]⟩

omit [DecidableEq T] [DecidableEq V] [DecidableEq F] in
theorem plain_del : Plain (.del key rest) := ⟨by simp, by simp [Ticks]⟩

omit [DecidableEq T] [DecidableEq V] [DecidableEq F] in
theorem plain_clean : Plain (.clean prefixes b rest) := ⟨by simp, by simp [Ticks]⟩

omit [DecidableEq T] [DecidableEq V] [DecidableEq F] in
theorem plain_idle : Plain (.idle : Place V F) := ⟨by simp, by simp [Ticks]⟩

/-- What a thread walks and has not seen is in the cache. -/
theorem Inv.ahead (inv : Inv c fate) (walks : cursor c.seed (c.places t) = some (b, he :: rest)) :
    he ∈ c.buckets b ∧ fate he = .cached := by
  have member := (inv.guarded.walked t b (he :: rest) walks).subset List.mem_cons_self
  exact ⟨member, ((inv.stored.cached b he).mp member).1⟩

/-- A get passes an entry of another key, or one whose timer runs. -/
theorem get_passes (inv : Inv c fate) (here : c.places t = .get key (he :: rest))
    (passed : he.key = key → Busy c.timers he) : Inv (c.move t (.get key rest)) fate := by
  have walks : cursor c.seed (c.places t) = some (hashToBucket (computeHash c.seed key), he :: rest) := by
    rw [here]
    rfl
  have before : Plain (c.places t) := by
    rw [here]
    exact plain_get
  refine inv.move before plain_get (inv.guarded.advance walks rfl) ?_
  rintro key' rest' same mate member own out
  cases same
  by_cases first : mate = he
  · subst first
    exact passed own
  · exact inv.skipped t key (he :: rest) here mate member own (by simp [first, out])

theorem get_keeps (inv : Inv c fate) (here : c.places t = .get key (he :: rest)) {result : Result T V F}
    (goes : proceed c t = some result) : Keeps result := by
  have walks : cursor c.seed (c.places t) = some (hashToBucket (computeHash c.seed key), he :: rest) := by
    rw [here]
    rfl
  have quiet : ¬Ticks (c.places t) := by simp [here, Ticks]
  have kept : ∀ mate next, c.places t ≠ .free mate next := by simp [here]
  obtain ⟨member, cached⟩ := inv.ahead walks
  rw [proceed, here] at goes
  simp only at goes
  split at goes
  · next found =>
    cases goes
    apply claim_keeps inv member
    · intro busy
      exact ⟨fate, get_passes (inv.flag busy) here fun _ => ⟨true, Function.update_self ..⟩⟩
    · intro idle
      refine ⟨Function.update fate he .returned, ?_⟩
      rw [← bucketLock_hashToBucket]
      refine inv.leave member idle (by simp) quiet (by simp [Ticks]) (by simp) (by simp) (inv.recorded.take cached)
        (guarded_take inv walks rfl) ?_
      apply pending_other
      · exact pending_same inv.pending kept (by simp)
      · simp [cached]
      · simp
  · next other =>
    cases goes
    refine ⟨fate, get_passes inv here fun own => absurd ⟨?_, own⟩ other⟩
    rw [← own]
    exact inv.hashed he (by simp [cached])

theorem del_keeps (inv : Inv c fate) (here : c.places t = .del key (he :: rest)) {result : Result T V F}
    (goes : proceed c t = some result) : Keeps result := by
  have walks : cursor c.seed (c.places t) = some (hashToBucket (computeHash c.seed key), he :: rest) := by
    rw [here]
    rfl
  have before : Plain (c.places t) := by
    rw [here]
    exact plain_del
  obtain ⟨member, cached⟩ := inv.ahead walks
  rw [proceed, here] at goes
  simp only at goes
  split at goes
  · cases goes
    apply claim_keeps inv member
    · intro busy
      exact ⟨fate, (inv.flag busy).move before plain_del (inv.guarded.advance walks rfl) (by simp)⟩
    · intro idle
      refine ⟨Function.update fate he (.pending t), ?_⟩
      rw [← bucketLock_hashToBucket]
      refine inv.leave member idle (by simp) before.quiet (by simp [Ticks]) (by simp) (by simp [Resumes])
        (inv.recorded.claim cached)
        (guarded_take inv walks rfl) ?_
      exact pending_claim inv.pending before.kept (by simp [cached])
  · cases goes
    exact ⟨fate, inv.move before plain_del (inv.guarded.advance walks rfl) (by simp)⟩

theorem clean_keeps (inv : Inv c fate) (here : c.places t = .clean prefixes b (he :: rest)) {result : Result T V F}
    (goes : proceed c t = some result) : Keeps result := by
  have walks : cursor c.seed (c.places t) = some (b, he :: rest) := by
    rw [here]
    rfl
  have before : Plain (c.places t) := by
    rw [here]
    exact plain_clean
  obtain ⟨member, cached⟩ := inv.ahead walks
  rw [proceed, here] at goes
  simp only at goes
  split at goes
  · cases goes
    apply claim_keeps inv member
    · intro busy
      exact ⟨fate, (inv.flag busy).move before plain_clean (inv.guarded.advance walks rfl) (by simp)⟩
    · intro idle
      refine ⟨Function.update fate he (.pending t), ?_⟩
      refine inv.leave member idle (by simp) before.quiet (by simp [Ticks]) (by simp) (by simp [Resumes])
        (inv.recorded.claim cached)
        (guarded_clean inv walks rfl) ?_
      exact pending_claim inv.pending before.kept (by simp [cached])
  · cases goes
    exact ⟨fate, inv.move before plain_clean (inv.guarded.advance walks rfl) (by simp)⟩

/-- A thread that saw the whole bucket. -/
theorem unlock_keeps (inv : Inv c fate) (before : Plain (c.places t)) (walks : cursor c.seed (c.places t) = some (b, rest))
    (after : Plain place) (none : cursor c.seed place = none) :
    Inv ((c.unlock (bucketLock b)).move t place) fate := by
  refine inv.move before after (inv.guarded.unlock walks none) ?_
  rintro key rest rfl
  cases none

/-- A thread that starts to walk a bucket. -/
theorem lock_keeps (inv : Inv c fate) (before : Plain (c.places t)) (nothing : cursor c.seed (c.places t) = none)
    (after : Plain place) (walks : cursor c.seed place = some (b, c.buckets b)) (free : c.locks (bucketLock b) = none) :
    Inv ((c.lock t (bucketLock b)).move t place) fate := by
  refine inv.move before after (inv.guarded.lock nothing walks free) ?_
  rintro key rest rfl mate member own out
  cases walks
  exact absurd member out

end Walks

section Frees
variable {c : Cache T V F} {fate : Entry V F → Fate T} {t : Option T} {he : Entry V F} {next place : Place V F}
  {all rest : List (Entry V F)}

/-- The free function of an entry is called, by the one who took it. -/
theorem free_keeps (inv : Inv c fate) (here : c.places t = .free he next) :
    Inv ((c.record (.freed he)).move t next) (Function.update fate he .freed) := by
  have pending := (inv.pending t he).mpr ⟨next, here⟩
  have after := inv.resumes t he next here
  have known : ∀ mate, Function.update fate he .freed mate ≠ .unused → fate mate ≠ .unused := by
    intro mate kind
    by_cases own : mate = he
    · subst own
      simp [pending]
    · rwa [Function.update_of_ne own] at kind
  refine ⟨?_, ?_, inv.recorded.free pending, inv.stored.same (by simp [pending]) (by simp), ?_, ?_, ?_, ?_, ?_, ?_⟩
  · exact fun mate kind => inv.fresh mate (known mate kind)
  · exact fun mate kind => inv.hashed mate (known mate kind)
  · exact inv.guarded.alike (by rw [here]; rfl)
  · intro u mate
    by_cases same : mate = he
    · subst same
      simp only [Function.update_self, reduceCtorEq, Cache.move, false_iff, not_exists]
      intro next' freeing
      by_cases own : u = t
      · subst own
        rw [Function.update_self] at freeing
        rw [freeing] at after
        exact after
      · rw [Function.update_of_ne own] at freeing
        have theirs := (inv.pending u mate).mpr ⟨next', freeing⟩
        rw [pending] at theirs
        exact own (Fate.pending.inj theirs).symm
    · rw [Function.update_of_ne same, inv.pending]
      simp only [Cache.move, Cache.record]
      by_cases own : u = t
      · subst own
        rw [Function.update_self, here]
        simp only [Place.free.injEq, Ne.symm same, false_and, exists_false, false_iff, not_exists]
        rintro next' rfl
        exact after
      · rw [Function.update_of_ne own]
  · intro u mate next' freeing
    by_cases own : u = t
    · subst own
      simp only [Cache.move, Function.update_self] at freeing
      rw [freeing] at after
      exact absurd after id
    · simp only [Cache.move, Function.update_of_ne own] at freeing
      exact inv.resumes u mate next' freeing
  · intro u key rest seen
    by_cases own : u = t
    · subst own
      simp only [Cache.move, Function.update_self] at seen
      rw [seen] at after
      exact absurd after id
    · simp only [Cache.move, Function.update_of_ne own] at seen
      exact inv.skipped u key rest seen
  · intro u ticks
    by_cases own : u = t
    · subst own
      simp only [Cache.move, Function.update_self] at ticks
      apply inv.sole u
      rw [here]
      exact ticks
    · simp only [Cache.move, Function.update_of_ne own] at ticks
      exact inv.sole u ticks
  · have timed : Timed c.timers (Function.update fate he .freed) (c.places none) :=
      inv.timed.same (by simp [pending]) (by simp) (by simp)
    by_cases own : none = t
    · subst own
      simp only [Cache.move, Function.update_self]
      rw [here] at timed
      exact timed.alike rfl rfl rfl
    · simp only [Cache.move, Function.update_of_ne own]
      exact timed

/-- The timer thread goes on. -/
theorem Inv.tick {timers : Entry V F → Option Opts} (inv : Inv c fate) (own : t = none)
    (before : ∀ he next, c.places t ≠ .free he next) (after : ∀ he next, place ≠ .free he next)
    (nothing : cursor c.seed (c.places t) = none) (still : cursor c.seed place = none)
    (far : ∀ key rest, place ≠ .get key rest)
    (busy : ∀ he, fate he = .cached → Busy c.timers he → Busy timers he) (timed : Timed timers fate place) :
    Inv ({ c with timers := timers }.move t place) fate := by
  subst own
  refine ⟨inv.fresh, inv.hashed, inv.recorded, inv.stored, inv.guarded.same nothing still,
    pending_same inv.pending before after, ?_, ?_, ?_, ?_⟩
  · intro u he next freeing
    cases u with
    | none => exact absurd freeing (after he next)
    | some u => exact inv.resumes (some u) he next freeing
  · intro u key rest seen he member same out
    cases u with
    | none => exact absurd seen (far key rest)
    | some u =>
      exact busy he ((inv.stored.cached _ he).mp member).1 (inv.skipped (some u) key rest seen he member same out)
  · intro u ticks
    cases u with
    | none => rfl
    | some u => exact inv.sole (some u) ticks
  · exact timed

theorem stop_keeps (inv : Inv c fate) (here : c.places t = .stop he all rest) {result : Result T V F}
    (goes : proceed c t = some result) : Keeps result := by
  have own := inv.sole t (by simp [here, Ticks])
  subst own
  have timed := inv.timed
  rw [here] at timed
  have member : he ∈ all := timed.subset he List.mem_cons_self
  obtain ⟨stop, runs⟩ := timed.busy he member
  rw [proceed, here] at goes
  simp only [Cache.ptimerStop, runs, Option.map_some, if_true] at goes
  cases goes
  refine ⟨fate, inv.tick rfl (by simp [here]) (by simp) (by simp [here, cursor]) rfl (by simp) ?_ timed.stop⟩
  intro mate _ busy
  by_cases same : mate = he
  · subst same
    exact ⟨true, Function.update_self ..⟩
  · rw [Busy, Function.update_of_ne same]
    exact busy

theorem processed_keeps (inv : Inv c fate) (here : c.places t = .process all []) : Keeps (processed c t all) := by
  have own := inv.sole t (by simp [here, Ticks])
  subst own
  have timed := inv.timed
  rw [here] at timed
  obtain ⟨present, settled⟩ := timed.settle
  rw [processed, if_pos present]
  refine ⟨fate, inv.tick rfl (by simp [here]) (by simp) (by simp [here, cursor]) rfl (by simp) ?_ settled⟩
  intro he cached busy
  have out : he ∉ all := by
    intro member
    exact absurd ((timed.waits he member).mp cached) List.not_mem_nil
  rw [Busy]
  simp only [if_neg out]
  exact busy

theorem fire_keeps {fired : List (Entry V F)} (inv : Inv c fate) (here : c.places none = .idle) {result : Result T V F}
    (goes : prepareTimers c none fired = some result) : Keeps result := by
  have timed := inv.timed
  rw [here] at timed
  rw [prepareTimers] at goes
  split at goes
  · next due =>
    cases goes
    have settled := timed.fire (by simp [Ticks]) due.1 due.2
    refine ⟨fate, inv.tick rfl (by simp [here]) (by simp) (by simp [here, cursor]) rfl (by simp) ?_ settled⟩
    intro he _ busy
    have out : he ∉ fired := by
      intro member
      obtain ⟨stop, runs⟩ := busy
      rw [due.2 he member] at runs
      cases runs
    rw [Busy]
    simp only [if_neg out]
    exact busy
  · cases goes

/-- The callback of a timer takes its entry, which nobody else can take any more. -/
theorem cacheTimer_keeps (inv : Inv c fate) (here : c.places t = .process all (he :: rest)) {result : Result T V F}
    (goes : cacheTimer c t he all rest = some result) : Keeps result := by
  have own := inv.sole t (by simp [here, Ticks])
  subst own
  have timed := inv.timed
  rw [here] at timed
  have cached : fate he = .cached := (timed.waits he (timed.subset he List.mem_cons_self)).mpr List.mem_cons_self
  have member : he ∈ c.buckets (hashToBucket he.hash) := (inv.stored.cached _ he).mpr ⟨cached, rfl⟩
  rw [cacheTimer] at goes
  split at goes
  · next free =>
    simp only [Cache.listDel, if_pos member] at goes
    cases goes
    have known : ∀ mate, Function.update fate he (.pending none) mate ≠ .unused → fate mate ≠ .unused := by
      intro mate kind
      by_cases own : mate = he
      · subst own
        simp [cached]
      · rwa [Function.update_of_ne own] at kind
    rw [← bucketLock_hashToBucket] at free
    refine ⟨Function.update fate he (.pending none), ?_, ?_, inv.recorded.claim cached,
      inv.stored.erase member (by simp), ?_, ?_, ?_, ?_, ?_, timed.expire⟩
    · exact fun mate kind => inv.fresh mate (known mate kind)
    · exact fun mate kind => inv.hashed mate (known mate kind)
    · have erased : Guarded c.seed (Function.update c.buckets (hashToBucket he.hash)
          ((c.buckets (hashToBucket he.hash)).erase he)) c.locks c.places :=
        inv.guarded.setBucket fun u rest walks => absurd walks (inv.guarded.unwalked free u rest)
      exact erased.same (by simp [here, cursor]) rfl
    · exact pending_claim inv.pending (by simp [Cache.setBucket, here]) (by simp [cached])
    · intro u mate next freeing
      cases u with
      | none =>
        cases freeing
        exact trivial
      | some u => exact inv.resumes (some u) mate next freeing
    · intro u key rest seen mate inside same out
      cases u with
      | none => cases seen
      | some u =>
        refine inv.skipped (some u) key rest seen mate ?_ same out
        simp only [Cache.move, Cache.setBucket] at inside
        by_cases home : hashToBucket (computeHash c.seed key) = hashToBucket he.hash
        · rw [home, Function.update_self] at inside
          rw [home]
          exact List.mem_of_mem_erase inside
        · rwa [Function.update_of_ne home] at inside
    · intro u ticks
      cases u with
      | none => rfl
      | some u => exact inv.sole (some u) ticks
  · cases goes

end Frees

section Adds
variable {c : Cache T V F} {fate : Entry V F → Fate T} {t : Option T} {he : Entry V F} {key : Key}

theorem Inv.unused (inv : Inv c fate) (new : he.id = c.next) : fate he = .unused := by
  by_contra used
  have below := inv.fresh he used
  omega

/-- One more entry is known. -/
theorem known_add (new : Fate T) (inv : Inv c fate) (young : he.id = c.next) (home : he.hash = computeHash c.seed he.key) :
    (∀ mate, Function.update fate he new mate ≠ .unused → mate.id < c.next + 1) ∧
    ∀ mate, Function.update fate he new mate ≠ .unused → mate.hash = computeHash c.seed mate.key := by
  constructor
  all_goals
    intro mate used
    by_cases own : mate = he
    · subst own
      first
        | exact home
        | omega
    · rw [Function.update_of_ne own] at used
      first
        | exact inv.hashed mate used
        | exact Nat.lt_succ_of_lt (inv.fresh mate used)

/-- A value that is refused is freed by the one who brought it. -/
theorem refuse_keeps (inv : Inv c fate) (here : c.places t = .idle) (young : he.id = c.next)
    (home : he.hash = computeHash c.seed he.key) :
    Inv (({ c with next := c.next + 1 }.record (.added he)).move t (.free he .idle))
      (Function.update fate he (.pending t)) := by
  have unused := inv.unused young
  obtain ⟨fresh, hashed⟩ := known_add (.pending t) inv young home
  refine ⟨fresh, hashed, inv.recorded.add unused (.inr ⟨t, rfl⟩), inv.stored.same (by simp [unused]) (by simp), ?_,
    ?_, ?_, ?_, ?_, ?_⟩
  · exact inv.guarded.same (by simp [here, cursor]) rfl
  · exact pending_claim inv.pending (by simp [Cache.record, here]) (by simp [unused])
  · intro u mate next freeing
    by_cases own : u = t
    · subst own
      simp only [Cache.move, Function.update_self] at freeing
      cases freeing
      exact trivial
    · simp only [Cache.move, Function.update_of_ne own] at freeing
      exact inv.resumes u mate next freeing
  · intro u key rest seen
    by_cases own : u = t
    · subst own
      simp [Cache.move] at seen
    · simp only [Cache.move, Function.update_of_ne own] at seen
      exact inv.skipped u key rest seen
  · intro u ticks
    by_cases own : u = t
    · subst own
      simp [Cache.move, Ticks] at ticks
    · simp only [Cache.move, Function.update_of_ne own] at ticks
      exact inv.sole u ticks
  · have timed : Timed c.timers (Function.update fate he (.pending t)) (c.places none) :=
      inv.timed.same (by simp [unused]) (by simp) (by simp)
    by_cases own : none = t
    · subst own
      simp only [Cache.move, Function.update_self]
      exact timed.quiet (by simp [here, Ticks]) (by simp [Ticks])
    · simp only [Cache.move, Function.update_of_ne own]
      exact timed

/-- A value enters at the head of its bucket while nobody walks it. -/
theorem insert_keeps (inv : Inv c fate) (young : he.id = c.next) (home : he.hash = computeHash c.seed he.key)
    (free : c.locks (hashToLock he.hash) = none) :
    Inv ((({ c with next := c.next + 1 }.record (.added he)).setBucket (hashToBucket he.hash)
      (he :: c.buckets (hashToBucket he.hash))).setTimer he (some ⟨false, false⟩)) (Function.update fate he .cached) := by
  have unused := inv.unused young
  obtain ⟨fresh, hashed⟩ := known_add .cached inv young home
  rw [← bucketLock_hashToBucket] at free
  refine ⟨fresh, hashed, inv.recorded.add unused (.inl rfl), inv.stored.cons unused rfl ?_, ?_, ?_, inv.resumes, ?_, inv.sole,
    inv.timed.add unused⟩
  · intro older member
    rw [young]
    apply inv.fresh older
    simp [((inv.stored.cached _ older).mp member).1]
  · exact inv.guarded.setBucket fun u rest walks => absurd walks (inv.guarded.unwalked free u rest)
  · exact pending_other inv.pending (by simp [unused]) (by simp)
  · intro u key rest seen mate inside same out
    have here : c.places u = .get key rest := seen
    have walks : cursor c.seed (c.places u) = some (hashToBucket (computeHash c.seed key), rest) := by
      rw [here]
      rfl
    have other : hashToBucket (computeHash c.seed key) ≠ hashToBucket he.hash := by
      intro own
      rw [own] at walks
      exact inv.guarded.unwalked free u rest walks
    have stays : mate ∈ Function.update c.buckets (hashToBucket he.hash) (he :: c.buckets (hashToBucket he.hash))
        (hashToBucket (computeHash c.seed key)) := inside
    rw [Function.update_of_ne other] at stays
    obtain ⟨stop, runs⟩ := inv.skipped u key rest here mate stays same out
    have elder : mate ≠ he := by
      rintro rfl
      have cached := ((inv.stored.cached _ mate).mp stays).1
      rw [unused] at cached
      cases cached
    exact ⟨stop, (Function.update_of_ne elder ..).trans runs⟩

theorem add_keeps {ptr : V} {freefunc : F} {maxkeys : ℕ} (inv : Inv c fate) (here : c.places t = .idle)
    {result : Result T V F} (goes : pcacheAdd c t key ptr freefunc maxkeys = some result) : Keeps result := by
  rw [pcacheAdd] at goes
  simp only at goes
  split at goes
  · next free =>
    split at goes
    · cases goes
      exact ⟨_, refuse_keeps inv here rfl rfl⟩
    · cases goes
      exact ⟨_, insert_keeps inv rfl rfl free⟩
  · cases goes

end Adds

section Steps
variable {c : Cache T V F} {fate : Entry V F → Fate T} {t : Option T} {result : Result T V F}

theorem pcacheGet_keeps {key : Key} (inv : Inv c fate) (here : c.places t = .idle)
    (goes : pcacheGet c t key = some result) : Keeps result := by
  have before : Plain (c.places t) := by
    rw [here]
    exact plain_idle
  rw [pcacheGet] at goes
  split at goes
  · next free =>
    cases goes
    rw [← bucketLock_hashToBucket] at free ⊢
    exact ⟨fate, lock_keeps inv before (by rw [here]; rfl) plain_get rfl free⟩
  · cases goes

theorem pcacheDel_keeps {key : Key} (inv : Inv c fate) (here : c.places t = .idle ∨ c.places t = .restart key)
    (goes : pcacheDel c t key = some result) : Keeps result := by
  have before : Plain (c.places t) ∧ cursor c.seed (c.places t) = none := by
    obtain idle | again := here
    · rw [idle]
      exact ⟨plain_idle, rfl⟩
    · rw [again]
      exact ⟨⟨by simp, by simp [Ticks]⟩, rfl⟩
  rw [pcacheDel] at goes
  split at goes
  · next free =>
    cases goes
    rw [← bucketLock_hashToBucket] at free ⊢
    exact ⟨fate, lock_keeps inv before.1 before.2 plain_del rfl free⟩
  · cases goes

theorem pcacheClean_keeps {prefixes : Option (List Key)} {h : ℕ} (inv : Inv c fate)
    (here : c.places t = .bucket prefixes h) (goes : pcacheClean c t prefixes h = some result) : Keeps result := by
  have before : Plain (c.places t) := by
    rw [here]
    exact ⟨by simp, by simp [Ticks]⟩
  rw [pcacheClean] at goes
  split at goes
  · split at goes
    · next free =>
      cases goes
      exact ⟨fate, lock_keeps inv before (by rw [here]; rfl) plain_clean rfl free⟩
    · cases goes
  · cases goes
    exact ⟨fate, inv.move before plain_idle (inv.guarded.same (by rw [here]; rfl) rfl) (by simp)⟩

/-- What a thread does in the middle of a call, wherever it is. -/
theorem proceed_keeps (inv : Inv c fate) (goes : proceed c t = some result) : Keeps result := by
  generalize here : c.places t = place
  cases place with
  | idle => simp [proceed, here] at goes
  | get key rest =>
    cases rest with
    | nil =>
      simp only [proceed, here, Option.some.injEq] at goes
      subst goes
      rw [← bucketLock_hashToBucket]
      exact ⟨fate, unlock_keeps inv (by rw [here]; exact plain_get) (by rw [here]; rfl) plain_idle rfl⟩
    | cons he rest => exact get_keeps inv here goes
  | del key rest =>
    cases rest with
    | nil =>
      simp only [proceed, here, Option.some.injEq] at goes
      subst goes
      rw [← bucketLock_hashToBucket]
      exact ⟨fate, unlock_keeps inv (by rw [here]; exact plain_del) (by rw [here]; rfl) plain_idle rfl⟩
    | cons he rest => exact del_keeps inv here goes
  | restart key =>
    simp only [proceed, here] at goes
    exact pcacheDel_keeps inv (.inr here) goes
  | clean prefixes h rest =>
    cases rest with
    | nil =>
      simp only [proceed, here, Option.some.injEq] at goes
      subst goes
      have after : Plain (.bucket prefixes (h + 1) : Place V F) := ⟨by simp, by simp [Ticks]⟩
      exact ⟨fate, unlock_keeps inv (by rw [here]; exact plain_clean) (by rw [here]; rfl) after rfl⟩
    | cons he rest => exact clean_keeps inv here goes
  | bucket prefixes h =>
    simp only [proceed, here] at goes
    exact pcacheClean_keeps inv here goes
  | free he next =>
    simp only [proceed, here, Option.some.injEq] at goes
    subst goes
    exact ⟨_, free_keeps inv here⟩
  | stop he timers rest => exact stop_keeps inv here goes
  | process timers rest =>
    cases rest with
    | nil =>
      simp only [proceed, here, Option.some.injEq] at goes
      subst goes
      have own := inv.sole t (by simp [here, Ticks])
      exact processed_keeps inv here
    | cons he rest =>
      simp only [proceed, here] at goes
      exact cacheTimer_keeps inv here goes

theorem step_keeps {action : Action V F} (inv : Inv c fate) (goes : step c t action = some result) : Keeps result := by
  generalize here : c.places t = place
  cases action with
  | proceed =>
    have same : proceed c t = some result := by
      cases place <;> simpa only [step, here] using goes
    exact proceed_keeps inv same
  | get key =>
    cases place <;> simp only [step, here, reduceCtorEq] at goes
    exact pcacheGet_keeps inv here goes
  | add key ptr freefunc maxkeys =>
    cases place <;> simp only [step, here, reduceCtorEq] at goes
    exact add_keeps inv here goes
  | del key =>
    cases place <;> simp only [step, here, reduceCtorEq] at goes
    exact pcacheDel_keeps inv (.inl here) goes
  | clean | cleanOneof prefixes =>
    cases place <;> simp only [step, here, reduceCtorEq, Option.some.injEq] at goes
    subst goes
    exact ⟨fate, inv.move (by rw [here]; exact plain_idle) ⟨by simp, by simp [Ticks]⟩
      (inv.guarded.same (by rw [here]; rfl) rfl) (by simp)⟩
  | fire fired =>
    cases place <;> simp only [step, here, reduceCtorEq] at goes
    split at goes
    · next own =>
      subst own
      exact fire_keeps inv here goes
    · cases goes

end Steps

end Pclsync.Proofs.Objects
