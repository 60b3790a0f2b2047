import Pclsync.Library.Census
import Pclsync.Locks.RwLock

/-! The counts of the read-write lock are the numbers of threads in each role. A
step moves one thread from a role to another and may wake sleepers, and the numbers
stay in balance. -/

namespace Pclsync.Proofs.RwLock
open Pclsync.Locks Pclsync.Locks.RwLock Pclsync.Library.Census

/-- What a thread is to the lock. -/
inductive Role where
  | idle
  | reader
  | reserver
  | writer
  | readWaiter (signalled : Bool)
  | writeWaiter (signalled : Bool)
  | upgrader (signalled : Bool)
  | broken
deriving DecidableEq, Repr

/-- A count of recursive locks that is not confused with a reservation. -/
abbrev Depth (count : ℕ) : Prop := 0 < count ∧ count < wrReserved

def role (thread : Thread) : Role :=
  match thread.place with
  | .running =>
    if thread.cnt.rd = 0 then
      if thread.cnt.wr = 0 then .idle else if Depth thread.cnt.wr then .writer else .broken
    else if ¬Depth thread.cnt.rd then .broken
    else if thread.cnt.wr = 0 then .reader
    else if thread.cnt.wr = wrReserved then .reserver
    else .broken
  | .waiting .towrlock signalled =>
    if Depth thread.cnt.rd ∧ (thread.cnt.wr = 0 ∨ thread.cnt.wr = wrReserved) then .upgrader signalled else .broken
  | .waiting loop signalled =>
    if thread.cnt = ⟨0, 0⟩ then
      match loop.cond with
      | .rcond => .readWaiter signalled
      | .wcond => .writeWaiter signalled
    else .broken

variable {T : Type} [Fintype T] [DecidableEq T]

def roles (rw : RwLock T) : T → Role := fun t => role (rw.threads t)

/-- How many threads have a role. -/
def census (rw : RwLock T) : Role → ℕ := tally Finset.univ (roles rw)

/-- How many other threads have a role. -/
def others (rw : RwLock T) (t : T) : Role → ℕ := tally (Finset.univ.erase t) (roles rw)

/-- One more thread in a role. -/
abbrev plus (number : Role → ℕ) (new : Role) : Role → ℕ := fun kind => number kind + if new = kind then 1 else 0

/-- The counts of a lock against the numbers of threads in each role. -/
structure Counts (rw : RwLock T) (number : Role → ℕ) : Prop where
  readers : rw.rcount = number .reader + number .reserver
  writers : rw.wcount = number .writer
  readWaiters : rw.rwait = number (.readWaiter true) + number (.readWaiter false)
  writeWaiters : rw.wwait = number (.writeWaiter true) + number (.writeWaiter false) +
    number (.upgrader true) + number (.upgrader false)
  reservation : rw.reserved.toNat = number .reserver + number (.upgrader true) + number (.upgrader false)
  alone : rw.wcount ≤ 1 ∧ (rw.wcount = 1 → rw.rcount = 0 ∧ rw.reserved = false)
  fair : rw.preferRead = false
  whole : number .broken = 0

/-- Nobody sleeps who could go on while the lock is free. -/
structure Awake (rw : RwLock T) (number : Role → ℕ) : Prop where
  readers : rw.wcount = 0 → rw.wwait = 0 → number (.readWaiter false) = 0
  writers : rw.rcount = 0 → rw.wcount = 0 → rw.reserved = false → rw.wwait ≠ 0 → number (.writeWaiter true) ≠ 0
  upgrader : rw.rcount = 0 → rw.wcount = 0 → number (.upgrader false) = 0

/-- The invariant of the lock. -/
structure Inv (rw : RwLock T) : Prop where
  counts : Counts rw (census rw)
  awake : Awake rw (census rw)

/-- No assertion fails, and the invariant holds after. -/
def Keeps : Result T → Prop
  | .failed => False
  | .next after _ => Inv after

section Roles
variable {rw : RwLock T} {t : T}

omit [Fintype T] in
theorem roles_set (thread : Thread) : roles (rw.set t thread) = Function.update (roles rw) t (role thread) := by
  funext u
  by_cases own : u = t
  · subst own
    simp [roles, RwLock.set]
  · simp [roles, RwLock.set, own]

theorem role_running (cnt : Count) : role ⟨cnt, .running⟩ ∈ [.idle, .reader, .reserver, .writer, .broken] := by
  simp only [role]
  split_ifs <;> simp

theorem role_wakeOn_rcond (thread : Thread) :
    role (wakeOn .rcond thread) = merge (.readWaiter false) (.readWaiter true) (role thread) := by
  obtain ⟨cnt, place⟩ := thread
  cases place with
  | running =>
    have kinds := role_running cnt
    rw [wakeOn, merge_of_ne]
    intro same
    rw [same] at kinds
    simp at kinds
  | waiting loop signalled =>
    cases loop <;> cases signalled <;> simp [role, wakeOn, merge, Loop.cond] <;> split_ifs <;> simp_all

theorem role_wakeOn_wcond (thread : Thread) : role (wakeOn .wcond thread) =
    merge (.writeWaiter false) (.writeWaiter true) (merge (.upgrader false) (.upgrader true) (role thread)) := by
  obtain ⟨cnt, place⟩ := thread
  cases place with
  | running =>
    have kinds := role_running cnt
    rw [wakeOn, merge_of_ne, merge_of_ne]
    · intro same
      rw [same] at kinds
      simp at kinds
    · rw [merge_of_ne] <;>
      · intro same
        rw [same] at kinds
        simp at kinds
  | waiting loop signalled =>
    cases loop <;> cases signalled <;> simp [role, wakeOn, merge, Loop.cond] <;> split_ifs <;> simp_all

omit [Fintype T] [DecidableEq T] in
theorem roles_broadcast_rcond : roles (rw.broadcast .rcond) =
    merge (.readWaiter false) (.readWaiter true) ∘ roles rw :=
  funext fun t => role_wakeOn_rcond (rw.threads t)

omit [Fintype T] [DecidableEq T] in
theorem roles_broadcast_wcond : roles (rw.broadcast .wcond) =
    merge (.writeWaiter false) (.writeWaiter true) ∘ merge (.upgrader false) (.upgrader true) ∘ roles rw :=
  funext fun t => role_wakeOn_wcond (rw.threads t)

/-- A thread and the others. -/
theorem census_eq (rw : RwLock T) (t : T) : census rw = plus (others rw t) (roles rw t) := by
  funext kind
  exact tally_erase (Finset.mem_univ t) _ _

theorem census_set {base : RwLock T} {thread : Thread} {new : Role} (kind : role thread = new)
    (same : base.threads = Function.update rw.threads t thread) : census base = plus (others rw t) new := by
  subst kind
  funext kind
  have changed : roles base = Function.update (roles rw) t (role thread) := by
    rw [← roles_set]
    exact funext fun u => congrArg role (congrFun same u)
  rw [census, changed]
  exact tally_update (Finset.mem_univ t) _ _ _

/-- One thread changes, and so do the counts. -/
theorem keeps_set (rw : RwLock T) {base : RwLock T} {thread : Thread} {ret : Ret} (new : Role) (same : base.threads = rw.threads)
    (kind : role thread = new) (counts : Counts base (plus (others rw t) new))
    (awake : Awake base (plus (others rw t) new)) : Keeps (.next (base.set t thread) ret) := by
  have number : census (base.set t thread) = plus (others rw t) new := by
    apply census_set kind
    rw [RwLock.set, same]
  rw [← number] at counts awake
  exact ⟨⟨counts.readers, counts.writers, counts.readWaiters, counts.writeWaiters, counts.reservation, counts.alone,
    counts.fair, counts.whole⟩, ⟨awake.readers, awake.writers, awake.upgrader⟩⟩

end Roles

section Loops
variable {rw : RwLock T} {t : T} {loop : Loop}

theorem rdlockLoop_keeps (counts : Counts rw (others rw t)) (awake : Awake rw (others rw t))
    (cnt : (rw.threads t).cnt = ⟨0, 0⟩) (cond : loop.cond = .rcond) : Keeps (rdlockLoop rw t loop) := by
  obtain ⟨readers, writers, readWaiters, writeWaiters, reservation, alone, fair, whole⟩ := counts
  obtain ⟨readersAwake, writersAwake, upgraderAwake⟩ := awake
  rw [rdlockLoop]
  split
  · next waits =>
    have kind : role ⟨(rw.threads t).cnt, .waiting loop false⟩ = .readWaiter false := by
      cases loop <;> simp_all [role, Loop.cond]
    rw [readerWaits] at waits
    refine keeps_set rw (.readWaiter false) rfl kind ?_ ?_
    · constructor <;> simp [plus] <;> omega
    · constructor <;> simp [plus] <;> omega
  · next free =>
    rw [readerWaits] at free
    refine keeps_set rw .reader rfl (by simp [role]) ?_ ?_
    · constructor <;> simp [plus] <;> omega
    · constructor <;> simp [plus]
      omega

/-- A writer that waits finds the lock taken, and one that does not takes it: who
sleeps need not be known. -/
theorem wrlockLoop_keeps (counts : Counts rw (others rw t))
    (upgraderAwake : rw.rcount = 0 → rw.wcount = 0 → others rw t (.upgrader false) = 0)
    (cnt : (rw.threads t).cnt = ⟨0, 0⟩) (writes : loop = .wrlock ∨ loop = .timedwrlock) :
    Keeps (wrlockLoop rw t loop) := by
  obtain ⟨readers, writers, readWaiters, writeWaiters, reservation, alone, fair, whole⟩ := counts
  rw [wrlockLoop]
  split
  · next waits =>
    have kind : role ⟨(rw.threads t).cnt, .waiting loop false⟩ = .writeWaiter false := by
      cases writes with
      | inl plain => simp [plain, role, cnt, Loop.cond]
      | inr timed => simp [timed, role, cnt, Loop.cond]
    rw [writerWaits] at waits
    refine keeps_set rw (.writeWaiter false) rfl kind ?_ ?_
    · constructor <;> simp [plus] <;> omega
    · constructor <;> simp [plus] <;> grind
  · next free =>
    rw [writerWaits, not_or, not_or, not_not, not_not, Bool.not_eq_true] at free
    obtain ⟨noReader, noWriter, unreserved⟩ := free
    refine keeps_set rw .writer rfl (by simp [role]) ?_ ?_
    · constructor <;> simp [plus, noReader, noWriter, unreserved] at * <;> omega
    · constructor <;> simp [plus]

theorem others_broadcast_rcond (number : Role → ℕ) (same : others rw t = number) :
    others (rw.broadcast .rcond) t = fun kind =>
      if kind = .readWaiter false then 0
      else if kind = .readWaiter true then number (.readWaiter true) + number (.readWaiter false)
      else number kind := by
  subst same
  funext kind
  rw [others, roles_broadcast_rcond]
  split
  · next own =>
    rw [own]
    exact tally_merge_source (by decide)
  split
  · next own =>
    rw [own]
    exact tally_merge_target (by decide)
  · exact tally_merge_of_ne (by assumption) (by assumption)

/-- The same for a thread that wants a reservation. It wakes the readers. -/
theorem rslockLoop_keeps (counts : Counts rw (others rw t))
    (upgraderAwake : rw.rcount = 0 → rw.wcount = 0 → others rw t (.upgrader false) = 0)
    (cnt : (rw.threads t).cnt = ⟨0, 0⟩) : Keeps (rslockLoop rw t) := by
  obtain ⟨readers, writers, readWaiters, writeWaiters, reservation, alone, fair, whole⟩ := counts
  rw [rslockLoop]
  split
  · next waits =>
    rw [reserverWaits] at waits
    refine keeps_set rw (.writeWaiter false) rfl (by simp [role, cnt, Loop.cond]) ?_ ?_
    · constructor <;> simp [plus] <;> omega
    · constructor <;> simp [plus] <;> grind
  · next free =>
    rw [reserverWaits, not_or, not_not, Bool.not_eq_true] at free
    obtain ⟨noWriter, unreserved⟩ := free
    simp only
    split
    · have number := others_broadcast_rcond (others rw t) rfl
      refine keeps_set (rw.broadcast .rcond) .reserver rfl (by simp [role]) ?_ ?_
      · rw [number]
        constructor <;> simp [plus, RwLock.broadcast, noWriter, unreserved] at * <;> omega
      · rw [number]
        constructor <;> simp [plus, RwLock.broadcast]
    · next none =>
      refine keeps_set rw .reserver rfl (by simp [role]) ?_ ?_
      · constructor <;> simp [plus, noWriter, unreserved] at * <;> omega
      · constructor <;> simp [plus]
        omega

/-- The counts without a thread that is about to wait for the last reader: it has the
reservation, and is not a reader any more. -/
structure Upgrading (rw : RwLock T) (number : Role → ℕ) : Prop where
  readers : rw.rcount = number .reader + number .reserver
  writers : rw.wcount = 0 ∧ number .writer = 0
  readWaiters : rw.rwait = number (.readWaiter true) + number (.readWaiter false)
  writeWaiters : rw.wwait = number (.writeWaiter true) + number (.writeWaiter false) +
    number (.upgrader true) + number (.upgrader false)
  reservation : rw.reserved = true ∧ number .reserver + number (.upgrader true) + number (.upgrader false) = 0
  fair : rw.preferRead = false
  whole : number .broken = 0

theorem towrlockLoop_keeps (upgrading : Upgrading rw (others rw t)) (depth : Depth (rw.threads t).cnt.rd)
    (own : (rw.threads t).cnt.wr = 0 ∨ (rw.threads t).cnt.wr = wrReserved) : Keeps (towrlockLoop rw t) := by
  obtain ⟨readers, writers, readWaiters, writeWaiters, reservation, fair, whole⟩ := upgrading
  rw [towrlockLoop]
  split
  · next waits =>
    have kind : role ⟨(rw.threads t).cnt, .waiting .towrlock false⟩ = .upgrader false := by
      simp only [role]
      rw [if_pos ⟨depth, own⟩]
    refine keeps_set rw (.upgrader false) rfl kind ?_ ?_
    · constructor <;> simp [plus, writers, reservation] <;> omega
    · constructor <;> simp [plus] <;> omega
  · next last =>
    have kind : role ⟨⟨0, (rw.threads t).cnt.rd⟩, .running⟩ = .writer := by
      have some : (rw.threads t).cnt.rd ≠ 0 := by
        have positive := depth.1
        omega
      simp only [role, if_true, if_neg some, if_pos depth]
    rw [pdbgAssert, if_pos writers.1]
    refine keeps_set rw .writer rfl kind ?_ ?_
    · constructor <;> simp [plus, writers, reservation] at * <;> omega
    · constructor <;> simp [plus, writers]

end Loops

section Unlock
variable {rw : RwLock T} {t pick : T}

theorem census_broadcast_wcond : census (rw.broadcast .wcond) = fun kind =>
    if kind = .writeWaiter false then 0
    else if kind = .writeWaiter true then census rw (.writeWaiter true) + census rw (.writeWaiter false)
    else if kind = .upgrader false then 0
    else if kind = .upgrader true then census rw (.upgrader true) + census rw (.upgrader false)
    else census rw kind := by
  funext kind
  rw [census, roles_broadcast_wcond]
  split
  · next own =>
    rw [own]
    exact tally_merge_source (by decide)
  split
  · next own =>
    rw [own, tally_merge_target (by decide), tally_merge_of_ne (by decide) (by decide),
      tally_merge_of_ne (by decide) (by decide)]
    rfl
  rw [tally_merge_of_ne (by assumption) (by assumption)]
  split
  · next own =>
    rw [own]
    exact tally_merge_source (by decide)
  split
  · next own =>
    rw [own]
    exact tally_merge_target (by decide)
  · exact tally_merge_of_ne (by assumption) (by assumption)

theorem census_broadcast_rcond : census (rw.broadcast .rcond) = fun kind =>
    if kind = .readWaiter false then 0
    else if kind = .readWaiter true then census rw (.readWaiter true) + census rw (.readWaiter false)
    else census rw kind := by
  funext kind
  rw [census, roles_broadcast_rcond]
  split
  · next own =>
    rw [own]
    exact tally_merge_source (by decide)
  split
  · next own =>
    rw [own]
    exact tally_merge_target (by decide)
  · exact tally_merge_of_ne (by assumption) (by assumption)

/-- All who wait to write are woken. -/
theorem broadcast_wcond_inv (counts : Counts rw (census rw))
    (readersAwake : rw.wcount = 0 → rw.wwait = 0 → census rw (.readWaiter false) = 0) :
    Inv (rw.broadcast .wcond) := by
  obtain ⟨readers, writers, readWaiters, writeWaiters, reservation, alone, fair, whole⟩ := counts
  constructor
  · rw [census_broadcast_wcond]
    constructor <;> simp [RwLock.broadcast] <;> omega
  · rw [census_broadcast_wcond]
    constructor <;> simp [RwLock.broadcast]
    · exact readersAwake
    · intro _ _ unreserved
      rw [unreserved, Bool.toNat_false] at reservation
      omega

/-- All who wait to read are woken, when nobody waits to write. -/
theorem broadcast_rcond_inv (counts : Counts rw (census rw)) (none : rw.wwait = 0) : Inv (rw.broadcast .rcond) := by
  obtain ⟨readers, writers, readWaiters, writeWaiters, reservation, alone, fair, whole⟩ := counts
  constructor
  · rw [census_broadcast_rcond]
    constructor <;> simp [RwLock.broadcast] <;> omega
  · rw [census_broadcast_rcond]
    constructor <;> simp [RwLock.broadcast] <;> omega

theorem role_asleep {thread : Thread} (asleep : Asleep thread .wcond) (whole : role thread ≠ .broken) :
    role thread = .writeWaiter false ∨ role thread = .upgrader false := by
  obtain ⟨cnt, place⟩ := thread
  obtain ⟨loop, place, cond⟩ := asleep
  simp only at place
  subst place
  cases loop <;> simp_all [role, Loop.cond]

theorem asleep_of_role {thread : Thread} (kind : role thread = .writeWaiter false) : Asleep thread .wcond := by
  obtain ⟨cnt, place⟩ := thread
  cases place with
  | running =>
    have kinds := role_running cnt
    rw [kind] at kinds
    simp at kinds
  | waiting loop signalled =>
    cases loop <;> cases signalled <;> simp only [role, Loop.cond] at kind <;> split_ifs at kind <;>
      simp_all [Asleep, Loop.cond]

/-- One who waits to write is woken, if nobody has a reservation. -/
theorem signal_inv (counts : Counts rw (census rw)) (unreserved : rw.reserved = false)
    (readersAwake : rw.wcount = 0 → rw.wwait = 0 → census rw (.readWaiter false) = 0)
    (picked : (∃ u, Asleep (rw.threads u) .wcond) → Asleep (rw.threads pick) .wcond) : Inv (rw.signal pick) := by
  obtain ⟨readers, writers, readWaiters, writeWaiters, reservation, alone, fair, whole⟩ := counts
  have number : census (rw.signal pick) = plus (others rw pick) (role (wakeOn .wcond (rw.threads pick))) :=
    census_set rfl rfl
  have before := census_eq rw pick
  have unbroken : roles rw pick ≠ .broken := ne_of_tally whole (Finset.mem_univ pick)
  have noUpgrader : roles rw pick ≠ .upgrader false := by
    apply ne_of_tally ?_ (Finset.mem_univ pick)
    rw [unreserved, Bool.toNat_false] at reservation
    have same : census rw (.upgrader false) = 0 := by omega
    exact same
  rw [role_wakeOn_wcond] at number
  by_cases asleep : Asleep (rw.threads pick) .wcond
  · have kind : roles rw pick = .writeWaiter false := (role_asleep asleep unbroken).resolve_right noUpgrader
    have woken : role (rw.threads pick) = .writeWaiter false := kind
    rw [woken] at number
    rw [kind] at before
    simp only [before] at readers writers readWaiters writeWaiters reservation whole readersAwake
    constructor
    · rw [number]
      constructor <;> simp [RwLock.signal, RwLock.set, merge, plus] at * <;> omega
    · rw [number]
      constructor <;> simp [RwLock.signal, RwLock.set, merge, plus, unreserved] at * <;> omega
  · have none : census rw (.writeWaiter false) = 0 := by
      by_contra some
      obtain ⟨u, _, kind⟩ := exists_of_tally some
      exact asleep (picked ⟨u, asleep_of_role kind⟩)
    have awake : roles rw pick ≠ .writeWaiter false := ne_of_tally none (Finset.mem_univ pick)
    have kind : role (rw.threads pick) ≠ .writeWaiter false := awake
    have other : role (rw.threads pick) ≠ .upgrader false := noUpgrader
    rw [merge_of_ne other, merge_of_ne kind] at number
    have same : census (rw.signal pick) = census rw := by rw [number, before]; rfl
    constructor
    · rw [same]
      exact ⟨readers, writers, readWaiters, writeWaiters, reservation, alone, fair, whole⟩
    · rw [same]
      constructor <;> simp [RwLock.signal, RwLock.set, unreserved] at * <;> omega

omit [Fintype T] in
/-- The same threads sleep when one that runs changes. -/
theorem picked_set {base : RwLock T} {cnt old : Count} (running : rw.threads t = ⟨old, .running⟩)
    (same : base.threads = Function.update rw.threads t ⟨cnt, .running⟩)
    (picked : (∃ u, Asleep (rw.threads u) .wcond) → Asleep (rw.threads pick) .wcond) :
    (∃ u, Asleep (base.threads u) .wcond) → Asleep (base.threads pick) .wcond := by
  have alike : ∀ u, Asleep (base.threads u) .wcond ↔ Asleep (rw.threads u) .wcond := by
    intro u
    rw [same]
    by_cases own : u = t
    · subst own
      rw [Function.update_self, running]
      simp [Asleep]
    · rw [Function.update_of_ne own]
  rintro ⟨u, asleep⟩
  exact (alike pick).mpr (picked ⟨u, (alike u).mp asleep⟩)

/-- After the last reader those who wait to write are woken. -/
theorem wakeWriters_inv (counts : Counts rw (census rw))
    (readersAwake : rw.wcount = 0 → rw.wwait = 0 → census rw (.readWaiter false) = 0)
    (picked : (∃ u, Asleep (rw.threads u) .wcond) → Asleep (rw.threads pick) .wcond) :
    Inv (if rw.rcount = 0 ∧ rw.wwait ≠ 0 then if rw.reserved then rw.broadcast .wcond else rw.signal pick else rw) := by
  split
  · split
    · exact broadcast_wcond_inv counts readersAwake
    · next unreserved => exact signal_inv counts (Bool.not_eq_true _ ▸ unreserved) readersAwake picked
  · next kept =>
    refine ⟨counts, readersAwake, ?_, ?_⟩
    · intro noReader _ _ waits
      exact absurd ⟨noReader, waits⟩ kept
    · intro noReader _
      have none : rw.wwait = 0 := by
        by_contra waits
        exact kept ⟨noReader, waits⟩
      have waiters := counts.writeWaiters
      omega

/-- After the last writer those who wait to write, or else to read, are woken. -/
theorem wakeAny_inv (counts : Counts rw (census rw)) (unreserved : rw.reserved = false)
    (picked : (∃ u, Asleep (rw.threads u) .wcond) → Asleep (rw.threads pick) .wcond) :
    Inv (if rw.wwait ≠ 0 then rw.signal pick else if rw.rwait ≠ 0 then rw.broadcast .rcond else rw) := by
  split
  · next waits => exact signal_inv counts unreserved (fun _ none => absurd none waits) picked
  next none =>
  rw [not_not] at none
  split
  · exact broadcast_rcond_inv counts none
  · next noReaders =>
    rw [not_not] at noReaders
    have readWaiters := counts.readWaiters
    have writeWaiters := counts.writeWaiters
    refine ⟨counts, ?_, ?_, ?_⟩ <;> omega

/-- The counts without a thread that has a role that is not counted. -/
theorem counts_idle {base : RwLock T} {new : Role} (plain : new = .idle) (same : census base = plus (others rw t) new)
    (counts : Counts base (others rw t)) : Counts base (census base) := by
  subst plain
  rw [same]
  obtain ⟨readers, writers, readWaiters, writeWaiters, reservation, alone, fair, whole⟩ := counts
  exact ⟨readers, writers, readWaiters, writeWaiters, reservation, alone, fair, whole⟩

theorem unlockRead_keeps {old : Count} (inv : Inv rw) (running : rw.threads t = ⟨old, .running⟩)
    (kind : roles rw t = .reader)
    (picked : (∃ u, Asleep (rw.threads u) .wcond) → Asleep (rw.threads pick) .wcond) :
    Keeps (unlockRead (rw.setCount t 0 0) t pick) := by
  obtain ⟨⟨readers, writers, readWaiters, writeWaiters, reservation, alone, fair, whole⟩, awake⟩ := inv
  have readersAwake := awake.readers
  have before := census_eq rw t
  rw [kind] at before
  simp only [before, plus, reduceCtorEq, if_true, if_false, add_zero] at readers writers readWaiters writeWaiters
  simp only [before, plus, reduceCtorEq, if_false, add_zero] at reservation whole readersAwake
  have unowned : ¬((rw.setCount t 0 0).reserved = true ∧ ((rw.setCount t 0 0).threads t).cnt.wr = wrReserved) := by
    simp [RwLock.setCount, RwLock.set]
  have number : census { rw.setCount t 0 0 with rcount := rw.rcount - 1 } = plus (others rw t) .idle := census_set rfl rfl
  have counts : Counts { rw.setCount t 0 0 with rcount := rw.rcount - 1 } (others rw t) := by
    constructor <;> simp [RwLock.setCount, RwLock.set, whole] <;> omega
  rw [unlockRead]
  simp only [if_neg unowned]
  apply wakeWriters_inv (counts_idle rfl number counts)
  · rw [number]
    intro noWriter none
    simp only [plus, reduceCtorEq, if_false, add_zero]
    exact readersAwake noWriter none
  · exact picked_set running rfl picked

/-- The thread with the reservation gives it back too. -/
theorem unlockRead_keeps_reserver {old : Count} (inv : Inv rw) (running : rw.threads t = ⟨old, .running⟩)
    (kind : roles rw t = .reserver)
    (picked : (∃ u, Asleep (rw.threads u) .wcond) → Asleep (rw.threads pick) .wcond) :
    Keeps (unlockRead (rw.setCount t 0 wrReserved) t pick) := by
  obtain ⟨⟨readers, writers, readWaiters, writeWaiters, reservation, alone, fair, whole⟩, awake⟩ := inv
  have readersAwake := awake.readers
  have before := census_eq rw t
  rw [kind] at before
  simp only [before, plus, reduceCtorEq, if_true, if_false, add_zero] at readers writers readWaiters writeWaiters
  simp only [before, plus, reduceCtorEq, if_true, if_false, add_zero] at reservation whole readersAwake
  have reserved : rw.reserved = true := by
    by_contra free
    rw [Bool.not_eq_true] at free
    rw [free, Bool.toNat_false] at reservation
    omega
  rw [reserved, Bool.toNat_true] at reservation
  have owned : (rw.setCount t 0 wrReserved).reserved = true ∧
      ((rw.setCount t 0 wrReserved).threads t).cnt.wr = wrReserved := by
    simp [RwLock.setCount, RwLock.set, reserved]
  have rd : ((rw.setCount t 0 wrReserved).threads t).cnt.rd = 0 := by
    simp [RwLock.setCount, RwLock.set]
  have twice : ((rw.setCount t 0 wrReserved).setCount t 0 0).threads =
      Function.update rw.threads t ⟨⟨0, 0⟩, .running⟩ := by
    simp [RwLock.setCount, RwLock.set]
  have number : census { (rw.setCount t 0 wrReserved).setCount t 0 0 with reserved := false, rcount := rw.rcount - 1 } =
      plus (others rw t) .idle := census_set rfl twice
  have counts : Counts { (rw.setCount t 0 wrReserved).setCount t 0 0 with reserved := false, rcount := rw.rcount - 1 }
      (others rw t) := by
    constructor <;> simp [RwLock.setCount, RwLock.set, whole] <;> omega
  rw [unlockRead]
  simp only [if_pos owned, rd]
  apply wakeWriters_inv (counts_idle rfl number counts)
  · rw [number]
    intro noWriter none
    simp only [plus, reduceCtorEq, if_false, add_zero]
    exact readersAwake noWriter none
  · exact picked_set running twice picked

/-- The writer leaves the lock free. -/
theorem unlockWrite_keeps {old : Count} (inv : Inv rw) (running : rw.threads t = ⟨old, .running⟩)
    (kind : roles rw t = .writer)
    (picked : (∃ u, Asleep (rw.threads u) .wcond) → Asleep (rw.threads pick) .wcond) :
    rw.rcount = 0 ∧ Keeps (unlockWrite (rw.setCount t 0 0) pick) := by
  obtain ⟨⟨readers, writers, readWaiters, writeWaiters, reservation, alone, fair, whole⟩, awake⟩ := inv
  have before := census_eq rw t
  rw [kind] at before
  simp only [before, plus, reduceCtorEq, if_true, if_false, add_zero] at readers writers readWaiters writeWaiters
  simp only [before, plus, reduceCtorEq, if_false, add_zero] at reservation whole
  have one : rw.wcount = 1 := by omega
  obtain ⟨noReader, unreserved⟩ := alone.2 one
  have number : census { rw.setCount t 0 0 with wcount := rw.wcount - 1 } = plus (others rw t) .idle := census_set rfl rfl
  have counts : Counts { rw.setCount t 0 0 with wcount := rw.wcount - 1 } (others rw t) := by
    constructor <;> simp [RwLock.setCount, RwLock.set, whole] <;> omega
  have free := wakeAny_inv (counts_idle rfl number counts) unreserved (picked_set running rfl picked)
  have taken : (rw.setCount t 0 0).wcount ≠ 0 := by
    have some : rw.wcount ≠ 0 := by omega
    exact some
  have last : ¬({ rw.setCount t 0 0 with wcount := (rw.setCount t 0 0).wcount - 1 } : RwLock T).wcount ≠ 0 := by
    have none : rw.wcount - 1 = 0 := by omega
    exact not_not.mpr none
  have plain : ¬({ rw.setCount t 0 0 with wcount := (rw.setCount t 0 0).wcount - 1 } : RwLock T).reserved = true := by
    have no : ¬rw.reserved = true := by rw [unreserved]; decide
    exact no
  have even : ¬({ rw.setCount t 0 0 with wcount := (rw.setCount t 0 0).wcount - 1 } : RwLock T).preferRead = true := by
    have no : ¬rw.preferRead = true := by rw [fair]; decide
    exact no
  refine ⟨noReader, ?_⟩
  rw [unlockWrite, pdbgAssert, if_pos taken]
  simp only
  rw [if_neg last, if_neg plain, if_neg even]
  exact free

end Unlock

section Calls
variable {rw : RwLock T} {t pick : T} {cnt : Count} {ret : Ret}

/-- A change of depth in the same role. -/
theorem keeps_same {thread : Thread} (inv : Inv rw) (kind : role thread = roles rw t) :
    Keeps (.next (rw.set t thread) ret) := by
  refine keeps_set rw (roles rw t) rfl kind ?_ ?_
  · rw [← census_eq]
    exact inv.counts
  · rw [← census_eq]
    exact inv.awake

theorem Inv.idle (inv : Inv rw) (kind : roles rw t = .idle) : Counts rw (others rw t) ∧ Awake rw (others rw t) := by
  obtain ⟨⟨readers, writers, readWaiters, writeWaiters, reservation, alone, fair, whole⟩,
    ⟨readersAwake, writersAwake, upgraderAwake⟩⟩ := inv
  have before := census_eq rw t
  rw [kind] at before
  simp only [before, plus, reduceCtorEq, if_false, add_zero] at readers writers readWaiters writeWaiters
  simp only [before, plus, reduceCtorEq, if_false, add_zero] at reservation whole
  simp only [before, plus, reduceCtorEq, if_false, add_zero] at readersAwake writersAwake upgraderAwake
  exact ⟨⟨readers, writers, readWaiters, writeWaiters, reservation, alone, fair, whole⟩,
    ⟨readersAwake, writersAwake, upgraderAwake⟩⟩

omit [DecidableEq T] in
theorem unbroken (inv : Inv rw) (t : T) : role (rw.threads t) ≠ .broken :=
  (ne_of_tally inv.counts.whole (Finset.mem_univ t) : roles rw t ≠ .broken)

/-- What a thread that runs holds. -/
inductive Holding : Count → Role → Prop where
  | idle : Holding ⟨0, 0⟩ .idle
  | reader {rd : ℕ} (depth : Depth rd) : Holding ⟨rd, 0⟩ .reader
  | reserver {rd : ℕ} (depth : Depth rd) : Holding ⟨rd, wrReserved⟩ .reserver
  | writer {wr : ℕ} (depth : Depth wr) : Holding ⟨0, wr⟩ .writer

theorem Holding.role {kind : Role} (holding : Holding cnt kind) : RwLock.role ⟨cnt, .running⟩ = kind := by
  cases holding with
  | idle => rfl
  | reader depth =>
    have some := Nat.pos_iff_ne_zero.mp depth.1
    simp only [RwLock.role]
    rw [if_neg some, if_neg (not_not.mpr depth), if_pos trivial]
  | reserver depth =>
    have some := Nat.pos_iff_ne_zero.mp depth.1
    simp only [RwLock.role]
    rw [if_neg some, if_neg (not_not.mpr depth), if_neg (by decide), if_pos trivial]
  | writer depth =>
    have some := Nat.pos_iff_ne_zero.mp depth.1
    simp only [RwLock.role]
    rw [if_pos trivial, if_neg some, if_pos depth]

omit [DecidableEq T] in
theorem holding (inv : Inv rw) (running : rw.threads t = ⟨cnt, .running⟩) : Holding cnt (roles rw t) := by
  have whole := unbroken inv t
  obtain ⟨rd, wr⟩ := cnt
  rw [roles]
  rw [running] at whole ⊢
  simp only [RwLock.role] at whole ⊢
  split_ifs at whole ⊢ with noRead noWrite deep depth none reserved
  · subst noRead noWrite
    exact .idle
  · subst noRead
    exact .writer deep
  · exact absurd rfl whole
  · subst none
    exact .reader depth
  · subst reserved
    exact .reserver depth
  · exact absurd rfl whole
  · exact absurd rfl whole

theorem increment_eq {count : ℕ} (below : count + 1 < wrReserved) : increment count = count + 1 := by
  have wide : wrReserved < 2 ^ 32 := by decide
  exact Nat.mod_eq_of_lt (by omega)

/-- Recursive read locks, or the first one. -/
theorem checkRdrecursiveIn_keeps {rest : Result T} (inv : Inv rw) (running : rw.threads t = ⟨cnt, .running⟩)
    (deep : cnt.rd + 1 < wrReserved) (writeDeep : cnt.rd = 0 → cnt.wr + 1 < wrReserved)
    (first : roles rw t = .idle → cnt = ⟨0, 0⟩ → Keeps rest) : Keeps (checkRdrecursiveIn rw t rest) := by
  have held := holding inv running
  rw [checkRdrecursiveIn, running]
  generalize kind : roles rw t = old at held
  cases held with
  | idle => exact first kind rfl
  | @reader rd depth =>
    have some := Nat.pos_iff_ne_zero.mp depth.1
    simp only [if_pos some]
    simp only at deep
    refine keeps_same inv ?_
    rw [kind, increment_eq (by assumption)]
    exact Holding.role (.reader ⟨by omega, deep⟩)
  | @reserver rd depth =>
    have some := Nat.pos_iff_ne_zero.mp depth.1
    simp only [if_pos some]
    simp only at deep
    refine keeps_same inv ?_
    rw [kind, increment_eq (by assumption)]
    exact Holding.role (.reserver ⟨by omega, deep⟩)
  | @writer wr depth =>
    have some := Nat.pos_iff_ne_zero.mp depth.1
    have below := writeDeep rfl
    simp only at below
    have unreserved : wr ≠ wrReserved := by omega
    simp only [ne_eq, not_true_eq_false, if_false, some, not_false_eq_true, if_true, pdbgAssert, unreserved]
    refine keeps_same inv ?_
    rw [kind, increment_eq (by assumption)]
    exact Holding.role (.writer ⟨by omega, below⟩)

/-- Recursive write locks, or the first one. -/
theorem checkWrrecursiveIn_keeps {rest : Result T} (inv : Inv rw) (running : rw.threads t = ⟨cnt, .running⟩)
    (noRead : cnt.rd = 0) (deep : cnt.wr + 1 < wrReserved)
    (first : roles rw t = .idle → cnt = ⟨0, 0⟩ → Keeps rest) : Keeps (checkWrrecursiveIn rw t rest) := by
  have held := holding inv running
  rw [checkWrrecursiveIn, running]
  generalize kind : roles rw t = old at held
  cases held with
  | idle => exact first kind rfl
  | reader depth | reserver depth =>
    simp only at noRead
    have some := depth.1
    omega
  | @writer wr depth =>
    have some := Nat.pos_iff_ne_zero.mp depth.1
    simp only at deep
    have unreserved : wr ≠ wrReserved := by omega
    simp only [ne_eq, if_true, some, not_false_eq_true, pdbgAssert, unreserved]
    refine keeps_same inv ?_
    rw [kind, increment_eq (by assumption)]
    exact Holding.role (.writer ⟨by omega, deep⟩)

theorem rdlock_keeps {loop : Loop} (inv : Inv rw) (running : rw.threads t = ⟨cnt, .running⟩)
    (deep : cnt.rd + 1 < wrReserved) (writeDeep : cnt.rd = 0 → cnt.wr + 1 < wrReserved) (reads : loop.cond = .rcond) :
    Keeps (checkRdrecursiveIn rw t (rdlockLoop rw t loop)) := by
  apply checkRdrecursiveIn_keeps inv running deep writeDeep
  intro kind none
  obtain ⟨counts, awake⟩ := inv.idle kind
  exact rdlockLoop_keeps counts awake (by rw [running, none]) reads

theorem tryrdlock_keeps (inv : Inv rw) (running : rw.threads t = ⟨cnt, .running⟩)
    (deep : cnt.rd + 1 < wrReserved) (writeDeep : cnt.rd = 0 → cnt.wr + 1 < wrReserved) : Keeps (tryrdlock rw t) := by
  apply checkRdrecursiveIn_keeps inv running deep writeDeep
  intro kind none
  obtain ⟨counts, awake⟩ := inv.idle kind
  have taken := rdlockLoop_keeps counts awake (by rw [running, none]) (rfl : Loop.rdlock.cond = .rcond)
  rw [rdlockLoop] at taken
  split
  · exact inv
  · next free =>
    rw [if_neg free] at taken
    exact taken

theorem wrlock_keeps {loop : Loop} (inv : Inv rw) (running : rw.threads t = ⟨cnt, .running⟩) (noRead : cnt.rd = 0)
    (deep : cnt.wr + 1 < wrReserved) (writes : loop = .wrlock ∨ loop = .timedwrlock) :
    Keeps (checkWrrecursiveIn rw t (wrlockLoop rw t loop)) := by
  apply checkWrrecursiveIn_keeps inv running noRead deep
  intro kind none
  obtain ⟨counts, awake⟩ := inv.idle kind
  exact wrlockLoop_keeps counts awake.upgrader (by rw [running, none]) writes

theorem trywrlock_keeps (inv : Inv rw) (running : rw.threads t = ⟨cnt, .running⟩) (noRead : cnt.rd = 0)
    (deep : cnt.wr + 1 < wrReserved) : Keeps (trywrlock rw t) := by
  apply checkWrrecursiveIn_keeps inv running noRead deep
  intro kind none
  obtain ⟨counts, awake⟩ := inv.idle kind
  have taken := wrlockLoop_keeps counts awake.upgrader (by rw [running, none]) (.inl rfl : Loop.wrlock = .wrlock ∨ _)
  rw [wrlockLoop] at taken
  split
  · exact inv
  · next free =>
    rw [if_neg free] at taken
    exact taken

theorem rslock_keeps (inv : Inv rw) (running : rw.threads t = ⟨cnt, .running⟩) (noRead : cnt.rd = 0)
    (deep : cnt.wr + 1 < wrReserved) : Keeps (rslock rw t) := by
  have held := holding inv running
  rw [rslock, running]
  generalize kind : roles rw t = old at held
  cases held with
  | idle =>
    obtain ⟨counts, awake⟩ := inv.idle kind
    exact rslockLoop_keeps counts awake.upgrader (by rw [running])
  | reader depth | reserver depth =>
    simp only at noRead
    have some := depth.1
    omega
  | @writer wr depth =>
    have some := Nat.pos_iff_ne_zero.mp depth.1
    simp only at deep
    have unreserved : wr ≠ wrReserved := by omega
    simp only [ne_eq, if_true, some, not_false_eq_true, pdbgAssert, unreserved, if_false]
    refine keeps_same inv ?_
    rw [kind, increment_eq (by assumption)]
    exact Holding.role (.writer ⟨by omega, deep⟩)

theorem Inv.split {kind : Role} (inv : Inv rw) (own : roles rw t = kind) :
    Counts rw (plus (others rw t) kind) ∧ Awake rw (plus (others rw t) kind) := by
  subst own
  rw [← census_eq]
  exact ⟨inv.counts, inv.awake⟩

/-- A reader that gets the reservation, or has it. -/
theorem upgrading_reader (inv : Inv rw) (kind : roles rw t = .reader) (unreserved : rw.reserved = false) :
    Upgrading { rw with reserved := true, rcount := rw.rcount - 1 } (others rw t) := by
  obtain ⟨⟨readers, writers, readWaiters, writeWaiters, reservation, alone, fair, whole⟩, -⟩ := inv.split kind
  simp only [plus, reduceCtorEq, if_true, if_false, add_zero] at readers writers readWaiters writeWaiters
  simp only [plus, reduceCtorEq, if_false, add_zero, unreserved, Bool.toNat_false] at reservation whole
  exact ⟨by simp only; omega, by simp only; omega, readWaiters, writeWaiters, by simp only [true_and]; omega, fair, whole⟩

theorem upgrading_reserver (inv : Inv rw) (kind : roles rw t = .reserver) :
    Upgrading { rw with reserved := true, rcount := rw.rcount - 1 } (others rw t) := by
  obtain ⟨⟨readers, writers, readWaiters, writeWaiters, reservation, alone, fair, whole⟩, -⟩ := inv.split kind
  simp only [plus, reduceCtorEq, if_true, if_false, add_zero] at readers writers readWaiters writeWaiters
  simp only [plus, reduceCtorEq, if_true, if_false, add_zero] at reservation whole
  have one := Bool.toNat_le rw.reserved
  exact ⟨by simp only; omega, by simp only; omega, readWaiters, writeWaiters, by simp only [true_and]; omega, fair, whole⟩

/-- While somebody reads nobody writes. -/
theorem Inv.reading (inv : Inv rw) (kind : roles rw t = .reader ∨ roles rw t = .reserver) :
    rw.rcount ≠ 0 ∧ rw.wcount = 0 := by
  have some : rw.rcount ≠ 0 := by
    rw [inv.counts.readers, census_eq rw t]
    cases kind with
    | inl own | inr own => simp [plus, own]
  have alone := inv.counts.alone
  exact ⟨some, by omega⟩

theorem towrlock_keeps (inv : Inv rw) (running : rw.threads t = ⟨cnt, .running⟩) (holds : cnt ≠ ⟨0, 0⟩) :
    Keeps (towrlock rw t) := by
  have held := holding inv running
  rw [towrlock, running]
  generalize kind : roles rw t = old at held
  cases held with
  | idle => exact absurd rfl holds
  | @writer wr depth =>
    have some := Nat.pos_iff_ne_zero.mp depth.1
    rw [if_pos ⟨some, Nat.ne_of_lt depth.2⟩]
    exact inv
  | @reader rd depth =>
    have some := Nat.pos_iff_ne_zero.mp depth.1
    obtain ⟨reading, noWriter⟩ := inv.reading (.inl kind)
    rw [if_neg (fun both => both.1 rfl), pdbgAssert, if_pos some, pdbgAssert, if_pos reading, pdbgAssert, if_pos noWriter]
    split
    · exact inv
    · next free =>
      have unreserved : rw.reserved = false := by
        by_contra taken
        rw [Bool.not_eq_false] at taken
        exact free ⟨taken, (by decide : (0 : ℕ) ≠ wrReserved)⟩
      apply towrlockLoop_keeps (upgrading_reader inv kind unreserved)
      · rw [running]
        exact depth
      · rw [running]
        exact .inl rfl
  | @reserver rd depth =>
    have some := Nat.pos_iff_ne_zero.mp depth.1
    obtain ⟨reading, noWriter⟩ := inv.reading (.inr kind)
    rw [if_neg (fun both => both.2 rfl), pdbgAssert, if_pos some, pdbgAssert, if_pos reading, pdbgAssert, if_pos noWriter,
      if_neg (fun both => both.2 rfl)]
    apply towrlockLoop_keeps (upgrading_reserver inv kind)
    · rw [running]
      exact depth
    · rw [running]
      exact .inr rfl

/-- A thread gives back what it took last. -/
theorem unlock_keeps (inv : Inv rw) (running : rw.threads t = ⟨cnt, .running⟩) (holds : cnt ≠ ⟨0, 0⟩)
    (picked : (∃ u, Asleep (rw.threads u) .wcond) → Asleep (rw.threads pick) .wcond) : Keeps (unlock rw t pick) := by
  have held := holding inv running
  rw [unlock, running]
  generalize kind : roles rw t = old at held
  cases held with
  | idle => exact absurd rfl holds
  | @reader rd depth =>
    have some := Nat.pos_iff_ne_zero.mp depth.1
    simp only [ne_eq, some, not_false_eq_true, if_true]
    split
    · next more =>
      refine keeps_same inv ?_
      rw [kind]
      exact Holding.role (.reader ⟨more, by have below := depth.2; omega⟩)
    · next last =>
      have one : rd - 1 = 0 := by omega
      obtain ⟨reading, noWriter⟩ := inv.reading (.inl kind)
      have safe : ¬((rw.setCount t 0 0).rcount ≠ 0 ∧ (rw.setCount t 0 0).wcount ≠ 0) := fun both => both.2 noWriter
      have some : (rw.setCount t 0 0).rcount ≠ 0 := reading
      rw [one, unlockLast, pdbgAssert, if_pos safe, if_pos some]
      exact unlockRead_keeps inv running kind picked
  | @reserver rd depth =>
    have some := Nat.pos_iff_ne_zero.mp depth.1
    simp only [ne_eq, some, not_false_eq_true, if_true]
    split
    · next more =>
      refine keeps_same inv ?_
      rw [kind]
      exact Holding.role (.reserver ⟨more, by have below := depth.2; omega⟩)
    · next last =>
      have one : rd - 1 = 0 := by omega
      obtain ⟨reading, noWriter⟩ := inv.reading (.inr kind)
      have safe : ¬((rw.setCount t 0 wrReserved).rcount ≠ 0 ∧ (rw.setCount t 0 wrReserved).wcount ≠ 0) :=
        fun both => both.2 noWriter
      have some : (rw.setCount t 0 wrReserved).rcount ≠ 0 := reading
      rw [one, unlockLast, pdbgAssert, if_pos safe, if_pos some]
      exact unlockRead_keeps_reserver inv running kind picked
  | @writer wr depth =>
    have some := Nat.pos_iff_ne_zero.mp depth.1
    simp only [ne_eq, not_true_eq_false, if_false, pdbgAssert, some, not_false_eq_true, if_true]
    split
    · next more =>
      refine keeps_same inv ?_
      rw [kind]
      exact Holding.role (.writer ⟨more, by have below := depth.2; omega⟩)
    · next last =>
      have one : wr - 1 = 0 := by omega
      obtain ⟨noReader, freed⟩ := unlockWrite_keeps inv running kind picked
      have safe : ¬((rw.setCount t 0 0).rcount ≠ 0 ∧ (rw.setCount t 0 0).wcount ≠ 0) := fun both => both.1 noReader
      have none : ¬(rw.setCount t 0 0).rcount ≠ 0 := not_not.mpr noReader
      rw [one, unlockLast, pdbgAssert, if_pos safe, if_neg none]
      exact freed

end Calls

section Waits
variable {rw : RwLock T} {t : T} {cnt : Count} {loop : Loop} {signalled : Bool}

/-- What a thread that waits waits for. -/
inductive Waiting : Count → Loop → Bool → Role → Prop where
  | reader {loop : Loop} {signalled : Bool} (reads : loop.cond = .rcond) :
    Waiting ⟨0, 0⟩ loop signalled (.readWaiter signalled)
  | writer {loop : Loop} {signalled : Bool} (writes : loop = .wrlock ∨ loop = .timedwrlock ∨ loop = .rslock) :
    Waiting ⟨0, 0⟩ loop signalled (.writeWaiter signalled)
  | upgrader {rd wr : ℕ} {signalled : Bool} (depth : Depth rd) (own : wr = 0 ∨ wr = wrReserved) :
    Waiting ⟨rd, wr⟩ .towrlock signalled (.upgrader signalled)

omit [DecidableEq T] in
theorem waiting (inv : Inv rw) (waits : rw.threads t = ⟨cnt, .waiting loop signalled⟩) :
    Waiting cnt loop signalled (roles rw t) := by
  have whole := unbroken inv t
  rw [roles]
  rw [waits] at whole ⊢
  cases loop with
  | rdlock | timedrdlock | wrlock | timedwrlock | rslock =>
    simp only [RwLock.role, Loop.cond] at whole ⊢
    split_ifs at whole ⊢ with none
    · subst none
      first
        | exact .reader rfl
        | exact .writer (by simp)
    · exact absurd rfl whole
  | towrlock =>
    obtain ⟨rd, wr⟩ := cnt
    simp only [RwLock.role] at whole ⊢
    split_ifs at whole ⊢ with upgrades
    · exact .upgrader upgrades.1 upgrades.2
    · exact absurd rfl whole

/-- Without one that waits to read. -/
theorem Inv.readWaiter (inv : Inv rw) (kind : roles rw t = .readWaiter signalled) :
    Counts { rw with rwait := rw.rwait - 1 } (others rw t) ∧ Awake { rw with rwait := rw.rwait - 1 } (others rw t) := by
  obtain ⟨⟨readers, writers, readWaiters, writeWaiters, reservation, alone, fair, whole⟩,
    ⟨readersAwake, writersAwake, upgraderAwake⟩⟩ := inv.split kind
  have waiters : rw.rwait - 1 = others rw t (.readWaiter true) + others rw t (.readWaiter false) := by
    cases signalled <;> simp [plus] at readWaiters <;> omega
  simp only [plus, reduceCtorEq, if_false, add_zero] at readers writers writeWaiters
  simp only [plus, reduceCtorEq, if_false, add_zero] at reservation whole
  simp only [plus, reduceCtorEq, if_false, add_zero] at readersAwake writersAwake upgraderAwake
  refine ⟨⟨readers, writers, waiters, writeWaiters, reservation, alone, fair, whole⟩, ?_, writersAwake, upgraderAwake⟩
  intro noWriter none
  have asleep := readersAwake noWriter none
  omega

/-- Without one that waits to write. -/
theorem Inv.writeWaiter (inv : Inv rw) (kind : roles rw t = .writeWaiter signalled) :
    Counts { rw with wwait := rw.wwait - 1 } (others rw t) ∧
    (rw.rcount = 0 → rw.wcount = 0 → others rw t (.upgrader false) = 0) := by
  obtain ⟨⟨readers, writers, readWaiters, writeWaiters, reservation, alone, fair, whole⟩,
    ⟨readersAwake, writersAwake, upgraderAwake⟩⟩ := inv.split kind
  have waiters : rw.wwait - 1 = others rw t (.writeWaiter true) + others rw t (.writeWaiter false) +
      others rw t (.upgrader true) + others rw t (.upgrader false) := by
    cases signalled <;> simp [plus] at writeWaiters <;> omega
  simp only [plus, reduceCtorEq, if_false, add_zero] at readers writers readWaiters
  simp only [plus, reduceCtorEq, if_false, add_zero] at reservation whole upgraderAwake
  exact ⟨⟨readers, writers, readWaiters, waiters, reservation, alone, fair, whole⟩, upgraderAwake⟩

/-- Without the one that waits for the last reader. -/
theorem Inv.upgrader (inv : Inv rw) (kind : roles rw t = .upgrader signalled) :
    Upgrading { rw with wwait := rw.wwait - 1 } (others rw t) := by
  obtain ⟨⟨readers, writers, readWaiters, writeWaiters, reservation, alone, fair, whole⟩, -⟩ := inv.split kind
  have one := Bool.toNat_le rw.reserved
  have waiters : rw.wwait - 1 = others rw t (.writeWaiter true) + others rw t (.writeWaiter false) +
      others rw t (.upgrader true) + others rw t (.upgrader false) := by
    cases signalled <;> simp [plus] at writeWaiters <;> omega
  have sole : rw.reserved.toNat =
      others rw t .reserver + others rw t (.upgrader true) + others rw t (.upgrader false) + 1 := by
    cases signalled <;> simp [plus] at reservation <;> omega
  have reserved : rw.reserved = true := by
    by_contra free
    rw [Bool.not_eq_true] at free
    rw [free, Bool.toNat_false] at sole
    omega
  rw [reserved, Bool.toNat_true] at sole
  simp only [plus, reduceCtorEq, if_false, add_zero] at readers writers readWaiters whole
  have noWriter : rw.wcount = 0 := by
    by_contra some
    have unreserved := (alone.2 (by omega)).2
    rw [reserved] at unreserved
    cases unreserved
  refine ⟨readers, ⟨noWriter, ?_⟩, readWaiters, waiters, ⟨reserved, ?_⟩, fair, whole⟩
  · rw [← writers]
    exact noWriter
  · omega

theorem wake_keeps (inv : Inv rw) (waits : rw.threads t = ⟨cnt, .waiting loop signalled⟩) : Keeps (wake rw t loop) := by
  have held := waiting inv waits
  generalize kind : roles rw t = old at held
  cases held with
  | reader reads =>
    obtain ⟨counts, awake⟩ := inv.readWaiter kind
    have none : ({ rw with rwait := rw.rwait - 1 }.threads t).cnt = ⟨0, 0⟩ := by rw [waits]
    cases loop with
    | rdlock | timedrdlock => exact rdlockLoop_keeps counts awake none rfl
    | wrlock | timedwrlock | rslock | towrlock => cases reads
  | writer writes =>
    obtain ⟨counts, awake⟩ := inv.writeWaiter kind
    have none : ({ rw with wwait := rw.wwait - 1 }.threads t).cnt = ⟨0, 0⟩ := by rw [waits]
    obtain plain | timed | reserves := writes
    · subst plain
      exact wrlockLoop_keeps counts awake none (.inl rfl)
    · subst timed
      exact wrlockLoop_keeps counts awake none (.inr rfl)
    · subst reserves
      exact rslockLoop_keeps counts awake none
  | upgrader depth own =>
    apply towrlockLoop_keeps (inv.upgrader kind)
    · rw [waits]
      exact depth
    · rw [waits]
      exact own

/-- One that waits to read gives up. -/
theorem timedrdlock_keeps {ret : Ret} (inv : Inv rw) (kind : roles rw t = .readWaiter signalled) :
    Keeps (.next ({ rw with rwait := rw.rwait - 1 }.setCount t 0 0) ret) := by
  obtain ⟨⟨readers, writers, readWaiters, writeWaiters, reservation, alone, fair, whole⟩,
    ⟨readersAwake, writersAwake, upgraderAwake⟩⟩ := inv.readWaiter kind
  refine keeps_set rw .idle rfl rfl ?_ ?_
  · exact ⟨readers, writers, readWaiters, writeWaiters, reservation, alone, fair, whole⟩
  · exact ⟨readersAwake, writersAwake, upgraderAwake⟩

/-- One that waits to write and was not signalled gives up. Those who wait to read
may have waited for it. -/
theorem timedwrlock_keeps {ret : Ret} (inv : Inv rw) (kind : roles rw t = .writeWaiter false) :
    Keeps (.next (if rw.wwait - 1 = 0 ∧ rw.wcount = 0 ∧ rw.rwait ≠ 0 then
      ({ rw with wwait := rw.wwait - 1 }.setCount t 0 0).broadcast .rcond
    else { rw with wwait := rw.wwait - 1 }.setCount t 0 0) ret) := by
  have counts := (inv.writeWaiter kind).1
  obtain ⟨-, ⟨readersAwake, writersAwake, upgraderAwake⟩⟩ := inv.split kind
  simp only [plus, reduceCtorEq, Role.writeWaiter.injEq, if_false, add_zero] at readersAwake writersAwake upgraderAwake
  have number : census ({ rw with wwait := rw.wwait - 1 }.setCount t 0 0) = plus (others rw t) .idle := census_set rfl rfl
  have plain : Counts ({ rw with wwait := rw.wwait - 1 }.setCount t 0 0) (others rw t) :=
    ⟨counts.readers, counts.writers, counts.readWaiters, counts.writeWaiters, counts.reservation, counts.alone,
      counts.fair, counts.whole⟩
  have kept := counts_idle rfl number plain
  split
  · next last => exact broadcast_rcond_inv kept last.1
  · next more =>
    refine ⟨kept, ?_, ?_, ?_⟩
    · rw [number]
      intro noWriter none
      have noReader : rw.rwait = 0 := by
        by_contra some
        exact more ⟨none, noWriter, some⟩
      have waiters := counts.readWaiters
      simp only [plus, reduceCtorEq, if_false, add_zero] at waiters ⊢
      omega
    · rw [number]
      intro noReader noWriter unreserved some
      have before : rw.wwait ≠ 0 := by
        intro none
        apply some
        simp [RwLock.setCount, RwLock.set, none]
      simpa [plus] using writersAwake noReader noWriter unreserved before
    · rw [number]
      intro noReader noWriter
      simpa [plus] using upgraderAwake noReader noWriter

end Waits
end Pclsync.Proofs.RwLock
