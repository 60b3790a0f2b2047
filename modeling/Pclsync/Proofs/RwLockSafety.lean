import Pclsync.Proofs.RwLock

/-! Runs of any threads keep the invariant of the read-write lock, so that nobody
shares it with a writer and no wakeup is lost. -/

namespace Pclsync.Proofs.RwLock
open Pclsync.Locks Pclsync.Locks.RwLock Pclsync.Library.Census

/-- A thread is in `plocks_towrlock`. -/
def Upgrades (thread : Thread) : Prop := ∃ signalled, thread.place = .waiting .towrlock signalled

/-- A thread holds a read count. -/
def Reads (thread : Thread) : Prop := thread.cnt.rd ≠ 0 ∧ ¬Upgrades thread

/-- A thread holds a write count. -/
def Writes (thread : Thread) : Prop := thread.cnt.wr ≠ 0 ∧ thread.cnt.wr ≠ wrReserved

def Reserves (thread : Thread) : Prop := thread.cnt.wr = wrReserved ∨ Upgrades thread

def Waits (thread : Thread) : Prop := ∃ loop signalled, thread.place = .waiting loop signalled

def Signalled (thread : Thread) : Prop := ∃ loop, thread.place = .waiting loop true

variable {T : Type}

/-- A thread gives back only what it holds. -/
def Held (rw : RwLock T) (t : T) : Action T → Prop
  | .unlock _ => (rw.threads t).cnt ≠ ⟨0, 0⟩
  | _ => True

/-- How a thread should use the lock. One that reads asks for no write lock other than
by `plocks_towrlock`, and nobody nests deeper than a count can tell from a reservation.
A signal is for a writer that has not given up. -/
def Proper (rw : RwLock T) (t : T) : Action T → Prop
  | .rdlock | .tryrdlock | .timedrdlock =>
    (rw.threads t).cnt.rd + 1 < wrReserved ∧
    ((rw.threads t).cnt.rd = 0 → (rw.threads t).cnt.wr + 1 < wrReserved)
  | .wrlock | .trywrlock | .timedwrlock | .rslock =>
    (rw.threads t).cnt.rd = 0 ∧ (rw.threads t).cnt.wr + 1 < wrReserved
  | .towrlock | .unlock _ => (rw.threads t).cnt ≠ ⟨0, 0⟩
  | .wake => True
  | .timeout => (rw.threads t).place ≠ .waiting .timedwrlock true

/-- What the lock is for. -/
structure Safe (rw : RwLock T) : Prop where
  writers : rw.wcount ≤ 1
  alone : rw.wcount = 1 → ∃ t, Writes (rw.threads t) ∧ (rw.threads t).cnt.rd = 0 ∧
    ∀ u, u ≠ t → (rw.threads u).cnt = ⟨0, 0⟩
  readers : rw.rcount = {t | Reads (rw.threads t)}.ncard
  reservation : ∀ t u, Reserves (rw.threads t) → Reserves (rw.threads u) → t = u
  reserved : rw.reserved = true ↔ ∃ t, Reserves (rw.threads t)
  awake : rw.rcount = 0 → rw.wcount = 0 → (∃ t, Waits (rw.threads t)) → ∃ t, Signalled (rw.threads t)

section Threads
variable [Fintype T] {rw : RwLock T} {t : T}

/-- A thread whose role is not broken is somewhere in the code. -/
theorem standing (inv : Inv rw) (t : T) :
    (∃ cnt, rw.threads t = ⟨cnt, .running⟩ ∧ Holding cnt (roles rw t)) ∨
    ∃ cnt loop signalled, rw.threads t = ⟨cnt, .waiting loop signalled⟩ ∧ Waiting cnt loop signalled (roles rw t) := by
  generalize same : rw.threads t = thread
  obtain ⟨cnt, place⟩ := thread
  cases place with
  | running => exact .inl ⟨cnt, rfl, holding inv same⟩
  | waiting loop signalled => exact .inr ⟨cnt, loop, signalled, rfl, waiting inv same⟩

theorem reads_iff (inv : Inv rw) : Reads (rw.threads t) ↔ roles rw t ∈ [.reader, .reserver] := by
  obtain ⟨cnt, same, held⟩ | ⟨cnt, loop, signalled, same, held⟩ := standing inv t
  · rw [same]
    generalize roles rw t = kind at held
    cases held with
    | idle | writer depth => simp [Reads]
    | reader depth | reserver depth =>
      have some := Nat.pos_iff_ne_zero.mp depth.1
      simp [Reads, Upgrades, some]
  · rw [same]
    generalize roles rw t = kind at held
    cases held with
    | reader reads | writer writes => simp [Reads]
    | upgrader depth own => simp [Reads, Upgrades]

theorem writes_iff (inv : Inv rw) : Writes (rw.threads t) ↔ roles rw t = .writer := by
  obtain ⟨cnt, same, held⟩ | ⟨cnt, loop, signalled, same, held⟩ := standing inv t
  · rw [same]
    generalize roles rw t = kind at held
    cases held with
    | idle | reader depth | reserver depth => simp [Writes]
    | writer depth =>
      have some := Nat.pos_iff_ne_zero.mp depth.1
      simp [Writes, some, Nat.ne_of_lt depth.2]
  · rw [same]
    generalize roles rw t = kind at held
    cases held with
    | reader reads | writer writes => simp [Writes]
    | upgrader depth own => cases own <;> simp_all [Writes]

theorem reserves_iff (inv : Inv rw) :
    Reserves (rw.threads t) ↔ roles rw t ∈ [.reserver, .upgrader true, .upgrader false] := by
  have none : ¬0 = wrReserved := by decide
  obtain ⟨cnt, same, held⟩ | ⟨cnt, loop, signalled, same, held⟩ := standing inv t
  · rw [same]
    generalize roles rw t = kind at held
    cases held with
    | idle | reader depth | reserver depth => simp [Reserves, Upgrades, none]
    | writer depth => simp [Reserves, Upgrades, Nat.ne_of_lt depth.2]
  · rw [same]
    generalize roles rw t = kind at held
    cases held with
    | reader reads =>
      simp [Reserves, Upgrades, none]
      rintro rfl
      cases reads
    | writer writes =>
      simp [Reserves, Upgrades, none]
      rintro rfl
      simp at writes
    | upgrader depth own => cases signalled <;> simp [Reserves, Upgrades]

/-- Who neither reads nor writes nor upgrades counts nothing. -/
theorem cnt_eq (inv : Inv rw) (plain : roles rw t ∉ [.reader, .reserver, .writer, .upgrader true, .upgrader false]) :
    (rw.threads t).cnt = ⟨0, 0⟩ := by
  obtain ⟨cnt, same, held⟩ | ⟨cnt, loop, signalled, same, held⟩ := standing inv t
  · rw [same]
    generalize roles rw t = kind at held plain
    cases held with
    | idle => rfl
    | reader depth | reserver depth | writer depth => simp at plain
  · rw [same]
    generalize roles rw t = kind at held plain
    cases held with
    | reader reads | writer writes => rfl
    | upgrader depth own => cases signalled <;> simp at plain

theorem waits_role (inv : Inv rw) (waits : Waits (rw.threads t)) :
    ∃ signalled, roles rw t ∈ [.readWaiter signalled, .writeWaiter signalled, .upgrader signalled] := by
  obtain ⟨cnt, same, held⟩ | ⟨cnt, loop, signalled, same, held⟩ := standing inv t
  · obtain ⟨loop, signalled, place⟩ := waits
    rw [same] at place
    cases place
  · refine ⟨signalled, ?_⟩
    generalize roles rw t = kind at held
    cases held <;> simp

theorem signalled_of_role (inv : Inv rw) (kind : roles rw t ∈ [.readWaiter true, .writeWaiter true, .upgrader true]) :
    Signalled (rw.threads t) := by
  obtain ⟨cnt, same, held⟩ | ⟨cnt, loop, signalled, same, held⟩ := standing inv t
  · generalize roles rw t = role at held kind
    cases held <;> simp at kind
  · rw [same]
    generalize roles rw t = role at held kind
    cases held <;> simp at kind <;> subst kind <;> exact ⟨_, rfl⟩

theorem number_eq_zero {kind : Role} (none : census rw kind = 0) (t : T) : roles rw t ≠ kind :=
  ne_of_tally none (Finset.mem_univ t)

/-- The threads with a reservation, or about to use it. -/
theorem card_reserves (inv : Inv rw) : {t | Reserves (rw.threads t)}.ncard = rw.reserved.toNat := by
  have same : {t | Reserves (rw.threads t)} =
      (Finset.univ.filter fun t => roles rw t ∈ [.reserver, .upgrader true, .upgrader false] : Finset T) := by
    ext t
    simp [reserves_iff inv]
  rw [same, Set.ncard_coe_finset, card_kinds _ _ (by decide), inv.counts.reservation]
  simp [census, add_assoc]

theorem safe_of_inv (inv : Inv rw) : Safe rw := by
  constructor
  case writers => exact inv.counts.alone.1
  case alone =>
    intro one
    have writers := inv.counts.writers
    have readers := inv.counts.readers
    have reservation := inv.counts.reservation
    obtain ⟨noReader, unreserved⟩ := inv.counts.alone.2 one
    rw [unreserved, Bool.toNat_false] at reservation
    obtain ⟨t, _, kind⟩ := exists_of_tally (by rw [← census, ← writers, one]; decide : tally _ (roles rw) .writer ≠ 0)
    refine ⟨t, (writes_iff inv).mpr kind, ?_, ?_⟩
    · by_contra some
      have reads : Reads (rw.threads t) := by
        refine ⟨some, ?_⟩
        intro upgrades
        have reserves := (reserves_iff inv).mp (.inr upgrades)
        simp [kind] at reserves
      have reader := (reads_iff inv).mp reads
      simp [kind] at reader
    · intro u different
      apply cnt_eq inv
      intro kinds
      simp only [List.mem_cons, List.not_mem_nil, or_false] at kinds
      obtain reads | reserves | writes | woken | asleep := kinds
      · exact number_eq_zero (by omega) u reads
      · exact number_eq_zero (by omega) u reserves
      · exact different (eq_of_tally (by rw [← census]; omega) (Finset.mem_univ u) (Finset.mem_univ t) writes kind)
      · exact number_eq_zero (by omega) u woken
      · exact number_eq_zero (by omega) u asleep
  case readers =>
    have same : {t | Reads (rw.threads t)} =
        (Finset.univ.filter fun t => roles rw t ∈ [.reader, .reserver] : Finset T) := by
      ext t
      simp [reads_iff inv]
    rw [same, Set.ncard_coe_finset, card_kinds _ _ (by decide), inv.counts.readers]
    simp [census]
  case reservation =>
    intro t u own other
    have one : {t | Reserves (rw.threads t)}.ncard ≤ 1 := by
      rw [card_reserves inv]
      exact Bool.toNat_le _
    exact (Set.ncard_le_one (Set.toFinite _)).mp one t own u other
  case reserved =>
    have number := card_reserves inv
    constructor
    · intro reserved
      rw [reserved, Bool.toNat_true] at number
      obtain ⟨t, only⟩ := Set.ncard_eq_one.mp number
      have own : t ∈ {t | Reserves (rw.threads t)} := by
        rw [only]
        exact Set.mem_singleton t
      exact ⟨t, own⟩
    · rintro ⟨t, own⟩
      by_contra free
      rw [Bool.not_eq_true] at free
      rw [free, Bool.toNat_false, Set.ncard_eq_zero] at number
      exact Set.notMem_empty t (number ▸ own)
  case awake =>
    intro noReader noWriter some
    by_contra none
    have asleep : ∀ kind, kind ∈ [.readWaiter true, .writeWaiter true, .upgrader true] → census rw kind = 0 := by
      intro kind woken
      by_contra number
      obtain ⟨t, _, own⟩ := exists_of_tally number
      exact none ⟨t, signalled_of_role inv (own ▸ woken)⟩
    have readWoken := asleep (.readWaiter true) (by decide)
    have writeWoken := asleep (.writeWaiter true) (by decide)
    have upgradeWoken := asleep (.upgrader true) (by decide)
    have upgradeAsleep := inv.awake.upgrader noReader noWriter
    have reservation := inv.counts.reservation
    have readers := inv.counts.readers
    have writeWaiters := inv.counts.writeWaiters
    have unreserved : rw.reserved = false := by
      rw [← Bool.toNat_eq_zero]
      omega
    have noWriteWaiter : rw.wwait = 0 := by
      by_contra waits
      exact inv.awake.writers noReader noWriter unreserved waits writeWoken
    have readAsleep := inv.awake.readers noWriter noWriteWaiter
    obtain ⟨t, waits⟩ := some
    obtain ⟨signalled, kinds⟩ := waits_role inv waits
    simp only [List.mem_cons, List.not_mem_nil, or_false] at kinds
    cases signalled <;> obtain reads | writes | upgrades := kinds
    · exact number_eq_zero readAsleep t reads
    · exact number_eq_zero (by omega) t writes
    · exact number_eq_zero upgradeAsleep t upgrades
    · exact number_eq_zero readWoken t reads
    · exact number_eq_zero writeWoken t writes
    · exact number_eq_zero upgradeWoken t upgrades

end Threads

section Runs
variable [Fintype T] [DecidableEq T] {rw : RwLock T} {t : T} {action : Action T}

omit [DecidableEq T] in
theorem init_inv : Inv (.init : RwLock T) := by
  have none : ∀ kind, kind ≠ .idle → census (.init : RwLock T) kind = 0 := by
    intro kind other
    by_contra some
    obtain ⟨t, _, own⟩ := exists_of_tally some
    exact other own.symm
  have empty : Counts (.init : RwLock T) fun _ => 0 := by
    constructor <;> simp [RwLock.init]
  refine ⟨⟨?_, ?_, ?_, ?_, ?_, empty.alone, rfl, none _ (by decide)⟩, ?_, ?_, ?_⟩
  · rw [none _ (by decide), none _ (by decide)]
    exact empty.readers
  · rw [none _ (by decide)]
    exact empty.writers
  · rw [none _ (by decide), none _ (by decide)]
    exact empty.readWaiters
  · rw [none _ (by decide), none _ (by decide), none _ (by decide), none _ (by decide)]
    exact empty.writeWaiters
  · rw [none _ (by decide), none _ (by decide), none _ (by decide)]
    exact empty.reservation
  · exact fun _ _ => none _ (by decide)
  · exact fun _ _ _ waits => absurd rfl waits
  · exact fun _ _ => none _ (by decide)

/-- A step of the lock used as it should be. -/
theorem step_keeps {result : Result T} (inv : Inv rw) (proper : Proper rw t action) (picks : Picks rw action)
    (stepped : step rw t action = some result) : Keeps result := by
  generalize same : rw.threads t = thread
  obtain ⟨cnt, place⟩ := thread
  cases place with
  | running =>
    cases action with
    | wake | timeout => simp [step, same] at stepped
    | rdlock | tryrdlock | timedrdlock =>
      obtain ⟨deep, writeDeep⟩ := proper
      rw [same] at deep writeDeep
      simp only [step, same, Option.some.injEq] at stepped
      subst stepped
      first
        | exact tryrdlock_keeps inv same deep writeDeep
        | exact rdlock_keeps inv same deep writeDeep rfl
    | wrlock | trywrlock | timedwrlock | rslock =>
      obtain ⟨noRead, deep⟩ := proper
      rw [same] at noRead deep
      simp only [step, same, Option.some.injEq] at stepped
      subst stepped
      first
        | exact trywrlock_keeps inv same noRead deep
        | exact rslock_keeps inv same noRead deep
        | exact wrlock_keeps inv same noRead deep (by simp)
    | towrlock =>
      simp only [Proper, same] at proper
      simp only [step, same, Option.some.injEq] at stepped
      subst stepped
      exact towrlock_keeps inv same proper
    | unlock pick =>
      simp only [Proper, same] at proper
      simp only [step, same, Option.some.injEq] at stepped
      subst stepped
      exact unlock_keeps inv same proper picks
  | waiting loop signalled =>
    cases action with
    | wake =>
      simp only [step, same, Option.some.injEq] at stepped
      subst stepped
      exact wake_keeps inv same
    | timeout =>
      have held := waiting inv same
      simp only [step, same] at stepped
      generalize kind : roles rw t = old at held
      cases held with
      | reader reads =>
        cases loop <;> simp only [timeout, same, reduceCtorEq, Option.some.injEq] at stepped
        · subst stepped
          exact timedrdlock_keeps inv kind
        · cases reads
      | writer writes =>
        cases loop <;> simp only [timeout, same, reduceCtorEq, Option.some.injEq] at stepped
        · simp at writes
        · subst stepped
          have unsignalled : signalled = false := by
            cases signalled with
            | false => rfl
            | true => exact absurd (by rw [same]) proper
          subst unsignalled
          exact timedwrlock_keeps inv kind
      | upgrader depth own => simp only [timeout, reduceCtorEq] at stepped
    | _ => simp [step, same] at stepped

theorem run_inv (run : Run Proper rw) : Inv rw := by
  induction run with
  | init => exact init_inv
  | step t action before rule picks result ih => exact step_keeps ih rule picks result

/-- The lock is safe for any number of threads that use it as they should, however
their steps follow each other. -/
theorem run_safe (run : Run Proper rw) : Safe rw ∧
    ∀ t action, Proper rw t action → Picks rw action → step rw t action ≠ some .failed := by
  refine ⟨safe_of_inv (run_inv run), ?_⟩
  intro t action proper picks failed
  exact step_keeps (run_inv run) proper picks failed

end Runs

/-- A reservation, a writer that waits, and an upgrade: the writer still sleeps. -/
theorem run_safe_upgrade : ∃ rw : RwLock (Fin 2), rw.wcount = 1 ∧ rw.wwait = 1 ∧ Safe rw ∧
    ∀ t action, Proper rw t action → Picks rw action → step rw t action ≠ some .failed := by
  have reserves : Run Proper _ := .step (0 : Fin 2) .rslock .init ⟨rfl, by decide⟩ trivial rfl
  have waits : Run Proper _ := .step (1 : Fin 2) .wrlock reserves ⟨rfl, by decide⟩ trivial rfl
  have upgrades : Run Proper _ := .step (0 : Fin 2) .towrlock waits (by simp [Proper, RwLock.setCount, RwLock.condWait, RwLock.set]) trivial rfl
  exact ⟨_, rfl, rfl, run_safe upgrades⟩

section Misuse

theorem read_then_write : ∃ rw : RwLock (Fin 3), Run Held rw ∧ step rw 0 .wrlock = some .failed := by
  have reads : Run Held _ := .step (0 : Fin 3) .rdlock .init trivial trivial rfl
  exact ⟨_, reads, rfl⟩

theorem reserve_twice : ∃ rw : RwLock (Fin 3), Run Held rw ∧ step rw 0 .rslock = some .failed := by
  have reserves : Run Held _ := .step (0 : Fin 3) .rslock .init trivial trivial rfl
  exact ⟨_, reserves, rfl⟩

theorem write_deep (n : ℕ) (below : n + 1 ≤ wrReserved) :
    ∃ rw : RwLock (Fin 3), Run Held rw ∧ rw.threads 0 = ⟨⟨0, n + 1⟩, .running⟩ := by
  induction n with
  | zero =>
    have writes : Run Held _ := .step (0 : Fin 3) .wrlock .init trivial trivial rfl
    exact ⟨_, writes, rfl⟩
  | succ n ih =>
    obtain ⟨rw, run, same⟩ := ih (by omega)
    have unreserved : n + 1 ≠ wrReserved := by omega
    have more : step rw 0 .wrlock = some (.next (rw.setCount 0 0 (increment (n + 1))) .done) := by
      simp [step, same, wrlock, checkWrrecursiveIn, pdbgAssert, unreserved]
    have wide : wrReserved < 2 ^ 32 := by decide
    refine ⟨_, .step 0 .wrlock run trivial trivial more, ?_⟩
    rw [increment, Nat.mod_eq_of_lt (by omega)]
    simp [RwLock.setCount, RwLock.set]

theorem write_deepest : ∃ rw : RwLock (Fin 3), Run Held rw ∧ step rw 0 .wrlock = some .failed ∧
    (rw.threads 0).cnt.rd = 0 := by
  obtain ⟨rw, run, same⟩ := write_deep (wrReserved - 1) (by decide)
  have most : wrReserved - 1 + 1 = wrReserved := by decide
  rw [most] at same
  refine ⟨rw, run, ?_, by rw [same]⟩
  have some : wrReserved ≠ 0 := by decide
  simp only [step, same, wrlock, checkWrrecursiveIn, pdbgAssert]
  simp [some]

/-- A reader that upgrades keeps its count while it waits for the others. -/
theorem upgrader_uncounted : ∃ rw : RwLock (Fin 3), Run Held rw ∧ rw.rcount = 1 ∧
    (rw.threads 0).cnt.rd = 1 ∧ (rw.threads 1).cnt.rd = 1 := by
  have reads : Run Held _ := .step (0 : Fin 3) .rdlock .init trivial trivial rfl
  have both : Run Held _ := .step (1 : Fin 3) .rdlock reads trivial trivial rfl
  have upgrades : Run Held _ := .step (0 : Fin 3) .towrlock both trivial trivial rfl
  exact ⟨_, upgrades, rfl, rfl, rfl⟩

/-- The signal of the last unlock is for a writer that gives up, and the other one
sleeps on. -/
theorem signal_lost : ∃ rw : RwLock (Fin 3), Run Held rw ∧ rw.rcount = 0 ∧ rw.wcount = 0 ∧
    Waits (rw.threads 2) ∧ ∀ t, ¬Signalled (rw.threads t) := by
  have writes : Run Held _ := .step (0 : Fin 3) .wrlock .init trivial trivial rfl
  have first : Run Held _ := .step (1 : Fin 3) .timedwrlock writes trivial trivial rfl
  have second : Run Held _ := .step (2 : Fin 3) .wrlock first trivial trivial rfl
  have signals : Run Held _ := .step (0 : Fin 3) (.unlock 1) second (by simp [Held, RwLock.setCount, RwLock.condWait, RwLock.set]) (fun _ => ⟨.timedwrlock, rfl, rfl⟩) rfl
  have gone : Run Held _ := .step (1 : Fin 3) .timeout signals trivial trivial rfl
  refine ⟨_, gone, rfl, rfl, ⟨.wrlock, false, rfl⟩, ?_⟩
  rintro t ⟨loop, place⟩
  fin_cases t <;> cases place

/-- Threads that only unlock what they hold can fail an assertion, leave a held read
count out of `rcount`, and sleep while the lock is free. -/
theorem held_unsafe :
    (∃ rw : RwLock (Fin 3), Run Held rw ∧ step rw 0 .wrlock = some .failed) ∧
    step (.init : RwLock (Fin 3)) 0 .towrlock = some .failed ∧
    (∃ rw : RwLock (Fin 3), Run Held rw ∧ step rw 0 .rslock = some .failed) ∧
    (∃ rw : RwLock (Fin 3), Run Held rw ∧ step rw 0 .wrlock = some .failed ∧ (rw.threads 0).cnt.rd = 0) ∧
    (∃ rw : RwLock (Fin 3), Run Held rw ∧ rw.rcount = 1 ∧ (rw.threads 0).cnt.rd = 1 ∧ (rw.threads 1).cnt.rd = 1) ∧
    ∃ rw : RwLock (Fin 3), Run Held rw ∧ rw.rcount = 0 ∧ rw.wcount = 0 ∧ Waits (rw.threads 2) ∧
      ∀ t, ¬Signalled (rw.threads t) :=
  ⟨read_then_write, rfl, reserve_twice, write_deepest, upgrader_uncounted, signal_lost⟩

end Misuse

end Pclsync.Proofs.RwLock
