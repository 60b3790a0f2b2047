import Pclsync.Proofs.Objects

/-! Runs of any threads keep the invariant of the object cache, so that each value has
one owner and a get returns the newest entry whose timer did not run. -/

namespace Pclsync.Proofs.Objects
open Pclsync.Objects

variable {T V F : Type}

/-- A thread is about to call the free function of an entry. -/
def Frees (place : Place V F) (he : Entry V F) : Prop := ∃ next, place = .free he next

/-- An entry in the cache whose timer does not run. -/
def Live (c : Cache T V F) (he : Entry V F) : Prop := he ∈ c.buckets (hashToBucket he.hash) ∧ ¬Busy c.timers he

variable [DecidableEq T] [DecidableEq V] [DecidableEq F]

/-- How many entries of a key there are. -/
def number (c : Cache T V F) (key : Key) : ℕ :=
  (c.buckets (hashToBucket (computeHash c.seed key))).countP fun he => decide (he.key = key)

/-- Each value that was handed to `pcache_add` is in one place. -/
structure Owned (c : Cache T V F) : Prop where
  once : ∀ he, Event.added he ∈ c.log → (c.buckets (hashToBucket he.hash)).count he + c.log.count (.returned he) +
    c.log.count (.freed he) + {t | Frees (c.places t) he}.ncard = 1
  added : ∀ he, c.log.count (.added he) ≤ 1
  home : ∀ b, ∀ he ∈ c.buckets b, Event.added he ∈ c.log ∧ he.hash = computeHash c.seed he.key ∧ hashToBucket he.hash = b
  known : ∀ he, (Event.returned he ∈ c.log ∨ Event.freed he ∈ c.log ∨ ∃ t, Frees (c.places t) he) → Event.added he ∈ c.log

/-- What a get returns. -/
structure Gets (c : Cache T V F) : Prop where
  got : ∀ t action after he, step c t action = some (.next after (.got he)) →
    ∃ rest, c.places t = .get he.key (he :: rest) ∧ Live c he ∧ Event.returned he ∉ c.log ∧ Event.freed he ∉ c.log ∧
    after.log = .returned he :: c.log ∧ ∀ mate, Live c mate → mate.key = he.key → mate.id ≤ he.id
  null : ∀ t action after, step c t action = some (.next after .null) →
    ∃ key, c.places t = .get key [] ∧ ∀ mate, Live c mate → mate.key ≠ key

section Owner
variable {c : Cache T V F} {fate : Entry V F → Fate T} {he : Entry V F}

theorem added_iff (inv : Inv c fate) : Event.added he ∈ c.log ↔ fate he ≠ .unused := by
  rw [← List.count_pos_iff, inv.recorded.added]
  split <;> simp_all

theorem returned_iff (inv : Inv c fate) : Event.returned he ∈ c.log ↔ fate he = .returned := by
  rw [← List.count_pos_iff, inv.recorded.returned]
  split <;> simp_all

theorem freed_iff (inv : Inv c fate) : Event.freed he ∈ c.log ↔ fate he = .freed := by
  rw [← List.count_pos_iff, inv.recorded.freed]
  split <;> simp_all

theorem count_bucket (inv : Inv c fate) :
    (c.buckets (hashToBucket he.hash)).count he = if fate he = .cached then 1 else 0 := by
  rw [List.Nodup.count (inv.stored.nodup _)]
  simp [inv.stored.cached]

theorem ncard_frees {t : Option T} (inv : Inv c fate) (pending : fate he = .pending t) :
    {t | Frees (c.places t) he}.ncard = 1 := by
  have same : {u | Frees (c.places u) he} = {t} := by
    ext u
    have frees := inv.pending u he
    rw [pending, Fate.pending.injEq] at frees
    exact frees.symm.trans eq_comm
  rw [same, Set.ncard_singleton]

theorem ncard_frees_none (inv : Inv c fate) (none : ∀ t, fate he ≠ .pending t) :
    {t | Frees (c.places t) he}.ncard = 0 := by
  have same : {t | Frees (c.places t) he} = ∅ := by
    ext t
    exact ⟨fun frees => none t ((inv.pending t he).mpr frees), False.elim⟩
  rw [same, Set.ncard_empty]

theorem owned_of_inv (inv : Inv c fate) : Owned c := by
  constructor
  · intro he added
    have used := (added_iff inv).mp added
    rw [count_bucket inv, inv.recorded.returned, inv.recorded.freed]
    cases kind : fate he with
    | unused => exact absurd kind used
    | pending t => rw [ncard_frees inv kind]; rfl
    | cached | returned | freed => rw [ncard_frees_none inv (by simp [kind])]; rfl
  · intro he
    rw [inv.recorded.added]
    split <;> simp
  · intro b he member
    obtain ⟨cached, home⟩ := (inv.stored.cached b he).mp member
    have used : fate he ≠ .unused := by simp [cached]
    exact ⟨(added_iff inv).mpr used, inv.hashed he used, home⟩
  · rintro he (returned | freed | ⟨t, frees⟩)
    · exact (added_iff inv).mpr (by simp [(returned_iff inv).mp returned])
    · exact (added_iff inv).mpr (by simp [(freed_iff inv).mp freed])
    · exact (added_iff inv).mpr (by simp [(inv.pending t he).mpr frees])

end Owner

section Get
variable {c after : Cache T V F} {fate : Entry V F → Fate T} {he : Entry V F} {t : Option T} {action : Action V F}
  {key : Key} {rest : List (Entry V F)}

/-- An entry of the key that a get has not seen, or that it may take. -/
theorem unseen (inv : Inv c fate) (here : c.places t = .get key rest) {mate : Entry V F} (live : Live c mate)
    (own : mate.key = key) : mate ∈ rest := by
  by_contra out
  have used : fate mate ≠ .unused := by simp [((inv.stored.cached _ mate).mp live.1).1]
  have member := live.1
  rw [inv.hashed mate used, own] at member
  exact live.2 (inv.skipped t key rest here mate member own out)

/-- A step that adds nothing. -/
def Shrinks (c after : Cache T V F) : Prop := after.seed = c.seed ∧ ∀ b, (after.buckets b).Sublist (c.buckets b)

omit [DecidableEq T] [DecidableEq V] [DecidableEq F] in
theorem shrinks_same (seed : after.seed = c.seed) (buckets : after.buckets = c.buckets) : Shrinks c after :=
  ⟨seed, fun b => by rw [buckets]⟩

omit [DecidableEq T] in
theorem shrinks_erase {b : ℕ} (seed : after.seed = c.seed)
    (buckets : after.buckets = Function.update c.buckets b ((c.buckets b).erase he)) : Shrinks c after := by
  refine ⟨seed, fun b' => ?_⟩
  rw [buckets]
  by_cases own : b' = b
  · subst own
    rw [Function.update_self]
    exact List.erase_sublist
  · rw [Function.update_of_ne own]

omit [DecidableEq T] in
theorem listDel_eq {b : ℕ} {c' : Cache T V F} (listed : c.listDel b he = some c') :
    c' = c.setBucket b ((c.buckets b).erase he) := by
  rw [Cache.listDel] at listed
  split at listed
  · exact (Option.some.inj listed).symm
  · cases listed

omit [DecidableEq T] in
/-- How a thread that finds an entry goes on. -/
theorem claim_ret {b : ℕ} {busy taken : Cache T V F → Result T V F} {ret : Ret V F}
    (goes : c.claim he b busy taken = .next after ret) :
    (∃ opts, busy (c.setTimer he opts) = .next after ret) ∨ ¬Busy c.timers he ∧
      taken ((c.setTimer he none).setBucket b ((c.buckets b).erase he)) = .next after ret := by
  simp only [Cache.claim, Cache.ptimerStop] at goes
  cases same : c.timers he with
  | none => simp [same] at goes
  | some opts =>
    simp only [same, Option.map_some] at goes
    cases running : opts.isRunning with
    | true =>
      simp only [running, if_true] at goes
      exact .inl ⟨_, goes⟩
    | false =>
      simp only [running, Bool.false_eq_true, if_false] at goes
      split at goes
      · cases goes
      · next c' listed =>
        rw [listDel_eq listed] at goes
        refine .inr ⟨?_, goes⟩
        rintro ⟨stop, runs⟩
        rw [same] at runs
        cases runs
        cases running

/-- What a step in the middle of a call can do: only `pcache_get` returns something. -/
theorem proceed_cases {ret : Ret V F} (goes : proceed c t = some (.next after ret)) : Shrinks c after ∧ (ret = .goes ∨
    (∃ key, c.places t = .get key [] ∧ ret = .null) ∨
    ∃ key he rest, c.places t = .get key (he :: rest) ∧ ret = .got he ∧ he.key = key ∧ ¬Busy c.timers he ∧
      after.log = .returned he :: c.log) := by
  rw [proceed] at goes
  split at goes
  · cases goes
  · next key here =>
    cases goes
    exact ⟨shrinks_same rfl rfl, .inr (.inl ⟨key, here, rfl⟩)⟩
  · next key he rest here =>
    simp only at goes
    split at goes
    · next found =>
      obtain ⟨_, busy⟩ | ⟨idle, taken⟩ := claim_ret (Option.some.inj goes)
      · cases busy
        exact ⟨shrinks_same rfl rfl, .inl rfl⟩
      · cases taken
        exact ⟨shrinks_erase rfl rfl, .inr (.inr ⟨key, he, rest, here, rfl, found.2, idle, rfl⟩)⟩
    · cases goes
      exact ⟨shrinks_same rfl rfl, .inl rfl⟩
  · cases goes
    exact ⟨shrinks_same rfl rfl, .inl rfl⟩
  · simp only at goes
    split at goes
    · obtain ⟨_, busy⟩ | ⟨_, taken⟩ := claim_ret (Option.some.inj goes)
      · cases busy
        exact ⟨shrinks_same rfl rfl, .inl rfl⟩
      · cases taken
        exact ⟨shrinks_erase rfl rfl, .inl rfl⟩
    · cases goes
      exact ⟨shrinks_same rfl rfl, .inl rfl⟩
  · rw [pcacheDel] at goes
    split at goes <;> cases goes
    exact ⟨shrinks_same rfl rfl, .inl rfl⟩
  · cases goes
    exact ⟨shrinks_same rfl rfl, .inl rfl⟩
  · split at goes
    · obtain ⟨_, busy⟩ | ⟨_, taken⟩ := claim_ret (Option.some.inj goes)
      · cases busy
        exact ⟨shrinks_same rfl rfl, .inl rfl⟩
      · cases taken
        exact ⟨shrinks_erase rfl rfl, .inl rfl⟩
    · cases goes
      exact ⟨shrinks_same rfl rfl, .inl rfl⟩
  · rw [pcacheClean] at goes
    split at goes
    · split at goes <;> cases goes
      exact ⟨shrinks_same rfl rfl, .inl rfl⟩
    · cases goes
      exact ⟨shrinks_same rfl rfl, .inl rfl⟩
  · cases goes
    exact ⟨shrinks_same rfl rfl, .inl rfl⟩
  · split at goes
    · cases goes
    · next he timers rest here ran c' stopped =>
      cases goes
      rw [Cache.ptimerStop, Option.map_eq_some_iff] at stopped
      obtain ⟨opts, _, same⟩ := stopped
      split at same <;> cases same <;> exact ⟨shrinks_same rfl rfl, .inl rfl⟩
  · rw [processed] at goes
    split at goes <;> cases goes
    exact ⟨shrinks_same rfl rfl, .inl rfl⟩
  · rw [cacheTimer] at goes
    split at goes
    · split at goes
      · cases goes
      · next c' listed =>
        cases goes
        rw [listDel_eq listed]
        exact ⟨shrinks_erase rfl rfl, .inl rfl⟩
    · cases goes

/-- What a step can do: it is in the middle of a call, or starts one. -/
theorem step_cases {ret : Ret V F} (goes : step c t action = some (.next after ret)) :
    proceed c t = some (.next after ret) ∨ ret = .goes ∧ (Shrinks c after ∨
      ∃ key ptr freefunc maxkeys, action = .add key ptr freefunc maxkeys ∧
        pcacheAdd c t key ptr freefunc maxkeys = some (.next after ret)) := by
  rw [step.eq_def] at goes
  split at goes
  · rw [pcacheGet] at goes
    split at goes <;> cases goes
    exact .inr ⟨rfl, .inl (shrinks_same rfl rfl)⟩
  · next key ptr freefunc maxkeys _ =>
    have silent : ret = .goes := by
      have copy := goes
      rw [pcacheAdd] at copy
      simp only at copy
      split at copy
      · split at copy <;> cases copy <;> rfl
      · cases copy
    exact .inr ⟨silent, .inr ⟨key, ptr, freefunc, maxkeys, rfl, goes⟩⟩
  · rw [pcacheDel] at goes
    split at goes <;> cases goes
    exact .inr ⟨rfl, .inl (shrinks_same rfl rfl)⟩
  · cases goes
    exact .inr ⟨rfl, .inl (shrinks_same rfl rfl)⟩
  · cases goes
    exact .inr ⟨rfl, .inl (shrinks_same rfl rfl)⟩
  · split at goes
    · rw [prepareTimers] at goes
      split at goes <;> cases goes
      exact .inr ⟨rfl, .inl (shrinks_same rfl rfl)⟩
    · cases goes
  · exact .inl goes
  · cases goes

theorem gets_of_inv (inv : Inv c fate) : Gets c := by
  constructor
  · intro t action after he goes
    obtain goes | ⟨silent, _⟩ := step_cases goes
    swap
    · cases silent
    obtain silent | ⟨key, _, null⟩ | ⟨key, he', rest, here, same, own, idle, log⟩ := (proceed_cases goes).2
    · cases silent
    · cases null
    cases same
    subst own
    have walks : cursor c.seed (c.places t) = some (hashToBucket (computeHash c.seed he.key), he :: rest) := by
      rw [here]
      rfl
    obtain ⟨member, cached⟩ := inv.ahead walks
    have home := ((inv.stored.cached _ he).mp member).2
    refine ⟨rest, here, ⟨(inv.stored.cached _ he).mpr ⟨cached, rfl⟩, idle⟩, ?_, ?_, log, ?_⟩
    · rw [returned_iff inv, cached]
      simp
    · rw [freed_iff inv, cached]
      simp
    · intro mate live own
      have ahead := unseen inv here live own
      have recent := (inv.stored.recent _).sublist (inv.guarded.walked t _ _ walks).sublist
      cases List.mem_cons.mp ahead with
      | inl same => rw [same]
      | inr later => exact Nat.le_of_lt ((List.pairwise_cons.mp recent).1 mate later)
  · intro t action after goes
    obtain goes | ⟨silent, _⟩ := step_cases goes
    swap
    · cases silent
    obtain silent | ⟨key, here, _⟩ | ⟨key, he, rest, here, same, _⟩ := (proceed_cases goes).2
    · cases silent
    · exact ⟨key, here, fun mate live own => absurd (unseen inv here live own) List.not_mem_nil⟩
    · cases same

end Get

section Limit
variable {c after : Cache T V F} {fate : Entry V F → Fate T} {t : Option T} {key : Key}

omit [DecidableEq T] [DecidableEq V] [DecidableEq F] in
/-- The loop of `pcache_add` counts the entries of the key. -/
theorem full_iff (hash : BitVec 32) (key : Key) (maxkeys l : ℕ) (list : List (Entry V F)) (below : l < maxkeys) :
    full hash key maxkeys l list ↔ maxkeys ≤ l + list.countP fun he => decide (he.hash = hash ∧ he.key = key) := by
  induction list generalizing l with
  | nil =>
    simp only [full, List.countP_nil]
    simp [below]
  | cons he rest ih =>
    rw [full, List.countP_cons]
    by_cases own : he.hash = hash ∧ he.key = key
    · simp only [own, and_self, if_true, decide_true]
      split
      · next last => simp [← last, add_comm]
      · rw [ih (l + 1) (by omega)]
        omega
    · simp only [own, if_false, decide_false, Bool.false_eq_true, add_zero]
      exact ih l below

theorem number_eq (inv : Inv c fate) (key : Key) : number c key =
    (c.buckets (hashToBucket (computeHash c.seed key))).countP
      fun he => decide (he.hash = computeHash c.seed key ∧ he.key = key) := by
  apply List.countP_congr
  intro he member
  have used : fate he ≠ .unused := by simp [((inv.stored.cached _ he).mp member).1]
  simp only [decide_eq_true_eq]
  refine ⟨fun own => ⟨?_, own⟩, And.right⟩
  rw [inv.hashed he used, own]

/-- An add fills a key up to its maximum, and no other key. -/
theorem number_add (key : Key) {key' : Key} {ptr : V} {freefunc : F} {maxkeys : ℕ} {ret : Ret V F} (inv : Inv c fate)
    (goes : pcacheAdd c t key' ptr freefunc maxkeys = some (.next after ret)) :
    number after key ≤ number c key ∨ key' = key ∧ (maxkeys ≠ 0 → number after key ≤ maxkeys) := by
  rw [pcacheAdd] at goes
  simp only at goes
  split at goes
  · split at goes
    · cases goes
      exact .inl (Nat.le_refl _)
    · next room =>
      cases goes
      by_cases own : key' = key
      · subst own
        refine .inr ⟨rfl, ?_⟩
        intro limited
        have below : ¬maxkeys ≤ 0 + number c key' := by
          rw [number_eq inv, ← full_iff _ _ _ _ _ (Nat.pos_of_ne_zero limited)]
          exact fun reached => room ⟨limited, reached⟩
        simp only [number, Cache.setTimer, Cache.setBucket, Cache.record, Function.update_self, List.countP_cons,
          decide_true, if_true] at below ⊢
        omega
      · left
        simp only [number, Cache.setTimer, Cache.setBucket, Cache.record]
        by_cases same : hashToBucket (computeHash c.seed key) = hashToBucket (computeHash c.seed key')
        · rw [same, Function.update_self, List.countP_cons]
          simp [own]
        · rw [Function.update_of_ne same]
  · cases goes

omit [DecidableEq T] [DecidableEq V] [DecidableEq F] in
theorem number_shrinks (shrinks : Shrinks c after) : number after key ≤ number c key := by
  rw [number, number, shrinks.1]
  exact (shrinks.2 _).countP_le

end Limit

section Runs
variable {Rule : Action V F → Prop} {c : Cache T V F}

theorem init_inv (seed : BitVec 32) : Inv (.init seed : Cache T V F) fun _ => .unused := by
  refine ⟨by simp, by simp, ?_, ?_, ?_, ?_, ?_, ?_, ?_, ?_⟩
  · constructor <;> simp [Cache.init]
  · constructor <;> simp [Cache.init]
  · constructor <;> simp [Cache.init, cursor]
  · simp [Cache.init]
  · simp [Cache.init]
  · simp [Cache.init]
  · simp [Cache.init, Ticks]
  · constructor <;> simp [Cache.init, found, waiting, unstopped]

theorem run_inv (run : Run Rule c) : ∃ fate, Inv c fate := by
  induction run with
  | init seed => exact ⟨_, init_inv seed⟩
  | step t action before rule result ih =>
    obtain ⟨fate, inv⟩ := ih
    exact step_keeps inv result

/-- If every add of a key gives a maximum of at most `most`, there are no more entries of it. -/
theorem run_number {key : Key} {most : ℕ} (run : Run Rule c)
    (limited : ∀ ptr freefunc maxkeys, Rule (.add key ptr freefunc maxkeys) → maxkeys ≠ 0 ∧ maxkeys ≤ most) :
    number c key ≤ most := by
  induction run with
  | init seed => simp [number, Cache.init]
  | @step c after ret t action before rule result ih =>
    obtain ⟨fate, inv⟩ := run_inv before
    obtain goes | ⟨_, shrinks | ⟨key', ptr, freefunc, maxkeys, same, goes⟩⟩ := step_cases result
    · exact (number_shrinks (proceed_cases goes).1).trans ih
    · exact (number_shrinks shrinks).trans ih
    · subst same
      obtain fewer | ⟨own, more⟩ := number_add key inv goes
      · exact fewer.trans ih
      · subst own
        obtain ⟨some, below⟩ := limited ptr freefunc maxkeys rule
        exact (more some).trans below

/-- In every run of any threads each value has one owner, a get returns the newest live
entry, nothing that was freed is used, and the maxima of the adds hold. -/
theorem run_owned (run : Run Rule c) : Owned c ∧ Gets c ∧ (∀ t action, step c t action ≠ some .failed) ∧
    (∀ t key ptr freefunc maxkeys after ret, step c t (.add key ptr freefunc maxkeys) = some (.next after ret) →
      maxkeys ≠ 0 → number after key ≤ max maxkeys (number c key)) ∧
    ∀ key most, (∀ ptr freefunc maxkeys, Rule (.add key ptr freefunc maxkeys) → maxkeys ≠ 0 ∧ maxkeys ≤ most) →
      number c key ≤ most := by
  obtain ⟨fate, inv⟩ := run_inv run
  refine ⟨owned_of_inv inv, gets_of_inv inv, fun t action failed => step_keeps inv failed, ?_, ?_⟩
  · intro t key ptr freefunc maxkeys after ret goes some
    obtain goes | ⟨_, shrinks | ⟨key', ptr', freefunc', maxkeys', same, goes⟩⟩ := step_cases goes
    · exact le_max_of_le_right (number_shrinks (proceed_cases goes).1)
    · exact le_max_of_le_right (number_shrinks shrinks)
    · cases same
      obtain fewer | ⟨_, more⟩ := number_add key inv goes
      · exact le_max_of_le_right fewer
      · exact le_max_of_le_left (more some)
  · exact fun key most limited => run_number run limited

end Runs

/-- Each add allows at least one entry and at most so many. -/
def Within (most : ℕ) : Action V F → Prop
  | .add _ _ _ maxkeys => maxkeys ≠ 0 ∧ maxkeys ≤ most
  | _ => True

/-- The timer of the older of two values runs, and a get takes the newer one. -/
theorem run_owned_expired : ∃ c : Cache Unit ℕ Unit, c.log.length = 3 ∧ Owned c ∧ Gets c ∧ number c [97] ≤ 2 := by
  have first : Run (Within 2) _ :=
    .step (some ()) (.add [97] 5 () 2) (.init 0 : Run (Within 2) (.init 0 : Cache Unit ℕ Unit)) ⟨by decide, by decide⟩ rfl
  have second : Run (Within 2) _ := .step (some ()) (.add [97] 6 () 2) first ⟨by decide, by decide⟩ rfl
  have fires : Run (Within 2) _ := .step none (.fire [⟨0, 5, (), computeHash 0 [97], [97]⟩]) second trivial rfl
  have looks : Run (Within 2) _ := .step (some ()) (.get [97]) fires trivial rfl
  have takes : Run (Within 2) _ := .step (some ()) .proceed looks trivial rfl
  obtain ⟨owned, gets, _, _, limited⟩ := run_owned takes
  exact ⟨_, rfl, owned, gets, limited [97] 2 fun _ _ _ within => within⟩

/-- A smaller maximum, or none, drops nothing that is there. A value that is refused is
with the thread that brought it until that thread frees it. -/
theorem add_leaves : (∃ c after : Cache Unit ℕ Unit, Run (fun _ => True) c ∧
      step c (some ()) (.add [97] 7 () 1) = some (.next after .goes) ∧ number after [97] = 2) ∧
    ∃ c : Cache Unit ℕ Unit, Run (fun _ => True) c ∧ Event.added ⟨2, 7, (), computeHash 0 [97], [97]⟩ ∈ c.log ∧
      (∀ b, ⟨2, 7, (), computeHash 0 [97], [97]⟩ ∉ c.buckets b) ∧
      Event.returned ⟨2, 7, (), computeHash 0 [97], [97]⟩ ∉ c.log ∧
      Event.freed ⟨2, 7, (), computeHash 0 [97], [97]⟩ ∉ c.log := by
  have first : Run (fun _ => True) _ :=
    .step (some ()) (.add [97] 5 () 0) (.init 0 : Run (fun _ => True) (.init 0 : Cache Unit ℕ Unit)) trivial rfl
  have second : Run (fun _ => True) _ := .step (some ()) (.add [97] 6 () 0) first trivial rfl
  have third : Run (fun _ => True) _ := .step (some ()) (.add [97] 7 () 1) second trivial rfl
  refine ⟨⟨_, _, second, rfl, by decide⟩, _, third, ?_, ?_, ?_, ?_⟩
  · simp [Cache.move, Cache.record, Cache.setTimer, Cache.setBucket, Cache.init]
  · intro b
    simp only [Cache.move, Cache.record, Cache.setTimer, Cache.setBucket, Cache.init, Function.update_apply]
    split_ifs <;> simp
  · simp [Cache.move, Cache.record, Cache.setTimer, Cache.setBucket, Cache.init]
  · simp [Cache.move, Cache.record, Cache.setTimer, Cache.setBucket, Cache.init]

end Pclsync.Proofs.Objects
