import Pclsync.Library.Holders
import Pclsync.Pages.Urls

/-! Runs of any readers give up each reference that they took, as long as no request fails to
be sent and no reader comes to the test of the key without the key. -/

namespace Pclsync.Proofs.Urls
open Pclsync.Library Pclsync.Pages

variable {T : Type} {c next : Cache T} {t : T} {entry : ℕ} {urls : Urls} {event : Event} {reader : Reader}

/-- The entry that a reader has a reference to. -/
def held : Place → Option ℕ
  | .wait entry => some entry
  | .fetched entry => some entry
  | .key entry => some entry
  | .read entry => some entry
  | _ => none

/-- The entry that a reader gets the links for. -/
def fetching : Place → Option ℕ
  | .fetch entry => some entry
  | _ => none

/-- A reader behind the waiting. -/
def Ready (place : Place) (entry : ℕ) : Prop := place = .fetched entry ∨ place = .key entry ∨ place = .read entry

/-- An entry is in the tree until it is bad or freed, and freed when nobody has it any more. -/
structure Sane (urls : Urls) : Prop where
  linked : urls.linked = true ↔ urls.status ≠ .bad ∧ urls.frees = 0
  frees : urls.frees = if urls.status ≠ .loading ∧ urls.refcnt = 0 then 1 else 0

theorem new_sane (hash : BitVec 64) : Sane (.new hash) := by
  constructor <;> simp [Urls.new]

theorem acquire_sane (sane : Sane urls) (linked : urls.linked = true) : Sane urls.acquire := by
  obtain ⟨usable, unfreed⟩ := sane.linked.mp linked
  refine ⟨sane.linked, ?_⟩
  simp [Urls.acquire, unfreed]

theorem setGood_sane (sane : Sane urls) (loading : urls.status = .loading) : Sane urls.setGood := by
  have unfreed : urls.frees = 0 := by simp [sane.frees, loading]
  have linked : urls.linked = true := sane.linked.mpr ⟨by simp [loading], unfreed⟩
  constructor <;> simp [Urls.setGood, unfreed, linked]

theorem setFailed_sane (sane : Sane urls) (loading : urls.status = .loading) : Sane urls.setFailed := by
  have unfreed : urls.frees = 0 := by simp [sane.frees, loading]
  rw [Urls.setFailed]
  split
  next waited => constructor <;> simp_all
  next alone => constructor <;> simp_all

/-- What a function that gives up a reference does. -/
structure Releases (urls after : Urls) : Prop where
  sane : Sane after
  refcnt : after.refcnt = urls.refcnt - 1
  status : after.status ≠ .loading

theorem dropFailed_releases (sane : Sane urls) (some : 0 < urls.refcnt) (bad : urls.status = .bad) :
    Releases urls urls.dropFailed := by
  have unfreed : urls.frees = 0 := by
    rw [sane.frees, if_neg (by omega)]
  have unlinked : urls.linked = false := by
    simpa [bad] using sane.linked
  rw [Urls.dropFailed]
  split
  next last => exact ⟨⟨by simp [bad, unlinked], by simp_all⟩, rfl, by simp [bad]⟩
  next others => exact ⟨⟨by simp [bad, unlinked], by simp_all⟩, rfl, by simp [bad]⟩

theorem bad_of (ready : urls.status ≠ .loading) (other : urls.status ≠ .good) : urls.status = .bad := by
  cases status : urls.status with
  | loading => exact absurd status ready
  | good => exact absurd status other
  | bad => rfl

theorem release_releases (sane : Sane urls) (some : 0 < urls.refcnt) (ready : urls.status ≠ .loading) :
    Releases urls urls.release := by
  have unfreed : urls.frees = 0 := by
    rw [sane.frees, if_neg (by omega)]
  have linked := sane.linked
  rw [Urls.release]
  by_cases last : urls.refcnt - 1 = 0
  · by_cases good : urls.status = .good
    · exact ⟨⟨by simp [last, good, unfreed], by simp [last, good, unfreed]⟩, by simp [last, good], by simp [last, good]⟩
    · have bad := bad_of ready good
      exact ⟨⟨by simp_all, by simp [last, bad, unfreed]⟩, by simp [last, bad], by simp [last, bad]⟩
  · exact ⟨⟨by simp_all, by simp [last, unfreed]⟩, by simp [last], by simp [last, ready]⟩

theorem releaseBad_releases (sane : Sane urls) (some : 0 < urls.refcnt) (ready : urls.status ≠ .loading) :
    Releases urls urls.releaseBad := by
  have unfreed : urls.frees = 0 := by
    rw [sane.frees, if_neg (by omega)]
  have linked := sane.linked
  rw [Urls.releaseBad]
  by_cases good : urls.status = .good
  · by_cases last : urls.refcnt - 1 = 0
    · exact ⟨⟨by simp [last, good], by simp [last, good, unfreed]⟩, by simp [last, good], by simp [last, good]⟩
    · exact ⟨⟨by simp [last, good], by simp [last, good, unfreed]⟩, by simp [last, good], by simp [last, good]⟩
  · have bad := bad_of ready good
    by_cases last : urls.refcnt - 1 = 0
    · exact ⟨⟨by simp_all, by simp [last, bad, unfreed]⟩, by simp [last, bad], by simp [last, bad]⟩
    · exact ⟨⟨by simp_all, by simp [last, bad, unfreed]⟩, by simp [last, bad], by simp [last, bad]⟩

section Inv
variable [Fintype T]

/-- What holds of the cache and its readers. -/
structure Inv (c : Cache T) : Prop where
  known : ∀ t entry, held (c.readers t).place = some entry ∨ fetching (c.readers t).place = some entry → entry < c.next
  sane : ∀ entry < c.next, Sane (c.urls entry)
  counted : Counted (fun entry => (c.urls entry).refcnt) fun t => held (c.readers t).place
  fetched : Counted (fun entry => if entry < c.next ∧ (c.urls entry).status = .loading then 1 else 0) fun t => fetching (c.readers t).place
  ready : ∀ t entry, Ready (c.readers t).place entry → (c.urls entry).status ≠ .loading
  ledger : ∀ t entry, c.acquired t entry = c.released t entry + if held (c.readers t).place = some entry then 1 else 0

theorem init_inv : Inv (Cache.init : Cache T) where
  known := by rintro t entry (own | own) <;> cases own
  sane := fun entry below => absurd below (Nat.not_lt_zero entry)
  counted := by
    intro entry
    simp [Cache.init, held, Census.tally]
  fetched := by
    intro entry
    simp [Cache.init, fetching, Census.tally]
  ready := by rintro t entry (own | own | own) <;> cases own
  ledger := by
    intro t entry
    simp [Cache.init, held]

end Inv

variable [DecidableEq T]

/-- What the readers have after one of them went on. -/
theorem place_update (kind : Place → Option ℕ) (readers : T → Reader) (t : T) (reader : Reader) :
    (fun other => kind (Function.update readers t reader other).place) =
      Function.update (fun other => kind (readers other).place) t (kind reader.place) := by
  funext other
  by_cases same : other = t
  · subst same
    simp
  · simp [same]

/-- One more in a ledger. -/
theorem entered (ledger : T → ℕ → ℕ) (t other : T) (entry x : ℕ) :
    Function.update ledger t (Function.update (ledger t) entry (ledger t entry + 1)) other x =
      ledger other x + if other = t ∧ x = entry then 1 else 0 := by
  by_cases same : other = t
  · subst same
    by_cases here : x = entry
    · simp [here]
    · simp [here]
  · simp [same]

theorem take_acquired (c : Cache T) (t other : T) (entry x : ℕ) :
    (c.take t entry).acquired other x = c.acquired other x + if other = t ∧ x = entry then 1 else 0 :=
  entered c.acquired t other entry x

theorem give_released (c : Cache T) (t other : T) (entry x : ℕ) :
    (c.give t entry).released other x = c.released other x + if other = t ∧ x = entry then 1 else 0 :=
  entered c.released t other entry x

variable [Fintype T]

/-- A reader goes on with what it has. -/
theorem Inv.put (inv : Inv c) (sameHeld : held reader.place = held (c.readers t).place)
    (sameFetching : fetching reader.place = fetching (c.readers t).place)
    (ready : ∀ entry, Ready reader.place entry → (c.urls entry).status ≠ .loading) : Inv (c.put t reader) where
  known := by
    intro other entry own
    by_cases same : other = t
    · subst same
      simp only [Cache.put, Function.update_self, sameHeld, sameFetching] at own
      exact inv.known other entry own
    · simp only [Cache.put, Function.update_of_ne same] at own
      exact inv.known other entry own
  sane := inv.sane
  counted := by
    have same := place_update held c.readers t reader
    rw [sameHeld, Function.update_eq_self] at same
    simp only [Cache.put, same]
    exact inv.counted
  fetched := by
    have same := place_update fetching c.readers t reader
    rw [sameFetching, Function.update_eq_self] at same
    simp only [Cache.put, same]
    exact inv.fetched
  ready := by
    intro other entry own
    by_cases same : other = t
    · subst same
      simp only [Cache.put, Function.update_self] at own
      exact ready entry own
    · simp only [Cache.put, Function.update_of_ne same] at own
      exact inv.ready other entry own
  ledger := by
    intro other entry
    by_cases same : other = t
    · subst same
      simp only [Cache.put, Function.update_self, sameHeld]
      exact inv.ledger other entry
    · simp only [Cache.put, Function.update_of_ne same]
      exact inv.ledger other entry

/-- A reader goes on and changes the entry that it has, gets or gives up. -/
theorem Inv.change {after : Urls} {upto : ℕ} {acquired released : T → ℕ → ℕ} (inv : Inv c) (below : entry < upto)
    (more : c.next ≤ upto) (known : ∀ other < upto, other ≠ entry → other < c.next) (sane : Sane after)
    (stays : ∀ other, Ready (c.readers other).place entry → after.status ≠ .loading)
    (own : ∀ other, held reader.place = some other ∨ fetching reader.place = some other → other = entry)
    (counted : Counted (fun other => (Function.update c.urls entry after other).refcnt)
      (Function.update (fun other => held (c.readers other).place) t (held reader.place)))
    (fetched : Counted (fun other => if other < upto ∧ (Function.update c.urls entry after other).status = .loading then 1 else 0)
      (Function.update (fun other => fetching (c.readers other).place) t (fetching reader.place)))
    (ready : Ready reader.place entry → after.status ≠ .loading)
    (ledger : ∀ other x, acquired other x = released other x +
      if Function.update (fun other => held (c.readers other).place) t (held reader.place) other = some x then 1 else 0) :
    Inv ⟨Function.update c.urls entry after, upto, Function.update c.readers t reader, acquired, released⟩ where
  known := by
    intro other x has
    by_cases same : other = t
    · subst same
      simp only [Function.update_self] at has
      rw [own x has]
      exact below
    · simp only [Function.update_of_ne same] at has
      exact (inv.known other x has).trans_le more
  sane := by
    intro x inside
    by_cases same : x = entry
    · simpa [same] using sane
    · simpa [same] using inv.sane x (known x inside same)
  counted := by
    rw [place_update]
    exact counted
  fetched := by
    rw [place_update]
    exact fetched
  ready := by
    intro other x has
    by_cases same : other = t
    · subst same
      simp only [Function.update_self] at has
      obtain rfl : x = entry := own x (by obtain place | place | place := has <;> simp [place, held])
      simpa using ready has
    · simp only [Function.update_of_ne same] at has
      by_cases here : x = entry
      · subst here
        simpa using stays other has
      · simpa [here] using inv.ready other x has
  ledger := by
    intro other x
    have moved := congrFun (place_update held c.readers t reader) other
    simp only [ledger other x, ← moved]

/-- A reader that has nothing takes a reference. -/
theorem Inv.take {after : Urls} {place : Place} (inv : Inv c) (below : entry < c.next) (sane : Sane after)
    (stays : ∀ other, Ready (c.readers other).place entry → after.status ≠ .loading) (free : held (c.readers t).place = none)
    (own : held place = some entry) (no : fetching place = none) (more : after.refcnt = (c.urls entry).refcnt + 1)
    (fetched : Counted (fun other => if other < c.next ∧ (Function.update c.urls entry after other).status = .loading then 1 else 0)
      (Function.update (fun other => fetching (c.readers other).place) t none))
    (ready : Ready place entry → after.status ≠ .loading) : Inv (((c.set entry after).take t entry).move t place) := by
  apply Inv.change inv below le_rfl (fun other inside _ => inside) sane stays
  · intro other has
    simp only [own, no, Option.some.injEq, reduceCtorEq, or_false] at has
    exact has.symm
  · simp only [own]
    apply inv.counted.acquire free
    · simp [more]
    · intro other differs
      simp [differs]
  · simp only [no]
    exact fetched
  · exact ready
  · intro other x
    have before : c.acquired other x = c.released other x + _ := inv.ledger other x
    rw [take_acquired]
    by_cases same : other = t
    · subst same
      rw [free, if_neg (Option.some_ne_none x).symm] at before
      simp [Cache.set, Cache.take, before, own, eq_comm]
    · simpa [Cache.set, Cache.take, same] using before

/-- A reader gives up its reference. -/
theorem Inv.leave {release : Urls → Urls} {place : Place} (inv : Inv c) (own : held (c.readers t).place = some entry)
    (releases : Releases (c.urls entry) (release (c.urls entry))) (ready : (c.urls entry).status ≠ .loading)
    (free : held place = none) (no : fetching place = none) : Inv (c.leave t entry release place) := by
  have idle : fetching (c.readers t).place = none := by
    cases place : (c.readers t).place <;> simp_all [held, fetching]
  apply Inv.change inv (inv.known t entry (.inl own)) le_rfl (fun other inside _ => inside) releases.sane fun _ _ => releases.status
  · intro other has
    simp only [free, no, reduceCtorEq, or_self] at has
  · simp only [free]
    apply inv.counted.release own
    · simp [releases.refcnt]
    · intro other differs
      simp [differs]
  · simp only [no]
    have same : Function.update (fun other => fetching (c.readers other).place) t none = fun other => fetching (c.readers other).place := by
      rw [← idle, Function.update_eq_self]
    rw [same]
    apply inv.fetched.congr
    intro other
    by_cases here : other = entry
    · subst here
      simp [ready, releases.status]
    · simp [here]
  · intro _
    exact releases.status
  · intro other x
    have before : c.acquired other x = c.released other x + _ := inv.ledger other x
    rw [give_released]
    by_cases same : other = t
    · subst same
      rw [own] at before
      simp [Cache.set, Cache.give, before, free, eq_comm]
    · simpa [Cache.set, Cache.give, same] using before

omit [DecidableEq T] in
/-- A fetched entry is the reader's own. -/
theorem Inv.loading (inv : Inv c) (own : fetching (c.readers t).place = some entry) :
    entry < c.next ∧ (c.urls entry).status = .loading := by
  have some := inv.fetched.pos own
  by_contra other
  rw [if_neg other] at some
  exact absurd some (Nat.lt_irrefl 0)

/-- A reader is done with getting the links. -/
theorem Inv.fetchedBy {after : Urls} (inv : Inv c) (own : fetching (c.readers t).place = some entry) (done : after.status ≠ .loading) :
    Counted (fun other => if other < c.next ∧ (Function.update c.urls entry after other).status = .loading then 1 else 0)
      (Function.update (fun other => fetching (c.readers other).place) t none) := by
  apply inv.fetched.release own
  · simp [done, inv.loading own]
  · intro other differs
    simp [differs]

theorem Inv.setGood {place : Place} (inv : Inv c) (own : (c.readers t).place = .fetch entry) (has : held place = some entry)
    (no : fetching place = none) : Inv (((c.set entry (c.urls entry).setGood).take t entry).move t place) := by
  have fetches : fetching (c.readers t).place = some entry := by rw [own, fetching]
  obtain ⟨below, loading⟩ := inv.loading fetches
  have status : (c.urls entry).setGood.status ≠ .loading := by simp [Urls.setGood]
  exact inv.take below (setGood_sane (inv.sane entry below) loading) (fun _ _ => status) (own ▸ rfl) has no rfl
    (inv.fetchedBy fetches status) fun _ => status

theorem Inv.setFailed (inv : Inv c) (own : (c.readers t).place = .fetch entry) :
    Inv ((c.set entry (c.urls entry).setFailed).move t .done) := by
  have fetches : fetching (c.readers t).place = some entry := by rw [own, fetching]
  obtain ⟨below, loading⟩ := inv.loading fetches
  have status : (c.urls entry).setFailed.status ≠ .loading := by
    rw [Urls.setFailed]
    split <;> simp
  have refcnt : (c.urls entry).setFailed.refcnt = (c.urls entry).refcnt := by
    rw [Urls.setFailed]
    split <;> rfl
  have free : held (c.readers t).place = held .done := own ▸ rfl
  have same : Function.update (fun other => held (c.readers other).place) t (held .done) = fun other => held (c.readers other).place := by
    rw [← free, Function.update_eq_self]
  apply Inv.change inv below le_rfl (fun other inside _ => inside) (setFailed_sane (inv.sane entry below) loading) fun _ _ => status
  · rintro other (has | has) <;> cases has
  · simp only [same]
    apply inv.counted.congr
    intro other
    by_cases here : other = entry
    · simp [here, refcnt]
    · simp [here]
  · exact inv.fetchedBy fetches status
  · exact fun _ => status
  · intro other x
    simp only [Cache.set, same]
    exact inv.ledger other x

theorem Inv.make (inv : Inv c) (own : (c.readers t).place = .retry) (hash : BitVec 64) :
    Inv (Cache.move { c.set c.next (.new hash) with next := c.next + 1 } t (.fetch c.next)) := by
  have free : held (c.readers t).place = held (.fetch c.next) := own ▸ rfl
  have idle : fetching (c.readers t).place = none := own ▸ rfl
  have unused : ∀ other, held (c.readers other).place ≠ some c.next := by
    intro other has
    exact absurd (inv.known other c.next (.inl has)) (Nat.lt_irrefl _)
  have zero : (c.urls c.next).refcnt = 0 := by
    have count := inv.counted c.next
    simp only at count
    rw [count, Census.tally, Finset.card_eq_zero, Finset.filter_eq_empty_iff]
    exact fun other _ => unused other
  have same : Function.update (fun other => held (c.readers other).place) t (held (.fetch c.next)) =
      fun other => held (c.readers other).place := by
    rw [← free, Function.update_eq_self]
  apply Inv.change inv (Nat.lt_succ_self _) (Nat.le_succ _) (fun other inside differs => by omega) (new_sane hash)
  · intro other has
    exact absurd (by obtain place | place | place := has <;> simp [place, held]) (unused other)
  · rintro other (has | has)
    · cases has
    · exact (Option.some.inj has).symm
  · simp only [same]
    apply inv.counted.congr
    intro other
    by_cases here : other = c.next
    · simp [here, zero, Urls.new]
    · simp [here]
  · apply inv.fetched.acquire idle
    · simp [Urls.new]
    · intro other differs
      have order : other < c.next + 1 ↔ other < c.next := by omega
      simp [differs, order]
  · rintro (other | other | other) <;> cases other
  · intro other x
    simp only [Cache.set, same]
    exact inv.ledger other x

/-- When a reader gives up all that it took: it does not go back to `retry` because a request
could not be sent, and the value of the key is not taken for an error. -/
def Sound (c : Cache T) (t : T) : Event → Prop
  | .key enc => (c.readers t).needkey = true → cryptoToError enc = 0
  | .serve .sendFailed => (c.readers t).ranges = true → 5 ≤ (c.readers t).tries
  | _ => True

theorem start_inv {online needkey ranges : Bool} {hash : BitVec 64} (inv : Inv c)
    (goes : start c t online hash needkey ranges = some next) : Inv next := by
  rw [start] at goes
  split at goes
  next place =>
    obtain rfl := Option.some.inj goes
    apply inv.put
    · rw [place]
      split <;> rfl
    · rw [place]
      split <;> rfl
    · intro entry ready
      simp only at ready
      split at ready <;> obtain other | other | other := ready <;> cases other
  next => cases goes

theorem find_inv (inv : Inv c) (goes : find c t entry = some next) : Inv next := by
  rw [find] at goes
  split at goes
  next place =>
    split at goes
    next found =>
      obtain rfl := Option.some.inj goes
      obtain ⟨below, linked, _⟩ := found
      have free : held (c.readers t).place = none := place ▸ rfl
      have idle : fetching (c.readers t).place = none := place ▸ rfl
      apply inv.take below (acquire_sane (inv.sane entry below) linked) (fun other has => inv.ready other entry has) free rfl rfl rfl
      · have same : Function.update (fun other => fetching (c.readers other).place) t none = fun other => fetching (c.readers other).place := by
          rw [← idle, Function.update_eq_self]
        rw [same]
        apply inv.fetched.congr
        intro other
        by_cases here : other = entry
        · simp [here, Urls.acquire]
        · simp [here]
      · rintro (other | other | other) <;> cases other
    next => cases goes
  next => cases goes

theorem make_inv (inv : Inv c) (goes : make c t = some next) : Inv next := by
  rw [make] at goes
  split at goes
  next place =>
    obtain rfl := Option.some.inj goes
    exact inv.make place _
  next => cases goes

theorem wake_inv (inv : Inv c) (goes : wake c t = some next) : Inv next := by
  rw [wake] at goes
  split at goes
  next entry place =>
    have has : held (c.readers t).place = some entry := place ▸ rfl
    have below := inv.known t entry (.inl has)
    split at goes
    · cases goes
    next good =>
      obtain rfl := Option.some.inj goes
      apply inv.put (place ▸ rfl) (place ▸ rfl)
      intro other ready
      obtain other | other | other := ready <;> cases other
      rw [good]
      exact Status.noConfusion
    next bad =>
      obtain rfl := Option.some.inj goes
      have ready : (c.urls entry).status ≠ .loading := by simp [bad]
      exact inv.leave has (dropFailed_releases (inv.sane entry below) (inv.counted.pos has) bad) ready rfl rfl
  next => cases goes

theorem cached_inv (inv : Inv c) (goes : cached c t = some next) : Inv next := by
  rw [cached] at goes
  split at goes
  next entry place =>
    obtain rfl := Option.some.inj goes
    exact inv.setGood place rfl rfl
  next => cases goes

theorem link_inv {ok : Bool} (inv : Inv c) (goes : link c t ok = some next) : Inv next := by
  rw [link] at goes
  split at goes
  next entry place =>
    split at goes
    · obtain rfl := Option.some.inj goes
      exact inv.setGood place rfl rfl
    · obtain rfl := Option.some.inj goes
      exact inv.setFailed place
  next => cases goes

/-- A reader with links goes on with them. -/
theorem Inv.goOn {before : Place} (inv : Inv c) (place : (c.readers t).place = before) (has : held before = some entry)
    (ready : Ready before entry) (after : reader.place = .key entry ∨ reader.place = .read entry) : Inv (c.put t reader) := by
  have idle : fetching before = none := by
    obtain place | place | place := ready <;> rw [place] <;> rfl
  apply inv.put
  · obtain after | after := after <;> rw [place, has, after] <;> rfl
  · obtain after | after := after <;> rw [place, idle, after] <;> rfl
  · intro other own
    have same : other = entry := by
      obtain after | after := after <;> rw [after] at own <;> obtain own | own | own := own <;> cases own <;> rfl
    rw [same]
    exact inv.ready t entry (place ▸ ready)

theorem rest_inv {enc : Option (BitVec 64)} {left : Bool} (inv : Inv c) (goes : rest c t enc left = some next) : Inv next := by
  rw [rest] at goes
  split at goes
  next entry place =>
    split at goes
    · obtain rfl := Option.some.inj goes
      exact inv.goOn place rfl (.inl rfl) (.inl rfl)
    · obtain rfl := Option.some.inj goes
      exact inv.goOn place rfl (.inl rfl) (.inl rfl)
  next => cases goes

theorem key_inv {enc : BitVec 64} (inv : Inv c) (sound : Sound c t (.key enc)) (goes : key c t enc = some next) : Inv next := by
  rw [key] at goes
  split at goes
  next entry place =>
    split at goes
    next needkey =>
      rw [if_neg (not_not.mpr (sound needkey))] at goes
      obtain rfl := Option.some.inj goes
      exact inv.goOn place rfl (.inr (.inl rfl)) (.inr rfl)
    next =>
      obtain rfl := Option.some.inj goes
      exact inv.goOn place rfl (.inr (.inl rfl)) (.inr rfl)
  next => cases goes

theorem release_inv (inv : Inv c) (own : (c.readers t).place = .read entry) : Inv (c.leave t entry Urls.release .done) := by
  have has : held (c.readers t).place = some entry := own ▸ rfl
  have ready := inv.ready t entry (.inr (.inr own))
  have below := inv.known t entry (.inl has)
  exact inv.leave has (release_releases (inv.sane entry below) (inv.counted.pos has) ready) ready rfl rfl

theorem releaseBad_inv (inv : Inv c) (own : (c.readers t).place = .read entry) : Inv (c.leave t entry Urls.releaseBad .retry) := by
  have has : held (c.readers t).place = some entry := own ▸ rfl
  have ready := inv.ready t entry (.inr (.inr own))
  have below := inv.known t entry (.inl has)
  exact inv.leave has (releaseBad_releases (inv.sane entry below) (inv.counted.pos has) ready) ready rfl rfl

theorem serve_inv {served : Served} (inv : Inv c) (sound : Sound c t (.serve served)) (goes : serve c t served = some next) :
    Inv next := by
  rw [serve] at goes
  split at goes
  next entry place =>
    have released : some (c.leave t entry Urls.release .done) = some next → Inv next := by
      intro goes
      obtain rfl := Option.some.inj goes
      exact release_inv inv place
    split at goes
    · exact released goes
    next ranges =>
      split at goes
      · exact released goes
      · exact released goes
      · rw [if_neg (Nat.not_lt.mpr (sound (not_not.mp ranges)))] at goes
        exact released goes
      · split at goes
        · obtain rfl := Option.some.inj goes
          apply (releaseBad_inv inv place).put
          · simp [Cache.leave, Cache.move, Cache.put]
          · simp [Cache.leave, Cache.move, Cache.put]
          · intro other has
            obtain has | has | has := has <;> cases has
        · exact released goes
  next => cases goes

theorem step_inv (inv : Inv c) (sound : Sound c t event) (goes : step c t event = some next) : Inv next := by
  cases event with
  | start online hash needkey ranges => exact start_inv inv goes
  | find entry => exact find_inv inv goes
  | make => exact make_inv inv goes
  | wake => exact wake_inv inv goes
  | cached => exact cached_inv inv goes
  | link ok => exact link_inv inv goes
  | rest enc left => exact rest_inv inv goes
  | key enc => exact key_inv inv sound goes
  | serve served => exact serve_inv inv sound goes

/-- The runs of any readers in any order, where the readers give up all that they took. -/
inductive Run : Cache T → Prop where
  | init : Run .init
  | step {c next : Cache T} (t : T) (event : Event) : Run c → Sound c t event → step c t event = some next → Run next

theorem run_inv (run : Run c) : Inv c := by
  induction run with
  | init => exact init_inv
  | step t event _ sound goes inv => exact step_inv inv sound goes

omit [DecidableEq T] in
/-- The references that were taken and not given up are those that the readers have. -/
theorem Inv.outstanding (inv : Inv c) (entry : ℕ) :
    ∑ t, c.acquired t entry = (c.urls entry).refcnt + ∑ t, c.released t entry := by
  have count : (c.urls entry).refcnt = ∑ t, if held (c.readers t).place = some entry then 1 else 0 := by
    rw [Finset.sum_boole, Nat.cast_id]
    exact inv.counted entry
  rw [count, Finset.sum_congr rfl fun t _ => inv.ledger t entry, Finset.sum_add_distrib, Nat.add_comm]

/-- Balanced references, for the readers and for each entry. -/
structure Balanced (c : Cache T) : Prop where
  exits : ∀ t, (c.readers t).place = .done ∨ (c.readers t).place = .retry → c.acquired t = c.released t
  refcnt : ∀ entry, ∑ t, c.acquired t entry = (c.urls entry).refcnt + ∑ t, c.released t entry
  freed : ∀ entry < c.next, (c.urls entry).frees =
    if (c.urls entry).status ≠ .loading ∧ ∑ t, c.acquired t entry = ∑ t, c.released t entry then 1 else 0
  linked : ∀ entry < c.next, (c.urls entry).linked = true ↔ (c.urls entry).status ≠ .bad ∧ (c.urls entry).frees = 0
  used : ∀ t entry, held (c.readers t).place = some entry ∨ fetching (c.readers t).place = some entry → (c.urls entry).frees = 0
  goesOn : ∀ t entry enc, (c.readers t).place = .key entry → (c.readers t).needkey = true → cryptoIsError enc = false →
    Sound c t (.key enc) → ∃ next, step c t (.key enc) = some next ∧ (next.readers t).place = .read entry

omit [Fintype T] in
theorem goes_on {enc : BitVec 64} (place : (c.readers t).place = .key entry) (needkey : (c.readers t).needkey = true)
    (sound : Sound c t (.key enc)) : ∃ next, step c t (.key enc) = some next ∧ (next.readers t).place = .read entry := by
  refine ⟨c.put t { c.readers t with place := .read entry, needkey := false }, ?_, ?_⟩
  · have good : cryptoToError enc = 0 := sound needkey
    simp only [step, key, place, needkey, good, if_true, ne_eq, not_true_eq_false, if_false]
  · simp [Cache.put]

/-- A reader of a file that is not encrypted, whose link is gone at first. -/
def goneOnce : List (Unit × Event) :=
  [((), .start true 5 false true), ((), .make), ((), .cached), ((), .key 0), ((), .serve .gone), ((), .make), ((), .link true),
    ((), .rest none true), ((), .key 0), ((), .serve .ok)]

end Pclsync.Proofs.Urls
