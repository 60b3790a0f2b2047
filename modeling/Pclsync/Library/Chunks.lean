import Pclsync.Library.Memory
import Mathlib

/-! Items that are kept in chunks of the same capacity. Only the last chunk has room. The place of an item stays as it is when
other items come after it. -/

namespace Pclsync.Library

/-- The first `used` places have items. -/
structure Chunk (α : Type) where
  used : ℕ
  places : List α

namespace Chunks

structure Place where
  chunk : ℕ
  index : ℕ
deriving DecidableEq, Repr

variable {α : Type}

def contents (chunks : List (Chunk α)) : List α := chunks.flatMap fun chunk => chunk.places.take chunk.used

def fresh (capacity : ℕ) (blank : α) : Chunk α := ⟨0, List.replicate capacity blank⟩

/-- A last chunk that has room. -/
def reserve (capacity : ℕ) (blank : α) (chunks : List (Chunk α)) : List (Chunk α) :=
  if chunks.getLast?.any (·.used < capacity) then chunks else chunks ++ [fresh capacity blank]

/-- The first place of the last chunk that is not used. -/
def free (chunks : List (Chunk α)) : Place := ⟨chunks.length - 1, (chunks.getLast?.map Chunk.used).getD 0⟩

/-- One more place of the last chunk is used. -/
def count (chunks : List (Chunk α)) : List (Chunk α) :=
  chunks.modify (chunks.length - 1) fun chunk => { chunk with used := chunk.used + 1 }

def load (chunks : List (Chunk α)) (place : Place) : Checked α :=
  (chunks[place.chunk]?.bind (·.places[place.index]?)).elim (.error .read) .ok

def store (chunks : List (Chunk α)) (place : Place) (value : α) : Checked (List (Chunk α)) :=
  match chunks[place.chunk]? with
  | none => .error .write
  | some chunk =>
    if place.index < chunk.places.length then .ok (chunks.set place.chunk { chunk with places := chunk.places.set place.index value })
    else .error .write

/-- The place is used and written. -/
def push (capacity : ℕ) (blank : α) (chunks : List (Chunk α)) (value : α) : Checked (List (Chunk α) × Place) := do
  let reserved := reserve capacity blank chunks
  let chunks ← store (count reserved) (free reserved) value
  return (chunks, free reserved)

/-- The used places of each chunk in their order. -/
def forEach {σ : Type} (step : σ → α → Checked σ) (state : σ) (chunks : List (Chunk α)) : Checked σ :=
  chunks.foldlM (fun state chunk => (List.range chunk.used).foldlM (fun state index => do
    step state (← chunk.places[index]?.elim (.error .read) .ok)) state) state

/-- The place after a used one. -/
def advance (chunks : List (Chunk α)) (place : Place) : Place :=
  if (chunks[place.chunk]?.map Chunk.used).getD 0 ≤ place.index + 1 then ⟨place.chunk + 1, 0⟩ else ⟨place.chunk, place.index + 1⟩

/-- Chunks in use. -/
structure Sized (capacity : ℕ) (chunk : Chunk α) : Prop where
  positive : 0 < chunk.used
  fits : chunk.used ≤ capacity
  places : chunk.places.length = capacity

/-- What the chunks hold. -/
structure Holds (capacity : ℕ) (chunks : List (Chunk α)) (items : List α) : Prop where
  sized : ∀ chunk ∈ chunks, Sized capacity chunk
  contents : contents chunks = items

/-- A place in front of the used ones of no chunk: the one that is filled next. -/
structure Open (capacity : ℕ) (chunks : List (Chunk α)) (place : Place) (front : List α) (value : α) : Prop where
  split : ∃ before left right, chunks = before ++ [⟨left.length, left ++ value :: right⟩] ∧ place = ⟨before.length, left.length⟩ ∧
    (∀ chunk ∈ before, Sized capacity chunk) ∧ left.length + 1 + right.length = capacity ∧ contents before ++ left = front

/-- A used place, with the items on both sides. -/
structure At (chunks : List (Chunk α)) (place : Place) (front : List α) (value : α) (rest : List α) : Prop where
  split : ∃ before chunk behind left right, chunks = before ++ chunk :: behind ∧ place = ⟨before.length, left.length⟩ ∧
    chunk.places.take chunk.used = left ++ value :: right ∧ contents before ++ left = front ∧ right ++ contents behind = rest

variable {capacity : ℕ} {blank value other : α} {chunks after : List (Chunk α)} {chunk : Chunk α} {place : Place}
  {items front rest : List α}

theorem holds_nil : Holds capacity ([] : List (Chunk α)) [] := ⟨nofun, rfl⟩

@[simp] theorem contents_append (first last : List (Chunk α)) : contents (first ++ last) = contents first ++ contents last := by
  rw [contents, List.flatMap_append, contents, contents]

@[simp] theorem contents_cons : contents (chunk :: chunks) = chunk.places.take chunk.used ++ contents chunks := rfl

theorem store_eq (found : chunks[place.chunk]? = some chunk) (inside : place.index < chunk.places.length) :
    store chunks place value = .ok (chunks.set place.chunk { chunk with places := chunk.places.set place.index value }) := by
  rw [store, found]
  exact if_pos inside

theorem exists_of_store (stored : store chunks place value = .ok after) :
    ∃ chunk, chunks[place.chunk]? = some chunk ∧ place.index < chunk.places.length ∧
      after = chunks.set place.chunk { chunk with places := chunk.places.set place.index value } := by
  unfold store at stored
  split at stored
  · cases stored
  next chunk found =>
    split at stored
    next inside =>
      cases stored
      exact ⟨chunk, found, inside, rfl⟩
    next => cases stored

theorem load_store (stored : store chunks place value = .ok after) : load after place = .ok value := by
  obtain ⟨chunk, found, inside, rfl⟩ := exists_of_store stored
  have present := (List.getElem?_eq_some_iff.mp found).1
  rw [load, List.getElem?_set_self present, Option.bind_some, List.getElem?_set_self inside]
  rfl

theorem store_store (stored : store chunks place value = .ok after) : store after place other = store chunks place other := by
  obtain ⟨chunk, found, inside, rfl⟩ := exists_of_store stored
  have present := (List.getElem?_eq_some_iff.mp found).1
  rw [store_eq found inside, store_eq (List.getElem?_set_self present) (by rwa [List.length_set]), List.set_set, List.set_set]

theorem exists_store (stored : store chunks place value = .ok after) (other : α) : ∃ next, store chunks place other = .ok next := by
  obtain ⟨chunk, found, inside, rfl⟩ := exists_of_store stored
  exact ⟨_, store_eq found inside⟩

/-- A place is free for the next item. -/
theorem open_reserve (holds : Holds capacity chunks items) (room : 0 < capacity) (blank : α) :
    ∃ value, Open capacity (reserve capacity blank chunks) (free (reserve capacity blank chunks)) items value := by
  have added : ∃ value, Open capacity (chunks ++ [fresh capacity blank]) (free (chunks ++ [fresh capacity blank])) items value := by
    refine ⟨blank, ⟨chunks, [], List.replicate (capacity - 1) blank, ?_, ?_, holds.sized, ?_, ?_⟩⟩
    · rw [fresh, List.nil_append, ← List.replicate_succ, Nat.sub_add_cancel room]
      rfl
    · rw [free, List.getLast?_concat, List.length_append, List.length_singleton, Nat.add_sub_cancel]
      rfl
    · rw [List.length_replicate]
      simp only [List.length_nil]
      omega
    · rw [List.append_nil, holds.contents]
  obtain rfl | ⟨before, chunk, rfl⟩ := List.eq_nil_or_concat' chunks
  · exact added
  · rw [reserve, List.getLast?_concat]
    split
    next spare =>
      have below : chunk.used < capacity := of_decide_eq_true spare
      have sized := holds.sized chunk (List.mem_append_right _ List.mem_cons_self)
      have inside : chunk.used < chunk.places.length := by rw [sized.places]; exact below
      have left : (chunk.places.take chunk.used).length = chunk.used := by rw [List.length_take]; omega
      refine ⟨chunk.places[chunk.used], ⟨before, chunk.places.take chunk.used, chunk.places.drop (chunk.used + 1), ?_, ?_, ?_, ?_, ?_⟩⟩
      · rw [left, ← List.drop_eq_getElem_cons inside, List.take_append_drop]
      · rw [free, List.getLast?_concat, List.length_append, List.length_singleton, Nat.add_sub_cancel, left]
        rfl
      · exact fun other member => holds.sized other (List.mem_append_left _ member)
      · rw [left, List.length_drop, sized.places]
        omega
      · rw [← holds.contents, contents_append, contents_cons]
        exact congrArg (contents before ++ ·) (List.append_nil _).symm
    next => exact added

theorem count_concat (before : List (Chunk α)) (chunk : Chunk α) : count (before ++ [chunk]) = before ++ [⟨chunk.used + 1, chunk.places⟩] := by
  rw [count, List.length_append, List.length_singleton, Nat.add_sub_cancel, List.modify_eq_take_cons_drop (by simp)]
  simp

theorem Open.load_eq (slot : Open capacity chunks place front value) : load chunks place = .ok value := by
  obtain ⟨before, left, right, rfl, rfl, _⟩ := slot.split
  simp [load]

theorem Open.store_eq (slot : Open capacity chunks place front value) (other : α) :
    ∃ after, store chunks place other = .ok after ∧ Open capacity after place front other := by
  obtain ⟨before, left, right, rfl, rfl, sized, full, same⟩ := slot.split
  refine ⟨before ++ [⟨left.length, left ++ other :: right⟩], ?_, ⟨before, left, right, rfl, rfl, sized, full, same⟩⟩
  rw [Chunks.store_eq (List.getElem?_concat_length) (by simp)]
  simp

theorem Open.holds_count (slot : Open capacity chunks place front value) : Holds capacity (count chunks) (front ++ [value]) := by
  obtain ⟨before, left, right, rfl, rfl, sized, full, rfl⟩ := slot.split
  rw [count_concat]
  constructor
  · intro chunk member
    obtain old | new := List.mem_append.mp member
    · exact sized chunk old
    · rw [List.mem_singleton.mp new]
      exact ⟨Nat.succ_pos _, by dsimp only; omega, by simp; omega⟩
  · simp [contents, List.take_append]

theorem At.contents_eq (used : At chunks place front value rest) : contents chunks = front ++ value :: rest := by
  obtain ⟨before, chunk, behind, left, right, rfl, rfl, same, rfl, rfl⟩ := used.split
  rw [contents_append, contents_cons, same]
  simp only [List.append_assoc, List.cons_append]

theorem At.load_eq (used : At chunks place front value rest) : load chunks place = .ok value := by
  obtain ⟨before, chunk, behind, left, right, rfl, rfl, same, rfl, rfl⟩ := used.split
  have found : (chunk.places.take chunk.used)[left.length]? = some value := by
    rw [same]
    simp
  have present : chunk.places[left.length]? = some value := by
    rw [List.getElem?_take] at found
    split at found
    · exact found
    · cases found
  simp [load, present]

theorem At.store_eq (used : At chunks place front value rest) (other : α) :
    ∃ after, store chunks place other = .ok after ∧ At after place front other rest := by
  obtain ⟨before, chunk, behind, left, right, rfl, rfl, same, rfl, rfl⟩ := used.split
  have inside : left.length < chunk.places.length := by
    have lengths := congrArg List.length same
    rw [List.length_take, List.length_append, List.length_cons] at lengths
    omega
  refine ⟨_, Chunks.store_eq (by simp) inside, before, ⟨chunk.used, chunk.places.set left.length other⟩, behind, left, right, ?_, rfl, ?_, rfl, rfl⟩
  · rw [List.set_append_right _ _ (Nat.le_refl _), Nat.sub_self, List.set_cons_zero]
  · rw [List.take_set, same, List.set_append_right _ _ (Nat.le_refl _), Nat.sub_self, List.set_cons_zero]

theorem sized_store (sized : ∀ chunk ∈ chunks, Sized capacity chunk) (stored : store chunks place value = .ok after) :
    ∀ chunk ∈ after, Sized capacity chunk := by
  obtain ⟨chunk, found, inside, rfl⟩ := exists_of_store stored
  have old := sized chunk (List.mem_of_getElem? found)
  intro changed member
  obtain kept | rfl := List.mem_or_eq_of_mem_set member
  · exact sized changed kept
  · exact ⟨old.positive, old.fits, by rw [List.length_set]; exact old.places⟩

/-- A place of some items, one of which changes. -/
theorem Holds.store_eq (holds : Holds capacity chunks items) (used : At chunks place front value rest) (other : α) :
    ∃ after, store chunks place other = .ok after ∧ At after place front other rest ∧ Holds capacity after (front ++ other :: rest) := by
  obtain ⟨after, stored, kept⟩ := used.store_eq other
  exact ⟨after, stored, kept, sized_store holds.sized stored, kept.contents_eq⟩

/-- The free place gets used. -/
theorem Open.count_eq (slot : Open capacity chunks place front value) : At (count chunks) place front value [] := by
  obtain ⟨before, left, right, rfl, rfl, sized, full, same⟩ := slot.split
  rw [count_concat]
  exact ⟨before, _, [], left, [], rfl, rfl, by simp [List.take_append], same, rfl⟩

/-- The items in use stay where they are when one more chunk is there. -/
theorem At.append (used : At chunks place front value rest) (more : List (Chunk α)) (empty : contents more = []) :
    At (chunks ++ more) place front value rest := by
  obtain ⟨before, chunk, behind, left, right, rfl, rfl, same, rfl, rfl⟩ := used.split
  refine ⟨before, chunk, behind ++ more, left, right, by rw [List.append_assoc, List.cons_append], rfl, same, rfl, ?_⟩
  rw [contents_append, empty, List.append_nil]

theorem At.reserve (used : At chunks place front value rest) : At (reserve capacity blank chunks) place front value rest := by
  rw [Chunks.reserve]
  split
  · exact used
  · exact used.append _ (by simp [contents, fresh])

/-- They also stay when the free place is used. -/
theorem At.count_store (used : At chunks place front value rest) {next : Place} {all : List α} {old item : α}
    (slot : Open capacity chunks next all old) (stored : store (count chunks) next item = .ok after) :
    At after place front value (rest ++ [item]) := by
  obtain ⟨previous, filled, spare, rfl, rfl, _, _, _⟩ := slot.split
  rw [count_concat, Chunks.store_eq List.getElem?_concat_length (by simp)] at stored
  cases stored
  rw [List.set_append_right _ _ (Nat.le_refl _), Nat.sub_self, List.set_cons_zero, List.set_append_right _ _ (Nat.le_refl _), Nat.sub_self,
    List.set_cons_zero]
  obtain ⟨before, chunk, behind, left, right, parts, rfl, same, rfl, rfl⟩ := used.split
  have last : (filled ++ item :: spare).take (filled.length + 1) = filled ++ [item] := by simp [List.take_append]
  obtain rfl | ⟨middle, final, rfl⟩ := List.eq_nil_or_concat' behind
  · obtain ⟨rfl, ends⟩ := List.append_inj' parts rfl
    cases ends
    rw [List.take_left] at same
    refine ⟨previous, _, [], left, right ++ [item], rfl, rfl, ?_, rfl, by simp [contents]⟩
    rw [last, same, List.append_assoc, List.cons_append]
  · rw [← List.cons_append, ← List.append_assoc] at parts
    obtain ⟨rfl, ends⟩ := List.append_inj' parts rfl
    cases ends
    refine ⟨before, chunk, middle ++ [⟨filled.length + 1, filled ++ item :: spare⟩], left, right, by simp, rfl, same, rfl, ?_⟩
    simp [contents, last]

/-- One more item, and the others are still at their places. -/
theorem Holds.push_eq (holds : Holds capacity chunks items) (room : 0 < capacity) (blank item : α) :
    ∃ after place, push capacity blank chunks item = .ok (after, place) ∧ Holds capacity after (items ++ [item]) ∧ At after place items item [] ∧
      ∀ {earlier front value rest}, At chunks earlier front value rest → At after earlier front value (rest ++ [item]) := by
  obtain ⟨old, slot⟩ := open_reserve holds room blank
  obtain ⟨after, stored, used, filled⟩ := slot.holds_count.store_eq slot.count_eq item
  refine ⟨after, _, ?_, filled, used, fun earlier => earlier.reserve.count_store slot stored⟩
  rw [push, stored]
  rfl

/-- The items from a place on. At the end there is no place. -/
structure Ahead (chunks : List (Chunk α)) (place : Place) (items : List α) : Prop where
  split : items = [] ∨ ∃ before chunk behind left, chunks = before ++ chunk :: behind ∧ place = ⟨before.length, left.length⟩ ∧ left.length < chunk.used ∧
    ∃ right, chunk.places.take chunk.used = left ++ right ∧ right ++ contents behind = items

theorem Holds.ahead (holds : Holds capacity chunks items) : Ahead chunks ⟨0, 0⟩ items := by
  constructor
  cases chunks with
  | nil => exact .inl holds.contents.symm
  | cons chunk behind => exact .inr ⟨[], chunk, behind, [], rfl, rfl, (holds.sized chunk List.mem_cons_self).positive, _, rfl, holds.contents⟩

/-- The next item is read, and the ones after it are ahead. -/
theorem Holds.advance_eq (holds : Holds capacity chunks items) (ahead : Ahead chunks place (value :: rest)) :
    load chunks place = .ok value ∧ Ahead chunks (advance chunks place) rest := by
  obtain none | ⟨before, chunk, behind, left, rfl, rfl, inside, right, same, whole⟩ := ahead.split
  · cases none
  have sized := holds.sized chunk (List.mem_append_right _ List.mem_cons_self)
  have lengths := congrArg List.length same
  rw [List.length_take, sized.places, Nat.min_eq_left sized.fits, List.length_append] at lengths
  cases right with
  | nil =>
    rw [List.length_nil] at lengths
    omega
  | cons first right =>
    rw [List.cons_append] at whole
    cases whole
    rw [List.length_cons] at lengths
    have here : At (before ++ chunk :: behind) ⟨before.length, left.length⟩ (Chunks.contents before ++ left) value
        (right ++ Chunks.contents behind) :=
      ⟨before, chunk, behind, left, right, rfl, rfl, same, rfl, rfl⟩
    refine ⟨here.load_eq, ?_⟩
    have used : ((before ++ chunk :: behind)[before.length]?.map Chunk.used).getD 0 = chunk.used := by simp
    rw [advance]
    dsimp only
    rw [used]
    split
    next final =>
      have none : right = [] := List.length_eq_zero_iff.mp (by omega)
      subst none
      cases behind with
      | nil => exact ⟨.inl rfl⟩
      | cons next behind =>
        refine ⟨.inr ⟨before ++ [chunk], next, behind, [], by simp, by simp, ?_, _, rfl, rfl⟩⟩
        exact (holds.sized next (List.mem_append_right _ (List.mem_cons_of_mem _ List.mem_cons_self))).positive
    next more =>
      exact ⟨.inr ⟨before, chunk, behind, left ++ [value], rfl, by simp, by rw [List.length_append, List.length_singleton]; omega, right, by
        rw [same, List.append_assoc]; rfl, rfl⟩⟩

theorem forEach_places {σ : Type} (step : σ → α → Checked σ) (state : σ) {places : List α} {used : ℕ} (inside : used ≤ places.length) :
    (List.range used).foldlM (fun state index => do step state (← places[index]?.elim (.error .read) .ok)) state =
      (places.take used).foldlM step state := by
  induction used with
  | zero => rfl
  | succ used ih =>
    rw [List.range_succ, List.foldlM_append, ih (Nat.le_of_succ_le inside), List.take_add_one, List.foldlM_append]
    refine bind_congr fun next => ?_
    rw [List.foldlM_cons, List.getElem?_eq_getElem inside]
    rfl

/-- What is done for each used place is done for each item. -/
theorem Holds.forEach_eq (holds : Holds capacity chunks items) {σ : Type} (step : σ → α → Checked σ) (state : σ) :
    forEach step state chunks = items.foldlM step state := by
  rw [← holds.contents]
  have sized := holds.sized
  clear holds
  induction chunks generalizing state with
  | nil => rfl
  | cons chunk chunks ih =>
    have own := sized chunk List.mem_cons_self
    rw [forEach, List.foldlM_cons, forEach_places step state (by rw [own.places]; exact own.fits), contents_cons, List.foldlM_append]
    refine bind_congr fun next => ?_
    exact ih next fun other member => sized other (List.mem_cons_of_mem _ member)

end Chunks
end Pclsync.Library
