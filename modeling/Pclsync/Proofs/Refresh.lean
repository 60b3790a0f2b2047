import Pclsync.Diff.Refresh

/-! The refreshed folders against the collected ones. Since the sort leaves the array as it is, a folder is refreshed
once only if nothing else was collected between the times that it was. -/

namespace Pclsync.Proofs.Refresh
open Diff.Refresh

section Quick

/-- All of the first run are below those of the second, so none of the second comes earlier. -/
theorem mergeRuns_apart {left right : List Pointer} (apart : ∀ x ∈ left, ∀ y ∈ right, x.1 < y.1) :
    mergeRuns cmpFolderid left right = left ++ right := by
  induction left with
  | nil => rw [mergeRuns, List.nil_append]
  | cons x left ih =>
    cases right with
    | nil => rw [mergeRuns, List.append_nil]
    | cons y right =>
      have less : cmpFolderid x y ≤ 0 := by
        rw [cmpFolderid, if_pos (apart x List.mem_cons_self y List.mem_cons_self)]
        decide
      rw [mergeRuns, if_pos less, ih fun z inside => apart z (List.mem_cons_of_mem x inside)]
      rfl

theorem places_snd (base : ℕ) (items : List FolderId) : (places base items).map Prod.snd = items := by
  induction items generalizing base with
  | nil => rfl
  | cons item rest ih => rw [places, List.map_cons, ih]

theorem places_bounds {base : ℕ} {items : List FolderId} {pointer : Pointer} (inside : pointer ∈ places base items) :
    base ≤ pointer.1 ∧ pointer.1 < base + 8 * items.length := by
  induction items generalizing base with
  | nil => exact absurd inside List.not_mem_nil
  | cons item rest ih =>
    rw [List.length_cons]
    rcases List.mem_cons.mp inside with rfl | later
    · dsimp only
      omega
    · have bounds := ih later
      omega

/-- The sort compares places, so nothing moves. -/
theorem qsort_same (base : ℕ) (items : List FolderId) : qsort cmpFolderid base items = items := by
  fun_induction qsort cmpFolderid base items with
  | case1 base items few => rfl
  | case2 base items many half left right lower upper =>
    have lowerSame : left = items.take half := lower
    have upperSame : right = items.drop half := upper
    have apart : ∀ x ∈ places base left, ∀ y ∈ places (base + 8 * half) right, x.1 < y.1 := by
      intro x first y second
      have one := (places_bounds first).2
      have two := (places_bounds second).1
      rw [lowerSame, List.length_take] at one
      omega
    rw [mergeRuns_apart apart, List.map_append, places_snd, places_snd, lowerSame, upperSame]
    exact List.take_append_drop half items

end Quick

section Skip

variable {items more : List FolderId} {last other : UInt64} {id : FolderId}

theorem mem_of_mem_skip (inside : id ∈ skipRepeated last items) : id ∈ items := by
  induction items generalizing last with
  | nil => exact inside
  | cons item rest ih =>
    unfold skipRepeated at inside
    split at inside
    · rcases List.mem_cons.mp inside with rfl | later
      · exact List.mem_cons_self
      · exact List.mem_cons_of_mem item (ih later)
    · exact List.mem_cons_of_mem item (ih inside)

theorem mem_skip (inside : id ∈ items) : id ∈ skipRepeated last items ∨ id.val = last := by
  induction items generalizing last with
  | nil => exact absurd inside List.not_mem_nil
  | cons item rest ih =>
    unfold skipRepeated
    by_cases differ : item.val ≠ last
    · rw [if_pos differ]
      rcases List.mem_cons.mp inside with rfl | later
      · exact .inl List.mem_cons_self
      · rcases ih later with found | same
        · exact .inl (List.mem_cons_of_mem item found)
        · rw [Subtype.ext same]
          exact .inl List.mem_cons_self
    · rw [if_neg differ]
      rcases List.mem_cons.mp inside with rfl | later
      · exact .inr (not_not.mp differ)
      · exact ih later

/-- Between two collections of the same folder nothing else was collected. -/
def Together (items : List FolderId) : Prop :=
  ∀ before id between rest, items = before ++ id :: (between ++ id :: rest) → ∀ other ∈ between, other = id

theorem together_cons : Together (id :: items) ↔
    (∀ between rest, items = between ++ id :: rest → ∀ other ∈ between, other = id) ∧ Together items := by
  constructor
  · intro together
    refine ⟨fun between rest same => together [] id between rest (by rw [same]; rfl), fun before other between rest same => ?_⟩
    exact together (id :: before) other between rest (by rw [same]; rfl)
  · rintro ⟨first, others⟩ before other between rest same
    cases before with
    | nil =>
      obtain ⟨rfl, tail⟩ := List.cons.inj same
      exact first between rest tail
    | cons head before =>
      obtain ⟨-, tail⟩ := List.cons.inj same
      exact others before other between rest tail

/-- A folder that is collected twice in a row. -/
theorem together_same : Together (id :: id :: items) ↔ Together (id :: items) := by
  rw [together_cons, and_iff_right_iff_imp, together_cons]
  rintro ⟨first, -⟩ between rest same other inside
  cases between with
  | nil => exact absurd inside List.not_mem_nil
  | cons head between =>
    obtain ⟨rfl, tail⟩ := List.cons.inj same
    rcases List.mem_cons.mp inside with rfl | later
    · rfl
    · exact first between rest tail other later

/-- Once another one was collected, a folder must not come again. -/
theorem together_other {next : FolderId} (differ : next ≠ id) :
    Together (id :: next :: items) ↔ id ∉ items ∧ Together (next :: items) := by
  rw [together_cons, and_congr_left_iff]
  intro _
  constructor
  · intro alone inside
    obtain ⟨between, rest, same⟩ := List.append_of_mem inside
    exact differ (alone (next :: between) rest (by rw [same]; rfl) next List.mem_cons_self)
  · intro absent between rest same other inside
    cases between with
    | nil => exact absurd inside List.not_mem_nil
    | cons head between =>
      obtain ⟨-, tail⟩ := List.cons.inj same
      refine absurd ?_ absent
      rw [tail]
      exact List.mem_append_right between List.mem_cons_self

/-- The folders are refreshed once each if the same ones were collected together. -/
theorem nodup_skip : (id :: skipRepeated id.val items).Nodup ↔ Together (id :: items) := by
  induction items generalizing id with
  | nil =>
    refine iff_of_true (List.nodup_singleton id) ?_
    rintro before other between rest same
    have lengths := congrArg List.length same
    simp only [List.length_append, List.length_cons, List.length_nil] at lengths
    omega
  | cons next rest ih =>
    unfold skipRepeated
    by_cases differ : next.val ≠ id.val
    · have apart : next ≠ id := fun same => differ (congrArg Subtype.val same)
      rw [if_pos differ, List.nodup_cons, ih, together_other apart]
      refine and_congr_left fun _ => not_congr ?_
      constructor
      · intro inside
        rcases List.mem_cons.mp inside with same | later
        · exact absurd same.symm apart
        · exact mem_of_mem_skip later
      · intro inside
        rcases @mem_skip rest next.val id inside with found | same
        · exact List.mem_cons_of_mem next found
        · exact absurd (Subtype.ext same).symm apart
    · have same : next = id := Subtype.ext (not_not.mp differ)
      subst same
      rw [if_neg differ, ih, together_same]

/-- Each of the items is refreshed once, and nothing else. -/
def Exactly (collected refreshed : List FolderId) : Prop := ∀ id, refreshed.count id = if id ∈ collected then 1 else 0

theorem exactly_iff : Exactly items (skipRepeated invalidFolderid items) ↔ Together items := by
  have members : ∀ id, id ∈ skipRepeated invalidFolderid items ↔ id ∈ items := by
    intro id
    refine ⟨mem_of_mem_skip, fun inside => ?_⟩
    rcases @mem_skip items invalidFolderid id inside with found | same
    · exact found
    · exact absurd same id.property
  have once : Exactly items (skipRepeated invalidFolderid items) ↔ (skipRepeated invalidFolderid items).Nodup := by
    constructor
    · intro exactly
      refine List.nodup_iff_count_le_one.mpr fun id => ?_
      rw [exactly id]
      split <;> omega
    · intro nodup id
      by_cases inside : id ∈ items
      · rw [if_pos inside]
        exact List.count_eq_one_of_mem nodup ((members id).mpr inside)
      · rw [if_neg inside]
        exact List.count_eq_zero.mpr (mt (members id).mp inside)
  rw [once]
  cases items with
  | nil =>
    refine iff_of_true List.nodup_nil ?_
    rintro before other between rest same
    have lengths := congrArg List.length same
    simp only [List.length_append, List.length_cons, List.length_nil] at lengths
    omega
  | cons id rest =>
    rw [skipRepeated, if_pos id.property]
    exact nodup_skip

end Skip

section Run

variable {s : State} {base : ℕ} {events : List Event}

/-- The id that the next one is compared with. -/
def lastOf (last : UInt64) : List FolderId → UInt64
  | [] => last
  | id :: rest => lastOf id.val rest

theorem skip_append (last : UInt64) (items more : List FolderId) :
    skipRepeated last (items ++ more) = skipRepeated last items ++ skipRepeated (lastOf last items) more := by
  induction items generalizing last with
  | nil => rfl
  | cons id rest ih =>
    rw [List.cons_append, skipRepeated, skipRepeated, lastOf]
    by_cases differ : id.val ≠ last
    · rw [if_pos differ, if_pos differ, ih, List.cons_append]
    · rw [if_neg differ, if_neg differ, ih, not_not.mp differ]

theorem lastOf_append (last : UInt64) (items more : List FolderId) : lastOf last (items ++ more) = lastOf (lastOf last items) more := by
  induction items generalizing last with
  | nil => rfl
  | cons id rest ih => exact ih id.val

/-- Skipping twice is skipping once, wherever the second time starts. -/
theorem skip_skip (last other : UInt64) (items : List FolderId) (valid : other = last ∨ other = invalidFolderid) :
    skipRepeated last (skipRepeated other items) = skipRepeated last items ∧
      lastOf last (skipRepeated other items) = lastOf last items := by
  induction items generalizing last other with
  | nil => exact ⟨rfl, rfl⟩
  | cons id rest ih =>
    have inner := ih id.val id.val (.inl rfl)
    by_cases differ : id.val ≠ other
    · rw [skipRepeated, if_pos differ, skipRepeated, skipRepeated, lastOf, lastOf]
      by_cases again : id.val ≠ last
      · rw [if_pos again, if_pos again, inner.1]
        exact ⟨rfl, inner.2⟩
      · rw [if_neg again, if_neg again, ← not_not.mp again]
        exact ⟨inner.1, inner.2⟩
    · have same : id.val = other := not_not.mp differ
      have lastSame : other = last := by
        rcases valid with same | invalid
        · exact same
        · exact absurd (same.trans invalid) id.property
      subst lastSame
      have outer := ih other other (.inl rfl)
      have step : skipRepeated other (id :: rest) = skipRepeated other rest := by rw [skipRepeated, if_neg differ]
      rw [step, lastOf, same]
      exact outer

/-- An array that refreshes what was collected. -/
structure Stands (array collected : List FolderId) : Prop where
  skip : skipRepeated invalidFolderid array = skipRepeated invalidFolderid collected
  last : lastOf invalidFolderid array = lastOf invalidFolderid collected

theorem Stands.append {array collected : List FolderId} (stands : Stands array collected) (more : List FolderId) :
    Stands (array ++ more) (collected ++ more) := by
  constructor
  · rw [skip_append, skip_append, stands.skip, stands.last]
  · rw [lastOf_append, lastOf_append, stands.last]

theorem Stands.parents {array collected : List FolderId} (stands : Stands array collected) (more : List FolderId) :
    Stands (array ++ skipRepeated invalidFolderid more) (collected ++ more) := by
  obtain ⟨skip, last⟩ := skip_skip (lastOf invalidFolderid array) invalidFolderid more (.inr rfl)
  constructor
  · rw [skip_append, skip_append, skip, stands.skip, stands.last]
  · rw [lastOf_append, lastOf_append, last, stands.last]

/-- The lists of ids that were collected for each thread. -/
def collected : List FolderId → List Event → List (List FolderId)
  | _, [] => []
  | ids, .collect need folderid :: rest => collected (if need then ids ++ [folderid] else ids) rest
  | ids, .batch need entries :: rest =>
    if need then
      if ids ++ parents entries = [] then collected [] rest else (ids ++ parents entries) :: collected [] rest
    else collected ids rest

/-- The arrays that are handed over, and the one that is left. -/
def arrays : List FolderId → List Event → List (List FolderId) × List FolderId
  | ids, [] => ([], ids)
  | ids, .collect need folderid :: rest => arrays (if need then ids ++ [folderid] else ids) rest
  | ids, .batch need entries :: rest =>
    if need then
      let array := ids ++ skipRepeated invalidFolderid (parents entries)
      if array = [] then arrays [] rest else (array :: (arrays [] rest).1, (arrays [] rest).2)
    else arrays ids rest

theorem collected_arrays {array ids : List FolderId} (stands : Stands array ids) (empty : array = [] ↔ ids = []) (events : List Event) :
    List.Forall₂ Stands (arrays array events).1 (collected ids events) := by
  induction events generalizing array ids with
  | nil => exact .nil
  | cons event rest ih =>
    have fresh : Stands [] [] := ⟨rfl, rfl⟩
    cases event with
    | collect need folderid =>
      unfold arrays collected
      cases need with
      | false => exact ih stands empty
      | true => exact ih (stands.append [folderid]) (by simp)
    | batch need entries =>
      unfold arrays collected
      cases need with
      | false => exact ih stands empty
      | true =>
        have first : skipRepeated invalidFolderid (parents entries) = [] ↔ parents entries = [] := by
          cases parents entries with
          | nil => exact Iff.rfl
          | cons id more =>
            rw [skipRepeated, if_pos id.property]
            exact iff_of_false (List.cons_ne_nil _ _) (List.cons_ne_nil _ _)
        have both : array ++ skipRepeated invalidFolderid (parents entries) = [] ↔ ids ++ parents entries = [] := by
          rw [List.append_eq_nil_iff, List.append_eq_nil_iff, empty, first]
        simp only [ite_true]
        by_cases none : ids ++ parents entries = []
        · rw [if_pos none, if_pos (both.mpr none)]
          exact ih fresh Iff.rfl
        · rw [if_neg none, if_neg (mt both.mp none)]
          exact .cons (stands.parents _) (ih fresh Iff.rfl)

/-- The size of the array is a power of two, and its items are inside. -/
structure Room (s : State) : Prop where
  inside : s.folders.length ≤ s.allocated
  power : s.allocated = 0 ∨ ∃ power, 3 ≤ power ∧ power ≤ 31 ∧ s.allocated = 2 ^ power

/-- An id is put behind the others while there are not too many. -/
theorem addFolder_room (room : Room s) (folderid : FolderId) :
    if s.folders.length < 2 ^ 31 then
      ∃ after, addFolder true s folderid = some after ∧ after.folders = s.folders ++ [folderid] ∧ Room after
    else addFolder true s folderid = none := by
  obtain ⟨inside, power⟩ := room
  obtain ⟨folders, allocated⟩ := s
  dsimp only at inside power ⊢
  have written : ∀ size, folders.length < size → (size = 0 ∨ ∃ power, 3 ≤ power ∧ power ≤ 31 ∧ size = 2 ^ power) →
      (if allocated = folders.length then (if allocated ≠ 0 then allocated * 2 % 2 ^ 32 else 8) else allocated) = size →
      ∃ after, addFolder true ⟨folders, allocated⟩ folderid = some after ∧ after.folders = folders ++ [folderid] ∧ Room after := by
    intro size larger sizePower same
    refine ⟨⟨folders ++ [folderid], size⟩, ?_, rfl, ?_, sizePower⟩
    · unfold addFolder
      dsimp only
      rw [same, if_pos rfl, if_pos larger]
    · dsimp only
      rw [List.length_append, List.length_singleton]
      exact larger
  by_cases full : allocated = folders.length
  · rcases power with zero | ⟨power, low, high, size⟩
    · rw [if_pos (by omega)]
      refine written 8 (by omega) (.inr ⟨3, by decide, by decide, rfl⟩) ?_
      rw [if_pos full, if_neg (not_not.mpr zero)]
    · have positive : allocated ≠ 0 := by
        rw [size]
        exact (Nat.two_pow_pos power).ne'
      by_cases small : power < 31
      · have below : 2 ^ power < 2 ^ 31 := Nat.pow_lt_pow_right (by decide) small
        have next : allocated * 2 = 2 ^ (power + 1) := by rw [size, pow_succ]
        rw [if_pos (by omega)]
        refine written (allocated * 2) (by omega) (.inr ⟨power + 1, by omega, small, next⟩) ?_
        rw [if_pos full, if_pos positive, Nat.mod_eq_of_lt (by omega)]
      · have top : power = 31 := by omega
        subst top
        rw [if_neg (by omega)]
        unfold addFolder
        dsimp only
        rw [if_pos rfl, if_pos full, if_pos positive, size, if_neg]
        omega
  · have least : folders.length < allocated := by omega
    have bound : allocated ≤ 2 ^ 31 := by
      rcases power with zero | ⟨power, -, high, size⟩
      · omega
      · rw [size]
        exact Nat.pow_le_pow_right (by decide) high
    rw [if_pos (by omega)]
    exact written allocated least power (if_neg full)

theorem Room.small (room : Room s) : s.folders.length ≤ 2 ^ 31 := by
  obtain ⟨inside, zero | ⟨power, -, high, size⟩⟩ := room
  · omega
  · have bound : 2 ^ power ≤ 2 ^ 31 := Nat.pow_le_pow_right (by decide) high
    omega

theorem addParents_room (room : Room s) (last : UInt64) (entries : List Entry) :
    if (s.folders ++ skipRepeated last (parents entries)).length ≤ 2 ^ 31 then
      ∃ after, addParents s last entries = some after ∧ after.folders = s.folders ++ skipRepeated last (parents entries) ∧ Room after
    else addParents s last entries = none := by
  induction entries generalizing s last with
  | nil =>
    have same : s.folders ++ skipRepeated last (parents []) = s.folders := List.append_nil _
    rw [same, if_pos room.small]
    exact ⟨s, rfl, rfl, room⟩
  | cons entry rest ih =>
    rcases entry with _ | _ | folderid
    · exact ih room last
    · exact ih room last
    · have listed : parents (some (some folderid) :: rest) = folderid :: parents rest := rfl
      rw [listed]
      unfold skipRepeated addParents
      by_cases again : folderid.val = last
      · rw [if_neg (not_not.mpr again), if_pos again]
        exact ih room last
      · have added := addFolder_room room folderid
        rw [if_pos again, if_neg again]
        by_cases space : s.folders.length < 2 ^ 31
        · rw [if_pos space] at added
          obtain ⟨after, written, folders, roomAfter⟩ := added
          have others := ih roomAfter folderid.val
          rw [folders, List.append_assoc, List.singleton_append] at others
          rw [written]
          exact others
        · rw [if_neg space] at added
          rw [added, if_neg]
          · rfl
          · rw [List.length_append, List.length_cons]
            omega

/-- No array has more than `2 ^ 31` ids. -/
def Small (result : List (List FolderId) × List FolderId) : Prop :=
  (∀ array ∈ result.1, array.length ≤ 2 ^ 31) ∧ result.2.length ≤ 2 ^ 31

theorem not_small {ids : List FolderId} (long : 2 ^ 31 < ids.length) (events : List Event) : ¬Small (arrays ids events) := by
  induction events generalizing ids with
  | nil => exact fun small => absurd small.2 (Nat.not_le.mpr long)
  | cons event rest ih =>
    cases event with
    | collect need folderid =>
      unfold arrays
      cases need with
      | false => exact ih long
      | true =>
        refine ih ?_
        simp only [ite_true, List.length_append]
        omega
    | batch need entries =>
      unfold arrays
      cases need with
      | false => exact ih long
      | true =>
        have longer : 2 ^ 31 < (ids ++ skipRepeated invalidFolderid (parents entries)).length := by
          rw [List.length_append]
          omega
        have some : ids ++ skipRepeated invalidFolderid (parents entries) ≠ [] := by
          intro none
          rw [none, List.length_nil] at longer
          omega
        simp only [ite_true]
        rw [if_neg some]
        exact fun small => absurd (small.1 _ List.mem_cons_self) (Nat.not_le.mpr longer)

/-- The arrays are those that the threads get. -/
theorem run_arrays (room : Room s) (events : List Event) :
    (Small (arrays s.folders events) → ∃ after, run base s events = some (after, (arrays s.folders events).1.map (refreshThread base))) ∧
      (¬Small (arrays s.folders events) → run base s events = none) := by
  induction events generalizing s with
  | nil => exact ⟨fun _ => ⟨s, rfl⟩, fun large => absurd ⟨fun _ none => absurd none List.not_mem_nil, room.small⟩ large⟩
  | cons event rest ih =>
    cases event with
    | collect need folderid =>
      cases need with
      | false => exact ih room
      | true =>
        have added := addFolder_room room folderid
        unfold arrays run
        simp only [ite_true]
        by_cases space : s.folders.length < 2 ^ 31
        · rw [if_pos space] at added
          obtain ⟨after, written, folders, roomAfter⟩ := added
          rw [written, ← folders]
          exact ih roomAfter
        · rw [if_neg space] at added
          have long : 2 ^ 31 < (s.folders ++ [folderid]).length := by
            rw [List.length_append, List.length_singleton]
            omega
          rw [added]
          exact ⟨fun small => absurd small (not_small long rest), fun _ => rfl⟩
    | batch need entries =>
      cases need with
      | false =>
        have others := @ih s room
        unfold arrays run
        simp only [refreshFs, Bool.false_eq_true, ite_false, Option.bind_some]
        refine ⟨fun small => ?_, fun large => ?_⟩
        · obtain ⟨after, ran⟩ := others.1 small
          exact ⟨after, by rw [ran]; rfl⟩
        · rw [others.2 large]
          rfl
      | true =>
        have added := addParents_room room invalidFolderid entries
        unfold arrays run
        simp only [refreshFs, ite_true]
        by_cases fits : (s.folders ++ skipRepeated invalidFolderid (parents entries)).length ≤ 2 ^ 31
        · rw [if_pos fits] at added
          obtain ⟨after, written, folders, roomAfter⟩ := added
          rw [written, ← folders]
          simp only [Option.map_some, Option.bind_some]
          by_cases none : after.folders = []
          · have others := @ih after roomAfter
            rw [none] at others
            rw [if_pos none, if_pos none]
            refine ⟨fun small => ?_, fun large => ?_⟩
            · obtain ⟨final, ran⟩ := others.1 small
              exact ⟨final, by rw [ran]; rfl⟩
            · rw [others.2 large]
              rfl
          · have fresh : Room ⟨[], 0⟩ := ⟨le_rfl, .inl rfl⟩
            have others := @ih ⟨[], 0⟩ fresh
            rw [if_neg none, if_neg none]
            refine ⟨fun small => ?_, fun large => ?_⟩
            · obtain ⟨final, ran⟩ := others.1 ⟨fun array inside => small.1 array (List.mem_cons_of_mem _ inside), small.2⟩
              exact ⟨final, by rw [ran]; rfl⟩
            · have rest' : ¬Small (arrays [] rest) := by
                intro small
                refine large ⟨fun array inside => ?_, small.2⟩
                rcases List.mem_cons.mp inside with rfl | later
                · rw [folders]
                  exact fits
                · exact small.1 array later
              rw [others.2 rest']
              rfl
        · rw [if_neg fits] at added
          rw [added]
          have some : s.folders ++ skipRepeated invalidFolderid (parents entries) ≠ [] := by
            intro none
            rw [none, List.length_nil] at fits
            omega
          rw [if_neg some]
          exact ⟨fun small => absurd (small.1 _ List.mem_cons_self) fits, fun _ => rfl⟩

end Run

section Refresh

variable (base : ℕ) (events : List Event)

/-- Each thread refreshes what was collected for it, once each. -/
def Meets : Prop :=
  ∃ after refreshed, run base ⟨[], 0⟩ events = some (after, refreshed) ∧ List.Forall₂ Exactly (collected [] events) refreshed

/-- The same folder is collected for a thread only in a row, and no array gets too large. -/
def Fits : Prop := (∀ ids ∈ collected [] events, Together ids) ∧ Small (arrays [] events)

theorem threads_exactly {handed lists : List (List FolderId)} (stands : List.Forall₂ Stands handed lists) :
    List.Forall₂ Exactly lists (handed.map (refreshThread base)) ↔ ∀ ids ∈ lists, Together ids := by
  induction stands with
  | nil => exact iff_of_true .nil fun ids none => absurd none List.not_mem_nil
  | @cons array ids handed lists stand rest ih =>
    have same : refreshThread base array = skipRepeated invalidFolderid ids := by
      rw [refreshThread, qsort_same, stand.skip]
    rw [List.map_cons, List.forall₂_cons, ih, same, exactly_iff, List.forall_mem_cons]

theorem fits_of_meets (meets : Meets base events) : Fits events := by
  have fresh : Room ⟨[], 0⟩ := ⟨le_rfl, .inl rfl⟩
  obtain ⟨small, large⟩ := @run_arrays ⟨[], 0⟩ base fresh events
  obtain ⟨after, refreshed, ran, all⟩ := meets
  have fits : Small (arrays [] events) := by
    by_contra none
    rw [large none] at ran
    cases ran
  obtain ⟨final, same⟩ := small fits
  rw [ran] at same
  cases same
  exact ⟨(threads_exactly base (collected_arrays ⟨rfl, rfl⟩ Iff.rfl events)).mp all, fits⟩

/-- Every folder is refreshed once exactly if it was not collected again after another one. -/
theorem refresh_iff : Meets base events ↔ Fits events := by
  refine ⟨fits_of_meets base events, fun ⟨together, fits⟩ => ?_⟩
  have fresh : Room ⟨[], 0⟩ := ⟨le_rfl, .inl rfl⟩
  obtain ⟨final, ran⟩ := (@run_arrays ⟨[], 0⟩ base fresh events).1 fits
  exact ⟨final, _, ran, (threads_exactly base (collected_arrays ⟨rfl, rfl⟩ Iff.rfl events)).mpr together⟩

/-- The folders 1, 2 and 1 again. -/
def again : List Event := [.batch true [some (some ⟨1, by decide⟩), some (some ⟨2, by decide⟩), some (some ⟨1, by decide⟩)]]

theorem refreshed_twice : ¬Meets 0 again := by
  intro meets
  have listed : collected [] again = [[⟨1, by decide⟩, ⟨2, by decide⟩, ⟨1, by decide⟩]] := rfl
  have together := (fits_of_meets 0 again meets).1
  rw [listed] at together
  have same := together _ (List.mem_singleton_self _) [] ⟨1, by decide⟩ [⟨2, by decide⟩] [] rfl ⟨2, by decide⟩ (List.mem_singleton_self _)
  exact absurd (congrArg Subtype.val same) (by decide)

end Refresh

end Pclsync.Proofs.Refresh
