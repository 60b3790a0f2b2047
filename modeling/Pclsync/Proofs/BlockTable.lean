import Pclsync.Net.BlockTable

/-! Lookups in the table of block checksums. The table holds one block for each
pair of checksums, the head of a chain of all blocks with that pair; building,
removing and matching keep this. -/

namespace Pclsync.Proofs.BlockTable
open Pclsync.Net.BlockTable Library.Probing

variable {α : Type} {blocks : ℕ → BlockChecksum α} {size count : ℕ} {elements : Elements}
variable {next : ℕ → Option ℕ} {present : ℕ → Prop} {idx i slot : ℕ} {chain : List ℕ}

section Chains

/-- The blocks that `next` leads to from a block on. -/
inductive Chain (next : ℕ → Option ℕ) : ℕ → List ℕ → Prop
  | last {idx : ℕ} : next idx = none → Chain next idx [idx]
  | link {idx other : ℕ} {rest : List ℕ} : next idx = some other → Chain next other rest → Chain next idx (idx :: rest)

theorem Chain.unique {other : List ℕ} (first : Chain next idx chain) (second : Chain next idx other) : chain = other := by
  induction first generalizing other with
  | last ends =>
    cases second with
    | last _ => rfl
    | link goes _ =>
      rw [ends] at goes
      cases goes
  | link goes rest ih =>
    cases second with
    | last ends =>
      rw [ends] at goes
      cases goes
    | link also other_rest =>
      rw [goes] at also
      cases also
      rw [ih other_rest]

theorem Chain.update (linked : Chain next idx chain) (outside : i ∉ chain) (link : Option ℕ) :
    Chain (Function.update next i link) idx chain := by
  induction linked with
  | last ends =>
    have apart := List.ne_of_not_mem_cons outside
    exact .last (by rw [Function.update_of_ne apart.symm, ends])
  | link goes rest ih =>
    have apart := List.ne_of_not_mem_cons outside
    exact .link (by rw [Function.update_of_ne apart.symm, goes]) (ih (List.not_mem_of_not_mem_cons outside))

theorem Chain.head_mem (linked : Chain next idx chain) : idx ∈ chain := by
  cases linked <;> exact List.mem_cons_self

/-- Marking goes through the whole chain. -/
theorem markChain_eq (linked : Chain next idx chain) (nodup : chain.Nodup) (action : BlockAction) {fuel : ℕ}
    (enough : chain.length ≤ fuel) (blockactions : ℕ → BlockAction) :
    ∃ marked, markChain next action fuel idx blockactions = some marked ∧
      ∀ j, marked j = if j ∈ chain then action else blockactions j := by
  induction linked generalizing fuel blockactions with
  | last ends =>
    cases fuel with
    | zero => exact absurd enough (by simp)
    | succ fuel =>
      refine ⟨_, by rw [markChain, ends], fun j => ?_⟩
      rw [Function.update_apply]
      simp only [List.mem_singleton]
  | @link idx other rest goes linked ih =>
    rw [List.length_cons] at enough
    cases fuel with
    | zero => exact absurd enough (by simp)
    | succ fuel =>
      obtain ⟨outside, nodup⟩ := List.nodup_cons.mp nodup
      obtain ⟨marked, done, right⟩ := ih nodup (Nat.le_of_succ_le_succ enough) (Function.update blockactions idx action)
      refine ⟨marked, by rw [markChain, goes]; exact done, fun j => ?_⟩
      rw [right j, Function.update_apply]
      by_cases here : j = idx
      · simp only [here, outside, if_true, if_false, List.mem_cons_self]
      · simp only [here, if_false, List.mem_cons, false_or]

end Chains

section Table

/-- The table holds the head of a chain for each SHA1 of the blocks present, and
the chain holds all of them. -/
structure Holds (blocks : ℕ → BlockChecksum α) (size : ℕ) (elements : Elements) (next : ℕ → Option ℕ)
    (present : ℕ → Prop) : Prop where
  reached : Reached size (home blocks size) elements
  once : Once size elements
  unique : ∀ first last, Has size elements first → Has size elements last →
    (blocks first).sha1 = (blocks last).sha1 → first = last
  chains : ∀ idx, Has size elements idx → ∃ chain, Chain next idx chain ∧ chain.Nodup ∧
    ∀ j ∈ chain, present j ∧ (blocks j).sha1 = (blocks idx).sha1
  covered : ∀ j, present j → ∃ idx chain, Has size elements idx ∧ Chain next idx chain ∧ j ∈ chain

/-- Blocks with the same SHA1 have the same Adler-32 too. -/
def Consistent (blocks : ℕ → BlockChecksum α) (count : ℕ) : Prop :=
  ∀ first < count, ∀ last < count, (blocks first).sha1 = (blocks last).sha1 → (blocks first).adler = (blocks last).adler

theorem Holds.held (holds : Holds blocks size elements next present) (has : Has size elements idx) : present idx := by
  obtain ⟨chain, linked, _, right⟩ := holds.chains idx has
  exact (right idx linked.head_mem).1

/-- A chain is made of all blocks present with the SHA1 of its head. -/
theorem Holds.mem_chain (holds : Holds blocks size elements next present) (has : Has size elements idx)
    (linked : Chain next idx chain) (j : ℕ) : j ∈ chain ↔ present j ∧ (blocks j).sha1 = (blocks idx).sha1 := by
  obtain ⟨same_chain, also, _, right⟩ := holds.chains idx has
  cases linked.unique also
  constructor
  · exact right j
  · rintro ⟨here, same⟩
    obtain ⟨other, chain', has', linked', member⟩ := holds.covered j here
    obtain ⟨_, also', _, right'⟩ := holds.chains other has'
    cases linked'.unique also'
    have one := holds.unique idx other has has' (same.symm.trans (right' j member).2)
    subst one
    cases linked.unique linked'
    exact member

theorem Holds.vacant (holds : Holds blocks size elements next present) (bounded : ∀ j, present j → j < count)
    (few : count < size) : ∃ vacant < size, elements vacant = none :=
  exists_vacant holds.once (fun _ has => bounded _ (holds.held has)) few

theorem home_lt (blocks : ℕ → BlockChecksum α) (positive : 0 < size) (idx : ℕ) : home blocks size idx < size :=
  Nat.mod_lt _ positive

end Table

section Seek
variable [DecidableEq α]

/-- What the search for a place has seen. -/
def SeekRight (blocks : ℕ → BlockChecksum α) (size : ℕ) (elements : Elements) (sha1 : α) (start : ℕ) : Sought → Prop
  | .chained slot idx => slot < size ∧ elements slot = some idx ∧ sha1 = (blocks idx).sha1
  | .vacant slot => slot < size ∧ elements slot = none ∧ ∀ place < size, gap size start place < gap size start slot →
      ∃ idx, elements place = some idx ∧ sha1 ≠ (blocks idx).sha1
  | .ignored => maxAdlerColl < size ∧ ∀ place < size, gap size start place ≤ maxAdlerColl →
      ∃ idx, elements place = some idx ∧ sha1 ≠ (blocks idx).sha1

theorem seek_right {sha1 : α} {start vacant left : ℕ} (start_lt : start < size) (vacant_lt : vacant < size)
    (is_vacant : elements vacant = none) (slot_lt : slot < size) (steps : gap size start slot + left = maxAdlerColl)
    (failed : ∀ place < size, gap size start place < gap size start slot →
      ∃ idx, elements place = some idx ∧ sha1 ≠ (blocks idx).sha1) :
    SeekRight blocks size elements sha1 start (seek blocks size elements sha1 left slot) := by
  induction left generalizing slot with
  | zero =>
    rw [seek]
    cases content : elements slot with
    | none => exact ⟨slot_lt, content, failed⟩
    | some idx =>
      dsimp only
      by_cases same : sha1 = (blocks idx).sha1
      · rw [if_pos same]
        exact ⟨slot_lt, content, same⟩
      · rw [if_neg same]
        have seen : ∀ place < size, gap size start place ≤ maxAdlerColl →
            ∃ idx, elements place = some idx ∧ sha1 ≠ (blocks idx).sha1 := by
          intro place place_lt near
          rcases Nat.lt_or_eq_of_le near with before | here
          · exact failed place place_lt (by omega)
          · rw [gap_right start_lt place_lt slot_lt (by omega)]
            exact ⟨idx, content, same⟩
        refine ⟨?_, seen⟩
        have around := gap_lt start_lt slot_lt
        omega
  | succ left ih =>
    rw [seek]
    cases content : elements slot with
    | none => exact ⟨slot_lt, content, failed⟩
    | some idx =>
      dsimp only
      by_cases same : sha1 = (blocks idx).sha1
      · rw [if_pos same]
        exact ⟨slot_lt, content, same⟩
      · rw [if_neg same]
        have seen : ∀ place < size, gap size start place < gap size start slot + 1 →
            ∃ idx, elements place = some idx ∧ sha1 ≠ (blocks idx).sha1 := by
          intro place place_lt near
          rcases Nat.lt_or_eq_of_le (Nat.le_of_lt_succ near) with before | here
          · exact failed place place_lt before
          · rw [gap_right start_lt place_lt slot_lt here]
            exact ⟨idx, content, same⟩
        have open_still : gap size start slot + 1 < size := by
          by_contra closed
          have near := gap_lt start_lt vacant_lt
          obtain ⟨entry, full, _⟩ := seen vacant vacant_lt (by omega)
          rw [is_vacant] at full
          cases full
        have step := gap_after start_lt slot_lt open_still
        apply ih (after_lt slot_lt) (by omega)
        rw [step]
        exact seen

end Seek

section Insert

/-- A block with a new SHA1 in a vacant slot. -/
theorem Holds.fill (holds : Holds blocks size elements next present) (positive : 0 < size) (new : ¬ present i)
    (unlinked : next i = none)
    (consistent : ∀ j, present j → (blocks j).sha1 = (blocks i).sha1 → (blocks j).adler = (blocks i).adler)
    (slot_lt : slot < size) (is_vacant : elements slot = none)
    (way : ∀ place < size, gap size (home blocks size i) place < gap size (home blocks size i) slot →
      ∃ idx, elements place = some idx ∧ (blocks i).sha1 ≠ (blocks idx).sha1) :
    Holds blocks size (Function.update elements slot (some i)) next fun j => present j ∨ j = i := by
  have has := @has_fill ℕ size elements slot i slot_lt is_vacant
  have fresh : ∀ idx, Has size elements idx → (blocks idx).sha1 ≠ (blocks i).sha1 := by
    rintro idx ⟨place, place_lt, filled⟩ same
    have same_home : home blocks size idx = home blocks size i := by
      rw [home, home, consistent idx (holds.held ⟨place, place_lt, filled⟩) same]
    have before := holds.reached.before (home_lt blocks positive idx) slot_lt is_vacant place_lt filled
    rw [same_home] at before
    obtain ⟨other, also, different⟩ := way place place_lt before
    rw [filled] at also
    cases also
    exact different same.symm
  constructor
  · apply holds.reached.fill
    intro place place_lt near full
    obtain ⟨other, also, _⟩ := way place place_lt near
    rw [full] at also
    cases also
  · exact once_fill holds.once fun old => new (holds.held old)
  · intro first last has_first has_last same
    rcases (has first).mp has_first with old | rfl
    · rcases (has last).mp has_last with also | rfl
      · exact holds.unique first last old also same
      · exact absurd same (fresh first old)
    · rcases (has last).mp has_last with also | rfl
      · exact absurd same.symm (fresh last also)
      · rfl
  · intro idx has_idx
    rcases (has idx).mp has_idx with old | rfl
    · obtain ⟨chain, linked, nodup, right⟩ := holds.chains idx old
      exact ⟨chain, linked, nodup, fun j member => ⟨.inl (right j member).1, (right j member).2⟩⟩
    · refine ⟨[idx], .last unlinked, List.nodup_singleton idx, fun j member => ?_⟩
      rw [List.mem_singleton.mp member]
      exact ⟨.inr rfl, rfl⟩
  · rintro j (old | rfl)
    · obtain ⟨idx, chain, has_idx, linked, member⟩ := holds.covered j old
      exact ⟨idx, chain, (has idx).mpr (.inl has_idx), linked, member⟩
    · exact ⟨j, [j], (has j).mpr (.inr rfl), .last unlinked, List.mem_singleton_self j⟩

/-- A block takes the place of one with the same SHA1 and is chained to it. -/
theorem Holds.relink (holds : Holds blocks size elements next present) (new : ¬ present i)
    (slot_lt : slot < size) (filled : elements slot = some idx) (same : (blocks i).sha1 = (blocks idx).sha1)
    (same_adler : (blocks i).adler = (blocks idx).adler) :
    Holds blocks size (Function.update elements slot (some i)) (Function.update next i (some idx))
      fun j => present j ∨ j = i := by
  have has := @has_replace ℕ size elements slot i idx holds.once slot_lt filled
  have has_idx : Has size elements idx := ⟨slot, slot_lt, filled⟩
  have chains : ∀ other chain, Has size elements other → Chain next other chain →
      Chain (Function.update next i (some idx)) other chain := by
    intro other chain has_other linked
    apply linked.update
    intro inside
    exact new ((holds.mem_chain has_other linked i).mp inside).1
  obtain ⟨old_chain, old_linked, old_nodup, old_right⟩ := holds.chains idx has_idx
  have head : Chain (Function.update next i (some idx)) i (i :: old_chain) :=
    .link (Function.update_self ..) (chains idx old_chain has_idx old_linked)
  constructor
  · apply holds.reached.replace slot_lt filled
    rw [home, home, same_adler]
  · exact once_fill holds.once fun old => new (holds.held old)
  · intro first last has_first has_last same_pair
    rcases (has first).mp has_first with ⟨old, different⟩ | rfl
    · rcases (has last).mp has_last with ⟨also, _⟩ | rfl
      · exact holds.unique first last old also same_pair
      · exact absurd (holds.unique first idx old has_idx (same_pair.trans same)) different
    · rcases (has last).mp has_last with ⟨also, different⟩ | rfl
      · exact absurd (holds.unique last idx also has_idx (same_pair.symm.trans same)) different
      · rfl
  · intro other has_other
    rcases (has other).mp has_other with ⟨old, _⟩ | rfl
    · obtain ⟨chain, linked, nodup, right⟩ := holds.chains other old
      exact ⟨chain, chains other chain old linked, nodup, fun j member => ⟨.inl (right j member).1, (right j member).2⟩⟩
    · refine ⟨other :: old_chain, head, List.nodup_cons.mpr ⟨fun inside => new (old_right other inside).1, old_nodup⟩, ?_⟩
      intro j member
      rcases List.mem_cons.mp member with rfl | inside
      · exact ⟨.inr rfl, rfl⟩
      · exact ⟨.inl (old_right j inside).1, (old_right j inside).2.trans same.symm⟩
  · rintro j (old | rfl)
    · obtain ⟨other, chain, has_other, linked, member⟩ := holds.covered j old
      by_cases replaced : other = idx
      · subst replaced
        cases linked.unique old_linked
        exact ⟨i, i :: old_chain, (has i).mpr (.inr rfl), head, List.mem_cons_of_mem i member⟩
      · exact ⟨other, chain, (has other).mpr (.inl ⟨has_other, replaced⟩), chains other chain has_other linked, member⟩
    · exact ⟨j, j :: old_chain, (has j).mpr (.inr rfl), head, List.mem_cons_self⟩

end Insert
section Build

theorem Holds.congr {other : ℕ → Prop} (holds : Holds blocks size elements next present)
    (same : ∀ j, present j ↔ other j) : Holds blocks size elements next other := by
  rwa [← funext fun j => propext (same j)]

/-- More than 64 earlier blocks have other SHA1s than the block. -/
def Crowded (blocks : ℕ → BlockChecksum α) (i : ℕ) : Prop :=
  ∃ others : Finset ℕ, maxAdlerColl < others.card ∧ ∀ j ∈ others, j < i ∧ (blocks j).sha1 ≠ (blocks i).sha1

theorem Holds.crowded (holds : Holds blocks size elements next present) (earlier : ∀ j, present j → j < i) {start : ℕ}
    (start_lt : start < size) (seen : SeekRight blocks size elements (blocks i).sha1 start .ignored) : Crowded blocks i := by
  obtain ⟨wide, filled⟩ := seen
  have place : ∀ steps ≤ maxAdlerColl, ∃ idx, elements ((after size)^[steps] start) = some idx ∧
      (blocks i).sha1 ≠ (blocks idx).sha1 := by
    intro steps few
    obtain ⟨lt, same⟩ := gap_iterate start_lt (few.trans_lt wide)
    exact filled _ lt (same.trans_le few)
  choose! entry content different using place
  have entry_in : ∀ steps ≤ maxAdlerColl, Has size elements (entry steps) := fun steps few =>
    ⟨_, (gap_iterate start_lt (few.trans_lt wide)).1, content steps few⟩
  refine ⟨(Finset.range (maxAdlerColl + 1)).image entry, ?_, ?_⟩
  · rw [Finset.card_image_of_injOn, Finset.card_range]
    · exact Nat.lt_succ_self _
    · intro one one_in two two_in same
      have one_few := Nat.le_of_lt_succ (Finset.mem_range.mp one_in)
      have two_few := Nat.le_of_lt_succ (Finset.mem_range.mp two_in)
      obtain ⟨one_lt, one_gap⟩ := gap_iterate start_lt (one_few.trans_lt wide)
      obtain ⟨two_lt, two_gap⟩ := gap_iterate start_lt (two_few.trans_lt wide)
      have second := content two two_few
      rw [← same] at second
      rw [← one_gap, ← two_gap, holds.once _ one_lt _ two_lt (entry one) (content one one_few) second]
  · intro j member
    obtain ⟨steps, steps_in, rfl⟩ := Finset.mem_image.mp member
    have few := Nat.le_of_lt_succ (Finset.mem_range.mp steps_in)
    exact ⟨earlier _ (holds.held (entry_in steps few)), (different steps few).symm⟩

/-- A table of the first blocks. -/
structure Built (blocks : ℕ → BlockChecksum α) (size count : ℕ) (built : Building) : Prop where
  holds : Holds blocks size built.elements built.next fun j => j < count ∧ j ∉ built.ignored
  fresh : ∀ j ≥ count, built.next j = none
  ignored : ∀ j ∈ built.ignored, j < count ∧ Crowded blocks j

variable [DecidableEq α]

theorem insertBlock_built {built : Building} (right : Built blocks size i built) (more : i < count) (wide : count < size)
    (consistent : Consistent blocks count) : Built blocks size (i + 1) (insertBlock blocks size built i) := by
  have holds := right.holds
  have positive : 0 < size := by omega
  have new : ¬ (i < i ∧ i ∉ built.ignored) := fun both => lt_irrefl i both.1
  have not_ignored : i ∉ built.ignored := fun inside => lt_irrefl i (right.ignored i inside).1
  have present : ∀ j, (j < i ∧ j ∉ built.ignored) ∨ j = i ↔ j < i + 1 ∧ j ∉ built.ignored := by
    intro j
    constructor
    · rintro (⟨before, kept⟩ | rfl)
      · exact ⟨by omega, kept⟩
      · exact ⟨Nat.lt_succ_self j, not_ignored⟩
    · rintro ⟨before, kept⟩
      rcases Nat.lt_or_eq_of_le (Nat.le_of_lt_succ before) with earlier | rfl
      · exact .inl ⟨earlier, kept⟩
      · exact .inr rfl
  have ignored : ∀ j ∈ built.ignored, j < i + 1 ∧ Crowded blocks j := fun j inside =>
    ⟨Nat.lt_succ_of_lt (right.ignored j inside).1, (right.ignored j inside).2⟩
  have adler : ∀ j, j < i ∧ j ∉ built.ignored → (blocks j).sha1 = (blocks i).sha1 → (blocks j).adler = (blocks i).adler :=
    fun j old same => consistent j (old.1.trans more) i more same
  obtain ⟨vacant, vacant_lt, is_vacant⟩ := holds.vacant (fun j old => old.1) (more.trans wide)
  have start_lt := home_lt blocks positive i
  have sought := @seek_right _ blocks size built.elements (home blocks size i) _ (blocks i).sha1 _ vacant maxAdlerColl
    start_lt vacant_lt is_vacant start_lt (by rw [gap_self, Nat.zero_add])
    (fun place place_lt near => absurd near (by rw [gap_self]; exact Nat.not_lt_zero _))
  rw [insertBlock]
  cases found : seek blocks size built.elements (blocks i).sha1 maxAdlerColl (home blocks size i) with
  | chained slot idx =>
    rw [found] at sought
    obtain ⟨slot_lt, filled, same⟩ := sought
    have old := holds.held ⟨slot, slot_lt, filled⟩
    refine ⟨(holds.relink new slot_lt filled same (adler idx old same.symm).symm).congr present, ?_, ignored⟩
    intro j later
    have apart : j ≠ i := by omega
    simp only [Function.update_of_ne apart]
    exact right.fresh j (by omega)
  | vacant slot =>
    rw [found] at sought
    obtain ⟨slot_lt, is_vacant, way⟩ := sought
    exact ⟨(holds.fill positive new (right.fresh i le_rfl) adler slot_lt is_vacant way).congr present,
      fun j later => right.fresh j (by omega), ignored⟩
  | ignored =>
    rw [found] at sought
    refine ⟨holds.congr fun j => ?_, fun j later => right.fresh j (by omega), ?_⟩
    · simp only [List.mem_cons, not_or]
      constructor
      · rintro ⟨before, kept⟩
        exact ⟨by omega, by omega, kept⟩
      · rintro ⟨before, apart, kept⟩
        exact ⟨by omega, kept⟩
    · intro j inside
      rcases List.mem_cons.mp inside with rfl | old
      · exact ⟨Nat.lt_succ_self j, holds.crowded (fun k old => old.1) start_lt sought⟩
      · exact ignored j old

theorem lt_tableSize (bounded : count + 1 < 2 ^ 32) : count < tableSize count := by
  have large := lt_elementCount ((count + 1) % 2 ^ 32 / 2)
  rw [Nat.mod_eq_of_lt bounded] at large
  rw [tableSize, Nat.mod_eq_of_lt bounded]
  omega

/-- The table that `createHash` makes. -/
theorem createHash_built (checksums : Checksums α) (bounded : checksums.blockcnt + 1 < 2 ^ 32)
    (consistent : Consistent checksums.blocks checksums.blockcnt) :
    Built checksums.blocks (tableSize checksums.blockcnt) checksums.blockcnt (createHash checksums) := by
  have wide := lt_tableSize bounded
  have run : ∀ i ≤ checksums.blockcnt, Built checksums.blocks (tableSize checksums.blockcnt) i
      ((List.range i).foldl (insertBlock checksums.blocks (tableSize checksums.blockcnt)) ⟨fun _ => none, fun _ => none, []⟩) := by
    intro i inside
    induction i with
    | zero =>
      have empty : ∀ idx : ℕ, ¬ Has (tableSize checksums.blockcnt) (fun _ => none) idx := by
        rintro idx ⟨slot, _, filled⟩
        cases filled
      refine ⟨⟨?_, ?_, ?_, ?_, ?_⟩, fun j _ => rfl, fun j inside => by cases inside⟩
      · intro slot _ idx filled
        cases filled
      · intro first _ last _ idx filled
        cases filled
      · exact fun first last has => absurd has (empty first)
      · exact fun idx has => absurd has (empty idx)
      · exact fun j old => absurd old.1 (Nat.not_lt_zero j)
    | succ i ih =>
      rw [List.range_succ, List.foldl_append, List.foldl_cons, List.foldl_nil]
      exact insertBlock_built (ih (by omega)) (by omega) wide consistent
  exact run checksums.blockcnt le_rfl

end Build
section Lookup
variable {checksums : Checksums α} {adler : ℕ} {sha1 : α}

/-- The table in use: fewer blocks than slots, and equal SHA1s have equal Adler-32s. -/
structure Usable (checksums : Checksums α) (present : ℕ → Prop) : Prop where
  wide : checksums.blockcnt < tableSize checksums.blockcnt
  consistent : Consistent checksums.blocks checksums.blockcnt
  bounded : ∀ j, present j → j < checksums.blockcnt

/-- The blocks with a pair of checksums. -/
def HasPair (blocks : ℕ → BlockChecksum α) (adler : ℕ) (sha1 : α) (j : ℕ) : Prop :=
  (blocks j).adler = adler ∧ (blocks j).sha1 = sha1

/-- A lookup for checksums that fix the slot where the blocks begin. -/
theorem Holds.probe (holds : Holds checksums.blocks (tableSize checksums.blockcnt) elements next present)
    (usable : Usable checksums present) (adler : ℕ) (test : ℕ → Bool) :
    ∃ result, Library.Probing.probe (tableSize checksums.blockcnt) elements test (tableSize checksums.blockcnt)
        (adler % tableSize checksums.blockcnt) = some result ∧
      Found (tableSize checksums.blockcnt) (home checksums.blocks (tableSize checksums.blockcnt)) elements test
        (adler % tableSize checksums.blockcnt) result := by
  have wide := usable.wide
  obtain ⟨vacant, vacant_lt, is_vacant⟩ := holds.vacant usable.bounded wide
  exact probe_spec (Nat.mod_lt _ (by omega)) holds.reached vacant_lt is_vacant test

/-- A block present is in the chain of a block of the table with the same checksums. -/
theorem Holds.represented (holds : Holds checksums.blocks (tableSize checksums.blockcnt) elements next present)
    (usable : Usable checksums present) {j : ℕ} (here : present j) :
    ∃ idx, Has (tableSize checksums.blockcnt) elements idx ∧
      HasPair checksums.blocks (checksums.blocks j).adler (checksums.blocks j).sha1 idx := by
  obtain ⟨idx, chain, has, linked, member⟩ := holds.covered j here
  have same := ((holds.mem_chain has linked j).mp member).2
  have same_adler := usable.consistent j (usable.bounded j here) idx (usable.bounded idx (holds.held has)) same
  exact ⟨idx, has, same_adler.symm, same.symm⟩

theorem hashHasAdler_spec (holds : Holds checksums.blocks (tableSize checksums.blockcnt) elements next present)
    (usable : Usable checksums present) (adler : ℕ) : ∃ found, hashHasAdler checksums elements adler = some found ∧
      (found = true ↔ ∃ j, present j ∧ (checksums.blocks j).adler = adler) := by
  obtain ⟨result, done, found⟩ := holds.probe usable adler fun idx => (checksums.blocks idx).adler = adler
  refine ⟨result.isSome, by rw [hashHasAdler, done]; rfl, ?_⟩
  cases result with
  | none =>
    simp only [Option.isSome_none, Bool.false_eq_true, false_iff]
    rintro ⟨j, here, rfl⟩
    obtain ⟨idx, has, same, _⟩ := holds.represented usable here
    have missed := found.nowhere rfl idx has (by rw [home, same])
    exact absurd same (decide_eq_false_iff_not.mp missed)
  | some pair =>
    obtain ⟨slot, idx⟩ := pair
    obtain ⟨slot_lt, filled, right⟩ := found.here slot idx rfl
    exact iff_of_true rfl ⟨idx, holds.held ⟨slot, slot_lt, filled⟩, decide_eq_true_iff.mp right⟩

variable [DecidableEq α]

theorem matchesPair_iff : matchesPair blocks adler sha1 idx = true ↔ HasPair blocks adler sha1 idx := decide_eq_true_iff

theorem hashHasAdlerAndSha1_spec (holds : Holds checksums.blocks (tableSize checksums.blockcnt) elements next present)
    (usable : Usable checksums present) (adler : ℕ) (sha1 : α) :
    ∃ found, hashHasAdlerAndSha1 checksums elements adler sha1 = some found ∧
      (∀ idx, found = some idx → Has (tableSize checksums.blockcnt) elements idx ∧ HasPair checksums.blocks adler sha1 idx) ∧
      (found = none → ∀ j, present j → ¬ HasPair checksums.blocks adler sha1 j) := by
  obtain ⟨result, done, found⟩ := holds.probe usable adler (matchesPair checksums.blocks adler sha1)
  refine ⟨result.map Prod.snd, by rw [hashHasAdlerAndSha1, done]; rfl, ?_, ?_⟩
  · intro idx same
    obtain ⟨⟨slot, other⟩, rfl, rfl⟩ := Option.map_eq_some_iff.mp same
    obtain ⟨slot_lt, filled, right⟩ := found.here slot other rfl
    exact ⟨⟨slot, slot_lt, filled⟩, matchesPair_iff.mp right⟩
  · rintro missing j here ⟨rfl, rfl⟩
    obtain ⟨idx, has, same⟩ := holds.represented usable here
    have missed := found.nowhere (Option.map_eq_none_iff.mp missing) idx has (by rw [home, same.1])
    rw [matchesPair_iff.mpr same] at missed
    cases missed

/-- Removing a pair takes its chain away and nothing else. -/
theorem hashRemove_spec (holds : Holds checksums.blocks (tableSize checksums.blockcnt) elements next present)
    (usable : Usable checksums present) (adler : ℕ) (sha1 : α) :
    ∃ result, hashRemove checksums elements adler sha1 = some result ∧
      Holds checksums.blocks (tableSize checksums.blockcnt) result next
        fun j => present j ∧ ¬ HasPair checksums.blocks adler sha1 j := by
  have wide := usable.wide
  obtain ⟨result, done, found⟩ := holds.probe usable adler (matchesPair checksums.blocks adler sha1)
  rw [hashRemove]
  simp only [done]
  cases result with
  | none =>
    refine ⟨elements, rfl, holds.congr fun j => (and_iff_left_of_imp ?_).symm⟩
    rintro here ⟨rfl, rfl⟩
    obtain ⟨idx, has, same⟩ := holds.represented usable here
    have missed := found.nowhere rfl idx has (by rw [home, same.1])
    rw [matchesPair_iff.mpr same] at missed
    cases missed
  | some pair =>
    obtain ⟨slot, idx⟩ := pair
    obtain ⟨slot_lt, filled, right⟩ := found.here slot idx rfl
    have pair := matchesPair_iff.mp right
    have has : Has (tableSize checksums.blockcnt) elements idx := ⟨slot, slot_lt, filled⟩
    obtain ⟨vacant, vacant_lt, is_vacant⟩ := holds.vacant usable.bounded wide
    obtain ⟨result, closed, reached, _, once, kept⟩ := remove_spec holds.reached holds.once
      (home_lt checksums.blocks (by omega)) vacant_lt is_vacant slot_lt filled
    refine ⟨result, closed, reached, once, ?_, ?_, ?_⟩
    · exact fun first last has_first has_last => holds.unique first last ((kept first).mp has_first).1 ((kept last).mp has_last).1
    · intro other has_other
      obtain ⟨old, apart⟩ := (kept other).mp has_other
      obtain ⟨chain, linked, nodup, right⟩ := holds.chains other old
      refine ⟨chain, linked, nodup, fun j member => ⟨⟨(right j member).1, fun same => apart ?_⟩, (right j member).2⟩⟩
      exact holds.unique other idx old has ((right j member).2.symm.trans (same.2.trans pair.2.symm))
    · rintro j ⟨here, different⟩
      obtain ⟨other, chain, has_other, linked, member⟩ := holds.covered j here
      refine ⟨other, chain, (kept other).mpr ⟨has_other, ?_⟩, linked, member⟩
      rintro rfl
      have same := ((holds.mem_chain has_other linked j).mp member).2
      have same_adler := usable.consistent j (usable.bounded j here) other (usable.bounded other (holds.held has)) same
      exact different ⟨same_adler.trans pair.1, same.trans pair.2⟩

end Lookup

section Run
variable [DecidableEq α] {checksums : Checksums α}

/-- What is done with a table: a pair is removed, or it is looked up and the match
recorded, as the scans of files do. -/
inductive Op (α : Type) where
  | remove (adler : ℕ) (sha1 : α)
  | matched (adler : ℕ) (sha1 : α) (fileidx fileoffset : ℕ)

/-- The pair that is not found any more. -/
def Op.pair : Op α → ℕ × α
  | .remove adler sha1 => (adler, sha1)
  | .matched adler sha1 _ _ => (adler, sha1)

def step (checksums : Checksums α) (next : ℕ → Option ℕ) (state : State) : Op α → Option State
  | .remove adler sha1 => do
    let elements ← hashRemove checksums state.elements adler sha1
    return { state with elements := elements }
  | .matched adler sha1 fileidx fileoffset => do
    match ← hashHasAdlerAndSha1 checksums state.elements adler sha1 with
    | none => return state
    | some idx => blockMatchFound checksums next state idx fileidx fileoffset

/-- The table as it is made, with no block matched. -/
def created (checksums : Checksums α) : State := ⟨(createHash checksums).elements, fun _ => ⟨.transfer, 0, 0⟩⟩

/-- The blocks that were taken into the table and whose pairs are not removed. -/
def Present (checksums : Checksums α) (gone : List (ℕ × α)) (j : ℕ) : Prop :=
  j < checksums.blockcnt ∧ j ∉ (createHash checksums).ignored ∧
    ((checksums.blocks j).adler, (checksums.blocks j).sha1) ∉ gone

/-- What holds of a table in use. -/
structure Live (checksums : Checksums α) (gone : List (ℕ × α)) (state : State) : Prop where
  holds : Holds checksums.blocks (tableSize checksums.blockcnt) state.elements (createHash checksums).next
    (Present checksums gone)
  unmatched : ∀ j, Present checksums gone j → (state.blockactions j).type = .transfer

/-- Lookups and matches on a table. -/
structure Finds (checksums : Checksums α) (gone : List (ℕ × α)) (state : State) : Prop where
  adler : ∀ adler, ∃ found, hashHasAdler checksums state.elements adler = some found ∧
    (found = true ↔ ∃ j, Present checksums gone j ∧ (checksums.blocks j).adler = adler)
  pair : ∀ adler sha1, ∃ found, hashHasAdlerAndSha1 checksums state.elements adler sha1 = some found ∧
    (found.isSome = true ↔ ∃ j, Present checksums gone j ∧ HasPair checksums.blocks adler sha1 j)
  chain : ∀ adler sha1 idx, hashHasAdlerAndSha1 checksums state.elements adler sha1 = some (some idx) →
    ∃ chain, Chain (createHash checksums).next idx chain ∧ chain.Nodup ∧
      (∀ j, j ∈ chain ↔ Present checksums gone j ∧ HasPair checksums.blocks adler sha1 j) ∧
      ∀ fileidx fileoffset, ∃ marked,
        blockMatchFound checksums (createHash checksums).next state idx fileidx fileoffset = some marked ∧
        ∀ j, marked.blockactions j = if j ∈ chain then ⟨.copy, fileidx, fileoffset⟩ else state.blockactions j

theorem present_cons {gone : List (ℕ × α)} {adler : ℕ} {sha1 : α} (j : ℕ) :
    Present checksums gone j ∧ ¬ HasPair checksums.blocks adler sha1 j ↔ Present checksums ((adler, sha1) :: gone) j := by
  simp only [Present, HasPair, List.mem_cons, Prod.mk.injEq, not_or]
  tauto

theorem usable (bounded : checksums.blockcnt + 1 < 2 ^ 32) (consistent : Consistent checksums.blocks checksums.blockcnt)
    (gone : List (ℕ × α)) : Usable checksums (Present checksums gone) :=
  ⟨lt_tableSize bounded, consistent, fun _ here => here.1⟩

theorem Live.remove {gone : List (ℕ × α)} {state : State} (live : Live checksums gone state)
    (usable : Usable checksums (Present checksums gone)) (adler : ℕ) (sha1 : α) :
    ∃ elements, hashRemove checksums state.elements adler sha1 = some elements ∧
      Live checksums ((adler, sha1) :: gone) { state with elements := elements } := by
  obtain ⟨elements, done, holds⟩ := hashRemove_spec live.holds usable adler sha1
  exact ⟨elements, done, holds.congr present_cons, fun j here => live.unmatched j (present_cons j |>.mpr here).1⟩

/-- Recording a match marks the chain and removes its pair. -/
theorem Live.matchFound {gone : List (ℕ × α)} {state : State} (live : Live checksums gone state)
    (usable : Usable checksums (Present checksums gone)) {adler : ℕ} {sha1 : α}
    (has : Has (tableSize checksums.blockcnt) state.elements idx) (pair : HasPair checksums.blocks adler sha1 idx)
    (fileidx fileoffset : ℕ) :
    ∃ chain marked, Chain (createHash checksums).next idx chain ∧ chain.Nodup ∧
      (∀ j, j ∈ chain ↔ Present checksums gone j ∧ HasPair checksums.blocks adler sha1 j) ∧
      blockMatchFound checksums (createHash checksums).next state idx fileidx fileoffset = some marked ∧
      (∀ j, marked.blockactions j = if j ∈ chain then ⟨.copy, fileidx, fileoffset⟩ else state.blockactions j) ∧
      Live checksums ((adler, sha1) :: gone) marked := by
  obtain ⟨rfl, rfl⟩ := pair
  obtain ⟨chain, linked, nodup, _⟩ := live.holds.chains idx has
  have here := live.holds.held has
  have member : ∀ j, j ∈ chain ↔ Present checksums gone j ∧
      HasPair checksums.blocks (checksums.blocks idx).adler (checksums.blocks idx).sha1 j := by
    intro j
    rw [live.holds.mem_chain has linked j]
    apply and_congr_right
    intro also
    constructor
    · exact fun same => ⟨usable.consistent j also.1 idx here.1 same, same⟩
    · exact And.right
  have short : chain.length ≤ checksums.blockcnt := by
    have inside : chain ⊆ List.range checksums.blockcnt := fun j member_j =>
      List.mem_range.mpr ((member j).mp member_j).1.1
    have length := (nodup.subperm inside).length_le
    rwa [List.length_range] at length
  obtain ⟨marked, done, right⟩ := markChain_eq linked nodup ⟨.copy, fileidx, fileoffset⟩ short state.blockactions
  obtain ⟨elements, removed, after⟩ := live.remove usable (checksums.blocks idx).adler (checksums.blocks idx).sha1
  have first : ¬ (state.blockactions idx).type ≠ .transfer := not_not.mpr (live.unmatched idx here)
  refine ⟨chain, ⟨elements, marked⟩, linked, nodup, member, ?_, right, after.holds, ?_⟩
  · rw [blockMatchFound, if_neg first]
    simp only [done, removed, bind, Option.bind, pure]
  · intro j still
    have outside : j ∉ chain := fun inside =>
      ((present_cons j).mpr still).2 ((member j).mp inside).2
    dsimp only
    rw [right j, if_neg outside]
    exact live.unmatched j ((present_cons j).mpr still).1

theorem Live.step {gone : List (ℕ × α)} {state : State} (live : Live checksums gone state)
    (usable : Usable checksums (Present checksums gone)) (op : Op α) :
    ∃ state', step checksums (createHash checksums).next state op = some state' ∧ Live checksums (op.pair :: gone) state' := by
  cases op with
  | remove adler sha1 =>
    obtain ⟨elements, done, after⟩ := live.remove usable adler sha1
    refine ⟨_, ?_, after⟩
    simp only [BlockTable.step, done, bind, Option.bind, pure]
  | matched adler sha1 fileidx fileoffset =>
    obtain ⟨found, done, here, nowhere⟩ := hashHasAdlerAndSha1_spec live.holds usable adler sha1
    cases found with
    | none =>
      have same : ∀ j, Present checksums gone j ↔ Present checksums ((adler, sha1) :: gone) j := fun j =>
        (and_iff_left_of_imp (nowhere rfl j)).symm.trans (present_cons j)
      refine ⟨state, ?_, live.holds.congr same, fun j still => live.unmatched j ((same j).mpr still)⟩
      simp only [BlockTable.step, done, bind, Option.bind, pure]
    | some idx =>
      obtain ⟨has, pair⟩ := here idx rfl
      obtain ⟨chain, marked, _, _, _, recorded, _, after⟩ := live.matchFound usable has pair fileidx fileoffset
      refine ⟨marked, ?_, after⟩
      simp only [BlockTable.step, done, bind, Option.bind, recorded]

theorem Live.finds {gone : List (ℕ × α)} {state : State} (live : Live checksums gone state)
    (usable : Usable checksums (Present checksums gone)) : Finds checksums gone state := by
  constructor
  · exact hashHasAdler_spec live.holds usable
  · intro adler sha1
    obtain ⟨found, done, here, nowhere⟩ := hashHasAdlerAndSha1_spec live.holds usable adler sha1
    refine ⟨found, done, ?_⟩
    cases found with
    | none =>
      simp only [Option.isSome_none, Bool.false_eq_true, false_iff]
      rintro ⟨j, still, pair⟩
      exact nowhere rfl j still pair
    | some idx =>
      obtain ⟨has, pair⟩ := here idx rfl
      exact iff_of_true rfl ⟨idx, live.holds.held has, pair⟩
  · intro adler sha1 idx same
    obtain ⟨found, done, here, _⟩ := hashHasAdlerAndSha1_spec live.holds usable adler sha1
    rw [done] at same
    obtain ⟨has, pair⟩ := here idx (Option.some.inj same)
    obtain ⟨chain, _, linked, nodup, member, _⟩ := live.matchFound usable has pair 0 0
    refine ⟨chain, linked, nodup, member, fun fileidx fileoffset => ?_⟩
    obtain ⟨other, marked, also, _, _, recorded, right, _⟩ := live.matchFound usable has pair fileidx fileoffset
    cases linked.unique also
    exact ⟨marked, recorded, right⟩

theorem Live.run {gone : List (ℕ × α)} {state : State} (live : Live checksums gone state)
    (bounded : checksums.blockcnt + 1 < 2 ^ 32) (consistent : Consistent checksums.blocks checksums.blockcnt)
    (ops : List (Op α)) : ∃ state', ops.foldlM (BlockTable.step checksums (createHash checksums).next) state = some state' ∧
      Live checksums ((ops.map Op.pair).reverse ++ gone) state' := by
  induction ops generalizing state gone with
  | nil => exact ⟨state, rfl, live⟩
  | cons op ops ih =>
    obtain ⟨middle, done, after⟩ := live.step (usable bounded consistent gone) op
    obtain ⟨state', rest, last⟩ := ih after
    refine ⟨state', ?_, ?_⟩
    · rw [List.foldlM_cons, done]
      exact rest
    · rw [List.map_cons, List.reverse_cons, List.append_assoc, List.singleton_append]
      exact last

end Run

/-- After any removals and matches a lookup ends, and finds the chain of all blocks
with a pair exactly while one of them is present; a match marks the whole chain.
Only a block behind more than 64 others is not taken into the table. -/
theorem blockTable_finds [DecidableEq α] (checksums : Checksums α) (ops : List (Op α))
    (bounded : 28 * checksums.blockcnt < 64 * 1024 * 1024)
    (consistent : Consistent checksums.blocks checksums.blockcnt) :
    (∀ j ∈ (createHash checksums).ignored, Crowded checksums.blocks j) ∧
    ∃ state, ops.foldlM (step checksums (createHash checksums).next) (created checksums) = some state ∧
      Finds checksums (ops.map Op.pair).reverse state := by
  have small : checksums.blockcnt + 1 < 2 ^ 32 := by omega
  have built := createHash_built checksums small consistent
  have live : Live checksums [] (created checksums) := by
    refine ⟨built.holds.congr fun j => ?_, fun _ _ => rfl⟩
    simp only [Present, List.not_mem_nil, not_false_eq_true, and_true]
  obtain ⟨state, done, after⟩ := live.run small consistent ops
  rw [List.append_nil] at after
  exact ⟨fun j inside => (built.ignored j inside).2, state, done, after.finds (usable small consistent _)⟩

/-- Two equal blocks and a third one, of which one pair is removed. -/
theorem blockTable_finds_three : ∃ state, [Op.remove 3 7].foldlM
      (step (Checksums.mk 3 fun i => ⟨7 + i / 2, 3⟩) (createHash (Checksums.mk 3 fun i => ⟨7 + i / 2, 3⟩)).next)
      (created (Checksums.mk 3 fun i => ⟨7 + i / 2, 3⟩)) = some state ∧
    Finds (Checksums.mk 3 fun i => ⟨7 + i / 2, 3⟩) [(3, 7)] state :=
  (blockTable_finds (Checksums.mk 3 fun i => BlockChecksum.mk (7 + i / 2) 3) [Op.remove 3 7] (by decide)
    (fun _ _ _ _ _ => rfl)).2

/-- Of 66 blocks with one Adler-32 the last is not found, nor is the first of two
blocks with one SHA1 whose Adler-32s differ. -/
theorem blockTable_misses :
    hashHasAdlerAndSha1 (Checksums.mk 66 fun i => ⟨i, 0⟩) (createHash (Checksums.mk 66 fun i => ⟨i, 0⟩)).elements 0 65 =
      some none ∧
    hashHasAdlerAndSha1 (Checksums.mk 2 fun i => ⟨5, 7 * i⟩) (createHash (Checksums.mk 2 fun i => ⟨5, 7 * i⟩)).elements 0 5 =
      some none := by
  have large : tableSize 66 = 199 := by
    have prime : isPrime 199 = true := by simp [isPrime, noDivisor]
    rw [tableSize, elementCount, if_pos (show isPrime (6 * ((66 + 1) % 2 ^ 32 / 2) + 1) = true from prime)]
    norm_num
  have small : tableSize 2 = 7 := by
    have prime : isPrime 7 = true := by simp [isPrime, noDivisor]
    rw [tableSize, elementCount, if_pos (show isPrime (6 * ((2 + 1) % 2 ^ 32 / 2) + 1) = true from prime)]
    norm_num
  constructor
  · simp only [hashHasAdlerAndSha1, createHash, large]
    decide +kernel
  · simp only [hashHasAdlerAndSha1, createHash, small]
    decide +kernel

end Pclsync.Proofs.BlockTable
