import Pclsync.Pages.Pool

/-! No page of the page cache gets lost or is given out twice, and the two counters are right,
as long as none of four places of the source is reached. -/

namespace Pclsync.Proofs.Pool
open Pclsync.Library Pclsync.Pages.Pool

variable {cachePages cacheHash : ℕ} {T : Type} {c next : Cache cachePages cacheHash T} {p q : Fin cachePages} {b : Fin cacheHash} {pages rest sorted affected : List (Fin cachePages)}
  {nosleep updates : ℕ}

section Counts
variable [Fintype T]

/-- Every page is in one place, the free ones are counted. -/
structure Kept (c : Cache cachePages cacheHash T) : Prop where
  whole : (c.freePages : Multiset (Fin cachePages)) + Shelves.items Finset.univ c.bucket + Shelves.items Finset.univ c.hand = (List.finRange cachePages : Multiset (Fin cachePages))
  free : c.cachePagesFree = BitVec.ofNat 32 c.freePages.length

theorem Kept.once (kept : Kept c) (p : Fin cachePages) :
    c.freePages.count p + ∑ b, (c.bucket b).count p + ∑ t, (c.hand t).count p = 1 := by
  have one := congrArg (Multiset.count p) kept.whole
  rw [Multiset.count_add, Multiset.count_add, Shelves.count_items, Shelves.count_items, Multiset.coe_count, Multiset.coe_count] at one
  rw [one]
  exact List.count_eq_one_of_mem (List.nodup_finRange _) (List.mem_finRange p)

theorem Kept.bucket_le (kept : Kept c) (p : Fin cachePages) : (Shelves.items Finset.univ c.bucket).count p ≤ 1 := by
  have once := kept.once p
  rw [Shelves.count_items]
  omega

/-- A page of a bucket is not free, and in no other bucket. -/
theorem Kept.listDel (kept : Kept c) (inside : p ∈ c.bucket b) :
    c.listDel p = { c with bucket := Function.update c.bucket b ((c.bucket b).erase p) } := by
  have free : p ∉ c.freePages := by
    intro free
    have once := kept.once p
    have one := List.count_pos_iff.mpr free
    have two : 0 < ∑ b, (c.bucket b).count p := Finset.sum_pos_iff.mpr ⟨b, Finset.mem_univ b, List.count_pos_iff.mpr inside⟩
    omega
  have others : (fun b => (c.bucket b).erase p) = Function.update c.bucket b ((c.bucket b).erase p) := by
    funext other
    by_cases same : other = b
    · rw [same, Function.update_self]
    · rw [Function.update_of_ne same]
      apply List.erase_of_not_mem
      intro second
      exact same (Shelves.eq_of_once (kept.bucket_le p) (Finset.mem_univ _) (Finset.mem_univ _) second inside)
  rw [Cache.listDel, List.erase_of_not_mem free, others]

/-- Pages that are in the buckets. -/
structure Held (c : Cache cachePages cacheHash T) (pages : List (Fin cachePages)) : Prop where
  nodup : pages.Nodup
  inside : ∀ p ∈ pages, ∃ b, p ∈ c.bucket b

/-- A page of a bucket becomes free. -/
structure Freed (c : Cache cachePages cacheHash T) (p : Fin cachePages) (next : Cache cachePages cacheHash T) : Prop where
  kept : Kept next
  fewer : ∑ b, (next.bucket b).length + 1 = ∑ b, (c.bucket b).length
  others : ∀ b, ∀ q ∈ c.bucket b, q ≠ p → q ∈ next.bucket b

theorem Kept.freed (kept : Kept c) (inside : p ∈ c.bucket b) : Freed c p ((c.listDel p).returnFreePage p) := by
  have erased := Shelves.items_erase (Finset.mem_univ b) inside
  rw [kept.listDel inside]
  refine ⟨⟨?_, ?_⟩, ?_, ?_⟩
  · rw [← kept.whole, ← erased, Multiset.add_cons, ← Multiset.cons_add, Multiset.cons_coe]
    rfl
  · show c.cachePagesFree + 1 = BitVec.ofNat 32 (c.freePages.length + 1)
    rw [kept.free, BitVec.ofNat_add]
    rfl
  · rw [← Shelves.card_items, ← Shelves.card_items, ← erased, Multiset.card_cons]
    rfl
  · intro other q member distinct
    by_cases same : other = b
    · subst same
      simpa [Cache.returnFreePage] using (List.mem_erase_of_ne distinct).mpr member
    · simpa [Cache.returnFreePage, same] using member

/-- The number of the pages in the buckets. -/
def Counted (c : Cache cachePages cacheHash T) : Prop := c.cachePagesInHash = BitVec.ofNat 32 (∑ b, (c.bucket b).length)

theorem Held.freed (held : Held c (p :: pages)) (freed : Freed c p next) : Held next pages := by
  obtain ⟨absent, nodup⟩ := List.nodup_cons.mp held.nodup
  refine ⟨nodup, ?_⟩
  intro q member
  obtain ⟨b, inside⟩ := held.inside q (List.mem_cons_of_mem p member)
  refine ⟨b, freed.others b q inside ?_⟩
  rintro rfl
  exact absent member

theorem Freed.counted (freed : Freed c p next) (counted : Counted c) (lowered : next.cachePagesInHash = c.cachePagesInHash - 1) :
    Counted next := by
  rw [Counted, lowered, counted, ← freed.fewer, BitVec.ofNat_add]
  exact add_sub_cancel_right _ _

theorem updatePages_kept (kept : Kept c) (held : Held c pages) (pagecnt : ℕ) (all : ∀ p ∈ pages, p ∈ affected)
    (quiet : nosleep = 1 ∨ updates + pages.length < 64) :
    Kept (c.updatePages nosleep affected updates pagecnt pages) ∧
      ∑ b, ((c.updatePages nosleep affected updates pagecnt pages).bucket b).length + pages.length = ∑ b, (c.bucket b).length ∧
      (c.updatePages nosleep affected updates pagecnt pages).cachePagesInHash = c.cachePagesInHash - BitVec.ofNat 32 (pagecnt + pages.length) ∧
      (c.updatePages nosleep affected updates pagecnt pages).flush = .none := by
  induction pages generalizing c updates pagecnt with
  | nil =>
    rw [Cache.updatePages]
    exact ⟨⟨kept.whole, kept.free⟩, Nat.add_zero _, rfl, rfl⟩
  | cons p pages ih =>
    obtain ⟨b, inside⟩ := held.inside p List.mem_cons_self
    have freed := kept.freed inside
    have going : ¬ (nosleep ≠ 1 ∧ (updates + 1) % 64 = 0) := by
      rintro ⟨sleeps, full⟩
      rw [List.length_cons] at quiet
      omega
    have later : nosleep = 1 ∨ updates + 1 + pages.length < 64 := by
      rw [List.length_cons] at quiet
      omega
    have step := ih freed.kept (held.freed freed) (pagecnt + 1) (fun q member => all q (List.mem_cons_of_mem p member)) later
    simp only [Cache.updatePages, if_pos (all p List.mem_cons_self), if_neg going]
    obtain ⟨kept, fewer, lowered, ended⟩ := step
    refine ⟨kept, ?_, ?_, ended⟩
    · have fewerFirst := freed.fewer
      rw [List.length_cons]
      omega
    · rw [lowered, List.length_cons, Nat.add_assoc, Nat.add_comm 1]
      rfl

/-- The pages that a flush has still to look at, behind those that it has put on its list. -/
theorem collect_kept (lower : BitVec 32) (kept : Kept c) (held : Held c (pages ++ rest)) (whole : ∑ b, (c.bucket b).length = pages.length + rest.length) :
    Kept (rest.foldl (Cache.collectPage lower) (c, pages)).1 ∧
      Held (rest.foldl (Cache.collectPage lower) (c, pages)).1 (rest.foldl (Cache.collectPage lower) (c, pages)).2 ∧
      ∑ b, ((rest.foldl (Cache.collectPage lower) (c, pages)).1.bucket b).length =
        (rest.foldl (Cache.collectPage lower) (c, pages)).2.length ∧
      (lower = 1 → Counted c → Counted (rest.foldl (Cache.collectPage lower) (c, pages)).1) := by
  induction rest generalizing c pages with
  | nil =>
    rw [List.append_nil] at held
    exact ⟨kept, held, whole, fun _ => id⟩
  | cons p rest ih =>
    rw [List.foldl_cons]
    cases type : (c.page p).type with
    | read =>
      have same : Cache.collectPage lower (c, pages) p = (c, pages ++ [p]) := by rw [Cache.collectPage, type]
      rw [same]
      apply ih kept
      · rwa [List.append_assoc]
      · rw [whole, List.length_append, List.length_cons, List.length_singleton]
        omega
    | cache =>
      have same : Cache.collectPage lower (c, pages) p =
          ({ (c.listDel p).returnFreePage p with cachePagesInHash := c.cachePagesInHash - lower }, pages) := by rw [Cache.collectPage, type]
      have first : Held c (p :: (pages ++ rest)) := ⟨held.nodup.perm List.perm_middle, fun q member => held.inside q (List.perm_middle.mem_iff.mpr member)⟩
      obtain ⟨b, inside⟩ := first.inside p List.mem_cons_self
      have freed := kept.freed inside
      have lowered : Freed c p { (c.listDel p).returnFreePage p with cachePagesInHash := c.cachePagesInHash - lower } :=
        ⟨⟨freed.kept.whole, freed.kept.free⟩, freed.fewer, freed.others⟩
      rw [same]
      have step := ih lowered.kept (first.freed lowered) (by
        have fewer := lowered.fewer
        rw [whole, List.length_cons] at fewer
        omega)
      refine ⟨step.1, step.2.1, step.2.2.1, fun one counted => step.2.2.2 one ?_⟩
      exact lowered.counted counted (by rw [one])

/-- In the middle of the updates. -/
def Paused : Flush cachePages → Prop
  | .pause _ _ _ _ => True
  | _ => False

/-- A flush is not in the middle of its updates, and the pages on its list are in the buckets. -/
structure Inv (c : Cache cachePages cacheHash T) : Prop where
  kept : Kept c
  counted : Counted c
  held : Held c c.flush.pages
  going : ¬ Paused c.flush

theorem Kept.gathered (kept : Kept c) : Held c ([] ++ Shelves.gather c.bucket) := by
  refine ⟨List.nodup_iff_count_le_one.mpr fun p => ?_, fun p member => by simpa [Shelves.gather] using member⟩
  rw [List.nil_append, ← Multiset.coe_count, Shelves.gather_items]
  exact kept.bucket_le p

omit [Fintype T] in
theorem length_gather (c : Cache cachePages cacheHash T) : ∑ b, (c.bucket b).length = ([] : List (Fin cachePages)).length + (Shelves.gather c.bucket).length := by
  rw [List.length_nil, Nat.zero_add, ← Multiset.coe_card, Shelves.gather_items, Shelves.card_items]

omit [Fintype T] in
theorem Held.nil : Held c [] := ⟨List.nodup_nil, fun _ member => absurd member List.not_mem_nil⟩

theorem startDiscard_inv (kept : Kept c) (counted : Counted c) : Inv c.startDiscard := by
  obtain ⟨kept, held, _, recount⟩ := collect_kept 1 kept kept.gathered (length_gather c)
  exact ⟨⟨kept.whole, kept.free⟩, recount rfl counted, ⟨held.nodup, held.inside⟩, not_false⟩

theorem collectPages_inv (kept : Kept c) (counted : Counted c) : Inv c.collectPages := by
  rw [Cache.collectPages]
  split
  next =>
    obtain ⟨kept, held, whole, _⟩ := collect_kept 0 kept kept.gathered (length_gather c)
    refine ⟨⟨kept.whole, kept.free⟩, ?_, ?_, ?_⟩
    · exact congrArg (BitVec.ofNat 32) whole.symm
    · dsimp only
      split
      · exact ⟨held.nodup, held.inside⟩
      · exact Held.nil
    · dsimp only
      split
      · exact not_false
      · exact not_false
  next => exact ⟨⟨kept.whole, kept.free⟩, counted, Held.nil, not_false⟩

theorem discard_inv (kept : Kept c) (counted : Counted c) (held : Held c pages) : Inv (pages.foldl Cache.discardPage c).collectPages := by
  induction pages generalizing c with
  | nil => exact collectPages_inv kept counted
  | cons p pages ih =>
    obtain ⟨b, inside⟩ := held.inside p List.mem_cons_self
    have freed := kept.freed inside
    have lowered : Freed c p (c.discardPage p) := ⟨⟨freed.kept.whole, freed.kept.free⟩, freed.fewer, freed.others⟩
    exact ih lowered.kept (lowered.counted counted rfl) (held.freed lowered)

theorem discardPages_inv (kept : Kept c) (counted : Counted c) (held : Held c sorted) : Inv (c.discardPages sorted) :=
  discard_inv kept counted ⟨held.nodup.sublist (List.take_sublist _ _), fun p member => held.inside p (List.mem_of_mem_take member)⟩

omit [Fintype T] in
theorem Held.mono (held : Held c pages) (more : ∀ b, ∀ q ∈ c.bucket b, ∃ other, q ∈ next.bucket other) : Held next pages := by
  refine ⟨held.nodup, ?_⟩
  intro q member
  obtain ⟨b, inside⟩ := held.inside q member
  exact more b q inside

variable [DecidableEq T] {t : T}

theorem take_inv (inv : Inv c) {freePages : List (Fin cachePages)} (some : c.freePages = p :: freePages) :
    Inv { c.takePage t p freePages with cachePagesFree := c.cachePagesFree - 1 } := by
  have took := Shelves.items_cons c.hand (Finset.mem_univ t) p
  refine ⟨⟨?_, ?_⟩, inv.counted, inv.held.mono fun b q inside => ⟨b, inside⟩, inv.going⟩
  · have whole := inv.kept.whole
    rw [some, ← Multiset.cons_coe, Multiset.cons_add, Multiset.cons_add] at whole
    rw [← whole, ← Multiset.add_cons, ← took]
    rfl
  · show c.cachePagesFree - 1 = BitVec.ofNat 32 freePages.length
    rw [inv.kept.free, some, List.length_cons, BitVec.ofNat_add]
    exact add_sub_cancel_right _ _

/-- An operation gives a page back that it holds. -/
theorem put_inv (inv : Inv c) (own : c.hand t = p :: pages) : Inv ((c.drop t pages).returnFreePage p) := by
  have gave := Shelves.items_tail (Finset.mem_univ t) own
  refine ⟨⟨?_, ?_⟩, inv.counted, inv.held.mono fun b q inside => ⟨b, inside⟩, inv.going⟩
  · rw [← inv.kept.whole, ← gave, Multiset.add_cons, ← Multiset.cons_add, ← Multiset.cons_add, Multiset.cons_coe]
    rfl
  · show c.cachePagesFree + 1 = BitVec.ofNat 32 (c.freePages.length + 1)
    rw [inv.kept.free, BitVec.ofNat_add]
    rfl

/-- An operation puts a page that it holds in a bucket. -/
theorem add_inv (inv : Inv c) (own : c.hand t = p :: pages) (b : Fin cacheHash) :
    Inv { (c.drop t pages).listAddTail b p with cachePagesInHash := c.cachePagesInHash + 1 } := by
  have gave := Shelves.items_tail (Finset.mem_univ t) own
  have got := Shelves.items_push_cons c.bucket (Finset.mem_univ b) p
  refine ⟨⟨?_, inv.kept.free⟩, ?_, inv.held.mono ?_, inv.going⟩
  · rw [← inv.kept.whole, ← gave, Multiset.add_cons, ← Multiset.cons_add, ← Multiset.add_cons, ← got]
    rfl
  · show c.cachePagesInHash + 1 = BitVec.ofNat 32 (∑ other, (Shelves.push c.bucket b p other).length)
    rw [inv.counted, ← Shelves.card_items, ← Shelves.card_items, got, Multiset.card_cons, BitVec.ofNat_add]
    rfl
  · exact fun other q inside => ⟨other, Shelves.mem_push.mpr (.inl inside)⟩

omit [DecidableEq T] in
/-- What is written in a page is not where it is. -/
theorem Inv.page (inv : Inv c) (page : Fin cachePages → Page) : Inv { c with page := page } :=
  ⟨⟨inv.kept.whole, inv.kept.free⟩, inv.counted, ⟨inv.held.nodup, inv.held.inside⟩, inv.going⟩

variable [NeZero cacheHash] {event : Event cachePages}

omit [DecidableEq T] in
theorem checkPage_inv (inv : Inv c) {hash pageid : BitVec 64} {bad : List (Fin cachePages)} (listed : ∀ p ∈ c.flush.pages, p ∉ bad) :
    Inv (checkPage c hash pageid bad) := by
  rw [checkPage]
  split
  · exact inv
  next p found =>
    have inside := List.mem_of_find?_eq_some found
    have wrong : p ∈ bad := by
      have matched := List.find?_some found
      simp only [decide_eq_true_eq] at matched
      exact matched.2.2
    have freed := inv.kept.freed inside
    have lowered : Freed c p { (c.listDel p).returnFreePage p with cachePagesInHash := c.cachePagesInHash - 1 } :=
      ⟨⟨freed.kept.whole, freed.kept.free⟩, freed.fewer, freed.others⟩
    refine ⟨lowered.kept, lowered.counted inv.counted rfl, ⟨inv.held.nodup, ?_⟩, inv.going⟩
    intro q member
    obtain ⟨b, own⟩ := inv.held.inside q member
    refine ⟨b, lowered.others b q own ?_⟩
    rintro rfl
    exact listed q member wrong

omit [DecidableEq T] in
theorem switchPage_inv (inv : Inv c) {oldhash newhash pageid : BitVec 64} : Inv (switchPage c oldhash newhash pageid) := by
  rw [switchPage]
  split
  · exact inv
  next p found =>
    have inside := List.mem_of_find?_eq_some found
    have left := Shelves.items_erase (Finset.mem_univ _) inside
    rw [inv.kept.listDel inside]
    have got := Shelves.items_push_cons (Function.update c.bucket (pagehash cacheHash oldhash pageid)
      ((c.bucket (pagehash cacheHash oldhash pageid)).erase p)) (Finset.mem_univ (pagehash cacheHash newhash pageid)) p
    rw [left] at got
    refine ⟨⟨?_, inv.kept.free⟩, ?_, inv.held.mono ?_, inv.going⟩
    · rw [← inv.kept.whole, ← got]
      rfl
    · show c.cachePagesInHash = BitVec.ofNat 32 (∑ b, (Shelves.push (Function.update c.bucket (pagehash cacheHash oldhash pageid)
        ((c.bucket (pagehash cacheHash oldhash pageid)).erase p)) (pagehash cacheHash newhash pageid) p b).length)
      rw [← Shelves.card_items, got, Shelves.card_items]
      exact inv.counted
    · intro b q own
      by_cases same : q = p
      · subst same
        exact ⟨pagehash cacheHash newhash pageid, Shelves.mem_push.mpr (.inr ⟨rfl, rfl⟩)⟩
      · refine ⟨b, Shelves.mem_push.mpr (.inl ?_)⟩
        show q ∈ Function.update c.bucket (pagehash cacheHash oldhash pageid) ((c.bucket (pagehash cacheHash oldhash pageid)).erase p) b
        by_cases place : b = pagehash cacheHash oldhash pageid
        · subst place
          rw [Function.update_self]
          exact (List.mem_erase_of_ne same).mpr own
        · rwa [Function.update_of_ne place]

/-- The steps that leave the four places out. The fast allocator finds no page; a page whose
checksum is wrong is not on the list of a flush; and a flush changes a row for each page
on its list, without a pause. -/
def Sound (c : Cache cachePages cacheHash T) : Event cachePages → Prop
  | .getFreePageIfAvailable => c.freePages = []
  | .checkPage _ _ bad => ∀ p ∈ c.flush.pages, p ∉ bad
  | .update nosleep inserted affected =>
    (∀ p ∈ c.flush.pages, p ∈ affected) ∧ (nosleep = 1 ∨ (if inserted then 1 else 0) + c.flush.pages.length < 64)
  | _ => True

theorem step_inv (inv : Inv c) (sound : Sound c event) (moved : step c t event = some next) : Inv next := by
  cases event with
  | getFreePageIfAvailable =>
    cases moved
    rw [getFreePageIfAvailable]
    split
    · exact inv
    next some =>
      rw [Sound, some] at sound
      cases sound
  | getFreePage =>
    simp only [step, getFreePage] at moved
    split at moved
    · cases moved
    next some =>
      cases moved
      exact take_inv inv some
  | returnFreePage =>
    simp only [step, returnFreePage] at moved
    split at moved
    · cases moved
    next own =>
      cases moved
      exact put_inv inv own
  | addPage page =>
    simp only [step, addPage] at moved
    split at moved
    · cases moved
    next p pages own =>
      cases moved
      have written : Inv (c.setPage p page) := inv.page _
      exact add_inv written own _
  | addPageIfNotExists hash pageid waited =>
    simp only [step, addPageIfNotExists] at moved
    split at moved
    · cases moved
    next p pages own =>
      have written : Inv (c.setPage p ⟨hash, pageid, .read⟩) := inv.page _
      split at moved
      · cases moved
        exact put_inv written own
      · cases moved
        exact add_inv written own _
  | checkPage hash pageid bad =>
    cases moved
    exact checkPage_inv inv sound
  | switchPage oldhash newhash pageid =>
    cases moved
    exact switchPage_inv inv
  | startFlush diskfull =>
    simp only [step] at moved
    split at moved
    · cases moved
      split
      · exact startDiscard_inv inv.kept inv.counted
      · exact collectPages_inv inv.kept inv.counted
    · cases moved
  | discard sorted =>
    simp only [step] at moved
    split at moved
    next pages own =>
      split at moved
      next perm =>
        cases moved
        have held := inv.held
        rw [own] at held
        exact discardPages_inv inv.kept inv.counted ⟨held.nodup.perm perm.symm, fun p member => held.inside p (perm.mem_iff.mp member)⟩
      · cases moved
    · cases moved
  | write sorted rows =>
    simp only [step] at moved
    split at moved
    next pages own =>
      split at moved
      next perm =>
        cases moved
        have held := inv.held
        rw [own] at held
        exact ⟨⟨inv.kept.whole, inv.kept.free⟩, inv.counted, ⟨(held.nodup.perm perm.symm).sublist (List.take_sublist _ _),
          fun p member => held.inside p (perm.mem_iff.mp (List.mem_of_mem_take member))⟩, not_false⟩
      · cases moved
    · cases moved
  | fail =>
    simp only [step] at moved
    split at moved
    · cases moved
      exact ⟨⟨inv.kept.whole, inv.kept.free⟩, inv.counted, Held.nil, not_false⟩
    · cases moved
  | update nosleep inserted affected =>
    simp only [step] at moved
    split at moved
    next pages own =>
      cases moved
      have held := inv.held
      rw [own] at held
      rw [Sound, own] at sound
      simp only [Flush.pages] at held sound
      obtain ⟨kept, fewer, lowered, ended⟩ := updatePages_kept inv.kept held 0 sound.1 sound.2
      refine ⟨kept, ?_, ?_, ?_⟩
      · rw [Counted, lowered, inv.counted, ← fewer, Nat.zero_add, BitVec.ofNat_add]
        exact add_sub_cancel_right _ _
      · rw [ended]
        exact Held.nil
      · rw [ended]
        exact not_false
    · cases moved
  | resume affected =>
    simp only [step] at moved
    split at moved
    next own => exact absurd (by rw [own]; trivial) inv.going
    · cases moved

/-- The runs of any number of operations whose steps are all sound. -/
inductive Run : Cache cachePages cacheHash T → Prop where
  | init : Run .init
  | step {c next : Cache cachePages cacheHash T} (t : T) (event : Event cachePages) : Run c → Sound c event → step c t event = some next → Run next

omit [DecidableEq T] [NeZero cacheHash] in
theorem init_inv : Inv (.init : Cache cachePages cacheHash T) := by
  have none {count : ℕ} : Shelves.items Finset.univ (fun _ : Fin count => ([] : List (Fin cachePages))) = 0 := by
    simp [Shelves.items]
  refine ⟨⟨?_, ?_⟩, ?_, Held.nil, not_false⟩
  · simp [Cache.init, Shelves.items]
  · simp [Cache.init]
  · simp [Counted, Cache.init]

theorem run_inv (run : Run c) : Inv c := by
  induction run with
  | init => exact init_inv
  | step t event _ sound moved inv => exact step_inv inv sound moved

/-- Every page is in one place, and the counters are what they count. -/
structure Right (c : Cache cachePages cacheHash T) : Prop where
  once : ∀ p, c.freePages.count p + ∑ b, (c.bucket b).count p + ∑ t, (c.hand t).count p = 1
  free : c.cachePagesFree.toNat = c.freePages.length
  inHash : c.cachePagesInHash.toNat = ∑ b, (c.bucket b).length

omit [DecidableEq T] [NeZero cacheHash] in
theorem Inv.right (inv : Inv c) (small : cachePages < 2 ^ 32) : Right c := by
  have whole := congrArg Multiset.card inv.kept.whole
  rw [Multiset.card_add, Multiset.card_add, Shelves.card_items, Multiset.coe_card, Multiset.coe_card, List.length_finRange] at whole
  refine ⟨inv.kept.once, ?_, ?_⟩
  · rw [inv.kept.free, BitVec.toNat_ofNat, Nat.mod_eq_of_lt (by omega)]
  · rw [inv.counted, BitVec.toNat_ofNat, Nat.mod_eq_of_lt (by omega)]

end Counts

instance : NeZero (memoryPages / 2) := ⟨by decide⟩

/-- In every run that leaves the four places out no page is lost or in two places, and the
counters are right. -/
theorem run_conserves [Fintype T] [DecidableEq T] {c : Cache memoryPages (memoryPages / 2) T} (run : Run c) : Right c :=
  (run_inv run).right (by decide)

/-- Some page is free at first. -/
theorem init_freePages (cacheHash : ℕ) (T : Type) (some : 0 < cachePages) :
    ∃ p freePages, (.init : Cache cachePages cacheHash T).freePages = p :: freePages ∧ freePages.length + 1 = cachePages := by
  have length : (Cache.init : Cache cachePages cacheHash T).freePages.length = cachePages := List.length_finRange
  cases first : (Cache.init : Cache cachePages cacheHash T).freePages with
  | nil =>
    rw [first] at length
    exact absurd length some.ne
  | cons p freePages =>
    rw [first] at length
    exact ⟨p, freePages, rfl, length⟩

/-- A page is allocated. -/
theorem run_conserves_allocated : ∃ c : Cache memoryPages (memoryPages / 2) Unit, Right c ∧ ∃ p, c.hand () = [p] := by
  obtain ⟨p, freePages, some, _⟩ := init_freePages (memoryPages / 2) Unit (show 0 < memoryPages by decide)
  let start : Cache memoryPages (memoryPages / 2) Unit := .init
  have moved : step start () .getFreePage =
      Option.some { start.takePage () p freePages with cachePagesFree := start.cachePagesFree - 1 } := by
    rw [step, getFreePage, some]
  exact ⟨_, run_conserves (.step () .getFreePage .init trivial moved), p, rfl⟩

/-- The fast allocator takes a page and leaves the counter. -/
theorem fast_uncounted : ∃ c : Cache memoryPages (memoryPages / 2) Unit,
    step .init () .getFreePageIfAvailable = some c ∧ c.cachePagesFree.toNat ≠ c.freePages.length := by
  obtain ⟨p, freePages, first, length⟩ := init_freePages (memoryPages / 2) Unit (show 0 < memoryPages by decide)
  refine ⟨_, rfl, ?_⟩
  rw [getFreePageIfAvailable, first]
  have counter : (BitVec.ofNat 32 memoryPages).toNat = memoryPages := by decide
  show (BitVec.ofNat 32 memoryPages).toNat ≠ freePages.length
  omega

end Pclsync.Proofs.Pool
