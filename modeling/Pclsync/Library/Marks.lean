import Mathlib

/-! Marks on a forest. An item is marked while it has something of its own or a marked
child, and counts its marked children. A mark that comes or goes is one link for the
parent to count, and the parent may get or lose its own mark with it. -/

namespace Pclsync.Library.Marks

structure Mark where
  children : ℕ
  own : Bool
deriving DecidableEq, Repr

variable {T : Type} [DecidableEq T]

/-- The marked children of an item. -/
def kids (marks : T → Option Mark) (parent : T → Option T) (t : T) : Set T := {k | marks k ≠ none ∧ parent k = some t}

/-- One link for the item at a place. -/
def link (place : Option T) (t : T) : ℕ := if place = some t then 1 else 0

/-- Every marked item counts its marked children, except that one child may still be
counted at one item (`lacks`) and one that is gone may be counted at another (`owes`). -/
structure Tally (marks : T → Option Mark) (parent : T → Option T) (lacks owes : Option T) : Prop where
  finite : {t | marks t ≠ none}.Finite
  unmarked : ∀ t, marks t = none → (kids marks parent t).ncard = link lacks t ∧ link owes t = 0
  counted : ∀ t mark, marks t = some mark → mark.children + link lacks t = (kids marks parent t).ncard + link owes t
  used : ∀ t mark, marks t = some mark → mark.own = true ∨ 0 < mark.children

variable {marks : T → Option Mark} {parent other : T → Option T} {lacks owes : Option T} {t k p : T} {mark : Mark}

@[simp] theorem link_none (t : T) : link none t = 0 := by simp [link]

@[simp] theorem link_self (t : T) : link (some t) t = 1 := by simp [link]

theorem link_of_ne (ne : p ≠ t) : link (some p) t = 0 := by simp [link, ne]

omit [DecidableEq T] in
theorem kids_finite (finite : {t | marks t ≠ none}.Finite) (parent : T → Option T) (t : T) : (kids marks parent t).Finite :=
  finite.subset fun _ member => member.1

/-- The children that are marked do not change with the mark of a marked item. -/
theorem kids_update (marked : marks k ≠ none) (mark : Mark) (t : T) :
    kids (Function.update marks k (some mark)) parent t = kids marks parent t := by
  ext j
  by_cases own : j = k
  · subst own
    simp [kids, marked]
  · simp [kids, own]

/-- A new mark is one more marked child of the parent. -/
theorem kids_mark (parent : T → Option T) (finite : {t | marks t ≠ none}.Finite) (unmarked : marks k = none) (mark : Mark) (t : T) :
    (kids (Function.update marks k (some mark)) parent t).ncard = (kids marks parent t).ncard + link (parent k) t := by
  by_cases child : parent k = some t
  · have more : kids (Function.update marks k (some mark)) parent t = insert k (kids marks parent t) := by
      ext j
      by_cases own : j = k
      · subst own
        simp [kids, child]
      · simp [kids, own]
    have absent : k ∉ kids marks parent t := fun member => member.1 unmarked
    rw [more, Set.ncard_insert_of_notMem absent (kids_finite finite parent t), link, if_pos child]
  · have same : kids (Function.update marks k (some mark)) parent t = kids marks parent t := by
      ext j
      by_cases own : j = k
      · subst own
        simp [kids, child]
      · simp [kids, own]
    rw [same, link, if_neg child, Nat.add_zero]

/-- A mark that goes is one marked child less. -/
theorem kids_unmark (parent : T → Option T) (finite : {t | marks t ≠ none}.Finite) (marked : marks k ≠ none) (t : T) :
    (kids (Function.update marks k none) parent t).ncard + link (parent k) t = (kids marks parent t).ncard := by
  obtain ⟨mark, found⟩ := Option.ne_none_iff_exists'.mp marked
  have unmarked : Function.update marks k none k = none := Function.update_self ..
  have less : {t | Function.update marks k none t ≠ none}.Finite := by
    apply finite.subset
    intro j member
    by_cases own : j = k
    · subst own
      simp at member
    · simpa [own] using member
  have whole := kids_mark parent less unmarked mark t
  rw [Function.update_idem, Function.update_eq_self_iff.mpr found.symm] at whole
  exact whole.symm

theorem finite_update (finite : {t | marks t ≠ none}.Finite) (t : T) (new : Option Mark) :
    {k | Function.update marks t new k ≠ none}.Finite := by
  apply (finite.insert t).subset
  intro k member
  by_cases own : k = t
  · exact .inl own
  · exact .inr (by simpa [own] using member)

namespace Tally

theorem init : Tally (fun _ : T => none) parent none none where
  finite := by simp
  unmarked t _ := by simp [kids]
  counted t mark found := by simp at found
  used t mark found := by simp at found

/-- The place where a link is owed is marked. -/
theorem marked_of_owes (tally : Tally marks parent lacks (some t)) : marks t ≠ none := by
  intro absent
  have none := (tally.unmarked t absent).2
  simp at none

/-- The parent of a marked item is marked, unless it still lacks a link. -/
theorem marked_parent (tally : Tally marks parent lacks owes) (marked : marks k ≠ none) (above : parent k = some p)
    (counted : lacks ≠ some p) : marks p ≠ none := by
  intro absent
  have zero := (tally.unmarked p absent).1
  rw [link, if_neg counted, Set.ncard_eq_zero (kids_finite tally.finite parent p)] at zero
  have member : k ∈ kids marks parent p := ⟨marked, above⟩
  rw [zero] at member
  exact member

/-- A marked item changes what it has of its own and what it counts. -/
theorem revise {new : Mark} {fewer less : Option T} (tally : Tally marks parent lacks owes) (found : marks t = some mark)
    (counts : new.children + link fewer t + link owes t = mark.children + link lacks t + link less t)
    (keeps : new.own = true ∨ 0 < new.children) (others : ∀ k, k ≠ t → link fewer k = link lacks k ∧ link less k = link owes k) :
    Tally (Function.update marks t (some new)) parent fewer less where
  finite := finite_update tally.finite t _
  unmarked k missing := by
    have other : k ≠ t := by
      rintro rfl
      simp at missing
    rw [Function.update_of_ne other] at missing
    rw [kids_update (by simp [found]), (others k other).1, (others k other).2]
    exact tally.unmarked k missing
  counted k read same := by
    rw [kids_update (by simp [found])]
    by_cases own : k = t
    · subst own
      have old := tally.counted k mark found
      rw [Function.update_self, Option.some.injEq] at same
      subst same
      omega
    · rw [Function.update_of_ne own] at same
      rw [(others k own).1, (others k own).2]
      exact tally.counted k read same
  used k read same := by
    by_cases own : k = t
    · subst own
      rw [Function.update_self, Option.some.injEq] at same
      subst same
      exact keeps
    · rw [Function.update_of_ne own] at same
      exact tally.used k read same

/-- An item without a mark gets one that counts the link it lacked, if any, and its parent
lacks one then. -/
theorem begin (tally : Tally marks parent lacks owes) (new : Mark) (absent : marks t = none) (counts : new.children = link lacks t)
    (keeps : new.own = true ∨ 0 < new.children) (others : ∀ k, k ≠ t → link lacks k = 0) (notSelf : parent t ≠ some t) :
    Tally (Function.update marks t (some new)) parent (parent t) owes where
  finite := finite_update tally.finite t _
  unmarked k missing := by
    have other : k ≠ t := by
      rintro rfl
      simp at missing
    rw [Function.update_of_ne other] at missing
    have old := tally.unmarked k missing
    rw [others k other] at old
    rw [kids_mark parent tally.finite absent]
    exact ⟨by rw [old.1, Nat.zero_add], old.2⟩
  counted k read same := by
    rw [kids_mark parent tally.finite absent]
    by_cases own : k = t
    · subst own
      have old := tally.unmarked k absent
      have zero : link (parent k) k = 0 := if_neg notSelf
      rw [Function.update_self, Option.some.injEq] at same
      subst same
      omega
    · rw [Function.update_of_ne own] at same
      have old := tally.counted k read same
      rw [others k own] at old
      omega
  used k read same := by
    by_cases own : k = t
    · subst own
      rw [Function.update_self, Option.some.injEq] at same
      subst same
      exact keeps
    · rw [Function.update_of_ne own] at same
      exact tally.used k read same

/-- An item whose marked children are all gone loses its mark, and its parent owes the
link. -/
theorem unmark (tally : Tally marks parent none owes) (found : marks t = some mark) (gone : mark.children = link owes t)
    (others : ∀ k, k ≠ t → link owes k = 0) (notSelf : parent t ≠ some t) :
    Tally (Function.update marks t none) parent none (parent t) where
  finite := finite_update tally.finite t _
  unmarked k missing := by
    have whole := kids_unmark parent tally.finite (by simp [found] : marks t ≠ none) k
    by_cases own : k = t
    · subst own
      have old := tally.counted k mark found
      have zero : link (parent k) k = 0 := if_neg notSelf
      rw [link_none] at old ⊢
      exact ⟨by omega, zero⟩
    · rw [Function.update_of_ne own] at missing
      have old := tally.unmarked k missing
      rw [link_none] at old ⊢
      omega
  counted k read same := by
    have whole := kids_unmark parent tally.finite (by simp [found] : marks t ≠ none) k
    by_cases own : k = t
    · subst own
      simp at same
    · rw [Function.update_of_ne own] at same
      have old := tally.counted k read same
      rw [others k own] at old
      omega
  used k read same := by
    by_cases own : k = t
    · subst own
      simp at same
    · rw [Function.update_of_ne own] at same
      exact tally.used k read same

/-- A marked item that changes its parent is lacking at the new one and owed at the old
one. -/
theorem move (tally : Tally marks parent none none) (marked : marks k ≠ none) (above : parent k = some t) (new : T) :
    Tally marks (Function.update parent k (some new)) (some new) (some t) := by
  have moved : ∀ j, (kids marks (Function.update parent k (some new)) j).ncard + link (some t) j =
      (kids marks parent j).ncard + link (some new) j := by
    intro j
    have before := kids_unmark parent tally.finite marked j
    have after := kids_unmark (Function.update parent k (some new)) tally.finite marked j
    rw [Function.update_self] at after
    rw [above] at before
    have same : kids (Function.update marks k none) (Function.update parent k (some new)) j =
        kids (Function.update marks k none) parent j := by
      ext i
      by_cases own : i = k
      · subst own
        simp [kids]
      · simp [kids, own]
    rw [same] at after
    omega
  refine ⟨tally.finite, ?_, ?_, tally.used⟩
  · intro j absent
    have old := tally.unmarked j absent
    have other : t ≠ j := by
      rintro rfl
      exact tally.marked_parent marked above (by simp) absent
    have change := moved j
    rw [link_of_ne other] at change ⊢
    simp only [link_none] at old
    exact ⟨by omega, rfl⟩
  · intro j read found
    have old := tally.counted j read found
    have change := moved j
    simp only [link_none] at old
    omega

/-- The parents of items without a mark do not matter. -/
theorem reparent (tally : Tally marks parent lacks owes) (same : ∀ t, marks t ≠ none → other t = parent t) :
    Tally marks other lacks owes := by
  have alike : ∀ t, kids marks other t = kids marks parent t := by
    intro t
    ext k
    constructor
    · rintro ⟨marked, above⟩
      exact ⟨marked, same k marked ▸ above⟩
    · rintro ⟨marked, above⟩
      exact ⟨marked, (same k marked).trans above⟩
  refine ⟨tally.finite, ?_, ?_, tally.used⟩
  · intro t absent
    rw [alike]
    exact tally.unmarked t absent
  · intro t mark found
    rw [alike]
    exact tally.counted t mark found

/-- An item is marked when something at or below it has something of its own. -/
theorem marked_iff {rank : T → ℕ} (tally : Tally marks parent none none)
    (forest : ∀ k p, parent k = some p → rank p < rank k) (t : T) :
    marks t ≠ none ↔ ∃ k, Relation.ReflTransGen (fun k p => parent k = some p) k t ∧ ∃ mark, marks k = some mark ∧ mark.own = true := by
  constructor
  · intro marked
    -- a marked item of the greatest rank below it has no marked child
    let below : Set T := {k | marks k ≠ none ∧ Relation.ReflTransGen (fun k p => parent k = some p) k t}
    have finite : below.Finite := tally.finite.subset fun _ member => member.1
    obtain ⟨k, member, greatest⟩ := finite.exists_maximalFor rank below ⟨t, marked, .refl⟩
    obtain ⟨mark, found⟩ := Option.ne_none_iff_exists'.mp member.1
    refine ⟨k, member.2, mark, found, ?_⟩
    have empty : kids marks parent k = ∅ := by
      ext j
      constructor
      · rintro ⟨child, above⟩
        have higher := forest j k above
        have least := greatest ⟨child, .head above member.2⟩ (by omega)
        omega
      · simp
    have count := tally.counted k mark found
    rw [empty] at count
    simp at count
    have used := tally.used k mark found
    simpa [count] using used
  · rintro ⟨k, chain, mark, found, -⟩
    have marked : marks k ≠ none := by simp [found]
    clear found
    induction chain with
    | refl => exact marked
    | tail _ above ih => exact tally.marked_parent ih above (by simp)

end Tally

/-- Whether an item has something of its own. -/
def owned (marks : T → Option Mark) (t : T) : Bool := (marks t).any Mark.own

theorem owned_update_of_eq {new : Option Mark} (same : new.any Mark.own = owned marks t) :
    owned (Function.update marks t new) = owned marks := by
  funext k
  by_cases own : k = t
  · subst own
    simpa [owned] using same
  · simp [owned, own]

/-- Marks that only come and count more. -/
def Grows (marks after : T → Option Mark) : Prop :=
  ∀ t mark, marks t = some mark → ∃ more, after t = some ⟨mark.children + more, mark.own⟩

omit [DecidableEq T] in
theorem Grows.refl (marks : T → Option Mark) : Grows marks marks := fun _ _ found => ⟨0, found⟩

omit [DecidableEq T] in
theorem Grows.trans {middle after : T → Option Mark} (first : Grows marks middle) (second : Grows middle after) : Grows marks after := by
  intro t mark found
  obtain ⟨more, between⟩ := first t mark found
  obtain ⟨rest, last⟩ := second t _ between
  exact ⟨more + rest, by rw [last, Nat.add_assoc]⟩

theorem grows_update {new : Mark} (counts : ∀ mark, marks t = some mark → ∃ more, new = ⟨mark.children + more, mark.own⟩) :
    Grows marks (Function.update marks t (some new)) := by
  intro k mark found
  by_cases own : k = t
  · subst own
    obtain ⟨more, same⟩ := counts mark found
    exact ⟨more, by rw [Function.update_self, same]⟩
  · exact ⟨0, by rw [Function.update_of_ne own, found, Nat.add_zero]⟩

omit [DecidableEq T] in
theorem Grows.marked {after : T → Option Mark} (grows : Grows marks after) (marked : marks t ≠ none) : after t ≠ none := by
  obtain ⟨mark, found⟩ := Option.ne_none_iff_exists'.mp marked
  obtain ⟨more, same⟩ := grows t mark found
  simp [same]

/-- The items that lose their marks when an item loses one child. -/
inductive Empties (marks : T → Option Mark) (parent : T → Option T) : T → T → Prop where
  | here {t : T} : marks t = some ⟨1, false⟩ → Empties marks parent t t
  | above {t p k : T} : marks t = some ⟨1, false⟩ → parent t = some p → Empties marks parent p k → Empties marks parent t k

omit [DecidableEq T] in
theorem Empties.mono {before : T → Option Mark} (fewer : ∀ t, marks t = some ⟨1, false⟩ → before t = some ⟨1, false⟩)
    (empties : Empties marks parent t k) : Empties before parent t k := by
  induction empties with
  | here last => exact .here (fewer _ last)
  | above last up _ ih => exact .above (fewer _ last) up ih

omit [DecidableEq T] in
theorem Empties.last (empties : Empties marks parent t k) : marks t = some ⟨1, false⟩ := by
  cases empties with
  | here last => exact last
  | above last _ _ => exact last

section Grown
variable {after : T → Option Mark} {up : T → Option T}

/-- A mark that counts one child after the marks grew counted it before. -/
theorem Tally.single (tally : Tally marks parent lacks owes) (grows : Grows marks after) (marked : marks t ≠ none)
    (last : after t = some ⟨1, false⟩) : marks t = some ⟨1, false⟩ := by
  obtain ⟨mark, found⟩ := Option.ne_none_iff_exists'.mp marked
  obtain ⟨more, same⟩ := grows t mark found
  rw [last, Option.some.injEq, Mark.mk.injEq] at same
  have used := tally.used t mark found
  rw [← same.2] at used
  have positive : 0 < mark.children := by simpa using used
  rw [found, show mark = ⟨mark.children, mark.own⟩ from rfl, ← same.2, show mark.children = 1 by omega]

/-- A parent that was marked before its child counts more than that child. -/
theorem Tally.not_single (tally : Tally marks parent lacks owes) (later : Tally after parent none owes) (grows : Grows marks after)
    (absent : marks k = none) (present : after k ≠ none) (above : parent k = some t) (marked : marks t ≠ none) :
    after t ≠ some ⟨1, false⟩ := by
  intro last
  have before := tally.counted t _ (tally.single grows marked last)
  have now := later.counted t _ last
  have more : kids marks parent t ⊂ kids after parent t := by
    refine ⟨fun j member => ⟨grows.marked member.1, member.2⟩, fun all => ?_⟩
    exact (all ⟨present, above⟩ : k ∈ kids marks parent t).1 absent
  have fewer := Set.ncard_lt_ncard more (kids_finite later.finite parent t)
  rw [link_none] at now
  simp only at before now
  omega

/-- Where marks came and counts grew, only new marks are lost besides those that were lost
before. -/
theorem Empties.of_grows (tally : Tally marks parent lacks owes) (later : Tally after parent none owes) (grows : Grows marks after)
    (agree : ∀ k, marks k = none → up k = parent k) (empties : Empties after up t k) :
    (marks t ≠ none → Empties marks up t k ∨ marks k = none) ∧ (marks t = none → marks k = none) := by
  induction empties with
  | here last => exact ⟨fun marked => .inl (.here (tally.single grows marked last)), id⟩
  | @above t p k last next rest ih =>
    constructor
    · intro marked
      have first := tally.single grows marked last
      by_cases absent : marks p = none
      · exact .inr (ih.2 absent)
      · obtain old | new := ih.1 absent
        · exact .inl (.above first next old)
        · exact .inr new
    · intro absent
      have present : after t ≠ none := by simp [last]
      by_cases parentAbsent : marks p = none
      · exact ih.2 parentAbsent
      · exact absurd rest.last (tally.not_single later grows absent present (agree t absent ▸ next) parentAbsent)

end Grown

end Pclsync.Library.Marks
