import Mathlib

/-! Finitely many lists, and what they hold together. An item moves from one list to
another and the whole stays the same. -/

namespace Pclsync.Library.Shelves

variable {ι α : Type} [DecidableEq ι]

/-- What some of the lists hold. Nothing should try to compute it. -/
@[irreducible] def items (places : Finset ι) (shelves : ι → List α) : Multiset α := ∑ i ∈ places, (shelves i : Multiset α)

variable {places : Finset ι} {shelves : ι → List α} {i : ι} {a : α}

omit [DecidableEq ι] in
theorem mem_items : a ∈ items places shelves ↔ ∃ i ∈ places, a ∈ shelves i := by
  simp [items, Multiset.mem_sum]

theorem items_update (shelves : ι → List α) (member : i ∈ places) (new : List α) :
    items places (Function.update shelves i new) + shelves i = items places shelves + new := by
  rw [items, items, ← Finset.add_sum_erase _ _ member, ← Finset.add_sum_erase places (fun i => (shelves i : Multiset α)) member]
  have others : ∑ j ∈ places.erase i, (Function.update shelves i new j : Multiset α) = ∑ j ∈ places.erase i, (shelves j : Multiset α) := by
    apply Finset.sum_congr rfl
    intro j other
    rw [Function.update_of_ne (Finset.ne_of_mem_erase other)]
  rw [others, Function.update_self]
  abel

/-- An item at the end of a list. -/
def push (shelves : ι → List α) (i : ι) (a : α) : ι → List α := Function.update shelves i (shelves i ++ [a])

theorem items_push (member : i ∈ places) (a : α) : items places (push shelves i a) = items places shelves + {a} := by
  have whole := items_update shelves member (shelves i ++ [a])
  rw [← Multiset.coe_add, add_left_comm, add_comm (shelves i : Multiset α)] at whole
  have same := add_right_cancel whole
  rw [push, same]
  rfl

theorem items_push_cons (shelves : ι → List α) (member : i ∈ places) (a : α) : items places (push shelves i a) = a ::ₘ items places shelves := by
  rw [items_push member, add_comm, Multiset.singleton_add]

theorem mem_push {j : ι} {b : α} : b ∈ push shelves i a j ↔ b ∈ shelves j ∨ b = a ∧ j = i := by
  rw [push]
  by_cases own : j = i
  · subst own
    simp
  · simp [own]

/-- Each of some items at the end of its list. -/
def pushAll (shelves : ι → List α) (place : α → ι) (list : List α) : ι → List α :=
  list.foldl (fun shelves a => push shelves (place a) a) shelves

theorem items_pushAll (shelves : ι → List α) {place : α → ι} {list : List α} (member : ∀ a ∈ list, place a ∈ places) :
    items places (pushAll shelves place list) = items places shelves + list := by
  induction list generalizing shelves with
  | nil => simp [pushAll]
  | cons a list ih =>
    rw [pushAll, List.foldl_cons, ← pushAll, ih _ fun b later => member b (List.mem_cons_of_mem a later),
      items_push (member a List.mem_cons_self), add_assoc, Multiset.singleton_add, Multiset.cons_coe]

theorem mem_pushAll {place : α → ι} {list : List α} {j : ι} {b : α} :
    b ∈ pushAll shelves place list j ↔ b ∈ shelves j ∨ b ∈ list ∧ place b = j := by
  induction list generalizing shelves with
  | nil => simp [pushAll]
  | cons a list ih =>
    rw [pushAll, List.foldl_cons, ← pushAll, ih, mem_push, List.mem_cons]
    constructor
    · rintro ((old | ⟨rfl, rfl⟩) | ⟨later, same⟩)
      · exact .inl old
      · exact .inr ⟨.inl rfl, rfl⟩
      · exact .inr ⟨.inr later, same⟩
    · rintro (old | ⟨rfl | later, same⟩)
      · exact .inl (.inl old)
      · exact .inl (.inr ⟨rfl, same.symm⟩)
      · exact .inr ⟨later, same⟩

/-- A list that gets nothing. -/
theorem pushAll_other {place : α → ι} {j : ι} (other : ∀ a, place a ≠ j) (list : List α) :
    pushAll shelves place list j = shelves j := by
  induction list generalizing shelves with
  | nil => rfl
  | cons a list ih =>
    rw [pushAll, List.foldl_cons, ← pushAll, ih, push, Function.update_of_ne (other a).symm]

theorem items_clear (shelves : ι → List α) (member : i ∈ places) :
    items places (Function.update shelves i []) + shelves i = items places shelves := by
  have whole := items_update shelves member []
  rwa [Multiset.coe_nil, add_zero] at whole

theorem items_filter (keep : α → Bool) :
    items places (fun i => (shelves i).filter keep) = (items places shelves).filter fun a => keep a = true := by
  induction places using Finset.induction_on with
  | empty => simp [items]
  | insert i places fresh ih =>
    rw [items] at ih ⊢
    rw [items, Finset.sum_insert fresh, Finset.sum_insert fresh, ih, Multiset.filter_add, Multiset.filter_coe]
    simp [items]

theorem items_cons (shelves : ι → List α) (member : i ∈ places) (a : α) : items places (Function.update shelves i (a :: shelves i)) = a ::ₘ items places shelves := by
  have whole := items_update shelves member (a :: shelves i)
  rw [← Multiset.cons_coe, Multiset.add_cons, ← Multiset.cons_add] at whole
  exact add_right_cancel whole

theorem items_tail {rest : List α} (member : i ∈ places) (first : shelves i = a :: rest) :
    a ::ₘ items places (Function.update shelves i rest) = items places shelves := by
  have whole := items_update shelves member rest
  rw [first, ← Multiset.cons_coe, Multiset.add_cons, ← Multiset.cons_add] at whole
  exact add_right_cancel whole

theorem items_erase [DecidableEq α] (member : i ∈ places) (inside : a ∈ shelves i) :
    a ::ₘ items places (Function.update shelves i ((shelves i).erase a)) = items places shelves := by
  have whole := items_update shelves member ((shelves i).erase a)
  have split : (shelves i : Multiset α) = a ::ₘ ((shelves i).erase a : Multiset α) := Multiset.coe_eq_coe.mpr (List.perm_cons_erase inside)
  rw [split, Multiset.add_cons, ← Multiset.cons_add] at whole
  exact add_right_cancel whole

omit [DecidableEq ι] in
theorem card_items : (items places shelves).card = ∑ i ∈ places, (shelves i).length := by
  simp [items]

omit [DecidableEq ι] in
theorem count_items [DecidableEq α] (a : α) : (items places shelves).count a = ∑ i ∈ places, (shelves i).count a := by
  simp [items, Multiset.count_sum']

/-- An item that is there once is in one list only. -/
theorem eq_of_once [DecidableEq α] {j : ι} (once : (items places shelves).count a ≤ 1) (member : i ∈ places) (other : j ∈ places)
    (first : a ∈ shelves i) (second : a ∈ shelves j) : i = j := by
  by_contra distinct
  rw [count_items] at once
  have both : (shelves i).count a + (shelves j).count a ≤ ∑ i ∈ places, (shelves i).count a := by
    rw [← Finset.sum_pair (f := fun i => (shelves i).count a) distinct]
    exact Finset.sum_le_sum_of_subset (by simp [Finset.insert_subset_iff, member, other])
  have one := List.count_pos_iff.mpr first
  have two := List.count_pos_iff.mpr second
  omega

/-- The lists one after the other. -/
def gather {count : ℕ} (shelves : Fin count → List α) : List α := (List.finRange count).flatMap shelves

theorem gather_items {count : ℕ} (shelves : Fin count → List α) : (gather shelves : Multiset α) = items Finset.univ shelves := by
  have each (places : List (Fin count)) : (places.flatMap shelves : Multiset α) = (places.map fun i => (shelves i : Multiset α)).sum := by
    induction places with
    | nil => rfl
    | cons i places ih => rw [List.flatMap_cons, ← Multiset.coe_add, ih, List.map_cons, List.sum_cons]
  rw [gather, each, items, Fin.sum_univ_def]

end Pclsync.Library.Shelves
