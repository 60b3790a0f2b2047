import Mathlib

/-! How many members of a finite set have a value, when one member changes or one
value takes the place of another everywhere. -/

namespace Pclsync.Library.Census

variable {T α : Type} [DecidableEq α]

def tally (members : Finset T) (family : T → α) (value : α) : ℕ := (members.filter fun t => family t = value).card

variable {members : Finset T} {family : T → α} {value source target : α} {t other : T}

theorem tally_pos (member : t ∈ members) (own : family t = value) : 0 < tally members family value :=
  Finset.card_pos.mpr ⟨t, Finset.mem_filter.mpr ⟨member, own⟩⟩

theorem exists_of_tally (some : tally members family value ≠ 0) : ∃ t ∈ members, family t = value := by
  obtain ⟨t, member⟩ := Finset.card_pos.mp (Nat.pos_of_ne_zero some)
  exact ⟨t, Finset.mem_filter.mp member⟩

theorem ne_of_tally (none : tally members family value = 0) (member : t ∈ members) : family t ≠ value := by
  intro own
  have some := tally_pos member own
  omega

/-- A value that one member at most has. -/
theorem eq_of_tally (one : tally members family value ≤ 1) (member : t ∈ members) (otherMember : other ∈ members)
    (own : family t = value) (same : family other = value) : t = other :=
  Finset.card_le_one.mp one t (Finset.mem_filter.mpr ⟨member, own⟩) other (Finset.mem_filter.mpr ⟨otherMember, same⟩)

/-- The members with one of some values. -/
theorem card_kinds (members : Finset T) (family : T → α) {kinds : List α} (distinct : kinds.Nodup) :
    (members.filter fun t => family t ∈ kinds).card = (kinds.map (tally members family)).sum := by
  induction kinds with
  | nil => simp
  | cons kind kinds ih =>
    obtain ⟨absent, distinct⟩ := List.nodup_cons.mp distinct
    simp only [List.mem_cons, List.map_cons, List.sum_cons, ← ih distinct, tally]
    classical
    rw [Finset.filter_or, Finset.card_union_of_disjoint]
    apply Finset.disjoint_filter.mpr
    intro t _ own other
    exact absent (own ▸ other)

section One
variable [DecidableEq T]

/-- One member and the others. -/
theorem tally_erase (member : t ∈ members) (family : T → α) (value : α) :
    tally members family value = tally (members.erase t) family value + if family t = value then 1 else 0 := by
  rw [tally, tally, ← Finset.insert_erase member, Finset.filter_insert, Finset.erase_insert (by simp)]
  split
  · rw [Finset.card_insert_of_notMem (by simp)]
  · rfl

/-- The others do not change with one member. -/
theorem tally_erase_update (family : T → α) (t : T) (new value : α) :
    tally (members.erase t) (Function.update family t new) value = tally (members.erase t) family value := by
  rw [tally, tally]
  congr 1
  apply Finset.filter_congr
  intro other member
  rw [Function.update_of_ne (Finset.ne_of_mem_erase member)]

theorem tally_update (member : t ∈ members) (family : T → α) (new value : α) :
    tally members (Function.update family t new) value =
      tally (members.erase t) family value + if new = value then 1 else 0 := by
  rw [tally_erase member, tally_erase_update, Function.update_self]

omit [DecidableEq α] in
theorem sum_update (member : t ∈ members) (weight : α → ℕ) (family : T → α) (new : α) :
    ∑ other ∈ members, weight (Function.update family t new other) + weight (family t) =
      ∑ other ∈ members, weight (family other) + weight new := by
  rw [← Finset.add_sum_erase members _ member, ← Finset.add_sum_erase members (fun other => weight (family other)) member,
    Function.update_self]
  have others : ∑ other ∈ members.erase t, weight (Function.update family t new other) =
      ∑ other ∈ members.erase t, weight (family other) := by
    apply Finset.sum_congr rfl
    intro other inside
    rw [Function.update_of_ne (Finset.ne_of_mem_erase inside)]
  rw [others]
  ring

end One

/-- One value in the place of another. -/
def merge (source target : α) (value : α) : α := if value = source then target else value

theorem merge_of_ne (other : value ≠ source) : merge source target value = value := if_neg other

theorem tally_merge_source (distinct : source ≠ target) : tally members (merge source target ∘ family) source = 0 := by
  rw [tally, Finset.card_eq_zero, Finset.filter_eq_empty_iff]
  intro t _
  rw [Function.comp_apply, merge]
  split
  · exact distinct.symm
  · assumption

theorem tally_merge_target [DecidableEq T] (distinct : source ≠ target) :
    tally members (merge source target ∘ family) target =
      tally members family target + tally members family source := by
  rw [tally, tally, tally, ← Finset.card_union_of_disjoint]
  · congr 1
    ext t
    rw [Finset.mem_union, Finset.mem_filter, Finset.mem_filter, Finset.mem_filter, Function.comp_apply, merge]
    by_cases own : family t = source
    · simp [own, distinct]
    · simp [own]
  · rw [Finset.disjoint_filter]
    intro t _ own same
    exact distinct (same.symm.trans own)

theorem tally_merge_of_ne (notSource : value ≠ source) (notTarget : value ≠ target) :
    tally members (merge source target ∘ family) value = tally members family value := by
  rw [tally, tally]
  congr 1
  apply Finset.filter_congr
  intro t _
  rw [Function.comp_apply, merge]
  split
  · next own =>
    rw [own]
    exact iff_of_false notTarget.symm notSource.symm
  · exact Iff.rfl

end Pclsync.Library.Census
