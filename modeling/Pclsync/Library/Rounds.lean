import Mathlib

/-! Selection in rounds. Every round sets its share of the best apart, by its own
comparison, and the next one goes on with the rest. -/

namespace Pclsync.Library

variable {α β : Type*}

/-- From `pool` the rounds leave `rest`. -/
def Chosen : List ((α → α → ℤ) × ℕ) → List α → List α → Prop
  | [], pool, rest => rest.Perm pool
  | (compar, share) :: rounds, pool, rest => ∃ best others, (best ++ others).Perm pool ∧ best.length = share ∧
      (∀ one ∈ best, ∀ other ∈ others, compar one other ≤ 0) ∧ Chosen rounds others rest

namespace Chosen
variable {rounds : List ((α → α → ℤ) × ℕ)} {pool rest : List α}

/-- What was set apart and what was left make up the pool. -/
theorem parts (chosen : Chosen rounds pool rest) :
    ∃ kept, (kept ++ rest).Perm pool ∧ kept.length = (rounds.map Prod.snd).sum := by
  induction rounds generalizing pool with
  | nil => exact ⟨[], chosen, rfl⟩
  | cons round rounds ih =>
    obtain ⟨best, others, split, share, _, later⟩ := chosen
    obtain ⟨kept, halves, count⟩ := ih later
    refine ⟨best ++ kept, ?_, ?_⟩
    · rw [List.append_assoc]
      exact (halves.append_left best).trans split
    · rw [List.length_append, share, count, List.map_cons, List.sum_cons]

theorem subset (chosen : Chosen rounds pool rest) : ∀ item ∈ rest, item ∈ pool := by
  obtain ⟨kept, split, _⟩ := chosen.parts
  exact fun item member => split.subset (List.mem_append_right kept member)

theorem append {more : List ((α → α → ℤ) × ℕ)} {middle : List α} (first : Chosen rounds pool middle)
    (second : Chosen more middle rest) : Chosen (rounds ++ more) pool rest := by
  induction rounds generalizing pool with
  | nil =>
    cases more with
    | nil => exact List.Perm.trans second first
    | cons round more =>
      obtain ⟨best, others, split, later⟩ := second
      exact ⟨best, others, split.trans first, later⟩
  | cons round rounds ih =>
    obtain ⟨best, others, split, share, better, later⟩ := first
    exact ⟨best, others, split, share, better, ih later⟩

theorem of_perm {left : List α} (chosen : Chosen rounds pool rest) (same : left.Perm rest) : Chosen rounds pool left := by
  induction rounds generalizing pool with
  | nil => exact same.trans chosen
  | cons round rounds ih =>
    obtain ⟨best, others, split, share, better, later⟩ := chosen
    exact ⟨best, others, split, share, better, ih later⟩

/-- From nothing nothing is chosen. -/
theorem empty (none_asked : ∀ round ∈ rounds, round.2 = 0) : Chosen rounds [] [] := by
  induction rounds with
  | nil => exact List.Perm.refl _
  | cons round rounds ih =>
    refine ⟨[], [], List.Perm.refl _, (none_asked round List.mem_cons_self).symm, by simp, ?_⟩
    exact ih fun round member => none_asked round (List.mem_cons_of_mem _ member)

/-- Elements seen through a function, and comparisons that agree on them. -/
theorem map {image : β → α} {P : β → Prop} {rounds : List ((β → β → ℤ) × ℕ)} {others : List ((α → α → ℤ) × ℕ)}
    {pool rest : List β} (chosen : Chosen rounds pool rest) (inside : ∀ item ∈ pool, P item)
    (same : List.Forall₂ (fun round other => round.2 = other.2 ∧
      ∀ one two, P one → P two → round.1 one two ≤ 0 → other.1 (image one) (image two) ≤ 0) rounds others) :
    Chosen others (pool.map image) (rest.map image) := by
  induction same generalizing pool with
  | nil => exact List.Perm.map image chosen
  | cons alike _ ih =>
    obtain ⟨best, left, split, share, better, later⟩ := chosen
    have chosen_in : ∀ item ∈ best, P item := fun item member => inside item (split.subset (List.mem_append_left _ member))
    have left_in : ∀ item ∈ left, P item := fun item member => inside item (split.subset (List.mem_append_right _ member))
    refine ⟨best.map image, left.map image, ?_, ?_, ?_, ih later left_in⟩
    · rw [← List.map_append]
      exact split.map image
    · rw [List.length_map, share, alike.1]
    · intro first mapped second seen
      obtain ⟨one, early, rfl⟩ := List.mem_map.mp mapped
      obtain ⟨two, late, rfl⟩ := List.mem_map.mp seen
      exact alike.2 one two (chosen_in one early) (left_in two late) (better one early two late)

/-- An element that every round finds worse than all others is left when the
shares do not use up the pool. -/
theorem worst_left {worst : α} (chosen : Chosen rounds pool rest) (member : worst ∈ pool)
    (worse : ∀ round ∈ rounds, ∀ other ∈ pool, other ≠ worst → 0 < round.1 worst other)
    (several : (rounds.map Prod.snd).sum < pool.length) : worst ∈ rest := by
  induction rounds generalizing pool with
  | nil => exact chosen.mem_iff.mpr member
  | cons round rounds ih =>
    obtain ⟨best, others, split, share, better, later⟩ := chosen
    have count := split.length_eq
    rw [List.length_append] at count
    rw [List.map_cons, List.sum_cons] at several
    have left_in : ∀ item ∈ others, item ∈ pool := fun item member => split.subset (List.mem_append_right _ member)
    have stays : worst ∈ others := by
      rcases List.mem_append.mp (split.mem_iff.mpr member) with taken | left
      · obtain ⟨other, left⟩ := List.exists_mem_of_length_pos (show 0 < others.length by omega)
        by_cases same : other = worst
        · exact same ▸ left
        · have ranked := better worst taken other left
          have last := worse round List.mem_cons_self other (left_in other left) same
          omega
      · exact left
    exact ih later stays
      (fun round member other inside => worse round (List.mem_cons_of_mem _ member) other (left_in other inside))
      (by omega)

/-- An element that the first round finds better than all others is kept. -/
theorem best_kept {best : α} {compar : α → α → ℤ} {share : ℕ} (chosen : Chosen ((compar, share) :: rounds) pool rest)
    (once : pool.Nodup) (better : ∀ other ∈ pool, other ≠ best → 0 < compar other best) (positive : 0 < share) :
    best ∉ rest := by
  intro left
  obtain ⟨first, others, split, count, ranked, later⟩ := chosen
  have stays := later.subset best left
  obtain ⟨one, taken⟩ := List.exists_mem_of_length_pos (show 0 < first.length by omega)
  have distinct := (List.nodup_append.mp (split.nodup_iff.mpr once)).2.2 one taken best stays
  have less := ranked one taken best stays
  have greater := better one (split.subset (List.mem_append_left _ taken)) distinct
  omega

end Chosen
end Pclsync.Library
