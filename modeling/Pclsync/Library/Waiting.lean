import Mathlib.Data.List.Basic

/-! Tasks that wait for others, as the pairs of a table. A task is done when it waits for none. -/

namespace Pclsync.Library.Waiting

variable {α : Type} [DecidableEq α]

/-- Who waits, and for whom. -/
abbrev Table (α : Type) := List (α × α)

inductive Event (α : Type) where
  | done (who : α)
  | removed (who : α)
  | written (pairs : Table α)
deriving DecidableEq, Repr

/-- Nobody waits for it any more. -/
def clear (table : Table α) (who : α) : Table α := table.filter fun pair => pair.2 ≠ who

def step (table : Table α) : Event α → Option (Table α)
  | .done who => if ∀ pair ∈ table, pair.1 ≠ who then some (clear table who) else none
  | .removed who => some (clear table who)
  | .written pairs => some (table ++ pairs)

def run (table : Table α) (events : List (Event α)) : Option (Table α) := events.foldlM step table

variable {table later last : Table α} {event : Event α} {who other : α}

/-- A pair is there until the task that is waited for is gone. -/
theorem step_pair (taken : step table event = some later) (waits : (who, other) ∈ table) :
    (who, other) ∈ later ∨ event = .done other ∨ event = .removed other := by
  have kept : ∀ gone, gone ≠ other → (who, other) ∈ clear table gone := by
    intro gone differs
    unfold clear
    rw [List.mem_filter, decide_eq_true_iff]
    exact ⟨waits, differs.symm⟩
  cases event with
  | done gone =>
    simp only [step] at taken
    split at taken
    · cases taken
      by_cases same : gone = other
      · exact Or.inr (Or.inl (congrArg Event.done same))
      · exact Or.inl (kept gone same)
    · cases taken
  | removed gone =>
    cases taken
    by_cases same : gone = other
    · exact Or.inr (Or.inr (congrArg Event.removed same))
    · exact Or.inl (kept gone same)
  | written pairs =>
    cases taken
    exact Or.inl (List.mem_append_left pairs waits)

/-- A task that waits is done only after the other one is gone. -/
theorem run_after {before after : List (Event α)} (taken : run table (before ++ .done who :: after) = some last)
    (waits : (who, other) ∈ table) : .done other ∈ before ∨ .removed other ∈ before := by
  induction before generalizing table with
  | nil =>
    unfold run at taken
    rw [List.nil_append, List.foldlM_cons] at taken
    have refused : step table (.done who) = none := if_neg fun free => free _ waits rfl
    rw [refused] at taken
    cases taken
  | cons event before ih =>
    unfold run at taken
    rw [List.cons_append, List.foldlM_cons] at taken
    cases stepped : step table event with
    | none =>
      rw [stepped] at taken
      cases taken
    | some next =>
      rw [stepped] at taken
      obtain stays | gone | gone := step_pair stepped waits
      · exact (ih taken stays).imp (List.mem_cons_of_mem event) (List.mem_cons_of_mem event)
      · exact Or.inl (gone ▸ List.mem_cons_self)
      · exact Or.inr (gone ▸ List.mem_cons_self)

end Pclsync.Library.Waiting
