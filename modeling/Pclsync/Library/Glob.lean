import Mathlib

/-! What patterns with wildcards mean, over any alphabet. -/

namespace Pclsync.Library.Glob

/-- A symbol of a pattern: a letter, any one letter, or any run of letters. -/
inductive Symbol (α : Type*) where
  | letter (letter : α)
  | any
  | run
deriving DecidableEq, Repr

variable {α : Type*} {symbols : List (Symbol α)} {text : List α}

/-- The text is made of a piece for each symbol, in order. -/
def Matches : List (Symbol α) → List α → Prop
  | [], text => text = []
  | .letter letter :: symbols, text => ∃ rest, text = letter :: rest ∧ Matches symbols rest
  | .any :: symbols, text => ∃ letter rest, text = letter :: rest ∧ Matches symbols rest
  | .run :: symbols, text => ∃ piece rest, text = piece ++ rest ∧ Matches symbols rest

theorem matches_letter_nil {letter : α} : ¬ Matches (.letter letter :: symbols) [] := by
  rintro ⟨rest, empty, _⟩
  cases empty

theorem matches_letter_cons {letter head : α} :
    Matches (.letter letter :: symbols) (head :: text) ↔ letter = head ∧ Matches symbols text := by
  constructor
  · rintro ⟨rest, same, matched⟩
    obtain ⟨rfl, rfl⟩ := List.cons_eq_cons.mp same
    exact ⟨rfl, matched⟩
  · rintro ⟨rfl, matched⟩
    exact ⟨text, rfl, matched⟩

theorem matches_any_nil : ¬ Matches (.any :: symbols) ([] : List α) := by
  rintro ⟨letter, rest, empty, _⟩
  cases empty

theorem matches_any_cons {head : α} : Matches (.any :: symbols) (head :: text) ↔ Matches symbols text := by
  constructor
  · rintro ⟨letter, rest, same, matched⟩
    obtain ⟨rfl, rfl⟩ := List.cons_eq_cons.mp same
    exact matched
  · exact fun matched => ⟨head, text, rfl, matched⟩

/-- A last run takes everything. -/
theorem matches_run : Matches [.run] text := ⟨text, [], (List.append_nil text).symm, rfl⟩

/-- A run is empty or begins with one letter more. -/
theorem matches_run_cons {head : α} :
    Matches (.run :: symbols) (head :: text) ↔ Matches symbols (head :: text) ∨ Matches (.run :: symbols) text := by
  constructor
  · rintro ⟨piece, rest, same, matched⟩
    cases piece with
    | nil =>
      rw [List.nil_append] at same
      exact .inl (same ▸ matched)
    | cons letter piece =>
      rw [List.cons_append] at same
      obtain ⟨rfl, rfl⟩ := List.cons_eq_cons.mp same
      exact .inr ⟨piece, rest, rfl, matched⟩
  · rintro (matched | ⟨piece, rest, rfl, matched⟩)
    · exact ⟨[], head :: text, rfl, matched⟩
    · exact ⟨head :: piece, rest, rfl, matched⟩

theorem matches_run_nil : Matches (.run :: symbols) ([] : List α) ↔ Matches symbols [] := by
  constructor
  · rintro ⟨piece, rest, same, matched⟩
    obtain ⟨_, rfl⟩ := List.append_eq_nil_iff.mp same.symm
    exact matched
  · exact fun matched => ⟨[], [], rfl, matched⟩

/-- Two runs are one. -/
theorem matches_run_run : Matches (.run :: .run :: symbols) text ↔ Matches (.run :: symbols) text := by
  constructor
  · rintro ⟨first, rest, rfl, second, last, rfl, matched⟩
    exact ⟨first ++ second, last, (List.append_assoc first second last).symm, matched⟩
  · exact fun matched => ⟨[], text, rfl, matched⟩

/-- A run and one letter are one letter and a run. -/
theorem matches_run_any : Matches (.run :: .any :: symbols) text ↔ Matches (.any :: .run :: symbols) text := by
  constructor
  · rintro ⟨piece, _, rfl, letter, rest, rfl, matched⟩
    cases piece with
    | nil => exact ⟨letter, rest, rfl, [], rest, rfl, matched⟩
    | cons head piece =>
      refine ⟨head, piece ++ letter :: rest, rfl, piece ++ [letter], rest, ?_, matched⟩
      rw [List.append_assoc, List.singleton_append]
  · rintro ⟨letter, _, rfl, piece, rest, rfl, matched⟩
    cases piece with
    | nil => exact ⟨[], letter :: rest, rfl, letter, rest, rfl, matched⟩
    | cons head piece =>
      -- The last letter of the run takes the place of the single one.
      obtain ⟨front, last, split⟩ : ∃ front last, head :: piece = front ++ [last] :=
        ⟨_, _, (List.dropLast_append_getLast (List.cons_ne_nil head piece)).symm⟩
      rw [split]
      refine ⟨letter :: front, last :: rest, ?_, last, rest, rfl, matched⟩
      rw [List.cons_append, List.append_assoc, List.singleton_append]

/-- What follows a run begins at one of the places of its first letter. -/
theorem matches_run_letter {letter : α} : Matches (.run :: .letter letter :: symbols) text ↔
    ∃ piece rest, text = piece ++ letter :: rest ∧ Matches symbols rest := by
  constructor
  · rintro ⟨piece, _, rfl, rest, rfl, matched⟩
    exact ⟨piece, rest, rfl, matched⟩
  · rintro ⟨piece, rest, rfl, matched⟩
    exact ⟨piece, _, rfl, rest, rfl, matched⟩

end Pclsync.Library.Glob
