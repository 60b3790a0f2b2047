import Pclsync.Paths.Pattern
import Pclsync.Library.Glob

/-! The matcher of names accepts what the patterns mean. Behind a star only the
next letter matters, and all its places are tried. -/

namespace Pclsync.Proofs.Pattern
open Pclsync.Paths.Pattern Library.Glob

variable {name pattern : Bytes} {byte : UInt8} {matchRest : Bytes → Option Bool} {symbols : List (Symbol UInt8)}

/-- What a byte of a pattern stands for. -/
def symbol (byte : UInt8) : Symbol UInt8 :=
  if byte = starByte then .run else if byte = questionByte then .any else .letter byte

/-- The matcher gives an answer, and the answer is right. -/
def Answers (result : Option Bool) (meaning : Prop) : Prop := ∃ found, result = some found ∧ (found = true ↔ meaning)

theorem Answers.congr {result : Option Bool} {first second : Prop} (answers : Answers result first)
    (same : first ↔ second) : Answers result second :=
  ⟨answers.choose, answers.choose_spec.1, answers.choose_spec.2.trans same⟩

theorem answers_false {meaning : Prop} (wrong : ¬ meaning) : Answers (some false) meaning :=
  ⟨false, rfl, by simp [wrong]⟩

/-- The loop over the places of a byte. -/
theorem tryAll_answers (ordinary : byte ≠ 0)
    (rest_answers : ∀ rest, Answers (matchRest rest) (Matches symbols rest)) (name : Bytes) :
    Answers (tryAll matchRest byte (strchr name byte)) (Matches (.run :: .letter byte :: symbols) name) := by
  induction name with
  | nil =>
    rw [strchr, if_neg ordinary, tryAll]
    exact answers_false fun matched => matches_letter_nil (matches_run_nil.mp matched)
  | cons first rest ih =>
    rw [strchr, if_neg ordinary]
    by_cases here : first = byte
    · rw [if_pos here, tryAll]
      obtain ⟨found, done, right⟩ := rest_answers rest
      rw [done]
      cases found with
      | true => exact ⟨true, rfl, by simp [matches_run_cons, matches_letter_cons, here, right.mp rfl]⟩
      | false =>
        have wrong : ¬ Matches symbols rest := fun matched => Bool.noConfusion (right.mpr matched)
        apply ih.congr
        rw [matches_run_cons, matches_letter_cons]
        simp only [wrong, and_false, false_or]
    · rw [if_neg here]
      apply ih.congr
      rw [matches_run_cons, matches_letter_cons]
      simp only [Ne.symm here, false_and, false_or]

/-- Both loops, by induction on the pattern. -/
theorem matchers_answer (ordinary : ∀ byte ∈ pattern, byte ≠ 0) :
    (∀ name, Answers (matchPattern name pattern) (Matches (pattern.map symbol) name)) ∧
      ∀ name, Answers (matchStar name pattern) (Matches (.run :: pattern.map symbol) name) := by
  induction pattern with
  | nil =>
    constructor
    · intro name
      rw [matchPattern]
      exact ⟨name.isEmpty, rfl, List.isEmpty_iff⟩
    · intro name
      rw [matchStar]
      exact ⟨true, rfl, by simp only [List.map_nil, matches_run]⟩
  | cons byte pattern ih =>
    obtain ⟨plain, starred⟩ := ih fun other member => ordinary other (List.mem_cons_of_mem _ member)
    constructor
    · intro name
      rw [matchPattern.eq_def, List.map_cons]
      dsimp only
      by_cases run : byte = starByte
      · rw [if_pos run, symbol, if_pos run]
        exact starred name
      · rw [if_neg run, symbol, if_neg run]
        cases name with
        | nil =>
          dsimp only
          split
          · exact answers_false matches_any_nil
          · exact answers_false matches_letter_nil
        | cons first rest =>
          dsimp only
          by_cases any : byte = questionByte
          · rw [if_neg fun both => both.2 any, if_pos any]
            exact (plain rest).congr matches_any_cons.symm
          · rw [if_neg any]
            by_cases same : byte = first
            · rw [if_neg fun both => both.1 same]
              apply (plain rest).congr
              rw [matches_letter_cons]
              simp only [same, true_and]
            · rw [if_pos ⟨same, any⟩]
              exact answers_false fun matched => same (matches_letter_cons.mp matched).1
    · intro name
      rw [matchStar.eq_def, List.map_cons, symbol]
      dsimp only
      by_cases any : byte = questionByte
      · have other : ¬ byte = starByte := by
          rw [any]
          decide
        rw [if_pos any, if_neg other, if_pos any]
        cases name with
        | nil => exact answers_false fun matched => matches_any_nil (matches_run_nil.mp matched)
        | cons first rest => exact (starred rest).congr (matches_any_cons.symm.trans matches_run_any.symm)
      · rw [if_neg any]
        by_cases run : byte = starByte
        · rw [if_pos run, if_pos run]
          exact (starred name).congr matches_run_run.symm
        · rw [if_neg run, if_neg run, if_neg any]
          exact tryAll_answers (ordinary byte List.mem_cons_self) plain name

/-- The matcher ends on every name, stays in it and accepts exactly the names
that the pattern means. -/
theorem matchPattern_iff (name pattern : Bytes) (ordinary : ∀ byte ∈ pattern, byte ≠ 0) :
    ∃ found, matchPattern name pattern = some found ∧ (found = true ↔ Matches (pattern.map symbol) name) :=
  (matchers_answer ordinary).1 name

theorem matchPattern_iff_four : ∃ found, matchPattern [97, 98, 98] [97, 42, 63, 98] = some found ∧
    (found = true ↔ Matches ([97, 42, 63, 98].map symbol) [97, 98, 98]) :=
  matchPattern_iff [97, 98, 98] [97, 42, 63, 98] (by simp)

end Pclsync.Proofs.Pattern
