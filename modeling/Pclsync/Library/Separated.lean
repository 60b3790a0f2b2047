import Mathlib.Data.List.Basic
import Mathlib.Data.List.Infix

/-! Words that are written one after another, each behind a mark that is in none of them. What such a text begins with is
decided by the words. -/

namespace Pclsync.Library.Separated

/-- A word without the mark, of at least one letter. -/
structure Word {α : Type} (mark : α) where
  text : List α
  nonempty : text ≠ []
  clean : mark ∉ text
deriving DecidableEq

variable {α : Type} {mark : α}

theorem Word.eq_of_text {first second : Word mark} (same : first.text = second.text) : first = second := by
  cases first
  cases second
  congr

/-- The words, each behind a mark. -/
def joined (words : List (Word mark)) : List α := words.flatMap fun word => mark :: word.text

@[simp] theorem joined_nil : joined ([] : List (Word mark)) = [] := rfl

@[simp] theorem joined_cons (word : Word mark) (words : List (Word mark)) :
    joined (word :: words) = mark :: (word.text ++ joined words) := rfl

theorem joined_append (first second : List (Word mark)) : joined (first ++ second) = joined first ++ joined second :=
  List.flatMap_append

theorem joined_eq_nil {words : List (Word mark)} : joined words = [] ↔ words = [] := by
  cases words <;> simp

/-- Behind a text there is a mark or nothing. -/
def Ends (mark : α) (rest : List α) : Prop := rest = [] ∨ ∃ tail, rest = mark :: tail

theorem ends_marks (words : List (Word mark)) (count : ℕ) : Ends mark (joined words ++ List.replicate count mark) := by
  cases words with
  | cons word words => exact Or.inr ⟨_, rfl⟩
  | nil =>
    cases count with
    | zero => exact Or.inl rfl
    | succ count => exact Or.inr ⟨_, rfl⟩

theorem joined_append_mark (words : List (Word mark)) (rest : List α) : ∃ tail, joined words ++ mark :: rest = mark :: tail := by
  cases words with
  | nil => exact ⟨rest, rfl⟩
  | cons word words => exact ⟨_, rfl⟩

/-- Two texts without the mark, before a mark and before the end of a text: one begins the other only if they are equal. -/
theorem clean_prefix {first second left right : List α} (cleanFirst : mark ∉ first) (cleanSecond : mark ∉ second) (ends : Ends mark right) :
    first ++ mark :: left <+: second ++ right ↔ first = second ∧ mark :: left <+: right := by
  induction first generalizing second with
  | nil =>
    cases second with
    | nil => simp
    | cons letter second =>
      have different : mark ≠ letter := fun same => cleanSecond (same ▸ List.mem_cons_self)
      simp [List.cons_prefix_cons, different]
  | cons head first ih =>
    have different : head ≠ mark := fun same => cleanFirst (same ▸ List.mem_cons_self)
    cases second with
    | nil =>
      obtain rfl | ⟨tail, rfl⟩ := ends
      · simp
      · simp [List.cons_prefix_cons, different]
    | cons letter second =>
      have := @ih second (fun inside => cleanFirst (List.mem_cons_of_mem _ inside)) (fun inside => cleanSecond (List.mem_cons_of_mem _ inside))
      simp only [List.cons_append, List.cons_prefix_cons, this, List.cons.injEq, and_assoc]

/-- A text before a mark begins another one exactly if its words do, and are fewer unless more marks follow. -/
theorem joined_begins (first second : List (Word mark)) (count : ℕ) :
    joined first ++ [mark] <+: joined second ++ List.replicate count mark ↔ first <+: second ∧ (first = second → 1 ≤ count) := by
  induction first generalizing second with
  | nil =>
    cases second with
    | cons word second => simp [List.cons_prefix_cons]
    | nil =>
      cases count with
      | zero => simp
      | succ count => simp [List.replicate_succ, List.cons_prefix_cons]
  | cons word first ih =>
    obtain ⟨letter, text, spelled⟩ := List.exists_cons_of_ne_nil word.nonempty
    have different : letter ≠ mark := fun same => word.clean (by rw [spelled, same]; exact List.mem_cons_self)
    cases second with
    | nil =>
      cases count with
      | zero => simp
      | succ count =>
        cases count with
        | zero => simp [spelled, List.cons_prefix_cons]
        | succ count => simp [spelled, List.replicate_succ, List.cons_prefix_cons, different]
    | cons other second =>
      obtain ⟨tail, equal⟩ := joined_append_mark first ([] : List α)
      have words : word.text = other.text ↔ word = other := ⟨Word.eq_of_text, congrArg _⟩
      simp only [joined_cons, List.cons_append, List.append_assoc, List.cons_prefix_cons, true_and]
      rw [equal, clean_prefix word.clean other.clean (ends_marks second count), ← equal, ih second, words]
      simp only [List.cons.injEq]
      tauto

/-- There are no two marks next to each other between the words. -/
theorem not_twice (first second : List (Word mark)) (rest : List α) : ¬joined first ++ mark :: mark :: rest <+: joined second := by
  induction first generalizing second with
  | nil =>
    cases second with
    | nil => simp
    | cons word second =>
      obtain ⟨letter, text, spelled⟩ := List.exists_cons_of_ne_nil word.nonempty
      have different : mark ≠ letter := fun same => word.clean (by rw [spelled, same]; exact List.mem_cons_self)
      simp [spelled, List.cons_prefix_cons, different]
  | cons word first ih =>
    cases second with
    | nil => simp
    | cons other second =>
      obtain ⟨tail, equal⟩ := joined_append_mark first (mark :: rest)
      have ends : Ends mark (joined second) := by simpa using ends_marks second 0
      simp only [joined_cons, List.cons_append, List.append_assoc, List.cons_prefix_cons, true_and]
      rw [equal, clean_prefix word.clean other.clean ends, ← equal]
      exact fun both => ih second both.2

/-- A text does not end with the mark. -/
theorem getLast_joined {words : List (Word mark)} (some : words ≠ []) : ∃ front letter, joined words = front ++ [letter] ∧ letter ≠ mark := by
  obtain ⟨front, word, rfl⟩ := List.eq_nil_or_concat'  words |>.resolve_left some
  obtain ⟨text, letter, spelled⟩ := (List.eq_nil_or_concat' word.text).resolve_left word.nonempty
  refine ⟨joined front ++ mark :: text, letter, ?_, fun same => word.clean ?_⟩
  · rw [joined_append, joined_cons, spelled]
    simp
  · rw [spelled, same]
    simp

end Pclsync.Library.Separated
