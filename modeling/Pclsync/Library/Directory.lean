import Mathlib

/-! The names of a directory with what each stands for. A name may be taken over by `rename`, and of
names that are all different one is always free. -/

namespace Pclsync.Library

/-- Nothing has two names. -/
structure Directory (ν α : Type) [DecidableEq ν] where
  entries : AList fun _ : ν => α
  single : ∀ name other file, entries.lookup name = some file → entries.lookup other = some file → name = other

namespace Directory

variable {ν α : Type} [DecidableEq ν] {dir after : Directory ν α} {old new name other : ν} {file : α}

def lookup (name : ν) (dir : Directory ν α) : Option α := dir.entries.lookup name

def empty : Directory ν α where
  entries := ∅
  single := by
    intro name other file found
    cases found

theorem lookup_empty : (empty : Directory ν α).lookup name = none := rfl

theorem lookup_single (found : dir.lookup name = some file) (also : dir.lookup other = some file) : name = other :=
  dir.single name other file found also

/-- `unlink(2)` -/
def erase (gone : ν) (dir : Directory ν α) : Directory ν α where
  entries := dir.entries.erase gone
  single := by
    intro name other file found also
    have notName : name ≠ gone := by
      rintro rfl
      rw [AList.lookup_erase] at found
      cases found
    have notOther : other ≠ gone := by
      rintro rfl
      rw [AList.lookup_erase] at also
      cases also
    rw [AList.lookup_erase_ne notName] at found
    rw [AList.lookup_erase_ne notOther] at also
    exact dir.single name other file found also

theorem lookup_erase : (dir.erase old).lookup name = if name = old then none else dir.lookup name := by
  split
  · next same =>
    subst same
    exact AList.lookup_erase _ _
  · next differ => exact AList.lookup_erase_ne differ

/-- A new name for a thing that has none. -/
def link (new : ν) (file : α) (dir : Directory ν α) (gone : ∀ name, dir.lookup name ≠ some file) :
    Directory ν α where
  entries := dir.entries.insert new file
  single := by
    intro name other held found also
    by_cases isName : name = new <;> by_cases isOther : other = new
    · rw [isName, isOther]
    · rw [isName, AList.lookup_insert] at found
      rw [AList.lookup_insert_ne isOther] at also
      cases found
      exact absurd also (gone other)
    · rw [isOther, AList.lookup_insert] at also
      rw [AList.lookup_insert_ne isName] at found
      cases also
      exact absurd found (gone name)
    · rw [AList.lookup_insert_ne isName] at found
      rw [AList.lookup_insert_ne isOther] at also
      exact dir.single name other held found also

theorem lookup_link {gone : ∀ name, dir.lookup name ≠ some file} :
    (dir.link new file gone).lookup name = if name = new then some file else dir.lookup name := by
  split
  · next same =>
    subst same
    exact AList.lookup_insert _
  · next differ => exact AList.lookup_insert_ne differ

/-- `rename(2)`: what `new` stood for before is lost. -/
def rename (old new : ν) (dir : Directory ν α) : Option (Directory ν α) :=
  match found : dir.lookup old with
  | none => none
  | some file => some ((dir.erase old).link new file (by
      intro name held
      rw [lookup_erase] at held
      split at held
      · cases held
      · next differ => exact differ (lookup_single held found)))

/-- The other names are not touched. -/
theorem lookup_rename (moved : dir.rename old new = some after) :
    after.lookup name = if name = new then dir.lookup old else if name = old then none else dir.lookup name := by
  unfold rename at moved
  split at moved
  · cases moved
  · next file found =>
    cases moved
    rw [← lookup_erase, lookup_link, found]

theorem rename_isSome : (dir.rename old new).isSome = (dir.lookup old).isSome := by
  unfold rename
  split
  · next missing => rw [missing]; rfl
  · next file found =>
    have there : (dir.lookup old).isSome = true := by rw [found]; rfl
    exact there.symm

/-- The first of some names that stands for nothing. -/
def firstFree (names : ℕ → ν) (dir : Directory ν α) : Option ℕ :=
  (List.range (dir.entries.keys.length + 1)).find? fun num => (dir.lookup (names num)).isNone

theorem exists_free {names : ℕ → ν} (different : names.Injective) (dir : Directory ν α) :
    ∃ num ≤ dir.entries.keys.length, dir.lookup (names num) = none := by
  by_contra taken
  push Not at taken
  have inside : (List.range (dir.entries.keys.length + 1)).map names ⊆ dir.entries.keys := by
    intro name listed
    obtain ⟨num, small, rfl⟩ := List.mem_map.mp listed
    rw [List.mem_range] at small
    have there : dir.entries.lookup (names num) ≠ none := taken num (by omega)
    rw [Ne, AList.lookup_eq_none, not_not] at there
    exact AList.mem_keys.mp there
  have distinct : ((List.range (dir.entries.keys.length + 1)).map names).Nodup := List.nodup_range.map different
  have short := (distinct.subperm inside).length_le
  simp only [List.length_map, List.length_range] at short
  omega

theorem firstFree_isSome {names : ℕ → ν} (different : names.Injective) (dir : Directory ν α) :
    ∃ num, dir.firstFree names = some num := by
  obtain ⟨num, small, free⟩ := exists_free different dir
  rw [← Option.isSome_iff_exists, firstFree, List.find?_isSome]
  exact ⟨num, List.mem_range.mpr (by omega), by rw [free]; rfl⟩

theorem lookup_firstFree {names : ℕ → ν} {num : ℕ} (found : dir.firstFree names = some num) :
    dir.lookup (names num) = none := by
  have free := List.find?_some found
  exact Option.isNone_iff_eq_none.mp free

end Directory
end Pclsync.Library
