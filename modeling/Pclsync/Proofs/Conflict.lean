import Pclsync.Paths.Conflict

/-! Where the mark of a conflict is put. The dot that is found is the last one of the path behind its first character, which
is the place of the extension only if it is in the name itself. -/

namespace Pclsync.Proofs.Conflict
open Pclsync.Paths.Conflict Library

/-- A name and its extension, which begins with the last dot that is not the first character of the name. -/
structure Split (base stem ext : Bytes) : Prop where
  parts : base = stem ++ ext
  last : (ext = [] ∧ dot ∉ base.tail) ∨ (stem ≠ [] ∧ ∃ rest, ext = dot :: rest ∧ dot ∉ rest)

section Path

variable {path front rest : Bytes}

theorem dirPart_append (path : Bytes) : dirPart path ++ baseName path = path := by
  rw [dirPart, baseName, ← List.reverse_append, List.takeWhile_append_dropWhile, List.reverse_reverse]

theorem slash_baseName (path : Bytes) : slash ∉ baseName path := by
  intro member
  have differs := List.mem_takeWhile_imp (List.mem_reverse.mp member)
  simp at differs

/-- A folder and a name make a path of these. -/
theorem dirPart_name {name : Bytes} (plain : slash ∉ name) : dirPart (dirPart path ++ name) = dirPart path ∧ baseName (dirPart path ++ name) = name := by
  have clean : ∀ byte ∈ name.reverse, decide (byte ≠ slash) = true := fun byte member =>
    decide_eq_true fun same => plain (same ▸ List.mem_reverse.mp member)
  have reversed : (dirPart path ++ name).reverse = name.reverse ++ path.reverse.dropWhile fun byte => decide (byte ≠ slash) := by
    rw [List.reverse_append, dirPart, List.reverse_reverse]
  have again : (path.reverse.dropWhile fun byte => decide (byte ≠ slash)).dropWhile (fun byte => decide (byte ≠ slash)) =
      path.reverse.dropWhile fun byte => decide (byte ≠ slash) := List.dropWhile_idempotent _ _
  have none : (path.reverse.dropWhile fun byte => decide (byte ≠ slash)).takeWhile (fun byte => decide (byte ≠ slash)) = [] := by
    have whole := List.takeWhile_append_dropWhile (p := fun byte => decide (byte ≠ slash))
      (l := path.reverse.dropWhile fun byte => decide (byte ≠ slash))
    rw [again] at whole
    exact List.append_left_eq_self.mp whole
  constructor
  · rw [dirPart, reversed, List.dropWhile_append_of_pos clean, again, dirPart]
  · rw [baseName, reversed, List.takeWhile_append_of_pos clean, none, List.append_nil, List.reverse_reverse]

end Path

section Dot

variable {path front rest : Bytes}

theorem findDot_last (nonempty : front ≠ []) (clean : dot ∉ rest) : findDot (front ++ dot :: rest) (front ++ dot :: rest).length = front.length := by
  have from_there : ∀ count ≤ rest.length + 1, findDot (front ++ dot :: rest) (front.length + count) = front.length := by
    intro count
    induction count with
    | zero =>
      intro _
      obtain ⟨index, same⟩ := Nat.exists_eq_succ_of_ne_zero (fun none => nonempty (List.length_eq_zero_iff.mp none))
      rw [Nat.add_zero, same, findDot, if_pos]
      rw [show index + 1 = front.length from same.symm, List.getElem?_append_right (Nat.le_refl _), Nat.sub_self]
      rfl
    | succ count ih =>
      intro inside
      rw [← Nat.add_assoc, findDot, if_neg, ih (by omega)]
      rw [Nat.add_assoc, List.getElem?_append_right (by omega), Nat.add_sub_cancel_left, List.getElem?_cons_succ]
      intro found
      exact clean (List.mem_of_getElem? found)
  have whole := from_there (rest.length + 1) (Nat.le_refl _)
  rw [List.length_append, List.length_cons]
  exact whole

theorem findDot_none (clean : dot ∉ path.tail) (dotidx : ℕ) : findDot path dotidx = 0 := by
  induction dotidx with
  | zero => rfl
  | succ dotidx ih =>
    rw [findDot, if_neg, ih]
    intro found
    rw [← List.getElem?_tail] at found
    exact clean (List.mem_of_getElem? found)

/-- The last dot of a text behind its first character. -/
theorem exists_last_dot (some : dot ∈ path.tail) : ∃ front rest, path = front ++ dot :: rest ∧ front ≠ [] ∧ dot ∉ rest := by
  obtain ⟨before, rest, same, clean⟩ := List.eq_append_cons_of_mem (List.mem_reverse.mpr some)
  cases path with
  | nil => cases some
  | cons first tail =>
    refine ⟨first :: rest.reverse, before.reverse, ?_, List.cons_ne_nil _ _, fun member => clean (List.mem_reverse.mp member)⟩
    have whole := congrArg List.reverse same
    rw [List.reverse_reverse, List.reverse_append, List.reverse_cons, List.tail_cons, List.append_assoc] at whole
    rw [whole]
    rfl

theorem dotIndex_last (nonempty : front ≠ []) (clean : dot ∉ rest) : dotIndex (front ++ dot :: rest) = front.length := by
  rw [dotIndex, findDot_last nonempty clean]
  exact if_neg fun none => nonempty (List.length_eq_zero_iff.mp none)

theorem dotIndex_none (clean : dot ∉ path.tail) : dotIndex path = path.length := by
  rw [dotIndex, findDot_none clean]
  exact if_pos rfl

/-- Every name has an extension or none. -/
theorem exists_split (base : Bytes) : ∃ stem ext, Split base stem ext := by
  by_cases some : dot ∈ base.tail
  · obtain ⟨front, rest, same, nonempty, clean⟩ := exists_last_dot some
    exact ⟨front, dot :: rest, same, Or.inr ⟨nonempty, rest, rfl, clean⟩⟩
  · exact ⟨base, [], (List.append_nil base).symm, Or.inl ⟨rfl, some⟩⟩

end Dot

section Search

variable {stat : Bytes → Bool} {path : Bytes} {dotidx num : ℕ}

/-- The path with the mark at some place. -/
def candidate (path : Bytes) (dotidx num : ℕ) : Bytes := path.take dotidx ++ conflictMark num ++ path.drop dotidx

theorem search_free (room : num < 10 ^ 17) (free : stat (candidate path dotidx num) = false) :
    search stat path dotidx num = .ok (candidate path dotidx num) := by
  rw [search, dif_pos (room_iff.mpr room)]
  exact if_neg (by rw [candidate] at free; rw [free]; exact Bool.false_ne_true)

theorem search_taken (room : num < 10 ^ 17) (taken : stat (candidate path dotidx num) = true) :
    search stat path dotidx num = search stat path dotidx (num + 1) := by
  rw [search, dif_pos (room_iff.mpr room)]
  exact if_pos taken

theorem search_full (full : 10 ^ 17 ≤ num) : search stat path dotidx num = .error .write := by
  rw [search, dif_neg (mt room_iff.mp (Nat.not_lt.mpr full))]

/-- The search finds a number whose name is free if there is one with at most 17 digits, and leaves its block otherwise. -/
theorem search_spec (stat : Bytes → Bool) (path : Bytes) (dotidx num : ℕ) :
    (∃ found, num ≤ found ∧ found < 10 ^ 17 ∧ stat (candidate path dotidx found) = false ∧
      search stat path dotidx num = .ok (candidate path dotidx found)) ∨
    ((∀ other, num ≤ other → other < 10 ^ 17 → stat (candidate path dotidx other) = true) ∧ search stat path dotidx num = .error .write) := by
  induction left : 10 ^ 17 - num generalizing num with
  | zero => exact Or.inr ⟨fun other above below => by omega, search_full (by omega)⟩
  | succ left ih =>
    have room : num < 10 ^ 17 := by omega
    cases here : stat (candidate path dotidx num) with
    | false => exact Or.inl ⟨num, Nat.le_refl num, room, here, search_free room here⟩
    | true =>
      rw [search_taken room here]
      obtain ⟨found, above, below, free, same⟩ | ⟨all, same⟩ := ih (num + 1) (by omega)
      · exact Or.inl ⟨found, by omega, below, free, same⟩
      · refine Or.inr ⟨fun other above below => ?_, same⟩
        obtain rfl | more := Nat.eq_or_lt_of_le above
        · exact here
        · exact all other more below

end Search

section Rename

variable {files after : Files} {path : Bytes}

/-- The file has a name in its folder that was free, made of its own name with the mark before its extension. -/
structure Renamed (files : Files) (path newpath : Bytes) (after : Files) : Prop where
  free : files.present newpath = false
  folder : dirPart newpath = dirPart path
  name : ∃ stem ext num, Split (baseName path) stem ext ∧ baseName newpath = stem ++ conflictMark num ++ ext
  present : after.present = moved files.present path newpath

/-- The dot that is found is that of the extension, if there is one. -/
def OwnDot (path : Bytes) : Prop := dot ∈ (baseName path).tail ∨ dot ∉ path.tail

/-- Not all names with the mark at the right place are taken. -/
def SomeFree (files : Files) (path : Bytes) : Prop :=
  ∃ stem ext num, Split (baseName path) stem ext ∧ num < 10 ^ 17 ∧ files.present (dirPart path ++ (stem ++ conflictMark num ++ ext)) = false

theorem slash_mark (num : ℕ) : slash ∉ conflictMark num := by
  have digits : ∀ digit ≤ 9, (48 + digit).toUInt8 ≠ slash := by decide
  unfold conflictMark
  split
  · decide
  · simp only [List.mem_append, List.mem_map, not_or, not_exists, not_and]
    exact ⟨⟨by decide, fun digit member => digits digit (Decimal.digit_le member)⟩, by decide⟩

theorem take_drop_parts {front rest : Bytes} (whole : path = front ++ rest) : path.take front.length = front ∧ path.drop front.length = rest := by
  subst whole
  exact ⟨List.take_left, List.drop_left⟩

/-- The index of the dot splits the path as it should be. -/
theorem dotIndex_own (own : OwnDot path) {stem ext : Bytes} (split : Split (baseName path) stem ext) :
    path.take (dotIndex path) = dirPart path ++ stem ∧ path.drop (dotIndex path) = ext := by
  have whole : path = (dirPart path ++ stem) ++ ext := by
    rw [List.append_assoc, ← split.parts, dirPart_append]
  have index : dotIndex path = (dirPart path ++ stem).length := by
    obtain ⟨none, clean⟩ | ⟨nonempty, rest, dotted, clean⟩ := split.last
    · have undotted : dot ∉ path.tail := by
        obtain name | path := own
        · exact absurd name clean
        · exact path
      rw [dotIndex_none undotted]
      rw [none, List.append_nil] at whole
      exact congrArg List.length whole
    · rw [dotted] at whole
      have found := @dotIndex_last (dirPart path ++ stem) rest (List.append_ne_nil_of_right_ne_nil _ nonempty) clean
      rwa [← whole] at found
  rw [index]
  exact take_drop_parts whole

theorem mark_head (num : ℕ) : (conflictMark num)[0]? = some 32 := by
  unfold conflictMark
  split <;> rfl

/-- Another dot takes the mark away from its place. -/
theorem own_of_candidate {stem ext : Bytes} {found num : ℕ} (split : Split (baseName path) stem ext)
    (same : candidate path (dotIndex path) found = dirPart path ++ (stem ++ conflictMark num ++ ext)) : OwnDot path := by
  by_contra other
  rw [OwnDot, not_or, not_not] at other
  obtain ⟨front, rest, whole, nonempty, clean⟩ := exists_last_dot other.2
  have plain : stem ++ conflictMark num ++ ext = baseName path ++ conflictMark num := by
    obtain ⟨none, _⟩ | ⟨started, later, dotted, _⟩ := split.last
    · have parts := split.parts
      rw [none, List.append_nil] at parts
      rw [none, List.append_nil, parts]
    · refine absurd ?_ other.1
      rw [split.parts, dotted, List.tail_append_of_ne_nil started]
      exact List.mem_append_right _ List.mem_cons_self
  have index : dotIndex path = front.length := by
    rw [whole]
    exact dotIndex_last nonempty clean
  obtain ⟨taken, dropped⟩ := take_drop_parts whole
  rw [plain, ← List.append_assoc, dirPart_append, candidate, index, taken, dropped] at same
  have places := congrArg (·[front.length]?) same
  have mark : (front ++ conflictMark found ++ dot :: rest)[front.length]? = some 32 := by
    have head := mark_head found
    have filled : 0 < (conflictMark found).length := List.length_pos_iff.mpr fun none => by
      rw [none] at head
      cases head
    rw [List.append_assoc, List.getElem?_append_right (Nat.le_refl _), Nat.sub_self, List.getElem?_append_left filled, head]
  have dotted : (path ++ conflictMark num)[front.length]? = some dot := by
    rw [whole, List.append_assoc, List.getElem?_append_right (Nat.le_refl _), Nat.sub_self]
    rfl
  rw [mark, dotted] at places
  exact absurd places (by decide)

theorem pfileRename_present {newpath : Bytes} (renamed : pfileRename files path newpath = some after) :
    after.present = moved files.present path newpath := by
  unfold pfileRename at renamed
  split at renamed
  · cases renamed
    rfl
  · cases renamed

theorem pfileRename_some {newpath : Bytes} (present : files.present path = true) (folder : dirPart newpath = dirPart path)
    (named : baseName newpath ≠ []) : ∃ after, pfileRename files path newpath = some after := by
  unfold pfileRename
  rw [dif_pos ⟨present, folder ▸ files.inside path present, named⟩]
  exact ⟨_, rfl⟩

/-- Two new names that leave the same names are one. -/
theorem moved_inj {present : Bytes → Bool} {newpath other : Bytes} (free : present newpath = false)
    (same : moved present path newpath = moved present path other) : newpath = other := by
  by_contra differ
  have at_new := congrFun same newpath
  rw [moved, Function.update_self, moved, Function.update_of_ne differ] at at_new
  by_cases old : newpath = path
  · rw [old, Function.update_self] at at_new
    cases at_new
  · rw [Function.update_of_ne old, free] at at_new
    cases at_new

/-- A file that is there. -/
structure Existing where
  files : Files
  path : Bytes
  present : files.present path = true

/-- A file that is renamed as it should be has the dot of its path in its name, and a number was free. -/
theorem own_of_renamed {newpath : Bytes} (result : renameConflictedFile files path = .ok (some after)) (renamed : Renamed files path newpath after) :
    OwnDot path ∧ SomeFree files path := by
  obtain ⟨stem, ext, num, split, named⟩ := renamed.name
  have parts : newpath = dirPart path ++ (stem ++ conflictMark num ++ ext) := by
    rw [← named, ← renamed.folder, dirPart_append]
  obtain ⟨found, _, room, free, ran⟩ | ⟨_, ran⟩ := search_spec files.present path (dotIndex path) 0
  · rw [renameConflictedFile, ran, ok_bind] at result
    have moves : pfileRename files path (candidate path (dotIndex path) found) = some after := by
      injection result
    have same := moved_inj free ((pfileRename_present moves).symm.trans renamed.present)
    have own := own_of_candidate split (same.trans parts)
    refine ⟨own, stem, ext, found, split, room, ?_⟩
    obtain ⟨front, rest⟩ := dotIndex_own own split
    rw [candidate, front, rest] at free
    simpa only [List.append_assoc] using free
  · rw [renameConflictedFile, ran] at result
    cases result

/-- The file is renamed as it should be exactly if the last dot of its path is in its name, or no dot is in the path, and some
number of at most 17 digits is free. -/
theorem renamed_properly_iff (file : Existing) :
    (∃ newpath after, renameConflictedFile file.files file.path = .ok (some after) ∧ Renamed file.files file.path newpath after) ↔
      OwnDot file.path ∧ SomeFree file.files file.path := by
  obtain ⟨files, path, present⟩ := file
  dsimp only
  constructor
  · rintro ⟨newpath, after, result, renamed⟩
    exact own_of_renamed result renamed
  · rintro ⟨own, stem, ext, num, split, room, free⟩
    obtain ⟨front, rest⟩ := dotIndex_own own split
    have shape : ∀ number, candidate path (dotIndex path) number = dirPart path ++ (stem ++ conflictMark number ++ ext) := fun number => by
      rw [candidate, front, rest]
      simp only [List.append_assoc]
    obtain ⟨found, _, _, unused, ran⟩ | ⟨all, _⟩ := search_spec files.present path (dotIndex path) 0
    · have plain : slash ∉ stem ++ conflictMark found ++ ext := by
        have base := slash_baseName path
        rw [split.parts] at base
        simp only [List.mem_append, not_or] at base ⊢
        exact ⟨⟨base.1, slash_mark found⟩, base.2⟩
      obtain ⟨folder, named⟩ := @dirPart_name path _ plain
      rw [← shape] at folder named
      have filled : baseName (candidate path (dotIndex path) found) ≠ [] := by
        rw [named]
        intro none
        have head := mark_head found
        rw [List.append_eq_nil_iff, List.append_eq_nil_iff] at none
        rw [none.1.2] at head
        cases head
      obtain ⟨after, moves⟩ := pfileRename_some present folder filled
      refine ⟨_, after, ?_, unused, folder, ⟨stem, ext, found, split, named⟩, pfileRename_present moves⟩
      rw [renameConflictedFile, ran, ok_bind, moves]
      rfl
    · have taken := all num (Nat.zero_le num) room
      rw [shape, free] at taken
      cases taken

/-- A file without an extension in a folder that has one. -/
def notes : Existing where
  files := {
    present := fun name => decide (name = text "my.dir/notes")
    directory := fun _ => true
    named := fun path found => by
      rw [of_decide_eq_true found]
      decide
    inside := fun _ _ => rfl }
  path := text "my.dir/notes"
  present := by decide

/-- Its mark is put in the name of the folder. -/
theorem misplaced : ¬∀ file : Existing, Set.Finite {name | file.files.present name = true} →
    ∃ newpath after, renameConflictedFile file.files file.path = .ok (some after) ∧ Renamed file.files file.path newpath after := by
  intro all
  have finite : Set.Finite {name | notes.files.present name = true} :=
    (Set.finite_singleton (text "my.dir/notes")).subset fun name found => of_decide_eq_true found
  obtain ⟨newpath, after, result, renamed⟩ := all notes finite
  have own := (own_of_renamed result renamed).1
  unfold OwnDot at own
  revert own
  decide

end Rename

end Pclsync.Proofs.Conflict
