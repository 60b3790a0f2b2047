import Mathlib.Data.List.Nodup
import Mathlib.Data.List.TakeWhile
import Mathlib.Tactic.Common
import Pclsync.Paths.Folder

/-! In a tree of folders the path of a folder leads back to it, however many slashes there are between the names. -/

namespace Pclsync.Proofs.FolderPaths
open Paths.Folder

/-- Names from the root to a folder. -/
inductive Leads (rows : List FolderRow) : ℕ → List (List UInt8) → Prop
  | root : Leads rows 0 []
  | child {parent : ℕ} {names : List (List UInt8)} {row : FolderRow} (above : Leads rows parent names) (inside : row ∈ rows)
      (notRoot : row.id ≠ 0) (under : row.parentfolderid = some parent) : Leads rows row.id (names ++ [row.name])

/-- A folder table that is a tree with the root 0, with names that are allowed. -/
structure Folders (allowed : List UInt8 → Prop) where
  rows : List FolderRow
  depth : ℕ → ℕ
  ids : (rows.map (·.id)).Nodup
  siblings : ∀ one ∈ rows, ∀ two ∈ rows, one.parentfolderid = two.parentfolderid → one.name = two.name → one.id = two.id
  root : ∀ row ∈ rows, row.id = 0 → row.parentfolderid = none
  tree : ∀ row ∈ rows, row.id ≠ 0 → ∃ parent, row.parentfolderid = some parent ∧ depth parent < depth row.id ∧
    (parent = 0 ∨ ∃ above ∈ rows, above.id = parent)
  names : ∀ row ∈ rows, row.id ≠ 0 → allowed row.name

/-- A name without slashes. -/
def Unslashed (name : List UInt8) : Prop := slash ∉ name

/-- A name of at least one byte, without slashes and zeros. -/
def Proper (name : List UInt8) : Prop := name ≠ [] ∧ slash ∉ name ∧ 0 ∉ name

/-- The names with a slash before each, or a slash if there is none. -/
def slashed (names : List (List UInt8)) : List UInt8 := if names = [] then [slash] else names.flatMap (slash :: ·)

/-- The names with at least one slash before each, and slashes at the end. -/
def spell (pieces : List (ℕ × List UInt8)) (trailing : ℕ) : List UInt8 :=
  pieces.flatMap (fun piece => List.replicate (piece.1 + 1) slash ++ piece.2) ++ List.replicate (if pieces = [] then trailing + 1 else trailing) slash

/-- The path of a folder has the names from the root, and leads to the folder. -/
def Inverse (rows : List FolderRow) (folderid : ℕ) : Prop :=
  ∃ names, Leads rows folderid names ∧ ∃ enough, ∀ steps ≥ enough,
    pfolderPath rows steps folderid = some (some (slashed names, some (slashed names).length)) ∧
      pfolderId rows steps (slashed names) = some (.ok folderid)

/-- Both functions come to an end. -/
def Terminates (rows : List FolderRow) : Prop :=
  (∀ folderid, ∃ enough, ∀ steps ≥ enough, (pfolderPath rows steps folderid).isSome) ∧
    ∀ path, ∃ enough, ∀ steps ≥ enough, (pfolderId rows steps path).isSome

/-- The number of slashes between and after the names makes no difference. -/
def Repeats (allowed : List UInt8 → Prop) (rows : List FolderRow) : Prop :=
  ∀ (pieces : List (ℕ × { name // allowed name })) (trailing : ℕ), ∃ enough, ∀ steps ≥ enough,
    pfolderId rows steps (spell (pieces.map fun piece => (piece.1, piece.2.val)) trailing) =
      pfolderId rows steps (slashed (pieces.map (·.2.val)))

/-- What the paths and the ids of a folder table have to do with each other. -/
def Meets {allowed : List UInt8 → Prop} (folders : Folders allowed) : Prop :=
  (∀ folderid, (folderid = 0 ∨ ∃ row ∈ folders.rows, row.id = folderid) → Inverse folders.rows folderid) ∧
    Repeats allowed folders.rows ∧ Terminates folders.rows

section Climb

variable {allowed : List UInt8 → Prop} (folders : Folders allowed)

theorem find_row {row : FolderRow} (inside : row ∈ folders.rows) : folders.rows.find? (·.id = row.id) = some row := by
  obtain ⟨found, here⟩ : ∃ found, folders.rows.find? (·.id = row.id) = some found := by
    rw [← Option.isSome_iff_exists, List.find?_isSome]
    exact ⟨row, inside, decide_eq_true rfl⟩
  have same : found.id = row.id := by simpa using List.find?_some here
  rw [here, List.inj_on_of_nodup_map folders.ids (List.mem_of_find?_eq_some here) inside same]

theorem leads {folderid : ℕ} (known : folderid = 0 ∨ ∃ row ∈ folders.rows, row.id = folderid) : ∃ names, Leads folders.rows folderid names := by
  induction depth : folders.depth folderid using Nat.strongRecOn generalizing folderid with
  | _ depth ih =>
    by_cases zero : folderid = 0
    · rw [zero]
      exact ⟨[], .root⟩
    · obtain ⟨row, inside, rfl⟩ := known.resolve_left zero
      obtain ⟨parent, under, less, above⟩ := folders.tree row inside zero
      obtain ⟨names, path⟩ := ih _ (depth ▸ less) above rfl
      exact ⟨names ++ [row.name], path.child inside zero under⟩

/-- The climb collects the names in front of the list. -/
theorem climb_leads {folderid : ℕ} {names : List (List UInt8)} (path : Leads folders.rows folderid names) (lst : List (List UInt8)) {steps : ℕ}
    (enough : names.length < steps) : addPathToList folders.rows steps folderid lst = some (some ([] :: (names ++ lst))) := by
  induction path generalizing lst steps with
  | root =>
    obtain ⟨steps, rfl⟩ := Nat.exists_eq_add_of_lt enough
    rfl
  | @child parent names row above inside notRoot under ih =>
    rw [List.length_append, List.length_singleton] at enough
    obtain ⟨steps, rfl⟩ : ∃ before, steps = before + 1 := ⟨steps - 1, by omega⟩
    rw [addPathToList, if_neg notRoot, find_row folders inside]
    dsimp only
    rw [under, Option.getD_some, ih (row.name :: lst) (by omega), List.append_assoc]
    rfl

theorem climb_unknown {folderid : ℕ} (notRoot : folderid ≠ 0) (unknown : ¬∃ row ∈ folders.rows, row.id = folderid) (steps : ℕ) :
    addPathToList folders.rows (steps + 1) folderid [] = some none := by
  have none : folders.rows.find? (·.id = folderid) = none := by
    rw [List.find?_eq_none]
    exact fun row inside same => unknown ⟨row, inside, of_decide_eq_true same⟩
  rw [addPathToList, if_neg notRoot, none]

/-- What is written fits in the buffer. -/
theorem written_length (sep : List UInt8) (lst : List (List UInt8)) : (written sep lst).length < bufferSize sep lst := by
  unfold written bufferSize
  induction lst with
  | nil => simp
  | cons name lst ih =>
    simp only [List.flatMap_cons, List.length_append, List.map_cons, List.sum_cons, List.length_cons, Nat.succ_mul] at ih ⊢
    omega

/-- The separators after the names are the slashes before the next ones, and the last one is taken back. -/
theorem written_slashed (name : List UInt8) (names : List (List UInt8)) :
    written [slash] (name :: names) = name ++ (names.flatMap (slash :: ·) ++ [slash]) := by
  unfold written
  induction names generalizing name with
  | nil => simp
  | cons second names ih =>
    rw [List.flatMap_cons, ih second]
    simp

theorem join_slashed (names : List (List UInt8)) :
    joinStringList [slash] ([] :: names) = (names.flatMap (slash :: ·), some (names.flatMap (slash :: ·)).length) := by
  unfold joinStringList
  rw [if_neg (List.cons_ne_nil _ _), written_slashed]
  simp

theorem path_leads {folderid : ℕ} {names : List (List UInt8)} (path : Leads folders.rows folderid names) {steps : ℕ} (enough : names.length < steps) :
    pfolderPath folders.rows steps folderid = some (some (slashed names, some (slashed names).length)) := by
  unfold pfolderPath
  rw [climb_leads folders path [] enough]
  simp only [List.append_nil, Option.map_some, join_slashed]
  cases names with
  | nil => rfl
  | cons name names =>
    unfold slashed
    simp

end Climb

section Walk

variable {rows : List FolderRow}

/-- The folder that the names lead to. -/
def follow (rows : List FolderRow) : ℕ → List (List UInt8) → Except Error ℕ
  | folderid, [] => .ok folderid
  | folderid, name :: names =>
    match child rows folderid name with
    | none => .error .remoteFolderNotFound
    | some below => follow rows below names

theorem follow_append {folderid below : ℕ} {names : List (List UInt8)} (leads : follow rows folderid names = .ok below) (more : List (List UInt8)) :
    follow rows folderid (names ++ more) = follow rows below more := by
  induction names generalizing folderid with
  | nil =>
    injection leads with same
    rw [same]
    rfl
  | cons name names ih =>
    unfold follow at leads
    rw [List.cons_append, follow]
    cases found : child rows folderid name with
    | none =>
      rw [found] at leads
      cases leads
    | some next =>
      rw [found] at leads
      exact ih leads

theorem follow_leads (folders : Folders Proper) {folderid : ℕ} {names : List (List UInt8)} (path : Leads folders.rows folderid names) :
    follow folders.rows 0 names = .ok folderid := by
  induction path with
  | root => rfl
  | @child parent names row above inside notRoot under ih =>
    rw [follow_append ih]
    obtain ⟨found, here⟩ : ∃ found, folders.rows.find? (fun other => other.parentfolderid = some parent ∧ other.name = row.name) = some found := by
      rw [← Option.isSome_iff_exists, List.find?_isSome]
      exact ⟨row, inside, decide_eq_true ⟨under, rfl⟩⟩
    have fits : found.parentfolderid = some parent ∧ found.name = row.name := by simpa using List.find?_some here
    have same : found.id = row.id := folders.siblings found (List.mem_of_find?_eq_some here) row inside (fits.1.trans under.symm) fits.2
    have below : child folders.rows parent row.name = some row.id := by
      unfold child
      rw [here, Option.map_some, same]
    rw [follow, below]
    rfl

theorem dropWhile_slashes (count : ℕ) {rest : List UInt8} (next : rest.head? ≠ some slash) :
    (List.replicate count slash ++ rest).dropWhile (· = slash) = rest := by
  rw [List.dropWhile_append_of_pos fun byte inside => decide_eq_true (List.eq_of_mem_replicate inside)]
  cases rest with
  | nil => rfl
  | cons byte rest =>
    refine List.dropWhile_cons_of_neg ?_
    simpa using next

/-- What is left of a spelled path after its first names begins with a slash. -/
def Rest (rest : List UInt8) : Prop := rest = [] ∨ rest.head? = some slash

theorem takeWhile_name {name rest : List UInt8} (clean : slash ∉ name) (ends : Rest rest) : (name ++ rest).takeWhile (· ≠ slash) = name := by
  induction name with
  | nil =>
    obtain rfl | head := ends
    · rfl
    · cases rest with
      | nil => rfl
      | cons byte rest => simp_all
  | cons byte name ih =>
    have different : byte ≠ slash := fun same => clean (same ▸ List.mem_cons_self)
    have rest := ih fun inside => clean (List.mem_cons_of_mem _ inside)
    simpa [List.takeWhile_cons, different] using rest

/-- The text behind some names. -/
def tail (pieces : List (ℕ × List UInt8)) (trailing : ℕ) : List UInt8 :=
  pieces.flatMap (fun piece => List.replicate (piece.1 + 1) slash ++ piece.2) ++ List.replicate trailing slash

theorem tail_rest (pieces : List (ℕ × List UInt8)) (trailing : ℕ) : Rest (tail pieces trailing) := by
  unfold tail Rest
  cases pieces with
  | nil => cases trailing <;> simp [List.replicate_succ]
  | cons piece pieces => simp [List.replicate_succ]

/-- The walk through a spelled path follows its names. -/
theorem walk_tail (pieces : List (ℕ × List UInt8)) (proper : ∀ piece ∈ pieces, Proper piece.2) (trailing : ℕ) (folderid : ℕ) {steps : ℕ}
    (enough : pieces.length < steps) : walk rows steps folderid (tail pieces trailing) = some (follow rows folderid (pieces.map Prod.snd)) := by
  induction pieces generalizing folderid steps with
  | nil =>
    obtain ⟨steps, rfl⟩ : ∃ before, steps = before + 1 := ⟨steps - 1, by omega⟩
    have slashes : (tail [] trailing).dropWhile (· = slash) = [] := by
      have := @dropWhile_slashes trailing [] (by simp)
      rwa [List.append_nil] at this
    rw [walk, slashes]
    rfl
  | cons piece pieces ih =>
    obtain ⟨some, clean, _⟩ := proper piece List.mem_cons_self
    obtain ⟨steps, rfl⟩ : ∃ before, steps = before + 1 := ⟨steps - 1, by omega⟩
    have spelled : tail (piece :: pieces) trailing = List.replicate (piece.1 + 1) slash ++ (piece.2 ++ tail pieces trailing) := by
      unfold tail
      simp only [List.flatMap_cons, List.append_assoc]
    have next : (piece.2 ++ tail pieces trailing).head? ≠ .some slash := by
      obtain ⟨byte, name, text⟩ := List.exists_cons_of_ne_nil some
      rw [text]
      exact fun same => clean (by rw [text, ← Option.some.inj same]; exact List.mem_cons_self)
    have notEnd : piece.2 ++ tail pieces trailing ≠ [] := List.append_ne_nil_of_left_ne_nil some _
    rw [walk, spelled, dropWhile_slashes _ next]
    dsimp only
    rw [if_neg notEnd, takeWhile_name clean (tail_rest pieces trailing), List.drop_left, List.map_cons, follow]
    cases child rows folderid piece.2 with
    | none => rfl
    | some below =>
      exact ih (fun piece inside => proper piece (List.mem_cons_of_mem _ inside)) below (by rw [List.length_cons] at enough; omega)

/-- Each step of the walk takes a name from the path. -/
theorem walk_terminates (path : List UInt8) (folderid : ℕ) {steps : ℕ} (enough : path.length < steps) :
    (walk rows steps folderid path).isSome := by
  induction steps generalizing path folderid with
  | zero => omega
  | succ steps ih =>
    rw [walk]
    dsimp only
    have dropped : (path.dropWhile (· = slash)).length ≤ path.length := (List.dropWhile_suffix _).length_le
    by_cases ends : path.dropWhile (· = slash) = []
    · rw [if_pos ends]
      rfl
    · rw [if_neg ends]
      cases child rows folderid ((path.dropWhile (· = slash)).takeWhile (· ≠ slash)) with
      | none => rfl
      | some below =>
        refine ih _ below ?_
        have positive : 0 < ((path.dropWhile (· = slash)).takeWhile (· ≠ slash)).length := by
          have head := List.head_dropWhile_not (fun byte : UInt8 => decide (byte = slash)) ends
          obtain ⟨byte, rest, shape⟩ := List.exists_cons_of_ne_nil ends
          simp only [shape, List.head_cons, decide_eq_false_iff_not] at head
          rw [shape]
          simp [head]
        have some := List.length_pos_of_ne_nil ends
        rw [List.length_drop]
        omega

theorem spell_tail (pieces : List (ℕ × List UInt8)) (trailing : ℕ) :
    spell pieces trailing = tail pieces (if pieces = [] then trailing + 1 else trailing) := rfl

theorem slashed_spell (names : List (List UInt8)) : slashed names = spell (names.map fun name => (0, name)) 0 := by
  cases names with
  | nil => rfl
  | cons name names =>
    unfold slashed spell
    rw [List.map_cons, if_neg (List.cons_ne_nil _ _), if_neg (List.cons_ne_nil _ _), ← List.map_cons, List.flatMap_map]
    simp

theorem tail_plain (pieces : List (ℕ × List UInt8)) (proper : ∀ piece ∈ pieces, Proper piece.2) (trailing : ℕ) :
    (tail pieces trailing).takeWhile (· ≠ 0) = tail pieces trailing := by
  rw [List.takeWhile_eq_self_iff]
  intro byte inside
  refine decide_eq_true fun zero => ?_
  rw [zero, tail, List.mem_append, List.mem_flatMap] at inside
  obtain ⟨piece, member, here⟩ | there := inside
  · rw [List.mem_append] at here
    obtain slashes | name := here
    · exact absurd (List.eq_of_mem_replicate slashes) (by decide)
    · exact (proper piece member).2.2 name
  · exact absurd (List.eq_of_mem_replicate there) (by decide)

theorem pfolderId_spell (pieces : List (ℕ × List UInt8)) (proper : ∀ piece ∈ pieces, Proper piece.2) (trailing : ℕ) {steps : ℕ}
    (enough : pieces.length < steps) : pfolderId rows steps (spell pieces trailing) = some (follow rows 0 (pieces.map Prod.snd)) := by
  have head : (spell pieces trailing).head? = some slash := by
    unfold spell
    cases pieces <;> simp [List.replicate_succ]
  unfold pfolderId
  dsimp only
  rw [spell_tail, tail_plain pieces proper, ← spell_tail, if_pos head, spell_tail, walk_tail pieces proper _ _ enough]

theorem pfolderId_slashed {names : List (List UInt8)} (proper : ∀ name ∈ names, Proper name) {steps : ℕ} (enough : names.length < steps) :
    pfolderId rows steps (slashed names) = some (follow rows 0 names) := by
  rw [slashed_spell, pfolderId_spell _ ?_ _ (by rwa [List.length_map]), List.map_map]
  · simp [Function.comp_def]
  · intro piece inside
    obtain ⟨name, member, rfl⟩ := List.mem_map.mp inside
    exact proper name member

theorem pfolderId_terminates (path : List UInt8) {steps : ℕ} (enough : path.length < steps) : (pfolderId rows steps path).isSome := by
  unfold pfolderId
  dsimp only
  split
  · exact walk_terminates _ 0 (Nat.lt_of_le_of_lt (List.takeWhile_prefix _).length_le enough)
  · rfl

end Walk

section Main

theorem leads_proper (folders : Folders Proper) {folderid : ℕ} {names : List (List UInt8)} (path : Leads folders.rows folderid names) :
    ∀ name ∈ names, Proper name := by
  induction path with
  | root => exact fun name inside => absurd inside List.not_mem_nil
  | @child parent names row above inside notRoot under ih =>
    intro name member
    rw [List.mem_append, List.mem_singleton] at member
    obtain earlier | rfl := member
    · exact ih name earlier
    · exact folders.names row inside notRoot

theorem inverse_of_known (folders : Folders Proper) {folderid : ℕ} (known : folderid = 0 ∨ ∃ row ∈ folders.rows, row.id = folderid) :
    Inverse folders.rows folderid := by
  obtain ⟨names, path⟩ := leads folders known
  refine ⟨names, path, names.length + 1, fun steps enough => ⟨path_leads folders path enough, ?_⟩⟩
  rw [pfolderId_slashed (leads_proper folders path) enough, follow_leads folders path]

theorem repeats (folders : Folders Proper) : Repeats Proper folders.rows := by
  intro pieces trailing
  refine ⟨pieces.length + 1, fun steps enough => ?_⟩
  rw [pfolderId_spell _ ?_ trailing (by rwa [List.length_map]), pfolderId_slashed ?_ (by rwa [List.length_map]), List.map_map]
  · rfl
  · intro name inside
    obtain ⟨piece, _, rfl⟩ := List.mem_map.mp inside
    exact piece.2.property
  · intro piece inside
    obtain ⟨named, _, rfl⟩ := List.mem_map.mp inside
    exact named.2.property

theorem terminates (folders : Folders Proper) : Terminates folders.rows := by
  refine ⟨fun folderid => ?_, fun path => ⟨path.length + 1, fun steps enough => pfolderId_terminates path enough⟩⟩
  by_cases known : folderid = 0 ∨ ∃ row ∈ folders.rows, row.id = folderid
  · obtain ⟨names, path⟩ := leads folders known
    refine ⟨names.length + 1, fun steps enough => ?_⟩
    rw [path_leads folders path enough]
    rfl
  · obtain ⟨notRoot, unknown⟩ := not_or.mp known
    refine ⟨1, fun steps enough => ?_⟩
    obtain ⟨steps, rfl⟩ := Nat.exists_eq_add_of_le' enough
    unfold pfolderPath
    rw [climb_unknown folders notRoot unknown]
    rfl

/-- For every folder table that is a tree with names of at least one byte, without slashes and zeros: paths and ids are
inverse, repeated slashes make no difference, and both functions come to an end. -/
theorem inverse (folders : Folders Proper) : Meets folders :=
  ⟨fun _ known => inverse_of_known folders known, repeats folders, terminates folders⟩

/-- A folder with an empty name has the path of the root. -/
theorem empty_name : ¬∀ folders : Folders Unslashed, Meets folders := by
  intro all
  let folders : Folders Unslashed :=
    { rows := [⟨1, some 0, []⟩]
      depth := id
      ids := by decide
      siblings := by decide
      root := by decide
      tree := by
        intro row inside _
        rw [List.mem_singleton.mp inside]
        exact ⟨0, rfl, Nat.zero_lt_one, Or.inl rfl⟩
      names := by
        intro row inside _
        rw [List.mem_singleton.mp inside]
        exact List.not_mem_nil }
  obtain ⟨known, _⟩ := all folders
  obtain ⟨names, path, enough, holds⟩ := known 1 (Or.inr ⟨⟨1, some 0, []⟩, List.mem_singleton.mpr rfl, rfl⟩)
  obtain ⟨text, back⟩ := holds (enough + 2) (Nat.le_add_right _ _)
  have root : pfolderPath folders.rows (enough + 2) 1 = some (some ([slash], some 1)) := rfl
  rw [root] at text
  have same : slashed names = [slash] := (congrArg Prod.fst (Option.some.inj (Option.some.inj text))).symm
  rw [same] at back
  have zero : pfolderId folders.rows (enough + 2) [slash] = some (.ok 0) := rfl
  rw [zero] at back
  injection back with back
  injection back with back
  cases back

end Main

end Pclsync.Proofs.FolderPaths
