import Pclsync.Sync.Trashes

/-! No file is lost with a folder that is removed, or that cannot be removed. -/

namespace Pclsync.Proofs.Trashes
open Pclsync.Trashes

/-- The entry at a path below a folder. -/
inductive At : Entries → List Name → Entry → Prop
  | here {name : Name} {entry : Entry} {rest : Entries} : At (.cons name entry rest) [name] entry
  | next {name : Name} {other entry : Entry} {rest : Entries} {path : List Name} (later : At rest path entry) :
      At (.cons name other rest) path entry
  | inside {name : Name} {entries rest : Entries} {entry : Entry} {path : List Name} (below : At entries path entry) :
      At (.cons name (.folder entries) rest) (name :: path) entry

/-- Neither ignored nor beneath what is ignored. -/
def Kept (ignored : Name → Bool) (path : List Name) : Prop := ∀ name ∈ path, ignored name = false

/-- A file, or anything else that is not a folder. -/
def IsFile : Entry → Prop
  | .folder _ => False
  | _ => True

/-- `left` is what is there after a folder could not be removed. A folder in it that is gone had no
file beneath it but ignored ones. -/
structure Safe (ignored : Name → Bool) (entries : Entries) (result : Option Entries) : Prop where
  success : result = none → ∀ path entry, At entries path entry → IsFile entry → ¬Kept ignored path
  files : ∀ left, result = some left → ∀ path entry, At entries path entry → IsFile entry → Kept ignored path → At left path entry
  folders : ∀ left, result = some left → ∀ path inside below entry, At entries path (.folder inside) → At inside below entry →
    IsFile entry → Kept ignored path → Kept ignored below → ∃ remaining, At left path (.folder remaining) ∧ At remaining below entry

theorem path_ne_nil {entries : Entries} {path : List Name} {entry : Entry} (there : At entries path entry) : path ≠ [] := by
  induction there with
  | here => exact List.cons_ne_nil _ _
  | next _ ih => exact ih
  | inside _ _ => exact List.cons_ne_nil _ _

theorem at_append {entries inside : Entries} {path below : List Name} {entry : Entry} (above : At entries path (.folder inside))
    (beneath : At inside below entry) : At entries (path ++ below) entry := by
  generalize same : Entry.folder inside = folder at above
  induction above with
  | here =>
    subst same
    exact .inside beneath
  | next _ ih => exact .next (ih same)
  | inside _ ih => exact .inside (ih same)

/-- A path through a folder. -/
theorem at_split {entries : Entries} {path below : List Name} {entry : Entry} (through : At entries (path ++ below) entry)
    (nonempty : path ≠ []) (proper : below ≠ []) : ∃ inside, At entries path (.folder inside) ∧ At inside below entry := by
  generalize same : path ++ below = whole at through
  induction through generalizing path with
  | here =>
    obtain ⟨head, rest, rfl⟩ := List.exists_cons_of_ne_nil nonempty
    rw [List.cons_append, List.cons.injEq, List.append_eq_nil_iff] at same
    exact absurd same.2.2 proper
  | next _ ih =>
    obtain ⟨inside, above, beneath⟩ := ih nonempty same
    exact ⟨inside, .next above, beneath⟩
  | inside later ih =>
    obtain ⟨head, rest, rfl⟩ := List.exists_cons_of_ne_nil nonempty
    rw [List.cons_append, List.cons.injEq] at same
    obtain ⟨rfl, same⟩ := same
    cases rest with
    | nil =>
      rw [List.nil_append] at same
      subst same
      exact ⟨_, .here, later⟩
    | cons next more =>
      obtain ⟨inside, above, beneath⟩ := ih (List.cons_ne_nil _ _) same
      exact ⟨inside, .inside above, beneath⟩

theorem nonempty_of_at {entries : Entries} {path : List Name} {entry : Entry} (there : At entries path entry) :
    entries.isEmpty = false := by
  cases there <;> rfl

section Walk

variable (system : System) {ignored : Name → Bool}

/-- One entry of a folder is passed over or looked at, and the others are walked on. -/
theorem at_ls_cons (rest : Entries) {path : List Name} {name : Name} {entry left : Entry}
    (stays : remove system ignored false (path ++ [name]) name entry = some left) :
    ls system ignored false path (.cons name entry rest) = .cons name left (ls system ignored false path rest) ∨
      ls system ignored false path (.cons name entry rest) = .cons name entry (ls system ignored false path rest) := by
  rw [ls]
  cases system.lstat (path ++ [name])
  · exact Or.inr rfl
  · rw [if_pos rfl, stays]
    exact Or.inl rfl

theorem remove_file {path : List Name} {name : Name} {entry : Entry} (file : IsFile entry) (kept : ignored name = false) :
    remove system ignored false path name entry = some entry := by
  cases entry with
  | file => rw [remove, kept, Bool.or_false, Bool.false_and, if_neg Bool.false_ne_true]
  | other => rw [remove]
  | folder => exact file.elim

/-- `rm_ign` takes no file away that is neither ignored nor beneath what is ignored. -/
theorem ls_keeps {entries : Entries} {path : List Name} {entry : Entry} (there : At entries path entry) (file : IsFile entry)
    (kept : Kept ignored path) (parent : List Name) : At (ls system ignored false parent entries) path entry := by
  induction there generalizing parent with
  | here =>
    rcases at_ls_cons system _ (remove_file system file (kept _ List.mem_cons_self)) with same | same <;> rw [same] <;> exact .here
  | @next name other entry rest path later ih =>
    rw [ls]
    split
    · exact ih file kept parent
    · exact .next (ih file kept parent)
  | @inside name entries rest entry path below ih =>
    have notIgnored : ignored name = false := kept name List.mem_cons_self
    have beneath := fun parent => ih file (fun name member => kept name (List.mem_cons_of_mem _ member)) parent
    obtain ⟨left, stays, remains⟩ : ∃ left, remove system ignored false (parent ++ [name]) name (.folder entries) = some (.folder left) ∧
        At left path entry := by
      rw [remove, notIgnored, Bool.or_false]
      cases system.opendir (parent ++ [name])
      · exact ⟨entries, by simp [nonempty_of_at below], below⟩
      · exact ⟨_, by simp [nonempty_of_at (beneath (parent ++ [name]))], beneath (parent ++ [name])⟩
    rcases at_ls_cons system rest stays with same | same <;> rw [same]
    · exact .inside remains
    · exact .inside below

/-- A file that is kept is still there when the folder could not be removed, and is why. -/
theorem rmdirWithTrashes_keeps {entries : Entries} {path : List Name} {entry : Entry} (there : At entries path entry)
    (file : IsFile entry) (kept : Kept ignored path) (parent : List Name) :
    ∃ left, rmdirWithTrashes system ignored parent entries = some left ∧ At left path entry := by
  have after := ls_keeps system there file kept parent
  unfold rmdirWithTrashes
  rw [nonempty_of_at there, Bool.and_false, if_neg Bool.false_ne_true]
  split
  · dsimp only
    rw [nonempty_of_at after, Bool.false_and, if_neg Bool.false_ne_true]
    exact ⟨_, rfl, after⟩
  · exact ⟨_, rfl, there⟩

end Walk

theorem rmdirWithTrashes_safe (system : System) (ignored : Name → Bool) (parent : List Name) (entries : Entries) :
    Safe ignored entries (rmdirWithTrashes system ignored parent entries) where
  success gone path entry there file kept := by
    obtain ⟨left, failed, -⟩ := rmdirWithTrashes_keeps system there file kept parent
    rw [gone] at failed
    cases failed
  files left failed path entry there file kept := by
    obtain ⟨other, same, remains⟩ := rmdirWithTrashes_keeps system there file kept parent
    rw [failed, Option.some_inj] at same
    exact same ▸ remains
  folders left failed path inside below entry above beneath file keptAbove keptBelow := by
    have kept : Kept ignored (path ++ below) := fun name member =>
      (List.mem_append.mp member).elim (keptAbove name) (keptBelow name)
    obtain ⟨other, same, remains⟩ := rmdirWithTrashes_keeps system (at_append above beneath) file kept parent
    rw [failed, Option.some_inj] at same
    subst same
    exact at_split remains (path_ne_nil above) (path_ne_nil beneath)

/-- A file beside an empty folder. -/
def twoEntries : Entries := .cons [97] (.folder .nil) (.cons [98] .file .nil)

/-- All calls are answered. -/
def willing : System := ⟨fun _ => true, fun _ => true, fun _ => true, fun _ => true, true, true⟩

/-- The folder is gone, though it is not ignored and the file keeps its parent from being removed. -/
theorem rmdirWithTrashes_folder_gone : ¬∀ (system : System) (ignored : Name → Bool) (parent : List Name) (entries left : Entries),
    rmdirWithTrashes system ignored parent entries = some left →
      ∀ path inside, At entries path (.folder inside) → Kept ignored path → ∃ remaining, At left path (.folder remaining) := fun all => by
  obtain ⟨remaining, there⟩ := all willing (fun _ => false) [] twoEntries (.cons [98] .file .nil) (by rfl) [[97]] .nil .here
    (fun _ _ => rfl)
  cases there with
  | next later => cases later

end Pclsync.Proofs.Trashes
