import Pclsync.Proofs.Trashes
import Pclsync.Sync.Rename

/-! A rename either reaches the disk and the database or neither. What goes wrong is known from the first answer of
the system that is not tried again. -/

namespace Pclsync.Proofs.Rename
open Pclsync.Library Pclsync.Sync.Rename
open Pclsync.Trashes (Entry Entries Name ls remove rmdirWithTrashes)
open Pclsync.Sync (LocalFolder FolderKeys)
open Pclsync.Proofs.Trashes (At)

section Trashes

/-- There is an entry at a path below a folder. -/
def Has (entries : Entries) (path : List Name) : Prop := ∃ entry, At entries path entry

/-- No folder has a name twice. -/
inductive Distinct : Entries → Prop
  | nil : Distinct .nil
  | cons {name : Name} {entry : Entry} {rest : Entries} (fresh : ¬Has rest [name])
      (inside : ∀ entries, entry = .folder entries → Distinct entries) (others : Distinct rest) : Distinct (.cons name entry rest)

theorem distinct_cons {name : Name} {entry : Entry} {rest : Entries} (distinct : Distinct (.cons name entry rest)) :
    ¬Has rest [name] ∧ (∀ entries, entry = .folder entries → Distinct entries) ∧ Distinct rest := by
  cases distinct with
  | cons fresh inside others => exact ⟨fresh, inside, others⟩

theorem not_has_nil {path : List Name} : ¬Has .nil path := fun ⟨_, there⟩ => by cases there

theorem has_here {name : Name} {entry : Entry} {rest : Entries} : Has (.cons name entry rest) [name] := ⟨entry, .here⟩

theorem has_next {name : Name} {entry : Entry} {rest : Entries} {path : List Name} (later : Has rest path) :
    Has (.cons name entry rest) path := ⟨later.choose, .next later.choose_spec⟩

theorem has_inside {name : Name} {entries rest : Entries} {path : List Name} (below : Has entries path) :
    Has (.cons name (.folder entries) rest) (name :: path) := ⟨below.choose, .inside below.choose_spec⟩

/-- What is below an entry is below an entry with the name. -/
theorem has_head {entries : Entries} {name : Name} {path : List Name} (there : Has entries (name :: path)) : Has entries [name] := by
  obtain ⟨entry, there⟩ := there
  generalize same : name :: path = whole at there
  induction there with
  | here =>
    cases same
    exact has_here
  | next _ ih => exact has_next (ih same)
  | inside _ _ =>
    cases same
    exact has_here

/-- The cases of an entry below the first. -/
theorem has_cons {name : Name} {entry : Entry} {rest : Entries} {path : List Name} (there : Has (.cons name entry rest) path) :
    path = [name] ∨ Has rest path ∨ ∃ entries below, entry = .folder entries ∧ path = name :: below ∧ Has entries below := by
  obtain ⟨found, there⟩ := there
  cases there with
  | here => exact .inl rfl
  | next later => exact .inr (.inl ⟨found, later⟩)
  | inside below => exact .inr (.inr ⟨_, _, rfl, rfl, found, below⟩)

variable (system : Trashes.System) {ignored : Name → Bool}

/-- A walker removes something: a file, or a folder that is empty. -/
inductive Removes (system : Trashes.System) (ignored : Name → Bool) : Bool → List Name → Entries → Prop
  | file {all : Bool} {path : List Name} {name : Name} {rest : Entries} (seen : system.lstat (path ++ [name]) = true)
      (trash : (all || ignored name) = true) (unlinked : system.unlink (path ++ [name]) = true) :
      Removes system ignored all path (.cons name .file rest)
  | empty {all : Bool} {path : List Name} {name : Name} {rest : Entries} (seen : system.lstat (path ++ [name]) = true)
      (removed : system.rmdir (path ++ [name]) = true) : Removes system ignored all path (.cons name (.folder .nil) rest)
  | inside {all : Bool} {path : List Name} {name : Name} {entries rest : Entries} (seen : system.lstat (path ++ [name]) = true)
      (opened : system.opendir (path ++ [name]) = true) (below : Removes system ignored (all || ignored name) (path ++ [name]) entries) :
      Removes system ignored all path (.cons name (.folder entries) rest)
  | next {all : Bool} {path : List Name} {name : Name} {entry : Entry} {rest : Entries} (later : Removes system ignored all path rest) :
      Removes system ignored all path (.cons name entry rest)

/-- What a walker makes of the first entry. -/
def visit (ignored : Name → Bool) (all : Bool) (path : List Name) (name : Name) (entry : Entry) : Option Entry :=
  if system.lstat (path ++ [name]) then remove system ignored all (path ++ [name]) name entry else some entry

theorem ls_cons_none {all : Bool} {path : List Name} {name : Name} {entry : Entry} {rest : Entries}
    (gone : visit system ignored all path name entry = none) :
    ls system ignored all path (.cons name entry rest) = ls system ignored all path rest := by
  rw [ls]
  rw [visit] at gone
  rw [gone]

theorem ls_cons_some {all : Bool} {path : List Name} {name : Name} {entry left : Entry} {rest : Entries}
    (stays : visit system ignored all path name entry = some left) :
    ls system ignored all path (.cons name entry rest) = .cons name left (ls system ignored all path rest) := by
  rw [ls]
  rw [visit] at stays
  rw [stays]

/-- What is left of a folder, if it is left. -/
theorem visit_folder {all : Bool} {path : List Name} {name : Name} {entries : Entries} :
    (visit system ignored all path name (.folder entries) = none ∨
      visit system ignored all path name (.folder entries) =
        some (.folder (ls system ignored (all || ignored name) (path ++ [name]) entries))) ∨
    visit system ignored all path name (.folder entries) = some (.folder entries) := by
  rw [visit]
  split
  · rw [remove]
    split
    · split
      · exact .inl (.inl rfl)
      · exact .inl (.inr rfl)
    · split
      · exact .inl (.inl rfl)
      · exact .inr rfl
  · exact .inr rfl

/-- A walker makes no entry. -/
theorem has_ls (all : Bool) (path : List Name) (below : List Name) :
    (entries : Entries) → Has (ls system ignored all path entries) below → Has entries below
  | .nil, there => by rwa [ls] at there
  | .cons name entry rest, there => by
    cases stays : visit system ignored all path name entry with
    | none =>
      rw [ls_cons_none system stays] at there
      exact has_next (has_ls all path below rest there)
    | some left =>
      rw [ls_cons_some system stays] at there
      obtain rfl | later | ⟨inside, further, rfl, rfl, under⟩ := has_cons there
      · exact has_here
      · exact has_next (has_ls all path below rest later)
      · cases entry with
        | file =>
          rw [visit, remove] at stays
          split_ifs at stays <;> cases stays
        | other =>
          rw [visit, remove] at stays
          split_ifs at stays <;> cases stays
        | folder entries =>
          obtain (gone | walked) | same := @visit_folder system ignored all path name entries
          · rw [gone] at stays
            cases stays
          · rw [walked] at stays
            cases stays
            exact has_inside (has_ls (all || ignored name) (path ++ [name]) further entries under)
          · rw [same] at stays
            cases stays
            exact has_inside under

/-- A walker that removes nothing leaves all as it is. -/
theorem ls_same (all : Bool) (path : List Name) :
    (entries : Entries) → ¬Removes system ignored all path entries → ls system ignored all path entries = entries
  | .nil, _ => by rw [ls]
  | .cons name entry rest, nothing => by
    have others := ls_same all path rest fun later => nothing (.next later)
    have stays : visit system ignored all path name entry = some entry := by
      rw [visit]
      split
      next seen =>
        cases entry with
        | other => rw [remove]
        | file =>
          rw [remove, if_neg]
          intro both
          rw [Bool.and_eq_true] at both
          exact nothing (.file seen both.1 both.2)
        | folder entries =>
          have inner : (if system.opendir (path ++ [name]) then ls system ignored (all || ignored name) (path ++ [name]) entries else entries) = entries := by
            split
            next opened => exact ls_same (all || ignored name) (path ++ [name]) entries fun below => nothing (.inside seen opened below)
            next => rfl
          rw [remove, inner]
          refine if_neg fun both => ?_
          rw [Bool.and_eq_true] at both
          cases entries with
          | nil => exact nothing (.empty seen both.2)
          | cons name entry rest => cases both.1
      next => rfl
    rw [ls_cons_some system stays, others]

theorem visit_opened {all : Bool} {path : List Name} {name : Name} {entries : Entries} (seen : system.lstat (path ++ [name]) = true)
    (opened : system.opendir (path ++ [name]) = true) :
    visit system ignored all path name (.folder entries) = none ∨
      visit system ignored all path name (.folder entries) =
        some (.folder (ls system ignored (all || ignored name) (path ++ [name]) entries)) := by
  rw [visit, if_pos seen, remove, if_pos opened]
  split
  · exact .inl rfl
  · exact .inr rfl

/-- What a walker removes is missing. -/
theorem ls_loses {all : Bool} {path : List Name} {entries : Entries} (distinct : Distinct entries)
    (removes : Removes system ignored all path entries) :
    ∃ below, Has entries below ∧ ¬Has (ls system ignored all path entries) below := by
  induction removes with
  | @file all path name rest seen trash unlinked =>
    obtain ⟨fresh, inner, others⟩ := distinct_cons distinct
    have gone : visit system ignored all path name .file = none := by rw [visit, if_pos seen, remove, trash, unlinked]; rfl
    refine ⟨[name], has_here, fun there => fresh ?_⟩
    rw [ls_cons_none system gone] at there
    exact has_ls system all path [name] rest there
  | @empty all path name rest seen removed =>
    obtain ⟨fresh, inner, others⟩ := distinct_cons distinct
    have gone : visit system ignored all path name (.folder .nil) = none := by
      rw [visit, if_pos seen, remove, ls, ite_self, removed]
      rfl
    refine ⟨[name], has_here, fun there => fresh ?_⟩
    rw [ls_cons_none system gone] at there
    exact has_ls system all path [name] rest there
  | @inside all path name entries rest seen opened below ih =>
    obtain ⟨fresh, inner, others⟩ := distinct_cons distinct
    obtain ⟨lost, was, isNot⟩ := ih (inner entries rfl)
    have later : ¬Has (ls system ignored all path rest) (name :: lost) := fun there =>
      fresh (has_head (has_ls system all path (name :: lost) rest there))
    refine ⟨name :: lost, has_inside was, fun there => ?_⟩
    obtain gone | left := @visit_opened system ignored all path name entries seen opened
    · rw [ls_cons_none system gone] at there
      exact later there
    · rw [ls_cons_some system left] at there
      obtain same | there | ⟨inside, further, equal, split, under⟩ := has_cons there
      · rw [List.cons.injEq] at same
        exact Proofs.Trashes.path_ne_nil was.choose_spec same.2
      · exact later there
      · cases equal
        cases split
        exact isNot under
  | @next all path name entry rest removes ih =>
    obtain ⟨fresh, inner, others⟩ := distinct_cons distinct
    obtain ⟨lost, was, isNot⟩ := ih others
    refine ⟨lost, has_next was, fun there => ?_⟩
    cases stays : visit system ignored all path name entry with
    | none =>
      rw [ls_cons_none system stays] at there
      exact isNot there
    | some left =>
      rw [ls_cons_some system stays] at there
      obtain rfl | there | ⟨inside, further, -, rfl, -⟩ := has_cons there
      · exact fresh was
      · exact isNot there
      · exact fresh (has_head was)

end Trashes

section Disk

variable {system : System} {oldpath newpath : Path}

/-- Without a slash between them the name goes on with the last one of the path. -/
theorem not_below {name : Name} (plain : slash ∉ name) : (oldpath ++ [slash]).isPrefixOf? (oldpath ++ name) = none := by
  induction oldpath with
  | nil =>
    cases name with
    | nil => rfl
    | cons first rest =>
      have differ : (slash == first) = false := beq_eq_false_iff_ne.mpr fun same => plain (same ▸ List.mem_cons_self)
      rw [List.nil_append, List.nil_append, List.isPrefixOf?, differ]
      rfl
  | cons first rest ih =>
    rw [List.cons_append, List.cons_append, List.isPrefixOf?, beq_self_eq_true, if_pos rfl]
    exact ih

theorem doMove_elsewhere (disk : Disk) {name : Name} (plain : slash ∉ name) :
    ∃ elsewhere, doMove system oldpath newpath disk name = { disk with elsewhere } := by
  rw [doMove, renameEntry, not_below plain]
  split
  · exact ⟨_, rfl⟩
  · exact ⟨_, rfl⟩

theorem doMoves_elsewhere (names : List Name) (plain : ∀ name ∈ names, slash ∉ name) (disk : Disk) :
    ∃ elsewhere, names.foldl (doMove system oldpath newpath) disk = { disk with elsewhere } := by
  induction names generalizing disk with
  | nil => exact ⟨_, rfl⟩
  | cons name rest ih =>
    obtain ⟨first, moved⟩ := @doMove_elsewhere system oldpath newpath disk name (plain name List.mem_cons_self)
    rw [List.foldl_cons, moved]
    exact ih (fun other member => plain other (List.mem_cons_of_mem _ member)) _

theorem has_listed : (entries : Entries) → ∀ name ∈ listed system entries, Has entries [name]
  | .nil => fun _ member => by cases member
  | .cons first entry rest => fun name member => by
    have later : name ∈ listed system rest → Has (.cons first entry rest) [name] := fun inside => has_next (has_listed rest name inside)
    cases entry with
    | other => exact later (by rwa [listed] at member)
    | file =>
      rw [listed] at member
      · split at member
        · obtain rfl | inside := List.mem_cons.mp member
          · exact has_here
          · exact later inside
        · exact later member
      · exact fun same => by cases same
    | folder entries =>
      rw [listed] at member
      · split at member
        · obtain rfl | inside := List.mem_cons.mp member
          · exact has_here
          · exact later inside
        · exact later member
      · exact fun same => by cases same

/-- The moves find no entry of the folder, and the folder is removed as it was. -/
theorem moveFolderContents_eq {entries : Entries} (plain : ∀ name, Has entries [name] → slash ∉ name) {arrived : Option Entries}
    {before : List (Path × Path)} :
    ∃ elsewhere, moveFolderContents system oldpath newpath ⟨some entries, arrived, before⟩ =
      match rmdirWithTrashes system.trash system.ignored [] entries with
      | none => (0, ⟨none, arrived, elsewhere⟩)
      | some left => (-1, ⟨some left, arrived, elsewhere⟩) := by
  obtain ⟨elsewhere, moved⟩ := @doMoves_elsewhere system oldpath newpath (listed system entries)
    (fun name member => plain name (has_listed entries name member)) ⟨some entries, arrived, before⟩
  rw [moveFolderContents]
  dsimp only [Option.elim]
  rw [moved]
  cases system.opendir with
  | true => exact ⟨elsewhere, rfl⟩
  | false => exact ⟨before, rfl⟩

/-- An answer after which the rename is tried again. -/
def retried : Answer → Bool
  | .full => true
  | .taken (.file true) => true
  | _ => false

/-- The first other answer decides. -/
theorem taskRenamedir_eq (answers : List Answer) (disk : Disk) :
    taskRenamedir system oldpath newpath answers disk =
      (answers.find? fun answer => !retried answer).bind fun answer => taskRenamedir system oldpath newpath [answer] disk := by
  induction answers with
  | nil => rfl
  | cons answer rest ih =>
    match answer with
    | .done => rfl
    | .full => exact ih
    | .busy => rfl
    | .noEntry => rfl
    | .taken .unknown => rfl
    | .taken .folder => rfl
    | .taken (.file true) => exact ih
    | .taken (.file false) => rfl
    | .other => rfl

end Disk

section Paths

variable {syncfolder : List (ℕ × Path)} {rows : List LocalFolder} {rank : ℕ → ℕ}

/-- A folder whose parents end at the root has a path. -/
theorem walk_some (base : Path) (parent : ∀ row ∈ rows, row.localparentfolderid = 0 ∨ ∃ parent ∈ rows, parent.id = row.localparentfolderid)
    (forest : ∀ row ∈ rows, rank row.localparentfolderid < rank row.id) {fuel id : ℕ} (there : id = 0 ∨ ∃ row ∈ rows, row.id = id)
    (enough : rank id < fuel) (path : Path) : ∃ found, walk rows base fuel id path = some (some found) := by
  induction fuel generalizing id path with
  | zero => omega
  | succ fuel ih =>
    rw [walk]
    split
    · exact ⟨_, rfl⟩
    next positive =>
      obtain ⟨row, member, same⟩ := there.resolve_left positive
      have some : (rows.find? fun row => row.id = id).isSome := List.find?_isSome.mpr ⟨row, member, decide_eq_true same⟩
      obtain ⟨found, first⟩ := Option.isSome_iff_exists.mp some
      rw [first]
      have inside := List.mem_of_find?_eq_some first
      have own : found.id = id := by simpa using List.find?_some first
      have less := forest found inside
      rw [own] at less
      exact ih (parent found inside) (by omega) _

theorem lpathLfldr_some (allowed : Allowed syncfolder rows) (forest : ∀ row ∈ rows, rank row.localparentfolderid < rank row.id)
    {row : LocalFolder} (member : row ∈ rows) {syncid fuel : ℕ} (known : ∃ sync ∈ syncfolder, sync.1 = syncid) (enough : rank row.id < fuel) :
    ∃ path, lpathLfldr syncfolder rows fuel row.id syncid = some (some path) := by
  obtain ⟨sync, inside, same⟩ := known
  have some : (syncfolder.find? fun sync => sync.1 = syncid).isSome := List.find?_isSome.mpr ⟨sync, inside, decide_eq_true same⟩
  obtain ⟨found, first⟩ := Option.isSome_iff_exists.mp some
  rw [lpathLfldr, first]
  exact walk_some found.2 allowed.2.1 forest (.inr ⟨row, member, rfl⟩) enough []

theorem lpathLfldr_none {syncid fuel id : ℕ} (unknown : ¬∃ sync ∈ syncfolder, sync.1 = syncid) :
    lpathLfldr syncfolder rows fuel id syncid = some none := by
  rw [lpathLfldr, List.find?_eq_none.mpr fun sync member => by simpa using fun same => unknown ⟨sync, member, same⟩]

end Paths

open Pclsync.Paths.Sync (getSyncData syncfldrMoved SyncFolderMoved)

/-- What the path status is told of a move changes no count. -/
theorem syncfldrMoved_marks (s : Paths.Sync.State) (moved : SyncFolderMoved) (sync : ℕ) :
    (getSyncData (syncfldrMoved s moved).syncData sync).folderTasks = (getSyncData s.syncData sync).folderTasks := by
  rw [syncfldrMoved]
  split
  · rfl
  · cases found : s.syncData moved.oldSync with
    | none => rfl
    | some tree =>
      have same : ∀ lru, (getSyncData (Function.update s.syncData moved.oldSync (some { tree with parentCacheLru := lru })) sync).folderTasks =
          (getSyncData s.syncData sync).folderTasks := by
        intro lru
        by_cases own : sync = moved.oldSync
        · subst own
          rw [getSyncData, getSyncData, Function.update_self, found]
          rfl
        · rw [getSyncData, getSyncData, Function.update_of_ne own]
      dsimp only
      split
      · exact same _
      · exact same _

/-- A task for a folder that has a row, in a database whose folders are a forest before and after it. -/
structure Input (syncfolder : List (ℕ × Path)) where
  state : State syncfolder
  task : Task
  system : System
  answers : List Answer
  row : LocalFolder
  entries : Entries
  there : row ∈ state.localfolder.rows
  named : row.id = task.localfolderid
  disk : state.disk = ⟨some entries, none, []⟩
  distinct : Distinct entries
  plain : ∀ name, Has entries [name] → slash ∉ name
  queue : state.status.commitcbs = []
  forest : ∃ rank : ℕ → ℕ, ∀ row ∈ state.localfolder.rows, rank row.localparentfolderid < rank row.id
  forestAfter : Allowed syncfolder (state.localfolder.rows.map task.change) →
    ∃ rank : ℕ → ℕ, ∀ row ∈ state.localfolder.rows.map task.change, rank row.localparentfolderid < rank row.id

section Claim

variable {syncfolder : List (ℕ × Path)} (input : Input syncfolder)

/-- The row is as the task wants it. -/
def Already : Prop :=
  input.row.syncid = input.task.newsyncid ∧ input.row.localparentfolderid = input.task.newlocalparentfolderid ∧
    input.row.name = input.task.newname

/-- The row points to the new place, and what was at the old path is there. -/
structure Success (after : State syncfolder) : Prop where
  points : input.task.row ∈ after.localfolder.rows
  entries : Already input ∨ ∀ path, Has input.entries path → ∃ arrived, after.disk.arrived = some arrived ∧ Has arrived path

/-- The rows and the counts are as before, and nothing is lost. -/
structure Failure (after : State syncfolder) : Prop where
  rows : after.localfolder = input.state.localfolder
  counts : ∀ sync, (getSyncData after.status.syncData sync).folderTasks = (getSyncData input.state.status.syncData sync).folderTasks
  queue : after.status.commitcbs = []
  entries : ∀ path, Has input.entries path → (∃ left, after.disk.old = some left ∧ Has left path) ∨
    ∃ arrived, after.disk.arrived = some arrived ∧ Has arrived path

/-- What is reported is what happened. -/
def Meets : Prop :=
  ∃ enough, ∀ fuel, enough ≤ fuel → ∀ ret after,
    taskRenamefolder input.system input.answers fuel input.task input.state = some (ret, after) →
      (ret = 0 → Success input after) ∧ (ret ≠ 0 → Failure input after)

/-- The database takes the new row. -/
def Valid : Prop := Allowed syncfolder (input.state.localfolder.rows.map input.task.change)

instance : Decidable (Valid input) := inferInstanceAs (Decidable (Allowed _ _))

/-- `psync_rmdir_with_trashes` comes to something that it removes. -/
def Trashed : Prop :=
  input.system.trash.first = true ∧ input.system.trash.opendir [] = true ∧ Removes input.system.trash input.system.ignored false [] input.entries

/-- What has to hold if an answer decides. -/
def Suits : Answer → Prop
  | .done => Valid input
  | .noEntry => Valid input ∧ input.entries = .nil
  | .taken .folder => (input.entries = .nil ∧ (input.system.trash.first = true → Valid input)) ∨ (input.entries ≠ .nil ∧ ¬Trashed input)
  | _ => True

/-- The row is as the task wants it, or the new sync is there and the answer that decides is one that suits. -/
def Fits : Prop :=
  Already input ∨ (∃ sync ∈ syncfolder, sync.1 = input.task.newsyncid) ∧
    ∀ answer, (input.answers.find? fun answer => !retried answer) = some answer → Suits input answer

variable {input}

theorem find_row : (input.state.localfolder.rows.find? fun row => row.id = input.task.localfolderid) = some input.row := by
  have some : (input.state.localfolder.rows.find? fun row => row.id = input.task.localfolderid).isSome :=
    List.find?_isSome.mpr ⟨input.row, input.there, decide_eq_true input.named⟩
  obtain ⟨found, first⟩ := Option.isSome_iff_exists.mp some
  have own : found.id = input.task.localfolderid := by simpa using List.find?_some first
  have same : found = input.row :=
    List.inj_on_of_nodup_map input.state.localfolder.valid.1.1 (List.mem_of_find?_eq_some first) input.there (own.trans input.named.symm)
  rw [first, same]

theorem update_invalid (invalid : ¬Valid input) : input.state.localfolder.update input.task.change = input.state.localfolder :=
  dif_neg invalid

theorem change_row : input.task.change input.row = input.task.row := if_pos input.named

/-- The state in which the folder is renamed on the disk. -/
def Begun (input : Input syncfolder) (s : State syncfolder) : Prop :=
  s.localfolder = input.state.localfolder.update input.task.change ∧ s.disk = input.state.disk ∧
    ∀ sync, (getSyncData s.status.syncData sync).folderTasks = (getSyncData input.state.status.syncData sync).folderTasks

/-- What the function does when the new path is known. -/
theorem taskRenamefolder_eq (differs : ¬Already input) (known : ∃ sync ∈ syncfolder, sync.1 = input.task.newsyncid) :
    ∃ enough, ∀ fuel, enough ≤ fuel → ∃ s oldpath newpath, Begun input s ∧
      taskRenamefolder input.system input.answers fuel input.task input.state =
        (taskRenamedir input.system oldpath newpath input.answers input.state.disk).bind fun result =>
          if result.1 = 0 then some (result.1, { s with disk := result.2 }.commit input.state.localfolder (¬Valid input))
          else some (result.1, { s with disk := result.2 }.rollback input.state.localfolder) := by
  obtain ⟨rank, forest⟩ := input.forest
  have allowed := input.state.localfolder.valid
  have moved : ∃ enough, ∀ fuel, enough ≤ fuel → ∃ newpath,
      lpathLfldr syncfolder (input.state.localfolder.update input.task.change).rows fuel input.row.id input.task.newsyncid = some (some newpath) := by
    by_cases valid : Valid input
    · obtain ⟨rankAfter, forestAfter⟩ := input.forestAfter valid
      refine ⟨rankAfter input.row.id + 1, fun fuel enough => ?_⟩
      rw [Table.update_rows valid]
      have member := List.mem_map_of_mem (f := input.task.change) input.there
      have same : (input.task.change input.row).id = input.row.id := by
        rw [change_row, input.named]
        rfl
      have small : rankAfter (input.task.change input.row).id < fuel := by
        rw [same]
        omega
      have found := lpathLfldr_some valid forestAfter member known small
      rwa [same] at found
    · refine ⟨rank input.row.id + 1, fun fuel enough => ?_⟩
      rw [update_invalid valid]
      exact lpathLfldr_some allowed forest input.there known (by omega)
  obtain ⟨enough, moved⟩ := moved
  refine ⟨max enough (rank input.row.id + 1), fun fuel large => ?_⟩
  obtain ⟨newpath, new⟩ := moved fuel (le_trans (le_max_left _ _) large)
  obtain ⟨oldpath, old⟩ := lpathLfldr_some allowed forest input.there (allowed.2.2 input.row input.there)
    (lt_of_lt_of_le (Nat.lt_succ_self _) (le_trans (le_max_right _ _) large))
  refine ⟨⟨input.state.localfolder.update input.task.change, syncfldrMoved input.state.status
    ⟨⟨input.task.localfolderid, input.row.localparentfolderid, input.task.newlocalparentfolderid⟩, input.row.syncid, input.task.newsyncid⟩,
    input.state.disk⟩, oldpath, newpath, ⟨rfl, rfl, syncfldrMoved_marks _ _⟩, ?_⟩
  rw [taskRenamefolder, find_row]
  dsimp only
  rw [if_neg (show ¬(_ ∧ _ ∧ _) from differs), ← input.named, old]
  simp only [Option.bind_eq_bind, Option.bind_some]
  rw [new]
  rfl

theorem row_mem_iff (differs : ¬Already input) : input.task.row ∉ input.state.localfolder.rows := by
  intro member
  have same : input.task.row = input.row := List.inj_on_of_nodup_map input.state.localfolder.valid.1.1 member input.there input.named.symm
  apply differs
  rw [Already, ← same]
  exact ⟨rfl, rfl, rfl⟩

/-- What the disk has to be after the rename. -/
structure Judged (input : Input syncfolder) (ret : ℤ) (disk : Disk) : Prop where
  success : ret = 0 → Valid input ∧ ∀ path, Has input.entries path → ∃ arrived, disk.arrived = some arrived ∧ Has arrived path
  failure : ret ≠ 0 → ∀ path, Has input.entries path → (∃ left, disk.old = some left ∧ Has left path) ∨
    ∃ arrived, disk.arrived = some arrived ∧ Has arrived path

/-- The transaction ends with the disk. -/
theorem judged_iff (differs : ¬Already input) {s : State syncfolder} (begun : Begun input s) {ret : ℤ} {disk : Disk} :
    (∀ code after, (if ret = 0 then some (ret, { s with disk }.commit input.state.localfolder (¬Valid input))
        else some (ret, { s with disk }.rollback input.state.localfolder)) = some (code, after) →
      (code = 0 → Success input after) ∧ (code ≠ 0 → Failure input after)) ↔ Judged input ret disk := by
  obtain ⟨rows, -, marks⟩ := begun
  by_cases zero : ret = 0
  · subst zero
    simp only [if_true, Option.some.injEq, Prod.mk.injEq, and_imp]
    constructor
    · intro holds
      obtain ⟨points, moved⟩ := (holds 0 _ rfl rfl).1 rfl
      have valid : Valid input := by
        by_contra invalid
        rw [State.commit, decide_eq_true invalid, if_pos rfl] at points
        exact row_mem_iff differs points
      rw [State.commit, decide_eq_false (not_not.mpr valid)] at moved
      exact ⟨fun _ => ⟨valid, moved.resolve_left differs⟩, fun absurd => (absurd rfl).elim⟩
    · rintro ⟨success, -⟩ code after rfl rfl
      obtain ⟨valid, moved⟩ := success rfl
      refine ⟨fun _ => ?_, fun absurd => (absurd rfl).elim⟩
      rw [State.commit, decide_eq_false (not_not.mpr valid)]
      refine ⟨?_, .inr moved⟩
      change input.task.row ∈ s.localfolder.rows
      rw [rows, Table.update_rows valid, ← change_row]
      exact List.mem_map_of_mem input.there
  · simp only [if_neg zero, Option.some.injEq, Prod.mk.injEq, and_imp]
    constructor
    · intro holds
      exact ⟨fun absurd => (zero absurd).elim, fun _ => ((holds ret _ rfl rfl).2 zero).entries⟩
    · rintro ⟨-, failure⟩ code after rfl rfl
      exact ⟨fun absurd => (zero absurd).elim, fun _ => ⟨rfl, marks, rfl, failure zero⟩⟩

theorem has_of_ne_nil {entries : Entries} (some : entries ≠ .nil) : ∃ path, Has entries path := by
  cases entries with
  | nil => exact (some rfl).elim
  | cons name entry rest => exact ⟨[name], has_here⟩

/-- What is left of a folder that is not empty. -/
theorem rmdirWithTrashes_some (trash : Trashes.System) (ignored : Name → Bool) {entries : Entries} (some : entries ≠ .nil) :
    rmdirWithTrashes trash ignored [] entries =
      if trash.first && trash.opendir [] then
        if (ls trash ignored false [] entries).isEmpty && trash.last then none else Option.some (ls trash ignored false [] entries)
      else Option.some entries := by
  cases entries with
  | nil => exact (some rfl).elim
  | cons name entry rest =>
    rw [rmdirWithTrashes]
    simp only [Entries.isEmpty, Bool.and_false, Bool.false_eq_true, if_false]

/-- An answer decides as it has to if it suits. -/
theorem judged_answer {answer : Answer} (last : retried answer = false) {oldpath newpath : Path} :
    ∃ ret disk, taskRenamedir input.system oldpath newpath [answer] input.state.disk = some (ret, disk) ∧
      (Judged input ret disk ↔ Suits input answer) := by
  have stays : ∀ {entries : Entries} {elsewhere : List (Path × Path)}, (∀ path, Has input.entries path → Has entries path) →
      Judged input (-1) ⟨some entries, none, elsewhere⟩ := fun all =>
    ⟨fun absurd => (by decide : (-1 : ℤ) ≠ 0) absurd |>.elim, fun _ path there => .inl ⟨_, rfl, all path there⟩⟩
  rw [input.disk]
  match answer, last with
  | .done, _ =>
    refine ⟨0, ⟨none, some input.entries, []⟩, rfl, ?_⟩
    exact ⟨fun judged => (judged.success rfl).1, fun valid => ⟨fun _ => ⟨valid, fun path there => ⟨_, rfl, there⟩⟩, fun absurd => (absurd rfl).elim⟩⟩
  | .busy, _ => exact ⟨_, _, rfl, iff_of_true (stays fun _ there => there) trivial⟩
  | .other, _ => exact ⟨_, _, rfl, iff_of_true (stays fun _ there => there) trivial⟩
  | .taken .unknown, _ => exact ⟨_, _, rfl, iff_of_true (stays fun _ there => there) trivial⟩
  | .taken (.file false), _ => exact ⟨_, _, rfl, iff_of_true (stays fun _ there => there) trivial⟩
  | .noEntry, _ =>
    refine ⟨0, ⟨some input.entries, none, []⟩, rfl, ?_⟩
    constructor
    · intro judged
      obtain ⟨valid, moved⟩ := judged.success rfl
      refine ⟨valid, by_contra fun some => ?_⟩
      obtain ⟨path, there⟩ := has_of_ne_nil some
      obtain ⟨_, absurd, -⟩ := moved path there
      cases absurd
    · rintro ⟨valid, empty⟩
      refine ⟨fun _ => ⟨valid, fun path there => ?_⟩, fun absurd => (absurd rfl).elim⟩
      rw [empty] at there
      exact (not_has_nil there).elim
  | .taken .folder, _ =>
    obtain ⟨elsewhere, moved⟩ := @moveFolderContents_eq input.system oldpath newpath input.entries input.plain none []
    have result : taskRenamedir input.system oldpath newpath [.taken .folder] ⟨some input.entries, none, []⟩ =
      some (moveFolderContents input.system oldpath newpath ⟨some input.entries, none, []⟩) := rfl
    rw [result, moved]
    by_cases empty : input.entries = .nil
    · have vacuous : ∀ path, ¬Has input.entries path := fun path there => not_has_nil (empty ▸ there)
      rw [empty, rmdirWithTrashes]
      cases first : input.system.trash.first with
      | true =>
        refine ⟨0, ⟨none, none, elsewhere⟩, rfl, ?_⟩
        constructor
        · exact fun judged => .inl ⟨empty, fun _ => (judged.success rfl).1⟩
        · rintro (⟨-, valid⟩ | ⟨some, -⟩)
          · exact ⟨fun _ => ⟨valid first, fun path there => (vacuous path there).elim⟩, fun absurd => (absurd rfl).elim⟩
          · exact (some empty).elim
      | false =>
        refine ⟨-1, ⟨some .nil, none, elsewhere⟩, rfl, iff_of_true (stays fun path there => (vacuous path there).elim) (.inl ⟨empty, ?_⟩)⟩
        intro absurd
        rw [first] at absurd
        cases absurd
    · rw [rmdirWithTrashes_some input.system.trash input.system.ignored empty]
      have suits : Suits input (.taken .folder) ↔ ¬Trashed input := by
        rw [Suits]
        exact ⟨fun one => (one.resolve_left fun both => empty both.1).2, fun nothing => .inr ⟨empty, nothing⟩⟩
      rw [suits]
      by_cases both : (input.system.trash.first && input.system.trash.opendir []) = true
      · rw [if_pos both]
        rw [Bool.and_eq_true] at both
        by_cases removes : Removes input.system.trash input.system.ignored false [] input.entries
        · obtain ⟨lost, was, isNot⟩ := ls_loses input.system.trash input.distinct removes
          have trashed : Trashed input := ⟨both.1, both.2, removes⟩
          cases (ls input.system.trash input.system.ignored false [] input.entries).isEmpty && input.system.trash.last with
          | true =>
            refine ⟨0, ⟨none, none, elsewhere⟩, rfl, iff_of_false (fun judged => ?_) (not_not.mpr trashed)⟩
            obtain ⟨_, absurd, -⟩ := (judged.success rfl).2 lost was
            cases absurd
          | false =>
            refine ⟨-1, ⟨some _, none, elsewhere⟩, rfl, iff_of_false (fun judged => ?_) (not_not.mpr trashed)⟩
            obtain ⟨left, same, there⟩ | ⟨_, absurd, -⟩ := judged.failure (by decide) lost was
            · cases same
              exact isNot there
            · cases absurd
        · rw [ls_same input.system.trash false [] input.entries removes]
          have full : input.entries.isEmpty = false := by
            cases entries : input.entries with
            | nil => exact (empty entries).elim
            | cons name entry rest => rfl
          rw [full, Bool.false_and, if_neg Bool.false_ne_true]
          exact ⟨-1, _, rfl, iff_of_true (stays fun _ there => there) fun trashed => removes trashed.2.2⟩
      · rw [if_neg both]
        refine ⟨-1, ⟨some input.entries, none, elsewhere⟩, rfl, iff_of_true (stays fun _ there => there) fun trashed => both ?_⟩
        rw [trashed.1, trashed.2.1]
        rfl

/-- Without the new sync there is no new path, and success is reported. -/
theorem taskRenamefolder_unknown (differs : ¬Already input) (unknown : ¬∃ sync ∈ syncfolder, sync.1 = input.task.newsyncid) :
    ∃ enough, ∀ fuel, enough ≤ fuel → ∃ after, taskRenamefolder input.system input.answers fuel input.task input.state = some (0, after) ∧
      after.localfolder = input.state.localfolder := by
  obtain ⟨rank, forest⟩ := input.forest
  have allowed := input.state.localfolder.valid
  refine ⟨rank input.row.id + 1, fun fuel large => ?_⟩
  obtain ⟨oldpath, old⟩ := lpathLfldr_some allowed forest input.there (allowed.2.2 input.row input.there) (lt_of_lt_of_le (Nat.lt_succ_self _) large)
  rw [taskRenamefolder, find_row]
  dsimp only
  rw [if_neg (show ¬(_ ∧ _ ∧ _) from differs), ← input.named, old]
  simp only [Option.bind_eq_bind, Option.bind_some]
  rw [lpathLfldr_none unknown]
  exact ⟨_, rfl, rfl⟩

/-- What is reported is what happened, if the answer of the system that decides is one that suits. -/
theorem renamed_iff (input : Input syncfolder) : Meets input ↔ Fits input := by
  by_cases already : Already input
  · refine iff_of_true ⟨0, fun fuel _ code after result => ?_⟩ (.inl already)
    rw [taskRenamefolder, find_row] at result
    dsimp only at result
    rw [if_pos (show _ ∧ _ ∧ _ from already)] at result
    obtain ⟨rfl, rfl⟩ := Prod.mk.inj (Option.some.inj result)
    refine ⟨fun _ => ⟨?_, .inl already⟩, fun absurd => (absurd rfl).elim⟩
    have same : input.task.row = input.row := by
      obtain ⟨sync, parent, name⟩ := already
      rw [Task.row, ← input.named, ← sync, ← parent, ← name]
    rw [same]
    exact input.there
  by_cases known : ∃ sync ∈ syncfolder, sync.1 = input.task.newsyncid
  · obtain ⟨enough, runs⟩ := taskRenamefolder_eq already known
    have decides : ∀ fuel, enough ≤ fuel → ((∀ code after,
        taskRenamefolder input.system input.answers fuel input.task input.state = some (code, after) →
          (code = 0 → Success input after) ∧ (code ≠ 0 → Failure input after)) ↔
        ∀ answer, (input.answers.find? fun answer => !retried answer) = some answer → Suits input answer) := by
      intro fuel large
      obtain ⟨s, oldpath, newpath, begun, result⟩ := runs fuel large
      rw [result, taskRenamedir_eq]
      cases first : input.answers.find? fun answer => !retried answer with
      | none =>
        refine iff_of_true (fun code after absurd => ?_) (fun answer absurd => ?_)
        · cases absurd
        · cases absurd
      | some answer =>
        have last : retried answer = false := by simpa using List.find?_some first
        obtain ⟨ret, disk, renamed, suits⟩ := @judged_answer _ input answer last oldpath newpath
        rw [Option.bind_some, renamed, Option.bind_some]
        rw [judged_iff already begun, suits]
        exact ⟨fun holds other same => Option.some.inj same ▸ holds, fun holds => holds answer rfl⟩
    constructor
    · rintro ⟨more, meets⟩
      refine .inr ⟨known, (decides (max enough more) (le_max_left _ _)).mp ?_⟩
      exact meets _ (le_max_right _ _)
    · rintro (absurd | ⟨-, suits⟩)
      · exact (already absurd).elim
      · exact ⟨enough, fun fuel large => (decides fuel large).mpr suits⟩
  · refine iff_of_false (fun ⟨more, meets⟩ => ?_) ?_
    · obtain ⟨enough, runs⟩ := taskRenamefolder_unknown already known
      obtain ⟨after, result, rows⟩ := runs (max enough more) (le_max_left _ _)
      have success := (meets _ (le_max_right _ _) 0 after result).1 rfl
      have points := success.points
      rw [rows] at points
      exact row_mem_iff already points
    · rintro (absurd | ⟨there, -⟩)
      · exact already absurd
      · exact known there

end Claim

section Example

/-- Folder 1 of a sync at `/s`. -/
def oneRow : State [(1, [47, 115])] where
  localfolder := ⟨[⟨1, 0, 1, [97]⟩], by decide⟩
  status := Paths.Sync.State.init (fun _ => none) (Function.update (fun _ => none) 1 (some 0))
  disk := ⟨some (.cons [46] .file .nil), none, []⟩

/-- It has one file, which is ignored, and gets another name, which a folder has. -/
def trash : Input [(1, [47, 115])] where
  state := oneRow
  task := ⟨1, 1, 0, [98]⟩
  system := ⟨true, fun _ => true, fun _ _ => true, ⟨fun _ => true, fun _ => true, fun _ => true, fun _ => true, true, true⟩, fun _ => true⟩
  answers := [.taken .folder]
  row := ⟨1, 0, 1, [97]⟩
  entries := .cons [46] .file .nil
  there := List.mem_cons_self
  named := rfl
  disk := rfl
  distinct := .cons not_has_nil (fun _ absurd => by cases absurd) .nil
  plain name there := by
    obtain same | absurd | ⟨_, _, absurd, -⟩ := has_cons there
    · cases same
      decide
    · exact (not_has_nil absurd).elim
    · cases absurd
  queue := rfl
  forest := ⟨id, by decide⟩
  forestAfter _ := ⟨id, by decide⟩

/-- The file is removed and success is reported. -/
theorem not_renamed : ¬∀ syncfolder (input : Input syncfolder), Meets input := fun all => by
  obtain ⟨enough, meets⟩ := all _ trash
  have result : ∃ after, taskRenamefolder trash.system trash.answers (enough + 2) trash.task trash.state = some (0, after) ∧
      after.disk.arrived = none := ⟨_, rfl, rfl⟩
  obtain ⟨after, result, arrived⟩ := result
  have success := (meets (enough + 2) (by omega) 0 after result).1 rfl
  obtain already | moved := success.entries
  · cases already.2.2
  · obtain ⟨found, same, -⟩ := moved [[46]] has_here
    rw [arrived] at same
    cases same

end Example

end Pclsync.Proofs.Rename
