import Pclsync.Sync.Syncer

/-! A local folder of the database is right after it was created only when its row is new, and its
counter only as long as no task of it is done. -/

namespace Pclsync.Proofs.Syncer
open Pclsync.Syncer Library

/-- What the rows are after a folder was created with the id `result.1`. -/
structure Created (db : Db) (syncid folderid localparentfolderid : ℕ) (name : Name) (result : ℕ × Db) : Prop where
  row : ∃ row ∈ result.2.localfolder.rows,
    row.id = result.1 ∧ row.syncid = some syncid ∧ row.folderid = some folderid ∧ row.localparentfolderid = some localparentfolderid
  others : (result.2.localfolder.rows.filter fun row => row.id ≠ result.1) = db.localfolder.rows.filter fun row => row.id ≠ result.1
  names : (result.2.localfolder.rows.countP fun row => row.psn = some (syncid, localparentfolderid, validName name)) ≤
    max 1 (db.localfolder.rows.countP fun row => row.psn = some (syncid, localparentfolderid, validName name))
  folders : (result.2.localfolder.rows.countP fun row => row.syncid = some syncid ∧ row.folderid = some folderid) ≤
    max 1 (db.localfolder.rows.countP fun row => row.syncid = some syncid ∧ row.folderid = some folderid)

/-- The counter after the folder was created for one task, and more tasks were queued and done. -/
def Counted (db : Db) (result : ℕ × Db) (steps : List Step) : Prop :=
  taskcnt (run result.1 result.2 steps) result.1 =
    some ((taskcnt db result.1).getD 0 + 1 + steps.count .queued - steps.count .completed)

/-- The row of the folder is to be inserted, and can be. -/
def Fresh (db : Db) (syncid localparentfolderid : ℕ) (name : Name) : Prop :=
  db.named localparentfolderid syncid (validName name) = none ∧ localparentfolderid ∈ db.localfolder.rows.map LocalFolder.id ∧
    syncid ∈ db.syncs

theorem keys_map {rows : List LocalFolder} {change : LocalFolder → LocalFolder} (keys : Keys rows)
    (ids : ∀ row, (change row).id = row.id) (syncids : ∀ row, (change row).syncid = row.syncid)
    (psns : ∀ row, (change row).psn = row.psn) : Keys (rows.map change) := by
  obtain ⟨nodup, index, root⟩ := keys
  refine ⟨?_, ?_, ?_⟩
  · rwa [List.map_map, show LocalFolder.id ∘ change = LocalFolder.id from funext ids]
  · rwa [List.filterMap_map, show LocalFolder.psn ∘ change = LocalFolder.psn from funext psns]
  · intro row member zero
    obtain ⟨old, within, rfl⟩ := List.mem_map.mp member
    rw [syncids]
    exact root old within (by rw [← ids, zero])

theorem setFolderid_rows (db : Db) (folderid id : ℕ) : (db.setFolderid folderid id).localfolder.rows =
    db.localfolder.rows.map fun row => if row.id = id then { row with folderid := some folderid } else row := by
  refine Table.update_rows (keys_map db.localfolder.valid ?_ ?_ ?_) <;> intro row <;> split <;> rfl

theorem folderIncTasks_rows (db : Db) (lfolderid : ℕ) : (db.folderIncTasks lfolderid).localfolder.rows =
    db.localfolder.rows.map fun row => if row.id = lfolderid then { row with taskcnt := row.taskcnt.map (· + 1) } else row := by
  refine Table.update_rows (keys_map db.localfolder.valid ?_ ?_ ?_) <;> intro row <;> split <;> rfl

/-- Neither of the two ways to change the counter takes one off. -/
theorem step_eq (lfolderid : ℕ) (db : Db) (any : Step) : step lfolderid db any = db.folderIncTasks lfolderid := by
  cases any <;> rfl

theorem taskcnt_incTasks (db : Db) (lfolderid : ℕ) :
    taskcnt (db.folderIncTasks lfolderid) lfolderid = (taskcnt db lfolderid).map (· + 1) := by
  unfold taskcnt
  rw [folderIncTasks_rows, List.find?_map]
  have same : ((fun row : LocalFolder => decide (row.id = lfolderid)) ∘ fun row =>
      if row.id = lfolderid then { row with taskcnt := row.taskcnt.map (· + 1) } else row) =
      fun row => decide (row.id = lfolderid) := by
    funext row
    dsimp only [Function.comp_apply]
    split <;> rfl
  rw [same]
  cases found : db.localfolder.rows.find? fun row => decide (row.id = lfolderid) with
  | none => rfl
  | some row =>
    have here : row.id = lfolderid := by simpa using List.find?_some found
    rw [Option.map_some, Option.bind_some, Option.bind_some, if_pos here]

theorem taskcnt_run (db : Db) (lfolderid : ℕ) (steps : List Step) :
    taskcnt (run lfolderid db steps) lfolderid = (taskcnt db lfolderid).map (· + (steps.length : ℤ)) := by
  induction steps generalizing db with
  | nil => simp [run]
  | cons head rest ih =>
    have next : run lfolderid db (head :: rest) = run lfolderid (db.folderIncTasks lfolderid) rest := by
      rw [run, List.foldl_cons, step_eq, run]
    rw [next, ih, taskcnt_incTasks, Option.map_map]
    congr 1
    funext count
    simp only [Function.comp_apply, List.length_cons, Nat.cast_add, Nat.cast_one]
    ring

theorem steps_length (steps : List Step) : steps.length = steps.count .queued + steps.count .completed := by
  induction steps with
  | nil => rfl
  | cons head rest ih =>
    rw [List.length_cons, ih, List.count_cons, List.count_cons]
    cases head <;> simp <;> omega

/-- A counter that was one higher after the folder was created stays right until a task is done. -/
theorem counted_iff {db : Db} {result : ℕ × Db} (steps : List Step) {count : ℤ} (higher : taskcnt result.2 result.1 = some count)
    (before : count = (taskcnt db result.1).getD 0 + 1) : Counted db result steps ↔ Step.completed ∉ steps := by
  rw [Counted, taskcnt_run, higher, before, Option.map_some, Option.some_inj, steps_length, ← List.count_eq_zero]
  push_cast
  omega

/-- A counter that was left as it was is never right. -/
theorem not_counted {db : Db} {lfolderid : ℕ} (steps : List Step) : ¬Counted db (lfolderid, db) steps := by
  rw [Counted, taskcnt_run]
  cases taskcnt db lfolderid with
  | none => exact fun same => by cases same
  | some count =>
    rw [Option.map_some, Option.some_inj, steps_length, Option.getD_some]
    push_cast
    omega

theorem psn_eq {row : LocalFolder} {syncid localparentfolderid : ℕ} {name : Name} :
    row.psn = some (syncid, localparentfolderid, name) ↔
      row.localparentfolderid = some localparentfolderid ∧ row.syncid = some syncid ∧ row.name = some name := by
  obtain ⟨_, parent, _, sync, _, _, own⟩ := row
  cases parent <;> cases sync <;> cases own <;> simp [LocalFolder.psn] <;> tauto

theorem known_eq_none {db : Db} {syncid folderid : ℕ} : db.known syncid folderid = none ↔
    ∀ row ∈ db.localfolder.rows, ¬(row.syncid = some syncid ∧ row.folderid = some folderid) := by
  simp only [Db.known, List.find?_eq_none, decide_eq_true_eq]

theorem named_eq_none {db : Db} {localparentfolderid syncid : ℕ} {name : Name} : db.named localparentfolderid syncid name = none ↔
    ∀ row ∈ db.localfolder.rows, row.psn ≠ some (syncid, localparentfolderid, name) := by
  simp only [Db.named, List.find?_eq_none, decide_eq_true_eq, ne_eq, psn_eq]

theorem named_eq_some {db : Db} {localparentfolderid syncid : ℕ} {name : Name} {row : LocalFolder}
    (named : db.named localparentfolderid syncid name = some row) :
    row ∈ db.localfolder.rows ∧ row.localparentfolderid = some localparentfolderid ∧ row.syncid = some syncid ∧ row.name = some name :=
  ⟨List.mem_of_find?_eq_some named, by simpa using List.find?_some named⟩

/-- A row of a sync is not the row 0. -/
theorem id_ne_zero {db : Db} {row : LocalFolder} {syncid : ℕ} (member : row ∈ db.localfolder.rows)
    (sync : row.syncid = some syncid) : row.id ≠ 0 := fun zero => by
  rw [db.localfolder.valid.2.2 row member zero] at sync
  cases sync

theorem keys_append {db : Db} {row : LocalFolder} {index : ℕ × ℕ × Name} (id : row.id = db.sequence + 1)
    (psn : row.psn = some index) : Keys (db.localfolder.rows ++ [row]) ↔ ∀ other ∈ db.localfolder.rows, other.psn ≠ some index := by
  obtain ⟨nodup, distinct, root⟩ := db.localfolder.valid
  have single : [row].filterMap LocalFolder.psn = [index] := by rw [List.filterMap_cons_some psn, List.filterMap_nil]
  constructor
  · rintro ⟨-, both, -⟩ other member same
    rw [List.filterMap_append, single] at both
    exact (List.nodup_append.mp both).2.2 index (List.mem_filterMap.mpr ⟨other, member, same⟩) index (List.mem_singleton_self _) rfl
  · intro free
    refine ⟨?_, ?_, ?_⟩
    · rw [List.map_append, List.nodup_append]
      refine ⟨nodup, List.nodup_singleton _, ?_⟩
      intro any member new single same
      obtain ⟨other, within, rfl⟩ := List.mem_map.mp member
      rw [List.map_singleton, List.mem_singleton] at single
      have := db.below other within
      omega
    · rw [List.filterMap_append, single, List.nodup_append]
      refine ⟨distinct, List.nodup_singleton _, ?_⟩
      intro any member new single same
      obtain ⟨other, within, here⟩ := List.mem_filterMap.mp member
      exact free other within (by rw [here, same, List.mem_singleton.mp single])
    · intro other member zero
      rcases List.mem_append.mp member with old | new
      · exact root other old zero
      · rw [List.mem_singleton.mp new, id] at zero
        omega

/-- The row that is inserted. -/
def inserting (db : Db) (syncid folderid localparentfolderid : ℕ) (name : Name) : LocalFolder :=
  ⟨db.sequence + 1, some localparentfolderid, some folderid, some syncid, some 0, some 1, some name⟩

theorem insertOrIgnore_eq_none {db : Db} {syncid folderid localparentfolderid : ℕ} {name : Name} :
    db.insertOrIgnore localparentfolderid folderid syncid (validName name) = none ↔ ¬Fresh db syncid localparentfolderid name := by
  have keys := @keys_append db (inserting db syncid folderid localparentfolderid (validName name)) _ rfl rfl
  rw [← named_eq_none] at keys
  unfold Db.insertOrIgnore Fresh
  dsimp only
  split
  next valid => exact iff_of_false (fun none => by cases none) (fun free => free ⟨keys.mp valid.1, valid.2⟩)
  next invalid => exact iff_of_true rfl (fun fresh => invalid ⟨keys.mpr fresh.1, fresh.2⟩)

theorem insertOrIgnore_eq_some {db inserted : Db} {syncid folderid localparentfolderid : ℕ} {name : Name}
    (done : db.insertOrIgnore localparentfolderid folderid syncid name = some inserted) : inserted.sequence = db.sequence + 1 ∧
      inserted.localfolder.rows = db.localfolder.rows ++ [inserting db syncid folderid localparentfolderid name] := by
  unfold Db.insertOrIgnore at done
  dsimp only at done
  split at done
  next valid =>
    cases done
    exact ⟨rfl, rfl⟩
  next invalid => cases done

theorem taskcnt_mem {db : Db} {row : LocalFolder} (member : row ∈ db.localfolder.rows) : taskcnt db row.id = row.taskcnt := by
  unfold taskcnt
  cases found : db.localfolder.rows.find? fun other => decide (other.id = row.id) with
  | none =>
    have differ := List.find?_eq_none.mp found row member
    rw [decide_eq_true_eq] at differ
    exact absurd rfl differ
  | some other =>
    have same : other = row :=
      List.inj_on_of_nodup_map db.localfolder.valid.1 (List.mem_of_find?_eq_some found) member (by simpa using List.find?_some found)
    rw [Option.bind_some, same]

theorem filter_others (rows : List LocalFolder) (id : ℕ) (change : LocalFolder → LocalFolder) (kept : ∀ row, (change row).id = row.id) :
    ((rows.map fun row => if row.id = id then change row else row).filter fun row => row.id ≠ id) = rows.filter fun row => row.id ≠ id := by
  induction rows with
  | nil => rfl
  | cons head rest ih =>
    rw [List.map_cons, List.filter_cons, List.filter_cons, ih]
    by_cases here : head.id = id
    · simp [here, kept]
    · simp [here]

theorem created_fresh {db inserted : Db} {syncid folderid localparentfolderid : ℕ} {name : Name}
    (unknown : db.known syncid folderid = none)
    (done : db.insertOrIgnore localparentfolderid folderid syncid (validName name) = some inserted) :
    Created db syncid folderid localparentfolderid name (inserted.sequence, inserted) := by
  have fresh : Fresh db syncid localparentfolderid name := by
    by_contra missing
    rw [insertOrIgnore_eq_none.mpr missing] at done
    cases done
  obtain ⟨sequence, rows⟩ := insertOrIgnore_eq_some done
  constructor
  · refine ⟨inserting db syncid folderid localparentfolderid (validName name), ?_, sequence.symm, rfl, rfl, rfl⟩
    rw [rows]
    exact List.mem_append_right _ (List.mem_singleton_self _)
  · have self : [inserting db syncid folderid localparentfolderid (validName name)].filter
        (fun row => decide (row.id ≠ inserted.sequence)) = [] := by
      simp [inserting, sequence]
    dsimp only
    rw [rows, List.filter_append, self, List.append_nil]
  · have none : (db.localfolder.rows.countP fun row => row.psn = some (syncid, localparentfolderid, validName name)) = 0 :=
      List.countP_eq_zero.mpr fun row member => by simpa using named_eq_none.mp fresh.1 row member
    dsimp only
    rw [rows, List.countP_append, none]
    exact (Nat.zero_add _).le.trans ((List.countP_le_length).trans (le_max_left _ _))
  · have none : (db.localfolder.rows.countP fun row => row.syncid = some syncid ∧ row.folderid = some folderid) = 0 :=
      List.countP_eq_zero.mpr fun row member => by simpa using known_eq_none.mp unknown row member
    dsimp only
    rw [rows, List.countP_append, none]
    exact (Nat.zero_add _).le.trans ((List.countP_le_length).trans (le_max_left _ _))

/-- The counter of a row that is new. -/
theorem counted_fresh {db inserted : Db} {syncid folderid localparentfolderid : ℕ} {name : Name}
    (done : db.insertOrIgnore localparentfolderid folderid syncid name = some inserted) (steps : List Step) :
    Counted db (inserted.sequence, inserted) steps ↔ Step.completed ∉ steps := by
  obtain ⟨sequence, rows⟩ := insertOrIgnore_eq_some done
  have member : inserting db syncid folderid localparentfolderid name ∈ inserted.localfolder.rows := by
    rw [rows]
    exact List.mem_append_right _ (List.mem_singleton_self _)
  have counter : taskcnt inserted inserted.sequence = some 1 := by
    rw [sequence]
    exact taskcnt_mem member
  have missing : taskcnt db inserted.sequence = none := by
    unfold taskcnt
    rw [List.find?_eq_none.mpr, Option.bind_none]
    intro row within
    have := db.below row within
    rw [sequence, decide_eq_true_eq]
    omega
  refine counted_iff steps counter ?_
  dsimp only
  rw [missing]
  rfl

/-- The row that has the name already, after both of its updates, when they reach it. -/
def found (row : LocalFolder) : LocalFolder := { row with folderid := some row.id, taskcnt := row.taskcnt.map (· + 1) }

theorem found_rows (db : Db) (id : ℕ) : ((db.setFolderid id id).folderIncTasks id).localfolder.rows =
    db.localfolder.rows.map fun row => if row.id = id then found row else row := by
  rw [folderIncTasks_rows, setFolderid_rows, List.map_map]
  refine List.map_congr_left fun row _ => ?_
  by_cases here : row.id = id
  · simp [here, found]
  · simp [here]

theorem created_named {db : Db} {row : LocalFolder} {syncid localparentfolderid : ℕ} {name : Name}
    (unknown : db.known syncid row.id = none) (named : db.named localparentfolderid syncid (validName name) = some row) :
    Created db syncid row.id localparentfolderid name (row.id, (db.setFolderid row.id row.id).folderIncTasks row.id) := by
  obtain ⟨member, parent, sync, -⟩ := named_eq_some named
  constructor
  · refine ⟨found row, ?_, rfl, sync, rfl, parent⟩
    rw [found_rows]
    exact List.mem_map.mpr ⟨row, member, if_pos rfl⟩
  · dsimp only
    rw [found_rows]
    exact filter_others _ _ found fun _ => rfl
  · dsimp only
    rw [found_rows, List.countP_map]
    refine le_trans (List.countP_mono_left fun other within => ?_) (le_max_right _ _)
    dsimp only [Function.comp_apply]
    split <;> exact id
  · dsimp only
    rw [found_rows, List.countP_map]
    have once : db.localfolder.rows.countP (fun other => other.id = row.id) ≤ 1 := by
      have ids := List.nodup_iff_count_le_one.mp db.localfolder.valid.1 row.id
      rw [List.count, List.countP_map] at ids
      refine le_trans (List.countP_mono_left fun other within same => ?_) ids
      simpa using same
    refine le_trans (List.countP_mono_left fun other within same => ?_) (once.trans (le_max_left _ _))
    by_contra differ
    rw [decide_eq_true_eq] at differ
    dsimp only [Function.comp_apply] at same
    rw [if_neg differ, decide_eq_true_eq] at same
    exact known_eq_none.mp unknown other within same

/-- The update of the remote folder does not reach the row, unless its id is that of the remote
folder too. -/
theorem not_created {db changed : Db} {row : LocalFolder} {syncid folderid localparentfolderid : ℕ} {name : Name}
    (member : row ∈ db.localfolder.rows) (unknown : db.known syncid folderid = none) (sync : row.syncid = some syncid)
    (kept : ∀ after ∈ changed.localfolder.rows, after.id = row.id →
      ∃ before ∈ db.localfolder.rows, before.id = row.id ∧ before.folderid = after.folderid) :
    ¬Created db syncid folderid localparentfolderid name (row.id, changed) := by
  rintro ⟨⟨after, within, id, -, remote, -⟩, -, -, -⟩
  obtain ⟨before, inside, same, folderids⟩ := kept after within id
  have here : before = row := List.inj_on_of_nodup_map db.localfolder.valid.1 inside member same
  rw [here, remote] at folderids
  exact known_eq_none.mp unknown row member ⟨sync, folderids⟩

theorem incTasks_kept {db : Db} {after : LocalFolder} {lfolderid : ℕ} (member : after ∈ (db.folderIncTasks lfolderid).localfolder.rows) :
    ∃ before ∈ db.localfolder.rows, before.id = after.id ∧ before.folderid = after.folderid ∧ before.syncid = after.syncid := by
  rw [folderIncTasks_rows] at member
  obtain ⟨before, within, rfl⟩ := List.mem_map.mp member
  refine ⟨before, within, ?_⟩
  split <;> exact ⟨rfl, rfl, rfl⟩

theorem setFolderid_kept {db : Db} {after : LocalFolder} {folderid id : ℕ} (member : after ∈ (db.setFolderid folderid id).localfolder.rows)
    (differ : after.id ≠ id) : ∃ before ∈ db.localfolder.rows, before.id = after.id ∧ before.folderid = after.folderid := by
  rw [setFolderid_rows] at member
  obtain ⟨before, within, rfl⟩ := List.mem_map.mp member
  split at differ
  next here => exact absurd here differ
  next other =>
    refine ⟨before, within, ?_⟩
    rw [if_neg other]
    exact ⟨rfl, rfl⟩

/-- The folder has its row, no other row changed, and the counter of the row counts. -/
def Right (db : Db) (syncid folderid localparentfolderid : ℕ) (name : Name) (steps : List Step) : Prop :=
  Created db syncid folderid localparentfolderid name (dbFolderCreate syncid folderid localparentfolderid name db) ∧
    Counted db (dbFolderCreate syncid folderid localparentfolderid name db) steps

section Create

variable {db : Db} {syncid folderid localparentfolderid : ℕ} {name : Name} {row : LocalFolder}

theorem create_known (known : db.known syncid folderid = some row) :
    dbFolderCreate syncid folderid localparentfolderid name db = (row.id, db) := by
  have sync : row.syncid = some syncid := by
    have both := List.find?_some known
    rw [decide_eq_true_eq] at both
    exact both.1
  have nonzero := id_ne_zero (List.mem_of_find?_eq_some known) sync
  unfold dbFolderCreate
  rw [known]
  exact if_pos nonzero

theorem create_fresh {inserted : Db} (unknown : db.known syncid folderid = none)
    (done : db.insertOrIgnore localparentfolderid folderid syncid (validName name) = some inserted) :
    dbFolderCreate syncid folderid localparentfolderid name db = (inserted.sequence, inserted) := by
  unfold dbFolderCreate
  rw [unknown, done]
  rfl

theorem create_unnamed (unknown : db.known syncid folderid = none)
    (ignored : db.insertOrIgnore localparentfolderid folderid syncid (validName name) = none)
    (unnamed : db.named localparentfolderid syncid (validName name) = none) :
    dbFolderCreate syncid folderid localparentfolderid name db = (0, db.folderIncTasks 0) := by
  unfold dbFolderCreate
  rw [unknown, ignored, unnamed]
  rfl

theorem create_named (unknown : db.known syncid folderid = none)
    (ignored : db.insertOrIgnore localparentfolderid folderid syncid (validName name) = none)
    (named : db.named localparentfolderid syncid (validName name) = some row) :
    dbFolderCreate syncid folderid localparentfolderid name db =
      if row.id ≠ 0 ∧ row.folderid.getD 0 ≠ folderid then (row.id, (db.setFolderid row.id folderid).folderIncTasks row.id)
      else (row.id, db.folderIncTasks row.id) := by
  unfold dbFolderCreate
  rw [unknown, ignored, named]
  rfl

/-- No row of a sync has the id 0 that is returned then. -/
theorem not_right_unnamed (unknown : db.known syncid folderid = none)
    (ignored : db.insertOrIgnore localparentfolderid folderid syncid (validName name) = none)
    (unnamed : db.named localparentfolderid syncid (validName name) = none) (steps : List Step) :
    ¬Right db syncid folderid localparentfolderid name steps := by
  rw [Right, create_unnamed unknown ignored unnamed]
  rintro ⟨⟨⟨after, member, id, sync, -⟩, -, -, -⟩, -⟩
  obtain ⟨before, within, same, -, syncids⟩ := incTasks_kept member
  exact id_ne_zero within (syncids.trans sync) (same.trans id)

/-- A row with the name that has another id than the remote folder. -/
theorem not_right_named (unknown : db.known syncid folderid = none)
    (ignored : db.insertOrIgnore localparentfolderid folderid syncid (validName name) = none)
    (named : db.named localparentfolderid syncid (validName name) = some row) (differ : row.id ≠ folderid) (steps : List Step) :
    ¬Right db syncid folderid localparentfolderid name steps := by
  obtain ⟨member, -, sync, -⟩ := named_eq_some named
  rw [Right, create_named unknown ignored named]
  rintro ⟨created, -⟩
  split at created
  · refine not_created member unknown sync (fun after within id => ?_) created
    obtain ⟨middle, inside, same, folderids, -⟩ := incTasks_kept within
    obtain ⟨before, there, equal, kept⟩ := setFolderid_kept inside (by rw [same, id]; exact differ)
    exact ⟨before, there, by rw [equal, same, id], kept.trans folderids⟩
  · refine not_created member unknown sync (fun after within id => ?_) created
    obtain ⟨before, inside, same, folderids, -⟩ := incTasks_kept within
    exact ⟨before, inside, same.trans id, folderids⟩

/-- A row with the name whose id is that of the remote folder too. -/
theorem right_named_iff (unknown : db.known syncid row.id = none)
    (ignored : db.insertOrIgnore localparentfolderid row.id syncid (validName name) = none)
    (named : db.named localparentfolderid syncid (validName name) = some row) (steps : List Step) :
    Right db syncid row.id localparentfolderid name steps ↔ Step.completed ∉ steps ∧ row.taskcnt ≠ none := by
  obtain ⟨member, -, sync, -⟩ := named_eq_some named
  have nonzero := id_ne_zero member sync
  have stale : row.folderid.getD 0 ≠ row.id := fun same => by
    cases remote : row.folderid with
    | none => exact nonzero (by rw [← same, remote, Option.getD_none])
    | some remoteid =>
      rw [remote, Option.getD_some] at same
      exact known_eq_none.mp unknown row member ⟨sync, by rw [remote, same]⟩
  have after : taskcnt ((db.setFolderid row.id row.id).folderIncTasks row.id) row.id = row.taskcnt.map (· + 1) := by
    have inside : found row ∈ ((db.setFolderid row.id row.id).folderIncTasks row.id).localfolder.rows := by
      rw [found_rows]
      exact List.mem_map.mpr ⟨row, member, if_pos rfl⟩
    exact taskcnt_mem inside
  rw [Right, create_named unknown ignored named, if_pos ⟨nonzero, stale⟩]
  rw [and_iff_right (created_named unknown named)]
  cases counter : row.taskcnt with
  | none =>
    refine iff_of_false (fun counted => ?_) (fun both => both.2 rfl)
    rw [Counted, taskcnt_run, after, counter] at counted
    cases counted
  | some count =>
    rw [counter] at after
    rw [counted_iff steps after (by rw [taskcnt_mem member, counter, Option.getD_some])]
    exact (and_iff_left (Option.some_ne_none count)).symm

end Create

/-- The row of a folder is right if and only if the folder was not known, no task of it is done
yet, and its row is new or has the id of the remote folder by chance. -/
theorem dbFolderCreate_right_iff (db : Db) (syncid folderid localparentfolderid : ℕ) (name : Name) (steps : List Step) :
    Right db syncid folderid localparentfolderid name steps ↔
      Step.completed ∉ steps ∧ db.known syncid folderid = none ∧
        (Fresh db syncid localparentfolderid name ∨
          ∃ row, db.named localparentfolderid syncid (validName name) = some row ∧ row.id = folderid ∧ row.taskcnt ≠ none) := by
  cases known : db.known syncid folderid with
  | some row =>
    refine iff_of_false (fun right => ?_) (fun all => by cases all.2.1)
    rw [Right, create_known known] at right
    exact not_counted steps right.2
  | none =>
    cases inserting : db.insertOrIgnore localparentfolderid folderid syncid (validName name) with
    | some inserted =>
      have fresh : Fresh db syncid localparentfolderid name := by
        by_contra missing
        rw [insertOrIgnore_eq_none.mpr missing] at inserting
        cases inserting
      rw [Right, create_fresh known inserting, and_iff_right (created_fresh known inserting), counted_fresh inserting]
      exact ⟨fun left => ⟨left, rfl, Or.inl fresh⟩, And.left⟩
    | none =>
      have stale := insertOrIgnore_eq_none.mp inserting
      cases named : db.named localparentfolderid syncid (validName name) with
      | none =>
        refine iff_of_false (not_right_unnamed known inserting named steps) ?_
        rintro ⟨-, -, fresh | ⟨row, none, -⟩⟩
        · exact stale fresh
        · cases none
      | some row =>
        by_cases same : row.id = folderid
        · subst same
          rw [right_named_iff known inserting named]
          constructor
          · rintro ⟨left, counter⟩
            exact ⟨left, rfl, Or.inr ⟨row, rfl, rfl, counter⟩⟩
          · rintro ⟨left, -, fresh | ⟨other, here, -, counter⟩⟩
            · exact absurd fresh stale
            · cases here
              exact ⟨left, counter⟩
        · refine iff_of_false (not_right_named known inserting named same steps) ?_
          rintro ⟨-, -, fresh | ⟨other, here, equal, -⟩⟩
          · exact stale fresh
          · cases here
            exact same equal

/-- The row 0, and one for a folder that the local scanner has found. -/
def scanned : Db where
  localfolder := ⟨[⟨0, none, none, none, none, none, none⟩, ⟨1, some 0, none, some 1, some 0, none, some [97]⟩], by decide +kernel⟩
  sequence := 1
  below := by decide
  syncs := [1]

/-- The folder that the local scanner has found gets no remote folder. -/
theorem dbFolderCreate_wrong : ¬∀ (db : Db) (syncid folderid localparentfolderid : ℕ) (name : Name) (steps : List Step),
    Right db syncid folderid localparentfolderid name steps := fun right => by
  have named : scanned.named 0 1 (validName [97]) = some ⟨1, some 0, none, some 1, some 0, none, some [97]⟩ := by decide
  have ignored : scanned.insertOrIgnore 0 5 1 (validName [97]) = none :=
    insertOrIgnore_eq_none.mpr fun fresh => absurd fresh.1 (by decide)
  exact @not_right_named scanned 1 5 0 [97] _ (by decide) ignored named (by decide) [] (right scanned 1 5 0 [97] [])

end Pclsync.Proofs.Syncer
