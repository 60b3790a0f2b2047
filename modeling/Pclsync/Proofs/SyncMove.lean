import Pclsync.Sync.Move

/-! Which rows a move between syncs changes, of those below the folder. -/

namespace Pclsync.Proofs.SyncMove
open Sync Library

/-- Each local folder with its parent. -/
def edges (db : Db) : List (ℕ × ℕ) := db.localfolder.rows.map fun row => (row.id, row.localparentfolderid)

def Child (edges : List (ℕ × ℕ)) (parent child : ℕ) : Prop := (child, parent) ∈ edges

/-- A folder and all below it. -/
def Within (db : Db) : ℕ → ℕ → Prop := Relation.ReflTransGen (Child (edges db))

section Recursion

/-- A call of `update_syncid_rec` without those for the children. -/
def moveOne (syncid : ℕ) (db : Db) (localfolderid : ℕ) : Db :=
  (db.setFolderSync syncid localfolderid).setSyncedSync syncid localfolderid

theorem edges_moveOne (syncid : ℕ) (db : Db) (localfolderid : ℕ) : edges (moveOne syncid db localfolderid) = edges db := by
  apply Table.update_column
  intro row
  split <;> rfl

theorem children_edges (db : Db) (localfolderid : ℕ) :
    db.children localfolderid = ((edges db).filter fun edge => edge.2 = localfolderid).map Prod.fst := by
  rw [edges, List.filter_map, List.map_map]
  rfl

theorem mem_children {db : Db} {localfolderid child : ℕ} : child ∈ db.children localfolderid ↔ Child (edges db) localfolderid child := by
  rw [children_edges]
  constructor
  · intro member
    obtain ⟨edge, within, same⟩ := List.mem_map.mp member
    obtain ⟨there, parent⟩ := List.mem_filter.mp within
    have parent : edge.2 = localfolderid := by simpa using parent
    rw [Child, ← same, ← parent]
    exact there
  · intro there
    exact List.mem_map.mpr ⟨_, List.mem_filter.mpr ⟨there, by simp⟩, rfl⟩

/-- The calls for some folders, each of which goes through all below. -/
theorem foldlM_calls {syncid fuel : ℕ} {tree : List (ℕ × ℕ)} (children : List ℕ)
    (calls : ∀ child ∈ children, ∀ db, edges db = tree → ∃ ids : List ℕ,
      updateSyncidRec syncid fuel child db = some (ids.foldl (moveOne syncid) db) ∧
        ∀ id, id ∈ ids ↔ Relation.ReflTransGen (Child tree) child id) (db : Db) (same : edges db = tree) :
    ∃ ids : List ℕ, children.foldlM (fun db child => updateSyncidRec syncid fuel child db) db = some (ids.foldl (moveOne syncid) db) ∧
      edges (ids.foldl (moveOne syncid) db) = tree ∧
      ∀ id, id ∈ ids ↔ ∃ child ∈ children, Relation.ReflTransGen (Child tree) child id := by
  have kept (ids : List ℕ) (db : Db) : edges (ids.foldl (moveOne syncid) db) = edges db := by
    induction ids generalizing db with
    | nil => rfl
    | cons id rest ih => rw [List.foldl_cons, ih, edges_moveOne]
  induction children generalizing db with
  | nil => exact ⟨[], rfl, same, by simp⟩
  | cons child rest ih =>
    obtain ⟨first, called, members⟩ := calls child List.mem_cons_self db same
    obtain ⟨others, later, tree', rests⟩ := ih (fun other member => calls other (List.mem_cons_of_mem _ member))
      (first.foldl (moveOne syncid) db) ((kept first db).trans same)
    refine ⟨first ++ others, ?_, ?_, ?_⟩
    · rw [List.foldlM_cons, called, List.foldl_append]
      exact later
    · rw [kept, same]
    · intro id
      rw [List.mem_append, members, rests]
      simp

/-- The recursion goes through the folder and all below it, once it may be deep enough. -/
theorem updateSyncidRec_calls {syncid : ℕ} {height : ℕ → ℕ} (fuel : ℕ) :
    ∀ (localfolderid : ℕ) (db : Db),
      (∀ parent child, Within db localfolderid parent → Child (edges db) parent child → height child < height parent) →
      height localfolderid < fuel →
      ∃ ids : List ℕ, updateSyncidRec syncid fuel localfolderid db = some (ids.foldl (moveOne syncid) db) ∧
        ∀ id, id ∈ ids ↔ Within db localfolderid id := by
  induction fuel with
  | zero => exact fun _ _ _ absent => absurd absent (Nat.not_lt_zero _)
  | succ fuel ih =>
    intro localfolderid db falls enough
    have same : edges (moveOne syncid db localfolderid) = edges db := edges_moveOne syncid db localfolderid
    obtain ⟨ids, called, _, members⟩ := foldlM_calls ((moveOne syncid db localfolderid).children localfolderid)
      (fun child member other tree => by
        rw [mem_children, same] at member
        have below : Within db localfolderid child := .single member
        have short : height child < fuel := by
          have less := falls localfolderid child .refl member
          omega
        have calls := ih child other (fun parent grand within edge => by
          rw [Within, tree] at within
          rw [tree] at edge
          exact falls parent grand (below.trans within) edge) short
        unfold Within at calls
        rwa [tree] at calls) (moveOne syncid db localfolderid) same
    refine ⟨localfolderid :: ids, ?_, ?_⟩
    · rw [updateSyncidRec, List.foldl_cons]
      exact called
    · intro id
      rw [List.mem_cons, members, Within, Relation.ReflTransGen.cases_head_iff]
      constructor
      · rintro (rfl | ⟨child, member, within⟩)
        · exact .inl rfl
        · rw [mem_children, same] at member
          exact .inr ⟨child, member, within⟩
      · rintro (rfl | ⟨child, edge, within⟩)
        · exact .inl rfl
        · refine .inr ⟨child, ?_, within⟩
          rw [mem_children, same]
          exact edge

theorem foldl_localfolder (syncid : ℕ) (ids : List ℕ) (db : Db) :
    (ids.foldl (moveOne syncid) db).localfolder = ids.foldl (fun table id => table.update fun row =>
      if row.id = id then { row with syncid := syncid } else row) db.localfolder := by
  induction ids generalizing db with
  | nil => rfl
  | cons id rest ih => exact ih _

theorem foldl_syncedfolder (syncid : ℕ) (ids : List ℕ) (db : Db) :
    (ids.foldl (moveOne syncid) db).syncedfolder = ids.foldl (fun table id => table.update fun row =>
      if row.localfolderid = id then { row with syncid := syncid } else row) db.syncedfolder := by
  induction ids generalizing db with
  | nil => rfl
  | cons id rest ih => exact ih _

theorem foldl_localfile (syncid : ℕ) (ids : List ℕ) (db : Db) : (ids.foldl (moveOne syncid) db).localfile = db.localfile := by
  induction ids generalizing db with
  | nil => rfl
  | cons id rest ih => exact ih _

end Recursion

section Target
open Classical

variable (localid : ℕ) (rnto : FolderList)

/-- A row of a folder that moves, or is below the one that does. -/
def movedFolder (row : LocalFolder) : LocalFolder :=
  if row.id = localid then { row with localparentfolderid := rnto.localparentfolderid, syncid := rnto.syncid, name := rnto.name }
  else { row with syncid := rnto.syncid }

def movedSynced (row : SyncedFolder) : SyncedFolder := { row with syncid := rnto.syncid, synctype := rnto.synctype }

noncomputable def foldersBehind (rows : List LocalFolder) (done : Set ℕ) : List LocalFolder :=
  rows.map fun row => if row.id ∈ done then movedFolder localid rnto row else row

noncomputable def syncedBehind (rows : List SyncedFolder) (done : Set ℕ) : List SyncedFolder :=
  rows.map fun row => if row.localfolderid ∈ done then movedSynced rnto row else row

/-- The rows of a folder and of all below it are those of the new sync, and the others as before. -/
structure Moved (db later : Db) : Prop where
  folders : later.localfolder.rows = foldersBehind localid rnto db.localfolder.rows {id | Within db localid id}
  files : later.localfile = db.localfile.map fun row =>
    if Within db localid row.localparentfolderid then { row with syncid := rnto.syncid } else row
  synced : later.syncedfolder.rows = syncedBehind rnto db.syncedfolder.rows {id | Within db localid id}

variable {localid rnto}

theorem id_movedFolder (row : LocalFolder) : (movedFolder localid rnto row).id = row.id := by
  unfold movedFolder
  split <;> rfl

theorem syncid_movedFolder (row : LocalFolder) : (movedFolder localid rnto row).syncid = rnto.syncid := by
  unfold movedFolder
  split <;> rfl

theorem setSync_movedFolder (row : LocalFolder) :
    { movedFolder localid rnto row with syncid := rnto.syncid } = movedFolder localid rnto row := by
  unfold movedFolder
  split <;> rfl

/-- If no key is in the way in the end, none is before. -/
theorem folderKeys_behind {rows : List LocalFolder} (keys : FolderKeys rows) {all done : Set ℕ}
    (free : FolderKeys (foldersBehind localid rnto rows all)) (part : done ⊆ all) (first : localid ∈ done) :
    FolderKeys (foldersBehind localid rnto rows done) := by
  have ids : (foldersBehind localid rnto rows done).map LocalFolder.id = rows.map LocalFolder.id := by
    rw [foldersBehind, List.map_map]
    refine List.map_congr_left (fun row _ => ?_)
    simp only [Function.comp_apply]
    split
    · exact id_movedFolder row
    · rfl
  refine ⟨ids ▸ keys.1, ?_⟩
  have mixed := Table.nodup_mixed keys.2 (show ((rows.map fun row : LocalFolder =>
    if row.id ∈ all then movedFolder localid rnto row else row).map _).Nodup from free.2) (fun row => row.id ∈ done) ?_
  · convert mixed using 2
    refine List.map_congr_left (fun row _ => ?_)
    by_cases member : row.id ∈ done
    · simp only [member, part member, if_true]
    · simp only [member, if_false]
  · intro row _ other _ moved still same
    have within : row.id ∈ all := part moved
    by_cases below : other.id ∈ all
    · have behind : other.id ≠ localid := fun root => still (root ▸ first)
      simp only [within, if_true, Prod.mk.injEq, syncid_movedFolder] at same
      simp only [below, if_true, movedFolder, if_neg behind, same.1]
    · simp only [below, if_false]

theorem syncedKeys_behind (rnto : FolderList) {rows : List SyncedFolder} (keys : SyncedKeys rows) {move : SyncedFolder → SyncedFolder}
    (moves : ∀ row, move row = row ∨ ((move row).syncid = rnto.syncid ∧ (move row).folderid = row.folderid ∧
      (move row).localfolderid = row.localfolderid))
    (free : SyncedKeys (rows.map move)) (moved : SyncedFolder → Prop) (moving : ∀ row ∈ rows, moved row → (move row).syncid = rnto.syncid) :
    SyncedKeys (rows.map fun row => if moved row then move row else row) := by
  refine ⟨Table.nodup_mixed keys.1 free.1 moved ?_, Table.nodup_mixed keys.2 free.2 moved ?_⟩
  · intro row member other _ left _ same
    obtain still | ⟨sync, folder, _⟩ := moves other
    · rw [still]
    · simp only [Prod.mk.injEq, moving row member left] at same ⊢
      exact ⟨sync.trans same.1, folder⟩
  · intro row member other _ left _ same
    obtain still | ⟨sync, _, folder⟩ := moves other
    · rw [still]
    · simp only [Prod.mk.injEq, moving row member left] at same ⊢
      exact ⟨folder, sync.trans same.2⟩

/-- What `scan_rename_folder` makes of `localfolder`. -/
theorem folders_scanned {rows : List LocalFolder} {all : Set ℕ} {ids : List ℕ} (members : ∀ id, id ∈ ids ↔ id ∈ all)
    (first : localid ∈ all) {table : Table LocalFolder FolderKeys} (before : table.rows = rows)
    (free : FolderKeys (foldersBehind localid rnto rows all)) :
    (ids.foldl (fun table id => table.update fun row => if row.id = id then { row with syncid := rnto.syncid } else row)
      (table.update fun row => if row.id = localid then
        { row with localparentfolderid := rnto.localparentfolderid, syncid := rnto.syncid, name := rnto.name } else row)).rows =
      foldersBehind localid rnto rows all := by
  have keys : FolderKeys rows := before ▸ table.valid
  have valid (done : Set ℕ) (within : localid ∈ done ∧ done ⊆ all) : FolderKeys (foldersBehind localid rnto rows done) :=
    folderKeys_behind keys free within.2 within.1
  have begin : (table.update fun row => if row.id = localid then
      { row with localparentfolderid := rnto.localparentfolderid, syncid := rnto.syncid, name := rnto.name } else row).rows =
      foldersBehind localid rnto rows {localid} := by
    have same : table.rows.map (fun row => if row.id = localid then
        { row with localparentfolderid := rnto.localparentfolderid, syncid := rnto.syncid, name := rnto.name } else row) =
        foldersBehind localid rnto rows {localid} := by
      rw [before, foldersBehind]
      refine List.map_congr_left (fun row _ => ?_)
      by_cases root : row.id = localid
      · simp only [root, if_true, Set.mem_singleton_iff, movedFolder]
      · simp only [root, if_false, Set.mem_singleton_iff]
    rw [Table.update_rows (same ▸ valid _ ⟨rfl, Set.singleton_subset_iff.mpr first⟩), same]
  have step (done : Set ℕ) (within : localid ∈ done ∧ done ⊆ all) (id : ℕ) (_ : id ∈ ids) :
      (foldersBehind localid rnto rows done).map (fun row => if row.id = id then { row with syncid := rnto.syncid } else row) =
        foldersBehind localid rnto rows (insert id done) := by
    rw [foldersBehind, foldersBehind, List.map_map]
    refine List.map_congr_left (fun row _ => ?_)
    simp only [Function.comp_apply, Set.mem_insert_iff]
    by_cases member : row.id ∈ done
    · simp only [member, if_true, or_true]
      split
      · exact setSync_movedFolder row
      · rfl
    · simp only [member, if_false, or_false]
      split
      next same =>
        have behind : row.id ≠ localid := fun root => member (root ▸ within.1)
        rw [movedFolder, if_neg behind]
      next => rfl
  have allowed : localid ∈ ({localid} : Set ℕ) ∧ {localid} ⊆ all := ⟨rfl, Set.singleton_subset_iff.mpr first⟩
  rw [Table.foldl_update ids (fun done within id member => ⟨.inr within.1, Set.insert_subset ((members id).mp member) within.2⟩)
    valid step allowed begin]
  congr 1
  ext id
  simp only [Set.mem_union, Set.mem_singleton_iff, Set.mem_ofPred_eq, members]
  constructor
  · rintro (rfl | member)
    · exact first
    · exact member
  · exact .inr

/-- The rows of `syncedfolder` with the new sync. Only those of the folder itself have its type. -/
def scannedSynced (localid : ℕ) (rnto : FolderList) (row : SyncedFolder) : SyncedFolder :=
  { row with syncid := rnto.syncid, synctype := if row.localfolderid = localid then rnto.synctype else row.synctype }

theorem synced_scanned {rows : List SyncedFolder} {all : Set ℕ} {ids : List ℕ} (members : ∀ id, id ∈ ids ↔ id ∈ all)
    (first : localid ∈ all) {table : Table SyncedFolder SyncedKeys} (before : table.rows = rows)
    (free : SyncedKeys (rows.map fun row => if row.localfolderid ∈ all then scannedSynced localid rnto row else row)) :
    (ids.foldl (fun table id => table.update fun row => if row.localfolderid = id then { row with syncid := rnto.syncid } else row)
      (table.update fun row => if row.localfolderid = localid then
        { row with syncid := rnto.syncid, synctype := rnto.synctype } else row)).rows =
      rows.map fun row => if row.localfolderid ∈ all then scannedSynced localid rnto row else row := by
  have keys : SyncedKeys rows := before ▸ table.valid
  let behind (done : Set ℕ) : List SyncedFolder :=
    rows.map fun row => if row.localfolderid ∈ done then scannedSynced localid rnto row else row
  have valid (done : Set ℕ) (within : localid ∈ done ∧ done ⊆ all) : SyncedKeys (behind done) := by
    have mixed := syncedKeys_behind rnto keys (fun row => by
      by_cases member : row.localfolderid ∈ all
      · exact .inr (by simp [member, scannedSynced])
      · exact .inl (by simp [member])) free (fun row => row.localfolderid ∈ done)
      (fun row _ member => by simp [within.2 member, scannedSynced])
    convert mixed using 1
    refine List.map_congr_left (fun row _ => ?_)
    by_cases member : row.localfolderid ∈ done
    · simp only [member, within.2 member, if_true]
    · simp only [member, if_false]
  have begin : (table.update fun row => if row.localfolderid = localid then
      { row with syncid := rnto.syncid, synctype := rnto.synctype } else row).rows = behind {localid} := by
    have same : table.rows.map (fun row => if row.localfolderid = localid then
        { row with syncid := rnto.syncid, synctype := rnto.synctype } else row) = behind {localid} := by
      rw [before]
      refine List.map_congr_left (fun row _ => ?_)
      by_cases root : row.localfolderid = localid
      · simp only [root, if_true, Set.mem_singleton_iff, scannedSynced]
      · simp only [root, if_false, Set.mem_singleton_iff]
    rw [Table.update_rows (same ▸ valid _ ⟨rfl, Set.singleton_subset_iff.mpr first⟩), same]
  have step (done : Set ℕ) (within : localid ∈ done ∧ done ⊆ all) (id : ℕ) (_ : id ∈ ids) :
      (behind done).map (fun row => if row.localfolderid = id then { row with syncid := rnto.syncid } else row) =
        behind (insert id done) := by
    simp only [behind, List.map_map]
    refine List.map_congr_left (fun row _ => ?_)
    simp only [Function.comp_apply, Set.mem_insert_iff]
    by_cases member : row.localfolderid ∈ done
    · simp only [member, if_true, or_true]
      split <;> rfl
    · simp only [member, if_false, or_false]
      split
      next same =>
        have below : row.localfolderid ≠ localid := fun root => member (root ▸ within.1)
        rw [scannedSynced, if_neg below]
      next => rfl
  have allowed : localid ∈ ({localid} : Set ℕ) ∧ {localid} ⊆ all := ⟨rfl, Set.singleton_subset_iff.mpr first⟩
  rw [Table.foldl_update ids (fun done within id member => ⟨.inr within.1, Set.insert_subset ((members id).mp member) within.2⟩)
    valid step allowed begin]
  refine List.map_congr_left (fun row _ => ?_)
  have same : row.localfolderid ∈ ({localid} ∪ {id | id ∈ ids} : Set ℕ) ↔ row.localfolderid ∈ all := by
    simp only [Set.mem_union, Set.mem_singleton_iff, Set.mem_ofPred_eq, members]
    constructor
    · rintro (root | member)
      · exact root ▸ first
      · exact member
    · exact .inr
  simp only [same]

end Target

section Moves
open Classical

/-- The folders are a tree. -/
def Tree (db : Db) : Prop := ∃ height : ℕ → ℕ, ∀ parent child, Child (edges db) parent child → height child < height parent

variable {db : Db}

/-- The folder may go elsewhere, and the folders within it stay the same. -/
theorem within_moved {localid newparent : ℕ} {tree : List (ℕ × ℕ)}
    (moved : tree = (edges db).map fun edge => if edge.1 = localid then (localid, newparent) else edge) (id : ℕ) :
    Relation.ReflTransGen (Child tree) localid id ↔ Within db localid id := by
  have same (parent child : ℕ) (below : child ≠ localid) : Child tree parent child ↔ Child (edges db) parent child := by
    rw [Child, Child, moved]
    constructor
    · intro member
      obtain ⟨edge, there, same⟩ := List.mem_map.mp member
      split at same
      next root => exact absurd (congrArg Prod.fst same).symm below
      next => exact same ▸ there
    · intro there
      exact List.mem_map.mpr ⟨_, there, if_neg below⟩
  constructor
  · intro path
    induction path with
    | refl => exact .refl
    | tail _ edge ih =>
      rename_i parent child _
      by_cases root : child = localid
      · exact root ▸ .refl
      · exact ih.tail ((same parent child root).mp edge)
  · intro path
    induction path with
    | refl => exact .refl
    | tail _ edge ih =>
      rename_i parent child _
      by_cases root : child = localid
      · exact root ▸ .refl
      · exact ih.tail ((same parent child root).mpr edge)

/-- When the scanner's move is of the whole subtree: no file is below the folder that is not of the
new sync already, the rows of `syncedfolder` below it have the new type already, and no row is
where one of the subtree comes. -/
structure Scannable (db : Db) (localid : ℕ) (rnto : FolderList) : Prop where
  files : ∀ row ∈ db.localfile, Within db localid row.localparentfolderid → row.syncid = rnto.syncid
  types : ∀ row ∈ db.syncedfolder.rows, Within db localid row.localfolderid → row.localfolderid ≠ localid →
    row.synctype = rnto.synctype
  folderKeys : FolderKeys (foldersBehind localid rnto db.localfolder.rows {id | Within db localid id})
  syncedKeys : SyncedKeys (syncedBehind rnto db.syncedfolder.rows {id | Within db localid id})

/-- The keys do not have the type. -/
theorem syncedKeys_type {rows others : List SyncedFolder}
    (same : rows.map (fun row => (row.syncid, row.folderid, row.localfolderid)) =
      others.map fun row => (row.syncid, row.folderid, row.localfolderid)) : SyncedKeys rows ↔ SyncedKeys others := by
  have first : rows.map (fun row => (row.syncid, row.folderid)) = others.map fun row => (row.syncid, row.folderid) := by
    have mapped := congrArg (List.map fun key : ℕ × ℕ × ℕ => (key.1, key.2.1)) same
    rw [List.map_map, List.map_map] at mapped
    exact mapped
  have second : rows.map (fun row => (row.localfolderid, row.syncid)) = others.map fun row => (row.localfolderid, row.syncid) := by
    have mapped := congrArg (List.map fun key : ℕ × ℕ × ℕ => (key.2.2, key.1)) same
    rw [List.map_map, List.map_map] at mapped
    exact mapped
  rw [SyncedKeys, SyncedKeys, first, second]

variable {rnfr rnto : FolderList}

/-- The first statement of a move leaves the folder in its place, or puts it below the new parent. -/
theorem edges_moveFolder (localid syncid parent : ℕ) (name : Name) :
    edges (db.moveFolder localid syncid parent name) = edges db ∨
      edges (db.moveFolder localid syncid parent name) =
        (edges db).map fun edge => if edge.1 = localid then (localid, parent) else edge := by
  unfold edges Db.moveFolder Table.update
  simp only []
  split
  · right
    rw [List.map_map, List.map_map]
    refine List.map_congr_left (fun row _ => ?_)
    simp only [Function.comp_apply]
    split
    next same => rw [same]
    next => rfl
  · exact .inl rfl

/-- Behind that statement the subtree is the same, and still one. -/
theorem subtree_moveFolder (tree : Tree db) {localid parent : ℕ} (outside : ¬Within db localid parent) (syncid : ℕ) (name : Name) :
    (∀ id, Within (db.moveFolder localid syncid parent name) localid id ↔ Within db localid id) ∧
      ∃ height : ℕ → ℕ, ∀ above child, Within (db.moveFolder localid syncid parent name) localid above →
        Child (edges (db.moveFolder localid syncid parent name)) above child → height child < height above := by
  obtain ⟨height, falls⟩ := tree
  obtain same | moved := @edges_moveFolder db localid syncid parent name
  · unfold Within
    rw [same]
    exact ⟨fun _ => Iff.rfl, height, fun above child _ edge => falls above child edge⟩
  · have within (id : ℕ) : Within (db.moveFolder localid syncid parent name) localid id ↔ Within db localid id :=
      within_moved moved id
    refine ⟨within, height, ?_⟩
    intro above child inside edge
    rw [within] at inside
    rw [Child, moved] at edge
    obtain ⟨before, there, same⟩ := List.mem_map.mp edge
    split at same
    · cases same
      exact absurd inside outside
    · rw [same] at there
      exact falls above child there

/-- `scan_rename_folder` as statements on the tables. -/
theorem scanRenameFolder_tables (tree : Tree db) (known : ∃ row ∈ db.localfolder.rows, row.id = rnfr.localid)
    (differ : rnfr.syncid ≠ rnto.syncid) (outside : ¬Within db rnfr.localid rnto.localparentfolderid) :
    ∃ enough, ∀ fuel ≥ enough, ∃ (ids : List ℕ) (later : Db), (∀ id, id ∈ ids ↔ Within db rnfr.localid id) ∧
      scanRenameFolder fuel rnfr rnto db = some later ∧ later.localfile = db.localfile ∧
      later.localfolder = ids.foldl (fun table id => table.update fun row => if row.id = id then { row with syncid := rnto.syncid } else row)
        (db.localfolder.update fun row => if row.id = rnfr.localid then
          { row with localparentfolderid := rnto.localparentfolderid, syncid := rnto.syncid, name := rnto.name } else row) ∧
      later.syncedfolder = ids.foldl (fun table id => table.update fun row =>
          if row.localfolderid = id then { row with syncid := rnto.syncid } else row)
        (db.syncedfolder.update fun row => if row.localfolderid = rnfr.localid then
          { row with syncid := rnto.syncid, synctype := rnto.synctype } else row) := by
  obtain ⟨within, height, falls⟩ := subtree_moveFolder tree outside rnto.syncid rnto.name
  refine ⟨height rnfr.localid + 1, ?_⟩
  intro fuel enough
  let start : Db :=
    { db.moveFolder rnfr.localid rnto.syncid rnto.localparentfolderid rnto.name with
      syncedfolder := db.syncedfolder.update fun row => if row.localfolderid = rnfr.localid then
        { row with syncid := rnto.syncid, synctype := rnto.synctype } else row }
  obtain ⟨ids, called, members⟩ := updateSyncidRec_calls fuel rnfr.localid start falls (Nat.lt_of_succ_le enough)
  refine ⟨ids, _, fun id => (members id).trans (within id), ?_, foldl_localfile rnto.syncid ids start,
    foldl_localfolder rnto.syncid ids start, foldl_syncedfolder rnto.syncid ids start⟩
  have there : ¬∀ row ∈ db.localfolder.rows, row.id ≠ rnfr.localid := by
    obtain ⟨row, member, same⟩ := known
    exact fun absent => absent row member same
  rw [scanRenameFolder, if_neg there, if_pos differ]
  exact called

/-- The scanner's move, with the exact condition under which it is one of the whole subtree. -/
theorem scan_moves (tree : Tree db) (known : ∃ row ∈ db.localfolder.rows, row.id = rnfr.localid)
    (differ : rnfr.syncid ≠ rnto.syncid) (outside : ¬Within db rnfr.localid rnto.localparentfolderid) :
    ∃ enough, ∀ fuel ≥ enough, ∃ later, scanRenameFolder fuel rnfr rnto db = some later ∧
      (Moved rnfr.localid rnto db later ↔ Scannable db rnfr.localid rnto) := by
  obtain ⟨enough, calls⟩ := scanRenameFolder_tables tree known differ outside
  refine ⟨enough, ?_⟩
  intro fuel bound
  obtain ⟨ids, later, members, called, files, folders, synced⟩ := calls fuel bound
  refine ⟨later, called, ?_⟩
  have first : rnfr.localid ∈ {id | Within db rnfr.localid id} := Relation.ReflTransGen.refl
  have members : ∀ id, id ∈ ids ↔ id ∈ {id | Within db rnfr.localid id} := members
  -- The rows of `syncedfolder` if nothing is in the way.
  let scanned := db.syncedfolder.rows.map fun row =>
    if row.localfolderid ∈ {id | Within db rnfr.localid id} then scannedSynced rnfr.localid rnto row else row
  have sameKeys : SyncedKeys scanned ↔ SyncedKeys (syncedBehind rnto db.syncedfolder.rows {id | Within db rnfr.localid id}) := by
    apply syncedKeys_type
    simp only [scanned, syncedBehind, List.map_map]
    refine List.map_congr_left (fun row _ => ?_)
    simp only [Function.comp_apply]
    split <;> rfl
  constructor
  · intro moved
    have folderKeys : FolderKeys (foldersBehind rnfr.localid rnto db.localfolder.rows {id | Within db rnfr.localid id}) :=
      moved.folders ▸ later.localfolder.valid
    have syncedKeys : SyncedKeys (syncedBehind rnto db.syncedfolder.rows {id | Within db rnfr.localid id}) :=
      moved.synced ▸ later.syncedfolder.valid
    refine ⟨?_, ?_, folderKeys, syncedKeys⟩
    · intro row member within
      have same := moved.files
      rw [files] at same
      have kept := List.map_eq_map_iff.mp ((List.map_id _).trans same) row member
      rw [if_pos within] at kept
      exact congrArg LocalFile.syncid kept
    · intro row member within below
      have same := moved.synced
      rw [synced, synced_scanned members first rfl (sameKeys.mpr syncedKeys)] at same
      have kept := List.map_eq_map_iff.mp same row member
      have inside : row.localfolderid ∈ {id | Within db rnfr.localid id} := within
      rw [if_pos inside, if_pos inside] at kept
      have type := congrArg SyncedFolder.synctype kept
      rwa [scannedSynced, if_neg below] at type
  · intro scannable
    refine ⟨?_, ?_, ?_⟩
    · rw [folders]
      exact folders_scanned members first rfl scannable.folderKeys
    · rw [files]
      refine ((List.map_id _).symm.trans (List.map_congr_left (fun row member => ?_)))
      split
      next within =>
        rw [← scannable.files row member within]
        rfl
      next => rfl
    · rw [synced, synced_scanned members first rfl (sameKeys.mpr scannable.syncedKeys), syncedBehind]
      refine List.map_congr_left (fun row member => ?_)
      by_cases within : row.localfolderid ∈ {id | Within db rnfr.localid id}
      · rw [if_pos within, if_pos within, scannedSynced, movedSynced]
        by_cases root : row.localfolderid = rnfr.localid
        · rw [if_pos root]
        · rw [if_neg root, scannable.types row member within root]
      · rw [if_neg within, if_neg within]

/-- When the server's move is of the whole subtree: all below the folder is of the new sync already,
and no row is where one of the subtree comes. -/
structure Servable (db : Db) (localid folderid oldsyncid : ℕ) (rnto : FolderList) : Prop where
  files : ∀ row ∈ db.localfile, Within db localid row.localparentfolderid → row.syncid = rnto.syncid
  folders : ∀ row ∈ db.localfolder.rows, Within db localid row.id → row.id ≠ localid → row.syncid = rnto.syncid
  synced : ∀ row ∈ db.syncedfolder.rows, Within db localid row.localfolderid →
    ¬(row.syncid = oldsyncid ∧ row.folderid = folderid) → row.syncid = rnto.syncid ∧ row.synctype = rnto.synctype
  folderKeys : FolderKeys (foldersBehind localid rnto db.localfolder.rows {id | Within db localid id})
  syncedKeys : SyncedKeys (syncedBehind rnto db.syncedfolder.rows {id | Within db localid id})

/-- `task_renamefolder` on the table. -/
theorem taskRenamefolder_folders {localid : ℕ} (free : FolderKeys (foldersBehind localid rnto db.localfolder.rows {localid})) :
    (taskRenamefolder rnto.syncid localid rnto.localparentfolderid rnto.name true db).localfolder.rows =
      foldersBehind localid rnto db.localfolder.rows {localid} := by
  have same : db.localfolder.rows.map (fun row => if row.id = localid then
      { row with localparentfolderid := rnto.localparentfolderid, syncid := rnto.syncid, name := rnto.name } else row) =
      foldersBehind localid rnto db.localfolder.rows {localid} := by
    rw [foldersBehind]
    refine List.map_congr_left (fun row _ => ?_)
    by_cases root : row.id = localid
    · simp only [root, if_true, Set.mem_singleton_iff, movedFolder]
    · simp only [root, if_false, Set.mem_singleton_iff]
  unfold taskRenamefolder
  cases found : db.localfolder.rows.find? fun row => row.id = localid with
  | none =>
    rw [List.find?_eq_none] at found
    rw [← same]
    refine (List.map_id _).symm.trans (List.map_congr_left (fun row member => ?_))
    have other : row.id ≠ localid := by simpa using found row member
    rw [if_neg other]
    rfl
  | some row =>
    simp only [if_true]
    split
    next already =>
      rw [← same]
      refine (List.map_id _).symm.trans (List.map_congr_left (fun other member => ?_))
      split
      next root =>
        have its : row.id = localid := by simpa using List.find?_some found
        have one := (List.nodup_map_iff_inj_on db.localfolder.valid.1.of_map).mp db.localfolder.valid.1 other member row
          (List.mem_of_find?_eq_some found) (root.trans its.symm)
        rw [one, ← already.1, ← already.2.1, ← already.2.2]
        rfl
      next => rfl
    next =>
      rw [← same] at free
      rw [Db.moveFolder, Table.update_rows free, same]

theorem taskRenamefolder_others {localid : ℕ} :
    (taskRenamefolder rnto.syncid localid rnto.localparentfolderid rnto.name true db).localfile = db.localfile ∧
      (taskRenamefolder rnto.syncid localid rnto.localparentfolderid rnto.name true db).syncedfolder = db.syncedfolder := by
  unfold taskRenamefolder
  split
  · exact ⟨rfl, rfl⟩
  · split
    · exact ⟨rfl, rfl⟩
    · exact ⟨rfl, rfl⟩

/-- The server's move, with the exact condition under which it is one of the whole subtree. -/
theorem server_moves {mid : Db} {localid folderid oldsyncid : ℕ}
    (found : modifyFolder folderid oldsyncid rnto.syncid rnto.synctype db = some (mid, localid)) :
    Moved localid rnto db (taskRenamefolder rnto.syncid localid rnto.localparentfolderid rnto.name true mid) ↔
      Servable db localid folderid oldsyncid rnto := by
  unfold modifyFolder at found
  cases row : db.syncedfolder.rows.find? fun row => row.folderid = folderid ∧ row.syncid = oldsyncid with
  | none => rw [row] at found; cases found
  | some its =>
  rw [row] at found
  cases found
  have member := List.mem_of_find?_eq_some row
  have keys : its.folderid = folderid ∧ its.syncid = oldsyncid := by simpa using List.find?_some row
  have first : its.localfolderid ∈ {id | Within db its.localfolderid id} := Relation.ReflTransGen.refl
  -- The row that is found is the only one that the statement changes.
  have only {other : SyncedFolder} (there : other ∈ db.syncedfolder.rows)
      (same : other.syncid = oldsyncid ∧ other.folderid = folderid) : other = its :=
    (List.nodup_map_iff_inj_on db.syncedfolder.valid.1.of_map).mp db.syncedfolder.valid.1 other there its member
      (by rw [same.1, same.2, keys.1, keys.2])
  have free (all : SyncedKeys (syncedBehind rnto db.syncedfolder.rows {id | Within db its.localfolderid id})) :
      SyncedKeys (db.syncedfolder.rows.map fun row =>
        if row.syncid = oldsyncid ∧ row.folderid = folderid then movedSynced rnto row else row) := by
    have mixed := syncedKeys_behind rnto db.syncedfolder.valid (fun row => by
      by_cases within : row.localfolderid ∈ {id | Within db its.localfolderid id}
      · exact .inr (by simp only [within, if_true, movedSynced, and_self])
      · exact .inl (by simp only [within, if_false])) all (fun row => row.syncid = oldsyncid ∧ row.folderid = folderid)
      (fun row there same => by rw [only there same, if_pos first]; rfl)
    convert mixed using 1
    refine List.map_congr_left (fun row there => ?_)
    split
    next same => rw [only there same, if_pos first]
    next => rfl
  obtain ⟨files, synced⟩ := @taskRenamefolder_others { db with syncedfolder := db.syncedfolder.update fun row =>
    if row.syncid = oldsyncid ∧ row.folderid = folderid then { row with syncid := rnto.syncid, synctype := rnto.synctype } else row }
    rnto its.localfolderid
  have changed (all : SyncedKeys (syncedBehind rnto db.syncedfolder.rows {id | Within db its.localfolderid id})) :=
    (congrArg Table.rows synced).trans (Table.update_rows (free all))
  have folders (all : FolderKeys (foldersBehind its.localfolderid rnto db.localfolder.rows {id | Within db its.localfolderid id})) :=
    @taskRenamefolder_folders { db with syncedfolder := db.syncedfolder.update fun row =>
      if row.syncid = oldsyncid ∧ row.folderid = folderid then { row with syncid := rnto.syncid, synctype := rnto.synctype } else row }
      rnto its.localfolderid (folderKeys_behind db.localfolder.valid all (Set.singleton_subset_iff.mpr first) rfl)
  constructor
  · intro moved
    have folderKeys : FolderKeys (foldersBehind its.localfolderid rnto db.localfolder.rows {id | Within db its.localfolderid id}) :=
      moved.folders ▸ Table.valid _
    have syncedKeys : SyncedKeys (syncedBehind rnto db.syncedfolder.rows {id | Within db its.localfolderid id}) :=
      moved.synced ▸ Table.valid _
    refine ⟨?_, ?_, ?_, folderKeys, syncedKeys⟩
    · intro row there within
      have same := moved.files
      rw [files] at same
      have kept := List.map_eq_map_iff.mp ((List.map_id _).trans same) row there
      rw [if_pos within] at kept
      exact congrArg LocalFile.syncid kept
    · intro row there within below
      have same := moved.folders
      rw [folders folderKeys] at same
      have kept := List.map_eq_map_iff.mp same row there
      have inside : row.id ∈ {id | Within db its.localfolderid id} := within
      rw [if_neg (show row.id ∉ ({its.localfolderid} : Set ℕ) from below), if_pos inside] at kept
      exact (congrArg LocalFolder.syncid kept).trans (syncid_movedFolder row)
    · intro row there within other
      have same := moved.synced
      rw [changed syncedKeys] at same
      have kept := List.map_eq_map_iff.mp same row there
      have inside : row.localfolderid ∈ {id | Within db its.localfolderid id} := within
      rw [if_neg other, if_pos inside] at kept
      exact ⟨congrArg SyncedFolder.syncid kept, congrArg SyncedFolder.synctype kept⟩
  · intro servable
    refine ⟨?_, ?_, ?_⟩
    · rw [folders servable.folderKeys]
      refine List.map_congr_left (fun row there => ?_)
      by_cases root : row.id = its.localfolderid
      · rw [if_pos (show row.id ∈ ({its.localfolderid} : Set ℕ) from root), if_pos (root ▸ first)]
      · rw [if_neg (show row.id ∉ ({its.localfolderid} : Set ℕ) from root)]
        split
        next within => rw [movedFolder, if_neg root, ← servable.folders row there within root]
        next => rfl
    · rw [files]
      refine ((List.map_id _).symm.trans (List.map_congr_left (fun row there => ?_)))
      split
      next within =>
        rw [← servable.files row there within]
        rfl
      next => rfl
    · rw [changed servable.syncedKeys]
      refine List.map_congr_left (fun row there => ?_)
      by_cases same : row.syncid = oldsyncid ∧ row.folderid = folderid
      · rw [if_pos same, if_pos (by rw [only there same]; exact first)]
        rfl
      · rw [if_neg same]
        split
        next within =>
          obtain ⟨sync, type⟩ := servable.synced row there within same
          rw [movedSynced, ← sync, ← type]
        next => rfl

/-- Both moves are of the whole subtree exactly under their conditions. -/
theorem moves_subtree (db : Db) (tree : Tree db) :
    (∀ rnfr rnto : FolderList, (∃ row ∈ db.localfolder.rows, row.id = rnfr.localid) → rnfr.syncid ≠ rnto.syncid →
      ¬Within db rnfr.localid rnto.localparentfolderid →
      ∃ enough, ∀ fuel ≥ enough, ∃ later, scanRenameFolder fuel rnfr rnto db = some later ∧
        (Moved rnfr.localid rnto db later ↔ Scannable db rnfr.localid rnto)) ∧
    ∀ (rnto : FolderList) (folderid oldsyncid localid : ℕ) (mid : Db), oldsyncid ≠ rnto.syncid →
      modifyFolder folderid oldsyncid rnto.syncid rnto.synctype db = some (mid, localid) →
      (Moved localid rnto db (taskRenamefolder rnto.syncid localid rnto.localparentfolderid rnto.name true mid) ↔
        Servable db localid folderid oldsyncid rnto) :=
  ⟨fun _ _ known differ outside => scan_moves tree known differ outside, fun _ _ _ _ _ _ found => server_moves found⟩

end Moves

section Instances

/-- A folder with another in it, and a file. -/
def pair : Db where
  localfolder := ⟨[⟨5, 0, 1, [97]⟩, ⟨6, 5, 1, [98]⟩], by decide⟩
  localfile := [⟨7, 5, 1⟩]
  syncedfolder := ⟨[⟨1, 50, 5, 3⟩, ⟨1, 60, 6, 3⟩], by decide⟩

def pairFrom : FolderList := ⟨5, 0, 1, 3, [97]⟩
def pairTo : FolderList := ⟨5, 0, 2, 3, [97]⟩

theorem tree_pair : Tree pair := by
  refine ⟨fun id => if id = 0 then 2 else if id = 5 then 1 else 0, ?_⟩
  intro parent child edge
  have edges : edges pair = [(5, 0), (6, 5)] := rfl
  rw [Child, edges] at edge
  obtain same | same := List.mem_pair.mp edge
  · cases same
    decide
  · cases same
    decide

theorem outside_pair : ¬Within pair 5 0 := by
  intro within
  obtain same | ⟨_, _, edge⟩ := Relation.ReflTransGen.cases_tail_iff .. |>.mp within
  · cases same
  · have edges : edges pair = [(5, 0), (6, 5)] := rfl
    rw [Child, edges] at edge
    simp at edge

theorem moves_subtree_pair :
    (∃ enough, ∀ fuel ≥ enough, ∃ later, scanRenameFolder fuel pairFrom pairTo pair = some later ∧
      (Moved 5 pairTo pair later ↔ Scannable pair 5 pairTo)) ∧
    (∀ mid, modifyFolder 50 1 2 3 pair = some (mid, 5) →
      (Moved 5 pairTo pair (taskRenamefolder 2 5 0 [97] true mid) ↔ Servable pair 5 50 1 pairTo)) :=
  ⟨(moves_subtree pair tree_pair).1 pairFrom pairTo ⟨_, List.mem_cons_self, rfl⟩ (by decide) outside_pair,
    fun mid found => (moves_subtree pair tree_pair).2 pairTo 50 1 5 mid (by decide) found⟩

/-- The scanner leaves the file in the old sync, and the server's move the inner folder as well. -/
theorem pair_left :
    (scanRenameFolder 3 pairFrom pairTo pair).map Db.localfile = some [⟨7, 5, 1⟩] ∧
      (∀ later, scanRenameFolder 3 pairFrom pairTo pair = some later → ¬Moved 5 pairTo pair later) ∧
      ((modifyFolder 50 1 2 3 pair).map fun mid => (taskRenamefolder 2 mid.2 0 [97] true mid.1).localfolder.rows) =
        some [⟨5, 0, 2, [97]⟩, ⟨6, 5, 1, [98]⟩] := by
  have left : (scanRenameFolder 3 pairFrom pairTo pair).map Db.localfile = some [⟨7, 5, 1⟩] := by decide
  refine ⟨left, ?_, by decide⟩
  intro later called moved
  rw [called] at left
  have files := moved.files
  have kept : later.localfile = [⟨7, 5, 1⟩] := Option.some.inj left
  have within : Within pair 5 5 := .refl
  rw [kept, show pair.localfile = [⟨7, 5, 1⟩] from rfl, List.map_singleton, if_pos within] at files
  exact absurd (congrArg (List.map LocalFile.syncid) files) (by decide)

end Instances

end Pclsync.Proofs.SyncMove
