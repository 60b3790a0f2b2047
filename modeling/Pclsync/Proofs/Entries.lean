import Pclsync.Diff.Entries

/-! How far the counters of the account's folders and its used quota are off. What each change of the
tables adds to that is known, so it is known which changes keep them right. -/

namespace Pclsync.Proofs.Entries
open Library Pclsync.Diff

/-- The folders in a folder. -/
def children (id : ℕ) (db : Db) : ℤ := (db.folder.rows.filter fun row => row.parentfolderid = some id).length

/-- What the user's own files take. -/
def ownSize (db : Db) : ℕ := ((db.file.rows.filter fun row => row.userid = db.myUserid).map FileRow.size).sum

/-- Each folder has the right number of folders in it. -/
def Counted (db : Db) : Prop := ∀ row ∈ db.folder.rows, row.subdircnt = children row.id db

/-- The used quota has changed as the user's files have. -/
def Follows (before after : Db) : Prop :=
  after.usedQuota - before.usedQuota = UInt64.ofNat (ownSize after) - UInt64.ofNat (ownSize before)

instance : DecidablePred Counted := fun db => inferInstanceAs (Decidable (∀ row ∈ db.folder.rows, _))
instance (before after : Db) : Decidable (Follows before after) := inferInstanceAs (Decidable (_ = _))

section
variable {db after : Db} {id : ℕ} {error : ℕ → ℤ} {old : FolderRow} {delta : ℤ} {mtime target : ℕ} {entry : FolderMeta}

/-- One for a folder that lies in `id`. -/
def inside (id : ℕ) (row : FolderRow) : ℤ := if row.parentfolderid = some id then 1 else 0

theorem children_eq_sum : children id db = db.folder.sum (inside id) := by
  unfold children Keyed.sum inside
  induction db.folder.rows with
  | nil => rfl
  | cons row rows ih =>
    rw [List.map_cons, List.sum_cons, ← ih, List.filter_cons]
    by_cases lies : row.parentfolderid = some id
    · rw [if_pos (decide_eq_true lies), if_pos lies, List.length_cons]
      push_cast
      ring
    · rw [if_neg (by simpa using lies), if_neg lies, zero_add]

/-- Each counter is wrong by the given error of its folder. -/
def Off (error : ℕ → ℤ) (db : Db) : Prop := ∀ row ∈ db.folder, row.subdircnt = children row.id db + error row.id

theorem counted_iff_off : Counted db ↔ Off (fun _ => 0) db := by
  simp only [Counted, Off, add_zero]
  rfl

theorem Off.counted_iff (off : Off error db) : Counted db ↔ ∀ row ∈ db.folder, error row.id = 0 := by
  constructor
  · intro counted row member
    have same := (counted row member).symm.trans (off row member)
    omega
  · intro right row member
    rw [off row member, right row member, add_zero]

theorem off_addSubdircnt (off : Off error db) :
    Off (fun id => error id + if id = target then delta else 0) (addSubdircnt db delta mtime target) := by
  have same : ∀ id, children id (addSubdircnt db delta mtime target) = children id db := by
    intro id
    rw [children_eq_sum, children_eq_sum]
    cases there : db.folder.find target with
    | none => rw [addSubdircnt, Keyed.set_missing _ there]
    | some old =>
      rw [addSubdircnt, Keyed.sum_set _ there]
      exact sub_add_cancel _ _
  intro row member
  obtain ⟨old, there, rfl⟩ := (Keyed.mem_set (FolderRow.bump_id delta mtime)).mp member
  split
  · next isTarget =>
    have before := off old there
    dsimp only [FolderRow.bump]
    rw [same, before, if_pos isTarget, add_assoc]
  · next other =>
    have before := off old there
    dsimp only
    rw [same, before, if_neg other, add_zero]

theorem counted_addSubdircnt (off : Off error db) : Counted (addSubdircnt db delta mtime target) ↔
    ∀ row ∈ db.folder, error row.id + (if row.id = target then delta else 0) = 0 :=
  (off_addSubdircnt off).counted_iff.trans
    (Keyed.forall_mem_set (p := fun id => error id + (if id = target then delta else 0) = 0) (FolderRow.bump_id delta mtime))

theorem off_updateFolder (off : Off error db) (there : db.folder.find entry.folderid = some old) :
    Off (fun id => error id + (if old.parentfolderid = some id then 1 else 0) - if some entry.parentfolderid = some id then 1 else 0)
      (updateFolder db entry) := by
  have moved : ∀ id, children id (updateFolder db entry) =
      children id db - (if old.parentfolderid = some id then 1 else 0) + if some entry.parentfolderid = some id then 1 else 0 := by
    intro id
    rw [children_eq_sum, children_eq_sum]
    exact Keyed.sum_set (entry.over_id db) there
  intro row member
  obtain ⟨former, present, rfl⟩ := (Keyed.mem_set (entry.over_id db)).mp member
  have before := off former present
  have kept : (if former.id = entry.folderid then entry.over db former else former).subdircnt = former.subdircnt ∧
      (if former.id = entry.folderid then entry.over db former else former).id = former.id := by
    split <;> exact ⟨rfl, rfl⟩
  rw [kept.1, kept.2, moved, before]
  ring

theorem off_erase (off : Off error db) (there : db.folder.find id = some old) :
    Off (fun id => error id + if old.parentfolderid = some id then 1 else 0) { db with folder := db.folder.erase id } := by
  intro row member
  have before := off row (Keyed.mem_erase.mp member).1
  have fewer : children row.id { db with folder := db.folder.erase id } =
      children row.id db - if old.parentfolderid = some row.id then 1 else 0 := by
    rw [children_eq_sum, children_eq_sum, Keyed.sum_erase there]
    rfl
  rw [fewer, before]
  ring

theorem off_insert (off : Off error db) (missing : db.folder.find entry.folderid = none) :
    Off (fun id => if id = entry.folderid then -(children id db + if some entry.parentfolderid = some id then 1 else 0)
      else error id - if some entry.parentfolderid = some id then 1 else 0)
      { db with folder := db.folder.insert (entry.row db) } := by
  have more : ∀ id, children id { db with folder := db.folder.insert (entry.row db) } =
      children id db + if some entry.parentfolderid = some id then 1 else 0 := by
    intro id
    rw [children_eq_sum, children_eq_sum, Keyed.sum_insert missing]
    rfl
  intro row member
  rcases Keyed.mem_insert.mp member with present | ⟨_, rfl⟩
  · have differ : row.id ≠ entry.folderid := Keyed.find_eq_none.mp missing row present
    have before := off row present
    dsimp only
    rw [more, before, if_neg differ]
    ring
  · rw [more]
    show (0 : ℤ) = _ + if entry.folderid = entry.folderid then _ else _
    rw [if_pos rfl]
    ring

end

/-! What becomes of the counters. -/

section
variable {db : Db} {entry : FolderMeta}

/-- A new folder has no folders in it yet, and one that is there already had no parent that counted it. -/
def CreateCounts (db : Db) (entry : FolderMeta) : Prop :=
  match db.folder.find entry.folderid with
  | none => children entry.folderid db = 0
  | some old => ∀ row ∈ db.folder, some row.id ≠ old.parentfolderid

/-- A folder that is there may be moved anywhere, but for one without a parent, which 0 is taken for. -/
def ModifyCounts (db : Db) (entry : FolderMeta) : Prop :=
  match db.folder.find entry.folderid with
  | none => children entry.folderid db = 0
  | some old => old.parentfolderid = none → ∀ row ∈ db.folder, row.id ≠ 0

/-- The entry names the parent that counted the folder, or neither that parent nor the named one is left. -/
def DeleteCounts (db : Db) (entry : FolderMeta) : Prop :=
  match db.folder.find entry.folderid with
  | none => True
  | some old => some entry.parentfolderid = old.parentfolderid ∨
      ∀ row ∈ db.folder.erase entry.folderid, row.id ≠ entry.parentfolderid ∧ some row.id ≠ old.parentfolderid

theorem processCreatefolder_counted (counted : Counted db) :
    Counted (processCreatefolder db entry) ↔ CreateCounts db entry := by
  have off := counted_iff_off.mp counted
  unfold processCreatefolder CreateCounts
  cases there : db.folder.find entry.folderid with
  | none =>
    dsimp only
    rw [counted_addSubdircnt (off_insert off there)]
    refine ⟨fun right => ?_, fun none row member => ?_⟩
    · have made : entry.row db ∈ db.folder.insert (entry.row db) := Keyed.mem_insert.mpr (.inr ⟨there, rfl⟩)
      have new := right _ made
      change (if entry.folderid = entry.folderid then -(children entry.folderid db + _) else _) + _ = 0 at new
      rw [if_pos rfl] at new
      grind
    · grind
  | some old =>
    dsimp only
    rw [counted_addSubdircnt (off_updateFolder off there)]
    refine Iff.trans (forall₂_congr fun row _ => ?_)
      (Keyed.forall_mem_set (p := fun id => some id ≠ old.parentfolderid) (entry.over_id db))
    grind

theorem processModifyfolder_counted (counted : Counted db) :
    Counted (processModifyfolder db entry) ↔ ModifyCounts db entry := by
  have off := counted_iff_off.mp counted
  unfold processModifyfolder ModifyCounts
  cases there : db.folder.find entry.folderid with
  | none =>
    dsimp only
    rw [processCreatefolder_counted counted, CreateCounts, there]
  | some old =>
    dsimp only
    have parentless : (old.parentfolderid = none → ∀ row ∈ db.folder, row.id ≠ 0) ↔
        ∀ row ∈ (updateFolder db entry).folder, old.parentfolderid = none → row.id ≠ 0 := by
      refine Iff.trans ?_
        (Keyed.forall_mem_set (p := fun id => old.parentfolderid = none → id ≠ 0) (entry.over_id db)).symm
      exact ⟨fun all row member isNone => all isNone row member, fun all isNone row member => all row member isNone⟩
    rw [parentless]
    split
    · rw [counted_addSubdircnt (off_addSubdircnt (off_updateFolder off there))]
      refine Iff.trans (forall₂_congr fun row _ => ?_)
        (Keyed.forall_mem_set (p := fun id => old.parentfolderid = none → id ≠ 0) (FolderRow.bump_id (-1) entry.modified))
      cases isParent : old.parentfolderid with
      | none => grind
      | some parent => grind
    · next same =>
      rw [(off_updateFolder off there).counted_iff]
      refine forall₂_congr fun row _ => ?_
      cases isParent : old.parentfolderid with
      | none => grind
      | some parent => grind

theorem processDeletefolder_counted (counted : Counted db) :
    Counted (processDeletefolder db entry) ↔ DeleteCounts db entry := by
  have off := counted_iff_off.mp counted
  unfold processDeletefolder DeleteCounts
  cases there : db.folder.find entry.folderid with
  | none => exact iff_of_true counted trivial
  | some old =>
    dsimp only
    rw [counted_addSubdircnt (off_erase off there)]
    refine ⟨fun right => ?_, fun right row member => ?_⟩
    · by_cases same : some entry.parentfolderid = old.parentfolderid
      · exact .inl same
      · refine .inr fun row member => ?_
        have one := right row member
        grind
    · rcases right with same | gone
      · grind
      · have absent := gone row member
        grind

end

/-! What becomes of the quota. -/

section
variable {db before after : Db} {entry : FileMeta} {old : FileRow} {id : ℕ}

def ownWeight (userid : ℕ) (row : FileRow) : UInt64 := if row.userid = userid then UInt64.ofNat row.size else 0

theorem ofNat_ownSize : UInt64.ofNat (ownSize db) = db.file.sum (ownWeight db.myUserid) := by
  unfold ownSize Keyed.sum ownWeight
  induction db.file.rows with
  | nil => rfl
  | cons row rows ih =>
    rw [List.map_cons, List.sum_cons, ← ih, List.filter_cons]
    by_cases own : row.userid = db.myUserid
    · rw [if_pos (decide_eq_true own), if_pos own, List.map_cons, List.sum_cons, UInt64.ofNat_add]
    · rw [if_neg (by simpa using own), if_neg own, zero_add]

/-- What the used quota shows beyond the user's files. -/
def drift (db : Db) : UInt64 := db.usedQuota - UInt64.ofNat (ownSize db)

theorem follows_iff : Follows before after ↔ drift after = drift before := sub_eq_sub_iff_sub_eq_sub

/-- What the row with an id adds to the user's files. -/
def ownAt (id : ℕ) (db : Db) : UInt64 :=
  match db.file.find id with
  | none => 0
  | some row => ownWeight db.myUserid row

theorem ownAt_some (there : db.file.find id = some old) : ownAt id db = ownWeight db.myUserid old := by
  rw [ownAt, there]

theorem ownAt_none (missing : db.file.find id = none) : ownAt id db = 0 := by
  rw [ownAt, missing]

/-- What the code adds for an entry. -/
def gain (entry : FileMeta) : UInt64 := if entry.ismine then UInt64.ofNat entry.size else 0

/-- What the row that is made of it adds. -/
def gained (db : Db) (entry : FileMeta) : UInt64 := ownWeight db.myUserid (entry.row db)

/-- What the file that it replaces had added. -/
def replaced (db : Db) (entry : FileMeta) : UInt64 :=
  match entry.deletedfileid with
  | none => 0
  | some fileid => ownAt fileid db

theorem addQuota_file : (addQuota db entry).file = db.file ∧ (addQuota db entry).myUserid = db.myUserid := by
  unfold addQuota
  split <;> exact ⟨rfl, rfl⟩

theorem drift_addQuota : drift (addQuota db entry) = drift db + gain entry := by
  unfold drift
  rw [ofNat_ownSize, ofNat_ownSize, addQuota_file.1, addQuota_file.2, gain, addQuota]
  split
  · dsimp only
    abel
  · rw [add_zero]

theorem drift_erase : drift { db with file := db.file.erase id } = drift db + ownAt id db := by
  unfold drift
  rw [ofNat_ownSize, ofNat_ownSize]
  cases there : db.file.find id with
  | none =>
    rw [ownAt_none there, add_zero]
    dsimp only
    rw [Keyed.erase_missing there]
  | some old =>
    rw [ownAt_some there]
    dsimp only
    rw [Keyed.sum_erase there]
    abel

theorem drift_checkForDeletedfileid : drift (checkForDeletedfileid db entry) = drift db + replaced db entry := by
  unfold checkForDeletedfileid replaced
  cases entry.deletedfileid with
  | none => exact (add_zero _).symm
  | some fileid => exact drift_erase

theorem drift_updateFile (there : db.file.find entry.fileid = some old) :
    drift (updateFile db entry) = drift db + ownWeight db.myUserid old - gained db entry := by
  have sum : (updateFile db entry).file.sum (ownWeight db.myUserid) =
      db.file.sum (ownWeight db.myUserid) - ownWeight db.myUserid old + gained db entry :=
    Keyed.sum_set (entry.over_id db) there
  unfold drift
  rw [ofNat_ownSize, ofNat_ownSize]
  show db.usedQuota - (updateFile db entry).file.sum (ownWeight db.myUserid) = _
  rw [sum]
  abel

theorem drift_insert (missing : db.file.find entry.fileid = none) :
    drift { db with file := db.file.insert (entry.row db) } = drift db - gained db entry := by
  have sum : (db.file.insert (entry.row db)).sum (ownWeight db.myUserid) =
      db.file.sum (ownWeight db.myUserid) + gained db entry :=
    Keyed.sum_insert missing
  unfold drift
  rw [ofNat_ownSize, ofNat_ownSize]
  dsimp only
  rw [sum]
  abel

theorem drift_insertOrUpdateFile :
    drift (insertOrUpdateFile db entry) = drift db + ownAt entry.fileid db - gained db entry := by
  unfold insertOrUpdateFile
  cases there : db.file.find entry.fileid with
  | none => rw [ownAt_none there, add_zero]; exact drift_insert there
  | some old => rw [ownAt_some there]; exact drift_updateFile there

/-- What is added for a content is what the file adds beyond the rows that it takes the place of. -/
def CreateFollows (db : Db) (entry : FileMeta) : Prop :=
  gain entry + replaced db entry + ownAt entry.fileid (checkForDeletedfileid db entry) = gained db entry

/-- The same for a file that is there, whose own size is taken off. -/
def ModifyFollows (db : Db) (entry : FileMeta) : Prop :=
  match db.file.find entry.fileid with
  | none => CreateFollows db entry
  | some _ =>
    if entry.deletedfileid = some entry.fileid then gain entry = 0 else gain entry + replaced db entry = gained db entry

/-- What is taken off for a file that is there is what it had added. -/
def DeleteFollows (db : Db) (entry : FileMeta) : Prop :=
  match db.file.find entry.fileid with
  | none => True
  | some old => ownWeight db.myUserid old = gain entry

/-- A file that is entered by the client itself makes no difference. -/
def EnterFollows (db : Db) (entry : FileMeta) : Prop :=
  match (checkForDeletedfileid db entry).file.find entry.fileid with
  | none => replaced db entry = gained db entry
  | some _ => replaced db entry = 0

theorem checkForDeletedfileid_quota (quota : UInt64) :
    checkForDeletedfileid { db with usedQuota := quota } entry = { checkForDeletedfileid db entry with usedQuota := quota } := by
  unfold checkForDeletedfileid
  split <;> rfl

theorem addQuota_eq (db : Db) (entry : FileMeta) : ∃ quota, addQuota db entry = { db with usedQuota := quota } := by
  unfold addQuota
  split
  · exact ⟨_, rfl⟩
  · exact ⟨db.usedQuota, rfl⟩

theorem checkForDeletedfileid_userid : (checkForDeletedfileid db entry).myUserid = db.myUserid := by
  unfold checkForDeletedfileid
  split <;> rfl

theorem find_checkForDeletedfileid : (checkForDeletedfileid db entry).file.find entry.fileid =
    if entry.deletedfileid = some entry.fileid then none else db.file.find entry.fileid := by
  unfold checkForDeletedfileid
  cases deleted : entry.deletedfileid with
  | none => rfl
  | some fileid =>
    by_cases itself : fileid = entry.fileid
    · rw [itself, if_pos rfl]
      exact Keyed.find_erase
    · rw [if_neg fun same => itself (Option.some.inj same)]
      exact Keyed.find_erase_of_ne (Ne.symm itself)

theorem updateFile_missing (missing : db.file.find entry.fileid = none) : updateFile db entry = db := by
  unfold updateFile
  rw [Keyed.set_missing _ missing]

/-- The order of the two makes no difference to what they add. -/
theorem drift_addQuota_check :
    drift (checkForDeletedfileid (addQuota db entry) entry) = drift db + gain entry + replaced db entry := by
  rw [drift_checkForDeletedfileid, drift_addQuota]
  obtain ⟨quota, same⟩ := addQuota_eq db entry
  rw [same]
  rfl

theorem processCreatefile_follows : Follows db (processCreatefile db entry) ↔ CreateFollows db entry := by
  have same : ownAt entry.fileid (checkForDeletedfileid (addQuota db entry) entry) =
        ownAt entry.fileid (checkForDeletedfileid db entry) ∧
      gained (checkForDeletedfileid (addQuota db entry) entry) entry = gained db entry := by
    obtain ⟨quota, same⟩ := addQuota_eq db entry
    rw [same, checkForDeletedfileid_quota]
    refine ⟨rfl, ?_⟩
    unfold gained FileMeta.row
    dsimp only
    rw [checkForDeletedfileid_userid]
  rw [follows_iff, processCreatefile, drift_insertOrUpdateFile, drift_addQuota_check, same.1, same.2, CreateFollows]
  rw [sub_eq_iff_eq_add, add_assoc, add_assoc, add_right_inj, ← add_assoc]

theorem processModifyfile_follows : Follows db (processModifyfile db entry) ↔ ModifyFollows db entry := by
  unfold processModifyfile ModifyFollows
  cases there : db.file.find entry.fileid with
  | none => exact processCreatefile_follows
  | some old =>
    dsimp only
    obtain ⟨less, isLess, sameFile, sameUserid, lessDrift⟩ : ∃ less : Db,
        (if old.userid = db.myUserid then { db with usedQuota := db.usedQuota - UInt64.ofNat old.size } else db) = less ∧
          less.file = db.file ∧ less.myUserid = db.myUserid ∧ drift less = drift db - ownWeight db.myUserid old := by
      refine ⟨_, rfl, ?_⟩
      unfold ownWeight drift
      split
      · exact ⟨rfl, rfl, sub_right_comm _ _ _⟩
      · exact ⟨rfl, rfl, (sub_zero _).symm⟩
    rw [isLess, follows_iff]
    have sameReplaced : replaced less entry = replaced db entry := by
      unfold replaced ownAt
      rw [sameFile, sameUserid]
    have mid : drift (checkForDeletedfileid (addQuota less entry) entry) = _ := drift_addQuota_check
    rw [sameReplaced, lessDrift] at mid
    have found : (checkForDeletedfileid (addQuota less entry) entry).file.find entry.fileid = _ := find_checkForDeletedfileid
    rw [addQuota_file.1, sameFile, there] at found
    split
    · next itself =>
      rw [if_pos itself] at found
      have gone : replaced db entry = ownWeight db.myUserid old := by
        rw [replaced, itself]
        exact ownAt_some there
      have sum : drift db - ownWeight db.myUserid old + gain entry + ownWeight db.myUserid old = drift db + gain entry := by abel
      rw [updateFile_missing found, mid, gone, sum, add_eq_left]
    · next other =>
      rw [if_neg other] at found
      have userid : (checkForDeletedfileid (addQuota less entry) entry).myUserid = db.myUserid := by
        rw [checkForDeletedfileid_userid, addQuota_file.2, sameUserid]
      have same : gained (checkForDeletedfileid (addQuota less entry) entry) entry = gained db entry := by
        unfold gained FileMeta.row
        rw [userid]
      have sum : drift db - ownWeight db.myUserid old + gain entry + replaced db entry + ownWeight db.myUserid old =
          drift db + (gain entry + replaced db entry) := by abel
      rw [drift_updateFile found, mid, same, userid, sum, sub_eq_iff_eq_add, add_right_inj]

theorem processDeletefile_follows : Follows db (processDeletefile db entry) ↔ DeleteFollows db entry := by
  unfold processDeletefile DeleteFollows
  cases there : db.file.find entry.fileid with
  | none => exact iff_of_true (follows_iff.mpr rfl) trivial
  | some old =>
    have erased : drift { db with file := db.file.erase entry.fileid } = drift db + ownWeight db.myUserid old := by
      rw [drift_erase, ownAt_some there]
    rw [follows_iff]
    dsimp only
    unfold gain
    split
    · have less : drift { db with file := db.file.erase entry.fileid, usedQuota := db.usedQuota - UInt64.ofNat entry.size } =
          drift { db with file := db.file.erase entry.fileid } - UInt64.ofNat entry.size :=
        sub_right_comm _ _ _
      rw [less, erased, sub_eq_iff_eq_add, add_right_inj]
    · rw [erased, add_eq_left]

theorem pdiffFileCreate_follows : Follows db (pdiffFileCreate db entry) ↔ EnterFollows db entry := by
  have userid : (checkForDeletedfileid db entry).myUserid = db.myUserid := checkForDeletedfileid_userid
  rw [follows_iff]
  unfold pdiffFileCreate EnterFollows
  dsimp only
  cases there : (checkForDeletedfileid db entry).file.find entry.fileid with
  | none =>
    have same : gained (checkForDeletedfileid db entry) entry = gained db entry := by
      unfold gained FileMeta.row
      rw [userid]
    rw [drift_insert there, drift_checkForDeletedfileid, same, sub_eq_iff_eq_add, add_right_inj]
  | some old =>
    rw [Keyed.insert_found there]
    rw [show ({ checkForDeletedfileid db entry with file := (checkForDeletedfileid db entry).file } : Db) =
      checkForDeletedfileid db entry from rfl, drift_checkForDeletedfileid, add_eq_left]

end
/-! Entries, batches and runs. -/

section
variable {start db after : Db} {entry : Entry} {entries : List Entry}

theorem Counted.congr (same : after.folder = db.folder) : Counted after ↔ Counted db := by
  unfold Counted children
  rw [same]

theorem drift_congr (file : after.file = db.file) (userid : after.myUserid = db.myUserid)
    (quota : after.usedQuota = db.usedQuota) : drift after = drift db := by
  unfold drift ownSize
  rw [file, userid, quota]

theorem processCreatefolder_follows (entry : FolderMeta) : Follows db (processCreatefolder db entry) := by
  rw [follows_iff]
  unfold processCreatefolder
  split <;> rfl

theorem processModifyfolder_follows (entry : FolderMeta) : Follows db (processModifyfolder db entry) := by
  unfold processModifyfolder
  split
  · exact processCreatefolder_follows entry
  · rw [follows_iff]
    split <;> rfl

theorem processDeletefolder_follows (entry : FolderMeta) : Follows db (processDeletefolder db entry) := by
  rw [follows_iff]
  unfold processDeletefolder
  split <;> rfl

theorem addQuota_folder (entry : FileMeta) : (addQuota db entry).folder = db.folder := by
  unfold addQuota
  split <;> rfl

theorem checkForDeletedfileid_folder (entry : FileMeta) : (checkForDeletedfileid db entry).folder = db.folder := by
  unfold checkForDeletedfileid
  split <;> rfl

theorem processCreatefile_folder (entry : FileMeta) : (processCreatefile db entry).folder = db.folder := by
  have same : (insertOrUpdateFile (checkForDeletedfileid (addQuota db entry) entry) entry).folder =
      (checkForDeletedfileid (addQuota db entry) entry).folder := by
    unfold insertOrUpdateFile
    split <;> rfl
  rw [processCreatefile, same, checkForDeletedfileid_folder, addQuota_folder]

theorem processModifyfile_folder (entry : FileMeta) : (processModifyfile db entry).folder = db.folder := by
  unfold processModifyfile
  split
  · exact processCreatefile_folder entry
  · dsimp only [updateFile]
    rw [checkForDeletedfileid_folder, addQuota_folder]
    split <;> rfl

theorem processDeletefile_folder (entry : FileMeta) : (processDeletefile db entry).folder = db.folder := by
  unfold processDeletefile
  split
  · rfl
  · dsimp only
    split <;> rfl

/-- An entry that keeps the counters and the quota right. -/
def Keeps (db : Db) : Entry → Prop
  | .createfolder entry => CreateCounts db entry
  | .modifyfolder entry => ModifyCounts db entry
  | .deletefolder entry => DeleteCounts db entry
  | .createfile entry => CreateFollows db entry
  | .modifyfile entry => ModifyFollows db entry
  | .deletefile entry => DeleteFollows db entry
  | .other => True

/-- One entry, and exactly when it is right. -/
theorem process_keeps (counted : Counted db) : Counted (process db entry) ∧ Follows db (process db entry) ↔ Keeps db entry := by
  cases entry with
  | createfolder entry =>
    exact (and_iff_left (processCreatefolder_follows entry)).trans (processCreatefolder_counted counted)
  | modifyfolder entry =>
    exact (and_iff_left (processModifyfolder_follows entry)).trans (processModifyfolder_counted counted)
  | deletefolder entry =>
    exact (and_iff_left (processDeletefolder_follows entry)).trans (processDeletefolder_counted counted)
  | createfile entry =>
    exact (and_iff_right ((Counted.congr (processCreatefile_folder entry)).mpr counted)).trans processCreatefile_follows
  | modifyfile entry =>
    exact (and_iff_right ((Counted.congr (processModifyfile_folder entry)).mpr counted)).trans processModifyfile_follows
  | deletefile entry =>
    exact (and_iff_right ((Counted.congr (processDeletefile_folder entry)).mpr counted)).trans processDeletefile_follows
  | other => exact iff_of_true ⟨counted, follows_iff.mpr rfl⟩ trivial

/-- Each entry of a batch is right where it is processed. -/
def KeepsAll (db : Db) : List Entry → Prop
  | [] => True
  | entry :: entries => Keeps db entry ∧ KeepsAll (process db entry) entries

theorem foldl_process (counted : Counted db) (keeps : KeepsAll db entries) :
    Counted (entries.foldl process db) ∧ Follows db (entries.foldl process db) := by
  induction entries generalizing db with
  | nil => exact ⟨counted, follows_iff.mpr rfl⟩
  | cons entry entries ih =>
    obtain ⟨first, follows⟩ := (process_keeps counted).mpr keeps.1
    obtain ⟨all, further⟩ := ih first keeps.2
    exact ⟨all, follows_iff.mpr ((follows_iff.mp further).trans (follows_iff.mp follows))⟩

/-- A step that keeps them right. A batch that is rolled back has to find the quota that was stored. -/
def StepKeeps (db : Db) : Step → Prop
  | .diff entries authProvided commits =>
    authProvided = true → (commits = true → KeepsAll db entries) ∧ (commits = false → db.setting = db.usedQuota)
  | .fileCreate entry => EnterFollows db entry
  | .fileUpdate entry => ModifyFollows db entry
  | .fileDelete entry => DeleteFollows db entry
  | .fldrUpdate entry => ModifyCounts db entry
  | .fldrDelete entry => DeleteCounts db entry

theorem step_keeps {next : Step} (counted : Counted db) (keeps : StepKeeps db next) :
    Counted (step db next) ∧ Follows db (step db next) := by
  cases next with
  | diff entries authProvided commits =>
    rw [step, processEntries]
    cases authProvided with
    | false => exact ⟨counted, follows_iff.mpr rfl⟩
    | true =>
      obtain ⟨processed, rolled⟩ := keeps rfl
      cases commits with
      | true =>
        obtain ⟨all, follows⟩ := foldl_process counted (processed rfl)
        exact ⟨all, follows⟩
      | false =>
        refine ⟨counted, follows_iff.mpr ?_⟩
        exact drift_congr rfl rfl (rolled rfl)
  | fileCreate entry =>
    exact ⟨(Counted.congr (checkForDeletedfileid_folder entry)).mpr counted, pdiffFileCreate_follows.mpr keeps⟩
  | fileUpdate entry =>
    exact ⟨(Counted.congr (processModifyfile_folder entry)).mpr counted, processModifyfile_follows.mpr keeps⟩
  | fileDelete entry =>
    exact ⟨(Counted.congr (processDeletefile_folder entry)).mpr counted, processDeletefile_follows.mpr keeps⟩
  | fldrUpdate entry =>
    exact ⟨(processModifyfolder_counted counted).mpr keeps, processModifyfolder_follows entry⟩
  | fldrDelete entry =>
    exact ⟨(processDeletefolder_counted counted).mpr keeps, processDeletefolder_follows entry⟩

/-- What steps lead to that keep the counters and the quota right. -/
inductive Reached (start : Db) : Db → Prop
  | start : Reached start start
  | step {db : Db} (reached : Reached start db) (next : Step) (keeps : StepKeeps db next) : Reached start (step db next)

end
/-! A new account with one file, a folder that the client makes in it, and a file that takes the place of the other. -/

def newDb : Db where
  myUserid := 3
  folder := ⟨[⟨0, none, 0, 0, [], 0, 0, 0, 0⟩], by decide⟩
  file := ⟨[⟨5, 0, 3, 10, 1, [97]⟩], by decide⟩
  usedQuota := 10
  setting := 10

def newFolder : FolderMeta := ⟨7, 0, true, 3, permAll, [98], 1, 1, 0⟩

def newFile : FileMeta := ⟨6, 0, true, 3, 4, 2, [97], some 5⟩

end Pclsync.Proofs.Entries
