import Pclsync.Sync.Finish

/-! A local file loses its name to a download only when its content is known to be a revision of the
remote file. The name under which it is kept otherwise was free before. -/

namespace Pclsync.Proofs.Finish
open Library Pclsync.Finish

section
variable {rsz size : ℕ} {reads : List (Option Bytes)} {read bytes : Bytes} {pass : Pass}

theorem readLoop_length (whole : readLoop rsz reads read = .whole bytes) : bytes.length = read.length + rsz := by
  fun_induction readLoop rsz reads read with
  | case1 => cases whole; rfl
  | case2 => cases whole
  | case3 => cases whole
  | case4 => cases whole
  | case5 rsz data reads read some ih =>
    have grown := ih whole
    have bounded : (data.take (min (rsz + 1) copyBufferSize)).length ≤ rsz + 1 := by
      rw [List.length_take]
      omega
    rw [List.length_append] at grown
    omega

theorem onePass_length (done : onePass pass = .done bytes size) : bytes.length = size := by
  unfold onePass at done
  split at done
  · cases done
  · split at done
    · cases done
    · split at done
      · cases done
      · split at done <;> cases done
    · next whole =>
      split at done
      · cases done
      · split at done
        · cases done
        · cases done
          rw [readLoop_length whole, List.length_nil, Nat.zero_add]

end

section
variable {sha1hex : Bytes → Bytes} {file : LocalFile} {hexsum : Bytes} {fsize : ℕ}

theorem checksumPasses_done {passes : List Pass} (done : checksumPasses sha1hex passes = some (.ok hexsum fsize)) :
    ∃ pass ∈ passes, ∃ bytes, onePass pass = .done bytes fsize ∧ hexsum = sha1hex bytes := by
  induction passes with
  | nil => cases done
  | cons pass passes ih =>
    unfold checksumPasses at done
    split at done
    · obtain ⟨later, member, found⟩ := ih done
      exact ⟨later, List.mem_cons_of_mem _ member, found⟩
    · cases done
    · next bytes size ended =>
      cases done
      exact ⟨pass, List.mem_cons_self, bytes, ended, rfl⟩

/-- However the file is read, its checksum is that of its content. -/
theorem checksum_sound (done : getLocalFileChecksum sha1hex (some file) = some (.ok hexsum fsize)) :
    hexsum = sha1hex file.content ∧ fsize = file.content.length := by
  change (if file.opens then checksumPasses sha1hex file.passes else some .permfail) = _ at done
  split at done
  · obtain ⟨pass, member, bytes, ended, rfl⟩ := checksumPasses_done done
    have same := file.settled pass member bytes fsize ended
    subst same
    exact ⟨rfl, (onePass_length ended).symm⟩
  · cases done

end

section
variable {path : Path} {num : ℕ}

theorem conflictSuffix_injective : conflictSuffix.Injective := by
  intro one other same
  unfold conflictSuffix at same
  split at same <;> split at same
  · next isZero alsoZero => rw [isZero, alsoZero]
  · have ended := congrArg (fun suffix => suffix[12]?) same
    simp at ended
  · have ended := congrArg (fun suffix => suffix[12]?) same
    simp at ended
  · rw [List.append_cancel_right_eq, List.append_cancel_left_eq] at same
    exact Nat.repr_injective (String.toList_inj.mp same)

theorem length_conflictSuffix : 13 ≤ (conflictSuffix num).length := by
  unfold conflictSuffix
  split
  · simp
  · simp only [List.length_append]
    simp
    omega

theorem conflictName_injective : (conflictName path).Injective := by
  intro one other same
  unfold conflictName at same
  rw [List.append_cancel_right_eq, List.append_cancel_left_eq] at same
  exact conflictSuffix_injective same

theorem length_conflictName : (conflictName path num).length = path.length + (conflictSuffix num).length := by
  have parts := congrArg List.length (List.take_append_drop (dotidx path) path)
  rw [List.length_append] at parts
  simp only [conflictName, List.length_append]
  omega

theorem conflictName_ne : conflictName path num ≠ path := by
  intro same
  have lengths := congrArg List.length same
  have long : 13 ≤ (conflictSuffix num).length := length_conflictSuffix
  rw [length_conflictName] at lengths
  omega

theorem conflictName_ne_tmpname {dt : DownloadTask} : conflictName dt.localname num ≠ dt.tmpname := by
  intro same
  have lengths := congrArg List.length same
  have long : 13 ≤ (conflictSuffix num).length := length_conflictSuffix
  have suffix : ".part".toList.length = 5 := by simp
  rw [length_conflictName, DownloadTask.tmpname, List.length_append] at lengths
  omega

theorem tmpname_ne {dt : DownloadTask} : dt.tmpname ≠ dt.localname := by
  intro same
  have lengths := congrArg List.length same
  have suffix : ".part".toList.length = 5 := by simp
  rw [DownloadTask.tmpname, List.length_append] at lengths
  omega

end

section
variable {works : Bool} {path old new name : Path} {num : ℕ} {disk after : Disk} {file : LocalFile}

theorem lookup_pfileRename (moved : pfileRename works old new disk = some after) :
    after.lookup name = if name = new then disk.lookup old else if name = old then none else disk.lookup name := by
  unfold pfileRename at moved
  split at moved
  · exact Directory.lookup_rename moved
  · cases moved

theorem lookup_pfileDelete (differ : name ≠ path) : (pfileDelete works path disk).lookup name = disk.lookup name := by
  unfold pfileDelete
  split
  · rw [Directory.lookup_erase, if_neg differ]
  · rfl

theorem lookup_pfileDelete_some (found : (pfileDelete works path disk).lookup name = some file) :
    disk.lookup name = some file := by
  unfold pfileDelete at found
  split at found
  · rw [Directory.lookup_erase] at found
    split at found
    · cases found
    · exact found
  · exact found

/-- A file in the way is kept under a name that was free. -/
theorem renameConflictedFile_keeps (moved : renameConflictedFile works path disk = some after) :
    ∃ num, disk.lookup (conflictName path num) = none ∧ after.lookup (conflictName path num) = disk.lookup path := by
  unfold renameConflictedFile at moved
  obtain ⟨num, free, renamed⟩ := Option.bind_eq_some_iff.mp moved
  refine ⟨num, Directory.lookup_firstFree free, ?_⟩
  rw [lookup_pfileRename renamed, if_pos rfl]

/-- The search for a name ends, and only the system can refuse the rename. -/
theorem renameConflictedFile_works (held : disk.lookup path = some file) :
    (renameConflictedFile true path disk).isSome := by
  have different : (conflictName path).Injective := conflictName_injective
  obtain ⟨num, found⟩ := Directory.firstFree_isSome different disk
  rw [renameConflictedFile, found, Option.bind_some, pfileRename, if_pos rfl, Directory.rename_isSome, held]
  rfl

end

section
variable (sha1hex : Bytes → Bytes) (dt : DownloadTask) (target : Target) (calls : Calls) (world after : World)
  (tables : Tables) (file : LocalFile) (completion : Completion) (ok : Bool)

/-- What a content has to do with a remote file. There are no revisions of size zero. -/
def IsRevision (content : Bytes) : Prop :=
  content = [] ∨ ∃ f ∈ tables.filerevision, f.fileid = dt.fileid ∧
    ∃ h ∈ tables.hashchecksum, f.hash = h.hash ∧ h.size = content.length ∧ h.checksum = sha1hex content

def Readable : Prop := getLocalFileChecksum sha1hex (some file) ≠ some .permfail

/-- The server refuses to tell the revisions, and would again. -/
def Refused : Answer → Prop
  | .noApi => False
  | .noResult => False
  | .reply result _ _ => result ≠ 0 ∧ handleApiResult result = .permfail

/-- The download gets as far as to take the name of the local file. -/
def Replaces : Completion → Prop
  | .candidate => getLocalFileChecksum sha1hex (world.disk.lookup dt.tmpname) = some (.ok target.checksum target.size)
  | .existing => False
  | .known => False
  | .copied rt => rt = .ok
  | .peer rt => rt = .ok
  | .threaded sameChecksum => sameChecksum = true ∧ dt.stop ≠ 2
  | .async error => error = 0 ∧ dt.stop ≠ 2
  | .asyncExisting error => error = 0 ∧ dt.stop ≠ 2

/-- The local file is taken for what would be downloaded. -/
def Trusts : Completion → Prop
  | .existing => getLocalFileChecksum sha1hex (world.disk.lookup dt.localname) = some (.ok target.checksum target.size)
  | .known => dt.localexists = true ∧ dt.localsize = target.size ∧ dt.checksum = target.checksum
  | .asyncExisting error => error = serverErrorNotMod
  | _ => False

/-- The file is known to be a revision of the remote one, or to be the current one. -/
def Established : Prop :=
  (Replaces sha1hex dt target world completion ∧ Readable sha1hex file ∧ IsRevision sha1hex dt after.tables file.content) ∨
    (Trusts sha1hex dt target world completion ∧ sha1hex file.content = target.checksum)

/-- The file is in its place, and then a download to this place has failed, or it has got a name that was free. -/
def Kept : Prop :=
  (after.disk.lookup dt.localname = some file ∧ (Replaces sha1hex dt target world completion → ok = false)) ∨
    ∃ num, world.disk.lookup (conflictName dt.localname num) = none ∧
      after.disk.lookup (conflictName dt.localname num) = some file

/-- Nothing that only the local disk has is lost. -/
def Safe : Prop :=
  ∀ file, world.disk.lookup dt.localname = some file →
    Kept sha1hex dt target world after file completion ok ∨ Established sha1hex dt target world after file completion

/-- The download takes the name of a file that cannot be read, or of one about which the server refuses to say more. -/
def Overwrites : Prop :=
  Replaces sha1hex dt target world completion ∧ calls.renameFinal = true ∧ (world.disk.lookup dt.tmpname).isSome = true ∧
    ∃ file, world.disk.lookup dt.localname = some file ∧
      (¬Readable sha1hex file ∨ (¬IsRevision sha1hex dt world.tables file.content ∧ Refused calls.answer))

/-- A file that has changed since it was compared is deleted, because the remote one has gone. -/
def Discards : Prop :=
  Trusts sha1hex dt target world completion ∧ calls.stat = true ∧ calls.unlink = true ∧ wanted dt world = false ∧
    ∃ file, world.disk.lookup dt.localname = some file ∧ file.content.length = target.size ∧
      sha1hex file.content ≠ target.checksum

end

section
variable {sha1hex : Bytes → Bytes} {dt : DownloadTask} {target : Target} {calls : Calls} {world mid after : World}
  {tables later : Tables} {file : LocalFile} {completion : Completion} {ok : Bool}

theorem isRevisionLocal_iff {content : Bytes} :
    isRevisionLocal tables (sha1hex content) content.length dt.fileid = true ↔ IsRevision sha1hex dt tables content := by
  unfold isRevisionLocal IsRevision
  split
  · next empty => simp [List.length_eq_zero_iff.mp empty]
  · next filled =>
    have notEmpty : content ≠ [] := fun empty => filled (by rw [empty]; rfl)
    simp [notEmpty]

theorem downloadFileRevisions_permfail (asked : downloadFileRevisions dt.fileid calls tables = (.permfail, later)) :
    later = tables ∧ Refused calls.answer := by
  unfold downloadFileRevisions at asked
  split at asked
  · cases asked
  · cases asked
  · next result revisions metadata replied =>
    split at asked
    · next wrong =>
      rw [Prod.mk.injEq] at asked
      rw [replied]
      exact ⟨asked.2.symm, wrong, asked.1⟩
    · split at asked <;> cases asked

/-- What the look at the revisions of an existing file comes to. -/
theorem isRevisionOfFile_cases (content : Bytes) {net : Net} {isrev : Bool}
    (asked : isRevisionOfFile (sha1hex content) content.length dt.fileid calls tables = (net, isrev, later)) :
    (net = .ok ∧ isrev = true ∧ IsRevision sha1hex dt later content) ∨ (net = .ok ∧ isrev = false) ∨ net = .tempfail ∨
      (net = .permfail ∧ later = tables ∧ ¬IsRevision sha1hex dt tables content ∧ Refused calls.answer) := by
  unfold isRevisionOfFile at asked
  split at asked
  · next known =>
    cases asked
    exact .inl ⟨rfl, rfl, isRevisionLocal_iff.mp known⟩
  · next unknown =>
    have notRevision : ¬IsRevision sha1hex dt tables content := fun is => unknown (isRevisionLocal_iff.mpr is)
    split at asked
    · cases asked
      cases judged : isRevisionLocal later (sha1hex content) content.length dt.fileid with
      | false => exact .inr (.inl ⟨rfl, rfl⟩)
      | true => exact .inl ⟨rfl, rfl, isRevisionLocal_iff.mp judged⟩
    · next ret listed notOk answered =>
      cases asked
      cases net with
      | ok => exact (notOk rfl).elim
      | tempfail => exact .inr (.inr (.inl rfl))
      | permfail =>
        obtain ⟨same, refused⟩ := downloadFileRevisions_permfail answered
        exact .inr (.inr (.inr ⟨rfl, same, notRevision, refused⟩))

/-- The partial file takes the name, and no other name loses its file. -/
theorem renameOverwrite_cases (renamed : renameOverwrite dt calls world = (ok, after)) :
    (ok = false ∧ after = world) ∨
      (ok = true ∧ calls.renameFinal = true ∧ (world.disk.lookup dt.tmpname).isSome = true ∧ after.tables = world.tables ∧
        ∀ name, after.disk.lookup name =
          if name = dt.localname then world.disk.lookup dt.tmpname
          else if name = dt.tmpname then none else world.disk.lookup name) := by
  unfold renameOverwrite at renamed
  split at renamed
  · next disk moved =>
    cases renamed
    have allowed : calls.renameFinal = true := by
      by_contra refused
      rw [pfileRename, if_neg refused] at moved
      cases moved
    have partly : (world.disk.lookup dt.tmpname).isSome = true := by
      rw [pfileRename, if_pos allowed] at moved
      rw [← Directory.rename_isSome, moved]
      rfl
    exact .inr ⟨rfl, allowed, partly, rfl, fun name => lookup_pfileRename moved⟩
  · cases renamed
    exact .inl ⟨rfl, rfl⟩

theorem renameOverwrite_works (allowed : calls.renameFinal = true) (partly : (world.disk.lookup dt.tmpname).isSome = true) :
    ∃ after, renameOverwrite dt calls world = (true, after) := by
  have moves : (pfileRename calls.renameFinal dt.tmpname dt.localname world.disk).isSome = true := by
    rw [pfileRename, if_pos allowed, Directory.rename_isSome, partly]
  obtain ⟨disk, moved⟩ := Option.isSome_iff_exists.mp moves
  exact ⟨{ world with disk }, by rw [renameOverwrite, moved]⟩

/-- What becomes of a file that has the name. -/
inductive Fate (sha1hex : Bytes → Bytes) (dt : DownloadTask) (calls : Calls) (world : World) (file : LocalFile) (ok : Bool)
    (after : World) : Prop
  | left (failed : ok = false) (there : after.disk.lookup dt.localname = some file)
  | moved (num : ℕ) (free : world.disk.lookup (conflictName dt.localname num) = none)
      (there : after.disk.lookup (conflictName dt.localname num) = some file)
  | revision (readable : Readable sha1hex file) (is : IsRevision sha1hex dt after.tables file.content)
  | lost (allowed : calls.renameFinal = true) (partly : (world.disk.lookup dt.tmpname).isSome = true)
      (unknown : ¬Readable sha1hex file ∨ (¬IsRevision sha1hex dt world.tables file.content ∧ Refused calls.answer))

theorem renameIfNotex_fate (held : world.disk.lookup dt.localname = some file)
    (renamed : renameIfNotex sha1hex dt calls world = some (ok, after)) : Fate sha1hex dt calls world file ok after := by
  unfold renameIfNotex at renamed
  rw [held] at renamed
  split at renamed
  · cases renamed
  · next unreadable =>
    have step : renameOverwrite dt calls world = (ok, after) := Option.some.inj renamed
    rcases renameOverwrite_cases step with ⟨failed, same⟩ | ⟨_, allowed, partly, _⟩
    · exact .left failed (same ▸ held)
    · exact .lost allowed partly (.inl (not_not.mpr unreadable))
  · next hexsum fsize summed =>
    obtain ⟨rfl, rfl⟩ := checksum_sound summed
    have readable : Readable sha1hex file := by
      rw [Readable, summed]
      simp
    split at renamed
    · -- the server could not be asked
      cases renamed
      exact .left rfl held
    · split at renamed
      · cases renamed
        exact .left rfl held
      · next put conflicted =>
        have step : renameOverwrite dt calls put = (ok, after) := Option.some.inj renamed
        unfold createConflicted at conflicted
        obtain ⟨disk, moved, rfl⟩ := Option.map_eq_some_iff.mp conflicted
        obtain ⟨num, free, there⟩ := renameConflictedFile_keeps moved
        refine .moved num free ?_
        rw [held] at there
        rcases renameOverwrite_cases step with ⟨_, same⟩ | ⟨_, _, _, _, names⟩
        · rw [same, there]
        · rw [names, if_neg conflictName_ne, if_neg conflictName_ne_tmpname, there]
    · next net isrev listed notTemp notConflict asked =>
      have step : renameOverwrite dt calls { world with tables := listed } = (ok, after) := Option.some.inj renamed
      rcases renameOverwrite_cases step with ⟨failed, same⟩ | ⟨_, allowed, partly, sameTables, _⟩
      · exact .left failed (same ▸ held)
      · rcases isRevisionOfFile_cases file.content asked with ⟨_, _, is⟩ | ⟨rfl, rfl⟩ | rfl | ⟨_, rfl, notRevision, refused⟩
        · exact .revision readable (sameTables ▸ is)
        · exact (notConflict rfl rfl).elim
        · exact (notTemp rfl).elim
        · exact .lost allowed partly (.inr ⟨notRevision, refused⟩)

theorem isRevisionOfFile_refused {content : Bytes} (notRevision : ¬IsRevision sha1hex dt tables content)
    (refused : Refused calls.answer) :
    isRevisionOfFile (sha1hex content) content.length dt.fileid calls tables = (.permfail, false, tables) := by
  have unknown : isRevisionLocal tables (sha1hex content) content.length dt.fileid ≠ true :=
    fun is => notRevision (isRevisionLocal_iff.mp is)
  have answered : downloadFileRevisions dt.fileid calls tables = (.permfail, tables) := by
    unfold downloadFileRevisions
    cases told : calls.answer with
    | noApi => rw [told] at refused; exact refused.elim
    | noResult => rw [told] at refused; exact refused.elim
    | reply result revisions metadata =>
      rw [told] at refused
      dsimp only
      rw [if_pos refused.1, refused.2]
  rw [isRevisionOfFile, if_neg unknown, answered]

/-- Nothing is done about a file that cannot be read or judged. -/
theorem renameIfNotex_unknown (held : world.disk.lookup dt.localname = some file)
    (unknown : ¬Readable sha1hex file ∨ (¬IsRevision sha1hex dt world.tables file.content ∧ Refused calls.answer))
    (renamed : renameIfNotex sha1hex dt calls world = some (ok, after)) : renameOverwrite dt calls world = (ok, after) := by
  unfold renameIfNotex at renamed
  rw [held] at renamed
  split at renamed
  · cases renamed
  · exact Option.some.inj renamed
  · next hexsum fsize summed =>
    obtain ⟨rfl, rfl⟩ := checksum_sound summed
    rcases unknown with unreadable | ⟨notRevision, refused⟩
    · rw [Readable, summed] at unreadable
      simp at unreadable
    · rw [isRevisionOfFile_refused notRevision refused] at renamed
      exact Option.some.inj renamed

/-- A file whose name is taken has no name any more. -/
theorem renameOverwrite_loses (held : world.disk.lookup dt.localname = some file) (allowed : calls.renameFinal = true)
    (partly : (world.disk.lookup dt.tmpname).isSome = true) (renamed : renameOverwrite dt calls world = (ok, after)) :
    ok = true ∧ after.tables = world.tables ∧ ∀ name, after.disk.lookup name ≠ some file := by
  obtain ⟨other, works⟩ := renameOverwrite_works allowed partly
  rcases renameOverwrite_cases renamed with ⟨failed, _⟩ | ⟨done, _, _, same, names⟩
  · rw [renamed, failed] at works
    cases works
  · refine ⟨done, same, fun name found => ?_⟩
    rw [names] at found
    split at found
    · exact tmpname_ne (Directory.lookup_single found held)
    · split at found
      · cases found
      · next notLocal _ => exact notLocal (Directory.lookup_single found held)

/-- Only the local name may lose its file, and the revisions stay. -/
theorem statAndCreateLocal_frame (done : statAndCreateLocal dt target calls world = (ok, after)) :
    (∀ name, name ≠ dt.localname → after.disk.lookup name = world.disk.lookup name) ∧
      (∀ name file, after.disk.lookup name = some file → world.disk.lookup name = some file) ∧
      after.tables.filerevision = world.tables.filerevision ∧ after.tables.hashchecksum = world.tables.hashchecksum := by
  unfold statAndCreateLocal at done
  split at done
  · cases done
    exact ⟨fun _ _ => rfl, fun _ _ found => found, rfl, rfl⟩
  · split at done
    · cases done
      exact ⟨fun _ _ => rfl, fun _ _ found => found, rfl, rfl⟩
    · split at done
      · cases done
        refine ⟨fun name differ => lookup_pfileDelete differ, fun name file found => ?_, ?_, ?_⟩
        · exact lookup_pfileDelete_some found
        · dsimp only; split <;> rfl
        · dsimp only; split <;> rfl
      · split at done
        · cases done
          exact ⟨fun _ _ => rfl, fun _ _ found => found, rfl, rfl⟩
        · cases done
          exact ⟨fun _ _ => rfl, fun _ _ found => found, rfl, rfl⟩

/-- A file in its place is deleted when the remote one has gone, whatever its content is. -/
theorem statAndCreateLocal_local (held : world.disk.lookup dt.localname = some file)
    (done : statAndCreateLocal dt target calls world = (ok, after)) :
    if calls.stat = true ∧ calls.unlink = true ∧ wanted dt world = false ∧ file.content.length = target.size then
      ∀ name, after.disk.lookup name ≠ some file
    else after.disk.lookup dt.localname = some file := by
  unfold statAndCreateLocal at done
  rw [held] at done
  dsimp only at done
  split at done
  · next refused =>
    cases done
    rw [if_neg (by grind)]
    exact held
  · next fits =>
    split at done
    · next unwanted =>
      cases done
      split
      · next deletes =>
        intro name found
        dsimp only [pfileDelete] at found
        rw [if_pos deletes.2.1, Directory.lookup_erase] at found
        split at found
        · cases found
        · next differ => exact differ (Directory.lookup_single found held)
      · next stays =>
        have refused : calls.unlink ≠ true := by grind
        dsimp only [pfileDelete]
        rw [if_neg refused]
        exact held
    · rw [if_neg (by grind)]
      split at done
      · cases done
        exact held
      · cases done
        exact held

/-- A download that takes its place, in one step. -/
theorem renameAndCreateLocal_some (done : renameAndCreateLocal sha1hex dt target calls world = some (ok, after)) :
    ∃ renamed mid, renameIfNotex sha1hex dt calls world = some (renamed, mid) ∧
      ((renamed = true ∧ statAndCreateLocal dt target calls mid = (ok, after)) ∨
        (renamed = false ∧ ok = false ∧ after = mid)) := by
  unfold renameAndCreateLocal at done
  obtain ⟨⟨renamed, mid⟩, step, result⟩ := Option.map_eq_some_iff.mp done
  refine ⟨renamed, mid, step, ?_⟩
  cases renamed with
  | true => exact .inl ⟨rfl, result⟩
  | false =>
    cases result
    exact .inr ⟨rfl, rfl, rfl⟩

theorem IsRevision.of_same {content : Bytes} (revisions : later.filerevision = tables.filerevision)
    (checksums : later.hashchecksum = tables.hashchecksum) (is : IsRevision sha1hex dt tables content) :
    IsRevision sha1hex dt later content := by
  unfold IsRevision
  rw [revisions, checksums]
  exact is

theorem renameAndCreateLocal_fate (held : world.disk.lookup dt.localname = some file)
    (done : renameAndCreateLocal sha1hex dt target calls world = some (ok, after)) :
    Fate sha1hex dt calls world file ok after := by
  obtain ⟨renamed, mid, step, ⟨rfl, ended⟩ | ⟨rfl, rfl, rfl⟩⟩ := renameAndCreateLocal_some done
  · obtain ⟨others, _, revisions, checksums⟩ := statAndCreateLocal_frame ended
    cases renameIfNotex_fate held step with
    | left failed _ => cases failed
    | moved num free there => exact .moved num free (by rw [others _ conflictName_ne, there])
    | revision readable is => exact .revision readable (is.of_same revisions checksums)
    | lost allowed partly unknown => exact .lost allowed partly unknown
  · exact renameIfNotex_fate held step

/-- Over a file about which nothing is known, the download takes its place. -/
theorem renameAndCreateLocal_loses (held : world.disk.lookup dt.localname = some file) (allowed : calls.renameFinal = true)
    (partly : (world.disk.lookup dt.tmpname).isSome = true)
    (unknown : ¬Readable sha1hex file ∨ (¬IsRevision sha1hex dt world.tables file.content ∧ Refused calls.answer))
    (done : renameAndCreateLocal sha1hex dt target calls world = some (ok, after)) :
    (∀ name, after.disk.lookup name ≠ some file) ∧
      after.tables.filerevision = world.tables.filerevision ∧ after.tables.hashchecksum = world.tables.hashchecksum := by
  obtain ⟨renamed, mid, step, next⟩ := renameAndCreateLocal_some done
  obtain ⟨isTrue, same, gone⟩ := renameOverwrite_loses held allowed partly (renameIfNotex_unknown held unknown step)
  rcases next with ⟨_, ended⟩ | ⟨isFalse, _⟩
  · obtain ⟨_, kept, revisions, checksums⟩ := statAndCreateLocal_frame ended
    exact ⟨fun name found => gone name (kept name file found), by rw [revisions, same], by rw [checksums, same]⟩
  · rw [isTrue] at isFalse
    cases isFalse

/-! The ways in which a download ends. -/

theorem complete_replaces (replaces : Replaces sha1hex dt target world completion) :
    complete sha1hex dt target calls world completion = renameAndCreateLocal sha1hex dt target calls world := by
  cases completion with
  | candidate =>
    rw [complete, foundCandidate, show getLocalFileChecksum sha1hex (world.disk.lookup dt.tmpname) = _ from replaces]
    exact if_pos ⟨rfl, rfl⟩
  | existing => exact replaces.elim
  | known => exact replaces.elim
  | copied rt => rw [show rt = .ok from replaces]; rfl
  | peer rt => rw [show rt = .ok from replaces]; rfl
  | threaded sameChecksum =>
    obtain ⟨rfl, going⟩ := replaces
    rw [complete, downloadRanges, if_neg (by simp [going])]
  | async error =>
    obtain ⟨rfl, going⟩ := replaces
    rw [complete, finishAsyncDownload, if_neg (by simp), if_neg going]
  | asyncExisting error =>
    obtain ⟨rfl, going⟩ := replaces
    rw [complete, finishAsyncDownloadExisting, if_neg (by decide), finishAsyncDownload, if_neg (by simp), if_neg going]

theorem complete_trusts (trusts : Trusts sha1hex dt target world completion) :
    complete sha1hex dt target calls world completion = some (statAndCreateLocal dt target calls world) := by
  cases completion with
  | existing =>
    rw [complete, foundExisting, show getLocalFileChecksum sha1hex (world.disk.lookup dt.localname) = _ from trusts]
    exact if_pos ⟨rfl, rfl⟩
  | known => exact if_pos trusts
  | asyncExisting error => exact if_pos trusts
  | candidate | copied | peer | threaded | async => exact trusts.elim

/-- A download that neither takes the place nor leaves it to the local file has not changed it. -/
theorem complete_neither (notReplaces : ¬Replaces sha1hex dt target world completion)
    (notTrusts : ¬Trusts sha1hex dt target world completion)
    (done : complete sha1hex dt target calls world completion = some (ok, after)) :
    after.disk.lookup dt.localname = world.disk.lookup dt.localname := by
  have notTmp : dt.localname ≠ dt.tmpname := tmpname_ne.symm
  cases completion with
  | candidate =>
    rw [complete, foundCandidate] at done
    split at done
    · cases done
    · cases done; rfl
    · next summed =>
      split at done
      · next fits => exact (notReplaces (by rw [Replaces, summed, fits.1, fits.2])).elim
      · cases done; rfl
  | existing =>
    rw [complete, foundExisting] at done
    split at done
    · cases done
    · cases done; rfl
    · next summed =>
      split at done
      · next fits => exact (notTrusts (by rw [Trusts, summed, fits.1, fits.2])).elim
      · cases done; rfl
  | known =>
    have changed : ¬(dt.localexists = true ∧ dt.localsize = target.size ∧ dt.checksum = target.checksum) := notTrusts
    rw [complete, downloadKnown, if_neg changed] at done
    cases done
    rfl
  | copied rt | peer rt =>
    cases rt with
    | ok => exact (notReplaces rfl).elim
    | permfail | tempfail => cases done; rfl
  | threaded sameChecksum =>
    rw [complete, downloadRanges] at done
    split at done
    · cases done
      split
      · exact lookup_pfileDelete notTmp
      · rfl
    · next going => exact (notReplaces (by grind [Replaces])).elim
  | async error =>
    rw [complete, finishAsyncDownload] at done
    split at done
    · cases done; rfl
    · next noError =>
      split at done
      · cases done
        exact lookup_pfileDelete notTmp
      · next going => exact (notReplaces ⟨not_not.mp noError, going⟩).elim
  | asyncExisting error =>
    have modified : error ≠ serverErrorNotMod := notTrusts
    rw [complete, finishAsyncDownloadExisting, if_neg modified] at done
    unfold finishAsyncDownload at done
    split at done
    · cases done; rfl
    · next noError =>
      split at done
      · cases done
        exact lookup_pfileDelete notTmp
      · next going => exact (notReplaces ⟨not_not.mp noError, going⟩).elim

theorem Replaces.not_trusts (replaces : Replaces sha1hex dt target world completion) :
    ¬Trusts sha1hex dt target world completion := by
  cases completion with
  | existing | known => exact replaces.elim
  | candidate | copied | peer | threaded | async => exact id
  | asyncExisting error =>
    obtain ⟨rfl, _⟩ := replaces
    simp [Trusts, serverErrorNotMod]

/-- A finished download leaves no local edit behind, except where it overwrites a file that it could not
judge or deletes one that has changed since. -/
theorem complete_safe (sha1hex : Bytes → Bytes) (dt : DownloadTask) (target : Target) (calls : Calls) (world after : World)
    (completion : Completion) (ok : Bool) (done : complete sha1hex dt target calls world completion = some (ok, after)) :
    Safe sha1hex dt target world after completion ok ↔
      ¬Overwrites sha1hex dt target calls world completion ∧ ¬Discards sha1hex dt target calls world completion := by
  by_cases replaces : Replaces sha1hex dt target world completion
  · rw [complete_replaces replaces] at done
    constructor
    · intro safe
      refine ⟨fun ⟨_, allowed, partly, file, held, unknown⟩ => ?_, fun discards => replaces.not_trusts discards.1⟩
      obtain ⟨gone, revisions, checksums⟩ := renameAndCreateLocal_loses held allowed partly unknown done
      rcases safe file held with (⟨there, _⟩ | ⟨num, _, there⟩) | (⟨_, readable, is⟩ | ⟨trusts, _⟩)
      · exact gone _ there
      · exact gone _ there
      · rcases unknown with unreadable | ⟨notRevision, _⟩
        · exact unreadable readable
        · exact notRevision (is.of_same revisions.symm checksums.symm)
      · exact replaces.not_trusts trusts
    · rintro ⟨notOverwrites, _⟩ file held
      cases renameAndCreateLocal_fate held done with
      | left failed there => exact .inl (.inl ⟨there, fun _ => failed⟩)
      | moved num free there => exact .inl (.inr ⟨num, free, there⟩)
      | revision readable is => exact .inr (.inl ⟨replaces, readable, is⟩)
      | lost allowed partly unknown => exact (notOverwrites ⟨replaces, allowed, partly, file, held, unknown⟩).elim
  · by_cases trusts : Trusts sha1hex dt target world completion
    · rw [complete_trusts trusts] at done
      have ended : statAndCreateLocal dt target calls world = (ok, after) := Option.some.inj done
      constructor
      · intro safe
        refine ⟨fun overwrites => replaces overwrites.1, fun ⟨_, stats, unlinks, unwanted, file, held, size, differ⟩ => ?_⟩
        have gone := statAndCreateLocal_local held ended
        rw [if_pos ⟨stats, unlinks, unwanted, size⟩] at gone
        rcases safe file held with (⟨there, _⟩ | ⟨num, _, there⟩) | (⟨also, _⟩ | ⟨_, same⟩)
        · exact gone _ there
        · exact gone _ there
        · exact replaces also
        · exact differ same
      · rintro ⟨_, notDiscards⟩ file held
        have kept := statAndCreateLocal_local held ended
        split at kept
        · next deletes =>
          by_cases same : sha1hex file.content = target.checksum
          · exact .inr (.inr ⟨trusts, same⟩)
          · exact (notDiscards ⟨trusts, deletes.1, deletes.2.1, deletes.2.2.1, file, held, deletes.2.2.2, same⟩).elim
        · exact .inl (.inl ⟨kept, fun also => (replaces also).elim⟩)
    · refine ⟨fun _ => ⟨fun overwrites => replaces overwrites.1, fun discards => trusts discards.1⟩, fun _ file held => ?_⟩
      exact .inl (.inl ⟨(complete_neither replaces trusts done).trans held, fun also => (replaces also).elim⟩)

end
/-! A file with one edited byte, which is known to nobody, and a download of another byte to its name. -/

def editSha1hex (_ : Bytes) : Bytes := "86f7e437faa5a7fce15d1ddcb9eaeaea377667b8".toList.map fun digit => digit.toNat.toUInt8

def editPass : Pass := ⟨some ⟨1, 5⟩, [some [97]], some ⟨1, 5⟩⟩

def editFile : LocalFile where
  inode := 7
  content := [97]
  opens := true
  passes := [editPass]
  settled := by
    intro pass member bytes size done
    rw [List.mem_singleton.mp member, show onePass editPass = .done [97] 1 from rfl] at done
    cases done
    rfl

def partFile : LocalFile where
  inode := 8
  content := [98]
  opens := true
  passes := []
  settled := by
    intro pass member
    cases member

def editTask : DownloadTask where
  fileid := 3
  syncid := 1
  localfolderid := 2
  localpath := ['/', 's']
  filename := ['a']
  localexists := true
  localsize := 1
  checksum := []
  stop := 0

def editTarget : Target := ⟨[], 1, 9⟩

def editDisk : Disk :=
  (Directory.empty.link editTask.tmpname partFile (fun _ found => by cases found)).link editTask.localname editFile (by
    intro name found
    rw [Directory.lookup_link] at found
    split at found
    · have same : partFile.inode = editFile.inode := congrArg LocalFile.inode (Option.some.inj found)
      cases same
    · cases found)

def editWorld : World where
  disk := editDisk
  tables := ⟨[], [], [⟨3, 4⟩], [], [4]⟩

/-- The server answers `listrevisions` with `result`. -/
def editCalls (answer : Answer) : Calls := ⟨answer, true, true, true, true, true, true⟩

theorem editWorld_local : editWorld.disk.lookup editTask.localname = some editFile := by
  rw [editWorld, editDisk, Directory.lookup_link, if_pos rfl]

theorem editWorld_part : editWorld.disk.lookup editTask.tmpname = some partFile := by
  rw [editWorld, editDisk, Directory.lookup_link, if_neg tmpname_ne, Directory.lookup_link, if_pos rfl]

theorem editFile_checksum : getLocalFileChecksum editSha1hex (some editFile) = some (.ok (editSha1hex [97]) 1) := rfl

/-- The server cannot be reached: the download fails, and the edit is safe. -/
theorem complete_safe_unreached :
    Safe editSha1hex editTask editTarget editWorld editWorld (.async 0) false := by
  have unasked : complete editSha1hex editTask editTarget (editCalls .noApi) editWorld (.async 0) = some (false, editWorld) := by
    have going : Replaces editSha1hex editTask editTarget editWorld (.async 0) := ⟨rfl, by decide⟩
    rw [complete_replaces going, renameAndCreateLocal, renameIfNotex, editWorld_local, editFile_checksum]
    rfl
  refine (complete_safe editSha1hex editTask editTarget (editCalls .noApi) editWorld editWorld (.async 0) false unasked).mpr
    ⟨?_, fun discards => discards.1⟩
  rintro ⟨_, _, _, file, held, unreadable | ⟨_, refused⟩⟩
  · rw [editWorld_local] at held
    cases held
    exact unreadable (by rw [Readable, editFile_checksum]; simp)
  · exact refused

/-- The server says that there is no such file, and the edit is gone. -/
theorem refused_overwrites :
    ∃ ok after, complete editSha1hex editTask editTarget (editCalls (.reply 2009 [] ⟨0, 0, 0, []⟩)) editWorld (.async 0) =
        some (ok, after) ∧
      ¬Safe editSha1hex editTask editTarget editWorld after (.async 0) ok := by
  have going : Replaces editSha1hex editTask editTarget editWorld (.async 0) := ⟨rfl, by decide⟩
  have refused : Refused (editCalls (.reply 2009 [] ⟨0, 0, 0, []⟩)).answer := ⟨by decide, rfl⟩
  have notRevision : ¬IsRevision editSha1hex editTask editWorld.tables editFile.content := by
    rintro (empty | ⟨f, listed, _⟩)
    · cases empty
    · cases listed
  have partly : (editWorld.disk.lookup editTask.tmpname).isSome = true := by rw [editWorld_part]; rfl
  obtain ⟨mid, works⟩ : ∃ mid, renameOverwrite editTask (editCalls (.reply 2009 [] ⟨0, 0, 0, []⟩)) editWorld = (true, mid) :=
    renameOverwrite_works rfl partly
  have asked := isRevisionOfFile_refused notRevision refused
  have done : renameAndCreateLocal editSha1hex editTask editTarget (editCalls (.reply 2009 [] ⟨0, 0, 0, []⟩)) editWorld =
      some (statAndCreateLocal editTask editTarget (editCalls (.reply 2009 [] ⟨0, 0, 0, []⟩)) mid) := by
    rw [renameAndCreateLocal, renameIfNotex, editWorld_local, editFile_checksum]
    dsimp only
    rw [show isRevisionOfFile (editSha1hex [97]) 1 editTask.fileid _ editWorld.tables = _ from asked]
    dsimp only
    rw [show ({ editWorld with tables := editWorld.tables } : World) = editWorld from rfl, works]
    rfl
  refine ⟨_, _, (complete_replaces going).trans done, fun safe => ?_⟩
  obtain ⟨gone, revisions, checksums⟩ :=
    renameAndCreateLocal_loses editWorld_local rfl partly (.inr ⟨notRevision, refused⟩) done
  rcases safe editFile editWorld_local with (⟨there, _⟩ | ⟨num, _, there⟩) | (⟨_, _, is⟩ | ⟨trusts, _⟩)
  · exact gone _ there
  · exact gone _ there
  · exact notRevision (is.of_same revisions.symm checksums.symm)
  · exact going.not_trusts trusts

end Pclsync.Proofs.Finish
