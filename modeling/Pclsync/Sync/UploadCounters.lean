import Mathlib

/-! The counters of the uploads that run. Uploads of syncs change them under one mutex and uploads of the drive under another
one, so that two changes can happen at once. -/

namespace Pclsync.Sync.UploadCounters

/-- `PSYNC_MAX_PARALLEL_UPLOADS` -/
abbrev maxParallelUploads : ℕ := 32

/-- `PSYNC_START_NEW_UPLOADS_TRESHOLD` -/
abbrev startNewUploadsTreshold : ℕ := 512 * 1024

/-- A `uint64_t`. -/
abbrev u64 : ℕ := 2 ^ 64

/-- A `uint32_t`. -/
abbrev u32 : ℕ := 2 ^ 32

@[irreducible] def sub64 (a b : ℕ) : ℕ := (a + (u64 - b)) % u64

@[irreducible] def sub32 (a b : ℕ) : ℕ := (a + (u32 - b)) % u32

/-- The counters in `psync_status`. -/
structure Counters where
  bytestouploadcurrent : ℕ
  bytesuploaded : ℕ
  filesuploading : ℕ
deriving DecidableEq, Repr

section Sections

variable (c : Counters)

/-- What is done under `current_uploads_mutex`. -/
inductive SyncSection
  | start (filesize : ℕ)
  | add (bytes : ℕ)
  | resize (filesize fsize : ℕ)
  | finish (filesize uploaded : ℕ)

/-- What is done under `upload_mutex`. -/
inductive DriveSection
  | inc
  | dec
  | add (bytes : ℕ)
  | sub (bytes : ℕ)

def SyncSection.apply : SyncSection → Counters
  | .start filesize => { c with bytestouploadcurrent := (c.bytestouploadcurrent + filesize) % u64, filesuploading := (c.filesuploading + 1) % u32 }
  | .add bytes => { c with bytesuploaded := (c.bytesuploaded + bytes) % u64 }
  | .resize filesize fsize => { c with bytestouploadcurrent := (sub64 c.bytestouploadcurrent filesize + fsize) % u64 }
  | .finish filesize uploaded =>
    let c := ⟨sub64 c.bytestouploadcurrent filesize, sub64 c.bytesuploaded uploaded, sub32 c.filesuploading 1⟩
    if c.filesuploading = 0 then { c with bytesuploaded := 0, bytestouploadcurrent := 0 } else c

def DriveSection.apply : DriveSection → Counters
  | .inc => { c with filesuploading := (c.filesuploading + 1) % u32 }
  | .dec => { c with filesuploading := sub32 c.filesuploading 1 }
  | .add bytes => { c with bytesuploaded := (c.bytesuploaded + bytes) % u64 }
  | .sub bytes => { c with bytesuploaded := sub64 c.bytesuploaded bytes }

/-- A counter is made smaller than zero. -/
def SyncSection.underflows : SyncSection → Bool
  | .start _ | .add _ => false
  | .resize filesize _ => c.bytestouploadcurrent < filesize
  | .finish filesize uploaded => c.bytestouploadcurrent < filesize || c.bytesuploaded < uploaded || c.filesuploading < 1

def DriveSection.underflows : DriveSection → Bool
  | .inc | .add _ => false
  | .dec => c.filesuploading < 1
  | .sub bytes => c.bytesuploaded < bytes

/-- The change that is lost when two sections are run at once. -/
inductive Lost
  | sync
  | drive

/-- Both sections read the counter that the drive changes before either of them has written it. -/
def atOnce (sync : SyncSection) (drive : DriveSection) (lost : Lost) : Counters :=
  match lost, drive, sync with
  | .sync, .inc, _ | .sync, .dec, _ => { sync.apply c with filesuploading := (drive.apply c).filesuploading }
  | .sync, .add _, _ | .sync, .sub _, _ => { sync.apply c with bytesuploaded := (drive.apply c).bytesuploaded }
  | .drive, .inc, .start _ | .drive, .inc, .finish _ _ | .drive, .dec, .start _ | .drive, .dec, .finish _ _ => sync.apply c
  | .drive, .add _, .add _ | .drive, .add _, .finish _ _ | .drive, .sub _, .add _ | .drive, .sub _, .finish _ _ => sync.apply c
  | .drive, _, _ => sync.apply (drive.apply c)

end Sections

section Uploads

/-- `upload_list_t` of an upload that runs. -/
structure SyncUpload where
  filesize : ℕ
  uploaded : ℕ
deriving DecidableEq, Repr

/-- The upload that `task_run_uploadfile` is to start. -/
structure Waiting where
  filesize : ℕ
  stop : Bool
  asleep : Bool
deriving DecidableEq, Repr

/-- An upload of the drive, with `asize`. -/
structure DriveUpload where
  asize : ℕ
deriving DecidableEq, Repr

structure State where
  counters : Counters
  uploads : List SyncUpload
  waiting : Option Waiting
  drives : List DriveUpload
  underflow : Bool
deriving DecidableEq, Repr

def State.init : State := ⟨⟨0, 0, 0⟩, [], none, [], false⟩

/-- The condition on which `task_run_uploadfile` waits. -/
def Blocked (c : Counters) : Prop :=
  c.filesuploading ≥ maxParallelUploads ∨ sub64 c.bytestouploadcurrent c.bytesuploaded > startNewUploadsTreshold

instance (c : Counters) : Decidable (Blocked c) := inferInstanceAs (Decidable (_ ∨ _))

variable (s : State)

def State.applySync (change : SyncSection) : State :=
  { s with counters := change.apply s.counters, underflow := s.underflow || change.underflows s.counters }

def State.applyDrive (change : DriveSection) : State :=
  { s with counters := change.apply s.counters, underflow := s.underflow || change.underflows s.counters }

@[simp] theorem State.applySync_counters (change : SyncSection) : (s.applySync change).counters = change.apply s.counters := rfl

@[simp] theorem State.applySync_underflow (change : SyncSection) :
    (s.applySync change).underflow = (s.underflow || change.underflows s.counters) := rfl

@[simp] theorem State.applyDrive_counters (change : DriveSection) : (s.applyDrive change).counters = change.apply s.counters := rfl

@[simp] theorem State.applyDrive_underflow (change : DriveSection) :
    (s.applyDrive change).underflow = (s.underflow || change.underflows s.counters) := rfl

@[simp] theorem State.applySync_uploads (change : SyncSection) : (s.applySync change).uploads = s.uploads := rfl

@[simp] theorem State.applySync_drives (change : SyncSection) : (s.applySync change).drives = s.drives := rfl

@[simp] theorem State.applySync_waiting (change : SyncSection) : (s.applySync change).waiting = s.waiting := rfl

@[simp] theorem State.applyDrive_uploads (change : DriveSection) : (s.applyDrive change).uploads = s.uploads := rfl

@[simp] theorem State.applyDrive_drives (change : DriveSection) : (s.applyDrive change).drives = s.drives := rfl

@[simp] theorem State.applyDrive_waiting (change : DriveSection) : (s.applyDrive change).waiting = s.waiting := rfl

/-- The upload that waits wakes up. -/
def State.signal : State := { s with waiting := s.waiting.map fun w => { w with asleep := false } }

/-- `wake_upload_when_ready` -/
def wakeUploadWhenReady : State := if Blocked s.counters then s else s.signal

/-- `task_run_uploadfile` once it has the mutex. -/
def start (w : Waiting) : State :=
  if w.stop then { s with waiting := none }
  else if Blocked s.counters then { s with waiting := some { w with asleep := true } }
  else { s.applySync (.start w.filesize) with uploads := s.uploads ++ [⟨w.filesize, 0⟩], waiting := none }

/-- What the uploads of syncs do. -/
inductive SyncEvent
  /-- `task_run_uploadfile` is called. -/
  | arrive (filesize : ℕ)
  /-- It is woken up, or wakes up by itself. -/
  | retry
  /-- `pupload_del_tasks`, `pupload_stop_sync` and `pupload_stop_all`. -/
  | stop
  /-- `add_bytes_uploaded` for a part of a file, for a range or for what is there already. -/
  | progress (which bytes : ℕ)
  /-- `task_uploadfile` finds another size. -/
  | resize (which fsize : ℕ)
  /-- The end of `task_run_upload_file_thread`. -/
  | finish (which : ℕ)

/-- `pupload_inc`, `pupload_dec`, `pupload_bytes_add`, `pupload_bytes_sub` -/
inductive DriveEvent
  | inc
  | dec (which : ℕ)
  | add (which bytes : ℕ)
  | sub (which : ℕ)

def syncStep : SyncEvent → State
  | .arrive filesize => if s.waiting = none then start s ⟨filesize, false, false⟩ else s
  | .retry => (s.waiting.map (start s)).getD s
  | .stop => { s with waiting := s.waiting.map fun w => { w with stop := true } }
  | .progress which bytes =>
    match s.uploads[which]? with
    | none => s
    | some u => wakeUploadWhenReady { s.applySync (.add bytes) with uploads := s.uploads.set which { u with uploaded := u.uploaded + bytes } }
  | .resize which fsize =>
    match s.uploads[which]? with
    | none => s
    | some u => { s.applySync (.resize u.filesize fsize) with uploads := s.uploads.set which { u with filesize := fsize } }
  | .finish which =>
    match s.uploads[which]? with
    | none => s
    | some u => wakeUploadWhenReady { s.applySync (.finish u.filesize u.uploaded) with uploads := s.uploads.eraseIdx which }

/-- The end of an upload of the drive. -/
def endDrive (which : ℕ) : State := { s.applyDrive .dec with drives := s.drives.eraseIdx which }

/-- The uploads of the drive take back what they added before they end. -/
def driveStep : DriveEvent → State
  | .inc => { s.applyDrive .inc with drives := s.drives ++ [⟨0⟩] }
  | .dec which =>
    match s.drives[which]? with
    | none => s
    | some d =>
      if d.asize ≠ 0 then s
      else if (endDrive s which).counters.filesuploading = 0 then (endDrive s which).signal
      else endDrive s which
  | .add which bytes =>
    match s.drives[which]? with
    | none => s
    | some d => { s.applyDrive (.add bytes) with drives := s.drives.set which ⟨d.asize + bytes⟩ }
  | .sub which =>
    match s.drives[which]? with
    | none => s
    | some d => { s.applyDrive (.sub d.asize) with drives := s.drives.set which ⟨0⟩ }

/-- The section that a step runs. -/
def syncSectionOf : SyncEvent → Option SyncSection
  | .arrive filesize => if s.waiting = none ∧ ¬Blocked s.counters then some (.start filesize) else none
  | .retry => s.waiting.bind fun w => if w.stop = false ∧ ¬Blocked s.counters then some (.start w.filesize) else none
  | .stop => none
  | .progress which bytes => s.uploads[which]?.map fun _ => .add bytes
  | .resize which fsize => s.uploads[which]?.map fun u => .resize u.filesize fsize
  | .finish which => s.uploads[which]?.map fun u => .finish u.filesize u.uploaded

def driveSectionOf : DriveEvent → Option DriveSection
  | .inc => some .inc
  | .dec which => s.drives[which]?.bind fun d => if d.asize = 0 then some .dec else none
  | .add which bytes => s.drives[which]?.map fun _ => .add bytes
  | .sub which => s.drives[which]?.map fun d => .sub d.asize

inductive Event
  | sync (event : SyncEvent)
  | drive (event : DriveEvent)
  | both (sync : SyncEvent) (drive : DriveEvent) (lost : Lost)

/-- One step. Where two steps are made at once, only the counters differ from those of one after the other. -/
def step : Event → State
  | .sync event => syncStep s event
  | .drive event => driveStep s event
  | .both sync drive lost =>
    match syncSectionOf s sync, driveSectionOf s drive with
    | some first, some second => { driveStep (syncStep s sync) drive with counters := atOnce s.counters first second lost }
    | _, _ => driveStep (syncStep s sync) drive

end Uploads

end Pclsync.Sync.UploadCounters
