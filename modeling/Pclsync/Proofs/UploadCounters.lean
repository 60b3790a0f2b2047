import Mathlib.Tactic.Common
import Pclsync.Sync.UploadCounters

/-! When the counters of the uploads that run are the sums over these uploads, in every order of their steps. -/

namespace Pclsync.Proofs.UploadCounters
open Sync.UploadCounters

section Sums

/-- The list around one of its members. -/
theorem exists_split {α : Type} {list : List α} {which : ℕ} {member : α} (there : list[which]? = some member) :
    ∃ front back, list = front ++ member :: back ∧ (∀ other, list.set which other = front ++ other :: back) ∧
      list.eraseIdx which = front ++ back := by
  obtain ⟨inside, rfl⟩ := List.getElem?_eq_some_iff.mp there
  refine ⟨list.take which, list.drop (which + 1), ?_, fun other => ?_, ?_⟩
  · rw [← List.drop_eq_getElem_cons inside, List.take_append_drop]
  · rw [List.set_eq_take_append_cons_drop, if_pos inside]
  · exact List.eraseIdx_eq_take_drop_succ _ _

theorem sum_set {α : Type} {list : List α} {which : ℕ} {member : α} (there : list[which]? = some member) (other : α) (weight : α → ℕ) :
    ((list.set which other).map weight).sum + weight member = (list.map weight).sum + weight other := by
  obtain ⟨front, back, whole, replaced, _⟩ := exists_split there
  rw [replaced other, whole]
  simp only [List.map_append, List.map_cons, List.sum_append, List.sum_cons]
  omega

theorem sum_erase {α : Type} {list : List α} {which : ℕ} {member : α} (there : list[which]? = some member) (weight : α → ℕ) :
    ((list.eraseIdx which).map weight).sum + weight member = (list.map weight).sum := by
  obtain ⟨front, back, whole, _, erased⟩ := exists_split there
  rw [erased, whole]
  simp only [List.map_append, List.map_cons, List.sum_append, List.sum_cons]
  omega

theorem length_erase {α : Type} {list : List α} {which : ℕ} {member : α} (there : list[which]? = some member) :
    (list.eraseIdx which).length + 1 = list.length := by
  obtain ⟨front, back, whole, _, erased⟩ := exists_split there
  rw [erased, whole]
  simp only [List.length_append, List.length_cons]
  omega

variable (s : State)

/-- The sizes of the files of the uploads of syncs. -/
def sizes : ℕ := (s.uploads.map (·.filesize)).sum

/-- What they have sent. -/
def sent : ℕ := (s.uploads.map (·.uploaded)).sum

/-- What they have left to send. -/
def left : ℕ := (s.uploads.map fun u => u.filesize - u.uploaded).sum

/-- What the uploads of the drive have counted. -/
def counted : ℕ := (s.drives.map (·.asize)).sum

/-- How many uploads run. -/
def running : ℕ := s.uploads.length + s.drives.length

variable {s}

theorem sizes_eq (each : ∀ u ∈ s.uploads, u.uploaded ≤ u.filesize) : sizes s = sent s + left s := by
  unfold sizes sent left
  generalize s.uploads = uploads at each
  induction uploads with
  | nil => rfl
  | cons u uploads ih =>
    have first := each u List.mem_cons_self
    have rest := ih fun other inside => each other (List.mem_cons_of_mem _ inside)
    simp only [List.map_cons, List.sum_cons]
    omega

end Sums

section Property

variable (s : State)

/-- The counters are as the claim has them: what was sent is within what is to be sent, nothing went below zero, the files are
the uploads that run, all is zero when none does, and an upload that waits has a reason. -/
structure Accounted : Prop where
  within : s.counters.bytesuploaded ≤ s.counters.bytestouploadcurrent
  nonnegative : s.underflow = false
  files : s.counters.filesuploading = running s
  idle : running s = 0 → s.counters = ⟨0, 0, 0⟩
  gate : Blocked s.counters ↔
    maxParallelUploads ≤ s.counters.filesuploading ∨ startNewUploadsTreshold < s.counters.bytestouploadcurrent - s.counters.bytesuploaded
  awake : ∀ w ∈ s.waiting, w.asleep = true → Blocked s.counters

/-- An upload that waits has a reason if there were this many uploads with this many bytes left. -/
def Waits (files left counted : ℕ) : Prop :=
  ∀ w ∈ s.waiting, w.asleep = true → maxParallelUploads ≤ files ∨ startNewUploadsTreshold + counted < left

/-- The uploads that run do not count more than there is: an upload of a sync counts no more than its file, and what the uploads
of the drive have counted is left to the uploads of syncs. -/
def SyncFits : SyncEvent → Prop
  | .arrive filesize => sizes s + filesize < u64
  | .retry => ∀ w ∈ s.waiting, sizes s + w.filesize < u64
  | .stop => True
  | .progress which bytes => ∀ u ∈ s.uploads[which]?, u.uploaded + bytes ≤ u.filesize ∧ counted s + bytes ≤ left s
  | .resize which fsize => ∀ u ∈ s.uploads[which]?, u.uploaded ≤ fsize ∧ sizes s + fsize < u64 + u.filesize ∧
      counted s + (u.filesize - u.uploaded) ≤ left s + (fsize - u.uploaded) ∧
      Waits s (running s) (left s + (fsize - u.uploaded)) (counted s + (u.filesize - u.uploaded))
  | .finish which => ∀ u ∈ s.uploads[which]?, counted s + (u.filesize - u.uploaded) ≤ left s

def DriveFits : DriveEvent → Prop
  | .inc => running s + 1 < u32
  | .dec _ => running s = 1 ∨ Waits s (running s - 1) (left s) (counted s)
  | .add _ bytes => counted s + bytes ≤ left s ∧ Waits s (running s) (left s) (counted s + bytes)
  | .sub _ => True

def Fits : Event → Prop
  | .sync event => SyncFits s event
  | .drive event => DriveFits s event
  | .both _ _ _ => False

/-- The counters are the sums. -/
structure Summed : Prop where
  current : s.counters.bytestouploadcurrent = sizes s
  uploaded : s.counters.bytesuploaded = sent s + counted s
  files : s.counters.filesuploading = running s
  each : ∀ u ∈ s.uploads, u.uploaded ≤ u.filesize
  covered : counted s ≤ left s
  small : sizes s < u64
  few : running s < u32
  nonnegative : s.underflow = false

/-- The invariant of a run. -/
structure Inv : Prop extends Summed s where
  awake : Waits s (running s) (left s) (counted s)

end Property

section Steps

variable {s : State}

theorem sub64_of_le {a b : ℕ} (small : a < u64) (below : b ≤ a) : sub64 a b = a - b := by
  have sixtyFour : u64 = 2 ^ 64 := rfl
  unfold sub64
  rw [sixtyFour] at small ⊢
  omega

theorem sub32_of_le {a b : ℕ} (small : a < u32) (below : b ≤ a) : sub32 a b = a - b := by
  have thirtyTwo : u32 = 2 ^ 32 := rfl
  unfold sub32
  rw [thirtyTwo] at small ⊢
  omega

theorem Summed.gate (summed : Summed s) :
    Blocked s.counters ↔ maxParallelUploads ≤ running s ∨ startNewUploadsTreshold + counted s < left s := by
  have total := sizes_eq summed.each
  have covered := summed.covered
  unfold Blocked
  rw [summed.files, summed.current, summed.uploaded, sub64_of_le summed.small (by omega)]
  have treshold : startNewUploadsTreshold = 524288 := rfl
  rw [treshold]
  omega

theorem Inv.accounted (inv : Inv s) : Accounted s := by
  have total := sizes_eq inv.each
  have covered := inv.covered
  have reason := inv.gate
  refine ⟨?_, inv.nonnegative, inv.files, fun none => ?_, ?_, fun w waits asleep => reason.mpr (inv.awake w waits asleep)⟩
  · rw [inv.current, inv.uploaded]
    omega
  · have uploads : s.uploads = [] := List.eq_nil_of_length_eq_zero (by unfold running at none; omega)
    have drives : s.drives = [] := List.eq_nil_of_length_eq_zero (by unfold running at none; omega)
    have current := inv.current
    have uploaded := inv.uploaded
    have files := inv.files
    unfold sizes at current
    unfold sent counted at uploaded
    rw [uploads] at current uploaded
    rw [drives] at uploaded
    rw [none] at files
    cases counters : s.counters
    rw [counters] at current uploaded files
    simp_all
  · rw [reason, inv.current, inv.uploaded, inv.files]
    omega

/-- What the sums are after an upload of a sync is replaced. -/
theorem sums_of_set {t : State} {which : ℕ} {u v : SyncUpload} (there : s.uploads[which]? = some u) (uploads : t.uploads = s.uploads.set which v)
    (drives : t.drives = s.drives) :
    sizes t + u.filesize = sizes s + v.filesize ∧ sent t + u.uploaded = sent s + v.uploaded ∧
      left t + (u.filesize - u.uploaded) = left s + (v.filesize - v.uploaded) ∧ counted t = counted s ∧ running t = running s := by
  unfold sizes sent left counted running
  rw [uploads, drives, List.length_set]
  exact ⟨sum_set there v (·.filesize), sum_set there v (·.uploaded), sum_set there v fun u => u.filesize - u.uploaded, rfl, rfl⟩

theorem sums_of_erase {t : State} {which : ℕ} {u : SyncUpload} (there : s.uploads[which]? = some u) (uploads : t.uploads = s.uploads.eraseIdx which)
    (drives : t.drives = s.drives) :
    sizes t + u.filesize = sizes s ∧ sent t + u.uploaded = sent s ∧ left t + (u.filesize - u.uploaded) = left s ∧ counted t = counted s ∧
      running t + 1 = running s := by
  have length := length_erase there
  unfold sizes sent left counted running
  rw [uploads, drives]
  exact ⟨sum_erase there (·.filesize), sum_erase there (·.uploaded), sum_erase there fun u => u.filesize - u.uploaded, rfl, by omega⟩

/-- What the sums are after an upload of the drive changes. -/
theorem sums_of_drives {t : State} (uploads : t.uploads = s.uploads) :
    sizes t = sizes s ∧ sent t = sent s ∧ left t = left s ∧ running t = s.uploads.length + t.drives.length := by
  unfold sizes sent left running
  rw [uploads]
  exact ⟨rfl, rfl, rfl, rfl⟩

variable {t : State}

theorem Summed.start {filesize : ℕ} (summed : Summed s) (fits : sizes s + filesize < u64) (free : ¬Blocked s.counters)
    (uploads : t.uploads = s.uploads ++ [⟨filesize, 0⟩]) (drives : t.drives = s.drives)
    (counters : t.counters = (SyncSection.start filesize).apply s.counters) (underflow : t.underflow = s.underflow) : Summed t := by
  have one : running s < 32 := by
    rw [← summed.files]
    exact Nat.not_le.mp fun more => free (Or.inl more)
  have thirtyTwo : u32 = 2 ^ 32 := rfl
  have sums : sizes t = sizes s + filesize ∧ sent t = sent s ∧ left t = left s + filesize ∧ counted t = counted s ∧ running t = running s + 1 := by
    unfold sizes sent left counted running
    rw [uploads, drives]
    simp only [List.map_append, List.map_cons, List.map_nil, List.sum_append, List.sum_cons, List.sum_nil, List.length_append, List.length_cons,
      List.length_nil, Nat.add_zero, Nat.sub_zero]
    exact ⟨trivial, trivial, trivial, trivial, by omega⟩
  obtain ⟨sizes, sent, left, counted, running⟩ := sums
  have covered := summed.covered
  refine ⟨?_, ?_, ?_, ?_, by omega, by omega, by omega, underflow.trans summed.nonnegative⟩
  · rw [counters, sizes]
    exact (congrArg (fun sum => (sum + filesize) % u64) summed.current).trans (Nat.mod_eq_of_lt fits)
  · rw [counters, sent, counted]
    exact summed.uploaded
  · rw [counters, running]
    exact (congrArg (fun sum => (sum + 1) % u32) summed.files).trans (Nat.mod_eq_of_lt (by omega))
  · rw [uploads]
    intro u inside
    rw [List.mem_append, List.mem_singleton] at inside
    obtain before | rfl := inside
    · exact summed.each u before
    · exact Nat.zero_le _

theorem Summed.progress {which bytes : ℕ} {u : SyncUpload} (summed : Summed s) (there : s.uploads[which]? = some u)
    (within : u.uploaded + bytes ≤ u.filesize) (fits : counted s + bytes ≤ left s)
    (uploads : t.uploads = s.uploads.set which { u with uploaded := u.uploaded + bytes }) (drives : t.drives = s.drives)
    (counters : t.counters = (SyncSection.add bytes).apply s.counters) (underflow : t.underflow = s.underflow) : Summed t := by
  obtain ⟨sizes, sent, left, counted, running⟩ := sums_of_set there uploads drives
  have total := sizes_eq summed.each
  have covered := summed.covered
  have small := summed.small
  have few := summed.few
  dsimp only at sizes sent left
  refine ⟨?_, ?_, ?_, ?_, by omega, by omega, by omega, underflow.trans summed.nonnegative⟩
  · rw [counters]
    exact summed.current.trans (by omega)
  · rw [counters]
    refine (congrArg (fun sum => (sum + bytes) % u64) summed.uploaded).trans ((Nat.mod_eq_of_lt ?_).trans ?_) <;> omega
  · rw [counters, running]
    exact summed.files
  · rw [uploads]
    intro v inside
    obtain before | rfl := List.mem_or_eq_of_mem_set inside
    · exact summed.each v before
    · exact within

theorem Summed.resize {which fsize : ℕ} {u : SyncUpload} (summed : Summed s) (there : s.uploads[which]? = some u) (within : u.uploaded ≤ fsize)
    (fits : sizes s + fsize < u64 + u.filesize) (covered : counted s + (u.filesize - u.uploaded) ≤ left s + (fsize - u.uploaded))
    (uploads : t.uploads = s.uploads.set which { u with filesize := fsize }) (drives : t.drives = s.drives)
    (counters : t.counters = (SyncSection.resize u.filesize fsize).apply s.counters)
    (underflow : t.underflow = (s.underflow || (SyncSection.resize u.filesize fsize).underflows s.counters)) : Summed t := by
  obtain ⟨sizes, sent, left, counted, running⟩ := sums_of_set there uploads drives
  have total := sizes_eq summed.each
  have small := summed.small
  have few := summed.few
  have own := summed.each u (List.mem_of_getElem? there)
  dsimp only at sizes sent left
  have below : u.filesize ≤ UploadCounters.sizes s := by
    have := sum_erase there fun u : SyncUpload => u.filesize
    unfold UploadCounters.sizes
    omega
  refine ⟨?_, ?_, ?_, ?_, by omega, by omega, by omega, ?_⟩
  · rw [counters]
    refine (congrArg (fun sum => (sub64 sum u.filesize + fsize) % u64) summed.current).trans ?_
    rw [sub64_of_le small below]
    refine (Nat.mod_eq_of_lt ?_).trans ?_ <;> omega
  · rw [counters]
    exact summed.uploaded.trans (by omega)
  · rw [counters, running]
    exact summed.files
  · rw [uploads]
    intro v inside
    obtain before | rfl := List.mem_or_eq_of_mem_set inside
    · exact summed.each v before
    · exact within
  · rw [underflow, summed.nonnegative, Bool.false_or]
    refine decide_eq_false ?_
    rw [summed.current]
    omega

theorem Summed.finish {which : ℕ} {u : SyncUpload} (summed : Summed s) (there : s.uploads[which]? = some u)
    (fits : counted s + (u.filesize - u.uploaded) ≤ left s) (uploads : t.uploads = s.uploads.eraseIdx which) (drives : t.drives = s.drives)
    (counters : t.counters = (SyncSection.finish u.filesize u.uploaded).apply s.counters)
    (underflow : t.underflow = (s.underflow || (SyncSection.finish u.filesize u.uploaded).underflows s.counters)) : Summed t := by
  obtain ⟨sizes, sent, left, counted, running⟩ := sums_of_erase there uploads drives
  have total := sizes_eq summed.each
  have covered := summed.covered
  have small := summed.small
  have few := summed.few
  have own := summed.each u (List.mem_of_getElem? there)
  have current := summed.current
  have uploaded := summed.uploaded
  have files := summed.files
  have each : ∀ v ∈ t.uploads, v.uploaded ≤ v.filesize := by
    rw [uploads]
    exact fun v inside => summed.each v (List.mem_of_mem_eraseIdx inside)
  have applied : t.counters = ⟨UploadCounters.sizes t, UploadCounters.sent t + UploadCounters.counted t, UploadCounters.running t⟩ := by
    have first : sub64 s.counters.bytestouploadcurrent u.filesize = UploadCounters.sizes t := by
      rw [sub64_of_le (by omega) (by omega)]
      omega
    have second : sub64 s.counters.bytesuploaded u.uploaded = UploadCounters.sent t + UploadCounters.counted t := by
      rw [sub64_of_le (by omega) (by omega)]
      omega
    have third : sub32 s.counters.filesuploading 1 = UploadCounters.running t := by
      rw [sub32_of_le (by omega) (by omega)]
      omega
    rw [counters]
    unfold SyncSection.apply
    dsimp only
    rw [first, second, third]
    split
    · rename_i none
      have noUploads : t.uploads = [] := List.eq_nil_of_length_eq_zero (by unfold UploadCounters.running at none; omega)
      have noDrives : t.drives = [] := List.eq_nil_of_length_eq_zero (by unfold UploadCounters.running at none; omega)
      have zeros : UploadCounters.sizes t = 0 ∧ UploadCounters.sent t + UploadCounters.counted t = 0 := by
        unfold UploadCounters.sizes UploadCounters.sent UploadCounters.counted
        rw [noUploads, noDrives]
        exact ⟨rfl, rfl⟩
      rw [zeros.1, zeros.2]
    · rfl
  refine ⟨?_, ?_, ?_, each, by omega, by omega, by omega, ?_⟩
  · rw [applied]
  · rw [applied]
  · rw [applied]
  · rw [underflow, summed.nonnegative, Bool.false_or]
    simp only [SyncSection.underflows, Bool.or_eq_false_iff, decide_eq_false_iff_not]
    omega

/-- A step of the drive that changes neither the uploads of syncs nor the number that it gives. -/
theorem Summed.drive {bytes files : ℕ} (summed : Summed s) (uploads : t.uploads = s.uploads) (covered : counted t ≤ left s) (few : running t < u32)
    (counters : t.counters = ⟨s.counters.bytestouploadcurrent, bytes, files⟩) (uploaded : bytes = sent s + counted t) (number : files = running t)
    (nonnegative : t.underflow = false) : Summed t := by
  obtain ⟨sizes, sent, left, _⟩ := sums_of_drives uploads
  have small := summed.small
  refine ⟨?_, ?_, ?_, ?_, by omega, by omega, few, nonnegative⟩
  · rw [counters, sizes]
    exact summed.current
  · rw [counters, sent]
    exact uploaded
  · rw [counters]
    exact number
  · rw [uploads]
    exact summed.each

theorem Summed.signal (summed : Summed s) : Summed s.signal :=
  ⟨summed.current, summed.uploaded, summed.files, summed.each, summed.covered, summed.small, summed.few, summed.nonnegative⟩

theorem waits_signal (files left counted : ℕ) : Waits s.signal files left counted := by
  intro w waits asleep
  obtain ⟨before, _, rfl⟩ := Option.map_eq_some_iff.mp waits
  cases asleep

/-- After the upload that waits was woken up if it can go on, it has a reason to wait. -/
theorem Summed.wake (summed : Summed s) : Inv (wakeUploadWhenReady s) := by
  unfold wakeUploadWhenReady
  split
  · rename_i blocked
    exact ⟨summed, fun _ _ _ => summed.gate.mp blocked⟩
  · exact ⟨summed.signal, waits_signal _ _ _⟩

theorem Inv.start {w : Waiting} (inv : Inv s) (fits : sizes s + w.filesize < u64) : Inv (Sync.UploadCounters.start s w) := by
  have kept : ∀ waiting : Option Waiting, Summed { s with waiting := waiting } := fun waiting =>
    ⟨inv.current, inv.uploaded, inv.files, inv.each, inv.covered, inv.small, inv.few, inv.nonnegative⟩
  unfold Sync.UploadCounters.start
  split
  · refine ⟨kept none, fun w waits => ?_⟩
    cases waits
  · split
    · rename_i blocked
      exact ⟨kept _, fun _ _ _ => inv.gate.mp blocked⟩
    · rename_i free
      refine ⟨inv.toSummed.start fits free rfl rfl rfl ?_, fun w waits => ?_⟩
      · exact Bool.or_false _
      · cases waits

/-- A step of the uploads of syncs keeps the invariant. -/
theorem sync_inv (event : SyncEvent) (inv : Inv s) (fits : SyncFits s event) : Inv (syncStep s event) := by
  cases event with
  | arrive filesize =>
    unfold syncStep
    dsimp only
    split
    · exact inv.start fits
    · exact inv
  | retry =>
    unfold syncStep
    dsimp only
    cases waiting : s.waiting with
    | none => exact inv
    | some w => exact inv.start (fits w waiting)
  | stop =>
    refine ⟨⟨inv.current, inv.uploaded, inv.files, inv.each, inv.covered, inv.small, inv.few, inv.nonnegative⟩, fun w waits asleep => ?_⟩
    obtain ⟨before, waiting, rfl⟩ := Option.map_eq_some_iff.mp waits
    exact inv.awake before waiting asleep
  | progress which bytes =>
    unfold syncStep
    dsimp only
    cases there : s.uploads[which]? with
    | none => exact inv
    | some u =>
      obtain ⟨within, covered⟩ := fits u there
      refine Summed.wake ?_
      exact inv.toSummed.progress there within covered rfl rfl rfl (Bool.or_false _)
  | resize which fsize =>
    unfold syncStep
    dsimp only
    cases there : s.uploads[which]? with
    | none => exact inv
    | some u =>
      obtain ⟨within, small, covered, awake⟩ := fits u there
      dsimp only
      generalize equal : ({ s.applySync (.resize u.filesize fsize) with uploads := s.uploads.set which { u with filesize := fsize } } : State) = t
      have uploads : t.uploads = s.uploads.set which { u with filesize := fsize } := (congrArg State.uploads equal).symm
      have drives : t.drives = s.drives := by rw [← equal, State.applySync_drives]
      have waiting : t.waiting = s.waiting := by rw [← equal, State.applySync_waiting]
      obtain ⟨_, _, leftSum, countedSum, runningSum⟩ := sums_of_set there uploads drives
      refine ⟨inv.toSummed.resize there within small covered uploads drives (by rw [← equal]; rfl) (by rw [← equal]; rfl), ?_⟩
      intro w waits asleep
      rw [waiting] at waits
      have reason := awake w waits asleep
      dsimp only at leftSum
      omega
  | finish which =>
    unfold syncStep
    dsimp only
    cases there : s.uploads[which]? with
    | none => exact inv
    | some u =>
      refine Summed.wake ?_
      generalize equal : ({ s.applySync (.finish u.filesize u.uploaded) with uploads := s.uploads.eraseIdx which } : State) = t
      have uploads : t.uploads = s.uploads.eraseIdx which := (congrArg State.uploads equal).symm
      have drives : t.drives = s.drives := by rw [← equal, State.applySync_drives]
      have counters : t.counters = (SyncSection.finish u.filesize u.uploaded).apply s.counters := by
        rw [← equal, State.applySync_counters]
      have underflow : t.underflow = (s.underflow || (SyncSection.finish u.filesize u.uploaded).underflows s.counters) := by
        rw [← equal, State.applySync_underflow]
      exact inv.toSummed.finish there (fits u there) uploads drives counters underflow

theorem inc_inv (inv : Inv s) (fits : DriveFits s .inc) : Inv (driveStep s .inc) := by
  have total := sizes_eq inv.each
  have covered := inv.covered
  have small := inv.small
  have few := inv.few
  have uploaded := inv.uploaded
  have files := inv.files
  unfold DriveFits at fits
  unfold driveStep
  dsimp only
  generalize equal : ({ s.applyDrive .inc with drives := s.drives ++ [⟨0⟩] } : State) = t
  have drives : t.drives = s.drives ++ [⟨0⟩] := (congrArg State.drives equal).symm
  have uploads : t.uploads = s.uploads := by rw [← equal, State.applyDrive_uploads]
  have waiting : t.waiting = s.waiting := by rw [← equal, State.applyDrive_waiting]
  obtain ⟨_, _, leftSum, runningSum⟩ := sums_of_drives uploads
  have counted : counted t = counted s := by
    unfold UploadCounters.counted
    rw [drives]
    simp
  have running : running t = running s + 1 := by
    rw [runningSum, drives, List.length_append]
    exact (Nat.add_assoc _ _ _).symm
  refine ⟨inv.toSummed.drive uploads (by omega) (by omega) (by rw [← equal]; rfl) (by omega) ?_ ?_, fun w waits asleep => ?_⟩
  · rw [running, files]
    exact Nat.mod_eq_of_lt fits
  · rw [← equal]
    exact (Bool.or_false _).trans inv.nonnegative
  · rw [waiting] at waits
    have reason := inv.awake w waits asleep
    omega

theorem dec_inv {which : ℕ} (inv : Inv s) (fits : DriveFits s (.dec which)) : Inv (driveStep s (.dec which)) := by
  have total := sizes_eq inv.each
  have covered := inv.covered
  have small := inv.small
  have few := inv.few
  have uploaded := inv.uploaded
  have files := inv.files
  unfold driveStep
  dsimp only
  cases there : s.drives[which]? with
  | none => exact inv
  | some d =>
    dsimp only
    generalize equal : endDrive s which = t
    by_cases clean : d.asize = 0
    · rw [if_neg (not_not.mpr clean)]
      have drives : t.drives = s.drives.eraseIdx which := by rw [← equal, endDrive]
      have uploads : t.uploads = s.uploads := by rw [← equal, endDrive, State.applyDrive_uploads]
      have waiting : t.waiting = s.waiting := by rw [← equal, endDrive, State.applyDrive_waiting]
      have counters : t.counters = DriveSection.apply s.counters .dec := by rw [← equal, endDrive, State.applyDrive_counters]
      have underflow : t.underflow = (s.underflow || DriveSection.underflows s.counters .dec) := by
          rw [← equal, endDrive, State.applyDrive_underflow]
      obtain ⟨_, _, leftSum, runningSum⟩ := sums_of_drives uploads
      have length := length_erase there
      have counted : counted t = counted s := by
        have sum := sum_erase there (·.asize)
        unfold UploadCounters.counted
        rw [drives]
        omega
      have running : running t + 1 = running s := by
        rw [runningSum, drives]
        unfold UploadCounters.running
        omega
      have one : sub32 s.counters.filesuploading 1 = UploadCounters.running t := by
        rw [sub32_of_le (by omega) (by omega)]
        omega
      have summed : Summed t := by
        refine inv.toSummed.drive uploads (by omega) (by omega) counters (by omega) one ?_
        rw [underflow, inv.nonnegative, Bool.false_or]
        exact decide_eq_false (by omega)
      split
      · exact ⟨summed.signal, waits_signal _ _ _⟩
      · rename_i some
        refine ⟨summed, fun w waits asleep => ?_⟩
        rw [waiting] at waits
        obtain last | reason := fits
        · rw [summed.files] at some
          omega
        · have reason := reason w waits asleep
          omega
    · rw [if_pos clean]
      exact inv

theorem add_inv {which bytes : ℕ} (inv : Inv s) (fits : DriveFits s (.add which bytes)) : Inv (driveStep s (.add which bytes)) := by
  have total := sizes_eq inv.each
  have covered := inv.covered
  have small := inv.small
  have few := inv.few
  have uploaded := inv.uploaded
  have files := inv.files
  unfold driveStep
  dsimp only
  cases there : s.drives[which]? with
  | none => exact inv
  | some d =>
    obtain ⟨more, awake⟩ := fits
    dsimp only
    generalize equal : ({ s.applyDrive (.add bytes) with drives := s.drives.set which ⟨d.asize + bytes⟩ } : State) = t
    have drives : t.drives = s.drives.set which ⟨d.asize + bytes⟩ := (congrArg State.drives equal).symm
    have uploads : t.uploads = s.uploads := by rw [← equal, State.applyDrive_uploads]
    have waiting : t.waiting = s.waiting := by rw [← equal, State.applyDrive_waiting]
    obtain ⟨_, _, leftSum, runningSum⟩ := sums_of_drives uploads
    have counted : counted t = counted s + bytes := by
      have sum := sum_set there ⟨d.asize + bytes⟩ (·.asize)
      dsimp only at sum
      unfold UploadCounters.counted
      rw [drives]
      omega
    have running : running t = running s := by
      rw [runningSum, drives, List.length_set]
      rfl
    refine ⟨inv.toSummed.drive uploads (by omega) (by omega) (by rw [← equal]; rfl) ?_ (by omega) ?_, fun w waits asleep => ?_⟩
    · rw [counted, uploaded, ← Nat.add_assoc]
      exact Nat.mod_eq_of_lt (by omega)
    · rw [← equal]
      exact (Bool.or_false _).trans inv.nonnegative
    · rw [waiting] at waits
      have reason := awake w waits asleep
      omega

theorem sub_inv {which : ℕ} (inv : Inv s) : Inv (driveStep s (.sub which)) := by
  have total := sizes_eq inv.each
  have covered := inv.covered
  have small := inv.small
  have few := inv.few
  have uploaded := inv.uploaded
  have files := inv.files
  unfold driveStep
  dsimp only
  cases there : s.drives[which]? with
  | none => exact inv
  | some d =>
    dsimp only
    generalize equal : ({ s.applyDrive (.sub d.asize) with drives := s.drives.set which ⟨0⟩ } : State) = t
    have drives : t.drives = s.drives.set which ⟨0⟩ := (congrArg State.drives equal).symm
    have uploads : t.uploads = s.uploads := by rw [← equal, State.applyDrive_uploads]
    have waiting : t.waiting = s.waiting := by rw [← equal, State.applyDrive_waiting]
    obtain ⟨_, _, leftSum, runningSum⟩ := sums_of_drives uploads
    have counted : counted t + d.asize = counted s := by
      have sum := sum_set there ⟨0⟩ (·.asize)
      unfold UploadCounters.counted
      rw [drives]
      omega
    have running : running t = running s := by
      rw [runningSum, drives, List.length_set]
      rfl
    refine ⟨inv.toSummed.drive uploads (by omega) (by omega) (by rw [← equal]; rfl) ?_ (by omega) ?_, fun w waits asleep => ?_⟩
    · rw [sub64_of_le (by omega) (by omega)]
      omega
    · rw [← equal]
      refine (congrArg (fun before => before || _) inv.nonnegative).trans (decide_eq_false ?_)
      omega
    · rw [waiting] at waits
      have reason := inv.awake w waits asleep
      omega

/-- A step of the uploads of the drive keeps the invariant. -/
theorem drive_inv (event : DriveEvent) (inv : Inv s) (fits : DriveFits s event) : Inv (driveStep s event) := by
  cases event with
  | inc => exact inc_inv inv fits
  | dec which => exact dec_inv inv fits
  | add which bytes => exact add_inv inv fits
  | sub which => exact sub_inv inv

end Steps

section Runs

variable {s : State}

theorem init_inv : Inv State.init := by
  refine ⟨⟨rfl, rfl, rfl, fun _ none => absurd none List.not_mem_nil, Nat.le_refl _, Nat.two_pow_pos 64, Nat.two_pow_pos 32, rfl⟩, fun w waits => ?_⟩
  cases waits

theorem step_inv (event : Event) (inv : Inv s) (fits : Fits s event) : Inv (step s event) := by
  cases event with
  | sync event => exact sync_inv event inv fits
  | drive event => exact drive_inv event inv fits
  | both sync drive lost => exact fits.elim

/-- Each step of a run meets the condition. -/
def RunFits : State → List Event → Prop
  | _, [] => True
  | s, event :: events => Fits s event ∧ RunFits (step s event) events

theorem run_inv (events : List Event) (inv : Inv s) (fits : RunFits s events) : Inv (events.foldl step s) := by
  induction events generalizing s with
  | nil => exact inv
  | cons event events ih => exact ih (step_inv event inv fits.1) fits.2

/-- A run whose steps meet the condition. -/
structure Run where
  events : List Event
  fits : RunFits State.init events

/-- In each run whose steps do not count more than there is and are not made at once, the counters are as they should be. -/
theorem run_accounted (run : Run) : Accounted (run.events.foldl step State.init) :=
  (run_inv run.events init_inv run.fits).accounted

/-- A file of the drive is uploaded and nothing else is: more bytes are sent than there are. -/
theorem drive_exceeds : ¬∀ events : List Event, Accounted (events.foldl step State.init) := by
  intro all
  have within := (all [.drive .inc, .drive (.add 0 4096)]).within
  simp [step, driveStep, State.init, State.applyDrive, DriveSection.apply] at within

end Runs

end Pclsync.Proofs.UploadCounters
