import Pclsync.Sync.Downloads

/-! The counters of the running downloads are right in every order of events. Somebody has still to end
each download of the list, unless one is finished that was to be stopped and deleted. -/

namespace Pclsync.Proofs.Downloads
open Library Pclsync.Downloads

/-! The counters. -/

def one (dt : Download) : ℤ := if dt.indwllist then 1 else 0
def bytes (dt : Download) : ℤ := if dt.indwllist then dt.size else 0
def got (dt : Download) : ℤ := if dt.indwllist then dt.downloadedsize else 0

/-- The counters are those of the downloads in the list that may run. -/
structure Counts (state : State) : Prop where
  started : state.startedDownloads = state.downloads.sum one
  files : state.filesdownloading = state.downloads.sum one
  bytes : state.bytestodownloadcurrent = state.downloads.sum bytes
  got : state.bytesdownloaded = state.downloads.sum got

section
variable {state after : State} {dt : Download} {serial : ℕ} {phase : Phase} {act : Download → State}

theorem attend_some (attended : state.attend serial phase act = some after) :
    ∃ dt, state.downloads.find dt.serial = some dt ∧ dt.phase = phase ∧ dt.serial = serial ∧ after = act dt := by
  unfold State.attend at attended
  split at attended
  · cases attended
  · next dt there =>
    split at attended
    · next same =>
      cases attended
      have isSerial : dt.serial = serial := (Keyed.find_eq_some.mp there).2
      exact ⟨dt, by rw [isSerial, there], same, isSerial, rfl⟩
    · cases attended

/-- What `free_download_task` leaves, but for the threads that it wakes. -/
theorem freeDownloadTask_eq (state : State) (running : dt.indwllist = true) : ∃ main,
    (main = state.main ∨ main = state.main.wake) ∧ (state.waiters ≠ 0 → main = state.main.wake) ∧
      state.freeDownloadTask dt =
        { state with
          downloads := state.downloads.erase dt.serial
          startedDownloads := state.startedDownloads - 1
          filesdownloading := state.filesdownloading - 1
          bytestodownloadcurrent := state.bytestodownloadcurrent - dt.size
          bytesdownloaded := state.bytesdownloaded - dt.downloadedsize
          freed := dt.serial :: state.freed
          main } := by
  unfold State.freeDownloadTask State.broadcast
  rw [if_pos running]
  dsimp only
  split
  · exact ⟨_, .inr rfl, fun _ => rfl, rfl⟩
  · next nobody => exact ⟨_, .inl rfl, fun somebody => absurd somebody nobody, rfl⟩

theorem Counts.free (counts : Counts state) (there : state.downloads.find dt.serial = some dt) (running : dt.indwllist = true) :
    Counts (state.freeDownloadTask dt) := by
  obtain ⟨main, _, _, same⟩ := freeDownloadTask_eq state running
  have isOne : one dt = 1 := if_pos running
  have isBytes : Downloads.bytes dt = dt.size := if_pos running
  have isGot : Downloads.got dt = dt.downloadedsize := if_pos running
  rw [same]
  constructor
  · dsimp only
    rw [Keyed.sum_erase there, isOne, counts.started]
  · dsimp only
    rw [Keyed.sum_erase there, isOne, counts.files]
  · dsimp only
    rw [Keyed.sum_erase there, isBytes, counts.bytes]
  · dsimp only
    rw [Keyed.sum_erase there, isGot, counts.got]

/-- Changes that have nothing to do with the counters. -/
theorem Counts.of_same (counts : Counts state) (started : after.startedDownloads = state.startedDownloads)
    (files : after.filesdownloading = state.filesdownloading) (bytes : after.bytestodownloadcurrent = state.bytestodownloadcurrent)
    (got : after.bytesdownloaded = state.bytesdownloaded)
    (sums : ∀ weight, (weight = one ∨ weight = Downloads.bytes ∨ weight = Downloads.got) →
      after.downloads.sum weight = state.downloads.sum weight) : Counts after where
  started := by rw [started, counts.started, sums one (.inl rfl)]
  files := by rw [files, counts.files, sums one (.inl rfl)]
  bytes := by rw [bytes, counts.bytes, sums Downloads.bytes (.inr (.inl rfl))]
  got := by rw [got, counts.got, sums Downloads.got (.inr (.inr rfl))]

theorem Counts.become (counts : Counts state) : Counts (state.become serial phase) := by
  refine counts.of_same rfl rfl rfl rfl ?_
  rintro weight (rfl | rfl | rfl)
  all_goals exact Keyed.sum_update (Download.become_serial phase) fun _ => rfl

theorem Counts.stop (counts : Counts state) {which : Download → Bool} {val : ℕ} : Counts (state.stop which val) := by
  refine counts.of_same rfl rfl rfl rfl ?_
  rintro weight (rfl | rfl | rfl)
  all_goals exact Keyed.sum_update (Download.halt_serial val) fun _ => rfl

/-- The tasks, the waiters and what the download thread does do not count. -/
theorem Counts.aside (counts : Counts state) (tasks : Keyed TaskRow.id) (waiters : ℤ) (main : Main) :
    Counts { state with tasks, waiters, main } :=
  ⟨counts.started, counts.files, counts.bytes, counts.got⟩

end

/-! Who has to end a download. -/

/-- Whose turn it is. A download that is not in anybody's hands is never ended. -/
def InHands (main : Main) (dt : Download) : Prop :=
  match dt.phase with
  | .waiting => ∃ sleep, main = .admission dt.serial sleep
  | .admitted => main = .preparing dt.serial
  | .locked => main = .preparing dt.serial
  | .forgotten => False
  | _ => True

/-- What is known of a download of the list. -/
structure Fits (main : Main) (dt : Download) : Prop where
  hands : InHands main dt
  running : dt.indwllist = true ↔ dt.phase ≠ .waiting
  nothing : dt.phase = .waiting → dt.downloadedsize = 0

/-- Each download of the list is in somebody's hands, and the others have been freed, each of them once. -/
structure Owned (state : State) : Prop where
  fits : ∀ dt ∈ state.downloads, Fits state.main dt
  listed : ∀ dt ∈ state.downloads, dt.serial < state.created ∧ dt.serial ∉ state.freed
  ended : ∀ serial < state.created, serial ∈ state.freed ∨ ∃ dt ∈ state.downloads, dt.serial = serial
  past : ∀ serial ∈ state.freed, serial < state.created
  once : state.freed.Nodup

/-- A step of a run that goes well: no download is finished that was to be stopped and its partial file deleted. -/
def Smooth (state : State) : Event → Prop
  | .asyncEnd serial (.done _) => ∀ dt ∈ state.downloads, dt.serial = serial → dt.stop ≠ 2
  | _ => True

section
variable {state after : State} {dt : Download} {serial : ℕ} {phase : Phase} {act : Download → State} {event : Event}

/-- Rows in progress after it were there before and belong to other tasks. -/
def Settles (taskid : ℕ) (before after : Keyed TaskRow.id) : Prop :=
  ∀ row ∈ after, row.inprogress ≠ 0 → row ∈ before ∧ row.id ≠ taskid

theorem settles_set {tasks : Keyed TaskRow.id} {taskid : ℕ} :
    Settles taskid tasks (tasks.set taskid (TaskRow.mark 0) (TaskRow.mark_id 0)) := by
  intro row member busy
  obtain ⟨old, there, rfl⟩ := (Keyed.mem_set (TaskRow.mark_id 0)).mp member
  split at busy
  · exact absurd rfl busy
  · next other => rw [if_neg other]; exact ⟨there, other⟩

theorem settles_erase {tasks : Keyed TaskRow.id} {taskid : ℕ} : Settles taskid tasks (tasks.erase taskid) :=
  fun _ member _ => Keyed.mem_erase.mp member

/-- How many threads a sleeping thread counts for. -/
def count : Sleep → ℤ
  | .running => 0
  | .asleep => 1
  | .woken => 1

/-- What one event can do. -/
inductive Moved (state : State) : State → Prop
  | inserted (row : TaskRow) (runnable : row.inprogress = 0) : Moved state { state with tasks := state.tasks.insert row }
  | missing (taskid : ℕ) (idle : state.main = .idle) : Moved state { state with main := .returning taskid true }
  | taken (row : TaskRow) (size : ℕ) (idle : state.main = .idle) : Moved state (state.take row (some size))
  | abandoned (dt : Download) (there : state.downloads.find dt.serial = some dt) (phase : dt.phase = .waiting)
      (sleep : Sleep) (turn : state.main = .admission dt.serial sleep) :
      Moved state { state with downloads := state.downloads.erase dt.serial, freed := dt.serial :: state.freed,
                               waiters := state.waiters - count sleep, main := .returning dt.taskid false }
  | slept (dt : Download) (there : state.downloads.find dt.serial = some dt) (phase : dt.phase = .waiting)
      (sleep : Sleep) (turn : state.main = .admission dt.serial sleep)
      (full : state.startedDownloads ≥ maxParallelDownloads ∨ state.overTreshold = true) :
      Moved state { state with waiters := state.waiters - count sleep + 1, main := .admission dt.serial .asleep }
  | admitted (dt : Download) (there : state.downloads.find dt.serial = some dt) (phase : dt.phase = .waiting)
      (sleep : Sleep) (turn : state.main = .admission dt.serial sleep) :
      Moved state { state with
        downloads := state.downloads.set dt.serial Download.enter Download.enter_serial
        bytestodownloadcurrent := state.bytestodownloadcurrent + dt.size
        filesdownloading := state.filesdownloading + 1
        startedDownloads := state.startedDownloads + 1
        waiters := state.waiters - count sleep
        main := .preparing dt.serial }
  | quit (dt : Download) (there : state.downloads.find dt.serial = some dt) (phase : dt.phase = .admitted)
      (turn : state.main = .preparing dt.serial) (delete : Bool) :
      Moved state { state.freeDownloadTask dt with main := .returning dt.taskid delete }
  | handedOver (dt : Download) (there : state.downloads.find dt.serial = some dt) (phase : dt.phase = .admitted)
      (turn : state.main = .preparing dt.serial) : Moved state (state.handOver dt)
  | begun (dt : Download) (there : state.downloads.find dt.serial = some dt) (phase : dt.phase = .locked)
      (turn : state.main = .preparing dt.serial) (next : Phase) (hands : next = .async ∨ next = .worker) :
      Moved state { state.become dt.serial next with main := .idle }
  | refused (dt : Download) (there : state.downloads.find dt.serial = some dt) (phase : dt.phase = .locked)
      (turn : state.main = .preparing dt.serial) :
      Moved state { state.freeDownloadTask dt with main := .resetting dt.taskid }
  | returned (taskid : ℕ) (delete : Bool) (turn : state.main = .returning taskid delete) (tasks : Keyed TaskRow.id)
      (fewer : ∀ row ∈ tasks, row ∈ state.tasks) : Moved state { state with tasks, main := .idle }
  | reset (taskid : ℕ) (turn : state.main = .resetting taskid) :
      Moved state { state.setTaskInprogress taskid 0 with main := .idle }
  | waits (idle : state.main = .idle) : Moved state { state with main := .draining .running }
  | stays (sleep : Sleep) (turn : state.main = .draining sleep) (busy : state.startedDownloads ≠ 0) :
      Moved state { state with waiters := state.waiters - count sleep + 1, main := .draining .asleep }
  | drained (sleep : Sleep) (turn : state.main = .draining sleep) :
      Moved state { state with waiters := state.waiters - count sleep, main := .idle }
  | woken : Moved state { state with main := state.main.wake }
  | resized (dt : Download) (there : state.downloads.find dt.serial = some dt) (phase : dt.phase = .worker) (serversize : ℕ) :
      Moved state (state.resize serversize dt)
  | received (dt : Download) (there : state.downloads.find dt.serial = some dt) (phase : dt.phase = .worker) (rd : ℕ)
      (main : Main) (wakes : main = state.main ∨ main = state.main.wake) :
      Moved state { state with
        bytesdownloaded := state.bytesdownloaded + rd
        downloads := state.downloads.set dt.serial (Download.receive rd) (Download.receive_serial rd)
        main }
  | finished (dt : Download) (there : state.downloads.find dt.serial = some dt)
      (phase : dt.phase = .worker ∨ dt.phase = .async ∨ dt.phase = .timer) (tasks : Keyed TaskRow.id)
      (settles : Settles dt.taskid state.tasks tasks) : Moved state { state.become dt.serial .freeing with tasks }
  | deferred (dt : Download) (there : state.downloads.find dt.serial = some dt) (phase : dt.phase = .async) :
      Moved state (state.become dt.serial .timer)
  | freed (dt : Download) (there : state.downloads.find dt.serial = some dt) (phase : dt.phase = .freeing) :
      Moved state (state.freeDownloadTask dt)
  | stopped (which : Download → Bool) (val : ℕ) (tasks : Keyed TaskRow.id) (fewer : ∀ row ∈ tasks, row ∈ state.tasks) :
      Moved state { state.stop which val with tasks }

theorem enter_moved (owned : Owned state) {sleep : Sleep} (turn : state.main = .admission serial sleep)
    (attended : State.attend { state with waiters := state.waiters - count sleep } serial .waiting
      (State.enter { state with waiters := state.waiters - count sleep }) = some after) : Moved state after := by
  obtain ⟨dt, there, phase, rfl, rfl⟩ := attend_some attended
  change state.downloads.find dt.serial = some dt at there
  have notYet : dt.indwllist = false := by
    have running := (owned.fits dt (Keyed.find_eq_some.mp there).1).running
    rw [phase] at running
    simpa using running
  unfold State.enter
  split
  · unfold State.freeDownloadTask
    rw [if_neg (by rw [notYet]; decide)]
    exact .abandoned dt there phase sleep turn
  · split
    · next full => exact .slept dt there phase sleep turn full
    · exact .admitted dt there phase sleep turn

theorem drain_moved {sleep : Sleep} (turn : state.main = .draining sleep) :
    Moved state (State.drain { state with waiters := state.waiters - count sleep }) := by
  unfold State.drain
  split
  · next busy => exact .stays sleep turn busy
  · exact .drained sleep turn

theorem step_moved (owned : Owned state) (smooth : Smooth state event) (stepped : step state event = some after) :
    Moved state after := by
  cases event with
  | insertTask row =>
    rw [step] at stepped
    split at stepped
    · next runnable =>
      cases stepped
      exact .inserted row runnable.1
    · cases stepped
  | take id size =>
    rw [step] at stepped
    split at stepped
    · next row idle _ =>
      split at stepped
      · cases stepped
        cases size with
        | none => exact .missing row.id idle
        | some size => exact .taken row size idle
      · cases stepped
    · cases stepped
  | enter =>
    rw [step] at stepped
    split at stepped
    · next serial turn => exact enter_moved owned turn (by simpa only [count, sub_zero] using stepped)
    · next serial turn => exact enter_moved owned turn stepped
    · cases stepped
  | quit delete =>
    rw [step] at stepped
    split at stepped
    · next serial turn =>
      obtain ⟨dt, there, phase, rfl, rfl⟩ := attend_some stepped
      exact .quit dt there phase turn delete
    · cases stepped
  | handOver =>
    rw [step] at stepped
    split at stepped
    · next serial turn =>
      obtain ⟨dt, there, phase, rfl, rfl⟩ := attend_some stepped
      exact .handedOver dt there phase turn
    · cases stepped
  | begin accepted =>
    rw [step] at stepped
    split at stepped
    · next serial turn =>
      obtain ⟨dt, there, phase, rfl, rfl⟩ := attend_some stepped
      unfold State.begin
      split
      · split
        · exact .begun dt there phase turn .async (.inl rfl)
        · exact .refused dt there phase turn
      · exact .begun dt there phase turn .worker (.inr rfl)
    · cases stepped
  | «return» =>
    rw [step] at stepped
    split at stepped
    · next taskid delete turn =>
      cases stepped
      cases delete with
      | true => exact .returned taskid true turn (state.tasks.erase taskid) fun row member => (Keyed.mem_erase.mp member).1
      | false => exact .returned taskid false turn state.tasks fun row member => member
    · next taskid turn =>
      cases stepped
      exact .reset taskid turn
    · cases stepped
  | wait =>
    rw [step] at stepped
    split at stepped
    · next idle =>
      cases stepped
      exact .waits idle
    · cases stepped
  | drain =>
    rw [step] at stepped
    split at stepped
    · next turn =>
      cases stepped
      have moved := drain_moved turn
      simpa only [count, sub_zero] using moved
    · next turn =>
      cases stepped
      exact drain_moved turn
    · cases stepped
  | spurious =>
    cases stepped
    exact .woken
  | resize serial serversize =>
    obtain ⟨dt, there, phase, rfl, rfl⟩ := attend_some stepped
    exact .resized dt there phase serversize
  | receive serial rd =>
    obtain ⟨dt, there, phase, rfl, rfl⟩ := attend_some stepped
    unfold State.receive
    dsimp only
    split
    · exact .received dt there phase rd _ (.inr rfl)
    · exact .received dt there phase rd _ (.inl rfl)
  | workerEnd serial failed =>
    obtain ⟨dt, there, phase, rfl, rfl⟩ := attend_some stepped
    unfold State.workerEnd
    split
    · exact .finished dt there (.inl phase) _ settles_set
    · exact .finished dt there (.inl phase) _ settles_erase
  | asyncEnd serial result =>
    obtain ⟨dt, there, phase, rfl, rfl⟩ := attend_some stepped
    cases result with
    | tooBig => exact .finished dt there (.inr (.inl phase)) _ settles_set
    | permanent => exact .finished dt there (.inr (.inl phase)) _ settles_erase
    | retry => exact .deferred dt there phase
    | notModified works =>
      cases works with
      | true => exact .finished dt there (.inr (.inl phase)) _ settles_erase
      | false => exact .deferred dt there phase
    | done works =>
      have going : dt.stop ≠ 2 := smooth dt (Keyed.find_eq_some.mp there).1 rfl
      unfold State.asyncEnd
      dsimp only
      rw [if_neg going]
      split
      · exact .finished dt there (.inr (.inl phase)) _ settles_erase
      · exact .deferred dt there phase
  | timerEnd serial =>
    obtain ⟨dt, there, phase, rfl, rfl⟩ := attend_some stepped
    exact .finished dt there (.inr (.inr phase)) _ settles_set
  | free serial =>
    obtain ⟨dt, there, phase, rfl, rfl⟩ := attend_some stepped
    exact .freed dt there phase
  | tasksDelete fileid syncid deltemp =>
    cases stepped
    exact .stopped _ _ _ fun row member => (Keyed.mem_delete.mp member).1
  | stopFile fileid syncid =>
    cases stepped
    exact .stopped _ _ state.tasks fun row member => member
  | stopSync syncid =>
    cases stepped
    exact .stopped _ _ _ fun row member => (Keyed.mem_delete.mp member).1
  | stopAll =>
    cases stepped
    exact .stopped _ _ state.tasks fun row member => member

end

/-! The counters after one event. -/

section
variable {state after : State} {dt : Download}

theorem Owned.unseen (owned : Owned state) (there : state.downloads.find dt.serial = some dt) (phase : dt.phase = .waiting) :
    one dt = 0 ∧ bytes dt = 0 ∧ got dt = 0 := by
  have notYet : ¬dt.indwllist = true := fun running =>
    (owned.fits dt (Keyed.find_eq_some.mp there).1).running.mp running phase
  exact ⟨if_neg notYet, if_neg notYet, if_neg notYet⟩

theorem Owned.runs (owned : Owned state) (there : state.downloads.find dt.serial = some dt) (phase : dt.phase ≠ .waiting) :
    dt.indwllist = true :=
  (owned.fits dt (Keyed.find_eq_some.mp there).1).running.mpr phase

theorem moved_counts (owned : Owned state) (counts : Counts state) (moved : Moved state after) : Counts after := by
  cases moved with
  | inserted row _ => exact counts.aside _ _ _
  | missing taskid _ => exact counts.aside _ _ _
  | taken row size _ =>
    have unused : state.downloads.find state.created = none :=
      Keyed.find_eq_none.mpr fun dt member same => (owned.listed dt member).1.ne same
    refine counts.of_same rfl rfl rfl rfl ?_
    rintro weight (rfl | rfl | rfl)
    all_goals exact (Keyed.sum_insert unused).trans (add_zero _)
  | abandoned dt there phase sleep _ =>
    obtain ⟨noOne, noBytes, noGot⟩ := owned.unseen there phase
    refine counts.of_same rfl rfl rfl rfl ?_
    rintro weight (rfl | rfl | rfl)
    · exact (Keyed.sum_erase there).trans (by rw [noOne, sub_zero])
    · exact (Keyed.sum_erase there).trans (by rw [noBytes, sub_zero])
    · exact (Keyed.sum_erase there).trans (by rw [noGot, sub_zero])
  | slept dt _ _ sleep _ _ => exact counts.aside _ _ _
  | admitted dt there phase sleep _ =>
    obtain ⟨noOne, noBytes, noGot⟩ := owned.unseen there phase
    have nothing := (owned.fits dt (Keyed.find_eq_some.mp there).1).nothing phase
    have isOne : one dt.enter = 1 := rfl
    have isBytes : bytes dt.enter = dt.size := rfl
    have isGot : got dt.enter = 0 := congrArg Int.ofNat nothing
    constructor
    · exact (congrArg (· + 1) counts.started).trans
        ((Keyed.sum_set Download.enter_serial there).trans (by rw [noOne, isOne, sub_zero])).symm
    · exact (congrArg (· + 1) counts.files).trans
        ((Keyed.sum_set Download.enter_serial there).trans (by rw [noOne, isOne, sub_zero])).symm
    · exact (congrArg (· + (dt.size : ℤ)) counts.bytes).trans
        ((Keyed.sum_set Download.enter_serial there).trans (by rw [noBytes, isBytes, sub_zero])).symm
    · exact counts.got.trans
        ((Keyed.sum_set Download.enter_serial there).trans (by rw [noGot, isGot, sub_zero, add_zero])).symm
  | quit dt there phase _ delete =>
    exact (counts.free there (owned.runs there (by rw [phase]; decide))).aside _ _ _
  | handedOver dt _ _ _ =>
    refine counts.of_same rfl rfl rfl rfl ?_
    rintro weight (rfl | rfl | rfl)
    all_goals exact Keyed.sum_update Download.handOver_serial fun _ => rfl
  | begun dt _ _ _ next _ => exact counts.become.aside _ _ _
  | refused dt there phase _ => exact (counts.free there (owned.runs there (by rw [phase]; decide))).aside _ _ _
  | returned taskid delete _ tasks _ => exact counts.aside _ _ _
  | reset taskid _ => exact counts.aside _ _ _
  | waits _ => exact counts.aside _ _ _
  | stays sleep _ _ => exact counts.aside _ _ _
  | drained sleep _ => exact counts.aside _ _ _
  | woken => exact counts.aside _ _ _
  | resized dt there phase serversize =>
    have running := owned.runs there (by rw [phase]; decide)
    have isBytes : bytes dt = dt.size := if_pos running
    have isNew : bytes (dt.resize serversize) = serversize := if_pos running
    refine ⟨counts.started.trans ?_, counts.files.trans ?_, ?_, counts.got.trans ?_⟩
    · exact (Keyed.sum_update (Download.resize_serial serversize) fun _ => rfl).symm
    · exact (Keyed.sum_update (Download.resize_serial serversize) fun _ => rfl).symm
    · exact (congrArg (fun total => total - (dt.size : ℤ) + serversize) counts.bytes).trans
        ((Keyed.sum_set (Download.resize_serial serversize) there).trans (by rw [isBytes, isNew])).symm
    · exact (Keyed.sum_update (Download.resize_serial serversize) fun _ => rfl).symm
  | received dt there phase rd main _ =>
    have running := owned.runs there (by rw [phase]; decide)
    have isGot : got dt = dt.downloadedsize := if_pos running
    have isNew : got (dt.receive rd) = dt.downloadedsize + rd := (if_pos running).trans (Nat.cast_add _ _)
    refine ⟨counts.started.trans ?_, counts.files.trans ?_, counts.bytes.trans ?_, ?_⟩
    · exact (Keyed.sum_update (Download.receive_serial rd) fun _ => rfl).symm
    · exact (Keyed.sum_update (Download.receive_serial rd) fun _ => rfl).symm
    · exact (Keyed.sum_update (Download.receive_serial rd) fun _ => rfl).symm
    · exact (congrArg (· + (rd : ℤ)) counts.got).trans
        ((Keyed.sum_set (Download.receive_serial rd) there).trans (by rw [isGot, isNew]; abel)).symm
  | finished dt _ _ tasks _ => exact counts.become.aside _ _ _
  | deferred dt _ _ => exact counts.become
  | freed dt there phase => exact counts.free there (owned.runs there (by rw [phase]; decide))
  | stopped which val tasks _ => exact counts.stop.aside _ _ _

end

/-! The list after one event. -/

section
variable {state after : State} {main next : Main} {dt : Download} {serial : ℕ} {change : Download → Download}

/-- The download thread has this download. -/
def Holds (main : Main) (serial : ℕ) : Prop := main = .preparing serial ∨ ∃ sleep, main = .admission serial sleep

/-- What the download thread does not have, it cannot lose. -/
theorem Fits.unheld (fits : Fits main dt) (unheld : ¬Holds main dt.serial) : Fits next dt := by
  refine ⟨?_, fits.running, fits.nothing⟩
  have hands := fits.hands
  unfold InHands at hands ⊢
  cases phase : dt.phase <;> rw [phase] at hands
  case waiting => exact absurd (.inr hands) unheld
  case admitted => exact absurd (.inl hands) unheld
  case locked => exact absurd (.inl hands) unheld
  all_goals exact hands

theorem Fits.wake (fits : Fits main dt) : Fits main.wake dt := by
  refine ⟨?_, fits.running, fits.nothing⟩
  have hands := fits.hands
  unfold InHands at hands ⊢
  cases phase : dt.phase <;> rw [phase] at hands
  case waiting =>
    obtain ⟨sleep, rfl⟩ := hands
    exact ⟨sleep.wake, rfl⟩
  case admitted => rw [hands]; rfl
  case locked => rw [hands]; rfl
  all_goals exact hands

theorem holds_admission {sleep : Sleep} (turn : main = .admission serial sleep) (ne : dt.serial ≠ serial) :
    ¬Holds main dt.serial := by
  rintro (held | ⟨other, held⟩)
  · cases turn.symm.trans held
  · cases turn.symm.trans held
    exact ne rfl

theorem holds_preparing (turn : main = .preparing serial) (ne : dt.serial ≠ serial) : ¬Holds main dt.serial := by
  rintro (held | ⟨other, held⟩)
  · cases turn.symm.trans held
    exact ne rfl
  · cases turn.symm.trans held

theorem Owned.aside (owned : Owned state) (tasks : Keyed TaskRow.id) (waiters : ℤ)
    (keeps : ∀ dt, Fits state.main dt → Fits main dt) : Owned { state with tasks, waiters, main } :=
  ⟨fun dt member => keeps dt (owned.fits dt member), owned.listed, owned.ended, owned.past, owned.once⟩

/-- A change of one download. -/
theorem Owned.set (owned : Owned state) (kept : ∀ dt, (change dt).serial = dt.serial)
    (downloads : after.downloads = state.downloads.set serial change kept) (created : after.created = state.created)
    (freed : after.freed = state.freed) (right : ∀ dt ∈ state.downloads, dt.serial = serial → Fits after.main (change dt))
    (others : ∀ dt, dt.serial ≠ serial → Fits state.main dt → Fits after.main dt) : Owned after where
  fits := by
    intro dt member
    rw [downloads, Keyed.mem_set] at member
    obtain ⟨old, there, rfl⟩ := member
    split
    · next same => exact right old there same
    · next ne => exact others old ne (owned.fits old there)
  listed := by
    rw [downloads, created, freed]
    exact (Keyed.forall_mem_set (p := fun id => id < state.created ∧ id ∉ state.freed) kept).mpr owned.listed
  ended := by
    rw [created, freed]
    intro id early
    refine (owned.ended id early).imp_right ?_
    rintro ⟨dt, member, rfl⟩
    rw [downloads]
    refine ⟨_, (Keyed.mem_set kept).mpr ⟨dt, member, rfl⟩, ?_⟩
    split
    · exact kept dt
    · rfl
  past := by rw [created, freed]; exact owned.past
  once := by rw [freed]; exact owned.once

/-- The end of one download. -/
theorem Owned.erase (owned : Owned state) (there : state.downloads.find dt.serial = some dt)
    (downloads : after.downloads = state.downloads.erase dt.serial) (created : after.created = state.created)
    (freed : after.freed = dt.serial :: state.freed)
    (others : ∀ other, other.serial ≠ dt.serial → Fits state.main other → Fits after.main other) : Owned after where
  fits := by
    intro other member
    rw [downloads, Keyed.mem_erase] at member
    exact others other member.2 (owned.fits other member.1)
  listed := by
    intro other member
    rw [downloads, Keyed.mem_erase] at member
    obtain ⟨early, unfreed⟩ := owned.listed other member.1
    rw [created, freed, List.mem_cons, not_or]
    exact ⟨early, member.2, unfreed⟩
  ended := by
    rw [created, freed]
    intro id early
    rcases owned.ended id early with gone | ⟨other, member, rfl⟩
    · exact .inl (List.mem_cons_of_mem _ gone)
    · by_cases same : other.serial = dt.serial
      · exact .inl (by rw [same]; exact List.mem_cons_self)
      · exact .inr ⟨other, by rw [downloads]; exact Keyed.mem_erase.mpr ⟨member, same⟩, rfl⟩
  past := by
    rw [created, freed]
    intro id gone
    rcases List.mem_cons.mp gone with rfl | gone
    · exact (owned.listed dt (Keyed.find_eq_some.mp there).1).1
    · exact owned.past id gone
  once := by
    rw [freed]
    exact List.nodup_cons.mpr ⟨(owned.listed dt (Keyed.find_eq_some.mp there).1).2, owned.once⟩

/-- `free_download_task`, and what the download thread does after it. -/
theorem Owned.free (owned : Owned state) (there : state.downloads.find dt.serial = some dt) (running : dt.indwllist = true)
    (others : ∀ other, other.serial ≠ dt.serial → Fits state.main other → Fits main other) :
    Owned { state.freeDownloadTask dt with main } := by
  obtain ⟨woken, _, _, same⟩ := freeDownloadTask_eq state running
  rw [same]
  exact owned.erase there rfl rfl rfl others

theorem Owned.stop (owned : Owned state) {which : Download → Bool} {val : ℕ} : Owned (state.stop which val) := by
  have halted : ∀ dt ∈ (state.stop which val).downloads, ∃ old ∈ state.downloads, dt.serial = old.serial ∧
      (Fits state.main old → Fits state.main dt) := by
    intro dt member
    obtain ⟨old, there, rfl⟩ := (Keyed.mem_update (Download.halt_serial val)).mp member
    refine ⟨old, there, ?_⟩
    split
    · exact ⟨rfl, fun fits => ⟨fits.hands, fits.running, fits.nothing⟩⟩
    · exact ⟨rfl, id⟩
  refine ⟨fun dt member => ?_, fun dt member => ?_, fun serial early => ?_, owned.past, owned.once⟩
  · obtain ⟨old, there, _, fits⟩ := halted dt member
    exact fits (owned.fits old there)
  · obtain ⟨old, there, same, _⟩ := halted dt member
    rw [same]
    exact owned.listed old there
  · refine (owned.ended serial early).imp_right ?_
    rintro ⟨old, there, rfl⟩
    refine ⟨_, (Keyed.mem_update (Download.halt_serial val)).mpr ⟨old, there, rfl⟩, ?_⟩
    split
    · rfl
    · rfl

theorem Owned.same (there : state.downloads.find serial = some dt) {old : Download} (member : old ∈ state.downloads)
    (same : old.serial = serial) : old = dt :=
  Option.some.inj ((Keyed.find_eq_some.mpr ⟨member, same⟩).symm.trans there)

/-- A download that goes on in the hands of a thread of its own. -/
theorem Owned.become (owned : Owned state) (there : state.downloads.find dt.serial = some dt) (running : dt.indwllist = true)
    {phase : Phase} (own : phase = .async ∨ phase = .worker ∨ phase = .timer ∨ phase = .freeing)
    (others : ∀ other, other.serial ≠ dt.serial → Fits state.main other → Fits main other) :
    Owned { state.become dt.serial phase with main } := by
  refine owned.set (Download.become_serial phase) rfl rfl rfl (fun old member same => ?_) others
  rw [Owned.same there member same]
  have moves : phase ≠ .waiting := by rcases own with rfl | rfl | rfl | rfl <;> decide
  refine ⟨?_, ⟨fun _ => moves, fun _ => running⟩, fun waiting => absurd waiting moves⟩
  rcases own with rfl | rfl | rfl | rfl <;> trivial

theorem moved_owned (owned : Owned state) (moved : Moved state after) : Owned after := by
  have preparing : ∀ {serial} {other : Main} (_ : state.main = .preparing serial),
      ∀ dt, dt.serial ≠ serial → Fits state.main dt → Fits other dt :=
    fun turn dt ne fits => fits.unheld (holds_preparing turn ne)
  have admission : ∀ {serial sleep} {other : Main} (_ : state.main = .admission serial sleep),
      ∀ dt, dt.serial ≠ serial → Fits state.main dt → Fits other dt :=
    fun turn dt ne fits => fits.unheld (holds_admission turn ne)
  have free : ∀ {other : Main} (_ : ∀ serial, ¬Holds state.main serial), ∀ dt, Fits state.main dt → Fits other dt :=
    fun unheld dt fits => fits.unheld (unheld dt.serial)
  cases moved with
  | inserted row _ => exact owned.aside _ _ fun dt fits => fits
  | missing taskid idle => exact owned.aside _ _ (free (by simp [Holds, idle]))
  | taken row size idle =>
    have unused : state.downloads.find state.created = none :=
      Keyed.find_eq_none.mpr fun dt member same => (owned.listed dt member).1.ne same
    have spare : state.created ∉ state.freed := fun gone => (owned.past _ gone).ne rfl
    refine ⟨fun dt member => ?_, fun dt member => ?_, fun serial early => ?_, fun serial gone => ?_, owned.once⟩
    · rcases Keyed.mem_insert.mp member with old | ⟨_, rfl⟩
      · exact free (by simp [Holds, idle]) dt (owned.fits dt old)
      · exact ⟨⟨.running, rfl⟩, ⟨fun running => absurd running Bool.false_ne_true, fun phase => absurd rfl phase⟩, fun _ => rfl⟩
    · rcases Keyed.mem_insert.mp member with old | ⟨_, rfl⟩
      · exact ⟨(owned.listed dt old).1.trans (Nat.lt_succ_self _), (owned.listed dt old).2⟩
      · exact ⟨Nat.lt_succ_self _, spare⟩
    · rcases Nat.lt_succ_iff_lt_or_eq.mp early with early | rfl
      · refine (owned.ended serial early).imp_right ?_
        rintro ⟨dt, member, same⟩
        exact ⟨dt, Keyed.mem_insert.mpr (.inl member), same⟩
      · exact .inr ⟨_, Keyed.mem_insert.mpr (.inr ⟨unused, rfl⟩), rfl⟩
    · exact (owned.past serial gone).trans (Nat.lt_succ_self _)
  | abandoned dt there _ sleep turn => exact owned.erase there rfl rfl rfl (admission turn)
  | slept dt there phase sleep turn _ =>
    refine owned.aside _ _ fun other fits => ?_
    by_cases same : other.serial = dt.serial
    · refine ⟨?_, fits.running, fits.nothing⟩
      have hands := fits.hands
      unfold InHands at hands ⊢
      cases phase : other.phase <;> rw [phase] at hands
      case waiting => exact ⟨.asleep, by rw [same]⟩
      case admitted => cases turn.symm.trans hands
      case locked => cases turn.symm.trans hands
      all_goals exact hands
    · exact admission turn other same fits
  | admitted dt there phase sleep turn =>
    refine owned.set Download.enter_serial rfl rfl rfl (fun old member same => ?_) (admission turn)
    exact ⟨congrArg Main.preparing same.symm, ⟨fun _ => Phase.noConfusion, fun _ => rfl⟩, Phase.noConfusion⟩
  | quit dt there phase turn delete => exact owned.free there (owned.runs there (by rw [phase]; decide)) (preparing turn)
  | handedOver dt there phase turn =>
    have running := owned.runs there (by rw [phase]; decide)
    have handed : Owned { state with downloads := state.downloads.set dt.serial Download.handOver Download.handOver_serial } := by
      refine owned.set Download.handOver_serial rfl rfl rfl (fun old member same => ?_) fun other _ fits => fits
      rw [Owned.same there member same]
      exact ⟨turn, ⟨fun _ => Phase.noConfusion, fun _ => running⟩, Phase.noConfusion⟩
    exact handed.aside _ _ fun other fits => fits
  | begun dt there phase turn next hands =>
    have running := owned.runs there (by rw [phase]; decide)
    exact owned.become there running (by rcases hands with rfl | rfl <;> simp) (preparing turn)
  | refused dt there phase turn => exact owned.free there (owned.runs there (by rw [phase]; decide)) (preparing turn)
  | returned taskid delete turn tasks _ => exact owned.aside _ _ (free (by simp [Holds, turn]))
  | reset taskid turn => exact owned.aside _ _ (free (by simp [Holds, turn]))
  | waits idle => exact owned.aside _ _ (free (by simp [Holds, idle]))
  | stays sleep turn _ => exact owned.aside _ _ (free (by simp [Holds, turn]))
  | drained sleep turn => exact owned.aside _ _ (free (by simp [Holds, turn]))
  | woken => exact owned.aside _ _ fun dt fits => fits.wake
  | resized dt there phase serversize =>
    refine owned.set (Download.resize_serial serversize) rfl rfl rfl (fun old member same => ?_) fun other _ fits => fits
    have fits := owned.fits old member
    exact ⟨fits.hands, fits.running, fits.nothing⟩
  | received dt there phase rd main wakes =>
    refine owned.set (Download.receive_serial rd) rfl rfl rfl (fun old member same => ?_) fun other _ fits => ?_
    · have isDt := Owned.same there member same
      have fits : Fits main old := by
        rcases wakes with rfl | rfl
        · exact owned.fits old member
        · exact (owned.fits old member).wake
      refine ⟨fits.hands, fits.running, fun waiting => ?_⟩
      rw [← isDt] at phase
      cases phase.symm.trans waiting
    · rcases wakes with rfl | rfl
      · exact fits
      · exact fits.wake
  | finished dt there phase tasks _ =>
    have running := owned.runs there (by rcases phase with phase | phase | phase <;> simp [phase])
    have finished : Owned (state.become dt.serial .freeing) :=
      owned.become there running (.inr (.inr (.inr rfl))) fun other _ fits => fits
    exact finished.aside _ _ fun other fits => fits
  | deferred dt there phase =>
    exact owned.become there (owned.runs there (by rw [phase]; decide)) (.inr (.inr (.inl rfl))) fun other _ fits => fits
  | freed dt there phase =>
    obtain ⟨main, wakes, _, same⟩ := freeDownloadTask_eq state (owned.runs there (by rw [phase]; decide))
    rw [same]
    refine owned.erase there rfl rfl rfl fun other _ fits => ?_
    rcases wakes with rfl | rfl
    · exact fits
    · exact fits.wake
  | stopped which val tasks _ => exact owned.stop.aside _ _ fun dt fits => fits

end

/-! The rows in progress, and the thread that waits. -/

/-- A download in this phase deletes its row or makes it runnable again. -/
def Busy (phase : Phase) : Prop := phase = .locked ∨ phase = .async ∨ phase = .worker ∨ phase = .timer

/-- Somebody will delete the row or make it runnable again. -/
def Answers (state : State) (taskid : ℕ) : Prop :=
  state.main = .resetting taskid ∨ ∃ dt ∈ state.downloads, dt.taskid = taskid ∧ Busy dt.phase

def Rows (state : State) : Prop := ∀ row ∈ state.tasks, row.inprogress ≠ 0 → Answers state row.id

/-- The thread sleeps. -/
def Asleep (main : Main) : Prop := main = .draining .asleep ∨ ∃ serial, main = .admission serial .asleep

/-- How many threads wait. -/
def waiting : Main → ℤ
  | .admission _ sleep => count sleep
  | .draining sleep => count sleep
  | _ => 0

/-- A thread sleeps only while there is a download that will wake it. -/
structure Woken (state : State) : Prop where
  waiters : state.waiters = waiting state.main
  busy : Asleep state.main → state.startedDownloads ≠ 0

section
variable {state after : State} {main : Main} {dt : Download} {taskid : ℕ}

/-- The downloads but for one that has no row in progress, and the download thread, answer for the same rows. -/
theorem Rows.kept (rows : Rows state) (tasks : ∀ row ∈ after.tasks, row.inprogress ≠ 0 → row ∈ state.tasks)
    (main : ∀ taskid, state.main = .resetting taskid → after.main = .resetting taskid)
    (downloads : ∀ dt ∈ state.downloads, Busy dt.phase → ∃ same ∈ after.downloads, same.taskid = dt.taskid ∧ Busy same.phase) :
    Rows after := by
  intro row member busy
  rcases rows row (tasks row member busy) busy with resets | ⟨dt, listed, isTask, own⟩
  · exact .inl (main _ resets)
  · rw [← isTask]
    exact .inr (downloads dt listed own)

/-- A change of a download that still answers for its row, if it did before. -/
theorem busy_set {serial : ℕ} {change : Download → Download} (kept : ∀ dt, (change dt).serial = dt.serial)
    (task : ∀ dt, (change dt).taskid = dt.taskid) (busy : ∀ dt ∈ state.downloads, dt.serial = serial → Busy dt.phase → Busy (change dt).phase) :
    ∀ dt ∈ state.downloads, Busy dt.phase → ∃ same ∈ state.downloads.set serial change kept, same.taskid = dt.taskid ∧ Busy same.phase := by
  intro dt member own
  refine ⟨_, (Keyed.mem_set kept).mpr ⟨dt, member, rfl⟩, ?_⟩
  split
  · next same => exact ⟨task dt, busy dt member same own⟩
  · exact ⟨rfl, own⟩

/-- The end of a download that does not answer for its row. -/
theorem busy_erase (there : state.downloads.find dt.serial = some dt) (idle : ¬Busy dt.phase) :
    ∀ other ∈ state.downloads, Busy other.phase → ∃ same ∈ state.downloads.erase dt.serial, same.taskid = other.taskid ∧ Busy same.phase := by
  intro other member own
  refine ⟨other, Keyed.mem_erase.mpr ⟨member, fun same => ?_⟩, rfl, own⟩
  exact idle (Owned.same there member same ▸ own)

theorem wake_resetting : main.wake = .resetting taskid ↔ main = .resetting taskid := by
  cases main <;> simp [Main.wake]

theorem moved_rows (owned : Owned state) (rows : Rows state) (moved : Moved state after) : Rows after := by
  have here : ∀ dt ∈ state.downloads, Busy dt.phase → ∃ same ∈ state.downloads, same.taskid = dt.taskid ∧ Busy same.phase :=
    fun dt member own => ⟨dt, member, rfl, own⟩
  cases moved with
  | inserted row runnable =>
    intro other member busy
    rcases Keyed.mem_insert.mp member with old | ⟨_, rfl⟩
    · exact rows other old busy
    · exact absurd runnable busy
  | missing taskid idle => exact rows.kept (fun _ member _ => member) (by simp [idle]) here
  | taken row size idle =>
    refine rows.kept (fun _ member _ => member) (by simp [idle]) fun dt member own => ?_
    exact ⟨dt, Keyed.mem_insert.mpr (.inl member), rfl, own⟩
  | abandoned dt there phase sleep turn =>
    exact rows.kept (fun _ member _ => member) (by simp [turn]) (busy_erase there (by simp [Busy, phase]))
  | slept dt _ _ sleep turn _ => exact rows.kept (fun _ member _ => member) (by simp [turn]) here
  | admitted dt there phase sleep turn =>
    refine rows.kept (fun _ member _ => member) (by simp [turn]) (busy_set Download.enter_serial (fun _ => rfl) ?_)
    intro old member same own
    rw [Owned.same there member same] at own
    exact absurd own (by simp [Busy, phase])
  | quit dt there phase turn delete =>
    obtain ⟨woken, _, _, same⟩ := freeDownloadTask_eq state (owned.runs there (by rw [phase]; decide))
    rw [same]
    exact rows.kept (fun _ member _ => member) (by simp [turn]) (busy_erase there (by simp [Busy, phase]))
  | handedOver dt there phase turn =>
    intro row member busy
    obtain ⟨old, listed, rfl⟩ := (Keyed.mem_set (TaskRow.mark_id 1)).mp member
    have answers : ∀ other ∈ state.downloads, Busy other.phase →
        ∃ same ∈ state.downloads.set dt.serial Download.handOver Download.handOver_serial, same.taskid = other.taskid ∧ Busy same.phase :=
      busy_set Download.handOver_serial (fun _ => rfl) fun _ _ _ _ => .inl rfl
    split at busy
    · next isTask =>
      -- the row of this download is in progress now
      rw [if_pos isTask]
      refine .inr ⟨dt.handOver, (Keyed.mem_set Download.handOver_serial).mpr ⟨dt, (Keyed.find_eq_some.mp there).1, ?_⟩,
        isTask.symm, .inl rfl⟩
      exact (if_pos rfl).symm
    · next other =>
      rw [if_neg other]
      rcases rows old listed busy with resets | ⟨dt, here, isTask, own⟩
      · cases turn.symm.trans resets
      · rw [← isTask]
        exact .inr (answers dt here own)
  | begun dt there phase turn next hands =>
    refine rows.kept (fun _ member _ => member) (by simp [turn]) (busy_set (Download.become_serial next) (fun _ => rfl) ?_)
    intro old _ _ _
    rcases hands with isAsync | isWorker
    · exact .inr (.inl isAsync)
    · exact .inr (.inr (.inl isWorker))
  | refused dt there phase turn =>
    obtain ⟨woken, _, _, same⟩ := freeDownloadTask_eq state (owned.runs there (by rw [phase]; decide))
    rw [same]
    intro row member busy
    by_cases isTask : row.id = dt.taskid
    · exact .inl (congrArg Main.resetting isTask.symm)
    rcases rows row member busy with resets | ⟨other, listed, isOther, own⟩
    · cases turn.symm.trans resets
    · refine .inr ⟨other, Keyed.mem_erase.mpr ⟨listed, fun same => isTask ?_⟩, isOther, own⟩
      rw [← isOther, Owned.same there listed same]
  | returned taskid delete turn tasks fewer =>
    exact rows.kept (fun row member _ => fewer row member) (by simp [turn]) here
  | reset taskid turn =>
    intro row member busy
    obtain ⟨old, ne⟩ := settles_set row member busy
    rcases rows row old busy with resets | answers
    · cases turn.symm.trans resets
      exact absurd rfl ne
    · exact .inr answers
  | waits idle => exact rows.kept (fun _ member _ => member) (by simp [idle]) here
  | stays sleep turn _ => exact rows.kept (fun _ member _ => member) (by simp [turn]) here
  | drained sleep turn => exact rows.kept (fun _ member _ => member) (by simp [turn]) here
  | woken => exact rows.kept (fun _ member _ => member) (fun _ => wake_resetting.mpr) here
  | resized dt _ _ serversize =>
    exact rows.kept (fun _ member _ => member) (fun _ resets => resets)
      (busy_set (Download.resize_serial serversize) (fun _ => rfl) fun _ _ _ own => own)
  | received dt _ _ rd main wakes =>
    refine rows.kept (fun _ member _ => member) (fun taskid resets => ?_)
      (busy_set (Download.receive_serial rd) (fun _ => rfl) fun _ _ _ own => own)
    rcases wakes with rfl | rfl
    · exact resets
    · exact wake_resetting.mpr resets
  | finished dt there _ tasks settles =>
    intro row member busy
    obtain ⟨old, ne⟩ := settles row member busy
    rcases rows row old busy with resets | ⟨other, listed, isOther, own⟩
    · exact .inl resets
    · refine .inr ⟨other, (Keyed.mem_set (Download.become_serial _)).mpr ⟨other, listed, ?_⟩, isOther, own⟩
      rw [if_neg]
      intro same
      exact ne (by rw [← isOther, Owned.same there listed same])
  | deferred dt there phase =>
    exact rows.kept (fun _ member _ => member) (fun _ resets => resets)
      (busy_set (Download.become_serial _) (fun _ => rfl) fun _ _ _ _ => .inr (.inr (.inr rfl)))
  | freed dt there phase =>
    obtain ⟨main, wakes, _, same⟩ := freeDownloadTask_eq state (owned.runs there (by rw [phase]; decide))
    rw [same]
    refine rows.kept (fun _ member _ => member) (fun taskid resets => ?_) (busy_erase there (by simp [Busy, phase]))
    rcases wakes with rfl | rfl
    · exact resets
    · exact wake_resetting.mpr resets
  | stopped which val tasks fewer =>
    refine rows.kept (fun row member _ => fewer row member) (fun _ resets => resets) fun dt member own => ?_
    refine ⟨_, (Keyed.mem_update (Download.halt_serial val)).mpr ⟨dt, member, rfl⟩, ?_⟩
    split
    · exact ⟨rfl, own⟩
    · exact ⟨rfl, own⟩

/-- While no download has started there is nothing to wait for. -/
theorem Counts.full (counts : Counts state) (full : state.startedDownloads ≥ maxParallelDownloads ∨ state.overTreshold = true) :
    state.startedDownloads ≠ 0 := by
  intro zero
  have none : ∀ dt ∈ state.downloads, dt.indwllist = false := by
    intro dt member
    have isZero := Keyed.weight_eq_zero (fun dt => by unfold one; split <;> decide) (counts.started.symm.trans zero) dt member
    unfold one at isZero
    split at isZero
    · cases isZero
    · next stopped => exact Bool.not_eq_true _ ▸ stopped
  have noBytes : state.bytestodownloadcurrent = 0 :=
    counts.bytes.trans (Keyed.sum_eq_zero fun dt member => if_neg (by rw [none dt member]; decide))
  have noGot : state.bytesdownloaded = 0 :=
    counts.got.trans (Keyed.sum_eq_zero fun dt member => if_neg (by rw [none dt member]; decide))
  rcases full with many | much
  · rw [zero] at many
    exact absurd many (by decide)
  · unfold State.overTreshold at much
    rw [noBytes, noGot] at much
    exact absurd much (by decide)

theorem waiting_wake : waiting main.wake = waiting main := by
  cases main with
  | admission serial sleep => cases sleep <;> rfl
  | draining sleep => cases sleep <;> rfl
  | _ => rfl

theorem wake_awake : ¬Asleep main.wake := by
  rintro (asleep | ⟨serial, asleep⟩)
  · cases main with
    | draining sleep => cases sleep <;> cases asleep
    | _ => cases asleep
  · cases main with
    | admission held sleep => cases sleep <;> cases asleep
    | _ => cases asleep

theorem Asleep.waits (asleep : Asleep main) : waiting main = 1 := by
  rcases asleep with rfl | ⟨serial, rfl⟩
  · rfl
  · rfl

theorem moved_woken (owned : Owned state) (counts : Counts state) (woken : Woken state) (moved : Moved state after) : Woken after := by
  have waiters := woken.waiters
  have awake : ∀ {main : Main} {started : ℤ} (_ : ¬Asleep main), Asleep main → started ≠ 0 :=
    fun awake asleep => absurd asleep awake
  have freed : ∀ {main : Main} (_ : main = state.main ∨ main = state.main.wake),
      (state.waiters ≠ 0 → main = state.main.wake) → state.waiters = waiting main ∧ ¬Asleep main := by
    intro main wakes wakens
    refine ⟨?_, fun asleep => ?_⟩
    · rcases wakes with rfl | rfl
      · exact waiters
      · exact waiters.trans waiting_wake.symm
    · rcases wakes with rfl | rfl
      · have waited : state.waiters ≠ 0 := by rw [waiters, asleep.waits]; decide
        exact wake_awake (wakens waited ▸ asleep)
      · exact wake_awake asleep
  cases moved with
  | inserted row _ => exact ⟨waiters, woken.busy⟩
  | missing taskid idle =>
    rw [idle] at waiters
    exact ⟨waiters, awake (by simp [Asleep])⟩
  | taken row size idle =>
    rw [idle] at waiters
    exact ⟨waiters, awake (by simp [Asleep, State.take])⟩
  | abandoned dt there phase sleep turn =>
    rw [turn] at waiters
    exact ⟨by rw [waiters]; exact sub_self _, awake (by simp [Asleep])⟩
  | slept dt there phase sleep turn full =>
    rw [turn] at waiters
    refine ⟨?_, fun _ => counts.full full⟩
    rw [waiters]
    exact congrArg (· + 1) (sub_self (count sleep))
  | admitted dt there phase sleep turn =>
    rw [turn] at waiters
    exact ⟨by rw [waiters]; exact sub_self _, awake (by simp [Asleep])⟩
  | quit dt there phase turn delete =>
    rw [turn] at waiters
    obtain ⟨main, _, _, same⟩ := freeDownloadTask_eq state (owned.runs there (by rw [phase]; decide))
    rw [same]
    exact ⟨waiters, awake (by simp [Asleep])⟩
  | handedOver dt _ _ turn => exact ⟨waiters, woken.busy⟩
  | begun dt _ _ turn next _ =>
    rw [turn] at waiters
    exact ⟨waiters, awake (by simp [Asleep])⟩
  | refused dt there phase turn =>
    rw [turn] at waiters
    obtain ⟨main, _, _, same⟩ := freeDownloadTask_eq state (owned.runs there (by rw [phase]; decide))
    rw [same]
    exact ⟨waiters, awake (by simp [Asleep])⟩
  | returned taskid delete turn tasks _ =>
    rw [turn] at waiters
    exact ⟨waiters, awake (by simp [Asleep])⟩
  | reset taskid turn =>
    rw [turn] at waiters
    exact ⟨waiters, awake (by simp [Asleep])⟩
  | waits idle =>
    rw [idle] at waiters
    exact ⟨waiters, awake (by simp [Asleep])⟩
  | stays sleep turn busy =>
    rw [turn] at waiters
    refine ⟨?_, fun _ => busy⟩
    rw [waiters]
    exact congrArg (· + 1) (sub_self (count sleep))
  | drained sleep turn =>
    rw [turn] at waiters
    exact ⟨by rw [waiters]; exact sub_self _, awake (by simp [Asleep])⟩
  | woken => exact ⟨waiters.trans waiting_wake.symm, awake wake_awake⟩
  | resized dt _ _ serversize => exact ⟨waiters, woken.busy⟩
  | received dt _ _ rd main wakes =>
    rcases wakes with rfl | rfl
    · exact ⟨waiters, woken.busy⟩
    · exact ⟨waiters.trans waiting_wake.symm, awake wake_awake⟩
  | finished dt _ _ tasks _ => exact ⟨waiters, woken.busy⟩
  | deferred dt _ _ => exact ⟨waiters, woken.busy⟩
  | freed dt there phase =>
    obtain ⟨main, wakes, wakens, same⟩ := freeDownloadTask_eq state (owned.runs there (by rw [phase]; decide))
    rw [same]
    exact ⟨(freed wakes wakens).1, awake (freed wakes wakens).2⟩
  | stopped which val tasks _ => exact ⟨waiters, woken.busy⟩

end

/-! Runs, and what is left at the end of one. -/

/-- The states of the runs that go well. -/
inductive Reached : State → Prop
  | init : Reached Pclsync.Downloads.init
  | step {state after : State} (event : Event) (before : Reached state) (smooth : Smooth state event)
      (stepped : step state event = some after) : Reached after

/-- The events by which a thread goes on with what it has begun. -/
def Works : Event → Prop
  | .enter | .quit _ | .handOver | .begin _ | .return | .drain => True
  | .workerEnd _ _ | .asyncEnd _ _ | .timerEnd _ | .free _ => True
  | _ => False

/-- Nobody goes on. -/
def Still (state : State) : Prop := ∀ event, Works event → step state event = none

structure Right (state : State) : Prop where
  counts : Counts state
  owned : Owned state
  rows : Rows state
  woken : Woken state

/-- All downloads have ended. -/
structure Ended (state : State) : Prop where
  downloads : state.downloads.rows = []
  freed : ∀ serial < state.created, serial ∈ state.freed
  started : state.startedDownloads = 0
  files : state.filesdownloading = 0
  bytes : state.bytestodownloadcurrent = 0
  got : state.bytesdownloaded = 0
  rows : ∀ row ∈ state.tasks, row.inprogress = 0
  released : ∀ sleep, state.main ≠ .draining sleep

section
variable {state : State} {dt : Download} {phase : Phase} {act : Download → State}

theorem right_init : Right Pclsync.Downloads.init where
  counts := ⟨rfl, rfl, rfl, rfl⟩
  owned := ⟨nofun, nofun, nofun, nofun, List.nodup_nil⟩
  rows := nofun
  woken := ⟨rfl, by rintro (asleep | ⟨serial, asleep⟩) <;> cases asleep⟩

theorem reached_right (reached : Reached state) : Right state := by
  induction reached with
  | init => exact right_init
  | step event _ smooth stepped right =>
    have moved := step_moved right.owned smooth stepped
    exact ⟨moved_counts right.owned right.counts moved, moved_owned right.owned moved,
      moved_rows right.owned right.rows moved, moved_woken right.owned right.counts right.woken moved⟩

theorem attends (state : State) (member : dt ∈ state.downloads) (same : dt.phase = phase) : state.attend dt.serial phase act ≠ none := by
  unfold State.attend
  rw [Keyed.find_eq_some.mpr ⟨member, rfl⟩]
  dsimp only
  rw [if_pos same]
  exact Option.some_ne_none _

/-- A download that is not in the hands of the download thread goes on. -/
theorem Still.held (still : Still state) (member : dt ∈ state.downloads) (hands : InHands state.main dt) :
    (∃ sleep, dt.phase = .waiting ∧ state.main = .admission dt.serial sleep) ∨ state.main = .preparing dt.serial := by
  unfold InHands at hands
  cases phase : dt.phase <;> rw [phase] at hands
  case waiting =>
    obtain ⟨sleep, turn⟩ := hands
    exact .inl ⟨sleep, rfl, turn⟩
  case admitted => exact .inr hands
  case locked => exact .inr hands
  case async => exact absurd (still (.asyncEnd dt.serial .retry) trivial) (attends state member phase)
  case worker => exact absurd (still (.workerEnd dt.serial true) trivial) (attends state member phase)
  case timer => exact absurd (still (.timerEnd dt.serial) trivial) (attends state member phase)
  case freeing => exact absurd (still (.free dt.serial) trivial) (attends state member phase)
  case forgotten => exact hands.elim

/-- The download thread does not prepare a download for ever. -/
theorem Still.unprepared (still : Still state) (owned : Owned state) (member : dt ∈ state.downloads) :
    state.main ≠ .preparing dt.serial := by
  intro turn
  have hands := (owned.fits dt member).hands
  have quit := still (.handOver) trivial
  have begins := still (.begin true) trivial
  simp only [step] at quit begins
  rw [turn] at quit begins
  unfold InHands at hands
  cases phase : dt.phase <;> rw [phase] at hands
  case waiting =>
    obtain ⟨sleep, held⟩ := hands
    cases turn.symm.trans held
  case admitted => exact attends state member phase quit
  case locked => exact attends state member phase begins
  case async => exact absurd (still (.asyncEnd dt.serial .retry) trivial) (attends state member phase)
  case worker => exact absurd (still (.workerEnd dt.serial true) trivial) (attends state member phase)
  case timer => exact absurd (still (.timerEnd dt.serial) trivial) (attends state member phase)
  case freeing => exact absurd (still (.free dt.serial) trivial) (attends state member phase)
  case forgotten => exact hands

/-- A thread that sleeps is woken by a download that goes on. -/
theorem Still.awake (still : Still state) (right : Right state) : ¬Asleep state.main := by
  intro asleep
  have started := right.woken.busy asleep
  rw [right.counts.started] at started
  refine started (Keyed.sum_eq_zero fun dt member => if_neg fun running => ?_)
  have fits := right.owned.fits dt member
  rcases still.held member fits.hands with ⟨sleep, phase, _⟩ | turn
  · exact fits.running.mp running phase
  · exact still.unprepared right.owned member turn

theorem Still.empty (still : Still state) (right : Right state) : state.downloads.rows = [] := by
  refine List.eq_nil_iff_forall_not_mem.mpr fun dt member => ?_
  rcases still.held member (right.owned.fits dt member).hands with ⟨sleep, phase, turn⟩ | turn
  · have admits := still .enter trivial
    rw [step, turn] at admits
    cases sleep with
    | running => exact attends state member phase admits
    | woken => exact attends { state with waiters := state.waiters - 1 } member phase admits
    | asleep => exact still.awake right (.inr ⟨dt.serial, turn⟩)
  · exact still.unprepared right.owned member turn

theorem Right.ended (right : Right state) (still : Still state) : Ended state := by
  have empty := still.empty right
  have none : ∀ dt, dt ∉ state.downloads := fun dt member => by rw [Keyed.mem_rows, empty] at member; cases member
  have nothing : ∀ weight : Download → ℤ, state.downloads.sum weight = 0 := fun weight =>
    Keyed.sum_eq_zero fun dt member => absurd member (none dt)
  refine ⟨empty, fun serial early => ?_, right.counts.started.trans (nothing _), right.counts.files.trans (nothing _),
    right.counts.bytes.trans (nothing _), right.counts.got.trans (nothing _), fun row member => ?_, fun sleep turn => ?_⟩
  · rcases right.owned.ended serial early with gone | ⟨dt, member, _⟩
    · exact gone
    · exact absurd member (none dt)
  · by_contra busy
    rcases right.rows row member busy with resets | ⟨dt, listed, _⟩
    · have returns := still .return trivial
      rw [step, resets] at returns
      cases returns
    · exact none dt listed
  · have drains := still .drain trivial
    rw [step, turn] at drains
    cases sleep with
    | running => cases drains
    | woken => cases drains
    | asleep => exact still.awake right (.inl turn)

end

theorem unattended {state : State} {serial : ℕ} {phase : Phase} {act : Download → State}
    (others : ∀ dt ∈ state.downloads, dt.phase ≠ phase) : state.attend serial phase act = none := by
  unfold State.attend
  split
  · rfl
  · next dt there => exact if_neg (others dt (Keyed.find_eq_some.mp there).1)

/-- Nobody ends a forgotten download, and nobody wakes the thread that waits for it. -/
theorem still_forgotten {state : State} (asleep : state.main = .draining .asleep)
    (forgotten : ∀ dt ∈ state.downloads, dt.phase = .forgotten) : Still state := by
  have other : ∀ {phase : Phase}, phase ≠ .forgotten → ∀ dt ∈ state.downloads, dt.phase ≠ phase :=
    fun ne dt member same => ne (same.symm.trans (forgotten dt member))
  intro event works
  cases event with
  | workerEnd serial failed => exact unattended (other (by decide))
  | asyncEnd serial result => exact unattended (other (by decide))
  | timerEnd serial => exact unattended (other (by decide))
  | free serial => exact unattended (other (by decide))
  | enter => simp only [step, asleep]
  | quit delete => simp only [step, asleep]
  | handOver => simp only [step, asleep]
  | begin accepted => simp only [step, asleep]
  | «return» => simp only [step, asleep]
  | drain => simp only [step, asleep]
  | _ => exact works.elim

/-- A file is deleted while its download is being finished. -/
def deletedWhileDownloading : List Event :=
  [.insertTask ⟨1, 5, 2, 0⟩, .take 1 (some 100), .enter, .handOver, .begin true, .tasksDelete 5 2 true,
    .asyncEnd 0 (.done true), .wait, .drain]

end Pclsync.Proofs.Downloads
