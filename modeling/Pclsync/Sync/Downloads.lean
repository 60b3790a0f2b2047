import Pclsync.Library.Keyed

/-! The downloads that are running, their counters and their tasks. A download goes from the download
thread to the asynchronous transfer or to a thread of its own, and whoever ends it frees it. -/

namespace Pclsync.Downloads
open Library

/-- A row of `task` for a file to download. -/
structure TaskRow where
  id : ℕ
  fileid : ℕ
  syncid : ℕ
  inprogress : ℕ
deriving DecidableEq, Repr

def TaskRow.mark (val : ℕ) (row : TaskRow) : TaskRow := { row with inprogress := val }

theorem TaskRow.mark_id (val : ℕ) (row : TaskRow) : (row.mark val).id = row.id := rfl

/-- Who is to do something about a download next. -/
inductive Phase
  | waiting
  | admitted
  | locked
  | async
  | worker
  | timer
  | freeing
  | forgotten
deriving DecidableEq, Repr

/-- `download_task_t`. The serial number stands for its address. -/
structure Download where
  serial : ℕ
  taskid : ℕ
  fileid : ℕ
  syncid : ℕ
  size : ℕ
  downloadedsize : ℕ
  stop : ℕ
  indwllist : Bool
  lock : Bool
  phase : Phase
deriving DecidableEq, Repr

namespace Download

def become (phase : Phase) (dt : Download) : Download := { dt with phase := phase }
def enter (dt : Download) : Download := { dt with indwllist := true, phase := .admitted }
def handOver (dt : Download) : Download := { dt with lock := true, phase := .locked }
def resize (serversize : ℕ) (dt : Download) : Download := { dt with size := serversize }
def receive (rd : ℕ) (dt : Download) : Download := { dt with downloadedsize := dt.downloadedsize + rd }
def halt (val : ℕ) (dt : Download) : Download := { dt with stop := val }

theorem become_serial (phase : Phase) (dt : Download) : (dt.become phase).serial = dt.serial := rfl
theorem enter_serial (dt : Download) : dt.enter.serial = dt.serial := rfl
theorem handOver_serial (dt : Download) : dt.handOver.serial = dt.serial := rfl
theorem resize_serial (serversize : ℕ) (dt : Download) : (dt.resize serversize).serial = dt.serial := rfl
theorem receive_serial (rd : ℕ) (dt : Download) : (dt.receive rd).serial = dt.serial := rfl
theorem halt_serial (val : ℕ) (dt : Download) : (dt.halt val).serial = dt.serial := rfl

end Download

/-- A thread in `pthread_cond_wait`, and one that has been woken but does not have the mutex yet. -/
inductive Sleep
  | running
  | asleep
  | woken
deriving DecidableEq, Repr

/-- What the download thread is doing. -/
inductive Main
  | idle
  | admission (serial : ℕ) (sleep : Sleep)
  | preparing (serial : ℕ)
  | returning (taskid : ℕ) (delete : Bool)
  | resetting (taskid : ℕ)
  | draining (sleep : Sleep)
deriving DecidableEq, Repr

structure State where
  tasks : Keyed TaskRow.id
  downloads : Keyed Download.serial
  startedDownloads : ℤ
  filesdownloading : ℤ
  bytestodownloadcurrent : ℤ
  bytesdownloaded : ℤ
  waiters : ℤ
  main : Main
  created : ℕ
  freed : List ℕ

/-- `PSYNC_MAX_PARALLEL_DOWNLOADS` -/
def maxParallelDownloads : ℤ := 1024

/-- `PSYNC_START_NEW_DOWNLOADS_TRESHOLD` -/
def startNewDownloadsTreshold : ℤ := 4 * 1024 * 1024

/-- `PSYNC_MAX_SIZE_FOR_ASYNC_DOWNLOAD` -/
def maxSizeForAsyncDownload : ℕ := 256 * 1024

/-- How the asynchronous transfer ends a download. -/
inductive AsyncEnd
  | tooBig
  | permanent
  | retry
  | notModified (statAndCreateLocal : Bool)
  | done (renameAndCreateLocal : Bool)
deriving DecidableEq, Repr

namespace Sleep

/-- `pthread_cond_signal` and `pthread_cond_broadcast` -/
def wake : Sleep → Sleep
  | .asleep => .woken
  | sleep => sleep

end Sleep

namespace Main

def wake : Main → Main
  | .admission serial sleep => .admission serial sleep.wake
  | .draining sleep => .draining sleep.wake
  | main => main

end Main

namespace State

variable (state : State)

/-- The bytes still to come are more than the threshold; the difference is an unsigned one. -/
def overTreshold : Bool :=
  (state.bytestodownloadcurrent - state.bytesdownloaded) % 2 ^ 64 > startNewDownloadsTreshold

/-- Wakes the threads that wait, if there are any. -/
def broadcast : State := if state.waiters ≠ 0 then { state with main := state.main.wake } else state

/-- `UPDATE task SET inprogress=? WHERE id=?` -/
def setTaskInprogress (taskid val : ℕ) : State :=
  { state with tasks := state.tasks.set taskid (TaskRow.mark val) (TaskRow.mark_id val) }

/-- `DELETE FROM task WHERE id=?` -/
def deleteTask (taskid : ℕ) : State := { state with tasks := state.tasks.erase taskid }

/-- `free_download_task` -/
def freeDownloadTask (dt : Download) : State :=
  if dt.indwllist then
    broadcast { state with
      downloads := state.downloads.erase dt.serial
      startedDownloads := state.startedDownloads - 1
      filesdownloading := state.filesdownloading - 1
      bytestodownloadcurrent := state.bytestodownloadcurrent - dt.size
      bytesdownloaded := state.bytesdownloaded - dt.downloadedsize
      freed := dt.serial :: state.freed }
  else { state with freed := dt.serial :: state.freed }

/-- A download that goes on. -/
def become (serial : ℕ) (phase : Phase) : State :=
  { state with downloads := state.downloads.set serial (Download.become phase) (Download.become_serial phase) }

/-- The stop request to some of the running downloads. -/
def stop (which : Download → Bool) (val : ℕ) : State :=
  { state with downloads := state.downloads.update which (Download.halt val) (Download.halt_serial val) }

/-- A download in a phase, with what is done about it. -/
def attend (serial : ℕ) (phase : Phase) (act : Download → State) : Option State :=
  match state.downloads.find serial with
  | none => none
  | some dt => if dt.phase = phase then some (act dt) else none

/-- `task_run_download_file` up to the list of downloads. Without a row in the table `file` the task is deleted. -/
def take (row : TaskRow) (size : Option ℕ) : State :=
  match size with
  | none => { state with main := .returning row.id true }
  | some size =>
    { state with
      downloads := state.downloads.insert ⟨state.created, row.id, row.fileid, row.syncid, size, 0, 0, false, false, .waiting⟩
      created := state.created + 1
      main := .admission state.created .running }

/-- The loop of `task_run_download_file` that waits until the download may start, once the mutex is held. -/
def enter (dt : Download) : State :=
  if dt.stop ≠ 0 then
    { freeDownloadTask { state with downloads := state.downloads.erase dt.serial } dt with main := .returning dt.taskid false }
  else if state.startedDownloads ≥ maxParallelDownloads ∨ state.overTreshold then
    { state with main := .admission dt.serial .asleep, waiters := state.waiters + 1 }
  else
    { state with
      downloads := state.downloads.set dt.serial Download.enter Download.enter_serial
      bytestodownloadcurrent := state.bytestodownloadcurrent + dt.size
      filesdownloading := state.filesdownloading + 1
      startedDownloads := state.startedDownloads + 1
      main := .preparing dt.serial }

/-- The loop of `task_wait_no_downloads`, once the mutex is held. -/
def drain : State :=
  if state.startedDownloads ≠ 0 then { state with main := .draining .asleep, waiters := state.waiters + 1 }
  else { state with main := .idle }

/-- The file is locked and the task is in progress. -/
def handOver (dt : Download) : State :=
  setTaskInprogress
    { state with downloads := state.downloads.set dt.serial Download.handOver Download.handOver_serial }
    dt.taskid 1

/-- A small file goes to the asynchronous transfer, which may not accept it; a large one gets a thread. -/
def begin (accepted : Bool) (dt : Download) : State :=
  if dt.size ≤ maxSizeForAsyncDownload then
    if accepted then { become state dt.serial .async with main := .idle }
    else { freeDownloadTask state dt with main := .resetting dt.taskid }
  else { become state dt.serial .worker with main := .idle }

/-- The server has another size for the file. -/
def resize (serversize : ℕ) (dt : Download) : State :=
  { state with
    bytestodownloadcurrent := state.bytestodownloadcurrent - dt.size + serversize
    downloads := state.downloads.set dt.serial (Download.resize serversize) (Download.resize_serial serversize) }

/-- Some bytes of a file have come. A thread that waits is woken when few are left to come. -/
def receive (rd : ℕ) (dt : Download) : State :=
  let state := { state with
    bytesdownloaded := state.bytesdownloaded + rd
    downloads := state.downloads.set dt.serial (Download.receive rd) (Download.receive_serial rd) }
  if state.waiters ≠ 0 ∧ !state.overTreshold then { state with main := state.main.wake } else state

/-- `task_run_download_file_thread`, when `task_download_file` has returned. -/
def workerEnd (failed : Bool) (dt : Download) : State :=
  if failed then become (setTaskInprogress state dt.taskid 0) dt.serial .freeing
  else become (deleteTask state dt.taskid) dt.serial .freeing

/-- `finish_async_download`, `finish_async_download_existing` and `handle_async_error` -/
def asyncEnd (result : AsyncEnd) (dt : Download) : State :=
  match result with
  | .tooBig => become (setTaskInprogress state dt.taskid 0) dt.serial .freeing
  | .permanent => become (deleteTask state dt.taskid) dt.serial .freeing
  | .retry => become state dt.serial .timer
  | .notModified statAndCreateLocal =>
    if statAndCreateLocal then become (deleteTask state dt.taskid) dt.serial .freeing else become state dt.serial .timer
  | .done renameAndCreateLocal =>
    -- the partial file is deleted, and nothing else
    if dt.stop = 2 then become state dt.serial .forgotten
    else if renameAndCreateLocal then become (deleteTask state dt.taskid) dt.serial .freeing
    else become state dt.serial .timer

/-- `free_task_timer` and `free_task_timer_thread` -/
def timerEnd (dt : Download) : State := become (setTaskInprogress state dt.taskid 0) dt.serial .freeing

/-- `pdownload_tasks_delete` -/
def tasksDelete (fileid syncid : ℕ) (deltemp : Bool) : State :=
  stop { state with tasks := state.tasks.delete fun row => row.fileid = fileid ∧ (syncid = 0 ∨ row.syncid = syncid) }
    (fun dt => dt.fileid = fileid ∧ (syncid = 0 ∨ dt.syncid = syncid)) (if deltemp then 2 else 1)

/-- `pdownload_stop_sync` -/
def stopSync (syncid : ℕ) : State :=
  stop { state with tasks := state.tasks.delete fun row => row.syncid = syncid } (fun dt => dt.syncid = syncid) 1

end State

/-- What the threads do, in any order. -/
inductive Event
  | insertTask (row : TaskRow)
  | take (id : ℕ) (size : Option ℕ)
  | enter
  | quit (delete : Bool)
  | handOver
  | begin (accepted : Bool)
  | return
  | wait
  | drain
  | spurious
  | resize (serial serversize : ℕ)
  | receive (serial rd : ℕ)
  | workerEnd (serial : ℕ) (failed : Bool)
  | asyncEnd (serial : ℕ) (result : AsyncEnd)
  | timerEnd (serial : ℕ)
  | free (serial : ℕ)
  | tasksDelete (fileid syncid : ℕ) (deltemp : Bool)
  | stopFile (fileid syncid : ℕ)
  | stopSync (syncid : ℕ)
  | stopAll
deriving DecidableEq, Repr

open State in
/-- One step. An event whose thread is not there yet is none. -/
def step (state : State) : Event → Option State
  | .insertTask row =>
    if row.inprogress = 0 ∧ state.tasks.find row.id = none then some { state with tasks := state.tasks.insert row } else none
  | .take id size =>
    match state.main, state.tasks.find id with
    | .idle, some row =>
      if row.inprogress = 0 ∧ ∀ other ∈ state.tasks.rows, other.inprogress = 0 → row.id ≤ other.id then
        some (take state row size)
      else none
    | _, _ => none
  | .enter =>
    match state.main with
    | .admission serial .running => attend state serial .waiting (enter state)
    | .admission serial .woken => attend state serial .waiting (enter { state with waiters := state.waiters - 1 })
    | _ => none
  | .quit delete =>
    match state.main with
    | .preparing serial => attend state serial .admitted fun dt =>
        { freeDownloadTask state dt with main := .returning dt.taskid delete }
    | _ => none
  | .handOver =>
    match state.main with
    | .preparing serial => attend state serial .admitted (handOver state)
    | _ => none
  | .begin accepted =>
    match state.main with
    | .preparing serial => attend state serial .locked (begin state accepted)
    | _ => none
  | .return =>
    match state.main with
    | .returning taskid delete => some { (if delete then deleteTask state taskid else state) with main := .idle }
    | .resetting taskid => some { setTaskInprogress state taskid 0 with main := .idle }
    | _ => none
  | .wait =>
    match state.main with
    | .idle => some { state with main := .draining .running }
    | _ => none
  | .drain =>
    match state.main with
    | .draining .running => some (drain state)
    | .draining .woken => some (drain { state with waiters := state.waiters - 1 })
    | _ => none
  | .spurious => some { state with main := state.main.wake }
  | .resize serial serversize => attend state serial .worker (resize state serversize)
  | .receive serial rd => attend state serial .worker (receive state rd)
  | .workerEnd serial failed => attend state serial .worker (workerEnd state failed)
  | .asyncEnd serial result => attend state serial .async (asyncEnd state result)
  | .timerEnd serial => attend state serial .timer (timerEnd state)
  | .free serial => attend state serial .freeing (freeDownloadTask state)
  | .tasksDelete fileid syncid deltemp => some (tasksDelete state fileid syncid deltemp)
  | .stopFile fileid syncid => some (stop state (fun dt => dt.fileid = fileid ∧ dt.syncid = syncid) 1)
  | .stopSync syncid => some (stopSync state syncid)
  | .stopAll => some (stop state (fun _ => true) 1)

/-- Nothing has been downloaded yet. -/
def init : State where
  tasks := ⟨[], List.nodup_nil⟩
  downloads := ⟨[], List.nodup_nil⟩
  startedDownloads := 0
  filesdownloading := 0
  bytestodownloadcurrent := 0
  bytesdownloaded := 0
  waiters := 0
  main := .idle
  created := 0
  freed := []

end Pclsync.Downloads
