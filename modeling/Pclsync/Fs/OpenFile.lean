import Mathlib

/-! The references to an open file. A handle has one, and so have the timer that waits for the
writes to stop, the thread that the timer starts, and the threads that read or extend the
file. Each part of a call that holds the lock of the file is one step. -/

namespace Pclsync.Fs.Open

/-- The `opts` of a write timer, with whether its callback was called. -/
structure Timer where
  isRunning : Bool
  stopAfterRun : Bool
  called : Bool
deriving DecidableEq, Repr

/-- `psync_openfile_t`, with whether it is in `openfiles`, how often it was freed, and its
timers. Then how many there are of each that can have a reference: handles, calls of
`psync_fs_dec_of_refcnt` for one, callbacks of a timer before that call, threads that release
the file for upload, and threads that read or extend it. -/
structure OpenFile where
  fileid : ℤ
  refcnt : ℕ
  writeid : ℕ
  writetimer : Option ℕ
  modified : Bool
  staticfile : Bool
  releasedforupload : Bool
  linked : Bool
  frees : ℕ
  timers : ℕ → Option Timer
  nextTimer : ℕ
  handles : ℕ
  closing : ℕ
  expired : ℕ
  releasing : ℕ
  helpers : ℕ

/-- What an open sets in the file that it created or found. -/
structure Setup where
  released : Option Bool
  modified : Option Bool
  static : Bool
deriving DecidableEq, Repr

/-- What `psync_fs_create_file` allocates. -/
def OpenFile.create (fileid : ℤ) (writeid : ℕ) : OpenFile where
  fileid := fileid
  refcnt := 1
  writeid := writeid
  writetimer := none
  modified := fileid < 0
  staticfile := false
  releasedforupload := false
  linked := true
  frees := 0
  timers := fun _ => none
  nextTimer := 0
  handles := 1
  closing := 0
  expired := 0
  releasing := 0
  helpers := 0

namespace OpenFile
variable (of : OpenFile)

def setup (setup : Setup) : OpenFile :=
  { of with
    releasedforupload := setup.released.getD of.releasedforupload
    modified := setup.modified.getD of.modified
    staticfile := of.staticfile || setup.static }

/-- `psync_fs_inc_of_refcnt_locked` -/
def incRefcnt : OpenFile := { of with refcnt := of.refcnt + 1 }

/-- `psync_fs_dec_of_refcnt` -/
def decRefcnt : OpenFile :=
  let of := { of with refcnt := of.refcnt - 1 }
  if of.refcnt = 0 then { of with linked := false, frees := of.frees + 1 } else of

def setTimer (id : ℕ) (timer : Option Timer) : OpenFile := { of with timers := Function.update of.timers id timer }

/-- `ptimer_stop`, if the timer is still there, and whether it runs. -/
def ptimerStop (id : ℕ) : Option (Bool × OpenFile) :=
  (of.timers id).map fun timer =>
    if timer.isRunning then (true, of.setTimer id (some { timer with stopAfterRun := true })) else (false, of.setTimer id none)

/-- `ptimer_register` -/
def ptimerRegister : OpenFile :=
  { of.setTimer of.nextTimer (some ⟨false, false, false⟩) with nextTimer := of.nextTimer + 1, writetimer := some of.nextTimer }

/-- `psync_fs_inc_writeid_locked` -/
def incWriteid : Option OpenFile :=
  let of := { of with releasedforupload := false, writeid := of.writeid + 1 }
  match of.writetimer with
  | none => some of.incRefcnt.ptimerRegister
  | some id =>
    match of.ptimerStop id with
    | none => none
    | some (true, of) => some of
    | some (false, of) => some of.ptimerRegister

/-- `psync_fs_flush` as long as it holds the lock, with whether `pfscrypto_flush` succeeds. -/
def flush (flushed : Bool) : Option OpenFile :=
  if ¬ of.modified ∨ of.staticfile ∨ ¬ flushed then some of
  else
    let of := { of with releasedforupload := true }
    match of.writetimer with
    | none => some of
    | some id =>
      match of.ptimerStop id with
      | none => none
      | some (true, of) => some of
      | some (false, of) => some { of with refcnt := of.refcnt - 1, writetimer := none }

/-- `psync_fs_write_timer` as long as it holds the lock. -/
def writeTimer (id : ℕ) (flushed : Bool) : Option OpenFile :=
  match of.ptimerStop id with
  | none => none
  | some (_, of) =>
    let of := { of with writetimer := none }
    if of.releasedforupload then some { of with expired := of.expired + 1 }
    else if of.modified then
      if of.staticfile ∨ ¬ flushed then some { of with expired := of.expired + 1 }
      else some { of with releasedforupload := true, releasing := of.releasing + 1 }
    else some { of with expired := of.expired + 1 }

end OpenFile

/-- What happens to a file. -/
inductive Event where
  | opened (setup : Setup)
  | openFailed
  | write
  | reopen
  | uploaded (writeid : ℕ) (newfileid : ℤ)
  | flush (flushed : Bool)
  | release (flushed : Bool)
  | close
  | prepare (id : ℕ)
  | call (id : ℕ) (flushed : Bool)
  | expire
  | finish (id : ℕ)
  | released
  | help
  | helped
deriving DecidableEq, Repr

/-- One step with a file, if there is who can take it. -/
def OpenFile.step (of : OpenFile) : Event → Option OpenFile
  -- `psync_fs_create_file` finds the file
  | .opened setup => if of.linked then some ({ of.incRefcnt with handles := of.handles + 1 }.setup setup) else none
  -- `open_write_files` fails
  | .openFailed => if 0 < of.handles then some { of with handles := of.handles - 1, closing := of.closing + 1 } else none
  | .write => if 0 < of.handles then of.incWriteid else none
  | .reopen => if 0 < of.handles then some { of with modified := true, staticfile := false } else none
  -- `psync_fs_update_openfile`
  | .uploaded writeid newfileid =>
    if of.linked ∧ of.writeid = writeid then
      some { of with fileid := newfileid, modified := false, releasedforupload := false }
    else none
  | .flush flushed => if 0 < of.handles then of.flush flushed else none
  -- `psync_fs_release`, which flushes first
  | .release flushed =>
    if 0 < of.handles then (of.flush flushed).map fun of => { of with handles := of.handles - 1, closing := of.closing + 1 }
    else none
  | .close => if 0 < of.closing then some { of.decRefcnt with closing := of.closing - 1 } else none
  -- `timer_prepare_timers`
  | .prepare id =>
    match of.timers id with
    | some timer => if timer.isRunning then none else some (of.setTimer id (some { timer with isRunning := true }))
    | none => none
  -- `timer_process_timers`
  | .call id flushed =>
    match of.timers id with
    | some timer =>
      if timer.isRunning ∧ ¬ timer.called then (of.setTimer id (some { timer with called := true })).writeTimer id flushed else none
    | none => none
  | .expire => if 0 < of.expired then some { of.decRefcnt with expired := of.expired - 1 } else none
  | .finish id =>
    match of.timers id with
    | some timer =>
      if timer.called then some (of.setTimer id (if timer.stopAfterRun then none else some ⟨false, false, false⟩)) else none
    | none => none
  -- `psync_fs_upload_release_timer`
  | .released => if 0 < of.releasing then some { of.decRefcnt with releasing := of.releasing - 1 } else none
  | .help => if 0 < of.handles then some { of.incRefcnt with helpers := of.helpers + 1 } else none
  | .helped => if 0 < of.helpers then some { of.decRefcnt with helpers := of.helpers - 1 } else none

/-- The open files by the order in which they were allocated. -/
structure Files where
  file : ℕ → OpenFile
  next : ℕ

/-- A file is created, or something happens to one that was. -/
inductive Step : Files → Files → Prop where
  | create {files : Files} (fileid : ℤ) (writeid : ℕ) (setup : Setup)
    (absent : ∀ i < files.next, ¬ ((files.file i).linked ∧ (files.file i).fileid = fileid)) :
    Step files ⟨Function.update files.file files.next ((OpenFile.create fileid writeid).setup setup), files.next + 1⟩
  | event {files : Files} {after : OpenFile} (i : ℕ) (event : Event) (inside : i < files.next)
    (goes : (files.file i).step event = some after) : Step files ⟨Function.update files.file i after, files.next⟩

end Pclsync.Fs.Open
