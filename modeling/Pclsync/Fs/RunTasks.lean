import Pclsync.Library.LittleEndian

/-! A batch of the drive's tasks. The requests go out one behind the other on one connection, and
what the server answers is read in between without waiting, and at the end with waiting. -/

namespace Pclsync.Fs.RunTasks
open Library

/-- `fsupload_task_t`: what is looked at before a task is sent. -/
structure Task where
  id : ℕ
  type : ℕ
  status : ℕ
deriving DecidableEq, Repr

/-- The size of `psync_send_task_func`. The rows of its two types without a function do not have a
status that gets them here. -/
def sendTaskFuncs : ℕ := 13

/-- The status of a task that is to be cancelled. -/
def statusCancelled : ℕ := 11

/-- A type that there is no function for. -/
def Task.Bad (task : Task) : Prop := task.type = 0 ∨ sendTaskFuncs ≤ task.type

instance (task : Task) : Decidable task.Bad := inferInstanceAs (Decidable (_ ∨ _))

variable {R : Type}

/-- A task that the loop came to, with whether its request was sent, and where on the connection
its result was read. -/
structure Item (R : Type) where
  task : Task
  needprocessing : Bool
  sent : Bool
  res : Option (R × ℕ)
deriving DecidableEq, Repr

/-- What a server answers to a request, and `parse_result`. -/
structure Server (R : Type) where
  answer : Task → List UInt8
  fits : ∀ task, (answer task).length < 256 ^ 4
  parse : List UInt8 → Option R

/-- A response: its size and its bytes. -/
def Server.frame (server : Server R) (task : Task) : List UInt8 :=
  leBytes 4 (server.answer task).length ++ server.answer task

/-- `async_result_reader`: in `state` 0 some bytes of the size, in `state` 1 the size and some bytes
of the response. -/
inductive Reader where
  | header (data : List UInt8)
  | body (respsize data : List UInt8)
deriving DecidableEq, Repr

namespace Reader

/-- `papi_rdr_alloc` -/
def alloc : Reader := .header []

/-- `bytestoread - bytesread` -/
def need : Reader → ℕ
  | .header data => 4 - data.length
  | .body respsize data => leNumber respsize - data.length

/-- What was read since the last response. -/
def consumed : Reader → List UInt8
  | .header data => data
  | .body respsize data => respsize ++ data

end Reader

/-- Where the function is: before the next task, in the loop that reads without waiting, in the one
that waits, behind `psync_apipool_release`, and behind `psync_apipool_release_bad`. -/
inductive Phase where
  | sending
  | reading
  | receiving
  | released
  | bad
deriving DecidableEq, Repr

/-- The locals of `psync_fsupload_run_tasks`. The list is in three parts: `passed` before `rtask`,
`queue` from there to `task`, and `todo`. `input` has the bytes of the server's responses that
were not read yet, `received` the number of those that were. -/
structure Batch (R : Type) where
  phase : Phase
  todo : List Task
  passed : List (Item R)
  queue : List (Item R)
  input : List UInt8
  received : ℕ
  reader : Reader
deriving DecidableEq, Repr

/-- What a function of `psync_send_task_func` returns: 0, -1 and -2. -/
inductive Ret where
  | sent
  | failed
  | deferred
deriving DecidableEq, Repr

/-- What `psock_read_noblock` returns. -/
inductive Read where
  | wouldBlock
  | error
  | data (bytes : ℕ)
deriving DecidableEq, Repr

/-- `send` is the loop's next round, `read` a call of `psock_read_noblock`, and `receive` a round of
the last loop, where `ready` says that the connection does not fail. -/
inductive Event where
  | send (ret : Ret)
  | read (outcome : Read)
  | receive (ready : Bool)
deriving DecidableEq, Repr

/-- `rtask` goes on to a task that needs no processing, and that gets the result. -/
def deliver (res : R × ℕ) : List (Item R) → Option (List (Item R) × List (Item R))
  | [] => none
  | item :: rest =>
    if item.needprocessing then (deliver res rest).map fun parts => (item :: parts.1, parts.2)
    else some ([{ item with res := some res }], rest)

/-- `papi_result`: the result, and the number of bytes read. -/
def papiResult (server : Server R) (ready : Bool) (input : List UInt8) : Option (R × ℕ) :=
  let ressize := leNumber (input.take 4)
  if ready = true ∧ 4 ≤ input.length ∧ ressize ≤ (input.drop 4).length then
    (server.parse ((input.drop 4).take ressize)).map fun res => (res, 4 + ressize)
  else none

namespace Batch

def start (tasks : List Task) : Batch R := ⟨.sending, tasks, [], [], [], 0, .alloc⟩

variable (server : Server R) (batch : Batch R)

/-- A task joins the queue. -/
def join (task : Task) (rest : List Task) (needprocessing sent : Bool) : Batch R :=
  { batch with todo := rest, queue := batch.queue ++ [⟨task, needprocessing, sent, none⟩] }

/-- A round of the loop up to the reading. -/
def send (ret : Ret) : Batch R :=
  match batch.todo with
  | [] => { batch with phase := .receiving }
  | task :: rest =>
    if task.Bad then batch.join task rest false false
    else if task.status = statusCancelled then batch.join task rest true false
    else
      match ret with
      | .failed => { batch with phase := .bad }
      | .deferred => batch.join task rest true false
      | .sent => { batch.join task rest false true with phase := .reading, input := batch.input ++ server.frame task }

/-- The read bytes, up to as many as are asked for. -/
def taken (bytes : ℕ) : List UInt8 := batch.input.take (min bytes batch.reader.need)

/-- The bytes come to the reader. -/
def take (bytes : ℕ) (reader : Reader) : Batch R :=
  { batch with
    input := batch.input.drop (min bytes batch.reader.need)
    received := batch.received + (batch.taken bytes).length
    reader := reader }

/-- A result comes out of the reader. -/
def ready (start : ℕ) : Option R → Batch R
  | none => { batch with phase := .bad }
  | some res =>
    match deliver (res, start) batch.queue with
    | none => { batch with phase := .bad }
    | some (delivered, rest) => { batch with passed := batch.passed ++ delivered, queue := rest }

/-- `papi_result_async`, one round of it. -/
def read : Read → Batch R
  | .wouldBlock => { batch with phase := .sending }
  | .error => { batch with phase := .bad }
  | .data bytes =>
    if batch.taken bytes = [] then { batch with phase := .bad }
    else
      match batch.reader with
      | .header data =>
        if (batch.taken bytes).length = batch.reader.need then batch.take bytes (.body (data ++ batch.taken bytes) [])
        else { batch.take bytes (.header (data ++ batch.taken bytes)) with phase := .sending }
      | .body respsize data =>
        if (batch.taken bytes).length = batch.reader.need then
          let response := data ++ batch.taken bytes
          (batch.take bytes .alloc).ready (batch.received - batch.reader.consumed.length) (server.parse response)
        else { batch.take bytes (.body respsize (data ++ batch.taken bytes)) with phase := .sending }

/-- A round of the last loop, or its end. -/
def receive (ready : Bool) : Batch R :=
  match batch.queue with
  | [] => { batch with phase := .released }
  | item :: rest =>
    if item.needprocessing then { batch with passed := batch.passed ++ [item], queue := rest }
    else
      match papiResult server ready batch.input with
      | none => { batch with phase := .bad }
      | some (res, size) => { batch with
          passed := batch.passed ++ [{ item with res := some (res, batch.received) }]
          queue := rest
          input := batch.input.drop size
          received := batch.received + size }

/-- `psync_fsupload_run_tasks` -/
def step : Event → Batch R
  | .send ret => if batch.phase = .sending then batch.send server ret else batch
  | .read outcome => if batch.phase = .reading then batch.read server outcome else batch
  | .receive ready => if batch.phase = .receiving then batch.receive server ready else batch

def items : List (Item R) := batch.passed ++ batch.queue

/-- The calls of `psync_process_task_func` in `psync_fsupload_process_tasks`, which is called behind
the release of the connection. Every other task that is not to be cancelled keeps its row, but
for the ones that the last loop gives to the upload of large files. -/
def processed : List (Task × R) :=
  batch.items.filterMap fun item =>
    if item.task.status = statusCancelled then none else item.res.map fun res => (item.task, res.1)

end Batch

end Pclsync.Fs.RunTasks
