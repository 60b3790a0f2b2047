import Mathlib

/-! A socket with write buffers: bytes wait in a list of buffers of fixed sizes until the transport
takes them, and without a buffer they go to the transport directly. -/

namespace Pclsync.Net

def FIRST_SOCK_WRITE_BUFF_SIZE : ℕ := 2700
def SECOND_SOCK_WRITE_BUFF_SIZE : ℕ := 64 * 1024

/-- What the transport says to a send. SSL does not tell an interrupted one from another error. -/
inductive Outcome where
  | accept (bytes : ℕ)
  | wouldBlock
  | interrupted
  | error
deriving DecidableEq, Repr

variable {β : Type}

/-- `psock_buf_t`, with the bytes that were written to it, so `woffset` is their number. -/
structure Buf (β : Type) where
  size : ℕ
  buff : List β
  roffset : ℕ
  written : roffset ≤ buff.length
  fits : buff.length ≤ size
deriving DecidableEq, Repr

namespace Buf

def woffset (b : Buf β) : ℕ := b.buff.length

def alloc (size : ℕ) : Buf β := ⟨size, [], 0, by simp, by simp⟩

def room (b : Buf β) : ℕ := b.size - b.woffset

/-- The bytes that the transport has not taken yet. -/
def pending (b : Buf β) : List β := b.buff.drop b.roffset

/-- `memcpy` behind `woffset`, for bytes that have room. -/
def copy (b : Buf β) (bytes : List β) (fits : bytes.length ≤ b.room) : Buf β where
  size := b.size
  buff := b.buff ++ bytes
  roffset := b.roffset
  written := by have := b.written; rw [List.length_append]; omega
  fits := by have := b.fits; unfold room woffset at fits; rw [List.length_append]; omega

/-- `b->roffset += cw` -/
def advance (b : Buf β) (cw : ℕ) (taken : cw ≤ b.pending.length) : Buf β where
  size := b.size
  buff := b.buff
  roffset := b.roffset + cw
  written := by have := b.written; unfold pending at taken; rw [List.length_drop] at taken; omega
  fits := b.fits

end Buf

/-- The loop of `psync_socket_write_to_buf` for bytes that do not fit in the last buffer `b`. -/
def writeChunks (b : Buf β) (bytes : List β) : List (Buf β) :=
  if bytes = [] then [b]
  else if b.room = 0 then
    let next : Buf β := .alloc SECOND_SOCK_WRITE_BUFF_SIZE
    let wr := min SECOND_SOCK_WRITE_BUFF_SIZE bytes.length
    b :: writeChunks (next.copy (bytes.take wr) (by simp [next, Buf.room, Buf.alloc, Buf.woffset, wr])) (bytes.drop wr)
  else
    let wr := min b.room bytes.length
    writeChunks (b.copy (bytes.take wr) (by simp [wr])) (bytes.drop wr)
termination_by bytes.length
decreasing_by
  all_goals
    rename_i some _
    have : 0 < bytes.length := List.length_pos_of_ne_nil some
    simp only [List.length_drop, SECOND_SOCK_WRITE_BUFF_SIZE]
    omega

/-- `psync_socket_write_to_buf`: the bytes go behind those of the last buffer. -/
def writeToBuf : List (Buf β) → List β → List (Buf β)
  | [], _ => []
  | [b], bytes => if fits : bytes.length ≤ b.room then [b.copy bytes fits] else writeChunks b bytes
  | b :: next :: rest, bytes => b :: writeToBuf (next :: rest) bytes

/-- The loop of `psock_try_write_buffer`: the buffers that stay, the bytes that the transport took,
and the result. `outcomes` has what the transport says to each send, where a list that is too
short means that it would block. -/
def tryWriteLoop (ssl : Bool) : List (Buf β) → List Outcome → ℤ → List (Buf β) × List β × ℤ
  | [], _, wrt => ([], [], wrt)
  | b :: rest, outcomes, wrt =>
    if b.roffset = b.woffset then tryWriteLoop ssl rest outcomes wrt
    else
      match outcomes with
      | [] => (b :: rest, [], wrt)
      | .accept bytes :: outcomes =>
        let cw := min bytes b.pending.length
        if cw = b.pending.length then
          let (buffer, sent, ret) := tryWriteLoop ssl rest outcomes (wrt + cw)
          (buffer, b.pending ++ sent, ret)
        else (b.advance cw (by simp [cw]) :: rest, b.pending.take cw, wrt + cw)
      | .wouldBlock :: _ => (b :: rest, [], wrt)
      | .interrupted :: _ => (b :: rest, [], if ssl = true ∧ wrt = 0 then -1 else wrt)
      | .error :: _ => (b :: rest, [], if wrt = 0 then -1 else wrt)

/-- The loop of `psync_socket_writeall_ssl` and `psync_socket_writeall_plain` from `br` on: how
many bytes the transport took in all, and the result. Each outcome has whether the wait behind it
ends before its timeout. -/
def writeallLoop (ssl : Bool) (num : ℕ) : List (Outcome × Bool) → ℕ → ℕ × ℤ
  | [], br => (br, if br < num then -1 else br)
  | (outcome, ready) :: outcomes, br =>
    if br < num then
      match outcome with
      | .accept bytes =>
        let r := min bytes (num - br)
        if ssl = true ∧ r = 0 then (br, br) else writeallLoop ssl num outcomes (br + r)
      | .wouldBlock => if ready then writeallLoop ssl num outcomes br else (br, -1)
      | _ => (br, -1)
    else (br, br)

/-- `psock_t`, with the bytes that the transport took, those that the write functions counted as
written, in the order in which they did, and for each thread inside `psock_writeall_thread` its
bytes and its `br`. -/
structure Sock (T β : Type) where
  ssl : Bool
  buffer : List (Buf β)
  sent : List β
  accepted : List β
  writer : T → Option (List β × ℕ)

variable {T : Type}

namespace Sock

def connect (T β : Type) (ssl : Bool) : Sock T β := ⟨ssl, [], [], [], fun _ => none⟩

variable (sock : Sock T β)

def pending : List β := sock.buffer.flatMap Buf.pending

/-- `psock_try_write_buffer` -/
def tryWriteBuffer (outcomes : List Outcome) : Sock T β × ℤ :=
  let (buffer, sent, ret) := tryWriteLoop sock.ssl sock.buffer outcomes 0
  ({ sock with buffer := buffer, sent := sock.sent ++ sent }, ret)

/-- `psock_set_write_buffered` -/
def setWriteBuffered : Sock T β :=
  if sock.buffer = [] then { sock with buffer := [.alloc FIRST_SOCK_WRITE_BUFF_SIZE] } else sock

/-- `psock_clear_write_buffered` -/
def clearWriteBuffered : Sock T β := { sock with buffer := [] }

/-- The bytes go to the buffers, and `counted` of them count as written. -/
def putBuffered (bytes counted : List β) : Sock T β :=
  { sock with buffer := writeToBuf sock.buffer bytes, accepted := sock.accepted ++ counted }

/-- The transport takes the bytes. -/
def putDirect (bytes : List β) : Sock T β :=
  { sock with sent := sock.sent ++ bytes, accepted := sock.accepted ++ bytes }

/-- `psock_write` -/
def write (bytes : List β) (ready : Bool) (outcome : Outcome) : Sock T β × ℤ :=
  if sock.buffer ≠ [] then (sock.putBuffered bytes bytes, bytes.length)
  else if !ready then (sock, -1)
  else
    match outcome with
    | .accept taken => (sock.putDirect (bytes.take taken), min taken bytes.length)
    | .wouldBlock => (sock, 0)
    | .interrupted => (sock, if sock.ssl then -1 else 0)
    | .error => (sock, -1)

/-- `psock_writeall` -/
def writeall (bytes : List β) (outcomes : List (Outcome × Bool)) : Sock T β × ℤ :=
  if sock.buffer ≠ [] then (sock.putBuffered bytes bytes, bytes.length)
  else
    let (br, ret) := writeallLoop sock.ssl bytes.length outcomes 0
    (sock.putDirect (bytes.take br), ret)

variable [DecidableEq T] (thread : T)

/-- A thread in `psock_writeall_thread` goes on with `br`, or is through. -/
def setWriter (bytes : List β) (br : ℕ) : Sock T β :=
  { sock with writer := Function.update sock.writer thread (if br < bytes.length then some (bytes, br) else none) }

def leave : Sock T β := { sock with writer := Function.update sock.writer thread none }

/-- A round of the loops of `psync_socket_writeall_ssl_thread` and
`psync_socket_writeall_plain_thread`. -/
def attempt (bytes : List β) (br : ℕ) (outcome : Outcome) (ready : Bool) : Sock T β :=
  if sock.buffer ≠ [] then
    (sock.putBuffered bytes (bytes.drop br)).setWriter thread bytes (br + bytes.length)
  else
    match outcome with
    | .accept taken =>
      let r := min taken (bytes.length - br)
      if sock.ssl = true ∧ r = 0 then sock.leave thread
      else (sock.putDirect ((bytes.drop br).take r)).setWriter thread bytes (br + r)
    | .wouldBlock => if ready then sock else sock.leave thread
    | _ => sock.leave thread

end Sock

/-- What the threads that share the socket do. `write` and `writeall` are without the lock, for a
socket of one thread; `enter` and `attempt` are `psock_writeall_thread`, which has the lock for
one round of its loop at a time. -/
inductive Event (T β : Type) where
  | tryWriteBuffer (outcomes : List Outcome)
  | setWriteBuffered
  | clearWriteBuffered
  | write (bytes : List β) (ready : Bool) (outcome : Outcome)
  | writeall (bytes : List β) (outcomes : List (Outcome × Bool))
  | enter (thread : T) (bytes : List β)
  | attempt (thread : T) (outcome : Outcome) (ready : Bool)

variable [DecidableEq T]

def Sock.step (sock : Sock T β) : Event T β → Sock T β
  | .tryWriteBuffer outcomes => (sock.tryWriteBuffer outcomes).1
  | .setWriteBuffered => sock.setWriteBuffered
  | .clearWriteBuffered => sock.clearWriteBuffered
  | .write bytes ready outcome => (sock.write bytes ready outcome).1
  | .writeall bytes outcomes => (sock.writeall bytes outcomes).1
  | .enter thread bytes => if (sock.writer thread).isSome then sock else sock.setWriter thread bytes 0
  | .attempt thread outcome ready =>
    match sock.writer thread with
    | some (bytes, br) => sock.attempt thread bytes br outcome ready
    | none => sock

/-- The buffers are cleared by a caller that has read the reply to everything it wrote. -/
def Sock.Permits (sock : Sock T β) : Event T β → Prop
  | .clearWriteBuffered => sock.pending = []
  | _ => True

/-- A thread that finds a buffer has sent nothing of its bytes before. -/
def Sock.Sound (sock : Sock T β) : Event T β → Prop
  | .attempt thread _ _ => sock.buffer ≠ [] → ∀ bytes br, sock.writer thread = some (bytes, br) → br = 0
  | _ => True

/-- What the transport took and what still waits are the bytes that were counted as written. -/
def Sock.Fifo (sock : Sock T β) : Prop := sock.sent ++ sock.pending = sock.accepted

/-- The states of a socket whose threads never find a buffer behind a send of their own. -/
inductive Sock.Reached (ssl : Bool) : Sock T β → Prop where
  | connect : Reached ssl (.connect T β ssl)
  | step {sock : Sock T β} (event : Event T β) (reached : Reached ssl sock) (permits : sock.Permits event)
      (sound : sock.Sound event) : Reached ssl (sock.step event)

end Pclsync.Net
