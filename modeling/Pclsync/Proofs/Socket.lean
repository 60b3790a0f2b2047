import Pclsync.Net.Socket

/-! The bytes that leave a socket against those that were written to it. They are the same in the
same order in every run in which no thread puts its bytes in a buffer behind a send of its own,
and a thread that does breaks it. -/

namespace Pclsync.Proofs.Socket
open Net

variable {T β : Type}

section Buffers

@[simp] theorem pending_alloc (size : ℕ) : (Buf.alloc size : Buf β).pending = [] := rfl

@[simp] theorem pending_copy (b : Buf β) (bytes : List β) (fits : bytes.length ≤ b.room) :
    (b.copy bytes fits).pending = b.pending ++ bytes :=
  List.drop_append_of_le_length b.written

@[simp] theorem pending_advance (b : Buf β) (cw : ℕ) (taken : cw ≤ b.pending.length) :
    (b.advance cw taken).pending = b.pending.drop cw := by
  simp [Buf.pending, Buf.advance, List.drop_drop]

theorem pending_drained {b : Buf β} (drained : b.roffset = b.woffset) : b.pending = [] := by
  rw [Buf.pending, drained]
  exact List.drop_length

theorem writeChunks_pending (b : Buf β) (bytes : List β) :
    (writeChunks b bytes).flatMap Buf.pending = b.pending ++ bytes := by
  induction b, bytes using writeChunks.induct with
  | case1 b => simp [writeChunks]
  | case2 b bytes some full next wr ih =>
    rw [writeChunks, if_neg some, if_pos full, List.flatMap_cons, ih, pending_copy]
    simp [next]
  | case3 b bytes some room wr ih =>
    rw [writeChunks, if_neg some, if_neg room, ih, pending_copy]
    simp

/-- Bytes written to a list of buffers come behind all that waits there. -/
theorem writeToBuf_pending {buffer : List (Buf β)} (buffered : buffer ≠ []) (bytes : List β) :
    (writeToBuf buffer bytes).flatMap Buf.pending = buffer.flatMap Buf.pending ++ bytes := by
  induction buffer using List.twoStepInduction with
  | nil => exact absurd rfl buffered
  | singleton b =>
    unfold writeToBuf
    split
    · simp
    · simp [writeChunks_pending]
  | cons_cons b next rest _ ih =>
    rw [writeToBuf, List.flatMap_cons, ih next (List.cons_ne_nil _ _)]
    simp

/-- What the transport takes from the buffers is the first part of what waits there. -/
theorem tryWriteLoop_pending (ssl : Bool) (buffer : List (Buf β)) (outcomes : List Outcome) (wrt : ℤ) :
    (tryWriteLoop ssl buffer outcomes wrt).2.1 ++ (tryWriteLoop ssl buffer outcomes wrt).1.flatMap Buf.pending =
      buffer.flatMap Buf.pending := by
  induction buffer generalizing outcomes wrt with
  | nil => rfl
  | cons b rest ih =>
    unfold tryWriteLoop
    split
    next drained => rw [ih, List.flatMap_cons, pending_drained drained, List.nil_append]
    next =>
      split
      · rfl
      · simp only []
        split
        · rw [List.append_assoc, ih, List.flatMap_cons]
        · simp [← List.append_assoc]
      all_goals rfl

end Buffers

variable {sock : Sock T β}

theorem fifo_putBuffered (fifo : sock.Fifo) (buffered : sock.buffer ≠ []) (bytes : List β) :
    (sock.putBuffered bytes bytes).Fifo := by
  unfold Sock.Fifo Sock.pending Sock.putBuffered
  rw [writeToBuf_pending buffered, ← List.append_assoc]
  exact congrArg (· ++ bytes) fifo

theorem fifo_putDirect (fifo : sock.Fifo) (direct : sock.buffer = []) (bytes : List β) :
    (sock.putDirect bytes).Fifo := by
  unfold Sock.Fifo Sock.pending at fifo ⊢
  simp only [direct, List.flatMap_nil, List.append_nil, Sock.putDirect] at fifo ⊢
  rw [fifo]

/-- Bytes in a buffer of which only some count: the stream has too many. -/
theorem not_fifo_putBuffered (fifo : sock.Fifo) (buffered : sock.buffer ≠ []) {bytes counted : List β}
    (fewer : counted.length < bytes.length) : ¬(sock.putBuffered bytes counted).Fifo := by
  intro after
  unfold Sock.Fifo Sock.pending Sock.putBuffered at after
  rw [writeToBuf_pending buffered, ← List.append_assoc] at after
  have same : sock.sent ++ sock.buffer.flatMap Buf.pending = sock.accepted := fifo
  rw [same, List.append_cancel_left_eq] at after
  rw [after] at fewer
  exact Nat.lt_irrefl _ fewer

theorem fifo_tryWriteBuffer (fifo : sock.Fifo) (outcomes : List Outcome) : (sock.tryWriteBuffer outcomes).1.Fifo := by
  unfold Sock.Fifo Sock.pending Sock.tryWriteBuffer
  rw [List.append_assoc, tryWriteLoop_pending]
  exact fifo

theorem fifo_setWriteBuffered (fifo : sock.Fifo) : sock.setWriteBuffered.Fifo := by
  unfold Sock.setWriteBuffered
  split
  next direct =>
    unfold Sock.Fifo Sock.pending at fifo ⊢
    simpa [direct] using fifo
  next => exact fifo

theorem fifo_clearWriteBuffered (fifo : sock.Fifo) (drained : sock.pending = []) : sock.clearWriteBuffered.Fifo := by
  unfold Sock.Fifo at fifo ⊢
  rw [drained] at fifo
  exact fifo

theorem fifo_write (fifo : sock.Fifo) (bytes : List β) (ready : Bool) (outcome : Outcome) :
    (sock.write bytes ready outcome).1.Fifo := by
  unfold Sock.write
  split
  next buffered => exact fifo_putBuffered fifo buffered bytes
  next direct =>
    split
    · exact fifo
    · cases outcome with
      | accept taken => exact fifo_putDirect fifo (not_not.mp direct) _
      | wouldBlock | interrupted | error => exact fifo

theorem fifo_writeall (fifo : sock.Fifo) (bytes : List β) (outcomes : List (Outcome × Bool)) :
    (sock.writeall bytes outcomes).1.Fifo := by
  unfold Sock.writeall
  split
  next buffered => exact fifo_putBuffered fifo buffered bytes
  next direct => exact fifo_putDirect fifo (not_not.mp direct) _

/-- Outside `psock_writeall_thread` no step moves a thread. -/
theorem writer_write (bytes : List β) (ready : Bool) (outcome : Outcome) :
    (sock.write bytes ready outcome).1.writer = sock.writer := by
  unfold Sock.write
  split
  · rfl
  · split
    · rfl
    · cases outcome <;> rfl

theorem writer_writeall (bytes : List β) (outcomes : List (Outcome × Bool)) :
    (sock.writeall bytes outcomes).1.writer = sock.writer := by
  unfold Sock.writeall
  split <;> rfl

variable [DecidableEq T]

/-- Only the threads inside know of where they are. -/
@[simp] theorem fifo_setWriter (thread : T) (bytes : List β) (br : ℕ) : (sock.setWriter thread bytes br).Fifo ↔ sock.Fifo :=
  Iff.rfl

@[simp] theorem fifo_leave (thread : T) : (sock.leave thread).Fifo ↔ sock.Fifo := Iff.rfl

theorem fifo_attempt_direct (fifo : sock.Fifo) (direct : sock.buffer = []) (thread : T) (bytes : List β) (br : ℕ)
    (outcome : Outcome) (ready : Bool) : (sock.attempt thread bytes br outcome ready).Fifo := by
  unfold Sock.attempt
  rw [if_neg (not_not.mpr direct)]
  cases outcome with
  | accept taken =>
    simp only []
    split
    · exact fifo
    · exact (fifo_setWriter ..).mpr (fifo_putDirect fifo direct _)
  | wouldBlock =>
    simp only []
    split
    · exact fifo
    · exact fifo
  | interrupted | error => exact fifo

/-- A round that finds a buffer puts all bytes of the call there, so it is right only as the first. -/
theorem fifo_attempt_buffered (fifo : sock.Fifo) (buffered : sock.buffer ≠ []) (thread : T) {bytes : List β} {br : ℕ}
    (left : br < bytes.length) (outcome : Outcome) (ready : Bool) :
    (sock.attempt thread bytes br outcome ready).Fifo ↔ br = 0 := by
  unfold Sock.attempt
  rw [if_pos buffered, fifo_setWriter]
  constructor
  · intro after
    by_contra behind
    have fewer : (bytes.drop br).length < bytes.length := by rw [List.length_drop]; omega
    exact not_fifo_putBuffered fifo buffered fewer after
  · rintro rfl
    exact fifo_putBuffered fifo buffered bytes

/-- A thread inside `psock_writeall_thread` has bytes left. -/
def Left (sock : Sock T β) : Prop := ∀ thread bytes br, sock.writer thread = some (bytes, br) → br < bytes.length

theorem left_setWriter (kept : Left sock) (thread : T) (bytes : List β) (br : ℕ) : Left (sock.setWriter thread bytes br) := by
  intro other bytes' br' inside
  simp only [Sock.setWriter, Function.update_apply] at inside
  split at inside
  · split at inside
    next left =>
      cases inside
      exact left
    next => cases inside
  · exact kept other bytes' br' inside

theorem left_leave (kept : Left sock) (thread : T) : Left (sock.leave thread) := by
  intro other bytes br inside
  simp only [Sock.leave, Function.update_apply] at inside
  split at inside
  · cases inside
  · exact kept other bytes br inside

theorem left_attempt (kept : Left sock) (thread : T) (bytes : List β) (br : ℕ) (outcome : Outcome) (ready : Bool) :
    Left (sock.attempt thread bytes br outcome ready) := by
  unfold Sock.attempt
  split
  · exact left_setWriter (show Left (sock.putBuffered bytes (bytes.drop br)) from kept) thread bytes _
  · cases outcome with
    | accept taken =>
      simp only []
      split
      · exact left_leave kept thread
      · exact left_setWriter (show Left (sock.putDirect _) from kept) thread bytes _
    | wouldBlock =>
      simp only []
      split
      · exact kept
      · exact left_leave kept thread
    | interrupted | error => exact left_leave kept thread

theorem left_step (kept : Left sock) (event : Event T β) : Left (sock.step event) := by
  cases event with
  | tryWriteBuffer outcomes => exact kept
  | setWriteBuffered =>
    simp only [Sock.step, Sock.setWriteBuffered]
    split
    · exact kept
    · exact kept
  | clearWriteBuffered => exact kept
  | write bytes ready outcome =>
    unfold Left Sock.step
    rw [writer_write]
    exact kept
  | writeall bytes outcomes =>
    unfold Left Sock.step
    rw [writer_writeall]
    exact kept
  | enter thread bytes =>
    simp only [Sock.step]
    split
    · exact kept
    · exact left_setWriter kept thread bytes 0
  | attempt thread outcome ready =>
    simp only [Sock.step]
    split
    · exact left_attempt kept thread _ _ outcome ready
    · exact kept

/-- One step from a right stream, with the exact condition under which it stays right. -/
theorem fifo_step (left : Left sock) (fifo : sock.Fifo) (event : Event T β) (permits : sock.Permits event) :
    (sock.step event).Fifo ↔ sock.Sound event := by
  cases event with
  | tryWriteBuffer outcomes => exact iff_of_true (fifo_tryWriteBuffer fifo outcomes) trivial
  | setWriteBuffered => exact iff_of_true (fifo_setWriteBuffered fifo) trivial
  | clearWriteBuffered => exact iff_of_true (fifo_clearWriteBuffered fifo permits) trivial
  | write bytes ready outcome => exact iff_of_true (fifo_write fifo bytes ready outcome) trivial
  | writeall bytes outcomes => exact iff_of_true (fifo_writeall fifo bytes outcomes) trivial
  | enter thread bytes =>
    refine iff_of_true ?_ trivial
    simp only [Sock.step]
    split
    · exact fifo
    · exact fifo
  | attempt thread outcome ready =>
    simp only [Sock.step, Sock.Sound]
    cases inside : sock.writer thread with
    | none => exact iff_of_true fifo (fun _ _ _ absent => by cases absent)
    | some call =>
      obtain ⟨bytes, br⟩ := call
      by_cases direct : sock.buffer = []
      · exact iff_of_true (fifo_attempt_direct fifo direct thread bytes br outcome ready)
          (fun buffered => absurd direct buffered)
      · rw [fifo_attempt_buffered fifo direct thread (left thread bytes br inside)]
        constructor
        · rintro first _ _ _ ⟨⟩
          exact first
        · intro sound
          exact sound direct bytes br rfl

theorem reached_fifo {ssl : Bool} (reached : sock.Reached ssl) : Left sock ∧ sock.Fifo := by
  induction reached with
  | connect =>
    refine ⟨?_, rfl⟩
    intro thread bytes br inside
    simp [Sock.connect] at inside
  | step event _ permits sound ih => exact ⟨left_step ih.1 event, (fifo_step ih.1 ih.2 event permits).mpr sound⟩

/-- In a run whose rounds never find a buffer behind a send of the same call, the transport gets
the bytes that were written, in order, and the first such round ends that. -/
theorem reached_in_order (ssl : Bool) (sock : Sock T β) (reached : sock.Reached ssl) :
    sock.Fifo ∧ ∀ event : Event T β, sock.Permits event → ((sock.step event).Fifo ↔ sock.Sound event) := by
  obtain ⟨left, fifo⟩ := reached_fifo reached
  exact ⟨fifo, fun event permits => fifo_step left fifo event permits⟩

/-- A thread enters with `bytes`, the transport takes the first of them, and another thread sets
a buffer before the next round. -/
def midway (ssl : Bool) (bytes : List ℕ) : Sock Bool ℕ :=
  (((Sock.connect Bool ℕ ssl).step (.enter true bytes)).step (.attempt true (.accept 1) true)).step .setWriteBuffered

theorem reached_midway (ssl : Bool) (bytes : List ℕ) : (midway ssl bytes).Reached ssl :=
  .step .setWriteBuffered
    (.step (.attempt true (.accept 1) true)
      (.step (.enter true bytes) .connect trivial trivial) trivial
      (fun buffered => (buffered rfl).elim))
    trivial trivial

theorem reached_in_order_midway :
    (midway true [1, 2]).Fifo ∧ ∀ event : Event Bool ℕ, (midway true [1, 2]).Permits event →
      (((midway true [1, 2]).step event).Fifo ↔ (midway true [1, 2]).Sound event) :=
  reached_in_order true _ (reached_midway true [1, 2])

/-- The thread goes on: all its bytes go to the buffer, so the first of them is sent again. -/
theorem midway_repeats :
    let sock := (midway true [1, 2]).step (.attempt true .wouldBlock true)
    (midway true [1, 2]).Reached true ∧ sock.accepted = [1, 2] ∧
      sock.sent ++ sock.pending = [1, 1, 2] ∧ ¬sock.Fifo := by
  refine ⟨reached_midway true [1, 2], by decide, by decide, ?_⟩
  unfold Sock.Fifo
  decide

end Pclsync.Proofs.Socket
