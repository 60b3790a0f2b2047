import Pclsync.Fs.RunTasks

/-! Which response each task of a batch gets. A run in which results only go to tasks that were
sent, and in which the last loop does not start within a response, gives each its own. -/

namespace Pclsync.Proofs.RunTasks
open Fs.RunTasks Library

variable {R : Type} (server : Server R)

/-- The responses to the requests of some items. -/
def responses (items : List (Item R)) : List UInt8 := (items.filter (·.sent)).flatMap fun item => server.frame item.task

/-- The task that gets the next result. -/
def next (queue : List (Item R)) : Option (Item R) := queue.find? fun item => !item.needprocessing

/-- The result that comes out of `papi_result_async`. -/
def asyncResult (batch : Batch R) : Read → Option R
  | .data bytes =>
    match batch.reader with
    | .header _ => none
    | .body _ data =>
      if batch.taken bytes ≠ [] ∧ (batch.taken bytes).length = batch.reader.need then server.parse (data ++ batch.taken bytes)
      else none
  | _ => none

/-- A result goes to a task that was sent, and the last loop reads one only from its start. -/
def Sound (batch : Batch R) : Event → Prop
  | .send _ => True
  | .read outcome => batch.phase = .reading → asyncResult server batch outcome ≠ none →
      ∀ item, next batch.queue = some item → item.sent = true
  | .receive ready => batch.phase = .receiving → ∀ item rest, batch.queue = item :: rest → item.needprocessing = false →
      papiResult server ready batch.input ≠ none → item.sent = true ∧ batch.reader = .alloc

/-- Every task with a result was sent and has its own response, which was read where it is on the
connection, and so has every task that was sent before it. A connection that is released in
order has nothing left on it. -/
structure Own (tasks : List Task) (batch : Batch R) : Prop where
  once : batch.items.map Item.task ++ batch.todo = tasks
  own : ∀ before item after res place, batch.items = before ++ item :: after → item.res = some (res, place) →
    item.sent = true ∧ server.parse (server.answer item.task) = some res ∧ place = (responses server before).length ∧
      ∀ other ∈ before, other.sent = true → other.res ≠ none
  released : batch.phase = .released → batch.input = [] ∧ ∀ item ∈ batch.items, item.sent = true → item.res ≠ none

section Responses

@[simp] theorem responses_nil : responses server ([] : List (Item R)) = [] := rfl

@[simp] theorem responses_append (items others : List (Item R)) :
    responses server (items ++ others) = responses server items ++ responses server others := by
  simp [responses]

theorem responses_sent {item : Item R} (sent : item.sent = true) (rest : List (Item R)) :
    responses server (item :: rest) = server.frame item.task ++ responses server rest := by
  simp [responses, sent]

theorem responses_unsent {item : Item R} (unsent : item.sent = false) (rest : List (Item R)) :
    responses server (item :: rest) = responses server rest := by
  simp [responses, unsent]

theorem responses_skipped {items : List (Item R)} (unsent : ∀ item ∈ items, item.sent = false) : responses server items = [] := by
  induction items with
  | nil => rfl
  | cons item rest ih =>
    rw [responses_unsent server (unsent item List.mem_cons_self)]
    exact ih (fun other member => unsent other (List.mem_cons_of_mem _ member))

@[simp] theorem length_frame (task : Task) : (server.frame task).length = 4 + (server.answer task).length := by
  rw [Server.frame, List.length_append, length_leBytes]

theorem length_responses_answered {item : Item R} (sent : item.sent = true) (res : Option (R × ℕ)) :
    (responses server [{ item with res := res }]).length = 4 + (server.answer item.task).length := by
  have still : ({ item with res := res } : Item R).sent = true := sent
  rw [responses_sent server still, responses_nil, List.append_nil, length_frame]

theorem frame_size (task : Task) (rest : List UInt8) :
    leNumber ((server.frame task ++ rest).take 4) = (server.answer task).length := by
  rw [Server.frame, List.append_assoc, take_leBytes, leNumber_leBytes, Nat.mod_eq_of_lt (server.fits task)]

theorem frame_drop (task : Task) (rest : List UInt8) : (server.frame task ++ rest).drop 4 = server.answer task ++ rest := by
  rw [Server.frame, List.append_assoc]
  exact List.drop_left' (length_leBytes 4 _)

end Responses

section Deliver
variable {res : R × ℕ} {queue : List (Item R)}

/-- The parts of the queue around the task that gets a result. -/
theorem deliver_cases :
    (deliver res queue = none ∧ next queue = none) ∨
      ∃ skipped item rest, queue = skipped ++ item :: rest ∧ (∀ other ∈ skipped, other.needprocessing = true) ∧
        item.needprocessing = false ∧ next queue = some item ∧
        deliver res queue = some (skipped ++ [{ item with res := some res }], rest) := by
  induction queue with
  | nil => exact .inl ⟨rfl, rfl⟩
  | cons item rest ih =>
    cases skips : item.needprocessing with
    | false =>
      refine .inr ⟨[], item, rest, rfl, by simp, skips, ?_, ?_⟩
      · simp [next, skips]
      · simp [deliver, skips]
    | true =>
      have same : next (item :: rest) = next rest := by simp [next, skips]
      have later : deliver res (item :: rest) = (deliver res rest).map fun parts => (item :: parts.1, parts.2) := by
        simp [deliver, skips]
      obtain ⟨none, absent⟩ | ⟨skipped, taker, behind, split, skip, takes, found, delivered⟩ := ih
      · exact .inl ⟨by rw [later, none]; rfl, same.trans absent⟩
      · refine .inr ⟨item :: skipped, taker, behind, by rw [split]; rfl, ?_, takes, same.trans found, by rw [later, delivered]; rfl⟩
        intro other member
        cases member with
        | head => exact skips
        | tail _ member => exact skip other member

end Deliver

/-- An item behind some others that has its own response, if it was sent, and no result if not. -/
def OwnItem (before : List (Item R)) (item : Item R) : Prop :=
  if item.sent = true then
    ∃ res, item.res = some (res, (responses server before).length) ∧ server.parse (server.answer item.task) = some res
  else item.res = none

inductive Owned : List (Item R) → Prop where
  | nil : Owned []
  | concat {before : List (Item R)} {item : Item R} : Owned before → OwnItem server before item → Owned (before ++ [item])

variable {server}

theorem Owned.split {items : List (Item R)} (owned : Owned server items) :
    ∀ before item after, items = before ++ item :: after → OwnItem server before item := by
  induction owned with
  | nil => exact fun before item after absent => by simp at absent
  | concat _ own ih =>
    intro before item after same
    obtain rfl | ⟨rest, last, rfl⟩ := List.eq_nil_or_concat after
    · obtain ⟨rfl, last⟩ := List.append_inj' same rfl
      cases last
      exact own
    · rw [List.concat_eq_append, ← List.cons_append, ← List.append_assoc] at same
      obtain ⟨rfl, _⟩ := List.append_inj' same rfl
      exact ih before item rest rfl

theorem Owned.sent_answered {items : List (Item R)} (owned : Owned server items) :
    ∀ item ∈ items, item.sent = true → item.res ≠ none := by
  intro item member sent
  obtain ⟨before, after, rfl⟩ := List.append_of_mem member
  have own := owned.split before item after rfl
  rw [OwnItem, if_pos sent] at own
  obtain ⟨res, answered, _⟩ := own
  rw [answered]
  exact Option.some_ne_none _

/-- Tasks that need processing have no response to wait for. -/
theorem Owned.skip {items skipped : List (Item R)} (owned : Owned server items)
    (unsent : ∀ item ∈ skipped, item.sent = false ∧ item.res = none) : Owned server (items ++ skipped) := by
  induction skipped generalizing items with
  | nil => rwa [List.append_nil]
  | cons item rest ih =>
    obtain ⟨quiet, unanswered⟩ := unsent item List.mem_cons_self
    have own : OwnItem server items item := by
      rw [OwnItem, if_neg (by rw [quiet]; exact Bool.false_ne_true)]
      exact unanswered
    have later := ih (owned.concat own) (fun other member => unsent other (List.mem_cons_of_mem _ member))
    rwa [List.append_assoc] at later

/-- A size that was read in whole, and not all of the bytes behind it yet unless there are none. -/
def ReaderOk : Reader → Prop
  | .header data => data.length < 4
  | .body respsize data => respsize.length = 4 ∧ data.length ≤ leNumber respsize

structure Inv (server : Server R) (tasks : List Task) (batch : Batch R) : Prop where
  once : batch.items.map Item.task ++ batch.todo = tasks
  waits : ∀ item ∈ batch.queue, item.res = none
  sends : ∀ item ∈ batch.queue, item.sent = true → item.needprocessing = false
  owned : Owned server batch.passed
  ok : ReaderOk batch.reader
  stream : batch.phase ≠ .bad → batch.reader.consumed ++ batch.input = responses server batch.queue
  received : batch.phase ≠ .bad → batch.received = (responses server batch.passed).length + batch.reader.consumed.length
  empty : batch.phase = .released → batch.queue = []

variable {tasks : List Task} {batch : Batch R}

theorem Inv.holds (inv : Inv server tasks batch) : Own server tasks batch where
  once := inv.once
  own := by
    intro before item after res place same answered
    have passed : ∃ later, batch.passed = before ++ item :: later := by
      obtain ⟨middle, first, second⟩ | ⟨middle, first, second⟩ := List.append_eq_append_iff.mp same
      · have member : item ∈ batch.queue := by
          rw [second]
          exact List.mem_append_right _ List.mem_cons_self
        rw [inv.waits item member] at answered
        cases answered
      · cases middle with
        | nil =>
          have member : item ∈ batch.queue := by
            rw [List.nil_append] at second
            rw [← second]
            exact List.mem_cons_self
          rw [inv.waits item member] at answered
          cases answered
        | cons head later =>
          rw [List.cons_append, List.cons.injEq] at second
          exact ⟨later, by rw [first, second.1]⟩
    obtain ⟨later, passed⟩ := passed
    have own := inv.owned.split before item later passed
    by_cases sent : item.sent = true
    · rw [OwnItem, if_pos sent, answered] at own
      obtain ⟨own, there, parsed⟩ := own
      cases there
      refine ⟨sent, parsed, rfl, ?_⟩
      intro other member
      apply inv.owned.sent_answered
      rw [passed]
      exact List.mem_append_left _ member
    · rw [OwnItem, if_neg sent, answered] at own
      cases own
  released := by
    intro released
    have running : batch.phase ≠ .bad := by rw [released]; exact Phase.noConfusion
    have stream := inv.stream running
    rw [inv.empty released, responses_nil] at stream
    refine ⟨(List.append_eq_nil_iff.mp stream).2, ?_⟩
    rw [Batch.items, inv.empty released, List.append_nil]
    exact inv.owned.sent_answered

theorem inv_start : Inv server tasks (.start tasks : Batch R) where
  once := rfl
  waits := fun _ absent => absurd absent List.not_mem_nil
  sends := fun _ absent => absurd absent List.not_mem_nil
  owned := .nil
  ok := Nat.zero_lt_succ 3
  stream := fun _ => rfl
  received := fun _ => rfl
  empty := fun released => by cases released

section Send

variable {task : Task} {rest : List Task}

/-- A task joins the queue, and its response comes behind those of the others. -/
theorem inv_join (inv : Inv server tasks batch) (running : batch.phase ≠ .bad) (todo : batch.todo = task :: rest)
    {needprocessing sent : Bool} (plain : sent = true → needprocessing = false) {phase : Phase} (going : phase ≠ .released)
    {input : List UInt8} (answers : input = batch.input ++ responses server [(⟨task, needprocessing, sent, none⟩ : Item R)]) :
    Inv server tasks { batch.join task rest needprocessing sent with phase := phase, input := input } where
  once := by
    have same := inv.once
    rw [todo] at same
    simp only [Batch.join, Batch.items, List.map_append, List.map_cons, List.map_nil, List.append_assoc] at same ⊢
    exact same
  waits := by
    intro item member
    obtain member | member := List.mem_append.mp member
    · exact inv.waits item member
    · rw [List.mem_singleton.mp member]
  sends := by
    intro item member
    obtain member | member := List.mem_append.mp member
    · exact inv.sends item member
    · rw [List.mem_singleton.mp member]
      exact plain
  owned := inv.owned
  ok := inv.ok
  stream := by
    intro _
    show batch.reader.consumed ++ input = responses server (batch.queue ++ [_])
    rw [responses_append, ← inv.stream running, answers, List.append_assoc]
  received := fun _ => inv.received running
  empty := fun released => absurd released going

/-- The connection is given up, and the tasks stay as they are. -/
theorem inv_fail (inv : Inv server tasks batch) (input : List UInt8) (received : ℕ) {reader : Reader} (ok : ReaderOk reader) :
    Inv server tasks { batch with phase := .bad, input := input, received := received, reader := reader } where
  once := inv.once
  waits := inv.waits
  sends := inv.sends
  owned := inv.owned
  ok := ok
  stream := fun running => absurd rfl running
  received := fun running => absurd rfl running
  empty := fun released => by cases released

/-- Another phase, which is not the end. -/
theorem inv_turn (inv : Inv server tasks batch) (running : batch.phase ≠ .bad) {phase : Phase} (going : phase ≠ .released) :
    Inv server tasks { batch with phase := phase } where
  once := inv.once
  waits := inv.waits
  sends := inv.sends
  owned := inv.owned
  ok := inv.ok
  stream := fun _ => inv.stream running
  received := fun _ => inv.received running
  empty := fun released => absurd released going

theorem inv_send (inv : Inv server tasks batch) (sending : batch.phase = .sending) (ret : Ret) :
    Inv server tasks (batch.send server ret) := by
  have running : batch.phase ≠ .bad := by rw [sending]; exact Phase.noConfusion
  have going : batch.phase ≠ .released := by rw [sending]; exact Phase.noConfusion
  have quiet (task : Task) (needprocessing : Bool) :
      batch.input = batch.input ++ responses server [(⟨task, needprocessing, false, none⟩ : Item R)] := by
    rw [responses_unsent server rfl, responses_nil, List.append_nil]
  unfold Batch.send
  cases todo : batch.todo with
  | nil =>
    have turned := inv_turn inv running (show Phase.receiving ≠ .released from Phase.noConfusion)
    rwa [todo] at turned
  | cons task rest =>
    simp only []
    split
    · exact inv_join inv running todo (fun sent => by cases sent) going (quiet task false)
    · split
      · exact inv_join inv running todo (fun sent => by cases sent) going (quiet task true)
      · cases ret with
        | failed =>
          have failed := inv_fail inv batch.input batch.received inv.ok
          rwa [todo] at failed
        | deferred => exact inv_join inv running todo (fun sent => by cases sent) going (quiet task true)
        | sent =>
          refine inv_join inv running todo (fun _ => rfl) Phase.noConfusion ?_
          rw [responses_sent server rfl, responses_nil, List.append_nil]

end Send

section Read

variable {bytes : ℕ}

theorem taken_drop : batch.taken bytes ++ batch.input.drop (min bytes batch.reader.need) = batch.input :=
  List.take_append_drop ..

/-- The reader has more bytes and the connection fewer. -/
theorem inv_take (inv : Inv server tasks batch) (running : batch.phase ≠ .bad) (going : batch.phase ≠ .released) {reader : Reader}
    (ok : ReaderOk reader) (more : reader.consumed = batch.reader.consumed ++ batch.taken bytes) :
    Inv server tasks (batch.take bytes reader) where
  once := inv.once
  waits := inv.waits
  sends := inv.sends
  owned := inv.owned
  ok := ok
  stream := by
    intro _
    show reader.consumed ++ batch.input.drop (min bytes batch.reader.need) = responses server batch.queue
    rw [more, List.append_assoc, taken_drop]
    exact inv.stream running
  received := by
    intro _
    show batch.received + (batch.taken bytes).length = (responses server batch.passed).length + reader.consumed.length
    rw [more, List.length_append, inv.received running, Nat.add_assoc]
  empty := fun released => absurd released going

theorem length_taken_le : (batch.taken bytes).length ≤ batch.reader.need :=
  (List.length_take_le _ _).trans (Nat.min_le_right _ _)

/-- A size and as many bytes at the start of a response are that response. -/
theorem frame_split {task : Task} {respsize response input others : List UInt8}
    (same : respsize ++ (response ++ input) = server.frame task ++ others) (size : respsize.length = 4)
    (whole : response.length = leNumber respsize) : response = server.answer task ∧ input = others := by
  rw [Server.frame, List.append_assoc] at same
  obtain ⟨rfl, behind⟩ := List.append_inj same (by rw [size, length_leBytes])
  rw [leNumber_leBytes, Nat.mod_eq_of_lt (server.fits task)] at whole
  exact List.append_inj behind whole

/-- The task that was sent first is behind the ones that need processing. -/
theorem responses_queue {skipped rest : List (Item R)} {item : Item R}
    (inv : Inv server tasks batch) (split : batch.queue = skipped ++ item :: rest)
    (skip : ∀ other ∈ skipped, other.needprocessing = true) : ∀ other ∈ skipped, other.sent = false ∧ other.res = none := by
  intro other member
  have within : other ∈ batch.queue := by
    rw [split]
    exact List.mem_append_left _ member
  refine ⟨?_, inv.waits other within⟩
  by_contra sent
  have plain := inv.sends other within (by simpa using sent)
  rw [skip other member] at plain
  cases plain

/-- A result that the reader has comes to the task that was sent first. -/
theorem inv_deliver (inv : Inv server tasks batch) (reading : batch.phase = .reading) {respsize data : List UInt8} {res : R}
    (reader : batch.reader = .body respsize data) (whole : (batch.taken bytes).length = batch.reader.need)
    (parsed : server.parse (data ++ batch.taken bytes) = some res) {skipped rest : List (Item R)} {item : Item R}
    (split : batch.queue = skipped ++ item :: rest) (skip : ∀ other ∈ skipped, other.needprocessing = true)
    (sent : item.sent = true) :
    Inv server tasks { batch.take bytes .alloc with
      passed := batch.passed ++ (skipped ++ [{ item with res := some (res, batch.received - batch.reader.consumed.length) }])
      queue := rest } := by
  have running : batch.phase ≠ .bad := by rw [reading]; exact Phase.noConfusion
  have unsent := responses_queue inv split skip
  have quiet : responses server skipped = [] := responses_skipped server (fun other member => (unsent other member).1)
  have ok := inv.ok
  rw [reader] at ok
  obtain ⟨size, short⟩ := ok
  have length : (data ++ batch.taken bytes).length = leNumber respsize := by
    rw [List.length_append, whole, reader, Reader.need]
    omega
  have stream := inv.stream running
  rw [split, responses_append, quiet, List.nil_append, responses_sent server sent, ← taken_drop, reader, Reader.consumed,
    List.append_assoc, ← List.append_assoc data] at stream
  obtain ⟨response, behind⟩ := frame_split stream size length
  have place : batch.received - batch.reader.consumed.length = (responses server (batch.passed ++ skipped)).length := by
    rw [responses_append, quiet, List.append_nil, inv.received running]
    omega
  refine ⟨?_, ?_, ?_, ?_, Nat.zero_lt_succ 3, ?_, ?_, ?_⟩
  · have same := inv.once
    simp only [Batch.items, split, List.map_append, List.map_cons, List.append_assoc, List.cons_append] at same
    simpa only [Batch.take, Batch.items, List.map_append, List.map_cons, List.map_nil, List.append_assoc, List.cons_append,
      List.nil_append] using same
  · intro other member
    apply inv.waits
    rw [split]
    exact List.mem_append_right _ (List.mem_cons_of_mem _ member)
  · intro other member
    apply inv.sends
    rw [split]
    exact List.mem_append_right _ (List.mem_cons_of_mem _ member)
  · show Owned server (batch.passed ++ (skipped ++ [_]))
    rw [← List.append_assoc]
    refine (inv.owned.skip unsent).concat ?_
    rw [OwnItem, if_pos sent]
    refine ⟨res, ?_, by rw [← response]; exact parsed⟩
    rw [place]
  · intro _
    show batch.input.drop (min bytes batch.reader.need) = responses server rest
    rw [reader]
    exact behind
  · intro _
    show batch.received + (batch.taken bytes).length = (responses server (batch.passed ++ (skipped ++ [_]))).length + 0
    rw [responses_append, responses_append, quiet, List.nil_append, List.length_append, length_responses_answered server sent,
      inv.received running, ← response, reader, Reader.consumed, List.length_append, List.length_append, size]
    omega
  · intro released
    rw [show (batch.take bytes .alloc).phase = batch.phase from rfl, reading] at released
    cases released

end Read

section Receive

/-- The waiting read at the start of a response reads that response. -/
theorem papiResult_frame {task : Task} {others : List UInt8} {ready : Bool} {res : R} {size : ℕ}
    (read : papiResult server ready (server.frame task ++ others) = some (res, size)) :
    server.parse (server.answer task) = some res ∧ size = (server.frame task).length := by
  unfold papiResult at read
  simp only [frame_size, frame_drop, List.take_left] at read
  split at read
  · obtain ⟨parsed, same, result⟩ := Option.map_eq_some_iff.mp read
    cases result
    exact ⟨same, (length_frame server task).symm⟩
  · cases read

/-- `rtask` goes on from a task that needs processing. -/
theorem inv_pass (inv : Inv server tasks batch) (receiving : batch.phase = .receiving) {item : Item R} {rest : List (Item R)}
    (queue : batch.queue = item :: rest) (skips : item.needprocessing = true) :
    Inv server tasks { batch with passed := batch.passed ++ [item], queue := rest } := by
  have running : batch.phase ≠ .bad := by rw [receiving]; exact Phase.noConfusion
  have member : item ∈ batch.queue := queue ▸ List.mem_cons_self
  have unsent : item.sent = false := by
    by_contra sent
    have plain := inv.sends item member (by simpa using sent)
    rw [skips] at plain
    cases plain
  have quiet : responses server [item] = [] := responses_unsent server unsent []
  refine ⟨?_, ?_, ?_, ?_, inv.ok, ?_, ?_, ?_⟩
  · have same := inv.once
    simp only [Batch.items, queue, List.map_append, List.map_cons, List.append_assoc, List.cons_append] at same
    simpa only [Batch.items, List.map_append, List.map_cons, List.map_nil, List.append_assoc, List.cons_append,
      List.nil_append] using same
  · exact fun other within => inv.waits other (queue ▸ List.mem_cons_of_mem _ within)
  · exact fun other within => inv.sends other (queue ▸ List.mem_cons_of_mem _ within)
  · apply inv.owned.skip
    intro other within
    rw [List.mem_singleton.mp within]
    exact ⟨unsent, inv.waits item member⟩
  · intro _
    have stream := inv.stream running
    rw [queue, responses_unsent server unsent] at stream
    exact stream
  · intro _
    show batch.received = (responses server (batch.passed ++ [item])).length + batch.reader.consumed.length
    rw [responses_append, quiet, List.append_nil]
    exact inv.received running
  · intro released
    rw [show (Batch.phase _) = batch.phase from rfl, receiving] at released
    cases released

/-- The waiting read gives its response to the task that was sent. -/
theorem inv_receive (inv : Inv server tasks batch) (receiving : batch.phase = .receiving) {item : Item R} {rest : List (Item R)}
    (queue : batch.queue = item :: rest) (sent : item.sent = true) (reader : batch.reader = .alloc) {ready : Bool} {res : R}
    {size : ℕ} (read : papiResult server ready batch.input = some (res, size)) :
    Inv server tasks { batch with
      passed := batch.passed ++ [{ item with res := some (res, batch.received) }]
      queue := rest
      input := batch.input.drop size
      received := batch.received + size } := by
  have running : batch.phase ≠ .bad := by rw [receiving]; exact Phase.noConfusion
  have stream := inv.stream running
  have place := inv.received running
  rw [queue, responses_sent server sent, reader, show Reader.alloc.consumed = [] from rfl, List.nil_append] at stream
  rw [reader, show Reader.alloc.consumed = [] from rfl, List.length_nil, Nat.add_zero] at place
  rw [stream] at read
  obtain ⟨parsed, whole⟩ := papiResult_frame read
  refine ⟨?_, ?_, ?_, ?_, inv.ok, ?_, ?_, ?_⟩
  · have same := inv.once
    simp only [Batch.items, queue, List.map_append, List.map_cons, List.append_assoc, List.cons_append] at same
    simpa only [Batch.items, List.map_append, List.map_cons, List.map_nil, List.append_assoc, List.cons_append,
      List.nil_append] using same
  · exact fun other within => inv.waits other (queue ▸ List.mem_cons_of_mem _ within)
  · exact fun other within => inv.sends other (queue ▸ List.mem_cons_of_mem _ within)
  · refine inv.owned.concat ?_
    rw [OwnItem, if_pos sent]
    exact ⟨res, by rw [place], parsed⟩
  · intro _
    show batch.reader.consumed ++ batch.input.drop size = responses server rest
    rw [reader, show Reader.alloc.consumed = [] from rfl, List.nil_append, stream, whole]
    exact List.drop_left
  · intro _
    show batch.received + size = (responses server (batch.passed ++ [_])).length + batch.reader.consumed.length
    rw [responses_append, List.length_append, length_responses_answered server sent, place, whole, length_frame, reader]
    rfl
  · intro released
    rw [show (Batch.phase _) = batch.phase from rfl, receiving] at released
    cases released

end Receive

section Steps

variable {before : List (Item R)} {res : R × ℕ}

theorem items_last {item : Item R} (last : batch.passed = before ++ [item]) : batch.items = before ++ item :: batch.queue := by
  rw [Batch.items, last, List.append_assoc]
  rfl

/-- A result for a task that was not sent. -/
theorem not_own_unsent (item : Item R) (last : batch.passed = before ++ [item]) (answered : item.res = some res) (unsent : item.sent ≠ true) :
    ¬Own server tasks batch :=
  fun own => unsent (own.own before item _ res.1 res.2 (items_last last) answered).1

/-- A result from another place of the connection. -/
theorem not_own_misplaced {item : Item R} (last : batch.passed = before ++ [item]) (answered : item.res = some res)
    (misplaced : res.2 ≠ (responses server before).length) : ¬Own server tasks batch :=
  fun own => misplaced (own.own before item _ res.1 res.2 (items_last last) answered).2.2.1

section Reading
variable {bytes : ℕ} (some : batch.taken bytes ≠ [])
include some

theorem read_header {data : List UInt8} (reader : batch.reader = .header data) :
    batch.read server (.data bytes) =
      if (batch.taken bytes).length = batch.reader.need then batch.take bytes (.body (data ++ batch.taken bytes) [])
      else { batch.take bytes (.header (data ++ batch.taken bytes)) with phase := .sending } := by
  simp only [Batch.read, if_neg some, reader]

theorem read_body {respsize data : List UInt8} (reader : batch.reader = .body respsize data) :
    batch.read server (.data bytes) =
      if (batch.taken bytes).length = batch.reader.need then
        (batch.take bytes .alloc).ready (batch.received - batch.reader.consumed.length) (server.parse (data ++ batch.taken bytes))
      else { batch.take bytes (.body respsize (data ++ batch.taken bytes)) with phase := .sending } := by
  simp only [Batch.read, if_neg some, reader]

end Reading

/-- What `papi_result_async` does without a result. -/
theorem inv_read_quiet (inv : Inv server tasks batch) (reading : batch.phase = .reading) {outcome : Read}
    (quiet : asyncResult server batch outcome = none) : Inv server tasks (batch.read server outcome) := by
  have running : batch.phase ≠ .bad := by rw [reading]; exact Phase.noConfusion
  have going : batch.phase ≠ .released := by rw [reading]; exact Phase.noConfusion
  cases outcome with
  | wouldBlock => exact inv_turn inv running Phase.noConfusion
  | error => exact inv_fail inv batch.input batch.received inv.ok
  | data bytes =>
    by_cases some : batch.taken bytes = []
    · rw [Batch.read, if_pos some]
      exact inv_fail inv batch.input batch.received inv.ok
    have ok := inv.ok
    have most : (batch.taken bytes).length ≤ batch.reader.need := length_taken_le
    cases reader : batch.reader with
    | header data =>
      rw [reader, ReaderOk] at ok
      rw [read_header some reader, reader, Reader.need]
      rw [reader, Reader.need] at most
      split
      next whole =>
        refine inv_take inv running going ⟨?_, Nat.zero_le _⟩ ?_
        · rw [List.length_append]
          omega
        · rw [reader]
          exact List.append_nil _
      next part =>
        refine inv_turn (inv_take inv running going ?_ ?_) running Phase.noConfusion
        · show (data ++ batch.taken bytes).length < 4
          rw [List.length_append]
          omega
        · rw [reader]
          rfl
    | body respsize data =>
      rw [reader, ReaderOk] at ok
      rw [read_body some reader]
      split
      next whole =>
        simp only [asyncResult, reader] at quiet
        rw [if_pos ⟨some, by rw [whole, reader]⟩] at quiet
        rw [quiet]
        exact inv_fail inv _ _ (Nat.zero_lt_succ 3)
      next part =>
        rw [reader, Reader.need] at most
        have within : ReaderOk (.body respsize (data ++ batch.taken bytes)) := by
          refine ⟨ok.1, ?_⟩
          rw [List.length_append]
          omega
        refine inv_turn (inv_take inv running going within ?_) running Phase.noConfusion
        rw [reader]
        exact (List.append_assoc ..).symm

/-- What it does with one. -/
theorem read_result {outcome : Read} {res : R} (result : asyncResult server batch outcome = some res) :
    ∃ bytes respsize data, outcome = .data bytes ∧ batch.reader = .body respsize data ∧
      (batch.taken bytes).length = batch.reader.need ∧ server.parse (data ++ batch.taken bytes) = some res ∧
      batch.read server outcome = (batch.take bytes .alloc).ready (batch.received - batch.reader.consumed.length) (some res) := by
  cases outcome with
  | wouldBlock => cases result
  | error => cases result
  | data bytes =>
    cases reader : batch.reader with
    | header data =>
      simp only [asyncResult, reader] at result
      cases result
    | body respsize data =>
      simp only [asyncResult, reader] at result
      split at result
      next whole =>
        refine ⟨bytes, respsize, data, rfl, rfl, whole.2, result, ?_⟩
        rw [read_body whole.1 reader, if_pos (by rw [reader]; exact whole.2), result, reader]
      next => cases result

theorem own_read (inv : Inv server tasks batch) (reading : batch.phase = .reading) (outcome : Read) :
    (Sound server batch (.read outcome) → Inv server tasks (batch.read server outcome)) ∧
      (Own server tasks (batch.read server outcome) → Sound server batch (.read outcome)) := by
  cases result : asyncResult server batch outcome with
  | none => exact ⟨fun _ => inv_read_quiet inv reading result, fun _ _ some => absurd result some⟩
  | some res =>
    obtain ⟨bytes, respsize, data, rfl, reader, whole, parsed, read⟩ := read_result result
    rw [read, Batch.ready]
    have parts := @deliver_cases R (res, batch.received - batch.reader.consumed.length) batch.queue
    obtain ⟨none, absent⟩ | ⟨skipped, item, rest, split, skip, _, found, delivered⟩ := parts
    · refine ⟨fun _ => ?_, fun _ _ _ item found => by rw [absent] at found; cases found⟩
      simp only [show (batch.take bytes .alloc).queue = batch.queue from rfl, none]
      exact inv_fail inv _ _ (Nat.zero_lt_succ 3)
    · simp only [show (batch.take bytes .alloc).queue = batch.queue from rfl, delivered]
      constructor
      · intro sound
        have sent := sound reading (by rw [result]; exact Option.some_ne_none _) item found
        exact inv_deliver inv reading reader whole parsed split skip sent
      · intro own _ _ other same
        rw [found] at same
        cases same
        by_contra unsent
        exact not_own_unsent { item with res := some (res, batch.received - batch.reader.consumed.length) }
          (List.append_assoc batch.passed skipped [_]).symm rfl unsent own

/-- A reader that is not where it starts has read something. -/
theorem consumed_pos {reader : Reader} (ok : ReaderOk reader) (within : reader ≠ .alloc) : 0 < reader.consumed.length := by
  cases reader with
  | header data =>
    apply List.length_pos_of_ne_nil
    rintro same
    exact within (congrArg Reader.header same)
  | body respsize data =>
    rw [Reader.consumed, List.length_append, ok.1]
    omega

theorem own_receive (inv : Inv server tasks batch) (receiving : batch.phase = .receiving) (ready : Bool) :
    (Sound server batch (.receive ready) → Inv server tasks (batch.receive server ready)) ∧
      (Own server tasks (batch.receive server ready) → Sound server batch (.receive ready)) := by
  have running : batch.phase ≠ .bad := by rw [receiving]; exact Phase.noConfusion
  unfold Batch.receive
  cases queue : batch.queue with
  | nil =>
    refine ⟨fun _ => ?_, fun _ _ item rest some => by rw [queue] at some; cases some⟩
    have turned : Inv server tasks { batch with phase := .released } :=
      ⟨inv.once, inv.waits, inv.sends, inv.owned, inv.ok, fun _ => inv.stream running, fun _ => inv.received running, fun _ => queue⟩
    rwa [queue] at turned
  | cons item rest =>
    simp only []
    split
    next skips =>
      refine ⟨fun _ => inv_pass inv receiving queue skips, ?_⟩
      intro _ _ other rest' same plain
      rw [queue] at same
      cases same
      rw [skips] at plain
      cases plain
    next plain =>
      cases read : papiResult server ready batch.input with
      | none =>
        refine ⟨fun _ => ?_, fun _ _ _ _ _ _ some => absurd read some⟩
        have failed := inv_fail inv batch.input batch.received inv.ok
        rwa [queue] at failed
      | some result =>
        obtain ⟨res, size⟩ := result
        simp only []
        constructor
        · intro sound
          obtain ⟨sent, reader⟩ := sound receiving item rest queue (by simpa using plain)
            (by rw [read]; exact Option.some_ne_none _)
          exact inv_receive inv receiving queue sent reader read
        · intro own _ other rest' same _ _
          rw [queue] at same
          cases same
          refine ⟨?_, ?_⟩
          · by_contra unsent
            exact not_own_unsent { item with res := some (res, batch.received) } rfl rfl unsent own
          · by_contra within
            refine not_own_misplaced rfl rfl ?_ own
            have place := inv.received running
            have behind := consumed_pos inv.ok within
            show batch.received ≠ (responses server batch.passed).length
            omega

theorem own_step (inv : Inv server tasks batch) (event : Event) :
    (Sound server batch event → Inv server tasks (batch.step server event)) ∧
      (Own server tasks (batch.step server event) → Sound server batch event) := by
  unfold Batch.step
  cases event with
  | send ret =>
    refine ⟨fun _ => ?_, fun _ => trivial⟩
    simp only []
    split
    next sending => exact inv_send inv sending ret
    next => exact inv
  | read outcome =>
    simp only []
    split
    next reading => exact own_read inv reading outcome
    next elsewhere => exact ⟨fun _ => inv, fun _ reading => absurd reading elsewhere⟩
  | receive ready =>
    simp only []
    split
    next receiving => exact own_receive inv receiving ready
    next elsewhere => exact ⟨fun _ => inv, fun _ receiving => absurd receiving elsewhere⟩

end Steps

/-- The states of a run in which every step is sound. -/
inductive Reached (server : Server R) (tasks : List Task) : Batch R → Prop where
  | start : Reached server tasks (.start tasks)
  | step {batch : Batch R} (event : Event) (reached : Reached server tasks batch) (sound : Sound server batch event) :
      Reached server tasks (batch.step server event)

theorem reached_inv (reached : Reached server tasks batch) : Inv server tasks batch := by
  induction reached with
  | start => exact inv_start
  | step event _ sound ih => exact (own_step ih event).1 sound

/-- The processed tasks of some items. -/
theorem processed_sublist (items : List (Item R)) :
    ((items.filterMap fun item =>
      if item.task.status = statusCancelled then none else item.res.map fun res => (item.task, res.1)).map Prod.fst).Sublist
      (items.map Item.task) := by
  induction items with
  | nil => exact .slnil
  | cons item rest ih =>
    rw [List.filterMap_cons, List.map_cons]
    split
    · exact ih.cons _
    next task same =>
      split at same
      · cases same
      · obtain ⟨res, _, rfl⟩ := Option.map_eq_some_iff.mp same
        exact ih.cons_cons _

/-- What is processed is a part of the batch, in its order, and each task was sent and has its own
response. -/
structure Processed (server : Server R) (tasks : List Task) (batch : Batch R) : Prop where
  sublist : (batch.processed.map Prod.fst).Sublist tasks
  own : ∀ task res, (task, res) ∈ batch.processed →
    (∃ item ∈ batch.items, item.task = task ∧ item.sent = true) ∧ server.parse (server.answer task) = some res

theorem Own.processes (own : Own server tasks batch) : Processed server tasks batch where
  sublist := by
    rw [← own.once]
    exact (processed_sublist batch.items).trans (List.sublist_append_left _ _)
  own := by
    intro task res processed
    obtain ⟨item, member, same⟩ := List.mem_filterMap.mp processed
    split at same
    · cases same
    · obtain ⟨result, answered, pair⟩ := Option.map_eq_some_iff.mp same
      cases pair
      obtain ⟨before, after, split⟩ := List.append_of_mem member
      obtain ⟨sent, parsed, _⟩ := own.own before item after result.1 result.2 split answered
      exact ⟨⟨item, member, rfl, sent⟩, parsed⟩

/-- A server whose responses start with what could be the size of another one. -/
def echo : Server (List UInt8) where
  answer := fun task => [1, 0, 0, 0, UInt8.ofNat task.id]
  fits := fun _ => show 5 < 256 ^ 4 by decide
  parse := some

/-- A request is sent, the size of its response arrives, and the rest is late. -/
def late : Batch (List UInt8) :=
  ((((Batch.start [⟨7, 1, 0⟩]).step echo (.send .sent)).step echo (.read (.data 4))).step echo (.read .wouldBlock)).step echo
    (.send .sent)

theorem reached_late : Reached echo [⟨7, 1, 0⟩] late :=
  .step _ (.step _ (.step _ (.step _ .start trivial) (fun _ none => absurd rfl none)) (fun _ none => absurd rfl none)) trivial

end Pclsync.Proofs.RunTasks
