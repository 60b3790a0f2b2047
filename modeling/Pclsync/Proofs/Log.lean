import Pclsync.Crypto.Log

/-! Crash safety of the redo log. A replay sets the length of a file before it
writes to it, so it can be cut off anywhere and started again; nothing is done
for a log that fails its checks. -/

namespace Pclsync.Proofs.Log
open Pclsync.Crypto Pclsync.Crypto.Log Library

/-- The master record of a log. -/
def master (log : File) : MasterRecord := MasterRecord.ofBytes (log.take MasterRecord.size)

/-- The header of the log is finalised and matches the rest of the log. -/
structure Finalised (machine : Machine) (log : File) (checkhash : Bool) : Prop where
  long : MasterRecord.size ≤ log.length
  status : (master log).status = logStatusFinalized
  size : (master log).logsize = log.length
  crc : leNumber ((log.drop MasterRecord.crcOffset).take 4) = machine.crc32c (log.take MasterRecord.crcOffset)
  hash : checkhash = true → (master log).hashid = logHashidFh256 ∧
    machine.fastHash256 (log.drop sectorSize) = (master log).hash

/-- The files after any number of replays, each cut off somewhere. The data file
may be opened anew each time; where its handle stands matters only if the size
in the log is the error code of a seek. -/
inductive Crashed (machine : Machine) (log : File) (handles : Handles) (files : Target → File) :
    (Target → File) → Prop where
  | start : Crashed machine log handles files files
  | again (left : Target → File) (position : ℕ) (checkhash : Bool) (done : List (Target × FileOp))
      (before : Crashed machine log handles files left)
      (opened : position = handles.position ∨ (master log).filesize ≠ 2 ^ 64 - 1)
      (cut : CutOff (processLog machine log { handles with position := position } checkhash).ops done) :
      Crashed machine log handles files (applyAll done left)

section Accept
variable {machine : Machine} {log : File} {checkhash : Bool} {size : ℕ}

theorem fed_eq (log : File) (off : ℕ) : fed log off = log.drop off := by
  fun_induction fed log off with
  | case1 off buff empty =>
    have read : (log.pread off sectorSize).length = 0 := by
      rw [show log.pread off sectorSize = [] from empty]
      rfl
    rw [File.length_pread] at read
    rw [List.drop_eq_nil_of_le (by simp only [sectorSize] at read; omega)]
  | case2 off buff some ih =>
    rw [ih]
    have front : buff = (log.drop off).take buff.length := by
      change (log.drop off).take sectorSize = _
      rw [show buff.length = min sectorSize (log.drop off).length from List.length_take]
      simp
    rw [← List.drop_drop, ← List.take_append_drop buff.length (log.drop off), ← front]
    simp

theorem accept_iff : accept machine log checkhash = some size ↔
    Finalised machine log checkhash ∧ size = (master log).filesize := by
  have buffer : log.pread 0 MasterRecord.size = log.take MasterRecord.size := rfl
  have record : MasterRecord.ofBytes (log.take MasterRecord.size) = master log := rfl
  have front : (log.take MasterRecord.size).take MasterRecord.crcOffset = log.take MasterRecord.crcOffset := by
    rw [List.take_take]
    rfl
  have sum : ((log.take MasterRecord.size).drop MasterRecord.crcOffset).take 4 =
      (log.drop MasterRecord.crcOffset).take 4 := by
    rw [List.drop_take, List.take_take]
    rfl
  have hashed : checkLogHash machine log (master log) = true ↔ (master log).hashid = logHashidFh256 ∧
      machine.fastHash256 (log.drop sectorSize) = (master log).hash := by
    rw [checkLogHash, fed_eq, decide_eq_true_iff]
  constructor
  · intro accepted
    simp only [accept, buffer, front, sum] at accepted
    split at accepted
    · cases accepted
    split at accepted
    · cases accepted
    split at accepted
    · cases accepted
    split at accepted
    · cases accepted
    split at accepted
    · cases accepted
    next short unfinished wrongSize wrongCrc wrongHash =>
    refine ⟨⟨?_, not_not.mp unfinished, not_not.mp wrongSize, not_not.mp wrongCrc, ?_⟩, ?_⟩
    · have whole := not_not.mp short
      rw [List.length_take] at whole
      omega
    · intro check
      apply hashed.mp
      by_contra mismatch
      exact wrongHash ⟨check, mismatch⟩
    · exact (Option.some.inj accepted).symm
  · rintro ⟨⟨long, status, size, crc, hash⟩, rfl⟩
    have whole : (log.take MasterRecord.size).length = MasterRecord.size := by
      rw [List.length_take]
      omega
    have matched : ¬(checkhash = true ∧ ¬checkLogHash machine log (master log) = true) := by
      rintro ⟨check, mismatch⟩
      exact mismatch (hashed.mpr (hash check))
    simp only [accept, buffer, record, front, sum]
    rw [if_neg (not_not.mpr whole), if_neg (not_not.mpr status), if_neg (not_not.mpr size),
      if_neg (not_not.mpr crc), if_neg matched]

theorem accept_none (rejected : ¬Finalised machine log checkhash) : accept machine log checkhash = none := by
  cases result : accept machine log checkhash with
  | none => rfl
  | some size => exact absurd (accept_iff.mp result).1 rejected

end Accept

section Finalise
variable {record : MasterRecord} {tail : List UInt8}

@[simp] theorem length_toBytes (hashLength : record.hash.length = 32) :
    record.toBytes.length = MasterRecord.crcOffset := by
  simp [MasterRecord.toBytes, hashLength]

theorem ofBytes_toBytes (hashLength : record.hash.length = 32) (status : record.status < 2 ^ 32)
    (hashid : record.hashid < 2 ^ 32) (logsize : record.logsize < 2 ^ 64) (size : record.filesize < 2 ^ 64) :
    MasterRecord.ofBytes (record.toBytes ++ tail) = record := by
  obtain ⟨statusField, hashidField, logsizeField, filesizeField, hash⟩ := record
  simp only at hashLength status hashid logsize size
  rw [MasterRecord.ofBytes, MasterRecord.toBytes]
  simp only [List.append_assoc, MasterRecord.mk.injEq]
  refine ⟨?_, ?_, ?_, ?_, ?_⟩
  · rw [take_leBytes, leNumber_leBytes]
    exact Nat.mod_eq_of_lt status
  · rw [drop_leBytes 4 0, List.drop_zero, take_leBytes, leNumber_leBytes]
    exact Nat.mod_eq_of_lt hashid
  · rw [drop_leBytes 4 4, drop_leBytes 4 0, List.drop_zero, take_leBytes, leNumber_leBytes]
    exact Nat.mod_eq_of_lt logsize
  · rw [drop_leBytes 4 12, drop_leBytes 4 8, drop_leBytes 8 0, List.drop_zero, take_leBytes, leNumber_leBytes]
    exact Nat.mod_eq_of_lt size
  · rw [drop_leBytes 4 20, drop_leBytes 4 16, drop_leBytes 8 8, drop_leBytes 8 0, List.drop_zero]
    exact List.take_left' hashLength

/-- The mark takes the place of the first bytes. -/
theorem markLogFinalized_eq (machine : Machine) (log : File) (hashed : List UInt8) {padding : List UInt8} (filesize : ℕ)
    (hashWidth : ∀ bytes, (machine.fastHash256 bytes).length = 32) (padded : padding.length = 4) :
    ∃ bytes, bytes.length = MasterRecord.size ∧ markLogFinalized machine log hashed padding filesize = bytes ++ log.drop MasterRecord.size ∧
      bytes = MasterRecord.toBytes ⟨logStatusFinalized, logHashidFh256, log.length, filesize, machine.fastHash256 hashed⟩ ++
        (leBytes 4 (machine.crc32c (MasterRecord.toBytes
          ⟨logStatusFinalized, logHashidFh256, log.length, filesize, machine.fastHash256 hashed⟩)) ++ padding) := by
  set record : MasterRecord := ⟨logStatusFinalized, logHashidFh256, log.length, filesize, machine.fastHash256 hashed⟩ with made
  have recordLength : record.toBytes.length = MasterRecord.crcOffset := length_toBytes (hashWidth _)
  have bytesLength : (record.toBytes ++ (leBytes 4 (machine.crc32c record.toBytes) ++ padding)).length = MasterRecord.size := by
    rw [List.length_append, List.length_append, recordLength, length_leBytes, padded]
  have nonempty : record.toBytes ++ (leBytes 4 (machine.crc32c record.toBytes) ++ padding) ≠ [] := by
    apply List.ne_nil_of_length_pos
    rw [bytesLength]
    exact Nat.succ_pos _
  refine ⟨_, bytesLength, ?_, rfl⟩
  rw [← bytesLength]
  exact File.pwrite_zero nonempty

theorem drop_markLogFinalized (machine : Machine) (log : File) (hashed : List UInt8) {padding : List UInt8} (filesize : ℕ)
    (hashWidth : ∀ bytes, (machine.fastHash256 bytes).length = 32) (padded : padding.length = 4) :
    (markLogFinalized machine log hashed padding filesize).drop sectorSize = log.drop sectorSize := by
  obtain ⟨bytes, bytesLength, marked, _⟩ := markLogFinalized_eq machine log hashed filesize hashWidth padded
  rw [marked, show sectorSize = MasterRecord.size + (sectorSize - MasterRecord.size) from rfl, ← List.drop_drop,
    List.drop_left' bytesLength, List.drop_drop]

/-- A log that was marked passes the checks of its replay. -/
theorem finalised_markLogFinalized (machine : Machine) (log : File) (padding : List UInt8) (filesize : ℕ)
    (checkhash : Bool) (crcWidth : ∀ bytes, machine.crc32c bytes < 2 ^ 32)
    (hashWidth : ∀ bytes, (machine.fastHash256 bytes).length = 32) (sector : sectorSize ≤ log.length)
    (logWidth : log.length < 2 ^ 64) (width : filesize < 2 ^ 64) (padded : padding.length = 4) :
    Finalised machine (markLogFinalized machine log (log.drop sectorSize) padding filesize) checkhash ∧
      (master (markLogFinalized machine log (log.drop sectorSize) padding filesize)).filesize = filesize := by
  obtain ⟨bytes, bytesLength, marked, written⟩ :=
    markLogFinalized_eq machine log (log.drop sectorSize) filesize hashWidth padded
  have rest := drop_markLogFinalized machine log (log.drop sectorSize) filesize hashWidth padded
  set record : MasterRecord :=
    ⟨logStatusFinalized, logHashidFh256, log.length, filesize, machine.fastHash256 (log.drop sectorSize)⟩ with made
  have recordLength : record.toBytes.length = MasterRecord.crcOffset := length_toBytes (hashWidth _)
  rw [marked] at rest ⊢
  have readBack : master (bytes ++ log.drop MasterRecord.size) = record := by
    rw [master, List.take_left' bytesLength, written]
    exact ofBytes_toBytes (hashWidth _) (by norm_num [made]) (by norm_num [made]) logWidth width
  have length : (bytes ++ log.drop MasterRecord.size).length = log.length := by
    simp only [sectorSize] at sector
    rw [List.length_append, List.length_drop, bytesLength, MasterRecord.size]
    omega
  refine ⟨⟨?_, ?_, ?_, ?_, ?_⟩, ?_⟩
  · rw [length, MasterRecord.size]
    simp only [sectorSize] at sector
    omega
  · rw [readBack]
  · rw [readBack, length]
  · rw [written, List.append_assoc, List.drop_left' recordLength, List.take_left' recordLength, List.append_assoc,
      take_leBytes, leNumber_leBytes]
    exact Nat.mod_eq_of_lt (crcWidth _)
  · intro _
    rw [readBack]
    refine ⟨rfl, ?_⟩
    rw [rest]
  · rw [readBack]

end Finalise

section Seek
variable {machine : Machine} {size position len other : ℕ}

theorem seek_seek (found : seek machine size position = some len) : seek machine size len = some len := by
  rw [seek] at found ⊢
  split at found
  · rw [if_pos ‹_›]
    exact found
  · split at found
    · rw [if_neg ‹_›, if_pos ‹_›]
    · cases found

theorem seek_position (representable : size ≠ 2 ^ 64 - 1) : seek machine size position = seek machine size other := by
  rw [seek, seek, if_neg representable, if_neg representable]

end Seek

section Records
variable {machine : Machine} {log : File} {handles : Handles} {size : ℕ} {meets : Target × FileOp → Prop}

theorem pwrite_all {target : Target} {offset : ℕ} {bytes : List UInt8} {next : Run}
    (write : ∀ offset bytes, meets (target, .write offset bytes)) (rest : ∀ op ∈ next.ops, meets op) :
    ∀ op ∈ (Run.pwrite machine target offset bytes next).ops, meets op := by
  intro op member
  cases List.mem_cons.mp member with
  | inl first =>
    rw [first]
    exact write _ _
  | inr later =>
    split at later
    · cases later
    · exact rest op later

theorem finish_all {ioff : ℕ} {gathered : List IndexRecord}
    (indexWrite : handles.index = true → ∀ offset bytes, meets (.index, .write offset bytes))
    (resize : ∀ len, seek machine size handles.position = some len → meets (.data, .resize len))
    (opened : gathered ≠ [] → handles.index = true) :
    ∀ op ∈ (finish machine size handles.position ioff gathered).ops, meets op := by
  have rest : ∀ op ∈ (settle machine size handles.position).ops, meets op := by
    intro op member
    rw [settle] at member
    split at member
    · cases member
    · next len found =>
      cases List.mem_singleton.mp member
      exact resize len found
  rw [finish]
  split
  · exact rest
  · next some => exact pwrite_all (indexWrite (opened some)) rest

/-- The loop writes to the data file, writes to the index file if there is one,
and sets no length but that of the data file at the end. -/
theorem records_all (off ioff : ℕ) (gathered : List IndexRecord)
    (dataWrite : ∀ offset bytes, meets (.data, .write offset bytes))
    (indexWrite : handles.index = true → ∀ offset bytes, meets (.index, .write offset bytes))
    (resize : ∀ len, seek machine size handles.position = some len → meets (.data, .resize len))
    (opened : gathered ≠ [] → handles.index = true) :
    ∀ op ∈ (records machine log size handles off ioff gathered).ops, meets op := by
  fun_induction records machine log size handles off ioff gathered with
  | case1 off ioff gathered head ended => exact finish_all indexWrite resize opened
  | case2 | case3 | case5 | case7 | case10 =>
    intro op member
    cases member
  | case4 off ioff gathered head some whole header start isData fits past ih => exact ih opened
  | case6 off ioff gathered head some whole header start isData fits inside buff read ih =>
    exact pwrite_all dataWrite (ih opened)
  | case8 off ioff gathered head some whole header start notData isInt hasIndex more full ih =>
    exact pwrite_all (indexWrite (not_not.mp hasIndex)) (ih fun some => absurd rfl some)
  | case9 off ioff gathered head some whole header start notData isInt hasIndex more room ih =>
    exact ih fun _ => not_not.mp hasIndex

end Records

section Replay
variable {machine : Machine} {log : File} {handles : Handles} {checkhash : Bool} {ops : List (Target × FileOp)}

theorem resize_mem_opsOf {target : Target} {len : ℕ} (member : .resize len ∈ opsOf target ops) :
    (target, .resize len) ∈ ops := by
  obtain ⟨⟨owner, op⟩, inside, rfl⟩ := List.mem_map.mp member
  obtain ⟨inside, own⟩ := List.mem_filter.mp inside
  rw [← of_decide_eq_true own]
  exact inside

theorem opsOf_eq_nil {target : Target} (others : ∀ op ∈ ops, op.1 ≠ target) : opsOf target ops = [] := by
  rw [opsOf, List.filter_eq_nil_iff.mpr, List.map_nil]
  intro op member
  rw [decide_eq_true_iff]
  exact others op member

/-- The operations of a replay settle the lengths of both files first. -/
theorem redo_processLog : Redo (processLog machine log handles checkhash).ops := by
  rw [processLog]
  split
  · intro target
    exact .inl rfl
  split
  · intro target
    exact .inl rfl
  next size accepted _ len found =>
  set rest := records machine log size { handles with position := len } sectorSize 0 [] with loop
  have lengths : ∀ op ∈ rest.ops, ∀ other, op.2 = .resize other → op.1 = .data ∧ other = len := by
    rw [loop]
    apply records_all
    · intro _ _ other same
      cases same
    · intro _ _ _ other same
      cases same
    · intro again foundAgain other same
      cases same
      exact ⟨rfl, Option.some.inj (foundAgain.symm.trans (seek_seek found))⟩
    · intro some
      exact absurd rfl some
  have closed : handles.index = false → ∀ op ∈ rest.ops, op.1 ≠ .index := by
    intro noIndex
    rw [loop]
    apply records_all
    · intro _ _ same
      cases same
    · intro open_
      rw [noIndex] at open_
      cases open_
    · intro _ _ same
      cases same
    · intro some
      exact absurd rfl some
  intro target
  cases target with
  | data =>
    right
    refine ⟨len, opsOf .data rest.ops, ?_, ?_⟩
    · split
      · rw [Run.emit, opsOf_own, Run.emit, opsOf_other (by decide)]
      · rw [Run.emit, opsOf_own]
    · intro other member
      exact (lengths _ (resize_mem_opsOf member) other rfl).2
  | index =>
    rw [Run.emit, opsOf_other (by decide)]
    split
    · right
      refine ⟨indexHeaderSize, opsOf .index rest.ops, opsOf_own _ _, ?_⟩
      intro other member
      cases (lengths _ (resize_mem_opsOf member) other rfl).1
    · next noIndex =>
      left
      exact opsOf_eq_nil (closed (Bool.not_eq_true _ ▸ noIndex))

/-- Every replay that is not rejected does the same operations. -/
theorem processLog_ops (finalised : Finalised machine log checkhash) {position : ℕ} {check : Bool}
    (opened : position = handles.position ∨ (master log).filesize ≠ 2 ^ 64 - 1) :
    (processLog machine log { handles with position := position } check).ops = [] ∨
      (processLog machine log { handles with position := position } check).ops =
        (processLog machine log handles checkhash).ops := by
  by_cases other : Finalised machine log check
  · right
    have sameSeek : seek machine (master log).filesize position =
        seek machine (master log).filesize handles.position := by
      cases opened with
      | inl same => rw [same]
      | inr representable => exact seek_position representable
    rw [processLog, processLog, accept_iff.mpr ⟨finalised, rfl⟩, accept_iff.mpr ⟨other, rfl⟩]
    simp only [sameSeek]
  · left
    rw [processLog, accept_none other]
    rfl

theorem attempted_of_crashed {files left : Target → File} (finalised : Finalised machine log checkhash)
    (crashed : Crashed machine log handles files left) :
    Attempted (processLog machine log handles checkhash).ops files left := by
  induction crashed with
  | start => exact .start
  | again left position check done before opened cut ih =>
    apply Attempted.again left done ih
    cases processLog_ops finalised opened with
    | inl rejected =>
      rw [rejected] at cut
      cases cut with
      | between _ rest parts =>
        obtain ⟨rfl, -⟩ := List.append_eq_nil_iff.mp parts.symm
        exact .between [] _ rfl
      | torn front rest target offset count bytes parts => simp at parts
    | inr same =>
      rw [← same]
      exact cut

/-- A finalised log can be replayed over any number of crashed replays of it, and
a log that is not finalised changes nothing. -/
theorem replay_crash_safe (machine : Machine) (log : File) (handles : Handles) (checkhash : Bool)
    (files : Target → File) :
    (Finalised machine log checkhash → ∀ left, Crashed machine log handles files left →
      applyAll (processLog machine log handles checkhash).ops left =
        applyAll (processLog machine log handles checkhash).ops files) ∧
    (¬Finalised machine log checkhash → ∀ done, CutOff (processLog machine log handles checkhash).ops done →
      applyAll done files = files) := by
  constructor
  · intro finalised left crashed
    exact redo_processLog.attempted (attempted_of_crashed finalised crashed)
  · intro unfinished done cut
    have nothing : (processLog machine log handles checkhash).ops = [] := by
      rw [processLog, accept_none unfinished]
      rfl
    rw [nothing] at cut
    have same := Redo.replay (fun _ => .inl rfl) cut files
    exact same

/-- A log with one record, replayed after a crash behind its first operation. -/
theorem replay_crash_safe_marked :
    let machine : Machine := ⟨fun bytes => leNumber (bytes.take 4), fun _ => List.replicate 32 0, 2 ^ 63 - 1⟩
    let written := List.replicate sectorSize 0 ++ [1, 0, 2, 0, 0, 0, 0, 0, 1, 0, 0, 0, 0, 0, 0, 0, 7, 9]
    let log := markLogFinalized machine written (written.drop sectorSize) [0, 0, 0, 0] 3
    let replay := processLog machine log ⟨0, false⟩ true
    Finalised machine log true ∧
      applyAll replay.ops (applyAll (replay.ops.take 1) fun _ => [5]) = applyAll replay.ops fun _ => [5] := by
  intro machine written log replay
  have crcWidth : ∀ bytes, machine.crc32c bytes < 2 ^ 32 := by
    intro bytes
    apply lt_of_lt_of_le (leNumber_lt _)
    exact Nat.pow_le_pow_right (by norm_num) (List.length_take_le 4 bytes)
  have length : written.length = sectorSize + 18 := by
    rw [List.length_append, List.length_replicate]
    rfl
  have finalised : Finalised machine log true :=
    (finalised_markLogFinalized machine written [0, 0, 0, 0] 3 true crcWidth (fun _ => List.length_replicate)
      (by rw [length]; exact Nat.le_add_right _ _) (by rw [length, sectorSize]; norm_num) (by norm_num) rfl).1
  refine ⟨finalised, ?_⟩
  apply (replay_crash_safe machine log ⟨0, false⟩ true fun _ => [5]).1 finalised
  apply Crashed.again _ 0 true _ .start (.inl rfl)
  exact .between _ (replay.ops.drop 1) (List.take_append_drop 1 _).symm

end Replay
end Pclsync.Proofs.Log
