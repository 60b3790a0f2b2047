import Pclsync.Crypto.LogIntervals
import Pclsync.Proofs.Log

/-! The table of intervals comes back from the index file, unless the log gets so long that `logoffset` wraps around
before the last write of the table. -/

namespace Pclsync.Proofs.LogIntervals
open Pclsync.Crypto Pclsync.Crypto.Log Pclsync.Crypto.LogIntervals Library

/-- The headers of the intervals, one after the other. -/
def headers (junk : ℕ → UInt8) (list : List (ℕ × ℕ)) : List UInt8 := list.flatMap fun interval => headerBytes (junk interval.1) interval

/-- The records of the intervals in the index file. -/
def table (list : List (ℕ × ℕ)) : List UInt8 := list.flatMap fun interval => IndexRecord.toBytes ⟨interval.1, interval.2 - interval.1⟩

/-- Intervals of offsets that the log has room for. -/
def Small (list : List (ℕ × ℕ)) : Prop := ∀ interval ∈ list, interval.1 < interval.2 ∧ interval.2 < 2 ^ 48

/-- Headers with data, none with an interval. -/
inductive DataRecords : List UInt8 → Prop
  | nil : DataRecords []
  | cons (head body rest : List UInt8) (whole : head.length = headerSize) (data : (Header.ofBytes head).type = logData)
      (length : body.length = (Header.ofBytes head).length) (sector : body.length ≤ sectorSize)
      (narrow : (Header.ofBytes head).offset + body.length < 2 ^ 64) (more : DataRecords rest) : DataRecords (head ++ (body ++ rest))

section
variable {junk : ℕ → UInt8} {byte : UInt8} {list rest : List (ℕ × ℕ)} {interval : ℕ × ℕ}

@[simp] theorem length_headerBytes : (headerBytes byte interval).length = headerSize := by simp [headerBytes]

@[simp] theorem length_toBytes (record : IndexRecord) : record.toBytes.length = indexRecordSize := by simp [IndexRecord.toBytes]

@[simp] theorem length_headers : (headers junk list).length = headerSize * list.length := by
  simp [headers, List.length_flatMap, mul_comm]

@[simp] theorem length_table : (table list).length = indexRecordSize * list.length := by
  simp [table, List.length_flatMap, mul_comm]

theorem table_append : table (list ++ rest) = table list ++ table rest := List.flatMap_append

theorem Small.head (small : Small (interval :: rest)) : interval.1 < interval.2 ∧ interval.2 < 2 ^ 48 := small interval List.mem_cons_self

theorem Small.tail (small : Small (interval :: rest)) : Small rest := fun other member => small other (List.mem_cons_of_mem _ member)

/-- The replay reads the headers as they were meant. -/
theorem ofBytes_headerBytes (small : interval.1 < interval.2 ∧ interval.2 < 2 ^ 48) :
    Header.ofBytes (headerBytes byte interval) =
      ⟨logInt, (interval.2 - interval.1) / 2 ^ 32, (interval.2 - interval.1) % 2 ^ 32, interval.1⟩ := by
  rw [Header.ofBytes, headerBytes]
  simp only [Header.mk.injEq]
  have second : (leBytes 1 logInt ++ (byte :: (leBytes 2 ((interval.2 - interval.1) / 2 ^ 32) ++
      (leBytes 4 ((interval.2 - interval.1) % 2 ^ 32) ++ leBytes 8 interval.1)))) =
      leBytes 1 logInt ++ (leBytes 1 byte.toNat ++ (leBytes 2 ((interval.2 - interval.1) / 2 ^ 32) ++
      (leBytes 4 ((interval.2 - interval.1) % 2 ^ 32) ++ leBytes 8 interval.1))) := by
    simp [leBytes]
  rw [second]
  refine ⟨?_, ?_, ?_, ?_⟩
  · rw [take_leBytes, leNumber_leBytes]
    rfl
  · rw [drop_leBytes 1 1, drop_leBytes 1 0, List.drop_zero, take_leBytes, leNumber_leBytes]
    exact Nat.mod_eq_of_lt (by omega)
  · rw [drop_leBytes 1 3, drop_leBytes 1 2, drop_leBytes 2 0, List.drop_zero, take_leBytes, leNumber_leBytes]
    exact Nat.mod_eq_of_lt (by omega)
  · rw [drop_leBytes 1 7, drop_leBytes 1 6, drop_leBytes 2 4, drop_leBytes 4 0, List.drop_zero,
      List.take_of_length_le (by simp), leNumber_leBytes]
    exact Nat.mod_eq_of_lt (by omega)

end

/-! The writes to the log. -/

section
variable {machine : Machine} {junk : ℕ → UInt8} {writer after : Writer} {logs : List (List UInt8)} {list : List (ℕ × ℕ)}

/-- Every write appends to the log. -/
structure Appends (writer : Writer) : Prop where
  offset : writer.logoffset = writer.log.length
  hashed : writer.log.length = writer.hashed.length + sectorSize

/-- `logoffset` lags behind what was hashed. -/
structure Lags (writer : Writer) : Prop where
  offset : writer.logoffset < writer.hashed.length + sectorSize
  length : writer.log.length ≤ writer.hashed.length + sectorSize

/-- What was gathered is headers, and not more than there is room for. -/
structure Gathered (logs : List (List UInt8)) : Prop where
  headers : ∀ bytes ∈ logs, bytes.length = headerSize
  bound : logs.length ≤ logsSize

theorem Gathered.length (gathered : Gathered logs) : logs.flatten.length = headerSize * logs.length := by
  have sizes : logs.map List.length = List.replicate logs.length headerSize :=
    List.eq_replicate_iff.mpr ⟨List.length_map _, fun size member => by
      obtain ⟨bytes, isThere, rfl⟩ := List.mem_map.mp member
      exact gathered.headers bytes isThere⟩
  rw [List.length_flatten, sizes, List.sum_replicate, smul_eq_mul, mul_comm]

theorem Gathered.more (gathered : Gathered logs) (room : logs.length ≠ logsSize) (byte : UInt8) (interval : ℕ × ℕ) :
    Gathered (logs ++ [headerBytes byte interval]) := by
  refine ⟨fun bytes member => ?_, ?_⟩
  · obtain member | member := List.mem_append.mp member
    · exact gathered.headers bytes member
    · rw [List.mem_singleton.mp member, length_headerBytes]
  · have bound := gathered.bound
    rw [List.length_append, List.length_singleton]
    omega

theorem gathered_nil : Gathered [] := ⟨fun _ member => absurd member List.not_mem_nil, Nat.zero_le _⟩

theorem gathered_one (byte : UInt8) (interval : ℕ × ℕ) : Gathered ([] ++ [headerBytes byte interval]) :=
  gathered_nil.more (by decide) byte interval

theorem writeLogs_some (wrote : writeLogs machine writer logs = some after) :
    after = ⟨writer.log.pwrite writer.logoffset logs.flatten, u32 (writer.logoffset + logs.flatten.length), writer.hashed ++ logs.flatten⟩ := by
  rw [writeLogs] at wrote
  split at wrote
  · cases wrote
  · exact (Option.some.inj wrote).symm

/-- A write at an offset that lags behind leaves the log shorter than what was hashed, and the offset behind. -/
theorem writeLogs_lags (lags : Lags writer) (gathered : Gathered logs) (nonempty : logs ≠ []) (wrote : writeLogs machine writer logs = some after) :
    Lags after ∧ after.log.length < after.hashed.length + sectorSize := by
  obtain ⟨offset, length⟩ := lags
  have bytes := gathered.length
  have positive : 0 < logs.length := List.length_pos_of_ne_nil nonempty
  have flat : logs.flatten ≠ [] := by
    apply List.ne_nil_of_length_pos
    rw [bytes, headerSize]
    omega
  rw [writeLogs_some wrote]
  have wraps : u32 (writer.logoffset + logs.flatten.length) ≤ writer.logoffset + logs.flatten.length := Nat.mod_le _ _
  have longer : (writer.log.pwrite writer.logoffset logs.flatten).length < (writer.hashed ++ logs.flatten).length + sectorSize := by
    rw [File.length_pwrite, if_neg flat, List.length_append]
    rw [headerSize] at bytes
    omega
  refine ⟨⟨?_, longer.le⟩, longer⟩
  dsimp only
  rw [List.length_append]
  omega

theorem writeFrom_lags (lags : Lags writer) (gathered : Gathered logs) (nonempty : logs ≠ [])
    (wrote : writeFrom machine junk writer logs list = some after) : after.log.length < after.hashed.length + sectorSize := by
  induction list generalizing writer logs with
  | nil =>
    rw [writeFrom, if_neg nonempty] at wrote
    exact (writeLogs_lags lags gathered nonempty wrote).2
  | cons itr rest ih =>
    rw [writeFrom, makeRoom] at wrote
    split at wrote
    next full =>
      cases written : writeLogs machine writer logs with
      | none => simp [written] at wrote
      | some next =>
        simp only [written, Option.map_some, Option.bind_eq_bind, Option.bind_some] at wrote
        split at wrote
        · cases wrote
        · exact ih (writeLogs_lags lags gathered nonempty written).1 (gathered_one _ _) (by simp) wrote
    next room =>
      simp only [Option.bind_eq_bind, Option.bind_some] at wrote
      split at wrote
      · cases wrote
      · exact ih lags (gathered.more room _ _) (by simp) wrote

/-- The offset at which the last write of a table starts fits into `logoffset`. -/
def Fits (logoffset count : ℕ) : Prop := logoffset + logsSize * headerSize * ((count - 1) / logsSize) < 2 ^ 32

theorem fits_narrow {offset count : ℕ} (fits : Fits offset count) : offset < 2 ^ 32 := lt_of_le_of_lt (Nat.le_add_right _ _) fits

/-- Full `logs` are written, and the rest is a table of its own. -/
theorem fits_full {offset count : ℕ} : Fits offset (logsSize + (count + 1)) ↔ Fits (offset + headerSize * logsSize) (1 + count) := by
  have quotient : (logsSize + (count + 1) - 1) / logsSize = count / logsSize + 1 := by
    rw [show logsSize + (count + 1) - 1 = count + logsSize by omega, Nat.add_div_right _ (by decide)]
  have sum : offset + logsSize * headerSize * (count / logsSize + 1) =
      offset + headerSize * logsSize + logsSize * headerSize * (count / logsSize) := by ring
  rw [Fits, Fits, quotient, sum, Nat.add_sub_cancel_left]

theorem writeLogs_appends (appends : Appends writer) (gathered : Gathered logs) (nonempty : logs ≠ [])
    (wrote : writeLogs machine writer logs = some after) :
    after.log = writer.log ++ logs.flatten ∧ after.hashed = writer.hashed ++ logs.flatten ∧
      after.logoffset = u32 (writer.logoffset + headerSize * logs.length) := by
  obtain rfl := writeLogs_some wrote
  refine ⟨?_, rfl, by rw [gathered.length]⟩
  dsimp only
  rw [appends.offset]
  exact File.pwrite_end

/-- A table that does not fit is not written behind the log as a whole. -/
theorem writeFrom_wraps (appends : Appends writer) (narrow : writer.logoffset < 2 ^ 32) (gathered : Gathered logs)
    (wraps : ¬ Fits writer.logoffset (logs.length + list.length)) (wrote : writeFrom machine junk writer logs list = some after) :
    after.log.length < after.hashed.length + sectorSize := by
  induction list generalizing writer logs with
  | nil =>
    have bound := gathered.bound
    refine absurd ?_ wraps
    rw [Fits, List.length_nil, Nat.div_eq_of_lt (by rw [logsSize, headerSize] at *; omega)]
    omega
  | cons itr rest ih =>
    rw [writeFrom, makeRoom] at wrote
    rw [List.length_cons] at wraps
    split at wrote
    next full =>
      have nonempty : logs ≠ [] := by
        rintro rfl
        cases full
      cases written : writeLogs machine writer logs with
      | none => simp [written] at wrote
      | some next =>
        simp only [written, Option.map_some, Option.bind_eq_bind, Option.bind_some] at wrote
        split at wrote
        · cases wrote
        · obtain ⟨log, hashed, offset⟩ := writeLogs_appends appends gathered nonempty written
          have bytes := gathered.length
          have whole := appends.hashed
          have start := appends.offset
          rw [full] at bytes offset wraps
          rw [fits_full] at wraps
          by_cases past : writer.logoffset + headerSize * logsSize < 2 ^ 32
          · have isOffset : next.logoffset = writer.logoffset + headerSize * logsSize := offset.trans (Nat.mod_eq_of_lt past)
            refine ih ⟨?_, ?_⟩ (isOffset ▸ past) (gathered_one _ _) (isOffset ▸ wraps) wrote
            · rw [isOffset, log, List.length_append, bytes, start]
            · rw [log, hashed, List.length_append, List.length_append, whole]
              omega
          · have wrapped : next.logoffset < writer.logoffset := by
              rw [offset, u32]
              simp only [logsSize, headerSize] at past ⊢
              omega
            refine writeFrom_lags ⟨?_, ?_⟩ (gathered_one _ _) (by simp) wrote
            · rw [hashed, List.length_append]
              omega
            · rw [log, hashed, List.length_append, List.length_append, whole]
              omega
    next room =>
      simp only [Option.bind_eq_bind, Option.bind_some] at wrote
      split at wrote
      · cases wrote
      · refine ih appends narrow (gathered.more room _ _) ?_ wrote
        rw [List.length_append, List.length_singleton, Nat.add_assoc, Nat.add_comm 1]
        exact wraps

theorem writeLogs_room (gathered : Gathered logs) (room : writer.logoffset + headerSize * logs.length ≤ machine.maxBytes) :
    ∃ after, writeLogs machine writer logs = some after := by
  rw [writeLogs]
  have whole : (logs.flatten.take (machine.maxBytes - writer.logoffset)).length = logs.flatten.length := by
    rw [List.length_take, gathered.length]
    omega
  rw [if_neg (not_not.mpr whole)]
  exact ⟨_, rfl⟩

theorem headers_cons (itr : ℕ × ℕ) (rest : List (ℕ × ℕ)) : headers junk (itr :: rest) = headerBytes (junk itr.1) itr ++ headers junk rest := rfl

/-- A table that fits is appended to the log. -/
theorem writeFrom_fits (appends : Appends writer) (gathered : Gathered logs) (small : Small list)
    (fits : Fits writer.logoffset (logs.length + list.length))
    (room : writer.logoffset + headerSize * (logs.length + list.length) ≤ machine.maxBytes) :
    ∃ after, writeFrom machine junk writer logs list = some after ∧ after.log = writer.log ++ (logs.flatten ++ headers junk list) ∧
      after.hashed = writer.hashed ++ (logs.flatten ++ headers junk list) := by
  induction list generalizing writer logs with
  | nil =>
    rw [writeFrom, headers, List.flatMap_nil, List.append_nil]
    split
    next empty =>
      rw [empty, List.flatten_nil]
      exact ⟨writer, rfl, (List.append_nil _).symm, (List.append_nil _).symm⟩
    next nonempty =>
      obtain ⟨after, wrote⟩ := writeLogs_room gathered room
      obtain ⟨log, hashed, _⟩ := writeLogs_appends appends gathered nonempty wrote
      exact ⟨after, wrote, log, hashed⟩
  | cons itr rest ih =>
    have shifted : ¬ (itr.2 - itr.1) / 2 ^ 48 ≠ 0 := by
      have bounds := small.head
      rw [not_not]
      exact Nat.div_eq_of_lt (by omega)
    rw [List.length_cons] at fits room
    rw [writeFrom, makeRoom]
    split
    next full =>
      have nonempty : logs ≠ [] := by
        rintro rfl
        cases full
      have roomFull : writer.logoffset + headerSize * logs.length ≤ machine.maxBytes := by
        simp only [headerSize] at room ⊢
        omega
      obtain ⟨next, wrote⟩ := writeLogs_room gathered roomFull
      obtain ⟨log, hashed, offset⟩ := writeLogs_appends appends gathered nonempty wrote
      have bytes := gathered.length
      have whole := appends.hashed
      have start := appends.offset
      rw [full] at bytes offset fits room
      rw [fits_full] at fits
      have past := fits_narrow fits
      have isOffset : next.logoffset = writer.logoffset + headerSize * logsSize := offset.trans (Nat.mod_eq_of_lt past)
      have appendsNext : Appends next := by
        refine ⟨?_, ?_⟩
        · rw [isOffset, log, List.length_append, bytes, start]
        · rw [log, hashed, List.length_append, List.length_append, whole]
          omega
      have fitsNext : Fits next.logoffset (([] ++ [headerBytes (junk itr.1) itr]).length + rest.length) := isOffset ▸ fits
      have roomNext : next.logoffset + headerSize * (([] ++ [headerBytes (junk itr.1) itr]).length + rest.length) ≤ machine.maxBytes := by
        rw [isOffset, List.nil_append, List.length_singleton]
        simp only [logsSize, headerSize] at room ⊢
        omega
      obtain ⟨after, writes, logAfter, hashedAfter⟩ := ih appendsNext (gathered_one _ _) small.tail fitsNext roomNext
      refine ⟨after, ?_, ?_, ?_⟩
      · simp only [wrote, Option.map_some, Option.bind_eq_bind, Option.bind_some]
        exact writes
      · rw [logAfter, log, headers_cons]
        simp
      · rw [hashedAfter, hashed, headers_cons]
        simp
    next more =>
      have fitsNext : Fits writer.logoffset ((logs ++ [headerBytes (junk itr.1) itr]).length + rest.length) := by
        rw [List.length_append, List.length_singleton, Nat.add_assoc, Nat.add_comm 1]
        exact fits
      have roomNext : writer.logoffset + headerSize * ((logs ++ [headerBytes (junk itr.1) itr]).length + rest.length) ≤ machine.maxBytes := by
        rw [List.length_append, List.length_singleton, Nat.add_assoc, Nat.add_comm 1]
        exact room
      obtain ⟨after, writes, logAfter, hashedAfter⟩ := ih appends (gathered.more more _ _) small.tail fitsNext roomNext
      refine ⟨after, ?_, ?_, ?_⟩
      · simp only [Option.bind_eq_bind, Option.bind_some]
        exact writes
      · rw [logAfter, headers_cons]
        simp
      · rw [hashedAfter, headers_cons]
        simp

end

/-! The replay. -/

section
variable {machine : Machine} {junk : ℕ → UInt8} {log : File} {handles : Handles} {size off ioff len : ℕ} {bytes rest : List UInt8}
  {gathered : List IndexRecord} {list : List (ℕ × ℕ)}

/-- The replay goes over the data before the table. -/
theorem records_data (data : DataRecords bytes) (held : log.drop off = bytes ++ rest) (fits : size ≤ machine.maxBytes) :
    opsOf .index (records machine log size handles off 0 []).ops =
        opsOf .index (records machine log size handles (off + bytes.length) 0 []).ops ∧
      (records machine log size handles off 0 []).code = (records machine log size handles (off + bytes.length) 0 []).code := by
  induction data generalizing off with
  | nil => exact ⟨rfl, rfl⟩
  | cons head body more whole isData length sector narrow _ ih =>
    have readHead : log.pread off headerSize = head := by
      rw [File.pread, held, List.append_assoc, List.take_left' whole]
    have start : log.drop (off + headerSize) = body ++ (more ++ rest) := by
      rw [← List.drop_drop, held, List.append_assoc, List.append_assoc, List.drop_left' whole]
    have readBody : log.pread (off + headerSize) (Header.ofBytes head).length = body := by
      rw [File.pread, start, List.take_left' length]
    have next : log.drop (off + headerSize + (Header.ofBytes head).length) = more ++ rest := by
      rw [← List.drop_drop, start, List.drop_left' length]
    have total : off + (head ++ (body ++ more)).length = off + headerSize + (Header.ofBytes head).length + more.length := by
      rw [List.length_append, List.length_append, whole, length]
      omega
    have nonempty : head ≠ [] := by
      rintro rfl
      cases whole
    obtain ⟨ops, code⟩ := ih next
    have aborts : ¬ ((Header.ofBytes head).length > sectorSize ∨ ([] : List IndexRecord) ≠ []) := by
      rw [← length]
      simp only [ne_eq, not_true_eq_false, or_false]
      omega
    rw [total, records]
    simp only [readHead]
    rw [if_neg nonempty, if_neg (not_not.mpr whole), if_pos isData, if_neg aborts]
    split
    next => exact ⟨ops, code⟩
    next inside =>
      rw [readBody, if_neg (not_not.mpr length)]
      have reach : (Header.ofBytes head).offset + body.length ≤ size := by
        rw [← length, u64, Nat.mod_eq_of_lt narrow] at inside
        omega
      have written : (body.take (machine.maxBytes - (Header.ofBytes head).offset)).length = body.length := by
        rw [List.length_take]
        omega
      rw [Run.pwrite, if_neg (not_not.mpr written), Run.emit, opsOf_other (by decide)]
      exact ⟨ops, code⟩

theorem flush_ops (next : Run) (room : indexRecordSize * (ioff + gathered.length) ≤ machine.maxBytes) :
    flush machine ioff gathered next = Run.emit .index (.write (indexRecordSize * ioff) (gathered.flatMap (·.toBytes))) next := by
  have length : (gathered.flatMap fun record => record.toBytes).length = indexRecordSize * gathered.length := by
    simp [List.length_flatMap, mul_comm]
  have whole : (gathered.flatMap fun record => record.toBytes).take (machine.maxBytes - indexRecordSize * ioff) =
      gathered.flatMap fun record => record.toBytes := by
    apply List.take_of_length_le
    rw [length]
    rw [indexRecordSize] at *
    omega
  rw [flush, Run.pwrite, indexHeaderSize, Nat.add_zero, whole, if_neg (by simp)]

/-- The records of the headers from a place on are appended to the index file. -/
theorem records_headers (small : Small list) (held : log.drop off = headers junk list) (opened : handles.index = true)
    (found : seek machine size handles.position = some len) (bound : gathered.length < sectorSize / indexRecordSize)
    (room : indexRecordSize * (ioff + gathered.length + list.length) ≤ machine.maxBytes) :
    (records machine log size handles off ioff gathered).code = .done ∧ ∀ file : File, file.length = indexRecordSize * ioff →
      FileOp.applyAll (opsOf .index (records machine log size handles off ioff gathered).ops) file =
        file ++ (gathered.flatMap (·.toBytes) ++ table list) := by
  induction list generalizing off ioff gathered with
  | nil =>
    have read : log.pread off headerSize = [] := by
      rw [File.pread, held]
      rfl
    rw [records]
    simp only [read, if_true]
    rw [finish, settle, found, table, List.flatMap_nil, List.append_nil]
    dsimp only
    split
    next empty =>
      refine ⟨rfl, fun file _ => ?_⟩
      rw [empty, List.flatMap_nil, List.append_nil, Run.emit, opsOf_other (by decide)]
      rfl
    next =>
      rw [List.length_nil, Nat.add_zero] at room
      rw [flush_ops _ room]
      refine ⟨rfl, fun file length => ?_⟩
      rw [Run.emit, opsOf_own, Run.emit, opsOf_other (by decide), ← length]
      exact File.pwrite_end
  | cons itr rest ih =>
    have readHead : log.pread off headerSize = headerBytes (junk itr.1) itr := by
      rw [File.pread, held, headers_cons, List.take_left' length_headerBytes]
    have next : log.drop (off + headerSize) = headers junk rest := by
      rw [← List.drop_drop, held, headers_cons, List.drop_left' length_headerBytes]
    have bounds := small.head
    have sum : (itr.2 - itr.1) % 2 ^ 32 + (itr.2 - itr.1) / 2 ^ 32 * 2 ^ 32 = itr.2 - itr.1 := by
      rw [mul_comm]
      exact Nat.mod_add_div _ _
    rw [List.length_cons] at room
    rw [records]
    simp only [readHead, ofBytes_headerBytes bounds, Header.longlengthhi, sum]
    rw [if_neg (List.ne_nil_of_length_pos (by rw [length_headerBytes, headerSize]; omega)), if_neg (not_not.mpr length_headerBytes),
      if_neg (by decide : ¬ logInt = logData)]
    simp only [if_true]
    rw [if_neg (not_not.mpr opened)]
    have shift : (gathered.flatMap fun record => record.toBytes) ++ table (itr :: rest) =
        ((gathered ++ [(⟨itr.1, itr.2 - itr.1⟩ : IndexRecord)]).flatMap fun record => record.toBytes) ++ table rest := by
      rw [List.flatMap_append, List.flatMap_singleton, List.append_assoc]
      rfl
    rw [shift]
    have length : (gathered ++ [(⟨itr.1, itr.2 - itr.1⟩ : IndexRecord)]).length = gathered.length + 1 := by
      rw [List.length_append, List.length_singleton]
    split
    next =>
      rw [flush_ops _ (by rw [length]; rw [indexRecordSize] at *; omega)]
      obtain ⟨code, appended⟩ := @ih (off + headerSize) (ioff + (gathered ++ [(⟨itr.1, itr.2 - itr.1⟩ : IndexRecord)]).length) [] small.tail next
        (by decide) (by rw [length, List.length_nil]; rw [indexRecordSize] at *; omega)
      refine ⟨code, fun file start => ?_⟩
      rw [Run.emit, opsOf_own, ← start]
      have written := appended (file ++ (gathered ++ [(⟨itr.1, itr.2 - itr.1⟩ : IndexRecord)]).flatMap (·.toBytes))
        (by rw [List.length_append, start]; simp [List.length_flatMap]; ring)
      rw [List.flatMap_nil, List.nil_append, List.append_assoc] at written
      rw [← written]
      exact congrArg (FileOp.applyAll _) File.pwrite_end
    next full =>
      refine @ih (off + headerSize) ioff (gathered ++ [(⟨itr.1, itr.2 - itr.1⟩ : IndexRecord)]) small.tail next (by omega) ?_
      rw [length]
      simp only [indexRecordSize] at room ⊢
      omega

end

/-! The loader. -/

section
variable {list : List (ℕ × ℕ)} {tree : Intervals}

theorem recordOfBytes_toBytes {record : IndexRecord} (offset : record.offset < 2 ^ 64) (length : record.length < 2 ^ 64) :
    recordOfBytes record.toBytes = record := by
  obtain ⟨start, count⟩ := record
  rw [recordOfBytes, IndexRecord.toBytes, take_leBytes, leNumber_leBytes, drop_leBytes 8 0, List.drop_zero, List.take_of_length_le (by simp),
    leNumber_leBytes]
  exact congrArg₂ IndexRecord.mk (Nat.mod_eq_of_lt offset) (Nat.mod_eq_of_lt length)

/-- What a loader adds to a tree. -/
def Adds (list : List (ℕ × ℕ)) (before : Intervals) (result : Option Intervals) : Prop :=
  ∃ after, result = some after ∧ ∀ x, x ∈ after ↔ x ∈ before ∨ Intervals.Covers list x

theorem addRecords_table (done : List (ℕ × ℕ)) (small : Small list) :
    Adds list tree (addRecords (table (done ++ list)) (done.length + list.length) done.length tree) := by
  induction list generalizing done tree with
  | nil =>
    rw [addRecords, if_neg (by simp)]
    exact ⟨tree, rfl, fun x => by simp⟩
  | cons itr rest ih =>
    have bounds := small.head
    have read : ((table (done ++ itr :: rest)).drop (done.length * indexRecordSize)).take indexRecordSize =
        IndexRecord.toBytes ⟨itr.1, itr.2 - itr.1⟩ := by
      rw [table_append, List.drop_left' (by rw [length_table, mul_comm])]
      exact List.take_left' (length_toBytes _)
    have isRecord : recordOfBytes (IndexRecord.toBytes ⟨itr.1, itr.2 - itr.1⟩) = ⟨itr.1, itr.2 - itr.1⟩ :=
      recordOfBytes_toBytes (show itr.1 < 2 ^ 64 by omega) (show itr.2 - itr.1 < 2 ^ 64 by omega)
    have stop : u64 (itr.1 + (itr.2 - itr.1)) = itr.2 := by
      rw [Nat.add_sub_cancel' bounds.1.le]
      exact Nat.mod_eq_of_lt (by omega)
    rw [addRecords, if_pos (by simp)]
    simp only [read, isRecord, stop]
    rw [dif_pos bounds.1]
    obtain ⟨after, adds, covers⟩ := @ih (tree.add itr.1 itr.2 bounds.1) (done ++ [itr]) small.tail
    rw [List.append_assoc, List.length_append, List.length_singleton, Nat.add_assoc, Nat.add_comm 1] at adds
    refine ⟨after, adds, fun x => ?_⟩
    rw [covers, Intervals.mem_add, Intervals.covers_cons]
    tauto

theorem loadFrom_table (done : List (ℕ × ℕ)) (small : Small list) :
    Adds list tree (loadFrom (table (done ++ list)) (done.length + list.length) done.length tree) := by
  induction count : list.length using Nat.strong_induction_on generalizing done list tree with
  | _ count ih =>
    subst count
    rw [loadFrom]
    split
    next some =>
      have rd : min (done.length + list.length - done.length) recordsSize = (list.take recordsSize).length := by
        rw [List.length_take, Nat.add_sub_cancel_left, min_comm]
      have read : File.pread (table (done ++ list)) (done.length * indexRecordSize + indexHeaderSize) ((list.take recordsSize).length * indexRecordSize) =
          table (list.take recordsSize) := by
        rw [File.pread, indexHeaderSize, Nat.add_zero, table_append, List.drop_left' (by rw [length_table, mul_comm])]
        conv_lhs => rw [← List.take_append_drop recordsSize list, table_append]
        rw [List.take_append_drop]
        exact List.take_left' (by rw [length_table, mul_comm])
      simp only [rd, read]
      rw [if_neg (by rw [length_table, mul_comm]; exact not_not.mpr rfl)]
      have smallFront : Small (list.take recordsSize) := fun interval member => small interval (List.mem_of_mem_take member)
      have smallBack : Small (list.drop recordsSize) := fun interval member => small interval (List.mem_of_mem_drop member)
      obtain ⟨middle, added, coversMiddle⟩ := @addRecords_table (list.take recordsSize) tree [] smallFront
      rw [List.nil_append, List.length_nil, Nat.zero_add] at added
      rw [added, Option.bind_eq_bind, Option.bind_some]
      by_cases last : list.length ≤ recordsSize
      · have whole : list.take recordsSize = list := List.take_of_length_le last
        rw [whole] at coversMiddle
        rw [loadFrom, if_neg (by omega)]
        exact ⟨middle, rfl, coversMiddle⟩
      · have front : (list.take recordsSize).length = recordsSize := by
          rw [List.length_take]
          omega
        have back : (list.drop recordsSize).length = list.length - recordsSize := List.length_drop
        have shorter : (list.drop recordsSize).length < list.length := by
          rw [back, recordsSize]
          omega
        obtain ⟨after, loads, covers⟩ := @ih _ shorter (list.drop recordsSize) middle (done ++ list.take recordsSize) smallBack rfl
        rw [List.append_assoc, List.take_append_drop, List.length_append, front, back, Nat.add_assoc,
          Nat.add_sub_cancel' (Nat.le_of_not_le last)] at loads
        refine ⟨after, loads, fun x => ?_⟩
        rw [covers, coversMiddle, or_assoc, ← Intervals.covers_append, List.take_append_drop]
    next none =>
      have empty : list = [] := List.eq_nil_of_length_eq_zero (by omega)
      subst empty
      exact ⟨tree, rfl, fun x => by simp⟩

theorem loadIntervalTree_table (small : Small list) :
    ∃ loaded, loadIntervalTree (table list) (table list).length .empty = some loaded ∧ ∀ x, x ∈ loaded ↔ Intervals.Covers list x := by
  obtain ⟨loaded, loads, covers⟩ := @loadFrom_table list .empty [] small
  rw [List.nil_append, List.length_nil, Nat.zero_add] at loads
  refine ⟨loaded, ?_, fun x => ?_⟩
  · rw [loadIntervalTree, indexHeaderSize, if_neg (Nat.not_lt_zero _), Nat.sub_zero, length_table, Nat.mul_div_cancel_left _ (by decide)]
    exact loads
  · rw [covers, or_iff_right Intervals.not_mem_empty]

end

/-! The whole way. -/

/-- The log of an open file before its table of intervals is written. -/
structure Logged (writer : Writer) : Prop where
  sector : sectorSize ≤ writer.log.length
  records : DataRecords (writer.log.drop sectorSize)
  hashed : writer.hashed = writer.log.drop sectorSize
  offset : writer.logoffset = writer.log.length
  narrow : writer.logoffset < 2 ^ 32

section
variable {machine : Machine} {junk : ℕ → UInt8} {padding : List UInt8} {filesize position : ℕ} {checkhash : Bool} {writer : Writer}
  {tree : Intervals} {index log : File}

theorem Logged.appends (logged : Logged writer) : Appends writer := by
  refine ⟨logged.offset, ?_⟩
  rw [logged.hashed, List.length_drop, Nat.sub_add_cancel logged.sector]

theorem roundTrip_wraps (logged : Logged writer) (wraps : ¬ Fits writer.logoffset tree.list.length) :
    roundTrip machine junk padding filesize position checkhash writer tree index = none := by
  rw [roundTrip]
  cases wrote : writeIntervalTreeToLog machine junk writer tree with
  | none => rfl
  | some after =>
    have wrapsAll : ¬ Fits writer.logoffset (([] : List (List UInt8)).length + tree.list.length) := by rwa [List.length_nil, Nat.zero_add]
    have shorter := writeFrom_wraps logged.appends logged.narrow gathered_nil wrapsAll wrote
    rw [Option.bind_eq_bind, Option.bind_some, finalize, if_pos shorter.ne]
    rfl

theorem emit_code {target : Target} {op : FileOp} {next : Run} : (Run.emit target op next).code = next.code := rfl

theorem applyAll_cons {op : FileOp} {ops : List FileOp} {file : File} : FileOp.applyAll (op :: ops) file = FileOp.applyAll ops (op.apply file) := rfl

theorem resize_zero : File.resize indexHeaderSize index = [] := by simp [File.resize]

/-- The replay of a finalised log with a table at its end. -/
theorem processLog_table {data : List UInt8} {list : List (ℕ × ℕ)} (accepted : accept machine log checkhash = some filesize)
    (records : DataRecords data) (small : Small list) (held : log.drop sectorSize = data ++ headers junk list)
    (room : indexRecordSize * list.length ≤ machine.maxBytes) (fits : filesize ≤ machine.maxBytes) :
    (processLog machine log ⟨position, true⟩ checkhash).code = .done ∧
      FileOp.applyAll (opsOf .index (processLog machine log ⟨position, true⟩ checkhash).ops) index = table list := by
  have found : ∀ position, seek machine filesize position = some filesize := fun position => if_pos fits
  rw [processLog, accepted]
  simp only [found, if_true]
  have rest : log.drop (sectorSize + data.length) = headers junk list := by
    rw [← List.drop_drop, held, List.drop_left]
  obtain ⟨ops, code⟩ := @records_data machine log ⟨filesize, true⟩ filesize sectorSize data (headers junk list) records held fits
  obtain ⟨done, written⟩ := @records_headers machine junk log ⟨filesize, true⟩ filesize (sectorSize + data.length) 0 filesize [] list small rest rfl
    (found filesize) (by decide) (by simpa using room)
  refine ⟨?_, ?_⟩
  · rw [emit_code, emit_code, code, done]
  · rw [Run.emit, opsOf_other (by decide), Run.emit, opsOf_own, ops, applyAll_cons, FileOp.apply, resize_zero, written _ rfl, List.flatMap_nil,
      List.nil_append, List.nil_append]

theorem roundTrip_fits (crcWidth : ∀ bytes, machine.crc32c bytes < 2 ^ 32) (hashWidth : ∀ bytes, (machine.fastHash256 bytes).length = 32)
    (padded : padding.length = 4) (logged : Logged writer) (below : ∀ interval ∈ tree.list, interval.2 < 2 ^ 48)
    (room : writer.log.length + headerSize * tree.list.length ≤ machine.maxBytes) (size : filesize ≤ machine.maxBytes)
    (wide : machine.maxBytes < 2 ^ 64) (fits : Fits writer.logoffset tree.list.length) :
    ∃ loaded, roundTrip machine junk padding filesize position checkhash writer tree index = some loaded ∧ ∀ x, x ∈ loaded ↔ x ∈ tree := by
  have small : Small tree.list := fun interval member => ⟨Intervals.nonempty_of_mem tree.ordered member, below interval member⟩
  have sector := logged.sector
  obtain ⟨after, wrote, log, hashed⟩ := @writeFrom_fits machine junk writer [] tree.list logged.appends gathered_nil small
    (by rwa [List.length_nil, Nat.zero_add]) (by rw [List.length_nil, Nat.zero_add, logged.offset]; exact room)
  rw [List.flatten_nil, List.nil_append] at log hashed
  have isHashed : after.hashed = after.log.drop sectorSize := by
    rw [hashed, log, logged.hashed, List.drop_append_of_le_length sector]
  have length : after.log.length = writer.log.length + headerSize * tree.list.length := by
    rw [log, List.length_append, length_headers]
  have whole : after.log.length = after.hashed.length + sectorSize := by
    rw [isHashed, List.length_drop]
    omega
  obtain ⟨finalised, isSize⟩ := Log.finalised_markLogFinalized machine after.log padding filesize checkhash crcWidth hashWidth (by omega)
    (by omega) (by omega) padded
  have held : (markLogFinalized machine after.log (after.log.drop sectorSize) padding filesize).drop sectorSize =
      writer.log.drop sectorSize ++ headers junk tree.list := by
    rw [Log.drop_markLogFinalized machine after.log _ filesize hashWidth padded, log, List.drop_append_of_le_length sector]
  obtain ⟨code, written⟩ := @processLog_table machine junk filesize position checkhash index _ _ _
    (Log.accept_iff.mpr ⟨finalised, isSize.symm⟩) logged.records small held (by simp only [headerSize, indexRecordSize] at *; omega) size
  obtain ⟨loaded, loads, covers⟩ := loadIntervalTree_table small
  refine ⟨loaded, ?_, covers⟩
  rw [roundTrip, writeIntervalTreeToLog, wrote]
  simp only [Option.bind_eq_bind, Option.bind_some]
  rw [finalize, if_neg (not_not.mpr whole), isHashed]
  simp only [Option.bind_some]
  rw [if_pos code, written]
  exact loads

end

/-- The table of intervals comes back exactly if `logoffset` does not wrap around before the last write of the table. -/
theorem roundTrip_iff (machine : Machine) (junk : ℕ → UInt8) (padding : List UInt8) (filesize position : ℕ) (checkhash : Bool) (writer : Writer)
    (tree : Intervals) (index : File) (crcWidth : ∀ bytes, machine.crc32c bytes < 2 ^ 32)
    (hashWidth : ∀ bytes, (machine.fastHash256 bytes).length = 32) (padded : padding.length = 4) (logged : Logged writer)
    (below : ∀ interval ∈ tree.list, interval.2 < 2 ^ 48) (room : writer.log.length + headerSize * tree.list.length ≤ machine.maxBytes)
    (size : filesize ≤ machine.maxBytes) (wide : machine.maxBytes < 2 ^ 64) :
    (∃ loaded, roundTrip machine junk padding filesize position checkhash writer tree index = some loaded ∧ ∀ x, x ∈ loaded ↔ x ∈ tree) ↔
      Fits writer.logoffset tree.list.length := by
  constructor
  · rintro ⟨loaded, returns, _⟩
    by_contra wraps
    rw [roundTrip_wraps logged wraps] at returns
    cases returns
  · exact roundTrip_fits crcWidth hashWidth padded logged below room size wide

/-- Every other sector. -/
def stripes : ℕ → ℕ → List (ℕ × ℕ)
  | 0, _ => []
  | count + 1, start => (start, start + sectorSize) :: stripes count (start + 2 * sectorSize)

theorem stripes_ordered (count start : ℕ) : Ordered start (stripes count start) := by
  induction count generalizing start with
  | zero => trivial
  | succ count ih =>
    refine ⟨le_rfl, Nat.lt_add_of_pos_right (by decide), ?_⟩
    exact Intervals.ordered_mono (ih _) (by simp only [sectorSize]; omega)

theorem length_stripes (count start : ℕ) : (stripes count start).length = count := by
  induction count generalizing start with
  | zero => rfl
  | succ count ih => rw [stripes, List.length_cons, ih]

theorem stripes_below (count start : ℕ) : ∀ interval ∈ stripes count start, interval.2 < start + 2 * sectorSize * count := by
  induction count generalizing start with
  | zero => simp [stripes]
  | succ count ih =>
    intro interval member
    obtain rfl | member := List.mem_cons.mp member
    · simp only [sectorSize]
      omega
    · have later := ih _ interval member
      simp only [sectorSize] at *
      omega

def stripedTree (count : ℕ) : Intervals := ⟨stripes count 0, Intervals.ordered_mono (stripes_ordered count 0) (Nat.zero_le _)⟩

theorem length_stripedTree (count : ℕ) : (stripedTree count).list.length = count := length_stripes count 0

def sampleMachine : Machine := ⟨fun _ => 0, fun _ => List.replicate 32 0, 2 ^ 63 - 1⟩

/-- The log after `pfscrypto_init_log`. -/
def emptyLog : Writer := ⟨List.replicate sectorSize 0xff, sectorSize, []⟩

theorem logged_emptyLog : Logged emptyLog := by
  have length : emptyLog.log.length = sectorSize := List.length_replicate
  have rest : emptyLog.log.drop sectorSize = [] := List.drop_eq_nil_of_le length.le
  exact ⟨length.ge, rest ▸ .nil, rest.symm, length.symm, by simp only [emptyLog, sectorSize]; norm_num⟩

theorem roundTrip_iff_stripes : (∃ loaded, roundTrip sampleMachine (fun _ => 0) [0, 0, 0, 0] 0 0 true emptyLog (stripedTree 300) [7, 7, 7] = some loaded ∧
    ∀ x, x ∈ loaded ↔ x ∈ stripedTree 300) ↔ Fits emptyLog.logoffset (stripedTree 300).list.length := by
  have length := length_stripedTree 300
  have start : emptyLog.log.length = sectorSize := List.length_replicate
  refine roundTrip_iff _ _ _ _ _ _ _ _ _ (fun _ => Nat.two_pow_pos 32) (fun _ => List.length_replicate) rfl logged_emptyLog (fun interval member => ?_)
    ?_ (Nat.zero_le _) ?_
  · have below := stripes_below 300 0 interval member
    simp only [sectorSize] at below
    omega
  · rw [length, start]
    simp only [sectorSize, headerSize, sampleMachine]
    norm_num
  · simp only [sampleMachine]
    norm_num

theorem stripes_lost {count : ℕ} (wraps : ¬ Fits sectorSize count) (index : File) :
    ¬ ∃ loaded, roundTrip sampleMachine (fun _ => 0) [0, 0, 0, 0] 0 0 true emptyLog (stripedTree count) index = some loaded ∧
      ∀ x, x ∈ loaded ↔ x ∈ stripedTree count := by
  have wrapsAll : ¬ Fits emptyLog.logoffset (stripedTree count).list.length := by
    rw [length_stripedTree]
    exact wraps
  rw [roundTrip_wraps logged_emptyLog wrapsAll]
  rintro ⟨loaded, returns, _⟩
  cases returns

/-- With one interval more than there is room for before 4 GiB the table is lost. -/
theorem roundTrip_loses : ¬ ∃ loaded, roundTrip sampleMachine (fun _ => 0) [0, 0, 0, 0] 0 0 true emptyLog (stripedTree 268435201) [] = some loaded ∧
    ∀ x, x ∈ loaded ↔ x ∈ stripedTree 268435201 := by
  apply stripes_lost
  simp only [Fits, logsSize, headerSize, sectorSize]
  norm_num

end Pclsync.Proofs.LogIntervals
