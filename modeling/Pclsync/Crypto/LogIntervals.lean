import Pclsync.Crypto.Log
import Pclsync.Library.Intervals

/-! The intervals of a changed file on their way through the log: to the log, by the replay to the index file, and
from there back into a tree. A failed assertion ends a function like a failed write. -/

namespace Pclsync.Crypto.LogIntervals
open Library Log

/-- What an open file has of its log: the file, `logoffset`, a `uint32_t`, and what `loghashctx` was fed. -/
structure Writer where
  log : File
  logoffset : ℕ
  hashed : List UInt8

/-- `ARRAY_SIZE(logs)` -/
abbrev logsSize : ℕ := 4096 / headerSize

/-- The header of an interval. The second byte is what the memory had there. -/
def headerBytes (junk : UInt8) (interval : ℕ × ℕ) : List UInt8 :=
  let len := interval.2 - interval.1
  leBytes 1 logInt ++ (junk :: (leBytes 2 (len / 2 ^ 32) ++ (leBytes 4 (len % 2 ^ 32) ++ leBytes 8 interval.1)))

/-- The write of the gathered headers. What does not fit into a file is not written. -/
def writeLogs (machine : Machine) (writer : Writer) (logs : List (List UInt8)) : Option Writer :=
  let bytes := logs.flatten
  if (bytes.take (machine.maxBytes - writer.logoffset)).length ≠ bytes.length then none
  else some ⟨writer.log.pwrite writer.logoffset bytes, u32 (writer.logoffset + bytes.length), writer.hashed ++ bytes⟩

/-- Full `logs` are written before there is one more. -/
def makeRoom (machine : Machine) (writer : Writer) (logs : List (List UInt8)) : Option (Writer × List (List UInt8)) :=
  if logs.length = logsSize then (writeLogs machine writer logs).map fun writer => (writer, []) else some (writer, logs)

/-- The loop of `psync_fs_write_interval_tree_to_log`, with the headers that were gathered. -/
def writeFrom (machine : Machine) (junk : ℕ → UInt8) : Writer → List (List UInt8) → List (ℕ × ℕ) → Option Writer
  | writer, logs, [] => if logs = [] then some writer else writeLogs machine writer logs
  | writer, logs, itr :: rest => do
    let (writer, logs) ← makeRoom machine writer logs
    if (itr.2 - itr.1) / 2 ^ 48 ≠ 0 then none
    else writeFrom machine junk writer (logs ++ [headerBytes (junk itr.1) itr]) rest

/-- `psync_fs_write_interval_tree_to_log` -/
def writeIntervalTreeToLog (machine : Machine) (junk : ℕ → UInt8) (writer : Writer) (tree : Intervals) : Option Writer :=
  writeFrom machine junk writer [] tree.list

/-- `psync_fs_crypto_mark_log_finalized` with its assertion. -/
def finalize (machine : Machine) (padding : List UInt8) (filesize : ℕ) (writer : Writer) : Option File :=
  if writer.log.length ≠ writer.hashed.length + sectorSize then none
  else some (markLogFinalized machine writer.log writer.hashed padding filesize)

/-- `ARRAY_SIZE(records)` of the loader -/
abbrev recordsSize : ℕ := 512

def recordOfBytes (bytes : List UInt8) : IndexRecord := ⟨leNumber (bytes.take 8), leNumber ((bytes.drop 8).take 8)⟩

/-- The records that were read are added, unless `psync_interval_tree_add` fails its assertion. -/
def addRecords (buff : List UInt8) (rd j : ℕ) (tree : Intervals) : Option Intervals :=
  if j < rd then
    let record := recordOfBytes ((buff.drop (j * indexRecordSize)).take indexRecordSize)
    if nonempty : record.offset < u64 (record.offset + record.length) then
      addRecords buff rd (j + 1) (tree.add record.offset (u64 (record.offset + record.length)) nonempty)
    else none
  else some tree
termination_by rd - j

/-- The loop of `psync_fs_load_interval_tree`. -/
def loadFrom (fd : File) (cnt i : ℕ) (tree : Intervals) : Option Intervals :=
  if i < cnt then
    let rd := min (cnt - i) recordsSize
    let buff := fd.pread (i * indexRecordSize + indexHeaderSize) (rd * indexRecordSize)
    if buff.length ≠ rd * indexRecordSize then none
    else do loadFrom fd cnt (i + recordsSize) (← addRecords buff rd 0 tree)
  else some tree
termination_by cnt - i
decreasing_by
  simp only [recordsSize]
  omega

/-- `psync_fs_load_interval_tree` -/
def loadIntervalTree (fd : File) (size : ℕ) (tree : Intervals) : Option Intervals :=
  if size < indexHeaderSize then some tree else loadFrom fd ((size - indexHeaderSize) / indexRecordSize) 0 tree

/-- The table is written at the end of the log, the log is finalised and replayed, and the index file is loaded. -/
def roundTrip (machine : Machine) (junk : ℕ → UInt8) (padding : List UInt8) (filesize position : ℕ) (checkhash : Bool) (writer : Writer)
    (tree : Intervals) (index : File) : Option Intervals := do
  let writer ← writeIntervalTreeToLog machine junk writer tree
  let log ← finalize machine padding filesize writer
  let run := processLog machine log ⟨position, true⟩ checkhash
  if run.code = .done then
    let index := FileOp.applyAll (opsOf .index run.ops) index
    loadIntervalTree index index.length .empty
  else none

end Pclsync.Crypto.LogIntervals
