import Pclsync.Crypto.Layout
import Pclsync.Library.LittleEndian
import Pclsync.Library.Redo

/-! Replay of a redo log into the data file and the index file of an open file.
The first sector of the log holds its master record, the rest are headers, each
with a piece of data or an interval. Checksums are functions of the bytes they
were fed; `maxBytes` is the largest size that the file system gives a file. -/

namespace Pclsync.Crypto.Log
open Library

/-- The files a log is replayed into. -/
inductive Target where
  | data
  | index
deriving DecidableEq, Repr

/-- The machine below the replay. -/
structure Machine where
  crc32c : List UInt8 → ℕ
  fastHash256 : List UInt8 → List UInt8
  maxBytes : ℕ

/-- `PSYNC_CRYPTO_LOG_DATA` -/
abbrev logData : ℕ := 1
/-- `PSYNC_CRYPTO_LOG_INT` -/
abbrev logInt : ℕ := 2
/-- `PSYNC_LOG_STATUS_FINALIZED` -/
abbrev logStatusFinalized : ℕ := 1
/-- `PSYNC_LOG_HASHID_FH256` -/
abbrev logHashidFh256 : ℕ := 0
/-- `sizeof(psync_crypto_log_header)` -/
abbrev headerSize : ℕ := 16
/-- `sizeof(psync_fs_index_record)` -/
abbrev indexRecordSize : ℕ := 16
/-- `sizeof(psync_fs_index_header)`, a structure without members. -/
abbrev indexHeaderSize : ℕ := 0

/-- Conversion to `uint64_t`. -/
def u64 (n : ℕ) : ℕ := n % 2 ^ 64

/-- `psync_crypto_log_header`. Interval records keep the high part of their
length where data records keep the length. -/
structure Header where
  type : ℕ
  length : ℕ
  longlengthlo : ℕ
  offset : ℕ
deriving DecidableEq, Repr

def Header.ofBytes (bytes : List UInt8) : Header where
  type := leNumber (bytes.take 1)
  length := leNumber ((bytes.drop 2).take 2)
  longlengthlo := leNumber ((bytes.drop 4).take 4)
  offset := leNumber ((bytes.drop 8).take 8)

def Header.longlengthhi (header : Header) : ℕ := header.length

/-- `psync_crypto_master_record` -/
structure MasterRecord where
  status : ℕ
  hashid : ℕ
  logsize : ℕ
  filesize : ℕ
  hash : List UInt8
deriving DecidableEq, Repr

namespace MasterRecord

/-- `sizeof(psync_crypto_master_record)`, four bytes of padding included. -/
abbrev size : ℕ := 64

/-- `offsetof(psync_crypto_master_record, crc)` -/
abbrev crcOffset : ℕ := 56

def ofBytes (bytes : List UInt8) : MasterRecord where
  status := leNumber (bytes.take 4)
  hashid := leNumber ((bytes.drop 4).take 4)
  logsize := leNumber ((bytes.drop 8).take 8)
  filesize := leNumber ((bytes.drop 16).take 8)
  hash := (bytes.drop 24).take 32

/-- The record without its checksum. -/
def toBytes (record : MasterRecord) : List UInt8 :=
  leBytes 4 record.status ++ (leBytes 4 record.hashid ++ (leBytes 8 record.logsize ++
    (leBytes 8 record.filesize ++ record.hash)))

end MasterRecord

theorem pread_shorter {log : File} {off count : ℕ} (some : log.pread off count ≠ []) :
    log.length - (off + (log.pread off count).length) < log.length - off := by
  have read := List.length_pos_of_ne_nil some
  rw [File.length_pread] at read ⊢
  omega

theorem header_shorter {log : File} {off : ℕ} (more : ℕ)
    (whole : ¬(log.pread off headerSize).length ≠ headerSize) :
    log.length - (off + headerSize + more) < log.length - off := by
  rw [File.length_pread, headerSize, not_not] at whole
  rw [headerSize]
  omega

/-- What `psync_fs_crypto_check_log_hash` feeds to the hash from `off` on. -/
def fed (log : File) (off : ℕ) : List UInt8 :=
  let buff := log.pread off sectorSize
  if buff = [] then [] else buff ++ fed log (off + buff.length)
termination_by log.length - off
decreasing_by
  have some : log.pread off sectorSize ≠ [] := by assumption
  exact pread_shorter some

/-- `psync_fs_crypto_check_log_hash` -/
def checkLogHash (machine : Machine) (log : File) (record : MasterRecord) : Bool :=
  record.hashid = logHashidFh256 ∧ machine.fastHash256 (fed log sectorSize) = record.hash

/-- The checks before a replay, and the size that the data file gets. -/
def accept (machine : Machine) (log : File) (checkhash : Bool) : Option ℕ :=
  let buff := log.pread 0 MasterRecord.size
  if buff.length ≠ MasterRecord.size then none
  else
    let record := MasterRecord.ofBytes buff
    if record.status ≠ logStatusFinalized then none
    else if record.logsize ≠ log.length then none
    else if leNumber ((buff.drop MasterRecord.crcOffset).take 4) ≠
        machine.crc32c (buff.take MasterRecord.crcOffset) then none
    else if checkhash ∧ ¬checkLogHash machine log record then none
    else some record.filesize

/-- How a replay ends. A failed assertion aborts the process. -/
inductive Code where
  | done
  | failed
  | aborted
deriving DecidableEq, Repr

/-- The operations of a replay, and how it ends. -/
structure Run where
  ops : List (Target × FileOp)
  code : Code
deriving DecidableEq, Repr

namespace Run

def stop (code : Code) : Run := ⟨[], code⟩

def emit (target : Target) (op : FileOp) (next : Run) : Run := ⟨(target, op) :: next.ops, next.code⟩

/-- `pfile_pwrite` and the check of its result. What does not fit into a file is
not written. -/
def pwrite (machine : Machine) (target : Target) (offset : ℕ) (bytes : List UInt8) (next : Run) : Run :=
  let written := bytes.take (machine.maxBytes - offset)
  emit target (.write offset written) (if written.length ≠ bytes.length then stop .failed else next)

end Run

/-- Where `pfile_seek(fd, size, SEEK_SET)` leaves the position, when the check of
its result passes. The error code -1 equals the largest size. -/
def seek (machine : Machine) (size position : ℕ) : Option ℕ :=
  if size ≤ machine.maxBytes then some size else if size = 2 ^ 64 - 1 then some position else none

/-- `psync_fs_index_record` -/
structure IndexRecord where
  offset : ℕ
  length : ℕ
deriving DecidableEq, Repr

def IndexRecord.toBytes (record : IndexRecord) : List UInt8 := leBytes 8 record.offset ++ leBytes 8 record.length

/-- The open handles of the two files. -/
structure Handles where
  position : ℕ
  index : Bool
deriving DecidableEq, Repr

/-- Write the gathered records to the index file. -/
def flush (machine : Machine) (ioff : ℕ) (records : List IndexRecord) (next : Run) : Run :=
  Run.pwrite machine .index (indexRecordSize * ioff + indexHeaderSize) (records.flatMap (·.toBytes)) next

/-- The second `pfile_seek` and `pfile_truncate` of the data file. -/
def settle (machine : Machine) (size position : ℕ) : Run :=
  match seek machine size position with
  | none => Run.stop .failed
  | some len => Run.emit .data (.resize len) (Run.stop .done)

/-- After the last record. -/
def finish (machine : Machine) (size position ioff : ℕ) (records : List IndexRecord) : Run :=
  let rest := settle machine size position
  if records = [] then rest else flush machine ioff records rest

/-- The loop over the headers from `off` on, with `ioff` records in the index file
and those gathered in the buffer. -/
def records (machine : Machine) (log : File) (size : ℕ) (handles : Handles) (off ioff : ℕ)
    (gathered : List IndexRecord) : Run :=
  let head := log.pread off headerSize
  if head = [] then finish machine size handles.position ioff gathered
  else if head.length ≠ headerSize then Run.stop .failed
  else
    let header := Header.ofBytes head
    let start := off + headerSize
    if header.type = logData then
      if header.length > sectorSize ∨ gathered ≠ [] then Run.stop .aborted
      else if u64 (header.offset + header.length) > size then
        records machine log size handles (start + header.length) ioff gathered
      else
        let buff := log.pread start header.length
        if buff.length ≠ header.length then Run.stop .failed
        else Run.pwrite machine .data header.offset buff
          (records machine log size handles (start + header.length) ioff gathered)
    else if header.type = logInt then
      if ¬handles.index then Run.stop .aborted
      else
        let gathered := gathered ++ [⟨header.offset, header.longlengthlo + header.longlengthhi * 2 ^ 32⟩]
        if gathered.length ≥ sectorSize / indexRecordSize then
          flush machine ioff gathered (records machine log size handles start (ioff + gathered.length) [])
        else records machine log size handles start ioff gathered
    else Run.stop .failed
termination_by log.length - off
decreasing_by
  · exact header_shorter _ ‹_›
  · exact header_shorter _ ‹_›
  · exact header_shorter 0 ‹_›
  · exact header_shorter 0 ‹_›

/-- `psync_fs_crypto_process_log` -/
def processLog (machine : Machine) (log : File) (handles : Handles) (checkhash : Bool) : Run :=
  match accept machine log checkhash with
  | none => Run.stop .failed
  | some size =>
    match seek machine size handles.position with
    | none => Run.stop .failed
    | some len =>
      let rest := records machine log size { handles with position := len } sectorSize 0 []
      Run.emit .data (.resize len)
        (if handles.index then Run.emit .index (.resize indexHeaderSize) rest else rest)

/-- `psync_fs_crypto_mark_log_finalized`. The hash context has been fed the bytes
`hashed`; the padding of the record is not initialised. -/
def markLogFinalized (machine : Machine) (log : File) (hashed padding : List UInt8) (filesize : ℕ) : File :=
  let record : MasterRecord :=
    ⟨logStatusFinalized, logHashidFh256, log.length, filesize, machine.fastHash256 hashed⟩
  log.pwrite 0 (record.toBytes ++ (leBytes 4 (machine.crc32c record.toBytes) ++ padding))

end Pclsync.Crypto.Log
