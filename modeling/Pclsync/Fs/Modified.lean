import Pclsync.Library.File
import Pclsync.Library.Intervals

/-! A modified file that is not encrypted. What was written is in a local file, at its
offsets, and an interval tree says where; the rest is in the remote file that the local one
started from. An index file has the intervals in the order of the writes. -/

namespace Pclsync.Fs.Modified
open Pclsync.Library

/-- What the calls on the local files do: whether the data file is resized, what `pwrite`
returns, and whether the records of the index file are written. -/
structure Io where
  resized : Bool
  gapIndexed : Bool
  written : Option ℕ
  indexed : Bool
deriving DecidableEq, Repr

/-- `EIO` -/
abbrev eio : ℤ := 5

/-- `psync_openfile_t`, with a record of the index file as its offset and length. -/
structure OpenFile where
  initialsize : ℕ
  currentsize : ℕ
  datafile : File
  indexfile : List (ℕ × ℕ)
  indexoff : ℕ
  writeintervals : Intervals

/-- The end of `psync_fs_reopen_file_for_writing`. -/
def OpenFile.init (size : ℕ) : OpenFile where
  initialsize := size
  currentsize := size
  datafile := File.resize size []
  indexfile := []
  indexoff := 0
  writeintervals := .empty

/-- A record that is written at its place, behind a gap of zero bytes if there is one. -/
def putRecord (record : ℕ × ℕ) (place : ℕ) (records : List (ℕ × ℕ)) : List (ℕ × ℕ) :=
  (records ++ List.replicate (place - records.length) (0, 0)).take place ++ [record] ++ records.drop (place + 1)

/-- `psync_fs_modfile_check_size_ok`, which says whether the size is all right. -/
def modfileCheckSizeOk (io : Io) (of : OpenFile) (size : ℕ) : Bool × OpenFile :=
  if grows : of.currentsize < size then
    if ¬ io.resized then (false, of)
    else
      let ioff := of.indexoff
      let of := { of with datafile := of.datafile.resize size, indexoff := of.indexoff + 1 }
      if ¬ io.gapIndexed then (false, of)
      else (true, { of with
        indexfile := putRecord (of.currentsize, size - of.currentsize) ioff of.indexfile
        writeintervals := of.writeintervals.add of.currentsize size grows
        currentsize := size })
  else (true, of)

/-- `psync_fs_write_modified`, unless `psync_interval_tree_add` fails its assertion. -/
def writeModified (io : Io) (of : OpenFile) (buf : List UInt8) (offset : ℕ) : Option (ℤ × OpenFile) :=
  let (ok, of) := modfileCheckSizeOk io of offset
  if ¬ ok then some (-eio, of)
  else
    let ioff := of.indexoff
    let of := { of with indexoff := of.indexoff + 1 }
    match io.written with
    | none => some (-eio, of)
    | some bw =>
      let of := { of with datafile := of.datafile.pwrite offset (buf.take bw) }
      if ¬ io.indexed then some (-eio, of)
      else
        let of := { of with indexfile := putRecord (offset, bw) ioff of.indexfile }
        if nonempty : offset < offset + bw then
          some (bw, { of with
            writeintervals := of.writeintervals.add offset (offset + bw) nonempty
            currentsize := if of.currentsize < offset + buf.length then offset + buf.length else of.currentsize })
        else none

/-- `psync_fs_ftruncate_of_locked` -/
def ftruncateOf (io : Io) (of : OpenFile) (size : ℕ) : ℤ × OpenFile :=
  if of.currentsize = size then (0, of)
  else
    let (ok, of) := modfileCheckSizeOk io of size
    if ¬ ok then (-eio, of)
    else if of.currentsize = size then (0, of)
    else if ¬ io.resized then (-eio, of)
    else (0, { of with datafile := of.datafile.resize size, currentsize := size })

/-- `psync_fs_load_interval_tree`, unless `psync_interval_tree_add` fails its assertion. -/
def loadIntervalTree (records : List (ℕ × ℕ)) : Option Intervals :=
  records.foldlM (fun tree record =>
    if nonempty : record.1 < record.1 + record.2 then some (tree.add record.1 (record.1 + record.2) nonempty) else none) .empty

/-- `open_write_files` for a file that was closed. -/
def reopen (of : OpenFile) : Option OpenFile :=
  (loadIntervalTree of.indexfile).map fun tree =>
    { of with currentsize := of.datafile.length, writeintervals := tree, indexoff := of.indexfile.length }

/-- The loop of `ppagecache_read_mod_locked` over the intervals, with what the buffer has
and how much of it was read. -/
def readIntervals (datafile : File) (size offset : ℕ) : List (ℕ × ℕ) → List UInt8 × ℕ → List UInt8 × ℕ
  | [], read => read
  | (lo, hi) :: rest, (buf, rd) =>
    if lo < offset + size then
      let isize := if lo < offset then hi - lo - (offset - lo) else hi - lo
      let ioffset := if lo < offset then offset else lo
      let isize := if offset + size < ioffset + isize then offset + size - ioffset else isize
      let bytes := datafile.pread ioffset isize
      let buf := File.pwrite (ioffset - offset) bytes buf
      let rd := if rd ≠ size ∧ rd < bytes.length + ioffset - offset then bytes.length + ioffset - offset else rd
      readIntervals datafile size offset rest (buf, rd)
    else (buf, rd)

/-- `ppagecache_read_mod_locked`, with the bytes that it returns. The remote file is `base`
and `ppagecache_read_unmod_locked` reads from it up to its end. -/
def readModified (base : File) (of : OpenFile) (buf : List UInt8) (offset : ℕ) : List UInt8 :=
  let size := buf.length
  let tail := Intervals.firstFrom offset of.writeintervals.list
  if tail.head?.any fun interval => interval.1 ≤ offset ∧ offset + size ≤ interval.2 then of.datafile.pread offset size
  else
    let remote := base.pread offset size
    if tail.head?.all fun interval => offset + size ≤ interval.1 then remote
    else
      let (buf, rd) := readIntervals of.datafile size offset tail (remote ++ buf.drop remote.length, remote.length)
      buf.take rd

inductive Action where
  | write (io : Io) (buf : List UInt8) (offset : ℕ)
  | truncate (io : Io) (size : ℕ)
  | reopen
deriving DecidableEq, Repr

def perform (of : OpenFile) : Action → Option OpenFile
  | .write io buf offset => (writeModified io of buf offset).map Prod.snd
  | .truncate io size => some (ftruncateOf io of size).2
  | .reopen => Modified.reopen of

def performAll (of : OpenFile) (actions : List Action) : Option OpenFile := actions.foldlM perform of

/-- What the file is for: an array of bytes. `held` are the offsets that were written or
filled with zero bytes since the file was opened, as long as they were not cut off, and
`longest` is how long the array has been. -/
structure Flat where
  bytes : File
  held : Set ℕ
  longest : ℕ

def Flat.init (base : File) : Flat := ⟨base, ∅, base.length⟩

/-- Other bytes, and what is held of them. -/
def Flat.become (flat : Flat) (bytes : File) (held : Set ℕ) : Flat := ⟨bytes, held, max flat.longest bytes.length⟩

/-- The part of an action that succeeds, on an array. -/
def Flat.apply (flat : Flat) : Action → Flat
  | .write io buf offset =>
    if flat.bytes.length < offset ∧ ¬ io.resized then flat
    else match io.written with
      | none => flat
      | some bw => flat.become (flat.bytes.pwrite offset (buf.take bw))
        (flat.held ∪ {x | flat.bytes.length ≤ x ∧ x < offset} ∪ {x | offset ≤ x ∧ x < offset + bw})
  | .truncate io size =>
    if ¬ io.resized then flat
    else flat.become (flat.bytes.resize size) {x | (x ∈ flat.held ∨ flat.bytes.length ≤ x) ∧ x < size}
  | .reopen => flat

end Pclsync.Fs.Modified
