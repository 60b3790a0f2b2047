import Mathlib
import Pclsync.Library.LittleEndian

/-! The two readers of block checksums: a header, then an entry for each block.
What arrives is one string of bytes, which may end anywhere. -/

namespace Pclsync.Net.BlockHeader
open Library

/-- `sizeof(psync_block_checksum_header)` -/
abbrev headerSize : ℕ := 24

/-- `sizeof(psync_block_checksum)` -/
abbrev checksumSize : ℕ := 24

/-- `PSYNC_MAX_CHECKSUMS_SIZE` -/
abbrev maxChecksumsSize : ℕ := 64 * 1024 * 1024

/-- `psync_file_checksums`; `blocks` is what was read into its entries. -/
structure FileChecksums where
  filesize : ℕ
  blocksize : ℕ
  blockcnt : ℕ
  blocks : List UInt8
deriving DecidableEq, Repr

/-- `PSYNC_NET_TEMPFAIL`, `PSYNC_NET_PERMFAIL` or `PSYNC_NET_OK` with `*checksums`. -/
inductive Result where
  | tempfail
  | permfail
  | ok (checksums : Option FileChecksums)
deriving DecidableEq, Repr

/-- A call: the number of blocks that it computed and the size that it allocated,
as far as it came. -/
structure Call where
  count : Option ℕ
  allocated : Option ℕ
  result : Result
deriving DecidableEq, Repr

/-- `hdr.filesize` -/
def filesize (stream : List UInt8) : ℕ := leNumber (stream.take 8)

/-- `hdr.blocksize` -/
def blocksize (stream : List UInt8) : ℕ := leNumber ((stream.drop 8).take 4)

/-- `(hdr.filesize + hdr.blocksize - 1) / hdr.blocksize`, in 64 bits; `none` is a division by zero. -/
def blockCount (filesize blocksize : ℕ) : Option ℕ :=
  if blocksize = 0 then none else some ((filesize + blocksize + 2 ^ 64 - 1) % 2 ^ 64 / blocksize)

/-- `(sizeof(psync_block_checksum) + sizeof(uint32_t)) * i`, a `size_t`. -/
def entriesSize (i : ℕ) : ℕ := 28 * i % 2 ^ 64

/-- `offsetof(psync_file_checksums, blocks)` and the entries. -/
def allocSize (i : ℕ) : ℕ := (24 + entriesSize i) % 2 ^ 64

/-- A count of bytes as the `int` that the reading functions take. -/
def toInt (num : ℕ) : ℤ := (num : ℤ).bmod (2 ^ 32)

/-- The entries are read and must be complete. -/
def readBlocks (stream : List UInt8) (i : ℕ) : Result :=
  let num := checksumSize * i % 2 ^ 64
  let blocks := (stream.drop headerSize).take (toInt num).toNat
  if blocks.length ≠ num then .tempfail
  else .ok (some ⟨filesize stream, blocksize stream, i % 2 ^ 32, blocks⟩)

/-- `psync_net_get_checksums`, from the header on. -/
def getChecksums (stream : List UInt8) : Option Call :=
  if stream.length < headerSize then some ⟨none, none, .tempfail⟩
  else do
    let i ← blockCount (filesize stream) (blocksize stream)
    if maxChecksumsSize ≤ entriesSize i then return ⟨some i, none, .ok none⟩
    else return ⟨some i, some (allocSize i), readBlocks stream i⟩

/-- `psync_net_get_upload_checksums`, from the header on; here `i` is a `uint32_t`. -/
def getUploadChecksums (stream : List UInt8) : Option Call :=
  if stream.length < headerSize then some ⟨none, none, .tempfail⟩
  else do
    let count ← blockCount (filesize stream) (blocksize stream)
    let i := count % 2 ^ 32
    if maxChecksumsSize ≤ entriesSize i then return ⟨some i, none, .tempfail⟩
    else if filesize stream = 0 then return ⟨some i, none, .permfail⟩
    else return ⟨some i, some (allocSize i), readBlocks stream i⟩

end Pclsync.Net.BlockHeader
