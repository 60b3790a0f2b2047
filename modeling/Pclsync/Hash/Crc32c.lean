import Pclsync.Library.Crc

/-! The checksum of a buffer, by tables or by the instruction of the processor. The fast path goes over three blocks
at once, and puts their remainders together by another table. -/

namespace Pclsync.Hash
open Library Library.Crc

abbrev Bytes := List UInt8

/-- The polynomial of CRC-32C, its lowest bit first. -/
def poly : BitVec 32 := 0x82f63b78#32

/-- The checksum byte by byte. -/
def crc32c (crc : BitVec 32) (data : Bytes) : BitVec 32 := feed poly crc data

/-- `CRC32_PARALLEL_CHUNK` -/
abbrev parallelChunk : ℕ := 1360

/-- `crc32c_table` and `crc32c_shift_chunk_table1360`: the remainders of the bytes with zeros behind them. -/
structure Tables where
  table : Fin 8 → BitVec 8 → BitVec 32
  chunk : Fin 4 → BitVec 8 → BitVec 32
  table_eq : ∀ place byte, table place byte = shifts poly (8 * (place + 1)) (byte.setWidth 32)
  chunk_eq : ∀ place byte, chunk place byte = shifts poly (8 * parallelChunk) (byte.setWidth 32 <<< (8 * place.val))

/-- The tables as they are computed. -/
def Tables.computed : Tables where
  table place byte := shifts poly (8 * (place + 1)) (byte.setWidth 32)
  chunk place byte := shifts poly (8 * parallelChunk) (byte.setWidth 32 <<< (8 * place.val))
  table_eq _ _ := rfl
  chunk_eq _ _ := rfl

/-- The first two rows of the table, from which a hash takes its padding. -/
def Tables.row0 (tables : Tables) : BitVec 8 → BitVec 32 := tables.table 0
def Tables.row1 (tables : Tables) : BitVec 8 → BitVec 32 := tables.table 1

/-- A byte of a number. -/
def byteAt {width : ℕ} (value : BitVec width) (place : ℕ) : BitVec 8 := (value >>> (8 * place)).setWidth 8

section Software

variable (tables : Tables)

/-- `CRC32C_64BIT_UINT` -/
def crc64BitUint (crc : BitVec 32) (uint : BitVec 64) : BitVec 32 :=
  let crc := crc ^^^ uint.setWidth 32
  tables.table 7 (byteAt crc 0) ^^^ tables.table 6 (byteAt crc 1) ^^^ tables.table 5 (byteAt crc 2) ^^^
    tables.table 4 (byteAt crc 3) ^^^ tables.table 3 (byteAt uint 4) ^^^ tables.table 2 (byteAt uint 5) ^^^
    tables.table 1 (byteAt uint 6) ^^^ tables.table 0 (byteAt uint 7)

/-- The number at the start of a buffer. -/
def load (width : ℕ) (data : Bytes) : BitVec (8 * width) := BitVec.ofNat _ (leNumber (data.take width))

/-- `CRC32C_64BIT`: the first four bytes are read as a number, the others one by one. -/
def crc64Bit (crc : BitVec 32) (data : Bytes) : BitVec 32 :=
  let crc := crc ^^^ load 4 data
  tables.table 7 (byteAt crc 0) ^^^ tables.table 6 (byteAt crc 1) ^^^ tables.table 5 (byteAt crc 2) ^^^
    tables.table 4 (byteAt crc 3) ^^^ tables.table 3 (data.getD 4 0).toBitVec ^^^ tables.table 2 (data.getD 5 0).toBitVec ^^^
    tables.table 1 (data.getD 6 0).toBitVec ^^^ tables.table 0 (data.getD 7 0).toBitVec

/-- `CRC32C_8BIT` -/
def crc8Bit (crc : BitVec 32) (byte : UInt8) : BitVec 32 :=
  tables.table 0 (byteAt (crc ^^^ byte.toBitVec.setWidth 32) 0) ^^^ crc >>> 8

end Software

section Hardware

/-- `CRC32C_8BIT_HW` -/
def crc8BitHw (crc : BitVec 32) (byte : UInt8) : BitVec 32 := feedBits poly 8 byte.toNat crc

/-- `CRC32_WORD_SIZE`, and `CRC32_WORD_HW` of a word at the start of a buffer. -/
inductive WordSize
  | four
  | eight
deriving DecidableEq, Repr

def WordSize.size : WordSize → ℕ
  | .four => 4
  | .eight => 8

/-- `CRC32_WORD_HW` of a number. -/
def crcWordHw {width : ℕ} (crc : BitVec 32) (value : BitVec width) : BitVec 32 := feedBits poly width value.toNat crc

/-- `crc32c_shift_chunk` -/
def crc32cShiftChunk (tables : Tables) (crc : BitVec 32) : BitVec 32 :=
  tables.chunk 0 (byteAt crc 0) ^^^ tables.chunk 1 (byteAt crc 1) ^^^ tables.chunk 2 (byteAt crc 2) ^^^
    tables.chunk 3 ((crc >>> 24).setWidth 8)

end Hardware

section Loops

/-- The loop to an address that is a multiple of `align`, with the step for a byte. -/
def prologue (step : BitVec 32 → UInt8 → BitVec 32) (align : ℕ) : (addr : ℕ) → BitVec 32 → Bytes → BitVec 32 × Bytes
  | _, crc, [] => (crc, [])
  | addr, crc, byte :: rest => if addr % align ≠ 0 then prologue step align (addr + 1) (step crc byte) rest else (crc, byte :: rest)

/-- A loop that takes words of some bytes while there are any, with the step for a word. -/
def words (step : BitVec 32 → Bytes → BitVec 32) (size : ℕ) (crc : BitVec 32) (data : Bytes) : BitVec 32 × Bytes :=
  if 0 < size ∧ size ≤ data.length then words step size (step crc data) (data.drop size) else (crc, data)
termination_by data.length
decreasing_by
  rw [List.length_drop]
  omega

/-- The step for some words in turn. -/
def unrolled (step : BitVec 32 → Bytes → BitVec 32) (size : ℕ) : (count : ℕ) → BitVec 32 → Bytes → BitVec 32
  | 0, crc, _ => crc
  | count + 1, crc, data => unrolled step size count (step crc data) (data.drop size)

/-- `psync_crc32c_sw` -/
def crc32cSw (tables : Tables) (addr : ℕ) (crc : BitVec 32) (data : Bytes) : BitVec 32 :=
  let (crc, data) := prologue (crc8Bit tables) 4 addr crc data
  let (crc, data) := words (unrolled (crc64Bit tables) 8 8) 64 crc data
  let (crc, data) := words (crc64Bit tables) 8 crc data
  data.foldl (crc8Bit tables) crc

/-- The loop over the words of three blocks. -/
def streams (step : BitVec 32 → Bytes → BitVec 32) (size : ℕ) : (count : ℕ) → BitVec 32 × BitVec 32 × BitVec 32 → Bytes →
    (BitVec 32 × BitVec 32 × BitVec 32) × Bytes
  | 0, crcs, data0 => (crcs, data0)
  | count + 1, (crc0, crc1, crc2), data0 =>
    streams step size count
      (step crc0 data0, step crc1 (data0.drop parallelChunk), step crc2 (data0.drop (parallelChunk * 2))) (data0.drop size)

/-- The body of the loop over the blocks. -/
def chunks (tables : Tables) (step : BitVec 32 → Bytes → BitVec 32) (size : ℕ) (crc0 : BitVec 32) (data0 : Bytes) : BitVec 32 :=
  let ((crc0, crc1, crc2), _) := streams step size (parallelChunk / size) (crc0, 0#32, 0#32) data0
  let crc0 := crc32cShiftChunk tables crc0 ^^^ crc1
  crc32cShiftChunk tables crc0 ^^^ crc2

/-- `psync_crc32c_hw` -/
def crc32cHw (tables : Tables) (word : WordSize) (addr : ℕ) (crc0 : BitVec 32) (data0 : Bytes) : BitVec 32 :=
  let step : BitVec 32 → Bytes → BitVec 32 := fun crc data => crcWordHw crc (load word.size data)
  let (crc0, data0) := prologue crc8BitHw word.size addr crc0 data0
  let (crc0, data0) := words (chunks tables step word.size) (parallelChunk * 3) crc0 data0
  let (crc0, data0) := words (unrolled step word.size 4) (word.size * 4) crc0 data0
  let (crc0, data0) := words step word.size crc0 data0
  data0.foldl crc8BitHw crc0

/-- `pcrc32c_compute`, with `crc_hashw` before and after. -/
def pcrc32cCompute (tables : Tables) (word : WordSize) (hasHwCrc : Bool) (crcHashw : ℕ) (addr : ℕ) (crc : BitVec 32) (data : Bytes) :
    BitVec 32 × ℕ :=
  if crcHashw = 2 then (crc32cHw tables word addr crc data, crcHashw)
  else if crcHashw = 1 then (crc32cSw tables addr crc data, crcHashw)
  else
    let crcHashw := hasHwCrc.toNat + 1
    if crcHashw = 2 then (crc32cHw tables word addr crc data, crcHashw) else (crc32cSw tables addr crc data, crcHashw)

end Loops

end Pclsync.Hash
