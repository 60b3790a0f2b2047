import Pclsync.Library.Backward

/-! The header that announces all ranges of a request but the first. It is
written backwards into a buffer on the stack; numbers are `uint64_t`. -/

namespace Pclsync.Pages.RangeNext
open Library.Backward

/-- `psync_request_range_t` -/
structure Range where
  offset : ℕ
  length : ℕ
deriving DecidableEq, Repr

abbrev buffSize : ℕ := 2048

/-- `PSYNC_CONSTRUCT_HEADER`, `"X-Range-Next:"` -/
def constructHeader : List UInt8 := [88, 45, 82, 97, 110, 103, 101, 45, 78, 101, 120, 116, 58]

/-- `PSYNC_DWLTAG_HEADER`, `"Cookie: dwltag="` -/
def dwltagHeader : List UInt8 := [67, 111, 111, 107, 105, 101, 58, 32, 100, 119, 108, 116, 97, 103, 61]

/-- `range->offset + range->length - 1` -/
def lastByte (range : Range) : ℕ := (range.offset + range.length + 2 ^ 64 - 1) % 2 ^ 64

/-- `PSYNC_CONSTRUCT_ADD_NUMBER`; `refused` stands for the result `NULL`. -/
def addNumber (x : ℕ) (out : Out) : Except Stop Out :=
  if out.off ≤ 24 then .error .refused else putDigits buffSize x out

/-- The end of the text: the zero byte, the line end and the cookie. -/
def addEnd (dwltag : List UInt8) (buff : ℕ → UInt8) : Except Stop Out := do
  let out ← put buffSize ⟨buff, buffSize - 1⟩ 0
  let out ← put buffSize out 10
  let out ← put buffSize out 13
  if dwltag.length ≤ 40 ∧ 0 < dwltag.length then
    let off := out.off - (dwltag.length - 1)
    let buff ← copy buffSize out.buff off dwltag
    let off := off - dwltagHeader.length
    let buff ← copy buffSize buff off dwltagHeader
    let out ← put buffSize ⟨buff, off - 1⟩ 10
    put buffSize out 13
  else return out

/-- The loop from the last range back to the second one. -/
def addRanges : List Range → Out → Except Stop Out
  | [], out => .ok out
  | range :: before, out =>
    if before.isEmpty then .ok out
    else do
      let out ← addNumber (lastByte range) out
      let out ← put buffSize out 45
      let out ← addNumber range.offset out
      let out ← put buffSize out 32
      let out ← put buffSize out 44
      addRanges before out

/-- `psync_http_construct_range_next_header`, on a buffer with any contents; the
tag is what was found under `dwltag`, or empty. The result is copied up to the
first zero byte. -/
def constructRangeNextHeader (ranges : List Range) (dwltag : List UInt8) (buff : ℕ → UInt8) : Except Stop (List UInt8) := do
  let out ← addEnd dwltag buff
  let out ← addRanges ranges.reverse out
  if out.off < constructHeader.length + 1 then throw .refused
  let start := out.off - (constructHeader.length + 1) + 3
  let buff ← copy buffSize out.buff start constructHeader
  return (suffix buffSize buff start).takeWhile (· ≠ 0)

/-- What a request for one range carries besides the range. -/
inductive Additional where
  | rangeNext (rangeHdr : Except Stop (List UInt8))
  | cookie

/-- The requests that `psync_pagecache_read_unmodified_thread` sends: the first
one announces the others, unless there is no other. -/
def requests (ranges : List Range) (dwltag : List UInt8) (buff : ℕ → UInt8) : List (Range × Additional) :=
  ranges.mapIdx fun index range =>
    (range, if index = 0 ∧ index + 1 ≠ ranges.length then .rangeNext (constructRangeNextHeader ranges dwltag buff) else .cookie)

end Pclsync.Pages.RangeNext
