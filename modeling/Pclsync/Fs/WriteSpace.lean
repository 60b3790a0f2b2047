import Mathlib.Data.Nat.Basic
import Mathlib.Order.Monotone.Defs
import Mathlib.Tactic.Linarith

/-! A write while there is little space. It fails, or pages of the read cache make room for it, or it is slowed down to
a part of the upload speed. Numbers are of 64 bits, and it is noted when one of them does not fit. -/

namespace Pclsync.Fs.WriteSpace

/-- `PSYNC_FS_PAGE_SIZE` -/
abbrev pageSize : ℕ := 4096

/-- `PSYNC_FS_MIN_INITIAL_WRITE_SHAPER` -/
abbrev minInitialWriteShaper : ℕ := 200 * 1024

/-- `PSYNC_FS_MAX_SHAPER_SLEEP_SEC` -/
abbrev maxShaperSleepSec : ℕ := 8

/-- A `uint64_t`. -/
abbrev u64 : ℕ := 2 ^ 64

section Throttle

/-- `writtenthissec` and `thissec`. -/
structure Shared where
  writtenthissec : ℕ
  thissec : ℕ

/-- Bytes that a writer may write in a second, and how many there are in it then. -/
structure Addition where
  second : ℕ
  bytes : ℕ
  writtenthissec : ℕ

/-- How a pass through the loop ends. -/
inductive Pass
  | wait (size : ℕ)
  | finish (addition : Addition)
  | goOn (size : ℕ) (addition : Addition)
  | abort

/-- The part of the loop of `psync_fs_throttle` below the mutex, with what the next one finds. -/
def throttlePass (shared : Shared) (currsec size speed : ℕ) : Shared × Pass :=
  let shared := if currsec ≠ shared.thissec then ⟨0, currsec⟩ else shared
  if shared.writtenthissec < speed then
    if (shared.writtenthissec + size) % u64 > speed then
      ({ shared with writtenthissec := speed },
        .goOn (size - (speed - shared.writtenthissec)) ⟨currsec, speed - shared.writtenthissec, speed⟩)
    else
      let written := (shared.writtenthissec + size) % u64
      ({ shared with writtenthissec := written }, if size ≤ speed then .finish ⟨currsec, size, written⟩ else .abort)
  else (shared, .wait size)

/-- What the passes of a writer find: the numbers that other writers left, and the clock, which is ahead each time as
the writer waited for the next second. -/
structure Views where
  shared : ℕ → Shared
  clock : ℕ → ℕ
  ahead : StrictMono clock

/-- The loop of `psync_fs_throttle`, with what it adds if no assertion fails. -/
def throttleLoop (views : Views) (speed : ℕ) : (left cnt size : ℕ) → Option (List Addition)
  | 0, _, _ => some []
  | left + 1, cnt, size =>
    match (throttlePass (views.shared cnt) (views.clock cnt) size speed).2 with
    | .wait size => throttleLoop views speed left (cnt + 1) size
    | .goOn size addition => (throttleLoop views speed left (cnt + 1) size).map (addition :: ·)
    | .finish addition => some [addition]
    | .abort => none

/-- `psync_fs_throttle` -/
def psyncFsThrottle (views : Views) (size speed : ℕ) : Option (List Addition) :=
  if 0 < speed then throttleLoop views speed maxShaperSleepSec 0 size else none

end Throttle

section Check

/-- `size_round_up_to_page` -/
def sizeRoundUpToPage (size : ℕ) : ℕ := (size + (pageSize - 1)) / pageSize * pageSize % u64

/-- `ppagecache_free_read`, when the read cache has `pages` to give. -/
def ppagecacheFreeRead (pages size : ℕ) : ℕ := min pages (sizeRoundUpToPage size / pageSize) * pageSize

/-- The program stops. -/
inductive Fault
  | division
  | assertion
deriving DecidableEq, Repr

/-- What the check returns and leaves: whether the file is locked and throttled, whether the disk is full, the multiplier and
the speed that were computed, and whether a number did not fit on the way. -/
structure Return where
  ret : ℤ
  locked : Bool
  throttle : Bool
  localFull : Option Bool
  limit : Option (ℕ × ℕ)
  wrapped : Bool
deriving DecidableEq, Repr

/-- The end of `psync_fs_do_check_write_space`. -/
def shape (freespc minlocal size uploadspeed : ℕ) (freed : Bool) (pages : ℕ) (wrapped : Bool) : Except Fault Return :=
  if uploadspeed = 0 ∧ (freed = true ∨ ppagecacheFreeRead pages size ≥ size) then .ok ⟨1, true, true, some true, none, wrapped⟩
  else
    let minlocal := minlocal / 2
    if minlocal = 0 then .error .division
    else
      let excess := (freespc + (u64 - minlocal)) % u64
      let mult := (excess * 1023 % u64 / minlocal + 1) % u64
      if ¬(1 ≤ mult ∧ mult ≤ 1024) then .error .assertion
      else
        let speed := uploadspeed * 3 % 2 ^ 32 / 2
        let speed := if speed < minInitialWriteShaper then minInitialWriteShaper else speed
        let wrapped := wrapped || decide (freespc < minlocal) || decide (u64 ≤ excess * 1023) || decide (2 ^ 32 ≤ uploadspeed * 3) ||
          decide (u64 ≤ speed * mult)
        .ok ⟨1, true, true, some true, some (mult, speed * mult % u64 / 1024), wrapped⟩

/-- `psync_fs_do_check_write_space`. The free space is `none` if it is not known, and `pages` are those that the read cache
has at the two times that it is asked. -/
def doCheckWriteSpace (freespc : Option ℕ) (minlocal size uploadspeed : ℕ) (pages : ℕ × ℕ) (throttle : Bool) : Except Fault Return :=
  match freespc with
  | none => .ok ⟨1, true, throttle, none, none, false⟩
  | some freespc =>
    let wrapped := decide (u64 ≤ minlocal + size)
    if (minlocal + size) % u64 ≤ freespc then .ok ⟨1, true, false, some false, none, wrapped⟩
    else if freespc ≤ minlocal / 2 ∨ minlocal ≤ pageSize ∨ freespc ≤ size then
      let twice := size * 2 % u64
      if ppagecacheFreeRead pages.1 twice < twice then .ok ⟨-4, false, true, some true, none, wrapped⟩
      else shape (minlocal / 2 + 1) minlocal size uploadspeed true pages.2 (wrapped || decide (u64 ≤ size * 2))
    else
      let freed := if freespc ≤ minlocal / 4 * 3 then decide (ppagecacheFreeRead pages.1 size ≥ size) else false
      shape freespc minlocal size uploadspeed freed pages.2 wrapped

end Check

end Pclsync.Fs.WriteSpace
