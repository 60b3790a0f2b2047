import Pclsync.Net.BlockHeader
import Pclsync.Net.BlockTable

/-! The plan of a download: what is transferred and what is copied from local files.
A file is named by a pointer, so names are compared as such. -/

namespace Pclsync.Net.DownloadRanges
open BlockTable BlockHeader

variable {α : Type} [DecidableEq α]

/-- `psync_range_list_t`; the name is set for a copy only. -/
structure Range (α : Type) where
  type : RangeType
  off : ℕ
  len : ℕ
  filename : Option α
deriving DecidableEq, Repr

/-- `crash` is an access through a null pointer or outside of an array, or a
division by zero. -/
inductive Outcome (α : Type) where
  | tempfail
  | crash
  | ok (ranges : List (Range α))
deriving DecidableEq, Repr

/-- `bs` for a block in the loop: the last block takes what is left. -/
def blockLen (checksums : FileChecksums) (i : ℕ) : ℕ :=
  if i = checksums.blockcnt - 1 then
    if checksums.filesize % checksums.blocksize = 0 then checksums.blocksize
    else checksums.filesize % checksums.blocksize
  else checksums.blocksize

/-- A range that begins with a block. -/
def newRange (files : List α) (checksums : FileChecksums) (blockactions : ℕ → BlockAction) (i len : ℕ) : Range α :=
  if (blockactions i).type = .copy then ⟨.copy, (blockactions i).off, len, files[(blockactions i).idx]?⟩
  else ⟨(blockactions i).type, i * checksums.blocksize, len, none⟩

/-- Whether a block does not continue the range. -/
def breaks (files : List α) (range : Range α) (action : BlockAction) : Prop :=
  action.type ≠ range.type ∨ range.type = .copy ∧ (range.filename ≠ files[action.idx]? ∨ range.off + range.len ≠ action.off)

instance (files : List α) (range : Range α) (action : BlockAction) : Decidable (breaks files range action) :=
  inferInstanceAs (Decidable (_ ∨ _ ∧ (_ ∨ _)))

/-- The loop over the blocks from `i` on, with the range that is being extended. -/
def extend (files : List α) (checksums : FileChecksums) (blockactions : ℕ → BlockAction) :
    ℕ → ℕ → Range α → List (Range α)
  | 0, _, range => [range]
  | left + 1, i, range =>
    if breaks files range (blockactions i) then
      range :: extend files checksums blockactions left (i + 1)
        (newRange files checksums blockactions i (blockLen checksums i))
    else extend files checksums blockactions left (i + 1) { range with len := range.len + blockLen checksums i }

/-- The ranges for a checksums object and the actions that the scans recorded. -/
def plan (files : List α) (checksums : FileChecksums) (blockactions : ℕ → BlockAction) : Outcome α :=
  if checksums.blockcnt = 0 then .crash
  else if 2 ≤ checksums.blockcnt ∧ checksums.blocksize = 0 then .crash
  else .ok (extend files checksums blockactions (checksums.blockcnt - 1) 1
    (newRange files checksums blockactions 0 checksums.blocksize))

/-- `fulldownload:` -/
def fullDownload (filesize : ℕ) : Outcome α := .ok [⟨.transfer, 0, filesize, none⟩]

/-- `psync_net_download_ranges`; `result` is what `psync_net_get_checksums` gave. -/
def downloadRanges (files : List α) (result : Result) (scan : FileChecksums → ℕ → BlockAction) (filesize : ℕ) : Outcome α :=
  if files.isEmpty then fullDownload filesize
  else
    match result with
    | .permfail => fullDownload filesize
    | .tempfail => .tempfail
    | .ok none => .crash
    | .ok (some checksums) =>
      if checksums.filesize ≠ filesize then .tempfail else plan files checksums (scan checksums)

end Pclsync.Net.DownloadRanges
