import Mathlib

/-! The two lines of text about what is left to transfer. A digit is what is added to `'0'`, whatever its value is. -/

namespace Pclsync.Status

inductive Glyph where
  | char (c : Char)
  | digit (value : ℕ)
deriving DecidableEq, Repr

abbrev Text := List Glyph

/-- The fields of `pstatus_t` that the lines are made of. -/
structure Pstatus where
  bytestoupload : UInt64
  bytesuploaded : UInt64
  bytestodownload : UInt64
  bytesdownloaded : UInt64
  status : UInt32
  filestoupload : UInt32
  uploadspeed : UInt32
  filestodownload : UInt32
  downloadspeed : UInt32
  remoteisfull : UInt8
  localisfull : UInt8

/-- `PSTATUS_PAUSED` -/
def paused : UInt32 := 9

/-- `PSTATUS_STOPPED` -/
def stopped : UInt32 := 10

/-- `MAX_STATUS_STR_LEN` -/
def maxStatusStrLen : ℕ := 64

/-- `DONT_SHOW_TIME_IF_SEC_OVER` -/
def dontShowTimeIfSecOver : UInt64 := 2 * 86400

/-- `DONT_SHOW_TIME_IF_SPEED_BELOW` -/
def dontShowTimeIfSpeedBelow : UInt32 := 4 * 1024

/-- `cat_const` and `cat_str` -/
def catStr (src : Text) (app : String) : Text := src ++ app.toList.map .char

/-- The loop of `cat_uint32l`, which fills its buffer from the end. -/
def lastDigits (num : ℕ) (str : Text) : Text :=
  let str := .digit (num % 10) :: str
  if num / 10 = 0 then str else lastDigits (num / 10) str

/-- `cat_uint32l` -/
def catUint32l (src : Text) (num : UInt32) : Text := src ++ lastDigits num.toNat []

/-- `cat_uint32` -/
def catUint32 (src : Text) (num : UInt32) : Text :=
  if num.toNat ≥ 1000 then catUint32l src num
  else
    let num := num.toNat
    if num < 10 then src ++ [.digit num]
    else if num < 100 then src ++ [.digit (num / 10), .digit (num % 10)]
    else src ++ [.digit (num / 100), .digit (num % 100 / 10), .digit (num % 100 % 10)]

/-- `sizes` -/
def sizes : List String := ["Bytes", "KB", "MB", "GB", "TB"]

/-- The loop of `fill_formatted_bytes`, with the units that are `left`. -/
def scale : ℕ → ℕ → ℕ → ℕ → ℕ × ℕ × ℕ
  | 0, bytes, rem, sz => (bytes, rem, sz)
  | left + 1, bytes, rem, sz => if bytes ≥ 1024 then scale left (bytes / 1024) (bytes % 1024) (sz + 1) else (bytes, rem, sz)

/-- `fill_formatted_bytes` -/
def fillFormattedBytes (str : Text) (bytes : UInt64) : Text :=
  let (bytes, rem, sz) := scale (sizes.length - 1) bytes.toNat 0 0
  let str := catUint32 str (UInt32.ofNat bytes)
  let str :=
    if sz ≠ 0 ∧ bytes < 100 then
      let rem := rem * 1000 / 1024
      let str := str ++ [.char '.']
      if bytes < 10 then str ++ [.digit (rem / 10 / 10), .digit (rem / 10 % 10)] else str ++ [.digit (rem / 100)]
    else str
  catStr str (sizes.getD sz "")

/-- `fill_remaining` -/
def fillRemaining (str : Text) (files : UInt32) (bytes : UInt64) : Text :=
  let str := catStr str "Remaining: "
  let str := catUint32 str files
  let str := catStr str " files, "
  fillFormattedBytes str bytes

/-- `fill_formatted_time` -/
def fillFormattedTime (str : Text) (totalsec : UInt64) : Text :=
  let s := totalsec.toNat % 60
  let m := totalsec.toNat / 60 % 60
  let h := totalsec.toNat / 60 / 60 % 24
  let d := UInt32.ofNat (totalsec.toNat / 60 / 60 / 24)
  if d ≠ 0 then
    let str := catStr (catUint32 str d) "d "
    let h := if m ≥ 30 then h + 1 else h
    catStr (catUint32 str (UInt32.ofNat h)) "h"
  else if h ≠ 0 then
    let str := catStr (catUint32 str (UInt32.ofNat h)) "h "
    let m := if s ≥ 30 then m + 1 else m
    catStr (catUint32 str (UInt32.ofNat m)) "m"
  else if m ≠ 0 then
    let str := catStr (catUint32 str (UInt32.ofNat m)) "m "
    catStr (catUint32 str (UInt32.ofNat s)) "s"
  else
    let s := if s = 0 then 1 else s
    catStr (catUint32 str (UInt32.ofNat s)) "s"

/-- `sub_no_underf` -/
def subNoUnderf (a b : UInt64) : UInt64 := if b < a then a - b else 0

/-- What one of the lines is about. -/
structure Direction where
  files : UInt32
  speed : UInt32
  total : UInt64
  transferred : UInt64
  full : UInt8
  fullText : String
  doneText : String

/-- The line for one direction in `status_fill_formatted_str`. -/
def fillLine (status : UInt32) (dir : Direction) : Text :=
  if dir.files ≠ 0 then
    if status = paused ∨ status = stopped ∨ dir.full ≠ 0 ∨ dir.speed = 0 then
      let str :=
        if status = paused then catStr [] "Paused. "
        else if status = stopped then catStr [] "Stopped. "
        else if dir.full ≠ 0 then catStr [] dir.fullText
        else []
      fillRemaining str dir.files (subNoUnderf dir.total dir.transferred)
    else
      let str := fillFormattedBytes [] dir.speed.toUInt64
      let str := catStr str "/sec, "
      let str := fillRemaining str dir.files (subNoUnderf dir.total dir.transferred)
      -- here nothing keeps the difference from wrapping around
      let remsec := (dir.total - dir.transferred) / dir.speed.toUInt64
      if remsec < dontShowTimeIfSecOver ∨ dir.speed ≥ dontShowTimeIfSpeedBelow then
        fillFormattedTime (str ++ [.char ' ']) remsec
      else str
  else catStr [] dir.doneText

def Pstatus.download (status : Pstatus) : Direction where
  files := status.filestodownload
  speed := status.downloadspeed
  total := status.bytestodownload
  transferred := status.bytesdownloaded
  full := status.localisfull
  fullText := "Disk full. "
  doneText := "Everything Downloaded"

def Pstatus.upload (status : Pstatus) : Direction where
  files := status.filestoupload
  speed := status.uploadspeed
  total := status.bytestoupload
  transferred := status.bytesuploaded
  full := status.remoteisfull
  fullText := "Account full. "
  doneText := "Everything Uploaded"

/-- `status_fill_formatted_str`: the download line and the upload line. -/
def statusFillFormattedStr (status : Pstatus) : Text × Text :=
  (fillLine status.status status.download, fillLine status.status status.upload)

end Pclsync.Status
