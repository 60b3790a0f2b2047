import Mathlib.Data.Int.Basic
import Pclsync.Crypto.Layout
import Pclsync.Fs.WriteSpace

/-! A file is opened for writing when the first write or the first truncation arrives. On the way the mutex of the file, the
lock of the database and the one of the page cache are taken and released, and the file changes while its mutex is free. -/

namespace Pclsync.Fs.Reopen
open Crypto (cryptoSize)
open WriteSpace (doCheckWriteSpace)

/-- `PSYNC_FS_MAX_SIZE_CONVERT_NEWFILE` -/
abbrev maxSizeConvertNewfile : ℕ := 32 * 4096

section State

/-- The fields of `psync_openfile_t` that the branches are taken on. -/
structure File where
  newfile : Bool
  modified : Bool
  staticfile : Bool
  encrypted : Bool
  /-- `encoder == PSYNC_CRYPTO_UNLOADED_SECTOR_ENCODER` -/
  unloaded : Bool
  releasedforupload : Bool
  throttle : Bool
  initialsize : ℕ
  currentsize : ℕ
  writeid : ℕ
deriving DecidableEq, Repr

/-- How often each lock was taken more than it was released. -/
@[ext] structure Held where
  file : ℤ
  sql : ℤ
  pages : ℤ
deriving DecidableEq, Repr

structure State where
  file : File
  held : Held
deriving DecidableEq, Repr

/-- What other threads do to the file while its mutex is free. -/
abbrev Change := File → File

namespace State

variable (s : State)

def lockFile : State := { s with held := { s.held with file := s.held.file + 1 } }

def unlockFile : State := { s with held := { s.held with file := s.held.file - 1 } }

def lockSql : State := { s with held := { s.held with sql := s.held.sql + 1 } }

def unlockSql : State := { s with held := { s.held with sql := s.held.sql - 1 } }

def lockPages : State := { s with held := { s.held with pages := s.held.pages + 1 } }

def unlockPages : State := { s with held := { s.held with pages := s.held.pages - 1 } }

def change (f : Change) : State := { s with file := f s.file }

end State

/-- An error of the crypto functions. -/
inductive CryptoError
  | notStarted
  | rsaError
  | folderNotFound
  | fileNotFound
  | invalidKey
  | cantConnect
  | folderNotEncrypted
  | internalError
  | other
deriving DecidableEq, Repr

/-- `psync_fs_crypto_err_to_errno` -/
def CryptoError.toErrno : CryptoError → ℕ
  | .notStarted => 13
  | .rsaError => 5
  | .folderNotFound => 2
  | .fileNotFound => 2
  | .invalidKey => 5
  | .cantConnect => 107
  | .folderNotEncrypted => 22
  | .internalError => 22
  | .other => 22

/-- `EIO` -/
abbrev eio : ℤ := 5

/-- `PSYNC_FS_ERR_CRYPTO_EXPIRED`, which is `EROFS` -/
abbrev cryptoExpired : ℤ := 30

end State

section Writeid

structure WriteidAnswers where
  /-- `psql_trylock` fails. -/
  busy : Bool
  change : Change

/-- `psync_fs_inc_writeid_locked` -/
def psyncFsIncWriteidLocked (a : WriteidAnswers) (s : State) : State :=
  let s := if s.file.releasedforupload then
      let s := if a.busy then (s.unlockFile.lockSql.change a.change).lockFile else s.lockSql
      (s.change fun file => { file with releasedforupload := false }).unlockSql
    else s
  s.change fun file => { file with writeid := file.writeid + 1 }

end Writeid

section Reopen

/-- What the rest of the program answers while a file is reopened. -/
structure Answers where
  encoder : Option CryptoError
  afterEncoder : Change
  busy : Bool
  afterLock : Change
  expired : Bool
  key : Option CryptoError
  allPages : Bool
  pagesFree : Bool
  created : Bool
  /-- The error of `open_write_files`, or zero. -/
  opened : ℕ
  seeks : Bool
  copied : Bool

variable (a : Answers)

/-- The file needs its encoder. -/
def File.needsEncoder (file : File) : Bool := file.encrypted && file.unloaded

def File.writable (file : File) : Bool := file.newfile || file.modified

/-- The part of `psync_fs_reopen_file_for_writing` that loads the encoder. An error is a return. -/
def loadEncoder (s : State) : Except (State × ℤ) State :=
  if s.file.needsEncoder then
    let s := s.unlockFile
    match a.encoder with
    | some err => .error (s, -(err.toErrno : ℤ))
    | none =>
      let s := (s.change a.afterEncoder).lockFile
      let s := s.change fun file => { file with unloaded := false }
      if s.file.writable then .error (s, 1) else .ok s
  else .ok s

/-- The part that takes the lock of the database. -/
def takeSql (s : State) : Except (State × ℤ) State :=
  if a.busy then
    let s := (s.unlockFile.lockSql.change a.afterLock).lockFile
    if s.file.writable then .error (s.unlockSql, 1) else .ok s
  else .ok s.lockSql

/-- The part that gets the key of the file. -/
def getKey (s : State) : Except (State × ℤ) State :=
  if s.file.encrypted then
    if a.expired then .error (s.unlockSql, -cryptoExpired)
    else match a.key with
      | some err => .error (s.unlockSql, -(err.toErrno : ℤ))
      | none => .ok s
  else .ok s

def File.size (file : File) : ℕ := if file.encrypted then cryptoSize file.initialsize else file.initialsize

/-- The file becomes a new file. -/
def convertFile (s : State) : State × ℤ :=
  let size := s.file.size
  if !a.created then (s.unlockSql.unlockPages, -eio)
  else
    let s := s.unlockSql.change fun file => { file with newfile := true, modified := true }
    if a.opened ≠ 0 then (s.unlockPages, -(a.opened : ℤ))
    else
      let s := if size = 0 then s else s.unlockPages
      if size ≠ 0 ∧ !a.copied then (s, -eio) else (s.change fun file => { file with currentsize := file.initialsize }, 1)

/-- The file becomes a modified file. -/
def modifyFile (s : State) : State × ℤ :=
  if !a.created then (s.unlockSql, -eio)
  else
    let s := s.unlockSql
    if a.opened ≠ 0 then (s, -(a.opened : ℤ))
    else
      if !a.seeks then (s, -eio) else (s.change fun file => { file with modified := true, currentsize := file.initialsize }, 0)

/-- The part below the key. `ppagecache_lock_pages` is only called if the conditions before it hold. -/
def convertOrModify (s : State) : State × ℤ :=
  if s.file.size = 0 then convertFile a s
  else if s.file.size ≤ maxSizeConvertNewfile ∧ a.allPages ∧ a.pagesFree then convertFile a s.lockPages
  else modifyFile a s

def Except.either {α : Type} : Except α α → α
  | .ok result => result
  | .error result => result

/-- `psync_fs_reopen_file_for_writing` -/
def psyncFsReopenFileForWriting (s : State) : State × ℤ :=
  Except.either do
    let s ← loadEncoder a s
    let s ← takeSql a s
    let s ← getKey a s
    return convertOrModify a s

structure StaticAnswers where
  busy : Bool
  afterLock : Change
  created : Bool
  opened : ℕ
  written : Bool

/-- `psync_fs_reopen_static_file_for_writing` -/
def psyncFsReopenStaticFileForWriting (a : StaticAnswers) (s : State) : State × ℤ :=
  let s := if a.busy then (s.unlockFile.lockSql.change a.afterLock).lockFile else s.lockSql
  if a.busy ∧ !s.file.staticfile then (s.unlockSql, 1)
  else if !a.created then (s.unlockSql, -eio)
  else
    let s := s.unlockSql.change fun file => { file with writeid := 0, newfile := true, modified := true, staticfile := false }
    if a.opened ≠ 0 then (s, -(a.opened : ℤ)) else (s, if a.written then 1 else -eio)

end Reopen

/-- How a call ends: it returns, the program stops in it, or it needs more passes. -/
inductive End
  | returned (held : Held) (ret : ℤ)
  | stopped
  | running

section Write

/-- What is answered in one pass of the loop of `psync_fs_write`, with the results of the writes themselves. -/
structure PassAnswers where
  reopen : Answers
  static : StaticAnswers
  wrote : ℤ

structure SpaceAnswers where
  freespc : Option ℕ
  minlocal : ℕ
  uploadspeed : ℕ
  pages : ℕ × ℕ
  /-- `psync_fs_check_modified_file_write_space` -/
  inside : Bool
  change : Change

/-- `psync_fs_check_write_space`. Where there is little space, the mutex is free for a while. -/
def psyncFsCheckWriteSpace (a : SpaceAnswers) (size offset : ℕ) (s : State) : Option (State × ℤ) :=
  if !s.file.throttle ∧ s.file.writeid % 64 ≠ 0 then some (s, 1)
  else if s.file.currentsize ≥ offset + size ∧ s.file.modified ∧ a.inside then some (s, 1)
  else match doCheckWriteSpace a.freespc a.minlocal size a.uploadspeed a.pages s.file.throttle with
    | .error _ => none
    | .ok done =>
      let s := s.change fun file => { file with throttle := done.throttle }
      if done.localFull = some true then
        let s := s.unlockFile.change a.change
        some (if done.locked then s.lockFile else s, done.ret)
      else some (s, done.ret)

/-- What a pass leads to. -/
inductive Pass
  | again (s : State)
  | done (held : Held) (ret : ℤ)

/-- The loop body of `psync_fs_write`. The writes of encrypted files release the mutex themselves. -/
def writePass (a : PassAnswers) (s : State) : Pass :=
  if s.file.newfile then .done s.unlockFile.held a.wrote
  else
    let (s, ret) := if s.file.modified then (s, 0) else psyncFsReopenFileForWriting a.reopen s
    if ret = 1 then .again s
    else if ret < 0 then .done s.unlockFile.held ret
    else if !s.file.encrypted && s.file.staticfile then
      let (s, ret) := psyncFsReopenStaticFileForWriting a.static s
      if ret = 1 then .again s else .done s.unlockFile.held ret
    else .done s.unlockFile.held a.wrote

def writeLoop (a : ℕ → PassAnswers) : (passes : ℕ) → State → End
  | 0, _ => .running
  | pass + 1, s =>
    match writePass (a pass) s with
    | .again s => writeLoop a pass s
    | .done held ret => .returned held ret

structure WriteAnswers where
  space : SpaceAnswers
  writeid : WriteidAnswers
  passes : ℕ → PassAnswers

/-- `psync_fs_write` -/
def psyncFsWrite (a : WriteAnswers) (size offset passes : ℕ) (s : State) : End :=
  match psyncFsCheckWriteSpace a.space size offset s.lockFile with
  | none => .stopped
  | some (s, ret) => if ret ≤ 0 then .returned s.held ret else writeLoop a.passes passes (psyncFsIncWriteidLocked a.writeid s)

end Write

section Truncate

/-- What is answered in one pass of `pfscrypto_truncate` or `pfscrypto_truncate_down`. -/
structure CryptoAnswers where
  /-- An extender that is ready, with its error. -/
  ready : Option ℤ
  afterWait : Change
  up : ℤ
  zero : ℤ
  /-- The last sector is in the data file. -/
  inside : Bool
  sector : ℤ
  read : ℤ
  afterRead : Change
  write : ℤ
  afterWrite : Change
  last : ℤ

/-- The loop of `pfscrypto_truncate_down`. The read and the write of the last sector release the mutex. -/
def truncateDown (a : ℕ → CryptoAnswers) : (passes : ℕ) → State → Option (State × ℤ)
  | 0, _ => none
  | pass + 1, s =>
    if s.file.newfile || (a pass).inside then some (s, if (a pass).sector < 0 then (a pass).sector else (a pass).last)
    else if (a pass).read < 0 then some (s.unlockFile, (a pass).read)
    else
      let read := (s.unlockFile.change (a pass).afterRead).lockFile
      if read.file.writeid ≠ s.file.writeid then truncateDown a pass read
      else if (a pass).write < 0 then some (read.unlockFile, (a pass).write)
      else
        let written := (read.unlockFile.change (a pass).afterWrite).lockFile
        if written.file.writeid ≠ s.file.writeid then truncateDown a pass written else some (written, (a pass).last)

/-- `pfscrypto_truncate` -/
def pfscryptoTruncate (a : ℕ → CryptoAnswers) (size : ℕ) : (passes : ℕ) → State → Option (State × ℤ)
  | 0, _ => none
  | pass + 1, s =>
    if s.file.currentsize < size then
      match (a pass).ready with
      | none => some (s, (a pass).up)
      | some err =>
        let s := (s.unlockFile.change (a pass).afterWait).lockFile
        if err ≠ 0 then some (s, err) else pfscryptoTruncate a size pass s
    else if s.file.currentsize > size then if size = 0 then some (s, (a pass).zero) else truncateDown a pass s
    else some (s, 0)

structure TruncateAnswers where
  writeid : WriteidAnswers
  reopen : ℕ → Answers
  crypto : ℕ → CryptoAnswers
  plain : ℤ

/-- The loop of `psync_fs_ftruncate_of_locked`. -/
def truncateLoop (a : TruncateAnswers) (size : ℕ) : (passes : ℕ) → State → Option (State × ℤ)
  | 0, _ => none
  | pass + 1, s =>
    let (s, ret) := if s.file.writable then (s, 0) else psyncFsReopenFileForWriting (a.reopen pass) s
    if ret = 1 then truncateLoop a size pass s
    else if ret < 0 then some (s, ret)
    else if s.file.encrypted then pfscryptoTruncate a.crypto size pass s
    else some (s, a.plain)

/-- `psync_fs_ftruncate_of_locked` -/
def psyncFsFtruncateOfLocked (a : TruncateAnswers) (size passes : ℕ) (s : State) : Option (State × ℤ) :=
  if s.file.currentsize = size then some (s, 0) else truncateLoop a size passes (psyncFsIncWriteidLocked a.writeid s)

/-- `psync_fs_ftruncate` -/
def psyncFsFtruncate (a : TruncateAnswers) (size passes : ℕ) (s : State) : End :=
  match psyncFsFtruncateOfLocked a size passes s.lockFile with
  | none => .running
  | some (s, ret) => .returned s.unlockFile.held ret

end Truncate

end Pclsync.Fs.Reopen
