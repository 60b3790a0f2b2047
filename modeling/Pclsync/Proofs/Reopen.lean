import Mathlib.Tactic.Common
import Pclsync.Fs.Reopen

/-! When a write and a truncation that open the file for writing release the locks as often as they take them. -/

namespace Pclsync.Proofs.Reopen
open Fs.Reopen
open Fs.WriteSpace (doCheckWriteSpace shape Return)

section Held

variable (s : State) (f : Change)

@[simp] theorem unlockFile_held : s.unlockFile.held = { s.held with file := s.held.file - 1 } := rfl

@[simp] theorem lockFile_held : s.lockFile.held = { s.held with file := s.held.file + 1 } := rfl

@[simp] theorem unlockSql_held : s.unlockSql.held = { s.held with sql := s.held.sql - 1 } := rfl

@[simp] theorem lockSql_held : s.lockSql.held = { s.held with sql := s.held.sql + 1 } := rfl

@[simp] theorem unlockPages_held : s.unlockPages.held = { s.held with pages := s.held.pages - 1 } := rfl

@[simp] theorem lockPages_held : s.lockPages.held = { s.held with pages := s.held.pages + 1 } := rfl

@[simp] theorem change_held : (s.change f).held = s.held := rfl

@[simp] theorem change_file : (s.change f).file = f s.file := rfl

@[simp] theorem unlockFile_file : s.unlockFile.file = s.file := rfl

@[simp] theorem lockFile_file : s.lockFile.file = s.file := rfl

@[simp] theorem unlockSql_file : s.unlockSql.file = s.file := rfl

@[simp] theorem lockSql_file : s.lockSql.file = s.file := rfl

@[simp] theorem unlockPages_file : s.unlockPages.file = s.file := rfl

@[simp] theorem lockPages_file : s.lockPages.file = s.file := rfl

/-- The mutex is free for a while. -/
@[simp] theorem cycle_held : ((s.unlockFile.change f).lockFile).held = s.held := by
  simp

theorem unlockFile_inj {s t : State} : t.unlockFile.held = s.unlockFile.held ↔ t.held = s.held := by
  simp only [unlockFile_held, Held.ext_iff, Int.sub_left_inj]

end Held

section Reopen

variable (a : Answers) (file : File)

/-- The file with its encoder. -/
def loaded : File := if file.needsEncoder then { a.afterEncoder file with unloaded := false } else file

/-- The file when the lock of the database is held. -/
def locked : File := if a.busy then a.afterLock (loaded a file) else loaded a file

/-- Nothing returns before the file is converted. -/
structure Proceeds : Prop where
  loads : file.needsEncoder = true → (loaded a file).writable = false
  locks : a.busy = true → (locked a file).writable = false
  keys : (locked a file).encrypted = true → a.expired = false ∧ a.key = none

/-- The encoder is got if it is needed, and a file of size zero that is converted gets its task and its local files. -/
structure ReopenFits : Prop where
  encoder : file.needsEncoder = true → a.encoder = none
  empty : Proceeds a file → (locked a file).size = 0 → a.created = true ∧ a.opened = 0

variable {a} {s : State}

theorem toErrno_pos (err : CryptoError) : 0 < err.toErrno := by
  cases err <;> decide

variable {held : Held}

/-- The end of the reopening, with the lock of the database. -/
theorem convertOrModify_kept (taken : s.held = { held with sql := held.sql + 1 }) (fits : s.file.size = 0 → a.created = true ∧ a.opened = 0) :
    (convertOrModify a s).1.held = held := by
  unfold convertOrModify
  by_cases empty : s.file.size = 0
  · obtain ⟨created, opened⟩ := fits empty
    rw [if_pos empty]
    unfold convertFile
    simp [created, opened, empty, taken]
  · rw [if_neg empty]
    split
    · unfold convertFile
      cases a.created <;> by_cases opened : a.opened = 0 <;> cases a.copied <;> simp [opened, empty, taken]
    · unfold modifyFile
      cases a.created <;> by_cases opened : a.opened = 0 <;> cases a.seeks <;> simp [opened, taken]

/-- The lock of the page cache is released although it was not taken. -/
theorem convertOrModify_slips (taken : s.held = { held with sql := held.sql + 1 }) (empty : s.file.size = 0)
    (fails : ¬(a.created = true ∧ a.opened = 0)) : (convertOrModify a s).1.held ≠ held ∧ (convertOrModify a s).2 < 0 := by
  unfold convertOrModify convertFile
  rw [if_pos empty]
  cases created : a.created with
  | false =>
    simp [taken, Held.ext_iff]
  | true =>
    have opened : a.opened ≠ 0 := fun none => fails ⟨created, none⟩
    simp [opened, taken, Held.ext_iff]
    omega

/-- The part that takes the lock of the database. -/
theorem takeSql_spec (a : Answers) (s : State) :
    (a.busy = true ∧ (if a.busy then a.afterLock s.file else s.file).writable = true ∧ ∃ t, takeSql a s = .error (t, 1) ∧ t.held = s.held) ∨
      ((a.busy = true → (if a.busy then a.afterLock s.file else s.file).writable = false) ∧
        ∃ t, takeSql a s = .ok t ∧ t.held = { s.held with sql := s.held.sql + 1 } ∧ t.file = if a.busy then a.afterLock s.file else s.file) := by
  unfold takeSql
  cases busy : a.busy with
  | false => exact Or.inr ⟨fun no => absurd no Bool.false_ne_true, _, rfl, rfl, rfl⟩
  | true =>
    dsimp only
    let t := (s.unlockFile.lockSql.change a.afterLock).lockFile
    have file : t.file = a.afterLock s.file := rfl
    cases writable : t.file.writable with
    | true => exact Or.inl ⟨rfl, writable, t.unlockSql, rfl, by simp [t]⟩
    | false => exact Or.inr ⟨fun _ => writable, t, rfl, by simp [t], file⟩

/-- The part that loads the encoder, where it is got if it is needed. -/
theorem loadEncoder_spec (encoder : s.file.needsEncoder = true → a.encoder = none) :
    (s.file.needsEncoder = true ∧ (loaded a s.file).writable = true ∧ ∃ t, loadEncoder a s = .error (t, 1) ∧ t.held = s.held) ∨
      ((s.file.needsEncoder = true → (loaded a s.file).writable = false) ∧
        ∃ t, loadEncoder a s = .ok t ∧ t.held = s.held ∧ t.file = loaded a s.file) := by
  unfold loadEncoder loaded
  cases needs : s.file.needsEncoder with
  | false => exact Or.inr ⟨fun no => absurd no Bool.false_ne_true, _, rfl, rfl, rfl⟩
  | true =>
    rw [encoder needs]
    let t := (s.unlockFile.change a.afterEncoder).lockFile.change fun file => { file with unloaded := false }
    have file : t.file = { a.afterEncoder s.file with unloaded := false } := rfl
    cases writable : t.file.writable with
    | true => exact Or.inl ⟨rfl, writable, t, if_pos writable, by simp [t]⟩
    | false =>
      refine Or.inr ⟨fun _ => writable, t, (if_pos rfl).trans (if_neg ?_), by simp [t], file⟩
      exact fun yes => absurd (writable.symm.trans yes) Bool.false_ne_true

/-- The key is asked for with the lock of the database. -/
theorem getKey_spec (a : Answers) (s : State) :
    ((s.file.encrypted = true → a.expired = false ∧ a.key = none) ∧ getKey a s = .ok s) ∨
      (¬(s.file.encrypted = true → a.expired = false ∧ a.key = none) ∧ ∃ ret, getKey a s = .error (s.unlockSql, ret) ∧ ret < 0) := by
  unfold getKey
  cases s.file.encrypted with
  | false => exact Or.inl ⟨fun no => absurd no Bool.false_ne_true, rfl⟩
  | true =>
    cases a.expired with
    | true => exact Or.inr ⟨by simp, _, rfl, by decide⟩
    | false =>
      cases a.key with
      | none => exact Or.inl ⟨fun _ => ⟨rfl, rfl⟩, rfl⟩
      | some err =>
        refine Or.inr ⟨by simp, _, rfl, ?_⟩
        have := toErrno_pos err
        omega

theorem ok_bind {ε α β : Type} (result : α) (rest : α → Except ε β) : (Except.ok result >>= rest) = rest result := rfl

/-- What the parts before the last one leave of the whole. -/
theorem reopen_loadError {result : State × ℤ} (loads : loadEncoder a s = .error result) : psyncFsReopenFileForWriting a s = result := by
  unfold psyncFsReopenFileForWriting
  rw [loads]
  rfl

theorem reopen_takeError {t : State} {result : State × ℤ} (loads : loadEncoder a s = .ok t) (takes : takeSql a t = .error result) :
    psyncFsReopenFileForWriting a s = result := by
  unfold psyncFsReopenFileForWriting
  rw [loads, ok_bind, takes]
  rfl

theorem reopen_keyError {t u : State} {result : State × ℤ} (loads : loadEncoder a s = .ok t) (takes : takeSql a t = .ok u)
    (keys : getKey a u = .error result) : psyncFsReopenFileForWriting a s = result := by
  unfold psyncFsReopenFileForWriting
  rw [loads, ok_bind, takes, ok_bind, keys]
  rfl

theorem reopen_last {t u : State} (loads : loadEncoder a s = .ok t) (takes : takeSql a t = .ok u) (keys : getKey a u = .ok u) :
    psyncFsReopenFileForWriting a s = convertOrModify a u := by
  unfold psyncFsReopenFileForWriting
  rw [loads, ok_bind, takes, ok_bind, keys]
  rfl

/-- Where the condition holds, the locks are as they were. -/
theorem reopen_kept (fits : ReopenFits a s.file) : (psyncFsReopenFileForWriting a s).1.held = s.held := by
  obtain ⟨_, _, t, loads, held⟩ | ⟨loadsOn, t, loads, held, file⟩ := loadEncoder_spec fits.encoder
  · rw [reopen_loadError loads]
    exact held
  · obtain ⟨_, _, u, takes, heldSql⟩ | ⟨takesOn, u, takes, heldSql, fileSql⟩ := takeSql_spec a t
    · rw [reopen_takeError loads takes]
      exact heldSql.trans held
    · have isLocked : u.file = locked a s.file := by rw [fileSql, file]; rfl
      rw [held] at heldSql
      obtain ⟨keyed, keys⟩ | ⟨_, ret, keys, _⟩ := getKey_spec a u
      · rw [reopen_last loads takes keys]
        refine convertOrModify_kept heldSql fun empty => fits.empty ⟨loadsOn, fun busy => ?_, ?_⟩ ?_
        · have free := takesOn busy
          rw [file] at free
          exact free
        · rw [← isLocked]
          exact keyed
        · rw [← isLocked]
          exact empty
      · rw [reopen_keyError loads takes keys]
        simp [heldSql]

/-- Where it does not hold, they are not, and the error is returned. -/
theorem reopen_slips (fits : ¬ReopenFits a s.file) :
    (psyncFsReopenFileForWriting a s).1.held ≠ s.held ∧ (psyncFsReopenFileForWriting a s).2 < 0 := by
  by_cases encoder : s.file.needsEncoder = true → a.encoder = none
  · obtain ⟨proceeds, empty, fails⟩ : ∃ _ : Proceeds a s.file, (locked a s.file).size = 0 ∧ ¬(a.created = true ∧ a.opened = 0) := by
      by_contra none
      refine fits ⟨encoder, fun proceeds empty => ?_⟩
      by_contra fails
      exact none ⟨proceeds, empty, fails⟩
    obtain ⟨needs, writable, _⟩ | ⟨_, t, loads, held, file⟩ := loadEncoder_spec encoder
    · exact absurd (writable.symm.trans (proceeds.loads needs)) Bool.false_ne_true.symm
    · obtain ⟨busy, writable, _⟩ | ⟨_, u, takes, heldSql, fileSql⟩ := takeSql_spec a t
      · rw [file] at writable
        exact absurd (writable.symm.trans (proceeds.locks busy)) Bool.false_ne_true.symm
      · have isLocked : u.file = locked a s.file := by rw [fileSql, file]; rfl
        rw [held] at heldSql
        obtain ⟨_, keys⟩ | ⟨unkeyed, _⟩ := getKey_spec a u
        · rw [reopen_last loads takes keys]
          exact convertOrModify_slips heldSql (isLocked ▸ empty) fails
        · rw [isLocked] at unkeyed
          exact absurd proceeds.keys unkeyed
  · obtain ⟨needs, some⟩ := Classical.not_imp.mp encoder
    obtain ⟨err, failed⟩ := Option.ne_none_iff_exists'.mp some
    have loads : loadEncoder a s = .error (s.unlockFile, -(err.toErrno : ℤ)) := by
      unfold loadEncoder
      rw [needs, failed]
      rfl
    rw [reopen_loadError loads]
    have positive := toErrno_pos err
    refine ⟨fun same => ?_, by dsimp only; omega⟩
    have := congrArg Held.file same
    simp at this

end Reopen

section Static

variable {a : StaticAnswers} {s : State}

/-- The locks are as they were after a static file is reopened. -/
theorem reopenStatic_kept : (psyncFsReopenStaticFileForWriting a s).1.held = s.held := by
  unfold psyncFsReopenStaticFileForWriting
  cases busy : a.busy <;> cases static : (a.afterLock s.file).staticfile <;> cases a.created <;> by_cases opened : a.opened = 0 <;>
    simp [static, opened]

theorem incWriteid_kept (a : WriteidAnswers) (s : State) : (psyncFsIncWriteidLocked a s).held = s.held := by
  unfold psyncFsIncWriteidLocked
  cases s.file.releasedforupload <;> cases a.busy <;> simp

end Static

section Write

/-- The check of the space returns with the mutex exactly if the write goes on. -/
theorem doCheckWriteSpace_locked {freespc : Option ℕ} {minlocal size uploadspeed : ℕ} {pages : ℕ × ℕ} {throttle : Bool} {done : Return}
    (ok : doCheckWriteSpace freespc minlocal size uploadspeed pages throttle = .ok done) :
    (done.locked = true ↔ 0 < done.ret) ∧ (done.localFull ≠ some true → 0 < done.ret) := by
  have shaped : ∀ {freespc minlocal size uploadspeed : ℕ} {freed : Bool} {pages : ℕ} {wrapped : Bool},
      shape freespc minlocal size uploadspeed freed pages wrapped = .ok done → done.locked = true ∧ done.ret = 1 := by
    intro freespc minlocal size uploadspeed freed pages wrapped ok
    unfold shape at ok
    split at ok
    · injection ok with ok
      subst ok
      exact ⟨rfl, rfl⟩
    · dsimp only at ok
      split at ok
      · cases ok
      · split at ok
        · cases ok
        · injection ok with ok
          subst ok
          exact ⟨rfl, rfl⟩
  have goesOn : done.locked = true ∧ done.ret = 1 → (done.locked = true ↔ 0 < done.ret) ∧ (done.localFull ≠ some true → 0 < done.ret) := by
    rintro ⟨locked, ret⟩
    rw [locked, ret]
    exact ⟨iff_of_true rfl Int.one_pos, fun _ => Int.one_pos⟩
  unfold doCheckWriteSpace at ok
  cases freespc with
  | none =>
    injection ok with ok
    subst ok
    exact goesOn ⟨rfl, rfl⟩
  | some freespc =>
    dsimp only at ok
    split at ok
    · injection ok with ok
      subst ok
      exact goesOn ⟨rfl, rfl⟩
    · split at ok
      · split at ok
        · injection ok with ok
          subst ok
          exact ⟨by simp, fun no => absurd rfl no⟩
        · exact goesOn (shaped ok)
      · exact goesOn (shaped ok)

theorem checkWriteSpace_held {a : SpaceAnswers} {size offset : ℕ} {s t : State} {ret : ℤ}
    (checked : psyncFsCheckWriteSpace a size offset s = some (t, ret)) : t.held = if 0 < ret then s.held else s.unlockFile.held := by
  unfold psyncFsCheckWriteSpace at checked
  split at checked
  · cases checked
    rfl
  · split at checked
    · cases checked
      rfl
    · split at checked
      · cases checked
      · rename_i done ok
        obtain ⟨locked, full⟩ := doCheckWriteSpace_locked ok
        dsimp only at checked
        split at checked
        · cases checked
          by_cases goesOn : 0 < done.ret
          · rw [if_pos goesOn, if_pos (locked.mpr goesOn)]
            simp
          · rw [if_neg goesOn, if_neg fun yes => goesOn (locked.mp yes)]
            rfl
        · rename_i notFull
          cases checked
          rw [if_pos (full notFull)]
          rfl

/-- A pass that keeps the locks, and releases the mutex if it is the last one. -/
def PassKept (s : State) : Pass → Prop
  | .again t => t.held = s.held
  | .done held _ => held = s.unlockFile.held

theorem writePass_kept {a : PassAnswers} {s : State} (fits : s.file.writable = false → ReopenFits a.reopen s.file) :
    PassKept s (writePass a s) := by
  unfold writePass
  by_cases new : s.file.newfile = true
  · rw [if_pos new]
    rfl
  · rw [if_neg new]
    have same : (if s.file.modified = true then (s, 0) else psyncFsReopenFileForWriting a.reopen s).1.held = s.held := by
      by_cases modified : s.file.modified = true
      · rw [if_pos modified]
      · rw [if_neg modified]
        refine reopen_kept (fits ?_)
        unfold File.writable
        simp [new, modified]
    generalize (if s.file.modified = true then (s, 0) else psyncFsReopenFileForWriting a.reopen s) = opened at same
    obtain ⟨t, ret⟩ := opened
    dsimp only at same ⊢
    split
    · exact same
    · split
      · exact unlockFile_inj.mpr same
      · split
        · have static := @reopenStatic_kept a.static t
          generalize psyncFsReopenStaticFileForWriting a.static t = last at static
          obtain ⟨u, ret⟩ := last
          dsimp only at static ⊢
          split
          · exact static.trans same
          · exact unlockFile_inj.mpr (static.trans same)
        · exact unlockFile_inj.mpr same

theorem writePass_slips {a : PassAnswers} {s : State} (readOnly : s.file.writable = false) (fails : ¬ReopenFits a.reopen s.file) :
    ∃ held ret, writePass a s = .done held ret ∧ held ≠ s.unlockFile.held := by
  unfold File.writable at readOnly
  rw [Bool.or_eq_false_iff] at readOnly
  obtain ⟨differs, negative⟩ := reopen_slips fails
  refine ⟨(psyncFsReopenFileForWriting a.reopen s).1.unlockFile.held, (psyncFsReopenFileForWriting a.reopen s).2, ?_,
    fun same => differs (unlockFile_inj.mp same)⟩
  unfold writePass
  rw [readOnly.1, readOnly.2]
  simp only [Bool.false_eq_true, if_false]
  rw [if_neg (by omega), if_pos negative]

/-- Each pass of a write that reopens the file meets the condition. -/
def LoopFits (a : ℕ → PassAnswers) : (passes : ℕ) → State → Prop
  | 0, _ => True
  | pass + 1, s =>
    (s.file.writable = false → ReopenFits (a pass).reopen s.file) ∧ ∀ t, writePass (a pass) s = .again t → LoopFits a pass t

/-- If a call returns, it leaves these locks. -/
def Leaves (held : Held) : End → Prop
  | .returned left _ => left = held
  | .stopped => True
  | .running => True

theorem writeLoop_iff (a : ℕ → PassAnswers) (passes : ℕ) (s : State) : Leaves s.unlockFile.held (writeLoop a passes s) ↔ LoopFits a passes s := by
  induction passes generalizing s with
  | zero => exact Iff.rfl
  | succ pass ih =>
    unfold writeLoop LoopFits
    by_cases fits : s.file.writable = false → ReopenFits (a pass).reopen s.file
    · have kept := writePass_kept fits
      rw [and_iff_right fits]
      cases found : writePass (a pass) s with
      | again t =>
        rw [found] at kept
        have same : t.unlockFile.held = s.unlockFile.held := unlockFile_inj.mpr kept
        dsimp only
        rw [← same, ih t]
        exact ⟨fun rest u equal => by cases equal; exact rest, fun rest => rest t rfl⟩
      | done held ret =>
        rw [found] at kept
        exact iff_of_true kept fun t equal => by cases equal
    · obtain ⟨readOnly, fails⟩ := Classical.not_imp.mp fits
      obtain ⟨held, ret, found, differs⟩ := writePass_slips readOnly fails
      rw [found]
      exact iff_of_false differs fun both => fits both.1

/-- The condition on a write: each reopening in it meets the one on reopenings. -/
def WriteFits (a : WriteAnswers) (size offset passes : ℕ) (s : State) : Prop :=
  ∀ t ret, psyncFsCheckWriteSpace a.space size offset s.lockFile = some (t, ret) → 0 < ret →
    LoopFits a.passes passes (psyncFsIncWriteidLocked a.writeid t)

theorem write_iff (a : WriteAnswers) (size offset passes : ℕ) (s : State) :
    Leaves s.held (psyncFsWrite a size offset passes s) ↔ WriteFits a size offset passes s := by
  have back : s.lockFile.unlockFile.held = s.held := by simp
  unfold psyncFsWrite WriteFits
  cases checked : psyncFsCheckWriteSpace a.space size offset s.lockFile with
  | none => exact iff_of_true trivial fun t ret equal => by cases equal
  | some result =>
    obtain ⟨t, ret⟩ := result
    have held := checkWriteSpace_held checked
    dsimp only
    by_cases goesOn : 0 < ret
    · rw [if_pos goesOn] at held
      rw [if_neg (by omega)]
      have same : (psyncFsIncWriteidLocked a.writeid t).unlockFile.held = s.held := by
        rw [← back, unlockFile_inj, incWriteid_kept, held]
      rw [← same, writeLoop_iff]
      refine ⟨fun rest u other equal _ => ?_, fun rest => rest t ret rfl goesOn⟩
      cases equal
      exact rest
    · rw [if_neg goesOn, back] at held
      rw [if_pos (by omega)]
      refine iff_of_true held fun u other equal positive => ?_
      cases equal
      exact absurd positive goesOn

end Write

section Truncate

/-- The last sector is read and written without an error. -/
def DownFits (a : ℕ → CryptoAnswers) : (passes : ℕ) → State → Prop
  | 0, _ => True
  | pass + 1, s =>
    if s.file.newfile || (a pass).inside then True
    else 0 ≤ (a pass).read ∧
      let read := (s.unlockFile.change (a pass).afterRead).lockFile
      if read.file.writeid ≠ s.file.writeid then DownFits a pass read
      else 0 ≤ (a pass).write ∧
        let written := (read.unlockFile.change (a pass).afterWrite).lockFile
        if written.file.writeid ≠ s.file.writeid then DownFits a pass written else True

/-- A truncation of an encrypted file that cuts a sector meets the condition. -/
def CryptoFits (a : ℕ → CryptoAnswers) (size : ℕ) : (passes : ℕ) → State → Prop
  | 0, _ => True
  | pass + 1, s =>
    if s.file.currentsize < size then
      (a pass).ready = some 0 → CryptoFits a size pass (s.unlockFile.change (a pass).afterWait).lockFile
    else s.file.currentsize > size → size ≠ 0 → DownFits a pass s

/-- If there is a result, it has these locks. -/
def Holds (held : Held) (result : Option (State × ℤ)) : Prop := ∀ t ∈ result, t.1.held = held

theorem holds_some {held : Held} {t : State} {ret : ℤ} : Holds held (some (t, ret)) ↔ t.held = held := by
  unfold Holds
  simp

theorem truncateDown_iff (a : ℕ → CryptoAnswers) (passes : ℕ) (s : State) : Holds s.held (truncateDown a passes s) ↔ DownFits a passes s := by
  induction passes generalizing s with
  | zero => exact iff_of_true (fun t none => by cases none) trivial
  | succ pass ih =>
    unfold truncateDown DownFits
    by_cases inside : (s.file.newfile || (a pass).inside) = true
    · rw [if_pos inside, if_pos inside, holds_some]
      exact iff_of_true rfl trivial
    · rw [if_neg inside, if_neg inside]
      by_cases readFails : (a pass).read < 0
      · rw [if_pos readFails, holds_some]
        refine iff_of_false (fun same => ?_) fun both => absurd both.1 (by omega)
        have := congrArg Held.file same
        simp at this
      · rw [if_neg readFails, and_iff_right (by omega)]
        dsimp only
        have read : ((s.unlockFile.change (a pass).afterRead).lockFile).held = s.held := cycle_held s _
        generalize (s.unlockFile.change (a pass).afterRead).lockFile = afterRead at read ⊢
        by_cases changed : afterRead.file.writeid ≠ s.file.writeid
        · rw [if_pos changed, if_pos changed, ← read]
          exact ih afterRead
        · rw [if_neg changed, if_neg changed]
          by_cases writeFails : (a pass).write < 0
          · rw [if_pos writeFails, holds_some]
            refine iff_of_false (fun same => ?_) fun both => absurd both.1 (by omega)
            have := congrArg Held.file (same.trans read.symm)
            simp at this
          · rw [if_neg writeFails, and_iff_right (by omega)]
            have written : ((afterRead.unlockFile.change (a pass).afterWrite).lockFile).held = s.held := (cycle_held afterRead _).trans read
            generalize (afterRead.unlockFile.change (a pass).afterWrite).lockFile = afterWrite at written ⊢
            by_cases changed : afterWrite.file.writeid ≠ s.file.writeid
            · rw [if_pos changed, if_pos changed, ← written]
              exact ih afterWrite
            · rw [if_neg changed, if_neg changed, holds_some]
              exact iff_of_true written trivial

theorem cryptoTruncate_iff (a : ℕ → CryptoAnswers) (size passes : ℕ) (s : State) :
    Holds s.held (pfscryptoTruncate a size passes s) ↔ CryptoFits a size passes s := by
  induction passes generalizing s with
  | zero => exact iff_of_true (fun t none => by cases none) trivial
  | succ pass ih =>
    unfold pfscryptoTruncate CryptoFits
    by_cases up : s.file.currentsize < size
    · rw [if_pos up, if_pos up]
      cases (a pass).ready with
      | none => exact iff_of_true (holds_some.mpr rfl) fun no => by cases no
      | some err =>
        have waited : ((s.unlockFile.change (a pass).afterWait).lockFile).held = s.held := cycle_held s _
        dsimp only
        by_cases zero : err = 0
        · rw [zero, if_neg (not_not.mpr rfl), ← waited, ih]
          exact ⟨fun rest _ => rest, fun rest => rest rfl⟩
        · rw [if_pos zero, holds_some]
          exact iff_of_true waited fun same => absurd (Option.some.inj same) zero
    · rw [if_neg up, if_neg up]
      by_cases down : s.file.currentsize > size
      · rw [if_pos down]
        by_cases zero : size = 0
        · rw [if_pos zero, holds_some]
          exact iff_of_true rfl fun _ no => absurd zero no
        · rw [if_neg zero, truncateDown_iff]
          exact ⟨fun rest _ _ => rest, fun rest => rest down zero⟩
      · rw [if_neg down, holds_some]
        exact iff_of_true rfl fun yes => absurd yes down

/-- Each pass of a truncation that reopens the file meets the condition, and so does the truncation of an encrypted file. -/
def TruncateLoopFits (a : TruncateAnswers) (size : ℕ) : (passes : ℕ) → State → Prop
  | 0, _ => True
  | pass + 1, s =>
    let opened := if s.file.writable then (s, 0) else psyncFsReopenFileForWriting (a.reopen pass) s
    (s.file.writable = false → ReopenFits (a.reopen pass) s.file) ∧
      if opened.2 = 1 then TruncateLoopFits a size pass opened.1
      else opened.2 ≥ 0 → opened.1.file.encrypted = true → CryptoFits a.crypto size pass opened.1

theorem truncateLoop_iff (a : TruncateAnswers) (size passes : ℕ) (s : State) :
    Holds s.held (truncateLoop a size passes s) ↔ TruncateLoopFits a size passes s := by
  induction passes generalizing s with
  | zero => exact iff_of_true (fun t none => by cases none) trivial
  | succ pass ih =>
    unfold truncateLoop TruncateLoopFits
    dsimp only
    by_cases fits : s.file.writable = false → ReopenFits (a.reopen pass) s.file
    · have same : (if s.file.writable = true then (s, 0) else psyncFsReopenFileForWriting (a.reopen pass) s).1.held = s.held := by
        by_cases writable : s.file.writable = true
        · rw [if_pos writable]
        · rw [if_neg writable]
          exact reopen_kept (fits (by simpa using writable))
      rw [and_iff_right fits]
      generalize (if s.file.writable = true then (s, 0) else psyncFsReopenFileForWriting (a.reopen pass) s) = opened at same ⊢
      obtain ⟨t, ret⟩ := opened
      dsimp only at same ⊢
      by_cases again : ret = 1
      · rw [if_pos again, if_pos again, ← same]
        exact ih t
      · rw [if_neg again, if_neg again]
        by_cases negative : ret < 0
        · rw [if_pos negative, holds_some]
          exact iff_of_true same fun no => absurd no (by omega)
        · rw [if_neg negative]
          by_cases encrypted : t.file.encrypted = true
          · rw [if_pos encrypted, ← same, cryptoTruncate_iff]
            exact ⟨fun rest _ _ => rest, fun rest => rest (by omega) encrypted⟩
          · rw [if_neg encrypted, holds_some]
            exact iff_of_true same fun _ yes => absurd yes encrypted
    · obtain ⟨readOnly, fails⟩ := Classical.not_imp.mp fits
      obtain ⟨differs, negative⟩ := reopen_slips fails
      have notWritable : ¬s.file.writable = true := fun yes => absurd (yes.symm.trans readOnly) (by decide)
      rw [if_neg notWritable]
      generalize psyncFsReopenFileForWriting (a.reopen pass) s = opened at differs negative ⊢
      obtain ⟨t, ret⟩ := opened
      dsimp only at differs negative ⊢
      rw [if_neg (by omega), if_pos negative, holds_some]
      exact iff_of_false differs fun both => fits both.1

/-- The condition on a truncation. -/
def TruncateFits (a : TruncateAnswers) (size passes : ℕ) (s : State) : Prop :=
  s.file.currentsize ≠ size → TruncateLoopFits a size passes (psyncFsIncWriteidLocked a.writeid s.lockFile)

theorem truncate_iff (a : TruncateAnswers) (size passes : ℕ) (s : State) :
    Leaves s.held (psyncFsFtruncate a size passes s) ↔ TruncateFits a size passes s := by
  have back : s.lockFile.unlockFile.held = s.held := by simp
  have counted : (psyncFsIncWriteidLocked a.writeid s.lockFile).held = s.lockFile.held := incWriteid_kept _ _
  unfold psyncFsFtruncate psyncFsFtruncateOfLocked TruncateFits
  by_cases same : s.file.currentsize = size
  · rw [lockFile_file, if_pos same]
    exact iff_of_true back fun differs => absurd same differs
  · rw [lockFile_file, if_neg same, ← truncateLoop_iff, counted]
    cases truncateLoop a size passes (psyncFsIncWriteidLocked a.writeid s.lockFile) with
    | none => exact iff_of_true trivial fun _ t none => by cases none
    | some result =>
      obtain ⟨t, ret⟩ := result
      rw [holds_some, ← unlockFile_inj, back]
      exact ⟨fun left _ => left, fun left => left same⟩

end Truncate

section Balance

/-- A call that returns leaves each lock as it was before, exactly if these conditions hold. -/
theorem balanced_iff (write : WriteAnswers) (truncate : TruncateAnswers) (size offset passes : ℕ) (s : State) :
    (Leaves s.held (psyncFsWrite write size offset passes s) ↔ WriteFits write size offset passes s) ∧
      (Leaves s.held (psyncFsFtruncate truncate size passes s) ↔ TruncateFits truncate size passes s) :=
  ⟨write_iff write size offset passes s, truncate_iff truncate size passes s⟩

/-- An encrypted file whose encoder is not loaded. -/
def sealed : File where
  newfile := false
  modified := false
  staticfile := false
  encrypted := true
  unloaded := true
  releasedforupload := false
  throttle := false
  initialsize := 10
  currentsize := 10
  writeid := 1

/-- There is no connection to get the encoder with. -/
def offline : Answers where
  encoder := some .cantConnect
  afterEncoder := id
  busy := false
  afterLock := id
  expired := false
  key := none
  allPages := false
  pagesFree := false
  created := true
  opened := 0
  seeks := true
  copied := true

/-- An empty file that is not encrypted. -/
def blank : File := { sealed with encrypted := false, unloaded := false, initialsize := 0, currentsize := 0 }

/-- The task of the file is not created. -/
def noTask : Answers := { offline with encoder := none, created := false }

def free : Held := { file := 0, sql := 0, pages := 0 }

def answering (reopen : Answers) : WriteAnswers where
  space := { freespc := none, minlocal := 0, uploadspeed := 0, pages := (0, 0), inside := false, change := id }
  writeid := { busy := false, change := id }
  passes _ := {
    reopen := reopen
    static := { busy := false, afterLock := id, created := true, opened := 0, written := true }
    wrote := 1 }

/-- Without a connection the mutex of the file is released twice. With no task for an empty file the lock of the page cache is
released although it was not taken. -/
theorem unbalanced :
    ¬Leaves free (psyncFsWrite (answering offline) 1 0 1 { file := sealed, held := free }) ∧
      ¬Leaves free (psyncFsWrite (answering noTask) 1 0 1 { file := blank, held := free }) := by
  constructor
  · intro twice
    exact absurd (congrArg Held.file twice) (by decide)
  · intro released
    exact absurd (congrArg Held.pages released) (by decide)

end Balance

end Pclsync.Proofs.Reopen
