import Pclsync.Library.Decimal
import Pclsync.Library.Memory
import Mathlib

/-! A file that is in the way of a download gets another name. The place of the mark is looked for from the end of the path. -/

namespace Pclsync.Paths.Conflict
open Library

abbrev Bytes := List UInt8

def text (s : String) : Bytes := s.toList.map fun char => char.toNat.toUInt8

/-- `'.'` -/
def dot : UInt8 := 46

/-- `'/'` -/
def slash : UInt8 := 47

/-- The name in its folder, and the folder with the slash that ends it. -/
def baseName (path : Bytes) : Bytes := (path.reverse.takeWhile (· ≠ slash)).reverse
def dirPart (path : Bytes) : Bytes := (path.reverse.dropWhile (· ≠ slash)).reverse

/-- The names for which `stat` succeeds, and the folders. What is there has a name and is in a folder. -/
structure Files where
  present : Bytes → Bool
  directory : Bytes → Bool
  named : ∀ path, present path = true → baseName path ≠ []
  inside : ∀ path, present path = true → directory (dirPart path) = true

/-- What `rename` leaves of the names. -/
def moved (present : Bytes → Bool) (oldpath newpath : Bytes) : Bytes → Bool :=
  Function.update (Function.update present oldpath false) newpath true

/-- `pfile_rename`, of a file that is there: `none` is an error. -/
def pfileRename (files : Files) (oldpath newpath : Bytes) : Option Files :=
  if target : files.present oldpath = true ∧ files.directory (dirPart newpath) = true ∧ baseName newpath ≠ [] then
    some {
      present := moved files.present oldpath newpath
      directory := files.directory
      named := fun path found => by
        by_cases new : path = newpath
        · exact new ▸ target.2.2
        · rw [moved, Function.update_of_ne new] at found
          by_cases old : path = oldpath
          · exact old ▸ files.named oldpath target.1
          · rw [Function.update_of_ne old] at found
            exact files.named path found
      inside := fun path found => by
        by_cases new : path = newpath
        · exact new ▸ target.2.1
        · rw [moved, Function.update_of_ne new] at found
          by_cases old : path = oldpath
          · exact old ▸ files.inside oldpath target.1
          · rw [Function.update_of_ne old] at found
            exact files.inside path found }
  else none

/-- The loop that looks for the dot. At the end of the path is its terminator. -/
def findDot (path : Bytes) : ℕ → ℕ
  | 0 => 0
  | dotidx + 1 => if path[dotidx + 1]? = some dot then dotidx + 1 else findDot path dotidx

def dotIndex (path : Bytes) : ℕ :=
  let dotidx := findDot path path.length
  if dotidx = 0 then path.length else dotidx

/-- What is put at the index of the dot. -/
def conflictMark (num : ℕ) : Bytes :=
  if num = 0 then text " (conflicted)"
  else text " (conflicted " ++ (decimal num).map (fun digit => (48 + digit).toUInt8) ++ text ")"

theorem length_conflictMark (num : ℕ) : (conflictMark num).length = if num = 0 then 13 else 14 + (decimal num).length := by
  unfold conflictMark
  split
  · rfl
  · rw [List.length_append, List.length_append, List.length_map]
    change 13 + _ + 1 = _
    omega

/-- The mark fits as long as the number has no more than 17 digits. -/
theorem room_iff {num : ℕ} : (conflictMark num).length < 32 ↔ num < 10 ^ 17 := by
  rw [length_conflictMark, Decimal.length_decimal]
  split
  · omega
  next positive =>
    have digits : Nat.log 10 num < 17 ↔ num < 10 ^ 17 := Nat.log_lt_iff_lt_pow (by decide) positive
    omega

/-- The loop over the numbers. The block has 32 bytes more than the path. -/
def search (stat : Bytes → Bool) (path : Bytes) (dotidx num : ℕ) : Checked Bytes :=
  let mark := conflictMark num
  if room : mark.length < 32 then
    let npath := path.take dotidx ++ mark ++ path.drop dotidx
    if stat npath = true then search stat path dotidx (num + 1) else .ok npath
  else .error .write
termination_by 10 ^ 17 - num
decreasing_by
  have := room_iff.mp room
  omega

/-- `psync_rename_conflicted_file` -/
def renameConflictedFile (files : Files) (path : Bytes) : Checked (Option Files) := do
  let npath ← search files.present path (dotIndex path) 0
  return pfileRename files path npath

end Pclsync.Paths.Conflict
