import Mathlib

/-! Files as byte strings with the calls that read, write and resize them. A
file is known by its length and its bytes; both are given for every call. -/

namespace Pclsync.Library

abbrev File := List UInt8

namespace File

/-- `pread`: what there is of `count` bytes from `offset` on. -/
def pread (file : File) (offset count : ℕ) : List UInt8 := (file.drop offset).take count

/-- `ftruncate`: shorter, or longer with zero bytes. -/
def resize (len : ℕ) (file : File) : File := file.take len ++ List.replicate (len - file.length) 0

/-- `pwrite`: a gap before `offset` is filled with zero bytes, and writing
nothing does not change the length. -/
def pwrite (offset : ℕ) (bytes : List UInt8) (file : File) : File :=
  if bytes = [] then file
  else (resize (max offset file.length) file).take offset ++ bytes ++ file.drop (offset + bytes.length)

/-- A byte, or zero behind the end. -/
def byteAt (file : File) (index : ℕ) : UInt8 := file.getD index 0

section
variable {file other : File} {len offset index : ℕ} {bytes : List UInt8}

theorem ext (sameLength : file.length = other.length) (sameBytes : ∀ index, file.byteAt index = other.byteAt index) :
    file = other := by
  apply List.ext_getElem sameLength
  intro index inside alsoInside
  have same := sameBytes index
  rwa [byteAt, byteAt, List.getD_eq_getElem _ _ inside, List.getD_eq_getElem _ _ alsoInside] at same

theorem byteAt_past (past : file.length ≤ index) : file.byteAt index = 0 := List.getD_eq_default _ _ past

theorem byteAt_append : byteAt (file ++ other) index =
    if index < file.length then file.byteAt index else other.byteAt (index - file.length) := by
  split
  · exact List.getD_append _ _ _ _ ‹_›
  · exact List.getD_append_right _ _ _ _ (by omega)

theorem byteAt_take : byteAt (file.take len) index = if index < len then file.byteAt index else 0 := by
  simp only [byteAt, List.getD_eq_getElem?_getD, List.getElem?_take]
  split <;> rfl

theorem byteAt_drop : byteAt (file.drop len) index = file.byteAt (len + index) := by
  simp only [byteAt, List.getD_eq_getElem?_getD, List.getElem?_drop]

theorem byteAt_zeros : byteAt (List.replicate len 0) index = 0 := by
  simp only [byteAt, List.getD_eq_getElem?_getD, List.getElem?_replicate]
  split <;> rfl

@[simp] theorem length_resize : (resize len file).length = len := by
  simp only [resize, List.length_append, List.length_take, List.length_replicate]
  omega

theorem byteAt_resize : (resize len file).byteAt index = if index < len then file.byteAt index else 0 := by
  rw [resize, byteAt_append, byteAt_take, byteAt_zeros, List.length_take]
  by_cases kept : index < file.length
  · by_cases inside : index < len
    · rw [if_pos (by omega), if_pos inside]
    · rw [if_neg (by omega), if_neg inside]
  · rw [if_neg (by omega), byteAt_past (Nat.not_lt.mp kept), ite_self]

@[simp] theorem length_pwrite : (pwrite offset bytes file).length =
    if bytes = [] then file.length else max file.length (offset + bytes.length) := by
  rw [pwrite]
  split
  · rfl
  · simp only [List.length_append, List.length_take, length_resize, List.length_drop]
    omega

theorem byteAt_pwrite : (pwrite offset bytes file).byteAt index =
    if offset ≤ index ∧ index < offset + bytes.length then bytes.getD (index - offset) 0 else file.byteAt index := by
  rw [pwrite]
  split
  · next empty =>
    subst empty
    rw [if_neg (by simp)]
  · have front : ((resize (max offset file.length) file).take offset).length = offset := by
      rw [List.length_take, length_resize]
      omega
    rw [List.append_assoc, byteAt_append, front]
    by_cases before : index < offset
    · rw [if_pos before, if_neg (by omega), byteAt_take, if_pos before, byteAt_resize, if_pos (by omega)]
    · rw [if_neg before, byteAt_append]
      by_cases inside : index - offset < bytes.length
      · rw [if_pos inside, if_pos (by omega)]
        rfl
      · rw [if_neg inside, if_neg (by omega), byteAt_drop]
        congr 1
        omega

theorem pwrite_zero (nonempty : bytes ≠ []) : pwrite 0 bytes file = bytes ++ file.drop bytes.length := by
  rw [pwrite, if_neg nonempty, List.take_zero, List.nil_append, Nat.zero_add]

/-- A write at the end. -/
theorem pwrite_end : pwrite file.length bytes file = file ++ bytes := by
  rw [pwrite]
  split
  next empty => rw [empty, List.append_nil]
  next => rw [max_self, List.drop_eq_nil_of_le (Nat.le_add_right _ _), List.append_nil, resize, Nat.sub_self, List.replicate_zero,
    List.append_nil, List.take_length, List.take_length]

theorem byteAt_pread {count : ℕ} (below : index < count) : byteAt (pread file offset count) index =
    file.byteAt (offset + index) := by
  rw [pread, byteAt_take, if_pos below, byteAt_drop]

@[simp] theorem length_pread {count : ℕ} : (pread file offset count).length = min count (file.length - offset) := by
  rw [pread, List.length_take, List.length_drop]

end
end File
end Pclsync.Library
