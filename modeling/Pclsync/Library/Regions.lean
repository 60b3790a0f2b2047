import Pclsync.Library.Memory
import Mathlib

/-! Memory that holds bytes and pointers. A pointer is read only where it was written as a whole. -/

namespace Pclsync.Library

inductive Cell (π : Type) where
  | undefined
  | byte (value : UInt8)
  | part (pointer : π) (index : ℕ)
deriving DecidableEq, Repr

abbrev Region (π : Type) := List (Cell π)

namespace Region

variable {π : Type}

def malloc (size : ℕ) : Region π := List.replicate size .undefined

def ofBytes (bytes : List UInt8) : Region π := bytes.map .byte

def slice (cells : Region π) (place count : ℕ) : Region π := (cells.drop place).take count

def overwrite (cells : Region π) (place : ℕ) (src : Region π) : Region π := cells.take place ++ src ++ cells.drop (place + src.length)

def read (cells : Region π) (place count : ℕ) : Checked (Region π) :=
  if place + count ≤ cells.length then .ok (cells.slice place count) else .error .read

def write (cells : Region π) (place : ℕ) (src : Region π) : Checked (Region π) :=
  if place + src.length ≤ cells.length then .ok (cells.overwrite place src) else .error .write

/-- The width of a pointer. -/
def width : ℕ := 8

def parts (pointer : π) : Region π := (List.range width).map (.part pointer)

/-- The pointer of which the cells are all parts. -/
def pointerOf [DecidableEq π] : Region π → Option π
  | .part pointer index :: rest => if .part pointer index :: rest = parts pointer then some pointer else none
  | _ => none

variable [DecidableEq π]

def readPointer (cells : Region π) (place : ℕ) : Checked π := do
  (pointerOf (← cells.read place width)).elim (.error .read) .ok

def writePointer (cells : Region π) (place : ℕ) (pointer : π) : Checked (Region π) := cells.write place (parts pointer)

variable {cells src front middle behind : Region π} {place other count offset index : ℕ} {pointer old : π}

omit [DecidableEq π] in
@[simp] theorem length_malloc (size : ℕ) : (malloc size : Region π).length = size := List.length_replicate

omit [DecidableEq π] in
@[simp] theorem length_parts (pointer : π) : (parts pointer).length = width := by rw [parts, List.length_map, List.length_range]

omit [DecidableEq π] in
@[simp] theorem length_ofBytes (bytes : List UInt8) : (ofBytes bytes : Region π).length = bytes.length := List.length_map _

omit [DecidableEq π] in
theorem length_overwrite (inside : place + src.length ≤ cells.length) : (cells.overwrite place src).length = cells.length := by
  rw [overwrite, List.length_append, List.length_append, List.length_take, List.length_drop]
  omega

@[simp] theorem pointerOf_parts (pointer : π) : pointerOf (parts pointer) = some pointer := by
  simp [parts, width, List.range_succ, pointerOf]

omit [DecidableEq π] in
theorem getElem?_overwrite_before (before : index < place) (inside : place ≤ cells.length) : (cells.overwrite place src)[index]? = cells[index]? := by
  rw [overwrite, List.append_assoc, List.getElem?_append_left (by rw [List.length_take]; omega), List.getElem?_take_of_lt before]

omit [DecidableEq π] in
theorem getElem?_overwrite_behind (behind : place + src.length ≤ index) (inside : place ≤ cells.length) :
    (cells.overwrite place src)[index]? = cells[index]? := by
  have front : (cells.take place ++ src).length = place + src.length := by
    rw [List.length_append, List.length_take, Nat.min_eq_left inside]
  rw [overwrite, List.getElem?_append_right (by omega), front, List.getElem?_drop, Nat.add_sub_of_le behind]

omit [DecidableEq π] in
theorem slice_overwrite (inside : place ≤ cells.length) : (cells.overwrite place src).slice place src.length = src := by
  rw [slice, overwrite, List.append_assoc, List.drop_left' (by rw [List.length_take]; omega), List.take_left]

omit [DecidableEq π] in
theorem slice_overwrite_other (apart : other + count ≤ place ∨ place + src.length ≤ other) (inside : place ≤ cells.length) :
    (cells.overwrite place src).slice other count = cells.slice other count := by
  apply List.ext_getElem?
  intro index
  rw [slice, slice, List.getElem?_take, List.getElem?_take]
  split
  · rw [List.getElem?_drop, List.getElem?_drop]
    obtain before | behind := apart
    · exact getElem?_overwrite_before (by omega) inside
    · exact getElem?_overwrite_behind (by omega) inside
  · rfl

omit [DecidableEq π] in
/-- What is written in the middle leaves both ends. -/
theorem overwrite_append (inside : offset + src.length ≤ middle.length) :
    (front ++ middle ++ behind).overwrite (front.length + offset) src = front ++ middle.overwrite offset src ++ behind := by
  rw [overwrite, overwrite, List.append_assoc front middle behind, List.take_length_add_append, Nat.add_assoc, List.drop_length_add_append,
    List.take_append_of_le_length (Nat.le_of_add_right_le inside), List.drop_append_of_le_length inside]
  simp only [List.append_assoc]

omit [DecidableEq π] in
theorem write_append (inside : offset + src.length ≤ middle.length) :
    (front ++ middle ++ behind).write (front.length + offset) src = .ok (front ++ middle.overwrite offset src ++ behind) := by
  rw [write, if_pos (by rw [List.length_append, List.length_append]; omega), overwrite_append inside]

omit [DecidableEq π] in
/-- A whole part that is written. -/
theorem write_middle (same : src.length = middle.length) : (front ++ middle ++ behind).write front.length src = .ok (front ++ src ++ behind) := by
  have whole := @write_append π src front middle behind 0 (by omega)
  rw [Nat.add_zero] at whole
  rw [whole, overwrite, List.take_zero, Nat.zero_add, List.drop_eq_nil_of_le (by omega), List.nil_append, List.append_nil]

omit [DecidableEq π] in
theorem read_append (inside : offset + count ≤ middle.length) :
    (front ++ middle ++ behind).read (front.length + offset) count = middle.read offset count := by
  rw [read, read, if_pos (by rw [List.length_append, List.length_append]; omega), if_pos inside, slice, slice, List.append_assoc,
    List.drop_length_add_append, List.drop_append_of_le_length (Nat.le_of_add_right_le inside),
    List.take_append_of_le_length (by rw [List.length_drop]; omega)]

theorem readPointer_append (inside : offset + width ≤ middle.length) :
    (front ++ middle ++ behind).readPointer (front.length + offset) = middle.readPointer offset := by
  rw [readPointer, readPointer, read_append inside]

theorem inside_of_readPointer (read : cells.readPointer place = .ok pointer) : place + width ≤ cells.length := by
  by_contra outside
  rw [readPointer, Region.read, if_neg outside] at read
  cases read

theorem readPointer_overwrite (inside : place + width ≤ cells.length) (pointer : π) :
    (cells.overwrite place (parts pointer)).readPointer place = .ok pointer := by
  have length := @length_overwrite π cells (parts pointer) place (by rwa [length_parts])
  have found := @slice_overwrite π cells (parts pointer) place (Nat.le_of_add_right_le inside)
  rw [length_parts] at found
  rw [readPointer, read, if_pos (by rwa [length]), found, ok_bind, pointerOf_parts]
  rfl

theorem readPointer_overwrite_other (apart : other + width ≤ place ∨ place + src.length ≤ other) (inside : place + src.length ≤ cells.length) :
    (cells.overwrite place src).readPointer other = cells.readPointer other := by
  rw [readPointer, readPointer, read, read, length_overwrite inside, slice_overwrite_other apart (Nat.le_of_add_right_le inside)]

theorem readPointer_parts (pointer : π) : (parts pointer).readPointer 0 = .ok pointer := by
  rw [readPointer, read, if_pos (by rw [length_parts, Nat.zero_add]), slice, List.drop_zero, ok_bind, List.take_of_length_le (by rw [length_parts]),
    pointerOf_parts]
  rfl

end Region
end Pclsync.Library
