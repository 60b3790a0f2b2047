import Pclsync.Library.Memory

/-! Allocated blocks whose bytes are not written yet. To read such a byte is a fault, as it is to leave the block. -/

namespace Pclsync.Library

abbrev Cells := List (Option UInt8)

namespace Cells

def malloc (size : ℕ) : Cells := List.replicate size none

def store (cells : Cells) (place : ℕ) (byte : UInt8) : Checked Cells :=
  if place < cells.length then .ok (cells.set place (some byte)) else .error .write

def load (cells : Cells) (place : ℕ) : Checked UInt8 := (cells.getD place none).elim (.error .read) .ok

/-- Bytes that are written, and room for more. -/
def filled (bytes : List UInt8) (spare : ℕ) : Cells := bytes.map some ++ malloc spare

variable {cells : Cells} {bytes : List UInt8} {byte : UInt8} {place spare : ℕ}

theorem malloc_eq (size : ℕ) : malloc size = filled [] size := rfl

@[simp] theorem length_filled : (filled bytes spare).length = bytes.length + spare := by
  rw [filled, malloc, List.length_append, List.length_map, List.length_replicate]

theorem take_filled : (filled bytes spare).take bytes.length = bytes.map some :=
  List.take_left' (List.length_map some)

/-- The byte after the written ones. -/
theorem store_next : (filled bytes (spare + 1)).store bytes.length byte = .ok (filled (bytes ++ [byte]) spare) := by
  have inside : bytes.length < (filled bytes (spare + 1)).length := by
    rw [length_filled]
    omega
  rw [store, if_pos inside, filled, malloc, List.replicate_succ, List.set_append_right _ _ (by rw [List.length_map]),
    List.length_map, Nat.sub_self, List.set_cons_zero, filled, malloc, List.map_append, List.append_assoc]
  rfl

/-- The last of the written bytes. -/
theorem store_last {part : UInt8} : (filled (bytes ++ [part]) spare).store bytes.length byte = .ok (filled (bytes ++ [byte]) spare) := by
  have inside : bytes.length < (filled (bytes ++ [part]) spare).length := by
    rw [length_filled, List.length_append, List.length_singleton]
    omega
  have same : ∀ last : UInt8, filled (bytes ++ [last]) spare = bytes.map some ++ some last :: malloc spare := fun last => by
    rw [filled, List.map_append, List.append_assoc]
    rfl
  rw [store, if_pos inside, same, List.set_append_right _ _ (by rw [List.length_map]), List.length_map, Nat.sub_self,
    List.set_cons_zero, same]

theorem load_last {part : UInt8} : (filled (bytes ++ [part]) spare).load bytes.length = .ok part := by
  have found : (filled (bytes ++ [part]) spare)[bytes.length]? = some (some part) := by
    rw [filled, List.map_append, List.append_assoc, List.getElem?_append_right (by rw [List.length_map]), List.length_map, Nat.sub_self]
    rfl
  rw [load, List.getD_eq_getElem?_getD, found]
  rfl

end Cells
end Pclsync.Library
