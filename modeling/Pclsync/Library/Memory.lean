import Mathlib.Data.List.TakeWhile
import Mathlib.Data.Nat.Notation

/-! Byte buffers with their bounds. An access outside of a buffer is a fault,
so a computation that ends with `ok` has made none. -/

namespace Pclsync.Library

inductive Fault where
  | read
  | write
deriving DecidableEq, Repr

abbrev Checked := Except Fault

@[simp] theorem ok_bind {ε α β : Type} (value : α) (next : α → Except ε β) :
    ((Except.ok value : Except ε α) >>= next) = next value := rfl

@[simp] theorem error_bind {ε α β : Type} (stop : ε) (next : α → Except ε β) :
    ((Except.error stop : Except ε α) >>= next) = .error stop := rfl

/-- `count` bytes from `offset` on. -/
def readAt (src : List UInt8) (offset count : ℕ) : Checked (List UInt8) :=
  if offset + count ≤ src.length then .ok ((src.drop offset).take count) else .error .read

def readByte (src : List UInt8) (offset : ℕ) : Checked UInt8 :=
  if inside : offset < src.length then .ok src[offset] else .error .read

/-- The number of bytes before the first zero byte at or after `offset`. -/
def strlenAt (src : List UInt8) (offset : ℕ) : Checked ℕ :=
  if 0 ∈ src.drop offset then .ok ((src.drop offset).takeWhile (· ≠ 0)).length else .error .read

/-- An allocated block that is filled from its start. -/
structure Buffer (size : ℕ) where
  bytes : List UInt8
  fits : bytes.length ≤ size

namespace Buffer
variable {size : ℕ}

def malloc (size : ℕ) : Buffer size := ⟨[], Nat.zero_le size⟩

def put (buffer : Buffer size) (src : List UInt8) : Checked (Buffer size) :=
  if room : buffer.bytes.length + src.length ≤ size then
    .ok ⟨buffer.bytes ++ src, by rw [List.length_append]; exact room⟩
  else .error .write

@[simp] theorem bytes_malloc : (malloc size).bytes = [] := rfl

theorem put_ok (buffer : Buffer size) (src : List UInt8) (room : buffer.bytes.length + src.length ≤ size) :
    ∃ after : Buffer size, buffer.put src = .ok after ∧ after.bytes = buffer.bytes ++ src := by
  refine ⟨⟨buffer.bytes ++ src, by rw [List.length_append]; exact room⟩, ?_, rfl⟩
  rw [put, dif_pos room]

end Buffer

section
variable {src : List UInt8} {offset count : ℕ}

theorem readAt_ok (inside : offset + count ≤ src.length) :
    readAt src offset count = .ok ((src.drop offset).take count) := if_pos inside

theorem readAt_zero : readAt src 0 count = if count ≤ src.length then .ok (src.take count) else .error .read := by
  rw [readAt, Nat.zero_add, List.drop_zero]

theorem readByte_ok (inside : offset < src.length) : readByte src offset = .ok src[offset] := dif_pos inside

theorem strlenAt_append (text rest : List UInt8) (at_text : src.drop offset = text ++ 0 :: rest) (noNul : 0 ∉ text) :
    strlenAt src offset = .ok text.length := by
  have whole : (text ++ 0 :: rest).takeWhile (· ≠ 0) = text := by
    rw [List.takeWhile_append_of_pos (fun byte inside => by
      simpa using fun zero : byte = 0 => noNul (zero ▸ inside))]
    simp
  rw [strlenAt, at_text, if_pos (by simp), whole]

theorem strlenAt_ok (src : List UInt8) (offset : ℕ) (terminated : 0 ∈ src.drop offset) :
    ∃ len, strlenAt src offset = .ok len ∧ offset + len < src.length := by
  refine ⟨_, if_pos terminated, ?_⟩
  have bound : ((src.drop offset).takeWhile (· ≠ 0)).length < (src.drop offset).length := by
    apply Nat.lt_of_le_of_ne (List.takeWhile_prefix _).length_le
    intro full
    have all := (List.takeWhile_prefix (· ≠ (0 : UInt8))).eq_of_length full
    have nonzero := List.takeWhile_eq_self_iff.mp all 0 terminated
    simp at nonzero
  rw [List.length_drop] at bound
  omega

end
end Pclsync.Library
