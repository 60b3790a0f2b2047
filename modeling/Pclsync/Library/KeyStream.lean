import Pclsync.Library.BlockCipher

/-! Stream ciphers made of numbered key blocks. A buffer is masked with the
stream from its own offset on, so the pieces of a buffer are masked alike alone
and together. -/

namespace Pclsync.Library

/-- One key block of `width` bytes for every counter. -/
structure KeyStream (width : ℕ) where
  block : ℕ → List UInt8
  length_block : ∀ counter, (block counter).length = width

namespace KeyStream
variable {width : ℕ} (stream : KeyStream width)

/-- The `count` bytes of the stream from `offset` on. -/
def bytes (offset count : ℕ) : List UInt8 :=
  (List.range count).map fun index => (stream.block ((offset + index) / width)).getD ((offset + index) % width) 0

/-- A buffer that stands at `offset` of the stream, masked. -/
def mask (offset : ℕ) (data : List UInt8) : List UInt8 := xorBytes data (stream.bytes offset data.length)

@[simp] theorem length_bytes (offset count : ℕ) : (stream.bytes offset count).length = count := by
  rw [bytes, List.length_map, List.length_range]

@[simp] theorem length_mask (offset : ℕ) (data : List UInt8) : (stream.mask offset data).length = data.length := by
  rw [mask, length_xorBytes, length_bytes, Nat.min_self]

@[simp] theorem mask_nil (offset : ℕ) : stream.mask offset [] = [] := rfl

theorem bytes_add (offset first second : ℕ) :
    stream.bytes offset (first + second) = stream.bytes offset first ++ stream.bytes (offset + first) second := by
  simp only [bytes, List.range_add, List.map_append, List.map_map]
  congr 1
  apply List.map_congr_left
  intro index _
  simp only [Function.comp, Nat.add_assoc]

theorem mask_append (offset : ℕ) (first second : List UInt8) :
    stream.mask offset (first ++ second) = stream.mask offset first ++ stream.mask (offset + first.length) second := by
  rw [mask, List.length_append, bytes_add, xorBytes_append (by rw [length_bytes])]
  rfl

theorem mask_mask (offset : ℕ) (data : List UInt8) : stream.mask offset (stream.mask offset data) = data := by
  have enough : data.length ≤ (stream.bytes offset data.length).length := by rw [length_bytes]
  rw [mask, length_mask, mask, xorBytes_cancel enough]

/-- Inside one block the stream is a piece of that block. -/
theorem bytes_within {offset count : ℕ} (inside : offset % width + count ≤ width) :
    stream.bytes offset count = ((stream.block (offset / width)).drop (offset % width)).take count := by
  have length := stream.length_block (offset / width)
  apply List.ext_getElem
  · rw [length_bytes, List.length_take, List.length_drop, length]
    omega
  · intro index bound _
    rw [length_bytes] at bound
    have small : offset % width + index < width := by omega
    have split : offset + index = offset % width + index + width * (offset / width) := by
      have := Nat.mod_add_div offset width
      omega
    have counter : (offset + index) / width = offset / width := by
      rw [split, Nat.add_mul_div_left _ _ (by omega), Nat.div_eq_of_lt small, Nat.zero_add]
    have place : (offset + index) % width = offset % width + index := by
      rw [split, Nat.add_mul_mod_self_left, Nat.mod_eq_of_lt small]
    rw [List.getElem_take, List.getElem_drop]
    simp only [bytes, List.getElem_map, List.getElem_range, counter, place]
    rw [List.getD_eq_getElem _ _ (by omega)]

end KeyStream
end Pclsync.Library
