import Mathlib

/-! Block ciphers over byte strings and the chaining mode built on them. The
cipher is a parameter; all that is used of it is that decryption undoes
encryption on whole blocks. -/

namespace Pclsync.Library

/-- Bytewise exclusive or, as long as the shorter argument. -/
def xorBytes (first second : List UInt8) : List UInt8 := List.zipWith (· ^^^ ·) first second

section
variable {first second third : List UInt8}

@[simp] theorem length_xorBytes : (xorBytes first second).length = min first.length second.length :=
  List.length_zipWith

theorem xorBytes_comm (first second : List UInt8) : xorBytes first second = xorBytes second first :=
  List.zipWith_comm_of_comm (fun a b => UInt8.xor_comm a b)

theorem xorBytes_cancel (enough : first.length ≤ second.length) : xorBytes (xorBytes first second) second = first := by
  induction first generalizing second with
  | nil => simp [xorBytes]
  | cons byte first ih =>
    cases second with
    | nil => simp at enough
    | cons key second =>
      have rest := ih (Nat.le_of_succ_le_succ enough)
      simp only [xorBytes, List.zipWith_cons_cons] at rest ⊢
      rw [rest, UInt8.xor_assoc, UInt8.xor_self, UInt8.xor_zero]

theorem xorBytes_cancel_left (enough : second.length ≤ first.length) :
    xorBytes first (xorBytes first second) = second := by
  rw [xorBytes_comm first second, xorBytes_comm, xorBytes_cancel enough]

theorem xorBytes_append {more other : List UInt8} (same : first.length = second.length) :
    xorBytes (first ++ more) (second ++ other) = xorBytes first second ++ xorBytes more other :=
  List.zipWith_append same

theorem take_xorBytes (count : ℕ) : (xorBytes first second).take count = xorBytes (first.take count) (second.take count) :=
  List.take_zipWith

theorem drop_xorBytes (count : ℕ) : (xorBytes first second).drop count = xorBytes (first.drop count) (second.drop count) :=
  List.drop_zipWith

end

/-- A cipher on blocks of `width` bytes, under one key. -/
structure BlockCipher (width : ℕ) where
  encrypt : List UInt8 → List UInt8
  decrypt : List UInt8 → List UInt8
  length_encrypt : ∀ block, block.length = width → (encrypt block).length = width
  length_decrypt : ∀ block, block.length = width → (decrypt block).length = width
  decrypt_encrypt : ∀ block, block.length = width → decrypt (encrypt block) = block

namespace BlockCipher
variable {width : ℕ} (cipher : BlockCipher width)

/-- The cipher that does nothing shows that the laws can be met. -/
instance : Inhabited (BlockCipher width) := ⟨⟨id, id, fun _ => id, fun _ => id, fun _ _ => rfl⟩⟩

/-- Cipher block chaining: a block is masked with the ciphertext before it. -/
def chainEncrypt (chain : List UInt8) : List (List UInt8) → List (List UInt8)
  | [] => []
  | block :: blocks =>
    let out := cipher.encrypt (xorBytes chain block)
    out :: chainEncrypt out blocks

def chainDecrypt (chain : List UInt8) : List (List UInt8) → List (List UInt8)
  | [] => []
  | block :: blocks => xorBytes (cipher.decrypt block) chain :: chainDecrypt block blocks

variable {cipher} {chain : List UInt8} {blocks : List (List UInt8)}

theorem length_chainEncrypt : (cipher.chainEncrypt chain blocks).length = blocks.length := by
  induction blocks generalizing chain with
  | nil => rfl
  | cons block blocks ih => simp only [chainEncrypt, List.length_cons, ih]

variable (cipher) in
theorem chainEncrypt_whole (start : chain.length = width) (whole : ∀ block ∈ blocks, block.length = width) :
    ∀ block ∈ cipher.chainEncrypt chain blocks, block.length = width := by
  induction blocks generalizing chain with
  | nil => simp [chainEncrypt]
  | cons block blocks ih =>
    have first : (cipher.encrypt (xorBytes chain block)).length = width := by
      apply cipher.length_encrypt
      simp [start, whole block (by simp)]
    intro out member
    rcases List.mem_cons.mp member with rfl | rest
    · exact first
    · exact ih first (fun other inside => whole other (by simp [inside])) out rest

theorem length_chainDecrypt : (cipher.chainDecrypt chain blocks).length = blocks.length := by
  induction blocks generalizing chain with
  | nil => rfl
  | cons block blocks ih => simp only [chainDecrypt, List.length_cons, ih]

theorem chainDecrypt_whole (start : chain.length = width) (whole : ∀ block ∈ blocks, block.length = width) :
    ∀ block ∈ cipher.chainDecrypt chain blocks, block.length = width := by
  induction blocks generalizing chain with
  | nil => simp [chainDecrypt]
  | cons block blocks ih =>
    have own := whole block (by simp)
    intro out member
    rcases List.mem_cons.mp member with rfl | rest
    · rw [length_xorBytes, cipher.length_decrypt _ own, start, Nat.min_self]
    · exact ih own (fun other inside => whole other (by simp [inside])) out rest

theorem chainDecrypt_chainEncrypt (start : chain.length = width) (whole : ∀ block ∈ blocks, block.length = width) :
    cipher.chainDecrypt chain (cipher.chainEncrypt chain blocks) = blocks := by
  induction blocks generalizing chain with
  | nil => rfl
  | cons block blocks ih =>
    have own := whole block (by simp)
    have masked : (xorBytes chain block).length = width := by simp [start, own]
    have first := cipher.length_encrypt _ masked
    simp only [chainEncrypt, chainDecrypt, cipher.decrypt_encrypt _ masked]
    rw [ih first (fun other inside => whole other (by simp [inside])), xorBytes_comm chain,
      xorBytes_cancel (by rw [own, start])]

theorem chainEncrypt_append (more : List (List UInt8)) :
    cipher.chainEncrypt chain (blocks ++ more) = cipher.chainEncrypt chain blocks ++
      cipher.chainEncrypt ((cipher.chainEncrypt chain blocks).getLastD chain) more := by
  induction blocks generalizing chain with
  | nil => rfl
  | cons block blocks ih =>
    simp only [List.cons_append, chainEncrypt, ih, List.getLastD_cons]

theorem chainDecrypt_append (more : List (List UInt8)) :
    cipher.chainDecrypt chain (blocks ++ more) = cipher.chainDecrypt chain blocks ++
      cipher.chainDecrypt (blocks.getLastD chain) more := by
  induction blocks generalizing chain with
  | nil => rfl
  | cons block blocks ih =>
    simp only [List.cons_append, chainDecrypt, ih, List.getLastD_cons]

end BlockCipher

/-- The first `count` blocks of `width` bytes. -/
def blocksOf (width : ℕ) : ℕ → List UInt8 → List (List UInt8)
  | 0, _ => []
  | count + 1, data => data.take width :: blocksOf width count (data.drop width)

section
variable {width count : ℕ} {data : List UInt8}

theorem length_blocksOf : (blocksOf width count data).length = count := by
  induction count generalizing data with
  | zero => rfl
  | succ count ih => simp [blocksOf, ih]

theorem blocksOf_whole (enough : count * width ≤ data.length) :
    ∀ block ∈ blocksOf width count data, block.length = width := by
  induction count generalizing data with
  | zero => simp [blocksOf]
  | succ count ih =>
    rw [Nat.succ_mul] at enough
    intro block member
    rcases List.mem_cons.mp member with rfl | rest
    · rw [List.length_take]
      omega
    · exact ih (by rw [List.length_drop]; omega) block rest

theorem flatten_blocksOf : (blocksOf width count data).flatten = data.take (count * width) := by
  induction count generalizing data with
  | zero => simp [blocksOf]
  | succ count ih => rw [blocksOf, List.flatten_cons, ih, Nat.succ_mul, Nat.add_comm, List.take_add]

theorem blocksOf_add (more : ℕ) :
    blocksOf width (count + more) data = blocksOf width count data ++ blocksOf width more (data.drop (count * width)) := by
  induction count generalizing data with
  | zero => simp [blocksOf]
  | succ count ih =>
    rw [Nat.succ_add, blocksOf, ih, blocksOf, List.cons_append, List.drop_drop, Nat.succ_mul, Nat.add_comm width]

/-- Whole blocks laid side by side are found again. -/
theorem blocksOf_flatten {blocks : List (List UInt8)} (whole : ∀ block ∈ blocks, block.length = width)
    (rest : List UInt8) : blocksOf width blocks.length (blocks.flatten ++ rest) = blocks := by
  induction blocks with
  | nil => rfl
  | cons block blocks ih =>
    have own := whole block (by simp)
    rw [List.length_cons, blocksOf, List.flatten_cons, List.append_assoc, List.take_left' own, List.drop_left' own,
      ih (fun other inside => whole other (by simp [inside]))]

theorem length_flatten_whole {blocks : List (List UInt8)} (whole : ∀ block ∈ blocks, block.length = width) :
    blocks.flatten.length = blocks.length * width := by
  rw [List.length_flatten, List.map_eq_replicate_iff.mpr whole, List.sum_replicate, smul_eq_mul]

end
end Pclsync.Library
