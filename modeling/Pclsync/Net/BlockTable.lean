import Pclsync.Library.Probing

/-! The table that finds a block of a remote file by its checksums. An element is
the index of a block, `none` where the source has 0; blocks with the same SHA1 are
chained through `next` and only the last of them is in the table. -/

namespace Pclsync.Net.BlockTable
open Library.Probing

/-- `psync_block_checksum` -/
structure BlockChecksum (α : Type) where
  sha1 : α
  adler : ℕ
deriving DecidableEq, Repr

/-- The entries of a `psync_file_checksums`. -/
structure Checksums (α : Type) where
  blockcnt : ℕ
  blocks : ℕ → BlockChecksum α

/-- `elements` of a `psync_file_checksum_hash`. -/
abbrev Elements := ℕ → Option ℕ

/-- `MAX_ADLER_COLL` -/
abbrev maxAdlerColl : ℕ := 64

inductive RangeType where
  | transfer
  | copy
deriving DecidableEq, Repr

/-- `psync_block_action` -/
structure BlockAction where
  type : RangeType
  idx : ℕ
  off : ℕ
deriving DecidableEq, Repr

section Size

/-- The loop of `psync_is_prime`, which tries odd numbers only. -/
def noDivisor (num i : ℕ) : Bool :=
  if i * i ≤ num then if num % i = 0 then false else noDivisor num (i + 2) else true
termination_by num - i
decreasing_by
  rename_i small rest
  rcases i with _ | _ | i
  · rw [Nat.mod_zero] at rest
    omega
  · exact absurd (Nat.mod_one num) rest
  · have square : 2 * (i + 1 + 1) ≤ (i + 1 + 1) * (i + 1 + 1) := Nat.mul_le_mul_right _ (by omega)
    omega

/-- `psync_is_prime` -/
def isPrime (num : ℕ) : Bool := noDivisor num 5

theorem noDivisor_of_prime {num i : ℕ} (prime : num.Prime) (large : 2 ≤ i) : noDivisor num i = true := by
  fun_induction noDivisor num i with
  | case1 i small divides =>
    have square : 2 * i ≤ i * i := Nat.mul_le_mul_right i large
    rcases (Nat.dvd_prime prime).mp (Nat.dvd_of_mod_eq_zero divides) with one | same <;> omega
  | case2 i small rest ih => exact ih (by omega)
  | case3 i done => rfl

/-- Some prime number lies further on, so the search for a size ends. -/
theorem prime_ahead (half : ℕ) : ∃ num, 6 * half + 1 ≤ num ∧ num.Prime := by
  obtain ⟨num, above, prime⟩ := Nat.exists_infinite_primes (6 * half + 1)
  exact ⟨num, above, prime⟩

/-- The number of elements: the first number from `6 * half + 1` on that passes for
a prime, where multiples of 2 and 3 are left out. -/
def elementCount (half : ℕ) : ℕ :=
  if isPrime (6 * half + 1) then 6 * half + 1
  else if isPrime (6 * half + 1 + 4) then 6 * half + 1 + 4
  else elementCount (half + 1)
termination_by Nat.find (prime_ahead half) - 6 * half
decreasing_by
  rename_i first second
  have ahead := Nat.find_spec (prime_ahead half)
  have large : 0 < half := by
    rcases Nat.eq_zero_or_pos half with rfl | positive
    · exact absurd (by rw [isPrime, noDivisor]; rfl) first
    · exact positive
  have further : 6 * (half + 1) + 1 ≤ Nat.find (prime_ahead half) := by
    have not_first : Nat.find (prime_ahead half) ≠ 6 * half + 1 := fun same =>
      first (noDivisor_of_prime (same ▸ ahead.2) (by decide))
    have not_second : Nat.find (prime_ahead half) ≠ 6 * half + 1 + 4 := fun same =>
      second (noDivisor_of_prime (same ▸ ahead.2) (by decide))
    have odd : ¬ 2 ∣ Nat.find (prime_ahead half) := fun divides => by
      rcases (Nat.dvd_prime ahead.2).mp divides with two | two <;> omega
    have three : ¬ 3 ∣ Nat.find (prime_ahead half) := fun divides => by
      rcases (Nat.dvd_prime ahead.2).mp divides with two | two <;> omega
    omega
  have same : Nat.find (prime_ahead (half + 1)) ≤ Nat.find (prime_ahead half) :=
    Nat.find_min' _ ⟨further, ahead.2⟩
  omega

theorem lt_elementCount (half : ℕ) : 6 * half < elementCount half := by
  fun_induction elementCount half with
  | case1 half first => omega
  | case2 half first second => omega
  | case3 half first second ih => omega

/-- `cnt` of `psync_net_create_hash`; `blockcnt` is a `uint32_t`. -/
def tableSize (blockcnt : ℕ) : ℕ := elementCount ((blockcnt + 1) % 2 ^ 32 / 2)

end Size

section Create
variable {α : Type} [DecidableEq α]

/-- The slot where a block begins. -/
def home (blocks : ℕ → BlockChecksum α) (size : ℕ) (idx : ℕ) : ℕ := (blocks idx).adler % size

/-- Where a block goes: to the slot of a block with the same SHA1, which it is
chained to, to a vacant slot, or nowhere. -/
inductive Sought where
  | chained (slot idx : ℕ)
  | vacant (slot : ℕ)
  | ignored
deriving DecidableEq, Repr

/-- The loop over the slots; `left` further slots may be tried. -/
def seek (blocks : ℕ → BlockChecksum α) (size : ℕ) (elements : Elements) (sha1 : α) : ℕ → ℕ → Sought
  | left, slot =>
    match elements slot with
    | none => .vacant slot
    | some idx =>
      if sha1 = (blocks idx).sha1 then .chained slot idx
      else
        match left with
        | 0 => .ignored
        | left + 1 => seek blocks size elements sha1 left (after size slot)

/-- The table while it is built; `ignored` holds the blocks that were warned about. -/
structure Building where
  elements : Elements
  next : ℕ → Option ℕ
  ignored : List ℕ

def insertBlock (blocks : ℕ → BlockChecksum α) (size : ℕ) (built : Building) (i : ℕ) : Building :=
  match seek blocks size built.elements (blocks i).sha1 maxAdlerColl (home blocks size i) with
  | .chained slot idx =>
    { built with elements := Function.update built.elements slot (some i), next := Function.update built.next i (some idx) }
  | .vacant slot => { built with elements := Function.update built.elements slot (some i) }
  | .ignored => { built with ignored := i :: built.ignored }

/-- `psync_net_create_hash`, on checksums whose `next` is all zeros. -/
def createHash (checksums : Checksums α) : Building :=
  (List.range checksums.blockcnt).foldl (insertBlock checksums.blocks (tableSize checksums.blockcnt))
    ⟨fun _ => none, fun _ => none, []⟩

end Create

section Use
variable {α : Type} [DecidableEq α]

/-- A table in use, with the actions for the blocks. -/
structure State where
  elements : Elements
  blockactions : ℕ → BlockAction

/-- Whether a block has the two checksums. -/
def matchesPair (blocks : ℕ → BlockChecksum α) (adler : ℕ) (sha1 : α) (idx : ℕ) : Bool :=
  (blocks idx).adler = adler ∧ (blocks idx).sha1 = sha1

/-- `psync_net_hash_has_adler`; `none` is a loop without end. -/
def hashHasAdler (checksums : Checksums α) (elements : Elements) (adler : ℕ) : Option Bool :=
  let size := tableSize checksums.blockcnt
  (probe size elements (fun idx => (checksums.blocks idx).adler = adler) size (adler % size)).map Option.isSome

/-- `psync_net_hash_has_adler_and_sha1` -/
def hashHasAdlerAndSha1 (checksums : Checksums α) (elements : Elements) (adler : ℕ) (sha1 : α) : Option (Option ℕ) :=
  let size := tableSize checksums.blockcnt
  (probe size elements (matchesPair checksums.blocks adler sha1) size (adler % size)).map fun found => found.map Prod.snd

/-- `psync_net_hash_remove` -/
def hashRemove (checksums : Checksums α) (elements : Elements) (adler : ℕ) (sha1 : α) : Option Elements :=
  let size := tableSize checksums.blockcnt
  match probe size elements (matchesPair checksums.blocks adler sha1) size (adler % size) with
  | none => none
  | some none => some elements
  | some (some (slot, _)) =>
    close size (home checksums.blocks size) size (Function.update elements slot none) slot slot

/-- The loop of `psync_net_block_match_found` over a chain of blocks. -/
def markChain (next : ℕ → Option ℕ) (action : BlockAction) : ℕ → ℕ → (ℕ → BlockAction) → Option (ℕ → BlockAction)
  | 0, _, _ => none
  | fuel + 1, cidx, blockactions =>
    let blockactions := Function.update blockactions cidx action
    match next cidx with
    | none => some blockactions
    | some cidx => markChain next action fuel cidx blockactions

/-- `psync_net_block_match_found` -/
def blockMatchFound (checksums : Checksums α) (next : ℕ → Option ℕ) (state : State) (idx fileidx fileoffset : ℕ) :
    Option State :=
  if (state.blockactions idx).type ≠ .transfer then some state
  else do
    let blockactions ← markChain next ⟨.copy, fileidx, fileoffset⟩ checksums.blockcnt idx state.blockactions
    let elements ← hashRemove checksums state.elements (checksums.blocks idx).adler (checksums.blocks idx).sha1
    return ⟨elements, blockactions⟩

end Use
end Pclsync.Net.BlockTable
