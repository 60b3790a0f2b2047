import Pclsync.Library.TwoSums
import Pclsync.Net.Checksum

/-! The checksum of a block does not depend on the pieces in which it is computed. Rolling it on by one byte is right as long
as the length times the byte that leaves fits into 32 bits. -/

namespace Pclsync.Proofs.Checksum
open Pclsync.Checksum Library

/-- A byte string as residues. -/
def residues (buff : List UInt8) : List (ZMod adlerBase) := buff.map fun byte => (byte.toNat : ZMod adlerBase)

def residue (sums : ℕ × ℕ) : ZMod adlerBase × ZMod adlerBase := (sums.1, sums.2)

/-- Both sums are reduced. -/
def Reduced (sums : ℕ × ℕ) : Prop := sums.1 < adlerBase ∧ sums.2 < adlerBase

section
variable {sums other : ℕ × ℕ} {buff more : List UInt8}

theorem u32_of_lt {n : ℕ} (below : n < 2 ^ 32) : u32 n = n := by
  rw [u32]
  omega

theorem Reduced.eq (reduced : Reduced sums) (also : Reduced other) (same : residue sums = residue other) : sums = other := by
  obtain ⟨first, second⟩ := Prod.mk.inj same
  rw [ZMod.natCast_eq_natCast_iff', Nat.mod_eq_of_lt reduced.1, Nat.mod_eq_of_lt also.1] at first
  rw [ZMod.natCast_eq_natCast_iff', Nat.mod_eq_of_lt reduced.2, Nat.mod_eq_of_lt also.2] at second
  exact Prod.ext first second

theorem reduced_mod : Reduced (adlerMod sums) := ⟨Nat.mod_lt _ (by decide), Nat.mod_lt _ (by decide)⟩

theorem residue_mod : residue (adlerMod sums) = residue sums := by
  rw [adlerMod, residue, ZMod.natCast_mod, ZMod.natCast_mod]
  rfl

/-- How large the sums are after so many bytes. -/
def Within (sums : ℕ × ℕ) (count : ℕ) : Prop :=
  sums.1 ≤ 65520 + 255 * count ∧ 2 * sums.2 ≤ 131040 + 131040 * count + 255 * (count * (count + 1))

theorem Within.lt {count : ℕ} (within : Within sums count) (few : count ≤ adlerNmax) : sums.1 < 2 ^ 32 ∧ sums.2 < 2 ^ 32 := by
  obtain ⟨first, second⟩ := within
  have square : count * (count + 1) ≤ adlerNmax * (adlerNmax + 1) := Nat.mul_le_mul few (Nat.succ_le_succ few)
  simp only [adlerNmax] at few square
  constructor <;> omega

theorem Within.byte {count : ℕ} (within : Within sums count) (few : count < adlerNmax) (byte : UInt8) :
    adlerByte sums byte = (sums.1 + byte.toNat, sums.2 + (sums.1 + byte.toNat)) ∧
      Within (sums.1 + byte.toNat, sums.2 + (sums.1 + byte.toNat)) (count + 1) := by
  have small := byte.toNat_lt
  have next : Within (sums.1 + byte.toNat, sums.2 + (sums.1 + byte.toNat)) (count + 1) := by
    obtain ⟨first, second⟩ := within
    have product : (count + 1) * (count + 1 + 1) = count * (count + 1) + 2 * (count + 1) := by ring
    refine ⟨?_, ?_⟩
    · dsimp only
      omega
    · dsimp only
      rw [product]
      omega
  obtain ⟨first, second⟩ := next.lt few
  have isFirst : u32 ((sums.1 : ℤ) + byte.toNat) = sums.1 + byte.toNat := by exact_mod_cast u32_of_lt first
  have isSecond : u32 ((sums.2 : ℤ) + (sums.1 + byte.toNat : ℕ)) = sums.2 + (sums.1 + byte.toNat) := by exact_mod_cast u32_of_lt second
  refine ⟨?_, next⟩
  rw [adlerByte, isFirst, isSecond]

/-- Without a reduction in between nothing wraps around for as many bytes as `ADLER32_NMAX`. -/
theorem residue_foldl {count : ℕ} (within : Within sums count) (few : count + buff.length ≤ adlerNmax) :
    residue (buff.foldl adlerByte sums) = TwoSums.run (residue sums) (residues buff) := by
  induction buff generalizing sums count with
  | nil => rfl
  | cons byte rest ih =>
    rw [List.length_cons] at few
    obtain ⟨step, next⟩ := within.byte (by omega) byte
    rw [List.foldl_cons, step, ih next (by omega)]
    have added : residue (sums.1 + byte.toNat, sums.2 + (sums.1 + byte.toNat)) = TwoSums.add (residue sums) (byte.toNat : ZMod adlerBase) := by
      simp only [residue, TwoSums.add]
      push_cast
      rfl
    rw [added]
    rfl

theorem Reduced.within (reduced : Reduced sums) : Within sums 0 := by
  obtain ⟨first, second⟩ := reduced
  simp only [adlerBase] at first second
  constructor <;> omega

theorem adlerLoop_spec (reduced : Reduced sums) :
    Reduced (adlerLoop sums buff) ∧ residue (adlerLoop sums buff) = TwoSums.run (residue sums) (residues buff) := by
  fun_induction adlerLoop sums buff with
  | case1 sums buff long ih =>
    have few : 0 + (buff.take adlerNmax).length ≤ adlerNmax := by
      rw [Nat.zero_add]
      exact List.length_take_le _ _
    obtain ⟨reducedNext, runs⟩ := ih reduced_mod
    refine ⟨reducedNext, ?_⟩
    rw [runs, residue_mod, residue_foldl reduced.within few, ← TwoSums.run_append, residues, residues, ← List.map_append,
      List.take_append_drop]
    rfl
  | case2 sums buff short =>
    refine ⟨reduced_mod, ?_⟩
    rw [residue_mod, residue_foldl reduced.within (by omega)]

theorem adlerPack_eq (reduced : Reduced sums) : adlerPack sums = sums.1 + 65536 * sums.2 := by
  obtain ⟨first, second⟩ := reduced
  simp only [adlerBase] at first second
  have shifted : sums.2 <<< 16 = 65536 * sums.2 := by
    rw [Nat.shiftLeft_eq]
    omega
  have whole : u32 ((sums.2 <<< 16 : ℕ) : ℤ) = sums.2 <<< 16 := u32_of_lt (by omega)
  have apart : sums.2 <<< 16 + sums.1 = sums.2 <<< 16 ||| sums.1 := Nat.shiftLeft_add_eq_or_of_lt (by omega) sums.2
  rw [adlerPack, whole, Nat.lor_comm, ← apart, shifted, Nat.add_comm]

theorem unpack (reduced : Reduced sums) : (adlerPack sums &&& 0xffff, adlerPack sums >>> 16) = sums := by
  rw [adlerPack_eq reduced]
  obtain ⟨first, second⟩ := reduced
  simp only [adlerBase] at first second
  have low : (sums.1 + 65536 * sums.2) &&& 0xffff = (sums.1 + 65536 * sums.2) % 2 ^ 16 := Nat.and_two_pow_sub_one_eq_mod _ 16
  rw [low, Nat.shiftRight_eq_div_pow]
  refine Prod.ext ?_ ?_
  · dsimp only
    omega
  · dsimp only
    omega

theorem adlerPack_injective (reduced : Reduced sums) (also : Reduced other) (same : adlerPack sums = adlerPack other) : sums = other := by
  rw [← unpack reduced, ← unpack also, same]

/-- The sums that a checksum starts with. -/
def start : ℕ × ℕ := (1, 0)

theorem reduced_start : Reduced start := ⟨by decide, by decide⟩

theorem adler32_initial : adler32 adlerInitial buff = adlerPack (adlerLoop start buff) := rfl

theorem adler32_nil : adler32 adlerInitial [] = adlerInitial := by
  rw [adler32_initial, adlerLoop, if_neg (by decide)]
  decide

/-- In pieces or at once. -/
theorem adler32_append : adler32 (adler32 adlerInitial buff) more = adler32 adlerInitial (buff ++ more) := by
  obtain ⟨reduced, runs⟩ := @adlerLoop_spec start buff reduced_start
  obtain ⟨reducedMore, runsMore⟩ := @adlerLoop_spec (adlerLoop start buff) more reduced
  obtain ⟨reducedAll, runsAll⟩ := @adlerLoop_spec start (buff ++ more) reduced_start
  have same : adlerLoop (adlerLoop start buff) more = adlerLoop start (buff ++ more) := by
    refine reducedMore.eq reducedAll ?_
    rw [runsMore, runs, runsAll, ← TwoSums.run_append, residues, residues, residues, List.map_append]
  have parts := unpack reduced
  rw [adler32_initial, adler32_initial, ← same, adler32, parts]

end

section
variable {rest : List UInt8} {byteout bytein : UInt8} {len width : ℕ}

/-- The second sum before the reduction, as a number. -/
def rolled (sums : ℕ × ℕ) (byteout bytein : UInt8) (len : ℕ) : ℤ :=
  adlerBase * adlerBase + sums.2 - len * byteout.toNat - adlerInitial + (sums.1 + (adlerBase + bytein.toNat - byteout.toNat))

theorem adlerRoll_eq {sums : ℕ × ℕ} (reduced : Reduced sums) :
    adler32Roll (adlerPack sums) byteout bytein len =
      adlerPack (adlerMod (sums.1 + (adlerBase + bytein.toNat - byteout.toNat), u32 (rolled sums byteout bytein len))) := by
  obtain ⟨low, high⟩ := Prod.mk.inj (unpack reduced)
  have small := byteout.toNat_lt
  have alsoSmall := bytein.toNat_lt
  have first : u32 ((sums.1 : ℤ) + (adlerBase + bytein.toNat - byteout.toNat)) = sums.1 + (adlerBase + bytein.toNat - byteout.toNat) := by
    have bound := reduced.1
    simp only [adlerBase] at bound ⊢
    rw [u32]
    omega
  rw [adler32Roll, low, high, first, rolled]
  simp only [adlerBase]
  congr 5
  omega

theorem base_zero : (65521 : ZMod adlerBase) = 0 := by exact_mod_cast ZMod.natCast_self adlerBase

theorem square_zero : (4293001441 : ZMod adlerBase) = 0 := by
  have product : (4293001441 : ZMod adlerBase) = 65521 * 65521 := by norm_num
  rw [product, base_zero, zero_mul]

/-- How often the second sum wraps around decides whether it is right. -/
theorem roll_spec (lengths : len = rest.length + 1) {wraps : ℕ} (few : wraps < adlerBase)
    (isRolled : (u32 (rolled (adlerLoop start (byteout :: rest)) byteout bytein len) : ℤ) =
      rolled (adlerLoop start (byteout :: rest)) byteout bytein len + wraps * 2 ^ 32) :
    adler32Roll (adler32 adlerInitial (byteout :: rest)) byteout bytein len = adler32 adlerInitial (rest ++ [bytein]) ↔ wraps = 0 := by
  obtain ⟨reduced, runs⟩ := @adlerLoop_spec start (byteout :: rest) reduced_start
  obtain ⟨reducedNext, runsNext⟩ := @adlerLoop_spec start (rest ++ [bytein]) reduced_start
  set sums := adlerLoop start (byteout :: rest)
  have small := byteout.toNat_lt
  have first : ((sums.1 + (adlerBase + bytein.toNat - byteout.toNat) : ℕ) : ZMod adlerBase) = sums.1 + bytein.toNat - byteout.toNat := by
    rw [Nat.cast_add, Nat.cast_sub (by simp only [adlerBase]; omega), Nat.cast_add, ZMod.natCast_self]
    ring
  have firstInt : (((sums.1 : ℤ) + (adlerBase + bytein.toNat - byteout.toNat) : ℤ) : ZMod adlerBase) = sums.1 + bytein.toNat - byteout.toNat := by
    push_cast
    rw [base_zero]
    ring
  have second : ((u32 (rolled sums byteout bytein len) : ℕ) : ZMod adlerBase) =
      sums.2 - len * byteout.toNat - 1 + (sums.1 + bytein.toNat - byteout.toNat) + wraps * (2 ^ 32 : ℕ) := by
    have cast := congrArg (Int.cast (R := ZMod adlerBase)) isRolled
    rw [Int.cast_natCast] at cast
    rw [cast, rolled, Int.cast_add, Int.cast_add, firstInt]
    push_cast
    rw [square_zero]
    ring
  have wanted : residue (adlerLoop start (rest ++ [bytein])) =
      ((sums.1 + bytein.toNat - byteout.toNat : ZMod adlerBase),
        (sums.2 - len * byteout.toNat - 1 + (sums.1 + bytein.toNat - byteout.toNat) : ZMod adlerBase)) := by
    have cons : residues (byteout :: rest) = (byteout.toNat : ZMod adlerBase) :: residues rest := rfl
    have snoc : residues (rest ++ [bytein]) = residues rest ++ [(bytein.toNat : ZMod adlerBase)] := List.map_append
    have length : (residues rest).length = rest.length := List.length_map _
    rw [runsNext, snoc, @TwoSums.run_roll _ _ _ (residues rest) (byteout.toNat : ZMod adlerBase), ← cons, ← runs, length, lengths]
    simp [residue, start]
  rw [adler32_initial, adler32_initial, adlerRoll_eq reduced]
  have isResidue : residue (adlerMod (sums.1 + (adlerBase + bytein.toNat - byteout.toNat), u32 (rolled sums byteout bytein len))) =
      ((sums.1 + bytein.toNat - byteout.toNat : ZMod adlerBase),
        (sums.2 - len * byteout.toNat - 1 + (sums.1 + bytein.toNat - byteout.toNat) + wraps * (2 ^ 32 : ℕ) : ZMod adlerBase)) := by
    rw [residue_mod, residue, first, second]
  constructor
  · intro same
    have equal := congrArg residue (adlerPack_injective reduced_mod reducedNext same)
    rw [isResidue, wanted] at equal
    have zero : ((wraps * 2 ^ 32 : ℕ) : ZMod adlerBase) = 0 := by
      have sums := (Prod.mk.inj equal).2
      push_cast
      push_cast at sums
      exact add_eq_left.mp sums
    rw [ZMod.natCast_eq_zero_iff] at zero
    have divides : adlerBase ∣ wraps := by
      have prime : Nat.Coprime adlerBase (2 ^ 32) := by norm_num
      exact prime.dvd_of_dvd_mul_right zero
    exact Nat.eq_zero_of_dvd_of_lt divides few
  · rintro rfl
    congr 1
    refine reduced_mod.eq reducedNext ?_
    rw [isResidue, wanted, Nat.cast_zero, zero_mul, add_zero]

/-- For a power of two the product fits into 32 bits exactly if the difference is not negative. -/
theorem rolled_nonneg {sums : ℕ × ℕ} (reduced : Reduced sums) :
    0 ≤ rolled sums byteout bytein (2 ^ width) ↔ 2 ^ width * byteout.toNat < 2 ^ 32 := by
  obtain ⟨first, second⟩ := reduced
  have small := byteout.toNat_lt
  have alsoSmall := bytein.toNat_lt
  have product : ((2 ^ width : ℕ) : ℤ) * byteout.toNat = (2 ^ width * byteout.toNat : ℕ) := by push_cast; rfl
  have gap : 2 ^ width * byteout.toNat < 2 ^ 32 → 2 ^ width * byteout.toNat ≤ 4278190080 := by
    intro fits
    obtain low | high := le_or_gt width 24
    · have power : 2 ^ width ≤ 2 ^ 24 := Nat.pow_le_pow_right (by decide) low
      have bound : 2 ^ width * byteout.toNat ≤ 2 ^ 24 * 255 := Nat.mul_le_mul power (by omega)
      omega
    · have split : 2 ^ width * byteout.toNat = 33554432 * (2 ^ (width - 25) * byteout.toNat) := by
        rw [← mul_assoc]
        congr 1
        rw [show (33554432 : ℕ) = 2 ^ 25 from rfl, ← pow_add, Nat.add_sub_cancel' high]
      omega
  rw [rolled, product]
  simp only [adlerBase, adlerInitial] at first second ⊢
  constructor
  · intro nonneg
    by_contra wraps
    omega
  · intro fits
    have bound := gap fits
    omega

theorem roll_iff (lengths : 2 ^ width = rest.length + 1) (narrow : 2 ^ width < 2 ^ 32) :
    adler32Roll (adler32 adlerInitial (byteout :: rest)) byteout bytein (2 ^ width) = adler32 adlerInitial (rest ++ [bytein]) ↔
      2 ^ width * byteout.toNat < 2 ^ 32 := by
  have reduced := (@adlerLoop_spec start (byteout :: rest) reduced_start).1
  set value := rolled (adlerLoop start (byteout :: rest)) byteout bytein (2 ^ width) with isValue
  have small := byteout.toNat_lt
  have alsoSmall := bytein.toNat_lt
  have bounds : -(2 ^ 32 * 256) < value ∧ value < 2 ^ 32 := by
    obtain ⟨first, second⟩ := reduced
    have product : ((2 ^ width : ℕ) : ℤ) * byteout.toNat = (2 ^ width * byteout.toNat : ℕ) := by push_cast; rfl
    have bound : 2 ^ width * byteout.toNat ≤ 2 ^ 32 * 255 := Nat.mul_le_mul narrow.le (by omega)
    rw [isValue, rolled, product]
    simp only [adlerBase, adlerInitial] at first second ⊢
    constructor <;> omega
  have wrapped : (u32 value : ℤ) = value + ((-(value / 2 ^ 32)).toNat : ℤ) * 2 ^ 32 := by
    rw [u32]
    omega
  rw [roll_spec lengths (by simp only [adlerBase]; omega) wrapped, ← @rolled_nonneg byteout bytein width _ reduced, ← isValue]
  constructor
  · intro none
    omega
  · intro nonneg
    omega

theorem foldl_adler32 (chunks : List (List UInt8)) (buff : List UInt8) :
    chunks.foldl adler32 (adler32 adlerInitial buff) = adler32 adlerInitial (buff ++ chunks.flatten) := by
  induction chunks generalizing buff with
  | nil => rw [List.foldl_nil, List.flatten_nil, List.append_nil]
  | cons chunk rest ih => rw [List.foldl_cons, adler32_append, ih, List.flatten_cons, List.append_assoc]

end

/-- The checksum is that of the whole whatever the pieces; and it is rolled on rightly exactly if the length of the window times the
byte that leaves it is a number of 32 bits. -/
theorem rolls_iff (width : ℕ) (byteout bytein : UInt8) (rest : List UInt8) (length : 2 ^ width = rest.length + 1) (narrow : 2 ^ width < 2 ^ 32) :
    (adler32Roll (adler32 adlerInitial (byteout :: rest)) byteout bytein (2 ^ width) = adler32 adlerInitial (rest ++ [bytein]) ∧
      ∀ chunks : List (List UInt8), chunks.foldl adler32 adlerInitial = adler32 adlerInitial chunks.flatten) ↔
      2 ^ width * byteout.toNat < 2 ^ 32 := by
  rw [roll_iff length narrow, and_iff_left]
  intro chunks
  have all := foldl_adler32 chunks []
  rwa [adler32_nil, List.nil_append] at all

theorem rolls_iff_four : (adler32Roll (adler32 adlerInitial [97, 98, 99, 100]) 97 101 (2 ^ 2) = adler32 adlerInitial [98, 99, 100, 101] ∧
    ∀ chunks : List (List UInt8), chunks.foldl adler32 adlerInitial = adler32 adlerInitial chunks.flatten) ↔ 2 ^ 2 * (97 : UInt8).toNat < 2 ^ 32 :=
  rolls_iff 2 97 101 [98, 99, 100] rfl (by decide)

/-- A window of 32 MiB that starts with a byte of 128. -/
theorem roll_wrong : adler32Roll (adler32 adlerInitial (128 :: List.replicate (2 ^ 25 - 1) 0)) 128 0 (2 ^ 25) ≠
    adler32 adlerInitial (List.replicate (2 ^ 25 - 1) 0 ++ [0]) := by
  rw [ne_eq, roll_iff (by rw [List.length_replicate]; norm_num) (by norm_num), UInt8.toNat_ofNat]
  norm_num

end Pclsync.Proofs.Checksum
