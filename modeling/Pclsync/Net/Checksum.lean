import Mathlib

/-! The checksum by which blocks of a file are found again. All numbers are `uint32_t`. -/

namespace Pclsync.Checksum

/-- `ADLER32_BASE` -/
abbrev adlerBase : ℕ := 65521
/-- `ADLER32_NMAX` -/
abbrev adlerNmax : ℕ := 5552
/-- `ADLER32_INITIAL` -/
abbrev adlerInitial : ℕ := 1

/-- Conversion to `uint32_t`. -/
def u32 (n : ℤ) : ℕ := (n % 2 ^ 32).toNat

/-- `ADLER32_1` -/
def adlerByte (sums : ℕ × ℕ) (byte : UInt8) : ℕ × ℕ :=
  let adler := u32 (sums.1 + byte.toNat)
  (adler, u32 (sums.2 + adler))

def adlerMod (sums : ℕ × ℕ) : ℕ × ℕ := (sums.1 % adlerBase, sums.2 % adlerBase)

/-- The loops of `adler32`: the sums are reduced after every `ADLER32_NMAX` bytes and at the end. -/
def adlerLoop (sums : ℕ × ℕ) (buff : List UInt8) : ℕ × ℕ :=
  if adlerNmax ≤ buff.length then adlerLoop (adlerMod ((buff.take adlerNmax).foldl adlerByte sums)) (buff.drop adlerNmax)
  else adlerMod (buff.foldl adlerByte sums)
termination_by buff.length
decreasing_by
  rw [List.length_drop]
  simp only [adlerNmax] at *
  omega

def adlerPack (sums : ℕ × ℕ) : ℕ := sums.1 ||| u32 (sums.2 <<< 16 : ℕ)

/-- `adler32` -/
def adler32 (adler : ℕ) (buff : List UInt8) : ℕ := adlerPack (adlerLoop (adler &&& 0xffff, adler >>> 16) buff)

/-- `adler32_roll` -/
def adler32Roll (adler : ℕ) (byteout bytein : UInt8) (len : ℕ) : ℕ :=
  let sum := adler >>> 16
  let adler := u32 ((adler &&& 0xffff : ℕ) + (adlerBase + bytein.toNat - byteout.toNat))
  let sum := u32 (adlerBase * adlerBase + sum - len * byteout.toNat - adlerInitial + adler)
  adlerPack (adlerMod (adler, sum))

end Pclsync.Checksum
