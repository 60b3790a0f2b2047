import Mathlib.Data.Nat.Notation

/-! Layout of an encrypted file: sectors of data, interleaved with the sectors
of authenticators that sign them, level over level, up to one master
authenticator. Sizes are `uint64_t`, sector ids `uint32_t`. -/

namespace Pclsync.Crypto

/-- `PSYNC_CRYPTO_SECTOR_SIZE` -/
abbrev sectorSize : ℕ := 4096
/-- `PSYNC_CRYPTO_AUTH_SIZE` -/
abbrev authSize : ℕ := 32
/-- `PSYNC_CRYPTO_HASH_TREE_SECTORS` -/
abbrev hashTreeSectors : ℕ := 128
/-- `PSYNC_CRYPTO_MAX_HASH_TREE_LEVEL` -/
abbrev maxHashTreeLevel : ℕ := 6
/-- `PSYNC_CRYPTO_MAX_SECTORID` -/
abbrev maxSectorid : ℕ := 4294967294
/-- `PSYNC_CRYPTO_INVALID_SECTORID` -/
abbrev invalidSectorid : ℕ := 4294967295

/-- Conversion to `uint32_t`. -/
def u32 (n : ℕ) : ℕ := n % 4294967296

def maxLevelSizes : List ℕ :=
  [0x1000, 0x81000, 0x4081000, 0x204081000, 0x10204081000, 0x810204081000, 0x40810204081000]

def maxLevelSize (level : ℕ) : ℕ := maxLevelSizes.getD level 0

/-- `psync_crypto_offsets_t` -/
structure CryptoOffsets where
  masterauthoff : ℕ
  plainsize : ℕ
  lastauthsectoroff : Vector ℕ maxHashTreeLevel
  lastauthsectorlen : Vector ℕ maxHashTreeLevel
  treelevels : ℕ
  needmasterauth : Bool
deriving DecidableEq, Repr

namespace CryptoOffsets

/-- The structure after `memset`. -/
def zero : CryptoOffsets where
  masterauthoff := 0
  plainsize := 0
  lastauthsectoroff := Vector.replicate maxHashTreeLevel 0
  lastauthsectorlen := Vector.replicate maxHashTreeLevel 0
  treelevels := 0
  needmasterauth := false

/-- `lastauthsectoroff[level]` -/
def lastOff (offsets : CryptoOffsets) (level : ℕ) : ℕ := offsets.lastauthsectoroff[level]?.getD 0

/-- `lastauthsectorlen[level]` -/
def lastLen (offsets : CryptoOffsets) (level : ℕ) : ℕ := offsets.lastauthsectorlen[level]?.getD 0

/-- Assign `lastauthsectoroff[level]` and `lastauthsectorlen[level]`. -/
def setLast (offsets : CryptoOffsets) (level off len : ℕ) : CryptoOffsets :=
  { offsets with
    lastauthsectoroff := offsets.lastauthsectoroff.setIfInBounds level off
    lastauthsectorlen := offsets.lastauthsectorlen.setIfInBounds level len }

end CryptoOffsets

/-- `pfscrypto_sector_id`: every addition is made in the 32-bit type. -/
def sectorIdLoop (sectorid sect : ℕ) : ℕ :=
  if sectorid < hashTreeSectors then sect
  else sectorIdLoop (sectorid / hashTreeSectors) (u32 (sect + sectorid / hashTreeSectors))
termination_by sectorid
decreasing_by simp only [hashTreeSectors] at *; omega

def sectorId (sectorid : ℕ) : ℕ := sectorIdLoop sectorid sectorid

def offsetLoop (sectorid off : ℕ) : ℕ :=
  if sectorid < hashTreeSectors then off
  else offsetLoop (sectorid / hashTreeSectors) (off + sectorid / hashTreeSectors * sectorSize)
termination_by sectorid
decreasing_by simp only [hashTreeSectors] at *; omega

def dataOffsetBySectorid (sectorid : ℕ) : ℕ := offsetLoop sectorid (sectorid * sectorSize)

/-- The loop of `psync_fs_crypto_auth_offset`: here the product is a 32-bit one. -/
def authLoop (id ret : ℕ) : ℕ :=
  if id < hashTreeSectors then ret
  else authLoop (id / hashTreeSectors) (ret + u32 (id / hashTreeSectors * sectorSize))
termination_by id
decreasing_by simp only [hashTreeSectors] at *; omega

/-- Works for all sectors of auth data except the last one of each level. -/
def authOffset (level id : ℕ) : ℕ :=
  authLoop id (maxLevelSize (level + 1) * u32 (id + 1) - sectorSize)

/-- The `do ... while (size > 1)` loop of `pfscrypto_offset_by_size`: `size`
counts the sectors or authenticators of the level below. -/
def offsetBySizeLoop (size level off : ℕ) (offsets : CryptoOffsets) : CryptoOffsets :=
  let rem := size % hashTreeSectors
  let sz := (if rem = 0 then hashTreeSectors else rem) * authSize
  let offsets := offsets.setLast level off sz
  if 1 < (size + hashTreeSectors - 1) / hashTreeSectors then
    offsetBySizeLoop ((size + hashTreeSectors - 1) / hashTreeSectors) (level + 1) (off + sz) offsets
  else
    { offsets.setLast (level + 1) (off + sz) authSize with
      masterauthoff := off + sz
      treelevels := level + 1 }
termination_by size
decreasing_by simp only [hashTreeSectors] at *; omega

/-- `pfscrypto_offset_by_size` -/
def offsetBySize (size : ℕ) : CryptoOffsets :=
  let offsets := { CryptoOffsets.zero with plainsize := size, needmasterauth := size > sectorSize }
  if size = 0 then offsets
  else
    let lastsectorid := u32 (size / sectorSize)
    let lastsectorsize := size % sectorSize
    let off :=
      if lastsectorsize = 0 then dataOffsetBySectorid (u32 (lastsectorid + 4294967295)) + sectorSize
      else dataOffsetBySectorid lastsectorid + lastsectorsize
    offsetBySizeLoop ((size + sectorSize - 1) / sectorSize) 0 off offsets

/-- The first `level >= 1` whose tree holds `size` bytes, past the table when
there is none. -/
def levelBySize (size : ℕ) : ℕ :=
  ((List.range' 1 maxHashTreeLevel).find? (fun level => size ≤ maxLevelSize level)).getD (maxHashTreeLevel + 1)

/-- The `do ... while (level)` loop of `psync_fs_crypto_offsets_by_cryptosize`:
each turn strips the authenticators of one level from `size`. -/
def offsetsByCryptosizeLoop : ℕ → ℕ → ℕ → CryptoOffsets → CryptoOffsets
  | 0, size, _, offsets => { offsets with plainsize := size }
  | level + 1, size, off, offsets =>
    let cnt := (size + maxLevelSize level + authSize - 1) / (maxLevelSize level + authSize)
    let last := if cnt % hashTreeSectors = 0 then hashTreeSectors else cnt % hashTreeSectors
    offsetsByCryptosizeLoop level (size - cnt * authSize) (off - last * authSize)
      (offsets.setLast level (off - last * authSize) (last * authSize))

/-- `psync_fs_crypto_offsets_by_cryptosize` -/
def offsetsByCryptosize (size : ℕ) : CryptoOffsets :=
  if size ≤ authSize then CryptoOffsets.zero
  else
    let needmasterauth : Bool := size > sectorSize + authSize
    let size := if needmasterauth then size - authSize else size
    let level := levelBySize size
    offsetsByCryptosizeLoop level size size
      ({ CryptoOffsets.zero with
        needmasterauth := needmasterauth
        masterauthoff := size
        treelevels := level }.setLast level size authSize)

/-- `pfscrypto_plain_size` -/
def plainSize (cryptosize : ℕ) : ℕ := (offsetsByCryptosize cryptosize).plainsize

/-- End of the file described by `offsets`. -/
def CryptoOffsets.fileSize (offsets : CryptoOffsets) : ℕ :=
  offsets.masterauthoff + if offsets.needmasterauth then authSize else 0

/-- `pfscrypto_crypto_size` -/
def cryptoSize (plainsize : ℕ) : ℕ := (offsetBySize plainsize).fileSize

/-- `get_last_sectorid_by_size` -/
def getLastSectoridBySize (size : ℕ) : ℕ := if size = 0 then 0 else u32 ((size - 1) / sectorSize)

/-- The `for` loop of `pfscrypto_get_auth_off`: the level's last sector, the
sector that holds the authenticator, and the authenticator's place in it. -/
def getAuthOffLoop : ℕ → ℕ → ℕ → ℕ → ℕ × ℕ × ℕ
  | 0, sizesecd, secd, aid => (sizesecd, secd, aid)
  | level + 1, sizesecd, secd, _ =>
    getAuthOffLoop level (sizesecd / hashTreeSectors) (secd / hashTreeSectors) (secd % hashTreeSectors)

structure AuthPlace where
  offset : ℕ
  size : ℕ
  authid : ℕ
deriving DecidableEq, Repr

/-- `pfscrypto_get_auth_off` -/
def getAuthOff (sectorid level : ℕ) (offsets : CryptoOffsets) : AuthPlace :=
  let (sizesecd, secd, aid) := getAuthOffLoop level
    (getLastSectoridBySize offsets.plainsize / hashTreeSectors)
    (sectorid / hashTreeSectors) (sectorid % hashTreeSectors)
  if secd = sizesecd then ⟨offsets.lastOff level, offsets.lastLen level, aid⟩
  else ⟨authOffset level secd, sectorSize, aid⟩

end Pclsync.Crypto
