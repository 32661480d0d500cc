import Mathlib.Tactic

/-!
# The Disk Format, as the File System Server Reads It

Where the server finds things on a Minix V1 file system: the inode of a number (`rw_inode`), the
bit of an inode or a zone in its map (`alloc_bit`, `free_bit`, `load_bit_maps`), and the block of
a file position (`read_map`).  Block, zone, inode and bit numbers are `unsigned short`.

- `inodePlace`, `bitPlace` and `readMap` model the computations, `allocBit` the search of
  `alloc_bit`.
- `allocBit_spec`: the bit that `alloc_bit` sets is in the place that `free_bit` computes for
  the number it returns.
-/

namespace LisaMinix.Fs.Disk

/-! ## §1 The Super Block -/

def superMagic : ℕ := 0x137F
def blockBytes : ℕ := 1024
def inodeBytes : ℕ := 32
def inodesPerBlock : ℕ := 32
def nrDzoneNum : ℕ := 7
def nrIndirects : ℕ := 512
def iMapSlots : ℕ := 8
def zmapSlots : ℕ := 8

/-- The number of zones of the largest file: direct, single and double indirect. -/
def maxZones : ℕ := nrDzoneNum + nrIndirects + nrIndirects * nrIndirects

/-- The fields of a super block on the disk. -/
structure SuperBlock where
  ninodes : UInt16
  nzones : UInt16
  imapBlocks : UInt16
  zmapBlocks : UInt16
  firstdatazone : UInt16
  logZoneSize : ℤ
  maxSize : ℤ
  magic : ℕ
deriving DecidableEq

/-- The checks of `do_mount` and `load_bit_maps`. -/
def SuperBlock.Accepted (sb : SuperBlock) : Prop :=
  sb.magic = superMagic ∧ 1 ≤ sb.ninodes.toNat ∧ 1 ≤ sb.nzones.toNat ∧
    1 ≤ sb.imapBlocks.toNat ∧ 1 ≤ sb.zmapBlocks.toNat ∧
    sb.imapBlocks.toNat ≤ iMapSlots ∧ sb.zmapBlocks.toNat ≤ zmapSlots

instance (sb : SuperBlock) : Decidable sb.Accepted := inferInstanceAs (Decidable (_ ∧ _))

/-- A value stored in an `unsigned short`. -/
def unshort (n : ℤ) : ℕ := (n % 65536).toNat

/-- A byte of the device: the block and the byte in it. -/
structure Place where
  block : ℕ
  byte : ℕ
deriving DecidableEq, Repr

/-- A bit of the device. -/
structure BitPlace extends Place where
  bit : ℕ
deriving DecidableEq, Repr

/-! ## §2 Inodes -/

/-- `rw_inode`: the block of the inode and its place in `b_inode`. -/
def inodePlace (sb : SuperBlock) (inum : ℕ) : Place :=
  { block := unshort (unshort (inum - 1 : ℤ) / inodesPerBlock + sb.imapBlocks.toNat +
      sb.zmapBlocks.toNat + 2 : ℕ)
    byte := unshort (inum - 1 : ℤ) % inodesPerBlock * inodeBytes }

/-! ## §3 Bit Maps -/

def intBits : ℕ := 16
def intsPerBlock : ℕ := 512

/-- The bit of word `w` in a map block, as the 68000 stores the word: high byte first. -/
def wordBit (block w bit : ℕ) : BitPlace :=
  { block := block
    byte := 2 * w + (if bit < 8 then 1 else 0)
    bit := bit % 8 }

/-- `free_bit`: the block of the map, the word in it and the bit of the word. -/
def splitBit (bitNr : ℕ) : ℕ × ℕ × ℕ :=
  let b := bitNr / 2 ^ 13
  let r := bitNr - b * 2 ^ 13
  (b, r / intBits, r % intBits)

/-- The place of a bit in a map that `load_bit_maps` has loaded from block `first` on; there is
    none outside of the blocks that were loaded. -/
def bitPlace (first blocks bitNr : ℕ) : Option BitPlace :=
  let (b, w, bit) := splitBit bitNr
  if b < blocks then some (wordBit (first + b) w bit) else none

def superBlockNr : ℕ := 1

def inodeBitPlace (sb : SuperBlock) (numb : ℕ) : Option BitPlace :=
  bitPlace (superBlockNr + 1) sb.imapBlocks.toNat numb

/-- `free_zone`, `alloc_zone`: the bit of a zone. -/
def zoneBit (sb : SuperBlock) (z : ℕ) : ℕ := unshort (z - unshort (sb.firstdatazone.toNat - 1 : ℤ) : ℤ)

def zoneBitPlace (sb : SuperBlock) (z : ℕ) : Option BitPlace :=
  bitPlace (superBlockNr + 1 + sb.imapBlocks.toNat) sb.zmapBlocks.toNat (zoneBit sb z)

/-- The words of a bit map: block of the map, word in it. -/
abbrev BitMap := ℕ → ℕ → ℕ

/-- The map with one bit turned on. -/
def setBit (map : BitMap) (b w i : ℕ) : BitMap :=
  Function.update map b (Function.update (map b) w (map b w ||| 1 <<< i))

/-- The loop over the words of one block, from `w` on, `left` of them: the word and bit to be
    allocated.  A bit beyond the map ends the block. -/
def scanBlock (map : BitMap) (mapBits b : ℕ) : ℕ → ℕ → Option (ℕ × ℕ)
  | 0, _ => none
  | left + 1, w =>
    match (List.range intBits).find? fun i => !(map b w).testBit i with
    | none => scanBlock map mapBits b left (w + 1)
    | some i =>
      if mapBits ≤ unshort (i + w * intBits + b * 2 ^ 13 : ℕ) then none
      else some (w, i)

/-- The loop over the blocks. -/
def scanMap (map : BitMap) (mapBits bitBlocks : ℕ) : ℕ → ℕ → ℕ → Option (ℕ × BitMap)
  | 0, _, _ => none
  | count + 1, b, w =>
    match scanBlock map mapBits b (intsPerBlock - w) w with
    | some (w, i) => some (unshort (i + w * intBits + b * 2 ^ 13 : ℕ), setBit map b w i)
    | none => scanMap map mapBits bitBlocks count (if b + 1 = bitBlocks then 0 else b + 1) 0

/-- `alloc_bit`: the number of the bit, and the map with the bit turned on. -/
def allocBit (map : BitMap) (mapBits bitBlocks origin : ℕ) : Option (ℕ × BitMap) :=
  let origin := if mapBits ≤ origin then 0 else origin
  let b := origin / 2 ^ 13
  let w := (origin - b * 2 ^ 13) / intBits
  scanMap map mapBits bitBlocks (if w = 0 then bitBlocks else bitBlocks + 1) b w

theorem scanBlock_spec {map : BitMap} {mapBits b left w w' i : ℕ}
    (h : scanBlock map mapBits b left w = some (w', i)) :
    w' < w + left ∧ i < intBits ∧ (map b w').testBit i = false := by
  induction left generalizing w with
  | zero => cases h
  | succ left ih =>
    unfold scanBlock at h
    split at h
    · have := ih h
      exact ⟨by omega, this.2⟩
    · next i' hfind =>
      split at h
      · cases h
      · cases h
        have hbit := List.find?_some hfind
        have hlt := List.mem_range.mp (List.mem_of_find?_eq_some hfind)
        exact ⟨by omega, hlt, by simpa using hbit⟩

theorem scanMap_spec {map map' : BitMap} {mapBits bitBlocks count b w a : ℕ}
    (hslots : bitBlocks ≤ 8) (hb : b < bitBlocks) (hw : w ≤ intsPerBlock)
    (h : scanMap map mapBits bitBlocks count b w = some (a, map')) :
    ∃ b' w' i, splitBit a = (b', w', i) ∧ b' < bitBlocks ∧ (map b' w').testBit i = false ∧
      map' = setBit map b' w' i := by
  induction count generalizing b w with
  | zero => cases h
  | succ count ih =>
    unfold scanMap at h
    split at h
    · next w' i hscan =>
      cases h
      obtain ⟨hw', hi, hclear⟩ := scanBlock_spec hscan
      have hw'' : w' < 512 := by
        unfold intsPerBlock at hw hw'
        omega
      have hi' : i < 16 := hi
      refine ⟨b, w', i, ?_, hb, hclear, rfl⟩
      have hval : unshort ((i + w' * intBits + b * 2 ^ 13 : ℕ) : ℤ) = i + w' * 16 + b * 8192 := by
        unfold unshort intBits
        omega
      rw [hval]
      unfold splitBit intBits
      simp only [Prod.mk.injEq]
      omega
    · apply ih _ (Nat.zero_le _) h
      split <;> omega

/-- **`alloc_bit` and `free_bit` agree**: the bit that is turned on was off, and is in the place
    that `free_bit` computes for the number returned. -/
theorem allocBit_spec {map map' : BitMap} {mapBits bitBlocks origin a : ℕ}
    (hslots : bitBlocks ≤ 8) (horigin : origin / 2 ^ 13 < bitBlocks)
    (h : allocBit map mapBits bitBlocks origin = some (a, map')) :
    ∃ b w i, splitBit a = (b, w, i) ∧ b < bitBlocks ∧ (map b w).testBit i = false ∧
      map' = setBit map b w i := by
  unfold allocBit at h
  apply scanMap_spec hslots _ _ h
  · split
    · omega
    · exact horigin
  · unfold intBits intsPerBlock
    split <;> omega

/-! ## §4 File Positions -/

/-- The zone numbers in an inode. -/
abbrev Zones := ℕ → UInt16

/-- The zone numbers in an indirect block, by its zone. -/
abbrev Indirect := UInt16 → ℕ → UInt16

/-- The block number for a zone and a block within it. -/
def blockOf (scale : ℕ) (z : UInt16) (boff : ℕ) : ℕ :=
  unshort ((z.toNat * 2 ^ scale + boff : ℕ) : ℤ)

/-- The last part of `read_map`: `z` is the zone of the single indirect block. -/
def readIndirect (ind : Indirect) (scale : ℕ) (z : UInt16) (excess boff : ℕ) : ℕ :=
  if z = 0 then 0
  else if ind z excess = 0 then 0
  else blockOf scale (ind z excess) boff

/-- `read_map`: the block of a file position, 0 for none. -/
def readMap (sb : SuperBlock) (zone : Zones) (ind : Indirect) (position : ℕ) : ℕ :=
  let scale := sb.logZoneSize.toNat
  let blockPos := position / blockBytes
  let z := blockPos / 2 ^ scale
  let boff := blockPos - z * 2 ^ scale
  if z < nrDzoneNum then
    if zone z = 0 then 0 else blockOf scale (zone z) boff
  else
    let excess := z - nrDzoneNum
    if excess < nrIndirects then readIndirect ind scale (zone nrDzoneNum) excess boff
    else if zone (nrDzoneNum + 1) = 0 then 0
    else
      let excess := excess - nrIndirects
      readIndirect ind scale (ind (zone (nrDzoneNum + 1)) (excess / nrIndirects))
        (excess % nrIndirects) boff

end LisaMinix.Fs.Disk
