import LisaMinix.Fs.Server.NewBlocks

/-!
# Truncation

`truncate` steps through a file by positions of type `long`, up to its size, and frees the data zones;
then it frees the indirect zones, which it finds in the indirect blocks.

- `truncateBy`: `truncate` with any program in the place of `free_zone`.
- `lt_zoneRounds`: the rounds of the loop.
- `zoneRounds_fits`, `zoneRounds_overflow`: where the position is after the last one.
-/

namespace LisaMinix.Fs.Server

open LisaMinix.Library

/-! ## §1 `truncate` -/

section

variable (free : ℕ → ℕ → FsM PUnit)

/-- A round of the loop of `truncate` over the zones of the file. -/
def freeAt (rip : InodeId) (dev scale : ℕ) (position : ℤ) : FsM PUnit := do
  let b ← readMap rip position
  if b ≠ 0 then free dev (b / 2 ^ scale)

/-- The loop of `truncate` over the zones of the file; a position is a `long`. -/
def freeZonesBy (rip : InodeId) (dev scale : ℕ) : ℕ → ℤ → FsM PUnit
  | 0, _ => throw .endless
  | n + 1, position => do
    let i ← readInode rip
    if i.size ≤ position then pure ⟨⟩
    else
      freeAt free rip dev scale position
      freeZonesBy rip dev scale n (toLong (position + blockSize * 2 ^ scale))

/-- The single indirect zones of a double indirect block. -/
def freeIndirectsBy (dev : ℕ) (bp : BufId) : ℕ → ℕ → FsM PUnit
  | 0, _ => pure ⟨⟩
  | n + 1, i => do
    let data ← liftC (readBuf bp)
    free dev (getInd data i)
    freeIndirectsBy dev bp n (i + 1)

/-- The double indirect zone `z`, and the single indirect zones that it has. -/
def freeDouble (dev scale z : ℕ) : FsM PUnit := do
  if z ≠ 0 then
    let bp ← liftC (getBlock dev (toShort (z * 2 ^ scale)) .normal)
    freeIndirectsBy free dev bp nrIndirects 0
    liftC (putBlock (.to bp) .indirectBlock)
    free dev z

/-- The rounds of the loop: one for each zone below `size`. -/
def zoneRounds (scale : ℕ) (size : ℤ) : ℕ :=
  let zoneSize : ℤ := blockSize * 2 ^ scale
  ((size + zoneSize - 1) / zoneSize).toNat

/-- All zones of a file. -/
def freeFile (rip : InodeId) (scale : ℕ) : FsM PUnit := do
  let i ← readInode rip
  freeZonesBy free rip i.dev scale (zoneRounds scale i.size + 1) 0
  free i.dev (i.zone nrDzoneNum)
  freeDouble free i.dev scale (i.zone (nrDzoneNum + 1))

/-- `truncate(rip)`, with `free` in the place of `free_zone`. -/
def truncateBy (rip : InodeId) : FsM PUnit := do
  let i ← readInode rip
  if i.type = iCharSpecial ∨ i.type = iBlockSpecial then pure ⟨⟩
  else
    let scale ← scaleFactor rip
    if i.pipe then modInode rip fun x => { x with size := pipeSize }
    freeFile free rip scale
    if i.pipe then wipeInode rip
    modInode rip fun x => { x with dirt := true }

end

/-- `free_zone`, except that it panics for a zone that is free already. -/
def freeMarked (e : Panic) (dev numb : ℕ) : FsM PUnit := do
  if numb = 0 then pure ⟨⟩
  else
    let sp ← getSuper dev
    let x ← readSuper sp
    let s ← get
    if zoneBusy x (blockAt s.cache x.dev) numb then freeZone dev numb else throw e

/-- The size that `truncate` takes a file to have: pipes can shrink. -/
def truncSize (i : Inode) : ℤ := if i.pipe then pipeSize else i.size

/-- The inode is that of a special file. -/
def Inode.Special (i : Inode) : Prop := i.type = iCharSpecial ∨ i.type = iBlockSpecial

instance (i : Inode) : Decidable i.Special :=
  inferInstanceAs (Decidable (i.type = iCharSpecial ∨ i.type = iBlockSpecial))

/-! ## §2 Rounds -/

/-- The rounds are those for the zones that begin before the end of the file. -/
theorem lt_zoneRounds (scale m : ℕ) (size : ℤ) :
    m < zoneRounds scale size ↔ ((m * (blockSize * 2 ^ scale) : ℕ) : ℤ) < size := by
  have hpos : (0 : ℤ) < blockSize * 2 ^ scale := by
    unfold blockSize
    positivity
  unfold zoneRounds
  rw [Int.lt_toNat, ← Int.add_one_le_iff, Int.le_ediv_iff_mul_le hpos, add_mul, one_mul]
  push_cast
  constructor
  · intro h
    linarith
  · intro h
    linarith [Int.add_one_le_iff.mpr h]

theorem scale_le {x : Super} (hg : Geometry x) : x.logZoneSize ≤ 16 := by
  have hone : 1 * 2 ^ x.logZoneSize ≤ x.nzones * 2 ^ x.logZoneSize :=
    Nat.mul_le_mul_right _ (le_trans hg.first hg.order)
  have hle : 2 ^ x.logZoneSize ≤ 2 ^ 16 := by
    rw [← Nat.one_mul (2 ^ x.logZoneSize)]
    exact le_trans hone hg.fits
  exact (Nat.pow_le_pow_iff_right (by decide)).mp hle

/-- The position after the last round, if it is a `long`. -/
theorem zoneRounds_fits {scale : ℕ} {size : ℤ} (h : size + blockSize * 2 ^ scale ≤ 2 ^ 31) :
    ((zoneRounds scale size * (blockSize * 2 ^ scale) : ℕ) : ℤ) < 2 ^ 31 := by
  cases hk : zoneRounds scale size with
  | zero => simp
  | succ k =>
    have hlast := (lt_zoneRounds scale k size).mp (by omega)
    push_cast at hlast ⊢
    linarith

/-- The position after the last round is 2 GB, if it is not. -/
theorem zoneRounds_overflow {scale : ℕ} {size : ℤ} (hscale : scale ≤ 21) (hsize : size < 2 ^ 31)
    (h : 2 ^ 31 < size + blockSize * 2 ^ scale) :
    zoneRounds scale size * (blockSize * 2 ^ scale) = 2 ^ 31 := by
  -- 2 GB is a multiple of the zone size
  obtain ⟨M, hM⟩ : ∃ M, M * (blockSize * 2 ^ scale) = 2 ^ 31 := by
    refine ⟨2 ^ (21 - scale), ?_⟩
    rw [Nat.mul_left_comm, ← pow_add, Nat.sub_add_cancel hscale]
    rfl
  have hle : ¬M < zoneRounds scale size := by
    rw [lt_zoneRounds, hM]
    push_cast
    exact not_lt.mpr hsize.le
  have hge : M ≤ zoneRounds scale size := by
    cases M with
    | zero => exact Nat.zero_le _
    | succ M =>
      rw [Nat.succ_le_iff, lt_zoneRounds]
      have hcast : (((M + 1) * (blockSize * 2 ^ scale) : ℕ) : ℤ) = 2 ^ 31 := by
        rw [hM]
        rfl
      push_cast at hcast ⊢
      linarith
  rw [show zoneRounds scale size = M by omega]
  exact hM

end LisaMinix.Fs.Server
