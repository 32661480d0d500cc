import LisaMinix.Fs.DiskFormat

/-!
# The Disk Format, as the Host Tools Compute It

Where `mkfs.py` and `minixfs.py` find inodes, bits and the zones of a file, and a comparison with
the file system server.

- `mkfsInodePos`, `mkfsBit`, `addZone` model `inode_pos`, `insert_bit` and `add_zone` of
  `mkfs.py`; `minixInode`, `minixBit` and `minixZones` model `inode`, `bit` and `zones` of
  `minixfs.py`.
- `disk_format_agree_iff`: the three agree, but for bits beyond the first block of a map, which
  `mkfs.py` cannot insert, and for files with a double indirect but no single indirect zone, of
  which `minixfs.py` shifts the zones.
-/

namespace LisaMinix.Tools

open Function

open LisaMinix.Fs.Disk

/-! ## §1 `mkfs.py` -/

def inodeOffset (sb : SuperBlock) : ℕ := sb.imapBlocks.toNat + sb.zmapBlocks.toNat + 2

/-- `inode_pos`, as a byte of the image. -/
def mkfsInodePos (sb : SuperBlock) (n : ℕ) : ℕ :=
  let b := (n - 1) / inodesPerBlock + inodeOffset sb
  b * blockBytes + (n - 1) % inodesPerBlock * inodeBytes

/-- The bit `i % 16` of the big-endian word at byte `pos` of the image. -/
def imageBit (pos i : ℕ) : BitPlace :=
  { block := pos / blockBytes
    byte := pos % blockBytes + (if i % 16 < 8 then 1 else 0)
    bit := i % 16 % 8 }

/-- `insert_bit` for one bit: the word is looked for in one block, and `struct.unpack_from`
    fails where it is not in it. -/
def mkfsBit (block bit : ℕ) : Option BitPlace :=
  let off := 2 * (bit / 16)
  if off + 2 ≤ blockBytes then some (imageBit (block * blockBytes + off) bit) else none

def inodeMap : ℕ := 2

def mkfsInodeBit (n : ℕ) : Option BitPlace := mkfsBit inodeMap n

/-- `alloc_zone`: `zone_map` and `zoff` as `super` sets them. -/
def mkfsZoneBit (sb : SuperBlock) (z : ℕ) : Option BitPlace :=
  mkfsBit (inodeMap + sb.imapBlocks.toNat) (z + 1 - sb.firstdatazone.toNat)

/-- The zone numbers of a file that `mkfs.py` fills: those in the inode and those in its single
    indirect block. -/
structure MkfsFile where
  zone : Zones := fun _ => 0
  indirect : ℕ → UInt16 := fun _ => 0

/-- `add_zone`: `fresh` is the zone that `alloc_zone` would give for the indirect block; `none`
    when the file has grown beyond it. -/
def addZone (fresh : UInt16) (f : MkfsFile) (z : UInt16) : Option MkfsFile :=
  match (List.range nrDzoneNum).find? fun i => f.zone i == 0 with
  | some i => some { f with zone := update f.zone i z }
  | none =>
    let f := if f.zone nrDzoneNum = 0 then
      { f with zone := update f.zone nrDzoneNum fresh } else f
    match (List.range nrIndirects).find? fun i => f.indirect i == 0 with
    | some i => some { f with indirect := update f.indirect i z }
    | none => none

/-! ## §2 `minixfs.py` -/

/-- The checks of `FS.__init__`. -/
def MinixfsAccepted (sb : SuperBlock) : Prop := sb.magic = superMagic ∧ sb.logZoneSize = 0

instance (sb : SuperBlock) : Decidable (MinixfsAccepted sb) := inferInstanceAs (Decidable (_ ∧ _))

/-- `inode`: the byte of the image. -/
def minixInode (sb : SuperBlock) (n : ℕ) : ℕ :=
  (2 + sb.imapBlocks.toNat + sb.zmapBlocks.toNat) * blockBytes + (n - 1) * inodeBytes

/-- `bit` -/
def minixBit (firstBlock i : ℕ) : BitPlace := imageBit (firstBlock * blockBytes + 2 * (i / 16)) i

def minixInodeBit (n : ℕ) : BitPlace := minixBit 2 n

/-- The test of `cmd_check` for a zone. -/
def minixZoneBit (sb : SuperBlock) (z : ℕ) : BitPlace :=
  minixBit (2 + sb.imapBlocks.toNat) (z + 1 - sb.firstdatazone.toNat)

/-- `zones`: the data zones of a file, in order. -/
def minixZones (zone : Zones) (ind : Indirect) : List UInt16 :=
  (List.range nrDzoneNum).map zone ++
  (if zone nrDzoneNum ≠ 0 then (List.range nrIndirects).map (ind (zone nrDzoneNum)) else []) ++
  if zone (nrDzoneNum + 1) ≠ 0 then
    (List.range nrIndirects).flatMap fun k =>
      let z := ind (zone (nrDzoneNum + 1)) k
      if z ≠ 0 then (List.range nrIndirects).map (ind z) else List.replicate nrIndirects 0
  else []

/-- The zone of a file position; a list that is too short has none there. -/
def minixZoneAt (zone : Zones) (ind : Indirect) (position : ℕ) : ℕ :=
  ((minixZones zone ind).getD (position / blockBytes) 0).toNat

/-! ## §3 Inodes and Bits -/

/-- A byte of the image, as block and byte in it. -/
def placeOf (pos : ℕ) : Place := ⟨pos / blockBytes, pos % blockBytes⟩

theorem mkfsInodePos_eq (sb : SuperBlock) (n : ℕ) : mkfsInodePos sb n = minixInode sb n := by
  unfold mkfsInodePos minixInode inodeOffset blockBytes inodesPerBlock inodeBytes
  dsimp only
  omega

variable {sb : SuperBlock} {zs : List UInt16} {ind : Indirect} {zone : Zones}

/-- **The three find the inode in the same place.** -/
theorem inodePlace_eq (hsb : sb.Accepted) {n : ℕ} (hn : 1 ≤ n)
    (hn' : n ≤ sb.ninodes.toNat) : inodePlace sb n = placeOf (minixInode sb n) := by
  obtain ⟨-, -, -, -, -, hi, hz⟩ := hsb
  have hmax := sb.ninodes.toNat_lt
  unfold iMapSlots at hi
  unfold zmapSlots at hz
  have hnum : unshort ((n : ℤ) - 1) = n - 1 := by
    unfold unshort
    omega
  unfold inodePlace placeOf minixInode
  rw [hnum]
  unfold unshort inodesPerBlock inodeBytes blockBytes
  simp only [Place.mk.injEq]
  omega

theorem bitPlace_eq {first blocks i : ℕ} (h : i / 8192 < blocks) :
    bitPlace first blocks i = some (minixBit first i) := by
  unfold bitPlace splitBit minixBit imageBit wordBit intBits blockBytes
  dsimp only
  rw [if_pos (by omega)]
  simp only [Option.some.injEq, BitPlace.mk.injEq, Place.mk.injEq]
  have hbit : (i - i / 2 ^ 13 * 2 ^ 13) % 16 = i % 16 := by omega
  rw [hbit]
  refine ⟨⟨by omega, by omega⟩, rfl⟩

variable {α : Type*}

/-- `mkfs.py` finds a bit in the same place, when it finds it at all. -/
theorem mkfsBit_eq_iff (first i : ℕ) : mkfsBit first i = some (minixBit first i) ↔ i < 8192 := by
  unfold mkfsBit minixBit blockBytes
  dsimp only
  split
  · next h => exact ⟨fun _ => by omega, fun _ => rfl⟩
  · next h => exact ⟨fun h' => absurd h' (by simp), fun h' => by omega⟩

theorem zoneBit_eq {z : ℕ} (hz : sb.firstdatazone.toNat ≤ z)
    (hz' : z < sb.nzones.toNat) : zoneBit sb z = z + 1 - sb.firstdatazone.toNat := by
  have hmax := sb.nzones.toNat_lt
  unfold zoneBit unshort
  omega

/-! ## §4 File Positions -/

theorem getD_append_left (l l' : List α) {i : ℕ} (d : α) (h : i < l.length) :
    (l ++ l').getD i d = l.getD i d := by
  rw [List.getD_eq_getElem?_getD, List.getD_eq_getElem?_getD, List.getElem?_append_left h]

theorem getD_append_right (l l' : List α) {i : ℕ} (d : α) (h : l.length ≤ i) :
    (l ++ l').getD i d = l'.getD (i - l.length) d := by
  rw [List.getD_eq_getElem?_getD, List.getD_eq_getElem?_getD, List.getElem?_append_right h]

theorem getD_beyond {l : List α} {i : ℕ} {d : α} (h : l.length ≤ i) : l.getD i d = d := by
  rw [List.getD_eq_getElem?_getD, List.getElem?_eq_none h]
  rfl

theorem getD_tabulate (f : ℕ → α) (n i : ℕ) (d : α) :
    ((List.range n).map f).getD i d = if i < n then f i else d := by
  rw [List.getD_eq_getElem?_getD]
  split
  · next h => simp [h]
  · next h => simp [h]

/-- An element of a concatenation of lists of equal length. -/
theorem getD_flatMap_blocks (f : ℕ → List α) {m : ℕ}
    (hf : ∀ k, (f k).length = m) (n i : ℕ) (d : α) :
    ((List.range n).flatMap f).getD i d = if i < n * m then (f (i / m)).getD (i % m) d else d := by
  have hlen : ∀ n, ((List.range n).flatMap f).length = n * m := by
    intro n
    induction n with
    | zero => simp
    | succ n ih => simp [List.range_succ, hf, Nat.succ_mul]
  induction n with
  | zero => simp
  | succ n ih =>
    have hmul : (n + 1) * m = n * m + m := Nat.succ_mul n m
    rw [List.range_succ, List.flatMap_append, List.flatMap_singleton]
    rcases Nat.lt_or_ge i (n * m) with hi | hi
    · rw [getD_append_left _ _ _ (by rw [hlen]; exact hi), ih, if_pos hi, if_pos (by omega)]
    · rw [getD_append_right _ _ _ (by rw [hlen]; exact hi), hlen]
      rcases Nat.lt_or_ge i (n * m + m) with hi' | hi'
      · have hdiv : i / m = n := by
          apply Nat.div_eq_of_lt_le
          · exact hi
          · rw [Nat.succ_mul]
            exact hi'
        have hmod : i % m = i - n * m := by
          have := Nat.div_add_mod i m
          rw [hdiv, Nat.mul_comm] at this
          omega
        rw [if_pos (by omega), hdiv, hmod]
      · rw [if_neg (by omega)]
        apply getD_beyond
        rw [hf]
        omega

/-- The zone of a place in the single indirect part of a file. -/
def singleZone (zone : Zones) (ind : Indirect) (j : ℕ) : UInt16 :=
  if zone nrDzoneNum = 0 then 0 else ind (zone nrDzoneNum) j

/-- The zone of a place in the double indirect part of a file. -/
def doubleZone (zone : Zones) (ind : Indirect) (j : ℕ) : UInt16 :=
  if zone (nrDzoneNum + 1) = 0 then 0
  else
    let z := ind (zone (nrDzoneNum + 1)) (j / nrIndirects)
    if z = 0 then 0 else ind z (j % nrIndirects)

theorem blockOf_zero (z : UInt16) : blockOf 0 z 0 = z.toNat := by
  have := z.toNat_lt
  unfold blockOf unshort
  omega

theorem readIndirect_eq (ind : Indirect) (z : UInt16) (excess : ℕ) :
    readIndirect ind 0 z excess 0 = (if z = 0 then 0 else ind z excess).toNat := by
  unfold readIndirect
  split
  · rfl
  · split
    · next h => rw [h]; rfl
    · exact blockOf_zero _

/-- **The zone of a file position, for the server**: direct, single indirect, double indirect. -/
theorem readMap_eq (hscale : sb.logZoneSize = 0) (zone : Zones) (ind : Indirect) (position : ℕ) :
    readMap sb zone ind position =
      (if position / blockBytes < nrDzoneNum then zone (position / blockBytes)
       else if position / blockBytes < nrDzoneNum + nrIndirects then
         singleZone zone ind (position / blockBytes - nrDzoneNum)
       else doubleZone zone ind (position / blockBytes - (nrDzoneNum + nrIndirects))).toNat := by
  unfold readMap
  rw [hscale]
  generalize position / blockBytes = k
  have hz : k / 2 ^ (0 : ℤ).toNat = k := Nat.div_one k
  have hboff : k - k * 2 ^ (0 : ℤ).toNat = 0 := by simp
  dsimp only
  rw [hz, hboff]
  by_cases hdirect : k < nrDzoneNum
  · rw [if_pos hdirect, if_pos hdirect]
    split
    · next h => rw [h]; rfl
    · exact blockOf_zero _
  · rw [if_neg hdirect, if_neg hdirect]
    by_cases hsingle : k < nrDzoneNum + nrIndirects
    · rw [if_pos hsingle, if_pos (by omega)]
      exact readIndirect_eq _ _ _
    · rw [if_neg hsingle, if_neg (by omega), Nat.sub_sub]
      unfold doubleZone
      split
      · rfl
      · exact readIndirect_eq _ _ _

/-- The part of `minixZones` that comes from the double indirect zone. -/
theorem minixZones_double (zone : Zones) (ind : Indirect) (j : ℕ) :
    (if zone (nrDzoneNum + 1) ≠ 0 then
      (List.range nrIndirects).flatMap fun k =>
        let z := ind (zone (nrDzoneNum + 1)) k
        if z ≠ 0 then (List.range nrIndirects).map (ind z) else List.replicate nrIndirects 0
     else []).getD j 0 =
      if j < nrIndirects * nrIndirects then doubleZone zone ind j else 0 := by
  unfold doubleZone
  by_cases hzero : zone (nrDzoneNum + 1) = 0
  · simp [hzero]
  · rw [if_pos hzero, getD_flatMap_blocks _ (m := nrIndirects) (fun k => by
      dsimp only
      split
      · rw [List.length_map, List.length_range]
      · rw [List.length_replicate])]
    have hmod : j % nrIndirects < nrIndirects := Nat.mod_lt _ (by decide)
    split
    · dsimp only
      by_cases hz : ind (zone (nrDzoneNum + 1)) (j / nrIndirects) = 0
      · rw [if_neg (not_not.mpr hz), if_pos hz]
        simp [List.getD_eq_getElem?_getD, hmod]
      · rw [if_pos hz, if_neg hz, getD_tabulate, if_pos hmod]
    · rfl

/-- **The zone of a file position, for `minixfs.py`**: as for the server, but the double indirect
    part comes right after the direct one when there is no single indirect zone. -/
theorem minixZoneAt_eq (zone : Zones) (ind : Indirect) (position : ℕ) :
    minixZoneAt zone ind position =
      (if position / blockBytes < nrDzoneNum then zone (position / blockBytes)
       else
         let j := position / blockBytes - nrDzoneNum
         let skip := if zone nrDzoneNum = 0 then 0 else nrIndirects
         if j < skip then singleZone zone ind j
         else if j - skip < nrIndirects * nrIndirects then doubleZone zone ind (j - skip)
         else 0).toNat := by
  unfold minixZoneAt minixZones
  generalize position / blockBytes = k
  congr 1
  have hdirect : ((List.range nrDzoneNum).map zone).length = nrDzoneNum := by simp
  rw [List.append_assoc]
  by_cases hk : k < nrDzoneNum
  · rw [getD_append_left _ _ _ (by rw [hdirect]; exact hk), getD_tabulate, if_pos hk, if_pos hk]
  · rw [getD_append_right _ _ _ (by rw [hdirect]; omega), hdirect, if_neg hk]
    dsimp only
    generalize k - nrDzoneNum = j
    by_cases hsingle : zone nrDzoneNum = 0
    · rw [if_neg (not_not.mpr hsingle), if_pos hsingle, List.nil_append, if_neg (Nat.not_lt_zero _),
        minixZones_double, Nat.sub_zero]
    · rw [if_pos hsingle, if_neg hsingle]
      have hlen : ((List.range nrIndirects).map (ind (zone nrDzoneNum))).length = nrIndirects := by
        simp
      by_cases hj : j < nrIndirects
      · rw [getD_append_left _ _ _ (by rw [hlen]; exact hj), getD_tabulate, if_pos hj, if_pos hj]
        unfold singleZone
        rw [if_neg hsingle]
      · rw [getD_append_right _ _ _ (by rw [hlen]; omega), hlen, if_neg hj, minixZones_double]

/-- The double indirect part of the file maps no zone. -/
def NoDouble (zone : Zones) (ind : Indirect) : Prop :=
  ∀ j < nrIndirects * nrIndirects, doubleZone zone ind j = 0

/-- The zones agree at every position of a file. -/
def ZonesAgree (sb : SuperBlock) (zone : Zones) (ind : Indirect) : Prop :=
  ∀ position < maxZones * blockBytes, minixZoneAt zone ind position = readMap sb zone ind position

theorem zonesAgree_of_single (hscale : sb.logZoneSize = 0)
    (h : zone nrDzoneNum ≠ 0) : ZonesAgree sb zone ind := by
  intro position hpos
  have hk : position / blockBytes < maxZones := Nat.div_lt_of_lt_mul (by rwa [Nat.mul_comm] at hpos)
  rw [minixZoneAt_eq, readMap_eq hscale]
  generalize position / blockBytes = k at hk
  dsimp only
  rw [if_neg h]
  congr 1
  by_cases hdirect : k < nrDzoneNum
  · rw [if_pos hdirect, if_pos hdirect]
  · rw [if_neg hdirect, if_neg hdirect]
    by_cases hsingle : k < nrDzoneNum + nrIndirects
    · rw [if_pos hsingle, if_pos (by omega)]
    · rw [if_neg hsingle, if_neg (by omega), if_pos, Nat.sub_sub]
      unfold maxZones at hk
      omega

theorem doubleZone_of_none (h : zone (nrDzoneNum + 1) = 0) (j : ℕ) : doubleZone zone ind j = 0 := by
  unfold doubleZone
  rw [if_pos h]

theorem zonesAgree_of_noDouble (hscale : sb.logZoneSize = 0)
    (hsingle : zone nrDzoneNum = 0) (h : NoDouble zone ind) :
    ZonesAgree sb zone ind := by
  intro position hpos
  have hk : position / blockBytes < maxZones := Nat.div_lt_of_lt_mul (by rwa [Nat.mul_comm] at hpos)
  rw [minixZoneAt_eq, readMap_eq hscale]
  generalize position / blockBytes = k at hk
  dsimp only
  rw [if_pos hsingle, if_neg (Nat.not_lt_zero _), Nat.sub_zero]
  congr 1
  by_cases hdirect : k < nrDzoneNum
  · rw [if_pos hdirect, if_pos hdirect]
  · rw [if_neg hdirect, if_neg hdirect]
    have hleft : (if k - nrDzoneNum < nrIndirects * nrIndirects then
        doubleZone zone ind (k - nrDzoneNum) else 0) = 0 := by
      split
      · next hj => exact h _ hj
      · rfl
    rw [hleft]
    split
    · unfold singleZone
      rw [if_pos hsingle]
    · rw [h]
      unfold maxZones at hk
      omega

/-- Where the zones agree without a single indirect zone, the double indirect part repeats itself
    and starts with nothing. -/
theorem noDouble_of_zonesAgree (hscale : sb.logZoneSize = 0)
    (hsingle : zone nrDzoneNum = 0) (h : ZonesAgree sb zone ind) :
    NoDouble zone ind := by
  have hat : ∀ k, nrDzoneNum ≤ k → k - nrDzoneNum < nrIndirects * nrIndirects →
      (if k < nrDzoneNum + nrIndirects then 0
       else doubleZone zone ind (k - (nrDzoneNum + nrIndirects))) =
        doubleZone zone ind (k - nrDzoneNum) := by
    intro k hge hlt
    have hagree := h (k * blockBytes) (by
      apply Nat.mul_lt_mul_of_pos_right _ (by decide)
      unfold maxZones
      omega)
    rw [minixZoneAt_eq, readMap_eq hscale, Nat.mul_div_cancel _ (by decide)] at hagree
    dsimp only at hagree
    rw [if_pos hsingle, if_neg (by omega), if_neg (Nat.not_lt_zero _), Nat.sub_zero, if_pos hlt,
      if_neg (by omega)] at hagree
    have hagree' := UInt16.toNat_inj.mp hagree
    unfold singleZone at hagree'
    rw [if_pos hsingle] at hagree'
    exact hagree'.symm
  intro j
  -- Each place is 512 after one that is known to map nothing.
  induction j using Nat.strong_induction_on with
  | _ j ih =>
    intro hj
    have hj' := hat (j + nrDzoneNum) (Nat.le_add_left _ _) (by rwa [Nat.add_sub_cancel])
    rw [Nat.add_sub_cancel] at hj'
    rw [← hj']
    split
    · rfl
    · next hge =>
      have hpos : 0 < nrIndirects := by decide
      apply ih <;> omega

/-- **The zones of a file agree** unless it has a double indirect zone that maps something and no
    single indirect zone. -/
theorem zonesAgree_iff (hscale : sb.logZoneSize = 0) (zone : Zones) (ind : Indirect) :
    ZonesAgree sb zone ind ↔ zone nrDzoneNum ≠ 0 ∨ NoDouble zone ind := by
  constructor
  · intro h
    by_cases hsingle : zone nrDzoneNum = 0
    · exact Or.inr (noDouble_of_zonesAgree hscale hsingle h)
    · exact Or.inl hsingle
  · intro h
    by_cases hsingle : zone nrDzoneNum = 0
    · exact zonesAgree_of_noDouble hscale hsingle (h.resolve_left (not_not.mpr hsingle))
    · exact zonesAgree_of_single hscale hsingle

/-! ## §5 Files Built by `mkfs.py` -/

/-- The zones of a file after a number of calls of `add_zone`. -/
structure Filled (f : MkfsFile) (zs : List UInt16) : Prop where
  direct : ∀ i < nrDzoneNum, f.zone i = zs.getD i 0
  single : f.zone nrDzoneNum = 0 ↔ zs.length ≤ nrDzoneNum
  double : f.zone (nrDzoneNum + 1) = 0
  indirect : ∀ i < nrIndirects, f.indirect i = zs.getD (nrDzoneNum + i) 0
  nonzero : ∀ z ∈ zs, z ≠ 0

theorem Filled.empty : Filled {} [] where
  direct _ _ := rfl
  single := by simp
  double := rfl
  indirect _ _ := rfl
  nonzero _ h := absurd h (by simp)

/-- The first free place of a table is the one after the entries made so far. -/
theorem find_free {g : ℕ → UInt16} {n : ℕ} (hg : ∀ i < n, g i = zs.getD i 0)
    (hz : ∀ z ∈ zs, z ≠ 0) :
    (List.range n).find? (fun i => g i == 0) = if zs.length < n then some zs.length else none := by
  have hused : ∀ i < zs.length, i < n → g i ≠ 0 := by
    intro i hi hin
    rw [hg i hin, List.getD_eq_getElem?_getD, List.getElem?_eq_getElem hi]
    exact hz _ (List.getElem_mem hi)
  split
  · next h =>
    rw [List.find?_range_eq_some]
    refine ⟨?_, List.mem_range.mpr h, ?_⟩
    · rw [hg _ h, getD_beyond le_rfl]
      rfl
    · intro i hi
      simpa using hused i hi (by omega)
  · next h =>
    rw [List.find?_range_eq_none]
    intro i hi
    simpa using hused i (by omega) hi

theorem getD_concat {z : UInt16} {i : ℕ} :
    (zs ++ [z]).getD i 0 = if i = zs.length then z else zs.getD i 0 := by
  rcases Nat.lt_trichotomy i zs.length with h | h | h
  · rw [getD_append_left _ _ _ h, if_neg (by omega)]
  · rw [getD_append_right _ _ _ (by omega), if_pos h, h, Nat.sub_self]
    rfl
  · rw [if_neg (by omega), getD_beyond (l := zs) (by omega)]
    apply getD_beyond
    rw [List.length_append, List.length_singleton]
    exact h

/-- **`add_zone` puts the zone behind those that were there**, up to the end of the single
    indirect block. -/
theorem addZone_filled {f : MkfsFile} {fresh z : UInt16} (hf : Filled f zs)
    (hfresh : fresh ≠ 0) (hz : z ≠ 0) (hlen : zs.length < nrDzoneNum + nrIndirects) :
    ∃ f', addZone fresh f z = some f' ∧ Filled f' (zs ++ [z]) := by
  have hnonzero : ∀ z' ∈ zs ++ [z], z' ≠ 0 := by
    intro z' hmem
    rcases List.mem_append.mp hmem with h | h
    · exact hf.nonzero z' h
    · rw [List.mem_singleton.mp h]
      exact hz
  unfold addZone
  rw [find_free hf.direct hf.nonzero]
  by_cases hdirect : zs.length < nrDzoneNum
  · rw [if_pos hdirect]
    refine ⟨_, rfl, ?_, ?_, ?_, ?_, hnonzero⟩
    · intro i hi
      dsimp only
      rw [getD_concat, update_apply]
      split
      · rfl
      · exact hf.direct i hi
    · dsimp only
      rw [update_of_ne (by omega), hf.single, List.length_append, List.length_singleton]
      omega
    · dsimp only
      rw [update_of_ne (by omega)]
      exact hf.double
    · intro i hi
      rw [getD_concat, if_neg (by omega)]
      exact hf.indirect i hi
  · rw [if_neg hdirect]
    -- The entries of the indirect block are those after the first seven.
    have hfree := @find_free (zs.drop nrDzoneNum) f.indirect nrIndirects (by
      intro i hi
      rw [hf.indirect i hi, List.getD_eq_getElem?_getD, List.getD_eq_getElem?_getD,
        List.getElem?_drop]) (fun z' h => hf.nonzero z' (List.mem_of_mem_drop h))
    rw [List.length_drop, if_pos (by omega)] at hfree
    have hind : ∀ i < nrIndirects, update f.indirect (zs.length - nrDzoneNum) z i =
        (zs ++ [z]).getD (nrDzoneNum + i) 0 := by
      intro i hi
      rw [getD_concat, update_apply]
      by_cases h : i = zs.length - nrDzoneNum
      · rw [if_pos h, if_pos (by omega)]
      · rw [if_neg h, if_neg (by omega)]
        exact hf.indirect i hi
    dsimp only
    by_cases hempty : f.zone nrDzoneNum = 0
    · rw [if_pos hempty]
      dsimp only
      rw [hfree]
      refine ⟨_, rfl, ?_, ?_, ?_, hind, hnonzero⟩
      · intro i hi
        dsimp only
        rw [update_of_ne (by omega), getD_concat, if_neg (by omega)]
        exact hf.direct i hi
      · dsimp only
        rw [update_self, List.length_append, List.length_singleton]
        exact ⟨fun h => absurd h hfresh, fun h => by omega⟩
      · dsimp only
        rw [update_of_ne (by omega)]
        exact hf.double
    · rw [if_neg hempty, hfree]
      refine ⟨_, rfl, ?_, ?_, hf.double, hind, hnonzero⟩
      · intro i hi
        rw [getD_concat, if_neg (by omega)]
        exact hf.direct i hi
      · rw [List.length_append, List.length_singleton]
        exact ⟨fun h => absurd h hempty, fun h => by omega⟩

/-- `eat_file`: a file of the zones `zs`; `fresh` is the zone for its indirect block. -/
def addZones (fresh : UInt16) (zs : List UInt16) : Option MkfsFile :=
  zs.foldlM (addZone fresh) {}

theorem foldlM_addZone_filled {fresh : UInt16} (hfresh : fresh ≠ 0) {f : MkfsFile}
    {done zs : List UInt16} (hf : Filled f done) (hz : ∀ z ∈ zs, z ≠ 0)
    (hlen : (done ++ zs).length ≤ nrDzoneNum + nrIndirects) :
    ∃ f', zs.foldlM (addZone fresh) f = some f' ∧ Filled f' (done ++ zs) := by
  induction zs generalizing f done with
  | nil => exact ⟨f, rfl, by rwa [List.append_nil]⟩
  | cons z zs ih =>
    rw [List.length_append, List.length_cons] at hlen
    obtain ⟨f', hadd, hf'⟩ := addZone_filled hf hfresh (hz z List.mem_cons_self) (by omega)
    obtain ⟨f'', hrest, hf''⟩ := ih hf' (fun z' h => hz z' (List.mem_cons_of_mem z h)) (by
      rw [List.append_assoc, List.length_append, List.singleton_append, List.length_cons]
      exact hlen)
    refine ⟨f'', ?_, ?_⟩
    · rw [List.foldlM_cons, hadd]
      exact hrest
    · rwa [List.append_assoc, List.singleton_append] at hf''

/-- **A file built by `mkfs.py` is read back by the server**: zone `k` of the file is the `k`-th
    that was added. -/
theorem readMap_filled (hscale : sb.logZoneSize = 0) {f : MkfsFile} (hf : Filled f zs)
    (hind : ∀ i < nrIndirects, ind (f.zone nrDzoneNum) i = f.indirect i)
    (hlen : zs.length ≤ nrDzoneNum + nrIndirects) (position : ℕ) :
    readMap sb f.zone ind position = (zs.getD (position / blockBytes) 0).toNat := by
  rw [readMap_eq hscale]
  generalize position / blockBytes = k
  congr 1
  by_cases hdirect : k < nrDzoneNum
  · rw [if_pos hdirect]
    exact hf.direct k hdirect
  · rw [if_neg hdirect]
    by_cases hsingle : k < nrDzoneNum + nrIndirects
    · rw [if_pos hsingle]
      unfold singleZone
      split
      · next h => rw [getD_beyond (le_trans (hf.single.mp h) (by omega))]
      · rw [hind _ (by omega), hf.indirect _ (by omega), Nat.add_sub_cancel' (by omega)]
    · rw [if_neg hsingle, doubleZone_of_none hf.double, getD_beyond (by omega)]

theorem addZones_readMap (hscale : sb.logZoneSize = 0) {fresh : UInt16}
    (hfresh : fresh ≠ 0) (hz : ∀ z ∈ zs, z ≠ 0)
    (hlen : zs.length ≤ nrDzoneNum + nrIndirects) :
    ∃ f, addZones fresh zs = some f ∧ ∀ ind : Indirect,
      (∀ i < nrIndirects, ind (f.zone nrDzoneNum) i = f.indirect i) → ∀ position,
        readMap sb f.zone ind position = (zs.getD (position / blockBytes) 0).toNat := by
  obtain ⟨f, hadd, hf⟩ := foldlM_addZone_filled hfresh Filled.empty hz
    (by rwa [List.nil_append])
  rw [List.nil_append] at hf
  exact ⟨f, hadd, fun ind hind position => readMap_filled hscale hf hind hlen position⟩

/-! ## §6 Agreement -/

/-- The three programs agree about inode `n`, zone `z` and the file with the zone numbers `zone`,
    whose indirect blocks hold `ind`. -/
structure Agree (sb : SuperBlock) (n z : ℕ) (zone : Zones) (ind : Indirect) : Prop where
  inode_mkfs : placeOf (mkfsInodePos sb n) = inodePlace sb n
  inode_minixfs : placeOf (minixInode sb n) = inodePlace sb n
  inodeBit_mkfs : mkfsInodeBit n = some (minixInodeBit n)
  inodeBit_server : inodeBitPlace sb n = some (minixInodeBit n)
  zoneBit_mkfs : mkfsZoneBit sb z = some (minixZoneBit sb z)
  zoneBit_server : zoneBitPlace sb z = some (minixZoneBit sb z)
  zones : ZonesAgree sb zone ind

/-- What `alloc_bit` turns on in a map is the bit that the others find for the number. -/
def AllocAgrees (first blocks : ℕ) : Prop :=
  ∀ (map map' : BitMap) (mapBits origin a : ℕ), origin / 2 ^ 13 < blocks →
    allocBit map mapBits blocks origin = some (a, map') →
      ∃ b w i, map' = setBit map b w i ∧ wordBit (first + b) w i = minixBit first a

theorem allocAgrees (first : ℕ) {blocks : ℕ} (h : blocks ≤ 8) : AllocAgrees first blocks := by
  intro map map' mapBits origin a horigin halloc
  obtain ⟨b, w, i, hsplit, hb, -, hmap⟩ := allocBit_spec h horigin halloc
  refine ⟨b, w, i, hmap, ?_⟩
  have hsplit' := hsplit
  unfold splitBit at hsplit'
  have hplace := @bitPlace_eq first blocks a (by
    simp only [Prod.mk.injEq] at hsplit'
    omega)
  unfold bitPlace at hplace
  rw [hsplit] at hplace
  dsimp only at hplace
  rw [if_pos hb] at hplace
  exact Option.some.inj hplace

/-- **The disk format of the three programs.**  For every super block that the server and
    `minixfs.py` accept, every inode and every zone, the three agree just when both bits are in the
    first block of their map, as far as `mkfs.py` can reach, and the file does not have a
    double indirect zone that maps something without a single indirect one.  `alloc_bit` sets the
    bits where the tools find them, and the files that `mkfs.py` builds are read by the server
    zone by zone. -/
theorem disk_format_agree_iff (sb : SuperBlock) (hsb : sb.Accepted) (htool : MinixfsAccepted sb)
    (n z : ℕ) (hn : 1 ≤ n ∧ n ≤ sb.ninodes.toNat)
    (hz : sb.firstdatazone.toNat ≤ z ∧ z < sb.nzones.toNat) (zone : Zones) (ind : Indirect) :
    (Agree sb n z zone ind ↔
      n < 8192 ∧ z + 1 - sb.firstdatazone.toNat < 8192 ∧
        (zone nrDzoneNum ≠ 0 ∨ NoDouble zone ind)) ∧
    AllocAgrees 2 sb.imapBlocks.toNat ∧
    AllocAgrees (2 + sb.imapBlocks.toNat) sb.zmapBlocks.toNat ∧
    ∀ (fresh : UInt16) (zs : List UInt16), fresh ≠ 0 → (∀ z ∈ zs, z ≠ 0) →
      zs.length ≤ nrDzoneNum + nrIndirects →
      ∃ f, addZones fresh zs = some f ∧ ∀ ind : Indirect,
        (∀ i < nrIndirects, ind (f.zone nrDzoneNum) i = f.indirect i) → ∀ position,
          readMap sb f.zone ind position = (zs.getD (position / blockBytes) 0).toNat := by
  have hinode := inodePlace_eq hsb hn.1 hn.2
  have hmaps := hsb
  obtain ⟨-, -, -, himap, hzmap, himap', hzmap'⟩ := hmaps
  refine ⟨⟨?_, ?_⟩, allocAgrees _ himap', allocAgrees _ hzmap',
    fun fresh zs hfresh hzs hlen => addZones_readMap htool.2 hfresh hzs hlen⟩
  · intro h
    exact ⟨(mkfsBit_eq_iff _ _).mp h.inodeBit_mkfs, (mkfsBit_eq_iff _ _).mp h.zoneBit_mkfs,
      (zonesAgree_iff htool.2 zone ind).mp h.zones⟩
  · rintro ⟨hbit, hzbit, hzones⟩
    constructor
    · rw [mkfsInodePos_eq, hinode]
    · exact hinode.symm
    · exact (mkfsBit_eq_iff _ _).mpr hbit
    · unfold inodeBitPlace
      rw [bitPlace_eq (by omega)]
      rfl
    · exact (mkfsBit_eq_iff _ _).mpr hzbit
    · unfold zoneBitPlace
      rw [zoneBit_eq hz.1 hz.2, bitPlace_eq (by omega)]
      rfl
    · exact (zonesAgree_iff htool.2 zone ind).mpr hzones

/-- A file system of 9600 zones, as on a ten megabyte disk. -/
def exampleSuper : SuperBlock :=
  { ninodes := 1000, nzones := 9600, imapBlocks := 1, zmapBlocks := 2, firstdatazone := 37,
    logZoneSize := 0, maxSize := 268966912, magic := superMagic }

/-- A file with one zone, at the first position of the double indirect part. -/
def sparseZone : Zones := fun i => if i = 8 then 100 else 0

def sparseIndirect : Indirect := fun z i =>
  if z = 100 ∧ i = 0 then 101 else if z = 101 ∧ i = 0 then 102 else 0

/-- A file of nine zones, 100 to 108, of which the last two are in the indirect block 200. -/
def nineZones : Zones := fun i =>
  if i < nrDzoneNum then UInt16.ofNat (100 + i) else if i = nrDzoneNum then 200 else 0

def nineIndirect : Indirect := fun z i => if z = 200 ∧ i < 2 then UInt16.ofNat (107 + i) else 0

/-- Inode 500, zone 5000 and the file of nine zones. -/
theorem disk_format_agree_nineZones :
    Agree exampleSuper 500 5000 nineZones nineIndirect ∧ AllocAgrees 2 1 ∧ AllocAgrees 3 2 ∧
    readMap exampleSuper nineZones nineIndirect (8 * 1024) = 108 ∧
    ∃ f, addZones 200 ((List.range 9).map fun i => UInt16.ofNat (100 + i)) = some f ∧
      ∀ ind : Indirect, (∀ i < nrIndirects, ind (f.zone nrDzoneNum) i = f.indirect i) →
        readMap exampleSuper f.zone ind (8 * 1024) = 108 := by
  obtain ⟨hagree, hinodes, hzones, hbuilt⟩ := disk_format_agree_iff exampleSuper (by decide) (by decide)
    500 5000 (by decide) (by decide) nineZones nineIndirect
  have hnonzero : ∀ z ∈ (List.range 9).map fun i => UInt16.ofNat (100 + i), z ≠ 0 :=
    List.forall_mem_map.mpr (by decide)
  obtain ⟨f, hf, hread⟩ := hbuilt 200 ((List.range 9).map fun i => UInt16.ofNat (100 + i)) (by decide)
    hnonzero (by decide)
  exact ⟨hagree.mpr ⟨by decide, by decide, .inl (by decide)⟩, hinodes, hzones, by decide, f, hf,
    fun ind hind => (hread ind hind (8 * 1024)).trans (by decide)⟩

/-- **Two disagreements.**  `minixfs.py` finds nothing where the server finds the only zone of the
    sparse file, and `mkfs.py` fails to insert the bit of zone 9000. -/
theorem disk_format_disagree :
    exampleSuper.Accepted ∧ MinixfsAccepted exampleSuper ∧
    (readMap exampleSuper sparseZone sparseIndirect (519 * 1024) = 102 ∧
      minixZoneAt sparseZone sparseIndirect (519 * 1024) = 0 ∧
      ¬ Agree exampleSuper 1 37 sparseZone sparseIndirect) ∧
    mkfsZoneBit exampleSuper 9000 = none ∧ ¬ Agree exampleSuper 1 9000 (fun _ => 0) fun _ _ => 0 := by
  have hread : readMap exampleSuper sparseZone sparseIndirect (519 * 1024) = 102 := by decide
  have hminix : minixZoneAt sparseZone sparseIndirect (519 * 1024) = 0 := by
    rw [minixZoneAt_eq]
    decide
  have hbit : mkfsZoneBit exampleSuper 9000 = none := by decide
  refine ⟨by decide, by decide, ⟨hread, hminix, ?_⟩, hbit, ?_⟩
  · intro h
    have := h.zones (519 * 1024) (by decide)
    rw [hread, hminix] at this
    exact absurd this (by decide)
  · intro h
    have := h.zoneBit_mkfs
    rw [hbit] at this
    exact absurd this (by simp)

end LisaMinix.Tools
