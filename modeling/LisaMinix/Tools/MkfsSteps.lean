import LisaMinix.Library.Guarded
import LisaMinix.Tools.Mkfs

/-!
# The Operations of `mkfs.py`

Every operation succeeds just if there is room for what it takes and its name and its links can be
stored.

- `Base`: the invariant of the image; `Room s i z`: `i` inodes and `z` zones can still be allocated.
- `Grows`: what an operation takes, and what it leaves alone.
- `DirAt`, `FileAt`: a directory with a number of entries, a file with a number of blocks.
- `newEntry_spec`, `newDir_child`, `newDir_root`, `eatFile_spec`: the parts of `eat_dir`.
-/

namespace LisaMinix.Tools.Mkfs

open Function

open Library

variable {off : ℕ}

/-! ## §1 Words of a Block -/

theorem getWord_zero (little : Bool) (off : ℕ) : getWord little (fun _ => 0) off = 0 := by
  cases little <;> rfl

theorem getWord_congr {little : Bool} {blk blk' : Block} (h0 : blk off = blk' off)
    (h1 : blk (off + 1) = blk' (off + 1)) : getWord little blk off = getWord little blk' off := by
  unfold getWord
  rw [h0, h1]

theorem getWord_putWord_self (little : Bool) (blk : Block) (off : ℕ) {v : ℕ} (hv : v < 65536) :
    getWord little (putWord little blk off v) off = v := by
  have hlo : (UInt8.ofNat (v % 256)).toNat = v % 256 := by simp
  have hhi : (UInt8.ofNat (v / 256)).toNat = v / 256 := by
    simp only [UInt8.toNat_ofNat']
    omega
  have hne : off + 1 ≠ off := by omega
  cases little <;> simp only [getWord, putWord, if_false, if_pos, if_neg hne,
    Bool.false_eq_true, hlo, hhi] <;> omega

theorem getWord_putWord_of_ne (little : Bool) (blk : Block) {off' : ℕ} (v : ℕ)
    (h : off' + 2 ≤ off ∨ off + 2 ≤ off') :
    getWord little (putWord little blk off v) off' = getWord little blk off' := by
  apply getWord_congr
  · unfold putWord
    rw [if_neg (by omega), if_neg (by omega)]
  · unfold putWord
    rw [if_neg (by omega), if_neg (by omega)]

theorem getWord_putEntry_self (little : Bool) (blk : Block) (off : ℕ) {child : ℕ} (raw : Name)
    (hc : child < 65536) : getWord little (putEntry little blk off child raw) off = child := by
  refine (getWord_congr ?_ ?_).trans (getWord_putWord_self little blk off hc)
  · unfold putEntry
    rw [if_neg (by omega)]
  · unfold putEntry
    rw [if_neg (by omega)]

theorem getWord_putEntry_of_ne (little : Bool) (blk : Block) {off' : ℕ} (child : ℕ) (raw : Name)
    (h : off' + 2 ≤ off ∨ off + 16 ≤ off') :
    getWord little (putEntry little blk off child raw) off' = getWord little blk off' := by
  have hword : off' + 2 ≤ off ∨ off + 2 ≤ off' := by omega
  rw [← getWord_putWord_of_ne little blk child hword]
  apply getWord_congr
  · unfold putEntry dirEntrySize
    rw [if_neg (by omega)]
  · unfold putEntry dirEntrySize
    rw [if_neg (by omega)]

/-- A search for a free place finds the first one. -/
theorem find?_range_first {N j : ℕ} {p : ℕ → Prop} [DecidablePred p] (hj : j < N) (hp : p j)
    (hlt : ∀ i < j, ¬p i) : ((List.range N).find? fun i => p i) = some j := by
  rw [List.find?_range_eq_some]
  refine ⟨by simpa using hp, List.mem_range.mpr hj, ?_⟩
  intro i hi
  simpa using hlt i hi

theorem find?_range_none {N : ℕ} {p : ℕ → Prop} [DecidablePred p] (h : ∀ i < N, ¬p i) :
    ((List.range N).find? fun i => p i) = none := by
  rw [List.find?_eq_none]
  intro i hi
  simpa using h i (List.mem_range.mp hi)

theorem packH_eq {q : ℕ} (hq : q < 65536) : packH q = some q := by
  unfold packH
  rw [if_pos ⟨Int.natCast_nonneg _, by omega⟩, Int.toNat_natCast]

/-! ## §2 The Image -/

/-- The uid and the gid of a line fit into an inode. -/
def Attr.Fits (a : Attr) : Prop := (0 ≤ a.uid ∧ a.uid < 65536) ∧ 0 ≤ a.gid ∧ a.gid < 256

instance (a : Attr) : Decidable a.Fits := inferInstanceAs (Decidable (_ ∧ _))

/-- The mode of a line always does. -/
theorem headPacks_iff {kind : ℕ} (hkind : kind ≤ iRegular) (a : Attr) :
    HeadPacks (modeCon kind a) a.uid a.gid ↔ a.Fits := by
  have hperm := a.perm.isLt
  have hmode : modeCon kind a < 65536 := by
    unfold modeCon iSetUidBit iSetGidBit
    unfold iRegular at hkind
    split <;> split <;> omega
  exact and_iff_right hmode

namespace FileSystem

variable {b' q child l p : ℕ}

/-- A bit that may be set: that of an inode or a zone that has been allocated, bit 0 of a map, or a
    bit past the end of one. -/
def Allowed (s : FileSystem) (p : ℕ × ℕ) : Prop :=
  (∃ n, 1 ≤ n ∧ n < s.nextInode ∧ p = (inodeMap + n / bitsPerBlock, n % bitsPerBlock)) ∨
  (∃ z, s.firstdatazone ≤ z ∧ z < s.nextZone ∧
    p = (s.zoneMap + (z + 1 - s.firstdatazone) / bitsPerBlock,
      (z + 1 - s.firstdatazone) % bitsPerBlock)) ∨
  p = (inodeMap, 0) ∨ p = (s.zoneMap, 0) ∨
  (∃ n, s.nrinodes < n ∧ p = (inodeMap + n / bitsPerBlock, n % bitsPerBlock) ∧ p.1 < s.zoneMap) ∨
  ∃ m, s.nrblocks < m + s.firstdatazone ∧
    p = (s.zoneMap + m / bitsPerBlock, m % bitsPerBlock) ∧ p.1 < s.zoneMap + bitmapsize s.nrblocks

/-- `i` more inodes and `z` more zones. -/
def Room (s : FileSystem) (i z : ℕ) : Prop :=
  (s.nextInode + i ≤ s.nrinodes ∧ s.nextInode + i ≤ bitsPerBlock) ∧
    s.nextZone + z ≤ s.nrblocks ∧ s.nextZone + z < s.firstdatazone + bitsPerBlock

instance (s : FileSystem) (i z : ℕ) : Decidable (s.Room i z) := inferInstanceAs (Decidable (_ ∧ _))

/-- The invariant of the image. -/
structure Base (s : FileSystem) : Prop where
  blocks : s.nrblocks ≤ 65535
  maps : inodeMap < s.zoneMap ∧ s.zoneMap < s.firstdatazone
  inodes : 1 ≤ s.nextInode
  zones : s.firstdatazone ≤ s.nextZone
  room : s.Room 0 0
  zero : ∀ z, s.nextZone ≤ z → s.block z = fun _ => 0
  bits : ∀ p ∈ s.bits, s.Allowed p

/-- `i` inodes and `z` zones have been allocated; the inodes that there were, but for `n`, and the
    blocks below `b` are as they were. -/
structure Grows (n b i z : ℕ) (s s' : FileSystem) : Prop where
  base : s'.Base
  same : s'.little = s.little ∧ s'.nrblocks = s.nrblocks ∧ s'.nrinodes = s.nrinodes ∧
    s'.firstdatazone = s.firstdatazone
  nextInode : s'.nextInode = s.nextInode + i
  nextZone : s'.nextZone = s.nextZone + z
  inode : ∀ m < s.nextInode, m ≠ n → s'.inode m = s.inode m
  block : ∀ z < b, s'.block z = s.block z

variable {s s' s'' : FileSystem} {n b i z i' z' : ℕ}

theorem Grows.room_iff (h : Grows n b i z s s') : s'.Room i' z' ↔ s.Room (i + i') (z + z') := by
  obtain ⟨-, h1, h2, h3⟩ := h.same
  unfold Room
  rw [h.nextInode, h.nextZone, h1, h2, h3, Nat.add_assoc, Nat.add_assoc]

/-- A second step may change the same inode or a new one, and new blocks. -/
theorem Grows.trans {n' : ℕ} (h : Grows n b i z s s') (h' : Grows n' b' i' z' s' s'')
    (hn : n' = n ∨ s.nextInode ≤ n') (hb : b ≤ b') : Grows n b (i + i') (z + z') s s'' where
  base := h'.base
  same := by
    obtain ⟨h0, h1, h2, h3⟩ := h.same
    obtain ⟨h0', h1', h2', h3'⟩ := h'.same
    exact ⟨h0'.trans h0, h1'.trans h1, h2'.trans h2, h3'.trans h3⟩
  nextInode := by rw [h'.nextInode, h.nextInode, Nat.add_assoc]
  nextZone := by rw [h'.nextZone, h.nextZone, Nat.add_assoc]
  inode := by
    intro m hm hne
    have hlt : m < s'.nextInode := by rw [h.nextInode]; omega
    have hne' : m ≠ n' := by omega
    exact (h'.inode m hlt hne').trans (h.inode m hm hne)
  block := fun z hz => (h'.block z (hz.trans_le hb)).trans (h.block z hz)

/-- If the inode that may change is new, then none of the old ones does. -/
theorem Grows.of_new (h : Grows n b i z s s') (hn : s.nextInode ≤ n) (m : ℕ) : Grows m b i z s s' :=
  { h with inode := fun k hk _ => h.inode k hk (by omega) }

theorem Grows.lower (h : Grows n b i z s s') (hb : b' ≤ b) : Grows n b' i z s s' :=
  { h with block := fun q hq => h.block q (hq.trans_le hb) }

theorem Grows.le (h : Grows n b i z s s') :
    s.nextInode ≤ s'.nextInode ∧ s.nextZone ≤ s'.nextZone := by
  rw [h.nextInode, h.nextZone]
  omega

theorem Grows.refl (h : s.Base) : Grows n b 0 0 s s :=
  ⟨h, ⟨rfl, rfl, rfl, rfl⟩, rfl, rfl, fun _ _ _ => rfl, fun _ _ => rfl⟩

/-- A condition that goes on after more has been allocated. -/
theorem Room.mono {j y : ℕ} (h : s.Room i z) (hi : j ≤ i) (hz : y ≤ z) : s.Room j y := by
  unfold Room at h ⊢
  omega

/-! ## §3 Allocation -/

theorem Allowed.mono {p : ℕ × ℕ} (h : s.Allowed p) (hi : s.nextInode ≤ s'.nextInode)
    (hz : s.nextZone ≤ s'.nextZone) (hsame : s'.nrblocks = s.nrblocks ∧ s'.nrinodes = s.nrinodes ∧
      s'.firstdatazone = s.firstdatazone ∧ s'.zoneMap = s.zoneMap) : s'.Allowed p := by
  obtain ⟨h1, h2, h3, h4⟩ := hsame
  unfold Allowed at h ⊢
  rw [h1, h2, h3, h4]
  rcases h with ⟨n, hn, hlt, hp⟩ | ⟨z, hz', hlt, hp⟩ | h
  · exact Or.inl ⟨n, hn, hlt.trans_le hi, hp⟩
  · exact Or.inr (Or.inl ⟨z, hz', hlt.trans_le hz, hp⟩)
  · exact Or.inr (Or.inr h)

theorem allocZone_spec (h : s.Base) (n b : ℕ) :
    Guarded s.allocZone (s.Room 0 1) fun r =>
      r.1 = s.nextZone ∧ Grows n b 0 1 s r.2 ∧ r.2.inode = s.inode ∧ r.2.block = s.block := by
  obtain ⟨hroom, hroom'⟩ := h.room
  have hzones := h.zones
  obtain ⟨hmap1, hmap2⟩ := h.maps
  unfold bitsPerBlock at hroom hroom'
  unfold allocZone insertBit
  constructor
  · rintro ⟨-, hlt, hbit⟩
    unfold bitsPerBlock at hbit
    dsimp only
    rw [if_neg (by omega), if_pos (Or.inr ⟨by omega, by unfold bitsPerBlock; omega⟩)]
    refine ⟨_, rfl, rfl, ⟨⟨h.blocks, h.maps, h.inodes, by dsimp only; omega, ?_, ?_, ?_⟩,
      ⟨rfl, rfl, rfl, rfl⟩, rfl, rfl, fun _ _ _ => rfl, fun _ _ => rfl⟩, rfl, rfl⟩
    · unfold Room bitsPerBlock
      dsimp only
      omega
    · intro z hz
      exact h.zero z (Nat.le_of_succ_le hz)
    · intro p hp
      rcases List.mem_append.mp hp with hp | hp
      · exact (h.bits p hp).mono le_rfl (Nat.le_succ _) ⟨rfl, rfl, rfl, rfl⟩
      · -- The new bit is in the first block of the map.
        have hp : p = (s.zoneMap, s.nextZone - (s.firstdatazone - 1)) := by simpa using hp
        refine Or.inr (Or.inl ⟨s.nextZone, hzones, Nat.lt_succ_self _, ?_⟩)
        have hidx : s.nextZone - (s.firstdatazone - 1) = s.nextZone + 1 - s.firstdatazone := by omega
        have hlt' : s.nextZone + 1 - s.firstdatazone < bitsPerBlock := by unfold bitsPerBlock; omega
        change p = (s.zoneMap + (s.nextZone + 1 - s.firstdatazone) / bitsPerBlock,
          (s.nextZone + 1 - s.firstdatazone) % bitsPerBlock)
        rw [hp, hidx, Nat.div_eq_of_lt hlt', Nat.mod_eq_of_lt hlt']
        rfl
  · intro hno
    unfold Room bitsPerBlock at hno
    dsimp only
    split
    · rfl
    · rw [if_neg (by unfold bitsPerBlock; omega)]
      rfl

/-- What `put_inode` leaves. -/
def stored (ino : Inode) : Inode := { ino with size := ino.size % 2 ^ 32 }

theorem putInode_spec (h : s.Base) (m b : ℕ) (ino : Inode) :
    Guarded (s.putInode m ino) ino.Packs fun s' =>
      Grows m b 0 0 s s' ∧ s'.inode = update s.inode m (stored ino) ∧ s'.block = s.block := by
  refine Guarded.ite fun _ => ⟨⟨⟨h.blocks, h.maps, h.inodes, h.zones, h.room, h.zero, h.bits⟩,
    ⟨rfl, rfl, rfl, rfl⟩, rfl, rfl, ?_, fun _ _ => rfl⟩, rfl, rfl⟩
  intro k _ hk
  exact update_of_ne hk ..

theorem putBlock_grows (h : s.Base) (n : ℕ) (hq : q < s.nextZone) (blk : Block) :
    Grows n q 0 0 s (s.putBlock q blk) := by
  refine ⟨⟨h.blocks, h.maps, h.inodes, h.zones, h.room, ?_, h.bits⟩, ⟨rfl, rfl, rfl, rfl⟩, rfl, rfl,
    fun _ _ _ => rfl, ?_⟩
  · intro z hz
    have hz : s.nextZone ≤ z := hz
    exact (update_of_ne (by omega) ..).trans (h.zero z hz)
  · intro z hz
    exact update_of_ne (Nat.ne_of_lt hz) ..

theorem allocInode_spec (h : s.Base) (mode : ℕ) (uid gid : ℤ) (n b : ℕ) :
    Guarded (s.allocInode mode uid gid) (HeadPacks mode uid gid ∧ s.Room 1 0) fun r =>
      r.1 = s.nextInode ∧ Grows n b 1 0 s r.2 ∧
        r.2.inode s.nextInode = ⟨mode, uid, gid, 0, 0, fun _ => 0⟩ ∧ r.2.block = s.block := by
  obtain ⟨hroom, hroom'⟩ := h.room
  obtain ⟨hmap1, hmap2⟩ := h.maps
  have hzones := h.zones
  have hinodes := h.inodes
  unfold bitsPerBlock at hroom hroom'
  have hpacks (hhead : HeadPacks mode uid gid) : Inode.Packs ⟨mode, uid, gid, 0, 0, fun _ => 0⟩ :=
    ⟨by simp, fun _ _ => by simp, hhead⟩
  unfold allocInode putInode insertBit
  constructor
  · rintro ⟨hhead, ⟨hlt, hbit⟩, -⟩
    unfold bitsPerBlock at hbit
    dsimp only
    rw [if_neg (by omega), if_pos (hpacks hhead), Option.bind_some]
    dsimp only
    rw [if_pos (Or.inr ⟨by omega, by unfold bitsPerBlock; omega⟩)]
    refine ⟨_, rfl, rfl, ⟨⟨h.blocks, h.maps, by dsimp only; omega, h.zones, ?_, h.zero, ?_⟩,
      ⟨rfl, rfl, rfl, rfl⟩, rfl, rfl, ?_, fun _ _ => rfl⟩, update_self .., rfl⟩
    · unfold Room bitsPerBlock
      dsimp only
      omega
    · intro p hp
      rcases List.mem_append.mp hp with hp | hp
      · exact (h.bits p hp).mono (Nat.le_succ _) le_rfl ⟨rfl, rfl, rfl, rfl⟩
      · have hp : p = (inodeMap, s.nextInode) := by simpa using hp
        refine Or.inl ⟨s.nextInode, hinodes, Nat.lt_succ_self _, ?_⟩
        have hlt' : s.nextInode < bitsPerBlock := by unfold bitsPerBlock; omega
        rw [hp, Nat.div_eq_of_lt hlt', Nat.mod_eq_of_lt hlt', Nat.add_zero]
    · intro k hk _
      exact update_of_ne (Nat.ne_of_lt hk) ..
  · intro hno
    unfold Room bitsPerBlock at hno
    dsimp only
    by_cases hnum : s.nrinodes ≤ s.nextInode
    · rw [if_pos hnum]
    rw [if_neg hnum]
    by_cases hhead : HeadPacks mode uid gid
    · have hfull := not_and.mp hno hhead
      rw [if_pos (hpacks hhead), Option.bind_some]
      dsimp only
      rw [if_neg (by unfold bitsPerBlock; omega)]
      rfl
    · rw [if_neg fun hall => hhead hall.2.2]
      rfl

/-! ## §4 Directories -/

/-- Inode `n` is a directory with `m` zones, which are not below `b`, and `k` entries. -/
structure DirAt (s : FileSystem) (n b m k : ℕ) : Prop where
  bound : n < s.nextInode
  packs : (s.inode n).Packs
  used : ∀ i < nrDzoneNum, (s.inode n).zone i ≠ 0 ↔ i < m
  range : ∀ i < m, b ≤ (s.inode n).zone i ∧ (s.inode n).zone i < s.nextZone
  inj : ∀ i < m, ∀ j < m, (s.inode n).zone i = (s.inode n).zone j → i = j
  slots : ∀ i < m, ∀ j < 64,
    getWord s.little (s.block ((s.inode n).zone i)) (dirEntrySize * j) ≠ 0 ↔ 64 * i + j < k

variable {m k : ℕ}

/-- A change to the links or the size of the directory, and what is allocated elsewhere. -/
theorem DirAt.transfer (h : DirAt s n b m k) (hpacks : (s'.inode n).Packs)
    (hzone : (s'.inode n).zone = (s.inode n).zone) (hlittle : s'.little = s.little)
    (hi : s.nextInode ≤ s'.nextInode) (hz : s.nextZone ≤ s'.nextZone)
    (hblock : ∀ q < s.nextZone, s'.block q = s.block q) : DirAt s' n b m k where
  bound := h.bound.trans_le hi
  packs := hpacks
  used := by rw [hzone]; exact h.used
  range := by
    rw [hzone]
    exact fun i hi => ⟨(h.range i hi).1, (h.range i hi).2.trans_le hz⟩
  inj := by rw [hzone]; exact h.inj
  slots := by
    intro i hi j hj
    rw [hzone, hlittle, hblock _ (h.range i hi).2]
    exact h.slots i hi j hj

theorem DirAt.of_grows {n' : ℕ} (h : DirAt s n b m k) (hg : Grows n' b' i z s s') (hn : n ≠ n')
    (hb : s.nextZone ≤ b') : DirAt s' n b m k := by
  have hinode := hg.inode n h.bound hn
  refine h.transfer (hinode ▸ h.packs) (congrArg Inode.zone hinode) hg.same.1 ?_ ?_ ?_
  · rw [hg.nextInode]; omega
  · rw [hg.nextZone]; omega
  · exact fun q hq => hg.block q (hq.trans_le hb)

/-- One more zone, which is empty. -/
theorem DirAt.grow (h : DirAt s n b m k) (hs : s.Base) (hb : b ≤ s.nextZone) (hm : m < nrDzoneNum)
    (hk : k ≤ 64 * m) (hpacks : (s'.inode n).Packs)
    (hzone : (s'.inode n).zone = update (s.inode n).zone m s.nextZone)
    (hlittle : s'.little = s.little) (hi : s'.nextInode = s.nextInode)
    (hz : s'.nextZone = s.nextZone + 1) (hblock : s'.block = s.block) : DirAt s' n b (m + 1) k := by
  have hpos : s.nextZone ≠ 0 := by
    have := hs.zones
    have := hs.maps
    omega
  have hlast : (s'.inode n).zone m = s.nextZone := by rw [hzone, update_self]
  have hold : ∀ i, i ≠ m → (s'.inode n).zone i = (s.inode n).zone i := by
    intro i hne
    rw [hzone, update_of_ne hne]
  refine ⟨hi ▸ h.bound, hpacks, ?_, ?_, ?_, ?_⟩
  · intro i hlt
    by_cases him : i = m
    · subst him
      exact iff_of_true (hlast ▸ hpos) (Nat.lt_succ_self _)
    · rw [hold i him, h.used i hlt]
      omega
  · intro i hlt
    by_cases him : i = m
    · rw [him, hlast]
      omega
    · rw [hold i him]
      have := h.range i (by omega)
      omega
  · intro i hi' j hj heq
    by_cases him : i = m <;> by_cases hjm : j = m
    · rw [him, hjm]
    · rw [him, hlast, hold j hjm] at heq
      have := h.range j (by omega)
      omega
    · rw [hjm, hlast, hold i him] at heq
      have := h.range i (by omega)
      omega
    · rw [hold i him, hold j hjm] at heq
      exact h.inj i (by omega) j (by omega) heq
  · intro i hi' j hj
    by_cases him : i = m
    · rw [him, hlast, hblock, hs.zero _ le_rfl, getWord_zero]
      exact iff_of_false (fun h => h rfl) (by omega)
    · rw [hold i him, hblock, hlittle]
      exact h.slots i (by omega) j hj

/-- An entry in the first free place. -/
theorem DirAt.enter (h : DirAt s n b m k) (hk : k < 64 * m) (hc : 0 < child) (hc' : child < 65536)
    (raw : Name) :
    DirAt (s.putBlock ((s.inode n).zone (k / 64)) (putEntry s.little
      (s.block ((s.inode n).zone (k / 64))) (dirEntrySize * (k % 64)) child raw)) n b m (k + 1) := by
  have hlt : k / 64 < m := by omega
  refine ⟨h.bound, h.packs, h.used, h.range, h.inj, ?_⟩
  intro i hi j hj
  change getWord s.little (update s.block _ _ ((s.inode n).zone i)) _ ≠ 0 ↔ _
  by_cases hne : i = k / 64
  · rw [hne, update_self]
    by_cases hjk : j = k % 64
    · rw [hjk, getWord_putEntry_self _ _ _ _ hc']
      omega
    · rw [getWord_putEntry_of_ne _ _ _ _ (by unfold dirEntrySize; omega), h.slots _ hlt j hj]
      omega
  · rw [update_of_ne fun heq => hne (h.inj i hi _ hlt heq), h.slots i hi j hj]
    omega

/-- The zones of a directory with `k` entries. -/
def dirZones (k : ℕ) : ℕ := max 1 ((k + 63) / 64)

theorem dirZones_mono {k k' : ℕ} (h : k ≤ k') : dirZones k ≤ dirZones k' := by
  unfold dirZones
  omega

/-- The zone for the next entry: the last one, or a new one if that is full. -/
theorem dirZone_spec (hs : s.Base) (h : DirAt s n b (dirZones k) k) (hb : b ≤ s.nextZone)
    (hk : k < 448) :
    Guarded (s.dirZone n (k / 64) (s.inode n)) (s.Room 0 (dirZones (k + 1) - dirZones k)) fun r =>
      DirAt r.2 n b (dirZones (k + 1)) k ∧ r.1.zone = (r.2.inode n).zone ∧
        Grows n b 0 (dirZones (k + 1) - dirZones k) s r.2 ∧
        (r.2.inode n).nlinks = (s.inode n).nlinks := by
  unfold dirZone
  by_cases hnew : dirZones k < dirZones (k + 1)
  · -- All zones are full.
    have hidx : k / 64 = dirZones k := by unfold dirZones at hnew ⊢; omega
    have hone : dirZones (k + 1) = dirZones k + 1 := by unfold dirZones at hnew ⊢; omega
    have hseven : k / 64 < nrDzoneNum := by unfold nrDzoneNum; omega
    have hzero : (s.inode n).zone (k / 64) = 0 := by
      by_contra hne
      have := (h.used _ hseven).mp hne
      omega
    rw [if_pos hzero, hone, Nat.add_sub_cancel_left]
    refine (allocZone_spec hs n b).bind_total ?_
    rintro hroom ⟨q, s₁⟩ ⟨rfl, hgrow, hinode, hblock⟩
    dsimp only at hgrow hinode hblock ⊢
    have hpacks : Inode.Packs { s.inode n with
        zone := update (s.inode n).zone (k / 64) s.nextZone } := by
      refine ⟨h.packs.1, fun i hi => ?_, h.packs.2.2⟩
      by_cases heq : i = k / 64
      · rw [heq]
        dsimp only
        rw [update_self]
        have := hroom.2.1
        have := hs.blocks
        omega
      · dsimp only
        rw [update_of_ne heq]
        exact h.packs.2.1 i hi
    refine ((putInode_spec hgrow.base n b _).congr (iff_true_intro hpacks)).map ?_
    rintro - s₂ ⟨hgrow2, hinode2, hblock2⟩
    have hn : s₂.inode n = stored { s.inode n with
        zone := update (s.inode n).zone (k / 64) s.nextZone } := by
      rw [hinode2, update_self]
    refine ⟨?_, ?_, hgrow.trans hgrow2 (Or.inl rfl) le_rfl, ?_⟩
    · refine h.grow hs hb (hidx ▸ hseven) ?_ (hn ▸ hpacks) (hn ▸ hidx ▸ rfl) ?_ ?_ ?_ ?_
      · unfold dirZones at hidx ⊢; omega
      · rw [hgrow2.same.1, hgrow.same.1]
      · exact hgrow2.nextInode.trans hgrow.nextInode
      · exact hgrow2.nextZone.trans hgrow.nextZone
      · rw [hblock2, hblock]
    · dsimp only
      rw [hn]
      rfl
    · dsimp only
      rw [hn]
      rfl
  · have heq : dirZones (k + 1) = dirZones k := le_antisymm (Nat.not_lt.mp hnew) (dirZones_mono (by omega))
    have hlt : k / 64 < dirZones k := by rw [← heq]; unfold dirZones; omega
    have hne : (s.inode n).zone (k / 64) ≠ 0 := (h.used _ (by unfold nrDzoneNum; omega)).mpr hlt
    rw [if_neg hne, heq, Nat.sub_self]
    exact (Guarded.pure ⟨h, rfl, Grows.refl hs, rfl⟩).congr (iff_of_true trivial hs.room)

theorem enterZones_spec (hs : s.Base) (h : DirAt s n b (dirZones k) k) (hb : b ≤ s.nextZone)
    (hk : k < 448) (hc : 0 < child) (hc' : child < 65536) (raw : Name) (d i : ℕ)
    (hd : i + d = k / 64) :
    Guarded (enterZones n raw child (List.range' i (nrDzoneNum - i)) (s.inode n) s)
      (s.Room 0 (dirZones (k + 1) - dirZones k)) fun s' =>
      DirAt s' n b (dirZones (k + 1)) (k + 1) ∧ Grows n b 0 (dirZones (k + 1) - dirZones k) s s' ∧
        (s'.inode n).nlinks = (s.inode n).nlinks := by
  -- The zones before the one with the first free place are full.
  have hcons : List.range' i (nrDzoneNum - i) = i :: List.range' (i + 1) (nrDzoneNum - (i + 1)) := by
    have hsucc : nrDzoneNum - i = nrDzoneNum - (i + 1) + 1 := by unfold nrDzoneNum; omega
    rw [hsucc, List.range'_succ]
  rw [hcons, enterZones]
  induction d generalizing i with
  | zero =>
    obtain rfl : i = k / 64 := by omega
    refine (dirZone_spec hs h hb hk).bind_total ?_
    rintro - ⟨ino, s₁⟩ ⟨hdir, hzone, hgrow, hlinks⟩
    dsimp only at hdir hzone hgrow hlinks ⊢
    rw [hzone]
    have hlt : k < 64 * dirZones (k + 1) := by unfold dirZones; omega
    have hslots := hdir.slots (k / 64) (by omega)
    have hfind : ((List.range (blockSize / dirEntrySize)).find? fun j =>
        getWord s₁.little (s₁.block ((s₁.inode n).zone (k / 64))) (dirEntrySize * j) = 0) =
        some (k % 64) := by
      apply find?_range_first
      · exact Nat.mod_lt _ (by decide)
      · by_contra hne
        have := (hslots (k % 64) (by omega)).mp hne
        omega
      · intro j hj
        exact (hslots j (by omega)).mpr (by omega)
    rw [hfind]
    have hrange := hdir.range (k / 64) (by omega)
    have hput := putBlock_grows hgrow.base n hrange.2 (putEntry s₁.little
      (s₁.block ((s₁.inode n).zone (k / 64))) (dirEntrySize * (k % 64)) child raw)
    exact Guarded.pure ⟨hdir.enter hlt hc hc' raw, hgrow.trans hput (Or.inl rfl) hrange.1, hlinks⟩
  | succ d ih =>
    have hlt : i < dirZones k := by unfold dirZones; omega
    have hne : (s.inode n).zone i ≠ 0 := (h.used i (by unfold nrDzoneNum; omega)).mpr hlt
    have hfull : ((List.range (blockSize / dirEntrySize)).find? fun j =>
        getWord s.little (s.block ((s.inode n).zone i)) (dirEntrySize * j) = 0) = none := by
      apply find?_range_none
      intro j hj
      have hj : j < 64 := hj
      exact (h.slots i hlt j hj).mpr (by omega)
    unfold dirZone
    rw [if_neg hne, Option.bind_some]
    dsimp only
    rw [hfull]
    have hcons' : List.range' (i + 1) (nrDzoneNum - (i + 1)) =
        (i + 1) :: List.range' (i + 1 + 1) (nrDzoneNum - (i + 1 + 1)) := by
      have hsucc : nrDzoneNum - (i + 1) = nrDzoneNum - (i + 1 + 1) + 1 := by
        unfold nrDzoneNum; omega
      rw [hsucc, List.range'_succ]
    have hrest := ih (i + 1) (by omega) hcons'
    rw [hcons', enterZones]
    exact hrest

theorem enterDir_spec (hs : s.Base) (h : DirAt s n b (dirZones k) k) (hb : b ≤ s.nextZone)
    (hk : k < 448) (hc : 0 < child) (hc' : child < 65536) (raw : Name) :
    Guarded (s.enterDir n raw child)
      (raw.length ≤ nameMax ∧ s.Room 0 (dirZones (k + 1) - dirZones k)) fun s' =>
      DirAt s' n b (dirZones (k + 1)) (k + 1) ∧ Grows n b 0 (dirZones (k + 1) - dirZones k) s s' ∧
        (s'.inode n).nlinks = (s.inode n).nlinks := by
  have hzones := enterZones_spec hs h hb hk hc hc' raw (k / 64) 0 (Nat.zero_add _)
  unfold enterDir
  split
  next hlen => exact ⟨fun hcond => absurd hcond.1 (by omega), fun _ => rfl⟩
  next hlen =>
    rw [List.range_eq_range']
    exact hzones.congr (and_iff_right (Nat.not_lt.mp hlen)).symm

/-- A directory gets another size or link count. -/
theorem putInode_dir (hs : s.Base) (h : DirAt s n b m k) (ino : Inode)
    (hzone : ino.zone = (s.inode n).zone) (hhead : HeadPacks ino.mode ino.uid ino.gid) (q : ℕ) :
    Guarded (s.putInode n ino) (ino.nlinks < 256) fun s' =>
      DirAt s' n b m k ∧ Grows n q 0 0 s s' ∧ (s'.inode n).nlinks = ino.nlinks ∧
        (∀ j, j ≠ n → s'.inode j = s.inode j) ∧ (s'.inode n).zone = (s.inode n).zone ∧
        s'.block = s.block := by
  have hpacks : ino.Packs ↔ ino.nlinks < 256 := by
    unfold Inode.Packs
    rw [hzone]
    exact and_iff_left ⟨h.packs.2.1, hhead⟩
  refine ((putInode_spec hs n q ino).congr hpacks).mono ?_
  rintro hlinks s' ⟨hgrow, hinode, hblock⟩
  have hn : s'.inode n = stored ino := by rw [hinode, update_self]
  refine ⟨h.transfer (hn ▸ hpacks.mpr hlinks) (hn ▸ hzone) hgrow.same.1 ?_ ?_ ?_, hgrow, ?_, ?_,
    ?_, hblock⟩
  · rw [hgrow.nextInode]; exact le_rfl
  · rw [hgrow.nextZone]; exact le_rfl
  · intro q _
    rw [hblock]
  · rw [hn]
    rfl
  · intro j hj
    rw [hinode, update_of_ne hj]
  · rw [hn]
    exact hzone

theorem incrSize_dir (hs : s.Base) (h : DirAt s n b m k) (count q : ℕ) :
    Guarded (s.incrSize n count) True fun s' =>
      DirAt s' n b m k ∧ Grows n q 0 0 s s' ∧ (s'.inode n).nlinks = (s.inode n).nlinks ∧
        (∀ j, j ≠ n → s'.inode j = s.inode j) ∧ (s'.inode n).zone = (s.inode n).zone ∧
        s'.block = s.block :=
  (putInode_dir hs h { s.inode n with size := (s.inode n).size + count } rfl h.packs.2.2 q).congr
    (iff_true_intro h.packs.1)

theorem incrLink_dir (hs : s.Base) (h : DirAt s n b m k) (q : ℕ) :
    Guarded (s.incrLink n) ((s.inode n).nlinks + 1 < 256) fun s' =>
      DirAt s' n b m k ∧ Grows n q 0 0 s s' ∧ (s'.inode n).nlinks = (s.inode n).nlinks + 1 ∧
        (∀ j, j ≠ n → s'.inode j = s.inode j) ∧ (s'.inode n).zone = (s.inode n).zone ∧
        s'.block = s.block :=
  putInode_dir hs h { s.inode n with nlinks := (s.inode n).nlinks + 1 } rfl h.packs.2.2 q

/-! ## §5 New Inodes -/

/-- Inode `n` has been allocated and has no zones. -/
structure Fresh (s : FileSystem) (n links : ℕ) : Prop where
  pos : 0 < n
  bound : n < s.nextInode
  nlinks : (s.inode n).nlinks = links
  zone : (s.inode n).zone = fun _ => 0
  head : HeadPacks (s.inode n).mode (s.inode n).uid (s.inode n).gid

theorem Base.inode_lt (h : s.Base) (hn : n < s.nextInode) : n < 65536 := by
  have hlt := h.room.1.2
  unfold bitsPerBlock at hlt
  omega

theorem incrLink_fresh (hs : s.Base) (h : Fresh s n l) (hl : l + 1 < 256) (q : ℕ) :
    Guarded (s.incrLink n) True fun s' => Fresh s' n (l + 1) ∧ Grows n q 0 0 s s' := by
  have hpacks : Inode.Packs { s.inode n with nlinks := (s.inode n).nlinks + 1 } := by
    refine ⟨?_, fun i _ => ?_, h.head⟩
    · dsimp only
      rw [h.nlinks]
      exact hl
    · dsimp only
      rw [h.zone]
      exact Nat.zero_lt_succ _
  refine ((putInode_spec hs n q _).congr (iff_true_intro hpacks)).mono ?_
  rintro - s' ⟨hgrow, hinode, -⟩
  have hn : s'.inode n = stored { s.inode n with nlinks := (s.inode n).nlinks + 1 } := by
    rw [hinode, update_self]
  refine ⟨⟨h.pos, hgrow.nextInode ▸ h.bound, ?_, ?_, ?_⟩, hgrow⟩
  · rw [hn, ← h.nlinks]
    rfl
  · rw [hn, ← h.zone]
    rfl
  · rw [hn]
    exact h.head

/-- An entry for a new inode in directory `p`. -/
theorem newEntry_spec (hs : s.Base) (h : DirAt s p b (dirZones k) k) (hb : b ≤ s.nextZone)
    (hk : k < 448) (name : Name) {kind : ℕ} (hkind : kind ≤ iRegular) (a : Attr) :
    Guarded (s.newEntry p name kind a)
      ((name.length ≤ nameMax ∧ a.Fits) ∧ s.Room 1 (dirZones (k + 1) - dirZones k)) fun r =>
      r.1 = s.nextInode ∧ Fresh r.2 r.1 1 ∧ DirAt r.2 p b (dirZones (k + 1)) (k + 1) ∧
        Grows p b 1 (dirZones (k + 1) - dirZones k) s r.2 ∧
        (r.2.inode p).nlinks = (s.inode p).nlinks := by
  have hne : p ≠ s.nextInode := Nat.ne_of_lt h.bound
  set δ := dirZones (k + 1) - dirZones k with hδ
  unfold newEntry
  refine ((allocInode_spec hs (modeCon kind a) a.uid a.gid s.nextInode s.nextZone).bind
    (D := name.length ≤ nameMax ∧ s.Room 1 δ) ?_).congr
    ⟨fun hcond => ⟨⟨hcond.2.1, (headPacks_iff hkind a).mp hcond.1.1⟩, hcond.2.2⟩, fun hcond =>
      ⟨⟨(headPacks_iff hkind a).mpr hcond.1.2, hcond.2.mono le_rfl (Nat.zero_le _)⟩, hcond.1.1, hcond.2⟩⟩
  rintro ⟨hhead, -⟩ ⟨n, s₁⟩ ⟨hn, hg1, hnew, -⟩
  dsimp only at hn hg1 hnew ⊢
  subst hn
  have hdir1 : DirAt s₁ p b (dirZones k) k := h.of_grows hg1 hne le_rfl
  have hbound : s.nextInode < s₁.nextInode := by rw [hg1.nextInode]; omega
  have henter := enterDir_spec hg1.base hdir1 (hb.trans hg1.le.2) hk (Nat.pos_of_ne_zero ?_)
    (hg1.base.inode_lt hbound) name
  · refine (henter.congr (and_congr_right fun _ => ?_)).bind_total ?_
    · exact hg1.room_iff.trans (by rw [Nat.zero_add, Nat.add_zero])
    rintro ⟨-, hroom⟩ s₂ ⟨hdir2, hg2, hlinks2⟩
    have hfresh2 : s₂.inode s.nextInode = s₁.inode s.nextInode := hg2.inode _ hbound hne.symm
    refine (incrSize_dir hg2.base hdir2 dirEntrySize b).bind_total ?_
    rintro - s₃ ⟨hdir3, hg3, hlinks3, hinode3, -⟩
    have hpos : 0 < s.nextInode := hs.inodes
    have hfresh3 : Fresh s₃ s.nextInode 0 := by
      have heq : s₃.inode s.nextInode = _ := ((hinode3 _ hne.symm).trans hfresh2).trans hnew
      exact ⟨hpos, hbound.trans_le (hg2.le.1.trans hg3.le.1), by rw [heq], by rw [heq], by rwa [heq]⟩
    refine (incrLink_fresh hg3.base hfresh3 (by decide) s₃.nextZone).map ?_
    rintro - s₄ ⟨hfresh4, hg4⟩
    refine ⟨rfl, hfresh4, hdir3.of_grows hg4 hne le_rfl, ?_, ?_⟩
    · have hg12 := ((hg1.of_new le_rfl p).lower hb).trans hg2 (Or.inl rfl) le_rfl
      have hg13 := hg12.trans hg3 (Or.inl rfl) le_rfl
      have hg14 := hg13.trans hg4 (Or.inr le_rfl) (hb.trans hg13.le.2)
      simpa using hg14
    · rw [hg4.inode p hdir3.bound hne, hlinks3]
      exact hlinks2.trans (congrArg Inode.nlinks (hg1.inode p h.bound hne))
  · have := hs.inodes
    omega

theorem addZone_fresh {q nbytes : ℤ} (h : Fresh s n l) :
    s.addZone n q nbytes = (packH q).bind fun q => s.putInode n { s.inode n with
      size := (s.inode n).size + nbytes, zone := update (s.inode n).zone 0 q } := by
  have hfind : ((List.range nrDzoneNum).find? fun i => (s.inode n).zone i = 0) = some 0 := by
    apply find?_range_first (by decide)
    · rw [h.zone]
    · exact fun i hi => absurd hi (Nat.not_lt_zero i)
  unfold addZone
  dsimp only
  rw [hfind]

/-- What `add_zone` stores in an inode that has no zones. -/
theorem addZone_fresh_spec (hs : s.Base) (h : Fresh s n l) (hl : l < 256) (hq : q < 65536)
    (nbytes : ℤ) (c : ℕ) :
    Guarded (s.addZone n q nbytes) True fun s' =>
      (s'.inode n).Packs ∧ (s'.inode n).nlinks = l ∧
        (s'.inode n).zone = update (fun _ => 0) 0 q ∧ Grows n c 0 0 s s' ∧
        s'.block = s.block := by
  rw [addZone_fresh h, packH_eq hq, Option.bind_some]
  have hpacks : Inode.Packs { s.inode n with
      size := (s.inode n).size + nbytes, zone := update (s.inode n).zone 0 q } := by
    refine ⟨h.nlinks ▸ hl, fun i _ => ?_, h.head⟩
    dsimp only
    rw [h.zone]
    by_cases hi : i = 0
    · rw [hi, update_self]
      exact hq
    · rw [update_of_ne hi]
      exact Nat.zero_lt_succ _
  refine ((putInode_spec hs n c _).congr (iff_true_intro hpacks)).mono ?_
  rintro - s' ⟨hgrow, hinode, hblock⟩
  have hn : s'.inode n = stored { s.inode n with
      size := (s.inode n).size + nbytes, zone := update (s.inode n).zone 0 q } := by
    rw [hinode, update_self]
  refine ⟨hn ▸ hpacks, ?_, ?_, hgrow, hblock⟩
  · rw [hn, ← h.nlinks]
    rfl
  · rw [hn, ← h.zone]
    rfl

/-- The device number of a special file is stored if it is one. -/
theorem addZone_device {dev : ℤ} (hs : s.Base) (h : Fresh s n l) (hl : l < 256) (nbytes : ℤ) (c : ℕ) :
    Guarded (s.addZone n dev nbytes) (0 ≤ dev ∧ dev < 65536) fun s' => Grows n c 0 0 s s' := by
  by_cases hdev : 0 ≤ dev ∧ dev < 65536
  · obtain ⟨q, rfl⟩ := Int.eq_ofNat_of_zero_le hdev.1
    refine ((addZone_fresh_spec hs h hl (by omega) nbytes c).congr (iff_of_true trivial hdev)).mono ?_
    rintro - s' ⟨-, -, -, hgrow, -⟩
    exact hgrow
  · refine ⟨fun hyes => absurd hyes hdev, fun _ => ?_⟩
    rw [addZone_fresh h]
    unfold packH
    rw [if_neg hdev]
    rfl

theorem dotEntries_spec {parent : ℕ} (hs : s.Base) (h : Fresh s n l) (hl : l < 256)
    (hp : 0 < parent) (hp' : parent < 65536) :
    Guarded (s.dotEntries n parent) (s.Room 0 1) fun s' =>
      DirAt s' n s.nextZone (dirZones 2) 2 ∧ Grows n s.nextZone 0 1 s s' ∧
        (s'.inode n).nlinks = l := by
  unfold dotEntries
  refine (allocZone_spec hs n s.nextZone).bind_total ?_
  rintro hroom ⟨q, s₁⟩ ⟨hq, hg1, hinode1, hblock1⟩
  dsimp only at hq hg1 hinode1 hblock1 ⊢
  subst hq
  have hfresh1 : Fresh s₁ n l := ⟨h.pos, h.bound.trans_le hg1.le.1, hinode1 ▸ h.nlinks, hinode1 ▸ h.zone,
    hinode1 ▸ h.head⟩
  have hq : s.nextZone < 65536 := by
    have := hroom.2.1
    have := hs.blocks
    omega
  refine (addZone_fresh_spec hg1.base hfresh1 hl hq 32 s.nextZone).bind_total ?_
  rintro - s₂ ⟨hpacks2, hlinks2, hzone2, hg2, hblock2⟩
  -- The directory without zones and without entries gets its first zone.
  have hnone : DirAt s n s.nextZone 0 0 := by
    refine ⟨h.bound, ⟨h.nlinks ▸ hl, fun i _ => ?_, h.head⟩, ?_, ?_, ?_, ?_⟩
    · rw [h.zone]
      exact Nat.zero_lt_succ _
    · simp [h.zone]
    all_goals exact fun i hi => absurd hi (Nat.not_lt_zero i)
  have hdir2 : DirAt s₂ n s.nextZone (dirZones 0) 0 := by
    refine hnone.grow hs le_rfl (by decide) (Nat.zero_le _) hpacks2 ?_ ?_ ?_ ?_ ?_
    · rw [hzone2, h.zone]
    · exact hg2.same.1.trans hg1.same.1
    · exact hg2.nextInode.trans hg1.nextInode
    · exact hg2.nextZone.trans hg1.nextZone
    · exact hblock2.trans hblock1
  have hg12 := hg1.trans hg2 (Or.inl rfl) le_rfl
  refine ((enterDir_spec hg2.base hdir2 hg12.le.2 (by decide) h.pos
    (hs.inode_lt h.bound) dot).congr (iff_of_true ⟨by decide, hg2.base.room⟩ trivial)).bind_total ?_
  rintro - s₃ ⟨hdir3, hg3, hlinks3⟩
  have hg13 := hg12.trans hg3 (Or.inl rfl) le_rfl
  refine ((enterDir_spec hg3.base hdir3 hg13.le.2 (by decide) hp hp' dotdot).congr
    (iff_of_true ⟨by decide, hg3.base.room⟩ trivial)).mono ?_
  rintro - s₄ ⟨hdir4, hg4, hlinks4⟩
  exact ⟨hdir4, hg13.trans hg4 (Or.inl rfl) le_rfl, hlinks4.trans (hlinks3.trans hlinks2)⟩

/-- A directory below `p`, for an inode that is new with respect to `s₀`. -/
theorem newDir_child {s₀ : FileSystem} (hg0 : Grows p b i z s₀ s) (hn : s₀.nextInode ≤ n)
    (hb : b ≤ s.nextZone) (h : Fresh s n 1) (hdir : DirAt s p b m k) (hp : 0 < p) (hne : p ≠ n) :
    Guarded (s.newDir n p) (s.Room 0 1 ∧ (s.inode p).nlinks + 1 < 256) fun s' =>
      DirAt s' n s.nextZone (dirZones 2) 2 ∧ (s'.inode n).nlinks = 2 ∧ DirAt s' p b m k ∧
        (s'.inode p).nlinks = (s.inode p).nlinks + 1 ∧ Grows p b i (z + 1) s₀ s' ∧
        (s'.inode p).zone = (s.inode p).zone ∧ ∀ q < s.nextZone, s'.block q = s.block q := by
  unfold newDir
  refine (dotEntries_spec hg0.base h (by decide) hp (hg0.base.inode_lt hdir.bound)).bind ?_
  rintro - s₁ ⟨hnew1, hg1, hlinks1⟩
  have hdir1 : DirAt s₁ p b m k := hdir.of_grows hg1 hne le_rfl
  have hplinks1 : (s₁.inode p).nlinks = (s.inode p).nlinks :=
    congrArg Inode.nlinks (hg1.inode p hdir.bound hne)
  refine ((incrLink_dir hg1.base hdir1 s₁.nextZone).congr (by rw [hplinks1])).bind_total ?_
  rintro - s₂ ⟨hdir2, hg2, hlinks2, -, hzone2, hblock2⟩
  have hnew2 : DirAt s₂ n s.nextZone (dirZones 2) 2 := hnew1.of_grows hg2 hne.symm le_rfl
  have hnlinks2 : (s₂.inode n).nlinks = 1 :=
    (congrArg Inode.nlinks (hg2.inode n hnew1.bound hne.symm)).trans hlinks1
  refine ((incrLink_dir hg2.base hnew2 s₂.nextZone).congr (by rw [hnlinks2]; decide)).mono ?_
  rintro - s₃ ⟨hnew3, hg3, hlinks3, -, -, hblock3⟩
  have hplinks3 : (s₃.inode p).nlinks = (s₂.inode p).nlinks :=
    congrArg Inode.nlinks (hg3.inode p hdir2.bound hne)
  refine ⟨hnew3, by rw [hlinks3, hnlinks2], hdir2.of_grows hg3 hne le_rfl,
    by rw [hplinks3, hlinks2, hplinks1], ?_, ?_, ?_⟩
  · have hg01 := hg0.trans hg1 (Or.inr hn) hb
    have hg02 := hg01.trans hg2 (Or.inl rfl) (hb.trans hg1.le.2)
    exact hg02.trans hg3 (Or.inr hn) (hb.trans (hg1.le.2.trans hg2.le.2))
  · rw [hg3.inode p hdir2.bound hne, hzone2, hg1.inode p hdir.bound hne]
  · intro q hq
    rw [hblock3, hblock2, hg1.block q hq]

/-- The root. -/
theorem newDir_root (hs : s.Base) (h : Fresh s n 0) :
    Guarded (s.newDir n n) (s.Room 0 1) fun s' =>
      DirAt s' n s.nextZone (dirZones 2) 2 ∧ (s'.inode n).nlinks = 2 ∧
        Grows n s.nextZone 0 1 s s' := by
  unfold newDir
  refine (dotEntries_spec hs h (by decide) h.pos (hs.inode_lt h.bound)).bind_total ?_
  rintro - s₁ ⟨hnew1, hg1, hlinks1⟩
  refine ((incrLink_dir hg1.base hnew1 s.nextZone).congr (by rw [hlinks1]; decide)).bind_total ?_
  rintro - s₂ ⟨hnew2, hg2, hlinks2, -⟩
  rw [hlinks1] at hlinks2
  refine ((incrLink_dir hg2.base hnew2 s.nextZone).congr (by rw [hlinks2]; decide)).mono ?_
  rintro - s₃ ⟨hnew3, hg3, hlinks3, -⟩
  exact ⟨hnew3, by rw [hlinks3, hlinks2],
    (hg1.trans hg2 (Or.inl rfl) le_rfl).trans hg3 (Or.inl rfl) le_rfl⟩

/-! ## §6 Files -/

/-- Inode `n` is a file of `j` blocks; its indirect zone, if it has one, is not below `b`. -/
structure FileAt (s : FileSystem) (n b j : ℕ) : Prop where
  bound : n < s.nextInode
  packs : (s.inode n).Packs
  direct : ∀ i < nrDzoneNum, (s.inode n).zone i ≠ 0 ↔ i < j
  single : (s.inode n).zone nrDzoneNum ≠ 0 ↔ nrDzoneNum < j
  range : nrDzoneNum < j →
    b ≤ (s.inode n).zone nrDzoneNum ∧ (s.inode n).zone nrDzoneNum < s.nextZone
  words : nrDzoneNum < j → ∀ i < nrIndirects,
    getWord s.little (s.block ((s.inode n).zone nrDzoneNum)) (2 * i) ≠ 0 ↔ i + nrDzoneNum < j

variable {j : ℕ}

theorem FileAt.transfer (h : FileAt s n b j) (hinode : s'.inode n = s.inode n)
    (hlittle : s'.little = s.little) (hi : s.nextInode ≤ s'.nextInode) (hz : s.nextZone ≤ s'.nextZone)
    (hblock : ∀ q < s.nextZone, s'.block q = s.block q) : FileAt s' n b j where
  bound := h.bound.trans_le hi
  packs := by rw [hinode]; exact h.packs
  direct := by rw [hinode]; exact h.direct
  single := by rw [hinode]; exact h.single
  range := by
    rw [hinode]
    exact fun hj => ⟨(h.range hj).1, (h.range hj).2.trans_le hz⟩
  words := by
    intro hj
    rw [hinode, hlittle, hblock _ (h.range hj).2]
    exact h.words hj

/-- The indirect zone, with the numbers of the blocks after the seventh. -/
theorem indirectZone_spec (hs : s.Base) (h : FileAt s n b j) (hj : nrDzoneNum ≤ j)
    (hb : b ≤ s.nextZone) (ino : Inode) (hino : ino.zone = (s.inode n).zone)
    (hlinks : ino.nlinks < 256) (hhead : HeadPacks ino.mode ino.uid ino.gid) :
    Guarded (s.indirectZone ino) (s.Room 0 (if j = nrDzoneNum then 1 else 0)) fun r =>
      r.1.Packs ∧ (∀ i ≤ nrDzoneNum, r.1.zone i ≠ 0) ∧
        b ≤ r.1.zone nrDzoneNum ∧ r.1.zone nrDzoneNum < r.2.nextZone ∧
        (∀ i < nrIndirects, getWord r.2.little (r.2.block (r.1.zone nrDzoneNum)) (2 * i) ≠ 0 ↔
          i + nrDzoneNum < j) ∧
        Grows n b 0 (if j = nrDzoneNum then 1 else 0) s r.2 := by
  have hdirect : ∀ i < nrDzoneNum, (s.inode n).zone i ≠ 0 :=
    fun i hi => (h.direct i hi).mpr (hi.trans_le hj)
  unfold indirectZone
  rw [hino]
  by_cases hseven : j = nrDzoneNum
  · have hzero : (s.inode n).zone nrDzoneNum = 0 := by
      by_contra hne
      have := h.single.mp hne
      omega
    rw [if_pos hzero, if_pos hseven]
    refine (allocZone_spec hs n b).map ?_
    rintro hroom ⟨q, s₁⟩ ⟨hq, hg, -, hblock⟩
    dsimp only at hq hg hblock ⊢
    subst hq
    have hnew : s.nextZone < 65536 ∧ s.nextZone ≠ 0 := by
      have := hroom.2.1
      have := hs.blocks
      have := hs.zones
      have := hs.maps
      omega
    refine ⟨⟨hlinks, ?_, hhead⟩, ?_, ?_, ?_, ?_, hg⟩
    · intro i hi
      dsimp only
      by_cases heq : i = nrDzoneNum
      · rw [heq, update_self]
        exact hnew.1
      · rw [update_of_ne heq]
        exact h.packs.2.1 i hi
    · intro i hi
      by_cases heq : i = nrDzoneNum
      · rw [heq, update_self]
        exact hnew.2
      · rw [update_of_ne heq]
        exact hdirect i (by omega)
    · rw [update_self]
      exact hb
    · rw [update_self, hg.nextZone]
      exact Nat.lt_succ_self _
    · intro i _
      rw [update_self, hblock, hs.zero _ le_rfl, getWord_zero]
      exact iff_of_false (fun h => h rfl) (by omega)
  · have hlt : nrDzoneNum < j := by omega
    have hne : (s.inode n).zone nrDzoneNum ≠ 0 := h.single.mpr hlt
    rw [if_neg hne, if_neg hseven]
    refine (Guarded.pure ⟨⟨hlinks, ?_, hhead⟩, ?_, ?_, ?_, ?_, Grows.refl hs⟩).congr
      (iff_of_true trivial hs.room)
    · rw [hino]
      exact h.packs.2.1
    · intro i hi
      rw [hino]
      rcases Nat.lt_or_eq_of_le hi with hi | rfl
      · exact hdirect i hi
      · exact hne
    · rw [hino]
      exact (h.range hlt).1
    · rw [hino]
      exact (h.range hlt).2
    · rw [hino]
      exact h.words hlt

/-- One of the first seven blocks. -/
theorem addZone_direct (hs : s.Base) (h : FileAt s n b j) (hj : j < nrDzoneNum) (hq : 0 < q)
    (hq' : q < 65536) (nbytes : ℤ) :
    Guarded (s.addZone n q nbytes) True fun s' => FileAt s' n b (j + 1) ∧ Grows n b 0 0 s s' := by
  have hfind : ((List.range nrDzoneNum).find? fun i => (s.inode n).zone i = 0) = some j := by
    apply find?_range_first hj
    · by_contra hne
      exact absurd ((h.direct j hj).mp hne) (lt_irrefl j)
    · exact fun i hi => (h.direct i (hi.trans hj)).mpr hi
  have hpacks : Inode.Packs { s.inode n with
      size := (s.inode n).size + nbytes, zone := update (s.inode n).zone j q } := by
    refine ⟨h.packs.1, fun i hi => ?_, h.packs.2.2⟩
    dsimp only
    by_cases heq : i = j
    · rw [heq, update_self]
      exact hq'
    · rw [update_of_ne heq]
      exact h.packs.2.1 i hi
  unfold addZone
  dsimp only
  rw [hfind]
  dsimp only
  rw [packH_eq hq', Option.bind_some]
  refine ((putInode_spec hs n b _).congr (iff_true_intro hpacks)).mono ?_
  rintro - s' ⟨hgrow, hinode, hblock⟩
  have hn : s'.inode n = stored { s.inode n with
      size := (s.inode n).size + nbytes, zone := update (s.inode n).zone j q } := by
    rw [hinode, update_self]
  have hzone : (s'.inode n).zone = update (s.inode n).zone j q := by
    rw [hn]
    rfl
  have hfew : ¬nrDzoneNum < j + 1 := by omega
  refine ⟨⟨hgrow.nextInode ▸ h.bound, hn ▸ hpacks, ?_, ?_, fun hlt => absurd hlt hfew,
    fun hlt => absurd hlt hfew⟩, hgrow⟩
  · intro i hi
    rw [hzone]
    by_cases heq : i = j
    · rw [heq, update_self]
      omega
    · rw [update_of_ne heq, h.direct i hi]
      omega
  · rw [hzone, update_of_ne (Nat.ne_of_gt hj), h.single]
    omega

/-- A block after the seventh. -/
theorem addZone_indirect (hs : s.Base) (h : FileAt s n b j) (hj : nrDzoneNum ≤ j)
    (hj' : j < nrDzoneNum + nrIndirects) (hb : b ≤ s.nextZone) (hq : 0 < q) (hq' : q < 65536)
    (nbytes : ℤ) :
    Guarded (s.addZone n q nbytes) (s.Room 0 (if j = nrDzoneNum then 1 else 0)) fun s' =>
      FileAt s' n b (j + 1) ∧ Grows n b 0 (if j = nrDzoneNum then 1 else 0) s s' := by
  have hfind : ((List.range nrDzoneNum).find? fun i => (s.inode n).zone i = 0) = none :=
    find?_range_none fun i hi => (h.direct i hi).mpr (hi.trans_le hj)
  unfold addZone
  dsimp only
  rw [hfind]
  refine (indirectZone_spec hs h hj hb { s.inode n with size := (s.inode n).size + nbytes } rfl
    h.packs.1 h.packs.2.2).bind_total ?_
  rintro - ⟨ino, s₁⟩ ⟨hpacks, hdirect, hlo, hhi, hwords, hg1⟩
  dsimp only at hpacks hdirect hlo hhi hwords hg1 ⊢
  refine ((putInode_spec hg1.base n b ino).congr (iff_true_intro hpacks)).bind_total ?_
  rintro - s₂ ⟨hg2, hinode2, hblock2⟩
  have hn : s₂.inode n = stored ino := by rw [hinode2, update_self]
  have hwords2 : ∀ i < nrIndirects,
      getWord s₂.little (s₂.block (ino.zone nrDzoneNum)) (2 * i) ≠ 0 ↔ i + nrDzoneNum < j := by
    rw [hblock2, hg2.same.1]
    exact hwords
  have hfree : ((List.range nrIndirects).find? fun i =>
      getWord s₂.little (s₂.block (ino.zone nrDzoneNum)) (2 * i) = 0) = some (j - nrDzoneNum) := by
    apply find?_range_first (by omega)
    · by_contra hne
      have := (hwords2 (j - nrDzoneNum) (by omega)).mp hne
      omega
    · intro i hi
      exact (hwords2 i (by omega)).mpr (by omega)
  rw [hfree]
  dsimp only
  rw [packH_eq hq', Option.map_some]
  have hhi2 : ino.zone nrDzoneNum < s₂.nextZone := hhi.trans_le hg2.le.2
  have hput := putBlock_grows hg2.base n hhi2 (putWord s₂.little (s₂.block (ino.zone nrDzoneNum))
    (2 * (j - nrDzoneNum)) q)
  refine Guarded.pure ⟨⟨?_, ?_, ?_, ?_, ?_, ?_⟩,
    (hg1.trans hg2 (Or.inl rfl) le_rfl).trans hput (Or.inl rfl) hlo⟩
  · exact h.bound.trans_le (hg1.le.1.trans (hg2.le.1.trans hput.le.1))
  · exact hn ▸ hpacks
  · intro i hi
    refine iff_of_true ?_ (by omega)
    change (s₂.inode n).zone i ≠ 0
    rw [hn]
    exact hdirect i hi.le
  · refine iff_of_true ?_ (by omega)
    change (s₂.inode n).zone nrDzoneNum ≠ 0
    rw [hn]
    exact hdirect _ le_rfl
  · intro _
    change _ ≤ (s₂.inode n).zone nrDzoneNum ∧ (s₂.inode n).zone nrDzoneNum < _
    rw [hn]
    exact ⟨hlo, hhi2⟩
  · intro _ i hi
    have heq : (s₂.inode n).zone nrDzoneNum = ino.zone nrDzoneNum := by
      rw [hn]
      rfl
    change getWord s₂.little (update s₂.block _ _ ((s₂.inode n).zone nrDzoneNum)) _ ≠ 0 ↔ _
    rw [heq, update_self]
    by_cases hij : i = j - nrDzoneNum
    · rw [hij, getWord_putWord_self _ _ _ hq']
      omega
    · rw [getWord_putWord_of_ne _ _ _ (by omega), hwords2 i hi]
      omega

/-- The zones of a file of `j` blocks. -/
def fileZones (j : ℕ) : ℕ := j + if nrDzoneNum < j then 1 else 0

theorem fileZones_succ (j : ℕ) :
    fileZones (j + 1) = fileZones j + 1 + if j = nrDzoneNum then 1 else 0 := by
  unfold fileZones nrDzoneNum
  split <;> split <;> split <;> omega

theorem addZone_file (hs : s.Base) (h : FileAt s n b j) (hj : j < nrDzoneNum + nrIndirects)
    (hb : b ≤ s.nextZone) (hq : 0 < q) (hq' : q < 65536) (nbytes : ℤ) :
    Guarded (s.addZone n q nbytes) (s.Room 0 (if j = nrDzoneNum then 1 else 0)) fun s' =>
      FileAt s' n b (j + 1) ∧ Grows n b 0 (if j = nrDzoneNum then 1 else 0) s s' := by
  by_cases hlt : j < nrDzoneNum
  · rw [if_neg (Nat.ne_of_lt hlt)]
    exact (addZone_direct hs h hlt hq hq' nbytes).congr (iff_of_true trivial hs.room)
  · exact addZone_indirect hs h (Nat.not_lt.mp hlt) hj hb hq hq' nbytes

theorem eatChunk_spec (hs : s.Base) (h : FileAt s n b j) (hj : j < nrDzoneNum + nrIndirects)
    (hb : b ≤ s.nextZone) (data : List UInt8) (k : ℕ) :
    Guarded (eatChunk n data s k) (s.Room 0 (1 + if j = nrDzoneNum then 1 else 0)) fun s' =>
      FileAt s' n b (j + 1) ∧ Grows n b 0 (1 + if j = nrDzoneNum then 1 else 0) s s' := by
  unfold eatChunk
  set more := if j = nrDzoneNum then 1 else 0
  refine ((allocZone_spec hs n b).bind (D := s.Room 0 (1 + more)) ?_).congr
    ⟨And.right, fun hroom => ⟨hroom.mono le_rfl (by omega), hroom⟩⟩
  rintro hroom ⟨q, s₁⟩ ⟨hq, hg1, hinode1, hblock1⟩
  dsimp only at hq hg1 hinode1 hblock1 ⊢
  subst hq
  have hnew : s.nextZone < 65536 ∧ 0 < s.nextZone := by
    have := hroom.2.1
    have := hs.blocks
    have := hs.zones
    have := hs.maps
    omega
  generalize hblk : (fun i => if i < ((data.drop (blockSize * k)).take blockSize).length then
    ((data.drop (blockSize * k)).take blockSize).getD i 0 else s₁.block s.nextZone i) = blk
  have hlt : s.nextZone < s₁.nextZone := by
    rw [hg1.nextZone]
    exact Nat.lt_succ_self _
  have hput := putBlock_grows hg1.base n hlt blk
  have hg2 := hg1.trans hput (Or.inl rfl) hb
  have hfile : FileAt (s₁.putBlock s.nextZone blk) n b j := by
    refine h.transfer (congrFun hinode1 n) hg1.same.1 hg2.le.1 hg2.le.2 ?_
    intro z hz
    exact (hput.block z hz).trans (congrFun hblock1 z)
  refine ((addZone_file hput.base hfile hj (hb.trans hg2.le.2) hnew.2 hnew.1 _).congr
    hg2.room_iff).mono ?_
  rintro - s₃ ⟨hfile3, hg3⟩
  exact ⟨hfile3, hg2.trans hg3 (Or.inl rfl) le_rfl⟩

theorem foldlM_eatChunk_spec (data : List UInt8) (l : List ℕ) (hs : s.Base) (h : FileAt s n b j)
    (hj : j + l.length ≤ nrDzoneNum + nrIndirects) (hb : b ≤ s.nextZone) :
    Guarded (l.foldlM (eatChunk n data) s)
      (s.Room 0 (fileZones (j + l.length) - fileZones j)) fun s' =>
      FileAt s' n b (j + l.length) ∧ Grows n b 0 (fileZones (j + l.length) - fileZones j) s s' := by
  induction l generalizing s j with
  | nil =>
    rw [List.length_nil, Nat.add_zero, Nat.sub_self]
    exact (Guarded.pure ⟨h, Grows.refl hs⟩).congr (iff_of_true trivial hs.room)
  | cons k l ih =>
    rw [List.length_cons] at hj ⊢
    rw [List.foldlM_cons, Option.bind_eq_bind]
    have hsum : fileZones (j + (l.length + 1)) - fileZones j =
        1 + (if j = nrDzoneNum then 1 else 0) +
          (fileZones (j + 1 + l.length) - fileZones (j + 1)) := by
      have hmono : fileZones (j + 1) ≤ fileZones (j + 1 + l.length) := by
        unfold fileZones
        split <;> split <;> omega
      rw [fileZones_succ] at hmono ⊢
      rw [show j + (l.length + 1) = j + 1 + l.length by omega]
      omega
    rw [hsum]
    set first := 1 + if j = nrDzoneNum then 1 else 0
    refine ((eatChunk_spec hs h (by omega) hb data k).bind (D := s.Room 0 (first +
      (fileZones (j + 1 + l.length) - fileZones (j + 1)))) ?_).congr
      ⟨And.right, fun hroom => ⟨hroom.mono le_rfl (by omega), hroom⟩⟩
    rintro - s₁ ⟨hfile, hg⟩
    have hrest := ih hg.base hfile (by omega) (hb.trans hg.le.2)
    refine (hrest.congr hg.room_iff).mono ?_
    rintro - s₂ ⟨hfile2, hg2⟩
    refine ⟨?_, hg.trans hg2 (Or.inl rfl) le_rfl⟩
    rwa [show j + (l.length + 1) = j + 1 + l.length by omega]

/-- A file for an inode that is new with respect to `s₀`. -/
theorem eatFile_spec {s₀ : FileSystem} (hg0 : Grows p b i z s₀ s) (hn : s₀.nextInode ≤ n)
    (hb : b ≤ s.nextZone) (h : Fresh s n 1) (data : List UInt8)
    (hdata : fileBlocks data ≤ nrDzoneNum + nrIndirects) :
    Guarded (s.eatFile n data) (s.Room 0 (fileZones (fileBlocks data))) fun s' =>
      Grows n s.nextZone 0 (fileZones (fileBlocks data)) s s' ∧
        Grows p b i (z + fileZones (fileBlocks data)) s₀ s' := by
  have hfile : FileAt s n s.nextZone 0 := by
    refine ⟨h.bound, ⟨by rw [h.nlinks]; decide, fun i _ => ?_, h.head⟩, ?_, ?_, ?_, ?_⟩
    · rw [h.zone]
      exact Nat.zero_lt_succ _
    · simp [h.zone]
    · simp [h.zone]
    all_goals exact fun hlt => absurd hlt (Nat.not_lt_zero _)
  have hspec := foldlM_eatChunk_spec data (List.range (fileBlocks data)) hg0.base hfile
    (by rw [List.length_range]; omega) le_rfl
  rw [List.length_range, Nat.zero_add] at hspec
  refine hspec.mono ?_
  rintro - s' ⟨-, hg⟩
  exact ⟨hg, hg0.trans hg (Or.inr hn) hb⟩

end FileSystem

end LisaMinix.Tools.Mkfs
