import LisaMinix.Tools.MkfsSteps

/-!
# What `mkfs.py` Accepts

The conditions of the operations are collected by induction over the prototype.

- `Proto.inodes`, `Proto.zones`: what the lines of a directory need.
- `eatDir_spec`: when the lines of a directory are accepted.
- `mkfs_accepts_iff`: a prototype that should fit is accepted just if it leaves an inode free, no bit
  lies beyond the first block of its map, and names, link counts, owners and device numbers fit.
-/

namespace LisaMinix.Tools.Mkfs

open Library FileSystem

/-! ## §1 What a Prototype Needs -/

namespace Proto

/-- The number of lines of the directory itself. -/
def entries : Proto → ℕ
  | .done => 0
  | .dir _ _ _ rest => rest.entries + 1
  | .special _ _ _ _ _ _ rest => rest.entries + 1
  | .file _ _ _ rest => rest.entries + 1

/-- The directories among them. -/
def subdirs : Proto → ℕ
  | .done => 0
  | .dir _ _ _ rest => rest.subdirs + 1
  | .special _ _ _ _ _ _ rest => rest.subdirs
  | .file _ _ _ rest => rest.subdirs

/-- The inodes of the lines and of what is below them. -/
def inodes : Proto → ℕ
  | .done => 0
  | .dir _ _ sub rest => 1 + sub.inodes + rest.inodes
  | .special _ _ _ _ _ _ rest => 1 + rest.inodes
  | .file _ _ _ rest => 1 + rest.inodes

/-- The data and indirect zones of the files and directories. -/
def zones : Proto → ℕ
  | .done => 0
  | .dir _ _ sub rest => dirZones (2 + sub.entries) + sub.zones + rest.zones
  | .special _ _ _ _ _ _ rest => rest.zones
  | .file _ _ data rest => fileZones (fileBlocks data) + rest.zones

/-- Files of at most 7 + 512 blocks and directories of at most 7. -/
def Shaped : Proto → Prop
  | .done => True
  | .dir _ _ sub rest => dirZones (2 + sub.entries) ≤ nrDzoneNum ∧ sub.Shaped ∧ rest.Shaped
  | .special _ _ _ _ _ _ rest => rest.Shaped
  | .file _ _ data rest => fileBlocks data ≤ nrDzoneNum + nrIndirects ∧ rest.Shaped

/-- Lines whose names have at most 14 bytes, and whose uid, gid and device number fit into an inode. -/
def LinesFit : Proto → Prop
  | .done => True
  | .dir name a sub rest => (name.length ≤ nameMax ∧ a.Fits) ∧ sub.LinesFit ∧ rest.LinesFit
  | .special name a _ major minor _ rest =>
    (name.length ≤ nameMax ∧ a.Fits) ∧ (0 ≤ deviceNumber major minor ∧ deviceNumber major minor < 65536) ∧
      rest.LinesFit
  | .file name a _ rest => (name.length ≤ nameMax ∧ a.Fits) ∧ rest.LinesFit

/-- Directories whose links, two and one for each directory in them, can be counted in a byte. -/
def LinksFit : Proto → Prop
  | .done => True
  | .dir _ _ sub rest => 2 + sub.subdirs < 256 ∧ sub.LinksFit ∧ rest.LinksFit
  | .special _ _ _ _ _ _ rest => rest.LinksFit
  | .file _ _ _ rest => rest.LinksFit

end Proto

/-! ## §2 The Lines of a Directory -/

/-- What the lines `p` of a directory with `k` entries and `l` links ask for. -/
structure Accepts (s : FileSystem) (k l : ℕ) (p : Proto) : Prop where
  lines : p.LinesFit
  links : l + p.subdirs < 256 ∧ p.LinksFit
  room : s.Room p.inodes (dirZones (k + p.entries) - dirZones k + p.zones)

variable {s s' : FileSystem} {n b k : ℕ}

theorem accepts_iff {i z : ℕ} (hg : Grows n b i z s s') (k l : ℕ) (p : Proto) :
    Accepts s' k l p ↔ p.LinesFit ∧ (l + p.subdirs < 256 ∧ p.LinksFit) ∧
      s.Room (i + p.inodes) (z + (dirZones (k + p.entries) - dirZones k + p.zones)) := by
  rw [← hg.room_iff]
  exact ⟨fun h => ⟨h.lines, h.links, h.room⟩, fun h => ⟨h.1, h.2.1, h.2.2⟩⟩

/-- The zones that an entry and the entries after it add to a directory. -/
theorem dirZones_split (k e : ℕ) : dirZones (k + (e + 1)) - dirZones k =
    dirZones (k + 1) - dirZones k + (dirZones (k + 1 + e) - dirZones (k + 1)) := by
  have h1 : dirZones k ≤ dirZones (k + 1) := dirZones_mono (Nat.le_succ k)
  have h2 : dirZones (k + 1) ≤ dirZones (k + 1 + e) := dirZones_mono (Nat.le_add_right _ _)
  rw [show k + (e + 1) = k + 1 + e by omega]
  omega

/-- An entry of directory `n`, what comes below it, and the lines after it.  `body` takes `i` inodes
    and `z` zones on the condition `D` and leaves the directory `l` links. -/
theorem eatDir_entry (name : Name) {kind : ℕ} (hkind : kind ≤ iRegular) (a : Attr) (rest : Proto)
    (body : ℕ → FileSystem → Option FileSystem) {D : Prop} {i z l : ℕ} (hs : s.Base)
    (h : DirAt s n b (dirZones k) k) (hb : b ≤ s.nextZone) (hk : k < 448)
    (hbody : ∀ s₁, Fresh s₁ s.nextInode 1 → DirAt s₁ n b (dirZones (k + 1)) (k + 1) →
      Grows n b 1 (dirZones (k + 1) - dirZones k) s s₁ → (s₁.inode n).nlinks = (s.inode n).nlinks →
      Guarded (body s.nextInode s₁) (D ∧ s₁.Room i z) fun s₂ =>
        Grows n b (1 + i) (dirZones (k + 1) - dirZones k + z) s s₂ ∧
          DirAt s₂ n b (dirZones (k + 1)) (k + 1) ∧ (s₂.inode n).nlinks = l)
    (hrest : ∀ s₁, s₁.Base → DirAt s₁ n b (dirZones (k + 1)) (k + 1) → b ≤ s₁.nextZone →
      Guarded (eatDir n rest s₁) (Accepts s₁ (k + 1) (s₁.inode n).nlinks rest) fun s' =>
        Grows n b rest.inodes (dirZones (k + 1 + rest.entries) - dirZones (k + 1) + rest.zones) s₁ s') :
    Guarded ((s.newEntry n name kind a).bind fun r => (body r.1 r.2).bind (eatDir n rest))
      (((name.length ≤ nameMax ∧ a.Fits) ∧ D ∧ rest.LinesFit) ∧ (l + rest.subdirs < 256 ∧ rest.LinksFit) ∧
        s.Room (1 + i + rest.inodes)
          (dirZones (k + (rest.entries + 1)) - dirZones k + (z + rest.zones))) fun s' =>
      Grows n b (1 + i + rest.inodes)
        (dirZones (k + (rest.entries + 1)) - dirZones k + (z + rest.zones)) s s' := by
  have hsum : dirZones (k + (rest.entries + 1)) - dirZones k + (z + rest.zones) =
      dirZones (k + 1) - dirZones k + z +
        (dirZones (k + 1 + rest.entries) - dirZones (k + 1) + rest.zones) := by
    rw [dirZones_split]
    omega
  rw [hsum]
  set δ := dirZones (k + 1) - dirZones k
  set more := dirZones (k + 1 + rest.entries) - dirZones (k + 1) + rest.zones
  refine ((newEntry_spec hs h hb hk name hkind a).bind
    (D := (D ∧ s.Room (1 + i) (δ + z)) ∧ rest.LinesFit ∧ (l + rest.subdirs < 256 ∧ rest.LinksFit) ∧
      s.Room (1 + i + rest.inodes) (δ + z + more)) ?_).congr ?_
  · rintro - ⟨c, s₁⟩ ⟨hc, hfresh, hdir1, hg1, hlinks1⟩
    dsimp only at hc hfresh hdir1 hg1 hlinks1 ⊢
    subst hc
    refine ((hbody s₁ hfresh hdir1 hg1 hlinks1).congr (and_congr_right fun _ => hg1.room_iff)).bind ?_
    rintro - s₂ ⟨hg2, hdir2, hlinks2⟩
    refine ((hrest s₂ hg2.base hdir2 (hb.trans hg2.le.2)).congr ?_).mono ?_
    · rw [hlinks2]
      exact accepts_iff hg2 (k + 1) l rest
    · exact fun _ s₃ hg3 => hg2.trans hg3 (Or.inl rfl) le_rfl
  · -- The room for the whole is enough for each part.
    constructor
    · rintro ⟨⟨hname, -⟩, ⟨hd, -⟩, hnames, hlinks, hroom⟩
      exact ⟨⟨hname, hd, hnames⟩, hlinks, hroom⟩
    · rintro ⟨⟨hname, hd, hnames⟩, hlinks, hroom⟩
      exact ⟨⟨hname, hroom.mono (by omega) (by omega)⟩, ⟨hd, hroom.mono (by omega) (by omega)⟩, hnames,
        hlinks, hroom⟩

theorem dirZones_two : dirZones 2 = 1 := rfl

theorem one_le_dirZones (k : ℕ) : 1 ≤ dirZones k := le_max_left ..

theorem eatDir_spec (p : Proto) (hs : s.Base) (h : DirAt s n b (dirZones k) k) (hb : b ≤ s.nextZone)
    (hn : 0 < n) (hk : k + p.entries ≤ 448) (hp : p.Shaped) :
    Guarded (eatDir n p s) (Accepts s k (s.inode n).nlinks p) fun s' =>
      Grows n b p.inodes (dirZones (k + p.entries) - dirZones k + p.zones) s s' := by
  induction p generalizing s n b k with
  | done =>
    have hzero : dirZones (k + Proto.done.entries) - dirZones k + Proto.done.zones = 0 :=
      Nat.sub_self (dirZones k)
    rw [hzero]
    refine (Guarded.pure (Grows.refl hs)).congr (iff_of_true trivial ⟨trivial, ⟨?_, trivial⟩, ?_⟩)
    · exact h.packs.1
    · rw [hzero]
      exact hs.room
  | special name a isBlock major minor blocks rest ih =>
    have hkind : (if isBlock then iBlockSpecial else iCharSpecial) ≤ iRegular := by
      cases isBlock <;> decide
    have hk' : k + (rest.entries + 1) ≤ 448 := hk
    have hentry := eatDir_entry name hkind a rest (i := 0) (z := 0)
      (D := 0 ≤ deviceNumber major minor ∧ deviceNumber major minor < 65536) (l := (s.inode n).nlinks)
      (fun c s => s.addZone c (deviceNumber major minor) (blocks * blockSize))
      hs h hb (by omega) ?_ fun s₁ hs1 hd1 hb1 => ih hs1 hd1 hb1 hn (by omega) hp
    · rw [Nat.add_zero, Nat.zero_add] at hentry
      exact hentry.congr ⟨fun hall => ⟨hall.1, hall.2.1, hall.2.2⟩, fun hall => ⟨hall.1, hall.2, hall.3⟩⟩
    · intro s₁ hfresh hdir1 hg1 hlinks1
      have hne : n ≠ s.nextInode := Nat.ne_of_lt h.bound
      refine ((addZone_device hg1.base hfresh (by decide) _ s₁.nextZone).congr
        (and_iff_left hg1.base.room).symm).mono ?_
      · rintro - s₂ hg2
        exact ⟨hg1.trans hg2 (Or.inr le_rfl) (hb.trans hg1.le.2), hdir1.of_grows hg2 hne le_rfl,
          (congrArg Inode.nlinks (hg2.inode n hdir1.bound hne)).trans hlinks1⟩
  | file name a data rest ih =>
    obtain ⟨hdata, hp⟩ := hp
    have hk' : k + (rest.entries + 1) ≤ 448 := hk
    have hentry := eatDir_entry name le_rfl a rest (i := 0) (z := fileZones (fileBlocks data))
      (D := True) (l := (s.inode n).nlinks) (fun c s => s.eatFile c data)
      hs h hb (by omega) ?_ fun s₁ hs1 hd1 hb1 => ih hs1 hd1 hb1 hn (by omega) hp
    · rw [Nat.add_zero] at hentry
      refine hentry.congr ⟨?_, ?_⟩
      · rintro ⟨⟨hname, -, hnames⟩, hlinks, hroom⟩
        exact ⟨⟨hname, hnames⟩, hlinks, hroom⟩
      · rintro ⟨⟨hname, hnames⟩, hlinks, hroom⟩
        exact ⟨⟨hname, trivial, hnames⟩, hlinks, hroom⟩
    · intro s₁ hfresh hdir1 hg1 hlinks1
      have hne : n ≠ s.nextInode := Nat.ne_of_lt h.bound
      refine ((eatFile_spec hg1 le_rfl (hb.trans hg1.le.2) hfresh data hdata).congr
        (iff_of_eq (true_and _)).symm).mono ?_
      rintro - s₂ ⟨hg2, hg12⟩
      exact ⟨hg12, hdir1.of_grows hg2 hne le_rfl,
        (congrArg Inode.nlinks (hg2.inode n hdir1.bound hne)).trans hlinks1⟩
  | dir name a sub rest ihs ihr =>
    obtain ⟨hsub, hps, hpr⟩ := hp
    have hk' : k + (rest.entries + 1) ≤ 448 := hk
    have hsub' : 2 + sub.entries ≤ 448 := by
      unfold dirZones nrDzoneNum at hsub
      omega
    have hone : 1 ≤ dirZones (2 + sub.entries) := one_le_dirZones _
    have hentry := eatDir_entry name (show iDirectory ≤ iRegular by decide) a rest (i := sub.inodes)
      (z := dirZones (2 + sub.entries) + sub.zones)
      (D := (s.inode n).nlinks + 1 < 256 ∧ sub.LinesFit ∧ 2 + sub.subdirs < 256 ∧ sub.LinksFit)
      (l := (s.inode n).nlinks + 1) (fun c s => (s.newDir c n).bind (eatDir c sub))
      hs h hb (by omega) ?_ fun s₁ hs1 hd1 hb1 => ihr hs1 hd1 hb1 hn (by omega) hpr
    · simp only [Option.bind_assoc] at hentry
      refine hentry.congr ⟨?_, ?_⟩
      · rintro ⟨⟨hname, ⟨-, hnames, hsubdirs, hlinks⟩, hnames'⟩, ⟨hcount, hlinks'⟩, hroom⟩
        exact ⟨⟨hname, hnames, hnames'⟩, ⟨by change _ + (_ + 1) < _; omega, hsubdirs, hlinks, hlinks'⟩,
          hroom⟩
      · rintro ⟨⟨hname, hnames, hnames'⟩, ⟨hcount, hsubdirs, hlinks, hlinks'⟩, hroom⟩
        have hcount : (s.inode n).nlinks + (rest.subdirs + 1) < 256 := hcount
        exact ⟨⟨hname, ⟨by omega, hnames, hsubdirs, hlinks⟩, hnames'⟩, ⟨by omega, hlinks'⟩, hroom⟩
    · intro s₁ hfresh hdir1 hg1 hlinks1
      have hne : n ≠ s.nextInode := Nat.ne_of_lt h.bound
      have hroom : ∀ {i}, s₁.Room i (dirZones (2 + sub.entries) + sub.zones) →
          s₁.Room 0 1 := fun hroom => hroom.mono (Nat.zero_le _) (by omega)
      refine ((newDir_child hg1 le_rfl (hb.trans hg1.le.2) hfresh hdir1 hn hne).bind
        (D := sub.LinesFit ∧ (2 + sub.subdirs < 256 ∧ sub.LinksFit) ∧
          s₁.Room sub.inodes (dirZones (2 + sub.entries) + sub.zones)) ?_).congr ?_
      · rintro - s₂ ⟨hnew2, hnlinks2, hdir2, hlinks2, hg2, hzone2, hblock2⟩
        have hle : s₁.nextInode ≤ s₂.nextInode ∧ s₁.nextZone ≤ s₂.nextZone := by
          rw [hg2.nextInode, hg2.nextZone, hg1.nextInode, hg1.nextZone]
          omega
        have hzones : 1 + (dirZones (2 + sub.entries) - dirZones 2 + sub.zones) =
            dirZones (2 + sub.entries) + sub.zones := by
          rw [dirZones_two]
          omega
        refine ((ihs hg2.base hnew2 hle.2 hfresh.pos hsub' hps).congr ?_).mono ?_
        · rw [hnlinks2, accepts_iff hg2 2 2 sub, hg1.room_iff, ← hzones,
            Nat.add_assoc (dirZones (k + 1) - dirZones k) 1]
        · rintro - s₃ hg3
          have hinode3 := hg3.inode n hdir2.bound hne
          refine ⟨?_, ?_, ?_⟩
          · have hg := hg2.trans hg3 (Or.inr le_rfl) (hb.trans hg1.le.2)
            rwa [Nat.add_assoc (dirZones (k + 1) - dirZones k) 1, hzones] at hg
          · refine hdir1.transfer (hinode3 ▸ hdir2.packs) ?_ ?_ ?_ ?_ ?_
            · rw [hinode3, hzone2]
            · rw [hg3.same.1, hg2.same.1, hg1.same.1]
            · exact hle.1.trans hg3.le.1
            · exact hle.2.trans hg3.le.2
            · exact fun q hq => (hg3.block q hq).trans (hblock2 q hq)
          · rw [hinode3, hlinks2, hlinks1]
      · rw [hlinks1]
        constructor
        · rintro ⟨⟨-, hcount⟩, hnames, hlinks, hroom⟩
          exact ⟨⟨hcount, hnames, hlinks⟩, hroom⟩
        · rintro ⟨⟨hcount, hnames, hlinks⟩, hall⟩
          exact ⟨⟨hroom hall, hcount⟩, hnames, hlinks, hall⟩

/-! ## §3 The Maps of an Empty File System -/

namespace FileSystem

def addBits (s : FileSystem) (l : List (ℕ × ℕ)) : FileSystem := { s with bits := s.bits ++ l }

theorem Base.addBits {l : List (ℕ × ℕ)} (h : s.Base) (hl : ∀ p ∈ l, s.Allowed p) :
    (s.addBits l).Base where
  blocks := h.blocks
  maps := h.maps
  inodes := h.inodes
  zones := h.zones
  room := h.room
  zero := h.zero
  bits := fun p hp => (List.mem_append.mp hp).elim (h.bits p) (hl p)

/-- Only bits have been set, and only ones that may be. -/
def Marked (s₀ s : FileSystem) : Prop := ∃ l, s = s₀.addBits l ∧ s.Base

theorem Marked.insertBit {s₀ : FileSystem} (h : Marked s₀ s) (block bit count : ℕ)
    (hblock : block < s₀.nrblocks) (hbit : bit + count ≤ bitsPerBlock)
    (hnew : ∀ p ∈ (List.range' bit count).map fun i => (block, i), s₀.Allowed p) :
    ∃ s', s.insertBit block bit count = some s' ∧ Marked s₀ s' := by
  obtain ⟨l, rfl, hbase⟩ := h
  refine ⟨_, if_pos (Or.inr ⟨hblock, hbit⟩), l ++ (List.range' bit count).map fun i => (block, i), ?_,
    hbase.addBits hnew⟩
  unfold FileSystem.addBits
  rw [← List.append_assoc]

theorem residual_spec (len : ℕ) (hlen : 0 < len) :
    0 < residual len ∧ residual len ≤ bitsPerBlock ∧
      bitsPerBlock * (bitmapsize len - 1) + residual len = len := by
  unfold residual bitmapsize bitsPerBlock
  split <;> omega

/-- The bits that fill up the last block of a map are past its end. -/
theorem mem_pad {map len : ℕ} (hlen : 0 < len) {p : ℕ × ℕ}
    (hp : p ∈ (List.range' (residual len) (bitsPerBlock - residual len)).map fun i =>
      (map + bitmapsize len - 1, i)) :
    ∃ m, len ≤ m ∧ p = (map + m / bitsPerBlock, m % bitsPerBlock) ∧ p.1 < map + bitmapsize len := by
  obtain ⟨i, hi, rfl⟩ := List.mem_map.mp hp
  obtain ⟨hlo, hhi⟩ := List.mem_range'_1.mp hi
  obtain ⟨-, hle, heq⟩ := residual_spec len hlen
  have hsize : 0 < bitmapsize len := by
    unfold bitmapsize bitsPerBlock
    omega
  have hlt : i < bitsPerBlock := by omega
  refine ⟨bitsPerBlock * (bitmapsize len - 1) + i, by omega, ?_, by dsimp only; omega⟩
  have hdiv : (bitsPerBlock * (bitmapsize len - 1) + i) / bitsPerBlock = bitmapsize len - 1 := by
    rw [Nat.mul_add_div (by decide), Nat.div_eq_of_lt hlt, Nat.add_zero]
  rw [hdiv, Nat.mul_add_mod, Nat.mod_eq_of_lt hlt, Nat.add_sub_assoc hsize]

/-- The bits of a map block that is not needed at all. -/
theorem mem_spare {map len all : ℕ} (hall : bitmapsize len < bitmapsize all) {p : ℕ × ℕ}
    (hp : p ∈ (List.range' 0 bitsPerBlock).map fun i => (map + bitmapsize all - 1, i)) :
    ∃ m, len ≤ m ∧ p = (map + m / bitsPerBlock, m % bitsPerBlock) ∧ p.1 < map + bitmapsize all := by
  obtain ⟨i, hi, rfl⟩ := List.mem_map.mp hp
  obtain ⟨-, hhi⟩ := List.mem_range'_1.mp hi
  have hlt : i < bitsPerBlock := by omega
  refine ⟨bitsPerBlock * (bitmapsize all - 1) + i, ?_, ?_, by dsimp only; omega⟩
  · unfold bitmapsize bitsPerBlock at *
    omega
  · have hdiv : (bitsPerBlock * (bitmapsize all - 1) + i) / bitsPerBlock = bitmapsize all - 1 := by
      rw [Nat.mul_add_div (by decide), Nat.div_eq_of_lt hlt, Nat.add_zero]
    rw [hdiv, Nat.mul_add_mod, Nat.mod_eq_of_lt hlt, Nat.add_sub_assoc (by omega)]

/-- The state in which `super` begins to write. -/
def blank (little : Bool) (blocks inodes : ℕ) : FileSystem :=
  { little, nrblocks := blocks, nrinodes := inodes, firstdatazone := initBlocks blocks inodes,
    zoneMap := inodeMap + bitmapsize (1 + inodes), nextZone := initBlocks blocks inodes, nextInode := 1,
    bits := [], inode := fun _ => ⟨0, 0, 0, 0, 0, fun _ => 0⟩, block := fun _ _ => 0 }

theorem blank_base (little : Bool) {blocks inodes : ℕ} (hb : blocks ≤ 65535) (hi : 1 ≤ inodes)
    (hinit : initBlocks blocks inodes < blocks) : (blank little blocks inodes).Base where
  blocks := hb
  maps := by
    unfold blank initBlocks inodeMap bitmapsize bitsPerBlock inodesPerBlock
    dsimp only
    omega
  inodes := le_rfl
  zones := le_rfl
  room := ⟨⟨hi, (by decide : 1 ≤ 8192)⟩, hinit.le, Nat.lt_add_of_pos_right (by decide)⟩
  zero := fun _ _ => rfl
  bits := by simp [blank]

/-- `super` succeeds on sizes that leave a block for data. -/
theorem super_spec (little : Bool) {blocks inodes : ℕ} (hb : blocks ≤ 65535) (hi : inodes ≤ 65535)
    (hi' : 1 ≤ inodes) (hinit : initBlocks blocks inodes < blocks) :
    ∃ s, super little blocks inodes = some s ∧ Marked (blank little blocks inodes) s := by
  have hbase := blank_base little hb hi' hinit
  have hinit' := hinit
  unfold initBlocks inodesPerBlock at hinit'
  have hi1 : 0 < bitmapsize (1 + inodes) := by unfold bitmapsize bitsPerBlock; omega
  have hz1 : 0 < bitmapsize blocks := by unfold bitmapsize bitsPerBlock; omega
  have hinit2 : 2 ≤ initBlocks blocks inodes := by unfold initBlocks inodesPerBlock; omega
  have hzl : bitmapsize (blocks - initBlocks blocks inodes + 1) ≤ bitmapsize blocks := by
    unfold bitmapsize bitsPerBlock
    omega
  have hpad : ∀ len, 0 < len → residual len + (bitsPerBlock - residual len) ≤ bitsPerBlock := by
    intro len hlen
    have := (residual_spec len hlen).2.1
    omega
  have hzlen : 0 < blocks - initBlocks blocks inodes + 1 := Nat.succ_pos _
  have hzl' : 0 < bitmapsize (blocks - initBlocks blocks inodes + 1) := by
    unfold bitmapsize bitsPerBlock
    omega
  -- What is inserted into the inode map, and into the two ends of the zone map.
  have hinodes : ∀ p ∈ (List.range' (residual (inodes + 1)) (bitsPerBlock - residual (inodes + 1))).map
      fun i => (inodeMap + bitmapsize (inodes + 1) - 1, i), (blank little blocks inodes).Allowed p := by
    intro p hp
    obtain ⟨m, hm, heq, hlt⟩ := mem_pad (by omega) hp
    rw [Nat.add_comm inodes 1] at hlt
    exact Or.inr (Or.inr (Or.inr (Or.inr (Or.inl ⟨m, hm, heq, hlt⟩))))
  have hzones : ∀ {map len}, map = (blank little blocks inodes).zoneMap →
      len = blocks - initBlocks blocks inodes + 1 → ∀ p : ℕ × ℕ,
      (∃ m, len ≤ m ∧ p = (map + m / bitsPerBlock, m % bitsPerBlock) ∧ p.1 < map + bitmapsize blocks) →
      (blank little blocks inodes).Allowed p := by
    rintro _ _ rfl rfl p ⟨m, hm, heq, hlt⟩
    refine Or.inr (Or.inr (Or.inr (Or.inr (Or.inr ⟨m, ?_, heq, hlt⟩))))
    change blocks < m + initBlocks blocks inodes
    omega
  have hstart : Marked (blank little blocks inodes) (blank little blocks inodes) :=
    ⟨[], by simp [addBits, blank], hbase⟩
  have hlt1 : inodeMap + bitmapsize (inodes + 1) - 1 < blocks := by
    rw [Nat.add_comm inodes 1]
    unfold inodeMap
    omega
  have hlt2 : inodeMap + bitmapsize (1 + inodes) + bitmapsize blocks - 1 < blocks := by
    unfold inodeMap
    omega
  obtain ⟨s₁, hs1, hmark1⟩ := hstart.insertBit _ _ _ hlt1 (hpad (inodes + 1) (by omega)) hinodes
  obtain ⟨s₂, hs2, hmark2⟩ := hmark1.insertBit
    (inodeMap + bitmapsize (1 + inodes) + bitmapsize (blocks - initBlocks blocks inodes + 1) - 1) _ _
    (show _ < blocks by omega) (hpad (blocks - initBlocks blocks inodes + 1) hzlen) fun p hp => by
      obtain ⟨m, hm, heq, hlt⟩ := mem_pad hzlen hp
      exact hzones rfl rfl p ⟨m, hm, heq, hlt.trans_le (Nat.add_le_add_left hzl _)⟩
  obtain ⟨s₃, hs3, hmark3⟩ : ∃ s₃,
      (if bitmapsize (blocks - initBlocks blocks inodes + 1) ≠ bitmapsize blocks then
        s₂.insertBit (inodeMap + bitmapsize (1 + inodes) + bitmapsize blocks - 1) 0 bitsPerBlock
      else some s₂) = some s₃ ∧ Marked (blank little blocks inodes) s₃ := by
    split
    next hne =>
      refine hmark2.insertBit _ _ _ hlt2 (by decide) fun p hp => hzones rfl rfl p (mem_spare ?_ hp)
      exact lt_of_le_of_ne hzl hne
    next => exact ⟨s₂, rfl, hmark2⟩
  obtain ⟨s₄, hs4, hmark4⟩ := hmark3.insertBit (inodeMap + bitmapsize (1 + inodes)) 0 1
    (show _ < blocks by omega) (by decide) fun p hp => by
      rw [List.mem_singleton.mp hp]
      exact Or.inr (Or.inr (Or.inr (Or.inl rfl)))
  obtain ⟨s₅, hs5, hmark5⟩ := hmark4.insertBit inodeMap 0 1 (show _ < blocks by unfold inodeMap; omega)
    (by decide) fun p hp => by
      rw [List.mem_singleton.mp hp]
      exact Or.inr (Or.inr (Or.inl rfl))
  refine ⟨s₅, ?_, hmark5⟩
  unfold super
  dsimp only
  rw [if_neg (by omega)]
  change ((blank little blocks inodes).padMap inodeMap (inodes + 1)).bind _ = _
  rw [show (blank little blocks inodes).padMap inodeMap (inodes + 1) = some s₁ from hs1, Option.bind_some,
    show s₁.padMap (inodeMap + bitmapsize (1 + inodes)) (blocks - initBlocks blocks inodes + 1) =
      some s₂ from hs2, Option.bind_some, hs3, Option.bind_some, hs4, Option.bind_some, hs5]

end FileSystem

/-! ## §4 The Program -/

/-- The inodes of a whole tree. -/
def inodesNeeded (p : Proto) : ℕ := 1 + p.inodes

/-- The data and indirect zones of a whole tree. -/
def zonesNeeded (p : Proto) : ℕ := dirZones (2 + p.entries) + p.zones

/-- When the program accepts a prototype for which there are inodes and blocks. -/
structure Accepted (inodes : ℕ) (root : Attr) (p : Proto) : Prop where
  root : root.Fits
  lines : p.LinesFit
  links : 2 + p.subdirs < 256 ∧ p.LinksFit
  inodes : inodesNeeded p < inodes
  maps : inodesNeeded p < bitsPerBlock ∧ zonesNeeded p < bitsPerBlock

theorem mkfs_spec (little : Bool) {blocks inodes : ℕ} (root : Attr) {p : Proto} (hb : blocks ≤ 65535)
    (hi : inodes ≤ 65535) (hdir : dirZones (2 + p.entries) ≤ nrDzoneNum) (hp : p.Shaped)
    (hinodes : inodesNeeded p ≤ inodes) (hzones : initBlocks blocks inodes + zonesNeeded p ≤ blocks) :
    Guarded (mkfs little blocks inodes root p) (Accepted inodes root p) fun s => s.Base := by
  have hone : 1 ≤ dirZones (2 + p.entries) := one_le_dirZones _
  have hentries : 2 + p.entries ≤ 448 := by
    unfold dirZones nrDzoneNum at hdir
    omega
  obtain ⟨s, hs, l, rfl, hbase⟩ := super_spec little hb hi (by unfold inodesNeeded at hinodes; omega)
    (show initBlocks blocks inodes < blocks by unfold zonesNeeded at hzones; omega)
  set s := (blank little blocks inodes).addBits l
  have hnext : s.nextInode = 1 := rfl
  have hroom : ∀ i z, s.Room i z ↔ (1 + i ≤ inodes ∧ 1 + i ≤ bitsPerBlock) ∧
      initBlocks blocks inodes + z ≤ blocks ∧
      initBlocks blocks inodes + z < initBlocks blocks inodes + bitsPerBlock := fun _ _ => Iff.rfl
  unfold mkfs
  rw [hs, Option.bind_some]
  have hneeded : 1 + (dirZones (2 + p.entries) - dirZones 2 + p.zones) = zonesNeeded p := by
    unfold zonesNeeded
    rw [dirZones_two]
    omega
  refine ((allocInode_spec hbase (modeCon iDirectory root) root.uid root.gid 1 0).bind
    (D := s.Room 1 1 ∧ p.LinesFit ∧ (2 + p.subdirs < 256 ∧ p.LinksFit) ∧
      s.Room (1 + p.inodes) (zonesNeeded p)) ?_).congr ?_
  · rintro ⟨hhead, -⟩ ⟨n, s₁⟩ ⟨hn, hg1, hinode1, -⟩
    dsimp only at hn hg1 hinode1 ⊢
    rw [hnext] at hn hinode1
    subst hn
    have hfresh : Fresh s₁ 1 0 := by
      refine ⟨Nat.one_pos, ?_, by rw [hinode1], by rw [hinode1], by rwa [hinode1]⟩
      rw [hg1.nextInode, hnext]
      exact Nat.lt_succ_self _
    refine ((newDir_root hg1.base hfresh).congr hg1.room_iff).bind ?_
    rintro - s₂ ⟨hdir2, hlinks2, hg2⟩
    have hg12 := hg1.trans hg2 (Or.inl rfl) (Nat.zero_le _)
    refine ((eatDir_spec p hg2.base hdir2 hg2.le.2 Nat.one_pos hentries hp).congr ?_).mono
      fun _ s' hg => hg.base
    rw [hlinks2, accepts_iff hg12 2 2 p, Nat.zero_add, hneeded]
  · unfold inodesNeeded at hinodes
    simp only [hroom, headPacks_iff (show iDirectory ≤ iRegular by decide)]
    constructor
    · rintro ⟨⟨hroot, -⟩, -, hlines, hlinks, ⟨hi1, hi2⟩, -, hz⟩
      exact ⟨hroot, hlines, hlinks, by unfold inodesNeeded; omega, by unfold inodesNeeded; omega, by omega⟩
    · rintro ⟨hroot, hlines, hlinks, hlt, hmap, hzmap⟩
      unfold inodesNeeded at hlt hmap
      have hz : 1 ≤ zonesNeeded p := hone.trans (Nat.le_add_right _ _)
      exact ⟨⟨hroot, by omega⟩, by omega, hlines, hlinks, by omega⟩

/-- A prototype of files of at most 7 + 512 blocks and directories of at most 7, for which there are
    inodes and blocks, is made into a file system in which only bits are set that may be, if and only
    if it leaves an inode free, none of its bits lies beyond the first block of a map, its names have
    at most 14 bytes, the links of its directories can be counted in a byte, and its uids, gids and device
    numbers fit into an inode. -/
theorem mkfs_accepts_iff (little : Bool) (blocks inodes : ℕ) (root : Attr) (p : Proto)
    (hb : blocks ≤ 65535) (hi : inodes ≤ 65535) (hdir : dirZones (2 + p.entries) ≤ nrDzoneNum)
    (hp : p.Shaped) (hinodes : inodesNeeded p ≤ inodes)
    (hzones : initBlocks blocks inodes + zonesNeeded p ≤ blocks) :
    (∃ s, mkfs little blocks inodes root p = some s ∧ ∀ bit ∈ s.bits, s.Allowed bit) ↔
      Accepted inodes root p :=
  ((mkfs_spec little root hb hi hdir hp hinodes hzones).mono fun _ _ h => h.bits).exists_iff

/-- Owner and permissions of the lines of `smallProto`. -/
def smallAttr : Attr := ⟨0o644, false, false, 65535, 255⟩

/-- A root with a file `a` of eight blocks, and a directory `d` with a character device `t` in it. -/
def smallProto : Proto :=
  .file [97] smallAttr (List.replicate 7200 7)
    (.dir [100] smallAttr (.special [116] smallAttr false 4 0 0 .done) .done)

theorem mkfs_accepts_small : ∃ s, mkfs false 360 127 smallAttr smallProto = some s ∧
    ∀ bit ∈ s.bits, s.Allowed bit := by
  have hblocks : fileBlocks (List.replicate 7200 7) = 8 := by
    unfold fileBlocks
    rw [List.length_replicate]
    rfl
  have hzones : zonesNeeded smallProto = 11 := by
    unfold zonesNeeded smallProto
    simp only [Proto.zones, hblocks]
    decide
  have hfits : smallAttr.Fits := by decide
  refine (mkfs_accepts_iff false 360 127 smallAttr smallProto (by decide) (by decide) (by decide)
    ⟨?_, by decide, trivial, trivial⟩ (by decide) ?_).mpr
    ⟨hfits, ⟨⟨by decide, hfits⟩, ⟨by decide, hfits⟩, ⟨⟨by decide, hfits⟩, by decide, trivial⟩, trivial⟩,
      ⟨by decide, by decide, trivial, trivial⟩, by decide, ⟨by decide, ?_⟩⟩
  · rw [hblocks]
    decide
  · rw [hzones]
    decide
  · rw [hzones]
    decide

/-- The root alone needs one inode, and there is one. -/
theorem mkfs_refuses_last_inode :
    ¬∀ little blocks inodes root p, blocks ≤ 65535 → inodes ≤ 65535 →
      dirZones (2 + p.entries) ≤ nrDzoneNum → p.Shaped → inodesNeeded p ≤ inodes →
      initBlocks blocks inodes + zonesNeeded p ≤ blocks →
      ∃ s, mkfs little blocks inodes root p = some s ∧ ∀ bit ∈ s.bits, s.Allowed bit := by
  intro h
  have hdone := h false 360 1 ⟨0o755, false, false, 2, 1⟩ .done (by decide) (by decide) (by decide)
    trivial (by decide) (by decide)
  have hspec := (@mkfs_spec false 360 1 ⟨0o755, false, false, 2, 1⟩ .done (by decide) (by decide)
    (by decide) trivial (by decide) (by decide)).mono fun _ _ hbase => hbase.bits
  have haccepted := hspec.exists_iff.mp hdone
  exact absurd haccepted.inodes (by decide)

end LisaMinix.Tools.Mkfs
