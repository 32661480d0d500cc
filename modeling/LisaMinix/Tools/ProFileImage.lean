import LisaMinix.Library.Chunks
import LisaMinix.Tools.BootImage

/-!
# The ProFile Image

`mklisa.py` writes a bootable image of a ProFile: blocks of 20 tag and 512 data bytes, with the
boot block, a header, the kernel image and the file system.  Three programs read the header for
themselves: the boot block `lisaboot.S`, the disk task `lisapro.c` and the checker `minixfs.py`.

- `main` models the tool; `lisaboot`, `winchesterTask` and `findFs` model the readers.
- `Region` and `Written`: what the tool lays in which blocks, and `main_written`.
- The readers find exactly the regions that the tool has written, if there is a file system.
-/

namespace LisaMinix.Tools.ProFile

open LisaMinix.Library

variable {n : ℕ} {args : Args}

/-! ## §1 The Tool -/

def block : ℕ := 512
def tag : ℕ := 20
def magic : ℕ := 0x4D4E584C
def version : ℕ := 1

/-- `SIZES`: the blocks of a drive of 5 and of 10 MB. -/
inductive Size where
  | mb5
  | mb10
  deriving DecidableEq

def Size.nblocks : Size → ℕ
  | .mb5 => 9728
  | .mb10 => 19456

/-- The options and the contents of the files. -/
structure Args where
  outputExists : Bool
  force : Bool
  boot : List UInt8
  image : List UInt8
  fs : Option (List UInt8)
  load : ℤ
  entry : Option ℤ
  size : Size

/-- The five ways in which the tool refuses its input. -/
inductive MklisaError where
  | outputExists
  | bootTooLong
  | imageEmpty
  | tooManyBlocks
  | structError
  deriving DecidableEq

def blocks (data : List UInt8) : ℕ := (data.length + block - 1) / block

def firstImage : ℕ := 2

namespace Args

variable (args : Args)

/-- `open(args.fs).read() if args.fs else b""`. -/
def fsBytes : List UInt8 := args.fs.getD []

def imageBlocks : ℕ := blocks args.image

def firstFs : ℕ := if args.fsBytes ≠ [] then firstImage + args.imageBlocks else 0

def fsBlocks : ℕ := blocks args.fsBytes

def used : ℕ := firstImage + args.imageBlocks + args.fsBlocks

def entryAddr : ℤ := args.entry.getD args.load

/-- The eight longs of the header. -/
def header : List ℤ :=
  [magic, version, firstImage, args.imageBlocks, args.load, args.entryAddr, args.firstFs,
    args.fsBlocks]

end Args

/-- `struct.pack(">8I", ..)`. -/
def pack (longs : List ℤ) : Except MklisaError (List UInt8) :=
  if longs.all (fun v => 0 ≤ v ∧ v < 2 ^ 32) then .ok (longs.flatMap fun v => beBytes 4 v.toNat)
  else .error .structError

/-- `bytes(TAG)`. -/
def noTag : List UInt8 := List.replicate tag 0

/-- `tag0`, which the boot ROM looks for. -/
def tag0 : List UInt8 := patch noTag 4 [0xAA, 0xAA]

def put (out : List UInt8) (n : ℕ) (data tagBytes : List UInt8) : List UInt8 :=
  let pos := n * (tag + block)
  patch (patch out pos tagBytes) (pos + tag) data

/-- `for i in range(..): put(first + i, data[i * BLOCK:(i + 1) * BLOCK])`. -/
def putAll (out : List UInt8) (first : ℕ) (data : List UInt8) (n : ℕ) : List UInt8 :=
  (List.range n).foldl (fun out i => put out (first + i) (sub data (i * block) block) noTag) out

/-- `main`: the image that is written. -/
def main (args : Args) : Except MklisaError (List UInt8) :=
  if args.outputExists ∧ ¬ args.force then .error .outputExists
  else if block < args.boot.length then .error .bootTooLong
  else if args.image = [] then .error .imageEmpty
  else if args.size.nblocks < args.used then .error .tooManyBlocks
  else do
    let out := List.replicate (args.size.nblocks * (tag + block)) 0
    let out := put out 0 args.boot tag0
    let out := put out 1 (← pack args.header) noTag
    let out := putAll out firstImage args.image args.imageBlocks
    return putAll out args.firstFs args.fsBytes args.fsBlocks

/-! ## §2 The Readers -/

/-- The 512 data bytes of block `n` of an image. -/
def dataOf (raw : List UInt8) (n : ℕ) : List UInt8 := sub raw (n * (tag + block) + tag) block

/-- The 20 tag bytes of block `n` of an image. -/
def tagOf (raw : List UInt8) (n : ℕ) : List UInt8 := sub raw (n * (tag + block)) tag

/-- The data of `count` blocks behind one another. -/
def area (raw : List UInt8) (first count : ℕ) : List UInt8 :=
  (List.range count).flatMap fun i => dataOf raw (first + i)

inductive MinixfsError where
  | noFsArea
  deriving DecidableEq

/-- `find_fs` of `minixfs.py`. -/
def findFs (raw : List UInt8) : Except MinixfsError (List UInt8) :=
  let profileBlock := tag + block
  if raw.length % profileBlock = 0 ∧ 2 * profileBlock ≤ raw.length then
    let hdr := sub raw (profileBlock + tag) 32
    let long i := beVal (sub hdr (4 * i) 4)
    if long 0 = magic then
      if long 7 = 0 then .error .noFsArea
      else .ok (area raw (long 6) (long 7))
    else .ok raw
  else .ok raw

/-- A partition of the disk task. -/
structure Part where
  start : ℤ
  size : ℤ
  deriving DecidableEq

/-- `get_long` of `lisapro.c`, a signed long. -/
def getLong (b : List UInt8) (p : ℕ) : ℤ := (BitVec.ofNat 32 (beVal (sub b p 4))).toInt

def spareTable : ℕ := 0xFFFFFF

/-- The partitions as `winchester_task` sets them up: the file system and the whole disk.
    `proBlock` is `pro_block` for a read, the 532 bytes of a block, `none` when it fails. -/
def winchesterTask (proBlock : ℕ → Option (List UInt8)) : Part × Part :=
  let whole : Part :=
    match proBlock spareTable with
    | some b => ⟨0, beVal (sub b 18 3)⟩
    | none => ⟨0, 0⟩
  let fs : Part :=
    if whole.size ≠ 0 then
      match proBlock 1 with
      | some b =>
        let b := b.drop tag
        if getLong b 0 = magic then ⟨getLong b 24, getLong b 28⟩ else ⟨0, 0⟩
      | none => ⟨0, 0⟩
    else ⟨0, 0⟩
  (fs, whole)

/-- What `lisaboot.S` reads into its staging area; `none` where it branches to `fail`.  `rdblk`
    reads the data of a block of the image. -/
def lisaboot (raw : List UInt8) : Option (List UInt8) :=
  let hdr := dataOf raw 1
  let long i := beVal (sub hdr (4 * i) 4)
  if long 0 ≠ magic then none
  else if long 1 ≠ version then none
  else if long 3 = 0 then none
  else some (area raw (long 2) (long 3))

/-! ## §3 Blocks of the Output -/

/-- Block `n`, tag and data. -/
def blockAt (raw : List UInt8) (n : ℕ) : List UInt8 := sub raw (n * (tag + block)) (tag + block)

/-- A block with nothing in it. -/
def zeroBlock : List UInt8 := List.replicate (tag + block) 0

/-- A block with `data` in it, filled up with zeros. -/
def filled (tagBytes data : List UInt8) : List UInt8 := tagBytes ++ fill 0 block data

@[simp] theorem length_noTag : noTag.length = tag := rfl

@[simp] theorem length_tag0 : tag0.length = tag := rfl

theorem tagOf_eq (raw : List UInt8) (n : ℕ) : tagOf raw n = (blockAt raw n).take tag := by
  rw [tagOf, blockAt, sub, sub, List.take_take, Nat.min_eq_left (Nat.le_add_right _ _)]

theorem dataOf_eq (raw : List UInt8) (n : ℕ) : dataOf raw n = (blockAt raw n).drop tag := by
  rw [dataOf, blockAt, sub, sub, List.drop_take, List.drop_drop, Nat.add_sub_cancel_left]

theorem tagOf_filled {raw tagBytes data : List UInt8} (ht : tagBytes.length = tag)
    (h : blockAt raw n = filled tagBytes data) : tagOf raw n = tagBytes := by
  rw [tagOf_eq, h, filled, List.take_left' ht]

theorem dataOf_filled {raw tagBytes data : List UInt8} (ht : tagBytes.length = tag)
    (h : blockAt raw n = filled tagBytes data) : dataOf raw n = fill 0 block data := by
  rw [dataOf_eq, h, filled, List.drop_left' ht]

/-- The end of a block that the image has. -/
theorem block_end {nblocks : ℕ} (h : n < nblocks) :
    n * (tag + block) + (tag + block) ≤ nblocks * (tag + block) := by
  have hmul := Nat.mul_le_mul_right (tag + block) h
  rwa [Nat.succ_mul] at hmul

/-- What a `put` needs: a block of the image, and data that fit into it. -/
structure Fits (nblocks : ℕ) (out : List UInt8) (n : ℕ) (data tagBytes : List UInt8) : Prop where
  length : out.length = nblocks * (tag + block)
  inside : n < nblocks
  data : data.length ≤ block
  tag : tagBytes.length = tag

variable {nblocks n m : ℕ} {out data tagBytes : List UInt8}

theorem Fits.bounds (hf : Fits nblocks out n data tagBytes) :
    n * (ProFile.tag + block) + tagBytes.length ≤ out.length ∧
      n * (ProFile.tag + block) + ProFile.tag + data.length ≤
        (patch out (n * (ProFile.tag + block)) tagBytes).length := by
  have hend := block_end hf.inside
  have hdata := hf.data
  have hlen := hf.length
  have htag := hf.tag
  have hfirst : n * (ProFile.tag + block) + tagBytes.length ≤ out.length := by omega
  refine ⟨hfirst, ?_⟩
  rw [length_patch hfirst]
  omega

theorem length_put (hf : Fits nblocks out n data tagBytes) :
    (put out n data tagBytes).length = nblocks * (tag + block) := by
  rw [put, length_patch hf.bounds.2, length_patch hf.bounds.1, hf.length]

/-- A `put` leaves the other blocks alone. -/
theorem blockAt_put_of_ne (hf : Fits nblocks out n data tagBytes) (hne : m ≠ n) :
    blockAt (put out n data tagBytes) m = blockAt out m := by
  have hdata := hf.data
  have htag := hf.tag
  have hapart : m * (tag + block) + (tag + block) ≤ n * (tag + block) ∨
      n * (tag + block) + (tag + block) ≤ m * (tag + block) :=
    (Nat.lt_or_gt_of_ne hne).imp block_end block_end
  rw [blockAt, put, sub_patch_of_disjoint hf.bounds.2 (by omega),
    sub_patch_of_disjoint hf.bounds.1 (by omega)]
  rfl

/-- A `put` into an empty block fills it. -/
theorem blockAt_put (hf : Fits nblocks out n data tagBytes) (hzero : blockAt out n = zeroBlock) :
    blockAt (put out n data tagBytes) n = filled tagBytes data := by
  have hlen : n * (tag + block) + (tag + block) ≤ out.length := by
    rw [hf.length]
    exact block_end hf.inside
  have hinner : blockAt (patch out (n * (tag + block)) tagBytes) n =
      tagBytes ++ List.replicate block 0 := by
    have htag : 0 + tagBytes.length ≤ tag + block := by
      rw [hf.tag]
      exact Nat.le_add_right _ _
    rw [blockAt, sub_patch_of_inside (Nat.add_zero _).symm htag hlen]
    change patch (blockAt out n) 0 tagBytes = _
    rw [hzero, patch, zeroBlock, Nat.zero_add, hf.tag, List.take_zero, List.nil_append,
      List.drop_replicate, Nat.add_sub_cancel_left]
  have hlen' : n * (tag + block) + (tag + block) ≤
      (patch out (n * (tag + block)) tagBytes).length := by
    rwa [length_patch hf.bounds.1]
  rw [blockAt, put, sub_patch_of_inside rfl (Nat.add_le_add_left hf.data tag) hlen']
  change patch (blockAt _ n) tag data = _
  rw [hinner, patch, List.take_left' hf.tag, ← hf.tag, List.drop_append, List.drop_of_length_le
    (Nat.le_add_right _ _), List.nil_append, Nat.add_sub_cancel_left, List.drop_replicate]
  rfl

/-! ## §4 One Block After Another -/

/-- The tag of block `n`. -/
def tagFor (n : ℕ) : List UInt8 := if n = 0 then tag0 else noTag

/-- The image while it is laid out: the blocks below `k` are filled, the others empty. -/
structure Stage (nblocks k : ℕ) (out : List UInt8) : Prop where
  length : out.length = nblocks * (tag + block)
  tagged : ∀ n < k, ∃ data, blockAt out n = filled (tagFor n) data
  empty : ∀ n, k ≤ n → n < nblocks → blockAt out n = zeroBlock

/-- What laying data from block `k` on has done: the blocks before are as they were. -/
def Keeps (k : ℕ) (out out' : List UInt8) : Prop := ∀ m < k, blockAt out' m = blockAt out m

theorem stage_zero (nblocks : ℕ) :
    Stage nblocks 0 (List.replicate (nblocks * (tag + block)) 0) where
  length := List.length_replicate
  tagged n hn := absurd hn (Nat.not_lt_zero n)
  empty n _ hn := by
    have hend := block_end hn
    rw [blockAt, sub, List.drop_replicate, List.take_replicate, Nat.min_eq_left (by omega)]
    rfl

variable {k : ℕ}

/-- The step: one more block. -/
theorem Stage.put (hs : Stage nblocks k out) (hk : k < nblocks) (hdata : data.length ≤ block)
    (htag : tagBytes = tagFor k) :
    Stage nblocks (k + 1) (put out k data tagBytes) ∧ Keeps k out (put out k data tagBytes) ∧
      blockAt (put out k data tagBytes) k = filled tagBytes data := by
  have hlen : tagBytes.length = tag := by
    rw [htag, tagFor]
    split <;> rfl
  have hf : Fits nblocks out k data tagBytes := ⟨hs.length, hk, hdata, hlen⟩
  have hkeeps : Keeps k out (ProFile.put out k data tagBytes) := fun m hm =>
    blockAt_put_of_ne hf hm.ne
  have hnew := blockAt_put hf (hs.empty k le_rfl hk)
  refine ⟨⟨length_put hf, fun n hn => ?_, fun n hn hn' => ?_⟩, hkeeps, hnew⟩
  · rcases Nat.lt_succ_iff_lt_or_eq.mp hn with hlt | rfl
    · rw [hkeeps n hlt]
      exact hs.tagged n hlt
    · exact ⟨data, by rw [hnew, htag]⟩
  · rw [blockAt_put_of_ne hf (by omega)]
    exact hs.empty n (by omega) hn'

/-- The run of a loop over the blocks of `data`. -/
theorem Stage.putAll (hs : Stage nblocks k out) (hpos : 0 < k) (data : List UInt8) (n : ℕ)
    (hn : k + n ≤ nblocks) :
    Stage nblocks (k + n) (putAll out k data n) ∧ Keeps k out (putAll out k data n) ∧
      ∀ i < n, blockAt (putAll out k data n) (k + i) = filled noTag (sub data (i * block) block) := by
  induction n with
  | zero => exact ⟨hs, fun _ _ => rfl, fun i hi => absurd hi (Nat.not_lt_zero i)⟩
  | succ n ih =>
    obtain ⟨hstage, hkeeps, hblocks⟩ := ih (by omega)
    have hround : ProFile.putAll out k data (n + 1) =
        ProFile.put (ProFile.putAll out k data n) (k + n) (sub data (n * block) block) noTag := by
      rw [ProFile.putAll, List.range_succ, List.foldl_append]
      rfl
    have htag : noTag = tagFor (k + n) := by rw [tagFor, if_neg (by omega)]
    have hcut : (sub data (n * block) block).length ≤ block := List.length_take_le _ _
    obtain ⟨hstage', hkeeps', hnew⟩ := hstage.put (by omega) hcut htag
    rw [hround]
    refine ⟨hstage', fun m hm => ?_, fun i hi => ?_⟩
    · rw [hkeeps' m (by omega), hkeeps m hm]
    · rcases Nat.lt_succ_iff_lt_or_eq.mp hi with hlt | rfl
      · rw [hkeeps' _ (by omega), hblocks i hlt]
      · exact hnew

/-! ## §5 What the Tool Has Written -/

/-- The four parts of an image. -/
inductive Region where
  | boot
  | header
  | image
  | fs
  deriving DecidableEq

namespace Region

variable (args : Args)

def first : Region → ℕ
  | boot => 0
  | header => 1
  | image => firstImage
  | fs => args.firstFs

def count : Region → ℕ
  | boot => 1
  | header => 1
  | image => args.imageBlocks
  | fs => args.fsBlocks

def bytes : Region → List UInt8
  | boot => args.boot
  | header => args.header.flatMap fun v => beBytes 4 v.toNat
  | image => args.image
  | fs => args.fsBytes

/-- The block numbers of a region. -/
def blockSet (r : Region) : Finset ℕ := Finset.Ico (r.first args) (r.first args + r.count args)

/-- The bytes of a region, padded with zeros to whole blocks. -/
def padded (r : Region) : List UInt8 := fill 0 (r.count args * block) (r.bytes args)

end Region

/-- **What `mklisa.py` has written**: four regions that do not overlap, with their tags. -/
structure Written (args : Args) (out : List UInt8) : Prop where
  length : out.length = args.size.nblocks * (tag + block)
  inside : ∀ r : Region, r.first args + r.count args ≤ args.size.nblocks
  disjoint : ∀ r r' : Region, r ≠ r' → Disjoint (r.blockSet args) (r'.blockSet args)
  data : ∀ r : Region, area out (r.first args) (r.count args) = r.padded args
  tags : ∀ n < args.size.nblocks, tagOf out n = tagFor n

/-- What the tool accepts. -/
structure Accepted (args : Args) : Prop where
  output : args.outputExists → args.force
  boot : args.boot.length ≤ block
  image : args.image ≠ []
  used : args.used ≤ args.size.nblocks
  header : ∀ v ∈ args.header, 0 ≤ v ∧ v < 2 ^ 32

/-- The image of an accepted input. -/
def layOut (args : Args) : List UInt8 :=
  let out := List.replicate (args.size.nblocks * (tag + block)) 0
  let out := put out 0 args.boot tag0
  let out := put out 1 (Region.header.bytes args) noTag
  let out := putAll out firstImage args.image args.imageBlocks
  putAll out args.firstFs args.fsBytes args.fsBlocks

theorem main_eq_ok_iff : main args = .ok out ↔ Accepted args ∧ out = layOut args := by
  unfold main pack
  constructor
  · intro h
    split_ifs at h with hexists hboot himage hused hpack
    · cases h
      refine ⟨⟨fun ho => ?_, Nat.not_lt.mp hboot, himage, Nat.not_lt.mp hused, ?_⟩, rfl⟩
      · by_contra hforce
        exact hexists ⟨ho, hforce⟩
      · simpa using hpack
    · cases h
  · rintro ⟨hacc, rfl⟩
    have hpack : args.header.all (fun v => 0 ≤ v ∧ v < 2 ^ 32) = true := by
      simpa using hacc.header
    rw [if_neg (fun h => h.2 (hacc.output h.1)), if_neg (Nat.not_lt.mpr hacc.boot),
      if_neg hacc.image, if_neg (Nat.not_lt.mpr hacc.used), if_pos hpack]
    rfl

theorem length_header (args : Args) : (Region.header.bytes args).length = 32 := by
  simp [Region.bytes, Args.header]

/-! ## §6 The Regions of the Output -/

/-- The last step of the tool, which an absent file system leaves out. -/
theorem Stage.putFs (hs : Stage nblocks (firstImage + args.imageBlocks) out)
    (hused : args.used ≤ nblocks) :
    let out' := ProFile.putAll out args.firstFs args.fsBytes args.fsBlocks
    Stage nblocks args.used out' ∧ Keeps (firstImage + args.imageBlocks) out out' ∧
      ∀ i < args.fsBlocks, blockAt out' (args.firstFs + i) =
        filled noTag (sub args.fsBytes (i * block) block) := by
  by_cases hfs : args.fsBytes = []
  · have hzero : args.fsBlocks = 0 := by
      rw [Args.fsBlocks, hfs]
      rfl
    have hall : args.used = firstImage + args.imageBlocks := by rw [Args.used, hzero, Nat.add_zero]
    rw [hzero, hall]
    exact ⟨hs, fun _ _ => rfl, fun i hi => absurd hi (Nat.not_lt_zero i)⟩
  · rw [Args.firstFs, if_pos hfs]
    exact hs.putAll (Nat.add_pos_left (by decide) _) args.fsBytes args.fsBlocks hused

/-- The blocks of a region, as the tool leaves them: the pieces of its bytes. -/
def Pieces (args : Args) (out : List UInt8) (r : Region) : Prop :=
  ∀ i < r.count args, dataOf out (r.first args + i) =
    fill 0 block (sub (r.bytes args) (i * block) block)

theorem layOut_stage (hacc : Accepted args) :
    Stage args.size.nblocks args.used (layOut args) ∧ ∀ r, Pieces args (layOut args) r := by
  have hused := hacc.used
  have htwo : firstImage ≤ args.size.nblocks := by
    cases args.size <;> decide
  have hhdr : (Region.header.bytes args).length ≤ block := by
    rw [length_header]
    decide
  obtain ⟨hs1, -, hboot⟩ := (stage_zero args.size.nblocks).put (Nat.lt_of_lt_of_le (by decide) htwo)
    hacc.boot (rfl : tag0 = tagFor 0)
  obtain ⟨hs2, hk2, hheader⟩ := hs1.put (Nat.lt_of_lt_of_le (by decide) htwo) hhdr
    (rfl : noTag = tagFor 1)
  obtain ⟨hs3, hk3, himage⟩ := hs2.putAll (by decide) args.image args.imageBlocks
    ((Nat.le_add_right _ _).trans hused)
  obtain ⟨hs4, hk4, hfs⟩ := Stage.putFs hs3 hused
  -- what a step has written is still there at the end
  have hkept : ∀ n < firstImage, blockAt (layOut args) n =
      blockAt (put (put _ 0 args.boot tag0) 1 (Region.header.bytes args) noTag) n := fun n hn =>
    (hk4 n (hn.trans_le (Nat.le_add_right _ _))).trans (hk3 n hn)
  refine ⟨hs4, fun r i hi => ?_⟩
  cases r with
  | boot =>
    obtain rfl : i = 0 := Nat.lt_one_iff.mp hi
    have hblock : blockAt (layOut args) 0 = filled tag0 args.boot :=
      (hkept 0 (by decide)).trans ((hk2 0 (by decide)).trans hboot)
    rw [Nat.zero_mul, sub_zero_of_length_le (l := Region.boot.bytes args) hacc.boot]
    exact dataOf_filled rfl hblock
  | header =>
    obtain rfl : i = 0 := Nat.lt_one_iff.mp hi
    have hblock := (hkept 1 (by decide)).trans hheader
    rw [Nat.zero_mul, sub_zero_of_length_le hhdr]
    exact dataOf_filled rfl hblock
  | image =>
    have hlt : firstImage + i < firstImage + args.imageBlocks := Nat.add_lt_add_left hi _
    exact dataOf_filled rfl ((hk4 _ hlt).trans (himage i hi))
  | fs => exact dataOf_filled rfl (hfs i hi)

theorem Stage.tagOf (hs : Stage nblocks k out) (hn : n < nblocks) :
    tagOf out n = tagFor n ∨ k ≤ n ∧ tagOf out n = noTag := by
  rcases Nat.lt_or_ge n k with hlt | hge
  · obtain ⟨data, hblock⟩ := hs.tagged n hlt
    have hlen : (tagFor n).length = tag := by
      rw [tagFor]
      split <;> rfl
    exact Or.inl (tagOf_filled hlen hblock)
  · refine Or.inr ⟨hge, ?_⟩
    rw [tagOf_eq, hs.empty n hge hn]
    rfl

theorem Region.disjoint (args : Args) {r r' : Region} (hne : r ≠ r') :
    Disjoint (r.blockSet args) (r'.blockSet args) := by
  have himage : args.fsBlocks = 0 ∨ args.firstFs = firstImage + args.imageBlocks := by
    by_cases hfs : args.fsBytes = []
    · refine Or.inl ?_
      rw [Args.fsBlocks, hfs]
      rfl
    · exact Or.inr (if_pos hfs)
  rw [Finset.disjoint_left]
  intro n hn hn'
  cases r <;> cases r' <;>
    simp only [blockSet, first, count, Finset.mem_Ico, firstImage, ne_eq, not_true,
      not_false_eq_true, reduceCtorEq] at hn hn' himage hne <;>
    omega

theorem length_le_blocks (data : List UInt8) : data.length ≤ blocks data * block :=
  length_le_chunks (by decide) data

theorem Region.length_le (hacc : Accepted args) (r : Region) :
    (r.bytes args).length ≤ r.count args * block := by
  cases r with
  | boot => exact (Nat.one_mul block).symm ▸ hacc.boot
  | header =>
    rw [length_header, count]
    decide
  | image => exact length_le_blocks args.image
  | fs => exact length_le_blocks args.fsBytes

theorem Region.inside (hacc : Accepted args) (r : Region) :
    r.first args + r.count args ≤ args.size.nblocks := by
  have hused : firstImage + args.imageBlocks + args.fsBlocks ≤ args.size.nblocks := hacc.used
  have hfs : args.firstFs ≤ firstImage + args.imageBlocks := by
    rw [Args.firstFs]
    split
    · exact le_rfl
    · exact Nat.zero_le _
  cases r <;> simp only [first, count, firstImage] at hused hfs ⊢ <;> omega

/-- **The tool lays its four regions side by side**, and every block has its tag. -/
theorem main_written (h : main args = .ok out) : Accepted args ∧ Written args out := by
  obtain ⟨hacc, rfl⟩ := main_eq_ok_iff.mp h
  obtain ⟨hstage, hpieces⟩ := layOut_stage hacc
  refine ⟨hacc, ⟨hstage.length, Region.inside hacc, fun _ _ => Region.disjoint args, fun r => ?_,
    fun n hn => ?_⟩⟩
  · rw [Region.padded, ← flatMap_fill_sub 0 (r.length_le hacc)]
    exact List.flatMap_congr fun i hi => hpieces r i (List.mem_range.mp hi)
  · rcases hstage.tagOf hn with htag | ⟨hge, htag⟩
    · exact htag
    · -- a block that nothing was written to is not block 0
      have hpos : n ≠ 0 := by
        have htwo : 2 ≤ args.used := (Nat.le_add_right _ _).trans (Nat.le_add_right _ _)
        omega
      rw [htag, tagFor, if_neg hpos]

/-! ## §7 The Header and Its Readers -/

theorem Written.dataOf_one (hw : Written args out) :
    dataOf out 1 = fill 0 block (Region.header.bytes args) := by
  have hdata := hw.data .header
  rw [Region.padded] at hdata
  simpa [area, Region.first, Region.count] using hdata

/-- The `i`-th long of a packed header. -/
theorem sub_packed (words : List ℕ) {i : ℕ} (hi : i < words.length) (n : ℕ) :
    sub (fill 0 n (words.flatMap (beBytes 4))) (4 * i) 4 = beBytes 4 words[i] := by
  have hlen := length_flatMap_beBytes 4 words
  have hhead : (words.drop i).flatMap (beBytes 4) =
      beBytes 4 words[i] ++ (words.drop (i + 1)).flatMap (beBytes 4) := by
    rw [List.drop_eq_getElem_cons hi, List.flatMap_cons]
  rw [sub, fill, List.drop_append_of_le_length (by omega), drop_flatMap_beBytes, hhead,
    List.append_assoc, List.take_left' (length_beBytes 4 _)]

/-- A long of the header, as any reader finds it in the data of block 1. -/
theorem Written.long (hacc : Accepted args) (hw : Written args out) {i : ℕ} (hi : i < 8) :
    (beVal (sub (dataOf out 1) (4 * i) 4) : ℤ) = args.header.getD i 0 := by
  have hlen : i < args.header.length := hi
  have hget : args.header.getD i 0 = args.header[i] := by
    rw [List.getD_eq_getElem?_getD, List.getElem?_eq_getElem hlen, Option.getD_some]
  have hbound := hacc.header _ (List.getElem_mem hlen)
  have hbytes : Region.header.bytes args = (args.header.map Int.toNat).flatMap (beBytes 4) := by
    rw [List.flatMap_map]
    rfl
  have hi' : i < (args.header.map Int.toNat).length := hi
  rw [hw.dataOf_one, hbytes, sub_packed _ hi', beVal_beBytes, List.getElem_map, hget]
  omega

theorem blocks_eq_zero_iff (data : List UInt8) : blocks data = 0 ↔ data = [] := by
  constructor
  · intro h
    have hlen := length_le_blocks data
    rw [h, Nat.zero_mul] at hlen
    exact List.length_eq_zero_iff.mp (Nat.le_zero.mp hlen)
  · rintro rfl
    rfl

/-- `find_fs` on the output. -/
theorem findFs_written (hacc : Accepted args) (hw : Written args out) :
    findFs out = if args.fsBytes = [] then .error .noFsArea else .ok (Region.fs.padded args) := by
  have hlen := hw.length
  have htwo : 2 * (tag + block) ≤ out.length := by
    rw [hlen]
    cases args.size <;> decide
  have hlong : ∀ i < 8, (beVal (sub (sub out (tag + block + tag) 32) (4 * i) 4) : ℤ) =
      args.header.getD i 0 := by
    intro i hi
    rw [← hw.long hacc hi, sub_of_sub (by omega), dataOf, sub_of_sub (by unfold block; omega), Nat.one_mul]
  have hmagic : beVal (sub (sub out (tag + block + tag) 32) (4 * 0) 4) = magic :=
    Int.ofNat_inj.mp (hlong 0 (by decide))
  have hfirst : beVal (sub (sub out (tag + block + tag) 32) (4 * 6) 4) = args.firstFs :=
    Int.ofNat_inj.mp (hlong 6 (by decide))
  have hcount : beVal (sub (sub out (tag + block + tag) 32) (4 * 7) 4) = args.fsBlocks :=
    Int.ofNat_inj.mp (hlong 7 (by decide))
  have hzero : args.fsBlocks = 0 ↔ args.fsBytes = [] := blocks_eq_zero_iff _
  rw [findFs, if_pos ⟨by rw [hlen, Nat.mul_mod_left], htwo⟩]
  simp only [hmagic, hfirst, hcount, hzero, if_true]
  split
  · rfl
  · exact congrArg Except.ok (hw.data .fs)

/-- A long that is no negative number. -/
theorem getLong_of_eq {b : List UInt8} {p : ℕ} {v : ℤ} (h : (beVal (sub b p 4) : ℤ) = v)
    (hv : v < 2 ^ 31) : getLong b p = v := by
  rw [getLong, BitVec.toInt_ofNat', h, Int.bmod_eq_of_le (by omega) (by omega)]

/-- The drive with an image on it: its spare table gives a size, and block 1 is read. -/
structure Serves (proBlock : ℕ → Option (List UInt8)) (out : List UInt8) : Prop where
  spare : ∃ b, proBlock spareTable = some b ∧ beVal (sub b 18 3) ≠ 0
  header : proBlock 1 = some (blockAt out 1)

/-- The partition of the disk task. -/
theorem winchesterTask_written (hacc : Accepted args) (hw : Written args out)
    {proBlock : ℕ → Option (List UInt8)} (hs : Serves proBlock out) :
    (winchesterTask proBlock).1 = ⟨Region.fs.first args, Region.fs.count args⟩ := by
  obtain ⟨spare, hspare, hsize⟩ := hs.spare
  have hdisk : args.size.nblocks < 2 ^ 31 := by
    cases args.size <;> decide
  have hfs := Region.inside hacc .fs
  simp only [Region.first, Region.count] at hfs
  have hlong : ∀ i < 8, args.header.getD i 0 < 2 ^ 31 →
      getLong ((blockAt out 1).drop tag) (4 * i) = args.header.getD i 0 := by
    intro i hi hlt
    rw [← dataOf_eq]
    exact getLong_of_eq (hw.long hacc hi) hlt
  have hmagic : getLong ((blockAt out 1).drop tag) 0 = magic :=
    hlong 0 (by decide) (by change (magic : ℤ) < _; decide)
  have hfirst : getLong ((blockAt out 1).drop tag) 24 = args.firstFs :=
    hlong 6 (by decide) (by change (args.firstFs : ℤ) < _; omega)
  have hcount : getLong ((blockAt out 1).drop tag) 28 = args.fsBlocks :=
    hlong 7 (by decide) (by change (args.fsBlocks : ℤ) < _; omega)
  have hsize' : ((beVal (sub spare 18 3) : ℕ) : ℤ) ≠ 0 := Int.natCast_ne_zero.mpr hsize
  simp only [winchesterTask, hspare, hs.header, hmagic, hfirst, hcount, ne_eq, hsize',
    not_false_eq_true, if_true]
  rfl

/-- The boot block stages the kernel image. -/
theorem lisaboot_written (hacc : Accepted args) (hw : Written args out) :
    lisaboot out = some (Region.image.padded args) := by
  have hmagic : beVal (sub (dataOf out 1) (4 * 0) 4) = magic :=
    Int.ofNat_inj.mp (hw.long hacc (by decide))
  have hversion : beVal (sub (dataOf out 1) (4 * 1) 4) = version :=
    Int.ofNat_inj.mp (hw.long hacc (by decide))
  have hfirst : beVal (sub (dataOf out 1) (4 * 2) 4) = firstImage :=
    Int.ofNat_inj.mp (hw.long hacc (by decide))
  have hcount : beVal (sub (dataOf out 1) (4 * 3) 4) = args.imageBlocks :=
    Int.ofNat_inj.mp (hw.long hacc (by decide))
  have hne : args.imageBlocks ≠ 0 := fun h => hacc.image ((blocks_eq_zero_iff _).mp h)
  simp only [lisaboot, hmagic, hversion, hfirst, hcount, ne_eq, not_true, hne, if_false]
  exact congrArg some (hw.data .image)

/-- **The round trip.**  What the tool writes for an input that it accepts: whole blocks, four
    regions side by side with the padded bytes of the input, and three readers that find them.
    Without a file system there is none to be found. -/
theorem mklisa_roundTrip {args : Args} {out : List UInt8} (h : main args = .ok out) :
    (out.length = 9728 * 532 ∨ out.length = 19456 * 532) ∧
    (∀ r r' : Region, r ≠ r' → Disjoint (r.blockSet args) (r'.blockSet args)) ∧
    (∀ r : Region, r.first args + r.count args ≤ args.size.nblocks) ∧
    (∀ r : Region, area out (r.first args) (r.count args) = r.padded args) ∧
    (args.fsBytes ≠ [] → findFs out = .ok (Region.fs.padded args)) ∧
    (args.fsBytes = [] → findFs out = .error .noFsArea) ∧
    (∀ proBlock, Serves proBlock out →
      (winchesterTask proBlock).1 = ⟨Region.fs.first args, Region.fs.count args⟩) ∧
    lisaboot out = some (Region.image.padded args) := by
  obtain ⟨hacc, hw⟩ := main_written h
  have hlen : out.length = 9728 * 532 ∨ out.length = 19456 * 532 := by
    rw [hw.length]
    cases args.size
    · exact Or.inl rfl
    · exact Or.inr rfl
  have hfind := findFs_written hacc hw
  exact ⟨hlen, hw.disjoint, hw.inside, hw.data, fun hfs => by rw [hfind, if_neg hfs],
    fun hfs => by rw [hfind, if_pos hfs], fun _ hs => winchesterTask_written hacc hw hs,
    lisaboot_written hacc hw⟩

/-- A kernel image of one byte, and a small file system or none. -/
def smallArgs (fs : Option (List UInt8)) : Args :=
  ⟨false, false, [], [1], fs, 0, none, .mb5⟩

theorem smallArgs_accepted : Accepted (smallArgs none) ∧ Accepted (smallArgs (some [7])) :=
  ⟨⟨by decide, by decide, by decide, by decide, by decide⟩,
    ⟨by decide, by decide, by decide, by decide, by decide⟩⟩

/-- A drive with an image on it, and a spare table that is all ones. -/
def driveWith (raw : List UInt8) (n : ℕ) : Option (List UInt8) :=
  if n = spareTable then some (List.replicate (tag + block) 1) else some (blockAt raw n)

/-- The file system of one byte is found where it was put, in block 3. -/
theorem mklisa_roundTrip_small : ∃ out, main (smallArgs (some [7])) = .ok out ∧
    findFs out = .ok (fill 0 512 [7]) ∧ area out 3 1 = fill 0 512 [7] ∧
    (winchesterTask (driveWith out)).1 = ⟨3, 1⟩ ∧ lisaboot out = some (fill 0 512 [1]) := by
  have hmain := main_eq_ok_iff.mpr ⟨smallArgs_accepted.2, rfl⟩
  obtain ⟨-, -, -, hdata, hfind, -, htask, hboot⟩ := mklisa_roundTrip hmain
  have hserves : Serves (driveWith (layOut (smallArgs (some [7])))) (layOut (smallArgs (some [7]))) :=
    ⟨⟨_, rfl, by decide⟩, rfl⟩
  exact ⟨_, hmain, hfind (by decide), hdata .fs, htask _ hserves, hboot⟩

/-- Without a file system `minixfs.py` refuses the image that the tool has written. -/
theorem mklisa_without_fs : ∃ out, main (smallArgs none) = .ok out ∧
    findFs out ≠ .ok (Region.fs.padded (smallArgs none)) := by
  have hmain := main_eq_ok_iff.mpr ⟨smallArgs_accepted.1, rfl⟩
  obtain ⟨hacc, hw⟩ := main_written hmain
  refine ⟨_, hmain, ?_⟩
  have hfind : findFs (layOut (smallArgs none)) = .error .noFsArea := findFs_written hacc hw
  rw [hfind]
  exact fun h => nomatch h

end LisaMinix.Tools.ProFile
