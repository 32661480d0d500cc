import Mathlib.Data.Int.Bitwise
import Mathlib.Tactic

/-!
# Making a File System

Model of `mkfs.py`.  The image is taken by its parts: the bits that have been set in the two maps, the
inode table, and the blocks.  `none` is a call of `pexit` or an exception.

- `insertBit`, `allocInode`, `allocZone`, `addZone`, `enterDir`: the operations on the image.
- `Proto`: a prototype, from its first line on; `eatDir` goes through it.
- `mkfs`: the program.
-/

namespace LisaMinix.Tools.Mkfs

open Function

/-! ## §1 The Image -/

def blockSize : ℕ := 1024
def inodesPerBlock : ℕ := 32
def nrDzoneNum : ℕ := 7
def nrIndirects : ℕ := 512
def dirEntrySize : ℕ := 16
def nameMax : ℕ := 14
def bitsPerBlock : ℕ := 8192
def inodeMap : ℕ := 2

def iRegular : ℕ := 0o100000
def iBlockSpecial : ℕ := 0o060000
def iDirectory : ℕ := 0o040000
def iCharSpecial : ℕ := 0o020000
def iSetUidBit : ℕ := 0o004000
def iSetGidBit : ℕ := 0o002000

abbrev Block := ℕ → UInt8

/-- `struct.unpack_from("H", blk, off)` -/
def getWord (little : Bool) (blk : Block) (off : ℕ) : ℕ :=
  if little then (blk off).toNat + 256 * (blk (off + 1)).toNat
  else 256 * (blk off).toNat + (blk (off + 1)).toNat

/-- `struct.pack_into("H", blk, off, v)` -/
def putWord (little : Bool) (blk : Block) (off v : ℕ) : Block := fun i =>
  if i = off then UInt8.ofNat (if little then v % 256 else v / 256)
  else if i = off + 1 then UInt8.ofNat (if little then v / 256 else v % 256)
  else blk i

abbrev Name := List UInt8

/-- `struct.pack_into("H14s", blk, off, child, raw)` -/
def putEntry (little : Bool) (blk : Block) (off child : ℕ) (raw : Name) : Block := fun i =>
  if off + 2 ≤ i ∧ i < off + dirEntrySize then raw.getD (i - off - 2) 0
  else putWord little blk off child i

/-- `struct.pack` of an unsigned short, which fails for a number that does not fit. -/
def packH (v : ℤ) : Option ℕ := if 0 ≤ v ∧ v < 65536 then some v.toNat else none

/-- The fields of an inode but for its time. -/
structure Inode where
  mode : ℕ
  uid : ℤ
  gid : ℤ
  size : ℤ
  nlinks : ℕ
  zone : ℕ → ℕ

/-- `FileSystem`; `bits` are the bits that have been set, as map block and bit of it. -/
structure FileSystem where
  little : Bool
  nrblocks : ℕ
  nrinodes : ℕ
  firstdatazone : ℕ
  zoneMap : ℕ
  nextZone : ℕ
  nextInode : ℕ
  bits : List (ℕ × ℕ)
  inode : ℕ → Inode
  block : ℕ → Block

/-- Mode, uid and gid as `put_inode` can pack them: two words and a byte. -/
def HeadPacks (mode : ℕ) (uid gid : ℤ) : Prop :=
  mode < 65536 ∧ (0 ≤ uid ∧ uid < 65536) ∧ 0 ≤ gid ∧ gid < 256

instance (mode : ℕ) (uid gid : ℤ) : Decidable (HeadPacks mode uid gid) :=
  inferInstanceAs (Decidable (_ ∧ _))

/-- What `put_inode` can pack; of the size and the time it packs the lower 32 bits. -/
def Inode.Packs (ino : Inode) : Prop :=
  ino.nlinks < 256 ∧ (∀ i < 9, ino.zone i < 65536) ∧ HeadPacks ino.mode ino.uid ino.gid

instance (ino : Inode) : Decidable ino.Packs := inferInstanceAs (Decidable (_ ∧ _))

namespace FileSystem

/-- `insert_bit(block, bit, count)`: the words are looked for in one block of the image. -/
def insertBit (s : FileSystem) (block bit count : ℕ) : Option FileSystem :=
  if count = 0 ∨ block < s.nrblocks ∧ bit + count ≤ bitsPerBlock then
    some { s with bits := s.bits ++ (List.range' bit count).map fun i => (block, i) }
  else none

/-- `put_inode(n, ino)` -/
def putInode (s : FileSystem) (n : ℕ) (ino : Inode) : Option FileSystem :=
  if ino.Packs then
    some { s with inode := update s.inode n { ino with size := ino.size % 2 ^ 32 } }
  else none

def putBlock (s : FileSystem) (z : ℕ) (blk : Block) : FileSystem :=
  { s with block := update s.block z blk }

/-! ## §2 Allocation -/

def bitmapsize (nrBits : ℕ) : ℕ := (nrBits + bitsPerBlock - 1) / bitsPerBlock

/-- `initblks` of `super` -/
def initBlocks (blocks inodes : ℕ) : ℕ :=
  bitmapsize (1 + inodes) + bitmapsize blocks + 2 + (inodes + inodesPerBlock - 1) / inodesPerBlock

/-- `bit_map_len % BITS_PER_BLOCK or BITS_PER_BLOCK` -/
def residual (bitMapLen : ℕ) : ℕ :=
  if bitMapLen % bitsPerBlock = 0 then bitsPerBlock else bitMapLen % bitsPerBlock

/-- The last used block of a map is filled up. -/
def padMap (s : FileSystem) (map bitMapLen : ℕ) : Option FileSystem :=
  s.insertBit (map + bitmapsize bitMapLen - 1) (residual bitMapLen) (bitsPerBlock - residual bitMapLen)

/-- `super()`; the inode table and the blocks are zero. -/
def super (little : Bool) (blocks inodes : ℕ) : Option FileSystem :=
  let initblks := initBlocks blocks inodes
  if 65535 < blocks ∨ blocks ≤ initblks ∨ 65535 < inodes then none
  else
    let zoneMap := inodeMap + bitmapsize (1 + inodes)
    let s : FileSystem :=
      { little, nrblocks := blocks, nrinodes := inodes, firstdatazone := initblks, zoneMap,
        nextZone := initblks, nextInode := 1, bits := [], inode := fun _ => ⟨0, 0, 0, 0, 0, fun _ => 0⟩,
        block := fun _ _ => 0 }
    (s.padMap inodeMap (inodes + 1)).bind fun s =>
    (s.padMap zoneMap (blocks - initblks + 1)).bind fun s =>
    (if bitmapsize (blocks - initblks + 1) ≠ bitmapsize blocks then
      s.insertBit (zoneMap + bitmapsize blocks - 1) 0 bitsPerBlock else some s).bind fun s =>
    (s.insertBit zoneMap 0 1).bind fun s => s.insertBit inodeMap 0 1

/-- `alloc_inode(mode, uid, gid)` -/
def allocInode (s : FileSystem) (mode : ℕ) (uid gid : ℤ) : Option (ℕ × FileSystem) :=
  let num := s.nextInode
  if s.nrinodes ≤ num then none
  else
    ({ s with nextInode := num + 1 }.putInode num ⟨mode, uid, gid, 0, 0, fun _ => 0⟩).bind fun s =>
      (s.insertBit inodeMap num 1).map fun s => (num, s)

/-- `alloc_zone()` -/
def allocZone (s : FileSystem) : Option (ℕ × FileSystem) :=
  let z := s.nextZone
  if s.nrblocks < z + 1 then none
  else
    ({ s with nextZone := z + 1 }.insertBit s.zoneMap (z - (s.firstdatazone - 1)) 1).map fun s => (z, s)

/-- The indirect zone of a file, with a new one if there is none. -/
def indirectZone (s : FileSystem) (ino : Inode) : Option (Inode × FileSystem) :=
  if ino.zone nrDzoneNum = 0 then
    (s.allocZone).map fun (ind, s) =>
      ({ ino with zone := update ino.zone nrDzoneNum ind }, s)
  else some (ino, s)

/-- `add_zone(n, z, nbytes, mtime)`; `z` is packed with the inode or into the indirect zone. -/
def addZone (s : FileSystem) (n : ℕ) (z nbytes : ℤ) : Option FileSystem :=
  let ino := { s.inode n with size := (s.inode n).size + nbytes }
  match (List.range nrDzoneNum).find? fun i => ino.zone i = 0 with
  | some i => (packH z).bind fun z => s.putInode n { ino with zone := update ino.zone i z }
  | none =>
    (s.indirectZone ino).bind fun (ino, s) =>
      (s.putInode n ino).bind fun s =>
        let blk := s.block (ino.zone nrDzoneNum)
        match (List.range nrIndirects).find? fun i => getWord s.little blk (2 * i) = 0 with
        | some i =>
          (packH z).map fun z => s.putBlock (ino.zone nrDzoneNum) (putWord s.little blk (2 * i) z)
        | none => none

def incrLink (s : FileSystem) (n : ℕ) : Option FileSystem :=
  s.putInode n { s.inode n with nlinks := (s.inode n).nlinks + 1 }

def incrSize (s : FileSystem) (n count : ℕ) : Option FileSystem :=
  s.putInode n { s.inode n with size := (s.inode n).size + count }

/-! ## §3 Directories and Files -/

/-- The zone `k` of a directory, with a new one if there is none. -/
def dirZone (s : FileSystem) (parent k : ℕ) (ino : Inode) : Option (Inode × FileSystem) :=
  if ino.zone k = 0 then
    (s.allocZone).bind fun (z, s) =>
      let ino := { ino with zone := update ino.zone k z }
      (s.putInode parent ino).map fun s => (ino, s)
  else some (ino, s)

/-- The loop of `enter_dir` over the zones of the directory. -/
def enterZones (parent : ℕ) (raw : Name) (child : ℕ) : List ℕ → Inode → FileSystem → Option FileSystem
  | [], _, _ => none
  | k :: ks, ino, s =>
    (s.dirZone parent k ino).bind fun (ino, s) =>
      let blk := s.block (ino.zone k)
      match (List.range (blockSize / dirEntrySize)).find? fun j =>
          getWord s.little blk (dirEntrySize * j) = 0 with
      | some j => some (s.putBlock (ino.zone k) (putEntry s.little blk (dirEntrySize * j) child raw))
      | none => enterZones parent raw child ks ino s

/-- `enter_dir(parent, name, child)` -/
def enterDir (s : FileSystem) (parent : ℕ) (raw : Name) (child : ℕ) : Option FileSystem :=
  if nameMax < raw.length then none
  else enterZones parent raw child (List.range nrDzoneNum) (s.inode parent) s

def dot : Name := [46]
def dotdot : Name := [46, 46]

/-- The first zone of a directory, with `.` and `..` in it. -/
def dotEntries (s : FileSystem) (n parent : ℕ) : Option FileSystem :=
  (s.allocZone).bind fun (z, s) =>
    (s.addZone n z 32).bind fun s =>
      (s.enterDir n dot n).bind fun s => s.enterDir n dotdot parent

/-- A new directory: `rootdir`, and part of `eat_dir`. -/
def newDir (s : FileSystem) (n parent : ℕ) : Option FileSystem :=
  (s.dotEntries n parent).bind fun s => (s.incrLink parent).bind fun s => s.incrLink n

/-- One block of `eat_file`. -/
def eatChunk (n : ℕ) (data : List UInt8) (s : FileSystem) (k : ℕ) : Option FileSystem :=
  let chunk := (data.drop (blockSize * k)).take blockSize
  (s.allocZone).bind fun (z, s) =>
    (s.putBlock z fun i => if i < chunk.length then chunk.getD i 0 else s.block z i).addZone n z
      chunk.length

def fileBlocks (data : List UInt8) : ℕ := (data.length + blockSize - 1) / blockSize

/-- `eat_file(inode, path)`; `data` is what the host file holds. -/
def eatFile (s : FileSystem) (n : ℕ) (data : List UInt8) : Option FileSystem :=
  (List.range (fileBlocks data)).foldlM (eatChunk n data) s

end FileSystem

/-! ## §4 Prototypes -/

/-- Mode, uid and gid of a line; the permissions are three octal digits, uid and gid any integers. -/
structure Attr where
  perm : Fin 512
  setUid : Bool
  setGid : Bool
  uid : ℤ
  gid : ℤ

/-- `mode_con(p)` -/
def modeCon (kind : ℕ) (a : Attr) : ℕ :=
  kind + a.perm + (if a.setUid then iSetUidBit else 0) + (if a.setGid then iSetGidBit else 0)

/-- `(maj << 8) | minor` -/
def deviceNumber (major minor : ℤ) : ℤ := Int.lor (major * 256) minor

/-- The lines of a prototype up to the `$` that belongs to them. -/
inductive Proto
  | done
  | dir (name : Name) (attr : Attr) (sub rest : Proto)
  | special (name : Name) (attr : Attr) (isBlock : Bool) (major minor blocks : ℤ)
      (rest : Proto)
  | file (name : Name) (attr : Attr) (data : List UInt8) (rest : Proto)

namespace FileSystem

/-- The lines of `eat_dir` that all kinds of entries have in common. -/
def newEntry (s : FileSystem) (parent : ℕ) (name : Name) (kind : ℕ) (a : Attr) :
    Option (ℕ × FileSystem) :=
  (s.allocInode (modeCon kind a) a.uid a.gid).bind fun (n, s) =>
    (s.enterDir parent name n).bind fun s =>
      (s.incrSize parent dirEntrySize).bind fun s =>
        (s.incrLink n).map fun s => (n, s)

/-- `eat_dir(parent, lines)` -/
def eatDir (parent : ℕ) : Proto → FileSystem → Option FileSystem
  | .done, s => some s
  | .dir name a sub rest, s =>
    (s.newEntry parent name iDirectory a).bind fun (n, s) =>
      (s.newDir n parent).bind fun s => (eatDir n sub s).bind (eatDir parent rest)
  | .special name a isBlock major minor blocks rest, s =>
    (s.newEntry parent name (if isBlock then iBlockSpecial else iCharSpecial) a).bind fun (n, s) =>
      (s.addZone n (deviceNumber major minor) (blocks * blockSize)).bind (eatDir parent rest)
  | .file name a data rest, s =>
    (s.newEntry parent name iRegular a).bind fun (n, s) =>
      (s.eatFile n data).bind (eatDir parent rest)

/-- The program: the counts of line 2, the root of line 3, and the lines after it. -/
def mkfs (little : Bool) (blocks inodes : ℕ) (root : Attr) (p : Proto) : Option FileSystem :=
  (super little blocks inodes).bind fun s =>
    (s.allocInode (modeCon iDirectory root) root.uid root.gid).bind fun (n, s) =>
      (s.newDir n n).bind (eatDir n p)

end FileSystem

end LisaMinix.Tools.Mkfs
