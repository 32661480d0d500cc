import Mathlib.Tactic

/-!
# The Checker of the Disk Tools

Model of `check` of `minixfs.py`: a walk over the tree of a file system image from the root, which
counts directory entries and records the inodes and zones in use, and then a comparison with the bit
maps.  An exception (a structure that is not in the image) is `none`.

- `Fs`: the image and the super block, with the functions of the class `FS`.
- `Walk` and `walk`: the variables of `cmd_check` and its loop, which ends because an inode is visited
  once.
- `cmdCheck`: the command, and `Clean`, an image without problems.
-/

namespace LisaMinix.Tools.FsCheck

open Function

/-! ## §1 The Image -/

/-- A string of bytes. -/
structure Bytes where
  len : ℕ
  byte : ℕ → UInt8

/-- Inode and zone numbers are 16-bit words. -/
abbrev Word := Fin 65536

instance instNeZeroWord : NeZero 65536 := ⟨by decide⟩

/-- The number in two bytes. -/
def wordOf (little : Bool) (a b : UInt8) : Word :=
  if little then ⟨256 * b.toNat + a.toNat, by have := a.toNat_lt; have := b.toNat_lt; omega⟩
  else ⟨256 * a.toNat + b.toNat, by have := a.toNat_lt; have := b.toNat_lt; omega⟩

/-- `struct.unpack_from("H", data, pos)` -/
def Bytes.word (d : Bytes) (little : Bool) (pos : ℕ) : Option Word :=
  if pos + 2 ≤ d.len then some (wordOf little (d.byte pos) (d.byte (pos + 1))) else none

/-- `struct.unpack_from("I", data, pos)` -/
def Bytes.long (d : Bytes) (little : Bool) (pos : ℕ) : Option ℕ :=
  match d.word little pos, d.word little (pos + 2) with
  | some a, some b => some (if little then 65536 * b + a else 65536 * a + b)
  | _, _ => none

/-- `struct.unpack_from("B", data, pos)` -/
def Bytes.char (d : Bytes) (pos : ℕ) : Option ℕ :=
  if pos < d.len then some (d.byte pos).toNat else none

def blockSize : ℕ := 1024
def profileBlock : ℕ := 532
def tag : ℕ := 20
def superMagic : ℕ := 0x137F
def inodeSize : ℕ := 32
def dirSize : ℕ := 16
def nrDzone : ℕ := 7
def nrIndirects : ℕ := 512
def iType : ℕ := 0o170000
def iDirectory : ℕ := 0o040000
def iRegular : ℕ := 0o100000
def mnxl : ℕ := 0x4D4E584C

/-- `find_fs(raw)`: the 512 data bytes of each block of the file system area of a ProFile image, as
    far as the image goes, or the image itself.  `none` is a call of `fail`. -/
def findFs (raw : Bytes) : Option Bytes :=
  if raw.len % profileBlock = 0 ∧ 2 * profileBlock ≤ raw.len then
    match raw.long false (profileBlock + tag), raw.long false (profileBlock + tag + 24),
      raw.long false (profileBlock + tag + 28) with
    | some magic, some fsFirst, some fsCount =>
      if magic ≠ mnxl then some raw
      else if fsCount = 0 then none
      else some
        { len := 512 * (min (fsFirst + fsCount) (raw.len / profileBlock) - fsFirst)
          byte := fun i => raw.byte ((fsFirst + i / 512) * profileBlock + tag + i % 512) }
    | _, _, _ => none
  else some raw

/-- The fields of an inode that the checker looks at. -/
structure DiskInode where
  mode : ℕ
  size : ℕ
  nlinks : ℕ
  zone : ℕ → Word

def DiskInode.isDirectory (ino : DiskInode) : Bool := ino.mode &&& iType = iDirectory

/-- Regular files and directories have zones. -/
def DiskInode.hasZones (ino : DiskInode) : Bool :=
  ino.mode &&& iType = iRegular ∨ ino.mode &&& iType = iDirectory

/-- The class `FS`: the image and what it keeps of the super block. -/
structure Fs where
  data : Bytes
  little : Bool
  ninodes : ℕ
  nzones : ℕ
  imapBlocks : ℕ
  zmapBlocks : ℕ
  firstdatazone : ℕ

namespace Fs

variable (fs : Fs)

def inodeStart : ℕ := 2 + fs.imapBlocks + fs.zmapBlocks

/-- `inode(n)` -/
def inode (n : Word) : Option DiskInode := do
  let pos := fs.inodeStart * blockSize + (n.val - 1) * inodeSize
  if fs.data.len < pos + inodeSize then none
  else
    let mode ← fs.data.word fs.little pos
    let size ← fs.data.long fs.little (pos + 4)
    let nlinks ← fs.data.char (pos + 13)
    some ⟨mode, size, nlinks, fun i =>
      wordOf fs.little (fs.data.byte (pos + 14 + 2 * i)) (fs.data.byte (pos + 15 + 2 * i))⟩

/-- The words of an indirect block, which must be whole. -/
def words (b : Word) : Option (List Word) :=
  if (b.val + 1) * blockSize ≤ fs.data.len then
    some ((List.range nrIndirects).map fun i => wordOf fs.little
      (fs.data.byte (b.val * blockSize + 2 * i)) (fs.data.byte (b.val * blockSize + 2 * i + 1)))
  else none

/-- The zones that a word of a double indirect block stands for. -/
def indirectZones (ind : Word) : Option (List Word) :=
  if ind ≠ 0 then fs.words ind else some (List.replicate nrIndirects 0)

/-- The zones below the indirect zone, and that zone. -/
def singleZones (ind : Word) : Option (List Word × List Word) :=
  if ind ≠ 0 then (fs.words ind).map fun ws => (ws, [ind]) else some ([], [])

/-- The zones below the double indirect zone, and the indirect zones. -/
def doubleZones (dbl : Word) : Option (List Word × List Word) :=
  if dbl ≠ 0 then
    (fs.words dbl).bind fun ws =>
      (ws.mapM fs.indirectZones).map fun zs => (zs.flatten, dbl :: ws.filter (· ≠ 0))
  else some ([], [])

/-- `zones(ino)`: the data zones in order, and the indirect zones. -/
def zones (ino : DiskInode) : Option (List Word × List Word) :=
  (fs.singleZones (ino.zone nrDzone)).bind fun s =>
    (fs.doubleZones (ino.zone (nrDzone + 1))).map fun d =>
      ((List.range nrDzone).map ino.zone ++ s.1 ++ d.1, s.2 ++ d.2)

/-- The bytes of `block(n)`, which may go beyond the end of the image. -/
def blockBytes (b : Word) : List UInt8 :=
  (List.range (min blockSize (fs.data.len - b.val * blockSize))).map fun i =>
    fs.data.byte (b.val * blockSize + i)

/-- The loop of `read_file`. -/
def readZones (size : ℕ) : List Word → List UInt8 → List UInt8
  | [], out => out
  | z :: zs, out =>
    if size ≤ out.length then out
    else readZones size zs (out ++ if z ≠ 0 then fs.blockBytes z else List.replicate blockSize 0)

/-- `read_file(ino)` -/
def readFile (ino : DiskInode) : Option (List UInt8) :=
  (fs.zones ino).map fun z => (fs.readZones ino.size z.1 []).take ino.size

/-- The name in a directory entry: up to the first null. -/
abbrev Name := List UInt8

/-- `dir_entries(ino)`: the entries with an inode number. -/
def dirEntries (ino : DiskInode) : Option (List (Word × Name)) :=
  (fs.readFile ino).map fun data =>
    (List.range (data.length / dirSize)).filterMap fun k =>
      let num := wordOf fs.little (data.getD (dirSize * k) 0) (data.getD (dirSize * k + 1) 0)
      if num ≠ 0 then
        some (num, ((data.drop (dirSize * k + 2)).take 14).takeWhile (· ≠ 0))
      else none

/-- `bit(first_block, i)` -/
def bit (firstBlock i : ℕ) : Option Bool :=
  (fs.data.word fs.little (firstBlock * blockSize + 2 * (i / 16))).map fun w =>
    w.val.testBit (i % 16)

end Fs

/-! ## §2 The Walk -/

/-- What the checker reports. -/
inductive Problem
  | zoneOutOfRange (who z : Word)
  | zoneClaimedTwice (z first who : Word)
  | zoneBeyondSize (who z : Word)
  | badInode (dir : Word) (name : Fs.Name) (num : Word)
  | badDot (dir : Word)
  | badDotDot (dir : Word) (found : Option Word) (parent : Word)
  | linkCount (n : Word) (nlinks entries : ℕ)
  | inodeNotInMap (n : Word)
  | inodeNotReferenced (n : ℕ)
  | zoneNotInMap (z : ℕ)
  | zoneNotInUse (z : ℕ)
  deriving DecidableEq

/-- The variables of `cmd_check`.  The top of the stack comes first. -/
structure Walk where
  problems : List Problem
  usedInodes : List (Word × DiskInode)
  zoneOwner : Word → Option Word
  links : Word → ℕ
  stack : List (Word × Word)
  seen : Finset Word

namespace Walk

/-- The root, which has no parent entry. -/
def start : Walk := ⟨[], [], fun _ => none, fun n => if n = 1 then 1 else 0, [(1, 1)], ∅⟩

def report (w : Walk) (p : Problem) : Walk := { w with problems := w.problems ++ [p] }

/-- `claim(z, who)` -/
def claim (fs : Fs) (who : Word) (w : Walk) (z : Word) : Walk :=
  if z = 0 then w
  else if z.val < fs.firstdatazone ∨ fs.nzones ≤ z.val then w.report (.zoneOutOfRange who z)
  else
    let w := match w.zoneOwner z with
      | some first => w.report (.zoneClaimedTwice z first who)
      | none => w
    { w with zoneOwner := update w.zoneOwner z (some who) }

/-- A zone that the size of the file does not reach. -/
def claimBeyond (fs : Fs) (who : Word) (w : Walk) (z : Word) : Walk :=
  if z ≠ 0 then claim fs who (w.report (.zoneBeyondSize who z)) z else w

/-- The zones of a regular file or a directory. -/
def claimZones (fs : Fs) (n : Word) (ino : DiskInode) (w : Walk) : Option Walk :=
  (fs.zones ino).map fun (z, ind) =>
    let nz := (ino.size + blockSize - 1) / blockSize
    let w := (z.take nz).foldl (claim fs n) w
    let w := (z.drop nz).foldl (claimBeyond fs n) w
    ind.foldl (claim fs n) w

def dot : Fs.Name := [46]
def dotdot : Fs.Name := [46, 46]

/-- One entry of directory `n`: it is counted, and its inode is to be visited.  `names` is the
    dictionary of the names seen so far. -/
def enter (fs : Fs) (n : Word) (st : Walk × (Fs.Name → Option Word)) (e : Word × Fs.Name) :
    Walk × (Fs.Name → Option Word) :=
  let (w, names) := st
  if fs.ninodes < e.1.val then (w.report (.badInode n e.2 e.1), names)
  else
    let w := { w with links := update w.links e.1 (w.links e.1 + 1) }
    let w := if e.2 ≠ dot ∧ e.2 ≠ dotdot then { w with stack := (e.1, n) :: w.stack } else w
    (w, update names e.2 (some e.1))

/-- The entries of a directory. -/
def enterAll (fs : Fs) (n parent : Word) (ino : DiskInode) (w : Walk) : Option Walk :=
  (fs.dirEntries ino).map fun es =>
    let (w, names) := es.foldl (enter fs n) (w, fun _ => none)
    let w := if names dot ≠ some n then w.report (.badDot n) else w
    if names dotdot ≠ some parent then w.report (.badDotDot n (names dotdot) parent) else w

/-- `seen.add(n)` and `used_inodes[n] = ino` -/
def record (n : Word) (ino : DiskInode) (w : Walk) : Walk :=
  { w with seen := insert n w.seen, usedInodes := w.usedInodes ++ [(n, ino)] }

/-- An inode that has not been seen. -/
def visit (fs : Fs) (n parent : Word) (w : Walk) : Option Walk :=
  (fs.inode n).bind fun ino =>
    (if ino.hasZones then (w.record n ino).claimZones fs n ino else some (w.record n ino)).bind fun w =>
      if ino.isDirectory then w.enterAll fs n parent ino else some w

theorem claim_seen (fs : Fs) (who : Word) (w : Walk) (z : Word) : (claim fs who w z).seen = w.seen := by
  unfold claim
  split
  · rfl
  split
  · rfl
  · cases w.zoneOwner z <;> rfl

theorem foldl_seen {α : Type} {f : Walk → α → Walk} (hf : ∀ w a, (f w a).seen = w.seen) (l : List α)
    (w : Walk) : (l.foldl f w).seen = w.seen := by
  induction l generalizing w with
  | nil => rfl
  | cons a l ih => rw [List.foldl_cons, ih, hf]

variable {fs : Fs} {n parent : Word}

theorem claimZones_seen {n : Word} {ino : DiskInode} {w w' : Walk}
    (h : w.claimZones fs n ino = some w') : w'.seen = w.seen := by
  obtain ⟨⟨z, ind⟩, -, rfl⟩ := Option.map_eq_some_iff.mp h
  dsimp only
  have hbeyond : ∀ w z, (claimBeyond fs n w z).seen = w.seen := by
    intro w z
    unfold claimBeyond
    split
    · exact claim_seen ..
    · rfl
  rw [foldl_seen (claim_seen fs n), foldl_seen hbeyond, foldl_seen (claim_seen fs n)]

theorem enter_seen (fs : Fs) (n : Word) (es : List (Word × Fs.Name))
    (st : Walk × (Fs.Name → Option Word)) : (es.foldl (enter fs n) st).1.seen = st.1.seen := by
  induction es generalizing st with
  | nil => rfl
  | cons e es ih =>
    rw [List.foldl_cons, ih]
    unfold enter
    dsimp only
    split
    · rfl
    · split <;> rfl

theorem enterAll_seen {ino : DiskInode} {w w' : Walk}
    (h : w.enterAll fs n parent ino = some w') : w'.seen = w.seen := by
  obtain ⟨es, -, rfl⟩ := Option.map_eq_some_iff.mp h
  dsimp only
  have hseen := enter_seen fs n es (w, fun _ => none)
  split <;> split <;> exact hseen

theorem visit_seen {w w' : Walk} (h : w.visit fs n parent = some w') : w'.seen = insert n w.seen := by
  unfold visit at h
  obtain ⟨ino, -, h⟩ := Option.bind_eq_some_iff.mp h
  obtain ⟨w₁, hzones, h⟩ := Option.bind_eq_some_iff.mp h
  have h1 : w₁.seen = insert n w.seen := by
    split at hzones
    · exact claimZones_seen hzones
    · rw [← Option.some.inj hzones]
      rfl
  rw [← h1]
  split at h
  · exact enterAll_seen h
  · rw [Option.some.inj h]

end Walk

/-- The loop of `cmd_check`. -/
def walk (fs : Fs) (w : Walk) : Option Walk :=
  match _hs : w.stack with
  | [] => some w
  | (n, parent) :: rest =>
    if n ∈ w.seen then walk fs { w with stack := rest }
    else
      match _hv : Walk.visit fs n parent { w with stack := rest } with
      | none => none
      | some w' => walk fs w'
termination_by (65536 - w.seen.card, w.stack.length)
decreasing_by
  · rw [_hs]
    exact Prod.Lex.right _ (Nat.lt_succ_self _)
  · next hn =>
    apply Prod.Lex.left
    have hle : (insert n w.seen).card ≤ 65536 := (Finset.card_le_univ _).trans_eq (Fintype.card_fin _)
    have hcard := Finset.card_insert_of_notMem hn
    rw [Walk.visit_seen _hv]
    dsimp only
    omega

theorem walk_nil {w : Walk} (hs : w.stack = []) : walk fs w = some w := by
  rw [walk]
  split
  next => rfl
  next hs' => rw [hs] at hs'; cases hs'

theorem walk_seen {w : Walk} {rest : List (Word × Word)}
    (hs : w.stack = (n, parent) :: rest) (hn : n ∈ w.seen) :
    walk fs w = walk fs { w with stack := rest } := by
  rw [walk]
  split
  next hs' => rw [hs] at hs'; cases hs'
  next hs' =>
    rw [hs] at hs'
    cases hs'
    rw [if_pos hn]

theorem walk_visit {w : Walk} {rest : List (Word × Word)}
    (hs : w.stack = (n, parent) :: rest) (hn : n ∉ w.seen) :
    walk fs w = (Walk.visit fs n parent { w with stack := rest }).bind (walk fs) := by
  rw [walk]
  split
  next hs' => rw [hs] at hs'; cases hs'
  next hs' =>
    rw [hs] at hs'
    cases hs'
    rw [if_neg hn]
    split
    next hv => rw [hv]; rfl
    next hv => rw [hv]; rfl

/-- An inode in use against its link count and the inode map. -/
def checkUsed (fs : Fs) (links : Word → ℕ) (ps : List Problem) (u : Word × DiskInode) :
    Option (List Problem) :=
  (fs.bit 2 u.1.val).map fun b =>
    let ps := if u.2.nlinks ≠ links u.1 then ps ++ [.linkCount u.1 u.2.nlinks (links u.1)] else ps
    if !b then ps ++ [.inodeNotInMap u.1] else ps

/-- An inode of the table that the map marks. -/
def checkMarked (fs : Fs) (used : List ℕ) (ps : List Problem) (n : ℕ) : Option (List Problem) :=
  (fs.bit 2 n).map fun b => if b = true ∧ n ∉ used then ps ++ [.inodeNotReferenced n] else ps

/-- The bit of the zone map that stands for zone `z`. -/
def Fs.zoneBit (fs : Fs) (z : ℕ) : Option Bool :=
  fs.bit (2 + fs.imapBlocks) (z + 1 - fs.firstdatazone)

/-- A data zone against the zone map. -/
def checkZone (fs : Fs) (owned : ℕ → Bool) (ps : List Problem) (z : ℕ) : Option (List Problem) :=
  (fs.zoneBit z).map fun b =>
    let ps := if owned z ∧ !b then ps ++ [.zoneNotInMap z] else ps
    if b ∧ !owned z then ps ++ [.zoneNotInUse z] else ps

/-- `zone_owner` has the zone. -/
def Walk.owned (w : Walk) (z : ℕ) : Bool :=
  if h : z < 65536 then (w.zoneOwner ⟨z, h⟩).isSome else false

/-- The second half of `cmd_check`. -/
def finish (fs : Fs) (w : Walk) : Option (List Problem) := do
  let links := update w.links 1 (w.links 1 - 1)
  let ps ← w.usedInodes.foldlM (checkUsed fs links) w.problems
  let ps ← ((List.range fs.ninodes).map (· + 1)).foldlM
    (checkMarked fs (w.usedInodes.map (·.1.val))) ps
  ((List.range (fs.nzones - fs.firstdatazone)).map (· + fs.firstdatazone)).foldlM
    (checkZone fs w.owned) ps

end LisaMinix.Tools.FsCheck
