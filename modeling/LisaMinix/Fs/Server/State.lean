import LisaMinix.Library.Programs

/-!
# The State of the File Server

The tables of `src/fs` as the server keeps them: the buffer cache with the disks behind it, the
super block table, the inode table, the filp and process tables and the global variables.  A
function of the source is a program over this state that returns or panics.

- `Cache` and `CacheM`: the buffers, and what changes nothing else.
- `FsState` and `FsM`: the whole server; `liftC` runs a program of the cache in it.

What is outside of the server answers from streams that are part of the state and about which
nothing is assumed: the disk tasks, the tasks of character devices, the kernel's copies between
address spaces and the clock.  The LRU chain and the hash chains are lists, front first.
-/

namespace LisaMinix.Fs.Server

open LisaMinix.Library Function

/-! ## §1 Words of a Block -/

/-- The bytes of a block, or of any other stretch of memory. -/
abbrev Block := ℕ → UInt8

def blockSize : ℕ := 1024

/-- A 16-bit unsigned number. -/
def toShort (n : ℕ) : ℕ := n % 65536

/-- A 32-bit `long`. -/
def toLong (n : ℤ) : ℤ :=
  if n % 2 ^ 32 < 2 ^ 31 then n % 2 ^ 32 else n % 2 ^ 32 - 2 ^ 32

theorem toLong_eq {n : ℤ} (h : 0 ≤ n) (h' : n < 2 ^ 31) : toLong n = n := by
  unfold toLong
  omega

theorem toLong_add (n k : ℤ) : toLong (toLong n + k) = toLong (n + k) := by
  unfold toLong
  split <;> omega

def getByte (b : Block) (p : ℕ) : ℕ := (b p).toNat
def getWord (b : Block) (p : ℕ) : ℕ := 256 * getByte b p + getByte b (p + 1)
def getLong (b : Block) (p : ℕ) : ℤ := toLong (65536 * getWord b p + getWord b (p + 2) : ℕ)

def putByte (b : Block) (p v : ℕ) : Block := update b p (UInt8.ofNat v)
def putWord (b : Block) (p v : ℕ) : Block := putByte (putByte b p (v / 256)) (p + 1) v
def putLong (b : Block) (p : ℕ) (v : ℤ) : Block :=
  let n := (v % 2 ^ 32).toNat
  putWord (putWord b p (n / 65536)) (p + 2) n

/-- The bytes from `q` on, copied to position `p` and following. -/
def copyBytes (dest : Block) (p : ℕ) (src : Block) (q bytes : ℕ) : Block :=
  fun i => if p ≤ i ∧ i < p + bytes then src (q + (i - p)) else dest i

def zeroBytes : Block := fun _ => 0

/-! ## §2 Panics -/

/-- How a request can fail to return. -/
inductive Panic where
  | allBuffersInUse
  | noFreeBuffer
  | tooMuchScattered
  | tooManyMapBlocks
  | noSuper (dev : ℕ)
  | badMajorDev (major : ℕ)
  | reviveErr
  | unpauseErr1
  | unpauseErr2
  | noOneToRevive
  | rootCorrupted
  | cantLoadRootMaps
  /-- use of a pointer that points nowhere -/
  | wildPointer
  /-- a loop that never ends -/
  | endless
  deriving DecidableEq, Repr

/-! ## §3 The Buffer Cache -/

def nrBufs : ℕ := 30
def nrBufHash : ℕ := 32

/-- `NO_DEV` -/
def noDev : ℕ := 65535

abbrev BufId := Fin nrBufs

/-- `struct buf`, without the chains. -/
structure Buf where
  data : Block
  blocknr : ℕ
  dev : ℕ
  dirt : Bool
  count : ℤ

/-- What a disk task does with a request: it is done, or the answer is `err` and the block is left
    in whatever state. -/
structure IoAnswer where
  ok : Bool
  err : ℤ
  junk : Block

/-- The buffers and the disks.  `peak` is the most buffers that have been in use at one time since
    the request began, `writes` the blocks that write requests have been issued for. -/
structure Cache where
  buf : BufId → Buf
  lru : List BufId
  hash : ℕ → List BufId
  bufsInUse : ℕ
  peak : ℕ
  rdwtErr : ℤ
  disk : ℕ → ℕ → Block
  writes : List (ℕ × ℕ)
  io : ℕ → IoAnswer
  tick : ℕ

abbrev CacheM := Prog Cache Panic

def modBuf (bp : BufId) (f : Buf → Buf) : CacheM PUnit :=
  modify fun c => { c with buf := update c.buf bp (f (c.buf bp)) }

/-- The third argument of `get_block`. -/
inductive Search where
  | normal
  | noRead
  | prefetch
  deriving DecidableEq

inductive RwFlag where
  | reading
  | writing
  deriving DecidableEq

/-- The second argument of `put_block`. -/
inductive BlockType where
  | inodeBlock
  | directoryBlock
  | indirectBlock
  | iMapBlock
  | zmapBlock
  | zuperBlock
  | fullDataBlock
  | partialDataBlock
  deriving DecidableEq

def BlockType.oneShot : BlockType → Bool
  | iMapBlock | zmapBlock | zuperBlock => true
  | _ => false

/-- `WRITE_IMMED`; with `ROBUST` 0 the inode, directory and indirect blocks do not have it. -/
def BlockType.writeImmed : BlockType → Bool
  | iMapBlock | zmapBlock | zuperBlock => true
  | _ => false

/-! ## §4 The Other Tables -/

def nrInodes : ℕ := 32
def nrSupers : ℕ := 5
def nrFilps : ℕ := 64
def nrProcs : ℕ := 32
def openMax : ℕ := 20
def nrZoneNums : ℕ := 9
def nrDzoneNum : ℕ := 7
def nrIndirects : ℕ := 512
def nrDirEntries : ℕ := 64
def dirEntrySize : ℕ := 16
def inodesPerBlock : ℕ := 32
def iMapSlots : ℕ := 8
def zmapSlots : ℕ := 8
def nameMax : ℕ := 14
def pathMax : ℕ := 255
def pipeSize : ℕ := nrDzoneNum * blockSize

abbrev InodeId := Fin nrInodes
abbrev SuperId := Fin nrSupers
abbrev FilpId := Fin nrFilps
abbrev ProcId := Fin nrProcs

theorem nrInodes_pos : 0 < nrInodes := by decide

/-- A pointer that may have been read from a disk. -/
inductive Ptr (α : Type) where
  | nil
  | to (a : α)
  | wild (addr : ℕ)
  deriving DecidableEq

/-- `struct super_block` -/
structure Super where
  ninodes : ℕ
  nzones : ℕ
  imapBlocks : ℕ
  zmapBlocks : ℕ
  firstdatazone : ℕ
  logZoneSize : ℕ
  maxSize : ℤ
  magic : ℕ
  imap : ℕ → Ptr BufId
  zmap : ℕ → Ptr BufId
  dev : ℕ
  isup : Ptr InodeId
  imount : Ptr InodeId
  time : ℤ
  rdOnly : ℕ
  dirt : Bool

/-- `struct inode` -/
structure Inode where
  mode : ℕ
  uid : ℕ
  size : ℤ
  mtime : ℤ
  gid : ℕ
  nlinks : ℕ
  zone : ℕ → ℕ
  atime : ℤ
  ctime : ℤ
  dev : ℕ
  num : ℕ
  count : ℤ
  dirt : Bool
  pipe : Bool
  mount : Bool
  seek : Bool
  update : ℕ

/-- `struct filp` -/
structure Filp where
  mode : ℕ
  flags : ℕ
  count : ℤ
  ino : Option InodeId
  pos : ℤ

/-- `struct fproc` -/
structure Fproc where
  umask : ℕ
  workdir : Option InodeId
  rootdir : Option InodeId
  filp : ℕ → Option FilpId
  realuid : ℕ
  effuid : ℕ
  realgid : ℕ
  effgid : ℕ
  tty : ℕ
  fd : ℤ
  buffer : ℕ
  nbytes : ℤ
  suspended : Bool
  revived : Bool
  task : ℤ
  pid : ℤ
  pgrp : ℤ

/-- What a task for a character device answers, and the `REVIVE` messages that it insists on
    sending first. -/
structure DevAnswer where
  status : ℤ
  revives : List (ℤ × ℤ)

/-- The global variables, and the world outside of the server.  The memory of the caller is
    `user`, and `toUser` what has been copied there; `out` are the fields of the reply that are
    filled in, and `refusals` counts the mounts that `load_bit_maps` has refused. -/
structure Globals where
  who : ProcId
  fp : ProcId
  superUser : Bool
  fsCall : ℕ
  dontReply : Bool
  suspCount : ℤ
  reviving : ℤ
  rdahedpos : ℤ
  rdahedInode : Option InodeId
  userPath : Block
  errCode : ℤ
  fd : ℤ
  buffer : ℕ
  nbytes : ℤ
  rootDev : ℕ
  bufBase : ℕ
  inodeBase : ℕ
  user : Block
  toUser : List (ProcId × ℕ × List UInt8)
  out : List ℤ
  replies : List (ℤ × ℤ)
  refusals : ℕ
  copy : ℕ → ℤ
  clock : ℕ → ℤ
  dev : ℕ → DevAnswer
  tick : ℕ

structure FsState where
  cache : Cache
  supers : SuperId → Super
  inodes : InodeId → Inode
  filps : FilpId → Filp
  fprocs : ProcId → Fproc
  g : Globals

abbrev FsM := Prog FsState Panic

/-- A program of the cache as one of the server. -/
def liftC {α : Type} (p : CacheM α) : FsM α := fun s =>
  let (r, c) := p s.cache
  (r, { s with cache := c })

def readInode (i : InodeId) : FsM Inode := do return (← get).inodes i
def readSuper (sp : SuperId) : FsM Super := do return (← get).supers sp
def readFilp (f : FilpId) : FsM Filp := do return (← get).filps f
def readProc (p : ProcId) : FsM Fproc := do return (← get).fprocs p
def globals : FsM Globals := do return (← get).g

/-- `fp->..` -/
def caller : FsM Fproc := do
  let s ← get
  return s.fprocs s.g.fp

def modInode (i : InodeId) (f : Inode → Inode) : FsM PUnit :=
  modify fun s => { s with inodes := update s.inodes i (f (s.inodes i)) }

def modSuper (sp : SuperId) (f : Super → Super) : FsM PUnit :=
  modify fun s => { s with supers := update s.supers sp (f (s.supers sp)) }

def modFilp (i : FilpId) (f : Filp → Filp) : FsM PUnit :=
  modify fun s => { s with filps := update s.filps i (f (s.filps i)) }

def modProc (p : ProcId) (f : Fproc → Fproc) : FsM PUnit :=
  modify fun s => { s with fprocs := update s.fprocs p (f (s.fprocs p)) }

def modGlobals (f : Globals → Globals) : FsM PUnit := modify fun s => { s with g := f s.g }

def setErr (e : ℤ) : FsM PUnit := modGlobals fun g => { g with errCode := e }

/-- A loop over a table. -/
def forAll {α : Type} (f : α → FsM PUnit) : List α → FsM PUnit
  | [] => pure ⟨⟩
  | a :: as => do
    f a
    forAll f as

/-- Some program, if it returns. -/
abbrev Returns {α : Type} (m : FsM α) (s : FsState) (Q : α → FsState → Prop) : Prop :=
  Wp (fun _ _ => True) m s Q

/-! What the programs for one entry of a table do. -/

section

variable {α : Type} {E : Panic → FsState → Prop} {s : FsState}
variable {Q : PUnit → FsState → Prop}

@[simp] theorem wp_liftC {p : CacheM α} {Q : α → FsState → Prop} :
    Wp E (liftC p) s Q ↔
      Wp (fun e c => E e { s with cache := c }) p s.cache fun a c => Q a { s with cache := c } := by
  unfold liftC Wp
  dsimp only
  cases p s.cache with
  | mk r c => cases r <;> rfl

@[simp] theorem wp_readInode {i : InodeId} {Q : Inode → FsState → Prop} :
    Wp E (readInode i) s Q ↔ Q (s.inodes i) s := Iff.rfl

@[simp] theorem wp_readSuper {sp : SuperId} {Q : Super → FsState → Prop} :
    Wp E (readSuper sp) s Q ↔ Q (s.supers sp) s := Iff.rfl

@[simp] theorem wp_readFilp {f : FilpId} {Q : Filp → FsState → Prop} :
    Wp E (readFilp f) s Q ↔ Q (s.filps f) s := Iff.rfl

@[simp] theorem wp_readProc {p : ProcId} {Q : Fproc → FsState → Prop} :
    Wp E (readProc p) s Q ↔ Q (s.fprocs p) s := Iff.rfl

@[simp] theorem wp_globals {Q : Globals → FsState → Prop} : Wp E globals s Q ↔ Q s.g s := Iff.rfl

@[simp] theorem wp_caller {Q : Fproc → FsState → Prop} :
    Wp E caller s Q ↔ Q (s.fprocs s.g.fp) s := Iff.rfl

@[simp] theorem wp_modInode {i : InodeId} {f : Inode → Inode} :
    Wp E (modInode i f) s Q ↔
      Q ⟨⟩ { s with inodes := update s.inodes i (f (s.inodes i)) } := Iff.rfl

@[simp] theorem wp_modFilp {i : FilpId} {f : Filp → Filp} :
    Wp E (modFilp i f) s Q ↔ Q ⟨⟩ { s with filps := update s.filps i (f (s.filps i)) } := Iff.rfl

@[simp] theorem wp_modProc {p : ProcId} {f : Fproc → Fproc} :
    Wp E (modProc p f) s Q ↔ Q ⟨⟩ { s with fprocs := update s.fprocs p (f (s.fprocs p)) } := Iff.rfl

@[simp] theorem wp_modGlobals {f : Globals → Globals} :
    Wp E (modGlobals f) s Q ↔ Q ⟨⟩ { s with g := f s.g } := Iff.rfl

@[simp] theorem wp_setErr {e : ℤ} :
    Wp E (setErr e) s Q ↔ Q ⟨⟩ { s with g := { s.g with errCode := e } } := Iff.rfl

end

/-! ## §5 Codes -/

def OK : ℤ := 0
def ERROR : ℤ := -99
def EPERM : ℤ := -1
def ENOENT : ℤ := -2
def EINTR : ℤ := -4
def ENXIO : ℤ := -6
def EBADF : ℤ := -9
def EAGAIN : ℤ := -11
def EACCES : ℤ := -13
def ENOTBLK : ℤ := -15
def EBUSY : ℤ := -16
def EEXIST : ℤ := -17
def EXDEV : ℤ := -18
def ENOTDIR : ℤ := -20
def EISDIR : ℤ := -21
def EINVAL : ℤ := -22
def ENFILE : ℤ := -23
def EMFILE : ℤ := -24
def ENOTTY : ℤ := -25
def EFBIG : ℤ := -27
def ENOSPC : ℤ := -28
def ESPIPE : ℤ := -29
def EROFS : ℤ := -30
def EMLINK : ℤ := -31
def EPIPE : ℤ := -32
def ENAMETOOLONG : ℤ := -36
def ENOTEMPTY : ℤ := -39
def EBADCALL : ℤ := -102
def SUSPEND : ℤ := -998
def END_OF_FILE : ℤ := -104

def iType : ℕ := 0o170000
def iRegular : ℕ := 0o100000
def iBlockSpecial : ℕ := 0o060000
def iDirectory : ℕ := 0o040000
def iCharSpecial : ℕ := 0o020000
def iNamedPipe : ℕ := 0o010000
def allModes : ℕ := 0o006777
def rwxModes : ℕ := 0o000777
def rBit : ℕ := 4
def wBit : ℕ := 2
def xBit : ℕ := 1

def oAccmode : ℕ := 0o3
def oCreat : ℕ := 0o100
def oExcl : ℕ := 0o200
def oTrunc : ℕ := 0o1000
def oAppend : ℕ := 0o2000
def oNonblock : ℕ := 0o4000

def atime : ℕ := 2
def ctime : ℕ := 4
def mtime : ℕ := 8

def superMagic : ℕ := 0x137F
def rootInode : ℕ := 1
def suUid : ℕ := 0
def maxFilePos : ℤ := 0o17777777777
def linkMax : ℕ := 127
def nrTasks : ℤ := 9
def xpipe : ℤ := -(nrTasks + 1)
def xopen : ℤ := -(nrTasks + 2)
def mmProcNr : ProcId := ⟨0, by decide⟩
def initProcNr : ProcId := ⟨2, by decide⟩

def Inode.type (i : Inode) : ℕ := i.mode &&& iType
def Inode.isDir (i : Inode) : Bool := i.type = iDirectory
def Inode.blockSpec (i : Inode) : Bool := i.type = iBlockSpecial

/-! Call numbers -/

def readCall : ℕ := 3
def writeCall : ℕ := 4
def openCall : ℕ := 5
def creatCall : ℕ := 8
def unlinkCall : ℕ := 10
def setuidCall : ℕ := 23
def rmdirCall : ℕ := 40
def setgidCall : ℕ := 46

end LisaMinix.Fs.Server
