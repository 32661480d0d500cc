import LisaMinix.Fs.Server.Calls

/-!
# The Main Loop

`main.c`: the server starts with the super block and the bit maps of the root device, and then
serves one request after the other.

- `serve`: one turn of the loop of `main`.
- `Reached`: the states that the server is in when no request is being served.
-/

namespace LisaMinix.Fs.Server

open LisaMinix.Library

/-! ## §1 One Request -/

/-- `call_vector` -/
def callVector (q : Request) : ℕ → FsM ℤ
  | 1 => doExit q
  | 2 => doFork q
  | 3 => readWrite .reading
  | 4 => readWrite .writing
  | 5 => doOpen q
  | 6 => doClose q.fd
  | 8 => doCreat q
  | 9 => doLink q
  | 10 => doUnlink q
  | 12 => doChdir q
  | 13 => doTime
  | 14 => doMknod q
  | 15 => doChmod q
  | 16 => doChown q
  | 18 => doStat q
  | 19 => doLseek q
  | 21 => doMount q
  | 22 => doUmount q
  | 23 => doSet q
  | 25 => doStime
  | 28 => doFstat q
  | 30 => doUtime q
  | 33 => doAccess q
  | 36 => doSync
  | 38 => doRename q
  | 39 => doMkdir q
  | 40 => doUnlink q
  | 41 => doDup q
  | 42 => doPipe
  | 43 => return OK
  | 46 => doSet q
  | 54 => doIoctl q
  | 55 => doFcntl q
  | 60 => doUmask q
  | 61 => doChroot q
  | 65 => doUnpause q.pro
  | 67 => doRevive q
  | _ => return EINVAL

/-- `NCALLS` -/
def nCalls : ℤ := 70

/-- `get_work()`: the next message, or a process that has been revived makes its call again. -/
def getWork (q : Request) : FsM ℤ := do
  let s ← get
  if s.g.reviving ≠ 0 then
    match firstId fun p => (s.fprocs p).revived with
    | none => throw .noOneToRevive
    | some rp =>
      let x := s.fprocs rp
      modGlobals fun g =>
        { g with
          who := rp
          fd := x.fd / 256 % 256
          buffer := x.buffer
          nbytes := x.nbytes
          reviving := g.reviving - 1 }
      modProc rp fun x => { x with suspended := false, revived := false }
      return x.fd % 256
  else
    modGlobals fun g => { g with who := q.who, fd := q.fd, buffer := q.buffer, nbytes := q.nbytes }
    return q.call

/-- The variables that `main` sets before a call. -/
def setUp (q : Request) (call : ℤ) : FsM PUnit :=
  modify fun s =>
    { s with
      cache := { s.cache with peak := s.cache.bufsInUse }
      g :=
        { s.g with
          fp := s.g.who
          superUser := (s.fprocs s.g.who).effuid = suUid
          dontReply := false
          fsCall := call.toNat
          user := q.user } }

/-- One turn of the loop of `main`.  A message of a task is `REVIVE`. -/
def serve (q : Request) : FsM PUnit := do
  let call ← getWork q
  setUp q call
  let error ← if call < 0 ∨ nCalls ≤ call then pure EBADCALL else callVector q call.toNat
  let g ← globals
  if g.dontReply then pure ⟨⟩
  else
    reply g.who.val error
    match g.rdahedInode with
    | none => pure ⟨⟩
    | some rip => readAhead rip

/-! ## §2 The Start -/

/-- What the server finds outside of itself. -/
structure World where
  rootDev : ℕ
  disk : ℕ → ℕ → Block
  io : ℕ → IoAnswer
  copy : ℕ → ℤ
  clock : ℕ → ℤ
  dev : ℕ → DevAnswer
  bufBase : ℕ
  inodeBase : ℕ

/-- `buf_pool()` -/
def bufPool (w : World) : Cache where
  buf _ := { data := zeroBytes, blocknr := 0, dev := noDev, dirt := false, count := 0 }
  lru := List.finRange nrBufs
  hash h := if h = 0 then List.finRange nrBufs else []
  bufsInUse := 0
  peak := 0
  rdwtErr := 0
  disk := w.disk
  writes := []
  io := w.io
  tick := 0

def noInode : Inode where
  mode := 0
  uid := 0
  size := 0
  mtime := 0
  gid := 0
  nlinks := 0
  zone _ := 0
  atime := 0
  ctime := 0
  dev := 0
  num := 0
  count := 0
  dirt := false
  pipe := false
  mount := false
  seek := false
  update := 0

def noSuperBlock : Super where
  ninodes := 0
  nzones := 0
  imapBlocks := 0
  zmapBlocks := 0
  firstdatazone := 0
  logZoneSize := 0
  maxSize := 0
  magic := 0
  imap _ := .nil
  zmap _ := .nil
  dev := noDev
  isup := .nil
  imount := .nil
  time := 0
  rdOnly := 0
  dirt := false

def noFproc : Fproc where
  umask := 0
  workdir := none
  rootdir := none
  filp _ := none
  realuid := 0
  effuid := 0
  realgid := 0
  effgid := 0
  tty := 0
  fd := 0
  buffer := 0
  nbytes := 0
  suspended := false
  revived := false
  task := 0
  pid := 0
  pgrp := 0

/-- The server when `load_super` is called: the tables are empty. -/
def atBoot (w : World) : FsState where
  cache := bufPool w
  supers _ := noSuperBlock
  inodes _ := noInode
  filps _ := { mode := 0, flags := 0, count := 0, ino := none, pos := 0 }
  fprocs _ := noFproc
  g :=
    { who := mmProcNr
      fp := mmProcNr
      superUser := true
      fsCall := 0
      dontReply := false
      suspCount := 0
      reviving := 0
      rdahedpos := 0
      rdahedInode := none
      userPath := zeroBytes
      errCode := 0
      fd := 0
      buffer := 0
      nbytes := 0
      rootDev := w.rootDev
      bufBase := w.bufBase
      inodeBase := w.inodeBase
      user := zeroBytes
      toUser := []
      out := []
      replies := []
      refusals := 0
      copy := w.copy
      clock := w.clock
      dev := w.dev
      tick := 0 }

/-- The first super block. -/
def rootSuper : SuperId := ⟨0, by decide⟩

/-- `load_super(super_dev)` -/
def loadSuper (dev : ℕ) : FsM PUnit := do
  modSuper rootSuper fun x => { x with dev := dev }
  readSuperBlock rootSuper
  match ← getInode dev rootInode with
  | none => throw .wildPointer
  | some rip =>
    let i ← readInode rip
    if i.isDir = false ∨ i.nlinks < 3 ∨ (← readSuper rootSuper).magic ≠ superMagic then
      throw .rootCorrupted
    else
      dupInode rip
      modSuper rootSuper fun x => { x with imount := .to rip, isup := .to rip, rdOnly := 0 }
      if (← loadBitMaps dev) ≠ OK then throw .cantLoadRootMaps

/-- The `fproc` fields of a process that is there from the start. -/
def initProc (p : ProcId) : FsM PUnit := do
  let rip ← getInode (← globals).rootDev rootInode
  dupPtr rip
  modProc p fun x =>
    { x with
      rootdir := rip
      workdir := rip
      realuid := 0
      effuid := 0
      realgid := 0
      effgid := 0
      umask := 65535 }

/-- `fs_init()` -/
def fsInit : FsM PUnit := do
  loadSuper (← globals).rootDev
  initProc mmProcNr
  initProc initProcNr

/-- The states of the server between requests. -/
inductive Reached (w : World) : FsState → Prop
  | start {s : FsState} (h : fsInit (atBoot w) = (.ok ⟨⟩, s)) : Reached w s
  | step {s s' : FsState} (q : Request) (hs : Reached w s) (h : serve q s = (.ok ⟨⟩, s')) :
      Reached w s'

/-! ## §3 A Small Disk -/

/-- A block that begins with the given words. -/
def wordBlock (l : List ℕ) : Block := fun i =>
  let v := l.getD (i / 2) 0
  UInt8.ofNat (if i % 2 = 0 then v / 256 else v)

/-- A file system of 100 zones, whose root directory has one entry, `f`, for inode 2. -/
def smallDisk (inode : List ℕ) : ℕ → Block
  | 1 => wordBlock [32, 100, 1, 1, 5, 0, 0x1008, 0x1c00, superMagic]
  | 2 => wordBlock [7]
  | 3 => wordBlock [3]
  | 4 => wordBlock ([0o040755, 0, 0, 48, 0, 0, 3, 5, 0, 0, 0, 0, 0, 0, 0, 0] ++ inode)
  | 5 => wordBlock [1, 0x2e00, 0, 0, 0, 0, 0, 0, 1, 0x2e2e, 0, 0, 0, 0, 0, 0, 2, 0x6600]
  | _ => zeroBytes

/-- A world in which everything goes well, apart from what the tasks of character devices say. -/
def smallWorld (inode : List ℕ) (dev : ℕ → DevAnswer) : World where
  rootDev := 0x100
  disk d := if d = 0x100 then smallDisk inode else fun _ => zeroBytes
  io _ := { ok := true, err := 0, junk := zeroBytes }
  copy _ := 0
  clock _ := 0
  dev := dev
  bufBase := 4096
  inodeBase := 2048

/-- The path `/f`, in the message. -/
def slashF : NameArg := { addr := 0, len := 3, inMessage := wordBlock [0x2f66] }

/-- A request of `init`, whose paths are `/f`. -/
def initRequest (call : ℤ) : Request where
  who := initProcNr
  fromTask := false
  call := call
  user := zeroBytes
  fd := 0
  buffer := 0
  nbytes := 0
  name := slashF
  name1 := slashF
  name2 := slashF
  mode := 0
  cMode := 0
  coMode := 0
  addr := 0
  fd2 := 0
  request := 0
  offset := 0
  whence := 0
  owner := 0
  group := 0
  rdOnly := 0
  updatedTime := 0
  cdFlag := false
  slot1 := initProcNr
  parent := initProcNr
  child := initProcNr
  pid := 0
  pro := 0
  realUserId := 0
  effUserId := 0
  realGrpId := 0
  effGrpId := 0
  repProcNr := 0
  repStatus := 0
  lsize := 0

end LisaMinix.Fs.Server
