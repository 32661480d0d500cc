import LisaMinix.Fs.Server.Path

/-!
# Reading and Writing

`read.c`, with the file descriptors of `filedes.c`, the suspension of processes (`pipe.c`) and the
devices that are not disks (`device.c`).  What a task for such a device does with the memory of a
process is not part of the server; its answer is taken from the state.
-/

namespace LisaMinix.Fs.Server

open LisaMinix.Library

/-! ## §1 File Descriptors -/

/-- `get_filp(fild)` -/
def getFilp (fild : ℤ) : FsM (Option FilpId) := do
  setErr EBADF
  if fild < 0 ∨ openMax ≤ fild then return none
  else return (← caller).filp fild.toNat

/-- `get_fd(start, bits, k, fpt)`: the descriptor and the slot, or an error. -/
def getFd (start bits : ℕ) : FsM (Except ℤ (ℕ × FilpId)) := do
  let fp ← caller
  match (List.range openMax).find? fun i => start ≤ i ∧ fp.filp i = none with
  | none => return .error EMFILE
  | some k =>
    let s ← get
    match firstId fun f => (s.filps f).count = 0 with
    | none => return .error ENFILE
    | some f =>
      modFilp f fun x => { x with mode := bits, pos := 0, flags := 0 }
      return .ok (k, f)

/-- `find_filp(rip, bits)` -/
def findFilp (rip : InodeId) (bits : ℕ) : FsM (Option FilpId) := do
  let s ← get
  return firstId fun f =>
    (s.filps f).count ≠ 0 ∧ (s.filps f).ino = some rip ∧ (s.filps f).mode &&& bits ≠ 0

/-- `f->filp_ino`, which is used. -/
def filpInode (f : FilpId) : FsM InodeId := do
  match (← readFilp f).ino with
  | none => throw .wildPointer
  | some rip => return rip

/-! ## §2 Suspension -/

/-- `reply(whom, result)` -/
def reply (whom result : ℤ) : FsM PUnit :=
  modGlobals fun g => { g with replies := (whom, result) :: g.replies }

/-- `suspend(task)` -/
def suspend (task : ℤ) : FsM PUnit := do
  let g ← globals
  modProc g.fp fun p =>
    { p with
      suspended := true
      fd := g.fd * 256 + g.fsCall
      buffer := g.buffer
      nbytes := g.nbytes
      task := -task }
  modGlobals fun g =>
    { g with
      suspCount := if task = xpipe ∨ task = xopen then g.suspCount + 1 else g.suspCount
      dontReply := true }

theorem toNat_lt_nrProcs {procNr : ℤ} (h : 0 ≤ procNr ∧ procNr.toNat < nrProcs) :
    procNr.toNat < nrProcs :=
  h.2

/-- `revive(proc_nr, bytes)` -/
def revive (procNr bytes : ℤ) : FsM PUnit := do
  if h : 0 ≤ procNr ∧ procNr.toNat < nrProcs then
    let p : ProcId := ⟨procNr.toNat, toNat_lt_nrProcs h⟩
    let x ← readProc p
    if x.suspended = false ∨ x.revived then pure ⟨⟩
    else if -x.task = xpipe then
      modProc p fun x => { x with revived := true }
      modGlobals fun g => { g with reviving := g.reviving + 1 }
    else
      modProc p fun x => { x with suspended := false }
      if -x.task = xopen then reply procNr (x.fd / 256)
      else
        modProc p fun x => { x with nbytes := bytes }
        reply procNr bytes
  else throw .reviveErr

/-- The loop of `release` over the process table. -/
def releaseFrom (ip : InodeId) (callNr : ℕ) : List ProcId → ℤ → FsM PUnit
  | [], _ => pure ⟨⟩
  | rp :: rest, count => do
    let x ← readProc rp
    if x.suspended ∧ x.revived = false ∧ (x.fd % 256 : ℤ) = callNr then
      match if x.fd / 256 < 0 ∨ openMax ≤ x.fd / 256 then none else x.filp (x.fd / 256).toNat with
      | none => throw .wildPointer
      | some f =>
        if (← readFilp f).ino = some ip then
          revive rp 0
          modGlobals fun g => { g with suspCount := g.suspCount - 1 }
          if count - 1 = 0 then pure ⟨⟩ else releaseFrom ip callNr rest (count - 1)
        else releaseFrom ip callNr rest count
    else releaseFrom ip callNr rest count

/-- `release(ip, call_nr, count)` -/
def release (ip : InodeId) (callNr : ℕ) (count : ℤ) : FsM PUnit :=
  releaseFrom ip callNr (List.finRange nrProcs) count

/-- `pipe_check(rip, rw_flag, oflags, bytes, position)`; `sys_kill` is not part of the server. -/
def pipeCheck (rip : InodeId) (rw : RwFlag) (oflags : ℕ) (bytes position : ℤ) : FsM ℤ := do
  match rw with
  | .reading =>
    if position < (← readInode rip).size then return 1
    else if (← findFilp rip wBit).isNone then return 0
    else
      let nonblock := oflags &&& oNonblock ≠ 0
      if ¬nonblock then suspend xpipe
      let count := (← globals).suspCount
      if 0 < count then release rip writeCall count
      return if nonblock then EAGAIN else 0
  | .writing =>
    if (pipeSize : ℤ) < bytes then return EFBIG
    else if (← findFilp rip rBit).isNone then return EPIPE
    else if (pipeSize : ℤ) < position + bytes then
      if oflags &&& oNonblock ≠ 0 then return EAGAIN
      else
        suspend xpipe
        return 0
    else
      if position = 0 then release rip readCall (← globals).suspCount
      return 1

/-! ## §3 Devices -/

/-- `dmap[major].dmap_task` -/
def dmapTask : ℕ → ℤ
  | 1 => -4
  | 2 => -5
  | 3 => -6
  | 4 => -nrTasks
  | 5 => -nrTasks
  | 6 => -7
  | _ => 0

/-- The processes that a task wants to have revived before it takes the message. -/
def reviveAll : List (ℤ × ℤ) → FsM PUnit := forAll fun r => revive r.1 r.2

/-- `rw_dev(task_nr, mess_ptr)`, and `rw_dev2`: the answer of the task. -/
def rwDev : FsM ℤ := do
  let g ← globals
  modGlobals fun g => { g with tick := g.tick + 1 }
  reviveAll (g.dev g.tick).revives
  return (g.dev g.tick).status

/-- `rw_dev` for `CANCEL`: a `REVIVE` for the process itself takes its place. -/
def cancelDev (procNr : ℤ) : FsM PUnit := do
  let g ← globals
  modGlobals fun g => { g with tick := g.tick + 1 }
  reviveAll ((g.dev g.tick).revives.takeWhile fun r => r.1 ≠ procNr)

/-- `dev_io(..)` for a device that is not read through the cache. -/
def devIo (dev : ℕ) : FsM ℤ := do
  liftC (findDev dev)
  let status ← rwDev
  if status = SUSPEND then suspend (dmapTask (majorOf dev))
  return status

/-- `tty_open(task_nr, mess_ptr)`: the answer to `TTY_SETPGRP` is the status. -/
def ttyOpen (dev : ℕ) : FsM ℤ := do
  let s ← get
  let fp := s.fprocs s.g.fp
  if fp.pid ≠ fp.pgrp ∨ fp.tty ≠ 0 then return OK
  else if (firstId fun p : ProcId => initProcNr < p ∧ (s.fprocs p).tty = dev).isSome then return OK
  else
    modProc s.g.fp fun p => { p with tty := dev }
    rwDev

/-- `dev_open(rip, mod, nonblock)` -/
def devOpen (rip : InodeId) : FsM ℤ := do
  let i ← readInode rip
  if 1 < i.count then return OK
  else
    liftC (findDev (i.zone 0))
    if majorOf (i.zone 0) = 4 then ttyOpen (i.zone 0) else return OK

/-- `dev_close(rip)` -/
def devClose (rip : InodeId) : FsM PUnit := do
  let i ← readInode rip
  if 1 < i.count then pure ⟨⟩ else liftC (findDev (i.zone 0))

/-- `tty_exit()` -/
def ttyExit : FsM PUnit := do
  let ttydev := (← caller).tty
  modify fun s =>
    { s with
      fprocs := fun p =>
        if initProcNr < p ∧ (s.fprocs p).tty = ttydev then { s.fprocs p with tty := 0 }
        else s.fprocs p }
  liftC (findDev ttydev)
  let _ ← rwDev

/-! ## §4 Read Ahead -/

def maxPLong : ℤ := 2147483647

/-- The guess at `blocks_per_track`. -/
def blocksPerTrack (devSize : ℤ) : ℕ :=
  if devSize < 80 * 2 * 15 * 512 then 9
  else if devSize < 80 * 2 * 18 * 512 then 15
  else 18

/-- The variables of the loop of `rahead`. -/
structure Ahead where
  position : ℤ
  maxTrack : ℕ
  readQ : List BufId

/-- What does not change in the loop of `rahead`. -/
structure AheadArgs where
  rip : InodeId
  dev : ℕ
  blockSpec : Bool
  perTrack : ℕ
  fileSize : ℤ

def AheadArgs.limit (a : AheadArgs) : ℕ := if a.blockSpec then nrBufs else nrBufs - 2

/-- The block that the loop of `rahead` looks at. -/
def aheadBlock (a : AheadArgs) (position : ℤ) : FsM ℕ :=
  if a.blockSpec then pure (position.tdiv blockSize % 65536).toNat else readMap a.rip position

/-- One turn of the loop of `rahead`. -/
def aheadStep (a : AheadArgs) (readingAhead : Bool) (st : Ahead) : FsM Ahead := do
  let block ← aheadBlock a st.position
  let track := block / a.perTrack
  let position := toLong (st.position + blockSize)
  if readingAhead ∧ track ≠ st.maxTrack then return { st with position := position }
  else
    let maxTrack := max st.maxTrack track
    if a.blockSpec ∨ block ≠ 0 then
      let bp ← liftC (getBlock a.dev block .prefetch)
      if ((← get).cache.buf bp).dev = noDev then
        return { position := position, maxTrack := maxTrack, readQ := st.readQ ++ [bp] }
      else
        liftC (putBlock (.to bp) .fullDataBlock)
        return { st with position := position, maxTrack := maxTrack }
    else return { st with position := position, maxTrack := maxTrack }

/-- The loop of `rahead` for at most `n` blocks, until the end of the file or of the buffers. -/
def aheadLoop (a : AheadArgs) (readingAhead : Bool) : ℕ → Ahead → FsM Ahead
  | 0, st => pure st
  | n + 1, st => do
    if a.fileSize ≤ st.position ∨ a.limit ≤ (← get).cache.bufsInUse then return st
    else
      let st ← aheadStep a readingAhead st
      aheadLoop a readingAhead n st

/-- `rahead(rip, baseblock, position, bytes_ahead)`; the two phases of the loop are the blocks that
    are needed at once, and those of the same track. -/
def rahead (rip : InodeId) (baseblock : ℕ) (position bytesAhead : ℤ) : FsM BufId := do
  let i ← readInode rip
  let dev := if i.blockSpec then i.zone 0 else i.dev
  let bp ← liftC (getBlock dev baseblock .prefetch)
  let b := (← get).cache.buf bp
  if b.dev ≠ noDev then return bp
  else
    let devSize := if i.blockSpec then i.size else 80 * 2 * 15 * 512
    let perTrack := blocksPerTrack devSize
    let fileSize := if i.blockSpec ∧ i.size = 0 then maxPLong else i.size
    let fragment := position % blockSize
    let blocksAhead := ((fragment + bytesAhead + blockSize - 1) / blockSize - 1).toNat
    let a : AheadArgs := { rip, dev, blockSpec := i.blockSpec, perTrack, fileSize }
    let st : Ahead :=
      { position := toLong (position - fragment + blockSize)
        maxTrack := b.blocknr / perTrack
        readQ := [bp] }
    let st ← aheadLoop a false blocksAhead st
    let st ← if i.seek = false ∧ (fragment + bytesAhead) % blockSize = 0 then
        aheadLoop a true (perTrack + 7) st
      else pure st
    liftC (rwScattered dev st.readQ .reading)
    liftC (getBlock dev baseblock .normal)

/-- `read_ahead()` -/
def readAhead (rip : InodeId) : FsM PUnit := do
  let pos := (← globals).rdahedpos
  modGlobals fun g => { g with rdahedInode := none }
  let b ← readMap rip pos
  if b = 0 then pure ⟨⟩
  else
    let bp ← rahead rip b pos blockSize
    liftC (putBlock (.to bp) .partialDataBlock)

/-! ## §5 `read_write` -/

/-- `rw_user(s, u, vir, bytes, buff, direction)` for a buffer: bytes from `off` on. -/
def rwUser (rw : RwFlag) (usr : ProcId) (vir bytes : ℕ) (bp : BufId) (off : ℕ) : FsM ℤ := do
  let r ← nextCopy
  if r = OK then
    match rw with
    | .reading =>
      let data ← liftC (readBuf bp)
      modGlobals fun g =>
        { g with toUser := (usr, vir, (List.range bytes).map fun i => data (off + i)) :: g.toUser }
    | .writing =>
      let user := (← globals).user
      liftC (modBuf bp fun b => { b with data := copyBytes b.data off user vir bytes })
  return r

/-- The buffer that `rw_chunk` works on. -/
def chunkBuf (rip : InodeId) (position : ℤ) (off chunk : ℕ) (left : ℤ) (rw : RwFlag) :
    FsM (Option BufId) := do
  let i ← readInode rip
  let b ← if i.blockSpec then pure (position / blockSize % 65536).toNat else readMap rip position
  if i.blockSpec = false ∧ b = 0 then
    match rw with
    | .reading =>
      -- a block that does not exist reads as zeros
      let bp ← liftC (getBlock noDev 0 .normal)
      liftC (zeroBlock bp)
      return some bp
    | .writing => newBlock rip position
  else
    match rw with
    | .reading => return some (← rahead rip b position left)
    | .writing =>
      let n := if chunk = blockSize ∨ (i.blockSpec = false ∧ off = 0 ∧ i.size ≤ position) then
          Search.noRead else .normal
      return some (← liftC (getBlock (if i.blockSpec then i.zone 0 else i.dev) b n))

/-- `rw_chunk(rip, position, off, chunk, left, rw_flag, buff, seg, usr)` -/
def rwChunk (rip : InodeId) (position : ℤ) (off chunk : ℕ) (left : ℤ) (rw : RwFlag) (buff : ℕ)
    (usr : ProcId) : FsM ℤ := do
  match ← chunkBuf rip position off chunk left rw with
  | none => return (← globals).errCode
  | some bp =>
    let i ← readInode rip
    if rw = .writing ∧ chunk ≠ blockSize ∧ i.blockSpec = false ∧ i.size ≤ position ∧ off = 0 then
      liftC (zeroBlock bp)
    let r ← rwUser rw usr buff chunk bp off
    if rw = .writing then liftC (modBuf bp fun b => { b with dirt := true })
    liftC (putBlock (.to bp) (if off + chunk = blockSize then .fullDataBlock else .partialDataBlock))
    return r

/-- The loop of `read_write` over the chunks: `r`, the position and the bytes transferred. -/
def rwLoop (rip : InodeId) (blockSpec : Bool) (fSize : ℤ) (rw : RwFlag) (usr : ProcId) :
    ℕ → ℤ → ℤ → ℤ → FsM (ℤ × ℤ × ℤ)
  | 0, r, position, cumIo => return (r, position, cumIo)
  | n + 1, r, position, cumIo => do
    let g ← globals
    if g.nbytes = 0 then return (r, position, cumIo)
    else
      let off := position % blockSize
      let bounded := rw = .reading || blockSpec
      if bounded ∧ fSize ≤ position then return (r, position, cumIo)
      else
        let chunk := min g.nbytes (blockSize - off)
        let chunk := if bounded then min chunk (fSize - position) else chunk
        let r ← rwChunk rip position off.toNat chunk.toNat g.nbytes rw g.buffer usr
        if r ≠ OK ∨ (← get).cache.rdwtErr < 0 then return (r, position, cumIo)
        else
          modGlobals fun g =>
            { g with buffer := g.buffer + chunk.toNat, nbytes := g.nbytes - chunk }
          rwLoop rip blockSpec fSize rw usr n r (toLong (position + chunk)) (cumIo + chunk)

/-- The end of `read_write`: sizes, positions and the read ahead. -/
def rwFinish (f : FilpId) (rip : InodeId) (fSize : ℤ) (rw : RwFlag) (r position cumIo : ℤ) :
    FsM ℤ := do
  let i ← readInode rip
  let regular := i.type = iRegular ∨ i.type = iNamedPipe
  let position ← match rw with
    | .writing =>
      if regular ∨ i.isDir then
        modInode rip fun x =>
          { x with
            size := if fSize < position then position else x.size
            update := mtime
            dirt := true }
      pure position
    | .reading =>
      if i.pipe ∧ i.size ≤ position then
        modInode rip fun x => { x with size := 0 }
        match ← findFilp rip wBit with
        | none => pure 0
        | some wf =>
          modFilp wf fun x => { x with pos := 0 }
          pure 0
      else pure position
  modFilp f fun x => { x with pos := position }
  if rw = .reading ∧ i.seek = false ∧ position % blockSize = 0 ∧ (regular ∨ i.isDir) then
    modGlobals fun g => { g with rdahedInode := some rip, rdahedpos := position }
  modInode rip fun x => { x with seek := false }
  let err := (← get).cache.rdwtErr
  let r := if err = END_OF_FILE then cumIo else if err ≠ OK then err else r
  return if r = OK then cumIo else r

/-- What `read_write` does for a file that is not a character device. -/
def rwFile (f : FilpId) (rip : InodeId) (rw : RwFlag) (usr : ProcId) : FsM ℤ := do
  let x ← readFilp f
  let i ← readInode rip
  let nbytes := (← globals).nbytes
  let fSize := if i.blockSpec ∧ i.size = 0 then maxPLong else i.size
  let checked ← if rw = .writing ∧ i.blockSpec = false then do
      let sp ← getSuper i.dev
      pure (decide (x.pos ≤ toLong ((← readSuper sp).maxSize - nbytes)))
    else pure true
  if checked = false then return EFBIG
  else
    let append := rw = .writing ∧ i.blockSpec = false ∧ x.flags &&& oAppend ≠ 0
    let position := if append then fSize else x.pos
    if rw = .writing ∧ i.blockSpec = false ∧ fSize < position then clearZone rip fSize false
    let r ← if i.pipe then pipeCheck rip rw x.flags nbytes position else pure OK
    if i.pipe ∧ r ≤ 0 then return r
    else
      let (r, position, cumIo) ← rwLoop rip i.blockSpec fSize rw usr nbytes.toNat r position 0
      rwFinish f rip fSize rw r position cumIo

/-- What `read_write` does for a character device. -/
def rwChar (f : FilpId) (rip : InodeId) (rw : RwFlag) : FsM ℤ := do
  let x ← readFilp f
  let i ← readInode rip
  let r ← devIo (i.zone 0)
  if 0 ≤ r then rwFinish f rip i.size rw OK (toLong (x.pos + r)) r
  else rwFinish f rip i.size rw r x.pos 0

/-- The user that MM asks for in the upper bits of `fd`, and the descriptor. -/
def mmDescriptor : FsM PUnit :=
  modGlobals fun g =>
    if g.who = mmProcNr ∧ g.fd / 256 ≠ 0 then { g with fd := g.fd % 64 } else g

def rwUsr (g : Globals) : ProcId :=
  if g.who = mmProcNr ∧ g.fd / 256 ≠ 0 then
    if h : (g.fd / 256 % 256).toNat < nrProcs then ⟨_, h⟩ else g.who
  else g.who

/-- `read_write(rw_flag)` -/
def readWrite (rw : RwFlag) : FsM ℤ := do
  let usr := rwUsr (← globals)
  mmDescriptor
  let g ← globals
  if g.nbytes < 0 then return EINVAL
  else match ← getFilp g.fd with
    | none => return (← globals).errCode
    | some f =>
      let x ← readFilp f
      if x.mode &&& (if rw = .reading then rBit else wBit) = 0 then return EBADF
      else if g.nbytes = 0 then return 0
      else if x.pos < 0 ∨ maxFilePos < x.pos then return EINVAL
      else
        let rip ← filpInode f
        liftC (modify fun c => { c with rdwtErr := OK })
        if (← readInode rip).type = iCharSpecial then rwChar f rip rw else rwFile f rip rw usr

end LisaMinix.Fs.Server
