import LisaMinix.Fs.PipeStream

/-!
# Named Pipes

A named pipe (a FIFO) is opened by its name, any number of times: `common_open` and
`pipe_open` (`open.c`) give every opener a filp of its own.  The functions of `pipe.c`,
`read.c` and `misc.c` are those modelled in `Pipe`; here a filp may have both mode bits, a
process may hang in OPEN or CREAT as well, and an inode is a pipe only once `pipe_open` has
said so.

The bytes of a FIFO belong to its inode, but a position belongs to a filp.  The history of an
inode, which no function reads, has a field more than for pipes made by `pipe(2)`: `consumed`
counts the bytes that were read since the FIFO was last empty.
-/

namespace LisaMinix.Fs.Fifo

open Function

open LisaMinix.Mm (ProcNr nrProcs)

/-! ## §1 Data -/

def ok : ℤ := 0
def eintr : ℤ := -4
def enxio : ℤ := -6

/-- The bits `R_BIT` and `W_BIT` of `filp_mode`. -/
structure Mode where
  r : Bool
  w : Bool
  deriving DecidableEq

def Mode.has (m : Mode) : Rw → Bool
  | .reading => m.r
  | .writing => m.w

/-- The call numbers that `release` looks for. -/
inductive CallNr
  | read
  | write
  | openCall
  | creat
  deriving DecidableEq

/-- `fp_fd`, `fp_buffer` and `fp_nbytes`. -/
structure Call where
  nr : CallNr
  fd : Fd
  nbytes : ℤ
  buffer : ℕ → UInt8

/-- What a process is suspended on: `fp_task`. -/
inductive Task
  | xpipe
  | xopen
  deriving DecidableEq

/-- `struct fproc`. -/
structure Proc where
  filp : Fd → Option FilpNr
  suspended : Bool
  revived : Bool
  task : Task
  call : Call

/-- `struct filp`. -/
structure OpenFile where
  mode : Mode
  nonblock : Bool
  append : Bool
  count : ℕ
  ino : InodeNr
  pos : ℕ

/-- `struct inode`, of a FIFO. -/
structure Node extends Inode where
  /-- `i_pipe` -/
  isPipe : Bool
  consumed : ℕ

/-- The tables of the file server. -/
structure State where
  fproc : ProcNr → Proc
  filp : FilpNr → OpenFile
  inode : InodeNr → Node
  suspCount : ℤ
  reviving : ℤ
  replies : List (ProcNr × ℤ)

namespace State

def setProc (s : State) (p : ProcNr) (x : Proc) : State :=
  { s with fproc := update s.fproc p x }

def setFilp (s : State) (f : FilpNr) (x : OpenFile) : State :=
  { s with filp := update s.filp f x }

def setNode (s : State) (i : InodeNr) (x : Node) : State :=
  { s with inode := update s.inode i x }

/-- `reply(whom, result)`. -/
def reply (s : State) (whom : ProcNr) (result : ℤ) : State :=
  { s with replies := (whom, result) :: s.replies }

/-- Let `fd` of `who` refer to a filp, or to none. -/
def link (s : State) (who : ProcNr) (fd : Fd) (f : Option FilpNr) : State :=
  s.setProc who { s.fproc who with filp := update (s.fproc who).filp fd f }

end State

/-! ## §2 `filedes.c` and `inode.c` -/

/-- `get_fd`, before it fills in the mode word of the slot. -/
def getFd (s : State) (p : ProcNr) : Except ℤ (Fd × FilpNr) :=
  match (List.finRange openMax).find? fun fd => ((s.fproc p).filp fd).isNone with
  | none => .error emfile
  | some fd =>
    match (List.finRange nrFilps).find? fun f => (s.filp f).count == 0 with
    | none => .error enfile
    | some f => .ok (fd, f)

/-- `find_filp(rip, bits)`. -/
def findFilp (s : State) (ip : InodeNr) (bit : Rw) : Option FilpNr :=
  (List.finRange nrFilps).find? fun f =>
    (s.filp f).count != 0 && (s.filp f).ino == ip && (s.filp f).mode.has bit

/-- A FIFO that nobody uses, as it is on the disk: `put_inode` has left it empty. -/
def Node.fresh : Node := ⟨⟨1, 0, fun _ => 0, [], []⟩, false, 0⟩

/-- `get_inode`: one more user, or the inode is loaded into the free slot. -/
def getInode (s : State) (ip : InodeNr) : State :=
  let rip := s.inode ip
  s.setNode ip (if rip.count = 0 then Node.fresh else { rip with count := rip.count + 1 })

/-- `put_inode`: when nobody uses it any more, a pipe is truncated. -/
def putInode (s : State) (ip : InodeNr) : State :=
  let rip := s.inode ip
  if rip.count - 1 = 0 then
    s.setNode ip { rip with
      count := 0, size := if rip.isPipe then 0 else rip.size, isPipe := false }
  else s.setNode ip { rip with count := rip.count - 1 }

/-! ## §3 `pipe.c` -/

/-- `suspend(task)`. -/
def suspend (s : State) (who : ProcNr) (task : Task) (call : Call) : State :=
  { s.setProc who { s.fproc who with suspended := true, task := task, call := call } with
    suspCount := s.suspCount + 1 }

/-- The test of `release`. -/
def hangsOn (s : State) (ip : InodeNr) (nr : CallNr) (p : ProcNr) : Bool :=
  let rp := s.fproc p
  rp.suspended && !rp.revived && rp.call.nr == nr &&
    match rp.filp rp.call.fd with
    | none => false
    | some f => (s.filp f).ino == ip

/-- `revive(proc_nr, 0)`, and the counting in `release`: a process that hangs on a pipe has to
try again, one that hangs in OPEN gets its descriptor. -/
def reviveOne (s : State) (p : ProcNr) : State :=
  let rfp := s.fproc p
  let s := { s with suspCount := s.suspCount - 1 }
  match rfp.task with
  | .xpipe => { s.setProc p { rfp with revived := true } with reviving := s.reviving + 1 }
  | .xopen => (s.setProc p { rfp with suspended := false }).reply p rfp.call.fd.val

/-- The loop of `release`. -/
def releaseLoop (ip : InodeNr) (nr : CallNr) : List ProcNr → ℤ → State → State
  | [], _, s => s
  | p :: rest, count, s =>
    if hangsOn s ip nr p then
      if count - 1 = 0 then reviveOne s p else releaseLoop ip nr rest (count - 1) (reviveOne s p)
    else releaseLoop ip nr rest count s

/-- `release(ip, call_nr, count)`. -/
def release (s : State) (ip : InodeNr) (nr : CallNr) (count : ℤ) : State :=
  releaseLoop ip nr (List.finRange nrProcs) count s

/-- `pipe_check` for a read. -/
def pipeCheckRead (s : State) (who : ProcNr) (call : Call) (ip : InodeNr) (nonblock : Bool)
    (position : ℕ) : State × Verdict :=
  if position < (s.inode ip).size then (s, .go)
  else if (findFilp s ip .writing).isNone then (s, .answer 0)
  else
    let s := if nonblock then s else suspend s who .xpipe call
    -- "If need be, activate sleeping writers."
    let s := if 0 < s.suspCount then release s ip .write s.suspCount else s
    (s, if nonblock then .answer eagain else .hang)

/-- `pipe_check` for a write. -/
def pipeCheckWrite (s : State) (who : ProcNr) (call : Call) (ip : InodeNr) (nonblock : Bool)
    (position : ℕ) : State × Verdict :=
  if (pipeSize : ℤ) < call.nbytes then (s, .answer efbig)
  else if (findFilp s ip .reading).isNone then (s, .answer epipe)
  else if (pipeSize : ℤ) < position + call.nbytes then
    if nonblock then (s, .answer eagain) else (suspend s who .xpipe call, .hang)
  -- "Writing to an empty pipe.  Search for suspended reader."
  else if position = 0 then (release s ip .read s.suspCount, .go)
  else (s, .go)

/-- `pipe_check(rip, rw_flag, oflags, bytes, position)`, if the inode is a pipe. -/
def pipeCheck (s : State) (who : ProcNr) (rw : Rw) (call : Call) (filp : OpenFile)
    (position : ℕ) : State × Verdict :=
  if (s.inode filp.ino).isPipe then
    match rw with
    | .reading => pipeCheckRead s who call filp.ino filp.nonblock position
    | .writing => pipeCheckWrite s who call filp.ino filp.nonblock position
  else (s, .go)

/-- `do_unpause()`: a call that hangs on a pipe is not interrupted. -/
def doUnpause (s : State) (p : ProcNr) : State :=
  let rfp := s.fproc p
  if rfp.suspended && rfp.task == .xopen then
    (s.setProc p { rfp with suspended := false }).reply p eintr
  else s

/-! ## §4 `read.c` -/

/-- The end of `read_write` for a read from the filp `f`.  When everything has been read the
pipe pointers are reset: those of the reader, and of one writer. -/
def finishRead (s : State) (f : FilpNr) (nbytes : ℕ) : State × ℤ :=
  let ip := (s.filp f).ino
  let rip := s.inode ip
  let bytes := readChunks rip.data rip.size nbytes (s.filp f).pos nbytes
  let position := (s.filp f).pos + bytes.length
  let rip := { rip with received := rip.received ++ bytes, consumed := rip.consumed + bytes.length }
  if rip.isPipe && rip.size ≤ position then
    let s := s.setNode ip { rip with size := 0, consumed := 0 }
    let s := match findFilp s ip .writing with
      | none => s
      | some wf => s.setFilp wf { s.filp wf with pos := 0 }
    (s.setFilp f { s.filp f with pos := 0 }, bytes.length)
  else ((s.setNode ip rip).setFilp f { s.filp f with pos := position }, bytes.length)

/-- The end of `read_write` for a write to the filp `f`. -/
def finishWrite (s : State) (env : Env) (f : FilpNr) (buffer : ℕ → UInt8) (nbytes position : ℕ) :
    State × ℤ :=
  let ip := (s.filp f).ino
  let rip := s.inode ip
  let (data, cumIo) := writeChunks buffer env.room rip.data position 0 nbytes
  let result : ℤ := if cumIo = nbytes then cumIo else env.noRoom
  let piece : Piece := ⟨(List.range nbytes).map buffer, cumIo, result⟩
  let size := if rip.size < position + cumIo then position + cumIo else rip.size
  let s := s.setNode ip { rip with data := data, size := size, sent := rip.sent ++ [piece] }
  (s.setFilp f { s.filp f with pos := position + cumIo }, result)

/-- The position of a transfer: `filp_pos`, or the end of the file for a write with
`O_APPEND`. -/
def startPos (s : State) (f : FilpNr) (rw : Rw) : ℕ :=
  if rw = .writing ∧ (s.filp f).append then (s.inode (s.filp f).ino).size else (s.filp f).pos

/-- `read_write(rw_flag)` on a FIFO; the result is `none` if the caller is suspended. -/
def readWrite (s : State) (env : Env) (who : ProcNr) (rw : Rw) (call : Call) : State × Option ℤ :=
  if call.nbytes < 0 then (s, some einval)
  else match (s.fproc who).filp call.fd with
  | none => (s, some ebadf)
  | some f =>
    let filp := s.filp f
    if !filp.mode.has rw then (s, some ebadf)
    else if call.nbytes = 0 then (s, some 0)
    -- "Check in advance to see if file will grow too big."
    else if rw = .writing ∧ env.maxSize - call.nbytes < filp.pos then (s, some efbig)
    else
      let position := startPos s f rw
      match pipeCheck s who rw call filp position with
      | (s, .hang) => (s, none)
      | (s, .answer r) => (s, some r)
      | (s, .go) =>
        match rw with
        | .reading =>
          ((finishRead s f call.nbytes.toNat).1, some (finishRead s f call.nbytes.toNat).2)
        | .writing =>
          let r := finishWrite s env f call.buffer call.nbytes.toNat position
          (r.1, some r.2)

/-! ## §5 `open.c` and `misc.c` -/

/-- The arguments of OPEN or CREAT for the name of a FIFO, with what `eat_path` (or
`new_node`, which finds that the file exists) and `forbidden` say. -/
structure OpenCall where
  nr : CallNr
  /-- the remapped bottom two bits of `oflags` -/
  bits : Mode
  nonblock : Bool
  append : Bool
  found : Except ℤ InodeNr
  forbidden : ℤ

/-- The end that must be open for an open to go on. -/
def Mode.needs (bits : Mode) : Rw := if bits.w then .reading else .writing

/-- "revive blocked processes" -/
def wakeOpeners (s : State) (ip : InodeNr) : State :=
  if 0 < s.suspCount then
    let s' := release s ip .openCall s.suspCount
    release s' ip .creat s'.suspCount
  else s

/-- `pipe_open(rip, bits, oflags)`, with whether the caller is suspended. -/
def pipeOpen (s : State) (who : ProcNr) (ip : InodeNr) (call : OpenCall) (fd : Fd) :
    State × ℤ × Bool :=
  let suspended : Call := ⟨call.nr, fd, 0, fun _ => 0⟩
  if (findFilp s ip call.bits.needs).isNone then
    if call.nonblock then (s, if call.bits.w then enxio else ok, false)
    else
      let s := suspend s who .xopen suspended
      (s.setNode ip { s.inode ip with isPipe := true }, ok, true)
  else
    let s := wakeOpeners s ip
    (s.setNode ip { s.inode ip with isPipe := true }, ok, false)

/-- `common_open(oflags, omode)` of a FIFO.  The slot of `filp[]` is filled in by `get_fd`, and
claimed at the end. -/
def commonOpen (s : State) (who : ProcNr) (call : OpenCall) : State × Option ℤ :=
  match getFd s who with
  | .error e => (s, some e)
  | .ok (fd, f) =>
    let s := s.setFilp f
      { s.filp f with mode := call.bits, pos := 0, nonblock := false, append := false }
    match call.found with
    | .error e => (s, some e)
    | .ok ip =>
      let s := getInode s ip
      if call.forbidden ≠ ok then (putInode s ip, some call.forbidden)
      else
        let (s, r, hangs) := pipeOpen s who ip call fd
        if r ≠ ok then (putInode s ip, some r)
        else
          let s := (s.link who fd (some f)).setFilp f
            { s.filp f with count := 1, ino := ip, nonblock := call.nonblock, append := call.append }
          (s, if hangs then none else some fd.val)

/-- The last part of `do_close`: the descriptor is given up, and the inode with the last one. -/
def dropFd (s : State) (who : ProcNr) (fd : Fd) (f : FilpNr) : State :=
  let ip := (s.filp f).ino
  let s := s.setFilp f { s.filp f with count := (s.filp f).count - 1 }
  let s := if (s.filp f).count = 0 then putInode s ip else s
  s.link who fd none

/-- `do_close()`: "If the inode being closed is a pipe, release everyone hanging on it." -/
def doClose (s : State) (who : ProcNr) (fd : Fd) : State × ℤ :=
  match (s.fproc who).filp fd with
  | none => (s, ebadf)
  | some f =>
    let ip := (s.filp f).ino
    let s := if (s.inode ip).isPipe then
      release s ip (if (s.filp f).mode.r then .write else .read) nrProcs else s
    (dropFd s who fd f, ok)

/-- `do_dup()`: `dup(fd)`, or `dup2(fd, fd2)`. -/
def doDup (s : State) (who : ProcNr) (fd : Fd) (fd2 : Option Fd) : State × ℤ :=
  match (s.fproc who).filp fd with
  | none => (s, ebadf)
  | some f =>
    let share (s : State) (fd2 : Fd) : State × ℤ :=
      ((s.setFilp f { s.filp f with count := (s.filp f).count + 1 }).link who fd2 (some f), fd2.val)
    match fd2 with
    | none =>
      match getFd s who with
      | .error e => (s, e)
      | .ok (fd2, _) => share s fd2
    | some fd2 => if fd = fd2 then (s, fd2.val) else share (doClose s who fd2).1 fd2

/-- One round of the loop of `do_fork` that counts the descriptors of the child. -/
def countFilp (child : Proc) (s : State) (fd : Fd) : State :=
  match child.filp fd with
  | none => s
  | some f => s.setFilp f { s.filp f with count := (s.filp f).count + 1 }

/-- `do_fork()`. -/
def doFork (s : State) (parent child : ProcNr) : State :=
  let cp := s.fproc parent
  (List.finRange openMax).foldl (countFilp cp) (s.setProc child cp)

/-- `do_exit()` for the process `who`. -/
def doExit (s : State) (who : ProcNr) : State :=
  let s := if (s.fproc who).suspended then
    let s := doUnpause { s with suspCount := s.suspCount - 1 } who
    s.setProc who { s.fproc who with suspended := false } else s
  (List.finRange openMax).foldl (fun s fd => (doClose s who fd).1) s

/-! ## §6 The main loop -/

/-- A request to FS about FIFOs. -/
inductive Request
  | open (call : OpenCall)
  | io (rw : Rw) (fd : Fd) (nbytes : ℤ) (buffer : ℕ → UInt8)
  | close (fd : Fd)
  | dup (fd : Fd) (fd2 : Option Fd)
  /-- from MM: the process forks the process in slot `child` -/
  | fork (child : ProcNr)
  /-- from MM: the process has exited or was killed -/
  | exit
  /-- from MM: a signal was sent to the process -/
  | unpause

/-- `reply(who, error)`, unless `dont_reply` is set. -/
def answer (who : ProcNr) (r : State × Option ℤ) : State :=
  match r.2 with
  | none => r.1
  | some e => r.1.reply who e

/-- The call number of a read or a write. -/
def callNr : Rw → CallNr
  | .reading => .read
  | .writing => .write

/-- One turn of the main loop, for a message that was received. -/
def handle (s : State) (env : Env) (who : ProcNr) : Request → State
  | .open call => answer who (commonOpen s who call)
  | .io rw fd nbytes buffer => answer who (readWrite s env who rw ⟨callNr rw, fd, nbytes, buffer⟩)
  | .close fd => (doClose s who fd).1.reply who (doClose s who fd).2
  | .dup fd fd2 => (doDup s who fd fd2).1.reply who (doDup s who fd fd2).2
  | .fork child => doFork s who child
  | .exit => doExit s who
  | .unpause => doUnpause s who

/-- `get_work` when `reviving` is not zero: the process to be awakened. -/
def getRevived (s : State) : Option (State × ProcNr) :=
  match (List.finRange nrProcs).find? fun p => (s.fproc p).revived with
  | none => none
  | some p =>
    some ({ s.setProc p { s.fproc p with suspended := false, revived := false } with
      reviving := s.reviving - 1 }, p)

/-- Which transfer a revived process tries again; those that hang in OPEN are not revived so. -/
def retried : CallNr → Option Rw
  | .read => some .reading
  | .write => some .writing
  | _ => none

end LisaMinix.Fs.Fifo
