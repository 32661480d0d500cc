import Mathlib.Data.List.FinRange
import LisaMinix.Mm.Mproc

/-!
# Pipes

Model of the part of the file server that deals with pipes made by `pipe(2)`: `pipe.c`,
`filedes.c`, the pipe part of `read_write` (`read.c`), `do_close` (`open.c`), `do_dup`,
`do_fork` and `do_exit` (`misc.c`), and `get_work` (`main.c`).

The tables are those of the source (`fproc.h`, `file.h`, `inode.h`), with the fields that
these functions use.  The contents of a pipe are a function from positions to bytes: the way
through zones and the block cache is left out, and so are errors of the disk.  A write may
find no room on the disk for another block.

The fields `sent` and `received` of an inode, and `elsewhere`, are history; no function reads
them.
-/

namespace LisaMinix.Fs

open Function

open LisaMinix.Mm (ProcNr nrProcs)

/-! ## §1 Data -/

/-- `OPEN_MAX`. -/
abbrev openMax : ℕ := 20

/-- `NR_FILPS`. -/
abbrev nrFilps : ℕ := 64

/-- `NR_INODES`. -/
abbrev nrInodes : ℕ := 32

theorem openMax_pos : 0 < openMax := by decide

theorem nrInodes_pos : 0 < nrInodes := by decide

/-- A file descriptor; any other number is refused with `EBADF` at once. -/
abbrev Fd := Fin openMax

/-- A slot of `filp[]`. -/
abbrev FilpNr := Fin nrFilps

/-- A slot of `inode[]`. -/
abbrev InodeNr := Fin nrInodes

/-- `BLOCK_SIZE`. -/
def blockSize : ℕ := 1024

/-- `PIPE_SIZE`: the direct zones of an inode. -/
def pipeSize : ℕ := 7168

def eagain : ℤ := -11
def ebadf : ℤ := -9
def einval : ℤ := -22
def emfile : ℤ := -24
def enfile : ℤ := -23
def efbig : ℤ := -27
def epipe : ℤ := -32

/-- The calls READ and WRITE, and the mode bit `R_BIT` or `W_BIT` of an end of a pipe. -/
inductive Rw
  | reading
  | writing
  deriving DecidableEq

/-- A call `read(fd, buffer, nbytes)` or `write(fd, buffer, nbytes)`; `buffer` is what the
user's buffer holds. -/
structure IoCall where
  rw : Rw
  fd : Fd
  nbytes : ℤ
  buffer : ℕ → UInt8

/-- `struct fproc`. -/
structure Fproc where
  filp : Fd → Option FilpNr
  suspended : Bool
  revived : Bool
  /-- `fp_fd`, `fp_buffer` and `fp_nbytes`: the call to be done again -/
  call : IoCall

/-- `struct filp`. -/
structure Filp where
  mode : Rw
  nonblock : Bool
  append : Bool
  count : ℕ
  ino : InodeNr
  pos : ℕ

/-- What one call of write did: what it asked for, how many bytes were taken, and the
result. -/
structure Piece where
  asked : List UInt8
  taken : ℕ
  result : ℤ

/-- `struct inode`, of a pipe. -/
structure Inode where
  count : ℕ
  size : ℕ
  data : ℕ → UInt8
  sent : List Piece
  received : List UInt8

/-- The tables of the file server. -/
structure FsState where
  fproc : ProcNr → Fproc
  filp : FilpNr → Filp
  inode : InodeNr → Inode
  suspCount : ℤ
  reviving : ℤ
  replies : List (ProcNr × ℤ)
  /-- processes counted in `susp_count` that wait for something other than a pipe made by
  `pipe(2)` -/
  elsewhere : ℕ

/-- What a request finds outside of these tables. -/
structure Env where
  /-- `s_max_size` of the device -/
  maxSize : ℤ
  /-- how many chunks of a write there is room for, and the error of the next one -/
  room : ℕ
  noRoom : ℤ
  /-- the slot that `alloc_inode` finds, or its error -/
  newInode : Except ℤ InodeNr

namespace FsState

def setProc (s : FsState) (p : ProcNr) (x : Fproc) : FsState :=
  { s with fproc := update s.fproc p x }

def setFilp (s : FsState) (f : FilpNr) (x : Filp) : FsState :=
  { s with filp := update s.filp f x }

def setInode (s : FsState) (i : InodeNr) (x : Inode) : FsState :=
  { s with inode := update s.inode i x }

/-- `reply(whom, result)`. -/
def reply (s : FsState) (whom : ProcNr) (result : ℤ) : FsState :=
  { s with replies := (whom, result) :: s.replies }

end FsState

/-! ## §2 `filedes.c` -/

/-- `get_fd`: the lowest free file descriptor and a free slot of `filp[]`, or an error. -/
def getFd (s : FsState) (p : ProcNr) : Except ℤ (Fd × FilpNr) :=
  match (List.finRange openMax).find? fun fd => ((s.fproc p).filp fd).isNone with
  | none => .error emfile
  | some fd =>
    match (List.finRange nrFilps).find? fun f => (s.filp f).count == 0 with
    | none => .error enfile
    | some f => .ok (fd, f)

/-- `find_filp(rip, bits)`. -/
def findFilp (s : FsState) (ip : InodeNr) (mode : Rw) : Option FilpNr :=
  (List.finRange nrFilps).find? fun f =>
    (s.filp f).count != 0 && (s.filp f).ino == ip && (s.filp f).mode == mode

/-! ## §3 `pipe.c` -/

/-- `suspend(XPIPE)`. -/
def suspend (s : FsState) (who : ProcNr) (call : IoCall) : FsState :=
  { s.setProc who { s.fproc who with suspended := true, call := call } with
    suspCount := s.suspCount + 1 }

/-- The test of `release`: the process hangs on the pipe `ip`, in the call `rw`. -/
def hangsOn (s : FsState) (ip : InodeNr) (rw : Rw) (p : ProcNr) : Bool :=
  let rp := s.fproc p
  rp.suspended && !rp.revived && rp.call.rw == rw &&
    match rp.filp rp.call.fd with
    | none => false
    | some f => (s.filp f).ino == ip

/-- `revive(proc_nr, 0)` of a process that hangs on a pipe, and the counting in `release`. -/
def reviveOne (s : FsState) (p : ProcNr) : FsState :=
  { s.setProc p { s.fproc p with revived := true } with
    reviving := s.reviving + 1
    suspCount := s.suspCount - 1 }

/-- The loop of `release`. -/
def releaseLoop (ip : InodeNr) (rw : Rw) : List ProcNr → ℤ → FsState → FsState
  | [], _, s => s
  | p :: rest, count, s =>
    if hangsOn s ip rw p then
      if count - 1 = 0 then reviveOne s p else releaseLoop ip rw rest (count - 1) (reviveOne s p)
    else releaseLoop ip rw rest count s

/-- `release(ip, call_nr, count)`. -/
def release (s : FsState) (ip : InodeNr) (rw : Rw) (count : ℤ) : FsState :=
  releaseLoop ip rw (List.finRange nrProcs) count s

/-- What `pipe_check` tells `read_write` to do. -/
inductive Verdict
  | go
  | answer (r : ℤ)
  /-- the caller is suspended and gets no reply now -/
  | hang

/-- `pipe_check` for a read. -/
def pipeCheckRead (s : FsState) (who : ProcNr) (call : IoCall) (ip : InodeNr) (nonblock : Bool)
    (position : ℕ) : FsState × Verdict :=
  if position < (s.inode ip).size then (s, .go)
  else if (findFilp s ip .writing).isNone then (s, .answer 0)
  else
    let s := if nonblock then s else suspend s who call
    -- "If need be, activate sleeping writers."
    let s := if 0 < s.suspCount then release s ip .writing s.suspCount else s
    (s, if nonblock then .answer eagain else .hang)

/-- `pipe_check` for a write. -/
def pipeCheckWrite (s : FsState) (who : ProcNr) (call : IoCall) (ip : InodeNr) (nonblock : Bool)
    (position : ℕ) : FsState × Verdict :=
  if (pipeSize : ℤ) < call.nbytes then (s, .answer efbig)
  else if (findFilp s ip .reading).isNone then (s, .answer epipe)
  else if (pipeSize : ℤ) < position + call.nbytes then
    if nonblock then (s, .answer eagain) else (suspend s who call, .hang)
  -- "Writing to an empty pipe.  Search for suspended reader."
  else if position = 0 then (release s ip .reading s.suspCount, .go)
  else (s, .go)

/-! ## §4 `read.c` -/

/-- The size of the next chunk: it does not cross a block boundary. -/
def chunkSize (position left : ℕ) : ℕ := min left (blockSize - position % blockSize)

/-- The loop of `read_write` for a read: the bytes copied to the user. -/
def readChunks (data : ℕ → UInt8) (fSize : ℕ) : ℕ → ℕ → ℕ → List UInt8
  | 0, _, _ => []
  | fuel + 1, position, left =>
    if left = 0 ∨ fSize ≤ position then []
    else
      let chunk := min (chunkSize position left) (fSize - position)
      (List.range chunk).map (fun k => data (position + k)) ++
        readChunks data fSize fuel (position + chunk) (left - chunk)

/-- The loop of `read_write` for a write: the contents afterwards and the bytes taken, when
there is room for `room` chunks. -/
def writeChunks (buffer : ℕ → UInt8) :
    ℕ → (ℕ → UInt8) → ℕ → ℕ → ℕ → (ℕ → UInt8) × ℕ
  | 0, data, _, cumIo, _ => (data, cumIo)
  | room + 1, data, position, cumIo, left =>
    if left = 0 then (data, cumIo)
    else
      let chunk := chunkSize position left
      let data' := fun a =>
        if position ≤ a ∧ a < position + chunk then buffer (cumIo + (a - position)) else data a
      writeChunks buffer room data' (position + chunk) (cumIo + chunk) (left - chunk)

/-- The rest of `read_write` for a read from the filp `f`: the transfer, and the new file
position.  When everything has been read the pipe pointers are reset. -/
def finishRead (s : FsState) (f : FilpNr) (nbytes : ℕ) : FsState × ℤ :=
  let ip := (s.filp f).ino
  let rip := s.inode ip
  let bytes := readChunks rip.data rip.size nbytes (s.filp f).pos nbytes
  let position := (s.filp f).pos + bytes.length
  let rip := { rip with received := rip.received ++ bytes }
  if rip.size ≤ position then
    let s := s.setInode ip { rip with size := 0 }
    let s := match findFilp s ip .writing with
      | none => s
      | some wf => s.setFilp wf { s.filp wf with pos := 0 }
    (s.setFilp f { s.filp f with pos := 0 }, bytes.length)
  else
    ((s.setInode ip rip).setFilp f { s.filp f with pos := position }, bytes.length)

/-- The rest of `read_write` for a write to the filp `f`. -/
def finishWrite (s : FsState) (env : Env) (f : FilpNr) (buffer : ℕ → UInt8) (nbytes position : ℕ) :
    FsState × ℤ :=
  let ip := (s.filp f).ino
  let rip := s.inode ip
  let (data, cumIo) := writeChunks buffer env.room rip.data position 0 nbytes
  let result : ℤ := if cumIo = nbytes then cumIo else env.noRoom
  let piece : Piece := ⟨(List.range nbytes).map buffer, cumIo, result⟩
  let size := if rip.size < position + cumIo then position + cumIo else rip.size
  let s := s.setInode ip { rip with data := data, size := size, sent := rip.sent ++ [piece] }
  (s.setFilp f { s.filp f with pos := position + cumIo }, result)

/-- `read_write(rw_flag)` on a pipe; the result is `none` if the caller is suspended. -/
def readWrite (s : FsState) (env : Env) (who : ProcNr) (call : IoCall) : FsState × Option ℤ :=
  if call.nbytes < 0 then (s, some einval)
  else match (s.fproc who).filp call.fd with
  | none => (s, some ebadf)
  | some f =>
    let filp := s.filp f
    if filp.mode ≠ call.rw then (s, some ebadf)
    else if call.nbytes = 0 then (s, some 0)
    else match call.rw with
    | .reading =>
      match pipeCheckRead s who call filp.ino filp.nonblock filp.pos with
      | (s, .hang) => (s, none)
      | (s, .answer r) => (s, some r)
      | (s, .go) => ((finishRead s f call.nbytes.toNat).1, some (finishRead s f call.nbytes.toNat).2)
    | .writing =>
      -- "Check in advance to see if file will grow too big."
      if env.maxSize - call.nbytes < filp.pos then (s, some efbig)
      else
        let position := if filp.append then (s.inode filp.ino).size else filp.pos
        match pipeCheckWrite s who call filp.ino filp.nonblock position with
        | (s, .hang) => (s, none)
        | (s, .answer r) => (s, some r)
        | (s, .go) =>
          let r := finishWrite s env f call.buffer call.nbytes.toNat position
          (r.1, some r.2)

/-! ## §5 Descriptors -/

/-- `put_inode(rip)`; a pipe that nobody uses any more is truncated, as it has no links. -/
def putInode (s : FsState) (ip : InodeNr) : FsState :=
  let rip := s.inode ip
  s.setInode ip { rip with count := rip.count - 1, size := if rip.count = 1 then 0 else rip.size }

/-- The last part of `do_close`: the descriptor is given up, and the inode with the last one. -/
def dropFd (s : FsState) (who : ProcNr) (fd : Fd) (f : FilpNr) : FsState :=
  let ip := (s.filp f).ino
  let s := s.setFilp f { s.filp f with count := (s.filp f).count - 1 }
  let s := if (s.filp f).count = 0 then putInode s ip else s
  s.setProc who { s.fproc who with filp := update (s.fproc who).filp fd none }

/-- The calls that may hang on the other end of a pipe. -/
def otherEnd : Rw → Rw
  | .reading => .writing
  | .writing => .reading

/-- `do_close()`: "If the inode being closed is a pipe, release everyone hanging on it." -/
def doClose (s : FsState) (who : ProcNr) (fd : Fd) : FsState × ℤ :=
  match (s.fproc who).filp fd with
  | none => (s, ebadf)
  | some f => (dropFd (release s (s.filp f).ino (otherEnd (s.filp f).mode) nrProcs) who fd f, 0)

/-- Let `fd` of `who` refer to the filp `f`. -/
def FsState.link (s : FsState) (who : ProcNr) (fd : Fd) (f : FilpNr) : FsState :=
  s.setProc who { s.fproc who with filp := update (s.fproc who).filp fd (some f) }

/-- `do_dup()`: `dup(fd)`, or `dup2(fd, fd2)`. -/
def doDup (s : FsState) (who : ProcNr) (fd : Fd) (fd2 : Option Fd) : FsState × ℤ :=
  match (s.fproc who).filp fd with
  | none => (s, ebadf)
  | some f =>
    match fd2 with
    | none =>
      match getFd s who with
      | .error e => (s, e)
      | .ok (fd2, _) =>
        ((s.setFilp f { s.filp f with count := (s.filp f).count + 1 }).link who fd2 f, fd2.val)
    | some fd2 =>
      if fd = fd2 then (s, fd2.val)
      else
        let s := (doClose s who fd2).1
        ((s.setFilp f { s.filp f with count := (s.filp f).count + 1 }).link who fd2 f, fd2.val)

/-- One round of the loop of `do_fork` that counts the descriptors of the child. -/
def countFilp (child : Fproc) (s : FsState) (fd : Fd) : FsState :=
  match child.filp fd with
  | none => s
  | some f => s.setFilp f { s.filp f with count := (s.filp f).count + 1 }

/-- `do_fork()`. -/
def doFork (s : FsState) (parent child : ProcNr) : FsState :=
  let cp := s.fproc parent
  (List.finRange openMax).foldl (countFilp cp) (s.setProc child cp)

/-- `do_exit()` for the process `who`. -/
def doExit (s : FsState) (who : ProcNr) : FsState :=
  let s := if (s.fproc who).suspended then
    { s.setProc who { s.fproc who with suspended := false } with suspCount := s.suspCount - 1 }
    else s
  (List.finRange openMax).foldl (fun s fd => (doClose s who fd).1) s

/-- `fcntl(fd, F_SETFL, flags)`. -/
def setFl (s : FsState) (who : ProcNr) (fd : Fd) (nonblock append : Bool) : FsState × ℤ :=
  match (s.fproc who).filp fd with
  | none => (s, ebadf)
  | some f => (s.setFilp f { s.filp f with nonblock := nonblock, append := append }, 0)

/-- A slot of `filp[]` that `get_fd` has prepared, claimed for an end of a pipe. -/
def newFilp (mode : Rw) (ip : InodeNr) : Filp := ⟨mode, false, false, 1, ip, 0⟩

/-- `do_pipe()`. -/
def doPipe (s : FsState) (env : Env) (who : ProcNr) : FsState × ℤ :=
  match getFd s who with
  | .error e => (s, e)
  | .ok (fd0, f0) =>
    let s₁ := (s.setFilp f0 { s.filp f0 with mode := .reading, count := 1 }).link who fd0 f0
    match getFd s₁ who with
    | .error e => (s, e)
    | .ok (fd1, f1) =>
      match env.newInode with
      | .error e => (s, e)
      | .ok ip =>
        let s := s.setFilp f0 (newFilp .reading ip)
        let s := s.setFilp f1 (newFilp .writing ip)
        let s := (s.link who fd0 f0).link who fd1 f1
        (s.setInode ip { s.inode ip with count := 2, size := 0, sent := [], received := [] }, 0)

/-! ## §6 The main loop -/

/-- A request to FS. -/
inductive Request
  | io (call : IoCall)
  | pipe
  | close (fd : Fd)
  | dup (fd : Fd) (fd2 : Option Fd)
  | setFl (fd : Fd) (nonblock append : Bool)
  /-- from MM: the process forks the process in slot `child` -/
  | fork (child : ProcNr)
  /-- from MM: the process has exited or was killed -/
  | exit

/-- `reply(who, error)`, unless `dont_reply` is set. -/
def answer (s : FsState) (who : ProcNr) (r : Option ℤ) : FsState :=
  match r with
  | none => s
  | some r => s.reply who r

/-- One turn of the main loop, for a message that was received. -/
def handle (s : FsState) (env : Env) (who : ProcNr) : Request → FsState
  | .io call => answer (readWrite s env who call).1 who (readWrite s env who call).2
  | .pipe => (doPipe s env who).1.reply who (doPipe s env who).2
  | .close fd => (doClose s who fd).1.reply who (doClose s who fd).2
  | .dup fd fd2 => (doDup s who fd fd2).1.reply who (doDup s who fd fd2).2
  | .setFl fd n a => (setFl s who fd n a).1.reply who (setFl s who fd n a).2
  | .fork child => doFork s who child
  | .exit => doExit s who

/-- `get_work` when `reviving` is not zero: the process to be awakened and its call. -/
def getRevived (s : FsState) : Option (FsState × ProcNr × IoCall) :=
  match (List.finRange nrProcs).find? fun p => (s.fproc p).revived with
  | none => none
  | some p =>
    some ({ s.setProc p { s.fproc p with suspended := false, revived := false } with
      reviving := s.reviving - 1 }, p, (s.fproc p).call)

/-- The tables before the first request. -/
def initialState : FsState where
  fproc _ := ⟨fun _ => none, false, false, ⟨.reading, ⟨0, openMax_pos⟩, 0, fun _ => 0⟩⟩
  filp _ := ⟨.reading, false, false, 0, ⟨0, nrInodes_pos⟩, 0⟩
  inode _ := ⟨0, 0, fun _ => 0, [], []⟩
  suspCount := 0
  reviving := 0
  replies := []
  elsewhere := 0

end LisaMinix.Fs
