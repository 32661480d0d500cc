import LisaMinix.Fs.Server.Transfer

/-!
# The Calls

What `call_vector` leads to: `open.c`, `link.c`, `mount.c`, `misc.c`, `stadir.c`, `time.c`,
`protect.c` and the calls of `pipe.c` and `device.c`.  A call returns the result that is sent to the
caller.
-/

namespace LisaMinix.Fs.Server

open LisaMinix.Library Function

/-! ## §1 Requests -/

/-- A request message, under the names that `param.h` has for its fields.  Names that stand for the
    same place in the message are fields of their own here.  `lsize` is what `new_node` finds for
    its last parameter when `do_mknod` calls it without one. -/
structure Request where
  who : ProcId
  fromTask : Bool
  call : ℤ
  user : Block
  fd : ℤ
  buffer : ℕ
  nbytes : ℤ
  name : NameArg
  name1 : NameArg
  name2 : NameArg
  mode : ℕ
  cMode : ℕ
  coMode : ℕ
  addr : ℤ
  fd2 : ℤ
  request : ℤ
  offset : ℤ
  whence : ℤ
  owner : ℕ
  group : ℕ
  rdOnly : ℕ
  updatedTime : ℤ
  cdFlag : Bool
  slot1 : ProcId
  parent : ProcId
  child : ProcId
  pid : ℤ
  pro : ℤ
  realUserId : ℕ
  effUserId : ℕ
  realGrpId : ℕ
  effGrpId : ℕ
  repProcNr : ℤ
  repStatus : ℤ
  lsize : ℤ

/-- `return(err_code)` -/
def errCode : FsM ℤ := do return (← globals).errCode

/-- `i_nlinks++` and `i_nlinks--`, on a byte. -/
def Inode.moreLinks (x : Inode) : Inode := { x with nlinks := (x.nlinks + 1) % 256 }
def Inode.fewerLinks (x : Inode) : Inode := { x with nlinks := (x.nlinks + 255) % 256 }

def Inode.soil (x : Inode) : Inode := { x with dirt := true }

/-- A path name argument is fetched and followed. -/
def openPath (arg : NameArg) (m3 : Bool) : FsM (Option InodeId) := do
  if (← fetchName arg m3) ≠ OK then return none else eatPath 0

/-! ## §2 `open.c` -/

/-- `new_node(path, bits, z0, lsize)` when the last component does not exist. -/
def makeNode (dir : InodeId) (string : Name) (bits z0 : ℕ) (lsize : ℤ) : FsM (Option InodeId) := do
  match ← allocInode (← readInode dir).dev bits with
  | none =>
    putInodeId dir
    return none
  | some rip =>
    modInode rip fun x =>
      { x.moreLinks with zone := update x.zone 0 z0, size := lsize }
    rwInode rip .writing
    let (r, _) ← searchDir dir string (.enter (← readInode rip).num)
    if r ≠ OK then
      putInodeId dir
      modInode rip fun x => x.fewerLinks.soil
      putInodeId rip
      setErr r
      return none
    else
      putInodeId dir
      setErr OK
      return some rip

/-- `new_node(path, bits, z0, lsize)` -/
def newNode (bits z0 : ℕ) (lsize : ℤ) : FsM (Option InodeId) := do
  match ← lastDir 0 with
  | none => return none
  | some (dir, string) =>
    let rip ← advance advanceFuel (some dir) string
    let err ← errCode
    if rip = none ∧ err = ENOENT then makeNode dir string bits z0 lsize
    else
      putInodeId dir
      setErr (if rip = none then err else EEXIST)
      return rip

/-- `mode_map[oflags & O_ACCMODE]` -/
def modeMap (oflags : ℕ) : ℕ :=
  match oflags &&& oAccmode with
  | 0 => rBit
  | 1 => wBit
  | 2 => rBit ||| wBit
  | _ => 0

/-- `pipe_open(rip, bits, oflags)` -/
def pipeOpen (rip : InodeId) (bits oflags : ℕ) : FsM ℤ := do
  let other ← findFilp rip (if bits &&& wBit ≠ 0 then rBit else wBit)
  if other = none ∧ oflags &&& oNonblock ≠ 0 then
    return if bits &&& wBit ≠ 0 then ENXIO else OK
  else
    if other = none then suspend xopen
    else if 0 < (← globals).suspCount then
      release rip openCall (← globals).suspCount
      release rip creatCall (← globals).suspCount
    modInode rip fun x => { x with pipe := true }
    return OK

/-- The normal open code: protections, and what the type of the file asks for. -/
def openExisting (rip : InodeId) (bits oflags : ℕ) : FsM ℤ := do
  let r ← forbidden rip bits false
  if r ≠ OK then return r
  else
    let i ← readInode rip
    if i.type = iRegular then
      if oflags &&& oTrunc ≠ 0 then
        truncate rip
        wipeInode rip
      return OK
    else if i.type = iDirectory then return if bits &&& wBit ≠ 0 then EISDIR else OK
    else if i.type = iCharSpecial ∨ i.type = iBlockSpecial then devOpen rip
    else if i.type = iNamedPipe then pipeOpen rip bits oflags
    else return OK

/-- The inode that `common_open` works on, with `exist` and `r`; or an error. -/
def openInode (oflags omode : ℕ) : FsM (Except ℤ (InodeId × Bool × ℤ)) := do
  if oflags &&& oCreat ≠ 0 then
    let umask := (← caller).umask
    let rip ← newNode (iRegular ||| (omode &&& allModes &&& umask)) 0 0
    let r ← errCode
    if r ≠ OK ∧ r ≠ EEXIST then return .error r
    else match rip with
      | none => throw .wildPointer
      | some rip => return .ok (rip, r ≠ OK ∧ oflags &&& oExcl = 0, r)
  else match ← eatPath 0 with
    | none => return .error (← errCode)
    | some rip => return .ok (rip, true, OK)

/-- `common_open(oflags, omode)` -/
def commonOpen (oflags omode : ℕ) : FsM ℤ := do
  let bits := modeMap oflags
  match ← getFd 0 bits with
  | .error r => return r
  | .ok (k, filPtr) =>
    modGlobals fun g => { g with fd := k }
    match ← openInode oflags omode with
    | .error r => return r
    | .ok (rip, exist, r) =>
      let r ← if exist then openExisting rip bits oflags else pure r
      if r ≠ OK then
        putInodeId rip
        return r
      else
        let fp := (← globals).fp
        modProc fp fun p => { p with filp := update p.filp k (some filPtr) }
        modFilp filPtr fun x => { x with count := 1, ino := some rip, flags := oflags }
        return k

/-- `do_creat()` -/
def doCreat (q : Request) : FsM ℤ := do
  if (← fetchName q.name true) ≠ OK then errCode
  else commonOpen (1 ||| oCreat ||| oTrunc) q.mode

/-- `do_open()` -/
def doOpen (q : Request) : FsM ℤ := do
  let create := q.mode &&& oCreat ≠ 0
  let r ← if create then fetchName q.name1 false else fetchName q.name true
  if r ≠ OK then errCode else commonOpen q.mode (if create then q.cMode else 0)

/-- `do_mknod()` -/
def doMknod (q : Request) : FsM ℤ := do
  if (← globals).superUser = false ∧ q.mode &&& iType ≠ iNamedPipe then return EPERM
  else if (← fetchName q.name1 false) ≠ OK then errCode
  else
    let umask := (← caller).umask
    let bits := (q.mode &&& iType) ||| (q.mode &&& allModes &&& umask)
    let rip ← newNode bits (q.addr % 65536).toNat q.lsize
    putInode rip
    errCode

/-- The entries `.` and `..` of a new directory could be made, or the directory is removed. -/
def finishMkdir (rip ldir : InodeId) (string : Name) (entered : Bool) : FsM PUnit := do
  if entered then
    modInode rip Inode.moreLinks
    modInode ldir fun x => x.moreLinks.soil
  else
    let _ ← searchDir rip dot .delete
    let _ ← searchDir rip dotDot .delete
    let _ ← searchDir ldir string .delete
    modInode rip Inode.fewerLinks
  modInode rip Inode.soil

/-- `do_mkdir()` -/
def doMkdir (q : Request) : FsM ℤ := do
  if (← fetchName q.name1 false) ≠ OK then errCode
  else
    let umask := (← caller).umask
    let bits := iDirectory ||| (q.mode &&& rwxModes &&& umask)
    match ← newNode bits 0 0 with
    | none => errCode
    | some rip =>
      if (← errCode) = EEXIST then
        putInodeId rip
        errCode
      else match ← lastDir 0 with
        | none => throw .wildPointer
        | some (ldir, string) =>
          let dotdotNum := (← readInode ldir).num
          let dotNum := (← readInode rip).num
          modInode rip fun x => { x with mode := x.mode ||| 0o700 }
          let (r1, _) ← searchDir rip dot (.enter dotNum)
          let (r2, _) ← searchDir rip dotDot (.enter dotdotNum)
          modInode rip fun x => { x with mode := bits }
          finishMkdir rip ldir string (r1 = OK ∧ r2 = OK)
          putInodeId ldir
          putInodeId rip
          errCode

/-- `do_lseek()` -/
def doLseek (q : Request) : FsM ℤ := do
  match ← getFilp q.fd with
  | none => errCode
  | some f =>
    let rip ← filpInode f
    let i ← readInode rip
    let x ← readFilp f
    if i.pipe then return ESPIPE
    else if q.whence < 0 ∨ 2 < q.whence then return EINVAL
    else
      let base := if q.whence = 0 then 0 else if q.whence = 1 then x.pos else i.size
      let pos := toLong (base + q.offset)
      if pos < 0 ∨ maxFilePos < pos then return EINVAL
      else
        if pos ≠ x.pos then modInode rip fun x => { x with seek := true }
        modFilp f fun x => { x with pos := pos }
        modGlobals fun g => { g with out := [pos] }
        return OK

/-! ## §3 `do_sync` and `do_close` -/

/-- `do_sync()` -/
def doSync : FsM ℤ := do
  let root := (← globals).rootDev
  let sp ← getSuper root
  let now ← clockTime
  modSuper sp fun x => { x with time := now, dirt := if x.rdOnly = 0 then true else x.dirt }
  forAll (fun rip => do
    let x ← readInode rip
    if 0 < x.count ∧ x.dirt then rwInode rip .writing) (List.finRange nrInodes)
  forAll (fun sp => do
    let x ← readSuper sp
    if x.dev ≠ noDev ∧ x.dirt then writeSuperBlock sp) (List.finRange nrSupers)
  forAll (fun bp => do
    let b := (← get).cache.buf bp
    if b.dev ≠ noDev ∧ b.dirt then liftC (flushall b.dev)) (List.finRange nrBufs)
  return OK

/-- What `do_close` does for a special file. -/
def closeSpecial (f : FilpId) (rip : InodeId) : FsM PUnit := do
  let i ← readInode rip
  if i.blockSpec then
    let _ ← doSync
    let busy ← mounted rip
    if busy = false then liftC (invalidate (i.zone 0))
  if (← readFilp f).count = 1 then devClose rip

/-- `do_close()` for descriptor `fd` -/
def doClose (fd : ℤ) : FsM ℤ := do
  match ← getFilp fd with
  | none => errCode
  | some f =>
    let rip ← filpInode f
    let i ← readInode rip
    if i.type = iCharSpecial ∨ i.blockSpec then closeSpecial f rip
    if (← readInode rip).pipe then
      release rip (if (← readFilp f).mode &&& rBit ≠ 0 then writeCall else readCall) nrProcs
    modFilp f fun x => { x with count := x.count - 1 }
    if (← readFilp f).count = 0 then putInodeId rip
    let fp := (← globals).fp
    modProc fp fun p => { p with filp := update p.filp fd.toNat none }
    return OK

/-! ## §4 `misc.c` -/

/-- `f->filp_count++; fp->fp_filp[fd2] = f` -/
def claimFd (f : FilpId) (fd2 : ℕ) : FsM PUnit := do
  modFilp f fun x => { x with count := x.count + 1 }
  let fp := (← globals).fp
  modProc fp fun p => { p with filp := update p.filp fd2 (some f) }

/-- `do_dup()` -/
def doDup (q : Request) : FsM ℤ := do
  let rfd := if q.fd / 64 % 2 = 1 then q.fd - 64 else q.fd
  match ← getFilp rfd with
  | none => errCode
  | some f =>
    if q.fd = rfd then
      match ← getFd 0 0 with
      | .error r => return r
      | .ok (fd2, _) =>
        claimFd f fd2
        return fd2
    else if q.fd2 < 0 ∨ openMax ≤ q.fd2 then return EBADF
    else if rfd = q.fd2 then return q.fd2
    else
      let _ ← doClose q.fd2
      claimFd f q.fd2.toNat
      return q.fd2

/-- `do_fcntl()` -/
def doFcntl (q : Request) : FsM ℤ := do
  match ← getFilp q.fd with
  | none => errCode
  | some f =>
    if q.request = 0 then
      if q.addr < 0 ∨ openMax ≤ q.addr then return EINVAL
      else match ← getFd q.addr.toNat 0 with
        | .error r => return r
        | .ok (newFd, _) =>
          claimFd f newFd
          return newFd
    else if q.request = 3 then return (← readFilp f).flags
    else if q.request = 4 then
      let fl := oNonblock ||| oAppend
      modFilp f fun x =>
        { x with flags := (x.flags ^^^ (x.flags &&& fl)) ||| ((q.addr % 65536).toNat &&& fl) }
      return OK
    else return EINVAL

/-- `dup_inode` of a pointer that is used. -/
def dupPtr : Option InodeId → FsM PUnit
  | none => throw .wildPointer
  | some rip => dupInode rip

/-- `do_fork()` -/
def doFork (q : Request) : FsM ℤ := do
  let g ← globals
  if g.who ≠ mmProcNr then return ERROR
  else
    let p ← readProc q.parent
    modProc q.child fun _ => p
    forAll (fun i => do
      match p.filp i with
      | none => pure ⟨⟩
      | some f => modFilp f fun x => { x with count := x.count + 1 }) (List.range openMax)
    modProc q.child fun c =>
      { c with pid := q.pid, pgrp := if q.parent = initProcNr then q.pid else c.pgrp }
    dupPtr p.rootdir
    dupPtr p.workdir
    return OK

/-- `do_unpause()` for process `pro` -/
def doUnpause (pro : ℤ) : FsM ℤ := do
  let g ← globals
  if mmProcNr < g.who then return EPERM
  else if h : 0 ≤ pro ∧ pro.toNat < nrProcs then
    let p : ProcId := ⟨pro.toNat, toNat_lt_nrProcs h⟩
    let x ← readProc p
    if x.suspended = false then return OK
    else if -x.task = xpipe then return OK
    else
      if -x.task ≠ xopen then
        let fild := x.fd / 256 % 256
        if openMax ≤ fild then throw .unpauseErr2
        else match x.filp fild.toNat with
          | none => throw .wildPointer
          | some f =>
            let _ ← filpInode f
            cancelDev pro
      modProc p fun x => { x with suspended := false }
      reply pro EINTR
      return OK
  else throw .unpauseErr1

/-- `do_exit()` -/
def doExit (q : Request) : FsM ℤ := do
  if (← globals).who ≠ mmProcNr then return ERROR
  else
    modGlobals fun g => { g with fp := q.slot1 }
    let x ← caller
    if x.pid = x.pgrp ∧ x.tty ≠ 0 then ttyExit
    if (← caller).suspended then
      let task := -(← caller).task
      if task = xpipe ∨ task = xopen then
        modGlobals fun g => { g with suspCount := g.suspCount - 1 }
      let _ ← doUnpause q.slot1
      modProc q.slot1 fun x => { x with suspended := false }
    forAll (fun i => do
      modGlobals fun g => { g with fd := i }
      let _ ← doClose i) (List.range openMax)
    let x ← caller
    putInode x.rootdir
    putInode x.workdir
    modProc q.slot1 fun x => { x with rootdir := none, workdir := none }
    return OK

/-- `do_set()` -/
def doSet (q : Request) : FsM ℤ := do
  let g ← globals
  if g.who ≠ mmProcNr then return ERROR
  else
    if g.fsCall = setuidCall then
      modProc q.slot1 fun x => { x with realuid := q.realUserId, effuid := q.effUserId }
    if g.fsCall = setgidCall then
      modProc q.slot1 fun x => { x with effgid := q.effGrpId, realgid := q.realGrpId }
    return OK

/-- `do_revive()` -/
def doRevive (q : Request) : FsM ℤ := do
  if q.fromTask = false ∧ mmProcNr < (← globals).who then return EPERM
  else
    revive q.repProcNr q.repStatus
    modGlobals fun g => { g with dontReply := true }
    return OK

/-! ## §5 `link.c` -/

/-- The second half of `do_link`, for a file that may be linked to. -/
def linkTo (rip : InodeId) : FsM ℤ := do
  match ← lastDir 0 with
  | none =>
    let r ← errCode
    putInodeId rip
    return r
  | some (ip, string) =>
    let newIp ← advance advanceFuel (some ip) string
    let err ← errCode
    putInode newIp
    let r := if newIp ≠ none then EEXIST else if err = ENOENT then OK else err
    let i ← readInode rip
    let r := if r = OK ∧ i.dev ≠ (← readInode ip).dev then EXDEV else r
    let r ← if r = OK then do
        let (r, _) ← searchDir ip string (.enter i.num)
        pure r
      else pure r
    if r = OK then modInode rip fun x => x.moreLinks.soil
    putInodeId rip
    putInodeId ip
    return r

/-- `do_link()` -/
def doLink (q : Request) : FsM ℤ := do
  match ← openPath q.name1 false with
  | none => errCode
  | some rip =>
    let i ← readInode rip
    let g ← globals
    if i.nlinks = linkMax then
      putInodeId rip
      return EMLINK
    else if i.isDir ∧ g.superUser = false then
      putInodeId rip
      return EPERM
    else if (← fetchName q.name2 false) ≠ OK then
      putInodeId rip
      errCode
    else linkTo rip

/-- What `rmdir` asks of the directory. -/
def rmdirCode (rip : InodeId) (string : Name) : FsM ℤ := do
  let i ← readInode rip
  let (r, _) ← searchDir rip emptyName .lookUp
  let s ← get
  let path := s.g.userPath
  let busy := (firstId fun p : ProcId => initProcNr < p ∧
    ((s.fprocs p).workdir = some rip ∨ (s.fprocs p).rootdir = some rip)).isSome
  return if busy then EBUSY
    else if string = dot ∨ string = dotDot then EPERM
    else if path 0 = slash ∧ path 1 = 0 then EPERM
    else if r = OK then ENOTEMPTY
    else if i.isDir = false then ENOTDIR
    else OK

/-- The entries `.` and `..` are removed from a directory that goes away. -/
def emptyDir (rip rldir : InodeId) : FsM ℤ := do
  let i ← readInode rip
  let effuid := (← caller).effuid
  modInode rip fun x => { x with mode := x.mode ||| 0o700, uid := effuid }
  let (r, _) ← searchDir rip dot .delete
  if r = OK then modInode rip Inode.fewerLinks
  let (r1, _) ← searchDir rip dotDot .delete
  if r1 = OK then modInode rldir Inode.fewerLinks
  modInode rip Inode.soil
  modInode rldir Inode.soil
  modInode rip fun x => { x with mode := i.mode, uid := i.uid }
  return if r1 ≠ OK then r1 else r

/-- `unlink` and `rmdir` for a file that exists. -/
def removeEntry (rldir rip : InodeId) (string : Name) : FsM ℤ := do
  let g ← globals
  if g.fsCall = unlinkCall then
    if (← readInode rip).isDir ∧ g.superUser = false then return EPERM
    else
      let (r, _) ← searchDir rldir string .delete
      return r
  else
    let r ← rmdirCode rip string
    if r ≠ OK then return r
    else
      let (r, _) ← searchDir rldir string .delete
      if r ≠ OK then return r else emptyDir rip rldir

/-- `do_unlink()` -/
def doUnlink (q : Request) : FsM ℤ := do
  if (← fetchName q.name true) ≠ OK then errCode
  else match ← lastDir 0 with
    | none => errCode
    | some (rldir, string) =>
      match ← advance advanceFuel (some rldir) string with
      | none =>
        let r ← errCode
        putInodeId rldir
        return r
      | some rip =>
        let oldMode := (← readInode rip).mode
        let r ← removeEntry rldir rip string
        if r = OK then modInode rip fun x => x.fewerLinks.soil
        modInode rip fun x => { x with mode := oldMode }
        putInodeId rip
        putInodeId rldir
        return r

/-- `SAME` -/
def same : ℤ := 1000

/-- `strcmp` and `strncmp` on paths. -/
def isPrefixOf (oldName path : Block) : Bool :=
  (List.range (strlen oldName 65536 0)).all fun i => oldName i = path i

def isPath (path : Block) (l : List UInt8) : Bool :=
  (List.range (l.length + 1)).all fun i => path i = l.getD i 0

/-- The checks of `do_rename` on the inodes. -/
def renameCode (oldDir oldIp newDir : InodeId) (newIp : Option InodeId) (oldName : Block) :
    FsM ℤ := do
  let path := (← globals).userPath
  let f1 ← forbidden oldDir (wBit ||| xBit) false
  let f2 ← forbidden newDir (wBit ||| xBit) false
  let o ← readInode oldIp
  let od ← readInode oldDir
  let nd ← readInode newDir
  let r := if f1 ≠ OK ∨ f2 ≠ OK then EACCES
    else if od.dev ≠ nd.dev then EXDEV
    else if isPath oldName [46] ∨ isPath oldName [46, 46] then EINVAL
    else if isPrefixOf oldName path then EINVAL
    else OK
  match newIp with
  | none => return r
  | some newIp =>
    let n ← readInode newIp
    let r := if o.num = n.num then same
      else if o.isDir = false ∧ n.isDir then EISDIR
      else if o.isDir ∧ n.isDir = false then ENOTDIR
      else r
    if n.isDir then
      let (r', _) ← searchDir newIp emptyName .lookUp
      return if r' = OK then ENOTEMPTY else r
    else return r

/-- The new entry of `do_rename`. -/
def renameEnter (odir : Bool) (numb : ℕ) (newDir : InodeId) (newIp : Option InodeId)
    (string : Name) : FsM ℤ := do
  match newIp with
  | none =>
    let (r, _) ← searchDir newDir string (.enter numb)
    if r = OK ∧ odir then modInode newDir fun x => x.moreLinks.soil
    return r
  | some newIp =>
    let _ ← searchDir newDir string .delete
    let _ ← searchDir newDir string (.enter numb)
    modInode newIp fun x => x.fewerLinks.soil
    if odir then modInode newIp Inode.fewerLinks
    return OK

/-- The old entry of `do_rename` is removed. -/
def renameRemove (odir : Bool) (oldDir oldIp newDir : InodeId) (oldString : Name) : FsM PUnit := do
  if odir then
    modInode oldDir fun x => x.fewerLinks.soil
    let numb := (← readInode newDir).num
    let _ ← searchDir oldIp dotDot .delete
    let _ ← searchDir oldIp dotDot (.enter numb)
  let _ ← searchDir oldDir oldString .delete
  modInode oldDir fun x => { x with update := ctime ||| mtime }
  modInode newDir fun x => { x with update := ctime ||| mtime }

/-- The part of `do_rename` that changes directories. -/
def renameDirs (oldDir oldIp newDir : InodeId) (newIp : Option InodeId)
    (oldName : Block) (oldString string : Name) : FsM ℤ := do
  let r ← renameCode oldDir oldIp newDir newIp oldName
  if r ≠ OK then return r
  else
    let o ← readInode oldIp
    let r ← renameEnter o.isDir o.num newDir newIp string
    if r = OK then renameRemove o.isDir oldDir oldIp newDir oldString
    return r

/-- `do_rename()`; when the new name cannot be followed its last component is not looked up. -/
def doRename (q : Request) : FsM ℤ := do
  if (← fetchName q.name1 false) ≠ OK then errCode
  else match ← lastDir 0 with
    | none => errCode
    | some (oldDir, oldString) =>
      let oldIp ← advance advanceFuel (some oldDir) oldString
      let r ← if oldIp = none then errCode else pure OK
      let oldName := (← globals).userPath
      let fetched ← fetchName q.name2 false
      let r ← if fetched ≠ OK then errCode else pure r
      match ← lastDir 0 with
      | none =>
        let r ← errCode
        putInodeId oldDir
        putInode oldIp
        return r
      | some (newDir, string) =>
        let newIp ← advance advanceFuel (some newDir) string
        let r ← match oldIp with
          | none => pure r
          | some oldIp =>
            if r = OK then renameDirs oldDir oldIp newDir newIp oldName oldString string
            else pure r
        putInodeId oldDir
        putInode oldIp
        putInodeId newDir
        putInode newIp
        return if r = same then OK else r

/-! ## §6 `mount.c` -/

/-- `name_to_dev(path)` -/
def nameToDev : FsM ℕ := do
  match ← eatPath 0 with
  | none => return noDev
  | some rip =>
    let i ← readInode rip
    if i.blockSpec = false then setErr ENOTBLK
    putInodeId rip
    return if i.blockSpec then i.zone 0 else noDev

/-- A slot of the super block table is given up. -/
def dropSuper (sp : SuperId) : FsM PUnit := modSuper sp fun x => { x with dev := noDev }

/-- What `do_mount` finds wrong with the file mounted on. -/
def busyCode (i : Inode) : ℤ :=
  if i.type = iBlockSpecial ∨ i.type = iCharSpecial then ENOTDIR
  else if 1 < i.count then EBUSY
  else OK

/-- The root inode of the file system that is mounted. -/
def mountRoot (rip : InodeId) (dev : ℕ) : FsM (ℤ × Option InodeId) := do
  let r := busyCode (← readInode rip)
  if r ≠ OK then return (r, none)
  else match ← getInode dev rootInode with
    | none => return (← errCode, none)
    | some root => return (if (← readInode root).mode = 0 then EINVAL else OK, some root)

/-- The maps are loaded, and the types of the two inodes compared. -/
def mountMaps (rip : InodeId) (root : Option InodeId) (dev : ℕ) : FsM ℤ := do
  if (← loadBitMaps dev) ≠ OK then
    modGlobals fun g => { g with refusals := g.refusals + 1 }
    return ENFILE
  else match root with
    | none => throw .wildPointer
    | some root =>
      let i ← readInode rip
      let x ← readInode root
      return if i.isDir ∧ x.isDir = false then ENOTDIR else OK

/-- `do_mount` after the file mounted on has been found. -/
def mountOn (q : Request) (sp : SuperId) (dev : ℕ) (rip : InodeId) : FsM ℤ := do
  let (r, root) ← mountRoot rip dev
  let loaded := r = OK
  let r ← if loaded then mountMaps rip root dev else pure r
  if r ≠ OK then
    putInodeId rip
    putInode root
    if loaded then unloadBitMaps dev
    let _ ← doSync
    liftC (invalidate dev)
    dropSuper sp
    return r
  else
    modInode rip fun x => { x with mount := true }
    modSuper sp fun x =>
      { x with
        imount := .to rip
        isup := match root with
          | none => .nil
          | some root => .to root
        rdOnly := q.rdOnly }
    return OK

/-- `do_mount` in slot `sp`. -/
def mountSuper (q : Request) (sp : SuperId) (dev : ℕ) : FsM ℤ := do
  modSuper sp fun x => { x with dev := dev }
  readSuperBlock sp
  let x ← readSuper sp
  if x.magic ≠ superMagic ∨ x.ninodes < 1 ∨ x.nzones < 1 ∨ x.imapBlocks < 1 ∨ x.zmapBlocks < 1 then
    dropSuper sp
    return EINVAL
  else match ← openPath q.name2 false with
    | none =>
      dropSuper sp
      errCode
    | some rip => mountOn q sp dev rip

/-- `do_mount()` -/
def doMount (q : Request) : FsM ℤ := do
  if (← globals).superUser = false then return EPERM
  else if (← fetchName q.name1 false) ≠ OK then errCode
  else
    let dev ← nameToDev
    if dev = noDev then errCode
    else
      let s ← get
      if (firstId fun sp => (s.supers sp).dev = dev).isSome then return EBUSY
      else match lastId fun sp => (s.supers sp).dev = noDev with
        | none => return ENFILE
        | some sp => mountSuper q sp dev

/-- The uses of inodes of a device. -/
def usesOf (s : FsState) (dev : ℕ) : ℤ :=
  ((List.finRange nrInodes).map fun i =>
    if 0 < (s.inodes i).count ∧ (s.inodes i).dev = dev then (s.inodes i).count else 0).sum

/-- A pointer to an inode that is used. -/
def derefInode : Ptr InodeId → FsM InodeId
  | .to rip => pure rip
  | _ => throw .wildPointer

/-- `put_inode` of a pointer in a super block. -/
def putInodePtr : Ptr InodeId → FsM PUnit
  | .nil => pure ⟨⟩
  | .to rip => putInodeId rip
  | .wild _ => throw .wildPointer

/-- The end of `do_umount`. -/
def unmountSuper (sp : SuperId) : FsM ℤ := do
  let x ← readSuper sp
  let rip ← derefInode x.imount
  modInode rip fun x => { x with mount := false }
  putInodeId rip
  putInodePtr (← readSuper sp).isup
  modSuper sp fun x => { x with imount := .nil, dev := noDev }
  return OK

/-- `do_umount()` -/
def doUmount (q : Request) : FsM ℤ := do
  if (← globals).superUser = false then return EPERM
  else if (← fetchName q.name true) ≠ OK then errCode
  else
    let dev ← nameToDev
    if dev = noDev then errCode
    else
      let s ← get
      if 1 < usesOf s dev then return EBUSY
      else
        let sp := firstId fun sp => (s.supers sp).dev = dev
        if sp.isSome then unloadBitMaps dev
        let _ ← doSync
        liftC (invalidate dev)
        match sp with
        | none => return EINVAL
        | some sp => unmountSuper sp

/-! ## §7 `stadir.c`, `time.c`, `protect.c` -/

/-- `change(iip, name_ptr, len)` -/
def change (q : Request) (old : Fproc → Option InodeId) (new : Option InodeId → Fproc → Fproc) :
    FsM ℤ := do
  match ← openPath q.name true with
  | none => errCode
  | some rip =>
    let r ← if (← readInode rip).isDir then forbidden rip xBit false else pure ENOTDIR
    if r ≠ OK then
      putInodeId rip
      return r
    else
      putInode (old (← caller))
      let fp := (← globals).fp
      modProc fp (new (some rip))
      return OK

/-- `do_chdir()` -/
def doChdir (q : Request) : FsM ℤ := do
  let g ← globals
  if g.who = mmProcNr then
    putInode (← caller).workdir
    let r ← readProc q.slot1
    modProc g.fp fun p =>
      { p with
        workdir := if q.cdFlag then p.rootdir else r.workdir
        effuid := if q.cdFlag then suUid else r.effuid }
    dupPtr (← caller).workdir
    return OK
  else change q Fproc.workdir fun d p => { p with workdir := d }

/-- `do_chroot()` -/
def doChroot (q : Request) : FsM ℤ := do
  if (← globals).superUser = false then return EPERM
  else change q Fproc.rootdir fun d p => { p with rootdir := d }

/-- The bytes of words and of longs. -/
def wordBytes (n : ℕ) : List UInt8 := [UInt8.ofNat (n / 256), UInt8.ofNat n]

def longBytes (n : ℤ) : List UInt8 :=
  let m := (n % 2 ^ 32).toNat
  wordBytes (m / 65536) ++ wordBytes m

/-- `struct stat` -/
def statBytes (i : Inode) (size : ℤ) : List UInt8 :=
  ([i.dev, i.num, i.mode, i.nlinks, i.uid, i.gid, i.zone 0].flatMap wordBytes) ++
    ([size, i.atime, i.mtime, i.ctime].flatMap longBytes)

/-- `stat_inode(rip, fil_ptr, user_addr)` -/
def statInode (rip : InodeId) (filPtr : Option FilpId) (addr : ℕ) : FsM ℤ := do
  if (← readInode rip).update ≠ 0 then updateTimes rip
  let i ← readInode rip
  let s ← get
  let size := match filPtr with
    | none => i.size
    | some f => if i.pipe ∧ (s.filps f).mode = rBit then i.size - (s.filps f).pos else i.size
  let r ← nextCopy
  if r = OK then
    modGlobals fun g => { g with toUser := (g.who, addr, statBytes i size) :: g.toUser }
  return r

/-- `do_stat()` -/
def doStat (q : Request) : FsM ℤ := do
  match ← openPath q.name1 false with
  | none => errCode
  | some rip =>
    let r ← statInode rip none q.name2.addr
    putInodeId rip
    return r

/-- `do_fstat()` -/
def doFstat (q : Request) : FsM ℤ := do
  match ← getFilp q.fd with
  | none => errCode
  | some f =>
    let rip ← filpInode f
    statInode rip (some f) q.buffer

/-- `do_utime()` -/
def doUtime (q : Request) : FsM ℤ := do
  match ← openPath q.name1 false with
  | none => errCode
  | some rip =>
    let i ← readInode rip
    let g ← globals
    let fp ← caller
    let ro ← readOnly rip
    let r := if ro ≠ OK then EROFS
      else if i.uid ≠ fp.effuid ∧ g.superUser = false then EPERM
      else OK
    if r = OK then modInode rip fun x => { x with mtime := q.updatedTime, dirt := true }
    putInodeId rip
    return r

/-- `do_time()` -/
def doTime : FsM ℤ := do
  let now ← clockTime
  modGlobals fun g => { g with out := [now] }
  return OK

/-- `do_stime()`; the time is kept by the clock task. -/
def doStime : FsM ℤ := do
  if (← globals).superUser = false then return EPERM else return OK

/-- `do_chmod()` -/
def doChmod (q : Request) : FsM ℤ := do
  match ← openPath q.name true with
  | none => errCode
  | some rip =>
    let i ← readInode rip
    let g ← globals
    let fp ← caller
    let r ← if i.uid ≠ fp.effuid ∧ g.superUser = false then pure EPERM else readOnly rip
    if r ≠ OK then
      putInodeId rip
      return r
    else
      modInode rip fun x =>
        { x with
          mode := (x.mode ^^^ (x.mode &&& allModes)) ||| (q.mode &&& allModes)
          dirt := true }
      putInodeId rip
      return OK

/-- `do_chown()` -/
def doChown (q : Request) : FsM ℤ := do
  if (← globals).superUser = false then return EPERM
  else match ← openPath q.name1 false with
    | none => errCode
    | some rip =>
      let r ← readOnly rip
      if r = OK then
        modInode rip fun x => { x with uid := q.owner, gid := q.group % 256, dirt := true }
      putInodeId rip
      return r

/-- `do_umask()` -/
def doUmask (q : Request) : FsM ℤ := do
  let g ← globals
  let old := (← caller).umask
  modProc g.fp fun p => { p with umask := 65535 - (q.coMode &&& rwxModes) }
  return (65535 - old : ℕ)

/-- `do_access()` -/
def doAccess (q : Request) : FsM ℤ := do
  match ← openPath q.name true with
  | none => errCode
  | some rip =>
    let r ← forbidden rip q.mode true
    putInodeId rip
    return r

/-! ## §8 `do_pipe` and `do_ioctl` -/

/-- A descriptor that `do_pipe` has got is given up. -/
def dropFd (k : ℕ) (f : FilpId) : FsM PUnit := do
  let fp := (← globals).fp
  modProc fp fun p => { p with filp := update p.filp k none }
  modFilp f fun x => { x with count := 0 }

/-- A descriptor that `do_pipe` has got. -/
def takeFd (k : ℕ) (f : FilpId) : FsM PUnit := do
  let fp := (← globals).fp
  modProc fp fun p => { p with filp := update p.filp k (some f) }
  modFilp f fun x => { x with count := 1 }

/-- `do_pipe()` -/
def doPipe : FsM ℤ := do
  match ← getFd 0 rBit with
  | .error r => return r
  | .ok (fd0, f0) =>
    takeFd fd0 f0
    match ← getFd 0 wBit with
    | .error r =>
      dropFd fd0 f0
      return r
    | .ok (fd1, f1) =>
      takeFd fd1 f1
      match (← caller).workdir with
      | none => throw .wildPointer
      | some dir =>
        match ← allocInode (← readInode dir).dev iRegular with
        | none =>
          dropFd fd0 f0
          dropFd fd1 f1
          errCode
        | some rip =>
          modInode rip fun x => { x with pipe := true }
          modFilp f0 fun x => { x with ino := some rip }
          dupInode rip
          modFilp f1 fun x => { x with ino := some rip }
          rwInode rip .writing
          modGlobals fun g => { g with out := [fd0, fd1] }
          return OK

/-- `do_ioctl()` -/
def doIoctl (q : Request) : FsM ℤ := do
  match ← getFilp q.fd with
  | none => errCode
  | some f =>
    let rip ← filpInode f
    let i ← readInode rip
    if i.type ≠ iCharSpecial then return ENOTTY
    else
      liftC (findDev (i.zone 0))
      rwDev

end LisaMinix.Fs.Server
