import LisaMinix.Mm.Mproc

/-!
# The Calls Handled by the Memory Manager

Model of `break.c`, `exec.c`, `forkexit.c`, `signal.c`, `trace.c` and the main loop of
`main.c`, as built for the Lisa (`CHIP == M68000`, no shadowing).

Calls to FS (`tell_fs`) do not change MM's tables and are left out, and so are the contents
of memory: `load_seg`, `patch_ptr` and the copies made by `mem_copy`.  Whether a copy from
the user or an access to the executable file succeeds is part of the request.
-/

namespace LisaMinix.Mm

open Function

/-! ## §1 `break.c` -/

/-- `SAFETY_CLICKS`. -/
def safetyClicks : ℕ := 6

/-- `size_ok`; the test of page sizes is not compiled in. -/
def sizeOk (dc dvir sVir : ℕ) : Bool := !(sVir < toClicks (dvir + dc))

/-- The map with a data segment of `dataClicks`, and the stack grown downwards by `grow`. -/
def adjustedSeg (seg : MemMaps) (dataClicks grow : ℕ) : MemMaps :=
  { seg with
    data := { seg.data with memLen := dataClicks }
    stack :=
      { memVir := seg.stack.memVir - grow
        memPhys := subClicks seg.stack.memPhys grow
        memLen := toClicks (seg.stack.memLen + grow) } }

/-- `adjust(rmp, data_clicks, sp)`. -/
def adjust (s : MmState) (p : ProcNr) (dataClicks : ℕ) (sp : ℤ) : MmState × ℤ :=
  let seg := (s.mproc p).seg
  let spClick := clickOf sp
  -- `delta`, or 0 when the stack pointer is still inside the stack
  let grow := seg.stack.memVir - spClick
  if p = initProcNr then (s, ok)
  else if seg.stack.memVir + seg.stack.memLen ≤ spClick then (s, enomem)
  else if seg.stack.memVir - grow < toClicks (seg.data.memVir + dataClicks + safetyClicks) then
    (s, enomem)
  else if sizeOk dataClicks seg.data.memVir (seg.stack.memVir - grow) then
    let seg' := adjustedSeg seg dataClicks grow
    let s' := s.modify p fun m => { m with seg := seg' }
    (if dataClicks ≠ seg.data.memLen ∨ 0 < grow then sysNewmap s' p seg' else s', ok)
  else (s, enomem)

/-- `do_brk()`. -/
def doBrk (s : MmState) (env : Env) (who : ProcNr) (addr : ℤ) : MmState × ℤ :=
  let newClicks := clicksOf addr
  let dataVir := (s.mproc who).seg.data.memVir
  if newClicks < dataVir then (s, enomem)
  else adjust s who (newClicks - dataVir) (env.sp who)

/-! ## §2 `forkexit.c` -/

/-- Turn flags off when a slot is released: the child's part of "Update flags". -/
def Mproc.released (m : Mproc) : Mproc :=
  { m with traced := false, hanging := false, paused := false, inUse := false }

/-- What `cleanup` tells the parent: the pid and the status of the child. -/
def Mproc.report (m : Mproc) : Reply := ⟨m.parent, m.pid, m.sigstatus % 256 + m.exitstatus * 256⟩

/-- The first half of `cleanup`: wake up the parent, update the flags, release the slot. -/
def releaseSlot (s : MmState) (child : ProcNr) : MmState :=
  let c := s.mproc child
  let s := reply s c.report.procNr c.report.result c.report.res2
  let s := s.modify c.parent fun m => { m with waiting := false }
  let s := (s.modify child Mproc.released).note (.released child c.report)
  { s with procsInUse := s.procsInUse - 1 }

/-- `cleanup(child)`: release the slot, and let INIT take over the children.  It calls
itself when INIT was waiting and inherits a zombie; `fuel` bounds the depth of these calls. -/
def cleanup : ℕ → MmState → ProcNr → Except Fault MmState
  | 0, _, _ => .error .endless
  | fuel + 1, s, child =>
    let s := releaseSlot s child
    let disinherit (st : MmState × Bool) (rp : ProcNr) : Except Fault (MmState × Bool) :=
      if (st.1.mproc rp).parent = child then
        let s := (st.1.modify rp fun m => { m with parent := initProcNr }).note (.adopted rp)
        if st.2 && (s.mproc rp).hanging then (cleanup fuel s rp).map fun s => (s, false)
        else .ok (s, st.2)
      else .ok st
    ((List.finRange nrProcs).foldlM disinherit (s, (s.mproc initProcNr).waiting)).map Prod.fst

/-- The first part of `mm_exit`: if the parent is waiting, clean up the slot, else hang. -/
def leaveSlot (s : MmState) (p : ProcNr) : Except Fault MmState :=
  if (s.mproc (s.mproc p).parent).waiting then cleanup nrProcs s p
  else .ok ((s.modify p fun m => { m with hanging := true }).note (.hung p))

/-- `mm_exit(rmp, exit_status)`. -/
def mmExit (s : MmState) (p : ProcNr) (exitStatus : ℤ) : Except Fault MmState := do
  let s ← leaveSlot ((s.modify p fun m => { m with exitstatus := (exitStatus % 256).toNat }).note
    (.ended p (s.mproc p).sigstatus (exitStatus % 256).toNat)) p
  let s := s.modify p fun m => { m with alarmOn := false }
  let (s, base, size) ← sysXit s p
  releaseMem s base size

/-- The first slot that is not in use. -/
def freeSlot (s : MmState) : Option ProcNr :=
  (List.finRange nrProcs).find? fun p => !(s.mproc p).inUse

/-- `next_pid = (next_pid < 30000 ? next_pid + 1 : INIT_PID + 1)`. -/
def succPid (n : ℤ) : ℤ := if n < 30000 then n + 1 else initPid + 1

/-- Some slot, in use or not, still has `n` as pid or process group. -/
def pidTaken (s : MmState) (n : ℤ) : Bool :=
  (List.finRange nrProcs).any fun p => (s.mproc p).pid == n || (s.mproc p).procgrp == n

/-- The loop of `do_fork` that finds a pid for the child; the pid tried last is in the
child's slot while the next one is tried. -/
def findPid : ℕ → MmState → ProcNr → Except Fault MmState
  | 0, _, _ => .error .endless
  | fuel + 1, s, child =>
    let n := succPid s.nextPid
    let taken := pidTaken s n
    let s := { s.modify child fun m => { m with pid := n } with nextPid := n }
    if taken then findPid fuel s child else .ok s

/-- The memory of a process, from the start of its text to the end of its stack. -/
def progClicks (seg : MemMaps) : ℕ :=
  toClicks (seg.stack.memLen + subClicks seg.stack.memVir seg.data.memVir + seg.text.memLen)

/-- The map of a child whose image is at `base`. -/
def childSeg (seg : MemMaps) (base : ℕ) : MemMaps :=
  let dataPhys := toClicks (base + seg.text.memLen)
  { text := { seg.text with memPhys := base }
    data := { seg.data with memPhys := dataPhys }
    stack := { seg.stack with
      memPhys := toClicks (dataPhys + subClicks seg.stack.memPhys seg.data.memPhys) } }

/-- The second half of `do_fork`: set up the slot `child` for a copy of `who` at `base`, find
a pid, and tell the kernel. -/
def copySlot (s : MmState) (who child : ProcNr) (base : ℕ) : Except Fault MmState :=
  let rmp := s.mproc who
  let s := { (s.set child { rmp with
      parent := who, traced := false, exitstatus := 0, sigstatus := 0
      seg := childSeg rmp.seg base }).note (.born child who) with procsInUse := s.procsInUse + 1 }
  (findPid 30000 s child).map fun s =>
    let s := if who = initProcNr then
      s.modify child fun m => { m with procgrp := m.pid } else s
    reply (sysFork s who child base) child 0 0

/-- `do_fork()`. -/
def doFork (s : MmState) (who : ProcNr) : Except Fault (MmState × ℤ) :=
  let rmp := s.mproc who
  let clicks := progClicks rmp.seg
  if s.procsInUse = nrProcs then .ok (s, eagain)
  -- the last few slots are reserved for the super-user
  else if nrProcs - 2 ≤ s.procsInUse ∧ rmp.effuid ≠ superUser then .ok (s, eagain)
  else allocMem s.holes clicks >>= fun (holes, base) =>
    if base = noMem then .ok ({ s with holes := holes }, eagain)
    else
      let s := { s with holes := holes, events := .alloc ⟨base, clicks⟩ :: s.events }
      match freeSlot s with
      | none => .error .wildPointer
      | some child => (copySlot s who child base).map fun s => (s, s.nextPid)

/-- `do_mm_exit()`; the terminated process gets no reply. -/
def doMmExit (s : MmState) (who : ProcNr) (status : ℤ) : Except Fault MmState :=
  mmExit s who status

/-- The loop of `do_wait`: the first child that can be reported, or whether there is any. -/
def waitLoop (s : MmState) (who : ProcNr) :
    List ProcNr → Bool → Except Fault (MmState × Option ℤ)
  | [], children =>
    if children then .ok (s.modify who fun m => { m with waiting := true }, none)
    else .ok (s, some echild)
  | rp :: rest, children =>
    let m := s.mproc rp
    if m.inUse && m.parent == who then
      if m.hanging then (cleanup nrProcs s rp).map fun s => (s, none)
      else if m.stopped && m.sigstatus != 0 then
        let s := reply s who m.pid (127 + m.sigstatus * 256)
        .ok (s.modify rp fun m => { m with sigstatus := 0 }, none)
      else waitLoop s who rest true
    else waitLoop s who rest children

/-- `do_wait()`; the result is `none` when the caller gets no reply now. -/
def doWait (s : MmState) (who : ProcNr) : Except Fault (MmState × Option ℤ) :=
  waitLoop s who (List.finRange nrProcs) false

/-! ## §3 `exec.c` -/

/-- What `do_exec` reads of an executable file: the header, and the owner if the set-uid
bit is on. -/
structure ExecFile where
  separate : Bool
  textb : ℤ
  datab : ℤ
  bssb : ℤ
  totb : ℤ
  setUid : Option ℕ

/-- The request `exec`: the size of the stack image, the file or why it cannot be executed,
and whether the stack image can be fetched from the caller. -/
structure ExecCall where
  stackBytes : ℤ
  file : Except ℤ ExecFile
  fetched : Bool

/-- The sizes of an image in clicks. -/
structure ImageSizes where
  text : ℕ
  data : ℕ
  stack : ℕ
  tot : ℕ

/-- `ARG_MAX`. -/
def argMax : ℤ := 4096

/-- The sizes that `read_header` and `new_mem` compute.  Unless I and D are separate, an
incomplete click of text at the end is treated as data. -/
def ExecFile.sizes (f : ExecFile) (stackBytes : ℤ) : ImageSizes :=
  let textBytes := if f.separate then f.textb else f.textb / 256 * 256
  { text := clicksOf textBytes
    data := clicksOf (if f.separate then f.datab + f.bssb
      else f.datab + f.textb - textBytes + f.bssb)
    stack := clicksOf stackBytes
    tot := clicksOf (if f.separate then f.totb else f.totb - textBytes) }

/-- The checks of `read_header`. -/
def readHeader (f : ExecFile) (z : ImageSizes) : Bool :=
  let dvir := if f.separate then 0 else z.text
  f.totb != 0 && z.data < z.tot && sizeOk z.data dvir (toClicks (dvir + subClicks z.tot z.stack))

/-- The gap between data and stack. -/
def ImageSizes.gap (z : ImageSizes) : ℕ := subClicks (subClicks z.tot z.data) z.stack

/-- The map of a new image at `base`. -/
def ImageSizes.seg (z : ImageSizes) (base : ℕ) : MemMaps :=
  let dataPhys := toClicks (base + z.text)
  { text := ⟨0, base, z.text⟩
    data := ⟨z.text, dataPhys, z.data⟩
    stack := ⟨toClicks (z.text + z.data + z.gap), toClicks (dataPhys + z.data + z.gap), z.stack⟩ }

/-- The second half of `new_mem`: set up and report the new map, and free what the kernel
says was the old image. -/
def replaceImage (s : MmState) (who : ProcNr) (seg : MemMaps) : Except Fault MmState :=
  sysFresh (s.modify who fun m => { m with seg := seg }) who seg >>= fun (s, base, size) =>
    releaseMem s base size

/-- `new_mem`: allocate the new image, then release the old one. -/
def newMem (s : MmState) (who : ProcNr) (z : ImageSizes) : Except Fault (MmState × ℤ) :=
  let clicks := toClicks (z.text + z.tot)
  -- `(int) gap_clicks < 0`
  if 32768 ≤ z.gap then .ok (s, enomem)
  else allocForExec s.holes clicks >>= fun
    | (_, none) => .ok (s, eagain)
    | (holes, some base) =>
      let s := { s with holes := holes, events := .alloc ⟨base, clicks⟩ :: s.events }
      (replaceImage s who (z.seg base)).map fun s => (s, ok)

/-- The last part of `do_exec`: the set-uid bit (not while traced), and the flags. -/
def finishExec (s : MmState) (who : ProcNr) (f : ExecFile) : MmState :=
  s.modify who fun m =>
    { m with
      effuid := if m.traced then m.effuid else f.setUid.getD m.effuid
      caught := fun _ => false
      separate := f.separate }

/-- `do_exec()`. -/
def doExec (s : MmState) (who : ProcNr) (call : ExecCall) : Except Fault (MmState × ℤ) :=
  if argMax < call.stackBytes then .ok (s, enomem)
  else match call.file with
  | .error e => .ok (s, e)
  | .ok f =>
    let z := f.sizes call.stackBytes
    if !readHeader f z then .ok (s, enoexec)
    -- `mem_copy` of no bytes succeeds, of a negative number of bytes it fails
    else if call.stackBytes < 0 || (call.stackBytes != 0 && !call.fetched) then .ok (s, eacces)
    else (newMem s who z).map fun (s, r) => (if r = ok then finishExec s who f else s, r)

/-! ## §4 `signal.c` -/

def sigint : ℕ := 2
def sigquit : ℕ := 3
def sigkill : ℕ := 9
def sigbus : ℕ := 10
def sigsegv : ℕ := 11
def sigalrm : ℕ := 14
def sigstkflt : ℕ := 16

/-- `_NSIG`. -/
def nsig : ℕ := 16

/-- `SIG_PUSH_BYTES`. -/
def sigPushBytes : ℤ := 8

/-- `core_bits`. -/
def coreBits : ℕ := 0x0EFC

/-- `stop_proc(rmp, sig_nr)`: the kernel refuses to stop a process that is gone. -/
def stopProc (s : MmState) (p : ProcNr) (sigNr : ℕ) : MmState :=
  let m := s.mproc p
  if s.slotFree p then s
  else
    let s := s.modify p fun m => { m with stopped := true }
    if (s.mproc m.parent).waiting then
      let s := s.modify m.parent fun m => { m with waiting := false }
      reply s m.parent m.pid (127 + sigNr * 256)
    else s.modify p fun m => { m with sigstatus := sigNr }

/-- The default action of `sig_proc`. -/
def killProc (s : MmState) (env : Env) (p : ProcNr) (sigNr : ℕ) : Except Fault MmState :=
  let dump := coreBits.testBit (sigNr - 1) && env.dumped p
  mmExit (s.modify p fun m => { m with sigstatus := sigNr + if dump then 128 else 0 }) p 0

/-- `sig_proc(rmp, sig_nr)`. -/
def sigProc (s : MmState) (env : Env) (p : ProcNr) (sigNr : ℕ) : Except Fault MmState :=
  let m := s.mproc p
  if !m.inUse then .ok s
  else if m.traced && sigNr != sigkill then .ok (stopProc s p sigNr)
  else if m.caught sigNr then
    let s := s.modify p fun m => { m with caught := update m.caught sigNr false }
    let (s, r) := adjust s p m.seg.data.memLen (env.sp p - sigPushBytes)
    if r = ok then .ok s else killProc s env p sigNr
  else killProc s env p sigNr

/-- `unpause(pro)`; a process that hangs on neither PAUSE nor WAIT is left to FS. -/
def unpause (s : MmState) (p : ProcNr) : MmState :=
  let m := s.mproc p
  if m.paused && !m.hanging then reply (s.modify p fun m => { m with paused := false }) p eintr 0
  else if m.waiting && !m.hanging then
    reply (s.modify p fun m => { m with waiting := false }) p eintr 0
  else s

/-- The tests of `check_sig` that set `send_sig`, in their order: the later ones override. -/
def sendSig (s : MmState) (mp : ProcNr) (procId : ℤ) (sigNr sendUid : ℕ) (p : ProcNr) : Bool :=
  let m := s.mproc p
  if m.pid == initPid && sigNr == sigkill then false
  else if m.pid == initPid && procId == -1 then false
  else if sendUid == superUser && procId == -1 then true
  else !(procId == 0 && (s.mproc mp).procgrp != m.procgrp) && !m.hanging &&
    !(0 < procId && procId != m.pid) && !(sendUid != m.effuid && sendUid != superUser)

/-- The loop of `check_sig`, with the number of processes that were sent the signal. -/
def checkSigLoop (env : Env) (mp : ProcNr) (procId : ℤ) (sigNr sendUid : ℕ) :
    List ProcNr → MmState → ℕ → Except Fault (MmState × ℕ)
  | [], s, count => .ok (s, count)
  | p :: rest, s, count =>
    let m := s.mproc p
    let send := sendSig s mp procId sigNr sendUid p
    if !m.inUse then checkSigLoop env mp procId sigNr sendUid rest s count
    else if sigNr == sigalrm && !m.alarmOn then
      checkSigLoop env mp procId sigNr sendUid rest s count
    else if !send then checkSigLoop env mp procId sigNr sendUid rest s count
    else
      -- the timer has gone off
      let s := if sigNr == sigalrm then s.modify p fun m => { m with alarmOn := false } else s
      if m.ignore sigNr then checkSigLoop env mp procId sigNr sendUid rest s (count + 1)
      else do
        let s ← sigProc s env p sigNr
        let s := unpause s p
        if 0 < procId then return (s, count + 1)
        else checkSigLoop env mp procId sigNr sendUid rest s (count + 1)

/-- The slots from INIT on. -/
def userSlots : List ProcNr := (List.finRange nrProcs).filter fun p => initProcNr ≤ p

/-- `check_sig(proc_id, sig_nr, send_uid)`. -/
def checkSig (s : MmState) (env : Env) (mp : ProcNr) (procId : ℤ) (sigNr sendUid : ℕ) :
    Except Fault (MmState × ℤ) :=
  if sigNr < 1 || nsig < sigNr then .ok (s, einval)
  else (checkSigLoop env mp procId sigNr sendUid userSlots s 0).map fun (s, count) =>
    (s, if 0 < count then ok else esrch)

/-- `do_kill()`; the result is `none` if the caller has killed itself. -/
def doKill (s : MmState) (env : Env) (who : ProcNr) (pid : ℤ) (sig : ℕ) :
    Except Fault (MmState × Option ℤ) :=
  (checkSig s env who pid sig (s.mproc who).effuid).map fun (s, r) =>
    let m := s.mproc who
    (s, if (!m.inUse || m.hanging) && (1 ≤ sig && sig ≤ nsig) then none else some r)

/-- `stack_fault(proc_nr)`. -/
def stackFault (s : MmState) (env : Env) (p : ProcNr) : Except Fault MmState :=
  let (s, r) := adjust s p (s.mproc p).seg.data.memLen (env.sp p - 256)
  if r = ok then .ok s
  else sigProc (s.modify p fun m => { m with caught := fun _ => false }) env p sigsegv

/-- One round of the loop of `do_ksig`: signal `j` for the process `p`. -/
def ksigOne (env : Env) (p : ProcNr) (procId : ℤ) (j : ℕ) (s : MmState) : Except Fault MmState :=
  let id := if j == sigkill then -1 else if j == sigint || j == sigquit then 0 else procId
  -- a memory fault cannot be caught or ignored: the instruction cannot be restarted
  let s := if j == sigsegv || j == sigbus then
    s.modify p fun m =>
      { m with
        caught := update m.caught j false
        ignore := update m.ignore j false } else s
  (checkSig s env mmProcNr id j superUser).map Prod.fst

/-- The signals of a bit map, in the order in which `do_ksig` looks at them.  Bit 15 is the
pseudo-signal SIGSTKFLT, which is not one of them. -/
def sigsOf (sigMap : ℕ) : List ℕ :=
  (List.range' 1 (nsig - 1)).filter fun j => sigMap.testBit (j - 1)

/-- `do_ksig()` for process `p` with the bit map `sigMap`, a message from the kernel. -/
def doKsig (s : MmState) (env : Env) (p : ProcNr) (sigMap : ℕ) : Except Fault MmState :=
  let m := s.mproc p
  if !m.inUse || m.hanging then .ok s
  else
    let s := s.modify mmProcNr fun mm => { mm with procgrp := m.procgrp }
    (if sigMap = 2 ^ (sigstkflt - 1) then stackFault s env p else .ok s) >>= fun s =>
      (sigsOf sigMap).foldlM (fun s j => ksigOne env p m.pid j s) s

/-- The argument `func` of `signal`. -/
inductive SigFunc
  | sigDfl
  | sigIgn
  | handler
  deriving DecidableEq

/-- `do_signal()`. -/
def doSignal (s : MmState) (who : ProcNr) (sig : ℕ) (func : SigFunc) : MmState × ℤ :=
  if sig < 1 || nsig < sig then (s, einval)
  else if sig = sigkill then (s, ok)
  else
    let ignored := (s.mproc who).ignore sig
    let s := s.modify who fun m =>
      { m with
        ignore := update m.ignore sig (func == .sigIgn)
        caught := update m.caught sig (func == .handler) }
    (s, if ignored then 1 else ok)

/-- `do_alarm()`: the flag kept by MM; the clock task keeps the time. -/
def doAlarm (s : MmState) (who : ProcNr) (seconds : ℕ) : MmState :=
  s.modify who fun m => { m with alarmOn := seconds != 0 }

/-- `do_pause()`. -/
def doPause (s : MmState) (who : ProcNr) : MmState :=
  s.modify who fun m => { m with paused := true }

/-- `do_getset()` for SETUID. -/
def doSetuid (s : MmState) (who : ProcNr) (uid : ℕ) : MmState × ℤ :=
  let m := s.mproc who
  if m.realuid ≠ uid ∧ m.effuid ≠ superUser then (s, eperm)
  else (s.modify who fun m => { m with realuid := uid, effuid := uid }, ok)

/-! ## §5 `trace.c` -/

/-- `findproc(lpid)`. -/
def findproc (s : MmState) (pid : ℤ) : Option ProcNr :=
  (List.finRange nrProcs).find? fun p =>
    initProcNr < p && (s.mproc p).inUse && (s.mproc p).pid == pid

/-- What the kernel answers to `sys_trace(request, child, ...)`. -/
def sysTrace (s : MmState) (env : Env) (request : ℤ) (child : ProcNr) : Bool :=
  !s.slotFree child && (request == 7 || request == 9 || env.traceOk)

/-- The request to resume execution: a signal may be issued first, and it is not to be
diverted to the tracing parent. -/
def resume (s : MmState) (env : Env) (child : ProcNr) (data : ℤ) : Except Fault MmState :=
  if 0 < data then
    (sigProc (s.modify child fun m => { m with traced := false }) env child data.toNat).map fun s =>
      s.modify child fun m => { m with traced := true, stopped := false }
  else .ok (s.modify child fun m => { m with stopped := false })

/-- `do_trace()`. -/
def doTrace (s : MmState) (env : Env) (who : ProcNr) (request pid data : ℤ) :
    Except Fault (MmState × ℤ) :=
  let result (s : MmState) (child : ProcNr) : MmState × ℤ :=
    (s, if sysTrace s env request child then ok else eio)
  if request = 0 then .ok (s.modify who fun m => { m with traced := true }, ok)
  else match findproc s pid with
  | none => .ok (s, esrch)
  | some child =>
    if !(s.mproc child).stopped then .ok (s, esrch)
    else if request = 8 then (mmExit s child data).map fun s => (s, ok)
    else if request = 7 then
      if (nsig : ℤ) < data then .ok (s, eio)
      else (resume s env child data).map fun s => result s child
    else .ok (result s child)

/-! ## §6 The main loop -/

/-- A request to MM. -/
inductive Request
  | exit (status : ℤ)
  | fork
  | wait
  | exec (call : ExecCall)
  | brk (addr : ℤ)
  | kill (pid : ℤ) (sig : ℕ)
  | trace (request pid data : ℤ)
  | signal (sig : ℕ) (func : SigFunc)
  | alarm (seconds : ℕ)
  | pause
  | setuid (uid : ℕ)
  /-- from the kernel, for the process that is the subject of the request -/
  | ksig (sigMap : ℕ)

/-- "Send the results back to the user to indicate completion." -/
def answer (who : ProcNr) (r : MmState × ℤ) : MmState := reply r.1 who r.2 0

/-- What the caller of a request waits for.  The message `KSIG` comes from the kernel, which
waits for nothing. -/
def Request.asked : Request → Option Asked
  | .wait => some .wait
  | .pause => some .pause
  | .ksig _ => none
  | _ => some .other

/-- `get_work()`: a request has come. -/
def getWork (s : MmState) (who : ProcNr) (r : Request) : MmState :=
  { s with history := (r.asked.map (ProcEvent.asked who)).toList ++ s.history }

/-- One turn of the main loop after `get_work`: the call, and the reply unless `dont_reply` is
set.  The kernel has started the new image of a process that executes a file. -/
def handle (s : MmState) (env : Env) (who : ProcNr) : Request → Except Fault MmState
  | .exit status => doMmExit s who status
  | .fork => (doFork s who).map (answer who)
  | .wait => (doWait s who).map fun (s, r) => match r with
    | none => s
    | some e => reply s who e 0
  | .exec call => (doExec s who call).map fun r => if r.2 = ok then r.1.note (.started who) else answer who r
  | .brk addr => .ok (answer who (doBrk s env who addr))
  | .kill pid sig => (doKill s env who pid sig).map fun (s, r) => match r with
    | none => s
    | some e => reply s who e 0
  | .trace request pid data => (doTrace s env who request pid data).map (answer who)
  | .signal sig func => .ok (answer who (doSignal s who sig func))
  | .alarm seconds => .ok (answer who (doAlarm s who seconds, env.remaining))
  | .pause => .ok (doPause s who)
  | .setuid uid => .ok (answer who (doSetuid s who uid))
  | .ksig sigMap => doKsig s env who sigMap

end LisaMinix.Mm
