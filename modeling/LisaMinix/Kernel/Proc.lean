import Mathlib.Data.List.FinRange
import LisaMinix.Library.Queue
import LisaMinix.Mm.Mproc

/-!
# Messages and Scheduling

Model of `src/kernel/proc.c`, of `cause_sig` and `inform` (`src/kernel/system.c`), and of the
way in and out of the kernel (`lisampx.s`), as compiled for the Lisa: `CHIP` is `M68000`, and no
process is ever shadowed, so there are three ready queues.

A field of `struct proc` is a function from slots.  The fields that thread the three linked
lists through the process table are kept together with the heads of the lists: `Ready` for the
ready queues, `Callers` for the queues of blocked senders, `Held` for the held-up interrupts.
A loop over a list is bounded by the number of slots, as in `Mm.Alloc`.

Each function runs to its end before another one starts.  System calls run with the interrupts
off, and a task that changes the queues sets `switching`, so that an interrupt meanwhile is only
put on the held queue.

The fields `waiting`, `log` and `arrived` of the state are history; no function reads them.
-/

namespace LisaMinix.Kernel

open LisaMinix.Library Function
open LisaMinix.Mm (MemMap MemMaps clickOf nrProcs)

/-! ## §1 Process numbers -/

/-- `NR_TASKS`. -/
abbrev nrTasks : ℕ := 9

/-- A pointer into `proc[]`. -/
abbrev ProcPtr := Fin (nrTasks + nrProcs)

instance instNeZeroTasksProcs : NeZero (nrTasks + nrProcs) := ⟨by decide⟩

/-- `proc_number(p)`: tasks have negative numbers. -/
def procNumber (p : ProcPtr) : ℤ := (p : ℤ) - nrTasks

/-- `isokprocn(n)`. -/
def isokprocn (n : ℤ) : Prop := 0 ≤ n + nrTasks ∧ n + nrTasks < (nrTasks + nrProcs : ℕ)

instance (n : ℤ) : Decidable (isokprocn n) := inferInstanceAs (Decidable (_ ∧ _))

/-- `proc_addr(n)`; nothing when `n` is outside of the table. -/
def procAddr (n : ℤ) : Option ProcPtr :=
  if h : isokprocn n then some ⟨(n + nrTasks).toNat, by obtain ⟨h0, h1⟩ := h; omega⟩ else none

/-- `ANY`. -/
def any : ℤ := nrProcs + 100

/-- `HARDWARE`, as the source of a message. -/
def hardwareNr : ℤ := -1

def tty : ProcPtr := 0
def idle : ProcPtr := 1
def clock : ProcPtr := 6
def systask : ProcPtr := 7
def hardware : ProcPtr := 8
def mm : ProcPtr := 9
def fs : ProcPtr := 10
def init : ProcPtr := 11

/-- A slot of the part of the table below `END_TASK_ADDR`. -/
def isKernelp (p : ProcPtr) : Prop := (p : ℕ) < nrTasks

instance (p : ProcPtr) : Decidable (isKernelp p) := inferInstanceAs (Decidable (_ < _))

/-- `isidlehardware(proc_number(p))`: the two slots that are never ready. -/
def isIdleHardware (p : ProcPtr) : Prop := p = idle ∨ p = hardware

instance (p : ProcPtr) : Decidable (isIdleHardware p) := inferInstanceAs (Decidable (_ ∨ _))

/-- `istaskp(p)`. -/
def istaskp (p : ProcPtr) : Prop := isKernelp p ∧ p ≠ idle

instance (p : ProcPtr) : Decidable (istaskp p) := inferInstanceAs (Decidable (_ ∧ _))

/-- `isuserp(p)`; `LOW_USER` is 2. -/
def isuserp (p : ProcPtr) : Prop := nrTasks + 2 ≤ (p : ℕ)

instance (p : ProcPtr) : Decidable (isuserp p) := inferInstanceAs (Decidable (_ ≤ _))

/-- `isservn(n)`. -/
def isservn (n : ℤ) : Prop := 0 ≤ n ∧ n < 2

instance (n : ℤ) : Decidable (isservn n) := inferInstanceAs (Decidable (_ ∧ _))

/-- `isoksrc_dest(n)`. -/
def isoksrcDest (n : ℤ) : Prop := isokprocn n ∨ n = any

instance (n : ℤ) : Decidable (isoksrcDest n) := inferInstanceAs (Decidable (_ ∨ _))

/-- `isrxhardware(n)`. -/
def isrxhardware (n : ℤ) : Prop := n = any ∨ n = hardwareNr

instance (n : ℤ) : Decidable (isrxhardware n) := inferInstanceAs (Decidable (_ ∨ _))

def ok : ℤ := 0
def eBadDest : ℤ := -1
def eBadSrc : ℤ := -2
def eNoPerm : ℤ := -8
def eBadAddr : ℤ := -10
def eBadProc : ℤ := -11
def elocked : ℤ := -101
def eio : ℤ := -5

/-! ## §2 Data -/

/-- The bits of `p_flags`.  `NO_MAP` is not used on this machine. -/
structure Flags where
  slotFree : Bool
  sending : Bool
  receiving : Bool
  pending : Bool
  sigPending : Bool
  stop : Bool
  deriving DecidableEq

/-- No bit is set: "a process is runnable iff p_flags == 0". -/
def Flags.zero : Flags := ⟨false, false, false, false, false, false⟩

/-- `P_SLOT_FREE` alone. -/
def Flags.free : Flags := { Flags.zero with slotFree := true }

/-- A message: the members that the kernel itself writes, and the rest. -/
structure Message where
  mSource : ℤ
  mType : ℤ
  proc1 : ℤ
  sigMap : ℤ
  rest : ℕ
  deriving DecidableEq

/-- `HARD_INT`. -/
def hardInt : ℤ := 2

/-- `KSIG`. -/
def ksig : ℤ := 64

/-- `MESS_SIZE`. -/
def messSize : ℤ := 26

/-- A message buffer: an address in one address space.  The kernel's space, that of all tasks,
is `none`. -/
structure Cell where
  space : Option ProcPtr
  addr : ℤ
  deriving DecidableEq

/-- The buffer that the pointer `addr` means in the process `p`. -/
def cell (p : ProcPtr) (addr : ℤ) : Cell := ⟨if isKernelp p then none else some p, addr⟩

/-- The three ready queues. -/
inductive Queue
  | taskQ
  | serverQ
  | userQ
  deriving DecidableEq

/-- The queue that `ready` and `unready` choose. -/
def queueOf (p : ProcPtr) : Queue :=
  if istaskp p then .taskQ else if isuserp p then .userQ else .serverQ

/-- The ready queues, and the process that is running. -/
structure Ready where
  nextready : ProcPtr → Option ProcPtr
  head : Queue → Option ProcPtr
  tail : Queue → Option ProcPtr
  procPtr : ProcPtr

/-- The queues of processes that wait to send. -/
structure Callers where
  callerq : ProcPtr → Option ProcPtr
  sendlink : ProcPtr → Option ProcPtr

/-- The queue of held-up interrupts. -/
structure Held where
  intHeld : ProcPtr → Bool
  nextheld : ProcPtr → Option ProcPtr
  head : Option ProcPtr
  tail : Option ProcPtr

/-- Where the linker has put the message buffers of the kernel. -/
structure Layout where
  /-- the address of the variable `m` of `system.c` -/
  addrM : ℤ
  /-- the task whose variable is at a kernel address -/
  home : ℤ → ProcPtr
  home_m : home addrM = systask
  low : 0 ≤ addrM ∧ addrM + messSize < 65535 * 256

/-- What happened to messages. -/
inductive LogEntry
  /-- a send of `s` to `d` returned `OK` -/
  | sent (s d : ProcPtr) (msg : Message)
  /-- the message of `s` was copied to `d`, which wanted one from `src`; the processes `ahead`
  had been waiting to send to `d` for longer than `s` -/
  | taken (s d : ProcPtr) (msg : Message) (src : ℤ) (ahead : List ProcPtr)
  /-- `s` exited while it was waiting to send to `d` -/
  | lost (s d : ProcPtr) (msg : Message)
  /-- `d`, which wanted a message from `src`, was given the message of an interrupt -/
  | interrupted (d : ProcPtr) (msg : Message) (src : ℤ)
  deriving DecidableEq

/-- The state of the kernel. -/
structure KState where
  layout : Layout
  pFlags : ProcPtr → Flags
  pIntBlocked : ProcPtr → Bool
  pMap : ProcPtr → MemMaps
  pMessbuf : ProcPtr → ℤ
  pGetfrom : ProcPtr → ℤ
  pPending : ProcPtr → ℕ
  pPendcount : ProcPtr → ℕ
  rdy : Ready
  held : Held
  callers : Callers
  sigProcs : ℤ
  memory : Cell → Message
  /-- who is waiting to send to whom, in the order in which they blocked -/
  waiting : List (ProcPtr × ProcPtr)
  log : List LogEntry
  /-- the message copied to a process that has not run since, and where it was put -/
  arrived : ProcPtr → Option (Cell × Message)

/-- How a function of the kernel can fail to return. -/
inductive Fault
  /-- use of a nil pointer, or of a slot outside of the table -/
  | wildPointer
  /-- a loop that never ends -/
  | endless
  /-- `panic("can't inform MM")` -/
  | cantInformMm
  deriving DecidableEq, Repr

/-- How many slots a loop over a list can visit. -/
def fuel : ℕ := nrTasks + nrProcs

/-- A search over a list of the process table. -/
def search (next : ProcPtr → Option ProcPtr) (stop : ProcPtr → Bool) (p : Option ProcPtr) :
    Except Fault (Option (Option ProcPtr × ProcPtr)) :=
  match scan next stop fuel none p with
  | none => .error .endless
  | some found => .ok found

/-! ## §3 The ready queues -/

/-- `pick_proc`. -/
def pickProc (r : Ready) : Ready :=
  match r.head .taskQ with
  | some p => { r with procPtr := p }
  | none =>
    match r.head .serverQ with
    | some p => { r with procPtr := p }
    | none =>
      match r.head .userQ with
      | some p => { r with procPtr := p }
      | none => { r with procPtr := idle }

/-- Add `rp` at the end of the queue `q`: the code that `ready` has once for each queue, and
that `interrupt` has in-line. -/
def append (r : Ready) (q : Queue) (rp : ProcPtr) : Except Fault Ready :=
  match r.head q with
  | none =>
    .ok { r with
      head := update r.head q (some rp)
      tail := update r.tail q (some rp)
      nextready := update r.nextready rp none }
  | some _ =>
    match r.tail q with
    | none => .error .wildPointer
    | some t =>
      .ok { r with
        tail := update r.tail q (some rp)
        nextready := update (update r.nextready t (some rp)) rp none }

/-- `ready(rp)`. -/
def ready (r : Ready) (rp : ProcPtr) : Except Fault Ready := append r (queueOf rp) rp

/-- The second half of `unready`: search the body of the queue, from its head `xp`. -/
def unreadyBody (r : Ready) (q : Queue) (xp rp : ProcPtr) : Except Fault Ready :=
  search r.nextready (fun x => decide (r.nextready x = some rp)) (some xp) >>= fun found =>
  match found with
  | none => .ok r
  | some (_, x) =>
    let next := update r.nextready x (r.nextready rp)
    (search next (fun y => decide (next y = none)) (some x)).map fun last =>
      { r with nextready := next, tail := update r.tail q (last.map Prod.snd) }

/-- `unready(rp)`. -/
def unready (r : Ready) (rp : ProcPtr) : Except Fault Ready :=
  let q := queueOf rp
  match r.head q with
  | none => .ok r
  | some xp =>
    if xp = rp then
      let r' := { r with head := update r.head q (r.nextready xp) }
      .ok (if rp = r.procPtr then pickProc r' else r')
    else unreadyBody r q xp rp

/-- `sched`: the first user process goes to the end of its queue. -/
def sched (r : Ready) : Except Fault Ready :=
  match r.head .userQ with
  | none => .ok r
  | some h =>
    match r.tail .userQ with
    | none => .error .wildPointer
    | some t =>
      let next := update r.nextready t (some h)
      .ok (pickProc { r with
        tail := update r.tail .userQ (some h)
        head := update r.head .userQ (next h)
        nextready := update next h none })

/-! ## §4 The queues of senders -/

/-- The loop of `mini_send` that looks for `x` among the processes waiting to send to `d`. -/
def isCaller (c : Callers) (d x : ProcPtr) : Except Fault Bool :=
  (search c.sendlink (fun y => decide (y = x)) (c.callerq d)).map Option.isSome

/-- The end of `mini_send`: put `s` at the end of the queue of `d`. -/
def enqueue (c : Callers) (s d : ProcPtr) : Except Fault Callers :=
  match c.callerq d with
  | none =>
    .ok { callerq := update c.callerq d (some s)
          sendlink := update c.sendlink s none }
  | some p =>
    search c.sendlink (fun y => decide (c.sendlink y = none)) (some p) >>= fun last =>
    match last with
    | none => .error .wildPointer
    | some (_, y) =>
      .ok { c with sendlink := update (update c.sendlink y (some s)) s none }

/-- A message from `s` is wanted by someone who wants one from `src`. -/
def wanted (src : ℤ) (s : ProcPtr) : Bool := decide (src = any ∨ src = procNumber s)

/-- The loop of `mini_rec`: the first sender that is wanted, and the one before it. -/
def findSender (c : Callers) (d : ProcPtr) (src : ℤ) :
    Except Fault (Option (Option ProcPtr × ProcPtr)) :=
  search c.sendlink (wanted src) (c.callerq d)

/-- Take `s` out of the queue of `d`; `prev` is the sender before it. -/
def unlinkSender (c : Callers) (d : ProcPtr) (prev : Option ProcPtr) (s : ProcPtr) :
    Except Fault Callers :=
  if c.callerq d = some s then .ok { c with callerq := update c.callerq d (c.sendlink s) }
  else
    match prev with
    | none => .error .wildPointer
    | some p => .ok { c with sendlink := update c.sendlink p (c.sendlink s) }

/-- Who is waiting to send to `d`. -/
def callersOf (w : List (ProcPtr × ProcPtr)) (d : ProcPtr) : List ProcPtr :=
  (w.filter fun x => decide (x.2 = d)).map Prod.fst

namespace KState

/-! ## §5 `mini_send` -/

def setFlags (k : KState) (p : ProcPtr) (f : Flags) : KState :=
  { k with pFlags := update k.pFlags p f }

/-- `if (rp->p_flags == 0) ready(rp)`. -/
def readyIfZero (k : KState) (p : ProcPtr) : Except Fault KState :=
  if k.pFlags p = Flags.zero then (ready k.rdy p).map fun r => { k with rdy := r } else .ok k

/-- `if (rp->p_flags == 0) unready(rp)`. -/
def unreadyIfZero (k : KState) (p : ProcPtr) : Except Fault KState :=
  if k.pFlags p = Flags.zero then (unready k.rdy p).map fun r => { k with rdy := r } else .ok k

/-- The message that `cp_mess` makes from the buffer `mPtr` of `s`. -/
def outgoing (k : KState) (s : ProcPtr) (mPtr : ℤ) : Message :=
  { k.memory (cell s mPtr) with mSource := procNumber s }

/-- Put the message `msg` in the buffer `mPtr` of `d`. -/
def put (k : KState) (d : ProcPtr) (mPtr : ℤ) (msg : Message) : KState :=
  { k with
    memory := update k.memory (cell d mPtr) msg
    arrived := update k.arrived d (some (cell d mPtr, msg)) }

/-- The check of `mini_send` for "messages wrapping around top of memory or outside data seg". -/
def badAddr (m : MemMap) (mPtr : ℤ) : Prop :=
  clickOf (mPtr + messSize - 1) < clickOf mPtr ∨
    m.memLen ≤ (clickOf (mPtr + messSize - 1) + 65536 - m.memVir) % 65536

instance (m : MemMap) (mPtr : ℤ) : Decidable (badAddr m mPtr) :=
  inferInstanceAs (Decidable (_ ∨ _))

/-- "Check to see if 'dest' is blocked waiting for this message." -/
def accepts (k : KState) (d s : ProcPtr) : Bool :=
  (k.pFlags d).receiving && !(k.pFlags d).sending && wanted (k.pGetfrom d) s

/-- The message of `s` is copied to `d`, which is no longer receiving. -/
def delivered (k : KState) (s d : ProcPtr) (mPtr : ℤ) : KState :=
  let msg := k.outgoing s mPtr
  { (k.put d (k.pMessbuf d) msg).setFlags d { k.pFlags d with receiving := false } with
    log := k.log ++
      [LogEntry.sent s d msg, LogEntry.taken s d msg (k.pGetfrom d) (callersOf k.waiting d)] }

/-- "Destination is indeed waiting for this message." -/
def deliver (k : KState) (s d : ProcPtr) (mPtr : ℤ) : Except Fault KState :=
  (k.delivered s d mPtr).readyIfZero d

/-- `s` is blocked, with a message for `d`. -/
def queued (k : KState) (s d : ProcPtr) (mPtr : ℤ) : KState :=
  { k.setFlags s { k.pFlags s with sending := true } with
    pMessbuf := update k.pMessbuf s mPtr
    waiting := k.waiting ++ [(s, d)]
    log := k.log ++ [LogEntry.sent s d (k.outgoing s mPtr)] }

/-- "Destination is not waiting.  Block and queue caller." -/
def blockSender (k : KState) (s d : ProcPtr) (mPtr : ℤ) : Except Fault KState :=
  k.unreadyIfZero s >>= fun k' =>
  (enqueue k'.callers s d).map fun c => { k'.queued s d mPtr with callers := c }

/-- "Check for deadlock by 'caller_ptr' and 'dest' sending to each other." -/
def locked (k : KState) (s d : ProcPtr) : Except Fault Bool :=
  if (k.pFlags d).sending then isCaller k.callers s d else .ok false

/-- `mini_send(caller_ptr, dest, m_ptr)`. -/
def miniSend (k : KState) (s : ProcPtr) (dest mPtr : ℤ) : Except Fault (ℤ × KState) :=
  if isuserp s ∧ ¬ isservn dest then .ok (eBadDest, k)
  else
    match procAddr dest with
    | none => .error .wildPointer
    | some d =>
      if (k.pFlags d).slotFree then .ok (eBadDest, k)
      else if badAddr (k.pMap s).data mPtr then .ok (eBadAddr, k)
      else
        k.locked s d >>= fun l =>
        if l then .ok (elocked, k)
        else
          (if k.accepts d s then k.deliver s d mPtr else k.blockSender s d mPtr).map
            fun k' => (ok, k')

/-! ## §6 `cause_sig` and `inform` -/

/-- The variable `m` of `system.c`. -/
def cellM (k : KState) : Cell := cell hardware k.layout.addrM

/-- "Finished one KSIG": count a signal as done, and let the process run again after the last
one.  Used by `do_sig`, and by `inform` for `SIGSTKFLT`. -/
def finishSig (k : KState) (p : ProcPtr) : Except Fault KState :=
  if k.pPendcount p = 0 then .ok k
  else if k.pPendcount p = 1 then
    { k.setFlags p { k.pFlags p with sigPending := false } with
      pPendcount := update k.pPendcount p 0 }.readyIfZero p
  else .ok { k with pPendcount := update k.pPendcount p (k.pPendcount p - 1) }

/-- The first process with a pending signal, from `BEG_SERV_ADDR` on. -/
def pendingProc (k : KState) : Option ProcPtr :=
  (List.finRange (nrTasks + nrProcs)).find? fun p => !decide (isKernelp p) && (k.pFlags p).pending

/-- `m.m_type = KSIG` and so on: the message about the signals of `rp`, written to `m`. -/
def writeKsig (k : KState) (rp : ProcPtr) : KState :=
  { k with
    memory := update k.memory k.cellM
      { k.memory k.cellM with
        mType := ksig, proc1 := procNumber rp, sigMap := k.pPending rp }
    sigProcs := k.sigProcs - 1 }

/-- No signal of `rp` is left that MM has not been told of. -/
def told (k : KState) (rp : ProcPtr) : KState :=
  { k.setFlags rp { k.pFlags rp with pending := false } with
    pPending := update k.pPending rp 0 }

/-- `inform`, after MM has been told of the signals of `rp`. -/
def informed (k : KState) (rp : ProcPtr) : Except Fault KState :=
  (if k.pPending rp = 2 ^ 15 then (k.told rp).finishSig rp else .ok (k.told rp)).map
    fun k' => { k' with rdy := pickProc k'.rdy }

/-- `inform`. -/
def inform (k : KState) : Except Fault KState :=
  match k.pendingProc with
  | none => .ok k
  | some rp =>
    (k.writeKsig rp).miniSend hardware (procNumber mm) k.layout.addrM >>= fun res =>
    if res.1 ≠ ok then .error .cantInformMm else res.2.informed rp

/-- The test of `cause_sig` whether MM can be told now. -/
def mmIdle (k : KState) : Bool :=
  (k.pFlags mm).receiving && decide (k.pGetfrom mm = any)

/-- A signal is pending for `rp`. -/
def signalled (k : KState) (rp : ProcPtr) : KState :=
  { k.setFlags rp { k.pFlags rp with pending := true, sigPending := true } with
    sigProcs := k.sigProcs + 1 }

/-- `cause_sig` when no signal is pending for `rp` yet. -/
def newlyPending (k : KState) (rp : ProcPtr) : Except Fault KState :=
  k.unreadyIfZero rp >>= fun k₁ =>
  let k₂ := k₁.signalled rp
  if k₂.mmIdle then k₂.inform else .ok k₂

/-- The signal is noted and counted. -/
def noteSig (k : KState) (rp : ProcPtr) (sigNr : ℕ) : KState :=
  { k with
    pPending := update k.pPending rp (k.pPending rp ||| 2 ^ (sigNr - 1))
    pPendcount := update k.pPendcount rp ((k.pPendcount rp + 1) % 65536) }

/-- `cause_sig(proc_nr, sig_nr)`, with a signal number from 1 to 16. -/
def causeSig (k : KState) (rp : ProcPtr) (sigNr : ℕ) : Except Fault KState :=
  if (k.pPending rp).testBit (sigNr - 1) then .ok k
  else if (k.pFlags rp).pending then .ok (k.noteSig rp sigNr)
  else (k.noteSig rp sigNr).newlyPending rp

/-! ## §7 `mini_rec` and `sys_call` -/

/-- The message of `s` is copied to `d`, and `s` is no longer sending. -/
def took (k : KState) (d : ProcPtr) (src mPtr : ℤ) (s : ProcPtr) : KState :=
  let msg := k.outgoing s (k.pMessbuf s)
  { (k.put d mPtr msg).setFlags s { k.pFlags s with sending := false } with
    waiting := k.waiting.filter fun x => decide (x.1 ≠ s)
    log := k.log ++ [LogEntry.taken s d msg src
      ((callersOf k.waiting d).takeWhile fun x => decide (x ≠ s))] }

/-- "An acceptable message has been found." -/
def takeMessage (k : KState) (d : ProcPtr) (src mPtr : ℤ) (prev : Option ProcPtr) (s : ProcPtr) :
    Except Fault KState :=
  unlinkSender k.callers d prev s >>= fun c =>
  { k.took d src mPtr s with callers := c }.readyIfZero s

/-- The message of an interrupt, put in a buffer. -/
def putInterrupt (k : KState) (d : ProcPtr) (src mPtr : ℤ) : KState :=
  let msg := { k.memory (cell d mPtr) with mSource := hardwareNr, mType := hardInt }
  { k.put d mPtr msg with
    pIntBlocked := update k.pIntBlocked d false
    log := k.log ++ [.interrupted d msg src] }

/-- `d` is blocked until a message from `src` comes. -/
def receiverBlocked (k : KState) (d : ProcPtr) (src mPtr : ℤ) : KState :=
  { k.setFlags d { k.pFlags d with receiving := true } with
    pGetfrom := update k.pGetfrom d src
    pMessbuf := update k.pMessbuf d mPtr }

/-- "No suitable message is available.  Block the process trying to receive." -/
def blockReceiver (k : KState) (d : ProcPtr) (src mPtr : ℤ) : Except Fault KState :=
  k.unreadyIfZero d >>= fun k₁ =>
  let k₂ := k₁.receiverBlocked d src mPtr
  if 0 < k₂.sigProcs ∧ d = mm ∧ src = any then k₂.inform else .ok k₂

/-- `mini_rec(caller_ptr, src, m_ptr)`; it always returns `OK`. -/
def miniRec (k : KState) (d : ProcPtr) (src mPtr : ℤ) : Except Fault KState :=
  if (k.pFlags d).sending then k.blockReceiver d src mPtr
  else
    findSender k.callers d src >>= fun found =>
    match found with
    | some (prev, s) => k.takeMessage d src mPtr prev s
    | none =>
      if k.pIntBlocked d ∧ isrxhardware src then .ok (k.putInterrupt d src mPtr)
      else k.blockReceiver d src mPtr

end KState

/-- `SEND`, `RECEIVE` and `BOTH`. -/
inductive Func
  | send
  | receive
  | both
  deriving DecidableEq

namespace KState

/-- `sys_call(function, src_dest, m_ptr)`. -/
def sysCall (k : KState) (function : Func) (srcDest mPtr : ℤ) : Except Fault (ℤ × KState) :=
  let rp := k.rdy.procPtr
  if ¬ isoksrcDest srcDest then .ok (eBadSrc, k)
  else if function ≠ .both ∧ isuserp rp then .ok (eNoPerm, k)
  else
    match function with
    | .send => k.miniSend rp srcDest mPtr
    | .receive => (k.miniRec rp srcDest mPtr).map fun k' => (ok, k')
    | .both =>
      k.miniSend rp srcDest mPtr >>= fun res =>
      if res.1 ≠ ok then .ok res
      else (res.2.miniRec rp srcDest mPtr).map fun k' => (ok, k')

/-! ## §8 Interrupts -/

/-- Put the task on the held queue. -/
def hold (h : Held) (rp : ProcPtr) : Except Fault Held :=
  if h.intHeld rp then .ok h
  else
    match h.head with
    | none =>
      .ok { intHeld := update h.intHeld rp true
            nextheld := update h.nextheld rp none
            head := some rp
            tail := some rp }
    | some _ =>
      match h.tail with
      | none => .error .wildPointer
      | some t =>
        .ok { h with
          intHeld := update h.intHeld rp true
          nextheld := update (update h.nextheld t (some rp)) rp none
          tail := some rp }

/-- A task that waits for an interrupt is given the message of one. -/
def woken (k : KState) (rp : ProcPtr) : KState :=
  (k.putInterrupt rp (k.pGetfrom rp) (k.pMessbuf rp)).setFlags rp
    { k.pFlags rp with receiving := false }

/-- `interrupt(task)` that does not compete with other process-switching functions. -/
def interruptNow (k : KState) (rp : ProcPtr) : Except Fault KState :=
  if (k.pFlags rp).receiving ∧ ¬ (k.pFlags rp).sending ∧ isrxhardware (k.pGetfrom rp) then
    -- ready(rp) in-line, without a look at the flags that are left
    (append k.rdy .taskQ rp).map fun r => { k.woken rp with rdy := r }
  else .ok { k with pIntBlocked := update k.pIntBlocked rp true }

/-- `interrupt(task)`; `busy` says that `k_reenter` is not 0, or that `switching` is set. -/
def interrupt (k : KState) (rp : ProcPtr) (busy : Bool) : Except Fault KState :=
  if busy then (hold k.held rp).map fun h => { k with held := h } else k.interruptNow rp

/-- An interrupt and the way back (`async`): a task that was interrupted goes on, anyone else
gives way to a task that is ready. -/
def async (k : KState) (rp : ProcPtr) (busy : Bool) : Except Fault KState :=
  (k.interrupt rp busy).map fun k' =>
    if ¬ busy ∧ ¬ istaskp k.rdy.procPtr ∧ k'.rdy.head .taskQ ≠ none then
      { k' with rdy := pickProc k'.rdy }
    else k'

/-- One round of `unhold`, which `restart` calls: it does not pick another process. -/
def unhold (k : KState) : Except Fault KState :=
  match k.held.head with
  | none => .ok k
  | some rp =>
    { k with
      held := { k.held with
        head := k.held.nextheld rp
        tail := if k.held.nextheld rp = none then none else k.held.tail
        intHeld := update k.held.intHeld rp false } }.interruptNow rp

end KState

end LisaMinix.Kernel
