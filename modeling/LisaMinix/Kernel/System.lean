import LisaMinix.Kernel.Proc

/-!
# The System Task and the Start of the Kernel

Model of the calls of `src/kernel/system.c` that touch the queues of `proc.c`: `do_fork`,
`do_exec`, `do_xit`, `do_sig`, `do_kill`, `do_trace` and `do_newmap`, and of `main`
(`lisamain.c`).  Accounting times, registers, names and the copying of images are left out;
an image counts only as the message buffers in it.

`perform` puts everything together: one event is one call of the kernel or one interrupt.
-/

namespace LisaMinix.Kernel

open LisaMinix.Library Function
open LisaMinix.Mm (MemMap MemMaps toClicks nrProcs)

/-! ## §1 The calls -/

/-- `isoksusern(n)`: a server or a user process. -/
def isoksusern (n : ℤ) : Prop := 0 ≤ n ∧ n < nrProcs

instance (n : ℤ) : Decidable (isoksusern n) := inferInstanceAs (Decidable (_ ∧ _))

/-- `isokusern(n)`: a user process. -/
def isokusern (n : ℤ) : Prop := 2 ≤ n ∧ n < nrProcs

instance (n : ℤ) : Decidable (isokusern n) := inferInstanceAs (Decidable (_ ∧ _))

/-- `proc_addr(n)`, when `isoksusern(n)`. -/
def susern (n : ℤ) : Option ProcPtr := if isoksusern n then procAddr n else none

/-- `proc_addr(n)`, when `isokusern(n)`. -/
def usern (n : ℤ) : Option ProcPtr := if isokusern n then procAddr n else none

/-- The map of a child whose image is at `base`: the same virtual addresses, and the distances
of the parent's segments. -/
def childMap (m : MemMaps) (base : ℕ) : MemMaps :=
  let moved := fun seg : MemMap =>
    { seg with memPhys := toClicks (base + (seg.memPhys + 65536 - m.text.memPhys)) }
  { text := moved m.text, data := moved m.data, stack := moved m.stack }

/-- `SIGTRAP`. -/
def sigtrap : ℕ := 5

namespace KState

/-- The slot of the child as `do_fork` leaves it: a copy of the parent's, less the signals. -/
def forked (k : KState) (rpp rpc : ProcPtr) (base : ℕ) : KState :=
  { k with
    pFlags := update k.pFlags rpc
      { k.pFlags rpp with pending := false, sigPending := false, stop := false }
    pIntBlocked := update k.pIntBlocked rpc (k.pIntBlocked rpp)
    pMap := update k.pMap rpc (childMap (k.pMap rpp) base)
    pMessbuf := update k.pMessbuf rpc (k.pMessbuf rpp)
    pGetfrom := update k.pGetfrom rpc (k.pGetfrom rpp)
    pPending := update k.pPending rpc 0
    pPendcount := update k.pPendcount rpc 0
    rdy := { k.rdy with
      nextready := update k.rdy.nextready rpc (k.rdy.nextready rpp) }
    held := { k.held with
      intHeld := update k.held.intHeld rpc (k.held.intHeld rpp)
      nextheld := update k.held.nextheld rpc (k.held.nextheld rpp) }
    callers :=
      { callerq := update k.callers.callerq rpc (k.callers.callerq rpp)
        sendlink := update k.callers.sendlink rpc (k.callers.sendlink rpp) }
    memory := fun c => if c.space = some rpc then k.memory (cell rpp c.addr) else k.memory c
    arrived := update k.arrived rpc none }

/-- `do_fork`: the process `proc1` has forked, the child is `proc2`. -/
def doFork (k : KState) (proc1 proc2 : ℤ) (base : ℕ) : Except Fault (ℤ × KState) :=
  match susern proc1, susern proc2 with
  | some rpp, some rpc => .ok (ok, k.forked rpp rpc base)
  | _, _ => .ok (eBadProc, k)

/-- `do_exec`; `traced` is `PROC2`. -/
def doExec (k : KState) (proc1 : ℤ) (traced : Bool) : Except Fault (ℤ × KState) :=
  match susern proc1 with
  | none => .ok (eBadProc, k)
  | some rp =>
    (if traced then k.causeSig rp sigtrap else .ok k) >>= fun k₁ =>
    ((k₁.setFlags rp { k₁.pFlags rp with receiving := false }).readyIfZero rp).map
      fun k₂ => (ok, k₂)

end KState

/-- The loop of `do_xit` over all slots: take `rc` out of the queue of senders it is on. -/
def unqueue (rc : ProcPtr) : List ProcPtr → Callers → Except Fault Callers
  | [], c => .ok c
  | rp :: rest, c =>
    match c.callerq rp with
    | none => unqueue rc rest c
    | some np =>
      if np = rc then
        -- "Exiting process is on front of this queue."
        .ok { c with callerq := update c.callerq rp (c.sendlink rc) }
      else
        search c.sendlink (fun x => decide (c.sendlink x = some rc)) (some np) >>= fun found =>
        match found with
        | none => unqueue rc rest c
        | some (_, x) =>
          unqueue rc rest { c with sendlink := update c.sendlink x (c.sendlink rc) }

namespace KState

/-- `do_xit`: the part that takes a sender out of the queues. -/
def leaveQueues (k : KState) (rc : ProcPtr) : Except Fault KState :=
  if (k.pFlags rc).sending then
    (unqueue rc (List.finRange (nrTasks + nrProcs)) k.callers).map fun c =>
      { k with
        callers := c
        waiting := k.waiting.filter fun x => decide (x.1 ≠ rc)
        log := k.log ++ (k.waiting.filter fun x => decide (x.1 = rc)).map fun x =>
          .lost rc x.2 (k.outgoing rc (k.pMessbuf rc)) }
  else .ok k

/-- The end of `do_xit`. -/
def slotFreed (k : KState) (rc : ProcPtr) : KState :=
  { k.setFlags rc Flags.free with
    sigProcs := if (k.pFlags rc).pending then k.sigProcs - 1 else k.sigProcs
    pPending := update k.pPending rc 0
    pPendcount := update k.pPendcount rc 0
    arrived := update k.arrived rc none }

/-- `do_xit`: the process `proc2`, a child of `proc1`, has exited. -/
def doXit (k : KState) (proc1 proc2 : ℤ) : Except Fault (ℤ × KState) :=
  match susern proc1, susern proc2 with
  | some _, some rc =>
    k.unreadyIfZero rc >>= fun k₁ =>
    (k₁.leaveQueues rc).map fun k₂ => (ok, k₂.slotFreed rc)
  | _, _ => .ok (eBadProc, k)

/-- `do_sig`; -1 means "finished one KSIG".  Any other signal changes only the stack and the
registers of the process. -/
def doSig (k : KState) (pr signum : ℤ) : Except Fault (ℤ × KState) :=
  match usern pr with
  | none => .ok (eBadProc, k)
  | some rp => if signum = -1 then (k.finishSig rp).map fun k' => (ok, k') else .ok (ok, k)

/-- `do_kill`. -/
def doKill (k : KState) (pr : ℤ) (signum : ℕ) : Except Fault (ℤ × KState) :=
  match usern pr with
  | none => .ok (eBadProc, k)
  | some rp => (k.causeSig rp signum).map fun k' => (ok, k')

/-- `do_trace`: the requests that stop a process (-1) and let it go on (7 and 9). -/
def doTrace (k : KState) (procnr request : ℤ) : Except Fault (ℤ × KState) :=
  match procAddr procnr with
  | none => .error .wildPointer
  | some rp =>
    if (k.pFlags rp).slotFree then .ok (eio, k)
    else if request = -1 then
      (unready k.rdy rp).map fun r =>
        (ok, { k with rdy := r }.setFlags rp { k.pFlags rp with stop := true })
    else if request = 7 ∨ request = 9 then
      ((k.setFlags rp { k.pFlags rp with stop := false }).readyIfZero rp).map fun k' => (ok, k')
    else .ok (ok, k)

/-- `do_newmap`. -/
def doNewmap (k : KState) (proc1 : ℤ) (map : MemMaps) : Except Fault (ℤ × KState) :=
  match procAddr proc1 with
  | none => .ok (eBadProc, k)
  | some rp => .ok (ok, { k with pMap := update k.pMap rp map })

end KState

/-! ## §2 The start -/

/-- No process is ready. -/
def nobodyReady : Ready :=
  { nextready := fun _ => none, head := fun _ => none, tail := fun _ => none, procPtr := idle }

/-- The slots that `main` makes ready: the tasks but for IDLE and HARDWARE, MM, FS and INIT. -/
def startProcs : List ProcPtr := [0, 2, 3, 4, 5, 6, 7, mm, fs, init]

/-- The flags after `main`. -/
def startFlags (p : ProcPtr) : Flags := if p ≤ init then Flags.zero else Flags.free

/-- `main`, from a process table that is all zero but for the maps; the maps depend on the
sizes of the programs, except that HARDWARE may use all of the memory. -/
def boot (layout : Layout) (map : ProcPtr → MemMaps) (memory : Cell → Message) :
    Except Fault KState :=
  (startProcs.foldlM ready nobodyReady).map fun r =>
    { layout := layout
      pFlags := startFlags
      pIntBlocked := fun _ => false
      pMap := update map hardware
        { map hardware with data := { memVir := 0, memPhys := 0, memLen := 65535 } }
      pMessbuf := fun _ => 0
      pGetfrom := fun _ => 0
      pPending := fun _ => 0
      pPendcount := fun _ => 0
      rdy := pickProc r
      held :=
        { intHeld := fun _ => false, nextheld := fun _ => none, head := none, tail := none }
      callers := { callerq := fun _ => none, sendlink := fun _ => none }
      sigProcs := 0
      memory := memory
      waiting := []
      log := []
      arrived := fun _ => none }

/-! ## §3 Events -/

/-- What the kernel is called for. -/
inductive Event
  /-- the running process makes a system call -/
  | sysCall (function : Func) (srcDest mPtr : ℤ)
  /-- the running process writes a message into a buffer -/
  | store (addr : ℤ) (msg : Message)
  /-- an interrupt for the task `rp` -/
  | async (rp : ProcPtr) (busy : Bool)
  /-- a held-up interrupt is repeated -/
  | unhold
  /-- `lock_sched`, called by the clock task -/
  | sched
  /-- `cause_sig`, called by a task, or for a trap of the running process -/
  | causeSig (rp : ProcPtr) (sigNr : ℕ)
  /-- requests to the system task -/
  | fork (proc1 proc2 : ℤ) (base : ℕ)
  | exec (proc1 : ℤ) (traced : Bool)
  | xit (proc1 proc2 : ℤ)
  | sig (pr signum : ℤ)
  | kill (pr : ℤ) (signum : ℕ)
  | trace (procnr request : ℤ)
  | newmap (proc1 : ℤ) (map : MemMaps)
  deriving DecidableEq

namespace KState

/-- The running process does something: it has returned from its last receive. -/
def resumed (k : KState) : KState :=
  { k with arrived := update k.arrived k.rdy.procPtr none }

/-- The running process writes into one of its buffers. -/
def store (k : KState) (addr : ℤ) (msg : Message) : KState :=
  { k with memory := update k.memory (cell k.rdy.procPtr addr) msg }

/-- One event: the result of the call, and the state after it. -/
def perform (k : KState) : Event → Except Fault (ℤ × KState)
  | .sysCall f srcDest mPtr => k.resumed.sysCall f srcDest mPtr
  | .store addr msg => .ok (ok, k.resumed.store addr msg)
  | .async rp busy => (k.async rp busy).map fun k' => (ok, k')
  | .unhold => k.unhold.map fun k' => (ok, k')
  | .sched => (Kernel.sched k.rdy).map fun r => (ok, { k.resumed with rdy := r })
  | .causeSig rp sigNr => (k.resumed.causeSig rp sigNr).map fun k' => (ok, k')
  | .fork proc1 proc2 base => k.resumed.doFork proc1 proc2 base
  | .exec proc1 traced => k.resumed.doExec proc1 traced
  | .xit proc1 proc2 => k.resumed.doXit proc1 proc2
  | .sig pr signum => k.resumed.doSig pr signum
  | .kill pr signum => k.resumed.doKill pr signum
  | .trace procnr request => k.resumed.doTrace procnr request
  | .newmap proc1 map => k.resumed.doNewmap proc1 map

end KState

end LisaMinix.Kernel
