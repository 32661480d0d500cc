import Mathlib.Algebra.GroupWithZero.Nat
import Mathlib.Data.List.FinRange
import LisaMinix.Mm.Alloc

/-!
# The Process Table of the Memory Manager

The state of MM (`src/mm/mproc.h`, `glo.h`) with what the kernel keeps of each process on
MM's behalf: its memory map and whether its slot is free (`src/kernel/proc.h`).

Fields of `mproc` that only pass through MM (the group ids, the address of the signal
handler) are left out.  The bit maps `mp_ignore` and `mp_catch` are predicates on signal
numbers, and each bit of `mp_flags` is a field.

The lists `events` and `history` record every call of `alloc_mem` and `free_mem` that MM
makes for a process, and what happens to the slots of `mproc[]`, the latest first; no
function reads them.
-/

namespace LisaMinix.Mm

open Function

/-! ## §1 Data -/

/-- `NR_PROCS`. -/
abbrev nrProcs : ℕ := 32

instance instNeZeroNrProcs : NeZero nrProcs := ⟨by decide⟩

/-- A slot of `mproc[]`, and of the user part of the kernel's `proc[]`. -/
abbrev ProcNr := Fin nrProcs

def mmProcNr : ProcNr := ⟨0, by decide⟩

def fsProcNr : ProcNr := ⟨1, by decide⟩

/-- `INIT_PROC_NR`, which is also `LOW_USER`. -/
def initProcNr : ProcNr := ⟨2, by decide⟩

def initPid : ℤ := 1

def superUser : ℕ := 0

/-- Results of calls (`errno.h`, negated as in the system). -/
def ok : ℤ := 0
def eperm : ℤ := -1
def esrch : ℤ := -3
def eintr : ℤ := -4
def eio : ℤ := -5
def enoexec : ℤ := -8
def echild : ℤ := -10
def eagain : ℤ := -11
def enomem : ℤ := -12
def eacces : ℤ := -13
def einval : ℤ := -22

/-- `struct mem_map`, in clicks. -/
structure MemMap where
  memVir : ℕ
  memPhys : ℕ
  memLen : ℕ
  deriving DecidableEq

/-- The maps of the text, data and stack segments: `mp_seg[]` or `p_map[]`. -/
structure MemMaps where
  text : MemMap
  data : MemMap
  stack : MemMap
  deriving DecidableEq

/-- `struct mproc`. -/
structure Mproc where
  seg : MemMaps
  exitstatus : ℕ
  sigstatus : ℕ
  pid : ℤ
  parent : ProcNr
  procgrp : ℤ
  realuid : ℕ
  effuid : ℕ
  ignore : ℕ → Bool
  caught : ℕ → Bool
  inUse : Bool
  waiting : Bool
  hanging : Bool
  paused : Bool
  alarmOn : Bool
  separate : Bool
  traced : Bool
  stopped : Bool

/-- A message sent by `reply`. -/
structure Reply where
  procNr : ProcNr
  result : ℤ
  res2 : ℕ
  deriving DecidableEq

/-- A call of `alloc_mem` that returned a block, or of `free_mem`. -/
inductive MemEvent
  | alloc (b : Block)
  | free (b : Block)
  deriving DecidableEq

/-- The calls that leave the caller without an answer for a time, and all others. -/
inductive Asked
  | wait
  | pause
  | other
  deriving DecidableEq

/-- What happens to a slot of `mproc[]` in the life of a process. -/
inductive ProcEvent
  /-- `get_work` receives a call of the process -/
  | asked (p : ProcNr) (call : Asked)
  /-- `do_fork` sets up the slot for a child of `parent` -/
  | born (p parent : ProcNr)
  /-- `do_fork` tells the kernel the pid of the child -/
  | named (p : ProcNr) (pid : ℤ)
  /-- the kernel starts a new image of the process, which is the answer to its EXEC -/
  | started (p : ProcNr)
  /-- `mm_exit` is called, with the signal that has killed the process and its exit status -/
  | ended (p : ProcNr) (sigstatus exitstatus : ℕ)
  /-- `mm_exit` suspends the process until its parent waits -/
  | hung (p : ProcNr)
  /-- `cleanup` releases the slot; `report` is what it has to tell the parent -/
  | released (p : ProcNr) (report : Reply)
  /-- `cleanup` makes INIT the parent -/
  | adopted (p : ProcNr)
  /-- `reply` sends a message -/
  | replied (r : Reply)
  deriving DecidableEq

/-- MM, and the part of the kernel's process table that MM controls. -/
structure MmState where
  mproc : ProcNr → Mproc
  procsInUse : ℤ
  nextPid : ℤ
  holes : HoleTable
  /-- `p_map` -/
  pMap : ProcNr → MemMaps
  /-- `p_flags & P_SLOT_FREE` -/
  slotFree : ProcNr → Bool
  history : List ProcEvent
  events : List MemEvent

/-- What MM learns from the kernel and from FS in the course of one request. -/
structure Env where
  /-- `sys_getsp`: the stack pointer of each process -/
  sp : ProcNr → ℤ
  /-- whether `dump_core` could write the core file -/
  dumped : ProcNr → Bool
  /-- the answer of `sys_trace` to the requests that do not touch MM's tables -/
  traceOk : Bool
  /-- the answer of the clock task: seconds left of the previous alarm -/
  remaining : ℤ

namespace MmState

/-- Write one slot of `mproc[]`. -/
def set (s : MmState) (p : ProcNr) (m : Mproc) : MmState :=
  { s with mproc := update s.mproc p m }

/-- Change one slot of `mproc[]`. -/
def modify (s : MmState) (p : ProcNr) (f : Mproc → Mproc) : MmState :=
  s.set p (f (s.mproc p))

/-- Put an event into the history. -/
def note (s : MmState) (e : ProcEvent) : MmState := { s with history := e :: s.history }

end MmState

/-! ## §2 Clicks -/

/-- Subtraction of `phys_clicks` or `vir_clicks`, 16-bit unsigned integers. -/
def subClicks (a b : ℕ) : ℕ := (a + 65536 - b) % 65536

/-- `(n + CLICK_SIZE - 1) >> CLICK_SHIFT` of a `long`, stored in 16 bits. -/
def clicksOf (n : ℤ) : ℕ := (((n + 255) / 256) % 65536).toNat

/-- `n >> CLICK_SHIFT` of a `long`, stored in 16 bits. -/
def clickOf (n : ℤ) : ℕ := ((n / 256) % 65536).toNat

/-! ## §3 `main.c`, and the kernel calls that touch memory -/

/-- `reply(proc_nr, result, res2)`: nothing is sent to a process that is no longer alive. -/
def reply (s : MmState) (p : ProcNr) (result : ℤ) (res2 : ℕ) : MmState :=
  if !(s.mproc p).inUse || (s.mproc p).hanging then s
  else s.note (.replied ⟨p, result, res2⟩)

/-- `free_mem` as MM calls it. -/
def releaseMem (s : MmState) (base size : ℕ) : Except Fault MmState :=
  (freeMem s.holes base size).map fun t =>
    { s with holes := t, events := .free ⟨base, size⟩ :: s.events }

/-- `rmshadow` (`stshadow.c`).  On the Lisa there are no shadows: `p_shadow` is 0 in every
slot, so another process with the same data segment is a panic. -/
def rmshadow (s : MmState) (p : ProcNr) : Except Fault (ℕ × ℕ) :=
  if ∃ q : ProcNr, initProcNr ≤ q ∧ s.slotFree q = false ∧ q ≠ p ∧
      (s.pMap q).data.memPhys = (s.pMap p).data.memPhys then .error .noShadow
  else
    let map := s.pMap p
    let nc := toClicks (subClicks map.stack.memPhys map.data.memPhys + map.stack.memLen)
    .ok (map.text.memPhys, toClicks (nc + map.text.memLen))

/-- `sys_xit`: the kernel frees the slot and tells MM which memory is no longer used. -/
def sysXit (s : MmState) (p : ProcNr) : Except Fault (MmState × ℕ × ℕ) :=
  (rmshadow s p).map fun (base, size) =>
    ({ s with slotFree := update s.slotFree p true }, base, size)

/-- `sys_newmap`. -/
def sysNewmap (s : MmState) (p : ProcNr) (map : MemMaps) : MmState :=
  { s with pMap := update s.pMap p map }

/-- `sys_fresh`: the old map says which memory to free, then the new map is installed. -/
def sysFresh (s : MmState) (p : ProcNr) (map : MemMaps) : Except Fault (MmState × ℕ × ℕ) :=
  (rmshadow s p).map fun (base, size) => (sysNewmap s p map, base, size)

/-- `sys_fork`: the child gets the parent's slot, the pid that MM has found for it, and the
parent's map moved to `base`. -/
def sysFork (s : MmState) (parent child : ProcNr) (base : ℕ) : MmState :=
  let map := s.pMap parent
  let move (m : MemMap) : MemMap :=
    { m with memPhys := toClicks (base + subClicks m.memPhys map.text.memPhys) }
  { s with
    pMap := update s.pMap child ⟨move map.text, move map.data, move map.stack⟩
    slotFree := update s.slotFree child (s.slotFree parent)
    history := .named child (s.mproc child).pid :: s.history }

/-! ## §4 Start-up -/

/-- A slot of `mproc[]` before anything is written to it. -/
def Mproc.zero : Mproc where
  seg := ⟨⟨0, 0, 0⟩, ⟨0, 0, 0⟩, ⟨0, 0, 0⟩⟩
  exitstatus := 0
  sigstatus := 0
  pid := 0
  parent := mmProcNr
  procgrp := 0
  realuid := superUser
  effuid := superUser
  ignore _ := false
  caught _ := false
  inUse := false
  waiting := false
  hanging := false
  paused := false
  alarmOn := false
  separate := false
  traced := false
  stopped := false

/-- The map of INIT: its stack is inside its data, and it is not relocated. -/
def initSeg (org text data : ℕ) : MemMaps where
  text := ⟨org, org, text⟩
  data := ⟨toClicks (org + text), toClicks (org + text), data⟩
  stack := ⟨toClicks (org + toClicks (text + data)), toClicks (org + toClicks (text + data)), 0⟩

/-- The process tables after `mm_init`, `do_brk2` and the kernel's `main`: MM, FS and INIT. -/
def bootMproc (org text data : ℕ) (p : ProcNr) : Mproc :=
  if p = initProcNr then
    { Mproc.zero with
      inUse := true, pid := initPid, seg := initSeg org text data, separate := text != 0 }
  else if p = mmProcNr ∨ p = fsProcNr then { Mproc.zero with inUse := true }
  else Mproc.zero

/-- The state when the system is up. -/
def bootState (org text data : ℕ) (holes : HoleTable) : MmState where
  mproc := bootMproc org text data
  procsInUse := 3
  nextPid := initPid + 1
  holes := holes
  pMap := fun p => if p = initProcNr then initSeg org text data else Mproc.zero.seg
  slotFree := fun p => initProcNr < p
  history := []
  events := []

/-- `mm_init()` and `do_brk2()`: take MINIX and the RAM disk out of the hole list.  `org`,
`text` and `data` describe INIT, the last program of MINIX, and `tot` is the size of MINIX
and the RAM disk. -/
def mmBoot (size org text data tot : ℕ) : Except Fault MmState :=
  let minixClicks := toClicks (org + toClicks (text + data))
  memInit size >>= fun holes => allocMem holes minixClicks >>= fun (holes, base) =>
    if base ≠ 0 then .error .noRoomAtBoot
    else allocMem holes (subClicks tot minixClicks) >>= fun (holes, base) =>
      if base = noMem then .error .noRoomAtBoot else .ok (bootState org text data holes)

end LisaMinix.Mm
