import Mathlib.Tactic

/-!
# The Floppy Task and Its Interrupts

Model of `fd_sector`, `lisa_fd_int` and `fd_timeout` (`src/kernel/lisa/lisafloppy.c`) together with
the controller and the messages of `interrupt` (`proc.c`).  The task goes on register by register,
and the handler, the controller and the watchdog step in between.  Sector data are of any type.

- `step` models one action of any of them.
- `Sound` says what a state owes to the request that the task is working on.
-/

namespace LisaMinix.Kernel.Floppy

/-! ## §1 Registers and Flags -/

inductive Op where
  | read
  | write
  deriving DecidableEq

/-- `FN_READ` and `FN_WRITE`. -/
def Op.code : Op → ℕ
  | read => 0
  | write => 1

/-- The registers of the shared RAM that a function needs. -/
structure Regs where
  func : ℕ
  drive : ℕ
  side : ℕ
  track : ℕ
  sector : ℕ
  deriving DecidableEq

def drive2 : ℕ := 0x80
def clearAll : ℕ := 0x77

/-- The loop over the speed zones: `for (spt = 12; block >= 16 * spt; spt--)`. -/
def zone : ℕ → ℕ → ℕ → ℕ × ℕ
  | 0, track, block => (track, block)
  | spt + 1, track, block =>
    if 16 * (spt + 1) ≤ block then zone spt (track + 16) (block - 16 * (spt + 1))
    else (track + block / (spt + 1), block % (spt + 1))

def trackOf (block : ℕ) : ℕ := (zone 12 0 block).1

def sectorOf (block : ℕ) : ℕ := (zone 12 0 block).2

/-- The registers that `fd_sector` computes for a block. -/
def command (op : Op) (block : ℕ) : Regs := ⟨op.code, drive2, 0, trackOf block, sectorOf block⟩

/-- A command in `F_GO` that the controller has not taken yet. -/
inductive Go where
  | rw
  | clear
  | mask
  deriving DecidableEq

/-- Where `lisa_fd_int` is; `off` when it does not run. -/
inductive Handler where
  | off
  | poll
  | func
  | go
  | wake
  deriving DecidableEq

/-- What `fd_sector` returns. -/
inductive Result where
  | ok
  | eio
  | enxio
  deriving DecidableEq

/-- Where the task is: at its main loop, in `do_rdwt`, or in `fd_sector` before the statement that
    the name says. -/
inductive Pc where
  | main
  | loop
  | diskIn
  | ready₁
  | side
  | drive
  | track
  | sector
  | func
  | data
  | ready₂
  | arm
  | go
  | receive
  | wait
  | cancel
  | test
  | ret (r : Result)
  deriving DecidableEq

/-- What a message from HARDWARE is about. -/
inductive Origin where
  /-- the controller has last finished the function of this request -/
  | completion (request : ℕ)
  /-- the watchdog of this request -/
  | timeout (request : ℕ)
  /-- the controller has not finished a function yet -/
  | other
  deriving DecidableEq

/-- A finished function: the request it was for, `F_STATUS` and the data area. -/
structure Done (δ : Type*) where
  request : ℕ
  status : ℕ
  data : δ
  deriving DecidableEq

structure State (δ : Type*) where
  -- the shared RAM and the controller
  regs : Regs
  /-- `F_GO`, and the request that wrote it -/
  go : Option (Go × ℕ)
  status : ℕ
  data : δ
  fdir : Bool
  /-- the request whose function is being performed -/
  running : Option ℕ
  /-- history: the last function that was finished -/
  finished : Option (Done δ)
  -- the variables that the task shares with the handler
  fdBusy : Bool
  fdOp : Op
  /-- `none` for -1 -/
  fdStatus : Option ℕ
  sectorBuf : δ
  handler : Handler
  -- the messages of `interrupt`, and the watchdog
  /-- `p_int_held`, and what the held-up interrupts are about -/
  intHeld : List Origin
  /-- `p_int_blocked`, and what the interrupts are about -/
  intBlocked : List Origin
  /-- the request that has armed the watchdog -/
  timer : Option ℕ
  -- the task
  pc : Pc
  op : Op
  block : ℕ
  /-- history: the calls of `fd_sector` are counted -/
  request : ℕ
  /-- history: what the message was about that `receive(HARDWARE)` has returned -/
  received : List Origin
  deriving DecidableEq

variable {δ : Type*}

namespace State

/-- The state after the set-up of the task; the last command has just been given. -/
def initial (d : δ) : State δ where
  regs := ⟨drive2, drive2, 0, 0, 0⟩
  go := some (.mask, 0)
  status := 0
  data := d
  fdir := false
  running := none
  finished := none
  fdBusy := false
  fdOp := .read
  fdStatus := some 0
  sectorBuf := d
  handler := .off
  intHeld := []
  intBlocked := []
  timer := none
  pc := .main
  op := .read
  block := 0
  request := 0
  received := []

/-- What one round of `fd_ready` tests. -/
def ready (s : State δ) : Bool := s.running.isNone && s.go.isNone

/-! ## §2 `interrupt` and `lisa_fd_int` -/

/-- `interrupt(FLOPPY)` that does not compete: the task gets the message if it waits for it.  At
    its main loop it throws the message away. -/
def interruptNow (s : State δ) (os : List Origin) : State δ :=
  match s.pc with
  | .wait => { s with intBlocked := [], received := os, pc := .cancel }
  | .main => { s with intBlocked := [] }
  | _ => { s with intBlocked := s.intBlocked ++ os }

/-- `interrupt(FLOPPY)`; `busy` says that `k_reenter` is not 0, or that `switching` is set. -/
def interrupt (s : State δ) (o : Origin) (busy : Bool) : State δ :=
  if busy then { s with intHeld := s.intHeld ++ [o] } else s.interruptNow [o]

/-- What the interrupt of the controller is about. -/
def origin (s : State δ) : Origin :=
  match s.finished with
  | some d => .completion d.request
  | none => .other

/-- `lisa_fd_int` begins: "collect the result". -/
def collect (s : State δ) : State δ :=
  if s.fdBusy then
    { s with
      fdStatus := some s.status
      sectorBuf := if s.status = 0 ∧ s.fdOp = .read then s.data else s.sectorBuf
      handler := .poll }
  else { s with handler := .poll }

/-- `lisa_fd_int` goes on.  The result of `fd_ready` is not looked at. -/
def handle (s : State δ) (busy : Bool) : Option (State δ) :=
  match s.handler with
  | .off => none
  | .poll => some { s with handler := .func }
  | .func => some { s with regs := { s.regs with func := clearAll }, handler := .go }
  | .go => some { s with go := some (.clear, s.request), handler := .wake }
  | .wake =>
    if s.fdBusy then some ({ s with fdBusy := false, handler := .off }.interrupt s.origin busy)
    else some { s with handler := .off }

/-! ## §3 `fd_sector` -/

/-- The next statement of `fd_sector`, where it can go on. -/
def task (s : State δ) : Option (State δ) :=
  match s.pc with
  | .main | .loop | .wait => none
  | .diskIn => some { s with pc := .ready₁ }
  | .ready₁ => if s.ready then some { s with pc := .side } else none
  | .side => some { s with regs := { s.regs with side := 0 }, pc := .drive }
  | .drive => some { s with regs := { s.regs with drive := drive2 }, pc := .track }
  | .track => some { s with regs := { s.regs with track := trackOf s.block }, pc := .sector }
  | .sector => some { s with regs := { s.regs with sector := sectorOf s.block }, pc := .func }
  | .func => some { s with regs := { s.regs with func := s.op.code }, pc := .data }
  | .data => some { s with data := if s.op = .write then s.sectorBuf else s.data, pc := .ready₂ }
  | .ready₂ => if s.ready then some { s with pc := .arm } else none
  | .arm => some { s with timer := some s.request, pc := .go }
  | .go =>
    some { s with
      fdOp := s.op
      fdStatus := none
      fdBusy := true
      go := some (.rw, s.request)
      pc := .receive }
  | .receive =>
    if s.intBlocked ≠ [] then
      some { s with received := s.intBlocked, intBlocked := [], pc := .cancel }
    else some { s with pc := .wait }
  | .cancel => some { s with timer := none, pc := .test }
  | .test =>
    if s.fdBusy then some { s with fdBusy := false, pc := .ret .eio }
    else some { s with pc := .ret (if s.fdStatus = some 0 then .ok else .eio) }
  | .ret _ => some { s with pc := .loop }

/-- `fd_sector` gives up: there is no disk in the drive, or the controller does not get ready. -/
def giveUp (s : State δ) : Option (State δ) :=
  match s.pc with
  | .diskIn => some { s with pc := .ret .enxio }
  | .ready₁ | .ready₂ => some { s with pc := .ret .eio }
  | _ => none

/-- `do_rdwt` calls `fd_sector`, for a write with the sector of the caller in `sector_buf`. -/
def call (s : State δ) (op : Op) (block : ℕ) (buf : δ) : State δ :=
  { s with
    pc := .diskIn
    op := op
    block := block
    request := s.request + 1
    sectorBuf := if op = .write then buf else s.sectorBuf }

/-! ## §4 The Controller -/

/-- The controller takes a command when it is ready for one. -/
def take (s : State δ) : Option (State δ) :=
  match s.running, s.go with
  | none, some (.rw, i) => some { s with running := some i, go := none }
  | none, some (.clear, _) => some { s with fdir := false, go := none }
  | none, some (.mask, _) => some { s with go := none }
  | _, _ => none

/-- The controller finishes a function, and raises FDIR. -/
def finish (s : State δ) (status : ℕ) (data : δ) : Option (State δ) :=
  s.running.map fun i =>
    { s with
      running := none
      finished := some ⟨i, status, data⟩
      status := status
      data := data
      fdir := true }

end State

/-! ## §5 Actions -/

inductive Action (δ : Type*) where
  /-- a request arrives at the main loop, or the next sector of one is due -/
  | request
  /-- the main loop throws a message from HARDWARE away -/
  | stray
  /-- `do_rdwt` returns -/
  | reply
  | call (op : Op) (block : ℕ) (buf : δ)
  | task
  | giveUp
  /-- FDIR interrupts -/
  | irq
  | handle (busy : Bool)
  | unhold
  /-- `fd_timeout`, called by the clock task -/
  | timeout (busy : Bool)
  | take
  | finish (status : ℕ) (data : δ)
  /-- a disk is inserted, or the eject button is pressed -/
  | event

/-- One action.  While the handler runs the tasks stand still. -/
def step (s : State δ) : Action δ → Option (State δ)
  | .request => if s.handler = .off ∧ s.pc = .main then some { s with pc := .loop } else none
  | .stray =>
    if s.handler = .off ∧ s.pc = .main ∧ s.intBlocked ≠ [] then some { s with intBlocked := [] }
    else none
  | .reply => if s.handler = .off ∧ s.pc = .loop then some { s with pc := .main } else none
  | .call op block buf =>
    if s.handler = .off ∧ s.pc = .loop then some (s.call op block buf) else none
  | .task => if s.handler = .off then s.task else none
  | .giveUp => if s.handler = .off then s.giveUp else none
  | .irq => if s.handler = .off ∧ s.fdir then some s.collect else none
  | .handle busy => s.handle busy
  | .unhold =>
    if s.handler = .off ∧ s.intHeld ≠ [] then
      some ({ s with intHeld := [] }.interruptNow s.intHeld)
    else none
  | .timeout busy =>
    if s.handler = .off then
      s.timer.map fun i =>
        if s.fdBusy then { s with timer := none }.interrupt (.timeout i) busy
        else { s with timer := none }
    else none
  | .take => s.take
  | .finish status data => s.finish status data
  | .event => some { s with fdir := true }

/-- Between the write of `F_FUNC` and that of `GO_RW`. -/
def State.commanding (s : State δ) : Prop :=
  s.pc = .data ∨ s.pc = .ready₂ ∨ s.pc = .arm ∨ s.pc = .go

/-- The order of events under which the task and the handler do not get into each other's way: no
    interrupt is taken while a command is being written, nor for a function that is not finished;
    and no message is recorded for the task when it starts a function. -/
def Good (s : State δ) : Action δ → Prop
  | .irq => ¬ s.commanding ∧ (s.fdBusy = true → s.finished.map Done.request = some s.request)
  | .task => s.pc = .go → s.intHeld = [] ∧ s.intBlocked = []
  | _ => True

/-- The interrupt belongs to the request that the task is working on. -/
def State.Own (s : State δ) (o : Origin) : Prop :=
  o = .completion s.request ∨ o = .timeout s.request

/-- **What a state owes to its request**: the registers when `GO_RW` is written, the data when a
    read returns `OK`, and that message and status are about no other request. -/
structure State.Sound (s : State δ) : Prop where
  command : s.pc = .go → s.regs = command s.op s.block
  delivered : s.pc = .ret .ok → s.op = .read → s.finished = some ⟨s.request, 0, s.sectorBuf⟩
  message : s.pc = .cancel ∨ s.pc = .test → ∀ o ∈ s.received, s.Own o
  status : s.pc = .test → s.fdBusy = false →
    ∃ d, s.finished = some d ∧ d.request = s.request ∧ s.fdStatus = some d.status

/-- The states of the runs from the set-up on whose actions are `allowed`. -/
inductive Reached (allowed : State δ → Action δ → Prop) : State δ → Prop
  | initial (d : δ) : Reached allowed (.initial d)
  | step {s s' : State δ} {a : Action δ} (hs : Reached allowed s) (ha : allowed s a)
      (h : step s a = some s') : Reached allowed s'

end LisaMinix.Kernel.Floppy
