import LisaMinix.Kernel.Umap

/-!
# The Terminal Task

Model of `src/kernel/tty.c` as compiled for the Lisa, with the part of `lisa/lisacons.c` that it
calls (`kbdput`, `tty_init`, `console`).  The Lisa has one terminal, the console on line 0, and no
RS232 lines, so `tty_struct[]` has one element and `tty_o_done` is never asked anything.

- `Line`: `struct tty_struct`, with the pointers into `tty_inqueue` as indices.
- `State`: the task, with everything that it has sent and shown.
- `inChar`, `rdChars`, `charInt`: the input side.
- `step`: one message to the task, or one interrupt of the keyboard or the serial port.

Two lists of the state are histories that no function reads: `log` has what happens to the characters
of the input queue, and `reads` has the `TTY_READ` requests and the statuses they get.  The output of
`out_char` is the list `shown`.
-/

namespace LisaMinix.Kernel.Tty

open LisaMinix.Mm (MemMaps sigint sigquit)

/-! ## §1 Constants -/

/-- `TTY_IN_BYTES` -/
def ttyInBytes : ℕ := 1000

/-- `TTY_BUF_SIZE` -/
def ttyBufSize : ℕ := 256

/-- `MAX_OVERRUN` -/
def maxOverrun : ℕ := 500

/-- Mode bits (`sgtty.h`). -/
def xtabs : ℕ := 0o6000
def raw : ℕ := 0o40
def crmod : ℕ := 0o20
def echoBit : ℕ := 0o10
def cbreak : ℕ := 0o2

/-- Characters. -/
def newline : UInt8 := 10
def carriageReturn : UInt8 := 13
def backspace : UInt8 := 8
def blank : UInt8 := 32
def backslash : UInt8 := 92

/-- `MARKER`, stored for an end of file that is not escaped. -/
def marker : UInt8 := 0x80

/-- `DUMP_CHAR` -/
def dumpChar : UInt8 := 0x14

/-- Statuses (`errno.h`, `com.h`). -/
def eintr : ℤ := -4
def eio : ℤ := -5
def einval : ℤ := -22
def eBadAddr : ℤ := -10
def suspend : ℤ := -998

def rBit : ℕ := 4
def wBit : ℕ := 2

/-- `(t << 8) | n` -/
def tiocgetp : ℤ := 29704
def tiocsetp : ℤ := 29705
def tiocflush : ℤ := 29712
def tiocsetc : ℤ := 29713
def tiocgetc : ℤ := 29714

/-- A value stored in an `int`. -/
def wrap16 (n : ℤ) : ℤ := (n + 32768) % 65536 - 32768

/-! ## §2 The terminal -/

/-- `struct tty_struct`: the fields that the Lisa uses. -/
structure Line where
  inqueue : ℕ → UInt8
  inhead : ℕ
  intail : ℕ
  incount : ℕ
  lfct : ℤ
  mode : ℕ
  speed : ℕ
  /-- a backslash was just seen -/
  escaped : Bool
  /-- output is stopped -/
  inhibited : Bool
  /-- an output process waits for a reply -/
  waiting : Bool
  erase : UInt8
  kill : UInt8
  intr : UInt8
  quit : UInt8
  xon : UInt8
  xoff : UInt8
  eof : UInt8
  incaller : ℤ
  inproc : ℤ
  inVir : ℤ
  inleft : ℤ
  otcaller : ℤ
  outproc : ℤ
  phys : ℤ
  outleft : ℤ
  cum : ℤ
  pgrp : ℤ

/-- What happens to the characters of the input queue. -/
inductive QueueEvent
  /-- a character is stored; `counted` if `tty_lfct` counts it -/
  | stored (c : UInt8) (counted : Bool)
  /-- a character is stored over the oldest one, because the queue is full -/
  | overran (old c : UInt8) (counted : Bool)
  /-- an end of file that `tty_lfct` counts is dropped -/
  | dropped
  /-- the newest character is erased -/
  | erased (c : UInt8)
  /-- all characters are discarded -/
  | discarded
  /-- `rd_chars` takes characters, and copies `given` to the process -/
  | taken (cooked : Bool) (chars given : List UInt8)
  deriving DecidableEq

/-- What happens to `TTY_READ` requests. -/
inductive ReadEvent
  | issued (procNr : ℤ)
  | status (procNr code : ℤ)
  deriving DecidableEq

/-- The type of a message of the task: `TASK_REPLY` or `REVIVE`. -/
inductive ReplyCode
  | taskReply
  | revive
  deriving DecidableEq

/-- A message sent by `tty_reply`. -/
structure Reply where
  code : ReplyCode
  replyee : ℤ
  procNr : ℤ
  status : ℤ
  extra : ℤ
  other : ℤ
  deriving DecidableEq

/-- The terminal task. -/
structure State where
  tp : Line
  /-- the characters in `tty_driver_buf` -/
  driver : List UInt8
  sent : List Reply
  shown : List UInt8
  /-- the calls of `cause_sig` -/
  signals : List (ℤ × ℕ)
  /-- the copies made by `phys_copy`: where to, and what -/
  copies : List (ℤ × List UInt8)
  log : List QueueEvent
  reads : List ReadEvent

/-- What the task finds outside: the memory maps of the processes, and the memory. -/
structure Env where
  map : ℤ → MemMaps
  mem : ℤ → UInt8

namespace State

/-- Change the terminal. -/
def modTp (s : State) (f : Line → Line) : State := { s with tp := f s.tp }

/-- Put an event into the history of the queue. -/
def note (s : State) (e : QueueEvent) : State := { s with log := e :: s.log }

end State

/-- `tty_reply(code, replyee, proc_nr, status, extra, other)` -/
def ttyReply (s : State) (code : ReplyCode) (replyee procNr status extra other : ℤ) : State :=
  { s with sent := ⟨code, replyee, procNr, status, extra, other⟩ :: s.sent }

/-- A reply that is the status of a `TTY_READ` request. -/
def readReply (s : State) (code : ReplyCode) (replyee procNr status : ℤ) : State :=
  { ttyReply s code replyee procNr status 0 0 with reads := .status procNr status :: s.reads }

/-- `tty_mode & (RAW | CBREAK)`: 0 is cooked mode. -/
def Line.inputMode (tp : Line) : ℕ := tp.mode &&& (raw ||| cbreak)

def Line.cooked (tp : Line) : Bool := tp.inputMode = 0

/-- `out_char(tp, c)` -/
def outChar (s : State) (c : UInt8) : State := { s with shown := c :: s.shown }

/-- `echo(tp, c)` -/
def echo (s : State) (c : UInt8) : State :=
  if s.tp.mode &&& echoBit = 0 then s
  else if c ≠ marker ∨ s.tp.inputMode ≠ 0 then outChar s c
  else s

/-! ## §3 The input queue -/

/-- A pointer into `tty_inqueue` is advanced. -/
def next (i : ℕ) : ℕ := if i + 1 = ttyInBytes then 0 else i + 1

/-- A pointer into `tty_inqueue` is moved back. -/
def prev (i : ℕ) : ℕ := if i ≠ 0 then i - 1 else ttyInBytes - 1

/-- `*tp->tty_inhead++ = c`, and the count. -/
def Line.put (tp : Line) (c : UInt8) : Line :=
  { tp with
    inqueue := Function.update tp.inqueue tp.inhead c
    inhead := next tp.inhead
    incount := tp.incount + 1 }

/-- A character is stored. -/
def store (s : State) (c : UInt8) (counted : Bool) : State :=
  (s.modTp fun tp => tp.put c).note
    (if s.tp.incount < ttyInBytes then .stored c counted
     else .overran (s.tp.inqueue s.tp.inhead) c counted)

/-- `chuck(tp)`; `none` is the result -1. -/
def chuck (s : State) : Option State :=
  if s.tp.incount = 0 then none
  else
    let c := s.tp.inqueue (prev s.tp.inhead)
    if c = newline ∨ c = carriageReturn then none
    else some ((s.modTp fun tp =>
      { tp with inhead := prev tp.inhead, incount := tp.incount - 1 }).note (.erased c))

/-- `while (chuck(tp) == OK)`, at most `n` times. -/
def chuckAll : ℕ → State → State
  | 0, s => s
  | n + 1, s =>
    match chuck s with
    | none => s
    | some s => chuckAll n s

/-- The input is discarded. -/
def discard (s : State) : State :=
  (s.modTp fun tp => { tp with inhead := 0, intail := 0, incount := 0, lfct := 0 }).note .discarded

/-! ## §4 Output -/

/-- `finish(tp, code)` -/
def finish (s : State) (code : ℤ) : State :=
  let s := s.modTp fun tp => { tp with outleft := 0 }
  if s.tp.waiting = false then s
  else (ttyReply s .taskReply s.tp.otcaller s.tp.outproc code 0 0).modTp fun tp =>
    { tp with waiting := false }

/-- `console(tp)`, the routine `tty_devstart`: nothing stops the loop once it has begun. -/
def console (env : Env) (s : State) : State :=
  let n := if s.tp.inhibited then 0 else s.tp.outleft.toNat
  let s := { s with
    shown := ((List.range n).map fun i => env.mem (s.tp.phys + i)).reverse ++ s.shown
    tp := { s.tp with
      outleft := s.tp.outleft - n
      phys := s.tp.phys + n
      cum := s.tp.cum + n } }
  if s.tp.outleft = 0 then finish s s.tp.cum else s

/-- `sigchar(tp, sig)` -/
def sigchar (s : State) (sig : ℕ) : State :=
  let s := discard (finish (s.modTp fun tp => { tp with inhibited := false }) eintr)
  if s.tp.pgrp ≠ 0 then { s with signals := (s.tp.pgrp, sig) :: s.signals } else s

/-! ## §5 `in_char` -/

/-- "All 3 modes come here": the character is counted, stored and echoed.  `counted` says that it is
an end of file, which has been counted before. -/
def storeChar (s : State) (ch : UInt8) (counted : Bool) : State :=
  let s := if ch = newline then s.modTp fun tp => { tp with lfct := wrap16 (tp.lfct + 1) } else s
  echo (store s ch (counted || ch = newline)) ch

/-- "Both COOKED and CBREAK mode come here". -/
def specialChar (env : Env) (s : State) (ch : UInt8) (counted : Bool) : State :=
  let ch := if ch = carriageReturn ∧ s.tp.mode &&& crmod ≠ 0 then newline else ch
  -- a counted end of file that is not stored is noted as dropped
  let drop (s : State) : State := if counted then s.note .dropped else s
  if ch = s.tp.intr ∨ ch = s.tp.quit then
    sigchar (drop s) (if ch = s.tp.intr then sigint else sigquit)
  else if ch = s.tp.xoff then (drop s).modTp fun tp => { tp with inhibited := true }
  else if s.tp.inhibited then
    console env ((drop s).modTp fun tp => { tp with inhibited := false })
  else storeChar s ch counted

/-- The processing for cooked mode only. -/
def cookedChar (env : Env) (s : State) (ch : UInt8) : State :=
  if ch = s.tp.erase ∧ s.tp.escaped = false then
    match chuck s with
    | none => s
    | some s => echo (echo (echo s backspace) blank) backspace
  else if ch = s.tp.kill ∧ s.tp.escaped = false then
    let s := chuckAll s.tp.incount s
    echo (echo s s.tp.kill) newline
  else if s.tp.escaped = false then
    if ch = backslash then echo (s.modTp fun tp => { tp with escaped := true }) ch
    else if ch = s.tp.eof then
      specialChar env (s.modTp fun tp => { tp with lfct := wrap16 (tp.lfct + 1) }) marker true
    else specialChar env s ch false
  else
    let s := s.modTp fun tp => { tp with escaped := false }
    if ch ≠ s.tp.erase ∧ ch ≠ s.tp.kill ∧ ch ≠ s.tp.eof then
      -- the backslash that was skipped over
      specialChar env (store s backslash false) ch false
    else specialChar env s ch false

/-- `in_char(line, ch)` for the console.  There is room for one character; function keys come in on
line `OPERATOR` only, which the Lisa's drivers do not use. -/
def inChar (env : Env) (s : State) (ch : UInt8) : State :=
  if ttyInBytes ≤ s.tp.incount then s
  else
    let mode := s.tp.inputMode
    let ch := if mode ≠ raw then ch &&& 0x7F else ch
    if mode = 0 then cookedChar env s ch
    else if mode = cbreak then specialChar env s ch false
    else storeChar s ch false

/-! ## §6 `rd_chars` -/

/-- The inner loop of `rd_chars`, for at most `n` characters: what is taken, whether an end of file
has been seen, and `enough`. -/
def fillBuf (cooked : Bool) : ℕ → Line → Line × List UInt8 × Bool × Bool
  | 0, tp => (tp, [], false, false)
  | n + 1, tp =>
    let ch := tp.inqueue tp.intail
    let tp := { tp with intail := next tp.intail }
    if ch = newline ∨ (ch = marker ∧ cooked) then
      let tp := { tp with lfct := wrap16 (tp.lfct - 1) }
      if cooked then (tp, [ch], ch = marker, true)
      else
        let (tp, chars, eot, _) := fillBuf cooked n tp
        (tp, ch :: chars, eot || ch = marker, true)
    else
      let (tp, chars, eot, enough) := fillBuf cooked n tp
      (tp, ch :: chars, eot, enough)

/-- The state of the outer loop of `rd_chars`: what has been taken and given so far. -/
structure Transfer where
  tp : Line
  userPhys : ℤ
  chars : List UInt8
  given : List UInt8
  copies : List (ℤ × List UInt8)
  enough : Bool

/-- One round of the outer loop: one buffer is filled and copied to the process. -/
def Transfer.round (cooked : Bool) (x : Transfer) : Transfer :=
  let bufCt := min (min x.tp.inleft.toNat x.tp.incount) ttyBufSize
  let (tp, chars, eot, enough) := fillBuf cooked bufCt x.tp
  let user := if eot then chars.dropLast else chars
  { tp :=
      { tp with
        inleft := tp.inleft - chars.length
        incount := tp.incount - chars.length }
    userPhys := x.userPhys + user.length
    chars := x.chars ++ chars
    given := x.given ++ user
    copies := (x.userPhys, user) :: x.copies
    enough := enough }

/-- The outer loop of `rd_chars`, at most `fuel` rounds. -/
def Transfer.loop (cooked : Bool) : ℕ → Transfer → Transfer
  | 0, x => x
  | fuel + 1, x =>
    if x.tp.inleft ≤ 0 then x
    else
      let x := x.round cooked
      if x.tp.incount = 0 ∨ x.enough then x else x.loop cooked fuel

/-- `rd_chars(tp)`: the code, and the state. -/
def rdChars (env : Env) (s : State) : ℤ × State :=
  let cooked := s.tp.cooked
  if s.tp.incount = 0 ∨ (cooked ∧ s.tp.lfct = 0) then (suspend, s)
  else
    let userPhys := umap (env.map s.tp.inproc) 1 s.tp.inVir s.tp.inleft
    if userPhys = 0 then (eBadAddr, s)
    else
      let x := Transfer.loop cooked s.tp.incount ⟨s.tp, userPhys, [], [], s.copies, false⟩
      (x.given.length,
        { s with tp := { x.tp with inleft := 0 }, copies := x.copies }.note
          (.taken cooked x.chars x.given))

/-! ## §7 `charint` -/

/-- `charint` for one character: it is queued, and a reader that can be satisfied is told. -/
def charStep (env : Env) (s : State) (ch : UInt8) : State :=
  let s := inChar env s ch
  if 0 < s.tp.inleft ∧ (0 < s.tp.lfct ∨ (s.tp.inputMode ≠ 0 ∧ 0 < s.tp.incount)) then
    let (m, s) := rdChars env s
    readReply s .revive s.tp.incaller s.tp.inproc m
  else s

/-- `charint()`: the characters that have been accumulated, each in turn. -/
def charInt (env : Env) (s : State) : State :=
  s.driver.foldl (charStep env) { s with driver := [] }

/-- `kbdput(c, CONSOLE)`, called by the interrupts of the keyboard and of the serial port. -/
def kbdput (s : State) (c : UInt8) : State :=
  if c = dumpChar then s
  else if maxOverrun ≤ s.driver.length then s
  else { s with driver := s.driver ++ [c] }

/-! ## §8 Messages -/

/-- What `do_read` copies from the message. -/
def Line.request (tp : Line) (source procNr address count : ℤ) : Line :=
  { tp with incaller := source, inproc := procNr, inVir := address, inleft := count }

/-- `do_read(tp, m_ptr)` -/
def doRead (env : Env) (s : State) (source procNr address count : ℤ) : State :=
  let s := { s with reads := .issued procNr :: s.reads }
  if 0 < s.tp.inleft then readReply s .taskReply source procNr eio
  else
    let (code, s) := rdChars env (s.modTp fun tp => tp.request source procNr address count)
    readReply s .taskReply source s.tp.inproc code

/-- `do_write(tp, m_ptr)` on line 0, where the caller is not suspended. -/
def doWrite (env : Env) (s : State) (source procNr address count : ℤ) : State :=
  if 0 < s.tp.outleft then ttyReply s .taskReply source procNr eio 0 0
  else
    let phys := umap (env.map procNr) 1 address count
    console env (s.modTp fun tp =>
      { tp with
        otcaller := source
        outproc := procNr
        waiting := true
        phys := phys
        outleft := if phys = 0 then 0 else count
        cum := if phys = 0 then eBadAddr else 0 })

/-- Byte `n` of a long. -/
def byteOf (v : ℕ) (n : ℕ) : UInt8 := UInt8.ofNat (v >>> (8 * n))

/-- `do_ioctl(tp, m_ptr)` -/
def doIoctl (s : State) (source procNr request : ℤ) (spek flags : ℕ) : State :=
  if request = tiocsetp then
    let s := s.modTp fun tp =>
      { tp with
        erase := byteOf spek 1
        kill := byteOf spek 0
        mode := flags % 65536
        speed := if spek >>> 16 % 65536 ≠ 0 then spek >>> 16 % 65536 else tp.speed }
    ttyReply s .taskReply source procNr 0 0 0
  else if request = tiocsetc then
    let s := s.modTp fun tp =>
      { tp with
        intr := byteOf spek 3
        quit := byteOf spek 2
        xon := byteOf spek 1
        xoff := byteOf spek 0
        eof := byteOf flags 1 }
    ttyReply s .taskReply source procNr 0 0 0
  else if request = tiocgetp then
    ttyReply s .taskReply source procNr 0 (wrap16 s.tp.mode)
      (s.tp.speed <<< 16 ||| s.tp.erase.toNat <<< 8 ||| s.tp.kill.toNat : ℕ)
  else if request = tiocgetc then
    ttyReply s .taskReply source procNr 0 (s.tp.eof.toNat <<< 8 : ℕ)
      (s.tp.intr.toNat <<< 24 ||| s.tp.quit.toNat <<< 16 ||| s.tp.xon.toNat <<< 8 |||
        s.tp.xoff.toNat : ℕ)
  else if request = tiocflush then
    ttyReply { s with driver := [] } .taskReply source procNr 0 0 0
  else ttyReply s .taskReply source procNr einval 0 0

/-- `do_setpgrp(tp, m_ptr)` -/
def doSetpgrp (s : State) (source procNr pgrp : ℤ) : State :=
  ttyReply (s.modTp fun tp => { tp with pgrp := pgrp }) .taskReply source procNr 0 0 0

/-- `do_cancel(tp, m_ptr)`; `mode` is the field `COUNT`. -/
def doCancel (s : State) (source procNr : ℤ) (mode : ℕ) : State :=
  if s.tp.inleft = 0 ∧ s.tp.outleft = 0 then s
  else
    let reading := mode &&& rBit ≠ 0
    let s := if reading then
        (discard s).modTp fun tp => { tp with inleft := 0, inhibited := false } else s
    let s := if mode &&& wBit ≠ 0 then
        s.modTp fun tp => { tp with outleft := 0, waiting := false } else s
    if reading then readReply s .taskReply source procNr eintr
    else ttyReply s .taskReply source procNr eintr 0 0

/-- What the task is called for; the first is not a message, but an interrupt. -/
inductive Event
  | key (c : UInt8)
  | hardInt
  | read (source procNr address count : ℤ)
  | write (source procNr address count : ℤ)
  | ioctl (source procNr request : ℤ) (spek flags : ℕ)
  | setpgrp (source procNr pgrp : ℤ)
  | cancel (source procNr : ℤ) (mode : ℕ)
  | other (source procNr : ℤ)
  deriving DecidableEq

/-- One turn of the loop of `tty_task`, or an interrupt. -/
def step (env : Env) (s : State) : Event → State
  | .key c => kbdput s c
  | .hardInt => charInt env s
  | .read source procNr address count => doRead env s source procNr address count
  | .write source procNr address count => doWrite env s source procNr address count
  | .ioctl source procNr request spek flags => doIoctl s source procNr request spek flags
  | .setpgrp source procNr pgrp => doSetpgrp s source procNr pgrp
  | .cancel source procNr mode => doCancel s source procNr mode
  | .other source procNr => ttyReply s .taskReply source procNr einval 0 0

/-! ## §9 Runs -/

/-- The terminal after `tty_init`. -/
def ttyInit : Line where
  inqueue _ := 0
  inhead := 0
  intail := 0
  incount := 0
  lfct := 0
  mode := crmod ||| xtabs ||| echoBit
  speed := 0
  escaped := false
  inhibited := false
  waiting := false
  erase := backspace
  kill := 64
  intr := 0x7F
  quit := 0x1C
  xon := 0x11
  xoff := 0x13
  eof := 4
  incaller := 0
  inproc := 0
  inVir := 0
  inleft := 0
  otcaller := 0
  outproc := 0
  phys := 0
  outleft := 0
  cum := 0
  pgrp := 0

def start : State := ⟨ttyInit, [], [], [], [], [], [], []⟩

/-- A condition on every keystroke that `charint` finds: on the state before it, and the character. -/
def AllKeys (P : Env → State → UInt8 → Prop) (env : Env) : State → List UInt8 → Prop
  | _, [] => True
  | s, c :: l => P env s c ∧ AllKeys P env (charStep env s c) l

instance instDecidableAllKeys (P : Env → State → UInt8 → Prop)
    [∀ env s c, Decidable (P env s c)] (env : Env) :
    ∀ (s : State) (l : List UInt8), Decidable (AllKeys P env s l)
  | _, [] => inferInstanceAs (Decidable True)
  | s, c :: l =>
    have := instDecidableAllKeys P env (charStep env s c) l
    inferInstanceAs (Decidable (_ ∧ _))

/-- The states that the task reaches from the start by events that meet the condition `safe`. -/
inductive Reached (safe : Env → State → Event → Prop) : State → Prop
  | start : Reached safe start
  | step {s} (env : Env) (e : Event) : Reached safe s → safe env s e → Reached safe (step env s e)

/-- An invariant holds of every state reached, if each event keeps it. -/
theorem Reached.invariant {safe : Env → State → Event → Prop} {P : State → Prop}
    (hstart : P Tty.start) (hstep : ∀ env s e, P s → safe env s e → P (Tty.step env s e)) {s : State}
    (h : Reached safe s) : P s := by
  induction h with
  | start => exact hstart
  | step env e _ hsafe ih => exact hstep env _ e ih hsafe

/-- The states reached by a list of events. -/
def play (env : Env) : List Event → State → State
  | [], s => s
  | e :: es, s => play env es (step env s e)

/-- Every event of the list meets the condition, when its turn comes. -/
def PlaySafe (safe : Env → State → Event → Prop) (env : Env) : List Event → State → Prop
  | [], _ => True
  | e :: es, s => safe env s e ∧ PlaySafe safe env es (step env s e)

instance instDecidablePlaySafe (safe : Env → State → Event → Prop)
    [∀ env s e, Decidable (safe env s e)] (env : Env) :
    ∀ (es : List Event) (s : State), Decidable (PlaySafe safe env es s)
  | [], _ => inferInstanceAs (Decidable True)
  | e :: es, s =>
    have := instDecidablePlaySafe safe env es (step env s e)
    inferInstanceAs (Decidable (_ ∧ _))

theorem Reached.play {safe : Env → State → Event → Prop} {env : Env} {es : List Event} {s : State}
    (h : Reached safe s) (hsafe : PlaySafe safe env es s) : Reached safe (play env es s) := by
  induction es generalizing s with
  | nil => exact h
  | cons e es ih => exact ih (h.step env e hsafe.1) hsafe.2

theorem playSafe_true (env : Env) (es : List Event) (s : State) :
    PlaySafe (fun _ _ _ => True) env es s := by
  induction es generalizing s with
  | nil => trivial
  | cons e es ih => exact ⟨trivial, ih _⟩

end LisaMinix.Kernel.Tty
