import LisaMinix.Mm.Alarms
import LisaMinix.Mm.ExecImage

/-!
# When Alarms Go Off

The clock once more, now with its arithmetic: `HZ * sec` in `set_alarm` of MM is an `unsigned`,
`realtime`, `next_alarm`, `pending_ticks` and `p_alarm` of the clock task are `long`.  The interrupt
handler counts ticks that the task has not seen yet, and wakes the task when `next_alarm` says so.

- `ClockTask`: the variables of `clock.c`; `perform` is one interrupt or one activation of the task.
- `Ok`: `next_alarm` is not later than any alarm.
- `OnTime`: SIGALRM is caused once, by the first clock tick at or after the deadline.
- `alarm_onTime`: alarms are on time as long as the arithmetic is exact.
-/

namespace LisaMinix.Mm

open Function

open LisaMinix.Kernel
open LisaMinix.Mm.Alarm (slot)
open LisaMinix.Mm.Alarm.Alarms (deltaTicks)

/-! ## §1 The Code -/

/-- The variables of the clock task, and `p_alarm` of all slots. -/
structure ClockTask where
  realtime : ℤ
  pendingTicks : ℤ
  nextAlarm : ℤ
  pAlarm : ProcPtr → ℤ

namespace ClockTask

/-- Start-up. -/
def boot : ClockTask := ⟨0, 0, 0, fun _ => 0⟩

/-- The ticks since start-up. -/
def now (c : ClockTask) : ℤ := c.realtime + c.pendingTicks

/-- "Which alarm is next?" -/
def earliest (pAlarm : ProcPtr → ℤ) : ℤ :=
  (List.finRange (nrTasks + nrProcs)).foldl
    (fun next rp => if pAlarm rp ≠ 0 ∧ pAlarm rp < next then pAlarm rp else next) maxPLong

/-- The task has received a message: "transfer ticks from low level handler". -/
def activate (c : ClockTask) : ClockTask :=
  { c with realtime := wrap32 (c.realtime + c.pendingTicks), pendingTicks := 0 }

/-- `do_setalarm`, with `SECONDS_LEFT` of its answer. -/
def doSetalarm (c : ClockTask) (rp : ProcPtr) (deltaTicks : ℤ) : ClockTask × ℤ :=
  let secondsLeft := if c.pAlarm rp = 0 then 0 else (wrap32 (c.pAlarm rp - c.realtime)).tdiv hz
  let pAlarm := update c.pAlarm rp
    (if deltaTicks = 0 then 0 else wrap32 (c.realtime + deltaTicks))
  ({ c with pAlarm := pAlarm, nextAlarm := earliest pAlarm }, secondsLeft)

/-- The alarm of `rp` has gone off when `do_clocktick` looks at it. -/
def due (c : ClockTask) (rp : ProcPtr) : Bool :=
  c.pAlarm rp != 0 && decide (c.pAlarm rp ≤ c.realtime)

/-- `do_clocktick`, with the processes that SIGALRM is caused for. -/
def doClocktick (c : ClockTask) : ClockTask × List ProcNr :=
  if c.nextAlarm ≤ c.realtime then
    let pAlarm := fun rp => if c.due rp then 0 else c.pAlarm rp
    ({ c with pAlarm := pAlarm, nextAlarm := earliest pAlarm },
      (List.finRange nrProcs).filter fun p => c.due (slot p))
  else (c, [])

/-- `clock_handler`, and whether it calls `interrupt(CLOCK)`; `sched` is the other reason to. -/
def clockHandler (c : ClockTask) (sched : Bool) : ClockTask × Bool :=
  let c := { c with pendingTicks := wrap32 (c.pendingTicks + 1) }
  (c, decide (c.nextAlarm ≤ wrap32 (c.realtime + c.pendingTicks)) || sched)

/-- What can happen: an interrupt, an activation of the task, or a system call that touches
    `p_alarm`. -/
inductive Event
  | interrupt (sched : Bool)
  | setAlarm (p : ProcNr) (sec : UInt16)
  | taskAlarm (t : Fin nrTasks) (deltaTicks : ℤ)
  | time
  | tick
  | fork (p child : ProcNr)
  | exec (p : ProcNr)
  | xit (p : ProcNr)

/-- What can be seen of it. -/
inductive Output
  | woken (b : Bool)
  | remaining (p : ProcNr) (seconds : ℤ)
  | ticked (realtime : ℤ) (caused : List ProcNr)
  | nothing
  deriving DecidableEq

/-- One event. -/
def perform (c : ClockTask) : Event → ClockTask × Output
  | .interrupt sched =>
    let (c, woken) := c.clockHandler sched
    (c, .woken woken)
  | .setAlarm p sec =>
    -- `set_alarm` of MM: `HZ * sec` is unsigned, and the answer is stored in an `int`
    let (c, left) := c.activate.doSetalarm (slot p) (deltaTicks sec)
    (c, .remaining p (asInt left))
  | .taskAlarm t deltaTicks => ((c.activate.doSetalarm (Fin.castAdd nrProcs t) deltaTicks).1, .nothing)
  | .time => (c.activate, .nothing)
  | .tick =>
    let (c, caused) := c.activate.doClocktick
    (c, .ticked c.realtime caused)
  | .fork p child =>
    ({ c with pAlarm := update c.pAlarm (slot child) (c.pAlarm (slot p)) },
      .nothing)
  | .exec p => ({ c with pAlarm := update c.pAlarm (slot p) 0 }, .nothing)
  | .xit p => ({ c with pAlarm := update c.pAlarm (slot p) 0 }, .nothing)

/-- Several events, one after the other. -/
def run (c : ClockTask) : List Event → ClockTask × List Output
  | [] => (c, [])
  | e :: es =>
    let (c, out) := c.perform e
    let (c, outs) := c.run es
    (c, out :: outs)

/-! ## §2 What Is Asked For -/

/-- The event sets, cancels or overwrites the alarm of `p`. -/
def Event.Replaces (p : ProcNr) : Event → Prop
  | .setAlarm q _ => q = p
  | .fork _ child => child = p
  | .exec q => q = p
  | .xit q => q = p
  | _ => False

/-- SIGALRM is never caused for `p`. -/
def Never (p : ProcNr) (outs : List Output) : Prop :=
  ∀ t caused, Output.ticked t caused ∈ outs → p ∉ caused

/-- SIGALRM is caused for `p` by the first clock tick at or after the deadline, and by no other. -/
def OnTime (p : ProcNr) (deadline : ℤ) : List Output → Prop
  | [] => True
  | .ticked t caused :: outs =>
    if deadline ≤ t then p ∈ caused ∧ Never p outs else p ∉ caused ∧ OnTime p deadline outs
  | _ :: outs => OnTime p deadline outs

/-- The whole seconds to the deadline. -/
def wholeSeconds (deadline now : ℤ) : ℤ := max 0 (deadline - now) / 60

/-- The arithmetic of an event is exact: `HZ * sec` fits into 16 bits and all times into a `long`;
    and an alarm is not replaced when it has been due for a second. -/
def Safe (c : ClockTask) : Event → Prop
  | .interrupt _ => c.now + 1 < 2147483648
  | .setAlarm p sec => 60 * sec.toNat < 65536 ∧ c.now + 60 * sec.toNat < 2147483648 ∧
      (c.pAlarm (slot p) = 0 ∨ c.now < c.pAlarm (slot p) + 60)
  | .taskAlarm _ deltaTicks => 0 ≤ deltaTicks ∧ c.now + deltaTicks < 2147483648
  | _ => True

/-- All events of a list are safe when they happen. -/
def SafeRun (c : ClockTask) : List Event → Prop
  | [] => True
  | e :: es => c.Safe e ∧ (c.perform e).1.SafeRun es

/-- The states that the clock reaches from start-up. -/
inductive Reached (safe : ClockTask → Event → Prop) : ClockTask → Prop
  | boot : Reached safe boot
  | step {c : ClockTask} (h : Reached safe c) (e : Event) (hsafe : safe c e) :
      Reached safe (c.perform e).1

/-! ## §3 The Next Alarm -/

/-- `next_alarm` is not later than any alarm, and times are times. -/
structure Ok (c : ClockTask) : Prop where
  realtime : 0 ≤ c.realtime
  pendingTicks : 0 ≤ c.pendingTicks
  now_lt : c.now < 2147483648
  alarm : ∀ rp, c.pAlarm rp = 0 ∨ (0 < c.pAlarm rp ∧ c.pAlarm rp < 2147483648 ∧
    c.nextAlarm ≤ c.pAlarm rp)

/-- The fold finds a lower bound. -/
theorem foldl_earliest_le (pAlarm : ProcPtr → ℤ) (l : List ProcPtr) : ∀ next : ℤ,
    (l.foldl (fun next rp => if pAlarm rp ≠ 0 ∧ pAlarm rp < next then pAlarm rp else next) next ≤ next) ∧
    ∀ rp ∈ l, pAlarm rp ≠ 0 →
      l.foldl (fun next rp => if pAlarm rp ≠ 0 ∧ pAlarm rp < next then pAlarm rp else next) next ≤
        pAlarm rp := by
  induction l with
  | nil => exact fun next => ⟨le_rfl, fun _ h => absurd h (List.not_mem_nil)⟩
  | cons q l ih =>
    intro next
    rw [List.foldl_cons]
    obtain ⟨hle, hall⟩ := ih (if pAlarm q ≠ 0 ∧ pAlarm q < next then pAlarm q else next)
    refine ⟨hle.trans ?_, ?_⟩
    · split
      next h => exact h.2.le
      next => exact le_rfl
    · intro rp hrp hne
      rcases List.mem_cons.mp hrp with rfl | hmem
      · refine hle.trans ?_
        split
        next => exact le_rfl
        next h => exact not_lt.mp fun hlt => h ⟨hne, hlt⟩
      · exact hall rp hmem hne

theorem earliest_le {pAlarm : ProcPtr → ℤ} {rp : ProcPtr} (h : pAlarm rp ≠ 0) :
    earliest pAlarm ≤ pAlarm rp :=
  (foldl_earliest_le pAlarm _ _).2 rp (List.mem_finRange rp) h

section Steps

variable {c : ClockTask}

theorem boot_ok : boot.Ok := ⟨le_rfl, le_rfl, by decide, fun _ => .inl rfl⟩

/-- The task takes over the ticks, and nothing else changes. -/
theorem Ok.activate_eq (h : c.Ok) : c.activate = { c with realtime := c.now, pendingTicks := 0 } := by
  have hr := h.realtime
  have hp := h.pendingTicks
  have hlt := h.now_lt
  have hwrap : wrap32 (c.realtime + c.pendingTicks) = c.now := by
    unfold now at hlt ⊢
    unfold wrap32
    omega
  unfold activate
  rw [hwrap]

theorem Ok.activate (h : c.Ok) : c.activate.Ok := by
  have hr := h.realtime
  have hp := h.pendingTicks
  have hlt := h.now_lt
  rw [h.activate_eq]
  unfold now at hlt ⊢
  exact ⟨add_nonneg hr hp, le_rfl, by unfold now; dsimp only; omega, h.alarm⟩

/-- Slots whose alarm is off, or as it was, or in the future, with `next_alarm` computed anew. -/
theorem Ok.renew (h : c.Ok) {pAlarm : ProcPtr → ℤ}
    (hall : ∀ rp, pAlarm rp = 0 ∨ (0 < pAlarm rp ∧ pAlarm rp < 2147483648)) :
    Ok { c with pAlarm := pAlarm, nextAlarm := earliest pAlarm } := by
  refine ⟨h.realtime, h.pendingTicks, h.now_lt, fun rp => ?_⟩
  rcases hall rp with hzero | ⟨hpos, hlt⟩
  · exact .inl hzero
  · exact .inr ⟨hpos, hlt, earliest_le (by omega)⟩

/-- `do_setalarm` with exact arithmetic. -/
theorem Ok.doSetalarm (h : c.Ok) (rp : ProcPtr) {deltaTicks : ℤ} (hpos : 0 ≤ deltaTicks)
    (hlt : c.realtime + deltaTicks < 2147483648) :
    (c.doSetalarm rp deltaTicks).1.Ok ∧
    (c.doSetalarm rp deltaTicks).1.pAlarm =
      update c.pAlarm rp (if deltaTicks = 0 then 0 else c.realtime + deltaTicks) := by
  have hr := h.realtime
  have hwrap : wrap32 (c.realtime + deltaTicks) = c.realtime + deltaTicks := by
    unfold wrap32
    omega
  unfold ClockTask.doSetalarm
  rw [hwrap]
  refine ⟨h.renew fun q => ?_, rfl⟩
  rw [update_apply]
  split
  · split
    · exact .inl rfl
    · exact .inr ⟨by omega, hlt⟩
  · rcases h.alarm q with hzero | ⟨hq, hq', -⟩
    · exact .inl hzero
    · exact .inr ⟨hq, hq'⟩

theorem Ok.doClocktick (h : c.Ok) : c.doClocktick.1.Ok := by
  unfold ClockTask.doClocktick
  split
  · refine h.renew fun rp => ?_
    split
    · exact .inl rfl
    · rcases h.alarm rp with hzero | ⟨hq, hq', -⟩
      · exact .inl hzero
      · exact .inr ⟨hq, hq'⟩
  · exact h

/-- Turning off an alarm, or copying one. -/
theorem Ok.update (h : c.Ok) (rp : ProcPtr) {v : ℤ} (hv : v = 0 ∨ ∃ q, v = c.pAlarm q) :
    Ok { c with pAlarm := update c.pAlarm rp v } := by
  refine ⟨h.realtime, h.pendingTicks, h.now_lt, fun q => ?_⟩
  dsimp only
  rw [update_apply]
  split
  · rcases hv with rfl | ⟨q', rfl⟩
    · exact .inl rfl
    · exact h.alarm q'
  · exact h.alarm q

theorem deltaTicks_eq {sec : UInt16} (h : 60 * sec.toNat < 65536) : deltaTicks sec = 60 * sec.toNat := by
  unfold deltaTicks hz
  omega

/-- **One event** keeps `next_alarm` in front of all alarms. -/
theorem Ok.perform (h : c.Ok) {e : Event} (hsafe : c.Safe e) : (c.perform e).1.Ok := by
  have hact := h.activate
  have heq := h.activate_eq
  cases e with
  | interrupt sched =>
    have hr := h.realtime
    have hp := h.pendingTicks
    have hlt : c.now + 1 < 2147483648 := hsafe
    unfold now at hlt
    have hwrap : wrap32 (c.pendingTicks + 1) = c.pendingTicks + 1 := by
      unfold wrap32
      omega
    unfold ClockTask.perform clockHandler
    dsimp only
    rw [hwrap]
    exact ⟨hr, by dsimp only; omega, by unfold now; dsimp only; omega, h.alarm⟩
  | setAlarm p sec =>
    obtain ⟨hticks, hlt, -⟩ := hsafe
    refine (hact.doSetalarm (slot p) (Int.natCast_nonneg _) ?_).1
    rw [heq, deltaTicks_eq hticks]
    push_cast
    exact hlt
  | taskAlarm t deltaTicks =>
    obtain ⟨hpos, hlt⟩ := hsafe
    refine (hact.doSetalarm _ hpos ?_).1
    rw [heq]
    exact hlt
  | time => exact hact
  | tick => exact hact.doClocktick
  | fork p child => exact h.update _ (.inr ⟨_, rfl⟩)
  | exec p => exact h.update _ (.inl rfl)
  | xit p => exact h.update _ (.inl rfl)

theorem Reached.ok (h : Reached Safe c) : c.Ok := by
  induction h with
  | boot => exact boot_ok
  | step _ e hsafe ih => exact ih.perform hsafe

/-! ## §4 One Alarm -/

/-- The event is a clock tick that causes SIGALRM for `p` just when its alarm is due, or it is not a
    clock tick and leaves the alarm of `p` alone. -/
inductive Step (p : ProcNr) (c c' : ClockTask) : Output → Prop
  | fired {caused : List ProcNr} (hp : p ∈ caused) (hset : c.pAlarm (slot p) ≠ 0)
      (hdue : c.pAlarm (slot p) ≤ c.now) (hoff : c'.pAlarm (slot p) = 0) :
      Step p c c' (.ticked c.now caused)
  | waits {caused : List ProcNr} (hp : p ∉ caused)
      (hnot : c.pAlarm (slot p) = 0 ∨ c.now < c.pAlarm (slot p))
      (hsame : c'.pAlarm (slot p) = c.pAlarm (slot p)) : Step p c c' (.ticked c.now caused)
  | other {out : Output} (hout : ∀ t caused, out ≠ .ticked t caused)
      (hsame : c'.pAlarm (slot p) = c.pAlarm (slot p)) : Step p c c' out

theorem slot_ne_task (p : ProcNr) (t : Fin nrTasks) : slot p ≠ Fin.castAdd nrProcs t := by
  intro h
  have hval := congrArg Fin.val h
  unfold slot at hval
  rw [Fin.val_castAdd] at hval
  dsimp only at hval
  omega

theorem slot_ne {p q : ProcNr} (h : q ≠ p) : slot p ≠ slot q :=
  fun heq => h (Alarm.slot_inj.mp heq).symm

/-- A clock tick, for one process: `next_alarm` does not hide its alarm. -/
theorem Ok.tick_step (h : c.Ok) (p : ProcNr) :
    Step p c (c.perform .tick).1 (c.perform .tick).2 := by
  have hreal : c.activate.doClocktick.1.realtime = c.now := by
    rw [h.activate_eq]
    unfold ClockTask.doClocktick
    split <;> rfl
  have hout : (c.perform .tick).2 = .ticked c.now c.activate.doClocktick.2 := by
    rw [← hreal]
    rfl
  have hstate : (c.perform .tick).1 = c.activate.doClocktick.1 := rfl
  rw [hout, hstate, h.activate_eq]
  unfold ClockTask.doClocktick
  dsimp only
  split
  next hnext =>
    cases hdue : due { c with realtime := c.now, pendingTicks := 0 } (slot p) with
    | true =>
      have hparts := hdue
      unfold due at hparts
      simp only [Bool.and_eq_true, bne_iff_ne, decide_eq_true_eq] at hparts
      exact .fired (by simpa using hdue) hparts.1 hparts.2 (by simp [hdue])
    | false =>
      have hparts := hdue
      unfold due at hparts
      simp only [Bool.and_eq_false_iff, bne_eq_false_iff_eq, decide_eq_false_iff_not, not_le] at hparts
      exact .waits (by simpa using hdue) hparts (by simp [hdue])
  next hnext =>
    refine .waits List.not_mem_nil ?_ rfl
    rcases h.alarm (slot p) with hzero | ⟨-, -, hle⟩
    · exact .inl hzero
    · exact .inr (by omega)

variable {p : ProcNr}

/-- **One event, for one process** whose alarm it does not replace. -/
theorem Ok.step (h : c.Ok) {e : Event} (hsafe : c.Safe e) (hnot : ¬e.Replaces p) :
    Step p c (c.perform e).1 (c.perform e).2 := by
  have heq := h.activate_eq
  cases e with
  | interrupt sched => exact .other (fun _ _ h => by cases h) rfl
  | setAlarm q sec =>
    refine .other (fun _ _ h => by cases h) ?_
    have hsame : (c.perform (.setAlarm q sec)).1.pAlarm (slot p) =
        Function.update c.activate.pAlarm (slot q) _ (slot p) := rfl
    rw [hsame, update_of_ne (slot_ne hnot), heq]
  | taskAlarm t deltaTicks =>
    refine .other (fun _ _ h => by cases h) ?_
    have hsame : (c.perform (.taskAlarm t deltaTicks)).1.pAlarm (slot p) =
        Function.update c.activate.pAlarm (Fin.castAdd nrProcs t) _ (slot p) := rfl
    rw [hsame, update_of_ne (slot_ne_task p t), heq]
  | time =>
    refine .other (fun _ _ h => by cases h) ?_
    exact congrArg (fun c => c.pAlarm (slot p)) heq
  | tick => exact h.tick_step p
  | fork q child =>
    exact .other (fun _ _ h => by cases h) (update_of_ne (slot_ne hnot) _ _)
  | exec q => exact .other (fun _ _ h => by cases h) (update_of_ne (slot_ne hnot) _ _)
  | xit q => exact .other (fun _ _ h => by cases h) (update_of_ne (slot_ne hnot) _ _)

/-- Time does not go back. -/
theorem Ok.now_le (h : c.Ok) {e : Event} (hsafe : c.Safe e) : c.now ≤ (c.perform e).1.now := by
  have heq := h.activate_eq
  have hnow : c.activate.now = c.now := by
    rw [heq]
    unfold now
    simp
  cases e with
  | interrupt sched =>
    have hr := h.realtime
    have hp := h.pendingTicks
    have hlt : c.now + 1 < 2147483648 := hsafe
    unfold ClockTask.perform clockHandler
    unfold now at hlt ⊢
    dsimp only
    unfold wrap32
    omega
  | setAlarm q sec => exact hnow.ge
  | taskAlarm t deltaTicks => exact hnow.ge
  | time => exact hnow.ge
  | tick =>
    have hsame : (c.perform .tick).1.now = c.activate.now := by
      have hstate : (c.perform .tick).1 = c.activate.doClocktick.1 := rfl
      rw [hstate]
      unfold ClockTask.doClocktick
      split <;> rfl
    rw [hsame]
    exact hnow.ge
  | fork q child => exact le_rfl
  | exec q => exact le_rfl
  | xit q => exact le_rfl

/-! ## §5 Whole Runs -/

/-- SIGALRM has been caused for `p`. -/
def Fired (p : ProcNr) (outs : List Output) : Prop :=
  ∃ t caused, Output.ticked t caused ∈ outs ∧ p ∈ caused

theorem OnTime.other {deadline : ℤ} {out : Output} {outs : List Output}
    (hout : ∀ t caused, out ≠ .ticked t caused) (h : OnTime p deadline outs) :
    OnTime p deadline (out :: outs) := by
  cases out with
  | ticked t caused => exact absurd rfl (hout t caused)
  | woken b => exact h
  | remaining q seconds => exact h
  | nothing => exact h

theorem run_cons (c : ClockTask) (e : Event) (es : List Event) : c.run (e :: es) =
    (((c.perform e).1.run es).1, (c.perform e).2 :: ((c.perform e).1.run es).2) := rfl

theorem Never.cons {out : Output} {outs : List Output}
    (hout : ∀ t caused, out = .ticked t caused → p ∉ caused) (h : Never p outs) :
    Never p (out :: outs) := by
  intro t caused hmem
  rcases List.mem_cons.mp hmem with heq | hmem
  · exact hout t caused heq.symm
  · exact h t caused hmem

/-- A process without an alarm gets no SIGALRM, and stays without. -/
theorem run_never (es : List Event) : ∀ c : ClockTask, c.Ok → c.SafeRun es →
    (∀ e ∈ es, ¬e.Replaces p) → c.pAlarm (slot p) = 0 →
    Never p (c.run es).2 ∧ (c.run es).1.pAlarm (slot p) = 0 ∧ (c.run es).1.Ok ∧
      c.now ≤ (c.run es).1.now := by
  induction es with
  | nil => exact fun c h _ _ hoff => ⟨fun _ _ hmem => absurd hmem List.not_mem_nil, hoff, h, le_rfl⟩
  | cons e es ih =>
    intro c h hsafe hnot hoff
    have hstep := h.step hsafe.1 (hnot e List.mem_cons_self)
    have hnow := h.now_le hsafe.1
    have hrest := ih (c.perform e).1 (h.perform hsafe.1) hsafe.2
      (fun e' he' => hnot e' (List.mem_cons_of_mem _ he'))
    rw [run_cons]
    generalize (c.perform e).2 = out at hstep ⊢
    cases hstep with
    | fired _ hset _ _ => exact absurd hoff hset
    | waits hp _ hsame =>
      obtain ⟨hnever, hend, hok, hle⟩ := hrest (hsame.trans hoff)
      refine ⟨hnever.cons fun t caused heq => ?_, hend, hok, hnow.trans hle⟩
      cases heq
      exact hp
    | other hout hsame =>
      obtain ⟨hnever, hend, hok, hle⟩ := hrest (hsame.trans hoff)
      exact ⟨hnever.cons fun t caused heq => absurd heq (hout t caused), hend, hok, hnow.trans hle⟩

/-- **A process with an alarm** gets SIGALRM on time. -/
theorem run_onTime (es : List Event) : ∀ c : ClockTask, c.Ok → c.SafeRun es →
    (∀ e ∈ es, ¬e.Replaces p) → c.pAlarm (slot p) ≠ 0 →
    OnTime p (c.pAlarm (slot p)) (c.run es).2 ∧ (c.run es).1.Ok ∧ c.now ≤ (c.run es).1.now ∧
      ((Fired p (c.run es).2 ∧ (c.run es).1.pAlarm (slot p) = 0) ∨
        (Never p (c.run es).2 ∧ (c.run es).1.pAlarm (slot p) = c.pAlarm (slot p))) := by
  induction es with
  | nil =>
    exact fun c h _ _ _ => ⟨trivial, h, le_rfl, .inr ⟨fun _ _ hmem => absurd hmem List.not_mem_nil, rfl⟩⟩
  | cons e es ih =>
    intro c h hsafe hnot hset
    have hstep := h.step hsafe.1 (hnot e List.mem_cons_self)
    have hnow := h.now_le hsafe.1
    have hnot' := fun e' he' => hnot e' (List.mem_cons_of_mem e he')
    have hrest := ih (c.perform e).1 (h.perform hsafe.1) hsafe.2 hnot'
    have hnever := run_never es (c.perform e).1 (h.perform hsafe.1) hsafe.2 hnot'
    rw [run_cons]
    generalize (c.perform e).2 = out at hstep ⊢
    cases hstep with
    | fired hp _ hdue hoff =>
      obtain ⟨hrest, hend, hok, hle⟩ := hnever hoff
      refine ⟨?_, hok, hnow.trans hle, .inl ⟨⟨_, _, List.mem_cons_self, hp⟩, hend⟩⟩
      unfold OnTime
      rw [if_pos hdue]
      exact ⟨hp, hrest⟩
    | waits hp hwait hsame =>
      obtain ⟨honTime, hok, hle, hend⟩ := hrest (hsame ▸ hset)
      rw [hsame] at honTime hend
      refine ⟨?_, hok, hnow.trans hle, ?_⟩
      · unfold OnTime
        rw [if_neg (not_le.mpr (hwait.resolve_left hset))]
        exact ⟨hp, honTime⟩
      · rcases hend with ⟨⟨t, caused, hmem, hin⟩, hoff⟩ | ⟨hnone, hkept⟩
        · exact .inl ⟨⟨t, caused, List.mem_cons_of_mem _ hmem, hin⟩, hoff⟩
        · refine .inr ⟨hnone.cons fun t caused heq => ?_, hkept⟩
          cases heq
          exact hp
    | other hout hsame =>
      obtain ⟨honTime, hok, hle, hend⟩ := hrest (hsame ▸ hset)
      rw [hsame] at honTime hend
      refine ⟨honTime.other hout, hok, hnow.trans hle, ?_⟩
      rcases hend with ⟨⟨t, caused, hmem, hin⟩, hoff⟩ | ⟨hnone, hkept⟩
      · exact .inl ⟨⟨t, caused, List.mem_cons_of_mem _ hmem, hin⟩, hoff⟩
      · exact .inr ⟨hnone.cons fun t caused heq => absurd heq (hout t caused), hkept⟩

/-- A SIGALRM that is on time is not early. -/
theorem OnTime.not_early {deadline t : ℤ} {caused : List ProcNr} {outs : List Output}
    (h : OnTime p deadline outs) (hmem : .ticked t caused ∈ outs) (hp : p ∈ caused) : deadline ≤ t := by
  induction outs with
  | nil => exact absurd hmem List.not_mem_nil
  | cons out outs ih =>
    cases out with
    | ticked t' caused' =>
      unfold OnTime at h
      split at h
      next hle =>
        rcases List.mem_cons.mp hmem with heq | hmem
        · cases heq
          exact hle
        · exact absurd hp (h.2 t caused hmem)
      next =>
        rcases List.mem_cons.mp hmem with heq | hmem
        · cases heq
          exact absurd hp h.1
        · exact ih h.2 hmem
    | woken b => exact ih h ((List.mem_cons.mp hmem).resolve_left (by simp))
    | remaining q seconds => exact ih h ((List.mem_cons.mp hmem).resolve_left (by simp))
    | nothing => exact ih h ((List.mem_cons.mp hmem).resolve_left (by simp))

/-- `set_alarm` of MM, for the process itself: the new alarm. -/
theorem Ok.setAlarm_pAlarm (h : c.Ok) {sec : UInt16} (hsafe : c.Safe (.setAlarm p sec)) :
    (c.perform (.setAlarm p sec)).1.pAlarm (slot p) =
      if sec.toNat = 0 then 0 else c.now + 60 * sec.toNat := by
  obtain ⟨hticks, hlt, -⟩ := hsafe
  have hlt' : c.activate.realtime + (deltaTicks sec : ℕ) < 2147483648 := by
    rw [h.activate_eq, deltaTicks_eq hticks]
    push_cast
    exact hlt
  have hstate : (c.perform (.setAlarm p sec)).1 =
      (c.activate.doSetalarm (slot p) (deltaTicks sec : ℕ)).1 := rfl
  rw [hstate, (h.activate.doSetalarm (slot p) (Int.natCast_nonneg _) hlt').2, update_self,
    h.activate_eq, deltaTicks_eq hticks]
  push_cast
  by_cases hzero : sec.toNat = 0
  · simp [hzero]
  · rw [if_neg (by omega), if_neg hzero]

/-- The answer of `set_alarm`: the whole seconds left of the alarm that it replaces. -/
theorem Ok.setAlarm_remaining (h : c.Ok) {sec : UInt16}
    (hsafe : c.Safe (.setAlarm p sec)) (hsoon : c.pAlarm (slot p) ≤ c.now + 65535) :
    (c.perform (.setAlarm p sec)).2 = .remaining p
      (if c.pAlarm (slot p) = 0 then 0 else wholeSeconds (c.pAlarm (slot p)) c.now) := by
  obtain ⟨-, -, hlate⟩ := hsafe
  have hout : (c.perform (.setAlarm p sec)).2 = .remaining p (asInt
      (if c.activate.pAlarm (slot p) = 0 then 0
        else (wrap32 (c.activate.pAlarm (slot p) - c.activate.realtime)).tdiv hz)) := rfl
  rw [hout, h.activate_eq]
  dsimp only
  split
  next => rfl
  next hset =>
    have hnow := h.now_lt
    rcases h.alarm (slot p) with hzero | ⟨hpos, hlt, -⟩
    · exact absurd hzero hset
    · have hlate := hlate.resolve_left hset
      have hwrap : wrap32 (c.pAlarm (slot p) - c.now) = c.pAlarm (slot p) - c.now := by
        unfold wrap32
        have hr := h.realtime
        have hp := h.pendingTicks
        unfold now at hnow hlate hsoon ⊢
        omega
      rw [hwrap]
      congr 1
      unfold wholeSeconds asInt hz
      -- C divides towards zero, so up to a second late is no seconds left
      rcases le_or_gt 0 (c.pAlarm (slot p) - c.now) with hleft | hover
      · rw [Int.tdiv_eq_ediv_of_nonneg hleft]
        push_cast
        omega
      · have htdiv : (c.pAlarm (slot p) - c.now).tdiv ((60 : ℕ) : ℤ) = 0 := by
          have hneg := Int.neg_tdiv (-(c.pAlarm (slot p) - c.now)) ((60 : ℕ) : ℤ)
          rw [neg_neg] at hneg
          rw [hneg, Int.tdiv_eq_ediv_of_nonneg (by omega)]
          push_cast
          omega
        rw [htdiv]
        omega

/-- The event turns the alarm of `p` off. -/
def Event.Cancels (p : ProcNr) (e : Event) : Prop := e = .setAlarm p 0 ∨ e = .exec p ∨ e = .xit p

/-- **Alarms.**  In every state that the clock reaches by safe events: `next_alarm` is not later than
    any alarm, and an interrupt at which an alarm is due wakes the task; an alarm of any number of
    seconds, followed by any events that do not replace it, goes off once, with the first clock tick
    at or after its deadline, and when it is replaced the answer is the number of whole seconds it had
    left; and an alarm that has been turned off does not go off. -/
theorem alarm_onTime (h : Reached Safe c) :
    (∀ rp, c.pAlarm rp ≠ 0 → c.nextAlarm ≤ c.pAlarm rp) ∧
    (∀ rp sched, c.Safe (.interrupt sched) → c.pAlarm rp ≠ 0 → c.pAlarm rp ≤ c.now + 1 →
      (c.perform (.interrupt sched)).2 = .woken true) ∧
    (∀ (p : ProcNr) (sec : UInt16) (es : List Event), sec ≠ 0 → c.Safe (.setAlarm p sec) →
      (c.perform (.setAlarm p sec)).1.SafeRun es → (∀ e ∈ es, ¬e.Replaces p) →
      OnTime p (c.now + 60 * sec.toNat) ((c.perform (.setAlarm p sec)).1.run es).2 ∧
      ∀ sec', ((c.perform (.setAlarm p sec)).1.run es).1.Safe (.setAlarm p sec') →
        (Fired p ((c.perform (.setAlarm p sec)).1.run es).2 →
          (((c.perform (.setAlarm p sec)).1.run es).1.perform (.setAlarm p sec')).2 =
            .remaining p 0) ∧
        (Never p ((c.perform (.setAlarm p sec)).1.run es).2 →
          (((c.perform (.setAlarm p sec)).1.run es).1.perform (.setAlarm p sec')).2 =
            .remaining p (wholeSeconds (c.now + 60 * sec.toNat)
              ((c.perform (.setAlarm p sec)).1.run es).1.now))) ∧
    (∀ (p : ProcNr) (e : Event) (es : List Event), e.Cancels p → c.Safe e →
      (c.perform e).1.SafeRun es → (∀ e ∈ es, ¬e.Replaces p) →
      Never p ((c.perform e).1.run es).2 ∧
      ∀ sec', ((c.perform e).1.run es).1.Safe (.setAlarm p sec') →
        (((c.perform e).1.run es).1.perform (.setAlarm p sec')).2 = .remaining p 0) := by
  have hok := h.ok
  refine ⟨?_, ?_, ?_, ?_⟩
  · intro rp hset
    rcases hok.alarm rp with hzero | ⟨-, -, hle⟩
    · exact absurd hzero hset
    · exact hle
  · intro rp sched hsafe hset hdue
    have hr := hok.realtime
    have hp := hok.pendingTicks
    have hlt : c.now + 1 < 2147483648 := hsafe
    rcases hok.alarm rp with hzero | ⟨-, -, hle⟩
    · exact absurd hzero hset
    · have hwake : c.nextAlarm ≤ wrap32 (c.realtime + wrap32 (c.pendingTicks + 1)) := by
        unfold now at hlt hdue
        unfold wrap32
        omega
      have hout : (c.perform (.interrupt sched)).2 = .woken (decide (c.nextAlarm ≤
          wrap32 (c.realtime + wrap32 (c.pendingTicks + 1))) || sched) := rfl
      rw [hout, decide_eq_true hwake, Bool.true_or]
  · intro p sec es hsec hsafe hrun hnot
    have hpos : sec.toNat ≠ 0 := fun hzero => hsec (UInt16.toNat_inj.mp hzero)
    have halarm := hok.setAlarm_pAlarm hsafe
    rw [if_neg hpos] at halarm
    have hr := hok.realtime
    have hp := hok.pendingTicks
    have hset : c.now + 60 * (sec.toNat : ℤ) ≠ 0 := by
      unfold now
      omega
    obtain ⟨honTime, hok', hle, hend⟩ := run_onTime es _ (hok.perform hsafe) hrun hnot
      (by rw [halarm]; exact hset)
    rw [halarm] at honTime hend
    refine ⟨honTime, fun sec' hsafe' => ⟨?_, ?_⟩⟩
    · rintro ⟨t, caused, hmem, hin⟩
      have hoff : ((c.perform (.setAlarm p sec)).1.run es).1.pAlarm (slot p) = 0 := by
        rcases hend with ⟨-, hoff⟩ | ⟨hnone, -⟩
        · exact hoff
        · exact absurd hin (hnone t caused hmem)
      have hnow' := hok'.realtime
      have hpend' := hok'.pendingTicks
      rw [hok'.setAlarm_remaining hsafe' (by rw [hoff]; unfold now; omega), if_pos hoff]
    · intro hnever
      have hkept : ((c.perform (.setAlarm p sec)).1.run es).1.pAlarm (slot p) =
          c.now + 60 * sec.toNat := by
        rcases hend with ⟨⟨t, caused, hmem, hin⟩, -⟩ | ⟨-, hkept⟩
        · exact absurd hin (hnever t caused hmem)
        · exact hkept
      have hnow := hok.now_le hsafe
      have hticks := hsafe.1
      rw [hok'.setAlarm_remaining hsafe' (by rw [hkept]; omega), hkept, if_neg hset]
  · intro p e es hcancel hsafe hrun hnot
    have hoff : (c.perform e).1.pAlarm (slot p) = 0 := by
      rcases hcancel with rfl | rfl | rfl
      · rw [hok.setAlarm_pAlarm hsafe]
        rfl
      · exact update_self _ _ _
      · exact update_self _ _ _
    obtain ⟨hnever, hend, hok', -⟩ := run_never es _ (hok.perform hsafe) hrun hnot hoff
    refine ⟨hnever, fun sec' hsafe' => ?_⟩
    have hnow' := hok'.realtime
    have hpend' := hok'.pendingTicks
    rw [hok'.setAlarm_remaining hsafe' (by rw [hend]; unfold now; omega), if_pos hend]

end Steps

instance instDecidableSafe (c : ClockTask) : (e : Event) → Decidable (c.Safe e)
  | .interrupt _ => inferInstanceAs (Decidable (_ < _))
  | .setAlarm _ _ => inferInstanceAs (Decidable (_ ∧ _ ∧ (_ ∨ _)))
  | .taskAlarm _ _ => inferInstanceAs (Decidable (_ ∧ _))
  | .time => isTrue trivial
  | .tick => isTrue trivial
  | .fork _ _ => isTrue trivial
  | .exec _ => isTrue trivial
  | .xit _ => isTrue trivial

instance instDecidableSafeRun : (c : ClockTask) → (es : List Event) → Decidable (c.SafeRun es)
  | _, [] => isTrue trivial
  | c, e :: es =>
    haveI := instDecidableSafeRun (c.perform e).1 es
    inferInstanceAs (Decidable (_ ∧ _))

/-- A tick too early, 60 interrupts, the tick that causes SIGALRM, and another one. -/
@[irreducible] def secondEvents : List Event :=
  .interrupt false :: .tick :: List.replicate 59 (.interrupt false) ++ [.tick, .tick]

/-- An alarm of a second, at start-up. -/
def secondRun : ClockTask × List Output := (boot.perform (.setAlarm 3 1)).1.run secondEvents

/-- It goes off after 60 ticks, and nothing is left to cancel. -/
theorem alarm_onTime_second : OnTime 3 60 secondRun.2 ∧ Output.ticked 1 [] ∈ secondRun.2 ∧
    Output.ticked 60 [3] ∈ secondRun.2 ∧
    (secondRun.1.perform (.setAlarm 3 0)).2 = .remaining 3 0 := by
  have hnot : ∀ e ∈ secondEvents, ¬e.Replaces 3 := by
    intro e he
    unfold secondEvents at he
    rcases List.mem_append.mp he with he | he
    · rcases List.mem_cons.mp he with rfl | he
      · exact id
      · rcases List.mem_cons.mp he with rfl | he
        · exact id
        · rw [List.eq_of_mem_replicate he]
          exact id
    · fin_cases he <;> exact id
  have hfired : Output.ticked 60 [3] ∈ secondRun.2 := by decide +kernel
  have hdeadline : boot.now + 60 * ((1 : UInt16).toNat : ℤ) = 60 := by decide
  obtain ⟨honTime, hcancel⟩ := (alarm_onTime .boot).2.2.1 3 1 secondEvents (by decide)
    (by decide +kernel) (by decide +kernel) hnot
  have hremaining := (hcancel 0 (by decide +kernel)).1 ⟨60, [3], hfired, by decide⟩
  rw [hdeadline] at honTime
  exact ⟨honTime, by decide +kernel, hfired, hremaining⟩

/-- **An alarm of 12015 seconds goes off after 4 ticks**: `HZ * sec` is 720900. -/
theorem alarm_early : ∃ (p : ProcNr) (sec : UInt16) (es : List Event), sec ≠ 0 ∧
    (∀ e ∈ es, ¬e.Replaces p) ∧
    ¬OnTime p (boot.now + 60 * sec.toNat) ((boot.perform (.setAlarm p sec)).1.run es).2 := by
  refine ⟨3, 12015, [.interrupt false, .interrupt false, .interrupt false, .interrupt false, .tick],
    by decide, ?_, ?_⟩
  · intro e he
    fin_cases he <;> exact id
  · intro honTime
    have hearly := @OnTime.not_early 3 _ 4 [3] _ honTime (by decide +kernel) (by decide)
    exact absurd hearly (by decide)

end ClockTask

end LisaMinix.Mm
