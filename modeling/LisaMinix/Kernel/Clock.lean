import LisaMinix.Kernel.Proc
import LisaMinix.Kernel.Umap

/-!
# The Clock Task and the Alarms

Model of the alarm times that the kernel keeps in its process table: `do_setalarm` and
`do_clocktick` of `clock.c`, and what `do_fork`, `do_exec` and `do_xit` of `system.c` do with
them.  Of the signals pending for a process only SIGALRM is kept.

Times are `long`: `realtime` counts the ticks since start-up in 32 bits.  The watch-dog functions of tasks
are not called, but their alarms are.
-/

namespace LisaMinix.Kernel

open Function

open LisaMinix.Mm (nrProcs)

/-- `HZ`. -/
def hz : ℕ := 60

/-- `MAX_P_LONG`. -/
def maxPLong : ℕ := 2147483647

/-- The clock task, with the fields of `proc[]` that it works on. -/
structure Clock where
  realtime : ℤ
  nextAlarm : ℤ
  /-- `p_alarm`: when the alarm goes off, or 0 -/
  pAlarm : ProcPtr → ℤ
  /-- SIGALRM is in `p_pending` -/
  sigalrm : ProcPtr → Bool

namespace Clock

/-- No alarm has been set. -/
def boot : Clock := ⟨0, 0, fun _ => 0, fun _ => false⟩

/-- "Which alarm is next?" -/
def earliest (pAlarm : ProcPtr → ℤ) : ℤ :=
  (List.finRange (nrTasks + nrProcs)).foldl
    (fun next rp => if pAlarm rp ≠ 0 ∧ pAlarm rp < next then pAlarm rp else next) maxPLong

/-- The main loop has received a message: the ticks seen by the interrupt handler are counted. -/
def receive (c : Clock) (pendingTicks : ℕ) : Clock :=
  { c with realtime := wrap32 (c.realtime + pendingTicks) }

/-- `SECONDS_LEFT` in the answer to `do_setalarm`. -/
def secondsLeft (c : Clock) (rp : ProcPtr) : ℤ :=
  if c.pAlarm rp = 0 then 0 else (wrap32 (c.pAlarm rp - c.realtime)).tdiv hz

/-- The time for which `do_setalarm` sets an alarm. -/
def alarmTime (c : Clock) (deltaTicks : ℕ) : ℤ := wrap32 (c.realtime + deltaTicks)

/-- `do_setalarm` -/
def setalarm (c : Clock) (rp : ProcPtr) (deltaTicks : ℕ) : Clock :=
  let pAlarm := update c.pAlarm rp
    (if deltaTicks = 0 then 0 else c.alarmTime deltaTicks)
  { c with pAlarm := pAlarm, nextAlarm := earliest pAlarm }

/-- The alarm of `rp` has gone off. -/
def due (c : Clock) (rp : ProcPtr) : Bool :=
  decide (c.nextAlarm ≤ c.realtime) && c.pAlarm rp != 0 && decide (c.pAlarm rp ≤ c.realtime)

/-- `do_clocktick`: every alarm that has gone off is turned off; for a process with a number
    that is not negative it causes SIGALRM. -/
def clocktick (c : Clock) : Clock :=
  if c.nextAlarm ≤ c.realtime then
    let pAlarm := fun rp => if c.due rp then 0 else c.pAlarm rp
    { c with
      pAlarm := pAlarm
      sigalrm := fun rp => c.sigalrm rp || (c.due rp && decide (0 ≤ procNumber rp))
      nextAlarm := earliest pAlarm }
  else c

/-- `inform`: "the ball is now in MM's court". -/
def inform (c : Clock) (rp : ProcPtr) : Clock :=
  { c with sigalrm := update c.sigalrm rp false }

/-- `do_fork`: the slot is copied, and then its pending signals are turned off. -/
def fork (c : Clock) (rpp rpc : ProcPtr) : Clock :=
  { c with
    pAlarm := update c.pAlarm rpc (c.pAlarm rpp)
    sigalrm := update c.sigalrm rpc false }

/-- `do_exec`: "reset alarm timer". -/
def exec (c : Clock) (rp : ProcPtr) : Clock := { c with pAlarm := update c.pAlarm rp 0 }

/-- `do_xit`: "turn off alarm timer", and no signal is pending any more. -/
def xit (c : Clock) (rc : ProcPtr) : Clock :=
  { c with
    pAlarm := update c.pAlarm rc 0
    sigalrm := update c.sigalrm rc false }

variable (c : Clock) {rp q : ProcPtr}

@[simp] theorem receive_pAlarm (n : ℕ) : (c.receive n).pAlarm = c.pAlarm := rfl
@[simp] theorem receive_sigalrm (n : ℕ) : (c.receive n).sigalrm = c.sigalrm := rfl

/-- **What a clock tick does to a slot**: nothing, or the alarm goes off. -/
theorem clocktick_cases (rp : ProcPtr) :
    (c.due rp = false ∧ c.clocktick.pAlarm rp = c.pAlarm rp ∧
      c.clocktick.sigalrm rp = c.sigalrm rp) ∨
    (c.due rp = true ∧ c.pAlarm rp ≠ 0 ∧ c.clocktick.pAlarm rp = 0 ∧
      c.clocktick.sigalrm rp = (c.sigalrm rp || decide (0 ≤ procNumber rp))) := by
  unfold clocktick
  cases hdue : c.due rp with
  | false =>
    left
    split
    · simp [hdue]
    · exact ⟨rfl, rfl, rfl⟩
  | true =>
    right
    have hparts := hdue
    unfold due at hparts
    simp only [Bool.and_eq_true, decide_eq_true_eq, bne_iff_ne, ne_eq] at hparts
    rw [if_pos hparts.1.1]
    simp [hdue, hparts.1.2]

end Clock

end LisaMinix.Kernel
