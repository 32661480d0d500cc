import LisaMinix.Library.Frames

/-!
# The Lisa Keyboard

`lisakbd.c` reads the byte stream of the COPS keyboard controller, one byte for each interrupt,
and the clock interrupt repeats a key that is held down.  A byte is a key transition or part of a
longer report: a mouse movement, a reset code or a clock reading.

- `copsByte`, `kbTimer`, `keyDown` and `rtcReading` model the driver.  A character that is
  handed to `kbdput` is part of their result.
- `Report` is a well-formed report, `Report.bytes` its bytes.
- `Sync` ties the state of the driver to the reports received so far and the bytes of the one
  that is under way.
- `cops_framing`: the framing, the characters and the recorded keys, for every stream of reports
  with clock ticks anywhere in it.
-/

namespace LisaMinix.Kernel.Cops

open LisaMinix.Library

/-! ## §1 The Driver -/

/-- States of the byte stream. -/
inductive KbState where
  | key
  | reset
  | mouseX
  | mouseY
  | clock
deriving DecidableEq, Repr

def kcLeft : ℕ := 0x22
def kcRight : ℕ := 0x23
def kcUp : ℕ := 0x27
def kcDown : ℕ := 0x2B
def kcLock : ℕ := 0x7D
def kcShift : ℕ := 0x7E
def kcCommand : ℕ := 0x7F

/-- Reset codes from here to 15 above: clock reading. -/
def rcClock : ℕ := 0xE0

def repeatDelay : ℤ := 24
def repeatRate : ℤ := 4

/-- The variables of the driver; `bootTime` is what `clock_set_boot_time` was last called with. -/
structure Keyboard where
  kbState : KbState := .key
  kbCount : ℕ := 0
  rtcYear : ℕ := 0
  rtcBytes : List UInt8 := List.replicate 5 0
  kbShift : Bool := false
  kbLock : Bool := false
  kbCommand : Bool := false
  repeatCode : ℕ := 0
  repeatTics : ℤ := 0
  appMode : Bool := false
  bootTime : Option ℕ := none
deriving DecidableEq, Repr

/-- Characters of the keys from 0x20 on without Shift; 0 for keys that give no character. -/
def kbNormal : List ℕ := [
  0x1B, 0x2D, 0, 0, 0x37, 0x38, 0x39, 0, 0x34, 0x35, 0x36, 0, 0x2E, 0x32, 0x33, 0x0A,
  0, 0, 0, 0, 0, 0, 0, 0, 0, 0, 0, 0, 0, 0, 0, 0,
  0x2D, 0x3D, 0x5C, 0, 0x70, 0x08, 0x0A, 0, 0x0D, 0x30, 0, 0, 0x2F, 0x31, 0x1B, 0,
  0x39, 0x30, 0x75, 0x69, 0x6A, 0x6B, 0x5B, 0x5D, 0x6D, 0x6C, 0x3B, 0x27, 0x20, 0x2C, 0x2E, 0x6F,
  0x65, 0x36, 0x37, 0x38, 0x35, 0x72, 0x74, 0x79, 0x60, 0x66, 0x67, 0x68, 0x76, 0x63, 0x62, 0x6E,
  0x61, 0x32, 0x33, 0x34, 0x31, 0x71, 0x73, 0x77, 0x09, 0x7A, 0x78, 0x64, 0x1B, 0, 0, 0]

/-- The same with Shift. -/
def kbShifted : List ℕ := [
  0x7F, 0x2D, 0x2B, 0x2A, 0x37, 0x38, 0x39, 0x2F, 0x34, 0x35, 0x36, 0x2C, 0x2E, 0x32, 0x33, 0x0A,
  0, 0, 0, 0, 0, 0, 0, 0, 0, 0, 0, 0, 0, 0, 0, 0,
  0x5F, 0x2B, 0x7C, 0, 0x50, 0x08, 0x0A, 0, 0x0D, 0x30, 0, 0, 0x3F, 0x31, 0x1B, 0,
  0x28, 0x29, 0x55, 0x49, 0x4A, 0x4B, 0x7B, 0x7D, 0x4D, 0x4C, 0x3A, 0x22, 0x20, 0x3C, 0x3E, 0x4F,
  0x45, 0x5E, 0x26, 0x2A, 0x25, 0x52, 0x54, 0x59, 0x7E, 0x46, 0x47, 0x48, 0x56, 0x43, 0x42, 0x4E,
  0x41, 0x40, 0x23, 0x24, 0x21, 0x51, 0x53, 0x57, 0x09, 0x5A, 0x58, 0x44, 0x1B, 0, 0, 0]

/-- The last letter of the cursor sequence of an arrow key, 0 for the other keys. -/
def arrowChar (code : ℕ) : ℕ :=
  if code = kcUp then 0x41
  else if code = kcDown then 0x42
  else if code = kcRight then 0x43
  else if code = kcLeft then 0x44
  else 0

/-- `key_down`: the characters that the key gives to `kbdput`. -/
def keyDown (s : Keyboard) (code : ℕ) : List ℕ :=
  if code < 0x20 then []
  else if s.kbShift = false ∧ arrowChar code ≠ 0 then
    [0x1B, if s.appMode then 0x4F else 0x5B, arrowChar code]
  else
    let c := (if s.kbShift then kbShifted else kbNormal).getD (code - 0x20) 0
    if c = 0 then []
    else
      let c := if s.kbLock ∧ 0x61 ≤ c ∧ c ≤ 0x7A then c - 0x20 else c
      let c := if s.kbCommand then c % 0x20 else c
      [c]

def hi (b : UInt8) : ℕ := b.toNat / 16
def lo (b : UInt8) : ℕ := b.toNat % 16

/-- The days from the start of 1970 to the start of `year`. -/
def daysBefore (year : ℕ) : ℕ :=
  ((List.range' 1970 (year - 1970)).map fun y => if y % 4 = 0 then 366 else 365).sum

/-- `rtc_reading`: a complete clock reading sets the time, a bad one is only reported. -/
def rtcReading (s : Keyboard) : Keyboard :=
  let p := fun i => s.rtcBytes.getD i 0
  let year := 1980 + s.rtcYear
  let day := hi (p 0) * 100 + lo (p 0) * 10 + hi (p 1)
  let hour := lo (p 1) * 10 + hi (p 2)
  let min := lo (p 2) * 10 + hi (p 3)
  let sec := lo (p 3) * 10 + hi (p 4)
  if day < 1 ∨ 366 < day ∨ 23 < hour ∨ 59 < min ∨ 59 < sec then s
  else
    let t := daysBefore year + (day - 1)
    { s with bootTime := some (((t * 24 + hour) * 60 + min) * 60 + sec) }

def codeOf (b : UInt8) : ℕ := b.toNat % 128
def isDown (b : UInt8) : Bool := 128 ≤ b.toNat

/-- A byte in state `S_KEY`. -/
def keyByte (s : Keyboard) (b : UInt8) : Keyboard × List ℕ :=
  if codeOf b = 0 then ({ s with kbState := if isDown b then .reset else .mouseX }, [])
  else if codeOf b = kcShift then ({ s with kbShift := isDown b }, [])
  else if codeOf b = kcLock then ({ s with kbLock := isDown b }, [])
  else if codeOf b = kcCommand then ({ s with kbCommand := isDown b }, [])
  else if isDown b then
    (if 0x20 ≤ codeOf b then { s with repeatCode := codeOf b, repeatTics := repeatDelay } else s,
      keyDown s (codeOf b))
  else (if codeOf b = s.repeatCode then { s with repeatCode := 0 } else s, [])

/-- A byte that follows 0x80: the start of a clock reading, or a reset code that is ignored. -/
def resetByte (s : Keyboard) (b : UInt8) : Keyboard :=
  let s :=
    if rcClock ≤ b.toNat ∧ b.toNat ≤ rcClock + 0x0F then
      { s with kbState := .clock, kbCount := 5, rtcYear := b.toNat % 16 }
    else { s with kbState := .key }
  { s with kbShift := false, kbCommand := false, repeatCode := 0 }

/-- A byte of a clock reading. -/
def clockByte (s : Keyboard) (b : UInt8) : Keyboard :=
  let s := { s with rtcBytes := s.rtcBytes.set (5 - s.kbCount) b, kbCount := s.kbCount - 1 }
  if s.kbCount = 0 then rtcReading { s with kbState := .key } else s

/-- `cops_byte` -/
def copsByte (s : Keyboard) (b : UInt8) : Keyboard × List ℕ :=
  match s.kbState with
  | .reset => (resetByte s b, [])
  | .mouseX => ({ s with kbState := .mouseY }, [])
  | .mouseY => ({ s with kbState := .key }, [])
  | .clock => (clockByte s b, [])
  | .key => keyByte s b

/-- `kb_timer`: called by the clock interrupt every tick. -/
def kbTimer (s : Keyboard) : Keyboard × List ℕ :=
  if s.repeatCode = 0 then (s, [])
  else if s.repeatTics - 1 = 0 then
    ({ s with repeatTics := repeatRate }, keyDown s s.repeatCode)
  else ({ s with repeatTics := s.repeatTics - 1 }, [])

/-- What happens to the driver: a byte of the COPS, a clock tick, and the screen driver changing
    what the arrow keys send. -/
inductive Event where
  | byte (b : UInt8)
  | tick
  | setAppMode (mode : Bool)
deriving DecidableEq, Repr

def step (s : Keyboard) : Event → Keyboard × List ℕ
  | .byte b => copsByte s b
  | .tick => kbTimer s
  | .setAppMode mode => ({ s with appMode := mode }, [])

/-- The state after a run from the start of the system. -/
def run (es : List Event) : Keyboard := es.foldl (fun s e => (step s e).1) {}

@[simp] theorem run_nil : run [] = {} := rfl

@[simp] theorem run_concat (es : List Event) (e : Event) :
    run (es ++ [e]) = (step (run es) e).1 := by
  simp [run]

/-- The bytes of a run. -/
def bytesOf (es : List Event) : List UInt8 :=
  es.filterMap fun
    | .byte b => some b
    | _ => none

theorem bytesOf_append (es es' : List Event) : bytesOf (es ++ es') = bytesOf es ++ bytesOf es' :=
  List.filterMap_append

@[simp] theorem bytesOf_byte (b : UInt8) : bytesOf [.byte b] = [b] := rfl
@[simp] theorem bytesOf_tick : bytesOf [.tick] = [] := rfl
@[simp] theorem bytesOf_setAppMode (m : Bool) : bytesOf [.setAppMode m] = [] := rfl

/-! ## §2 Reports -/

/-- A well-formed report of the COPS. -/
inductive Report where
  /-- A key transition. -/
  | key (b : UInt8) (h : codeOf b ≠ 0)
  /-- A mouse movement. -/
  | mouse (x y : UInt8)
  /-- A reset code other than that of a clock reading. -/
  | reset (b : UInt8) (h : ¬(rcClock ≤ b.toNat ∧ b.toNat ≤ rcClock + 0x0F))
  /-- A clock reading: the code with the year, and five bytes. -/
  | clock (b : UInt8) (h : rcClock ≤ b.toNat ∧ b.toNat ≤ rcClock + 0x0F)
      (bs : List UInt8) (hbs : bs.length = 5)
deriving DecidableEq

/-- The bytes of a report. -/
def Report.bytes : Report → List UInt8
  | .key b _ => [b]
  | .mouse x y => [0x00, x, y]
  | .reset b _ => [0x80, b]
  | .clock b _ bs _ => 0x80 :: b :: bs

/-- A report introduced by 0x80. -/
def Report.releases : Report → Bool
  | .reset .. => true
  | .clock .. => true
  | _ => false

/-- Is this a transition of the key `k`? -/
def Report.isTransition (k : ℕ) : Report → Bool
  | .key b _ => codeOf b == k
  | _ => false

/-- Does this press a key that is neither a modifier nor an event code? -/
def Report.presses : Report → Bool
  | .key b _ => isDown b && 0x20 ≤ codeOf b && codeOf b != kcShift && codeOf b != kcLock &&
      codeOf b != kcCommand
  | _ => false

/-- Does this report a key going down? -/
def Report.goesDown : Report → Bool
  | .key b _ => isDown b
  | _ => false

/-- The key of a key transition. -/
def Report.keyCode : Report → Option ℕ
  | .key b _ => some (codeOf b)
  | _ => none

/-- Whether key `k` is down after the reports: its last transition, where with `released` a
    report introduced by 0x80 counts as a release. -/
def keyState (released : Bool) (k : ℕ) (rs : List Report) : Bool :=
  match rs.reverse.find? fun r => r.isTransition k || released && r.releases with
  | some r => r.goesDown
  | none => false

/-- The key most recently pressed, of those that can repeat. -/
def lastPressed (rs : List Report) : Option ℕ :=
  (rs.reverse.find? Report.presses).bind Report.keyCode

/-- The key that repeats after the reports: the one most recently pressed while it is down. -/
def repeating (rs : List Report) : ℕ :=
  match lastPressed rs with
  | some k => if keyState true k rs then k else 0
  | none => 0

theorem keyState_concat (released : Bool) (k : ℕ) (rs : List Report) (r : Report) :
    keyState released k (rs ++ [r]) =
      if r.isTransition k || released && r.releases then r.goesDown
      else keyState released k rs := by
  unfold keyState
  rw [List.reverse_append, List.reverse_singleton, List.singleton_append, List.find?_cons]
  cases r.isTransition k || released && r.releases <;> rfl

theorem lastPressed_concat (rs : List Report) (r : Report) :
    lastPressed (rs ++ [r]) = if r.presses then r.keyCode else lastPressed rs := by
  unfold lastPressed
  rw [List.reverse_append, List.reverse_singleton, List.singleton_append, List.find?_cons]
  cases r.presses <;> rfl

/-- A key that can repeat is a real key and no modifier. -/
def CanRepeat (k : ℕ) : Prop := 0x20 ≤ k ∧ k ≠ kcShift ∧ k ≠ kcLock ∧ k ≠ kcCommand

variable {rs : List Report} {b : UInt8} {h : codeOf b ≠ 0}

theorem presses_iff : (Report.key b h).presses = true ↔ isDown b = true ∧ CanRepeat (codeOf b) := by
  simp [Report.presses, CanRepeat, and_assoc]

theorem canRepeat_of_lastPressed {k : ℕ} (h : lastPressed rs = some k) : CanRepeat k := by
  unfold lastPressed at h
  obtain ⟨r, hfind, hcode⟩ := Option.bind_eq_some_iff.mp h
  have hp := List.find?_some hfind
  cases r with
  | key b hb =>
    cases hcode
    exact (presses_iff.mp hp).2
  | mouse x y => cases hcode
  | reset b hb => cases hcode
  | clock b hb bs hbs => cases hcode

theorem keyState_key (released : Bool) (k : ℕ) (rs : List Report) :
    keyState released k (rs ++ [.key b h]) =
      if codeOf b = k then isDown b else keyState released k rs := by
  rw [keyState_concat]
  simp [Report.isTransition, Report.releases, Report.goesDown]

theorem keyState_mouse (released : Bool) (k : ℕ) (rs : List Report) (x y : UInt8) :
    keyState released k (rs ++ [.mouse x y]) = keyState released k rs := by
  rw [keyState_concat]
  simp [Report.isTransition, Report.releases]

theorem keyState_release {r : Report} (hrel : r.releases = true) (released : Bool) (k : ℕ)
    (rs : List Report) :
    keyState released k (rs ++ [r]) = if released then false else keyState released k rs := by
  rw [keyState_concat]
  cases r with
  | key b h => cases hrel
  | mouse x y => cases hrel
  | reset b h => simp [Report.isTransition, Report.releases, Report.goesDown]
  | clock b h bs hbs => simp [Report.isTransition, Report.releases, Report.goesDown]

/-- A modifier or an event code leaves the repeating key alone. -/
theorem repeating_of_not_canRepeat (rs : List Report)
    (hb : ¬CanRepeat (codeOf b)) : repeating (rs ++ [.key b h]) = repeating rs := by
  have hp : (Report.key b h).presses = false := by
    rw [Bool.eq_false_iff]
    exact fun hp => hb (presses_iff.mp hp).2
  unfold repeating
  rw [lastPressed_concat, hp]
  simp only [Bool.false_eq_true, if_false]
  cases hl : lastPressed rs with
  | none => rfl
  | some k =>
    have hk : codeOf b ≠ k := fun hk => hb (hk ▸ canRepeat_of_lastPressed hl)
    simp [keyState_key, hk]

theorem repeating_mouse (rs : List Report) (x y : UInt8) :
    repeating (rs ++ [.mouse x y]) = repeating rs := by
  have hlast : lastPressed (rs ++ [.mouse x y]) = lastPressed rs := lastPressed_concat rs _
  unfold repeating
  rw [hlast]
  cases lastPressed rs with
  | none => rfl
  | some k => simp [keyState_mouse]

theorem repeating_press (rs : List Report)
    (hp : (Report.key b h).presses = true) : repeating (rs ++ [.key b h]) = codeOf b := by
  have hdown := (presses_iff.mp hp).1
  unfold repeating
  rw [lastPressed_concat, hp]
  simp [Report.keyCode, keyState_key, hdown]

theorem repeating_up (rs : List Report) (hup : isDown b = false) :
    repeating (rs ++ [.key b h]) = if codeOf b = repeating rs then 0 else repeating rs := by
  have hp : (Report.key b h).presses = false := by simp [Report.presses, hup]
  unfold repeating
  rw [lastPressed_concat, hp]
  simp only [Bool.false_eq_true, if_false]
  cases hl : lastPressed rs with
  | none => simp
  | some k =>
    rcases eq_or_ne (codeOf b) k with rfl | hk
    · cases hdown : keyState true (codeOf b) rs <;> simp [keyState_key, hup, hdown]
    · cases hdown : keyState true k rs <;> simp [keyState_key, hk, hdown]

theorem repeating_release (rs : List Report) {r : Report} (hrel : r.releases = true) :
    repeating (rs ++ [r]) = 0 := by
  have hp : r.presses = false := by cases r <;> simp_all [Report.presses, Report.releases]
  unfold repeating
  rw [lastPressed_concat, hp]
  simp only [Bool.false_eq_true, if_false]
  cases lastPressed rs with
  | none => rfl
  | some k => simp [keyState_release hrel]

/-! ## §3 The State of the Driver and the Reports -/

/-- The recorded keys are those of the reports. -/
structure Recorded (rs : List Report) (s : Keyboard) : Prop where
  shift : s.kbShift = keyState true kcShift rs
  command : s.kbCommand = keyState true kcCommand rs
  lock : s.kbLock = keyState false kcLock rs
  repeats : s.repeatCode = repeating rs

/-- A reset code has come: Shift, Command and the repeating key are released. -/
structure Released (rs : List Report) (s : Keyboard) : Prop where
  shift : s.kbShift = false
  command : s.kbCommand = false
  lock : s.kbLock = keyState false kcLock rs
  repeats : s.repeatCode = 0

/-- The driver after the reports `rs` and the bytes `part` of the next one. -/
inductive Sync (rs : List Report) : List UInt8 → Keyboard → Prop where
  | key {s} : s.kbState = .key → Recorded rs s → Sync rs [] s
  | reset {s} : s.kbState = .reset → Recorded rs s → Sync rs [0x80] s
  | mouseX {s} : s.kbState = .mouseX → Recorded rs s → Sync rs [0x00] s
  | mouseY {s} (x : UInt8) : s.kbState = .mouseY → Recorded rs s → Sync rs [0x00, x] s
  | clock {s} (b : UInt8) (bs : List UInt8) (h : rcClock ≤ b.toNat ∧ b.toNat ≤ rcClock + 0x0F)
      (hbs : bs.length < 5) :
      s.kbState = .clock → s.kbCount = 5 - bs.length → Released rs s →
      Sync rs (0x80 :: b :: bs) s

variable {s : Keyboard} {part : List UInt8}

/-- The bytes under way are a proper beginning of a report. -/
theorem Sync.part_of_report (h : Sync rs part s) : ∃ r : Report, ∃ t, t ≠ [] ∧ r.bytes = part ++ t := by
  cases h with
  | key => exact ⟨.mouse 0 0, _, by simp, rfl⟩
  | reset => exact ⟨.reset 0 (by decide), [0], by simp, rfl⟩
  | mouseX => exact ⟨.mouse 0 0, [0, 0], by simp, rfl⟩
  | mouseY x => exact ⟨.mouse x 0, [0], by simp, rfl⟩
  | clock b bs hb hbs =>
    refine ⟨.clock b hb (bs ++ List.replicate (5 - bs.length) 0) (by simp; omega),
      List.replicate (5 - bs.length) 0, ?_, rfl⟩
    intro hnil
    have := congrArg List.length hnil
    simp at this
    omega

/-- What a key byte does, in terms of the reports. -/
theorem Recorded.keyByte (h : Recorded rs s)
    (hb : codeOf b ≠ 0) : Recorded (rs ++ [.key b hb]) (keyByte s b).1 := by
  unfold Cops.keyByte
  rw [if_neg hb]
  split
  · next hk =>
    -- a modifier changes its own record only
    constructor
    · simp [keyState_key, hk]
    · simp [keyState_key, hk, kcShift, kcCommand, h.command]
    · simp [keyState_key, hk, kcShift, kcLock, h.lock]
    · rw [repeating_of_not_canRepeat rs fun hr => hr.2.1 hk]
      exact h.repeats
  split
  · next hk =>
    constructor
    · simp [keyState_key, hk, kcShift, kcLock, h.shift]
    · simp [keyState_key, hk, kcLock, kcCommand, h.command]
    · simp [keyState_key, hk]
    · rw [repeating_of_not_canRepeat rs fun hr => hr.2.2.1 hk]
      exact h.repeats
  split
  · next hk =>
    constructor
    · simp [keyState_key, hk, kcShift, kcCommand, h.shift]
    · simp [keyState_key, hk]
    · simp [keyState_key, hk, kcLock, kcCommand, h.lock]
    · rw [repeating_of_not_canRepeat rs fun hr => hr.2.2.2 hk]
      exact h.repeats
  next hshift hlock hcommand =>
  have hmods : ∀ s' : Keyboard, s'.kbShift = s.kbShift → s'.kbCommand = s.kbCommand →
      s'.kbLock = s.kbLock → s'.repeatCode = repeating (rs ++ [.key b hb]) →
      Recorded (rs ++ [.key b hb]) s' := by
    intro s' h1 h2 h3 h4
    constructor
    · rw [h1, h.shift, keyState_key, if_neg hshift]
    · rw [h2, h.command, keyState_key, if_neg hcommand]
    · rw [h3, h.lock, keyState_key, if_neg hlock]
    · exact h4
  split
  · next hdown =>
    dsimp only
    split
    · next hreal =>
      apply hmods
      · rfl
      · rfl
      · rfl
      · rw [repeating_press rs (presses_iff.mpr ⟨hdown, hreal, hshift, hlock, hcommand⟩)]
    · next hevent =>
      apply hmods
      · rfl
      · rfl
      · rfl
      · rw [repeating_of_not_canRepeat rs fun hr => hevent hr.1, h.repeats]
  · next hup =>
    have hup : isDown b = false := Bool.eq_false_iff.mpr hup
    dsimp only
    rw [h.repeats]
    split
    · next hk =>
      apply hmods
      · rfl
      · rfl
      · rfl
      · rw [repeating_up rs hup, if_pos hk]
    · next hk =>
      apply hmods
      · rfl
      · rfl
      · rfl
      · rw [repeating_up rs hup, if_neg hk, h.repeats]

/-- The record of the reports also holds for a state that differs elsewhere. -/
theorem Recorded.of_eq {s s' : Keyboard} (h : Recorded rs s)
    (hshift : s'.kbShift = s.kbShift) (hcommand : s'.kbCommand = s.kbCommand)
    (hlock : s'.kbLock = s.kbLock) (hrepeat : s'.repeatCode = s.repeatCode) : Recorded rs s' where
  shift := hshift.trans h.shift
  command := hcommand.trans h.command
  lock := hlock.trans h.lock
  repeats := hrepeat.trans h.repeats

theorem Released.of_eq {s s' : Keyboard} (h : Released rs s)
    (hshift : s'.kbShift = s.kbShift) (hcommand : s'.kbCommand = s.kbCommand)
    (hlock : s'.kbLock = s.kbLock) (hrepeat : s'.repeatCode = s.repeatCode) : Released rs s' where
  shift := hshift.trans h.shift
  command := hcommand.trans h.command
  lock := hlock.trans h.lock
  repeats := hrepeat.trans h.repeats

theorem Recorded.mouse (h : Recorded rs s) (x y : UInt8) : Recorded (rs ++ [.mouse x y]) s where
  shift := by rw [keyState_mouse, h.shift]
  command := by rw [keyState_mouse, h.command]
  lock := by rw [keyState_mouse, h.lock]
  repeats := by rw [repeating_mouse, h.repeats]

/-- What a report introduced by 0x80 leaves. -/
theorem Released.recorded (h : Released rs s) {r : Report}
    (hrel : r.releases = true) : Recorded (rs ++ [r]) s where
  shift := by simp [keyState_release hrel, h.shift]
  command := by simp [keyState_release hrel, h.command]
  lock := by simp [keyState_release hrel, h.lock]
  repeats := by rw [repeating_release rs hrel, h.repeats]

theorem rtcReading_frame (s : Keyboard) : (rtcReading s).kbState = s.kbState ∧
    (rtcReading s).kbShift = s.kbShift ∧ (rtcReading s).kbCommand = s.kbCommand ∧
    (rtcReading s).kbLock = s.kbLock ∧ (rtcReading s).repeatCode = s.repeatCode := by
  unfold rtcReading
  dsimp only
  split <;> exact ⟨rfl, rfl, rfl, rfl, rfl⟩

/-- **One byte**: it goes on with the report under way, or completes it. -/
theorem Sync.byte (h : Sync rs part s) (b : UInt8) :
    Sync rs (part ++ [b]) (copsByte s b).1 ∨
      ∃ r : Report, r.bytes = part ++ [b] ∧ Sync (rs ++ [r]) [] (copsByte s b).1 := by
  cases h with
  | key hst hrec =>
    have hrun : copsByte s b = keyByte s b := by simp [copsByte, hst]
    rw [hrun]
    rcases eq_or_ne (codeOf b) 0 with hzero | hne
    · left
      have hb : b = if isDown b then 0x80 else 0x00 := by
        apply UInt8.toNat_inj.mp
        have := b.toNat_lt
        cases hd : isDown b <;> simp [isDown, codeOf] at hd hzero ⊢ <;> omega
      unfold keyByte
      rw [if_pos hzero]
      cases hd : isDown b with
      | true =>
        rw [hd] at hb
        subst hb
        exact .reset rfl (hrec.of_eq rfl rfl rfl rfl)
      | false =>
        rw [hd] at hb
        subst hb
        exact .mouseX rfl (hrec.of_eq rfl rfl rfl rfl)
    · right
      refine ⟨.key b hne, rfl, .key ?_ (hrec.keyByte hne)⟩
      rw [← hst]
      unfold keyByte
      rw [if_neg hne]
      split_ifs <;> rfl
  | reset hst hrec =>
    have hrun : copsByte s b = (resetByte s b, []) := by simp [copsByte, hst]
    rw [hrun]
    have hreleased : Released rs (resetByte s b) := by
      constructor
      · rfl
      · rfl
      · rw [← hrec.lock]
        unfold resetByte
        dsimp only
        split <;> rfl
      · rfl
    by_cases hb : rcClock ≤ b.toNat ∧ b.toNat ≤ rcClock + 0x0F
    · left
      apply Sync.clock b [] hb (by simp) _ _ hreleased
      · simp [resetByte, hb]
      · simp [resetByte, hb]
    · right
      refine ⟨.reset b hb, rfl, .key ?_ (hreleased.recorded rfl)⟩
      simp [resetByte, hb]
  | mouseX hst hrec =>
    have hrun : copsByte s b = ({ s with kbState := .mouseY }, []) := by simp [copsByte, hst]
    rw [hrun]
    exact .inl (.mouseY b rfl (hrec.of_eq rfl rfl rfl rfl))
  | mouseY x hst hrec =>
    have hrun : copsByte s b = ({ s with kbState := .key }, []) := by simp [copsByte, hst]
    rw [hrun]
    exact .inr ⟨.mouse x b, rfl, .key rfl ((hrec.mouse x b).of_eq rfl rfl rfl rfl)⟩
  | clock c bs hc hbs hst hcount hrel =>
    have hrun : copsByte s b = (clockByte s b, []) := by simp [copsByte, hst]
    rw [hrun]
    unfold clockByte
    dsimp only
    split
    · next hlast =>
      -- the fifth byte: the reading is complete
      right
      obtain ⟨h1, h2, h3, h4, h5⟩ := rtcReading_frame
        { s with
          kbState := .key
          rtcBytes := s.rtcBytes.set (5 - s.kbCount) b
          kbCount := s.kbCount - 1 }
      have hreleased : Released rs _ := hrel.of_eq h2 h3 h4 h5
      exact ⟨.clock c hc (bs ++ [b]) (by simp; omega), rfl, .key h1 (hreleased.recorded rfl)⟩
    · next hmore =>
      left
      apply Sync.clock c (bs ++ [b]) hc
      · simp
        omega
      · exact hst
      · simp
        omega
      · exact hrel.of_eq rfl rfl rfl rfl

/-- The framing does not depend on what the clock and the screen driver change. -/
theorem Sync.of_eq {s s' : Keyboard} (h : Sync rs part s)
    (hstate : s'.kbState = s.kbState) (hcount : s'.kbCount = s.kbCount)
    (hshift : s'.kbShift = s.kbShift) (hcommand : s'.kbCommand = s.kbCommand)
    (hlock : s'.kbLock = s.kbLock) (hrepeat : s'.repeatCode = s.repeatCode) :
    Sync rs part s' := by
  cases h with
  | key hst hrec => exact .key (hstate.trans hst) (hrec.of_eq hshift hcommand hlock hrepeat)
  | reset hst hrec => exact .reset (hstate.trans hst) (hrec.of_eq hshift hcommand hlock hrepeat)
  | mouseX hst hrec => exact .mouseX (hstate.trans hst) (hrec.of_eq hshift hcommand hlock hrepeat)
  | mouseY x hst hrec =>
    exact .mouseY x (hstate.trans hst) (hrec.of_eq hshift hcommand hlock hrepeat)
  | clock b bs hb hbs hst hc hrel =>
    exact .clock b bs hb hbs (hstate.trans hst) (hcount.trans hc)
      (hrel.of_eq hshift hcommand hlock hrepeat)

theorem Sync.tick (h : Sync rs part s) : Sync rs part (kbTimer s).1 := by
  unfold kbTimer
  split_ifs
  · exact h
  · exact h.of_eq rfl rfl rfl rfl rfl rfl
  · exact h.of_eq rfl rfl rfl rfl rfl rfl

/-- **The driver is in step with the reports in every run.** -/
theorem exists_sync (es : List Event) :
    ∃ rs part, bytesOf es = rs.flatMap Report.bytes ++ part ∧ Sync rs part (run es) := by
  induction es using List.reverseRecOn with
  | nil => exact ⟨[], [], rfl, .key rfl ⟨rfl, rfl, rfl, rfl⟩⟩
  | append_singleton es e ih =>
    obtain ⟨rs, part, hbytes, hsync⟩ := ih
    rw [run_concat, bytesOf_append, hbytes]
    cases e with
    | byte b =>
      rcases hsync.byte b with h | ⟨r, hr, h⟩
      · exact ⟨rs, part ++ [b], List.append_assoc _ _ _, h⟩
      · refine ⟨rs ++ [r], [], ?_, h⟩
        rw [List.flatMap_append, List.flatMap_singleton, hr, bytesOf_byte, List.append_nil,
          List.append_assoc]
    | tick => exact ⟨rs, part, List.append_nil _, hsync.tick⟩
    | setAppMode m => exact ⟨rs, part, List.append_nil _, hsync.of_eq rfl rfl rfl rfl rfl rfl⟩

/-! ## §4 Characters -/

/-- A byte gives characters only as a report of its own, of a key going down. -/
theorem Sync.chars_of_byte (h : Sync rs part s) (hchars : (copsByte s b).2 ≠ []) :
    part = [] ∧ codeOf b ≠ 0 ∧ isDown b = true := by
  cases h with
  | key hst hrec =>
    have hrun : copsByte s b = keyByte s b := by simp [copsByte, hst]
    rw [hrun] at hchars
    refine ⟨rfl, ?_, ?_⟩
    · intro hzero
      simp [keyByte, hzero] at hchars
    · by_contra hup
      unfold keyByte at hchars
      rw [if_neg hup] at hchars
      split_ifs at hchars <;> exact absurd rfl hchars
  | reset hst => simp [copsByte, hst] at hchars
  | mouseX hst => simp [copsByte, hst] at hchars
  | mouseY x hst => simp [copsByte, hst] at hchars
  | clock c bs hc hbs hst => simp [copsByte, hst] at hchars

/-- A tick gives characters only for the key most recently pressed, while it is down. -/
theorem Sync.chars_of_tick (h : Sync rs part s) (hchars : (kbTimer s).2 ≠ []) :
    ∃ k, lastPressed rs = some k ∧ keyState true k rs = true ∧ (kbTimer s).2 = keyDown s k := by
  unfold kbTimer at hchars ⊢
  split_ifs at hchars ⊢ with hnone hdue
  · exact absurd rfl hchars
  · have hrepeat : s.repeatCode = repeating rs := by
      cases h with
      | key _ hrec => exact hrec.repeats
      | reset _ hrec => exact hrec.repeats
      | mouseX _ hrec => exact hrec.repeats
      | mouseY _ _ hrec => exact hrec.repeats
      | clock _ _ _ _ _ _ hrel => exact absurd hrel.repeats hnone
    rw [hrepeat] at hnone ⊢
    unfold repeating at hnone ⊢
    cases hl : lastPressed rs with
    | none => simp [hl] at hnone
    | some k =>
      simp only [hl] at hnone ⊢
      split_ifs at hnone ⊢ with hdown
      · exact ⟨k, rfl, hdown, rfl⟩
      · exact absurd rfl hnone
  · exact absurd rfl hchars

/-! ## §5 The Reports of a Stream -/

/-- No report is the beginning of another. -/
theorem reports_prefixCode : PrefixCode Report.bytes where
  ne_nil r := by cases r <;> simp [Report.bytes]
  eq_of_prefix := by
    have h80 : codeOf 0x80 = 0 := by decide
    have h00 : codeOf 0x00 = 0 := by decide
    intro r r' h
    cases r with
    | key b hb =>
      cases r' with
      | key b' hb' =>
        obtain ⟨rfl, -⟩ := List.cons_prefix_cons.mp h
        rfl
      | mouse x y =>
        obtain ⟨rfl, -⟩ := List.cons_prefix_cons.mp h
        exact absurd h00 hb
      | reset c hc =>
        obtain ⟨rfl, -⟩ := List.cons_prefix_cons.mp h
        exact absurd h80 hb
      | clock c hc bs hbs =>
        obtain ⟨rfl, -⟩ := List.cons_prefix_cons.mp h
        exact absurd h80 hb
    | mouse x y =>
      cases r' with
      | key b' hb' =>
        obtain ⟨rfl, -⟩ := List.cons_prefix_cons.mp h
        exact absurd h00 hb'
      | mouse x' y' =>
        simp only [Report.bytes, List.cons_prefix_cons] at h
        obtain ⟨-, rfl, rfl, -⟩ := h
        rfl
      | reset c hc => exact absurd (List.cons_prefix_cons.mp h).1 (by decide)
      | clock c hc bs hbs => exact absurd (List.cons_prefix_cons.mp h).1 (by decide)
    | reset c hc =>
      cases r' with
      | key b' hb' =>
        obtain ⟨rfl, -⟩ := List.cons_prefix_cons.mp h
        exact absurd h80 hb'
      | mouse x' y' => exact absurd (List.cons_prefix_cons.mp h).1 (by decide)
      | reset c' hc' =>
        simp only [Report.bytes, List.cons_prefix_cons] at h
        obtain ⟨-, rfl, -⟩ := h
        rfl
      | clock c' hc' bs hbs =>
        simp only [Report.bytes, List.cons_prefix_cons] at h
        obtain ⟨-, rfl, -⟩ := h
        exact absurd hc' hc
    | clock c hc bs hbs =>
      cases r' with
      | key b' hb' =>
        obtain ⟨rfl, -⟩ := List.cons_prefix_cons.mp h
        exact absurd h80 hb'
      | mouse x' y' => exact absurd (List.cons_prefix_cons.mp h).1 (by decide)
      | reset c' hc' =>
        simp only [Report.bytes, List.cons_prefix_cons] at h
        obtain ⟨-, rfl, -⟩ := h
        exact absurd hc hc'
      | clock c' hc' bs' hbs' =>
        simp only [Report.bytes, List.cons_prefix_cons] at h
        obtain ⟨-, rfl, hpre⟩ := h
        obtain rfl := hpre.eq_of_length (hbs.trans hbs'.symm)
        rfl

/-! ## §6 The Framing -/

/-- **Framing of the keyboard controller's bytes.**  In every run whose bytes are a sequence of
    reports, with clock ticks anywhere: at the end of every report the driver expects a new one
    and has recorded the keys as last reported; a character comes from a key-down report, or from
    a tick, for the key most recently pressed while it is down. -/
theorem cops_framing (reports : List Report) (es : List Event)
    (hstream : bytesOf es = reports.flatMap Report.bytes) :
    (∀ pre post rs, es = pre ++ post → bytesOf pre = rs.flatMap Report.bytes →
      rs <+: reports ∧ (run pre).kbState = .key ∧
      (run pre).kbShift = keyState true kcShift rs ∧
      (run pre).kbCommand = keyState true kcCommand rs ∧
      (run pre).kbLock = keyState false kcLock rs ∧
      (run pre).repeatCode = repeating rs) ∧
    ∀ pre e post, es = pre ++ e :: post → (step (run pre) e).2 ≠ [] →
      (∃ b rs, ∃ hb : codeOf b ≠ 0, e = .byte b ∧ isDown b = true ∧
        bytesOf pre = rs.flatMap Report.bytes ∧ rs ++ [.key b hb] <+: reports ∧
        (step (run pre) e).2 = keyDown (run pre) (codeOf b)) ∨
      (∃ rs part k, e = .tick ∧ bytesOf pre = rs.flatMap Report.bytes ++ part ∧
        rs <+: reports ∧ (∃ r : Report, ∃ t, t ≠ [] ∧ r.bytes = part ++ t) ∧
        lastPressed rs = some k ∧ keyState true k rs = true ∧
        (step (run pre) e).2 = keyDown (run pre) k) := by
  have hbegins : ∀ pre post rs part, es = pre ++ post →
      bytesOf pre = rs.flatMap Report.bytes ++ part → rs <+: reports := by
    intro pre post rs part hes hbytes
    apply reports_prefixCode.prefix_of_flatMap_prefix
    rw [← hstream, hes, bytesOf_append, hbytes, List.append_assoc]
    exact List.prefix_append _ _
  constructor
  · intro pre post rs hes hbytes
    obtain ⟨rs', part, hbytes', hsync⟩ := exists_sync pre
    obtain ⟨rfl, rfl⟩ := reports_prefixCode.frames_unique hsync.part_of_report
      (hbytes'.symm.trans hbytes)
    cases hsync with
    | key hst hrec =>
      exact ⟨hbegins pre post rs [] hes (by rw [hbytes, List.append_nil]), hst, hrec.shift,
        hrec.command, hrec.lock, hrec.repeats⟩
  · intro pre e post hes hchars
    obtain ⟨rs, part, hbytes, hsync⟩ := exists_sync pre
    cases e with
    | byte b =>
      left
      obtain ⟨rfl, hb, hdown⟩ := hsync.chars_of_byte hchars
      rw [List.append_nil] at hbytes
      refine ⟨b, rs, hb, rfl, hdown, hbytes, ?_, ?_⟩
      · apply hbegins (pre ++ [.byte b]) post _ []
        · rw [hes, List.append_assoc]
          rfl
        · rw [bytesOf_append, hbytes, List.flatMap_append, List.append_nil]
          rfl
      · cases hsync with
        | key hst hrec =>
          have hrun : step (run pre) (.byte b) = keyByte (run pre) b := by
            simp [step, copsByte, hst]
          rw [hrun] at hchars ⊢
          unfold keyByte at hchars ⊢
          split_ifs at hchars ⊢
          all_goals first | rfl | exact absurd rfl hchars
    | tick =>
      right
      obtain ⟨k, hlast, hdown, hk⟩ := hsync.chars_of_tick hchars
      exact ⟨rs, part, k, rfl, hbytes, hbegins pre _ rs part hes hbytes, hsync.part_of_report,
        hlast, hdown, hk⟩
    | setAppMode m => exact absurd rfl hchars

/-- A mouse report whose bytes look like key codes, with a tick inside, and then a key. -/
def mouseThenKey : List Event := [.byte 0x00, .byte 0xF0, .tick, .byte 0x80, .byte 0xF0]

/-- The framing at a stream with a mouse report and a key. -/
theorem cops_framing_mouseThenKey :
    (run mouseThenKey).kbState = .key ∧
      (run mouseThenKey).repeatCode = repeating [.mouse 0xF0 0x80, .key 0xF0 (by decide)] := by
  obtain ⟨h, -⟩ := cops_framing [.mouse 0xF0 0x80, .key 0xF0 (by decide)] mouseThenKey (by decide)
  obtain ⟨-, hst, -, -, -, hrep⟩ := h mouseThenKey [] [.mouse 0xF0 0x80, .key 0xF0 (by decide)]
    (by simp) (by decide)
  exact ⟨hst, hrep⟩

end LisaMinix.Kernel.Cops
