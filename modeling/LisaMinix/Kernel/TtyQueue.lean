import LisaMinix.Kernel.Tty
import LisaMinix.Library.Ring

/-!
# The Input Queue of the Terminal

The characters in `tty_inqueue`, over every run of the terminal task.

- `Line.contents`: the characters that wait in the queue, the oldest first.
- `replay`: the characters that must wait there after a history of what was stored, erased, discarded
  and taken.
- `Tracked`: the pointers and the count agree, and the queue holds what `replay` says.  It is kept by
  everything the task does (`Tracked.step`).
- `inChar_rule`: a keystroke changes the queue by a few operations only, so a property that each of
  them keeps is kept by `in_char`.

`in_char` looks once for room for one character, and stores two when the first is a backslash that
escapes nothing.  With 999 characters in the queue the second of them is stored over the oldest
(`Overflows`).
-/

namespace LisaMinix.Kernel.Tty

open LisaMinix.Mm (sigint sigquit)
open LisaMinix.Library (ringList IsRing length_ringList ringList_push ringList_push_full
  ringList_succ ringList_drop ringList_mod ringList_cons)

variable {s s' : State} {tp : Line}

/-! ## §1 What the queue holds -/

/-- The characters in the queue, the oldest first. -/
def Line.contents (tp : Line) : List UInt8 :=
  ringList ttyInBytes tp.inqueue tp.intail tp.incount

@[simp] theorem Line.length_contents (tp : Line) : tp.contents.length = tp.incount :=
  length_ringList

/-- What a process gets of the characters that are taken: in cooked mode the `MARKER` is not
transmitted. -/
def deliverable (cooked : Bool) (chars : List UInt8) : List UInt8 :=
  if cooked then chars.filter (· ≠ marker) else chars

/-- What an event makes of the characters in the queue; `none` is an event that does not fit. -/
def QueueEvent.apply : QueueEvent → List UInt8 → Option (List UInt8)
  | .stored c _, l => some (l ++ [c])
  | .overran old c _, l => if l.head? = some old then some (c :: l.tail ++ [c]) else none
  | .dropped, l => some l
  | .erased c, l => if l.getLast? = some c then some l.dropLast else none
  | .discarded, _ => some []
  | .taken cooked chars given, l =>
    if chars <+: l ∧ given = deliverable cooked chars then some (l.drop chars.length) else none

/-- The characters in the queue after a history. -/
def replay : List QueueEvent → Option (List UInt8)
  | [] => some []
  | e :: log => (replay log).bind e.apply

/-- The characters that an event gives to a process. -/
def QueueEvent.given : QueueEvent → List UInt8
  | .taken _ _ given => given
  | _ => []

/-- The characters given to processes, in order. -/
def delivered : List QueueEvent → List UInt8
  | [] => []
  | e :: log => delivered log ++ e.given

/-- The bytes copied to processes, in order. -/
def copied : List (ℤ × List UInt8) → List UInt8
  | [] => []
  | x :: copies => copied copies ++ x.2

/-- The pointers and the count agree, and the queue holds what its history says. -/
structure Tracked (s : State) : Prop where
  ring : IsRing ttyInBytes s.tp.inhead s.tp.intail s.tp.incount
  count_le : s.tp.incount ≤ ttyInBytes + 1
  replayed : replay s.log = some s.tp.contents
  copied : copied s.copies = delivered s.log

theorem tracked_start : Tracked start where
  ring := IsRing.empty (by decide)
  count_le := by decide
  replayed := rfl
  copied := rfl

/-! ## §2 The input side of a state -/

/-- The queue, with its history and what has been copied out of it. -/
structure Queue where
  inqueue : ℕ → UInt8
  inhead : ℕ
  intail : ℕ
  incount : ℕ
  lfct : ℤ
  log : List QueueEvent
  copies : List (ℤ × List UInt8)

/-- What the input side of the task consists of. -/
structure Input where
  queue : Queue
  mode : ℕ
  inproc : ℤ
  inVir : ℤ
  inleft : ℤ
  driver : List UInt8
  reads : List ReadEvent

def State.queue (s : State) : Queue :=
  ⟨s.tp.inqueue, s.tp.inhead, s.tp.intail, s.tp.incount, s.tp.lfct, s.log, s.copies⟩

def State.input (s : State) : Input :=
  ⟨s.queue, s.tp.mode, s.tp.inproc, s.tp.inVir, s.tp.inleft, s.driver, s.reads⟩

@[simp] theorem echo_tp (s : State) (c : UInt8) : (echo s c).tp = s.tp := by
  unfold echo outChar
  split_ifs
  all_goals rfl

@[simp] theorem echo_input (s : State) (c : UInt8) : (echo s c).input = s.input := by
  unfold echo outChar
  split_ifs
  all_goals rfl

@[simp] theorem finish_input (s : State) (code : ℤ) : (finish s code).input = s.input := by
  simp only [finish]
  split_ifs
  all_goals rfl

@[simp] theorem console_input (env : Env) (s : State) : (console env s).input = s.input := by
  unfold console
  extract_lets n src s'
  have h : s'.input = s.input := rfl
  split
  · exact (finish_input _ _).trans h
  · exact h

theorem queue_of_input (h : s'.input = s.input) : s'.queue = s.queue :=
  congrArg Input.queue h

theorem Tracked.of_queue (hs : Tracked s) (h : s'.queue = s.queue) : Tracked s' := by
  simp only [State.queue, Queue.mk.injEq] at h
  obtain ⟨hqueue, hhead, htail, hcount, -, hlog, hcopies⟩ := h
  refine ⟨?_, ?_, ?_, ?_⟩
  · rw [hhead, htail, hcount]
    exact hs.ring
  · rw [hcount]
    exact hs.count_le
  · rw [hlog, Line.contents, hqueue, htail, hcount]
    exact hs.replayed
  · rw [hcopies, hlog]
    exact hs.copied

/-! ## §3 The operations on the queue -/

/-- `tty_lfct` counts a character. -/
def countEnd (s : State) (counted : Bool) : State :=
  if counted then s.modTp fun tp => { tp with lfct := wrap16 (tp.lfct + 1) } else s

/-- A character is counted or not, and stored. -/
def enqueue (s : State) (c : UInt8) (counted : Bool) : State := store (countEnd s counted) c counted

/-- An end of file is counted and not stored. -/
def dropEof (s : State) : State := (countEnd s true).note .dropped

theorem next_eq {i : ℕ} (h : i < ttyInBytes) : next i = (i + 1) % ttyInBytes := by
  unfold next
  split_ifs with hi
  · rw [hi, Nat.mod_self]
  · rw [Nat.mod_eq_of_lt (by omega)]

theorem prev_eq {i : ℕ} (h : i < ttyInBytes) : prev i = (i + (ttyInBytes - 1)) % ttyInBytes := by
  unfold prev ttyInBytes at *
  split_ifs with hi
  · omega
  · omega

theorem contents_put (h : IsRing ttyInBytes tp.inhead tp.intail tp.incount)
    (hcount : tp.incount < ttyInBytes) (c : UInt8) : (tp.put c).contents = tp.contents ++ [c] := by
  unfold Line.put Line.contents
  simp only [h.head_eq]
  exact ringList_push hcount

/-- In a full queue a character is stored over the oldest one. -/
theorem contents_put_full (h : IsRing ttyInBytes tp.inhead tp.intail tp.incount)
    (hcount : tp.incount = ttyInBytes) (c : UInt8) :
    (tp.put c).contents = c :: tp.contents.tail ++ [c] := by
  unfold Line.put Line.contents
  simp only [h.head_eq, hcount]
  exact ringList_push_full (by decide)

/-- The character at the tail is the oldest one. -/
theorem head?_contents (h : IsRing ttyInBytes tp.inhead tp.intail tp.incount)
    (hcount : tp.incount ≠ 0) : tp.contents.head? = some (tp.inqueue tp.intail) := by
  obtain ⟨k, hk⟩ := Nat.exists_eq_succ_of_ne_zero hcount
  rw [Line.contents, hk, ringList_cons, List.head?_cons, Nat.mod_eq_of_lt h.tail_lt]

theorem isRing_put (h : IsRing ttyInBytes tp.inhead tp.intail tp.incount) (c : UInt8) :
    IsRing ttyInBytes (tp.put c).inhead (tp.put c).intail (tp.put c).incount := by
  have := h.push
  rwa [← next_eq h.head_lt] at this

@[simp] theorem countEnd_inqueue (s : State) (b : Bool) :
    (countEnd s b).tp.inqueue = s.tp.inqueue := by cases b <;> rfl
@[simp] theorem countEnd_inhead (s : State) (b : Bool) :
    (countEnd s b).tp.inhead = s.tp.inhead := by cases b <;> rfl
@[simp] theorem countEnd_intail (s : State) (b : Bool) :
    (countEnd s b).tp.intail = s.tp.intail := by cases b <;> rfl
@[simp] theorem countEnd_incount (s : State) (b : Bool) :
    (countEnd s b).tp.incount = s.tp.incount := by cases b <;> rfl
@[simp] theorem countEnd_log (s : State) (b : Bool) : (countEnd s b).log = s.log := by
  cases b <;> rfl
@[simp] theorem countEnd_copies (s : State) (b : Bool) : (countEnd s b).copies = s.copies := by
  cases b <;> rfl

@[simp] theorem countEnd_contents (s : State) (b : Bool) :
    (countEnd s b).tp.contents = s.tp.contents := by
  cases b <;> rfl

theorem Tracked.countEnd (hs : Tracked s) (b : Bool) : Tracked (countEnd s b) := by
  cases b with
  | false => exact hs
  | true => exact ⟨hs.ring, hs.count_le, hs.replayed, hs.copied⟩

theorem Tracked.store (hs : Tracked s) (hroom : s.tp.incount ≤ ttyInBytes) (c : UInt8) (b : Bool) :
    Tracked (store s c b) := by
  refine ⟨isRing_put hs.ring c, by simpa [Tty.store, State.modTp, State.note, Line.put], ?_, ?_⟩
  · change (replay s.log).bind _ = some (s.tp.put c).contents
    rw [hs.replayed, Option.bind_some]
    split_ifs with hlt
    · rw [contents_put hs.ring hlt]
      rfl
    · have hfull : s.tp.incount = ttyInBytes := by omega
      have hhead : s.tp.inhead = s.tp.intail := by
        rw [hs.ring.head_eq, hfull, Nat.add_mod_right, Nat.mod_eq_of_lt hs.ring.tail_lt]
      rw [contents_put_full hs.ring hfull, QueueEvent.apply, hhead,
        head?_contents hs.ring (by rw [hfull]; decide), if_pos rfl]
  · change Tty.copied s.copies = delivered s.log ++ QueueEvent.given _
    rw [hs.copied]
    split_ifs
    · simp [QueueEvent.given]
    · simp [QueueEvent.given]

theorem Tracked.enqueue {s : State} (hs : Tracked s) (hroom : s.tp.incount ≤ ttyInBytes) (c : UInt8)
    (b : Bool) : Tracked (enqueue s c b) :=
  (hs.countEnd b).store (by simpa using hroom) c b

theorem Tracked.dropEof (hs : Tracked s) : Tracked (dropEof s) where
  ring := hs.ring
  count_le := hs.count_le
  replayed := by
    change (replay s.log).bind _ = some s.tp.contents
    rw [hs.replayed]
    rfl
  copied := by
    change Tty.copied s.copies = delivered s.log ++ []
    rw [hs.copied, List.append_nil]

theorem Tracked.discard (hs : Tracked s) : Tracked (discard s) where
  ring := IsRing.empty (by decide)
  count_le := Nat.zero_le _
  replayed := by
    change (replay s.log).bind _ = some []
    rw [hs.replayed]
    rfl
  copied := by
    change Tty.copied s.copies = delivered s.log ++ []
    rw [hs.copied, List.append_nil]

/-- What `chuck` does when it erases a character. -/
theorem chuck_eq_some (h : chuck s = some s') :
    s.tp.incount ≠ 0 ∧ s.tp.inqueue (prev s.tp.inhead) ≠ newline ∧
      s' = (s.modTp fun tp => { tp with inhead := prev tp.inhead, incount := tp.incount - 1 }).note
        (.erased (s.tp.inqueue (prev s.tp.inhead))) := by
  simp only [chuck] at h
  split_ifs at h with hempty hline
  push Not at hline
  refine ⟨hempty, hline.1, ?_⟩
  simpa using h.symm

/-- The character that `chuck` erases is the newest one. -/
theorem contents_chuck (h : IsRing ttyInBytes tp.inhead tp.intail tp.incount)
    (hcount : tp.incount ≠ 0) :
    tp.contents = { tp with inhead := prev tp.inhead, incount := tp.incount - 1 }.contents ++
        [tp.inqueue (prev tp.inhead)] ∧
      IsRing ttyInBytes (prev tp.inhead) tp.intail (tp.incount - 1) := by
  obtain ⟨k, hk⟩ := Nat.exists_eq_succ_of_ne_zero hcount
  rw [hk] at h
  have hring := h.unpush
  rw [← prev_eq h.head_lt] at hring
  constructor
  · simp only [Line.contents, hk, Nat.succ_eq_add_one, Nat.add_sub_cancel, ringList_succ]
    rw [hring.head_eq]
  · rwa [hk]

theorem Tracked.chuck (hs : Tracked s) (h : chuck s = some s') : Tracked s' := by
  obtain ⟨hempty, -, rfl⟩ := chuck_eq_some h
  obtain ⟨hcontents, hring⟩ := contents_chuck hs.ring hempty
  refine ⟨hring, ?_, ?_, ?_⟩
  · have := hs.count_le
    change s.tp.incount - 1 ≤ _
    omega
  · change (replay s.log).bind _ = some _
    rw [hs.replayed, hcontents, Option.bind_some, QueueEvent.apply, List.getLast?_append,
      List.getLast?_singleton, Option.some_or, if_pos rfl, List.dropLast_concat]
    rfl
  · change Tty.copied s.copies = delivered s.log ++ []
    rw [hs.copied, List.append_nil]

/-! ## §4 A keystroke -/

/-- What is made of a carriage return. -/
def Line.mapCr (tp : Line) (ch : UInt8) : UInt8 :=
  if ch = carriageReturn ∧ tp.mode &&& crmod ≠ 0 then newline else ch

/-- A character outside RAW mode is stored: it is not an interrupt, and does not stop or start the
output. -/
def Line.Stores (tp : Line) (ch : UInt8) : Prop :=
  tp.mapCr ch ≠ tp.intr ∧ tp.mapCr ch ≠ tp.quit ∧ tp.mapCr ch ≠ tp.xoff ∧ tp.inhibited = false

instance (tp : Line) (ch : UInt8) : Decidable (tp.Stores ch) :=
  inferInstanceAs (Decidable (_ ∧ _ ∧ _ ∧ _))

/-- A backslash and a character that it does not escape are stored where there is room for one. -/
def Line.Overflows (tp : Line) (ch : UInt8) : Prop :=
  tp.incount + 1 = ttyInBytes ∧ tp.cooked = true ∧ tp.escaped = true ∧
    ch &&& 0x7F ≠ tp.erase ∧ ch &&& 0x7F ≠ tp.kill ∧ ch &&& 0x7F ≠ tp.eof ∧
    tp.Stores (ch &&& 0x7F)

instance (tp : Line) (ch : UInt8) : Decidable (tp.Overflows ch) :=
  inferInstanceAs (Decidable (_ ∧ _ ∧ _ ∧ _ ∧ _ ∧ _ ∧ _))

section Rule

variable {P : State → Prop} {env : Env} {s : State} {ch : UInt8}

/-- The end of `in_char` stores one character. -/
theorem storeChar_countEnd (s : State) (ch : UInt8) (counted : Bool) (hch : counted → ch = marker) :
    storeChar (countEnd s counted) ch counted =
      echo (enqueue s ch (counted || ch = newline)) ch := by
  cases counted with
  | false =>
    simp only [storeChar, enqueue, countEnd, Bool.false_or, Bool.false_eq_true, if_false,
      decide_eq_true_eq]
  | true =>
    rw [hch rfl]
    rfl

/-- A counted end of file is dropped. -/
def dropCounted (s : State) (counted : Bool) : State := if counted then s.note .dropped else s

theorem specialChar_eq (env : Env) (s : State) (ch : UInt8) (counted : Bool) :
    specialChar env s ch counted =
      if s.tp.mapCr ch = s.tp.intr ∨ s.tp.mapCr ch = s.tp.quit then
        sigchar (dropCounted s counted) (if s.tp.mapCr ch = s.tp.intr then sigint else sigquit)
      else if s.tp.mapCr ch = s.tp.xoff then
        (dropCounted s counted).modTp fun tp => { tp with inhibited := true }
      else if s.tp.inhibited then
        console env ((dropCounted s counted).modTp fun tp => { tp with inhibited := false })
      else storeChar s (s.tp.mapCr ch) counted := rfl

theorem sigchar_rule (hsame : ∀ s s', s'.input = s.input → P s → P s')
    (hdiscard : ∀ s, P s → P (discard s)) (sig : ℕ) (hs : P s) : P (sigchar s sig) := by
  have hdone : P (finish (s.modTp fun tp => { tp with inhibited := false }) eintr) :=
    hsame _ _ (finish_input _ _) (hsame s _ rfl hs)
  unfold sigchar
  extract_lets s'
  split
  · exact hsame s' _ rfl (hdiscard _ hdone)
  · exact hdiscard _ hdone

/-- A property that the operations keep is kept by what follows the processing for cooked mode. -/
theorem specialChar_rule (counted : Bool) (hsame : ∀ s s', s'.input = s.input → P s → P s')
    (hdiscard : ∀ s, P s → P (discard s)) (hdrop : ∀ s, P s → P (dropEof s)) (hs : P s)
    (hch : counted → ch = marker) (hstore : s.tp.Stores ch → ∀ c b, P (enqueue s c b)) :
    P (specialChar env (countEnd s counted) ch counted) := by
  have hdropped : P (dropCounted (countEnd s counted) counted) := by
    cases counted with
    | false => exact hs
    | true => exact hdrop s hs
  obtain ⟨hmode, hintr, hquit, hxoff, hinhibited⟩ :
      (∀ c, (countEnd s counted).tp.mapCr c = s.tp.mapCr c) ∧
        (countEnd s counted).tp.intr = s.tp.intr ∧ (countEnd s counted).tp.quit = s.tp.quit ∧
        (countEnd s counted).tp.xoff = s.tp.xoff ∧
        (countEnd s counted).tp.inhibited = s.tp.inhibited := by
    cases counted
    all_goals exact ⟨fun _ => rfl, rfl, rfl, rfl, rfl⟩
  rw [specialChar_eq, hmode, hintr, hquit, hxoff, hinhibited]
  by_cases hsig : s.tp.mapCr ch = s.tp.intr ∨ s.tp.mapCr ch = s.tp.quit
  · rw [if_pos hsig]
    exact sigchar_rule hsame hdiscard _ hdropped
  rw [if_neg hsig]
  push Not at hsig
  by_cases hstop : s.tp.mapCr ch = s.tp.xoff
  · rw [if_pos hstop]
    exact hsame (dropCounted (countEnd s counted) counted) _ rfl hdropped
  rw [if_neg hstop]
  by_cases hstart : s.tp.inhibited = true
  · rw [if_pos hstart]
    exact hsame (dropCounted (countEnd s counted) counted) _ ((console_input _ _).trans rfl) hdropped
  · have hmark : counted → s.tp.mapCr ch = marker := by
      intro hcounted
      rw [hch hcounted]
      exact if_neg fun h => absurd h.1 (by decide)
    rw [if_neg hstart, storeChar_countEnd _ _ _ hmark]
    exact hsame _ _ (echo_input _ _)
      (hstore ⟨hsig.1, hsig.2, hstop, by simpa using hstart⟩ _ _)

theorem chuckAll_rule (hchuck : ∀ s s', chuck s = some s' → P s → P s') (n : ℕ) (hs : P s) :
    P (chuckAll n s) := by
  induction n generalizing s with
  | zero => exact hs
  | succ n ih =>
    unfold chuckAll
    cases h : chuck s with
    | none => exact hs
    | some s' => exact ih (hchuck s s' h hs)

/-- A property that the operations on the queue keep is kept by the processing for cooked mode.  A
backslash that escapes nothing is stored before the character. -/
theorem cookedChar_rule (hsame : ∀ s s', s'.input = s.input → P s → P s')
    (hchuck : ∀ s s', chuck s = some s' → P s → P s') (hdiscard : ∀ s, P s → P (discard s))
    (hdrop : ∀ s, P s → P (dropEof s))
    (henqueue : ∀ s c b, s.tp.incount < ttyInBytes → P s → P (enqueue s c b))
    (hover : s.tp.incount + 1 = ttyInBytes ∧ s.tp.escaped = true ∧ ch ≠ s.tp.erase ∧
      ch ≠ s.tp.kill ∧ ch ≠ s.tp.eof ∧ s.tp.Stores ch →
        ∀ s c b, s.tp.incount = ttyInBytes → P s → P (enqueue s c b))
    (hroom : s.tp.incount < ttyInBytes) (hs : P s) : P (cookedChar env s ch) := by
  unfold cookedChar
  by_cases herase : ch = s.tp.erase ∧ s.tp.escaped = false
  · rw [if_pos herase]
    cases h : chuck s with
    | none => exact hs
    | some s' =>
      have hecho : (echo (echo (echo s' backspace) blank) backspace).input = s'.input := by simp
      exact hsame _ _ hecho (hchuck s s' h hs)
  rw [if_neg herase]
  by_cases hkill : ch = s.tp.kill ∧ s.tp.escaped = false
  · rw [if_pos hkill]
    exact hsame _ _ ((echo_input _ _).trans (echo_input _ _)) (chuckAll_rule hchuck _ hs)
  rw [if_neg hkill]
  by_cases hnormal : s.tp.escaped = false
  · rw [if_pos hnormal]
    by_cases hback : ch = backslash
    · rw [if_pos hback]
      exact hsame _ _ (echo_input _ _) (hsame s _ rfl hs)
    rw [if_neg hback]
    by_cases heof : ch = s.tp.eof
    · rw [if_pos heof]
      exact specialChar_rule true hsame hdiscard hdrop hs (fun _ => rfl)
        fun _ c b => henqueue s c b hroom hs
    · rw [if_neg heof]
      exact specialChar_rule false hsame hdiscard hdrop hs (by simp)
        fun _ c b => henqueue s c b hroom hs
  · rw [if_neg hnormal]
    extract_lets s₁
    have hs1 : P s₁ := hsame s s₁ rfl hs
    by_cases hordinary : ch ≠ s₁.tp.erase ∧ ch ≠ s₁.tp.kill ∧ ch ≠ s₁.tp.eof
    · rw [if_pos hordinary]
      have hone : P (enqueue s₁ backslash false) := henqueue s₁ backslash false hroom hs1
      refine specialChar_rule false hsame hdiscard hdrop hone (by simp) ?_
      intro hstores c b
      by_cases htwo : s.tp.incount + 1 < ttyInBytes
      · exact henqueue _ c b htwo hone
      · have hlast : s.tp.incount + 1 = ttyInBytes := by omega
        have hesc : s.tp.escaped = true := by simpa using hnormal
        exact hover ⟨hlast, hesc, hordinary.1, hordinary.2.1, hordinary.2.2, hstores⟩ _ c b hlast hone
    · rw [if_neg hordinary]
      exact specialChar_rule false hsame hdiscard hdrop hs1 (by simp)
        fun _ c b => henqueue s₁ c b hroom hs1

/-- A property that the operations on the queue keep is kept by `in_char`.  There is no room for the
character that is stored only if the keystroke overflows the queue. -/
theorem inChar_rule (hsame : ∀ s s', s'.input = s.input → P s → P s')
    (hchuck : ∀ s s', chuck s = some s' → P s → P s') (hdiscard : ∀ s, P s → P (discard s))
    (hdrop : ∀ s, P s → P (dropEof s))
    (henqueue : ∀ s c b, s.tp.incount < ttyInBytes → P s → P (enqueue s c b))
    (hover : s.tp.Overflows ch → ∀ s c b, s.tp.incount = ttyInBytes → P s → P (enqueue s c b))
    (hs : P s) : P (inChar env s ch) := by
  have hplain : ∀ c, s.tp.incount < ttyInBytes → P (storeChar s c false) := by
    intro c hroom
    have := storeChar_countEnd s c false (by simp)
    rw [show storeChar s c false = _ from this]
    exact hsame _ _ (echo_input _ _) (henqueue s _ _ hroom hs)
  unfold inChar
  by_cases hfull : ttyInBytes ≤ s.tp.incount
  · rw [if_pos hfull]
    exact hs
  rw [if_neg hfull]
  push Not at hfull
  extract_lets mode c
  by_cases hcooked : mode = 0
  · rw [if_pos hcooked]
    have hc : c = ch &&& 0x7F := if_pos (by rw [hcooked]; decide)
    rw [hc]
    refine cookedChar_rule hsame hchuck hdiscard hdrop henqueue ?_ hfull hs
    intro hback
    exact hover ⟨hback.1, by simpa [Line.cooked] using hcooked, hback.2⟩
  rw [if_neg hcooked]
  by_cases hcbreak : mode = cbreak
  · rw [if_pos hcbreak]
    exact specialChar_rule false hsame hdiscard hdrop hs (by simp)
      fun _ c b => henqueue s c b hfull hs
  · rw [if_neg hcbreak]
    exact hplain c hfull

end Rule

end LisaMinix.Kernel.Tty
