import LisaMinix.Kernel.TtyRuns

/-!
# Counting Lines

`tty_lfct` is meant to be the number of line feeds and ends of file in the input queue.

- `drift`: how far a history has put `tty_lfct` off.  `in_char` counts an end of file before it looks
  whether the character is dropped; `chuck` erases a `MARKER` and does not look at the counter;
  `rd_chars` takes a `MARKER` in RAW or CBREAK mode as any other character; and in RAW mode a character
  0200 is stored that counts as an end of file when the mode is changed.
- `Counted`: in every run `tty_lfct` is the number of ends in the queue, plus the drift.
- `CountsLines`: the counter is right, and a read in cooked mode gets the first line.
- `Line.KeyCounts`, `Line.TakesMarker`: the terminals and characters for which none of that happens;
  no other characters put the counter off (`drift_keyEvents`).
- `counts_lines`: in a run without the others the counter stays right.
-/

namespace LisaMinix.Kernel.Tty

/-! ## §1 The drift -/

/-- The number of line feeds and `MARKER`s. -/
def ends (l : List UInt8) : ℕ := l.countP fun c => IsEnd c

/-- 1 for an end of line. -/
def endCount (c : UInt8) : ℤ := if IsEnd c then 1 else 0

/-- What is counted, less what is stored as an end. -/
def boolCount (b : Bool) : ℤ := if b then 1 else 0

/-- How far `tty_lfct` is ahead of the ends in the queue. -/
def drift : List QueueEvent → ℤ
  | [] => 0
  | .stored c counted :: log => drift log + boolCount counted - endCount c
  | .overran old c counted :: log => drift log + boolCount counted - 2 * endCount c + endCount old
  | .dropped :: log => drift log + 1
  | .erased c :: log => drift log + endCount c
  | .discarded :: _ => 0
  | .taken cooked chars _ :: log => drift log + if cooked then 0 else (chars.count marker : ℤ)

theorem ends_append (l r : List UInt8) : ends (l ++ r) = ends l + ends r := List.countP_append ..

theorem ends_singleton (c : UInt8) : (ends [c] : ℤ) = endCount c := by
  unfold ends endCount
  by_cases h : IsEnd c
  · simp [h]
  · simp [h]

theorem ends_cons (c : UInt8) (l : List UInt8) : (ends (c :: l) : ℤ) = endCount c + ends l := by
  rw [← List.singleton_append, ends_append]
  push_cast
  rw [ends_singleton]

theorem ends_eq_zero {l : List UInt8} : ends l = 0 ↔ ∀ c ∈ l, ¬IsEnd c := by
  simp [ends, List.countP_eq_zero]

/-- The ends among the characters that are taken, and the ones for which the counter goes down. -/
theorem ends_eq_uncounted (cooked : Bool) (l : List UInt8) :
    (ends l : ℤ) = uncounted cooked l + if cooked then 0 else (l.count marker : ℤ) := by
  induction l with
  | nil => cases cooked <;> rfl
  | cons c l ih =>
    rw [ends_cons, uncounted_cons, ih, endCount, List.count_cons]
    have hne : newline ≠ marker := by decide
    by_cases hline : c = newline
    · subst hline
      cases cooked
      · simp [IsEnd, hne]
        ring
      · simp [IsEnd]
        ring
    · by_cases hmark : c = marker
      · subst hmark
        cases cooked
        · simp [IsEnd, Ne.symm hne]
          ring
        · simp [IsEnd]
          ring
      · simp [IsEnd, hline, hmark]

/-! ## §2 The counter in every run -/

/-- The counter is the number of ends, put off by the drift; it has 16 bits. -/
structure Counted (s : State) : Prop where
  tracked : Tracked s
  inRange : InRange s.tp.lfct
  lfct : (65536 : ℤ) ∣ s.tp.lfct - ends s.tp.contents - drift s.log

theorem inRange_zero : InRange 0 := ⟨by decide, by decide⟩

theorem counted_start : Counted start := ⟨tracked_start, inRange_zero, by decide⟩

theorem wrap16_dvd (n : ℤ) : (65536 : ℤ) ∣ wrap16 n - n := by
  unfold wrap16
  omega

/-- The counter after `countEnd`. -/
theorem lfct_countEnd (s : State) (b : Bool) (h : InRange s.tp.lfct) :
    InRange (countEnd s b).tp.lfct ∧
      (65536 : ℤ) ∣ (countEnd s b).tp.lfct - s.tp.lfct - boolCount b := by
  cases b with
  | false => exact ⟨h, by simp [countEnd, boolCount]⟩
  | true =>
    refine ⟨wrap16_inRange _, ?_⟩
    have := wrap16_dvd (s.tp.lfct + 1)
    change (65536 : ℤ) ∣ wrap16 (s.tp.lfct + 1) - s.tp.lfct - 1
    omega

variable {s : State}

theorem Counted.enqueue (hs : Counted s) (hroom : s.tp.incount ≤ ttyInBytes) (c : UInt8)
    (b : Bool) : Counted (enqueue s c b) := by
  obtain ⟨hrange, hlfct⟩ := lfct_countEnd s b hs.inRange
  have hring := hs.tracked.ring
  have hold := hs.lfct
  refine ⟨hs.tracked.enqueue hroom c b, hrange, ?_⟩
  have hring' : Library.IsRing ttyInBytes (countEnd s b).tp.inhead (countEnd s b).tp.intail
      (countEnd s b).tp.incount := by
    simpa using hring
  by_cases hlt : s.tp.incount < ttyInBytes
  · have hcontents : (Tty.enqueue s c b).tp.contents = s.tp.contents ++ [c] := by
      have := contents_put hring' (by simpa using hlt) c
      rwa [countEnd_contents] at this
    have hlog : (Tty.enqueue s c b).log = .stored c b :: s.log := by
      simp [Tty.enqueue, store, State.note, State.modTp, hlt]
    rw [hcontents, hlog, ends_append, drift]
    push_cast
    rw [ends_singleton]
    change (65536 : ℤ) ∣ (countEnd s b).tp.lfct - _ - _
    omega
  · -- the oldest character is overwritten: the new one is at both ends of the queue
    have hfull : s.tp.incount = ttyInBytes := by omega
    have hcontents : (Tty.enqueue s c b).tp.contents = c :: s.tp.contents.tail ++ [c] := by
      have := contents_put_full hring' (by simpa using hfull) c
      rwa [countEnd_contents] at this
    have hhead := head?_contents hring (by rw [hfull]; decide)
    have hsame : s.tp.inhead = s.tp.intail := by
      rw [hring.head_eq, hfull, Nat.add_mod_right, Nat.mod_eq_of_lt hring.tail_lt]
    have hlog : (Tty.enqueue s c b).log = .overran (s.tp.inqueue s.tp.intail) c b :: s.log := by
      simp [Tty.enqueue, store, State.note, State.modTp, hlt, hsame]
    obtain ⟨rest, hrest⟩ : ∃ rest, s.tp.contents = s.tp.inqueue s.tp.intail :: rest := by
      cases hl : s.tp.contents with
      | nil => simp [hl] at hhead
      | cons old rest =>
        rw [hl, List.head?_cons, Option.some.injEq] at hhead
        exact ⟨rest, by rw [hhead]⟩
    rw [hrest, ends_cons] at hold
    rw [hcontents, hlog, hrest, List.tail_cons, ends_append, drift]
    push_cast
    rw [ends_cons, ends_singleton]
    change (65536 : ℤ) ∣ (countEnd s b).tp.lfct - _ - _
    omega

theorem kept_counted : Kept Counted where
  tracked hs := hs.tracked
  same h hs := by
    have htracked := hs.tracked.of_queue h
    simp only [State.queue, Queue.mk.injEq] at h
    obtain ⟨hqueue, -, htail, hcount, hlfct, hlog, -⟩ := h
    refine ⟨htracked, by rw [hlfct]; exact hs.inRange, ?_⟩
    rw [hlfct, hlog, Line.contents, hqueue, htail, hcount]
    exact hs.lfct
  chuck h hs := by
    have htracked := hs.tracked.chuck h
    obtain ⟨hempty, -, rfl⟩ := chuck_eq_some h
    have hold := hs.lfct
    rw [(contents_chuck hs.tracked.ring hempty).1, ends_append] at hold
    push_cast at hold
    rw [ends_singleton] at hold
    refine ⟨htracked, hs.inRange, ?_⟩
    simp only [State.modTp, State.note, drift]
    omega
  discard hs := ⟨hs.tracked.discard, inRange_zero, by simp [discard, State.modTp, State.note, drift,
    Line.contents, ends]⟩
  drop {s} hs := by
    obtain ⟨hrange, hlfct⟩ := lfct_countEnd s true hs.inRange
    refine ⟨hs.tracked.dropEof, hrange, ?_⟩
    have hold := hs.lfct
    simp only [dropEof, State.note, drift, countEnd_contents, countEnd_log]
    simp only [boolCount, if_true] at hlfct
    omega
  enqueue c b hroom hs := hs.enqueue hroom.le c b
  take {s chars lfct copies} htook hs := by
    refine ⟨hs.tracked.take htook, htook.lfct.inRange hs.inRange, ?_⟩
    have hold := hs.lfct
    obtain ⟨rest, hrest⟩ := htook.isPrefix
    have hdrop : s.tp.contents.drop chars.length = rest := by rw [← hrest, List.drop_left]
    have hmod := htook.lfct.modEq.symm.dvd
    rw [contents_takeChars, hdrop]
    rw [← hrest, ends_append] at hold
    push_cast at hold
    rw [ends_eq_uncounted s.tp.cooked chars] at hold
    simp only [takeChars, State.note, drift]
    omega

/-- In every run the counter is put off by the drift, and by nothing else. -/
theorem Reached.counted (h : Reached (fun _ _ _ => True) s) : Counted s :=
  h.invariant counted_start fun _ _ e hs _ =>
    kept_counted.step (Q := fun _ _ _ => True)
      (fun _ _ _ _ _ _ c b hfull hs => hs.enqueue hfull.le c b) (onKeys_true _ _ e) hs

/-! ## §3 Reading lines -/

/-- The state in which `do_read` calls `rd_chars`. -/
def asked (s : State) (source procNr address count : ℤ) : State :=
  s.modTp fun tp => tp.request source procNr address count

/-- In cooked mode the counter is the number of line feeds and ends of file in the queue, and a read
waits, or stays hanging, just as long as there is none; else it gets the first line, or as much of it
as was asked for. -/
structure CountsLines (s : State) : Prop where
  count : s.tp.lfct = ends s.tp.contents
  wakes : 0 < s.tp.lfct ↔ ∃ c ∈ s.tp.contents, IsEnd c
  waits : ∀ env source procNr address count,
    (rdChars env (asked s source procNr address count)).1 = suspend ↔
      ∀ c ∈ s.tp.contents, ¬IsEnd c
  line : ∀ env source procNr address count,
    (∃ c ∈ s.tp.contents, IsEnd c) → umap (env.map procNr) 1 address count ≠ 0 →
      ∃ line, line = (firstLine s.tp.contents).take count.toNat ∧
        (rdChars env (asked s source procNr address count)).1 = (deliverable true line).length ∧
        copied (rdChars env (asked s source procNr address count)).2.copies =
          copied s.copies ++ deliverable true line ∧
        (rdChars env (asked s source procNr address count)).2.tp.contents =
          s.tp.contents.drop line.length

/-- With the counter right, `rd_chars` does what it should. -/
theorem countsLines_of_count (hs : Tracked s) (hcooked : s.tp.cooked = true)
    (hcount : s.tp.lfct = ends s.tp.contents) : CountsLines s := by
  -- `rd_chars` tests the counter only
  have hnone (source procNr address count : ℤ) :
      (asked s source procNr address count).tp.NoInput ↔ ∀ c ∈ s.tp.contents, ¬IsEnd c := by
    rw [← ends_eq_zero]
    change s.tp.incount = 0 ∨ (s.tp.cooked = true ∧ s.tp.lfct = 0) ↔ _
    rw [hcount, ← s.tp.length_contents, List.length_eq_zero_iff]
    constructor
    · rintro (hnil | ⟨-, hzero⟩)
      · rw [hnil]
        rfl
      · exact_mod_cast hzero
    · intro hzero
      exact .inr ⟨hcooked, by exact_mod_cast hzero⟩
  have htail : s.tp.intail < ttyInBytes := hs.ring.tail_lt
  refine ⟨hcount, ?_, ?_, ?_⟩
  · rw [hcount, Int.natCast_pos, Nat.pos_iff_ne_zero, Ne, ends_eq_zero]
    push Not
    rfl
  · intro env source procNr address count
    rw [← hnone source procNr address count]
    constructor
    · intro hsuspend
      by_contra hinput
      by_cases hphys : (asked s source procNr address count).tp.userPhys env = 0
      · rw [rdChars_of_badAddr hinput hphys] at hsuspend
        exact absurd hsuspend (by decide : eBadAddr ≠ suspend)
      · obtain ⟨chars, lfct, copies, -, hrd⟩ :=
          rdChars_of_input (s := asked s source procNr address count) htail hinput hphys
        rw [hrd] at hsuspend
        simp only [suspend] at hsuspend
        omega
    · intro hinput
      rw [rdChars_of_noInput hinput]
  · intro env source procNr address count hend hphys
    have hinput : ¬(asked s source procNr address count).tp.NoInput := by
      rw [hnone]
      push Not
      exact hend
    obtain ⟨chars, lfct, copies, htook, hrd⟩ :=
      rdChars_of_input (s := asked s source procNr address count) htail hinput hphys
    have hmode : (asked s source procNr address count).tp.cooked = true := hcooked
    refine ⟨chars, htook.line hmode, ?_, ?_, ?_⟩
    · rw [hrd, hmode]
    · rw [hrd]
      have := htook.copied
      rw [hmode] at this
      exact this
    · rw [hrd]
      exact contents_takeChars

/-! ## §4 What puts the counter off -/

/-- An end of file is counted, and then dropped: output is stopped, or 0200 stops it. -/
def Line.LosesEof (tp : Line) (ch : UInt8) : Prop :=
  tp.cooked = true ∧ tp.escaped = false ∧ ch &&& 0x7F = tp.eof ∧ ch &&& 0x7F ≠ tp.erase ∧
    ch &&& 0x7F ≠ tp.kill ∧ ch &&& 0x7F ≠ backslash ∧ marker ≠ tp.intr ∧ marker ≠ tp.quit ∧
    (marker = tp.xoff ∨ tp.inhibited = true)

/-- The characters that are rubbed out by the erase or the kill character. -/
def Line.rubbedOut (tp : Line) (ch : UInt8) : List UInt8 :=
  if tp.cooked = true ∧ tp.escaped = false then
    if ch &&& 0x7F = tp.erase then tp.unfinished.getLast?.toList
    else if ch &&& 0x7F = tp.kill then tp.unfinished
    else []
  else []

/-- A character does not put the counter off: it does not overflow the queue, is no end of file that
gets lost, rubs out no `MARKER`, and does not look like one in RAW mode. -/
def Line.KeyCounts (tp : Line) (ch : UInt8) : Prop :=
  tp.incount < ttyInBytes →
    ¬tp.Overflows ch ∧ ¬tp.LosesEof ch ∧ marker ∉ tp.rubbedOut ch ∧ ¬(tp.inputMode = raw ∧ ch = marker)

/-- There is a `MARKER` among the characters that a reader in RAW or CBREAK mode asks for. -/
def Line.TakesMarker (tp : Line) : Prop :=
  tp.cooked = false ∧ marker ∈ tp.contents.take tp.inleft.toNat

/-- The keystrokes and the requests that do not put the counter off. -/
def KeyCounts (_ : Env) (s : State) (ch : UInt8) : Prop := s.tp.KeyCounts ch ∧ ¬s.tp.TakesMarker

def ReadCounts (s : State) : Event → Prop
  | .read source procNr address count =>
    0 < s.tp.inleft ∨ ¬(asked s source procNr address count).tp.TakesMarker
  | _ => True

def EventCounts (env : Env) (s : State) (e : Event) : Prop := OnKeys KeyCounts env s e ∧ ReadCounts s e

instance (tp : Line) (ch : UInt8) : Decidable (tp.LosesEof ch) :=
  inferInstanceAs (Decidable (_ ∧ _ ∧ _ ∧ _ ∧ _ ∧ _ ∧ _ ∧ _ ∧ _))

instance (tp : Line) (ch : UInt8) : Decidable (tp.KeyCounts ch) :=
  inferInstanceAs (Decidable (_ → _))

instance (tp : Line) : Decidable tp.TakesMarker := inferInstanceAs (Decidable (_ ∧ _))

instance (env : Env) (s : State) (ch : UInt8) : Decidable (KeyCounts env s ch) :=
  inferInstanceAs (Decidable (_ ∧ _))

instance (s : State) : ∀ e, Decidable (ReadCounts s e)
  | .read .. => inferInstanceAs (Decidable (_ ∨ _))
  | .key _ | .hardInt | .write .. | .ioctl .. | .setpgrp .. | .cancel .. | .other .. =>
    inferInstanceAs (Decidable True)

instance (env : Env) (s : State) (e : Event) : Decidable (EventCounts env s e) :=
  inferInstanceAs (Decidable (_ ∧ _))

section

variable {tp : Line} {ch : UInt8} {log : List QueueEvent}

theorem seven_bits (ch : UInt8) : ch &&& 0x7F ≠ marker := by
  intro h
  have hnat : (ch &&& 0x7F).toNat = 128 := congrArg UInt8.toNat h
  have hle : ch.toNat &&& 127 ≤ 127 := Nat.and_le_right
  rw [UInt8.toNat_and] at hnat
  change ch.toNat &&& 127 = 128 at hnat
  omega

theorem mapCr_eq_marker : tp.mapCr ch = marker ↔ ch = marker := by
  unfold Line.mapCr
  split
  next h =>
    rw [h.1]
    exact iff_of_false (by decide) (by decide)
  next => exact Iff.rfl

/-- What is rubbed out is no line feed. -/
theorem drift_erased {l : List UInt8} (h : newline ∉ l) :
    drift (l.map .erased ++ log) = drift log + l.count marker := by
  induction l with
  | nil => simp
  | cons c l ih =>
    rw [List.mem_cons, not_or] at h
    have hcount : endCount c = if c = marker then 1 else 0 := by
      simp only [endCount, IsEnd, Ne.symm h.1, false_or]
    rw [List.map_cons, List.cons_append, drift, ih h.2, hcount, List.count_cons]
    simp only [beq_iff_eq]
    split_ifs
    all_goals
      push_cast
      ring

theorem drift_erased_iff {l : List UInt8} (h : newline ∉ l) (hlog : drift log = 0) :
    drift (l.map .erased ++ log) = 0 ↔ marker ∉ l := by
  rw [drift_erased h, hlog, zero_add, Nat.cast_eq_zero, List.count_eq_zero]

theorem newline_not_mem_unfinished (tp : Line) : newline ∉ tp.unfinished := fun h => by
  have := List.mem_rtakeWhile_imp h
  simp at this

/-- A character that is stored: `MARKER` is counted, and nothing else but a line feed is. -/
theorem drift_stored (c : UInt8) (counted : Bool) (hmark : c = marker ↔ counted = true)
    (hlog : drift log = 0) : drift (.stored c (counted || c = newline) :: log) = 0 := by
  have hne : newline ≠ marker := by decide
  rw [drift, hlog, boolCount, endCount]
  by_cases hline : c = newline
  · simp [hline, IsEnd]
  · by_cases hm : c = marker
    · simp [hm, hmark.mp hm, IsEnd]
    · have hcounted : counted = false := by
        rw [← Bool.not_eq_true]
        exact fun h => hm (hmark.mpr h)
      simp [hline, hm, hcounted, IsEnd]

/-- A character outside RAW mode puts the counter off just if it has been counted and is dropped. -/
theorem drift_specialEvents {counted : Bool} (hroom : tp.Stores ch → tp.incount < ttyInBytes)
    (hmark : ch = marker ↔ counted = true) (hlog : drift log = 0) :
    drift (tp.specialEvents ch counted ++ log) = 0 ↔
      ¬(counted = true ∧ tp.mapCr ch ≠ tp.intr ∧ tp.mapCr ch ≠ tp.quit ∧
        (tp.mapCr ch = tp.xoff ∨ tp.inhibited = true)) := by
  unfold Line.specialEvents
  by_cases hsig : tp.mapCr ch = tp.intr ∨ tp.mapCr ch = tp.quit
  · rw [if_pos hsig]
    refine iff_of_true rfl fun h => ?_
    rcases hsig with hsig | hsig
    · exact h.2.1 hsig
    · exact h.2.2.1 hsig
  rw [if_neg hsig]
  obtain ⟨hintr, hquit⟩ := not_or.mp hsig
  by_cases hstop : tp.mapCr ch = tp.xoff ∨ tp.inhibited = true
  · rw [if_pos hstop]
    cases counted with
    | false => exact iff_of_true hlog (by simp)
    | true =>
      refine iff_of_false ?_ fun h => h ⟨rfl, hintr, hquit, hstop⟩
      simp [drift, hlog]
  · obtain ⟨hxoff, hrun⟩ := not_or.mp hstop
    have hstores : tp.Stores ch := ⟨hintr, hquit, hxoff, by simpa using hrun⟩
    rw [if_neg hstop, Line.storedEvent, if_pos (hroom hstores)]
    refine iff_of_true (drift_stored _ _ ?_ hlog) fun h => hstop h.2.2.2
    rw [mapCr_eq_marker, hmark]

/-- A character for which nothing has been counted is never lost. -/
theorem drift_specialEvents_false (hroom : tp.Stores ch → tp.incount < ttyInBytes) (hch : ch ≠ marker)
    (hlog : drift log = 0) : drift (tp.specialEvents ch false ++ log) = 0 :=
  (drift_specialEvents hroom (iff_of_false hch (by simp)) hlog).mpr (by simp)

theorem drift_cookedEvents (hroom : tp.incount < ttyInBytes) (hcooked : tp.cooked = true)
    (hover : ¬tp.Overflows ch) (hlog : drift log = 0) :
    drift (tp.cookedEvents (ch &&& 0x7F) ++ log) = 0 ↔ ¬tp.LosesEof ch ∧ marker ∉ tp.rubbedOut ch := by
  have hseven := seven_bits ch
  unfold Line.cookedEvents Line.rubbedOut
  by_cases hescaped : tp.escaped = false
  · have hline : tp.cooked = true ∧ tp.escaped = false := ⟨hcooked, hescaped⟩
    rw [if_pos hescaped, if_pos hline]
    by_cases herase : ch &&& 0x7F = tp.erase
    · have hkept : ¬tp.LosesEof ch := fun h => h.2.2.2.1 herase
      have hline : newline ∉ tp.unfinished.getLast?.toList := fun h =>
        newline_not_mem_unfinished tp (List.mem_of_getLast? (Option.mem_toList.mp h))
      rw [if_pos herase, if_pos herase, drift_erased_iff hline hlog, and_iff_right hkept]
    rw [if_neg herase, if_neg herase]
    by_cases hkill : ch &&& 0x7F = tp.kill
    · have hkept : ¬tp.LosesEof ch := fun h => h.2.2.2.2.1 hkill
      rw [if_pos hkill, if_pos hkill, drift_erased_iff (newline_not_mem_unfinished tp) hlog,
        and_iff_right hkept]
    rw [if_neg hkill, if_neg hkill, and_iff_left List.not_mem_nil]
    by_cases hback : ch &&& 0x7F = backslash
    · rw [if_pos hback]
      exact iff_of_true hlog fun h => h.2.2.2.2.2.1 hback
    rw [if_neg hback]
    by_cases heof : ch &&& 0x7F = tp.eof
    · have hmarker : tp.mapCr marker = marker := mapCr_eq_marker.mpr rfl
      rw [if_pos heof, drift_specialEvents (fun _ => hroom) (by simp) hlog, hmarker]
      refine not_congr ⟨fun h => ?_, fun h => ⟨rfl, h.2.2.2.2.2.2⟩⟩
      exact ⟨hcooked, hescaped, heof, herase, hkill, hback, h.2⟩
    · rw [if_neg heof]
      exact iff_of_true (drift_specialEvents_false (fun _ => hroom) hseven hlog) fun h => heof h.2.2.1
  · have hnone : ¬tp.LosesEof ch ∧ marker ∉ ([] : List UInt8) :=
      ⟨fun h => hescaped h.2.1, List.not_mem_nil⟩
    have hline : ¬(tp.cooked = true ∧ tp.escaped = false) := fun h => hescaped h.2
    rw [if_neg hescaped, if_neg hline]
    refine iff_of_true ?_ hnone
    by_cases hspecial : ch &&& 0x7F = tp.erase ∨ ch &&& 0x7F = tp.kill ∨ ch &&& 0x7F = tp.eof
    · rw [if_pos hspecial]
      exact drift_specialEvents_false (fun _ => hroom) hseven hlog
    · -- the backslash is no end, and there is room for the character behind it
      have hback : drift (tp.storedEvent backslash false :: log) = 0 := by
        rw [Line.storedEvent, if_pos hroom]
        exact drift_stored backslash false (by decide) hlog
      rw [if_neg hspecial, List.append_assoc]
      simp only [not_or] at hspecial
      refine drift_specialEvents_false (fun hstores => ?_) hseven hback
      by_contra hfull
      change ¬tp.incount + 1 < ttyInBytes at hfull
      exact hover ⟨by omega, hcooked, by simpa using hescaped, hspecial.1, hspecial.2.1, hspecial.2.2,
        hstores⟩

/-- Without an overflow, these are the characters that put the counter off, and there are no others. -/
theorem drift_keyEvents (hover : ¬tp.Overflows ch) (hlog : drift log = 0) :
    drift (tp.keyEvents ch ++ log) = 0 ↔ tp.KeyCounts ch := by
  unfold Line.keyEvents Line.KeyCounts
  by_cases hfull : ttyInBytes ≤ tp.incount
  · rw [if_pos hfull]
    exact iff_of_true hlog fun hroom => absurd hroom (Nat.not_lt.mpr hfull)
  have hroom : tp.incount < ttyInBytes := Nat.lt_of_not_le hfull
  rw [if_neg hfull, forall_prop_of_true hroom, and_iff_right hover]
  by_cases hmode : tp.inputMode = 0
  · have hcooked : tp.cooked = true := by simpa [Line.cooked] using hmode
    have hraw : ¬(tp.inputMode = raw ∧ ch = marker) := fun h => by
      rw [hmode] at h
      exact absurd h.1 (by decide)
    rw [if_pos hmode, drift_cookedEvents hroom hcooked hover hlog, and_iff_left hraw]
  have hcooked : ¬tp.cooked = true := by simpa [Line.cooked] using hmode
  have hlose : ¬tp.LosesEof ch := fun h => hcooked h.1
  have hrub : marker ∉ tp.rubbedOut ch := by
    rw [Line.rubbedOut, if_neg fun h => hcooked h.1]
    exact List.not_mem_nil
  rw [if_neg hmode, and_iff_right hlose, and_iff_right hrub]
  by_cases hcbreak : tp.inputMode = cbreak
  · rw [if_pos hcbreak]
    refine iff_of_true (drift_specialEvents_false (fun _ => hroom) (seven_bits ch) hlog) fun h => ?_
    rw [hcbreak] at h
    exact absurd h.1 (by decide)
  rw [if_neg hcbreak]
  by_cases hraw : tp.inputMode = raw
  · simp only [hraw, true_and]
    by_cases hm : ch = marker
    · -- nobody counts the character
      rw [hm]
      refine iff_of_false ?_ (by simp)
      simp [drift, hlog, boolCount, endCount, IsEnd, show marker ≠ newline by decide]
    · exact iff_of_true (drift_stored ch false (iff_of_false hm (by simp)) hlog) hm
  · simp only [if_neg hraw]
    exact iff_of_true (drift_stored _ false (iff_of_false (seven_bits ch) (by simp)) hlog)
      fun h => hraw h.1

end

/-! ## §5 Every run -/

/-- Outside cooked mode a character is stored or not, or discards what there is. -/
theorem keyEvents_uncooked {tp : Line} {ch : UInt8} (hmode : tp.cooked = false) (hkey : tp.KeyCounts ch) :
    tp.keyEvents ch = [] ∨ tp.keyEvents ch = [.discarded] ∨
      ∃ c b, c ≠ marker ∧ tp.keyEvents ch = [.stored c b] := by
  have huncooked : ¬tp.inputMode = 0 := by simpa [Line.cooked] using hmode
  unfold Line.keyEvents
  by_cases hfull : ttyInBytes ≤ tp.incount
  · rw [if_pos hfull]
    exact .inl rfl
  have hroom : tp.incount < ttyInBytes := Nat.lt_of_not_le hfull
  rw [if_neg hfull, if_neg huncooked]
  by_cases hcbreak : tp.inputMode = cbreak
  · rw [if_pos hcbreak, Line.specialEvents]
    split
    · exact .inr (.inl rfl)
    split
    · exact .inl rfl
    · rw [Line.storedEvent, if_pos hroom]
      exact .inr (.inr ⟨_, _, mapCr_eq_marker.not.mpr (seven_bits ch), rfl⟩)
  rw [if_neg hcbreak]
  refine .inr (.inr ⟨_, _, ?_, rfl⟩)
  split
  next hraw => exact fun hm => (hkey hroom).2.2.2 ⟨hraw, hm⟩
  next => exact seven_bits ch

/-- The queue is tracked, and the counter has not been put off. -/
structure Balanced (s : State) : Prop where
  tracked : Tracked s
  drift : Tty.drift s.log = 0

namespace Balanced

variable {env : Env} {s : State} {ch : UInt8}

theorem of_queue {s' : State} (hs : Balanced s) (h : s'.queue = s.queue) : Balanced s' := by
  have hlog : s'.log = s.log := congrArg Queue.log h
  refine ⟨hs.tracked.of_queue h, ?_⟩
  rw [hlog]
  exact hs.drift

theorem inChar (hs : Balanced s) (hkey : s.tp.KeyCounts ch) : Balanced (inChar env s ch) := by
  refine ⟨kept_tracked.inChar (fun _ => tracked_over) hs.tracked, ?_⟩
  rw [inChar_log env hs.tracked]
  by_cases hroom : s.tp.incount < ttyInBytes
  · exact (drift_keyEvents (hkey hroom).1 hs.drift).mpr hkey
  · rw [Line.keyEvents, if_pos (Nat.le_of_not_lt hroom)]
    exact hs.drift

/-- A character does not bring a `MARKER` within the reach of the reader. -/
theorem not_takesMarker (hs : Balanced s) (hkey : s.tp.KeyCounts ch) (htakes : ¬s.tp.TakesMarker) :
    ¬(Tty.inChar env s ch).tp.TakesMarker := by
  obtain ⟨hleft, -, -, -, hmode⟩ := inChar_request env s ch
  have htracked : Tracked (Tty.inChar env s ch) :=
    kept_tracked.inChar (fun _ => tracked_over) hs.tracked
  have hcooked : (Tty.inChar env s ch).tp.cooked = s.tp.cooked := by
    unfold Line.cooked Line.inputMode
    rw [hmode]
  have hreplayed := htracked.replayed
  rw [inChar_log env hs.tracked] at hreplayed
  unfold Line.TakesMarker
  rw [hcooked, hleft]
  rintro ⟨huncooked, hmem⟩
  have hnot : marker ∉ s.tp.contents.take s.tp.inleft.toNat := fun h => htakes ⟨huncooked, h⟩
  rcases keyEvents_uncooked huncooked hkey with hnone | hdiscard | ⟨c, b, hc, hstored⟩
  · rw [hnone, List.nil_append, hs.tracked.replayed] at hreplayed
    rw [← Option.some.inj hreplayed] at hmem
    exact hnot hmem
  · rw [hdiscard, List.singleton_append, replay, hs.tracked.replayed] at hreplayed
    rw [← Option.some.inj hreplayed] at hmem
    simp at hmem
  · rw [hstored, List.singleton_append, replay, hs.tracked.replayed] at hreplayed
    rw [← Option.some.inj hreplayed, List.take_append, List.mem_append] at hmem
    rcases hmem with hmem | hmem
    · exact hnot hmem
    · exact hc (List.mem_singleton.mp (List.mem_of_mem_take hmem)).symm

theorem rdChars (hs : Balanced s) (env : Env) (htakes : ¬s.tp.TakesMarker) : Balanced (rdChars env s).2 := by
  refine ⟨kept_tracked.rdChars hs.tracked, ?_⟩
  by_cases hinput : s.tp.NoInput
  · rw [rdChars_of_noInput hinput]
    exact hs.drift
  by_cases hphys : s.tp.userPhys env = 0
  · rw [rdChars_of_badAddr hinput hphys]
    exact hs.drift
  obtain ⟨chars, lfct, copies, htook, hrd⟩ :=
    rdChars_of_input hs.tracked.ring.tail_lt hinput hphys
  rw [hrd]
  simp only [takeChars, State.note, Tty.drift, hs.drift, zero_add]
  cases hcooked : s.tp.cooked with
  | true => rfl
  | false =>
    have hnone : marker ∉ chars := fun hmem => by
      refine htakes ⟨hcooked, ?_⟩
      have hchars := List.prefix_iff_eq_take.mp htook.isPrefix
      rw [hchars] at hmem
      exact (List.take_subset_take_left _ htook.length_le) hmem
    simpa using List.count_eq_zero.mpr hnone

/-- A keystroke and the read that it completes. -/
theorem charStep (hs : Balanced s) (hkey : KeyCounts env s ch) : Balanced (charStep env s ch) := by
  obtain ⟨hkey, htakes⟩ := hkey
  have hin : Balanced (Tty.inChar env s ch) := hs.inChar hkey
  unfold Tty.charStep
  extract_lets s'
  split
  · exact (hin.rdChars env (hs.not_takesMarker hkey htakes)).of_queue (s := (Tty.rdChars env s').2) rfl
  · exact hin

theorem step {e : Event} (hs : Balanced s) (hcounts : EventCounts env s e) :
    Balanced (step env s e) := by
  obtain ⟨hkeys, hread⟩ := hcounts
  cases e with
  | key c =>
    refine hs.of_queue ?_
    simp only [Tty.step, kbdput]
    split_ifs
    all_goals rfl
  | hardInt =>
    exact charInt_rule (P := Balanced) (fun _ _ hkey hs => hs.charStep hkey) (hs.of_queue rfl) hkeys
  | read source procNr address count =>
    simp only [Tty.step, doRead]
    split_ifs with hleft
    · exact hs.of_queue rfl
    · have htakes := hread.resolve_left hleft
      have hasked : Balanced { asked s source procNr address count with
          reads := .issued procNr :: s.reads } := hs.of_queue rfl
      exact (hasked.rdChars env htakes).of_queue rfl
  | write source procNr address count =>
    simp only [Tty.step, doWrite]
    split_ifs
    · exact hs.of_queue rfl
    · exact (hs.of_queue rfl).of_queue (queue_of_input (console_input _ _))
    · exact (hs.of_queue rfl).of_queue (queue_of_input (console_input _ _))
  | ioctl source procNr request spek flags =>
    refine hs.of_queue ?_
    simp only [Tty.step, doIoctl]
    split_ifs
    all_goals rfl
  | setpgrp source procNr pgrp => exact hs.of_queue rfl
  | cancel source procNr mode =>
    have hdiscard : Balanced (Tty.discard s) := ⟨hs.tracked.discard, rfl⟩
    simp only [Tty.step, doCancel]
    split_ifs
    all_goals first
      | exact hs
      | exact hdiscard.of_queue rfl
      | exact hs.of_queue rfl
  | other source procNr => exact hs.of_queue rfl

end Balanced

/-- A run that meets a condition is a run. -/
theorem Reached.unconditional {safe : Env → State → Event → Prop} (h : Reached safe s) :
    Reached (fun _ _ _ => True) s := by
  induction h with
  | start => exact .start
  | step env e _ _ ih => exact .step env e ih trivial

/-- **Counting lines**: in every run in which no keystroke and no read puts the counter off, a terminal
in cooked mode counts its lines, and its reads get lines. -/
theorem counts_lines {s : State} (h : Reached EventCounts s) (hcooked : s.tp.cooked = true) :
    CountsLines s := by
  have hbalanced : Balanced s :=
    h.invariant ⟨tracked_start, rfl⟩ fun _ _ _ hs hcounts => hs.step hcounts
  have hcounted := h.unconditional.counted
  have hdvd := hcounted.lfct
  rw [hbalanced.drift] at hdvd
  apply countsLines_of_count hcounted.tracked hcooked
  obtain ⟨hlow, hhigh⟩ := hcounted.inRange
  -- both are numbers of less than 16 bits
  have hle : ends s.tp.contents ≤ ttyInBytes + 1 :=
    List.countP_le_length.trans (by simpa using hcounted.tracked.count_le)
  unfold ttyInBytes at hle
  omega

/-- A line is typed with a letter rubbed out, and read; then an end of file.  In RAW mode a character is
read; in cooked mode the output is stopped and started again, and a letter and an end of file wait. -/
def typedLines : List Event :=
  [.key 97, .key 98, .key backspace, .key carriageReturn, .hardInt, .read 1 5 256 10, .key 4, .hardInt,
    .read 1 5 256 10, .ioctl 1 5 tiocsetp 0x0840 raw, .key 120, .hardInt, .read 1 5 256 1,
    .ioctl 1 5 tiocsetp 0x0840 crmod, .key 0x13, .key 0x11, .key 99, .key 4, .hardInt]

theorem counts_lines_typedLines : CountsLines (play readerEnv typedLines start) ∧
    copied (play readerEnv typedLines start).copies = [97, newline, 120] ∧
    (play readerEnv typedLines start).tp.contents = [99, marker] :=
  ⟨counts_lines (Reached.start.play (by decide)) (by decide), by decide, by decide⟩

/-- An end of file is typed and rubbed out, and then a letter. -/
def erasedEof : List Event := [.key 4, .key backspace, .key 97, .hardInt]

/-- The letter is no line, but the counter says that there is one, and a read gets the letter. -/
theorem counts_erased_eof :
    Reached (fun _ _ _ => True) (play readerEnv erasedEof start) ∧
      (play readerEnv erasedEof start).tp.cooked = true ∧
      (play readerEnv erasedEof start).tp.contents = [97] ∧
      (play readerEnv erasedEof start).tp.lfct = 1 ∧
      (rdChars readerEnv (asked (play readerEnv erasedEof start) 1 5 256 10)).1 = 1 ∧
      ¬CountsLines (play readerEnv erasedEof start) := by
  refine ⟨Reached.start.play (playSafe_true ..), by decide, by decide, by decide, by decide, ?_⟩
  intro h
  have hcount : (play readerEnv erasedEof start).tp.lfct =
      ends (play readerEnv erasedEof start).tp.contents := h.count
  exact absurd hcount (by decide)

end LisaMinix.Kernel.Tty
