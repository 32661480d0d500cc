import LisaMinix.Kernel.TtyTransfer

/-!
# Runs of the Terminal Task

What a run of the terminal task keeps of its input queue.

- `Kept P`: the operations on the queue keep `P`.  Then one event keeps it (`Kept.step`), and so does
  a run (`Kept.reached`), as long as no keystroke overflows the queue, or an overflow keeps `P` too.
- `QueueHolds`: nothing is lost in the queue.  It holds in every run without an overflow.
-/

namespace LisaMinix.Kernel.Tty

open LisaMinix.Library (IsRing ringList_mod ringList_drop)

/-! ## §1 Properties of the queue that are kept -/

/-- The operations on the queue keep `P`. -/
structure Kept (P : State → Prop) : Prop where
  tracked {s : State} : P s → Tracked s
  same {s s' : State} : s'.queue = s.queue → P s → P s'
  chuck {s s' : State} : chuck s = some s' → P s → P s'
  discard {s : State} : P s → P (discard s)
  drop {s : State} : P s → P (dropEof s)
  enqueue {s : State} (c : UInt8) (b : Bool) : s.tp.incount < ttyInBytes → P s → P (enqueue s c b)
  take {s : State} {chars : List UInt8} {lfct : ℤ} {copies : List (ℤ × List UInt8)} :
    Took s chars lfct copies → P s → P (takeChars s chars lfct copies)

/-- `P` is kept by a character that is stored over the oldest one. -/
def KeptOver (P : State → Prop) : Prop :=
  ∀ s c b, s.tp.incount = ttyInBytes → P s → P (enqueue s c b)

/-- A condition on the keystrokes that an event finds. -/
def OnKeys (Q : Env → State → UInt8 → Prop) (env : Env) (s : State) : Event → Prop
  | .hardInt => AllKeys Q env { s with driver := [] } s.driver
  | _ => True

instance (Q : Env → State → UInt8 → Prop) [∀ env s c, Decidable (Q env s c)] (env : Env)
    (s : State) : ∀ e, Decidable (OnKeys Q env s e)
  | .hardInt => instDecidableAllKeys Q env _ _
  | .key _ | .read .. | .write .. | .ioctl .. | .setpgrp .. | .cancel .. | .other .. =>
    inferInstanceAs (Decidable True)

variable {s : State} {env : Env}

theorem allKeys_true (s : State) (l : List UInt8) : AllKeys (fun _ _ _ => True) env s l := by
  induction l generalizing s with
  | nil => trivial
  | cons c l ih => exact ⟨trivial, ih _⟩

theorem onKeys_true (env : Env) (s : State) (e : Event) : OnKeys (fun _ _ _ => True) env s e := by
  cases e with
  | hardInt => exact allKeys_true _ _
  | _ => trivial

/-- A property that every keystroke keeps is kept by `charint`. -/
theorem charInt_rule {P : State → Prop} {Q : Env → State → UInt8 → Prop}
    (hkey : ∀ s c, Q env s c → P s → P (charStep env s c)) (hs : P { s with driver := [] })
    (hQ : AllKeys Q env { s with driver := [] } s.driver) : P (charInt env s) := by
  unfold charInt
  generalize { s with driver := [] } = s' at hs hQ
  generalize s.driver = l at hQ
  induction l generalizing s' with
  | nil => exact hs
  | cons c l ih => exact ih _ (hkey s' c hQ.1 hs) hQ.2

namespace Kept

variable {P : State → Prop} {Q : Env → State → UInt8 → Prop} {env : Env} {s : State}

theorem inChar (hP : Kept P) {ch : UInt8} (hover : s.tp.Overflows ch → KeptOver P) (hs : P s) :
    P (inChar env s ch) :=
  inChar_rule (fun _ _ h => hP.same (queue_of_input h)) (fun _ _ => hP.chuck) (fun _ => hP.discard)
    (fun _ => hP.drop) (fun _ => hP.enqueue) hover hs

theorem rdChars (hP : Kept P) (hs : P s) : P (rdChars env s).2 := by
  by_cases hinput : s.tp.NoInput
  · rw [rdChars_of_noInput hinput]
    exact hs
  by_cases hphys : s.tp.userPhys env = 0
  · rw [rdChars_of_badAddr hinput hphys]
    exact hs
  · obtain ⟨chars, lfct, copies, htook, hrd⟩ :=
      rdChars_of_input (hP.tracked hs).ring.tail_lt hinput hphys
    rw [hrd]
    exact hP.take htook hs

theorem charStep (hP : Kept P) {ch : UInt8} (hover : s.tp.Overflows ch → KeptOver P) (hs : P s) :
    P (charStep env s ch) := by
  have hin : P (Tty.inChar env s ch) := hP.inChar hover hs
  unfold Tty.charStep
  extract_lets s'
  split
  · exact hP.same (s := (Tty.rdChars env s').2) rfl (hP.rdChars hin)
  · exact hin

/-- One event keeps `P`. -/
theorem step (hP : Kept P) (hover : ∀ env s c, Q env s c → s.tp.Overflows c → KeptOver P) {e : Event}
    (hQ : OnKeys Q env s e) (hs : P s) : P (step env s e) := by
  cases e with
  | key c =>
    refine hP.same ?_ hs
    simp only [Tty.step, kbdput]
    split_ifs
    all_goals rfl
  | hardInt =>
    exact charInt_rule (Q := Q) (fun s c hQ hs => hP.charStep (hover env s c hQ) hs)
      (hP.same (s := s) rfl hs) hQ
  | read source procNr address count =>
    simp only [Tty.step, doRead]
    split_ifs
    · exact hP.same (s := s) rfl hs
    · exact hP.same (s := (Tty.rdChars env _).2) rfl (hP.rdChars (hP.same (s := s) rfl hs))
  | write source procNr address count =>
    simp only [Tty.step, doWrite]
    split_ifs
    · exact hP.same (s := s) rfl hs
    · exact hP.same (queue_of_input (console_input _ _)) (hP.same (s := s) rfl hs)
    · exact hP.same (queue_of_input (console_input _ _)) (hP.same (s := s) rfl hs)
  | ioctl source procNr request spek flags =>
    refine hP.same ?_ hs
    simp only [Tty.step, doIoctl]
    split_ifs
    all_goals rfl
  | setpgrp source procNr pgrp => exact hP.same (s := s) rfl hs
  | cancel source procNr mode =>
    simp only [Tty.step, doCancel]
    split_ifs
    all_goals first
      | exact hs
      | exact hP.same (s := Tty.discard s) rfl (hP.discard hs)
      | exact hP.same (s := s) rfl hs
  | other source procNr => exact hP.same (s := s) rfl hs

/-- A run keeps `P`. -/
theorem reached (hP : Kept P) (hover : ∀ env s c, Q env s c → s.tp.Overflows c → KeptOver P)
    (hstart : P start) (h : Reached (OnKeys Q) s) : P s :=
  h.invariant hstart fun _ _ _ hs hQ => hP.step hover hQ hs

end Kept

/-! ## §2 The queue is tracked in every run -/

theorem contents_takeChars {chars : List UInt8} {lfct : ℤ} {copies : List (ℤ × List UInt8)} :
    (takeChars s chars lfct copies).tp.contents = s.tp.contents.drop chars.length := by
  simp only [Line.contents, takeChars, State.note, ringList_mod, ringList_drop]

theorem Tracked.take {chars : List UInt8} {lfct : ℤ} {copies : List (ℤ × List UInt8)}
    (htook : Took s chars lfct copies) (hs : Tracked s) : Tracked (takeChars s chars lfct copies) := by
  have hlen : chars.length ≤ s.tp.incount := by
    simpa using htook.isPrefix.length_le
  refine ⟨hs.ring.pop hlen, ?_, ?_, ?_⟩
  · have := hs.count_le
    change s.tp.incount - chars.length ≤ _
    omega
  · change (replay s.log).bind _ = _
    rw [hs.replayed, Option.bind_some, contents_takeChars]
    exact if_pos ⟨htook.isPrefix, rfl⟩
  · change Tty.copied copies = delivered s.log ++ deliverable s.tp.cooked chars
    rw [htook.copied, hs.copied]

theorem kept_tracked : Kept Tracked where
  tracked := id
  same h hs := hs.of_queue h
  chuck h hs := hs.chuck h
  discard hs := hs.discard
  drop hs := hs.dropEof
  enqueue c b hroom hs := hs.enqueue (by omega) c b
  take := Tracked.take

theorem tracked_over : KeptOver Tracked := fun _ c b hfull hs => hs.enqueue hfull.le c b

/-! ## §3 Nothing is lost -/

/-- The pointers agree, and the characters that the reads have given are those that were stored, in
order, without the ones that were erased or discarded.  What is stored, erased or discarded for a
keystroke is `keyEvents`. -/
structure QueueHolds (s : State) : Prop where
  count_le : s.tp.incount ≤ ttyInBytes
  head_lt : s.tp.inhead < ttyInBytes
  tail_lt : s.tp.intail < ttyInBytes
  head_eq : s.tp.inhead = (s.tp.intail + s.tp.incount) % ttyInBytes
  replayed : replay s.log = some s.tp.contents
  copied : Tty.copied s.copies = delivered s.log
  none_overwritten : ∀ old c b, .overran old c b ∉ s.log
  typed : ∀ env ch, (inChar env s ch).log = s.tp.keyEvents ch ++ s.log

/-- `QueueHolds` in terms of what every run keeps. -/
theorem queueHolds_iff : QueueHolds s ↔
      Tracked s ∧ s.tp.incount ≤ ttyInBytes ∧ ∀ old c b, .overran old c b ∉ s.log := by
  constructor
  · intro h
    exact ⟨⟨⟨h.tail_lt, h.head_eq⟩, by have := h.count_le; omega, h.replayed, h.copied⟩,
      h.count_le, h.none_overwritten⟩
  · rintro ⟨h, hcount, hover⟩
    exact ⟨hcount, h.ring.head_lt, h.ring.tail_lt, h.ring.head_eq, h.replayed, h.copied, hover,
      fun env => inChar_log env h⟩

theorem none_overwritten_cons {e : QueueEvent} {log : List QueueEvent}
    (he : ∀ old c b, e ≠ .overran old c b) (h : ∀ old c b, .overran old c b ∉ log) (old c : UInt8)
    (b : Bool) : .overran old c b ∉ e :: log := by
  intro hmem
  rcases List.mem_cons.mp hmem with hmem | hmem
  · exact he old c b hmem.symm
  · exact h old c b hmem

theorem kept_queueHolds : Kept QueueHolds where
  tracked h := (queueHolds_iff.mp h).1
  same h hs := by
    obtain ⟨htracked, hcount, hover⟩ := queueHolds_iff.mp hs
    have htracked' := htracked.of_queue h
    simp only [State.queue, Queue.mk.injEq] at h
    obtain ⟨-, -, -, hcount', -, hlog, -⟩ := h
    rw [← hcount'] at hcount
    rw [← hlog] at hover
    exact queueHolds_iff.mpr ⟨htracked', hcount, hover⟩
  chuck h hs := by
    obtain ⟨htracked, hcount, hover⟩ := queueHolds_iff.mp hs
    have htracked' := htracked.chuck h
    obtain ⟨-, -, rfl⟩ := chuck_eq_some h
    exact queueHolds_iff.mpr ⟨htracked', (Nat.sub_le ..).trans hcount,
      none_overwritten_cons (by simp) hover⟩
  discard hs := by
    obtain ⟨htracked, hcount, hover⟩ := queueHolds_iff.mp hs
    exact queueHolds_iff.mpr ⟨htracked.discard, Nat.zero_le _,
      none_overwritten_cons (by simp) hover⟩
  drop hs := by
    obtain ⟨htracked, hcount, hover⟩ := queueHolds_iff.mp hs
    exact queueHolds_iff.mpr ⟨htracked.dropEof, hcount, none_overwritten_cons (by simp) hover⟩
  enqueue {s} c b hroom hs := by
    obtain ⟨htracked, hcount, hover⟩ := queueHolds_iff.mp hs
    refine queueHolds_iff.mpr ⟨htracked.enqueue hcount c b, ?_, ?_⟩
    · simpa [enqueue, store, State.modTp, State.note, Line.put] using hroom
    · -- with room, the character is stored and overruns nothing
      have hlog : (enqueue s c b).log = .stored c b :: s.log := by
        simp [enqueue, store, State.note, State.modTp, hroom]
      rw [hlog]
      exact none_overwritten_cons (by simp) hover
  take htook hs := by
    obtain ⟨htracked, hcount, hover⟩ := queueHolds_iff.mp hs
    exact queueHolds_iff.mpr ⟨htracked.take htook, (Nat.sub_le ..).trans hcount,
      none_overwritten_cons (by simp) hover⟩

/-- **The input queue**: in every run in which no keystroke stores a backslash and a second character
into the last free place, the pointers agree with the count, and the reads give the characters that
were stored and not erased, in order, none of them overwritten. -/
theorem input_queue_holds {s : State} (h : Reached (OnKeys fun _ s c => ¬s.tp.Overflows c) s) :
    QueueHolds s :=
  kept_queueHolds.reached (fun _ _ _ hsafe hover => absurd hover hsafe)
    (queueHolds_iff.mpr ⟨tracked_start, by decide, fun _ _ _ => List.not_mem_nil⟩) h

/-- A reader, process 5, with its data segment at virtual address 0. -/
def readerEnv : Env where
  map _ := ⟨⟨0, 400, 0⟩, ⟨0, 400, 16⟩, ⟨16, 416, 4⟩⟩
  mem _ := 0

/-- Someone types "ab", erases the `b`, types "c" and a carriage return; then process 5 reads. -/
def typedLine : List Event :=
  [.key 97, .key 98, .key backspace, .key 99, .key carriageReturn, .hardInt, .read 1 5 256 10]

theorem input_queue_typedLine :
    QueueHolds (play readerEnv typedLine start) ∧
      delivered (play readerEnv typedLine start).log = [97, 99, newline] :=
  ⟨input_queue_holds (Reached.start.play (by decide)), by decide⟩

/-! ## §4 The overflow -/

section Typing

variable {env : Env} {s : State} {c : UInt8}

/-- A character that needs no treatment. -/
structure Line.Plain (tp : Line) (c : UInt8) : Prop where
  seven : c &&& 0x7F = c
  erase : c ≠ tp.erase
  kill : c ≠ tp.kill
  back : c ≠ backslash
  eof : c ≠ tp.eof
  stores : tp.Stores c
  mapCr : tp.mapCr c = c

theorem specialChar_of_stores (env : Env) (hstores : s.tp.Stores c) (hcr : s.tp.mapCr c = c) :
    specialChar env s c false = storeChar s c false := by
  obtain ⟨hintr, hquit, hxoff, hrun⟩ := hstores
  rw [hcr] at hintr hquit hxoff
  simp only [specialChar_eq, hcr, hintr, hquit, hxoff, hrun, or_self, Bool.false_eq_true, if_false]

/-- A character that needs no treatment is stored. -/
theorem inChar_plain (hroom : s.tp.incount < ttyInBytes) (hmode : s.tp.inputMode = 0)
    (hesc : s.tp.escaped = false) (hc : s.tp.Plain c) : inChar env s c = storeChar s c false := by
  rw [← specialChar_of_stores env hc.stores hc.mapCr]
  simp only [inChar, hmode, if_neg (Nat.not_le.mpr hroom), if_true, hc.seven, cookedChar, hc.erase,
    hc.kill, hc.back, hc.eof, hesc, false_and, if_false, show (0 : ℕ) ≠ raw by decide, ne_eq,
    not_false_eq_true]

/-- A backslash is kept back. -/
theorem inChar_backslash (hroom : s.tp.incount < ttyInBytes) (hmode : s.tp.inputMode = 0)
    (hesc : s.tp.escaped = false) (herase : backslash ≠ s.tp.erase) (hkill : backslash ≠ s.tp.kill) :
    inChar env s backslash = echo (s.modTp fun tp => { tp with escaped := true }) backslash := by
  simp only [inChar, hmode, if_neg (Nat.not_le.mpr hroom), if_true, cookedChar, herase, hkill, hesc,
    false_and, if_false, show (0 : ℕ) ≠ raw by decide, ne_eq, not_false_eq_true,
    show backslash &&& 0x7F = backslash by decide]

/-- A backslash that escapes nothing is stored, and then the character. -/
theorem inChar_escaped (hroom : s.tp.incount < ttyInBytes) (hmode : s.tp.inputMode = 0)
    (hesc : s.tp.escaped = true) (hc : s.tp.Plain c) :
    inChar env s c =
      storeChar (store (s.modTp fun tp => { tp with escaped := false }) backslash false) c false := by
  rw [← specialChar_of_stores env (c := c)
    (s := store (s.modTp fun tp => { tp with escaped := false }) backslash false) hc.stores hc.mapCr]
  simp only [inChar, hmode, if_neg (Nat.not_le.mpr hroom), if_true, hc.seven, cookedChar, hesc,
    Bool.true_eq_false, if_false, show (0 : ℕ) ≠ raw by decide, ne_eq, not_false_eq_true,
    State.modTp, hc.erase, hc.kill, hc.eof, and_self]

end Typing

/-- What the terminal is like after `n` characters have been typed that need no treatment. -/
structure TypedAhead (n : ℕ) (s : State) : Prop where
  tp : s.tp = { ttyInit with inqueue := s.tp.inqueue, inhead := s.tp.inhead, incount := n }
  driver : s.driver = []

theorem plain_ttyInit (c : UInt8) (hc : c = 97 ∨ c = 98) : ttyInit.Plain c := by
  rcases hc with rfl | rfl
  all_goals exact ⟨by decide, by decide, by decide, by decide, by decide, by decide, by decide⟩

theorem Line.Plain.of_ttyInit {c : UInt8} (h : ttyInit.Plain c) (q : ℕ → UInt8) (i n : ℕ) (b : Bool) :
    Line.Plain { ttyInit with inqueue := q, inhead := i, incount := n, escaped := b } c :=
  ⟨h.seven, h.erase, h.kill, h.back, h.eof, h.stores, h.mapCr⟩

/-- Without a reader, `charint` queues the characters and no more. -/
theorem charStep_of_inleft {c : UInt8}
    (h : (inChar env s c).tp.inleft = 0) : charStep env s c = inChar env s c := by
  unfold charStep
  exact if_neg (by simp [h])

theorem TypedAhead.key {n : ℕ} (h : TypedAhead n s) (hn : n < ttyInBytes) :
    TypedAhead (n + 1) (play env [.key 97, .hardInt] s) := by
  obtain ⟨tp, driver, sent, shown, signals, copies, log, reads⟩ := s
  obtain ⟨htp, hdriver⟩ := h
  simp only at htp hdriver
  subst hdriver
  rw [htp]
  set s : State := ⟨{ ttyInit with inqueue := tp.inqueue, inhead := tp.inhead, incount := n }, [],
    sent, shown, signals, copies, log, reads⟩ with hs
  have hin : inChar env s 97 = storeChar s 97 false :=
    inChar_plain hn (by decide : ttyInit.inputMode = 0) rfl
      ((plain_ttyInit 97 (.inl rfl)).of_ttyInit _ _ _ false)
  have hplay : play env [.key 97, .hardInt] s = echo (store s 97 false) 97 := by
    change charStep env s 97 = _
    rw [charStep_of_inleft (by rw [hin, storeChar, echo_tp]; rfl), hin]
    rfl
  rw [hplay]
  exact ⟨by rw [echo_tp]; rfl, congrArg Input.driver (echo_input (store s 97 false) 97)⟩

theorem play_append (env : Env) (es es' : List Event) (s : State) :
    play env (es ++ es') s = play env es' (play env es s) := by
  induction es generalizing s with
  | nil => rfl
  | cons e es ih => exact ih _

/-- The character `a` is typed `n` times. -/
def typeAhead (n : ℕ) : List Event := (List.replicate n [Event.key 97, .hardInt]).flatten

theorem typedAhead_typeAhead (env : Env) {n : ℕ} (hn : n ≤ ttyInBytes) :
    TypedAhead n (play env (typeAhead n) start) := by
  induction n with
  | zero => exact ⟨rfl, rfl⟩
  | succ n ih =>
    rw [typeAhead, List.replicate_succ', List.flatten_append, play_append]
    exact (ih (by omega)).key (by omega)

/-- A backslash and a letter that it does not escape, in the last free place of the queue. -/
theorem TypedAhead.overflow (env : Env) (h : TypedAhead 999 s) :
    (play env [.key backslash, .key 98, .hardInt] s).tp.incount = ttyInBytes + 1 ∧
      ∃ old, .overran old 98 false ∈ (play env [.key backslash, .key 98, .hardInt] s).log := by
  obtain ⟨tp, driver, sent, shown, signals, copies, log, reads⟩ := s
  obtain ⟨htp, hdriver⟩ := h
  simp only at htp hdriver
  subst hdriver
  rw [htp]
  set s : State := ⟨{ ttyInit with inqueue := tp.inqueue, inhead := tp.inhead, incount := 999 }, [],
    sent, shown, signals, copies, log, reads⟩ with hs
  set s₁ := echo (s.modTp fun tp => { tp with escaped := true }) backslash with hs1
  have hback : charStep env s backslash = s₁ := by
    have hin : inChar env s backslash = s₁ :=
      inChar_backslash (by decide : 999 < ttyInBytes) (by decide : ttyInit.inputMode = 0) rfl
        (by decide : backslash ≠ ttyInit.erase) (by decide : backslash ≠ ttyInit.kill)
    rw [charStep_of_inleft (by rw [hin, hs1, echo_tp]; rfl), hin]
  have htp1 : s₁.tp = { s.tp with escaped := true } := echo_tp _ _
  set s₂ := store (s₁.modTp fun tp => { tp with escaped := false }) backslash false with hs2
  have hstore : storeChar s₂ 98 false = echo (store s₂ 98 false) 98 := rfl
  have htwo : charStep env s₁ 98 = storeChar s₂ 98 false := by
    have hin : inChar env s₁ 98 = storeChar s₂ 98 false := by
      apply inChar_escaped
      · rw [htp1]
        exact (by decide : 999 < ttyInBytes)
      · rw [htp1]
        exact (by decide : ttyInit.inputMode = 0)
      · rw [htp1]
      · rw [htp1]
        exact (plain_ttyInit 98 (.inr rfl)).of_ttyInit _ _ _ true
    rw [charStep_of_inleft, hin]
    rw [hin, hstore, echo_tp]
    simp [hs2, store, State.modTp, State.note, Line.put, htp1, hs, ttyInit]
  have hplay : play env [.key backslash, .key 98, .hardInt] s = storeChar s₂ 98 false := by
    change charStep env (charStep env s backslash) 98 = _
    rw [hback, htwo]
  have hcount : s₂.tp.incount = 1000 := by
    simp [hs2, store, State.modTp, State.note, Line.put, htp1, hs]
  rw [hplay, hstore]
  constructor
  · rw [echo_tp]
    simp [store, State.modTp, State.note, Line.put, hcount, ttyInBytes]
  · refine ⟨s₂.tp.inqueue s₂.tp.inhead, ?_⟩
    have hlog := congrArg (Queue.log ∘ Input.queue) (echo_input (store s₂ 98 false) 98)
    rw [show (echo (store s₂ 98 false) 98).log = (store s₂ 98 false).log from hlog]
    simp [store, State.note, State.modTp, hcount, ttyInBytes]

/-- With 999 characters typed ahead, a backslash and a letter make 1001, and the oldest character is
overwritten. -/
theorem input_queue_overflows :
    Reached (fun _ _ _ => True)
        (play readerEnv (typeAhead 999 ++ [.key backslash, .key 98, .hardInt]) start) ∧
      (play readerEnv (typeAhead 999 ++ [.key backslash, .key 98, .hardInt]) start).tp.incount =
        ttyInBytes + 1 ∧
      (∃ old, .overran old 98 false ∈
        (play readerEnv (typeAhead 999 ++ [.key backslash, .key 98, .hardInt]) start).log) ∧
      ¬QueueHolds (play readerEnv (typeAhead 999 ++ [.key backslash, .key 98, .hardInt]) start) := by
  have hahead := typedAhead_typeAhead readerEnv (n := 999) (by decide)
  refine ⟨Reached.start.play (playSafe_true ..), ?_⟩
  rw [play_append]
  obtain ⟨hcount, hlog⟩ := hahead.overflow readerEnv
  refine ⟨hcount, hlog, fun h => ?_⟩
  have := h.count_le
  omega

end LisaMinix.Kernel.Tty
