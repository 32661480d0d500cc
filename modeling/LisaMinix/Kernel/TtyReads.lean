import LisaMinix.Kernel.TtyRuns

/-!
# Requests to Read from the Terminal

The life of a `TTY_READ` request: it gets a status at once, and when that is `SUSPEND`, another one
later.

- `phase p`: where a process stands, after a history of requests and statuses.
- `FromFs`: what FS sees to.  It sends a request only for a process that it has not suspended and for
  at least one byte (`read_write`), and cancels only the read of a process that hangs (`do_unpause`,
  `rw_dev`).
- `ReadsAnswered`: the line is taken just as long as a process hangs on it.

`rd_chars` returns `E_BAD_ADDR` without clearing `tty_inleft`, so the request stays on the line after
it has been answered.
-/

namespace LisaMinix.Kernel.Tty

variable {env : Env} {s : State} {ch : UInt8}

/-! ## §1 Where a process stands -/

/-- The phases of a process that reads. -/
inductive Phase
  /-- it has no request -/
  | idle
  /-- its request has got no status yet -/
  | asking
  /-- its request has got `SUSPEND` -/
  | hanging
  /-- it has got a status too many, or has made a second request -/
  | broken
  deriving DecidableEq

/-- A request is made. -/
def Phase.issue : Phase → Phase
  | .idle => .asking
  | _ => .broken

/-- A status is given: `SUSPEND` is the first and not the last one. -/
def Phase.answer (code : ℤ) : Phase → Phase
  | .asking => if code = suspend then .hanging else .idle
  | .hanging => if code = suspend then .broken else .idle
  | _ => .broken

/-- The phase of process `p` after a history. -/
def phase (p : ℤ) : List ReadEvent → Phase
  | [] => .idle
  | .issued q :: l => if q = p then (phase p l).issue else phase p l
  | .status q code :: l => if q = p then (phase p l).answer code else phase p l

/-- Every request has been answered once and for all, or with `SUSPEND`; and `tty_inleft` is not 0
just when there is a process of the second kind, the one in `tty_inproc`. -/
structure ReadsAnswered (s : State) : Prop where
  answered : ∀ p, phase p s.reads = .idle ∨ phase p s.reads = .hanging
  hanging : ∀ p, phase p s.reads = .hanging ↔ 0 < s.tp.inleft ∧ s.tp.inproc = p
  inleft_nonneg : 0 ≤ s.tp.inleft

theorem phase_status_self (p code : ℤ) (l : List ReadEvent) :
    phase p (.status p code :: l) = (phase p l).answer code := if_pos rfl

theorem phase_status_of_ne {p q : ℤ} (h : q ≠ p) (code : ℤ) (l : List ReadEvent) :
    phase p (.status q code :: l) = phase p l := if_neg h

theorem phase_issued_of_ne {p q : ℤ} (h : q ≠ p) (l : List ReadEvent) :
    phase p (.issued q :: l) = phase p l := if_neg h

/-- A request that gets its first status at once. -/
theorem phase_issued_status (p code : ℤ) {l : List ReadEvent} (h : phase p l = .idle) :
    phase p (.status p code :: .issued p :: l) = if code = suspend then .hanging else .idle := by
  rw [phase_status_self, phase, if_pos rfl, h]
  rfl

namespace ReadsAnswered

variable {s s' : State}

theorem of_request (hs : ReadsAnswered s) (hreads : s'.reads = s.reads)
    (hleft : s'.tp.inleft = s.tp.inleft) (hproc : s'.tp.inproc = s.tp.inproc) : ReadsAnswered s' := by
  refine ⟨?_, ?_, ?_⟩
  · rw [hreads]
    exact hs.answered
  · rw [hreads, hleft, hproc]
    exact hs.hanging
  · rw [hleft]
    exact hs.inleft_nonneg

theorem of_input (hs : ReadsAnswered s) (h : s'.input = s.input) : ReadsAnswered s' := by
  simp only [State.input, Input.mk.injEq] at h
  obtain ⟨-, -, hproc, -, hleft, -, hreads⟩ := h
  exact hs.of_request hreads hleft hproc

/-- The process that hangs gets its last status, and the line is given up. -/
theorem finish (hs : ReadsAnswered s) (hleft : 0 < s.tp.inleft) (code : ℤ) (hcode : code ≠ suspend)
    (hreads : s'.reads = .status s.tp.inproc code :: s.reads) (hleft' : s'.tp.inleft = 0) :
    ReadsAnswered s' := by
  have hself : phase s.tp.inproc s'.reads = .idle := by
    have hhang : phase s.tp.inproc s.reads = .hanging := (hs.hanging _).mpr ⟨hleft, rfl⟩
    rw [hreads, phase_status_self, hhang, Phase.answer, if_neg hcode]
  have hother {p : ℤ} (hp : s.tp.inproc ≠ p) : phase p s'.reads = .idle := by
    rw [hreads, phase_status_of_ne hp]
    apply (hs.answered p).resolve_right
    intro hhang
    exact hp ((hs.hanging p).mp hhang).2
  have hidle (p : ℤ) : phase p s'.reads = .idle := by
    by_cases hp : s.tp.inproc = p
    · exact hp ▸ hself
    · exact hother hp
  refine ⟨fun p => .inl (hidle p), fun p => ?_, by rw [hleft']⟩
  rw [hidle, hleft']
  simp

/-- A request that is answered at once, and leaves the line as it is. -/
theorem refuse (hs : ReadsAnswered s) {p : ℤ} (code : ℤ) (hp : phase p s.reads = .idle)
    (hcode : code ≠ suspend) (hreads : s'.reads = .status p code :: .issued p :: s.reads)
    (hleft : s'.tp.inleft = s.tp.inleft) (hproc : 0 < s.tp.inleft → s'.tp.inproc = s.tp.inproc) :
    ReadsAnswered s' := by
  have hphase (q : ℤ) : phase q s'.reads = phase q s.reads := by
    rw [hreads]
    by_cases hq : p = q
    · subst hq
      rw [phase_issued_status p code hp, if_neg hcode, hp]
    · rw [phase_status_of_ne hq, phase_issued_of_ne hq]
  refine ⟨fun q => ?_, fun q => ?_, ?_⟩
  · rw [hphase]
    exact hs.answered q
  · rw [hphase, hs.hanging, hleft]
    constructor
    · exact fun h => ⟨h.1, (hproc h.1).trans h.2⟩
    · exact fun h => ⟨h.1, (hproc h.1).symm.trans h.2⟩
  · rw [hleft]
    exact hs.inleft_nonneg

/-- A request that is suspended takes the line. -/
theorem hang (hs : ReadsAnswered s) {p : ℤ} (hp : phase p s.reads = .idle)
    (hfree : s.tp.inleft = 0) (hreads : s'.reads = .status p suspend :: .issued p :: s.reads)
    (hleft : 0 < s'.tp.inleft) (hproc : s'.tp.inproc = p) : ReadsAnswered s' := by
  have hself : phase p s'.reads = .hanging := by
    rw [hreads, phase_issued_status p suspend hp, if_pos rfl]
  have hother {q : ℤ} (hq : p ≠ q) : phase q s'.reads = .idle := by
    rw [hreads, phase_status_of_ne hq, phase_issued_of_ne hq]
    apply (hs.answered q).resolve_right
    intro hhang
    have := ((hs.hanging q).mp hhang).1
    omega
  refine ⟨fun q => ?_, fun q => ?_, hleft.le⟩
  · by_cases hq : p = q
    · exact .inr (hq ▸ hself)
    · exact .inl (hother hq)
  · by_cases hq : p = q
    · subst hq
      simp [hself, hleft, hproc]
    · simp [hother hq, hproc, hq]

end ReadsAnswered

/-! ## §2 What is asked of a step -/

/-- What FS sees to when it sends a message. -/
def FromFs (s : State) : Event → Prop
  | .read _ procNr _ count => phase procNr s.reads = .idle ∧ 0 < count
  | .cancel _ procNr mode => mode &&& rBit ≠ 0 → phase procNr s.reads = .hanging
  | _ => True

/-- `charint` looks for a reader, and for what the reader wants. -/
def Line.Wakes (tp : Line) : Prop :=
  0 < tp.inleft ∧ (0 < tp.lfct ∨ (tp.inputMode ≠ 0 ∧ 0 < tp.incount))

/-- A keystroke after which `rd_chars` is called finds a character and a good address. -/
def GoodKey (env : Env) (s : State) (ch : UInt8) : Prop :=
  (inChar env s ch).tp.Wakes →
    (inChar env s ch).tp.incount ≠ 0 ∧ umap (env.map s.tp.inproc) 1 s.tp.inVir s.tp.inleft ≠ 0

/-- A request that finds input on a free line has a good address. -/
def GoodRead (env : Env) (s : State) : Event → Prop
  | .read _ procNr address count =>
    0 < s.tp.inleft ∨ s.tp.NoInput ∨ umap (env.map procNr) 1 address count ≠ 0
  | _ => True

/-- The events of a run in which no address error comes up. -/
def GoodEvent (env : Env) (s : State) (e : Event) : Prop :=
  FromFs s e ∧ GoodRead env s e ∧ OnKeys GoodKey env s e

instance (s : State) : ∀ e, Decidable (FromFs s e)
  | .read .. => inferInstanceAs (Decidable (_ ∧ _))
  | .cancel .. => inferInstanceAs (Decidable (_ → _))
  | .key _ | .hardInt | .write .. | .ioctl .. | .setpgrp .. | .other .. =>
    inferInstanceAs (Decidable True)

instance (tp : Line) : Decidable tp.Wakes := inferInstanceAs (Decidable (_ ∧ _))

instance (env : Env) (s : State) (ch : UInt8) : Decidable (GoodKey env s ch) :=
  inferInstanceAs (Decidable (_ → _))

instance (env : Env) (s : State) : ∀ e, Decidable (GoodRead env s e)
  | .read .. => inferInstanceAs (Decidable (_ ∨ _ ∨ _))
  | .key _ | .hardInt | .write .. | .ioctl .. | .setpgrp .. | .cancel .. | .other .. =>
    inferInstanceAs (Decidable True)

instance (env : Env) (s : State) (e : Event) : Decidable (GoodEvent env s e) :=
  inferInstanceAs (Decidable (_ ∧ _ ∧ _))

/-! ## §3 Every step -/

/-- What `charint` does for a character and a reader. -/
theorem charStep_of_wakes (h : (inChar env s ch).tp.Wakes) :
    charStep env s ch =
      readReply (rdChars env (inChar env s ch)).2 .revive
        (rdChars env (inChar env s ch)).2.tp.incaller (rdChars env (inChar env s ch)).2.tp.inproc
        (rdChars env (inChar env s ch)).1 := by
  unfold charStep
  exact if_pos h

theorem charStep_of_not_wakes (h : ¬(inChar env s ch).tp.Wakes) :
    charStep env s ch = inChar env s ch := by
  unfold charStep
  exact if_neg h

/-- The queue is tracked and every request has been answered. -/
structure Answering (s : State) : Prop where
  tracked : Tracked s
  reads : ReadsAnswered s

theorem answering_start : Answering start where
  tracked := tracked_start
  reads := ⟨fun _ => .inl rfl, fun p => by simp [start, phase, ttyInit], by decide⟩

theorem Tracked.step (hs : Tracked s) (e : Event) : Tracked (step env s e) :=
  kept_tracked.step (Q := fun _ _ _ => True) (fun _ _ _ _ _ => tracked_over) (onKeys_true _ _ e) hs

/-- What the reader is woken for can be taken. -/
theorem Answering.takes (hs : Answering s) (hgood : GoodKey env s ch)
    (hwakes : (inChar env s ch).tp.Wakes) :
    ∃ chars lfct copies, rdChars env (inChar env s ch) =
      (((deliverable (inChar env s ch).tp.cooked chars).length : ℤ),
        takeChars (inChar env s ch) chars lfct copies) := by
  obtain ⟨hleft, hproc, hvir, -, -⟩ := inChar_request env s ch
  obtain ⟨hcount, hphys⟩ := hgood hwakes
  have htracked : Tracked (inChar env s ch) :=
    kept_tracked.inChar (fun _ => tracked_over) hs.tracked
  have hinput : ¬(inChar env s ch).tp.NoInput := by
    rintro (hempty | ⟨hcooked, hlfct⟩)
    · exact hcount hempty
    · -- in cooked mode, a line has been counted
      have hmode : (inChar env s ch).tp.inputMode = 0 := by simpa [Line.cooked] using hcooked
      rcases hwakes.2 with hpos | ⟨hmode', -⟩
      · omega
      · exact hmode' hmode
  have haddr : (inChar env s ch).tp.userPhys env ≠ 0 := by
    rwa [Line.userPhys, hleft, hproc, hvir]
  obtain ⟨chars, lfct, copies, -, hrd⟩ := rdChars_of_input htracked.ring.tail_lt hinput haddr
  exact ⟨chars, lfct, copies, hrd⟩

/-- A keystroke answers the reader, or leaves it alone. -/
theorem Answering.charStep (hgood : GoodKey env s ch) (hs : Answering s) :
    Answering (charStep env s ch) := by
  refine ⟨kept_tracked.charStep (fun _ => tracked_over) hs.tracked, ?_⟩
  obtain ⟨hleft, hproc, -, hreads, -⟩ := inChar_request env s ch
  have hin : ReadsAnswered (inChar env s ch) := hs.reads.of_request hreads hleft hproc
  by_cases hwakes : (inChar env s ch).tp.Wakes
  · rw [charStep_of_wakes hwakes]
    obtain ⟨chars, lfct, copies, hrd⟩ := hs.takes hgood hwakes
    refine hin.finish hwakes.1 (deliverable (inChar env s ch).tp.cooked chars).length ?_ ?_ ?_
    · unfold suspend
      omega
    · rw [hrd]
      rfl
    · rw [hrd]
      rfl
  · rw [charStep_of_not_wakes hwakes]
    exact hin

/-- A keystroke after which there is something for the process that hangs. -/
def Answers (s : State) : Prop :=
  ∀ env ch, GoodKey env s ch → (inChar env s ch).tp.Wakes →
    phase s.tp.inproc s.reads = .hanging ∧ phase s.tp.inproc (charStep env s ch).reads = .idle ∧
      (charStep env s ch).tp.inleft = 0

/-- The process that hangs is answered when there is something for it. -/
theorem Answering.answers (hs : Answering s) : Answers s := by
  intro env ch hgood hwakes
  obtain ⟨hleft, -, -, -, -⟩ := inChar_request env s ch
  have hdone : (Tty.charStep env s ch).tp.inleft = 0 := by
    obtain ⟨chars, lfct, copies, hrd⟩ := hs.takes hgood hwakes
    rw [charStep_of_wakes hwakes, hrd]
    rfl
  have hafter := (hs.charStep hgood).reads
  refine ⟨(hs.reads.hanging _).mpr ⟨by rw [← hleft]; exact hwakes.1, rfl⟩, ?_, hdone⟩
  apply (hafter.answered _).resolve_right
  intro hhang
  have hpos := ((hafter.hanging _).mp hhang).1
  omega

/-- A request is answered at once. -/
theorem ReadsAnswered.doRead {source procNr address count : ℤ} (hs : Answering s)
    (hfs : phase procNr s.reads = .idle ∧ 0 < count)
    (hgood : 0 < s.tp.inleft ∨ s.tp.NoInput ∨ umap (env.map procNr) 1 address count ≠ 0) :
    ReadsAnswered (doRead env s source procNr address count) := by
  obtain ⟨hidle, hcount⟩ := hfs
  by_cases hleft : 0 < s.tp.inleft
  · -- another process hangs on the line
    have hread : Tty.doRead env s source procNr address count =
        readReply { s with reads := .issued procNr :: s.reads } .taskReply source procNr eio :=
      if_pos hleft
    rw [hread]
    exact hs.reads.refuse eio hidle (by decide) rfl rfl fun _ => rfl
  have hfree : s.tp.inleft = 0 := by
    have := hs.reads.inleft_nonneg
    omega
  set s₁ : State := { s with
    tp := s.tp.request source procNr address count
    reads := .issued procNr :: s.reads } with hs1
  have hread : Tty.doRead env s source procNr address count =
      readReply (rdChars env s₁).2 .taskReply source (rdChars env s₁).2.tp.inproc
        (rdChars env s₁).1 := if_neg hleft
  rw [hread]
  by_cases hinput : s₁.tp.NoInput
  · rw [rdChars_of_noInput hinput]
    exact hs.reads.hang hidle hfree rfl hcount rfl
  · have haddr : s₁.tp.userPhys env ≠ 0 := by
      rcases hgood with hpos | hno | haddr
      · exact absurd hpos hleft
      · exact absurd hno hinput
      · exact haddr
    have htail : s₁.tp.intail < ttyInBytes := hs.tracked.ring.tail_lt
    obtain ⟨chars, lfct, copies, -, hrd⟩ := rdChars_of_input htail hinput haddr
    rw [hrd]
    refine hs.reads.refuse (deliverable s₁.tp.cooked chars).length hidle ?_ rfl ?_ ?_
    · unfold suspend
      omega
    · exact hfree.symm
    · exact fun hpos => absurd hpos hleft

/-- A read that hangs is cancelled. -/
theorem ReadsAnswered.doCancel {source procNr : ℤ} {mode : ℕ} (hs : ReadsAnswered s)
    (hfs : mode &&& rBit ≠ 0 → phase procNr s.reads = .hanging) :
    ReadsAnswered (doCancel s source procNr mode) := by
  unfold Tty.doCancel
  by_cases hnone : s.tp.inleft = 0 ∧ s.tp.outleft = 0
  · rw [if_pos hnone]
    exact hs
  rw [if_neg hnone]
  by_cases hread : mode &&& rBit ≠ 0
  · obtain ⟨hleft, hproc⟩ := (hs.hanging procNr).mp (hfs hread)
    subst hproc
    refine hs.finish hleft eintr (by decide) ?_ ?_
    · simp only [hread, ne_eq, not_false_eq_true, if_true]
      split_ifs
      all_goals rfl
    · simp only [hread, ne_eq, not_false_eq_true, if_true]
      split_ifs
      all_goals rfl
  · simp only [hread, if_false]
    refine hs.of_request ?_ ?_ ?_
    all_goals
      split_ifs
      all_goals rfl

theorem Answering.step {e : Event} (hs : Answering s) (hgood : GoodEvent env s e) :
    Answering (step env s e) := by
  obtain ⟨hfs, hread, hkeys⟩ := hgood
  cases e with
  | key c =>
    refine ⟨hs.tracked.step _, hs.reads.of_request ?_ ?_ ?_⟩
    all_goals
      simp only [Tty.step, kbdput]
      split_ifs
      all_goals rfl
  | hardInt =>
    refine charInt_rule (P := Answering) (fun s c hc hs => hs.charStep hc) ?_ hkeys
    exact ⟨hs.tracked.of_queue rfl, hs.reads.of_request rfl rfl rfl⟩
  | read source procNr address count =>
    exact ⟨hs.tracked.step _, ReadsAnswered.doRead hs hfs hread⟩
  | write source procNr address count =>
    refine ⟨hs.tracked.step _, ?_⟩
    simp only [Tty.step, doWrite]
    split_ifs
    · exact hs.reads.of_request rfl rfl rfl
    · exact (hs.reads.of_request rfl rfl rfl).of_input (console_input _ _)
    · exact (hs.reads.of_request rfl rfl rfl).of_input (console_input _ _)
  | ioctl source procNr request spek flags =>
    refine ⟨hs.tracked.step _, hs.reads.of_request ?_ ?_ ?_⟩
    all_goals
      simp only [Tty.step, doIoctl]
      split_ifs
      all_goals rfl
  | setpgrp source procNr pgrp => exact ⟨hs.tracked.step _, hs.reads.of_request rfl rfl rfl⟩
  | cancel source procNr mode => exact ⟨hs.tracked.step _, hs.reads.doCancel hfs⟩
  | other source procNr => exact ⟨hs.tracked.step _, hs.reads.of_request rfl rfl rfl⟩

/-! ## §4 Every run -/

/-- **Reads are answered**: in every run in which `rd_chars` is called with a good address, and by
`charint` only with a character in the queue, every request gets one last status, a process that
hangs as soon as there is something for it, and the line is free when no process hangs on it. -/
theorem reads_answered {s : State} (h : Reached GoodEvent s) : ReadsAnswered s ∧ Answers s := by
  have hanswering : Answering s :=
    h.invariant answering_start fun _ _ _ hs hgood => hs.step hgood
  exact ⟨hanswering.reads, hanswering.answers⟩

/-- Process 5 reads before anything is typed; then the line is typed, and process 5 reads again. -/
def readAndType : List Event :=
  [.read 1 5 256 10, .key 97, .key carriageReturn, .hardInt, .read 1 5 256 10]

theorem reads_answered_readAndType :
    (ReadsAnswered (play readerEnv readAndType start) ∧ Answers (play readerEnv readAndType start)) ∧
      (play readerEnv readAndType start).reads =
        [.status 5 suspend, .issued 5, .status 5 2, .status 5 suspend, .issued 5] :=
  ⟨reads_answered (Reached.start.play (by decide)), by decide⟩

/-- A line is typed, and process 5 reads with an address outside its segments; then another line is
typed, and process 6 reads. -/
def badAddress : List Event :=
  [.key 97, .key carriageReturn, .hardInt, .read 1 5 100000 10, .key carriageReturn, .hardInt,
    .read 1 6 256 10]

/-- The request stays on the line: process 5 gets a second last status, and process 6 an error. -/
theorem bad_address_stays :
    Reached (fun _ s e => FromFs s e) (play readerEnv badAddress start) ∧
      (play readerEnv badAddress start).reads =
        [.status 6 eio, .issued 6, .status 5 eBadAddr, .status 5 eBadAddr, .issued 5] ∧
      (play readerEnv badAddress start).tp.inleft = 10 ∧
      ¬ReadsAnswered (play readerEnv badAddress start) := by
  refine ⟨Reached.start.play (by decide), by decide, by decide, fun h => ?_⟩
  have hphase : phase 5 (play readerEnv badAddress start).reads = .broken := by decide
  have := h.answered 5
  rw [hphase] at this
  simp at this

end LisaMinix.Kernel.Tty
