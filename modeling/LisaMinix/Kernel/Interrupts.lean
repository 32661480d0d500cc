import LisaMinix.Kernel.IpcRuns

/-!
# Interrupts Are Not Lost

An interrupt for a task is on record in one of three forms: the task is on the held queue, or
`p_int_blocked` is set, or a message is in the buffer of the task and the task is ready.  The
module shows that `interrupt` makes one record, that every event of the kernel keeps a record or
turns it into the next form, and that a task with an interrupt on record gets it from its next
`receive` that admits HARDWARE.

Interrupts are enabled in the middle of a round of `unhold`, after the task has been taken from
the held queue.  Those that come in are nested and go to the held queue; `unholdWith` is the
round with such interrupts.
-/

namespace LisaMinix.Kernel

open LisaMinix.Library Function
open LisaMinix.Mm (MemMaps)

/-! ## §1 A round of `unhold` that is interrupted -/

namespace KState

variable {k k' : KState} {rp p : ProcPtr} {nested : List ProcPtr}

/-- One round of `unhold`, during which there are interrupts for the tasks `nested`. -/
def unholdWith (k : KState) (nested : List ProcPtr) : Except Fault KState :=
  match k.held.head with
  | none => .ok k
  | some rp =>
    nested.foldlM hold (k.released rp).held >>= fun h =>
    { k.released rp with held := h }.interruptNow rp

theorem hold_intHeld {h h' : Held} (hh : hold h rp = .ok h') (x : ProcPtr) :
    h'.intHeld x = (decide (x = rp) || h.intHeld x) := by
  unfold hold at hh
  split at hh
  · rename_i hheld
    cases hh
    by_cases hx : x = rp
    · simp [hx, hheld]
    · simp [hx]
  · split at hh
    · cases hh
      by_cases hx : x = rp <;> simp [hx]
    · split at hh
      · cases hh
      · cases hh
        by_cases hx : x = rp <;> simp [hx]

/-- Any number of interrupts are held up. -/
theorem holds_spec {h : Held} {l : List ProcPtr} (hrep : h.Rep l) (nested : List ProcPtr) :
    ∃ h' l', nested.foldlM hold h = .ok h' ∧ h'.Rep l' ∧ (∀ q ∈ l', q ∈ l ∨ q ∈ nested) ∧
      ∀ x, h'.intHeld x = (decide (x ∈ nested) || h.intHeld x) := by
  induction nested generalizing h l with
  | nil => exact ⟨h, l, rfl, hrep, fun q hq => .inl hq, by simp⟩
  | cons a nested ih =>
    obtain ⟨h1, l₁, hh1, hrep1, hsub1⟩ := hrep.hold a
    obtain ⟨h', l', hh', hrep', hsub, hint⟩ := ih hrep1
    refine ⟨h', l', by rw [List.foldlM_cons, hh1]; exact hh', hrep', fun q hq => ?_, fun x => ?_⟩
    · rcases hsub q hq with hq | hq
      · rcases hsub1 q hq with hq | rfl
        · exact .inl hq
        · exact .inr (List.mem_cons_self ..)
      · exact .inr (List.mem_cons_of_mem _ hq)
    · rw [hint, hold_intHeld hh1]
      by_cases hx : x = a <;> simp [hx]

/-- What an interrupted round of `unhold` does. -/
theorem unholdWith_spec (h : Inv k) (hhead : k.held.head = some rp)
    (hn : ∀ x ∈ nested, IsDriver x) :
    ∃ h' k', k.unholdWith nested = .ok k' ∧ Inv k' ∧
      Inv { k.released rp with held := h' } ∧ IsDriver rp ∧
      Interrupted { k.released rp with held := h' } rp k' ∧
      ∀ x, h'.intHeld x = (decide (x ∈ nested) || (k.released rp).held.intHeld x) := by
  obtain ⟨hinv, hdriver⟩ := released_inv h hhead
  obtain ⟨l, hl, hdrivers⟩ := hinv.rest.held
  obtain ⟨h', l', hh', hrep, hsub, hint⟩ := holds_spec hl nested
  have hinv' : Inv { k.released rp with held := h' } := by
    refine ⟨hinv.rdy, ⟨hinv.rest.callers, hinv.rest.sending, hinv.rest.live, hinv.rest.crossed,
      ⟨l', hrep, fun q hq => ?_⟩, hinv.rest.slots⟩, hinv.hardware⟩
    rcases hsub q hq with hq | hq
    · exact hdrivers q hq
    · exact hn q hq
  obtain ⟨k', hk', hinv'', hnow⟩ := interruptNow_spec hinv' hdriver
  refine ⟨h', k', ?_, hinv'', hinv', hdriver, hnow, hint⟩
  unfold unholdWith
  simp only [hhead, hh', ok_bind, hk']

/-- `interrupt` that is not held up does not look at the held queue. -/
theorem interruptNow_held (k : KState) (h : Held) (rp : ProcPtr) :
    ({ k with held := h } : KState).interruptNow rp =
      (k.interruptNow rp).map fun k' => { k' with held := h } := by
  unfold interruptNow
  dsimp only
  split
  · cases happ : append k.rdy .taskQ rp with
    | error e => rfl
    | ok r => rfl
  · rfl

theorem foldlM_async (k : KState) (nested : List ProcPtr) :
    nested.foldlM (fun k x => k.async x true) k =
      (nested.foldlM hold k.held).map fun h => { k with held := h } := by
  induction nested generalizing k with
  | nil => rfl
  | cons x nested ih =>
    rw [List.foldlM_cons, List.foldlM_cons]
    cases hh : hold k.held x with
    | error e =>
      simp [async, interrupt, hh, bind, Except.bind, Except.map]
    | ok h =>
      have hrun : k.async x true = .ok { k with held := h } := by simp [async, interrupt, hh]
      rw [hrun, ok_bind, ok_bind, ih]

/-- A round that is interrupted does what a round does and then the interrupts do. -/
theorem unholdWith_eq (hrun : k.unholdWith nested = .ok k') (hhead : k.held.head ≠ none) :
    ∃ k₁, k.unhold = .ok k₁ ∧ nested.foldlM (fun k x => k.async x true) k₁ = .ok k' := by
  unfold unholdWith at hrun
  unfold unhold
  cases hrp : k.held.head with
  | none => exact absurd hrp hhead
  | some rp =>
    simp only [hrp] at hrun
    cases hh : nested.foldlM hold (k.released rp).held with
    | error e =>
      rw [hh] at hrun
      cases hrun
    | ok h =>
      rw [hh, ok_bind, interruptNow_held] at hrun
      cases hnow : (k.released rp).interruptNow rp with
      | error e =>
        rw [hnow] at hrun
        cases hrun
      | ok k₁ =>
        rw [hnow, map_ok] at hrun
        have hsame : k₁.held = (k.released rp).held := by
          have heq := interruptNow_held (k.released rp) (k.released rp).held rp
          rw [hnow, map_ok] at heq
          rw [Except.ok.inj heq]
        refine ⟨k₁, hnow, ?_⟩
        rw [foldlM_async, hsame, hh, map_ok]
        exact hrun

end KState

/-! ## §2 The three forms of a record -/

/-- The task is waiting for an interrupt. -/
def Awaits (k : KState) (p : ProcPtr) : Prop :=
  (k.pFlags p).receiving = true ∧ ¬ (k.pFlags p).sending = true ∧ isrxhardware (k.pGetfrom p)

/-- The message of an interrupt is in the buffer `b` of the task, which is ready. -/
structure Notified (k : KState) (p : ProcPtr) (b : ℤ) : Prop where
  source : (k.memory (cell p b)).mSource = hardwareNr
  type : (k.memory (cell p b)).mType = hardInt
  ready : k.pFlags p = Flags.zero ∧ ∃ l, IsQueue k.rdy.nextready (k.rdy.head .taskQ)
    (k.rdy.tail .taskQ) l ∧ p ∈ l

/-- The interrupt is on record in one form, which depends on the state before, and nothing else
that is on record has changed. -/
structure Recorded (k : KState) (rp : ProcPtr) (busy : Bool) (k' : KState) : Prop where
  held : busy = true → k'.held.intHeld rp = true ∧ HeldOk k' ∧ k'.pIntBlocked = k.pIntBlocked ∧
    k'.memory = k.memory ∧ k'.pFlags = k.pFlags
  blocked : busy = false → ¬ Awaits k rp → k'.pIntBlocked rp = true ∧ k'.held = k.held ∧
    k'.memory = k.memory ∧ k'.pFlags = k.pFlags
  message : busy = false → Awaits k rp → Notified k' rp (k.pMessbuf rp) ∧ k'.held = k.held ∧
    k'.pIntBlocked rp = false

/-- The buffer that the task receives into: it is blocked, or it receives in the event `e`. -/
def ReceivesInto (k : KState) (e : Event) (p : ProcPtr) (b : ℤ) : Prop :=
  (Awaits k p ∧ b = k.pMessbuf p) ∨ (k.rdy.procPtr = p ∧ ∃ f src, e = .sysCall f src b)

/-- A record is kept by the event `e`, or is turned into the next form. -/
structure Passed (k : KState) (e : Event) (k' : KState) (p : ProcPtr) : Prop where
  held : k.held.intHeld p = true → k'.held.intHeld p = true ∨ k'.pIntBlocked p = true ∨
    ∃ b, ReceivesInto k e p b ∧ Notified k' p b
  blocked : k.pIntBlocked p = true → k'.pIntBlocked p = true ∨
    ∃ b, ReceivesInto k e p b ∧ Notified k' p b

namespace KState

variable {k k₁ k' : KState} {rp p : ProcPtr} {e : Event}

/-- A task with no flag set is on its ready queue. -/
theorem ready_of_zero (h : Inv k) (hp : IsDriver p) (hzero : k.pFlags p = Flags.zero) :
    k.pFlags p = Flags.zero ∧ ∃ l, IsQueue k.rdy.nextready (k.rdy.head .taskQ)
      (k.rdy.tail .taskQ) l ∧ p ∈ l := by
  obtain ⟨l, hl⟩ := h.rdy.lists
  refine ⟨hzero, l .taskQ, hl.queue .taskQ, ?_⟩
  rw [hl.mem]
  exact ⟨⟨hzero, not_pseudo_driver hp⟩, queueOf_driver hp⟩

/-- What `interrupt` leaves when it is not held up, whoever is picked to run then. -/
theorem Interrupted.outcome (h : Inv k) (hrp : IsDriver rp) (hnow : Interrupted k rp k₁)
    {r : Ready} (hinv : Inv { k₁ with rdy := r }) :
    k₁.held = k.held ∧ (∀ x, x ≠ rp → k₁.pIntBlocked x = k.pIntBlocked x) ∧
      (Awaits k rp → Notified { k₁ with rdy := r } rp (k.pMessbuf rp) ∧
        k₁.pIntBlocked rp = false) ∧
      (¬ Awaits k rp → k₁.pIntBlocked rp = true ∧ k₁.memory = k.memory ∧
        k₁.pFlags = k.pFlags) := by
  cases hnow with
  | woken hrec hsend hsrc hproc =>
    have hzero := driver_flags h hrp hsend
    refine ⟨rfl, fun x hx => update_of_ne hx _ _, fun _ => ⟨⟨?_, ?_, ?_⟩, ?_⟩,
      fun hnot => absurd ⟨hrec, by simp [hsend], hsrc⟩ hnot⟩
    · simp [woken, setFlags, putInterrupt, put]
    · simp [woken, setFlags, putInterrupt, put]
    · apply ready_of_zero hinv hrp
      simpa [woken, setFlags] using hzero
    · simp [woken, setFlags, putInterrupt]
  | blocked hnot =>
    exact ⟨rfl, fun x hx => update_of_ne hx _ _, fun haw => absurd haw hnot,
      fun _ => ⟨by simp, rfl, rfl⟩⟩

/-- `interrupt` makes one record. -/
theorem async_recorded (h : Inv k) (hrp : IsDriver rp) (busy : Bool) :
    ∃ k', k.async rp busy = .ok k' ∧ Recorded k rp busy k' := by
  obtain ⟨k', hk', hinv, hasync⟩ := async_spec h hrp busy
  refine ⟨k', hk', ?_⟩
  cases hasync with
  | held hh =>
    refine ⟨fun _ => ⟨?_, hinv.wellQueued.held, rfl, rfl, rfl⟩, by simp, by simp⟩
    rw [hold_intHeld hh]
    simp
  | now hnow hr =>
    obtain ⟨hheld, -, haw, hnot⟩ := Interrupted.outcome h hrp hnow hinv
    refine ⟨by simp, fun _ hn => ?_, fun _ ha => ?_⟩
    · obtain ⟨hint, hmem, hflags⟩ := hnot hn
      exact ⟨hint, hheld, hmem, hflags⟩
    · obtain ⟨hnote, hint⟩ := haw ha
      exact ⟨hnote, hheld, hint⟩

/-! ## §3 Every event passes the records on -/

/-- The interrupts that are on record for `p` are the same. -/
def SameRecords (k k' : KState) (p : ProcPtr) : Prop :=
  k'.held.intHeld p = k.held.intHeld p ∧ k'.pIntBlocked p = k.pIntBlocked p

theorem SameRecords.passed (h : SameRecords k k' p) : Passed k e k' p where
  held := fun hp => .inl (h.1.trans hp)
  blocked := fun hp => .inl (h.2.trans hp)

theorem SameRecords.of_mail (h : SameMail k k') : SameRecords k k' p :=
  ⟨by rw [h.held], by rw [h.pIntBlocked]⟩

theorem SameRecords.trans {k k₂ : KState} (k₁ : KState) (h : SameRecords k k₁ p) (h' : SameRecords k₁ k₂ p) :
    SameRecords k k₂ p := ⟨h'.1.trans h.1, h'.2.trans h.2⟩

theorem SameRecords.of_informed (h : Informed k k') : SameRecords k k' p := by
  obtain ⟨-, -, rp, -, hsame⟩ := h
  exact SameRecords.trans ((k.writeKsig rp).delivered hardware mm k.layout.addrM)
    ⟨rfl, rfl⟩ (.of_mail hsame)

theorem SameRecords.of_caused {sigNr : ℕ} (h : Caused k rp sigNr k') : SameRecords k k' p := by
  rcases h.mail with hsame | ⟨k₁, hsame, hinf⟩
  · exact .of_mail hsame
  · exact SameRecords.trans _ (.of_mail hsame) (.of_informed hinf)

theorem SameRecords.of_sent {s : ProcPtr} {dest mPtr n : ℤ} (h : Sent k s dest mPtr n k') :
    SameRecords k k' p := by
  cases h <;> exact ⟨rfl, rfl⟩

/-- A receive leaves the records alone, or the caller is given its interrupt. -/
theorem Received.records {d : ProcPtr} {src mPtr : ℤ} (h : Received k d src mPtr k') :
    SameRecords k k' p ∨
      (p = d ∧ (k.pFlags d).sending = false ∧ k' = k.putInterrupt d src mPtr) := by
  cases h with
  | took => exact .inl ⟨rfl, rfl⟩
  | interrupted hsend =>
    by_cases hp : p = d
    · exact .inr ⟨hp, hsend, rfl⟩
    · exact .inl ⟨rfl, update_of_ne hp _ _⟩
  | blocked hnone hout =>
    rcases hout with rfl | ⟨-, -, hinf⟩
    · exact .inl ⟨rfl, rfl⟩
    · exact .inl (SameRecords.trans { k.receiverBlocked d src mPtr with rdy := _ }
        ⟨rfl, rfl⟩ (.of_informed hinf))

theorem putInterrupt_notified {src mPtr : ℤ} (hp : IsDriver p)
    (hinv : Inv (k.putInterrupt p src mPtr)) (hzero : k.pFlags p = Flags.zero) :
    Notified (k.putInterrupt p src mPtr) p mPtr where
  source := by simp [putInterrupt, put]
  type := by simp [putInterrupt, put]
  ready := ready_of_zero hinv hp hzero

/-- A sender that is not blocked by its send has no flag set after it. -/
theorem Sent.caller_zero {s : ProcPtr} {dest mPtr n : ℤ} (h : Sent k s dest mPtr n k')
    (hs : k.pFlags s = Flags.zero) (hsend : (k'.pFlags s).sending = false) :
    k'.pFlags s = Flags.zero := by
  cases h with
  | refused => exact hs
  | delivered hd haddr hacc hproc =>
    rename_i d r
    have hne : s ≠ d := by
      rintro rfl
      simp [accepts, hs, Flags.zero] at hacc
    simpa [delivered, setFlags, put, hne] using hs
  | queued => simp [queued, setFlags] at hsend

theorem Called.records {srcDest mPtr n : ℤ} (hp : IsDriver p)
    (h : Called k rp srcDest mPtr n k') (hzero : k.pFlags rp = Flags.zero) (hinv : Inv k') :
    SameRecords k k' p ∨ (p = rp ∧ Notified k' p mPtr) := by
  cases h with
  | refused => exact .inl ⟨rfl, rfl⟩
  | sent hsent => exact .inl (.of_sent hsent)
  | received _ hrec =>
    rcases Received.records (p := p) hrec with hsame | ⟨rfl, -, rfl⟩
    · exact .inl hsame
    · exact .inr ⟨rfl, putInterrupt_notified hp hinv hzero⟩
  | both hsent _ hrec =>
    rcases Received.records (p := p) hrec with hsame | ⟨rfl, hsend, rfl⟩
    · exact .inl (SameRecords.trans _ (.of_sent hsent) hsame)
    · exact .inr ⟨rfl, putInterrupt_notified hp hinv (Sent.caller_zero hsent hzero hsend)⟩

/-- A round of `unhold` turns the record it takes from the held queue into another form. -/
theorem Unheld.passed (h : Inv k) (hun : Unheld k k') (hinv : Inv k') :
    Passed k .unhold k' p := by
  cases hun with
  | nothing => exact SameRecords.passed ⟨rfl, rfl⟩
  | repeated hhead hnow =>
    rename_i rp
    obtain ⟨hrel, hdriver⟩ := released_inv h hhead
    obtain ⟨hheld, hothers, haw, hnot⟩ := Interrupted.outcome (r := k'.rdy) hrel hdriver hnow hinv
    by_cases hp : p = rp
    · subst hp
      by_cases hw : Awaits k p
      · have hn : ∃ b, ReceivesInto k .unhold p b ∧ Notified k' p b :=
          ⟨k.pMessbuf p, .inl ⟨hw, rfl⟩, (haw hw).1⟩
        exact ⟨fun _ => .inr (.inr hn), fun _ => .inr hn⟩
      · exact ⟨fun _ => .inr (.inl (hnot hw).1), fun _ => .inl (hnot hw).1⟩
    · apply SameRecords.passed
      refine ⟨?_, hothers p hp⟩
      rw [hheld]
      exact update_of_ne hp _ _

theorem Async.passed {busy : Bool} (h : Inv k) (hrp : IsDriver rp) (hasync : Async k rp busy k')
    (hinv : Inv k') : Passed k (.async rp busy) k' p := by
  cases hasync with
  | held hh =>
    refine ⟨fun hp => .inl ?_, fun hp => .inl hp⟩
    rw [hold_intHeld hh, hp, Bool.or_true]
  | now hnow hr =>
    obtain ⟨hheld, hothers, haw, hnot⟩ := Interrupted.outcome h hrp hnow hinv
    refine ⟨fun hp => .inl (by rw [hheld]; exact hp), fun hp => ?_⟩
    by_cases hx : p = rp
    · subst hx
      by_cases hw : Awaits k p
      · exact .inr ⟨k.pMessbuf p, .inl ⟨hw, rfl⟩, (haw hw).1⟩
      · exact .inl (hnot hw).1
    · exact .inl ((hothers p hx).trans hp)

/-- Every event keeps a record, or turns it into the next form. -/
theorem Performed.passed (h : Inv k) (hout : Performed k e k') (hinv : Inv k')
    (hp : IsDriver p) : Passed k e k' p := by
  have hback : ∀ {k' : KState}, SameRecords k.resumed k' p → Passed k e k' p :=
    fun hsame => SameRecords.passed (k := k) ⟨hsame.1, hsame.2⟩
  cases hout with
  | called hzero hcalled =>
    rename_i f srcDest mPtr n
    rcases Called.records hp hcalled hzero.1 hinv with hsame | ⟨hx, hnote⟩
    · exact hback hsame
    · have hb : ∃ b, ReceivesInto k (.sysCall f srcDest mPtr) p b ∧ Notified k' p b :=
        ⟨mPtr, .inr ⟨hx.symm, f, srcDest, rfl⟩, hnote⟩
      exact ⟨fun _ => .inr (.inr hb), fun _ => .inr hb⟩
  | stored => exact hback ⟨rfl, rfl⟩
  | async hrp hasync => exact Async.passed h hrp hasync hinv
  | unheld hun => exact Unheld.passed h hun hinv
  | quiet hsame => exact hback (.of_mail hsame)
  | finished _ _ hsame => exact hback (.of_mail hsame)
  | caused _ hcaused => exact hback (.of_caused hcaused)
  | forked hpp hpc hfork =>
    rename_i rpp rpc base
    -- the child is not a task
    have hne : p ≠ rpc := by
      rintro rfl
      exact susern_eq_some hpc hp.1.1
    exact hback ⟨update_of_ne hne _ _, update_of_ne hne _ _⟩
  | execed _ hcaused =>
    rcases hcaused with ⟨-, rfl⟩ | ⟨-, hcaused⟩
    · exact hback ⟨rfl, rfl⟩
    · exact hback (SameRecords.trans _ (.of_caused hcaused) ⟨rfl, rfl⟩)
  | remapped => exact hback ⟨rfl, rfl⟩
  | exited => exact hback ⟨rfl, rfl⟩

/-! ## §4 The next receive -/

/-- `unhold`, as `restart` calls it: rounds until the held queue is empty, each with the
interrupts that come in during it. -/
inductive Flushed : KState → KState → Prop
  | done {k : KState} (hhead : k.held.head = none) : Flushed k k
  | round {k k₁ k' : KState} (nested : List ProcPtr) (hn : ∀ x ∈ nested, IsDriver x)
      (hhead : k.held.head ≠ none) (hrun : k.unholdWith nested = .ok k₁)
      (hrest : Flushed k₁ k') : Flushed k k'

theorem unholdWith_nil (k : KState) : k.unholdWith [] = k.unhold := by
  unfold unholdWith unhold
  cases k.held.head with
  | none => rfl
  | some rp => rfl

/-- Without further interrupts the loop of `unhold` ends. -/
theorem exists_flushed {l : List ProcPtr} (h : Inv k) (hl : k.held.Rep l) :
    ∃ k', Flushed k k' := by
  induction l generalizing k with
  | nil =>
    refine ⟨k, .done ?_⟩
    by_contra hhead
    obtain ⟨m, t, -, heq⟩ := hl.1.eq_snoc hhead
    simp at heq
  | cons rp l ih =>
    have hhead : k.held.head = some rp := hl.1.chain.1
    obtain ⟨l', heq, hrep⟩ := hl.pop hhead
    obtain ⟨-, rfl⟩ := List.cons.inj heq
    obtain ⟨k₁, hk1, hinv, hun⟩ := unhold_spec h
    cases hun with
    | nothing hnone => simp [hhead] at hnone
    | repeated hhead' hnow =>
      rw [hhead] at hhead'
      cases hhead'
      obtain ⟨hrel, hdriver⟩ := released_inv h hhead
      obtain ⟨hheld, -⟩ := Interrupted.outcome (r := k₁.rdy) hrel hdriver hnow hinv
      obtain ⟨k', hk'⟩ := ih hinv (by rw [hheld]; exact hrep)
      exact ⟨k', .round [] (by simp) (by simp [hhead]) (by rw [unholdWith_nil, hk1]) hk'⟩

/-- A task that has called `receive` waits with its interrupt held up, or has it. -/
def Served (k : KState) (p : ProcPtr) (b : ℤ) : Prop :=
  (k.held.intHeld p = true ∧ Awaits k p ∧ k.pMessbuf p = b) ∨ Notified k p b

/-- An interrupt for another task, or for a task that is not waiting, does not take the message
of an interrupt away. -/
theorem Interrupted.keeps_notified {b : ℤ} (hp : IsDriver p)
    (hnow : Interrupted k rp k') (hinv : Inv k') (hs : Notified k p b) : Notified k' p b := by
  cases hnow with
  | woken hrec hsend hsrc hproc =>
    rename_i r
    have hne : p ≠ rp := by
      rintro rfl
      simp [hs.ready.1, Flags.zero] at hrec
    have hzero : ({ k.woken rp with rdy := r } : KState).pFlags p = Flags.zero := by
      simpa [woken, setFlags, putInterrupt, put, hne] using hs.ready.1
    -- two tasks may use the same buffer: the message is that of an interrupt all the same
    by_cases hcell : cell p b = cell rp (k.pMessbuf rp)
    · refine ⟨?_, ?_, ready_of_zero hinv hp hzero⟩
      · simp [woken, setFlags, putInterrupt, put, hcell]
      · simp [woken, setFlags, putInterrupt, put, hcell]
    · refine ⟨?_, ?_, ready_of_zero hinv hp hzero⟩
      · simpa [woken, setFlags, putInterrupt, put, hcell] using hs.source
      · simpa [woken, setFlags, putInterrupt, put, hcell] using hs.type
  | blocked hnot => exact ⟨hs.source, hs.type, hs.ready⟩

theorem Interrupted.keeps_awaits (hnow : Interrupted k rp k') (hne : p ≠ rp) (haw : Awaits k p) :
    Awaits k' p ∧ k'.pMessbuf p = k.pMessbuf p := by
  cases hnow with
  | woken =>
    refine ⟨?_, rfl⟩
    simpa [Awaits, woken, setFlags, putInterrupt, put, hne] using haw
  | blocked => exact ⟨haw, rfl⟩

variable {nested : List ProcPtr}

/-- A round of `unhold` serves the task, or leaves it as well off as it was. -/
theorem unholdWith_served {b : ℤ} (h : Inv k) (hp : IsDriver p)
    (hn : ∀ x ∈ nested, IsDriver x) (hhead : k.held.head ≠ none)
    (hrun : k.unholdWith nested = .ok k₁) (hs : Served k p b) : Inv k₁ ∧ Served k₁ p b := by
  obtain ⟨rp, hrp⟩ := Option.ne_none_iff_exists'.mp hhead
  obtain ⟨h', k₁', hk1, hinv, hinv0, hdriver, hnow, hint⟩ := unholdWith_spec h hrp hn
  rw [hrun] at hk1
  cases hk1
  refine ⟨hinv, ?_⟩
  obtain ⟨hheld, -, haw, -⟩ := Interrupted.outcome (r := k₁.rdy) hinv0 hdriver hnow hinv
  rcases hs with ⟨hq, hw, hb⟩ | hnote
  · by_cases hne : p = rp
    · subst hne
      rw [← hb]
      exact .inr (haw hw).1
    · obtain ⟨hw', hb'⟩ := Interrupted.keeps_awaits hnow hne hw
      refine .inl ⟨?_, hw', hb'.trans hb⟩
      rw [hheld, hint]
      have : (k.released rp).held.intHeld p = true := by
        simpa [released, hne] using hq
      rw [this, Bool.or_true]
  · exact .inr (Interrupted.keeps_notified hp hnow hinv
      ⟨hnote.source, hnote.type, hnote.ready⟩)

theorem Flushed.notified {b : ℤ} (hf : Flushed k k') (h : Inv k) (hp : IsDriver p)
    (hs : Served k p b) : Notified k' p b := by
  induction hf with
  | done hhead =>
    rcases hs with ⟨hq, -, -⟩ | hnote
    · -- nobody is on an empty queue
      obtain ⟨l, hl, -⟩ := h.rest.held
      have hmem := (hl.2 p).mpr hq
      have hnil : l = [] := by
        have hqueue := hl.1
        rw [hhead] at hqueue
        exact hqueue.eq_nil
      simp [hnil] at hmem
    · exact hnote
  | round nested hn hhead hrun _ ih =>
    obtain ⟨hinv, hs'⟩ := unholdWith_served h hp hn hhead hrun hs
    exact ih hinv hs'

theorem sysCall_receive (hp : IsDriver p) (hproc : k.rdy.procPtr = p) {src : ℤ}
    (hsrc : isrxhardware src) (mPtr : ℤ) :
    k.sysCall .receive src mPtr = (k.miniRec p src mPtr).map fun k' => (ok, k') := by
  have hok : isoksrcDest src := by
    rcases hsrc with rfl | rfl
    · exact .inr rfl
    · exact .inl (by decide)
  have huser : ¬ isuserp p := by
    have hk := hp.1.1
    simp only [isuserp, isKernelp] at hk ⊢
    omega
  unfold sysCall
  rw [hproc, if_neg (not_not.mpr hok), if_neg fun hu => huser hu.2]

/-- A task with an interrupt on record that calls `receive`, admits HARDWARE and finds no queued
sender is served. -/
theorem receive_served {src mPtr : ℤ} (h : Inv k) (hp : IsDriver p) (hproc : k.rdy.procPtr = p)
    (hsrc : isrxhardware src) (hnone : findSender k.callers p src = .ok none)
    (hrec : k.held.intHeld p = true ∨ k.pIntBlocked p = true) :
    ∃ k₁, k.perform (.sysCall .receive src mPtr) = .ok (ok, k₁) ∧ Inv k₁ ∧ Served k₁ p mPtr ∧
      (k.pIntBlocked p = true → Notified k₁ p mPtr) := by
  have hzero : k.pFlags p = Flags.zero := by
    rw [← hproc]
    exact (running_zero h (by rw [hproc]; exact hp.1.2)).1
  rw [h.rest.callers.findSender_eq] at hnone
  have hqueue := firstWith_eq_none.mp (Except.ok.inj hnone)
  obtain ⟨k₁, hk1, hinv, hout⟩ := miniRec_spec src (resumed_inv h) (not_pseudo_driver hp)
    (fun _ => by rw [show k.resumed.pFlags p = _ from hzero]; rfl) mPtr
  refine ⟨k₁, ?_, hinv, ?_⟩
  · show k.resumed.sysCall .receive src mPtr = _
    rw [sysCall_receive (k := k.resumed) hp hproc hsrc, hk1, map_ok]
  cases hout with
  | took hq hpre hs hsame =>
    rename_i s pre post r c
    have hmem : s ∈ callersOf k.waiting p := by
      rw [show callersOf k.waiting p = pre ++ s :: post from hq]
      simp
    simp [hqueue s hmem] at hs
  | interrupted =>
    have hnote := putInterrupt_notified (k := k.resumed) hp hinv hzero
    exact ⟨.inr hnote, fun _ => hnote⟩
  | blocked hfree hblock =>
    have hsend : (k.resumed.pFlags p).sending = false := by
      rw [show k.resumed.pFlags p = _ from hzero]
      rfl
    have hint : ¬ k.pIntBlocked p = true := fun hi => (hfree hsend).2 ⟨hi, hsrc⟩
    rcases hblock with rfl | ⟨rfl, -, -⟩
    · refine ⟨.inl ⟨hrec.resolve_right hint, ⟨?_, ?_, ?_⟩, ?_⟩, fun hi => absurd hi hint⟩
      · simp [receiverBlocked, setFlags]
      · simpa [receiverBlocked, setFlags] using hsend
      · simpa [receiverBlocked, setFlags] using hsrc
      · simp [receiverBlocked]
    · exact absurd hp.1.1 (by decide)

end KState

/-! ## §5 Every run -/

variable {L : Layout} {map : ProcPtr → MemMaps} {memory : Cell → Message} {k k' : KState}

/-- Interrupts are not lost from the state `k` on. -/
structure InterruptsKept (k : KState) : Prop where
  /-- the held queue is a list without duplicates, with the right head and tail -/
  queue : HeldOk k
  /-- an interrupt is recorded in one form -/
  recorded : ∀ rp busy, IsDriver rp → ∃ k', k.async rp busy = .ok k' ∧ Recorded k rp busy k'
  /-- every event keeps a record or turns it into the next form -/
  passed : ∀ e n k', Promised k e → k.perform e = .ok (n, k') → ∀ p, IsDriver p → Passed k e k' p
  /-- a receive that admits HARDWARE and finds no queued sender returns the interrupt, at the
  latest when `restart` has flushed the held queue -/
  received : ∀ p src mPtr, IsDriver p → k.rdy.procPtr = p → isrxhardware src →
    findSender k.callers p src = .ok none → k.held.intHeld p = true ∨ k.pIntBlocked p = true →
    ∃ k₁, k.perform (.sysCall .receive src mPtr) = .ok (ok, k₁) ∧
      (k.pIntBlocked p = true → Notified k₁ p mPtr) ∧ (∃ k', KState.Flushed k₁ k') ∧
      ∀ k', KState.Flushed k₁ k' → Notified k' p mPtr

theorem Inv.interruptsKept (h : Inv k) : InterruptsKept k where
  queue := h.wellQueued.held
  recorded := fun rp busy hrp => KState.async_recorded h hrp busy
  passed := by
    intro e n k' he hrun p hp
    obtain ⟨hinv, hout⟩ := KState.perform_cases h he hrun
    exact KState.Performed.passed h hout hinv hp
  received := by
    intro p src mPtr hp hproc hsrc hnone hrec
    obtain ⟨k₁, hk1, hinv, hserved, hnote⟩ := KState.receive_served h hp hproc hsrc hnone hrec
    obtain ⟨l, hl, -⟩ := hinv.rest.held
    exact ⟨k₁, hk1, hnote, KState.exists_flushed hinv hl,
      fun k' hf => KState.Flushed.notified hf hinv hp hserved⟩

/-- A round of `unhold` that is interrupted is a run of events. -/
theorem Reached.unholdWith (h : Reached Promised L map memory k)
    (hn : ∀ x ∈ nested, IsDriver x) (hrun : k.unholdWith nested = .ok k') :
    Reached Promised L map memory k' := by
  cases hhead : k.held.head with
  | none =>
    simp only [KState.unholdWith, hhead] at hrun
    cases hrun
    exact h
  | some rp =>
    obtain ⟨k₁, hk1, hfold⟩ := KState.unholdWith_eq hrun (by simp [hhead])
    have h1 : Reached Promised L map memory k₁ :=
      h.step (e := .unhold) (n := ok) trivial (by simp only [KState.perform, hk1, map_ok])
    clear hrun hk1 hhead h
    induction nested generalizing k₁ with
    | nil =>
      cases hfold
      exact h1
    | cons x nested ih =>
      rw [List.foldlM_cons] at hfold
      cases hx : k₁.async x true with
      | error f =>
        rw [hx] at hfold
        cases hfold
      | ok k₂ =>
        rw [hx, ok_bind] at hfold
        refine ih (fun y hy => hn y (List.mem_cons_of_mem _ hy)) k₂ hfold ?_
        exact h1.step (e := .async x true) (n := ok) (hn x (List.mem_cons_self ..))
          (by simp only [KState.perform, hx, map_ok])

/-- In every run of interrupts, `unhold`, system calls and the requests to the system task, also
when rounds of `unhold` are interrupted, interrupts are not lost. -/
theorem reached_interruptsKept (h : Reached Promised L map memory k) :
    InterruptsKept k ∧ ∀ nested k', (∀ x ∈ nested, IsDriver x) → k.unholdWith nested = .ok k' →
      Reached Promised L map memory k' ∧ InterruptsKept k' := by
  refine ⟨h.inv.interruptsKept, fun nested k' hn hrun => ?_⟩
  have h' := h.unholdWith hn hrun
  exact ⟨h', h'.inv.interruptsKept⟩

/-- The tasks run until they block in a receive; then an interrupt for the clock task comes in
while the terminal task changes the queues, and is held up. -/
def heldRun : List Event := settle ++ [.async clock true]

theorem reached_interruptsKept_held : ∃ k, Reached Promised plainLayout plainMap noMessage k ∧
    k.held.intHeld clock = true ∧ Awaits k clock ∧
    InterruptsKept k ∧ ∀ nested k', (∀ x ∈ nested, IsDriver x) → k.unholdWith nested = .ok k' →
      Reached Promised plainLayout plainMap noMessage k' ∧ InterruptsKept k' := by
  obtain ⟨k, hr, hf⟩ := exists_reached Promised plainLayout plainMap noMessage
    (fun k e => decide (Promised k e)) (fun k e h => of_decide_eq_true h) heldRun
    (fun k => (k.held.intHeld clock, (k.pFlags clock).receiving, (k.pFlags clock).sending,
      k.pGetfrom clock)) (true, true, false, any) (by decide +kernel)
  simp only [Prod.mk.injEq] at hf
  obtain ⟨hheld, hrec, hsend, hfrom⟩ := hf
  exact ⟨k, hr, hheld, ⟨hrec, by simp [hsend], .inl hfrom⟩, reached_interruptsKept hr⟩

end LisaMinix.Kernel
