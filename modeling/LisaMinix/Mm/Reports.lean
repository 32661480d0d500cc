import LisaMinix.Mm.Lineage

/-!
# Reports and Answers

What the messages of MM say and whom they answer.  Both are read off the history alone: the
pid that FORK has given a process, how the process has ended, and the call that it waits in.
The module shows that every function of MM keeps the table in step with these readings, so
that the report on a process carries its own pid and status, and that MM sends a process one
message for every call it has made, and the report on a child for a call of WAIT.

The second part needs that a process makes no call while it waits in another one, which is
what the kernel sees to (`Polite`).
-/

namespace LisaMinix.Mm

open LisaMinix.Library Function

/-! ## §1 What the history says

The history has the latest event first. -/

/-- The pid of the process in slot `p`. -/
def pidOf (p : ProcNr) : List ProcEvent → ℤ
  | [] => if p = initProcNr then initPid else 0
  | .named c pid :: l => if c = p then pid else pidOf p l
  | _ :: l => pidOf p l

/-- How the process in slot `p` has ended, if it has: the signal and the exit status. -/
def endOf (p : ProcNr) : List ProcEvent → Option (ℕ × ℕ)
  | [] => none
  | .born c _ :: l => if c = p then none else endOf p l
  | .ended c sig exit :: l => if c = p then some (sig, exit) else endOf p l
  | _ :: l => endOf p l

/-- The call in which the process in slot `p` waits for an answer.  A child is born waiting
for the answer to FORK. -/
def pending (p : ProcNr) : List ProcEvent → Option Asked
  | [] => none
  | .asked c call :: l => if c = p then some call else pending p l
  | .born c _ :: l => if c = p then some .other else pending p l
  | .started c :: l => if c = p then none else pending p l
  | .replied r :: l => if r.procNr = p then none else pending p l
  | _ :: l => pending p l

/-- Nobody has made a call while waiting for the answer to another. -/
def Polite : List ProcEvent → Prop
  | [] => True
  | .asked p _ :: l => pending p l = none ∧ Polite l
  | _ :: l => Polite l

instance instDecidablePolite : (l : List ProcEvent) → Decidable (Polite l)
  | [] => isTrue trivial
  | .asked p _ :: l =>
    haveI := instDecidablePolite l
    inferInstanceAs (Decidable (pending p l = none ∧ Polite l))
  | .born .. :: l => instDecidablePolite l
  | .named .. :: l => instDecidablePolite l
  | .started _ :: l => instDecidablePolite l
  | .ended .. :: l => instDecidablePolite l
  | .hung _ :: l => instDecidablePolite l
  | .released .. :: l => instDecidablePolite l
  | .adopted _ :: l => instDecidablePolite l
  | .replied _ :: l => instDecidablePolite l

/-- What is due when an event happens after the history `l`: a report tells the pid of the
process and how it has ended, and answers a WAIT of the one who gets it; and every message is
the answer to a call. -/
def Accounted : ProcEvent → List ProcEvent → Prop
  | .released p r, l =>
    r.result = pidOf p l ∧
    (∃ sig exit, endOf p l = some (sig, exit) ∧ r.res2 = sig % 256 + exit * 256) ∧
    (Polite l → ∀ l', l = .replied r :: l' → pending r.procNr l' = some .wait)
  | .replied r, l => Polite l → pending r.procNr l ≠ none
  | _, _ => True

/-- All events of a history are accounted for. -/
def Audited : List ProcEvent → Prop
  | [] => True
  | e :: l => Accounted e l ∧ Audited l

variable {e : ProcEvent}

theorem Audited.accounted {l₁ l₂ : List ProcEvent} (h : Audited (l₁ ++ e :: l₂)) : Accounted e l₂ := by
  induction l₁ with
  | nil => exact h.1
  | cons _ _ ih => exact ih h.2

/-- An answer to WAIT that does not report the end of a child: there is none, a signal has come,
or a child has stopped (`0177 | sig << 8`). -/
def NoExit (r : Reply) (l : List ProcEvent) : Prop :=
  r.result = echild ∨ r.result = eintr ∨ ∃ p sig, r.result = pidOf p l ∧ r.res2 = 127 + sig * 256

/-- Every other answer to WAIT is the report on the child that is released next. -/
def Settled (l : List ProcEvent) : Prop :=
  ∀ l₁ r l₂, l = l₁ ++ .replied r :: l₂ → Polite l₂ → pending r.procNr l₂ = some .wait →
    (∃ later p, l₁ = later ++ [.released p r]) ∨ NoExit r l₂

variable {l : List ProcEvent}

theorem Settled.cons (h : Settled l) (he : ∀ r, e ≠ .replied r) : Settled (e :: l) := by
  intro l₁ r l₂ hl hpol hwait
  cases l₁ with
  | nil => exact absurd (List.cons.inj hl).1 (he r)
  | cons e' l₁ =>
    rcases h l₁ r l₂ (List.cons.inj hl).2 hpol hwait with ⟨later, p, rfl⟩ | hno
    · exact .inl ⟨e' :: later, p, rfl⟩
    · exact .inr hno

theorem Settled.replied {r : Reply} (h : Settled l)
    (hr : Polite l → pending r.procNr l = some .wait → NoExit r l) : Settled (.replied r :: l) := by
  intro l₁ r' l₂ hl hpol hwait
  cases l₁ with
  | nil =>
    obtain ⟨hr', rfl⟩ := List.cons.inj hl
    cases hr'
    exact .inr (hr hpol hwait)
  | cons e' l₁ =>
    rcases h l₁ r' l₂ (List.cons.inj hl).2 hpol hwait with ⟨later, p, rfl⟩ | hno
    · exact .inl ⟨e' :: later, p, rfl⟩
    · exact .inr hno

/-- A report and the release of the slot. -/
theorem Settled.reported {p : ProcNr} {r : Reply} (h : Settled l) :
    Settled (.released p r :: .replied r :: l) := by
  intro l₁ r' l₂ hl hpol hwait
  match l₁, hl with
  | [e], hl =>
    obtain ⟨he, hl'⟩ := List.cons.inj hl
    obtain ⟨hr, -⟩ := List.cons.inj hl'
    cases hr
    exact .inl ⟨[], p, by rw [← he]; rfl⟩
  | e :: e' :: l₁, hl =>
    obtain ⟨-, hl'⟩ := List.cons.inj hl
    rcases h l₁ r' l₂ (List.cons.inj hl').2 hpol hwait with ⟨later, q, rfl⟩ | hno
    · exact .inl ⟨e :: e' :: later, q, rfl⟩
    · exact .inr hno

/-- The last event was not a message. -/
def Quiet (l : List ProcEvent) : Prop := ∀ r l', l ≠ .replied r :: l'

/-! ## §2 The table and the history -/

/-- The history has seen how the process in slot `p` has ended. -/
def Due (s : MmState) (p : ProcNr) : Prop :=
  endOf p s.history = some ((s.mproc p).sigstatus, (s.mproc p).exitstatus)

/-- The table agrees with the history.  `caller` is the process whose call is being handled,
and the zombies in `leaving` have not left yet. -/
structure Ledger (caller : Option (ProcNr × Asked)) (leaving : Set ProcNr) (s : MmState) : Prop where
  pid : ∀ p, (s.mproc p).pid = pidOf p s.history
  due : ∀ p, p ∉ leaving → (s.mproc p).hanging = true → s.slotFree p = true ∧ Due s p
  waiting : Polite s.history → ∀ p, (s.mproc p).waiting = true → pending p s.history = some .wait
  paused : Polite s.history → ∀ p, (s.mproc p).paused = true → pending p s.history = some .pause
  calling : Polite s.history → ∀ w call, caller = some (w, call) →
    pending w s.history = some call ∧ (s.mproc w).waiting = false ∧ (s.mproc w).paused = false
  audited : Audited s.history

/-- The same between messages: the report on a child goes with the release of its slot. -/
structure Books (caller : Option (ProcNr × Asked)) (leaving : Set ProcNr) (s : MmState) : Prop
    extends Ledger caller leaving s where
  settled : Settled s.history

/-- The process can be sent a message: it waits for one, and the table has noted that it does
not wait any more. -/
def Answerable (s : MmState) (p : ProcNr) : Prop :=
  pending p s.history ≠ none ∧ (s.mproc p).waiting = false ∧ (s.mproc p).paused = false

/-- What the books read of a slot, apart from how the process ended. -/
def bookPart (m : Mproc) : ℤ × Bool × Bool × Bool := (m.pid, m.hanging, m.waiting, m.paused)

def endPart (m : Mproc) : ℕ × ℕ := (m.sigstatus, m.exitstatus)

/-- Nothing happens that the books would have to note, but a process may stop waiting and a
zombie may be gone. -/
structure SameBooks (leaving : Set ProcNr) (s s' : MmState) : Prop where
  pid : ∀ p, (s'.mproc p).pid = (s.mproc p).pid
  hanging : ∀ p, p ∉ leaving → (s'.mproc p).hanging = true → (s.mproc p).hanging = true
  ends : ∀ p, p ∉ leaving → (s'.mproc p).hanging = true → endPart (s'.mproc p) = endPart (s.mproc p)
  slotFree : ∀ p, s.slotFree p = true → s'.slotFree p = true
  waiting : ∀ p, (s'.mproc p).waiting = true → (s.mproc p).waiting = true
  paused : ∀ p, (s'.mproc p).paused = true → (s.mproc p).paused = true
  history : s'.history = s.history

section Frames

variable {X : Set ProcNr} {b : Option (ProcNr × Asked)} {s s' s'' : MmState} {p : ProcNr}

namespace SameBooks

theorem of_mproc (hm : s'.mproc = s.mproc) (hf : ∀ p, s.slotFree p = true → s'.slotFree p = true)
    (hh : s'.history = s.history) : SameBooks X s s' :=
  ⟨fun p => by rw [hm], fun p _ => by rw [hm]; exact id, fun p _ _ => by rw [hm], hf,
    fun p => by rw [hm]; exact id, fun p => by rw [hm]; exact id, hh⟩

theorem of_undisturbed (h : Undisturbed s s') : SameBooks X s s' where
  pid := h.pid
  hanging p _ hp := by rwa [h.hanging] at hp
  ends p _ _ := h.status p
  slotFree p hp := by rwa [h.slotFree]
  waiting p hp := by rwa [h.waiting] at hp
  paused p hp := by rwa [h.paused] at hp
  history := h.history

variable {call : Asked} {f : Mproc → Mproc}

/-- A change to one slot, which does not change how a zombie ended. -/
theorem modify (s : MmState) (p : ProcNr) (hpid : ∀ m, (f m).pid = m.pid)
    (hhang : p ∉ X → ∀ m, (f m).hanging = true → m.hanging = true)
    (hend : p ∉ X → (s.mproc p).hanging = true → ∀ m, endPart (f m) = endPart m)
    (hwait : ∀ m, (f m).waiting = true → m.waiting = true)
    (hpause : ∀ m, (f m).paused = true → m.paused = true) : SameBooks X s (s.modify p f) := by
  refine ⟨fun q => ?_, fun q hX => ?_, fun q hX hq => ?_, fun _ => id, fun q => ?_, fun q => ?_, rfl⟩
  all_goals by_cases h : q = p
  · rw [h, mproc_modify_self, hpid]
  · rw [mproc_modify_of_ne h]
  · rw [h, mproc_modify_self]
    exact hhang (h ▸ hX) _
  · rw [mproc_modify_of_ne h]
    exact id
  · rw [h, mproc_modify_self] at hq ⊢
    exact hend (h ▸ hX) (hhang (h ▸ hX) _ hq) _
  · rw [mproc_modify_of_ne h]
  · rw [h, mproc_modify_self]
    exact hwait _
  · rw [mproc_modify_of_ne h]
    exact id
  · rw [h, mproc_modify_self]
    exact hpause _
  · rw [mproc_modify_of_ne h]
    exact id

/-- A change to one slot that the books do not read. -/
theorem alter (s : MmState) (p : ProcNr)
    (hf : ∀ m, bookPart (f m) = bookPart m) (hend : ∀ m, endPart (f m) = endPart m) :
    SameBooks X s (s.modify p f) := by
  have hflag : ∀ m, (f m).pid = m.pid ∧ (f m).hanging = m.hanging ∧ (f m).waiting = m.waiting ∧
      (f m).paused = m.paused := by
    intro m
    have := hf m
    simpa only [bookPart, Prod.mk.injEq] using this
  exact modify s p (fun m => (hflag m).1) (fun _ m hm => by rw [← (hflag m).2.1]; exact hm)
    (fun _ _ => hend)
    (fun m hm => by rw [← (hflag m).2.2.1]; exact hm)
    (fun m hm => by rw [← (hflag m).2.2.2]; exact hm)

end SameBooks

theorem Ledger.of_same (h : Ledger b X s) (hs : SameBooks X s s') : Ledger b X s' where
  pid p := by
    rw [hs.pid, hs.history]
    exact h.pid p
  due p hX hp := by
    obtain ⟨hfree, hdue⟩ := h.due p hX (hs.hanging p hX hp)
    have hends := hs.ends p hX hp
    simp only [endPart, Prod.mk.injEq] at hends
    refine ⟨hs.slotFree p hfree, ?_⟩
    rw [Due, hs.history, hends.1, hends.2]
    exact hdue
  waiting hpol p hp := by
    rw [hs.history] at hpol ⊢
    exact h.waiting hpol p (hs.waiting p hp)
  paused hpol p hp := by
    rw [hs.history] at hpol ⊢
    exact h.paused hpol p (hs.paused p hp)
  calling hpol w call hb := by
    rw [hs.history] at hpol ⊢
    obtain ⟨hask, hwait, hpause⟩ := h.calling hpol w call hb
    refine ⟨hask, Bool.eq_false_iff.mpr fun hw => ?_, Bool.eq_false_iff.mpr fun hp => ?_⟩
    · exact Bool.eq_false_iff.mp hwait (hs.waiting w hw)
    · exact Bool.eq_false_iff.mp hpause (hs.paused w hp)
  audited := by
    rw [hs.history]
    exact h.audited

theorem Ledger.mono {Y : Set ProcNr} (h : Ledger b X s) (hXY : X ⊆ Y) : Ledger b Y s :=
  { h with due := fun p hp => h.due p fun hX => hp (hXY hX) }

/-- A process has left when its slot does not hang, or hangs with everything noted. -/
theorem Ledger.left (h : Ledger b {p} s)
    (hp : (s.mproc p).hanging = true → s.slotFree p = true ∧ Due s p) : Ledger b ∅ s := by
  refine { h with due := fun q _ hq => ?_ }
  by_cases heq : q = p
  · rw [heq] at hq ⊢
    exact hp hq
  · exact h.due q heq hq

/-- The call has been dealt with. -/
theorem Ledger.done (h : Ledger b X s) : Ledger none X s :=
  { h with calling := fun _ _ _ hb => by cases hb }

/-- An event that changes nothing that is read off the history. -/
theorem Ledger.note (h : Ledger b X s) (hpid : ∀ p, pidOf p (e :: s.history) = pidOf p s.history)
    (hend : ∀ p, endOf p (e :: s.history) = endOf p s.history)
    (hask : ∀ p, pending p (e :: s.history) = pending p s.history)
    (hpol : Polite (e :: s.history) → Polite s.history) (hacc : Accounted e s.history) :
    Ledger b X (s.note e) where
  pid p := (h.pid p).trans (hpid p).symm
  due p hX hp := ⟨(h.due p hX hp).1, (hend p).trans (h.due p hX hp).2⟩
  waiting hp p hw := (hask p).trans (h.waiting (hpol hp) p hw)
  paused hp p hw := (hask p).trans (h.paused (hpol hp) p hw)
  calling hp w call hb := by
    obtain ⟨hcall, hrest⟩ := h.calling (hpol hp) w call hb
    exact ⟨(hask w).trans hcall, hrest⟩
  audited := ⟨hacc, h.audited⟩

/-- The message that somebody waits for. -/
theorem Ledger.reply (h : Ledger b X s) (p : ProcNr) (result : ℤ) (res2 : ℕ)
    (hp : Polite s.history → Answerable s p)
    (hb : Polite s.history → ∀ w call, b = some (w, call) → w ≠ p) :
    Ledger b X (reply s p result res2) := by
  unfold Mm.reply
  split
  · exact h
  set r : Reply := ⟨p, result, res2⟩ with hr
  -- the others still wait for what they waited for
  have hother : ∀ q, q ≠ p → pending q (.replied r :: s.history) = pending q s.history := by
    intro q hq
    rw [pending, if_neg (Ne.symm hq)]
  constructor
  case pid => exact h.pid
  case due => exact h.due
  case waiting =>
    intro hpol q hq
    have hne : q ≠ p := fun heq => by
      rw [heq] at hq
      exact Bool.eq_false_iff.mp (hp hpol).2.1 hq
    exact (hother q hne).trans (h.waiting hpol q hq)
  case paused =>
    intro hpol q hq
    have hne : q ≠ p := fun heq => by
      rw [heq] at hq
      exact Bool.eq_false_iff.mp (hp hpol).2.2 hq
    exact (hother q hne).trans (h.paused hpol q hq)
  case calling =>
    intro hpol w call hw
    obtain ⟨hcall, hrest⟩ := h.calling hpol w call hw
    exact ⟨(hother w (hb hpol w call hw)).trans hcall, hrest⟩
  case audited => exact ⟨fun hpol => (hp hpol).1, h.audited⟩

/-- The caller waits for its answer. -/
theorem Ledger.answerable {who : ProcNr} (h : Ledger (some (who, call)) X s)
    (hpol : Polite s.history) : Answerable s who := by
  obtain ⟨hcall, hrest⟩ := h.calling hpol who call rfl
  exact ⟨by rw [hcall]; exact Option.some_ne_none _, hrest⟩

/-- A process that waits for a child does nothing else. -/
theorem Ledger.alone (h : Ledger b X s) (hpol : Polite s.history) (hp : (s.mproc p).waiting = true) :
    (s.mproc p).paused = false ∧ ∀ w call, b = some (w, call) → w ≠ p := by
  refine ⟨Bool.eq_false_iff.mpr fun hpause => ?_, fun w call hb heq => ?_⟩
  · have hcall := (h.waiting hpol p hp).symm.trans (h.paused hpol p hpause)
    cases hcall
  · have hwait := (h.calling hpol w call hb).2.1
    rw [heq, hp] at hwait
    cases hwait

theorem reply_modify (s : MmState) (p q : ProcNr)
    (hf : ∀ m, (f m).inUse = m.inUse ∧ (f m).hanging = m.hanging) (result : ℤ) (res2 : ℕ) :
    reply (s.modify q f) p result res2 = (reply s p result res2).modify q f := by
  have hflags : ((s.modify q f).mproc p).inUse = (s.mproc p).inUse ∧
      ((s.modify q f).mproc p).hanging = (s.mproc p).hanging := by
    by_cases h : p = q
    · rw [h, mproc_modify_self]
      exact hf _
    · rw [mproc_modify_of_ne h]
      exact ⟨rfl, rfl⟩
  unfold reply
  rw [hflags.1, hflags.2]
  split
  · rfl
  · rfl

/-- The parent stops waiting and is told, before the slot is released. -/
theorem Ledger.tell (h : Ledger b X s) (p : ProcNr) (result : ℤ) (res2 : ℕ)
    (hwait : Polite s.history → pending p s.history = some .wait ∧ (s.mproc p).paused = false)
    (hb : Polite s.history → ∀ w call, b = some (w, call) → w ≠ p) :
    Ledger b X ((Mm.reply s p result res2).modify p fun m => { m with waiting := false }) := by
  have hwoken : SameBooks X s (s.modify p fun m => { m with waiting := false }) :=
    SameBooks.modify s p (fun _ => rfl) (fun _ _ => id) (fun _ _ _ => rfl)
      (fun _ hm => absurd hm Bool.false_ne_true) fun _ => id
  rw [← reply_modify s p p (f := fun m => { m with waiting := false }) fun _ => ⟨rfl, rfl⟩]
  refine (h.of_same hwoken).reply p result res2 (fun hpol => ⟨?_, ?_, ?_⟩) hb
  · show pending p s.history ≠ none
    rw [(hwait hpol).1]
    exact Option.some_ne_none _
  · rw [mproc_modify_self]
  · rw [mproc_modify_self]
    exact (hwait hpol).2

theorem Books.of_same (h : Books b X s) (hs : SameBooks X s s') : Books b X s' where
  toLedger := h.toLedger.of_same hs
  settled := by
    rw [hs.history]
    exact h.settled

theorem Books.mono {Y : Set ProcNr} (h : Books b X s) (hXY : X ⊆ Y) : Books b Y s :=
  ⟨h.toLedger.mono hXY, h.settled⟩

theorem Books.done (h : Books b X s) : Books none X s := ⟨h.toLedger.done, h.settled⟩

theorem Books.note (h : Books b X s) (hpid : ∀ p, pidOf p (e :: s.history) = pidOf p s.history)
    (hend : ∀ p, endOf p (e :: s.history) = endOf p s.history)
    (hask : ∀ p, pending p (e :: s.history) = pending p s.history)
    (hpol : Polite (e :: s.history) → Polite s.history) (hacc : Accounted e s.history)
    (he : ∀ r, e ≠ .replied r) : Books b X (s.note e) :=
  ⟨h.toLedger.note hpid hend hask hpol hacc, h.settled.cons he⟩

theorem Books.left (h : Books b {p} s)
    (hp : (s.mproc p).hanging = true → s.slotFree p = true ∧ Due s p) : Books b ∅ s :=
  ⟨h.toLedger.left hp, h.settled⟩

/-- A message to a process that does not wait for a child, or that does not report an end. -/
theorem Books.reply (h : Books b X s) (p : ProcNr) (result : ℤ) (res2 : ℕ)
    (hp : Polite s.history → Answerable s p)
    (hb : Polite s.history → ∀ w call, b = some (w, call) → w ≠ p)
    (hno : Polite s.history → pending p s.history = some .wait → NoExit ⟨p, result, res2⟩ s.history) :
    Books b X (Mm.reply s p result res2) := by
  refine ⟨h.toLedger.reply p result res2 hp hb, ?_⟩
  unfold Mm.reply
  split
  · exact h.settled
  · exact h.settled.replied hno

theorem Books.tell (h : Books b X s) (p : ProcNr) (result : ℤ) (res2 : ℕ)
    (hwait : Polite s.history → pending p s.history = some .wait ∧ (s.mproc p).paused = false)
    (hb : Polite s.history → ∀ w call, b = some (w, call) → w ≠ p)
    (hno : NoExit ⟨p, result, res2⟩ s.history) :
    Books b X ((Mm.reply s p result res2).modify p fun m => { m with waiting := false }) := by
  refine ⟨h.toLedger.tell p result res2 hwait hb, ?_⟩
  show Settled (Mm.reply s p result res2).history
  unfold Mm.reply
  split
  · exact h.settled
  · exact h.settled.replied fun _ _ => hno

/-- The answer to the call that is being handled, if it is not WAIT. -/
theorem Books.answer {who : ProcNr} (h : Books (some (who, .other)) X s) (result : ℤ) (res2 : ℕ) :
    Books none X (Mm.reply s who result res2) := by
  refine h.done.reply who result res2 (h.toLedger.answerable) (fun _ _ _ hb => by cases hb)
    fun hpol hwait => ?_
  rw [(h.calling hpol who .other rfl).1] at hwait
  cases hwait

/-- The answer to WAIT when there is no end to report. -/
theorem Books.respond {who : ProcNr} (h : Books (some (who, .wait)) X s) {result : ℤ} {res2 : ℕ}
    (hno : NoExit ⟨who, result, res2⟩ s.history) : Books none X (Mm.reply s who result res2) :=
  h.done.reply who result res2 (h.toLedger.answerable) (fun _ _ _ hb => by cases hb) fun _ _ => hno

end Frames

/-! ## §3 Leaving -/

section Leaving

variable {b : Option (ProcNr × Asked)} {X : Set ProcNr} {s s' : MmState} {p child : ProcNr}

theorem reply_history (s : MmState) (p : ProcNr) (result : ℤ) (res2 : ℕ) :
    (reply s p result res2).history = s.history ∨
      (reply s p result res2).history = .replied ⟨p, result, res2⟩ :: s.history := by
  unfold reply
  split
  · exact .inl rfl
  · exact .inr rfl

/-- **The report on a child** tells its pid and how it has ended, to a parent that waits. -/
theorem releaseSlot_books (h : Books b {child} s) (hdue : Due s child) (hquiet : Quiet s.history)
    (hwait : Polite s.history → pending (s.mproc child).parent s.history = some .wait ∧
      (s.mproc (s.mproc child).parent).paused = false)
    (hb : Polite s.history → ∀ w call, b = some (w, call) → w ≠ (s.mproc child).parent) :
    Books b ∅ (releaseSlot s child) := by
  set c := s.mproc child with hc
  set t := (reply s c.parent c.report.result c.report.res2).modify c.parent fun m =>
    { m with waiting := false } with ht
  have htold : Ledger b {child} t := h.toLedger.tell c.parent _ _ hwait hb
  have hhist : t.history = s.history ∨ t.history = .replied c.report :: s.history :=
    reply_history ..
  have hreport : Accounted (.released child c.report) t.history := by
    -- the message tells nothing new about the child
    rcases hhist with hhist | hhist
    all_goals
      rw [hhist]
      refine ⟨h.pid child, ⟨c.sigstatus, c.exitstatus, hdue, rfl⟩, fun hpol l' hl' => ?_⟩
    · exact absurd hl' (hquiet _ _)
    · obtain ⟨-, rfl⟩ := List.cons.inj hl'
      exact (hwait hpol).1
  have hgone : SameBooks {child} t (t.modify child Mproc.released) :=
    SameBooks.modify t child (fun _ => rfl) (fun _ _ hm => absurd hm Bool.false_ne_true)
      (fun _ _ _ => rfl) (fun _ => id) fun _ hm => absurd hm Bool.false_ne_true
  have hnoted := (htold.of_same hgone).note (e := .released child c.report) (fun _ => rfl)
    (fun _ => rfl) (fun _ => rfl) id hreport
  have hcounted : SameBooks {child} ((t.modify child Mproc.released).note (.released child c.report))
      (releaseSlot s child) := SameBooks.of_mproc rfl (fun _ => id) rfl
  refine ⟨(hnoted.of_same hcounted).left fun hhang => ?_, ?_⟩
  change ((t.modify child Mproc.released).mproc child).hanging = true at hhang
  · rw [mproc_modify_self] at hhang
    exact absurd hhang Bool.false_ne_true
  · show Settled (.released child c.report :: t.history)
    rcases hhist with hhist | hhist
    · rw [hhist]
      exact h.settled.cons fun _ => ProcEvent.noConfusion
    · rw [hhist]
      exact h.settled.reported

/-- INIT takes over a child. -/
theorem Books.adopt (h : Books b X s) (rp : ProcNr) :
    Books b X ((s.modify rp fun m => { m with parent := initProcNr }).note (.adopted rp)) := by
  have hparent : SameBooks X s (s.modify rp fun m => { m with parent := initProcNr }) :=
    SameBooks.alter s rp (fun _ => rfl) fun _ => rfl
  exact (h.of_same hparent).note (fun _ => rfl) (fun _ => rfl) (fun _ => rfl) id trivial
    fun _ => ProcEvent.noConfusion

theorem cleanup_books {fuel : ℕ} (h : Books b {child} s) (hdue : Due s child)
    (hquiet : Quiet s.history)
    (hwait : Polite s.history → pending (s.mproc child).parent s.history = some .wait ∧
      (s.mproc (s.mproc child).parent).paused = false)
    (hb : Polite s.history → ∀ w call, b = some (w, call) → w ≠ (s.mproc child).parent)
    (hrun : cleanup fuel s child = .ok s') : Books b ∅ s' := by
  induction fuel generalizing s s' child with
  | zero => cases hrun
  | succ fuel ih =>
    unfold cleanup at hrun
    obtain ⟨⟨s₂, w⟩, hloop, rfl⟩ := map_eq_ok hrun
    have hfirst := releaseSlot_books h hdue hquiet hwait hb
    set s₁ := releaseSlot s child
    -- INIT still waits as long as the second component says so
    have hend := foldlM_preserves (fun _ st => Books b ∅ st.1 ∧
      (st.2 = true → (st.1.mproc initProcNr).waiting = true)) ?_ (List.finRange nrProcs)
      ⟨hfirst, id⟩ hloop
    · exact hend.1
    rintro rp l ⟨t, w⟩ st' ⟨hbooks, hinit⟩ hround
    dsimp only at hround
    split at hround
    · set t₁ := (t.modify rp fun m => { m with parent := initProcNr }).note (.adopted rp) with ht1
      have hadopted : Books b ∅ t₁ := hbooks.adopt rp
      obtain ⟨hself, -, hwaits⟩ := adopted_mproc t rp
      rw [← ht1] at hself hwaits
      split at hround
      · next hnest =>
        -- INIT waits for one child only
        rw [Bool.and_eq_true] at hnest
        obtain ⟨t₂, hcall, rfl⟩ := map_eq_ok hround
        have hpar : (t₁.mproc rp).parent = initProcNr := by rw [hself]
        have hiw : (t₁.mproc initProcNr).waiting = true := (hwaits _).trans (hinit hnest.1)
        refine ⟨ih (hadopted.mono (Set.empty_subset _)) (hadopted.due rp id hnest.2).2 ?_ ?_ ?_ hcall,
          fun hw => absurd hw Bool.false_ne_true⟩
        · intro r l' hl'
          cases hl'
        · intro hpol
          rw [hpar]
          exact ⟨hadopted.waiting hpol _ hiw, (hadopted.toLedger.alone hpol hiw).1⟩
        · intro hpol
          rw [hpar]
          exact (hadopted.toLedger.alone hpol hiw).2
      · cases hround
        exact ⟨hadopted, fun hw => (hwaits _).trans (hinit hw)⟩
    · cases hround
      exact ⟨hbooks, hinit⟩

theorem leaveSlot_books (h : Books b {p} s) (hdue : Due s p) (hquiet : Quiet s.history)
    (hrun : leaveSlot s p = .ok s') :
    Books b {p} s' ∧ ((s'.mproc p).hanging = true → Due s' p) := by
  unfold leaveSlot at hrun
  split at hrun
  · next hwait =>
    have hclean := cleanup_books h hdue hquiet
      (fun hpol => ⟨h.waiting hpol _ hwait, (h.toLedger.alone hpol hwait).1⟩)
      (fun hpol => (h.toLedger.alone hpol hwait).2) hrun
    exact ⟨hclean.mono (Set.empty_subset _), fun hhang => (hclean.due p id hhang).2⟩
  · cases hrun
    have hhang : SameBooks {p} s (s.modify p fun m => { m with hanging := true }) :=
      SameBooks.modify s p (fun _ => rfl) (fun hp => absurd rfl hp) (fun hp => absurd rfl hp)
        (fun _ => id) fun _ => id
    refine ⟨(h.of_same hhang).note (fun _ => rfl) (fun _ => rfl) (fun _ => rfl) id trivial
      fun _ => ProcEvent.noConfusion, fun _ => ?_⟩
    rw [Due, mproc_note, mproc_modify_self]
    exact hdue

/-- `mm_exit` notes how the process ends. -/
theorem Books.ended (h : Books b {p} s) (status : ℕ) :
    let s' := (s.modify p fun m => { m with exitstatus := status }).note
      (.ended p (s.mproc p).sigstatus status)
    Books b {p} s' ∧ Due s' p := by
  have hstatus : SameBooks {p} s (s.modify p fun m => { m with exitstatus := status }) :=
    SameBooks.modify s p (fun _ => rfl) (fun hp => absurd rfl hp) (fun hp => absurd rfl hp)
      (fun _ => id) fun _ => id
  have h1 := h.of_same hstatus
  refine ⟨⟨⟨h1.pid, fun q hq hhang => ?_, h1.waiting, h1.paused, h1.calling, trivial, h1.audited⟩,
    h1.settled.cons fun _ => ProcEvent.noConfusion⟩, ?_⟩
  · refine ⟨(h1.due q hq hhang).1, ?_⟩
    have hne : p ≠ q := fun heq => hq heq.symm
    rw [Due, MmState.note, endOf, if_neg hne]
    exact (h1.due q hq hhang).2
  · rw [Due, mproc_note, mproc_modify_self, MmState.note, endOf, if_pos rfl]

theorem releaseMem_books {base size : ℕ} (h : Books b X s) (hrun : releaseMem s base size = .ok s') :
    Books b X s' := by
  exact h.of_same (SameBooks.of_undisturbed (releaseMem_undisturbed hrun))

theorem mmExit_books (h : Books b {p} s) {status : ℤ} (hrun : mmExit s p status = .ok s') :
    Books b ∅ s' := by
  unfold mmExit at hrun
  obtain ⟨s₁, hleave, hrun⟩ := bind_eq_ok hrun
  obtain ⟨⟨s₂, base, size⟩, hxit, hrun⟩ := bind_eq_ok hrun
  obtain ⟨hended, hdue⟩ := h.ended (status % 256).toNat
  obtain ⟨h1, hdue1⟩ := leaveSlot_books hended hdue (fun _ _ hl => by cases hl) hleave
  have hoff : SameBooks {p} s₁ (s₁.modify p fun m => { m with alarmOn := false }) :=
    SameBooks.alter s₁ p (fun _ => rfl) fun _ => rfl
  have h2 := h1.of_same hoff
  refine releaseMem_books ?_ hrun
  obtain ⟨r, -, hr⟩ := map_eq_ok hxit
  obtain ⟨rfl, -⟩ := Prod.mk.inj hr
  -- the kernel frees the slot
  have hxited : SameBooks {p} (s₁.modify p fun m => { m with alarmOn := false })
      { s₁.modify p fun m => { m with alarmOn := false } with
        slotFree := update (s₁.modify p fun m => { m with alarmOn := false }).slotFree p true } := by
    refine SameBooks.of_mproc rfl (fun q hq => ?_) rfl
    by_cases h : q = p
    · simp [h]
    · simpa [update_of_ne h] using hq
  refine (h2.of_same hxited).left fun hhang => ⟨update_self .., ?_⟩
  change ((s₁.modify p fun m => { m with alarmOn := false }).mproc p).hanging = true at hhang
  rw [mproc_modify_self] at hhang
  show endOf p s₁.history = some (((s₁.modify p fun m => { m with alarmOn := false }).mproc p).sigstatus,
    ((s₁.modify p fun m => { m with alarmOn := false }).mproc p).exitstatus)
  rw [mproc_modify_self]
  exact hdue1 hhang

end Leaving

/-! ## §4 Signals -/

section Signals

variable {b : Option (ProcNr × Asked)} {X : Set ProcNr} {s s' : MmState} {p : ProcNr} {env : Env}

/-- The kernel does not let a zombie be stopped, so that the status of a zombie stays. -/
theorem stopProc_books (h : Books b ∅ s) (p : ProcNr) (sigNr : ℕ) : Books b ∅ (stopProc s p sigNr) := by
  have hstop : SameBooks ∅ s (s.modify p fun m => { m with stopped := true }) :=
    SameBooks.alter s p (fun _ => rfl) fun _ => rfl
  have h1 := h.of_same hstop
  have hmproc : ((s.modify p fun m => { m with stopped := true }).mproc (s.mproc p).parent).waiting =
      (s.mproc (s.mproc p).parent).waiting := by
    by_cases hq : (s.mproc p).parent = p
    · rw [hq, mproc_modify_self]
    · rw [mproc_modify_of_ne hq]
  unfold stopProc
  simp only
  split
  · exact h
  next hfree =>
  split
  · next hwait =>
    rw [reply_modify _ _ _ (f := fun m => { m with waiting := false }) fun _ => ⟨rfl, rfl⟩]
    exact h1.tell _ _ _ (fun hpol => ⟨h1.waiting hpol _ hwait, (h1.toLedger.alone hpol hwait).1⟩)
      (fun hpol => (h1.toLedger.alone hpol hwait).2) (.inr (.inr ⟨p, sigNr, h.pid p, rfl⟩))
  · have hlive : (s.mproc p).hanging = false :=
      Bool.eq_false_iff.mpr fun hhang => hfree (h.due p id hhang).1
    refine h1.of_same (SameBooks.modify _ p (fun _ => rfl) (fun _ _ => id) (fun _ hhang => ?_)
      (fun _ => id) fun _ => id)
    rw [mproc_modify_self, hlive] at hhang
    cases hhang

/-- `unpause` answers the call that it interrupts. -/
theorem unpause_books (h : Books b ∅ s) (p : ProcNr) : Books b ∅ (unpause s p) := by
  unfold unpause
  simp only
  split
  · next hcond =>
    rw [Bool.and_eq_true] at hcond
    have hwoken : SameBooks ∅ s (s.modify p fun m => { m with paused := false }) :=
      SameBooks.modify s p (fun _ => rfl) (fun _ _ => id) (fun _ _ _ => rfl) (fun _ => id)
        fun _ hm => absurd hm Bool.false_ne_true
    -- a process that pauses does not wait for a child, and makes no other call
    have hnot : Polite s.history → (s.mproc p).waiting = false := fun hpol =>
      Bool.eq_false_iff.mpr fun hw => by
        rw [(h.toLedger.alone hpol hw).1] at hcond
        cases hcond.1
    refine (h.of_same hwoken).reply p eintr 0 (fun hpol => ⟨?_, ?_, ?_⟩)
      (fun hpol w call hb heq => ?_) fun _ _ => .inr (.inl rfl)
    · show pending p s.history ≠ none
      rw [h.paused hpol p hcond.1]
      exact Option.some_ne_none _
    · rw [mproc_modify_self]
      exact hnot hpol
    · rw [mproc_modify_self]
    · have hpause := (h.calling hpol w call hb).2.2
      rw [heq, hcond.1] at hpause
      cases hpause
  split
  · next hcond =>
    rw [Bool.and_eq_true] at hcond
    rw [reply_modify s p p (f := fun m => { m with waiting := false }) fun _ => ⟨rfl, rfl⟩]
    exact h.tell p eintr 0 (fun hpol => ⟨h.waiting hpol p hcond.1, (h.toLedger.alone hpol hcond.1).1⟩)
      (fun hpol => (h.toLedger.alone hpol hcond.1).2) (.inr (.inl rfl))
  · exact h

theorem killProc_books (h : Books b ∅ s) {sigNr : ℕ} (hrun : killProc s env p sigNr = .ok s') :
    Books b ∅ s' := by
  unfold killProc at hrun
  refine mmExit_books ?_ hrun
  refine (h.mono (Set.empty_subset {p})).of_same (SameBooks.modify s p (fun _ => rfl)
    (fun _ _ => id) (fun hp => absurd rfl hp) (fun _ => id) fun _ => id)

/-- **Signals and TRACE keep the books.** -/
theorem books_upkeep : Upkeep (Books b ∅) where
  undisturbed hs h := h.of_same (SameBooks.of_undisturbed hs)
  alarm s p _ h := h.of_same (SameBooks.alter s p (fun _ => rfl) fun _ => rfl)
  stopProc _ p sigNr h := stopProc_books h p sigNr
  unpause _ p h := unpause_books h p
  killProc h _ hrun := killProc_books h hrun
  mmExit h _ hrun := mmExit_books (h.mono (Set.empty_subset _)) hrun

end Signals

/-! ## §5 The other calls -/

section Calls

variable {b : Option (ProcNr × Asked)} {s s' : MmState} {who p : ProcNr} {env : Env}

/-- The child has a pid that is told to the kernel, and waits for its answer. -/
theorem Books.birth {child : ProcNr} {m : Mproc} (h : Books b ∅ s) (hself : s'.mproc child = m)
    (hother : ∀ q, q ≠ child → s'.mproc q = s.mproc q)
    (hfree : ∀ q, q ≠ child → s.slotFree q = true → s'.slotFree q = true)
    (hhist : s'.history = .named child m.pid :: .born child who :: s.history)
    (hhang : m.hanging = false)
    (hflags : Polite s.history → m.waiting = false ∧ m.paused = false)
    (hb : ∀ w call, b = some (w, call) → w ≠ child) : Books b ∅ s' := by
  have hpid : ∀ q, q ≠ child → pidOf q s'.history = pidOf q s.history := fun q hq => by
    simp [hhist, pidOf, Ne.symm hq]
  have hend : ∀ q, q ≠ child → endOf q s'.history = endOf q s.history := fun q hq => by
    simp [hhist, endOf, Ne.symm hq]
  have hask : ∀ q, q ≠ child → pending q s'.history = pending q s.history := fun q hq => by
    simp [hhist, pending, Ne.symm hq]
  have hpol : Polite s'.history → Polite s.history := fun hp => by
    rw [hhist] at hp
    exact hp
  refine ⟨?_, ?_⟩
  swap
  · rw [hhist]
    have hborn : Settled (.born child who :: s.history) := h.settled.cons fun _ => ProcEvent.noConfusion
    exact hborn.cons fun _ => ProcEvent.noConfusion
  constructor
  case pid =>
    intro q
    by_cases hq : q = child
    · rw [hq, hself, hhist, pidOf, if_pos rfl]
    · rw [hother q hq, hpid q hq]
      exact h.pid q
  case due =>
    intro q _ hz
    by_cases hq : q = child
    · rw [hq, hself, hhang] at hz
      cases hz
    · rw [Due, hend q hq, hother q hq]
      rw [hother q hq] at hz
      exact ⟨hfree q hq (h.due q id hz).1, (h.due q id hz).2⟩
  case waiting =>
    intro hp q hw
    by_cases hq : q = child
    · rw [hq, hself, (hflags (hpol hp)).1] at hw
      cases hw
    · rw [hask q hq]
      exact h.waiting (hpol hp) q (by rw [← hother q hq]; exact hw)
  case paused =>
    intro hp q hw
    by_cases hq : q = child
    · rw [hq, hself, (hflags (hpol hp)).2] at hw
      cases hw
    · rw [hask q hq]
      exact h.paused (hpol hp) q (by rw [← hother q hq]; exact hw)
  case calling =>
    intro hp w call hw
    rw [hask w (hb w call hw), hother w (hb w call hw)]
    exact h.calling (hpol hp) w call hw
  case audited =>
    rw [hhist]
    exact ⟨trivial, trivial, h.audited⟩

/-- The child of a caller, which is not blocked, waits for the answer to its `fork`. -/
theorem fork_books {child : ProcNr} {base : ℕ} {n : ℤ}
    (h : Books (some (who, call)) ∅ s) (hne : who ≠ child) (hhang : (s.mproc who).hanging = false) :
    Books (some (who, call)) ∅
      (reply (sysFork (withChild s who child base n) who child base) child 0 0) := by
  set s₃ := withChild s who child base n with hs3
  have hself : s₃.mproc child = childSlot (s.mproc who) who base n := withChild_self ..
  have hhist : (sysFork s₃ who child base).history =
      .named child (childSlot (s.mproc who) who base n).pid :: .born child who :: s.history := by
    rw [← hself]
    rfl
  have hborn : Books (some (who, call)) ∅ (sysFork s₃ who child base) := by
    refine h.birth hself (fun q hq => withChild_of_ne _ _ _ _ hq) (fun q hq hq' => ?_) hhist
      hhang (fun hpol => (h.calling hpol who call rfl).2) fun w call hw => ?_
    · show update s₃.slotFree child _ q = true
      rw [update_of_ne hq]
      exact hq'
    · cases hw
      exact hne
  have hflags : Polite (sysFork s₃ who child base).history →
      (s₃.mproc child).waiting = false ∧ (s₃.mproc child).paused = false := by
    intro hpol
    rw [hself]
    exact (h.calling hpol who call rfl).2
  have hasked : pending child (sysFork s₃ who child base).history = some .other := by
    rw [hhist]
    simp [pending]
  refine hborn.reply child 0 0 (fun hpol => ⟨?_, hflags hpol⟩) (fun _ w call hw => ?_)
    fun _ hwait => ?_
  · rw [hasked]
    exact Option.some_ne_none _
  · cases hw
    exact hne
  · rw [hasked] at hwait
    cases hwait

theorem doFork_books {r : MmState × ℤ} (h : Books (some (who, call)) ∅ s)
    (hlive : (s.mproc who).phase = .live) (hrun : doFork s who = .ok r) :
    Books (some (who, call)) ∅ r.1 := by
  obtain ⟨hin, hhang⟩ := phase_live.mp hlive
  rcases doFork_cases hrun with ⟨t, rfl⟩ | ⟨t, b, child, base, n, -, hfree, -, rfl⟩
  · exact h.of_same (SameBooks.of_mproc rfl (fun _ => id) rfl)
  have hne : who ≠ child := fun heq => by
    rw [heq, hfree] at hin
    cases hin
  have halloc : Books (some (who, call)) ∅ { s with holes := t, events := .alloc b :: s.events } :=
    h.of_same (SameBooks.of_mproc rfl (fun _ => id) rfl)
  exact fork_books halloc hne hhang

/-- The caller waits for an answer that comes later: the table notes what for. -/
theorem Books.block (h : Books (some (who, call)) ∅ s)
    (hpid : ∀ m, (f m).pid = m.pid) (hhang : ∀ m, (f m).hanging = m.hanging)
    (hend : ∀ m, endPart (f m) = endPart m)
    (hwait : ∀ m, (f m).waiting = true → m.waiting = true ∨ call = .wait)
    (hpause : ∀ m, (f m).paused = true → m.paused = true ∨ call = .pause) :
    Books none ∅ (s.modify who f) := by
  refine ⟨?_, h.settled⟩
  constructor
  case pid =>
    intro q
    by_cases hq : q = who
    · rw [hq, mproc_modify_self, hpid]
      exact h.pid who
    · rw [mproc_modify_of_ne hq]
      exact h.pid q
  case due =>
    intro q _ hz
    by_cases hq : q = who
    · rw [hq, mproc_modify_self, hhang] at hz
      obtain ⟨hfree, hdue⟩ := h.due who id hz
      have hends := hend (s.mproc who)
      simp only [endPart, Prod.mk.injEq] at hends
      rw [hq, Due, mproc_modify_self, hends.1, hends.2]
      exact ⟨hfree, hdue⟩
    · rw [mproc_modify_of_ne hq] at hz
      rw [Due, mproc_modify_of_ne hq]
      exact h.due q id hz
  case waiting =>
    intro hpol q hq
    by_cases heq : q = who
    · rw [heq, mproc_modify_self] at hq
      rw [heq]
      rcases hwait _ hq with hw | rfl
      · exact h.waiting hpol who hw
      · exact (h.calling hpol who .wait rfl).1
    · rw [mproc_modify_of_ne heq] at hq
      exact h.waiting hpol q hq
  case paused =>
    intro hpol q hq
    by_cases heq : q = who
    · rw [heq, mproc_modify_self] at hq
      rw [heq]
      rcases hpause _ hq with hw | rfl
      · exact h.paused hpol who hw
      · exact (h.calling hpol who .pause rfl).1
    · rw [mproc_modify_of_ne heq] at hq
      exact h.paused hpol q hq
  case calling =>
    intro _ _ _ hb
    cases hb
  case audited => exact h.audited

/-- WAIT is answered at once, or the caller waits. -/
theorem waitLoop_books {l : List ProcNr} {children : Bool} {r : MmState × Option ℤ}
    (h : Books (some (who, .wait)) ∅ s) (hquiet : Quiet s.history)
    (hrun : waitLoop s who l children = .ok r) :
    (r.2 = none → Books none ∅ r.1) ∧
      ∀ e, r.2 = some e → e = echild ∧ Books (some (who, .wait)) ∅ r.1 := by
  induction l generalizing children with
  | nil =>
    unfold waitLoop at hrun
    split at hrun
    · cases hrun
      refine ⟨fun _ => ?_, fun _ hr => by cases hr⟩
      dsimp only
      exact h.block (fun _ => rfl) (fun _ => rfl) (fun _ => rfl) (fun _ _ => .inr rfl)
        fun _ => .inl
    · cases hrun
      refine ⟨fun hr => absurd hr (Option.some_ne_none _), fun e hr => ?_⟩
      cases hr
      exact ⟨rfl, h⟩
  | cons rp rest ih =>
    unfold waitLoop at hrun
    simp only at hrun
    split at hrun
    · next hchild =>
      rw [Bool.and_eq_true, beq_iff_eq] at hchild
      split at hrun
      · next hhang =>
        obtain ⟨s₁, hclean, rfl⟩ := map_eq_ok hrun
        refine ⟨fun _ => ?_, fun _ hr => by cases hr⟩
        refine cleanup_books (h.done.mono (Set.empty_subset _)) (h.due rp id hhang).2 hquiet
          (fun hpol => ?_) (fun _ _ _ hb => by cases hb) hclean
        rw [hchild.2]
        have hcalling := h.calling hpol who .wait rfl
        exact ⟨hcalling.1, hcalling.2.2⟩
      · next hhang =>
        split at hrun
        · cases hrun
          refine ⟨fun _ => ?_, fun _ hr => by cases hr⟩
          have htold : Books none ∅ (reply s who (s.mproc rp).pid (127 + (s.mproc rp).sigstatus * 256)) :=
            h.respond (.inr (.inr ⟨rp, _, h.pid rp, rfl⟩))
          have hlive : ((reply s who (s.mproc rp).pid (127 + (s.mproc rp).sigstatus * 256)).mproc
              rp).hanging ≠ true := by
            rw [reply_mproc]
            exact hhang
          dsimp only
          exact htold.of_same (SameBooks.modify _ rp (fun _ => rfl) (fun _ _ => id)
            (fun _ hz => absurd hz hlive) (fun _ => id) fun _ => id)
        · exact ih hrun
    · exact ih hrun

/-- The new image starts instead of an answer. -/
theorem Books.start (h : Books (some (who, call)) ∅ s) : Books none ∅ (s.note (.started who)) := by
  have hother : ∀ q, q ≠ who → pending q (.started who :: s.history) = pending q s.history :=
    fun q hq => by simp [pending, Ne.symm hq]
  refine ⟨?_, h.settled.cons fun _ => ProcEvent.noConfusion⟩
  constructor
  case pid => exact h.pid
  case due => exact h.due
  case waiting =>
    intro hpol q hq
    have hne : q ≠ who := fun heq => by
      rw [heq] at hq
      exact Bool.eq_false_iff.mp (h.calling hpol who call rfl).2.1 hq
    exact (hother q hne).trans (h.waiting hpol q hq)
  case paused =>
    intro hpol q hq
    have hne : q ≠ who := fun heq => by
      rw [heq] at hq
      exact Bool.eq_false_iff.mp (h.calling hpol who call rfl).2.2 hq
    exact (hother q hne).trans (h.paused hpol q hq)
  case calling =>
    intro _ _ _ hb
    cases hb
  case audited => exact ⟨trivial, h.audited⟩

end Calls

/-! ## §6 Runs -/

section Runs

variable {s s' : MmState} {who : ProcNr} {env : Env}

/-- A call arrives: if the caller may make one, no flag says that it waits. -/
theorem getWork_books {r : Request} (h : Books none ∅ s) (who : ProcNr)
    (hr : r.asked = some call) : Books (some (who, call)) ∅ (getWork s who r) := by
  have hhist : (getWork s who r).history = .asked who call :: s.history := by
    simp [getWork, hr]
  have hother : ∀ q, q ≠ who → pending q (getWork s who r).history = pending q s.history :=
    fun q hq => by simp [hhist, pending, Ne.symm hq]
  have hidle : Polite (getWork s who r).history → pending who s.history = none ∧ Polite s.history := by
    rw [hhist]
    exact id
  have hflags : Polite (getWork s who r).history →
      (s.mproc who).waiting = false ∧ (s.mproc who).paused = false := by
    intro hpol
    obtain ⟨hnone, hpol⟩ := hidle hpol
    refine ⟨Bool.eq_false_iff.mpr fun hw => ?_, Bool.eq_false_iff.mpr fun hp => ?_⟩
    · have hcall := h.waiting hpol who hw
      rw [hnone] at hcall
      cases hcall
    · have hcall := h.paused hpol who hp
      rw [hnone] at hcall
      cases hcall
  refine ⟨?_, ?_⟩
  swap
  · rw [hhist]
    exact h.settled.cons fun _ => ProcEvent.noConfusion
  constructor
  case pid =>
    intro q
    rw [hhist]
    exact h.pid q
  case due =>
    intro q hX hz
    rw [Due, hhist]
    exact h.due q hX hz
  case waiting =>
    intro hpol q hq
    have hne : q ≠ who := fun heq => by
      rw [heq] at hq
      exact Bool.eq_false_iff.mp (hflags hpol).1 hq
    exact (hother q hne).trans (h.waiting (hidle hpol).2 q hq)
  case paused =>
    intro hpol q hq
    have hne : q ≠ who := fun heq => by
      rw [heq] at hq
      exact Bool.eq_false_iff.mp (hflags hpol).2 hq
    exact (hother q hne).trans (h.paused (hidle hpol).2 q hq)
  case calling =>
    intro hpol w k hw
    cases hw
    exact ⟨by simp [hhist, pending], hflags hpol⟩
  case audited =>
    rw [hhist]
    exact ⟨trivial, h.audited⟩

theorem handle_answered (h : Books none ∅ s) {r : Request}
    (hrun : handle (getWork s who r) env who r = .ok s') (hr : r.Answered) : Books none ∅ s' := by
  have hasked : r.asked = some .other := by
    cases r with
    | exit | fork | wait | pause | ksig => cases hr
    | exec | brk | kill | trace | signal | alarm | setuid => rfl
  have hwork := getWork_books h who hasked
  obtain ⟨s₁, h1, rfl | rfl | ⟨e, k, rfl⟩⟩ := books_upkeep.answered hwork hrun hr
  · exact h1.done
  · exact h1.start
  · exact h1.answer ..

/-- **One turn of the main loop keeps the books**, whatever is asked. -/
theorem handle_books (h : Books none ∅ s) {r : Request} (hask : mayAsk s who r = true)
    (hrun : handle (getWork s who r) env who r = .ok s') : Books none ∅ s' := by
  cases r with
  | exit status =>
    have hwork := getWork_books h who (show (Request.exit status).asked = some .other from rfl)
    exact (mmExit_books (hwork.mono (Set.empty_subset _)) hrun).done
  | fork =>
    have hwork := getWork_books h who (show Request.fork.asked = some .other from rfl)
    obtain ⟨r, hfork, rfl⟩ := map_eq_ok hrun
    exact (doFork_books hwork (phase_live.mpr (alive_iff.mp hask).2) hfork).answer ..
  | wait =>
    have hwork := getWork_books h who (show Request.wait.asked = some .wait from rfl)
    obtain ⟨⟨s₁, e⟩, hwait, rfl⟩ := map_eq_ok hrun
    obtain ⟨hlater, hnow⟩ := waitLoop_books hwork (fun _ _ hl => by cases hl) hwait
    cases e with
    | none => exact hlater rfl
    | some e =>
      obtain ⟨hnone, hbooks⟩ := hnow e rfl
      exact hbooks.respond (.inl hnone)
  | pause =>
    have hwork := getWork_books h who (show Request.pause.asked = some .pause from rfl)
    cases hrun
    exact hwork.block (fun _ => rfl) (fun _ => rfl) (fun _ => rfl) (fun _ => .inl) fun _ _ => .inr rfl
  | ksig sigMap => exact books_upkeep.doKsig h hrun
  | exec | brk | kill | trace | signal | alarm | setuid => exact handle_answered h hrun trivial

theorem bootState_books (org text data : ℕ) (t : HoleTable) : Books none ∅ (bootState org text data t) := by
  have hslot : ∀ p, (bootMproc org text data p).pid = (if p = initProcNr then initPid else 0) ∧
      (bootMproc org text data p).hanging = false ∧ (bootMproc org text data p).waiting = false ∧
      (bootMproc org text data p).paused = false := by
    intro p
    unfold bootMproc
    split
    · exact ⟨rfl, rfl, rfl, rfl⟩
    split
    · exact ⟨rfl, rfl, rfl, rfl⟩
    · exact ⟨rfl, rfl, rfl, rfl⟩
  refine ⟨?_, fun l₁ r l₂ hl => ?_⟩
  swap
  · cases l₁ <;> cases hl
  constructor
  case pid => exact fun p => (hslot p).1
  case due => exact fun p _ hp => absurd ((hslot p).2.1.symm.trans hp) Bool.false_ne_true
  case waiting => exact fun _ p hp => absurd ((hslot p).2.2.1.symm.trans hp) Bool.false_ne_true
  case paused => exact fun _ p hp => absurd ((hslot p).2.2.2.symm.trans hp) Bool.false_ne_true
  case calling =>
    intro _ _ _ hb
    cases hb
  case audited => exact trivial

theorem Reached.books {size org text data tot : ℕ} {safe : MmState → ProcNr → Request → Prop}
    (h : Reached size org text data tot safe s) : Books none ∅ s := by
  induction h with
  | boot hboot =>
    obtain ⟨holes, rfl⟩ := mmBoot_state hboot
    exact bootState_books org text data holes
  | step _ hask _ hrun ih => exact handle_books ih hask hrun

end Runs

end LisaMinix.Mm
