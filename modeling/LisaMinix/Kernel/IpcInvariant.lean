import LisaMinix.Kernel.ProcQueues

/-!
# The Invariant of the Process Table

What the flags of a process say about the queues it is on, and that every call of the kernel
keeps it so.

The invariant has two parts.  `Ready.Rep` relates the ready queues to the processes without a
flag; `Consistent` is about everything else.  A function of the kernel changes some flags and
then calls `ready` or `unready` to follow, so the two parts are proved one after the other.
For each function there is one theorem that says that it returns, which fields it changes, and
that the invariant holds again.
-/

namespace LisaMinix.Kernel

open LisaMinix.Library Function
open LisaMinix.Mm (nrProcs)

/-! ## §1 The invariant -/

/-- The process is to be on a ready queue. -/
def Runnable (pFlags : ProcPtr → Flags) (p : ProcPtr) : Prop :=
  pFlags p = Flags.zero ∧ ¬ isIdleHardware p

/-- What holds of the flags of one slot. -/
structure SlotOk (p : ProcPtr) (f : Flags) (getfrom : ℤ) (pendcount : ℕ) : Prop where
  /-- tasks and servers never exit -/
  system : ¬ isuserp p → f.slotFree = false
  /-- tasks are not signalled and not traced -/
  task : isKernelp p → f.pending = false ∧ f.sigPending = false ∧ f.stop = false
  /-- IDLE and HARDWARE never block -/
  pseudo : isIdleHardware p → f = Flags.zero
  /-- a process does not run before MM is done with its signals -/
  pending : f.pending = true → f.sigPending = true
  counted : pendcount ≠ 0 → f.sigPending = true
  /-- "receive from anyone" is never the second half of a blocked `BOTH` -/
  fromAny : f.receiving = true → getfrom = any → f.sending = false

/-- The task of a device, which interrupts are for. -/
def IsDriver (p : ProcPtr) : Prop := istaskp p ∧ p ≠ hardware

/-- The invariant, but for the ready queues. -/
structure Consistent (pFlags : ProcPtr → Flags) (pGetfrom : ProcPtr → ℤ)
    (pPendcount : ProcPtr → ℕ) (callers : Callers) (held : Held)
    (waiting : List (ProcPtr × ProcPtr)) : Prop where
  callers : callers.Rep waiting
  sending : ∀ p, (pFlags p).sending = true ↔ p ∈ waiting.map Prod.fst
  live : ∀ s d, (s, d) ∈ waiting → (pFlags s).slotFree = false ∧ (pFlags d).slotFree = false
  crossed : ∀ s d, s ≠ d → (s, d) ∈ waiting → (d, s) ∉ waiting
  held : ∃ l, held.Rep l ∧ ∀ p ∈ l, IsDriver p
  slots : ∀ p, SlotOk p (pFlags p) (pGetfrom p) (pPendcount p)

abbrev KState.Consistent (k : KState) : Prop :=
  Kernel.Consistent k.pFlags k.pGetfrom k.pPendcount k.callers k.held k.waiting

/-- The invariant of the process table. -/
structure Inv (k : KState) : Prop where
  rdy : k.rdy.Rep (Runnable k.pFlags)
  rest : k.Consistent
  /-- HARDWARE may send from the buffer `m` -/
  hardware : ¬ KState.badAddr (k.pMap hardware).data k.layout.addrM

/-! ## §2 Changes of the flags -/

section Flags

variable {pFlags : ProcPtr → Flags} {pGetfrom : ProcPtr → ℤ} {pPendcount : ProcPtr → ℕ}
  {callers : Callers} {held : Held} {waiting : List (ProcPtr × ProcPtr)}

variable {f : Flags} {p : ProcPtr}

theorem runnable_update : ∀ x, Runnable (update pFlags p f) x ↔
      (x = p ∧ f = Flags.zero ∧ ¬ isIdleHardware p) ∨ (x ≠ p ∧ Runnable pFlags x) := by
  intro x
  by_cases hx : x = p
  · subst hx
    simp [Runnable]
  · simp [Runnable, hx]

/-- A bit other than `SENDING` and `P_SLOT_FREE` changes. -/
theorem Consistent.setFlags
    (h : Consistent pFlags pGetfrom pPendcount callers held waiting)
    {g : ProcPtr → ℤ} {n : ProcPtr → ℕ} (hok : SlotOk p f (g p) (n p))
    (hs : f.sending = (pFlags p).sending) (hf : f.slotFree = (pFlags p).slotFree)
    (hg : ∀ x, x ≠ p → g x = pGetfrom x) (hn : ∀ x, x ≠ p → n x = pPendcount x) :
    Consistent (update pFlags p f) g n callers held waiting := by
  refine ⟨h.callers, fun x => ?_, fun s d hsd => ?_, h.crossed, h.held, fun x => ?_⟩
  · rw [← h.sending]
    by_cases hx : x = p
    · subst hx
      rw [update_self, hs]
    · rw [update_of_ne hx]
  · have hfree : ∀ x, (update pFlags p f x).slotFree = (pFlags x).slotFree := by
      intro x
      by_cases hx : x = p
      · subst hx
        rw [update_self, hf]
      · rw [update_of_ne hx]
    rw [hfree, hfree]
    exact h.live s d hsd
  · by_cases hx : x = p
    · subst hx
      rw [update_self]
      exact hok
    · rw [update_of_ne hx, hg x hx, hn x hx]
      exact h.slots x

/-- Only the number of unfinished signals changes. -/
theorem Consistent.setPendcount
    (h : Consistent pFlags pGetfrom pPendcount callers held waiting) {n : ProcPtr → ℕ}
    (hn : ∀ x, n x ≠ 0 → (pFlags x).sigPending = true) :
    Consistent pFlags pGetfrom n callers held waiting :=
  ⟨h.callers, h.sending, h.live, h.crossed, h.held,
    fun x => { h.slots x with counted := hn x }⟩

end Flags

section Slots

variable {p : ProcPtr} {f : Flags} {g : ℤ} {n : ℕ}

theorem SlotOk.not_pseudo (h : SlotOk p f g n) (hf : f ≠ Flags.zero) : ¬ isIdleHardware p :=
  fun hp => hf (h.pseudo hp)

theorem SlotOk.stop_receiving (h : SlotOk p f g n) :
    SlotOk p { f with receiving := false } g n where
  system := h.system
  task := h.task
  pseudo := fun hp => by rw [h.pseudo hp]; rfl
  pending := h.pending
  counted := h.counted
  fromAny := fun hr => by simp at hr

theorem SlotOk.start_receiving (h : SlotOk p f g n) (hreal : ¬ isIdleHardware p) {src : ℤ}
    (hany : src = any → f.sending = false) : SlotOk p { f with receiving := true } src n where
  system := h.system
  task := h.task
  pseudo := fun hp => absurd hp hreal
  pending := h.pending
  counted := h.counted
  fromAny := fun _ => hany

theorem SlotOk.start_sending (h : SlotOk p f g n) (hreal : ¬ isIdleHardware p)
    (hrec : f.receiving = false) : SlotOk p { f with sending := true } g n where
  system := h.system
  task := h.task
  pseudo := fun hp => absurd hp hreal
  pending := h.pending
  counted := h.counted
  fromAny := fun hr => by simp [hrec] at hr

theorem SlotOk.stop_sending (h : SlotOk p f g n) : SlotOk p { f with sending := false } g n where
  system := h.system
  task := h.task
  pseudo := fun hp => by rw [h.pseudo hp]; rfl
  pending := h.pending
  counted := h.counted
  fromAny := fun _ _ => rfl

theorem SlotOk.signalled (h : SlotOk p f g n) (hp : ¬ isKernelp p) (n' : ℕ) :
    SlotOk p { f with pending := true, sigPending := true } g n' where
  system := h.system
  task := fun hk => absurd hk hp
  pseudo := fun hi => absurd (by rcases hi with rfl | rfl <;> decide) hp
  pending := fun _ => rfl
  counted := fun _ => rfl
  fromAny := h.fromAny

theorem SlotOk.told (h : SlotOk p f g n) : SlotOk p { f with pending := false } g n where
  system := h.system
  task := fun hk => ⟨rfl, (h.task hk).2⟩
  pseudo := fun hp => by rw [h.pseudo hp]; rfl
  pending := fun hf => by simp at hf
  counted := h.counted
  fromAny := h.fromAny

theorem SlotOk.finished (h : SlotOk p f g n) (hf : f.pending = false) :
    SlotOk p { f with sigPending := false } g 0 where
  system := h.system
  task := fun hk => ⟨(h.task hk).1, rfl, (h.task hk).2.2⟩
  pseudo := fun hp => by rw [h.pseudo hp]; rfl
  pending := fun hp => by simp [hf] at hp
  counted := fun h0 => absurd rfl h0
  fromAny := h.fromAny

theorem SlotOk.set_stop (h : SlotOk p f g n) (hp : ¬ isKernelp p) (b : Bool) :
    SlotOk p { f with stop := b } g n where
  system := h.system
  task := fun hk => absurd hk hp
  pseudo := fun hi => absurd (by rcases hi with rfl | rfl <;> decide) hp
  pending := h.pending
  counted := h.counted
  fromAny := h.fromAny

end Slots

/-! ## §3 Following the flags on the ready queues -/

namespace KState

variable {k : KState} {p : ProcPtr} {R : ProcPtr → Prop}

/-- `p` is made ready, when its last flag has gone. -/
theorem readyIfZero_spec (h : k.rdy.Rep R) (hR : ∀ x, x ≠ p → (R x ↔ Runnable k.pFlags x))
    (hp : ¬ R p) (hreal : ¬ isIdleHardware p) :
    ∃ r, k.readyIfZero p = .ok { k with rdy := r } ∧ r.Rep (Runnable k.pFlags) ∧
      r.procPtr = k.rdy.procPtr := by
  unfold readyIfZero
  by_cases hzero : k.pFlags p = Flags.zero
  · obtain ⟨r, hr, hrep, hproc⟩ := Ready.ready_rep h hp
    refine ⟨r, by rw [if_pos hzero, hr]; rfl, hrep.congr fun x => ?_, hproc⟩
    by_cases hx : x = p
    · subst hx
      simp [Runnable, hzero, hreal]
    · simp [hx, hR x hx]
  · refine ⟨k.rdy, by rw [if_neg hzero], h.congr fun x => ?_, rfl⟩
    by_cases hx : x = p
    · subst hx
      simp [hp, Runnable, hzero]
    · exact hR x hx

/-- `p` is taken from the ready queue, before it gets a flag. -/
theorem unreadyIfZero_spec (h : k.rdy.Rep (Runnable k.pFlags)) (p : ProcPtr) :
    ∃ r, k.unreadyIfZero p = .ok { k with rdy := r } ∧
      r.Rep fun x => Runnable k.pFlags x ∧ x ≠ p := by
  unfold unreadyIfZero
  by_cases hzero : k.pFlags p = Flags.zero
  · obtain ⟨r, hr, hrep⟩ := Ready.unready_rep h p
    exact ⟨r, by rw [if_pos hzero, hr]; rfl, hrep⟩
  · refine ⟨k.rdy, by rw [if_neg hzero], h.congr fun x => ?_⟩
    constructor
    · intro hx
      exact ⟨hx, fun hxp => hzero (hxp ▸ hx.1)⟩
    · exact fun hx => hx.1

/-- After `unreadyIfZero`, the process gets a flag. -/
theorem rep_blocked {r : Ready} {pFlags : ProcPtr → Flags}
    (h : r.Rep fun x => Runnable pFlags x ∧ x ≠ p) (hf : f ≠ Flags.zero) :
    r.Rep (Runnable (update pFlags p f)) := by
  refine h.congr fun x => ?_
  rw [runnable_update]
  constructor
  · rintro ⟨hx, hxp⟩
    exact .inr ⟨hxp, hx⟩
  · rintro (⟨-, hzero, -⟩ | ⟨hxp, hx⟩)
    · exact absurd hzero hf
    · exact ⟨hx, hxp⟩

end KState

/-! ## §4 `mini_send` -/

theorem isokprocn_procNumber (p : ProcPtr) : isokprocn (procNumber p) := by
  have := p.isLt
  simp only [isokprocn, procNumber]
  omega

@[simp] theorem procAddr_procNumber (p : ProcPtr) : procAddr (procNumber p) = some p := by
  rw [procAddr, dif_pos (isokprocn_procNumber p)]
  simp [procNumber]

theorem procAddr_eq_some {n : ℤ} (h : procAddr n = some p) : n = procNumber p := by
  unfold procAddr at h
  split at h
  next hn =>
    obtain ⟨h₀, h₁⟩ := hn
    simp only [Option.some.injEq] at h
    subst h
    simp only [procNumber]
    omega
  next => simp at h

theorem procAddr_of_isokprocn {n : ℤ} (h : isokprocn n) : ∃ p, procAddr n = some p :=
  ⟨_, dif_pos h⟩

theorem isokprocn_of_isservn {n : ℤ} (h : isservn n) : isokprocn n := by
  obtain ⟨h₀, h₁⟩ := h
  simp only [isokprocn, nrProcs, nrTasks]
  omega

/-- What `mini_send` can do. -/
inductive Sent (k : KState) (s : ProcPtr) (dest mPtr : ℤ) : ℤ → KState → Prop
  | refused {n : ℤ} (hn : n ≠ ok) : Sent k s dest mPtr n k
  | delivered {d : ProcPtr} {r : Ready} (hd : procAddr dest = some d)
      (haddr : ¬ KState.badAddr (k.pMap s).data mPtr) (hacc : k.accepts d s = true)
      (hproc : r.procPtr = k.rdy.procPtr) :
      Sent k s dest mPtr ok { k.delivered s d mPtr with rdy := r }
  | queued {d : ProcPtr} {r : Ready} {c : Callers} (hd : procAddr dest = some d)
      (haddr : ¬ KState.badAddr (k.pMap s).data mPtr) (hacc : k.accepts d s = false)
      (hcross : (d, s) ∉ k.waiting) :
      Sent k s dest mPtr ok { k.queued s d mPtr with rdy := r, callers := c }

namespace KState

variable {k : KState} {s d p : ProcPtr} {mPtr dest : ℤ}

theorem not_waiting (h : k.Consistent) (hs : (k.pFlags s).sending = false) (d : ProcPtr) :
    (s, d) ∉ k.waiting := by
  intro hmem
  have := (h.sending s).mpr (List.mem_map_of_mem (f := Prod.fst) hmem)
  simp [hs] at this

theorem locked_eq (h : k.Consistent) : k.locked s d = .ok (decide ((d, s) ∈ k.waiting)) := by
  unfold locked
  cases hd : (k.pFlags d).sending with
  | true => simp [h.callers.isCaller_eq]
  | false => simp [not_waiting h hd]

theorem deliver_spec (h : Inv k) (hacc : k.accepts d s = true) (mPtr : ℤ) :
    ∃ r, k.deliver s d mPtr = .ok { k.delivered s d mPtr with rdy := r } ∧
      Inv { k.delivered s d mPtr with rdy := r } ∧ r.procPtr = k.rdy.procPtr := by
  simp only [accepts, Bool.and_eq_true, Bool.not_eq_true'] at hacc
  obtain ⟨⟨hrec, -⟩, -⟩ := hacc
  have hne : k.pFlags d ≠ Flags.zero := fun hzero => by simp [hzero, Flags.zero] at hrec
  obtain ⟨r, hr, hrep, hproc⟩ := readyIfZero_spec (k := k.delivered s d mPtr) (p := d)
    (R := Runnable k.pFlags) h.rdy
    (fun x hx => by simp [delivered, setFlags, put, runnable_update, hx])
    (fun hd => hne hd.1) ((h.rest.slots d).not_pseudo hne)
  refine ⟨r, hr, ⟨hrep, ?_, h.hardware⟩, hproc⟩
  exact h.rest.setFlags (h.rest.slots d).stop_receiving rfl rfl (fun _ _ => rfl) fun _ _ => rfl

theorem blockSender_spec (h : Inv k) (hs : k.pFlags s = Flags.zero) (hreal : ¬ isIdleHardware s)
    (hlive : (k.pFlags d).slotFree = false) (hcross : (d, s) ∉ k.waiting) (mPtr : ℤ) :
    ∃ r c, k.blockSender s d mPtr = .ok { k.queued s d mPtr with rdy := r, callers := c } ∧
      Inv { k.queued s d mPtr with rdy := r, callers := c } := by
  obtain ⟨r, hr, hrep⟩ := unreadyIfZero_spec h.rdy s
  have hnot : s ∉ k.waiting.map Prod.fst := by
    rw [← h.rest.sending, hs]
    simp [Flags.zero]
  obtain ⟨c, hc, hcrep⟩ := h.rest.callers.enqueue hnot d
  refine ⟨r, c, ?_, ⟨rep_blocked hrep ?_, ?_, h.hardware⟩⟩
  · unfold blockSender
    rw [hr, ok_bind, hc]
    rfl
  · intro hzero
    simpa [Flags.zero] using congrArg Flags.sending hzero
  · have hflags : ∀ x, (update k.pFlags s { k.pFlags s with sending := true } x).slotFree =
        (k.pFlags x).slotFree := by
      intro x
      by_cases hx : x = s
      · simp [hx]
      · simp [hx]
    refine ⟨hcrep, fun x => ?_, fun a b hab => ?_, fun a b hab hmem => ?_, h.rest.held, fun x => ?_⟩
    · by_cases hx : x = s
      · subst hx
        simp [queued, setFlags]
      · have := h.rest.sending x
        simpa [queued, setFlags, hx] using this
    · rw [show ({ k.queued s d mPtr with rdy := r, callers := c } : KState).pFlags =
        update k.pFlags s { k.pFlags s with sending := true } from rfl, hflags, hflags]
      rcases List.mem_append.mp hab with hold | hnew
      · exact h.rest.live a b hold
      · simp only [List.mem_singleton, Prod.mk.injEq] at hnew
        obtain ⟨rfl, rfl⟩ := hnew
        exact ⟨by rw [hs]; rfl, hlive⟩
    · -- the new pair crosses no old one, by the check for deadlock
      simp only [queued, List.mem_append, List.mem_singleton, Prod.mk.injEq, not_or] at hmem ⊢
      rcases hmem with hold | ⟨rfl, rfl⟩
      · refine ⟨h.rest.crossed a b hab hold, ?_⟩
        rintro ⟨rfl, rfl⟩
        exact hcross hold
      · exact ⟨hcross, fun heq => hab heq.2⟩
    · by_cases hx : x = s
      · subst hx
        have hslot := (h.rest.slots x).start_sending hreal (by rw [hs]; rfl)
        simpa [queued, setFlags] using hslot
      · simpa [queued, setFlags, hx] using h.rest.slots x

/-- `mini_send` returns, and keeps the invariant. -/
theorem miniSend_spec (h : Inv k) (hs : k.pFlags s = Flags.zero) (hreal : ¬ isIdleHardware s)
    (hdest : isuserp s ∨ isokprocn dest) (mPtr : ℤ) :
    ∃ n k', k.miniSend s dest mPtr = .ok (n, k') ∧ Inv k' ∧ Sent k s dest mPtr n k' := by
  unfold miniSend
  by_cases huser : isuserp s ∧ ¬ isservn dest
  · exact ⟨_, _, if_pos huser, h, .refused (by decide)⟩
  rw [if_neg huser]
  have hok : isokprocn dest := by
    by_cases hs' : isuserp s
    · exact isokprocn_of_isservn (by simpa [hs'] using huser)
    · exact hdest.resolve_left hs'
  obtain ⟨d, hd⟩ := procAddr_of_isokprocn hok
  simp only [hd]
  by_cases hfree : (k.pFlags d).slotFree = true
  · exact ⟨_, _, if_pos hfree, h, .refused (by decide)⟩
  rw [if_neg hfree]
  by_cases hbad : badAddr (k.pMap s).data mPtr
  · exact ⟨_, _, if_pos hbad, h, .refused (by decide)⟩
  rw [if_neg hbad, locked_eq h.rest, ok_bind]
  by_cases hcross : (d, s) ∈ k.waiting
  · exact ⟨elocked, k, by simp only [hcross, decide_true, if_true], h, .refused (by decide)⟩
  simp only [hcross, decide_false, Bool.false_eq_true, if_false]
  cases hacc : k.accepts d s with
  | true =>
    obtain ⟨r, hr, hinv, hproc⟩ := deliver_spec h hacc mPtr
    simp only [if_true, hr, map_ok]
    exact ⟨_, _, rfl, hinv, .delivered hd hbad hacc hproc⟩
  | false =>
    obtain ⟨r, c, hr, hinv⟩ := blockSender_spec h hs hreal (by simpa using hfree) hcross mPtr
    simp only [Bool.false_eq_true, if_false, hr, map_ok]
    exact ⟨_, _, rfl, hinv, .queued hd hbad hacc hcross⟩

end KState

/-! ## §5 Signals -/

/-- Two states between which no message was sent or taken. -/
structure SameMail (k k' : KState) : Prop where
  layout : k'.layout = k.layout
  memory : k'.memory = k.memory
  log : k'.log = k.log
  arrived : k'.arrived = k.arrived
  waiting : k'.waiting = k.waiting
  pGetfrom : k'.pGetfrom = k.pGetfrom
  pMessbuf : k'.pMessbuf = k.pMessbuf
  pIntBlocked : k'.pIntBlocked = k.pIntBlocked
  held : k'.held = k.held
  pMap : k'.pMap = k.pMap
  slotFree : ∀ p, (k'.pFlags p).slotFree = (k.pFlags p).slotFree
  sending : ∀ p, (k'.pFlags p).sending = (k.pFlags p).sending
  receiving : ∀ p, (k'.pFlags p).receiving = (k.pFlags p).receiving

theorem SameMail.refl (k : KState) : SameMail k k :=
  ⟨rfl, rfl, rfl, rfl, rfl, rfl, rfl, rfl, rfl, rfl, fun _ => rfl, fun _ => rfl, fun _ => rfl⟩

theorem SameMail.trans {k k' k'' : KState} (h : SameMail k k') (h' : SameMail k' k'') :
    SameMail k k'' where
  layout := h'.layout.trans h.layout
  memory := h'.memory.trans h.memory
  log := h'.log.trans h.log
  arrived := h'.arrived.trans h.arrived
  waiting := h'.waiting.trans h.waiting
  pGetfrom := h'.pGetfrom.trans h.pGetfrom
  pMessbuf := h'.pMessbuf.trans h.pMessbuf
  pIntBlocked := h'.pIntBlocked.trans h.pIntBlocked
  held := h'.held.trans h.held
  pMap := h'.pMap.trans h.pMap
  slotFree := fun p => (h'.slotFree p).trans (h.slotFree p)
  sending := fun p => (h'.sending p).trans (h.sending p)
  receiving := fun p => (h'.receiving p).trans (h.receiving p)

theorem SameMail.with_rdy {k k' : KState} (h : SameMail k k') (r : Ready) :
    SameMail k { k' with rdy := r } :=
  ⟨h.layout, h.memory, h.log, h.arrived, h.waiting, h.pGetfrom, h.pMessbuf, h.pIntBlocked,
    h.held, h.pMap, h.slotFree, h.sending, h.receiving⟩

theorem SameMail.of_rdy {k k' : KState} {r : Ready} (h : SameMail { k with rdy := r } k') :
    SameMail k k' :=
  ⟨h.layout, h.memory, h.log, h.arrived, h.waiting, h.pGetfrom, h.pMessbuf, h.pIntBlocked,
    h.held, h.pMap, h.slotFree, h.sending, h.receiving⟩

/-- A change of flags that messages do not depend on. -/
theorem SameMail.of_flags {k k' : KState} (hflags : k'.pFlags = update k.pFlags p f)
    (hsame : k'.layout = k.layout ∧ k'.memory = k.memory ∧ k'.log = k.log ∧
      k'.arrived = k.arrived ∧ k'.waiting = k.waiting ∧ k'.pGetfrom = k.pGetfrom ∧
      k'.pMessbuf = k.pMessbuf ∧ k'.pIntBlocked = k.pIntBlocked ∧ k'.held = k.held ∧
      k'.pMap = k.pMap) (hf : f.slotFree = (k.pFlags p).slotFree)
    (hs : f.sending = (k.pFlags p).sending) (hr : f.receiving = (k.pFlags p).receiving) :
    SameMail k k' := by
  obtain ⟨hlayout, hmemory, hlog, harrived, hwaiting, hgetfrom, hmessbuf, hint, hheld, hmap⟩ := hsame
  refine ⟨hlayout, hmemory, hlog, harrived, hwaiting, hgetfrom, hmessbuf, hint, hheld, hmap,
    fun x => ?_, fun x => ?_, fun x => ?_⟩
  · rw [hflags]
    by_cases hx : x = p
    · simp [hx, hf]
    · simp [hx]
  · rw [hflags]
    by_cases hx : x = p
    · simp [hx, hs]
    · simp [hx]
  · rw [hflags]
    by_cases hx : x = p
    · simp [hx, hr]
    · simp [hx]

/-- MM was told of the signals of some process. -/
def Informed (k k' : KState) : Prop :=
  k.mmIdle = true ∧ k.inform = .ok k' ∧ ∃ rp, k.pendingProc = some rp ∧
    SameMail ((k.writeKsig rp).delivered hardware mm k.layout.addrM) k'

/-- What `cause_sig` can do. -/
inductive Caused (k : KState) (rp : ProcPtr) (sigNr : ℕ) : KState → Prop
  | already (hbit : (k.pPending rp).testBit (sigNr - 1) = true) : Caused k rp sigNr k
  | noted (hbit : (k.pPending rp).testBit (sigNr - 1) = false)
      (hpend : (k.pFlags rp).pending = true) : Caused k rp sigNr (k.noteSig rp sigNr)
  | newly {r : Ready} (hbit : (k.pPending rp).testBit (sigNr - 1) = false)
      (hpend : (k.pFlags rp).pending = false) :
      Caused k rp sigNr (({ k.noteSig rp sigNr with rdy := r } : KState).signalled rp)
  | told {r : Ready} {k' : KState} (hbit : (k.pPending rp).testBit (sigNr - 1) = false)
      (hpend : (k.pFlags rp).pending = false)
      (h : Informed (({ k.noteSig rp sigNr with rdy := r } : KState).signalled rp) k') :
      Caused k rp sigNr k'

theorem SameMail.noteSig (k : KState) (rp : ProcPtr) (sigNr : ℕ) :
    SameMail k (k.noteSig rp sigNr) :=
  ⟨rfl, rfl, rfl, rfl, rfl, rfl, rfl, rfl, rfl, rfl, fun _ => rfl, fun _ => rfl, fun _ => rfl⟩

theorem SameMail.signalled (k : KState) (rp : ProcPtr) (sigNr : ℕ) (r : Ready) :
    SameMail k (({ k.noteSig rp sigNr with rdy := r } : KState).signalled rp) :=
  SameMail.of_flags (p := rp) rfl ⟨rfl, rfl, rfl, rfl, rfl, rfl, rfl, rfl, rfl, rfl⟩ rfl rfl rfl

/-- What `cause_sig` does to messages: nothing, or MM is told. -/
theorem Caused.mail {k k' : KState} {rp : ProcPtr} {sigNr : ℕ} (h : Caused k rp sigNr k') :
    SameMail k k' ∨ ∃ k₁, SameMail k k₁ ∧ Informed k₁ k' := by
  cases h with
  | already => exact .inl (.refl k)
  | noted => exact .inl (.noteSig k rp sigNr)
  | newly => exact .inl (.signalled k rp sigNr _)
  | told _ _ h => exact .inr ⟨_, .signalled k rp sigNr _, h⟩

namespace KState

variable {k : KState} {p rp : ProcPtr}

theorem finishSig_spec (h : Inv k) (hp : (k.pFlags p).pending = true → k.pPendcount p ≠ 1) :
    ∃ k', k.finishSig p = .ok k' ∧ Inv k' ∧ SameMail k k' := by
  unfold finishSig
  by_cases h0 : k.pPendcount p = 0
  · exact ⟨k, if_pos h0, h, .refl k⟩
  rw [if_neg h0]
  have hsig := (h.rest.slots p).counted h0
  have hne : k.pFlags p ≠ Flags.zero := fun hzero => by simp [hzero, Flags.zero] at hsig
  by_cases h1 : k.pPendcount p = 1
  · -- the last signal: the process may run again
    rw [if_pos h1]
    have hpend : (k.pFlags p).pending = false := by
      cases hpend : (k.pFlags p).pending with
      | false => rfl
      | true => exact absurd h1 (hp hpend)
    obtain ⟨r, hr, hrep, -⟩ := readyIfZero_spec (p := p) (R := Runnable k.pFlags)
      (k := { k.setFlags p { k.pFlags p with sigPending := false } with
        pPendcount := update k.pPendcount p 0 }) h.rdy
      (fun x hx => by simp [setFlags, runnable_update, hx]) (fun hx => hne hx.1)
      ((h.rest.slots p).not_pseudo hne)
    refine ⟨_, hr, ⟨hrep, ?_, h.hardware⟩, SameMail.of_flags (p := p) rfl
      ⟨rfl, rfl, rfl, rfl, rfl, rfl, rfl, rfl, rfl, rfl⟩ rfl rfl rfl⟩
    refine h.rest.setFlags (p := p) ?_ rfl rfl (fun _ _ => rfl)
      fun x hx => update_of_ne hx _ _
    simpa [setFlags] using (h.rest.slots p).finished hpend
  · refine ⟨_, if_neg h1, ⟨h.rdy, h.rest.setPendcount fun x hx => ?_, h.hardware⟩,
      ⟨rfl, rfl, rfl, rfl, rfl, rfl, rfl, rfl, rfl, rfl, fun _ => rfl, fun _ => rfl, fun _ => rfl⟩⟩
    by_cases hxp : x = p
    · rw [hxp, hsig]
    · dsimp only at hx
      rw [update_of_ne hxp] at hx
      exact (h.rest.slots x).counted hx

theorem informed_spec (rp : ProcPtr) (h : Inv k) (hrp : (k.pFlags rp).pending = true) :
    ∃ k', k.informed rp = .ok k' ∧ Inv k' ∧ SameMail k k' := by
  have hsig := (h.rest.slots rp).pending hrp
  have hne : k.pFlags rp ≠ Flags.zero := fun hzero => by simp [hzero, Flags.zero] at hrp
  -- "remains inhibited by SIG_PENDING"
  have htold : Inv (k.told rp) := by
    refine ⟨h.rdy.congr fun x => ?_, ?_, h.hardware⟩
    · simp only [told, setFlags, runnable_update]
      by_cases hx : x = rp
      · subst hx
        have hne' : ({ k.pFlags x with pending := false } : Flags) ≠ Flags.zero := fun hzero => by
          simpa [Flags.zero, hsig] using congrArg Flags.sigPending hzero
        simp [Runnable, hne, hne']
      · simp [hx]
    · exact h.rest.setFlags (h.rest.slots rp).told rfl rfl (fun _ _ => rfl) fun _ _ => rfl
  have hmail : SameMail k (k.told rp) :=
    SameMail.of_flags (p := rp) rfl ⟨rfl, rfl, rfl, rfl, rfl, rfl, rfl, rfl, rfl, rfl⟩ rfl rfl rfl
  unfold informed
  by_cases hstk : k.pPending rp = 2 ^ 15
  · obtain ⟨k', hk', hinv, hsame⟩ := finishSig_spec (p := rp) htold (by simp [told, setFlags])
    refine ⟨{ k' with rdy := pickProc k'.rdy }, ?_, ⟨hinv.rdy.pickProc, hinv.rest, hinv.hardware⟩,
      hmail.trans (hsame.with_rdy _)⟩
    rw [if_pos hstk, hk']
    rfl
  · refine ⟨{ k.told rp with rdy := pickProc k.rdy }, ?_, ⟨htold.rdy.pickProc, htold.rest,
      htold.hardware⟩, hmail.with_rdy _⟩
    rw [if_neg hstk]
    rfl

/-- `inform` returns when MM is waiting for anyone. -/
theorem inform_spec (h : Inv k) (hmm : k.mmIdle = true) :
    ∃ k', k.inform = .ok k' ∧ Inv k' ∧ (k' = k ∨ Informed k k') := by
  have hmm' := hmm
  simp only [mmIdle, Bool.and_eq_true, decide_eq_true_eq] at hmm'
  obtain ⟨hrec, hany⟩ := hmm'
  have hsend := (h.rest.slots mm).fromAny hrec hany
  cases hpend : k.pendingProc with
  | none => exact ⟨k, by simp only [inform, hpend], h, .inl rfl⟩
  | some rp =>
    have hw : Inv (k.writeKsig rp) := ⟨h.rdy, h.rest, h.hardware⟩
    have hacc : (k.writeKsig rp).accepts mm hardware = true := by
      simp [accepts, writeKsig, wanted, hrec, hsend, hany]
    obtain ⟨r, hr, hinv, -⟩ := deliver_spec hw hacc k.layout.addrM
    have hsent : (k.writeKsig rp).miniSend hardware (procNumber mm) k.layout.addrM =
        .ok (ok, { (k.writeKsig rp).delivered hardware mm k.layout.addrM with rdy := r }) := by
      have hlive : ((k.writeKsig rp).pFlags mm).slotFree = false :=
        (h.rest.slots mm).system (by decide)
      have hcross : (mm, hardware) ∉ (k.writeKsig rp).waiting := not_waiting hw.rest hsend hardware
      have hbad : ¬ badAddr ((k.writeKsig rp).pMap hardware).data k.layout.addrM := h.hardware
      unfold miniSend
      rw [if_neg (by decide)]
      simp only [procAddr_procNumber, hlive, Bool.false_eq_true, if_false]
      rw [if_neg hbad, locked_eq hw.rest, ok_bind]
      simp only [hcross, decide_false, Bool.false_eq_true, if_false, hacc, if_true, hr, map_ok]
    have hrp : (k.pFlags rp).pending = true := by
      have := List.find?_some hpend
      simp only [Bool.and_eq_true] at this
      exact this.2
    obtain ⟨k', hk', hinv', hsame⟩ := informed_spec rp hinv (by
      by_cases hx : rp = mm
      · subst hx
        simpa [delivered, setFlags, put, writeKsig] using hrp
      · simpa [delivered, setFlags, put, writeKsig, hx] using hrp)
    have hrun : k.inform = .ok k' := by
      unfold inform
      simp only [hpend, hsent, ok_bind, ne_eq, not_true_eq_false, if_false]
      exact hk'
    exact ⟨k', hrun, hinv', .inr ⟨hmm, hrun, rp, hpend, hsame.of_rdy⟩⟩

/-- A signal is pending for a process that had none. -/
theorem newlyPending_spec (h : Inv k) (hrp : ¬ isKernelp rp) (sigNr : ℕ)
    (hbit : (k.pPending rp).testBit (sigNr - 1) = false) (hpend : (k.pFlags rp).pending = false) :
    ∃ k', (k.noteSig rp sigNr).newlyPending rp = .ok k' ∧ Inv k' ∧ Caused k rp sigNr k' := by
  obtain ⟨r, hr, hrep⟩ := unreadyIfZero_spec (k := k.noteSig rp sigNr) h.rdy rp
  have hinv : Inv (({ k.noteSig rp sigNr with rdy := r } : KState).signalled rp) := by
    refine ⟨rep_blocked hrep ?_, ?_, h.hardware⟩
    · intro hzero
      simpa [Flags.zero] using congrArg Flags.pending hzero
    · refine h.rest.setFlags ((h.rest.slots rp).signalled hrp _) rfl rfl (fun _ _ => rfl)
        fun x hx => update_of_ne hx _ _
  unfold newlyPending
  rw [hr, ok_bind]
  cases hmm : (({ k.noteSig rp sigNr with rdy := r } : KState).signalled rp).mmIdle with
  | true =>
    obtain ⟨k', hk', hinv', hout⟩ := inform_spec hinv hmm
    refine ⟨k', by simpa [hmm] using hk', hinv', ?_⟩
    rcases hout with rfl | hout
    · exact .newly hbit hpend
    · exact .told hbit hpend hout
  | false => exact ⟨_, by simp [hmm], hinv, .newly hbit hpend⟩

/-- `cause_sig` returns, and keeps the invariant. -/
theorem causeSig_spec (h : Inv k) (hrp : ¬ isKernelp rp) (sigNr : ℕ) :
    ∃ k', k.causeSig rp sigNr = .ok k' ∧ Inv k' ∧ Caused k rp sigNr k' := by
  unfold causeSig
  by_cases hbit : (k.pPending rp).testBit (sigNr - 1) = true
  · exact ⟨k, if_pos hbit, h, .already hbit⟩
  rw [if_neg hbit]
  have hbit' := Bool.eq_false_of_not_eq_true hbit
  by_cases hpend : (k.pFlags rp).pending = true
  · refine ⟨_, if_pos hpend, ⟨h.rdy, h.rest.setPendcount fun x hx => ?_, h.hardware⟩,
      .noted hbit' hpend⟩
    by_cases hxp : x = rp
    · rw [hxp]
      exact (h.rest.slots rp).pending hpend
    · simp only [noteSig, update_of_ne hxp] at hx
      exact (h.rest.slots x).counted hx
  · rw [if_neg hpend]
    exact newlyPending_spec h hrp sigNr hbit' (Bool.eq_false_of_not_eq_true hpend)

end KState

/-! ## §6 `mini_rec` and `sys_call` -/

/-- The sender `s` leaves the queue it is on, and its flags become `f`. -/
theorem Consistent.leave {pFlags : ProcPtr → Flags} {pGetfrom : ProcPtr → ℤ}
    {pPendcount n : ProcPtr → ℕ} {callers c : Callers} {held : Held}
    {waiting : List (ProcPtr × ProcPtr)}
    (h : Consistent pFlags pGetfrom pPendcount callers held waiting) {s : ProcPtr}
    (hc : c.Rep (waiting.filter fun x => decide (x.1 ≠ s)))
    (hok : SlotOk s f (pGetfrom s) (n s)) (hs : f.sending = false)
    (hlive : f.slotFree = true → ∀ x, (x, s) ∉ waiting)
    (hfree : f.slotFree = false → (pFlags s).slotFree = false)
    (hn : ∀ x, x ≠ s → n x = pPendcount x) :
    Consistent (update pFlags s f) pGetfrom n c held
      (waiting.filter fun x => decide (x.1 ≠ s)) := by
  have hmem : ∀ a b, (a, b) ∈ waiting.filter (fun x => decide (x.1 ≠ s)) ↔
      (a, b) ∈ waiting ∧ a ≠ s := by
    intro a b
    simp
  refine ⟨hc, fun x => ?_, fun a b hab => ?_, fun a b hne hab => ?_, h.held, fun x => ?_⟩
  · by_cases hx : x = s
    · subst hx
      simp [hs]
    · have := h.sending x
      simp only [update_of_ne hx, this, List.mem_map, Prod.exists, exists_and_right,
        exists_eq_right, hmem]
      exact ⟨fun hd => ⟨hd, hx⟩, fun hd => hd.1⟩
  · obtain ⟨hmem', hne⟩ := (hmem a b).mp hab
    obtain ⟨ha, hb⟩ := h.live a b hmem'
    rw [update_of_ne hne]
    refine ⟨ha, ?_⟩
    by_cases hbs : b = s
    · subst hbs
      rw [update_self]
      cases hf : f.slotFree with
      | false => rfl
      | true => exact absurd hmem' (hlive hf a)
    · rw [update_of_ne hbs]
      exact hb
  · exact fun hba => h.crossed a b hne ((hmem a b).mp hab).1 ((hmem b a).mp hba).1
  · by_cases hx : x = s
    · subst hx
      rw [update_self]
      exact hok
    · rw [update_of_ne hx, hn x hx]
      exact h.slots x

/-- What `mini_rec` can do. -/
inductive Received (k : KState) (d : ProcPtr) (src mPtr : ℤ) : KState → Prop
  | took {s : ProcPtr} {pre post : List ProcPtr} {r : Ready} {c : Callers}
      (hq : callersOf k.waiting d = pre ++ s :: post) (hpre : ∀ x ∈ pre, wanted src x = false)
      (hs : wanted src s = true) (hproc : r.procPtr = k.rdy.procPtr) :
      Received k d src mPtr { k.took d src mPtr s with rdy := r, callers := c }
  | interrupted (hsend : (k.pFlags d).sending = false)
      (hnone : ∀ x ∈ callersOf k.waiting d, wanted src x = false)
      (hblocked : k.pIntBlocked d = true) (hsrc : isrxhardware src) :
      Received k d src mPtr (k.putInterrupt d src mPtr)
  | blocked {r : Ready} {k' : KState}
      (hnone : (k.pFlags d).sending = false →
        (∀ x ∈ callersOf k.waiting d, wanted src x = false) ∧
          ¬ (k.pIntBlocked d = true ∧ isrxhardware src))
      (hout : k' = { k.receiverBlocked d src mPtr with rdy := r } ∨
        (d = mm ∧ src = any ∧ Informed { k.receiverBlocked d src mPtr with rdy := r } k')) :
      Received k d src mPtr k'

namespace KState

variable {k : KState} {d s : ProcPtr} {src mPtr : ℤ}

theorem takeMessage_spec (h : Inv k) {pre post : List ProcPtr}
    (hq : callersOf k.waiting d = pre ++ s :: post) (src mPtr : ℤ) :
    ∃ r c, k.takeMessage d src mPtr pre.getLast? s =
        .ok { k.took d src mPtr s with rdy := r, callers := c } ∧
      Inv { k.took d src mPtr s with rdy := r, callers := c } ∧ r.procPtr = k.rdy.procPtr := by
  have hmem : (s, d) ∈ k.waiting := mem_callersOf.mp (by rw [hq]; simp)
  have hsend := (h.rest.sending s).mpr (List.mem_map_of_mem (f := Prod.fst) hmem)
  have hne : k.pFlags s ≠ Flags.zero := fun hzero => by simp [hzero, Flags.zero] at hsend
  obtain ⟨c, hc, hcrep⟩ := h.rest.callers.unlinkSender hq
  obtain ⟨r, hr, hrep, hproc⟩ := readyIfZero_spec (p := s) (R := Runnable k.pFlags)
    (k := { k.took d src mPtr s with callers := c }) h.rdy
    (fun x hx => by simp [took, setFlags, put, runnable_update, hx]) (fun hx => hne hx.1)
    ((h.rest.slots s).not_pseudo hne)
  refine ⟨r, c, ?_, ⟨hrep, ?_, h.hardware⟩, hproc⟩
  · unfold takeMessage
    rw [hc, ok_bind, hr]
  · exact h.rest.leave hcrep (h.rest.slots s).stop_sending rfl
      (fun hf => by simp [(h.rest.live s d hmem).1] at hf) id fun _ _ => rfl

theorem blockReceiver_spec (h : Inv k) (hreal : ¬ isIdleHardware d)
    (hany : src = any → (k.pFlags d).sending = false) (mPtr : ℤ) :
    ∃ r k', k.blockReceiver d src mPtr = .ok k' ∧ Inv k' ∧
      (k' = { k.receiverBlocked d src mPtr with rdy := r } ∨
        (d = mm ∧ src = any ∧ Informed { k.receiverBlocked d src mPtr with rdy := r } k')) := by
  obtain ⟨r, hr, hrep⟩ := unreadyIfZero_spec h.rdy d
  have hinv : Inv ({ k with rdy := r }.receiverBlocked d src mPtr) := by
    refine ⟨rep_blocked hrep ?_, ?_, h.hardware⟩
    · intro hzero
      simpa [Flags.zero] using congrArg Flags.receiving hzero
    · refine h.rest.setFlags (p := d) ?_ rfl rfl (fun x hx => update_of_ne hx _ _)
        fun _ _ => rfl
      simpa [receiverBlocked, setFlags] using (h.rest.slots d).start_receiving hreal hany
  unfold blockReceiver
  rw [hr, ok_bind]
  by_cases hmm : 0 < ({ k with rdy := r }.receiverBlocked d src mPtr).sigProcs ∧ d = mm ∧ src = any
  · obtain ⟨-, rfl, rfl⟩ := id hmm
    obtain ⟨k', hk', hinv', hout⟩ := inform_spec hinv
      (by simp [mmIdle, receiverBlocked, setFlags])
    refine ⟨r, k', by simpa [hmm] using hk', hinv', ?_⟩
    rcases hout with rfl | hout
    · exact .inl rfl
    · exact .inr ⟨rfl, rfl, hout⟩
  · exact ⟨r, _, if_neg hmm, hinv, .inl rfl⟩

/-- `mini_rec` returns, and keeps the invariant. -/
theorem miniRec_spec (src : ℤ) (h : Inv k) (hreal : ¬ isIdleHardware d)
    (hany : src = any → (k.pFlags d).sending = false) (mPtr : ℤ) :
    ∃ k', k.miniRec d src mPtr = .ok k' ∧ Inv k' ∧ Received k d src mPtr k' := by
  unfold miniRec
  by_cases hsend : (k.pFlags d).sending = true
  · obtain ⟨r, k', hk', hinv, hout⟩ := blockReceiver_spec h hreal hany mPtr
    refine ⟨k', by rw [if_pos hsend, hk'], hinv, .blocked (r := r) (fun hf => ?_) hout⟩
    simp [hsend] at hf
  rw [if_neg hsend, h.rest.callers.findSender_eq, ok_bind]
  cases hfound : firstWith (wanted src) none (callersOf k.waiting d) with
  | some found =>
    obtain ⟨pre, post, hq, hpre, hs, hprev⟩ := firstWith_eq_some (p := found.1) (a := found.2) hfound
    obtain ⟨r, c, hk', hinv, hproc⟩ := takeMessage_spec h hq src mPtr
    refine ⟨_, ?_, hinv, .took hq hpre hs hproc⟩
    simp only [hprev, Option.or_none]
    exact hk'
  | none =>
    have hnone := firstWith_eq_none.mp hfound
    dsimp only
    by_cases hint : k.pIntBlocked d = true ∧ isrxhardware src
    · exact ⟨_, if_pos hint, ⟨h.rdy, h.rest, h.hardware⟩, .interrupted (by simpa using hsend) hnone hint.1 hint.2⟩
    · obtain ⟨r, k', hk', hinv, hout⟩ := blockReceiver_spec h hreal hany mPtr
      exact ⟨k', by rw [if_neg hint, hk'], hinv, .blocked (r := r) (fun _ => ⟨hnone, hint⟩) hout⟩

end KState

/-- What `sys_call` can do; `rp` is the caller. -/
inductive Called (k : KState) (rp : ProcPtr) (srcDest mPtr : ℤ) : ℤ → KState → Prop
  | refused {n : ℤ} : Called k rp srcDest mPtr n k
  | sent {n : ℤ} {k' : KState} (h : Sent k rp srcDest mPtr n k') : Called k rp srcDest mPtr n k'
  | received {k' : KState} (hnot : ¬ isuserp rp) (h : Received k rp srcDest mPtr k') :
      Called k rp srcDest mPtr ok k'
  | both {k₁ k' : KState} (hs : Sent k rp srcDest mPtr ok k₁) (hinv : Inv k₁)
      (hr : Received k₁ rp srcDest mPtr k') : Called k rp srcDest mPtr ok k'

namespace KState

variable {k : KState} {srcDest mPtr : ℤ} {function : Func}

/-- The running process has no flag set. -/
theorem running_zero (h : Inv k) (hidle : k.rdy.procPtr ≠ idle) :
    Runnable k.pFlags k.rdy.procPtr :=
  h.rdy.running hidle

/-- `sys_call` returns, and keeps the invariant. -/
theorem sysCall_spec (function : Func) (srcDest : ℤ) (h : Inv k)
    (hidle : k.rdy.procPtr ≠ idle)
    (htrust : isuserp k.rdy.procPtr ∨ function = .receive ∨ srcDest ≠ any) (mPtr : ℤ) :
    ∃ n k', k.sysCall function srcDest mPtr = .ok (n, k') ∧ Inv k' ∧
      Called k k.rdy.procPtr srcDest mPtr n k' := by
  obtain ⟨hzero, hreal⟩ := running_zero h hidle
  unfold sysCall
  by_cases hsrc : ¬ isoksrcDest srcDest
  · exact ⟨_, _, if_pos hsrc, h, .refused⟩
  rw [if_neg hsrc]
  by_cases hperm : function ≠ .both ∧ isuserp k.rdy.procPtr
  · exact ⟨_, _, if_pos hperm, h, .refused⟩
  rw [if_neg hperm]
  have hdest : function ≠ .receive → isuserp k.rdy.procPtr ∨ isokprocn srcDest := by
    intro hf
    rcases htrust with hu | hr | hne
    · exact .inl hu
    · exact absurd hr hf
    · exact .inr ((not_not.mp hsrc).resolve_right hne)
  cases function with
  | send =>
    obtain ⟨n, k', hk', hinv, hsent⟩ := miniSend_spec h hzero hreal (hdest (by decide)) mPtr
    exact ⟨n, k', hk', hinv, .sent hsent⟩
  | receive =>
    obtain ⟨k', hk', hinv, hrec⟩ := miniRec_spec srcDest h hreal
      (fun _ => by rw [hzero]; rfl) mPtr
    exact ⟨ok, k', by simp [hk'], hinv, .received (fun hu => hperm ⟨by decide, hu⟩) hrec⟩
  | both =>
    obtain ⟨n, k₁, hk1, hinv, hsent⟩ := miniSend_spec h hzero hreal (hdest (by decide)) mPtr
    simp only [hk1, ok_bind]
    by_cases hn : n ≠ ok
    · exact ⟨n, k₁, if_pos hn, hinv, .sent hsent⟩
    rw [if_neg hn]
    have hn' : n = ok := not_not.mp hn
    subst hn'
    -- a destination was found, so the source is not "anyone"
    have hany : srcDest ≠ any := by
      rintro rfl
      cases hsent with
      | refused hn => exact hn rfl
      | delivered hd => simp [procAddr, any, isokprocn] at hd
      | queued hd => simp [procAddr, any, isokprocn] at hd
    obtain ⟨k', hk', hinv', hrec⟩ := miniRec_spec srcDest hinv hreal
      (fun hsrc => absurd hsrc hany) mPtr
    exact ⟨ok, k', by simp [hk'], hinv', .both hsent hinv hrec⟩

end KState

end LisaMinix.Kernel
