import LisaMinix.Kernel.IpcRuns
import LisaMinix.Kernel.SigBook

/-!
# Signals Between the Kernel and MM

Runs of the kernel together with the part of MM that finishes signals: the loop of `do_ksig`
(`src/mm/signal.c`), which acts on the signals of a bit map one after the other and tells the
kernel of each one that it is done.  Whatever else happens in between is an event of the kernel.

The bookkeeping is right in every run in which no signal is caused for a free slot, and in which
SIGSTKFLT never waits together with another signal of the same process.  Otherwise it is not: the
loop of `do_ksig` does not come to SIGSTKFLT, which `inform` and `do_ksig` both treat specially,
but only when it is alone in the bit map.
-/

namespace LisaMinix.Kernel

open LisaMinix.Library Function
open LisaMinix.Mm (MemMaps nrProcs sigsOf)

/-! ## §1 Runs of the kernel and `do_ksig` -/

/-- The message of a `KSIG`, which HARDWARE sends to MM. -/
def ksigOf : LogEntry → Option Message
  | .taken s _ msg _ _ => if s = hardware then some msg else none
  | _ => none

/-- The `KSIG` messages that MM has received. -/
def KState.ksigs (k : KState) : List Message := k.log.filterMap ksigOf

/-- The state of the kernel and of `do_ksig`, with a history. -/
structure SigState where
  k : KState
  /-- the process whose bit map `do_ksig` works on -/
  target : ProcPtr
  /-- the signals its loop has not finished -/
  todo : List ℕ
  /-- how many signals have been caused for the process in a slot -/
  caused : ProcPtr → ℕ
  /-- how many of them have been finished -/
  finished : ProcPtr → ℕ
  /-- the bit maps that `do_ksig` was called with for live processes -/
  maps : List ℕ

/-- What happens: an event of the kernel, or the loop of `do_ksig` finishes a signal. -/
inductive SigEvent
  | kernel (e : Event)
  | ack
  deriving DecidableEq

namespace SigState

/-- The history after the event `e`, but for what MM is told. -/
def recorded (s : SigState) (e : Event) : SigState :=
  let s := match signalOf e with
    | some (rp, sigNr) =>
      if (s.k.pPending rp).testBit (sigNr - 1) then s
      else { s with caused := update s.caused rp (s.caused rp + 1) }
    | none => s
  match renewedBy e with
  | some p =>
    { s with caused := update s.caused p 0, finished := update s.finished p 0 }
  | none => s

/-- MM starts on a `KSIG` message: `do_ksig` returns at once unless the process is live.  A stack
fault that is alone has been finished by the kernel. -/
def startKsig (s : SigState) (p : ProcPtr) (sigMap : ℕ) : SigState :=
  if (s.k.pFlags p).slotFree then { s with target := p, todo := [] }
  else
    { s with
      target := p
      todo := sigsOf sigMap
      finished := if sigMap = 2 ^ 15 then update s.finished p (s.finished p + 1)
        else s.finished
      maps := sigMap :: s.maps }

/-- The messages that MM has received since the kernel was in the state `k`. -/
def tellMm (s : SigState) (k : KState) : SigState :=
  match s.k.ksigs.drop k.ksigs.length with
  | msg :: _ =>
    match procAddr msg.proc1 with
    | some p => s.startKsig p msg.sigMap.toNat
    | none => s
  | [] => s

/-- `sys_sig(proc_nr, -1)`, called by the loop of `do_ksig`. -/
def acked (s : SigState) (rest : List ℕ) (k' : KState) : SigState :=
  { s with
    k := k'
    todo := rest
    finished := if (s.k.pFlags s.target).slotFree then s.finished
      else update s.finished s.target (s.finished s.target + 1) }

def perform (s : SigState) : SigEvent → Except Fault SigState
  | .kernel e =>
    (s.k.perform e).map fun res => { s.recorded e with k := res.2 }.tellMm s.k
  | .ack =>
    match s.todo with
    | [] => .ok s
    | _ :: rest =>
      (s.k.perform (.sig (procNumber s.target) (-1))).map fun res => s.acked rest res.2

/-- What the callers of the kernel promise, MM among them: it takes new work and forks only when
`do_ksig` has returned, and only `do_ksig` finishes signals. -/
def Promised (s : SigState) : SigEvent → Prop
  | .kernel e =>
    Kernel.Promised s.k e ∧
      match e with
      | .sysCall _ srcDest _ => s.k.rdy.procPtr = mm → srcDest = any → s.todo = []
      | .fork .. => s.todo = []
      | .sig _ signum => signum ≠ -1
      | .causeSig _ sigNr => 1 ≤ sigNr ∧ sigNr ≤ 16
      | .kill _ sigNr => 1 ≤ sigNr ∧ sigNr ≤ 16
      | _ => True
  | .ack => True

/-- A signal is caused for a user process whose slot is in use, and SIGSTKFLT is not put together
with another signal that MM has not been told of. -/
def Apart (s : SigState) : SigEvent → Prop
  | .kernel e => ∀ x ∈ signalOf e, (s.k.pFlags x.1).slotFree = false ∧ isuserp x.1 ∧
      (s.k.pPending x.1 = 0 ∨ (x.2 = sigstkflt ↔ (s.k.pPending x.1).testBit 15 = true))
  | .ack => True

end SigState

/-- The states that are reached by events that are `allowed`. -/
inductive SigReached (allowed : SigState → SigEvent → Prop) (L : Layout)
    (map : ProcPtr → MemMaps) (memory : Cell → Message) : SigState → Prop
  | boot {k : KState} (h : boot L map memory = .ok k) :
      SigReached allowed L map memory ⟨k, mm, [], fun _ => 0, fun _ => 0, []⟩
  | step {s s' : SigState} {e : SigEvent} (hs : SigReached allowed L map memory s)
      (hp : allowed s e) (h : s.perform e = .ok s') : SigReached allowed L map memory s'

/-- The bookkeeping of signals is right. -/
structure Bookkeeping (s : SigState) : Prop where
  /-- `p_pendcount` is the number of signals caused and not finished -/
  counted : ∀ p, (s.k.pFlags p).slotFree = false →
    s.k.pPendcount p + s.finished p = s.caused p
  /-- each of them MM will be told of, or `do_ksig` will finish: nobody is left blocked -/
  outstanding : ∀ p, (s.k.pFlags p).slotFree = false → s.k.pPendcount p =
    (signalsOf (s.k.pPending p)).length + if s.target = p then s.todo.length else 0
  sigPending : ∀ p, (s.k.pFlags p).sigPending = true ↔ 0 < s.k.pPendcount p
  pending : ∀ p, (s.k.pFlags p).pending = true ↔ s.k.pPending p ≠ 0
  /-- `sig_procs` is the number of processes with `PENDING` set -/
  sigProcs : s.k.sigProcs =
    ((List.finRange (nrTasks + nrProcs)).countP fun p => (s.k.pFlags p).pending : ℕ)
  /-- `do_ksig` acts on exactly the signals of its bit map -/
  acted : ∀ m ∈ s.maps, actedOn m = signalsOf m

/-! ## §2 What an event does to the signals -/

/-- MM was told of the signals of a process. -/
def Told (k k' : KState) : Prop :=
  ∃ rp msg, k.pendingProc = some rp ∧ k'.sigView = k.sigView.inform ∧
    k'.ksigs = k.ksigs ++ [msg] ∧ msg.proc1 = procNumber rp ∧ msg.sigMap = (k.pPending rp : ℤ) ∧
    k'.mmIdle = false

/-- A system call leaves the signals alone, or MM, which waits for new work, is told of some;
`takes` says that the call makes MM wait for new work. -/
inductive SigEffect (k k' : KState) (takes : Prop) : Prop
  | still (hview : k'.sigView = k.sigView) (hksigs : k'.ksigs = k.ksigs)
      (hidle : k'.mmIdle = true → k.mmIdle = true ∨ takes) : SigEffect k k' takes
  | told {k₁ : KState} (hview : k₁.sigView = k.sigView) (hksigs : k₁.ksigs = k.ksigs)
      (htold : Told k₁ k') (htakes : takes) : SigEffect k k' takes

namespace KState

variable {k k' : KState} {s d p rp : ProcPtr} {src dest mPtr n : ℤ}

theorem ksigs_of_mail (h : SameMail k k') : k'.ksigs = k.ksigs := by
  unfold ksigs
  rw [h.log]

theorem mmIdle_of_mail (h : SameMail k k') : k'.mmIdle = k.mmIdle := by
  unfold mmIdle
  rw [h.receiving, h.pGetfrom]

/-- MM does not wait for work in the state `k'` unless it did in `k`. -/
theorem mmIdle_mono (h : k'.mmIdle = true)
    (hrec : (k'.pFlags mm).receiving = true → (k.pFlags mm).receiving = true)
    (hfrom : k'.pGetfrom mm = k.pGetfrom mm) : k.mmIdle = true := by
  simp only [mmIdle, Bool.and_eq_true, decide_eq_true_eq] at h ⊢
  exact ⟨hrec h.1, hfrom ▸ h.2⟩

theorem Informed.told (h : Informed k k') : Told k k' := by
  obtain ⟨-, hrun, rp, hrp, hsame⟩ := h
  refine ⟨rp, (k.writeKsig rp).outgoing hardware k.layout.addrM, hrp, inform_sigView hrun, ?_, ?_,
    ?_, ?_⟩
  · rw [ksigs_of_mail hsame]
    exact List.filterMap_append
  · simp [outgoing, writeKsig, cellM]
  · simp [outgoing, writeKsig, cellM]
  · rw [mmIdle_of_mail hsame]
    simp [mmIdle, delivered, setFlags]

theorem Sent.effect (h : Sent k s dest mPtr n k') (hs : s ≠ hardware) (takes : Prop) :
    SigEffect k k' takes := by
  cases h with
  | refused => exact .still rfl rfl .inl
  | delivered hd haddr hacc hproc =>
    rename_i d r
    refine .still (delivered_sigView k s d mPtr) ?_ fun hidle => .inl (mmIdle_mono hidle ?_ rfl)
    · simp [ksigs, delivered, ksigOf, hs, setFlags, put]
    · by_cases hx : mm = d
      · simp [delivered, setFlags, hx]
      · simp [delivered, setFlags, put, hx]
  | queued hd haddr hacc hcross =>
    rename_i d r c
    refine .still (queued_sigView k s d mPtr) ?_ fun hidle => .inl (mmIdle_mono hidle ?_ rfl)
    · simp [ksigs, queued, ksigOf, setFlags]
    · by_cases hx : mm = s
      · simp [queued, setFlags, hx]
      · simp [queued, setFlags, hx]

theorem Received.effect (hinv : Inv k) (h : Received k d src mPtr k') :
    SigEffect k k' (d = mm ∧ src = any) := by
  cases h with
  | took hq hpre hs hproc =>
    rename_i s pre post r c
    have hmem : (s, d) ∈ k.waiting := mem_callersOf.mp (by rw [hq]; simp)
    have hsend : (k.pFlags s).sending = true :=
      (hinv.rest.sending s).mpr (List.mem_map_of_mem (f := Prod.fst) hmem)
    have hne : s ≠ hardware := by
      rintro rfl
      rw [(hinv.rest.slots hardware).pseudo (.inr rfl)] at hsend
      cases hsend
    refine .still (took_sigView k d src mPtr s) ?_ fun hidle => .inl (mmIdle_mono hidle ?_ rfl)
    · simp [ksigs, took, ksigOf, hne, setFlags, put]
    · by_cases hx : mm = s
      · simp [took, setFlags, hx]
      · simp [took, setFlags, put, hx]
  | interrupted hsend hnone hblocked hsrc =>
    refine .still rfl ?_ fun hidle => .inl (mmIdle_mono hidle id rfl)
    simp [ksigs, putInterrupt, ksigOf, put]
  | blocked hnone hout =>
    rename_i r
    have hview := receiverBlocked_sigView k d src mPtr
    rcases hout with rfl | ⟨rfl, rfl, hinf⟩
    · refine .still hview rfl fun hidle => ?_
      by_cases hx : mm = d
      · refine .inr ⟨hx.symm, ?_⟩
        have := hidle
        simp only [mmIdle, receiverBlocked, hx, update_self, Bool.and_eq_true,
          decide_eq_true_eq] at this
        exact this.2
      · refine .inl (mmIdle_mono hidle ?_ ?_)
        · simp [receiverBlocked, setFlags, hx]
        · simp [receiverBlocked, hx]
    · have htold : Told { k.receiverBlocked mm any mPtr with rdy := r } k' := Informed.told hinf
      exact .told hview rfl htold ⟨rfl, rfl⟩

/-- `interrupt` is not about signals, whenever the message is delivered. -/
theorem Interrupted.effect (h : Interrupted k rp k') : SigEffect k k' False := by
  cases h with
  | woken =>
    refine .still (woken_sigView k rp) ?_ fun hidle => .inl (mmIdle_mono hidle ?_ rfl)
    · simp [ksigs, woken, putInterrupt, ksigOf, setFlags, put]
    · by_cases hx : mm = rp
      · simp [woken, setFlags, hx]
      · simp [woken, setFlags, putInterrupt, put, hx]
  | blocked => exact .still rfl rfl .inl

theorem Async.effect {busy : Bool} (h : Async k rp busy k') : SigEffect k k' False := by
  cases h with
  | held => exact .still rfl rfl .inl
  | now hnow hr =>
    cases Interrupted.effect hnow with
    | still hview hksigs hidle => exact .still hview hksigs hidle
    | told _ _ _ hfalse => exact hfalse.elim

theorem Unheld.effect (h : Unheld k k') : SigEffect k k' False := by
  cases h with
  | nothing => exact .still rfl rfl .inl
  | repeated hhead hnow =>
    cases Interrupted.effect hnow with
    | still hview hksigs hidle => exact .still hview hksigs hidle
    | told _ _ _ hfalse => exact hfalse.elim

theorem Called.effect (hinv : Inv k) (hp : rp ≠ hardware) (h : Called k rp src mPtr n k') :
    SigEffect k k' (rp = mm ∧ src = any) := by
  cases h with
  | refused => exact .still rfl rfl .inl
  | sent hsent => exact Sent.effect hsent hp _
  | received hnot hrec => exact Received.effect hinv hrec
  | both hsent hinv1 hrec =>
    obtain ⟨hview, hksigs, hidle⟩ | ⟨-, -, -, hfalse⟩ := Sent.effect hsent hp False
    · cases Received.effect hinv1 hrec with
      | still hview' hksigs' hidle' =>
        refine .still (hview'.trans hview) (hksigs'.trans hksigs) fun hi => ?_
        rcases hidle' hi with hi | htakes
        · exact .inl ((hidle hi).resolve_right id)
        · exact .inr htakes
      | told hview' hksigs' htold htakes =>
        exact .told (hview'.trans hview) (hksigs'.trans hksigs) htold htakes
    · exact hfalse.elim

end KState

/-! ## §3 Every event keeps the books -/

/-- The invariant of a run. -/
structure SigInv (s : SigState) : Prop where
  inv : Inv s.k
  book : SigOk s.k.sigView s.target s.todo s.caused s.finished
  idle : s.k.mmIdle = true → s.todo = []
  acted : ∀ m ∈ s.maps, actedOn m = signalsOf m

namespace SigOk

/-- `inform` tells MM of the signals of the process it finds. -/
theorem inform {v : SigView} {target p : ProcPtr} {caused finished : ProcPtr → ℕ}
    (h : SigOk v target [] caused finished) (hp : v.pendingProc = some p) :
    v.inform.free p = false ∧ actedOn (v.pPending p) = signalsOf (v.pPending p) ∧
      SigOk v.inform p (sigsOf (v.pPending p)) caused
        (if v.pPending p = 2 ^ 15 then update finished p (finished p + 1)
          else finished) := by
  have hpend : v.pending p = true := by
    have := List.find?_some hp
    simp only [Bool.and_eq_true] at this
    exact this.2
  have hlive := (h.live_of_pending hpend).1
  have hout : v.inform = if v.pPending p = 2 ^ 15 then (v.tell p).finish p else v.tell p := by
    unfold SigView.inform
    rw [hp]
  refine ⟨?_, actedOn_eq (h.alone p), ?_⟩
  · rw [hout]
    split
    · unfold SigView.finish
      split
      · exact hlive
      · split <;> exact hlive
    · exact hlive
  · rw [hout]
    by_cases h15 : v.pPending p = 2 ^ 15
    · rw [if_pos h15, if_pos h15, h15, sigsOf_stkflt]
      exact h.tell_stkflt hpend h15
    · rw [if_neg h15, if_neg h15]
      have hbit : (v.pPending p).testBit 15 = false := by
        by_contra hb
        exact h15 (h.alone p (by simpa using hb))
      exact h.tell hpend hbit

end SigOk

namespace SigInv

variable {s : SigState} {k k₁ k' : KState} {e : Event}

/-- An event after which MM has no new message. -/
theorem of_still (hinv : Inv k') (hbook : SigOk k'.sigView s.target s.todo s.caused s.finished)
    (hidle : k'.mmIdle = true → s.todo = []) (hacted : ∀ m ∈ s.maps, actedOn m = signalsOf m)
    (hksigs : k'.ksigs = k.ksigs) : SigInv (({ s with k := k' } : SigState).tellMm k) := by
  have htell : ({ s with k := k' } : SigState).tellMm k = { s with k := k' } := by
    unfold SigState.tellMm
    rw [show ({ s with k := k' } : SigState).k.ksigs = k.ksigs from hksigs, List.drop_length]
  rw [htell]
  exact ⟨hinv, hbook, hidle, hacted⟩

/-- An event in which MM is told of signals, after the signals have become those of `k₁`. -/
theorem of_told (hinv : Inv k') (hbook : SigOk k₁.sigView s.target s.todo s.caused s.finished)
    (htodo : s.todo = []) (hacted : ∀ m ∈ s.maps, actedOn m = signalsOf m)
    (hksigs : k₁.ksigs = k.ksigs) (htold : Told k₁ k') :
    SigInv (({ s with k := k' } : SigState).tellMm k) := by
  obtain ⟨rp, msg, hrp, hview, hnew, hproc, hmap, hidle⟩ := htold
  rw [htodo] at hbook
  obtain ⟨hlive, hact, hbook'⟩ := hbook.inform hrp
  rw [← hview] at hlive hbook'
  have hfree : (k'.pFlags rp).slotFree = false := hlive
  have htell : ({ s with k := k' } : SigState).tellMm k =
      ({ s with k := k' } : SigState).startKsig rp (k₁.pPending rp) := by
    unfold SigState.tellMm
    rw [show ({ s with k := k' } : SigState).k.ksigs = k.ksigs ++ [msg] from by rw [← hksigs]; exact hnew,
      List.drop_left]
    simp only [hproc, procAddr_procNumber, hmap, Int.toNat_natCast]
  rw [htell]
  unfold SigState.startKsig
  rw [if_neg (by simp [hfree])]
  refine ⟨hinv, hbook', fun hi => ?_, fun m hm => ?_⟩
  · rw [show ({ s with k := k' } : SigState).k.mmIdle = false from hidle] at hi
    cases hi
  · rcases List.mem_cons.mp hm with rfl | hm
    · exact hact
    · exact hacted m hm

theorem recorded_none (hs : signalOf e = none) (hr : renewedBy e = none) : s.recorded e = s := by
  unfold SigState.recorded
  rw [hs, hr]

/-- A system call, an interrupt and whatever does not cause signals. -/
theorem of_effect {takes : Prop} (h : SigInv s) (hinv : Inv k') (hs : signalOf e = none)
    (hr : renewedBy e = none) (heff : SigEffect s.k k' takes) (htakes : takes → s.todo = []) :
    SigInv (({ s.recorded e with k := k' } : SigState).tellMm s.k) := by
  rw [recorded_none hs hr]
  cases heff with
  | still hview hksigs hidle =>
    refine of_still hinv (by rw [hview]; exact h.book) (fun hi => ?_) h.acted hksigs
    rcases hidle hi with hi | ht
    · exact h.idle hi
    · exact htakes ht
  | told hview hksigs htold ht =>
    exact of_told hinv (by rw [hview]; exact h.book) (htakes ht) h.acted hksigs htold

/-- `k'` differs from `k` in nothing that is about signals. -/
def Alike (k k' : KState) : Prop :=
  k'.sigView = k.sigView ∧ k'.ksigs = k.ksigs ∧ (k'.mmIdle = true → k.mmIdle = true)

theorem Told.alike (h : Told k k₁) (ha : Alike k₁ k') : Told k k' := by
  obtain ⟨rp, msg, hrp, hview, hnew, hproc, hmap, hidle⟩ := h
  refine ⟨rp, msg, hrp, ha.1.trans hview, ha.2.1.trans hnew, hproc, hmap, ?_⟩
  by_contra hi
  have := ha.2.2 (by simpa using hi)
  rw [hidle] at this
  cases this

/-- `cause_sig` is called, and perhaps something follows that is not about signals. -/
theorem of_caused {rp : ProcPtr} {i : ℕ} (h : SigInv s) (hinv : Inv k')
    (hs : signalOf e = some (rp, i + 1)) (hr : renewedBy e = none) (hi : i < 16)
    (hapart : s.Apart (.kernel e)) (hcaused : Caused s.k.resumed rp (i + 1) k₁)
    (hsame : Alike k₁ k') : SigInv (({ s.recorded e with k := k' } : SigState).tellMm s.k) := by
  obtain ⟨hlive, huser, hbits⟩ := hapart (rp, i + 1) (by rw [hs]; rfl)
  have hbits' : s.k.sigView.pPending rp = 0 ∨
      (i = 15 ↔ (s.k.sigView.pPending rp).testBit 15 = true) := by
    simpa [sigstkflt, KState.sigView] using hbits
  have hrec : (s.k.pPending rp).testBit i = false → s.recorded e =
      { s with caused := update s.caused rp (s.caused rp + 1) } := by
    intro hbit
    unfold SigState.recorded
    rw [hs, hr]
    simp only [Nat.add_sub_cancel, hbit, Bool.false_eq_true, if_false]
  cases hcaused with
  | already hbit =>
    have hrec : s.recorded e = s := by
      unfold SigState.recorded
      rw [hs, hr]
      simp only [show (s.k.pPending rp).testBit (i + 1 - 1) = true from hbit, if_true]
    rw [hrec]
    exact of_still hinv (by rw [hsame.1]; exact h.book) (fun hm => h.idle (hsame.2.2 hm)) h.acted
      hsame.2.1
  | noted hbit hpend =>
    rw [hrec hbit]
    refine of_still hinv ?_ (fun hm => h.idle (hsame.2.2 hm)) h.acted hsame.2.1
    rw [hsame.1]
    exact h.book.note hi hlive huser hbit hbits' (.inl ⟨hpend, rfl⟩)
  | newly hbit hpend =>
    rename_i r
    have hmail := SameMail.signalled s.k.resumed rp (i + 1) r
    have hidle := KState.mmIdle_of_mail hmail
    have hksigs : _ = s.k.resumed.ksigs := KState.ksigs_of_mail hmail
    rw [hrec hbit]
    refine of_still hinv ?_ (fun hm => h.idle ?_) h.acted ?_
    · rw [hsame.1, KState.signalled_sigView]
      exact h.book.note hi hlive huser hbit hbits' (.inr ⟨hpend, rfl⟩)
    · have := hsame.2.2 hm
      rw [hidle] at this
      exact this
    · exact hsame.2.1.trans hksigs
  | told hbit hpend hinf =>
    rename_i r
    have hmail := SameMail.signalled s.k.resumed rp (i + 1) r
    have hksigs : _ = s.k.resumed.ksigs := KState.ksigs_of_mail hmail
    rw [hrec hbit]
    have htold := Told.alike (KState.Informed.told hinf) hsame
    refine of_told hinv ?_ ?_ h.acted hksigs htold
    · rw [KState.signalled_sigView]
      exact h.book.note hi hlive huser hbit hbits' (.inr ⟨hpend, rfl⟩)
    · apply h.idle
      have := hinf.1
      rw [KState.mmIdle_of_mail hmail] at this
      exact this

/-- A process exits. -/
theorem of_exited {proc1 proc2 : ℤ} {rp rc : ProcPtr} {r : Ready} {c : Callers} (h : SigInv s)
    (hrp : susern proc1 = some rp) (hrc : susern proc2 = some rc)
    (hinv : Inv { s.k.resumed.exited rc with rdy := r, callers := c }) :
    SigInv (({ s.recorded (.xit proc1 proc2) with
      k := { s.k.resumed.exited rc with rdy := r, callers := c } } : SigState).tellMm s.k) := by
  have hrec : s.recorded (.xit proc1 proc2) =
      { s with caused := update s.caused rc 0
               finished := update s.finished rc 0 } := by
    simp [SigState.recorded, signalOf, renewedBy, hrp, hrc]
  rw [hrec]
  refine of_still hinv ?_ (fun hm => h.idle (KState.mmIdle_mono hm ?_ rfl)) h.acted ?_
  · have hview : ({ s.k.resumed.exited rc with rdy := r, callers := c } : KState).sigView =
        { s.k.sigView.renew rc true with
          sigProcs := if s.k.sigView.pending rc then s.k.sigView.sigProcs - 1
            else s.k.sigView.sigProcs } := by
      apply SigView.ext
      iterate 3
        · funext x
          by_cases hx : x = rc
          · simp [KState.sigView, KState.exited, KState.slotFreed, KState.setFlags, hx, Flags.free,
              Flags.zero, SigView.renew]
          · simp [KState.sigView, KState.exited, KState.slotFreed, KState.setFlags, hx,
              SigView.renew, KState.resumed]
      · rfl
      · rfl
      · rfl
    rw [hview]
    exact h.book.renew (.inl rfl) rfl
  · by_cases hx : mm = rc
    · simp [KState.exited, KState.slotFreed, KState.setFlags, hx, Flags.free, Flags.zero]
    · simp [KState.exited, KState.slotFreed, KState.setFlags, hx, KState.resumed]
  · have hlost : ∀ w : List (ProcPtr × ProcPtr), ∀ msg,
        (w.map fun x => LogEntry.lost rc x.2 msg).filterMap ksigOf = [] := by
      intro w msg
      simp [List.filterMap_map, Function.comp_def, ksigOf]
    show (s.k.resumed.log ++ _).filterMap ksigOf = _
    rw [List.filterMap_append, hlost, List.append_nil]
    rfl

/-- A child is put into a free slot. -/
theorem of_forked {proc1 proc2 : ℤ} {rpp rpc : ProcPtr} {base : ℕ} (h : SigInv s)
    (hpp : susern proc1 = some rpp) (hpc : susern proc2 = some rpc) (hp : ForkPromise s.k rpp rpc)
    (htodo : s.todo = []) (hinv : Inv (s.k.resumed.forked rpp rpc base)) :
    SigInv (({ s.recorded (.fork proc1 proc2 base) with
      k := s.k.resumed.forked rpp rpc base } : SigState).tellMm s.k) := by
  have hrec : s.recorded (.fork proc1 proc2 base) =
      { s with caused := update s.caused rpc 0
               finished := update s.finished rpc 0 } := by
    simp [SigState.recorded, signalOf, renewedBy, hpp, hpc]
  obtain ⟨hlive, -, -, -, hfree⟩ := hp
  rw [hrec]
  refine of_still hinv ?_ (fun _ => htodo) h.acted rfl
  -- no signal is pending for a free slot
  have hpend : s.k.sigView.pending rpc = false := by
    by_contra hpend
    have := (h.book.live_of_pending (by simpa using hpend)).1
    rw [show s.k.sigView.free rpc = true from hfree] at this
    cases this
  have hview : (s.k.resumed.forked rpp rpc base).sigView =
      { s.k.sigView.renew rpc false with sigProcs := s.k.sigView.sigProcs } := by
    apply SigView.ext
    · funext x
      by_cases hx : x = rpc
      · simp [KState.sigView, KState.forked, hx, SigView.renew, KState.resumed, hlive]
      · simp [KState.sigView, KState.forked, hx, SigView.renew, KState.resumed]
    · funext x
      by_cases hx : x = rpc <;>
        simp [KState.sigView, KState.forked, hx, SigView.renew, KState.resumed]
    · funext x
      by_cases hx : x = rpc <;>
        simp [KState.sigView, KState.forked, hx, SigView.renew, KState.resumed]
    · rfl
    · rfl
    · rfl
  rw [hview]
  exact h.book.renew (.inr htodo) (by rw [hpend]; rfl)

theorem SigEffect.of_resumed {takes : Prop} (h : SigEffect k.resumed k' takes) :
    SigEffect k k' takes := by
  cases h with
  | still hview hksigs hidle => exact .still hview hksigs hidle
  | told hview hksigs htold ht => exact .told hview hksigs htold ht

theorem alike_setFlags (k : KState) (rp : ProcPtr) (r : Ready) :
    Alike k { k.setFlags rp { k.pFlags rp with receiving := false } with rdy := r } := by
  refine ⟨KState.setFlags_sigView (k := k) rfl rfl rfl, rfl, fun hi => ?_⟩
  refine KState.mmIdle_mono hi ?_ rfl
  by_cases hx : mm = rp
  · simp [KState.setFlags, hx]
  · simp [KState.setFlags, hx]

/-- Every event of the kernel keeps the books. -/
theorem kernel {s' : SigState} (h : SigInv s) (hp : s.Promised (.kernel e))
    (ha : s.Apart (.kernel e)) (hrun : s.perform (.kernel e) = .ok s') : SigInv s' := by
  obtain ⟨⟨n, k'⟩, hk', rfl⟩ := map_eq_ok hrun
  obtain ⟨hprom, hmm⟩ := hp
  obtain ⟨hinv, hout⟩ := KState.perform_cases h.inv hprom hk'
  cases hout with
  | called hzero hcalled =>
    have hne : s.k.rdy.procPtr ≠ hardware := fun heq => hzero.2 (.inr heq)
    have heff := KState.Called.effect (KState.resumed_inv h.inv) hne hcalled
    exact h.of_effect hinv rfl rfl (SigEffect.of_resumed heff) fun ht => hmm ht.1 ht.2
  | stored =>
    rename_i addr msg
    have heff : SigEffect s.k (s.k.resumed.store addr msg) False := .still rfl rfl .inl
    exact h.of_effect hinv rfl rfl heff False.elim
  | async hrp hasync => exact h.of_effect hinv rfl rfl (KState.Async.effect hasync) False.elim
  | unheld hun => exact h.of_effect hinv rfl rfl (KState.Unheld.effect hun) False.elim
  | quiet hsame hview hcause hrenew =>
    have hksigs : _ = s.k.resumed.ksigs := KState.ksigs_of_mail hsame
    have hidle : _ = s.k.resumed.mmIdle := KState.mmIdle_of_mail hsame
    have heff : SigEffect s.k k' False := .still hview hksigs fun hi => .inl (hidle ▸ hi)
    exact h.of_effect hinv hcause hrenew heff False.elim
  | finished hrp hrun hsame => exact absurd rfl hmm
  | caused he hcaused =>
    rename_i rp sigNr
    have hsig : signalOf e = some (rp, sigNr) := by
      rcases he with rfl | ⟨pr, rfl, hpr⟩
      · rfl
      · simp [signalOf, hpr]
    have hrange : 1 ≤ sigNr ∧ sigNr ≤ 16 := by
      rcases he with rfl | ⟨pr, rfl, hpr⟩
      · exact hmm
      · exact hmm
    have hrenew : renewedBy e = none := by
      rcases he with rfl | ⟨pr, rfl, hpr⟩
      · rfl
      · rfl
    obtain ⟨i, rfl⟩ : ∃ i, sigNr = i + 1 := ⟨sigNr - 1, by omega⟩
    exact h.of_caused hinv hsig hrenew (by omega) ha hcaused ⟨rfl, rfl, id⟩
  | forked hpp hpc hfork => exact h.of_forked hpp hpc hfork hmm hinv
  | execed hrp hcaused hinv1 =>
    rename_i proc1 traced rp k₁ r
    rcases hcaused with ⟨rfl, rfl⟩ | ⟨rfl, hcaused⟩
    · obtain ⟨hview, hksigs, hidle⟩ := alike_setFlags s.k.resumed rp r
      have heff : SigEffect s.k _ False := .still hview hksigs fun hi => .inl (hidle hi)
      exact h.of_effect hinv rfl rfl heff False.elim
    · exact h.of_caused (i := 4) hinv (by simp [signalOf, hrp, sigtrap]) rfl (by omega) ha hcaused
        (alike_setFlags k₁ rp r)
  | remapped hrp =>
    rename_i proc1 map rp
    have heff : SigEffect s.k { s.k.resumed with pMap := update s.k.resumed.pMap rp map }
        False := .still rfl rfl .inl
    exact h.of_effect hinv rfl rfl heff False.elim
  | exited hrp hrc hpx => exact h.of_exited hrp hrc hinv

/-- The loop of `do_ksig` finishes a signal. -/
theorem ack {s' : SigState} (h : SigInv s) (hrun : s.perform .ack = .ok s') : SigInv s' := by
  unfold SigState.perform at hrun
  cases htodo : s.todo with
  | nil =>
    simp only [htodo] at hrun
    cases hrun
    exact h
  | cons j rest =>
    simp only [htodo] at hrun
    obtain ⟨⟨n, k'⟩, hk', rfl⟩ := map_eq_ok hrun
    have hbook := h.book
    rw [htodo] at hbook
    have husern : usern (procNumber s.target) = some s.target := usern_procNumber (hbook.user (by simp))
    -- while the loop is at work a signal that MM has not been told of is not the last one
    have hpromise : SigPromise s.k s.target := by
      intro hpend hone
      have hlive := (hbook.live_of_pending (p := s.target) hpend).1
      have hout := hbook.outstanding s.target hlive
      have hne := signalsOf_ne_nil (hbook.low s.target) ((hbook.pending s.target).mp hpend)
      rw [if_pos rfl, List.length_cons] at hout
      change s.k.pPendcount s.target = _ at hout
      omega
    obtain ⟨k₁, hk1, hinv, hsame⟩ :=
      KState.finishSig_spec (KState.resumed_inv h.inv) (p := s.target) hpromise
    have heq : k₁ = k' := by
      simp only [KState.perform, KState.doSig, husern, if_true, hk1, map_ok] at hk'
      exact (Prod.mk.inj (Except.ok.inj hk')).2
    subst heq
    have hview : _ = s.k.resumed.sigView.finish s.target := KState.finishSig_sigView hk1
    change _ = s.k.sigView.finish s.target at hview
    have hidle : _ = s.k.resumed.mmIdle := KState.mmIdle_of_mail hsame
    change _ = s.k.mmIdle at hidle
    refine ⟨hinv, ?_, fun hi => ?_, h.acted⟩
    · unfold SigState.acked
      by_cases hfree : (s.k.pFlags s.target).slotFree = true
      · obtain ⟨hfin, hskip⟩ := hbook.skip hfree
        simp only [hfree, if_true]
        rw [hview, hfin]
        exact hskip
      · simp only [hfree, if_false, Bool.false_eq_true]
        rw [hview]
        exact hbook.finish (Bool.eq_false_of_not_eq_true hfree)
    · have := h.idle (hidle ▸ hi)
      rw [htodo] at this
      cases this

theorem step {s' : SigState} {e : SigEvent} (h : SigInv s) (hp : s.Promised e) (ha : s.Apart e)
    (hrun : s.perform e = .ok s') : SigInv s' := by
  cases e with
  | kernel e => exact h.kernel hp ha hrun
  | ack => exact h.ack hrun

theorem bookkeeping (h : SigInv s) : Bookkeeping s where
  counted := h.book.counted
  outstanding := h.book.outstanding
  sigPending := h.book.sigPending
  pending := h.book.pending
  sigProcs := h.book.sigProcs
  acted := h.acted

end SigInv

/-! ## §4 Runs -/

variable {L : Layout} {map : ProcPtr → MemMaps} {memory : Cell → Message}

theorem boot_sigInv {k : KState} (h : boot L map memory = .ok k) :
    SigInv ⟨k, mm, [], fun _ => 0, fun _ => 0, []⟩ := by
  obtain ⟨k₁, hk1, hinv⟩ := boot_inv L map memory
  rw [h] at hk1
  cases hk1
  obtain ⟨r, -, rfl⟩ := map_eq_ok h
  have hpend : ∀ p, (startFlags p).pending = false ∧ (startFlags p).sigPending = false := by decide
  refine ⟨hinv, ?_, fun _ => rfl, fun m hm => ?_⟩
  · refine ⟨fun p _ => ⟨rfl, rfl⟩, fun p _ => rfl, fun p _ => ?_, fun p => ?_, fun p => ?_,
      fun p => ?_, fun p => ?_, ?_, by simp, by simp⟩
    · simp [KState.sigView]
    · simp [KState.sigView, hpend p]
    · simp [KState.sigView, hpend p]
    · simp [KState.sigView]
    · simp [KState.sigView]
    · simp [KState.sigView, hpend]
  · cases hm

/-- In every run in which signals are caused for user processes in use, and SIGSTKFLT is kept
apart from other signals, the bookkeeping is right in every state. -/
theorem reached_bookkeeping {s : SigState}
    (h : SigReached (fun s e => s.Promised e ∧ s.Apart e) L map memory s) : Bookkeeping s := by
  apply SigInv.bookkeeping
  induction h with
  | boot h => exact boot_sigInv h
  | step _ hp hrun ih => exact ih.step hp.1 hp.2 hrun

/-- Deal with some events one after the other, as long as they pass a check. -/
def SigState.play (check : SigState → SigEvent → Bool) :
    List SigEvent → SigState → Except Fault SigState
  | [], s => .ok s
  | e :: es, s => if check s e then s.perform e >>= SigState.play check es else .error .endless

theorem SigReached.play {allowed : SigState → SigEvent → Prop} {check : SigState → SigEvent → Bool}
    (hcheck : ∀ s e, check s e = true → allowed s e) {es : List SigEvent} {s s' : SigState}
    (h : SigReached allowed L map memory s) (hplay : s.play check es = .ok s') :
    SigReached allowed L map memory s' := by
  induction es generalizing s with
  | nil =>
    cases hplay
    exact h
  | cons e es ih =>
    unfold SigState.play at hplay
    split at hplay
    next hc =>
      obtain ⟨s₁, hrun, hplay⟩ := bind_eq_ok hplay
      exact ih (h.step (hcheck s e hc) hrun) hplay
    next => cases hplay

instance (s : SigState) : DecidablePred s.Promised
  | .kernel (.sysCall ..) => inferInstanceAs (Decidable (_ ∧ (_ → _ → _)))
  | .kernel (.fork ..) => inferInstanceAs (Decidable (_ ∧ _ = _))
  | .kernel (.sig ..) => inferInstanceAs (Decidable (_ ∧ _ ≠ _))
  | .kernel (.causeSig ..) | .kernel (.kill ..) => inferInstanceAs (Decidable (_ ∧ _ ≤ _ ∧ _ ≤ _))
  | .kernel (.async ..) | .kernel (.exec ..) | .kernel (.xit ..) | .kernel (.trace ..)
  | .kernel (.newmap ..) | .kernel (.store ..) | .kernel .unhold | .kernel .sched =>
    inferInstanceAs (Decidable (_ ∧ True))
  | .ack => .isTrue trivial

instance (s : SigState) : DecidablePred s.Apart
  | .kernel e => inferInstanceAs (Decidable (∀ x ∈ signalOf e, _))
  | .ack => .isTrue trivial

/-- A run from the start, and something that is computed from the state it reaches. -/
theorem exists_sigReached {α : Type} (allowed : SigState → SigEvent → Prop)
    [∀ s e, Decidable (allowed s e)] (es : List SigEvent) (f : SigState → α) (a : α)
    (h : ((boot plainLayout plainMap noMessage).bind fun k =>
      SigState.play (fun s e => decide (allowed s e)) es
        ⟨k, mm, [], fun _ => 0, fun _ => 0, []⟩).map f = .ok a) :
    ∃ s, SigReached allowed plainLayout plainMap noMessage s ∧ f s = a := by
  obtain ⟨s, hs, hf⟩ := map_eq_ok h
  obtain ⟨k, hk, hplay⟩ := bind_eq_ok hs
  exact ⟨s, (SigReached.boot hk).play (fun s e he => of_decide_eq_true he) hplay, hf⟩

/-- INIT and a child of it run; the child calls MM, which calls FS, which waits for a disk, so that
INIT runs while MM is at work. -/
def busyRun : List Event :=
  forkRun ++ [.sysCall .send 2 2304, .sysCall .receive any 2304, .sysCall .both 0 3072,
    .sysCall .both 1 2304, .sysCall .both (-4) 2560, .sysCall .receive (-1) 1280]

/-- The disk is ready: its driver answers FS, FS answers MM, MM answers the child, and asks for
new work. -/
def answerRun : List Event :=
  [.async 5 false, .sysCall .send 1 1280, .sysCall .receive any 1280, .sysCall .send 0 2560,
    .sysCall .receive any 2560, .sysCall .send 3 2304, .sysCall .receive any 2304]

/-- Two signals of INIT wait until MM asks for new work, and `do_ksig` finishes the first. -/
theorem reached_bookkeeping_alarm : ∃ s,
    SigReached (fun s e => s.Promised e ∧ s.Apart e) plainLayout plainMap noMessage s ∧
    s.maps = [8194] ∧ s.todo = [14] ∧ s.k.pPendcount init = 1 ∧ Bookkeeping s := by
  obtain ⟨s, hr, hf⟩ := exists_sigReached (fun s e => s.Promised e ∧ s.Apart e)
    ((busyRun ++ [Event.causeSig init 2, .causeSig init 14] ++ answerRun).map .kernel ++ [.ack])
    (fun s => (s.maps, s.todo, s.k.pPendcount init)) ([8194], [14], 1) (by decide +kernel)
  simp only [Prod.mk.injEq] at hf
  obtain ⟨hmaps, htodo, hcount⟩ := hf
  exact ⟨s, hr, hmaps, htodo, hcount, reached_bookkeeping hr⟩

/-- The child of INIT calls EXEC and gets a stack of 2048 bytes; it runs while MM, called by INIT, is
at work. -/
def execRun : List Event :=
  forkRun ++ [.sysCall .send 2 2304, .sysCall .receive any 2304, .sysCall .both 0 3072,
    .sysCall .both (-2) 2304, .newmap 3 ⟨⟨0, 0, 0⟩, ⟨0, 0, 900⟩, ⟨992, 992, 8⟩⟩, .sysCall .send 0 1792,
    .sysCall .receive any 1792, .sysCall .both (-2) 2304, .exec 3 false, .sysCall .send 0 1792,
    .sysCall .receive any 1792, .sysCall .receive any 2304, .sysCall .both 0 2816,
    .sysCall .both 1 2304, .sysCall .both (-4) 2560, .sysCall .receive (-1) 1280]

/-- The disk is ready, and MM answers INIT and asks for new work. -/
def answerInit : List Event :=
  [.async 5 false, .sysCall .send 1 1280, .sysCall .receive any 1280, .sysCall .send 0 2560,
    .sysCall .receive any 2560, .sysCall .send 2 2304, .sysCall .receive any 2304]

/-- A stack fault of a process and an interrupt from the keyboard wait until MM asks for new work:
`do_ksig` finishes only the second, and the process stays blocked with no signal outstanding. -/
theorem stackfault_lost : ∃ s, SigReached (fun s e => s.Promised e) plainLayout plainMap noMessage s ∧
    (s.k.pMap 12).stack.memLen = 8 ∧
    (s.k.pFlags 12).slotFree = false ∧ (s.k.pFlags 12).sigPending = true ∧
    s.k.pPending 12 = 0 ∧ s.todo = [] ∧ s.maps = [2 ^ 15 + 2] ∧ actedOn (2 ^ 15 + 2) = [2] ∧
    ¬ Bookkeeping s := by
  obtain ⟨s, hr, hf⟩ := exists_sigReached (fun s e => s.Promised e)
    ((execRun ++ [Event.causeSig 12 sigstkflt, .causeSig 12 2] ++ answerInit).map .kernel ++ [.ack])
    (fun s => decide ((s.k.pMap 12).stack.memLen = 8 ∧ (s.k.pFlags 12).slotFree = false ∧
      (s.k.pFlags 12).sigPending = true ∧ s.k.pPending 12 = 0 ∧ s.todo = [] ∧ s.maps = [2 ^ 15 + 2]))
    true (by decide +kernel)
  obtain ⟨hstack, hfree, hsig, hpend, htodo, hmaps⟩ := of_decide_eq_true hf
  refine ⟨s, hr, hstack, hfree, hsig, hpend, htodo, hmaps, by decide, fun hbook => ?_⟩
  have hacted := hbook.acted (2 ^ 15 + 2) (by rw [hmaps]; simp)
  exact absurd hacted (by decide)

end LisaMinix.Kernel
