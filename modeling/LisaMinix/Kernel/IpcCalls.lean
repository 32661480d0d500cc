import LisaMinix.Kernel.IpcInvariant

/-!
# Interrupts and the Calls of the System Task Keep the Invariant

The remaining ways to change the process table: interrupts, the calls of the system task, and
the start.  What the callers must promise is stated with each call (`Promised`): MM forks a
process that waits for its answer into a free slot, ends processes nobody waits to send to, and
so on.
-/

namespace LisaMinix.Kernel

open LisaMinix.Library Function
open LisaMinix.Mm (MemMaps nrProcs)

/-! ## §1 Interrupts -/

/-- What `interrupt` can do when it is not held up. -/
inductive Interrupted (k : KState) (rp : ProcPtr) : KState → Prop
  | woken {r : Ready} (hrec : (k.pFlags rp).receiving = true)
      (hsend : (k.pFlags rp).sending = false) (hsrc : isrxhardware (k.pGetfrom rp))
      (hproc : r.procPtr = k.rdy.procPtr) :
      Interrupted k rp { k.woken rp with rdy := r }
  | blocked (hnot : ¬ ((k.pFlags rp).receiving = true ∧ ¬ (k.pFlags rp).sending = true ∧
        isrxhardware (k.pGetfrom rp))) :
      Interrupted k rp { k with pIntBlocked := update k.pIntBlocked rp true }

namespace KState

variable {k : KState} {rp : ProcPtr}

theorem queueOf_driver (h : IsDriver rp) : queueOf rp = .taskQ := if_pos h.1

theorem not_pseudo_driver (h : IsDriver rp) : ¬ isIdleHardware rp := by
  rintro (rfl | rfl)
  · exact h.1.2 rfl
  · exact h.2 rfl

/-- A task that is receiving has no other flag, so that `interrupt` may make it ready. -/
theorem driver_flags (h : Inv k) (hrp : IsDriver rp) (hsend : (k.pFlags rp).sending = false) :
    ({ k.pFlags rp with receiving := false } : Flags) = Flags.zero := by
  have hslot := h.rest.slots rp
  have hk : isKernelp rp := hrp.1.1
  have hfree := hslot.system (by
    simp only [isuserp, isKernelp] at hk ⊢
    omega)
  obtain ⟨hpend, hsig, hstop⟩ := hslot.task hk
  simp [Flags.zero, hfree, hsend, hpend, hsig, hstop]

theorem interruptNow_spec (h : Inv k) (hrp : IsDriver rp) :
    ∃ k', k.interruptNow rp = .ok k' ∧ Inv k' ∧ Interrupted k rp k' := by
  unfold interruptNow
  by_cases hw : (k.pFlags rp).receiving = true ∧ ¬ (k.pFlags rp).sending = true ∧
      isrxhardware (k.pGetfrom rp)
  · obtain ⟨hrec, hsend, hsrc⟩ := hw
    have hsend' : (k.pFlags rp).sending = false := by simpa using hsend
    have hne : ¬ Runnable k.pFlags rp := fun hx => by simp [hx.1, Flags.zero] at hrec
    obtain ⟨r, hr, hrep, hproc⟩ := Ready.append_rep h.rdy hne (queueOf_driver hrp)
    refine ⟨{ k.woken rp with rdy := r }, ?_, ⟨?_, ?_, h.hardware⟩,
      .woken hrec hsend' hsrc hproc⟩
    · rw [if_pos ⟨hrec, hsend, hsrc⟩, hr]
      rfl
    · refine hrep.congr fun x => ?_
      simp only [woken, setFlags, putInterrupt, put, runnable_update,
        driver_flags h hrp hsend', not_pseudo_driver hrp]
      by_cases hx : x = rp
      · simp [hx]
      · simp [hx]
    · exact h.rest.setFlags (h.rest.slots rp).stop_receiving rfl rfl (fun _ _ => rfl)
        fun _ _ => rfl
  · exact ⟨_, if_neg hw, ⟨h.rdy, h.rest, h.hardware⟩, .blocked hw⟩

/-- What an interrupt can do. -/
inductive Async (k : KState) (rp : ProcPtr) : Bool → KState → Prop
  | held {h : Held} (hh : hold k.held rp = .ok h) : Async k rp true { k with held := h }
  | now {k₁ : KState} {r : Ready} (hnow : Interrupted k rp k₁)
      (hr : r = k₁.rdy ∨ r = pickProc k₁.rdy) : Async k rp false { k₁ with rdy := r }

theorem async_spec (h : Inv k) (hrp : IsDriver rp) (busy : Bool) :
    ∃ k', k.async rp busy = .ok k' ∧ Inv k' ∧ Async k rp busy k' := by
  unfold async interrupt
  cases busy with
  | true =>
    obtain ⟨l, hl, hdrivers⟩ := h.rest.held
    obtain ⟨h', l', hh', hrep, hsub⟩ := hl.hold rp
    refine ⟨{ k with held := h' }, by simp [hh'], ⟨h.rdy, ?_, h.hardware⟩, .held hh'⟩
    refine ⟨h.rest.callers, h.rest.sending, h.rest.live, h.rest.crossed, ⟨l', hrep, fun p hp => ?_⟩,
      h.rest.slots⟩
    rcases hsub p hp with hp | rfl
    · exact hdrivers p hp
    · exact hrp
  | false =>
    obtain ⟨k₁, hk1, hinv, hnow⟩ := interruptNow_spec h hrp
    simp only [Bool.false_eq_true, if_false, hk1, map_ok]
    by_cases hpick : ¬ istaskp k.rdy.procPtr ∧ k₁.rdy.head .taskQ ≠ none
    · refine ⟨{ k₁ with rdy := pickProc k₁.rdy }, by simp [hpick],
        ⟨hinv.rdy.pickProc, hinv.rest, hinv.hardware⟩, .now hnow (.inr rfl)⟩
    · refine ⟨k₁, ?_, hinv, .now (r := k₁.rdy) hnow (.inl rfl)⟩
      rw [if_neg fun hp => hpick hp.2]

/-- The state after the first held-up interrupt has been taken from its queue. -/
def released (k : KState) (rp : ProcPtr) : KState :=
  { k with
    held := { k.held with
      head := k.held.nextheld rp
      tail := if k.held.nextheld rp = none then none else k.held.tail
      intHeld := update k.held.intHeld rp false } }

theorem released_inv (h : Inv k) (hhead : k.held.head = some rp) :
    Inv (k.released rp) ∧ IsDriver rp := by
  obtain ⟨l, hl, hdrivers⟩ := h.rest.held
  obtain ⟨l', rfl, hrep⟩ := hl.pop hhead
  refine ⟨⟨h.rdy, ?_, h.hardware⟩, hdrivers rp (List.mem_cons_self ..)⟩
  exact ⟨h.rest.callers, h.rest.sending, h.rest.live, h.rest.crossed,
    ⟨l', hrep, fun p hp => hdrivers p (List.mem_cons_of_mem _ hp)⟩, h.rest.slots⟩

/-- What one round of `unhold` can do. -/
inductive Unheld (k : KState) : KState → Prop
  | nothing (hhead : k.held.head = none) : Unheld k k
  | repeated {rp : ProcPtr} {k' : KState} (hhead : k.held.head = some rp)
      (hnow : Interrupted (k.released rp) rp k') : Unheld k k'

theorem unhold_spec (h : Inv k) : ∃ k', k.unhold = .ok k' ∧ Inv k' ∧ Unheld k k' := by
  unfold unhold
  cases hhead : k.held.head with
  | none => exact ⟨k, rfl, h, .nothing hhead⟩
  | some rp =>
    obtain ⟨hinv, hdriver⟩ := released_inv h hhead
    obtain ⟨k', hk', hinv', hnow⟩ := interruptNow_spec hinv hdriver
    exact ⟨k', hk', hinv', .repeated hhead hnow⟩

end KState

/-! ## §2 The calls of the system task -/

section OffList

variable {r : Ready} {R : ProcPtr → Prop} {p : ProcPtr}

/-- The pointer of a process that is not ready does not matter. -/
theorem Ready.Rep.update_off (h : r.Rep R) (hp : ¬ R p) (v : Option ProcPtr) :
    Ready.Rep { r with nextready := update r.nextready p v } R := by
  obtain ⟨l, hl⟩ := h.lists
  refine ⟨⟨l, fun q => (hl.queue q).update (fun hmem => hp ((hl.mem q p).mp hmem).1) v, hl.mem⟩,
    h.current⟩

end OffList

variable {p : ProcPtr}

theorem usern_eq_some {n : ℤ} (h : usern n = some p) : isuserp p := by
  unfold usern at h
  split at h
  next hn =>
    have hp := procAddr_eq_some h
    obtain ⟨h₀, -⟩ := hn
    simp only [procNumber, isuserp] at hp ⊢
    omega
  next => simp at h

theorem usern_procNumber (h : isuserp p) : usern (procNumber p) = some p := by
  have hlt := p.isLt
  have hn : isokusern (procNumber p) := by
    simp only [isokusern, procNumber, isuserp] at h ⊢
    constructor
    · omega
    · omega
  unfold usern
  rw [if_pos hn, procAddr_procNumber]

theorem susern_eq_some {n : ℤ} (h : susern n = some p) : ¬ isKernelp p := by
  unfold susern at h
  split at h
  next hn =>
    have hp := procAddr_eq_some h
    obtain ⟨h₀, -⟩ := hn
    simp only [procNumber, isKernelp] at hp ⊢
    omega
  next => simp at h

theorem not_isKernelp_of_isuserp (h : isuserp p) : ¬ isKernelp p := by
  simp only [isuserp, isKernelp] at h ⊢
  omega

theorem not_pseudo_of_not_isKernelp (h : ¬ isKernelp p) : ¬ isIdleHardware p := by
  rintro (rfl | rfl)
  · exact h (by decide)
  · exact h (by decide)

theorem not_driver_of_not_isKernelp (h : ¬ isKernelp p) : ¬ IsDriver p :=
  fun hd => h hd.1.1

/-- MM forks a process that waits for its answer, and to which nobody waits to send, into a
free slot. -/
def ForkPromise (k : KState) (rpp rpc : ProcPtr) : Prop :=
  (k.pFlags rpp).slotFree = false ∧ (k.pFlags rpp).receiving = true ∧
    (k.pFlags rpp).sending = false ∧ k.callers.callerq rpp = none ∧
    (k.pFlags rpc).slotFree = true

/-- A process that exits is a user process, and nobody waits to send to it. -/
def XitPromise (k : KState) (rc : ProcPtr) : Prop :=
  isuserp rc ∧ k.callers.callerq rc = none

/-- A process that has called EXEC waits for the answer of MM. -/
def ExecPromise (k : KState) (rp : ProcPtr) : Prop :=
  isuserp rp ∧ (k.pFlags rp).receiving = true

/-- MM finishes the signals it was told of: not the last one that was counted, when there is
one it has not been told of. -/
def SigPromise (k : KState) (rp : ProcPtr) : Prop :=
  (k.pFlags rp).pending = true → k.pPendcount rp ≠ 1

namespace KState

variable {k : KState} {rp rc rpp rpc : ProcPtr}

theorem not_waited (h : k.Consistent) (hq : k.callers.callerq rp = none) (x : ProcPtr) :
    (x, rp) ∉ k.waiting := by
  intro hmem
  have hchain := h.callers.chain rp
  rw [hq] at hchain
  have hnil : callersOf k.waiting rp = [] := Chain.unique hchain rfl
  have := mem_callersOf.mpr hmem
  simp [hnil] at this

theorem forked_inv (h : Inv k) (hp : ForkPromise k rpp rpc) (hpp : ¬ isKernelp rpp)
    (hpc : ¬ isKernelp rpc) (base : ℕ) : Inv (k.forked rpp rpc base) := by
  obtain ⟨hlive, hrec, hsend, hq, hfree⟩ := hp
  have hnot : ¬ Runnable k.pFlags rpc := fun hx => by simp [hx.1, Flags.zero] at hfree
  have hne : rpp ≠ rpc := by
    rintro rfl
    simp [hlive] at hfree
  -- nobody waits to send to the free slot, and it waits for nobody
  have hto : ∀ x, (x, rpc) ∉ k.waiting := fun x hmem => by
    simp [(h.rest.live x rpc hmem).2] at hfree
  have hfrom : ∀ x, (rpc, x) ∉ k.waiting := fun x hmem => by
    simp [(h.rest.live rpc x hmem).1] at hfree
  have hfrom' : rpc ∉ k.waiting.map Prod.fst := by
    simpa using hfrom
  have hflags : ∀ x, (update k.pFlags rpc
      { k.pFlags rpp with pending := false, sigPending := false, stop := false } x).sending = true ↔
        (k.pFlags x).sending = true ∧ x ≠ rpc := by
    intro x
    by_cases hx : x = rpc
    · simp [hx, hsend]
    · simp [hx]
  have hhard : rpc ≠ hardware := by
    rintro rfl
    exact hpc (by decide)
  refine ⟨?_, ?_, ?_⟩
  · refine (h.rdy.update_off hnot _).congr fun x => ?_
    simp only [forked, runnable_update]
    by_cases hx : x = rpc
    · subst hx
      have hne' : ({ k.pFlags rpp with pending := false, sigPending := false, stop := false }
          : Flags) ≠ Flags.zero := fun hzero => by
        simpa [Flags.zero, hrec] using congrArg Flags.receiving hzero
      simp [hnot, hne']
    · simp [hx]
  · refine ⟨⟨fun d => ?_, h.rest.callers.nodup⟩, fun x => ?_, fun a b hab => ?_, h.rest.crossed, ?_,
      fun x => ?_⟩
    · -- the queues of senders
      have hoff : rpc ∉ callersOf k.waiting d := fun hmem => hfrom d (mem_callersOf.mp hmem)
      simp only [forked]
      by_cases hd : d = rpc
      · subst hd
        have hnil : callersOf k.waiting d = [] := by
          refine List.eq_nil_iff_forall_not_mem.mpr fun x hx => hto x (mem_callersOf.mp hx)
        rw [update_self, hq, hnil]
        rfl
      · rw [update_of_ne hd]
        exact (h.rest.callers.chain d).update hoff _
    · simp only [forked]
      rw [hflags, h.rest.sending]
      constructor
      · exact fun hx => hx.1
      · exact fun hx => ⟨hx, fun hxp => hfrom' (hxp ▸ hx)⟩
    · have ha : a ≠ rpc := fun ha => hfrom b (ha ▸ hab)
      have hb : b ≠ rpc := fun hb => hto a (hb ▸ hab)
      simp only [forked]
      rw [update_of_ne ha, update_of_ne hb]
      exact h.rest.live a b hab
    · obtain ⟨l, ⟨hqueue, hmem⟩, hdrivers⟩ := h.rest.held
      have hoff : rpc ∉ l := fun hl => not_driver_of_not_isKernelp hpc (hdrivers rpc hl)
      have hpar : k.held.intHeld rpp = false := by
        cases hheld : k.held.intHeld rpp with
        | false => rfl
        | true =>
          exact absurd (hdrivers rpp ((hmem rpp).mpr hheld)) (not_driver_of_not_isKernelp hpp)
      refine ⟨l, ⟨hqueue.update hoff _, fun x => ?_⟩, hdrivers⟩
      by_cases hx : x = rpc
      · subst hx
        simp [forked, hpar, hoff]
      · simp [forked, hx, hmem]
    · simp only [forked]
      by_cases hx : x = rpc
      · subst hx
        simp only [update_self]
        exact
          { system := fun _ => hlive
            task := fun hk => absurd hk hpc
            pseudo := fun hi => absurd hi (not_pseudo_of_not_isKernelp hpc)
            pending := fun hf => by simp at hf
            counted := fun h0 => absurd rfl h0
            fromAny := fun _ _ => hsend }
      · simp only [update_of_ne hx]
        exact h.rest.slots x
  · simp only [forked]
    rw [update_of_ne (Ne.symm hhard)]
    exact h.hardware

/-- A process waiting for an answer goes on waiting when it is signalled. -/
theorem receiving_of_caused {k' : KState} {sigNr : ℕ} (h : Caused k p sigNr k')
    (hrp : rp ≠ mm) : (k'.pFlags rp).receiving = (k.pFlags rp).receiving := by
  rcases h.mail with hsame | ⟨k₁, hsame, -, -, x, -, hsame'⟩
  · exact hsame.receiving rp
  · rw [hsame'.receiving, ← hsame.receiving]
    simp [delivered, setFlags, put, writeKsig, hrp]

theorem doExec_spec (h : Inv k) (proc1 : ℤ) (traced : Bool)
    (hp : ∀ rp, susern proc1 = some rp → ExecPromise k rp) :
    ∃ n k', k.doExec proc1 traced = .ok (n, k') ∧ Inv k' ∧
      ((susern proc1 = none ∧ k' = k) ∨ ∃ rp k₁ r, susern proc1 = some rp ∧
        ((traced = false ∧ k₁ = k) ∨ (traced = true ∧ Caused k rp sigtrap k₁)) ∧ Inv k₁ ∧
        k' = { k₁.setFlags rp { k₁.pFlags rp with receiving := false } with rdy := r }) := by
  unfold doExec
  cases hrp : susern proc1 with
  | none => exact ⟨_, k, rfl, h, .inl ⟨rfl, rfl⟩⟩
  | some rp =>
    obtain ⟨huser, hrec⟩ := hp rp hrp
    have hsig : ∃ k₁, (if traced = true then k.causeSig rp sigtrap else .ok k) = .ok k₁ ∧
        Inv k₁ ∧ ((traced = false ∧ k₁ = k) ∨ (traced = true ∧ Caused k rp sigtrap k₁)) := by
      cases traced with
      | true =>
        obtain ⟨k₁, hk1, hinv, hout⟩ :=
          causeSig_spec h (not_isKernelp_of_isuserp huser) sigtrap
        exact ⟨k₁, hk1, hinv, .inr ⟨rfl, hout⟩⟩
      | false => exact ⟨k, rfl, h, .inl ⟨rfl, rfl⟩⟩
    obtain ⟨k₁, hk1, hinv, hcaused⟩ := hsig
    have hmm : rp ≠ mm := by
      rintro rfl
      exact absurd huser (by decide)
    have hrec' : (k₁.pFlags rp).receiving = true := by
      rcases hcaused with ⟨-, rfl⟩ | ⟨-, hcaused⟩
      · exact hrec
      · exact (receiving_of_caused hcaused hmm).trans hrec
    have hne : k₁.pFlags rp ≠ Flags.zero := fun hzero => by simp [hzero, Flags.zero] at hrec'
    obtain ⟨r, hr, hrep, -⟩ := readyIfZero_spec (p := rp) (R := Runnable k₁.pFlags)
      (k := k₁.setFlags rp { k₁.pFlags rp with receiving := false }) hinv.rdy
      (fun x hx => by simp [setFlags, runnable_update, hx]) (fun hx => hne hx.1)
      ((hinv.rest.slots rp).not_pseudo hne)
    refine ⟨ok, { k₁.setFlags rp { k₁.pFlags rp with receiving := false } with rdy := r }, ?_,
      ⟨hrep, ?_, hinv.hardware⟩, .inr ⟨rp, k₁, r, rfl, hcaused, hinv, rfl⟩⟩
    · simp only [hk1, ok_bind, hr, map_ok]
    · exact hinv.rest.setFlags (hinv.rest.slots rp).stop_receiving rfl rfl (fun _ _ => rfl)
        fun _ _ => rfl

/-- What `do_xit` leaves of a process. -/
def exited (k : KState) (rc : ProcPtr) : KState :=
  { k.slotFreed rc with
    waiting := k.waiting.filter fun x => decide (x.1 ≠ rc)
    log := k.log ++ (k.waiting.filter fun x => decide (x.1 = rc)).map fun x =>
      .lost rc x.2 (k.outgoing rc (k.pMessbuf rc)) }

theorem leaveQueues_spec (h : k.Consistent) (rc : ProcPtr) :
    ∃ c, k.leaveQueues rc = .ok { k with
        callers := c
        waiting := k.waiting.filter fun x => decide (x.1 ≠ rc)
        log := k.log ++ (k.waiting.filter fun x => decide (x.1 = rc)).map fun x =>
          .lost rc x.2 (k.outgoing rc (k.pMessbuf rc)) } ∧
      c.Rep (k.waiting.filter fun x => decide (x.1 ≠ rc)) := by
  unfold leaveQueues
  by_cases hsend : (k.pFlags rc).sending = true
  · obtain ⟨⟨a, d⟩, hmem, rfl⟩ := List.mem_map.mp ((h.sending rc).mp hsend)
    obtain ⟨c, hc, hrep⟩ := h.callers.unqueue hmem (List.mem_finRange d) (List.nodup_finRange _)
    refine ⟨c, ?_, hrep⟩
    rw [if_pos hsend, hc]
    rfl
  · -- it was not waiting: no list changes
    have hnot : ∀ x ∈ k.waiting, x.1 ≠ rc := by
      rintro ⟨a, d⟩ hmem rfl
      exact hsend ((h.sending a).mpr (List.mem_map_of_mem (f := Prod.fst) hmem))
    have hstay : (k.waiting.filter fun x => decide (x.1 ≠ rc)) = k.waiting :=
      List.filter_eq_self.mpr fun x hx => by simpa using hnot x hx
    have hnone : (k.waiting.filter fun x => decide (x.1 = rc)) = [] :=
      List.filter_eq_nil_iff.mpr fun x hx => by simpa using hnot x hx
    refine ⟨k.callers, ?_, by rw [hstay]; exact h.callers⟩
    rw [if_neg hsend, hstay, hnone]
    simp

theorem doXit_spec (h : Inv k) (proc1 proc2 : ℤ)
    (hp : ∀ rc, susern proc2 = some rc → XitPromise k rc) :
    ∃ n k', k.doXit proc1 proc2 = .ok (n, k') ∧ Inv k' ∧
      (((susern proc1 = none ∨ susern proc2 = none) ∧ k' = k) ∨
        ∃ rp rc r c, susern proc1 = some rp ∧ susern proc2 = some rc ∧
        k' = { k.exited rc with rdy := r, callers := c }) := by
  unfold doXit
  cases hpar : susern proc1 with
  | none => exact ⟨eBadProc, k, rfl, h, .inl ⟨.inl rfl, rfl⟩⟩
  | some par =>
    cases hrc : susern proc2 with
    | none => exact ⟨eBadProc, k, rfl, h, .inl ⟨.inr rfl, rfl⟩⟩
    | some rc =>
      obtain ⟨huser, hq⟩ := hp rc hrc
      obtain ⟨r, hr, hrep⟩ := unreadyIfZero_spec h.rdy rc
      obtain ⟨c, hc, hcrep⟩ := leaveQueues_spec (k := { k with rdy := r }) h.rest rc
      refine ⟨ok, { k.exited rc with rdy := r, callers := c }, ?_, ⟨?_, ?_, h.hardware⟩,
        .inr ⟨par, rc, r, c, rfl, rfl, rfl⟩⟩
      · simp only [hr, ok_bind, hc, map_ok]
        rfl
      · exact rep_blocked hrep (by decide)
      · refine h.rest.leave hcrep ?_ rfl (fun _ => not_waited h.rest hq) (fun hf => ?_)
          fun x hx => update_of_ne hx _ _
        · exact
            { system := fun hs => absurd huser hs
              task := fun hk => absurd hk (not_isKernelp_of_isuserp huser)
              pseudo := fun hi => absurd hi
                (not_pseudo_of_not_isKernelp (not_isKernelp_of_isuserp huser))
              pending := fun hf => by simp [Flags.free, Flags.zero] at hf
              counted := fun h0 => by simp [exited, slotFreed] at h0
              fromAny := fun _ _ => rfl }
        · simp [Flags.free] at hf

theorem doTrace_spec (h : Inv k) (procnr request : ℤ) (hp : isokusern procnr)
    (hstop : ∀ rp, procAddr procnr = some rp → request = 7 ∨ request = 9 →
      (k.pFlags rp).slotFree = false → (k.pFlags rp).stop = true) :
    ∃ n k', k.doTrace procnr request = .ok (n, k') ∧ Inv k' ∧ SameMail k k' := by
  have hrp : ∃ rp, procAddr procnr = some rp ∧ isuserp rp := by
    have husern : usern procnr = procAddr procnr := if_pos hp
    obtain ⟨rp, hrp⟩ := procAddr_of_isokprocn (n := procnr) (by
      obtain ⟨h₀, h1⟩ := hp
      simp only [isokprocn, nrTasks, nrProcs] at h1 ⊢
      omega)
    exact ⟨rp, hrp, usern_eq_some (husern.trans hrp)⟩
  obtain ⟨rp, hrp, huser⟩ := hrp
  have hkernel := not_isKernelp_of_isuserp huser
  unfold doTrace
  simp only [hrp]
  by_cases hfree : (k.pFlags rp).slotFree = true
  · exact ⟨_, k, if_pos hfree, h, .refl k⟩
  rw [if_neg hfree]
  by_cases hreq : request = -1
  · obtain ⟨r, hr, hrep⟩ := Ready.unready_rep h.rdy rp
    refine ⟨ok, setFlags { k with rdy := r } rp { k.pFlags rp with stop := true }, ?_,
      ⟨rep_blocked hrep ?_, ?_, h.hardware⟩,
      SameMail.of_flags (p := rp) (f := { k.pFlags rp with stop := true }) rfl
        ⟨rfl, rfl, rfl, rfl, rfl, rfl, rfl, rfl, rfl, rfl⟩ rfl rfl rfl⟩
    · rw [if_pos hreq, hr]
      rfl
    · intro hzero
      simpa [Flags.zero] using congrArg Flags.stop hzero
    · exact h.rest.setFlags ((h.rest.slots rp).set_stop hkernel true) rfl rfl (fun _ _ => rfl)
        fun _ _ => rfl
  rw [if_neg hreq]
  by_cases hgo : request = 7 ∨ request = 9
  · have hstopped := hstop rp hrp hgo (by simpa using hfree)
    have hne : k.pFlags rp ≠ Flags.zero := fun hzero => by simp [hzero, Flags.zero] at hstopped
    obtain ⟨r, hr, hrep, -⟩ := readyIfZero_spec (p := rp) (R := Runnable k.pFlags)
      (k := k.setFlags rp { k.pFlags rp with stop := false }) h.rdy
      (fun x hx => by simp [setFlags, runnable_update, hx]) (fun hx => hne hx.1)
      ((h.rest.slots rp).not_pseudo hne)
    refine ⟨ok, { k.setFlags rp { k.pFlags rp with stop := false } with rdy := r },
      by rw [if_pos hgo, hr]; rfl, ⟨hrep, ?_, h.hardware⟩,
      SameMail.of_flags (p := rp) (f := { k.pFlags rp with stop := false }) rfl
        ⟨rfl, rfl, rfl, rfl, rfl, rfl, rfl, rfl, rfl, rfl⟩ rfl rfl rfl⟩
    exact h.rest.setFlags ((h.rest.slots rp).set_stop hkernel false) rfl rfl (fun _ _ => rfl)
      fun _ _ => rfl
  · exact ⟨ok, k, if_neg hgo, h, .refl k⟩

end KState

end LisaMinix.Kernel
