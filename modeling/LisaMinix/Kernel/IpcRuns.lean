import LisaMinix.Kernel.IpcCalls
import LisaMinix.Kernel.SigView

/-!
# Runs of the Kernel

A run starts with `main` and goes on with any events in any order.  The system task, the clock
and terminal tasks, MM and FS are trusted by the kernel; what it relies on is `Promised`.  In
every state that such a run reaches the queues of the process table are as they should be
(`reached_wellQueued`), and no call hangs or panics.

Without the promises the queues can be damaged (`unpromised_runs_fail`).
-/

namespace LisaMinix.Kernel

open LisaMinix.Library
open LisaMinix.Mm (MemMap MemMaps nrProcs)

/-! ## §1 Steps -/

/-- What the callers of the kernel promise. -/
def Promised (k : KState) : Event → Prop
  | .sysCall f srcDest _ =>
    -- IDLE makes no calls; tasks and servers name a process when they send
    k.rdy.procPtr ≠ idle ∧ (isuserp k.rdy.procPtr ∨ f = .receive ∨ srcDest ≠ any)
  | .async rp _ => IsDriver rp
  | .causeSig rp _ => ¬ isKernelp rp
  | .fork proc1 proc2 _ =>
    match susern proc1, susern proc2 with
    | some rpp, some rpc => ForkPromise k rpp rpc
    | _, _ => True
  | .exec proc1 _ =>
    match susern proc1 with
    | some rp => ExecPromise k rp
    | none => True
  | .xit _ proc2 =>
    match susern proc2 with
    | some rc => XitPromise k rc
    | none => True
  | .sig pr signum =>
    match usern pr with
    | some rp => signum = -1 → SigPromise k rp
    | none => True
  | .trace procnr request =>
    -- MM traces user processes, and lets only a stopped one go on
    isokusern procnr ∧
      match procAddr procnr with
      | some rp => request = 7 ∨ request = 9 → (k.pFlags rp).slotFree = false →
          (k.pFlags rp).stop = true
      | none => True
  | .newmap proc1 _ => 0 ≤ proc1
  | .store .. | .unhold | .sched | .kill .. => True

instance (pFlags : ProcPtr → Flags) : DecidablePred (Runnable pFlags) := fun _ =>
  inferInstanceAs (Decidable (_ ∧ _))

instance (p : ProcPtr) : Decidable (IsDriver p) := inferInstanceAs (Decidable (_ ∧ _))

instance (k : KState) (rpp rpc : ProcPtr) : Decidable (ForkPromise k rpp rpc) :=
  inferInstanceAs (Decidable (_ ∧ _))

instance (k : KState) (rc : ProcPtr) : Decidable (XitPromise k rc) :=
  inferInstanceAs (Decidable (_ ∧ _))

instance (k : KState) (rp : ProcPtr) : Decidable (ExecPromise k rp) :=
  inferInstanceAs (Decidable (_ ∧ _))

instance (k : KState) (rp : ProcPtr) : Decidable (SigPromise k rp) :=
  inferInstanceAs (Decidable (_ → _))

instance (k : KState) : DecidablePred (Promised k)
  | .sysCall .. => inferInstanceAs (Decidable (_ ∧ (_ ∨ _ ∨ _)))
  | .async rp _ => inferInstanceAs (Decidable (IsDriver rp))
  | .causeSig rp _ => inferInstanceAs (Decidable ¬isKernelp rp)
  | .fork proc1 proc2 _ =>
    decidable_of_iff (∀ rpp ∈ susern proc1, ∀ rpc ∈ susern proc2, ForkPromise k rpp rpc) (by
      cases hp : susern proc1 <;> cases hc : susern proc2 <;> simp [Promised, hp, hc])
  | .exec proc1 _ =>
    decidable_of_iff (∀ rp ∈ susern proc1, ExecPromise k rp) (by
      cases hp : susern proc1 <;> simp [Promised, hp])
  | .xit _ proc2 =>
    decidable_of_iff (∀ rc ∈ susern proc2, XitPromise k rc) (by
      cases hp : susern proc2 <;> simp [Promised, hp])
  | .sig pr signum =>
    decidable_of_iff (∀ rp ∈ usern pr, signum = -1 → SigPromise k rp) (by
      cases hp : usern pr <;> simp [Promised, hp])
  | .trace procnr request =>
    decidable_of_iff (isokusern procnr ∧ ∀ rp ∈ procAddr procnr, request = 7 ∨ request = 9 →
        (k.pFlags rp).slotFree = false → (k.pFlags rp).stop = true) (by
      cases hp : procAddr procnr <;> simp [Promised, hp])
  | .newmap proc1 _ => inferInstanceAs (Decidable (0 ≤ proc1))
  | .store .. | .unhold | .sched | .kill .. => .isTrue trivial

/-- The process and the signal when an event calls `cause_sig`. -/
def signalOf : Event → Option (ProcPtr × ℕ)
  | .causeSig rp sigNr => some (rp, sigNr)
  | .kill pr signum => (usern pr).map fun rp => (rp, signum)
  | .exec proc1 traced => if traced then (susern proc1).map fun rp => (rp, sigtrap) else none
  | _ => none

/-- The slot that an event frees or puts a new process into. -/
def renewedBy : Event → Option ProcPtr
  | .fork proc1 proc2 _ => if (susern proc1).isSome then susern proc2 else none
  | .xit proc1 proc2 => if (susern proc1).isSome then susern proc2 else none
  | _ => none

/-- The process that an event starts again with a new program. -/
def execedBy : Event → Option ProcPtr
  | .exec proc1 _ => susern proc1
  | _ => none

namespace KState

variable {k : KState} {e : Event}

theorem resumed_inv (h : Inv k) : Inv k.resumed := ⟨h.rdy, h.rest, h.hardware⟩

/-- What an event can do. -/
inductive Performed (k : KState) : Event → KState → Prop
  | called {f : Func} {srcDest mPtr n : ℤ} {k' : KState} (hzero : Runnable k.pFlags k.rdy.procPtr)
      (h : Called k.resumed k.rdy.procPtr srcDest mPtr n k') :
      Performed k (.sysCall f srcDest mPtr) k'
  | stored {addr : ℤ} {msg : Message} : Performed k (.store addr msg) (k.resumed.store addr msg)
  | async {rp : ProcPtr} {busy : Bool} {k' : KState} (hrp : IsDriver rp)
      (h : Async k rp busy k') : Performed k (.async rp busy) k'
  | unheld {k' : KState} (h : Unheld k k') : Performed k .unhold k'
  | quiet {e : Event} {k' : KState} (h : SameMail k.resumed k') (hsig : k'.sigView = k.sigView)
      (hcause : signalOf e = none) (hrenew : renewedBy e = none) (hexec : execedBy e = none) :
      Performed k e k'
  | finished {pr : ℤ} {rp : ProcPtr} {k' : KState} (hrp : usern pr = some rp)
      (hrun : k.resumed.finishSig rp = .ok k') (h : SameMail k.resumed k') :
      Performed k (.sig pr (-1)) k'
  | caused {e : Event} {rp : ProcPtr} {sigNr : ℕ} {k' : KState}
      (he : e = .causeSig rp sigNr ∨ ∃ pr, e = .kill pr sigNr ∧ usern pr = some rp)
      (h : Caused k.resumed rp sigNr k') : Performed k e k'
  | forked {proc1 proc2 : ℤ} {rpp rpc : ProcPtr} {base : ℕ} (hpp : susern proc1 = some rpp)
      (hpc : susern proc2 = some rpc) (hp : ForkPromise k rpp rpc) :
      Performed k (.fork proc1 proc2 base) (k.resumed.forked rpp rpc base)
  | execed {proc1 : ℤ} {traced : Bool} {rp : ProcPtr} {k₁ : KState} {r : Ready}
      (hrp : susern proc1 = some rp)
      (h : (traced = false ∧ k₁ = k.resumed) ∨ (traced = true ∧ Caused k.resumed rp sigtrap k₁))
      (hinv : Inv k₁) :
      Performed k (.exec proc1 traced)
        { k₁.setFlags rp { k₁.pFlags rp with receiving := false } with rdy := r }
  | remapped {proc1 : ℤ} {map : MemMaps} {rp : ProcPtr} (hrp : procAddr proc1 = some rp) :
      Performed k (.newmap proc1 map)
        { k.resumed with pMap := Function.update k.resumed.pMap rp map }
  | exited {proc1 proc2 : ℤ} {rp rc : ProcPtr} {r : Ready} {c : Callers}
      (hrp : susern proc1 = some rp) (hrc : susern proc2 = some rc) (hp : XitPromise k rc) :
      Performed k (.xit proc1 proc2) { k.resumed.exited rc with rdy := r, callers := c }

theorem Performed.nothing {e : Event} (hcause : signalOf e = none) (hrenew : renewedBy e = none)
    (hexec : execedBy e = none) : Performed k e k.resumed :=
  .quiet (.refl _) rfl hcause hrenew hexec

/-- Every promised event is dealt with, and keeps the invariant. -/
theorem perform_spec (h : Inv k) (hp : Promised k e) :
    ∃ n k', k.perform e = .ok (n, k') ∧ Inv k' ∧ Performed k e k' := by
  have hres := resumed_inv h
  cases e with
  | sysCall f srcDest mPtr =>
    obtain ⟨n, k', hk', hinv, hcalled⟩ := sysCall_spec f srcDest hres hp.1 hp.2 mPtr
    exact ⟨n, k', hk', hinv, .called (running_zero h hp.1) hcalled⟩
  | store addr msg => exact ⟨ok, _, rfl, ⟨hres.rdy, hres.rest, hres.hardware⟩, .stored⟩
  | async rp busy =>
    obtain ⟨k', hk', hinv, hasync⟩ := async_spec h hp busy
    exact ⟨ok, k', by simp only [perform, hk', map_ok], hinv, .async hp hasync⟩
  | unhold =>
    obtain ⟨k', hk', hinv, hun⟩ := unhold_spec h
    exact ⟨ok, k', by simp only [perform, hk', map_ok], hinv, .unheld hun⟩
  | sched =>
    obtain ⟨r, hr, hrep⟩ := Ready.sched_rep h.rdy
    exact ⟨ok, { k.resumed with rdy := r }, by simp only [perform, hr, map_ok],
      ⟨hrep, h.rest, h.hardware⟩, .quiet ((SameMail.refl _).with_rdy r) rfl rfl rfl rfl⟩
  | causeSig rp sigNr =>
    obtain ⟨k', hk', hinv, hcaused⟩ := causeSig_spec hres hp sigNr
    exact ⟨ok, k', by simp only [perform, hk', map_ok], hinv, .caused (.inl rfl) hcaused⟩
  | fork proc1 proc2 base =>
    simp only [perform, doFork]
    cases hpp : susern proc1 with
    | none => exact ⟨eBadProc, _, rfl, hres, .nothing rfl (by simp [renewedBy, hpp]) rfl⟩
    | some rpp =>
      cases hpc : susern proc2 with
      | none => exact ⟨eBadProc, _, rfl, hres, .nothing rfl (by simp [renewedBy, hpc]) rfl⟩
      | some rpc =>
        have hp' : ForkPromise k rpp rpc := by simpa [Promised, hpp, hpc] using hp
        exact ⟨ok, _, rfl, forked_inv hres hp' (susern_eq_some hpp) (susern_eq_some hpc) base,
          .forked hpp hpc hp'⟩
  | exec proc1 traced =>
    obtain ⟨n, k', hk', hinv, hout⟩ := doExec_spec hres proc1 traced fun rp hrp => by
      simp only [Promised, hrp] at hp
      exact hp
    refine ⟨n, k', hk', hinv, ?_⟩
    rcases hout with ⟨hnone, rfl⟩ | ⟨rp, k₁, r, hrp, hcaused, hinv1, rfl⟩
    · exact .nothing (by simp [signalOf, hnone]) rfl (by simp [execedBy, hnone])
    · exact .execed hrp hcaused hinv1
  | xit proc1 proc2 =>
    obtain ⟨n, k', hk', hinv, hout⟩ := doXit_spec hres proc1 proc2 fun rc hrc => by
      simp only [Promised, hrc] at hp
      exact hp
    refine ⟨n, k', hk', hinv, ?_⟩
    rcases hout with ⟨hnone, rfl⟩ | ⟨rp, rc, r, c, hrp, hrc, rfl⟩
    · refine .nothing rfl ?_ rfl
      rcases hnone with hnone | hnone
      · simp [renewedBy, hnone]
      · simp [renewedBy, hnone]
    · exact .exited hrp hrc (by simpa [Promised, hrc] using hp)
  | sig pr signum =>
    simp only [perform, doSig]
    cases hrp : usern pr with
    | none => exact ⟨eBadProc, _, rfl, hres, .nothing rfl rfl rfl⟩
    | some rp =>
      by_cases hs : signum = -1
      · have hp' : SigPromise k rp := by simpa [Promised, hrp, hs] using hp
        obtain ⟨k', hk', hinv, hsame⟩ := finishSig_spec hres hp'
        refine ⟨ok, k', by simp only [hs, if_true, hk', map_ok], hinv, ?_⟩
        subst hs
        exact .finished hrp hk' hsame
      · exact ⟨ok, _, by simp only [hs, if_false], hres, .nothing rfl rfl rfl⟩
  | kill pr signum =>
    simp only [perform, doKill]
    cases hrp : usern pr with
    | none => exact ⟨eBadProc, _, rfl, hres, .nothing (by simp [signalOf, hrp]) rfl rfl⟩
    | some rp =>
      obtain ⟨k', hk', hinv, hcaused⟩ := causeSig_spec hres
        (not_isKernelp_of_isuserp (usern_eq_some hrp)) signum
      exact ⟨ok, k', by simp only [hk', map_ok], hinv, .caused (.inr ⟨pr, rfl, hrp⟩) hcaused⟩
  | trace procnr request =>
    obtain ⟨n, k', hk', hinv, hsame⟩ := doTrace_spec hres procnr request hp.1 fun rp hrp => by
      have := hp.2
      simp only [hrp] at this
      exact this
    exact ⟨n, k', hk', hinv, .quiet hsame (doTrace_sigView (k := k.resumed) hk') rfl rfl rfl⟩
  | newmap proc1 map =>
    simp only [perform, doNewmap]
    cases hrp : procAddr proc1 with
    | none => exact ⟨eBadProc, _, rfl, hres, .nothing rfl rfl rfl⟩
    | some rp =>
      refine ⟨ok, _, rfl, ⟨hres.rdy, hres.rest, ?_⟩,
        .remapped hrp⟩
      have hne : hardware ≠ rp := by
        rintro rfl
        have hp' : (0 : ℤ) ≤ proc1 := hp
        have := procAddr_eq_some hrp
        simp only [procNumber, hardware] at this
        norm_num at this
        omega
      dsimp only
      rw [Function.update_of_ne hne]
      exact h.hardware

/-- The state after a promised event satisfies the invariant, and is one that the event can lead
to. -/
theorem perform_cases (h : Inv k) (hp : Promised k e) {n : ℤ} {k' : KState}
    (hrun : k.perform e = .ok (n, k')) : Inv k' ∧ Performed k e k' := by
  obtain ⟨n', k₁, hk1, hinv, hout⟩ := perform_spec h hp
  rw [hrun] at hk1
  obtain ⟨-, rfl⟩ := Prod.mk.inj (Except.ok.inj hk1)
  exact ⟨hinv, hout⟩

end KState

/-! ## §2 The start -/

theorem nobodyReady_rep : nobodyReady.Rep fun _ => False :=
  ⟨⟨fun _ => [], fun _ => IsQueue.empty, by simp⟩, .inl rfl⟩

/-- Processes are made ready one after the other. -/
theorem foldlM_ready {l : List ProcPtr} {r : Ready} {R : ProcPtr → Prop} (h : r.Rep R)
    (hnd : l.Nodup) (hR : ∀ p ∈ l, ¬ R p) :
    ∃ r', l.foldlM ready r = .ok r' ∧ r'.Rep fun p => R p ∨ p ∈ l := by
  induction l generalizing r R with
  | nil => exact ⟨r, rfl, h.congr fun p => by simp⟩
  | cons p l ih =>
    obtain ⟨hp, hnd'⟩ := List.nodup_cons.mp hnd
    obtain ⟨r₁, hr1, hrep, -⟩ := Ready.ready_rep h (hR p (List.mem_cons_self ..))
    obtain ⟨r', hr', hrep'⟩ := ih hrep hnd' fun x hx => by
      rintro (hRx | rfl)
      · exact hR x (List.mem_cons_of_mem _ hx) hRx
      · exact hp hx
    refine ⟨r', ?_, hrep'.congr fun x => by simp [or_assoc]⟩
    rw [List.foldlM_cons, hr1]
    exact hr'

theorem layout_low (L : Layout) :
    ¬ KState.badAddr { memVir := 0, memPhys := 0, memLen := 65535 } L.addrM := by
  obtain ⟨h0, h1⟩ := L.low
  simp only [messSize] at h1
  simp only [KState.badAddr, Mm.clickOf, messSize]
  omega

variable {L : Layout} {map : ProcPtr → MemMaps} {memory : Cell → Message} {k : KState}

theorem startFlags_runnable : ∀ p, p ∈ startProcs ↔ Runnable startFlags p := by
  decide

theorem startFlags_ok (p : ProcPtr) : SlotOk p (startFlags p) 0 0 := by
  refine ⟨?_, ?_, ?_, ?_, by simp, by simp [any]⟩ <;> revert p <;> decide

/-- `main` returns, and the invariant holds. -/
theorem boot_inv (L : Layout) (map : ProcPtr → MemMaps) (memory : Cell → Message) :
    ∃ k, boot L map memory = .ok k ∧ Inv k := by
  obtain ⟨r, hr, hrep⟩ := foldlM_ready nobodyReady_rep (l := startProcs) (by decide) (by simp)
  have hsending : ∀ p, (startFlags p).sending = true ↔ p ∈ ([] : List ProcPtr) := by decide
  refine ⟨_, by rw [boot, hr]; rfl, ⟨(hrep.congr fun p => ?_).pickProc, ?_, ?_⟩⟩
  · rw [← startFlags_runnable, false_or]
  · exact ⟨⟨fun d => rfl, by simp⟩, hsending, by simp, by simp,
      ⟨[], ⟨IsQueue.empty, by simp⟩, by simp⟩, startFlags_ok⟩
  · simpa using layout_low L

/-! ## §3 Runs -/

/-- The states that are reached from the start by events that are `allowed`. -/
inductive Reached (allowed : KState → Event → Prop) (L : Layout) (map : ProcPtr → MemMaps)
    (memory : Cell → Message) : KState → Prop
  | boot {k : KState} (h : boot L map memory = .ok k) : Reached allowed L map memory k
  | step {k k' : KState} {e : Event} {n : ℤ} (hk : Reached allowed L map memory k)
      (hp : allowed k e) (h : k.perform e = .ok (n, k')) : Reached allowed L map memory k'

/-- The invariant holds in every state that is reached by promised events. -/
theorem Reached.inv (h : Reached Promised L map memory k) : Inv k := by
  induction h with
  | boot h =>
    obtain ⟨k, hk, hinv⟩ := boot_inv L map memory
    rw [h] at hk
    exact (Except.ok.inj hk) ▸ hinv
  | step _ hp h ih => exact (KState.perform_cases ih hp h).1

/-- Deal with some events one after the other, as long as they pass a check. -/
def play (check : KState → Event → Bool) : List Event → KState → Except Fault KState
  | [], k => .ok k
  | e :: es, k =>
    if check k e then k.perform e >>= fun res => play check es res.2 else .error .endless

theorem Reached.play {allowed : KState → Event → Prop} {check : KState → Event → Bool}
    (hcheck : ∀ k e, check k e = true → allowed k e) {es : List Event} {k' : KState}
    (h : Reached allowed L map memory k) (hplay : play check es k = .ok k') :
    Reached allowed L map memory k' := by
  induction es generalizing k with
  | nil =>
    cases hplay
    exact h
  | cons e es ih =>
    unfold Kernel.play at hplay
    split at hplay
    next hc =>
      cases hrun : k.perform e with
      | error f =>
        rw [hrun] at hplay
        exact absurd hplay (by simp [bind, Except.bind])
      | ok res =>
        rw [hrun, ok_bind] at hplay
        exact ih (h.step (n := res.1) (hcheck k e hc) hrun) hplay
    next => exact absurd hplay (by simp)

/-- A run from the start, and something that is computed from the state it reaches. -/
theorem exists_reached {α : Type} (allowed : KState → Event → Prop) (L : Layout)
    (map : ProcPtr → MemMaps) (memory : Cell → Message) (check : KState → Event → Bool)
    (hcheck : ∀ k e, check k e = true → allowed k e) (es : List Event) (f : KState → α) (a : α)
    (h : ((boot L map memory).bind (play check es)).map f = .ok a) :
    ∃ k, Reached allowed L map memory k ∧ f k = a := by
  cases hboot : boot L map memory with
  | error e =>
    rw [hboot] at h
    exact absurd h (by simp [Except.bind, Except.map])
  | ok k₀ =>
    rw [hboot] at h
    cases hplay : play check es k₀ with
    | error e => exact absurd h (by simp [Except.bind, Except.map, hplay])
    | ok k =>
      have hf : f k = a := by simpa [Except.bind, Except.map, hplay] using h
      exact ⟨k, (Reached.boot hboot).play hcheck hplay, hf⟩

/-! ## §4 The queues in every state of a run -/

/-- The slot is in use. -/
def InUse (k : KState) (p : ProcPtr) : Prop := (k.pFlags p).slotFree = false

/-- Each ready queue holds, once, the processes of its class that are in use and have no flag
set, less some that are `excluded`; its head and tail are right. -/
def ReadyOk (k : KState) (excluded : ProcPtr → Prop) : Prop :=
  ∃ l : Queue → List ProcPtr,
    (∀ q, IsQueue k.rdy.nextready (k.rdy.head q) (k.rdy.tail q) (l q) ∧ (l q).Nodup) ∧
      ∀ p q, p ∈ l q ↔
        k.pFlags p = Flags.zero ∧ InUse k p ∧ ¬ excluded p ∧ queueOf p = q

/-- The processes that are sending are each on the queue of one process, once; everybody
concerned is in use, and no two processes wait to send to each other. -/
def CallersOk (k : KState) : Prop :=
  ∃ c : ProcPtr → List ProcPtr,
    (∀ d, Chain k.callers.sendlink (k.callers.callerq d) (c d) ∧ (c d).Nodup) ∧
      (∀ s, (k.pFlags s).sending = true ↔ ∃ d, s ∈ c d) ∧
      (∀ s d d', s ∈ c d → s ∈ c d' → d = d') ∧
      (∀ s d, s ∈ c d → InUse k s ∧ InUse k d) ∧
      ∀ s d, s ≠ d → s ∈ c d → d ∉ c s

/-- The processes with a held-up interrupt are on the held queue, once, and in use. -/
def HeldOk (k : KState) : Prop :=
  ∃ l : List ProcPtr, IsQueue k.held.nextheld k.held.head k.held.tail l ∧ l.Nodup ∧
    ∀ p, (p ∈ l ↔ k.held.intHeld p = true) ∧ (p ∈ l → InUse k p)

/-- The queues of the process table are as they should be. -/
structure WellQueued (k : KState) : Prop where
  ready : ReadyOk k isIdleHardware
  callers : CallersOk k
  held : HeldOk k

theorem Inv.wellQueued (h : Inv k) : WellQueued k where
  ready := by
    obtain ⟨l, hl⟩ := h.rdy.lists
    refine ⟨l, fun q => ⟨hl.queue q, (hl.queue q).nodup⟩, fun p q => ?_⟩
    rw [hl.mem]
    constructor
    · rintro ⟨⟨hzero, hreal⟩, hq⟩
      exact ⟨hzero, by rw [InUse, hzero]; rfl, hreal, hq⟩
    · rintro ⟨hzero, -, hreal, hq⟩
      exact ⟨⟨hzero, hreal⟩, hq⟩
  callers := by
    have hchain := h.rest.callers.chain
    refine ⟨callersOf k.waiting, fun d => ⟨hchain d, (hchain d).nodup⟩, fun s => ?_,
      fun s d d' hd hd' => ?_, fun s d hd => ?_, fun s d hne hd hs => ?_⟩
    · rw [h.rest.sending]
      simp
    · exact waiting_unique h.rest.callers.nodup (mem_callersOf.mp hd) (mem_callersOf.mp hd')
    · exact h.rest.live s d (mem_callersOf.mp hd)
    · exact h.rest.crossed s d hne (mem_callersOf.mp hd) (mem_callersOf.mp hs)
  held := by
    obtain ⟨l, ⟨hqueue, hmem⟩, hdrivers⟩ := h.rest.held
    refine ⟨l, hqueue, hqueue.nodup, fun p => ⟨hmem p, fun hp => ?_⟩⟩
    have hk : isKernelp p := (hdrivers p hp).1.1
    refine (h.rest.slots p).system ?_
    simp only [isuserp, isKernelp] at hk ⊢
    omega

/-- In every state of a run the queues are as they should be, and the kernel deals with every
event that is promised. -/
theorem reached_wellQueued (h : Reached Promised L map memory k) :
    WellQueued k ∧ ∀ e, Promised k e → ∃ n k', k.perform e = .ok (n, k') := by
  refine ⟨h.inv.wellQueued, fun e he => ?_⟩
  obtain ⟨n, k', hk', -⟩ := KState.perform_spec h.inv he
  exact ⟨n, k', hk'⟩

/-- A layout in which the variables of the task in slot `i` start at the address `256 * i`. -/
def plainLayout : Layout where
  addrM := 1792
  home := fun a => Fin.ofNat 41 (a / 256).toNat
  home_m := by decide
  low := by decide

/-- Every process may use the addresses below 256000. -/
def plainMap (_ : ProcPtr) : MemMaps :=
  ⟨⟨0, 0, 0⟩, ⟨0, 0, 1000⟩, ⟨1000, 1000, 0⟩⟩

def noMessage (_ : Cell) : Message := ⟨0, 0, 0, 0, 0⟩

/-- The tasks, MM and FS wait for messages. -/
def settle : List Event :=
  [0, 2, 3, 4, 5, 6, 7, 9, 10].map fun i => .sysCall .receive any (256 * i)

/-- INIT forks: it calls MM, which calls the system task, which makes the slot 3 a copy of
slot 2; then MM answers the child. -/
def forkRun : List Event :=
  settle ++ [.sysCall .both 0 2816, .sysCall .both (-2) 2304, .fork 2 3 2000,
    .sysCall .send 0 1792, .sysCall .receive any 1792, .sysCall .send 3 2304]

theorem reached_wellQueued_fork : ∃ k, Reached Promised plainLayout plainMap noMessage k ∧
    k.rdy.head .userQ = some 12 ∧ (k.pFlags init).receiving = true ∧
    WellQueued k ∧ ∀ e, Promised k e → ∃ n k', k.perform e = .ok (n, k') := by
  obtain ⟨k, hr, hf⟩ := exists_reached Promised plainLayout plainMap noMessage
    (fun k e => decide (Promised k e)) (fun k e h => of_decide_eq_true h) forkRun
    (fun k => (k.rdy.head .userQ, (k.pFlags init).receiving)) (some 12, true)
    (by decide +kernel)
  simp only [Prod.mk.injEq] at hf
  obtain ⟨hhead, hrec⟩ := hf
  exact ⟨k, hr, hhead, hrec, reached_wellQueued hr⟩

/-! ## §5 What goes wrong without the promises -/

/-- A process that has no flag set is not on the queue of its class. -/
theorem not_readyOk {excluded : ProcPtr → Prop} {p : ProcPtr} (m : List ProcPtr)
    (hzero : k.pFlags p = Flags.zero) (hp : ¬ excluded p)
    (hchain : Chain k.rdy.nextready (k.rdy.head (queueOf p)) m) (hm : p ∉ m) :
    ¬ ReadyOk k excluded := by
  rintro ⟨l, hl, hmem⟩
  have heq : l (queueOf p) = m := Chain.unique (hl (queueOf p)).1.chain hchain
  exact hm (heq ▸ (hmem p (queueOf p)).mpr ⟨hzero, by rw [InUse, hzero]; rfl, hp, rfl⟩)

/-- A process that has exited has one waiting to send to it. -/
theorem not_callersOk {s d : ProcPtr} (hq : k.callers.callerq d = some s)
    (hfree : (k.pFlags d).slotFree = true) : ¬ CallersOk k := by
  rintro ⟨c, hchain, -, -, hlive, -⟩
  have hc := (hchain d).1
  rw [hq] at hc
  cases hd : c d with
  | nil => exact absurd (hd ▸ hc) (by simp)
  | cons x t =>
    have := (hlive x d (by rw [hd]; simp)).2
    simp [InUse, hfree] at this

/-- What a run without promises has done to the ready queues: the process `p` has no flag set,
and the queue of its class is `m`. -/
def lostProc (p : ProcPtr) (m : List ProcPtr) (k : KState) : Bool :=
  decide (k.pFlags p = Flags.zero) &&
    decide (Chain k.rdy.nextready (k.rdy.head (queueOf p)) m) && decide (p ∉ m)

theorem exists_not_readyOk {excluded : ProcPtr → Prop} {allowed : KState → Event → Prop}
    (check : KState → Event → Bool) (hcheck : ∀ k e, check k e = true → allowed k e)
    (es : List Event) (p : ProcPtr) (m : List ProcPtr) (hp : ¬ excluded p)
    (h : ((boot plainLayout plainMap noMessage).bind (play check es)).map (lostProc p m) =
      .ok true) :
    ∃ k, Reached allowed plainLayout plainMap noMessage k ∧ ¬ ReadyOk k excluded := by
  obtain ⟨k, hr, hf⟩ := exists_reached _ plainLayout plainMap noMessage check hcheck es
    (lostProc p m) true h
  simp only [lostProc, Bool.and_eq_true, decide_eq_true_eq] at hf
  exact ⟨k, hr, not_readyOk m hf.1.1 hp hf.1.2 hf.2⟩

/-- Promised events, and one request to the system task that is not promised. -/
def butFor (e₀ : Event) (k : KState) (e : Event) : Prop := e = e₀ ∨ Promised k e

instance (e₀ : Event) (k : KState) : DecidablePred (butFor e₀ k) := fun _ =>
  inferInstanceAs (Decidable (_ ∨ _))

/-- IDLE is in use and has no flag set, but is on no queue, from the start on.  And without the
promises the queues are damaged: FS sends to INIT, which does not wait for it, and INIT exits;
a process is forked that is ready; MM "executes" a program while it is ready, and FS is lost; a
signal is finished that MM has not been told of. -/
theorem unpromised_runs_fail :
    (∃ k, Reached Promised plainLayout plainMap noMessage k ∧ ¬ ReadyOk k fun _ => False) ∧
    (∃ k, Reached (butFor (.xit 0 2)) plainLayout plainMap noMessage k ∧
      ¬ CallersOk k) ∧
    (∃ k, Reached (butFor (.fork 2 3 2000)) plainLayout plainMap noMessage k ∧
      ¬ ReadyOk k isIdleHardware) ∧
    (∃ k, Reached (butFor (.exec 0 false)) plainLayout plainMap noMessage k ∧
      ¬ ReadyOk k isIdleHardware) ∧
    ∃ k, Reached (butFor (.sig 2 (-1))) plainLayout plainMap noMessage k ∧
      ¬ ReadyOk k isIdleHardware := by
  have hcheck : ∀ e₀ k e, decide (butFor e₀ k e) = true → butFor e₀ k e :=
    fun _ _ _ h => of_decide_eq_true h
  refine ⟨?_, ?_, ?_, ?_, ?_⟩
  · exact exists_not_readyOk (fun k e => decide (Promised k e)) (fun k e h => of_decide_eq_true h)
      [] idle [mm, fs] (by simp) (by decide +kernel)
  · obtain ⟨k, hr, hf⟩ := exists_reached _ plainLayout plainMap noMessage _ (hcheck (.xit 0 2))
      (settle.take 8 ++ [.sysCall .send 2 2560, .sysCall .both 0 2816, .sysCall .both (-2) 2304,
        .xit 0 2])
      (fun k => decide (k.callers.callerq init = some fs) && (k.pFlags init).slotFree) true
      (by decide +kernel)
    simp only [Bool.and_eq_true, decide_eq_true_eq] at hf
    exact ⟨k, hr, not_callersOk hf.1 hf.2⟩
  · exact exists_not_readyOk _ (hcheck (.fork 2 3 2000)) [.fork 2 3 2000] 12 [init] (by decide)
      (by decide +kernel)
  · exact exists_not_readyOk _ (hcheck (.exec 0 false)) [.exec 0 false] fs [mm] (by decide)
      (by decide +kernel)
  · exact exists_not_readyOk _ (hcheck (.sig 2 (-1)))
      ([.causeSig init 14, .sig 2 (-1)] ++ settle) init [] (by decide) (by decide +kernel)

end LisaMinix.Kernel
