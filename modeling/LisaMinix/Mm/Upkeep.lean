import LisaMinix.Mm.Ownership

/-!
# What Every Property of the Table Must Survive

Most of what MM does to `mproc[]` concerns memory, signals and identities, and disturbs no
process that waits or is gone.  `Undisturbed` says so of two states.  `Upkeep P` lists the few
other things that are done on behalf of a signal or of TRACE; a property that survives them
survives every function of `signal.c`, and `do_trace`.

- `doExec_undisturbed`, `adjust_undisturbed`: what changes only the image of a process.
- `Upkeep.checkSig`, `Upkeep.doKsig`, `Upkeep.doTrace`: the functions that send signals.
-/

namespace LisaMinix.Mm

open LisaMinix.Library

/-! ## §1 Changes that disturb nobody -/

/-- The fields by which MM tells the processes apart and knows what they wait for. -/
def standing (m : Mproc) : Bool × Bool × Bool × Bool × Bool × ℤ × ProcNr × ℕ × ℕ :=
  (m.inUse, m.hanging, m.waiting, m.paused, m.alarmOn, m.pid, m.parent, m.sigstatus, m.exitstatus)

structure Undisturbed (s s' : MmState) : Prop where
  standing : ∀ p, standing (s'.mproc p) = standing (s.mproc p)
  slotFree : s'.slotFree = s.slotFree
  procsInUse : s'.procsInUse = s.procsInUse
  nextPid : s'.nextPid = s.nextPid
  history : s'.history = s.history

namespace Undisturbed

variable {s s' s'' : MmState} {p who : ProcNr} {r : MmState × ℤ}

theorem of_mproc (hm : s'.mproc = s.mproc) (hf : s'.slotFree = s.slotFree)
    (hp : s'.procsInUse = s.procsInUse) (hn : s'.nextPid = s.nextPid)
    (hh : s'.history = s.history) : Undisturbed s s' :=
  ⟨fun p => by rw [hm], hf, hp, hn, hh⟩

theorem refl (s : MmState) : Undisturbed s s := of_mproc rfl rfl rfl rfl rfl

theorem trans (h : Undisturbed s s') (h' : Undisturbed s' s'') : Undisturbed s s'' where
  standing p := (h'.standing p).trans (h.standing p)
  slotFree := h'.slotFree.trans h.slotFree
  procsInUse := h'.procsInUse.trans h.procsInUse
  nextPid := h'.nextPid.trans h.nextPid
  history := h'.history.trans h.history

theorem modify (s : MmState) (p : ProcNr) {f : Mproc → Mproc}
    (hf : ∀ m, Mm.standing (f m) = Mm.standing m) : Undisturbed s (s.modify p f) := by
  refine ⟨fun q => ?_, rfl, rfl, rfl, rfl⟩
  by_cases h : q = p
  · rw [h, mproc_modify_self, hf]
  · rw [mproc_modify_of_ne h]

theorem inUse (h : Undisturbed s s') (p : ProcNr) : (s'.mproc p).inUse = (s.mproc p).inUse :=
  congrArg Prod.fst (h.standing p)

theorem hanging (h : Undisturbed s s') (p : ProcNr) : (s'.mproc p).hanging = (s.mproc p).hanging :=
  congrArg (fun x => x.2.1) (h.standing p)

theorem waiting (h : Undisturbed s s') (p : ProcNr) : (s'.mproc p).waiting = (s.mproc p).waiting :=
  congrArg (fun x => x.2.2.1) (h.standing p)

theorem paused (h : Undisturbed s s') (p : ProcNr) : (s'.mproc p).paused = (s.mproc p).paused :=
  congrArg (fun x => x.2.2.2.1) (h.standing p)

theorem alarmOn (h : Undisturbed s s') (p : ProcNr) : (s'.mproc p).alarmOn = (s.mproc p).alarmOn :=
  congrArg (fun x => x.2.2.2.2.1) (h.standing p)

theorem pid (h : Undisturbed s s') (p : ProcNr) : (s'.mproc p).pid = (s.mproc p).pid :=
  congrArg (fun x => x.2.2.2.2.2.1) (h.standing p)

theorem parent (h : Undisturbed s s') (p : ProcNr) : (s'.mproc p).parent = (s.mproc p).parent :=
  congrArg (fun x => x.2.2.2.2.2.2.1) (h.standing p)

theorem status (h : Undisturbed s s') (p : ProcNr) :
    ((s'.mproc p).sigstatus, (s'.mproc p).exitstatus) =
      ((s.mproc p).sigstatus, (s.mproc p).exitstatus) :=
  congrArg (fun x => x.2.2.2.2.2.2.2) (h.standing p)

end Undisturbed

section Image

variable {s s' : MmState} {p who : ProcNr}

theorem releaseMem_undisturbed {base size : ℕ} (hrun : releaseMem s base size = .ok s') :
    Undisturbed s s' := by
  obtain ⟨t, -, rfl⟩ := map_eq_ok hrun
  exact Undisturbed.of_mproc rfl rfl rfl rfl rfl

theorem adjust_undisturbed (s : MmState) (p : ProcNr) (dataClicks : ℕ) (sp : ℤ) :
    Undisturbed s (adjust s p dataClicks sp).1 := by
  have hseg : ∀ seg', Undisturbed s (s.modify p fun m => { m with seg := seg' }) :=
    fun seg' => Undisturbed.modify s p fun _ => rfl
  unfold adjust
  dsimp only
  split
  · exact Undisturbed.refl s
  split
  · exact Undisturbed.refl s
  split
  · exact Undisturbed.refl s
  split
  · split
    · exact (hseg _).trans (Undisturbed.of_mproc rfl rfl rfl rfl rfl)
    · exact hseg _
  · exact Undisturbed.refl s

theorem replaceImage_undisturbed {seg : MemMaps} (hrun : replaceImage s who seg = .ok s') :
    Undisturbed s s' := by
  unfold replaceImage at hrun
  obtain ⟨⟨s₁, base, size⟩, hfresh, hfree⟩ := bind_eq_ok hrun
  obtain ⟨r, -, hr⟩ := map_eq_ok hfresh
  obtain ⟨rfl, -⟩ := Prod.mk.inj hr
  obtain ⟨t, -, rfl⟩ := map_eq_ok hfree
  have hseg : Undisturbed s (s.modify who fun m => { m with seg := seg }) :=
    Undisturbed.modify s who fun _ => rfl
  exact hseg.trans (Undisturbed.of_mproc rfl rfl rfl rfl rfl)

variable {r : MmState × ℤ}

theorem newMem_undisturbed {z : ImageSizes} (hrun : newMem s who z = .ok r) : Undisturbed s r.1 := by
  unfold newMem at hrun
  dsimp only at hrun
  split at hrun
  · cases hrun
    exact Undisturbed.refl s
  · obtain ⟨⟨holes, base⟩, -, hrun⟩ := bind_eq_ok hrun
    cases base with
    | none =>
      cases hrun
      exact Undisturbed.refl s
    | some base =>
      obtain ⟨s₁, himage, rfl⟩ := map_eq_ok hrun
      have halloc : Undisturbed s { s with
          holes := holes
          events := .alloc ⟨base, toClicks (z.text + z.tot)⟩ :: s.events } :=
        Undisturbed.of_mproc rfl rfl rfl rfl rfl
      exact halloc.trans (replaceImage_undisturbed himage)

theorem doExec_undisturbed {call : ExecCall} (hrun : doExec s who call = .ok r) : Undisturbed s r.1 := by
  unfold doExec at hrun
  split at hrun
  · cases hrun
    exact Undisturbed.refl s
  split at hrun
  · cases hrun
    exact Undisturbed.refl s
  dsimp only at hrun
  split at hrun
  · cases hrun
    exact Undisturbed.refl s
  split at hrun
  · cases hrun
    exact Undisturbed.refl s
  · obtain ⟨⟨s₁, e⟩, hnew, rfl⟩ := map_eq_ok hrun
    have h1 := newMem_undisturbed hnew
    dsimp only
    split
    · exact h1.trans (Undisturbed.modify s₁ who fun _ => rfl)
    · exact h1

theorem doBrk_undisturbed (s : MmState) (env : Env) (who : ProcNr) (addr : ℤ) :
    Undisturbed s (doBrk s env who addr).1 := by
  unfold doBrk
  dsimp only
  split
  · exact Undisturbed.refl s
  · exact adjust_undisturbed ..

theorem doSignal_undisturbed (s : MmState) (who : ProcNr) (sig : ℕ) (func : SigFunc) :
    Undisturbed s (doSignal s who sig func).1 := by
  unfold doSignal
  split
  · exact Undisturbed.refl s
  split
  · exact Undisturbed.refl s
  · dsimp only
    exact Undisturbed.modify s who fun _ => rfl

theorem doSetuid_undisturbed (s : MmState) (who : ProcNr) (uid : ℕ) :
    Undisturbed s (doSetuid s who uid).1 := by
  unfold doSetuid
  dsimp only
  split
  · exact Undisturbed.refl s
  · dsimp only
    exact Undisturbed.modify s who fun _ => rfl

end Image

/-! ## §2 Signals and TRACE -/

theorem findproc_some {s : MmState} {pid : ℤ} {child : ProcNr} (hf : findproc s pid = some child) :
    initProcNr ≤ child ∧ (s.mproc child).inUse = true := by
  have := List.find?_some hf
  simp only [Bool.and_eq_true, decide_eq_true_eq, beq_iff_eq] at this
  exact ⟨le_of_lt this.1.1, this.1.2⟩

/-- What a property must survive besides: a process loses its alarm, is stopped, is told that its
call was interrupted, or exits. -/
structure Upkeep (P : MmState → Prop) : Prop where
  undisturbed : ∀ {s s'}, Undisturbed s s' → P s → P s'
  alarm : ∀ s p on, P s → P (s.modify p fun m => { m with alarmOn := on })
  stopProc : ∀ s p sigNr, P s → P (stopProc s p sigNr)
  unpause : ∀ s p, P s → P (unpause s p)
  killProc : ∀ {s s' env p sigNr}, P s → (s.mproc p).inUse = true →
    killProc s env p sigNr = .ok s' → P s'
  mmExit : ∀ {s s' p status}, P s → (s.mproc p).inUse = true → mmExit s p status = .ok s' → P s'

/-- The calls that MM answers as soon as it has done them, other than `fork`. -/
def Request.Answered : Request → Prop
  | .exec _ | .brk _ | .kill .. | .trace .. | .signal .. | .alarm _ | .setuid _ => True
  | .exit _ | .fork | .wait | .pause | .ksig _ => False

namespace Upkeep

variable {P : MmState → Prop} {s s' : MmState} {env : Env} {p who : ProcNr}

/-- A change to one slot that disturbs nobody. -/
theorem modify (hP : Upkeep P) (h : P s) (p : ProcNr) {f : Mproc → Mproc}
    (hf : ∀ m, standing (f m) = standing m) : P (s.modify p f) :=
  hP.undisturbed (Undisturbed.modify s p hf) h

theorem sigProc (hP : Upkeep P) {sigNr : ℕ} (h : P s) (hrun : sigProc s env p sigNr = .ok s') :
    P s' := by
  unfold Mm.sigProc at hrun
  dsimp only at hrun
  split at hrun
  · cases hrun
    exact h
  next hin =>
  simp only [Bool.not_eq_true', Bool.not_eq_false] at hin
  split at hrun
  · cases hrun
    exact hP.stopProc s p sigNr h
  split at hrun
  · -- the stack may have to grow for the caught signal
    have hcaught : Undisturbed s (s.modify p fun m =>
        { m with caught := Function.update m.caught sigNr false }) :=
      Undisturbed.modify s p fun _ => rfl
    have hadjust := hcaught.trans (adjust_undisturbed _ p (s.mproc p).seg.data.memLen
      (env.sp p - sigPushBytes))
    split at hrun
    · cases hrun
      exact hP.undisturbed hadjust h
    · exact hP.killProc (hP.undisturbed hadjust h) (by rw [hadjust.inUse]; exact hin) hrun
  · exact hP.killProc h hin hrun

theorem checkSigLoop (hP : Upkeep P) {mp : ProcNr} {procId : ℤ} {sigNr sendUid : ℕ}
    {l : List ProcNr} {count : ℕ} {r : MmState × ℕ} (h : P s)
    (hrun : checkSigLoop env mp procId sigNr sendUid l s count = .ok r) : P r.1 := by
  induction l generalizing s count with
  | nil =>
    cases hrun
    exact h
  | cons p rest ih =>
    unfold Mm.checkSigLoop at hrun
    dsimp only at hrun
    split at hrun
    · exact ih h hrun
    split at hrun
    · exact ih h hrun
    split at hrun
    · exact ih h hrun
    -- the timer has gone off
    have halarm : P (if sigNr == sigalrm then
        s.modify p fun m => { m with alarmOn := false } else s) := by
      split
      · exact hP.alarm s p false h
      · exact h
    split at hrun
    · exact ih halarm hrun
    · obtain ⟨s₁, hsig, hrun⟩ := bind_eq_ok hrun
      have h1 := hP.unpause s₁ p (hP.sigProc halarm hsig)
      split at hrun
      · cases hrun
        exact h1
      · exact ih h1 hrun

theorem checkSig (hP : Upkeep P) {mp : ProcNr} {procId : ℤ} {sigNr sendUid : ℕ}
    (h : P s) (hrun : checkSig s env mp procId sigNr sendUid = .ok r) :
    P r.1 := by
  unfold Mm.checkSig at hrun
  split at hrun
  · cases hrun
    exact h
  · obtain ⟨r', hloop, rfl⟩ := map_eq_ok hrun
    exact hP.checkSigLoop h hloop

theorem doKill (hP : Upkeep P) {pid : ℤ} {sig : ℕ} {r : MmState × Option ℤ} (h : P s)
    (hrun : doKill s env who pid sig = .ok r) : P r.1 := by
  obtain ⟨r', hcheck, rfl⟩ := map_eq_ok hrun
  exact hP.checkSig h hcheck

theorem stackFault (hP : Upkeep P) (h : P s) (hrun : stackFault s env p = .ok s') : P s' := by
  have hadjust := hP.undisturbed
    (adjust_undisturbed s p (s.mproc p).seg.data.memLen (env.sp p - 256)) h
  unfold Mm.stackFault at hrun
  dsimp only at hrun
  split at hrun
  · cases hrun
    exact hadjust
  · refine hP.sigProc ?_ hrun
    exact hP.modify hadjust p fun _ => rfl

theorem ksigOne (hP : Upkeep P) {procId : ℤ} {j : ℕ} (h : P s)
    (hrun : ksigOne env p procId j s = .ok s') : P s' := by
  unfold Mm.ksigOne at hrun
  obtain ⟨r, hsig, rfl⟩ := map_eq_ok hrun
  refine hP.checkSig ?_ hsig
  split
  · exact hP.modify h p fun _ => rfl
  · exact h

theorem doKsig (hP : Upkeep P) {sigMap : ℕ} (h : P s) (hrun : doKsig s env p sigMap = .ok s') :
    P s' := by
  unfold Mm.doKsig at hrun
  dsimp only at hrun
  split at hrun
  · cases hrun
    exact h
  · obtain ⟨s₁, hfault, hrun⟩ := bind_eq_ok hrun
    have hgroup : P (s.modify mmProcNr fun mm => { mm with procgrp := (s.mproc p).procgrp }) :=
      hP.modify h mmProcNr fun _ => rfl
    have h1 : P s₁ := by
      split at hfault
      · exact hP.stackFault hgroup hfault
      · cases hfault
        exact hgroup
    exact foldlM_preserves (fun _ s => P s) (fun j _ _ _ h hj => hP.ksigOne h hj) _ h1 hrun

theorem resume (hP : Upkeep P) {child : ProcNr} {data : ℤ} (h : P s)
    (hrun : resume s env child data = .ok s') : P s' := by
  unfold Mm.resume at hrun
  split at hrun
  · obtain ⟨s₁, hsig, rfl⟩ := map_eq_ok hrun
    have h1 : P s₁ := by
      refine hP.sigProc ?_ hsig
      exact hP.modify h child fun _ => rfl
    exact hP.modify h1 child fun _ => rfl
  · cases hrun
    exact hP.modify h child fun _ => rfl

theorem doTrace (hP : Upkeep P) {request pid data : ℤ} (h : P s)
    (hrun : doTrace s env who request pid data = .ok r) : P r.1 := by
  unfold Mm.doTrace at hrun
  dsimp only at hrun
  split at hrun
  · cases hrun
    dsimp only
    exact hP.modify h who fun _ => rfl
  split at hrun
  · cases hrun
    exact h
  next child hfind =>
  split at hrun
  · cases hrun
    exact h
  split at hrun
  · obtain ⟨s₁, hexit, rfl⟩ := map_eq_ok hrun
    exact hP.mmExit h (findproc_some hfind).2 hexit
  split at hrun
  · split at hrun
    · cases hrun
      exact h
    · obtain ⟨s₁, hresume, rfl⟩ := map_eq_ok hrun
      exact hP.resume h hresume
  · cases hrun
    exact h

/-- **A call that starts and ends no process** is answered, unless the caller has killed itself or
runs another program. -/
theorem answered (hP : Upkeep P) {r : Request} (h : P s) (hrun : handle s env who r = .ok s')
    (hr : r.Answered) : ∃ s₁, P s₁ ∧
      (s' = s₁ ∨ s' = s₁.note (.started who) ∨ ∃ e k, s' = reply s₁ who e k) := by
  cases r with
  | exit | fork | wait | pause | ksig => cases hr
  | exec call =>
    obtain ⟨r, hexec, rfl⟩ := map_eq_ok hrun
    refine ⟨r.1, hP.undisturbed (doExec_undisturbed hexec) h, .inr ?_⟩
    split
    · exact .inl rfl
    · exact .inr ⟨_, _, rfl⟩
  | kill pid sig =>
    obtain ⟨⟨s₁, e⟩, hkill, rfl⟩ := map_eq_ok hrun
    refine ⟨s₁, hP.doKill h hkill, ?_⟩
    cases e with
    | none => exact .inl rfl
    | some e => exact .inr (.inr ⟨_, _, rfl⟩)
  | trace request pid data =>
    obtain ⟨r, htrace, rfl⟩ := map_eq_ok hrun
    exact ⟨r.1, hP.doTrace h htrace, .inr (.inr ⟨_, _, rfl⟩)⟩
  | brk addr =>
    cases hrun
    exact ⟨_, hP.undisturbed (doBrk_undisturbed ..) h, .inr (.inr ⟨_, _, rfl⟩)⟩
  | signal sig func =>
    cases hrun
    exact ⟨_, hP.undisturbed (doSignal_undisturbed ..) h, .inr (.inr ⟨_, _, rfl⟩)⟩
  | alarm seconds =>
    cases hrun
    exact ⟨_, hP.alarm s who (seconds != 0) h, .inr (.inr ⟨_, _, rfl⟩)⟩
  | setuid uid =>
    cases hrun
    exact ⟨_, hP.undisturbed (doSetuid_undisturbed ..) h, .inr (.inr ⟨_, _, rfl⟩)⟩

end Upkeep

end LisaMinix.Mm
