import LisaMinix.Kernel.Clock
import LisaMinix.Mm.Fork

/-!
# Alarms, in MM and in the Kernel

An alarm has two copies: the flag ALARM_ON in `mproc[]`, and the time `p_alarm` in the kernel's
process table.  `Alarms` is the two together, and `Alarms.perform` the calls `alarm`, `fork`,
`exec` and `exit`, the clock ticks, and the KSIG messages by which MM hears of SIGALRM.

- `Owned` says that the two copies agree and that SIGALRM is for processes that asked for it.
- `reached_owned`: it holds along every run in which a process that forks has no alarm, a process
  that executes a file has no alarm pending, and `alarm` is not called with SIGALRM on its way,
  with a number of seconds whose ticks are 0 in 16 bits, or for a time that is 0 in 32 bits.
- `alarms_not_owned`: without each part of the condition it fails.
-/

namespace LisaMinix.Mm.Alarm

open Function

open LisaMinix.Library LisaMinix.Kernel

/-! ## §1 What MM's Functions Do to the Flag -/

/-- In use, and not a zombie. -/
def live (m : Mproc) : Bool := m.inUse && !m.hanging

theorem live_iff {m : Mproc} : live m = true ↔ m.inUse = true ∧ m.hanging = false := by
  unfold live
  rw [Bool.and_eq_true, Bool.not_eq_true']

/-- The fields that matter for alarms. -/
def part (m : Mproc) : Bool × ℤ × Bool := (m.alarmOn, m.pid, live m)

theorem live_of_part {m m' : Mproc} (h : part m' = part m) : live m' = live m :=
  congrArg (fun x => x.2.2) h

theorem pid_of_part {m m' : Mproc} (h : part m' = part m) : m'.pid = m.pid :=
  congrArg (fun x => x.2.1) h

/-- Nothing happens to the alarms. -/
structure Steady (s s' : MmState) : Prop where
  part : ∀ p, part (s'.mproc p) = part (s.mproc p)
  nextPid : s'.nextPid = s.nextPid

/-- The flag of `p` is off, and `p` may be gone; nothing happens to the others. -/
structure Silenced (p : ProcNr) (s s' : MmState) : Prop where
  others : ∀ q, q ≠ p → part (s'.mproc q) = part (s.mproc q)
  off : (s'.mproc p).alarmOn = false
  pid : (s'.mproc p).pid = (s.mproc p).pid
  live : live (s'.mproc p) = true → live (s.mproc p) = true
  nextPid : s'.nextPid = s.nextPid

section Frames

variable {s s' s'' : MmState} {p : ProcNr}

theorem Steady.refl (s : MmState) : Steady s s := ⟨fun _ => rfl, rfl⟩

theorem Steady.trans (h : Steady s s') (h' : Steady s' s'') : Steady s s'' :=
  ⟨fun p => (h'.part p).trans (h.part p), h'.nextPid.trans h.nextPid⟩

theorem Steady.alarmOn (h : Steady s s') (p : ProcNr) :
    (s'.mproc p).alarmOn = (s.mproc p).alarmOn := congrArg Prod.fst (h.part p)

theorem Steady.live (h : Steady s s') (p : ProcNr) :
    Alarm.live (s'.mproc p) = Alarm.live (s.mproc p) := live_of_part (h.part p)

/-- A change to one slot that leaves the three fields alone. -/
theorem Steady.modify (s : MmState) (p : ProcNr) {f : Mproc → Mproc}
    (hf : ∀ m, Alarm.part (f m) = Alarm.part m) : Steady s (s.modify p f) := by
  refine ⟨fun q => ?_, rfl⟩
  by_cases h : q = p
  · rw [h, mproc_modify_self, hf]
  · rw [mproc_modify_of_ne h]

theorem Steady.of_undisturbed (h : Undisturbed s s') : Steady s s' where
  part p := by rw [Alarm.part, Alarm.live, h.alarmOn, h.pid, h.inUse, h.hanging]; rfl
  nextPid := h.nextPid

theorem Steady.note (h : Steady s s') (e : ProcEvent) : Steady s (s'.note e) := ⟨h.part, h.nextPid⟩

theorem Steady.reply (s : MmState) (p : ProcNr) (result : ℤ) (res2 : ℕ) :
    Steady s (reply s p result res2) := by
  refine ⟨fun q => by rw [reply_mproc], ?_⟩
  unfold Mm.reply
  split
  · rfl
  · rfl

theorem Steady.then_modify (h : Steady s s') (p : ProcNr) {f : Mproc → Mproc}
    (hf : ∀ m, Alarm.part (f m) = Alarm.part m) : Steady s (s'.modify p f) :=
  h.trans (Steady.modify s' p hf)

theorem Steady.then_reply (h : Steady s s') (p : ProcNr) (result : ℤ) (res2 : ℕ) :
    Steady s (Mm.reply s' p result res2) :=
  h.trans (Steady.reply s' p result res2)

theorem Silenced.of_steady (h : Steady s s') (hoff : (s.mproc p).alarmOn = false) :
    Silenced p s s' where
  others q _ := h.part q
  off := (h.alarmOn p).trans hoff
  pid := pid_of_part (h.part p)
  live hlive := (h.live p) ▸ hlive
  nextPid := h.nextPid

theorem Silenced.after (h : Steady s s') (h' : Silenced p s' s'') : Silenced p s s'' where
  others q hq := (h'.others q hq).trans (h.part q)
  off := h'.off
  pid := h'.pid.trans (pid_of_part (h.part p))
  live hlive := (h.live p) ▸ h'.live hlive
  nextPid := h'.nextPid.trans h.nextPid

theorem Silenced.trans (h : Silenced p s s') (h' : Silenced p s' s'') : Silenced p s s'' where
  others q hq := (h'.others q hq).trans (h.others q hq)
  off := h'.off
  pid := h'.pid.trans h.pid
  live hlive := h.live (h'.live hlive)
  nextPid := h'.nextPid.trans h.nextPid

theorem Silenced.then (h : Silenced p s s') (h' : Steady s' s'') : Silenced p s s'' :=
  h.trans (Silenced.of_steady h' h.off)

end Frames

/-! ### `cleanup` -/

/-- `child` is gone, with its flag as it was; nothing happens to the others. -/
structure Gone (child : ProcNr) (s s' : MmState) : Prop where
  others : ∀ q, q ≠ child → part (s'.mproc q) = part (s.mproc q)
  flag : (s'.mproc child).alarmOn = (s.mproc child).alarmOn
  pid : (s'.mproc child).pid = (s.mproc child).pid
  gone : live (s'.mproc child) = false
  nextPid : s'.nextPid = s.nextPid

section Cleanup

variable {s s' s'' : MmState} {child : ProcNr}

theorem Gone.then (h : Gone child s s') (h' : Steady s' s'') : Gone child s s'' where
  others q hq := (h'.part q).trans (h.others q hq)
  flag := (h'.alarmOn child).trans h.flag
  pid := (pid_of_part (h'.part child)).trans h.pid
  gone := (h'.live child).trans h.gone
  nextPid := h'.nextPid.trans h.nextPid

/-- Where the process was a zombie, nothing happens at all. -/
theorem Gone.steady (h : Gone child s s') (hz : live (s.mproc child) = false) : Steady s s' := by
  refine ⟨fun q => ?_, h.nextPid⟩
  by_cases hq : q = child
  · rw [hq]
    unfold part
    rw [h.flag, h.pid, h.gone, hz]
  · exact h.others q hq

theorem releaseSlot_gone (s : MmState) (child : ProcNr) : Gone child s (releaseSlot s child) := by
  set c := s.mproc child with hc
  set s₁ := (reply s c.report.procNr c.report.result c.report.res2).modify c.parent
    fun m => { m with waiting := false } with hs1
  have hsteady : Steady s s₁ := Steady.then_modify (Steady.reply ..) _ fun _ => rfl
  have hself : ((releaseSlot s child).mproc child) = (s₁.mproc child).released :=
    mproc_modify_self ..
  refine ⟨fun q hq => ?_, ?_, ?_, ?_, hsteady.nextPid⟩
  · have hother : (releaseSlot s child).mproc q = s₁.mproc q := mproc_modify_of_ne hq _
    rw [hother, hsteady.part q]
  · rw [hself]
    exact hsteady.alarmOn child
  · rw [hself]
    show (s₁.mproc child).pid = _
    exact pid_of_part (hsteady.part child)
  · rw [hself]
    rfl

/-- **`cleanup` releases one process**: those that it releases besides were zombies. -/
theorem cleanup_gone {fuel : ℕ} (hrun : cleanup fuel s child = .ok s') : Gone child s s' := by
  induction fuel generalizing s s' child with
  | zero => cases hrun
  | succ fuel ih =>
    unfold cleanup at hrun
    obtain ⟨st, hloop, rfl⟩ := map_eq_ok hrun
    have hrel := releaseSlot_gone s child
    refine foldlM_preserves (fun _ st => Gone child s st.1) ?_ _ hrel hloop
    intro rp _ st st' hst hround
    split at hround
    · have hadopt : Steady st.1 ((st.1.modify rp fun m => { m with parent := initProcNr }).note
          (.adopted rp)) := by
        apply Steady.note
        exact Steady.modify _ _ fun _ => rfl
      dsimp only at hround
      split at hround
      · next hhang =>
        obtain ⟨t, hclean, rfl⟩ := map_eq_ok hround
        rw [Bool.and_eq_true] at hhang
        -- the child that INIT inherits is a zombie
        have hzombie : live (((st.1.modify rp fun m => { m with parent := initProcNr }).note
            (.adopted rp)).mproc rp) = false := by
          unfold live
          rw [hhang.2]
          exact Bool.and_false _
        exact hst.then (hadopt.trans ((ih hclean).steady hzombie))
      · cases hround
        exact hst.then hadopt
    · cases hround
      exact hst

end Cleanup

/-! ### Exit and Signals -/

section Calls

variable {s s' : MmState} {p : ProcNr}

theorem leaveSlot_gone (hrun : leaveSlot s p = .ok s') : Gone p s s' := by
  unfold leaveSlot at hrun
  split at hrun
  · exact cleanup_gone hrun
  · cases hrun
    refine ⟨fun q hq => ?_, ?_, ?_, ?_, rfl⟩
    · rw [mproc_note, mproc_modify_of_ne hq]
    · rw [mproc_note, mproc_modify_self]
    · rw [mproc_note, mproc_modify_self]
    · rw [mproc_note, mproc_modify_self]
      exact Bool.and_false _

theorem sysXit_steady {base size : ℕ} (hrun : sysXit s p = .ok (s', base, size)) :
    Steady s s' := by
  obtain ⟨x, -, hx⟩ := map_eq_ok hrun
  cases hx
  exact ⟨fun _ => rfl, rfl⟩

/-- **A process that exits has no alarm.** -/
theorem mmExit_silenced {status : ℤ} (hrun : mmExit s p status = .ok s') :
    Silenced p s s' ∧ live (s'.mproc p) = false := by
  unfold mmExit at hrun
  obtain ⟨s₁, hleave, hrun⟩ := bind_eq_ok hrun
  obtain ⟨⟨s₂, base, size⟩, hxit, hfree⟩ := bind_eq_ok hrun
  have hstatus : Steady s (s.modify p fun m => { m with exitstatus := (status % 256).toNat }) :=
    Steady.modify _ _ fun _ => rfl
  have hstart := hstatus.note (.ended p (s.mproc p).sigstatus (status % 256).toNat)
  have hgone := leaveSlot_gone hleave
  have hrest := (sysXit_steady hxit).trans (Steady.of_undisturbed (releaseMem_undisturbed hfree))
  have hoff : Silenced p s₁ (s₁.modify p fun m => { m with alarmOn := false }) := by
    refine ⟨fun q hq => ?_, ?_, ?_, ?_, rfl⟩
    · rw [mproc_modify_of_ne hq]
    · rw [mproc_modify_self]
    · rw [mproc_modify_self]
    · rw [mproc_modify_self]
      exact id
  have hdead : live (s'.mproc p) = false := by
    rw [hrest.live p, mproc_modify_self]
    exact hgone.gone
  refine ⟨⟨fun q hq => ?_, ?_, ?_, ?_, ?_⟩, hdead⟩
  · rw [hrest.part q, hoff.others q hq, hgone.others q hq, hstart.part q]
  · exact (hoff.then hrest).off
  · exact (hoff.then hrest).pid.trans (hgone.pid.trans (pid_of_part (hstart.part p)))
  · intro hlive
    rw [hdead] at hlive
    cases hlive
  · exact (hoff.then hrest).nextPid.trans (hgone.nextPid.trans hstart.nextPid)

theorem stopProc_steady (s : MmState) (p : ProcNr) (sigNr : ℕ) : Steady s (stopProc s p sigNr) := by
  unfold stopProc
  dsimp only
  split
  · exact Steady.refl s
  · have hstop : Steady s (s.modify p fun m => { m with stopped := true }) :=
      Steady.modify _ _ fun _ => rfl
    split
    · apply Steady.then_reply
      exact hstop.then_modify _ fun _ => rfl
    · exact hstop.then_modify _ fun _ => rfl

variable {env : Env}

theorem killProc_silenced {sigNr : ℕ} (hrun : killProc s env p sigNr = .ok s') : Silenced p s s' := by
  unfold killProc at hrun
  refine Silenced.after ?_ (mmExit_silenced hrun).1
  exact Steady.modify _ _ fun _ => rfl

theorem sigProc_silenced {sigNr : ℕ} (hoff : (s.mproc p).alarmOn = false)
    (hrun : sigProc s env p sigNr = .ok s') : Silenced p s s' := by
  unfold sigProc at hrun
  dsimp only at hrun
  split at hrun
  · cases hrun
    exact Silenced.of_steady (Steady.refl s) hoff
  split at hrun
  · cases hrun
    exact Silenced.of_steady (stopProc_steady s p sigNr) hoff
  split at hrun
  · have hcaught : Steady s (s.modify p fun m =>
        { m with caught := update m.caught sigNr false }) := Steady.modify _ _ fun _ => rfl
    have hadjust := hcaught.trans (Steady.of_undisturbed
      (adjust_undisturbed _ p (s.mproc p).seg.data.memLen (env.sp p - sigPushBytes)))
    split at hrun
    · cases hrun
      exact Silenced.of_steady hadjust hoff
    · exact Silenced.after hadjust (killProc_silenced hrun)
  · exact killProc_silenced hrun

theorem unpause_steady (s : MmState) (p : ProcNr) : Steady s (unpause s p) := by
  unfold unpause
  dsimp only
  split
  · apply Steady.then_reply
    exact Steady.modify _ _ fun _ => rfl
  split
  · apply Steady.then_reply
    exact Steady.modify _ _ fun _ => rfl
  · exact Steady.refl s

/-- The pids of live processes are positive and distinct. -/
structure Pids (s : MmState) : Prop where
  pos : ∀ p, initProcNr ≤ p → live (s.mproc p) = true → 0 < (s.mproc p).pid
  inj : ∀ p q, initProcNr ≤ p → initProcNr ≤ q → live (s.mproc p) = true →
    live (s.mproc q) = true → (s.mproc p).pid = (s.mproc q).pid → p = q
  next : 0 < s.nextPid

/-- The pids stay distinct when processes only die. -/
theorem Pids.of_shrunk (h : Pids s) (hpid : ∀ q, (s'.mproc q).pid = (s.mproc q).pid)
    (hlive : ∀ q, live (s'.mproc q) = true → live (s.mproc q) = true)
    (hnext : s'.nextPid = s.nextPid) : Pids s' where
  pos q hq hl := by
    rw [hpid]
    exact h.pos q hq (hlive q hl)
  inj q q' hq hq' hl hl' heq := by
    rw [hpid, hpid] at heq
    exact h.inj q q' hq hq' (hlive q hl) (hlive q' hl') heq
  next := by
    rw [hnext]
    exact h.next

theorem Silenced.pids (h : Silenced p s s') (hpids : Pids s) : Pids s' := by
  apply hpids.of_shrunk _ _ h.nextPid
  · intro q
    by_cases hq : q = p
    · rw [hq]
      exact h.pid
    · exact pid_of_part (h.others q hq)
  · intro q hl
    by_cases hq : q = p
    · rw [hq] at hl ⊢
      exact h.live hl
    · rw [← live_of_part (h.others q hq)]
      exact hl

theorem Steady.pids (h : Steady s s') (hpids : Pids s) : Pids s' :=
  hpids.of_shrunk (fun q => pid_of_part (h.part q)) (fun q hl => (h.live q) ▸ hl)
    h.nextPid

/-- `check_sig` passes over a process with another pid. -/
theorem sendSig_false {mp q : ProcNr} {procId : ℤ} (hpos : 0 < procId)
    (hq : live (s.mproc q) = false ∨ (s.mproc q).pid ≠ procId) (hin : (s.mproc q).inUse = true) :
    sendSig s mp procId sigalrm superUser q = false := by
  have hneg : (procId == -1) = false := by
    rw [beq_eq_false_iff_ne]
    omega
  unfold sendSig
  simp only [hneg, Bool.and_false, Bool.false_eq_true, if_false]
  have hkill : (sigalrm == sigkill) = false := rfl
  simp only [hkill, Bool.and_false, Bool.false_eq_true, if_false]
  rcases hq with hdead | hpid
  · unfold live at hdead
    rw [hin, Bool.true_and] at hdead
    rw [hdead]
    simp
  · have hne : (procId != (s.mproc q).pid) = true := bne_iff_ne.mpr (Ne.symm hpid)
    rw [hne, decide_eq_true hpos]
    simp

/-- **`check_sig` for SIGALRM** turns off the flag of the one process with the pid. -/
theorem checkSigLoop_silenced {mp : ProcNr} {l : List ProcNr} {count : ℕ}
    {r : MmState × ℕ} (hp : initProcNr ≤ p) (hlive : live (s.mproc p) = true) (hpids : Pids s)
    (hl : l.Nodup) (huser : ∀ q ∈ l, initProcNr ≤ q) (hmem : p ∈ l ∨ (s.mproc p).alarmOn = false)
    (hrun : checkSigLoop env mp (s.mproc p).pid sigalrm superUser l s count = .ok r) :
    Silenced p s r.1 := by
  induction l generalizing s count with
  | nil =>
    cases hrun
    exact Silenced.of_steady (Steady.refl s) (hmem.resolve_left (by simp))
  | cons q l ih =>
    obtain ⟨hql, hl'⟩ := List.nodup_cons.mp hl
    have huser' : ∀ q ∈ l, initProcNr ≤ q := fun q' h => huser q' (List.mem_cons_of_mem q h)
    unfold checkSigLoop at hrun
    dsimp only at hrun
    by_cases hqp : q = p
    · rw [hqp] at hrun hql
      obtain ⟨hin, hhang⟩ := live_iff.mp hlive
      rw [if_neg (by rw [hin]; decide)] at hrun
      split at hrun
      · next hoff =>
        simp only [beq_self_eq_true, Bool.true_and, Bool.not_eq_true'] at hoff
        exact ih hlive hpids hl' huser' (Or.inr hoff) hrun
      split at hrun
      · next hon hskip =>
        -- the process itself is not passed over
        have hsend : sendSig s mp (s.mproc p).pid sigalrm superUser p = true := by
          have hpos := hpids.pos p hp hlive
          have hneg : ((s.mproc p).pid == -1) = false := by
            rw [beq_eq_false_iff_ne]
            omega
          have hzero : ((s.mproc p).pid == 0) = false := by
            rw [beq_eq_false_iff_ne]
            omega
          unfold sendSig
          simp [hneg, hzero, hhang, sigalrm, sigkill]
        rw [hsend] at hskip
        cases hskip
      simp only [beq_self_eq_true, if_true] at hrun
      set s₁ := s.modify p fun m => { m with alarmOn := false } with hs1
      have hself : s₁.mproc p = { s.mproc p with alarmOn := false } := mproc_modify_self ..
      have hoff : Silenced p s s₁ := by
        refine ⟨fun q' hq' => ?_, ?_, ?_, ?_, rfl⟩
        · rw [mproc_modify_of_ne hq']
        · rw [hself]
        · rw [hself]
        · rw [hself]
          exact id
      split at hrun
      · have hpid : (s₁.mproc p).pid = (s.mproc p).pid := hoff.pid
        rw [← hpid] at hrun
        exact hoff.trans
          (ih (by rw [hself]; exact hlive) (hoff.pids hpids) hl' huser' (Or.inr hoff.off) hrun)
      · obtain ⟨s₂, hsig, hrun⟩ := bind_eq_ok hrun
        rw [if_pos (hpids.pos p hp hlive)] at hrun
        cases hrun
        exact (hoff.trans (sigProc_silenced hoff.off hsig)).then (unpause_steady s₂ p)
    · have hmem' : p ∈ l ∨ (s.mproc p).alarmOn = false := by
        rcases hmem with h | h
        · exact Or.inl ((List.mem_cons.mp h).resolve_left fun h' => hqp h'.symm)
        · exact Or.inr h
      have hskip := @ih s count hlive hpids hl' huser' hmem'
      split at hrun
      · exact hskip hrun
      split at hrun
      · exact hskip hrun
      split at hrun
      · exact hskip hrun
      · next hin _ hsend =>
        have hin' : (s.mproc q).inUse = true := by simpa using hin
        have hpass : sendSig s mp (s.mproc p).pid sigalrm superUser q = false := by
          apply sendSig_false (hpids.pos p hp hlive) _ hin'
          cases hq : live (s.mproc q) with
          | false => exact Or.inl rfl
          | true =>
            exact Or.inr fun heq => hqp (hpids.inj q p (huser q List.mem_cons_self) hp hq hlive heq)
        rw [hpass] at hsend
        exact absurd rfl hsend

/-- The bit map of a KSIG message with SIGALRM only. -/
def alarmMap : ℕ := 2 ^ (sigalrm - 1)

/-- **MM hears of SIGALRM.** -/
theorem doKsig_silenced (hp : initProcNr ≤ p) (hlive : live (s.mproc p) = true)
    (hpids : Pids s) (hrun : doKsig s env p alarmMap = .ok s') : Silenced p s s' := by
  obtain ⟨hin, hhang⟩ := live_iff.mp hlive
  unfold doKsig at hrun
  dsimp only at hrun
  rw [if_neg (by rw [hin, hhang]; decide), if_neg (by decide)] at hrun
  set s₁ := s.modify mmProcNr fun mm => { mm with procgrp := (s.mproc p).procgrp } with hs1
  have hsteady : Steady s s₁ := Steady.modify _ _ fun _ => rfl
  rw [ok_bind, show sigsOf alarmMap = [sigalrm] from rfl, List.foldlM_cons] at hrun
  obtain ⟨s₂, hone, hlast⟩ := bind_eq_ok hrun
  cases hlast
  unfold ksigOne at hone
  obtain ⟨⟨s₂, e⟩, hcheck, rfl⟩ := map_eq_ok hone
  unfold checkSig at hcheck
  rw [if_neg (by decide)] at hcheck
  obtain ⟨r, hloop, hr⟩ := map_eq_ok hcheck
  cases hr
  have hpid : (s₁.mproc p).pid = (s.mproc p).pid := pid_of_part (hsteady.part p)
  have hid : (if (sigalrm == sigkill) = true then -1
      else if (sigalrm == sigint || sigalrm == sigquit) = true then 0 else (s.mproc p).pid) =
      (s₁.mproc p).pid := hpid.symm
  rw [hid] at hloop
  have hlive1 : live (s₁.mproc p) = true := (hsteady.live p).trans hlive
  refine Silenced.after hsteady (checkSigLoop_silenced hp hlive1 (hsteady.pids hpids) ?_ ?_ ?_ hloop)
  · exact (List.nodup_finRange nrProcs).filter _
  · intro q hq
    simpa [userSlots] using hq
  · left
    simpa [userSlots] using hp

theorem waitLoop_steady {who : ProcNr} {l : List ProcNr} {children : Bool}
    {r : MmState × Option ℤ} (hrun : waitLoop s who l children = .ok r) : Steady s r.1 := by
  induction l generalizing children with
  | nil =>
    unfold waitLoop at hrun
    split at hrun
    · cases hrun
      dsimp only
      exact Steady.modify _ _ fun _ => rfl
    · cases hrun
      exact Steady.refl s
  | cons rp rest ih =>
    unfold waitLoop at hrun
    dsimp only at hrun
    split at hrun
    · split at hrun
      · next hhang =>
        obtain ⟨t, hclean, rfl⟩ := map_eq_ok hrun
        apply (cleanup_gone hclean).steady
        unfold live
        rw [hhang]
        exact Bool.and_false _
      split at hrun
      · cases hrun
        dsimp only
        exact Steady.then_modify (Steady.reply ..) _ fun _ => rfl
      · exact ih hrun
    · exact ih hrun

/-- What a successful `fork` does: the child has the flag of its parent, and a pid of its own. -/
structure Forked (who child : ProcNr) (s s' : MmState) : Prop where
  free : (s.mproc child).inUse = false
  others : ∀ q, q ≠ child → part (s'.mproc q) = part (s.mproc q)
  flag : (s'.mproc child).alarmOn = (s.mproc who).alarmOn
  pos : 0 < (s'.mproc child).pid
  fresh : ∀ q, q ≠ child → (s.mproc q).pid ≠ (s'.mproc child).pid
  live : live (s'.mproc child) = live (s.mproc who)
  next : 0 < s'.nextPid

/-- **`fork`** fails, or sets up the first free slot. -/
theorem doFork_forked {who : ProcNr} {r : MmState × ℤ} (hnext : 0 < s.nextPid)
    (hrun : doFork s who = .ok r) :
    (r.2 < 0 ∧ Steady s r.1) ∨
      (0 < r.2 ∧ ∃ child, freeSlot s = some child ∧ Forked who child s r.1) := by
  rcases doFork_cases hrun with ⟨t, rfl⟩ | ⟨t, b, child, base, n, hslot, hfree, hn, rfl⟩
  · have heagain : eagain < 0 := by decide
    exact .inl ⟨heagain, fun _ => rfl, rfl⟩
  set s₁ : MmState := { s with holes := t, events := .alloc b :: s.events }
  -- telling the kernel and the child leaves these fields alone
  have hsteady : Steady (withChild s₁ who child base n)
      (reply (sysFork (withChild s₁ who child base n) who child base) child 0 0) := by
    apply Steady.then_reply
    exact ⟨fun _ => rfl, rfl⟩
  have hpos : 0 < n := lt_trans (by decide) (hn.ge hnext)
  have hpid := pid_of_part (hsteady.part child)
  rw [withChild_self] at hpid
  refine .inr ⟨hpos, child, hslot, hfree, fun q hq => ?_, ?_, ?_, fun q hq => ?_, ?_, ?_⟩
  · rw [hsteady.part q, withChild_of_ne _ _ _ _ hq]
  · rw [hsteady.alarmOn child, withChild_self]
    rfl
  · rw [hpid]
    exact hpos
  · rw [hpid]
    exact (hn.others q hq).1
  · rw [hsteady.live child, withChild_self]
    rfl
  · rw [hsteady.nextPid]
    exact hpos

end Calls

/-! ## §2 MM and the Clock Together -/

/-- What happens to the alarm of a process. -/
inductive Event
  /-- the process calls `alarm(seconds)` -/
  | asked (p : ProcNr) (seconds : ℕ)
  /-- the process is the child of a `fork` -/
  | born (p : ProcNr)
  | execed (p : ProcNr)
  | exited (p : ProcNr)
  /-- the clock task causes SIGALRM for it -/
  | fired (p : ProcNr)
  deriving DecidableEq

/-- The process has called `alarm` since it was forked, and the alarm has neither been cancelled
    nor gone off.  The latest event comes first. -/
def armed : List Event → ProcNr → Bool
  | [], _ => false
  | .asked q seconds :: l, p => if q = p then seconds != 0 else armed l p
  | .born q :: l, p => if q = p then false else armed l p
  | .execed q :: l, p => if q = p then false else armed l p
  | .exited q :: l, p => if q = p then false else armed l p
  | .fired q :: l, p => if q = p then false else armed l p

/-- The process of an event. -/
def Event.proc : Event → ProcNr
  | .asked p _ | .born p | .execed p | .exited p | .fired p => p

variable {p : ProcNr}

theorem armed_cons_of_ne {e : Event} (l : List Event) (h : p ≠ e.proc) :
    armed (e :: l) p = armed l p := by
  cases e <;> exact if_neg fun h' => h h'.symm

/-- MM, the alarms in the kernel, and what has happened. -/
structure Alarms where
  mm : MmState
  clock : Clock
  history : List Event

/-- The slot of a user process in the kernel's table. -/
def slot (p : ProcNr) : ProcPtr := ⟨Kernel.nrTasks + p, by omega⟩

/-- What happens next.  `ticks` are the clock ticks that the clock task finds to be counted. -/
inductive Action
  | alarm (who : ProcNr) (seconds : UInt16) (ticks : ℕ)
  | fork (who : ProcNr)
  | exec (who : ProcNr) (call : ExecCall)
  | exit (who : ProcNr) (status : ℤ)
  /-- a call that has nothing to do with alarms -/
  | wait (who : ProcNr)
  | brk (who : ProcNr) (addr : ℤ) (env : Env)
  | signal (who : ProcNr) (sig : ℕ) (func : SigFunc)
  | pause (who : ProcNr)
  /-- the clock task gets a message from the interrupt handler -/
  | tick (ticks : ℕ)
  /-- MM gets a message from the kernel about SIGALRM -/
  | ksig (p : ProcNr) (env : Env)

namespace Alarms

/-- `HZ * sec`, an `unsigned` product. -/
def deltaTicks (seconds : UInt16) : ℕ := hz * seconds.toNat % 65536

/-- `do_alarm`, with `set_alarm` and the answer of the clock task. -/
def alarm (s : Alarms) (who : ProcNr) (seconds : UInt16) (ticks : ℕ) : Alarms where
  mm := doAlarm s.mm who seconds.toNat
  clock := (s.clock.receive ticks).setalarm (slot who) (deltaTicks seconds)
  history := .asked who seconds.toNat :: s.history

/-- `do_fork`, with `sys_fork` for the slot that it finds. -/
def fork (s : Alarms) (who : ProcNr) : Except Fault Alarms :=
  (doFork s.mm who).map fun (mm, pid) =>
    match freeSlot s.mm with
    | some child =>
      if pid < 0 then { s with mm := mm }
      else ⟨mm, s.clock.fork (slot who) (slot child), .born child :: s.history⟩
    | none => { s with mm := mm }

/-- `do_exec`, with `sys_exec` when it succeeds. -/
def exec (s : Alarms) (who : ProcNr) (call : ExecCall) : Except Fault Alarms :=
  (doExec s.mm who call).map fun (mm, r) =>
    if r = ok then ⟨mm, s.clock.exec (slot who), .execed who :: s.history⟩ else { s with mm := mm }

/-- `mm_exit`: a timer that is pending is killed, and then the process is. -/
def exit (s : Alarms) (who : ProcNr) (status : ℤ) : Except Fault Alarms :=
  (mmExit s.mm who status).map fun mm =>
    let clock := if (s.mm.mproc who).alarmOn then s.clock.setalarm (slot who) 0 else s.clock
    ⟨mm, clock.xit (slot who), .exited who :: s.history⟩

/-- The processes whose alarm has gone off, in the order of the process table. -/
def fires (c : Clock) : List ProcNr := (List.finRange nrProcs).filter fun p => c.due (slot p)

/-- The clock task counts the ticks and does its work. -/
def tick (s : Alarms) (ticks : ℕ) : Alarms where
  mm := s.mm
  clock := (s.clock.receive ticks).clocktick
  history := (fires (s.clock.receive ticks)).reverse.map .fired ++ s.history

/-- `inform` and `do_ksig`: the signal may terminate the process. -/
def ksig (s : Alarms) (p : ProcNr) (env : Env) : Except Fault Alarms :=
  (doKsig s.mm env p alarmMap).map fun mm =>
    let clock := s.clock.inform (slot p)
    if !s.mm.slotFree p && mm.slotFree p then ⟨mm, clock.xit (slot p), .exited p :: s.history⟩
    else ⟨mm, clock, s.history⟩

def perform (s : Alarms) : Action → Except Fault Alarms
  | .alarm who seconds ticks => .ok (s.alarm who seconds ticks)
  | .fork who => s.fork who
  | .exec who call => s.exec who call
  | .exit who status => s.exit who status
  | .wait who => (doWait s.mm who).map fun r => { s with mm := r.1 }
  | .brk who addr env => .ok { s with mm := (doBrk s.mm env who addr).1 }
  | .signal who sig func => .ok { s with mm := (doSignal s.mm who sig func).1 }
  | .pause who => .ok { s with mm := doPause s.mm who }
  | .tick ticks => .ok (s.tick ticks)
  | .ksig p env => s.ksig p env

/-- A call is made by a live process; the kernel has a signal to tell of. -/
def May (s : Alarms) : Action → Prop
  | .alarm who _ _ | .fork who | .exec who _ | .exit who _ | .wait who | .brk who _ _
  | .signal who _ _ | .pause who => initProcNr ≤ who ∧ live (s.mm.mproc who) = true
  | .tick _ => True
  | .ksig p _ => initProcNr ≤ p ∧ s.clock.sigalrm (slot p) = true

/-- The condition under which a step keeps the alarms owned. -/
def Safe (s : Alarms) : Action → Prop
  | .alarm who seconds ticks =>
    s.clock.sigalrm (slot who) = false ∧ (seconds.toNat ≠ 0 → seconds.toNat % 16384 ≠ 0 ∧
      (s.clock.receive ticks).alarmTime (deltaTicks seconds) ≠ 0)
  | .fork who => (∃ mm pid, doFork s.mm who = .ok (mm, pid) ∧ 0 ≤ pid) →
      s.clock.pAlarm (slot who) = 0 ∧ s.clock.sigalrm (slot who) = false
  | .exec who call => (∃ mm, doExec s.mm who call = .ok (mm, ok)) → s.clock.pAlarm (slot who) = 0
  | _ => True

/-- **The alarms are owned**: the flag in MM agrees with the kernel, every SIGALRM of the clock was
    for a process that had asked for it, and so is every alarm that is pending. -/
structure Owned (s : Alarms) : Prop where
  flag : ∀ p, (s.mm.mproc p).alarmOn = true ↔
    s.clock.pAlarm (slot p) ≠ 0 ∨ s.clock.sigalrm (slot p) = true
  fired : ∀ l l' p, s.history = l ++ .fired p :: l' → armed l' p = true
  pending : ∀ p, s.clock.pAlarm (slot p) ≠ 0 → armed s.history p = true

end Alarms

/-! ## §3 The Invariant -/

/-- One process: its slot in MM, its alarm and its SIGALRM in the kernel, and whether it is
    armed. -/
structure SlotOk (m : Mproc) (alarm : ℤ) (sig own : Bool) : Prop where
  flag : m.alarmOn = true ↔ alarm ≠ 0 ∨ sig = true
  once : alarm ≠ 0 → sig = false
  alive : m.alarmOn = true → live m = true
  own : alarm ≠ 0 → own = true

/-- Every SIGALRM of the clock was for a process that was armed. -/
def FiredOk (history : List Event) : Prop :=
  ∀ l l' p, history = l ++ .fired p :: l' → armed l' p = true

structure Inv (s : Alarms) : Prop where
  slots : ∀ p, SlotOk (s.mm.mproc p) (s.clock.pAlarm (slot p)) (s.clock.sigalrm (slot p))
    (armed s.history p)
  fired : FiredOk s.history
  pids : Pids s.mm

theorem Inv.owned {s : Alarms} (h : Inv s) : s.Owned where
  flag p := (h.slots p).flag
  fired := h.fired
  pending p := (h.slots p).own

theorem slot_inj {p q : ProcNr} : slot p = slot q ↔ p = q := by
  unfold slot
  rw [Fin.mk.injEq, Nat.add_left_cancel_iff, Fin.val_inj]

theorem procNumber_slot (p : ProcNr) : 0 ≤ procNumber (slot p) := by
  unfold procNumber slot
  dsimp only
  push_cast
  omega

section Slots

variable {m m' : Mproc} {alarm : ℤ} {sig own : Bool}

theorem SlotOk.of_part (h : SlotOk m alarm sig own) (hm : part m' = part m) :
    SlotOk m' alarm sig own := by
  have hflag : m'.alarmOn = m.alarmOn := congrArg Prod.fst hm
  refine ⟨?_, h.once, ?_, h.own⟩
  · rw [hflag]
    exact h.flag
  · rw [hflag, live_of_part hm]
    exact h.alive

/-- No alarm, and no signal on its way. -/
theorem SlotOk.off (hm : m.alarmOn = false) : SlotOk m 0 false own := by
  refine ⟨?_, fun h => absurd rfl h, ?_, fun h => absurd rfl h⟩
  · rw [hm]
    simp
  · intro h
    rw [hm] at h
    cases h

end Slots

variable {history : List Event}

theorem FiredOk.cons {e : Event} (h : FiredOk history)
    (he : ∀ p, e ≠ .fired p) : FiredOk (e :: history) := by
  intro l l' p heq
  cases l with
  | nil => exact absurd (List.cons.inj heq).1 (he p)
  | cons e' l => exact h l l' p (List.cons.inj heq).2

/-- Only the processes that have been fired for are no longer armed. -/
theorem armed_fired (ps : List ProcNr) (history : List Event) (p : ProcNr) :
    armed (ps.map .fired ++ history) p = (decide (p ∉ ps) && armed history p) := by
  induction ps with
  | nil => simp
  | cons q ps ih =>
    rw [List.map_cons, List.cons_append]
    show (if q = p then false else armed (ps.map .fired ++ history) p) = _
    by_cases hqp : q = p
    · simp [hqp]
    · have hpq : p ≠ q := fun h => hqp h.symm
      simp [hqp, hpq, ih]

theorem FiredOk.append {ps : List ProcNr} (h : FiredOk history)
    (hps : ps.Nodup) (harmed : ∀ p ∈ ps, armed history p = true) :
    FiredOk (ps.map .fired ++ history) := by
  induction ps with
  | nil => exact h
  | cons q ps ih =>
    obtain ⟨hq, hps'⟩ := List.nodup_cons.mp hps
    have hrest := ih hps' fun p hp => harmed p (List.mem_cons_of_mem q hp)
    intro l l' p heq
    cases l with
    | nil =>
      obtain ⟨he, hl⟩ := List.cons.inj heq
      rw [← hl, ← Event.fired.inj he]
      show armed (ps.map .fired ++ history) q = true
      rw [armed_fired, harmed q List.mem_cons_self, decide_eq_true hq]
      rfl
    | cons e' l => exact hrest l l' p (List.cons.inj heq).2

/-! ## §4 One Step -/

section Steps

variable {s s' : Alarms} {who : ProcNr}

/-- A step that leaves the kernel alone. -/
theorem Inv.of_steady (h : Inv s) {mm : MmState} (hs : Steady s.mm mm) :
    Inv { s with mm := mm } where
  slots p := (h.slots p).of_part (hs.part p)
  fired := h.fired
  pids := hs.pids h.pids

theorem slot_ne {p q : ProcNr} (h : q ≠ p) : slot q ≠ slot p := fun h' => h (slot_inj.mp h')

theorem deltaTicks_eq_zero {seconds : UInt16} :
    Alarms.deltaTicks seconds = 0 ↔ seconds.toNat % 16384 = 0 := by
  unfold Alarms.deltaTicks hz
  omega

/-- **`alarm`**, when no SIGALRM of an earlier alarm is on its way. -/
theorem Inv.alarm (h : Inv s) {seconds : UInt16} (ticks : ℕ) (hlive : live (s.mm.mproc who) = true)
    (hsig : s.clock.sigalrm (slot who) = false)
    (hsec : seconds.toNat ≠ 0 → seconds.toNat % 16384 ≠ 0 ∧
      (s.clock.receive ticks).alarmTime (Alarms.deltaTicks seconds) ≠ 0) :
    Inv (s.alarm who seconds ticks) := by
  refine ⟨fun p => ?_, h.fired.cons fun _ => by simp, ?_⟩
  · unfold Alarms.alarm Clock.setalarm doAlarm
    dsimp only
    by_cases hp : p = who
    · rw [hp, mproc_modify_self, update_self, Clock.receive_sigalrm, hsig]
      by_cases hzero : Alarms.deltaTicks seconds = 0
      · rw [if_pos hzero]
        apply SlotOk.off
        dsimp only
        have hnone : seconds.toNat = 0 := by
          by_contra hne
          exact (hsec hne).1 (deltaTicks_eq_zero.mp hzero)
        rw [hnone]
        rfl
      · rw [if_neg hzero]
        have hne : seconds.toNat ≠ 0 := fun h0 => hzero (by unfold Alarms.deltaTicks; rw [h0]; rfl)
        have hon : (seconds.toNat != 0) = true := bne_iff_ne.mpr hne
        have htime := (hsec hne).2
        refine ⟨?_, fun _ => rfl, fun _ => hlive, fun _ => ?_⟩
        · dsimp only
          rw [hon]
          exact ⟨fun _ => Or.inl htime, fun _ => rfl⟩
        · unfold armed
          rw [if_pos rfl, hon]
    · rw [mproc_modify_of_ne hp, update_of_ne (slot_ne hp), Clock.receive_sigalrm]
      rw [armed_cons_of_ne _ hp]
      exact h.slots p
  · show Pids (doAlarm s.mm who seconds.toNat)
    unfold doAlarm
    refine Pids.of_shrunk h.pids ?_ ?_ rfl
    · intro q
      by_cases hq : q = who
      · rw [hq, mproc_modify_self]
      · rw [mproc_modify_of_ne hq]
    · intro q
      by_cases hq : q = who
      · rw [hq, mproc_modify_self]
        exact id
      · rw [mproc_modify_of_ne hq]
        exact id

/-- A process that MM has silenced, and of which the kernel has forgotten the alarm. -/
theorem Inv.silenced (h : Inv s) {mm : MmState} {clock : Clock}
    (hmm : Silenced p s.mm mm)
    (hself : clock.pAlarm (slot p) = 0 ∧ clock.sigalrm (slot p) = false)
    (hothers : ∀ q, q ≠ p → clock.pAlarm (slot q) = s.clock.pAlarm (slot q) ∧
      clock.sigalrm (slot q) = s.clock.sigalrm (slot q) ∧ armed history q = armed s.history q)
    (hfired : FiredOk history) : Inv ⟨mm, clock, history⟩ := by
  refine ⟨fun q => ?_, hfired, hmm.pids h.pids⟩
  dsimp only
  by_cases hq : q = p
  · rw [hq, hself.1, hself.2]
    exact SlotOk.off hmm.off
  · obtain ⟨halarm, hsig, harmed⟩ := hothers q hq
    rw [halarm, hsig, harmed]
    exact (h.slots q).of_part (hmm.others q hq)

/-- **`exit`** -/
theorem Inv.exit (h : Inv s) {status : ℤ} (hrun : s.exit who status = .ok s') : Inv s' := by
  obtain ⟨mm, hexit, rfl⟩ := map_eq_ok hrun
  have hmm := (mmExit_silenced hexit).1
  apply h.silenced hmm
  · exact ⟨update_self .., update_self ..⟩
  · intro q hq
    have hne := slot_ne hq
    refine ⟨?_, ?_, ?_⟩
    · unfold Clock.xit
      dsimp only
      rw [update_of_ne hne]
      split
      · exact update_of_ne hne ..
      · rfl
    · unfold Clock.xit
      dsimp only
      rw [update_of_ne hne]
      split
      · rfl
      · rfl
    · exact armed_cons_of_ne _ hq
  · exact h.fired.cons fun _ => by simp

/-- **`exec`**, by a process without a pending alarm. -/
theorem Inv.exec (h : Inv s) {call : ExecCall}
    (hnone : (∃ mm, doExec s.mm who call = .ok (mm, ok)) → s.clock.pAlarm (slot who) = 0)
    (hrun : s.exec who call = .ok s') : Inv s' := by
  obtain ⟨⟨mm, r⟩, hexec, rfl⟩ := map_eq_ok hrun
  have hsteady := Steady.of_undisturbed (doExec_undisturbed hexec)
  dsimp only
  split
  · next hok =>
    rw [hok] at hexec
    have hzero := hnone ⟨mm, hexec⟩
    refine ⟨fun p => ?_, h.fired.cons fun _ => by simp, hsteady.pids h.pids⟩
    unfold Clock.exec
    dsimp only
    have hslot := (h.slots p).of_part (hsteady.part p)
    by_cases hp : p = who
    · rw [hp] at hslot ⊢
      rw [update_self]
      rw [hzero] at hslot
      exact ⟨hslot.flag, hslot.once, hslot.alive, fun h' => absurd rfl h'⟩
    · rw [update_of_ne (slot_ne hp)]
      rw [armed_cons_of_ne _ hp]
      exact hslot
  · exact h.of_steady hsteady

/-- **`fork`**, by a process without an alarm. -/
theorem Inv.fork (h : Inv s)
    (hnone : (∃ mm pid, doFork s.mm who = .ok (mm, pid) ∧ 0 ≤ pid) →
      s.clock.pAlarm (slot who) = 0 ∧ s.clock.sigalrm (slot who) = false)
    (hrun : s.fork who = .ok s') : Inv s' := by
  obtain ⟨⟨mm, pid⟩, hfork, rfl⟩ := map_eq_ok hrun
  rcases doFork_forked h.pids.next hfork with ⟨hneg, hsteady⟩ | ⟨hpos, child, hslot, hforked⟩
  · dsimp only at hneg ⊢
    split
    · rw [if_pos hneg]
      exact h.of_steady hsteady
    · exact h.of_steady hsteady
  · dsimp only at hpos ⊢
    rw [hslot]
    dsimp only
    rw [if_neg (by omega)]
    obtain ⟨hzero, hsig⟩ := hnone ⟨mm, pid, hfork, le_of_lt hpos⟩
    have hoff : (s.mm.mproc who).alarmOn = false := by
      have := (not_congr (h.slots who).flag).mpr (by rw [hzero, hsig]; simp)
      rwa [Bool.not_eq_true] at this
    refine ⟨fun p => ?_, h.fired.cons fun _ => by simp, ?_⟩
    · unfold Clock.fork
      dsimp only
      by_cases hp : p = child
      · rw [hp, update_self, update_self, hzero]
        apply SlotOk.off
        rw [hforked.flag, hoff]
      · rw [update_of_ne (slot_ne hp), update_of_ne (slot_ne hp)]
        rw [armed_cons_of_ne _ hp]
        exact (h.slots p).of_part (hforked.others p hp)
    · -- the new pid is nobody else's
      have hold : ∀ q, q ≠ child → (mm.mproc q).pid = (s.mm.mproc q).pid ∧
          live (mm.mproc q) = live (s.mm.mproc q) := fun q hq =>
        ⟨pid_of_part (hforked.others q hq), live_of_part (hforked.others q hq)⟩
      refine ⟨?_, ?_, hforked.next⟩
      · intro q hq hl
        by_cases hqc : q = child
        · rw [hqc]
          exact hforked.pos
        · rw [(hold q hqc).1]
          exact h.pids.pos q hq ((hold q hqc).2 ▸ hl)
      · intro q q' hq hq' hl hl' heq
        by_cases hqc : q = child
        · by_cases hqc' : q' = child
          · rw [hqc, hqc']
          · rw [hqc, (hold q' hqc').1] at heq
            exact absurd heq.symm (hforked.fresh q' hqc')
        · by_cases hqc' : q' = child
          · rw [hqc', (hold q hqc).1] at heq
            exact absurd heq (hforked.fresh q hqc)
          · rw [(hold q hqc).1, (hold q' hqc').1] at heq
            exact h.pids.inj q q' hq hq' ((hold q hqc).2 ▸ hl) ((hold q' hqc').2 ▸ hl') heq

/-- **A clock tick** fires for processes that are armed. -/
theorem Inv.tick (h : Inv s) (ticks : ℕ) : Inv (s.tick ticks) := by
  set c := s.clock.receive ticks with hc
  have hdue : ∀ p, c.due (slot p) = true → s.clock.pAlarm (slot p) ≠ 0 := by
    intro p hp
    rcases c.clocktick_cases (slot p) with ⟨hno, -, -⟩ | ⟨-, hne, -, -⟩
    · rw [hno] at hp
      cases hp
    · exact hne
  have hmem : ∀ p, p ∈ (Alarms.fires c).reverse ↔ c.due (slot p) = true := by
    intro p
    unfold Alarms.fires
    rw [List.mem_reverse, List.mem_filter]
    exact ⟨fun h' => h'.2, fun h' => ⟨List.mem_finRange p, h'⟩⟩
  refine ⟨fun p => ?_, ?_, h.pids⟩
  · have hslot := h.slots p
    unfold Alarms.tick
    dsimp only
    rw [← hc, armed_fired]
    rcases c.clocktick_cases (slot p) with ⟨hno, halarm, hsig⟩ | ⟨hyes, hne, halarm, hsig⟩
    · have hnot : p ∉ (Alarms.fires c).reverse := by
        rw [hmem, hno]
        decide
      rw [halarm, hsig, decide_eq_true hnot, Bool.true_and]
      exact hslot
    · rw [halarm, hsig, decide_eq_true (procNumber_slot p), Bool.or_true]
      have hon : (s.mm.mproc p).alarmOn = true := hslot.flag.mpr (Or.inl hne)
      exact ⟨⟨fun _ => Or.inr rfl, fun _ => hon⟩, fun h' => absurd rfl h', hslot.alive,
        fun h' => absurd rfl h'⟩
  · apply h.fired.append
    · rw [List.nodup_reverse]
      exact (List.nodup_finRange nrProcs).filter _
    · intro p hp
      exact (h.slots p).own (hdue p ((hmem p).mp hp))

/-- **MM hears of a SIGALRM.** -/
theorem Inv.ksig (h : Inv s) (hp : initProcNr ≤ p)
    (hsig : s.clock.sigalrm (slot p) = true) (hrun : s.ksig p env = .ok s') : Inv s' := by
  obtain ⟨mm, hksig, rfl⟩ := map_eq_ok hrun
  have hslot := h.slots p
  have hon : (s.mm.mproc p).alarmOn = true := hslot.flag.mpr (Or.inr hsig)
  have hmm := doKsig_silenced hp (hslot.alive hon) h.pids hksig
  have hzero : s.clock.pAlarm (slot p) = 0 := by
    by_contra hne
    have := hslot.once hne
    rw [hsig] at this
    cases this
  dsimp only
  split
  · apply h.silenced hmm
    · exact ⟨update_self .., update_self ..⟩
    · intro q hq
      unfold Clock.xit Clock.inform
      dsimp only
      rw [update_of_ne (slot_ne hq), update_of_ne (slot_ne hq),
        update_of_ne (slot_ne hq)]
      exact ⟨rfl, rfl, armed_cons_of_ne _ hq⟩
    · exact h.fired.cons fun _ => by simp
  · apply h.silenced hmm
    · exact ⟨hzero, update_self ..⟩
    · intro q hq
      unfold Clock.inform
      dsimp only
      rw [update_of_ne (slot_ne hq)]
      exact ⟨rfl, rfl, rfl⟩
    · exact h.fired

end Steps

/-- **One step keeps the alarms owned.** -/
theorem Inv.perform {s s' : Alarms} {a : Action} (h : Inv s) (hmay : s.May a) (hsafe : s.Safe a)
    (hrun : s.perform a = .ok s') : Inv s' := by
  cases a with
  | alarm who seconds ticks =>
    cases hrun
    exact h.alarm ticks hmay.2 hsafe.1 hsafe.2
  | fork who => exact h.fork hsafe hrun
  | exec who call => exact h.exec hsafe hrun
  | exit who status => exact h.exit hrun
  | wait who =>
    obtain ⟨r, hwait, rfl⟩ := map_eq_ok hrun
    exact h.of_steady (waitLoop_steady hwait)
  | brk who addr env =>
    cases hrun
    exact h.of_steady (Steady.of_undisturbed (doBrk_undisturbed ..))
  | signal who sig func =>
    cases hrun
    exact h.of_steady (Steady.of_undisturbed (doSignal_undisturbed ..))
  | pause who =>
    cases hrun
    apply h.of_steady
    unfold doPause
    exact Steady.modify _ _ fun _ => rfl
  | tick ticks =>
    cases hrun
    exact h.tick ticks
  | ksig p env => exact h.ksig hmay.1 hmay.2 hrun

/-! ## §5 Runs -/

/-- The states that MM and the clock task reach from start-up by steps that meet `safe`. -/
inductive Reached (size org text data tot : ℕ) (safe : Alarms → Action → Prop) : Alarms → Prop
  | boot {mm} : mmBoot size org text data tot = .ok mm →
      Reached size org text data tot safe ⟨mm, Clock.boot, []⟩
  | step {s s' a} : Reached size org text data tot safe s → s.May a → safe s a →
      s.perform a = .ok s' → Reached size org text data tot safe s'

/-- INIT is the only user process at start-up, and nobody has an alarm. -/
theorem boot_inv {size org text data tot : ℕ} {mm : MmState}
    (hboot : mmBoot size org text data tot = .ok mm) : Inv ⟨mm, Clock.boot, []⟩ := by
  obtain ⟨holes, rfl⟩ := mmBoot_state hboot
  have hoff : ∀ p, (bootMproc org text data p).alarmOn = false := by
    intro p
    unfold bootMproc
    split
    · rfl
    split
    · rfl
    · rfl
  have huser : ∀ p, initProcNr ≤ p → live (bootMproc org text data p) = true → p = initProcNr := by
    intro p hp hl
    by_contra hne
    unfold bootMproc at hl
    rw [if_neg hne, if_neg] at hl
    · cases hl
    · rintro (rfl | rfl)
      · exact absurd hp (by decide)
      · exact absurd hp (by decide)
  refine ⟨fun p => SlotOk.off (hoff p), ?_, ?_, ?_, (by decide : (0 : ℤ) < initPid + 1)⟩
  · intro l l' p heq
    cases l <;> cases heq
  · intro p hp hl
    rw [huser p hp hl]
    exact (by decide : (0 : ℤ) < initPid)
  · intro p q hp hq hl hl' _
    rw [huser p hp hl, huser q hq hl']

section Runs

variable {size org text data tot : ℕ} {safe : Alarms → Action → Prop} {s : Alarms}

theorem Reached.inv (h : Reached size org text data tot Alarms.Safe s) : Inv s := by
  induction h with
  | boot hboot => exact boot_inv hboot
  | step _ hmay hsafe hrun ih => exact ih.perform hmay hsafe hrun

/-- **The alarms are owned along every run** of calls, clock ticks and signals whose steps meet
    `Alarms.Safe`. -/
theorem reached_owned (h : Reached size org text data tot Alarms.Safe s) : s.Owned := h.inv.owned

/-- A test that is enough for a step to be safe. -/
def plainlySafe (s : Alarms) : Action → Bool
  | .alarm who seconds ticks =>
    !s.clock.sigalrm (slot who) && (seconds.toNat == 0 || seconds.toNat % 16384 != 0 &&
      (s.clock.receive ticks).alarmTime (Alarms.deltaTicks seconds) != 0)
  | .fork who => s.clock.pAlarm (slot who) == 0 && !s.clock.sigalrm (slot who)
  | .exec who _ => s.clock.pAlarm (slot who) == 0
  | _ => true

theorem safe_of_plainlySafe {a : Action} (h : plainlySafe s a = true) : s.Safe a := by
  cases a with
  | alarm who seconds ticks =>
    simp only [plainlySafe, Bool.and_eq_true, Bool.not_eq_true', Bool.or_eq_true, bne_iff_ne,
      beq_iff_eq] at h
    exact ⟨h.1, fun hne => h.2.resolve_left hne⟩
  | fork who =>
    simp only [plainlySafe, Bool.and_eq_true, Bool.not_eq_true', beq_iff_eq] at h
    exact fun _ => h
  | exec who call =>
    simp only [plainlySafe, beq_iff_eq] at h
    exact fun _ => h
  | _ => exact trivial

/-- Who may act, as a test. -/
def mayB (s : Alarms) : Action → Bool
  | .alarm who _ _ | .fork who | .exec who _ | .exit who _ | .wait who | .brk who _ _
  | .signal who _ _ | .pause who => decide (initProcNr ≤ who) && live (s.mm.mproc who)
  | .tick _ => true
  | .ksig p _ => decide (initProcNr ≤ p) && s.clock.sigalrm (slot p)

theorem may_of_mayB {a : Action} (h : mayB s a = true) : s.May a := by
  cases a with
  | tick ticks => exact trivial
  | _ => simpa [mayB, Alarms.May] using h

/-- Some steps one after the other, each of which passes the test. -/
def play (test : Alarms → Action → Bool) : List Action → Alarms → Except Fault Alarms
  | [], s => .ok s
  | a :: as, s => if mayB s a && test s a then s.perform a >>= play test as else .error .endless

theorem Reached.play {test : Alarms → Action → Bool} (htest : ∀ s a, test s a = true → safe s a)
    {as : List Action} {s' : Alarms} (hr : Reached size org text data tot safe s)
    (hplay : play test as s = .ok s') : Reached size org text data tot safe s' := by
  induction as generalizing s with
  | nil =>
    cases hplay
    exact hr
  | cons a as ih =>
    unfold Alarm.play at hplay
    split at hplay
    · next hok =>
      rw [Bool.and_eq_true] at hok
      obtain ⟨t, hrun, hplay⟩ := bind_eq_ok hplay
      exact ih (hr.step (may_of_mayB hok.1) (htest s a hok.2) hrun) hplay
    · cases hplay

/-- A run from start-up, and something that is computed from the state it reaches. -/
theorem exists_reached {α : Type} {test : Alarms → Action → Bool}
    (htest : ∀ s a, test s a = true → safe s a) (as : List Action) (f : Alarms → α) (a : α)
    (h : ((mmBoot size org text data tot).bind fun mm =>
      (play test as ⟨mm, Clock.boot, []⟩).map f) = .ok a) :
    ∃ s, Reached size org text data tot safe s ∧ f s = a := by
  obtain ⟨mm, hboot, h⟩ := bind_eq_ok h
  obtain ⟨s, hplay, hf⟩ := map_eq_ok h
  exact ⟨s, (Reached.boot hboot).play htest hplay, hf⟩

end Runs

/-- INIT has a child, which sets an alarm; it goes off, and MM hears of it. -/
theorem reached_owned_child : ∃ s, Reached 4096 100 20 30 200 Alarms.Safe s ∧
    s.history = [.exited 3, .fired 3, .asked 3 2, .born 3] ∧ s.Owned := by
  obtain ⟨s, hr, hhistory⟩ := @exists_reached 4096 100 20 30 200 Alarms.Safe _ _
    (fun _ _ => safe_of_plainlySafe)
    [.fork 2, .alarm 3 2 7, .tick 119, .tick 1, .ksig 3 ⟨fun _ => 0, fun _ => false, true, 0⟩]
    Alarms.history [.exited 3, .fired 3, .asked 3 2, .born 3] (by decide +kernel)
  exact ⟨s, hr, hhistory, reached_owned hr⟩

/-- An executable file, and a call that executes it. -/
def smallExec : ExecCall := ⟨64, .ok ⟨false, 512, 256, 0, 4096, none⟩, true⟩

/-- **The alarms are not owned in every run.**  A process with an alarm forks, and SIGALRM is
    caused for its child too; a process with an alarm executes a file, and keeps the flag without
    the alarm; a process sets a new alarm just when the old one has gone off, and loses the flag
    while the alarm is pending; an alarm of 16384 seconds has the flag and no time; and so has an
    alarm of a second when the clock is a second before it wraps around. -/
theorem alarms_not_owned :
    (∃ s, Reached 4096 100 20 30 200 (fun _ _ => True) s ∧
      s.history = [.fired 4, .fired 3, .born 4, .asked 3 1, .born 3] ∧ ¬ s.Owned) ∧
    (∃ s, Reached 4096 100 20 30 200 (fun _ _ => True) s ∧
      s.history = [.execed 3, .asked 3 1, .born 3] ∧ ¬ s.Owned) ∧
    (∃ s, Reached 4096 100 20 30 200 (fun _ _ => True) s ∧
      s.history = [.asked 3 5, .fired 3, .asked 3 1, .born 3] ∧ ¬ s.Owned) ∧
    (∃ s, Reached 4096 100 20 30 200 (fun _ _ => True) s ∧
      s.history = [.asked 3 16384, .born 3] ∧ ¬ s.Owned) ∧
    ∃ s, Reached 4096 100 20 30 200 (fun _ _ => True) s ∧
      s.history = [.asked 3 1, .born 3] ∧ ¬ s.Owned := by
  have hrun := fun as => @exists_reached 4096 100 20 30 200 (fun _ _ => True) _
    (fun _ _ => true) (fun _ _ _ => trivial) as
    (fun s => (s.history, (s.mm.mproc 3).alarmOn, s.clock.pAlarm (slot 3), s.clock.sigalrm (slot 3)))
  refine ⟨?_, ?_, ?_, ?_, ?_⟩
  · obtain ⟨s, hr, hs⟩ := hrun [.fork 2, .alarm 3 1 0, .fork 3, .tick 60]
      ([.fired 4, .fired 3, .born 4, .asked 3 1, .born 3], true, 0, true) (by decide +kernel)
    simp only [Prod.mk.injEq] at hs
    refine ⟨s, hr, hs.1, fun h => ?_⟩
    have := h.fired [] _ 4 hs.1
    exact absurd this (by decide)
  · obtain ⟨s, hr, hs⟩ := hrun [.fork 2, .alarm 3 1 0, .exec 3 smallExec]
      ([.execed 3, .asked 3 1, .born 3], true, 0, false) (by decide +kernel)
    simp only [Prod.mk.injEq] at hs
    refine ⟨s, hr, hs.1, fun h => ?_⟩
    have := (h.flag 3).mp hs.2.1
    rw [hs.2.2.1, hs.2.2.2] at this
    exact absurd this (by decide)
  · obtain ⟨s, hr, hs⟩ := hrun [.fork 2, .signal 3 sigalrm .sigIgn, .alarm 3 1 0, .tick 60,
        .alarm 3 5 0, .ksig 3 ⟨fun _ => 0, fun _ => false, true, 0⟩]
      ([.asked 3 5, .fired 3, .asked 3 1, .born 3], false, 360, false) (by decide +kernel)
    simp only [Prod.mk.injEq] at hs
    refine ⟨s, hr, hs.1, fun h => ?_⟩
    have := (h.flag 3).mpr (Or.inl (by rw [hs.2.2.1]; decide))
    rw [hs.2.1] at this
    cases this
  · obtain ⟨s, hr, hs⟩ := hrun [.fork 2, .alarm 3 16384 0]
      ([.asked 3 16384, .born 3], true, 0, false) (by decide +kernel)
    simp only [Prod.mk.injEq] at hs
    refine ⟨s, hr, hs.1, fun h => ?_⟩
    have := (h.flag 3).mp hs.2.1
    rw [hs.2.2.1, hs.2.2.2] at this
    exact absurd this (by decide)
  · obtain ⟨s, hr, hs⟩ := hrun [.fork 2, .tick (2 ^ 32 - 90), .alarm 3 1 30]
      ([.asked 3 1, .born 3], true, 0, false) (by decide +kernel)
    simp only [Prod.mk.injEq] at hs
    refine ⟨s, hr, hs.1, fun h => ?_⟩
    have := (h.flag 3).mp hs.2.1
    rw [hs.2.2.1, hs.2.2.2] at this
    exact absurd this (by decide)

end LisaMinix.Mm.Alarm
