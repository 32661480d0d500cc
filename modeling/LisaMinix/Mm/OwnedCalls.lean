import LisaMinix.Mm.Upkeep

/-!
# Every Call Keeps the Memory Owned

For each request, what it does to the invariant `Owned`.  Three kinds of requests can break
it, and each has a condition under which it does not:

- a signal sent to every process by the super-user also reaches zombies, whose memory is
  freed already (`ZombieSafe`);
- `ptrace` lets a process that was killed while stopped exit a second time;
- the sizes in the header of an executable file may add up to more than `2 ^ 16` clicks.
-/

namespace LisaMinix.Mm

open LisaMinix.Library Function

section Quiet

variable {p : ProcNr} {s : MmState}

theorem unpause_sameMem (s : MmState) (p : ProcNr) : SameMem s (unpause s p) := by
  unfold unpause
  simp only
  split
  · apply SameMem.then_reply
    exact SameMem.modify s p fun _ => rfl
  split
  · apply SameMem.then_reply
    exact SameMem.modify s p fun _ => rfl
  · exact SameMem.refl s

theorem unpause_spared (s : MmState) (p : ProcNr) : Spared p s (unpause s p) := by
  unfold unpause
  simp only
  split
  · apply Spared.then_reply
    exact Spared.modify p s fun _ => rfl
  split
  · apply Spared.then_reply
    exact Spared.modify p s fun _ => rfl
  · exact Spared.refl p s

theorem stopProc_sameMem (s : MmState) (p : ProcNr) (sigNr : ℕ) :
    SameMem s (stopProc s p sigNr) := by
  unfold stopProc
  simp only
  split
  · exact SameMem.refl s
  have hstop : SameMem s (s.modify p fun m => { m with stopped := true }) :=
    SameMem.modify s p fun _ => rfl
  split
  · apply SameMem.then_reply
    exact hstop.then_modify _ fun _ => rfl
  · exact hstop.then_modify _ fun _ => rfl

theorem stopProc_spared (s : MmState) (p : ProcNr) (sigNr : ℕ) :
    Spared p s (stopProc s p sigNr) := by
  unfold stopProc
  simp only
  split
  · exact Spared.refl p s
  have hstop : Spared p s (s.modify p fun m => { m with stopped := true }) :=
    Spared.modify p s fun _ => rfl
  split
  · apply Spared.then_reply
    exact hstop.then_modify_any _ (fun _ => rfl) fun _ => rfl
  · exact hstop.then_modify fun _ => rfl

end Quiet

/-! ## §1 Signals -/

section Signals

variable {L : Layout} {s : MmState} {p : ProcNr}

theorem alive_iff : alive s p = true ↔
    initProcNr ≤ p ∧ (s.mproc p).inUse = true ∧ (s.mproc p).hanging = false := by
  simp [alive, and_assoc]

theorem setMap_spared (s : MmState) (p : ProcNr) (seg : MemMaps) : Spared p s (s.setMap p seg) := by
  have hother : ∀ q, q ≠ p → (s.setMap p seg).mproc q = s.mproc q :=
    fun q hq => mproc_modify_of_ne (s := s) hq fun m => { m with seg := seg }
  exact ⟨fun q hq => by rw [alive, alive, hother q hq], fun q hq _ => by rw [hother q hq]⟩

/-- `adjust` on behalf of a live process. -/
theorem adjust_owned (h : Owned L s) (hp : alive s p = true) {dataClicks : ℕ} (sp : ℤ)
    (hdata : (s.mproc p).seg.data.memVir + dataClicks < 65536) :
    Owned L (adjust s p dataClicks sp).1 ∧ Spared p s (adjust s p dataClicks sp).1 ∧
      alive (adjust s p dataClicks sp).1 p = true := by
  obtain ⟨seg', heq, hshape, himage⟩ := adjust_spec sp (h.shape p hp) (h.agree p hp) hdata
  rw [heq]
  obtain ⟨hown, halive⟩ := h.setMap hp hshape himage
  exact ⟨hown, setMap_spared s p seg', by rw [halive, hp]⟩

theorem dataTop_lt (h : Owned L s) (hp : alive s p = true) :
    (s.mproc p).seg.data.memVir + (s.mproc p).seg.data.memLen < 65536 := by
  have hshape := h.shape p hp
  have := hshape.order
  have := hshape.virTop
  omega

theorem killProc_owned (h : Owned L s) (env : Env) (hp : alive s p = true) (sigNr : ℕ) :
    ∃ s', killProc s env p sigNr = .ok s' ∧ Owned L s' ∧ Spared p s s' := by
  unfold killProc
  simp only
  set s₁ := s.modify p fun m => { m with
    sigstatus := sigNr + if coreBits.testBit (sigNr - 1) && env.dumped p then 128 else 0 }
    with hs1
  have hsame : SameMem s s₁ := SameMem.modify _ _ fun _ => rfl
  have hspared : Spared p s s₁ := Spared.modify _ _ fun _ => rfl
  obtain ⟨s', hrun, hown, hsp, -⟩ :=
    mmExit_spec (h.of_sameMem hsame) (by rw [hsame.alive, hp]) 0
  exact ⟨s', hrun, hown, hspared.trans hsp⟩

/-- **A signal to a live process** keeps the memory owned: it is caught, it stops the
process, or it ends it. -/
theorem sigProc_owned (h : Owned L s) (env : Env) (hp : alive s p = true) (sigNr : ℕ) :
    ∃ s', sigProc s env p sigNr = .ok s' ∧ Owned L s' ∧ Spared p s s' := by
  unfold sigProc
  simp only
  split
  · exact ⟨s, rfl, h, Spared.refl p s⟩
  split
  · exact ⟨_, rfl, h.of_sameMem (stopProc_sameMem s p sigNr), stopProc_spared s p sigNr⟩
  split
  · -- "Signal should be caught": the stack may have to grow
    set s₁ := s.modify p fun m => { m with caught := update m.caught sigNr false } with hs1
    have hsame : SameMem s s₁ := SameMem.modify _ _ fun _ => rfl
    have hspared : Spared p s s₁ := Spared.modify _ _ fun _ => rfl
    have hp1 : alive s₁ p = true := by rw [hsame.alive, hp]
    obtain ⟨hown, hsp, hal⟩ := adjust_owned (h.of_sameMem hsame) hp1 (env.sp p - sigPushBytes)
      (by rw [hsame.seg]; exact dataTop_lt h hp)
    split
    · exact ⟨_, rfl, hown, hspared.trans hsp⟩
    · obtain ⟨s', hrun, hown', hsp'⟩ := killProc_owned hown env hal sigNr
      exact ⟨s', hrun, hown', hspared.trans (hsp.trans hsp')⟩
  · exact killProc_owned h env hp sigNr

/-- A slot that a signal to everybody does not end a second time: it is not a zombie, or the
signal does not reach it or cannot end it. -/
def ZombieSafe (sigNr : ℕ) (s : MmState) (q : ProcNr) : Prop :=
  (s.mproc q).hanging = true → (s.mproc q).pid = initPid ∨ (s.mproc q).ignore sigNr = true ∨
    ((s.mproc q).traced = true ∧ sigNr ≠ sigkill) ∨
    (sigNr = sigalrm ∧ (s.mproc q).alarmOn = false)

theorem ZombieSafe.of_spared {sigNr : ℕ} {s' : MmState} {q : ProcNr} (hsp : Spared p s s')
    (hq : q ≠ p) (h : ZombieSafe sigNr s q) : ZombieSafe sigNr s' q := by
  intro hh
  have hpart := hsp.zombies q hq hh
  simp only [zombiePart, Prod.mk.injEq] at hpart
  obtain ⟨hhang, hpid, hign, htr, halarm⟩ := hpart
  rw [hpid, hign, htr, halarm]
  exact h (hhang ▸ hh)

/-- Only a signal from the super-user to everybody reaches a zombie, and never INIT. -/
theorem sendSig_zombie {mp : ProcNr} {procId : ℤ} {sigNr sendUid : ℕ}
    (hsend : sendSig s mp procId sigNr sendUid p = true) (hh : (s.mproc p).hanging = true) :
    procId = -1 ∧ sendUid = superUser ∧ (s.mproc p).pid ≠ initPid := by
  unfold sendSig at hsend
  simp only [hh] at hsend
  split at hsend
  · exact absurd hsend (by decide)
  split at hsend
  · exact absurd hsend (by decide)
  split at hsend
  · next hinit hall =>
    simp only [Bool.and_eq_true, beq_iff_eq] at hall
    refine ⟨hall.2, hall.1, fun hpid => hinit ?_⟩
    simp [hpid, hall.2]
  · simp at hsend

/-- **The loop of `check_sig`** keeps the memory owned, provided that a signal to everybody
meets no zombie that it would end again. -/
theorem checkSigLoop_owned (env : Env) (mp : ProcNr) (procId : ℤ) (sigNr sendUid : ℕ)
    (l : List ProcNr) (s : MmState) (count : ℕ) (h : Owned L s) (hnd : l.Nodup)
    (hl : ∀ q ∈ l, initProcNr ≤ q)
    (hz : procId = -1 → sendUid = superUser → ∀ q ∈ l, ZombieSafe sigNr s q) :
    ∃ s' n, checkSigLoop env mp procId sigNr sendUid l s count = .ok (s', n) ∧ Owned L s' := by
  induction l generalizing s count with
  | nil => exact ⟨s, count, rfl, h⟩
  | cons p l ih =>
    obtain ⟨hpl, hnd'⟩ := List.nodup_cons.mp hnd
    have hl' : ∀ q ∈ l, initProcNr ≤ q := fun q hq => hl q (List.mem_cons_of_mem _ hq)
    -- whatever is done to `p`, the rest of the loop starts from an owned state
    have hrest : ∀ t n, Owned L t → Spared p s t → ∃ s' n',
        checkSigLoop env mp procId sigNr sendUid l t n = .ok (s', n') ∧ Owned L s' := by
      intro t n ht hsp
      refine ih t n ht hnd' hl' fun h1 h2 q hq => ?_
      exact (hz h1 h2 q (List.mem_cons_of_mem _ hq)).of_spared hsp
        (ne_of_mem_of_not_mem hq hpl)
    unfold checkSigLoop
    simp only
    split
    · exact hrest s count h (Spared.refl p s)
    split
    · exact hrest s count h (Spared.refl p s)
    split
    · exact hrest s count h (Spared.refl p s)
    next hin halrm hsend =>
    set t := if (sigNr == sigalrm) = true then s.modify p fun m => { m with alarmOn := false }
      else s with ht
    have hsame : SameMem s t := by
      rw [ht]
      split
      · exact SameMem.modify s p fun _ => rfl
      · exact SameMem.refl s
    have hspared : Spared p s t := by
      rw [ht]
      split
      · exact Spared.modify p s fun _ => rfl
      · exact Spared.refl p s
    have htown := h.of_sameMem hsame
    split
    · exact hrest t _ htown hspared
    next hign =>
    -- the signal is sent: `p` is alive, or it is a traced zombie that cannot be stopped
    have hsig : ∃ t', sigProc t env p sigNr = .ok t' ∧ Owned L t' ∧ Spared p t t' := by
      have huse : (s.mproc p).inUse = true := by simpa using hin
      by_cases hh : (s.mproc p).hanging = true
      · obtain ⟨hid, huid, hpid⟩ := sendSig_zombie (by simpa using hsend) hh
        rcases hz hid huid p (List.mem_cons_self ..) hh with
          hinit | hignore | ⟨htr, hkill⟩ | ⟨hsig, hoff⟩
        · exact absurd hinit hpid
        · exact absurd hignore hign
        · have htr' : (t.mproc p).traced = true := by
            rw [ht]
            split
            · rw [mproc_modify_self]
              exact htr
            · exact htr
          refine ⟨stopProc t p sigNr, ?_, htown.of_sameMem (stopProc_sameMem t p sigNr),
            stopProc_spared t p sigNr⟩
          simp [sigProc, hsame.inUse, huse, htr', hkill]
        · exact absurd (by simp [hsig, hoff]) halrm
      · have halive : alive s p = true :=
          alive_iff.mpr ⟨hl p (List.mem_cons_self ..), huse, by simpa using hh⟩
        exact sigProc_owned htown env (by rw [hsame.alive, halive]) sigNr
    obtain ⟨t', hrun, hown', hsp'⟩ := hsig
    have hun := hown'.of_sameMem (unpause_sameMem t' p)
    have hspun := hspared.trans (hsp'.trans (unpause_spared t' p))
    rw [hrun, ok_bind]
    split
    · exact ⟨_, _, rfl, hun⟩
    · exact hrest _ _ hun hspun

theorem userSlots_nodup : userSlots.Nodup := (List.nodup_finRange nrProcs).filter _

theorem mem_userSlots {q : ProcNr} : q ∈ userSlots ↔ initProcNr ≤ q := by
  simp [userSlots]

/-- `check_sig` keeps the memory owned. -/
theorem checkSig_owned (h : Owned L s) (env : Env) (mp : ProcNr) (procId : ℤ) (sigNr sendUid : ℕ)
    (hz : 1 ≤ sigNr → sigNr ≤ nsig → procId = -1 → sendUid = superUser →
      ∀ q, initProcNr ≤ q → ZombieSafe sigNr s q) :
    ∃ s' r, checkSig s env mp procId sigNr sendUid = .ok (s', r) ∧ Owned L s' := by
  unfold checkSig
  split
  · exact ⟨s, einval, rfl, h⟩
  · next hrange =>
    simp only [Bool.or_eq_true, decide_eq_true_eq, not_or, not_lt] at hrange
    obtain ⟨s', n, hrun, hown⟩ := checkSigLoop_owned env mp procId sigNr sendUid userSlots s 0 h
      userSlots_nodup (fun q hq => mem_userSlots.mp hq)
      fun h1 h2 q hq => hz hrange.1 hrange.2 h1 h2 q (mem_userSlots.mp hq)
    rw [hrun]
    exact ⟨s', _, rfl, hown⟩

theorem stackFault_owned (h : Owned L s) (env : Env) (hp : alive s p = true) :
    ∃ s', stackFault s env p = .ok s' ∧ Owned L s' := by
  obtain ⟨hown, -, hal⟩ := adjust_owned h hp (env.sp p - 256) (dataTop_lt h hp)
  unfold stackFault
  simp only
  split
  · exact ⟨_, rfl, hown⟩
  · set t := (adjust s p (s.mproc p).seg.data.memLen (env.sp p - 256)).1.modify p
      fun m => { m with caught := fun _ => false } with ht
    have hsame : SameMem (adjust s p (s.mproc p).seg.data.memLen (env.sp p - 256)).1 t :=
      SameMem.modify _ _ fun _ => rfl
    obtain ⟨s', hrun, hown', -⟩ := sigProc_owned (hown.of_sameMem hsame) env
      (by rw [hsame.alive, hal]) sigsegv
    exact ⟨s', hrun, hown'⟩

theorem ksigOne_owned (h : Owned L s) (env : Env) {procId : ℤ} (hid : 0 < procId) {j : ℕ}
    (hz : j = sigkill → ∀ q, initProcNr ≤ q → ZombieSafe sigkill s q) :
    ∃ s', ksigOne env p procId j s = .ok s' ∧ Owned L s' := by
  unfold ksigOne
  simp only
  set t := if (j == sigsegv || j == sigbus) = true then
    s.modify p fun m =>
      { m with
        caught := update m.caught j false
        ignore := update m.ignore j false } else s with ht
  have hsame : SameMem s t := by
    rw [ht]
    split
    · exact SameMem.modify s p fun _ => rfl
    · exact SameMem.refl s
  set id := if (j == sigkill) = true then -1 else if (j == sigint || j == sigquit) = true then 0
    else procId with hiddef
  have hzombies : id = -1 → superUser = superUser → ∀ q, initProcNr ≤ q → ZombieSafe j t q := by
    intro hid' _
    -- only SIGKILL goes to everybody
    have hj : j = sigkill := by
      by_contra hne
      rw [hiddef, if_neg (by simpa using hne)] at hid'
      split at hid' <;> omega
    subst hj
    exact hz rfl
  obtain ⟨s', r, hrun, hown⟩ := checkSig_owned (h.of_sameMem hsame) env mmProcNr id j superUser
    fun _ _ => hzombies
  exact ⟨s', by rw [hrun]; rfl, hown⟩

/-- The condition for a bit map with SIGKILL, which the kernel sends to end everything: it
holds no lower signal, which might end a process first, and meets no zombie. -/
def KsigSafe (s : MmState) (sigMap : ℕ) : Prop :=
  sigMap.testBit (sigkill - 1) = true →
    (∀ j, 1 ≤ j → j < sigkill → sigMap.testBit (j - 1) = false) ∧
    ∀ q, initProcNr ≤ q → ZombieSafe sigkill s q

/-- **Signals from the kernel.** -/
theorem doKsig_owned (h : Owned L s) (env : Env) (hp : initProcNr ≤ p) {sigMap : ℕ}
    (hsafe : KsigSafe s sigMap) : ∃ s', doKsig s env p sigMap = .ok s' ∧ Owned L s' := by
  unfold doKsig
  simp only
  split
  · exact ⟨s, rfl, h⟩
  next hlive =>
  have halive : alive s p = true := by
    simp only [Bool.or_eq_true, Bool.not_eq_true', not_or, Bool.not_eq_false, Bool.not_eq_true]
      at hlive
    exact alive_iff.mpr ⟨hp, hlive⟩
  have hpid := h.pid_pos p halive
  set s₁ := s.modify mmProcNr fun mm => { mm with procgrp := (s.mproc p).procgrp } with hs1
  have hsame : SameMem s s₁ := SameMem.modify _ _ fun _ => rfl
  have hown1 := h.of_sameMem hsame
  by_cases hstk : sigMap = 2 ^ (sigstkflt - 1)
  · -- a stack fault comes alone
    obtain ⟨s', hrun, hown⟩ := stackFault_owned hown1 env (by rw [hsame.alive, halive])
    rw [if_pos hstk, hrun, ok_bind]
    have hnone : sigsOf sigMap = [] := by
      rw [hstk]
      decide
    rw [hnone]
    exact ⟨s', rfl, hown⟩
  · rw [if_neg hstk, ok_bind]
    have hsafe1 : KsigSafe s₁ sigMap := by
      intro hk
      refine ⟨(hsafe hk).1, fun q hq hh => ?_⟩
      have hsp : Spared mmProcNr s s₁ := Spared.modify _ _ fun _ => rfl
      have hne : q ≠ mmProcNr := fun heq => absurd hq (by rw [heq]; decide)
      exact ((hsafe hk).2 q hq).of_spared hsp hne hh
    have hstart : Owned L s₁ ∧ (sigsOf sigMap).Pairwise (· < ·) ∧
        (∀ j ∈ sigsOf sigMap, 1 ≤ j ∧ sigMap.testBit (j - 1) = true) ∧
        (sigkill ∈ sigsOf sigMap → ∀ q, initProcNr ≤ q → ZombieSafe sigkill s₁ q) := by
      have hsorted : (List.range' 1 (nsig - 1)).Pairwise (· < ·) := by decide
      refine ⟨hown1, hsorted.filter _, fun j hj => ?_, fun hk => ?_⟩
      · simp only [sigsOf, List.mem_filter, List.mem_range'_1] at hj
        exact ⟨hj.1.1, hj.2⟩
      · simp only [sigsOf, List.mem_filter] at hk
        exact (hsafe1 hk.2).2
    obtain ⟨s', hrun, hown, -⟩ := foldlM_invariant
      (f := fun t j => ksigOne env p (s.mproc p).pid j t)
      (fun l t => Owned L t ∧ l.Pairwise (· < ·) ∧
        (∀ j ∈ l, 1 ≤ j ∧ sigMap.testBit (j - 1) = true) ∧
        (sigkill ∈ l → ∀ q, initProcNr ≤ q → ZombieSafe sigkill t q))
      (by
        rintro j l t ⟨hown, hlt, hbits, hz⟩
        obtain ⟨hjl, hlt'⟩ := List.pairwise_cons.mp hlt
        obtain ⟨t', hrun, hown'⟩ := ksigOne_owned (p := p) (j := j) hown env hpid
          fun hj => hz (by rw [hj]; exact List.mem_cons_self ..)
        refine ⟨t', hrun, hown', hlt', fun i hi => hbits i (List.mem_cons_of_mem _ hi), fun hk => ?_⟩
        -- a signal below SIGKILL is not in the same bit map
        have hkbit := (hbits sigkill (List.mem_cons_of_mem _ hk)).2
        have hj := hbits j (List.mem_cons_self ..)
        have hno := (hsafe hkbit).1 j hj.1 (hjl sigkill hk)
        rw [hno] at hj
        exact absurd hj.2 (by decide)) (sigsOf sigMap) s₁ hstart
    exact ⟨s', hrun, hown⟩

end Signals

/-! ## §2 Wait, break and trace -/

section Calls

variable {L : Layout} {s : MmState} {who : ProcNr}

theorem cleanup_owned (h : Owned L s) {p : ProcNr} (hh : (s.mproc p).hanging = true) :
    ∃ s', cleanup nrProcs s p = .ok s' ∧ Owned L s' := by
  obtain ⟨s', hrun, hr, -⟩ := cleanup_ok (h.zombie p hh) h.zombie
  refine ⟨s', hrun, (h.of_reaped hr fun q hq => ?_).1⟩
  rcases hq with rfl | hq
  · exact hh
  · exact hq

theorem waitLoop_owned (h : Owned L s) (who : ProcNr) (l : List ProcNr) (children : Bool) :
    ∃ s' r, waitLoop s who l children = .ok (s', r) ∧ Owned L s' := by
  induction l generalizing children with
  | nil =>
    unfold waitLoop
    split
    · exact ⟨_, _, rfl, h.of_sameMem (SameMem.modify _ _ fun _ => rfl)⟩
    · exact ⟨s, _, rfl, h⟩
  | cons rp l ih =>
    unfold waitLoop
    simp only
    split
    · split
      · next hh =>
        obtain ⟨s', hrun, hown⟩ := cleanup_owned h hh
        rw [hrun]
        exact ⟨s', none, rfl, hown⟩
      split
      · refine ⟨_, _, rfl, h.of_sameMem ?_⟩
        exact (SameMem.reply ..).then_modify _ fun _ => rfl
      · exact ih true
    · exact ih children

theorem doBrk_owned (h : Owned L s) (env : Env) (hp : alive s who = true) (addr : ℤ) :
    Owned L (doBrk s env who addr).1 := by
  unfold doBrk
  simp only
  split
  · exact h
  · have := clicksOf_lt addr
    exact (adjust_owned h hp (env.sp who) (by omega)).1

/-- The condition for `ptrace`: a process that is made to exit, or that is sent a signal, has
not been killed already. -/
def TraceSafe (s : MmState) (request pid data : ℤ) : Prop :=
  request = 8 ∨ request = 7 ∧ 0 < data ∧ data ≤ nsig → ∀ child, findproc s pid = some child →
    (s.mproc child).stopped = true → (s.mproc child).hanging = false

theorem doTrace_owned (h : Owned L s) (env : Env) (who : ProcNr) {request pid data : ℤ}
    (hsafe : TraceSafe s request pid data) :
    ∃ s' r, doTrace s env who request pid data = .ok (s', r) ∧ Owned L s' := by
  unfold doTrace
  simp only
  split
  · exact ⟨_, _, rfl, h.of_sameMem (SameMem.modify _ _ fun _ => rfl)⟩
  cases hfind : findproc s pid with
  | none => exact ⟨s, esrch, rfl, h⟩
  | some child =>
    obtain ⟨hchild, huse⟩ := findproc_some hfind
    simp only
    split
    · exact ⟨s, esrch, rfl, h⟩
    next hstop =>
    have hstopped : (s.mproc child).stopped = true := by simpa using hstop
    split
    · next hreq =>
      have hno := hsafe (.inl hreq) child hfind hstopped
      obtain ⟨s', hrun, hown, -⟩ := mmExit_spec h (alive_iff.mpr ⟨hchild, huse, hno⟩) data
      exact ⟨s', ok, by rw [hrun]; rfl, hown⟩
    split
    · split
      · exact ⟨s, eio, rfl, h⟩
      next hreq hsig =>
      unfold resume
      split
      · next hdata =>
        have hno := hsafe (.inr ⟨hreq, hdata, not_lt.mp hsig⟩) child hfind hstopped
        set t := s.modify child fun m => { m with traced := false } with ht
        have hsame : SameMem s t := SameMem.modify _ _ fun _ => rfl
        obtain ⟨s', hrun, hown, -⟩ := sigProc_owned (h.of_sameMem hsame) env
          (by rw [hsame.alive]; exact alive_iff.mpr ⟨hchild, huse, hno⟩) data.toNat
        rw [hrun]
        exact ⟨_, _, rfl, hown.of_sameMem (SameMem.modify _ _ fun _ => rfl)⟩
      · exact ⟨_, _, rfl, h.of_sameMem (SameMem.modify _ _ fun _ => rfl)⟩
    · exact ⟨s, _, rfl, h⟩

end Calls

/-! ## §3 Exec -/

section Exec

variable {L : Layout} {s : MmState} {who : ProcNr}

/-- Click 0 belongs to the system, so no hole starts there. -/
theorem Layout.base_ne_zero (L : Layout) {t : HoleTable} {areas blocks : List Area}
    (ht : Tiled L.size t areas (L.system ++ blocks)) : ∀ a ∈ areas, a.base ≠ 0 := by
  intro a ha hbase
  obtain ⟨z, hz, hzero⟩ := L.system_zero
  have hzmem : z ∈ L.system ++ blocks := List.mem_append_left _ hz
  have hsep := ht.partition.sep a ha z hzmem
  have hapos := ht.partition.ordered.pos a ha
  have hzpos := ht.partition.pos z hzmem
  simp only [Area.Apart, Area.stop] at hsep
  omega

/-- The live processes other than `who`. -/
def others (s : MmState) (who : ProcNr) : List ProcNr :=
  (List.finRange nrProcs).filter fun q => alive s q && q != who

theorem users_perm_others (who : ProcNr) (hp : alive s who = true) : (users s).Perm (who :: others s who) :=
  filter_perm_cons (List.nodup_finRange nrProcs) (List.mem_finRange _) hp (by simp)
    fun q hq => by simp [hq]

theorem others_congr {s' : MmState} (h : ∀ q, alive s' q = alive s q) :
    others s' who = others s who :=
  List.filter_congr fun q _ => by rw [h q]

theorem blocks_short (s : MmState) (b : Area) :
    (b :: (L.system ++ (images s).map Block.area)).length < 126 := by
  have hsys := L.system_short
  have husers := users_length_le s
  simp only [images, List.length_cons, List.length_append, List.length_map]
  omega

/-- **The old image is freed when the new one is in place.** -/
theorem replaceImage_owned (h : Owned L s) (hp : alive s who = true) {t : HoleTable}
    {areas : List Area} {b : Block} {seg : MemMaps} (hshape : Shape seg) (himage : image seg = b)
    (htiled : Tiled L.size t areas (b.area :: (L.system ++ (images s).map Block.area))) :
    ∃ s', replaceImage { s with holes := t, events := .alloc b :: s.events } who seg = .ok s' ∧
      Owned L s' := by
  set old := image (s.mproc who).seg with hold
  set s₁ : MmState := { s with holes := t, events := .alloc b :: s.events } with hs1
  set s₂ := s₁.modify who fun m => { m with seg := seg } with hs2
  have hrm : rmshadow s₂ who = .ok (old.base, old.clicks) := by
    have hmap : s₂.pMap who = (s.mproc who).seg := h.agree who hp
    rw [rmshadow_eq (hmap ▸ h.shape who hp), hmap]
    intro q hq hfree hne
    have hslot : s₂.slotFree q = !alive s q := h.slot q hq
    rw [hslot] at hfree
    have hqa : alive s q = true := by simpa using hfree
    rw [hmap, show s₂.pMap q = (s.mproc q).seg from h.agree q hqa]
    exact h.dataPhys_ne hqa hp hne
  -- the blocks: the new image, the system, the other processes, and the old image
  set rest := (others s who).map fun q => image (s.mproc q).seg with hrest
  have himages : (images s).Perm (old :: rest) :=
    (users_perm_others who hp).map fun q => image (s.mproc q).seg
  have hblocks : (b.area :: (L.system ++ (images s).map Block.area)).Perm
      (old.area :: (L.system ++ (b :: rest).map Block.area)) := by
    have h1 : (L.system ++ (images s).map Block.area).Perm
        (old.area :: (L.system ++ rest.map Block.area)) :=
      ((himages.map Block.area).append_left L.system).trans List.perm_middle
    refine (h1.cons b.area).trans ((List.Perm.swap _ _ _).trans ?_)
    exact (List.perm_middle.symm).cons old.area
  have hshort : (L.system ++ (b :: rest).map Block.area).length < 126 := by
    have hlen := hblocks.length_eq
    have := blocks_short (L := L) s b.area
    simp only [List.length_cons] at hlen this
    omega
  obtain ⟨t', hfree, htiled'⟩ := (htiled.perm hblocks).free L.size_lt hshort
  set s₃ : MmState := { s₂ with
    pMap := update s₂.pMap who seg
    holes := t'
    events := .free old :: s₂.events } with hs3
  refine ⟨s₃, ?_, ?_⟩
  · have : s₂.holes = t := rfl
    simp only [replaceImage, ← hs2, sysFresh, hrm, map_ok, ok_bind, releaseMem, sysNewmap, this, hfree]
    rfl
  have hself : s₃.mproc who = { s.mproc who with seg := seg } :=
    mproc_modify_self s₁ who fun m => { m with seg := seg }
  have hother : ∀ q, q ≠ who → s₃.mproc q = s.mproc q := fun q hq =>
    mproc_modify_of_ne (s := s₁) hq fun m => { m with seg := seg }
  have hsame : ∀ q, (s₃.mproc q).inUse = (s.mproc q).inUse ∧
      (s₃.mproc q).hanging = (s.mproc q).hanging ∧ (s₃.mproc q).pid = (s.mproc q).pid := by
    intro q
    by_cases hq : q = who
    · rw [hq, hself]
      exact ⟨rfl, rfl, rfl⟩
    · rw [hother q hq]
      exact ⟨rfl, rfl, rfl⟩
  have halive : ∀ q, alive s₃ q = alive s q := by
    intro q
    rw [alive, alive, (hsame q).1, (hsame q).2.1]
  have himages3 : (b :: rest).Perm (images s₃) := by
    have hperm := (users_perm_others (s := s₃) who (by rw [halive, hp])).map
      fun q => image (s₃.mproc q).seg
    have hmap : (others s₃ who).map (fun q => image (s₃.mproc q).seg) = rest := by
      rw [others_congr halive]
      refine List.map_congr_left fun q hq => ?_
      simp only [others, List.mem_filter, Bool.and_eq_true, bne_iff_ne] at hq
      rw [hother q hq.2.2]
    rw [List.map_cons, hmap, hself, himage] at hperm
    exact hperm.symm
  refine ⟨fun q hq => ?_, fun q hq => ?_, ?_, h.pids, fun q hq => ?_, fun q hq => ?_, fun q hq => ?_,
    fun q hq => ?_, ?_, ?_⟩
  · rw [(hsame q).1, (hsame q).2.1]
    exact h.servers q hq
  · rw [(hsame q).2.1] at hq
    rw [(hsame q).1]
    exact h.zombie q hq
  · have hslots : slotsInUse s₃ = slotsInUse s := List.countP_congr fun q _ => by rw [(hsame q).1]
    rw [hslots]
    exact h.count
  · rw [halive] at hq
    rw [(hsame q).2.2]
    exact h.pid_pos q hq
  · rw [halive] at hq
    by_cases hqw : q = who
    · rw [hqw, hself]
      simp [hs3]
    · rw [hother q hqw]
      have hmap : s₃.pMap q = s₂.pMap q := by simp [hs3, hqw]
      rw [hmap]
      exact h.agree q hq
  · rw [halive] at hq
    by_cases hqw : q = who
    · rw [hqw, hself]
      exact hshape
    · rw [hother q hqw]
      exact h.shape q hq
  · rw [halive]
    exact h.slot q hq
  · exact ⟨_, htiled'.perm ((himages3.map Block.area).append_left L.system)⟩
  · obtain ⟨bs, hbs, hperm⟩ := h.ledger
    have hperm' : (b :: bs).Perm (old :: b :: rest) :=
      ((hperm.trans himages).cons b).trans (List.Perm.swap _ _ _)
    have hmem : old ∈ b :: bs := hperm'.mem_iff.mpr (List.mem_cons_self ..)
    refine ⟨(b :: bs).erase old, ?_, ?_⟩
    · show ((replay L.first s.events).map (b :: ·)).bind _ = _
      rw [hbs, Option.map_some, Option.bind_some, if_pos hmem]
    · have := hperm'.erase old
      rw [List.erase_cons_head] at this
      exact this.trans himages3

/-- What `do_exec` checks makes the sizes of an image feasible. -/
theorem feasible_of_checks {f : ExecFile} {stackBytes : ℤ} (hmax : stackBytes ≤ argMax)
    (hpos : 0 ≤ stackBytes) (hread : readHeader f (f.sizes stackBytes) = true)
    (hgap : (f.sizes stackBytes).gap < 32768) : Feasible (f.sizes stackBytes) := by
  unfold readHeader at hread
  simp only [Bool.and_eq_true, decide_eq_true_eq] at hread
  refine ⟨hread.1.2, ?_, hgap, clicksOf_lt _⟩
  unfold argMax at hmax
  simp only [ExecFile.sizes, clicksOf]
  omega

/-- The condition for `exec` of a file that passes the checks of the header: the text and the
rest of the image together are less than `2 ^ 16` clicks. -/
def ExecSafe (call : ExecCall) : Prop :=
  ∀ f, call.file = .ok f → readHeader f (f.sizes call.stackBytes) = true →
    (f.sizes call.stackBytes).text + (f.sizes call.stackBytes).tot < 65536

theorem newMem_owned (h : Owned L s) (hp : alive s who = true) {z : ImageSizes}
    (hz : z.gap < 32768 → Feasible z) (hsum : z.text + z.tot < 65536) :
    ∃ s' r, newMem s who z = .ok (s', r) ∧ Owned L s' := by
  unfold newMem
  simp only
  split
  · exact ⟨s, enomem, rfl, h⟩
  next hgap =>
  have hfeas := hz (by omega)
  rw [toClicks_of_lt hsum]
  obtain ⟨areas, htiled⟩ := h.tiled
  rcases htiled.allocForExec L.size_lt (c := z.text + z.tot) (by have := hfeas.data_lt; omega)
    (L.base_ne_zero htiled) with hno | ⟨t, b, areas', hrun, htiled'⟩
  · rw [hno, ok_bind]
    exact ⟨s, eagain, rfl, h⟩
  · rw [hrun, ok_bind]
    -- the block is inside the memory, so its end fits in 16 bits
    have hpos := htiled'.partition.pos _ (List.mem_cons_self ..)
    have hwithin := htiled'.partition.within ⟨b, evenClicks (z.text + z.tot)⟩ (by simp)
    have hle := le_evenClicks (lt_of_evenClicks_ne_zero hsum (Nat.pos_iff_ne_zero.mp hpos))
    have hsize := L.size_lt
    simp only [Area.stop] at hwithin
    obtain ⟨hshape, himage⟩ := seg_shape hfeas b hsum (by omega)
    obtain ⟨s', hrep, hown⟩ := replaceImage_owned (b := ⟨b, z.text + z.tot⟩) h hp hshape himage htiled'
    refine ⟨s', ok, ?_, hown⟩
    simp only
    rw [hrep]
    rfl

theorem doExec_owned (h : Owned L s) (hp : alive s who = true) {call : ExecCall}
    (hsafe : ExecSafe call) : ∃ s' r, doExec s who call = .ok (s', r) ∧ Owned L s' := by
  unfold doExec
  split
  · exact ⟨s, enomem, rfl, h⟩
  next hmax =>
  cases hfile : call.file with
  | error e => exact ⟨s, e, rfl, h⟩
  | ok f =>
    simp only
    split
    · exact ⟨s, enoexec, rfl, h⟩
    next hread =>
    split
    · exact ⟨s, eacces, rfl, h⟩
    next hfetch =>
    obtain ⟨s', r, hrun, hown⟩ := newMem_owned h hp (z := f.sizes call.stackBytes)
      (feasible_of_checks (by omega) (by simp at hfetch; omega) (by simpa using hread))
      (hsafe f hfile (by simpa using hread))
    rw [hrun]
    refine ⟨_, r, rfl, ?_⟩
    split
    · exact hown.of_sameMem (SameMem.modify _ _ fun _ => rfl)
    · exact hown

end Exec

end LisaMinix.Mm
