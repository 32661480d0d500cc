import LisaMinix.Fs.Pipe
import LisaMinix.Library.Counting

/-!
# Who Waits on a Pipe

The bookkeeping of suspended processes: `fp_suspended`, `fp_revived`, `susp_count` and
`reviving`.

- `release_eq`: as long as `susp_count` does not count too few, `release` awakens everybody
  who hangs on the pipe in the given call.
- `WaitOk`: the invariant.  Readers hang only on an empty pipe, and never do a reader and a
  writer hang on the same pipe.
-/

namespace LisaMinix.Fs

open LisaMinix.Mm (ProcNr nrProcs)
open LisaMinix.Library

/-! ## §1 Release -/

/-- The processes that wait: suspended, and not about to be revived. -/
def waits (s : FsState) (p : ProcNr) : Bool := (s.fproc p).suspended && !(s.fproc p).revived

def waitCount (s : FsState) : ℕ := (List.finRange nrProcs).countP (waits s)

def revivedCount (s : FsState) : ℕ := (List.finRange nrProcs).countP fun p => (s.fproc p).revived

def hangCount (s : FsState) (ip : InodeNr) (rw : Rw) : ℕ :=
  (List.finRange nrProcs).countP (hangsOn s ip rw)

/-- The state in which the processes of `l` that hang on the pipe are being revived. -/
def releasedIn (l : List ProcNr) (s : FsState) (ip : InodeNr) (rw : Rw) : FsState :=
  { s with
    fproc := fun p =>
      if p ∈ l ∧ hangsOn s ip rw p then { s.fproc p with revived := true } else s.fproc p
    reviving := s.reviving + l.countP (hangsOn s ip rw)
    suspCount := s.suspCount - l.countP (hangsOn s ip rw) }

/-- Everybody who hangs on the pipe is being revived. -/
def releasedAll (s : FsState) (ip : InodeNr) (rw : Rw) : FsState :=
  releasedIn (List.finRange nrProcs) s ip rw

section Release

variable {s : FsState} {ip : InodeNr} {rw : Rw} {p : ProcNr}

theorem hangsOn_waits (h : hangsOn s ip rw p = true) : waits s p = true := by
  simp only [hangsOn, Bool.and_eq_true] at h
  simp [waits, h.1.1.1, h.1.1.2]

theorem hangCount_le_waitCount (s : FsState) (ip : InodeNr) (rw : Rw) :
    hangCount s ip rw ≤ waitCount s :=
  List.countP_mono_left fun _ _ h => hangsOn_waits h

/-- Whether a process hangs depends on its own slot and on the inodes of the filps. -/
theorem hangsOn_congr {s' : FsState} (hproc : s'.fproc p = s.fproc p)
    (hfilp : ∀ f, (s'.fproc p).filp (s'.fproc p).call.fd = some f → (s'.filp f).ino = (s.filp f).ino) :
    hangsOn s' ip rw p = hangsOn s ip rw p := by
  unfold hangsOn
  simp only [hproc] at hfilp ⊢
  cases hf : (s.fproc p).filp (s.fproc p).call.fd with
  | none => rfl
  | some f =>
    simp only
    rw [hfilp f hf]

theorem reviveOne_fproc_self (p : ProcNr) :
    (reviveOne s p).fproc p = { s.fproc p with revived := true } := by
  simp [reviveOne, FsState.setProc]

theorem reviveOne_fproc_of_ne {p q : ProcNr} (h : q ≠ p) :
    (reviveOne s p).fproc q = s.fproc q := by
  simp [reviveOne, FsState.setProc, h]

theorem hangsOn_reviveOne {p q : ProcNr} (h : q ≠ p) :
    hangsOn (reviveOne s p) ip rw q = hangsOn s ip rw q :=
  hangsOn_congr (reviveOne_fproc_of_ne h) fun _ _ => rfl

theorem countP_reviveOne {l : List ProcNr} (hnot : p ∉ l) :
    l.countP (hangsOn (reviveOne s p) ip rw) = l.countP (hangsOn s ip rw) := by
  refine List.countP_congr fun q hq => ?_
  have hne : q ≠ p := fun heq => hnot (heq ▸ hq)
  rw [hangsOn_reviveOne hne]

/-- Reviving the first process of the list and then the rest. -/
theorem releasedIn_cons {l : List ProcNr} (hp : hangsOn s ip rw p = true)
    (hnot : p ∉ l) : releasedIn l (reviveOne s p) ip rw = releasedIn (p :: l) s ip rw := by
  have hsame : ∀ q ∈ l, hangsOn (reviveOne s p) ip rw q = hangsOn s ip rw q := fun q hq =>
    hangsOn_reviveOne fun heq => hnot (heq ▸ hq)
  have hcons : (p :: l).countP (hangsOn s ip rw) = l.countP (hangsOn s ip rw) + 1 := by
    rw [List.countP_cons, if_pos hp]
  unfold releasedIn
  rw [countP_reviveOne hnot, hcons]
  simp only [FsState.mk.injEq]
  refine ⟨?_, rfl, rfl, ?_, ?_, rfl, rfl⟩
  · funext q
    by_cases hq : q = p
    · subst hq
      simp [hnot, hp, reviveOne_fproc_self]
    · by_cases hmem : q ∈ l
      · simp [hmem, hsame q hmem, reviveOne_fproc_of_ne hq]
      · simp [hmem, hq, reviveOne_fproc_of_ne hq]
  · simp only [reviveOne]
    push_cast
    ring
  · simp only [reviveOne]
    push_cast
    ring

/-- Nobody in the list hangs on the pipe. -/
theorem releasedIn_of_none {l : List ProcNr} (h : ∀ p ∈ l, hangsOn s ip rw p = false) :
    releasedIn l s ip rw = s := by
  have hzero : l.countP (hangsOn s ip rw) = 0 :=
    List.countP_eq_zero.mpr fun p hp => by simp [h p hp]
  unfold releasedIn
  rw [hzero]
  have hproc : (fun p => if p ∈ l ∧ hangsOn s ip rw p then { s.fproc p with revived := true }
      else s.fproc p) = s.fproc := by
    funext p
    by_cases hp : p ∈ l
    · simp [h p hp]
    · simp [hp]
  simp only [hproc]
  simp

/-- The loop of `release` gets to the end of the table unless `count` is too small. -/
theorem releaseLoop_eq (l : List ProcNr) (hnd : l.Nodup) (count : ℤ) (s : FsState)
    (hcount : count ≤ 0 ∨ (l.countP (hangsOn s ip rw) : ℤ) ≤ count) :
    releaseLoop ip rw l count s = releasedIn l s ip rw := by
  induction l generalizing count s with
  | nil => exact (releasedIn_of_none (by simp)).symm
  | cons p l ih =>
    obtain ⟨hnot, hnd'⟩ := List.nodup_cons.mp hnd
    unfold releaseLoop
    split
    · next hp =>
      rw [← releasedIn_cons hp hnot]
      rw [List.countP_cons, if_pos hp] at hcount
      split
      · -- `count` is used up, and so are the processes that hang
        next hone =>
        refine (releasedIn_of_none fun q hq => ?_).symm
        have hzero : l.countP (hangsOn (reviveOne s p) ip rw) = 0 := by
          rw [countP_reviveOne hnot]
          push_cast at hcount
          omega
        have := List.countP_eq_zero.mp hzero q hq
        simpa using this
      · next hmore =>
        apply ih hnd'
        rw [countP_reviveOne hnot]
        push_cast at hcount
        omega
    · next hp =>
      rw [List.countP_cons, if_neg hp] at hcount
      rw [ih hnd' count s hcount]
      have hp' : hangsOn s ip rw p = false := by simpa using hp
      unfold releasedIn
      rw [List.countP_cons, if_neg hp]
      simp only [Nat.add_zero, FsState.mk.injEq, and_true]
      funext q
      by_cases hq : q = p
      · simp [hq, hp']
      · simp [hq]

/-- **`release` awakens everybody who hangs on the pipe**, unless `count` is too small. -/
theorem release_eq {count : ℤ} (hcount : count ≤ 0 ∨ (hangCount s ip rw : ℤ) ≤ count) :
    release s ip rw count = releasedAll s ip rw :=
  releaseLoop_eq _ (List.nodup_finRange nrProcs) count s hcount

theorem releasedAll_fproc (p : ProcNr) : (releasedAll s ip rw).fproc p =
    if hangsOn s ip rw p then { s.fproc p with revived := true } else s.fproc p := by
  simp [releasedAll, releasedIn]

/-- After a release nobody hangs on the pipe in that call; elsewhere nothing changes. -/
theorem hangsOn_releasedAll (i : InodeNr) (rw' : Rw) (p : ProcNr) :
    hangsOn (releasedAll s ip rw) i rw' p = (hangsOn s i rw' p && !hangsOn s ip rw p) := by
  cases hp : hangsOn s ip rw p with
  | true =>
    have hproc : (releasedAll s ip rw).fproc p = { s.fproc p with revived := true } := by
      rw [releasedAll_fproc, if_pos hp]
    simp [hangsOn, hproc]
  | false =>
    have hproc : (releasedAll s ip rw).fproc p = s.fproc p := by
      rw [releasedAll_fproc, hp]
      rfl
    rw [hangsOn_congr hproc fun _ _ => rfl]
    simp

theorem waitCount_releasedAll (s : FsState) (ip : InodeNr) (rw : Rw) :
    waitCount s = waitCount (releasedAll s ip rw) + hangCount s ip rw := by
  apply countP_split
  · intro p
    cases hp : hangsOn s ip rw p with
    | true => rw [hangsOn_waits hp, Bool.or_true]
    | false =>
      have hproc : (releasedAll s ip rw).fproc p = s.fproc p := by
        rw [releasedAll_fproc, hp]
        rfl
      rw [waits, waits, hproc, Bool.or_false]
  · intro p hw
    cases hp : hangsOn s ip rw p with
    | true =>
      simp only [waits, releasedAll_fproc, hp, if_true] at hw
      exact absurd hw (by simp)
    | false => rfl

theorem revivedCount_releasedAll (s : FsState) (ip : InodeNr) (rw : Rw) :
    revivedCount (releasedAll s ip rw) = revivedCount s + hangCount s ip rw := by
  apply countP_split
  · intro p
    cases hp : hangsOn s ip rw p with
    | true =>
      rw [releasedAll_fproc, if_pos hp]
      simp
    | false =>
      rw [releasedAll_fproc, hp]
      simp
  · intro p hrev
    cases hp : hangsOn s ip rw p with
    | true =>
      have hwait := hangsOn_waits hp
      simp [waits, hrev] at hwait
    | false => rfl

end Release

/-! ## §2 The invariant -/

/-- What holds of the suspended processes all the time. -/
structure WaitBase (s : FsState) : Prop where
  /-- the descriptor of a suspended call is still open, in the right mode -/
  saved : ∀ p, (s.fproc p).suspended = true →
    ∃ f, (s.fproc p).filp (s.fproc p).call.fd = some f ∧ (s.filp f).mode = (s.fproc p).call.rw
  revived : ∀ p, (s.fproc p).revived = true → (s.fproc p).suspended = true
  susp : s.suspCount = waitCount s + s.elsewhere
  reviving : s.reviving = revivedCount s
  /-- a reader hangs only on an empty pipe -/
  empty : ∀ i p, hangsOn s i .reading p = true → (s.inode i).size = 0

/-- What holds between two turns of the main loop. -/
structure WaitOk (s : FsState) : Prop extends WaitBase s where
  /-- no reader and writer hang on the same pipe -/
  apart : ∀ i p q, hangsOn s i .reading p = true → hangsOn s i .writing q = false

/-- `s'` differs from `s` in neither processes nor counters; filps keep their mode and inode,
and no pipe on which a reader hangs gets contents. -/
structure SameWait (s s' : FsState) : Prop where
  fproc : s'.fproc = s.fproc
  mode : ∀ f, (s'.filp f).mode = (s.filp f).mode
  ino : ∀ f, (s'.filp f).ino = (s.filp f).ino
  suspCount : s'.suspCount = s.suspCount
  reviving : s'.reviving = s.reviving
  elsewhere : s'.elsewhere = s.elsewhere
  size : ∀ i p, hangsOn s i .reading p = true → (s.inode i).size = 0 → (s'.inode i).size = 0

section Invariant

variable {s s' : FsState} {ip : InodeNr} {rw : Rw} {who : ProcNr}

theorem SameWait.hangsOn (h : SameWait s s') (i : InodeNr) (rw : Rw) (p : ProcNr) :
    Fs.hangsOn s' i rw p = Fs.hangsOn s i rw p :=
  hangsOn_congr (by rw [h.fproc]) fun f _ => h.ino f

theorem WaitOk.of_same (hw : WaitOk s) (h : SameWait s s') : WaitOk s' where
  saved p hp := by
    rw [h.fproc] at hp ⊢
    obtain ⟨f, hf, hmode⟩ := hw.saved p hp
    exact ⟨f, hf, by rw [h.mode, hmode]⟩
  revived p hp := by
    rw [h.fproc] at hp ⊢
    exact hw.revived p hp
  susp := by
    have hcount : waitCount s' = waitCount s := by
      unfold waitCount waits
      rw [h.fproc]
    rw [h.suspCount, h.elsewhere, hcount, hw.susp]
  reviving := by
    have hcount : revivedCount s' = revivedCount s := by
      unfold revivedCount
      rw [h.fproc]
    rw [h.reviving, hcount, hw.reviving]
  empty i p hp := by
    rw [h.hangsOn] at hp
    exact h.size i p hp (hw.empty i p hp)
  apart i p q hp := by
    rw [h.hangsOn] at hp ⊢
    exact hw.apart i p q hp

/-- A release keeps the bookkeeping right. -/
theorem WaitBase.releasedAll (h : WaitBase s) (ip : InodeNr) (rw : Rw) :
    WaitBase (releasedAll s ip rw) where
  saved p hp := by
    have hfilp : ((Fs.releasedAll s ip rw).fproc p).filp = (s.fproc p).filp ∧
        ((Fs.releasedAll s ip rw).fproc p).call = (s.fproc p).call ∧
        ((Fs.releasedAll s ip rw).fproc p).suspended = (s.fproc p).suspended := by
      rw [releasedAll_fproc]
      split <;> exact ⟨rfl, rfl, rfl⟩
    rw [hfilp.2.2] at hp
    rw [hfilp.1, hfilp.2.1]
    exact h.saved p hp
  revived p hp := by
    rw [releasedAll_fproc] at hp ⊢
    split at hp
    · next hh =>
      rw [if_pos hh]
      have := hangsOn_waits hh
      simp only [waits, Bool.and_eq_true] at this
      exact this.1
    · next hh =>
      rw [if_neg hh]
      exact h.revived p hp
  susp := by
    have hsplit := waitCount_releasedAll s ip rw
    have hsusp := h.susp
    show s.suspCount - (hangCount s ip rw : ℤ) = _
    rw [hsusp, hsplit]
    push_cast
    show _ = (waitCount (Fs.releasedAll s ip rw) : ℤ) + (s.elsewhere : ℤ)
    ring
  reviving := by
    show s.reviving + (hangCount s ip rw : ℤ) = _
    rw [revivedCount_releasedAll, h.reviving]
    push_cast
    ring
  empty i p hp := by
    rw [hangsOn_releasedAll, Bool.and_eq_true] at hp
    exact h.empty i p hp.1

theorem WaitOk.releasedAll (h : WaitOk s) (ip : InodeNr) (rw : Rw) :
    WaitOk (releasedAll s ip rw) where
  toWaitBase := h.toWaitBase.releasedAll ip rw
  apart i p q hp := by
    rw [hangsOn_releasedAll, Bool.and_eq_true] at hp
    rw [hangsOn_releasedAll, h.apart i p q hp.1]
    rfl

/-- `susp_count` never counts too few, so `release` with it awakens everybody. -/
theorem WaitBase.release_eq (h : WaitBase s) (ip : InodeNr) (rw : Rw) :
    release s ip rw s.suspCount = Fs.releasedAll s ip rw := by
  apply Fs.release_eq
  have hle := hangCount_le_waitCount s ip rw
  rw [h.susp]
  omega

/-- Nor does `NR_PROCS`. -/
theorem release_nrProcs (s : FsState) (ip : InodeNr) (rw : Rw) :
    release s ip rw nrProcs = Fs.releasedAll s ip rw := by
  apply Fs.release_eq
  right
  have hle : hangCount s ip rw ≤ (List.finRange nrProcs).length := List.countP_le_length
  rw [List.length_finRange] at hle
  exact_mod_cast hle

/-! ## §3 Suspension and revival -/

theorem WaitBase.not_revived (h : WaitBase s) (hwho : (s.fproc who).suspended = false) :
    (s.fproc who).revived = false := by
  cases hrev : (s.fproc who).revived with
  | false => rfl
  | true =>
    rw [h.revived who hrev] at hwho
    exact absurd hwho (by decide)

section Suspend

variable {call : IoCall} {f : FilpNr}

theorem suspend_fproc_self : (suspend s who call).fproc who =
    { s.fproc who with suspended := true, call := call } := by
  simp [suspend, FsState.setProc]

theorem suspend_fproc_of_ne (hp : p ≠ who) : (suspend s who call).fproc p = s.fproc p := by
  simp [suspend, FsState.setProc, hp]

/-- The process that is suspended hangs on the pipe of its descriptor, and on no other. -/
theorem hangsOn_suspend_self (h : WaitBase s) (hwho : (s.fproc who).suspended = false)
    (hfd : (s.fproc who).filp call.fd = some f) (i : InodeNr) (rw : Rw) :
    hangsOn (suspend s who call) i rw who = (call.rw == rw && (s.filp f).ino == i) := by
  unfold hangsOn
  simp only [suspend_fproc_self, hfd, h.not_revived hwho, Bool.not_false, Bool.true_and]
  rfl

theorem hangsOn_suspend_of_ne (hp : p ≠ who) (i : InodeNr) (rw : Rw) :
    hangsOn (suspend s who call) i rw p = hangsOn s i rw p :=
  hangsOn_congr (suspend_fproc_of_ne hp) fun _ _ => rfl

theorem WaitBase.suspend (h : WaitBase s) (hwho : (s.fproc who).suspended = false)
    (hfd : (s.fproc who).filp call.fd = some f) (hmode : (s.filp f).mode = call.rw)
    (hempty : call.rw = .reading → (s.inode (s.filp f).ino).size = 0) :
    WaitBase (suspend s who call) where
  saved p hp := by
    by_cases hpw : p = who
    · subst hpw
      rw [suspend_fproc_self]
      exact ⟨f, hfd, hmode⟩
    · rw [suspend_fproc_of_ne hpw] at hp ⊢
      exact h.saved p hp
  revived p hp := by
    by_cases hpw : p = who
    · rw [hpw, suspend_fproc_self]
    · rw [suspend_fproc_of_ne hpw] at hp ⊢
      exact h.revived p hp
  susp := by
    have hrev := h.not_revived hwho
    have hcount : waitCount (Fs.suspend s who call) = waitCount s + 1 := by
      refine countP_succ (List.nodup_finRange nrProcs) (List.mem_finRange who) ?_ ?_ fun p hp => ?_
      · rw [waits, suspend_fproc_self]
        simp [hrev]
      · simp [waits, hwho]
      · rw [waits, waits, suspend_fproc_of_ne hp]
    rw [hcount]
    show s.suspCount + 1 = _
    rw [h.susp]
    push_cast
    show _ = (waitCount s : ℤ) + 1 + (s.elsewhere : ℤ)
    ring
  reviving := by
    have hcount : revivedCount (Fs.suspend s who call) = revivedCount s := by
      refine List.countP_congr fun p _ => ?_
      by_cases hpw : p = who
      · rw [hpw, suspend_fproc_self]
      · rw [suspend_fproc_of_ne hpw]
    rw [hcount]
    exact h.reviving
  empty i p hp := by
    by_cases hpw : p = who
    · rw [hpw, hangsOn_suspend_self h hwho hfd] at hp
      simp only [Bool.and_eq_true, beq_iff_eq] at hp
      rw [← hp.2]
      exact hempty hp.1
    · rw [hangsOn_suspend_of_ne hpw] at hp
      exact h.empty i p hp

/-- **A reader of an empty pipe is suspended**, and the writers are awakened. -/
theorem WaitOk.suspendReader (h : WaitOk s) (hwho : (s.fproc who).suspended = false)
    (hfd : (s.fproc who).filp call.fd = some f) (hmode : (s.filp f).mode = call.rw)
    (hread : call.rw = .reading) (hempty : (s.inode (s.filp f).ino).size = 0) :
    WaitOk (Fs.releasedAll (Fs.suspend s who call) (s.filp f).ino .writing) where
  toWaitBase := (h.toWaitBase.suspend hwho hfd hmode fun _ => hempty).releasedAll _ _
  apart i p q hp := by
    rw [hangsOn_releasedAll, Bool.and_eq_true] at hp
    rw [hangsOn_releasedAll]
    by_cases hi : i = (s.filp f).ino
    · rw [hi]
      simp
    · -- on the other pipes nothing has changed
      have hpw : p ≠ who := fun heq => by
        rw [heq, hangsOn_suspend_self h.toWaitBase hwho hfd] at hp
        simp [Ne.symm hi] at hp
      rw [hangsOn_suspend_of_ne hpw] at hp
      have hq : Fs.hangsOn (Fs.suspend s who call) i .writing q = false := by
        by_cases hqw : q = who
        · rw [hqw, hangsOn_suspend_self h.toWaitBase hwho hfd, hread]
          rfl
        · rw [hangsOn_suspend_of_ne hqw]
          exact h.apart i p q hp.1
      rw [hq]
      rfl

/-- **A writer to a pipe that is too full is suspended**: there are no readers that hang. -/
theorem WaitOk.suspendWriter (h : WaitOk s) (hwho : (s.fproc who).suspended = false)
    (hfd : (s.fproc who).filp call.fd = some f) (hmode : (s.filp f).mode = call.rw)
    (hwrite : call.rw = .writing) (hfull : (s.inode (s.filp f).ino).size ≠ 0) :
    WaitOk (Fs.suspend s who call) where
  toWaitBase := h.toWaitBase.suspend hwho hfd hmode fun hread => by
    rw [hwrite] at hread
    exact absurd hread (by decide)
  apart i p q hp := by
    have hpw : p ≠ who := fun heq => by
      rw [heq, hangsOn_suspend_self h.toWaitBase hwho hfd, hwrite] at hp
      exact absurd hp (by simp)
    rw [hangsOn_suspend_of_ne hpw] at hp
    by_cases hqw : q = who
    · rw [hqw, hangsOn_suspend_self h.toWaitBase hwho hfd]
      have hi : (s.filp f).ino ≠ i := fun heq => hfull (by rw [heq]; exact h.empty i p hp)
      simp [hi]
    · rw [hangsOn_suspend_of_ne hqw]
      exact h.apart i p q hp

end Suspend

/-- Only the slot of `who` has changed, and `who` neither waits nor is being revived now. -/
structure Quiet (who : ProcNr) (s s' : FsState) : Prop where
  others : ∀ p, p ≠ who → s'.fproc p = s.fproc p
  self : (s'.fproc who).suspended = false ∧ (s'.fproc who).revived = false
  filp : s'.filp = s.filp
  inode : s'.inode = s.inode
  elsewhere : s'.elsewhere = s.elsewhere

theorem Quiet.hangsOn_self (h : Quiet who s s') (i : InodeNr) (rw : Rw) :
    hangsOn s' i rw who = false := by
  simp [hangsOn, h.self.1]

theorem Quiet.hangsOn_of_ne (h : Quiet who s s') (hp : p ≠ who) (i : InodeNr) (rw : Rw) :
    hangsOn s' i rw p = hangsOn s i rw p :=
  hangsOn_congr (h.others p hp) fun _ _ => by rw [h.filp]

theorem Quiet.hangsOn_of {i : InodeNr} {rw : Rw} (h : Quiet who s s')
    (hp : hangsOn s' i rw p = true) : hangsOn s i rw p = true := by
  by_cases hpw : p = who
  · rw [hpw, h.hangsOn_self] at hp
    exact absurd hp (by decide)
  · rwa [h.hangsOn_of_ne hpw] at hp

/-- A process is taken out of the bookkeeping, with the counters adjusted. -/
theorem WaitOk.of_quiet (hw : WaitOk s) (h : Quiet who s s')
    (hsusp : s'.suspCount = waitCount s' + s'.elsewhere) (hrev : s'.reviving = revivedCount s') :
    WaitOk s' where
  saved p hp := by
    have hpw : p ≠ who := fun heq => by
      rw [heq, h.self.1] at hp
      exact absurd hp (by decide)
    rw [h.others p hpw] at hp ⊢
    rw [h.filp]
    exact hw.saved p hp
  revived p hp := by
    have hpw : p ≠ who := fun heq => by
      rw [heq, h.self.2] at hp
      exact absurd hp (by decide)
    rw [h.others p hpw] at hp ⊢
    exact hw.revived p hp
  susp := hsusp
  reviving := hrev
  empty i p hp := by
    rw [h.inode]
    exact hw.empty i p (h.hangsOn_of hp)
  apart i p q hp := by
    cases hq : Fs.hangsOn s' i .writing q with
    | false => rfl
    | true =>
      have := hw.apart i p q (h.hangsOn_of hp)
      rw [h.hangsOn_of hq] at this
      exact absurd this (by decide)

/-- **`get_work` finds the process that is to be revived.** -/
theorem getRevived_some (hw : WaitOk s) (hr : s.reviving ≠ 0) :
    ∃ s' p, getRevived s = some (s', p, (s.fproc p).call) ∧ WaitOk s' ∧ Quiet p s s' ∧
      (s'.fproc p).filp = (s.fproc p).filp := by
  unfold getRevived
  cases hfind : (List.finRange nrProcs).find? fun p => (s.fproc p).revived with
  | none =>
    -- somebody is counted in `reviving`
    have hzero : revivedCount s = 0 := by
      refine List.countP_eq_zero.mpr fun p hp => ?_
      exact List.find?_eq_none.mp hfind p hp
    rw [hw.reviving, hzero] at hr
    exact absurd rfl hr
  | some p =>
    have hrev := List.find?_some hfind
    simp only
    set s' : FsState := { s.setProc p { s.fproc p with suspended := false, revived := false } with
      reviving := s.reviving - 1 } with hs'
    have hself : s'.fproc p = { s.fproc p with suspended := false, revived := false } := by
      simp [hs', FsState.setProc]
    have hother : ∀ q, q ≠ p → s'.fproc q = s.fproc q := by
      intro q hq
      simp [hs', FsState.setProc, hq]
    have hquiet : Quiet p s s' := ⟨hother, by rw [hself]; exact ⟨rfl, rfl⟩, rfl, rfl, rfl⟩
    have hwait : waitCount s' = waitCount s := by
      refine List.countP_congr fun q _ => ?_
      by_cases hq : q = p
      · rw [hq, waits, waits, hself]
        simp [hrev]
      · rw [waits, waits, hother q hq]
    have hcount : revivedCount s = revivedCount s' + 1 := by
      refine countP_succ (List.nodup_finRange nrProcs) (List.mem_finRange p) hrev ?_ fun q hq => ?_
      · rw [hself]
      · rw [hother q hq]
    refine ⟨s', p, rfl, hw.of_quiet hquiet ?_ ?_, hquiet, by rw [hself]⟩
    · rw [hwait]
      exact hw.susp
    · show s.reviving - 1 = _
      rw [hw.reviving, hcount]
      push_cast
      ring

end Invariant

end LisaMinix.Fs
