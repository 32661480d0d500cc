import LisaMinix.Fs.Fifo
import LisaMinix.Library.Counting

/-!
# The Counters of Suspended Processes

`susp_count` counts the processes that hang on a pipe or in the open of a FIFO, and `reviving`
those of them that are to try again.  They are adjusted in `suspend`, `release`, `revive`,
`do_exit` and `get_work`, and not in `do_unpause`.

The functions for pipes and FIFOs are those of `Fifo`; here are also `pipe(2)`, the processes that
hang on a device, and which slots of `fproc[]` are in use.

- `CountsOk`: the counters are right.
- `reached_counters`: they are right along every run in which no signal comes for a process that
  hangs in an open, and then `get_work` finds a process whenever `reviving` is not 0.
- `unpause_miscounts`: such a signal leaves `susp_count` one too high.
-/

namespace LisaMinix.Fs.Fifo.Suspension

open LisaMinix.Library Function
open LisaMinix.Mm (ProcNr nrProcs)

/-! ## §1 Counting -/

/-- Suspended on a pipe or in an open, and not being revived. -/
def waits (x : Proc) : Bool := x.suspended && !x.revived

def waitCount (s : State) : ℕ := (List.finRange nrProcs).countP fun p => waits (s.fproc p)

def revivedCount (s : State) : ℕ := (List.finRange nrProcs).countP fun p => (s.fproc p).revived

/-- A process is revived from a pipe only, to read or to write again. -/
structure ProcOk (x : Proc) : Prop where
  revived : x.revived = true → x.suspended = true ∧ x.task = .xpipe
  retries : x.suspended = true → x.task = .xpipe → (retried x.call.nr).isSome = true

/-- **The counters are right**, and nobody is suspended but the processes in use. -/
structure CountsOk (inUse : ProcNr → Bool) (s : State) : Prop where
  susp : s.suspCount = waitCount s
  reviving : s.reviving = revivedCount s
  procs : ∀ p, ProcOk (s.fproc p)
  used : ∀ p, (s.fproc p).suspended = true → inUse p = true

/-- A number of processes after one of them has changed. -/
theorem countP_update (f : Proc → Bool) (t : ProcNr → Proc) (p : ProcNr) (x : Proc) :
    (List.finRange nrProcs).countP (fun q => f (update t p x q)) + (f (t p)).toNat =
      (List.finRange nrProcs).countP (fun q => f (t q)) + (f x).toNat := by
  have hnodup := List.nodup_finRange nrProcs
  have hmem := List.mem_finRange p
  have hself : f (update t p x p) = f x := by rw [update_self]
  have hother : ∀ q, q ≠ p → f (update t p x q) = f (t q) := fun q hq => by
    rw [update_of_ne hq]
  cases hold : f (t p) with
  | false =>
    cases hnew : f x with
    | false =>
      have hsame : ∀ q, f (update t p x q) = f (t q) := by
        intro q
        by_cases hq : q = p
        · rw [hq, hself, hnew, hold]
        · exact hother q hq
      simp only [hsame]
    | true =>
      exact countP_succ hnodup hmem (hself.trans hnew) hold hother
  | true =>
    cases hnew : f x with
    | false =>
      have hsucc := countP_succ hnodup hmem hold (hself.trans hnew) fun q hq => (hother q hq).symm
      exact hsucc.symm
    | true =>
      have hsame : ∀ q, f (update t p x q) = f (t q) := by
        intro q
        by_cases hq : q = p
        · rw [hq, hself, hnew, hold]
        · exact hother q hq
      simp only [hsame]

section Frames

variable {inUse : ProcNr → Bool} {s s' : State} {p : ProcNr} {x : Proc}

/-- One process changes, and the counters follow. -/
theorem CountsOk.update (h : CountsOk inUse s) (hproc : s'.fproc = update s.fproc p x)
    (hx : ProcOk x) (hused : x.suspended = true → inUse p = true)
    (hsusp : s'.suspCount + (waits (s.fproc p)).toNat = s.suspCount + (waits x).toNat)
    (hrev : s'.reviving + (s.fproc p).revived.toNat = s.reviving + x.revived.toNat) :
    CountsOk inUse s' := by
  have hwait := countP_update waits s.fproc p x
  have hrevived := countP_update Proc.revived s.fproc p x
  refine ⟨?_, ?_, fun q => ?_, fun q => ?_⟩
  · have := h.susp
    unfold waitCount at this ⊢
    rw [hproc]
    omega
  · have := h.reviving
    unfold revivedCount at this ⊢
    rw [hproc]
    omega
  · rw [hproc]
    by_cases hq : q = p
    · rw [hq, update_self]
      exact hx
    · rw [update_of_ne hq]
      exact h.procs q
  · rw [hproc]
    by_cases hq : q = p
    · rw [hq, update_self]
      exact hused
    · rw [update_of_ne hq]
      exact h.used q

/-- What the counters are about. -/
def flags (x : Proc) : Bool × Bool × Task × CallNr := (x.suspended, x.revived, x.task, x.call.nr)

/-- Nobody is suspended or revived. -/
structure SameFlags (s s' : State) : Prop where
  procs : ∀ p, flags (s'.fproc p) = flags (s.fproc p)
  susp : s'.suspCount = s.suspCount
  reviving : s'.reviving = s.reviving

theorem SameFlags.refl (s : State) : SameFlags s s := ⟨fun _ => rfl, rfl, rfl⟩

theorem SameFlags.trans {s'' : State} (h : SameFlags s s') (h' : SameFlags s' s'') :
    SameFlags s s'' :=
  ⟨fun p => (h'.procs p).trans (h.procs p), h'.susp.trans h.susp, h'.reviving.trans h.reviving⟩

theorem SameFlags.suspended (h : SameFlags s s') (p : ProcNr) :
    (s'.fproc p).suspended = (s.fproc p).suspended := congrArg Prod.fst (h.procs p)

theorem SameFlags.revived (h : SameFlags s s') (p : ProcNr) :
    (s'.fproc p).revived = (s.fproc p).revived := congrArg (fun x => x.2.1) (h.procs p)

theorem SameFlags.task (h : SameFlags s s') (p : ProcNr) :
    (s'.fproc p).task = (s.fproc p).task := congrArg (fun x => x.2.2.1) (h.procs p)

theorem SameFlags.nr (h : SameFlags s s') (p : ProcNr) :
    (s'.fproc p).call.nr = (s.fproc p).call.nr := congrArg (fun x => x.2.2.2) (h.procs p)

theorem CountsOk.of_same (h : CountsOk inUse s) (hs : SameFlags s s') : CountsOk inUse s' := by
  refine ⟨?_, ?_, fun p => ⟨?_, ?_⟩, fun p => ?_⟩
  · have hsame : waitCount s' = waitCount s := by
      unfold waitCount waits
      simp only [hs.suspended, hs.revived]
    rw [hs.susp, h.susp, hsame]
  · have hsame : revivedCount s' = revivedCount s := by
      unfold revivedCount
      simp only [hs.revived]
    rw [hs.reviving, h.reviving, hsame]
  · rw [hs.revived, hs.suspended, hs.task]
    exact (h.procs p).revived
  · rw [hs.suspended, hs.task, hs.nr]
    exact (h.procs p).retries
  · rw [hs.suspended]
    exact h.used p

theorem sameFlags_reply (s : State) (whom : ProcNr) (r : ℤ) : SameFlags s (s.reply whom r) :=
  ⟨fun _ => rfl, rfl, rfl⟩

theorem sameFlags_setFilp (s : State) (f : FilpNr) (y : OpenFile) : SameFlags s (s.setFilp f y) :=
  ⟨fun _ => rfl, rfl, rfl⟩

theorem sameFlags_setNode (s : State) (i : InodeNr) (y : Node) : SameFlags s (s.setNode i y) :=
  ⟨fun _ => rfl, rfl, rfl⟩

theorem sameFlags_link (s : State) (who : ProcNr) (fd : Fd) (f : Option FilpNr) :
    SameFlags s (s.link who fd f) := by
  refine ⟨fun p => ?_, rfl, rfl⟩
  unfold State.link State.setProc
  dsimp only
  by_cases hp : p = who
  · rw [hp, update_self]
    rfl
  · rw [update_of_ne hp]

end Frames

/-! ## §2 Suspending and Releasing -/

section Release

variable {inUse : ProcNr → Bool} {s : State} {p who : ProcNr}

/-- **One process is released**: it is counted among those that are revived, or it is done. -/
theorem reviveOne_ok (h : CountsOk inUse s) (hwait : waits (s.fproc p) = true) :
    CountsOk inUse (reviveOne s p) := by
  have hparts : (s.fproc p).suspended = true ∧ (s.fproc p).revived = false := by
    unfold waits at hwait
    simpa using hwait
  unfold reviveOne
  dsimp only
  split
  · next htask =>
    refine h.update (p := p) (x := { s.fproc p with revived := true }) rfl ?_
      (h.used p) ?_ ?_
    · refine ⟨fun _ => ⟨hparts.1, htask⟩, fun _ => ?_⟩
      exact (h.procs p).retries hparts.1
    · rw [hwait]
      simp [waits, State.setProc]
    · rw [hparts.2]
      simp
  · refine h.update (p := p) (x := { s.fproc p with suspended := false }) rfl ?_
      (fun hsusp => by cases hsusp) ?_ ?_
    · refine ⟨fun hrev => ?_, fun hsusp => by cases hsusp⟩
      rw [hparts.2] at hrev
      cases hrev
    · rw [hwait]
      simp [waits, State.setProc, State.reply]
    · rw [hparts.2]
      simp [State.setProc, State.reply]

theorem waits_of_hangsOn {ip : InodeNr} {nr : CallNr} (h : hangsOn s ip nr p = true) :
    waits (s.fproc p) = true := by
  unfold hangsOn at h
  simp only [Bool.and_eq_true] at h
  unfold waits
  rw [h.1.1.1, h.1.1.2]
  rfl

theorem releaseLoop_ok (h : CountsOk inUse s) (ip : InodeNr) (nr : CallNr) (l : List ProcNr) (count : ℤ) :
    CountsOk inUse (releaseLoop ip nr l count s) := by
  induction l generalizing s count with
  | nil => exact h
  | cons p rest ih =>
    unfold releaseLoop
    split
    · next hhangs =>
      have hone := reviveOne_ok h (waits_of_hangsOn hhangs)
      split
      · exact hone
      · exact ih hone _
    · exact ih h _

theorem release_ok (h : CountsOk inUse s) (ip : InodeNr) (nr : CallNr) (count : ℤ) :
    CountsOk inUse (release s ip nr count) := releaseLoop_ok h ip nr _ count

/-- **A process is suspended** that was not. -/
theorem suspend_ok (h : CountsOk inUse s) {task : Task} {call : Call}
    (hwho : (s.fproc who).suspended = false) (huse : inUse who = true)
    (hretry : task = .xpipe → (retried call.nr).isSome = true) :
    CountsOk inUse (suspend s who task call) := by
  have hrev : (s.fproc who).revived = false := by
    cases hr : (s.fproc who).revived with
    | false => rfl
    | true =>
      have := ((h.procs who).revived hr).1
      rw [hwho] at this
      cases this
  refine h.update (p := who)
    (x := { s.fproc who with suspended := true, task := task, call := call }) rfl ?_
    (fun _ => huse) ?_ ?_
  · refine ⟨fun hr => ?_, fun _ => hretry⟩
    rw [hrev] at hr
    cases hr
  · simp [waits, hwho, hrev, suspend, State.setProc]
  · simp [hrev, suspend, State.setProc]

/-! ## §3 The Calls -/

theorem pipeCheckRead_ok (h : CountsOk inUse s) {call : Call} (hwho : (s.fproc who).suspended = false)
    (huse : inUse who = true) (hretry : (retried call.nr).isSome = true) (ip : InodeNr)
    (nonblock : Bool) (position : ℕ) :
    CountsOk inUse (pipeCheckRead s who call ip nonblock position).1 := by
  unfold pipeCheckRead
  split
  · exact h
  split
  · exact h
  · have hwoken : ∀ t : State, CountsOk inUse t →
        CountsOk inUse (if 0 < t.suspCount then release t ip .write t.suspCount else t) := by
      intro t ht
      split
      · exact release_ok ht ip _ _
      · exact ht
    dsimp only
    apply hwoken
    split
    · exact h
    · exact suspend_ok h hwho huse fun _ => hretry

theorem pipeCheckWrite_ok (h : CountsOk inUse s) {call : Call} (hwho : (s.fproc who).suspended = false)
    (huse : inUse who = true) (hretry : (retried call.nr).isSome = true) (ip : InodeNr)
    (nonblock : Bool) (position : ℕ) :
    CountsOk inUse (pipeCheckWrite s who call ip nonblock position).1 := by
  unfold pipeCheckWrite
  split
  · exact h
  split
  · exact h
  split
  · split
    · exact h
    · exact suspend_ok h hwho huse fun _ => hretry
  split
  · exact release_ok h ip _ _
  · exact h

theorem pipeCheck_ok (h : CountsOk inUse s) {call : Call} (hwho : (s.fproc who).suspended = false)
    (huse : inUse who = true) (hretry : (retried call.nr).isSome = true) (rw : Rw) (filp : OpenFile)
    (position : ℕ) :
    CountsOk inUse (pipeCheck s who rw call filp position).1 := by
  unfold pipeCheck
  split
  · cases rw with
    | reading => exact pipeCheckRead_ok h hwho huse hretry ..
    | writing => exact pipeCheckWrite_ok h hwho huse hretry ..
  · exact h

theorem finishRead_same (s : State) (f : FilpNr) (nbytes : ℕ) :
    SameFlags s (finishRead s f nbytes).1 := by
  unfold finishRead
  dsimp only
  split
  · dsimp only
    split
    · exact (sameFlags_setNode ..).trans (sameFlags_setFilp ..)
    · exact ((sameFlags_setNode ..).trans (sameFlags_setFilp ..)).trans (sameFlags_setFilp ..)
  · exact (sameFlags_setNode ..).trans (sameFlags_setFilp ..)

theorem readWrite_ok (h : CountsOk inUse s) (env : Env) {call : Call}
    (hwho : (s.fproc who).suspended = false) (huse : inUse who = true)
    (hretry : (retried call.nr).isSome = true) (rw : Rw) :
    CountsOk inUse (readWrite s env who rw call).1 := by
  unfold readWrite
  split
  · exact h
  split
  · exact h
  next f _ =>
  dsimp only
  split
  · exact h
  split
  · exact h
  split
  · exact h
  have hcheck := pipeCheck_ok h hwho huse hretry rw (s.filp f) (startPos s f rw)
  split
  · next t hpc =>
    rw [hpc] at hcheck
    exact hcheck
  · next t r hpc =>
    rw [hpc] at hcheck
    exact hcheck
  · next t hpc =>
    rw [hpc] at hcheck
    cases rw with
    | reading => exact hcheck.of_same (finishRead_same ..)
    | writing => exact hcheck.of_same ((sameFlags_setNode ..).trans (sameFlags_setFilp ..))

theorem putInode_same (s : State) (ip : InodeNr) : SameFlags s (putInode s ip) := by
  unfold putInode
  dsimp only
  split
  · exact sameFlags_setNode ..
  · exact sameFlags_setNode ..

theorem pipeOpen_ok (h : CountsOk inUse s) (hwho : (s.fproc who).suspended = false)
    (huse : inUse who = true) (ip : InodeNr)
    (call : OpenCall) (fd : Fd) : CountsOk inUse (pipeOpen s who ip call fd).1 := by
  unfold pipeOpen
  dsimp only
  split
  · split
    · exact h
    · have hsusp := @suspend_ok inUse s who h .xopen ⟨call.nr, fd, 0, fun _ => 0⟩ hwho huse
        fun hx => by cases hx
      exact hsusp.of_same (sameFlags_setNode ..)
  · have hwoken : CountsOk inUse (wakeOpeners s ip) := by
      unfold wakeOpeners
      split
      · exact release_ok (release_ok h ip _ _) ip _ _
      · exact h
    exact hwoken.of_same (sameFlags_setNode ..)

theorem commonOpen_ok (h : CountsOk inUse s) (hwho : (s.fproc who).suspended = false)
    (huse : inUse who = true) (call : OpenCall) :
    CountsOk inUse (commonOpen s who call).1 := by
  unfold commonOpen
  split
  · exact h
  next fd f _ =>
  dsimp only
  have hslot := h.of_same (sameFlags_setFilp s f
    { s.filp f with mode := call.bits, pos := 0, nonblock := false, append := false })
  split
  · exact hslot
  next ip _ =>
  have hgot := hslot.of_same (sameFlags_setNode _ ip _ : SameFlags _ (getInode _ ip))
  split
  · exact hgot.of_same (putInode_same ..)
  · have hopen := pipeOpen_ok hgot hwho huse ip call fd
    split
    · exact hopen.of_same (putInode_same ..)
    · exact hopen.of_same ((sameFlags_link ..).trans (sameFlags_setFilp ..))

theorem dropFd_same (s : State) (who : ProcNr) (fd : Fd) (f : FilpNr) :
    SameFlags s (dropFd s who fd f) := by
  unfold dropFd
  dsimp only
  have hcount : ∀ t : State, SameFlags t (if (t.filp f).count = 0 then putInode t (s.filp f).ino
      else t) := by
    intro t
    split
    · exact putInode_same ..
    · exact SameFlags.refl t
  exact ((sameFlags_setFilp ..).trans (hcount _)).trans (sameFlags_link ..)

theorem doClose_ok (h : CountsOk inUse s) (who : ProcNr) (fd : Fd) : CountsOk inUse (doClose s who fd).1 := by
  unfold doClose
  split
  · exact h
  next f _ =>
  dsimp only
  split
  · exact (release_ok h _ _ _).of_same (dropFd_same ..)
  · exact h.of_same (dropFd_same ..)

theorem doDup_ok (h : CountsOk inUse s) (who : ProcNr) (fd : Fd) (fd2 : Option Fd) :
    CountsOk inUse (doDup s who fd fd2).1 := by
  unfold doDup
  split
  · exact h
  next f _ =>
  dsimp only
  have hshare : ∀ (t : State) (fd2 : Fd), CountsOk inUse t → CountsOk inUse
      ((t.setFilp f { t.filp f with count := (t.filp f).count + 1 }).link who fd2 (some f)) :=
    fun t fd2 ht => ht.of_same ((sameFlags_setFilp ..).trans (sameFlags_link ..))
  split
  · split
    · exact h
    · exact hshare _ _ h
  · split
    · exact h
    · exact hshare _ _ (doClose_ok h who _)

theorem foldl_countFilp_same (child : Proc) (l : List Fd) (s : State) :
    SameFlags s (l.foldl (countFilp child) s) := by
  induction l generalizing s with
  | nil => exact SameFlags.refl s
  | cons fd l ih =>
    rw [List.foldl_cons]
    apply SameFlags.trans _ (ih _)
    unfold countFilp
    split
    · exact SameFlags.refl s
    · exact sameFlags_setFilp ..

/-- **A child is not suspended**, since its parent is not. -/
theorem doFork_ok (h : CountsOk inUse s) {child : ProcNr} (hwho : (s.fproc who).suspended = false)
    (hchild : (s.fproc child).suspended = false) : CountsOk inUse (doFork s who child) := by
  have hrev : ∀ q, (s.fproc q).suspended = false → (s.fproc q).revived = false := by
    intro q hq
    cases hr : (s.fproc q).revived with
    | false => rfl
    | true =>
      have := ((h.procs q).revived hr).1
      rw [hq] at this
      cases this
  unfold doFork
  dsimp only
  have hset : CountsOk inUse (s.setProc child (s.fproc who)) := by
    refine h.update (p := child) (x := s.fproc who) rfl (h.procs who)
      (fun hsusp => by rw [hwho] at hsusp; cases hsusp) ?_ ?_
    · simp [waits, hwho, hchild, State.setProc]
    · simp [hrev who hwho, hrev child hchild, State.setProc]
  exact hset.of_same (foldl_countFilp_same ..)

theorem foldl_doClose_ok (h : CountsOk inUse s) (who : ProcNr) (l : List Fd) :
    CountsOk inUse (l.foldl (fun s fd => (doClose s who fd).1) s) := by
  induction l generalizing s with
  | nil => exact h
  | cons fd l ih =>
    rw [List.foldl_cons]
    exact ih (doClose_ok h who fd)

/-- A process that is not suspended may be gone. -/
theorem CountsOk.unused (h : CountsOk inUse s) (hp : (s.fproc p).suspended = false) :
    CountsOk (Function.update inUse p false) s where
  susp := h.susp
  reviving := h.reviving
  procs := h.procs
  used q hq := by
    by_cases hqp : q = p
    · rw [hqp, hp] at hq
      cases hq
    · rw [update_of_ne hqp]
      exact h.used q hq

/-- **A process that exits is no longer counted**; nobody is being revived at that time. -/
theorem doExit_ok (h : CountsOk inUse s) (hnone : (s.fproc who).revived = false) :
    CountsOk (update inUse who false) (doExit s who) := by
  unfold doExit
  dsimp only
  apply foldl_doClose_ok
  split
  · next hsusp =>
    -- whatever `do_unpause` does to the process, it is no longer suspended in the end
    have hdone : ∀ u : State,
        u.fproc = update s.fproc who { s.fproc who with suspended := false } →
        u.suspCount = s.suspCount - 1 → u.reviving = s.reviving →
          CountsOk (update inUse who false) u := by
      intro u hproc hcount hrev
      apply CountsOk.unused
      · refine h.update hproc ⟨?_, ?_⟩ ?_ ?_ ?_
        · rw [hnone]
          exact fun h' => by cases h'
        · exact fun h' => by cases h'
        · exact fun h' => by cases h'
        · rw [hcount]
          simp [waits, hsusp, hnone]
        · rw [hrev]
      · rw [hproc, update_self]
    unfold doUnpause
    dsimp only
    split
    · refine hdone _ ?_ rfl rfl
      simp [State.setProc, State.reply]
    · exact hdone _ rfl rfl rfl
  · next hsusp =>
    apply h.unused
    simpa using hsusp

theorem doUnpause_ok (h : CountsOk inUse s) (hsafe : ¬ ((s.fproc who).suspended = true ∧
    (s.fproc who).task = .xopen)) : CountsOk inUse (doUnpause s who) := by
  unfold doUnpause
  dsimp only
  rw [if_neg]
  · exact h
  · intro hc
    rw [Bool.and_eq_true, beq_iff_eq] at hc
    exact hsafe hc

/-- **`get_work` finds somebody** when `reviving` is not 0, and counts it off. -/
theorem getRevived_ok (h : CountsOk inUse s) (hrev : s.reviving ≠ 0) :
    ∃ s' p rw, getRevived s = some (s', p) ∧ retried (s'.fproc p).call.nr = some rw ∧
      (s'.fproc p).suspended = false ∧ inUse p = true ∧ CountsOk inUse s' := by
  unfold getRevived
  cases hfind : (List.finRange nrProcs).find? fun p => (s.fproc p).revived with
  | none =>
    have hzero : revivedCount s = 0 := by
      unfold revivedCount
      rw [List.countP_eq_zero]
      exact fun p hp => List.find?_eq_none.mp hfind p hp
    have := h.reviving
    rw [hzero] at this
    exact absurd this hrev
  | some p =>
    have hp : (s.fproc p).revived = true := by
      have := List.find?_some hfind
      exact this
    obtain ⟨hsusp, htask⟩ := (h.procs p).revived hp
    obtain ⟨rw, hrw⟩ := Option.isSome_iff_exists.mp ((h.procs p).retries hsusp htask)
    refine ⟨_, p, rw, rfl, ?_, ?_, h.used p hsusp, ?_⟩
    · simpa [State.setProc] using hrw
    · simp [State.setProc]
    · refine h.update (p := p) (x := { s.fproc p with suspended := false, revived := false })
        rfl ⟨?_, ?_⟩ ?_ ?_ ?_
      · exact fun h' => by cases h'
      · exact fun h' => by cases h'
      · exact fun h' => by cases h'
      · simp [waits, hsusp, hp, State.setProc]
      · simp [hp]

end Release

/-! ## §4 The Server -/

/-- FS with the processes that hang on a device, for which `fp_task` is neither XPIPE nor XOPEN,
    and the slots that MM uses. -/
structure Server where
  fs : State
  onDevice : ProcNr → Bool
  inUse : ProcNr → Bool

/-- `get_fd`, and the claim of the slot by `do_pipe`. -/
def claimEnd (s : State) (who : ProcNr) (mode : Mode) : Except ℤ (State × Fd × FilpNr) :=
  match getFd s who with
  | .error e => .error e
  | .ok (fd, f) =>
    .ok ((s.setFilp f { s.filp f with
      mode := mode, pos := 0, nonblock := false, append := false, count := 1 }).link who fd (some f),
      fd, f)

/-- Give up a descriptor that `do_pipe` has claimed. -/
def giveUp (s : State) (who : ProcNr) (fd : Fd) (f : FilpNr) : State :=
  (s.link who fd none).setFilp f { s.filp f with count := 0 }

/-- `do_pipe()`. -/
def doPipe (s : State) (env : Env) (who : ProcNr) : State × ℤ :=
  match claimEnd s who ⟨true, false⟩ with
  | .error e => (s, e)
  | .ok (s, fd0, f0) =>
    match claimEnd s who ⟨false, true⟩ with
    | .error e => (giveUp s who fd0 f0, e)
    | .ok (s, fd1, f1) =>
      match env.newInode with
      | .error e => (giveUp (giveUp s who fd0 f0) who fd1 f1, e)
      | .ok ip =>
        let s := s.setNode ip { Node.fresh with count := 2, isPipe := true }
        let s := s.setFilp f0 { s.filp f0 with ino := ip }
        (s.setFilp f1 { s.filp f1 with ino := ip }, ok)

/-- A request to FS. -/
inductive Message
  | fifo (r : Request)
  | pipe
  /-- a call that the task of a device answers with SUSPEND -/
  | device
  /-- REVIVE, from a task, for the process -/
  | revive (bytes : ℤ)

namespace Server

/-- `revive(proc_nr, bytes)` as `do_revive` calls it. -/
def revive (v : Server) (p : ProcNr) (bytes : ℤ) : Server :=
  let rfp := v.fs.fproc p
  if v.onDevice p then
    { v with onDevice := update v.onDevice p false, fs := v.fs.reply p bytes }
  else if !rfp.suspended || rfp.revived then v
  else match rfp.task with
  | .xpipe =>
    { v with fs := { v.fs.setProc p { rfp with revived := true } with
      reviving := v.fs.reviving + 1 } }
  | .xopen => { v with fs := (v.fs.setProc p { rfp with suspended := false }).reply p rfp.call.fd.val }

/-- `do_unpause()`: a call that hangs on a device is cancelled. -/
def unpause (v : Server) (p : ProcNr) : Server :=
  if v.onDevice p then
    { v with onDevice := update v.onDevice p false, fs := v.fs.reply p eintr }
  else { v with fs := doUnpause v.fs p }

/-- `do_exit()`. -/
def exit (v : Server) (p : ProcNr) : Server :=
  let v := if v.onDevice p then v.unpause p else v
  { v with fs := doExit v.fs p, inUse := update v.inUse p false }

/-- One turn of the main loop, for a message that was received. -/
def handle (v : Server) (env : Env) (who : ProcNr) : Message → Server
  | .fifo .exit => v.exit who
  | .fifo .unpause => v.unpause who
  | .fifo (.fork child) =>
    { fs := doFork v.fs who child
      onDevice := update v.onDevice child (v.onDevice who)
      inUse := update v.inUse child true }
  | .fifo r => { v with fs := Fifo.handle v.fs env who r }
  | .pipe => { v with fs := (doPipe v.fs env who).1.reply who (doPipe v.fs env who).2 }
  | .device => { v with onDevice := update v.onDevice who true }
  | .revive bytes => v.revive who bytes

/-- A process makes a call when it hangs on nothing; MM speaks of processes in use and forks into
    a slot that is not. -/
def May (v : Server) (who : ProcNr) : Message → Prop
  | .fifo .exit | .fifo .unpause | .revive _ => v.inUse who = true
  | .fifo (.fork child) => v.inUse who = true ∧ (v.fs.fproc who).suspended = false ∧
      v.onDevice who = false ∧ v.inUse child = false
  | _ => v.inUse who = true ∧ (v.fs.fproc who).suspended = false ∧ v.onDevice who = false

/-- The condition under which a request keeps the counters right: no signal for a process that
    hangs in an open, and no REVIVE for one that hangs on a pipe or in an open. -/
def Safe (v : Server) (who : ProcNr) : Message → Prop
  | .fifo .unpause => ¬ ((v.fs.fproc who).suspended = true ∧ (v.fs.fproc who).task = .xopen)
  | .revive _ => (v.fs.fproc who).suspended = false
  | _ => True

/-- The tables before the first call; MM, FS and INIT are there. -/
def start (fs : State) : Server := ⟨fs, fun _ => false, fun p => decide (p.val < 3)⟩

end Server

/-- Nobody has opened anything. -/
def emptyTables : State where
  fproc _ := ⟨fun _ => none, false, false, .xpipe, ⟨.read, ⟨0, openMax_pos⟩, 0, fun _ => 0⟩⟩
  filp _ := ⟨⟨false, false⟩, false, false, 0, ⟨0, nrInodes_pos⟩, 0⟩
  inode _ := ⟨⟨0, 0, fun _ => 0, [], []⟩, false, 0⟩
  suspCount := 0
  reviving := 0
  replies := []

/-- The states reached by turns of the main loop: as long as `reviving` is not 0 a process is
    revived, and otherwise a message is received. -/
inductive Reached (safe : Server → ProcNr → Message → Prop) : Server → Prop
  | start : Reached safe (Server.start emptyTables)
  | request {v env who r} : Reached safe v → v.fs.reviving = 0 → v.May who r → safe v who r →
      Reached safe (v.handle env who r)
  | revive {v env fs p rw} : Reached safe v → v.fs.reviving ≠ 0 →
      getRevived v.fs = some (fs, p) → retried (fs.fproc p).call.nr = some rw →
      Reached safe { v with fs := answer p (readWrite fs env p rw (fs.fproc p).call) }

section Runs

variable {v : Server} {who : ProcNr}

theorem claimEnd_same {s s' : State} {mode : Mode} {fd : Fd} {f : FilpNr}
    (h : claimEnd s who mode = .ok (s', fd, f)) : SameFlags s s' := by
  unfold claimEnd at h
  split at h
  · cases h
  · cases h
    exact (sameFlags_setFilp ..).trans (sameFlags_link ..)

theorem giveUp_same (s : State) (who : ProcNr) (fd : Fd) (f : FilpNr) :
    SameFlags s (giveUp s who fd f) := (sameFlags_link ..).trans (sameFlags_setFilp ..)

theorem doPipe_same (s : State) (env : Env) (who : ProcNr) : SameFlags s (doPipe s env who).1 := by
  unfold doPipe
  split
  · exact SameFlags.refl s
  next s₁ fd0 f0 h0 =>
  have hfirst := claimEnd_same h0
  split
  · exact hfirst.trans (giveUp_same ..)
  next s₂ fd1 f1 h1 =>
  have hboth := hfirst.trans (claimEnd_same h1)
  split
  · exact (hboth.trans (giveUp_same ..)).trans (giveUp_same ..)
  · exact ((hboth.trans (sameFlags_setNode ..)).trans (sameFlags_setFilp ..)).trans
      (sameFlags_setFilp ..)

theorem CountsOk.answer {inUse : ProcNr → Bool} {r : State × Option ℤ} (h : CountsOk inUse r.1)
    (whom : ProcNr) : CountsOk inUse (answer whom r) := by
  unfold Fifo.answer
  split
  · exact h
  · exact h.of_same (sameFlags_reply ..)

/-- More processes may be in use. -/
theorem CountsOk.mono {inUse inUse' : ProcNr → Bool} {s : State} (h : CountsOk inUse s)
    (hle : ∀ p, inUse p = true → inUse' p = true) : CountsOk inUse' s :=
  ⟨h.susp, h.reviving, h.procs, fun p hp => hle p (h.used p hp)⟩

/-- **One request keeps the counters right.** -/
theorem handle_countsOk (h : CountsOk v.inUse v.fs) (hrev : v.fs.reviving = 0) (env : Env)
    {r : Message} (hmay : v.May who r) (hsafe : v.Safe who r) :
    CountsOk (v.handle env who r).inUse (v.handle env who r).fs := by
  have hnone : ∀ p, (v.fs.fproc p).revived = false := by
    have hcount := h.reviving
    rw [hrev] at hcount
    have hzero : revivedCount v.fs = 0 := by omega
    unfold revivedCount at hzero
    rw [List.countP_eq_zero] at hzero
    intro p
    simpa using hzero p (List.mem_finRange p)
  cases r with
  | fifo r =>
    cases r with
    | «open» call => exact (commonOpen_ok h hmay.2.1 hmay.1 call).answer who
    | io rw fd nbytes buffer =>
      refine (readWrite_ok h env hmay.2.1 hmay.1 ?_ rw).answer who
      cases rw <;> rfl
    | close fd => exact (doClose_ok h who fd).of_same (sameFlags_reply ..)
    | dup fd fd2 => exact (doDup_ok h who fd fd2).of_same (sameFlags_reply ..)
    | fork child =>
      have hchild : (v.fs.fproc child).suspended = false := by
        cases hs : (v.fs.fproc child).suspended with
        | false => rfl
        | true =>
          have := h.used child hs
          rw [hmay.2.2.2] at this
          cases this
      apply (doFork_ok h hmay.2.1 hchild).mono
      intro p hp
      unfold Server.handle
      dsimp only
      rw [update_apply]
      split
      · rfl
      · exact hp
    | exit =>
      unfold Server.handle Server.exit
      dsimp only
      split
      · unfold Server.unpause
        next hdev =>
        rw [if_pos hdev]
        have hreply := h.of_same (sameFlags_reply v.fs who eintr)
        exact doExit_ok hreply (hnone who)
      · exact doExit_ok h (hnone who)
    | unpause =>
      unfold Server.handle Server.unpause
      dsimp only
      split
      · exact h.of_same (sameFlags_reply ..)
      · exact doUnpause_ok h hsafe
  | pipe => exact (h.of_same (doPipe_same ..)).of_same (sameFlags_reply ..)
  | device => exact h
  | revive bytes =>
    have hsusp : (v.fs.fproc who).suspended = false := hsafe
    unfold Server.handle Server.revive
    dsimp only
    split
    · exact h.of_same (sameFlags_reply ..)
    · rw [if_pos (by rw [hsusp]; rfl)]
      exact h

theorem emptyTables_ok (inUse : ProcNr → Bool) : CountsOk inUse emptyTables := by
  refine ⟨?_, ?_, fun _ => ⟨?_, ?_⟩, fun _ h => by cases h⟩
  · have : waitCount emptyTables = 0 := List.countP_eq_zero.mpr fun _ _ h => by cases h
    rw [this]
    rfl
  · have : revivedCount emptyTables = 0 := List.countP_eq_zero.mpr fun _ _ h => by cases h
    rw [this]
    rfl
  · exact fun h => by cases h
  · exact fun h => by cases h

theorem Reached.countsOk (h : Reached Server.Safe v) : CountsOk v.inUse v.fs := by
  induction h with
  | start => exact emptyTables_ok _
  | request _ hrev hmay hsafe ih => exact handle_countsOk ih hrev _ hmay hsafe
  | @revive v env fs p rw _ hrev hget hretry ih =>
    obtain ⟨fs', p', rw', hget', -, hsusp, hused, hok⟩ := getRevived_ok ih hrev
    rw [hget] at hget'
    cases hget'
    exact (readWrite_ok hok env hsusp hused (by rw [hretry]; rfl) rw).answer p

/-- What the counters promise: they count what they are said to count, and `get_work` finds a
    process with a call to be tried again. -/
structure Counters (v : Server) : Prop where
  susp : v.fs.suspCount = waitCount v.fs
  reviving : v.fs.reviving = revivedCount v.fs
  found : v.fs.reviving ≠ 0 →
    ∃ fs p rw, getRevived v.fs = some (fs, p) ∧ retried (fs.fproc p).call.nr = some rw

/-- **The counters are right along every run** whose requests meet `Server.Safe`, and the panic of
    `get_work` is not reached. -/
theorem reached_counters (h : Reached Server.Safe v) : Counters v := by
  have hok := h.countsOk
  refine ⟨hok.susp, hok.reviving, fun hrev => ?_⟩
  obtain ⟨fs, p, rw, hget, hretry, -⟩ := getRevived_ok hok hrev
  exact ⟨fs, p, rw, hget, hretry⟩

end Runs

section Example

instance (v : Server) (who : ProcNr) : (r : Message) → Decidable (v.May who r)
  | .fifo .exit => inferInstanceAs (Decidable (_ = _))
  | .fifo .unpause => inferInstanceAs (Decidable (_ = _))
  | .fifo (.fork _) => inferInstanceAs (Decidable (_ ∧ _ ∧ _ ∧ _))
  | .fifo (.open _) => inferInstanceAs (Decidable (_ ∧ _ ∧ _))
  | .fifo (.io _ _ _ _) => inferInstanceAs (Decidable (_ ∧ _ ∧ _))
  | .fifo (.close _) => inferInstanceAs (Decidable (_ ∧ _ ∧ _))
  | .fifo (.dup _ _) => inferInstanceAs (Decidable (_ ∧ _ ∧ _))
  | .pipe => inferInstanceAs (Decidable (_ ∧ _ ∧ _))
  | .device => inferInstanceAs (Decidable (_ ∧ _ ∧ _))
  | .revive _ => inferInstanceAs (Decidable (_ = _))

/-- A device with room. -/
def bigDevice : Env := ⟨1000000, 100, -28, .error enfile⟩

/-- Some requests, one after the other. -/
def play : List (ProcNr × Message) → Server → Option Server
  | [], v => some v
  | (who, r) :: rs, v =>
    if v.fs.reviving = 0 ∧ v.May who r then play rs (v.handle bigDevice who r) else none

theorem Reached.play {safe : Server → ProcNr → Message → Prop} {rs : List (ProcNr × Message)}
    (hsafe : ∀ v x, x ∈ rs → safe v x.1 x.2) {v v' : Server} (h : Reached safe v)
    (hplay : play rs v = some v') : Reached safe v' := by
  induction rs generalizing v with
  | nil =>
    cases hplay
    exact h
  | cons x rs ih =>
    obtain ⟨who, r⟩ := x
    unfold Suspension.play at hplay
    split at hplay
    · next hask =>
      exact ih (fun v x hx => hsafe v x (List.mem_cons_of_mem _ hx))
        (.request h hask.1 hask.2 (hsafe v (who, r) List.mem_cons_self)) hplay
    · cases hplay

/-- A run from the start, and something that is computed from the state it reaches. -/
theorem exists_reached {α : Type} {safe : Server → ProcNr → Message → Prop}
    (rs : List (ProcNr × Message)) (hsafe : ∀ v x, x ∈ rs → safe v x.1 x.2) (f : Server → α) (a : α)
    (h : (play rs (Server.start emptyTables)).map f = some a) : ∃ v, Reached safe v ∧ f v = a := by
  obtain ⟨v, hplay, hf⟩ := Option.map_eq_some_iff.mp h
  exact ⟨v, Reached.start.play hsafe hplay, hf⟩

/-- Open the FIFO in inode slot 0 for one end. -/
def openFifo (bits : Mode) : Message :=
  .fifo (.open ⟨.openCall, bits, false, false, .ok ⟨0, nrInodes_pos⟩, ok⟩)

/-- Process 3 hangs in an open until process 4 opens the other end; then it hangs on the empty
    FIFO until 4 writes, and is to be revived. -/
theorem reached_counters_pair : ∃ v, Reached Server.Safe v ∧
    (v.fs.suspCount, v.fs.reviving, waitCount v.fs, revivedCount v.fs) = (0, 1, 0, 1) ∧
    Counters v := by
  obtain ⟨v, hr, hv⟩ := @exists_reached _ Server.Safe
    [(2, .fifo (.fork 3)), (2, .fifo (.fork 4)), (3, openFifo ⟨true, false⟩),
      (4, openFifo ⟨false, true⟩), (3, .fifo (.io .reading 0 10 fun _ => 0)),
      (4, .fifo (.io .writing 0 2 fun _ => 1))] (by simp [Server.Safe, openFifo])
    (fun v => (v.fs.suspCount, v.fs.reviving, waitCount v.fs, revivedCount v.fs)) (0, 1, 0, 1)
    (by decide +kernel)
  exact ⟨v, hr, hv, reached_counters hr⟩

/-- **A signal makes `susp_count` wrong**: process 3 hangs in the open of a FIFO, and a signal
    ends the open.  Nobody hangs on anything any more, but one process is counted. -/
theorem unpause_miscounts : ∃ v, Reached (fun _ _ _ => True) v ∧
    v.fs.suspCount = 1 ∧ waitCount v.fs = 0 ∧ ¬ Counters v := by
  obtain ⟨v, hr, hv⟩ := @exists_reached _ (fun _ _ _ => True)
    [(2, .fifo (.fork 3)), (3, openFifo ⟨true, false⟩), (3, .fifo .unpause)]
    (fun _ _ _ => trivial) (fun v => (v.fs.suspCount, waitCount v.fs)) (1, 0) (by decide +kernel)
  obtain ⟨hsusp, hwait⟩ := Prod.mk.inj hv
  refine ⟨v, hr, hsusp, hwait, fun h => ?_⟩
  have := h.susp
  rw [hsusp, hwait] at this
  cases this

end Example

end LisaMinix.Fs.Fifo.Suspension
