import LisaMinix.Fs.Server.Main

/-!
# Interrupted Calls

A process that hangs in FS on a pipe, in the open of a FIFO or on a terminal is sent a signal: MM
tells FS to `UNPAUSE` it.

- `Hung`: the three kinds of calls that hang.
- `Undone`: what an interrupted call should leave behind, which is nothing but `EINTR`.
- `unpause_undone_iff`: only calls on terminals are undone.  A process on a pipe goes on hanging, and
  an open of a FIFO is still counted.
-/

namespace LisaMinix.Fs.Server

open LisaMinix.Library Function

variable {p : ProcId} {s s' : FsState}

/-! ## §1 What a Call Leaves Behind -/

/-- The replies to a process, the last one first. -/
def repliesTo (p : ProcId) (s : FsState) : List ℤ :=
  (s.g.replies.filter fun r => r.1 = (p.val : ℤ)).map Prod.snd

/-- The descriptors of the process, the filps, the references to inodes and what is in pipes are the
    same. -/
structure SameTables (p : ProcId) (s s' : FsState) : Prop where
  filp : (s'.fprocs p).filp = (s.fprocs p).filp
  filps : s'.filps = s.filps
  count : ∀ i, (s'.inodes i).count = (s.inodes i).count
  pipes : ∀ i, (s'.inodes i).pipe = (s.inodes i).pipe ∧ (s'.inodes i).size = (s.inodes i).size
  blocks : s'.cache.buf = s.cache.buf ∧ s'.cache.disk = s.cache.disk

theorem SameTables.trans {s'' : FsState} (h : SameTables p s s') (h' : SameTables p s' s'') :
    SameTables p s s'' where
  filp := h'.filp.trans h.filp
  filps := h'.filps.trans h.filps
  count i := (h'.count i).trans (h.count i)
  pipes i := ⟨(h'.pipes i).1.trans (h.pipes i).1, (h'.pipes i).2.trans (h.pipes i).2⟩
  blocks := ⟨h'.blocks.1.trans h.blocks.1, h'.blocks.2.trans h.blocks.2⟩

theorem SameTables.of_inode (p : ProcId) (s : FsState) (rip : InodeId) (x : Inode)
    (hcount : x.count = (s.inodes rip).count) (hpipe : x.pipe = (s.inodes rip).pipe)
    (hsize : x.size = (s.inodes rip).size) :
    SameTables p s { s with inodes := update s.inodes rip x } where
  filp := rfl
  filps := rfl
  count i := by
    rcases eq_or_ne i rip with rfl | hi
    · simp only [update_self, hcount]
    · simp only [update_of_ne hi]
  pipes i := by
    rcases eq_or_ne i rip with rfl | hi
    · simp only [update_self, hpipe, hsize, and_self]
    · simp only [update_of_ne hi, and_self]
  blocks := ⟨rfl, rfl⟩

/-- `fp_task` of a process that is counted in `susp_count`. -/
def counted (x : Fproc) : Bool := -x.task = xpipe ∨ -x.task = xopen

/-- What hangs in FS: a read or write on a pipe, the open of a FIFO, or a read or write on a
    terminal. -/
inductive Kind
  | pipe
  | fifo
  | terminal
  deriving DecidableEq

/-- The descriptor that `read_write` uses. -/
def descriptor (g : Globals) : ℤ := if g.who = mmProcNr ∧ g.fd / 256 ≠ 0 then g.fd % 64 else g.fd

/-- The descriptor is one for a character special file. -/
def OnTerminal (s : FsState) : Prop :=
  ∀ f rip, (s.fprocs s.g.fp).filp (descriptor s.g).toNat = some f → (s.filps f).ino = some rip →
    (s.inodes rip).type = iCharSpecial ∧ (s.inodes rip).pipe = false

/-- The call of a process that was awake ended with the process suspended. -/
structure Hung (k : Kind) (p : ProcId) (s s' : FsState) : Prop where
  caller : s.g.fp = p
  awake : (s.fprocs p).suspended = false
  hangs : (s'.fprocs p).suspended = true
  call : match k with
    | .pipe => ∃ rw r, readWrite rw s = (.ok r, s') ∧ -(s'.fprocs p).task = xpipe
    | .fifo => ∃ oflags omode r, commonOpen oflags omode s = (.ok r, s') ∧ -(s'.fprocs p).task = xopen
    | .terminal => ∃ rw r, readWrite rw s = (.ok r, s') ∧ OnTerminal s

/-- An interrupted call is undone: `s₀` is the state before the call, `s₁` the one after it, `s₂` the
    one before the signal and `s₃` the one after it. -/
structure Undone (p : ProcId) (s₀ s₁ s₂ s₃ : FsState) : Prop where
  awake : (s₃.fprocs p).suspended = false
  silent : repliesTo p s₁ = repliesTo p s₀
  reply : repliesTo p s₃ = EINTR :: repliesTo p s₂
  counter : s₃.g.suspCount = s₂.g.suspCount - if counted (s₂.fprocs p) then 1 else 0
  call : SameTables p s₀ s₁
  signal : SameTables p s₂ s₃

/-! ## §2 Processes That a Task Revives -/

/-- Other processes may have been revived. -/
structure Stirs (p : ProcId) (s s' : FsState) : Prop where
  proc : s'.fprocs p = s.fprocs p
  filps : s'.filps = s.filps
  inodes : s'.inodes = s.inodes
  cache : s'.cache = s.cache
  globals : s'.g = { s.g with reviving := s'.g.reviving, replies := s'.g.replies }
  replies : repliesTo p s' = repliesTo p s

theorem Stirs.refl (p : ProcId) (s : FsState) : Stirs p s s := ⟨rfl, rfl, rfl, rfl, rfl, rfl⟩

theorem Stirs.trans {s'' : FsState} (h : Stirs p s s') (h' : Stirs p s' s'') : Stirs p s s'' where
  proc := h'.proc.trans h.proc
  filps := h'.filps.trans h.filps
  inodes := h'.inodes.trans h.inodes
  cache := h'.cache.trans h.cache
  globals := by rw [h'.globals, h.globals]
  replies := h'.replies.trans h.replies

theorem Stirs.tables (h : Stirs p s s') : SameTables p s s' where
  filp := by rw [h.proc]
  filps := h.filps
  count i := by rw [h.inodes]
  pipes i := by rw [h.inodes]; exact ⟨rfl, rfl⟩
  blocks := by rw [h.cache]; exact ⟨rfl, rfl⟩

theorem repliesTo_reply_of_ne {whom result : ℤ} (h : whom ≠ p.val)
    (hs : s'.g.replies = (whom, result) :: s.g.replies) : repliesTo p s' = repliesTo p s := by
  unfold repliesTo
  rw [hs, List.filter_cons_of_neg (by simpa using h)]

/-- `revive` leaves a process alone that is awake or is not the one that is named. -/
theorem revive_stirs (p : ProcId) (procNr bytes : ℤ) (s : FsState)
    (h : procNr ≠ p.val ∨ (s.fprocs p).suspended = false) :
    Returns (revive procNr bytes) s fun _ s' => Stirs p s s' := by
  unfold revive
  split
  next hnr =>
    simp only [wp_bind, wp_readProc]
    refine wp_ite (fun _ => Stirs.refl p s) fun hasleep => ?_
    have hne : procNr ≠ p.val := by
      rcases h with h | h
      · exact h
      · intro heq
        apply hasleep
        left
        have hp : (⟨procNr.toNat, hnr.2⟩ : ProcId) = p := Fin.ext (by simp [heq])
        rw [hp, h]
    have hnp : p ≠ ⟨procNr.toNat, hnr.2⟩ := by
      intro heq
      apply hne
      rw [heq]
      exact (Int.toNat_of_nonneg hnr.1).symm
    -- a process on a pipe is only marked; the others are woken and sent a reply
    refine wp_ite (fun _ => ?_) fun _ => ?_
    · simp only [wp_bind, wp_modProc, wp_modGlobals]
      exact ⟨update_of_ne hnp _ _, rfl, rfl, rfl, rfl, rfl⟩
    · simp only [wp_bind, wp_modProc]
      refine wp_ite (fun _ => ?_) fun _ => ?_
      · simp only [reply, wp_modGlobals]
        exact ⟨update_of_ne hnp _ _, rfl, rfl, rfl, rfl, repliesTo_reply_of_ne hne rfl⟩
      · simp only [reply]
        refine ⟨?_, rfl, rfl, rfl, rfl, repliesTo_reply_of_ne hne rfl⟩
        dsimp only
        rw [update_of_ne hnp, update_of_ne hnp]
  next => trivial

theorem reviveAll_stirs (p : ProcId) (rs : List (ℤ × ℤ)) (s : FsState)
    (h : (∀ r ∈ rs, r.1 ≠ p.val) ∨ (s.fprocs p).suspended = false) :
    Returns (reviveAll rs) s fun _ s' => Stirs p s s' := by
  induction rs generalizing s with
  | nil => exact Stirs.refl p s
  | cons r rs ih =>
    have hhead : r.1 ≠ p.val ∨ (s.fprocs p).suspended = false :=
      h.imp_left fun hall => hall r List.mem_cons_self
    apply Wp.bind (revive_stirs p r.1 r.2 s hhead)
    intro _ s' hs'
    have htail : (∀ r ∈ rs, r.1 ≠ p.val) ∨ (s'.fprocs p).suspended = false := by
      rw [hs'.proc]
      exact h.imp_left fun hall r hr => hall r (List.mem_cons_of_mem _ hr)
    exact (ih s' htail).mono fun _ s'' hs'' => hs'.trans hs''

/-! ## §3 A Call on a Terminal -/

/-- The state after a request to a task, before the answer is used. -/
def asked (s : FsState) : FsState := { s with g := { s.g with tick := s.g.tick + 1 } }

theorem asked_tables (p : ProcId) (s : FsState) : SameTables p s (asked s) :=
  ⟨rfl, rfl, fun _ => rfl, fun _ => ⟨rfl, rfl⟩, rfl, rfl⟩

theorem rwDev_stirs (p : ProcId) (s : FsState) (h : (s.fprocs p).suspended = false) :
    Returns rwDev s fun _ s' => Stirs p (asked s) s' := by
  simp only [rwDev, wp_bind, wp_globals, wp_modGlobals, wp_pure]
  exact reviveAll_stirs p _ (asked s) (.inr h)

theorem cancelDev_stirs (p : ProcId) (s : FsState) :
    Returns (cancelDev p.val) s fun _ s' => Stirs p (asked s) s' := by
  simp only [cancelDev, wp_bind, wp_globals, wp_modGlobals]
  apply reviveAll_stirs p _ (asked s)
  left
  intro r hr
  simpa using List.all_eq_true.mp List.all_takeWhile r hr

/-- The call of a process that was awake has left nothing behind but, perhaps, a process that a task
    is to revive. -/
structure Slept (p : ProcId) (s s' : FsState) : Prop where
  tables : SameTables p s s'
  silent : repliesTo p s' = repliesTo p s
  task : counted (s'.fprocs p) = false

/-- No device has a task that stands for pipes. -/
theorem dmapTask_uncounted (major : ℕ) : dmapTask major ≠ xpipe ∧ dmapTask major ≠ xopen := by
  unfold dmapTask
  split <;> decide

theorem suspend_slept {task : ℤ} (h : task ≠ xpipe ∧ task ≠ xopen) :
    Returns (suspend task) s fun _ s' => s'.inodes = s.inodes ∧ Slept s.g.fp s s' := by
  simp only [suspend, wp_bind, wp_globals, wp_modProc, wp_modGlobals]
  refine ⟨trivial, ⟨?_, rfl, fun _ => rfl, fun _ => ⟨rfl, rfl⟩, rfl, rfl⟩, rfl, ?_⟩
  · simp only [update_self]
  · simpa [counted] using h

/-- The process sleeps only if the task has said so. -/
theorem devIo_slept (dev : ℕ) (s : FsState) (h : (s.fprocs s.g.fp).suspended = false) :
    Returns (devIo dev) s fun r s' => s'.filps = s.filps ∧ s'.inodes = s.inodes ∧
      if r = SUSPEND then Slept s.g.fp s s' else (s'.fprocs s.g.fp).suspended = false := by
  unfold devIo
  simp only [wp_bind, wp_liftC, findDev]
  refine wp_ite (fun _ => trivial) fun _ => ?_
  apply (rwDev_stirs s.g.fp s h).mono
  intro r t ht
  have hfp : t.g.fp = s.g.fp := by rw [ht.globals]; rfl
  refine wp_ite (fun hr => ?_) fun hr => ?_
  · rw [wp_bind]
    apply (suspend_slept (dmapTask_uncounted (majorOf dev))).mono
    intro _ s' hs'
    rw [hfp] at hs'
    obtain ⟨hinodes, hslept⟩ := hs'
    refine ⟨hslept.tables.filps.trans ht.filps, hinodes.trans ht.inodes, ?_⟩
    rw [if_pos hr]
    have htables := (asked_tables _ s).trans (ht.tables.trans hslept.tables)
    exact ⟨htables, hslept.silent.trans ht.replies, hslept.task⟩
  · refine ⟨ht.filps, ht.inodes, ?_⟩
    rw [if_neg hr, ht.proc]
    exact h

/-- The end of a call on a character device changes the position and `i_seek`, nothing else. -/
theorem rwFinish_char (f : FilpId) (rip : InodeId) (fSize : ℤ) (rw : RwFlag) (r position cumIo : ℤ)
    (s : FsState) (htype : (s.inodes rip).type = iCharSpecial)
    (hpipe : (s.inodes rip).pipe = false) :
    Returns (rwFinish f rip fSize rw r position cumIo) s fun _ s' => s' =
      { s with
        filps := update s.filps f { s.filps f with pos := position }
        inodes := update s.inodes rip { s.inodes rip with seek := false } } := by
  have hdir : (s.inodes rip).isDir = false := by
    unfold Inode.isDir
    rw [htype]
    rfl
  have hregular : ¬((s.inodes rip).type = iRegular ∨ (s.inodes rip).type = iNamedPipe) := by
    rw [htype]
    decide
  unfold rwFinish
  cases rw with
  | reading => simp [hdir, hregular, hpipe]
  | writing => simp [hdir, hregular]

theorem rwChar_slept (f : FilpId) (rip : InodeId) (rw : RwFlag) (s : FsState)
    (h : (s.fprocs s.g.fp).suspended = false) (htype : (s.inodes rip).type = iCharSpecial)
    (hpipe : (s.inodes rip).pipe = false) :
    Returns (rwChar f rip rw) s fun _ s' =>
      (s'.fprocs s.g.fp).suspended = true → Slept s.g.fp s s' := by
  simp only [rwChar, wp_bind, wp_readFilp, wp_readInode]
  apply (devIo_slept _ s h).mono
  rintro r t ⟨hfilps, hinodes, hr⟩
  have htype' : (t.inodes rip).type = iCharSpecial := by rw [hinodes, htype]
  have hpipe' : (t.inodes rip).pipe = false := by rw [hinodes, hpipe]
  refine wp_ite (fun hpos => ?_) fun hneg => ?_
  · -- the task has done it at once
    apply (rwFinish_char f rip _ rw _ _ _ t htype' hpipe').mono
    rintro _ s' rfl hsuspended
    rw [if_neg (by rintro rfl; exact absurd hpos (by decide))] at hr
    exact absurd (hr.symm.trans hsuspended) (by decide)
  · apply (rwFinish_char f rip _ rw _ _ _ t htype' hpipe').mono
    rintro _ s' rfl hsuspended
    by_cases hs : r = SUSPEND
    · rw [if_pos hs] at hr
      -- the position is the one that was read before the request
      have hsame : update t.filps f { t.filps f with pos := (s.filps f).pos } = t.filps := by
        rw [hfilps]
        exact update_eq_self f s.filps
      have hinode := SameTables.of_inode s.g.fp t rip { t.inodes rip with seek := false } rfl rfl rfl
      rw [hsame]
      exact ⟨hr.tables.trans ⟨hinode.filp, hinode.filps, hinode.count, hinode.pipes, hinode.blocks⟩,
        hr.silent, hr.task⟩
    · rw [if_neg hs] at hr
      exact absurd (hr.symm.trans hsuspended) (by decide)

theorem mmDescriptor_spec (s : FsState) :
    Returns mmDescriptor s fun _ s' => s' = { s with g := { s.g with fd := descriptor s.g } } := by
  simp only [mmDescriptor, wp_modGlobals, descriptor]
  split <;> rfl

theorem getFilp_spec (fild : ℤ) (s : FsState) :
    Returns (getFilp fild) s fun r s' => s' = { s with g := { s.g with errCode := EBADF } } ∧
      ∀ f, r = some f → (s.fprocs s.g.fp).filp fild.toNat = some f := by
  simp only [getFilp, wp_bind, wp_setErr]
  refine wp_ite (fun _ => ?_) fun _ => ?_
  · exact ⟨rfl, fun f hf => absurd hf (by simp)⟩
  · simp only [wp_bind, wp_caller, wp_pure]
    exact ⟨trivial, fun f hf => hf⟩

/-- A call on a terminal that hangs leaves nothing behind. -/
theorem readWrite_slept (rw : RwFlag) (s : FsState) (h : (s.fprocs s.g.fp).suspended = false)
    (hterm : OnTerminal s) :
    Returns (readWrite rw) s fun _ s' =>
      (s'.fprocs s.g.fp).suspended = true → Slept s.g.fp s s' := by
  -- a call that ends early leaves the process awake
  have hearly : ∀ {t : FsState}, t.fprocs = s.fprocs → (t.fprocs s.g.fp).suspended = true →
      Slept s.g.fp s t := by
    intro t ht hsuspended
    rw [ht, h] at hsuspended
    exact absurd hsuspended (by decide)
  simp only [readWrite, wp_bind, wp_globals]
  apply (mmDescriptor_spec s).mono
  rintro _ s₁ rfl
  refine wp_ite (fun _ => hearly rfl) fun _ => ?_
  rw [wp_bind]
  apply (getFilp_spec _ _).mono
  rintro r s₂ ⟨rfl, hfilp⟩
  cases r with
  | none => exact hearly rfl
  | some f =>
    simp only [wp_bind, wp_readFilp]
    refine wp_ite (fun _ => hearly rfl) fun _ => ?_
    refine wp_ite (fun _ => hearly rfl) fun _ => ?_
    refine wp_ite (fun _ => hearly rfl) fun _ => ?_
    simp only [filpInode, wp_bind, wp_readFilp]
    cases hino : (s.filps f).ino with
    | none => trivial
    | some rip =>
      obtain ⟨htype, hpipe⟩ := hterm f rip (hfilp f rfl) hino
      simp only [wp_pure, wp_liftC, wp_modify, wp_readInode]
      rw [if_pos htype]
      refine (rwChar_slept f rip rw _ ?_ ?_ ?_).mono ?_
      · exact h
      · exact htype
      · exact hpipe
      intro _ s' hs' hsuspended
      have hslept := hs' hsuspended
      exact ⟨⟨hslept.tables.filp, hslept.tables.filps, hslept.tables.count, hslept.tables.pipes,
        hslept.tables.blocks⟩, hslept.silent, hslept.task⟩

/-! ## §4 `do_unpause` -/

/-- What `do_unpause` does to a process that it wakes. -/
structure Woken (p : ProcId) (s s' : FsState) : Prop where
  awake : (s'.fprocs p).suspended = false
  reply : repliesTo p s' = EINTR :: repliesTo p s
  counter : s'.g.suspCount = s.g.suspCount
  tables : SameTables p s s'

theorem wake_woken (p : ProcId) (s : FsState) :
    Returns (do
      modProc p fun x => { x with suspended := false }
      reply p.val EINTR
      return OK) s fun _ s' => Woken p s s' := by
  simp only [reply, wp_bind, wp_modProc, wp_modGlobals, wp_pure]
  refine ⟨?_, ?_, rfl, ⟨?_, rfl, fun _ => rfl, fun _ => ⟨rfl, rfl⟩, rfl, rfl⟩⟩
  · simp only [update_self]
  · simp [repliesTo]
  · simp only [update_self]

theorem Woken.of_stirs {t : FsState} (h : Woken p t s') (ht : Stirs p (asked s) t) :
    Woken p s s' where
  awake := h.awake
  reply := by rw [h.reply, ht.replies]; rfl
  counter := by rw [h.counter, ht.globals]; rfl
  tables := (asked_tables p s).trans (ht.tables.trans h.tables)

/-- `do_unpause` wakes a process, unless it is on a pipe. -/
theorem doUnpause_asleep (p : ProcId) (s : FsState) (hwho : s.g.who = mmProcNr)
    (hasleep : (s.fprocs p).suspended = true) :
    Returns (doUnpause p.val) s fun _ s' =>
      if -(s.fprocs p).task = xpipe then s' = s else Woken p s s' := by
  have hp : (⟨((p.val : ℤ)).toNat, by simp [p.isLt]⟩ : ProcId) = p := Fin.ext (by simp)
  unfold doUnpause Returns
  simp only [wp_bind, wp_globals]
  rw [if_neg (by rw [hwho]; exact lt_irrefl _)]
  rw [dif_pos ⟨Int.natCast_nonneg _, by simp [p.isLt]⟩]
  simp only [hp, wp_bind, wp_readProc]
  rw [if_neg (by simp [hasleep])]
  refine wp_ite (fun hpipe => ?_) fun hpipe => ?_
  · simp only [if_pos hpipe, wp_pure]
  · simp only [if_neg hpipe]
    refine wp_ite (fun _ => ?_) fun _ => wake_woken p s
    -- a process on a terminal: the task is told first
    refine wp_ite (fun _ => trivial) fun _ => ?_
    split
    · trivial
    · next f _ =>
      simp only [filpInode, wp_bind, wp_readFilp]
      cases (s.filps f).ino with
      | none => trivial
      | some rip =>
        apply (cancelDev_stirs p s).mono
        intro _ t ht
        exact (wake_woken p t).mono fun _ s' hs' => hs'.of_stirs ht

/-- An interrupted call is undone exactly if it is one on a terminal: a process on a pipe goes on
    hanging, and an open of a FIFO goes on being counted. -/
theorem unpause_undone_iff {k : Kind} {p : ProcId} {s₀ s₁ s₂ s₃ : FsState} {r : ℤ}
    (hcall : Hung k p s₀ s₁) (hlater : ∃ b, s₂.fprocs p = { s₁.fprocs p with revived := b })
    (hwho : s₂.g.who = mmProcNr) (hsignal : doUnpause p.val s₂ = (.ok r, s₃)) :
    Undone p s₀ s₁ s₂ s₃ ↔ k = .terminal := by
  obtain ⟨b, hb⟩ := hlater
  have hasleep : (s₂.fprocs p).suspended = true := by rw [hb]; exact hcall.hangs
  have htask : (s₂.fprocs p).task = (s₁.fprocs p).task := by rw [hb]
  have hwoken := (doUnpause_asleep p s₂ hwho hasleep).ok hsignal
  rw [htask] at hwoken
  have hcaller := hcall.call
  cases k with
  | pipe =>
    obtain ⟨rw, r', -, hpipe⟩ := hcaller
    rw [if_pos hpipe] at hwoken
    refine iff_of_false (fun hundone => ?_) (by decide)
    -- the process still hangs
    have hawake := hundone.awake
    rw [hwoken, hasleep] at hawake
    exact absurd hawake (by decide)
  | fifo =>
    obtain ⟨oflags, omode, r', -, hopen⟩ := hcaller
    rw [if_neg (by rw [hopen]; decide)] at hwoken
    refine iff_of_false (fun hundone => ?_) (by decide)
    -- the process is still counted
    have hcounter := hundone.counter
    rw [hwoken.counter, if_pos (by simp [counted, htask, hopen])] at hcounter
    omega
  | terminal =>
    obtain ⟨rw, r', hrun, hterm⟩ := hcaller
    have hfp := hcall.caller
    have hslept := (readWrite_slept rw s₀ (by rw [hfp]; exact hcall.awake) hterm).ok hrun
      (by rw [hfp]; exact hcall.hangs)
    rw [hfp] at hslept
    have huncounted : counted (s₂.fprocs p) = false := by
      rw [hb]
      exact hslept.task
    have hpipe : -(s₁.fprocs p).task ≠ xpipe := by
      intro h
      simp [counted, htask, h] at huncounted
    rw [if_neg hpipe] at hwoken
    refine iff_of_true ?_ rfl
    refine ⟨hwoken.awake, hslept.silent, hwoken.reply, ?_, hslept.tables, hwoken.tables⟩
    rw [hwoken.counter, huncounted]
    simp

/-! ## §5 Two Runs -/

/-- A program that is run to its end. -/
theorem run_eq {α : Type} {m : FsM α} {a : α} (h : (m s).1 = .ok a) :
    m s = (.ok a, (m s).2) := Prod.ext h rfl

/-- What `main` does before a call. -/
def beginCall (q : Request) : FsM ℤ := do
  let call ← getWork q
  setUp q call
  return call

theorem beginCall_fprocs (q : Request) (s : FsState) (h : s.g.reviving = 0) :
    Returns (beginCall q) s fun _ s' => s'.fprocs = s.fprocs := by
  unfold beginCall getWork setUp Returns
  simp only [wp_bind, wp_get]
  rw [if_neg (by simp [h])]
  simp only [wp_bind, wp_modGlobals, wp_pure, wp_modify]

/-- The signal of MM for `init`. -/
def unpauseInit : Request := { initRequest 65 with who := mmProcNr, pro := initProcNr.val }

/-- `init` reads from a terminal, for which there is no input. -/
def atTerminal : FsState :=
  let s := atBoot (smallWorld [] fun _ => { status := SUSPEND, revives := [] })
  { s with
    inodes := fun _ => { noInode with mode := 0o020666, zone := fun _ => 0x400, count := 1 }
    filps := fun _ => { mode := rBit, flags := 0, count := 1, ino := some ⟨0, nrInodes_pos⟩, pos := 0 }
    fprocs := fun _ => { noFproc with filp := fun _ => some ⟨0, by decide⟩ }
    g := { s.g with who := initProcNr, fp := initProcNr, nbytes := 5 } }

def atTerminal₁ : FsState := (readWrite .reading atTerminal).2
def atTerminal₂ : FsState := (beginCall unpauseInit atTerminal₁).2
def atTerminal₃ : FsState := (doUnpause initProcNr.val atTerminal₂).2

theorem unpause_terminal : Undone initProcNr atTerminal atTerminal₁ atTerminal₂ atTerminal₃ := by
  have hruns : (readWrite .reading atTerminal).1 = .ok SUSPEND ∧
      (beginCall unpauseInit atTerminal₁).1 = .ok 65 ∧
      (doUnpause initProcNr.val atTerminal₂).1 = .ok OK := by decide +kernel
  have hstates : (atTerminal₁.fprocs initProcNr).suspended = true ∧ atTerminal₁.g.reviving = 0 ∧
      atTerminal₂.g.who = mmProcNr := by decide +kernel
  have hcall : Hung .terminal initProcNr atTerminal atTerminal₁ := by
    refine ⟨rfl, rfl, hstates.1, .reading, SUSPEND, run_eq hruns.1, ?_⟩
    intro f rip _ _
    exact ⟨by change 0o020666 &&& iType = iCharSpecial; decide, rfl⟩
  have hlater := (beginCall_fprocs unpauseInit _ hstates.2.1).ok (run_eq hruns.2.1)
  have hfproc : atTerminal₂.fprocs initProcNr = atTerminal₁.fprocs initProcNr :=
    congrFun hlater initProcNr
  exact (unpause_undone_iff hcall ⟨_, hfproc⟩ hstates.2.2 (run_eq hruns.2.2)).mpr rfl

/-- The server has started and `init` has made a pipe; it reads from the pipe, and MM sends it a
    signal. -/
def pipeWorld : World := smallWorld [] fun _ => { status := OK, revives := [] }
def started : FsState := (fsInit (atBoot pipeWorld)).2
def withPipe : FsState := (serve (initRequest 42) started).2
def readFive : Request := { initRequest 3 with nbytes := 5 }
def atPipe : FsState := (beginCall readFive withPipe).2
def atPipe₁ : FsState := (readWrite .reading atPipe).2
def atPipe₂ : FsState := (beginCall unpauseInit atPipe₁).2
def atPipe₃ : FsState := (doUnpause initProcNr.val atPipe₂).2

/-- The reader of the pipe goes on hanging. -/
theorem unpause_pipe : Reached pipeWorld withPipe ∧ beginCall readFive withPipe = (.ok 3, atPipe) ∧
    Hung .pipe initProcNr atPipe atPipe₁ ∧ beginCall unpauseInit atPipe₁ = (.ok 65, atPipe₂) ∧
    doUnpause initProcNr.val atPipe₂ = (.ok OK, atPipe₃) ∧
    ¬Undone initProcNr atPipe atPipe₁ atPipe₂ atPipe₃ := by
  have hreached : Reached pipeWorld withPipe := by
    have hruns : (fsInit (atBoot pipeWorld)).1 = .ok ⟨⟩ ∧
        (serve (initRequest 42) started).1 = .ok ⟨⟩ := by decide +kernel
    exact .step _ (.start (run_eq hruns.1)) (run_eq hruns.2)
  have hruns : (beginCall readFive withPipe).1 = .ok 3 ∧ (readWrite .reading atPipe).1 = .ok 0 ∧
      (beginCall unpauseInit atPipe₁).1 = .ok 65 ∧
      (doUnpause initProcNr.val atPipe₂).1 = .ok OK := by decide +kernel
  have hstates : atPipe.g.fp = initProcNr ∧ (atPipe.fprocs initProcNr).suspended = false ∧
      (atPipe₁.fprocs initProcNr).suspended = true ∧ -(atPipe₁.fprocs initProcNr).task = xpipe ∧
      (atPipe₃.fprocs initProcNr).suspended = true := by decide +kernel
  obtain ⟨hcaller, hawake, hhangs, htask, hstill⟩ := hstates
  refine ⟨hreached, run_eq hruns.1, ⟨hcaller, hawake, hhangs, .reading, 0, run_eq hruns.2.1, htask⟩,
    run_eq hruns.2.2.1, run_eq hruns.2.2.2, fun hundone => ?_⟩
  have hwoken := hundone.awake
  rw [hstill] at hwoken
  exact absurd hwoken (by decide)

end LisaMinix.Fs.Server
