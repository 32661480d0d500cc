import LisaMinix.Library.References
import LisaMinix.Fs.Fifo

/-!
# The Stream of a FIFO

The counts of the tables, and what a FIFO holds: as long as every transfer starts where the
last one of its kind ended, what was written and not yet read is in the file.
-/

namespace LisaMinix.Fs.Fifo

open LisaMinix.Mm (ProcNr nrProcs)
open LisaMinix.Library Function

/-! ## §1 The invariant -/

/-- What the descriptors refer to. -/
def desc (s : State) (x : ProcNr × Fd) : Option FilpNr := (s.fproc x.1).filp x.2

/-- What the filps in use refer to. -/
def fileRef (s : State) (f : FilpNr) : Option InodeNr :=
  if (s.filp f).count = 0 then none else some (s.filp f).ino

structure TablesOk (s : State) : Prop where
  filps : ∀ f, (s.filp f).count = refCount (desc s) f
  inodes : ∀ i, (s.inode i).count = refCount (fileRef s) i

/-- What has been written and not yet read is in the file, from the byte after the last one
that was read. -/
structure Flow (rip : Node) : Prop where
  inside : rip.consumed ≤ rip.size
  stream : sentBytes rip.toInode =
    rip.received ++ slice rip.data rip.consumed (rip.size - rip.consumed)

structure FifosOk (s : State) : Prop where
  tables : TablesOk s
  flow : ∀ i, (s.inode i).count ≠ 0 → Flow (s.inode i)

/-- Only flags of processes have changed. -/
structure Calm (s s' : State) : Prop where
  desc : desc s' = desc s
  filp : s'.filp = s.filp
  inode : s'.inode = s.inode

section Frame

variable {s s' s'' : State} {who p : ProcNr} {f : FilpNr} {i : InodeNr} {fd : Fd}

theorem Calm.refl (s : State) : Calm s s := ⟨rfl, rfl, rfl⟩

theorem Calm.trans (h : Calm s s') (h' : Calm s' s'') : Calm s s'' :=
  ⟨h'.desc.trans h.desc, h'.filp.trans h.filp, h'.inode.trans h.inode⟩

theorem TablesOk.of_counts (h : TablesOk s) (hdesc : Fifo.desc s' = Fifo.desc s)
    (hcount : ∀ f, (s'.filp f).count = (s.filp f).count)
    (hino : ∀ f, (s'.filp f).ino = (s.filp f).ino)
    (hinode : ∀ i, (s'.inode i).count = (s.inode i).count) : TablesOk s' where
  filps f := by rw [hcount, hdesc, h.filps]
  inodes i := by
    have href : fileRef s' = fileRef s := funext fun f => by rw [fileRef, fileRef, hcount, hino]
    rw [hinode, href, h.inodes]

theorem FifosOk.of_calm (h : FifosOk s) (hc : Calm s s') : FifosOk s' where
  tables := h.tables.of_counts hc.desc (fun f => by rw [hc.filp]) (fun f => by rw [hc.filp])
    fun i => by rw [hc.inode]
  flow i := by
    rw [hc.inode]
    exact h.flow i

/-- A filp that a descriptor refers to is in use. -/
theorem TablesOk.count_ne_zero (h : TablesOk s) (hfd : (s.fproc who).filp fd = some f) :
    (s.filp f).count ≠ 0 := by
  rw [h.filps]
  exact (refCount_pos (r := (who, fd)) hfd).ne'

/-- The inode of a filp in use is in use. -/
theorem TablesOk.inode_ne_zero (h : TablesOk s) (hf : (s.filp f).count ≠ 0) :
    (s.inode (s.filp f).ino).count ≠ 0 := by
  rw [h.inodes]
  exact (refCount_pos (r := f) (if_neg hf)).ne'

/-- Writing the flags of one process. -/
theorem setProc_calm {x : Proc} (hx : x.filp = (s.fproc p).filp) : Calm s (s.setProc p x) := by
  refine ⟨funext fun y => ?_, rfl, rfl⟩
  by_cases hy : y.1 = p
  · simp [Fifo.desc, State.setProc, hy, hx]
  · simp [Fifo.desc, State.setProc, hy]

theorem reviveOne_calm (s : State) (p : ProcNr) : Calm s (reviveOne s p) := by
  have hproc : ∀ x : Proc, x.filp = (s.fproc p).filp →
      Calm s (({ s with suspCount := s.suspCount - 1 } : State).setProc p x) := by
    intro x hx
    have hcount : Calm s { s with suspCount := s.suspCount - 1 } := ⟨rfl, rfl, rfl⟩
    exact hcount.trans (setProc_calm hx)
  unfold reviveOne
  simp only
  split
  · exact (hproc { s.fproc p with revived := true } rfl).trans ⟨rfl, rfl, rfl⟩
  · exact (hproc { s.fproc p with suspended := false } rfl).trans ⟨rfl, rfl, rfl⟩

theorem release_calm (s : State) (ip : InodeNr) (nr : CallNr) (count : ℤ) :
    Calm s (release s ip nr count) := by
  unfold release
  induction List.finRange nrProcs generalizing s count with
  | nil => exact Calm.refl s
  | cons p rest ih =>
    unfold releaseLoop
    split
    · split
      · exact reviveOne_calm s p
      · exact (reviveOne_calm s p).trans (ih ..)
    · exact ih ..

theorem wakeOpeners_calm (s : State) (ip : InodeNr) : Calm s (wakeOpeners s ip) := by
  unfold wakeOpeners
  split
  · exact (release_calm ..).trans (release_calm ..)
  · exact Calm.refl s

theorem suspend_calm (s : State) (who : ProcNr) (task : Task) (call : Call) :
    Calm s (suspend s who task call) := by
  have hproc : Calm s (s.setProc who
      { s.fproc who with suspended := true, task := task, call := call }) := setProc_calm rfl
  exact hproc.trans ⟨rfl, rfl, rfl⟩

theorem pipeCheckRead_calm (s : State) (who : ProcNr) (call : Call) (ip : InodeNr)
    (nonblock : Bool) (position : ℕ) :
    Calm s (pipeCheckRead s who call ip nonblock position).1 := by
  unfold pipeCheckRead
  split
  · exact Calm.refl s
  split
  · exact Calm.refl s
  · have hwake : ∀ t : State, Calm s t →
        Calm s (if 0 < t.suspCount then release t ip .write t.suspCount else t) := by
      intro t ht
      split
      · exact ht.trans (release_calm ..)
      · exact ht
    refine hwake _ ?_
    split
    · exact Calm.refl s
    · exact suspend_calm ..

theorem pipeCheckWrite_calm (s : State) (who : ProcNr) (call : Call) (ip : InodeNr)
    (nonblock : Bool) (position : ℕ) :
    Calm s (pipeCheckWrite s who call ip nonblock position).1 := by
  unfold pipeCheckWrite
  split
  · exact Calm.refl s
  split
  · exact Calm.refl s
  split
  · split
    · exact Calm.refl s
    · exact suspend_calm ..
  split
  · exact release_calm ..
  · exact Calm.refl s

theorem pipeCheck_calm (s : State) (who : ProcNr) (rw : Rw) (call : Call) (filp : OpenFile)
    (position : ℕ) : Calm s (pipeCheck s who rw call filp position).1 := by
  unfold pipeCheck
  split
  · cases rw with
    | reading => exact pipeCheckRead_calm ..
    | writing => exact pipeCheckWrite_calm ..
  · exact Calm.refl s

/-- A read from a pipe goes on only if there is something to read. -/
theorem pipeCheck_go {call : Call} {filp : OpenFile} {position : ℕ}
    (h : (pipeCheck s who .reading call filp position).2 = .go)
    (hpipe : (s.inode filp.ino).isPipe = true) : position < (s.inode filp.ino).size := by
  rw [pipeCheck, if_pos hpipe] at h
  simp only [pipeCheckRead] at h
  split at h
  · assumption
  split at h
  · cases h
  · dsimp only at h
    split at h <;> cases h

theorem doUnpause_calm (s : State) (p : ProcNr) : Calm s (doUnpause s p) := by
  unfold doUnpause
  simp only
  split
  · have hproc : Calm s (s.setProc p { s.fproc p with suspended := false }) := setProc_calm rfl
    exact hproc.trans ⟨rfl, rfl, rfl⟩
  · exact Calm.refl s

theorem getRevived_calm {r : State × ProcNr} (h : getRevived s = some r) : Calm s r.1 := by
  unfold getRevived at h
  split at h
  · cases h
  · next p _ =>
    cases h
    have hproc : Calm s (s.setProc p { s.fproc p with suspended := false, revived := false }) :=
      setProc_calm rfl
    exact hproc.trans ⟨rfl, rfl, rfl⟩

end Frame

/-! ## §2 Transfers -/

section Transfers

variable {s s' : State} {who : ProcNr} {f : FilpNr}

/-- A transfer through a filp changes positions and one inode, whose count stays. -/
structure Moved (ip : InodeNr) (rip : Node) (s s' : State) : Prop where
  fproc : s'.fproc = s.fproc
  count : ∀ g, (s'.filp g).count = (s.filp g).count
  ino : ∀ g, (s'.filp g).ino = (s.filp g).ino
  inode : s'.inode = update s.inode ip rip
  icount : rip.count = (s.inode ip).count

theorem Moved.ok {ip : InodeNr} {rip : Node} (h : Moved ip rip s s') (hs : FifosOk s)
    (hflow : Flow rip) : FifosOk s' := by
  refine ⟨hs.tables.of_counts (by unfold desc; rw [h.fproc]) h.count h.ino fun i => ?_,
    fun i hi => ?_⟩
  · rw [h.inode]
    by_cases heq : i = ip
    · rw [heq, update_self, h.icount]
    · rw [update_of_ne heq]
  · rw [h.inode] at hi ⊢
    by_cases heq : i = ip
    · rw [heq, update_self]
      exact hflow
    · rw [update_of_ne heq] at hi ⊢
      exact hs.flow i hi

theorem setFilp_pos (s : State) (f : FilpNr) (pos : ℕ) (g : FilpNr) :
    ((s.setFilp f { s.filp f with pos := pos }).filp g).count = (s.filp g).count ∧
      ((s.setFilp f { s.filp f with pos := pos }).filp g).ino = (s.filp g).ino := by
  by_cases hg : g = f
  · simp [State.setFilp, hg]
  · simp [State.setFilp, hg]

/-- The byte after the last one that was read is where the next read starts. -/
theorem finishRead_ok (hs : FifosOk s) (hf : (s.filp f).count ≠ 0)
    (hpos : (s.filp f).pos = (s.inode (s.filp f).ino).consumed ∨
      (s.inode (s.filp f).ino).size ≤ (s.filp f).pos)
    (hgo : (s.inode (s.filp f).ino).isPipe = true → (s.filp f).pos < (s.inode (s.filp f).ino).size)
    (nbytes : ℕ) : FifosOk (finishRead s f nbytes).1 := by
  set ip := (s.filp f).ino with hip
  set rip := s.inode ip with hrip
  set n := min nbytes (rip.size - (s.filp f).pos) with hn
  have hflow : Flow rip := hs.flow ip (hs.tables.inode_ne_zero hf)
  have hbytes : readChunks rip.data rip.size nbytes (s.filp f).pos nbytes =
      slice rip.data (s.filp f).pos n := readChunks_eq _ _ _ _ _ le_rfl
  set rip' : Node := { rip with
    received := rip.received ++ slice rip.data (s.filp f).pos n
    consumed := rip.consumed + n } with hrip'
  have hinside := hflow.inside
  -- what is left after the bytes that were read
  have htake : sentBytes rip.toInode = rip'.received ++
      slice rip.data (rip.consumed + n) (rip.size - rip.consumed - n) := by
    rcases hpos with hpos | hpos
    · rw [hrip', ← hpos]
      exact stream_take (hpos ▸ hflow.stream) (by omega)
    · have hn0 : n = 0 := by omega
      simp only [hrip', hn0, slice_zero, List.append_nil, Nat.add_zero, Nat.sub_zero]
      exact hflow.stream
  have hle : rip.consumed + n ≤ rip.size := by
    rcases hpos with hpos | hpos
    · omega
    · omega
  unfold finishRead
  simp only [← hip, ← hrip, hbytes, slice_length]
  split
  · next hall =>
    rw [Bool.and_eq_true, decide_eq_true_eq] at hall
    have hlt := hgo hall.1
    set s₁ := s.setNode ip { rip' with size := 0, consumed := 0 } with hs1
    have hmoved : Moved ip { rip' with size := 0, consumed := 0 } s s₁ :=
      ⟨rfl, fun _ => rfl, fun _ => rfl, rfl, rfl⟩
    have hreset : FifosOk s₁ := by
      refine hmoved.ok hs ⟨le_rfl, ?_⟩
      show sentBytes rip.toInode = rip'.received ++ slice rip.data 0 0
      rw [htake, show rip.size - rip.consumed - n = 0 by omega]
      rfl
    -- resetting positions
    have hposs : ∀ t : State, FifosOk t → ∀ g pos,
        FifosOk (t.setFilp g { t.filp g with pos := pos }) := by
      intro t ht g pos
      refine ⟨ht.tables.of_counts rfl (fun k => (setFilp_pos t g pos k).1)
        (fun k => (setFilp_pos t g pos k).2) fun _ => rfl, ht.flow⟩
    dsimp only
    refine hposs _ ?_ f 0
    split
    · exact hreset
    · exact hposs _ hreset _ 0
  · set s₁ := s.setNode ip rip' with hs1
    have hmoved : Moved ip rip' s
        (s₁.setFilp f { s₁.filp f with pos := (s.filp f).pos + n }) := by
      refine ⟨rfl, fun g => (setFilp_pos s₁ f _ g).1, fun g => (setFilp_pos s₁ f _ g).2, rfl, rfl⟩
    refine hmoved.ok hs ⟨hle, ?_⟩
    show sentBytes rip.toInode = rip'.received ++
      slice rip.data (rip.consumed + n) (rip.size - (rip.consumed + n))
    rw [htake, Nat.sub_sub]

/-- A write starts at the end of the file. -/
theorem finishWrite_ok (hs : FifosOk s) (hf : (s.filp f).count ≠ 0) {env : Env}
    (buffer : ℕ → UInt8) (nbytes : ℕ) {position : ℕ}
    (hpos : position = (s.inode (s.filp f).ino).size) :
    FifosOk (finishWrite s env f buffer nbytes position).1 := by
  set ip := (s.filp f).ino with hip
  set rip := s.inode ip with hrip
  obtain ⟨data, n, hrun, hn, hbelow, hstored⟩ :=
    writeChunks_spec buffer env.room rip.data position 0 nbytes
  rw [Nat.zero_add] at hrun
  have hflow : Flow rip := hs.flow ip (hs.tables.inode_ne_zero hf)
  set x : Piece := ⟨(List.range nbytes).map buffer, n, if n = nbytes then (n : ℤ) else env.noRoom⟩
    with hx
  set rip' : Node := { rip with data := data, size := rip.size + n, sent := rip.sent ++ [x] }
    with hrip'
  have hsize : (if rip.size < position + n then position + n else rip.size) = rip.size + n := by
    split
    · omega
    · omega
  set s₁ := s.setNode ip rip' with hs1
  have hres : (finishWrite s env f buffer nbytes position).1 =
      s₁.setFilp f { s₁.filp f with pos := position + n } := by
    unfold finishWrite
    simp only [← hip, ← hrip, hrun]
    rw [hsize]
  have hmoved : Moved ip rip' s (s₁.setFilp f { s₁.filp f with pos := position + n }) :=
    ⟨rfl, fun g => (setFilp_pos s₁ f _ g).1, fun g => (setFilp_pos s₁ f _ g).2, rfl, rfl⟩
  rw [hres]
  refine hmoved.ok hs ⟨?_, ?_⟩
  · have := hflow.inside
    show rip.consumed ≤ rip.size + n
    omega
  · have hpiece : x.asked.take x.taken = slice data rip.size n := by
      rw [← hpos]
      exact take_asked hn fun k hk => by rw [hstored k hk, Nat.zero_add]
    exact stream_put hflow.stream hflow.inside (fun a ha => hbelow a (by omega)) hpiece

/-- A transfer through a descriptor is in place: a read starts after the last byte that was read since
the FIFO was empty, or finds nothing; a write starts at the end. -/
def InPlace (s : State) (who : ProcNr) (rw : Rw) (fd : Fd) : Prop :=
  ∀ f, (s.fproc who).filp fd = some f → (s.filp f).mode.has rw = true →
    match rw with
    | .reading => (s.filp f).pos = (s.inode (s.filp f).ino).consumed ∨
        (s.inode (s.filp f).ino).size ≤ (s.filp f).pos
    | .writing => startPos s f .writing = (s.inode (s.filp f).ino).size

theorem readWrite_ok (hs : FifosOk s) (env : Env) {rw : Rw} {call : Call}
    (hplace : InPlace s who rw call.fd) : FifosOk (readWrite s env who rw call).1 := by
  unfold readWrite
  split
  · exact hs
  split
  · exact hs
  · next f hfd =>
    have hf := hs.tables.count_ne_zero hfd
    simp only
    split
    · exact hs
    next hmode =>
    have hp := hplace f hfd (by simpa using hmode)
    split
    · exact hs
    split
    · exact hs
    · have hcalm := pipeCheck_calm s who rw call (s.filp f) (startPos s f rw)
      have hs' := hs.of_calm hcalm
      split
      · next hcheck =>
        rw [hcheck] at hs'
        exact hs'
      · next hcheck =>
        rw [hcheck] at hs'
        exact hs'
      · next s' hcheck =>
        rw [hcheck] at hcalm hs'
        have hfilp : s'.filp = s.filp := hcalm.filp
        have hinode : s'.inode = s.inode := hcalm.inode
        cases rw with
        | reading =>
          refine finishRead_ok hs' (by rw [hfilp]; exact hf) ?_ (fun hpipe => ?_) _
          · rw [hfilp, hinode]
            exact hp
          · rw [hfilp, hinode] at hpipe ⊢
            have hstart : startPos s f .reading = (s.filp f).pos := by simp [startPos]
            rw [← hstart]
            exact pipeCheck_go (by rw [hcheck]) hpipe
        | writing =>
          refine finishWrite_ok hs' (by rw [hfilp]; exact hf) _ _ ?_
          rw [hfilp, hinode]
          exact hp

end Transfers

/-! ## §3 Descriptors -/

section Descriptors

variable {s s' : State} {who : ProcNr} {f : FilpNr} {fd : Fd} {ip : InodeNr}

theorem desc_link (s : State) (who : ProcNr) (fd : Fd) (x : Option FilpNr) :
    desc (s.link who fd x) = update (desc s) (who, fd) x := by
  funext ⟨p, fd'⟩
  by_cases hp : p = who
  · subst hp
    by_cases hfd : fd' = fd
    · subst hfd
      simp [desc, State.link, State.setProc]
    · have hne : (p, fd') ≠ (p, fd) := fun heq => hfd (Prod.mk.inj heq).2
      rw [update_of_ne hne]
      simp [desc, State.link, State.setProc, hfd]
  · have hne : (p, fd') ≠ (who, fd) := fun heq => hp (Prod.mk.inj heq).1
    rw [update_of_ne hne]
    simp [desc, State.link, State.setProc, hp]

/-- What `put_inode` does to the inode: one user less, and the rest only matters if there are
others. -/
theorem putInode_inode (s : State) (ip i : InodeNr) :
    ((putInode s ip).inode i).count = (s.inode i).count - (if i = ip then 1 else 0) ∧
      (((putInode s ip).inode i).count ≠ 0 → Flow (s.inode i) → Flow ((putInode s ip).inode i)) := by
  unfold putInode
  by_cases hi : i = ip
  · subst hi
    simp only
    split
    · next hlast =>
      simp only [State.setNode, update_self, if_true, hlast]
      exact ⟨trivial, fun h => absurd rfl h⟩
    · simp only [State.setNode, update_self, if_true]
      exact ⟨trivial, fun _ h => ⟨h.inside, h.stream⟩⟩
  · simp only
    split <;> simp [State.setNode, hi]

theorem fileRef_setFilp (s : State) (f : FilpNr) (x : OpenFile) :
    fileRef (s.setFilp f x) =
      update (fileRef s) f (if x.count = 0 then none else some x.ino) := by
  funext g
  by_cases hg : g = f
  · rw [hg, update_self]
    simp [fileRef, State.setFilp]
  · rw [update_of_ne hg]
    simp [fileRef, State.setFilp, hg]

theorem putInode_filp (s : State) (ip : InodeNr) : (putInode s ip).filp = s.filp := by
  unfold putInode
  simp only
  split <;> rfl

theorem putInode_fproc (s : State) (ip : InodeNr) : (putInode s ip).fproc = s.fproc := by
  unfold putInode
  simp only
  split <;> rfl

/-- The number of filps that use an inode, when the last descriptor of one is given up. -/
theorem refCount_drop {h : FilpNr → Option InodeNr} (hf : h f = some ip) (i : InodeNr) :
    refCount (update h f none) i = refCount h i - (if i = ip then 1 else 0) := by
  have hup := refCount_update h f none i
  rw [hf, refOf_none] at hup
  by_cases hi : i = ip
  · rw [hi, refOf_self] at hup
    rw [hi, if_pos rfl]
    omega
  · rw [refOf_of_ne (Ne.symm hi)] at hup
    rw [if_neg hi]
    omega

/-- **A descriptor is given up.** -/
theorem dropFd_ok (hs : FifosOk s) (hfd : (s.fproc who).filp fd = some f) :
    FifosOk (dropFd s who fd f) := by
  set ip := (s.filp f).ino with hip
  set x : OpenFile := { s.filp f with count := (s.filp f).count - 1 } with hx
  set s₁ := s.setFilp f x with hs1
  set s₂ := if (s₁.filp f).count = 0 then putInode s₁ ip else s₁ with hs2
  have hdef : dropFd s who fd f = s₂.link who fd none := rfl
  have hin := hs.tables.count_ne_zero hfd
  have hself : s₁.filp f = x := update_self ..
  have hother : ∀ g, g ≠ f → s₁.filp g = s.filp g := fun g hg => update_of_ne hg ..
  have hfilp : s₂.filp = s₁.filp := by
    rw [hs2]
    split
    · exact putInode_filp ..
    · rfl
  have hproc : s₂.fproc = s.fproc := by
    rw [hs2]
    split
    · exact putInode_fproc ..
    · rfl
  rw [hdef]
  constructor
  · constructor
    · -- one descriptor less for `f`
      intro g
      have hup := refCount_update (desc s) (who, fd) none g
      rw [show desc s (who, fd) = some f from hfd, refOf_none] at hup
      have hd : desc (s₂.link who fd none) = update (desc s) (who, fd) none := by
        rw [desc_link]
        unfold desc
        rw [hproc]
      show (s₂.filp g).count = _
      rw [hd, hfilp]
      have hcount := hs.tables.filps g
      by_cases hg : g = f
      · rw [hg] at hup hcount ⊢
        rw [refOf_self] at hup
        rw [hself]
        show (s.filp f).count - 1 = _
        omega
      · rw [refOf_of_ne (Ne.symm hg)] at hup
        rw [hother g hg]
        omega
    · intro i
      show (s₂.inode i).count = refCount (fileRef s₂) i
      have href : fileRef s₂ = fileRef s₁ := by
        unfold fileRef
        rw [hfilp]
      have hold : fileRef s f = some ip := if_neg hin
      rw [href, hs1, fileRef_setFilp, hs2]
      split
      · next hlast =>
        rw [hself] at hlast
        rw [if_pos hlast, refCount_drop hold, (putInode_inode s₁ ip i).1, ← hs.tables.inodes]
        rfl
      · next hmore =>
        rw [hself] at hmore
        rw [if_neg hmore, show some x.ino = fileRef s f from hold.symm, update_eq_self,
          ← hs.tables.inodes]
        rfl
  · intro i hi
    change (s₂.inode i).count ≠ 0 at hi
    show Flow (s₂.inode i)
    rw [hs2] at hi ⊢
    split at hi
    · next hlast =>
      rw [if_pos hlast]
      have hput := putInode_inode s₁ ip i
      refine hput.2 hi (hs.flow i fun hzero => hi ?_)
      rw [hput.1]
      show (s.inode i).count - _ = 0
      omega
    · next hmore =>
      rw [if_neg hmore]
      exact hs.flow i hi

theorem doClose_ok (hs : FifosOk s) (who : ProcNr) (fd : Fd) : FifosOk (doClose s who fd).1 := by
  unfold doClose
  split
  · exact hs
  · next f hfd =>
    simp only
    split
    · have hcalm := release_calm s (s.filp f).ino (if (s.filp f).mode.r then .write else .read) nrProcs
      refine dropFd_ok (hs.of_calm hcalm) ?_
      have heq := congrFun hcalm.desc (who, fd)
      exact heq.trans hfd
    · exact dropFd_ok hs hfd

theorem doClose_desc (s : State) (who : ProcNr) (fd : Fd) :
    desc (doClose s who fd).1 = update (desc s) (who, fd) none := by
  have hdrop : ∀ (t : State) (f : FilpNr),
      desc (dropFd t who fd f) = update (desc t) (who, fd) none := by
    intro t f
    unfold dropFd
    simp only
    rw [desc_link]
    split
    · unfold desc
      rw [putInode_fproc]
      rfl
    · rfl
  unfold doClose
  split
  · next hnone => exact (update_eq_self_iff.mpr hnone.symm).symm
  · simp only
    rw [hdrop]
    split
    · rw [(release_calm ..).desc]
    · rfl

/-- One more descriptor for a filp in use. -/
theorem share_ok (hs : FifosOk s) (hin : (s.filp f).count ≠ 0) (hfd : (s.fproc who).filp fd = none) :
    FifosOk ((s.setFilp f { s.filp f with count := (s.filp f).count + 1 }).link who fd (some f)) := by
  set x : OpenFile := { s.filp f with count := (s.filp f).count + 1 } with hx
  constructor
  · constructor
    · intro g
      have hup := refCount_update (desc s) (who, fd) (some f) g
      rw [show desc s (who, fd) = none from hfd, refOf_none] at hup
      have hcount := hs.tables.filps g
      rw [desc_link]
      show ((s.setFilp f x).filp g).count = refCount (update (desc s) (who, fd) (some f)) g
      by_cases hg : g = f
      · rw [hg] at hup hcount ⊢
        rw [refOf_self] at hup
        have hself : (s.setFilp f x).filp f = x := update_self ..
        rw [hself]
        show (s.filp f).count + 1 = _
        omega
      · rw [refOf_of_ne (Ne.symm hg)] at hup
        have hother : (s.setFilp f x).filp g = s.filp g := update_of_ne hg ..
        rw [hother]
        omega
    · intro i
      have hold : fileRef s f = some x.ino := if_neg hin
      show (s.inode i).count = refCount (fileRef (s.setFilp f x)) i
      rw [fileRef_setFilp, if_neg (Nat.succ_ne_zero _), ← hold, update_eq_self,
        ← hs.tables.inodes]
  · exact hs.flow

theorem getFd_ok {r : Fd × FilpNr} (h : getFd s who = .ok r) :
    (s.fproc who).filp r.1 = none ∧ (s.filp r.2).count = 0 := by
  unfold getFd at h
  split at h
  · cases h
  · next fd hfd =>
    split at h
    · cases h
    · next f hf =>
      cases h
      exact ⟨by simpa using List.find?_some hfd, by simpa using List.find?_some hf⟩

theorem doDup_ok (hs : FifosOk s) (who : ProcNr) (fd : Fd) (fd2 : Option Fd) :
    FifosOk (doDup s who fd fd2).1 := by
  unfold doDup
  split
  · exact hs
  · next f hfd =>
    have hin := hs.tables.count_ne_zero hfd
    simp only
    split
    · split
      · exact hs
      · next hget => exact share_ok hs hin (getFd_ok hget).1
    · split
      · exact hs
      · next fd2 hne =>
        have hclose := doClose_ok hs who fd2
        have hd := doClose_desc s who fd2
        have hfd' : ((doClose s who fd2).1.fproc who).filp fd = some f := by
          have heq := congrFun hd (who, fd)
          rw [update_of_ne fun h => hne (Prod.mk.inj h).2] at heq
          exact heq.trans hfd
        have hfd2 : ((doClose s who fd2).1.fproc who).filp fd2 = none :=
          (congrFun hd (who, fd2)).trans (update_self ..)
        exact share_ok hclose (hclose.tables.count_ne_zero hfd') hfd2

theorem closeAll_ok (hs : FifosOk s) (who : ProcNr) (l : List Fd) :
    FifosOk (l.foldl (fun s fd => (doClose s who fd).1) s) := by
  induction l generalizing s with
  | nil => exact hs
  | cons fd l ih => exact ih (doClose_ok hs who fd)

theorem doExit_ok (hs : FifosOk s) (who : ProcNr) : FifosOk (doExit s who) := by
  refine closeAll_ok ?_ who _
  split
  · have hcount : Calm s { s with suspCount := s.suspCount - 1 } := ⟨rfl, rfl, rfl⟩
    exact hs.of_calm ((hcount.trans (doUnpause_calm _ who)).trans (setProc_calm rfl))
  · exact hs

/-- The loop of `do_fork` counts each descriptor of the child. -/
theorem foldl_countFilp (cp : Proc) (l : List Fd) (s : State) :
    (l.foldl (countFilp cp) s).fproc = s.fproc ∧ (l.foldl (countFilp cp) s).inode = s.inode ∧
      ∀ g, ((l.foldl (countFilp cp) s).filp g).ino = (s.filp g).ino ∧
        ((l.foldl (countFilp cp) s).filp g).count =
          (s.filp g).count + (l.map fun fd => refOf (cp.filp fd) g).sum := by
  induction l generalizing s with
  | nil => exact ⟨rfl, rfl, fun g => ⟨rfl, rfl⟩⟩
  | cons fd l ih =>
    obtain ⟨hproc, hinode, hfilp⟩ := ih (countFilp cp s fd)
    have hone : (countFilp cp s fd).fproc = s.fproc ∧ (countFilp cp s fd).inode = s.inode ∧
        ∀ g, ((countFilp cp s fd).filp g).ino = (s.filp g).ino ∧
          ((countFilp cp s fd).filp g).count = (s.filp g).count + refOf (cp.filp fd) g := by
      unfold countFilp
      split
      · next hnone => simp [hnone]
      · next f hf =>
        refine ⟨rfl, rfl, fun g => ?_⟩
        by_cases hg : g = f
        · simp [State.setFilp, hg, hf]
        · simp [State.setFilp, hg, hf, refOf_of_ne (Ne.symm hg)]
    refine ⟨hproc.trans hone.1, hinode.trans hone.2.1, fun g => ?_⟩
    obtain ⟨hino, hcount⟩ := hfilp g
    obtain ⟨hino1, hcount1⟩ := hone.2.2 g
    refine ⟨hino.trans hino1, ?_⟩
    rw [List.foldl_cons, hcount, hcount1, List.map_cons, List.sum_cons]
    omega

/-- **The child inherits the descriptors of its parent.** -/
theorem doFork_ok (hs : FifosOk s) {parent child : ProcNr}
    (hnone : ∀ fd, (s.fproc child).filp fd = none) : FifosOk (doFork s parent child) := by
  set cp := s.fproc parent with hcp
  obtain ⟨hproc, hinode, hfilp⟩ := foldl_countFilp cp (List.finRange openMax) (s.setProc child cp)
  have hdef : doFork s parent child =
      (List.finRange openMax).foldl (countFilp cp) (s.setProc child cp) := rfl
  rw [← hdef] at hproc hinode hfilp
  set s' := doFork s parent child with hs'
  -- the row of the child is new
  have hrow : ∀ p, p ≠ child → ∀ fd, desc s' (p, fd) = desc s (p, fd) := by
    intro p hp fd
    unfold desc
    rw [hproc]
    simp [State.setProc, hp]
  have hchild : (fun fd => desc s' (child, fd)) = cp.filp := by
    funext fd
    unfold desc
    rw [hproc]
    simp [State.setProc]
  have hempty : (fun fd => desc s (child, fd)) = fun _ => none := funext fun fd => hnone fd
  have hcount : ∀ g, (s'.filp g).count = (s.filp g).count + refCount cp.filp g := by
    intro g
    rw [(hfilp g).2, refCount_eq_sum, Fin.sum_univ_def]
    rfl
  constructor
  · constructor
    · intro g
      have hrefs := refCount_row (desc s) (desc s') child hrow g
      rw [hchild, hempty, refCount_eq_sum (fun _ : Fd => (none : Option FilpNr))] at hrefs
      simp only [refOf_none, Finset.sum_const_zero, Nat.add_zero] at hrefs
      rw [hcount, hrefs, ← hs.tables.filps]
    · intro i
      have href : fileRef s' = fileRef s := by
        funext g
        unfold fileRef
        rw [(hfilp g).1, hcount]
        by_cases hg : (s.filp g).count = 0
        · -- a filp that is not in use is not inherited
          have hzero : refCount cp.filp g = 0 := by
            by_contra hpos
            obtain ⟨fd, hfd⟩ := Finset.card_pos.mp (Nat.pos_of_ne_zero hpos)
            exact hs.tables.count_ne_zero (Finset.mem_filter.mp hfd).2 hg
          rw [if_pos hg, if_pos (by omega)]
        · rw [if_neg hg, if_neg (by omega)]
          rfl
      rw [href, hinode]
      exact hs.tables.inodes i
  · intro i
    rw [hinode]
    exact hs.flow i

end Descriptors

/-! ## §4 Open -/

section Open

variable {s s' : State} {who : ProcNr} {f : FilpNr} {fd : Fd} {ip : InodeNr}

/-- `common_open` holds the inode `ip` and has not yet claimed a filp for it. -/
structure Pending (ip : InodeNr) (s : State) : Prop where
  filps : ∀ f, (s.filp f).count = refCount (desc s) f
  inodes : ∀ i, (s.inode i).count = refCount (fileRef s) i + if i = ip then 1 else 0
  flow : ∀ i, (s.inode i).count ≠ 0 → Flow (s.inode i)

theorem Pending.of_calm (h : Pending ip s) (hc : Calm s s') : Pending ip s' where
  filps f := by rw [hc.filp, hc.desc, h.filps]
  inodes i := by
    have href : fileRef s' = fileRef s := by
      unfold fileRef
      rw [hc.filp]
    rw [hc.inode, href, h.inodes]
  flow i := by
    rw [hc.inode]
    exact h.flow i

theorem getInode_pending (hs : FifosOk s) (ip : InodeNr) : Pending ip (getInode s ip) := by
  unfold getInode
  refine ⟨hs.tables.filps, fun i => ?_, fun i hi => ?_⟩
  · have hcount := hs.tables.inodes i
    show _ = refCount (fileRef s) i + _
    by_cases h : i = ip
    · subst h
      simp only [State.setNode, update_self, if_true]
      split
      · next hzero =>
        show 1 = _
        omega
      · show (s.inode i).count + 1 = _
        omega
    · simp only [State.setNode, update_of_ne h, if_neg h]
      exact hcount
  · by_cases h : i = ip
    · subst h
      simp only [State.setNode, update_self] at hi ⊢
      split
      · exact ⟨le_rfl, rfl⟩
      · next hne =>
        have hflow := hs.flow i hne
        exact ⟨hflow.inside, hflow.stream⟩
    · simp only [State.setNode, update_of_ne h] at hi ⊢
      exact hs.flow i hi

/-- An open that fails gives the inode back. -/
theorem Pending.put (h : Pending ip s) : FifosOk (putInode s ip) := by
  have hput := putInode_inode s ip
  refine ⟨⟨fun f => ?_, fun i => ?_⟩, fun i hi => ?_⟩
  · have hd : desc (putInode s ip) = desc s := by
      unfold desc
      rw [putInode_fproc]
    rw [putInode_filp, hd, h.filps]
  · have href : fileRef (putInode s ip) = fileRef s := by
      unfold fileRef
      rw [putInode_filp]
    rw [href, (hput i).1, h.inodes i, Nat.add_sub_cancel]
  · refine (hput i).2 hi (h.flow i fun hzero => hi ?_)
    rw [(hput i).1, hzero, Nat.zero_sub]

/-- `i_pipe` is set. -/
theorem Pending.markPipe (h : Pending ip s) :
    Pending ip (s.setNode ip { s.inode ip with isPipe := true }) := by
  refine ⟨h.filps, fun i => ?_, fun i hi => ?_⟩
  · rw [← show refCount (fileRef s) i = refCount (fileRef
      (s.setNode ip { s.inode ip with isPipe := true })) i from rfl, ← h.inodes i]
    by_cases heq : i = ip
    · simp [State.setNode, heq]
    · simp [State.setNode, heq]
  · by_cases heq : i = ip
    · subst heq
      simp only [State.setNode, update_self] at hi ⊢
      have hflow := h.flow i hi
      exact ⟨hflow.inside, hflow.stream⟩
    · simp only [State.setNode, update_of_ne heq] at hi ⊢
      exact h.flow i hi

theorem pipeOpen_pending (who : ProcNr) (h : Pending ip s) (call : OpenCall) (fd : Fd) :
    Pending ip (pipeOpen s who ip call fd).1 ∧
      desc (pipeOpen s who ip call fd).1 = desc s ∧ (pipeOpen s who ip call fd).1.filp = s.filp := by
  unfold pipeOpen
  simp only
  split
  · split
    · exact ⟨h, rfl, rfl⟩
    · have hcalm := suspend_calm s who .xopen ⟨call.nr, fd, 0, fun _ => 0⟩
      exact ⟨(h.of_calm hcalm).markPipe, hcalm.desc, hcalm.filp⟩
  · have hcalm := wakeOpeners_calm s ip
    exact ⟨(h.of_calm hcalm).markPipe, hcalm.desc, hcalm.filp⟩

/-- "Claim the file descriptor and filp slot and fill them in." -/
theorem Pending.claim (h : Pending ip s) (hfd : (s.fproc who).filp fd = none)
    (hf : (s.filp f).count = 0) {x : OpenFile} (hcount : x.count = 1) (hino : x.ino = ip) :
    FifosOk ((s.link who fd (some f)).setFilp f x) := by
  refine ⟨⟨fun g => ?_, fun i => ?_⟩, h.flow⟩
  · have hup := refCount_update (desc s) (who, fd) (some f) g
    rw [show desc s (who, fd) = none from hfd, refOf_none] at hup
    have hd : desc ((s.link who fd (some f)).setFilp f x) =
        update (desc s) (who, fd) (some f) := desc_link s who fd (some f)
    have hold := h.filps g
    rw [hd]
    by_cases hg : g = f
    · subst hg
      rw [refOf_self] at hup
      have hself : ((s.link who fd (some g)).setFilp g x).filp g = x := update_self ..
      rw [hself, hcount]
      omega
    · rw [refOf_of_ne (Ne.symm hg)] at hup
      have hother : ((s.link who fd (some f)).setFilp f x).filp g = s.filp g :=
        update_of_ne hg ..
      rw [hother]
      omega
  · have href : fileRef ((s.link who fd (some f)).setFilp f x) =
        update (fileRef s) f (some ip) := by
      rw [fileRef_setFilp, hcount, hino]
      rfl
    have hup := refCount_update (fileRef s) f (some ip) i
    rw [show fileRef s f = none from if_pos hf, refOf_none] at hup
    show (s.inode i).count = _
    rw [href, h.inodes i]
    by_cases hi : i = ip
    · rw [hi, refOf_self] at hup
      rw [hi, if_pos rfl]
      omega
    · rw [refOf_of_ne (Ne.symm hi)] at hup
      rw [if_neg hi]
      omega

theorem commonOpen_ok (hs : FifosOk s) (who : ProcNr) (call : OpenCall) :
    FifosOk (commonOpen s who call).1 := by
  unfold commonOpen
  split
  · exact hs
  · next fd f hget =>
    obtain ⟨hfd, hf⟩ := getFd_ok hget
    simp only
    set s₁ := s.setFilp f
      { s.filp f with mode := call.bits, pos := 0, nonblock := false, append := false } with hs1
    have hs1' : FifosOk s₁ := by
      refine ⟨hs.tables.of_counts rfl (fun g => ?_) (fun g => ?_) fun _ => rfl, hs.flow⟩
      · by_cases hg : g = f
        · simp [hs1, State.setFilp, hg]
        · simp [hs1, State.setFilp, hg]
      · by_cases hg : g = f
        · simp [hs1, State.setFilp, hg]
        · simp [hs1, State.setFilp, hg]
    have hf1 : (s₁.filp f).count = 0 := by simp [hs1, State.setFilp, hf]
    split
    · exact hs1'
    · next ip hfound =>
      have hpend := getInode_pending hs1' ip
      split
      · exact hpend.put
      · obtain ⟨hopen, hdesc, hfilp⟩ := pipeOpen_pending who hpend call fd
        split
        · exact hopen.put
        · refine hopen.claim ?_ ?_ rfl rfl
          · exact (congrFun hdesc (who, fd)).trans hfd
          · rw [hfilp]
            exact hf1

end Open

end LisaMinix.Fs.Fifo
