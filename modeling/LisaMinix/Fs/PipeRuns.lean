import LisaMinix.Fs.PipeStream

/-!
# Pipes along Every Run of the File Server

The calls that make, share and close the ends of pipes keep the invariant, and so does every
turn of the main loop.  From this follows what a pipe guarantees to its users
(`pipe_stream`).
-/

namespace LisaMinix.Fs

open LisaMinix.Mm (ProcNr nrProcs)
open LisaMinix.Library Function

/-! ## §1 Counting references -/

section Counting

variable {s s' : FsState} {who : ProcNr} {x : Fproc} {fd : Fd} {f g : FilpNr}

theorem held_congr {y : Fproc} (h : y.filp = x.filp) : held y g = held x g := by
  unfold held
  rw [h]

/-- The references change by those of the one process whose descriptors change. -/
theorem refs_of_others (s s' : FsState) (who : ProcNr)
    (h : ∀ p, p ≠ who → (s'.fproc p).filp = (s.fproc p).filp) (g : FilpNr) :
    refs s' g + held (s.fproc who) g = refs s g + held (s'.fproc who) g := by
  have hsplit : ∀ t : FsState, refs t g =
      held (t.fproc who) g + ∑ p ∈ Finset.univ.erase who, held (t.fproc p) g := fun t =>
    (Finset.add_sum_erase _ (fun p => held (t.fproc p) g) (Finset.mem_univ who)).symm
  have hrest : ∑ p ∈ Finset.univ.erase who, held (s'.fproc p) g =
      ∑ p ∈ Finset.univ.erase who, held (s.fproc p) g :=
    Finset.sum_congr rfl fun p hp => held_congr (h p (Finset.ne_of_mem_erase hp))
  rw [hsplit s', hsplit s, hrest]
  ring

/-- A descriptor is closed. -/
theorem held_of_closed {y : Fproc} (hfd : x.filp fd = some f) (hy : y.filp = update x.filp fd none)
    (g : FilpNr) : held x g = held y g + if g = f then 1 else 0 := by
  by_cases hg : g = f
  · rw [if_pos hg]
    refine countP_succ (List.nodup_finRange openMax) (List.mem_finRange fd) ?_ ?_ fun d hd => ?_
    · simp [hfd, hg]
    · simp [hy]
    · simp [hy, hd]
  · rw [if_neg hg, Nat.add_zero]
    refine List.countP_congr fun d _ => ?_
    by_cases hd : d = fd
    · simp [hd, hfd, hy, Ne.symm hg]
    · simp [hy, hd]

/-- A descriptor is opened. -/
theorem held_of_opened {y : Fproc} (hfd : x.filp fd = none)
    (hy : y.filp = update x.filp fd (some f)) (g : FilpNr) :
    held y g = held x g + if g = f then 1 else 0 := by
  have hback : x.filp = update y.filp fd none := by
    rw [hy, update_idem, ← hfd, update_eq_self]
  exact held_of_closed (by simp [hy]) hback g

end Counting

/-! ## §2 Close -/

section Close

variable {s s' : FsState} {who : ProcNr} {fd : Fd} {f : FilpNr}

/-- `s'` is `s` without the descriptor `fd` of `who`, which referred to `f`. -/
structure Closed (who : ProcNr) (fd : Fd) (f : FilpNr) (s s' : FsState) : Prop where
  others : ∀ p, p ≠ who → s'.fproc p = s.fproc p
  self : s'.fproc who = { s.fproc who with filp := update (s.fproc who).filp fd none }
  filp : s'.filp = update s.filp f { s.filp f with count := (s.filp f).count - 1 }
  inode : s'.inode = if (s.filp f).count = 1 then (putInode s (s.filp f).ino).inode else s.inode
  suspCount : s'.suspCount = s.suspCount
  reviving : s'.reviving = s.reviving
  elsewhere : s'.elsewhere = s.elsewhere

variable {g : FilpNr}

theorem Closed.filp_of_ne (h : Closed who fd f s s') (hg : g ≠ f) : s'.filp g = s.filp g := by
  rw [h.filp, update_of_ne hg]

theorem Closed.filp_self (h : Closed who fd f s s') :
    s'.filp f = { s.filp f with count := (s.filp f).count - 1 } := by
  rw [h.filp, update_self]

theorem Closed.mode (h : Closed who fd f s s') (g : FilpNr) : (s'.filp g).mode = (s.filp g).mode := by
  by_cases hg : g = f
  · rw [hg, h.filp_self]
  · rw [h.filp_of_ne hg]

theorem Closed.ino (h : Closed who fd f s s') (g : FilpNr) : (s'.filp g).ino = (s.filp g).ino := by
  by_cases hg : g = f
  · rw [hg, h.filp_self]
  · rw [h.filp_of_ne hg]

theorem Closed.pos (h : Closed who fd f s s') (g : FilpNr) : (s'.filp g).pos = (s.filp g).pos := by
  by_cases hg : g = f
  · rw [hg, h.filp_self]
  · rw [h.filp_of_ne hg]

/-- A filp that is in use was in use before. -/
theorem Closed.count_ne_zero (h : Closed who fd f s s') (hg : (s'.filp g).count ≠ 0) :
    (s.filp g).count ≠ 0 := by
  by_cases hgf : g = f
  · rw [hgf, h.filp_self] at hg
    rw [hgf]
    simp only at hg
    omega
  · rwa [h.filp_of_ne hgf] at hg

theorem Closed.tableOk (h : Closed who fd f s s') (ht : TableOk s)
    (hfd : (s.fproc who).filp fd = some f) : TableOk s' where
  counts g := by
    have hrefs := refs_of_others s s' who (fun p hp => by rw [h.others p hp]) g
    have hheld := held_of_closed hfd (y := s'.fproc who) (by rw [h.self]) g
    have hcount := ht.counts g
    have hne := ht.count_ne_zero hfd
    by_cases hg : g = f
    · rw [if_pos hg] at hheld
      rw [hg] at hrefs hheld hcount ⊢
      rw [h.filp_self]
      simp only
      omega
    · rw [if_neg hg] at hheld
      rw [h.filp_of_ne hg]
      omega
  unique g g' hg hg' := by
    rw [h.ino, h.ino, h.mode, h.mode]
    exact ht.unique g g' (h.count_ne_zero hg) (h.count_ne_zero hg')
  icount i := by
    have hne := ht.count_ne_zero hfd
    have hi := ht.icount i
    by_cases hlast : (s.filp f).count = 1
    · -- the last descriptor of this filp: its inode has one user less
      have hzero : (s'.filp f).count = 0 := by
        rw [h.filp_self]
        simp [hlast]
      rw [h.inode, if_pos hlast]
      by_cases hino : i = (s.filp f).ino
      · have hends : ends s i = ends s' i + 1 := by
          refine countP_succ (List.nodup_finRange nrFilps) (List.mem_finRange f) ?_ ?_ fun g hg => ?_
          · simp [hne, hino]
          · simp [hzero]
          · rw [h.filp_of_ne hg]
        rw [hino] at hi hends ⊢
        simp only [putInode, FsState.setInode, update_self]
        omega
      · have hends : ends s' i = ends s i := by
          refine List.countP_congr fun g _ => ?_
          by_cases hg : g = f
          · rw [hg, h.filp_self]
            simp [Ne.symm hino]
          · rw [h.filp_of_ne hg]
        rw [hends]
        simp only [putInode, FsState.setInode, update_of_ne hino]
        exact hi
    · have hends : ends s' i = ends s i := by
        refine List.countP_congr fun g _ => ?_
        by_cases hg : g = f
        · rw [hg, h.filp_self]
          have : (s.filp f).count - 1 ≠ 0 := by omega
          simp [this, hne]
        · rw [h.filp_of_ne hg]
      rw [h.inode, if_neg hlast, hends]
      exact hi

/-- The size of a pipe changes only when nobody uses it any more. -/
theorem Closed.inode_eq (h : Closed who fd f s s') (ht : TableOk s)
    (hfd : (s.fproc who).filp fd = some f) (hg : (s'.filp g).count ≠ 0) :
    (s'.inode (s.filp g).ino).size = (s.inode (s.filp g).ino).size := by
  rw [h.inode]
  split
  · next hlast =>
    by_cases hino : (s.filp g).ino = (s.filp f).ino
    · have hne := ht.count_ne_zero hfd
      have hgf : g ≠ f := fun heq => by
        rw [heq, h.filp_self] at hg
        simp only at hg
        omega
      -- both ends are still counted
      have htwo : 2 ≤ (s.inode (s.filp f).ino).count := by
        rw [ht.icount, ends]
        have hg' := h.count_ne_zero hg
        have hsub : List.Subperm [f, g] ((List.finRange nrFilps).filter fun k =>
            (s.filp k).count != 0 && (s.filp k).ino == (s.filp f).ino) := by
          refine (List.nodup_cons.mpr ⟨by simpa using Ne.symm hgf, List.nodup_singleton g⟩).subperm ?_
          intro k hk
          simp only [List.mem_cons, List.not_mem_nil, or_false] at hk
          rcases hk with rfl | rfl
          · simp [hne]
          · simp [hg', hino]
        rw [List.countP_eq_length_filter]
        exact hsub.length_le
      rw [hino]
      simp only [putInode, FsState.setInode, update_self]
      rw [if_neg (by omega)]
    · simp [putInode, FsState.setInode, hino]
  · rfl

/-- Neither contents nor history of a pipe change. -/
theorem Closed.inode_history (h : Closed who fd f s s') (i : InodeNr) :
    (s'.inode i).sent = (s.inode i).sent ∧ (s'.inode i).received = (s.inode i).received ∧
      (s'.inode i).data = (s.inode i).data ∧
      ((s'.inode i).size = (s.inode i).size ∨ (s'.inode i).size = 0) := by
  rw [h.inode]
  split
  · by_cases hi : i = (s.filp f).ino
    · rw [hi]
      simp only [putInode, FsState.setInode, update_self, true_and]
      split
      · exact .inr rfl
      · exact .inl rfl
    · simp [putInode, FsState.setInode, hi]
  · exact ⟨rfl, rfl, rfl, .inl rfl⟩

theorem Closed.dataOk (h : Closed who fd f s s') (ht : TableOk s) (hd : DataOk s)
    (hfd : (s.fproc who).filp fd = some f) : DataOk s' where
  size i := by
    have := hd.size i
    rcases (h.inode_history i).2.2.2 with heq | heq
    · rw [heq]
      exact this
    · rw [heq]
      exact Nat.zero_le _
  writer g hg hm := by
    have hsize := h.inode_eq ht hfd hg
    rw [h.mode] at hm
    rw [h.pos, h.ino, hsize]
    exact hd.writer g (h.count_ne_zero hg) hm
  reader g hg hm := by
    have hsize := h.inode_eq ht hfd hg
    obtain ⟨hsent, hrecv, hdata, -⟩ := h.inode_history (s.filp g).ino
    rw [h.mode] at hm
    rw [h.pos, h.ino]
    obtain ⟨hin, hstream⟩ := hd.reader g (h.count_ne_zero hg) hm
    refine ⟨by rw [hsize]; exact hin, ?_⟩
    unfold sentBytes at hstream ⊢
    rw [hsent, hrecv, hdata, hsize]
    exact hstream
  order i := by
    obtain ⟨hsent, hrecv, -, -⟩ := h.inode_history i
    have := hd.order i
    unfold sentBytes at this ⊢
    rw [hsent, hrecv]
    exact this
  pieces i := by
    rw [(h.inode_history i).1]
    exact hd.pieces i

/-- The caller, which does not hang, has changed what it has open; the others hang where they did. -/
structure OthersHang (who : ProcNr) (s s' : FsState) : Prop where
  others : ∀ p, p ≠ who → s'.fproc p = s.fproc p
  before : (s.fproc who).suspended = false
  after : (s'.fproc who).suspended = false ∧ (s'.fproc who).revived = (s.fproc who).revived
  filp : ∀ p fd g, (s.fproc p).filp fd = some g →
    (s'.filp g).mode = (s.filp g).mode ∧ (s'.filp g).ino = (s.filp g).ino
  suspCount : s'.suspCount = s.suspCount
  reviving : s'.reviving = s.reviving
  elsewhere : s'.elsewhere = s.elsewhere

theorem OthersHang.flags (h : OthersHang who s s') (p : ProcNr) :
    (s'.fproc p).suspended = (s.fproc p).suspended ∧ (s'.fproc p).revived = (s.fproc p).revived := by
  by_cases hp : p = who
  · rw [hp, h.before]
    exact h.after
  · rw [h.others p hp]
    exact ⟨rfl, rfl⟩

theorem OthersHang.hangsOn (h : OthersHang who s s') (i : InodeNr) (rw : Rw) (p : ProcNr) :
    Fs.hangsOn s' i rw p = Fs.hangsOn s i rw p := by
  by_cases hp : p = who
  · rw [hp, Fs.hangsOn, Fs.hangsOn]
    simp [h.before, h.after.1]
  · refine hangsOn_congr (h.others p hp) fun g hg => ?_
    rw [h.others p hp] at hg
    exact (h.filp p _ g hg).2

theorem OthersHang.waitOk (h : OthersHang who s s') (hw : WaitOk s)
    (hempty : ∀ i, (s.inode i).size = 0 → (s'.inode i).size = 0) : WaitOk s' where
  saved p hp := by
    rw [(h.flags p).1] at hp
    have hpw : p ≠ who := fun heq => by
      rw [heq, h.before] at hp
      exact absurd hp (by decide)
    rw [h.others p hpw]
    obtain ⟨g, hg, hm⟩ := hw.saved p hp
    exact ⟨g, hg, by rw [(h.filp p _ g hg).1, hm]⟩
  revived p hp := by
    rw [(h.flags p).2] at hp
    rw [(h.flags p).1]
    exact hw.revived p hp
  susp := by
    have hcount : waitCount s' = waitCount s :=
      List.countP_congr fun p _ => by rw [waits, waits, (h.flags p).1, (h.flags p).2]
    rw [h.suspCount, h.elsewhere, hcount]
    exact hw.susp
  reviving := by
    have hcount : revivedCount s' = revivedCount s :=
      List.countP_congr fun p _ => by rw [(h.flags p).2]
    rw [h.reviving, hcount]
    exact hw.reviving
  empty i p hp := by
    rw [h.hangsOn] at hp
    exact hempty i (hw.empty i p hp)
  apart i p q hp := by
    rw [h.hangsOn] at hp ⊢
    exact hw.apart i p q hp

theorem Closed.othersHang (h : Closed who fd f s s') (hwho : (s.fproc who).suspended = false) :
    OthersHang who s s' where
  others := h.others
  before := hwho
  after := by
    rw [h.self]
    exact ⟨hwho, rfl⟩
  filp _ _ g _ := ⟨h.mode g, h.ino g⟩
  suspCount := h.suspCount
  reviving := h.reviving
  elsewhere := h.elsewhere

theorem Closed.waitOk (h : Closed who fd f s s') (hw : WaitOk s)
    (hwho : (s.fproc who).suspended = false) : WaitOk s' := by
  refine (h.othersHang hwho).waitOk hw fun i hi => ?_
  rcases (h.inode_history i).2.2.2 with heq | heq
  · rw [heq, hi]
  · exact heq

theorem dropFd_closed (who : ProcNr) (fd : Fd) (hne : (s.filp f).count ≠ 0) :
    Closed who fd f s (dropFd s who fd f) := by
  unfold dropFd
  simp only
  set s₁ := s.setFilp f { s.filp f with count := (s.filp f).count - 1 } with hs1
  have hself : (s₁.filp f).count = (s.filp f).count - 1 := by simp [hs1, FsState.setFilp]
  set s₂ := if (s₁.filp f).count = 0 then putInode s₁ (s.filp f).ino else s₁ with hs2
  -- `put_inode` touches the inode only
  have hsame : s₂.fproc = s.fproc ∧ s₂.filp = s₁.filp ∧ s₂.suspCount = s.suspCount ∧
      s₂.reviving = s.reviving ∧ s₂.elsewhere = s.elsewhere := by
    rw [hs2]
    split <;> exact ⟨rfl, rfl, rfl, rfl, rfl⟩
  obtain ⟨hproc, hfilp, hsusp, hrev, helse⟩ := hsame
  refine ⟨fun p hp => ?_, ?_, hfilp, ?_, hsusp, hrev, helse⟩
  · simp [FsState.setProc, hp, hproc]
  · simp [FsState.setProc, hproc]
  · show s₂.inode = _
    rw [hs2, hself]
    by_cases hlast : (s.filp f).count = 1
    · rw [if_pos hlast, if_pos (by omega)]
      rfl
    · rw [if_neg hlast, if_neg (by omega)]
      rfl

/-- **`do_close` keeps the invariant**, and the process does not become suspended. -/
theorem doClose_ok (h : PipesOk s) (hwho : (s.fproc who).suspended = false) (fd : Fd) :
    PipesOk (doClose s who fd).1 ∧ ((doClose s who fd).1.fproc who).suspended = false ∧
      ((doClose s who fd).1.fproc who).filp = update (s.fproc who).filp fd none := by
  unfold doClose
  cases hfd : (s.fproc who).filp fd with
  | none =>
    refine ⟨h, hwho, ?_⟩
    show (s.fproc who).filp = _
    rw [← hfd, update_eq_self]
  | some f =>
    simp only
    rw [release_nrProcs]
    set s₁ := releasedAll s (s.filp f).ino (otherEnd (s.filp f).mode) with hs1
    have h₁ : PipesOk s₁ := h.releasedAll _ _
    have hfilp1 : (s₁.fproc who).filp = (s.fproc who).filp := releasedAll_filp _ _ who
    have hfd₁ : (s₁.fproc who).filp fd = some f := by rw [hfilp1, hfd]
    have hwho1 : (s₁.fproc who).suspended = false := by
      rw [hs1, releasedAll_fproc]
      split <;> exact hwho
    have hclosed := dropFd_closed who fd (h₁.table.count_ne_zero hfd₁)
    refine ⟨⟨hclosed.dataOk h₁.table h₁.data hfd₁, hclosed.tableOk h₁.table hfd₁,
      hclosed.waitOk h₁.wait hwho1⟩, ?_, ?_⟩
    · rw [hclosed.self]
      exact hwho1
    · rw [hclosed.self, hfilp1]

end Close

/-! ## §3 Dup, fork and exit -/

section Share

variable {s s' : FsState} {who : ProcNr} {fd : Fd} {f : FilpNr}

/-- The process `who` gets other descriptors, of filps that are in use, and these are
recounted. -/
structure Recounted (who : ProcNr) (s s' : FsState) : Prop where
  others : ∀ p, p ≠ who → s'.fproc p = s.fproc p
  before : (s.fproc who).suspended = false
  after : (s'.fproc who).suspended = false ∧ (s'.fproc who).revived = false
  count : ∀ g, (s'.filp g).count + held (s.fproc who) g = (s.filp g).count + held (s'.fproc who) g
  inUse : ∀ g, (s'.filp g).count ≠ 0 ↔ (s.filp g).count ≠ 0
  mode : ∀ g, (s'.filp g).mode = (s.filp g).mode
  ino : ∀ g, (s'.filp g).ino = (s.filp g).ino
  pos : ∀ g, (s'.filp g).pos = (s.filp g).pos
  inode : s'.inode = s.inode
  suspCount : s'.suspCount = s.suspCount
  reviving : s'.reviving = s.reviving
  elsewhere : s'.elsewhere = s.elsewhere

theorem Recounted.tableOk (h : Recounted who s s') (ht : TableOk s) : TableOk s' where
  counts g := by
    have hrefs := refs_of_others s s' who (fun p hp => by rw [h.others p hp]) g
    have hcount := h.count g
    have hold := ht.counts g
    omega
  unique g g' hg hg' := by
    rw [h.ino, h.ino, h.mode, h.mode]
    exact ht.unique g g' ((h.inUse g).mp hg) ((h.inUse g').mp hg')
  icount i := by
    have hends : ends s' i = ends s i := by
      refine List.countP_congr fun g _ => ?_
      rw [h.ino]
      have := h.inUse g
      simp only [Bool.and_eq_true, bne_iff_ne, this]
    rw [h.inode, hends]
    exact ht.icount i

theorem Recounted.dataOk (h : Recounted who s s') (hd : DataOk s) : DataOk s' where
  size i := by rw [h.inode]; exact hd.size i
  writer g hg hm := by
    rw [h.mode] at hm
    rw [h.pos, h.ino, h.inode]
    exact hd.writer g ((h.inUse g).mp hg) hm
  reader g hg hm := by
    rw [h.mode] at hm
    rw [h.pos, h.ino, h.inode]
    exact hd.reader g ((h.inUse g).mp hg) hm
  order i := by rw [h.inode]; exact hd.order i
  pieces i := by rw [h.inode]; exact hd.pieces i

theorem Recounted.waitOk (h : Recounted who s s') (hw : WaitOk s) : WaitOk s' := by
  refine OthersHang.waitOk ⟨h.others, h.before, ⟨h.after.1, ?_⟩, fun _ _ g _ => ⟨h.mode g, h.ino g⟩,
    h.suspCount, h.reviving, h.elsewhere⟩ hw fun i hi => ?_
  · rw [h.after.2, hw.not_revived h.before]
  · rw [h.inode, hi]

theorem Recounted.ok (h : Recounted who s s') (hs : PipesOk s) : PipesOk s' :=
  ⟨h.dataOk hs.data, h.tableOk hs.table, h.waitOk hs.wait⟩

/-- One more descriptor for a filp that is in use. -/
theorem link_recounted (h : PipesOk s) (hwho : (s.fproc who).suspended = false)
    (hfree : (s.fproc who).filp fd = none) (hf : (s.filp f).count ≠ 0) :
    Recounted who s ((s.setFilp f { s.filp f with count := (s.filp f).count + 1 }).link who fd f) := by
  set s' := (s.setFilp f { s.filp f with count := (s.filp f).count + 1 }).link who fd f with hs'
  have hself : s'.fproc who =
      { s.fproc who with filp := update (s.fproc who).filp fd (some f) } := by
    simp [hs', FsState.link, FsState.setProc, FsState.setFilp]
  have hfilp : ∀ g, s'.filp g =
      if g = f then { s.filp f with count := (s.filp f).count + 1 } else s.filp g := by
    intro g
    simp [hs', FsState.link, FsState.setProc, FsState.setFilp, update_apply]
  constructor
  case others =>
    intro p hp
    simp [hs', FsState.link, FsState.setProc, FsState.setFilp, hp]
  case before => exact hwho
  case after =>
    rw [hself]
    exact ⟨hwho, h.wait.not_revived hwho⟩
  case count =>
    intro g
    have hheld := held_of_opened hfree (y := s'.fproc who) (by rw [hself]) g
    rw [hfilp g]
    by_cases hg : g = f
    · rw [if_pos hg] at hheld ⊢
      rw [hg] at hheld ⊢
      simp only
      omega
    · rw [if_neg hg] at hheld ⊢
      omega
  case inUse =>
    intro g
    rw [hfilp g]
    by_cases hg : g = f
    · simp [hg, hf]
    · simp [hg]
  case mode =>
    intro g
    rw [hfilp g]
    split
    · next hg => rw [hg]
    · rfl
  case ino =>
    intro g
    rw [hfilp g]
    split
    · next hg => rw [hg]
    · rfl
  case pos =>
    intro g
    rw [hfilp g]
    split
    · next hg => rw [hg]
    · rfl
  case inode => rfl
  case suspCount => rfl
  case reviving => rfl
  case elsewhere => rfl

theorem getFd_ok {p : ProcNr} (h : getFd s p = .ok (fd, f)) :
    (s.fproc p).filp fd = none ∧ (s.filp f).count = 0 := by
  unfold getFd at h
  split at h
  · exact absurd h (by simp)
  next d hd =>
  split at h
  · exact absurd h (by simp)
  next g hg =>
  simp only [Except.ok.injEq, Prod.mk.injEq] at h
  obtain ⟨rfl, rfl⟩ := h
  have h₁ := List.find?_some hd
  have h2 := List.find?_some hg
  exact ⟨by simpa using h₁, by simpa using h2⟩

theorem doDup_ok (h : PipesOk s) (hwho : (s.fproc who).suspended = false) (fd : Fd) (fd2 : Option Fd) :
    PipesOk (doDup s who fd fd2).1 := by
  unfold doDup
  cases hfd : (s.fproc who).filp fd with
  | none => exact h
  | some f =>
    simp only
    cases fd2 with
    | none =>
      simp only
      cases hget : getFd s who with
      | error e => exact h
      | ok r =>
        obtain ⟨d, g⟩ := r
        exact (link_recounted h hwho (getFd_ok hget).1 (h.table.count_ne_zero hfd)).ok h
    | some d =>
      simp only
      split
      · exact h
      · next hne =>
        obtain ⟨hok, hwho', hfilp⟩ := doClose_ok h hwho d
        have hfd' : ((doClose s who d).1.fproc who).filp fd = some f := by
          rw [hfilp, update_of_ne hne, hfd]
        have hfree : ((doClose s who d).1.fproc who).filp d = none := by
          rw [hfilp, update_self]
        exact (link_recounted hok hwho' hfree (hok.table.count_ne_zero hfd')).ok hok

/-- The loop of `do_fork` counts each descriptor of the child once. -/
theorem foldl_countFilp (cp : Fproc) (l : List Fd) (s : FsState) :
    ∃ s', l.foldl (countFilp cp) s = s' ∧ s'.fproc = s.fproc ∧ s'.inode = s.inode ∧
      s'.suspCount = s.suspCount ∧ s'.reviving = s.reviving ∧ s'.elsewhere = s.elsewhere ∧
      ∀ g, s'.filp g = { s.filp g with
        count := (s.filp g).count + l.countP fun fd => cp.filp fd == some g } := by
  induction l generalizing s with
  | nil => exact ⟨s, rfl, rfl, rfl, rfl, rfl, rfl, fun g => by simp⟩
  | cons fd l ih =>
    obtain ⟨s', hrun, hproc, hinode, hsusp, hrev, helse, hfilp⟩ := ih (countFilp cp s fd)
    refine ⟨s', hrun, ?_⟩
    cases hfd : cp.filp fd with
    | none =>
      have hstep : countFilp cp s fd = s := by simp [countFilp, hfd]
      rw [hstep] at hproc hinode hsusp hrev helse hfilp
      refine ⟨hproc, hinode, hsusp, hrev, helse, fun g => ?_⟩
      rw [hfilp g, List.countP_cons, hfd]
      rfl
    | some f =>
      have hstep : countFilp cp s fd = s.setFilp f { s.filp f with count := (s.filp f).count + 1 } := by
        simp [countFilp, hfd]
      rw [hstep] at hproc hinode hsusp hrev helse hfilp
      refine ⟨hproc, hinode, hsusp, hrev, helse, fun g => ?_⟩
      rw [hfilp g, List.countP_cons, hfd]
      by_cases hg : g = f
      · subst hg
        simp [FsState.setFilp]
        omega
      · simp [FsState.setFilp, hg, Ne.symm hg]

/-- **`do_fork` keeps the invariant**, for a child slot that is not in use. -/
theorem doFork_ok (h : PipesOk s) {child : ProcNr} (hwho : (s.fproc who).suspended = false)
    (hchild : (s.fproc child).suspended = false) (hfree : ∀ fd, (s.fproc child).filp fd = none) :
    PipesOk (doFork s who child) := by
  obtain ⟨s', hrun, hproc, hinode, hsusp, hrev, helse, hfilp⟩ :=
    foldl_countFilp (s.fproc who) (List.finRange openMax) (s.setProc child (s.fproc who))
  have hself : s'.fproc child = s.fproc who := by
    rw [hproc]
    simp [FsState.setProc]
  have hnone : ∀ g, held (s.fproc child) g = 0 := fun g =>
    List.countP_eq_zero.mpr fun fd _ => by simp [hfree fd]
  have hcount : ∀ g, (s'.filp g).count = (s.filp g).count + held (s.fproc who) g := fun g => by
    rw [hfilp g]
    rfl
  have hdef : doFork s who child = s' := hrun
  rw [hdef]
  suffices hre : Recounted child s s' from hre.ok h
  constructor
  case others =>
    intro p hp
    rw [hproc]
    simp [FsState.setProc, hp]
  case before => exact hchild
  case after =>
    rw [hself]
    exact ⟨hwho, h.wait.not_revived hwho⟩
  case count =>
    intro g
    rw [hcount g, hself, hnone g]
    rfl
  case inUse =>
    intro g
    rw [hcount g]
    refine ⟨fun hne hz => ?_, fun hne => by omega⟩
    -- a filp that the parent holds was in use already
    have hheld : 0 < held (s.fproc who) g := by omega
    obtain ⟨fd, -, hfd⟩ := List.countP_pos_iff.mp hheld
    exact h.table.count_ne_zero (beq_iff_eq.mp hfd) hz
  case mode =>
    intro g
    rw [hfilp g]
    rfl
  case ino =>
    intro g
    rw [hfilp g]
    rfl
  case pos =>
    intro g
    rw [hfilp g]
    rfl
  case inode => exact hinode
  case suspCount => exact hsusp
  case reviving => exact hrev
  case elsewhere => exact helse

theorem setFl_ok (h : PipesOk s) (hwho : (s.fproc who).suspended = false) (fd : Fd)
    (nonblock append : Bool) : PipesOk (setFl s who fd nonblock append).1 := by
  unfold setFl
  cases (s.fproc who).filp fd with
  | none => exact h
  | some f =>
    simp only
    set s' := s.setFilp f { s.filp f with nonblock := nonblock, append := append } with hs'
    have hfilp : ∀ g, (s'.filp g).count = (s.filp g).count ∧ (s'.filp g).mode = (s.filp g).mode ∧
        (s'.filp g).ino = (s.filp g).ino ∧ (s'.filp g).pos = (s.filp g).pos := by
      intro g
      by_cases hg : g = f
      · simp [hs', FsState.setFilp, hg]
      · simp [hs', FsState.setFilp, hg]
    have hre : Recounted who s s' := by
      refine ⟨fun _ _ => rfl, hwho, ⟨hwho, h.wait.not_revived hwho⟩, fun g => ?_, fun g => ?_,
        fun g => (hfilp g).2.1, fun g => (hfilp g).2.2.1, fun g => (hfilp g).2.2.2, rfl, rfl, rfl, rfl⟩
      · rw [(hfilp g).1]
        rfl
      · rw [(hfilp g).1]
    exact hre.ok h

/-- The loop of `do_exit` over the descriptors. -/
theorem closeAll_ok (l : List Fd) (h : PipesOk s) (hwho : (s.fproc who).suspended = false) :
    PipesOk (l.foldl (fun s fd => (doClose s who fd).1) s) := by
  induction l generalizing s with
  | nil => exact h
  | cons fd l ih =>
    obtain ⟨hok, hwho', -⟩ := doClose_ok h hwho fd
    exact ih hok hwho'

/-- **`do_exit` keeps the invariant**, when nobody is being revived. -/
theorem doExit_ok (h : PipesOk s) (hrev : s.reviving = 0) : PipesOk (doExit s who) := by
  have hnone : (s.fproc who).revived = false := by
    have hzero : revivedCount s = 0 := by
      have := h.wait.reviving
      omega
    have := List.countP_eq_zero.mp hzero who (List.mem_finRange who)
    simpa using this
  unfold doExit
  simp only
  apply closeAll_ok
  · split
    · next hs =>
      -- the process hangs no more, and is not counted any more
      set s' : FsState := { s.setProc who { s.fproc who with suspended := false } with
        suspCount := s.suspCount - 1 } with hs'
      have hself : s'.fproc who = { s.fproc who with suspended := false } := by
        simp [hs', FsState.setProc]
      have hother : ∀ p, p ≠ who → s'.fproc p = s.fproc p := by
        intro p hp
        simp [hs', FsState.setProc, hp]
      have hquiet : Quiet who s s' := ⟨hother, by rw [hself]; exact ⟨rfl, hnone⟩, rfl, rfl, rfl⟩
      have hwait : waitCount s = waitCount s' + 1 := by
        refine countP_succ (List.nodup_finRange nrProcs) (List.mem_finRange who) ?_ ?_ fun p hp => ?_
        · simp [waits, hs, hnone]
        · rw [waits, hself]
          rfl
        · rw [waits, waits, hother p hp]
      have hcount : revivedCount s' = revivedCount s := by
        refine List.countP_congr fun p _ => ?_
        by_cases hp : p = who
        · rw [hp, hself]
        · rw [hother p hp]
      refine ⟨h.data.of_eq rfl rfl, h.table.of_filps rfl rfl fun p => ?_,
        h.wait.of_quiet hquiet ?_ ?_⟩
      · by_cases hp : p = who
        · rw [hp, hself]
        · rw [hother p hp]
      · show s.suspCount - 1 = (waitCount s' : ℤ) + (s.elsewhere : ℤ)
        rw [h.wait.susp, hwait]
        push_cast
        ring
      · rw [hcount]
        exact h.wait.reviving
    · exact h
  · split
    · simp [FsState.setProc]
    · next hs => simpa using hs

end Share

/-! ## §4 A new pipe -/

section NewPipe

variable {s s' : FsState} {who : ProcNr} {fd0 fd1 : Fd} {f0 f1 : FilpNr} {ip : InodeNr}

/-- `s'` is `s` with a new pipe in the inode slot `ip`, whose ends `who` has open. -/
structure Created (who : ProcNr) (f0 f1 : FilpNr) (ip : InodeNr) (s s' : FsState) : Prop where
  others : ∀ p, p ≠ who → s'.fproc p = s.fproc p
  flags : (s'.fproc who).suspended = (s.fproc who).suspended ∧
    (s'.fproc who).revived = (s.fproc who).revived
  held : ∀ g, held (s'.fproc who) g =
    held (s.fproc who) g + (if g = f0 then 1 else 0) + if g = f1 then 1 else 0
  reading : s'.filp f0 = newFilp .reading ip
  writing : s'.filp f1 = newFilp .writing ip
  filp : ∀ g, g ≠ f0 → g ≠ f1 → s'.filp g = s.filp g
  inode : ∀ i, i ≠ ip → s'.inode i = s.inode i
  new : (s'.inode ip).count = 2 ∧ (s'.inode ip).size = 0 ∧ (s'.inode ip).sent = [] ∧
    (s'.inode ip).received = []
  suspCount : s'.suspCount = s.suspCount
  reviving : s'.reviving = s.reviving
  elsewhere : s'.elsewhere = s.elsewhere

/-- The slots that the new pipe gets were not in use. -/
structure Fresh (f0 f1 : FilpNr) (ip : InodeNr) (s : FsState) : Prop where
  ne : f0 ≠ f1
  free0 : (s.filp f0).count = 0
  free1 : (s.filp f1).count = 0
  noEnds : ∀ g, (s.filp g).count ≠ 0 → (s.filp g).ino ≠ ip

/-- A filp is one of the two new ones, or it is as before and belongs to another pipe. -/
theorem Created.filp_cases (h : Created who f0 f1 ip s s') (hf : Fresh f0 f1 ip s)
    (hg : (s'.filp g).count ≠ 0) : g = f0 ∨ g = f1 ∨
      (g ≠ f0 ∧ g ≠ f1 ∧ s'.filp g = s.filp g ∧ (s.filp g).count ≠ 0 ∧ (s.filp g).ino ≠ ip) := by
  by_cases h0 : g = f0
  · exact .inl h0
  by_cases h1 : g = f1
  · exact .inr (.inl h1)
  · have heq := h.filp g h0 h1
    rw [heq] at hg
    exact .inr (.inr ⟨h0, h1, heq, hg, hf.noEnds g hg⟩)

theorem Created.ends_new (h : Created who f0 f1 ip s s') (hf : Fresh f0 f1 ip s) :
    ends s' ip = 2 := by
  have htwo : ends s' ip = (List.finRange nrFilps).countP (fun g => g == f1) + 1 := by
    refine countP_succ (List.nodup_finRange nrFilps) (List.mem_finRange f0) ?_ ?_ fun g hg => ?_
    · simp [h.reading, newFilp]
    · simp [hf.ne]
    · by_cases h1 : g = f1
      · simp [h1, h.writing, newFilp]
      · rw [h.filp g hg h1]
        simp only [beq_eq_false_iff_ne.mpr h1, Bool.and_eq_false_iff, bne_eq_false_iff_eq,
          beq_eq_false_iff_ne]
        by_cases hz : (s.filp g).count = 0
        · exact .inl hz
        · exact .inr (hf.noEnds g hz)
  have hone : (List.finRange nrFilps).countP (fun g => g == f1) =
      (List.finRange nrFilps).countP (fun _ => false) + 1 := by
    refine countP_succ (List.nodup_finRange nrFilps) (List.mem_finRange f1) (by simp) rfl fun g hg => ?_
    simp [hg]
  have hzero : (List.finRange nrFilps).countP (fun _ => false) = 0 := by simp
  omega

theorem Created.tableOk (h : Created who f0 f1 ip s s') (hf : Fresh f0 f1 ip s) (ht : TableOk s) :
    TableOk s' where
  counts g := by
    have hrefs := refs_of_others s s' who (fun p hp => by rw [h.others p hp]) g
    have hheld := h.held g
    have hold := ht.counts g
    by_cases h0 : g = f0
    · have hz := hf.free0
      rw [h0] at hrefs hheld hold ⊢
      rw [h.reading]
      simp only [if_true, if_neg hf.ne] at hheld
      simp only [newFilp]
      omega
    by_cases h1 : g = f1
    · have hz := hf.free1
      rw [h1] at hrefs hheld hold ⊢
      rw [h.writing]
      simp only [if_true, if_neg (Ne.symm hf.ne)] at hheld
      simp only [newFilp]
      omega
    · rw [if_neg h0, if_neg h1] at hheld
      rw [h.filp g h0 h1]
      omega
  unique g g' hg hg' hi hm := by
    have hmodes : ∀ k, (s'.filp k).count ≠ 0 → (s'.filp k).ino = ip →
        k = f0 ∧ (s'.filp k).mode = .reading ∨ k = f1 ∧ (s'.filp k).mode = .writing := by
      intro k hk hki
      rcases h.filp_cases hf hk with rfl | rfl | ⟨-, -, heq, -, hne⟩
      · exact .inl ⟨rfl, by rw [h.reading]; rfl⟩
      · exact .inr ⟨rfl, by rw [h.writing]; rfl⟩
      · rw [heq] at hki
        exact absurd hki hne
    by_cases hip : (s'.filp g).ino = ip
    · -- two ends of the new pipe
      rcases hmodes g hg hip with ⟨rfl, hr⟩ | ⟨rfl, hr⟩ <;>
        rcases hmodes g' hg' (hi ▸ hip) with ⟨rfl, hr'⟩ | ⟨rfl, hr'⟩
      · rfl
      · rw [hr, hr'] at hm
        exact absurd hm (by decide)
      · rw [hr, hr'] at hm
        exact absurd hm (by decide)
      · rfl
    · -- two filps that were there before
      have hold : ∀ k, (s'.filp k).count ≠ 0 → (s'.filp k).ino ≠ ip →
          s'.filp k = s.filp k ∧ (s.filp k).count ≠ 0 := by
        intro k hk hki
        rcases h.filp_cases hf hk with rfl | rfl | ⟨-, -, heq, hne, -⟩
        · rw [h.reading] at hki
          exact absurd rfl hki
        · rw [h.writing] at hki
          exact absurd rfl hki
        · exact ⟨heq, hne⟩
      obtain ⟨heq, hne⟩ := hold g hg hip
      obtain ⟨heq', hne'⟩ := hold g' hg' (hi ▸ hip)
      rw [heq, heq'] at hi hm
      exact ht.unique g g' hne hne' hi hm
  icount i := by
    by_cases hi : i = ip
    · rw [hi, h.ends_new hf, h.new.1]
    · have hends : ends s' i = ends s i := by
        refine List.countP_congr fun g _ => ?_
        by_cases h0 : g = f0
        · simp [h0, h.reading, newFilp, Ne.symm hi, hf.free0]
        by_cases h1 : g = f1
        · simp [h1, h.writing, newFilp, Ne.symm hi, hf.free1]
        · rw [h.filp g h0 h1]
      rw [h.inode i hi, hends]
      exact ht.icount i

theorem Created.dataOk (h : Created who f0 f1 ip s s') (hf : Fresh f0 f1 ip s) (hd : DataOk s) :
    DataOk s' where
  size i := by
    by_cases hi : i = ip
    · rw [hi, h.new.2.1]
      exact Nat.zero_le _
    · rw [h.inode i hi]
      exact hd.size i
  writer g hg hm := by
    rcases h.filp_cases hf hg with rfl | rfl | ⟨-, -, heq, hne, hip⟩
    · rw [h.reading] at hm
      exact absurd hm (by simp [newFilp])
    · rw [h.writing]
      exact h.new.2.1.symm
    · rw [heq] at hm ⊢
      rw [h.inode _ hip]
      exact hd.writer g hne hm
  reader g hg hm := by
    rcases h.filp_cases hf hg with rfl | rfl | ⟨-, -, heq, hne, hip⟩
    · rw [h.reading]
      refine ⟨.inr ⟨rfl, h.new.2.1⟩, ?_⟩
      show sentBytes (s'.inode ip) = (s'.inode ip).received ++ slice _ 0 ((s'.inode ip).size - 0)
      rw [sentBytes, h.new.2.2.1, h.new.2.2.2, h.new.2.1]
      rfl
    · rw [h.writing] at hm
      exact absurd hm (by simp [newFilp])
    · rw [heq] at hm ⊢
      rw [h.inode _ hip]
      exact hd.reader g hne hm
  order i := by
    by_cases hi : i = ip
    · rw [hi, h.new.2.2.2]
      exact ⟨_, rfl⟩
    · rw [h.inode i hi]
      exact hd.order i
  pieces i x hx := by
    by_cases hi : i = ip
    · rw [hi, h.new.2.2.1] at hx
      exact absurd hx (by simp)
    · rw [h.inode i hi] at hx
      exact hd.pieces i x hx

/-- A process that hangs does so on a filp that was there before. -/
theorem Created.saved_filp (h : Created who f0 f1 ip s s') (hf : Fresh f0 f1 ip s) (ht : TableOk s)
    {p : ProcNr} {fd : Fd} (hg : (s.fproc p).filp fd = some g) :
    s'.filp g = s.filp g := by
  have hne := ht.count_ne_zero hg
  refine h.filp g (fun heq => hne ?_) fun heq => hne ?_
  · rw [heq]
    exact hf.free0
  · rw [heq]
    exact hf.free1

theorem Created.waitOk (h : Created who f0 f1 ip s s') (hf : Fresh f0 f1 ip s) (ht : TableOk s)
    (hw : WaitOk s) (hwho : (s.fproc who).suspended = false) : WaitOk s' := by
  refine OthersHang.waitOk ⟨h.others, hwho, ⟨h.flags.1.trans hwho, h.flags.2⟩, fun p fd g hg => ?_,
    h.suspCount, h.reviving, h.elsewhere⟩ hw fun i hi => ?_
  · rw [h.saved_filp hf ht hg]
    exact ⟨rfl, rfl⟩
  · by_cases hip : i = ip
    · rw [hip]
      exact h.new.2.1
    · rw [h.inode i hip, hi]

/-- **`do_pipe` keeps the invariant**, when `alloc_inode` finds a slot that is not in use. -/
theorem doPipe_ok (h : PipesOk s) (hwho : (s.fproc who).suspended = false) {env : Env}
    (henv : ∀ ip, env.newInode = .ok ip → (s.inode ip).count = 0) : PipesOk (doPipe s env who).1 := by
  unfold doPipe
  cases hget : getFd s who with
  | error e => exact h
  | ok r =>
    obtain ⟨fd0, f0⟩ := r
    simp only
    set s₁ := (s.setFilp f0 { s.filp f0 with mode := .reading, count := 1 }).link who fd0 f0 with hs1
    cases hget' : getFd s₁ who with
    | error e => exact h
    | ok r' =>
      obtain ⟨fd1, f1⟩ := r'
      simp only
      cases hino : env.newInode with
      | error e => exact h
      | ok ip =>
        simp only
        obtain ⟨hfd0, hf0⟩ := getFd_ok hget
        obtain ⟨hfd1, hf1⟩ := getFd_ok hget'
        have hproc1 : (s₁.fproc who).filp = update (s.fproc who).filp fd0 (some f0) := by
          simp [hs1, FsState.link, FsState.setProc, FsState.setFilp]
        -- the second search finds something else than the first
        have hne : f0 ≠ f1 := fun heq => by
          rw [← heq] at hf1
          simp [hs1, FsState.link, FsState.setProc, FsState.setFilp] at hf1
        have hf1' : (s.filp f1).count = 0 := by
          simpa [hs1, FsState.link, FsState.setProc, FsState.setFilp, Ne.symm hne] using hf1
        have hnoEnds : ∀ g, (s.filp g).count ≠ 0 → (s.filp g).ino ≠ ip := by
          intro g hg hgi
          have hzero : ends s ip = 0 := by rw [← h.table.icount, henv ip hino]
          have := List.countP_eq_zero.mp hzero g (List.mem_finRange g)
          simp [hg, hgi] at this
        have hfresh : Fresh f0 f1 ip s := ⟨hne, hf0, hf1', hnoEnds⟩
        set s' := (((((s.setFilp f0 (newFilp .reading ip)).setFilp f1 (newFilp .writing ip)).link who
          fd0 f0).link who fd1 f1).setInode ip { s.inode ip with
            count := 2, size := 0, sent := [], received := [] }) with hs'
        have hfilps : (s'.fproc who).filp =
            update (update (s.fproc who).filp fd0 (some f0)) fd1 (some f1) := by
          simp [hs', FsState.link, FsState.setProc, FsState.setFilp, FsState.setInode]
        have hcreated : Created who f0 f1 ip s s' := by
          refine ⟨fun p hp => ?_, ?_, fun g => ?_, ?_, ?_, fun g h0 h1 => ?_, fun i hi => ?_, ?_,
            rfl, rfl, rfl⟩
          · simp [hs', FsState.link, FsState.setProc, FsState.setFilp, FsState.setInode, hp]
          · simp [hs', FsState.link, FsState.setProc, FsState.setFilp, FsState.setInode]
          · have hheld1 := held_of_opened (y := s₁.fproc who) hfd0 hproc1 g
            have hheld2 := held_of_opened (y := s'.fproc who) hfd1 (by rw [hfilps, hproc1]) g
            rw [hheld2, hheld1]
          · simp [hs', FsState.link, FsState.setProc, FsState.setFilp, FsState.setInode, hne]
          · simp [hs', FsState.link, FsState.setProc, FsState.setFilp, FsState.setInode]
          · simp [hs', FsState.link, FsState.setProc, FsState.setFilp, FsState.setInode, h0, h1]
          · simp [hs', FsState.link, FsState.setProc, FsState.setFilp, FsState.setInode, hi]
          · simp [hs', FsState.link, FsState.setProc, FsState.setFilp, FsState.setInode]
        exact ⟨hcreated.dataOk hfresh h.data, hcreated.tableOk hfresh h.table,
          hcreated.waitOk hfresh h.table h.wait hwho⟩

end NewPipe

/-! ## §5 Runs -/

/-- Who sends which request: a process that is not suspended, or MM on behalf of one; a fork is
into a slot that is not in use, and a process may be killed while it hangs. -/
def mayAsk (s : FsState) (who : ProcNr) : Request → Prop
  | .exit => True
  | .fork child => (s.fproc who).suspended = false ∧ (s.fproc child).suspended = false ∧
      ∀ fd, (s.fproc child).filp fd = none
  | _ => (s.fproc who).suspended = false

/-- What the rest of the file server promises: errors are negative, and `alloc_inode` returns
a slot that is not in use. -/
structure EnvOk (s : FsState) (env : Env) : Prop where
  noRoom : env.noRoom < 0
  newInode : ∀ ip, env.newInode = .ok ip → (s.inode ip).count = 0

/-- One turn of the main loop: as long as `reviving` is not zero, a suspended call is done
again; otherwise a message is received.  Processes come and go that wait elsewhere. -/
inductive Step : FsState → FsState → Prop
  | revive {s s' env p call} : s.reviving ≠ 0 → EnvOk s env → getRevived s = some (s', p, call) →
      Step s (answer (readWrite s' env p call).1 p (readWrite s' env p call).2)
  | request {s env who r} : s.reviving = 0 → EnvOk s env → mayAsk s who r →
      Step s (handle s env who r)
  | other {s} (n : ℕ) :
      Step s { s with suspCount := s.suspCount - s.elsewhere + n, elsewhere := n }

/-- The states that the file server reaches. -/
inductive Reached : FsState → Prop
  | start : Reached initialState
  | step {s s'} : Reached s → Step s s' → Reached s'

section Runs

variable {s s' : FsState} {who : ProcNr}

theorem PipesOk.reply (h : PipesOk s) (whom : ProcNr) (r : ℤ) : PipesOk (s.reply whom r) := by
  refine ⟨h.data.of_eq rfl rfl, h.table.of_filps rfl rfl fun _ => rfl, h.wait.of_same ?_⟩
  exact ⟨rfl, fun _ => rfl, fun _ => rfl, rfl, rfl, rfl, fun _ _ _ hz => hz⟩

theorem PipesOk.answer (h : PipesOk s) (whom : ProcNr) (r : Option ℤ) :
    PipesOk (Fs.answer s whom r) := by
  unfold Fs.answer
  cases r with
  | none => exact h
  | some r => exact h.reply whom r

theorem initialState_ok : PipesOk initialState where
  data := ⟨fun _ => Nat.zero_le _, fun _ h => absurd rfl h, fun _ h => absurd rfl h,
    fun _ => ⟨_, rfl⟩, fun _ _ h => absurd h (by simp [initialState])⟩
  table := by
    refine ⟨fun f => ?_, fun _ _ h => absurd rfl h, fun i => ?_⟩
    · show 0 = refs initialState f
      unfold refs
      exact (Finset.sum_eq_zero fun p _ => List.countP_eq_zero.mpr fun fd _ => by
        simp [initialState]).symm
    · show 0 = ends initialState i
      exact (List.countP_eq_zero.mpr fun f _ => by simp [initialState]).symm
  wait := by
    have hhang : ∀ i rw p, hangsOn initialState i rw p = false := fun _ _ _ => rfl
    refine ⟨⟨fun _ h => absurd h (by simp [initialState]), fun _ h => absurd h (by simp [initialState]),
      ?_, ?_, fun i p h => ?_⟩, fun i p q _ => hhang i _ q⟩
    · have : waitCount initialState = 0 := List.countP_eq_zero.mpr fun p _ => by
        simp [waits, initialState]
      rw [this]
      rfl
    · have : revivedCount initialState = 0 := List.countP_eq_zero.mpr fun p _ => by
        simp [initialState]
      rw [this]
      rfl
    · rw [hhang] at h
      exact absurd h (by decide)

theorem handle_ok (h : PipesOk s) (hrev : s.reviving = 0) {env : Env} (henv : EnvOk s env)
    {r : Request} (hask : mayAsk s who r) : PipesOk (handle s env who r) := by
  cases r with
  | io call => exact (readWrite_ok h henv.noRoom hask call).answer who _
  | pipe => exact (doPipe_ok h hask henv.newInode).reply who _
  | close fd => exact (doClose_ok h hask fd).1.reply who _
  | dup fd fd2 => exact (doDup_ok h hask fd fd2).reply who _
  | setFl fd nonblock append => exact (setFl_ok h hask fd nonblock append).reply who _
  | fork child =>
    obtain ⟨hwho, hchild, hfree⟩ := hask
    unfold handle
    exact doFork_ok h hwho hchild hfree
  | exit =>
    unfold handle
    exact doExit_ok h hrev

/-- **One turn of the main loop keeps the invariant.** -/
theorem step_ok (h : PipesOk s) (hstep : Step s s') : PipesOk s' := by
  cases hstep with
  | @revive s₁ env p call hrev henv hget =>
    obtain ⟨s₂, q, hget', hwait, hquiet, hfilp⟩ := getRevived_some h.wait hrev
    rw [hget] at hget'
    simp only [Option.some.injEq, Prod.mk.injEq] at hget'
    obtain ⟨rfl, rfl, rfl⟩ := hget'
    have hfilps : ∀ x, (s₁.fproc x).filp = (s.fproc x).filp := by
      intro x
      by_cases hx : x = p
      · rw [hx, hfilp]
      · rw [hquiet.others x hx]
    have h₁ : PipesOk s₁ := ⟨h.data.of_eq hquiet.filp hquiet.inode,
      h.table.of_filps hquiet.filp hquiet.inode hfilps, hwait⟩
    exact (readWrite_ok h₁ henv.noRoom hquiet.self.1 _).answer _ _
  | request hrev henv hask => exact handle_ok h hrev henv hask
  | other n =>
    refine ⟨h.data.of_eq rfl rfl, h.table.of_filps rfl rfl fun _ => rfl, ?_⟩
    obtain ⟨⟨hsaved, hrevived, hsusp, hreviving, hempty⟩, hapart⟩ := h.wait
    refine ⟨⟨hsaved, hrevived, ?_, hreviving, hempty⟩, hapart⟩
    show s.suspCount - (s.elsewhere : ℤ) + n = (waitCount s : ℤ) + n
    omega

theorem Reached.ok (h : Reached s) : PipesOk s := by
  induction h with
  | start => exact initialState_ok
  | step _ hstep ih => exact step_ok ih hstep

/-- What a pipe guarantees to its users. -/
structure PipeGuarantee (s : FsState) (i : InodeNr) : Prop where
  /-- what the reads have returned is the beginning of what the writes have sent -/
  order : (s.inode i).received <+: sentBytes (s.inode i)
  /-- nothing is lost or duplicated: what has not been returned is in the pipe, from the position
  of the read end on -/
  rest : ∀ f, (s.filp f).count ≠ 0 → (s.filp f).ino = i → (s.filp f).mode = .reading →
    sentBytes (s.inode i) = (s.inode i).received ++
      slice (s.inode i).data (s.filp f).pos ((s.inode i).size - (s.filp f).pos)
  /-- what was sent is one piece for each write, of at most `PIPE_SIZE` bytes, and the whole
  of it unless the write was answered with an error -/
  pieces : ∀ x ∈ (s.inode i).sent, PieceOk x
  size : (s.inode i).size ≤ pipeSize
  /-- a reader and a writer are not both left suspended -/
  progress : ∀ p q, ¬ (hangsOn s i .reading p = true ∧ hangsOn s i .writing q = true)

/-- **The byte stream of a pipe.**  In every state that the file server reaches, every pipe
keeps its guarantee, and whenever somebody is to be revived `get_work` finds him. -/
theorem pipe_stream (h : Reached s) :
    (∀ i, PipeGuarantee s i) ∧ (s.reviving ≠ 0 → (getRevived s).isSome) := by
  have hok := h.ok
  refine ⟨fun i => ?_, fun hrev => ?_⟩
  · constructor
    case order => exact hok.data.order i
    case rest =>
      intro f hf hi hm
      have hend := (hok.data.reader f hf hm).stream
      rw [hi] at hend
      exact hend
    case pieces => exact hok.data.pieces i
    case size => exact hok.data.size i
    case progress =>
      rintro p q ⟨hp, hq⟩
      rw [hok.wait.apart i p q hp] at hq
      exact absurd hq (by decide)
  · obtain ⟨s', p, hget, -⟩ := getRevived_some hok.wait hrev
    rw [hget]
    rfl

end Runs

section Example

/-- A device with room, and an inode slot. -/
def roomyEnv : Env := ⟨1000000, 100, -28, .ok ⟨0, nrInodes_pos⟩⟩

/-- The same when no inode slot is left. -/
def takenEnv : Env := ⟨1000000, 100, -28, .error enfile⟩

instance (s : FsState) (who : ProcNr) : (r : Request) → Decidable (mayAsk s who r)
  | .io _ => inferInstanceAs (Decidable (_ = _))
  | .pipe => inferInstanceAs (Decidable (_ = _))
  | .close _ => inferInstanceAs (Decidable (_ = _))
  | .dup _ _ => inferInstanceAs (Decidable (_ = _))
  | .setFl _ _ _ => inferInstanceAs (Decidable (_ = _))
  | .fork child => inferInstanceAs (Decidable (_ = _ ∧ _ = _ ∧ ∀ fd, (s.fproc child).filp fd = none))
  | .exit => isTrue trivial

/-- Some turns of the main loop: a revival, or a request. -/
def play : List (Option (ProcNr × Request)) → FsState → Option FsState
  | [], s => some s
  | none :: ts, s =>
    if s.reviving = 0 then none
    else (getRevived s).bind fun (s', p, call) =>
      play ts (answer (readWrite s' takenEnv p call).1 p (readWrite s' takenEnv p call).2)
  | some (who, r) :: ts, s =>
    if s.reviving = 0 ∧ mayAsk s who r then play ts (handle s takenEnv who r) else none

theorem Reached.play {s s' : FsState} {ts : List (Option (ProcNr × Request))} (h : Reached s)
    (hplay : play ts s = some s') : Reached s' := by
  have henv : ∀ s, EnvOk s takenEnv := fun s => ⟨by decide, fun ip hip => by cases hip⟩
  induction ts generalizing s with
  | nil =>
    cases hplay
    exact h
  | cons t ts ih =>
    cases t with
    | none =>
      unfold Fs.play at hplay
      split at hplay
      · exact absurd hplay (by simp)
      · next hrev =>
        obtain ⟨⟨s₁, p, call⟩, hget, hrest⟩ := Option.bind_eq_some_iff.mp hplay
        exact ih (.step h (.revive hrev (henv s) hget)) hrest
    | some t =>
      obtain ⟨who, r⟩ := t
      unfold Fs.play at hplay
      split at hplay
      · next hask => exact ih (.step h (.request hask.1 (henv s) hask.2)) hplay
      · exact absurd hplay (by simp)

/-- Process 3 makes a pipe and forks process 4, which reads and hangs; 3 writes three bytes,
and the read of 4 is done again. -/
theorem pipe_stream_revived : ∃ s, Reached s ∧
    ((s.inode ⟨0, by decide⟩).received = [1, 2, 3] ∧ s.replies = [(4, 3), (3, 3), (3, 0)]) ∧
    PipeGuarantee s ⟨0, by decide⟩ := by
  have hstart : Reached (handle initialState roomyEnv 3 .pipe) := by
    refine .step .start (.request rfl ⟨by decide, fun ip hip => ?_⟩ rfl)
    cases hip
    rfl
  set ts : List (Option (ProcNr × Request)) := [some (3, .fork 4),
    some (4, .io ⟨.reading, 0, 10, fun _ => 0⟩),
    some (3, .io ⟨.writing, 1, 3, fun k => UInt8.ofNat (k + 1)⟩), none] with hts
  have hval : (play ts (handle initialState roomyEnv 3 .pipe)).map (fun s =>
      ((s.inode ⟨0, by decide⟩).received, s.replies)) = some ([1, 2, 3], [(4, 3), (3, 3), (3, 0)]) := by
    decide +kernel
  obtain ⟨s, hplay, heq⟩ := Option.map_eq_some_iff.mp hval
  simp only [Prod.mk.injEq] at heq
  have hr := hstart.play hplay
  exact ⟨s, hr, heq, (pipe_stream hr).1 _⟩

end Example

end LisaMinix.Fs
