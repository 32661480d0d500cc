import LisaMinix.Fs.FifoStream

/-!
# The Positions of a FIFO

A position belongs to a filp, and the bytes to the inode.  Where the FIFO is opened and read with some
care, each filp is nevertheless at the right place.

- `Placed`: a reader is at the byte after the last one that was read, and a writer without `O_APPEND`
  is at the end, and is the only writer.
- `OpensFine`, `ReadsFine`: the openings and the reads that keep this.  They say which filps there are,
  and whether the FIFO is empty, but nothing of a position.
- `Positions.readWrite`, `Positions.commonOpen`: the positions are kept, also by `read_write` when it
  resets the reader and the first writer that it finds.
-/

namespace LisaMinix.Fs.Fifo

open LisaMinix.Mm (ProcNr nrProcs)
open LisaMinix.Library Function

/-! ## §1 Places -/

/-- A filp that is in use, for the inode `i`. -/
def Uses (s : State) (i : InodeNr) (g : FilpNr) : Prop := (s.filp g).count ≠ 0 ∧ (s.filp g).ino = i

/-- A filp that is open for reading, and for nothing else. -/
def Reads (s : State) (i : InodeNr) (g : FilpNr) : Prop :=
  Uses s i g ∧ (s.filp g).mode.r = true ∧ (s.filp g).mode.w = false

def Writes (s : State) (i : InodeNr) (g : FilpNr) : Prop := Uses s i g ∧ (s.filp g).mode.w = true

structure Placed (s : State) (i : InodeNr) : Prop where
  readers : ∀ g, Reads s i g → (s.filp g).pos = (s.inode i).consumed
  several : ∀ g g', Reads s i g → Reads s i g' → g ≠ g' → (s.inode i).consumed = 0
  writers : ∀ g, Writes s i g → (s.filp g).append = false → (s.filp g).pos = (s.inode i).size
  alone : ∀ g g', Writes s i g → Writes s i g' → (s.filp g).append = false → g' = g
  pipe : ∀ g, Writes s i g → (s.inode i).isPipe = true
  empty : (s.inode i).isPipe = false → (s.inode i).size = 0

def Positions (s : State) : Prop := ∀ i, Placed s i

/-- What matters of a filp, and of an inode. -/
def place (x : OpenFile) : Mode × Bool × InodeNr × ℕ := (x.mode, x.append, x.ino, x.pos)

def level (x : Node) : ℕ × ℕ × Bool := (x.size, x.consumed, x.isPipe)

/-- No filp has come into use for `i`, and those in use are where they were. -/
def Fewer (i : InodeNr) (s s' : State) : Prop :=
  ∀ g, Uses s' i g → Uses s i g ∧ place (s'.filp g) = place (s.filp g)

section

variable {s s' : State} {i ip : InodeNr} {f g : FilpNr} {who : ProcNr} {fd : Fd}

theorem place_eq {x y : OpenFile} (h : place x = place y) :
    x.mode = y.mode ∧ x.append = y.append ∧ x.ino = y.ino ∧ x.pos = y.pos := by
  simpa only [place, Prod.mk.injEq] using h

theorem Fewer.reads (h : Fewer i s s') (hg : Reads s' i g) : Reads s i g := by
  obtain ⟨huses, hplace⟩ := h g hg.1
  obtain ⟨hmode, -, -, -⟩ := place_eq hplace
  exact ⟨huses, by rw [← hmode]; exact hg.2.1, by rw [← hmode]; exact hg.2.2⟩

theorem Fewer.writes (h : Fewer i s s') (hg : Writes s' i g) : Writes s i g := by
  obtain ⟨huses, hplace⟩ := h g hg.1
  obtain ⟨hmode, -, -, -⟩ := place_eq hplace
  exact ⟨huses, by rw [← hmode]; exact hg.2⟩

theorem Placed.of_fewer (hs : Placed s i) (h : Fewer i s s')
    (hnode : level (s'.inode i) = level (s.inode i)) : Placed s' i := by
  have hpos : ∀ g, Uses s' i g → (s'.filp g).pos = (s.filp g).pos := fun g hg =>
    (place_eq (h g hg).2).2.2.2
  have happend : ∀ g, Uses s' i g → (s'.filp g).append = (s.filp g).append := fun g hg =>
    (place_eq (h g hg).2).2.1
  simp only [level, Prod.mk.injEq] at hnode
  obtain ⟨hsize, hconsumed, hpipe⟩ := hnode
  constructor
  · intro g hg
    rw [hpos g hg.1, hconsumed]
    exact hs.readers g (h.reads hg)
  · intro g g' hg hg' hne
    rw [hconsumed]
    exact hs.several g g' (h.reads hg) (h.reads hg') hne
  · intro g hg hplain
    rw [happend g hg.1] at hplain
    rw [hpos g hg.1, hsize]
    exact hs.writers g (h.writes hg) hplain
  · intro g g' hg hg' hplain
    rw [happend g hg.1] at hplain
    exact hs.alone g g' (h.writes hg) (h.writes hg') hplain
  · intro g hg
    rw [hpipe]
    exact hs.pipe g (h.writes hg)
  · rw [hpipe, hsize]
    exact hs.empty

theorem Fewer.of_filp (h : s'.filp = s.filp) : Fewer i s s' := fun g hg => by
  unfold Uses at hg ⊢
  rw [h] at hg ⊢
  exact ⟨hg, rfl⟩

theorem Positions.of_fewer (hs : Positions s) (h : ∀ i, Fewer i s s')
    (hnode : ∀ i, level (s'.inode i) = level (s.inode i)) : Positions s' := fun i =>
  (hs i).of_fewer (h i) (hnode i)

theorem Positions.of_calm (hs : Positions s) (hc : Calm s s') : Positions s' :=
  hs.of_fewer (fun _ => .of_filp hc.filp) fun i => by rw [hc.inode]

/-! ## §2 Inodes -/

/-- An inode that no filp uses. -/
theorem Placed.of_unused (hunused : ∀ g, ¬Uses s i g)
    (hempty : (s.inode i).isPipe = false → (s.inode i).size = 0) : Placed s i where
  readers g hg := absurd hg.1 (hunused g)
  several g _ hg := absurd hg.1 (hunused g)
  writers g hg := absurd hg.1 (hunused g)
  alone g _ hg := absurd hg.1 (hunused g)
  pipe g hg := absurd hg.1 (hunused g)
  empty := hempty

theorem not_uses_of_refCount (h : refCount (fileRef s) i = 0) (g : FilpNr) : ¬Uses s i g := by
  intro hg
  have hpos := refCount_pos (h := fileRef s) (r := g) (a := i) (by rw [fileRef, if_neg hg.1, hg.2])
  omega

theorem Positions.getInode (hs : Positions s) (htables : TablesOk s) (ip : InodeNr) :
    Positions (getInode s ip) := by
  intro i
  unfold Fifo.getInode
  by_cases hi : i = ip
  · subst hi
    by_cases hzero : (s.inode i).count = 0
    · have hunused := not_uses_of_refCount (by rw [← htables.inodes, hzero] : refCount (fileRef s) i = 0)
      apply Placed.of_unused
      · exact fun g hg => hunused g ((Fewer.of_filp rfl) g hg).1
      · intro _
        simp [State.setNode, hzero, Node.fresh]
    · refine (hs i).of_fewer (.of_filp rfl) ?_
      simp [State.setNode, hzero, level]
  · refine (hs i).of_fewer (.of_filp rfl) ?_
    simp [State.setNode, hi]

theorem Positions.putInode (hs : Positions s) (ip : InodeNr)
    (hlast : (s.inode ip).count - 1 = 0 → ∀ g, ¬Uses s ip g) : Positions (putInode s ip) := by
  intro i
  have hfilp := putInode_filp s ip
  by_cases hi : i = ip
  · subst hi
    by_cases hzero : (s.inode i).count - 1 = 0
    · -- a pipe is truncated
      apply Placed.of_unused
      · intro g hg
        exact hlast hzero g ((Fewer.of_filp hfilp) g hg).1
      · intro _
        have hempty := (hs i).empty
        simp only [Fifo.putInode, hzero, if_true, State.setNode, update_self]
        cases hpipe : (s.inode i).isPipe with
        | false => exact hempty hpipe
        | true => rfl
    · refine (hs i).of_fewer (.of_filp hfilp) ?_
      simp [Fifo.putInode, hzero, State.setNode, level]
  · refine (hs i).of_fewer (.of_filp hfilp) ?_
    unfold Fifo.putInode
    simp only
    split <;> simp [State.setNode, hi]

/-! ## §3 Transfers -/

/-- A read through a filp does not leave another reader behind: the filp is the only one that is open
for reading, or the read takes all that there is; and the filp is not open for writing too. -/
def ReadsFine (s : State) (f : FilpNr) (nbytes : ℤ) : Prop :=
  (s.filp f).mode.r = true → (s.filp f).mode.w = false ∧
    ((∀ g, Reads s (s.filp f).ino g → g = f) ∨
      ((s.inode (s.filp f).ino).size : ℤ) - (s.inode (s.filp f).ino).consumed ≤ nbytes)

theorem findFilp_some {bit : Rw} (h : findFilp s i bit = some g) :
    Uses s i g ∧ (s.filp g).mode.has bit = true := by
  have hfound := List.find?_some h
  simp only [Bool.and_eq_true, bne_iff_ne, beq_iff_eq] at hfound
  exact ⟨⟨hfound.1.1, hfound.1.2⟩, hfound.2⟩

/-- `find_filp` finds a writer if there is one. -/
theorem exists_findFilp (h : Writes s i g) : ∃ wf, findFilp s i .writing = some wf ∧ Writes s i wf := by
  cases hfind : findFilp s i .writing with
  | none =>
    have hnone := List.find?_eq_none.mp hfind g (List.mem_finRange g)
    simp [h.1.1, h.1.2, Mode.has, h.2] at hnone
  | some wf =>
    obtain ⟨huses, hmode⟩ := findFilp_some hfind
    exact ⟨wf, rfl, huses, hmode⟩

/-- Only positions of filps have changed. -/
def Repositioned (s s' : State) : Prop := ∀ g, s'.filp g = { s.filp g with pos := (s'.filp g).pos }

theorem Repositioned.fewer (h : Repositioned s s') (hpos : ∀ g, Uses s i g → (s'.filp g).pos = (s.filp g).pos) :
    Fewer i s s' := by
  intro g hg
  have huses : Uses s i g := by
    unfold Uses at hg
    rw [h g] at hg
    exact hg
  refine ⟨huses, ?_⟩
  rw [h g, hpos g huses]

theorem Repositioned.reads (h : Repositioned s s') (hg : Reads s' i g) : Reads s i g := by
  unfold Reads Uses at hg
  rw [h g] at hg
  exact hg

theorem Repositioned.writes (h : Repositioned s s') (hg : Writes s' i g) : Writes s i g := by
  unfold Writes Uses at hg
  rw [h g] at hg
  exact hg

/-- A filp is moved. -/
def moveTo (s : State) (f : FilpNr) (pos : ℕ) : State := s.setFilp f { s.filp f with pos := pos }

@[simp] theorem moveTo_inode (s : State) (f : FilpNr) (pos : ℕ) : (moveTo s f pos).inode = s.inode := rfl

@[simp] theorem moveTo_self (s : State) (f : FilpNr) (pos : ℕ) : ((moveTo s f pos).filp f).pos = pos := by
  simp [moveTo, State.setFilp]

theorem moveTo_of_ne (s : State) (pos : ℕ) (hg : g ≠ f) :
    ((moveTo s f pos).filp g).pos = (s.filp g).pos := by
  simp [moveTo, State.setFilp, hg]

theorem repositioned_moveTo (s : State) (f : FilpNr) (pos : ℕ) : Repositioned s (moveTo s f pos) := by
  intro g
  by_cases hg : g = f
  · simp [moveTo, State.setFilp, hg]
  · simp [moveTo, State.setFilp, hg]

theorem Repositioned.trans {s'' : State} (h : Repositioned s s') (h' : Repositioned s' s'') :
    Repositioned s s'' := by
  intro g
  rw [h' g, h g]

/-- A transfer moves filps of one inode only. -/
theorem Positions.update (hs : Positions s) (ip : InodeNr) (hrep : Repositioned s s')
    (hnode : ∀ i, i ≠ ip → s'.inode i = s.inode i)
    (hfilp : ∀ g, ¬Uses s ip g → (s'.filp g).pos = (s.filp g).pos) (hplaced : Placed s' ip) :
    Positions s' := by
  intro i
  by_cases hi : i = ip
  · rw [hi]
    exact hplaced
  · refine (hs i).of_fewer (hrep.fewer fun g hg => hfilp g ?_) (by rw [hnode i hi])
    exact fun hip => hi (hg.2.symm.trans hip.2)

/-- The FIFO has been drained: the reader starts again, and so does the writer. -/
theorem Placed.drained (h : Placed s ip) (hf : Reads s ip f) (hrep : Repositioned s s')
    (hsize : (s'.inode ip).size = 0) (hconsumed : (s'.inode ip).consumed = 0)
    (hpipe : (s'.inode ip).isPipe = true) (hself : (s'.filp f).pos = 0)
    (hreaders : ∀ g, Reads s ip g → g ≠ f → (s'.filp g).pos = (s.filp g).pos)
    (hwriters : ∀ g, Writes s ip g → (s.filp g).append = false → (s'.filp g).pos = 0) :
    Placed s' ip := by
  have happend : ∀ g, (s'.filp g).append = (s.filp g).append := fun g => by rw [hrep g]
  constructor
  · intro g hg
    have hg' := hrep.reads hg
    rw [hconsumed]
    by_cases hgf : g = f
    · rw [hgf, hself]
    · -- another reader has stayed at the beginning
      rw [hreaders g hg' hgf, h.readers g hg', h.several g f hg' hf hgf]
  · exact fun _ _ _ _ _ => hconsumed
  · intro g hg hplain
    rw [happend] at hplain
    rw [hsize, hwriters g (hrep.writes hg) hplain]
  · intro g g' hg hg' hplain
    rw [happend] at hplain
    exact h.alone g g' (hrep.writes hg) (hrep.writes hg') hplain
  · exact fun _ _ => hpipe
  · exact fun _ => hsize

/-- Some of the bytes have been read. -/
theorem Placed.advanced (h : Placed s ip) (hf : Reads s ip f) (hrep : Repositioned s s') {n : ℕ}
    (hsize : (s'.inode ip).size = (s.inode ip).size)
    (hconsumed : (s'.inode ip).consumed = (s.inode ip).consumed + n)
    (hpipe : (s'.inode ip).isPipe = (s.inode ip).isPipe)
    (hself : (s'.filp f).pos = (s.filp f).pos + n) (hother : ∀ g, g ≠ f → (s'.filp g).pos = (s.filp g).pos)
    (hfine : (∀ g, Reads s ip g → g = f) ∨ n = 0) : Placed s' ip := by
  have happend : ∀ g, (s'.filp g).append = (s.filp g).append := fun g => by rw [hrep g]
  constructor
  · intro g hg
    have hg' := hrep.reads hg
    rw [hconsumed, ← h.readers g hg']
    by_cases hgf : g = f
    · rw [hgf, hself]
    · rcases hfine with halone | hzero
      · exact absurd (halone g hg') hgf
      · rw [hother g hgf, hzero, Nat.add_zero]
  · intro g g' hg hg' hne
    have hg1 := hrep.reads hg
    have hg2 := hrep.reads hg'
    rcases hfine with halone | hzero
    · exact absurd ((halone g hg1).trans (halone g' hg2).symm) hne
    · rw [hconsumed, hzero, h.several g g' hg1 hg2 hne]
  · intro g hg hplain
    have hg' := hrep.writes hg
    have hgf : g ≠ f := by
      rintro rfl
      have hmode := hf.2.2
      rw [hg'.2] at hmode
      cases hmode
    rw [happend] at hplain
    rw [hother g hgf, hsize]
    exact h.writers g hg' hplain
  · intro g g' hg hg' hplain
    rw [happend] at hplain
    exact h.alone g g' (hrep.writes hg) (hrep.writes hg') hplain
  · intro g hg
    rw [hpipe]
    exact h.pipe g (hrep.writes hg)
  · rw [hpipe, hsize]
    exact h.empty

/-- What is written comes to the end of the file, and moves the writer there. -/
theorem Placed.extended (h : Placed s ip) (hf : Writes s ip f) (hrep : Repositioned s s')
    (hself : (s'.filp f).pos = (s'.inode ip).size)
    (hconsumed : (s'.inode ip).consumed = (s.inode ip).consumed)
    (hpipe : (s'.inode ip).isPipe = (s.inode ip).isPipe)
    (hother : ∀ g, g ≠ f → (s'.filp g).pos = (s.filp g).pos) : Placed s' ip := by
  have happend : ∀ g, (s'.filp g).append = (s.filp g).append := fun g => by rw [hrep g]
  constructor
  · intro g hg
    have hg' := hrep.reads hg
    have hgf : g ≠ f := by
      rintro rfl
      have hmode := hf.2
      rw [hg'.2.2] at hmode
      cases hmode
    rw [hother g hgf, hconsumed]
    exact h.readers g hg'
  · intro g g' hg hg' hne
    rw [hconsumed]
    exact h.several g g' (hrep.reads hg) (hrep.reads hg') hne
  · intro g hg hplain
    rw [happend] at hplain
    -- a writer without `O_APPEND` is the one that writes
    rw [← h.alone g f (hrep.writes hg) hf hplain]
    exact hself
  · intro g g' hg hg' hplain
    rw [happend] at hplain
    exact h.alone g g' (hrep.writes hg) (hrep.writes hg') hplain
  · intro g hg
    rw [hpipe]
    exact h.pipe g (hrep.writes hg)
  · intro hnot
    rw [hpipe, h.pipe f hf] at hnot
    cases hnot

/-- The reset of a writer: the first one that is found, if there is one. -/
def resetWriter (s : State) (ip : InodeNr) : State :=
  match findFilp s ip .writing with
  | none => s
  | some wf => moveTo s wf 0

theorem resetWriter_spec (s : State) (ip : InodeNr) :
    Repositioned s (resetWriter s ip) ∧ (resetWriter s ip).inode = s.inode ∧
      (∀ g, ¬Writes s ip g → ((resetWriter s ip).filp g).pos = (s.filp g).pos) ∧
      ((∀ g g', Writes s ip g → Writes s ip g' → g' = g) →
        ∀ g, Writes s ip g → ((resetWriter s ip).filp g).pos = 0) := by
  unfold resetWriter
  cases hfind : findFilp s ip .writing with
  | none =>
    refine ⟨fun _ => rfl, rfl, fun _ _ => rfl, fun _ g hg => ?_⟩
    obtain ⟨wf, hsome, -⟩ := exists_findFilp hg
    rw [hfind] at hsome
    cases hsome
  | some wf =>
    have hwf : Writes s ip wf := findFilp_some hfind
    refine ⟨repositioned_moveTo s wf 0, rfl, fun g hg => ?_, fun halone g hg => ?_⟩
    · apply moveTo_of_ne
      rintro rfl
      exact hg hwf
    · rw [halone wf g hwf hg]
      exact moveTo_self ..

/-- `read_write` after a read, of a FIFO in the inode `ip`. -/
theorem finishRead_eq (hip : (s.filp f).ino = ip) (nbytes : ℕ) {n : ℕ}
    (hn : n = min nbytes ((s.inode ip).size - (s.filp f).pos)) :
    (finishRead s f nbytes).1 =
      if (s.inode ip).isPipe = true ∧ (s.inode ip).size ≤ (s.filp f).pos + n then
        moveTo (resetWriter (s.setNode ip { s.inode ip with
          received := (s.inode ip).received ++ slice (s.inode ip).data (s.filp f).pos n
          size := 0
          consumed := 0 }) ip) f 0
      else
        moveTo (s.setNode ip { s.inode ip with
          received := (s.inode ip).received ++ slice (s.inode ip).data (s.filp f).pos n
          consumed := (s.inode ip).consumed + n }) f ((s.filp f).pos + n) := by
  have hbytes : readChunks (s.inode ip).data (s.inode ip).size nbytes (s.filp f).pos nbytes =
      slice (s.inode ip).data (s.filp f).pos n := by
    rw [hn]
    exact readChunks_eq _ _ _ _ _ le_rfl
  unfold Fifo.finishRead
  simp only [hip, hbytes, slice_length, Bool.and_eq_true, decide_eq_true_eq]
  split
  · rfl
  · simp only [moveTo, State.setNode, hip]

/-- **A read keeps the positions**: when nothing is left the reader and the writer start again. -/
theorem Positions.finishRead (hs : Positions s) (hf : Reads s ip f) {nbytes : ℕ}
    (hfine : (∀ g, Reads s ip g → g = f) ∨ (s.inode ip).size - (s.inode ip).consumed ≤ nbytes)
    (hinside : (s.inode ip).consumed ≤ (s.inode ip).size) : Positions (finishRead s f nbytes).1 := by
  have hpos : (s.filp f).pos = (s.inode ip).consumed := (hs ip).readers f hf
  obtain ⟨n, hn⟩ : ∃ n, n = min nbytes ((s.inode ip).size - (s.filp f).pos) := ⟨_, rfl⟩
  have hunused : ∀ g, ¬Uses s ip g → g ≠ f := by
    rintro g hg rfl
    exact hg hf.1
  have hwriter : ∀ g, Writes s ip g → ¬Reads s ip g := fun g hw hr => by
    have hmode := hw.2
    rw [hr.2.2] at hmode
    cases hmode
  rw [finishRead_eq hf.1.2 nbytes hn]
  split
  next hall =>
    generalize hrip : ({ s.inode ip with
      received := (s.inode ip).received ++ slice (s.inode ip).data (s.filp f).pos n
      size := 0
      consumed := 0 } : Node) = rip
    obtain ⟨hrep, hinode, hkept, hreset⟩ := resetWriter_spec (s.setNode ip rip) ip
    generalize resetWriter (s.setNode ip rip) ip = s₂ at hrep hinode hkept hreset
    have hrep2 : Repositioned s (moveTo s₂ f 0) :=
      @Repositioned.trans s s₂ (moveTo s₂ f 0) hrep (repositioned_moveTo s₂ f 0)
    have hnode : (moveTo s₂ f 0).inode ip = rip := by
      rw [moveTo_inode, hinode]
      exact update_self ..
    refine hs.update ip hrep2 (fun i hi => ?_) (fun g hg => ?_) ?_
    · rw [moveTo_inode, hinode]
      exact update_of_ne hi ..
    · rw [moveTo_of_ne s₂ 0 (hunused g hg)]
      exact hkept g fun h => hg h.1
    refine (hs ip).drained hf hrep2 ?_ ?_ ?_ (moveTo_self ..) (fun g hg hgf => ?_) fun g hg hplain => ?_
    · rw [hnode, ← hrip]
    · rw [hnode, ← hrip]
    · rw [hnode, ← hrip]
      exact hall.1
    · rw [moveTo_of_ne s₂ 0 hgf]
      exact hkept g fun h => hwriter g h hg
    · -- the writer is the only one, so it is found
      have hgf : g ≠ f := by
        rintro rfl
        exact hwriter g hg hf
      rw [moveTo_of_ne s₂ 0 hgf]
      refine hreset (fun g₁ g₂ hg1 hg2 => ?_) g hg
      rw [(hs ip).alone g g₁ hg hg1 hplain, (hs ip).alone g g₂ hg hg2 hplain]
  next hmore =>
    generalize hrip : ({ s.inode ip with
      received := (s.inode ip).received ++ slice (s.inode ip).data (s.filp f).pos n
      consumed := (s.inode ip).consumed + n } : Node) = rip
    have hrep : Repositioned s (moveTo (s.setNode ip rip) f ((s.filp f).pos + n)) :=
      repositioned_moveTo (s.setNode ip rip) f _
    have hne : ∀ g, g ≠ f →
        ((moveTo (s.setNode ip rip) f ((s.filp f).pos + n)).filp g).pos = (s.filp g).pos :=
      fun g hg => moveTo_of_ne (s.setNode ip rip) _ hg
    have hnode : (moveTo (s.setNode ip rip) f ((s.filp f).pos + n)).inode ip = rip :=
      update_self ..
    refine hs.update ip hrep (fun i hi => update_of_ne hi ..)
      (fun g hg => hne g (hunused g hg)) ?_
    refine (hs ip).advanced hf hrep (n := n) ?_ ?_ ?_ (moveTo_self ..) hne ?_
    · rw [hnode, ← hrip]
    · rw [hnode, ← hrip]
    · rw [hnode, ← hrip]
    · refine hfine.imp_right fun hall => ?_
      -- all there is has been read, but the pointers are not reset: this is no pipe yet
      cases hpipe : (s.inode ip).isPipe with
      | false =>
        have hsize : (s.inode ip).size = 0 := (hs ip).empty hpipe
        omega
      | true =>
        have hless := not_and.mp hmore hpipe
        omega

/-- **A write keeps the positions.** -/
theorem Positions.finishWrite (hs : Positions s) (hf : Writes s ip f) (env : Env)
    (buffer : ℕ → UInt8) (nbytes : ℕ) {position : ℕ} (hpos : position = (s.inode ip).size) :
    Positions (finishWrite s env f buffer nbytes position).1 := by
  have hip : (s.filp f).ino = ip := hf.1.2
  have hunused : ∀ g, ¬Uses s ip g → g ≠ f := by
    rintro g hg rfl
    exact hg hf.1
  obtain ⟨rip, hres, hsize, hconsumed, hpipe⟩ : ∃ rip : Node,
      (Fifo.finishWrite s env f buffer nbytes position).1 = moveTo (s.setNode ip rip) f rip.size ∧
        (s.inode ip).size ≤ rip.size ∧ rip.consumed = (s.inode ip).consumed ∧
        rip.isPipe = (s.inode ip).isPipe := by
    unfold Fifo.finishWrite
    simp only [hip]
    generalize writeChunks buffer env.room (s.inode ip).data position 0 nbytes = r
    obtain ⟨data, n⟩ := r
    have hsize : (if (s.inode ip).size < position + n then position + n else (s.inode ip).size) =
        position + n := by
      split
      · rfl
      · omega
    simp only [hsize]
    refine ⟨_, rfl, ?_, rfl, rfl⟩
    show (s.inode ip).size ≤ position + n
    omega
  rw [hres]
  have hrep : Repositioned s (moveTo (s.setNode ip rip) f rip.size) :=
    repositioned_moveTo (s.setNode ip rip) f _
  have hne : ∀ g, g ≠ f → ((moveTo (s.setNode ip rip) f rip.size).filp g).pos = (s.filp g).pos :=
    fun g hg => moveTo_of_ne (s.setNode ip rip) _ hg
  have hnode : (moveTo (s.setNode ip rip) f rip.size).inode ip = rip := update_self ..
  refine hs.update ip hrep (fun i hi => update_of_ne hi ..)
    (fun g hg => hne g (hunused g hg)) ?_
  refine (hs ip).extended hf hrep ?_ ?_ ?_ hne
  · rw [hnode, moveTo_self]
  · rw [hnode, hconsumed]
  · rw [hnode, hpipe]

theorem Calm.reads (hc : Calm s s') : Reads s' i g ↔ Reads s i g := by
  unfold Reads Uses
  rw [hc.filp]

theorem Calm.writes (hc : Calm s s') : Writes s' i g ↔ Writes s i g := by
  unfold Writes Uses
  rw [hc.filp]

/-- A writer starts at the end of the file. -/
theorem Positions.startPos (hs : Positions s) (hf : Writes s ip f) :
    startPos s f .writing = (s.inode ip).size := by
  unfold Fifo.startPos
  cases happend : (s.filp f).append with
  | true => simp [hf.1.2]
  | false =>
    rw [if_neg (by simp)]
    exact (hs ip).writers f hf happend

/-- A read that leaves no other reader behind, and every write, is in place. -/
theorem Positions.inPlace (hs : Positions s) (htables : TablesOk s) {rw : Rw} {nbytes : ℤ}
    (hfine : rw = .reading → ∀ f, (s.fproc who).filp fd = some f → ReadsFine s f nbytes) :
    InPlace s who rw fd := by
  intro f hfd hmode
  have huses : Uses s (s.filp f).ino f := ⟨htables.count_ne_zero hfd, rfl⟩
  cases rw with
  | reading => exact .inl ((hs _).readers f ⟨huses, hmode, (hfine rfl f hfd hmode).1⟩)
  | writing => exact hs.startPos ⟨huses, hmode⟩

theorem Positions.readWrite (hs : Positions s) (hok : FifosOk s) (env : Env) {rw : Rw} {call : Call}
    (hfine : rw = .reading → ∀ f, (s.fproc who).filp call.fd = some f → ReadsFine s f call.nbytes) :
    Positions (readWrite s env who rw call).1 := by
  unfold Fifo.readWrite
  split
  · exact hs
  split
  · exact hs
  next f hfd =>
  simp only
  split
  · exact hs
  next hmode =>
  split
  · exact hs
  split
  · exact hs
  have huses : Uses s (s.filp f).ino f := ⟨hok.tables.count_ne_zero hfd, rfl⟩
  have hcalm := pipeCheck_calm s who rw call (s.filp f) (Fifo.startPos s f rw)
  have hs' := hs.of_calm hcalm
  split
  · next hcheck =>
    rw [hcheck] at hs'
    exact hs'
  · next hcheck =>
    rw [hcheck] at hs'
    exact hs'
  next s' hcheck =>
  rw [hcheck] at hcalm hs'
  have hcalm : Calm s s' := hcalm
  cases rw with
  | reading =>
    have hr : (s.filp f).mode.r = true := by simpa [Mode.has] using hmode
    obtain ⟨hw, halone⟩ := hfine rfl f hfd hr
    have hreads : Reads s (s.filp f).ino f := ⟨huses, hr, hw⟩
    refine hs'.finishRead (hcalm.reads.mpr hreads) ?_ ?_
    · rw [hcalm.inode]
      refine halone.imp (fun h g hg => h g (hcalm.reads.mp hg)) fun h => ?_
      omega
    · rw [hcalm.inode]
      exact (hok.flow _ (hok.tables.inode_ne_zero huses.1)).inside
  | writing =>
    have hwrites : Writes s (s.filp f).ino f := ⟨huses, by simpa [Mode.has] using hmode⟩
    refine hs'.finishWrite (hcalm.writes.mpr hwrites) env _ _ ?_
    rw [hcalm.inode]
    exact hs.startPos hwrites

/-! ## §4 Descriptors -/

/-- The descriptors of processes do not matter. -/
theorem Positions.of_tables (hs : Positions s) (hfilp : s'.filp = s.filp) (hinode : s'.inode = s.inode) :
    Positions s' := hs.of_fewer (fun _ => .of_filp hfilp) fun i => by rw [hinode]

/-- The number of users of a filp in use has changed. -/
theorem fewer_recount {x : OpenFile} (hplace : place x = place (s.filp f)) (hf : (s.filp f).count ≠ 0) :
    Fewer i s (s.setFilp f x) := by
  intro g hg
  by_cases hgf : g = f
  · subst hgf
    unfold Uses at hg ⊢
    simp only [State.setFilp, update_self] at hg ⊢
    exact ⟨⟨hf, (place_eq hplace).2.2.1.symm.trans hg.2⟩, hplace⟩
  · unfold Uses at hg ⊢
    simp only [State.setFilp, update_of_ne hgf] at hg ⊢
    exact ⟨hg, trivial⟩

theorem Positions.dropFd (hs : Positions s) (hok : FifosOk s) (hfd : (s.fproc who).filp fd = some f) :
    Positions (dropFd s who fd f) := by
  have hin := hok.tables.count_ne_zero hfd
  set ip := (s.filp f).ino with hip
  set x : OpenFile := { s.filp f with count := (s.filp f).count - 1 } with hx
  set s₁ := s.setFilp f x with hs1
  have hself : s₁.filp f = x := update_self ..
  have hpos1 : Positions s₁ := hs.of_fewer (fun i => fewer_recount rfl hin) fun _ => rfl
  unfold Fifo.dropFd
  simp only [← hip]
  split
  next hlast =>
    rw [hself] at hlast
    refine (hpos1.putInode ip fun hone => ?_).of_tables
      (s := Fifo.putInode s₁ ip) rfl rfl
    -- the last filp of the inode has been given up
    apply not_uses_of_refCount
    have hold : fileRef s f = some ip := if_neg hin
    rw [hs1, fileRef_setFilp, if_pos hlast, refCount_drop hold, ← hok.tables.inodes, if_pos rfl]
    exact hone
  next => exact hpos1.of_tables rfl rfl

theorem Positions.doClose (hs : Positions s) (hok : FifosOk s) (who : ProcNr) (fd : Fd) :
    Positions (doClose s who fd).1 := by
  unfold Fifo.doClose
  split
  · exact hs
  next f hfd =>
  simp only
  split
  · have hcalm := release_calm s (s.filp f).ino (if (s.filp f).mode.r then .write else .read) nrProcs
    refine (hs.of_calm hcalm).dropFd (hok.of_calm hcalm) ?_
    exact (congrFun hcalm.desc (who, fd)).trans hfd
  · exact hs.dropFd hok hfd

theorem Positions.share (hs : Positions s) (hin : (s.filp f).count ≠ 0) :
    Positions ((s.setFilp f { s.filp f with count := (s.filp f).count + 1 }).link who fd (some f)) := by
  have hcount : Positions (s.setFilp f { s.filp f with count := (s.filp f).count + 1 }) :=
    hs.of_fewer (fun _ => fewer_recount (x := { s.filp f with count := (s.filp f).count + 1 }) rfl hin)
      fun _ => rfl
  exact hcount.of_tables rfl rfl

theorem Positions.doDup (hs : Positions s) (hok : FifosOk s) (who : ProcNr) (fd : Fd) (fd2 : Option Fd) :
    Positions (doDup s who fd fd2).1 := by
  unfold Fifo.doDup
  split
  · exact hs
  next f hfd =>
  have hin := hok.tables.count_ne_zero hfd
  simp only
  split
  · split
    · exact hs
    · exact hs.share hin
  · split
    · exact hs
    next fd2 hne =>
    have hclose := doClose_ok hok who fd2
    have hfd' : ((Fifo.doClose s who fd2).1.fproc who).filp fd = some f := by
      have heq := congrFun (doClose_desc s who fd2) (who, fd)
      rw [update_of_ne fun h => hne (Prod.mk.inj h).2] at heq
      exact heq.trans hfd
    exact (hs.doClose hok who fd2).share (hclose.tables.count_ne_zero hfd')

theorem Positions.closeAll (hs : Positions s) (hok : FifosOk s) (who : ProcNr) (l : List Fd) :
    Positions (l.foldl (fun s fd => (Fifo.doClose s who fd).1) s) := by
  induction l generalizing s with
  | nil => exact hs
  | cons fd l ih => exact ih (hs.doClose hok who fd) (doClose_ok hok who fd)

theorem Positions.doExit (hs : Positions s) (hok : FifosOk s) (who : ProcNr) : Positions (doExit s who) := by
  unfold Fifo.doExit
  simp only
  split
  · have hcount : Calm s { s with suspCount := s.suspCount - 1 } := ⟨rfl, rfl, rfl⟩
    have hcalm := (hcount.trans (doUnpause_calm _ who)).trans (setProc_calm (p := who)
      (x := { (doUnpause { s with suspCount := s.suspCount - 1 } who).fproc who with
        suspended := false }) rfl)
    exact (hs.of_calm hcalm).closeAll (hok.of_calm hcalm) who _
  · exact hs.closeAll hok who _

/-- The loop of `do_fork` counts, and moves nothing. -/
theorem foldl_countFilp_place (cp : Proc) (l : List Fd) (s : State) (g : FilpNr) :
    place ((l.foldl (countFilp cp) s).filp g) = place (s.filp g) := by
  induction l generalizing s with
  | nil => rfl
  | cons fd l ih =>
    refine (ih (countFilp cp s fd)).trans ?_
    unfold countFilp
    split
    · rfl
    next f _ =>
    by_cases hg : g = f
    · simp [State.setFilp, hg, place]
    · simp [State.setFilp, hg]

theorem Positions.doFork (hs : Positions s) (hok : FifosOk s) {parent child : ProcNr} :
    Positions (doFork s parent child) := by
  set cp := s.fproc parent with hcp
  obtain ⟨-, hinode, hfilp⟩ := foldl_countFilp cp (List.finRange openMax) (s.setProc child cp)
  refine hs.of_fewer (fun i g hg => ?_) fun i => ?_
  · have hplace := foldl_countFilp_place cp (List.finRange openMax) (s.setProc child cp) g
    refine ⟨⟨fun hzero => ?_, (place_eq hplace).2.2.1.symm.trans hg.2⟩, hplace⟩
    -- a filp that is not in use is not inherited
    have hcount := (hfilp g).2
    have hsum : ((List.finRange openMax).map fun fd => refOf (cp.filp fd) g).sum = 0 := by
      apply List.sum_eq_zero
      intro n hn
      obtain ⟨fd, -, rfl⟩ := List.mem_map.mp hn
      by_cases hfd : cp.filp fd = some g
      · exact absurd hzero (hok.tables.count_ne_zero hfd)
      · exact if_neg hfd
    rw [hsum, Nat.add_zero] at hcount
    exact hg.1 (hcount.trans hzero)
  · exact congrArg level (congrFun hinode i)

/-! ## §5 Open -/

/-- An open does not break in.  A writer without `O_APPEND` comes when there is no other writer and the
FIFO is empty, one with `O_APPEND` when all writers have it, and a reader when nothing has been read
since the FIFO was last empty. -/
def OpensFine (s : State) (ip : InodeNr) (call : OpenCall) : Prop :=
  (s.inode ip).count ≠ 0 →
    if call.bits.w then
      if call.append then ∀ g, Writes s ip g → (s.filp g).append = true
      else (s.inode ip).size = 0 ∧ ∀ g, ¬Writes s ip g
    else call.bits.r = true → (s.inode ip).consumed = 0

/-- A new filp for the inode `ip`, at the position 0. -/
theorem Positions.claim (hs : Positions s) {x : OpenFile} (hino : x.ino = ip) (hzero : x.pos = 0)
    (hreader : x.mode.r = true → x.mode.w = false → (s.inode ip).consumed = 0)
    (hplain : x.mode.w = true → x.append = false → (s.inode ip).size = 0 ∧ ∀ g, ¬Writes s ip g)
    (happend : x.mode.w = true → x.append = true → ∀ g, Writes s ip g → (s.filp g).append = true)
    (hpipe : x.mode.w = true → (s.inode ip).isPipe = true) : Positions (s.setFilp f x) := by
  have hself : (s.setFilp f x).filp f = x := update_self ..
  have hother : ∀ g, g ≠ f → (s.setFilp f x).filp g = s.filp g := fun g hg =>
    update_of_ne hg ..
  have huses : ∀ i g, g ≠ f → Uses (s.setFilp f x) i g → Uses s i g := fun i g hgf hg => by
    unfold Uses at hg ⊢
    rwa [hother g hgf] at hg
  have hreads : ∀ i g, g ≠ f → Reads (s.setFilp f x) i g → Reads s i g := fun i g hgf hg => by
    have hold := huses i g hgf hg.1
    unfold Reads at hg ⊢
    rw [hother g hgf] at hg
    exact ⟨hold, hg.2⟩
  have hwrites : ∀ i g, g ≠ f → Writes (s.setFilp f x) i g → Writes s i g := fun i g hgf hg => by
    have hold := huses i g hgf hg.1
    unfold Writes at hg ⊢
    rw [hother g hgf] at hg
    exact ⟨hold, hg.2⟩
  intro i
  by_cases hi : i = ip
  swap
  · -- the filp is not one of another inode
    refine (hs i).of_fewer (fun g hg => ?_) rfl
    have hgf : g ≠ f := by
      rintro rfl
      have hino' := hg.2
      rw [hself] at hino'
      exact hi (hino'.symm.trans hino)
    exact ⟨huses i g hgf hg, by rw [hother g hgf]⟩
  subst hi
  have hconsumed : Reads (s.setFilp f x) i f → (s.inode i).consumed = 0 := fun hf => by
    have hmode := hf.2
    rw [hself] at hmode
    exact hreader hmode.1 hmode.2
  have hxw : Writes (s.setFilp f x) i f → x.mode.w = true := fun hf => by
    have hmode := hf.2
    rwa [hself] at hmode
  constructor
  · intro g hg
    by_cases hgf : g = f
    · subst hgf
      rw [hself, hzero]
      exact (hconsumed hg).symm
    · rw [hother g hgf]
      exact (hs i).readers g (hreads i g hgf hg)
  · intro g g' hg hg' hne
    by_cases hgf : g = f
    · subst hgf
      exact hconsumed hg
    by_cases hgf' : g' = f
    · subst hgf'
      exact hconsumed hg'
    · exact (hs i).several g g' (hreads i g hgf hg) (hreads i g' hgf' hg') hne
  · intro g hg hnot
    by_cases hgf : g = f
    · subst hgf
      rw [hself] at hnot ⊢
      rw [hzero]
      exact (hplain (hxw hg) hnot).1.symm
    · rw [hother g hgf] at hnot ⊢
      exact (hs i).writers g (hwrites i g hgf hg) hnot
  · intro g g' hg hg' hnot
    by_cases hgf : g = f
    · subst hgf
      rw [hself] at hnot
      by_contra hne
      exact (hplain (hxw hg) hnot).2 g' (hwrites i g' hne hg')
    rw [hother g hgf] at hnot
    have hold := hwrites i g hgf hg
    by_cases hgf' : g' = f
    · -- beside a writer without `O_APPEND` there is no new one
      subst hgf'
      cases hx : x.append with
      | false => exact absurd hold ((hplain (hxw hg') hx).2 g)
      | true =>
        rw [happend (hxw hg') hx g hold] at hnot
        cases hnot
    · exact (hs i).alone g g' hold (hwrites i g' hgf' hg') hnot
  · intro g hg
    by_cases hgf : g = f
    · subst hgf
      exact hpipe (hxw hg)
    · exact (hs i).pipe g (hwrites i g hgf hg)
  · exact (hs i).empty

theorem Positions.markPipe (hs : Positions s) (ip : InodeNr) :
    Positions (s.setNode ip { s.inode ip with isPipe := true }) := by
  intro i
  by_cases hi : i = ip
  · subst hi
    have hold := hs i
    have hnode : (s.setNode i { s.inode i with isPipe := true }).inode i =
        { s.inode i with isPipe := true } := update_self ..
    constructor
    · rw [hnode]
      exact hold.readers
    · rw [hnode]
      exact hold.several
    · rw [hnode]
      exact hold.writers
    · exact hold.alone
    · rw [hnode]
      exact fun _ _ => rfl
    · rw [hnode]
      exact fun h => nomatch h
  · refine (hs i).of_fewer (.of_filp rfl) ?_
    simp [State.setNode, hi]

/-- What `pipe_open` leaves to `common_open` when it goes on. -/
theorem Positions.pipeOpen (hs : Positions s) (who : ProcNr) (ip : InodeNr) (call : OpenCall) (fd : Fd) :
    Positions (pipeOpen s who ip call fd).1 ∧
      ((pipeOpen s who ip call fd).1.inode ip).size = (s.inode ip).size ∧
      ((pipeOpen s who ip call fd).1.inode ip).consumed = (s.inode ip).consumed ∧
      ((pipeOpen s who ip call fd).2.1 = ok → call.bits.w = true →
        ((pipeOpen s who ip call fd).1.inode ip).isPipe = true) := by
  unfold Fifo.pipeOpen
  simp only
  have hmark : ∀ t : State, Calm s t → Positions (t.setNode ip { t.inode ip with isPipe := true }) ∧
      ((t.setNode ip { t.inode ip with isPipe := true }).inode ip).size = (s.inode ip).size ∧
      ((t.setNode ip { t.inode ip with isPipe := true }).inode ip).consumed = (s.inode ip).consumed ∧
      ((t.setNode ip { t.inode ip with isPipe := true }).inode ip).isPipe = true := by
    intro t ht
    refine ⟨(hs.of_calm ht).markPipe ip, ?_⟩
    simp [State.setNode, ht.inode]
  split
  · split
    · refine ⟨hs, rfl, rfl, fun hr hw => ?_⟩
      rw [if_pos hw] at hr
      change enxio = ok at hr
      exact absurd hr (by decide)
    · obtain ⟨hpos, hsize, hconsumed, hpipe⟩ :=
        hmark _ (suspend_calm s who .xopen ⟨call.nr, fd, 0, fun _ => 0⟩)
      exact ⟨hpos, hsize, hconsumed, fun _ _ => hpipe⟩
  · obtain ⟨hpos, hsize, hconsumed, hpipe⟩ := hmark _ (wakeOpeners_calm s ip)
    exact ⟨hpos, hsize, hconsumed, fun _ _ => hpipe⟩

/-- An inode that `get_inode` has found or loaded, for an open that does not break in. -/
theorem OpensFine.getInode {call : OpenCall} (hfine : OpensFine s ip call) (htables : TablesOk s) :
    (call.bits.w = true → call.append = true →
      ∀ g, Writes (getInode s ip) ip g → ((getInode s ip).filp g).append = true) ∧
    (call.bits.w = true → call.append = false →
      ((getInode s ip).inode ip).size = 0 ∧ ∀ g, ¬Writes (getInode s ip) ip g) ∧
    (call.bits.r = true → call.bits.w = false → ((getInode s ip).inode ip).consumed = 0) := by
  unfold Fifo.getInode
  by_cases hzero : (s.inode ip).count = 0
  · have hunused := not_uses_of_refCount (by rw [← htables.inodes, hzero] : refCount (fileRef s) ip = 0)
    refine ⟨fun _ _ g hg => absurd hg.1 (hunused g), fun _ _ => ⟨?_, fun g hg => hunused g hg.1⟩,
      fun _ _ => ?_⟩
    · simp [State.setNode, hzero, Node.fresh]
    · simp [State.setNode, hzero, Node.fresh]
  · have hopen := hfine hzero
    refine ⟨fun hw ha => ?_, fun hw ha => ?_, fun hr hw => ?_⟩
    · rw [if_pos hw, if_pos ha] at hopen
      exact hopen
    · rw [if_pos hw, if_neg (by simp [ha])] at hopen
      refine ⟨?_, hopen.2⟩
      simpa [State.setNode, hzero] using hopen.1
    · rw [if_neg (by simp [hw])] at hopen
      simpa [State.setNode, hzero] using hopen hr

theorem Positions.commonOpen (hs : Positions s) (hok : FifosOk s) (who : ProcNr) (call : OpenCall)
    (hfine : ∀ ip, call.found = .ok ip → call.forbidden = ok → OpensFine s ip call) :
    Positions (commonOpen s who call).1 := by
  unfold Fifo.commonOpen
  split
  · exact hs
  next fd f hget =>
  obtain ⟨hfd, hf⟩ := getFd_ok hget
  simp only
  -- the slot that is filled in is not in use
  set s₁ := s.setFilp f
    { s.filp f with mode := call.bits, pos := 0, nonblock := false, append := false } with hs1
  have hself1 : s₁.filp f =
      { s.filp f with mode := call.bits, pos := 0, nonblock := false, append := false } :=
    update_self ..
  have hother1 : ∀ g, (s₁.filp g).count ≠ 0 → s₁.filp g = s.filp g := fun g hg => by
    by_cases hgf : g = f
    · subst hgf
      rw [hself1] at hg
      exact absurd hf hg
    · exact update_of_ne hgf ..
  have hfewer1 : ∀ i, Fewer i s s₁ := fun i g hg => by
    have hsame := hother1 g hg.1
    unfold Uses at hg ⊢
    rw [hsame] at hg ⊢
    exact ⟨hg, rfl⟩
  have hcounts : ∀ g, (s₁.filp g).count = (s.filp g).count ∧ (s₁.filp g).ino = (s.filp g).ino := by
    intro g
    by_cases hgf : g = f
    · simp [hs1, State.setFilp, hgf]
    · simp [hs1, State.setFilp, hgf]
  have hpos1 : Positions s₁ := hs.of_fewer hfewer1 fun _ => rfl
  have hok1 : FifosOk s₁ :=
    ⟨hok.tables.of_counts rfl (fun g => (hcounts g).1) (fun g => (hcounts g).2) fun _ => rfl, hok.flow⟩
  split
  · exact hpos1
  next ip hfound =>
  have hpend := getInode_pending hok1 ip
  have hpos2 := hpos1.getInode hok1.tables ip
  have hfilp2 : (Fifo.getInode s₁ ip).filp = s₁.filp := rfl
  set s₂ := Fifo.getInode s₁ ip with hs2
  have hput : ∀ t : State, Pending ip t → Positions t → Positions (Fifo.putInode t ip) := by
    intro t ht hpos
    refine hpos.putInode _ fun hone => not_uses_of_refCount ?_
    have hcount := ht.inodes ip
    rw [if_pos rfl] at hcount
    omega
  split
  · exact hput s₂ hpend hpos2
  next hallowed =>
  have hfine1 : OpensFine s₁ ip call := by
    intro hin
    have hopen := hfine ip hfound (by simpa using hallowed) hin
    revert hopen
    split_ifs
    · exact fun h g hg => by
        rw [hother1 g hg.1.1]
        exact h g ((hfewer1 ip).writes hg)
    · exact fun h => ⟨h.1, fun g hg => h.2 g ((hfewer1 ip).writes hg)⟩
    · exact id
  obtain ⟨happend, hplain, hreader⟩ := hfine1.getInode hok1.tables
  obtain ⟨hopen, hdesc, hfilp⟩ := pipeOpen_pending who hpend call fd
  obtain ⟨hpos3, hsize, hconsumed, hpipe⟩ := hpos2.pipeOpen who ip call fd
  split
  · exact hput _ hopen hpos3
  next hr =>
  set s₃ := (Fifo.pipeOpen s₂ who ip call fd).1 with hs3
  have hwrites : ∀ g, Writes s₃ ip g → Writes s₂ ip g := fun g hg => (Fewer.of_filp hfilp).writes hg
  have hslot : ((s₃.link who fd (some f)).filp f) =
      { s.filp f with mode := call.bits, pos := 0, nonblock := false, append := false } := by
    show s₃.filp f = _
    rw [hfilp, hfilp2, hself1]
  have hlink : Positions (s₃.link who fd (some f)) := hpos3.of_tables rfl rfl
  refine hlink.claim rfl ?_ ?_ ?_ ?_ ?_
  · show ((s₃.link who fd (some f)).filp f).pos = 0
    rw [hslot]
  · show ((s₃.link who fd (some f)).filp f).mode.r = true →
      ((s₃.link who fd (some f)).filp f).mode.w = false → _
    rw [hslot]
    intro hr hw
    exact hconsumed.trans (hreader hr hw)
  · show ((s₃.link who fd (some f)).filp f).mode.w = true → call.append = false → _
    rw [hslot]
    intro hw ha
    obtain ⟨hzero, hnone⟩ := hplain hw ha
    exact ⟨hsize.trans hzero, fun g hg => hnone g (hwrites g hg)⟩
  · show ((s₃.link who fd (some f)).filp f).mode.w = true → call.append = true → _
    rw [hslot]
    intro hw ha g hg
    show (s₃.filp g).append = true
    rw [hfilp]
    exact happend hw ha g (hwrites g hg)
  · show ((s₃.link who fd (some f)).filp f).mode.w = true → _
    rw [hslot]
    exact hpipe (by simpa using hr)

end

end LisaMinix.Fs.Fifo
