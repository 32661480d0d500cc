import LisaMinix.Fs.PipeWait

/-!
# The Bytes in a Pipe

What a transfer does to the contents of a pipe, and the invariant of the data: what has been
sent is what has been received, followed by the contents between the read position and the
end.

- `readChunks_eq` and `writeChunks_spec`: the loops of `read_write`, chunk by chunk.
- `TableOk`: descriptors, filps and inodes agree, and a pipe has one filp for each end.
- `DataOk`: positions, sizes and contents.
-/

namespace LisaMinix.Fs

open LisaMinix.Mm (ProcNr nrProcs)
open LisaMinix.Library Function

variable {data : ℕ → UInt8} {n pos : ℕ} {rip : Inode}

/-! ## §1 Transfers -/

/-- `n` bytes of the contents from position `a` on. -/
def slice (data : ℕ → UInt8) (a n : ℕ) : List UInt8 := (List.range n).map fun k => data (a + k)

@[simp] theorem slice_length (data : ℕ → UInt8) (a n : ℕ) : (slice data a n).length = n := by
  simp [slice]

@[simp] theorem slice_zero (data : ℕ → UInt8) (a : ℕ) : slice data a 0 = [] := rfl

theorem slice_append (data : ℕ → UInt8) (a m n : ℕ) :
    slice data a (m + n) = slice data a m ++ slice data (a + m) n := by
  simp [slice, List.range_add, Nat.add_assoc]

theorem slice_congr {data' : ℕ → UInt8} {a : ℕ} (h : ∀ k, k < n → data' (a + k) = data (a + k)) :
    slice data' a n = slice data a n :=
  List.map_congr_left fun k hk => h k (List.mem_range.mp hk)

theorem chunkSize_pos (position : ℕ) {left : ℕ} (h : left ≠ 0) : 0 < chunkSize position left := by
  have : position % blockSize < blockSize := Nat.mod_lt _ (by decide)
  unfold chunkSize
  omega

theorem chunkSize_le (position left : ℕ) : chunkSize position left ≤ left := Nat.min_le_left _ _

/-- **A read copies the bytes from the position on**, as many as there are or as wanted. -/
theorem readChunks_eq (data : ℕ → UInt8) (fSize : ℕ) (fuel position left : ℕ) (h : left ≤ fuel) :
    readChunks data fSize fuel position left = slice data position (min left (fSize - position)) := by
  induction fuel generalizing position left with
  | zero =>
    have : left = 0 := by omega
    subst this
    simp [readChunks]
  | succ fuel ih =>
    unfold readChunks
    split
    · next hend =>
      have : min left (fSize - position) = 0 := by omega
      rw [this, slice_zero]
    · next hmore =>
      have hpos := chunkSize_pos position (show left ≠ 0 by omega)
      have hle := chunkSize_le position left
      set chunk := min (chunkSize position left) (fSize - position) with hchunk
      show slice data position chunk ++ _ = _
      rw [ih _ _ (by omega)]
      have hsplit : min left (fSize - position) =
          chunk + min (left - chunk) (fSize - (position + chunk)) := by omega
      rw [hsplit, slice_append]

/-- **A write stores a part of the buffer at the position**, and changes nothing below. -/
theorem writeChunks_spec (buffer : ℕ → UInt8) (room : ℕ) (data : ℕ → UInt8)
    (position cumIo left : ℕ) :
    ∃ data' n, writeChunks buffer room data position cumIo left = (data', cumIo + n) ∧ n ≤ left ∧
      (∀ a, a < position → data' a = data a) ∧ ∀ k, k < n → data' (position + k) = buffer (cumIo + k) := by
  induction room generalizing data position cumIo left with
  | zero => exact ⟨data, 0, rfl, by omega, fun _ _ => rfl, fun k hk => absurd hk (by omega)⟩
  | succ room ih =>
    unfold writeChunks
    split
    · exact ⟨data, 0, rfl, by omega, fun _ _ => rfl, fun k hk => absurd hk (by omega)⟩
    · set chunk := chunkSize position left with hchunk
      set data₁ := fun a => if position ≤ a ∧ a < position + chunk then
        buffer (cumIo + (a - position)) else data a with hdata1
      have hle := chunkSize_le position left
      obtain ⟨data', n, hrun, hn, hbelow, hstored⟩ := ih data₁ (position + chunk) (cumIo + chunk)
        (left - chunk)
      refine ⟨data', chunk + n, ?_, by omega, fun a ha => ?_, fun k hk => ?_⟩
      · simp only
        rw [hrun, Nat.add_assoc]
      · rw [hbelow a (by omega), hdata1]
        simp only
        rw [if_neg (by omega)]
      · by_cases hkc : k < chunk
        · -- stored by this chunk
          rw [hbelow _ (by omega), hdata1]
          simp only
          rw [if_pos (by omega)]
          congr 1
          omega
        · have := hstored (k - chunk) (by omega)
          rw [show position + k = position + chunk + (k - chunk) by omega, this]
          congr 1
          omega

/-! ## §2 Descriptors, filps and inodes -/

/-- How many descriptors of a process refer to the filp `f`. -/
def held (x : Fproc) (f : FilpNr) : ℕ := (List.finRange openMax).countP fun fd => x.filp fd == some f

/-- How many descriptors refer to the filp `f`. -/
def refs (s : FsState) (f : FilpNr) : ℕ := ∑ p, held (s.fproc p) f

/-- How many filps of an inode are in use. -/
def ends (s : FsState) (i : InodeNr) : ℕ :=
  (List.finRange nrFilps).countP fun f => (s.filp f).count != 0 && (s.filp f).ino == i

structure TableOk (s : FsState) : Prop where
  counts : ∀ f, (s.filp f).count = refs s f
  /-- a pipe has one filp for each end -/
  unique : ∀ f g, (s.filp f).count ≠ 0 → (s.filp g).count ≠ 0 → (s.filp f).ino = (s.filp g).ino →
    (s.filp f).mode = (s.filp g).mode → f = g
  icount : ∀ i, (s.inode i).count = ends s i

/-- The parts of the tables that `TableOk` reads are equal. -/
structure SameTable (s s' : FsState) : Prop where
  filp : ∀ p, (s'.fproc p).filp = (s.fproc p).filp
  count : ∀ f, (s'.filp f).count = (s.filp f).count
  mode : ∀ f, (s'.filp f).mode = (s.filp f).mode
  ino : ∀ f, (s'.filp f).ino = (s.filp f).ino
  icount : ∀ i, (s'.inode i).count = (s.inode i).count

section Tables

variable {s s' : FsState} {f g : FilpNr} {p : ProcNr} {fd : Fd} {i : InodeNr}

theorem TableOk.of_same (ht : TableOk s) (h : SameTable s s') : TableOk s' where
  counts f := by
    have hrefs : refs s' f = refs s f := by
      unfold refs held
      simp only [h.filp]
    rw [h.count, hrefs, ht.counts]
  unique f g := by
    rw [h.count, h.count, h.ino, h.ino, h.mode, h.mode]
    exact ht.unique f g
  icount i := by
    have hends : ends s' i = ends s i := by
      unfold ends
      simp only [h.count, h.ino]
    rw [h.icount, hends, ht.icount]

theorem held_pos {x : Fproc} (h : x.filp fd = some f) : 0 < held x f :=
  List.countP_pos_iff.mpr ⟨fd, List.mem_finRange fd, by simp [h]⟩

/-- A filp that some descriptor refers to is in use. -/
theorem TableOk.count_ne_zero (ht : TableOk s) (h : (s.fproc p).filp fd = some f) :
    (s.filp f).count ≠ 0 := by
  rw [ht.counts, refs]
  have hle : held (s.fproc p) f ≤ ∑ q, held (s.fproc q) f :=
    Finset.single_le_sum (f := fun q => held (s.fproc q) f) (fun _ _ => Nat.zero_le _)
      (Finset.mem_univ p)
  have := held_pos h
  omega

theorem findFilp_some {mode : Rw} (h : findFilp s i mode = some g) :
    (s.filp g).count ≠ 0 ∧ (s.filp g).ino = i ∧ (s.filp g).mode = mode := by
  have := List.find?_some h
  simp only [Bool.and_eq_true, bne_iff_ne, ne_eq, beq_iff_eq] at this
  exact ⟨this.1.1, this.1.2, this.2⟩

theorem findFilp_none {mode : Rw} (h : findFilp s i mode = none) (hg : (s.filp g).count ≠ 0)
    (hino : (s.filp g).ino = i) : (s.filp g).mode ≠ mode := by
  intro hmode
  have := List.find?_eq_none.mp h g (List.mem_finRange g)
  simp [hg, hino, hmode] at this

end Tables

/-! ## §3 Positions and contents -/

/-- The bytes that the writes have put into a pipe, one after the other. -/
def sentBytes (rip : Inode) : List UInt8 := (rip.sent.map fun x => x.asked.take x.taken).flatten

/-- What is known of a call of write: it was short enough, and it was taken whole unless it
was answered with an error. -/
structure PieceOk (x : Piece) : Prop where
  short : x.asked.length ≤ pipeSize
  taken : x.taken ≤ x.asked.length
  whole : 0 ≤ x.result → x.result = x.asked.length ∧ x.taken = x.asked.length

/-- The read position is inside the contents, unless the pipe is empty, and what has been sent
and not received is in the pipe. -/
structure ReadEnd (rip : Inode) (pos : ℕ) : Prop where
  inside : pos < rip.size ∨ pos = 0 ∧ rip.size = 0
  stream : sentBytes rip = rip.received ++ slice rip.data pos (rip.size - pos)

structure DataOk (s : FsState) : Prop where
  size : ∀ i, (s.inode i).size ≤ pipeSize
  writer : ∀ f, (s.filp f).count ≠ 0 → (s.filp f).mode = .writing →
    (s.filp f).pos = (s.inode (s.filp f).ino).size
  reader : ∀ f, (s.filp f).count ≠ 0 → (s.filp f).mode = .reading →
    ReadEnd (s.inode (s.filp f).ino) (s.filp f).pos
  order : ∀ i, (s.inode i).received <+: sentBytes (s.inode i)
  pieces : ∀ i, ∀ x ∈ (s.inode i).sent, PieceOk x

/-- The part of a buffer that was taken is what is found in the contents. -/
theorem take_asked {buffer : ℕ → UInt8} {nbytes position : ℕ} (hn : n ≤ nbytes)
    (hstored : ∀ k, k < n → data (position + k) = buffer k) :
    ((List.range nbytes).map buffer).take n = slice data position n := by
  rw [slice, ← List.map_take, List.take_range, Nat.min_eq_left hn]
  exact List.map_congr_left fun k hk => (hstored k (List.mem_range.mp hk)).symm

/-- A read moves bytes from the contents to what has been received. -/
theorem stream_take (h : sentBytes rip = rip.received ++ slice rip.data pos (rip.size - pos))
    (hn : n ≤ rip.size - pos) :
    sentBytes rip = rip.received ++ slice rip.data pos n ++
      slice rip.data (pos + n) (rip.size - pos - n) := by
  rw [h, List.append_assoc, ← slice_append]
  congr 2
  omega

/-- What a write puts at the end of the contents comes at the end of the stream. -/
theorem stream_put (h : sentBytes rip = rip.received ++ slice rip.data pos (rip.size - pos))
    (hpos : pos ≤ rip.size) {x : Piece} (hbelow : ∀ a, a < rip.size → data a = rip.data a)
    (hpiece : x.asked.take x.taken = slice data rip.size n) :
    sentBytes { rip with sent := rip.sent ++ [x] } =
      rip.received ++ slice data pos (rip.size + n - pos) := by
  have hold : slice data pos (rip.size - pos) = slice rip.data pos (rip.size - pos) :=
    slice_congr fun k hk => hbelow _ (by omega)
  have hsent : sentBytes { rip with sent := rip.sent ++ [x] } =
      sentBytes rip ++ x.asked.take x.taken := by
    simp [sentBytes]
  rw [hsent, h, hpiece, show rip.size + n - pos = (rip.size - pos) + n by omega, slice_append, hold,
    show pos + (rip.size - pos) = rip.size by omega, List.append_assoc]

theorem ReadEnd.le_size (h : ReadEnd rip pos) : pos ≤ rip.size := by
  rcases h.inside with hlt | ⟨h0, h0'⟩
  · exact le_of_lt hlt
  · omega

theorem ReadEnd.put (h : ReadEnd rip pos) {x : Piece}
    (hbelow : ∀ a, a < rip.size → data a = rip.data a)
    (hpiece : x.asked.take x.taken = slice data rip.size n) :
    ReadEnd { rip with data := data, size := rip.size + n, sent := rip.sent ++ [x] } pos where
  inside := by
    have := h.inside
    show pos < rip.size + n ∨ pos = 0 ∧ rip.size + n = 0
    omega
  stream := stream_put h.stream h.le_size hbelow hpiece

section Transfer

variable {s s' : FsState} {f : FilpNr} {i : InodeNr} {rip : Inode}

/-- `s'` is `s` with a new inode in slot `i`; only file positions of its filps have changed. -/
structure Transfer (s s' : FsState) (i : InodeNr) (rip : Inode) : Prop where
  fproc : s'.fproc = s.fproc
  inode : s'.inode = update s.inode i rip
  icount : rip.count = (s.inode i).count
  count : ∀ g, (s'.filp g).count = (s.filp g).count
  mode : ∀ g, (s'.filp g).mode = (s.filp g).mode
  ino : ∀ g, (s'.filp g).ino = (s.filp g).ino
  pos : ∀ g, (s.filp g).ino ≠ i → (s'.filp g).pos = (s.filp g).pos
  suspCount : s'.suspCount = s.suspCount
  reviving : s'.reviving = s.reviving
  elsewhere : s'.elsewhere = s.elsewhere

theorem Transfer.sameTable (h : Transfer s s' i rip) : SameTable s s' where
  filp p := by rw [h.fproc]
  count := h.count
  mode := h.mode
  ino := h.ino
  icount j := by
    rw [h.inode]
    by_cases hj : j = i
    · rw [hj, update_self, h.icount]
    · rw [update_of_ne hj]

/-- The invariant of the data, when the new inode and the positions fit together. -/
theorem DataOk.transfer (hd : DataOk s) (h : Transfer s s' i rip) (hsize : rip.size ≤ pipeSize)
    (hw : ∀ g, (s.filp g).count ≠ 0 → (s.filp g).ino = i → (s.filp g).mode = .writing →
      (s'.filp g).pos = rip.size)
    (hr : ∀ g, (s.filp g).count ≠ 0 → (s.filp g).ino = i → (s.filp g).mode = .reading →
      ReadEnd rip (s'.filp g).pos)
    (horder : rip.received <+: sentBytes rip) (hpieces : ∀ x ∈ rip.sent, PieceOk x) :
    DataOk s' where
  size j := by
    rw [h.inode]
    by_cases hj : j = i
    · rw [hj, update_self]
      exact hsize
    · rw [update_of_ne hj]
      exact hd.size j
  writer g hg hmode := by
    rw [h.count] at hg
    rw [h.mode] at hmode
    rw [h.ino, h.inode]
    by_cases hi : (s.filp g).ino = i
    · rw [hi, update_self]
      exact hw g hg hi hmode
    · rw [update_of_ne hi, h.pos g hi]
      exact hd.writer g hg hmode
  reader g hg hmode := by
    rw [h.count] at hg
    rw [h.mode] at hmode
    rw [h.ino, h.inode]
    by_cases hi : (s.filp g).ino = i
    · rw [hi, update_self]
      exact hr g hg hi hmode
    · rw [update_of_ne hi, h.pos g hi]
      exact hd.reader g hg hmode
  order j := by
    rw [h.inode]
    by_cases hj : j = i
    · rw [hj, update_self]
      exact horder
    · rw [update_of_ne hj]
      exact hd.order j
  pieces j := by
    rw [h.inode]
    by_cases hj : j = i
    · rw [hj, update_self]
      exact hpieces
    · rw [update_of_ne hj]
      exact hd.pieces j

theorem Transfer.sameWait (h : Transfer s s' i rip)
    (hsize : ∀ p, hangsOn s i .reading p = true → (s.inode i).size = 0 → rip.size = 0) :
    SameWait s s' where
  fproc := h.fproc
  mode := h.mode
  ino := h.ino
  suspCount := h.suspCount
  reviving := h.reviving
  elsewhere := h.elsewhere
  size j p hp hz := by
    rw [h.inode]
    by_cases hj : j = i
    · rw [hj] at hp hz
      rw [hj, update_self]
      exact hsize p hp hz
    · rw [update_of_ne hj]
      exact hz

/-- The file position of one filp changes. -/
theorem setFilp_pos (s : FsState) (f : FilpNr) (pos : ℕ) (g : FilpNr) :
    ((s.setFilp f { s.filp f with pos := pos }).filp g).pos = (if g = f then pos else (s.filp g).pos) ∧
    ((s.setFilp f { s.filp f with pos := pos }).filp g).count = (s.filp g).count ∧
    ((s.setFilp f { s.filp f with pos := pos }).filp g).mode = (s.filp g).mode ∧
    ((s.setFilp f { s.filp f with pos := pos }).filp g).ino = (s.filp g).ino := by
  by_cases hg : g = f
  · simp [FsState.setFilp, hg]
  · simp [FsState.setFilp, hg]

/-- Everything has been read: the pipe pointers are reset. -/
def resetPipe (s : FsState) (f : FilpNr) (rip : Inode) : FsState :=
  let s := s.setInode (s.filp f).ino rip
  let s := match findFilp s (s.filp f).ino .writing with
    | none => s
    | some wf => s.setFilp wf { s.filp wf with pos := 0 }
  s.setFilp f { s.filp f with pos := 0 }

/-- What a read does: the bytes at the position, and the pipe pointers are moved or reset. -/
theorem finishRead_eq (s : FsState) (f : FilpNr) (nbytes : ℕ) {rip : Inode} {n : ℕ}
    (hrip : rip = s.inode (s.filp f).ino) (hn : n = min nbytes (rip.size - (s.filp f).pos)) :
    finishRead s f nbytes =
      (if rip.size ≤ (s.filp f).pos + n then
        resetPipe s f { rip with received := rip.received ++ slice rip.data (s.filp f).pos n, size := 0 }
      else (s.setInode (s.filp f).ino { rip with
          received := rip.received ++ slice rip.data (s.filp f).pos n }).setFilp f
        { s.filp f with pos := (s.filp f).pos + n }, (n : ℤ)) := by
  subst hrip
  unfold finishRead
  simp only
  rw [readChunks_eq _ _ _ _ _ (le_refl nbytes), ← hn, slice_length]
  split
  · rfl
  · rfl

theorem resetPipe_transfer (s : FsState) (f : FilpNr) (rip : Inode)
    (hcount : rip.count = (s.inode (s.filp f).ino).count) :
    Transfer s (resetPipe s f rip) (s.filp f).ino rip ∧
      ((resetPipe s f rip).filp f).pos = 0 ∧
      ∀ g, findFilp s (s.filp f).ino .writing = some g → ((resetPipe s f rip).filp g).pos = 0 := by
  unfold resetPipe
  simp only
  have hfind : findFilp (s.setInode (s.filp f).ino rip) (s.filp f).ino .writing =
      findFilp s (s.filp f).ino .writing := rfl
  rw [show ((s.setInode (s.filp f).ino rip).filp f).ino = (s.filp f).ino from rfl, hfind]
  cases hwf : findFilp s (s.filp f).ino .writing with
  | none =>
    simp only
    set s₁ := s.setInode (s.filp f).ino rip with hs1
    refine ⟨⟨rfl, rfl, hcount, fun g => (setFilp_pos s₁ f 0 g).2.1, fun g => (setFilp_pos s₁ f 0 g).2.2.1,
      fun g => (setFilp_pos s₁ f 0 g).2.2.2, fun g hg => ?_, rfl, rfl, rfl⟩, ?_, fun g hg => ?_⟩
    · rw [(setFilp_pos s₁ f 0 g).1, if_neg fun heq => hg (by rw [heq])]
      rfl
    · rw [(setFilp_pos s₁ f 0 f).1, if_pos rfl]
    · exact absurd hg (by simp)
  | some wf =>
    simp only
    have hino := (findFilp_some hwf).2.1
    set s₁ := s.setInode (s.filp f).ino rip with hs1
    set s₂ := s₁.setFilp wf { s₁.filp wf with pos := 0 } with hs2
    have h1 := setFilp_pos s₁ wf 0
    have h2 := setFilp_pos s₂ f 0
    refine ⟨⟨rfl, rfl, hcount, fun g => ((h2 g).2.1).trans (h1 g).2.1,
      fun g => ((h2 g).2.2.1).trans (h1 g).2.2.1, fun g => ((h2 g).2.2.2).trans (h1 g).2.2.2,
      fun g hg => ?_, rfl, rfl, rfl⟩, ?_, fun g hg => ?_⟩
    · rw [(h2 g).1, if_neg fun heq => hg (by rw [heq]), (h1 g).1,
        if_neg fun heq => hg (by rw [heq]; exact hino)]
      rfl
    · rw [(h2 f).1, if_pos rfl]
    · simp only [Option.some.injEq] at hg
      subst hg
      rw [(h2 wf).1]
      split
      · rfl
      · rw [(h1 wf).1, if_pos rfl]

/-- **A read keeps the stream**: what it returns is the next part of what was sent. -/
theorem finishRead_ok (hd : DataOk s) (ht : TableOk s) (hw : WaitOk s)
    (hf : (s.filp f).count ≠ 0) (hmode : (s.filp f).mode = .reading)
    (hgo : (s.filp f).pos < (s.inode (s.filp f).ino).size) (nbytes : ℕ) :
    DataOk (finishRead s f nbytes).1 ∧ TableOk (finishRead s f nbytes).1 ∧
      WaitOk (finishRead s f nbytes).1 := by
  set rip := s.inode (s.filp f).ino with hrip
  set n := min nbytes (rip.size - (s.filp f).pos) with hn
  have hend := hd.reader f hf hmode
  rw [← hrip] at hend
  have htake := stream_take (n := n) hend.stream (by omega)
  have horder : rip.received ++ slice rip.data (s.filp f).pos n <+: sentBytes rip :=
    ⟨_, htake.symm⟩
  -- the only filp that reads from this pipe is `f`
  have honly : ∀ g, (s.filp g).count ≠ 0 → (s.filp g).ino = (s.filp f).ino →
      (s.filp g).mode = .reading → g = f :=
    fun g hg hi hm => ht.unique g f hg hf hi (hm.trans hmode.symm)
  rw [finishRead_eq s f nbytes hrip hn]
  simp only
  split
  · next hall =>
    obtain ⟨htr, hzero, hzero'⟩ := resetPipe_transfer s f
      { rip with received := rip.received ++ slice rip.data (s.filp f).pos n, size := 0 } rfl
    refine ⟨hd.transfer htr (Nat.zero_le _) (fun g hg hi hm => ?_) (fun g hg hi hm => ?_) horder
      (hd.pieces _), ht.of_same htr.sameTable, hw.of_same (htr.sameWait fun _ _ _ => rfl)⟩
    · -- the writing filp of the pipe is the one that is found
      cases hwf : findFilp s (s.filp f).ino .writing with
      | none => exact absurd hm (findFilp_none hwf hg hi)
      | some wf =>
        obtain ⟨hwc, hwi, hwm⟩ := findFilp_some hwf
        have heq : g = wf := ht.unique g wf hg hwc (hi.trans hwi.symm) (hm.trans hwm.symm)
        exact hzero' g (by rw [hwf, heq])
    · rw [honly g hg hi hm, hzero]
      refine ⟨.inr ⟨rfl, rfl⟩, ?_⟩
      show sentBytes rip = rip.received ++ slice rip.data (s.filp f).pos n ++ slice _ 0 (0 - 0)
      rw [htake, show rip.size - (s.filp f).pos - n = 0 by omega]
      rfl
  · next hsome =>
    set rip' := { rip with received := rip.received ++ slice rip.data (s.filp f).pos n } with hrip'
    set s₁ := s.setInode (s.filp f).ino rip' with hs1
    have h1 := setFilp_pos s₁ f ((s.filp f).pos + n)
    have htr : Transfer s (s₁.setFilp f { s.filp f with pos := (s.filp f).pos + n })
        (s.filp f).ino rip' := by
      refine ⟨rfl, rfl, rfl, fun g => (h1 g).2.1, fun g => (h1 g).2.2.1, fun g => (h1 g).2.2.2,
        fun g hg => ?_, rfl, rfl, rfl⟩
      refine (h1 g).1.trans ?_
      rw [if_neg fun heq => hg (by rw [heq])]
      rfl
    refine ⟨hd.transfer htr (hd.size _) (fun g hg hi hm => ?_) (fun g hg hi hm => ?_) horder
      (hd.pieces _), ht.of_same htr.sameTable, hw.of_same (htr.sameWait fun _ _ hz => hz)⟩
    · refine (h1 g).1.trans ?_
      have hne : g ≠ f := fun heq => by
        rw [heq, hmode] at hm
        exact absurd hm (by decide)
      rw [if_neg hne]
      have := hd.writer g hg hm
      rw [hi, ← hrip] at this
      exact this
    · rw [honly g hg hi hm]
      have hpos := (h1 f).1
      rw [if_pos rfl] at hpos
      refine ⟨.inl ?_, ?_⟩
      · show ((s₁.setFilp f { s₁.filp f with pos := (s.filp f).pos + n }).filp f).pos < rip.size
        omega
      · show sentBytes rip = rip.received ++ slice rip.data (s.filp f).pos n ++
          slice rip.data ((s₁.setFilp f { s₁.filp f with pos := (s.filp f).pos + n }).filp f).pos
            (rip.size - ((s₁.setFilp f { s₁.filp f with pos := (s.filp f).pos + n }).filp f).pos)
        rw [hpos, htake, Nat.sub_sub]

/-- **A write keeps the stream**: what is taken of it comes at the end, in one piece. -/
theorem finishWrite_ok (hd : DataOk s) (ht : TableOk s) (hw : WaitOk s)
    (hf : (s.filp f).count ≠ 0) (hmode : (s.filp f).mode = .writing) {env : Env}
    (henv : env.noRoom < 0) (buffer : ℕ → UInt8) (nbytes : ℕ) {position : ℕ}
    (hpos : position = (s.inode (s.filp f).ino).size) (hfit : position + nbytes ≤ pipeSize)
    (hnobody : ∀ p, hangsOn s (s.filp f).ino .reading p = false) :
    DataOk (finishWrite s env f buffer nbytes position).1 ∧
      TableOk (finishWrite s env f buffer nbytes position).1 ∧
      WaitOk (finishWrite s env f buffer nbytes position).1 := by
  set rip := s.inode (s.filp f).ino with hrip
  obtain ⟨data, n, hrun, hn, hbelow, hstored⟩ :=
    writeChunks_spec buffer env.room rip.data position 0 nbytes
  rw [Nat.zero_add] at hrun
  set x : Piece := ⟨(List.range nbytes).map buffer, n, if n = nbytes then (n : ℤ) else env.noRoom⟩
    with hx
  set rip' : Inode := { rip with data := data, size := rip.size + n, sent := rip.sent ++ [x] }
    with hrip'
  -- the size grows by what was taken
  have hsize : (if rip.size < position + n then position + n else rip.size) = rip.size + n := by
    split
    · omega
    · omega
  set s₁ := s.setInode (s.filp f).ino rip' with hs1
  have hres : (finishWrite s env f buffer nbytes position).1 =
      s₁.setFilp f { s₁.filp f with pos := position + n } := by
    unfold finishWrite
    simp only [← hrip, hrun]
    rw [hsize]
  have h1 := setFilp_pos s₁ f (position + n)
  have htr : Transfer s (s₁.setFilp f { s₁.filp f with pos := position + n }) (s.filp f).ino rip' := by
    refine ⟨rfl, rfl, rfl, fun g => (h1 g).2.1, fun g => (h1 g).2.2.1, fun g => (h1 g).2.2.2,
      fun g hg => ?_, rfl, rfl, rfl⟩
    rw [(h1 g).1, if_neg fun heq => hg (by rw [heq])]
    rfl
  have hpiece : x.asked.take x.taken = slice data rip.size n := by
    rw [← hpos]
    exact take_asked hn fun k hk => by rw [hstored k hk, Nat.zero_add]
  have hxok : PieceOk x := by
    refine ⟨?_, ?_, fun hpos' => ?_⟩
    · simp only [hx, List.length_map, List.length_range]
      omega
    · simpa [hx] using hn
    · simp only [hx, List.length_map, List.length_range] at hpos' ⊢
      split at hpos'
      · next heq =>
        rw [if_pos heq, heq]
        exact ⟨rfl, rfl⟩
      · omega
  rw [hres]
  refine ⟨hd.transfer htr ?_ (fun g hg hi hm => ?_) (fun g hg hi hm => ?_) ?_ ?_,
    ht.of_same htr.sameTable, hw.of_same (htr.sameWait fun p hp _ => ?_)⟩
  · show rip.size + n ≤ pipeSize
    omega
  · -- the only filp that writes to this pipe is `f`
    have heq : g = f := ht.unique g f hg hf hi (hm.trans hmode.symm)
    rw [heq, (h1 f).1, if_pos rfl]
    show position + n = rip.size + n
    omega
  · have hne : g ≠ f := fun heq => by
      rw [heq, hmode] at hm
      exact absurd hm (by decide)
    rw [(h1 g).1, if_neg hne]
    have hend := hd.reader g hg hm
    rw [hi, ← hrip] at hend
    exact hend.put (fun a ha => hbelow a (by omega)) hpiece
  · have hsent : sentBytes rip' = sentBytes rip ++ x.asked.take x.taken := by
      simp [sentBytes, hrip']
    rw [hsent]
    exact (hd.order _).trans (List.prefix_append _ _)
  · intro y hy
    rcases List.mem_append.mp hy with hy | hy
    · exact hd.pieces _ y hy
    · rw [List.mem_singleton.mp hy]
      exact hxok
  · rw [hnobody p] at hp
    exact absurd hp (by decide)

end Transfer

/-! ## §4 Read and write -/

/-- The invariant of the tables, between two turns of the main loop. -/
structure PipesOk (s : FsState) : Prop where
  data : DataOk s
  table : TableOk s
  wait : WaitOk s

section Calls

variable {s : FsState} {who : ProcNr} {f : FilpNr} {call : IoCall}

theorem DataOk.of_eq {s' : FsState} (h : DataOk s) (hfilp : s'.filp = s.filp)
    (hinode : s'.inode = s.inode) : DataOk s' where
  size i := by rw [hinode]; exact h.size i
  writer g := by rw [hfilp, hinode]; exact h.writer g
  reader g := by rw [hfilp, hinode]; exact h.reader g
  order i := by rw [hinode]; exact h.order i
  pieces i := by rw [hinode]; exact h.pieces i

theorem TableOk.of_filps {s' : FsState} (h : TableOk s) (hfilp : s'.filp = s.filp)
    (hinode : s'.inode = s.inode) (hproc : ∀ p, (s'.fproc p).filp = (s.fproc p).filp) :
    TableOk s' :=
  h.of_same ⟨hproc, fun _ => by rw [hfilp], fun _ => by rw [hfilp], fun _ => by rw [hfilp],
    fun _ => by rw [hinode]⟩

theorem releasedAll_filp (ip : InodeNr) (rw : Rw) (p : ProcNr) :
    ((releasedAll s ip rw).fproc p).filp = (s.fproc p).filp := by
  rw [releasedAll_fproc]
  split <;> rfl

theorem PipesOk.releasedAll (h : PipesOk s) (ip : InodeNr) (rw : Rw) :
    PipesOk (Fs.releasedAll s ip rw) :=
  ⟨h.data.of_eq rfl rfl, h.table.of_filps rfl rfl (releasedAll_filp ip rw), h.wait.releasedAll ip rw⟩

theorem suspend_filp (p : ProcNr) : ((suspend s who call).fproc p).filp = (s.fproc p).filp := by
  by_cases hp : p = who
  · rw [hp, suspend_fproc_self]
  · rw [suspend_fproc_of_ne hp]

/-- **A read call** keeps the invariant, whether it reads, is refused or is suspended. -/
theorem pipeRead_ok (h : PipesOk s) (hwho : (s.fproc who).suspended = false)
    (hfd : (s.fproc who).filp call.fd = some f) (hmode : (s.filp f).mode = call.rw)
    (hread : call.rw = .reading) :
    ∃ s' v, pipeCheckRead s who call (s.filp f).ino (s.filp f).nonblock (s.filp f).pos = (s', v) ∧
      PipesOk s' ∧ (v = .go → s' = s ∧ (s.filp f).pos < (s.inode (s.filp f).ino).size) := by
  have hf := h.table.count_ne_zero hfd
  unfold pipeCheckRead
  split
  · next hgo => exact ⟨s, .go, rfl, h, fun _ => ⟨rfl, hgo⟩⟩
  next hempty =>
  -- the position is not inside the contents, so the pipe is empty
  have hzero : (s.inode (s.filp f).ino).size = 0 := by
    rcases (h.data.reader f hf (hmode.trans hread)).inside with hlt | ⟨-, hz⟩
    · exact absurd hlt hempty
    · exact hz
  split
  · exact ⟨s, .answer 0, rfl, h, fun hv => absurd hv (by simp)⟩
  cases hnb : (s.filp f).nonblock with
  | true =>
    simp only [if_true]
    split
    · rw [h.wait.release_eq]
      exact ⟨_, _, rfl, h.releasedAll _ _, fun hv => absurd hv (by simp)⟩
    · exact ⟨_, _, rfl, h, fun hv => absurd hv (by simp)⟩
  | false =>
    simp only [Bool.false_eq_true, if_false]
    have hbase := h.wait.toWaitBase.suspend hwho hfd hmode fun _ => hzero
    have hpos : 0 < (suspend s who call).suspCount := by
      show 0 < s.suspCount + 1
      have := h.wait.susp
      omega
    rw [if_pos hpos, hbase.release_eq]
    refine ⟨_, _, rfl, ⟨h.data.of_eq rfl rfl, h.table.of_filps rfl rfl fun p => ?_,
      h.wait.suspendReader hwho hfd hmode hread hzero⟩, fun hv => absurd hv (by simp)⟩
    rw [releasedAll_filp, suspend_filp]

/-- **A write call**: when it may go on, nobody hangs on the pipe as a reader. -/
theorem pipeWrite_ok (h : PipesOk s) (hwho : (s.fproc who).suspended = false)
    (hfd : (s.fproc who).filp call.fd = some f) (hmode : (s.filp f).mode = call.rw)
    (hwrite : call.rw = .writing) {position : ℕ}
    (hpos : position = (s.inode (s.filp f).ino).size) :
    ∃ s' v, pipeCheckWrite s who call (s.filp f).ino (s.filp f).nonblock position = (s', v) ∧
      PipesOk s' ∧ (v = .go → s'.filp = s.filp ∧ s'.inode = s.inode ∧
        position + call.nbytes ≤ pipeSize ∧
        ∀ p, hangsOn s' (s.filp f).ino .reading p = false) := by
  unfold pipeCheckWrite
  split
  · exact ⟨s, .answer efbig, rfl, h, fun hv => absurd hv (by simp)⟩
  next hshort =>
  split
  · exact ⟨s, .answer epipe, rfl, h, fun hv => absurd hv (by simp)⟩
  split
  · next hfull =>
    cases (s.filp f).nonblock with
    | true => exact ⟨s, .answer eagain, rfl, h, fun hv => absurd hv (by simp)⟩
    | false =>
      -- the call is not longer than the pipe, so there must be something in it
      have hne : (s.inode (s.filp f).ino).size ≠ 0 := by omega
      refine ⟨suspend s who call, .hang, rfl, ⟨h.data.of_eq rfl rfl,
        h.table.of_filps rfl rfl suspend_filp, h.wait.suspendWriter hwho hfd hmode hwrite hne⟩,
        fun hv => absurd hv (by simp)⟩
  next hroom =>
  split
  · next hzero =>
    rw [h.wait.release_eq]
    refine ⟨_, _, rfl, h.releasedAll _ _, fun _ => ⟨rfl, rfl, by omega, fun p => ?_⟩⟩
    rw [hangsOn_releasedAll]
    cases hangsOn s (s.filp f).ino .reading p <;> rfl
  · next hne =>
    refine ⟨s, .go, rfl, h, fun _ => ⟨rfl, rfl, by omega, fun p => ?_⟩⟩
    cases hp : hangsOn s (s.filp f).ino .reading p with
    | false => rfl
    | true => exact absurd (h.wait.empty _ p hp) (by omega)

/-- **`read_write` keeps the invariant.** -/
theorem readWrite_ok (h : PipesOk s) {env : Env} (henv : env.noRoom < 0)
    (hwho : (s.fproc who).suspended = false) (call : IoCall) :
    PipesOk (readWrite s env who call).1 := by
  unfold readWrite
  split
  · exact h
  cases hfd : (s.fproc who).filp call.fd with
  | none => exact h
  | some f =>
    simp only
    have hf := h.table.count_ne_zero hfd
    split
    · exact h
    next hmode =>
    rw [not_not] at hmode
    split
    · exact h
    cases hrw : call.rw with
    | reading =>
      simp only
      obtain ⟨s', v, hrun, hok, hgo⟩ := pipeRead_ok h hwho hfd hmode hrw
      rw [hrun]
      cases v with
      | hang => exact hok
      | answer r => exact hok
      | go =>
        obtain ⟨rfl, hlt⟩ := hgo rfl
        obtain ⟨hd, ht, hw⟩ := finishRead_ok hok.data hok.table hok.wait hf (hmode.trans hrw) hlt
          call.nbytes.toNat
        exact ⟨hd, ht, hw⟩
    | writing =>
      simp only
      split
      · exact h
      -- with or without O_APPEND the position is the end of the contents
      set position := if (s.filp f).append = true then (s.inode (s.filp f).ino).size
        else (s.filp f).pos with hposition
      have hpos : position = (s.inode (s.filp f).ino).size := by
        rw [hposition]
        split
        · rfl
        · exact h.data.writer f hf (hmode.trans hrw)
      obtain ⟨s', v, hrun, hok, hgo⟩ := pipeWrite_ok h hwho hfd hmode hrw hpos
      rw [hrun]
      cases v with
      | hang => exact hok
      | answer r => exact hok
      | go =>
        obtain ⟨hfilp, hinode, hfit, hnobody⟩ := hgo rfl
        rw [← hfilp] at hf hmode hnobody
        rw [← hfilp, ← hinode] at hpos
        obtain ⟨hd, ht, hw⟩ := finishWrite_ok hok.data hok.table hok.wait hf (hmode.trans hrw) henv
          call.buffer call.nbytes.toNat hpos (by omega) hnobody
        exact ⟨hd, ht, hw⟩

end Calls

end LisaMinix.Fs
