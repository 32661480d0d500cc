import LisaMinix.Fs.Server.Prefetching
import LisaMinix.Fs.Server.Transfer

/-!
# Read Ahead

The loop of `rahead`, over any map from positions to blocks.

- `aheadQueue`, `aheadRead`: the two parts of `rahead`, which fill the queue and have it read.
- `Looks`: what the loop needs of the blocks that it looks at.
- `aheadStep_looks`, `aheadLoop_looks`: the queue after one turn, and after all.
- `aheadRead_brings`: the block is brought as `get_block` would have brought it.
- `rahead_blockSpec`: block special files.
-/

namespace LisaMinix.Fs.Server

open LisaMinix.Library

/-! ## §1 The Parts of `rahead` -/

/-- What the loop of `rahead` is given for an inode. -/
def aheadArgs (rip : InodeId) (i : Inode) : AheadArgs where
  rip := rip
  dev := if i.blockSpec then i.zone 0 else i.dev
  blockSpec := i.blockSpec
  perTrack := blocksPerTrack (if i.blockSpec then i.size else 80 * 2 * 15 * 512)
  fileSize := if i.blockSpec ∧ i.size = 0 then maxPLong else i.size

/-- The two phases of the loop. -/
def aheadPhases (a : AheadArgs) (seek : Bool) (bytes : ℤ) (st : Ahead) : FsM Ahead := do
  let st ← aheadLoop a false ((bytes + blockSize - 1) / blockSize - 1).toNat st
  if seek = false ∧ bytes % blockSize = 0 then aheadLoop a true (a.perTrack + 7) st else pure st

/-- The first part of `rahead`: a buffer that holds the block, or a queue of buffers. -/
def aheadQueue (rip : InodeId) (baseblock : ℕ) (position bytesAhead : ℤ) :
    FsM (BufId × Option (List BufId)) := do
  let i ← readInode rip
  let a := aheadArgs rip i
  let bp ← liftC (getBlock a.dev baseblock .prefetch)
  let b := (← get).cache.buf bp
  if b.dev ≠ noDev then return (bp, none)
  else
    let fragment := position % blockSize
    let st ← aheadPhases a i.seek (fragment + bytesAhead)
      { position := toLong (position - fragment + blockSize)
        maxTrack := b.blocknr / a.perTrack
        readQ := [bp] }
    return (bp, some st.readQ)

/-- The second part of `rahead`: the queue is read. -/
def aheadRead (dev baseblock : ℕ) : BufId × Option (List BufId) → FsM BufId
  | (bp, none) => pure bp
  | (_, some q) => do
    liftC (rwScattered dev q .reading)
    liftC (getBlock dev baseblock .normal)

theorem rahead_wp {E : Panic → FsState → Prop} {rip : InodeId} {b : ℕ} {position bytesAhead : ℤ}
    {s : FsState} {Q : BufId → FsState → Prop}
    (h : Wp E (aheadQueue rip b position bytesAhead) s fun x s' =>
      Wp E (aheadRead (aheadArgs rip (s.inodes rip)).dev b x) s' Q) :
    Wp E (rahead rip b position bytesAhead) s Q := by
  unfold aheadQueue at h
  unfold rahead
  rw [wp_bind, wp_readInode] at h ⊢
  rw [wp_bind, wp_liftC] at h ⊢
  refine Wp.mono h fun bp c₁ h => ?_
  rw [wp_bind, wp_get] at h ⊢
  dsimp only at h ⊢
  split
  next hvalid =>
    rw [if_pos hvalid] at h
    exact h
  next hvoid =>
    rw [if_neg hvoid, aheadPhases, wp_bind, wp_bind] at h
    rw [wp_bind]
    refine Wp.mono h fun st s₂ h => ?_
    split
    next hmore =>
      rw [if_pos hmore] at h
      rw [wp_bind]
      exact h
    next hstop =>
      rw [if_neg hstop] at h
      exact h

/-! ## §2 The Loop -/

/-- A cache in whose buffers something has been put is used as before. -/
theorem Linked.sameUse {c c' : Cache} (hc : Linked c) (hc' : Linked c')
    (h : ∀ x, (c'.buf x).count = (c.buf x).count) : c'.bufsInUse = c.bufsInUse := by
  rw [hc'.inUse, hc.inUse]
  simp only [h]

theorem Queued.mono {dev b₀ : ℕ} {c₀ c : Cache} {N N' : ℕ → Prop} {q : List BufId}
    (h : Queued dev b₀ c₀ N q c) (hN : ∀ b, N b → N' b) : Queued dev b₀ c₀ N' q c where
  toPending := h.toPending
  absent := h.absent
  named x hx := hN _ (h.named x hx)

/-- The blocks at the block positions from `n₀` to `n`. -/
def Seen (m : ℕ → ℕ) (n₀ n : ℕ) (b : ℕ) : Prop := ∃ k, n₀ ≤ k ∧ k < n ∧ m k = b

theorem Seen.succ {m : ℕ → ℕ} {n₀ n b : ℕ} (h : Seen m n₀ n b) : Seen m n₀ (n + 1) b := by
  obtain ⟨k, hk0, hk, hb⟩ := h
  exact ⟨k, hk0, Nat.lt_succ_of_lt hk, hb⟩

/-- What the loop needs: the block at block position `n` is `m n`, and to find it only blocks for which `V` holds
    are used; `P` is what else is known of the cache. -/
structure Looks (a : AheadArgs) (P : Cache → Prop) (V : ℕ → Prop) (m : ℕ → ℕ) (n₀ : ℕ)
    (s₀ : FsState) : Prop where
  driver : HasDriver a.dev
  fetch : ∀ c b, P c → ReturnsC (getBlock a.dev b .prefetch) c fun _ c' => P c'
  put : ∀ c bp, P c → (s₀.cache.buf bp).count < (c.buf bp).count →
    ReturnsC (putBuf bp .fullDataBlock) c fun _ c' => P c'
  size : a.blockSpec = false → a.fileSize ≤ 2 ^ 31 - blockSize
  look : ∀ (n : ℕ) c, P c → Linked c → Served c → c.bufsInUse < a.limit →
    (a.blockSpec = false → (n * blockSize : ℤ) < 2 ^ 31) →
    Surely (aheadBlock a (toLong (n * blockSize))) { s₀ with cache := c } fun b s' =>
      b = m n ∧ s' = { s₀ with cache := s'.cache } ∧ Visits a.dev V c s'.cache ∧ Served s'.cache ∧
        P s'.cache
  visits : ∀ k, ¬V (m k)
  apart : ∀ k n, n₀ ≤ k → k < n → n < n₀ + 65536 → a.blockSpec = true ∨ m n ≠ 0 → m k ≠ m n

/-- The loop is at block position `n`. -/
structure Looking (a : AheadArgs) (P : Cache → Prop) (m : ℕ → ℕ) (n₀ : ℕ) (s₀ : FsState) (n : ℕ)
    (st : Ahead) (s : FsState) : Prop where
  frame : s = { s₀ with cache := s.cache }
  position : st.position = toLong (n * blockSize)
  near : a.blockSpec = false → (n * blockSize : ℤ) < 2 ^ 31
  queued : Queued a.dev (m n₀) s₀.cache (Seen m n₀ n) st.readQ s.cache
  extra : P s.cache

section

variable {a : AheadArgs} {P : Cache → Prop} {V : ℕ → Prop} {m : ℕ → ℕ} {n₀ n : ℕ} {s₀ s : FsState} {st : Ahead}
  {readingAhead : Bool}

/-- The limit on the buffers leaves one to spare. -/
theorem AheadArgs.limit_le (a : AheadArgs) : a.limit ≤ nrBufs := by
  unfold AheadArgs.limit
  split <;> decide

theorem Looking.next (h : Looking a P m n₀ s₀ n st s) (hl : Looks a P V m n₀ s₀)
    (hmore : st.position < a.fileSize) :
    toLong (st.position + blockSize) = toLong ((n + 1 : ℕ) * blockSize) ∧
      (a.blockSpec = false → (((n + 1 : ℕ) : ℤ) * blockSize) < 2 ^ 31) := by
  have hnext : (n * blockSize : ℤ) + blockSize = ((n + 1 : ℕ) : ℤ) * blockSize := by
    push_cast
    ring
  refine ⟨?_, fun hfile => ?_⟩
  · rw [h.position, toLong_add]
    exact congrArg toLong hnext
  · have hnear := h.near hfile
    have hsize := hl.size hfile
    have hzero : (0 : ℤ) ≤ n * blockSize := mul_nonneg (Int.natCast_nonneg n) (Int.natCast_nonneg _)
    rw [h.position, toLong_eq hzero hnear] at hmore
    unfold blockSize at *
    push_cast at *
    omega

/-- The block is asked for, and its buffer is put in the queue or given back. -/
theorem aheadFetch_looks {position : ℤ} {maxTrack : ℕ} {c : Cache} (hl : Looks a P V m n₀ s₀)
    (h0 : Linked s₀.cache) (hn : n₀ < n) (hlast : n < n₀ + 65536)
    (hblock : a.blockSpec = true ∨ m n ≠ 0)
    (hq : Queued a.dev (m n₀) s₀.cache (Seen m n₀ n) st.readQ c) (hP : P c)
    (hroom : c.bufsInUse < nrBufs) (hposition : position = toLong ((n + 1 : ℕ) * blockSize))
    (hnear : a.blockSpec = false → (((n + 1 : ℕ) : ℤ) * blockSize) < 2 ^ 31) :
    Surely (do
      let bp ← liftC (getBlock a.dev (m n) .prefetch)
      if ((← get).cache.buf bp).dev = noDev then
        return ({ position := position, maxTrack := maxTrack, readQ := st.readQ ++ [bp] } : Ahead)
      else
        liftC (putBlock (.to bp) .fullDataBlock)
        return { st with position := position, maxTrack := maxTrack }) { s₀ with cache := c }
      fun st' s' => Looking a P m n₀ s₀ (n + 1) st' s' := by
  have hdev := hl.driver.ne_noDev
  have hnew : ¬Seen m n₀ n (m n) := by
    rintro ⟨k, hk0, hk, heq⟩
    exact hl.apart k n hk0 hk hlast hblock heq
  have hfetched : ReturnsC (getBlock a.dev (m n) .prefetch) c fun bp c' =>
      Fetched a.dev (m n) .prefetch bp c c' ∧ P c' := (getBlock_fetched hq.linked).and (hl.fetch c _ hP)
  have hspec := Surely.and (getBlock_surely hq.linked hq.served hroom hl.driver) hfetched
  rw [Surely, wp_bind, wp_liftC]
  refine Wp.mono hspec ?_
  rintro bp c₁ ⟨hserved1, hf, hP1⟩
  rw [wp_bind, wp_get]
  refine wp_ite (fun hvoid => ?_) fun hvalid => ?_
  · rw [wp_pure]
    refine ⟨rfl, hposition, hnear, ?_, hP1⟩
    exact hq.push h0 hdev hf hvoid hserved1 hnew (fun _ => Seen.succ) ⟨n, hn.le, Nat.lt_succ_self n, rfl⟩
  · -- the block was in the cache
    have hholds : Holds c bp a.dev (m n) := by
      rcases hf.came with ⟨hholds, -⟩ | ⟨-, -, hnone⟩
      · exact hholds
      · exact absurd hnone hvalid
    have hmore : (s₀.cache.buf bp).count < (c₁.buf bp).count := by
      rw [hf.count, if_pos rfl, hq.count]
      split <;> omega
    have hused : (c₁.buf bp).count ≠ 0 := by
      have hnonneg := h0.nonneg bp
      omega
    have hput : ReturnsC (putBuf bp .fullDataBlock) c₁ fun _ c' =>
        (Counted bp ((c₁.buf bp).count - 1) c₁ c' ∧ c'.writes = c₁.writes) ∧ P c' :=
      (putBuf_counted hf.linked hused rfl (by decide)).and (hl.put c₁ bp hP1 hmore)
    rw [wp_bind, wp_liftC]
    refine Wp.mono (Surely.and (putBuf_surely rfl (by decide) hserved1) hput) ?_
    rintro _ c' ⟨hserved', ⟨hcounted, hwrites⟩, hP'⟩
    have hvisits : Visits a.dev (fun _ => False) c c' :=
      hf.visits hq.linked (by decide) hcounted hwrites (.inl hholds)
    rw [wp_pure]
    refine ⟨rfl, hposition, hnear, ?_, hP'⟩
    exact (hq.visits h0 hdev hvisits hserved' (fun _ hV => hV.elim) id).mono fun _ => Seen.succ

/-- One turn of the loop. -/
theorem aheadStep_looks (hl : Looks a P V m n₀ s₀) (h0 : Linked s₀.cache)
    (h : Looking a P m n₀ s₀ n st s) (hn : n₀ < n) (hlast : n < n₀ + 65536)
    (hmore : st.position < a.fileSize) (hroom : s.cache.bufsInUse < a.limit) :
    Surely (aheadStep a readingAhead st) s fun st' s' => Looking a P m n₀ s₀ (n + 1) st' s' := by
  obtain ⟨hposition, hnear⟩ := h.next hl hmore
  have hlook := hl.look n s.cache h.extra h.queued.linked h.queued.served hroom h.near
  rw [← h.frame, ← h.position] at hlook
  unfold aheadStep
  rw [Surely, wp_bind]
  refine Wp.mono hlook ?_
  rintro _ s₁ ⟨rfl, hframe1, hvisits, hserved1, hP1⟩
  have hqueued1 := h.queued.visits h0 hl.driver.ne_noDev hvisits hserved1
    (fun b hV => by
      rintro ⟨k, -, -, rfl⟩
      exact hl.visits k hV) (hl.visits n₀)
  have hskip (maxTrack : ℕ) : Looking a P m n₀ s₀ (n + 1)
      { st with position := toLong (st.position + blockSize), maxTrack := maxTrack } s₁ :=
    ⟨hframe1, hposition, hnear, hqueued1.mono fun _ => Seen.succ, hP1⟩
  dsimp only
  refine wp_ite (fun _ => hskip st.maxTrack) fun _ => ?_
  refine wp_ite (fun hblock => ?_) fun _ => hskip _
  have hroom1 : s₁.cache.bufsInUse < nrBufs := by
    rw [h.queued.linked.sameUse hvisits.linked hvisits.count]
    exact lt_of_lt_of_le hroom a.limit_le
  rw [hframe1]
  exact aheadFetch_looks hl h0 hn hlast hblock hqueued1 hP1 hroom1 hposition hnear

theorem aheadLoop_looks {k : ℕ} (hl : Looks a P V m n₀ s₀) (h0 : Linked s₀.cache)
    (h : Looking a P m n₀ s₀ n st s) (hn : n₀ < n) (hlast : n + k ≤ n₀ + 65536) :
    Surely (aheadLoop a readingAhead k st) s fun st' s' =>
      ∃ n', n₀ < n' ∧ n' ≤ n + k ∧ Looking a P m n₀ s₀ n' st' s' := by
  induction k generalizing n st s with
  | zero => exact ⟨n, hn, le_rfl, h⟩
  | succ k ih =>
    unfold aheadLoop Surely
    rw [wp_bind, wp_get]
    refine wp_ite (fun _ => ⟨n, hn, Nat.le_add_right .., h⟩) fun hgo => ?_
    obtain ⟨hmore, hroom⟩ := not_or.mp hgo
    rw [wp_bind]
    refine Wp.mono (aheadStep_looks hl h0 h hn (by omega) (not_le.mp hmore) (not_le.mp hroom)) ?_
    intro st' s' h'
    refine (ih h' (by omega) (by omega)).mono ?_
    rintro st'' s'' ⟨n', hn', hle, h''⟩
    exact ⟨n', hn', by omega, h''⟩

theorem aheadPhases_looks {seek : Bool} {bytes : ℤ} (hl : Looks a P V m n₀ s₀) (h0 : Linked s₀.cache)
    (h : Looking a P m n₀ s₀ (n₀ + 1) st s) (hbytes : bytes ≤ 65535) (htrack : a.perTrack ≤ 18) :
    Surely (aheadPhases a seek bytes st) s fun st' s' => ∃ n', Looking a P m n₀ s₀ n' st' s' := by
  have hfew : ((bytes + blockSize - 1) / blockSize - 1).toNat ≤ 64 := by
    unfold blockSize
    omega
  unfold aheadPhases
  rw [Surely, wp_bind]
  refine Wp.mono (aheadLoop_looks hl h0 h (Nat.lt_succ_self n₀) (by omega)) ?_
  rintro st₁ s₁ ⟨n₁, hn1, hle, h1⟩
  refine wp_ite (fun _ => ?_) fun _ => ⟨n₁, h1⟩
  refine (aheadLoop_looks hl h0 h1 hn1 (by omega)).mono ?_
  rintro st₂ s₂ ⟨n₂, -, -, h2⟩
  exact ⟨n₂, h2⟩

end

/-! ## §3 The Block and the Queue -/

theorem blocksPerTrack_le (devSize : ℤ) : blocksPerTrack devSize ≤ 18 := by
  unfold blocksPerTrack
  split
  · decide
  · split <;> decide

/-- The block is in a buffer, or it waits in a queue. -/
def AheadReady (dev b : ℕ) (c₀ : Cache) (x : BufId × Option (List BufId)) (c : Cache) : Prop :=
  match x.2 with
  | none => Brought dev b x.1 c₀ c
  | some q => Pending dev b c₀ q c ∧ ∀ y, ¬Holds c₀ y dev b

section

variable {rip : InodeId} {P : Cache → Prop} {V : ℕ → Prop} {m : ℕ → ℕ} {s : FsState} {dev b n₀ : ℕ}
  {position bytesAhead : ℤ}

theorem aheadQueue_looks (hl : Looks (aheadArgs rip (s.inodes rip)) P V m n₀ s)
    (h0 : Spacious s.cache) (hP : P s.cache) (hn0 : n₀ = position / blockSize)
    (hnear : (s.inodes rip).blockSpec = false → position < 2 ^ 31 - blockSize)
    (hbytes : bytesAhead ≤ 32767) :
    Surely (aheadQueue rip (m n₀) position bytesAhead) s fun x s' =>
      s' = { s with cache := s'.cache } ∧
        AheadReady (aheadArgs rip (s.inodes rip)).dev (m n₀) s.cache x s'.cache ∧ P s'.cache := by
  have hdev := hl.driver.ne_noDev
  have hfetched : ReturnsC (getBlock (aheadArgs rip (s.inodes rip)).dev (m n₀) .prefetch) s.cache
      fun bp c' => Fetched (aheadArgs rip (s.inodes rip)).dev (m n₀) .prefetch bp s.cache c' ∧ P c' :=
    (getBlock_fetched h0.linked).and (hl.fetch _ _ hP)
  unfold aheadQueue
  rw [Surely, wp_bind, wp_readInode]
  dsimp only
  rw [wp_bind, wp_liftC]
  refine Wp.mono (Surely.and (getBlock_surely h0.linked h0.served h0.room hl.driver) hfetched) ?_
  rintro bp c₁ ⟨hserved1, hf, hP1⟩
  rw [wp_bind, wp_get]
  dsimp only
  refine wp_ite (fun hvalid => ?_) fun hvoid => ?_
  · exact ⟨rfl, hf.brought h0.linked hdev hserved1 hvalid, hP1⟩
  · have hnone : (c₁.buf bp).dev = noDev := not_not.mp hvoid
    have habsent : ∀ y, ¬Holds s.cache y (aheadArgs rip (s.inodes rip)).dev (m n₀) := by
      rcases hf.came with ⟨-, hsame, -⟩ | ⟨-, habsent, -⟩
      · exact absurd (hsame.symm.trans hnone) hdev
      · exact habsent hdev
    have hqueued : Queued (aheadArgs rip (s.inodes rip)).dev (m n₀) s.cache (Seen m n₀ (n₀ + 1))
        ([] ++ [bp]) c₁ :=
      (queued_nil (N := fun _ => False) h0.linked h0.served habsent).push h0.linked hdev hf hnone hserved1 id
        (fun _ => False.elim) ⟨n₀, le_rfl, Nat.lt_succ_self n₀, rfl⟩
    have hnext : position - position % blockSize + blockSize = ((n₀ + 1 : ℕ) : ℤ) * blockSize := by
      have hdiv := Int.mul_ediv_add_emod position blockSize
      push_cast
      rw [hn0]
      linarith
    have hlooking : Looking (aheadArgs rip (s.inodes rip)) P m n₀ s (n₀ + 1)
        { position := toLong (position - position % blockSize + blockSize)
          maxTrack := (c₁.buf bp).blocknr / (aheadArgs rip (s.inodes rip)).perTrack
          readQ := [bp] } { s with cache := c₁ } := by
      refine ⟨rfl, congrArg toLong hnext, fun hfile => ?_, hqueued, hP1⟩
      have hlow := hnear hfile
      unfold blockSize at *
      omega
    have hfew : position % blockSize + bytesAhead ≤ 65535 := by
      unfold blockSize
      omega
    rw [wp_bind]
    refine Wp.mono (aheadPhases_looks hl h0.linked hlooking hfew (blocksPerTrack_le _)) ?_
    rintro st s' ⟨n', h'⟩
    exact ⟨h'.frame, ⟨h'.queued.toPending, habsent⟩, h'.extra⟩

/-- The queue is read, whatever the disk answers. -/
theorem aheadRead_brings {x : BufId × Option (List BufId)} {c₀ : Cache} (h0 : Spacious c₀)
    (hdev : HasDriver dev) (h : AheadReady dev b c₀ x s.cache) :
    Surely (aheadRead dev b x) s fun bp s' =>
      s' = { s with cache := s'.cache } ∧ Brought dev b bp c₀ s'.cache := by
  obtain ⟨bp, q⟩ := x
  cases q with
  | none => exact ⟨rfl, h⟩
  | some q =>
    obtain ⟨hpending, habsent⟩ := h
    unfold aheadRead
    rw [Surely, wp_bind, wp_liftC]
    refine Wp.mono (rwScattered_drains h0.linked hdev hpending) fun _ c₁ h1 => ?_
    rw [wp_liftC]
    refine Wp.mono (getBlock_drained h0 hdev h1 habsent) fun bp c' h' => ?_
    exact ⟨rfl, h'⟩

end

/-! ## §4 Block Special Files -/

/-- The block at a block position of a device, of which the cache knows the lower 16 bits. -/
def deviceBlock (n : ℕ) : ℕ := n % 65536

theorem toLong_block (n : ℕ) :
    ((toLong (n * blockSize)).tdiv blockSize % 65536).toNat = deviceBlock n := by
  obtain ⟨k, hk⟩ : ∃ k : ℤ, toLong (n * blockSize) = ((n : ℤ) + 65536 * k) * blockSize := by
    unfold toLong blockSize
    push_cast
    split
    · exact ⟨-64 * (n * 1024 / 2 ^ 32), by omega⟩
    · exact ⟨-64 * (n * 1024 / 2 ^ 32) - 64, by omega⟩
  rw [hk, Int.mul_tdiv_cancel _ (by decide), Int.add_mul_emod_self_left]
  unfold deviceBlock
  omega

/-- A device has no map, and its blocks are not distinct from the 65536th on. -/
theorem looks_blockSpec {rip : InodeId} {s : FsState} (n₀ : ℕ)
    (hspec : (s.inodes rip).blockSpec = true) (hdev : HasDriver ((s.inodes rip).zone 0)) :
    Looks (aheadArgs rip (s.inodes rip)) (fun _ => True) (fun _ => False) deviceBlock n₀ s where
  driver := by
    unfold aheadArgs
    rw [if_pos hspec]
    exact hdev
  fetch _ _ _ := wp_true
  put _ _ _ _ := wp_true
  size hfile := absurd (hspec.symm.trans hfile) (by decide)
  look n c _ hlinked hserved _ _ := by
    unfold aheadBlock
    rw [if_pos (show (aheadArgs rip (s.inodes rip)).blockSpec = true from hspec)]
    exact ⟨toLong_block n, rfl, .refl hlinked, hserved, trivial⟩
  visits _ := id
  apart k n hk hlt hnear _ := by
    unfold deviceBlock
    omega

/-- `rahead` for a block special file. -/
theorem rahead_blockSpec {rip : InodeId} {s : FsState} {position bytesAhead : ℤ}
    (hspec : (s.inodes rip).blockSpec = true) (hdev : HasDriver ((s.inodes rip).zone 0))
    (h0 : Spacious s.cache) (hpos : 0 ≤ position) (hbytes : bytesAhead ≤ 32767) :
    Surely (rahead rip (deviceBlock (position / blockSize).toNat) position bytesAhead) s fun bp s' =>
      s' = { s with cache := s'.cache } ∧
        Brought ((s.inodes rip).zone 0) (deviceBlock (position / blockSize).toNat) bp s.cache s'.cache := by
  have hl := looks_blockSpec (position / blockSize).toNat hspec hdev
  have hargs : (aheadArgs rip (s.inodes rip)).dev = (s.inodes rip).zone 0 := if_pos hspec
  have hn0 : ((position / blockSize).toNat : ℤ) = position / blockSize :=
    Int.toNat_of_nonneg (Int.ediv_nonneg hpos (Int.natCast_nonneg _))
  refine rahead_wp ((aheadQueue_looks hl h0 trivial hn0 (fun hfile => ?_) hbytes).mono ?_)
  · exact absurd (hspec.symm.trans hfile) (by decide)
  · rintro x s₁ ⟨hframe, hready, -⟩
    rw [hargs] at hready ⊢
    refine (aheadRead_brings h0 hdev hready).mono ?_
    rintro bp s' ⟨hframe', hbrought⟩
    rw [hframe] at hframe'
    exact ⟨hframe', hbrought⟩

end LisaMinix.Fs.Server
