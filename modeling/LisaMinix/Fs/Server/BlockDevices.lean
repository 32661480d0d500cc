import LisaMinix.Fs.Server.MakeNode
import LisaMinix.Fs.Server.ReadAhead

/-!
# Block Devices

Which blocks of a device are transferred when a block special file is read or written.  Positions are
32-bit numbers, and the numbers of blocks in the cache have 16 bits.

- `ChunkSeen`, `rwLoopSeen`: the loop of `read_write`, with the buffers that its chunks are copied from or
  to.
- `chunkBuf_supplies`, `copyChunk_copies`: the two parts of `rw_chunk`.
- `rwLoopSeen_transfers`: the chunks of a transfer.
- `rwFile_addresses`: when the blocks are the right ones.
-/

namespace LisaMinix.Fs.Server

open LisaMinix.Library

/-! ## §1 The Chunks of a Transfer -/

/-- A chunk of a transfer: the cache before it, when its bytes are copied from or to buffer `bp`, and after
    it. -/
structure ChunkSeen where
  position : ℤ
  chunk : ℕ
  buff : ℕ
  bp : BufId
  before : Cache
  during : Cache
  after : Cache
  result : ℤ

/-- `rw_chunk` from where it has its buffer. -/
def copyChunk (rip : InodeId) (position : ℤ) (off chunk : ℕ) (rw : RwFlag) (buff : ℕ) (usr : ProcId)
    (bp : BufId) : FsM ℤ := do
  let i ← readInode rip
  if rw = .writing ∧ chunk ≠ blockSize ∧ i.blockSpec = false ∧ i.size ≤ position ∧ off = 0 then
    liftC (zeroBlock bp)
  let r ← rwUser rw usr buff chunk bp off
  if rw = .writing then liftC (modBuf bp fun b => { b with dirt := true })
  liftC (putBlock (.to bp) (if off + chunk = blockSize then .fullDataBlock else .partialDataBlock))
  return r

/-- `rw_chunk`, and the buffer that it has worked on. -/
def rwChunkSeen (rip : InodeId) (position : ℤ) (off chunk : ℕ) (left : ℤ) (rw : RwFlag) (buff : ℕ)
    (usr : ProcId) : FsM (ℤ × List ChunkSeen) := do
  let before := (← get).cache
  match ← chunkBuf rip position off chunk left rw with
  | none => return ((← globals).errCode, [])
  | some bp =>
    let during := (← get).cache
    let r ← copyChunk rip position off chunk rw buff usr bp
    let after := (← get).cache
    return (r, [⟨position, chunk, buff, bp, before, during, after, r⟩])

/-- The loop of `read_write`, and its chunks. -/
def rwLoopSeen (rip : InodeId) (blockSpec : Bool) (fSize : ℤ) (rw : RwFlag) (usr : ProcId) :
    ℕ → ℤ → ℤ → ℤ → FsM ((ℤ × ℤ × ℤ) × List ChunkSeen)
  | 0, r, position, cumIo => return ((r, position, cumIo), [])
  | n + 1, r, position, cumIo => do
    let g ← globals
    if g.nbytes = 0 then return ((r, position, cumIo), [])
    else
      let off := position % blockSize
      let bounded := rw = .reading || blockSpec
      if bounded ∧ fSize ≤ position then return ((r, position, cumIo), [])
      else
        let chunk := min g.nbytes (blockSize - off)
        let chunk := if bounded then min chunk (fSize - position) else chunk
        let x ← rwChunkSeen rip position off.toNat chunk.toNat g.nbytes rw g.buffer usr
        if x.1 ≠ OK ∨ (← get).cache.rdwtErr < 0 then return ((x.1, position, cumIo), x.2)
        else
          modGlobals fun g =>
            { g with buffer := g.buffer + chunk.toNat, nbytes := g.nbytes - chunk }
          let y ← rwLoopSeen rip blockSpec fSize rw usr n x.1 (toLong (position + chunk)) (cumIo + chunk)
          return (y.1, x.2 ++ y.2)

section

variable {rip : InodeId} {rw : RwFlag} {usr : ProcId}

/-- A state that is read and not used. -/
theorem get_ignored {α : Type} (p : FsM α) : (do
    let _ ← get
    p) = p := rfl

theorem rwChunkSeen_fst (position : ℤ) (off chunk : ℕ) (left : ℤ) (buff : ℕ) :
    Prod.fst <$> rwChunkSeen rip position off chunk left rw buff usr =
      rwChunk rip position off chunk left rw buff usr := by
  funext s
  unfold rwChunkSeen
  rw [map_bind]
  have hfound (found : Option BufId) : (Prod.fst <$> do
      match found with
      | none => return ((← globals).errCode, [])
      | some bp =>
        let during := (← get).cache
        let r ← copyChunk rip position off chunk rw buff usr bp
        let after := (← get).cache
        return (r, [ChunkSeen.mk position chunk buff bp s.cache during after r]) : FsM ℤ) = (do
      match found with
      | none => return (← globals).errCode
      | some bp => copyChunk rip position off chunk rw buff usr bp) := by
    cases found with
    | none => simp only [map_bind, map_pure]
    | some bp => simp only [map_bind, map_pure, get_ignored, bind_pure]
  change (Prod.fst <$> (chunkBuf rip position off chunk left rw >>= _)) s = _
  rw [map_bind]
  exact congrArg (fun p : FsM ℤ => p s) (bind_congr hfound)

/-- The loop does the same whether its chunks are noted or not. -/
theorem rwLoopSeen_fst (blockSpec : Bool) (fSize : ℤ) (n : ℕ) (r position cumIo : ℤ) :
    Prod.fst <$> rwLoopSeen rip blockSpec fSize rw usr n r position cumIo =
      rwLoop rip blockSpec fSize rw usr n r position cumIo := by
  induction n generalizing r position cumIo with
  | zero => rfl
  | succ n ih =>
    unfold rwLoopSeen rwLoop
    simp only [map_bind]
    refine bind_congr fun g => ?_
    split
    · rfl
    split
    · rfl
    simp only [map_bind]
    rw [← rwChunkSeen_fst, bind_map_left]
    refine bind_congr fun x => ?_
    refine bind_congr fun s => ?_
    split
    · rfl
    · simp only [map_bind, map_pure]
      refine bind_congr fun _ => ?_
      rw [← ih, bind_pure_comp]

end

/-! ## §2 One Chunk -/

/-- A buffer has been supplied for a block of the device, unless the disk has failed; `read` says that its data
    matter. -/
structure Supplied (dev b : ℕ) (read : Prop) (bp : BufId) (c c' : Cache) : Prop where
  linked : Linked c'
  served : Served c'
  count : ∀ x, (c'.buf x).count = (c.buf x).count + if x = bp then 1 else 0
  blocknr : (c'.buf bp).blocknr = b
  writes : c.writes <:+ c'.writes
  fares : ∀ x, x ≠ bp → Fares x c c'
  came : (c'.buf bp).dev = dev ∧ (read → (c'.buf bp).data = blockAt c dev b) ∨
    (c'.buf bp).dev = noDev ∧ c'.rdwtErr < 0

section

variable {rip : InodeId} {rw : RwFlag} {usr : ProcId} {s : FsState} {position left : ℤ} {off chunk : ℕ}
  {dev b : ℕ} {bp : BufId} {c c' : Cache}

theorem Brought.supplied (h : Brought dev b bp c c') (read : Prop) : Supplied dev b read bp c c' where
  linked := h.linked
  served := h.served
  count := h.count
  blocknr := h.blocknr
  writes := h.evolves.writes
  fares x _ := h.evolves.fares x
  came := h.came.imp_left fun hcame => ⟨hcame.1, fun _ => hcame.2⟩

/-- A block that is not to be overwritten as a whole is read. -/
theorem Fetched.supplied {search : Search} {read : Prop} (h : Fetched dev b search bp c c') (hc : Linked c)
    (hdev : dev ≠ noDev) (hserved : Served c') (hread : read → search = .normal)
    (hsearch : search ≠ .prefetch) : Supplied dev b read bp c c' where
  linked := h.linked
  served := hserved
  count := h.count
  blocknr := h.blocknr
  writes := h.writes
  fares := h.fares
  came := by
    rcases h.came with ⟨hholds, hsame, hdata⟩ | ⟨-, hnone, hdelivered⟩
    · exact .inl ⟨hsame, fun _ => hdata.trans (hc.blockAt_held hholds hdev).symm⟩
    · cases search with
      | prefetch => exact absurd rfl hsearch
      | noRead => exact .inl ⟨hdelivered, fun hr => absurd (hread hr) (by decide)⟩
      | normal =>
        refine hdelivered.imp_left fun hcame => ⟨hcame.1, fun _ => ?_⟩
        rw [hcame.2 hdev, h.blocknr, h.quiet dev b hdev (hnone hdev), blockAt_absent (hnone hdev)]

theorem chunkBuf_supplies (hspec : (s.inodes rip).blockSpec = true)
    (hdev : HasDriver ((s.inodes rip).zone 0)) (h0 : Spacious s.cache) (hpos : 0 ≤ position)
    (hleft : left ≤ 32767) :
    Surely (chunkBuf rip position off chunk left rw) s fun found s' => ∃ bp, found = some bp ∧
      s' = { s with cache := s'.cache } ∧
        Supplied ((s.inodes rip).zone 0) (deviceBlock (position / blockSize).toNat)
          (rw = .reading ∨ chunk ≠ blockSize) bp s.cache s'.cache := by
  have hblock : (position / blockSize % 65536).toNat = deviceBlock (position / blockSize).toNat := by
    have hdiv : 0 ≤ position / blockSize := Int.ediv_nonneg hpos (Int.natCast_nonneg _)
    unfold deviceBlock
    omega
  unfold chunkBuf
  rw [Surely, wp_bind, wp_readInode]
  dsimp only
  rw [if_pos hspec, hblock]
  simp only [hspec, pure_bind, Bool.true_eq_false, false_and, or_false, if_false, if_true]
  cases rw with
  | reading =>
    rw [wp_bind]
    refine Wp.mono (rahead_blockSpec hspec hdev h0 hpos hleft) ?_
    rintro bp s' ⟨hframe, hbrought⟩
    exact ⟨bp, rfl, hframe, hbrought.supplied _⟩
  | writing =>
    rw [wp_bind, wp_liftC]
    refine Wp.mono (Surely.and (getBlock_surely h0.linked h0.served h0.room hdev)
      (getBlock_fetched h0.linked)) ?_
    rintro bp c' ⟨hserved, hf⟩
    refine ⟨bp, rfl, rfl, hf.supplied h0.linked hdev.ne_noDev hserved (fun hread => ?_) ?_⟩
    · exact if_neg (hread.resolve_left (by decide))
    · split <;> decide

/-- The data of a buffer have been changed, from `c` to `c₁`, and it has been given back. -/
structure GivenBack (bp : BufId) (c c₁ c' : Cache) : Prop where
  linked : Linked c'
  served : Served c'
  count : ∀ x, (c'.buf x).count = (c.buf x).count - if x = bp then 1 else 0
  err : c'.rdwtErr = c.rdwtErr
  writes : c'.writes = c.writes
  fares : ∀ x, x ≠ bp → Fares x c c'
  data : (c'.buf bp).data = (c₁.buf bp).data

theorem putBlock_givenBack {c₁ : Cache} {g : Globals} (full : Prop) [Decidable full] (hc : Linked s.cache)
    (hserved : Served s.cache) (hused : (s.cache.buf bp).count ≠ 0) (htouched : Touched bp s.cache c₁)
    (r : ℤ) :
    Surely (do
      liftC (putBlock (.to bp) (if full then .fullDataBlock else .partialDataBlock))
      return r) { s with cache := c₁, g := g } fun r' s' => r' = r ∧
        s' = { s with cache := s'.cache, g := g } ∧ GivenBack bp s.cache c₁ s'.cache := by
  have hused1 : (c₁.buf bp).count ≠ 0 := by rwa [(htouched.keeps bp).2.2]
  have hlinked1 := htouched.linked hc
  have hserved1 : Served c₁ := hserved.of_dev fun x => .inl (htouched.keeps x).1
  have htype : (if full then BlockType.fullDataBlock else .partialDataBlock).writeImmed = false := by
    split <;> rfl
  have hzuper : (if full then BlockType.fullDataBlock else .partialDataBlock) ≠ .zuperBlock := by
    split <;> decide
  rw [Surely, wp_bind, wp_liftC]
  refine Wp.mono (Surely.and (putBuf_surely htype hzuper hserved1)
    (putBuf_counted hlinked1 hused1 htype hzuper)) ?_
  rintro _ c' ⟨hserved', hcounted, hwrites⟩
  have hpos : 0 ≤ (c₁.buf bp).count - 1 := by
    have hnonneg := hlinked1.nonneg bp
    omega
  refine ⟨rfl, rfl, hcounted.linked hpos hlinked1, hserved', fun x => ?_, ?_, ?_, fun x hx => ?_,
    (hcounted.same bp).2.2.1⟩
  · exact (hcounted.put.count x).trans (by rw [(htouched.keeps x).2.2])
  · refine hcounted.drive.2.trans ?_
    rw [htouched.frame]
  · refine hwrites.trans ?_
    rw [htouched.frame]
  · refine fares_of_eq ?_ ?_
    · refine hcounted.disk.trans ?_
      rw [htouched.frame]
    · have hsame := hcounted.same x
      rw [htouched.others x hx] at hsame
      exact hsame

theorem touched_refl (bp : BufId) (c : Cache) : Touched bp c c := ⟨rfl, fun _ _ => rfl, rfl, rfl, rfl⟩

/-- The bytes of a chunk. -/
def chunkBytes (data : Block) (off chunk : ℕ) : List UInt8 := (List.range chunk).map fun i => data (off + i)

/-- The bytes of a chunk have been copied, if the result is `OK`, and its buffer has been given back. -/
structure Copied (rw : RwFlag) (usr : ProcId) (buff off chunk : ℕ) (bp : BufId) (r : ℤ) (s s' : FsState) :
    Prop where
  frame : s' = { s with cache := s'.cache, g := { s.g with tick := s'.g.tick, toUser := s'.g.toUser } }
  toUser : s'.g.toUser = if rw = .reading ∧ r = OK then
    (usr, buff, chunkBytes (s.cache.buf bp).data off chunk) :: s.g.toUser else s.g.toUser
  back : ∃ c₁, GivenBack bp s.cache c₁ s'.cache ∧ (c₁.buf bp).data = if rw = .writing ∧ r = OK then
    copyBytes (s.cache.buf bp).data off s.g.user buff chunk else (s.cache.buf bp).data

theorem copyChunk_copies {buff : ℕ} (hspec : (s.inodes rip).blockSpec = true) (hc : Linked s.cache)
    (hserved : Served s.cache) (hused : (s.cache.buf bp).count ≠ 0) :
    Surely (copyChunk rip position off chunk rw buff usr bp) s fun r s' =>
      Copied rw usr buff off chunk bp r s s' := by
  unfold copyChunk rwUser nextCopy
  rw [Surely, wp_bind, wp_readInode]
  dsimp only
  rw [if_neg (by simp [hspec])]
  simp only [wp_bind, wp_globals, wp_modGlobals, wp_pure]
  cases rw with
  | reading =>
    simp only [reduceCtorEq, if_false]
    refine wp_ite (fun hok => ?_) fun hbad => ?_
    · simp only [wp_bind, wp_liftC, wp_readBuf, wp_modGlobals, wp_pure]
      have hput := putBlock_givenBack (g := { s.g with
          tick := s.g.tick + 1
          toUser := (usr, buff, chunkBytes (s.cache.buf bp).data off chunk) :: s.g.toUser })
        (off + chunk = blockSize) hc hserved hused (touched_refl bp s.cache) (s.g.copy s.g.tick)
      rw [Surely, wp_bind, wp_liftC] at hput
      refine Wp.mono hput ?_
      rintro _ c' ⟨-, -, hback⟩
      exact ⟨rfl, (if_pos ⟨rfl, hok⟩).symm, _, hback, by simp⟩
    · have hput := putBlock_givenBack (g := { s.g with tick := s.g.tick + 1 })
        (off + chunk = blockSize) hc hserved hused (touched_refl bp s.cache) (s.g.copy s.g.tick)
      rw [wp_pure]
      refine Wp.mono hput ?_
      rintro _ s' ⟨rfl, hframe, hback⟩
      rw [hframe]
      exact ⟨rfl, by simp [hbad], _, hback, by simp⟩
  | writing =>
    simp only [if_true]
    refine wp_ite (fun hok => ?_) fun hbad => ?_
    · simp only [wp_bind, wp_liftC, wp_globals, wp_modBuf, wp_pure, Function.update_self,
        Function.update_idem]
      have hput := putBlock_givenBack (g := { s.g with tick := s.g.tick + 1 })
        (off + chunk = blockSize) hc hserved hused (touched_update { s.cache.buf bp with
          data := copyBytes (s.cache.buf bp).data off s.g.user buff chunk, dirt := true } rfl rfl rfl)
        (s.g.copy s.g.tick)
      rw [Surely, wp_bind, wp_liftC] at hput
      refine Wp.mono hput ?_
      rintro _ c' ⟨-, -, hback⟩
      exact ⟨rfl, by simp, _, hback, by simp [hok]⟩
    · simp only [wp_bind, wp_liftC, wp_modBuf, wp_pure]
      have hput := putBlock_givenBack (g := { s.g with tick := s.g.tick + 1 })
        (off + chunk = blockSize) hc hserved hused
        (touched_update { s.cache.buf bp with dirt := true } rfl rfl rfl) (s.g.copy s.g.tick)
      rw [Surely, wp_bind, wp_liftC] at hput
      refine Wp.mono hput ?_
      rintro _ c' ⟨-, -, hback⟩
      exact ⟨rfl, by simp, _, hback, by simp [hbad]⟩

end

/-- The buffer that the chunk is copied from or to. -/
def ChunkSeen.buf (a : ChunkSeen) : Buf := a.during.buf a.bp

/-- The place of the chunk in its block. -/
def ChunkSeen.off (a : ChunkSeen) : ℕ := (a.position % blockSize).toNat

/-- What a chunk of a block does: its buffer holds a block of the device, unless the disk has failed, and no
    other block is changed.  The number of the block is the one that fits 16 bits. -/
structure ChunkSeen.Labelled (dev : ℕ) (rw : RwFlag) (user : ℕ → UInt8) (a : ChunkSeen) : Prop where
  blocknr : a.buf.blocknr = deviceBlock (a.position / blockSize).toNat
  came : a.buf.dev = dev ∧ (rw = .reading ∨ a.chunk ≠ blockSize →
      a.buf.data = blockAt a.before dev a.buf.blocknr) ∨
    a.buf.dev = noDev ∧ a.after.rdwtErr < 0
  data : (a.after.buf a.bp).data = if rw = .writing ∧ a.result = OK then
    copyBytes a.buf.data a.off user a.buff a.chunk else a.buf.data
  others : ∀ x, x ≠ a.bp → Fares x a.before a.after

/-- The buffer holds the block that the position of the chunk is in. -/
structure ChunkSeen.Right (dev : ℕ) (rw : RwFlag) (a : ChunkSeen) : Prop where
  blocknr : (a.buf.blocknr : ℤ) = a.position / blockSize
  came : a.buf.dev = dev ∧ (rw = .reading ∨ a.chunk ≠ blockSize →
      a.buf.data = blockAt a.before dev a.buf.blocknr) ∨
    a.buf.dev = noDev ∧ a.after.rdwtErr < 0

theorem ChunkSeen.Labelled.right_iff {dev : ℕ} {rw : RwFlag} {user : ℕ → UInt8} {a : ChunkSeen}
    (h : a.Labelled dev rw user) (hpos : 0 ≤ a.position) : a.Right dev rw ↔ a.position < 2 ^ 26 := by
  have hlabel : (a.buf.blocknr : ℤ) = a.position / 1024 % 65536 := by
    have hdiv : 0 ≤ a.position / 1024 := Int.ediv_nonneg hpos (by decide)
    rw [h.blocknr]
    unfold deviceBlock blockSize
    omega
  constructor
  · intro hright
    have hnr := hright.blocknr
    unfold blockSize at hnr
    omega
  · intro hlow
    refine ⟨?_, h.came⟩
    unfold blockSize
    omega

/-- The bytes that a chunk gives to the process. -/
def ChunkSeen.given (rw : RwFlag) (usr : ProcId) (a : ChunkSeen) : List (ProcId × ℕ × List UInt8) :=
  if rw = .reading ∧ a.result = OK then [(usr, a.buff, chunkBytes a.buf.data a.off a.chunk)] else []

section

variable {rip : InodeId} {rw : RwFlag} {usr : ProcId} {s : FsState} {position limit : ℤ}

theorem rwChunkSeen_copies {left : ℤ} {chunk buff : ℕ} (hspec : (s.inodes rip).blockSpec = true)
    (hdev : HasDriver ((s.inodes rip).zone 0)) (h0 : Spacious s.cache) (hpos : 0 ≤ position)
    (hleft : left ≤ 32767) :
    Surely (rwChunkSeen rip position (position % blockSize).toNat chunk left rw buff usr) s fun x s' =>
      ∃ a, x = (a.result, [a]) ∧ a.position = position ∧ a.chunk = chunk ∧ a.buff = buff ∧
        a.Labelled ((s.inodes rip).zone 0) rw s.g.user ∧ a.before = s.cache ∧ a.after = s'.cache ∧
          s' = { s with cache := s'.cache, g := { s.g with tick := s'.g.tick, toUser := s'.g.toUser } } ∧
            s'.g.toUser = a.given rw usr ++ s.g.toUser ∧ Spacious s'.cache := by
  unfold rwChunkSeen
  rw [Surely, wp_bind, wp_get]
  dsimp only
  rw [wp_bind]
  refine Wp.mono (chunkBuf_supplies hspec hdev h0 hpos hleft) ?_
  rintro found s₁ ⟨bp, rfl, hframe1, hsupplied⟩
  dsimp only
  rw [wp_bind, wp_get]
  have hused : (s₁.cache.buf bp).count ≠ 0 := by
    have hnonneg := h0.linked.nonneg bp
    rw [hsupplied.count, if_pos rfl]
    omega
  have hspec1 : (s₁.inodes rip).blockSpec = true := by rwa [hframe1]
  have hg1 : s₁.g = s.g := by rw [hframe1]
  rw [wp_bind]
  refine Wp.mono (copyChunk_copies hspec1 hsupplied.linked hsupplied.served hused) ?_
  rintro r s' hcopied
  obtain ⟨c₁, hback, hdata⟩ := hcopied.back
  have hcount : ∀ x, (s'.cache.buf x).count = (s.cache.buf x).count := by
    intro x
    rw [hback.count, hsupplied.count]
    omega
  have hroom : Spacious s'.cache := by
    refine ⟨hback.linked, hback.served, ?_⟩
    rw [h0.linked.sameUse hback.linked hcount]
    exact h0.room
  rw [wp_bind, wp_get]
  refine ⟨⟨position, chunk, buff, bp, s.cache, s₁.cache, s'.cache, r⟩, rfl, rfl, rfl, rfl, ?_, rfl, rfl, ?_,
    ?_, hroom⟩
  · refine ⟨hsupplied.blocknr, ?_, ?_, fun x hx => ?_⟩
    · refine hsupplied.came.imp (fun hcame => ⟨hcame.1, fun hread => ?_⟩) fun hbad => ⟨hbad.1, ?_⟩
      · exact (hcame.2 hread).trans (by rw [ChunkSeen.buf, hsupplied.blocknr])
      · exact hback.err.trans_lt hbad.2
    · rw [← hg1]
      exact hback.data.trans hdata
    · exact (hsupplied.fares x hx).trans (hback.fares x hx) hsupplied.writes (by rw [hback.writes])
  · rw [hcopied.frame, hframe1]
  · rw [hcopied.toUser, ChunkSeen.given, hg1]
    split <;> rfl

end

/-! ## §3 The Whole Transfer -/

/-- The chunks come one after the other, from cache `c` to `c'`. -/
def Joined : Cache → List ChunkSeen → Cache → Prop
  | c, [], c' => c = c'
  | c, a :: seen, c' => a.before = c ∧ Joined a.after seen c'

/-- The chunks of a transfer of `n` bytes from position `p`, at most up to the limit: each is in one block, and
    together they are the bytes up to the position that has been reached.  This is the last one asked for, or the
    limit, unless a chunk has failed or the disk has. -/
structure Transferred (dev : ℕ) (rw : RwFlag) (usr : ProcId) (p limit cumIo : ℤ) (s : FsState)
    (x : (ℤ × ℤ × ℤ) × List ChunkSeen) (s' : FsState) : Prop where
  labelled : ∀ a ∈ x.2, a.Labelled dev rw s.g.user
  within : ∀ a ∈ x.2, p ≤ a.position ∧ 0 < a.chunk ∧ a.position % blockSize + a.chunk ≤ blockSize ∧
    a.position + a.chunk ≤ min (p + s.g.nbytes) limit
  buff : ∀ a ∈ x.2, (a.buff : ℤ) = s.g.buffer + (a.position - p)
  joined : Joined s.cache x.2 s'.cache
  reached : p ≤ x.1.2.1 ∧ x.1.2.1 ≤ max p (min (p + s.g.nbytes) limit)
  total : x.1.2.2 = cumIo + (x.1.2.1 - p)
  cover : ∀ q, p ≤ q → q < x.1.2.1 → ∃ a ∈ x.2, a.result = OK ∧ a.position ≤ q ∧ q < a.position + a.chunk
  complete : x.1.1 = OK → 0 ≤ s'.cache.rdwtErr → x.1.2.1 = max p (min (p + s.g.nbytes) limit)
  toUser : s'.g.toUser = x.2.reverse.flatMap (ChunkSeen.given rw usr) ++ s.g.toUser
  frame : s' = { s with cache := s'.cache, g := s'.g }

section

variable {rip : InodeId} {rw : RwFlag} {usr : ProcId} {s : FsState} {position limit : ℤ}

/-- Nothing is left to transfer. -/
theorem transferred_nil {dev : ℕ} {cumIo r : ℤ} (s : FsState) (hdone : s.g.nbytes ≤ 0 ∨ limit ≤ position) :
    Transferred dev rw usr position limit cumIo s ((r, position, cumIo), []) s where
  labelled := by simp
  within := by simp
  buff := by simp
  joined := rfl
  reached := ⟨le_rfl, le_max_left _ _⟩
  total := by simp
  cover q hle hlt := absurd hlt (not_lt.mpr hle)
  complete _ _ := by
    dsimp only
    omega
  toUser := by simp
  frame := rfl

/-- **The loop of `read_write`** transfers all that is asked for up to the limit, or stops with an error. -/
theorem rwLoopSeen_transfers {k : ℕ} {cumIo : ℤ} (hspec : (s.inodes rip).blockSpec = true)
    (hdev : HasDriver ((s.inodes rip).zone 0)) (h0 : Spacious s.cache) (hpos : 0 ≤ position)
    (hlimit : limit ≤ maxPLong) (hbytes : 0 ≤ s.g.nbytes) (hshort : s.g.nbytes ≤ 32767)
    (hk : s.g.nbytes ≤ k) :
    Surely (rwLoopSeen rip true limit rw usr k OK position cumIo) s fun x s' =>
      Transferred ((s.inodes rip).zone 0) rw usr position limit cumIo s x s' := by
  induction k generalizing position cumIo s with
  | zero => exact transferred_nil s (.inl hk)
  | succ k ih =>
    unfold rwLoopSeen
    rw [Surely, wp_bind, wp_globals]
    refine wp_ite (fun hzero => transferred_nil s (.inl hzero.le)) fun hmore => ?_
    simp only [Bool.or_true, true_and, if_true]
    refine wp_ite (fun hend => transferred_nil s (.inr hend)) fun hbefore => ?_
    generalize hchunk : min (min s.g.nbytes (blockSize - position % blockSize)) (limit - position) = chunk
    have hoff : position % blockSize < blockSize := Int.emod_lt_of_pos _ (by decide)
    have hoff0 : 0 ≤ position % blockSize := Int.emod_nonneg _ (by decide)
    have hnat : (chunk.toNat : ℤ) = chunk := Int.toNat_of_nonneg (by omega)
    rw [wp_bind]
    refine Wp.mono (rwChunkSeen_copies hspec hdev h0 hpos hshort) ?_
    rintro _ s₁ ⟨a, rfl, rfl, hsize, hbuff, hlabelled, hbefore1, hafter1, hframe1, hgiven, h1⟩
    have hwithin : 0 < a.chunk ∧ a.position % blockSize + a.chunk ≤ blockSize ∧
        a.position + a.chunk ≤ min (a.position + s.g.nbytes) limit := by
      rw [hsize, hnat, ← Int.natCast_pos, hnat]
      omega
    rw [wp_bind, wp_get]
    refine wp_ite (fun hstop => ?_) fun hgo => ?_
    · exact {
        labelled := by simpa using hlabelled
        within := by simpa using hwithin
        buff := by simp [hbuff]
        joined := ⟨hbefore1, hafter1⟩
        reached := ⟨le_rfl, le_max_left _ _⟩
        total := by simp
        cover := fun q hle hlt => absurd hlt (not_lt.mpr hle)
        complete := fun hok herr => absurd herr (not_le.mpr (hstop.resolve_left (not_not.mpr hok)))
        toUser := by simpa using hgiven
        frame := by rw [hframe1] }
    have hresult : a.result = OK := not_not.mp (not_or.mp hgo).1
    rw [wp_bind, wp_modGlobals, hresult]
    have hnext : toLong (a.position + chunk) = a.position + chunk := by
      unfold maxPLong at hlimit
      exact toLong_eq (by omega) (by omega)
    rw [hnext]
    generalize hs2 : FsState.mk _ _ _ _ _ _ = s₂
    have hframe2 : s₂ = { s with cache := s₂.cache, g := s₂.g } := by
      rw [← hs2, hframe1]
    have hinodes : s₂.inodes = s.inodes := by rw [hframe2]
    have hcache : s₂.cache = s₁.cache := by rw [← hs2]
    have hg2 : s₂.g = { s₁.g with buffer := s₁.g.buffer + chunk.toNat, nbytes := s₁.g.nbytes - chunk } := by
      rw [← hs2]
    have hg1 : s₁.g = { s.g with tick := s₁.g.tick, toUser := s₁.g.toUser } := congrArg FsState.g hframe1
    have hleft : s₂.g.nbytes = s.g.nbytes - chunk := by rw [hg2, hg1]
    have hbuffer : s₂.g.buffer = s.g.buffer + chunk.toNat := by rw [hg2, hg1]
    have huser : s₂.g.user = s.g.user := by rw [hg2, hg1]
    have htoUser : s₂.g.toUser = s₁.g.toUser := by rw [hg2]
    have hrest : Surely (rwLoopSeen rip true limit rw usr k OK (a.position + chunk) (cumIo + chunk)) s₂
        fun x s' => Transferred ((s₂.inodes rip).zone 0) rw usr (a.position + chunk) limit
          (cumIo + chunk) s₂ x s' :=
      ih (by rwa [hinodes]) (by rwa [hinodes]) (by rwa [hcache]) (by omega) (by omega) (by omega) (by omega)
    rw [hinodes] at hrest
    rw [wp_bind]
    refine Wp.mono hrest ?_
    rintro ⟨⟨r'', position', cumIo'⟩, rest⟩ s' h'
    have hreached := h'.reached
    have htotal := h'.total
    have hcomplete := h'.complete
    dsimp only at hreached htotal hcomplete
    refine ⟨?_, ?_, ?_, ?_, ⟨by dsimp only; omega, by dsimp only; omega⟩, by dsimp only; omega, ?_, ?_, ?_, ?_⟩
    · intro a' ha'
      rcases List.mem_append.mp ha' with hmem | hmem
      · rw [List.mem_singleton.mp hmem]
        exact hlabelled
      · rw [← huser]
        exact h'.labelled a' hmem
    · intro a' ha'
      rcases List.mem_append.mp ha' with hmem | hmem
      · rw [List.mem_singleton.mp hmem]
        exact ⟨le_rfl, hwithin⟩
      · have := h'.within a' hmem
        omega
    · intro a' ha'
      rcases List.mem_append.mp ha' with hmem | hmem
      · rw [List.mem_singleton.mp hmem]
        simp [hbuff]
      · have := h'.buff a' hmem
        omega
    · refine ⟨hbefore1, ?_⟩
      rw [hafter1, ← hcache]
      exact h'.joined
    · intro q hle hlt
      rcases lt_or_ge q (a.position + chunk) with hfirst | hlater
      · refine ⟨a, List.mem_append_left _ (List.mem_singleton_self a), hresult, hle, ?_⟩
        rwa [hsize, hnat]
      · obtain ⟨a', hmem, hcover⟩ := h'.cover q hlater hlt
        exact ⟨a', List.mem_append_right _ hmem, hcover⟩
    · intro hok herr
      have hend := hcomplete hok herr
      dsimp only
      omega
    · rw [h'.toUser, htoUser, hgiven]
      simp [List.flatMap_append]
    · exact h'.frame.trans (by rw [hframe2])

end

/-! ## §4 `read_write` -/

/-- Every byte that is to be transferred is in one of the first 65536 blocks. -/
def Below (p n limit : ℤ) : Prop := ∀ q, p ≤ q → q < min (p + n) limit → q < 2 ^ 26

section

variable {rip : InodeId} {rw : RwFlag} {usr : ProcId} {s s' : FsState} {f : FilpId}

/-- `read_write` for a block special file is its loop, and what comes after. -/
theorem rwFile_blockSpec (hspec : (s.inodes rip).blockSpec = true) (hpipe : (s.inodes rip).pipe = false) :
    rwFile f rip rw usr s = (do
      let x ← rwLoopSeen rip true (deviceEnd (s.inodes rip).size) rw usr s.g.nbytes.toNat OK
        (s.filps f).pos 0
      rwFinish f rip (deviceEnd (s.inodes rip).size) rw x.1.1 x.1.2.1 x.1.2.2) s := by
  have hloop : rwFile f rip rw usr s = (do
      let x ← rwLoop rip true (deviceEnd (s.inodes rip).size) rw usr s.g.nbytes.toNat OK (s.filps f).pos 0
      rwFinish f rip (deviceEnd (s.inodes rip).size) rw x.1 x.2.1 x.2.2) s := by
    have hread : rwFile f rip rw usr s = (do
        let checked ← if rw = RwFlag.writing ∧ (s.inodes rip).blockSpec = false then do
            let sp ← getSuper (s.inodes rip).dev
            pure (decide ((s.filps f).pos ≤ toLong ((← readSuper sp).maxSize - s.g.nbytes)))
          else pure true
        if checked = false then return EFBIG
        else
          let fSize := if (s.inodes rip).blockSpec ∧ (s.inodes rip).size = 0 then maxPLong
            else (s.inodes rip).size
          let append := rw = RwFlag.writing ∧ (s.inodes rip).blockSpec = false ∧ (s.filps f).flags &&& oAppend ≠ 0
          let position := if append then fSize else (s.filps f).pos
          if rw = RwFlag.writing ∧ (s.inodes rip).blockSpec = false ∧ fSize < position then
            clearZone rip fSize false
          let r ← if (s.inodes rip).pipe then
              pipeCheck rip rw (s.filps f).flags s.g.nbytes position
            else pure OK
          if (s.inodes rip).pipe ∧ r ≤ 0 then return r
          else
            let x ← rwLoop rip (s.inodes rip).blockSpec fSize rw usr s.g.nbytes.toNat r position 0
            rwFinish f rip fSize rw x.1 x.2.1 x.2.2) s := by
      unfold rwFile
      rfl
    rw [hread, hpipe, hspec]
    simp only [Bool.true_eq_false, Bool.false_eq_true, and_false, false_and, true_and, if_false, pure_bind]
    rfl
  rw [hloop, ← rwLoopSeen_fst, bind_map_left]

theorem Transferred.right_of_below {dev : ℕ} {p limit cumIo : ℤ} {x : (ℤ × ℤ × ℤ) × List ChunkSeen}
    (h : Transferred dev rw usr p limit cumIo s x s') (hp : 0 ≤ p) (hbelow : Below p s.g.nbytes limit) :
    ∀ a ∈ x.2, a.Right dev rw := by
  intro a ha
  have hwithin := h.within a ha
  refine ((h.labelled a ha).right_iff (by omega)).mpr (hbelow _ hwithin.1 (by omega))

/-- A transfer of all that has been asked for reaches each of its bytes. -/
theorem Transferred.below_of_right {dev : ℕ} {p limit cumIo : ℤ} {x : (ℤ × ℤ × ℤ) × List ChunkSeen}
    (h : Transferred dev rw usr p limit cumIo s x s') (hp : 0 ≤ p)
    (hall : min (p + s.g.nbytes) limit ≤ x.1.2.1) (hright : ∀ a ∈ x.2, a.Right dev rw) :
    Below p s.g.nbytes limit := by
  intro q hle hlt
  obtain ⟨a, ha, -, hlow, hhigh⟩ := h.cover q hle (by omega)
  have hwithin := h.within a ha
  have hposition := ((h.labelled a ha).right_iff (by omega)).mp (hright a ha)
  -- the block of the chunk ends at or before position 2^26
  unfold blockSize at hwithin
  omega

/-- Reads and writes of a block special file use the blocks that their positions are in as long as these are
    below position 2^26. -/
theorem rwFile_addresses (hspec : (s.inodes rip).blockSpec = true) (hpipe : (s.inodes rip).pipe = false)
    (hdev : HasDriver ((s.inodes rip).zone 0)) (h0 : Spacious s.cache) (hpos : 0 ≤ (s.filps f).pos)
    (hsize : (s.inodes rip).size ≤ maxPLong) (hbytes : 0 ≤ s.g.nbytes) (hshort : s.g.nbytes ≤ 32767) :
    let dev := (s.inodes rip).zone 0
    let p := (s.filps f).pos
    let limit := deviceEnd (s.inodes rip).size
    let chunks := rwLoopSeen rip true limit rw usr s.g.nbytes.toNat OK p 0
    rwFile f rip rw usr s = (do
      let x ← chunks
      rwFinish f rip limit rw x.1.1 x.1.2.1 x.1.2.2) s ∧
    Surely chunks s fun x s' => Transferred dev rw usr p limit 0 s x s' ∧
      (∀ a ∈ x.2, a.Right dev rw ↔ a.position < 2 ^ 26) ∧
      (Below p s.g.nbytes limit → ∀ a ∈ x.2, a.Right dev rw) ∧
      (min (p + s.g.nbytes) limit ≤ x.1.2.1 →
        ((∀ a ∈ x.2, a.Right dev rw) ↔ Below p s.g.nbytes limit)) := by
  refine ⟨rwFile_blockSpec hspec hpipe, ?_⟩
  have hlimit : deviceEnd (s.inodes rip).size ≤ maxPLong := by
    unfold deviceEnd
    split
    · exact le_rfl
    · exact hsize
  refine Wp.mono (rwLoopSeen_transfers hspec hdev h0 hpos hlimit hbytes hshort
    (Int.self_le_toNat _)) ?_
  intro x s' h
  refine ⟨h, fun a ha => ?_, h.right_of_below hpos,
    fun hall => ⟨h.below_of_right hpos hall, h.right_of_below hpos⟩⟩
  have hwithin := h.within a ha
  exact (h.labelled a ha).right_iff (by omega)

end

/-- A device in every inode, open two bytes before the end of its first block, and five bytes of a process to
    transfer. -/
def oneDevice : FsState :=
  { twoDisks with
    cache :=
      { twoDisks.cache with
        disk := fun d b i => if d = 0x200 then UInt8.ofNat (100 * (b + 1) + i % 10) else 0 }
    inodes := fun _ => { noInode with mode := 0o060666, zone := fun _ => 0x200 }
    filps := fun _ => { mode := rBit ||| wBit, flags := 0, count := 1, ino := some theDir, pos := 1022 }
    g := { twoDisks.g with nbytes := 5, buffer := 50, user := fun i => UInt8.ofNat i } }

theorem oneDevice_spacious : Spacious oneDevice.cache where
  linked :=
    have h := twoDisks_sane.cache.linked
    ⟨h.lru, h.nodup, h.hash, h.nonneg, h.inUse, h.unique⟩
  served := twoDisks_sane.cache.served
  room := twoDisks_sane.cache.room

/-- The chunks of its transfer. -/
def fiveBytes (rw : RwFlag) : FsM ((ℤ × ℤ × ℤ) × List ChunkSeen) :=
  rwLoopSeen theDir true maxPLong rw initProcNr 5 OK 1022 0

/-- What it returns, and the bytes that the process gets. -/
def fiveMoved (rw : RwFlag) : Option ((ℤ × ℤ × ℤ) × List (ProcId × ℕ × List UInt8)) :=
  (fiveBytes rw oneDevice).1.toOption.map fun x => (x.1, (fiveBytes rw oneDevice).2.g.toUser)

/-- The blocks of its chunks, and the bytes that are in the buffers of these afterwards. -/
def fiveBlocks (rw : RwFlag) : Option (List (ℕ × ℕ × ℕ × List UInt8)) :=
  (fiveBytes rw oneDevice).1.toOption.map fun x => x.2.map fun a =>
    (a.buf.dev, a.buf.blocknr, a.off,
      chunkBytes ((fiveBytes rw oneDevice).2.cache.buf a.bp).data a.off a.chunk)

/-- A read gives the process two bytes of block 0 and three of block 1, and a write puts five bytes of the process
    there. -/
theorem rwFile_addresses_five :
    fiveMoved .reading = some ((OK, 1027, 5),
      [(initProcNr, 52, [200, 201, 202]), (initProcNr, 50, [102, 103])]) ∧
    fiveBlocks .reading = some [(0x200, 0, 1022, [102, 103]), (0x200, 1, 0, [200, 201, 202])] ∧
    fiveMoved .writing = some ((OK, 1027, 5), []) ∧
    fiveBlocks .writing = some [(0x200, 0, 1022, [50, 51]), (0x200, 1, 0, [52, 53, 54])] ∧
    ∀ rw, Surely (fiveBytes rw) oneDevice fun x s' =>
      (∀ a ∈ x.2, a.Right 0x200 rw) ∧ (x.1.1 = OK → 0 ≤ s'.cache.rdwtErr → x.1.2.1 = 1027) := by
  refine ⟨by decide +kernel, by decide +kernel, by decide +kernel, by decide +kernel, fun rw => ?_⟩
  have h := (@rwFile_addresses theDir rw initProcNr oneDevice ⟨0, by decide⟩ (by decide) rfl
    ⟨by decide, by decide⟩ oneDevice_spacious (by decide) (by decide) (by decide) (by decide)).2
  have hbelow : Below 1022 5 (deviceEnd (oneDevice.inodes theDir).size) := by
    intro q hle hlt
    change q < min (1022 + 5) maxPLong at hlt
    omega
  exact h.mono fun x s' hx => ⟨hx.2.2.1 hbelow, hx.1.complete⟩

/-- A device without a size, open at position 2^26 as `/f`; its first byte is 7. -/
def largeDisk : List ℕ := [0o060666, 0, 0, 0, 0, 0, 1, 0x200]

def largeWorld : World :=
  { smallWorld largeDisk fun _ => { status := OK, revives := [] } with
    disk := fun d => if d = 0x100 then smallDisk largeDisk
      else fun b => if d = 0x200 ∧ b = 0 then wordBlock [0x0700] else zeroBytes }

def onLarge : FsState := (fsInit (atBoot largeWorld)).2
def openLarge : FsState := (serve (initRequest 5) onLarge).2
def seekLarge : FsState := (serve { initRequest 19 with offset := 2 ^ 26 } openLarge).2
def readOne : Request := { initRequest 3 with nbytes := 1 }
def atLarge : FsState := (beginCall readOne seekLarge).2

/-- The byte at position 2^26 is 0, and the first byte of the device is read. -/
theorem rwFile_wraps : Reached largeWorld seekLarge ∧ beginCall readOne seekLarge = (.ok 3, atLarge) ∧
    ((atLarge.fprocs initProcNr).filp 0).map (fun f => (atLarge.filps f).pos) = some (2 ^ 26) ∧
    readWrite .reading atLarge = (.ok 1, (readWrite .reading atLarge).2) ∧
    (readWrite .reading atLarge).2.g.toUser = [(initProcNr, 0, [7])] ∧
    blockAt atLarge.cache 0x200 (2 ^ 26 / 1024) 0 = 0 := by
  have hruns : (fsInit (atBoot largeWorld)).1 = .ok ⟨⟩ ∧ (serve (initRequest 5) onLarge).1 = .ok ⟨⟩ ∧
      (serve { initRequest 19 with offset := 2 ^ 26 } openLarge).1 = .ok ⟨⟩ ∧
      (beginCall readOne seekLarge).1 = .ok 3 ∧ (readWrite .reading atLarge).1 = .ok 1 := by
    decide +kernel
  obtain ⟨hinit, hopen, hseek, hbegin, hread⟩ := hruns
  refine ⟨.step _ (.step _ (.start (run_eq hinit)) (run_eq hopen)) (run_eq hseek), run_eq hbegin, ?_,
    run_eq hread, ?_, ?_⟩
  · decide +kernel
  · decide +kernel
  · decide +kernel

end LisaMinix.Fs.Server
