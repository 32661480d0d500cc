import Mathlib.Data.UInt
import LisaMinix.Library.Files
import LisaMinix.Library.Memory
import LisaMinix.Fs.Server.FileAhead

/-!
# Reading a Regular File

What `read_write` copies to a process is what is in the file from the position on, block by block,
whatever is in the cache and whatever `rahead` brings in with it.

- `fileAt`: the file that an inode stands for.
- `chunkBuf_reads`: the buffer of a chunk holds the block of the file; a hole is a buffer of zeros.
- `afterCopies`: the memory of the processes after what has been copied to them.
- `rwChunk_reads`, `rwLoop_reads`: one chunk, and all of them.
-/

namespace LisaMinix.Fs.Server

open LisaMinix.Library Function

/-! ## §1 The File of an Inode -/

/-- What a block position of a file reads as. -/
def FileView.data (x : Super) (v : FileView) (n : ℕ) : Block :=
  if v.block x n = 0 then zeroBytes else v.blocks (v.block x n)

theorem contents_blank (x : Super) (v : FileView) (size n : ℕ) (h : size ≤ n) :
    (if n < size then v.data x (n / blockSize) (n % blockSize) else 0) = 0 := if_neg (not_lt.mpr h)

/-- What a file of a size reads as. -/
def FileView.contents (x : Super) (v : FileView) (size : ℕ) : File UInt8 where
  size := size
  byte n := if n < size then v.data x (n / blockSize) (n % blockSize) else 0
  blank := contents_blank x v size

/-- The file that an inode stands for. -/
def fileAt (rip : InodeId) (sp : SuperId) (s : FsState) : File UInt8 :=
  (viewOf rip s).contents (s.supers sp) (s.inodes rip).size.toNat

/-- An inode of a regular file that is no longer than a position can be, on a device that is mounted. -/
structure Regular (rip : InodeId) (sp : SuperId) (s : FsState) : Prop extends Ready rip sp s where
  type : (s.inodes rip).type = iRegular
  pipe : (s.inodes rip).pipe = false
  nonneg : 0 ≤ (s.inodes rip).size
  size : (s.inodes rip).size < 2 ^ 31 - blockSize

section

variable {rip : InodeId} {sp : SuperId} {s s' : FsState}

theorem Regular.blockSpec (h : Regular rip sp s) : (s.inodes rip).blockSpec = false := by
  unfold Inode.blockSpec
  rw [h.type]
  decide

/-- A part of one block. -/
theorem fileAt_read {p chunk : ℕ} (hp : p + chunk ≤ (s.inodes rip).size.toNat)
    (hin : p % blockSize + chunk ≤ blockSize) :
    (fileAt rip sp s).read p chunk = (List.range chunk).map fun i =>
      (viewOf rip s).data (s.supers sp) (p / blockSize) (p % blockSize + i) := by
  rw [File.read_within hp]
  apply List.map_congr_left
  intro i hi
  have hlt := List.mem_range.mp hi
  have hdiv : (p + i) / blockSize = p / blockSize := by
    unfold blockSize at *
    omega
  have hmod : (p + i) % blockSize = p % blockSize + i := by
    unfold blockSize at *
    omega
  change (if p + i < (s.inodes rip).size.toNat then _ else 0) = _
  rw [if_pos (by omega), hdiv, hmod]

/-! ## §2 The Buffer of a Chunk -/

/-- Nothing but the cache has changed, and no block; a buffer with these data is in use. -/
structure InBuffer (data : Block) (bp : BufId) (s s' : FsState) : Prop where
  frame : s' = { s with cache := s'.cache }
  coherent : Coherent none s'.cache
  served : Served s'.cache
  lent : Lent (some bp) s.cache s'.cache
  blocks : SameBlocks s.cache s'.cache
  inBuf : (s'.cache.buf bp).data = data

theorem Held.inBuffer {b : ℕ} {data : Block} {bp : BufId} (h : Held rip b data bp s s')
    (hblocks : SameBlocks s.cache s'.cache) : InBuffer data bp s s' :=
  ⟨h.frame, h.opened.toCoherent, h.opened.served, h.lent, hblocks, h.opened.inBuf⟩

/-- A buffer that belongs to no device may be filled with anything. -/
theorem touched_void {c c' : Cache} {bp : BufId} (h : Touched bp c c') (hc : Coherent none c)
    (hvoid : (c.buf bp).dev = noDev) : Coherent none c' ∧ SameBlocks c c' := by
  refine ⟨⟨h.linked hc.toLinked, fun n => ?_, by simp, fun x _ hvalid hclean => ?_⟩, fun d b hd => ?_⟩
  · rw [h.frame]
    exact hc.drives n
  · have hx : x ≠ bp := by
      rintro rfl
      rw [(h.keeps x).1] at hvalid
      exact hvalid hvoid
    have hdisk : c'.disk = c.disk := by rw [h.frame]
    rw [h.others x hx] at hvalid hclean ⊢
    rw [hdisk]
    exact hc.clean x (by simp) hvalid hclean
  · rw [h.blockAt hc.toLinked hd, if_neg]
    exact fun hx => hd (hx.1.symm.trans hvoid)

/-- A hole is read from a buffer that has been cleared. -/
theorem holeBuf_inBuffer (h : Able s.cache) :
    Surely (do
      let bp ← liftC (getBlock noDev 0 .normal)
      liftC (zeroBlock bp)
      return some bp) s fun o s' => ∃ bp, o = some bp ∧ InBuffer zeroBytes bp s s' := by
  have hserves : SurelyC (getBlock noDev 0 .normal) s.cache fun _ c' => Served c' :=
    getBlock_serves h.toLinked h.served h.room fun hdev => absurd rfl hdev
  have hfetched : ReturnsC (getBlock noDev 0 .normal) s.cache fun bp c' =>
      Fetched noDev 0 .normal bp s.cache c' := getBlock_fetched h.toLinked
  rw [Surely, wp_bind, wp_liftC]
  refine Wp.mono (Surely.and hserves (hfetched.and (getBlock_void h.toCoherent (.inr rfl)))) ?_
  rintro bp c₁ ⟨hserved, hf, hc1, hblocks, hgot⟩
  have hvoid : (c₁.buf bp).dev = noDev := by
    rcases hf.dev_or with hdev | hdev <;> exact hdev
  have htouched := @touched_update c₁ bp { c₁.buf bp with data := zeroBytes, dirt := true } rfl rfl rfl
  obtain ⟨hc', hblocks'⟩ := touched_void htouched hc1 hvoid
  simp only [zeroBlock, wp_bind, wp_liftC, wp_modBuf, wp_pure]
  refine ⟨bp, rfl, rfl, hc', hserved.of_dev fun x => .inl (htouched.keeps x).1,
    ((Lent.refl s.cache).got hgot).touched htouched, hblocks.trans hblocks', ?_⟩
  simp

theorem chunkBuf_reads {p off chunk : ℕ} {left : ℤ} (h : Regular rip sp s) (herr : 0 ≤ s.cache.rdwtErr)
    (hp : (p : ℤ) < (s.inodes rip).size) (hleft : left ≤ 32767) :
    Surely (chunkBuf rip p off chunk left .reading) s fun o s' =>
      ∃ bp, o = some bp ∧ InBuffer ((viewOf rip s).data (s.supers sp) (p / blockSize)) bp s s' := by
  have hn : (((p : ℤ) / blockSize).toNat) = p / blockSize := by
    unfold blockSize
    omega
  unfold chunkBuf
  rw [Surely, wp_bind, wp_readInode]
  dsimp only
  rw [h.blockSpec]
  simp only [Bool.false_eq_true, if_false, true_and]
  rw [wp_bind]
  refine Wp.mono (readMap_surely h.toMounted (Int.natCast_nonneg p)) ?_
  rintro b s₁ ⟨rfl, hcalm⟩
  rw [hn]
  have hready := hcalm.ready h.toReady
  have hview := hcalm.view h.driver
  have honly := hcalm.only rip
  unfold FileView.data
  -- a buffer that has been obtained since `s₁` has been obtained since `s`
  have hsince : ∀ {data : Block} {bp : BufId} {s' : FsState},
      InBuffer data bp s₁ s' → InBuffer data bp s s' :=
    fun hs => ⟨hs.frame.trans (by rw [hcalm.frame]), hs.coherent, hs.served,
      hcalm.lent.before hs.lent, hcalm.blocks.trans hs.blocks, hs.inBuf⟩
  refine wp_ite (fun hhole => ?_) fun hblock => ?_
  · rw [if_pos hhole]
    refine Wp.mono (holeBuf_inBuffer hcalm.able) ?_
    rintro o s' ⟨bp, rfl, hs⟩
    exact ⟨bp, rfl, hsince hs⟩
  · rw [if_neg hblock]
    have hinode : s₁.inodes rip = s.inodes rip := by rw [hcalm.frame]
    have hsupers : s₁.supers = s.supers := by rw [hcalm.frame]
    have hnear : (p : ℤ) < 2 ^ 31 - blockSize := hp.trans h.size
    have hbring : Surely (rahead rip ((viewOf rip s₁).block (s₁.supers sp) (p / blockSize)) p left) s₁
        fun bp s' => Held rip ((viewOf rip s₁).block (s₁.supers sp) (p / blockSize))
          ((viewOf rip s₁).blocks ((viewOf rip s₁).block (s₁.supers sp) (p / blockSize))) bp s₁ s' ∧
            SameBlocks s₁.cache s'.cache :=
      rahead_file hready (by rw [hinode]; exact h.blockSpec) (by rw [hinode]; exact h.size.le)
        (by rw [hcalm.lent.drive.2]; exact herr) (by push_cast; rfl) hnear hleft
    rw [hview, hsupers] at hbring
    rw [wp_bind]
    refine Wp.mono hbring ?_
    rintro bp s' ⟨hheld, hblocks⟩
    exact ⟨bp, rfl, hsince (hheld.inBuffer hblocks)⟩

end

/-! ## §3 Chunks -/

/-- Bytes have been copied to a process, or nothing has; no block has changed. -/
structure Gave (usr : ProcId) (addr : ℕ) (bytes : List UInt8) (r : ℤ) (s s' : FsState) : Prop where
  frame : s' = { s with cache := s'.cache, g := { s.g with tick := s'.g.tick, toUser := s'.g.toUser } }
  able : Able s'.cache
  lent : Lent none s.cache s'.cache
  blocks : SameBlocks s.cache s'.cache
  toUser : s'.g.toUser = if r = OK then (usr, addr, bytes) :: s.g.toUser else s.g.toUser
  answer : r = s.g.copy s.g.tick

section

variable {rip : InodeId} {sp : SuperId} {s s' : FsState} {usr : ProcId}

theorem putChunk_able {bp : BufId} {s₁ : FsState} {data : Block} (h : InBuffer data bp s s₁) (full : Prop)
    [Decidable full] (hable : Able s.cache) :
    SurelyC (putBlock (.to bp) (if full then .fullDataBlock else .partialDataBlock)) s₁.cache fun _ c' =>
      Able c' ∧ Lent none s.cache c' ∧ SameBlocks s.cache c' := by
  have htype : (if full then BlockType.fullDataBlock else .partialDataBlock).writeImmed = false := by
    split <;> rfl
  have hzuper : (if full then BlockType.fullDataBlock else .partialDataBlock) ≠ .zuperBlock := by
    split <;> decide
  have hused := h.lent.pos hable.toLinked
  refine (Surely.and (putBuf_surely htype hzuper h.served) (putBuf_spec h.coherent hused)).mono ?_
  rintro _ c' ⟨hserved, hc', hblocks, hput⟩
  have hback := h.lent.put hput
  exact ⟨hable.lent hback hc' hserved, hback, h.blocks.trans hblocks⟩

/-- One chunk of a file is read. -/
theorem rwChunk_reads {p chunk addr : ℕ} {left : ℤ} (h : Regular rip sp s) (herr : 0 ≤ s.cache.rdwtErr)
    (hchunk : 0 < chunk) (hp : p + chunk ≤ (s.inodes rip).size.toNat)
    (hin : p % blockSize + chunk ≤ blockSize) (hleft : left ≤ 32767) :
    Surely (rwChunk rip p (p % blockSize) chunk left .reading addr usr) s fun r s' =>
      Gave usr addr ((fileAt rip sp s).read p chunk) r s s' := by
  have hlt : (p : ℤ) < (s.inodes rip).size := by
    have := h.nonneg
    omega
  unfold rwChunk
  rw [Surely, wp_bind]
  refine Wp.mono (chunkBuf_reads h herr hlt hleft) ?_
  rintro o s₁ ⟨bp, rfl, hs⟩
  simp only [wp_bind, wp_readInode, reduceCtorEq, false_and, if_false, rwUser, nextCopy, wp_globals,
    wp_modGlobals, wp_pure]
  have hg1 : s₁.g = s.g := by rw [hs.frame]
  have hput := putChunk_able hs (p % blockSize + chunk = blockSize) h.able
  refine wp_ite (fun hok => ?_) fun hbad => ?_
  · simp only [wp_bind, wp_liftC, wp_readBuf, wp_modGlobals, wp_pure]
    refine Wp.mono hput ?_
    rintro _ c' ⟨hable', hlent', hblocks'⟩
    refine ⟨by rw [hs.frame], hable', hlent', hblocks', ?_, by rw [hg1]⟩
    rw [fileAt_read hp hin, if_pos hok, hs.inBuf, hg1]
  · simp only [wp_pure, wp_liftC]
    refine Wp.mono hput ?_
    rintro _ c' ⟨hable', hlent', hblocks'⟩
    refine ⟨by rw [hs.frame], hable', hlent', hblocks', ?_, by rw [hg1]⟩
    rw [if_neg hbad, hg1]

end

/-! ## §4 All Chunks -/

/-- The memory of the processes after copies to them, of which the last one is the first in the list. -/
def afterCopies (mem : ProcId → Memory) : List (ProcId × ℕ × List UInt8) → ProcId → Memory
  | [] => mem
  | (usr, addr, bytes) :: l =>
    update (afterCopies mem l) usr ((afterCopies mem l usr).write addr bytes)

/-- The memory of the processes with bytes written to one of them. -/
def written (mem : ProcId → Memory) (usr : ProcId) (addr : ℕ) (bytes : List UInt8) : ProcId → Memory :=
  update mem usr ((mem usr).write addr bytes)

theorem written_nil (mem : ProcId → Memory) (usr : ProcId) (addr : ℕ) : written mem usr addr [] = mem := by
  rw [written, Memory.write_nil, update_eq_self]

theorem written_append (mem : ProcId → Memory) (usr : ProcId) (addr : ℕ) (bytes bytes' : List UInt8) :
    written (written mem usr addr bytes) usr (addr + bytes.length) bytes' =
      written mem usr addr (bytes ++ bytes') := by
  unfold written
  rw [update_self, update_idem]
  congr 1
  push_cast
  exact Memory.write_append ..

/-- Bytes have been copied to consecutive addresses of a process, from the buffer of the call on; no block
    has changed. -/
structure Handed (usr : ProcId) (bytes : List UInt8) (s s' : FsState) : Prop where
  frame : s' = { s with
    cache := s'.cache
    g := { s.g with
      tick := s'.g.tick, toUser := s'.g.toUser, buffer := s'.g.buffer, nbytes := s'.g.nbytes } }
  able : Able s'.cache
  lent : Lent none s.cache s'.cache
  blocks : SameBlocks s.cache s'.cache
  buffer : s'.g.buffer = s.g.buffer + bytes.length
  memory : ∀ mem, afterCopies mem s'.g.toUser = written (afterCopies mem s.g.toUser) usr s.g.buffer bytes

section

variable {rip : InodeId} {sp : SuperId} {s s' s'' : FsState} {usr : ProcId} {bytes bytes' : List UInt8}

theorem Handed.refl (h : Able s.cache) : Handed usr [] s s where
  frame := rfl
  able := h
  lent := .refl _
  blocks := .refl _
  buffer := rfl
  memory _ := (written_nil ..).symm

theorem Handed.trans (h : Handed usr bytes s s') (h' : Handed usr bytes' s' s'') :
    Handed usr (bytes ++ bytes') s s'' where
  frame := by
    refine h'.frame.trans ?_
    rw [h.frame]
  able := h'.able
  lent := h.lent.trans h'.lent
  blocks := h.blocks.trans h'.blocks
  buffer := by rw [h'.buffer, h.buffer, List.length_append, Nat.add_assoc]
  memory mem := by rw [h'.memory, h.memory, h.buffer, written_append]

theorem Gave.failed {addr : ℕ} {r : ℤ} (h : Gave usr addr bytes r s s') (hr : r ≠ OK) :
    Handed usr [] s s' where
  frame := by rw [h.frame]
  able := h.able
  lent := h.lent
  blocks := h.blocks
  buffer := by rw [h.frame]; rfl
  memory mem := by rw [h.toUser, if_neg hr, written_nil]

/-- A chunk has been copied, and the loop goes on. -/
theorem Gave.copied {r : ℤ} (nbytes : ℤ) (h : Gave usr s.g.buffer bytes r s s') (hr : r = OK) :
    Handed usr bytes s
      { s' with g := { s'.g with buffer := s'.g.buffer + bytes.length, nbytes := nbytes } } where
  frame := by rw [h.frame]
  able := h.able
  lent := h.lent
  blocks := h.blocks
  buffer := by
    dsimp only
    rw [h.frame]
  memory mem := by
    dsimp only
    rw [h.toUser, if_pos hr]
    rfl

theorem Handed.calm (h : Handed usr bytes s s') : Calm s { s with cache := s'.cache } :=
  ⟨rfl, h.able, h.lent, h.blocks⟩

theorem Handed.regular (h : Handed usr bytes s s') (hr : Regular rip sp s) : Regular rip sp s' := by
  have hready := h.calm.ready hr.toReady
  obtain ⟨c, g, rfl⟩ : ∃ c g, s' = { s with cache := c, g := g } := ⟨_, _, h.frame⟩
  exact ⟨⟨⟨hready.super, hready.geometry, hready.driver, hready.able, hready.zmap⟩, hready.ok⟩,
    hr.type, hr.pipe, hr.nonneg, hr.size⟩

theorem Handed.fileAt (h : Handed usr bytes s s') (hdev : HasDriver (s.inodes rip).dev) :
    fileAt rip sp s' = fileAt rip sp s := by
  have hview := h.calm.view hdev
  obtain ⟨c, g, rfl⟩ : ∃ c g, s' = { s with cache := c, g := g } := ⟨_, _, h.frame⟩
  exact congrArg (fun v => FileView.contents (s.supers sp) v (s.inodes rip).size.toNat) hview

/-- How many bytes there are to read from a position on. -/
def wanted (size nbytes p : ℕ) : ℕ := min nbytes (size - p)

/-- Positions within a file do not overflow. -/
theorem toLong_within {p c : ℕ} (h : Regular rip sp s) (hfile : p + c ≤ (s.inodes rip).size.toNat) :
    toLong ((p : ℤ) + c) = ((p + c : ℕ) : ℤ) := by
  have hsize := h.size
  have hnonneg := h.nonneg
  unfold blockSize at hsize
  push_cast
  exact toLong_eq (by omega) (by omega)

/-- What the loop of `read_write` has come to: `n` bytes have been read from position `p` on. -/
structure LoopRead (rip : InodeId) (sp : SuperId) (usr : ProcId) (p : ℕ) (cumIo : ℤ) (n : ℕ)
    (x : ℤ × ℤ × ℤ) (s s' : FsState) : Prop where
  moved : x.2 = (((p + n : ℕ) : ℤ), cumIo + n)
  le : n ≤ wanted (s.inodes rip).size.toNat s.g.nbytes.toNat p
  answer : if n = wanted (s.inodes rip).size.toNat s.g.nbytes.toNat p then x.1 = OK
    else x.1 ≠ OK ∧ ∃ t, x.1 = s.g.copy t
  copied : Handed usr ((fileAt rip sp s).read p n) s s'

/-- There is nothing to read. -/
theorem LoopRead.nothing {p : ℕ} {cumIo : ℤ} (h : Able s.cache)
    (hnone : wanted (s.inodes rip).size.toNat s.g.nbytes.toNat p = 0) :
    LoopRead rip sp usr p cumIo 0 (OK, p, cumIo) s s where
  moved := by simp
  le := Nat.zero_le _
  answer := by rw [if_pos hnone.symm]
  copied := by
    rw [File.read_zero]
    exact Handed.refl h

/-- The first chunk cannot be copied. -/
theorem LoopRead.failed {p : ℕ} {cumIo r : ℤ} (h : Gave usr s.g.buffer bytes r s s') (hr : r ≠ OK)
    (hsome : wanted (s.inodes rip).size.toNat s.g.nbytes.toNat p ≠ 0) :
    LoopRead rip sp usr p cumIo 0 (r, p, cumIo) s s' where
  moved := by simp
  le := Nat.zero_le _
  answer := by
    rw [if_neg hsome.symm]
    exact ⟨hr, _, h.answer⟩
  copied := by
    rw [File.read_zero]
    exact h.failed hr

/-- A chunk of `c` bytes has been copied, and then the rest. -/
theorem LoopRead.cons {p c n : ℕ} {cumIo : ℤ} {x : ℤ × ℤ × ℤ}
    (h : Handed usr ((fileAt rip sp s).read p c) s s') (hdev : HasDriver (s.inodes rip).dev)
    (hc : p + c ≤ (s.inodes rip).size.toNat) (hbytes : s'.g.nbytes = s.g.nbytes - c)
    (hle : (c : ℤ) ≤ s.g.nbytes) (h' : LoopRead rip sp usr (p + c) (cumIo + c) n x s' s'') :
    LoopRead rip sp usr p cumIo (c + n) x s s'' := by
  have hinode : s'.inodes rip = s.inodes rip := by rw [h.frame]
  have hcopy : s'.g.copy = s.g.copy := by rw [h.frame]
  obtain ⟨hmoved, hn, hanswer, hcopied⟩ := h'
  have hwanted : c + wanted (s.inodes rip).size.toNat s'.g.nbytes.toNat (p + c) =
      wanted (s.inodes rip).size.toNat s.g.nbytes.toNat p := by
    unfold wanted
    omega
  rw [hinode] at hn hanswer
  rw [hcopy] at hanswer
  rw [h.fileAt hdev] at hcopied
  constructor
  · rw [hmoved]
    push_cast
    rw [Int.add_assoc, Int.add_assoc]
  · omega
  · rw [← hwanted]
    simpa only [Nat.add_left_cancel_iff] using hanswer
  · rw [File.read_add hc]
    exact h.trans hcopied

/-- The loop of `read_write` copies what is in the file, up to its end unless a copy fails. -/
theorem rwLoop_reads {k p : ℕ} {cumIo : ℤ} (h : Regular rip sp s) (herr : 0 ≤ s.cache.rdwtErr)
    (hzero : 0 ≤ s.g.nbytes) (hk : s.g.nbytes ≤ k) (hmax : s.g.nbytes ≤ 32767) :
    Surely (rwLoop rip false (s.inodes rip).size .reading usr k OK p cumIo) s fun x s' =>
      ∃ n, LoopRead rip sp usr p cumIo n x s s' := by
  induction k generalizing s p cumIo with
  | zero =>
    refine ⟨0, LoopRead.nothing h.able ?_⟩
    unfold wanted
    omega
  | succ k ih =>
    unfold rwLoop
    rw [Surely, wp_bind, wp_globals]
    refine wp_ite (fun hdone => ?_) fun hmore => ?_
    · refine ⟨0, LoopRead.nothing h.able ?_⟩
      unfold wanted
      omega
    simp only [decide_true, Bool.true_or, true_and, if_true]
    refine wp_ite (fun hend => ?_) fun hbefore => ?_
    · refine ⟨0, LoopRead.nothing h.able ?_⟩
      unfold wanted
      omega
    -- the chunk lies within the block and the file
    obtain ⟨c, hc⟩ : ∃ c : ℕ, min (min s.g.nbytes (blockSize - (p : ℤ) % blockSize))
        ((s.inodes rip).size - p) = c := by
      apply Int.eq_ofNat_of_zero_le
      unfold blockSize
      omega
    have hoff : ((p : ℤ) % blockSize).toNat = p % blockSize := by
      unfold blockSize
      omega
    have hpos : 0 < c := by
      unfold blockSize at hc
      omega
    have hin : p % blockSize + c ≤ blockSize := by
      unfold blockSize at *
      omega
    have hfile : p + c ≤ (s.inodes rip).size.toNat := by omega
    rw [hc, hoff, Int.toNat_natCast, wp_bind]
    refine Wp.mono (rwChunk_reads h herr hpos hfile hin hmax) ?_
    rintro r s₁ hgave
    have hsame : s₁.cache.rdwtErr = s.cache.rdwtErr := hgave.lent.drive.2
    rw [wp_bind, wp_get]
    refine wp_ite (fun hstop => ?_) fun hgo => ?_
    · have hbad : r ≠ OK := by
        rcases hstop with hbad | hneg
        · exact hbad
        · rw [hsame] at hneg
          exact absurd herr (not_le.mpr hneg)
      refine ⟨0, LoopRead.failed hgave hbad ?_⟩
      unfold wanted
      omega
    · obtain ⟨hok, -⟩ := not_or.mp hgo
      rw [not_not] at hok
      have hlength : ((fileAt rip sp s).read p c).length = c := by
        rw [File.length_read]
        exact min_eq_left (Nat.le_sub_of_add_le' hfile)
      have hcopied := hgave.copied (s.g.nbytes - c) hok
      rw [hlength] at hcopied
      have hg1 : s₁.g.nbytes = s.g.nbytes := by rw [hgave.frame]
      rw [wp_bind, wp_modGlobals, hg1, hok]
      generalize hs2 : FsState.mk _ _ _ _ _ _ = s₂ at hcopied ⊢
      have hinode : s₂.inodes rip = s.inodes rip := by rw [hcopied.frame]
      have hleft : s₂.g.nbytes = s.g.nbytes - c := by rw [← hs2]
      rw [toLong_within h hfile]
      have hnone : 0 ≤ s₂.cache.rdwtErr := by
        rw [hcopied.lent.drive.2]
        exact herr
      have hrest := @ih s₂ (p + c) (cumIo + c) (hcopied.regular h) hnone (by omega) (by omega) (by omega)
      rw [hinode] at hrest
      refine hrest.mono ?_
      rintro x s' ⟨n, hread⟩
      exact ⟨c + n, hread.cons hcopied h.driver hfile hleft (by omega)⟩

end

end LisaMinix.Fs.Server
