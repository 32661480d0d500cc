import LisaMinix.Fs.Server.Coherence

/-!
# Room in the Cache

The cache panics when no buffer is left and when a buffer belongs to a device without a driver.  With
a buffer to spare and a driver for every device it does not, so what has been shown of programs that
return is true of every run.

- `Served`: every device in the cache has a driver.
- `getBlock_surely`, `putBuf_surely`: no panic.
- `Able`: a coherent cache in which a block can be used.
- `openBlock_spec`, `Opened.dirty`, `Opened.put`: a block is obtained, changed and given back.
-/

namespace LisaMinix.Fs.Server

open LisaMinix.Library Function
open Finset (univ)

/-- Some program of the cache, which does not panic. -/
abbrev SurelyC {α : Type} (m : CacheM α) (c : Cache) (Q : α → Cache → Prop) : Prop :=
  Wp (fun _ _ => False) m c Q

/-- Some program, which does not panic. -/
abbrev Surely {α : Type} (m : FsM α) (s : FsState) (Q : α → FsState → Prop) : Prop :=
  Wp (fun _ _ => False) m s Q

/-- What returns, and does not panic. -/
theorem Surely.and {σ ε α : Type} {p : Prog σ ε α} {s : σ} {Q Q' : α → σ → Prop}
    (h : Wp (fun _ _ => False) p s Q) (h' : Wp (fun _ _ => True) p s Q') :
    Wp (fun _ _ => False) p s fun a s' => Q a s' ∧ Q' a s' := h.and h'

/-- What does not fail has a result. -/
theorem Surely.returns {σ ε α : Type} {p : Prog σ ε α} {s : σ} {Q : α → σ → Prop}
    (h : Wp (fun _ _ => False) p s Q) : ∃ a s', Q a s' := by
  unfold Wp at h
  cases hrun : p s with
  | mk r s' =>
    rw [hrun] at h
    cases r with
    | error e => exact absurd h id
    | ok a => exact ⟨a, s', h⟩

/-! ## §1 Drivers -/

/-- `find_dev` accepts the device. -/
def HasDriver (dev : ℕ) : Prop := majorOf dev ≠ 0 ∧ majorOf dev < 7

theorem HasDriver.ne_noDev {dev : ℕ} (h : HasDriver dev) : dev ≠ noDev := by
  rintro rfl
  exact absurd h.2 (by decide)

/-- Every device in the cache has a driver. -/
def Served (c : Cache) : Prop := ∀ bp, (c.buf bp).dev ≠ noDev → HasDriver (c.buf bp).dev

theorem Served.of_dev {c c' : Cache} (h : Served c)
    (hdev : ∀ bp, (c'.buf bp).dev = (c.buf bp).dev ∨ (c'.buf bp).dev = noDev) : Served c' := by
  intro bp hbp
  rcases hdev bp with heq | hnone
  · rw [heq] at hbp ⊢
    exact h bp hbp
  · exact absurd hnone hbp

section

variable {c : Cache} {dev b : ℕ} {bp : BufId}
variable {search : Search} {c' : Cache} {data : Block}

theorem wp_findDev {E : Panic → Cache → Prop} {Q : PUnit → Cache → Prop} (hdev : HasDriver dev) :
    Wp E (findDev dev) c Q ↔ Q ⟨⟩ c := by
  unfold findDev
  rw [if_neg]
  · exact Iff.rfl
  · rintro (hzero | hmajor)
    · exact hdev.1 hzero
    · exact absurd hdev.2 (not_lt.mpr hmajor)

theorem transfer_surely (bp : BufId) (dev : ℕ) (rw : RwFlag) (ans : IoAnswer) (c : Cache) :
    SurelyC (transfer bp dev rw ans) c fun _ c' => ∀ x, (c'.buf x).dev = (c.buf x).dev := by
  cases rw with
  | reading =>
    simp only [SurelyC, transfer, wp_bind, wp_get, wp_modBuf]
    intro x
    rcases eq_or_ne x bp with rfl | hx
    · rw [update_self]
    · rw [update_of_ne hx]
  | writing =>
    simp only [SurelyC, transfer, setDisk, wp_bind, wp_get, wp_modify]
    exact fun _ => trivial

/-! ## §2 Flushing -/

theorem harvestAll_surely (dev : ℕ) (l : List BufId) (c : Cache) :
    SurelyC (harvestAll dev .writing l) c fun _ c' =>
      ∀ x, (c'.buf x).dev = (c.buf x).dev ∨ (c'.buf x).dev = noDev := by
  induction l generalizing c with
  | nil => exact fun _ => .inl rfl
  | cons bp l ih =>
    simp only [SurelyC, harvestAll, wp_bind, wp_nextAnswer]
    refine (transfer_surely bp dev .writing _ _).mono fun _ c₁ h1 => ?_
    have hmark (c₂ : Cache) (h2 : ∀ x, (c₂.buf x).dev = (c.buf x).dev ∨ (c₂.buf x).dev = noDev) :
        SurelyC (harvestAll dev .writing l) c₂ fun _ c' =>
          ∀ x, (c'.buf x).dev = (c.buf x).dev ∨ (c'.buf x).dev = noDev := by
      refine (ih c₂).mono fun _ c' h' x => ?_
      rcases h' x with heq | hnone
      · rw [heq]
        exact h2 x
      · exact .inr hnone
    refine wp_ite (fun _ => ?_) fun _ => ?_
    · simp only [wp_bind, wp_modBuf]
      apply hmark
      intro x
      rcases eq_or_ne x bp with rfl | hx
      · simp
      · simp [hx, h1 x]
    · simp only [wp_bind, wp_modBuf]
      apply hmark
      intro x
      rcases eq_or_ne x bp with rfl | hx
      · simp [h1 x]
      · simp [hx, h1 x]

theorem flushall_surely (hdev : HasDriver dev) :
    SurelyC (flushall dev) c fun _ c' =>
      ∀ x, (c'.buf x).dev = (c.buf x).dev ∨ (c'.buf x).dev = noDev := by
  have hfew : ¬nrBufs < (dirtyBufs c dev).length := by
    have hlen := List.length_filter_le
      (fun bp => decide ((c.buf bp).dirt = true ∧ (c.buf bp).dev = dev)) (List.finRange nrBufs)
    rw [List.length_finRange] at hlen
    exact not_lt.mpr hlen
  unfold flushall rwScattered SurelyC
  simp only [wp_bind, wp_get]
  refine wp_ite (fun _ => fun _ => .inl rfl) fun _ => ?_
  refine wp_ite (fun hmany => absurd hmany hfew) fun _ => ?_
  rw [wp_bind, wp_findDev hdev]
  simp only [wp_bind, wp_get]
  exact harvestAll_surely dev _ c

/-! ## §3 `get_block` and `put_block` -/

theorem rwBlock_surely (hdev : HasDriver (c.buf bp).dev) (rw : RwFlag) :
    SurelyC (rwBlock bp rw) c fun _ c' =>
      ∀ x, (c'.buf x).dev = (c.buf x).dev ∨ (c'.buf x).dev = noDev := by
  unfold rwBlock SurelyC
  simp only [wp_bind, wp_get]
  rw [if_pos hdev.ne_noDev, wp_bind, wp_findDev hdev]
  simp only [wp_bind, wp_nextAnswer]
  refine (transfer_surely bp _ rw _ _).mono fun _ c₁ h1 => ?_
  refine wp_ite (fun _ => ?_) fun _ => ?_
  · simp only [wp_bind, wp_modBuf]
    refine wp_ite (fun _ => ?_) fun _ => ?_
    all_goals
      simp only [wp_bind, wp_modify, wp_modBuf]
      intro x
      rcases eq_or_ne x bp with rfl | hx
      · simp
      · simp [hx, h1 x]
  · simp only [wp_modBuf]
    intro x
    rcases eq_or_ne x bp with rfl | hx
    · simp [h1 x]
    · simp [hx, h1 x]

/-- A buffer that is evicted, with the flush that this may need. -/
theorem takeBuf_surely (hc : Served c) (hdev : dev ≠ noDev → HasDriver dev) :
    SurelyC (takeBuf bp dev b search) c fun _ c' => Served c' := by
  unfold takeBuf useMore SurelyC
  simp only [wp_bind, wp_modify, wp_get]
  refine wp_join Served hc (fun c₁ h1 => ?_) fun hdirty hgrab => ?_
  · -- the buffer is taken from a cache in which every device is served
    simp only [wp_bind, wp_modBuf, wp_modify]
    have h2 : Served { c₁ with
        buf := update c₁.buf bp { c₁.buf bp with
          dev := if search = .prefetch then noDev else dev
          blocknr := b
          count := (c₁.buf bp).count + 1 }
        hash := update c₁.hash (b % nrBufHash) (bp :: c₁.hash (b % nrBufHash)) } := by
      intro x hx
      rcases eq_or_ne x bp with rfl | hne
      · simp only [update_self] at hx ⊢
        split_ifs at hx ⊢
        · exact absurd rfl hx
        · exact hdev hx
      · simp only [update_of_ne hne] at hx ⊢
        exact h1 x hx
    refine wp_ite (fun hread => ?_) fun _ => h2
    rw [wp_bind]
    refine (rwBlock_surely ?_ .reading).mono fun _ c' h' => h2.of_dev h'
    simp only [update_self]
    rw [if_neg (by rw [hread.2]; decide)]
    exact hdev hread.1
  · rw [wp_bind]
    exact (flushall_surely (hc bp hdirty.1)).mono fun _ c₁ h1 => hgrab c₁ (hc.of_dev h1)

/-- `get_block` finds a buffer when one is not in use. -/
theorem getBlock_serves (hlinked : Linked c) (hc : Served c) (hroom : c.bufsInUse < nrBufs)
    (hdev : dev ≠ noDev → HasDriver dev) :
    SurelyC (getBlock dev b search) c fun _ c' => Served c' := by
  unfold getBlock SurelyC
  simp only [wp_bind, wp_get]
  cases hfound : searchHash c dev b with
  | some bp =>
    have hcount (c₁ : Cache) (h1 : c₁.buf = c.buf) : Served
        { c₁ with
          buf := update c₁.buf bp { c₁.buf bp with count := (c₁.buf bp).count + 1 } } := by
      refine hc.of_dev fun x => .inl ?_
      rw [h1]
      rcases eq_or_ne x bp with rfl | hne
      · simp only [update_self]
      · simp only [update_of_ne hne]
    refine wp_ite (fun _ => ?_) fun _ => ?_
    · simp only [useMore, wp_bind, wp_modify, wp_modBuf, wp_pure]
      exact hcount _ rfl
    · simp only [wp_bind, wp_modBuf, wp_pure]
      exact hcount _ rfl
  | none =>
    refine wp_ite (fun hfull => absurd hfull (ne_of_lt hroom)) fun _ => ?_
    cases hfree : c.lru.find? fun bp => (c.buf bp).count = 0 with
    | some bp => exact takeBuf_surely hc hdev
    | none =>
      -- all buffers would be in use
      have hused : ∀ bp, (c.buf bp).count ≠ 0 := by
        intro bp hzero
        have hmem : bp ∈ c.lru := hlinked.lru.mem_iff.mpr (List.mem_finRange bp)
        exact absurd (decide_eq_true hzero) (List.find?_eq_none.mp hfree bp hmem)
      have hall : c.bufsInUse = nrBufs := by
        rw [hlinked.inUse, Finset.filter_true_of_mem fun bp _ => hused bp, Finset.card_univ,
          Fintype.card_fin]
      exact absurd hall (ne_of_lt hroom)

theorem getBlock_surely (hlinked : Linked c) (hc : Served c) (hroom : c.bufsInUse < nrBufs)
    (hdev : HasDriver dev) : SurelyC (getBlock dev b search) c fun _ c' => Served c' :=
  getBlock_serves hlinked hc hroom fun _ => hdev

/-- `put_block` for a block that is not written at once. -/
theorem putBuf_surely {blockType : BlockType} (htype : blockType.writeImmed = false)
    (hzuper : blockType ≠ .zuperBlock) (hc : Served c) :
    SurelyC (putBuf bp blockType) c fun _ c' => Served c' := by
  have hcount : Served { c with
      buf := update c.buf bp { c.buf bp with count := (c.buf bp).count - 1 } } := by
    refine hc.of_dev fun x => .inl ?_
    rcases eq_or_ne x bp with rfl | hne
    · simp only [update_self]
    · simp only [update_of_ne hne]
  unfold putBuf SurelyC
  simp only [wp_bind, wp_modBuf, wp_get]
  refine wp_ite (fun _ => ?_) fun _ => hcount
  simp only [useFewer, wp_bind, wp_modify, wp_get]
  rw [if_neg (fun h => by rw [htype] at h; exact absurd h.1 (by decide)), if_neg hzuper]
  exact hcount

/-! ## §4 A Block in Use -/

/-- The number of buffers in use follows from the counts. -/
theorem Lent.bufsInUse (h : Lent none c c') (hc : Linked c) (hc' : Linked c') :
    c'.bufsInUse = c.bufsInUse := by
  rw [hc.inUse, hc'.inUse]
  congr 1
  apply Finset.filter_congr
  intro x _
  rw [h.count x, if_neg (by simp), add_zero]

/-- A cache in which one more block can be used. -/
structure Able (c : Cache) : Prop extends Coherent none c where
  served : Served c
  room : c.bufsInUse < nrBufs

theorem Able.lent (h : Able c) (hlent : Lent none c c') (hc' : Coherent none c')
    (hserved : Served c') : Able c' where
  toCoherent := hc'
  served := hserved
  room := by
    rw [hlent.bufsInUse h.toLinked hc'.toLinked]
    exact h.room

/-- One block of the device holds new data. -/
def Stored (dev b : ℕ) (data : Block) (c c' : Cache) : Prop :=
  ∀ d b', d ≠ noDev → blockAt c' d b' = if d = dev ∧ b' = b then data else blockAt c d b'

theorem Stored.eq_update (h : Stored dev b data c c') (hdev : dev ≠ noDev) :
    blockAt c' dev = update (blockAt c dev) b data := by
  funext b'
  rw [h dev b' hdev]
  rcases eq_or_ne b' b with rfl | hne
  · rw [if_pos ⟨rfl, rfl⟩, update_self]
  · rw [if_neg fun he => hne he.2, update_of_ne hne]

theorem Stored.trans {data' : Block} {c'' : Cache} (h : Stored dev b data c c')
    (h' : Stored dev b data' c' c'') : Stored dev b data' c c'' := by
  intro d b' hd
  rw [h' d b' hd, h d b' hd]
  split
  next => rfl
  next => rfl

theorem Stored.same {c'' : Cache} (h : Stored dev b data c c') (h' : SameBlocks c' c'') :
    Stored dev b data c c'' := by
  intro d b' hd
  rw [h' d b' hd, h d b' hd]

/-- A block is in a buffer, which has been obtained. -/
structure Opened (dev b : ℕ) (data : Block) (bp : BufId) (c : Cache) : Prop
    extends Coherent none c where
  served : Served c
  used : (c.buf bp).count ≠ 0
  holds : Holds c bp dev b
  inBuf : (c.buf bp).data = data

theorem Opened.blockAt (h : Opened dev b data bp c) (hdev : dev ≠ noDev) :
    blockAt c dev b = data := by
  rw [h.toLinked.blockAt_held h.holds hdev, h.inBuf]

theorem Touched.stored (h : Touched bp c c') (hc : Linked c) (hholds : Holds c bp dev b) :
    Stored dev b (c'.buf bp).data c c' := by
  intro d b' hd
  rw [h.blockAt hc hd]
  by_cases he : d = dev ∧ b' = b
  · obtain ⟨rfl, rfl⟩ := he
    rw [if_pos hholds, if_pos ⟨rfl, rfl⟩]
  · rw [if_neg he, if_neg]
    rintro ⟨rfl, rfl⟩
    exact he ⟨hholds.1, hholds.2⟩

/-- A buffer is changed: what holds of it and of the cache then. -/
theorem opened_touched (hc : Coherent (some bp) c) (hserved : Served c) (hholds : Holds c bp dev b)
    (h : Touched bp c c') (hc' : Coherent none c') : Opened dev b (c'.buf bp).data bp c' where
  toCoherent := hc'
  served := hserved.of_dev fun x => .inl (h.keeps x).1
  used := by
    rw [(h.keeps bp).2.2]
    exact hc.held bp rfl
  holds := h.holds.mpr hholds
  inBuf := rfl

/-- A block is obtained, or one that is to be overwritten is obtained and cleared. -/
theorem openBlock_spec (hc : Able c) (hdev : HasDriver dev) (fresh : Bool) :
    SurelyC (getBlock dev b (if fresh then .noRead else .normal)) c fun bp c₁ =>
      SurelyC (if fresh then zeroBlock bp else pure ⟨⟩) c₁ fun _ c' =>
        Opened dev b (if fresh then zeroBytes else blockAt c dev b) bp c' ∧ Lent (some bp) c c' ∧
          Stored dev b (if fresh then zeroBytes else blockAt c dev b) c c' := by
  have hvalid := hdev.ne_noDev
  cases fresh with
  | false =>
    refine ((getBlock_surely hc.toLinked hc.served hc.room hdev).and
      (getBlock_normal hc.toCoherent hvalid)).mono ?_
    rintro bp c' ⟨hserved, hgot, hc', hblocks⟩
    have hlent := (Lent.refl c).got hgot.got
    refine ⟨⟨hc', hserved, hlent.pos hc.toLinked, hgot.holds, ?_⟩, hlent, fun d b' hd => ?_⟩
    · rw [← hc'.toLinked.blockAt_held hgot.holds hvalid]
      exact hblocks dev b hvalid
    · rw [hblocks d b' hd]
      split
      next he => rw [he.1, he.2]; rfl
      next => rfl
  | true =>
    refine ((getBlock_surely hc.toLinked hc.served hc.room hdev).and
      (getBlock_noRead hc.toCoherent hvalid)).mono ?_
    rintro bp c₁ ⟨hserved, hgot, -⟩
    refine (@dirtyBuf_spec c₁ bp (fun _ _ => False) (fun _ => zeroBytes) hgot.coherent).mono ?_
    rintro _ c' ⟨htouched, hc', hdata⟩
    have hopened := opened_touched hgot.coherent hserved hgot.holds htouched hc'
    have hstored := htouched.stored hgot.coherent.toLinked hgot.holds
    rw [hdata] at hopened hstored
    refine ⟨hopened, ((Lent.refl c).got hgot.got).touched htouched, fun d b' hd => ?_⟩
    rw [hstored d b' hd]
    split
    next => rfl
    next hother => exact hgot.others d b' hd hother

section

variable {data : Block} {f : Block → Block} {blockType : BlockType}

/-- A block that is in use is changed. -/
theorem Opened.dirty (h : Opened dev b data bp c) :
    SurelyC (dirtyBuf bp f) c fun _ c' =>
      Opened dev b (f data) bp c' ∧ Lent none c c' ∧ Stored dev b (f data) c c' := by
  have hloose := h.toCoherent.loosen h.used
  refine (dirtyBuf_spec hloose).mono ?_
  rintro _ c' ⟨htouched, hc', hdata⟩
  have hopened := opened_touched hloose h.served h.holds htouched hc'
  have hstored := htouched.stored h.toLinked h.holds
  rw [hdata, h.inBuf] at hopened hstored
  exact ⟨hopened, (Lent.refl c).touched htouched, hstored⟩

/-- A block is given back, which has been obtained since `c₀`. -/
theorem Opened.put {c₀ : Cache} (h : Opened dev b data bp c) (hc0 : Able c₀)
    (hlent : Lent (some bp) c₀ c) (htype : blockType.writeImmed = false)
    (hzuper : blockType ≠ .zuperBlock) :
    SurelyC (putBlock (.to bp) blockType) c fun _ c' =>
      Able c' ∧ Lent none c₀ c' ∧ SameBlocks c c' := by
  refine ((putBuf_surely htype hzuper h.served).and (putBuf_spec h.toCoherent h.used)).mono ?_
  rintro _ c' ⟨hserved, hc', hblocks, hput⟩
  have hback := hlent.put hput
  exact ⟨hc0.lent hback hc' hserved, hback, hblocks⟩

/-- A block is read. -/
theorem readBlock_surely {α : Type} (hc : Able c) (hdev : HasDriver dev)
    (htype : blockType.writeImmed = false) (hzuper : blockType ≠ .zuperBlock) (g : Block → α) :
    SurelyC (do
      let bp ← getBlock dev b .normal
      let data ← readBuf bp
      putBlock (.to bp) blockType
      return g data) c fun r c' =>
        r = g (blockAt c dev b) ∧ Able c' ∧ Lent none c c' ∧ SameBlocks c c' := by
  rw [SurelyC, wp_bind]
  refine (openBlock_spec hc hdev false).mono ?_
  rintro bp c₁ ⟨hopened, hlent, hstored⟩
  simp only [wp_bind, wp_readBuf]
  refine (hopened.put hc hlent htype hzuper).mono ?_
  rintro _ c' ⟨hable, hlent', hblocks⟩
  refine ⟨by rw [hopened.inBuf]; rfl, hable, hlent', fun d b' hd => ?_⟩
  rw [hblocks d b' hd, hstored d b' hd]
  split
  next he => rw [he.1, he.2]; rfl
  next => rfl

end

end

end LisaMinix.Fs.Server
