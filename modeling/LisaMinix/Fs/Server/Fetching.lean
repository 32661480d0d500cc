import LisaMinix.Fs.Server.Room

/-!
# Blocks That Are Fetched

What `get_block` and `put_block` do to the buffers, whatever the disks answer.

- `Fetched`: the buffer that `get_block` returns, and what becomes of the others.
- `getBlock_fetched`: for each of the three ways of asking for a block.
- `putBuf_counted`: a buffer is given back, and no buffer changes.
-/

namespace LisaMinix.Fs.Server

open LisaMinix.Library Function
open Finset (univ)

/-! ## §1 Reading a Buffer -/

/-- A buffer has been read, or the disk has failed and the buffer is lost. -/
structure ReadIn (bp : BufId) (c c' : Cache) : Prop where
  chains : SameChains c c'
  disk : c'.disk = c.disk
  writes : c'.writes = c.writes
  others : ∀ x, x ≠ bp → c'.buf x = c.buf x
  came : (c'.buf bp).dev = (c.buf bp).dev ∧
      (c'.buf bp).data = c.disk (c.buf bp).dev (c.buf bp).blocknr ∨
    (c'.buf bp).dev = noDev ∧ c'.rdwtErr < 0

theorem rwBlock_readIn {bp : BufId} {c : Cache} (hdev : (c.buf bp).dev ≠ noDev) :
    ReturnsC (rwBlock bp .reading) c fun _ c' => ReadIn bp c c' := by
  unfold rwBlock ReturnsC
  simp only [wp_bind, wp_get]
  rw [if_pos hdev, wp_bind, findDev]
  refine wp_ite (fun _ => trivial) fun _ => ?_
  simp only [transfer, wp_pure, wp_bind, wp_nextAnswer, wp_get, wp_modBuf]
  cases hok : (c.io c.tick).ok with
  | true =>
    simp only [reduceCtorEq, if_false, if_true, wp_modBuf, update_self, update_idem]
    refine ⟨sameChains_update rfl rfl rfl (.inl rfl) rfl rfl rfl, rfl, rfl, ?_, .inl ?_⟩
    · exact fun x hx => update_of_ne hx _ _
    · dsimp only
      rw [update_self]
      exact ⟨rfl, rfl⟩
  | false =>
    simp only [reduceCtorEq, if_false, if_true, wp_bind, wp_modBuf, wp_modify, update_self,
      update_idem]
    refine ⟨sameChains_update rfl rfl rfl (.inr rfl) rfl rfl rfl, rfl, rfl, ?_, .inr ⟨?_, ?_⟩⟩
    · exact fun x hx => update_of_ne hx _ _
    · dsimp only
      rw [update_self]
    · dsimp only
      split
      · decide
      · next hneg => exact not_le.mp hneg

/-! ## §2 `get_block` -/

/-- What is in a buffer that has been taken for a block. -/
def Delivered (dev : ℕ) (search : Search) (bp : BufId) (c' : Cache) : Prop :=
  match search with
  | .prefetch => (c'.buf bp).dev = noDev
  | .noRead => (c'.buf bp).dev = dev
  | .normal => (c'.buf bp).dev = dev ∧
      (dev ≠ noDev → (c'.buf bp).data = c'.disk dev (c'.buf bp).blocknr) ∨
    (c'.buf bp).dev = noDev ∧ c'.rdwtErr < 0

/-- Only blocks that were in the cache have been written. -/
def Quiet (c c' : Cache) : Prop :=
  ∀ d b, d ≠ noDev → (∀ x, ¬Holds c x d b) → c'.disk d b = c.disk d b

/-- What `get_block` comes to: the block was in the cache, or a buffer has been taken for it. -/
structure Fetched (dev b : ℕ) (search : Search) (bp : BufId) (c c' : Cache) : Prop where
  linked : Linked c'
  count : ∀ x, (c'.buf x).count = (c.buf x).count + if x = bp then 1 else 0
  blocknr : (c'.buf bp).blocknr = b
  others : ∀ x, x ≠ bp → (c'.buf x).blocknr = (c.buf x).blocknr ∧
    ((c'.buf x).dev = (c.buf x).dev ∨ (c'.buf x).dev = noDev)
  writes : c.writes <:+ c'.writes
  fares : ∀ x, x ≠ bp → Fares x c c'
  evolves : search ≠ .noRead → Evolves c c'
  quiet : Quiet c c'
  came : Holds c bp dev b ∧ (c'.buf bp).dev = dev ∧ (c'.buf bp).data = (c.buf bp).data ∨
    (c.buf bp).count = 0 ∧ (dev ≠ noDev → ∀ x, ¬Holds c x dev b) ∧ Delivered dev search bp c'

section

variable {c c' c₁ : Cache} {dev b : ℕ} {bp : BufId} {search : Search}

/-- What has been flushed before it is taken is on the disk. -/
theorem Cleaned.spare (h : Cleaned bp c c₁) :
    (c₁.buf bp).dev ≠ noDev → (c₁.buf bp).dirt = false := by
  intro hvalid
  unfold Cleaned at h
  split at h
  next hdirty =>
    have hmem : bp ∈ dirtyBufs c (c.buf bp).dev :=
      List.mem_filter.mpr ⟨List.mem_finRange bp, decide_eq_true ⟨hdirty.2, rfl⟩⟩
    rw [h.buf bp, if_pos hmem]
  next hclean =>
    rw [h] at hvalid ⊢
    simpa [hvalid] using hclean

theorem Cleaned.chains (h : Cleaned bp c c₁) : SameChains c c₁ := by
  unfold Cleaned at h
  split at h
  next => exact Written.chains h
  next => exact h ▸ ⟨rfl, rfl, rfl, fun _ => rfl, fun _ => rfl, fun _ => .inl rfl⟩

theorem Cleaned.quiet (h : Cleaned bp c c₁) : Quiet c c₁ := by
  intro d b hd hnone
  unfold Cleaned at h
  split at h
  next =>
    refine h.others d b fun hdev x hx hnr => hnone x ⟨?_, hnr⟩
    rw [dev_of_mem_dirtyBufs hx, hdev]
  next => rw [h]

/-- One buffer is used for something else. -/
theorem evolves_taken (hspare : (c.buf bp).dev ≠ noDev → (c.buf bp).dirt = false)
    (hwrites : c'.writes = c.writes) (hdisk : c'.disk = c.disk)
    (hothers : ∀ x, x ≠ bp → (c'.buf x).dev = (c.buf x).dev ∧ (c'.buf x).blocknr = (c.buf x).blocknr ∧
      (c'.buf x).data = (c.buf x).data ∧ (c'.buf x).dirt = (c.buf x).dirt)
    (hfresh : (c'.buf bp).dev ≠ noDev →
      (c'.buf bp).data = c'.disk (c'.buf bp).dev (c'.buf bp).blocknr) : Evolves c c' where
  writes := by rw [hwrites]
  fares x := by
    rcases eq_or_ne x bp with rfl | hx
    · exact .inr ⟨fun hvalid hdirt => absurd ((hspare hvalid).symm.trans hdirt) (by decide), hfresh⟩
    · exact fares_of_eq hdisk (hothers x hx)

theorem grab_other {x : BufId} (hx : x ≠ bp) : (grab bp dev b c).buf x = c.buf x :=
  update_of_ne hx ..

/-- The block was in the cache. -/
theorem Counted.fetched (h : Counted bp ((c.buf bp).count + 1) c c') (hc : Linked c)
    (hwrites : c'.writes = c.writes) (hholds : Holds c bp dev b) : Fetched dev b search bp c c' where
  linked := by
    have hnonneg := hc.nonneg bp
    exact h.linked (by omega) hc
  count := h.got.count
  blocknr := (h.same bp).2.1.trans hholds.2
  others x _ := ⟨(h.same x).2.1, .inl (h.same x).1⟩
  writes := by rw [hwrites]
  fares x _ := fares_of_eq h.disk (h.same x)
  evolves _ := evolves_of_eq hwrites h.disk h.same
  quiet _ _ _ _ := by rw [h.disk]
  came := .inl ⟨hholds, (h.same bp).1.trans hholds.1, (h.same bp).2.2.1⟩

/-- `get_block` keeps the chains and the counts in order, whatever the disk answers. -/
theorem getBlock_fetched (hc : Linked c) :
    ReturnsC (getBlock dev b search) c fun bp c' => Fetched dev b search bp c c' := by
  cases hfound : searchHash c dev b with
  | some bp =>
    have hholds := (searchHash_some hfound).2
    unfold getBlock ReturnsC
    simp only [wp_bind, wp_get]
    rw [hfound]
    refine wp_ite (fun hfree => ?_) fun hused => ?_
    · simp only [useMore, wp_bind, wp_modify, wp_modBuf, wp_pure]
      refine Counted.fetched ⟨rfl, .refl _, rfl, rfl, ⟨rfl, rfl⟩, ?_⟩ hc rfl hholds
      simp [hfree]
    · simp only [wp_bind, wp_modBuf, wp_pure]
      refine Counted.fetched ⟨rfl, .refl _, rfl, rfl, ⟨rfl, rfl⟩, ?_⟩ hc rfl hholds
      have := hc.nonneg bp
      rw [if_neg hused, if_neg (by omega)]
  | none =>
    have hnew := hc.searchHash_none hfound
    refine getBlock_taken hfound fun bp hfree => takeBuf_evicts hc fun c₁ hcleaned hevolves => ?_
    have hchains := hcleaned.chains
    have hfree1 : (c₁.buf bp).count = 0 := by rw [hchains.count, hfree]
    have hnew1 (d : ℕ) (hd : d = noDev ∨ d = dev) : d ≠ noDev → ∀ x, ¬Holds c₁ x d b := by
      intro hvalid x hx
      rcases hd with rfl | rfl
      · exact hvalid rfl
      · refine hnew hvalid x ⟨?_, ?_⟩
        · rcases hchains.valid x with hsame | hnone
          · rw [← hsame]
            exact hx.1
          · exact absurd (hx.1.symm.trans hnone) hvalid
        · rw [← hchains.blocknr]
          exact hx.2
    -- a buffer that has been taken, whatever is in it then
    have htaken (d : ℕ) (c' : Cache) (hd : d = noDev ∨ d = dev) (hsame : SameChains (grab bp d b c₁) c')
        (hdisk : c'.disk = c₁.disk) (hwrites : c'.writes = c₁.writes)
        (hothers : ∀ x, x ≠ bp → c'.buf x = c₁.buf x)
        (hfresh : search ≠ .noRead → (c'.buf bp).dev ≠ noDev →
          (c'.buf bp).data = c'.disk (c'.buf bp).dev (c'.buf bp).blocknr)
        (hdelivered : Delivered dev search bp c') : Fetched dev b search bp c c' := by
      have hlinked := grab_linked (hchains.linked hc) hfree1 (hnew1 d hd)
      have hlater : c₁.writes <:+ c'.writes := by rw [hwrites]
      refine ⟨hsame.linked hlinked, fun x => ?_, ?_, fun x hx => ?_, hevolves.writes.trans hlater,
        fun x hx => ?_, fun hsearch => ?_, fun d' b' hd' hnone => ?_, .inr ⟨hfree, hnew, hdelivered⟩⟩
      · rw [hsame.count]
        rcases eq_or_ne x bp with rfl | hx
        · simp [grab, hchains.count]
        · simp [grab, hx, hchains.count]
      · rw [hsame.blocknr]
        simp [grab]
      · rw [hothers x hx]
        exact ⟨hchains.blocknr x, hchains.valid x⟩
      · refine (hevolves.fares x).trans (fares_of_eq hdisk ?_) hevolves.writes hlater
        rw [hothers x hx]
        exact ⟨rfl, rfl, rfl, rfl⟩
      · refine hevolves.trans (evolves_taken hcleaned.spare hwrites hdisk (fun x hx => ?_)
          (hfresh hsearch))
        rw [hothers x hx]
        exact ⟨rfl, rfl, rfl, rfl⟩
      · rw [hdisk]
        exact hcleaned.quiet d' b' hd' hnone
    have hrefl (d : ℕ) : SameChains (grab bp d b c₁) (grab bp d b c₁) :=
      ⟨rfl, rfl, rfl, fun _ => rfl, fun _ => rfl, fun _ => .inl rfl⟩
    have hgrabbed (d : ℕ) : ((grab bp d b c₁).buf bp).dev = d := by simp [grab]
    cases search with
    | prefetch =>
      have hskip : ¬(dev ≠ noDev ∧ Search.prefetch = .normal) := by simp
      rw [if_neg hskip, if_pos rfl]
      exact htaken noDev _ (.inl rfl) (hrefl _) rfl rfl (fun x hx => grab_other hx)
        (fun _ hvalid => absurd (hgrabbed noDev) hvalid) (hgrabbed noDev)
    | noRead =>
      have hskip : ¬(dev ≠ noDev ∧ Search.noRead = .normal) := by simp
      rw [if_neg hskip, if_neg (by decide)]
      exact htaken dev _ (.inr rfl) (hrefl _) rfl rfl (fun x hx => grab_other hx)
        (fun hsearch => absurd rfl hsearch) (hgrabbed dev)
    | normal =>
      rw [if_neg (by decide : ¬Search.normal = .prefetch)]
      refine wp_ite (fun hread => ?_) fun hskip => ?_
      · have hvalid : ((grab bp dev b c₁).buf bp).dev ≠ noDev := by
          rw [hgrabbed]
          exact hread.1
        rw [wp_bind]
        refine Wp.mono (rwBlock_readIn hvalid) fun _ c' h => ?_
        refine htaken dev c' (.inr rfl) h.chains h.disk h.writes
          (fun x hx => (h.others x hx).trans (grab_other hx)) (fun _ hvalid' => ?_) ?_
        · rcases h.came with ⟨hdev, hdata⟩ | ⟨hnone, -⟩
          · rw [hdata, hdev, h.chains.blocknr, h.disk]
          · exact absurd hnone hvalid'
        · refine h.came.imp (fun hcame => ⟨hcame.1.trans (hgrabbed dev), fun _ => ?_⟩) id
          rw [hcame.2, hgrabbed, h.chains.blocknr, h.disk]
      · have hnone : dev = noDev := by simpa using hskip
        refine htaken dev _ (.inr rfl) (hrefl _) rfl rfl (fun x hx => grab_other hx)
          (fun _ hvalid => absurd ((hgrabbed dev).trans hnone) hvalid)
          (.inl ⟨hgrabbed dev, fun hvalid => absurd hnone hvalid⟩)

/-! ## §3 `put_block` -/

/-- A buffer is given back: it is used by one less, and nothing is written. -/
theorem putBuf_counted {blockType : BlockType} (hc : Linked c) (hused : (c.buf bp).count ≠ 0)
    (htype : blockType.writeImmed = false) (hzuper : blockType ≠ .zuperBlock) :
    ReturnsC (putBuf bp blockType) c fun _ c' =>
      Counted bp ((c.buf bp).count - 1) c c' ∧ c'.writes = c.writes := by
  unfold putBuf ReturnsC
  simp only [wp_bind, wp_modBuf, wp_get]
  refine wp_ite (fun hlast => ?_) fun hmore => ?_
  · rw [update_self] at hlast
    simp only [useFewer, wp_bind, wp_modify, wp_get]
    rw [if_neg (fun h => by rw [htype] at h; exact absurd h.1 (by decide)), if_neg hzuper]
    exact ⟨released_counted hc hused hlast, rfl⟩
  · rw [update_self] at hmore
    refine ⟨⟨rfl, .refl _, rfl, rfl, ⟨rfl, rfl⟩, ?_⟩, rfl⟩
    rw [if_neg hused, if_neg hmore]

end

end LisaMinix.Fs.Server
