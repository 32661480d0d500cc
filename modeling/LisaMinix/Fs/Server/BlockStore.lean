import LisaMinix.Library.Lending
import LisaMinix.Library.Simulation
import LisaMinix.Fs.Server.Prefetching
import LisaMinix.Fs.Server.Main

/-!
# The Cache as a Store of Blocks

What the rest of the server sees of `cache.c`: blocks that are borrowed, changed and given back.  The
handles of the contract are the buffers.

- `runCall`: the calls of the cache by which the contract is carried out.
- `Survives`: what an i/o of the cache may do to the disks.
- `Backs`: the cache behind a ledger.
- `cache_stores`: from `buf_pool` on, whatever is asked for.
-/

namespace LisaMinix.Fs.Server

open LisaMinix.Library Function
open Finset (univ)

/-! ## §1 The Calls -/

abbrev BlockLedger := Ledger BufId ℕ ℕ Block
abbrev BlockCall := Ledger.Call BufId ℕ ℕ Block BlockType
abbrev BlockAnswer := Ledger.Answer BufId Block

/-- The calls of the cache; an exchange is what somebody does to the drive. -/
def runCall : BlockCall → CacheM BlockAnswer
  | .fetch dev b => do
    let bp ← getBlock dev b .normal
    return .lent bp (← readBuf bp)
  | .overwrite dev b data => do
    let bp ← getBlock dev b .noRead
    dirtyBuf bp fun _ => data
    return .lent bp data
  | .reserve dev b => do
    let bp ← getBlock dev b .prefetch
    let buf := (← get).buf bp
    return if buf.dev = noDev then .reserved bp else .lent bp buf.data
  | .change bp f => do
    dirtyBuf bp f
    return .done
  | .giveBack bp blockType => do
    putBuf bp blockType
    return .done
  | .fill dev q => do
    rwScattered dev q .reading
    return .done
  | .flush dev => do
    flushall dev
    return .done
  | .forget dev => do
    invalidate dev
    return .done
  | .exchange dev medium => do
    modify fun c => { c with disk := update c.disk dev medium }
    return .done

/-- Nothing has been lent, and the blocks are those of the disks. -/
def firstLedger (w : World) : BlockLedger where
  content := w.disk
  past dev b := [w.disk dev b]
  lent _ := 0
  block _ := (0, 0)
  waiting _ := false
  seen _ := false

/-! ## §2 What Survives on the Disks -/

/-- A block on a disk has been left as it was, or it is now what the block held. -/
def Survives (c c' : Cache) : Prop := ∀ dev b, dev ≠ noDev →
  c'.disk dev b = c.disk dev b ∨ c'.disk dev b = blockAt c dev b

section

variable {c c' c₁ : Cache} {dev b : ℕ} {bp : BufId} {search : Search} {blockType : BlockType}

theorem Survives.of_disk (h : c'.disk = c.disk) : Survives c c' := fun _ _ _ => .inl (by rw [h])

theorem Written.survives {loose : Option BufId} {l : List BufId} (hc : Coherent loose c)
    (hl : ∀ bp ∈ l, (c.buf bp).dev = dev) (h : Written dev l c c') : Survives c c' := by
  intro d b hd
  by_cases hex : d = dev ∧ ∃ bp ∈ l, (c.buf bp).blocknr = b
  · obtain ⟨rfl, bp, hbp, rfl⟩ := hex
    right
    rw [h.written hc.drives bp hbp]
    exact (hc.toLinked.blockAt_held ⟨hl bp hbp, rfl⟩ hd).symm
  · left
    apply h.others
    intro hdev bp hbp hnr
    exact hex ⟨hdev, bp, hbp, hnr⟩

theorem Cleaned.survives (hc : Coherent none c) (h : Cleaned bp c c') : Survives c c' := by
  unfold Cleaned at h
  split at h
  next => exact h.survives hc fun _ => dev_of_mem_dirtyBufs
  next => exact h ▸ .of_disk rfl

/-- `get_block` writes what it evicts, and what belongs to the same device. -/
theorem getBlock_survives (hc : Coherent none c) :
    ReturnsC (getBlock dev b search) c fun _ c' => Survives c c' := by
  cases hfound : searchHash c dev b with
  | some bp =>
    unfold getBlock ReturnsC
    simp only [wp_bind, wp_get]
    rw [hfound]
    refine wp_ite (fun _ => ?_) fun _ => ?_
    · simp only [useMore, wp_bind, wp_modify, wp_modBuf, wp_pure]
      exact .of_disk rfl
    · simp only [wp_bind, wp_modBuf, wp_pure]
      exact .of_disk rfl
  | none =>
    apply getBlock_taken hfound
    intro bp _
    apply takeBuf_rule hc.toLinked
    intro c₁ hcleaned
    have hsurvives : Survives c c₁ := hcleaned.survives hc
    refine wp_ite (fun hread => ?_) fun _ => hsurvives
    have hvalid : ((grab bp (if search = .prefetch then noDev else dev) b c₁).buf bp).dev ≠ noDev := by
      rw [hread.2]
      simpa [grab] using hread.1
    rw [wp_bind]
    refine Wp.mono (rwBlock_reading hvalid) fun _ c' h d n hd => ?_
    rw [h.disk]
    exact hsurvives d n hd

/-- A buffer that is taken for a block that need not be there has no device. -/
theorem getBlock_prefetch (hc : Coherent none c) :
    ReturnsC (getBlock dev b .prefetch) c fun _ c' =>
      Coherent none c' ∧ SameBlocks c c' ∧ SameHeld c c' := by
  cases hfound : searchHash c dev b with
  | some bp =>
    refine (getBlock_found hc hfound).mono ?_
    rintro r c' ⟨-, hgot, hc', hblocks⟩
    exact ⟨hc', hblocks, hgot.got.held⟩
  | none =>
    apply getBlock_taken hfound
    intro bp hfree
    apply takeBuf_rule hc.toLinked
    intro c₁ hcleaned
    obtain ⟨hc1, hblocks, hspare, hsame, -⟩ := hcleaned.spec hc hfree
    have hloose : Coherent (some bp) (grab bp noDev b c₁) :=
      grab_coherent hc1 hspare fun hnone => absurd rfl hnone
    simp only [reduceCtorEq, if_false, if_true, and_false]
    rw [ReturnsC, wp_pure]
    refine ⟨⟨hloose.toLinked, hloose.drives, by simp, fun x _ hvalid hclean => ?_⟩, ?_, ?_⟩
    · have hx : x ≠ bp := by
        rintro rfl
        exact hvalid (by simp [grab])
      exact hloose.clean x (fun he => hx (Option.some.inj he).symm) hvalid hclean
    · intro d b' hd
      rw [grab_blocks hc1 hspare (fun hnone => absurd rfl hnone) hd fun he => hd he.1]
      exact hblocks d b' hd
    · intro x hx
      have hne : x ≠ bp := by
        rintro rfl
        exact hx hfree
      simp only [grab, update_of_ne hne]
      exact (hsame x).2

/-! ### `put_block` -/

/-- No buffer gets another block, and what is written is what was there. -/
structure Sheds (c c' : Cache) : Prop where
  survives : Survives c c'
  same : ∀ x, (c'.buf x).blocknr = (c.buf x).blocknr ∧
    ((c'.buf x).dev = (c.buf x).dev ∨ (c'.buf x).dev = noDev)

theorem SameChains.sheds (h : SameChains c c') (hs : Survives c c') : Sheds c c' where
  survives := hs
  same x := ⟨h.blocknr x, h.valid x⟩

theorem Sheds.served (h : Sheds c c') (hc : Served c) : Served c' := hc.of_dev fun x => (h.same x).2

theorem settle_sheds (hc : Coherent none c) (hserved : Served c) :
    SurelyC (settle bp blockType) c fun _ c' => Sheds c c' := by
  have hdrop (c₁ : Cache) (h1 : Sheds c c₁) : SurelyC (if blockType = .zuperBlock then
      modBuf bp fun b => { b with dev := noDev } else pure ⟨⟩) c₁ fun _ c' => Sheds c c' := by
    refine wp_ite (fun _ => ⟨h1.survives, fun x => ?_⟩) fun _ => h1
    rcases eq_or_ne x bp with rfl | hx
    · exact ⟨by simpa using (h1.same x).1, .inr (by simp)⟩
    · simpa [hx] using h1.same x
  unfold settle SurelyC
  simp only [wp_bind, wp_get]
  refine wp_ite (fun hdirty => ?_) fun _ => ?_
  · rw [wp_bind]
    refine Wp.mono (Surely.and (rwBlock_surely (hserved bp hdirty.2.2) .writing)
      (rwBlock_writing hdirty.2.2)) ?_
    rintro _ c₁ ⟨-, hwritten⟩
    exact hdrop c₁ (hwritten.chains.sheds (hwritten.survives hc (by simp)))
  · exact hdrop c ⟨.of_disk rfl, fun _ => ⟨rfl, .inl rfl⟩⟩

theorem Counted.sheds {n : ℤ} (h : Counted bp n c c') : Sheds c c' where
  survives := .of_disk h.disk
  same x := ⟨(h.same x).2.1, .inl (h.same x).1⟩

/-- `put_block` does not panic, in whatever way the block is given back. -/
theorem putBuf_sheds (hc : Coherent none c) (hserved : Served c) (hheld : (c.buf bp).count ≠ 0) :
    SurelyC (putBuf bp blockType) c fun _ c' => Sheds c c' := by
  have hpos : 0 ≤ (c.buf bp).count - 1 := by
    have := hc.nonneg bp
    omega
  unfold putBuf SurelyC
  simp only [wp_bind, wp_modBuf, wp_get, update_self]
  refine wp_ite (fun hlast => ?_) fun hmore => ?_
  · have hcounted := @released_counted c bp blockType hc.toLinked hheld hlast
    have hshed := hcounted.sheds
    have hsettle := @settle_sheds _ bp blockType (hcounted.coherent hpos (by simp) hc)
      (hshed.served hserved)
    unfold settle SurelyC at hsettle
    simp only [wp_bind, wp_get] at hsettle
    simp only [useFewer, wp_bind, wp_modify, wp_get]
    refine Wp.mono hsettle fun _ c' h => ⟨fun d n hd => ?_, fun x => ?_⟩
    · rcases h.survives d n hd with hsame | hwritten
      · exact .inl hsame
      · exact .inr (hwritten.trans (hcounted.blocks hpos hc.toLinked d n hd))
    · rw [(h.same x).1]
      refine ⟨(hshed.same x).1, ?_⟩
      rcases (h.same x).2 with hdev | hnone
      · rw [hdev]
        exact (hshed.same x).2
      · exact .inr hnone
  · refine ⟨.of_disk rfl, fun x => ?_⟩
    rcases eq_or_ne x bp with rfl | hx
    · simp
    · simp [hx]

end

/-! ## §3 The Cache behind a Ledger -/

/-- The buffers that have been lent. -/
structure Desk (l : BlockLedger) (c : Cache) : Prop where
  served : Served c
  count : ∀ bp, (c.buf bp).count = l.lent bp
  there : ∀ bp, l.Holding bp → Holds c bp (l.block bp).1 (l.block bp).2
  awaited : ∀ bp, l.waiting bp = true → (c.buf bp).dev = noDev ∧
    (c.buf bp).blocknr = (l.block bp).2 ∧ ∀ x, ¬Holds c x (l.block bp).1 (l.block bp).2
  seen : ∀ bp, (c.buf bp).dev ≠ noDev → l.seen (c.buf bp).dev = true

/-- The blocks, in the cache and on the disks. -/
structure Shelf (l : BlockLedger) (c : Cache) : Prop where
  content : ∀ dev b, dev ≠ noDev → blockAt c dev b = l.content dev b
  disk : ∀ dev b, dev ≠ noDev → c.disk dev b ∈ l.past dev b

/-- The cache does what the ledger says. -/
structure Backs (l : BlockLedger) (c : Cache) : Prop
    extends Coherent none c, Desk l c, Shelf l c where
  sound : l.Sound HasDriver

section

variable {l : BlockLedger} {c c' : Cache} {dev b : ℕ} {bp : BufId} {search : Search}
  {blockType : BlockType}

theorem Desk.used (h : Desk l c) : (c.buf bp).count ≠ 0 ↔ 0 < l.lent bp := by
  rw [h.count]
  omega

theorem Backs.room (h : Backs l c) (hroom : ∃ bp, l.lent bp = 0) : c.bufsInUse < nrBufs := by
  obtain ⟨bp, hbp⟩ := hroom
  have hfree : bp ∉ univ.filter fun x => (c.buf x).count ≠ 0 := by
    simp [h.count, hbp]
  rw [h.inUse]
  have hlt := Finset.card_lt_univ_of_notMem hfree
  rwa [Fintype.card_fin] at hlt

theorem Shelf.kept (h : Shelf l c) (hsound : l.Sound HasDriver) (hblocks : SameBlocks c c')
    (hsurvives : Survives c c') : Shelf l c' where
  content d n hd := (hblocks d n hd).trans (h.content d n hd)
  disk d n hd := by
    rcases hsurvives d n hd with hsame | hwritten
    · rw [hsame]
      exact h.disk d n hd
    · rw [hwritten, h.content d n hd]
      exact hsound.past d n

/-- The buffer of a block that is asked for. -/
theorem Backs.gets (h : Backs l c) (hask : l.Asks HasDriver dev b)
    (hf : Fetched dev b search bp c c') : l.Gets dev b bp := by
  have hdev := hask.drive.ne_noDev
  -- who has the block holds it in the cache
  have hblock : ∀ x, 0 < l.lent x → l.block x = (dev, b) → Holds c x dev b := by
    intro x hx heq
    have hthere : l.waiting x = false := by
      cases hw : l.waiting x with
      | false => rfl
      | true => exact absurd heq (hask.ready x hw)
    have hholds := h.there x ⟨hx, hthere⟩
    rwa [heq] at hholds
  rcases hf.came with ⟨hholds, -, -⟩ | ⟨hfree, hnone, -⟩
  · have hthere : l.waiting bp = false := by
      cases hw : l.waiting bp with
      | false => rfl
      | true => exact absurd (hholds.1.symm.trans (h.awaited bp hw).1) hdev
    refine ⟨hthere, fun x hx => ⟨?_, fun heq => ?_⟩⟩
    · rintro rfl
      have hown := h.there x ⟨hx, hthere⟩
      exact Prod.ext (hown.1.symm.trans hholds.1) (hown.2.symm.trans hholds.2)
    · apply h.unique bp x
      · rwa [hholds.1]
      · rw [hholds.1, hholds.2]
        exact hblock x hx heq
  · have hzero : l.lent bp = 0 := by
      have hcount := h.count bp
      omega
    refine ⟨?_, fun x hx => ⟨?_, fun heq => ?_⟩⟩
    · cases hw : l.waiting bp with
      | false => rfl
      | true => exact absurd (h.sound.waits bp hw) (by omega)
    · rintro rfl
      omega
    · exact absurd (hblock x hx heq) (hnone hdev x)

/-- A block has been asked for: what is the same whether it is there or not. -/
theorem Backs.lent_desk (h : Backs l c) (hask : l.Asks HasDriver dev b)
    (hf : Fetched dev b search bp c c') (hheld : SameHeld c c')
    (hseen : (c'.buf bp).dev = dev ∨ (c'.buf bp).dev = noDev) :
    (∀ x, (c'.buf x).count = (l.lend dev b bp).lent x) ∧
      (∀ x, x ≠ bp → l.Holding x → Holds c' x (l.block x).1 (l.block x).2) ∧
      (∀ x, l.waiting x = true → (c'.buf x).dev = noDev ∧ (c'.buf x).blocknr = (l.block x).2 ∧
        ∀ y, ¬Holds c' y (l.block x).1 (l.block x).2) ∧
      ∀ x, (c'.buf x).dev ≠ noDev → (l.lend dev b bp).seen (c'.buf x).dev = true := by
  refine ⟨fun x => ?_, fun x hx hown => ?_, fun x hw => ?_, fun x hvalid => ?_⟩
  · rw [hf.count, h.count]
    rcases eq_or_ne x bp with rfl | hx
    · simp [Ledger.lend]
    · simp [Ledger.lend, hx]
  · obtain ⟨hdev, hnr, -⟩ := hheld x (h.used.mpr hown.1)
    unfold Holds
    rw [hdev, hnr]
    exact h.there x hown
  · have hpos := h.sound.holding hw
    obtain ⟨hdev, hnr, -⟩ := hheld x (h.used.mpr hpos)
    obtain ⟨hnone, hown, habsent⟩ := h.awaited x hw
    refine ⟨hdev.trans hnone, hnr.trans hown, fun y hy => ?_⟩
    rcases eq_or_ne y bp with rfl | hne
    · -- the block is not one that is waited for
      rcases hseen with hsame | hvoid
      · exact hask.ready x hw (Prod.ext (hy.1.symm.trans hsame) (hy.2.symm.trans hf.blocknr))
      · exact (h.sound.drive x hpos).ne_noDev (hy.1.symm.trans hvoid)
    · obtain ⟨hnr', hsame | hvoid⟩ := hf.others y hne
      · exact habsent y ⟨hsame.symm.trans hy.1, hnr'.symm.trans hy.2⟩
      · exact (h.sound.drive x hpos).ne_noDev (hy.1.symm.trans hvoid)
  · unfold Ledger.lend
    dsimp only
    rcases eq_or_ne x bp with rfl | hne
    · rw [hseen.resolve_right hvalid, update_self]
    · have hsame := (hf.others x hne).2.resolve_right hvalid
      rw [hsame] at hvalid ⊢
      rcases eq_or_ne (c.buf x).dev dev with hd | hd
      · rw [hd, update_self]
      · rw [update_of_ne hd]
        exact h.seen x hvalid

/-- The block is there. -/
theorem Backs.lend_desk (h : Backs l c) (hask : l.Asks HasDriver dev b)
    (hf : Fetched dev b search bp c c') (hheld : SameHeld c c') (hserved : Served c')
    (hholds : Holds c' bp dev b) : Desk (l.lend dev b bp) c' := by
  obtain ⟨hcount, hthere, hawaited, hseen⟩ := h.lent_desk hask hf hheld (.inl hholds.1)
  have hgets := h.gets hask hf
  refine ⟨hserved, hcount, fun x hx => ?_, fun x hw => ?_, hseen⟩
  · unfold Ledger.Holding Ledger.lend at hx
    unfold Ledger.lend
    dsimp only at hx ⊢
    rcases eq_or_ne x bp with rfl | hne
    · rw [update_self]
      exact hholds
    · rw [update_of_ne hne] at hx ⊢
      exact hthere x hne hx
  · have hne : x ≠ bp := by
      rintro rfl
      exact absurd (hw.symm.trans hgets.1) (by decide)
    unfold Ledger.lend
    dsimp only
    rw [update_of_ne hne]
    exact hawaited x hw

/-- The block is not there. -/
theorem Backs.reserve_desk (h : Backs l c) (hask : l.Asks HasDriver dev b)
    (hf : Fetched dev b .prefetch bp c c') (hheld : SameHeld c c') (hserved : Served c')
    (hvoid : (c'.buf bp).dev = noDev) : l.lent bp = 0 ∧ Desk (l.reserved dev b bp) c' := by
  have hdev := hask.drive.ne_noDev
  obtain ⟨hcount, hthere, hawaited, hseen⟩ := h.lent_desk hask hf hheld (.inr hvoid)
  obtain ⟨hfree, habsent⟩ : (c.buf bp).count = 0 ∧ ∀ x, ¬Holds c x dev b := by
    rcases hf.came with ⟨-, hsame, -⟩ | ⟨hfree, hnone, -⟩
    · exact absurd (hsame.symm.trans hvoid) hdev
    · exact ⟨hfree, hnone hdev⟩
  have hzero : l.lent bp = 0 := by
    have hcount := h.count bp
    omega
  refine ⟨hzero, hserved, hcount, fun x hx => ?_, fun x hw => ?_, hseen⟩
  · unfold Ledger.Holding Ledger.reserved Ledger.lend at hx
    unfold Ledger.reserved Ledger.lend
    dsimp only at hx ⊢
    rcases eq_or_ne x bp with rfl | hne
    · rw [update_self] at hx
      exact absurd hx.2 (by simp)
    · simp only [update_of_ne hne] at hx ⊢
      exact hthere x hne hx
  · unfold Ledger.reserved Ledger.lend at hw ⊢
    dsimp only at hw ⊢
    rcases eq_or_ne x bp with rfl | hne
    · rw [update_self]
      refine ⟨hvoid, hf.blocknr, fun y hy => ?_⟩
      rcases eq_or_ne y x with rfl | hyx
      · exact hdev (hy.1.symm.trans hvoid)
      · obtain ⟨hnr, hsame | hnone⟩ := hf.others y hyx
        · exact habsent y ⟨hsame.symm.trans hy.1, hnr.symm.trans hy.2⟩
        · exact hdev (hy.1.symm.trans hnone)
    · rw [update_of_ne hne] at hw ⊢
      exact hawaited x hw

/-! ## §4 The Contract Is Kept -/

/-- A call keeps to the contract. -/
def Honours (call : BlockCall) (l : BlockLedger) (c : Cache) : Prop :=
  SurelyC (runCall call) c fun ans c' => call.Answered l ans ∧ Backs (l.after call ans) c'

theorem Backs.fetch (h : Backs l c) (hask : l.Asks HasDriver dev b) :
    Honours (.fetch dev b) l c := by
  have hdev := hask.drive.ne_noDev
  unfold Honours runCall
  rw [SurelyC, wp_bind]
  refine Wp.mono (Surely.and (getBlock_surely h.toLinked h.served (h.room hask.room) hask.drive)
    ((getBlock_normal h.toCoherent hdev).and
      ((getBlock_fetched h.toLinked).and (getBlock_survives h.toCoherent)))) ?_
  rintro bp c' ⟨hserved, ⟨hgot, hc', hblocks⟩, hf, hsurvives⟩
  simp only [wp_bind, wp_readBuf, wp_pure]
  have hgets := h.gets hask hf
  have hshelf := h.toShelf.kept h.sound hblocks hsurvives
  refine ⟨⟨hgets, ?_⟩, ⟨hc', h.lend_desk hask hf hgot.got.held hserved hgot.holds,
    ⟨hshelf.content, hshelf.disk⟩, h.sound.lend hgets hask.drive⟩⟩
  rw [← hshelf.content dev b hdev, hc'.toLinked.blockAt_held hgot.holds hdev]

theorem Backs.reserve (h : Backs l c) (hask : l.Asks HasDriver dev b) :
    Honours (.reserve dev b) l c := by
  have hdev := hask.drive.ne_noDev
  unfold Honours runCall
  rw [SurelyC, wp_bind]
  refine Wp.mono (Surely.and (getBlock_surely h.toLinked h.served (h.room hask.room) hask.drive)
    ((getBlock_prefetch h.toCoherent).and
      ((getBlock_fetched h.toLinked).and (getBlock_survives h.toCoherent)))) ?_
  rintro bp c' ⟨hserved, ⟨hc', hblocks, hheld⟩, hf, hsurvives⟩
  simp only [wp_bind, wp_get, wp_pure]
  have hgets := h.gets hask hf
  have hshelf := h.toShelf.kept h.sound hblocks hsurvives
  split
  next hvoid =>
    obtain ⟨hzero, hdesk⟩ := h.reserve_desk hask hf hheld hserved hvoid
    exact ⟨⟨hgets, hzero⟩, ⟨hc', hdesk, ⟨hshelf.content, hshelf.disk⟩,
      h.sound.reserved hgets hask.drive hzero⟩⟩
  next hvalid =>
    have hholds : Holds c' bp dev b := by
      rcases hf.came with ⟨-, hsame, -⟩ | ⟨-, -, hnone⟩
      · exact ⟨hsame, hf.blocknr⟩
      · exact absurd hnone hvalid
    refine ⟨⟨hgets, ?_⟩, ⟨hc', h.lend_desk hask hf hheld hserved hholds,
      ⟨hshelf.content, hshelf.disk⟩, h.sound.lend hgets hask.drive⟩⟩
    rw [← hshelf.content dev b hdev, hc'.toLinked.blockAt_held hholds hdev]

/-- The data of a block have been changed. -/
theorem touched_shelf {data : Block} (h : Touched bp c c') (hc : Linked c) (hholds : Holds c bp dev b)
    (hdata : (c'.buf bp).data = data)
    (hcontent : ∀ d n, d ≠ noDev → ¬(d = dev ∧ n = b) → blockAt c d n = l.content d n)
    (hdisk : ∀ d n, d ≠ noDev → c.disk d n ∈ l.past d n) : Shelf (l.store dev b data) c' where
  content d n hd := by
    rw [h.stored hc hholds d n hd, hdata]
    unfold Ledger.store
    dsimp only
    split
    next => rfl
    next hother => exact hcontent d n hd hother
  disk d n hd := by
    have hsame : c'.disk = c.disk := by rw [h.frame]
    rw [hsame]
    unfold Ledger.store
    dsimp only
    split
    · exact List.mem_cons_of_mem _ (hdisk d n hd)
    · exact hdisk d n hd

theorem Desk.store {data : Block} (h : Desk l c) : Desk (l.store dev b data) c :=
  ⟨h.served, h.count, h.there, h.awaited, h.seen⟩

theorem Touched.desk (h : Touched bp c c') (hdesk : Desk l c) : Desk l c' where
  served := hdesk.served.of_dev fun x => .inl (h.keeps x).1
  count x := by
    rw [(h.keeps x).2.2]
    exact hdesk.count x
  there x hx := h.holds.mpr (hdesk.there x hx)
  awaited x hw := by
    rw [(h.keeps x).1, (h.keeps x).2.1]
    obtain ⟨hnone, hnr, habsent⟩ := hdesk.awaited x hw
    exact ⟨hnone, hnr, fun y hy => habsent y (h.holds.mp hy)⟩
  seen x hvalid := by
    rw [(h.keeps x).1] at hvalid ⊢
    exact hdesk.seen x hvalid

theorem Backs.overwrite {data : Block} (h : Backs l c) (hask : l.Asks HasDriver dev b) :
    Honours (.overwrite dev b data) l c := by
  have hdev := hask.drive.ne_noDev
  unfold Honours runCall
  rw [SurelyC, wp_bind]
  refine Wp.mono (Surely.and (getBlock_surely h.toLinked h.served (h.room hask.room) hask.drive)
    ((getBlock_noRead h.toCoherent hdev).and
      ((getBlock_fetched h.toLinked).and (getBlock_survives h.toCoherent)))) ?_
  rintro bp c₁ ⟨hserved, ⟨hgot, -⟩, hf, hsurvives⟩
  rw [wp_bind]
  refine (dirtyBuf_spec hgot.coherent).mono ?_
  rintro _ c' ⟨htouched, hc', hdata⟩
  have hgets := h.gets hask hf
  have hdesk := h.lend_desk hask hf hgot.got.held hserved hgot.holds
  rw [wp_pure]
  refine ⟨⟨hgets, rfl⟩, ⟨hc', (htouched.desk hdesk).store, ?_, (h.sound.lend hgets hask.drive).store⟩⟩
  refine touched_shelf htouched hgot.coherent.toLinked hgot.holds hdata (fun d n hd hother => ?_)
    fun d n hd => ?_
  · rw [hgot.others d n hd hother]
    exact h.content d n hd
  · rcases hsurvives d n hd with hsame | hwritten
    · rw [hsame]
      exact h.disk d n hd
    · rw [hwritten, h.content d n hd]
      exact h.sound.past d n

theorem Backs.change {f : Block → Block} (h : Backs l c) (hown : l.Holding bp) :
    Honours (.change bp f) l c := by
  have hholds := h.there bp hown
  have hdev := (h.sound.drive bp hown.1).ne_noDev
  unfold Honours runCall
  rw [SurelyC, wp_bind]
  refine (dirtyBuf_spec (h.toCoherent.loosen (h.used.mpr hown.1))).mono ?_
  rintro _ c' ⟨htouched, hc', hdata⟩
  rw [wp_pure]
  refine ⟨trivial, ⟨hc', (htouched.desk h.toDesk).store, ?_, h.sound.store⟩⟩
  refine touched_shelf htouched h.toLinked hholds ?_ (fun d n hd _ => h.content d n hd) h.disk
  rw [hdata, ← h.toLinked.blockAt_held hholds hdev, h.content _ _ hdev]

/-! ### Giving a block back -/

theorem Backs.put (h : Backs l c) (hown : l.Holding bp) :
    SurelyC (putBuf bp blockType) c fun _ c' => Backs (l.givenBack bp) c' := by
  have hused := h.used.mpr hown.1
  refine Wp.mono (Surely.and (putBuf_sheds h.toCoherent h.served hused)
    (putBuf_spec h.toCoherent hused)) ?_
  rintro _ c' ⟨hsheds, hc', hblocks, hput⟩
  have hshelf := h.toShelf.kept h.sound hblocks hsheds.survives
  refine ⟨hc', ⟨hsheds.served h.served, fun x => ?_, fun x hx => ?_, fun x hw => ?_, fun x hvalid => ?_⟩,
    ⟨hshelf.content, hshelf.disk⟩, h.sound.givenBack hown⟩
  · have hpos := hown.1
    rw [hput.count, h.count]
    unfold Ledger.givenBack
    dsimp only
    rcases eq_or_ne x bp with rfl | hne
    · rw [if_pos rfl, update_self]
      omega
    · rw [if_neg hne, update_of_ne hne, sub_zero]
  · unfold Ledger.Holding Ledger.givenBack at hx
    dsimp only at hx
    have hold : l.Holding x ∧ (c.buf x).count ≠ if x = bp then 1 else 0 := by
      rw [h.count]
      rcases eq_or_ne x bp with rfl | hne
      · rw [update_self] at hx
        rw [if_pos rfl]
        exact ⟨hown, by omega⟩
      · rw [update_of_ne hne] at hx
        rw [if_neg hne]
        exact ⟨hx, by omega⟩
    obtain ⟨hdev, hnr, -⟩ := hput.held x hold.2
    change Holds c' x (l.block x).1 (l.block x).2
    unfold Holds
    rw [hdev, hnr]
    exact h.there x hold.1
  · have hne : x ≠ bp := by
      rintro rfl
      exact absurd (hw.symm.trans hown.2) (by decide)
    have hone := h.sound.waits x hw
    obtain ⟨hdev, hnr, -⟩ := hput.held x (by rw [h.count, if_neg hne]; omega)
    obtain ⟨hnone, hblocknr, habsent⟩ := h.awaited x hw
    refine ⟨hdev.trans hnone, hnr.trans hblocknr, fun y hy => ?_⟩
    obtain ⟨hnr', hsame | hvoid⟩ := hsheds.same y
    · exact habsent y ⟨hsame.symm.trans hy.1, hnr'.symm.trans hy.2⟩
    · exact (h.sound.drive x (by omega)).ne_noDev (hy.1.symm.trans hvoid)
  · have hsame := (hsheds.same x).2.resolve_right hvalid
    rw [hsame] at hvalid ⊢
    exact h.seen x hvalid

/-! ### The blocks that have been waited for -/

/-- The block has come. -/
theorem Backs.arrived (h : Backs l c) (hw : l.waiting bp = true) (hdev : (l.block bp).1 = dev)
    (hf : Filled dev bp c c') (hread : (c'.buf bp).dev = dev ∧
      (c'.buf bp).data = c.disk dev (c.buf bp).blocknr) (hio : c'.io = c.io) :
    Backs { l with waiting := update l.waiting bp false } c' := by
  obtain ⟨hnone, hnr, habsent⟩ := h.awaited bp hw
  have hvalid : dev ≠ noDev := by
    rw [← hdev]
    exact (h.sound.drive bp (h.sound.holding hw)).ne_noDev
  rw [hdev] at habsent
  have hlinked := hf.linked h.toLinked (by rw [hnr]; exact habsent)
  have hself : Holds c' bp dev (c.buf bp).blocknr := ⟨hread.1, hf.blocknr⟩
  refine ⟨⟨hlinked, fun n => ?_, by simp, fun x _ hx hclean => ?_⟩,
    ⟨fun x hx => ?_, fun x => ?_, fun x hx => ?_, fun x hx => ?_, fun x hx => ?_⟩,
    ⟨fun d n hd => ?_, fun d n hd => ?_⟩, h.sound.fewer (fun _ => le_rfl) fun x hx => ?_⟩
  · rw [hio]
    exact h.drives n
  · rcases eq_or_ne x bp with rfl | hne
    · rw [hread.1, hread.2, hf.blocknr, hf.disk]
    · rw [hf.others x hne] at hx hclean ⊢
      rw [hf.disk]
      exact h.clean x (by simp) hx hclean
  · rcases eq_or_ne x bp with rfl | hne
    · rw [hread.1, ← hdev]
      exact h.sound.drive x (h.sound.holding hw)
    · rw [hf.others x hne] at hx ⊢
      exact h.served x hx
  · rw [(hf.same x).1]
    exact h.count x
  · rcases eq_or_ne x bp with rfl | hne
    · exact ⟨hread.1.trans hdev.symm, hf.blocknr.trans hnr⟩
    · have hown : l.Holding x := by
        unfold Ledger.Holding at hx ⊢
        dsimp only at hx
        rwa [update_of_ne hne] at hx
      unfold Holds
      rw [hf.others x hne]
      exact h.there x hown
  · have hne : x ≠ bp := by
      rintro rfl
      dsimp only at hx
      rw [update_self] at hx
      exact absurd hx (by decide)
    dsimp only at hx
    rw [update_of_ne hne] at hx
    obtain ⟨hnone', hnr', habsent'⟩ := h.awaited x hx
    rw [hf.others x hne]
    refine ⟨hnone', hnr', fun y hy => ?_⟩
    have hpos := h.sound.holding hx
    rcases hf.holds (h.sound.drive x hpos).ne_noDev hy with ⟨-, hd, hb⟩ | ⟨-, hold⟩
    · -- two handles would wait for the same block
      have hsame : l.block x = l.block bp :=
        Prod.ext (hd.trans hdev.symm) (hb.symm.trans hnr)
      exact hne (h.sound.apart x bp hpos (h.sound.holding hw) hsame)
    · exact habsent' y hold
  · rcases eq_or_ne x bp with rfl | hne
    · rw [hread.1, ← hdev]
      exact h.sound.used x (h.sound.holding hw)
    · rw [hf.others x hne] at hx ⊢
      exact h.seen x hx
  · rw [← h.content d n hd]
    by_cases hb : d = dev ∧ n = (c.buf bp).blocknr
    · obtain ⟨rfl, rfl⟩ := hb
      rw [hlinked.blockAt_held hself hd, hread.2, blockAt_absent (by rw [hnr]; exact habsent)]
    · apply h.toLinked.blockAt_congr hlinked hd
      · intro x
        constructor
        · intro hx
          rcases hf.holds hd hx with ⟨-, hd', hb'⟩ | ⟨-, hold⟩
          · exact absurd ⟨hd', hb'.symm⟩ hb
          · exact hold
        · intro hx
          have hne : x ≠ bp := by
            rintro rfl
            exact hd (hx.1.symm.trans hnone)
          unfold Holds
          rwa [hf.others x hne]
      · intro x hx
        have hne : x ≠ bp := by
          rintro rfl
          exact hd (hx.1.symm.trans hnone)
        rw [hf.others x hne]
      · exact fun _ => by rw [hf.disk]
  · rw [hf.disk]
    exact h.disk d n hd
  · rcases eq_or_ne x bp with rfl | hne
    · rw [update_self] at hx
      exact absurd hx (by decide)
    · rw [update_of_ne hne] at hx
      exact h.sound.waits x hx

/-- It does not matter in which order the blocks come. -/
theorem filled_congr {q q' : List BufId} (h : ∀ x, x ∈ q ↔ x ∈ q') : l.filled q = l.filled q' := by
  unfold Ledger.filled
  simp only [h]

theorem filled_cons {q : List BufId} :
    (l.filled [bp]).filled q = l.filled (bp :: q) := by
  unfold Ledger.filled
  congr 1 <;> funext x <;> by_cases hx : x = bp <;> simp [hx]

theorem Backs.harvest {q : List BufId} (h : Backs l c) (hnodup : q.Nodup)
    (hq : ∀ bp ∈ q, l.waiting bp = true ∧ (l.block bp).1 = dev) :
    SurelyC (harvestAll dev .reading q) c fun _ c' => Backs (l.filled q) c' := by
  induction q generalizing l c with
  | nil =>
    have hsame : l.filled [] = l := by simp [Ledger.filled]
    rw [hsame]
    exact h
  | cons bp q ih =>
    obtain ⟨hw, hdev⟩ := hq bp List.mem_cons_self
    obtain ⟨hnot, hnodup⟩ := List.nodup_cons.mp hnodup
    have hfilled : Filled dev bp c
        { c with
          tick := c.tick + 1
          buf := update c.buf bp
            { c.buf bp with data := c.disk dev (c.buf bp).blocknr, dev := dev } } :=
      ⟨rfl, rfl, rfl, rfl, rfl, fun x hx => update_of_ne hx .., by simp, by simp,
        .inl (by simp)⟩
    have harrived := h.arrived hw hdev hfilled (by simp) rfl
    have hown : Ledger.Holding { l with waiting := update l.waiting bp false } bp :=
      ⟨h.sound.holding hw, by simp⟩
    have hput : SurelyC (putBuf bp .partialDataBlock) _ fun _ c' => Backs _ c' := harrived.put hown
    have hback : Ledger.givenBack { l with waiting := update l.waiting bp false } bp =
        l.filled [bp] := by
      unfold Ledger.givenBack Ledger.filled
      dsimp only
      rw [h.sound.waits bp hw]
      congr 1
      · funext x
        by_cases hx : x = bp <;> simp [hx]
      · funext x
        by_cases hx : x = bp <;> simp [hx]
    unfold harvestAll SurelyC
    simp only [transfer, wp_bind, wp_nextAnswer, wp_get, wp_modBuf, h.drives c.tick, if_true,
      update_self, update_idem]
    refine hput.mono fun _ c' h' => ?_
    rw [hback] at h'
    rw [← filled_cons]
    apply ih h' hnodup
    intro x hx
    have hne : x ≠ bp := by
      rintro rfl
      exact hnot hx
    have hwait := hq x (List.mem_cons_of_mem _ hx)
    simpa [Ledger.filled, hne] using hwait

theorem Backs.fill {q : List BufId} (h : Backs l c) (hdev : HasDriver dev) (hnodup : q.Nodup)
    (hq : ∀ bp ∈ q, l.waiting bp = true ∧ (l.block bp).1 = dev) :
    Honours (.fill dev q) l c := by
  have hfew : ¬nrBufs < q.length := by
    have hlen := hnodup.length_le_card
    rw [Fintype.card_fin] at hlen
    exact not_lt.mpr hlen
  unfold Honours runCall rwScattered
  rw [SurelyC, wp_bind]
  refine wp_ite (fun hnil => ?_) fun _ => ?_
  · subst hnil
    have hsame : l.filled [] = l := by simp [Ledger.filled]
    exact ⟨trivial, by rw [Ledger.after, hsame]; exact h⟩
  · refine wp_ite (fun hmany => absurd hmany hfew) fun _ => ?_
    rw [wp_bind, wp_findDev hdev, wp_bind, wp_get]
    have hperm := sortQueue_perm c q
    refine (h.harvest (hperm.nodup_iff.mpr hnodup) fun x hx => hq x (hperm.mem_iff.mp hx)).mono ?_
    intro _ c' h'
    rw [wp_pure]
    refine ⟨trivial, ?_⟩
    rw [Ledger.after, filled_congr fun x => (hperm.mem_iff (a := x)).symm]
    exact h'

/-! ### The whole device -/

/-- When no buffer is dirty, the blocks are on the disk. -/
theorem Coherent.on_disk (hc : Coherent none c) (hdev : dev ≠ noDev)
    (hclean : ∀ x, (c.buf x).dev = dev → (c.buf x).dirt = false) :
    c.disk dev b = blockAt c dev b := by
  by_cases hex : ∃ x, Holds c x dev b
  · obtain ⟨x, hx⟩ := hex
    rw [hc.toLinked.blockAt_held hx hdev, hc.clean x (by simp) (by rw [hx.1]; exact hdev) (hclean x hx.1),
      hx.1, hx.2]
  · exact (blockAt_absent fun x hx => hex ⟨x, hx⟩).symm

theorem Backs.flush (h : Backs l c) (hdev : HasDriver dev) : Honours (.flush dev) l c := by
  unfold Honours runCall
  rw [SurelyC, wp_bind]
  refine Wp.mono (Surely.and (flushall_surely hdev) (flushall_written hdev.ne_noDev h.unique)) ?_
  rintro _ c' ⟨-, hwritten⟩
  obtain ⟨hc', hblocks⟩ := h.toCoherent.written (fun _ => dev_of_mem_dirtyBufs) hwritten
  have hsame := hwritten.same h.drives
  have hnr := hwritten.chains.blocknr
  have hholds : ∀ x d n, Holds c' x d n ↔ Holds c x d n := by
    intro x d n
    unfold Holds
    rw [hsame, hnr]
  rw [wp_pure]
  refine ⟨trivial, ⟨hc', ⟨h.served.of_dev fun x => .inl (hsame x), fun x => ?_, fun x hx => ?_,
    fun x hw => ?_, fun x hx => ?_⟩, ⟨fun d n hd => ?_, fun d n hd => ?_⟩, h.sound.flushed⟩⟩
  · rw [hwritten.chains.count]
    exact h.count x
  · exact (hholds _ _ _).mpr (h.there x hx)
  · obtain ⟨hnone, hown, habsent⟩ := h.awaited x hw
    rw [hsame, hnr]
    exact ⟨hnone, hown, fun y hy => habsent y ((hholds _ _ _).mp hy)⟩
  · rw [hsame] at hx ⊢
    exact h.seen x hx
  · exact (hblocks d n hd).trans (h.content d n hd)
  · change c'.disk d n ∈ if d = dev then [l.content d n] else l.past d n
    split
    next he =>
      subst he
      rw [hc'.on_disk hd, hblocks d n hd, h.content d n hd]
      · exact List.mem_singleton_self _
      · intro x hx
        rw [hwritten.buf x]
        dsimp only
        split
        next => rfl
        next hnot =>
          by_contra hdirty
          apply hnot
          rw [hsame] at hx
          exact List.mem_filter.mpr ⟨List.mem_finRange x, decide_eq_true ⟨by simpa using hdirty, hx⟩⟩
    next hne =>
      rw [hwritten.others d n fun he => absurd he hne]
      exact h.disk d n hd

/-- The buffers of the device are dropped; they hold what is on the disk. -/
theorem Backs.forget (h : Backs l c) (hdev : HasDriver dev)
    (hback : ∀ x, 0 < l.lent x → (l.block x).1 ≠ dev) (hpast : ∀ b, l.past dev b = [l.content dev b]) :
    Honours (.forget dev) l c := by
  unfold Honours runCall invalidate
  rw [SurelyC, wp_bind, wp_modify, wp_pure]
  generalize hdrop : (fun x => if (c.buf x).dev = dev then { c.buf x with dev := noDev }
    else c.buf x) = buf
  have hbuf : ∀ x, buf x = if (c.buf x).dev = dev then { c.buf x with dev := noDev } else c.buf x :=
    fun x => (congrFun hdrop x).symm
  have hchains : SameChains c { c with buf := buf } := by
    refine ⟨rfl, rfl, rfl, fun x => ?_, fun x => ?_, fun x => ?_⟩
    all_goals
      simp only [hbuf]
      split
    · rfl
    · rfl
    · rfl
    · rfl
    · exact .inr rfl
    · exact .inl rfl
  have hlinked := hchains.linked h.toLinked
  -- a buffer that is in use is not one of the device
  have hkept : ∀ x, (c.buf x).dev ≠ dev → buf x = c.buf x := fun x hx => by rw [hbuf, if_neg hx]
  have hgone : ∀ x, (c.buf x).dev = dev → (buf x).dev = noDev := fun x hx => by rw [hbuf, if_pos hx]
  have hstay : ∀ x, (buf x).dev ≠ noDev → (c.buf x).dev ≠ dev ∧ buf x = c.buf x := by
    intro x hx
    have hne : (c.buf x).dev ≠ dev := fun he => hx (hgone x he)
    exact ⟨hne, hkept x hne⟩
  have hdown : ∀ x d b, d ≠ noDev → Holds { c with buf := buf } x d b → Holds c x d b := by
    intro x d b hd hx
    unfold Holds at hx ⊢
    dsimp only at hx
    rwa [(hstay x (by rw [hx.1]; exact hd)).2] at hx
  have hother : ∀ x, (c.buf x).dev ≠ dev → ∀ d b,
      Holds { c with buf := buf } x d b ↔ Holds c x d b := by
    intro x hx d b
    unfold Holds
    dsimp only
    rw [hkept x hx]
  refine ⟨trivial, ⟨⟨hlinked, h.drives, by simp, fun x _ hx hclean => ?_⟩,
    ⟨h.served.of_dev hchains.valid, fun x => ?_, fun x hx => ?_, fun x hw => ?_, fun x hx => ?_⟩,
    ⟨fun d b hd => ?_, h.disk⟩, h.sound.forgotten hback⟩⟩
  · dsimp only at hx hclean ⊢
    have hsame := (hstay x hx).2
    rw [hsame] at hx hclean ⊢
    exact h.clean x (by simp) hx hclean
  · rw [hchains.count]
    exact h.count x
  · have hthere := h.there x hx
    exact (hother x (by rw [hthere.1]; exact hback x hx.1) _ _).mpr hthere
  · obtain ⟨hnone, hnr, habsent⟩ := h.awaited x hw
    have hpos := h.sound.holding hw
    refine ⟨?_, (hchains.blocknr x).trans hnr, fun y hy => habsent y (hdown y _ _ ?_ hy)⟩
    · rcases hchains.valid x with hsame | hvoid
      · exact hsame.trans hnone
      · exact hvoid
    · exact (h.sound.drive x hpos).ne_noDev
  · dsimp only at hx ⊢
    obtain ⟨hne, hsame⟩ := hstay x hx
    rw [hsame] at hx ⊢
    change update l.seen dev false (c.buf x).dev = true
    rw [update_of_ne hne]
    exact h.seen x hx
  · change blockAt _ d b = l.content d b
    rcases eq_or_ne d dev with rfl | hne
    · have habsent : ∀ x, ¬Holds { c with buf := buf } x d b := by
        intro x hx
        exact (hstay x (by rw [hx.1]; exact hd)).1 (hdown x d b hd hx).1
      rw [blockAt_absent habsent]
      have hmem := h.disk d b hd
      rw [hpast b] at hmem
      exact List.mem_singleton.mp hmem
    · rw [← h.content d b hd]
      apply h.toLinked.blockAt_congr hlinked hd
      · intro x
        constructor
        · exact hdown x d b hd
        · intro hx
          exact (hother x (by rw [hx.1]; exact hne) d b).mpr hx
      · intro x hx
        dsimp only
        rw [hkept x (by rw [hx.1]; exact hne)]
      · exact fun _ => rfl

/-- Nothing of the old medium is in the cache. -/
theorem Backs.exchange {medium : ℕ → Block} (h : Backs l c) (hdev : HasDriver dev)
    (hseen : l.seen dev = false) : Honours (.exchange dev medium) l c := by
  have hnone : ∀ x, (c.buf x).dev ≠ dev := by
    rintro x rfl
    exact absurd ((h.seen x hdev.ne_noDev).symm.trans hseen) (by decide)
  unfold Honours runCall
  rw [SurelyC, wp_bind, wp_modify, wp_pure]
  have hlinked : Linked { c with disk := update c.disk dev medium } :=
    ⟨h.lru, h.nodup, h.hash, h.nonneg, h.inUse, h.unique⟩
  refine ⟨trivial, ⟨⟨hlinked, h.drives, by simp, fun x _ hx hclean => ?_⟩,
    ⟨h.served, h.count, h.there, h.awaited, h.seen⟩, ⟨fun d b hd => ?_, fun d b hd => ?_⟩,
    h.sound.exchanged medium⟩⟩
  · dsimp only at hx hclean ⊢
    rw [update_of_ne (hnone x)]
    exact h.clean x (by simp) hx hclean
  · change blockAt _ d b = update l.content dev medium d b
    rcases eq_or_ne d dev with rfl | hne
    · have habsent : ∀ x, ¬Holds { c with disk := update c.disk d medium } x d b :=
        fun x hx => hnone x hx.1
      rw [blockAt_absent habsent, update_self]
      dsimp only
      rw [update_self]
    · rw [update_of_ne hne, ← h.content d b hd]
      apply h.toLinked.blockAt_congr hlinked hd
      · exact fun _ => Iff.rfl
      · exact fun _ _ => rfl
      · intro _
        dsimp only
        rw [update_of_ne hne]
  · change update c.disk dev medium d b ∈
      if d = dev then [medium b] else l.past d b
    split
    next he =>
      rw [he, update_self]
      exact List.mem_singleton_self _
    next hne =>
      rw [update_of_ne hne]
      exact h.disk d b hd

end

/-! ## §5 Any Number of Calls -/

theorem bufPool_backs {w : World} (hw : ∀ n, (w.io n).ok = true) : Backs (firstLedger w) (bufPool w) := by
  have hnone : ∀ x d b, d ≠ noDev → ¬Holds (bufPool w) x d b := fun x d b hd hx => hd hx.1.symm
  refine ⟨⟨⟨.refl _, fun h => ?_, fun h x => ?_, fun _ => le_rfl, ?_, fun x _ hx => absurd rfl hx⟩,
    hw, by simp, fun x _ hx => absurd rfl hx⟩,
    ⟨fun x hx => absurd rfl hx, fun _ => rfl, fun x hx => absurd hx.1 (Nat.lt_irrefl 0), fun x hx => ?_,
      fun x hx => absurd rfl hx⟩,
    ⟨fun d b hd => blockAt_absent fun x => hnone x d b hd, fun d b _ => List.mem_singleton_self _⟩,
    ⟨fun x hx => ?_, fun x _ hx => absurd hx (Nat.lt_irrefl 0), fun x hx => absurd hx (Nat.lt_irrefl 0),
      fun x hx => absurd hx (Nat.lt_irrefl 0), fun d b => List.mem_singleton_self _⟩⟩
  · unfold bufPool
    dsimp only
    split
    · exact List.nodup_finRange nrBufs
    · exact List.nodup_nil
  · unfold bufPool
    dsimp only
    split
    next hh => simp [hh]
    next hh => simpa using fun he => hh he.symm
  · simp [bufPool]
  · exact absurd hx (by simp [firstLedger])
  · exact absurd hx (by simp [firstLedger])

/-- One call. -/
theorem Backs.serves {l : BlockLedger} {c : Cache} (h : Backs l c) {call : BlockCall}
    (hcall : call.Allowed HasDriver l) : Honours call l c := by
  cases call with
  | fetch dev b => exact h.fetch hcall
  | overwrite dev b data => exact h.overwrite hcall
  | reserve dev b => exact h.reserve hcall
  | change bp f => exact h.change hcall
  | giveBack bp blockType =>
    unfold Honours runCall
    rw [SurelyC, wp_bind]
    refine (h.put hcall).mono fun _ c' h' => ?_
    exact ⟨trivial, h'⟩
  | fill dev q => exact h.fill hcall.1 hcall.2.1 hcall.2.2
  | flush dev => exact h.flush hcall
  | forget dev => exact h.forget hcall.1 hcall.2.1 hcall.2.2
  | exchange dev medium => exact h.exchange hcall.1 hcall.2

/-- **The cache is a store of blocks.**  With drives that work, in whatever order blocks are asked
for, changed and given back, and whatever is flushed in between: no call panics, each answer is one
of the contract, so that who asks for a block is given what has been stored in it last, the chains
and counts of the buffers are in order, and of each block the disk holds a value that the block has
had since its device was last flushed. -/
theorem cache_stores (w : World) (hw : ∀ n, (w.io n).ok = true) (calls : List BlockCall) :
    Follows (fun call c => runCall call c) (fun call _ l => call.Allowed HasDriver l)
      (fun call l r c' l' => ∃ ans, r = .ok ans ∧ call.Answered l ans ∧ l' = l.after call ans ∧
        Backs l' c')
      calls (bufPool w) (firstLedger w) := by
  apply Follows.of_simulation (fun c l => Backs l c) ?_ calls (bufPool_backs hw)
  intro call c l h hcall
  have hserves := h.serves hcall
  unfold Honours SurelyC Wp at hserves
  cases hrun : runCall call c with
  | mk r c' =>
    rw [hrun] at hserves
    cases r with
    | error e => exact hserves.elim
    | ok ans =>
      obtain ⟨hans, hbacks⟩ := hserves
      exact ⟨l.after call ans, ⟨ans, rfl, hans, rfl, hbacks⟩, hbacks⟩

/-- A disk on which nothing has been written. -/
def freshWorld : World := smallWorld [] fun _ => { status := OK, revives := [] }

theorem cache_stores_fetch : ∃ bp c',
    runCall (.fetch 0x100 7) (runCall (.overwrite 0x100 7 fun _ => 1) (bufPool freshWorld)).2 =
      (.ok (.lent bp fun _ => 1), c') := by
  have hruns := cache_stores freshWorld (fun _ => rfl)
    [.overwrite 0x100 7 fun _ => 1, .fetch 0x100 7]
  have hfirst : (firstLedger freshWorld).Asks HasDriver 0x100 7 :=
    ⟨⟨by decide, by decide⟩, ⟨⟨0, by decide⟩, rfl⟩, fun bp hw => absurd hw (by simp [firstLedger])⟩
  obtain ⟨l, ⟨ans, -, hans, rfl, hbacks⟩, hruns⟩ := hruns hfirst
  cases ans with
  | reserved bp => exact hans.elim
  | done => exact hans.elim
  | lent bp data =>
    obtain ⟨x, hx⟩ : ∃ x : BufId, x ≠ bp :=
      Fintype.exists_ne_of_one_lt_card (by rw [Fintype.card_fin]; decide) bp
    have hnext : ((firstLedger freshWorld).after (T := BlockType) (.overwrite 0x100 7 fun _ => 1)
        (.lent bp data)).Asks HasDriver 0x100 7 := by
      refine ⟨⟨by decide, by decide⟩, ⟨x, update_of_ne hx ..⟩, fun y hw => ?_⟩
      exact absurd hw (by simp [Ledger.after, Ledger.store, Ledger.lend, firstLedger])
    obtain ⟨l', ⟨ans', hrun', hans', -, -⟩, -⟩ := hruns hnext
    cases ans' with
    | reserved bp' => exact hans'.elim
    | done => exact hans'.elim
    | lent bp' data' =>
      have hdata : data' = fun _ => 1 := by
        rw [hans'.2]
        simp [Ledger.after, Ledger.store]
      subst hdata
      exact ⟨bp', _, Prod.ext hrun' rfl⟩

end LisaMinix.Fs.Server
