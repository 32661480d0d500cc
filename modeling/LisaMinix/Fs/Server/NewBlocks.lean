import LisaMinix.Fs.Server.Growth

/-!
# New Blocks

`read_map`, `write_map` and `new_block` on a file whose device is mounted.

- `Ready`: the file is consistent, and its device is mounted.
- `readMap_surely`: the block that is found is the one of the layout, and nothing changes.
- `writeMap_surely`: the zone is entered in its place, or there is no space for an indirect block.
- `newBlock_surely`: the new block is zero, and no other block of the file changes.
- `writeBlock_spec`: a block of the file is written, and the others are as they were.

The requests do not panic: the device has a driver, and there is a buffer to spare.
-/

namespace LisaMinix.Fs.Server

open LisaMinix.Library Function

/-! ## §1 Files That Are Ready -/

/-- The device of the file is mounted in slot `sp`. -/
structure Mounted (rip : InodeId) (sp : SuperId) (s : FsState) : Prop where
  super : firstId (fun sp => (s.supers sp).dev = (s.inodes rip).dev) = some sp
  geometry : Geometry (s.supers sp)
  driver : HasDriver (s.inodes rip).dev
  able : Able s.cache
  zmap : ZmapHeld (s.supers sp) s.cache

/-- The file as it is on its device. -/
def viewOf (rip : InodeId) (s : FsState) : FileView where
  blocks := blockAt s.cache (s.inodes rip).dev
  izone := (s.inodes rip).zone

/-- The file is consistent, and its device is mounted. -/
structure Ready (rip : InodeId) (sp : SuperId) (s : FsState) : Prop extends Mounted rip sp s where
  ok : (viewOf rip s).Ok (s.supers sp)

/-- Nothing but the cache has changed, and what it stands for has not. -/
structure Calm (s s' : FsState) : Prop where
  frame : s' = { s with cache := s'.cache }
  able : Able s'.cache
  lent : Lent none s.cache s'.cache
  blocks : SameBlocks s.cache s'.cache

/-- The zones of one inode and what it says about its own changes, the cache and the error code may
    have changed. -/
structure Only (rip : InodeId) (s s' : FsState) : Prop where
  frame : s' = { s with
    cache := s'.cache
    inodes := update s.inodes rip (s'.inodes rip)
    g := { s.g with errCode := s'.g.errCode } }
  inode : s'.inodes rip = { s.inodes rip with
    zone := (s'.inodes rip).zone, dirt := (s'.inodes rip).dirt, update := (s'.inodes rip).update }
  able : Able s'.cache
  lent : Lent none s.cache s'.cache

section

variable {rip : InodeId} {sp : SuperId} {s s' s'' : FsState}
variable {c c' : Cache} {z zq e n₀ n : ℕ} {data : Block} {bp : BufId} {x : Super} {v v' : FileView}

theorem Mounted.dev_eq (h : Mounted rip sp s) : (s.supers sp).dev = (s.inodes rip).dev := by
  simpa using List.find?_some h.super

theorem Calm.refl (h : Able s.cache) : Calm s s := ⟨rfl, h, .refl _, .refl _⟩

theorem Calm.trans (h : Calm s s') (h' : Calm s' s'') : Calm s s'' where
  frame := by
    refine h'.frame.trans ?_
    rw [h.frame]
  able := h'.able
  lent := h.lent.trans h'.lent
  blocks := h.blocks.trans h'.blocks

theorem Calm.only (h : Calm s s') (rip : InodeId) : Only rip s s' where
  frame := by
    rw [h.frame]
    simp only [update_eq_self]
  inode := by rw [h.frame]
  able := h.able
  lent := h.lent

theorem Calm.view (h : Calm s s') (hdev : HasDriver (s.inodes rip).dev) :
    viewOf rip s' = viewOf rip s := by
  have hblocks : blockAt s'.cache (s.inodes rip).dev = blockAt s.cache (s.inodes rip).dev :=
    funext fun b => h.blocks _ b hdev.ne_noDev
  rw [viewOf, viewOf, ← hblocks]
  rw [h.frame]

theorem Only.trans (h : Only rip s s') (h' : Only rip s' s'') : Only rip s s'' where
  frame := by
    refine h'.frame.trans ?_
    rw [h.frame]
    simp only [update_idem]
  inode := by
    refine h'.inode.trans ?_
    rw [h.inode]
  able := h'.able
  lent := h.lent.trans h'.lent

theorem Only.supers (h : Only rip s s') : s'.supers = s.supers := by rw [h.frame]

theorem Only.dev (h : Only rip s s') : (s'.inodes rip).dev = (s.inodes rip).dev := by rw [h.inode]

theorem Only.mounted (h : Only rip s s') (hm : Mounted rip sp s) : Mounted rip sp s' where
  super := by
    rw [h.supers, h.dev]
    exact hm.super
  geometry := by
    rw [h.supers]
    exact hm.geometry
  driver := by
    rw [h.dev]
    exact hm.driver
  able := h.able
  zmap := by
    rw [h.supers]
    exact hm.zmap.lent h.lent

theorem Calm.ready (h : Calm s s') (hr : Ready rip sp s) : Ready rip sp s' where
  toMounted := (h.only rip).mounted hr.toMounted
  ok := by
    rw [h.view hr.driver, (h.only rip).supers]
    exact hr.ok

/-! ## §2 `read_map` -/

theorem indirectEntry_surely {dev b i : ℕ} (hc : Able c) (hdev : HasDriver dev) :
    SurelyC (indirectEntry dev b i) c fun z c' =>
      z = getInd (blockAt c dev b) i ∧ Able c' ∧ Lent none c c' ∧ SameBlocks c c' :=
  readBlock_surely hc hdev rfl (by simp) fun data => getInd data i

/-- The entry is read if there is an indirect block. -/
theorem readEntry_surely {dev scale i : ℕ} (hc : Able c) (hdev : HasDriver dev) :
    SurelyC (if z = 0 then pure 0 else indirectEntry dev (toShort (z * 2 ^ scale)) i) c fun r c' =>
      r = entry (blockAt c dev) scale z i ∧ Able c' ∧ Lent none c c' ∧ SameBlocks c c' := by
  unfold entry
  split
  · exact ⟨rfl, hc, .refl c, .refl c⟩
  · exact indirectEntry_surely hc hdev

theorem zoneOf_surely {dev scale zone : ℕ} {izone : ℕ → ℕ} (hc : Able c) (hdev : HasDriver dev) :
    SurelyC (zoneOf dev izone scale zone) c fun z c' =>
      z = zoneIn (blockAt c dev) izone scale (.data zone) ∧ Able c' ∧ Lent none c c' ∧
        SameBlocks c c' := by
  unfold zoneOf
  simp only [zoneIn]
  by_cases hdirect : zone < nrDzoneNum
  · simp only [hdirect, if_true]
    exact ⟨rfl, hc, .refl c, .refl c⟩
  by_cases hsingle : zone - nrDzoneNum < nrIndirects
  · simp only [hdirect, hsingle, if_true, if_false]
    exact readEntry_surely hc hdev
  -- the double indirect block, and then the single indirect block
  simp only [hdirect, hsingle, if_false]
  generalize zone - nrDzoneNum - nrIndirects = e
  by_cases hz : izone (nrDzoneNum + 1) = 0
  · simp only [hz, if_true]
    exact ⟨by simp [entry], hc, .refl c, .refl c⟩
  · simp only [hz, if_false]
    have hentry : entry (blockAt c dev) scale (izone (nrDzoneNum + 1)) (e / nrIndirects) =
        getInd (blockAt c dev (toShort (izone (nrDzoneNum + 1) * 2 ^ scale))) (e / nrIndirects) :=
      if_neg hz
    rw [hentry, SurelyC, wp_bind]
    refine (indirectEntry_surely hc hdev).mono ?_
    rintro z₁ c₁ ⟨rfl, hc1, hlent1, hblocks1⟩
    have hsame : blockAt c₁ dev = blockAt c dev := funext fun b => hblocks1 dev b hdev.ne_noDev
    refine (readEntry_surely hc1 hdev).mono ?_
    rintro z₂ c₂ ⟨rfl, hc2, hlent2, hblocks2⟩
    exact ⟨by rw [hsame], hc2, hlent1.trans hlent2, hblocks1.trans hblocks2⟩

/-- The block of the file for a block position; 0 is none. -/
def FileView.block (x : Super) (v : FileView) (n : ℕ) : ℕ := blockNr v.blocks v.izone x.logZoneSize n

theorem readMap_surely {position : ℤ} (hm : Mounted rip sp s) (hpos : 0 ≤ position) :
    Surely (readMap rip position) s fun b s' =>
      b = (viewOf rip s).block (s.supers sp) (position / blockSize).toNat ∧ Calm s s' := by
  unfold readMap scaleFactor Surely
  simp only [wp_bind, wp_readInode]
  rw [getSuper_spec hm.super]
  simp only [wp_readSuper, wp_pure]
  rw [if_neg (by unfold blockSize; omega)]
  simp only [wp_bind, wp_liftC]
  refine Wp.mono (zoneOf_surely hm.able hm.driver) ?_
  rintro z c' ⟨rfl, hc', hlent, hblocks⟩
  have hcalm : Calm s { s with cache := c' } := ⟨rfl, hc', hlent, hblocks⟩
  unfold FileView.block blockNr
  refine wp_ite (fun hz => ?_) fun hz => ?_
  · exact ⟨(if_pos hz).symm, hcalm⟩
  · exact ⟨(if_neg hz).symm, hcalm⟩

/-! ## §3 Steps of `write_map` -/

/-- The end of a change to an indirect block, which has been obtained. -/
theorem enterIndirect_surely {c₁ : Cache} (hm : Mounted rip sp s)
    (hopened : Opened (s.inodes rip).dev (firstBlock (s.supers sp).logZoneSize zq) data bp c₁)
    (hlent : Lent (some bp) s.cache c₁)
    (hstored : Stored (s.inodes rip).dev (firstBlock (s.supers sp).logZoneSize zq) data s.cache c₁) :
    Surely (do
      liftC (dirtyBuf bp fun data => putWord data (2 * e) z)
      modInode rip fun x => { x with update := mtime }
      liftC (putBlock (.to bp) .indirectBlock)
      return OK) { s with cache := c₁ } fun r s' => r = OK ∧ Only rip s s' ∧
        viewOf rip s' = (viewOf rip s).write (s.supers sp) zq (putWord data (2 * e) z) := by
  simp only [Surely, wp_bind, wp_liftC, wp_modInode, wp_pure]
  refine Wp.mono hopened.dirty ?_
  rintro _ c₂ ⟨hopened2, hlent2, hstored2⟩
  refine Wp.mono (hopened2.put hm.able (hlent.trans hlent2) rfl (by simp)) ?_
  rintro _ c' ⟨hable, hlent', hblocks⟩
  refine ⟨trivial, ⟨?_, ?_, hable, hlent'⟩, ?_⟩
  · simp only [update_self]
  · simp only [update_self]
  · have hupdate := ((hstored.trans hstored2).same hblocks).eq_update hm.driver.ne_noDev
    simp only [viewOf, update_self, FileView.write]
    rw [hupdate]

theorem writeIndirect_surely (hm : Mounted rip sp s) (zq e z : ℕ) (fresh : Bool) :
    Surely (writeIndirect rip (s.supers sp).logZoneSize zq e z fresh) s fun r s' =>
      r = OK ∧ Only rip s s' ∧ viewOf rip s' = (viewOf rip s).write (s.supers sp) zq
        (putWord (if fresh then zeroBytes else
          (viewOf rip s).blocks (firstBlock (s.supers sp).logZoneSize zq)) (2 * e) z) := by
  have hopen := openBlock_spec (b := firstBlock (s.supers sp).logZoneSize zq) hm.able hm.driver fresh
  unfold writeIndirect Surely
  simp only [wp_bind, wp_readInode, wp_liftC]
  refine Wp.mono hopen fun bp c₁ hclear => ?_
  cases fresh with
  | true =>
    rw [if_pos rfl, wp_bind, wp_liftC]
    refine Wp.mono hclear ?_
    rintro _ c₂ ⟨hopened, hlent, hstored⟩
    exact enterIndirect_surely hm hopened hlent hstored
  | false =>
    rw [if_neg (by simp)]
    obtain ⟨hopened, hlent, hstored⟩ := hclear
    exact enterIndirect_surely hm hopened hlent hstored

/-- A zone has been allocated for a file, unless it is 0. -/
structure Allocated (x : Super) (zq : ℕ) (v v' : FileView) : Prop where
  kept : Kept x v v'
  izone : v'.izone = v.izone
  zones : v'.zone x = v.zone x
  fresh : ∀ z, v.Fresh x z → v'.Fresh x z ∧ z ≠ zq
  only : ∀ y, InRange x y → y ≠ zq → zoneBusy x v'.blocks y = true → zoneBusy x v.blocks y = true
  new : zq ≠ 0 → v'.Fresh x zq

theorem ZoneTaken.allocated {izone : ℕ → ℕ} (h : ZoneTaken x zq c c') (hg : Geometry x)
    (hok : FileView.Ok x ⟨blockAt c x.dev, izone⟩) :
    Allocated x zq ⟨blockAt c x.dev, izone⟩ ⟨blockAt c' x.dev, izone⟩ := by
  obtain ⟨hkept, hzones⟩ := kept_map (v := ⟨blockAt c x.dev, izone⟩) (blockAt c' x.dev) hok hg
    (fun b hb => h.others _ b hg.dev fun _ => hb) fun p _ => h.kept _
  have hzone : ∀ p, zoneIn (blockAt c' x.dev) izone x.logZoneSize p =
      zoneIn (blockAt c x.dev) izone x.logZoneSize p := congrFun hzones
  refine ⟨hkept, rfl, hzones, fun z hz => ⟨⟨hz.range, h.kept z hz.busy, fun p => ?_⟩, ?_⟩,
    fun y hy => h.only y hy.1, fun hzq => ?_⟩
  · rw [hzone]
    exact hz.new p
  · rintro rfl
    obtain ⟨-, -, hclear, -⟩ := h.taken (hz.ne_zero hg)
    have hbusy := hz.busy
    rw [hclear] at hbusy
    exact absurd hbusy (by decide)
  · obtain ⟨hlow, hhigh, hclear, hset⟩ := h.taken hzq
    refine ⟨⟨hlow, hhigh⟩, hset, fun p heq => ?_⟩
    -- the zones of the file were busy before
    rw [hzone] at heq
    have hbusy := hok.busy p (by rw [heq]; exact hzq)
    dsimp only at hbusy
    rw [heq, hclear] at hbusy
    exact absurd hbusy (by decide)

/-- The zone that has been allocated is put in place `p₀`. -/
theorem Allocated.attached {v'' : FileView} {p₀ : Place} (h : Allocated x zq v v')
    (h' : Attaches x p₀ zq v' v'') (hp0 : p₀.IsMapBlock) (hempty : v.zone x p₀ = 0) :
    Attached x v v'' where
  kept p _ hne := by
    have hother : p ≠ p₀ := by
      rintro rfl
      exact hne hempty
    rw [h'.zones, update_of_ne hother, h.zones]
  new y hy hset hclear := by
    refine ⟨p₀, hp0, ?_⟩
    rw [h'.zones, update_self]
    by_contra hne
    rw [h'.busy y hy] at hset
    have hold := h.only y hy (Ne.symm hne) hset
    rw [hclear] at hold
    exact absurd hold (by decide)

/-- There was no zone to allocate. -/
theorem Allocated.none_attached (hg : Geometry x) (h : Allocated x 0 v v') : Attached x v v' where
  kept p _ _ := by rw [h.zones]
  new y hy hset hclear := by
    have hold := h.only y hy (hy.ne_zero hg) hset
    rw [hclear] at hold
    exact absurd hold (by decide)

theorem ZoneTaken.served (h : ZoneTaken x zq c c') (hc : Served c) :
    Served c' := hc.of_dev fun y => .inl (h.sameDev y)

theorem allocZone_surely (hm : Mounted rip sp s) (hok : (viewOf rip s).Ok (s.supers sp)) (near : ℕ) :
    Surely (allocZone (s.inodes rip).dev near) s fun zq s' =>
      (∃ c e, s' = { s with cache := c, g := { s.g with errCode := e } }) ∧ Only rip s s' ∧
        (zq = 0 → s'.g.errCode = ENOSPC) ∧
        Allocated (s.supers sp) zq (viewOf rip s) (viewOf rip s') := by
  refine (allocZone_spec hm.super hm.geometry hm.able.toCoherent hm.zmap).mono ?_
  rintro zq s' ⟨hframe, herr, htaken⟩
  have hable := hm.able.lent htaken.lent htaken.coherent (htaken.served hm.able.served)
  refine ⟨⟨_, _, hframe⟩, ⟨?_, ?_, hable, htaken.lent⟩, herr, ?_⟩
  · rw [hframe]
    simp only [update_eq_self]
  · rw [hframe]
  · unfold viewOf at hok ⊢
    rw [← hm.dev_eq] at hok ⊢
    rw [hframe, ← hm.dev_eq]
    exact htaken.allocated hm.geometry hok

/-- What `write_map` comes to: zone `z` is entered, or it is still fresh. -/
def Wrote (x : Super) (n₀ z : ℕ) (v v' : FileView) (r : ℤ) : Prop :=
  Attached x v v' ∧ if r = OK then Entered x n₀ z v v' else Kept x v v' ∧ v'.Fresh x z

theorem Kept.wrote {v'' : FileView} {r : ℤ} (h : Kept x v v') (hg : Geometry x)
    (hattached : Attached x v v') (h' : Wrote x n₀ z v' v'' r) : Wrote x n₀ z v v'' r := by
  obtain ⟨hattached', h'⟩ := h'
  refine ⟨hattached.trans hg hattached', ?_⟩
  split at h'
  next hok =>
    rw [if_pos hok]
    exact h.entered h'
  next hnot =>
    rw [if_neg hnot]
    exact ⟨h.trans h'.1, h'.2⟩

theorem wrote_full (hg : Geometry x) (h : Allocated x 0 v v') (hz : v.Fresh x z) :
    Wrote x n₀ z v v' ENOSPC := by
  rw [Wrote, if_neg (by decide)]
  exact ⟨h.none_attached hg, h.kept, (h.fresh z hz).1⟩

/-- `write_map` for a zone whose indirect block is there. -/
theorem writeExisting_surely (q : Place) (hr : Ready rip sp s)
    (hz : (viewOf rip s).Fresh (s.supers sp) z) (hq : q.IsIndirect) (he : e < nrIndirects)
    (hzq : (viewOf rip s).zone (s.supers sp) q ≠ 0) :
    Surely (writeIndirect rip (s.supers sp).logZoneSize ((viewOf rip s).zone (s.supers sp) q) e z false)
      s fun r s' => Only rip s s' ∧
        Wrote (s.supers sp) (q.under e) z (viewOf rip s) (viewOf rip s') r := by
  refine (writeIndirect_surely hr.toMounted _ e z false).mono ?_
  rintro _ s' ⟨rfl, honly, hview⟩
  refine ⟨honly, ?_⟩
  rw [Wrote, if_pos rfl, hview]
  exact ⟨attached_entry hr.ok hr.geometry (hz.lt hr.geometry) hq he hzq,
    entered_entry hr.ok hr.geometry hz hq he hzq⟩

/-- `write_map` for a zone whose indirect block has just been attached in place `q`; `v` is the file
    with the new indirect block cleared. -/
theorem writeAttached_surely (q : Place) (zq : ℕ) (hm : Mounted rip sp s)
    (hv : v = (viewOf rip s).write (s.supers sp) zq zeroBytes) (hok : v.Ok (s.supers sp))
    (hz : v.Fresh (s.supers sp) z) (hq : q.IsIndirect) (he : e < nrIndirects) (hne : zq ≠ 0)
    (hzq : v.zone (s.supers sp) q = zq) :
    Surely (writeIndirect rip (s.supers sp).logZoneSize zq e z true) s fun r s' => Only rip s s' ∧
      Wrote (s.supers sp) (q.under e) z v (viewOf rip s') r := by
  refine (writeIndirect_surely hm zq e z true).mono ?_
  rintro _ s' ⟨rfl, honly, hview⟩
  have hne' : v.zone (s.supers sp) q ≠ 0 := by rwa [hzq]
  have hattached := attached_entry hok hm.geometry (hz.lt hm.geometry) hq he hne'
  have hentered := entered_entry hok hm.geometry hz hq he hne'
  refine ⟨honly, ?_⟩
  rw [hzq, hv, write_self, write_write, ← hv] at hattached hentered
  rw [Wrote, if_pos rfl, hview]
  exact ⟨hattached, hentered⟩

/-! ## §4 `write_map` -/

/-- The zone numbers of the inode change, and what it says of its changes. -/
theorem only_inode (rip : InodeId) (h : Able s.cache) (izone : ℕ → ℕ) (dirt : Bool) (update : ℕ) :
    Only rip s { s with
      inodes := Function.update s.inodes rip
        { s.inodes rip with zone := izone, dirt := dirt, update := update } } where
  frame := by simp only [update_self]
  inode := by simp only [update_self]
  able := h
  lent := .refl _

theorem viewOf_zone (izone : ℕ → ℕ) :
    viewOf rip { s with inodes := update s.inodes rip { s.inodes rip with zone := izone } } =
      { viewOf rip s with izone := izone } := by
  simp only [viewOf, update_self]

theorem writeSingle_surely (hr : Ready rip sp s) (hz : (viewOf rip s).Fresh (s.supers sp) z)
    (he : e < nrIndirects) :
    Surely (writeSingle rip (s.supers sp).logZoneSize e z) s fun r s' => Only rip s s' ∧
      Wrote (s.supers sp) (Place.single.under e) z (viewOf rip s) (viewOf rip s') r := by
  unfold writeSingle Surely
  simp only [wp_bind, wp_readInode]
  refine wp_ite (fun hzone => ?_) fun hzone => ?_
  · exact writeExisting_surely .single hr hz trivial he hzone
  · rw [not_not] at hzone
    rw [wp_bind]
    refine (allocZone_surely hr.toMounted hr.ok _).mono ?_
    rintro zq _ ⟨⟨c, err, rfl⟩, honly, herr, halloc⟩
    simp only [wp_bind, setZone, wp_modInode]
    refine wp_ite (fun hzero => ?_) fun hne => ?_
    · -- there is no zone for the indirect block
      simp only [wp_bind, wp_globals, wp_pure]
      have hsame : update s.inodes rip
          { s.inodes rip with zone := update (s.inodes rip).zone nrDzoneNum zq } = s.inodes := by
        rw [hzero, ← hzone, update_eq_self, update_eq_self]
      rw [hsame, show err = ENOSPC from herr hzero]
      rw [show err = ENOSPC from herr hzero] at honly halloc
      rw [hzero] at halloc
      exact ⟨honly, wrote_full hr.geometry halloc hz⟩
    · -- the new indirect block is attached
      obtain ⟨hz1, hdiff⟩ := halloc.fresh z hz
      obtain ⟨hkept, hfresh⟩ := kept_single halloc.kept.ok hr.geometry (halloc.new hne) hz1 hdiff hzone
      have hset := honly.trans (only_inode rip honly.able
        (update (s.inodes rip).zone nrDzoneNum zq) (s.inodes rip).dirt (s.inodes rip).update)
      have hrest := writeAttached_surely .single zq (hset.mounted hr.toMounted) rfl
        (by rw [viewOf_zone]; exact hkept.kept.ok) (by rw [viewOf_zone]; exact hfresh) trivial he hne (by
          rw [viewOf_zone]
          change update (s.inodes rip).zone nrDzoneNum zq nrDzoneNum = zq
          rw [update_self])
      refine hrest.mono ?_
      rintro r s' ⟨honly', hwrote⟩
      rw [viewOf_zone] at hwrote
      have hattached := halloc.attached hkept trivial hzone
      exact ⟨hset.trans honly', (halloc.kept.trans hkept.kept).wrote hr.geometry hattached hwrote⟩

theorem putWord_self (b : Block) (p : ℕ) : putWord b p (getWord b p) = b := by
  have h1 : getByte b p < 256 := (b p).toNat_lt
  have h2 : getByte b (p + 1) < 256 := (b (p + 1)).toNat_lt
  have hhigh : UInt8.ofNat (getWord b p / 256) = b p := by
    rw [show getWord b p / 256 = (b p).toNat by unfold getWord; unfold getByte at *; omega]
    exact UInt8.ofNat_toNat
  have hlow : UInt8.ofNat (getWord b p) = b (p + 1) := by
    rw [← UInt8.toNat_inj, UInt8.toNat_ofNat']
    unfold getWord
    unfold getByte at *
    omega
  rw [putWord, putByte, putByte, hhigh, hlow, update_eq_self, update_eq_self]

/-- A block that is in use stays so while a zone is allocated. -/
theorem Opened.taken {dev b : ℕ} (h : Opened dev b data bp c) (htaken : ZoneTaken x zq c c')
    (hdev : dev ≠ noDev) (hb : x.firstdatazone * 2 ^ x.logZoneSize ≤ b) :
    Opened dev b data bp c' := by
  have hpos : 0 < (c.buf bp).count := lt_of_le_of_ne (h.nonneg bp) h.used.symm
  have hholds := htaken.lent.holds hpos h.holds
  refine ⟨htaken.coherent, htaken.served h.served, ?_, hholds, ?_⟩
  · exact ne_of_gt (lt_of_lt_of_le hpos (htaken.lent.count_le bp))
  · rw [← htaken.coherent.toLinked.blockAt_held hholds hdev, htaken.others dev b hdev fun _ => hb,
      h.blockAt hdev]

/-- The cache changes. -/
theorem only_cache (rip : InodeId) (hable : Able c) (hlent : Lent none s.cache c) (err : ℤ) :
    Only rip s { s with cache := c, g := { s.g with errCode := err } } where
  frame := by simp only [update_eq_self]
  inode := rfl
  able := hable
  lent := hlent

/-- The entry of the double indirect block `zd`, which is in a buffer, and what is under it; `v` is
    the file with the block as it is there. -/
theorem writeUnder_surely {zd index : ℕ} {c₁ : Cache} (hm : Mounted rip sp s)
    (hopened : Opened (s.inodes rip).dev (firstBlock (s.supers sp).logZoneSize zd) data bp c₁)
    (hlent : Lent (some bp) s.cache c₁) (hv : v = viewOf rip { s with cache := c₁ })
    (hok : v.Ok (s.supers sp)) (hz : v.Fresh (s.supers sp) z)
    (hzd : (s.inodes rip).zone (nrDzoneNum + 1) = zd) (hne : zd ≠ 0) (hindex : index < nrIndirects)
    (he : e < nrIndirects) :
    Surely (if getInd data index ≠ 0 then do
        liftC (putBlock (.to bp) .indirectBlock)
        writeIndirect rip (s.supers sp).logZoneSize (getInd data index) e z false
      else do
        let z' ← allocZone (s.inodes rip).dev ((s.inodes rip).zone 0)
        liftC (dirtyBuf bp fun data => putWord data (2 * index) z')
        liftC (putBlock (.to bp) .indirectBlock)
        if z' = 0 then return (← globals).errCode
        else writeIndirect rip (s.supers sp).logZoneSize z' e z true) { s with cache := c₁ }
      fun r s' => Only rip s s' ∧
        Wrote (s.supers sp) ((Place.ind index).under e) z v (viewOf rip s') r := by
  have hvalid := hm.driver.ne_noDev
  have hblock : v.blocks (firstBlock (s.supers sp).logZoneSize zd) = data := by
    rw [hv]
    exact hopened.blockAt hvalid
  have hdouble : v.izone (nrDzoneNum + 1) = zd := by
    rw [hv]
    exact hzd
  have hentry : v.zone (s.supers sp) (.ind index) = getInd data index := by
    rw [FileView.zone, zoneIn, hdouble, entry, if_neg hne, hblock]
  refine wp_ite (fun hind => ?_) fun hempty => ?_
  · rw [wp_bind, wp_liftC]
    refine Wp.mono (hopened.put hm.able hlent rfl (by simp)) ?_
    rintro _ c₂ ⟨hable, hlent2, hblocks⟩
    have honly : Only rip s { s with cache := c₂ } := only_cache rip hable hlent2 s.g.errCode
    have hview : viewOf rip { s with cache := c₂ } = v := by
      rw [hv, viewOf, viewOf]
      congr 1
      exact funext fun b => hblocks _ b hvalid
    have hr : Ready rip sp { s with cache := c₂ } := ⟨honly.mounted hm, by rw [hview]; exact hok⟩
    have hrest := writeExisting_surely (.ind index) hr (by rw [hview]; exact hz) trivial he
      (by rw [hview, hentry]; exact hind)
    rw [hview, hentry] at hrest
    exact hrest.mono fun r s' h => ⟨honly.trans h.1, h.2⟩
  · rw [not_not] at hempty
    have hlow : (s.supers sp).firstdatazone * 2 ^ (s.supers sp).logZoneSize ≤
        firstBlock (s.supers sp).logZoneSize zd := by
      have hrange : InRange (s.supers sp) zd := by
        rw [← hdouble]
        exact hok.range .double (by rw [zoneIn, hdouble]; exact hne)
      rw [firstBlock_eq hm.geometry hrange]
      exact Nat.mul_le_mul_right _ hrange.1
    rw [wp_bind]
    refine (allocZone_spec (s := { s with cache := c₁ }) hm.super hm.geometry hopened.toCoherent
      (hm.zmap.lent hlent)).mono ?_
    rintro zq s₂ ⟨hframe, herr, htaken⟩
    obtain ⟨c₂, err, rfl⟩ : ∃ c₂ err,
        s₂ = { s with cache := c₂, g := { s.g with errCode := err } } := ⟨_, _, hframe⟩
    have halloc : Allocated (s.supers sp) zq v
        ⟨blockAt c₂ (s.inodes rip).dev, (s.inodes rip).zone⟩ := by
      rw [hv] at hok ⊢
      unfold viewOf at hok ⊢
      rw [← hm.dev_eq] at hok ⊢
      exact htaken.allocated hm.geometry hok
    obtain ⟨hz2, hdiff⟩ := halloc.fresh z hz
    have hopened2 := hopened.taken htaken hvalid hlow
    rw [wp_bind, wp_liftC]
    refine Wp.mono hopened2.dirty ?_
    rintro _ c₃ ⟨hopened3, hlent3, hstored⟩
    rw [wp_bind, wp_liftC]
    refine Wp.mono (hopened3.put hm.able ((hlent.trans htaken.lent).trans hlent3) rfl (by simp)) ?_
    rintro _ c₄ ⟨hable, hlent4, hblocks⟩
    have honly := only_cache rip hable hlent4 err
    have hupdate := (hstored.same hblocks).eq_update hvalid
    refine wp_ite (fun hzero => ?_) fun hnew => ?_
    · -- there is no zone for the indirect block: the entry is 0 as before
      have hsame : blockAt c₄ (s.inodes rip).dev = blockAt c₂ (s.inodes rip).dev := by
        have hdata : putWord data (2 * index) zq = data := by
          rw [hzero, ← hempty]
          exact putWord_self data (2 * index)
        rw [hupdate, hdata, ← hopened2.blockAt hvalid, update_eq_self]
      simp only [wp_bind, wp_globals, wp_pure]
      refine ⟨honly, ?_⟩
      rw [show err = ENOSPC from herr hzero, viewOf]
      dsimp only
      rw [hsame]
      rw [hzero] at halloc
      exact wrote_full hm.geometry halloc hz
    · -- the new indirect block is entered in the double indirect block
      have hempty2 : FileView.zone (s.supers sp) ⟨blockAt c₂ (s.inodes rip).dev, (s.inodes rip).zone⟩
          (.ind index) = 0 := by
        rw [halloc.zones, hentry, hempty]
      obtain ⟨hkept, hfresh⟩ :=
        kept_ind halloc.kept.ok hm.geometry (halloc.new hnew) hz2 hdiff
        (hzd.trans_ne hne) hempty2
      have hrest := writeAttached_surely (.ind index) zq (honly.mounted hm) (z := z) (e := e) ?_
        hkept.kept.ok hfresh trivial he hnew (by rw [hkept.zones, update_self])
      · have hattached := halloc.attached hkept hindex (hentry.trans hempty)
        exact hrest.mono fun r s' h =>
          ⟨honly.trans h.1, (halloc.kept.trans hkept.kept).wrote hm.geometry hattached h.2⟩
      · dsimp only
        rw [hzd, hopened2.blockAt hvalid]
        simp only [viewOf, FileView.write]
        rw [hupdate]

/-- `write_map` for a position that is found through the double indirect block `zd`; `v` is the file
    with the block cleared if it is new. -/
theorem writeDouble_surely (zd index : ℕ) (fresh : Bool) (hm : Mounted rip sp s)
    (hv : v = (viewOf rip s).write (s.supers sp) zd (if fresh then zeroBytes else
      (viewOf rip s).blocks (firstBlock (s.supers sp).logZoneSize zd))) (hok : v.Ok (s.supers sp))
    (hz : v.Fresh (s.supers sp) z) (hzd : (s.inodes rip).zone (nrDzoneNum + 1) = zd) (hne : zd ≠ 0)
    (hindex : index < nrIndirects) (he : e < nrIndirects) :
    Surely (writeDouble rip (s.supers sp).logZoneSize zd index e z fresh) s fun r s' =>
      Only rip s s' ∧ Wrote (s.supers sp) ((Place.ind index).under e) z v (viewOf rip s') r := by
  have hopen := openBlock_spec (b := firstBlock (s.supers sp).logZoneSize zd) hm.able hm.driver fresh
  -- the view of the state in which the block has been obtained
  have hview : ∀ (bp : BufId) (c₁ : Cache),
      Stored (s.inodes rip).dev (firstBlock (s.supers sp).logZoneSize zd) (if fresh then zeroBytes else
        blockAt s.cache (s.inodes rip).dev (firstBlock (s.supers sp).logZoneSize zd)) s.cache c₁ →
      v = viewOf rip { s with cache := c₁ } := by
    intro bp c₁ hstored
    rw [hv]
    simp only [viewOf, FileView.write]
    rw [hstored.eq_update hm.driver.ne_noDev]
  unfold writeDouble Surely
  simp only [wp_bind, wp_readInode, wp_liftC]
  refine Wp.mono hopen fun bp c₁ hclear => ?_
  cases fresh with
  | true =>
    rw [if_pos rfl, wp_bind, wp_liftC]
    refine Wp.mono hclear ?_
    rintro _ c₂ ⟨hopened, hlent, hstored⟩
    rw [wp_bind, wp_liftC, wp_readBuf, hopened.inBuf]
    exact writeUnder_surely hm hopened hlent (hview bp c₂ hstored) hok hz hzd hne hindex he
  | false =>
    obtain ⟨hopened, hlent, hstored⟩ := hclear
    rw [if_neg (by simp), wp_bind, wp_liftC, wp_readBuf, hopened.inBuf]
    exact writeUnder_surely hm hopened hlent (hview bp c₁ hstored) hok hz hzd hne hindex he

/-- The inode has been marked dirty. -/
theorem marked_ready (hr : Ready rip sp s) :
    let s₁ := { s with inodes := update s.inodes rip { s.inodes rip with dirt := true } }
    Only rip s s₁ ∧ viewOf rip s₁ = viewOf rip s ∧ Ready rip sp s₁ := by
  intro s₁
  have honly : Only rip s s₁ := only_inode rip hr.able (s.inodes rip).zone true (s.inodes rip).update
  have hview : viewOf rip s₁ = viewOf rip s := by simp only [s₁, viewOf, update_self]
  refine ⟨honly, hview, honly.mounted hr.toMounted, ?_⟩
  rw [hview]
  exact hr.ok

/-- `write_map`: zone `n₀` of the file. -/
theorem writeMap_surely {position : ℤ} (hr : Ready rip sp s)
    (hz : (viewOf rip s).Fresh (s.supers sp) z)
    (hn0 : (position / blockSize).toNat / 2 ^ (s.supers sp).logZoneSize = n₀)
    (hfits : n₀ < nrDzoneNum + nrIndirects + nrIndirects * nrIndirects) :
    Surely (writeMap rip position z) s fun r s' => Only rip s s' ∧
      Wrote (s.supers sp) n₀ z (viewOf rip s) (viewOf rip s') r := by
  obtain ⟨honly1, hview1, hr1⟩ := marked_ready hr
  unfold writeMap scaleFactor Surely
  simp only [wp_bind, wp_modInode]
  rw [← hview1] at hz ⊢
  rw [← honly1.supers] at hz hn0 ⊢
  generalize { s with
    inodes := update s.inodes rip { s.inodes rip with dirt := true } } = s₁ at *
  rw [wp_readInode, getSuper_spec hr1.super]
  simp only [wp_readSuper, wp_pure]
  rw [hn0]
  suffices Wp (fun _ _ => False) _ s₁ fun r s' => Only rip s₁ s' ∧
      Wrote (s₁.supers sp) n₀ z (viewOf rip s₁) (viewOf rip s') r from
    this.mono fun _ _ h => ⟨honly1.trans h.1, h.2⟩
  clear honly1 hview1 hr
  refine wp_ite (fun hdirect => ?_) fun hindirect => ?_
  · have honly := only_inode rip hr1.able (update (s₁.inodes rip).zone n₀ z)
      (s₁.inodes rip).dirt mtime
    simp only [setZone, wp_bind, wp_modInode, wp_pure, update_self, update_idem]
    refine ⟨honly, ?_⟩
    rw [Wrote, if_pos rfl]
    simp only [viewOf, update_self]
    exact ⟨attached_direct hr1.ok hr1.geometry hdirect,
      entered_direct hr1.ok hr1.geometry hz hdirect⟩
  refine wp_ite (fun hsingle => ?_) fun hdouble => ?_
  · have hwrite := writeSingle_surely hr1 hz hsingle
    rw [Place.under, Nat.add_sub_cancel' (not_lt.mp hindirect)] at hwrite
    exact hwrite
  -- the position is under the double indirect block
  obtain ⟨index, e, hindex, he, hplace, hdiv, hmod⟩ : ∃ index e, index < nrIndirects ∧
      e < nrIndirects ∧ (Place.ind index).under e = n₀ ∧
      (n₀ - nrDzoneNum - nrIndirects) / nrIndirects = index ∧
      (n₀ - nrDzoneNum - nrIndirects) % nrIndirects = e := by
    refine ⟨_, _, ?_, Nat.mod_lt _ (by decide), ?_, rfl, rfl⟩
    · rw [Nat.div_lt_iff_lt_mul (by decide)]
      omega
    · rw [Place.under, Nat.div_add_mod']
      omega
  simp only [wp_bind, wp_readInode]
  rw [hdiv, hmod, ← hplace]
  refine wp_ite (fun hzone => ?_) fun hzone => ?_
  · rw [if_neg (not_le.mpr hindex)]
    have hsame : viewOf rip s₁ = (viewOf rip s₁).write (s₁.supers sp)
        ((s₁.inodes rip).zone (nrDzoneNum + 1)) ((viewOf rip s₁).blocks
          (firstBlock (s₁.supers sp).logZoneSize ((s₁.inodes rip).zone (nrDzoneNum + 1)))) := by
      simp only [FileView.write, update_eq_self]
    exact writeDouble_surely _ index false hr1.toMounted hsame hr1.ok hz rfl hzone hindex he
  · rw [not_not] at hzone
    rw [wp_bind]
    refine (allocZone_surely hr1.toMounted hr1.ok _).mono ?_
    rintro zd _ ⟨⟨c, err, rfl⟩, honly, herr, halloc⟩
    obtain ⟨hz2, hdiff⟩ := halloc.fresh z hz
    refine wp_ite (fun hzero => ?_) fun hne => ?_
    · simp only [wp_bind, wp_globals, wp_pure]
      refine ⟨honly, ?_⟩
      rw [show err = ENOSPC from herr hzero] at halloc ⊢
      rw [hzero] at halloc
      exact wrote_full hr1.geometry halloc hz
    · -- the double indirect block is attached
      obtain ⟨hkept, hfresh⟩ :=
        kept_double halloc.kept.ok hr1.geometry (halloc.new hne) hz2 hdiff hzone
      have hset := honly.trans (only_inode rip honly.able
        (update (s₁.inodes rip).zone (nrDzoneNum + 1) zd) (s₁.inodes rip).dirt
        (s₁.inodes rip).update)
      simp only [wp_bind, setZone, wp_modInode]
      rw [if_neg (not_le.mpr hindex)]
      have hrest := writeDouble_surely zd index true
        (hset.mounted hr1.toMounted) rfl (by rw [viewOf_zone]; exact hkept.kept.ok)
        (by rw [viewOf_zone]; exact hfresh) (by simp only [update_self]) hne hindex he
      refine hrest.mono ?_
      rintro r s' ⟨honly', hwrote⟩
      rw [viewOf_zone] at hwrote
      have hattached := halloc.attached hkept trivial hzone
      exact ⟨hset.trans honly', (halloc.kept.trans hkept.kept).wrote hr1.geometry hattached hwrote⟩

/-! ## §5 `new_block` -/

/-- A zone that is not in the file is given back. -/
theorem freeZone_surely (hr : Ready rip sp s) (hz : (viewOf rip s).Fresh (s.supers sp) z) :
    Surely (freeZone (s.inodes rip).dev z) s fun _ s' =>
      Only rip s s' ∧ Kept (s.supers sp) (viewOf rip s) (viewOf rip s') := by
  refine (freeZone_spec hr.super hr.geometry hr.able.toCoherent hr.zmap hz.range).mono ?_
  rintro _ s' ⟨hframe, hfreed⟩
  obtain ⟨c, rfl⟩ : ∃ c, s' = { s with cache := c } := ⟨_, hframe⟩
  have hable := hr.able.lent hfreed.lent hfreed.coherent
    (hr.able.served.of_dev fun y => .inl (hfreed.sameDev y))
  refine ⟨only_cache rip hable hfreed.lent s.g.errCode, ?_⟩
  have hok := hr.ok
  unfold viewOf at hok ⊢
  rw [← hr.dev_eq] at hok ⊢
  refine (kept_map (v := ⟨blockAt s.cache (s.supers sp).dev, (s.inodes rip).zone⟩) _ hok hr.geometry
    (fun b hb => hfreed.others _ b hr.geometry.dev fun _ => hb) fun p hp hbusy => ?_).1
  refine hfreed.kept _ (hok.range p hp).1 (fun heq => ?_) hbusy
  have hnew := hz.new p
  unfold viewOf at hnew
  rw [← hr.dev_eq] at hnew
  exact hnew heq

/-- What becomes of a file that is to have a block at position `n`, where there is no zone. -/
def Extended (x : Super) (n : ℕ) (v v' : FileView) (err : ℤ) : Option ℕ → Prop
  | none => Kept x v v' ∧ err ≠ OK
  | some b => b = v'.block x n ∧ ∃ z, z ≠ 0 ∧ Entered x (n / 2 ^ x.logZoneSize) z v v'

theorem blockPos_eq (n : ℕ) : (((n * blockSize : ℕ) : ℤ) / blockSize).toNat = n := by
  unfold blockSize
  omega

/-- The place of a block in its zone. -/
theorem blockInZone_eq (n k : ℕ) :
    (((n * blockSize : ℕ) : ℤ) % (blockSize * 2 ^ k) / blockSize).toNat = n % 2 ^ k := by
  have hnat : n * blockSize % (blockSize * 2 ^ k) / blockSize = n % 2 ^ k := by
    rw [Nat.mul_comm blockSize, Nat.mul_mod_mul_right, Nat.mul_div_cancel _ (by decide)]
  rw [← hnat]
  norm_cast

/-- `new_block` at the end of the file: a zone is allocated and entered. -/
theorem enterZone_surely (hr : Ready rip sp s) (hsize : (s.inodes rip).size = (n * blockSize : ℕ))
    (hfits : n / 2 ^ (s.supers sp).logZoneSize < nrDzoneNum + nrIndirects + nrIndirects * nrIndirects)
    (near : ℕ) :
    Surely (do
      let z ← allocZone (s.inodes rip).dev near
      if z = 0 then return none
      else
        let r ← writeMap rip (n * blockSize : ℕ) z
        if r ≠ OK then
          freeZone (s.inodes rip).dev z
          setErr r
          return none
        else
          if ((n * blockSize : ℕ) : ℤ) ≠ (← readInode rip).size then
            clearZone rip (n * blockSize : ℕ) true
          let scale ← scaleFactor rip
          let zoneSize : ℤ := blockSize * 2 ^ scale
          return some (toShort (z * 2 ^ scale +
            (((n * blockSize : ℕ) : ℤ) % zoneSize / blockSize).toNat)))
      s fun r s' => Only rip s s' ∧
        Extended (s.supers sp) n (viewOf rip s) (viewOf rip s') s'.g.errCode r := by
  have hzone : (((n * blockSize : ℕ) : ℤ) / blockSize).toNat / 2 ^ (s.supers sp).logZoneSize =
      n / 2 ^ (s.supers sp).logZoneSize := by
    rw [blockPos_eq]
  rw [Surely, wp_bind]
  refine (allocZone_surely hr.toMounted hr.ok near).mono ?_
  rintro z _ ⟨⟨c, err, rfl⟩, honly, herr, halloc⟩
  refine wp_ite (fun hzero => ?_) fun hne => ?_
  · refine ⟨honly, halloc.kept, ?_⟩
    rw [herr hzero]
    decide
  rw [wp_bind]
  refine (writeMap_surely ⟨honly.mounted hr.toMounted, halloc.kept.ok⟩ (halloc.new hne) hzone
    hfits).mono ?_
  rintro r s₂ ⟨honly2, hwrote⟩
  have honly' := honly.trans honly2
  have hm2 := honly'.mounted hr.toMounted
  have hsupers : s₂.supers = s.supers := honly'.supers
  refine wp_ite (fun hfailed => ?_) fun hok => ?_
  · -- there is no place for the zone
    rw [Wrote, if_neg hfailed] at hwrote
    obtain ⟨-, hkept, hfresh⟩ := hwrote
    have hfree := freeZone_surely (s := s₂) (z := z) ⟨hm2, by rw [hsupers]; exact hkept.ok⟩
      (by rw [hsupers]; exact hfresh)
    rw [honly'.dev, hsupers] at hfree
    rw [wp_bind]
    refine Wp.mono hfree ?_
    rintro _ s₃ ⟨honly3, hkept3⟩
    simp only [wp_bind, wp_setErr, wp_pure]
    refine ⟨(honly'.trans honly3).trans (only_cache rip honly3.able (.refl _) r), ?_, hfailed⟩
    exact (halloc.kept.trans hkept).trans hkept3
  · rw [not_not] at hok
    rw [Wrote, if_pos hok] at hwrote
    replace hwrote := hwrote.2
    have hend : ((n * blockSize : ℕ) : ℤ) = (s₂.inodes rip).size := by
      rw [honly'.inode, ← hsize]
    have hzone : (viewOf rip s₂).zone (s.supers sp) (.data (n / 2 ^ (s.supers sp).logZoneSize)) = z := by
      rw [hwrote.zones, if_pos rfl]
    unfold scaleFactor
    rw [wp_bind, wp_readInode, if_neg (not_not.mpr hend)]
    simp only [wp_bind, wp_readInode]
    rw [getSuper_spec hm2.super]
    simp only [wp_readSuper, wp_pure, hsupers]
    rw [blockInZone_eq]
    refine ⟨honly', ?_, z, hne, halloc.kept.entered hwrote⟩
    rw [FileView.block, blockNr, if_neg]
    all_goals rw [show zoneIn (viewOf rip s₂).blocks _ _ _ = z from hzone]
    exact hne

theorem newZone_surely (hr : Ready rip sp s) (hsize : (s.inodes rip).size = (n * blockSize : ℕ))
    (hfits : n / 2 ^ (s.supers sp).logZoneSize < nrDzoneNum + nrIndirects + nrIndirects * nrIndirects) :
    Surely (newZone rip (n * blockSize : ℕ)) s fun r s' => Only rip s s' ∧
      Extended (s.supers sp) n (viewOf rip s) (viewOf rip s') s'.g.errCode r := by
  unfold newZone Surely
  simp only [wp_bind, wp_readInode]
  refine wp_ite (fun _ => ?_) fun _ => ?_
  · rw [wp_bind, getSuper_spec hr.super]
    simp only [wp_bind, wp_readSuper, wp_pure]
    have hzone := enterZone_surely hr hsize hfits (s.supers sp).firstdatazone
    rwa [Surely, wp_bind] at hzone
  · rw [wp_bind, wp_pure]
    exact enterZone_surely hr hsize hfits ((s.inodes rip).zone 0)

/-- A file that has a block at position `n`; its other blocks are as they were. -/
structure Grown (x : Super) (n : ℕ) (v v' : FileView) : Prop where
  ok : v'.Ok x
  block : v'.block x n ≠ 0
  same : ∀ m, v.block x m ≠ 0 → v'.block x m = v.block x m
  blocks : ∀ m, v.block x m ≠ 0 → v'.blocks (v.block x m) = v.blocks (v.block x m)

theorem block_kept (hok : v.Ok x) (hg : Geometry x) (hkept : DataKept x v v') {m : ℕ}
    (hm : v.block x m ≠ 0) : v'.blocks (v.block x m) = v.blocks (v.block x m) := by
  have hz := (hok.blockNr_eq_zero hg).not.mp hm
  exact hkept _ _ hz (hok.blockNr_div hg hz)

theorem block_same {m : ℕ}
    (h : v'.zone x (.data (m / 2 ^ x.logZoneSize)) = v.zone x (.data (m / 2 ^ x.logZoneSize))) :
    v'.block x m = v.block x m := by
  unfold FileView.block blockNr
  rw [show zoneIn v'.blocks v'.izone x.logZoneSize _ = zoneIn v.blocks v.izone x.logZoneSize _ from h]

theorem Entered.grown (hok : v.Ok x) (hg : Geometry x) (hz : z ≠ 0) (hempty : v.block x n = 0)
    (h : Entered x (n / 2 ^ x.logZoneSize) z v v') : Grown x n v v' := by
  have hhole := (hok.blockNr_eq_zero hg).mp hempty
  refine ⟨h.ok, ?_, fun m hm => block_same ?_, fun m => block_kept hok hg h.kept⟩
  · refine (h.ok.blockNr_eq_zero hg).not.mpr ?_
    rw [show zoneIn v'.blocks v'.izone x.logZoneSize _ = _ from h.zones _, if_pos rfl]
    exact hz
  · rw [h.zones, if_neg]
    intro heq
    have hm' := (hok.blockNr_eq_zero hg).not.mp hm
    rw [heq] at hm'
    exact hm' hhole

/-- A block of the device is in a buffer that has been obtained since `s`, with new data. -/
structure Held (rip : InodeId) (b : ℕ) (data : Block) (bp : BufId) (s s' : FsState) : Prop where
  frame : s' = { s with cache := s'.cache }
  opened : Opened (s.inodes rip).dev b data bp s'.cache
  lent : Lent (some bp) s.cache s'.cache
  stored : Stored (s.inodes rip).dev b data s.cache s'.cache

theorem getBlock_held (hm : Mounted rip sp s) (b : ℕ) :
    Surely (liftC (getBlock (s.inodes rip).dev b .normal)) s fun bp s' =>
      Held rip b ((viewOf rip s).blocks b) bp s s' := by
  rw [Surely, wp_liftC]
  refine Wp.mono (openBlock_spec hm.able hm.driver false) ?_
  rintro bp c ⟨hopened, hlent, hstored⟩
  exact ⟨rfl, hopened, hlent, hstored⟩

/-- `new_block` at the end of a file. -/
theorem newBlock_surely (hr : Ready rip sp s) (hsize : (s.inodes rip).size = (n * blockSize : ℕ))
    (hfits : n / 2 ^ (s.supers sp).logZoneSize < nrDzoneNum + nrIndirects + nrIndirects * nrIndirects) :
    Surely (newBlock rip (n * blockSize : ℕ)) s fun r s' => match r with
      | none => Only rip s s' ∧ Kept (s.supers sp) (viewOf rip s) (viewOf rip s') ∧ s'.g.errCode ≠ OK
      | some bp => ∃ s₁, Only rip s s₁ ∧ Grown (s.supers sp) n (viewOf rip s) (viewOf rip s₁) ∧
        Held rip ((viewOf rip s₁).block (s.supers sp) n) zeroBytes bp s₁ s' := by
  -- the block is in the file: it is cleared
  have hclear : ∀ s₁, Only rip s s₁ → Grown (s.supers sp) n (viewOf rip s) (viewOf rip s₁) →
      Surely (do
        let dev := (← readInode rip).dev
        let bp ← liftC (getBlock dev ((viewOf rip s₁).block (s.supers sp) n) .noRead)
        liftC (zeroBlock bp)
        return some bp) s₁ fun r s' => ∃ bp, r = some bp ∧
          Held rip ((viewOf rip s₁).block (s.supers sp) n) zeroBytes bp s₁ s' := by
    intro s₁ honly hgrown
    have hm1 := honly.mounted hr.toMounted
    simp only [Surely, wp_bind, wp_readInode, wp_liftC]
    refine Wp.mono (openBlock_spec hm1.able hm1.driver true) fun bp c hzero => ?_
    refine Wp.mono hzero ?_
    rintro _ c' ⟨hopened, hlent, hstored⟩
    exact ⟨bp, rfl, rfl, hopened, hlent, hstored⟩
  unfold newBlock Surely
  simp only [wp_bind]
  refine (readMap_surely hr.toMounted (by positivity)).mono ?_
  rintro b s₁ ⟨rfl, hcalm⟩
  rw [blockPos_eq]
  have honly := hcalm.only rip
  have hview := hcalm.view hr.driver
  have hr1 := hcalm.ready hr
  refine wp_ite (fun hempty => ?_) fun hblock => ?_
  · rw [wp_bind]
    refine (newZone_surely hr1 (by rw [honly.inode, ← hsize]) (by rw [honly.supers]; exact hfits)).mono ?_
    rintro r s₂ ⟨honly2, hextended⟩
    rw [honly.supers, hview] at hextended
    cases r with
    | none => exact ⟨honly.trans honly2, hextended⟩
    | some b =>
      obtain ⟨rfl, z, hz, hentered⟩ := hextended
      have hgrown := hentered.grown hr.ok hr.geometry hz hempty
      refine (hclear s₂ (honly.trans honly2) hgrown).mono ?_
      rintro _ s' ⟨bp, rfl, hheld⟩
      exact ⟨s₂, honly.trans honly2, hgrown, hheld⟩
  · have hgrown : Grown (s.supers sp) n (viewOf rip s) (viewOf rip s₁) := by
      rw [hview]
      exact ⟨hr.ok, hblock, fun _ _ => rfl, fun _ _ => rfl⟩
    have hfound := hclear s₁ honly hgrown
    rw [hview] at hfound
    refine hfound.mono ?_
    rintro _ s' ⟨bp, rfl, hheld⟩
    refine ⟨s₁, honly, hgrown, ?_⟩
    rw [hview]
    exact hheld

end

/-! ## §6 Blocks That Are Written -/

section

variable {x : Super} {v : FileView} {m : ℕ}

/-- A block of data of the file is changed: the zones are the same. -/
theorem write_block_zone (hok : v.Ok x) (hg : Geometry x) {b p : ℕ} (data : Block)
    (hp : v.zone x (.data p) ≠ 0) (hb : b / 2 ^ x.logZoneSize = v.zone x (.data p)) :
    let v' : FileView := { v with blocks := update v.blocks b data }
    v'.Ok x ∧ v'.zone x = v.zone x := by
  intro v'
  have hrange : InRange x (v.zone x (.data p)) := hok.range _ hp
  have hlow : x.firstdatazone * 2 ^ x.logZoneSize ≤ b := by
    calc x.firstdatazone * 2 ^ x.logZoneSize ≤ v.zone x (.data p) * 2 ^ x.logZoneSize :=
        Nat.mul_le_mul_right _ hrange.1
      _ = b / 2 ^ x.logZoneSize * 2 ^ x.logZoneSize := by rw [hb]
      _ ≤ b := Nat.div_mul_le_self ..
  have hkept : KeptOutside x (· = v.zone x (.data p)) v.blocks v'.blocks := by
    intro b' _ hb'
    apply update_of_ne
    rintro rfl
    exact hb' hb
  -- no indirect block is in a zone of data
  have hentry : ∀ q : Place, (∀ n, q ≠ .data n) → ∀ i,
      entry v'.blocks x.logZoneSize (v.zone x q) i = entry v.blocks x.logZoneSize (v.zone x q) i := by
    intro q hq
    apply hok.entry_other hg hkept
    exact fun hne heq => hq p (hok.inj q (.data p) hne heq)
  have hplace : ∀ q : Place, (∀ n, q ≠ .data n) → v'.zone x q = v.zone x q := by
    intro q hq
    cases q with
    | data n => exact absurd rfl (hq n)
    | single | double => rfl
    | ind k => exact hentry .double (by simp) k
  have hzones : v'.zone x = v.zone x := by
    funext q
    cases q with
    | single | double | ind => exact hplace _ (by simp)
    | data n =>
      apply zoneIn_data_ext (fun _ => rfl)
      rintro q e hq he rfl
      have hq' : ∀ n, q ≠ .data n := by
        rintro n rfl
        exact hq
      rw [show zoneIn v'.blocks v'.izone x.logZoneSize q = v.zone x q from hplace q hq']
      exact hentry q hq' e
  have hzone : ∀ q, zoneIn v'.blocks v'.izone x.logZoneSize q = v.zone x q := congrFun hzones
  refine ⟨⟨fun q => ?_, fun q => ?_, fun q q' => ?_⟩, hzones⟩
  · rw [hzone]
    exact hok.range q
  · rw [hzone]
    intro hne
    refine (zoneBusy_congr hg (hok.range q hne) fun b' hb' => ?_).trans (hok.busy q hne)
    exact update_of_ne (by omega) ..
  · rw [hzone, hzone]
    exact hok.inj q q'

/-- A data block of the file is written. -/
def FileView.writeBlock (x : Super) (v : FileView) (m : ℕ) (data : Block) : FileView :=
  { v with blocks := update v.blocks (v.block x m) data }

theorem writeBlock_spec (hok : v.Ok x) (hg : Geometry x) (hm : v.block x m ≠ 0) (data : Block) :
    (v.writeBlock x m data).Ok x ∧ (∀ n, (v.writeBlock x m data).block x n = v.block x n) ∧
      (v.writeBlock x m data).blocks (v.block x m) = data ∧
      ∀ n, v.block x n ≠ 0 → n ≠ m →
        (v.writeBlock x m data).blocks (v.block x n) = v.blocks (v.block x n) := by
  have hz := (hok.blockNr_eq_zero hg).not.mp hm
  obtain ⟨hok', hzones⟩ := write_block_zone hok hg data hz (hok.blockNr_div hg hz)
  refine ⟨hok', fun n => block_same ?_, update_self .., fun n hn hne => ?_⟩
  · exact congrFun hzones _
  · apply update_of_ne
    exact fun heq => hne (hok.blockNr_inj hg hn heq)

end

end LisaMinix.Fs.Server
