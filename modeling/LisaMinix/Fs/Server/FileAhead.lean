import LisaMinix.Fs.Server.ReadAhead
import LisaMinix.Fs.Server.NewBlocks

/-!
# Read Ahead in Regular Files

While the queue of `rahead` grows, `read_map` is called for every block to come, and brings indirect
blocks in by the ordinary way.  An indirect block is in no place of data, so it is never in the queue.

- `Borrowed`: a cache in which blocks are as they were, whoever uses them now.
- `zoneOf_visits`: `read_map` uses indirect blocks of the file only.
- `rahead_file`: `rahead` returns the block, changes no block and gives all other buffers back.
-/

namespace LisaMinix.Fs.Server

open LisaMinix.Library Function

/-! ## §1 Blocks Are as They Were -/

/-- Since `c₀` buffers have been obtained, and no more have been given back; no block has changed. -/
structure Borrowed (c₀ c : Cache) : Prop where
  coherent : Coherent none c
  blocks : SameBlocks c₀ c
  drive : SameDrive c₀ c
  count : ∀ x, (c₀.buf x).count ≤ (c.buf x).count
  held : ∀ x, 0 < (c₀.buf x).count →
    (c.buf x).dev = (c₀.buf x).dev ∧ (c.buf x).blocknr = (c₀.buf x).blocknr

section

variable {c₀ c c' : Cache} {bp : BufId} {dev b : ℕ} {search : Search}

theorem Borrowed.refl (h : Coherent none c) : Borrowed c c :=
  ⟨h, .refl c, ⟨rfl, rfl⟩, fun _ => le_rfl, fun _ _ => ⟨rfl, rfl⟩⟩

theorem Borrowed.lent (h : Borrowed c₀ c) {o : Option BufId} (hlent : Lent o c c')
    (hc : Coherent none c') (hblocks : SameBlocks c c') : Borrowed c₀ c' where
  coherent := hc
  blocks := h.blocks.trans hblocks
  drive := h.drive.trans hlent.drive
  count x := (h.count x).trans (hlent.count_le x)
  held x hx := by
    have hnext := hlent.held x (lt_of_lt_of_le hx (h.count x))
    rw [hnext.1, hnext.2]
    exact h.held x hx

/-- A buffer that has been obtained since is given back. -/
theorem Borrowed.put (h : Borrowed c₀ c) (hmore : (c₀.buf bp).count < (c.buf bp).count)
    (hput : Put bp c c') (hc : Coherent none c') (hblocks : SameBlocks c c') : Borrowed c₀ c' where
  coherent := hc
  blocks := h.blocks.trans hblocks
  drive := h.drive.trans hput.drive
  count x := by
    rw [hput.count]
    rcases eq_or_ne x bp with rfl | hx
    · rw [if_pos rfl]
      omega
    · rw [if_neg hx, sub_zero]
      exact h.count x
  held x hx := by
    have hcount := h.count x
    have hstays : (c.buf x).count ≠ if x = bp then 1 else 0 := by
      rcases eq_or_ne x bp with rfl | hne
      · rw [if_pos rfl]
        omega
      · rw [if_neg hne]
        omega
    obtain ⟨hdev, hnr, -⟩ := hput.held x hstays
    rw [hdev, hnr]
    exact h.held x hx

/-- A buffer without a device is obtained, or a block that was in the cache. -/
theorem getBlock_void (hc : Coherent none c) (hvoid : search = .prefetch ∨ dev = noDev) :
    ReturnsC (getBlock dev b search) c fun bp c' =>
      Coherent none c' ∧ SameBlocks c c' ∧ Got bp c c' := by
  cases hfound : searchHash c dev b with
  | some bp =>
    refine (getBlock_found hc hfound).mono ?_
    rintro _ c' ⟨rfl, hgot, hc', hblocks⟩
    exact ⟨hc', hblocks, hgot.got⟩
  | none =>
    have hdev : (if search = .prefetch then noDev else dev) = noDev := by
      rcases hvoid with rfl | rfl
      · exact if_pos rfl
      · exact ite_self _
    refine getBlock_taken hfound fun bp hfree => takeBuf_rule hc.toLinked fun c₁ hcleaned => ?_
    obtain ⟨hc1, hblocks, hspare, hsame, hdrive⟩ := hcleaned.spec hc hfree
    have hskip : ¬(dev ≠ noDev ∧ search = .normal) := by
      rcases hvoid with rfl | rfl
      · exact fun h => absurd h.2 (by decide)
      · exact fun h => h.1 rfl
    rw [hdev, if_neg hskip]
    simp only [wp_pure]
    have hgrab := @grab_coherent c₁ bp noDev b hc1 hspare fun h => absurd rfl h
    refine ⟨⟨hgrab.toLinked, hgrab.drives, by simp, fun x _ hvalid => ?_⟩, ?_,
      ⟨fun x hx => ?_, fun x => ?_, hdrive⟩⟩
    · apply hgrab.clean x ?_ hvalid
      rintro ⟨rfl⟩
      exact absurd (by simp [grab]) hvalid
    · intro d b' hd
      rw [grab_blocks hc1 hspare (fun h => absurd rfl h) hd fun h => hd h.1]
      exact hblocks d b' hd
    · have hne : x ≠ bp := by
        rintro rfl
        exact hx hfree
      rw [grab_other hne]
      exact (hsame x).2
    · rcases eq_or_ne x bp with rfl | hx
      · simp [grab, (hsame x).1]
      · simp [grab, hx, (hsame x).1]

end

/-! ## §2 What `read_map` Brings In -/

/-- The first block of an indirect zone of the file. -/
def IsMapBlock (B : ℕ → Block) (izone : ℕ → ℕ) (scale b : ℕ) : Prop :=
  ∃ p : Place, (∀ n, p ≠ .data n) ∧ zoneIn B izone scale p ≠ 0 ∧ b = firstBlock scale (zoneIn B izone scale p)

section

variable {c c' c'' : Cache} {dev b scale : ℕ} {P V : ℕ → Prop} {izone : ℕ → ℕ}

theorem Visits.trans (h : Visits dev P c c') (h' : Visits dev P c' c'') : Visits dev P c c'' where
  linked := h'.linked
  count x := (h'.count x).trans (h.count x)
  held x hx := by
    obtain ⟨hnr, hsame⟩ := h.held x hx
    obtain ⟨hnr', hsame'⟩ := h'.held x (by rwa [h.count])
    refine ⟨hnr'.trans hnr, ?_⟩
    rcases hsame' with hdev' | hnone
    · rw [hdev']
      exact hsame
    · exact .inr hnone
  new x d b hd hx := by
    rcases h'.new x d b hd hx with hold | hnew
    · exact h.new x d b hd hold
    · exact .inr hnew
  evolves := h.evolves.trans h'.evolves
  quiet d b hd hnot hnone := by
    have hnone' : ∀ x, ¬Holds c' x d b := by
      intro x hx
      rcases h.new x d b hd hx with hold | hnew
      · exact hnone x hold
      · exact hnot hnew
    rw [h'.quiet d b hd hnot hnone', h.quiet d b hd hnot hnone]

theorem indirectEntry_visits {i : ℕ} (hc : Linked c) (hV : V b) :
    ReturnsC (indirectEntry dev b i) c fun _ c' => Visits dev V c c' := by
  unfold indirectEntry
  rw [ReturnsC, wp_bind]
  refine Wp.mono (getBlock_fetched hc) fun bp c₁ hf => ?_
  have hused : (c₁.buf bp).count ≠ 0 := by
    have hnonneg := hc.nonneg bp
    rw [hf.count, if_pos rfl]
    omega
  simp only [wp_bind, wp_readBuf, putBlock]
  refine Wp.mono (putBuf_counted hf.linked hused rfl (by decide)) ?_
  rintro _ c' ⟨hcounted, hwrites⟩
  exact hf.visits hc (by decide) hcounted hwrites (.inr hV)

/-- The zones that are looked into on the way are the indirect ones. -/
theorem zoneOf_visits {zone : ℕ} (hc : Able c) (hdev : HasDriver dev) :
    ReturnsC (zoneOf dev izone scale zone) c fun _ c' =>
      Visits dev (IsMapBlock (blockAt c dev) izone scale) c c' := by
  have hstay : Visits dev (IsMapBlock (blockAt c dev) izone scale) c c := .refl hc.toLinked
  -- an entry of an indirect block is read
  have hread : ∀ p : Place, (∀ n, p ≠ .data n) → zoneIn (blockAt c dev) izone scale p ≠ 0 →
      ∀ c₁, Linked c₁ → ∀ i, ReturnsC
        (indirectEntry dev (toShort (zoneIn (blockAt c dev) izone scale p * 2 ^ scale)) i) c₁ fun _ c' =>
          Visits dev (IsMapBlock (blockAt c dev) izone scale) c₁ c' :=
    fun p hp hz c₁ hc1 i => indirectEntry_visits hc1 ⟨p, hp, hz, rfl⟩
  unfold zoneOf ReturnsC
  refine wp_ite (fun _ => hstay) fun _ => wp_ite (fun _ => ?_) fun _ => ?_
  · refine wp_ite (fun _ => hstay) fun hsingle => ?_
    exact hread .single (by simp) hsingle c hc.toLinked _
  · refine wp_ite (fun _ => hstay) fun hdouble => ?_
    dsimp only
    generalize zone - nrDzoneNum - nrIndirects = e
    have hspec := Surely.and (indirectEntry_surely (i := e / nrIndirects) hc hdev)
      (hread .double (by simp) hdouble c hc.toLinked (e / nrIndirects))
    rw [wp_bind]
    refine Wp.mono' hspec (fun _ _ h => h.elim) ?_
    rintro z c₁ ⟨⟨hz, hc1, -⟩, hvisits⟩
    obtain rfl : z = zoneIn (blockAt c dev) izone scale (.ind (e / nrIndirects)) :=
      hz.trans (if_neg hdouble).symm
    refine wp_ite (fun _ => hvisits) fun hind => ?_
    exact (hread (.ind (e / nrIndirects)) (by simp) hind c₁ hc1.toLinked _).mono fun _ c' h => hvisits.trans h

end

/-! ## §3 The Queue Is Read -/

/-- A buffer of the queue has got its block from a disk that works. -/
def filled (dev : ℕ) (bp : BufId) (c : Cache) : Cache :=
  { c with
    tick := c.tick + 1
    buf := update c.buf bp { c.buf bp with data := c.disk dev (c.buf bp).blocknr, dev := dev } }

section

variable {dev b₀ : ℕ} {c₀ c c' : Cache} {l : List BufId} {bp : BufId}

theorem filled_filled : Filled dev bp c (filled dev bp c) :=
  ⟨rfl, rfl, rfl, rfl, rfl, fun _ hx => update_of_ne hx .., by simp [filled], by simp [filled],
    .inl (by simp [filled])⟩

theorem Borrowed.fill (h : Borrowed c₀ c) (hq : Pending dev b₀ c₀ (bp :: l) c) (hdev : dev ≠ noDev) :
    Borrowed c₀ (filled dev bp c) := by
  have hmem : bp ∈ bp :: l := List.mem_cons_self
  have hfresh := hq.fresh bp hmem
  have hlinked := filled_filled.linked hq.linked hfresh
  have hother : ∀ x, x ≠ bp → (filled dev bp c).buf x = c.buf x := fun x hx => update_of_ne hx ..
  have hself : (filled dev bp c).buf bp =
      { c.buf bp with data := c.disk dev (c.buf bp).blocknr, dev := dev } := update_self ..
  refine ⟨⟨hlinked, h.coherent.drives, by simp, fun x _ hvalid hclean => ?_⟩, fun d b hd => ?_, h.drive,
    fun x => ?_, fun x hx => ?_⟩
  · rcases eq_or_ne x bp with rfl | hx
    · rw [hself]
      rfl
    · rw [hother x hx] at hvalid hclean ⊢
      exact h.coherent.clean x (by simp) hvalid hclean
  · rw [← h.blocks d b hd]
    rcases Classical.em (d = dev ∧ b = (c.buf bp).blocknr) with hnew | hold
    · -- the block has come from the disk, where it was before
      obtain ⟨rfl, rfl⟩ := hnew
      have hholds : Holds (filled d bp c) bp d (c.buf bp).blocknr := by
        rw [Holds, hself]
        exact ⟨rfl, rfl⟩
      rw [hlinked.blockAt_held hholds hd, hself, blockAt_absent hfresh]
    · apply hq.linked.blockAt_congr hlinked hd
      · intro x
        rcases eq_or_ne x bp with rfl | hx
        · refine iff_of_false ?_ fun hx => hd (hx.1.symm.trans (hq.void x hmem))
          rw [Holds, hself]
          exact fun hx => hold ⟨hx.1.symm, hx.2.symm⟩
        · rw [Holds, Holds, hother x hx]
      · intro x hx
        rw [hother x]
        rintro rfl
        exact hd (hx.1.symm.trans (hq.void x hmem))
      · exact fun _ => rfl
  · refine (h.count x).trans (le_of_eq ?_)
    exact (filled_filled.same x).1.symm
  · have hne : x ≠ bp := by
      rintro rfl
      have hidle := hq.idle x hmem
      omega
    rw [hother x hne]
    exact h.held x hx

theorem harvestAll_borrowed (h0 : Linked c₀) (hdev : HasDriver dev) (hq : Pending dev b₀ c₀ l c)
    (h : Borrowed c₀ c) :
    SurelyC (harvestAll dev .reading l) c fun _ c' => Pending dev b₀ c₀ [] c' ∧ Borrowed c₀ c' := by
  induction l generalizing c with
  | nil => exact ⟨hq, h⟩
  | cons bp l ih =>
    have hfilled := h.fill hq hdev.ne_noDev
    have hlinked1 : Linked (filled dev bp c) := hfilled.coherent.toLinked
    have hserved1 : Served (filled dev bp c) := by
      intro x hx
      rcases filled_filled.holds hx ⟨rfl, rfl⟩ with ⟨-, hd, -⟩ | ⟨-, hold⟩
      · rw [hd]
        exact hdev
      · rw [← hold.1] at hx ⊢
        exact hq.served x hx
    have hmore : (c₀.buf bp).count < ((filled dev bp c).buf bp).count := by
      rw [(filled_filled.same bp).1, hq.count, if_pos List.mem_cons_self]
      omega
    have hused : ((filled dev bp c).buf bp).count ≠ 0 := by
      have hnonneg := h0.nonneg bp
      omega
    have hserves : SurelyC (putBuf bp .partialDataBlock) (filled dev bp c) fun _ c' => Served c' :=
      putBuf_surely rfl (by decide) hserved1
    have hput := Surely.and hserves
      ((putBuf_counted hlinked1 hused rfl (by decide)).and (putBuf_spec hfilled.coherent hused))
    unfold harvestAll SurelyC
    simp only [transfer, wp_bind, wp_nextAnswer, wp_get, wp_modBuf]
    rw [if_pos (h.coherent.drives c.tick), if_pos (h.coherent.drives c.tick)]
    simp only [wp_bind, wp_modBuf, update_self, update_idem]
    refine Wp.mono hput ?_
    rintro _ c' ⟨hserved', ⟨hcounted, hwrites⟩, hc', hblocks', hput'⟩
    exact ih (hq.fill h0 hdev.ne_noDev filled_filled hcounted hwrites hserved')
      (hfilled.put hmore hput' hc' hblocks')

end

/-! ## §4 `rahead` -/

section

variable {rip : InodeId} {sp : SuperId} {s : FsState} {position bytesAhead : ℤ}

/-- The zones that hold the map of a file hold none of its data. -/
theorem block_not_map (hr : Ready rip sp s) (n : ℕ) :
    ¬IsMapBlock (viewOf rip s).blocks (viewOf rip s).izone (s.supers sp).logZoneSize
      ((viewOf rip s).block (s.supers sp) n) := by
  rintro ⟨p, hp, hz, hblock⟩
  have hrange := hr.ok.range p hz
  have hdiv := firstBlock_div hr.geometry hrange
  rw [← hblock] at hdiv
  rcases eq_or_ne ((viewOf rip s).block (s.supers sp) n) 0 with hnone | hsome
  · rw [hnone, Nat.zero_div] at hdiv
    exact hz hdiv.symm
  · have hdata := (hr.ok.blockNr_eq_zero hr.geometry).not.mp hsome
    have hzone := hr.ok.blockNr_div hr.geometry hdata
    exact hp _ (hr.ok.inj p _ hz (hdiv.symm.trans hzone))

theorem Borrowed.view {c : Cache} (h : Borrowed s.cache c) (hdev : HasDriver (s.inodes rip).dev) :
    blockAt c (s.inodes rip).dev = (viewOf rip s).blocks :=
  funext fun b => h.blocks _ b hdev.ne_noDev

/-- `read_map` for a block position is the search for its zone. -/
theorem readMap_zone {n : ℕ} {Q : ℕ → FsState → Prop}
    (hsuper : firstId (fun sp => (s.supers sp).dev = (s.inodes rip).dev) = some sp)
    (h : SurelyC (zoneOf (s.inodes rip).dev (s.inodes rip).zone (s.supers sp).logZoneSize
        (n / 2 ^ (s.supers sp).logZoneSize)) s.cache fun z c' =>
      Q (if z = 0 then 0 else
        toShort (z * 2 ^ (s.supers sp).logZoneSize + n % 2 ^ (s.supers sp).logZoneSize))
        { s with cache := c' }) :
    Surely (readMap rip (n * blockSize)) s Q := by
  have hpos : (0 : ℤ) ≤ n * blockSize := mul_nonneg (Int.natCast_nonneg n) (Int.natCast_nonneg _)
  have hn : ((n : ℤ) * blockSize / blockSize).toNat = n := by
    rw [Int.mul_ediv_cancel _ (by decide), Int.toNat_natCast]
  unfold readMap scaleFactor Surely
  simp only [wp_bind, wp_readInode]
  rw [getSuper_spec hsuper]
  simp only [wp_readSuper, wp_pure]
  rw [if_neg (by unfold blockSize at *; omega), hn]
  simp only [wp_bind, wp_liftC]
  refine Wp.mono h fun z c' hQ => ?_
  refine wp_ite (fun hz => ?_) fun hz => ?_
  · rwa [if_pos hz] at hQ
  · rwa [if_neg hz] at hQ

/-- The map of a regular file, as the loop of `rahead` looks into it. -/
theorem looks_file (n₀ : ℕ) (hr : Ready rip sp s) (hfile : (s.inodes rip).blockSpec = false)
    (hsize : (s.inodes rip).size ≤ 2 ^ 31 - blockSize) :
    Looks (aheadArgs rip (s.inodes rip)) (Borrowed s.cache)
      (IsMapBlock (viewOf rip s).blocks (viewOf rip s).izone (s.supers sp).logZoneSize)
      ((viewOf rip s).block (s.supers sp)) n₀ s := by
  have hdev : (aheadArgs rip (s.inodes rip)).dev = (s.inodes rip).dev := by simp [aheadArgs, hfile]
  have hsize' : (aheadArgs rip (s.inodes rip)).fileSize = (s.inodes rip).size := by simp [aheadArgs, hfile]
  constructor
  case driver => rw [hdev]; exact hr.driver
  case fetch =>
    intro c b hP
    refine (getBlock_void hP.coherent (.inl rfl)).mono ?_
    rintro bp c' ⟨hc', hblocks, hgot⟩
    exact hP.lent ((Lent.refl c).got hgot) hc' hblocks
  case put =>
    intro c bp hP hmore
    have hused : (c.buf bp).count ≠ 0 := by
      have hnonneg := hr.able.nonneg bp
      omega
    refine (putBuf_spec hP.coherent hused).mono ?_
    rintro _ c' ⟨hc', hblocks, hput⟩
    exact hP.put hmore hput hc' hblocks
  case size => exact fun _ => hsize'.trans_le hsize
  case look =>
    intro n c hP _ hserved hroom hnear
    have hable : Able c := ⟨hP.coherent, hserved, lt_of_lt_of_le hroom (AheadArgs.limit_le _)⟩
    have hpos : (0 : ℤ) ≤ n * blockSize := mul_nonneg (Int.natCast_nonneg n) (Int.natCast_nonneg _)
    have hview : blockAt c (s.inodes rip).dev = (viewOf rip s).blocks := hP.view hr.driver
    have hspec := Surely.and
      (@zoneOf_surely _ _ (s.supers sp).logZoneSize (n / 2 ^ (s.supers sp).logZoneSize) (s.inodes rip).zone
        hable hr.driver)
      (zoneOf_visits hable hr.driver)
    unfold aheadBlock
    rw [if_neg (by rw [show (aheadArgs rip (s.inodes rip)).blockSpec = false from hfile]; decide),
      toLong_eq hpos (hnear hfile)]
    refine readMap_zone (s := { s with cache := c }) hr.super (Wp.mono hspec ?_)
    rintro z c' ⟨⟨rfl, hc', hlent, hblocks⟩, hvisits⟩
    rw [hview] at hvisits ⊢
    refine ⟨rfl, rfl, ?_, hc'.served, hP.lent hlent hc'.toCoherent hblocks⟩
    rw [hdev]
    exact hvisits
  case visits => exact block_not_map hr
  case apart =>
    intro k n _ hlt _ hsome heq
    have hne : (viewOf rip s).block (s.supers sp) n ≠ 0 := by
      rcases hsome with hspec | hne
      · exact absurd (hspec.symm.trans hfile) (by decide)
      · exact hne
    exact absurd (hr.ok.blockNr_inj hr.geometry hne heq.symm) (ne_of_gt hlt)

/-- What has been brought in from a disk that works is the block. -/
theorem Brought.held {bp : BufId} {b : ℕ} {c : Cache} (hr : Ready rip sp s) (herr : 0 ≤ s.cache.rdwtErr)
    (h : Brought (s.inodes rip).dev b bp s.cache c) (hkept : Borrowed s.cache c) :
    Held rip b ((viewOf rip s).blocks b) bp s { s with cache := c } := by
  obtain ⟨hdev, hdata⟩ : (c.buf bp).dev = (s.inodes rip).dev ∧
      (c.buf bp).data = blockAt s.cache (s.inodes rip).dev b := by
    rcases h.came with hcame | ⟨-, hfailed⟩
    · exact hcame
    · rw [hkept.drive.2] at hfailed
      exact absurd herr (not_le.mpr hfailed)
  have hlent : Lent (some bp) s.cache c := by
    refine ⟨fun x => ?_, hkept.held, hkept.drive⟩
    rw [h.count x]
    simp only [Option.some.injEq, eq_comm]
  refine ⟨rfl, ⟨hkept.coherent, h.served, hlent.pos hr.able.toLinked, ⟨hdev, h.blocknr⟩, hdata⟩, hlent,
    fun d b' hd => ?_⟩
  rw [hkept.blocks d b' hd]
  split
  next heq => rw [heq.1, heq.2]; rfl
  next => rfl

/-- `rahead` for a regular file: the block is in a buffer, no block has changed, and all other buffers have
    been given back. -/
theorem rahead_file {n : ℕ} (hr : Ready rip sp s) (hfile : (s.inodes rip).blockSpec = false)
    (hsize : (s.inodes rip).size ≤ 2 ^ 31 - blockSize) (herr : 0 ≤ s.cache.rdwtErr)
    (hn : n = position / blockSize) (hnear : position < 2 ^ 31 - blockSize) (hbytes : bytesAhead ≤ 32767) :
    Surely (rahead rip ((viewOf rip s).block (s.supers sp) n) position bytesAhead) s fun bp s' =>
      Held rip ((viewOf rip s).block (s.supers sp) n)
          ((viewOf rip s).blocks ((viewOf rip s).block (s.supers sp) n)) bp s s' ∧
        SameBlocks s.cache s'.cache := by
  have hl := looks_file n hr hfile hsize
  have hdev : (aheadArgs rip (s.inodes rip)).dev = (s.inodes rip).dev := by simp [aheadArgs, hfile]
  have h0 : Spacious s.cache := ⟨hr.able.toLinked, hr.able.served, hr.able.room⟩
  apply rahead_wp
  refine (aheadQueue_looks hl h0 (.refl hr.able.toCoherent) hn (fun _ => hnear) hbytes).mono ?_
  rintro ⟨bp, q⟩ s₁ ⟨hframe, hready, hkept⟩
  rw [hdev] at hready ⊢
  cases q with
  | none =>
    rw [hframe]
    exact ⟨hready.held hr herr hkept, hkept.blocks⟩
  | some q =>
    obtain ⟨hpending, habsent⟩ := hready
    have hscattered : SurelyC (rwScattered (s.inodes rip).dev q .reading) s₁.cache fun _ c' =>
        Pending (s.inodes rip).dev ((viewOf rip s).block (s.supers sp) n) s.cache [] c' ∧
          Borrowed s.cache c' := by
      have hfew : ¬nrBufs < q.length := by
        have hlen := hpending.nodup.length_le_card
        rw [Fintype.card_fin] at hlen
        exact not_lt.mpr hlen
      unfold rwScattered SurelyC
      refine wp_ite (fun hnil => ?_) fun _ => wp_ite (fun hmany => absurd hmany hfew) fun _ => ?_
      · rw [hnil] at hpending
        exact ⟨hpending, hkept⟩
      · rw [wp_bind, wp_findDev hr.driver]
        simp only [wp_bind, wp_get]
        exact harvestAll_borrowed h0.linked hr.driver (hpending.perm (sortQueue_perm _ q)) hkept
    unfold aheadRead
    rw [wp_bind, wp_liftC]
    refine Wp.mono hscattered ?_
    rintro _ c₂ ⟨hdrained, hkept2⟩
    rw [wp_liftC]
    refine Wp.mono (Surely.and (getBlock_drained h0 hr.driver hdrained habsent)
      (getBlock_normal hkept2.coherent hr.driver.ne_noDev)) ?_
    rintro bp' c' ⟨hbrought, hgot, hc', hblocks⟩
    have hkept' := hkept2.lent ((Lent.refl c₂).got hgot.got) hc' hblocks
    rw [hframe]
    exact ⟨hbrought.held hr herr hkept', hkept'.blocks⟩

end

end LisaMinix.Fs.Server
