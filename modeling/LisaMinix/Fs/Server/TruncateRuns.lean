import LisaMinix.Fs.Server.Truncate
import LisaMinix.Fs.Server.ZoneMap

/-!
# What Truncation Frees

The zones that `truncate` frees are those of the places that it visits: the data zones that begin below
the size of the file, and all indirect zones.

- `WellFormed`: the zones of an inode are marked, and each is in one place.
- `Freed`: the zones of some places of a file have been freed, and no others.
- `Freeing.next`: one more zone is freed.
- `truncateBy_run`: the places that are visited.
- `truncate_frees_iff`: all zones are freed, each once, exactly if the size covers them.

A file may have a zone past its end, which is lost: `truncate_leaks`.
-/

namespace LisaMinix.Fs.Server

open LisaMinix.Library Function

/-! ## §1 Well-Formed Inodes -/

/-- The number of data zones that an inode can have. -/
def maxZones : ℕ := nrDzoneNum + nrIndirects + nrIndirects * nrIndirects

/-- The places of a file. -/
def Place.Reached : Place → Prop
  | .data n => n < maxZones
  | .single | .double => True
  | .ind k => k < nrIndirects

/-- Each zone of the file is a zone of the device, is marked, and is in one place.  The size is a
`long`, and no more than the map of a file reaches. -/
structure WellFormed (x : Super) (v : FileView) (size : ℤ) : Prop where
  range : ∀ p, p.Reached → v.zone x p ≠ 0 → InRange x (v.zone x p)
  busy : ∀ p, p.Reached → v.zone x p ≠ 0 → zoneBusy x v.blocks (v.zone x p) = true
  inj : ∀ p q, p.Reached → q.Reached → v.zone x p ≠ 0 → v.zone x p = v.zone x q → p = q
  long : size < 2 ^ 31
  held : size ≤ maxZones * (blockSize * 2 ^ x.logZoneSize)

section

variable {x : Super} {v v' : FileView} {size : ℤ}

/-- The zones of a file depend only on blocks of zones. -/
theorem WellFormed.zone_kept (h : WellFormed x v size) (hg : Geometry x) (hizone : v'.izone = v.izone)
    (hkept : ∀ b, x.firstdatazone * 2 ^ x.logZoneSize ≤ b → v'.blocks b = v.blocks b) {p : Place}
    (hp : p.Reached) : v'.zone x p = v.zone x p := by
  have hentry (q : Place) (hq : q.Reached) (i : ℕ) : entry v'.blocks x.logZoneSize (v.zone x q) i =
      entry v.blocks x.logZoneSize (v.zone x q) i :=
    entry_kept hg (Z := fun _ => False) (fun b hb _ => hkept b hb) (h.range q hq) (fun _ => id) i
  unfold FileView.zone
  rw [hizone]
  have hind (k : ℕ) : zoneIn v'.blocks v.izone x.logZoneSize (.ind k) =
      zoneIn v.blocks v.izone x.logZoneSize (.ind k) := hentry .double trivial k
  cases p with
  | single | double => rfl
  | ind k => exact hind k
  | data n =>
    apply zoneIn_data_ext fun _ => rfl
    rintro q e hq he rfl
    cases q with
    | data | double => exact absurd hq id
    | single => exact hentry .single trivial e
    | ind k =>
      rw [hind k]
      refine hentry (.ind k) ?_ e
      -- the zone is below `maxZones`, so its indirect block is one of 512
      have hlt : (Place.ind k).under e < maxZones := hp
      rw [under_ind] at hlt
      unfold maxZones nrDzoneNum nrIndirects at hlt
      change k < 512
      omega

end

/-! ## §2 Zones That Have Been Freed -/

/-- The zones at the places `P` of a file have been freed, and no others.  No blocks but those of the
map have changed. -/
structure Freed (x : Super) (v : FileView) (P : Set Place) (c c' : Cache) : Prop where
  blocks : ∀ d b, d ≠ noDev → (d = x.dev → x.firstdatazone * 2 ^ x.logZoneSize ≤ b) →
    blockAt c' d b = blockAt c d b
  busy : ∀ y, InRange x y → (zoneBusy x (blockAt c' x.dev) y = true ↔
    zoneBusy x (blockAt c x.dev) y = true ∧ ∀ p ∈ P, v.zone x p ≠ y)

section

variable {x : Super} {v : FileView} {P P' : Set Place} {p : Place} {c c' c'' : Cache} {size : ℤ}

theorem Freed.refl : Freed x v ∅ c c where
  blocks _ _ _ _ := rfl
  busy y _ := by simp

/-- One more zone is freed. -/
theorem Freed.clear (h : Freed x v P c c') (h' : ZoneCleared x (v.zone x p) c' c'') :
    Freed x v (insert p P) c c'' where
  blocks d b hd hb := (h'.others d b hd hb).trans (h.blocks d b hd hb)
  busy y hy := by
    rw [h'.busy y hy.1, h.busy y hy, Set.forall_mem_insert, and_assoc, and_comm (a := ∀ p ∈ P, _),
      ne_comm]

theorem Freed.same (h : Freed x v P c c') (hg : Geometry x) (h' : SameBlocks c' c'') :
    Freed x v P c c'' where
  blocks d b hd hb := (h' d b hd).trans (h.blocks d b hd hb)
  busy y hy := by
    have hsame : blockAt c'' x.dev = blockAt c' x.dev := funext fun b => h' x.dev b hg.dev
    rw [hsame]
    exact h.busy y hy

/-- Only places with a zone count. -/
theorem Freed.congr (h : Freed x v P c c') (hg : Geometry x)
    (hP : ∀ p, v.zone x p ≠ 0 → (p ∈ P' ↔ p ∈ P)) : Freed x v P' c c' where
  blocks := h.blocks
  busy y hy := by
    rw [h.busy y hy]
    have hne := hy.ne_zero hg
    refine and_congr_right fun _ => ⟨fun hall p hp heq => ?_, fun hall p hp heq => ?_⟩
    · exact hall p ((hP p (by rwa [heq])).mp hp) heq
    · exact hall p ((hP p (by rwa [heq])).mpr hp) heq

/-- A zone of a place that has not been visited is still marked. -/
theorem Freed.marked (h : Freed x v P c c') (hwf : WellFormed x v size)
    (hblocks : v.blocks = blockAt c x.dev) (hP : ∀ q ∈ P, q.Reached) (hp : p.Reached) (hnot : p ∉ P)
    (hne : v.zone x p ≠ 0) : zoneBusy x (blockAt c' x.dev) (v.zone x p) = true := by
  rw [h.busy _ (hwf.range p hp hne), ← hblocks]
  refine ⟨hwf.busy p hp hne, fun q hq heq => hnot ?_⟩
  -- no other place has this zone
  rw [hwf.inj p q hp (hP q hq) hne heq.symm]
  exact hq

end

/-- `free` does to a zone that is marked what `free_zone` does. -/
def FreesMarked (free : ℕ → ℕ → FsM PUnit) : Prop :=
  ∀ ⦃s : FsState⦄ ⦃sp : SuperId⦄ ⦃dev z : ℕ⦄,
    firstId (fun sp => (s.supers sp).dev = dev) = some sp → Geometry (s.supers sp) →
      Coherent none s.cache → ZmapHeld (s.supers sp) s.cache →
        (z ≠ 0 → InRange (s.supers sp) z ∧
          zoneBusy (s.supers sp) (blockAt s.cache (s.supers sp).dev) z = true) →
          Surely (free dev z) s fun _ s' =>
            s' = { s with cache := s'.cache } ∧ ZoneCleared (s.supers sp) z s.cache s'.cache

theorem freeZone_frees : FreesMarked freeZone :=
  fun _ _ _ _ hsp hg hc hmap hz => freeZone_clears hsp hg hc hmap fun hne => (hz hne).1

theorem freeMarked_frees (e : Panic) : FreesMarked (freeMarked e) := by
  intro s sp dev z hsp hg hc hmap hz
  unfold freeMarked Surely
  refine wp_ite (fun hzero => ?_) fun hne => ?_
  · rw [hzero]
    exact ⟨rfl, .refl hg hc⟩
  · rw [wp_bind, getSuper_spec hsp]
    simp only [wp_bind, wp_readSuper, wp_get]
    rw [if_pos (hz hne).2]
    exact freeZone_frees hsp hg hc hmap hz

/-! ## §3 Steps -/

/-- The zones at the places `P` have been freed since `s`. -/
structure Freeing (rip : InodeId) (sp : SuperId) (P : Set Place) (s s' : FsState) : Prop where
  frame : s' = { s with cache := s'.cache }
  able : Able s'.cache
  lent : Lent none s.cache s'.cache
  freed : Freed (s.supers sp) (viewOf rip s) P s.cache s'.cache

section

variable {free : ℕ → ℕ → FsM PUnit} {rip : InodeId} {sp : SuperId} {s s' : FsState} {P P' : Set Place}
  {p : Place} {size : ℤ}

theorem Freeing.refl (hm : Mounted rip sp s) : Freeing rip sp ∅ s s := ⟨rfl, hm.able, .refl _, .refl⟩

theorem Freeing.congr (h : Freeing rip sp P s s') (hm : Mounted rip sp s)
    (hP : ∀ p, (viewOf rip s).zone (s.supers sp) p ≠ 0 → (p ∈ P' ↔ p ∈ P)) :
    Freeing rip sp P' s s' := ⟨h.frame, h.able, h.lent, h.freed.congr hm.geometry hP⟩

theorem Freeing.supers (h : Freeing rip sp P s s') : s'.supers = s.supers := by rw [h.frame]

theorem Freeing.inodes (h : Freeing rip sp P s s') : s'.inodes = s.inodes := by rw [h.frame]

theorem Freeing.mounted (h : Freeing rip sp P s s') (hm : Mounted rip sp s) : Mounted rip sp s' where
  super := by
    rw [h.supers, h.inodes]
    exact hm.super
  geometry := by
    rw [h.supers]
    exact hm.geometry
  driver := by
    rw [h.inodes]
    exact hm.driver
  able := h.able
  zmap := by
    rw [h.supers]
    exact hm.zmap.lent h.lent

/-- The blocks of the zones are as they were. -/
theorem Freeing.kept (h : Freeing rip sp P s s') (hm : Mounted rip sp s) {b : ℕ}
    (hb : (s.supers sp).firstdatazone * 2 ^ (s.supers sp).logZoneSize ≤ b) :
    (viewOf rip s').blocks b = (viewOf rip s).blocks b := by
  unfold viewOf
  rw [h.inodes]
  exact h.freed.blocks _ b hm.driver.ne_noDev fun _ => hb

theorem Freeing.zone (h : Freeing rip sp P s s') (hm : Mounted rip sp s)
    (hwf : WellFormed (s.supers sp) (viewOf rip s) size) (hp : p.Reached) :
    (viewOf rip s').zone (s.supers sp) p = (viewOf rip s).zone (s.supers sp) p := by
  have hizone : (viewOf rip s').izone = (viewOf rip s).izone := by
    unfold viewOf
    rw [h.inodes]
  exact hwf.zone_kept hm.geometry hizone (fun b => h.kept hm) hp

/-- A cache in which some zones have been freed; a block may be in use. -/
theorem free_step {c : Cache} {z : ℕ} (hfree : FreesMarked free) (hm : Mounted rip sp s)
    (hwf : WellFormed (s.supers sp) (viewOf rip s) size) (hc : Coherent none c)
    (hmap : ZmapHeld (s.supers sp) c) (h : Freed (s.supers sp) (viewOf rip s) P s.cache c)
    (hP : ∀ q ∈ P, q.Reached) (hp : p.Reached) (hnot : p ∉ P)
    (hz : (viewOf rip s).zone (s.supers sp) p = z) :
    Surely (free (s.inodes rip).dev z) { s with cache := c } fun _ s' =>
      s' = { s with cache := s'.cache } ∧ ZoneCleared (s.supers sp) z c s'.cache ∧
        Freed (s.supers sp) (viewOf rip s) (insert p P) s.cache s'.cache := by
  subst hz
  have hblocks : (viewOf rip s).blocks = blockAt s.cache (s.supers sp).dev := by
    rw [hm.dev_eq]
    rfl
  refine (@hfree { s with cache := c } sp _ _ hm.super hm.geometry hc hmap fun hne => ?_).mono ?_
  · exact ⟨hwf.range p hp hne, h.marked hwf hblocks hP hp hnot hne⟩
  · rintro _ s' ⟨hframe, hcleared⟩
    exact ⟨hframe, hcleared, h.clear hcleared⟩

/-- A zone is freed that is in a place of its own. -/
theorem Freeing.next (h : Freeing rip sp P s s') (hfree : FreesMarked free) (hm : Mounted rip sp s)
    (hwf : WellFormed (s.supers sp) (viewOf rip s) size) (hP : ∀ q ∈ P, q.Reached) (hp : p.Reached)
    (hnot : p ∉ P) {z : ℕ} (hz : (viewOf rip s).zone (s.supers sp) p = z) :
    Surely (free (s.inodes rip).dev z) s' fun _ s'' => Freeing rip sp (insert p P) s s'' := by
  have hstep := free_step hfree hm hwf h.able.toCoherent (hm.zmap.lent h.lent) h.freed hP hp hnot hz
  rw [← h.frame] at hstep
  refine hstep.mono ?_
  rintro _ s'' ⟨hframe, hcleared, hfreed⟩
  have hserved := h.able.served.of_dev fun y => .inl (hcleared.sameDev y)
  exact ⟨hframe, h.able.lent hcleared.lent hcleared.coherent hserved, h.lent.trans hcleared.lent, hfreed⟩

theorem Freeing.calm {s'' : FsState} (h : Freeing rip sp P s s') (hm : Mounted rip sp s)
    (h' : Calm s' s'') : Freeing rip sp P s s'' where
  frame := by
    refine h'.frame.trans ?_
    rw [h.frame]
  able := h'.able
  lent := h.lent.trans h'.lent
  freed := h.freed.same hm.geometry h'.blocks

/-- The block of the file at the beginning of a zone. -/
theorem block_of_zone {x : Super} {v : FileView} (hg : Geometry x) (n : ℕ)
    (hrange : v.zone x (.data n) ≠ 0 → InRange x (v.zone x (.data n))) :
    (v.block x (n * 2 ^ x.logZoneSize) = 0 ↔ v.zone x (.data n) = 0) ∧
      (v.zone x (.data n) ≠ 0 →
        v.block x (n * 2 ^ x.logZoneSize) / 2 ^ x.logZoneSize = v.zone x (.data n)) := by
  have hpow := Nat.two_pow_pos x.logZoneSize
  have hdiv : n * 2 ^ x.logZoneSize / 2 ^ x.logZoneSize = n := Nat.mul_div_cancel n hpow
  have hzone : zoneIn v.blocks v.izone x.logZoneSize
      (.data (n * 2 ^ x.logZoneSize / 2 ^ x.logZoneSize)) = v.zone x (.data n) := by
    rw [hdiv]
    rfl
  constructor
  · constructor
    · intro hzero
      by_contra hne
      have hblock := blockNr_range_div hg (hzone ▸ hrange hne)
      rw [hzone, show blockNr _ _ _ _ = 0 from hzero, Nat.zero_div] at hblock
      exact hne hblock.symm
    · intro hzero
      exact blockNr_hole (hzone.trans hzero)
  · intro hne
    exact (blockNr_range_div hg (hzone ▸ hrange hne)).trans hzone

/-- A round of the loop over the zones of the file. -/
theorem freeAt_surely {n : ℕ} (h : Freeing rip sp P s s') (hfree : FreesMarked free)
    (hm : Mounted rip sp s) (hwf : WellFormed (s.supers sp) (viewOf rip s) size)
    (hP : ∀ q ∈ P, q.Reached) (hn : n < maxZones) (hnot : Place.data n ∉ P) :
    Surely (freeAt free rip (s.inodes rip).dev (s.supers sp).logZoneSize
        (n * (blockSize * 2 ^ (s.supers sp).logZoneSize) : ℕ)) s'
      fun _ s'' => Freeing rip sp (insert (.data n) P) s s'' := by
  have hm' := h.mounted hm
  have hzone := h.zone hm hwf (p := .data n) hn
  have hpos : ((n * (blockSize * 2 ^ (s.supers sp).logZoneSize) : ℕ) / (blockSize : ℤ)).toNat =
      n * 2 ^ (s.supers sp).logZoneSize := by
    rw [← Int.natCast_div, Int.toNat_natCast, Nat.mul_left_comm, Nat.mul_div_cancel_left _ (by decide)]
  obtain ⟨hhole, hblock⟩ := block_of_zone (v := viewOf rip s') hm.geometry n fun hne => by
    rw [hzone] at hne ⊢
    exact hwf.range (.data n) hn hne
  rw [hzone] at hhole hblock
  unfold freeAt Surely
  rw [wp_bind]
  refine (readMap_surely hm' (Int.natCast_nonneg _)).mono ?_
  rintro b s₁ ⟨hb, hcalm⟩
  rw [h.supers, hpos] at hb
  have h1 := h.calm hm hcalm
  subst hb
  refine wp_ite (fun hne => ?_) fun hzero => ?_
  · rw [hblock (hhole.not.mp hne)]
    exact h1.next hfree hm hwf hP (show (Place.data n).Reached from hn) hnot rfl
  · -- a hole
    rw [not_not, hhole] at hzero
    refine h1.congr hm fun p hp => ?_
    rw [Set.mem_insert_iff, or_iff_right]
    rintro rfl
    exact hp hzero

end

/-! ## §4 The Loop -/

/-- The first `n` of a row of places. -/
def placesBelow (place : ℕ → Place) (n : ℕ) : Set Place := {p | ∃ m < n, p = place m}

theorem placesBelow_zero (place : ℕ → Place) : placesBelow place 0 = ∅ := by
  simp [placesBelow]

theorem placesBelow_succ (place : ℕ → Place) (n : ℕ) :
    placesBelow place (n + 1) = insert (place n) (placesBelow place n) := by
  ext p
  simp only [placesBelow, Set.mem_ofPred_eq, Set.mem_insert_iff, Nat.lt_succ_iff_lt_or_eq]
  constructor
  · rintro ⟨m, hlt | rfl, rfl⟩
    · exact .inr ⟨m, hlt, rfl⟩
    · exact .inl rfl
  · rintro (rfl | ⟨m, hlt, rfl⟩)
    · exact ⟨n, .inr rfl, rfl⟩
    · exact ⟨m, .inl hlt, rfl⟩

theorem notMem_placesBelow {place : ℕ → Place} (hinj : Function.Injective place) (n : ℕ) :
    place n ∉ placesBelow place n := by
  rintro ⟨m, hlt, heq⟩
  rw [hinj heq] at hlt
  exact absurd hlt (lt_irrefl _)

theorem data_injective : Function.Injective Place.data := fun _ _ => Place.data.inj

theorem ind_injective : Function.Injective Place.ind := fun _ _ => Place.ind.inj

theorem data_reached {n : ℕ} (hn : n ≤ maxZones) {p : Place} (hp : p ∈ placesBelow .data n) :
    p.Reached := by
  obtain ⟨m, hlt, rfl⟩ := hp
  exact lt_of_lt_of_le hlt hn

theorem ind_reached {n : ℕ} (hn : n ≤ nrIndirects) {p : Place} (hp : p ∈ placesBelow .ind n) :
    p.Reached := by
  obtain ⟨m, hlt, rfl⟩ := hp
  exact lt_of_lt_of_le hlt hn

section

variable {free : ℕ → ℕ → FsM PUnit} {rip : InodeId} {sp : SuperId} {s s' : FsState}

/-- The rounds for the zones from `n` on, of which none is past the end of the file. -/
theorem freeZonesBy_rounds {E : Panic → FsState → Prop} {Q : PUnit → FsState → Prop} {rest : ℕ}
    (hfree : FreesMarked free) (hm : Mounted rip sp s)
    (hwf : WellFormed (s.supers sp) (viewOf rip s) (s.inodes rip).size) (k n : ℕ)
    (hbelow : ∀ m < n + k,
      (m * (blockSize * 2 ^ (s.supers sp).logZoneSize) : ℕ) < (s.inodes rip).size)
    (h : Freeing rip sp (placesBelow .data n) s s')
    (hrest : ∀ s'', Freeing rip sp (placesBelow .data (n + k)) s s'' →
      Wp E (freeZonesBy free rip (s.inodes rip).dev (s.supers sp).logZoneSize rest
        (toLong ((n + k) * (blockSize * 2 ^ (s.supers sp).logZoneSize) : ℕ))) s'' Q) :
    Wp E (freeZonesBy free rip (s.inodes rip).dev (s.supers sp).logZoneSize (k + rest)
      (toLong (n * (blockSize * 2 ^ (s.supers sp).logZoneSize) : ℕ))) s' Q := by
  induction k generalizing n s' with
  | zero =>
    rw [Nat.zero_add]
    exact hrest s' h
  | succ k ih =>
    -- the position is below the size, so it is a `long` and its zone is one of the map
    have hlt := hbelow n (Nat.lt_add_of_pos_right (Nat.succ_pos k))
    have hlong : toLong (n * (blockSize * 2 ^ (s.supers sp).logZoneSize) : ℕ) =
        (n * (blockSize * 2 ^ (s.supers sp).logZoneSize) : ℕ) :=
      toLong_eq (Int.natCast_nonneg _) (lt_trans hlt hwf.long)
    have hn : n < maxZones := by
      have hheld : (n * (blockSize * 2 ^ (s.supers sp).logZoneSize) : ℕ) <
          ((maxZones * (blockSize * 2 ^ (s.supers sp).logZoneSize) : ℕ) : ℤ) := by
        push_cast
        exact lt_of_lt_of_le (by push_cast at hlt; exact hlt) hwf.held
      exact lt_of_mul_lt_mul_right (Int.ofNat_lt.mp hheld) (Nat.zero_le _)
    rw [Nat.add_right_comm]
    unfold freeZonesBy
    rw [wp_bind, wp_readInode, h.inodes, if_neg (by rw [hlong]; exact not_le.mpr hlt), wp_bind, hlong]
    have hround := freeAt_surely h hfree hm hwf (fun q => data_reached hn.le) hn
      (notMem_placesBelow data_injective n)
    refine hround.mono' (fun _ _ => False.elim) fun _ s₁ h1 => ?_
    rw [← placesBelow_succ] at h1
    have hnext : ((n * (blockSize * 2 ^ (s.supers sp).logZoneSize) : ℕ) : ℤ) +
        blockSize * 2 ^ (s.supers sp).logZoneSize =
          ((n + 1) * (blockSize * 2 ^ (s.supers sp).logZoneSize) : ℕ) := by
      push_cast
      ring
    rw [hnext]
    refine ih (n + 1) (fun m hlt => hbelow m (by omega)) h1 fun s'' h'' => ?_
    rw [show n + 1 + k = n + (k + 1) by omega] at h'' ⊢
    exact hrest s'' h''

/-- The loop over the zones of the file, if no position overflows. -/
theorem freeZonesBy_surely (hfree : FreesMarked free) (hm : Mounted rip sp s)
    (hwf : WellFormed (s.supers sp) (viewOf rip s) (s.inodes rip).size)
    (hfits : (s.inodes rip).size + blockSize * 2 ^ (s.supers sp).logZoneSize ≤ 2 ^ 31) :
    Surely (freeZonesBy free rip (s.inodes rip).dev (s.supers sp).logZoneSize
        (zoneRounds (s.supers sp).logZoneSize (s.inodes rip).size + 1) 0) s fun _ s' =>
      Freeing rip sp (placesBelow .data (zoneRounds (s.supers sp).logZoneSize (s.inodes rip).size)) s s' := by
  have hstart : Freeing rip sp (placesBelow .data 0) s s := by
    rw [placesBelow_zero]
    exact .refl hm
  have hrounds := @freeZonesBy_rounds free rip sp s s (fun _ _ => False)
    (fun _ s' => Freeing rip sp
      (placesBelow .data (zoneRounds (s.supers sp).logZoneSize (s.inodes rip).size)) s s')
    1 hfree hm hwf (zoneRounds (s.supers sp).logZoneSize (s.inodes rip).size) 0
  rw [Nat.zero_mul] at hrounds
  refine hrounds (fun m hlt => (lt_zoneRounds _ m _).mp (by omega)) hstart fun s'' h => ?_
  rw [Nat.zero_add] at h ⊢
  rw [toLong_eq (Int.natCast_nonneg _) (zoneRounds_fits hfits)]
  unfold freeZonesBy
  rw [wp_bind, wp_readInode, h.inodes, if_pos]
  · exact h
  · rw [← not_lt, ← lt_zoneRounds]
    exact lt_irrefl _

/-- If a position overflows, the loop goes on in front of the zones of the inode. -/
theorem freeZonesBy_overflows (hfree : FreesMarked free) (hm : Mounted rip sp s)
    (hwf : WellFormed (s.supers sp) (viewOf rip s) (s.inodes rip).size)
    (hover : 2 ^ 31 < (s.inodes rip).size + blockSize * 2 ^ (s.supers sp).logZoneSize) :
    Wp (fun _ _ => True) (freeZonesBy free rip (s.inodes rip).dev (s.supers sp).logZoneSize
        (zoneRounds (s.supers sp).logZoneSize (s.inodes rip).size + 1) 0) s fun _ _ => False := by
  have hscale := scale_le hm.geometry
  have hstart : Freeing rip sp (placesBelow .data 0) s s := by
    rw [placesBelow_zero]
    exact .refl hm
  have hrounds := @freeZonesBy_rounds free rip sp s s (fun _ _ => True) (fun _ _ => False)
    1 hfree hm hwf (zoneRounds (s.supers sp).logZoneSize (s.inodes rip).size) 0
  rw [Nat.zero_mul] at hrounds
  refine hrounds (fun m hlt => (lt_zoneRounds _ m _).mp (by omega)) hstart fun s'' h => ?_
  -- the position is 2 GB, which is -2 GB as a `long` and below the size
  rw [Nat.zero_add, zoneRounds_overflow (le_trans hscale (by decide)) hwf.long hover]
  have hsize : (0 : ℤ) < (s.inodes rip).size := by
    have hzone : (blockSize * 2 ^ (s.supers sp).logZoneSize : ℤ) ≤ 2 ^ 26 := by
      have hpow : (2 : ℤ) ^ (s.supers sp).logZoneSize ≤ 2 ^ 16 := pow_le_pow_right₀ (by decide) hscale
      unfold blockSize
      push_cast
      linarith
    linarith
  unfold freeZonesBy
  rw [wp_bind, wp_readInode, h.inodes, if_neg (by unfold toLong; omega)]
  unfold freeAt readMap scaleFactor
  simp only [wp_bind, wp_readInode]
  rw [getSuper_spec (h.mounted hm).super]
  simp only [wp_readSuper, wp_pure]
  rw [if_pos (by decide)]
  trivial

end

/-! ## §5 The Double Indirect Block -/

section

variable {free : ℕ → ℕ → FsM PUnit} {rip : InodeId} {sp : SuperId} {s s' : FsState} {P : Set Place}
  {size : ℤ}

/-- The block that is in use keeps its data while zones are freed. -/
theorem Opened.cleared {x : Super} {z b : ℕ} {data : Block} {bp : BufId} {c c' : Cache}
    (h : Opened x.dev b data bp c) (hg : Geometry x) (h' : ZoneCleared x z c c')
    (hb : x.firstdatazone * 2 ^ x.logZoneSize ≤ b) : Opened x.dev b data bp c' := by
  have hpos : 0 < (c.buf bp).count := lt_of_le_of_ne (h.toLinked.nonneg bp) (Ne.symm h.used)
  have hholds := h'.lent.holds hpos h.holds
  refine ⟨h'.coherent, h.served.of_dev fun y => .inl (h'.sameDev y), ?_, hholds, ?_⟩
  · rw [h'.lent.count bp, if_neg (by simp), add_zero]
    exact h.used
  · rw [← h'.coherent.toLinked.blockAt_held hholds hg.dev, h'.others _ _ hg.dev fun _ => hb]
    exact h.blockAt hg.dev

/-- The double indirect block is in use, and zones have been freed. -/
structure Walking (rip : InodeId) (sp : SuperId) (data : Block) (bp : BufId) (P : Set Place)
    (s : FsState) (c : Cache) : Prop where
  opened : Opened (s.supers sp).dev
    (firstBlock (s.supers sp).logZoneSize ((viewOf rip s).zone (s.supers sp) .double)) data bp c
  lent : Lent (some bp) s.cache c
  freed : Freed (s.supers sp) (viewOf rip s) P s.cache c

/-- The walk through the entries of the double indirect block. -/
theorem freeIndirectsBy_surely {data : Block} {bp : BufId} (hfree : FreesMarked free)
    (hm : Mounted rip sp s) (hwf : WellFormed (s.supers sp) (viewOf rip s) size)
    (hP : ∀ q ∈ P, q.Reached) (hnot : ∀ k, Place.ind k ∉ P)
    (hdouble : (viewOf rip s).zone (s.supers sp) .double ≠ 0)
    (hdata : ∀ k, (viewOf rip s).zone (s.supers sp) (.ind k) = getInd data k) (n i : ℕ)
    (hi : i + n = nrIndirects) {c : Cache}
    (h : Walking rip sp data bp (placesBelow .ind i ∪ P) s c) :
    Surely (freeIndirectsBy free (s.inodes rip).dev bp n i) { s with cache := c } fun _ s' =>
      s' = { s with cache := s'.cache } ∧
        Walking rip sp data bp (placesBelow .ind nrIndirects ∪ P) s s'.cache := by
  induction n generalizing i c with
  | zero =>
    rw [← hi]
    exact ⟨rfl, h⟩
  | succ n ih =>
    unfold freeIndirectsBy Surely
    simp only [wp_bind, wp_liftC, wp_readBuf]
    rw [h.opened.inBuf]
    have hP' : ∀ q ∈ placesBelow .ind i ∪ P, q.Reached := by
      rintro q (hq | hq)
      · exact ind_reached (by omega) hq
      · exact hP q hq
    -- no place that has been freed is that of entry `i`
    have hreach : (Place.ind i).Reached := show i < nrIndirects by omega
    have hnew : Place.ind i ∉ placesBelow .ind i ∪ P := by
      rintro (hmem | hmem)
      · exact notMem_placesBelow ind_injective i hmem
      · exact hnot i hmem
    refine Wp.mono (free_step hfree hm hwf h.opened.toCoherent (hm.zmap.lent h.lent) h.freed hP' hreach
      hnew (hdata i)) ?_
    rintro _ s' ⟨hframe, hcleared, hfreed⟩
    rw [← Set.insert_union, ← placesBelow_succ] at hfreed
    have hrange := hwf.range .double trivial hdouble
    have hopened := h.opened.cleared hm.geometry hcleared (by
      rw [firstBlock_eq hm.geometry hrange]
      exact Nat.mul_le_mul_right _ hrange.1)
    rw [hframe]
    exact ih (i + 1) (by omega) ⟨hopened, h.lent.trans hcleared.lent, hfreed⟩

/-- The double indirect zone, and the single indirect zones that it has. -/
theorem freeDouble_surely (h : Freeing rip sp P s s') (hfree : FreesMarked free) (hm : Mounted rip sp s)
    (hwf : WellFormed (s.supers sp) (viewOf rip s) size) (hP : ∀ q ∈ P, q.Reached)
    (hind : ∀ k, Place.ind k ∉ P) (hnot : Place.double ∉ P) :
    Surely (freeDouble free (s.inodes rip).dev (s.supers sp).logZoneSize
        ((s.inodes rip).zone (nrDzoneNum + 1))) s' fun _ s'' =>
      Freeing rip sp (insert .double (placesBelow .ind nrIndirects ∪ P)) s s'' := by
  have hzone : (viewOf rip s).zone (s.supers sp) .double = (s.inodes rip).zone (nrDzoneNum + 1) := rfl
  have hentries (k : ℕ) : (viewOf rip s).zone (s.supers sp) (.ind k) =
      entry (viewOf rip s).blocks (s.supers sp).logZoneSize
        ((s.inodes rip).zone (nrDzoneNum + 1)) k := rfl
  unfold freeDouble Surely
  refine wp_ite (fun hne => ?_) fun hzero => ?_
  · have hrange := hwf.range .double trivial hne
    have hb : (s.supers sp).firstdatazone * 2 ^ (s.supers sp).logZoneSize ≤
        firstBlock (s.supers sp).logZoneSize ((s.inodes rip).zone (nrDzoneNum + 1)) := by
      rw [← hzone, firstBlock_eq hm.geometry hrange]
      exact Nat.mul_le_mul_right _ hrange.1
    rw [wp_bind, wp_liftC]
    refine Wp.mono (openBlock_spec h.able hm.driver false) ?_
    rintro bp c ⟨hopened, hlent, hstored⟩
    have hsame : SameBlocks s'.cache c := by
      intro d b' hd
      rw [hstored d b' hd]
      split
      next he => rw [he.1, he.2]; rfl
      next => rfl
    -- the zones that are freed first leave the double indirect block as it was
    have hdata (k : ℕ) : (viewOf rip s).zone (s.supers sp) (.ind k) = getInd (blockAt s'.cache
        (s.inodes rip).dev (firstBlock (s.supers sp).logZoneSize
          ((s.inodes rip).zone (nrDzoneNum + 1)))) k := by
      rw [hentries, entry, if_neg hne, h.freed.blocks _ _ hm.driver.ne_noDev fun _ => hb]
      rfl
    have hstart : Walking rip sp (blockAt s'.cache (s.inodes rip).dev
        (firstBlock (s.supers sp).logZoneSize ((s.inodes rip).zone (nrDzoneNum + 1)))) bp
        (placesBelow .ind 0 ∪ P) s c := by
      rw [placesBelow_zero, Set.empty_union]
      refine ⟨?_, h.lent.before hlent, h.freed.same hm.geometry hsame⟩
      rw [hm.dev_eq]
      exact hopened
    rw [h.frame, wp_bind]
    refine Wp.mono (freeIndirectsBy_surely hfree hm hwf hP hind hne hdata nrIndirects 0
      (Nat.zero_add _) hstart) ?_
    rintro _ s₁ ⟨hframe1, hwalking⟩
    simp only [wp_bind, wp_liftC]
    refine Wp.mono (hwalking.opened.put hm.able hwalking.lent rfl (by simp)) ?_
    rintro _ c₂ ⟨hable, hlent2, hblocks⟩
    have hfreeing : Freeing rip sp (placesBelow .ind nrIndirects ∪ P) s { s₁ with cache := c₂ } := by
      refine ⟨?_, hable, hlent2, hwalking.freed.same hm.geometry hblocks⟩
      rw [hframe1]
    refine hfreeing.next hfree hm hwf ?_ (show Place.double.Reached from trivial) ?_ rfl
    · rintro q (hq | hq)
      · exact ind_reached le_rfl hq
      · exact hP q hq
    · rintro (⟨m, -, heq⟩ | hmem)
      · exact absurd heq (by simp)
      · exact hnot hmem
  · -- there are no indirect zones
    rw [not_not] at hzero
    refine h.congr hm fun p hp => ?_
    rw [Set.mem_insert_iff, Set.mem_union]
    constructor
    · rintro (rfl | ⟨m, -, rfl⟩ | hmem)
      · exact absurd hzero hp
      · rw [hentries, hzero, entry, if_pos rfl] at hp
        exact absurd rfl hp
      · exact hmem
    · exact fun hmem => .inr (.inr hmem)

end

/-! ## §6 The Whole File -/

/-- The places that `truncate` visits: the data zones of the rounds, and all indirect zones. -/
def visited (rounds : ℕ) : Set Place := {p | p.Reached ∧ ∀ n, p = .data n → n < rounds}

theorem visited_eq {rounds : ℕ} (h : rounds ≤ maxZones) :
    visited rounds = insert .double
      (placesBelow .ind nrIndirects ∪ insert .single (placesBelow .data rounds)) := by
  ext p
  simp only [visited, placesBelow, Set.mem_ofPred_eq, Set.mem_insert_iff, Set.mem_union]
  cases p with
  | single | double => simp [Place.Reached]
  | ind k => simp [Place.Reached]
  | data n =>
    simp only [Place.data.injEq, reduceCtorEq, false_or, and_false, exists_false, exists_eq_right']
    exact ⟨fun hn => hn.2 n rfl, fun hn => ⟨lt_of_lt_of_le hn h, fun m hm => hm ▸ hn⟩⟩

section

variable {free : ℕ → ℕ → FsM PUnit} {rip : InodeId} {sp : SuperId} {s s' : FsState}

theorem zoneRounds_le {x : Super} {v : FileView} {size : ℤ} (hwf : WellFormed x v size) :
    zoneRounds x.logZoneSize size ≤ maxZones := by
  rw [← not_lt, lt_zoneRounds, not_lt]
  push_cast
  exact hwf.held

theorem freeFile_surely (hfree : FreesMarked free) (hm : Mounted rip sp s)
    (hwf : WellFormed (s.supers sp) (viewOf rip s) (s.inodes rip).size)
    (hfits : (s.inodes rip).size + blockSize * 2 ^ (s.supers sp).logZoneSize ≤ 2 ^ 31) :
    Surely (freeFile free rip (s.supers sp).logZoneSize) s fun _ s' =>
      Freeing rip sp (visited (zoneRounds (s.supers sp).logZoneSize (s.inodes rip).size)) s s' := by
  have hrounds := zoneRounds_le hwf
  rw [visited_eq hrounds]
  unfold freeFile Surely
  simp only [wp_bind, wp_readInode]
  refine Wp.mono (freeZonesBy_surely hfree hm hwf hfits) fun _ s₁ h1 => ?_
  have hsingle : Place.single ∉
      placesBelow .data (zoneRounds (s.supers sp).logZoneSize (s.inodes rip).size) := by
    rintro ⟨_, _, heq⟩
    simp at heq
  refine Wp.mono (h1.next hfree hm hwf (fun q => data_reached hrounds)
    (show Place.single.Reached from trivial) hsingle rfl) fun _ s₂ h2 => ?_
  refine freeDouble_surely h2 hfree hm hwf ?_ ?_ ?_
  · rintro q (rfl | hq)
    · trivial
    · exact data_reached hrounds hq
  · rintro k (heq | ⟨_, _, heq⟩)
    · exact absurd heq (by simp)
    · exact absurd heq (by simp)
  · rintro (heq | ⟨_, _, heq⟩)
    · exact absurd heq (by simp)
    · exact absurd heq (by simp)

/-- The file with the size that `truncate` takes it to have. -/
def pipeSized (rip : InodeId) (s : FsState) : FsState :=
  { s with
    inodes := update s.inodes rip
      { s.inodes rip with size := truncSize (s.inodes rip) } }

/-- The end of `truncate`: a pipe is wiped. -/
def finished (rip : InodeId) (pipe : Bool) (s : FsState) : FsState :=
  let i := s.inodes rip
  { s with
    inodes := update s.inodes rip
      (if pipe then { i with size := 0, update := mtime, dirt := true, zone := fun _ => 0 }
        else { i with dirt := true }) }

theorem pipeSized_inode (rip : InodeId) (s : FsState) :
    (pipeSized rip s).inodes rip = { s.inodes rip with size := truncSize (s.inodes rip) } :=
  update_self ..

theorem Mounted.pipeSized (hm : Mounted rip sp s) : Mounted rip sp (pipeSized rip s) := hm.withSize _

theorem viewOf_pipeSized (rip : InodeId) (s : FsState) : viewOf rip (pipeSized rip s) = viewOf rip s :=
  viewOf_sized ..

/-- `truncate` of a file that is not special. -/
theorem wp_truncateBy {E : Panic → FsState → Prop} {Q : PUnit → FsState → Prop} (hm : Mounted rip sp s)
    (hspecial : ¬(s.inodes rip).Special) :
    Wp E (truncateBy free rip) s Q ↔
      Wp E (freeFile free rip (s.supers sp).logZoneSize) (pipeSized rip s) fun _ s' =>
        Q ⟨⟩ (finished rip (s.inodes rip).pipe s') := by
  unfold Inode.Special at hspecial
  unfold truncateBy scaleFactor
  rw [wp_bind, wp_readInode, if_neg hspecial]
  simp only [wp_bind, wp_readInode]
  rw [getSuper_spec hm.super]
  simp only [wp_readSuper, wp_pure]
  cases hpipe : (s.inodes rip).pipe with
  | true =>
    have hsize : pipeSized rip s = { s with
        inodes := update s.inodes rip { s.inodes rip with size := pipeSize } } := by
      rw [pipeSized, truncSize, if_pos hpipe]
    rw [if_pos rfl, hsize]
    simp only [wp_bind, wp_modInode, wipeInode, finished, if_true, update_self,
      update_idem]
  | false =>
    have hsize : pipeSized rip s = s := by
      rw [pipeSized, truncSize, if_neg (by simp [hpipe]), update_eq_self]
    rw [if_neg (by simp), hsize]
    simp only [wp_bind, wp_modInode, finished, Bool.false_eq_true, if_false]

/-- **The places that `truncate` visits** are those whose zones it frees, and it frees no others. -/
theorem truncateBy_run (hfree : FreesMarked free) (hm : Mounted rip sp s)
    (hspecial : ¬(s.inodes rip).Special)
    (hwf : WellFormed (s.supers sp) (viewOf rip s) (truncSize (s.inodes rip)))
    (hfits : truncSize (s.inodes rip) + blockSize * 2 ^ (s.supers sp).logZoneSize ≤ 2 ^ 31) :
    Surely (truncateBy free rip) s fun _ s' =>
      s' = { s with
        cache := s'.cache
        inodes := update s.inodes rip (s'.inodes rip) } ∧
      Freed (s.supers sp) (viewOf rip s)
        (visited (zoneRounds (s.supers sp).logZoneSize (truncSize (s.inodes rip)))) s.cache s'.cache := by
  have hsize : ((pipeSized rip s).inodes rip).size = truncSize (s.inodes rip) := by
    rw [pipeSized_inode]
  have hrun := @freeFile_surely free rip sp (pipeSized rip s) hfree hm.pipeSized
    (by rw [viewOf_pipeSized, hsize]; exact hwf) (by rw [hsize]; exact hfits)
  rw [hsize] at hrun
  rw [Surely, wp_truncateBy hm hspecial]
  refine hrun.mono fun _ s' h => ⟨?_, ?_⟩
  · have hinodes : s'.inodes = (pipeSized rip s).inodes := h.inodes
    rw [h.frame]
    unfold finished pipeSized
    simp only [update_idem, update_self]
  · have hfreed := h.freed
    rw [viewOf_pipeSized] at hfreed
    exact hfreed

/-- If a position overflows, `truncate` does not return. -/
theorem truncateBy_overflows (hfree : FreesMarked free) (hm : Mounted rip sp s)
    (hspecial : ¬(s.inodes rip).Special)
    (hwf : WellFormed (s.supers sp) (viewOf rip s) (truncSize (s.inodes rip)))
    (hover : 2 ^ 31 < truncSize (s.inodes rip) + blockSize * 2 ^ (s.supers sp).logZoneSize) :
    ¬Surely (truncateBy free rip) s fun _ _ => True := by
  have hsize : ((pipeSized rip s).inodes rip).size = truncSize (s.inodes rip) := by
    rw [pipeSized_inode]
  have hrun := @freeZonesBy_overflows free rip sp (pipeSized rip s) hfree hm.pipeSized
    (by rw [viewOf_pipeSized, hsize]; exact hwf) (by rw [hsize]; exact hover)
  intro hreturns
  rw [Surely, wp_truncateBy hm hspecial] at hreturns
  have hnever : Wp (fun _ _ => True) (freeFile free rip (s.supers sp).logZoneSize) (pipeSized rip s)
      fun _ _ => False := by
    unfold freeFile
    simp only [wp_bind, wp_readInode]
    exact Wp.mono hrun fun _ _ h => h.elim
  obtain ⟨_, _, _, himpossible⟩ := Surely.returns (Surely.and hreturns hnever)
  exact himpossible

/-! ## §7 Which Files Are Freed -/

/-- The zones of the file have been freed, and no others. -/
structure AllFreed (rip : InodeId) (x : Super) (s s' : FsState) : Prop where
  frame : s' = { s with
    cache := s'.cache
    inodes := update s.inodes rip (s'.inodes rip) }
  busy : ∀ y, InRange x y → (zoneBusy x (blockAt s'.cache x.dev) y = true ↔
    zoneBusy x (blockAt s.cache x.dev) y = true ∧ ∀ p, p.Reached → (viewOf rip s).zone x p ≠ y)

/-- What is asked of `truncate`: it frees the zones of the file and no others, and none that is free
already.  It does nothing to a special file. -/
structure Truncates (rip : InodeId) (x : Super) (s : FsState) : Prop where
  all : Surely (truncateBy freeZone rip) s fun _ s' =>
    ((s.inodes rip).Special → s' = s) ∧ (¬(s.inodes rip).Special → AllFreed rip x s s')
  once : ∀ e, Surely (truncateBy (freeMarked e) rip) s fun _ _ => True

/-- The size of the file covers its data zones, and the positions up to it are `long`s. -/
structure SizeCovers (x : Super) (v : FileView) (size : ℤ) : Prop where
  fits : size + blockSize * 2 ^ x.logZoneSize ≤ 2 ^ 31
  below : ∀ n < maxZones, v.zone x (.data n) ≠ 0 → ((n * (blockSize * 2 ^ x.logZoneSize) : ℕ) : ℤ) < size

theorem truncateBy_special (hspecial : (s.inodes rip).Special) :
    Surely (truncateBy free rip) s fun _ s' => s' = s := by
  unfold Inode.Special at hspecial
  unfold truncateBy Surely
  rw [wp_bind, wp_readInode, if_pos hspecial]
  exact rfl

/-- The size covers the zones of a file that is freed. -/
theorem Truncates.sizeCovers (h : Truncates rip (s.supers sp) s) (hm : Mounted rip sp s)
    (hspecial : ¬(s.inodes rip).Special)
    (hwf : WellFormed (s.supers sp) (viewOf rip s) (truncSize (s.inodes rip))) :
    SizeCovers (s.supers sp) (viewOf rip s) (truncSize (s.inodes rip)) := by
  have hfits : truncSize (s.inodes rip) + blockSize * 2 ^ (s.supers sp).logZoneSize ≤ 2 ^ 31 := by
    by_contra hover
    exact truncateBy_overflows freeZone_frees hm hspecial hwf (not_le.mp hover)
      (h.all.mono fun _ _ _ => trivial)
  refine ⟨hfits, fun n hn hne => ?_⟩
  obtain ⟨_, s', ⟨-, hall⟩, -, hfreed⟩ :=
    Surely.returns (Wp.and h.all (truncateBy_run freeZone_frees hm hspecial hwf hfits))
  have hrange := hwf.range (.data n) hn hne
  -- the zone is not marked any more, so it has been visited
  rw [← lt_zoneRounds]
  by_contra hpast
  have hkept := (hfreed.busy _ hrange).mpr ⟨?_, fun p hp heq => ?_⟩
  · exact (((hall hspecial).busy _ hrange).mp hkept).2 (.data n) hn rfl
  · rw [hm.dev_eq]
    exact hwf.busy (.data n) hn hne
  · obtain rfl := hwf.inj (.data n) p hn hp.1 hne heq.symm
    exact hpast (hp.2 n rfl)

/-- A file is freed whose size covers its zones. -/
theorem SizeCovers.truncates (h : SizeCovers (s.supers sp) (viewOf rip s) (truncSize (s.inodes rip)))
    (hm : Mounted rip sp s) (hspecial : ¬(s.inodes rip).Special)
    (hwf : WellFormed (s.supers sp) (viewOf rip s) (truncSize (s.inodes rip))) :
    Truncates rip (s.supers sp) s := by
  have hvisited : ∀ p, (viewOf rip s).zone (s.supers sp) p ≠ 0 → (p ∈ {p : Place | p.Reached} ↔
      p ∈ visited (zoneRounds (s.supers sp).logZoneSize (truncSize (s.inodes rip)))) := by
    refine fun p hne => ⟨fun hp => ⟨hp, ?_⟩, And.left⟩
    rintro n rfl
    exact (lt_zoneRounds ..).mpr (h.below n hp hne)
  constructor
  · refine (truncateBy_run freeZone_frees hm hspecial hwf h.fits).mono ?_
    rintro _ s' ⟨hframe, hfreed⟩
    refine ⟨fun hyes => absurd hyes hspecial, fun _ => ⟨hframe, ?_⟩⟩
    exact (hfreed.congr hm.geometry hvisited).busy
  · intro e
    exact (truncateBy_run (freeMarked_frees e) hm hspecial hwf h.fits).mono fun _ _ _ => trivial

/-- **`truncate`** frees the zones of a well-formed inode, each once and no others, exactly if the
inode is special or its size covers its data zones. -/
theorem truncate_frees_iff (hm : Mounted rip sp s) (hwf : ¬(s.inodes rip).Special →
      WellFormed (s.supers sp) (viewOf rip s) (truncSize (s.inodes rip))) :
    Truncates rip (s.supers sp) s ↔ (s.inodes rip).Special ∨
      SizeCovers (s.supers sp) (viewOf rip s) (truncSize (s.inodes rip)) := by
  by_cases hspecial : (s.inodes rip).Special
  · refine ⟨fun _ => .inl hspecial, fun _ => ⟨?_, fun e => ?_⟩⟩
    · exact (truncateBy_special hspecial).mono fun _ _ h => ⟨fun _ => h, fun hnot => absurd hspecial hnot⟩
    · exact (truncateBy_special hspecial).mono fun _ _ _ => trivial
  · rw [or_iff_right hspecial]
    exact ⟨fun h => h.sizeCovers hm hspecial (hwf hspecial),
      fun h => h.truncates hm hspecial (hwf hspecial)⟩

end

/-! ## §8 Runs -/

/-- The only zone is relative zone 0. -/
def firstZone (i : ℕ) : ℕ := if i = 0 then 1 else 0

/-- The file of one zone, of which `size` bytes have been written. -/
def firstFile (size : ℤ) : FsState :=
  let s := mapFile firstZone
  { s with inodes := update s.inodes theDir { s.inodes theDir with size := size } }

theorem firstFile_inode (size : ℤ) :
    (firstFile size).inodes theDir = { (mapFile firstZone).inodes theDir with size := size } := by
  simp only [firstFile, update_self]

theorem firstFile_mounted (size : ℤ) : Mounted theDir rootSuper (firstFile size) :=
  (mapFile_mounted firstZone).withSize size

theorem firstFile_zone (size : ℤ) (p : Place) :
    (viewOf theDir (firstFile size)).zone mapSuper p = if p = .data 0 then 1 else 0 := by
  have hizone : (viewOf theDir (firstFile size)).izone = firstZone := by
    unfold viewOf
    rw [firstFile_inode]
    rfl
  unfold FileView.zone
  rw [hizone]
  generalize (viewOf theDir (firstFile size)).blocks = B
  change zoneIn B firstZone 10 p = _
  have hzero (q : Place) (hq : q.IsIndirect) : zoneIn B firstZone 10 q = 0 := by
    cases q with
    | data | double => exact absurd hq id
    | single | ind => rfl
  cases p with
  | single | double | ind => rfl
  | data n =>
    rcases Nat.lt_or_ge n nrDzoneNum with hlt | hge
    · rw [zoneIn_direct_place hlt]
      simp only [firstZone, Place.data.injEq]
    · obtain ⟨q, e, hq, he, rfl⟩ := exists_under hge
      have hne : q.under e ≠ 0 := ne_of_gt (lt_of_lt_of_le (by decide) hge)
      rw [if_neg (by simpa using hne), zoneIn_under hq he, hzero q hq]
      rfl

theorem firstFile_wellFormed {size : ℤ} (hsize : size ≤ 2 ^ 20) :
    WellFormed mapSuper (viewOf theDir (firstFile size)) size := by
  have hplace : ∀ p, (viewOf theDir (firstFile size)).zone mapSuper p ≠ 0 → p = .data 0 := by
    intro p hp
    rw [firstFile_zone] at hp
    by_contra hne
    exact hp (if_neg hne)
  have hzone := firstFile_zone size (.data 0)
  rw [if_pos rfl] at hzone
  refine ⟨fun p _ hp => ?_, fun p _ hp => ?_, fun p q _ _ hp heq => ?_, ?_, ?_⟩
  · rw [hplace p hp, hzone]
    exact ⟨by decide, by decide⟩
  · rw [hplace p hp, hzone]
    have hblocks : (viewOf theDir (firstFile size)).blocks = blockAt (lettersCache 1) 256 := by
      unfold viewOf
      rw [firstFile_inode]
      rfl
    rw [hblocks]
    change blockBit (blockAt (lettersCache 1) 256 3) 1 = true
    rw [lettersCache_map]
    decide
  · rw [hplace p hp, hplace q (heq ▸ hp)]
  · exact lt_of_le_of_lt hsize (by decide)
  · exact le_trans hsize (by decide)

theorem firstFile_size (size : ℤ) : truncSize ((firstFile size).inodes theDir) = size := by
  rw [firstFile_inode]
  rfl

/-- A file with one zone in the double indirect part, which `write_map` has entered, with two indirect
blocks. -/
theorem truncate_frees_double : ∃ s, (writeMap theDir (519 * 2 ^ 20) 1 (mapFile fun _ => 0)) = (.ok OK, s) ∧
    (viewOf theDir s).zone mapSuper (.data 519) = 1 ∧
    Truncates theDir mapSuper (sized theDir (520 * 2 ^ 20) s) := by
  have hok : (writeMap theDir (519 * 2 ^ 20) 1 (mapFile fun _ => 0)).1 = .ok OK := by decide +kernel
  have hwrites : Surely (writeMap theDir (519 * 2 ^ 20) 1) (mapFile fun _ => 0) fun r s' =>
      Only theDir (mapFile fun _ => 0) s' ∧
        Wrote mapSuper 519 1 (viewOf theDir (mapFile fun _ => 0)) (viewOf theDir s') r :=
    writeMap_surely mapFile_ready mapFile_fresh rfl (by decide)
  unfold Surely Wp at hwrites
  cases hrun : writeMap theDir (519 * 2 ^ 20) 1 (mapFile fun _ => 0) with
  | mk r s =>
    rw [hrun] at hok hwrites
    obtain rfl : r = .ok OK := hok
    obtain ⟨honly, -, hentered⟩ := hwrites
    have hzone : (viewOf theDir s).zone mapSuper (.data 519) = 1 := hentered.zones 519
    have hm := (honly.mounted (mapFile_mounted _)).withSize (520 * 2 ^ 20)
    have hsize : truncSize ((sized theDir (520 * 2 ^ 20) s).inodes theDir) = 520 * 2 ^ 20 := by
      rw [sized_inode, honly.inode]
      rfl
    have hsupers : (sized theDir (520 * 2 ^ 20) s).supers rootSuper = mapSuper := congrFun honly.supers rootSuper
    have hiff := truncate_frees_iff hm
    rw [hsupers, hsize, viewOf_sized] at hiff
    refine ⟨s, rfl, hzone, (hiff fun _ => ?_).mpr (.inr ⟨by decide, fun n _ hne => ?_⟩)⟩
    · exact ⟨fun p _ => hentered.ok.range p, fun p _ => hentered.ok.busy p,
        fun p q _ _ => hentered.ok.inj p q, by decide, by decide⟩
    · -- relative zone 519 is the only one
      rw [hentered.zones] at hne
      split at hne
      next h =>
        rw [h]
        decide
      next => exact absurd (zoneIn_none ..) hne

/-- The zone of an empty file, as a `write` that has failed leaves it behind. -/
theorem truncate_leaks : Mounted theDir rootSuper (firstFile 0) ∧
    WellFormed mapSuper (viewOf theDir (firstFile 0)) (truncSize ((firstFile 0).inodes theDir)) ∧
    ¬Truncates theDir mapSuper (firstFile 0) := by
  have hm := firstFile_mounted 0
  have hwf := @firstFile_wellFormed 0 (by decide)
  have hzone := firstFile_zone 0 (.data 0)
  rw [if_pos rfl] at hzone
  rw [firstFile_size]
  refine ⟨hm, hwf, fun h => ?_⟩
  have hcovers := Truncates.sizeCovers h hm (by rw [firstFile_inode]; decide)
    (by rw [firstFile_size]; exact hwf)
  -- relative zone 0 begins at position 0
  have hbelow := hcovers.below 0 (by decide) (hzone.trans_ne (by decide))
  rw [firstFile_size, Nat.zero_mul] at hbelow
  exact absurd hbelow (lt_irrefl _)

end LisaMinix.Fs.Server
