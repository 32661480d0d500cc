import LisaMinix.Fs.Server.ZoneMap

/-!
# Bit Maps

What `alloc_bit` and `free_bit` do to a map whose blocks are in buffers, whatever else is in the
cache, and which zones `alloc_zone` and `free_zone` mean by the bits.

- `mapBit`: a bit of a map in buffers.
- `allocBit_run`: a clear bit is found and set, unless there is none.
- `freeBit_run`: one bit is cleared.
- `allocZone_run`, `freeZone_run`: the same for the zone that belongs to the bit.

A map of more than eight blocks has bits whose numbers do not fit 16 bits: `nineBlocks_wrong`.
-/

namespace LisaMinix.Fs.Server

open LisaMinix.Library Function

/-! ## §1 Maps in Buffers -/

/-- The `n` blocks of a map are in buffers, each in one of its own. -/
structure InBuffers (map : ℕ → Ptr BufId) (n : ℕ) (buf : ℕ → BufId) : Prop where
  ptr : ∀ k < n, map k = .to (buf k)
  inj : ∀ j < n, ∀ k < n, buf j = buf k → j = k

/-- A bit of the map. -/
def mapBit (buf : ℕ → BufId) (c : Cache) (i : ℕ) : Bool :=
  blockBit (c.buf (buf (i / bitsPerBlock))).data (i % bitsPerBlock)

/-- Bit `a` of the map has become `v`, and its block has been marked dirty.  Nothing else has
changed. -/
structure BitBecomes (buf : ℕ → BufId) (a : ℕ) (v : Bool) (c c' : Cache) : Prop where
  frame : c' = { c with buf := c'.buf }
  others : ∀ bp, bp ≠ buf (a / bitsPerBlock) → c'.buf bp = c.buf bp
  block : c'.buf (buf (a / bitsPerBlock)) = { c.buf (buf (a / bitsPerBlock)) with
    data := (c'.buf (buf (a / bitsPerBlock))).data, dirt := true }
  bits : ∀ j, blockBit (c'.buf (buf (a / bitsPerBlock))).data j =
    if j = a % bitsPerBlock then v else blockBit (c.buf (buf (a / bitsPerBlock))).data j

section

variable {map : ℕ → Ptr BufId} {buf : ℕ → BufId} {n a i : ℕ} {v : Bool} {c c' : Cache}

theorem div_lt_blocks (h : i < n * bitsPerBlock) : i / bitsPerBlock < n :=
  (Nat.div_lt_iff_lt_mul (by decide)).mpr h

/-- The bits of the whole map. -/
theorem BitBecomes.mapBit (h : BitBecomes buf a v c c') (hmap : InBuffers map n buf)
    (ha : a < n * bitsPerBlock) (hi : i < n * bitsPerBlock) :
    mapBit buf c' i = if i = a then v else mapBit buf c i := by
  unfold Server.mapBit
  by_cases hblock : i / bitsPerBlock = a / bitsPerBlock
  · rw [hblock, h.bits]
    have hsame : i % bitsPerBlock = a % bitsPerBlock ↔ i = a := by
      constructor
      · intro hmod
        rw [← Nat.div_add_mod i bitsPerBlock, hblock, hmod, Nat.div_add_mod]
      · rintro rfl
        rfl
    simp only [hsame]
  · have hne : i ≠ a := fun he => hblock (by rw [he])
    have hbuf : buf (i / bitsPerBlock) ≠ buf (a / bitsPerBlock) := fun he =>
      hblock (hmap.inj _ (div_lt_blocks hi) _ (div_lt_blocks ha) he)
    rw [if_neg hne, h.others _ hbuf]

variable {E : Panic → Cache → Prop}

/-- The words of one block have been changed in one bit. -/
theorem dirtyBuf_becomes {f : Block → Block}
    (hf : ∀ j, blockBit (f (c.buf (buf (a / bitsPerBlock))).data) j =
      if j = a % bitsPerBlock then v else blockBit (c.buf (buf (a / bitsPerBlock))).data j) :
    Wp E (dirtyBuf (buf (a / bitsPerBlock)) f) c fun _ c' => BitBecomes buf a v c c' := by
  simp only [dirtyBuf, wp_modBuf]
  refine ⟨rfl, fun bp hbp => update_of_ne hbp .., ?_, fun j => ?_⟩
  · simp only [update_self]
  · simp only [update_self]
    exact hf j

/-! ## §2 `alloc_bit` -/

/-- The bit that is found in a word is its lowest clear one. -/
theorem clearBit_some {k b : ℕ} (h : clearBit k = some b) :
    b < intBits ∧ k.testBit b = false ∧ ∀ j < b, k.testBit j = true := by
  obtain ⟨hclear, hmem, hset⟩ := List.find?_range_eq_some.mp h
  exact ⟨List.mem_range.mp hmem, by simpa using hclear, fun j hj => by simpa using hset j hj⟩

theorem clearBit_none {k j : ℕ} (h : clearBit k = none) (hj : j < intBits) : k.testBit j = true := by
  have hall := List.find?_eq_none.mp h j (List.mem_range.mpr hj)
  simpa using hall

theorem blockBit_word (data : Block) {w j : ℕ} (hj : j < intBits) :
    blockBit data (j + w * intBits) = (getWord data (2 * w)).testBit j := by
  unfold intBits at *
  unfold blockBit intBits
  rw [show (j + w * 16) / 16 = w by omega, show (j + w * 16) % 16 = j by omega]

/-- A block in which no bit is found has none below `map_bits`, from word `w` on. -/
theorem searchWords_none {data : Block} {mapBits b n w j : ℕ}
    (h : searchWords data mapBits b n w = none) (hw : w + n ≤ 512) (hb : b < zmapSlots)
    (hlow : w * intBits ≤ j) (hhigh : j < (w + n) * intBits) (hj : b * bitsPerBlock + j < mapBits) :
    blockBit data j = true := by
  induction n generalizing w with
  | zero => exact absurd hhigh (not_lt.mpr hlow)
  | succ n ih =>
    have hj16 : j % intBits < intBits := Nat.mod_lt _ (by decide)
    have hword : j / intBits = w → j = j % intBits + w * intBits := by
      rintro rfl
      exact (Nat.mod_add_div' j intBits).symm
    unfold searchWords at h
    split at h
    next hnone =>
      by_cases hdiv : j / intBits = w
      · rw [hword hdiv, blockBit_word data hj16]
        exact clearBit_none hnone hj16
      · apply ih h (by omega)
        · unfold intBits at *
          omega
        · rw [show w + 1 + n = w + (n + 1) by omega]
          exact hhigh
    next i hi =>
      obtain ⟨hlt, -, hset⟩ := clearBit_some hi
      dsimp only at h
      split at h
      next hpast =>
        -- the bit that is found is past the end of the map, and `j` is in front of it
        have hbit : toShort (i + w * intBits + b * bitsPerBlock) =
            i + w * intBits + b * bitsPerBlock := by
          unfold zmapSlots at hb
          unfold toShort intBits bitsPerBlock at *
          omega
        rw [hbit] at hpast
        have hdiv : j / intBits = w := by
          unfold intBits at *
          omega
        have hbelow : j % intBits < i := by
          have := hword hdiv
          omega
        rw [hword hdiv, blockBit_word data hj16]
        exact hset _ hbelow
      next => exact absurd h (by simp)

/-- The search of `count` blocks from word `w` of block `b` on, around the end of the map. -/
theorem searchBlocks_run {mapBits : ℕ} (hmap : InBuffers map n buf)
    (hslots : n ≤ zmapSlots) (count b w : ℕ) (hb : b < n) (hw : w ≤ 512) :
    Wp E (searchBlocks map mapBits n count b w) c fun a c' =>
      (a = 0 ∧ c' = c ∧ ∀ k < count, ∀ j < bitsPerBlock, (k = 0 → w * intBits ≤ j) →
        (b + k) % n * bitsPerBlock + j < mapBits →
          blockBit (c.buf (buf ((b + k) % n))).data j = true) ∨
      (a < mapBits ∧ a / bitsPerBlock < n ∧ Server.mapBit buf c a = false ∧
        BitBecomes buf a true c c') := by
  induction count generalizing b w with
  | zero => exact .inl ⟨rfl, rfl, fun k hk => absurd hk (Nat.not_lt_zero k)⟩
  | succ count ih =>
    unfold searchBlocks
    rw [hmap.ptr b hb]
    simp only [wp_bind, wp_readBuf]
    cases hfound : searchWords (c.buf (buf b)).data mapBits b (512 - w) w with
    | none =>
      -- the search goes on in the next block, and in block 0 after the last
      have hnext : (if b + 1 = n then 0 else b + 1) = (b + 1) % n := by
        split
        next heq => rw [heq, Nat.mod_self]
        next hne => rw [Nat.mod_eq_of_lt (by omega)]
      dsimp only
      rw [hnext]
      refine (ih _ 0 (Nat.mod_lt _ (by omega)) (Nat.zero_le _)).mono ?_
      rintro a c' (⟨ha, hc, hfull⟩ | hrest)
      · refine .inl ⟨ha, hc, fun k hk j hj hfirst hlt => ?_⟩
        cases k with
        | zero =>
          rw [Nat.add_zero, Nat.mod_eq_of_lt hb] at hlt ⊢
          apply searchWords_none hfound (by omega) (by omega) (hfirst rfl) _ hlt
          rw [Nat.add_sub_cancel' hw]
          exact hj
        | succ k =>
          have hround : ((b + 1) % n + k) % n = (b + (k + 1)) % n := by
            rw [Nat.mod_add_mod]
            congr 1
            omega
          have hblock := hfull k (by omega) j hj (by simp)
          rw [hround] at hblock
          exact hblock hlt
      · exact .inr hrest
    | some a =>
      obtain ⟨ha, hblock, hclear⟩ := searchWords_some hfound (by omega) (by omega)
      rw [← hblock] at hb hclear ⊢
      simp only [wp_bind, wp_pure]
      refine (dirtyBuf_becomes fun j => ?_).mono fun _ c' hbecomes => .inr ⟨ha, hb, hclear, hbecomes⟩
      rw [← mod_intBits, blockBit_set]
      by_cases hj : j = a % bitsPerBlock
      · rw [if_pos hj, decide_eq_true hj, Bool.or_true]
      · rw [if_neg hj, decide_eq_false hj, Bool.or_false]

/-- `alloc_bit` has returned `a`: a clear bit other than 0 has been set and nothing else has changed,
or every bit is set and nothing has changed. -/
structure BitAllocated (buf : ℕ → BufId) (mapBits : ℕ) (c : Cache) (a : ℕ) (c' : Cache) : Prop where
  none_iff : a = 0 ↔ ∀ i < mapBits, mapBit buf c i = true
  same : a = 0 → c' = c
  below : a ≠ 0 → a < mapBits
  clear : a ≠ 0 → mapBit buf c a = false
  becomes : a ≠ 0 → BitBecomes buf a true c c'

theorem BitAllocated.found {mapBits : ℕ} (hzero : 0 < mapBits → mapBit buf c 0 = true)
    (ha : a < mapBits) (hclear : mapBit buf c a = false) (h : BitBecomes buf a true c c') :
    BitAllocated buf mapBits c a c' := by
  have hne : a ≠ 0 := by
    rintro rfl
    rw [hzero ha] at hclear
    exact absurd hclear (by decide)
  refine ⟨⟨fun h => absurd h hne, fun hall => ?_⟩, fun h => absurd h hne, fun _ => ha, fun _ => hclear,
    fun _ => h⟩
  rw [hall a ha] at hclear
  exact absurd hclear (by decide)

/-- **`alloc_bit`**, for a map whose blocks cover it and whose bit 0 is set. -/
theorem allocBit_run {mapBits : ℕ} (hmap : InBuffers map n buf) (hslots : n ≤ zmapSlots)
    (hcover : mapBits ≤ n * bitsPerBlock) (hzero : 0 < mapBits → Server.mapBit buf c 0 = true)
    (origin : ℕ) : SurelyC (allocBit map mapBits n origin) c (BitAllocated buf mapBits c) := by
  unfold SurelyC allocBit
  rcases Nat.eq_zero_or_pos n with rfl | hn
  · -- a map without blocks
    obtain rfl : mapBits = 0 := by omega
    dsimp only
    rw [if_pos (Nat.zero_le origin), if_pos (by decide)]
    exact ⟨by simp, fun _ => rfl, fun h => absurd rfl h, fun h => absurd rfl h, fun h => absurd rfl h⟩
  dsimp only
  -- an origin past the end of the map is taken for 0
  set start := if mapBits ≤ origin then 0 else origin with hstart
  have hb : start / bitsPerBlock < n := by
    apply div_lt_blocks
    rw [hstart]
    split
    next => exact Nat.mul_pos hn (by decide)
    next hlt => exact lt_of_lt_of_le (not_le.mp hlt) hcover
  have hw : start % bitsPerBlock / intBits ≤ 512 := by
    unfold bitsPerBlock intBits
    omega
  refine (searchBlocks_run hmap hslots _ _ _ hb hw).mono ?_
  rintro a c' (⟨rfl, rfl, hfull⟩ | ⟨ha, -, hclear, hbecomes⟩)
  · refine ⟨⟨fun _ i hi => ?_, fun _ => rfl⟩, fun _ => rfl, fun h => absurd rfl h,
      fun h => absurd rfl h, fun h => absurd rfl h⟩
    -- the round in which the block of bit `i` is searched
    have hi' := div_lt_blocks (lt_of_lt_of_le hi hcover)
    have hj : i % bitsPerBlock < bitsPerBlock := Nat.mod_lt _ (by decide)
    have hsplit : i / bitsPerBlock * bitsPerBlock + i % bitsPerBlock < mapBits := by
      rw [Nat.div_add_mod']
      exact hi
    by_cases hfirst : i / bitsPerBlock = start / bitsPerBlock ∧
        i % bitsPerBlock < start % bitsPerBlock / intBits * intBits
    · -- the first block, below the word where the search has begun
      have hblock := hfull n (by
        rw [if_neg (by
          intro hzero
          rw [hzero, Nat.zero_mul] at hfirst
          exact absurd hfirst.2 (Nat.not_lt_zero _))]
        exact Nat.lt_succ_self n) _ hj (fun h => absurd h (ne_of_gt hn))
      rw [Nat.add_mod_right, Nat.mod_eq_of_lt hb, ← hfirst.1] at hblock
      exact hblock hsplit
    · have hround : (start / bitsPerBlock + (i / bitsPerBlock + n - start / bitsPerBlock) % n) % n =
          i / bitsPerBlock := by
        rw [Nat.add_mod_mod, Nat.add_sub_cancel' (le_trans hb.le (Nat.le_add_left ..)),
          Nat.add_mod_right, Nat.mod_eq_of_lt hi']
      have hlt : (i / bitsPerBlock + n - start / bitsPerBlock) % n < n := Nat.mod_lt _ hn
      have hblock := hfull _ (by split <;> omega) _ hj (fun hk => by
        rw [hk, Nat.add_zero, Nat.mod_eq_of_lt hb] at hround
        rw [not_and, not_lt] at hfirst
        exact hfirst hround.symm)
      rw [hround] at hblock
      exact hblock hsplit
  · exact .found hzero ha hclear hbecomes

/-! ## §3 `free_bit` -/

/-- **`free_bit`** clears the bit. -/
theorem freeBit_run {bit : ℕ} (hmap : InBuffers map n buf) (hbit : bit < n * bitsPerBlock) :
    Wp E (freeBit map bit) c fun _ c' => BitBecomes buf bit false c c' := by
  unfold freeBit
  rw [hmap.ptr _ (div_lt_blocks hbit)]
  refine dirtyBuf_becomes fun j => ?_
  dsimp only
  rw [← mod_intBits]
  exact blockBit_cleared _ _ j

end

/-! ## §4 Zones -/

/-- `(bit_nr) z - (sp->s_firstdatazone - 1)` -/
def zoneBit (x : Super) (z : ℕ) : ℕ := toShort (z + 65537 - x.firstdatazone)

/-- `sp->s_firstdatazone - 1 + (zone_nr) b` -/
def bitZone (x : Super) (b : ℕ) : ℕ := toShort (x.firstdatazone + 65535 + b)

/-- `(bit_nr) sp->s_nzones - sp->s_firstdatazone + 1` -/
def zmapBits (x : Super) : ℕ := toShort (x.nzones + 65536 - x.firstdatazone + 1)

/-- The zones have 16-bit numbers, and so have the bits of their map. -/
structure ZoneNumbers (x : Super) : Prop where
  order : x.firstdatazone ≤ x.nzones
  short : x.nzones < 65536
  most : x.nzones - x.firstdatazone + 1 < 65536

section

variable {x : Super} {z b : ℕ}

theorem ZoneNumbers.zmapBits (h : ZoneNumbers x) : zmapBits x = x.nzones - x.firstdatazone + 1 := by
  obtain ⟨horder, hshort, hmost⟩ := h
  unfold Server.zmapBits toShort
  omega

/-- A zone has a bit, and the bit has that zone. -/
theorem ZoneNumbers.bit (h : ZoneNumbers x) (hz : InRange x z) :
    zoneBit x z ≠ 0 ∧ zoneBit x z < Server.zmapBits x ∧ bitZone x (zoneBit x z) = z := by
  rw [h.zmapBits]
  obtain ⟨horder, hshort, hmost⟩ := h
  obtain ⟨hlow, hhigh⟩ := hz
  unfold bitZone zoneBit toShort
  omega

/-- A bit other than 0 has a zone, and the zone has that bit. -/
theorem ZoneNumbers.zone (h : ZoneNumbers x) (hb : b ≠ 0) (hlt : b < Server.zmapBits x) :
    InRange x (bitZone x b) ∧ zoneBit x (bitZone x b) = b := by
  rw [h.zmapBits] at hlt
  obtain ⟨horder, hshort, hmost⟩ := h
  unfold InRange bitZone zoneBit toShort
  omega

variable {E : Panic → FsState → Prop} {dev near : ℕ} {s : FsState} {sp : SuperId} {buf : ℕ → BufId}

/-- `alloc_zone` has returned `z`: that is the zone of a bit that `alloc_bit` has returned. -/
structure ZoneAllocated (x : Super) (buf : ℕ → BufId) (s : FsState) (z : ℕ) (s' : FsState) : Prop where
  frame : s' = { s with cache := s'.cache, g := { s.g with errCode := s'.g.errCode } }
  bit : ∃ b, BitAllocated buf (zmapBits x) s.cache b s'.cache ∧
    (b = 0 → z = 0 ∧ s'.g.errCode = ENOSPC) ∧ (b ≠ 0 → z = bitZone x b)

/-- **`alloc_zone`** -/
theorem allocZone_run (hsp : firstId (fun sp => (s.supers sp).dev = dev) = some sp)
    (hmap : InBuffers (s.supers sp).zmap (s.supers sp).zmapBlocks buf)
    (hslots : (s.supers sp).zmapBlocks ≤ zmapSlots)
    (hcover : zmapBits (s.supers sp) ≤ (s.supers sp).zmapBlocks * bitsPerBlock)
    (hzero : 0 < zmapBits (s.supers sp) → mapBit buf s.cache 0 = true) :
    Surely (allocZone dev near) s (ZoneAllocated (s.supers sp) buf s) := by
  unfold allocZone Surely
  rw [wp_bind, getSuper_spec hsp]
  simp only [wp_bind, wp_readSuper, wp_liftC]
  refine Wp.mono (allocBit_run hmap hslots hcover hzero _) fun b c' hbit => ?_
  refine wp_ite (fun hb => ?_) fun hb => ?_
  · simp only [wp_bind, wp_setErr, wp_pure]
    exact ⟨rfl, b, hbit, fun _ => ⟨rfl, rfl⟩, fun h => absurd hb h⟩
  · exact ⟨rfl, b, hbit, fun h => absurd h hb, fun _ => rfl⟩

/-- **`free_zone`** -/
theorem freeZone_run (hsp : firstId (fun sp => (s.supers sp).dev = dev) = some sp)
    (hmap : InBuffers (s.supers sp).zmap (s.supers sp).zmapBlocks buf) (hz : z ≠ 0)
    (hbit : zoneBit (s.supers sp) z < (s.supers sp).zmapBlocks * bitsPerBlock) :
    Wp E (freeZone dev z) s fun _ s' => s' = { s with cache := s'.cache } ∧
      BitBecomes buf (zoneBit (s.supers sp) z) false s.cache s'.cache := by
  unfold freeZone
  rw [if_neg hz, wp_bind, getSuper_spec hsp]
  simp only [wp_bind, wp_readSuper, wp_liftC]
  exact (freeBit_run hmap hbit).mono fun _ c' h => ⟨trivial, h⟩

end

/-! ## §5 All Maps -/

/-- **Bit maps of at most eight blocks**: what `alloc_bit`, `free_bit`, `alloc_zone` and `free_zone`
do to them, for every origin. -/
theorem bitMaps_run {map : ℕ → Ptr BufId} {buf : ℕ → BufId} {n mapBits : ℕ} {c : Cache}
    (hmap : InBuffers map n buf) (hslots : n ≤ zmapSlots) (hcover : mapBits ≤ n * bitsPerBlock)
    (hzero : 0 < mapBits → mapBit buf c 0 = true) :
    (∀ origin, SurelyC (allocBit map mapBits n origin) c (BitAllocated buf mapBits c)) ∧
    (∀ bit < n * bitsPerBlock,
      SurelyC (freeBit map bit) c fun _ c' => BitBecomes buf bit false c c') ∧
    (∀ a < n * bitsPerBlock, ∀ v c', BitBecomes buf a v c c' →
      ∀ i < n * bitsPerBlock, mapBit buf c' i = if i = a then v else mapBit buf c i) ∧
    (∀ x, ZoneNumbers x →
      (∀ z, InRange x z →
        zoneBit x z ≠ 0 ∧ zoneBit x z < zmapBits x ∧ bitZone x (zoneBit x z) = z) ∧
      ∀ b, b ≠ 0 → b < zmapBits x → InRange x (bitZone x b) ∧ zoneBit x (bitZone x b) = b) ∧
    ∀ s sp dev, s.cache = c → firstId (fun sp => (s.supers sp).dev = dev) = some sp →
      (s.supers sp).zmap = map → (s.supers sp).zmapBlocks = n → zmapBits (s.supers sp) = mapBits →
        ZoneNumbers (s.supers sp) →
          (∀ near, Surely (allocZone dev near) s (ZoneAllocated (s.supers sp) buf s)) ∧
          ∀ z, InRange (s.supers sp) z → z ≠ 0 → Surely (freeZone dev z) s fun _ s' =>
            s' = { s with cache := s'.cache } ∧
              BitBecomes buf (zoneBit (s.supers sp) z) false s.cache s'.cache := by
  refine ⟨allocBit_run hmap hslots hcover hzero, fun bit hbit => freeBit_run hmap hbit,
    fun a ha v c' h i hi => h.mapBit hmap ha hi,
    fun x hx => ⟨fun z => hx.bit, fun b => hx.zone⟩, ?_⟩
  rintro s sp dev rfl hsp rfl rfl rfl hx
  refine ⟨fun near => allocZone_run hsp hmap hslots hcover hzero, fun z hz hne => ?_⟩
  exact freeZone_run hsp hmap hne (lt_of_lt_of_le (hx.bit hz).2.1 hcover)

/-- The zone map of a device of three zones, of which the first is marked: the search begins at bit 3. -/
theorem bitMaps_run_zones :
    SurelyC (allocBit mapSuper.zmap 4 1 3) (lettersCache 1)
      (BitAllocated (fun _ => zmapBuf) 4 (lettersCache 1)) ∧
    SurelyC (freeBit mapSuper.zmap 1) (lettersCache 1)
      (fun _ c' => BitBecomes (fun _ => zmapBuf) 1 false (lettersCache 1) c') ∧
    bitZone mapSuper (zoneBit mapSuper 3) = 3 ∧
    Surely (allocZone 256 1) (mapFile fun _ => 0)
      (ZoneAllocated mapSuper (fun _ => zmapBuf) (mapFile fun _ => 0)) ∧
    Surely (freeZone 256 1) (mapFile fun _ => 0) fun _ s' =>
      s' = { mapFile (fun _ => 0) with cache := s'.cache } ∧
        BitBecomes (fun _ => zmapBuf) 1 false (lettersCache 1) s'.cache := by
  have hnumbers : ZoneNumbers mapSuper := ⟨by decide, by decide, by decide⟩
  have hmap : InBuffers mapSuper.zmap 1 fun _ => zmapBuf := by
    refine ⟨fun k hk => ?_, fun j hj k hk _ => by omega⟩
    obtain rfl : k = 0 := by omega
    rfl
  obtain ⟨halloc, hfree, -, hzones, hcalls⟩ := bitMaps_run (c := lettersCache 1) hmap (by decide)
    (show 4 ≤ 1 * bitsPerBlock by decide) fun _ => by decide
  obtain ⟨hallocZone, hfreeZone⟩ := hcalls (mapFile fun _ => 0) rootSuper 256 rfl rfl rfl rfl rfl hnumbers
  exact ⟨halloc 3, hfree 1 (by decide), ((hzones mapSuper hnumbers).1 3 ⟨by decide, by decide⟩).2.2,
    hallocZone 1, hfreeZone 1 ⟨by decide, by decide⟩ (by decide)⟩

/-- Nine blocks: bits 0 and 1 are set in the first, and bit 0 in the last. -/
def nineBlocks (bp : BufId) : Buf :=
  { data := fun p => if p = 1 then (if bp.val = 0 then 3 else if bp.val = 8 then 1 else 0) else 0
    blocknr := 3 + bp.val
    dev := 256
    dirt := false
    count := 1 }

def nineCache : Cache := { lettersCache 1 with buf := nineBlocks }

def nineBuf (k : ℕ) : BufId := ⟨k % nrBufs, Nat.mod_lt _ (by decide)⟩

/-- The number of bit 1 of the ninth block is 1 in 16 bits: that bit is returned, and is set. -/
theorem nineBlocks_wrong : InBuffers (fun k => .to (nineBuf k)) 9 nineBuf ∧ 2 ≤ 9 * bitsPerBlock ∧
    mapBit nineBuf nineCache 0 = true ∧ mapBit nineBuf nineCache 1 = true ∧
    ¬SurelyC (allocBit (fun k => .to (nineBuf k)) 2 9 0) nineCache (BitAllocated nineBuf 2 nineCache) := by
  refine ⟨⟨fun _ _ => rfl, ?_⟩, by decide, by decide, by decide, fun h => ?_⟩
  · decide
  · have hfound : (allocBit (fun k => .to (nineBuf k)) 2 9 0 nineCache).1 = .ok 1 := rfl
    unfold SurelyC Wp at h
    generalize allocBit (fun k => .to (nineBuf k)) 2 9 0 nineCache = r at h hfound
    obtain ⟨_, c'⟩ := r
    obtain rfl : _ = Except.ok 1 := hfound
    exact absurd (h.clear (by decide)) (by decide)

end LisaMinix.Fs.Server
