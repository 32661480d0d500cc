import LisaMinix.Fs.Server.Coherence
import LisaMinix.Fs.Server.Inode

/-!
# Zone Maps

The bit map of the zones of a device, as the logical blocks of the device hold it, and how
`alloc_zone` changes it.

- `bitAt`: a bit of the zone map.
- `ZmapHeld`: the map is in buffers, as it is while the device is mounted.
- `allocZone_spec`: the zone that is allocated was free; nothing but the map changes.
- `freeZone_clears`: the zone becomes free, and no other.
-/

namespace LisaMinix.Fs.Server

open LisaMinix.Library

variable {dev base n mapBits a z : ℕ} {c c' : Cache} {E : Panic → FsState → Prop} {s : FsState}
  {sp : SuperId} {x : Super}

/-! ## §1 Words of a Block -/

theorem getByte_putByte (b : Block) (p q v : ℕ) :
    getByte (putByte b p v) q = if q = p then v % 256 else getByte b q := by
  unfold getByte putByte
  rcases eq_or_ne q p with rfl | hne
  · rw [Function.update_self, if_pos rfl]
    exact UInt8.toNat_ofNat'
  · rw [Function.update_of_ne hne, if_neg hne]

theorem getWord_lt (b : Block) (p : ℕ) : getWord b p < 65536 := by
  have h1 : getByte b p < 256 := (b p).toNat_lt
  have h2 : getByte b (p + 1) < 256 := (b (p + 1)).toNat_lt
  unfold getWord
  omega

/-- Words that do not overlap. -/
theorem getWord_putWord (b : Block) {p q : ℕ} (v : ℕ) (h : q = p ∨ q + 1 < p ∨ p + 1 < q) :
    getWord (putWord b p v) q = if q = p then v % 65536 else getWord b q := by
  unfold getWord putWord
  simp only [getByte_putByte]
  rcases h with rfl | h | h
  · rw [if_pos rfl]
    split_ifs <;> omega
  · rw [if_neg (show q ≠ p by omega)]
    split_ifs <;> omega
  · rw [if_neg (show q ≠ p by omega)]
    split_ifs <;> omega

theorem getInd_putWord (b : Block) (i j v : ℕ) (hv : v < 65536) :
    getInd (putWord b (2 * i) v) j = if j = i then v else getInd b j := by
  unfold getInd
  rw [getWord_putWord b v (by omega)]
  rcases eq_or_ne j i with rfl | hne
  · rw [if_pos rfl, if_pos rfl, Nat.mod_eq_of_lt hv]
  · rw [if_neg (by omega), if_neg hne]

@[simp] theorem getInd_zero (i : ℕ) : getInd zeroBytes i = 0 := rfl

/-! ## §2 Bits -/

/-- The bit of a map that begins in block `base`. -/
def bitAt (B : ℕ → Block) (base i : ℕ) : Bool :=
  (getWord (B (base + i / bitsPerBlock)) (2 * (i % bitsPerBlock / intBits))).testBit (i % intBits)

theorem mod_intBits (a : ℕ) : a % bitsPerBlock % intBits = a % intBits :=
  Nat.mod_mod_of_dvd a (by decide)

/-- A bit of one block of a map. -/
def blockBit (data : Block) (i : ℕ) : Bool :=
  (getWord data (2 * (i / intBits))).testBit (i % intBits)

theorem bitAt_eq (B : ℕ → Block) (base i : ℕ) :
    bitAt B base i = blockBit (B (base + i / bitsPerBlock)) (i % bitsPerBlock) := by
  rw [bitAt, blockBit, mod_intBits]

theorem blockBit_set (data : Block) (i j : ℕ) :
    let p := 2 * (i / intBits)
    blockBit (putWord data p (getWord data p ||| 1 <<< (i % intBits))) j =
      (blockBit data j || decide (j = i)) := by
  intro p
  have hword : getWord data p ||| 1 <<< (i % intBits) < 65536 := by
    have hbit : 1 <<< (i % intBits) < 2 ^ 16 := by
      rw [Nat.one_shiftLeft]
      exact Nat.pow_lt_pow_right (by decide) (Nat.mod_lt _ (by decide))
    exact Nat.or_lt_two_pow (getWord_lt data p) hbit
  unfold blockBit
  rw [getWord_putWord data _ (by omega)]
  split
  next heq =>
    rw [Nat.mod_eq_of_lt hword, Nat.testBit_or, Nat.one_shiftLeft, Nat.testBit_two_pow]
    rw [show 2 * (j / intBits) = p from heq]
    congr 1
    have hdiv : j / intBits = i / intBits := by omega
    rw [decide_eq_decide]
    constructor
    · intro hmod
      rw [← Nat.div_add_mod j intBits, ← Nat.div_add_mod i intBits, hdiv, hmod]
    · rintro rfl
      rfl
  next hne =>
    have hji : j ≠ i := by
      rintro rfl
      exact hne rfl
    simp [hji]

/-! ## §3 `alloc_bit` -/

/-- A map is in buffers: its blocks are those of the device from `base` on. -/
def MapHeld (map : ℕ → Ptr BufId) (dev base n : ℕ) (c : Cache) : Prop :=
  ∀ k, k < n → ∃ bp, map k = .to bp ∧ Holds c bp dev (base + k) ∧ 0 < (c.buf bp).count

theorem MapHeld.lent {map : ℕ → Ptr BufId} {o : Option BufId} (h : MapHeld map dev base n c)
    (hlent : Lent o c c') : MapHeld map dev base n c' := by
  intro k hk
  obtain ⟨bp, hmap, hholds, hpos⟩ := h k hk
  exact ⟨bp, hmap, hlent.holds hpos hholds, lt_of_lt_of_le hpos (hlent.count_le bp)⟩

/-- What `alloc_bit` does to a map of `n` blocks; bit `a` has been taken. -/
structure BitTaken (dev base n mapBits a : ℕ) (c c' : Cache) : Prop where
  coherent : Coherent none c'
  lent : Lent none c c'
  sameDev : ∀ x, (c'.buf x).dev = (c.buf x).dev
  others : ∀ d b, d ≠ noDev → ¬(d = dev ∧ base ≤ b ∧ b < base + n) → blockAt c' d b = blockAt c d b
  kept : ∀ i, bitAt (blockAt c dev) base i = true → bitAt (blockAt c' dev) base i = true
  only : ∀ i, i ≠ a → bitAt (blockAt c' dev) base i = true → bitAt (blockAt c dev) base i = true
  taken : a ≠ 0 → a < mapBits ∧ bitAt (blockAt c dev) base a = false ∧
    bitAt (blockAt c' dev) base a = true

/-- A bit that is found in a block is clear. -/
theorem searchWords_some {data : Block} {b w : ℕ} (h : searchWords data mapBits b n w = some a)
    (hw : w + n ≤ 512) (hb : b < zmapSlots) :
    a < mapBits ∧ a / bitsPerBlock = b ∧ blockBit data (a % bitsPerBlock) = false := by
  induction n generalizing w with
  | zero => exact absurd h (by simp [searchWords])
  | succ n ih =>
    unfold searchWords at h
    split at h
    next => exact ih h (by omega)
    next i hi =>
      obtain ⟨hclear, hmem⟩ : (getWord data (2 * w)).testBit i = false ∧ i < intBits := by
        have hfound := List.find?_some hi
        have hmem := List.mem_of_find?_eq_some hi
        exact ⟨by simpa using hfound, List.mem_range.mp hmem⟩
      dsimp only at h
      split at h
      next => exact absurd h (by simp)
      next hlt =>
        obtain rfl := Option.some.inj h
        unfold intBits at hmem
        unfold zmapSlots at hb
        unfold blockBit bitsPerBlock intBits at *
        rw [toShort, Nat.mod_eq_of_lt (by omega)] at hlt ⊢
        refine ⟨by omega, by omega, ?_⟩
        rw [show (i + w * 16 + b * 8192) % 8192 / 16 = w by omega,
          show (i + w * 16 + b * 8192) % 8192 % 16 = i by omega]
        exact hclear

/-- The bit is set in its block. -/
theorem bitTaken_dirty {E : Panic → Cache → Prop} {bp : BufId} (hc : Coherent none c)
    (hdev : dev ≠ noDev) (hk : a / bitsPerBlock < n)
    (hholds : Holds c bp dev (base + a / bitsPerBlock)) (hpos : 0 < (c.buf bp).count)
    (ha : a < mapBits) (hclear : blockBit (c.buf bp).data (a % bitsPerBlock) = false) :
    Wp E (dirtyBuf bp fun data =>
      let p := 2 * (a % bitsPerBlock / intBits)
      putWord data p (getWord data p ||| 1 <<< (a % intBits))) c
        fun _ c' => BitTaken dev base n mapBits a c c' := by
  have hloose := hc.loosen (ne_of_gt hpos)
  refine (dirtyBuf_spec hloose).mono ?_
  rintro _ c' ⟨htouched, hc', hdata⟩
  have hblock : ∀ d b, d ≠ noDev → blockAt c' d b =
      if Holds c bp d b then (c'.buf bp).data else blockAt c d b :=
    fun d b hd => htouched.blockAt hc.toLinked hd
  have hold : blockAt c dev (base + a / bitsPerBlock) = (c.buf bp).data :=
    hc.toLinked.blockAt_held hholds hdev
  rw [← mod_intBits] at hdata
  -- the bits of the map, of which one has changed
  have hbits : ∀ i, bitAt (blockAt c' dev) base i = (bitAt (blockAt c dev) base i || decide (i = a)) := by
    intro i
    rw [bitAt_eq, bitAt_eq, hblock dev _ hdev]
    by_cases hi : i / bitsPerBlock = a / bitsPerBlock
    · rw [hi, if_pos hholds, hdata, blockBit_set, hold]
      congr 1
      rw [decide_eq_decide]
      constructor
      · intro h
        rw [← Nat.div_add_mod i bitsPerBlock, hi, h, Nat.div_add_mod]
      · rintro rfl
        rfl
    · have hne : ¬Holds c bp dev (base + i / bitsPerBlock) := by
        intro h
        have := h.2.symm.trans hholds.2
        omega
      have hia : i ≠ a := by
        rintro rfl
        exact hi rfl
      simp [hne, hia]
  refine ⟨hc', (Lent.refl c).touched htouched, fun x => (htouched.keeps x).1, fun d b hd hnot => ?_,
    fun i hi => ?_, fun i hne hi => ?_, fun _ => ?_⟩
  · rw [hblock d b hd, if_neg]
    rintro ⟨rfl, rfl⟩
    rw [hholds.1, hholds.2] at hnot
    exact hnot ⟨rfl, Nat.le_add_right .., Nat.add_lt_add_left hk base⟩
  · rw [hbits, hi, Bool.true_or]
  · rwa [hbits, decide_eq_false hne, Bool.or_false] at hi
  · refine ⟨ha, ?_, ?_⟩
    · rw [bitAt_eq, hold]
      exact hclear
    · rw [hbits, decide_eq_true rfl, Bool.or_true]

theorem BitTaken.none (hc : Coherent none c) : BitTaken dev base n mapBits 0 c c where
  coherent := hc
  lent := .refl c
  sameDev _ := rfl
  others _ _ _ _ := rfl
  kept _ h := h
  only _ _ h := h
  taken h := absurd rfl h

theorem searchBlocks_spec {E : Panic → Cache → Prop} {map : ℕ → Ptr BufId} (hc : Coherent none c)
    (hdev : dev ≠ noDev) (hmap : MapHeld map dev base n c) (count b w : ℕ) (hb : b < n)
    (hw : w ≤ 512) (hslots : n ≤ zmapSlots) :
    Wp E (searchBlocks map mapBits n count b w) c
      fun a c' => BitTaken dev base n mapBits a c c' := by
  induction count generalizing b w with
  | zero => exact .none hc
  | succ count ih =>
    obtain ⟨bp, hptr, hholds, hpos⟩ := hmap b hb
    unfold searchBlocks
    rw [hptr]
    simp only [wp_bind, wp_readBuf]
    cases hfound : searchWords (c.buf bp).data mapBits b (512 - w) w with
    | none =>
      apply ih
      · split <;> omega
      · omega
    | some a =>
      obtain ⟨ha, hblock, hclear⟩ := searchWords_some hfound (by omega) (by omega)
      rw [← hblock] at hholds hb
      simp only [wp_bind, wp_pure]
      exact bitTaken_dirty hc hdev hb hholds hpos ha hclear

theorem allocBit_spec {E : Panic → Cache → Prop} {map : ℕ → Ptr BufId} (hc : Coherent none c)
    (hdev : dev ≠ noDev) (hmap : MapHeld map dev base n c) (hn : 0 < n) (hslots : n ≤ zmapSlots)
    (hbits : mapBits ≤ n * bitsPerBlock) (origin : ℕ) :
    Wp E (allocBit map mapBits n origin) c fun a c' => BitTaken dev base n mapBits a c c' := by
  have horigin : (if mapBits ≤ origin then 0 else origin) / bitsPerBlock < n := by
    rw [Nat.div_lt_iff_lt_mul (by decide)]
    split
    next => exact Nat.mul_pos hn (by decide)
    next h => exact lt_of_lt_of_le (not_le.mp h) hbits
  unfold allocBit
  refine searchBlocks_spec hc hdev hmap _ _ _ horigin ?_ hslots
  unfold bitsPerBlock intBits
  omega

/-! ## §4 `alloc_zone` -/

/-- A super block that describes a device whose block numbers fit 16 bits. -/
structure Geometry (x : Super) : Prop where
  dev : x.dev ≠ noDev
  maps : 0 < x.zmapBlocks
  slots : x.zmapBlocks ≤ zmapSlots
  first : 0 < x.firstdatazone
  order : x.firstdatazone ≤ x.nzones
  short : x.nzones < 65536
  bits : x.nzones - x.firstdatazone + 1 ≤ x.zmapBlocks * bitsPerBlock
  below : 2 + x.imapBlocks + x.zmapBlocks ≤ x.firstdatazone * 2 ^ x.logZoneSize
  fits : x.nzones * 2 ^ x.logZoneSize ≤ 65536

/-- The zone is marked in the map. -/
def zoneBusy (x : Super) (B : ℕ → Block) (z : ℕ) : Bool :=
  bitAt B (2 + x.imapBlocks) (z + 1 - x.firstdatazone)

/-- What `alloc_zone` does; `z` is 0 if there is no free zone. -/
structure ZoneTaken (x : Super) (z : ℕ) (c c' : Cache) : Prop where
  coherent : Coherent none c'
  lent : Lent none c c'
  sameDev : ∀ y, (c'.buf y).dev = (c.buf y).dev
  others : ∀ d b, d ≠ noDev → (d = x.dev → x.firstdatazone * 2 ^ x.logZoneSize ≤ b) →
    blockAt c' d b = blockAt c d b
  kept : ∀ y, zoneBusy x (blockAt c x.dev) y = true → zoneBusy x (blockAt c' x.dev) y = true
  only : ∀ y, x.firstdatazone ≤ y → y ≠ z → zoneBusy x (blockAt c' x.dev) y = true →
    zoneBusy x (blockAt c x.dev) y = true
  taken : z ≠ 0 → x.firstdatazone ≤ z ∧ z < x.nzones ∧ zoneBusy x (blockAt c x.dev) z = false ∧
    zoneBusy x (blockAt c' x.dev) z = true

/-- The zone map of a mounted device. -/
abbrev ZmapHeld (x : Super) (c : Cache) : Prop :=
  MapHeld x.zmap x.dev (2 + x.imapBlocks) x.zmapBlocks c

theorem getSuper_spec (hsp : firstId (fun sp => (s.supers sp).dev = dev) = some sp)
    {Q : SuperId → FsState → Prop} : Wp E (getSuper dev) s Q ↔ Q sp s := by
  unfold getSuper
  simp only [wp_bind, wp_get]
  rw [hsp]
  exact Iff.rfl

/-- A bit of the map that has been taken is a zone. -/
theorem BitTaken.zone (hg : Geometry x)
    (h : BitTaken x.dev (2 + x.imapBlocks) x.zmapBlocks (x.nzones - x.firstdatazone + 1) a c c') :
    ZoneTaken x (if a = 0 then 0 else toShort (x.firstdatazone + 65535 + a)) c c' where
  coherent := h.coherent
  lent := h.lent
  sameDev := h.sameDev
  others d b hd hb := by
    apply h.others d b hd
    rintro ⟨heq, -, hlt⟩
    exact absurd (hb heq) (not_le.mpr (lt_of_lt_of_le hlt hg.below))
  kept y hy := h.kept _ hy
  only y hlow hne hy := by
    apply h.only _ ?_ hy
    rintro rfl
    have hlt := (h.taken (by omega)).1
    have h2 := hg.short
    have h3 := hg.first
    apply hne
    rw [if_neg (by omega), toShort]
    omega
  taken hz := by
    have ha : a ≠ 0 := fun he => hz (if_pos he)
    obtain ⟨hlt, hclear, hset⟩ := h.taken ha
    have h1 := hg.order
    have h2 := hg.short
    have h3 := hg.first
    have hzone : toShort (x.firstdatazone + 65535 + a) = x.firstdatazone - 1 + a := by
      unfold toShort
      omega
    rw [if_neg ha, hzone, zoneBusy, zoneBusy,
      show x.firstdatazone - 1 + a + 1 - x.firstdatazone = a by omega]
    exact ⟨by omega, by omega, hclear, hset⟩

theorem allocZone_spec {near : ℕ} (hsp : firstId (fun sp => (s.supers sp).dev = dev) = some sp)
    (hg : Geometry (s.supers sp)) (hc : Coherent none s.cache)
    (hmap : ZmapHeld (s.supers sp) s.cache) :
    Wp E (allocZone dev near) s fun z s' =>
      s' = { s with cache := s'.cache, g := { s.g with errCode := s'.g.errCode } } ∧
        (z = 0 → s'.g.errCode = ENOSPC) ∧ ZoneTaken (s.supers sp) z s.cache s'.cache := by
  have hmapBits : toShort ((s.supers sp).nzones + 65536 - (s.supers sp).firstdatazone + 1) =
      (s.supers sp).nzones - (s.supers sp).firstdatazone + 1 := by
    have h1 := hg.order
    have h2 := hg.short
    have h3 := hg.first
    unfold toShort
    omega
  unfold allocZone
  rw [wp_bind, getSuper_spec hsp]
  simp only [wp_bind, wp_readSuper, wp_liftC]
  rw [hmapBits]
  refine Wp.mono (allocBit_spec hc hg.dev hmap hg.maps hg.slots hg.bits _) fun a c' h => ?_
  have hzone := h.zone hg
  refine wp_ite (fun ha => ?_) fun ha => ?_
  · rw [if_pos ha] at hzone
    simp only [wp_bind, wp_setErr, wp_pure]
    exact ⟨trivial, fun _ => trivial, hzone⟩
  · rw [if_neg ha] at hzone
    refine ⟨rfl, fun hz => ?_, hzone⟩
    -- no zone has the number 0
    have hlt := (h.taken ha).1
    have h1 := hg.order
    have h2 := hg.short
    have h3 := hg.first
    unfold toShort at hz
    omega

/-! ## §5 `free_zone` -/

/-- What `free_zone` does: zone `z` is free again. -/
structure ZoneFreed (x : Super) (z : ℕ) (c c' : Cache) : Prop where
  coherent : Coherent none c'
  lent : Lent none c c'
  sameDev : ∀ y, (c'.buf y).dev = (c.buf y).dev
  others : ∀ d b, d ≠ noDev → (d = x.dev → x.firstdatazone * 2 ^ x.logZoneSize ≤ b) →
    blockAt c' d b = blockAt c d b
  kept : ∀ y, x.firstdatazone ≤ y → y ≠ z → zoneBusy x (blockAt c x.dev) y = true →
    zoneBusy x (blockAt c' x.dev) y = true

/-- A bit that is set is taken off. -/
theorem testBit_sub_two_pow {k i j : ℕ} (hset : k.testBit i = true) (hj : j ≠ i) :
    (k - 2 ^ i).testBit j = k.testBit j := by
  have hle : 2 ^ i ≤ k := Nat.ge_two_pow_of_testBit hset
  rcases Nat.lt_or_gt_of_ne hj with hlt | hgt
  · have hbit := Nat.testBit_two_pow_add_gt hlt (k - 2 ^ i)
    rw [Nat.add_sub_cancel' hle] at hbit
    exact hbit.symm
  · -- the bits above are those of half of `k / 2 ^ i`, which is odd
    obtain ⟨m, rfl⟩ : ∃ m, j = i + 1 + m := ⟨j - (i + 1), by omega⟩
    have hodd : k / 2 ^ i % 2 = 1 := by
      rw [Nat.testBit_eq_decide_div_mod_eq] at hset
      exact of_decide_eq_true hset
    have hless : (k - 2 ^ i) / 2 ^ i = k / 2 ^ i - 1 := by
      have hsub := Nat.sub_mul_div k (2 ^ i) 1
      rwa [Nat.mul_one] at hsub
    have hsame : (k - 2 ^ i) / 2 ^ (i + 1) = k / 2 ^ (i + 1) := by
      rw [Nat.pow_succ, ← Nat.div_div_eq_div_mul, ← Nat.div_div_eq_div_mul, hless]
      generalize k / 2 ^ i = h at hodd
      omega
    rw [Nat.testBit_eq_decide_div_mod_eq, Nat.testBit_eq_decide_div_mod_eq, Nat.pow_add,
      ← Nat.div_div_eq_div_mul, ← Nat.div_div_eq_div_mul, hsame]

theorem blockBit_clear (data : Block) {i j : ℕ} (hj : j ≠ i) :
    let p := 2 * (i / intBits)
    let k := getWord data p
    blockBit (putWord data p (if k.testBit (i % intBits) then k - 1 <<< (i % intBits) else k)) j =
      blockBit data j := by
  intro p k
  have hk : k < 65536 := getWord_lt data p
  unfold blockBit
  rw [getWord_putWord data _ (by omega)]
  split
  next heq =>
    have hmod : j % intBits ≠ i % intBits := by
      intro hmod
      have hdiv : j / intBits = i / intBits := by omega
      apply hj
      rw [← Nat.div_add_mod j intBits, ← Nat.div_add_mod i intBits, hdiv, hmod]
    rw [show 2 * (j / intBits) = p from heq]
    split
    next hset =>
      rw [Nat.mod_eq_of_lt (lt_of_le_of_lt (Nat.sub_le ..) hk), Nat.one_shiftLeft]
      exact testBit_sub_two_pow hset hmod
    next => rw [Nat.mod_eq_of_lt hk]
  next => rfl

theorem testBit_sub_two_pow_self {k b : ℕ} (hset : k.testBit b = true) :
    (k - 2 ^ b).testBit b = false := by
  have hbit := Nat.testBit_two_pow_add_eq (k - 2 ^ b) b
  rw [Nat.add_sub_cancel' (Nat.ge_two_pow_of_testBit hset), hset] at hbit
  simpa using hbit.symm

theorem blockBit_clear_self (data : Block) (i : ℕ) :
    let p := 2 * (i / intBits)
    let k := getWord data p
    blockBit (putWord data p (if k.testBit (i % intBits) then k - 1 <<< (i % intBits) else k)) i =
      false := by
  intro p k
  have hk : k < 65536 := getWord_lt data p
  unfold blockBit
  rw [getWord_putWord data _ (.inl rfl), if_pos rfl]
  split
  next hset =>
    rw [Nat.mod_eq_of_lt (lt_of_le_of_lt (Nat.sub_le ..) hk), Nat.one_shiftLeft]
    exact testBit_sub_two_pow_self hset
  next hclear =>
    rw [Nat.mod_eq_of_lt hk]
    simpa using hclear

/-- What `free_zone` does: zone `z` is not marked any more, and the others are as they were. -/
structure ZoneCleared (x : Super) (z : ℕ) (c c' : Cache) : Prop where
  coherent : Coherent none c'
  lent : Lent none c c'
  sameDev : ∀ y, (c'.buf y).dev = (c.buf y).dev
  others : ∀ d b, d ≠ noDev → (d = x.dev → x.firstdatazone * 2 ^ x.logZoneSize ≤ b) →
    blockAt c' d b = blockAt c d b
  busy : ∀ y, x.firstdatazone ≤ y → (zoneBusy x (blockAt c' x.dev) y = true ↔
    zoneBusy x (blockAt c x.dev) y = true ∧ y ≠ z)

theorem ZoneCleared.refl (hg : Geometry x) (hc : Coherent none c) : ZoneCleared x 0 c c where
  coherent := hc
  lent := .refl c
  sameDev _ := rfl
  others _ _ _ _ := rfl
  busy y hy := by
    have hfirst := hg.first
    exact ⟨fun h => ⟨h, by omega⟩, And.left⟩

theorem ZoneCleared.freed (h : ZoneCleared x z c c') : ZoneFreed x z c c' where
  coherent := h.coherent
  lent := h.lent
  sameDev := h.sameDev
  others := h.others
  kept y hy hne hbusy := (h.busy y hy).mpr ⟨hbusy, hne⟩

/-- A bit is taken off in its block. -/
theorem blockBit_cleared (data : Block) (i j : ℕ) :
    let p := 2 * (i / intBits)
    let k := getWord data p
    blockBit (putWord data p (if k.testBit (i % intBits) then k - 1 <<< (i % intBits) else k)) j =
      if j = i then false else blockBit data j := by
  rcases eq_or_ne j i with rfl | hne
  · rw [if_pos rfl]
    exact blockBit_clear_self data j
  · rw [if_neg hne]
    exact blockBit_clear data hne

/-- The bits of a map of which one is in the block that has been changed. -/
theorem bitAt_cleared {bp : BufId} (hc : Linked c) (hdev : dev ≠ noDev)
    (hholds : Holds c bp dev (base + a / bitsPerBlock)) (htouched : Touched bp c c')
    (hbits : ∀ j, blockBit (c'.buf bp).data j =
      if j = a % bitsPerBlock then false else blockBit (c.buf bp).data j) (i : ℕ) :
    bitAt (blockAt c' dev) base i = if i = a then false else bitAt (blockAt c dev) base i := by
  rw [bitAt_eq, bitAt_eq, htouched.blockAt hc hdev]
  by_cases hi : i / bitsPerBlock = a / bitsPerBlock
  · rw [hi, if_pos hholds, hbits, hc.blockAt_held hholds hdev]
    have hsame : i % bitsPerBlock = a % bitsPerBlock ↔ i = a := by
      constructor
      · intro hmod
        rw [← Nat.div_add_mod i bitsPerBlock, hi, hmod, Nat.div_add_mod]
      · rintro rfl
        rfl
    simp only [hsame]
  · have hne : ¬Holds c bp dev (base + i / bitsPerBlock) := by
      intro h
      have heq := h.2.symm.trans hholds.2
      omega
    have hia : i ≠ a := fun he => hi (by rw [he])
    rw [if_neg hne, if_neg hia]

/-- **`free_zone`** for a zone of the device, or none. -/
theorem freeZone_clears (hsp : firstId (fun sp => (s.supers sp).dev = dev) = some sp)
    (hg : Geometry (s.supers sp)) (hc : Coherent none s.cache)
    (hmap : ZmapHeld (s.supers sp) s.cache)
    (hz : z ≠ 0 → (s.supers sp).firstdatazone ≤ z ∧ z < (s.supers sp).nzones) :
    Wp E (freeZone dev z) s fun _ s' =>
      s' = { s with cache := s'.cache } ∧ ZoneCleared (s.supers sp) z s.cache s'.cache := by
  unfold freeZone
  refine wp_ite (fun hzero => ?_) fun hne => ?_
  · rw [hzero]
    exact ⟨rfl, .refl hg hc⟩
  obtain ⟨hlow, hhigh⟩ := hz hne
  have h2 := hg.short
  have h3 := hg.first
  have hbits := hg.bits
  have hbit : toShort (z + 65537 - (s.supers sp).firstdatazone) =
      z + 1 - (s.supers sp).firstdatazone := by
    unfold toShort
    omega
  have hk : (z + 1 - (s.supers sp).firstdatazone) / bitsPerBlock < (s.supers sp).zmapBlocks := by
    rw [Nat.div_lt_iff_lt_mul (by decide)]
    omega
  obtain ⟨bp, hptr, hholds, hpos⟩ := hmap _ hk
  rw [wp_bind, getSuper_spec hsp]
  simp only [wp_bind, wp_readSuper, wp_liftC]
  rw [hbit, freeBit, hptr]
  refine Wp.mono (dirtyBuf_spec (hc.loosen (ne_of_gt hpos))) ?_
  rintro _ c' ⟨htouched, hc', hdata⟩
  have hcleared : ∀ i, bitAt (blockAt c' (s.supers sp).dev) (2 + (s.supers sp).imapBlocks) i =
      if i = z + 1 - (s.supers sp).firstdatazone then false
      else bitAt (blockAt s.cache (s.supers sp).dev) (2 + (s.supers sp).imapBlocks) i := by
    refine bitAt_cleared hc.toLinked hg.dev hholds htouched fun j => ?_
    rw [hdata, ← mod_intBits]
    exact blockBit_cleared _ _ j
  refine ⟨trivial, hc', (Lent.refl _).touched htouched, fun x => (htouched.keeps x).1,
    fun d b hd hb => ?_, fun y hy => ?_⟩
  · rw [htouched.blockAt hc.toLinked hd, if_neg]
    rintro ⟨rfl, rfl⟩
    have hlow := hb hholds.1
    have hbelow := hg.below
    rw [hholds.2] at hlow
    omega
  · unfold zoneBusy
    rw [hcleared]
    split
    next heq =>
      have hyz : y = z := by omega
      exact ⟨fun h => absurd h (by decide), fun h => absurd hyz h.2⟩
    next hne' => exact ⟨fun h => ⟨h, fun hyz => hne' (by rw [hyz])⟩, And.left⟩

theorem freeZone_spec (hsp : firstId (fun sp => (s.supers sp).dev = dev) = some sp)
    (hg : Geometry (s.supers sp)) (hc : Coherent none s.cache)
    (hmap : ZmapHeld (s.supers sp) s.cache)
    (hz : (s.supers sp).firstdatazone ≤ z ∧ z < (s.supers sp).nzones) :
    Wp E (freeZone dev z) s fun _ s' =>
      s' = { s with cache := s'.cache } ∧ ZoneFreed (s.supers sp) z s.cache s'.cache :=
  (freeZone_clears hsp hg hc hmap fun _ => hz).mono fun _ _ h => ⟨h.1, h.2.freed⟩

end LisaMinix.Fs.Server
