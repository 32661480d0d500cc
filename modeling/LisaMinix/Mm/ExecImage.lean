import LisaMinix.Kernel.Umap

/-!
# What a Header Can Do to Memory

`do_exec` takes the sizes of the new image from the header of the file, eight longs that anybody can
write.  They become clicks, 16-bit numbers, in `read_header` and again in `new_mem`; `do_fresh` in the
kernel clears memory from a click that is computed from them, and `load_seg` reads text and data.

- `Header.file`: what `read_header` takes from the eight longs.
- `ImagePlaced`: the new image, the memory that is cleared and the memory that is read into are inside of
  the block that `alloc_mem` returned, and the segments are as large as the header asks for.
- `ExecFits`: the condition on the header.
- `exec_placed_iff`: unless `exec` is refused, the image is placed so just when the header fits.
-/

namespace LisaMinix.Mm

open LisaMinix.Library
open LisaMinix.Kernel

/-! ## §1 The Header -/

/-- The header of an executable file: eight longs. -/
abbrev Header := Fin 8 → BitVec 32

/-- What `read_header` finds in a file of `len` bytes: the magic number, with two bits masked off,
    and the sizes as signed longs. -/
def Header.file (h : Header) (len : ℕ) (setUid : Option ℕ) : Except ℤ ExecFile :=
  if len < 32 then .error enoexec
  else if h 0 &&& 0xFF0FFFFF#32 ≠ 0x04000301#32 then .error enoexec
  else .ok
    { separate := h 0 &&& 0x00200000#32 ≠ 0
      textb := (h 2).toInt
      datab := (h 3).toInt
      bssb := (h 4).toInt
      totb := (h 6).toInt
      setUid := setUid }

/-- `*text_bytes` as `read_header` leaves it. -/
def ExecFile.textBytes (f : ExecFile) : ℤ := if f.separate then f.textb else f.textb / 256 * 256

/-- The bytes that the data segment needs: an incomplete click of text counts as data. -/
def ExecFile.dataNeeded (f : ExecFile) : ℤ :=
  if f.separate then f.datab + f.bssb else f.datab + f.textb - f.textBytes + f.bssb

/-- `*data_bytes` as `read_header` leaves it, a `long`. -/
def ExecFile.dataBytes (f : ExecFile) : ℤ :=
  wrap32 (if f.separate then f.datab else f.datab + f.textb - f.textBytes)

theorem sizes_text (f : ExecFile) (stk : ℤ) : (f.sizes stk).text = clicksOf f.textBytes := rfl

theorem sizes_data (f : ExecFile) (stk : ℤ) : (f.sizes stk).data = clicksOf f.dataNeeded := rfl

/-! ## §2 The Memory That Is Touched -/

/-- The clicks that `do_fresh` clears: from the click that the initialised data end in to the end of
    the stack, all in 16-bit arithmetic. -/
def zeroed (seg : MemMaps) (dataBytes : ℤ) : Block :=
  let nc := toClicks (subClicks seg.stack.memPhys seg.data.memPhys + seg.stack.memLen)
  ⟨toClicks (seg.data.memPhys + clickOf dataBytes), subClicks nc (clickOf dataBytes)⟩

/-- A `long` stored in an `int`. -/
def asInt (n : ℤ) : ℤ := (n + 32768) % 65536 - 32768

/-- The number of bytes that `load_seg` asks for when `n` are still to be read. -/
def readSize (n : ℤ) : ℤ := if n < 31744 then asInt n else 31744

/-- The reads that `load_seg` can make, as addresses and sizes, when `n` bytes are still to be read
    to address `a`.  It goes on when `read` has returned the number of bytes asked for; for -1 the
    error return is that number. -/
inductive LoadRead : ℤ → ℤ → ℤ × ℤ → Prop where
  | ask {a n : ℤ} (h : n ≠ 0) : LoadRead a n (a, readSize n)
  | more {a n : ℤ} {r : ℤ × ℤ} (h : n ≠ 0) (hfull : -1 ≤ readSize n)
      (hrest : LoadRead (a + readSize n) (n - readSize n) r) : LoadRead a n r

/-- The reads of a segment at physical click `phys` stay inside block `b`. -/
def ReadsInside (b : Block) (phys : ℕ) (n : ℤ) : Prop :=
  ∀ r, LoadRead (phys * 256) n r → 0 < r.2 →
    (b.base * 256 : ℤ) ≤ r.1 ∧ r.1 + r.2 ≤ ((b.base + b.clicks : ℕ) * 256 : ℤ)

/-- The bytes that are read in all: a negative number is cut off to an `int` first. -/
def loaded (n : ℤ) : ℤ := if 0 ≤ n then n else max 0 (asInt n)

/-- A multiple of 65536 that is not positive asks for no bytes, again and again. -/
theorem LoadRead.idle {a n : ℤ} {r : ℤ × ℤ} (h : LoadRead a n r) :
    n ≤ 0 → n % 65536 = 0 → r.2 = 0 := by
  induction h with
  | @ask a n _ =>
    intro hn hmul
    dsimp only
    unfold readSize asInt
    omega
  | @more a n r _ _ _ ih =>
    intro hn hmul
    have hsize : readSize n = 0 := by
      unfold readSize asInt
      omega
    rw [hsize] at ih
    exact ih (by omega) (by omega)

/-- Of a negative number of bytes only the first read asks for any. -/
theorem LoadRead.negative {a n : ℤ} {r : ℤ × ℤ} (h : LoadRead a n r) (hn : n < 0) (hr : 0 < r.2) :
    r = (a, asInt n) := by
  have hsize : readSize n = asInt n := if_pos (by omega)
  cases h with
  | ask _ => rw [hsize]
  | more _ hfull hrest =>
    rw [hsize] at hfull hrest
    have hidle := hrest.idle (by unfold asInt; omega) (by unfold asInt; omega)
    omega

/-- The reads of a segment of `n` bytes are all of the segment. -/
theorem LoadRead.within {a n : ℤ} {r : ℤ × ℤ} (h : LoadRead a n r) :
    0 ≤ n → a ≤ r.1 ∧ r.1 + r.2 ≤ a + n := by
  induction h with
  | @ask a n _ =>
    intro hn
    dsimp only
    unfold readSize asInt
    omega
  | @more a n r _ _ _ ih =>
    intro hn
    have hsize : 0 ≤ readSize n ∧ readSize n ≤ n := by
      unfold readSize asInt
      omega
    obtain ⟨hlo, hhi⟩ := ih (by omega)
    omega

/-- The last read ends where the segment ends. -/
theorem exists_lastRead (k : ℕ) : ∀ a n : ℤ, 0 < n → n ≤ k →
    ∃ r, LoadRead a n r ∧ 0 < r.2 ∧ r.1 + r.2 = a + n := by
  -- each read takes off at least one byte
  induction k with
  | zero =>
    intro a n hpos hle
    push_cast at hle
    omega
  | succ k ih =>
    intro a n hpos hle
    push_cast at hle
    by_cases hlast : n < 31744
    · have hsize : readSize n = n := by
        unfold readSize asInt
        omega
      refine ⟨(a, readSize n), .ask (by omega), ?_, ?_⟩
      · rw [hsize]
        exact hpos
      · rw [hsize]
    · have hsize : readSize n = 31744 := if_neg hlast
      rcases lt_or_eq_of_le (not_lt.mp hlast) with hmore | heq
      · obtain ⟨r, hread, hr, hend⟩ := ih (a + readSize n) (n - readSize n) (by omega) (by omega)
        exact ⟨r, .more (by omega) (by omega) hread, hr, by omega⟩
      · refine ⟨(a, readSize n), .ask (by omega), ?_, ?_⟩
        · rw [hsize]
          norm_num
        · rw [hsize, ← heq]

/-- What it takes for all reads to be inside of a block. -/
theorem readsInside_iff (b : Block) (phys : ℕ) (n : ℤ) : ReadsInside b phys n ↔
    loaded n ≤ 0 ∨ (b.base ≤ phys ∧
      phys * 256 + loaded n ≤ ((b.base + b.clicks : ℕ) * 256 : ℤ)) := by
  unfold ReadsInside
  rcases lt_trichotomy n 0 with hn | rfl | hn
  · have hsize : readSize n = asInt n := if_pos (by omega)
    have hloaded : loaded n = max 0 (asInt n) := if_neg (by omega)
    rw [hloaded]
    constructor
    · intro h
      by_cases hpos : 0 < asInt n
      · have hfirst := h (phys * 256, readSize n) (.ask (by omega)) (hsize ▸ hpos)
        dsimp only at hfirst
        rw [hsize] at hfirst
        right
        omega
      · left
        omega
    · intro h r hread hr
      have heq := hread.negative hn hr
      rw [heq] at hr ⊢
      dsimp only at hr ⊢
      omega
  · have hloaded : loaded 0 = 0 := by decide
    constructor
    · intro _
      left
      exact hloaded.le
    · intro _ r hread hr
      have := hread.idle le_rfl rfl
      omega
  · have hloaded : loaded n = n := if_pos hn.le
    rw [hloaded]
    constructor
    · intro h
      right
      obtain ⟨r, hread, hr, hend⟩ := exists_lastRead n.toNat (phys * 256) n hn (by omega)
      have hlast := h r hread hr
      have hfirst := h (phys * 256, readSize n) (.ask (by omega)) (by
        dsimp only
        unfold readSize asInt
        omega)
      dsimp only at hfirst
      omega
    · intro h r hread hr
      have hin := hread.within hn.le
      omega

/-! ## §3 Placement -/

/-- A range of clicks is inside of a block, or empty. -/
def RangeInside (b range : Block) : Prop :=
  range.clicks = 0 ∨ (b.base ≤ range.base ∧ range.base + range.clicks ≤ b.base + b.clicks)

/-- The segments `seg` of a new image are in order, apart from each other and in block `b`, as large
    as the header asks for, and nothing outside of the block is cleared or read into. -/
structure PlacedIn (b : Block) (seg : MemMaps) (f : ExecFile) (stk : ℤ) : Prop where
  base : b.base ≤ seg.text.memPhys
  textData : seg.text.memPhys + seg.text.memLen ≤ seg.data.memPhys
  dataStack : seg.data.memPhys + seg.data.memLen ≤ seg.stack.memPhys
  top : seg.stack.memPhys + seg.stack.memLen ≤ b.base + b.clicks
  text : f.textBytes ≤ seg.text.memLen * 256
  data : f.dataNeeded ≤ seg.data.memLen * 256
  stack : stk ≤ seg.stack.memLen * 256
  zeroing : RangeInside b (zeroed seg f.dataBytes)
  readText : ReadsInside b seg.text.memPhys f.textBytes
  readData : ReadsInside b seg.data.memPhys f.dataBytes

/-- The new image of `who` is in the one block that was allocated, and the kernel has its map. -/
def ImagePlaced (s s' : MmState) (who : ProcNr) (f : ExecFile) (stk : ℤ) : Prop :=
  ∃ b old, s'.events = .free old :: .alloc b :: s.events ∧ s'.pMap who = (s'.mproc who).seg ∧
    PlacedIn b (s'.mproc who).seg f stk

/-- `do_exec` returns, with an error and the map and the holes as they were, or with the new image
    in its place. -/
def ExecOutcome (s : MmState) (who : ProcNr) (call : ExecCall) : Prop :=
  ∃ s' r, doExec s who call = .ok (s', r) ∧
    ((r ≠ ok ∧ (s'.mproc who).seg = (s.mproc who).seg ∧ s'.pMap who = s.pMap who ∧
        s'.holes = s.holes) ∨
      (r = ok ∧ ∃ f, call.file = .ok f ∧ ImagePlaced s s' who f call.stackBytes))

/-- What makes `do_exec` fail before it changes anything. -/
def ExecRefused (s : MmState) (call : ExecCall) : Prop :=
  argMax < call.stackBytes ∨ (∃ e, call.file = .error e) ∨
    ∃ f, call.file = .ok f ∧
      (readHeader f (f.sizes call.stackBytes) = false ∨
        call.stackBytes < 0 ∨ (call.stackBytes ≠ 0 ∧ call.fetched = false) ∨
        32768 ≤ (f.sizes call.stackBytes).gap ∨
        ∃ m, maxHole s.holes = .ok m ∧
          m < toClicks ((f.sizes call.stackBytes).text + (f.sizes call.stackBytes).tot))

/-- The header fits: text, and data with bss, have at most 65535 clicks; text and total are less than
    65536 clicks together; and the initialised data, as `do_fresh` and `load_seg` understand their
    size, end within the total. -/
structure ExecFits (f : ExecFile) (z : ImageSizes) : Prop where
  text : f.textBytes ≤ 65535 * 256
  data : f.dataNeeded ≤ 65535 * 256
  sum : z.text + z.tot < 65536
  zeroing : toClicks (z.text + clickOf f.dataBytes) ≤ z.text + z.tot
  reading : loaded f.dataBytes ≤ z.tot * 256

/-- A size is as large as the clicks computed from it just when these have not been cut off. -/
theorem le_clicksOf_iff (n : ℤ) : n ≤ clicksOf n * 256 ↔ n ≤ 65535 * 256 := by
  unfold clicksOf
  omega

/-- The text that is read fits into the text segment. -/
theorem loaded_le_clicksOf {n : ℤ} (h : n ≤ 65535 * 256) : loaded n ≤ clicksOf n * 256 := by
  unfold loaded
  split
  · exact (le_clicksOf_iff n).mpr h
  · unfold asInt clicksOf
    omega

section Arithmetic

variable {z : ImageSizes} {base : ℕ}

/-- Without a carry out of 16 bits the segments follow each other. -/
theorem seg_eq (h : Feasible z) (hsum : z.text + z.tot < 65536)
    (hfit : base + (z.text + z.tot) < 65536) :
    z.seg base = ⟨⟨0, base, z.text⟩, ⟨z.text, base + z.text, z.data⟩,
      ⟨z.text + z.data + z.gap, base + z.text + z.data + z.gap, z.stack⟩⟩ := by
  have hgap := gap_eq h
  simp only [ImageSizes.seg]
  rw [toClicks_of_lt (n := base + z.text) (by omega), toClicks_of_lt (n := z.text + z.data + z.gap)
    (by omega), toClicks_of_lt (n := base + z.text + z.data + z.gap) (by omega)]

/-- Segments that are in order and in the block have not been cut off to 16 bits. -/
theorem sum_lt_of_order
    (htext : base + z.text ≤ (z.seg base).data.memPhys)
    (hdata : (z.seg base).data.memPhys + z.data ≤ (z.seg base).stack.memPhys)
    (htop : (z.seg base).stack.memPhys + z.stack ≤ base + toClicks (z.text + z.tot))
    (htextlt : z.text < 65536) (htot : z.tot < 65536) : z.text + z.tot < 65536 := by
  by_contra hwrap
  unfold toClicks at htop
  omega

/-- Clearing starts inside of the image. -/
theorem zeroed_inside_iff (h : Feasible z) (hsum : z.text + z.tot < 65536)
    (hfit : base + (z.text + z.tot) < 65536) (e : ℤ) :
    RangeInside ⟨base, z.text + z.tot⟩ (zeroed (z.seg base) e) ↔
      toClicks (z.text + clickOf e) ≤ z.text + z.tot := by
  have hgap := gap_eq h
  have hclick : clickOf e < 65536 := by
    unfold clickOf
    omega
  rw [seg_eq h hsum hfit]
  unfold RangeInside zeroed toClicks subClicks
  dsimp only
  omega

/-- **The image is placed as it should be just when the header fits.** -/
theorem placedIn_iff {f : ExecFile} {stk : ℤ} (h : Feasible (f.sizes stk)) (hstk : stk ≤ argMax)
    (hfit : base + toClicks ((f.sizes stk).text + (f.sizes stk).tot) < 65536) :
    PlacedIn ⟨base, toClicks ((f.sizes stk).text + (f.sizes stk).tot)⟩ ((f.sizes stk).seg base) f stk ↔
      ExecFits f (f.sizes stk) := by
  have htextlt : (f.sizes stk).text < 65536 := clicksOf_lt _
  constructor
  · intro hp
    have hsum := sum_lt_of_order hp.textData hp.dataStack hp.top htextlt h.tot_lt
    rw [toClicks_of_lt hsum] at hfit hp
    have hseg := seg_eq h hsum hfit
    refine ⟨(le_clicksOf_iff _).mp hp.text, (le_clicksOf_iff _).mp hp.data, hsum,
      (zeroed_inside_iff h hsum hfit _).mp hp.zeroing, ?_⟩
    have hread := (readsInside_iff _ _ _).mp hp.readData
    rw [hseg] at hread
    dsimp only at hread
    push_cast at hread
    omega
  · rintro ⟨ht, hd, hsum, hz, hread⟩
    rw [toClicks_of_lt hsum] at hfit ⊢
    have hseg := seg_eq h hsum hfit
    have hgap := gap_eq h
    have htext := loaded_le_clicksOf ht
    have hstack : stk ≤ ((f.sizes stk).stack : ℤ) * 256 := by
      refine (le_clicksOf_iff stk).mpr ?_
      unfold argMax at hstk
      omega
    constructor
    · rw [hseg]
    · rw [hseg]
    · rw [hseg]
      dsimp only
      omega
    · rw [hseg]
      dsimp only
      omega
    · exact (le_clicksOf_iff _).mpr ht
    · exact (le_clicksOf_iff _).mpr hd
    · exact hstack
    · exact (zeroed_inside_iff h hsum hfit _).mpr hz
    · rw [readsInside_iff, hseg]
      dsimp only
      rw [← sizes_text f stk] at htext
      push_cast
      right
      constructor
      · exact le_rfl
      · omega
    · rw [readsInside_iff, hseg]
      dsimp only
      push_cast
      right
      constructor
      · omega
      · omega

end Arithmetic

/-! ## §4 `do_exec` -/

section Exec

variable {s s' : MmState} {who : ProcNr} {call : ExecCall} {f : ExecFile}

theorem finishExec_events : (finishExec s who f).events = s.events := rfl

theorem finishExec_seg : ((finishExec s who f).mproc who).seg = (s.mproc who).seg := by
  simp [finishExec, MmState.modify, MmState.set]

/-- What the second half of `new_mem` leaves. -/
theorem replaceImage_result {seg : MemMaps} (hrun : replaceImage s who seg = .ok s') :
    (s'.mproc who).seg = seg ∧ s'.pMap who = seg ∧ ∃ old, s'.events = .free old :: s.events := by
  obtain ⟨⟨s₁, base, size⟩, hfresh, hfree⟩ := bind_eq_ok hrun
  obtain ⟨⟨base', size'⟩, -, hmap⟩ := map_eq_ok hfresh
  cases hmap
  obtain ⟨t, -, rfl⟩ := map_eq_ok hfree
  refine ⟨?_, ?_, ⟨_, rfl⟩⟩
  · simp [sysNewmap, MmState.modify, MmState.set]
  · simp [sysNewmap]

/-- `new_mem` for sizes that it accepts: the block, and the map made for it. -/
theorem newMem_result {z : ImageSizes} {r : ℤ} (hgap : z.gap < 32768)
    (hhole : ¬∃ m, maxHole s.holes = .ok m ∧ m < toClicks (z.text + z.tot))
    (hrun : newMem s who z = .ok (s', r)) :
    ∃ t base, allocForExec s.holes (toClicks (z.text + z.tot)) = .ok (t, some base) ∧ r = ok ∧
      (s'.mproc who).seg = z.seg base ∧ s'.pMap who = z.seg base ∧
      ∃ old, s'.events = .free old :: .alloc ⟨base, toClicks (z.text + z.tot)⟩ :: s.events := by
  unfold newMem at hrun
  dsimp only at hrun
  rw [if_neg (by omega)] at hrun
  obtain ⟨⟨t, found⟩, halloc, hrun⟩ := bind_eq_ok hrun
  cases found with
  | none =>
    -- the largest hole is large enough
    exfalso
    unfold allocForExec at halloc
    cases hm : maxHole s.holes with
    | error e =>
      rw [hm] at halloc
      cases halloc
    | ok m =>
      rw [hm] at halloc
      simp only [Except.bind] at halloc
      rw [if_neg fun hlt => hhole ⟨m, hm, hlt⟩] at halloc
      cases ha : allocMem s.holes (toClicks (z.text + z.tot)) with
      | error e =>
        rw [ha] at halloc
        cases halloc
      | ok x =>
        rw [ha] at halloc
        dsimp only at halloc
        split at halloc
        · cases halloc
        · cases halloc
  | some base =>
    dsimp only at hrun
    obtain ⟨s₁, hrep, hpair⟩ := map_eq_ok hrun
    cases hpair
    obtain ⟨hseg, hmap, old, hevents⟩ := replaceImage_result hrep
    exact ⟨t, base, halloc, rfl, hseg, hmap, old, hevents⟩

/-- `do_exec` of a file that is not refused is `new_mem`. -/
theorem doExec_eq (hnot : ¬ExecRefused s call) (hfile : call.file = .ok f) :
    doExec s who call = (newMem s who (f.sizes call.stackBytes)).map
        (fun (s, r) => (if r = ok then finishExec s who f else s, r)) ∧
      Feasible (f.sizes call.stackBytes) ∧ call.stackBytes ≤ argMax ∧
      ¬∃ m, maxHole s.holes = .ok m ∧
        m < toClicks ((f.sizes call.stackBytes).text + (f.sizes call.stackBytes).tot) := by
  unfold ExecRefused at hnot
  simp only [not_or, not_exists, not_and, not_lt, not_le] at hnot
  obtain ⟨hmax, -, hrest⟩ := hnot
  obtain ⟨hread, hneg, hfetch, hgap, hhole⟩ := hrest f hfile
  have hread' : readHeader f (f.sizes call.stackBytes) = true := Bool.not_eq_false _ ▸ hread
  refine ⟨?_, feasible_of_checks hmax hneg hread' hgap, hmax, ?_⟩
  · unfold doExec
    rw [if_neg (not_lt.mpr hmax), hfile]
    simp only [hread', Bool.not_true, Bool.false_eq_true, if_false]
    rw [if_neg]
    simp only [Bool.or_eq_true, Bool.and_eq_true, decide_eq_true_eq, bne_iff_ne, not_or, not_and,
      not_lt, Bool.not_eq_true']
    exact ⟨hneg, hfetch⟩
  · rintro ⟨m, hm, hlt⟩
    exact absurd (hhole m hm) (not_le.mpr hlt)

theorem Header.file_error {h : Header} {len : ℕ} {setUid : Option ℕ} {e : ℤ}
    (herr : h.file len setUid = .error e) : e = enoexec := by
  unfold Header.file at herr
  split at herr
  · exact (Except.error.inj herr).symm
  split at herr
  · exact (Except.error.inj herr).symm
  · cases herr

/-- A call that is refused returns an error and changes nothing. -/
theorem ExecRefused.fails {h : Header} {len : ℕ} {setUid : Option ℕ}
    (hfile : call.file = h.file len setUid) (hr : ExecRefused s call) :
    ∃ e, e ≠ ok ∧ doExec s who call = .ok (s, e) := by
  by_cases hmax : argMax < call.stackBytes
  · exact ⟨enomem, by decide, by rw [doExec, if_pos hmax]⟩
  cases hf : call.file with
  | error e =>
    have he : e = enoexec := Header.file_error (hfile ▸ hf)
    exact ⟨e, by rw [he]; decide, by rw [doExec, if_neg hmax, hf]⟩
  | ok f =>
    by_cases hread : readHeader f (f.sizes call.stackBytes) = true
    swap
    · exact ⟨enoexec, by decide, by simp [doExec, if_neg hmax, hf, hread]⟩
    by_cases hfetch : call.stackBytes < 0 ∨ (call.stackBytes ≠ 0 ∧ call.fetched = false)
    · refine ⟨eacces, by decide, ?_⟩
      simp only [doExec, if_neg hmax, hf, hread, Bool.not_true, Bool.false_eq_true, if_false]
      rw [if_pos]
      simpa using hfetch
    have hnew : doExec s who call = (newMem s who (f.sizes call.stackBytes)).map
        (fun (s, r) => (if r = ok then finishExec s who f else s, r)) := by
      simp only [doExec, if_neg hmax, hf, hread, Bool.not_true, Bool.false_eq_true, if_false]
      rw [if_neg]
      simpa using hfetch
    -- what is left is the size of the gap and of the largest hole
    by_cases hgap : 32768 ≤ (f.sizes call.stackBytes).gap
    · refine ⟨enomem, by decide, ?_⟩
      rw [hnew, newMem]
      dsimp only
      rw [if_pos hgap, map_ok]
      dsimp only
      rw [if_neg (by decide)]
    · have hhole : ∃ m, maxHole s.holes = .ok m ∧
          m < toClicks ((f.sizes call.stackBytes).text + (f.sizes call.stackBytes).tot) := by
        rcases hr with h1 | ⟨e, h2⟩ | ⟨g, hg, hg'⟩
        · exact absurd h1 hmax
        · rw [hf] at h2
          cases h2
        · rw [hf] at hg
          cases hg
          rcases hg' with h3 | h4 | h5 | h6 | h7
          · rw [hread] at h3
            cases h3
          · exact absurd (.inl h4) hfetch
          · exact absurd (.inr h5) hfetch
          · exact absurd h6 hgap
          · exact h7
      obtain ⟨m, hm, hlt⟩ := hhole
      refine ⟨eagain, by decide, ?_⟩
      rw [hnew, newMem]
      dsimp only
      rw [if_neg hgap, allocForExec, hm]
      simp only [Except.bind, if_pos hlt, ok_bind, map_ok]
      rw [if_neg (by decide)]

/-- A block whose size is not cut off to 16 bits is inside of the memory. -/
theorem block_within {L : Layout} (hown : Owned L s) {z : ImageSizes} (hfeas : Feasible z)
    (hsum : z.text + z.tot < 65536) {t : HoleTable} {base : ℕ}
    (halloc : allocForExec s.holes (toClicks (z.text + z.tot)) = .ok (t, some base)) :
    0 < base ∧ base + toClicks (z.text + z.tot) < 65536 := by
  obtain ⟨areas, htiled⟩ := hown.tiled
  have hdata := hfeas.data_lt
  rw [toClicks_of_lt hsum] at halloc ⊢
  rcases htiled.allocForExec L.size_lt (c := z.text + z.tot) (by omega) (L.base_ne_zero htiled)
    with hno | ⟨t', b, areas', hyes, ht'⟩
  · rw [hno] at halloc
    cases halloc
  · rw [hyes] at halloc
    cases halloc
    have hpos := ht'.partition.pos _ (List.mem_cons_self ..)
    have hwithin := ht'.partition.within ⟨base, evenClicks (z.text + z.tot)⟩ (by simp)
    have hle := le_evenClicks (lt_of_evenClicks_ne_zero hsum (Nat.pos_iff_ne_zero.mp hpos))
    -- the memory at 0 is the system's
    obtain ⟨a, ha, hzero⟩ := L.system_zero
    have hapart := List.rel_of_pairwise_cons ht'.partition.apart (List.mem_append_left _ ha)
    have hapos := ht'.partition.pos a (List.mem_cons_of_mem _ (List.mem_append_left _ ha))
    have hsize := L.size_lt
    simp only [Area.stop, Area.Apart] at hwithin hapart
    omega

/-- **Exec and its header.**  In every state that MM reaches, for every process, every header, file
    length and argument stack: `do_exec` either fails with nothing changed or places the new image as
    the header asks for, in the block that it has allocated, if and only if it refuses the call or the
    header fits. -/
theorem exec_placed_iff {size org text data tot : ℕ} (hboot : BootLayout size org text data)
    (hr : Mm.Reached size org text data tot StepSafe s) (hp : alive s who = true) (h : Header)
    (len : ℕ) (setUid : Option ℕ) (hfile : call.file = h.file len setUid) :
    ExecOutcome s who call ↔
      ExecRefused s call ∨ ∃ f, call.file = .ok f ∧ ExecFits f (f.sizes call.stackBytes) := by
  obtain ⟨L, -, -, hown⟩ := hr.owned hboot
  by_cases href : ExecRefused s call
  · obtain ⟨e, he, hrun⟩ := href.fails hfile
    exact iff_of_true ⟨s, e, hrun, .inl ⟨he, rfl, rfl, rfl⟩⟩ (.inl href)
  cases hf : call.file with
  | error e => exact absurd (.inr (.inl ⟨e, hf⟩)) href
  | ok f =>
  have heq := @doExec_eq s who call f href hf
  obtain ⟨hrun, hfeas, hmax, hhole⟩ := heq
  constructor
  · rintro ⟨s', r, hexec, hout⟩
    rw [hrun] at hexec
    obtain ⟨⟨s₁, r₁⟩, hnew, hpair⟩ := map_eq_ok hexec
    obtain ⟨t, base, halloc, rfl, hseg, hmap, old, hevents⟩ := newMem_result hfeas.gap_lt hhole hnew
    dsimp only at hpair
    rw [if_pos rfl] at hpair
    cases hpair
    rcases hout with ⟨hne, -⟩ | ⟨-, g, hg, b, old', hev, -, hplaced⟩
    · exact absurd rfl hne
    · obtain rfl : f = g := Except.ok.inj (hf.symm.trans hg)
      -- nothing after `new_mem` allocates memory
      have hblock' : b = ⟨base, toClicks ((f.sizes call.stackBytes).text +
          (f.sizes call.stackBytes).tot)⟩ := by
        rw [finishExec_events, hevents] at hev
        simp only [List.cons.injEq, MemEvent.alloc.injEq] at hev
        exact hev.2.1.symm
      rw [hblock', finishExec_seg, hseg] at hplaced
      have hsum := sum_lt_of_order hplaced.textData hplaced.dataStack hplaced.top (clicksOf_lt _)
        hfeas.tot_lt
      exact .inr ⟨f, rfl, (placedIn_iff hfeas hmax (block_within hown hfeas hsum halloc).2).mp hplaced⟩
  · rintro (hno | ⟨g, hg, hfits⟩)
    · exact absurd hno href
    · obtain rfl : f = g := Except.ok.inj hg
      obtain ⟨s₁, r₁, hnew, -⟩ := newMem_owned hown hp (fun _ => hfeas) hfits.sum
      obtain ⟨t, base, halloc, rfl, hseg, hmap, old, hevents⟩ :=
        newMem_result hfeas.gap_lt hhole hnew
      have hfit := (block_within hown hfeas hfits.sum halloc).2
      refine ⟨finishExec s₁ who f, ok, ?_, .inr ⟨rfl, f, hf, _, old, hevents, ?_, ?_⟩⟩
      · rw [hrun, hnew, map_ok]
        dsimp only
        rw [if_pos rfl]
      · rw [finishExec_seg, hseg]
        exact hmap
      · rw [finishExec_seg, hseg]
        exact (placedIn_iff hfeas hmax hfit).mpr hfits

end Exec

/-- The header of a separate I and D program with these sizes. -/
def Header.separate (text data bss tot : BitVec 32) : Header :=
  ![0x04200301#32, 32#32, text, data, bss, 0#32, tot, 0#32]

/-- A child of INIT executes a small program, and its image is placed. -/
theorem exec_placed_small : ∃ s, Mm.Reached 4096 100 20 30 200 StepSafe s ∧ alive s 3 = true ∧
    ExecOutcome s 3 ⟨256, (Header.separate 512 256 256 2048).file 800 none, true⟩ := by
  obtain ⟨s, hr, hp⟩ := exists_reached 4096 100 20 30 200 StepSafe quietEnv [(2, .fork)]
    (fun s => alive s 3) true (by decide +kernel) (by simp [StepSafe])
  have hlayout : BootLayout 4096 100 20 30 := by constructor <;> decide
  refine ⟨s, hr, hp, (exec_placed_iff hlayout hr hp (Header.separate 512 256 256 2048) 800 none
    rfl).mpr (.inr ⟨smallFile, rfl, ?_⟩)⟩
  constructor <;> decide

/-- **The size of the block is cut off.**  Text of 65535 clicks and a total of 3 make a block of two
    clicks; text ends at click 65785, and the data segment is below the block. -/
theorem exec_misplaced : ∃ s, Mm.Reached 4096 100 20 30 200 StepSafe s ∧ alive s 3 = true ∧
    ¬ExecOutcome s 3 ⟨256, (Header.separate 16776960 256 0 768).file 800 none, true⟩ := by
  obtain ⟨s, hr, hval⟩ := exists_reached 4096 100 20 30 200 StepSafe quietEnv [(2, .fork)]
    (fun s => (alive s 3, (doExec s 3
      ⟨256, (Header.separate 16776960 256 0 768).file 800 none, true⟩).map
        fun (s, r) => (r, (s.mproc 3).seg))) (true, .ok (ok, ⟨⟨0, 250, 65535⟩, ⟨65535, 249, 1⟩,
          ⟨1, 251, 1⟩⟩)) (by decide +kernel) (by simp [StepSafe])
  obtain ⟨hp, hrun⟩ := Prod.mk.inj hval
  refine ⟨s, hr, hp, ?_⟩
  rintro ⟨s', r, hexec, hout⟩
  rw [hexec, map_ok] at hrun
  obtain ⟨rfl, hseg⟩ := Prod.mk.inj (Except.ok.inj hrun)
  rcases hout with ⟨hne, -⟩ | ⟨-, f, -, b, old, -, -, hplaced⟩
  · exact hne rfl
  · have hdata := hplaced.textData
    rw [hseg] at hdata
    norm_num at hdata

end LisaMinix.Mm
