import LisaMinix.Library.Loops
import LisaMinix.Kernel.Mmu

/-!
# What the MMU Contexts Hold

The user contexts are reloaded incrementally: `lisa_mmu_switch` writes the segments of the new
image, invalidates the segments that were valid before and are not wanted any more, and skips the
whole when process and map look unchanged.  The invariant over a history of switches is
`Coherent`: a segment that the table in memory says is not valid is invalid in the hardware, and
a context that is said to hold a map does hold it.
-/

namespace LisaMinix.Kernel

open LisaMinix.Library Function
open LisaMinix.Mm (MemMap MemMaps)

/-! ## §1 Register writes -/

namespace Context

variable (x : Context) (s value : ℕ)

theorem write_slr : x.write (s * segSize + mmuSlr) value =
    { x with limit := update x.limit s (value % 4096) } := by
  have hmod : (s * segSize + mmuSlr) % segSize = mmuSlr := by simp only [mmuSlr, segSize]; omega
  have hdiv : (s * segSize + mmuSlr) / segSize = s := by simp only [mmuSlr, segSize]; omega
  unfold write
  rw [if_pos hmod, hdiv]

theorem write_sor : x.write (s * segSize + mmuSor) value =
    { x with origin := update x.origin s (value % 4096) } := by
  have hmod : (s * segSize + mmuSor) % segSize = mmuSor := by simp only [mmuSor, segSize]; omega
  have hdiv : (s * segSize + mmuSor) / segSize = s := by simp only [mmuSor, segSize]; omega
  unfold write
  rw [hmod, if_neg (by decide), if_pos rfl, hdiv]

end Context

namespace Mmu

/-- The selected context as it will be once the table has been worked through. -/
def eventual (m : Mmu) : Context :=
  m.table.foldl (fun x w => x.write w.1 w.2) (m.hw.context m.hw.selected)

/-- The latches and the contexts that are not selected stay as they are. -/
structure Steady (m m' : Mmu) : Prop where
  seg1 : m'.hw.seg1 = m.hw.seg1
  seg2 : m'.hw.seg2 = m.hw.seg2
  curCtx : m'.curCtx = m.curCtx
  context : ∀ n, n ≠ m.hw.selected → m'.hw.context n = m.hw.context n

variable {m m' m'' : Mmu} {c : Fin nctx}

namespace Steady

theorem refl (m : Mmu) : Steady m m := ⟨rfl, rfl, rfl, fun _ _ => rfl⟩

theorem selected (h : Steady m m') : m'.hw.selected = m.hw.selected := by
  unfold Hardware.selected
  rw [h.seg1, h.seg2]

theorem trans (h : Steady m m') (h' : Steady m' m'') : Steady m m'' where
  seg1 := h'.seg1.trans h.seg1
  seg2 := h'.seg2.trans h.seg2
  curCtx := h'.curCtx.trans h.curCtx
  context := by
    intro n hn
    rw [h'.context n (by rw [h.selected]; exact hn), h.context n hn]

end Steady

theorem flushWrites_steady (m : Mmu) : Steady m m.flushWrites := by
  unfold flushWrites
  by_cases htable : m.table = []
  · rw [if_pos htable]
    exact ⟨rfl, rfl, rfl, fun _ _ => rfl⟩
  · rw [if_neg htable]
    refine ⟨rfl, rfl, rfl, fun n hn => ?_⟩
    exact update_of_ne hn _ _

@[simp] theorem flushWrites_uctx (m : Mmu) : m.flushWrites.uctx = m.uctx := rfl

/-- Working through the table makes the selected context what it was going to be. -/
theorem flushWrites_context (m : Mmu) :
    m.flushWrites.hw.context m.hw.selected = m.eventual := by
  unfold flushWrites eventual
  by_cases htable : m.table = []
  · rw [if_pos htable, htable]
    rfl
  · rw [if_neg htable]
    simp [lisaMmuWrite]

theorem flushWrites_eventual (m : Mmu) : m.flushWrites.eventual = m.eventual := by
  show m.flushWrites.hw.context m.flushWrites.hw.selected = _
  rw [(flushWrites_steady m).selected, flushWrites_context]

theorem addWrite_steady (m : Mmu) (addr value : ℕ) : Steady m (m.addWrite addr value) := by
  unfold addWrite
  by_cases hfull : m.table.length = maxWrites
  · rw [if_pos hfull]
    have h := flushWrites_steady m
    exact ⟨h.seg1, h.seg2, h.curCtx, h.context⟩
  · rw [if_neg hfull]
    exact ⟨rfl, rfl, rfl, fun _ _ => rfl⟩

@[simp] theorem addWrite_uctx (m : Mmu) (addr value : ℕ) :
    (m.addWrite addr value).uctx = m.uctx := by
  unfold addWrite
  by_cases hfull : m.table.length = maxWrites
  · rw [if_pos hfull]
    rfl
  · rw [if_neg hfull]

/-- A full table is flushed first, and nothing is lost by it. -/
theorem addWrite_eventual (m : Mmu) (addr value : ℕ) :
    (m.addWrite addr value).eventual = m.eventual.write addr value := by
  have happend : ∀ m : Mmu, { m with table := m.table ++ [(addr, value)] }.eventual =
      m.eventual.write addr value := by
    intro m
    simp [eventual]
  unfold addWrite
  by_cases hfull : m.table.length = maxWrites
  · rw [if_pos hfull, happend, flushWrites_eventual]
  · rw [if_neg hfull, happend]

/-! ## §2 The three loops -/

/-- The value `mapImage` puts in the limit register of a segment. -/
def limitOf (z : Span) (s : ℕ) : ℕ := (mmuAccRw ||| (256 - z.pages s) % 256) % 4096

theorem mapSegment_eventual (m : Mmu) (z : Span) (membase : ℤ) (s : ℕ) :
    (m.mapSegment z membase s).eventual =
      { limit := update m.eventual.limit s (limitOf z s)
        origin := update m.eventual.origin s (z.origin membase s % 4096) } := by
  unfold mapSegment
  rw [addWrite_eventual, addWrite_eventual, Context.write_slr, Context.write_sor]
  rfl

/-- What the loop over the segments `l` of the image leaves behind. -/
structure Mapped (z : Span) (membase : ℤ) (l : List ℕ) (x y : Mmu × (ℕ → Bool)) : Prop where
  steady : Steady x.1 y.1
  uctx : y.1.uctx = x.1.uctx
  want : ∀ s, y.2 s = (decide (s ∈ l) || x.2 s)
  limit : ∀ s, y.1.eventual.limit s = if s ∈ l then limitOf z s else x.1.eventual.limit s
  origin : ∀ s, y.1.eventual.origin s =
    if s ∈ l then z.origin membase s % 4096 else x.1.eventual.origin s

theorem mapped_foldl (z : Span) (membase : ℤ) (l : List ℕ) (x : Mmu × (ℕ → Bool)) :
    Mapped z membase l x (l.foldl
      (fun x s => (x.1.mapSegment z membase s, update x.2 s true)) x) := by
  induction l generalizing x with
  | nil => exact ⟨Steady.refl _, rfl, by simp, by simp, by simp⟩
  | cons s l ih =>
    have h := ih (x.1.mapSegment z membase s, update x.2 s true)
    have hsteady : Steady x.1 (x.1.mapSegment z membase s) :=
      (addWrite_steady _ _ _).trans (addWrite_steady _ _ _)
    rw [List.foldl_cons]
    refine ⟨hsteady.trans h.steady, ?_, fun t => ?_, fun t => ?_, fun t => ?_⟩
    · rw [h.uctx]
      simp [mapSegment]
    · rw [h.want]
      by_cases ht : t = s <;> simp [ht]
    · rw [h.limit, mapSegment_eventual]
      by_cases ht : t = s <;> simp [ht]
    · rw [h.origin, mapSegment_eventual]
      by_cases ht : t = s <;> simp [ht]

/-- What the loop over the first `n` segments of a context leaves behind. -/
structure Unmapped (want : ℕ → Bool) (c : Fin nctx) (n : ℕ) (m m' : Mmu) : Prop where
  steady : Steady m m'
  others : ∀ d, d ≠ c → m'.uctx d = m.uctx d
  valid : ∀ s, (m'.uctx c).segValid s = if s < n then want s else (m.uctx c).segValid s
  limit : ∀ s, m'.eventual.limit s =
    if s < n ∧ (m.uctx c).segValid s = true ∧ want s = false then mmuAccInval
    else m.eventual.limit s
  origin : m'.eventual.origin = m.eventual.origin

theorem unmapped_foldl (want : ℕ → Bool) (c : Fin nctx) (n : ℕ) (m : Mmu) :
    Unmapped want c n m ((List.range n).foldl (unmapSegment want c) m) := by
  induction n with
  | zero => exact ⟨Steady.refl _, fun _ _ => rfl, by simp, by simp, rfl⟩
  | succ n ih =>
    rw [List.range_succ, List.foldl_append, List.foldl_cons, List.foldl_nil]
    set k := (List.range n).foldl (unmapSegment want c) m with hk
    have hvalid := ih.valid n
    rw [if_neg (lt_irrefl n)] at hvalid
    have hset : ∀ k : Mmu, Steady k (k.setValid c n (want n)) :=
      fun k => ⟨rfl, rfl, rfl, fun _ _ => rfl⟩
    unfold unmapSegment
    rw [hvalid]
    by_cases hdrop : ((m.uctx c).segValid n && !want n) = true
    · rw [if_pos hdrop]
      simp only [Bool.and_eq_true, Bool.not_eq_true'] at hdrop
      have hev : ((k.addWrite (n * segSize + mmuSlr) mmuAccInval).setValid c n
          (want n)).eventual = { k.eventual with
            limit := update k.eventual.limit n (mmuAccInval % 4096) } := by
        rw [← Context.write_slr, ← addWrite_eventual]
        rfl
      refine ⟨ih.steady.trans ((addWrite_steady _ _ _).trans (hset _)), fun d hd => ?_,
        fun s => ?_, fun s => ?_, ?_⟩
      · simp [setValid, hd, ih.others d hd]
      · by_cases hs : s = n
        · simp [setValid, hs]
        · simp only [setValid, addWrite_uctx, update_self, update_of_ne hs,
            ih.valid s]
          have : s < n + 1 ↔ s < n := by omega
          simp only [this]
      · rw [hev]
        by_cases hs : s = n
        · subst hs
          simp [hdrop, mmuAccInval]
        · simp only [update_of_ne hs, ih.limit s]
          have : s < n + 1 ↔ s < n := by omega
          simp only [this]
      · rw [hev]
        exact ih.origin
    · rw [if_neg hdrop]
      refine ⟨ih.steady.trans (hset _), fun d hd => ?_, fun s => ?_, fun s => ?_, ih.origin⟩
      · simp [setValid, hd, ih.others d hd]
      · by_cases hs : s = n
        · simp [setValid, hs]
        · simp only [setValid, update_self, update_of_ne hs, ih.valid s]
          have : s < n + 1 ↔ s < n := by omega
          simp only [this]
      · show k.eventual.limit s = _
        rw [ih.limit s]
        by_cases hs : s = n
        · subst hs
          have : ¬ ((m.uctx c).segValid s = true ∧ want s = false) := by simpa using hdrop
          simp [this]
        · have : s < n + 1 ↔ s < n := by omega
          simp only [this]

/-- The loop of `lisa_mmu_init` over the first `n` segments. -/
structure Wiped (c : Fin nctx) (n : ℕ) (m m' : Mmu) : Prop where
  steady : Steady m m'
  others : ∀ d, d ≠ c → m'.uctx d = m.uctx d
  valid : ∀ s, s < n → (m'.uctx c).segValid s = false
  limit : ∀ s, s < n → m'.eventual.limit s = mmuAccInval

theorem wiped_foldl (c : Fin nctx) (n : ℕ) (m : Mmu) :
    Wiped c n m ((List.range n).foldl
      (fun m s => (m.addWrite (s * segSize + mmuSlr) mmuAccInval).setValid c s false) m) := by
  induction n with
  | zero => exact ⟨Steady.refl _, fun _ _ => rfl, by simp, by simp⟩
  | succ n ih =>
    rw [List.range_succ, List.foldl_append, List.foldl_cons, List.foldl_nil]
    set k := (List.range n).foldl
      (fun m s => (m.addWrite (s * segSize + mmuSlr) mmuAccInval).setValid c s false) m
    have hset : Steady (k.addWrite (n * segSize + mmuSlr) mmuAccInval)
        ((k.addWrite (n * segSize + mmuSlr) mmuAccInval).setValid c n false) :=
      ⟨rfl, rfl, rfl, fun _ _ => rfl⟩
    refine ⟨ih.steady.trans ((addWrite_steady _ _ _).trans hset), fun d hd => ?_,
      fun s hs => ?_, fun s hs => ?_⟩
    · simp [setValid, hd, ih.others d hd]
    · by_cases hsn : s = n
      · simp [setValid, hsn]
      · simp only [setValid, addWrite_uctx, update_self, update_of_ne hsn]
        exact ih.valid s (by omega)
    · show (k.addWrite (n * segSize + mmuSlr) mmuAccInval).eventual.limit s = _
      rw [addWrite_eventual, Context.write_slr]
      by_cases hsn : s = n
      · simp [hsn, mmuAccInval]
      · simp only [update_of_ne hsn]
        exact ih.limit s (by omega)

end Mmu

/-! ## §3 The image of a process -/

/-- An address between the lowest and the highest one of the non-empty segments. -/
def ImageAddr (mp : MemMaps) (v : ℕ) : Prop :=
  (∃ a ∈ segments mp, a.memLen ≠ 0 ∧ a.memVir * 256 ≤ v) ∧
    ∃ b ∈ segments mp, b.memLen ≠ 0 ∧ v < (b.memVir + b.memLen) * 256

namespace Span

/-- What the loop over the segments knows when it has seen `l`. -/
structure Spans (l : List MemMap) (z : Span) : Prop where
  first : z.first = true → ∀ a ∈ l, a.memLen = 0
  offset : ∀ a ∈ l, a.memLen ≠ 0 → ((a.memPhys : ℤ) - a.memVir) * 256 = z.delta
  below : ∀ a ∈ l, a.memLen ≠ 0 → z.lo ≤ a.memVir * 256
  above : ∀ a ∈ l, a.memLen ≠ 0 → ((a.memVir : ℤ) + a.memLen) * 256 ≤ z.hi
  lo : z.lo = 0x7FFFFFFF ∨ ∃ a ∈ l, a.memLen ≠ 0 ∧ z.lo = a.memVir * 256
  hi : z.hi = 0 ∨ ∃ b ∈ l, b.memLen ≠ 0 ∧ z.hi = ((b.memVir : ℤ) + b.memLen) * 256

variable {l : List MemMap} {z z' : Span} {a : MemMap} {mp : MemMaps}

theorem Spans.add (h : Spans l z) (hadd : z.add a = .ok z') : Spans (l ++ [a]) z' := by
  unfold Span.add at hadd
  by_cases hempty : a.memLen = 0
  · rw [if_pos hempty] at hadd
    cases hadd
    have hmem : ∀ b ∈ l ++ [a], b.memLen ≠ 0 → b ∈ l := by
      intro b hb hlen
      rcases List.mem_append.mp hb with hb | hb
      · exact hb
      · rw [List.mem_singleton.mp hb] at hlen
        exact absurd hempty hlen
    refine ⟨fun hf b hb => ?_, fun b hb hlen => h.offset b (hmem b hb hlen) hlen,
      fun b hb hlen => h.below b (hmem b hb hlen) hlen,
      fun b hb hlen => h.above b (hmem b hb hlen) hlen, ?_, ?_⟩
    · rcases List.mem_append.mp hb with hb | hb
      · exact h.first hf b hb
      · rw [List.mem_singleton.mp hb]
        exact hempty
    · rcases h.lo with hlo | ⟨b, hb, hrest⟩
      · exact .inl hlo
      · exact .inr ⟨b, List.mem_append_left _ hb, hrest⟩
    · rcases h.hi with hhi | ⟨b, hb, hrest⟩
      · exact .inl hhi
      · exact .inr ⟨b, List.mem_append_left _ hb, hrest⟩
  · rw [if_neg hempty] at hadd
    dsimp only at hadd
    split at hadd
    · cases hadd
    · rename_i hsame
      cases hadd
      have hdelta : ∀ b ∈ l, b.memLen ≠ 0 →
          ((b.memPhys : ℤ) - b.memVir) * 256 = ((a.memPhys : ℤ) - a.memVir) * 256 := by
        intro b hb hlen
        -- a segment seen before has cleared `first`, so the offsets were compared
        have hf : z.first = false := by
          by_contra hf
          exact hlen (h.first (by simpa using hf) b hb)
        rw [h.offset b hb hlen]
        by_contra hne
        exact hsame ⟨hf, fun heq => hne heq.symm⟩
      refine ⟨by simp, fun b hb hlen => ?_, fun b hb hlen => ?_, fun b hb hlen => ?_, ?_, ?_⟩
      · rcases List.mem_append.mp hb with hb | hb
        · exact hdelta b hb hlen
        · rw [List.mem_singleton.mp hb]
      · dsimp only
        rcases List.mem_append.mp hb with hb | hb
        · have := h.below b hb hlen
          split <;> omega
        · rw [List.mem_singleton.mp hb]
          split <;> omega
      · dsimp only
        rcases List.mem_append.mp hb with hb | hb
        · have := h.above b hb hlen
          split <;> omega
        · rw [List.mem_singleton.mp hb]
          split <;> omega
      · dsimp only
        split
        · exact .inr ⟨a, by simp, hempty, rfl⟩
        · rcases h.lo with hlo | ⟨b, hb, hrest⟩
          · exact .inl hlo
          · exact .inr ⟨b, List.mem_append_left _ hb, hrest⟩
      · dsimp only
        split
        · exact .inr ⟨a, by simp, hempty, rfl⟩
        · rcases h.hi with hhi | ⟨b, hb, hrest⟩
          · exact .inl hhi
          · exact .inr ⟨b, List.mem_append_left _ hb, hrest⟩

theorem Spans.foldlM (h : Spans l z) {r : List MemMap} (hrun : r.foldlM Span.add z = .ok z') :
    Spans (l ++ r) z' := by
  induction r generalizing l z with
  | nil =>
    cases hrun
    simpa using h
  | cons a r ih =>
    rw [List.foldlM_cons] at hrun
    cases hadd : z.add a with
    | error e =>
      rw [hadd] at hrun
      cases hrun
    | ok z₁ =>
      rw [hadd] at hrun
      have := ih (h.add hadd) hrun
      simpa using this

/-- What a map that passes the checks of `lisa_mmu_switch` is like. -/
structure Fitting (mp : MemMaps) (z : Span) : Prop where
  spans : Spans (segments mp) z
  page : z.delta % pageSize = 0
  high : z.hi ≤ userSegs * segSize

theorem fitting_of_ofMap (h : ofMap mp = .ok z) : Fitting mp z := by
  unfold ofMap at h
  cases hrun : (segments mp).foldlM Span.add
      { lo := 0x7FFFFFFF, hi := 0, delta := 0, first := true } with
  | error e =>
    rw [hrun] at h
    cases h
  | ok z₁ =>
    rw [hrun, ok_bind] at h
    split at h
    · cases h
    · rename_i hpage
      split at h
      · cases h
      · rename_i hhigh
        cases h
        have hstart : Spans [] { lo := 0x7FFFFFFF, hi := 0, delta := 0, first := true } :=
          ⟨by simp, by simp, by simp, by simp, .inl rfl, .inl rfl⟩
        exact ⟨by simpa using hstart.foldlM hrun, not_not.mp hpage, not_lt.mp hhigh⟩

namespace Fitting

theorem lo_nonneg (h : Fitting mp z) : 0 ≤ z.lo := by
  rcases h.spans.lo with hlo | ⟨a, -, -, hlo⟩ <;> omega

theorem imageAddr_iff (h : Fitting mp z) (v : ℕ) : ImageAddr mp v ↔ z.lo ≤ v ∧ (v : ℤ) < z.hi := by
  constructor
  · rintro ⟨⟨a, ha, hlen, hv⟩, b, hb, hlen', hv'⟩
    have h1 := h.spans.below a ha hlen
    have h2 := h.spans.above b hb hlen'
    omega
  · rintro ⟨hlo, hhi⟩
    have hhigh := h.high
    simp only [userSegs, segSize] at hhigh
    constructor
    · rcases h.spans.lo with heq | ⟨a, ha, hlen, heq⟩
      · omega
      · exact ⟨a, ha, hlen, by omega⟩
    · rcases h.spans.hi with heq | ⟨b, hb, hlen, heq⟩
      · omega
      · exact ⟨b, hb, hlen, by omega⟩

theorem mem_touched (h : Fitting mp z) (s : ℕ) :
    s ∈ z.touched ↔ ∃ v, ImageAddr mp v ∧ v / segSize = s := by
  have hlo := h.lo_nonneg
  simp only [h.imageAddr_iff, touched, segSize]
  constructor
  · intro hs
    split at hs
    · rw [List.mem_range'_1] at hs
      -- the first address of the image in the segment
      refine ⟨max z.lo.toNat (s * 131072), ?_⟩
      omega
    · cases hs
  · rintro ⟨v, hv, hs⟩
    rw [if_pos (by omega), List.mem_range'_1]
    omega

theorem lt_userSegs (h : Fitting mp z) {s : ℕ} (hs : s ∈ z.touched) : s < userSegs := by
  obtain ⟨v, hv, hdiv⟩ := (h.mem_touched s).mp hs
  have hhi := ((h.imageAddr_iff v).mp hv).2
  have hhigh := h.high
  simp only [userSegs, segSize] at *
  omega

end Fitting

end Span

/-! ## §4 A loaded context -/

/-- The context `x` holds the map `mp`: its segments are mapped, all others are invalid. -/
structure Holds (membase : ℤ) (x : Context) (mp : MemMaps) (z : Span) : Prop where
  fitting : z.Fitting mp
  limit : ∀ s ∈ z.touched, x.limit s = Mmu.limitOf z s
  origin : ∀ s ∈ z.touched, x.origin s = z.origin membase s % 4096
  inval : ∀ s, s < nsegs → s ∉ z.touched → x.limit s = mmuAccInval

/-- The address where the image of `mp` begins. -/
def StartsAt (mp : MemMaps) (lo : ℕ) : Prop := ImageAddr mp lo ∧ ∀ v, ImageAddr mp v → lo ≤ v

/-- The context `x` is right for a process with the map `mp`. -/
structure Correct (membase : ℤ) (x : Context) (mp : MemMaps) : Prop where
  /-- every address of the image goes to the address with the offset of the segments added -/
  translates : ∀ v, ImageAddr mp v → ∀ a ∈ segments mp, a.memLen ≠ 0 →
    x.translate v = some (((v : ℤ) + ((a.memPhys : ℤ) - a.memVir) * 256 + membase) %
      (4096 * pageSize)).toNat
  /-- a segment without an address of the image is invalid -/
  outside : ∀ s, s < nsegs → (∀ v, ImageAddr mp v → v / segSize ≠ s) → x.limit s = mmuAccInval
  /-- an image that starts at a segment boundary is protected on both sides -/
  exact : ∀ lo, StartsAt mp lo → segSize ∣ lo → ∀ v, v < nsegs * segSize →
    ((x.translate v).isSome ↔ ∃ w, ImageAddr mp w ∧ v / pageSize = w / pageSize)

namespace Holds

variable {membase : ℤ} {x : Context} {mp : MemMaps} {z : Span} {s v : ℕ}

theorem pages_le (z : Span) (s : ℕ) : z.pages s ≤ 256 := by
  simp only [Span.pages, segSize, pageSize]
  split <;> omega

theorem pages_pos (h : z.Fitting mp) (hs : s ∈ z.touched) : 0 < z.pages s := by
  obtain ⟨v, hv, hdiv⟩ := (h.mem_touched s).mp hs
  have hhi := ((h.imageAddr_iff v).mp hv).2
  simp only [Span.pages, segSize, pageSize] at *
  split <;> omega

/-- The limit register holds the access type and the number of pages, negated. -/
theorem limitOf_eq (hpos : 0 < z.pages s) : Mmu.limitOf z s / 256 = 7 ∧
    256 - Mmu.limitOf z s % 256 = z.pages s := by
  have hle := pages_le z s
  have hor : mmuAccRw ||| (256 - z.pages s) % 256 = 2 ^ 8 * 7 + (256 - z.pages s) % 256 :=
    (Nat.two_pow_add_eq_or_of_lt (i := 8) (Nat.mod_lt _ (by decide)) 7).symm
  unfold Mmu.limitOf
  rw [hor]
  omega

/-- In a segment of the image, the pages up to the end of the image are valid. -/
theorem translate_touched (h : Holds membase x mp z) (hs : v / segSize ∈ z.touched) :
    x.translate v = if v % segSize / pageSize < z.pages (v / segSize) then
      some ((z.origin membase (v / segSize) % 4096 + v % segSize / pageSize) % 4096 * pageSize +
        v % pageSize) else none := by
  have hlow := h.fitting.lt_userSegs hs
  have hmod : v / segSize % nsegs = v / segSize := by
    apply Nat.mod_eq_of_lt
    exact hlow.trans (by decide)
  obtain ⟨hacc, hpages⟩ := limitOf_eq (pages_pos h.fitting hs)
  unfold Context.translate
  simp only [hmod, h.limit _ hs, h.origin _ hs, hacc, hpages, true_and]

theorem translate_untouched (h : Holds membase x mp z) (hv : v < nsegs * segSize)
    (hs : v / segSize ∉ z.touched) : x.translate v = none := by
  have hlt : v / segSize < nsegs := by
    simp only [nsegs, segSize] at *
    omega
  unfold Context.translate
  simp only [Nat.mod_eq_of_lt hlt, h.inval _ hlt hs]
  rw [if_neg]
  simp [mmuAccInval]

/-- A context that holds a map is right for it. -/
theorem correct (h : Holds membase x mp z) (hbase : membase % pageSize = 0) :
    Correct membase x mp where
  translates := by
    intro v hv a ha hlen
    have hmem := (h.fitting.mem_touched (v / segSize)).mpr ⟨v, hv, rfl⟩
    obtain ⟨hlo, hhi⟩ := (h.fitting.imageAddr_iff v).mp hv
    have hdelta := h.fitting.spans.offset a ha hlen
    have hpage := h.fitting.page
    have hin : v % segSize / pageSize < z.pages (v / segSize) := by
      simp only [Span.pages, segSize, pageSize]
      split <;> omega
    rw [h.translate_touched hmem, if_pos hin, hdelta]
    congr 1
    simp only [Span.origin, segSize, pageSize] at *
    omega
  outside := by
    intro s hs hout
    apply h.inval s hs
    intro hmem
    obtain ⟨v, hv, hdiv⟩ := (h.fitting.mem_touched s).mp hmem
    exact hout v hv hdiv
  exact := by
    intro lo hstart hdvd v hv
    have hlo := (h.fitting.imageAddr_iff lo).mp hstart.1
    have hall : ∀ w, ImageAddr mp w ↔ lo ≤ w ∧ (w : ℤ) < z.hi := by
      intro w
      constructor
      · intro hw
        exact ⟨hstart.2 w hw, ((h.fitting.imageAddr_iff w).mp hw).2⟩
      · rintro ⟨hle, hlt⟩
        exact (h.fitting.imageAddr_iff w).mpr ⟨by omega, hlt⟩
    obtain ⟨q, rfl⟩ := hdvd
    by_cases hmem : v / segSize ∈ z.touched
    · obtain ⟨w, hw, hdiv⟩ := (h.fitting.mem_touched _).mp hmem
      rw [hall] at hw
      rw [h.translate_touched hmem]
      have hpages : v % segSize / pageSize < z.pages (v / segSize) ↔
          ((v / pageSize * pageSize : ℕ) : ℤ) < z.hi := by
        simp only [Span.pages, segSize, pageSize] at *
        split <;> omega
      constructor
      · intro hsome
        have hlt : v % segSize / pageSize < z.pages (v / segSize) := by
          by_contra hge
          rw [if_neg hge] at hsome
          cases hsome
        -- the first address of the page belongs to the image
        refine ⟨v / pageSize * pageSize, (hall _).mpr ⟨?_, hpages.mp hlt⟩, ?_⟩
        · simp only [segSize, pageSize] at *
          omega
        · simp only [pageSize]
          omega
      · rintro ⟨w', hw', hpage⟩
        rw [hall] at hw'
        rw [if_pos]
        · rfl
        · apply hpages.mpr
          simp only [pageSize] at *
          omega
    · rw [h.translate_untouched hv hmem]
      constructor
      · intro hsome
        cases hsome
      · rintro ⟨w, hw, hpage⟩
        have hmem' := (h.fitting.mem_touched (w / segSize)).mpr ⟨w, hw, rfl⟩
        have hsame : v / segSize = w / segSize := by
          simp only [segSize, pageSize] at *
          omega
        rw [hsame] at hmem
        exact absurd hmem' hmem

end Holds

/-! ## §5 Any history of switches -/

namespace Mmu

/-- What is true of the contexts at every time. -/
structure Coherent (membase : ℤ) (m : Mmu) : Prop where
  selected : ∀ c, m.curCtx = some c → m.hw.selected = c + 1
  inval : ∀ c s, s < nsegs → (m.uctx c).segValid s = false →
    (m.hw.context (c + 1)).limit s = mmuAccInval
  holds : ∀ c, (m.uctx c).proc ≠ none → ∃ z, Holds membase (m.hw.context (c + 1)) (m.uctx c).map z

variable {membase : ℤ} {m m' : Mmu} {c d : Fin nctx} {rp : ProcPtr} {mp : MemMaps}

/-- Selecting a context sets the latches and nothing else. -/
theorem selectCtx_spec (hsel : ∀ c, m.curCtx = some c → m.hw.selected = c + 1) (c : Fin nctx) :
    (m.selectCtx c).hw.selected = c + 1 ∧ (m.selectCtx c).curCtx = some c ∧
      (m.selectCtx c).uctx = m.uctx ∧ (m.selectCtx c).hw.context = m.hw.context := by
  unfold selectCtx
  by_cases hcur : m.curCtx = some c
  · rw [if_pos hcur]
    exact ⟨hsel c hcur, hcur, rfl, rfl⟩
  · rw [if_neg hcur]
    refine ⟨?_, rfl, rfl, rfl⟩
    fin_cases c <;> rfl

theorem succ_ne (h : d ≠ c) : (d : ℕ) + 1 ≠ c + 1 := by
  intro heq
  exact h (Fin.ext (by omega))

/-- The state of a context after its round of `lisa_mmu_init`. -/
def Cleared (m : Mmu) (c : Fin nctx) : Prop :=
  (m.uctx c).proc = none ∧ ∀ s, s < nsegs → (m.hw.context (c + 1)).limit s = mmuAccInval

theorem clearCtx_spec (hsel : ∀ c, m.curCtx = some c → m.hw.selected = c + 1) (c : Fin nctx) :
    (∀ d, (m.clearCtx c).curCtx = some d → (m.clearCtx c).hw.selected = d + 1) ∧
      Cleared (m.clearCtx c) c ∧ ∀ d, d ≠ c → Cleared m d → Cleared (m.clearCtx c) d := by
  obtain ⟨hsel', hcur, huctx, hctx⟩ := selectCtx_spec hsel c
  set m₁ : Mmu := { m.selectCtx c with table := [] } with hm1
  have hw := wiped_foldl c nsegs m₁
  set m₂ := (List.range nsegs).foldl
    (fun m s => (m.addWrite (s * segSize + mmuSlr) mmuAccInval).setValid c s false) m₁ with hm2
  have hfl := flushWrites_steady m₂
  have hst := hw.steady.trans hfl
  have hselected : m₂.flushWrites.hw.selected = c + 1 := hst.selected.trans hsel'
  have hself : m₂.flushWrites.hw.context (c + 1) = m₂.eventual := by
    rw [← flushWrites_context m₂, hw.steady.selected]
    exact congrArg m₂.flushWrites.hw.context hsel'.symm
  have hrun : m.clearCtx c = { m₂.flushWrites with
      uctx := update m₂.flushWrites.uctx c { m₂.flushWrites.uctx c with proc := none } } := by
    unfold clearCtx
    dsimp only
  rw [hrun]
  clear_value m₂
  simp only [flushWrites_uctx]
  refine ⟨fun d hd => ?_, ⟨by simp, fun s hs => ?_⟩, fun d hd hclear => ⟨?_, fun s hs => ?_⟩⟩
  · have : some c = some d := (hst.curCtx.trans hcur).symm.trans hd
    cases this
    exact hselected
  · show (m₂.flushWrites.hw.context (c + 1)).limit s = _
    rw [hself, hw.limit s hs]
  · simp only [update_of_ne hd, hw.others d hd]
    exact (congrArg (fun u => (u d).proc) huctx).trans hclear.1
  · show (m₂.flushWrites.hw.context (d + 1)).limit s = _
    rw [hst.context (d + 1) (by rw [show m₁.hw.selected = c + 1 from hsel']; exact succ_ne hd)]
    exact (congrArg (fun u => (u (d + 1)).limit s) hctx).trans (hclear.2 s hs)

/-- `lisa_mmu_init` establishes the invariant, whatever the hardware held before. -/
theorem lisaMmuInit_coherent (membase : ℤ) (hcur : m.curCtx = none) :
    Coherent membase m.lisaMmuInit := by
  have hsel : ∀ c, m.curCtx = some c → m.hw.selected = c + 1 := by
    intro c hc
    rw [hcur] at hc
    cases hc
  obtain ⟨hsel2, h2, -⟩ := clearCtx_spec hsel 2
  obtain ⟨hsel1, h1, hkeep1⟩ := clearCtx_spec hsel2 1
  obtain ⟨hsel0, h0, hkeep0⟩ := clearCtx_spec hsel1 0
  have hinit : m.lisaMmuInit = ((m.clearCtx 2).clearCtx 1).clearCtx 0 := by
    simp only [lisaMmuInit, List.foldl_cons, List.foldl_nil]
  rw [hinit]
  have hclear : ∀ c, Cleared (((m.clearCtx 2).clearCtx 1).clearCtx 0) c := by
    intro c
    fin_cases c
    · exact h0
    · exact hkeep0 1 (by decide) h1
    · exact hkeep0 2 (by decide) (hkeep1 2 (by decide) h2)
  exact ⟨hsel0, fun c s hs _ => (hclear c).2 s hs, fun c hproc => absurd (hclear c).1 hproc⟩

/-- The registers of a context after the two loops that load it. -/
theorem loadCtx_registers (h : Coherent membase m) (hsel : m.hw.selected = c + 1) (z : Span)
    (rp : ProcPtr) (mp : MemMaps) {m' : Mmu} (hm' : m' = m.loadCtx membase z c rp mp) :
    Steady m m' ∧ (∀ d, d ≠ c → m'.uctx d = m.uctx d) ∧
      (∀ s, s < nsegs → (m'.uctx c).segValid s = decide (s ∈ z.touched)) ∧
      (∀ s, s < nsegs → (m'.hw.context (c + 1)).limit s =
        if s ∈ z.touched then limitOf z s else mmuAccInval) ∧
      (∀ s ∈ z.touched, (m'.hw.context (c + 1)).origin s = z.origin membase s % 4096) := by
  have hmap : Mapped z membase z.touched ({ m with table := [] }, fun _ => false)
      (m.mapImage z membase) := mapped_foldl z membase z.touched _
  have hun := unmapped_foldl (m.mapImage z membase).2 c nsegs (m.mapImage z membase).1
  unfold loadCtx at hm'
  dsimp only at hm'
  set x := m.mapImage z membase
  set m₂ := (List.range nsegs).foldl (unmapSegment x.2 c) x.1
  clear_value x m₂
  subst hm'
  have hst1 : Steady m x.1 :=
    ⟨hmap.steady.seg1, hmap.steady.seg2, hmap.steady.curCtx, hmap.steady.context⟩
  have hst : Steady m m₂.flushWrites := hst1.trans (hun.steady.trans (flushWrites_steady m₂))
  have hself : m₂.flushWrites.hw.context (c + 1) = m₂.eventual := by
    have hsel2 : m₂.hw.selected = c + 1 := by
      rw [← hsel, ← hst.selected, (flushWrites_steady m₂).selected]
    rw [← hsel2, flushWrites_context]
  have hwant : ∀ s, x.2 s = decide (s ∈ z.touched) := fun s => by rw [hmap.want]; simp
  simp only [flushWrites_uctx, update_self, hself]
  refine ⟨⟨hst.seg1, hst.seg2, hst.curCtx, hst.context⟩, fun d hd => ?_, fun s hs => ?_,
    fun s hs => ?_, fun s hs => ?_⟩
  · rw [update_of_ne hd, hun.others d hd, hmap.uctx]
  · rw [hun.valid, if_pos hs, hwant]
  · -- three kinds of segments: wanted, not wanted any more, invalid all the time
    rw [hun.limit, hmap.limit, hmap.uctx, hwant]
    by_cases hmem : s ∈ z.touched
    · simp [hmem]
    · simp only [hs, hmem, decide_false, if_false, and_true, true_and]
      by_cases hvalid : (m.uctx c).segValid s = true
      · simp [hvalid]
      · rw [if_neg hvalid]
        show (m.hw.context m.hw.selected).limit s = _
        rw [hsel]
        exact h.inval c s hs (by simpa using hvalid)
  · rw [hun.origin, hmap.origin, if_pos hs]

theorem loadCtx_spec (h : Coherent membase m) (hsel : m.hw.selected = c + 1)
    (hcur : m.curCtx = some c) {z : Span} (hfit : z.Fitting mp) (rp : ProcPtr) :
    Coherent membase (m.loadCtx membase z c rp mp) ∧
      (m.loadCtx membase z c rp mp).hw.selected = c + 1 ∧
      Holds membase ((m.loadCtx membase z c rp mp).hw.context (c + 1)) mp z := by
  have hmp : ((m.loadCtx membase z c rp mp).uctx c).map = mp := by
    unfold loadCtx
    simp only [update_self]
  generalize hm' : m.loadCtx membase z c rp mp = m' at hmp
  obtain ⟨hst, hother, hvalid, hlimit, horigin⟩ := loadCtx_registers h hsel z rp mp hm'.symm
  have hholds : Holds membase (m'.hw.context (c + 1)) mp z := by
    refine ⟨hfit, fun s hs => ?_, horigin, fun s hs hmem => ?_⟩
    · rw [hlimit s ((hfit.lt_userSegs hs).trans (by decide)), if_pos hs]
    · rw [hlimit s hs, if_neg hmem]
  have hsel' : m'.hw.selected = c + 1 := hst.selected.trans hsel
  refine ⟨⟨fun d hd => ?_, fun d s hs hinv => ?_, fun d hproc => ?_⟩, hsel', hholds⟩
  · rw [hst.curCtx, hcur] at hd
    cases hd
    exact hsel'
  · by_cases hd : d = c
    · subst hd
      rw [hvalid s hs] at hinv
      rw [hlimit s hs, if_neg (by simpa using hinv)]
    · rw [hst.context _ (by rw [hsel]; exact succ_ne hd)]
      rw [hother d hd] at hinv
      exact h.inval d s hs hinv
  · by_cases hd : d = c
    · subst hd
      rw [hmp]
      exact ⟨z, hholds⟩
    · rw [hst.context _ (by rw [hsel]; exact succ_ne hd), hother d hd]
      rw [hother d hd] at hproc
      exact h.holds d hproc

/-- A switch that returns keeps the invariant, and the selected context is that of the process
and holds its map. -/
theorem lisaMmuSwitch_spec (h : Coherent membase m)
    (hrun : lisaMmuSwitch membase m rp mp = .ok m') :
    Coherent membase m' ∧ m'.hw.selected = ctxOf rp + 1 ∧
      ∃ z, Holds membase (m'.hw.context m'.hw.selected) mp z := by
  obtain ⟨hsel, hcur, huctx, hctx⟩ := selectCtx_spec h.selected (ctxOf rp)
  have h1 : Coherent membase (m.selectCtx (ctxOf rp)) := by
    refine ⟨fun d hd => ?_, fun d s => ?_, fun d => ?_⟩
    · rw [hcur] at hd
      cases hd
      exact hsel
    · rw [huctx, hctx]
      exact h.inval d s
    · rw [huctx, hctx]
      exact h.holds d
  unfold lisaMmuSwitch at hrun
  dsimp only at hrun
  split at hrun
  · -- the context holds the map already
    rename_i hsame
    cases hrun
    obtain ⟨z, hz⟩ := h1.holds (ctxOf rp) (by rw [hsame.1]; simp)
    rw [hsame.2] at hz
    exact ⟨h1, hsel, z, by rw [hsel]; exact hz⟩
  · cases hz : Span.ofMap mp with
    | error e =>
      rw [hz] at hrun
      cases hrun
    | ok z =>
      rw [hz, map_ok] at hrun
      cases hrun
      obtain ⟨hcoh, hsel', hholds⟩ := loadCtx_spec h1 hsel hcur (Span.fitting_of_ofMap hz) rp
      exact ⟨hcoh, hsel', z, by rw [hsel']; exact hholds⟩

/-- The calls of `lisa_mmu_switch` in `history`, each with the map its process has then. -/
def switches (membase : ℤ) (m : Mmu) (history : List (ProcPtr × MemMaps)) : Except MmuPanic Mmu :=
  history.foldlM (fun m call => lisaMmuSwitch membase m call.1 call.2) m

theorem switches_coherent (h : Coherent membase m) {history : List (ProcPtr × MemMaps)}
    (hrun : switches membase m history = .ok m') : Coherent membase m' := by
  induction history generalizing m with
  | nil =>
    cases hrun
    exact h
  | cons call rest ih =>
    unfold switches at hrun
    rw [List.foldlM_cons] at hrun
    cases hcall : lisaMmuSwitch membase m call.1 call.2 with
    | error e =>
      rw [hcall] at hrun
      cases hrun
    | ok m₁ =>
      rw [hcall] at hrun
      exact ih (lisaMmuSwitch_spec h hcall).1 hrun

/-- After `lisa_mmu_init` and any switches to any processes with any maps, a switch that returns
leaves the context of the process selected and right for its map.  `membase` is where the boot
ROM found the RAM, which the MMU maps in whole pages. -/
theorem switch_correct (hbase : membase % pageSize = 0) (hcur : m.curCtx = none)
    (history : List (ProcPtr × MemMaps)) {m₁ : Mmu}
    (hrun : switches membase m.lisaMmuInit history = .ok m₁)
    (hswitch : lisaMmuSwitch membase m₁ rp mp = .ok m') :
    m'.hw.selected = ctxOf rp + 1 ∧ Correct membase (m'.hw.context m'.hw.selected) mp := by
  have hcoh := switches_coherent (lisaMmuInit_coherent membase hcur) hrun
  obtain ⟨-, hsel, z, hz⟩ := lisaMmuSwitch_spec hcoh hswitch
  exact ⟨hsel, hz.correct hbase⟩

/-- The state before `lisa_mmu_init`, with every segment of every context valid. -/
def powerOn : Mmu where
  hw := { seg1 := false, seg2 := false, context := fun _ => ⟨fun _ => 0x700, fun _ => 0⟩ }
  uctx := fun _ => ⟨fun _ => false, none, ⟨⟨0, 0, 0⟩, ⟨0, 0, 0⟩, ⟨0, 0, 0⟩⟩⟩
  curCtx := none
  table := []

/-- A program at virtual address 0: text, data and stack from the click `base` on. -/
def programMap (base : ℕ) : MemMaps :=
  ⟨⟨0, base, 16⟩, ⟨16, base + 16, 600⟩, ⟨700, base + 700, 8⟩⟩

/-- INIT runs, then a program, and then another program whose image needs two segments. -/
def switchRun : List (ProcPtr × MemMaps) :=
  [(init, ⟨⟨900, 900, 40⟩, ⟨940, 940, 60⟩, ⟨1000, 1000, 0⟩⟩), (12, programMap 2000)]

theorem switch_correct_second_program : ∃ m₁ m' : Mmu,
    switches 0x80000 powerOn.lisaMmuInit switchRun = .ok m₁ ∧
    lisaMmuSwitch 0x80000 m₁ 13 (programMap 3000) = .ok m' ∧
    m'.hw.selected = ctxOf 13 + 1 ∧
    Correct 0x80000 (m'.hw.context m'.hw.selected) (programMap 3000) := by
  have hok : (switches 0x80000 powerOn.lisaMmuInit switchRun).isOk = true := by decide +kernel
  cases hrun : switches 0x80000 powerOn.lisaMmuInit switchRun with
  | error e =>
    rw [hrun] at hok
    cases hok
  | ok m₁ =>
    have hlast : (switches 0x80000 powerOn.lisaMmuInit
        (switchRun ++ [(13, programMap 3000)])).isOk = true := by decide +kernel
    unfold switches at hlast hrun
    rw [List.foldlM_append, hrun, ok_bind, List.foldlM_cons] at hlast
    cases hswitch : lisaMmuSwitch 0x80000 m₁ 13 (programMap 3000) with
    | error e =>
      rw [hswitch] at hlast
      cases hlast
    | ok m' =>
      exact ⟨m₁, m', rfl, hswitch, switch_correct (by decide) rfl switchRun hrun hswitch⟩

end Mmu

end LisaMinix.Kernel
