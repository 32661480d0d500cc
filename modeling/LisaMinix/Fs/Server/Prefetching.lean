import LisaMinix.Fs.Server.Custody

/-!
# The Queue of Prefetched Blocks

`rahead` asks for blocks without reading them, puts the buffers that do not hold their block yet in a
queue, and has the disk task read as many of the queue as it likes.  Until then such a buffer is in the
cache under a block number but has no device.

- `Visits`: what a program may do to the cache in between.
- `Queued`: the queue; its blocks are distinct and in no other buffer.
- `Queued.visits`, `Queued.push`: the queue is kept, and grows.
- `rwScattered_drains`: the blocks are read, or not, and given back.
- `getBlock_drained`: the block that the queue has been started with.
-/

namespace LisaMinix.Fs.Server

open LisaMinix.Library Function

/-! ## §1 Visits -/

/-- Buffers have been obtained and given back since `c`, and only blocks of the device for which `P` holds
    may have come in. -/
structure Visits (dev : ℕ) (P : ℕ → Prop) (c c' : Cache) : Prop where
  linked : Linked c'
  count : ∀ x, (c'.buf x).count = (c.buf x).count
  held : ∀ x, (c.buf x).count ≠ 0 → (c'.buf x).blocknr = (c.buf x).blocknr ∧
    ((c'.buf x).dev = (c.buf x).dev ∨ (c'.buf x).dev = noDev)
  new : ∀ x d b, d ≠ noDev → Holds c' x d b → Holds c x d b ∨ d = dev ∧ P b
  evolves : Evolves c c'
  quiet : ∀ d b, d ≠ noDev → ¬(d = dev ∧ P b) → (∀ x, ¬Holds c x d b) → c'.disk d b = c.disk d b

section

variable {dev b : ℕ} {P P' : ℕ → Prop} {c c' c'' c₁ : Cache} {bp : BufId} {search : Search}

theorem Visits.refl (hc : Linked c) : Visits dev P c c where
  linked := hc
  count _ := rfl
  held _ _ := ⟨rfl, .inl rfl⟩
  new _ _ _ _ h := .inl h
  evolves := .refl c
  quiet _ _ _ _ _ := rfl

theorem Fetched.dev_or (h : Fetched dev b search bp c c') :
    (c'.buf bp).dev = dev ∨ (c'.buf bp).dev = noDev := by
  rcases h.came with ⟨-, hdev, -⟩ | ⟨-, -, hdelivered⟩
  · exact .inl hdev
  · cases search with
    | prefetch => exact .inr hdelivered
    | noRead => exact .inl hdelivered
    | normal => exact hdelivered.imp And.left And.left

/-- A block is obtained and given back. -/
theorem Fetched.visits (h : Fetched dev b search bp c c₁) (hc : Linked c) (hsearch : search ≠ .noRead)
    (hput : Counted bp ((c₁.buf bp).count - 1) c₁ c') (hwrites : c'.writes = c₁.writes)
    (hP : Holds c bp dev b ∨ P b) : Visits dev P c c' where
  linked := by
    have hnonneg := hc.nonneg bp
    have hcount := h.count bp
    rw [if_pos rfl] at hcount
    exact hput.linked (by omega) h.linked
  count x := by
    rw [hput.put.count, h.count]
    omega
  held x hx := by
    rw [(hput.same x).1, (hput.same x).2.1]
    rcases eq_or_ne x bp with rfl | hne
    · rcases h.came with ⟨hholds, hdev, -⟩ | ⟨hfree, -⟩
      · exact ⟨h.blocknr.trans hholds.2.symm, .inl (hdev.trans hholds.1.symm)⟩
      · exact absurd hfree hx
    · exact h.others x hne
  new x d b' hd hx := by
    have hx1 : Holds c₁ x d b' := by
      unfold Holds at hx ⊢
      rwa [(hput.same x).1, (hput.same x).2.1] at hx
    rcases eq_or_ne x bp with rfl | hne
    · obtain rfl := h.blocknr.symm.trans hx1.2
      have hdev : d = dev := by
        rcases h.dev_or with heq | hnone
        · exact hx1.1.symm.trans heq
        · exact absurd (hx1.1.symm.trans hnone) hd
      subst hdev
      exact hP.imp id fun hb => ⟨rfl, hb⟩
    · obtain ⟨hnr, hdev⟩ := h.others x hne
      refine .inl ⟨?_, hnr.symm.trans hx1.2⟩
      rcases hdev with heq | hnone
      · exact heq.symm.trans hx1.1
      · exact absurd (hx1.1.symm.trans hnone) hd
  evolves := (h.evolves hsearch).trans (evolves_of_eq hwrites hput.disk hput.same)
  quiet d b' hd _ hnone := by
    rw [hput.disk]
    exact h.quiet d b' hd hnone

/-! ## §2 The Queue -/

/-- Since `c₀` the buffers of the queue have been obtained, none of which has a device yet, and block `b₀`
    has not been changed. -/
structure Pending (dev b₀ : ℕ) (c₀ : Cache) (q : List BufId) (c : Cache) : Prop where
  linked : Linked c
  served : Served c
  evolves : Evolves c₀ c
  count : ∀ x, (c.buf x).count = (c₀.buf x).count + if x ∈ q then 1 else 0
  nodup : q.Nodup
  idle : ∀ x ∈ q, (c₀.buf x).count = 0
  void : ∀ x ∈ q, (c.buf x).dev = noDev
  apart : ∀ x ∈ q, ∀ y ∈ q, (c.buf x).blocknr = (c.buf y).blocknr → x = y
  fresh : ∀ x ∈ q, ∀ y, ¬Holds c y dev (c.buf x).blocknr
  disk : c.disk dev b₀ = c₀.disk dev b₀
  base : ∀ y, Holds c y dev b₀ → (c.buf y).data = c₀.disk dev b₀

/-- The queue while it grows: its blocks are among those for which `N` holds. -/
structure Queued (dev b₀ : ℕ) (c₀ : Cache) (N : ℕ → Prop) (q : List BufId) (c : Cache) : Prop
    extends Pending dev b₀ c₀ q c where
  absent : ∀ y, ¬Holds c y dev b₀
  named : ∀ x ∈ q, N (c.buf x).blocknr

end

section

variable {dev b₀ b : ℕ} {c₀ c c' : Cache} {N N' P : ℕ → Prop} {q l : List BufId} {bp : BufId}

theorem Pending.used (h : Pending dev b₀ c₀ q c) (h0 : Linked c₀) {x : BufId} (hx : x ∈ q) :
    0 < (c.buf x).count := by
  have hnonneg := h0.nonneg x
  rw [h.count, if_pos hx]
  omega

/-- The empty queue. -/
theorem queued_nil (h0 : Linked c₀) (hserved : Served c₀) (habsent : ∀ y, ¬Holds c₀ y dev b₀) :
    Queued dev b₀ c₀ N [] c₀ where
  linked := h0
  served := hserved
  evolves := .refl c₀
  count x := by simp
  nodup := List.nodup_nil
  idle := by simp
  void := by simp
  apart := by simp
  fresh := by simp
  disk := rfl
  base y hy := absurd hy (habsent y)
  absent := habsent
  named := by simp

/-- What other blocks come in does not matter to the queue. -/
theorem Queued.visits (h : Queued dev b₀ c₀ N q c) (h0 : Linked c₀) (hdev : dev ≠ noDev)
    (hv : Visits dev P c c') (hserved : Served c') (hN : ∀ b, P b → ¬N b) (hb0 : ¬P b₀) :
    Queued dev b₀ c₀ N q c' := by
  have hheld : ∀ x ∈ q, (c'.buf x).blocknr = (c.buf x).blocknr ∧ (c'.buf x).dev = noDev := by
    intro x hx
    obtain ⟨hnr, hsame⟩ := hv.held x (ne_of_gt (h.used h0 hx))
    rw [h.void x hx, or_self] at hsame
    exact ⟨hnr, hsame⟩
  have hnone : ∀ b, (∀ y, ¬Holds c y dev b) → ¬P b → ∀ y, ¬Holds c' y dev b := by
    intro b hb hP y hy
    rcases hv.new y dev b hdev hy with hold | ⟨-, hnew⟩
    · exact hb y hold
    · exact hP hnew
  have habsent := hnone b₀ h.absent hb0
  refine ⟨⟨hv.linked, hserved, h.evolves.trans hv.evolves, fun x => ?_, h.nodup,
    h.idle, fun x hx => (hheld x hx).2, fun x hx y hy => ?_, fun x hx => ?_, ?_, fun y hy => absurd hy (habsent y)⟩,
    habsent, fun x hx => ?_⟩
  · rw [hv.count]
    exact h.count x
  · rw [(hheld x hx).1, (hheld y hy).1]
    exact h.apart x hx y hy
  · rw [(hheld x hx).1]
    exact hnone _ (h.fresh x hx) fun hP => hN _ hP (h.named x hx)
  · rw [hv.quiet dev b₀ hdev (fun hP => hb0 hP.2) h.absent]
    exact h.disk
  · rw [(hheld x hx).1]
    exact h.named x hx

/-- A buffer for another block is put in the queue. -/
theorem Queued.push (h : Queued dev b₀ c₀ N q c) (h0 : Linked c₀) (hdev : dev ≠ noDev)
    (hf : Fetched dev b .prefetch bp c c') (hvoid : (c'.buf bp).dev = noDev) (hserved : Served c')
    (hnew : ¬N b) (hN : ∀ b', N b' → N' b') (hb : N' b) :
    Queued dev b₀ c₀ N' (q ++ [bp]) c' := by
  obtain ⟨hfree, hnone⟩ : (c.buf bp).count = 0 ∧ ∀ x, ¬Holds c x dev b := by
    rcases hf.came with ⟨-, hvalid, -⟩ | ⟨hfree, hnone, -⟩
    · exact absurd (hvalid.symm.trans hvoid) hdev
    · exact ⟨hfree, hnone hdev⟩
  have hne : ∀ x ∈ q, x ≠ bp := by
    rintro x hx rfl
    exact absurd hfree (ne_of_gt (h.used h0 hx))
  have hheld : ∀ x ∈ q, (c'.buf x).blocknr = (c.buf x).blocknr ∧ (c'.buf x).dev = noDev := by
    intro x hx
    obtain ⟨hnr, hsame⟩ := hf.others x (hne x hx)
    rw [h.void x hx, or_self] at hsame
    exact ⟨hnr, hsame⟩
  -- a valid buffer has been so before
  have hkept : ∀ b', (∀ y, ¬Holds c y dev b') → ∀ y, ¬Holds c' y dev b' := by
    intro b' hb' y hy
    rcases eq_or_ne y bp with rfl | hyb
    · exact hdev (hy.1.symm.trans hvoid)
    · obtain ⟨hnr, hsame⟩ := hf.others y hyb
      refine hb' y ⟨?_, hnr.symm.trans hy.2⟩
      rcases hsame with heq | hnone'
      · exact heq.symm.trans hy.1
      · exact absurd (hy.1.symm.trans hnone') hdev
  have hcases : ∀ x ∈ q ++ [bp], x ∈ q ∨ x = bp := by
    intro x hx
    rwa [List.mem_append, List.mem_singleton] at hx
  have habsent := hkept b₀ h.absent
  refine ⟨⟨hf.linked, hserved, h.evolves.trans (hf.evolves (by decide)), fun x => ?_, ?_, fun x hx => ?_,
    fun x hx => ?_, fun x hx y hy => ?_, fun x hx => ?_, ?_, fun y hy => absurd hy (habsent y)⟩, habsent,
    fun x hx => ?_⟩
  · rw [hf.count, h.count]
    rcases eq_or_ne x bp with rfl | hx
    · rw [if_neg fun hx => hne x hx rfl]
      simp
    · simp [hx]
  · refine List.nodup_append.mpr ⟨h.nodup, List.nodup_singleton bp, fun x hx y hy => ?_⟩
    rw [List.mem_singleton.mp hy]
    exact hne x hx
  · rcases hcases x hx with hx | rfl
    · exact h.idle x hx
    · have hcount := h.count x
      have hnonneg := h0.nonneg x
      split at hcount <;> omega
  · rcases hcases x hx with hx | rfl
    · exact (hheld x hx).2
    · exact hvoid
  · rcases hcases x hx with hxq | rfl <;> rcases hcases y hy with hyq | rfl
    · rw [(hheld x hxq).1, (hheld y hyq).1]
      exact h.apart x hxq y hyq
    · rw [(hheld x hxq).1, hf.blocknr]
      exact fun heq => absurd (heq ▸ h.named x hxq) hnew
    · rw [(hheld y hyq).1, hf.blocknr]
      exact fun heq => absurd (heq ▸ h.named y hyq) hnew
    · exact fun _ => rfl
  · rcases hcases x hx with hx | rfl
    · rw [(hheld x hx).1]
      exact hkept _ (h.fresh x hx)
    · rw [hf.blocknr]
      exact hkept b hnone
  · rw [hf.quiet dev b₀ hdev h.absent]
    exact h.disk
  · rcases hcases x hx with hx | rfl
    · rw [(hheld x hx).1]
      exact hN _ (h.named x hx)
    · rwa [hf.blocknr]

/-! ## §3 The Blocks Are Read -/

/-- A buffer has got its block from the disk, or it still has no device. -/
structure Filled (dev : ℕ) (bp : BufId) (c c' : Cache) : Prop where
  lru : c'.lru = c.lru
  hash : c'.hash = c.hash
  bufsInUse : c'.bufsInUse = c.bufsInUse
  disk : c'.disk = c.disk
  writes : c'.writes = c.writes
  others : ∀ x, x ≠ bp → c'.buf x = c.buf x
  count : (c'.buf bp).count = (c.buf bp).count
  blocknr : (c'.buf bp).blocknr = (c.buf bp).blocknr
  came : (c'.buf bp).dev = dev ∧ (c'.buf bp).data = c.disk dev (c.buf bp).blocknr ∨
    (c'.buf bp).dev = noDev

theorem Filled.same (h : Filled dev bp c c') (x : BufId) :
    (c'.buf x).count = (c.buf x).count ∧ (c'.buf x).blocknr = (c.buf x).blocknr := by
  rcases eq_or_ne x bp with rfl | hx
  · exact ⟨h.count, h.blocknr⟩
  · rw [h.others x hx]
    exact ⟨rfl, rfl⟩

/-- A buffer that is valid then is the one that has been filled, or it was so before. -/
theorem Filled.holds (h : Filled dev bp c c') {x : BufId} {d b' : ℕ} (hd : d ≠ noDev)
    (hx : Holds c' x d b') : x = bp ∧ d = dev ∧ (c.buf bp).blocknr = b' ∨ x ≠ bp ∧ Holds c x d b' := by
  rcases eq_or_ne x bp with rfl | hne
  · refine .inl ⟨rfl, ?_, h.blocknr.symm.trans hx.2⟩
    rcases h.came with ⟨hdev, -⟩ | hnone
    · exact hx.1.symm.trans hdev
    · exact absurd (hx.1.symm.trans hnone) hd
  · refine .inr ⟨hne, ?_⟩
    unfold Holds at hx ⊢
    rwa [h.others x hne] at hx

theorem Filled.linked (h : Filled dev bp c c') (hc : Linked c)
    (hfresh : ∀ y, ¬Holds c y dev (c.buf bp).blocknr) : Linked c' where
  lru := by
    rw [h.lru]
    exact hc.lru
  nodup := by
    rw [h.hash]
    exact hc.nodup
  hash k x := by
    rw [h.hash, (h.same x).2]
    exact hc.hash k x
  nonneg x := by
    rw [(h.same x).1]
    exact hc.nonneg x
  inUse := by
    rw [h.bufsInUse, hc.inUse]
    congr 1
    apply Finset.filter_congr
    intro x _
    rw [(h.same x).1]
  unique x x' hvalid hholds := by
    rcases h.holds hvalid ⟨rfl, rfl⟩ with ⟨rfl, hdev, hnr⟩ | ⟨hx, hold⟩ <;>
      rcases h.holds hvalid hholds with ⟨rfl, hdev', hnr'⟩ | ⟨hx', hold'⟩
    · rfl
    · rw [hdev, ← hnr] at hold'
      exact absurd hold' (hfresh x')
    · rw [hdev', ← hnr'] at hold
      exact absurd hold (hfresh x)
    · exact hc.unique x x' (by rwa [hold.1]) ⟨hold'.1.trans hold.1.symm, hold'.2.trans hold.2.symm⟩

theorem Filled.evolves (h : Filled dev bp c c') (hvoid : (c.buf bp).dev = noDev) : Evolves c c' := by
  refine @evolves_taken c c' bp (fun hvalid => absurd hvoid hvalid) h.writes h.disk (fun x hx => ?_)
    fun hvalid => ?_
  · rw [h.others x hx]
    exact ⟨rfl, rfl, rfl, rfl⟩
  · rcases h.came with ⟨hdev, hdata⟩ | hnone
    · rw [hdata, hdev, h.blocknr, h.disk]
    · exact absurd hnone hvalid

/-- The first buffer of the queue is filled and given back. -/
theorem Pending.fill {c₁ : Cache} (h : Pending dev b₀ c₀ (bp :: l) c) (h0 : Linked c₀)
    (hdev : dev ≠ noDev) (hfilled : Filled dev bp c c₁)
    (hput : Counted bp ((c₁.buf bp).count - 1) c₁ c') (hwrites : c'.writes = c₁.writes)
    (hserved : Served c') : Pending dev b₀ c₀ l c' := by
  have hmem : bp ∈ bp :: l := List.mem_cons_self
  have htail : ∀ x ∈ l, x ∈ bp :: l := fun x hx => List.mem_cons_of_mem _ hx
  obtain ⟨hbp, hl⟩ := List.nodup_cons.mp h.nodup
  have hne : ∀ x ∈ l, x ≠ bp := by
    rintro x hx rfl
    exact hbp hx
  have hlinked1 := hfilled.linked h.linked (h.fresh bp hmem)
  have hpos : 0 ≤ (c₁.buf bp).count - 1 := by
    have hused := h.used h0 hmem
    rw [hfilled.count]
    omega
  have hholds : ∀ y b', Holds c' y dev b' → Holds c₁ y dev b' := by
    intro y b' hy
    unfold Holds at hy ⊢
    rwa [(hput.same y).1, (hput.same y).2.1] at hy
  have hnr : ∀ x, (c'.buf x).blocknr = (c.buf x).blocknr := fun x =>
    (hput.same x).2.1.trans (hfilled.same x).2
  refine ⟨hput.linked hpos hlinked1, hserved,
    (h.evolves.trans (hfilled.evolves (h.void bp hmem))).trans
      (evolves_of_eq hwrites hput.disk hput.same), fun x => ?_, hl, fun x hx => h.idle x (htail x hx),
    fun x hx => ?_, fun x hx y hy => ?_, fun x hx y hy => ?_, ?_, fun y hy => ?_⟩
  · rw [hput.put.count, (hfilled.same x).1, h.count]
    rcases eq_or_ne x bp with rfl | hx
    · simp [hbp]
    · simp [hx]
  · rw [(hput.same x).1, hfilled.others x (hne x hx)]
    exact h.void x (htail x hx)
  · rw [hnr, hnr]
    exact h.apart x (htail x hx) y (htail y hy)
  · rw [hnr] at hy
    rcases hfilled.holds hdev (hholds y _ hy) with ⟨-, -, hsame⟩ | ⟨-, hold⟩
    · exact hne x hx (h.apart bp hmem x (htail x hx) hsame).symm
    · exact h.fresh x (htail x hx) y hold
  · rw [hput.disk, hfilled.disk]
    exact h.disk
  · rw [(hput.same y).2.2.1]
    rcases hfilled.holds hdev (hholds y _ hy) with ⟨rfl, -, hsame⟩ | ⟨hyb, hold⟩
    · rcases hfilled.came with ⟨-, hdata⟩ | hnone
      · rw [hdata, hsame]
        exact h.disk
      · exact absurd ((hholds y _ hy).1.symm.trans hnone) hdev
    · rw [hfilled.others y hyb]
      exact h.base y hold

theorem harvestAll_drains (h0 : Linked c₀) (hdev : HasDriver dev) (h : Pending dev b₀ c₀ l c) :
    SurelyC (harvestAll dev .reading l) c fun _ c' => Pending dev b₀ c₀ [] c' := by
  induction l generalizing c with
  | nil => exact h
  | cons bp l ih =>
    have hvoid := h.void bp List.mem_cons_self
    -- the rest, after the first buffer has been filled
    have hrest : ∀ c₁, Filled dev bp c c₁ → SurelyC (putBuf bp .partialDataBlock) c₁ fun _ c' =>
        SurelyC (harvestAll dev .reading l) c' fun _ c' => Pending dev b₀ c₀ [] c' := by
      intro c₁ hfilled
      have hserved1 : Served c₁ := by
        intro x hx
        rcases hfilled.holds hx ⟨rfl, rfl⟩ with ⟨-, hd, -⟩ | ⟨-, hold⟩
        · rw [hd]
          exact hdev
        · rw [← hold.1] at hx ⊢
          exact h.served x hx
      have hlinked1 := hfilled.linked h.linked (h.fresh bp List.mem_cons_self)
      have hused : (c₁.buf bp).count ≠ 0 := by
        rw [hfilled.count]
        exact ne_of_gt (h.used h0 List.mem_cons_self)
      refine Wp.mono (Surely.and (putBuf_surely rfl (by decide) hserved1)
        (putBuf_counted hlinked1 hused rfl (by decide))) ?_
      rintro _ c' ⟨hserved, hput, hwrites⟩
      exact ih (h.fill h0 hdev.ne_noDev hfilled hput hwrites hserved)
    unfold harvestAll SurelyC
    simp only [transfer, wp_bind, wp_nextAnswer, wp_get, wp_modBuf]
    refine wp_ite (fun hok => ?_) fun hfails => ?_
    · simp only [wp_bind, wp_modBuf]
      have hfilled := hrest { c with
        tick := c.tick + 1
        buf := update c.buf bp
          { c.buf bp with data := c.disk dev (c.buf bp).blocknr, dev := dev } }
        ⟨rfl, rfl, rfl, rfl, rfl, fun x hx => update_of_ne hx .., by simp, by simp,
          .inl (by simp)⟩
      simpa [hok] using hfilled
    · have hfilled := hrest { c with
        tick := c.tick + 1
        buf := update c.buf bp { c.buf bp with data := (c.io c.tick).junk } }
        ⟨rfl, rfl, rfl, rfl, rfl, fun x hx => update_of_ne hx .., by simp, by simp,
          .inr (by simpa using hvoid)⟩
      simpa [hfails] using hfilled

theorem Pending.perm (h : Pending dev b₀ c₀ q c) (hperm : l.Perm q) : Pending dev b₀ c₀ l c where
  linked := h.linked
  served := h.served
  evolves := h.evolves
  count x := by
    rw [h.count x]
    simp only [hperm.mem_iff]
  nodup := hperm.nodup_iff.mpr h.nodup
  idle x hx := h.idle x (hperm.mem_iff.mp hx)
  void x hx := h.void x (hperm.mem_iff.mp hx)
  apart x hx y hy := h.apart x (hperm.mem_iff.mp hx) y (hperm.mem_iff.mp hy)
  fresh x hx := h.fresh x (hperm.mem_iff.mp hx)
  disk := h.disk
  base := h.base

/-- `rw_scattered` reads as many blocks of the queue as the disk task likes, and gives all of them back. -/
theorem rwScattered_drains (h0 : Linked c₀) (hdev : HasDriver dev) (h : Pending dev b₀ c₀ q c) :
    SurelyC (rwScattered dev q .reading) c fun _ c' => Pending dev b₀ c₀ [] c' := by
  have hfew : ¬nrBufs < q.length := by
    have hlen := h.nodup.length_le_card
    rw [Fintype.card_fin] at hlen
    exact not_lt.mpr hlen
  unfold rwScattered SurelyC
  refine wp_ite (fun hnil => ?_) fun _ => ?_
  · rw [← hnil]
    exact h
  · refine wp_ite (fun hmany => absurd hmany hfew) fun _ => ?_
    rw [wp_bind, wp_findDev hdev]
    simp only [wp_bind, wp_get]
    exact harvestAll_drains h0 hdev (h.perm (sortQueue_perm c q))

/-! ## §4 The Block That Is Asked For -/

/-- What `rahead` comes to: its buffer holds the block unless the disk has failed, and it has given back all
    others. -/
structure Brought (dev b : ℕ) (bp : BufId) (c c' : Cache) : Prop where
  linked : Linked c'
  served : Served c'
  count : ∀ x, (c'.buf x).count = (c.buf x).count + if x = bp then 1 else 0
  blocknr : (c'.buf bp).blocknr = b
  came : (c'.buf bp).dev = dev ∧ (c'.buf bp).data = blockAt c dev b ∨
    (c'.buf bp).dev = noDev ∧ c'.rdwtErr < 0
  evolves : Evolves c c'

/-- The block is in the cache already. -/
theorem Fetched.brought (h : Fetched dev b .prefetch bp c c') (hc : Linked c) (hdev : dev ≠ noDev)
    (hserved : Served c') (hvalid : (c'.buf bp).dev ≠ noDev) : Brought dev b bp c c' where
  linked := h.linked
  served := hserved
  count := h.count
  blocknr := h.blocknr
  came := by
    rcases h.came with ⟨hholds, hsame, hdata⟩ | ⟨-, -, hnone⟩
    · exact .inl ⟨hsame, hdata.trans (hc.blockAt_held hholds hdev).symm⟩
    · exact absurd hnone hvalid
  evolves := h.evolves (by decide)

/-- After the queue has been read, the block is obtained as `get_block` obtains any block. -/
theorem getBlock_drained (h0 : Spacious c₀) (hdev : HasDriver dev) (h : Pending dev b₀ c₀ [] c)
    (habsent : ∀ y, ¬Holds c₀ y dev b₀) :
    SurelyC (getBlock dev b₀ .normal) c fun bp c' => Brought dev b₀ bp c₀ c' := by
  have hcount : ∀ x, (c.buf x).count = (c₀.buf x).count := fun x => by rw [h.count]; simp
  have hroom : c.bufsInUse < nrBufs := by
    have hsame : c.bufsInUse = c₀.bufsInUse := by
      rw [h.linked.inUse, h0.linked.inUse]
      simp only [hcount]
    rw [hsame]
    exact h0.room
  refine (Surely.and (getBlock_surely h.linked h.served hroom hdev) (getBlock_fetched h.linked)).mono ?_
  rintro bp c' ⟨hserved, hf⟩
  refine ⟨hf.linked, hserved, fun x => by rw [hf.count, hcount], hf.blocknr, ?_,
    h.evolves.trans (hf.evolves (by decide))⟩
  rw [blockAt_absent habsent]
  rcases hf.came with ⟨hholds, hsame, hdata⟩ | ⟨-, hnone, hdelivered⟩
  · exact .inl ⟨hsame, hdata.trans (h.base bp hholds)⟩
  · refine hdelivered.imp_left fun hcame => ⟨hcame.1, ?_⟩
    rw [hcame.2 hdev.ne_noDev, hf.blocknr, hf.quiet dev b₀ hdev.ne_noDev (hnone hdev.ne_noDev)]
    exact h.disk

end

end LisaMinix.Fs.Server
