import LisaMinix.Fs.Server.Cache

/-!
# The Cache and the Disk

What is in the cache stands for the disk: `blockAt` is what a block holds, in the cache or on the
disk behind it.

- `Linked`: the invariant of the chains and of the use counts, whatever the disks answer.
- `Coherent`: with disks that do not fail, a clean buffer is a copy of its block.  A buffer that has
  been taken without being read is `loose` until it is marked dirty.
- `getBlock_normal`, `getBlock_noRead`, `putBuf_spec`: no block changes when a buffer is obtained
  or given back.
-/

namespace LisaMinix.Fs.Server

open LisaMinix.Library Function
open Finset (univ)

variable {c c' c'' : Cache} {bp x : BufId} {dev b : ℕ} {l : List BufId} {search : Search}
  {Q : BufId → Cache → Prop} {n : ℤ} {blockType : BlockType} {o : Option BufId}

/-- Some program of the cache, if it returns. -/
abbrev ReturnsC {α : Type} (m : CacheM α) (c : Cache) (Q : α → Cache → Prop) : Prop :=
  Wp (fun _ _ => True) m c Q

section

variable {E : Panic → Cache → Prop} {c : Cache}

@[simp] theorem wp_modBuf {bp : BufId} {f : Buf → Buf} {Q : PUnit → Cache → Prop} :
    Wp E (modBuf bp f) c Q ↔ Q ⟨⟩ { c with buf := update c.buf bp (f (c.buf bp)) } := Iff.rfl

@[simp] theorem wp_nextAnswer {Q : IoAnswer → Cache → Prop} :
    Wp E nextAnswer c Q ↔ Q (c.io c.tick) { c with tick := c.tick + 1 } := Iff.rfl

@[simp] theorem wp_readBuf {bp : BufId} {Q : Block → Cache → Prop} :
    Wp E (readBuf bp) c Q ↔ Q (c.buf bp).data c := Iff.rfl

end

/-! ## §1 The Invariants -/

/-- The buffer holds a block. -/
def Holds (c : Cache) (bp : BufId) (dev b : ℕ) : Prop :=
  (c.buf bp).dev = dev ∧ (c.buf bp).blocknr = b

instance (c : Cache) (bp : BufId) (dev b : ℕ) : Decidable (Holds c bp dev b) :=
  inferInstanceAs (Decidable (_ ∧ _))

/-- The chains and the counts. -/
structure Linked (c : Cache) : Prop where
  lru : c.lru.Perm (List.finRange nrBufs)
  nodup : ∀ h, (c.hash h).Nodup
  hash : ∀ h bp, bp ∈ c.hash h ↔ (c.buf bp).blocknr % nrBufHash = h
  nonneg : ∀ bp, 0 ≤ (c.buf bp).count
  inUse : c.bufsInUse = (univ.filter fun bp => (c.buf bp).count ≠ 0).card
  unique : ∀ bp bp', (c.buf bp).dev ≠ noDev → Holds c bp' (c.buf bp).dev (c.buf bp).blocknr → bp' = bp

/-- The disks do what they are told. -/
def DrivesWork (c : Cache) : Prop := ∀ n, (c.io n).ok = true

/-- The disks answer as before, and no error has been noted. -/
def SameDrive (c c' : Cache) : Prop := c'.io = c.io ∧ c'.rdwtErr = c.rdwtErr

theorem SameDrive.trans (h : SameDrive c c') (h' : SameDrive c' c'') :
    SameDrive c c'' := ⟨h'.1.trans h.1, h'.2.trans h.2⟩

/-- Clean buffers are copies of their blocks. -/
structure Coherent (loose : Option BufId) (c : Cache) : Prop extends Linked c where
  drives : DrivesWork c
  held : ∀ bp, loose = some bp → (c.buf bp).count ≠ 0
  clean : ∀ bp, loose ≠ some bp → (c.buf bp).dev ≠ noDev → (c.buf bp).dirt = false →
    (c.buf bp).data = c.disk (c.buf bp).dev (c.buf bp).blocknr

/-- What block `b` of the device holds. -/
def blockAt (c : Cache) (dev b : ℕ) : Block :=
  match (List.finRange nrBufs).find? fun bp => decide (Holds c bp dev b) with
  | some bp => (c.buf bp).data
  | none => c.disk dev b

theorem Linked.blockAt_held (h : Linked c) (hbp : Holds c bp dev b) (hdev : dev ≠ noDev) :
    blockAt c dev b = (c.buf bp).data := by
  obtain ⟨rfl, rfl⟩ := hbp
  unfold blockAt
  split
  next bp' hfind =>
    have hholds : Holds c bp' (c.buf bp).dev (c.buf bp).blocknr := by
      simpa using List.find?_some hfind
    rw [h.unique bp bp' hdev hholds]
  next hfind =>
    have hnot := List.find?_eq_none.mp hfind bp (List.mem_finRange bp)
    have hself : Holds c bp (c.buf bp).dev (c.buf bp).blocknr := ⟨rfl, rfl⟩
    exact absurd (decide_eq_true hself) hnot

theorem blockAt_absent (h : ∀ bp, ¬Holds c bp dev b) : blockAt c dev b = c.disk dev b := by
  unfold blockAt
  split
  next bp' hfind => exact absurd (by simpa using List.find?_some hfind) (h bp')
  next => rfl

/-- Two caches that hold the same data for a block. -/
theorem Linked.blockAt_congr (h : Linked c) (h' : Linked c') (hdev : dev ≠ noDev)
    (hholds : ∀ bp, Holds c' bp dev b ↔ Holds c bp dev b)
    (hdata : ∀ bp, Holds c bp dev b → (c'.buf bp).data = (c.buf bp).data)
    (hdisk : (∀ bp, ¬Holds c bp dev b) → c'.disk dev b = c.disk dev b) :
    blockAt c' dev b = blockAt c dev b := by
  by_cases hex : ∃ bp, Holds c bp dev b
  · obtain ⟨bp, hbp⟩ := hex
    rw [h.blockAt_held hbp hdev, h'.blockAt_held ((hholds bp).mpr hbp) hdev, hdata bp hbp]
  · have habsent : ∀ bp, ¬Holds c bp dev b := fun bp hbp => hex ⟨bp, hbp⟩
    rw [blockAt_absent habsent, blockAt_absent fun bp => (hholds bp).not.mpr (habsent bp),
      hdisk habsent]

/-! ## §2 Flushing -/

/-- The buffers of the list, which all belong to the device, have been written. -/
structure Written (dev : ℕ) (l : List BufId) (c c' : Cache) : Prop where
  frame : c' = { c with buf := c'.buf, disk := c'.disk, writes := c'.writes, tick := c'.tick }
  buf : ∀ bp, c'.buf bp = { c.buf bp with
    dev := (c'.buf bp).dev, dirt := if bp ∈ l then false else (c.buf bp).dirt }
  valid : ∀ bp, (c'.buf bp).dev = (c.buf bp).dev ∨ (c'.buf bp).dev = noDev
  same : DrivesWork c → ∀ bp, (c'.buf bp).dev = (c.buf bp).dev
  written : DrivesWork c → ∀ bp ∈ l, c'.disk dev (c.buf bp).blocknr = (c.buf bp).data
  others : ∀ d b, (d = dev → ∀ bp ∈ l, (c.buf bp).blocknr ≠ b) → c'.disk d b = c.disk d b

theorem Written.nil (dev : ℕ) (c : Cache) : Written dev [] c c where
  frame := rfl
  buf bp := by simp
  valid _ := .inl rfl
  same _ _ := rfl
  written _ bp h := absurd h (by simp)
  others _ _ _ := rfl

theorem Written.drive (h : Written dev l c c') : SameDrive c c' := by
  rw [h.frame]
  exact ⟨rfl, rfl⟩

theorem Written.congr {l' : List BufId} (h : Written dev l c c') (hmem : ∀ bp, bp ∈ l ↔ bp ∈ l') :
    Written dev l' c c' where
  frame := h.frame
  buf bp := by simpa only [hmem bp] using h.buf bp
  valid := h.valid
  same := h.same
  written hd bp hbp := h.written hd bp ((hmem bp).mpr hbp)
  others d b hnot := h.others d b fun hd bp hbp => hnot hd bp ((hmem bp).mp hbp)

theorem Written.cons {c₁ : Cache} (h : Written dev [bp] c c₁) (h' : Written dev l c₁ c')
    (hbp : ∀ bp' ∈ l, (c.buf bp').blocknr ≠ (c.buf bp).blocknr) : Written dev (bp :: l) c c' := by
  have hdata : ∀ x, (c₁.buf x).data = (c.buf x).data ∧ (c₁.buf x).blocknr = (c.buf x).blocknr := by
    intro x
    rw [h.buf x]
    exact ⟨rfl, rfl⟩
  have hdrives : DrivesWork c → DrivesWork c₁ := by
    intro hd n
    rw [h.drive.1]
    exact hd n
  constructor
  · rw [h'.frame, h.frame]
  · intro x
    rw [h'.buf x, h.buf x]
    simp only [List.mem_cons, List.not_mem_nil, or_false]
    congr 1
    by_cases hx : x ∈ l
    · rw [if_pos hx, if_pos (.inr hx)]
    · simp only [hx, or_false, if_false]
  · intro x
    rcases h'.valid x with hx | hx
    · rw [hx]
      exact h.valid x
    · exact .inr hx
  · intro hd x
    rw [h'.same (hdrives hd), h.same hd]
  · intro hd x hx
    rcases List.mem_cons.mp hx with rfl | hx
    · rw [h'.others dev _ fun _ bp' hbp' => by rw [(hdata bp').2]; exact hbp bp' hbp']
      exact h.written hd x (List.mem_singleton_self x)
    · have hwritten := h'.written (hdrives hd) x hx
      rwa [(hdata x).1, (hdata x).2] at hwritten
  · intro d b hnot
    rw [h'.others d b fun hdev bp' hbp' => ?_, h.others d b fun hdev bp' hbp' => ?_]
    · rw [List.mem_singleton.mp hbp']
      exact hnot hdev bp List.mem_cons_self
    · rw [(hdata bp').2]
      exact hnot hdev bp' (List.mem_cons_of_mem _ hbp')

/-- The disk task has written one buffer, of which it says whether it has done so. -/
def afterWrite (dev : ℕ) (bp : BufId) (c : Cache) : Cache :=
  let b := c.buf bp
  let ans := c.io c.tick
  { c with
    buf := update c.buf bp { b with dev := if ans.ok then b.dev else noDev, dirt := false }
    disk := update c.disk dev
      (update (c.disk dev) b.blocknr (if ans.ok then b.data else ans.junk))
    writes := (dev, b.blocknr) :: c.writes
    tick := c.tick + 1 }

theorem afterWrite_written (dev : ℕ) (bp : BufId) (c : Cache) :
    Written dev [bp] c (afterWrite dev bp c) where
  frame := rfl
  buf x := by
    rcases eq_or_ne x bp with rfl | hx
    · simp [afterWrite]
    · simp [afterWrite, hx]
  valid x := by
    rcases eq_or_ne x bp with rfl | hx
    · simp only [afterWrite, update_self]
      split
      · exact .inl rfl
      · exact .inr rfl
    · exact .inl (by simp [afterWrite, hx])
  same hd x := by
    rcases eq_or_ne x bp with rfl | hx
    · simp [afterWrite, hd c.tick]
    · simp [afterWrite, hx]
  written hd x hx := by
    rw [List.mem_singleton.mp hx]
    simp [afterWrite, hd c.tick]
  others d b hnot := by
    rcases eq_or_ne d dev with rfl | hd
    · have hb : b ≠ (c.buf bp).blocknr := (hnot rfl bp (List.mem_singleton_self bp)).symm
      simp [afterWrite, hb]
    · simp [afterWrite, hd]

/-- The buffers of a queue are written one after the other. -/
theorem harvestAll_cons {Q : PUnit → Cache → Prop}
    (h : ReturnsC (harvestAll dev .writing l) (afterWrite dev bp c) Q) :
    ReturnsC (harvestAll dev .writing (bp :: l)) c Q := by
  unfold ReturnsC at h ⊢
  simp only [harvestAll, transfer, setDisk, wp_bind, wp_nextAnswer, wp_get, wp_modify]
  cases hok : (c.io c.tick).ok with
  | true => simpa [afterWrite, hok] using h
  | false => simpa [afterWrite, hok] using h

theorem harvestAll_written (dev : ℕ) (l : List BufId) (c : Cache)
    (hl : l.Pairwise fun bp bp' => (c.buf bp').blocknr ≠ (c.buf bp).blocknr) :
    ReturnsC (harvestAll dev .writing l) c fun _ c' => Written dev l c c' := by
  induction l generalizing c with
  | nil => exact Written.nil dev c
  | cons bp l ih =>
    obtain ⟨hbp, hl⟩ := List.pairwise_cons.mp hl
    have hhead := afterWrite_written dev bp c
    have htail : l.Pairwise fun x x' =>
        ((afterWrite dev bp c).buf x').blocknr ≠ ((afterWrite dev bp c).buf x).blocknr := by
      apply hl.imp
      intro x x' hne
      rw [hhead.buf x, hhead.buf x']
      exact hne
    exact harvestAll_cons ((ih _ htail).mono fun _ c' h' => hhead.cons h' hbp)

theorem siftDown_perm (c : Cache) (gap n k : ℕ) (bufq : Array BufId) :
    (siftDown c gap n k bufq).toList.Perm bufq.toList := by
  induction n generalizing k bufq with
  | zero => exact .refl _
  | succ n ih =>
    unfold siftDown
    split
    next h =>
      split
      · exact (ih _ _).trans (Array.perm_iff_toList_perm.mp (Array.swap_perm _ _))
      · exact .refl _
    next => exact .refl _

theorem sortPass_perm (c : Cache) (bufq : Array BufId) (gap : ℕ) :
    (sortPass c bufq gap).toList.Perm bufq.toList := by
  unfold sortPass
  generalize List.range' gap (bufq.size - gap) = places
  induction places generalizing bufq with
  | nil => exact .refl _
  | cons j places ih => exact (ih _).trans (siftDown_perm c gap _ j bufq)

theorem sortQueue_perm (c : Cache) (bufq : List BufId) : (sortQueue c bufq).Perm bufq := by
  have hpasses : ∀ (gaps : List ℕ) (q : Array BufId),
      (gaps.foldl (sortPass c) q).toList.Perm q.toList := by
    intro gaps
    induction gaps with
    | nil => exact fun q => .refl _
    | cons gap gaps ih => exact fun q => (ih _).trans (sortPass_perm c q gap)
  exact hpasses _ bufq.toArray

/-- The buffers that `flushall` writes. -/
def dirtyBufs (c : Cache) (dev : ℕ) : List BufId :=
  (List.finRange nrBufs).filter fun bp => (c.buf bp).dirt ∧ (c.buf bp).dev = dev

theorem dev_of_mem_dirtyBufs (h : bp ∈ dirtyBufs c dev) : (c.buf bp).dev = dev :=
  (of_decide_eq_true (List.mem_filter.mp h).2).2

/-- `flushall` has nothing to do, or writes the dirty buffers. -/
theorem flushall_returns {Q : PUnit → Cache → Prop} (hnil : dirtyBufs c dev = [] → Q ⟨⟩ c)
    (hall : ReturnsC (harvestAll dev .writing (sortQueue c (dirtyBufs c dev))) c Q) :
    ReturnsC (flushall dev) c Q := by
  unfold flushall rwScattered ReturnsC
  simp only [wp_bind, wp_get]
  refine wp_ite hnil fun _ => ?_
  refine wp_ite (fun _ => trivial) fun _ => ?_
  simp only [wp_bind, findDev]
  refine wp_ite (fun _ => trivial) fun _ => ?_
  simp only [wp_pure, wp_get]
  exact hall

theorem flushall_written (hdev : dev ≠ noDev)
    (hunique : ∀ bp bp', (c.buf bp).dev ≠ noDev → Holds c bp' (c.buf bp).dev (c.buf bp).blocknr →
      bp' = bp) : ReturnsC (flushall dev) c fun _ c' => Written dev (dirtyBufs c dev) c c' := by
  refine flushall_returns (fun hnil => ?_) ?_
  · rw [hnil]
    exact Written.nil dev c
  have hperm := sortQueue_perm c (dirtyBufs c dev)
  have hnodup : (sortQueue c (dirtyBufs c dev)).Nodup :=
    hperm.nodup_iff.mpr ((List.nodup_finRange nrBufs).filter _)
  have hdirty : ∀ bp ∈ sortQueue c (dirtyBufs c dev), (c.buf bp).dev = dev :=
    fun bp hbp => dev_of_mem_dirtyBufs (hperm.mem_iff.mp hbp)
  have hpairwise : (sortQueue c (dirtyBufs c dev)).Pairwise fun bp bp' =>
      (c.buf bp').blocknr ≠ (c.buf bp).blocknr := by
    apply List.Pairwise.imp_of_mem _ hnodup
    intro bp bp' hbp hbp' hne heq
    have hvalid : (c.buf bp).dev ≠ noDev := by rwa [hdirty bp hbp]
    exact hne (hunique bp bp' hvalid ⟨by rw [hdirty bp hbp, hdirty bp' hbp'], heq⟩).symm
  exact (harvestAll_written dev _ c hpairwise).mono fun _ c' h => h.congr fun _ => hperm.mem_iff

/-! What becomes of the buffers, whatever the disks answer. -/

/-- A block has been written since `c`, or a disk task has been asked to do so. -/
def WrittenSince (c : Cache) (dev b : ℕ) (c' : Cache) : Prop :=
  ∃ w, c'.writes = w ++ c.writes ∧ (dev, b) ∈ w

/-- The buffer has kept its block; if it was dirty, it still is or has been written. -/
structure Stays (x : BufId) (c c' : Cache) : Prop where
  dev : (c'.buf x).dev = (c.buf x).dev
  blocknr : (c'.buf x).blocknr = (c.buf x).blocknr
  data : (c'.buf x).data = (c.buf x).data
  dirt : (c.buf x).dev ≠ noDev → (c.buf x).dirt = true → (c'.buf x).dirt = true ∨
    WrittenSince c (c.buf x).dev (c.buf x).blocknr c'
  disk : (c.buf x).dev ≠ noDev →
    c'.disk (c.buf x).dev (c.buf x).blocknr = c.disk (c.buf x).dev (c.buf x).blocknr ∨
      c'.disk (c.buf x).dev (c.buf x).blocknr = (c.buf x).data

/-- The buffer has lost its block, which has been written if it was dirty; if there is another in it, that is
    what is on the disk. -/
structure Leaves (x : BufId) (c c' : Cache) : Prop where
  saved : (c.buf x).dev ≠ noDev → (c.buf x).dirt = true →
    WrittenSince c (c.buf x).dev (c.buf x).blocknr c'
  fresh : (c'.buf x).dev ≠ noDev → (c'.buf x).data = c'.disk (c'.buf x).dev (c'.buf x).blocknr

/-- What becomes of a buffer. -/
def Fares (x : BufId) (c c' : Cache) : Prop := Stays x c c' ∨ Leaves x c c'

structure Evolves (c c' : Cache) : Prop where
  writes : c.writes <:+ c'.writes
  fares : ∀ x, Fares x c c'

theorem WrittenSince.later (h : WrittenSince c dev b c') (h' : c'.writes <:+ c''.writes) :
    WrittenSince c dev b c'' := by
  obtain ⟨w, hw, hmem⟩ := h
  obtain ⟨w', hw'⟩ := h'
  exact ⟨w' ++ w, by rw [← hw', hw, List.append_assoc], List.mem_append_right _ hmem⟩

theorem WrittenSince.earlier (h : WrittenSince c' dev b c'') (h' : c.writes <:+ c'.writes) :
    WrittenSince c dev b c'' := by
  obtain ⟨w, hw, hmem⟩ := h
  obtain ⟨w', hw'⟩ := h'
  exact ⟨w ++ w', by rw [hw, ← hw', List.append_assoc], List.mem_append_left _ hmem⟩

/-- The buffer is as it was. -/
theorem fares_of_eq (hdisk : c'.disk = c.disk)
    (hbuf : (c'.buf x).dev = (c.buf x).dev ∧ (c'.buf x).blocknr = (c.buf x).blocknr ∧
      (c'.buf x).data = (c.buf x).data ∧ (c'.buf x).dirt = (c.buf x).dirt) : Fares x c c' := by
  obtain ⟨hdev, hnr, hdata, hdirt⟩ := hbuf
  exact .inl ⟨hdev, hnr, hdata, fun _ h => .inl (hdirt.trans h), fun _ => .inl (by rw [hdisk])⟩

theorem Fares.trans (h : Fares x c c') (h' : Fares x c' c'') (hwrites : c.writes <:+ c'.writes)
    (hwrites' : c'.writes <:+ c''.writes) : Fares x c c'' := by
  rcases h with hstay | hleave <;> rcases h' with hstay' | hleave'
  · have hdev := hstay.dev
    have hnr := hstay.blocknr
    refine .inl ⟨hstay'.dev.trans hdev, hstay'.blocknr.trans hnr, hstay'.data.trans hstay.data,
      fun hvalid hdirt => ?_, fun hvalid => ?_⟩
    · rcases hstay.dirt hvalid hdirt with hstill | hwritten
      · have hlater := hstay'.dirt (by rwa [hdev]) hstill
        rw [hdev, hnr] at hlater
        exact hlater.imp_right fun hw => hw.earlier hwrites
      · exact .inr (hwritten.later hwrites')
    · have hlater := hstay'.disk (by rwa [hdev])
      rw [hdev, hnr, hstay.data] at hlater
      rcases hlater with hsame | hdata
      · rw [hsame]
        exact hstay.disk hvalid
      · exact .inr hdata
  · refine .inr ⟨fun hvalid hdirt => ?_, hleave'.fresh⟩
    rcases hstay.dirt hvalid hdirt with hstill | hwritten
    · have hlater := hleave'.saved (by rwa [hstay.dev]) hstill
      rw [hstay.dev, hstay.blocknr] at hlater
      exact hlater.earlier hwrites
    · exact hwritten.later hwrites'
  · refine .inr ⟨fun hvalid hdirt => (hleave.saved hvalid hdirt).later hwrites', fun hvalid => ?_⟩
    rw [hstay'.dev] at hvalid ⊢
    rw [hstay'.blocknr, hstay'.data]
    rcases hstay'.disk hvalid with hsame | hdata
    · rw [hsame]
      exact hleave.fresh hvalid
    · exact hdata.symm
  · exact .inr ⟨fun hvalid hdirt => (hleave.saved hvalid hdirt).later hwrites', hleave'.fresh⟩

/-- The buffers are as they were. -/
theorem evolves_of_eq (hwrites : c'.writes = c.writes) (hdisk : c'.disk = c.disk)
    (hbuf : ∀ x, (c'.buf x).dev = (c.buf x).dev ∧ (c'.buf x).blocknr = (c.buf x).blocknr ∧
      (c'.buf x).data = (c.buf x).data ∧ (c'.buf x).dirt = (c.buf x).dirt) : Evolves c c' where
  writes := by rw [hwrites]
  fares x := fares_of_eq hdisk (hbuf x)

theorem Evolves.refl (c : Cache) : Evolves c c := evolves_of_eq rfl rfl fun _ => ⟨rfl, rfl, rfl, rfl⟩

theorem Evolves.trans (h : Evolves c c') (h' : Evolves c' c'') : Evolves c c'' where
  writes := h.writes.trans h'.writes
  fares x := (h.fares x).trans (h'.fares x) h.writes h'.writes

/-- A buffer has been written: it is lost if that has failed. -/
theorem afterWrite_evolves (hbp : (c.buf bp).dev = dev)
    (hunique : ∀ x, (c.buf x).dev ≠ noDev → Holds c bp (c.buf x).dev (c.buf x).blocknr → bp = x) :
    Evolves c (afterWrite dev bp c) where
  writes := List.suffix_cons _ _
  fares x := by
    rcases eq_or_ne x bp with rfl | hx
    · have hwritten : WrittenSince c (c.buf x).dev (c.buf x).blocknr (afterWrite dev x c) :=
        ⟨[(dev, (c.buf x).blocknr)], rfl, by rw [hbp]; exact List.mem_singleton_self _⟩
      cases hok : (c.io c.tick).ok with
      | true =>
        refine .inl ⟨?_, ?_, ?_, fun _ _ => .inr hwritten, fun _ => .inr ?_⟩ <;>
          simp [afterWrite, hok, hbp]
      | false => exact .inr ⟨fun _ _ => hwritten, fun hvalid => absurd (by simp [afterWrite, hok]) hvalid⟩
    · have hbuf : (afterWrite dev bp c).buf x = c.buf x := by simp [afterWrite, hx]
      refine .inl ⟨by rw [hbuf], by rw [hbuf], by rw [hbuf], fun _ hdirt => .inl (by rwa [hbuf]),
        fun hvalid => .inl ?_⟩
      refine (afterWrite_written dev bp c).others _ _ fun hdev bp' hbp' hnr => ?_
      obtain rfl := List.mem_singleton.mp hbp'
      exact hx (hunique x hvalid ⟨by rw [hbp, hdev], hnr⟩).symm

theorem harvestAll_evolves (hl : l.Nodup) (hdev : ∀ bp ∈ l, (c.buf bp).dev = dev)
    (hunique : ∀ x bp, (c.buf x).dev ≠ noDev → Holds c bp (c.buf x).dev (c.buf x).blocknr → bp = x) :
    ReturnsC (harvestAll dev .writing l) c fun _ c' => Evolves c c' := by
  induction l generalizing c with
  | nil => exact Evolves.refl c
  | cons bp l ih =>
    obtain ⟨hbp, hl⟩ := List.nodup_cons.mp hl
    have hhead := afterWrite_evolves (hdev bp List.mem_cons_self) fun x => hunique x bp
    have hwritten := afterWrite_written dev bp c
    have hnr (x : BufId) : ((afterWrite dev bp c).buf x).blocknr = (c.buf x).blocknr := by
      rw [hwritten.buf x]
    have hdevs : ∀ x ∈ l, ((afterWrite dev bp c).buf x).dev = dev := by
      intro x hx
      have hne : x ≠ bp := by
        rintro rfl
        exact hbp hx
      rw [← hdev x (List.mem_cons_of_mem _ hx)]
      simp [afterWrite, hne]
    have hunique' : ∀ x y, ((afterWrite dev bp c).buf x).dev ≠ noDev →
        Holds (afterWrite dev bp c) y ((afterWrite dev bp c).buf x).dev
          ((afterWrite dev bp c).buf x).blocknr → y = x := by
      intro x y hvalid hholds
      have hsame : ((afterWrite dev bp c).buf x).dev = (c.buf x).dev :=
        (hwritten.valid x).resolve_right hvalid
      have hy : ((afterWrite dev bp c).buf y).dev = (c.buf y).dev :=
        (hwritten.valid y).resolve_right (by rw [hholds.1]; exact hvalid)
      rw [hsame] at hvalid hholds
      rw [Holds, hy, hnr, hnr] at hholds
      exact hunique x y hvalid hholds
    exact harvestAll_cons ((ih hl hdevs hunique').mono fun _ c' h' => hhead.trans h')

theorem flushall_evolves
    (hunique : ∀ x bp, (c.buf x).dev ≠ noDev → Holds c bp (c.buf x).dev (c.buf x).blocknr → bp = x) :
    ReturnsC (flushall dev) c fun _ c' => Evolves c c' := by
  refine flushall_returns (fun _ => Evolves.refl c) ?_
  have hperm := sortQueue_perm c (dirtyBufs c dev)
  exact harvestAll_evolves (hperm.nodup_iff.mpr ((List.nodup_finRange nrBufs).filter _))
    (fun bp hbp => dev_of_mem_dirtyBufs (hperm.mem_iff.mp hbp)) hunique

/-! ## §3 Changes That Keep the Invariants -/

/-- The chains and the counts are the same, and no buffer has got another block. -/
structure SameChains (c c' : Cache) : Prop where
  lru : c'.lru = c.lru
  hash : c'.hash = c.hash
  bufsInUse : c'.bufsInUse = c.bufsInUse
  count : ∀ bp, (c'.buf bp).count = (c.buf bp).count
  blocknr : ∀ bp, (c'.buf bp).blocknr = (c.buf bp).blocknr
  valid : ∀ bp, (c'.buf bp).dev = (c.buf bp).dev ∨ (c'.buf bp).dev = noDev

theorem SameChains.linked (h : SameChains c c') (hc : Linked c) : Linked c' where
  lru := by rw [h.lru]; exact hc.lru
  nodup := by rw [h.hash]; exact hc.nodup
  hash x bp := by rw [h.hash, h.blocknr]; exact hc.hash x bp
  nonneg bp := by rw [h.count]; exact hc.nonneg bp
  inUse := by
    rw [h.bufsInUse, hc.inUse]
    simp only [h.count]
  unique bp bp' hvalid hholds := by
    have hdev : ∀ x, (c'.buf x).dev ≠ noDev → (c'.buf x).dev = (c.buf x).dev :=
      fun x hx => (h.valid x).resolve_right hx
    have hvalid' : (c'.buf bp').dev ≠ noDev := by rw [hholds.1]; exact hvalid
    have hsame : (c.buf bp').dev = (c.buf bp).dev := by
      rw [← hdev bp' hvalid', ← hdev bp hvalid]
      exact hholds.1
    apply hc.unique bp bp'
    · rw [← hdev bp hvalid]
      exact hvalid
    · exact ⟨hsame, by rw [← h.blocknr, ← h.blocknr bp]; exact hholds.2⟩

/-- One buffer has changed. -/
theorem sameChains_update {y : Buf} (hbuf : c'.buf = update c.buf bp y)
    (hcount : y.count = (c.buf bp).count) (hblocknr : y.blocknr = (c.buf bp).blocknr)
    (hvalid : y.dev = (c.buf bp).dev ∨ y.dev = noDev) (hlru : c'.lru = c.lru)
    (hhash : c'.hash = c.hash) (hused : c'.bufsInUse = c.bufsInUse) : SameChains c c' := by
  refine ⟨hlru, hhash, hused, ?_, ?_, ?_⟩ <;> intro x <;> rw [hbuf] <;>
    rcases eq_or_ne x bp with rfl | hx
  · rw [update_self, hcount]
  · rw [update_of_ne hx]
  · rw [update_self, hblocknr]
  · rw [update_of_ne hx]
  · rw [update_self]
    exact hvalid
  · rw [update_of_ne hx]
    exact .inl rfl

theorem Written.chains (h : Written dev l c c') : SameChains c c' where
  lru := by rw [h.frame]
  hash := by rw [h.frame]
  bufsInUse := by rw [h.frame]
  count bp := by rw [h.buf bp]
  blocknr bp := by rw [h.buf bp]
  valid := h.valid

/-- All blocks of devices hold what they have held. -/
def SameBlocks (c c' : Cache) : Prop := ∀ dev b, dev ≠ noDev → blockAt c' dev b = blockAt c dev b

theorem SameBlocks.refl (c : Cache) : SameBlocks c c := fun _ _ _ => rfl

theorem SameBlocks.trans (h : SameBlocks c c') (h' : SameBlocks c' c'') :
    SameBlocks c c'' := fun dev b hdev => (h' dev b hdev).trans (h dev b hdev)

/-- Buffers of a device have been written. -/
theorem Coherent.written {loose : Option BufId} (hc : Coherent loose c)
    (hl : ∀ bp ∈ l, (c.buf bp).dev = dev) (h : Written dev l c c') :
    Coherent loose c' ∧ SameBlocks c c' := by
  have hlinked := h.chains.linked hc.toLinked
  have hsame := h.same hc.drives
  have hdata : ∀ bp, (c'.buf bp).data = (c.buf bp).data := fun bp => by rw [h.buf bp]
  -- a buffer that has not been written stands for a block that has not been written either
  have hdisk : ∀ bp, (c.buf bp).dev ≠ noDev → bp ∉ l →
      c'.disk (c.buf bp).dev (c.buf bp).blocknr = c.disk (c.buf bp).dev (c.buf bp).blocknr := by
    intro bp hvalid hbp
    apply h.others
    intro hd bp' hbp' hnr
    have heq : bp' = bp := hc.unique bp bp' hvalid ⟨by rw [hl bp' hbp', hd], hnr⟩
    exact hbp (heq ▸ hbp')
  refine ⟨⟨hlinked, ?_, ?_, ?_⟩, ?_⟩
  · intro n
    rw [h.drive.1]
    exact hc.drives n
  · intro bp hbp
    rw [h.chains.count]
    exact hc.held bp hbp
  · intro bp hloose hvalid hclean
    rw [hsame] at hvalid ⊢
    rw [hdata, h.chains.blocknr]
    by_cases hbp : bp ∈ l
    · rw [hl bp hbp]
      exact (h.written hc.drives bp hbp).symm
    · rw [hdisk bp hvalid hbp]
      apply hc.clean bp hloose hvalid
      rw [h.buf bp, if_neg hbp] at hclean
      exact hclean
  · intro d b hd
    apply hc.toLinked.blockAt_congr hlinked hd
    · intro bp
      unfold Holds
      rw [hsame, h.chains.blocknr]
    · exact fun bp _ => hdata bp
    · intro habsent
      apply h.others
      intro hdev bp hbp hnr
      exact habsent bp ⟨by rw [hl bp hbp, hdev], hnr⟩

/-! ## §4 Taking a Buffer -/

/-- The buffer moves to the hash chain of its new block. -/
def rehash (bp : BufId) (old b : ℕ) (hash : ℕ → List BufId) : ℕ → List BufId :=
  let hash := update hash (old % nrBufHash) ((hash (old % nrBufHash)).erase bp)
  update hash (b % nrBufHash) (bp :: hash (b % nrBufHash))

/-- A buffer that is not in use is taken for block `b`. -/
def grab (bp : BufId) (dev b : ℕ) (c : Cache) : Cache :=
  { c with
    bufsInUse := c.bufsInUse + 1
    peak := max c.peak (c.bufsInUse + 1)
    hash := rehash bp (c.buf bp).blocknr b c.hash
    buf := update c.buf bp
      { c.buf bp with dev := dev, blocknr := b, count := (c.buf bp).count + 1 } }

theorem rehash_spec (hc : Linked c) (bp : BufId) (b h : ℕ) :
    (rehash bp (c.buf bp).blocknr b c.hash h).Nodup ∧
      ∀ x, x ∈ rehash bp (c.buf bp).blocknr b c.hash h ↔
        if x = bp then b % nrBufHash = h else (c.buf x).blocknr % nrBufHash = h := by
  -- the chains without the buffer
  have herased : ∀ h, (update c.hash ((c.buf bp).blocknr % nrBufHash)
      ((c.hash ((c.buf bp).blocknr % nrBufHash)).erase bp) h).Nodup ∧
      ∀ x, x ∈ update c.hash ((c.buf bp).blocknr % nrBufHash)
        ((c.hash ((c.buf bp).blocknr % nrBufHash)).erase bp) h ↔
          x ≠ bp ∧ (c.buf x).blocknr % nrBufHash = h := by
    intro h
    rcases eq_or_ne h ((c.buf bp).blocknr % nrBufHash) with rfl | hne
    · rw [update_self]
      refine ⟨(hc.nodup _).erase bp, fun x => ?_⟩
      rw [(hc.nodup _).mem_erase_iff, hc.hash]
    · rw [update_of_ne hne]
      refine ⟨hc.nodup h, fun x => ?_⟩
      rw [hc.hash]
      refine ⟨fun hx => ⟨?_, hx⟩, fun hx => hx.2⟩
      rintro rfl
      exact hne hx.symm
  unfold rehash
  rcases eq_or_ne h (b % nrBufHash) with rfl | hne
  · rw [update_self]
    constructor
    · rw [List.nodup_cons]
      exact ⟨fun hmem => (((herased _).2 bp).mp hmem).1 rfl, (herased _).1⟩
    · intro x
      rw [List.mem_cons, (herased _).2]
      split
      next hx => simp [hx]
      next hx => simp [hx]
  · rw [update_of_ne hne]
    refine ⟨(herased h).1, fun x => ?_⟩
    rw [(herased h).2]
    split
    next hx => exact iff_of_false (fun hx' => hx'.1 hx) fun hb => hne hb.symm
    next hx => exact and_iff_right hx

theorem grab_linked (hc : Linked c) (hfree : (c.buf bp).count = 0)
    (hnew : dev ≠ noDev → ∀ x, ¬Holds c x dev b) : Linked (grab bp dev b c) where
  lru := hc.lru
  nodup h := (rehash_spec hc bp b h).1
  hash h x := by
    rw [show (grab bp dev b c).hash h = rehash bp (c.buf bp).blocknr b c.hash h from rfl,
      (rehash_spec hc bp b h).2]
    rcases eq_or_ne x bp with rfl | hx
    · simp [grab]
    · simp [grab, hx]
  nonneg x := by
    rcases eq_or_ne x bp with rfl | hx
    · simp [grab, hfree]
    · simpa [grab, hx] using hc.nonneg x
  inUse := by
    have hfilter : (univ.filter fun x => ((grab bp dev b c).buf x).count ≠ 0) =
        insert bp (univ.filter fun x => (c.buf x).count ≠ 0) := by
      ext x
      rw [Finset.mem_insert, Finset.mem_filter, Finset.mem_filter]
      rcases eq_or_ne x bp with rfl | hx
      · simp [grab, hfree]
      · simp [grab, hx]
    rw [hfilter, Finset.card_insert_of_notMem (by simp [hfree]), ← hc.inUse]
    rfl
  unique x x' hvalid hholds := by
    unfold Holds at hholds
    rcases eq_or_ne x bp with rfl | hx <;> rcases eq_or_ne x' x with rfl | hx'
    · rfl
    · simp only [grab, update_self, update_of_ne hx'] at hvalid hholds
      exact absurd hholds (hnew hvalid x')
    · rfl
    · simp only [grab, update_of_ne hx] at hvalid hholds
      rcases eq_or_ne x' bp with rfl | hbp
      · simp only [update_self] at hholds
        exact absurd ⟨hholds.1.symm, hholds.2.symm⟩ (hnew (by rwa [hholds.1]) x)
      · simp only [update_of_ne hbp] at hholds
        exact hc.unique x x' hvalid hholds

/-- A buffer whose block is on the disk. -/
def Spare (c : Cache) (bp : BufId) : Prop :=
  (c.buf bp).count = 0 ∧ ((c.buf bp).dev ≠ noDev → (c.buf bp).dirt = false)

theorem grab_holds {d b' : ℕ} :
    Holds (grab bp dev b c) x d b' ↔ if x = bp then dev = d ∧ b = b' else Holds c x d b' := by
  unfold Holds
  rcases eq_or_ne x bp with rfl | hx
  · simp [grab]
  · simp [grab, hx]

/-- No other block changes. -/
theorem grab_blocks (hc : Coherent none c) (hspare : Spare c bp)
    (hnew : dev ≠ noDev → ∀ x, ¬Holds c x dev b) {d b' : ℕ} (hd : d ≠ noDev)
    (hother : ¬(d = dev ∧ b' = b)) : blockAt (grab bp dev b c) d b' = blockAt c d b' := by
  have hlinked := grab_linked hc.toLinked hspare.1 hnew
  have hself : ¬(dev = d ∧ b = b') := fun h => hother ⟨h.1.symm, h.2.symm⟩
  by_cases hold : Holds c bp d b'
  · -- the block that is no longer in the cache is on the disk
    obtain ⟨rfl, rfl⟩ := hold
    rw [hc.toLinked.blockAt_held ⟨rfl, rfl⟩ hd, hc.clean bp (by simp) hd (hspare.2 hd)]
    apply blockAt_absent
    intro x hx
    rw [grab_holds] at hx
    split at hx
    next => exact hself hx
    next hne => exact hne (hc.unique bp x hd hx)
  · apply hc.toLinked.blockAt_congr hlinked hd
    · intro x
      rw [grab_holds]
      split
      next hx => exact iff_of_false hself (hx ▸ hold)
      next => exact Iff.rfl
    · intro x hx
      have hne : x ≠ bp := by
        rintro rfl
        exact hold hx
      simp [grab, hne]
    · exact fun _ => rfl

theorem grab_coherent (hc : Coherent none c) (hspare : Spare c bp)
    (hnew : dev ≠ noDev → ∀ x, ¬Holds c x dev b) : Coherent (some bp) (grab bp dev b c) where
  toLinked := grab_linked hc.toLinked hspare.1 hnew
  drives := hc.drives
  held x hx := by
    obtain rfl := Option.some.inj hx
    simp [grab, hspare.1]
  clean x hloose hvalid hclean := by
    have hx : x ≠ bp := fun h => hloose (h ▸ rfl)
    simp only [grab, update_of_ne hx] at hvalid hclean ⊢
    exact hc.clean x (by simp) hvalid hclean

/-- A buffer that is to be evicted is written first if it is dirty, with all of its device. -/
def Cleaned (bp : BufId) (c c' : Cache) : Prop :=
  if (c.buf bp).dev ≠ noDev ∧ (c.buf bp).dirt then
    Written (c.buf bp).dev (dirtyBufs c (c.buf bp).dev) c c'
  else c' = c

/-- `takeBuf` is an eviction, and what it does then. -/
theorem takeBuf_evicts (hc : Linked c)
    (h : ∀ c', Cleaned bp c c' → Evolves c c' → ReturnsC (do
      if dev ≠ noDev ∧ search = .normal then rwBlock bp .reading
      return bp) (grab bp (if search = .prefetch then noDev else dev) b c') Q) :
    ReturnsC (takeBuf bp dev b search) c Q := by
  unfold takeBuf useMore
  simp only [wp_bind, wp_modify, wp_get]
  refine wp_ite (fun hdirty => ?_) fun hclean => ?_
  · have hwritten := flushall_written (c := { c with
      hash := update c.hash ((c.buf bp).blocknr % nrBufHash)
        ((c.hash ((c.buf bp).blocknr % nrBufHash)).erase bp),
      bufsInUse := c.bufsInUse + 1, peak := max c.peak (c.bufsInUse + 1) }) hdirty.1 hc.unique
    rw [wp_bind]
    refine Wp.mono (hwritten.and (flushall_evolves hc.unique)) ?_
    rintro _ c₂ ⟨h2, hevolves⟩
    -- the flush does not depend on the chains
    have hflush : Written (c.buf bp).dev (dirtyBufs c (c.buf bp).dev) c
        { c₂ with bufsInUse := c.bufsInUse, peak := c.peak, hash := c.hash } := by
      refine ⟨?_, h2.buf, h2.valid, h2.same, h2.written, h2.others⟩
      rw [h2.frame]
    have hevolves' : Evolves c { c₂ with bufsInUse := c.bufsInUse, peak := c.peak, hash := c.hash } :=
      ⟨hevolves.writes, fun x => (hevolves.fares x).imp
        (fun hs => ⟨hs.dev, hs.blocknr, hs.data, hs.dirt, hs.disk⟩) fun hl => ⟨hl.saved, hl.fresh⟩⟩
    have hrest := h _ (by rw [Cleaned, if_pos hdirty]; exact hflush) hevolves'
    have hnr : (c₂.buf bp).blocknr = (c.buf bp).blocknr := by rw [h2.buf bp]
    have hhash : c₂.hash = update c.hash ((c.buf bp).blocknr % nrBufHash)
        ((c.hash ((c.buf bp).blocknr % nrBufHash)).erase bp) := by rw [h2.frame]
    have hused : c₂.bufsInUse = c.bufsInUse + 1 ∧ c₂.peak = max c.peak (c.bufsInUse + 1) := by
      rw [h2.frame]
      exact ⟨rfl, rfl⟩
    simp only [grab, rehash, hnr] at hrest
    simp only [wp_bind, wp_modBuf, wp_modify, hhash, hused]
    exact hrest
  · have hrest := h c (by rw [Cleaned, if_neg hclean]) (.refl c)
    simp only [wp_bind, wp_modBuf, wp_modify]
    exact hrest

theorem takeBuf_rule (hc : Linked c)
    (h : ∀ c', Cleaned bp c c' → ReturnsC (do
      if dev ≠ noDev ∧ search = .normal then rwBlock bp .reading
      return bp) (grab bp (if search = .prefetch then noDev else dev) b c') Q) :
    ReturnsC (takeBuf bp dev b search) c Q := takeBuf_evicts hc fun c' hc' _ => h c' hc'

/-! ## §5 `rw_block` -/

/-- A buffer has been read. -/
structure Read (bp : BufId) (c c' : Cache) : Prop where
  chains : SameChains c c'
  io : c'.io = c.io
  err : DrivesWork c → c'.rdwtErr = c.rdwtErr
  disk : c'.disk = c.disk
  others : ∀ x, x ≠ bp → c'.buf x = c.buf x
  read : DrivesWork c → c'.buf bp =
    { c.buf bp with data := c.disk (c.buf bp).dev (c.buf bp).blocknr, dirt := false }

theorem rwBlock_reading (hdev : (c.buf bp).dev ≠ noDev) :
    ReturnsC (rwBlock bp .reading) c fun _ c' => Read bp c c' := by
  unfold rwBlock ReturnsC
  simp only [wp_bind, wp_get]
  rw [if_pos hdev, wp_bind, findDev]
  refine wp_ite (fun _ => trivial) fun _ => ?_
  simp only [transfer, wp_pure, wp_bind, wp_nextAnswer, wp_get, wp_modBuf]
  cases hok : (c.io c.tick).ok with
  | true =>
    simp only [reduceCtorEq, if_false, if_true, wp_modBuf, update_self,
      update_idem]
    refine ⟨sameChains_update rfl rfl rfl (.inl rfl) rfl rfl rfl, rfl, fun _ => rfl, rfl, ?_, ?_⟩
    · exact fun x hx => update_of_ne hx _ _
    · exact fun _ => update_self ..
  | false =>
    simp only [reduceCtorEq, if_false, if_true, wp_bind, wp_modBuf, wp_modify, update_self,
      update_idem]
    have hfails : ¬DrivesWork c := fun hd => absurd ((hd c.tick).symm.trans hok) (by decide)
    refine ⟨sameChains_update rfl rfl rfl (.inr rfl) rfl rfl rfl, rfl, fun hd => absurd hd hfails, rfl,
      ?_, fun hd => absurd hd hfails⟩
    exact fun x hx => update_of_ne hx _ _

theorem rwBlock_writing (hdev : (c.buf bp).dev ≠ noDev) :
    ReturnsC (rwBlock bp .writing) c fun _ c' => Written (c.buf bp).dev [bp] c c' := by
  have hwritten := afterWrite_written (c.buf bp).dev bp c
  unfold rwBlock ReturnsC
  simp only [wp_bind, wp_get]
  rw [if_pos hdev, wp_bind, findDev]
  refine wp_ite (fun _ => trivial) fun _ => ?_
  simp only [transfer, setDisk, wp_pure, wp_bind, wp_nextAnswer, wp_get, wp_modify]
  cases hok : (c.io c.tick).ok with
  | true => simpa [afterWrite, hok] using hwritten
  | false => simpa [afterWrite, hok] using hwritten

/-! ## §6 `get_block` -/

/-- A change of one count changes the number of buffers in use accordingly. -/
theorem card_update (g : BufId → ℤ) (bp : BufId) (n : ℤ) :
    (univ.filter fun x => update g bp n x ≠ 0).card + (if g bp = 0 then 0 else 1) =
      (univ.filter fun x => g x ≠ 0).card + (if n = 0 then 0 else 1) := by
  have hsplit : ∀ h : BufId → ℤ, (univ.filter fun x => h x ≠ 0).card =
      (if h bp = 0 then 0 else 1) + ((univ.erase bp).filter fun x => h x ≠ 0).card := by
    intro h
    rw [← Finset.insert_erase (Finset.mem_univ bp), Finset.filter_insert]
    split
    next hb =>
      rw [Finset.card_insert_of_notMem (by simp), Finset.erase_insert (by simp), Nat.add_comm]
    next hb => rw [Finset.erase_insert (by simp), if_pos (not_not.mp hb), Nat.zero_add]
  have hsame : ((univ.erase bp).filter fun x => update g bp n x ≠ 0).card =
      ((univ.erase bp).filter fun x => g x ≠ 0).card := by
    congr 1
    apply Finset.filter_congr
    intro x hx
    rw [update_of_ne (Finset.ne_of_mem_erase hx)]
  rw [hsplit (update g bp n), hsplit g, hsame, update_self]
  omega

/-- A buffer is used by one more or by one less. -/
structure Counted (bp : BufId) (n : ℤ) (c c' : Cache) : Prop where
  buf : c'.buf = update c.buf bp { c.buf bp with count := n }
  lru : c'.lru.Perm c.lru
  hash : c'.hash = c.hash
  disk : c'.disk = c.disk
  drive : SameDrive c c'
  bufsInUse : c'.bufsInUse + (if (c.buf bp).count = 0 then 0 else 1) =
    c.bufsInUse + (if n = 0 then 0 else 1)

theorem Counted.same (h : Counted bp n c c') (x : BufId) :
    (c'.buf x).dev = (c.buf x).dev ∧ (c'.buf x).blocknr = (c.buf x).blocknr ∧
      (c'.buf x).data = (c.buf x).data ∧ (c'.buf x).dirt = (c.buf x).dirt := by
  rw [h.buf]
  rcases eq_or_ne x bp with rfl | hx
  · simp
  · simp [hx]

theorem Counted.count (h : Counted bp n c c') :
    (fun x => (c'.buf x).count) = update (fun x => (c.buf x).count) bp n := by
  funext x
  rw [h.buf]
  rcases eq_or_ne x bp with rfl | hx
  · simp
  · simp [hx]

theorem Counted.linked (h : Counted bp n c c') (hn : 0 ≤ n) (hc : Linked c) : Linked c' where
  lru := h.lru.trans hc.lru
  nodup := by rw [h.hash]; exact hc.nodup
  hash x bp' := by rw [h.hash, (h.same bp').2.1]; exact hc.hash x bp'
  nonneg x := by
    rw [congrFun h.count x]
    rcases eq_or_ne x bp with rfl | hne
    · rwa [update_self]
    · rw [update_of_ne hne]
      exact hc.nonneg x
  inUse := by
    have hcard := card_update (fun x => (c.buf x).count) bp n
    have hused := h.bufsInUse
    rw [← h.count] at hcard
    beta_reduce at hcard
    rw [← hc.inUse] at hcard
    omega
  unique x x' hvalid hholds := by
    obtain ⟨hdev, hnr⟩ := hholds
    rw [(h.same x).1] at hvalid hdev
    rw [(h.same x').1] at hdev
    rw [(h.same x).2.1, (h.same x').2.1] at hnr
    exact hc.unique x x' hvalid ⟨hdev, hnr⟩

theorem Counted.blocks (h : Counted bp n c c') (hn : 0 ≤ n) (hc : Linked c) : SameBlocks c c' := by
  intro dev b hdev
  apply hc.blockAt_congr (h.linked hn hc) hdev
  · intro x
    unfold Holds
    rw [(h.same x).1, (h.same x).2.1]
  · exact fun x _ => (h.same x).2.2.1
  · exact fun _ => by rw [h.disk]

theorem Counted.coherent {loose : Option BufId} (h : Counted bp n c c') (hn : 0 ≤ n)
    (hkept : loose = some bp → n ≠ 0) (hc : Coherent loose c) : Coherent loose c' where
  toLinked := h.linked hn hc.toLinked
  drives x := by
    rw [h.drive.1]
    exact hc.drives x
  held x hx := by
    rw [congrFun h.count x]
    rcases eq_or_ne x bp with rfl | hne
    · rw [update_self]
      exact hkept hx
    · rw [update_of_ne hne]
      exact hc.held x hx
  clean x hloose hvalid hclean := by
    rw [(h.same x).1] at hvalid ⊢
    rw [(h.same x).2.2.2] at hclean
    rw [(h.same x).2.1, (h.same x).2.2.1, h.disk]
    exact hc.clean x hloose hvalid hclean

theorem searchHash_some (h : searchHash c dev b = some bp) : dev ≠ noDev ∧ Holds c bp dev b := by
  unfold searchHash at h
  split at h
  next => exact absurd h (by simp)
  next hdev =>
    have hfound : (c.buf bp).blocknr = b ∧ (c.buf bp).dev = dev := by
      simpa using List.find?_some h
    exact ⟨hdev, hfound.2, hfound.1⟩

theorem Linked.searchHash_none (hc : Linked c) (h : searchHash c dev b = none) :
    dev ≠ noDev → ∀ bp, ¬Holds c bp dev b := by
  intro hdev bp hbp
  rw [searchHash, if_neg hdev] at h
  have hmem : bp ∈ c.hash (b % nrBufHash) := by rw [hc.hash, hbp.2]
  have hnot := List.find?_eq_none.mp h bp hmem
  exact hnot (decide_eq_true ⟨hbp.2, hbp.1⟩)

/-- What is in the buffers that are in use stays there. -/
def SameHeld (c c' : Cache) : Prop := ∀ x, (c.buf x).count ≠ 0 →
  (c'.buf x).dev = (c.buf x).dev ∧ (c'.buf x).blocknr = (c.buf x).blocknr ∧
    (c'.buf x).data = (c.buf x).data

/-- A buffer has been obtained. -/
structure Got (bp : BufId) (c c' : Cache) : Prop where
  held : SameHeld c c'
  count : ∀ x, (c'.buf x).count = (c.buf x).count + if x = bp then 1 else 0
  drive : SameDrive c c'

theorem Counted.got (h : Counted bp ((c.buf bp).count + 1) c c') : Got bp c c' where
  held x _ := ⟨(h.same x).1, (h.same x).2.1, (h.same x).2.2.1⟩
  count x := by
    rw [congrFun h.count x]
    rcases eq_or_ne x bp with rfl | hx
    · simp
    · simp [hx]
  drive := h.drive

theorem Cleaned.spec (h : Cleaned bp c c') (hc : Coherent none c) (hfree : (c.buf bp).count = 0) :
    Coherent none c' ∧ SameBlocks c c' ∧ Spare c' bp ∧
      (∀ x, (c'.buf x).count = (c.buf x).count ∧ (c'.buf x).dev = (c.buf x).dev ∧
        (c'.buf x).blocknr = (c.buf x).blocknr ∧ (c'.buf x).data = (c.buf x).data) ∧
      SameDrive c c' := by
  unfold Cleaned at h
  split at h
  next hdirty =>
    obtain ⟨hc', hblocks⟩ := hc.written (fun _ => dev_of_mem_dirtyBufs) h
    have hbuf := h.buf
    have hmem : bp ∈ dirtyBufs c (c.buf bp).dev :=
      List.mem_filter.mpr ⟨List.mem_finRange bp, decide_eq_true ⟨hdirty.2, rfl⟩⟩
    refine ⟨hc', hblocks, ⟨?_, fun _ => ?_⟩, fun x => ?_, h.drive⟩
    · rw [h.chains.count, hfree]
    · rw [hbuf bp, if_pos hmem]
    · exact ⟨h.chains.count x, h.same hc.drives x, h.chains.blocknr x, by rw [hbuf x]⟩
  next hclean =>
    subst h
    refine ⟨hc, .refl c', ⟨hfree, fun hvalid => ?_⟩, fun x => ⟨rfl, rfl, rfl, rfl⟩, rfl, rfl⟩
    simpa [hvalid] using hclean

/-- What `get_block` returns: a buffer for the block, which is a copy of it if it has been read or
    was in the cache already. -/
structure GotBlock (dev b : ℕ) (bp : BufId) (c c' : Cache) : Prop where
  got : Got bp c c'
  coherent : Coherent (some bp) c'
  holds : Holds c' bp dev b
  others : ∀ d b', d ≠ noDev → ¬(d = dev ∧ b' = b) → blockAt c' d b' = blockAt c d b'

theorem Coherent.loosen (hc : Coherent none c) (hbp : (c.buf bp).count ≠ 0) :
    Coherent (some bp) c where
  toLinked := hc.toLinked
  drives := hc.drives
  held x hx := by
    obtain rfl := Option.some.inj hx
    exact hbp
  clean x _ := hc.clean x (by simp)

/-- A buffer is taken, in which there is something else so far. -/
theorem grab_got (hc : Coherent none c) (hfree : (c.buf bp).count = 0) (h : Cleaned bp c c')
    (hnew : ∀ x, ¬Holds c x dev b) : GotBlock dev b bp c (grab bp dev b c') := by
  obtain ⟨hc', hblocks, hspare, hsame, hio⟩ := h.spec hc hfree
  have hnew' : dev ≠ noDev → ∀ x, ¬Holds c' x dev b := by
    intro _ x hx
    unfold Holds at hx
    rw [(hsame x).2.1, (hsame x).2.2.1] at hx
    exact hnew x hx
  have hne : ∀ x, (c.buf x).count ≠ 0 → x ≠ bp := by
    rintro x hx rfl
    exact hx hfree
  refine ⟨⟨fun x hx => ?_, fun x => ?_, hio⟩, grab_coherent hc' hspare hnew', ?_, ?_⟩
  · simp only [grab, update_of_ne (hne x hx)]
    exact (hsame x).2
  · rcases eq_or_ne x bp with rfl | hx
    · simp [grab, (hsame x).1]
    · simp [grab, hx, (hsame x).1]
  · simp [Holds, grab]
  · intro d b' hd hother
    rw [grab_blocks hc' hspare hnew' hd hother, hblocks d b' hd]

/-- The block is read into the buffer. -/
theorem GotBlock.read {c₁ : Cache} (h : GotBlock dev b bp c c₁) (hfree : (c.buf bp).count = 0)
    (hdev : dev ≠ noDev) (hdisk : c₁.disk dev b = blockAt c dev b) (hread : Read bp c₁ c') :
    GotBlock dev b bp c c' ∧ Coherent none c' ∧ SameBlocks c c' := by
  have hbuf := hread.read h.coherent.drives
  rw [h.holds.1, h.holds.2, hdisk] at hbuf
  have hsame : ∀ x, (c'.buf x).dev = (c₁.buf x).dev ∧ (c'.buf x).blocknr = (c₁.buf x).blocknr := by
    intro x
    rcases eq_or_ne x bp with rfl | hx
    · rw [hbuf]
      exact ⟨rfl, rfl⟩
    · rw [hread.others x hx]
      exact ⟨rfl, rfl⟩
  have hlinked := hread.chains.linked h.coherent.toLinked
  have hholds : ∀ x d b', Holds c' x d b' ↔ Holds c₁ x d b' := by
    intro x d b'
    unfold Holds
    rw [(hsame x).1, (hsame x).2]
  have hblocks : SameBlocks c c' := by
    intro d b' hd
    by_cases hself : d = dev ∧ b' = b
    · obtain ⟨rfl, rfl⟩ := hself
      rw [hlinked.blockAt_held ((hholds bp _ _).mpr h.holds) hd, hbuf]
    · rw [← h.others d b' hd hself]
      apply h.coherent.toLinked.blockAt_congr hlinked hd (fun x => hholds x d b')
      · intro x hx
        have hne : x ≠ bp := by
          rintro rfl
          exact hself ⟨hx.1.symm.trans h.holds.1, hx.2.symm.trans h.holds.2⟩
        rw [hread.others x hne]
      · exact fun _ => by rw [hread.disk]
  have hcoherent : Coherent none c' := by
    refine ⟨hlinked, fun n => ?_, by simp, fun x _ hvalid hclean => ?_⟩
    · rw [hread.io]
      exact h.coherent.drives n
    · rcases eq_or_ne x bp with rfl | hx
      · rw [(hsame x).1, (hsame x).2, hread.disk, h.holds.1, h.holds.2, hdisk, hbuf]
      · rw [hread.others x hx] at hvalid hclean ⊢
        rw [hread.disk]
        exact h.coherent.clean x (fun he => hx (Option.some.inj he).symm) hvalid hclean
  have hgot : Got bp c c' := by
    refine ⟨fun x hx => ?_, fun x => ?_, h.got.drive.trans ⟨hread.io, hread.err h.coherent.drives⟩⟩
    · have hne : x ≠ bp := by
        rintro rfl
        exact hx hfree
      rw [hread.others x hne]
      exact h.got.held x hx
    · rw [hread.chains.count]
      exact h.got.count x
  have hheld : (c'.buf bp).count ≠ 0 := by
    rw [hread.chains.count]
    exact h.coherent.held bp rfl
  exact ⟨⟨hgot, hcoherent.loosen hheld, (hholds bp _ _).mpr h.holds, fun d b' hd _ => hblocks d b' hd⟩,
    hcoherent, hblocks⟩

/-- A block that is in the cache is found there. -/
theorem getBlock_found (hc : Coherent none c) (hfound : searchHash c dev b = some bp) :
    ReturnsC (getBlock dev b search) c fun r c' =>
      r = bp ∧ GotBlock dev b bp c c' ∧ Coherent none c' ∧ SameBlocks c c' := by
  obtain ⟨hdev, hholds⟩ := searchHash_some hfound
  have hpos : 0 ≤ (c.buf bp).count + 1 := by
    have := hc.nonneg bp
    omega
  have hspec : ∀ c', Counted bp ((c.buf bp).count + 1) c c' →
      GotBlock dev b bp c c' ∧ Coherent none c' ∧ SameBlocks c c' := by
    intro c' h
    have hcoherent := h.coherent hpos (by simp) hc
    have hblocks := h.blocks hpos hc.toLinked
    have hheld : (c'.buf bp).count ≠ 0 := by
      rw [congrFun h.count bp, update_self]
      have := hc.nonneg bp
      omega
    have hholds' : Holds c' bp dev b := by
      unfold Holds
      rw [(h.same bp).1, (h.same bp).2.1]
      exact hholds
    exact ⟨⟨h.got, hcoherent.loosen hheld, hholds', fun d b' hd _ => hblocks d b' hd⟩, hcoherent,
      hblocks⟩
  unfold getBlock ReturnsC
  simp only [wp_bind, wp_get]
  rw [hfound]
  refine wp_ite (fun hfree => ?_) fun hused => ?_
  · simp only [useMore, wp_bind, wp_modify, wp_modBuf, wp_pure]
    refine ⟨trivial, hspec _ ⟨rfl, .refl _, rfl, rfl, ⟨rfl, rfl⟩, ?_⟩⟩
    simp [hfree]
  · simp only [wp_bind, wp_modBuf, wp_pure]
    refine ⟨trivial, hspec _ ⟨rfl, .refl _, rfl, rfl, ⟨rfl, rfl⟩, ?_⟩⟩
    have := hc.nonneg bp
    rw [if_neg hused, if_neg (by omega)]

/-- `get_block` takes a buffer that is not in use for a block that is not in the cache. -/
theorem getBlock_taken (hfound : searchHash c dev b = none)
    (h : ∀ bp, (c.buf bp).count = 0 → ReturnsC (takeBuf bp dev b search) c Q) :
    ReturnsC (getBlock dev b search) c Q := by
  unfold getBlock ReturnsC
  simp only [wp_bind, wp_get]
  rw [hfound]
  refine wp_ite (fun _ => trivial) fun _ => ?_
  split
  · trivial
  · next bp hbp =>
    apply h bp
    simpa using List.find?_some hbp

/-- `get_block(dev, b, NORMAL)` changes no block. -/
theorem getBlock_normal (hc : Coherent none c) (hdev : dev ≠ noDev) :
    ReturnsC (getBlock dev b .normal) c fun bp c' =>
      GotBlock dev b bp c c' ∧ Coherent none c' ∧ SameBlocks c c' := by
  cases hfound : searchHash c dev b with
  | some bp =>
    refine (getBlock_found hc hfound).mono ?_
    rintro r c' ⟨rfl, hspec⟩
    exact hspec
  | none =>
    have hnew := hc.toLinked.searchHash_none hfound hdev
    refine getBlock_taken hfound fun bp hfree => takeBuf_rule hc.toLinked fun c₁ hcleaned => ?_
    have hgrab := grab_got hc hfree hcleaned hnew
    have hdisk : (grab bp dev b c₁).disk dev b = blockAt c dev b := by
      obtain ⟨-, hblocks, -, hsame, -⟩ := hcleaned.spec hc hfree
      have habsent : blockAt c₁ dev b = c₁.disk dev b := by
        refine blockAt_absent fun x hx => hnew x ?_
        unfold Holds at hx ⊢
        rwa [(hsame x).2.1, (hsame x).2.2.1] at hx
      rw [← hblocks dev b hdev]
      exact habsent.symm
    simp only [reduceCtorEq, if_false, and_true]
    rw [if_pos hdev, ReturnsC, wp_bind]
    refine Wp.mono (rwBlock_reading ?_) fun _ c' hread => hgrab.read hfree hdev hdisk hread
    rw [hgrab.holds.1]
    exact hdev

/-- `get_block(dev, b, NO_READ)` may change the block that is asked for, unless it is in the
    cache. -/
theorem getBlock_noRead (hc : Coherent none c) (hdev : dev ≠ noDev) :
    ReturnsC (getBlock dev b .noRead) c fun bp c' =>
      GotBlock dev b bp c c' ∧ ((∃ x, Holds c x dev b) → Coherent none c' ∧ SameBlocks c c') := by
  cases hfound : searchHash c dev b with
  | some bp =>
    refine (getBlock_found hc hfound).mono ?_
    rintro r c' ⟨rfl, hspec⟩
    exact ⟨hspec.1, fun _ => hspec.2⟩
  | none =>
    have hnew := hc.toLinked.searchHash_none hfound hdev
    refine getBlock_taken hfound fun bp hfree => takeBuf_rule hc.toLinked fun c₁ hcleaned => ?_
    simp only [reduceCtorEq, if_false, and_false, wp_pure]
    exact ⟨grab_got hc hfree hcleaned hnew, fun h => h.elim fun x hx => absurd hx (hnew x)⟩

/-! ## §7 `put_block` -/

/-- Clean buffers have been dropped from the cache. -/
structure Dropped (c c' : Cache) : Prop where
  frame : c' = { c with buf := c'.buf }
  buf : ∀ x, c'.buf x = c.buf x ∨ c'.buf x = { c.buf x with dev := noDev } ∧
    ((c.buf x).dev ≠ noDev → (c.buf x).dirt = false)

theorem Dropped.chains (h : Dropped c c') : SameChains c c' := by
  refine ⟨by rw [h.frame], by rw [h.frame], by rw [h.frame], ?_, ?_, ?_⟩ <;> intro x <;>
    rcases h.buf x with hx | ⟨hx, -⟩ <;> rw [hx]
  · exact .inl rfl
  · exact .inr rfl

theorem Dropped.coherent (h : Dropped c c') (hc : Coherent none c) :
    Coherent none c' ∧ SameBlocks c c' := by
  have hlinked := h.chains.linked hc.toLinked
  have hdisk : c'.disk = c.disk := by rw [h.frame]
  refine ⟨⟨hlinked, fun n => ?_, by simp, fun x _ hvalid hclean => ?_⟩, fun d b hd => ?_⟩
  · rw [h.frame]
    exact hc.drives n
  · rcases h.buf x with hx | ⟨hx, -⟩
    · rw [hx] at hvalid hclean ⊢
      rw [hdisk]
      exact hc.clean x (by simp) hvalid hclean
    · rw [hx] at hvalid
      exact absurd rfl hvalid
  · by_cases hex : ∃ x, Holds c x d b
    · obtain ⟨x, hx⟩ := hex
      obtain ⟨rfl, rfl⟩ := hx
      rcases h.buf x with hsame | ⟨hdropped, hclean⟩
      · rw [hc.toLinked.blockAt_held ⟨rfl, rfl⟩ hd,
          hlinked.blockAt_held (show Holds c' x _ _ by rw [Holds, hsame]; exact ⟨rfl, rfl⟩) hd, hsame]
      · -- the buffer was a copy of the block
        have habsent : ∀ x', ¬Holds c' x' (c.buf x).dev (c.buf x).blocknr := by
          intro x' hx'
          rcases h.buf x' with hs | ⟨hs, -⟩
          · rw [Holds, hs] at hx'
            obtain rfl := hc.unique x x' hd hx'
            rw [hs] at hdropped
            exact hd (congrArg Buf.dev hdropped)
          · rw [Holds, hs] at hx'
            exact hd hx'.1.symm
        rw [hc.toLinked.blockAt_held ⟨rfl, rfl⟩ hd, blockAt_absent habsent, hdisk,
          hc.clean x (by simp) hd (hclean hd)]
    · have hnone : ∀ x, ¬Holds c x d b := fun x hx => hex ⟨x, hx⟩
      have hnone' : ∀ x, ¬Holds c' x d b := by
        intro x hx
        rcases h.buf x with hs | ⟨hs, -⟩
        · rw [Holds, hs] at hx
          exact hnone x hx
        · rw [Holds, hs] at hx
          exact hd hx.1.symm
      rw [blockAt_absent hnone, blockAt_absent hnone', hdisk]

/-- What `put_block` does to a buffer that is no longer in use. -/
def settle (bp : BufId) (blockType : BlockType) : CacheM PUnit := do
  let b := (← get).buf bp
  if blockType.writeImmed ∧ b.dirt ∧ b.dev ≠ noDev then rwBlock bp .writing
  if blockType = .zuperBlock then modBuf bp fun b => { b with dev := noDev }

theorem dropped_update (hclean : (c.buf bp).dev ≠ noDev → (c.buf bp).dirt = false) :
    Dropped c { c with buf := update c.buf bp { c.buf bp with dev := noDev } } where
  frame := rfl
  buf x := by
    rcases eq_or_ne x bp with rfl | hx
    · exact .inr ⟨update_self .., hclean⟩
    · exact .inl (update_of_ne hx ..)

/-- The counts are the same, and so is what is in the other buffers. -/
structure Settled (bp : BufId) (c c' : Cache) : Prop where
  coherent : Coherent none c'
  blocks : SameBlocks c c'
  drive : SameDrive c c'
  count : ∀ x, (c'.buf x).count = (c.buf x).count
  others : ∀ x, x ≠ bp → (c'.buf x).dev = (c.buf x).dev ∧
    (c'.buf x).blocknr = (c.buf x).blocknr ∧ (c'.buf x).data = (c.buf x).data

theorem drop_settled (hc : Coherent none c)
    (hclean : blockType = .zuperBlock → (c.buf bp).dev ≠ noDev → (c.buf bp).dirt = false) :
    ReturnsC (if blockType = .zuperBlock then modBuf bp fun b => { b with dev := noDev }
      else pure ⟨⟩) c fun _ c' => Settled bp c c' := by
  refine wp_ite (fun hzuper => ?_) fun _ => ?_
  · have hdropped := dropped_update (hclean hzuper)
    obtain ⟨hcoherent, hblocks⟩ := hdropped.coherent hc
    refine ⟨hcoherent, hblocks, ⟨rfl, rfl⟩, hdropped.chains.count, fun x hx => ?_⟩
    simp [hx]
  · exact ⟨hc, .refl c, ⟨rfl, rfl⟩, fun _ => rfl, fun _ _ => ⟨rfl, rfl, rfl⟩⟩

theorem settle_spec (hc : Coherent none c) :
    ReturnsC (settle bp blockType) c fun _ c' => Settled bp c c' := by
  unfold settle ReturnsC
  simp only [wp_bind, wp_get]
  refine wp_ite (fun hdirty => ?_) fun hnot => ?_
  · rw [wp_bind]
    refine (rwBlock_writing hdirty.2.2).mono fun _ c₁ hwritten => ?_
    obtain ⟨hc1, hblocks⟩ := hc.written (by simp) hwritten
    have hclean : (c₁.buf bp).dirt = false := by
      rw [hwritten.buf bp, if_pos (List.mem_singleton_self bp)]
    refine (drop_settled hc1 fun _ _ => hclean).mono fun _ c' h => ?_
    refine ⟨h.coherent, hblocks.trans h.blocks, hwritten.drive.trans h.drive, fun x => ?_, fun x hx => ?_⟩
    · rw [h.count, hwritten.chains.count]
    · obtain ⟨hdev, hnr, hdata⟩ := h.others x hx
      rw [hdev, hnr, hdata]
      exact ⟨hwritten.same hc.drives x, hwritten.chains.blocknr x, by rw [hwritten.buf x]⟩
  · refine drop_settled hc fun hzuper hvalid => ?_
    simpa [hzuper, BlockType.writeImmed, hvalid] using hnot

/-- A buffer has been given back. -/
structure Put (bp : BufId) (c c' : Cache) : Prop where
  held : ∀ x, (c.buf x).count ≠ (if x = bp then 1 else 0) →
    (c'.buf x).dev = (c.buf x).dev ∧ (c'.buf x).blocknr = (c.buf x).blocknr ∧
      (c'.buf x).data = (c.buf x).data
  count : ∀ x, (c'.buf x).count = (c.buf x).count - if x = bp then 1 else 0
  drive : SameDrive c c'

theorem Counted.put (h : Counted bp ((c.buf bp).count - 1) c c') : Put bp c c' where
  held x _ := ⟨(h.same x).1, (h.same x).2.1, (h.same x).2.2.1⟩
  count x := by
    rw [congrFun h.count x]
    rcases eq_or_ne x bp with rfl | hx
    · simp
    · simp [hx]
  drive := h.drive

/-- The buffer is not in use any more, and is linked in again at the front or at the rear. -/
def released (bp : BufId) (blockType : BlockType) (c : Cache) : Cache :=
  { c with
    buf := update c.buf bp { c.buf bp with count := (c.buf bp).count - 1 }
    bufsInUse := c.bufsInUse - 1
    lru := if blockType.oneShot then bp :: c.lru.erase bp else c.lru.erase bp ++ [bp] }

theorem released_counted (hc : Linked c) (hheld : (c.buf bp).count ≠ 0)
    (hlast : (c.buf bp).count - 1 = 0) :
    Counted bp ((c.buf bp).count - 1) c (released bp blockType c) := by
  refine ⟨rfl, ?_, rfl, rfl, ⟨rfl, rfl⟩, ?_⟩
  · have hmem : bp ∈ c.lru := hc.lru.mem_iff.mpr (List.mem_finRange bp)
    have hfront := (List.perm_cons_erase hmem).symm
    unfold released
    dsimp only
    split
    · exact hfront
    · exact (List.perm_append_singleton bp _).trans hfront
  · have hused : 1 ≤ c.bufsInUse := by
      rw [hc.inUse]
      exact Finset.card_pos.mpr ⟨bp, Finset.mem_filter.mpr ⟨Finset.mem_univ bp, hheld⟩⟩
    rw [if_neg hheld, if_pos hlast]
    exact Nat.sub_add_cancel hused

/-- `put_block` changes no block. -/
theorem putBuf_spec (hc : Coherent none c) (hheld : (c.buf bp).count ≠ 0) :
    ReturnsC (putBuf bp blockType) c fun _ c' =>
      Coherent none c' ∧ SameBlocks c c' ∧ Put bp c c' := by
  have hpos : 0 ≤ (c.buf bp).count - 1 := by
    have := hc.nonneg bp
    omega
  unfold putBuf ReturnsC
  simp only [wp_bind, wp_modBuf, wp_get, update_self]
  refine wp_ite (fun hlast => ?_) fun hmore => ?_
  · have hcounted := @released_counted c bp blockType hc.toLinked hheld hlast
    have hblocks := hcounted.blocks hpos hc.toLinked
    have hput := hcounted.put
    have hsettle := @settle_spec _ bp blockType (hcounted.coherent hpos (by simp) hc)
    unfold settle ReturnsC at hsettle
    simp only [wp_bind, wp_get] at hsettle
    simp only [useFewer, wp_bind, wp_modify, wp_get]
    refine Wp.mono hsettle fun _ c' h => ?_
    refine ⟨h.coherent, hblocks.trans h.blocks, fun x hx => ?_, fun x => ?_,
      hput.drive.trans h.drive⟩
    · have hne : x ≠ bp := by
        rintro rfl
        rw [if_pos rfl] at hx
        omega
      obtain ⟨hdev, hnr, hdata⟩ := h.others x hne
      rw [hdev, hnr, hdata]
      exact hput.held x hx
    · rw [h.count]
      exact hput.count x
  · have hcounted : Counted bp ((c.buf bp).count - 1) c
        { c with buf := update c.buf bp { c.buf bp with count := (c.buf bp).count - 1 } } := by
      refine ⟨rfl, .refl _, rfl, rfl, ⟨rfl, rfl⟩, ?_⟩
      rw [if_neg hheld, if_neg hmore]
    exact ⟨hcounted.coherent hpos (by simp) hc, hcounted.blocks hpos hc.toLinked, hcounted.put⟩

/-! ## §8 Use of a Buffer -/

/-- The data of a buffer have been changed. -/
structure Touched (bp : BufId) (c c' : Cache) : Prop where
  frame : c' = { c with buf := c'.buf }
  others : ∀ x, x ≠ bp → c'.buf x = c.buf x
  same : (c'.buf bp).dev = (c.buf bp).dev ∧ (c'.buf bp).blocknr = (c.buf bp).blocknr ∧
    (c'.buf bp).count = (c.buf bp).count

theorem touched_update (y : Buf) (hdev : y.dev = (c.buf bp).dev)
    (hnr : y.blocknr = (c.buf bp).blocknr) (hcount : y.count = (c.buf bp).count) :
    Touched bp c { c with buf := update c.buf bp y } where
  frame := rfl
  others x hx := update_of_ne hx ..
  same := by
    dsimp only
    rw [update_self]
    exact ⟨hdev, hnr, hcount⟩

theorem Touched.keeps (h : Touched bp c c') (x : BufId) :
    (c'.buf x).dev = (c.buf x).dev ∧ (c'.buf x).blocknr = (c.buf x).blocknr ∧
      (c'.buf x).count = (c.buf x).count := by
  rcases eq_or_ne x bp with rfl | hx
  · exact h.same
  · rw [h.others x hx]
    exact ⟨rfl, rfl, rfl⟩

theorem Touched.holds (h : Touched bp c c') : Holds c' x dev b ↔ Holds c x dev b := by
  unfold Holds
  rw [(h.keeps x).1, (h.keeps x).2.1]

theorem Touched.linked (h : Touched bp c c') (hc : Linked c) : Linked c' := by
  refine SameChains.linked ⟨?_, ?_, ?_, fun x => (h.keeps x).2.2, fun x => (h.keeps x).2.1,
    fun x => .inl (h.keeps x).1⟩ hc
  all_goals rw [h.frame]

theorem Touched.loose (h : Touched bp c c') (hc : Coherent (some bp) c) :
    Coherent (some bp) c' where
  toLinked := h.linked hc.toLinked
  drives n := by
    rw [h.frame]
    exact hc.drives n
  held x hx := by
    rw [(h.keeps x).2.2]
    exact hc.held x hx
  clean x hloose := by
    have hx : x ≠ bp := fun he => hloose (he ▸ rfl)
    have hdisk : c'.disk = c.disk := by rw [h.frame]
    rw [h.others x hx, hdisk]
    exact hc.clean x hloose

/-- A buffer that has been marked dirty is no longer loose. -/
theorem Touched.dirty (h : Touched bp c c') (hc : Coherent (some bp) c)
    (hdirt : (c'.buf bp).dirt = true) : Coherent none c' where
  toLinked := h.linked hc.toLinked
  drives := (h.loose hc).drives
  held := by simp
  clean x _ hvalid hclean := by
    have hx : x ≠ bp := by
      rintro rfl
      rw [hdirt] at hclean
      exact absurd hclean (by decide)
    exact (h.loose hc).clean x (fun he => hx (Option.some.inj he).symm) hvalid hclean

/-- The block of the buffer holds the new data, the others hold what they have held. -/
theorem Touched.blockAt (h : Touched bp c c') (hc : Linked c) (hdev : dev ≠ noDev) :
    blockAt c' dev b = if Holds c bp dev b then (c'.buf bp).data else blockAt c dev b := by
  split
  next hholds => exact (h.linked hc).blockAt_held (h.holds.mpr hholds) hdev
  next hnot =>
    apply hc.blockAt_congr (h.linked hc) hdev fun x => h.holds
    · intro x hx
      have hne : x ≠ bp := by
        rintro rfl
        exact hnot hx
      rw [h.others x hne]
    · intro _
      rw [h.frame]

theorem dirtyBuf_spec {E : Panic → Cache → Prop} {f : Block → Block} (hc : Coherent (some bp) c) :
    Wp E (dirtyBuf bp f) c fun _ c' =>
      Touched bp c c' ∧ Coherent none c' ∧ (c'.buf bp).data = f (c.buf bp).data := by
  have htouched := @touched_update c bp
    { c.buf bp with data := f (c.buf bp).data, dirt := true } rfl rfl rfl
  simp only [dirtyBuf, wp_modBuf]
  refine ⟨htouched, htouched.dirty hc ?_, ?_⟩
  · simp
  · simp

/-- Since `c` a program has obtained the buffer `o`, if any, and given back all others. -/
structure Lent (o : Option BufId) (c c' : Cache) : Prop where
  count : ∀ x, (c'.buf x).count = (c.buf x).count + if o = some x then 1 else 0
  held : ∀ x, 0 < (c.buf x).count →
    (c'.buf x).dev = (c.buf x).dev ∧ (c'.buf x).blocknr = (c.buf x).blocknr
  drive : SameDrive c c'

theorem Lent.refl (c : Cache) : Lent none c c where
  count _ := by simp
  held _ _ := ⟨rfl, rfl⟩
  drive := ⟨rfl, rfl⟩

theorem Lent.count_le (h : Lent o c c') (x : BufId) : (c.buf x).count ≤ (c'.buf x).count := by
  rw [h.count x]
  split <;> omega

theorem Lent.trans (h : Lent o c c') (h' : Lent none c' c'') : Lent o c c'' where
  count x := by
    rw [h'.count x, h.count x]
    simp
  held x hx := by
    have hx' := h'.held x (lt_of_lt_of_le hx (h.count_le x))
    rw [hx'.1, hx'.2]
    exact h.held x hx
  drive := h.drive.trans h'.drive

/-- A block is obtained after nothing has been. -/
theorem Lent.before (h : Lent none c c') (h' : Lent o c' c'') : Lent o c c'' where
  count y := by
    rw [h'.count y, h.count y, if_neg (by simp), add_zero]
  held y hy := by
    have hy' := h'.held y (lt_of_lt_of_le hy (h.count_le y))
    rw [hy'.1, hy'.2]
    exact h.held y hy
  drive := h.drive.trans h'.drive

theorem Lent.holds (h : Lent o c c') (hx : 0 < (c.buf x).count) (hholds : Holds c x dev b) :
    Holds c' x dev b := by
  unfold Holds
  rw [(h.held x hx).1, (h.held x hx).2]
  exact hholds

theorem Lent.got (h : Lent none c c') (hgot : Got bp c' c'') : Lent (some bp) c c'' where
  count x := by
    rw [hgot.count x, h.count x]
    simp [eq_comm]
  held x hx := by
    have hx' := hgot.held x (ne_of_gt (lt_of_lt_of_le hx (h.count_le x)))
    rw [hx'.1, hx'.2.1]
    exact h.held x hx
  drive := h.drive.trans hgot.drive

theorem Lent.put (h : Lent (some bp) c c') (hput : Put bp c' c'') : Lent none c c'' where
  count x := by
    rw [hput.count x, h.count x]
    simp [eq_comm]
  held x hx := by
    have hne : (c'.buf x).count ≠ if x = bp then 1 else 0 := by
      have hcount := h.count x
      rcases eq_or_ne x bp with rfl | hne
      · rw [if_pos rfl] at hcount ⊢
        omega
      · rw [if_neg fun he => hne (Option.some.inj he).symm] at hcount
        rw [if_neg hne]
        omega
    have hx' := hput.held x hne
    rw [hx'.1, hx'.2.1]
    exact h.held x hx
  drive := h.drive.trans hput.drive

theorem Lent.touched (h : Lent o c c') (ht : Touched bp c' c'') : Lent o c c'' where
  count x := by
    rw [(ht.keeps x).2.2]
    exact h.count x
  held x hx := by
    rw [(ht.keeps x).1, (ht.keeps x).2.1]
    exact h.held x hx
  drive := h.drive.trans (by rw [ht.frame]; exact ⟨rfl, rfl⟩)

theorem Lent.pos (h : Lent (some bp) c c') (hc : Linked c) : (c'.buf bp).count ≠ 0 := by
  have hcount := h.count bp
  have hnonneg := hc.nonneg bp
  rw [if_pos rfl] at hcount
  omega

end LisaMinix.Fs.Server
