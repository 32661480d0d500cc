import Mathlib.Tactic
import LisaMinix.Mm.Calls

/-!
# The Image of a Process

On the Lisa the three segments of a process are one block of memory: the text, the data
right above it, a gap, and the stack at the top.  `Shape` says so of a memory map, and
`image` is the block.

The operations that make or change a map keep its shape: `childSeg` and `sysFork` (fork),
`ImageSizes.seg` (exec) and `adjust` (brk and signals), which never changes the block.
-/

namespace LisaMinix.Mm

open Function

variable {seg : MemMaps} {s : MmState} {p : ProcNr}

/-! ## §1 Shape -/

/-- Text, data, gap and stack lie in order in one block, at addresses that fit in 16 bits,
and the gap is the same in virtual and in physical memory. -/
structure Shape (seg : MemMaps) : Prop where
  dataVir : seg.data.memVir = seg.text.memVir + seg.text.memLen
  dataPhys : seg.data.memPhys = seg.text.memPhys + seg.text.memLen
  order : seg.data.memVir + seg.data.memLen ≤ seg.stack.memVir
  stackPhys : seg.stack.memPhys + seg.data.memVir = seg.data.memPhys + seg.stack.memVir
  virTop : seg.stack.memVir + seg.stack.memLen < 65536
  physTop : seg.stack.memPhys + seg.stack.memLen < 65536
  nonempty : seg.data.memPhys < seg.stack.memPhys + seg.stack.memLen

/-- The memory from the start of the text to the end of the stack. -/
def image (seg : MemMaps) : Block :=
  ⟨seg.text.memPhys, seg.stack.memPhys + seg.stack.memLen - seg.text.memPhys⟩

theorem subClicks_of_le {a b : ℕ} (ha : a < 65536) (hba : b ≤ a) : subClicks a b = a - b := by
  rw [subClicks]
  omega

theorem toClicks_of_lt {n : ℕ} (hn : n < 65536) : toClicks n = n := Nat.mod_eq_of_lt hn

/-- What `do_fork` computes from the virtual addresses is the size of the image. -/
theorem progClicks_eq (h : Shape seg) : progClicks seg = (image seg).clicks := by
  obtain ⟨hdv, hdp, hord, hsp, hvt, hpt, -⟩ := h
  rw [progClicks, subClicks_of_le (by omega) (by omega), toClicks_of_lt (by omega)]
  simp only [image]
  omega

/-- `rmshadow` reports the image, unless another process has the same data segment. -/
theorem rmshadow_eq (h : Shape (s.pMap p))
    (hother : ∀ q, initProcNr ≤ q → s.slotFree q = false → q ≠ p →
      (s.pMap q).data.memPhys ≠ (s.pMap p).data.memPhys) :
    rmshadow s p = .ok ((image (s.pMap p)).base, (image (s.pMap p)).clicks) := by
  have hno : ¬ ∃ q : ProcNr, initProcNr ≤ q ∧ s.slotFree q = false ∧ q ≠ p ∧
      (s.pMap q).data.memPhys = (s.pMap p).data.memPhys := by
    rintro ⟨q, hq, hfree, hne, heq⟩
    exact hother q hq hfree hne heq
  obtain ⟨hdv, hdp, hord, hsp, hvt, hpt, hne⟩ := h
  have hsub : subClicks (s.pMap p).stack.memPhys (s.pMap p).data.memPhys =
      (s.pMap p).stack.memPhys - (s.pMap p).data.memPhys := subClicks_of_le (by omega) (by omega)
  rw [rmshadow, if_neg hno]
  simp only [image, hsub, toClicks]
  congr 2
  omega

/-! ## §2 Fork -/

/-- The map of the child has the parent's shape, and its image is the block allocated. -/
theorem childSeg_shape (h : Shape seg) {base : ℕ} (hfit : base + (image seg).clicks < 65536) :
    Shape (childSeg seg base) ∧ image (childSeg seg base) = ⟨base, (image seg).clicks⟩ := by
  obtain ⟨hdv, hdp, hord, hsp, hvt, hpt, hne⟩ := h
  simp only [image] at hfit
  have hdata : toClicks (base + seg.text.memLen) = base + seg.text.memLen :=
    toClicks_of_lt (by omega)
  have hgap : subClicks seg.stack.memPhys seg.data.memPhys =
      seg.stack.memPhys - seg.data.memPhys := subClicks_of_le (by omega) (by omega)
  have hstack : toClicks (base + seg.text.memLen + (seg.stack.memPhys - seg.data.memPhys)) =
      base + seg.text.memLen + (seg.stack.memPhys - seg.data.memPhys) :=
    toClicks_of_lt (by omega)
  simp only [childSeg, hdata, hgap, hstack]
  refine ⟨⟨hdv, rfl, hord, ?_, hvt, ?_, ?_⟩, ?_⟩
  · simp only
    omega
  · simp only
    omega
  · simp only
    omega
  · simp only [image, Block.mk.injEq, true_and]
    omega

/-- The kernel gives the child the map that MM computed. -/
theorem sysFork_pMap {who child : ProcNr} {base : ℕ} (h : Shape (s.pMap who))
    (hfit : base + (image (s.pMap who)).clicks < 65536) :
    (sysFork s who child base).pMap child = childSeg (s.pMap who) base := by
  obtain ⟨hdv, hdp, hord, hsp, hvt, hpt, hne⟩ := h
  simp only [image] at hfit
  have htext : subClicks (s.pMap who).text.memPhys (s.pMap who).text.memPhys = 0 := by
    rw [subClicks_of_le (by omega) (by omega)]
    omega
  have hdata : subClicks (s.pMap who).data.memPhys (s.pMap who).text.memPhys =
      (s.pMap who).text.memLen := by
    rw [subClicks_of_le (by omega) (by omega)]
    omega
  simp only [sysFork, update_self, htext, hdata, childSeg]
  rw [subClicks_of_le (a := (s.pMap who).stack.memPhys) (by omega) (by omega),
    subClicks_of_le (a := (s.pMap who).stack.memPhys) (by omega) (by omega)]
  simp only [toClicks, MemMaps.mk.injEq, MemMap.mk.injEq, true_and, and_true]
  omega

/-! ## §3 Exec -/

/-- What `read_header` and `new_mem` check of the sizes of an image. -/
structure Feasible (z : ImageSizes) : Prop where
  data_lt : z.data < z.tot
  stack_le : z.stack ≤ 16
  gap_lt : z.gap < 32768
  tot_lt : z.tot < 65536

theorem clicksOf_lt (n : ℤ) : clicksOf n < 65536 := by
  rw [clicksOf]
  omega

theorem gap_eq {z : ImageSizes} (h : Feasible z) : z.data + z.gap + z.stack = z.tot := by
  obtain ⟨hd, hs, hg, ht⟩ := h
  simp only [ImageSizes.gap, subClicks] at hg ⊢
  omega

/-- A new image fills the block of `text + tot` clicks, as long as that sum fits in 16 bits. -/
theorem seg_shape {z : ImageSizes} (h : Feasible z) (base : ℕ) (hsum : z.text + z.tot < 65536)
    (hfit : base + (z.text + z.tot) < 65536) :
    Shape (z.seg base) ∧ image (z.seg base) = ⟨base, z.text + z.tot⟩ := by
  have hgap := gap_eq h
  have hd := h.data_lt
  simp only [ImageSizes.seg]
  rw [toClicks_of_lt (n := base + z.text) (by omega), toClicks_of_lt (n := z.text + z.data + z.gap)
    (by omega), toClicks_of_lt (n := base + z.text + z.data + z.gap) (by omega)]
  refine ⟨⟨?_, ?_, ?_, ?_, ?_, ?_, ?_⟩, ?_⟩
  all_goals simp only [image, Block.mk.injEq, true_and]
  all_goals omega

/-! ## §4 Break -/

/-- MM and the kernel get the same new map. -/
def MmState.setMap (s : MmState) (p : ProcNr) (seg : MemMaps) : MmState :=
  { s.modify p (fun m => { m with seg := seg }) with pMap := update s.pMap p seg }

theorem modify_eq_self {f : Mproc → Mproc} (hf : f (s.mproc p) = s.mproc p) : s.modify p f = s := by
  unfold MmState.modify MmState.set
  rw [hf, update_eq_self]

theorem setMap_self (hmap : s.pMap p = (s.mproc p).seg) : s.setMap p (s.mproc p).seg = s := by
  unfold MmState.setMap
  rw [modify_eq_self rfl, ← hmap, update_eq_self]

theorem adjustedSeg_shape (h : Shape seg) {dataClicks grow : ℕ} (hle : grow ≤ seg.stack.memVir)
    (hfit : seg.data.memVir + dataClicks ≤ seg.stack.memVir - grow) :
    Shape (adjustedSeg seg dataClicks grow) ∧
      image (adjustedSeg seg dataClicks grow) = image seg := by
  obtain ⟨hdv, hdp, hord, hsp, hvt, hpt, hne⟩ := h
  have hphys : subClicks seg.stack.memPhys grow = seg.stack.memPhys - grow :=
    subClicks_of_le (by omega) (by omega)
  have hlen : toClicks (seg.stack.memLen + grow) = seg.stack.memLen + grow :=
    toClicks_of_lt (by omega)
  simp only [adjustedSeg, hphys, hlen]
  refine ⟨⟨hdv, hdp, hfit, ?_, ?_, ?_, ?_⟩, ?_⟩
  all_goals simp only [image, Block.mk.injEq, true_and]
  all_goals omega

/-- **`adjust` moves clicks between the gap and the data or stack segment** and never
changes the image; the kernel is told whenever the map changes. -/
theorem adjust_spec {dataClicks : ℕ} (sp : ℤ) (h : Shape (s.mproc p).seg)
    (hmap : s.pMap p = (s.mproc p).seg) (hdata : (s.mproc p).seg.data.memVir + dataClicks < 65536) :
    ∃ seg', (adjust s p dataClicks sp).1 = s.setMap p seg' ∧
      Shape seg' ∧ image seg' = image (s.mproc p).seg := by
  have hsame : ∃ seg', s = s.setMap p seg' ∧ Shape seg' ∧ image seg' = image (s.mproc p).seg :=
    ⟨(s.mproc p).seg, (setMap_self hmap).symm, h, rfl⟩
  unfold adjust
  simp only
  split
  · exact hsame
  split
  · exact hsame
  split
  · exact hsame
  split
  · next hok =>
    -- the test of `size_ok` keeps data and stack apart
    have hnocross : (s.mproc p).seg.data.memVir + dataClicks ≤
        (s.mproc p).seg.stack.memVir - ((s.mproc p).seg.stack.memVir - clickOf sp) := by
      simp only [sizeOk, Bool.not_eq_true', decide_eq_false_iff_not, not_lt] at hok
      rwa [toClicks_of_lt hdata] at hok
    refine ⟨_, ?_, adjustedSeg_shape h (Nat.sub_le _ _) hnocross⟩
    split
    · rfl
    · -- nothing has changed, so the kernel need not be told
      next hch =>
      simp only [not_or, not_not, Nat.not_lt, Nat.le_zero] at hch
      have hseg : adjustedSeg (s.mproc p).seg dataClicks
          ((s.mproc p).seg.stack.memVir - clickOf sp) = (s.mproc p).seg := by
        have hpt := h.physTop
        rw [hch.2, hch.1]
        simp only [adjustedSeg, subClicks, toClicks]
        rw [show ((s.mproc p).seg.stack.memPhys + 65536 - 0) % 65536 =
          (s.mproc p).seg.stack.memPhys by omega,
          show ((s.mproc p).seg.stack.memLen + 0) % 65536 = (s.mproc p).seg.stack.memLen by omega]
        rfl
      rw [hseg, setMap_self hmap]
      dsimp only
      exact modify_eq_self rfl
  · exact hsame

end LisaMinix.Mm
