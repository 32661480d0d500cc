import LisaMinix.Mm.OwnedRuns

/-!
# Address Translation

Model of `umap`, `numap` and `do_copy` (`src/kernel/system.c`), as compiled for the Lisa: the
kernel's way from a virtual address of a process to the physical address.

`umap` looks at the click of the first byte and of the last byte only to choose and to check a
segment.  It has no lower bound, and it does not check where the range ends.  On the maps
that MM installs all three segments are moved by the same distance, so the physical range is
inside the image of the process just when the virtual range is (`umap_isolated_iff`).

## References

`docs/memory-map.md`, "Protection".
-/

namespace LisaMinix.Kernel

open LisaMinix.Mm

/-! ## §1 The functions -/

/-- A value stored in a `long`. -/
def wrap32 (n : ℤ) : ℤ := (n + 2147483648) % 4294967296 - 2147483648

/-- The values of a `long`. -/
def IsLong (n : ℤ) : Prop := -2147483648 ≤ n ∧ n < 2147483648

/-- The segment argument `T`; everything else means "D or S". -/
def segT : ℤ := 0

/-- The end of a segment in clicks, a 16-bit sum. -/
def segEnd (m : MemMap) : ℕ := toClicks (m.memVir + m.memLen)

/-- The segment that `umap` chooses, from the click `vc` of the last byte: "If 'seg' is D it
could really be S and vice versa.  T really means T." -/
def umapSeg (map : MemMaps) (seg : ℤ) (vc : ℕ) : MemMap :=
  if seg = segT then map.text
  else if vc < segEnd map.data then map.data else map.stack

/-- `umap(rp, seg, vir_addr, bytes)`, where `map` is `rp->p_map`; 0 is an error. -/
def umap (map : MemMaps) (seg virAddr bytes : ℤ) : ℤ :=
  if bytes ≤ 0 then 0
  else
    let m := umapSeg map seg (clickOf (wrap32 (virAddr + bytes - 1)))
    if (segEnd m : ℤ) ≤ virAddr / 256 then 0
    else wrap32 (m.memPhys * 256 + (virAddr - m.memVir * 256))

/-- `numap(proc_nr, vir_addr, bytes)`, for device drivers. -/
def numap (map : MemMaps) (virAddr bytes : ℤ) : ℤ := umap map 1 virAddr bytes

/-- What `do_copy` reads of a message: one end of the copy. -/
structure CopyEnd where
  map : MemMaps
  space : ℤ
  vir : ℤ

/-- `do_copy`: the physical addresses of a copy that is made, `none` for `EFAULT`. -/
def doCopy (src dst : CopyEnd) (bytes : ℤ) : Option (ℤ × ℤ) :=
  let srcPhys := umap src.map src.space src.vir bytes
  let dstPhys := umap dst.map dst.space dst.vir bytes
  if srcPhys = 0 ∨ dstPhys = 0 then none else some (srcPhys, dstPhys)

/-! ## §2 Where the range lies -/

/-- The physical range is inside the image, from the base of T to the end of S. -/
def InImage (map : MemMaps) (phys bytes : ℤ) : Prop :=
  (map.text.memPhys : ℤ) * 256 ≤ phys ∧
    phys + bytes ≤ ((map.stack.memPhys + map.stack.memLen : ℕ) : ℤ) * 256

/-- The virtual range is inside the address space, from the base of T to the end of S. -/
def InSpace (map : MemMaps) (virAddr bytes : ℤ) : Prop :=
  (map.text.memVir : ℤ) * 256 ≤ virAddr ∧
    virAddr + bytes ≤ ((map.stack.memVir + map.stack.memLen : ℕ) : ℤ) * 256

/-- `umap` refuses the range: there are no bytes, the first byte is at or above the end of the
segment that was chosen, or it is the byte at physical address 0. -/
def Refused (map : MemMaps) (seg virAddr bytes : ℤ) : Prop :=
  bytes ≤ 0 ∨
    (segEnd (umapSeg map seg (clickOf (wrap32 (virAddr + bytes - 1)))) : ℤ) ≤ virAddr / 256 ∨
    virAddr = ((map.text.memVir : ℤ) - map.text.memPhys) * 256

section Translation

variable {map : MemMaps} {seg virAddr bytes : ℤ}

/-- All three segments are moved by the same distance. -/
theorem umapSeg_shift (h : Shape map) (seg : ℤ) (vc : ℕ) :
    ((umapSeg map seg vc).memPhys : ℤ) - (umapSeg map seg vc).memVir =
      (map.text.memPhys : ℤ) - map.text.memVir := by
  obtain ⟨hdv, hdp, hord, hsp, -, -, -⟩ := h
  unfold umapSeg
  split
  · rfl
  split
  · omega
  · omega

/-- The virtual address moved by the distance of the image. -/
def moved (map : MemMaps) (virAddr : ℤ) : ℤ :=
  virAddr + ((map.text.memPhys : ℤ) - map.text.memVir) * 256

theorem umap_of_accepted (h : Shape map) (hpos : 0 < bytes)
    (hend : ¬ (segEnd (umapSeg map seg (clickOf (wrap32 (virAddr + bytes - 1)))) : ℤ)
      ≤ virAddr / 256) : umap map seg virAddr bytes = wrap32 (moved map virAddr) := by
  have hshift := umapSeg_shift h seg (clickOf (wrap32 (virAddr + bytes - 1)))
  unfold umap
  rw [if_neg (not_le.mpr hpos)]
  simp only
  rw [if_neg hend]
  unfold moved
  congr 1
  rw [← hshift]
  ring

theorem umap_of_refused (h : Shape map) (hr : Refused map seg virAddr bytes) :
    umap map seg virAddr bytes = 0 := by
  by_cases hpos : bytes ≤ 0
  · unfold umap
    rw [if_pos hpos]
  by_cases hend : (segEnd (umapSeg map seg (clickOf (wrap32 (virAddr + bytes - 1)))) : ℤ)
      ≤ virAddr / 256
  · unfold umap
    rw [if_neg hpos]
    simp only
    rw [if_pos hend]
  · have hzero := (hr.resolve_left hpos).resolve_left hend
    rw [umap_of_accepted h (not_le.mp hpos) hend, moved, hzero]
    unfold wrap32
    ring_nf
    decide

/-- The distance is less than `2 ^ 24` bytes, so an address that is not the one of physical
byte 0 does not become 0 by wrapping around. -/
theorem wrap32_moved_ne_zero (h : Shape map) (hv : IsLong virAddr)
    (hne : virAddr ≠ ((map.text.memVir : ℤ) - map.text.memPhys) * 256) :
    wrap32 (moved map virAddr) ≠ 0 := by
  have hvir := h.virTop
  have hphys := h.physTop
  obtain ⟨hdv, hdp, hord, hsp, -, -, -⟩ := h
  obtain ⟨hlo, hhi⟩ := hv
  unfold wrap32 moved
  omega

/-- A range whose virtual addresses are those of the process is translated into the image, and
no other range is. -/
theorem inImage_wrap32_iff (h : Shape map) (hv : IsLong virAddr) (hpos : 0 < bytes) :
    InImage map (wrap32 (moved map virAddr)) bytes ↔ InSpace map virAddr bytes := by
  have hvir := h.virTop
  have hphys := h.physTop
  obtain ⟨hdv, hdp, hord, hsp, -, -, -⟩ := h
  obtain ⟨hlo, hhi⟩ := hv
  unfold InImage InSpace wrap32 moved
  push_cast
  omega

/-- **When `umap` isolates**: the address it returns, if it returns one, is that of a range
inside the image of the process exactly when the call is refused, or when the virtual range
is inside the address space of the process. -/
theorem umap_inImage_iff (h : Shape map) (hv : IsLong virAddr) (seg bytes : ℤ) :
    (umap map seg virAddr bytes ≠ 0 → InImage map (umap map seg virAddr bytes) bytes) ↔
      Refused map seg virAddr bytes ∨ InSpace map virAddr bytes := by
  by_cases hr : Refused map seg virAddr bytes
  · rw [umap_of_refused h hr]
    simp [hr]
  · have hr' := hr
    unfold Refused at hr'
    simp only [not_or, not_le] at hr'
    obtain ⟨hpos, hend, hne⟩ := hr'
    rw [umap_of_accepted h hpos (not_le.mpr hend), inImage_wrap32_iff h hv hpos]
    have hnz := wrap32_moved_ne_zero h hv hne
    simp [hr, hnz]

end Translation

/-! ## §3 Transfers on behalf of a process -/

/-- Every byte of the range belongs to the process `p`, and neither to another process nor to
MINIX, which ends at the click `org`. -/
def Private (org : ℕ) (s : MmState) (p : ProcNr) (phys bytes : ℤ) : Prop :=
  ∀ a, phys ≤ a → a < phys + bytes → 0 ≤ a ∧ org ≤ (a / 256).toNat ∧
    Occupies (s.pMap p) (a / 256).toNat ∧
    ∀ q, alive s q = true → q ≠ p → ¬ Occupies (s.pMap q) (a / 256).toNat

section Transfers

variable {s : MmState} {p : ProcNr} {org : ℕ} {first : Block}

/-- A range inside the image belongs to the process alone. -/
theorem private_of_inImage (hown : OwnMemory org first s) (hp : alive s p = true)
    (hshape : Shape (s.pMap p)) {phys bytes : ℤ} (hin : InImage (s.pMap p) phys bytes) :
    Private org s p phys bytes := by
  intro a hlo hhi
  obtain ⟨hbase, htop⟩ := hin
  have hocc : Occupies (s.pMap p) (a / 256).toNat := by
    obtain ⟨-, hdp, -, -, -, -, -⟩ := hshape
    unfold Occupies
    push_cast at htop
    omega
  refine ⟨by omega, hown.minix p _ hp hocc, hocc, fun q hq hne => ?_⟩
  exact hown.apart p q _ hp hq (Ne.symm hne) hocc

/-- The first and the last byte of a range that belongs to the process are in its image. -/
theorem inImage_of_private (hshape : Shape (s.pMap p)) {phys bytes : ℤ} (hpos : 0 < bytes)
    (hpriv : Private org s p phys bytes) : InImage (s.pMap p) phys bytes := by
  obtain ⟨hnn, -, hfirst, -⟩ := hpriv phys (le_refl _) (by omega)
  obtain ⟨-, -, hlast, -⟩ := hpriv (phys + bytes - 1) (by omega) (by omega)
  have hfirst := occupies_image hshape hfirst
  have hlast := occupies_image hshape hlast
  have hne := hshape.nonempty
  have hdp := hshape.dataPhys
  simp only [image] at hfirst hlast
  unfold InImage
  push_cast
  omega

/-- The two ends of a copy that is made. -/
theorem doCopy_some {src dst : CopyEnd} {bytes a b : ℤ} (h : doCopy src dst bytes = some (a, b)) :
    (umap src.map src.space src.vir bytes = a ∧ a ≠ 0) ∧
      umap dst.map dst.space dst.vir bytes = b ∧ b ≠ 0 := by
  unfold doCopy at h
  simp only at h
  split at h
  · exact absurd h (by simp)
  · next hne =>
    simp only [Option.some.injEq, Prod.mk.injEq] at h
    obtain ⟨rfl, rfl⟩ := h
    simp only [not_or] at hne
    exact ⟨⟨rfl, hne.1⟩, rfl, hne.2⟩

theorem bytes_pos_of_umap_ne_zero {map : MemMaps} {seg virAddr bytes : ℤ}
    (h : umap map seg virAddr bytes ≠ 0) : 0 < bytes := by
  by_contra hle
  exact h (if_pos (not_lt.mp hle))

/-- A range that `umap` accepts is the process's own just when it is in its address space. -/
theorem private_umap_iff (hown : OwnMemory org first s) (hp : alive s p = true)
    (hshape : Shape (s.pMap p)) {seg virAddr bytes : ℤ} (hv : IsLong virAddr)
    (hne : umap (s.pMap p) seg virAddr bytes ≠ 0) :
    Private org s p (umap (s.pMap p) seg virAddr bytes) bytes ↔
      InSpace (s.pMap p) virAddr bytes := by
  have hiff := umap_inImage_iff hshape hv seg bytes
  have hacc : ¬ Refused (s.pMap p) seg virAddr bytes := fun hr => hne (umap_of_refused hshape hr)
  simp only [hne, ne_eq, not_false_eq_true, forall_const, hacc, false_or] at hiff
  rw [← hiff]
  exact ⟨inImage_of_private hshape (bytes_pos_of_umap_ne_zero hne),
    private_of_inImage hown hp hshape⟩

end Transfers

/-- **Address isolation.**  In every state that MM reaches, for every user process and every
range: the physical range that `umap` returns is inside the image of the process if and only
if the range is refused or inside the address space of the process; and an end of a copy
touches memory of that process alone if and only if it is inside its address space. -/
theorem umap_isolated_iff {size org text data tot : ℕ} {s : MmState}
    (h : BootLayout size org text data) (hr : Mm.Reached size org text data tot StepSafe s)
    (p : ProcNr) (hp : alive s p = true) :
    (∀ seg virAddr bytes, IsLong virAddr → IsLong bytes →
      ((umap (s.pMap p) seg virAddr bytes ≠ 0 →
          InImage (s.pMap p) (umap (s.pMap p) seg virAddr bytes) bytes) ↔
        Refused (s.pMap p) seg virAddr bytes ∨ InSpace (s.pMap p) virAddr bytes)) ∧
    ∀ src dst bytes a b, IsLong src.vir → IsLong dst.vir → doCopy src dst bytes = some (a, b) →
      (src.map = s.pMap p → (Private org s p a bytes ↔ InSpace src.map src.vir bytes)) ∧
      (dst.map = s.pMap p → (Private org s p b bytes ↔ InSpace dst.map dst.vir bytes)) := by
  obtain ⟨L, -, hminix, howned⟩ := hr.owned h
  have hown := howned.ownMemory hminix
  have hshape : Shape (s.pMap p) := by
    rw [howned.agree p hp]
    exact howned.shape p hp
  refine ⟨fun seg virAddr bytes hv _ => umap_inImage_iff hshape hv seg bytes, ?_⟩
  intro src dst bytes a b hsv hdv hcopy
  obtain ⟨⟨hsrc, hane⟩, hdst, hbne⟩ := doCopy_some hcopy
  constructor
  · intro hmap
    rw [hmap] at hsrc ⊢
    rw [← hsrc] at hane ⊢
    exact private_umap_iff hown hp hshape hsv hane
  · intro hmap
    rw [hmap] at hdst ⊢
    rw [← hdst] at hbne ⊢
    exact private_umap_iff hown hp hshape hdv hbne

/-- A small program: two clicks of text, and eight for data and stack. -/
def smallFile : ExecFile := ⟨true, 512, 256, 256, 2048, none⟩

/-- INIT has two children; the second executes a program, and INIT forks again into the
memory that this frees. -/
def neighbours : List (ProcNr × Request) :=
  [(2, .fork), (2, .fork), (4, .exec ⟨256, .ok smallFile, true⟩), (2, .fork)]

theorem neighbours_safe (s : MmState) (x : ProcNr × Request) (hx : x ∈ neighbours) :
    StepSafe s x.1 x.2 := by
  simp only [neighbours, List.mem_cons, List.not_mem_nil, or_false] at hx
  rcases hx with rfl | rfl | rfl | rfl
  · trivial
  · trivial
  · intro f hf _
    cases hf
    decide
  · trivial

/-- The process in slot 4 is above the one in slot 5, and below it in the address space there
is nothing. -/
theorem umap_isolated_neighbours : ∃ s, Mm.Reached 4096 100 20 30 200 StepSafe s ∧
    alive s 4 = true ∧ umap (s.pMap 4) 1 512 100 = 77312 ∧ InImage (s.pMap 4) 77312 100 := by
  obtain ⟨s, hr, hval⟩ := Mm.exists_reached 4096 100 20 30 200 StepSafe quietEnv neighbours
    (fun s => (alive s 4, s.pMap 4)) (true, ⟨⟨0, 300, 2⟩, ⟨2, 302, 2⟩, ⟨9, 309, 1⟩⟩)
    (by decide +kernel) neighbours_safe
  simp only [Prod.mk.injEq] at hval
  have hlayout : BootLayout 4096 100 20 30 := by constructor <;> decide
  have hiff := (umap_isolated_iff hlayout hr 4 hval.1).1 1 512 100 ⟨by decide, by decide⟩
    ⟨by decide, by decide⟩
  have hphys : umap (s.pMap 4) 1 512 100 = 77312 := by
    rw [hval.2]
    decide
  rw [hphys] at hiff
  refine ⟨s, hr, hval.1, hphys, hiff.mpr (.inr ?_) (by decide)⟩
  rw [hval.2]
  exact ⟨by decide, by decide⟩

/-- **A negative address reaches the neighbour**: 256 bytes at -256 in process 4 are in the
memory of process 5, and `umap` accepts them. -/
theorem umap_reaches_neighbour : ∃ s, Mm.Reached 4096 100 20 30 200 StepSafe s ∧
    alive s 4 = true ∧ alive s 5 = true ∧ umap (s.pMap 4) 1 (-256) 256 = 76544 ∧
    ¬ InImage (s.pMap 4) 76544 256 ∧ Occupies (s.pMap 5) (76544 / 256) := by
  obtain ⟨s, hr, hval⟩ := Mm.exists_reached 4096 100 20 30 200 StepSafe quietEnv neighbours
    (fun s => (alive s 4, s.pMap 4, alive s 5, decide (Occupies (s.pMap 5) (76544 / 256))))
    (true, ⟨⟨0, 300, 2⟩, ⟨2, 302, 2⟩, ⟨9, 309, 1⟩⟩, true, true)
    (by decide +kernel) neighbours_safe
  simp only [Prod.mk.injEq, decide_eq_true_eq] at hval
  obtain ⟨h4, hmap, h5, hocc⟩ := hval
  refine ⟨s, hr, h4, h5, ?_, ?_, hocc⟩
  · rw [hmap]
    decide
  · rw [hmap]
    unfold InImage
    decide

end LisaMinix.Kernel
