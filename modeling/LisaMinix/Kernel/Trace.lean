import LisaMinix.Kernel.Umap
import LisaMinix.Kernel.System

/-!
# What `do_trace` Touches

The requests of `ptrace` that look at a process or change it, as `do_trace` of
`src/kernel/system.c` deals with them: the image by way of `umap`, the process table and the
saved registers by way of an offset that is tested as a `long` and used as an `int`.

- `traceAccess` models the switch of `do_trace`, except for the queues (`KState.doTrace`).
- `traceAccess_inBounds_iff`: for which addresses the access stays where it belongs.
-/

namespace LisaMinix.Kernel

open LisaMinix.Mm

/-! ## §1 The Switch -/

/-- `(int) n`. -/
def toInt (n : ℤ) : ℤ := (n + 32768) % 65536 - 32768

/-- `sizeof(struct proc)`, with the fields of a 68000. -/
def sizeofProc : ℤ := 158

/-- `sizeof(struct stackframe_s)`: seventeen registers, `psw` and `dummy`. -/
def sizeofStackframe : ℤ := 72

/-- `sizeof(long)` and `sizeof(reg_t)`. -/
def sizeofLong : ℤ := 4

/-- The offset of `p_reg.psw`. -/
def pswOffset : ℤ := 68

/-- `SETBITS`: only the condition codes change. -/
def setBits (psw new : BitVec 16) : BitVec 16 := (psw &&& ~~~0xFF#16) ||| (new &&& 0xFF#16)

/-- What a request does to the traced process. -/
inductive Access where
  /-- `EIO` -/
  | refused
  /-- four bytes of memory at a physical address are read -/
  | readImage (phys : ℤ)
  /-- four bytes of memory at a physical address are written -/
  | writeImage (phys : ℤ)
  /-- a long at an offset from `rp` is read -/
  | readEntry (offset : ℤ)
  /-- a register at an offset from `rp->p_reg` is written -/
  | writeFrame (offset : ℤ)
  /-- the processor status word is written -/
  | writePsw (psw : BitVec 16)
  /-- the process is stopped (-1) or goes on (7 and 9) -/
  | scheduled
  deriving DecidableEq

/-- What `do_trace` looks at: the entry of the traced process. -/
structure TraceEntry where
  slotFree : Bool
  map : MemMaps
  psw : BitVec 16

/-- The segment for an image request: "text space is actually data space". -/
def traceSeg (map : MemMaps) (request : ℤ) : ℤ :=
  if (request = 1 ∨ request = 4) ∧ map.text.memLen ≠ 0 then segT else 1

/-- `(ADDR & (sizeof(long) - 1)) != 0 || ADDR > size - sizeof(long)`. -/
def badOffset (addr size : ℤ) : Prop := addr % sizeofLong ≠ 0 ∨ size - sizeofLong < addr

instance (addr size : ℤ) : Decidable (badOffset addr size) := inferInstanceAs (Decidable (_ ∨ _))

/-- The switch of `do_trace` over `REQUEST`, with the arguments `ADDR` and `DATA`. -/
def traceAccess (e : TraceEntry) (request addr data : ℤ) : Access :=
  let phys := umap e.map (traceSeg e.map request) addr sizeofLong
  if e.slotFree then .refused
  else if request = -1 ∨ request = 7 ∨ request = 9 then .scheduled
  else if request = 1 ∨ request = 2 then
    if phys = 0 then .refused else .readImage phys
  else if request = 3 then
    if badOffset addr sizeofProc then .refused else .readEntry (toInt addr)
  else if request = 4 ∨ request = 5 then
    if phys = 0 then .refused else .writeImage phys
  else if request = 6 then
    if badOffset addr sizeofStackframe then .refused
    else if toInt addr = pswOffset then .writePsw (setBits e.psw (BitVec.ofInt 16 data))
    else .writeFrame (toInt addr)
  else .refused

/-! ## §2 Bounds -/

/-- The bits of `psw` that only the kernel sets. -/
def supervisorBits (psw : BitVec 16) : BitVec 16 := psw &&& 0xFF00#16

/-- The access is confined to the image, the entry or the saved registers of the process, and
    does not touch the supervisor's half of `psw`. -/
def InBounds (e : TraceEntry) : Access → Prop
  | .refused | .scheduled => True
  | .readImage phys | .writeImage phys => InImage e.map phys sizeofLong
  | .readEntry offset => 0 ≤ offset ∧ offset + sizeofLong ≤ sizeofProc
  | .writeFrame offset => 0 ≤ offset ∧ offset + sizeofLong ≤ pswOffset
  | .writePsw psw => supervisorBits psw = supervisorBits e.psw

/-- Where the offset `(int) ADDR` is the one that was tested. -/
def GoodOffset (addr size : ℤ) : Prop :=
  badOffset addr size ∨ (0 ≤ toInt addr ∧ toInt addr ≤ size - sizeofLong)

/-- The addresses for which a request stays in bounds: `umap` refuses them or they are those of
    the process, and an offset is neither negative nor too large as an `int`. -/
def GoodAddr (slotFree : Bool) (map : MemMaps) (request addr : ℤ) : Prop :=
  slotFree = true ∨
    ((request = 1 ∨ request = 2 ∨ request = 4 ∨ request = 5 →
        Refused map (traceSeg map request) addr sizeofLong ∨ InSpace map addr sizeofLong) ∧
      (request = 3 → GoodOffset addr sizeofProc) ∧
      (request = 6 → GoodOffset addr sizeofStackframe))

theorem supervisorBits_setBits (psw new : BitVec 16) :
    supervisorBits (setBits psw new) = supervisorBits psw := by
  have hkeep : ~~~0xFF#16 &&& 0xFF00#16 = 0xFF00#16 := rfl
  have hdrop : 0xFF#16 &&& 0xFF00#16 = 0#16 := rfl
  rw [supervisorBits, setBits, BitVec.and_or_distrib_right, BitVec.and_assoc, BitVec.and_assoc,
    hkeep, hdrop, BitVec.and_zero, BitVec.or_zero, supervisorBits]

theorem toInt_aligned {n : ℤ} (h : n % sizeofLong = 0) : toInt n % 4 = 0 := by
  unfold sizeofLong at h
  unfold toInt
  omega

variable {e : TraceEntry}

/-- The requests for the image. -/
theorem image_inBounds_iff (hshape : Shape e.map) {request addr : ℤ}
    (haddr : IsLong addr) {access : ℤ → Access}
    (haccess : ∀ phys, InBounds e (access phys) = InImage e.map phys sizeofLong) :
    InBounds e (if umap e.map (traceSeg e.map request) addr sizeofLong = 0 then .refused
        else access (umap e.map (traceSeg e.map request) addr sizeofLong)) ↔
      Refused e.map (traceSeg e.map request) addr sizeofLong ∨ InSpace e.map addr sizeofLong := by
  rw [← umap_inImage_iff hshape haddr]
  split
  · next hzero => simp [InBounds, hzero]
  · next hne => simp [haccess, hne]

theorem traceAccess_entry (hlive : e.slotFree = false) {addr data : ℤ} : traceAccess e 3 addr data =
      if badOffset addr sizeofProc then .refused else .readEntry (toInt addr) := by
  simp [traceAccess, hlive]

/-- Request 3: a long of the entry. -/
theorem entry_inBounds_iff {addr : ℤ} :
    InBounds e (if badOffset addr sizeofProc then .refused else .readEntry (toInt addr)) ↔
      GoodOffset addr sizeofProc := by
  unfold GoodOffset
  by_cases hbad : badOffset addr sizeofProc
  · simp [hbad, InBounds]
  · rw [if_neg hbad, InBounds, or_iff_right hbad]
    simp only [sizeofProc, sizeofLong]
    omega

/-- Request 6: a register, or the condition codes. -/
theorem frame_inBounds_iff {addr : ℤ} (new : BitVec 16) :
    InBounds e (if badOffset addr sizeofStackframe then .refused
        else if toInt addr = pswOffset then .writePsw (setBits e.psw new)
        else .writeFrame (toInt addr)) ↔ GoodOffset addr sizeofStackframe := by
  unfold GoodOffset
  by_cases hbad : badOffset addr sizeofStackframe
  · simp [hbad, InBounds]
  rw [if_neg hbad, or_iff_right hbad]
  by_cases hpsw : toInt addr = pswOffset
  · have hgood : 0 ≤ toInt addr ∧ toInt addr ≤ sizeofStackframe - sizeofLong := by
      rw [hpsw]
      decide
    rw [if_pos hpsw]
    exact iff_of_true (supervisorBits_setBits e.psw new) hgood
  · have haligned : toInt addr % 4 = 0 :=
      toInt_aligned (not_not.mp fun h => hbad (Or.inl h))
    -- a register that is not the status word ends before it
    rw [if_neg hpsw, InBounds]
    simp only [sizeofStackframe, sizeofLong, pswOffset] at hpsw ⊢
    omega

/-- **Which accesses stay in bounds.** -/
theorem traceAccess_inBounds_iff (hshape : e.slotFree = false → Shape e.map)
    {request addr data : ℤ} (haddr : IsLong addr) :
    InBounds e (traceAccess e request addr data) ↔ GoodAddr e.slotFree e.map request addr := by
  unfold traceAccess GoodAddr
  simp only
  cases hfree : e.slotFree with
  | true => simp [InBounds]
  | false =>
    have hshape := hshape hfree
    simp only [Bool.false_eq_true, if_false, false_or]
    by_cases hsched : request = -1 ∨ request = 7 ∨ request = 9
    · rw [if_pos hsched]
      refine iff_of_true trivial ⟨fun h => ?_, fun h => ?_, fun h => ?_⟩ <;> omega
    rw [if_neg hsched]
    by_cases hread : request = 1 ∨ request = 2
    · have himage : request = 1 ∨ request = 2 ∨ request = 4 ∨ request = 5 := by omega
      rw [if_pos hread, image_inBounds_iff hshape haddr fun _ => rfl]
      exact ⟨fun h => ⟨fun _ => h, by omega, by omega⟩, fun h => h.1 himage⟩
    rw [if_neg hread]
    by_cases hentry : request = 3
    · rw [if_pos hentry, entry_inBounds_iff]
      exact ⟨fun h => ⟨by omega, fun _ => h, by omega⟩, fun h => h.2.1 hentry⟩
    rw [if_neg hentry]
    by_cases hwrite : request = 4 ∨ request = 5
    · have himage : request = 1 ∨ request = 2 ∨ request = 4 ∨ request = 5 := by omega
      rw [if_pos hwrite, image_inBounds_iff hshape haddr fun _ => rfl]
      exact ⟨fun h => ⟨fun _ => h, by omega, by omega⟩, fun h => h.1 himage⟩
    rw [if_neg hwrite]
    by_cases hframe : request = 6
    · rw [if_pos hframe, frame_inBounds_iff]
      exact ⟨fun h => ⟨by omega, by omega, fun _ => h⟩, fun h => h.2.2 hframe⟩
    · rw [if_neg hframe]
      exact iff_of_true trivial ⟨by omega, by omega, by omega⟩

end LisaMinix.Kernel
