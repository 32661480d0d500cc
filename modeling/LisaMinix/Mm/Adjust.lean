import LisaMinix.Mm.Image

/-!
# Segment Adjustment

`adjust` moves clicks between the gap of a process and its data or stack segment, for `brk` and when
the stack grows.  It works on 16-bit clicks: with 256 bytes in a click these are the 24 address bits
of the 68000, and `clickOf` is the click that a 32-bit stack pointer addresses.

- `InOrder`: the three segments of a process, in order in one image.
- `Adjusted`: what a successful `adjust` makes of them.
- `adjust_cases`: `adjust` succeeds in that way, or fails and nothing has changed.
- `adjust_and_brk`: both calls, for every process; INIT is left alone.
-/

namespace LisaMinix.Mm

/-! ## §1 Maps -/

/-- Text, data and stack are in order, in virtual and in physical memory, and from the data to the
    stack it is as far in the one as in the other. -/
structure InOrder (seg : MemMaps) : Prop where
  textVir : seg.text.memVir + seg.text.memLen ≤ seg.data.memVir
  textPhys : seg.text.memPhys + seg.text.memLen ≤ seg.data.memPhys
  dataStack : seg.data.memVir + seg.data.memLen ≤ seg.stack.memVir
  offset : seg.stack.memPhys + seg.data.memVir = seg.data.memPhys + seg.stack.memVir
  virTop : seg.stack.memVir + seg.stack.memLen ≤ 65536
  physTop : seg.stack.memPhys + seg.stack.memLen ≤ 65536
  stackPhys : seg.stack.memPhys < 65536

/-- A segment is within the memory from the start of the text to the end of the stack. -/
def InImage (seg : MemMaps) (m : MemMap) : Prop :=
  seg.text.memPhys ≤ m.memPhys ∧
    m.memPhys + m.memLen ≤ seg.stack.memPhys + seg.stack.memLen

/-- The data segment has `dataClicks` clicks and the stack includes click `spClick`; both are in the
    old image, apart from each other, and the rest of the map is unchanged. -/
structure Adjusted (seg seg' : MemMaps) (dataClicks spClick : ℕ) : Prop where
  text : seg'.text = seg.text
  data : seg'.data = { seg.data with memLen := dataClicks }
  stackTop : seg'.stack.memVir + seg'.stack.memLen = seg.stack.memVir + seg.stack.memLen
  apart : seg'.data.memVir + seg'.data.memLen ≤ seg'.stack.memVir
  apartPhys : seg'.data.memPhys + seg'.data.memLen ≤ seg'.stack.memPhys
  sp : seg'.stack.memVir ≤ spClick ∧ spClick < seg'.stack.memVir + seg'.stack.memLen
  dataInside : InImage seg seg'.data
  stackInside : InImage seg seg'.stack
  offset : seg'.stack.memPhys + seg.stack.memVir = seg.stack.memPhys + seg'.stack.memVir

/-! ## §2 `adjust` -/

/-- The map that `adjust` installs, when data and stack do not meet. -/
theorem adjustedSeg_adjusted {seg : MemMaps} (h : InOrder seg) {dataClicks spClick : ℕ}
    (hsp : spClick < seg.stack.memVir + seg.stack.memLen)
    (hlen : seg.stack.memLen + (seg.stack.memVir - spClick) < 65536)
    (hfit : seg.data.memVir + dataClicks ≤
      seg.stack.memVir - (seg.stack.memVir - spClick)) :
    Adjusted seg (adjustedSeg seg dataClicks (seg.stack.memVir - spClick)) dataClicks spClick := by
  obtain ⟨htv, htp, hds, hoff, hvt, hpt, hsp'⟩ := h
  have hphys : subClicks seg.stack.memPhys (seg.stack.memVir - spClick) =
      seg.stack.memPhys - (seg.stack.memVir - spClick) := subClicks_of_le hsp' (by omega)
  have hlen' : toClicks (seg.stack.memLen + (seg.stack.memVir - spClick)) =
      seg.stack.memLen + (seg.stack.memVir - spClick) := toClicks_of_lt hlen
  simp only [adjustedSeg, hphys, hlen']
  constructor
  all_goals simp only [InImage]
  all_goals omega

/-- With the same sizes it is the same map. -/
theorem adjustedSeg_self {seg : MemMaps} (h : InOrder seg) (hlen : seg.stack.memLen < 65536) :
    adjustedSeg seg seg.data.memLen 0 = seg := by
  simp only [adjustedSeg]
  rw [subClicks_of_le h.stackPhys (Nat.zero_le _), Nat.add_zero, toClicks_of_lt hlen]
  rfl

/-- The tests of `adjust` leave room for the stack in its 16-bit length. -/
theorem length_of_tests {dvir dataClicks lower top : ℕ} (hdata : dvir + dataClicks < 65536)
    (htop : top ≤ 65536) (hmargin : toClicks (dvir + dataClicks + safetyClicks) ≤ lower)
    (hfit : dvir + dataClicks ≤ lower) : top - lower < 65536 := by
  simp only [toClicks, safetyClicks] at hmargin
  omega

/-- **`adjust` for a process that is not INIT** fails and changes nothing, or the new map is what it
    should be, and both MM and the kernel have it. -/
theorem adjust_cases {s : MmState} {p : ProcNr} {dataClicks : ℕ} (sp : ℤ) (hp : p ≠ initProcNr)
    (h : InOrder (s.mproc p).seg) (hmap : s.pMap p = (s.mproc p).seg)
    (hdata : (s.mproc p).seg.data.memVir + dataClicks < 65536) :
    adjust s p dataClicks sp = (s, enomem) ∨
      ∃ seg', adjust s p dataClicks sp = (s.setMap p seg', ok) ∧
        Adjusted (s.mproc p).seg seg' dataClicks (clickOf sp) := by
  unfold adjust
  dsimp only
  rw [if_neg hp]
  split
  · exact .inl rfl
  next htop =>
  split
  · exact .inl rfl
  next hmargin =>
  split
  · next hok =>
    right
    have hfit : (s.mproc p).seg.data.memVir + dataClicks ≤
        (s.mproc p).seg.stack.memVir - ((s.mproc p).seg.stack.memVir - clickOf sp) := by
      simp only [sizeOk, Bool.not_eq_true', decide_eq_false_iff_not, not_lt] at hok
      rwa [toClicks_of_lt hdata] at hok
    have hlen := length_of_tests hdata h.virTop (not_lt.mp hmargin) hfit
    have hadj := adjustedSeg_adjusted h (not_le.mp htop) (by omega) hfit
    refine ⟨_, ?_, hadj⟩
    split
    · rfl
    · -- nothing has changed, and the kernel has the map already
      next hsame =>
      simp only [not_or, not_not, Nat.not_lt, Nat.le_zero] at hsame
      have hseg : adjustedSeg (s.mproc p).seg dataClicks
          ((s.mproc p).seg.stack.memVir - clickOf sp) = (s.mproc p).seg := by
        rw [hsame.2, hsame.1]
        exact adjustedSeg_self h (by omega)
      rw [hseg, setMap_self hmap, modify_eq_self rfl]
  · exact .inl rfl

/-! ## §3 `do_brk` -/

/-- `res_ptr` after `do_brk()`: the address asked for, or -1. -/
def brkResPtr (s : MmState) (env : Env) (who : ProcNr) (addr : ℤ) : ℤ :=
  let newClicks := clicksOf addr
  let dataVir := (s.mproc who).seg.data.memVir
  if newClicks < dataVir then -1
  else if (adjust s who (newClicks - dataVir) (env.sp who)).2 = ok then addr
  else -1

/-- What `adjust` comes to for any process. -/
def AdjustOutcome (s : MmState) (p : ProcNr) (dataClicks : ℕ) (sp : ℤ) : Prop :=
  adjust s p dataClicks sp = (s, enomem) ∨
    ∃ seg', adjust s p dataClicks sp = (s.setMap p seg', ok) ∧
      Adjusted (s.mproc p).seg seg' dataClicks (clickOf sp)

/-- **Segment adjustment.**  For INIT `adjust` does nothing and says that all is well.  For another
    process it makes the map that it should, or nothing changes; and `do_brk` reports the new break
    exactly when `adjust` succeeds. -/
theorem adjust_and_brk (s : MmState) (p : ProcNr) (h : InOrder (s.mproc p).seg)
    (hmap : s.pMap p = (s.mproc p).seg) :
    (∀ dataClicks sp, (s.mproc p).seg.data.memVir + dataClicks < 65536 →
      (p = initProcNr → adjust s p dataClicks sp = (s, ok)) ∧
      (p ≠ initProcNr → AdjustOutcome s p dataClicks sp)) ∧
    ∀ env addr,
      (doBrk s env p addr = (s, enomem) ∧ brkResPtr s env p addr = -1) ∨
      ((s.mproc p).seg.data.memVir ≤ clicksOf addr ∧
        doBrk s env p addr =
          adjust s p (clicksOf addr - (s.mproc p).seg.data.memVir) (env.sp p) ∧
        (doBrk s env p addr).2 = ok ∧ brkResPtr s env p addr = addr) := by
  have hadjust : ∀ dataClicks sp, (s.mproc p).seg.data.memVir + dataClicks < 65536 →
      (p = initProcNr → adjust s p dataClicks sp = (s, ok)) ∧
      (p ≠ initProcNr → AdjustOutcome s p dataClicks sp) := by
    intro dataClicks sp hdata
    constructor
    · intro hp
      unfold adjust
      dsimp only
      rw [if_pos hp]
    · intro hp
      exact adjust_cases sp hp h hmap hdata
  refine ⟨hadjust, ?_⟩
  intro env addr
  by_cases hlow : clicksOf addr < (s.mproc p).seg.data.memVir
  · left
    simp only [doBrk, brkResPtr, if_pos hlow, and_self]
  have hlt := clicksOf_lt addr
  have hcall := hadjust (clicksOf addr - (s.mproc p).seg.data.memVir) (env.sp p) (by omega)
  have hbrk : doBrk s env p addr =
      adjust s p (clicksOf addr - (s.mproc p).seg.data.memVir) (env.sp p) := by
    simp only [doBrk, if_neg hlow]
  have hok : (adjust s p (clicksOf addr - (s.mproc p).seg.data.memVir) (env.sp p)).2 = ok →
      doBrk s env p addr =
          adjust s p (clicksOf addr - (s.mproc p).seg.data.memVir) (env.sp p) ∧
        (doBrk s env p addr).2 = ok ∧ brkResPtr s env p addr = addr := by
    intro hres
    refine ⟨hbrk, hbrk ▸ hres, ?_⟩
    simp only [brkResPtr, if_neg hlow, if_pos hres]
  by_cases hp : p = initProcNr
  · right
    exact ⟨not_lt.mp hlow, hok (by rw [hcall.1 hp])⟩
  · rcases hcall.2 hp with hfail | ⟨seg', hsucc, -⟩
    · left
      have hne : ¬enomem = ok := by decide
      refine ⟨hbrk.trans hfail, ?_⟩
      simp only [brkResPtr, if_neg hlow, hfail, if_neg hne]
    · right
      exact ⟨not_lt.mp hlow, hok (by rw [hsucc])⟩

/-- A hole table without holes. -/
def noHoles : HoleTable := ⟨fun _ => ⟨0, 0, none⟩, none, none⟩

/-- A process with ten clicks of text, data and stack, in an image of 70. -/
def smallSeg : MemMaps := ⟨⟨0, 1000, 10⟩, ⟨10, 1010, 10⟩, ⟨60, 1060, 10⟩⟩

def smallState : MmState := (bootState 100 50 50 noHoles).setMap ⟨3, by decide⟩ smallSeg

theorem smallSeg_inOrder : InOrder (smallState.mproc ⟨3, by decide⟩).seg := by
  constructor <;> decide

/-- `brk` for that process, with its stack pointer below the stack. -/
theorem adjust_and_brk_small :
    InOrder (smallState.mproc ⟨3, by decide⟩).seg ∧
      adjust smallState ⟨3, by decide⟩ 20 (50 * 256) ≠ (smallState, enomem) ∧
      AdjustOutcome smallState ⟨3, by decide⟩ 20 (50 * 256) :=
  ⟨smallSeg_inOrder, fun h => absurd (congrArg Prod.snd h) (by decide),
    ((adjust_and_brk smallState ⟨3, by decide⟩ smallSeg_inOrder (by rfl)).1 20 (50 * 256)
      (by decide)).2 (by decide)⟩

/-- INIT is told that all is well although its stack does not include the stack pointer, and a data
    segment that ends above the last of the 65536 clicks is accepted. -/
theorem adjust_init_and_wrap :
    (InOrder ((bootState 100 50 50 noHoles).mproc initProcNr).seg ∧
      ¬AdjustOutcome (bootState 100 50 50 noHoles) initProcNr 50 0) ∧
    (InOrder (smallState.mproc ⟨3, by decide⟩).seg ∧
      ¬AdjustOutcome smallState ⟨3, by decide⟩ 65530 (65 * 256)) := by
  refine ⟨⟨by constructor <;> decide, ?_⟩, smallSeg_inOrder, ?_⟩
  · rintro (h | ⟨seg', h, hadj⟩)
    · exact absurd (congrArg Prod.snd h) (by decide)
    · have hdata : 200 ≤ seg'.stack.memVir := by
        have hapart := hadj.apart
        rw [hadj.data] at hapart
        exact hapart
      have hsp : seg'.stack.memVir ≤ 0 := hadj.sp.1
      omega
  · rintro (h | ⟨seg', h, hadj⟩)
    · exact absurd (congrArg Prod.snd h) (by decide)
    · have hdata : 65540 ≤ seg'.stack.memVir := by
        have hapart := hadj.apart
        rw [hadj.data] at hapart
        exact hapart
      have hsp : seg'.stack.memVir ≤ 65 := hadj.sp.1
      omega

end LisaMinix.Mm
