import LisaMinix.Kernel.Umap
import LisaMinix.Mm.Adjust

/-!
# Delivery of a Caught Signal

A signal that is caught is delivered in two steps: `sig_proc` (`src/mm/signal.c`) has `adjust` decide
in 16-bit clicks whether the stack has room for the frame, and `do_sig` (`src/kernel/system.c`) has
`umap` find the frame in 32-bit bytes.  Both start from the stack pointer of the process.

- `pushFrame`: where `do_sig` puts the frame, or its panic.
- `Delivered`: what `sig_proc` and `do_sig` come to for one caught signal.
- `signal_delivered_iff`: that is in order just when `adjust` refuses the stack, or the whole frame
  is in the address space of the process as a 32-bit range.
-/

namespace LisaMinix.Kernel

open Function

open LisaMinix.Mm

/-! ## §1 The frame -/

/-- The segment argument `S`. -/
def segS : ℤ := 2

/-- `new_sp`: the stack pointer less the size of the frame. -/
def framePtr (sp : ℤ) : ℤ := wrap32 (sp - sigPushBytes)

/-- `do_sig` for a signal that is caught: the physical address of the frame and the new stack
pointer.  `none` is the panic "do_sig can't signal; SP bad". -/
def pushFrame (map : MemMaps) (sp : ℤ) : Option (ℤ × ℤ) :=
  let dstPhys := umap map segS (framePtr sp) sigPushBytes
  if dstPhys = 0 then none else some (dstPhys, framePtr sp)

/-- `sig_proc` up to the call of `adjust`, for a signal that is caught. -/
def catchSig (s : MmState) (env : Env) (p : ProcNr) (sigNr : ℕ) : MmState × ℤ :=
  adjust (s.modify p fun m => { m with caught := update m.caught sigNr false }) p
    (s.mproc p).seg.data.memLen (env.sp p - sigPushBytes)

/-- The tests of `adjust` refuse a stack pointer: it is too high, or the stack would meet the data
segment or its safety margin.  INIT is not tested. -/
def StackRefused (p : ProcNr) (map : MemMaps) (sp : ℤ) : Prop :=
  let lower := min map.stack.memVir (clickOf sp)
  let dataEnd := map.data.memVir + map.data.memLen
  p ≠ initProcNr ∧
    (map.stack.memVir + map.stack.memLen ≤ clickOf sp ∨
      lower < toClicks (dataEnd + safetyClicks) ∨ lower < toClicks dataEnd)

/-- One caught signal: when `adjust` succeeds, `sig_proc` is done and `do_sig` finds the whole frame
in the image of the process; when it fails, the process is terminated. -/
structure Delivered (s : MmState) (env : Env) (p : ProcNr) (sigNr : ℕ) : Prop where
  pushed : (catchSig s env p sigNr).2 = Mm.ok →
    sigProc s env p sigNr = .ok (catchSig s env p sigNr).1 ∧
      ∃ dst, pushFrame ((catchSig s env p sigNr).1.pMap p) (env.sp p) =
          some (dst, framePtr (env.sp p)) ∧
        InImage ((catchSig s env p sigNr).1.pMap p) dst sigPushBytes
  killed : (catchSig s env p sigNr).2 ≠ Mm.ok →
    ∃ s', sigProc s env p sigNr = .ok s' ∧ alive s' p = false

/-! ## §2 The two tests -/

/-- Clicks do not see the bits of an address above the 24 that the processor has. -/
theorem clickOf_wrap32 (n : ℤ) : clickOf (wrap32 n) = clickOf n := by
  unfold clickOf wrap32
  omega

theorem isLong_wrap32 (n : ℤ) : IsLong (wrap32 n) := by
  unfold IsLong wrap32
  omega

/-- What MM decides. -/
theorem adjust_ok_iff (s : MmState) (p : ProcNr) (sp : ℤ) :
    (adjust s p (s.mproc p).seg.data.memLen sp).2 = Mm.ok ↔ ¬StackRefused p (s.mproc p).seg sp := by
  have hne : ¬enomem = Mm.ok := by decide
  unfold adjust StackRefused
  dsimp only
  split
  · next hinit => simp [hinit]
  next hinit =>
  split
  · next htop => simp [hinit, htop, hne]
  next htop =>
  have hlower : (s.mproc p).seg.stack.memVir - ((s.mproc p).seg.stack.memVir - clickOf sp) =
      min (s.mproc p).seg.stack.memVir (clickOf sp) := by omega
  rw [hlower]
  split
  · next hmargin =>
    simp only [hne, ne_eq, hinit, not_false_eq_true, true_and, false_iff, not_not]
    exact .inr (.inl hmargin)
  next hmargin =>
  split
  · next hfits =>
    simp only [sizeOk, Bool.not_eq_true', decide_eq_false_iff_not] at hfits
    simp [hinit, htop, hmargin, hfits]
  · next hfits =>
    simp only [sizeOk, Bool.not_eq_true', decide_eq_false_iff_not, not_not] at hfits
    simp [hinit, hfits, hne]

section Frame

variable {map : MemMaps} {virAddr bytes : ℤ}

/-- `umap` refuses nothing that is in the address space. -/
theorem not_refused_of_inSpace (h : Shape map) (hphys : 0 < map.text.memPhys) (hpos : 0 < bytes)
    (hin : InSpace map virAddr bytes) : ¬Refused map segS virAddr bytes := by
  have hvir := h.virTop
  have hdv := h.dataVir
  have hord := h.order
  obtain ⟨hlo, hhi⟩ := hin
  -- the click of the last byte is that of a 24-bit address
  have hclick : (clickOf (wrap32 (virAddr + bytes - 1)) : ℤ) = (virAddr + bytes - 1) / 256 := by
    rw [clickOf_wrap32]
    unfold clickOf
    omega
  have hend : virAddr / 256 < segEnd (umapSeg map segS (clickOf (wrap32 (virAddr + bytes - 1)))) := by
    have hdata : segEnd map.data = map.data.memVir + map.data.memLen := by
      unfold segEnd
      exact toClicks_of_lt (by omega)
    have hstack : segEnd map.stack = map.stack.memVir + map.stack.memLen := by
      unfold segEnd
      exact toClicks_of_lt hvir
    unfold umapSeg
    rw [if_neg (by decide)]
    split
    · next hlast =>
      omega
    · omega
  rintro (hnone | hhigh | hzero)
  · exact absurd hpos (not_lt.mpr hnone)
  · exact absurd hend (not_lt.mpr hhigh)
  · omega

/-- What the kernel decides: the frame is pushed inside of the image just when it is in the address
space of the process. -/
theorem pushFrame_iff (h : Shape map) (hphys : 0 < map.text.memPhys) (sp : ℤ) :
    (∃ dst, pushFrame map sp = some (dst, framePtr sp) ∧ InImage map dst sigPushBytes) ↔
      InSpace map (framePtr sp) sigPushBytes := by
  have hpos : (0 : ℤ) < sigPushBytes := by decide
  have hiff := umap_inImage_iff h (isLong_wrap32 (sp - sigPushBytes)) segS sigPushBytes
  constructor
  · rintro ⟨dst, hpush, himage⟩
    simp only [pushFrame] at hpush
    split at hpush
    · exact absurd hpush (by simp)
    next hne =>
    obtain ⟨rfl, -⟩ : umap map segS (framePtr sp) sigPushBytes = dst ∧ True := by simpa using hpush
    refine (hiff.mp fun _ => himage).resolve_left fun hr => ?_
    exact hne (umap_of_refused h hr)
  · intro hin
    have hacc := not_refused_of_inSpace h hphys hpos hin
    have hne : umap map segS (framePtr sp) sigPushBytes ≠ 0 := by
      unfold Refused at hacc
      simp only [not_or, not_le] at hacc
      rw [umap_of_accepted h hpos (not_le.mpr hacc.2.1)]
      exact wrap32_moved_ne_zero h (isLong_wrap32 _) hacc.2.2
    refine ⟨umap map segS (framePtr sp) sigPushBytes, ?_, hiff.mpr (.inr hin) hne⟩
    simp only [pushFrame, if_neg hne]

end Frame

/-! ## §3 Every caught signal -/

/-- The states that MM is in between requests, and those it passes through while it serves one: it
signals live processes, moves clicks of their images, and changes what does not concern memory. -/
inductive Underway (size org text data tot : ℕ) : MmState → Prop
  | between {s} : Mm.Reached size org text data tot StepSafe s → Underway size org text data tot s
  | signal {s s' env p sigNr} : Underway size org text data tot s → alive s p = true →
      sigProc s env p sigNr = .ok s' → Underway size org text data tot s'
  | adjust {s p} (sp : ℤ) : Underway size org text data tot s → alive s p = true →
      Underway size org text data tot (adjust s p (s.mproc p).seg.data.memLen sp).1
  | other {s s'} : Underway size org text data tot s → SameMem s s' →
      Underway size org text data tot s'

section Delivery

variable {L : Mm.Layout} {s : MmState} {env : Env} {p : ProcNr} {sigNr org : ℕ}

theorem Underway.owned {size text data tot : ℕ} (h : BootLayout size org text data)
    (hs : Underway size org text data tot s) : ∃ L, ⟨0, org⟩ ∈ L.system ∧ Owned L s := by
  induction hs with
  | between hr =>
    obtain ⟨L, -, hminix, hown⟩ := hr.owned h
    exact ⟨L, hminix, hown⟩
  | signal _ halive hrun ih =>
    obtain ⟨L, hminix, hown⟩ := ih
    obtain ⟨s', hrun', hown', -⟩ := sigProc_owned hown _ halive _
    rw [hrun] at hrun'
    cases hrun'
    exact ⟨L, hminix, hown'⟩
  | adjust sp _ halive ih =>
    obtain ⟨L, hminix, hown⟩ := ih
    exact ⟨L, hminix, (adjust_owned hown halive sp (dataTop_lt hown halive)).1⟩
  | other _ hsame ih =>
    obtain ⟨L, hminix, hown⟩ := ih
    exact ⟨L, hminix, hown.of_sameMem hsame⟩

/-- No image starts at address 0, where MINIX is. -/
theorem textPhys_pos (hown : Owned L s) (hminix : ⟨0, org⟩ ∈ L.system) (hp : alive s p = true) :
    0 < (s.mproc p).seg.text.memPhys := by
  obtain ⟨areas, htiled⟩ := hown.tiled
  have hpos := htiled.partition.pos _ (List.mem_append_left _ hminix)
  have himage := Owned.mem_blocks hp
  have hsep := (List.pairwise_append.mp htiled.partition.apart).2.2 _ hminix _ himage
  have hlen := (hown.le_block hp).2
  simp only [Library.Area.Apart, Library.Area.stop, Block.area, image] at hsep hpos hlen
  omega

theorem inOrder_of_shape {seg : MemMaps} (h : Shape seg) : InOrder seg where
  textVir := h.dataVir.ge
  textPhys := h.dataPhys.ge
  dataStack := h.order
  offset := h.stackPhys
  virTop := h.virTop.le
  physTop := h.physTop.le
  stackPhys := lt_of_le_of_lt (Nat.le_add_right _ _) h.physTop

/-- The address space does not change when clicks are moved between the gap and the stack. -/
theorem inSpace_adjusted {seg seg' : MemMaps} {dataClicks spClick : ℕ}
    (h : Mm.Adjusted seg seg' dataClicks spClick) (virAddr bytes : ℤ) :
    InSpace seg' virAddr bytes ↔ InSpace seg virAddr bytes := by
  unfold InSpace
  rw [h.text, h.stackTop]

/-- A process that gets the default action is gone. -/
theorem killProc_gone (hown : Owned L s) (hp : alive s p = true) :
    ∃ s', killProc s env p sigNr = .ok s' ∧ alive s' p = false := by
  unfold killProc
  simp only
  set s₁ := s.modify p fun m => { m with
    sigstatus := sigNr + if coreBits.testBit (sigNr - 1) && env.dumped p then 128 else 0 }
  have hsame : SameMem s s₁ := SameMem.modify _ _ fun _ => rfl
  have halive : alive s₁ p = true := by rw [hsame.alive, hp]
  obtain ⟨s', hrun, -, -, hgone⟩ := mmExit_spec (hown.of_sameMem hsame) halive 0
  exact ⟨s', hrun, hgone⟩

/-- What the kernel finds after `adjust` has succeeded: the map has changed at most inside of the
address space. -/
theorem pushed_iff (hown : Owned L s) (hminix : ⟨0, org⟩ ∈ L.system) (hp : alive s p = true)
    (hok : (catchSig s env p sigNr).2 = Mm.ok) :
    (∃ dst, pushFrame ((catchSig s env p sigNr).1.pMap p) (env.sp p) =
        some (dst, framePtr (env.sp p)) ∧
      InImage ((catchSig s env p sigNr).1.pMap p) dst sigPushBytes) ↔
    InSpace (s.mproc p).seg (framePtr (env.sp p)) sigPushBytes := by
  set s₁ := s.modify p fun m => { m with caught := update m.caught sigNr false } with hs1
  have hsame : SameMem s s₁ := SameMem.modify _ _ fun _ => rfl
  have hown1 : Owned L s₁ := hown.of_sameMem hsame
  have hp1 : alive s₁ p = true := by rw [hsame.alive, hp]
  have hseg : (s₁.mproc p).seg = (s.mproc p).seg := hsame.seg p
  have hcatch : catchSig s env p sigNr =
      Mm.adjust s₁ p (s₁.mproc p).seg.data.memLen (env.sp p - sigPushBytes) := by
    rw [hseg]
    rfl
  -- the process afterwards, in a state of which everything is known
  have hown' := (adjust_owned hown1 hp1 (env.sp p - sigPushBytes) (dataTop_lt hown1 hp1))
  rw [← hcatch] at hown'
  obtain ⟨hown', -, hp'⟩ := hown'
  have hagree := hown'.agree p hp'
  rw [pushFrame_iff (hagree ▸ hown'.shape p hp') (hagree ▸ textPhys_pos hown' hminix hp')]
  by_cases hinit : p = initProcNr
  · have hunchanged : catchSig s env p sigNr = (s₁, Mm.ok) := by
      rw [hcatch]
      unfold Mm.adjust
      dsimp only
      rw [if_pos hinit]
    rw [hunchanged]
    dsimp only
    rw [hown1.agree p hp1, hseg]
  · have hcases := adjust_cases (env.sp p - sigPushBytes) hinit
      (inOrder_of_shape (hown1.shape p hp1)) (hown1.agree p hp1) (dataTop_lt hown1 hp1)
    rcases hcases with hfail | ⟨seg', hsucc, hadj⟩
    · rw [hcatch, hfail] at hok
      exact absurd hok (show ¬enomem = Mm.ok by decide)
    · have hmap : (catchSig s env p sigNr).1.pMap p = seg' := by
        rw [hcatch, hsucc]
        exact update_self ..
      rw [hmap, inSpace_adjusted hadj, hseg]

end Delivery

/-- **Delivery of a caught signal.**  In every state that MM passes through, for every live process
and every 32-bit stack pointer: a caught signal is delivered in order if and only if `adjust` refuses
the stack, or the frame is in the address space of the process, from the start of the text to the
end of the stack. -/
theorem signal_delivered_iff {size org text data tot : ℕ} {s : MmState}
    (h : BootLayout size org text data) (hs : Underway size org text data tot s) (env : Env)
    (p : ProcNr) (hp : alive s p = true) (sigNr : ℕ)
    (hcaught : (s.mproc p).caught sigNr = true)
    (htraced : ((s.mproc p).traced && sigNr != sigkill) = false) :
    Delivered s env p sigNr ↔
      StackRefused p (s.mproc p).seg (framePtr (env.sp p)) ∨
        InSpace (s.mproc p).seg (framePtr (env.sp p)) sigPushBytes := by
  obtain ⟨L, hminix, hown⟩ := hs.owned h
  set s₁ := s.modify p fun m => { m with caught := update m.caught sigNr false } with hs1
  have hsame : SameMem s s₁ := SameMem.modify _ _ fun _ => rfl
  have hok : (catchSig s env p sigNr).2 = Mm.ok ↔
      ¬StackRefused p (s.mproc p).seg (framePtr (env.sp p)) := by
    have hiff := adjust_ok_iff s₁ p (env.sp p - sigPushBytes)
    rw [hsame.seg p] at hiff
    unfold framePtr StackRefused
    rw [clickOf_wrap32]
    exact hiff
  have huse : (s.mproc p).inUse = true := (alive_iff.mp hp).2.1
  -- `sig_proc` is `adjust` and what follows from its answer
  have hsig : sigProc s env p sigNr =
      if (catchSig s env p sigNr).2 = Mm.ok then .ok (catchSig s env p sigNr).1
      else killProc (catchSig s env p sigNr).1 env p sigNr := by
    unfold sigProc
    simp only [huse, Bool.not_true, Bool.false_eq_true, if_false, htraced, hcaught, if_true]
    rfl
  constructor
  · intro hdel
    by_cases hrefused : StackRefused p (s.mproc p).seg (framePtr (env.sp p))
    · exact .inl hrefused
    · right
      have hok' := hok.mpr hrefused
      exact (pushed_iff hown hminix hp hok').mp (hdel.pushed hok').2
  · intro hcond
    constructor
    · intro hok'
      refine ⟨by rw [hsig, if_pos hok'], ?_⟩
      exact (pushed_iff hown hminix hp hok').mpr (hcond.resolve_left (hok.mp hok'))
    · intro hfail
      rw [hsig, if_neg hfail]
      have hp1 : alive s₁ p = true := by rw [hsame.alive, hp]
      have hown1 : Owned L s₁ := hown.of_sameMem hsame
      have hadj := adjust_owned hown1 hp1 (env.sp p - sigPushBytes) (dataTop_lt hown1 hp1)
      rw [hsame.seg p] at hadj
      exact killProc_gone hadj.1 hadj.2.2

/-- A program of two clicks of text and 20 for data and stack. -/
def roomyFile : ExecFile := ⟨true, 512, 256, 256, 5120, none⟩

/-- INIT forks; the child executes the program and catches signal 15. -/
def catcher : List (ProcNr × Request) :=
  [(2, .fork), (3, .exec ⟨256, .ok roomyFile, true⟩), (3, .signal 15 .handler)]

theorem catcher_safe (s : MmState) (x : ProcNr × Request) (hx : x ∈ catcher) :
    StepSafe s x.1 x.2 := by
  simp only [catcher, List.mem_cons, List.not_mem_nil, or_false] at hx
  rcases hx with rfl | rfl | rfl
  · trivial
  · intro f hf _
    cases hf
    decide
  · trivial

/-- A kernel that reports the stack pointer `sp`. -/
def envAt (sp : ℤ) : Env := ⟨fun _ => sp, fun _ => false, true, 0⟩

/-- The child has a stack pointer in its stack, and the frame goes right below it. -/
theorem signal_delivered_inside : ∃ s, Mm.Reached 4096 100 20 30 200 StepSafe s ∧
    (catchSig s (envAt 5600) 3 15).2 = Mm.ok ∧ Delivered s (envAt 5600) 3 15 := by
  obtain ⟨s, hr, hval⟩ := Mm.exists_reached 4096 100 20 30 200 StepSafe quietEnv catcher
    (fun s => (alive s 3, (s.mproc 3).caught 15, (s.mproc 3).traced, (s.mproc 3).seg,
      (catchSig s (envAt 5600) 3 15).2))
    (true, true, false, ⟨⟨0, 250, 2⟩, ⟨2, 252, 2⟩, ⟨21, 271, 1⟩⟩, Mm.ok)
    (by decide +kernel) catcher_safe
  simp only [Prod.mk.injEq] at hval
  obtain ⟨halive, hcaught, htraced, hseg, hok⟩ := hval
  have hlayout : BootLayout 4096 100 20 30 := by constructor <;> decide
  refine ⟨s, hr, hok, (signal_delivered_iff hlayout (.between hr) (envAt 5600) 3 halive 15 hcaught
    (by rw [htraced]; rfl)).mpr (.inr ?_)⟩
  rw [hseg]
  exact ⟨by decide, by decide⟩

/-- **A signal stops the machine, or overwrites the neighbour**: with `2 ^ 24` added to the stack
pointer `adjust` sees the same click, but `do_sig` panics; and with a stack pointer seven bytes above
the stack the frame ends outside of the image. -/
theorem signal_panics : ∃ s, Mm.Reached 4096 100 20 30 200 StepSafe s ∧
    alive s 3 = true ∧ (s.mproc 3).caught 15 = true ∧
    ((catchSig s (envAt (2 ^ 24 + 5600)) 3 15).2 = Mm.ok ∧
      pushFrame ((catchSig s (envAt (2 ^ 24 + 5600)) 3 15).1.pMap 3) (2 ^ 24 + 5600) = none ∧
      ¬Delivered s (envAt (2 ^ 24 + 5600)) 3 15) ∧
    (catchSig s (envAt 5639) 3 15).2 = Mm.ok ∧
      pushFrame ((catchSig s (envAt 5639) 3 15).1.pMap 3) 5639 = some (69631, 5631) ∧
      ¬InImage ((catchSig s (envAt 5639) 3 15).1.pMap 3) 69631 sigPushBytes := by
  obtain ⟨s, hr, hval⟩ := Mm.exists_reached 4096 100 20 30 200 StepSafe quietEnv catcher
    (fun s => (alive s 3, (s.mproc 3).caught 15, (catchSig s (envAt (2 ^ 24 + 5600)) 3 15).2,
      (catchSig s (envAt (2 ^ 24 + 5600)) 3 15).1.pMap 3, (catchSig s (envAt 5639) 3 15).2,
      (catchSig s (envAt 5639) 3 15).1.pMap 3))
    (true, true, Mm.ok, ⟨⟨0, 250, 2⟩, ⟨2, 252, 2⟩, ⟨21, 271, 1⟩⟩, Mm.ok,
      ⟨⟨0, 250, 2⟩, ⟨2, 252, 2⟩, ⟨21, 271, 1⟩⟩)
    (by decide +kernel) catcher_safe
  simp only [Prod.mk.injEq] at hval
  obtain ⟨halive, hcaught, hok, hmap, hok', hmap'⟩ := hval
  have hnone : pushFrame ((catchSig s (envAt (2 ^ 24 + 5600)) 3 15).1.pMap 3) (2 ^ 24 + 5600) =
      none := by
    rw [hmap]
    decide
  refine ⟨s, hr, halive, hcaught, ⟨hok, hnone, ?_⟩, hok', ?_, ?_⟩
  · intro hdel
    obtain ⟨-, dst, hpush, -⟩ := hdel.pushed hok
    have henv : (envAt (2 ^ 24 + 5600)).sp 3 = 2 ^ 24 + 5600 := rfl
    rw [henv, hnone] at hpush
    exact absurd hpush (by simp)
  · rw [hmap']
    decide
  · rw [hmap']
    unfold InImage
    decide

end LisaMinix.Kernel
