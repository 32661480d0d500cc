import LisaMinix.Mm.OwnedRuns

/-!
# The Image of a Child

MM and the kernel compute the map of a child separately: MM from the lengths of the segments
(`childSeg`), the kernel from the distances of the parent's segments in memory (`sysFork`).
In every state that MM reaches by requests that meet `StepSafe` they agree on the maps of all live
processes, and a child is a copy of its parent, in the block that was allocated for it.

## References

`src/mm/forkexit.c` (`do_fork`), `src/kernel/system.c` (`do_fork`), `src/kernel/copy68k.s`
(`copyclicks`).
-/

namespace LisaMinix.Mm

open LisaMinix.Library Function

/-! ## §1 Copying clicks -/

/-- The bytes of a click. -/
abbrev Click := Fin 256 → UInt8

/-- `copyclicks(src, dst, n)`: one click after the other, upwards. -/
def copyClicks (mem : ℕ → Click) (src dst n : ℕ) : ℕ → Click :=
  (List.range n).foldl
    (fun mem i => update mem (toClicks (dst + i)) (mem (toClicks (src + i)))) mem

/-- The memory after the kernel's `do_fork`: the image of the parent, which has the map `map`,
has been copied to `base`. -/
def forkMemory (map : MemMaps) (base : ℕ) (mem : ℕ → Click) : ℕ → Click :=
  copyClicks mem map.text.memPhys base
    (toClicks (subClicks map.stack.memPhys map.text.memPhys + map.stack.memLen))

/-- When the two areas are apart, the second becomes a copy of the first and nothing else
changes. -/
theorem copyClicks_apart (mem : ℕ → Click) {src dst n : ℕ} (hsrc : src + n ≤ 65536)
    (hdst : dst + n ≤ 65536) (hapart : src + n ≤ dst ∨ dst + n ≤ src) (c : ℕ) :
    copyClicks mem src dst n c =
      if dst ≤ c ∧ c < dst + n then mem (src + (c - dst)) else mem c := by
  induction n generalizing c with
  | zero =>
    rw [if_neg (by omega)]
    rfl
  | succ n ih =>
    have ih' := ih (by omega) (by omega) (by omega)
    unfold copyClicks at ih' ⊢
    rw [List.range_succ, List.foldl_append]
    simp only [List.foldl_cons, List.foldl_nil]
    rw [toClicks_of_lt (n := dst + n) (by omega), toClicks_of_lt (n := src + n) (by omega)]
    by_cases hc : c = dst + n
    · -- the click that is copied last has not been overwritten
      rw [hc, update_self, ih', if_neg (by omega), if_pos (by omega),
        show dst + n - dst = n by omega]
    · rw [update_of_ne hc, ih']
      by_cases hin : dst ≤ c ∧ c < dst + n
      · rw [if_pos hin, if_pos (by omega)]
      · rw [if_neg hin, if_neg (by omega)]

/-! ## §2 The child -/

/-- A child with the map `child` is a copy of its parent with the map `map`, in the block `b`;
`mem` and `mem'` are the memory before and after the fork. -/
structure CopiedImage (map child : MemMaps) (b : Block) (mem mem' : ℕ → Click) : Prop where
  inside : ∀ c, Occupies child c → b.base ≤ c ∧ c < b.base + b.clicks
  vir : child.text.memVir = map.text.memVir ∧ child.data.memVir = map.data.memVir ∧
    child.stack.memVir = map.stack.memVir
  len : child.text.memLen = map.text.memLen ∧ child.data.memLen = map.data.memLen ∧
    child.stack.memLen = map.stack.memLen
  /-- all segments are moved by the same number of clicks, which make up whole pages of 512
  bytes, and the bytes are the parent's -/
  moved : ∃ d : ℤ, d % 2 = 0 ∧ (child.text.memPhys : ℤ) = map.text.memPhys + d ∧
    (child.data.memPhys : ℤ) = map.data.memPhys + d ∧
    (child.stack.memPhys : ℤ) = map.stack.memPhys + d ∧
    ∀ c c' : ℕ, Occupies map c → (c' : ℤ) = c + d → mem' c' = mem' c ∧ mem' c = mem c

theorem copiedImage {seg : MemMaps} (h : Shape seg) {base : ℕ} {mem : ℕ → Click}
    (hfit : base + (image seg).clicks < 65536) (heven : base % 2 = 0)
    (heven' : seg.text.memPhys % 2 = 0)
    (hapart : base + (image seg).clicks ≤ (image seg).base ∨
      (image seg).base + (image seg).clicks ≤ base) :
    CopiedImage seg (childSeg seg base) ⟨base, (image seg).clicks⟩ mem
      (forkMemory seg base mem) := by
  obtain ⟨hcshape, hcimage⟩ := childSeg_shape h hfit
  have hocc := h
  obtain ⟨hdv, hdp, hord, hsp, hvt, hpt, hne⟩ := h
  simp only [image] at hfit hapart ⊢
  refine ⟨fun c hc => ?_, ⟨rfl, rfl, rfl⟩, ⟨rfl, rfl, rfl⟩,
    ⟨(base : ℤ) - seg.text.memPhys, ?_, ?_, ?_, ?_, fun c c' hc hc' => ?_⟩⟩
  · have := occupies_image hcshape hc
    rw [hcimage] at this
    exact this
  · omega
  · simp only [childSeg]
    omega
  · simp only [childSeg, toClicks]
    omega
  · simp only [childSeg, toClicks, subClicks]
    omega
  · have hin := occupies_image hocc hc
    simp only [image] at hin
    have hlen : toClicks (subClicks seg.stack.memPhys seg.text.memPhys + seg.stack.memLen) =
        seg.stack.memPhys + seg.stack.memLen - seg.text.memPhys := by
      simp only [toClicks, subClicks]
      omega
    have hsrc : seg.text.memPhys + (seg.stack.memPhys + seg.stack.memLen - seg.text.memPhys) ≤
        65536 := by omega
    have hdst : base + (seg.stack.memPhys + seg.stack.memLen - seg.text.memPhys) ≤ 65536 := by omega
    have hcopy := copyClicks_apart mem hsrc hdst (by omega)
    rw [forkMemory, hlen, hcopy, hcopy, if_pos (by omega), if_neg (by omega)]
    refine ⟨?_, rfl⟩
    congr 1
    omega

/-! ## §3 Runs -/

/-- MM and the kernel agree on the maps, and a child is a copy of its parent. -/
structure MapsAgree (s : MmState) : Prop where
  agree : ∀ p, alive s p = true → s.pMap p = (s.mproc p).seg
  fork : ∀ who s' pid mem, alive s who = true → doFork s who = .ok (s', pid) → pid ≠ eagain →
    ∃ child b, freeSlot s = some child ∧ s'.events = .alloc b :: s.events ∧
      alive s' child = true ∧ s'.pMap child = (s'.mproc child).seg ∧
      CopiedImage (s.pMap who) (s'.pMap child) b mem (forkMemory (s.pMap who) b.base mem)

section Runs

variable {L : Layout} {s : MmState} {size org text data tot : ℕ}

theorem Owned.mapsAgree (h : Owned L s) : MapsAgree s := by
  refine ⟨h.agree, fun who s' pid mem hp hrun hpid => ?_⟩
  rcases doFork_spec h hp with hfail | ⟨child, base, s₁, areas, hslot, hfree, hok, hborn, hfit,
    htiled⟩
  · rw [hrun] at hfail
    exact absurd (Prod.mk.inj (Except.ok.inj hfail)).2 hpid
  · rw [hrun] at hok
    obtain ⟨rfl, -⟩ := Prod.mk.inj (Except.ok.inj hok)
    have hshape := h.shape who hp
    have hmem := Owned.mem_blocks hp
    have hchild : initProcNr ≤ child := by
      by_contra hlt
      rw [(h.servers child (not_le.mp hlt)).1] at hfree
      exact absurd hfree (by decide)
    have hself : s'.pMap child = childSeg (s.mproc who).seg base := by
      rw [hborn.pMap, update_self]
    refine ⟨child, _, hslot, hborn.events,
      alive_iff.mpr ⟨hchild, hborn.self.1, hborn.self.2.1⟩, ?_, ?_⟩
    · rw [hself, hborn.self.2.2.2]
    · rw [hself, h.agree who hp]
      -- the block of the parent is one of those in use, and all of them are whole pages
      have hsep := (List.pairwise_cons.mp htiled.partition.apart).1 _ (List.mem_append_right _ hmem)
      have heven := (htiled.even ⟨base, evenClicks (image (s.mproc who).seg).clicks⟩ (by simp)).1
      have heven' := (htiled.even (image (s.mproc who).seg).area (by simp [hmem])).1
      have hle := (h.le_block hp).1
      refine copiedImage hshape hfit heven heven' ?_
      simp only [Area.Apart, Area.stop, Block.area] at hsep
      omega

/-- **MM and the kernel agree on the maps, and every child is a copy of its parent**, in every
state that MM reaches by requests that meet `StepSafe`. -/
theorem reached_mapsAgree (h : BootLayout size org text data)
    (hr : Reached size org text data tot StepSafe s) : MapsAgree s := by
  obtain ⟨L, -, -, hown⟩ := hr.owned h
  exact hown.mapsAgree

end Runs

/-- A child of INIT forks. -/
theorem reached_mapsAgree_grandchild : ∃ s, Reached 4096 100 20 30 200 StepSafe s ∧
    (s.pMap 4).text.memPhys = 250 ∧ MapsAgree s := by
  obtain ⟨s, hr, hphys⟩ := exists_reached 4096 100 20 30 200 StepSafe quietEnv
    [(2, .fork), (3, .fork)] (fun s => (s.pMap 4).text.memPhys) 250 (by decide +kernel)
    (by simp [StepSafe])
  have hlayout : BootLayout 4096 100 20 30 := by constructor <;> decide
  exact ⟨s, hr, hphys, reached_mapsAgree hlayout hr⟩

/-- The process in slot 3 forks, and the child in slot 4 uses the click `c` although the block `b`
was allocated for it. -/
def forksTo (b : Block) (c : ℕ) (s : MmState) : Bool :=
  match doFork s 3 with
  | .ok (s', pid) => alive s 3 && decide (freeSlot s = some 4) && decide (pid = 4) &&
      decide (s'.events.head? = some (.alloc b)) && decide (Occupies (s'.pMap 4) c)
  | .error _ => false

/-- **A child that is not inside its block**: a process executes the file of which the length of
the text and the rest, 65538 clicks, is 2 in 16 bits, and forks. -/
theorem wrapped_child_outside : ∃ s, Reached 4096 100 20 30 200 (fun _ _ _ => True) s ∧
    ¬ MapsAgree s := by
  obtain ⟨s, hr, hfork⟩ := exists_reached 4096 100 20 30 200 (fun _ _ _ => True) quietEnv
    [(2, .fork), (3, .exec ⟨256, .ok wrappingFile, true⟩)] (forksTo ⟨200, 2⟩ 1000) true
    (by decide +kernel) (by simp)
  refine ⟨s, hr, fun hmaps => ?_⟩
  unfold forksTo at hfork
  split at hfork
  next s' pid hrun =>
    simp only [Bool.and_eq_true, decide_eq_true_eq] at hfork
    obtain ⟨⟨⟨⟨halive, hslot⟩, rfl⟩, hevent⟩, hocc⟩ := hfork
    obtain ⟨child, b, hchild, hevents, -, -, hcopy⟩ :=
      hmaps.fork 3 s' 4 (fun _ _ => 0) halive hrun (by decide)
    rw [hslot] at hchild
    cases hchild
    rw [hevents] at hevent
    cases hevent
    exact absurd (hcopy.inside 1000 hocc) (by decide)
  next => cases hfork

end LisaMinix.Mm
