import LisaMinix.Mm.HoleList

/-!
# Runs of the Allocator

What holds of the hole table along every sequence of `alloc_mem` and `free_mem` calls that
starts from `mem_init` and frees whole blocks that were handed out before.

- `Tiled size t areas blocks` is the invariant: the holes of `t` are `areas`, and together
  with the areas `blocks` in use they tile the memory; holes are ordered, apart and never
  adjacent, and everything is even.
- `Tiled.alloc`, `Tiled.free` and `Tiled.allocForExec` say what one call does to it.
- `Run size t blocks` are the reachable states, and `Run.tiled` the invariant along them.

The table has 128 slots, and there is at most one more hole than there are blocks, so a
slot is left for `free_mem` as long as no more than 126 blocks are outstanding.
-/

namespace LisaMinix.Mm

open LisaMinix.Library

/-! ## §1 The invariant -/

/-- Base and length are even: the area consists of whole MMU pages. -/
def EvenArea (a : Area) : Prop := a.base % 2 = 0 ∧ a.len % 2 = 0

/-- The holes of the table, in the order of the list, are `areas`; together with the areas
`blocks` in use they tile the memory of `size` clicks. -/
structure Tiled (size : ℕ) (t : HoleTable) (areas blocks : List Area) : Prop where
  rep : ∃ holes free, Rep t holes free ∧ holes.map t.area = areas
  partition : Partition size areas blocks
  even : ∀ a ∈ areas ++ blocks, EvenArea a

variable {c : ℕ}

theorem evenClicks_of_lt (hc : c < 65535) : evenClicks c = (c + 1) / 2 * 2 := by
  rw [evenClicks, toClicks, Nat.mod_eq_of_lt (by omega)]

theorem evenClicks_even (c : ℕ) : evenClicks c % 2 = 0 := by
  rw [evenClicks]
  omega

/-- Only requests for 0 and for 65535 clicks are rounded to nothing. -/
theorem evenClicks_pos (h0 : 0 < c) (hc : c < 65535) : 0 < evenClicks c := by
  rw [evenClicks_of_lt hc]
  omega

theorem lt_of_evenClicks_ne_zero (hc : c < 65536) (h : evenClicks c ≠ 0) : c < 65535 := by
  by_contra hge
  exact h (by rw [show c = 65535 by omega]; rfl)

theorem le_evenClicks (hc : c < 65535) : c ≤ evenClicks c := by
  rw [evenClicks_of_lt hc]
  omega

section Holes

variable {size : ℕ} {t : HoleTable} {areas blocks : List Area}

theorem Tiled.fits (h : Tiled size t areas blocks) (hsize : size < 65536) : Fits areas :=
  fun a ha => Nat.lt_of_le_of_lt (h.partition.within a (List.mem_append_left _ ha)) hsize

theorem Tiled.perm {blocks' : List Area} (h : Tiled size t areas blocks)
    (hp : blocks.Perm blocks') : Tiled size t areas blocks' where
  rep := h.rep
  partition := h.partition.perm hp
  even a ha := h.even a (((List.Perm.refl areas).append hp).mem_iff.mpr ha)

/-- First fit keeps bases and lengths even. -/
theorem takeFirst_even {n b : ℕ} {as as' : List Area} (hn : n % 2 = 0)
    (ht : takeFirst n as = some (b, as')) (h : ∀ a ∈ as, EvenArea a) :
    b % 2 = 0 ∧ ∀ a ∈ as', EvenArea a := by
  obtain ⟨pre, a, post, rfl, -, rfl, rfl⟩ := takeFirst_eq_some ht
  have ha := h a (by simp)
  refine ⟨ha.1, fun x hx => ?_⟩
  simp only [List.mem_append] at hx
  rcases hx with (hx | hx) | hx
  · exact h x (by simp [hx])
  · -- what remains of the hole that was cut
    split at hx
    · rw [List.mem_singleton.mp hx]
      obtain ⟨hbase, hlen⟩ := ha
      exact ⟨by simp only; omega, by simp only; omega⟩
    · exact absurd hx (by simp)
  · exact h x (by simp [hx])

/-- **One call of `alloc_mem`**: it fails because every hole is too short, or the clicks it
returns become a block. -/
theorem Tiled.alloc (h : Tiled size t areas blocks) (hsize : size < 65536) (hc : 0 < evenClicks c) :
    (allocMem t c = .ok (t, noMem) ∧ ∀ a ∈ areas, a.len < evenClicks c) ∨
    ∃ t' b areas', allocMem t c = .ok (t', b) ∧ takeFirst (evenClicks c) areas = some (b, areas') ∧
      Tiled size t' areas' (⟨b, evenClicks c⟩ :: blocks) := by
  have hfits := h.fits hsize
  obtain ⟨holes, free, hrep, rfl⟩ := h.rep
  have hspec := allocMem_spec hrep (fun a ha => (h.even a (by simp_all)).1) hfits c
  cases hres : takeFirst (evenClicks c) (holes.map t.area) with
  | none =>
    simp only [hres] at hspec
    exact .inl ⟨hspec, takeFirst_eq_none.mp hres⟩
  | some r =>
    obtain ⟨b, areas'⟩ := r
    simp only [hres] at hspec
    obtain ⟨t', holes', free', hrun, hrep', hmap⟩ := hspec
    refine .inr ⟨t', b, areas', hrun, rfl, ⟨holes', free', hrep', hmap⟩,
      h.partition.takeFirst hc hres, fun a ha => ?_⟩
    have heven := takeFirst_even (evenClicks_even c) hres
      fun a ha => h.even a (List.mem_append_left _ ha)
    rcases List.mem_append.mp ha with ha | ha
    · exact heven.2 a ha
    · rcases List.mem_cons.mp ha with rfl | ha
      · exact ⟨heven.1, evenClicks_even c⟩
      · exact h.even a (List.mem_append_right _ ha)

/-- **One call of `free_mem`** on an outstanding block: with at most 126 blocks outstanding
an unused slot is left. -/
theorem Tiled.free {b c : ℕ} (h : Tiled size t areas (⟨b, evenClicks c⟩ :: blocks))
    (hsize : size < 65536) (hlen : blocks.length < 126) :
    ∃ t', freeMem t b c = .ok t' ∧
      Tiled size t' (giveBack ⟨b, evenClicks c⟩ areas) blocks := by
  have hfits := h.fits hsize
  have hcount := h.partition.length_le
  obtain ⟨holes, free, hrep, rfl⟩ := h.rep
  -- counting: there is an unused slot
  cases free with
  | nil =>
    have := hrep.length
    simp only [List.length_map, List.length_cons, List.length_nil, nrHoles] at hcount this
    omega
  | cons new free =>
    have hstop : (⟨b, evenClicks c⟩ : Area).stop < 65536 :=
      Nat.lt_of_le_of_lt (h.partition.within _ (by simp)) hsize
    obtain ⟨t', holes', free', hrun, hrep', hmap⟩ :=
      freeMem_spec hrep (fits_cons.mpr ⟨hstop, hfits⟩)
    refine ⟨t', hrun, ⟨holes', free', hrep', hmap⟩, h.partition.giveBack, fun a ha => ?_⟩
    rcases List.mem_append.mp ha with ha | ha
    · refine giveBack_forall ?_ (h.even _ (by simp)) (fun a ha => h.even a (by simp_all)) a ha
      rintro x y ⟨hxb, hxl⟩ ⟨-, hyl⟩
      exact ⟨hxb, by simp only; omega⟩
    · exact h.even a (by simp [ha])

/-- A request that is rounded to nothing changes no hole. -/
theorem Tiled.allocNothing (h : Tiled size t areas blocks) (hsize : size < 65536)
    (hc : evenClicks c = 0) :
    ∃ t' b, allocMem t c = .ok (t', b) ∧ Tiled size t' areas blocks ∧
      (b = noMem → areas = [] ∨ ∃ a ∈ areas, a.base = 0) := by
  have hfits := h.fits hsize
  obtain ⟨holes, free, hrep, hareas⟩ := h.rep
  have hspec := allocMem_spec hrep (fun a ha => (h.even a (by simp_all)).1) (hareas ▸ hfits) c
  rw [hc, hareas] at hspec
  match areas, h, hspec with
  | [], h, hspec => exact ⟨t, noMem, hspec, h, fun _ => .inl rfl⟩
  | a :: as, h, hspec =>
    have hpos : a.len - 0 ≠ 0 := Nat.pos_iff_ne_zero.mp (h.partition.ordered.pos a (by simp))
    simp only [takeFirst, Nat.zero_le, if_true, if_pos hpos] at hspec
    obtain ⟨t', holes', free', hrun, hrep', hmap⟩ := hspec
    exact ⟨t', a.base, hrun, ⟨⟨holes', free', hrep', hmap⟩, h.partition, h.even⟩,
      fun hb => .inr ⟨a, by simp, hb⟩⟩

/-- **`new_mem` never finds the hole list inconsistent**: once the longest hole is long
enough, the allocation succeeds, and it is not at click 0 unless that memory is free. -/
theorem Tiled.allocForExec (h : Tiled size t areas blocks) (hsize : size < 65536)
    (hc : 0 < c) (hzero : ∀ a ∈ areas, a.base ≠ 0) :
    allocForExec t c = .ok (t, none) ∨
    ∃ t' b areas', allocForExec t c = .ok (t', some b) ∧
      Tiled size t' areas' (⟨b, evenClicks c⟩ :: blocks) := by
  obtain ⟨holes, free, hrep, hareas⟩ := h.rep
  obtain ⟨m, hm, hall, hmax⟩ := maxHole_spec hrep
  rw [hareas] at hall hmax
  by_cases hlt : m < c
  · exact .inl (by simp [Mm.allocForExec, hm, Except.bind, hlt])
  · -- the longest hole has even length, so it is still long enough after rounding
    obtain ⟨a, ha, hlen⟩ : ∃ a ∈ areas, a.len = m := by
      rcases hmax with hm0 | hmax
      · omega
      · exact hmax
    have heven := (h.even a (List.mem_append_left _ ha)).2
    have hstop := h.fits hsize a ha
    simp only [Area.stop] at hstop
    have hcm : evenClicks c ≤ m := by
      rw [evenClicks_of_lt (by omega)]
      omega
    right
    rcases h.alloc hsize (evenClicks_pos hc (by omega)) with ⟨-, hno⟩ | ⟨t', b, areas', hrun, hres, h'⟩
    · exact absurd (hno a ha) (by omega)
    · obtain ⟨pre, x, post, hpre, -, hb, -⟩ := takeFirst_eq_some hres
      have hb0 : b ≠ noMem := hb ▸ hzero x (by simp [hpre])
      exact ⟨t', b, areas', by simp [Mm.allocForExec, hm, Except.bind, hlt, hrun, hb0], h'⟩

end Holes

/-- `mem_init` makes one hole of the whole memory. -/
theorem memInit_tiled {size : ℕ} (hpos : 0 < size) (heven : size % 2 = 0) (hsize : size < 65536) :
    ∃ t, memInit size = .ok t ∧ Tiled size t [⟨0, size⟩] [] := by
  have hround : evenClicks size = size := by
    rw [evenClicks_of_lt (by omega)]
    omega
  have hrep : Rep emptyTable [] (⟨0, by decide⟩ :: (List.finRange nrHoles).tail) :=
    emptyTable_rep
  have hfits : Fits (⟨0, evenClicks size⟩ :: [].map emptyTable.area) := by
    rw [hround, fits_cons]
    exact ⟨by simpa [Area.stop] using hsize, by simp [Fits]⟩
  obtain ⟨t, holes, free, hrun, hrep', hmap⟩ := freeMem_spec hrep hfits
  rw [hround] at hmap
  refine ⟨t, hrun, ⟨holes, free, hrep', hmap⟩, ?_, ?_⟩
  · refine ⟨ordered_cons.mpr ⟨hpos, by simp, ⟨List.Pairwise.nil, by simp⟩⟩, by simp,
      List.Pairwise.nil, by simp, by simp [Area.stop], fun c hc => ?_, by simp⟩
    simpa [Area.stop] using hc
  · simpa [EvenArea] using heven

/-! ## §2 Runs -/

/-- The clicks that belong to a block: the request is rounded to whole pages. -/
def Block.area (b : Block) : Area := ⟨b.base, evenClicks b.clicks⟩

/-- The states reached from `mem_init` by calls of `alloc_mem` and `free_mem`, with the
blocks outstanding.

A block at click 0 is returned as `NO_MEM`, so a caller cannot tell it from a failure; it
counts as handed out when the hole list has changed. -/
inductive Run (size : ℕ) : HoleTable → List Block → Prop
  | boot {t} : memInit size = .ok t → Run size t []
  | alloc {t t' blocks c base} : Run size t blocks → c < 65536 → evenClicks c ≠ 0 →
      allocMem t c = .ok (t', base) → base ≠ noMem ∨ t' ≠ t → Run size t' (⟨base, c⟩ :: blocks)
  | refused {t t' blocks c base} : Run size t blocks → c < 65536 →
      allocMem t c = .ok (t', base) → evenClicks c = 0 ∨ base = noMem ∧ t' = t →
      Run size t' blocks
  | free {t t' blocks b} : Run size t blocks → b ∈ blocks → blocks.length ≤ 126 →
      freeMem t b.base b.clicks = .ok t' → Run size t' (blocks.erase b)

/-- `free_mem` of one of the outstanding blocks. -/
theorem Tiled.freeBlock {size : ℕ} {t : HoleTable} {areas : List Area} {blocks : List Block}
    {b : Block} (h : Tiled size t areas (blocks.map Block.area)) (hsize : size < 65536)
    (hb : b ∈ blocks) (hlen : blocks.length ≤ 126) :
    ∃ t' areas', freeMem t b.base b.clicks = .ok t' ∧
      Tiled size t' areas' ((blocks.erase b).map Block.area) := by
  have hshort : (blocks.erase b).length < 126 := by
    rw [List.length_erase_of_mem hb]
    have := List.length_pos_of_mem hb
    omega
  have hperm := (List.perm_cons_erase hb).map Block.area
  obtain ⟨t', hok, h'⟩ := (h.perm hperm).free hsize (by simpa using hshort)
  exact ⟨t', _, hok, h'⟩

theorem Run.tiled {size : ℕ} {t : HoleTable} {blocks : List Block} (hpos : 0 < size)
    (heven : size % 2 = 0) (hsize : size < 65536) (h : Run size t blocks) :
    ∃ areas, Tiled size t areas (blocks.map Block.area) := by
  induction h with
  | boot hboot =>
    obtain ⟨t₀, hrun, htiled⟩ := memInit_tiled hpos heven hsize
    rw [hboot] at hrun
    cases hrun
    exact ⟨_, htiled⟩
  | alloc _ _ hc hrun hgranted ih =>
    obtain ⟨areas, htiled⟩ := ih
    rcases htiled.alloc hsize (Nat.pos_of_ne_zero hc) with ⟨hno, -⟩ | ⟨t', b, areas', hok, -, h'⟩
    · -- a failure neither returns a block nor changes the table
      rw [hrun] at hno
      cases hno
      rcases hgranted with hg | hg
      · exact absurd rfl hg
      · exact absurd rfl hg
    · rw [hrun] at hok
      cases hok
      exact ⟨areas', h'⟩
  | refused _ _ hrun hrefused ih =>
    obtain ⟨areas, htiled⟩ := ih
    rcases hrefused with hc | ⟨-, rfl⟩
    · obtain ⟨t', b, hok, h', -⟩ := htiled.allocNothing hsize hc
      rw [hrun] at hok
      cases hok
      exact ⟨areas, h'⟩
    · exact ⟨areas, htiled⟩
  | free _ hb hlen hrun ih =>
    obtain ⟨areas, htiled⟩ := ih
    obtain ⟨t₁, areas', hok, h'⟩ := htiled.freeBlock hsize hb hlen
    rw [hrun] at hok
    cases hok
    exact ⟨areas', h'⟩

/-- What is guaranteed of a state reached with the blocks `blocks` outstanding. -/
structure Sound (size : ℕ) (t : HoleTable) (blocks : List Block) (holes free : List Slot) :
    Prop where
  /-- the holes are the list from `hole_head`, the unused slots the list from `free_slots` -/
  lists : Chain t.next t.holeHead holes ∧ Chain t.next t.freeSlots free
  /-- together they contain each slot of the table exactly once -/
  slots : (holes ++ free).Perm (List.finRange nrHoles)
  /-- sorted by base, disjoint and not adjacent -/
  ordered : (holes.map t.area).Pairwise fun a b => a.base < b.base ∧ a.stop < b.base
  /-- not empty, and of even base and length -/
  whole : ∀ a ∈ holes.map t.area, 0 < a.len ∧ EvenArea a
  /-- no memory is lost or counted twice -/
  sum : total (holes.map t.area) + total (blocks.map Block.area) = size
  disjoint : (blocks.map Block.area).Pairwise Area.Apart
  /-- `alloc_mem` returns, and `NO_MEM` only if every hole is too short or click 0 is free -/
  alloc : ∀ c < 65536, ∃ t' base, allocMem t c = .ok (t', base) ∧
    (base = noMem → (∀ a ∈ holes.map t.area, a.len < c) ∨ ∃ a ∈ holes.map t.area, a.base = 0) ∧
    (evenClicks c ≠ 0 → base ≠ noMem ∨ t' ≠ t →
      c ≤ evenClicks c ∧ ∀ b ∈ blocks, (⟨base, evenClicks c⟩ : Area).Apart b.area)
  /-- a block can be freed: "Hole table full" is unreachable -/
  free : blocks.length ≤ 126 → ∀ b ∈ blocks, ∃ t', freeMem t b.base b.clicks = .ok t'
  /-- "MM hole list is inconsistent" is unreachable -/
  exec : ∀ c, 0 < c → (∀ a ∈ holes.map t.area, a.base ≠ 0) → ∃ r, allocForExec t c = .ok r

/-- **The hole list along every run of the allocator.**  `mem_init` succeeds, and every
state reached by allocations and frees of whole outstanding blocks is sound. -/
theorem run_sound {size : ℕ} (hpos : 0 < size) (heven : size % 2 = 0) (hsize : size < 65536) :
    (∃ t, memInit size = .ok t) ∧
    ∀ t blocks, Run size t blocks → ∃ holes free, Sound size t blocks holes free := by
  constructor
  · obtain ⟨t, hrun, -⟩ := memInit_tiled hpos heven hsize
    exact ⟨t, hrun⟩
  intro t blocks hrun
  obtain ⟨areas, htiled⟩ := hrun.tiled hpos heven hsize
  obtain ⟨holes, free, hrep, rfl⟩ := htiled.rep
  have hlt : ∀ a ∈ holes.map t.area, ∀ c < 65536, evenClicks c ≠ 0 →
      a.len < evenClicks c → a.len < c := by
    intro a ha c hc hpos' hlen
    have hev := (htiled.even a (List.mem_append_left _ ha)).2
    rw [evenClicks_of_lt (lt_of_evenClicks_ne_zero hc hpos')] at hlen
    omega
  refine ⟨holes, free, ?_⟩
  constructor
  case lists => exact ⟨hrep.holesChain, hrep.freeChain⟩
  case slots => exact hrep.slots
  case ordered =>
    refine htiled.partition.ordered.before.imp fun {a b} hab => ⟨?_, hab⟩
    exact Nat.lt_of_le_of_lt (Nat.le_add_right _ _) hab
  case whole =>
    exact fun a ha => ⟨htiled.partition.ordered.pos a ha, htiled.even a (by simp [ha])⟩
  case sum => exact htiled.partition.sum
  case disjoint => exact htiled.partition.apart
  case alloc =>
    intro c hc
    by_cases hzero : evenClicks c = 0
    · obtain ⟨t', b, hok, -, hno⟩ := htiled.allocNothing hsize hzero
      refine ⟨t', b, hok, fun hb => ?_, fun hne => absurd hzero hne⟩
      rcases hno hb with hnil | hfree
      · exact .inl (by simp [hnil])
      · exact .inr hfree
    · rcases htiled.alloc hsize (Nat.pos_of_ne_zero hzero) with
        ⟨hok, hno⟩ | ⟨t', b, areas', hok, hres, h'⟩
      · refine ⟨t, noMem, hok, fun _ => .inl fun a ha => hlt a ha c hc hzero (hno a ha), ?_⟩
        exact fun _ hg => absurd hg (by simp)
      · refine ⟨t', b, hok, fun hb => ?_, fun _ _ => ⟨?_, ?_⟩⟩
        · -- the block was cut off a hole at click 0
          obtain ⟨pre, x, post, hpre, -, hbase, -⟩ := takeFirst_eq_some hres
          exact .inr ⟨x, by simp [hpre], hbase.symm.trans hb⟩
        · exact le_evenClicks (lt_of_evenClicks_ne_zero hc hzero)
        · intro x hx
          exact (List.pairwise_cons.mp h'.partition.apart).1 _ (List.mem_map_of_mem hx)
  case free =>
    intro hlen b hb
    obtain ⟨t', areas', hok, -⟩ := htiled.freeBlock hsize hb hlen
    exact ⟨t', hok⟩
  case exec =>
    intro c hc hzero
    rcases htiled.allocForExec hsize hc hzero with hok | ⟨t', b, areas', hok, -⟩
    · exact ⟨_, hok⟩
    · exact ⟨_, hok⟩

/-- A run with two blocks outstanding: MINIX itself at click 0, and the second of two processes above
it, of which the first has ended. -/
theorem run_sound_two_blocks : ∃ t, Run 64 t [⟨14, 5⟩, ⟨0, 9⟩] ∧
    ∃ holes free, Sound 64 t [⟨14, 5⟩, ⟨0, 9⟩] holes free := by
  have hrun : ∃ t, Run 64 t [⟨14, 5⟩, ⟨0, 9⟩] := by
    have hboot := Run.alloc (Run.boot rfl : Run 64 _ []) (c := 9) (by decide) (by decide) rfl (.inr ?_)
    · have hthree := (hboot.alloc (c := 3) (by decide) (by decide) rfl (.inl (by decide))).alloc
        (c := 5) (by decide) (by decide) rfl (.inl (by decide))
      exact ⟨_, hthree.free (b := ⟨10, 3⟩) (by decide) (by decide) rfl⟩
    · intro h
      have hbase := congrArg (fun t : HoleTable => (t.hole ⟨0, by decide⟩).hBase) h
      exact absurd hbase (by decide)
  obtain ⟨t, ht⟩ := hrun
  exact ⟨t, ht, (run_sound (by decide) (by decide) (by decide)).2 t _ ht⟩

/-- The `n`-fold call `alloc_mem(clicks)`. -/
def allocMany (clicks : ℕ) : ℕ → HoleTable → Except Fault HoleTable
  | 0, t => .ok t
  | n + 1, t => (allocMem t clicks).bind fun r => allocMany clicks n r.1

/-- Free the blocks of `clicks` clicks at the given bases, in order. -/
def freeMany (clicks : ℕ) : List ℕ → HoleTable → Except Fault HoleTable
  | [], t => .ok t
  | b :: bs, t => (freeMem t b clicks).bind (freeMany clicks bs)

/-- What the restrictions of `Run` and `Sound` exclude.  The first block allocated is at
click 0, which is `NO_MEM` although the only hole is long enough; a request for 65535 clicks
is rounded to none and "succeeds" in any hole; and with 258 blocks handed out, freeing every
second one needs 129 holes. -/
theorem unrestricted_runs_fail :
    ((memInit 64).bind fun t => (maxHole t).bind fun m => (allocMem t 2).map fun r => (m, r.2))
      = .ok (64, noMem) ∧
    ((memInit 64).bind fun t => (allocMem t 2).bind fun r => (maxHole r.1).bind fun m =>
      (allocMem r.1 65535).map fun r => (m, r.2)) = .ok (62, 2) ∧
    (((memInit 516).bind (allocMany 2 258)).bind
      (freeMany 2 ((List.range 129).map fun i => 514 - 4 * i))).map (fun _ => ())
      = .error .holeTableFull :=
  ⟨by rfl, by rfl, by decide +kernel⟩

end LisaMinix.Mm
