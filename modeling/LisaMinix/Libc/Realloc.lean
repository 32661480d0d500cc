import LisaMinix.Libc.MallocCalls

/-!
# Blocks That Change Their Size

`realloc`, which merges and splits in place before it knows whether it will succeed.

- `Leaves`: what a call makes of what programs have in the heap.
- `extendLoop_spec`, `shrink_spec`: the slot takes up a free one behind it, and what is too much is given back.
- `realloc_spec`: the block begins with what was in it, wherever it is now.
-/

namespace LisaMinix.Libc.Malloc

open LisaMinix.Library

variable {h h' h1 : Heap} {ss l r L : List Slot} {s u : Slot} {p q t new len : ℤ} {gl fl fs : List ℤ}
  {bytes bytes' : List UInt8} {size : ℕ}

/-! ## §1 What Programs Have Afterwards -/

/-- The heap is ready, and programs have what they had, but for what was at `p`; and they have `new`. -/
def Leaves (h' : Heap) (L : List Slot) (p : ℤ) (new : Option Slot) : Prop :=
  ∃ L', Ready h' L' ∧ ∀ s, s ∈ L' ↔ new = some s ∨ s ∈ L ∧ s.start ≠ p

/-- No other slot begins where this one does. -/
theorem Slots.start_ne {m : Memory} {a : ℤ} (hs : Slots m a (l ++ s :: r) t) (hu : u ∈ l ++ r) :
    u.start ≠ s.start := by
  have hlt := hs.bounds.2.1
  rcases List.mem_append.mp hu with hu | hu
  · obtain ⟨-, hnext, hu⟩ := hs.laid.parts.1.within hu
    have hlt' := hu.lt
    simp only [ptrSize] at *
    omega
  · have hle := (hs.laid.parts.2.2.within hu).1
    simp only [ptrSize] at *
    omega

theorem mem_live_others {m : Memory} {a : ℤ} (hs : Slots m a (l ++ s :: r) t) :
    u ∈ live l ++ live r ↔ u ∈ live (l ++ s :: r) ∧ u.start ≠ s.start := by
  have hsub : ∀ u ∈ live l ++ live r, u ∈ l ++ r := by
    intro u hu
    rw [← live_append] at hu
    exact List.mem_of_mem_filter hu
  constructor
  · intro hu
    refine ⟨?_, hs.start_ne (hsub u hu)⟩
    rw [live_append]
    rcases List.mem_append.mp hu with hu | hu
    · exact List.mem_append_left _ hu
    · refine List.mem_append_right _ ?_
      unfold live at hu ⊢
      rw [List.mem_filter] at hu ⊢
      exact ⟨List.mem_cons_of_mem _ hu.1, hu.2⟩
  · rintro ⟨hu, hne⟩
    rw [← live_append]
    unfold live at hu ⊢
    rw [List.mem_filter] at hu ⊢
    refine ⟨?_, hu.2⟩
    rcases List.mem_append.mp hu.1 with hl | hr
    · exact List.mem_append_left _ hl
    · rcases List.mem_cons.mp hr with rfl | hr
      · exact absurd rfl hne
      · exact List.mem_append_right _ hr

/-- Another content of a slot that is in use. -/
theorem leaves_refill (h0 : InOrder h (l ++ ⟨p, some bytes⟩ :: r) h.top)
    (hspaced : Spaced (l ++ ⟨p, some bytes⟩ :: r)) (hinside : h.top ≤ h.brk) {m' : Memory}
    (hsame : ∀ x, x < p ∨ nextSlot h.mem p - ptrSize ≤ x → m' x = h.mem x)
    (hroom : p + bytes'.length + ptrSize ≤ nextSlot h.mem p)
    (hdata : m'.read p bytes'.length = bytes') :
    InOrder { h with mem := m' } (l ++ ⟨p, some bytes'⟩ :: r) h.top ∧
      Leaves { h with mem := m' } (live (l ++ ⟨p, some bytes⟩ :: r)) p (some ⟨p, some bytes'⟩) := by
  have hs' : Slots m' h.bottom (l ++ ⟨p, some bytes'⟩ :: r) h.top := by
    refine h0.slots.refill hsame hroom ?_
    intro b hb
    obtain rfl := Option.some.inj hb
    exact hdata
  have hl' : Linked m' h.empty (frees (l ++ ⟨p, some bytes'⟩ :: r)) 0 := by
    have hl := h0.linked
    rw [frees_append, frees_live] at hl ⊢
    refine hl.congr fun x hx => ?_
    have hx' : x ∈ frees (l ++ ⟨p, some bytes⟩ :: r) := by simpa using hx
    -- a free slot does not overlap the one that is written
    have hfar : x + ptrSize ≤ p ∨ nextSlot h.mem p ≤ x := by
      rcases List.mem_append.mp hx with hx | hx
      · exact .inl (h0.slots.lt_of_mem_left hx)
      · exact .inr (h0.slots.le_of_mem_right hx)
    unfold link nextFree
    rw [long_same]
    intro y hlo hhi
    refine hsame y ?_
    simp only [ptrSize] at *
    omega
  have horder : InOrder { h with mem := m' } (l ++ ⟨p, some bytes'⟩ :: r) h.top := ⟨hs', hl'⟩
  have hspaced' : Spaced (l ++ ⟨p, some bytes'⟩ :: r) := by
    refine spaced_append hspaced.left (spaced_cons_live.mpr (spaced_cons_live.mp hspaced.right)) ?_
    intro s _ u hu _
    obtain rfl := Option.some.inj hu
    rfl
  refine ⟨horder, live (l ++ ⟨p, some bytes'⟩ :: r), .used _ horder hspaced' rfl hinside, fun s => ?_⟩
  have hothers : s ∈ live l ++ live r ↔ s ∈ live (l ++ ⟨p, some bytes⟩ :: r) ∧ s.start ≠ p :=
    mem_live_others h0.slots
  rw [← hothers, live_append, live_live]
  simp only [List.mem_append, List.mem_cons, Option.some.injEq]
  constructor
  · rintro (hs | rfl | hs)
    · exact .inr (.inl hs)
    · exact .inl rfl
    · exact .inr (.inr hs)
  · rintro (rfl | hs | hs)
    · exact .inr (.inl rfl)
    · exact .inl hs
    · exact .inr (.inr hs)

/-- What is put into a slot that has just been handed out. -/
theorem Given.fill (hgiven : Given h L h.top q len l r) (hinside : h.top ≤ h.brk) {m' : Memory}
    (hsame : ∀ x, x < q ∨ nextSlot h.mem q - ptrSize ≤ x → m' x = h.mem x)
    (hlen : bytes'.length + ptrSize ≤ len) (hdata : m'.read q bytes'.length = bytes') :
    (∀ s ∈ L, s.start ≠ q) ∧ ∃ L', Ready { h with mem := m' } L' ∧
      ∀ s, s ∈ L' ↔ some ⟨q, some bytes'⟩ = some s ∨ s ∈ L := by
  have hroom := hgiven.room
  obtain ⟨-, L', hready, hmem⟩ := leaves_refill hgiven.order hgiven.spaced hinside hsame (by omega) hdata
  have hothers : ∀ s, s ∈ Malloc.live l ++ Malloc.live r ↔
      s ∈ Malloc.live (l ++ ⟨q, some []⟩ :: r) ∧ s.start ≠ q := fun s => mem_live_others hgiven.order.slots
  rw [hgiven.live] at hothers
  refine ⟨fun s hs => ((hothers s).mp hs).2, L', hready, fun s => ?_⟩
  rw [hmem, ← hothers]

/-- A block of a program, and what is around it. -/
theorem Ready.split (h0 : Ready h L) (hin : ⟨p, some bytes⟩ ∈ L) :
    ∃ l r, live (l ++ ⟨p, some bytes⟩ :: r) = L ∧ InOrder h (l ++ ⟨p, some bytes⟩ :: r) h.top ∧
      Spaced (l ++ ⟨p, some bytes⟩ :: r) ∧ h.top ≤ h.brk := by
  cases h0 with
  | unused _ _ _ hnone =>
    rw [hnone] at hin
    cases hin
  | used ss order spaced hlive inside =>
    rw [← hlive] at hin
    obtain ⟨l, r, rfl⟩ := List.append_of_mem (mem_live.mp hin)
    exact ⟨l, r, hlive, order, spaced, inside⟩

/-- What is at `p` in between does not matter. -/
theorem Leaves.of_replaced {L₁ : List Slot} {new : Option Slot} {d : Option (List UInt8)} (h1 : Leaves h' L₁ p new)
    (hL : ∀ s, s ∈ L₁ ↔ some ⟨p, d⟩ = some s ∨ s ∈ L ∧ s.start ≠ p) : Leaves h' L p new := by
  obtain ⟨L', hready, hmem⟩ := h1
  refine ⟨L', hready, fun s => ?_⟩
  rw [hmem, hL]
  constructor
  · rintro (hs | ⟨hs | hs, hne⟩)
    · exact .inl hs
    · exact absurd (congrArg Slot.start (Option.some.inj hs).symm) hne
    · exact .inr hs
  · rintro (hs | hs)
    · exact .inl hs
    · exact .inr ⟨.inr hs, hs.2⟩

/-! ## §2 The Free Slot Behind -/

/-- What the loop of `realloc` leaves: the slot may have taken up the next one. -/
structure Extended (h h' : Heap) (p t : ℤ) (bytes : List UInt8) (l r r' : List Slot) : Prop where
  order : InOrder h' (l ++ ⟨p, some bytes⟩ :: r') t
  spaced : Spaced (l ++ ⟨p, some bytes⟩ :: r')
  live : live r' = live r
  area : SameArea h h'
  grown : nextSlot h.mem p ≤ nextSlot h'.mem p
  merged : nextSlot h.mem p ∈ frees r → p + 2 * ptrSize ≤ nextSlot h'.mem p
  unmerged : nextSlot h.mem p ∉ frees r → h' = h

theorem extendLoop_spec (h0 : InOrder h (l ++ ⟨p, some bytes⟩ :: r) t)
    (hspaced : Spaced (l ++ ⟨p, some bytes⟩ :: r)) (hfl : frees l = gl ++ fl) {n : ℕ} (hn : fl.length < n) :
    Succeeds (extendLoop p (nextSlot h.mem p) n (gl.getLastD 0) ((fl ++ frees r).headD 0)) h
      fun _ h' => ∃ r', Extended h h' p t bytes l r r' := by
  obtain ⟨hp, hlt, -, htop, -⟩ := h0.slots.bounds
  have hnext := h0.slots.nextSlot_eq
  dsimp only at *
  induction n generalizing gl fl with
  | zero => omega
  | succ n ih =>
    unfold extendLoop
    cases fl with
    | cons x fl =>
      -- a free slot before the block
      have hx : x ∈ frees l := by simp [hfl]
      have hx' := mem_frees_left (l := l) p (some bytes) r x hx
      have hx0 := h0.slots.free_ne_zero hx'
      have hxp := h0.slots.lt_of_mem_left hx
      rw [List.cons_append, List.headD_cons, if_neg (by simp only [ptrSize] at *; omega),
        if_neg (by simp only [ptrSize] at *; omega)]
      simp only [wp_bind, wp_get]
      have hback : nextFree h.mem x = (fl ++ frees r).headD 0 := by
        have hl := h0.linked
        rw [frees_append, frees_live, hfl, List.append_assoc, List.cons_append] at hl
        obtain ⟨mid, -, -, hrest⟩ := seg_append.mp hl
        exact Linked.head hrest
      have hrec := @ih (gl ++ [x]) fl (by simpa using hfl) (by simpa using hn)
      rw [List.getLastD_concat] at hrec
      rw [hback]
      exact hrec
    | nil =>
      have hgl : frees l = gl := by simpa using hfl
      rw [List.nil_append, ← hgl]
      -- `h` itself, when the next slot is not free
      have hstay : nextSlot h.mem p ∉ frees r → Extended h h p t bytes l r r := fun hout =>
        ⟨h0, hspaced, rfl, .refl h, le_rfl, fun hin => absurd hin hout, fun _ => rfl⟩
      cases hr : frees r with
      | nil =>
        rw [List.headD_nil, if_pos (.inl rfl)]
        exact ⟨r, hstay (by simp [hr])⟩
      | cons x fr =>
        have hx : x ∈ frees r := by simp [hr]
        have hx' := mem_frees_right (r := r) p (some bytes) l x hx
        have hx0 := h0.slots.free_ne_zero hx'
        have hle := h0.slots.le_of_mem_right hx
        rw [List.headD_cons]
        dsimp only at hle
        rcases eq_or_lt_of_le hle with heq | hgt
        · -- the next slot is free
          rw [if_neg (by omega), if_pos heq.symm]
          obtain ⟨hl, hs, hr'⟩ := h0.slots.laid.parts
          obtain ⟨u, r', rfl⟩ : ∃ u r', r = u :: r' := by
            cases r with
            | nil => simp at hx
            | cons u r' => exact ⟨u, r', rfl⟩
          have hu : u = ⟨x, none⟩ := by
            refine hr'.inj List.mem_cons_self (mem_frees.mp hx) ?_
            exact hr'.1.trans heq
          subst hu
          simp only [wp_bind, wp_modify]
          set h1 := h.setNextSlot p (nextSlot h.mem x) with hh1
          have hs1 : Slots h1.mem h1.bottom (l ++ ⟨p, some bytes⟩ :: r') t := h0.slots.absorb
          have hl1 : Linked h1.mem h1.empty (frees l ++ x :: frees r') 0 := by
            have hlinked := linked_header (s := ⟨p, some bytes⟩) (n := (nextSlot h.mem x).toNat) h0.slots h0.linked
              (fun x hx => hx) (by simp)
            rw [frees_append, frees_live, frees_free] at hlinked
            exact hlinked
          have hleft := mem_frees_left (l := l) p (some bytes) r'
          have hfr : ∀ y ∈ frees r', 4 ∣ y ∧ y ≠ 0 := by
            intro y hy
            have hy' := mem_frees_right (r := r') p (some bytes) l y hy
            exact ⟨(hs1.free_bounds hy').2.1, hs1.free_ne_zero hy'⟩
          have hunlinked := linked_unlink (p := x) hs1 hleft hfr hx0 hl1
          have hslots := slots_setLink hs1 hleft (nextFree h1.mem x)
          set h2 := h1.setLink ((frees l).getLastD 0) (nextFree h1.mem x) with hh2
          have hend : nextSlot h.mem x = nextSlot h2.mem p := by
            have hsplit : Slots h.mem h.bottom ((l ++ [⟨p, some bytes⟩]) ++ ⟨x, none⟩ :: r') t := by
              simpa using h0.slots
            exact hsplit.nextSlot_eq.trans hslots.nextSlot_eq.symm
          have hlong := (h0.slots.free_bounds hx').2.2.1
          refine ⟨r', ⟨hslots, by simpa using hunlinked⟩, ?_, rfl, ?_, ?_, fun _ => ?_, fun hout => ?_⟩
          · refine spaced_append hspaced.left ?_ ?_
            · exact spaced_cons_live.mpr (spaced_cons_free.mp (spaced_cons_live.mp hspaced.right)).2
            · intro s _ u hu _
              obtain rfl := Option.some.inj hu
              rfl
          · exact (sameArea_setNextSlot h p _).trans (sameArea_setLink h1 _ _)
          · simp only [ptrSize] at *
            omega
          · simp only [ptrSize] at *
            omega
          · exact absurd (heq ▸ hx) hout
        · rw [if_pos (.inr hgt)]
          refine ⟨r, hstay fun hin => ?_⟩
          -- the others lie behind the first one
          have hsorted : (x :: fr).Pairwise (· < ·) := hr ▸ h0.slots.laid.parts.2.2.frees_sorted
          rw [hr] at hin
          rcases List.mem_cons.mp hin with heq | hin
          · omega
          · have := (List.pairwise_cons.mp hsorted).1 _ hin
            omega

/-! ## §3 The Slot Is Used -/

/-- What is too much of the slot is given back. -/
theorem shrink_spec (h0 : InOrder h (l ++ ⟨p, some bytes⟩ :: r) h.top)
    (hspaced : Spaced (l ++ ⟨p, some bytes⟩ :: r)) (hinside : h.top ≤ h.brk) (hnew : 4 ∣ new)
    (hneed : p + bytes'.length + ptrSize ≤ new) (hfits : new ≤ nextSlot h.mem p)
    (hdata : h.mem.read p bytes'.length = bytes') :
    Succeeds (shrink p new) h fun _ h' =>
      Leaves h' (live (l ++ ⟨p, some bytes⟩ :: r)) p (some ⟨p, some bytes'⟩) := by
  obtain ⟨hp, hlt, hal, htop, -⟩ := h0.slots.bounds
  have hlimit := h0.slots.limit
  dsimp only at *
  have hplus : plus new ptrSize = new + ptrSize := by
    simp only [ptrSize, addressLimit] at *
    exact plus_eq (by omega) (by decide) (by omega)
  obtain ⟨hrefilled, hleaves⟩ := leaves_refill h0 hspaced hinside (fun _ _ => rfl) (hneed.trans hfits) hdata
  unfold shrink
  simp only [wp_bind, wp_get, hplus]
  split
  · next hbig =>
    simp only [wp_bind]
    refine succeeds_assert (by rw [hplus]; unfold ptrSize; omega) ?_
    simp only [wp_modify]
    set h1 := (h.setNextSlot new (nextSlot h.mem p)).setNextSlot p new with hh1
    have hs1 : Slots h1.mem h1.bottom ((l ++ [⟨p, some bytes'⟩]) ++ ⟨new, some []⟩ :: r) h.top := by
      rw [List.append_assoc, List.singleton_append]
      refine h0.slots.split hnew ?_ ?_ ?_ ?_
      · simp only [Slot.need]
        exact hneed
      · simp only [Slot.need, ptrSize, List.length_nil] at *
        omega
      · intro b hb
        obtain rfl := Option.some.inj hb
        exact hdata
      · intro b hb
        exact (Option.some.inj hb).symm
    have hp0 := (frees_nodup_parts h0.slots).2
    have hl1 : Linked h1.mem h1.empty (frees (l ++ [⟨p, some bytes'⟩]) ++ frees r) 0 := by
      have hl := h0.linked
      rw [frees_append, frees_live] at hl
      rw [frees_append, frees_live, frees_nil, List.append_nil]
      refine linked_split (s := ⟨p, some bytes⟩) h0.slots hnew ?_ ?_ ?_ hl ?_
      · simp only [ptrSize] at *
        omega
      · intro hmem
        rcases List.mem_append.mp hmem with hmem | hmem
        · exact absurd hmem hp0.1
        · exact absurd hmem hp0.2
      · simp only [ptrSize] at *
        omega
      · intro x hx
        simpa using hx
    have hstop : nextSlot h1.mem new = nextSlot h.mem p :=
      hs1.nextSlot_eq.trans h0.slots.nextSlot_eq.symm
    have hspaced1 : Spaced ((l ++ [⟨p, some bytes'⟩]) ++ ⟨new, some []⟩ :: r) := by
      have hr := spaced_cons_live.mp hspaced.right
      rw [List.append_assoc, List.singleton_append]
      refine spaced_append hspaced.left (spaced_cons_live.mpr (spaced_cons_live.mpr hr)) ?_
      intro s _ u hu _
      obtain rfl := Option.some.inj hu
      rfl
    refine (free_spec hs1 hl1 hspaced1 (by rw [hstop]; simp only [ptrSize] at *; omega)).mono ?_
    rintro - h2 ⟨ss', ⟨horder, hspaced', harea, -⟩, hlive⟩
    have hothers : ∀ s, s ∈ live l ++ live r ↔ s ∈ live (l ++ ⟨p, some bytes⟩ :: r) ∧ s.start ≠ p :=
      fun s => mem_live_others h0.slots
    refine ⟨live ss', .used ss' ?_ hspaced' rfl ?_, fun s => ?_⟩
    · rw [harea.top]
      exact horder
    · rw [harea.top, harea.brk]
      exact hinside
    · rw [hlive, ← hothers, live_append, live_live, live_nil]
      simp only [List.mem_append, List.mem_singleton, Option.some.injEq]
      constructor
      · rintro ((hs | rfl) | hs)
        · exact .inr (.inl hs)
        · exact .inl rfl
        · exact .inr (.inr hs)
      · rintro (rfl | hs | hs)
        · exact .inl (.inr rfl)
        · exact .inl (.inl hs)
        · exact .inr hs
  · exact hleaves

/-- `free` of a slot that is long enough for a link. -/
theorem free_leaves (h0 : InOrder h (l ++ ⟨p, some bytes⟩ :: r) h.top)
    (hspaced : Spaced (l ++ ⟨p, some bytes⟩ :: r)) (hinside : h.top ≤ h.brk)
    (hlong : p + 2 * ptrSize ≤ nextSlot h.mem p) :
    Succeeds (free p) h fun _ h' => Leaves h' (live (l ++ ⟨p, some bytes⟩ :: r)) p none := by
  have hl : Linked h.mem h.empty (frees l ++ frees r) 0 := by
    have hl := h0.linked
    rw [frees_append, frees_live] at hl
    exact hl
  refine (free_spec h0.slots hl hspaced hlong).mono ?_
  rintro - h' ⟨ss', ⟨horder, hspaced', harea, -⟩, hlive⟩
  refine ⟨live ss', .used ss' ?_ hspaced' rfl ?_, fun s => ?_⟩
  · rw [harea.top]
    exact horder
  · rw [harea.top, harea.brk]
    exact hinside
  · have hothers : s ∈ live l ++ live r ↔ s ∈ live (l ++ ⟨p, some bytes⟩ :: r) ∧ s.start ≠ p :=
      mem_live_others h0.slots
    rw [hlive, hothers]
    simp

/-! ## §4 The Block Is Moved -/

/-- The block is what it was before, or has become `bytes'` at `q`. -/
inductive Resized (L : List Slot) (p : ℤ) (bytes : List UInt8) (size : ℕ) (q : ℤ) (h' : Heap) : Prop where
  | refused (hq : q = 0) (hleaves : Leaves h' L p (some ⟨p, some bytes⟩))
  | done (bytes' : List UInt8) (hq : q ≠ 0) (hnew : q = p ∨ ∀ s ∈ L, s.start ≠ q) (hlen : bytes'.length = size)
    (hkept : bytes'.take (min bytes.length size) = bytes.take (min bytes.length size))
    (hleaves : Leaves h' L p (some ⟨q, some bytes'⟩))

theorem move_spec {size : UInt16} {n : ℕ} (h0 : InOrder h (l ++ ⟨p, some bytes⟩ :: r) h.top)
    (hspaced : Spaced (l ++ ⟨p, some bytes⟩ :: r)) (hinside : h.top ≤ h.brk) (hsize : size ≠ 0)
    (hn : bytes.length ≤ n) (hshort : n + ptrSize ≤ slotLen size.toNat)
    (hok : p + 2 * ptrSize ≤ nextSlot h.mem p ∨ ¬Room h (slotLen size.toNat)) :
    Succeeds (move p n size) h fun q h' =>
      Resized (live (l ++ ⟨p, some bytes⟩ :: r)) p bytes size.toNat q h' := by
  obtain ⟨-, hholds, -⟩ := h0.slots.laid.parts
  have hroom := hholds.room
  have hdata := hholds.data bytes rfl
  simp only [Slot.need] at hroom hdata
  -- `malloc` leaves all that is in the slot alone, not only the bytes that have been asked for
  set k := (nextSlot h.mem p - p - ptrSize).toNat with hk
  have hk' : p + k + ptrSize = nextSlot h.mem p := by
    simp only [ptrSize] at *
    omega
  set full := h.mem.read p k with hfull
  have hfull' : full.length = k := Memory.length_read
  have hbytes : full.take bytes.length = bytes := by
    rw [hfull, Memory.read_take _ _ (by omega), hdata]
  obtain ⟨-, L₁, hready, hmem1⟩ := @leaves_refill _ _ _ _ _ full h0 hspaced hinside _ (fun _ _ => rfl)
    (by rw [hfull']; exact hk'.le) (by rw [hfull'])
  have hin : ⟨p, some full⟩ ∈ L₁ := (hmem1 _).mpr (.inl rfl)
  have hbottom : h.bottom ≠ 0 := by
    have := h0.slots.above
    simp only [ptrSize] at this
    omega
  unfold move
  simp only [wp_bind]
  refine (malloc_spec hready size).mono ?_
  rintro q h2 (⟨rfl, hready2⟩ | ⟨⟨hq, hinside2, l₂, r₂, hgiven⟩, hsize', hlong⟩)
  · -- there is no memory
    rw [if_pos rfl]
    obtain ⟨l₂, r₂, hlive2, horder2, hspaced2, hinside2⟩ := hready2.split hin
    obtain ⟨-, hholds2, -⟩ := horder2.slots.laid.parts
    have hroom2 := hholds2.room
    have hdata2 := hholds2.data full rfl
    simp only [Slot.need] at hroom2 hdata2
    have hkept : h2.mem.read p bytes.length = bytes := by
      rw [← Memory.read_take _ _ (show bytes.length ≤ full.length by omega), hdata2, hbytes]
    obtain ⟨-, hleaves⟩ := leaves_refill horder2 hspaced2 hinside2 (fun _ _ => rfl) (by omega) hkept
    rw [hlive2] at hleaves
    exact .refused rfl (hleaves.of_replaced hmem1)
  · rw [if_neg hq]
    simp only [wp_bind, wp_modify]
    obtain ⟨hfits, hroom1⟩ := hlong hsize
    have hlong' : p + 2 * ptrSize ≤ nextSlot h.mem p := hok.resolve_right fun hno => hno (hroom1 hbottom)
    -- the copy goes to the new slot
    set m₃ := h2.mem.write q (h2.mem.read p n) with hm3
    obtain ⟨hother, L₃, hready3, hL3⟩ := @Given.fill _ _ _ _ _ _ (m₃.read q size.toNat) hgiven hinside2 m₃
      (fun x hx => Memory.write_outside (by
        rw [Memory.length_read]
        simp only [ptrSize] at *
        omega)) (by rw [Memory.length_read]) (by rw [Memory.length_read])
    have hpq : p ≠ q := hother _ hin
    obtain ⟨l₃, r₃, hlive3, horder3, hspaced3, hinside3⟩ := hready3.split ((hL3 _).mpr (.inr hin))
    obtain ⟨-, hholds3, -⟩ := horder3.slots.laid.parts
    have hroom3 := hholds3.room
    simp only [Slot.need, hfull'] at hroom3
    have hend : p + 2 * ptrSize ≤ nextSlot m₃ p := by omega
    refine (free_leaves horder3 hspaced3 hinside3 hend).mono ?_
    rintro - h4 ⟨L₄, hready4, hmem4⟩
    refine .done (m₃.read q size.toNat) hq (.inr fun s hs => ?_) Memory.length_read ?_ ⟨L₄, hready4, fun s => ?_⟩
    · by_cases hsp : s.start = p
      · rw [hsp]
        exact hpq
      · exact hother s ((hmem1 s).mpr (.inr ⟨hs, hsp⟩))
    · -- byte for byte
      obtain ⟨l₂', r₂', -, horder2, -⟩ := (Ready.used _ hgiven.order hgiven.spaced rfl hinside2).split
        (mem_live.mpr (by
          have hin' := hin
          rw [← hgiven.live] at hin'
          exact mem_live.mp ((mem_live_others hgiven.order.slots).mp hin').1))
      obtain ⟨-, hholds2, -⟩ := horder2.slots.laid.parts
      have hdata2 := hholds2.data full rfl
      dsimp only at hdata2
      have hcopy : ∀ i < min bytes.length size.toNat, m₃ (q + i) = h2.mem (p + i) := by
        intro i hi
        have hlt := lt_of_lt_of_le hi (min_le_left _ _)
        exact Memory.copy_apply _ _ _ _ (Int.natCast_nonneg i) (by exact_mod_cast lt_of_lt_of_le hlt hn)
      have hsame : bytes.take (min bytes.length size.toNat) = full.take (min bytes.length size.toNat) := by
        calc bytes.take (min bytes.length size.toNat)
            = (full.take bytes.length).take (min bytes.length size.toNat) := by rw [hbytes]
          _ = full.take (min (min bytes.length size.toNat) bytes.length) := List.take_take
          _ = full.take (min bytes.length size.toNat) := by rw [min_eq_left (min_le_left _ _)]
      rw [Memory.take_read hcopy (min_le_right _ _) (show _ ≤ full.length by omega), hdata2, hsame]
    · rw [hlive3] at hmem4
      rw [hmem4, hL3, hmem1]
      constructor
      · rintro (hs | ⟨hs | hs | hs, hne⟩)
        · cases hs
        · exact .inl hs
        · exact absurd (congrArg Slot.start (Option.some.inj hs).symm) hne
        · exact .inr hs
      · rintro (hs | hs)
        · refine .inr ⟨.inl hs, ?_⟩
          obtain rfl := Option.some.inj hs
          exact hpq.symm
        · exact .inr ⟨.inr (.inr hs), hs.2⟩

/-- The slot is longer than a pointer or is not given back: nothing is asked for, or too much; a free slot
    is behind it; or there is no memory for another one. -/
def MayMove (h : Heap) (p : ℤ) (size : UInt16) : Prop :=
  size = 0 ∨ 65528 < size.toNat ∨ p + 2 * ptrSize ≤ nextSlot h.mem p ∨ OnList h (nextSlot h.mem p) ∨
    ¬Room h (slotLen size.toNat)

theorem realloc_spec {size : UInt16} (h0 : Ready h L) (hin : ⟨p, some bytes⟩ ∈ L) (hok : MayMove h p size) :
    Succeeds (realloc p size) h fun q h' => Resized L p bytes size.toNat q h' := by
  have hself : ∀ s, s ∈ L ↔ some ⟨p, some bytes⟩ = some s ∨ s ∈ L ∧ s.start ≠ p := by
    obtain ⟨l, r, rfl, horder, -⟩ := h0.split hin
    have hothers : ∀ s, s ∈ live l ++ live r ↔ s ∈ live (l ++ ⟨p, some bytes⟩ :: r) ∧ s.start ≠ p :=
      fun s => mem_live_others horder.slots
    intro s
    rw [← hothers, live_append, live_live]
    simp only [List.mem_append, List.mem_cons, Option.some.injEq]
    constructor
    · rintro (hs | rfl | hs)
      · exact .inr (.inl hs)
      · exact .inl rfl
      · exact .inr (.inr hs)
    · rintro (rfl | hs | hs)
      · exact .inr (.inl rfl)
      · exact .inl hs
      · exact .inr (.inr hs)
  unfold realloc
  split
  · exact .refused rfl ⟨L, h0, hself⟩
  next hsmall =>
  have hsize0 : (0 : ℤ) ≤ size.toNat := Int.natCast_nonneg _
  have hsize : (size.toNat : ℤ) ≤ 65528 := by
    simp only [ptrSize] at hsmall
    omega
  obtain ⟨hlen, hneed, hhigh⟩ := slotLen_spec hsize0 hsize
  obtain ⟨l, r, rfl, horder, hspaced, hinside⟩ := h0.split hin
  obtain ⟨hp, hlt, hal, htop, -⟩ := horder.slots.bounds
  have hlimit := horder.slots.limit
  have hptr : ptrSize = 4 := rfl
  dsimp only at hp hlt hal htop
  simp only [wp_bind, wp_get]
  have hloop := @extendLoop_spec _ _ _ _ _ [] _ _ horder hspaced rfl _ (by
    have hall := horder.slots.frees_length
    rw [frees_append, List.length_append] at hall
    exact lt_of_le_of_lt (Nat.le_add_right _ _) hall)
  have hfirst : h.empty = (frees l ++ frees r).headD 0 := by
    rw [horder.linked.head, frees_append, frees_live]
  rw [hfirst]
  refine hloop.mono ?_
  rintro - h1 ⟨r₁, horder1, hspaced1, hlive1, harea1, hgrown, hmerged, hunmerged⟩
  have hlive : live (l ++ ⟨p, some bytes⟩ :: r₁) = live (l ++ ⟨p, some bytes⟩ :: r) := by
    rw [live_append, live_append, live_live, live_live, hlive1]
  have horder1' : InOrder h1 (l ++ ⟨p, some bytes⟩ :: r₁) h1.top := by
    rw [harea1.top]
    exact horder1
  have hinside1 : h1.top ≤ h1.brk := by
    rw [harea1.top, harea1.brk]
    exact hinside
  obtain ⟨-, hholds1, -⟩ := horder1.slots.laid.parts
  have hroom1 := hholds1.room
  have hdata1 := hholds1.data bytes rfl
  simp only [Slot.need] at hroom1 hdata1
  have hplus : plus p (slotLen size.toNat) = p + slotLen size.toNat := by
    simp only [ptrSize, addressLimit] at *
    exact plus_eq (by omega) (by omega) (by omega)
  simp only [hplus]
  split
  · next hfits =>
    -- the old slot is used
    have hpal : 4 ∣ p := hholds1.aligned
    have hread : (h1.mem.read p size.toNat).length = size.toNat := Memory.length_read
    simp only [wp_bind, wp_pure]
    refine (@shrink_spec _ _ _ _ _ _ (h1.mem.read p size.toNat) horder1' hspaced1 hinside1
      (dvd_add hpal hlen) (by rw [hread]; omega) hfits.1 (by rw [hread])).mono ?_
    rintro - h2 hleaves
    rw [hlive] at hleaves
    have hp0 : p ≠ 0 := by
      simp only [ptrSize] at hp
      omega
    refine .done _ hp0 (.inl rfl) hread ?_ hleaves
    have hold : bytes.take (min bytes.length size.toNat) =
        (h1.mem.read p bytes.length).take (min bytes.length size.toNat) := by rw [hdata1]
    rw [hold]
    exact Memory.take_read (fun _ _ => rfl) (min_le_right _ _) (min_le_left _ _)
  · next hmoves =>
    have hne : size ≠ 0 := by
      rintro rfl
      have hshort : slotLen ((0 : UInt16).toNat) = ptrSize := by decide
      rw [hshort] at hmoves
      exact hmoves ⟨by omega, by omega⟩
    have hslot : (nextSlot h.mem p - p) % 2 ^ 16 = nextSlot h.mem p - p :=
      Int.emod_eq_of_lt (by omega) (by omega)
    have hpal := (horder.slots.laid.within (s := ⟨p, some bytes⟩) (by simp)).2.2
    have hroom := hpal.room
    have hpal' := hpal.aligned
    simp only [Slot.need] at hroom hpal'
    -- the new slot is longer than the old one, by a pointer at least
    have hshort : ((nextSlot h.mem p - p).toNat : ℤ) + ptrSize ≤ slotLen size.toNat := by
      simp only [ptrSize] at *
      omega
    rw [hslot, ← hlive]
    refine move_spec horder1' hspaced1 hinside1 hne (by omega) hshort ?_
    by_cases hfree : nextSlot h.mem p ∈ frees r
    · exact .inl (hmerged hfree)
    · obtain rfl := hunmerged hfree
      rcases hok with hzero | hbig | hlong | ⟨fs, hfs, hmem⟩ | hnone
      · exact absurd hzero hne
      · omega
      · exact .inl hlong
      · -- the only list of free slots is that of the slots
        obtain rfl := Chain.unique hfs horder.linked
        rw [frees_append, frees_live] at hmem
        rcases List.mem_append.mp hmem with hmem | hmem
        · have := horder.slots.lt_of_mem_left hmem
          simp only [ptrSize] at *
          omega
        · exact absurd hmem hfree
      · exact .inr hnone

end LisaMinix.Libc.Malloc
