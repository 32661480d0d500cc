import LisaMinix.Libc.MallocSteps

/-!
# What the Functions of the Heap Do

`malloc` in its steps, and `realloc` and `calloc` which use it.

- `Ready`: the heap between two calls, with what programs have in it.
- `malloc_spec`: a slot of the length that is asked for, or nothing.
- `realloc_spec`: the block has the new size and begins with what was in it, or nothing has happened to it.
-/

namespace LisaMinix.Libc.Malloc

open LisaMinix.Library

variable {h h' : Heap} {ss l r L : List Slot} {p t v new len : ℤ} {fl fs : List ℤ} {bytes : List UInt8}

/-! ## §1 Lengths -/

theorem align_spec {w : ℕ} {x a : ℤ} (ha : 0 < a) (hx : 0 ≤ x) (hw : x + a ≤ 2 ^ w) :
    x ≤ align w x a ∧ align w x a < x + a ∧ a ∣ align w x a := by
  have hmod : (x + (a - 1)) % 2 ^ w = x + (a - 1) := Int.emod_eq_of_lt (by omega) (by omega)
  unfold align
  rw [hmod]
  have hdiv := Int.mul_ediv_add_emod (x + (a - 1)) a
  have hlow := Int.emod_nonneg (x + (a - 1)) ha.ne'
  have hhigh := Int.emod_lt_of_pos (x + (a - 1)) ha
  rw [mul_comm a] at hdiv
  exact ⟨by omega, by omega, Dvd.intro_left _ rfl⟩

theorem plus_eq (h0 : 0 ≤ p) (hlen : 0 ≤ len) (hp : p + len < 2 ^ 32) : plus p len = p + len :=
  Int.emod_eq_of_lt (by omega) hp

/-- The length of a slot for `size` bytes. -/
theorem slotLen_spec {size : ℤ} (h0 : 0 ≤ size) (hsize : size ≤ 65528) :
    4 ∣ slotLen size ∧ size + ptrSize ≤ slotLen size ∧ slotLen size ≤ 65532 := by
  unfold slotLen align ptrSize
  omega

theorem slotLen_overflow {size : ℤ} (hsize : 65528 < size) (hlt : size < 65536) :
    slotLen size < 2 * ptrSize := by
  unfold slotLen align ptrSize
  omega

/-! ## §2 First Fit -/

/-- The slot `p` has been handed out; programs have `L` besides. -/
structure Given (h : Heap) (L : List Slot) (t p len : ℤ) (l r : List Slot) : Prop where
  order : InOrder h (l ++ ⟨p, some []⟩ :: r) t
  spaced : Spaced (l ++ ⟨p, some []⟩ :: r)
  live : live l ++ live r = L
  room : p + len ≤ nextSlot h.mem p

theorem splitFree_spec (h0 : InOrder h (l ++ ⟨p, none⟩ :: r) t) (hspaced : Spaced (⟨p, none⟩ :: r))
    (hnew : 4 ∣ new) (hlow : p + 2 * ptrSize ≤ new) (hhigh : new ≤ nextSlot h.mem p) :
    Succeeds (splitFree p new) h fun _ h' => ∃ r', InOrder h' (l ++ ⟨p, none⟩ :: r') t ∧ Spaced r' ∧
      live r' = live r ∧ new ≤ nextSlot h'.mem p ∧ SameArea h h' := by
  obtain ⟨hp, hlt, hal, htop, -⟩ := h0.slots.bounds
  have hlimit := h0.slots.limit
  dsimp only at *
  have hplus : plus new ptrSize = new + ptrSize := by
    simp only [ptrSize, addressLimit] at *
    exact plus_eq (by omega) (by decide) (by omega)
  obtain ⟨hhead, hr⟩ := spaced_cons_free.mp hspaced
  unfold splitFree
  simp only [wp_bind, wp_get, hplus]
  split
  · next hbig =>
    simp only [wp_bind]
    refine succeeds_assert (by rw [hplus]; unfold ptrSize; omega) ?_
    simp only [wp_modify]
    have hroom : new + 2 * ptrSize ≤ nextSlot h.mem p := by
      simp only [ptrSize] at *
      omega
    have hsplit := split_free h0 hnew hlow hroom
    refine ⟨⟨new, none⟩ :: r, hsplit, spaced_cons_free.mpr ⟨hhead, hr⟩, rfl, ?_, ?_⟩
    · exact hsplit.slots.nextSlot_eq.ge
    · exact ⟨rfl, rfl, rfl, rfl⟩
  · exact ⟨r, h0, hr, rfl, hhigh, .refl h⟩

/-- The first free slot that is long enough is handed out. -/
theorem findFit_spec (h0 : InOrder h ss t) (hspaced : Spaced ss) (hlen : 4 ∣ len) (hlow : 2 * ptrSize ≤ len)
    (hhigh : len < 2 ^ 16) (hfs : frees ss = fl ++ fs) {n : ℕ} (hn : fs.length < n) :
    Succeeds (findFit len n (fl.getLastD 0) (fs.headD 0)) h fun p h' =>
      (p = 0 ∧ h' = h ∧ ∀ x ∈ fs, nextSlot h.mem x < x + len) ∨
        p ≠ 0 ∧ (p ∈ fs ∧ p + len ≤ nextSlot h.mem p) ∧ SameArea h h' ∧
          ∃ l r, Given h' (live ss) t p len l r := by
  induction n generalizing fl fs with
  | zero => omega
  | succ n ih =>
    unfold findFit
    cases fs with
    | nil =>
      rw [List.headD_nil, if_pos rfl]
      exact .inl ⟨rfl, rfl, by simp⟩
    | cons x fs =>
      have hx : x ∈ frees ss := by simp [hfs]
      have hx0 := h0.slots.free_ne_zero hx
      obtain ⟨hlow', hx4, hroom, htop, -⟩ := h0.slots.free_bounds hx
      have hlimit := h0.slots.limit
      have hplus : plus x len = x + len := by
        simp only [ptrSize, addressLimit] at *
        exact plus_eq (by omega) (by omega) (by omega)
      rw [List.headD_cons, if_neg hx0]
      simp only [wp_bind, wp_get, hplus]
      split
      · next hsmall =>
        -- too small
        have hsmall' : nextSlot h.mem x < x + len := by
          simp only [ptrSize] at *
          omega
        have hnext : nextFree h.mem x = fs.headD 0 := by
          have hl := h0.linked
          rw [hfs] at hl
          obtain ⟨mid, -, -, hback⟩ := seg_append.mp hl
          exact Linked.head hback
        have hrec := @ih (fl ++ [x]) fs (by simpa using hfs) (by simpa using hn)
        rw [List.getLastD_concat] at hrec
        rw [hnext]
        refine hrec.mono ?_
        rintro p h' (⟨hp, hh, hall⟩ | ⟨hp, ⟨hmem, hfit⟩, hrest⟩)
        · refine .inl ⟨hp, hh, fun y hy => ?_⟩
          rcases List.mem_cons.mp hy with rfl | hy
          · exact hsmall'
          · exact hall y hy
        · exact .inr ⟨hp, ⟨List.mem_cons_of_mem _ hmem, hfit⟩, hrest⟩
      · next hfits =>
        obtain ⟨l, r, rfl, hfl, hfr⟩ := frees_split hfs
        have hfit : x + len ≤ nextSlot h.mem x := by omega
        have hright := hspaced.right
        simp only [wp_bind]
        refine (splitFree_spec h0 hright (by omega) (by omega) hfit).mono ?_
        rintro - h1 ⟨r', horder, hspaced', hlive, hend, harea⟩
        simp only [wp_modify, wp_pure]
        refine .inr ⟨hx0, ⟨List.mem_cons_self, hfit⟩, harea.trans (sameArea_setLink h1 _ _), l, r', ?_⟩
        have hleft := mem_frees_left (l := l) x none r'
        have hunlinked := @linked_unlink _ _ x _ _ (frees r') horder.slots hleft ?_ hx0 ?_
        rw [← hfl]
        have hslots := slots_setLink horder.slots hleft (nextFree h1.mem x)
        have hstop : nextSlot (h1.setLink ((frees l).getLastD 0) (nextFree h1.mem x)).mem x =
            nextSlot h1.mem x := hslots.nextSlot_eq.trans horder.slots.nextSlot_eq.symm
        refine ⟨⟨?_, by simpa using hunlinked⟩, ?_, by rw [hlive]; simp, ?_⟩
        · refine hslots.refill (s := ⟨x, none⟩) (fun _ _ => rfl) ?_ ?_
          · simp only [Slot.need, ptrSize, List.length_nil] at *
            omega
          · intro bytes hbytes
            obtain rfl := Option.some.inj hbytes
            rfl
        · refine spaced_append hspaced.left (spaced_cons_live.mpr hspaced') ?_
          intro s _ u hu _
          obtain rfl := Option.some.inj hu
          rfl
        · rw [hstop]
          exact hend
        · intro y hy
          have hy' := mem_frees_right (r := r') x none l y hy
          exact ⟨(horder.slots.free_bounds hy').2.1, horder.slots.free_ne_zero hy'⟩
        · simpa using horder.linked

/-! ## §3 `malloc` -/

/-- The heap between two calls: programs have `L`. -/
inductive Ready (h : Heap) (L : List Slot) : Prop where
  | unused (hbottom : h.bottom = 0) (hempty : h.empty = 0) (hbrk : 0 ≤ h.brk) (hlive : L = [])
  | used (ss : List Slot) (order : InOrder h ss h.top) (spaced : Spaced ss) (live : live ss = L)
    (inside : h.top ≤ h.brk)

/-- Nothing but the answers of `brk` is changed. -/
structure Idle (h h' : Heap) : Prop where
  mem : h'.mem = h.mem
  bottom : h'.bottom = h.bottom
  top : h'.top = h.top
  empty : h'.empty = h.empty
  brk : h'.brk = h.brk

theorem Idle.inOrder (hi : Idle h h') (h0 : InOrder h ss t) : InOrder h' ss t := by
  obtain ⟨hs, hl⟩ := h0
  refine ⟨?_, ?_⟩
  · rw [hi.mem, hi.bottom]
    exact hs
  · rw [hi.mem, hi.empty]
    exact hl

theorem Idle.ready (hi : Idle h h') (h0 : Ready h L) : Ready h' L := by
  cases h0 with
  | unused hbottom hempty hbrk hlive =>
    exact .unused (hi.bottom.trans hbottom) (hi.empty.trans hempty) (hi.brk.symm ▸ hbrk) hlive
  | used ss order spaced live inside =>
    exact .used ss (hi.top.symm ▸ hi.inOrder order) spaced live (by rw [hi.top, hi.brk]; exact inside)

theorem sysBrk_spec (h : Heap) (p : ℤ) :
    Succeeds (sysBrk p) h fun granted h' =>
      (granted = false ∧ Idle h h') ∨
        granted = true ∧ h.grants 0 = true ∧ p ≤ addressLimit ∧ h' = { h with brk := p, grants := h'.grants } := by
  unfold sysBrk
  simp only [wp_bind, wp_get, wp_set, wp_pure]
  cases hgranted : h.grants 0 && decide (p ≤ addressLimit) with
  | false => exact .inl ⟨rfl, ⟨rfl, rfl, rfl, rfl, rfl⟩⟩
  | true =>
    rw [Bool.and_eq_true, decide_eq_true_iff] at hgranted
    exact .inr ⟨rfl, hgranted.1, hgranted.2, rfl⟩

theorem initHeap_spec (hempty : h.empty = 0) (hbrk : 0 ≤ h.brk) :
    Succeeds initHeap h fun granted h' =>
      (granted = false ∧ Idle h h') ∨ granted = true ∧ InOrder h' [] h'.top ∧ h'.top ≤ h'.brk := by
  unfold initHeap
  simp only [wp_bind, wp_get]
  refine (sysBrk_spec h _).mono ?_
  rintro granted h1 (⟨rfl, hidle⟩ | ⟨rfl, -, hlimit, hh1⟩)
  · exact .inl ⟨rfl, hidle⟩
  · simp only [ptrSize, addressLimit] at hlimit
    obtain ⟨hlow, hhigh, hal⟩ := align_spec (w := 32) (x := h.brk) (a := ptrSize) (by decide) hbrk
      (by simp only [ptrSize]; omega)
    set p := align 32 h.brk ptrSize with hp
    have hplus : plus p ptrSize = p + ptrSize := by
      simp only [ptrSize] at *
      exact plus_eq (by omega) (by decide) (by omega)
    rw [if_pos rfl]
    simp only [wp_bind]
    refine succeeds_assert (by rw [hplus]; unfold ptrSize; omega) ?_
    simp only [wp_modify, wp_pure, hplus]
    refine .inr ⟨trivial, ⟨⟨rfl, nextSlot_store le_rfl (by norm_num), ?_, ?_, ?_⟩, ?_⟩, ?_⟩
    · simp only [Heap.setNextSlot, ptrSize] at *
      omega
    · simp only [Heap.setNextSlot, ptrSize] at *
      omega
    · simp only [Heap.setNextSlot, ptrSize, addressLimit] at *
      omega
    · rw [Heap.setNextSlot, hh1]
      exact ptr_eq_none.mpr hempty
    · rw [Heap.setNextSlot, hh1]
      simp only [ptrSize] at *
      omega

/-- The area grows by a free slot of the length that is asked for, at least. -/
theorem grow_spec (h0 : InOrder h ss h.top) (hspaced : Spaced ss) (hlow : 2 * ptrSize ≤ len)
    (hhigh : len < 2 ^ 16) :
    Succeeds (grow len) h fun granted h' => (granted = false ∧ Idle h h') ∨
      granted = true ∧ (h.grants 0 = true ∧ align 32 (h.top + len) brkSize ≤ addressLimit) ∧
        ∃ ss', InOrder h' ss' h'.top ∧ Spaced ss' ∧ live ss' = live ss ∧ h'.top ≤ h'.brk ∧
          ∃ q ∈ frees ss', q + len ≤ nextSlot h'.mem q := by
  have habove := h0.slots.above
  have hle := h0.slots.laid.le
  have hlimit := h0.slots.limit
  have htop : 0 ≤ h.top := by
    simp only [ptrSize] at *
    omega
  obtain ⟨hlow', hhigh', hal⟩ := align_spec (w := 32) (x := h.top + len) (a := brkSize) (by decide)
    (by simp only [ptrSize] at *; omega) (by simp only [brkSize, addressLimit] at *; omega)
  unfold grow
  simp only [wp_bind, wp_get]
  refine succeeds_assert h0.slots.last ?_
  set p := align 32 (h.top + len) brkSize with hp
  rw [if_neg (by simp only [ptrSize] at *; omega)]
  simp only [wp_bind]
  refine (sysBrk_spec h p).mono ?_
  rintro granted h1 (⟨rfl, hidle⟩ | ⟨rfl, hgrant, hlimit', hh1⟩)
  · exact .inl ⟨rfl, hidle⟩
  · rw [if_pos rfl]
    have htop1 : h1.top = h.top := by rw [hh1]
    simp only [wp_bind, wp_modify, htop1]
    set h2 := (h1.setNextSlot h.top p).setNextSlot p 0 with hh2
    have hmem : h1.mem = h.mem := by rw [hh1]
    have hp4 : 4 ∣ p := dvd_trans (by decide) hal
    have hext := h0.slots.extend hp4 (by simp only [ptrSize] at *; omega) hlimit'
    have hs2 : Slots h2.mem h2.bottom (ss ++ [⟨h.top, some []⟩]) p := by
      rw [hh2, Heap.setNextSlot, Heap.setNextSlot, hh1]
      exact hext
    have hl2 : Linked h2.mem h2.empty (frees ss ++ frees []) 0 := by
      rw [hh2, Heap.setNextSlot, Heap.setNextSlot, hh1, frees_nil, List.append_nil]
      refine h0.linked.congr fun x hx => ?_
      have hx4 := (h0.slots.free_bounds hx).2.1
      have hx1 := (h0.slots.free_bounds hx).2.2
      have hal' := h0.slots.aligned
      rw [link_store_of_ne hx4 (by unfold ptrSize; omega) (by simp only [ptrSize] at *; omega),
        link_store_of_ne hx4 (by unfold ptrSize; omega) (h0.slots.free_ne_last hx)]
    have hstop : nextSlot h2.mem h.top = p := hs2.nextSlot_eq
    have hspaced2 : Spaced (ss ++ [⟨h.top, some []⟩]) := by
      refine spaced_append hspaced (List.isChain_singleton _) ?_
      intro s _ u hu _
      obtain rfl := Option.some.inj hu
      rfl
    refine (free_spec hs2 hl2 hspaced2 (by rw [hstop]; simp only [ptrSize] at *; omega)).mono ?_
    rintro - h3 ⟨ss', ⟨horder, hspaced', harea, q, hq, hqp, hend⟩, hlive⟩
    simp only [wp_pure]
    refine .inr ⟨trivial, ⟨hgrant, hlimit'⟩, ss', ⟨horder.slots, horder.linked⟩, hspaced',
      by simpa using hlive, ?_, q, hq, ?_⟩
    · have hbrk := harea.brk
      rw [hh2, Heap.setNextSlot, Heap.setNextSlot, hh1] at hbrk
      exact hbrk.ge
    · rw [hstop] at hend
      omega

/-- `q` is on the list of free slots. -/
def OnList (h : Heap) (q : ℤ) : Prop := ∃ fs, Linked h.mem h.empty fs 0 ∧ q ∈ fs

/-- There is a free slot of that length, or `brk` gives more memory. -/
def Room (h : Heap) (len : ℤ) : Prop :=
  (∃ q, OnList h q ∧ q + len ≤ nextSlot h.mem q) ∨
    h.grants 0 = true ∧ align 32 (h.top + len) brkSize ≤ addressLimit

section Loop

variable (hlen : 4 ∣ len) (hlow : 2 * ptrSize ≤ len) (hhigh : len < 2 ^ 16)

include hlen hlow hhigh

/-- With a free slot that is long enough the loop ends at once. -/
theorem mallocLoop_found (h0 : InOrder h ss h.top) (hspaced : Spaced ss) (hinside : h.top ≤ h.brk)
    (hfound : ∃ q ∈ frees ss, q + len ≤ nextSlot h.mem q) (tries : ℕ) :
    Succeeds (mallocLoop len (tries + 1)) h fun p h' => p ≠ 0 ∧ h'.top ≤ h'.brk ∧
      ∃ l r, Given h' (live ss) h'.top p len l r := by
  have hbottom : h.bottom ≠ 0 := by
    have := h0.slots.above
    simp only [ptrSize] at this
    omega
  obtain ⟨q, hq, hfit⟩ := hfound
  unfold mallocLoop
  rw [if_neg (by omega)]
  simp only [wp_bind, wp_get]
  rw [if_neg hbottom]
  simp only [wp_pure, if_true, wp_bind, wp_get]
  have hfind := findFit_spec h0 hspaced hlen hlow hhigh (List.nil_append (frees ss)).symm h0.slots.frees_length
  rw [← h0.linked.head] at hfind
  refine hfind.mono ?_
  rintro p h' (⟨-, -, hall⟩ | ⟨hp, -, harea, l, r, hgiven⟩)
  · have hsmall := hall q hq
    omega
  · rw [if_pos hp]
    refine ⟨hp, ?_, l, r, ?_⟩
    · rw [harea.top, harea.brk]
      exact hinside
    · rw [harea.top]
      exact hgiven

theorem mallocLoop_used (h0 : InOrder h ss h.top) (hspaced : Spaced ss) (hinside : h.top ≤ h.brk) (tries : ℕ) :
    Succeeds (mallocLoop len (tries + 2)) h fun p h' =>
      (p = 0 ∧ Ready h' (live ss)) ∨
        p ≠ 0 ∧ Room h len ∧ h'.top ≤ h'.brk ∧ ∃ l r, Given h' (live ss) h'.top p len l r := by
  have hbottom : h.bottom ≠ 0 := by
    have := h0.slots.above
    simp only [ptrSize] at this
    omega
  unfold mallocLoop
  rw [if_neg (by omega)]
  simp only [wp_bind, wp_get]
  rw [if_neg hbottom]
  simp only [wp_pure, if_true, wp_bind, wp_get]
  have hfind := findFit_spec h0 hspaced hlen hlow hhigh (List.nil_append (frees ss)).symm h0.slots.frees_length
  rw [← h0.linked.head] at hfind
  refine hfind.mono ?_
  rintro p h1 (⟨rfl, rfl, -⟩ | ⟨hp, ⟨hmem, hfit⟩, harea, l, r, hgiven⟩)
  · rw [if_neg (by simp)]
    simp only [wp_bind]
    refine (grow_spec h0 hspaced hlow hhigh).mono ?_
    rintro granted h2 (⟨rfl, hidle⟩ | ⟨rfl, hroom, ss', horder, hspaced', hlive, hinside', hfound⟩)
    · refine .inl ⟨rfl, hidle.ready (.used ss h0 hspaced rfl hinside)⟩
    · rw [if_pos rfl, ← hlive]
      refine (mallocLoop_found hlen hlow hhigh horder hspaced' hinside' hfound tries).mono ?_
      rintro p h3 ⟨hp, hinside'', hgiven⟩
      exact .inr ⟨hp, .inr hroom, hinside'', hgiven⟩
  · rw [if_pos hp]
    refine .inr ⟨hp, .inl ⟨p, ⟨frees ss, h0.linked, hmem⟩, hfit⟩, ?_, l, r, ?_⟩
    · rw [harea.top, harea.brk]
      exact hinside
    · rw [harea.top]
      exact hgiven

end Loop

/-- What `malloc` returns for a length: a slot that has it, or 0. -/
structure Allocated (h' : Heap) (L : List Slot) (p len : ℤ) : Prop where
  ne_zero : p ≠ 0
  inside : h'.top ≤ h'.brk
  given : ∃ l r, Given h' L h'.top p len l r

theorem mallocLoop_spec (hlen : 4 ∣ len) (hhigh : len < 2 ^ 16) (h0 : Ready h L) :
    Succeeds (mallocLoop len 2) h fun p h' => (p = 0 ∧ Ready h' L) ∨
      Allocated h' L p len ∧ 2 * ptrSize ≤ len ∧ (h.bottom ≠ 0 → Room h len) := by
  rcases lt_or_ge len (2 * ptrSize) with hshort | hlow
  · unfold mallocLoop
    rw [if_pos hshort]
    exact .inl ⟨rfl, h0⟩
  cases h0 with
  | used ss order spaced hlive inside =>
    obtain rfl := hlive
    refine (mallocLoop_used hlen hlow hhigh order spaced inside 0).mono ?_
    rintro p h' (hnone | ⟨hp, hroom, hinside, hgiven⟩)
    · exact .inl hnone
    · exact .inr ⟨⟨hp, hinside, hgiven⟩, hlow, fun _ => hroom⟩
  | unused hbottom hempty hbrk hlive =>
    obtain rfl := hlive
    unfold mallocLoop
    rw [if_neg (by omega)]
    simp only [wp_bind, wp_get]
    rw [if_pos hbottom, wp_bind]
    refine (initHeap_spec hempty hbrk).mono ?_
    rintro granted h1 (⟨rfl, hidle⟩ | ⟨rfl, horder, hinside⟩)
    · exact .inl ⟨rfl, hidle.ready (.unused hbottom hempty hbrk rfl)⟩
    · rw [if_pos rfl]
      simp only [wp_bind, wp_get]
      have hzero : h1.empty = 0 := horder.linked.head
      -- the list is empty, so that the area grows at once
      have hfind : Succeeds (findFit len pointers 0 h1.empty) h1 fun p h' => p = 0 ∧ h' = h1 := by
        rw [hzero, show pointers = (2 ^ 32 - 1) + 1 by decide]
        unfold findFit
        rw [if_pos rfl]
        exact ⟨rfl, rfl⟩
      refine hfind.mono ?_
      rintro p h2 ⟨rfl, rfl⟩
      rw [if_neg (by simp)]
      simp only [wp_bind]
      refine (grow_spec horder .nil hlow hhigh).mono ?_
      rintro granted h3 (⟨rfl, hidle⟩ | ⟨rfl, -, ss', horder', hspaced', hlive, hinside', hfound⟩)
      · exact .inl ⟨rfl, hidle.ready (.used [] horder .nil rfl hinside)⟩
      · rw [if_pos rfl]
        refine (mallocLoop_found hlen hlow hhigh horder' hspaced' hinside' hfound 0).mono ?_
        rintro p h4 ⟨hp, hinside'', hgiven⟩
        rw [hlive] at hgiven
        exact .inr ⟨⟨hp, hinside'', hgiven⟩, hlow, fun hne => absurd hbottom hne⟩

/-- The slot has room for what is asked for; with no more than 65528 bytes it is as long as `realloc`
    would have it. -/
theorem malloc_spec (h0 : Ready h L) (size : UInt16) :
    Succeeds (malloc size) h fun p h' => (p = 0 ∧ Ready h' L) ∨
      Allocated h' L p (size.toNat + ptrSize) ∧ size.toNat ≤ 65528 ∧
        (size ≠ 0 → slotLen size.toNat ≤ nextSlot h'.mem p - p ∧
          (h.bottom ≠ 0 → Room h (slotLen size.toNat))) := by
  have hsize : (size.toNat : ℤ) < 65536 := by exact_mod_cast size.toNat_lt
  have hsize0 : (0 : ℤ) ≤ size.toNat := Int.natCast_nonneg _
  unfold malloc
  rcases le_or_gt (size.toNat : ℤ) 65528 with hle | hgt
  · set size' : ℤ := if size = 0 then ptrSize else size.toNat with hsize'
    have hbounds : 0 ≤ size' ∧ size' ≤ 65528 ∧ (size.toNat : ℤ) ≤ size' := by
      rw [hsize']
      split
      · next hzero => simp [hzero, ptrSize]
      · exact ⟨hsize0, hle, le_rfl⟩
    obtain ⟨hlen, hneed, hhigh⟩ := slotLen_spec hbounds.1 hbounds.2.1
    refine (mallocLoop_spec hlen (lt_of_le_of_lt hhigh (by norm_num)) h0).mono ?_
    rintro p h' (hnone | ⟨⟨hp, hinside, l, r, hgiven⟩, -, hroom⟩)
    · exact .inl hnone
    · have hgiven' : Given h' L h'.top p (size.toNat + ptrSize) l r :=
        ⟨hgiven.order, hgiven.spaced, hgiven.live, by have := hgiven.room; omega⟩
      refine .inr ⟨⟨hp, hinside, l, r, hgiven'⟩, by exact_mod_cast hle, fun hne => ?_⟩
      rw [if_neg hne] at hsize'
      have hfits := hgiven.room
      rw [hsize'] at hfits hroom
      exact ⟨by omega, hroom⟩
  · have hne : size ≠ 0 := by
      rintro rfl
      exact absurd hgt (by decide)
    have hshort := slotLen_overflow hgt hsize
    rw [if_neg hne]
    unfold mallocLoop
    rw [if_pos hshort]
    exact .inl ⟨rfl, h0⟩

end LisaMinix.Libc.Malloc
