import LisaMinix.Libc.MallocSlots

/-!
# What the Parts of the Heap's Functions Do

The list of free slots and the slots of the area under the stores of `malloc.c`, and the loops over the
list.

- `InOrder`: the slots are in place, and the list is that of the free ones.
- `link_in`, `unlink`, `merge`, `split_free`: the edits.
- `free_spec`: a slot that is long enough for a link becomes free, and no two free slots lie side by side.
-/

namespace LisaMinix.Libc.Malloc

open LisaMinix.Library

/-! ## §1 Edits -/

/-- The slots up to `t` are in place, and the free ones are on the list. -/
structure InOrder (h : Heap) (ss : List Slot) (t : ℤ) : Prop where
  slots : Slots h.mem h.bottom ss t
  linked : Linked h.mem h.empty (frees ss) 0

/-- Nothing but the memory and the list of free slots is changed. -/
structure SameArea (h h' : Heap) : Prop where
  bottom : h'.bottom = h.bottom
  top : h'.top = h.top
  brk : h'.brk = h.brk
  grants : h'.grants = h.grants

variable {h h' h'' : Heap} {m : Memory} {ss l r : List Slot} {s : Slot} {p q t v new : ℤ} {fl fr fs : List ℤ}
  {bytes : List UInt8}

theorem SameArea.refl (h : Heap) : SameArea h h := ⟨rfl, rfl, rfl, rfl⟩

theorem SameArea.trans (h1 : SameArea h h') (h2 : SameArea h' h'') : SameArea h h'' :=
  ⟨h2.1.trans h1.1, h2.2.trans h1.2, h2.3.trans h1.3, h2.4.trans h1.4⟩

theorem sameArea_setNextSlot (h : Heap) (p v : ℤ) : SameArea h (h.setNextSlot p v) := ⟨rfl, rfl, rfl, rfl⟩

theorem sameArea_setNextFree (h : Heap) (p v : ℤ) : SameArea h (h.setNextFree p v) := ⟨rfl, rfl, rfl, rfl⟩

theorem sameArea_setLink (h : Heap) (p v : ℤ) : SameArea h (h.setLink p v) := by
  unfold Heap.setLink
  split <;> exact ⟨rfl, rfl, rfl, rfl⟩

theorem nextFree_bounds (m : Memory) (p : ℤ) : 0 ≤ nextFree m p ∧ nextFree m p < 2 ^ 32 := by
  have := Memory.long_lt m p
  unfold nextFree
  omega

/-- A link is in the user part of its slot. -/
theorem slots_setNextFree (hs : Slots h.mem h.bottom ss t) (hp : p ∈ frees ss) (v : ℤ) :
    Slots (h.setNextFree p v).mem h.bottom ss t := by
  obtain ⟨l, r, rfl⟩ := List.append_of_mem (mem_frees.mp hp)
  obtain ⟨-, -, hroom, -, -⟩ := hs.free_bounds hp
  have hneed : p + (⟨p, none⟩ : Slot).need + ptrSize ≤ nextSlot h.mem p := by
    simp only [Slot.need, ptrSize] at hroom ⊢
    omega
  refine hs.refill ?_ hneed (by simp)
  intro x hx
  apply store_outside
  simp only [Slot.need] at hneed hx
  omega

theorem slots_setLink (hs : Slots h.mem h.bottom ss t) (hfl : ∀ x ∈ fl, x ∈ frees ss) (v : ℤ) :
    Slots (h.setLink (fl.getLastD 0) v).mem (h.setLink (fl.getLastD 0) v).bottom ss t := by
  unfold Heap.setLink
  split
  · next hne =>
    rcases List.eq_nil_or_concat' fl with rfl | ⟨fl, x, rfl⟩
    · exact absurd rfl hne
    · rw [List.getLastD_concat]
      exact slots_setNextFree hs (hfl x (by simp)) v
  · exact hs

/-- The end of a part of the list is redirected. -/
theorem linked_setLink (hs : Slots h.mem h.bottom ss t) (hfl : ∀ x ∈ fl, x ∈ frees ss) (hnd : fl.Nodup)
    (hl : Linked h.mem h.empty fl q) (h0 : 0 ≤ v) (hv : v < 2 ^ 32) :
    Linked (h.setLink (fl.getLastD 0) v).mem (h.setLink (fl.getLastD 0) v).empty fl v := by
  rcases List.eq_nil_or_concat' fl with rfl | ⟨fl, x, rfl⟩
  · rfl
  · have hx : x ∈ frees ss := hfl x (by simp)
    have hlast : x ∉ fl := by
      intro hmem
      exact (List.nodup_append.mp hnd).2.2 x hmem x (by simp) rfl
    rw [List.getLastD_concat]
    unfold Heap.setLink
    rw [if_pos (hs.free_ne_zero hx)]
    obtain ⟨hinit, -⟩ := seg_snoc.mp hl
    refine seg_snoc.mpr ⟨hinit.congr fun y hy => ?_, ?_⟩
    · have hy' := hs.free_bounds (hfl y (by simp [hy]))
      exact link_store_of_ne hy'.2.1 (hs.free_bounds hx).2.1 (ne_of_mem_of_not_mem hy hlast)
    · unfold link
      rw [Heap.setNextFree, nextFree_store h0 hv]

theorem link_setLink_of_notMem {y : ℤ} (hs : Slots h.mem h.bottom ss t) (hfl : ∀ x ∈ fl, x ∈ frees ss)
    (hy : 4 ∣ y) (hne : y ∉ fl) (v : ℤ) : link (h.setLink (fl.getLastD 0) v).mem y = link h.mem y := by
  rcases List.eq_nil_or_concat' fl with rfl | ⟨fl, x, rfl⟩
  · rfl
  · have hx : x ∈ frees ss := hfl x (by simp)
    rw [List.getLastD_concat]
    unfold Heap.setLink
    rw [if_pos (hs.free_ne_zero hx)]
    exact link_store_of_ne hy (hs.free_bounds hx).2.1 fun heq => hne (by simp [heq])

theorem frees_nodup_parts (hs : Slots h.mem h.bottom (l ++ s :: r) t) :
    (∀ x ∈ frees l, x ∉ frees r) ∧ s.start ∉ frees l ∧ s.start ∉ frees r := by
  have hnext := (hs.bounds).2.1
  refine ⟨fun x hl hr => ?_, fun hl => ?_, fun hr => ?_⟩
  · have h1 := hs.lt_of_mem_left hl
    have h2 := hs.le_of_mem_right hr
    simp only [ptrSize] at *
    omega
  · have h1 := hs.lt_of_mem_left hl
    simp only [ptrSize] at *
    omega
  · have h2 := hs.le_of_mem_right hr
    simp only [ptrSize] at *
    omega

/-- The free slots are in ascending order. -/
theorem Laid.frees_sorted {a b : ℤ} (h : Laid m a ss b) : (frees ss).Pairwise (· < ·) := by
  induction ss generalizing a with
  | nil => exact List.Pairwise.nil
  | cons s ss ih =>
    obtain ⟨rfl, hs, hrest⟩ := h
    have hrec := ih hrest
    obtain ⟨start, data⟩ := s
    cases data with
    | some bytes => exact hrec
    | none =>
      refine List.pairwise_cons.mpr ⟨fun x hx => ?_, hrec⟩
      have hlow := (hrest.within (mem_frees.mp hx)).1
      have hlt := hs.lt
      simp only [ptrSize] at *
      omega

theorem Laid.frees_nodup {a b : ℤ} (h : Laid m a ss b) : (frees ss).Nodup :=
  h.frees_sorted.imp fun hlt => ne_of_lt hlt

theorem mem_frees_left (p : ℤ) (d : Option (List UInt8)) (r : List Slot) :
    ∀ x ∈ frees l, x ∈ frees (l ++ ⟨p, d⟩ :: r) := by
  intro x hx
  rw [frees_append]
  exact List.mem_append_left _ hx

theorem mem_frees_right (p : ℤ) (d : Option (List UInt8)) (l : List Slot) :
    ∀ x ∈ frees r, x ∈ frees (l ++ ⟨p, d⟩ :: r) := by
  intro x hx
  rw [mem_frees] at hx ⊢
  exact List.mem_append_right _ (List.mem_cons_of_mem _ hx)

/-- `p` comes on the list, between the free slots before and behind it. -/
theorem link_in (hs : Slots h.mem h.bottom (l ++ ⟨p, none⟩ :: r) t)
    (hl : Linked h.mem h.empty (frees l ++ frees r) 0) :
    InOrder ((h.setNextFree p ((frees r).headD 0)).setLink ((frees l).getLastD 0) p)
      (l ++ ⟨p, none⟩ :: r) t := by
  have hp : p ∈ frees (l ++ ⟨p, none⟩ :: r) := mem_frees.mpr (by simp)
  have hleft := mem_frees_left (l := l) p none r
  have hright := mem_frees_right (r := r) p none l
  have hpos : ∀ x ∈ frees r, x ≠ 0 := fun x hx => hs.free_ne_zero (hright x hx)
  obtain ⟨hapart, hpl, hpr⟩ := frees_nodup_parts hs
  obtain ⟨hlow, hal, -, -, hlt⟩ := hs.free_bounds hp
  have hp0 : 0 ≤ p := le_trans (by decide) hlow
  obtain ⟨hfront, hback⟩ := (linked_append hpos).mp hl
  have hnext : 0 ≤ (frees r).headD 0 ∧ (frees r).headD 0 < 2 ^ 32 := by
    cases hr : frees r with
    | nil => simp
    | cons x fr =>
      obtain ⟨hx, -, -, -, hx'⟩ := hs.free_bounds (hright x (by simp [hr]))
      exact ⟨le_trans (by decide) hx, hx'⟩
  have hs1 := slots_setNextFree hs hp ((frees r).headD 0)
  -- the link of `p` is written while nothing leads to it
  have hother : ∀ x, 4 ∣ x → x ≠ p →
      link (h.setNextFree p ((frees r).headD 0)).mem x = link h.mem x :=
    fun x hx hne => link_store_of_ne hx hal hne
  have hfront1 := hfront.congr fun x hx =>
    hother x (hs.free_bounds (hleft x hx)).2.1 (ne_of_mem_of_not_mem hx hpl)
  refine ⟨slots_setLink hs1 hleft p, ?_⟩
  have hnd : (frees l).Nodup := (List.nodup_append.mp (frees_append ▸ hs.laid.frees_nodup)).1
  rw [frees_append, frees_free, linked_append]
  · refine ⟨linked_setLink hs1 hleft hnd hfront1 hp0 hlt, ptr_eq_some.mpr ⟨rfl, hs.free_ne_zero hp⟩, ?_⟩
    have hlink : link (h.setNextFree p ((frees r).headD 0)).mem p = ptr ((frees r).headD 0) := by
      unfold link
      rw [Heap.setNextFree, nextFree_store hnext.1 hnext.2]
    rw [link_setLink_of_notMem hs1 hleft hal hpl, hlink]
    refine hback.congr fun x hx => ?_
    have hx4 := (hs.free_bounds (hright x hx)).2.1
    rw [link_setLink_of_notMem hs1 hleft hx4 fun hxl => hapart x hxl hx]
    exact hother x hx4 (ne_of_mem_of_not_mem hx hpr)
  · intro x hx
    rcases List.mem_cons.mp hx with rfl | hx
    · exact hs.free_ne_zero hp
    · exact hpos x hx

/-- `p` goes off the list. -/
theorem linked_unlink (hs : Slots h.mem h.bottom ss t) (hfl : ∀ x ∈ fl, x ∈ frees ss)
    (hfr : ∀ y ∈ fr, 4 ∣ y ∧ y ≠ 0) (hp : p ≠ 0) (hl : Linked h.mem h.empty (fl ++ p :: fr) 0) :
    Linked (h.setLink (fl.getLastD 0) (nextFree h.mem p)).mem
      (h.setLink (fl.getLastD 0) (nextFree h.mem p)).empty (fl ++ fr) 0 := by
  have hnd := Chain.nodup hl
  obtain ⟨mid, hfront, hmid, hback⟩ := seg_append.mp hl
  obtain ⟨h0, hv⟩ := nextFree_bounds h.mem p
  have hnext : nextFree h.mem p = fr.headD 0 := Linked.head hback
  rw [linked_append fun y hy => (hfr y hy).2]
  have hfront' : Linked h.mem h.empty fl p := by
    unfold Linked
    rw [ptr_eq_some.mpr ⟨rfl, hp⟩, ← hmid]
    exact hfront
  have hfl' : fl.Nodup := (List.nodup_append.mp hnd).1
  have hlinked := linked_setLink hs hfl hfl' hfront' h0 hv
  have hback' : Linked h.mem (nextFree h.mem p) fr 0 := hback
  rw [← hnext]
  refine ⟨hlinked, hback'.congr fun y hy => ?_⟩
  refine link_setLink_of_notMem hs hfl (hfr y hy).1 (fun hyl => ?_) _
  exact (List.nodup_append.mp hnd).2.2 y hyl y (List.mem_cons_of_mem _ hy) rfl

/-- Stores into the pointers to the next slot leave the list alone. -/
theorem linked_header {n : ℕ} (hs : Slots m v ss t) (hl : Linked m p fs q) (hfs : ∀ x ∈ fs, x ∈ frees ss)
    (hs' : s ∈ ss) : Linked (m.storeLong (s.start - ptrSize) n) p fs q := by
  refine hl.congr fun x hx => ?_
  have hal := (hs.laid.within hs').2.2.aligned
  exact link_store_of_ne (hs.free_bounds (hfs x hx)).2.1 (by unfold ptrSize; omega)
    (hs.free_ne_header (hfs x hx) hs')

/-- "merge p and next" -/
theorem merge (h0 : InOrder h (l ++ ⟨p, none⟩ :: ⟨q, none⟩ :: r) t) :
    InOrder ((h.setNextSlot p (nextSlot h.mem q)).setNextFree p
      (nextFree (h.setNextSlot p (nextSlot h.mem q)).mem q)) (l ++ ⟨p, none⟩ :: r) t := by
  obtain ⟨hs, hl⟩ := h0
  set h1 := h.setNextSlot p (nextSlot h.mem q) with hh1
  have hs1 : Slots h1.mem h.bottom (l ++ ⟨p, none⟩ :: r) t := hs.absorb
  have hl1 : Linked h1.mem h.empty (frees (l ++ ⟨p, none⟩ :: ⟨q, none⟩ :: r)) 0 :=
    linked_header (s := ⟨p, none⟩) hs hl (fun x hx => hx) (by simp)
  have hp : p ∈ frees (l ++ ⟨p, none⟩ :: r) := by simp
  have hal := (hs1.free_bounds hp).2.1
  obtain ⟨-, hpl, hpr⟩ := frees_nodup_parts hs1
  refine ⟨slots_setNextFree hs1 hp _, ?_⟩
  rw [frees_append, frees_free, frees_free] at hl1
  obtain ⟨mid, hfront, hmid, -, hback⟩ := seg_append.mp hl1
  have hother : ∀ x ∈ frees (l ++ ⟨p, none⟩ :: r), x ≠ p →
      link (h1.setNextFree p (nextFree h1.mem q)).mem x = link h1.mem x :=
    fun x hx hne => link_store_of_ne (hs1.free_bounds hx).2.1 hal hne
  rw [frees_append, frees_free]
  refine seg_append.mpr ⟨mid, hfront.congr fun x hx => ?_, hmid, ?_⟩
  · exact hother x (mem_frees_left p none r x hx) (ne_of_mem_of_not_mem hx hpl)
  · have hlink : link (h1.setNextFree p (nextFree h1.mem q)).mem p = link h1.mem q := by
      obtain ⟨h2, h3⟩ := nextFree_bounds h1.mem q
      unfold link
      rw [Heap.setNextFree, nextFree_store h2 h3]
    rw [hlink]
    exact hback.congr fun x hx =>
      hother x (mem_frees_right p none l x hx) (ne_of_mem_of_not_mem hx hpr)

/-- Where a slot is split there is no link. -/
theorem linked_split {n k : ℕ} (hs : Slots m v (l ++ s :: r) t) (hnew : 4 ∣ new)
    (hlow : s.start + ptrSize ≤ new) (hfree : s.start ∈ fs → s.start + 2 * ptrSize ≤ new)
    (hhigh : new + ptrSize ≤ nextSlot m s.start) (hl : Linked m p fs q)
    (hfs : ∀ x ∈ fs, x ∈ frees (l ++ s :: r)) :
    Linked ((m.storeLong (new - ptrSize) n).storeLong (s.start - ptrSize) k) p fs q := by
  have hmem : s ∈ l ++ s :: r := by simp
  have hal := (hs.laid.within hmem).2.2.aligned
  refine hl.congr fun x hx => ?_
  obtain ⟨-, hx4, hroom, -, -⟩ := hs.free_bounds (hfs x hx)
  have hx' := mem_frees.mp (hfs x hx)
  have hne : x ≠ new - ptrSize := by
    intro heq
    rcases lt_trichotomy x s.start with hlt | hxs | hgt
    · simp only [ptrSize] at *
      omega
    · have hroom' := hfree (hxs ▸ hx)
      simp only [ptrSize] at *
      omega
    · have := hs.laid.apart hmem hx' hgt
      simp only [ptrSize] at *
      omega
  rw [link_store_of_ne hx4 (by unfold ptrSize; omega) (hs.free_ne_header (hfs x hx) hmem),
    link_store_of_ne hx4 (by unfold ptrSize; omega) hne]

/-- "too big, so split" -/
theorem split_free (h0 : InOrder h (l ++ ⟨p, none⟩ :: r) t) (hnew : 4 ∣ new) (hlow : p + 2 * ptrSize ≤ new)
    (hhigh : new + 2 * ptrSize ≤ nextSlot h.mem p) :
    let h1 := (h.setNextSlot new (nextSlot h.mem p)).setNextSlot p new
    InOrder ((h1.setNextFree new (nextFree h1.mem p)).setNextFree p new)
      (l ++ ⟨p, none⟩ :: ⟨new, none⟩ :: r) t := by
  obtain ⟨hs, hl⟩ := h0
  intro h1
  have hs1 : Slots h1.mem h.bottom (l ++ ⟨p, none⟩ :: ⟨new, none⟩ :: r) t := by
    refine hs.split hnew ?_ ?_ (by simp) (by simp)
    · simp only [Slot.need, ptrSize] at hlow ⊢
      omega
    · simp only [Slot.need, ptrSize] at hhigh ⊢
      omega
  have hl1 : Linked h1.mem h.empty (frees (l ++ ⟨p, none⟩ :: r)) 0 := by
    refine linked_split (s := ⟨p, none⟩) hs hnew ?_ (fun _ => hlow) ?_ hl fun x hx => hx
    · simp only [ptrSize] at hlow ⊢
      omega
    · simp only [ptrSize] at hhigh ⊢
      omega
  set ss' := l ++ ⟨p, none⟩ :: ⟨new, none⟩ :: r with hss'
  have hp : p ∈ frees ss' := by simp [hss']
  have hn : new ∈ frees ss' := by simp [hss']
  have hs2 := slots_setNextFree (h := h1) hs1 hn (nextFree h1.mem p)
  have hs3 := slots_setNextFree (h := h1.setNextFree new (nextFree h1.mem p)) hs2 hp new
  refine ⟨hs3, ?_⟩
  have hp4 := (hs1.free_bounds hp).2.1
  obtain ⟨hn0, -, -, -, hn1⟩ := hs1.free_bounds hn
  have hn0' : 0 ≤ new := le_trans (by decide) hn0
  have hnd := hs1.laid.frees_nodup
  rw [hss', frees_append, frees_free, frees_free] at hnd
  have hfar : ∀ x ∈ frees l ++ frees r, x ≠ p ∧ x ≠ new := by
    have hperm : (frees l ++ p :: new :: frees r).Perm (p :: new :: (frees l ++ frees r)) :=
      List.perm_middle.trans (List.perm_middle.cons p)
    have hnd' := hperm.nodup_iff.mp hnd
    intro x hx
    obtain ⟨hpn, hnn⟩ := List.nodup_cons.mp hnd'
    refine ⟨fun heq => hpn ?_, fun heq => (List.nodup_cons.mp hnn).1 (heq ▸ hx)⟩
    exact List.mem_cons_of_mem _ (heq ▸ hx)
  have hpn : p ≠ new := by
    simp only [ptrSize] at hlow
    omega
  have hother : ∀ x ∈ frees l ++ frees r, link ((h1.setNextFree new (nextFree h1.mem p)).setNextFree p new).mem x =
      link h1.mem x := by
    intro x hx
    have hx' : x ∈ frees ss' := by
      rcases List.mem_append.mp hx with hx | hx <;> simp [hss', hx]
    have hx4 := (hs1.free_bounds hx').2.1
    rw [Heap.setNextFree, link_store_of_ne hx4 hp4 (hfar x hx).1, Heap.setNextFree,
      link_store_of_ne hx4 hnew (hfar x hx).2]
  rw [frees_append, frees_free] at hl1
  obtain ⟨mid, hfront, hmid, hback⟩ := seg_append.mp hl1
  rw [hss', frees_append, frees_free, frees_free]
  refine seg_append.mpr ⟨mid, hfront.congr fun x hx => hother x (by simp [hx]), hmid, ?_, ?_⟩
  · unfold link
    rw [Heap.setNextFree, nextFree_store hn0' hn1]
    exact ptr_eq_some.mpr ⟨rfl, hs1.free_ne_zero hn⟩
  · have hlink : link ((h1.setNextFree new (nextFree h1.mem p)).setNextFree p new).mem new = link h1.mem p := by
      obtain ⟨h2, h3⟩ := nextFree_bounds h1.mem p
      rw [Heap.setNextFree, link_store_of_ne hnew hp4 hpn.symm]
      unfold link
      rw [Heap.setNextFree, nextFree_store h2 h3]
    rw [hlink]
    exact hback.congr fun x hx => hother x (by simp [hx])

/-! ## §2 `free` -/

/-- The program runs without a fault. -/
abbrev Succeeds {α : Type} (c : C α) (h : Heap) (Q : α → Heap → Prop) : Prop := Wp (fun _ _ => False) c h Q

/-- No two free slots lie side by side. -/
def Spaced (ss : List Slot) : Prop := ss.IsChain fun s u => s.free = true → u.free = false

/-- What programs have in the heap. -/
def live (ss : List Slot) : List Slot := ss.filter fun s => !s.free

@[simp] theorem live_nil : live [] = [] := rfl

@[simp] theorem live_append : live (l ++ r) = live l ++ live r := by simp [live]

@[simp] theorem live_free : live (⟨p, none⟩ :: r) = live r := rfl

@[simp] theorem live_live : live (⟨p, some bytes⟩ :: r) = ⟨p, some bytes⟩ :: live r := rfl

theorem mem_live : ⟨p, some bytes⟩ ∈ live ss ↔ ⟨p, some bytes⟩ ∈ ss := by
  unfold live
  rw [List.mem_filter]
  exact ⟨fun hmem => hmem.1, fun hmem => ⟨hmem, rfl⟩⟩

theorem succeeds_assert {b : Prop} [Decidable b] (hb : b) {Q : PUnit → Heap → Prop} (hQ : Q ⟨⟩ h) :
    Succeeds (assert b) h Q := by
  unfold assert
  rw [if_pos hb]
  exact hQ

/-- The search ends; no address is on the list twice. -/
theorem Slots.frees_length {a : ℤ} (hs : Slots m a ss t) : (frees ss).length < pointers := by
  have hle := hs.laid.le
  have habove := hs.above
  have hlimit := hs.limit
  have hlen : (frees ss).length ≤ ss.length := by
    unfold frees
    rw [List.length_map]
    exact List.length_filter_le ..
  simp only [ptrSize, addressLimit, pointers] at *
  omega

theorem freeLoop_spec {cur : ℤ} (hpos : ∀ x ∈ fl ++ fr, x ≠ 0) (hl : Linked h.mem cur (fl ++ fr) 0)
    (hlow : ∀ x ∈ fl, x < p) (hhigh : ∀ x ∈ fr, p < x) {n : ℕ} (hn : fl.length < n) (prev : ℤ) :
    Succeeds (freeLoop p n prev cur) h fun res h' => res = (fl.getLastD prev, fr.headD 0) ∧ h' = h := by
  induction n generalizing fl prev cur with
  | zero => omega
  | succ n ih =>
    unfold freeLoop
    have hcur := hl.head
    cases fl with
    | nil =>
      -- the loop stops at the first one behind `p`, or at the end of the list
      have hstop : cur = 0 ∨ p < cur := by
        cases fr with
        | nil => exact .inl hcur
        | cons x fr => exact .inr (hcur ▸ hhigh x List.mem_cons_self)
      rw [if_pos hstop]
      exact ⟨by rw [hcur]; rfl, rfl⟩
    | cons x fl =>
      obtain rfl : cur = x := hcur
      have hx := hlow cur List.mem_cons_self
      have hx0 := hpos cur (by simp)
      rw [if_neg (by omega)]
      simp only [wp_bind, wp_get]
      have hrest := @ih fl (nextFree h.mem cur) (fun y hy => hpos y (by simp_all))
        hl.2 (fun y hy => hlow y (List.mem_cons_of_mem _ hy))
        (by simpa using hn) cur
      rw [List.getLastD_cons]
      exact hrest

/-- A slot that is merged with the next one, if that begins where the slot ends. -/
theorem mergeSlots_spec (h0 : InOrder h (l ++ ⟨p, none⟩ :: ⟨q, none⟩ :: r) t) :
    Succeeds (mergeSlots p q) h fun _ h' => InOrder h' (l ++ ⟨p, none⟩ :: r) t ∧ SameArea h h' := by
  unfold mergeSlots
  simp only [wp_bind, wp_get]
  have hnext : nextSlot h.mem p = q := h0.slots.nextSlot_eq
  rw [if_pos hnext]
  simp only [wp_bind, wp_modify]
  exact ⟨merge h0, (sameArea_setNextSlot h p _).trans (sameArea_setNextFree _ p _)⟩

theorem mergeSlots_of_ne (hne : nextSlot h.mem p ≠ q) :
    Succeeds (mergeSlots p q) h fun _ h' => h' = h := by
  unfold mergeSlots
  simp only [wp_bind, wp_get]
  rw [if_neg hne]
  exact rfl

theorem spaced_cons_free : Spaced (⟨p, none⟩ :: r) ↔ (∀ u ∈ r.head?, u.free = false) ∧ Spaced r := by
  unfold Spaced
  rw [List.isChain_cons]
  exact and_congr_left' ⟨fun hr u hu => hr u hu rfl, fun hr u hu _ => hr u hu⟩

theorem spaced_cons_live : Spaced (⟨p, some bytes⟩ :: r) ↔ Spaced r := by
  unfold Spaced
  rw [List.isChain_cons]
  exact ⟨fun hr => hr.2, fun hr => ⟨fun u _ hfree => absurd hfree (by simp [Slot.free]), hr⟩⟩

theorem spaced_append (hl : Spaced l) (hr : Spaced r)
    (hlast : ∀ s ∈ l.getLast?, ∀ u ∈ r.head?, s.free = true → u.free = false) : Spaced (l ++ r) :=
  List.isChain_append.mpr ⟨hl, hr, hlast⟩

theorem Spaced.left (h : Spaced (l ++ r)) : Spaced l := (List.isChain_append.mp h).1

theorem Spaced.right (h : Spaced (l ++ r)) : Spaced r := (List.isChain_append.mp h).2.1

/-- `free` looks at what is behind the slot. -/
theorem joinNext_spec (h0 : InOrder h (l ++ ⟨p, none⟩ :: r) t) (hspaced : Spaced r) :
    Succeeds (joinSlots ((frees r).headD 0 ≠ 0) p ((frees r).headD 0)) h fun _ h' =>
      ∃ r', InOrder h' (l ++ ⟨p, none⟩ :: r') t ∧ Spaced (⟨p, none⟩ :: r') ∧ live r' = live r ∧
        SameArea h h' ∧ nextSlot h.mem p ≤ nextSlot h'.mem p := by
  unfold joinSlots
  have hnext := h0.slots.nextSlot_eq
  cases r with
  | nil => exact ⟨[], h0, List.isChain_singleton _, rfl, .refl h, le_rfl⟩
  | cons u r =>
    obtain ⟨q, data⟩ := u
    cases data with
    | none =>
      have hq : q ≠ 0 := h0.slots.free_ne_zero (by simp)
      rw [frees_free, List.headD_cons, if_pos hq]
      simp only [wp_bind, wp_get]
      refine succeeds_assert (le_of_eq hnext) ((mergeSlots_spec h0).mono ?_)
      rintro - h' ⟨h1, harea⟩
      refine ⟨r, h1, ?_, rfl, harea, ?_⟩
      · obtain ⟨hhead, hr⟩ := spaced_cons_free.mp hspaced
        exact spaced_cons_free.mpr ⟨hhead, hr⟩
      · -- the slot now ends where the one behind it did
        have hsplit : Slots h.mem h.bottom ((l ++ [⟨p, none⟩]) ++ ⟨q, none⟩ :: r) t := by
          simpa using h0.slots
        have hend := hsplit.bounds.2.1
        rw [hsplit.nextSlot_eq] at hend
        rw [hnext, h1.slots.nextSlot_eq]
        simp only [List.head?_cons, Option.map_some, Option.getD_some, ptrSize] at hend ⊢
        omega
    | some bytes =>
      have hend : SameArea h h ∧ nextSlot h.mem p ≤ nextSlot h.mem p := ⟨.refl h, le_rfl⟩
      have hspaced' : Spaced (⟨p, none⟩ :: ⟨q, some bytes⟩ :: r) := by
        refine spaced_cons_free.mpr ⟨?_, hspaced⟩
        intro u hu
        obtain rfl := Option.some.inj hu
        rfl
      split
      · next hne =>
        have hhead : q < (frees r).headD 0 := by
          cases hr : frees r with
          | nil => rw [frees_live, hr] at hne; exact absurd rfl hne
          | cons x fr =>
            have hsplit : Slots h.mem h.bottom ((l ++ [⟨p, none⟩]) ++ ⟨q, some bytes⟩ :: r) t := by
              simpa using h0.slots
            have hx := hsplit.le_of_mem_right (x := x) (by simp [hr])
            have hq := hsplit.bounds.2.1
            simp only [List.headD_cons, ptrSize] at *
            omega
        have hpq : nextSlot h.mem p = q := hnext
        simp only [wp_bind, wp_get]
        refine succeeds_assert (by rw [hpq, frees_live]; exact hhead.le) ?_
        refine (mergeSlots_of_ne (by rw [hpq, frees_live]; exact hhead.ne)).mono ?_
        rintro - h' rfl
        exact ⟨_, h0, hspaced', rfl, hend⟩
      · exact ⟨_, h0, hspaced', rfl, hend⟩

/-- What a slot that has been given back has become: a part of a free slot. -/
structure Freed (h h' : Heap) (ss' : List Slot) (t p stop : ℤ) : Prop where
  order : InOrder h' ss' t
  spaced : Spaced ss'
  area : SameArea h h'
  part : ∃ q ∈ frees ss', q ≤ p ∧ stop ≤ nextSlot h'.mem q

/-- `free` looks at what is before the slot. -/
theorem joinPrev_spec (h0 : InOrder h (l ++ ⟨p, none⟩ :: r) t) (hleft : Spaced l)
    (hright : Spaced (⟨p, none⟩ :: r)) :
    Succeeds (joinSlots ((frees l).getLastD 0 ≠ 0) ((frees l).getLastD 0) p) h fun _ h' =>
      ∃ ss', Freed h h' ss' t p (nextSlot h.mem p) ∧ live ss' = live l ++ live r := by
  unfold joinSlots
  have hp : p ∈ frees (l ++ ⟨p, none⟩ :: r) := by simp
  rcases List.eq_nil_or_concat' l with rfl | ⟨l, u, rfl⟩
  · exact ⟨_, ⟨h0, hright, .refl h, p, hp, le_rfl, le_rfl⟩, rfl⟩
  · obtain ⟨q, data⟩ := u
    have hsplit : InOrder h (l ++ ⟨q, data⟩ :: ⟨p, none⟩ :: r) t := by
      simpa using h0
    have hqp : nextSlot h.mem q = p := hsplit.slots.nextSlot_eq
    cases data with
    | none =>
      have hq : q ≠ 0 := hsplit.slots.free_ne_zero (by simp)
      have hlast : (frees (l ++ [⟨q, none⟩])).getLastD 0 = q := by simp
      rw [hlast, if_pos hq]
      simp only [wp_bind, wp_get]
      refine succeeds_assert (le_of_eq hqp) ((mergeSlots_spec hsplit).mono ?_)
      rintro - h' ⟨h1, harea⟩
      have hlt := hsplit.slots.bounds.2.1
      rw [hqp] at hlt
      refine ⟨_, ⟨h1, ?_, harea, q, by simp, ?_, ?_⟩, by simp⟩
      · obtain ⟨hhead, hr⟩ := spaced_cons_free.mp hright
        obtain ⟨hinit, -, hjoin⟩ := List.isChain_append.mp hleft
        refine spaced_append hinit (spaced_cons_free.mpr ⟨hhead, hr⟩) ?_
        intro s hs u hu hfree
        obtain rfl := Option.some.inj hu
        exact hjoin s hs _ rfl hfree
      · simp only [ptrSize] at hlt
        omega
      · rw [h0.slots.nextSlot_eq, h1.slots.nextSlot_eq]
    | some bytes =>
      have hspaced : Spaced ((l ++ [⟨q, some bytes⟩]) ++ ⟨p, none⟩ :: r) := by
        refine spaced_append hleft hright ?_
        intro s hs u _ hfree
        rw [List.getLast?_concat] at hs
        obtain rfl := Option.some.inj hs
        exact absurd hfree (by simp [Slot.free])
      have hend : ∃ ss', Freed h h ss' t p (nextSlot h.mem p) ∧
          live ss' = live (l ++ [⟨q, some bytes⟩]) ++ live r :=
        ⟨_, ⟨h0, hspaced, .refl h, p, hp, le_rfl, le_rfl⟩, by simp⟩
      have hfrees : frees (l ++ [⟨q, some bytes⟩]) = frees l := by simp
      rw [hfrees]
      split
      · next hne =>
        -- the free slot before `p` does not reach it
        have hfar : nextSlot h.mem ((frees l).getLastD 0) < p := by
          have hmem : (frees l).getLastD 0 ∈ frees l := by
            rcases List.eq_nil_or_concat' (frees l) with hnil | ⟨fl, x, hfl⟩
            · rw [hnil] at hne
              exact absurd rfl hne
            · rw [hfl, List.getLastD_concat]
              simp
          have hle := hsplit.slots.laid.parts.1.within (mem_frees.mp hmem)
          have hlt := hsplit.slots.bounds.2.1
          simp only [ptrSize] at *
          omega
        simp only [wp_bind, wp_get]
        refine succeeds_assert hfar.le ((mergeSlots_of_ne hfar.ne).mono ?_)
        rintro - h' rfl
        exact hend
      · exact hend

/-- A slot that is long enough for a link becomes free. -/
theorem free_spec (hs : Slots h.mem h.bottom (l ++ ⟨p, some bytes⟩ :: r) t)
    (hl : Linked h.mem h.empty (frees l ++ frees r) 0) (hspaced : Spaced (l ++ ⟨p, some bytes⟩ :: r))
    (hlong : p + 2 * ptrSize ≤ nextSlot h.mem p) :
    Succeeds (free p) h fun _ h' => ∃ ss', Freed h h' ss' t p (nextSlot h.mem p) ∧
      live ss' = live l ++ live r := by
  -- what the program has had in the slot does not matter any more
  have hs0 : Slots h.mem h.bottom (l ++ ⟨p, none⟩ :: r) t :=
    hs.refill (fun _ _ => rfl) (by simp only [Slot.need, ptrSize] at hlong ⊢; omega) (by simp)
  have hleft := mem_frees_left (l := l) p none r
  have hright := mem_frees_right (r := r) p none l
  have hpos : ∀ x ∈ frees l ++ frees r, x ≠ 0 := by
    intro x hx
    rcases List.mem_append.mp hx with hx | hx
    · exact hs0.free_ne_zero (hleft x hx)
    · exact hs0.free_ne_zero (hright x hx)
  have hlow : ∀ x ∈ frees l, x < p := by
    intro x hx
    have := hs0.lt_of_mem_left hx
    simp only [ptrSize] at this
    omega
  have hhigh : ∀ x ∈ frees r, p < x := by
    intro x hx
    have := hs0.le_of_mem_right hx
    simp only [ptrSize] at *
    omega
  have hlen : (frees l).length < pointers := by
    have hall := hs0.frees_length
    rw [frees_append, List.length_append] at hall
    omega
  unfold free
  simp only [wp_bind, wp_get]
  refine succeeds_assert (by simp only [ptrSize] at hlong; omega) ?_
  refine (freeLoop_spec hpos hl hlow hhigh hlen 0).mono ?_
  rintro _ h' ⟨rfl, rfl⟩
  simp only [wp_modify]
  have hin := link_in hs0 hl
  set h1 := (h'.setNextFree p ((frees r).headD 0)).setLink ((frees l).getLastD 0) p with hh1
  have harea : SameArea h' h1 := (sameArea_setNextFree h' p _).trans (sameArea_setLink _ _ p)
  have hstop : nextSlot h1.mem p = nextSlot h'.mem p := hin.slots.nextSlot_eq.trans hs0.nextSlot_eq.symm
  refine (joinNext_spec hin (spaced_cons_live.mp hspaced.right)).mono ?_
  rintro - h2 ⟨r', horder, hspaced', hlive, harea', hle⟩
  refine (joinPrev_spec horder hspaced.left hspaced').mono ?_
  rintro - h3 ⟨ss', ⟨horder', hspaced'', harea'', q, hq, hqp, hend⟩, hlive'⟩
  refine ⟨ss', ⟨horder', hspaced'', (harea.trans harea').trans harea'', q, hq, hqp, ?_⟩, ?_⟩
  · rw [← hstop]
    exact hle.trans hend
  · rw [hlive', hlive]

end LisaMinix.Libc.Malloc
