import Mathlib.Tactic
import Mathlib.Data.List.FinRange
import LisaMinix.Library.FreeAreas
import LisaMinix.Mm.Alloc

/-!
# The Hole Table Represents a List of Free Areas

Refinement of the pointer code of `alloc.c` to the abstract allocator of
`Library.FreeAreas`: `alloc_mem` is `takeFirst` and `free_mem` is `giveBack` on the list of
holes, as long as the sums involved fit in 16 bits.

`Rep t holes free` is the representation invariant: the slots `holes` are chained from
`hole_head`, the slots `free` from `free_slots`, and each slot of the table is on exactly
one of the two lists, once.
-/

namespace LisaMinix.Mm

open LisaMinix.Library Function

variable {t : HoleTable} {post free holes : List Slot}

/-! ## §1 Representation -/

/-- The hole described by a slot. -/
def HoleTable.area (t : HoleTable) (s : Slot) : Area := ⟨(t.hole s).hBase, (t.hole s).hLen⟩

theorem HoleTable.base_area (t : HoleTable) (s : Slot) :
    (t.area s).base = (t.hole s).hBase := rfl

theorem HoleTable.len_area (t : HoleTable) (s : Slot) :
    (t.area s).len = (t.hole s).hLen := rfl

@[simp] theorem HoleTable.next_setNext (t : HoleTable) (s : Slot) (p : Option Slot) :
    (t.setNext s p).next = update t.next s p := by
  funext x
  by_cases h : x = s
  · subst h; simp [HoleTable.next, HoleTable.setNext]
  · simp [HoleTable.next, HoleTable.setNext, h]

@[simp] theorem HoleTable.area_setNext (t : HoleTable) (s : Slot) (p : Option Slot) :
    (t.setNext s p).area = t.area := by
  funext x
  by_cases h : x = s
  · subst h; simp [HoleTable.area, HoleTable.setNext]
  · simp [HoleTable.area, HoleTable.setNext, h]

@[simp] theorem HoleTable.next_setArea (t : HoleTable) (s : Slot) (base len : ℕ) :
    (t.setArea s base len).next = t.next := by
  funext x
  by_cases h : x = s
  · subst h; simp [HoleTable.next, HoleTable.setArea]
  · simp [HoleTable.next, HoleTable.setArea, h]

@[simp] theorem HoleTable.area_setArea (t : HoleTable) (s : Slot) (base len : ℕ) :
    (t.setArea s base len).area = update t.area s ⟨base, len⟩ := by
  funext x
  by_cases h : x = s
  · subst h; simp [HoleTable.area, HoleTable.setArea]
  · simp [HoleTable.area, HoleTable.setArea, h]

/-- The table represents the hole list `holes` and the list `free` of unused slots. -/
structure Rep (t : HoleTable) (holes free : List Slot) : Prop where
  holesChain : Chain t.next t.holeHead holes
  freeChain : Chain t.next t.freeSlots free
  slots : (holes ++ free).Perm (List.finRange nrHoles)

namespace Rep

variable {t : HoleTable} {holes free : List Slot}

theorem nodup (h : Rep t holes free) : (holes ++ free).Nodup :=
  h.slots.nodup_iff.mpr (List.nodup_finRange _)

theorem length (h : Rep t holes free) : holes.length + free.length = nrHoles := by
  simpa using h.slots.length_eq

theorem length_le (h : Rep t holes free) : holes.length ≤ nrHoles :=
  h.length ▸ Nat.le_add_right _ _

/-- Only the pointers and the list heads matter. -/
theorem congr {t' : HoleTable} (h : Rep t holes free) (hnext : t'.next = t.next)
    (hhead : t'.holeHead = t.holeHead) (hfree : t'.freeSlots = t.freeSlots) :
    Rep t' holes free :=
  ⟨by rw [hnext, hhead]; exact h.holesChain, by rw [hnext, hfree]; exact h.freeChain, h.slots⟩

theorem of_next (next : Slot → Option Slot) (hnext : t.next = next)
    (hholes : Chain next t.holeHead holes) (hfree : Chain next t.freeSlots free)
    (hslots : (holes ++ free).Perm (List.finRange nrHoles)) : Rep t holes free := by
  subst hnext
  exact ⟨hholes, hfree, hslots⟩

/-- Two lists that together hold the same slots. -/
theorem perm_of (h : Rep t holes free) {holes' free' : List Slot}
    (hp : (holes' ++ free').Perm (holes ++ free)) :
    (holes' ++ free').Perm (List.finRange nrHoles) :=
  hp.trans h.slots

end Rep

/-! ## §2 Removing a slot -/

/-- `del_slot` moves the slot `hp` from the hole list to the front of the free list and
changes no hole. -/
theorem delSlot_spec {pre : List Slot} {hp : Slot} (h : Rep t (pre ++ hp :: post) free) :
    ∃ t', delSlot t pre.getLast? hp = .ok t' ∧ Rep t' (pre ++ post) (hp :: free) ∧
      t'.area = t.area := by
  have hnd := h.nodup
  have hslots : ((pre ++ post) ++ hp :: free).Perm (List.finRange nrHoles) := by
    refine h.perm_of ?_
    simp only [List.append_assoc, List.cons_append]
    exact List.Perm.append_left _ List.perm_middle
  have hpfree : hp ∉ free := fun hf =>
    List.disjoint_of_nodup_append hnd (by simp) hf
  rcases List.eq_nil_or_concat' pre with rfl | ⟨pre', p, rfl⟩
  · -- the first hole: `hole_head` moves on
    have hchain : Chain t.next t.holeHead (hp :: post) := h.holesChain
    have hpost : hp ∉ post := (List.nodup_cons.mp hchain.nodup).1
    refine ⟨{ ({ t with holeHead := t.next hp } : HoleTable).setNext hp t.freeSlots with
      freeSlots := some hp }, by simp [delSlot, hchain.1, Except.map], ?_,
      HoleTable.area_setNext t hp _⟩
    exact Rep.of_next _ (HoleTable.next_setNext t hp t.freeSlots) (hchain.2.update hpost _)
      ⟨rfl, by rw [update_self]; exact h.freeChain.update hpfree _⟩ hslots
  · -- the pointer of the hole before it is redirected
    have hchain : Chain t.next t.holeHead (pre' ++ p :: hp :: post) := by
      simpa using h.holesChain
    have hhp : hp ∉ pre' ++ p :: post := by
      have := hchain.nodup
      simp only [List.nodup_append, List.nodup_cons, List.mem_cons, List.mem_append] at this ⊢
      grind
    have hppfree : p ∉ free := fun hf => List.disjoint_of_nodup_append hnd (by simp) hf
    have hhead : t.holeHead ≠ some hp := by
      rw [hchain.head_eq]
      cases pre' with
      | nil => simp at hhp ⊢; grind
      | cons a l => simp at hhp ⊢; grind
    refine ⟨{ (t.setNext p (t.next hp)).setNext hp t.freeSlots with freeSlots := some hp },
      by simp [delSlot, hhead, Except.map, HoleTable.setNext], ?_, ?_⟩
    · refine Rep.of_next (update (update t.next p (t.next hp)) hp t.freeSlots)
        ?_ ?_ ⟨rfl, ?_⟩ hslots
      · exact (HoleTable.next_setNext _ _ _).trans (by rw [HoleTable.next_setNext])
      · rw [List.append_assoc]
        exact hchain.unlink.update hhp _
      · rw [update_self]
        exact (h.freeChain.update hppfree _).update hpfree _
    · exact (HoleTable.area_setNext _ _ _).trans (HoleTable.area_setNext _ _ _)

/-! ## §3 Joining holes -/

/-- All the areas end below `2 ^ 16`: no sum of a base and a length wraps around. -/
def Fits (as : List Area) : Prop := ∀ a ∈ as, a.stop < 65536

@[simp] theorem fits_cons {a : Area} {as : List Area} :
    Fits (a :: as) ↔ a.stop < 65536 ∧ Fits as := by
  simp [Fits]

/-- What a call that edits the hole list from `hp` on leaves behind: the holes before `hp`
are untouched, and from `hp` on the list describes the areas `as`. -/
structure Edited (t t' : HoleTable) (pre : List Slot) (hp : Slot) (as : List Area) : Prop where
  intro ::
  rep : ∃ post free, Rep t' (pre ++ hp :: post) free ∧ (hp :: post).map t'.area = as
  frame : ∀ x ∈ pre, t'.area x = t.area x

section Merge

variable {t : HoleTable} {pre post free : List Slot} {hp nx : Slot}

theorem contiguous_iff (hfit : (t.area hp).stop < 65536) :
    contiguous t hp nx = true ↔ (t.area hp).stop = (t.area nx).base := by
  simp only [Area.stop, HoleTable.base_area, HoleTable.len_area] at hfit ⊢
  simp [contiguous, toClicks, Nat.mod_eq_of_lt hfit]

/-- `hp` takes over the area of its successor. -/
theorem absorb_spec (h : Rep t (pre ++ hp :: nx :: post) free)
    (hlen : (t.area hp).len + (t.area nx).len < 65536) :
    ∃ t', absorb t hp nx = .ok t' ∧ Rep t' (pre ++ hp :: post) (nx :: free) ∧
      t'.area hp = ⟨(t.area hp).base, (t.area hp).len + (t.area nx).len⟩ ∧
      ∀ x ∈ pre ++ post, t'.area x = t.area x := by
  have h' : Rep (t.setArea hp (t.hole hp).hBase (toClicks ((t.hole hp).hLen + (t.hole nx).hLen)))
      ((pre ++ [hp]) ++ nx :: post) free := by
    rw [List.append_assoc]
    exact h.congr (HoleTable.next_setArea ..) rfl rfl
  obtain ⟨t', hdel, hrep, harea⟩ := delSlot_spec h'
  have hsum : (t.hole hp).hLen + (t.hole nx).hLen < 65536 := hlen
  rw [HoleTable.area_setArea, toClicks, Nat.mod_eq_of_lt hsum] at harea
  have hhp : hp ∉ pre ++ post := by
    have hnd := h.holesChain.nodup
    simp only [List.nodup_append, List.nodup_cons, List.mem_cons, List.mem_append] at hnd ⊢
    grind
  refine ⟨t', by simpa [absorb] using hdel, by simpa using hrep, ?_, fun x hx => ?_⟩
  · rw [harea, update_self]
    rfl
  · rw [harea, update_of_ne (ne_of_mem_of_not_mem hx hhp)]

theorem next_eq_head (h : Rep t (pre ++ hp :: post) free) : t.next hp = post.head? := by
  obtain ⟨m, -, hm⟩ := seg_append.mp h.holesChain
  exact Chain.head_eq hm.2

/-- The second test of `merge` joins `hp` with its successor if they are adjacent. -/
theorem mergeNext_spec (h : Rep t (pre ++ hp :: post) free)
    (hfits : Fits ((hp :: post).map t.area)) :
    ∃ t', mergeNext t hp = .ok t' ∧ Edited t t' pre hp (joinHead ((hp :: post).map t.area)) := by
  have hnext := next_eq_head h
  cases post with
  | nil =>
    refine ⟨t, by simp [mergeNext, hnext], ⟨[], free, h, rfl⟩, fun _ _ => rfl⟩
  | cons nx post =>
    simp only [List.map_cons, fits_cons] at hfits
    have hnx : t.next hp = some nx := by simpa using hnext
    by_cases hc : (t.area hp).stop = (t.area nx).base
    · obtain ⟨t', habs, hrep, hhp, hframe⟩ := absorb_spec h (by
        have := hfits.2.1
        simp only [Area.stop] at hc this
        omega)
      refine ⟨t', by simp [mergeNext, hnx, (contiguous_iff hfits.1).mpr hc, habs],
        ⟨post, nx :: free, hrep, ?_⟩, fun x hx => hframe x (by simp [hx])⟩
      simp only [List.map_cons, joinHead_cons_cons, if_pos hc, hhp, List.cons.injEq, true_and]
      exact List.map_congr_left fun x hx => hframe x (by simp [hx])
    · have hc' : contiguous t hp nx = false := by
        rw [← Bool.not_eq_true, contiguous_iff hfits.1]
        exact hc
      refine ⟨t, by simp [mergeNext, hnx, hc'], ⟨nx :: post, free, h, ?_⟩, fun _ _ => rfl⟩
      simp only [List.map_cons, joinHead_cons_cons, if_neg hc]

/-- `merge` joins the three holes from `hp` on as far as they are adjacent. -/
theorem merge_spec (h : Rep t (pre ++ hp :: post) free)
    (hfits : Fits ((hp :: post).map t.area)) :
    ∃ t', merge t hp = .ok t' ∧ Edited t t' pre hp (joinThree ((hp :: post).map t.area)) := by
  have hnext := next_eq_head h
  cases post with
  | nil =>
    refine ⟨t, by simp [merge, hnext], ⟨[], free, h, rfl⟩, fun _ _ => rfl⟩
  | cons nx post =>
    simp only [List.map_cons, fits_cons] at hfits
    have hnx : t.next hp = some nx := by simpa using hnext
    by_cases hc : (t.area hp).stop = (t.area nx).base
    · have hsum : (t.area hp).len + (t.area nx).len < 65536 := by
        have := hfits.2.1
        simp only [Area.stop] at hc this
        omega
      obtain ⟨t₁, habs, hrep, hhp, hframe⟩ := absorb_spec h hsum
      have hmap : (hp :: post).map t₁.area =
          ⟨(t.area hp).base, (t.area hp).len + (t.area nx).len⟩ :: post.map t.area := by
        simp only [List.map_cons, hhp, List.cons.injEq, true_and]
        exact List.map_congr_left fun x hx => hframe x (by simp [hx])
      obtain ⟨t', hmn, hed⟩ := mergeNext_spec hrep (by
        rw [hmap, fits_cons]
        refine ⟨?_, hfits.2.2⟩
        have := hfits.2.1
        simp only [Area.stop] at hc this ⊢
        omega)
      refine ⟨t', by simp [merge, hnx, (contiguous_iff hfits.1).mpr hc, habs, hmn, Except.bind],
        ?_, fun x hx => (hed.frame x hx).trans (hframe x (by simp [hx]))⟩
      rw [List.map_cons, List.map_cons, joinThree_cons_cons, if_pos hc, ← hmap]
      exact hed.rep
    · have hc' : contiguous t hp nx = false := by
        rw [← Bool.not_eq_true, contiguous_iff hfits.1]
        exact hc
      have hrep : Rep t ((pre ++ [hp]) ++ nx :: post) free := by simpa using h
      obtain ⟨t', hmn, hed⟩ := mergeNext_spec hrep (by simpa using hfits.2)
      obtain ⟨post', free', hrep', hmap⟩ := hed.rep
      refine ⟨t', by simp [merge, hnx, hc', hmn], ⟨nx :: post', free', by simpa using hrep', ?_⟩,
        fun x hx => hed.frame x (by simp [hx])⟩
      rw [List.map_cons, hmap, hed.frame hp (by simp)]
      simp only [List.map_cons, joinThree_cons_cons, if_neg hc]

end Merge

/-! ## §4 `alloc_mem` -/

theorem allocLoop_some (t : HoleTable) (n fuel : ℕ) (prev : Option Slot) (hp : Slot) :
    allocLoop t n (fuel + 1) prev (some hp) =
      if (t.area hp).base % 2 = 1 then allocLoop t n fuel (some hp) (t.next hp)
      else if n ≤ (t.area hp).len then
        if ((t.setArea hp (toClicks ((t.hole hp).hBase + n)) ((t.hole hp).hLen - n)).hole hp).hLen
          ≠ 0 then
          .ok (t.setArea hp (toClicks ((t.hole hp).hBase + n)) ((t.hole hp).hLen - n),
            (t.area hp).base)
        else (delSlot (t.setArea hp (toClicks ((t.hole hp).hBase + n)) ((t.hole hp).hLen - n))
          prev hp).map fun t'' => (t'', (t.area hp).base)
      else allocLoop t n fuel (some hp) (t.next hp) := rfl

/-- The loop of `alloc_mem` from the holes `post` on. -/
theorem allocLoop_spec (pre : List Slot) {n fuel : ℕ} (h : Rep t (pre ++ post) free)
    (hfuel : post.length ≤ fuel) (heven : ∀ a ∈ post.map t.area, a.base % 2 = 0)
    (hfits : Fits (post.map t.area)) :
    match takeFirst n (post.map t.area) with
    | none => allocLoop t n fuel pre.getLast? post.head? = .ok (t, noMem)
    | some (b, as) => ∃ t' post' free', allocLoop t n fuel pre.getLast? post.head? = .ok (t', b) ∧
        Rep t' (pre ++ post') free' ∧ post'.map t'.area = as ∧ ∀ x ∈ pre, t'.area x = t.area x := by
  induction post generalizing pre fuel with
  | nil => simp [takeFirst, allocLoop]
  | cons hp post ih =>
    cases fuel with
    | zero => exact absurd hfuel (by simp)
    | succ fuel =>
      have hnext := next_eq_head h
      have hnd := h.holesChain.nodup
      have hhp : hp ∉ pre ++ post := by
        simp only [List.nodup_append, List.nodup_cons, List.mem_cons, List.mem_append] at hnd ⊢
        grind
      simp only [List.map_cons, List.mem_cons, forall_eq_or_imp, fits_cons] at heven hfits
      have hodd : ¬ (t.area hp).base % 2 = 1 := by
        have := heven.1
        omega
      by_cases hn : n ≤ (t.area hp).len
      · -- the hole is big enough: cut `n` clicks off its lower end
        have hbase : (t.hole hp).hBase + n < 65536 := by
          have := hfits.1
          simp only [Area.stop, HoleTable.base_area, HoleTable.len_area] at this hn
          omega
        set t₁ := t.setArea hp (toClicks ((t.hole hp).hBase + n)) ((t.hole hp).hLen - n) with ht1
        have harea : t₁.area = update t.area hp
            ⟨(t.area hp).base + n, (t.area hp).len - n⟩ := by
          rw [ht1, HoleTable.area_setArea, toClicks, Nat.mod_eq_of_lt hbase]
          rfl
        have hlen : (t₁.hole hp).hLen = (t.area hp).len - n := by
          rw [← HoleTable.len_area, harea, update_self]
        have hframe : ∀ x ∈ pre ++ post, t₁.area x = t.area x := fun x hx => by
          rw [harea, update_of_ne (ne_of_mem_of_not_mem hx hhp)]
        have hmap : post.map t₁.area = post.map t.area :=
          List.map_congr_left fun x hx => hframe x (by simp [hx])
        have hrep1 : Rep t₁ (pre ++ hp :: post) free :=
          h.congr (HoleTable.next_setArea ..) rfl rfl
        simp only [List.map_cons, takeFirst, if_pos hn, List.head?_cons]
        by_cases hrest : (t.area hp).len - n = 0
        · -- the hole is used up: its slot goes to the free list
          obtain ⟨t₂, hdel, hrep2, harea2⟩ := delSlot_spec hrep1
          refine ⟨t₂, post, hp :: free, ?_, hrep2, ?_, ?_⟩
          · rw [allocLoop_some, if_neg hodd, if_pos hn, ← ht1, hlen, if_neg (by simp [hrest]), hdel]
            rfl
          · rw [if_neg (by simp [hrest]), harea2, hmap]
          · intro x hx
            rw [harea2, hframe x (by simp [hx])]
        · refine ⟨t₁, hp :: post, free, ?_, hrep1, ?_, fun x hx => hframe x (by simp [hx])⟩
          · rw [allocLoop_some, if_neg hodd, if_pos hn, ← ht1, hlen, if_pos hrest]
          · rw [if_pos hrest, List.map_cons, hmap, harea, update_self]
      · -- too small: go on with the next hole
        have hstep : ∀ p, allocLoop t n (fuel + 1) p (some hp) =
            allocLoop t n fuel (some hp) post.head? := by
          intro p
          rw [allocLoop_some, if_neg hodd, if_neg hn, hnext]
        have hrep : Rep t ((pre ++ [hp]) ++ post) free := by simpa using h
        have := ih (pre ++ [hp]) hrep (by simpa using hfuel) heven.2 hfits.2
        simp only [List.map_cons, takeFirst, if_neg hn, List.head?_cons, hstep]
        simp only [List.getLast?_append, List.getLast?_singleton, Option.some_or] at this
        cases hres : takeFirst n (post.map t.area) with
        | none => simpa [hres] using this
        | some r =>
          simp only [hres] at this
          obtain ⟨t', post', free', hrun, hrep', hmap, hframe⟩ := this
          refine ⟨t', hp :: post', free', hrun, by simpa using hrep', ?_,
            fun x hx => hframe x (by simp [hx])⟩
          simp [hmap, hframe hp (by simp)]

/-- **`alloc_mem` is first fit** on the areas of the hole list. -/
theorem allocMem_spec (h : Rep t holes free) (heven : ∀ a ∈ holes.map t.area, a.base % 2 = 0)
    (hfits : Fits (holes.map t.area)) (clicks : ℕ) :
    match takeFirst (evenClicks clicks) (holes.map t.area) with
    | none => allocMem t clicks = .ok (t, noMem)
    | some (b, as) => ∃ t' holes' free', allocMem t clicks = .ok (t', b) ∧
        Rep t' holes' free' ∧ holes'.map t'.area = as := by
  have hspec := allocLoop_spec [] (n := evenClicks clicks) h h.length_le heven hfits
  rw [List.getLast?_nil, ← h.holesChain.head_eq] at hspec
  cases hres : takeFirst (evenClicks clicks) (holes.map t.area) with
  | none =>
    simp only [hres] at hspec
    exact hspec
  | some r =>
    simp only [hres] at hspec
    obtain ⟨t', holes', free', hrun, hrep, hmap, -⟩ := hspec
    exact ⟨t', holes', free', hrun, hrep, hmap⟩

/-! ## §5 `free_mem` -/

/-- The loop of `free_mem` finds the hole after which `giveAfter` inserts. -/
theorem findPrev_spec {x : Area} {prev : Slot} (fuel : ℕ) (h : Chain t.next (t.next prev) post)
    (hfuel : post.length ≤ fuel) :
    ∃ mid p rest, findPrev t x.base fuel prev (t.next prev) = .ok p ∧
      prev :: post = mid ++ p :: rest ∧
      giveAfter x (t.area prev) (post.map t.area) =
        mid.map t.area ++ joinThree (t.area p :: x :: rest.map t.area) := by
  induction post generalizing prev fuel with
  | nil =>
    refine ⟨[], prev, [], ?_, rfl, rfl⟩
    rw [show t.next prev = none from h]
    cases fuel <;> rfl
  | cons hp post ih =>
    cases fuel with
    | zero => exact absurd hfuel (by simp)
    | succ fuel =>
      have hstep : findPrev t x.base (fuel + 1) prev (t.next prev) =
          if (t.area hp).base < x.base then findPrev t x.base fuel hp (t.next hp)
          else .ok prev := by
        rw [h.1]
        rfl
      rw [hstep, List.map_cons, giveAfter_cons]
      by_cases hlt : (t.area hp).base < x.base
      · obtain ⟨mid, p, rest, hrun, heq, hgive⟩ := ih fuel h.2 (by simpa using hfuel)
        refine ⟨prev :: mid, p, rest, by rw [if_pos hlt, hrun], by rw [heq]; rfl, ?_⟩
        rw [if_pos hlt, hgive]
        rfl
      · exact ⟨[], prev, hp :: post, by rw [if_neg hlt], rfl, by rw [if_neg hlt]; rfl⟩

section Insert

variable {t : HoleTable} {holes free mid rest : List Slot} {new p : Slot}

/-- The unused slot `new`, taken off the free list, becomes the first hole. -/
theorem rep_insertFront (h : Rep t holes (new :: free)) :
    Rep { t.setNext new t.holeHead with holeHead := some new, freeSlots := t.next new }
      (new :: holes) free := by
  have hnd := h.nodup
  have hnew : new ∉ holes ∧ new ∉ free := by
    simp only [List.nodup_append, List.nodup_cons, List.mem_cons] at hnd
    grind
  refine Rep.of_next _ (HoleTable.next_setNext t new t.holeHead) ⟨rfl, ?_⟩ ?_
    (h.perm_of List.perm_middle.symm)
  · rw [update_self]
    exact h.holesChain.update hnew.1 _
  · exact h.freeChain.2.update hnew.2 _

/-- The unused slot `new`, taken off the free list, becomes the hole after `p`. -/
theorem rep_insertAfter (h : Rep t (mid ++ p :: rest) (new :: free)) :
    Rep { (t.setNext new (t.next p)).setNext p (some new) with freeSlots := t.next new }
      (mid ++ p :: new :: rest) free := by
  have hnd := h.nodup
  have hnew : new ∉ mid ++ p :: rest ∧ new ∉ free := by
    simp only [List.nodup_append, List.nodup_cons, List.mem_cons, List.mem_append] at hnd ⊢
    grind
  have hp : p ∉ free := fun hf =>
    List.disjoint_of_nodup_append hnd (a := p) (by simp) (by simp [hf])
  refine Rep.of_next (update (update t.next new (t.next p)) p (some new))
    ?_ (h.holesChain.link hnew.1) ?_ (h.perm_of ?_)
  · exact (HoleTable.next_setNext _ _ _).trans (by rw [HoleTable.next_setNext])
  · exact (h.freeChain.2.update hnew.2 _).update hp _
  · have hmid : (mid ++ p :: new :: rest ++ free).Perm ((mid ++ [p]) ++ new :: (rest ++ free)) := by
      simp
    refine hmid.trans (List.perm_middle.trans ?_)
    have hrest : (mid ++ p :: rest ++ new :: free).Perm (new :: (mid ++ p :: rest ++ free)) :=
      List.perm_middle
    refine List.Perm.trans ?_ hrest.symm
    simp

/-- `free_mem` once the unused slot `new` is known: it is filled in, taken off the free list
and linked in front of or behind a hole. -/
theorem freeMem_eq {base clicks : ℕ} (hfree : t.freeSlots = some new) :
    freeMem t base clicks =
      match t.holeHead with
      | none => merge { (t.setArea new base (evenClicks clicks)).setNext new none with
          holeHead := some new, freeSlots := t.next new } new
      | some hp =>
        if base ≤ ((t.setArea new base (evenClicks clicks)).area hp).base then
          merge { (t.setArea new base (evenClicks clicks)).setNext new (some hp) with
            holeHead := some new, freeSlots := t.next new } new
        else
          (findPrev { t.setArea new base (evenClicks clicks) with freeSlots := t.next new }
            base nrHoles hp ((t.setArea new base (evenClicks clicks)).next hp)).bind fun prev =>
          merge { ((t.setArea new base (evenClicks clicks)).setNext new
            ((t.setArea new base (evenClicks clicks)).next prev)).setNext prev (some new) with
            freeSlots := t.next new } prev := by
  simp only [freeMem, hfree]
  rfl

end Insert

/-- **`free_mem` is ordered insertion** with joining, as long as a slot is unused. -/
theorem freeMem_spec {newPtr : Slot} (h : Rep t holes (newPtr :: free)) {base clicks : ℕ}
    (hfits : Fits (⟨base, evenClicks clicks⟩ :: holes.map t.area)) :
    ∃ t' holes' free', freeMem t base clicks = .ok t' ∧ Rep t' holes' free' ∧
      holes'.map t'.area = giveBack ⟨base, evenClicks clicks⟩ (holes.map t.area) := by
  set x : Area := ⟨base, evenClicks clicks⟩ with hx
  rw [fits_cons] at hfits
  -- the slot is filled in while it is still the first of the free list
  set t₁ : HoleTable := t.setArea newPtr base (evenClicks clicks) with ht1
  have hrep1 : Rep t₁ holes (newPtr :: free) := h.congr (HoleTable.next_setArea ..) rfl rfl
  have hnew : newPtr ∉ holes := fun hs =>
    List.disjoint_of_nodup_append h.nodup hs (List.mem_cons_self ..)
  have harea : t₁.area = update t.area newPtr x := HoleTable.area_setArea ..
  have hnewArea : t₁.area newPtr = x := by rw [harea, update_self]
  have hmap : ∀ l, l ⊆ holes → l.map t₁.area = l.map t.area := fun l hl =>
    List.map_congr_left fun s hs => by
      rw [harea, update_of_ne (ne_of_mem_of_not_mem (hl hs) hnew)]
  have hnext : t₁.next = t.next := HoleTable.next_setArea ..
  have hmerge : ∀ (t₂ : HoleTable) (pre post free : List Slot) (hp : Slot),
      Rep t₂ (pre ++ hp :: post) free → t₂.area = t₁.area → pre ⊆ holes →
      Fits ((hp :: post).map t₁.area) →
      ∃ t' holes' free', merge t₂ hp = .ok t' ∧ Rep t' holes' free' ∧
        holes'.map t'.area = pre.map t.area ++ joinThree ((hp :: post).map t₁.area) := by
    intro t₂ pre post free hp hrep2 harea2 hpre hfit
    obtain ⟨t', hrun, ⟨post', free', hrep', hmap'⟩, hframe⟩ := merge_spec hrep2 (by rwa [harea2])
    refine ⟨t', _, free', hrun, hrep', ?_⟩
    rw [List.map_append, hmap', harea2, ← hmap pre hpre, ← harea2, List.map_congr_left hframe]
  -- insertion in front of all holes
  have hfront : ∃ t' holes' free',
      merge { t₁.setNext newPtr t₁.holeHead with
        holeHead := some newPtr, freeSlots := t.next newPtr } newPtr = .ok t' ∧
        Rep t' holes' free' ∧ holes'.map t'.area = joinThree (x :: holes.map t.area) := by
    have hrep2 := rep_insertFront hrep1
    rw [hnext] at hrep2
    have hfit : Fits ((newPtr :: holes).map t₁.area) := by
      rw [List.map_cons, hnewArea, hmap holes (List.Subset.refl _), fits_cons]
      exact hfits
    obtain ⟨t', holes', free', hrun, hrep', hmap'⟩ :=
      hmerge _ [] holes free newPtr hrep2 (HoleTable.area_setNext ..) (List.nil_subset _) hfit
    refine ⟨t', holes', free', hrun, hrep', ?_⟩
    rw [hmap', List.map_cons, hnewArea, hmap holes (List.Subset.refl _)]
    rfl
  have hfree : t.freeSlots = some newPtr := h.freeChain.1
  rw [freeMem_eq hfree, ← ht1]
  cases holes with
  | nil =>
    have hhead : t.holeHead = none := h.holesChain.head_eq
    have hhead1 : t₁.holeHead = none := hhead
    rw [hhead1] at hfront
    rw [hhead]
    exact hfront
  | cons hp holes =>
    have hhead : t.holeHead = some hp := h.holesChain.1
    have hhead1 : t₁.holeHead = some hp := hhead
    have hbase : t₁.area hp = t.area hp := by
      rw [harea, update_of_ne]
      exact ne_of_mem_of_not_mem (List.mem_cons_self ..) hnew
    simp only [hhead, hbase, List.map_cons, giveBack_cons]
    by_cases hle : base ≤ (t.area hp).base
    · rw [hhead1] at hfront
      rw [if_pos hle, if_pos hle]
      exact hfront
    · rw [if_neg hle, if_neg hle]
      obtain ⟨mid, p, rest, hfind, heq, hgive⟩ :=
        findPrev_spec (t := { t₁ with freeSlots := t.next newPtr }) (x := x) nrHoles
          hrep1.holesChain.2 (by
            have := h.length_le
            simp only [List.length_cons] at this
            omega)
      have hfind' : findPrev { t₁ with freeSlots := t.next newPtr } base nrHoles hp (t₁.next hp)
        = .ok p := hfind
      have hgive' : giveAfter x (t₁.area hp) (holes.map t₁.area) =
        mid.map t₁.area ++ joinThree (t₁.area p :: x :: rest.map t₁.area) := hgive
      rw [hfind', Except.bind, ← hbase, ← hmap holes (List.subset_cons_self ..), hgive', hnext]
      rw [heq] at hrep1 hmap hmerge
      have hrep2 := rep_insertAfter hrep1
      rw [hnext] at hrep2
      have hmid : mid ⊆ mid ++ p :: rest := List.subset_append_left ..
      have hrest : p :: rest ⊆ mid ++ p :: rest := List.subset_append_right ..
      have hfit : Fits ((p :: newPtr :: rest).map t₁.area) := by
        have hold : Fits ((p :: rest).map t₁.area) := by
          rw [hmap _ hrest]
          intro a ha
          exact hfits.2 a (heq ▸ List.map_subset _ hrest ha)
        simp only [List.map_cons, fits_cons, hnewArea] at hold ⊢
        exact ⟨hold.1, hfits.1, hold.2⟩
      obtain ⟨t', holes', free', hrun, hrep', hmap'⟩ :=
        hmerge _ mid (newPtr :: rest) free p hrep2
          ((HoleTable.area_setNext _ _ _).trans (HoleTable.area_setNext _ _ _)) hmid hfit
      refine ⟨t', holes', free', hrun, hrep', ?_⟩
      rw [hmap', hmap mid hmid, List.map_cons, List.map_cons, hnewArea]

/-! ## §6 `max_hole` and `mem_init` -/

theorem maxHoleLoop_spec {p : Option Slot} {l : List Slot} {fuel m : ℕ} (h : Chain t.next p l)
    (hfuel : l.length ≤ fuel) :
    ∃ r, maxHoleLoop t fuel m p = .ok r ∧ m ≤ r ∧ (∀ s ∈ l, (t.area s).len ≤ r) ∧
      (r = m ∨ ∃ s ∈ l, (t.area s).len = r) := by
  induction l generalizing p fuel m with
  | nil =>
    rw [show p = none from h]
    exact ⟨m, by cases fuel <;> rfl, Nat.le_refl m, by simp, .inl rfl⟩
  | cons hp l ih =>
    cases fuel with
    | zero => exact absurd hfuel (by simp)
    | succ fuel =>
      have hstep : maxHoleLoop t (fuel + 1) m p =
          maxHoleLoop t fuel (if m < (t.area hp).len then (t.area hp).len else m) (t.next hp) := by
        rw [h.1]
        rfl
      obtain ⟨r, hrun, hle, hall, hmax⟩ :=
        ih (m := if m < (t.area hp).len then (t.area hp).len else m) h.2 (by simpa using hfuel)
      refine ⟨r, hstep.trans hrun, ?_, ?_, ?_⟩
      · split at hle <;> omega
      · simp only [List.mem_cons, forall_eq_or_imp]
        exact ⟨by split at hle <;> omega, hall⟩
      · rcases hmax with hr | ⟨s, hs, hr⟩
        · by_cases hlt : m < (t.area hp).len
          · rw [if_pos hlt] at hr
            exact .inr ⟨hp, by simp, hr.symm⟩
          · rw [if_neg hlt] at hr
            exact .inl hr
        · exact .inr ⟨s, by simp [hs], hr⟩

/-- `max_hole` returns the length of the longest hole. -/
theorem maxHole_spec (h : Rep t holes free) :
    ∃ m, maxHole t = .ok m ∧ (∀ a ∈ holes.map t.area, a.len ≤ m) ∧
      (m = 0 ∨ ∃ a ∈ holes.map t.area, a.len = m) := by
  obtain ⟨m, hrun, -, hall, hmax⟩ := maxHoleLoop_spec (m := 0) h.holesChain h.length_le
  refine ⟨m, hrun, by simpa using hall, ?_⟩
  rcases hmax with hr | ⟨s, hs, hr⟩
  · exact .inl hr
  · exact .inr ⟨t.area s, List.mem_map_of_mem hs, hr⟩

/-- All slots of the table are on the free list, in order. -/
theorem emptyTable_rep : Rep emptyTable [] (List.finRange nrHoles) :=
  ⟨rfl, by decide +kernel, List.Perm.refl _⟩

end LisaMinix.Mm
