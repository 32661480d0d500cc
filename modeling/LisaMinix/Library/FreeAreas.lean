import Mathlib.Tactic
import Mathlib.Data.List.Perm.Subperm
import Mathlib.Algebra.BigOperators.Group.List.Basic

/-!
# First-Fit Allocation on Ordered Lists of Free Areas

An abstract allocator.  Its state is the list of free areas of an address range, in
ascending order, together with the areas that have been handed out:

- `takeFirst n` cuts `n` cells off the first free area that is long enough;
- `giveBack x` inserts `x` in order and joins it with its neighbours.

`Partition top holes blocks` says that the free areas and the blocks in use tile the range
below `top`.  Both operations preserve it, and it bounds the number of free areas by the
number of blocks (`Partition.length_le`).
-/

namespace LisaMinix.Library

variable {as : List Area} {a : Area}

/-- `len` consecutive cells from `base` on. -/
structure Area where
  base : ℕ
  len : ℕ
  deriving DecidableEq

namespace Area

/-- The first cell after the area. -/
def stop (a : Area) : ℕ := a.base + a.len

/-- The two areas share no cell. -/
def Apart (a b : Area) : Prop := a.stop ≤ b.base ∨ b.stop ≤ a.base

/-- `a` lies below `b`, and at least one cell is between them. -/
def Before (a b : Area) : Prop := a.stop < b.base

instance (a b : Area) : Decidable (a.Apart b) := inferInstanceAs (Decidable (_ ∨ _))

theorem Apart.symm {a b : Area} (h : a.Apart b) : b.Apart a := Or.symm h

end Area

/-- The number of cells in a list of areas. -/
def total (as : List Area) : ℕ := (as.map Area.len).sum

@[simp] theorem total_nil : total [] = 0 := rfl

@[simp] theorem total_cons (a : Area) (as : List Area) : total (a :: as) = a.len + total as := by
  simp [total]

@[simp] theorem total_append (as bs : List Area) : total (as ++ bs) = total as + total bs := by
  simp [total]

/-- Some area of the list contains the cell `c`. -/
def Covers (as : List Area) (c : ℕ) : Prop := ∃ a ∈ as, a.base ≤ c ∧ c < a.stop

@[simp] theorem covers_nil (c : ℕ) : ¬ Covers [] c := by
  simp [Covers]

@[simp] theorem covers_cons (a : Area) (as : List Area) (c : ℕ) :
    Covers (a :: as) c ↔ (a.base ≤ c ∧ c < a.stop) ∨ Covers as c := by
  simp [Covers]

@[simp] theorem covers_append (as bs : List Area) (c : ℕ) :
    Covers (as ++ bs) c ↔ Covers as c ∨ Covers bs c := by
  simp only [Covers, List.mem_append]
  constructor
  · rintro ⟨a, ha | ha, h⟩
    · exact .inl ⟨a, ha, h⟩
    · exact .inr ⟨a, ha, h⟩
  · rintro (⟨a, ha, h⟩ | ⟨a, ha, h⟩)
    · exact ⟨a, .inl ha, h⟩
    · exact ⟨a, .inr ha, h⟩

/-- Ascending order, no empty area, no two areas overlapping or adjacent. -/
structure Ordered (as : List Area) : Prop where
  before : as.Pairwise Area.Before
  pos : ∀ a ∈ as, 0 < a.len

/-! ## §1 The operations -/

/-- First fit: the base of the `n` cells taken, and the areas that remain. -/
def takeFirst (n : ℕ) : List Area → Option (ℕ × List Area)
  | [] => none
  | a :: as =>
    if n ≤ a.len then
      some (a.base, if a.len - n ≠ 0 then ⟨a.base + n, a.len - n⟩ :: as else as)
    else (takeFirst n as).map fun r => (r.1, a :: r.2)

/-- Join the first area with the second one if they are adjacent. -/
def joinHead : List Area → List Area
  | a :: b :: as => if a.stop = b.base then ⟨a.base, a.len + b.len⟩ :: as else a :: b :: as
  | as => as

/-- Join the first three areas as far as they are adjacent. -/
def joinThree : List Area → List Area
  | a :: b :: as =>
    if a.stop = b.base then joinHead (⟨a.base, a.len + b.len⟩ :: as) else a :: joinHead (b :: as)
  | as => as

/-- Insert `x` after the area `a`, which starts below it. -/
def giveAfter (x a : Area) : List Area → List Area
  | [] => joinThree [a, x]
  | b :: as => if b.base < x.base then a :: giveAfter x b as else joinThree (a :: x :: b :: as)

/-- Insert `x` in order and join it with its neighbours. -/
def giveBack (x : Area) : List Area → List Area
  | [] => joinThree [x]
  | a :: as => if x.base ≤ a.base then joinThree (x :: a :: as) else giveAfter x a as

/-! ## §2 First fit -/

theorem takeFirst_eq_none {n : ℕ} : takeFirst n as = none ↔ ∀ a ∈ as, a.len < n := by
  induction as with
  | nil => simp [takeFirst]
  | cons a as ih =>
    by_cases h : n ≤ a.len
    · simp only [takeFirst, if_pos h, List.mem_cons, forall_eq_or_imp]
      exact ⟨fun hn => absurd hn (by simp), fun hn => by omega⟩
    · simp only [takeFirst, if_neg h, Option.map_eq_none_iff, ih, List.mem_cons, forall_eq_or_imp]
      exact ⟨fun hn => ⟨by omega, hn⟩, fun hn => hn.2⟩

/-- What first fit does: one area is cut, the others stay. -/
theorem takeFirst_eq_some {n b : ℕ} {as' : List Area} (h : takeFirst n as = some (b, as')) :
    ∃ pre a post, as = pre ++ a :: post ∧ n ≤ a.len ∧ b = a.base ∧
      as' = pre ++ (if a.len - n ≠ 0 then [⟨a.base + n, a.len - n⟩] else []) ++ post := by
  induction as generalizing as' with
  | nil => simp [takeFirst] at h
  | cons a as ih =>
    by_cases hn : n ≤ a.len
    · simp only [takeFirst, if_pos hn, Option.some.injEq, Prod.mk.injEq] at h
      obtain ⟨rfl, rfl⟩ := h
      refine ⟨[], a, as, rfl, hn, rfl, ?_⟩
      split <;> simp
    · simp only [takeFirst, if_neg hn, Option.map_eq_some_iff, Prod.mk.injEq, Prod.exists] at h
      obtain ⟨b', as'', htake, rfl, rfl⟩ := h
      obtain ⟨pre, x, post, rfl, hx, rfl, rfl⟩ := ih htake
      exact ⟨a :: pre, x, post, rfl, hx, rfl, by simp⟩

/-! ## §3 Insertion -/

theorem joinHead_cons_cons (a b : Area) (as : List Area) :
    joinHead (a :: b :: as) =
      if a.stop = b.base then ⟨a.base, a.len + b.len⟩ :: as else a :: b :: as := rfl

theorem joinThree_cons_cons (a b : Area) (as : List Area) :
    joinThree (a :: b :: as) =
      if a.stop = b.base then joinHead (⟨a.base, a.len + b.len⟩ :: as)
      else a :: joinHead (b :: as) := rfl

theorem giveAfter_cons (x a b : Area) (as : List Area) :
    giveAfter x a (b :: as) =
      if b.base < x.base then a :: giveAfter x b as else joinThree (a :: x :: b :: as) := rfl

theorem giveBack_cons (x a : Area) (as : List Area) :
    giveBack x (a :: as) =
      if x.base ≤ a.base then joinThree (x :: a :: as) else giveAfter x a as := rfl

section Forall

variable {P : Area → Prop} (hjoin : ∀ a b, P a → P b → P ⟨a.base, a.len + b.len⟩)
variable {as : List Area}

include hjoin

theorem joinHead_forall (h : ∀ a ∈ as, P a) : ∀ a ∈ joinHead as, P a := by
  match as, h with
  | [], h => exact h
  | [_], h => exact h
  | a :: b :: as, h =>
    rw [joinHead_cons_cons]
    split
    · simp only [List.mem_cons, forall_eq_or_imp] at h ⊢
      exact ⟨hjoin a b h.1 h.2.1, h.2.2⟩
    · exact h

theorem joinThree_forall (h : ∀ a ∈ as, P a) : ∀ a ∈ joinThree as, P a := by
  match as, h with
  | [], h => exact h
  | [_], h => exact h
  | a :: b :: as, h =>
    rw [joinThree_cons_cons]
    simp only [List.mem_cons, forall_eq_or_imp] at h
    split
    · apply joinHead_forall hjoin
      simp only [List.mem_cons, forall_eq_or_imp]
      exact ⟨hjoin a b h.1 h.2.1, h.2.2⟩
    · simp only [List.mem_cons, forall_eq_or_imp]
      refine ⟨h.1, joinHead_forall hjoin ?_⟩
      simpa using h.2

theorem giveAfter_forall {x a : Area} (hx : P x) (ha : P a) (h : ∀ b ∈ as, P b) :
    ∀ b ∈ giveAfter x a as, P b := by
  induction as generalizing a with
  | nil => exact joinThree_forall hjoin (by simp [hx, ha])
  | cons b as ih =>
    simp only [List.mem_cons, forall_eq_or_imp] at h
    rw [giveAfter_cons]
    split
    · simp only [List.mem_cons, forall_eq_or_imp]
      exact ⟨ha, ih h.1 h.2⟩
    · exact joinThree_forall hjoin (by simpa using ⟨ha, hx, h⟩)

/-- A property that holds of `x` and of every area, and that joining preserves, holds of
every area after the insertion. -/
theorem giveBack_forall {x : Area} (hx : P x) (h : ∀ a ∈ as, P a) : ∀ a ∈ giveBack x as, P a := by
  cases as with
  | nil =>
    show ∀ a ∈ joinThree [x], P a
    exact joinThree_forall hjoin (by simpa using hx)
  | cons a as =>
    simp only [List.mem_cons, forall_eq_or_imp] at h
    rw [giveBack_cons]
    split
    · exact joinThree_forall hjoin (by simpa using ⟨hx, h⟩)
    · exact giveAfter_forall hjoin hx h.1 h.2

end Forall

theorem covers_joinHead (as : List Area) (c : ℕ) : Covers (joinHead as) c ↔ Covers as c := by
  match as with
  | [] => exact Iff.rfl
  | [_] => exact Iff.rfl
  | a :: b :: as =>
    rw [joinHead_cons_cons]
    split
    · next h =>
      simp only [covers_cons, Area.stop] at h ⊢
      constructor
      · rintro (hc | hc)
        · by_cases hca : c < a.base + a.len
          · exact .inl ⟨hc.1, hca⟩
          · exact .inr (.inl (by omega))
        · exact .inr (.inr hc)
      · rintro (hc | hc | hc)
        · exact .inl (by omega)
        · exact .inl (by omega)
        · exact .inr hc
    · exact Iff.rfl

theorem covers_joinThree (as : List Area) (c : ℕ) : Covers (joinThree as) c ↔ Covers as c := by
  match as with
  | [] => exact Iff.rfl
  | [_] => exact Iff.rfl
  | a :: b :: as =>
    rw [joinThree_cons_cons]
    split
    · next h =>
      rw [covers_joinHead, ← covers_joinHead (a :: b :: as)]
      simp [joinHead, h]
    · rw [covers_cons, covers_joinHead, covers_cons a]

theorem covers_giveAfter (x a : Area) (as : List Area) (c : ℕ) :
    Covers (giveAfter x a as) c ↔ (x.base ≤ c ∧ c < x.stop) ∨ Covers (a :: as) c := by
  induction as generalizing a with
  | nil => simp only [giveAfter, covers_joinThree, covers_cons, covers_nil]; tauto
  | cons b as ih =>
    rw [giveAfter_cons]
    split
    · simp only [covers_cons, ih]; tauto
    · simp only [covers_joinThree, covers_cons]; tauto

/-- Insertion covers the cells of `x` and those that were covered before. -/
theorem covers_giveBack (x : Area) (as : List Area) (c : ℕ) :
    Covers (giveBack x as) c ↔ (x.base ≤ c ∧ c < x.stop) ∨ Covers as c := by
  cases as with
  | nil => simp only [giveBack, covers_joinThree, covers_cons]
  | cons a as =>
    rw [giveBack_cons]
    split
    · simp only [covers_joinThree, covers_cons]
    · exact covers_giveAfter x a as c

theorem total_joinHead (as : List Area) : total (joinHead as) = total as := by
  match as with
  | [] => rfl
  | [_] => rfl
  | a :: b :: as =>
    rw [joinHead_cons_cons]
    split
    · simp only [total_cons]; omega
    · rfl

theorem total_joinThree (as : List Area) : total (joinThree as) = total as := by
  match as with
  | [] => rfl
  | [_] => rfl
  | a :: b :: as =>
    rw [joinThree_cons_cons]
    split
    · simp only [total_joinHead, total_cons]; omega
    · simp only [total_cons, total_joinHead]

theorem total_giveAfter (x a : Area) (as : List Area) :
    total (giveAfter x a as) = x.len + total (a :: as) := by
  induction as generalizing a with
  | nil => simp only [giveAfter, total_joinThree, total_cons, total_nil]; omega
  | cons b as ih =>
    rw [giveAfter_cons]
    split
    · simp only [total_cons, ih]; omega
    · simp only [total_joinThree, total_cons]; omega

theorem total_giveBack (x : Area) (as : List Area) :
    total (giveBack x as) = x.len + total as := by
  cases as with
  | nil => simp only [giveBack, total_joinThree, total_cons]
  | cons a as =>
    rw [giveBack_cons]
    split
    · simp only [total_joinThree, total_cons]
    · exact total_giveAfter x a as

theorem ordered_cons : Ordered (a :: as) ↔ 0 < a.len ∧ (∀ b ∈ as, a.Before b) ∧ Ordered as := by
  constructor
  · intro h
    have hb := List.pairwise_cons.mp h.before
    exact ⟨h.pos a (by simp), hb.1, hb.2, fun b hb => h.pos b (by simp [hb])⟩
  · rintro ⟨hpos, hbefore, h⟩
    refine ⟨List.pairwise_cons.mpr ⟨hbefore, h.before⟩, ?_⟩
    simp only [List.mem_cons, forall_eq_or_imp]
    exact ⟨hpos, h.pos⟩

/-- The cell after an area of an ordered list is in no area of the list. -/
theorem Ordered.stop_not_mem (h : Ordered as) {b : Area} (ha : a ∈ as) (hb : b ∈ as) :
    ¬ (b.base ≤ a.stop ∧ a.stop < b.stop) := by
  obtain ⟨pre, post, rfl⟩ := List.append_of_mem ha
  have hord := h.before
  simp only [List.pairwise_append, List.pairwise_cons, List.mem_cons, forall_eq_or_imp] at hord
  have hapos := h.pos a ha
  rcases List.mem_append.mp hb with hb | hb
  · have := (hord.2.2 b hb).1
    simp only [Area.Before, Area.stop] at this ⊢
    omega
  · rcases List.mem_cons.mp hb with rfl | hb
    · omega
    · have := hord.2.1.1 b hb
      simp only [Area.Before, Area.stop] at this ⊢
      omega

theorem joinHead_ordered (hpos : 0 < a.len) (hle : ∀ b ∈ as, a.stop ≤ b.base) (h : Ordered as) :
    Ordered (joinHead (a :: as)) := by
  cases as with
  | nil => exact ordered_cons.mpr ⟨hpos, by simp, h⟩
  | cons b as =>
    obtain ⟨hb, hbas, has⟩ := ordered_cons.mp h
    rw [joinHead_cons_cons]
    split
    · next hab =>
      refine ordered_cons.mpr ⟨by simp only; omega, fun c hc => ?_, has⟩
      have hbc := hbas c hc
      simp only [Area.Before, Area.stop] at hab hbc ⊢
      omega
    · next hab =>
      refine ordered_cons.mpr ⟨hpos, fun c hc => ?_, h⟩
      have hab' := hle b (by simp)
      rcases List.mem_cons.mp hc with rfl | hc
      · exact Nat.lt_of_le_of_ne hab' hab
      · have hbc := hbas c hc
        simp only [Area.Before, Area.stop] at hab' hbc ⊢
        omega

theorem joinThree_ordered {b : Area} (ha : 0 < a.len) (hb : 0 < b.len) (hab : a.stop ≤ b.base)
    (hle : ∀ c ∈ as, b.stop ≤ c.base) (h : Ordered as) : Ordered (joinThree (a :: b :: as)) := by
  rw [joinThree_cons_cons]
  split
  · next hadj =>
    refine joinHead_ordered (by simp only; omega) (fun c hc => ?_) h
    have hbc := hle c hc
    simp only [Area.stop] at hadj hbc ⊢
    omega
  · next hne =>
    refine ordered_cons.mpr ⟨ha, ?_, joinHead_ordered hb hle h⟩
    have hlt : a.stop < b.base := Nat.lt_of_le_of_ne hab hne
    refine joinHead_forall (fun _ _ hc _ => hc) ?_
    simp only [List.mem_cons, forall_eq_or_imp]
    refine ⟨hlt, fun c hc => ?_⟩
    have hbc := hle c hc
    simp only [Area.Before, Area.stop] at hlt hbc ⊢
    omega

theorem giveAfter_ordered {x : Area} (hx : 0 < x.len) (hax : a.base < x.base)
    (hapart : ∀ b ∈ a :: as, x.Apart b) (h : Ordered (a :: as)) : Ordered (giveAfter x a as) := by
  induction as generalizing a with
  | nil =>
    have hxa := hapart a (by simp)
    refine joinThree_ordered (h.pos a (by simp)) hx ?_ (by simp) ⟨List.Pairwise.nil, by simp⟩
    simp only [Area.Apart, Area.stop] at hxa ⊢
    omega
  | cons b as ih =>
    obtain ⟨ha, hab, hbas⟩ := ordered_cons.mp h
    have hxa := hapart a (by simp)
    rw [giveAfter_cons]
    split
    · next hbx =>
      refine ordered_cons.mpr ⟨ha, ?_, ih hbx (fun c hc => hapart c (by simp [hc])) hbas⟩
      have hlt : a.stop < b.base := hab b (by simp)
      have haseq : ∀ c ∈ as, a.Before c := fun c hc => hab c (by simp [hc])
      have hax' : a.Before x := Nat.lt_trans hlt hbx
      exact giveAfter_forall (fun _ _ hc _ => hc) hax' hlt haseq
    · next hbx =>
      refine joinThree_ordered ha hx ?_ (fun c hc => ?_) hbas
      · simp only [Area.Apart, Area.stop] at hxa ⊢
        omega
      · have hxc := hapart c (by simp [hc])
        have hcpos := hbas.pos c hc
        have hbc : b.base ≤ c.base := by
          rcases List.mem_cons.mp hc with rfl | hc
          · exact Nat.le_refl _
          · have := (ordered_cons.mp hbas).2.1 c hc
            simp only [Area.Before, Area.stop] at this
            omega
        simp only [Area.Apart, Area.stop] at hxc ⊢
        omega

/-- Inserting an area that overlaps none keeps the list ordered and joined. -/
theorem giveBack_ordered {x : Area} {as : List Area} (hx : 0 < x.len)
    (hapart : ∀ b ∈ as, x.Apart b) (h : Ordered as) : Ordered (giveBack x as) := by
  cases as with
  | nil => exact ordered_cons.mpr ⟨hx, by simp, h⟩
  | cons a as =>
    obtain ⟨ha, haas, has⟩ := ordered_cons.mp h
    have hxa := hapart a (by simp)
    rw [giveBack_cons]
    split
    · next hle =>
      refine joinThree_ordered hx ha ?_ (fun c hc => ?_) has
      · simp only [Area.Apart, Area.stop] at hxa ⊢
        omega
      · exact Nat.le_of_lt (haas c hc)
    · next hlt => exact giveAfter_ordered hx (by omega) hapart h

/-! ## §4 Tiling -/

/-- The free areas `holes` and the areas in use `blocks` tile the cells below `top`. -/
structure Partition (top : ℕ) (holes blocks : List Area) : Prop where
  ordered : Ordered holes
  pos : ∀ b ∈ blocks, 0 < b.len
  apart : blocks.Pairwise Area.Apart
  sep : ∀ a ∈ holes, ∀ b ∈ blocks, a.Apart b
  within : ∀ a ∈ holes ++ blocks, a.stop ≤ top
  covers : ∀ c < top, Covers (holes ++ blocks) c
  sum : total holes + total blocks = top

namespace Partition

variable {top : ℕ} {holes blocks blocks' : List Area}

theorem perm (h : Partition top holes blocks) (hp : blocks.Perm blocks') :
    Partition top holes blocks' where
  ordered := h.ordered
  pos b hb := h.pos b (hp.mem_iff.mpr hb)
  apart := (hp.pairwise_iff fun hab => hab.symm).mp h.apart
  sep a ha b hb := h.sep a ha b (hp.mem_iff.mpr hb)
  within a ha := h.within a (((List.Perm.refl holes).append hp).mem_iff.mpr ha)
  covers c hc := by
    obtain ⟨a, ha, hac⟩ := h.covers c hc
    exact ⟨a, ((List.Perm.refl holes).append hp).mem_iff.mp ha, hac⟩
  sum := by
    have hsum : total blocks = total blocks' := (hp.map Area.len).sum_eq
    rw [← hsum]
    exact h.sum

/-- A block may be looked at as two blocks. -/
theorem split {b m n : ℕ} (h : Partition top holes (⟨b, m + n⟩ :: blocks)) (hm : 0 < m)
    (hn : 0 < n) : Partition top holes (⟨b, m⟩ :: ⟨b + m, n⟩ :: blocks) where
  ordered := h.ordered
  pos x hx := by
    rcases List.mem_cons.mp hx with rfl | hx
    · exact hm
    rcases List.mem_cons.mp hx with rfl | hx
    · exact hn
    · exact h.pos x (List.mem_cons_of_mem _ hx)
  apart := by
    obtain ⟨hfirst, hrest⟩ := List.pairwise_cons.mp h.apart
    refine List.pairwise_cons.mpr ⟨fun x hx => ?_, List.pairwise_cons.mpr ⟨fun x hx => ?_, hrest⟩⟩
    · rcases List.mem_cons.mp hx with rfl | hx
      · exact .inl (le_refl _)
      · have := hfirst x hx
        simp only [Area.Apart, Area.stop] at this ⊢
        omega
    · have := hfirst x hx
      simp only [Area.Apart, Area.stop] at this ⊢
      omega
  sep a ha x hx := by
    have hwhole := h.sep a ha ⟨b, m + n⟩ (List.mem_cons_self ..)
    simp only [List.mem_cons] at hx
    rcases hx with rfl | rfl | hx
    · simp only [Area.Apart, Area.stop] at hwhole ⊢
      omega
    · simp only [Area.Apart, Area.stop] at hwhole ⊢
      omega
    · exact h.sep a ha x (List.mem_cons_of_mem _ hx)
  within x hx := by
    have hwhole := h.within ⟨b, m + n⟩ (by simp)
    simp only [List.mem_append, List.mem_cons] at hx
    rcases hx with hx | rfl | rfl | hx
    · exact h.within x (by simp [hx])
    · simp only [Area.stop] at hwhole ⊢
      omega
    · simp only [Area.stop] at hwhole ⊢
      omega
    · exact h.within x (by simp [hx])
  covers c hc := by
    have hcell := h.covers c hc
    simp only [covers_append, covers_cons, Area.stop] at hcell ⊢
    rcases hcell with hcell | hcell | hcell
    · exact .inl hcell
    · rcases Nat.lt_or_ge c (b + m) with hlt | hge
      · exact .inr (.inl ⟨hcell.1, hlt⟩)
      · exact .inr (.inr (.inl ⟨hge, by omega⟩))
    · exact .inr (.inr (.inr hcell))
  sum := by
    have hsum := h.sum
    simp only [total_cons] at hsum ⊢
    omega

/-- First fit preserves the tiling; the cells cut off become a block. -/
theorem takeFirst (h : Partition top holes blocks) {n b : ℕ} {holes' : List Area} (hn : 0 < n)
    (ht : Library.takeFirst n holes = some (b, holes')) :
    Partition top holes' (⟨b, n⟩ :: blocks) := by
  obtain ⟨pre, a, post, rfl, hna, rfl, rfl⟩ := takeFirst_eq_some ht
  set rest : List Area := if a.len - n ≠ 0 then [⟨a.base + n, a.len - n⟩] else [] with hrest
  -- the only area that can remain of `a` is its upper part
  have hmem : ∀ x ∈ rest, x = ⟨a.base + n, a.len - n⟩ ∧ n < a.len := by
    intro x hx
    rw [hrest] at hx
    split at hx
    · exact ⟨List.mem_singleton.mp hx, by omega⟩
    · exact absurd hx (by simp)
  have hcov : ∀ c, Covers rest c ↔ a.base + n ≤ c ∧ c < a.stop := by
    intro c
    rw [hrest]
    split
    · simp only [covers_cons, covers_nil, or_false, Area.stop]; omega
    · simp only [covers_nil, Area.stop, false_iff]; omega
  have htot : total rest = a.len - n := by
    rw [hrest]
    split
    · simp
    · simp only [total_nil]; omega
  have hord := h.ordered.before
  simp only [List.pairwise_append, List.pairwise_cons, List.mem_cons, forall_eq_or_imp] at hord
  obtain ⟨hpre, ⟨hapost, hpost⟩, hcross⟩ := hord
  have hsepa : ∀ y ∈ blocks, a.Apart y := h.sep a (by simp)
  refine ⟨⟨?_, ?_⟩, ?_, ?_, ?_, ?_, ?_, ?_⟩
  · simp only [List.append_assoc, List.pairwise_append, List.mem_append]
    refine ⟨hpre, ⟨?_, hpost, ?_⟩, ?_⟩
    · rw [hrest]; split <;> simp
    · intro x hx y hy
      obtain ⟨rfl, hlt⟩ := hmem x hx
      have := hapost y hy
      simp only [Area.Before, Area.stop] at this ⊢
      omega
    · rintro x hx y (hy | hy)
      · obtain ⟨rfl, hlt⟩ := hmem y hy
        have := (hcross x hx).1
        simp only [Area.Before, Area.stop] at this ⊢
        omega
      · exact (hcross x hx).2 y hy
  · simp only [List.mem_append]
    rintro x ((hx | hx) | hx)
    · exact h.ordered.pos x (by simp [hx])
    · obtain ⟨rfl, hlt⟩ := hmem x hx
      simp only
      omega
    · exact h.ordered.pos x (by simp [hx])
  · simp only [List.mem_cons, forall_eq_or_imp]
    exact ⟨hn, h.pos⟩
  · refine List.pairwise_cons.mpr ⟨fun y hy => ?_, h.apart⟩
    have := hsepa y hy
    simp only [Area.Apart, Area.stop] at this ⊢
    omega
  · simp only [List.mem_append, List.mem_cons]
    rintro x ((hx | hx) | hx) y (rfl | hy)
    · have := (hcross x hx).1
      simp only [Area.Before, Area.Apart, Area.stop] at this ⊢
      omega
    · exact h.sep x (by simp [hx]) y hy
    · obtain ⟨rfl, hlt⟩ := hmem x hx
      simp only [Area.Apart, Area.stop]
      omega
    · obtain ⟨rfl, hlt⟩ := hmem x hx
      have := hsepa y hy
      simp only [Area.Apart, Area.stop] at this ⊢
      omega
    · have := hapost x hx
      simp only [Area.Before, Area.Apart, Area.stop] at this ⊢
      omega
    · exact h.sep x (by simp [hx]) y hy
  · have htop : a.stop ≤ top := h.within a (by simp)
    simp only [List.mem_append, List.mem_cons]
    rintro x (((hx | hx) | hx) | rfl | hx)
    · exact h.within x (by simp [hx])
    · obtain ⟨rfl, hlt⟩ := hmem x hx
      simp only [Area.stop] at htop ⊢
      omega
    · exact h.within x (by simp [hx])
    · simp only [Area.stop] at htop ⊢
      omega
    · exact h.within x (by simp [hx])
  · intro c hc
    have := h.covers c hc
    simp only [covers_append, covers_cons, hcov, Area.stop] at this ⊢
    by_cases hcn : c < a.base + n
    · tauto
    · have hcn' : a.base + n ≤ c := by omega
      tauto
  · have := h.sum
    simp only [total_append, total_cons, htot] at this ⊢
    omega

/-- Giving a block back preserves the tiling. -/
theorem giveBack {x : Area} (h : Partition top holes (x :: blocks)) :
    Partition top (Library.giveBack x holes) blocks := by
  have hx : 0 < x.len := h.pos x (by simp)
  have happ := List.pairwise_cons.mp h.apart
  have hsepx : ∀ a ∈ holes, a.Apart x := fun a ha => h.sep a ha x (by simp)
  have hsum := h.sum
  refine ⟨?_, ?_, happ.2, ?_, ?_, ?_, ?_⟩
  · exact giveBack_ordered hx (fun a ha => (hsepx a ha).symm) h.ordered
  · exact fun b hb => h.pos b (by simp [hb])
  · -- an area of the new list is apart from `b` because its cells were all apart from `b`
    intro a ha b hb
    have hapos : 0 < a.len := giveBack_forall
      (P := fun a => 0 < a.len) (fun _ _ h _ => by simp only; omega) hx h.ordered.pos a ha
    have hbpos : 0 < b.len := h.pos b (by simp [hb])
    by_contra hnot
    simp only [Area.Apart, Area.stop, not_or, not_le] at hnot
    have hcell : Covers (Library.giveBack x holes) (max a.base b.base) := by
      refine ⟨a, ha, le_max_left _ _, ?_⟩
      simp only [Area.stop]
      omega
    rw [covers_giveBack] at hcell
    rcases hcell with hc | ⟨y, hy, hc⟩
    · have := happ.1 b hb
      simp only [Area.Apart, Area.stop] at this hc
      omega
    · have := h.sep y hy b (by simp [hb])
      simp only [Area.Apart, Area.stop] at this hc
      omega
  · simp only [List.mem_append]
    rintro a (ha | ha)
    · -- the last cell of a free area is a cell of `x` or of an old free area
      have hapos : 0 < a.len := giveBack_forall
        (P := fun a => 0 < a.len) (fun _ _ h _ => by simp only; omega) hx h.ordered.pos a ha
      have hcell : Covers (Library.giveBack x holes) (a.stop - 1) :=
        ⟨a, ha, by simp only [Area.stop]; omega, by simp only [Area.stop]; omega⟩
      rw [covers_giveBack] at hcell
      rcases hcell with hc | ⟨y, hy, hc⟩
      · have := h.within x (by simp)
        omega
      · have := h.within y (by simp [hy])
        omega
    · exact h.within a (by simp [ha])
  · intro c hc
    have := h.covers c hc
    simp only [covers_append, covers_cons, covers_giveBack] at this ⊢
    tauto
  · rw [total_giveBack]
    simp only [total_cons] at hsum
    omega

/-- Between two free areas there is a block, so there is at most one more free area than
there are blocks. -/
theorem length_le (h : Partition top holes blocks) : holes.length ≤ blocks.length + 1 := by
  -- every free area ends at `top` or where a block starts
  have hsub : holes.map Area.stop ⊆ top :: blocks.map Area.base := by
    intro e he
    obtain ⟨a, ha, rfl⟩ := List.mem_map.mp he
    have hpos := h.ordered.pos a ha
    have hle := h.within a (by simp [ha])
    rcases Nat.lt_or_ge a.stop top with hlt | hge
    · obtain ⟨b, hb, hcell⟩ := h.covers _ hlt
      rcases List.mem_append.mp hb with hb | hb
      · exact absurd hcell (h.ordered.stop_not_mem ha hb)
      · have := h.sep a ha b hb
        refine List.mem_cons_of_mem _ (List.mem_map.mpr ⟨b, hb, ?_⟩)
        simp only [Area.Apart, Area.stop] at this hcell ⊢
        omega
    · rw [show a.stop = top by omega]
      exact List.mem_cons_self ..
  have hnd : (holes.map Area.stop).Nodup := by
    refine List.pairwise_map.mpr (h.ordered.before.imp_of_mem ?_)
    intro a b _ hb hab
    have := h.ordered.pos b hb
    simp only [Area.Before, Area.stop] at hab ⊢
    omega
  simpa using (hnd.subperm hsub).length_le

end Partition

end LisaMinix.Library
