import Mathlib.Tactic
import Mathlib.GroupTheory.Perm.Basic

/-!
# Partition around Equal Elements

An array is a function of the place.  A partition keeps the places that are equal to a pivot together in
the middle, smaller ones below and larger ones above, and the places that have not been looked at between.

- `Shuffled`: the elements of a stretch in another order.
- `Parted`: the state of a partition, with one lemma for each way to go on.
- `Sorted.join`: two sorted parts around the pivot.
-/

namespace LisaMinix.Library

variable {α : Type*} {cmp : α → α → ℤ} {e e' e'' : ℤ → α} {lo hi : ℤ}

/-! ## §1 Comparison -/

/-- A comparison that is a total preorder; its sign is the result. -/
structure Preordered (cmp : α → α → ℤ) : Prop where
  swap : ∀ x y, cmp x y < 0 ↔ 0 < cmp y x
  trans : ∀ x y z, cmp x y ≤ 0 → cmp y z ≤ 0 → cmp x z ≤ 0

section

variable (h : Preordered cmp) {x y z : α}

include h

theorem Preordered.le_swap : cmp x y ≤ 0 ↔ 0 ≤ cmp y x := by
  have := h.swap y x
  omega

theorem Preordered.eq_swap : cmp x y = 0 ↔ cmp y x = 0 := by
  have := h.swap x y
  have := h.swap y x
  omega

theorem Preordered.refl (x : α) : cmp x x = 0 := by
  have := h.swap x x
  omega

/-- Equal elements compare alike. -/
theorem Preordered.congr_right (heq : cmp y z = 0) :
    (cmp x y < 0 ↔ cmp x z < 0) ∧ (cmp x y = 0 ↔ cmp x z = 0) := by
  have hzy : cmp z y = 0 := h.eq_swap.mp heq
  have h1 : cmp x y ≤ 0 ↔ cmp x z ≤ 0 := ⟨fun hxy => h.trans _ _ _ hxy heq.le, fun hxz => h.trans _ _ _ hxz hzy.le⟩
  have h2 : cmp y x ≤ 0 ↔ cmp z x ≤ 0 := ⟨fun hyx => h.trans _ _ _ hzy.le hyx, fun hzx => h.trans _ _ _ heq.le hzx⟩
  have h3 := h.le_swap (x := y) (y := x)
  have h4 := h.le_swap (x := z) (y := x)
  omega

end

/-! ## §2 Rearrangements of a Stretch -/

/-- The array with places `i` and `j` exchanged. -/
def swapAt (e : ℤ → α) (i j : ℤ) : ℤ → α := e ∘ Equiv.swap i j

theorem swapAt_left (e : ℤ → α) (i j : ℤ) : swapAt e i j i = e j := by simp [swapAt]

theorem swapAt_right (e : ℤ → α) (i j : ℤ) : swapAt e i j j = e i := by simp [swapAt]

theorem swapAt_other {i j x : ℤ} (hi : x ≠ i) (hj : x ≠ j) : swapAt e i j x = e x :=
  congrArg e (Equiv.swap_apply_of_ne_of_ne hi hj)

/-- The elements from `lo` to `hi` are in another order, the others are as before. -/
def Shuffled (lo hi : ℤ) (e e' : ℤ → α) : Prop :=
  ∃ σ : Equiv.Perm ℤ, (∀ x, x < lo ∨ hi < x → σ x = x) ∧ e' = e ∘ σ

theorem Shuffled.refl (lo hi : ℤ) (e : ℤ → α) : Shuffled lo hi e e := ⟨1, fun _ _ => rfl, rfl⟩

theorem Shuffled.trans (h : Shuffled lo hi e e') (h' : Shuffled lo hi e' e'') : Shuffled lo hi e e'' := by
  obtain ⟨σ, hσ, rfl⟩ := h
  obtain ⟨τ, hτ, rfl⟩ := h'
  refine ⟨τ.trans σ, fun x hx => ?_, rfl⟩
  rw [Equiv.trans_apply, hτ x hx, hσ x hx]

theorem Shuffled.mono {lo' hi' : ℤ} (h : Shuffled lo hi e e') (hlo : lo' ≤ lo) (hhi : hi ≤ hi') :
    Shuffled lo' hi' e e' := by
  obtain ⟨σ, hσ, rfl⟩ := h
  exact ⟨σ, fun x hx => hσ x (by omega), rfl⟩

theorem shuffled_swapAt {i j : ℤ} (e : ℤ → α) (hin : lo ≤ i ∧ i ≤ hi) (hjn : lo ≤ j ∧ j ≤ hi) :
    Shuffled lo hi e (swapAt e i j) :=
  ⟨Equiv.swap i j, fun _ _ => Equiv.swap_apply_of_ne_of_ne (by omega) (by omega), rfl⟩

/-- The places outside the stretch. -/
theorem Shuffled.outside (h : Shuffled lo hi e e') {x : ℤ} (hx : x < lo ∨ hi < x) : e' x = e x := by
  obtain ⟨σ, hσ, rfl⟩ := h
  exact congrArg e (hσ x hx)

/-- What holds of all elements of the stretch holds of them in any order. -/
theorem Shuffled.forall (h : Shuffled lo hi e e') {P : α → Prop} (hP : ∀ x, lo ≤ x → x ≤ hi → P (e x)) {x : ℤ}
    (hlo : lo ≤ x) (hhi : x ≤ hi) : P (e' x) := by
  obtain ⟨σ, hσ, rfl⟩ := h
  have hin : lo ≤ σ x ∧ σ x ≤ hi := by
    by_contra hout
    have hfix : σ x = x := σ.injective (hσ (σ x) (by omega))
    omega
  exact hP _ hin.1 hin.2

/-! ## §3 The Partition -/

/-- Below `left` is smaller than `v`, from `lefteq` to `righteq` is equal, above `right` is larger. -/
structure Parted (cmp : α → α → ℤ) (v : α) (lo hi : ℤ) (e : ℤ → α) (left lefteq righteq right : ℤ) : Prop where
  order : lo ≤ left ∧ left ≤ lefteq ∧ lefteq ≤ righteq ∧ righteq ≤ right ∧ right ≤ hi
  small : ∀ x, lo ≤ x → x < left → cmp (e x) v < 0
  same : ∀ x, lefteq ≤ x → x ≤ righteq → cmp (e x) v = 0
  large : ∀ x, right < x → x ≤ hi → 0 < cmp (e x) v

section

variable {v : α} {left lefteq righteq right : ℤ}

/-- One element is equal to itself. -/
theorem parted_start (h : Preordered cmp) {i : ℤ} (hlo : lo ≤ i) (hhi : i ≤ hi) :
    Parted cmp (e i) lo hi e lo i i hi where
  order := by omega
  small x h1 h2 := by omega
  same x h1 h2 := by
    obtain rfl : x = i := by omega
    exact h.refl _
  large x h1 h2 := by omega

/-- A comparison with an element of the middle is one with the pivot. -/
theorem Parted.compare (h : Parted cmp v lo hi e left lefteq righteq right) (hcmp : Preordered cmp) {x i : ℤ}
    (hlow : lefteq ≤ i) (hhigh : i ≤ righteq) :
    (cmp (e x) (e i) < 0 ↔ cmp (e x) v < 0) ∧ (cmp (e x) (e i) = 0 ↔ cmp (e x) v = 0) :=
  hcmp.congr_right (h.same i hlow hhigh)

/-- A smaller element on the left stays where it is. -/
theorem Parted.leftSmall (h : Parted cmp v lo hi e left lefteq righteq right) (hlt : left < lefteq)
    (hv : cmp (e left) v < 0) : Parted cmp v lo hi e (left + 1) lefteq righteq right where
  order := by have := h.order; omega
  small x h1 h2 := by
    rcases eq_or_ne x left with rfl | hne
    · exact hv
    · exact h.small x h1 (by omega)
  same := h.same
  large := h.large

/-- An equal element on the left goes to the middle. -/
theorem Parted.leftEqual (h : Parted cmp v lo hi e left lefteq righteq right) (hlt : left < lefteq)
    (hv : cmp (e left) v = 0) :
    Parted cmp v lo hi (swapAt e left (lefteq - 1)) left (lefteq - 1) righteq right where
  order := by have := h.order; omega
  small x h1 h2 := by
    rw [swapAt_other (by omega) (by omega)]
    exact h.small x h1 h2
  same x h1 h2 := by
    have := h.order
    rcases eq_or_ne x (lefteq - 1) with rfl | hne
    · rw [swapAt_right]
      exact hv
    · rw [swapAt_other (by omega) hne]
      exact h.same x (by omega) h2
  large x h1 h2 := by
    have := h.order
    rw [swapAt_other (by omega) (by omega)]
    exact h.large x h1 h2

/-- A larger element on the right stays where it is. -/
theorem Parted.rightLarge (h : Parted cmp v lo hi e left lefteq righteq right) (hlt : righteq < right)
    (hv : 0 < cmp (e right) v) : Parted cmp v lo hi e left lefteq righteq (right - 1) where
  order := by have := h.order; omega
  small := h.small
  same := h.same
  large x h1 h2 := by
    rcases eq_or_ne x right with rfl | hne
    · exact hv
    · exact h.large x (by omega) h2

/-- An equal element on the right goes to the middle. -/
theorem Parted.rightEqual (h : Parted cmp v lo hi e left lefteq righteq right) (hlt : righteq < right)
    (hv : cmp (e right) v = 0) :
    Parted cmp v lo hi (swapAt e right (righteq + 1)) left lefteq (righteq + 1) right where
  order := by have := h.order; omega
  small x h1 h2 := by
    have := h.order
    rw [swapAt_other (by omega) (by omega)]
    exact h.small x h1 h2
  same x h1 h2 := by
    rcases eq_or_ne x (righteq + 1) with rfl | hne
    · rw [swapAt_right]
      exact hv
    · rw [swapAt_other (by omega) hne]
      exact h.same x h1 (by omega)
  large x h1 h2 := by
    rw [swapAt_other (by omega) (by omega)]
    exact h.large x h1 h2

/-- A larger element on the left and a smaller one on the right are exchanged. -/
theorem Parted.exchange (h : Parted cmp v lo hi e left lefteq righteq right) (hleft : left < lefteq)
    (hright : righteq < right) (hlarge : 0 < cmp (e left) v) (hsmall : cmp (e right) v < 0) :
    Parted cmp v lo hi (swapAt e left right) (left + 1) lefteq righteq (right - 1) where
  order := by have := h.order; omega
  small x h1 h2 := by
    have := h.order
    rcases eq_or_ne x left with rfl | hne
    · rw [swapAt_left]
      exact hsmall
    · rw [swapAt_other hne (by omega)]
      exact h.small x h1 (by omega)
  same x h1 h2 := by
    have := h.order
    rw [swapAt_other (by omega) (by omega)]
    exact h.same x h1 h2
  large x h1 h2 := by
    have := h.order
    rcases eq_or_ne x right with rfl | hne
    · rw [swapAt_right]
      exact hlarge
    · rw [swapAt_other (by omega) hne]
      exact h.large x (by omega) h2

/-- Three elements change places: `i` gets that of `k`, `j` that of `i`, and `k` that of `j`. -/
def rotateAt (e : ℤ → α) (i j k : ℤ) : ℤ → α := swapAt (swapAt e i k) j k

theorem rotateAt_first {i j k : ℤ} (hj : i ≠ j) (hk : i ≠ k) : rotateAt e i j k i = e k := by
  rw [rotateAt, swapAt_other hj hk, swapAt_left]

theorem rotateAt_second {i j k : ℤ} : rotateAt e i j k j = e i := by
  rw [rotateAt, swapAt_left, swapAt_right]

theorem rotateAt_other {i j k x : ℤ} (hi : x ≠ i) (hj : x ≠ j) (hk : x ≠ k) : rotateAt e i j k x = e x := by
  rw [rotateAt, swapAt_other hj hk, swapAt_other hi hk]

theorem shuffled_rotateAt {i j k : ℤ} (e : ℤ → α) (hin : lo ≤ i ∧ i ≤ hi) (hjn : lo ≤ j ∧ j ≤ hi)
    (hkn : lo ≤ k ∧ k ≤ hi) : Shuffled lo hi e (rotateAt e i j k) :=
  (shuffled_swapAt e hin hkn).trans (shuffled_swapAt _ hjn hkn)

/-- With nothing left over on the left, a smaller element on the right moves the middle up. -/
theorem Parted.rightSmall (h : Parted cmp v lo hi e lefteq lefteq righteq right) (hlt : righteq < right)
    (hv : cmp (e right) v < 0) :
    Parted cmp v lo hi (rotateAt e lefteq (righteq + 1) right) (lefteq + 1) (lefteq + 1) (righteq + 1) right where
  order := by have := h.order; omega
  small x h1 h2 := by
    have := h.order
    rcases eq_or_ne x lefteq with rfl | hne
    · rw [rotateAt_first (by omega) (by omega)]
      exact hv
    · rw [rotateAt_other hne (by omega) (by omega)]
      exact h.small x h1 (by omega)
  same x h1 h2 := by
    have := h.order
    rcases eq_or_ne x (righteq + 1) with rfl | hne
    · rw [rotateAt_second]
      exact h.same lefteq le_rfl (by omega)
    · rw [rotateAt_other (by omega) hne (by omega)]
      exact h.same x (by omega) (by omega)
  large x h1 h2 := by
    have := h.order
    rw [rotateAt_other (by omega) (by omega) (by omega)]
    exact h.large x h1 h2

/-- With nothing left over on the right, a larger element on the left moves the middle down. -/
theorem Parted.leftLarge (h : Parted cmp v lo hi e left lefteq righteq righteq) (hlt : left < lefteq)
    (hv : 0 < cmp (e left) v) :
    Parted cmp v lo hi (rotateAt e righteq (lefteq - 1) left) left (lefteq - 1) (righteq - 1) (righteq - 1) where
  order := by have := h.order; omega
  small x h1 h2 := by
    have := h.order
    rw [rotateAt_other (by omega) (by omega) (by omega)]
    exact h.small x h1 h2
  same x h1 h2 := by
    have := h.order
    rcases eq_or_ne x (lefteq - 1) with rfl | hne
    · rw [rotateAt_second]
      exact h.same righteq (by omega) le_rfl
    · rw [rotateAt_other (by omega) hne (by omega)]
      exact h.same x (by omega) (by omega)
  large x h1 h2 := by
    have := h.order
    rcases eq_or_ne x righteq with rfl | hne
    · rw [rotateAt_first (by omega) (by omega)]
      exact hv
    · rw [rotateAt_other hne (by omega) (by omega)]
      exact h.large x (by omega) h2

end

/-! ## §4 Sorted Parts -/

/-- The elements from `lo` to `hi` are in order. -/
def SortedOn (cmp : α → α → ℤ) (e : ℤ → α) (lo hi : ℤ) : Prop :=
  ∀ x y, lo ≤ x → x < y → y ≤ hi → cmp (e x) (e y) ≤ 0

theorem sortedOn_of_le (h : hi ≤ lo) : SortedOn cmp e lo hi := by
  intro x y h1 h2 h3
  omega

/-- Smaller elements in order, equal ones and larger ones in order are in order. -/
theorem SortedOn.join (hcmp : Preordered cmp) {v : α} {left right : ℤ}
    (hsmall : ∀ x, lo ≤ x → x < left → cmp (e x) v < 0) (hsame : ∀ x, left ≤ x → x ≤ right → cmp (e x) v = 0)
    (hlarge : ∀ x, right < x → x ≤ hi → 0 < cmp (e x) v) (hleft : SortedOn cmp e lo (left - 1))
    (hright : SortedOn cmp e (right + 1) hi) : SortedOn cmp e lo hi := by
  have hlow : ∀ x, lo ≤ x → x ≤ right → cmp (e x) v ≤ 0 := by
    intro x h1 h2
    rcases lt_or_ge x left with h | h
    · exact (hsmall x h1 h).le
    · exact (hsame x h h2).le
  have hhigh : ∀ y, left ≤ y → y ≤ hi → cmp v (e y) ≤ 0 := by
    intro y h1 h2
    rcases le_or_gt y right with h | h
    · exact hcmp.le_swap.mpr (hsame y h1 h).ge
    · exact hcmp.le_swap.mpr (hlarge y h h2).le
  intro x y h1 h2 h3
  rcases lt_or_ge y left with hy | hy
  · exact hleft x y h1 h2 (by omega)
  rcases le_or_gt x right with hx | hx
  · exact hcmp.trans _ _ _ (hlow x h1 hx) (hhigh y hy h3)
  · exact hright x y (by omega) h2 h3

end LisaMinix.Library
