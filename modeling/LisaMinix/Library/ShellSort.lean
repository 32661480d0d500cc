import Mathlib.Tactic
import Mathlib.GroupTheory.Perm.Basic

/-!
# Shell Sort in Place

An array is a function of the index, of which the first `n` places count.  `sift` moves one
element down by steps of `gap`, exchanging neighbours, and `pass` does so for all elements from
place `gap` on.  A Shell sort makes one pass for each of a list of gaps.

- `shellSort_perm`: for any gaps the result is a rearrangement of the first `n` places.
- `shellSort_sorted`: when the last gap is 1, these places are ascending.
-/

namespace LisaMinix.Library

variable {α κ : Type*}

section Sorting

variable [LinearOrder κ]

/-- The array with places `i` and `k` exchanged. -/
def exchange (q : ℕ → α) (i k : ℕ) : ℕ → α := q ∘ Equiv.swap i k

/-- Moves the element at place `k` down by steps of `gap` while the one below is greater. -/
def sift (key : α → κ) (gap : ℕ) (k : ℕ) (q : ℕ → α) : ℕ → α :=
  if gap ≤ k ∧ key (q k) < key (q (k - gap)) then
    sift key gap (k - gap) (exchange q (k - gap) k)
  else q
termination_by k
decreasing_by
  rename_i h
  rcases Nat.eq_zero_or_pos gap with rfl | hpos
  · exact absurd h.2 (lt_irrefl _)
  · omega

/-- One pass over the first `n` places. -/
def pass (key : α → κ) (gap n : ℕ) (q : ℕ → α) : ℕ → α :=
  (List.range' gap (n - gap)).foldl (fun q j => sift key gap j q) q

def shellSort (key : α → κ) (gaps : List ℕ) (n : ℕ) (q : ℕ → α) : ℕ → α :=
  gaps.foldl (fun q gap => pass key gap n q) q

end Sorting

/-! ## §1 Rearrangements -/

/-- `q'` holds the elements of the first `n` places of `q` in another order. -/
def Rearranges (n : ℕ) (q q' : ℕ → α) : Prop :=
  ∃ σ : Equiv.Perm ℕ, (∀ x, n ≤ x → σ x = x) ∧ q' = q ∘ σ

theorem Rearranges.refl (n : ℕ) (q : ℕ → α) : Rearranges n q q :=
  ⟨1, fun _ _ => rfl, rfl⟩

theorem Rearranges.trans {n : ℕ} {q q' q'' : ℕ → α} (h : Rearranges n q q')
    (h' : Rearranges n q' q'') : Rearranges n q q'' := by
  obtain ⟨σ, hσ, rfl⟩ := h
  obtain ⟨τ, hτ, rfl⟩ := h'
  refine ⟨τ.trans σ, ?_, rfl⟩
  intro x hx
  rw [Equiv.trans_apply, hτ x hx, hσ x hx]

theorem Rearranges.exists_iff {n : ℕ} {q q' : ℕ → α} (h : Rearranges n q q') (x : α) :
    (∃ i, i < n ∧ q' i = x) ↔ ∃ i, i < n ∧ q i = x := by
  obtain ⟨σ, hσ, rfl⟩ := h
  have hlt : ∀ i, σ i < n ↔ i < n := by
    intro i
    rcases Nat.lt_or_ge i n with hi | hi
    · refine iff_of_true (not_le.mp fun hge => ?_) hi
      have := σ.injective (hσ _ hge)
      omega
    · rw [hσ i hi]
  constructor
  · rintro ⟨i, hi, rfl⟩
    exact ⟨σ i, (hlt i).mpr hi, rfl⟩
  · rintro ⟨i, hi, rfl⟩
    refine ⟨σ.symm i, ?_, by simp⟩
    rw [← hlt, Equiv.apply_symm_apply]
    exact hi

/-- Places with different keys still have different keys. -/
theorem Rearranges.injective {n : ℕ} {q q' : ℕ → α} (h : Rearranges n q q') (key : α → κ)
    (hinj : ∀ i j, i < n → j < n → key (q i) = key (q j) → i = j) :
    ∀ i j, i < n → j < n → key (q' i) = key (q' j) → i = j := by
  obtain ⟨σ, hσ, rfl⟩ := h
  have hlt : ∀ i, i < n → σ i < n := by
    intro i hi
    by_contra hge
    have := σ.injective (hσ _ (not_lt.mp hge))
    omega
  intro i j hi hj heq
  exact σ.injective (hinj _ _ (hlt i hi) (hlt j hj) heq)

theorem rearranges_exchange {n i k : ℕ} (hi : i < n) (hk : k < n) (q : ℕ → α) :
    Rearranges n q (exchange q i k) := by
  refine ⟨Equiv.swap i k, ?_, rfl⟩
  intro x hx
  exact Equiv.swap_apply_of_ne_of_ne (by omega) (by omega)

variable [LinearOrder κ]

theorem rearranges_sift (key : α → κ) (gap : ℕ) {n k : ℕ} (hk : k < n) (q : ℕ → α) :
    Rearranges n q (sift key gap k q) := by
  induction k, q using sift.induct key gap with
  | case1 k q h ih =>
    rw [sift, if_pos h]
    exact (rearranges_exchange (by omega) hk q).trans (ih (by omega))
  | case2 k q h =>
    rw [sift, if_neg h]
    exact .refl n q

theorem rearranges_pass (key : α → κ) (gap n : ℕ) (q : ℕ → α) :
    Rearranges n q (pass key gap n q) := by
  unfold pass
  have hlt : ∀ j ∈ List.range' gap (n - gap), j < n := by
    intro j hj
    have := List.mem_range'_1.mp hj
    omega
  generalize List.range' gap (n - gap) = l at hlt
  induction l generalizing q with
  | nil => exact .refl n q
  | cons j l ih =>
    rw [List.foldl_cons]
    apply (rearranges_sift key gap (hlt j (List.mem_cons_self ..)) q).trans
    exact ih _ fun j' h => hlt j' (List.mem_cons_of_mem _ h)

/-- **A Shell sort rearranges.** -/
theorem shellSort_perm (key : α → κ) (gaps : List ℕ) (n : ℕ) (q : ℕ → α) :
    Rearranges n q (shellSort key gaps n q) := by
  unfold shellSort
  induction gaps generalizing q with
  | nil => exact .refl n q
  | cons gap gaps ih =>
    rw [List.foldl_cons]
    exact (rearranges_pass key gap n q).trans (ih _)

/-! ## §2 Order -/

/-- The first `n` places are ascending. -/
def Ascending (key : α → κ) (n : ℕ) (q : ℕ → α) : Prop :=
  ∀ a b, a < b → b < n → key (q a) ≤ key (q b)

/-- The places up to `j` are ascending, but for the element at `k` and those below it. -/
def AscendingBut (key : α → κ) (j k : ℕ) (q : ℕ → α) : Prop :=
  ∀ a b, a < b → b ≤ j → b ≠ k → key (q a) ≤ key (q b)

theorem ascending_sift_one {key : α → κ} {j k : ℕ} (hk : k ≤ j) {q : ℕ → α}
    (h : AscendingBut key j k q) : Ascending key (j + 1) (sift key 1 k q) := by
  induction k, q using sift.induct key 1 with
  | case1 k q hgt ih =>
    rw [sift, if_pos hgt]
    apply ih (by omega)
    have hleft : exchange q (k - 1) k (k - 1) = q k := by simp [exchange]
    have hright : exchange q (k - 1) k k = q (k - 1) := by simp [exchange]
    have hother : ∀ x, x ≠ k - 1 → x ≠ k → exchange q (k - 1) k x = q x := by
      intro x h1 h2
      simp [exchange, Equiv.swap_apply_of_ne_of_ne h1 h2]
    intro a b hab hb hne
    rcases eq_or_ne b k with rfl | hbk
    · rw [hright]
      rcases eq_or_ne a (b - 1) with rfl | ha
      · rw [hleft]
        exact hgt.2.le
      · rw [hother a ha (by omega)]
        exact h a (b - 1) (by omega) (by omega) (by omega)
    · rw [hother b hne hbk]
      rcases eq_or_ne a k with rfl | hak
      · rw [hright]
        exact h (a - 1) b (by omega) hb hbk
      rcases eq_or_ne a (k - 1) with rfl | hak'
      · rw [hleft]
        exact h k b (by omega) hb hbk
      · rw [hother a hak' hak]
        exact h a b hab hb hbk
  | case2 k q hle =>
    rw [sift, if_neg hle]
    intro a b hab hb
    rcases eq_or_ne b k with rfl | hbk
    · have hprev : key (q (b - 1)) ≤ key (q b) := by
        rw [not_and] at hle
        exact not_lt.mp (hle (by omega))
      rcases eq_or_ne a (b - 1) with rfl | ha
      · exact hprev
      · exact (h a (b - 1) (by omega) (by omega) (by omega)).trans hprev
    · exact h a b hab (by omega) hbk

theorem ascending_pass_one (key : α → κ) (n : ℕ) (q : ℕ → α) :
    Ascending key n (pass key 1 n q) := by
  unfold pass
  -- after the elements up to place `j`, the first `j + 1` places are ascending
  have hrun : ∀ m q, Ascending key (m + 1) ((List.range' 1 m).foldl (fun q j => sift key 1 j q) q) := by
    intro m
    induction m with
    | zero => exact fun q a b hab hb => absurd hb (by omega)
    | succ m ih =>
      intro q
      rw [List.range'_concat, List.foldl_append, List.foldl_cons, List.foldl_nil]
      have hj : 1 + 1 * m = m + 1 := by omega
      rw [hj]
      apply ascending_sift_one le_rfl
      intro a b hab hb hne
      exact ih q a b hab (by omega)
  intro a b hab hb
  exact hrun (n - 1) q a b hab (by omega)

/-- **A Shell sort whose last gap is 1 sorts.** -/
theorem shellSort_sorted (key : α → κ) (gaps : List ℕ) (n : ℕ) (q : ℕ → α) :
    Ascending key n (shellSort key (gaps ++ [1]) n q) := by
  unfold shellSort
  rw [List.foldl_append, List.foldl_cons, List.foldl_nil]
  exact ascending_pass_one key n _

end LisaMinix.Library
