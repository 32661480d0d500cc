import Mathlib.Tactic
import Mathlib.Data.List.Lex

/-!
# Three-Way Comparisons

Functions that say by the sign of a number how two values are ordered, and that may fail.

- `Reflects`: the number is negative, zero or positive as the values are in order, equal or not.
- `OrdersOn`: on a set of values the function is a total preorder.
- `ordersOn_of_key`: a function that reflects the order of keys is one.
-/

namespace LisaMinix.Library

/-! ## §1 Signs -/

/-- The sign of `r` is how `x` compares to `y`. -/
def Reflects {α : Type*} [LT α] (r : ℤ) (x y : α) : Prop := (r < 0 ↔ x < y) ∧ (0 < r ↔ y < x)

namespace Reflects

variable {α β : Type*} [LinearOrder α] [LinearOrder β] {r : ℤ} {x y : α}

theorem swap (h : Reflects r x y) : Reflects (-r) y x := by
  unfold Reflects
  rw [neg_lt_zero, neg_pos]
  exact ⟨h.2, h.1⟩

theorem refl (x : α) : Reflects 0 x x :=
  ⟨iff_of_false (lt_irrefl 0) (lt_irrefl x), iff_of_false (lt_irrefl 0) (lt_irrefl x)⟩

theorem of_lt (hr : r < 0) (h : x < y) : Reflects r x y :=
  ⟨iff_of_true hr h, iff_of_false hr.not_gt h.not_gt⟩

theorem of_gt (hr : 0 < r) (h : y < x) : Reflects r x y :=
  ⟨iff_of_false hr.not_gt h.not_gt, iff_of_true hr h⟩

theorem le_zero (h : Reflects r x y) : r ≤ 0 ↔ x ≤ y := by
  rw [← not_lt, ← not_lt, h.2]

/-- The difference of two numbers. -/
theorem sub (m n : ℕ) : Reflects ((m : ℤ) - n) m n := by
  constructor <;> omega

/-- The order is the same for other values. -/
theorem congr {x' y' : β} (h : Reflects r x y) (hlt : x < y ↔ x' < y') (hgt : y < x ↔ y' < x') :
    Reflects r x' y' := ⟨h.1.trans hlt, h.2.trans hgt⟩

/-- The signs of two comparisons are the same if the orders are. -/
theorem iff_of_lt {x' y' : β} (h : Reflects r x y) (hlt : x < y) : Reflects r x' y' ↔ x' < y' :=
  ⟨fun h' => h'.1.mp (h.1.mpr hlt), fun hlt' => of_lt (h.1.mpr hlt) hlt'⟩

theorem iff_of_gt {x' y' : β} (h : Reflects r x y) (hgt : y < x) : Reflects r x' y' ↔ y' < x' :=
  ⟨fun h' => h'.2.mp (h.2.mpr hgt), fun hgt' => of_gt (h.2.mpr hgt) hgt'⟩

theorem iff_swap : Reflects (-r) x y ↔ Reflects r y x := by
  constructor
  · intro h
    have hback := h.swap
    rwa [neg_neg] at hback
  · exact fun h => h.swap

/-- The order of the values is turned round. -/
theorem dual (h : Reflects r x y) : Reflects (-r) (OrderDual.toDual x) (OrderDual.toDual y) := h.swap

theorem eq_zero_iff (h : Reflects r x y) : r = 0 ↔ x = y := by
  constructor
  · intro hr
    apply le_antisymm (h.le_zero.mp (le_of_eq hr))
    rw [← not_lt, ← h.1, hr]
    exact lt_irrefl 0
  · rintro rfl
    apply le_antisymm (h.le_zero.mpr le_rfl)
    rw [← not_lt, h.1]
    exact lt_irrefl x

/-- Lists are compared by what is behind a common head. -/
theorem cons_iff {l l' : List α} (a : α) : Reflects r (a :: l) (a :: l') ↔ Reflects r l l' := by
  have hcons : ∀ m m' : List α, a :: m < a :: m' ↔ m < m' := fun m m' => by
    rw [List.cons_lt_cons_iff]
    simp
  unfold Reflects
  rw [hcons, hcons]

/-- Lists are compared by their heads where these differ. -/
theorem head_iff {a a' : α} (hne : a ≠ a') (l l' : List α) :
    Reflects r (a :: l) (a' :: l') ↔ Reflects r a a' := by
  have hcons : ∀ {b b' : α} (m m' : List α), b ≠ b' → (b :: m < b' :: m' ↔ b < b') := by
    intro b b' m m' hb
    rw [List.cons_lt_cons_iff]
    simp [hb]
  unfold Reflects
  rw [hcons l l' hne, hcons l' l hne.symm]

/-- A list comes after its beginnings. -/
theorem nil_cons (hr : r < 0) (a : α) (l : List α) : Reflects r [] (a :: l) :=
  .of_lt hr (List.nil_lt_cons a l)

end Reflects

/-! ## §2 Orders -/

/-- On `S` the comparison succeeds, and it is antisymmetric and transitive. -/
structure OrdersOn {β : Type*} (cmp : β → β → Option ℤ) (S : Set β) : Prop where
  total : ∀ a ∈ S, ∀ b ∈ S, ∃ r, cmp a b = some r
  antisymm : ∀ a ∈ S, ∀ b ∈ S, ∀ r r', cmp a b = some r → cmp b a = some r' → r'.sign = -r.sign
  trans : ∀ a ∈ S, ∀ b ∈ S, ∀ c ∈ S, ∀ r r' r'', cmp a b = some r → cmp b c = some r' →
    cmp a c = some r'' → r ≤ 0 → r' ≤ 0 → r'' ≤ 0

/-- Opposite signs. -/
theorem sign_opposite {r r' : ℤ} (hneg : r' < 0 ↔ 0 < r) (hpos : 0 < r' ↔ r < 0) : r'.sign = -r.sign := by
  rcases lt_trichotomy r 0 with h | h | h
  · rw [Int.sign_eq_one_of_pos (hpos.mpr h), Int.sign_eq_neg_one_of_neg h, neg_neg]
  · have hr' : r' = 0 := by omega
    rw [hr', h]
    rfl
  · rw [Int.sign_eq_neg_one_of_neg (hneg.mpr h), Int.sign_eq_one_of_pos h]

theorem ordersOn_of_key {β α : Type*} [LinearOrder α] {cmp : β → β → Option ℤ} {S : Set β} (key : β → α)
    (h : ∀ a ∈ S, ∀ b ∈ S, ∃ r, cmp a b = some r ∧ Reflects r (key a) (key b)) : OrdersOn cmp S := by
  have hkey : ∀ a ∈ S, ∀ b ∈ S, ∀ r, cmp a b = some r → Reflects r (key a) (key b) := by
    intro a ha b hb r hr
    obtain ⟨r', hr', hreflects⟩ := h a ha b hb
    rw [hr] at hr'
    obtain rfl := Option.some.inj hr'
    exact hreflects
  constructor
  · intro a ha b hb
    obtain ⟨r, hr, -⟩ := h a ha b hb
    exact ⟨r, hr⟩
  · intro a ha b hb r r' hr hr'
    have hab := hkey a ha b hb r hr
    have hba := hkey b hb a ha r' hr'
    exact sign_opposite (hba.1.trans hab.2.symm) (hba.2.trans hab.1.symm)
  · intro a ha b hb c hc r r' r'' hr hr' hr'' hle hle'
    have hab := (hkey a ha b hb r hr).le_zero.mp hle
    have hbc := (hkey b hb c hc r' hr').le_zero.mp hle'
    exact (hkey a ha c hc r'' hr'').le_zero.mpr (hab.trans hbc)

end LisaMinix.Library
