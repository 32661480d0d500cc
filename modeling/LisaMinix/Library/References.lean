import Mathlib.Tactic

/-!
# Counting References

A table of holders, each of which refers to an object or to nothing, and the number of
holders that refer to one object.  One rule says what a change of a single holder does to
every number; the others are for holders that come in rows.
-/

namespace LisaMinix.Library

open Function

open Finset

variable {ρ κ α : Type*} [Fintype ρ] [Fintype κ] [DecidableEq α]

/-- How many holders refer to `a`. -/
def refCount (h : ρ → Option α) (a : α) : ℕ := (univ.filter fun r => h r = some a).card

/-- What one holder contributes. -/
def refOf (x : Option α) (a : α) : ℕ := if x = some a then 1 else 0

@[simp] theorem refOf_none (a : α) : refOf none a = 0 := rfl

@[simp] theorem refOf_self (a : α) : refOf (some a) a = 1 := if_pos rfl

theorem refOf_of_ne {a b : α} (h : b ≠ a) : refOf (some b) a = 0 :=
  if_neg fun heq => h (Option.some.inj heq)

theorem refCount_eq_sum (h : ρ → Option α) (a : α) : refCount h a = ∑ r, refOf (h r) a := by
  rw [refCount, card_filter]
  rfl

/-- **One holder changes**: what it contributed is exchanged for what it contributes now. -/
theorem refCount_update [DecidableEq ρ] (h : ρ → Option α) (r : ρ) (x : Option α) (a : α) :
    refCount (update h r x) a + refOf (h r) a = refCount h a + refOf x a := by
  rw [refCount_eq_sum, refCount_eq_sum, ← add_sum_erase _ _ (mem_univ r),
    ← add_sum_erase univ (fun r => refOf (h r) a) (mem_univ r), update_self]
  have hrest : ∑ q ∈ univ.erase r, refOf (update h r x q) a =
      ∑ q ∈ univ.erase r, refOf (h q) a := by
    refine sum_congr rfl fun q hq => ?_
    rw [update_of_ne (ne_of_mem_erase hq)]
  rw [hrest]
  omega

theorem refCount_pos {h : ρ → Option α} {r : ρ} {a : α} (hr : h r = some a) : 0 < refCount h a :=
  card_pos.mpr ⟨r, mem_filter.mpr ⟨mem_univ r, hr⟩⟩

/-- Holders that come in rows are counted row by row. -/
theorem refCount_rows (h : κ × ρ → Option α) (a : α) :
    refCount h a = ∑ k, refCount (fun r => h (k, r)) a := by
  rw [refCount_eq_sum, Fintype.sum_prod_type]
  exact sum_congr rfl fun k _ => (refCount_eq_sum _ a).symm

/-- **One row changes**. -/
theorem refCount_row [DecidableEq κ] (h h' : κ × ρ → Option α) (k : κ)
    (hne : ∀ j, j ≠ k → ∀ r, h' (j, r) = h (j, r)) (a : α) : refCount h' a + refCount (fun r => h (k, r)) a =
      refCount h a + refCount (fun r => h' (k, r)) a := by
  rw [refCount_rows, refCount_rows h, ← add_sum_erase _ _ (mem_univ k),
    ← add_sum_erase univ (fun k => refCount (fun r => h (k, r)) a) (mem_univ k)]
  have hrest : ∑ j ∈ univ.erase k, refCount (fun r => h' (j, r)) a =
      ∑ j ∈ univ.erase k, refCount (fun r => h (j, r)) a := by
    refine sum_congr rfl fun j hj => ?_
    simp only [hne j (ne_of_mem_erase hj)]
  rw [hrest]
  omega

end LisaMinix.Library
