import Mathlib.Tactic

/-!
# Counting over a Table

How a selection of the slots of a table, and the number of slots selected, change when one
slot changes or when the selection is split in two.
-/

namespace LisaMinix.Library

variable {α : Type*} {l : List α} {P Q R : α → Bool}

/-- Two selections of slots that differ only in `p`. -/
theorem filter_perm_cons (hnd : l.Nodup) {p : α} (hp : p ∈ l) (hP : P p = true) (hQ : Q p = false)
    (hne : ∀ q, q ≠ p → P q = Q q) : (l.filter P).Perm (p :: l.filter Q) := by
  refine (List.perm_ext_iff_of_nodup (hnd.filter P) ?_).mpr fun q => ?_
  · exact List.nodup_cons.mpr ⟨by simp [hQ], hnd.filter Q⟩
  · simp only [List.mem_filter, List.mem_cons]
    by_cases hq : q = p
    · simp [hq, hP, hp]
    · simp [hq, hne q hq]

theorem countP_succ (hnd : l.Nodup) {p : α} (hp : p ∈ l) (hP : P p = true) (hQ : Q p = false)
    (hne : ∀ q, q ≠ p → P q = Q q) : l.countP P = l.countP Q + 1 := by
  simpa [List.countP_eq_length_filter] using (filter_perm_cons hnd hp hP hQ hne).length_eq

/-- A selection that is split in two. -/
theorem countP_split (hP : ∀ x, P x = (Q x || R x)) (hdisj : ∀ x, Q x = true → R x = false) :
    l.countP P = l.countP Q + l.countP R := by
  induction l with
  | nil => rfl
  | cons x l ih =>
    simp only [List.countP_cons, ih, hP x]
    cases hQ : Q x with
    | false =>
      simp only [Bool.false_or, Bool.false_eq_true, if_false]
      omega
    | true =>
      simp only [hdisj x hQ, Bool.true_or, Bool.false_eq_true, if_true, if_false]
      omega

end LisaMinix.Library
