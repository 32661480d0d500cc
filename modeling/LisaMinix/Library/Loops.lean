import Mathlib.Tactic

/-!
# Rules for Loops That May Fail

A loop of a C function over a table is modelled as `List.foldlM` in `Except`.  The rule for
such a loop: an invariant that holds before, and that every round preserves without failing,
holds after the loop, and the loop does not fail.
-/

namespace LisaMinix.Library

universe u

variable {ε σ ι : Type*}

/-- The invariant rule for a loop over `l`; the invariant may depend on the rounds to come. -/
theorem foldlM_invariant {f : σ → ι → Except ε σ} (R : List ι → σ → Prop)
    (hstep : ∀ x l s, R (x :: l) s → ∃ s', f s x = .ok s' ∧ R l s') (l : List ι) (s : σ)
    (h : R l s) : ∃ s', l.foldlM f s = .ok s' ∧ R [] s' := by
  induction l generalizing s with
  | nil => exact ⟨s, rfl, h⟩
  | cons x l ih =>
    obtain ⟨s₁, hf, h1⟩ := hstep x l s h
    obtain ⟨s', hrun, h'⟩ := ih s₁ h1
    refine ⟨s', ?_, h'⟩
    rw [List.foldlM_cons, hf]
    exact hrun

/-- The same rule for a loop that is known to return. -/
theorem foldlM_preserves {f : σ → ι → Except ε σ} (R : List ι → σ → Prop)
    (hstep : ∀ x l s s', R (x :: l) s → f s x = .ok s' → R l s') (l : List ι) {s s' : σ}
    (h : R l s) (hrun : l.foldlM f s = .ok s') : R [] s' := by
  induction l generalizing s with
  | nil =>
    cases hrun
    exact h
  | cons x l ih =>
    rw [List.foldlM_cons] at hrun
    cases hf : f s x with
    | error e =>
      rw [hf] at hrun
      cases hrun
    | ok s₁ =>
      rw [hf] at hrun
      exact ih (hstep x l s s₁ h hf) hrun

@[simp] theorem ok_bind {α β : Type u} (a : α) (f : α → Except ε β) :
    (Except.ok a >>= f) = f a := rfl

@[simp] theorem map_ok {α β : Type*} (a : α) (f : α → β) :
    (Except.ok a : Except ε α).map f = .ok (f a) := rfl

/-- A computation in two parts that returns: both parts return. -/
theorem bind_eq_ok {α β : Type u} {x : Except ε α} {f : α → Except ε β} {b : β}
    (h : x >>= f = .ok b) : ∃ a, x = .ok a ∧ f a = .ok b := by
  cases x with
  | error e => cases h
  | ok a => exact ⟨a, rfl, h⟩

theorem map_eq_ok {α β : Type*} {x : Except ε α} {f : α → β} {b : β} (h : x.map f = .ok b) :
    ∃ a, x = .ok a ∧ f a = b := by
  cases x with
  | error e => cases h
  | ok a => exact ⟨a, rfl, Except.ok.inj h⟩

end LisaMinix.Library
