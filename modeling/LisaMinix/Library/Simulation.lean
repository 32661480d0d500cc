import Mathlib.Tactic

/-!
# Runs That Are as Expected

A machine with states `S` answers calls `C` with results `R`.  What is expected of it is told with states
`A` of another machine: which results may come, and which state comes next.

- `Follows`: as long as the steps of a run meet a condition, the results are as expected.
- `Follows.of_simulation`: a relation of the states that every step keeps shows this.
-/

namespace LisaMinix.Library

variable {C R S A : Type*}

/-- As long as the steps meet `ok`, each result is one that `spec` allows. -/
def Follows (step : C → S → R × S) (ok : C → S → A → Prop) (spec : C → A → R → S → A → Prop) :
    List C → S → A → Prop
  | [], _, _ => True
  | c :: calls, s, a => ok c s a →
      ∃ a', spec c a (step c s).1 (step c s).2 a' ∧ Follows step ok spec calls (step c s).2 a'

/-- A relation of the two machines that is kept by each step. -/
theorem Follows.of_simulation {step : C → S → R × S} {ok : C → S → A → Prop}
    {spec : C → A → R → S → A → Prop} (sim : S → A → Prop)
    (hstep : ∀ c s a, sim s a → ok c s a →
      ∃ a', spec c a (step c s).1 (step c s).2 a' ∧ sim (step c s).2 a')
    (calls : List C) {s : S} {a : A} (h : sim s a) : Follows step ok spec calls s a := by
  induction calls generalizing s a with
  | nil => exact trivial
  | cons c calls ih =>
    intro hok
    obtain ⟨a', hspec, hsim⟩ := hstep c s a h hok
    exact ⟨a', hspec, ih hsim⟩

end LisaMinix.Library
