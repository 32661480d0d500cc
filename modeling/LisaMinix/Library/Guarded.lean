import Mathlib.Tactic

/-!
# Computations That Succeed on a Condition

`Guarded r C Q` describes a computation that may give up: it succeeds just if `C` holds, and then its
result meets `Q`.  Where the condition of the next part depends on the state before only through what
`Q` says, the conditions of a sequence can be collected in front.

- `Guarded.bind`, `Guarded.bind_total`, `Guarded.map`: a sequence succeeds if both parts do.
- `Guarded.mono`, `Guarded.congr`: other descriptions of the result and of the condition.
- `Guarded.exists_iff`: what success amounts to.
-/

namespace LisaMinix.Library

variable {α β : Type*}

/-- `r` is a result with `Q` if `C` holds, and there is none if it does not. -/
structure Guarded (r : Option α) (C : Prop) (Q : α → Prop) : Prop where
  ok : C → ∃ a, r = some a ∧ Q a
  fail : ¬C → r = none

variable {r : Option α} {C C' D : Prop} {Q Q' : α → Prop}

theorem Guarded.pure {a : α} (h : Q a) : Guarded (some a) True Q :=
  ⟨fun _ => ⟨a, rfl, h⟩, fun h => absurd trivial h⟩

theorem Guarded.ite [Decidable C] {a : α} (h : C → Q a) :
    Guarded (if C then some a else none) C Q where
  ok := fun hc => ⟨a, if_pos hc, h hc⟩
  fail := fun hc => if_neg hc

theorem Guarded.mono (h : Guarded r C Q) (hQ : C → ∀ a, Q a → Q' a) : Guarded r C Q' where
  ok := fun hc =>
    let ⟨a, ha, hq⟩ := h.ok hc
    ⟨a, ha, hQ hc a hq⟩
  fail := h.fail

theorem Guarded.congr (h : Guarded r C Q) (hC : C ↔ C') : Guarded r C' Q where
  ok := fun hc => h.ok (hC.mpr hc)
  fail := fun hc => h.fail fun hc' => hc (hC.mp hc')

theorem Guarded.bind {f : α → Option β} {R : β → Prop} (h : Guarded r C Q)
    (hf : C → ∀ a, Q a → Guarded (f a) D R) : Guarded (r.bind f) (C ∧ D) R where
  ok := by
    rintro ⟨hc, hc'⟩
    obtain ⟨a, rfl, ha⟩ := h.ok hc
    exact (hf hc a ha).ok hc'
  fail := by
    intro hnot
    by_cases hc : C
    · obtain ⟨a, rfl, ha⟩ := h.ok hc
      exact (hf hc a ha).fail fun hc' => hnot ⟨hc, hc'⟩
    · rw [h.fail hc]
      rfl

/-- The second part cannot fail. -/
theorem Guarded.bind_total {f : α → Option β} {R : β → Prop} (h : Guarded r C Q)
    (hf : C → ∀ a, Q a → Guarded (f a) True R) : Guarded (r.bind f) C R :=
  (h.bind hf).congr (iff_of_eq (and_true C))

theorem Guarded.map {f : α → β} {R : β → Prop} (h : Guarded r C Q) (hf : C → ∀ a, Q a → R (f a)) :
    Guarded (r.map f) C R where
  ok := by
    intro hc
    obtain ⟨a, rfl, ha⟩ := h.ok hc
    exact ⟨f a, rfl, hf hc a ha⟩
  fail := by
    intro hc
    rw [h.fail hc]
    rfl

/-- There is a result with a property that all results have just if the condition holds. -/
theorem Guarded.exists_iff (h : Guarded r C Q) : (∃ a, r = some a ∧ Q a) ↔ C := by
  refine ⟨?_, h.ok⟩
  rintro ⟨a, ha, -⟩
  by_contra hc
  rw [h.fail hc] at ha
  nomatch ha

end LisaMinix.Library
