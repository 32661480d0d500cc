import Mathlib.Logic.Function.Basic
import Mathlib.Tactic

/-!
# Maps Kept in Slots

A table of slots, each free or with a key and a value, as a finite map: no key is in two slots, and
a free slot may be anywhere.

- `Maps`, `Functional`: what a table maps a key to, and that it is one value.
- `maps_enter`, `Functional.enter`: a key is entered in a free slot.
- `Functional.maps_erase`, `Functional.erase`: a slot is freed.
-/

namespace LisaMinix.Library

open Function

variable {κ ν : Type*}

abbrev Slots (κ ν : Type*) := ℕ → Option (κ × ν)

/-- The key is in a slot with the value. -/
def Maps (t : Slots κ ν) (k : κ) (v : ν) : Prop := ∃ n, t n = some (k, v)

/-- No key is in two slots. -/
def Functional (t : Slots κ ν) : Prop :=
  ∀ n m k v w, t n = some (k, v) → t m = some (k, w) → n = m

section

variable {t : Slots κ ν} {n : ℕ} {k k' : κ} {v v' : ν}

/-- A key in a slot that was free is there, and so are the others. -/
theorem maps_enter (hfree : t n = none) :
    Maps (update t n (some (k, v))) k' v' ↔ k' = k ∧ v' = v ∨ Maps t k' v' := by
  constructor
  · rintro ⟨m, hm⟩
    rcases eq_or_ne m n with rfl | hne
    · rw [update_self] at hm
      obtain ⟨rfl, rfl⟩ := Prod.mk.inj (Option.some.inj hm)
      exact .inl ⟨rfl, rfl⟩
    · rw [update_of_ne hne] at hm
      exact .inr ⟨m, hm⟩
  · rintro (⟨rfl, rfl⟩ | ⟨m, hm⟩)
    · exact ⟨n, update_self ..⟩
    · have hne : m ≠ n := by
        rintro rfl
        rw [hfree] at hm
        exact absurd hm (by simp)
      exact ⟨m, by rw [update_of_ne hne, hm]⟩

theorem Functional.enter (h : Functional t) (habsent : ∀ w, ¬Maps t k w) :
    Functional (update t n (some (k, v))) := by
  intro m m' k' w w' hm hm'
  rcases eq_or_ne m n with rfl | hne <;> rcases eq_or_ne m' m with rfl | hne'
  · rfl
  · rw [update_self] at hm
    rw [update_of_ne hne'] at hm'
    obtain ⟨rfl, -⟩ := Prod.mk.inj (Option.some.inj hm)
    exact absurd ⟨m', hm'⟩ (habsent w')
  · rfl
  · rw [update_of_ne hne] at hm
    rcases eq_or_ne m' n with rfl | hn
    · rw [update_self] at hm'
      obtain ⟨rfl, -⟩ := Prod.mk.inj (Option.some.inj hm')
      exact absurd ⟨m, hm⟩ (habsent w)
    · rw [update_of_ne hn] at hm'
      exact h m m' k' w w' hm hm'

/-- A key whose slot is freed is gone, the others are there still. -/
theorem Functional.maps_erase (h : Functional t) (hn : t n = some (k, v)) :
    Maps (update t n none) k' v' ↔ k' ≠ k ∧ Maps t k' v' := by
  constructor
  · rintro ⟨m, hm⟩
    have hne : m ≠ n := by
      rintro rfl
      rw [update_self] at hm
      exact absurd hm (by simp)
    rw [update_of_ne hne] at hm
    refine ⟨?_, m, hm⟩
    rintro rfl
    exact hne (h m n k' v' v hm hn)
  · rintro ⟨hk, m, hm⟩
    have hne : m ≠ n := by
      rintro rfl
      rw [hn] at hm
      exact hk (Prod.mk.inj (Option.some.inj hm)).1.symm
    exact ⟨m, by rw [update_of_ne hne, hm]⟩

theorem Functional.erase (h : Functional t) : Functional (update t n none) := by
  intro m m' k' w w' hm hm'
  have hkept : ∀ i u, update t n none i = some (k', u) → t i = some (k', u) := by
    intro i u hi
    rcases eq_or_ne i n with rfl | hne
    · rw [update_self] at hi
      exact absurd hi (by simp)
    · rwa [update_of_ne hne] at hi
  exact h m m' k' w w' (hkept m w hm) (hkept m' w' hm')

end

end LisaMinix.Library
