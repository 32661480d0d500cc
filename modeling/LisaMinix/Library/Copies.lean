import Mathlib.Tactic

/-!
# Loops of Stores

A loop that stores to one cell of a table in each round: round `k` stores to `dst k` a value made of
what is at `src k` at that time.  Copies, shifts, fills and changes in place are all of this form.

If no round reads what an earlier round has stored, the loop works as if all values had been read at
the beginning (`storeLoop_apply`); for a shift the order of the rounds decides that.
-/

namespace LisaMinix.Library

open Function

variable {ι β : Type*} [DecidableEq ι]

/-- `n` rounds: `t[dst k] = f k t[src k]`. -/
def storeLoop (f : ℕ → β → β) (src dst : ℕ → ι) (n : ℕ) (t : ι → β) : ι → β :=
  (List.range n).foldl (fun t k => update t (dst k) (f k (t (src k)))) t

variable {f : ℕ → β → β} {src dst : ℕ → ι} {n : ℕ} {t : ι → β}

theorem storeLoop_succ :
    storeLoop f src dst (n + 1) t =
      update (storeLoop f src dst n t) (dst n) (f n (storeLoop f src dst n t (src n))) := by
  simp [storeLoop, List.range_succ]

/-- What no round stores to is unchanged. -/
theorem storeLoop_of_ne {x : ι} (h : ∀ k < n, dst k ≠ x) : storeLoop f src dst n t x = t x := by
  induction n with
  | zero => rfl
  | succ n ih =>
    rw [storeLoop_succ, update_of_ne (h n (Nat.lt_succ_self n)).symm]
    exact ih fun k hk => h k (Nat.lt_succ_of_lt hk)

/-- Where a round stores, there is what it has read at the beginning. -/
theorem storeLoop_apply (hsrc : ∀ k < n, ∀ j < k, dst j ≠ src k)
    (hdst : ∀ k < n, ∀ j < k, dst j ≠ dst k) {k : ℕ} (hk : k < n) :
    storeLoop f src dst n t (dst k) = f k (t (src k)) := by
  induction n with
  | zero => exact absurd hk (Nat.not_lt_zero k)
  | succ n ih =>
    rw [storeLoop_succ]
    rcases Nat.lt_succ_iff_lt_or_eq.mp hk with hlt | rfl
    · -- a later round does not store to the same cell
      rw [update_of_ne (hdst n (Nat.lt_succ_self n) k hlt)]
      exact ih (fun k hk => hsrc k (Nat.lt_succ_of_lt hk))
        (fun k hk => hdst k (Nat.lt_succ_of_lt hk)) hlt
    · rw [update_self, storeLoop_of_ne (hsrc k (Nat.lt_succ_self k))]

/-- The same at a given cell. -/
theorem storeLoop_at (hsrc : ∀ k < n, ∀ j < k, dst j ≠ src k)
    (hdst : ∀ k < n, ∀ j < k, dst j ≠ dst k) {k : ℕ} (hk : k < n) {x : ι} (hx : dst k = x) :
    storeLoop f src dst n t x = f k (t (src k)) := by
  rw [← hx]
  exact storeLoop_apply hsrc hdst hk

/-- A loop that works on a part of a state works on that part as a loop of stores. -/
theorem foldl_eq_storeLoop {σ : Type*} (part : σ → ι → β) (step : σ → ℕ → σ) (n : ℕ)
    (hstep : ∀ s, ∀ k < n, part (step s k) = update (part s) (dst k) (f k (part s (src k))))
    (s : σ) : part ((List.range n).foldl step s) = storeLoop f src dst n (part s) := by
  induction n with
  | zero => rfl
  | succ n ih =>
    rw [List.range_succ, List.foldl_append, List.foldl_cons, List.foldl_nil,
      hstep _ n (Nat.lt_succ_self n), ih fun s k hk => hstep s k (Nat.lt_succ_of_lt hk), storeLoop_succ]

/-- The invariant rule for a loop of `n` rounds. -/
theorem foldl_range_invariant {σ : Type*} {P : σ → Prop} {step : σ → ℕ → σ} {n : ℕ}
    (hstep : ∀ s, ∀ k < n, P s → P (step s k)) {s : σ} (h : P s) :
    P ((List.range n).foldl step s) := by
  induction n with
  | zero => exact h
  | succ n ih =>
    rw [List.range_succ, List.foldl_append, List.foldl_cons, List.foldl_nil]
    exact hstep _ n (Nat.lt_succ_self n) (ih fun s k hk => hstep s k (Nat.lt_succ_of_lt hk))

end LisaMinix.Library
