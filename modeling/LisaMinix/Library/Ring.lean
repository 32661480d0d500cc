import Mathlib.Tactic

/-!
# Rings

A ring of `n` cells with a tail (where the oldest element is), a head (where the next one goes) and a
count, kept apart from each other.

- `ringList n cells tail count`: the elements, from the oldest to the newest.
- `IsRing n head tail count`: the three values agree.

The count may be larger than `n`.  A ring with `n + 1` elements is one whose head has passed its tail:
the newest element lies over the oldest (`ringList_push_full`).
-/

namespace LisaMinix.Library

open Function

variable {α : Type*} {n tail head count : ℕ} {cells : ℕ → α} {a : α}

/-- The elements of a ring, from the oldest to the newest. -/
def ringList (n : ℕ) (cells : ℕ → α) (tail count : ℕ) : List α :=
  (List.range count).map fun i => cells ((tail + i) % n)

/-! ## §1 One element more or less -/

@[simp] theorem length_ringList : (ringList n cells tail count).length = count := by
  simp [ringList]

@[simp] theorem ringList_zero : ringList n cells tail 0 = [] := rfl

/-- The newest element is the one before the head. -/
theorem ringList_succ :
    ringList n cells tail (count + 1) =
      ringList n cells tail count ++ [cells ((tail + count) % n)] := by
  simp [ringList, List.range_succ]

/-- The oldest element is the one at the tail. -/
theorem ringList_cons :
    ringList n cells tail (count + 1) =
      cells (tail % n) :: ringList n cells (tail + 1) count := by
  simp only [ringList, List.range_succ_eq_map, List.map_cons, List.map_map, Nat.add_zero,
    List.cons.injEq, true_and]
  apply List.map_congr_left
  intro i _
  simp only [Function.comp_apply, Nat.succ_eq_add_one]
  congr 2
  omega

/-- The tail counts modulo the size of the ring. -/
@[simp] theorem ringList_mod : ringList n cells (tail % n) count = ringList n cells tail count := by
  simp [ringList]

/-- Elements that leave at the tail. -/
theorem ringList_drop (k : ℕ) :
    (ringList n cells tail count).drop k = ringList n cells (tail + k) (count - k) := by
  induction k generalizing tail count with
  | zero => simp
  | succ k ih =>
    cases count with
    | zero => simp [ringList]
    | succ count =>
      rw [ringList_cons, List.drop_succ_cons, ih]
      congr 1
      · omega
      · omega

/-- The oldest elements. -/
theorem ringList_take (k : ℕ) :
    (ringList n cells tail count).take k = ringList n cells tail (min k count) := by
  simp [ringList, ← List.map_take, List.take_range]

/-! ## §2 Storing -/

/-- A cell that holds no element does not matter. -/
theorem ringList_update_of_lt (cells : ℕ → α) (a : α) (hcount : count < n) :
    ringList n (update cells ((tail + count) % n) a) tail count =
      ringList n cells tail count := by
  apply List.map_congr_left
  intro i hi
  rw [List.mem_range] at hi
  apply update_of_ne
  intro h
  -- two indices less than `n` apart are at different cells
  have hmod : (i : ℕ) ≡ count [MOD n] := Nat.ModEq.add_left_cancel' tail h
  have := Nat.ModEq.eq_of_lt_of_lt hmod (by omega) hcount
  omega

/-- An element is stored where there is room. -/
theorem ringList_push (hcount : count < n) :
    ringList n (update cells ((tail + count) % n) a) tail (count + 1) =
      ringList n cells tail count ++ [a] := by
  rw [ringList_succ, ringList_update_of_lt cells a hcount, update_self]

/-- An element is stored in a full ring: it is over the oldest element too. -/
theorem ringList_push_full (hn : 0 < n) :
    ringList n (update cells ((tail + n) % n) a) tail (n + 1) =
      a :: (ringList n cells tail n).tail ++ [a] := by
  obtain ⟨m, rfl⟩ : ∃ m, n = m + 1 := ⟨n - 1, by omega⟩
  rw [ringList_succ, update_self, ringList_cons, ringList_cons, List.tail_cons]
  congr 2
  · rw [Nat.add_mod_right, update_self]
  · -- the head is where the ring from the second element on ends
    have := @ringList_update_of_lt α (m + 1) (tail + 1) m cells a (by omega)
    rwa [show tail + 1 + m = tail + (m + 1) by omega] at this

/-! ## §3 The pointers -/

/-- Head, tail and count of a ring agree. -/
structure IsRing (n head tail count : ℕ) : Prop where
  tail_lt : tail < n
  head_eq : head = (tail + count) % n

namespace IsRing

theorem empty (hn : 0 < n) : IsRing n 0 0 0 := ⟨hn, by simp⟩

theorem head_lt (h : IsRing n head tail count) : head < n := by
  rw [h.head_eq]
  exact Nat.mod_lt _ (Nat.zero_lt_of_lt h.tail_lt)

/-- The head moves on. -/
theorem push (h : IsRing n head tail count) : IsRing n ((head + 1) % n) tail (count + 1) := by
  refine ⟨h.tail_lt, ?_⟩
  rw [h.head_eq, Nat.mod_add_mod, Nat.add_assoc]

/-- The head moves back. -/
theorem unpush (h : IsRing n head tail (count + 1)) :
    IsRing n ((head + (n - 1)) % n) tail count := by
  refine ⟨h.tail_lt, ?_⟩
  have hn := Nat.zero_lt_of_lt h.tail_lt
  rw [h.head_eq, Nat.mod_add_mod, show tail + (count + 1) + (n - 1) = tail + count + n by omega,
    Nat.add_mod_right]

/-- The tail moves on, by `k` elements. -/
theorem pop {k : ℕ} (h : IsRing n head tail count) (hk : k ≤ count) :
    IsRing n head ((tail + k) % n) (count - k) := by
  refine ⟨Nat.mod_lt _ (Nat.zero_lt_of_lt h.tail_lt), ?_⟩
  rw [h.head_eq, Nat.mod_add_mod, show tail + k + (count - k) = tail + count by omega]

end IsRing

end LisaMinix.Library
