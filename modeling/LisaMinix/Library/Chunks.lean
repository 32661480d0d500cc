import LisaMinix.Library.Bytes

/-!
# Byte Strings Cut into Blocks

A byte string is stored in blocks of a fixed size, the last one filled up.  `chunks` counts the
blocks, `fill` fills a string up.

- `flatMap_fill_sub`: the filled blocks behind one another are the filled string.
- `sub_patch_of_inside`: overwriting a stretch is overwriting it inside any larger stretch.
-/

namespace LisaMinix.Library

variable {α : Type*}
variable {a : α} {n p : ℕ} {l : List α}

/-! ## §1 Filling Up -/

/-- The blocks of `n` elements that `l` needs, the last one perhaps in part. -/
def chunks (n : ℕ) (l : List α) : ℕ := (l.length + n - 1) / n

/-- `l` filled up with `a` to `n` elements. -/
def fill (a : α) (n : ℕ) (l : List α) : List α := l ++ List.replicate (n - l.length) a

theorem length_fill (h : l.length ≤ n) : (fill a n l).length = n := by
  rw [fill, List.length_append, List.length_replicate]
  exact Nat.add_sub_cancel' h

theorem getElem?_fill (h : l.length ≤ n) (k : ℕ) :
    (fill a n l)[k]? = if k < l.length then l[k]? else if k < n then some a else none := by
  rcases Nat.lt_or_ge k l.length with hk | hk
  · rw [fill, List.getElem?_append_left hk, if_pos hk]
  · rw [fill, List.getElem?_append_right hk, if_neg (Nat.not_lt.mpr hk), List.getElem?_replicate]
    have hlt : k - l.length < n - l.length ↔ k < n := by omega
    simp only [hlt]

theorem length_le_chunks (hn : 0 < n) (l : List α) : l.length ≤ chunks n l * n := by
  have hdiv := Nat.div_add_mod (l.length + n - 1) n
  have hmod := Nat.mod_lt (l.length + n - 1) hn
  rw [chunks, Nat.mul_comm]
  omega

/-- A stretch of a filled string is the stretch of the string, filled up. -/
theorem sub_fill {N : ℕ} (hl : l.length ≤ N) (hp : p + n ≤ N) :
    sub (fill a N l) p n = fill a n (sub l p n) := by
  have hlen : (sub l p n).length = min n (l.length - p) := by simp [sub]
  apply List.ext_getElem?
  intro k
  rw [getElem?_sub, getElem?_fill hl, getElem?_fill (by omega), getElem?_sub, hlen]
  split_ifs <;> first | rfl | omega

/-! ## §2 The Blocks Behind One Another -/

theorem flatMap_sub (n : ℕ) (l : List α) (k : ℕ) :
    (List.range k).flatMap (fun i => sub l (i * n) n) = l.take (k * n) := by
  induction k with
  | zero => simp
  | succ k ih =>
    rw [List.range_succ, List.flatMap_append, ih, List.flatMap_singleton, Nat.succ_mul,
      List.take_add]
    rfl

/-- **The blocks of a string, each filled up**, are the string filled up to whole blocks. -/
theorem flatMap_fill_sub (a : α) {k : ℕ} (hl : l.length ≤ k * n) :
    (List.range k).flatMap (fun i => fill a n (sub l (i * n) n)) = fill a (k * n) l := by
  have hcut : ∀ i ∈ List.range k,
      fill a n (sub l (i * n) n) = sub (fill a (k * n) l) (i * n) n := by
    intro i hi
    have hi' : (i + 1) * n ≤ k * n := Nat.mul_le_mul_right n (List.mem_range.mp hi)
    rw [Nat.succ_mul] at hi'
    exact (sub_fill hl hi').symm
  rw [List.flatMap_congr hcut, flatMap_sub, List.take_of_length_le (length_fill hl).le]

theorem sub_of_sub {q m : ℕ} (h : q + m ≤ n) : sub (sub l p n) q m = sub l (p + q) m := by
  rw [sub, sub, sub, List.drop_take, List.drop_drop, List.take_take, Nat.min_eq_left (by omega)]

theorem sub_zero_of_length_le (h : l.length ≤ n) : sub l 0 n = l := by
  rw [sub, List.drop_zero, List.take_of_length_le h]

theorem sub_patch_of_inside {new : List α} {q d : ℕ} (hp : p = q + d) (hin : d + new.length ≤ n)
    (hl : q + n ≤ l.length) : sub (patch l p new) q n = patch (sub l q n) d new := by
  have hlen : (sub l q n).length = n := length_sub hl
  apply List.ext_getElem?
  intro k
  rw [getElem?_sub, getElem?_patch (by omega), getElem?_patch (by omega), getElem?_sub]
  rcases Nat.lt_or_ge k n with hk | hk
  · have hiff : (p ≤ q + k ∧ q + k < p + new.length) ↔ (d ≤ k ∧ k < d + new.length) := by omega
    have hsub : q + k - p = k - d := by omega
    simp only [if_pos hk, hiff, hsub]
  · rw [if_neg (by omega), if_neg (by omega), if_neg (by omega)]

end LisaMinix.Library
