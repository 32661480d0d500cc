import Mathlib.Tactic

/-!
# Big-Endian Words in Byte Strings

Fixed-width unsigned numbers stored high byte first, and the replacement of a stretch of a byte
string.  `beBytes` and `beVal` are the two directions of the number format, `sub` and `patch`
read and overwrite a stretch.

- `beVal_beBytes`: the round trip.
- `getElem?_patch`: what an overwritten byte string holds, byte for byte.
-/

namespace LisaMinix.Library

/-! ## §1 The Number Format -/

/-- `v` as `n` bytes, high byte first; what does not fit is cut off. -/
def beBytes : ℕ → ℕ → List UInt8
  | 0, _ => []
  | n + 1, v => UInt8.ofNat (v / 256 ^ n) :: beBytes n v

/-- The number a byte string stands for, high byte first. -/
def beVal (l : List UInt8) : ℕ := l.foldl (fun v b => 256 * v + b.toNat) 0

@[simp] theorem length_beBytes (n v : ℕ) : (beBytes n v).length = n := by
  induction n with
  | zero => rfl
  | succ n ih => simp [beBytes, ih]

@[simp] theorem beVal_nil : beVal [] = 0 := rfl

theorem foldl_beVal (l : List UInt8) (v : ℕ) :
    l.foldl (fun v b => 256 * v + b.toNat) v = 256 ^ l.length * v + beVal l := by
  induction l generalizing v with
  | nil => simp
  | cons b l ih =>
    have hstart := ih (256 * v + b.toNat)
    have hzero := ih (256 * 0 + b.toNat)
    simp only [beVal, List.foldl_cons, List.length_cons] at hstart hzero ⊢
    rw [hstart, hzero, pow_succ]
    ring

theorem beVal_cons (b : UInt8) (l : List UInt8) :
    beVal (b :: l) = 256 ^ l.length * b.toNat + beVal l := by
  have h := foldl_beVal l (256 * 0 + b.toNat)
  simpa [beVal] using h

theorem beVal_lt (l : List UInt8) : beVal l < 256 ^ l.length := by
  induction l with
  | nil => simp
  | cons b l ih =>
    have hb : b.toNat + 1 ≤ 256 := b.toNat_lt
    have hmul := Nat.mul_le_mul_left (256 ^ l.length) hb
    rw [beVal_cons, List.length_cons, pow_succ]
    rw [Nat.mul_add, Nat.mul_one] at hmul
    omega

/-- **Writing a number and reading it back** keeps what fits into the width. -/
theorem beVal_beBytes (n v : ℕ) : beVal (beBytes n v) = v % 256 ^ n := by
  induction n with
  | zero => simp [beBytes, Nat.mod_one]
  | succ n ih =>
    have hsplit : v % 256 ^ (n + 1) = v % 256 ^ n + 256 ^ n * (v / 256 ^ n % 256) :=
      Nat.mod_pow_succ
    rw [beBytes, beVal_cons, ih, length_beBytes, UInt8.toNat_ofNat', hsplit]
    exact Nat.add_comm _ _

/-! ## §2 Stretches of a Byte String -/

variable {α : Type*}

/-- The `n` elements from position `p` on. -/
def sub (l : List α) (p n : ℕ) : List α := (l.drop p).take n

/-- `l` with the elements from position `p` on replaced by `new`. -/
def patch (l : List α) (p : ℕ) (new : List α) : List α :=
  l.take p ++ (new ++ l.drop (p + new.length))

theorem length_sub {l : List α} {p n : ℕ} (h : p + n ≤ l.length) : (sub l p n).length = n := by
  simp [sub]
  omega

theorem length_patch {l new : List α} {p : ℕ} (h : p + new.length ≤ l.length) :
    (patch l p new).length = l.length := by
  simp [patch]
  omega

theorem getElem?_sub (l : List α) (p n k : ℕ) :
    (sub l p n)[k]? = if k < n then l[p + k]? else none := by
  simp [sub, List.getElem?_take, List.getElem?_drop]

/-- **What an overwritten string holds**: the new elements in their stretch, the old elsewhere. -/
theorem getElem?_patch {l new : List α} {p : ℕ} (h : p + new.length ≤ l.length) (k : ℕ) :
    (patch l p new)[k]? = if p ≤ k ∧ k < p + new.length then new[k - p]? else l[k]? := by
  have hp : (l.take p).length = p := by
    rw [List.length_take]
    omega
  rcases Nat.lt_or_ge k p with hk | hk
  · rw [patch, List.getElem?_append_left (by omega), List.getElem?_take_of_lt hk, if_neg (by omega)]
  · rw [patch, List.getElem?_append_right (by omega), hp]
    rcases Nat.lt_or_ge k (p + new.length) with hk' | hk'
    · rw [List.getElem?_append_left (by omega), if_pos ⟨hk, hk'⟩]
    · rw [List.getElem?_append_right (by omega), List.getElem?_drop, if_neg (by omega)]
      congr 1
      omega

theorem sub_patch_of_disjoint {l new : List α} {p q n : ℕ} (h : p + new.length ≤ l.length)
    (hd : q + n ≤ p ∨ p + new.length ≤ q) : sub (patch l p new) q n = sub l q n := by
  apply List.ext_getElem?
  intro k
  rw [getElem?_sub, getElem?_sub]
  split
  · next hk => rw [getElem?_patch h, if_neg (by omega)]
  · rfl

end LisaMinix.Library
