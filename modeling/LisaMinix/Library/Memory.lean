import Mathlib.Data.List.GetD
import LisaMinix.Library.Bytes

/-!
# Byte-Addressed Memory

Memory as a function from addresses to bytes, with big-endian longwords.  `read` and `write` are the
copy of a stretch of bytes, `long` and `storeLong` the access to a word of four.

- `read_write`: what has been written is read back.
- `write_append`: what is written in two parts.
- `copy_apply`: a copy, byte for byte.
- `Agree`: two memories are the same on a stretch; reading depends on nothing else.
-/

namespace LisaMinix.Library

open Function

/-- Memory, by address. -/
abbrev Memory := ℤ → UInt8

namespace Memory

variable {m m' : Memory} {a b : ℤ} {n : ℕ}

/-- `n` bytes from `a` on. -/
def read (m : Memory) (a : ℤ) (n : ℕ) : List UInt8 := (List.range n).map fun k : ℕ => m (a + k)

/-- Memory with `bytes` put at `a`. -/
def write (m : Memory) (a : ℤ) (bytes : List UInt8) : Memory := fun x =>
  if a ≤ x ∧ x < a + bytes.length then bytes.getD (x - a).toNat 0 else m x

/-- The longword at `a`. -/
def long (m : Memory) (a : ℤ) : ℕ := beVal (m.read a 4)

/-- Memory with the longword `v` put at `a`. -/
def storeLong (m : Memory) (a : ℤ) (v : ℕ) : Memory := m.write a (beBytes 4 v)

/-- Two memories are the same on the `n` bytes from `a` on. -/
def Agree (m m' : Memory) (a : ℤ) (n : ℕ) : Prop := ∀ x, a ≤ x → x < a + n → m' x = m x

@[simp] theorem length_read : (m.read a n).length = n := by simp [read]

theorem read_congr (h : Agree m m' a n) : m'.read a n = m.read a n := by
  apply List.map_congr_left
  intro k hk
  have := List.mem_range.mp hk
  exact h (a + k) (by omega) (by omega)

theorem long_congr (h : Agree m m' a 4) : m'.long a = m.long a := congrArg beVal (read_congr h)

theorem write_outside {bytes : List UInt8} {x : ℤ} (h : x < a ∨ a + bytes.length ≤ x) :
    m.write a bytes x = m x := if_neg (by omega)

theorem write_nil (m : Memory) (a : ℤ) : m.write a [] = m := by
  funext x
  apply write_outside
  simp only [List.length_nil]
  omega

/-- What is written in two parts. -/
theorem write_append (m : Memory) (a : ℤ) (bytes bytes' : List UInt8) :
    (m.write a bytes).write (a + bytes.length) bytes' = m.write a (bytes ++ bytes') := by
  funext x
  simp only [write, List.length_append, Nat.cast_add]
  -- the second part begins behind the first one
  by_cases hsecond : a + bytes.length ≤ x
  · have hplace : (x - (a + bytes.length)).toNat = (x - a).toNat - bytes.length := by omega
    have hnot : ¬(a ≤ x ∧ x < a + bytes.length) := by omega
    rw [if_neg hnot]
    by_cases hin : x < a + bytes.length + bytes'.length
    · rw [if_pos ⟨hsecond, hin⟩, if_pos ⟨by omega, by omega⟩,
        List.getD_append_right _ _ _ _ (by omega), hplace]
    · rw [if_neg (by omega), if_neg (by omega)]
  · rw [if_neg (by omega)]
    by_cases hin : a ≤ x
    · rw [if_pos ⟨hin, by omega⟩, if_pos ⟨hin, by omega⟩, List.getD_append _ _ _ _ (by omega)]
    · rw [if_neg (by omega), if_neg (by omega)]

/-- What has been written is read back. -/
theorem read_write (m : Memory) (a : ℤ) (bytes : List UInt8) :
    (m.write a bytes).read a bytes.length = bytes := by
  apply List.ext_getElem
  · exact length_read
  · intro k _ hk
    simp [read, write, hk]

theorem agree_write {bytes : List UInt8} (h : b + n ≤ a ∨ a + bytes.length ≤ b) :
    Agree m (m.write a bytes) b n := by
  intro x hlo hhi
  exact write_outside (by omega)

theorem agree_storeLong {v : ℕ} (h : b + n ≤ a ∨ a + 4 ≤ b) : Agree m (m.storeLong a v) b n :=
  agree_write (by simpa using h)

theorem Agree.mono {k : ℕ} (h : Agree m m' a n) (hlo : a ≤ b) (hhi : b + k ≤ a + n) :
    Agree m m' b k := fun x hx hx' => h x (by omega) (by omega)

theorem long_storeLong (m : Memory) (a : ℤ) (v : ℕ) : (m.storeLong a v).long a = v % 2 ^ 32 := by
  have hread : (m.write a (beBytes 4 v)).read a 4 = beBytes 4 v := by
    simpa using read_write m a (beBytes 4 v)
  unfold long storeLong
  rw [hread, beVal_beBytes]
  norm_num

/-- Longwords at different multiples of 4 do not share a byte. -/
theorem long_storeLong_of_ne {v : ℕ} (ha : 4 ∣ a) (hb : 4 ∣ b) (hne : b ≠ a) :
    (m.storeLong a v).long b = m.long b := long_congr (agree_storeLong (by omega))

theorem long_lt (m : Memory) (a : ℤ) : m.long a < 2 ^ 32 := by
  have h := beVal_lt (m.read a 4)
  rw [length_read] at h
  exact h

theorem write_replicate {c : UInt8} {x : ℤ} (hlo : a ≤ x) (hhi : x < a + n) :
    m.write a (List.replicate n c) x = c := by
  unfold write
  rw [List.length_replicate, if_pos ⟨hlo, hhi⟩]
  have hlt : (x - a).toNat < n := by omega
  simp [hlt]

/-- Stretches that begin with the same bytes. -/
theorem take_read {m m' : Memory} {k n n' : ℕ} (h : ∀ i < k, m (a + i) = m' (b + i)) (hn : k ≤ n)
    (hn' : k ≤ n') : (m.read a n).take k = (m'.read b n').take k := by
  unfold read
  rw [← List.map_take, ← List.map_take, List.take_range, List.take_range, min_eq_left hn, min_eq_left hn']
  exact List.map_congr_left fun i hi => h i (List.mem_range.mp hi)

theorem read_take {k : ℕ} (m : Memory) (a : ℤ) (h : k ≤ n) : (m.read a n).take k = m.read a k := by
  rw [take_read (fun _ _ => rfl) h le_rfl, List.take_of_length_le (by simp)]

/-- One byte of a stretch is written. -/
theorem read_update (m : Memory) (a : ℤ) (n i : ℕ) (c : UInt8) :
    read (update m (a + i) c) a n = (m.read a n).set i c := by
  refine List.ext_getElem (by simp) fun k hk hk' => ?_
  simp only [read, List.getElem_set, List.getElem_map, List.getElem_range]
  split
  · next heq => rw [heq, update_self]
  · next hne => rw [update_of_ne (by omega)]

/-- What a copy from `b` to `a` leaves at `a`. -/
theorem copy_apply {k : ℤ} (m m' : Memory) (a b : ℤ) {n : ℕ} (hlo : 0 ≤ k) (hhi : k < n) :
    m.write a (m'.read b n) (a + k) = m' (b + k) := by
  obtain ⟨i, rfl⟩ := Int.eq_ofNat_of_zero_le hlo
  have hi : i < n := by omega
  unfold write
  rw [if_pos ⟨by omega, by rw [length_read]; omega⟩]
  simp [read, hi]

end Memory

end LisaMinix.Library
