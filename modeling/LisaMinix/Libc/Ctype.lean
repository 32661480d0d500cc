import Mathlib.Tactic
import Mathlib.Data.List.TakeWhile

/-!
# Characters

The classes of characters of `ctype.h`.  A string is the list of its characters up to the NUL.
-/

namespace LisaMinix.Libc

abbrev CString := List ℕ

/-! ## §1 The Table -/

def ctypeU : ℕ := 0o001
def ctypeL : ℕ := 0o002
def ctypeN : ℕ := 0o004
def ctypeS : ℕ := 0o010
def ctypeP : ℕ := 0o020
def ctypeC : ℕ := 0o040
def ctypeX : ℕ := 0o100
def ctypeSP : ℕ := 0o200

/-- `(__ctype+1)[c]`; the rows of the table that are the same are put together. -/
def ctype (c : ℕ) : ℕ :=
  if c < 0o11 then ctypeC
  else if c < 0o16 then ctypeS ||| ctypeC
  else if c < 0o40 then ctypeC
  else if c = 0o40 then ctypeS ||| ctypeSP
  else if c < 0o60 then ctypeP
  else if c < 0o72 then ctypeN
  else if c < 0o101 then ctypeP
  else if c < 0o107 then ctypeU ||| ctypeX
  else if c < 0o133 then ctypeU
  else if c < 0o141 then ctypeP
  else if c < 0o147 then ctypeL ||| ctypeX
  else if c < 0o173 then ctypeL
  else if c < 0o177 then ctypeP
  else if c = 0o177 then ctypeC
  else 0

def isspace (c : ℕ) : Bool := ctype c &&& ctypeS ≠ 0
def isdigit (c : ℕ) : Bool := ctype c &&& ctypeN ≠ 0
def isupper (c : ℕ) : Bool := ctype c &&& ctypeU ≠ 0
def isalpha (c : ℕ) : Bool := ctype c &&& (ctypeU ||| ctypeL) ≠ 0

/-! ## §2 The Classes -/

/-- No class has a character beyond the table. -/
theorem ctype_high {c : ℕ} (h : 128 ≤ c) : ctype c = 0 := by
  unfold ctype
  repeat rw [if_neg (by omega)]

/-- A property of the characters is one of the table and of what is beyond. -/
theorem forall_chars {P : ℕ → Prop} (htable : ∀ c : Fin 128, P c) (hhigh : ∀ c, 128 ≤ c → P c) (c : ℕ) :
    P c := by
  rcases Nat.lt_or_ge c 128 with h | h
  · exact htable ⟨c, h⟩
  · exact hhigh c h

theorem isdigit_iff (c : ℕ) : isdigit c = true ↔ 48 ≤ c ∧ c ≤ 57 := by
  refine forall_chars (P := fun c => isdigit c = true ↔ 48 ≤ c ∧ c ≤ 57) (by decide) (fun c h => ?_) c
  simp only [isdigit, ctype_high h]
  simp
  omega

theorem isupper_iff (c : ℕ) : isupper c = true ↔ 65 ≤ c ∧ c ≤ 90 := by
  refine forall_chars (P := fun c => isupper c = true ↔ 65 ≤ c ∧ c ≤ 90) (by decide) (fun c h => ?_) c
  simp only [isupper, ctype_high h]
  simp
  omega

theorem isspace_iff (c : ℕ) : isspace c = true ↔ 9 ≤ c ∧ c ≤ 13 ∨ c = 32 := by
  refine forall_chars (P := fun c => isspace c = true ↔ 9 ≤ c ∧ c ≤ 13 ∨ c = 32) (by decide) (fun c h => ?_) c
  simp only [isspace, ctype_high h]
  simp
  omega

end LisaMinix.Libc
