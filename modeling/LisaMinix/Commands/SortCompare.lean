import LisaMinix.Library.Comparisons
import Mathlib.Data.List.TakeWhile

/-!
# `sort`: Comparing Lines

`compare`, `cmp` and `digits` of `sort.c`, without fields.  A line is the list of its characters and a
newline; a pointer into it is what is left of it, and nothing when the newline has been passed.

- `compare`: the function.
- `Faulty`: the pairs of lines for which a loop that skips characters is entered where nothing is
  left of the line that counts.
- `key`: what all other pairs are compared by without `-n` (`cmpLoop_reflects`).
- `cmpLoop_past`: for the pairs that are faulty the loop runs past the newline, unless a tab is in
  its way.
-/

namespace LisaMinix.Commands.Sort

open LisaMinix.Library

/-! ## §1 Characters and Options -/

def newline : ℕ := 10

def lower : ℤ := -1
def same : ℤ := 0
def higher : ℤ := 1

def dict : ℕ := 0x001
def ascii : ℕ := 0x002
def blank : ℕ := 0x004
def digit : ℕ := 0x008
def upper : ℕ := 0x010

/-- The table of all characters; rows that are the same are put together. -/
def table (c : ℕ) : ℕ :=
  if c = 9 then blank ||| dict
  else if c < 32 then 0
  else if c = 32 then blank ||| dict ||| ascii
  else if c < 48 then ascii
  else if c < 58 then digit ||| dict ||| ascii
  else if c < 65 then ascii
  else if c < 91 then upper ||| dict ||| ascii
  else if c < 97 then ascii
  else if c < 123 then dict ||| ascii
  else if c < 127 then ascii
  else 0

/-- `table[c] & flag` -/
def isIn (flag c : ℕ) : Bool := table c &&& flag ≠ 0

/-- The flags of `FIELD` that `cmp` reads. -/
structure Field where
  reverse : Bool := false
  blanks : Bool := false
  dictionary : Bool := false
  foldCase : Bool := false
  ascii : Bool := false
  numeric : Bool := false

/-- The letters of the options. -/
inductive Opt where
  | b | d | f | i | n | r
  deriving DecidableEq

def getOpts (o : Opt) (field : Field) : Field :=
  match o with
  | .b => { field with blanks := true }
  | .d => { field with dictionary := true }
  | .f => { field with foldCase := true }
  | .i => { field with ascii := true }
  | .n => { field with numeric := true, blanks := true }
  | .r => { field with reverse := true }

/-- `fields[GLOBAL]`, which has no option at first. -/
def globalField (opts : List Opt) : Field := opts.foldl (fun field o => getOpts o field) {}

/-! ## §2 The Functions -/

/-- `while ((table[*el] & flag) == 0) el++` -/
def skipOthers (flag : ℕ) (el : List ℕ) : List ℕ := el.dropWhile fun c => !isIn flag c

theorem skipOthers_length (flag : ℕ) (el : List ℕ) : (skipOthers flag el).length ≤ el.length :=
  (List.dropWhile_suffix _).length_le

/-- `if (table[c] & UPPER) c += 'a' - 'A'` -/
def fold (c : ℕ) : ℕ := if isIn upper c then c + (97 - 65) else c

/-- The loop of `cmp`.  The first case is the inner loop over equal characters. -/
def cmpLoop (field : Field) : List ℕ → List ℕ → Option ℤ
  | c₁ :: s₁, c₂ :: s₂ =>
    if c₁ = c₂ then
      if c₁ = newline then some same else cmpLoop field s₁ s₂
    else if c₁ = newline then some lower
    else if c₂ = newline then some higher
    else if field.ascii ∧ !isIn ascii c₁ then cmpLoop field (skipOthers ascii s₁) (c₂ :: s₂)
    else if field.ascii ∧ !isIn ascii c₂ then cmpLoop field (c₁ :: s₁) (skipOthers ascii s₂)
    else if field.dictionary ∧ !isIn dict c₁ then cmpLoop field (skipOthers dict s₁) (c₂ :: s₂)
    else if field.dictionary ∧ !isIn dict c₂ then cmpLoop field (c₁ :: s₁) (skipOthers dict s₂)
    else if field.foldCase then
      if fold c₁ = fold c₂ then cmpLoop field s₁ s₂ else some (fold c₁ - fold c₂)
    else some (c₁ - c₂)
  | _, _ => none
termination_by el₁ el₂ => el₁.length + el₂.length
decreasing_by
  all_goals
    have h1 := skipOthers_length ascii s₁
    have h2 := skipOthers_length ascii s₂
    have h3 := skipOthers_length dict s₁
    have h4 := skipOthers_length dict s₂
    simp only [List.length_cons]
    omega

/-- `while (table[*str++] & DIGIT) pow++` -/
def countDigits (str : List ℕ) : ℤ := (str.takeWhile (isIn digit)).length

/-- `digits` where the signs need not be checked. -/
def unsignedDigits : List ℕ → List ℕ → Option ℤ
  | c₁ :: s₁, c₂ :: s₂ =>
    if isIn digit c₁ ∧ isIn digit c₂ ∧ c₁ = c₂ then unsignedDigits s₁ s₂
    else if c₁ = 46 ∨ c₂ = 46 then
      if c₁ = 46 then
        if c₂ = 46 then unsignedDigits s₁ s₂ else some (if isIn digit c₂ then lower else higher)
      else some (if isIn digit c₁ then higher else lower)
    else if isIn digit c₁ ∧ isIn digit c₂ then
      let diff : ℤ := c₁ - c₂
      let pow := countDigits (c₁ :: s₁) - countDigits (c₂ :: s₂)
      some (if pow = 0 then diff else pow)
    else if !isIn digit c₁ then some (if isIn digit c₂ then lower else same)
    else some higher
  | _, _ => none

/-- The optional sign of `str1`. -/
def splitSign : List ℕ → Bool × List ℕ
  | 45 :: s => (true, s)
  | 43 :: s => (false, s)
  | s => (false, s)

/-- `digits(str1, str2, TRUE)` -/
def digits (str₁ str₂ : List ℕ) : Option ℤ :=
  let (negative, s₁) := splitSign str₁
  let (negative₂, s₂) := splitSign str₂
  if negative₂ then
    if negative = false then some higher else (unsignedDigits s₁ s₂).map fun ret => -ret
  else if negative then some lower
  else unsignedDigits s₁ s₂

/-- `while (table[*el] & BLANK) el++` -/
def skipBlanks (el : List ℕ) : List ℕ := el.dropWhile (isIn blank)

def cmp (el₁ el₂ : List ℕ) (field : Field) : Option ℤ :=
  let el₁ := if field.blanks then skipBlanks el₁ else el₁
  let el₂ := if field.blanks then skipBlanks el₂ else el₂
  if field.numeric then digits el₁ el₂ else cmpLoop field el₁ el₂

/-- `compare` where `field_cnt` is 0. -/
def compare (field : Field) (el₁ el₂ : List ℕ) : Option ℤ :=
  (cmp el₁ el₂ field).map fun ret => if field.reverse then -ret else ret

/-- What stands before the newline: 7-bit text. -/
structure Text where
  chars : List ℕ
  ok : ∀ c ∈ chars, c < 128 ∧ c ≠ newline

def Text.line (t : Text) : List ℕ := t.chars ++ [newline]

/-! ## §3 What is Ignored -/

/-- How far a character counts: with `-i` what is not `ASCII` counts least, and with `-d` what is not
`DICT` is ignored as well. -/
def rank (field : Field) (c : ℕ) : ℕ :=
  if field.ascii ∧ !isIn ascii c then 0 else if field.dictionary ∧ !isIn dict c then 1 else 2

/-- What stops the loop that skips characters of the rank `r`. -/
def stops (r : ℕ) : ℕ := if r = 0 then ascii else dict

def folded (field : Field) (c : ℕ) : ℕ := if field.foldCase then fold c else c

/-- Nothing in the rest `t` of a line counts more than `c`. -/
def Lost (field : Field) (c : ℕ) (t : List ℕ) : Prop := ∀ e ∈ t, rank field e ≤ rank field c

instance instDecidableLost (field : Field) (c : ℕ) (t : List ℕ) : Decidable (Lost field c t) :=
  inferInstanceAs (Decidable (∀ e ∈ t, rank field e ≤ rank field c))

/-- The comparison of two lines comes to a loop that skips a character, although nothing is left of
the line that would count more. -/
inductive Faulty (field : Field) : List ℕ → List ℕ → Prop
  | equal {c : ℕ} {t₁ t₂ : List ℕ} (h : Faulty field t₁ t₂) : Faulty field (c :: t₁) (c :: t₂)
  | folded {c₁ c₂ : ℕ} {t₁ t₂ : List ℕ} (hne : c₁ ≠ c₂) (h1 : rank field c₁ = 2)
      (h2 : rank field c₂ = 2) (heq : folded field c₁ = folded field c₂) (h : Faulty field t₁ t₂) :
      Faulty field (c₁ :: t₁) (c₂ :: t₂)
  | lostLeft {c₁ c₂ : ℕ} {t₁ t₂ : List ℕ} (hne : c₁ ≠ c₂) (h1 : rank field c₁ < 2)
      (hle : rank field c₁ ≤ rank field c₂) (hlost : Lost field c₁ t₁) :
      Faulty field (c₁ :: t₁) (c₂ :: t₂)
  | skipLeft {c₁ c₂ : ℕ} {t₁ t₂ : List ℕ} (hne : c₁ ≠ c₂) (h1 : rank field c₁ < 2)
      (hle : rank field c₁ ≤ rank field c₂)
      (h : Faulty field (skipOthers (stops (rank field c₁)) t₁) (c₂ :: t₂)) :
      Faulty field (c₁ :: t₁) (c₂ :: t₂)
  | lostRight {c₁ c₂ : ℕ} {t₁ t₂ : List ℕ} (hlt : rank field c₂ < rank field c₁)
      (hlost : Lost field c₂ t₂) : Faulty field (c₁ :: t₁) (c₂ :: t₂)
  | skipRight {c₁ c₂ : ℕ} {t₁ t₂ : List ℕ} (hlt : rank field c₂ < rank field c₁)
      (h : Faulty field (c₁ :: t₁) (skipOthers (stops (rank field c₂)) t₂)) :
      Faulty field (c₁ :: t₁) (c₂ :: t₂)

section

variable {field : Field} {c c₁ c₂ : ℕ} {t t₁ t₂ : List ℕ}

theorem rank_le_two (field : Field) (c : ℕ) : rank field c ≤ 2 := by
  unfold rank
  split
  · decide
  split
  · decide
  · exact le_rfl

theorem rank_eq_zero : rank field c = 0 ↔ field.ascii = true ∧ isIn ascii c = false := by
  unfold rank
  split
  next h => exact iff_of_true rfl (by simpa using h)
  next h =>
    refine iff_of_false ?_ (by simpa using h)
    split <;> decide

/-- The loop that skips a character stops at all that count more. -/
theorem rank_le_of_not_isIn {e : ℕ} (hc : rank field c < 2)
    (he : isIn (stops (rank field c)) e = false) : rank field e ≤ rank field c := by
  by_cases hzero : rank field c = 0
  · rw [hzero] at he ⊢
    have hascii := (rank_eq_zero.mp hzero).1
    exact le_of_eq (rank_eq_zero.mpr ⟨hascii, he⟩)
  · have hone : rank field c = 1 := by omega
    rw [hone] at he ⊢
    have hdict : field.dictionary = true := by
      unfold rank at hone
      split at hone
      · cases hone
      split at hone
      · next h => exact h.1
      · cases hone
    have hdict' : isIn dict e = false := he
    unfold rank
    split
    · decide
    · rw [if_pos ⟨hdict, by rw [hdict']; rfl⟩]

/-- The body of the loop of `cmp` for two characters that differ. -/
theorem cmpLoop_cons (hne : c₁ ≠ c₂) (h1 : c₁ ≠ newline) (h2 : c₂ ≠ newline) (s₁ s₂ : List ℕ) :
    cmpLoop field (c₁ :: s₁) (c₂ :: s₂) =
      if rank field c₁ < 2 ∧ rank field c₁ ≤ rank field c₂ then
        cmpLoop field (skipOthers (stops (rank field c₁)) s₁) (c₂ :: s₂)
      else if rank field c₂ < rank field c₁ then
        cmpLoop field (c₁ :: s₁) (skipOthers (stops (rank field c₂)) s₂)
      else if folded field c₁ = folded field c₂ then cmpLoop field s₁ s₂
      else some (folded field c₁ - folded field c₂) := by
  rw [cmpLoop, if_neg hne, if_neg h1, if_neg h2]
  by_cases ha1 : field.ascii = true ∧ (!isIn ascii c₁) = true
  · have hr1 : rank field c₁ = 0 := by rw [rank, if_pos ha1]
    rw [if_pos ha1, if_pos (by omega), hr1]
    rfl
  rw [if_neg ha1]
  by_cases ha2 : field.ascii = true ∧ (!isIn ascii c₂) = true
  · have hr2 : rank field c₂ = 0 := by rw [rank, if_pos ha2]
    have hr1 : rank field c₁ ≠ 0 := by
      rw [rank, if_neg ha1]
      split <;> decide
    rw [if_pos ha2, if_neg (by omega), if_pos (by omega), hr2]
    rfl
  rw [if_neg ha2]
  by_cases hd1 : field.dictionary = true ∧ (!isIn dict c₁) = true
  · have hr1 : rank field c₁ = 1 := by rw [rank, if_neg ha1, if_pos hd1]
    have hr2 : rank field c₂ ≠ 0 := by
      rw [rank, if_neg ha2]
      split <;> decide
    rw [if_pos hd1, if_pos (by omega), hr1]
    rfl
  have hr1 : rank field c₁ = 2 := by rw [rank, if_neg ha1, if_neg hd1]
  rw [if_neg hd1]
  by_cases hd2 : field.dictionary = true ∧ (!isIn dict c₂) = true
  · have hr2 : rank field c₂ = 1 := by rw [rank, if_neg ha2, if_pos hd2]
    rw [if_pos hd2, if_neg (by omega), if_pos (by omega), hr2]
    rfl
  have hr2 : rank field c₂ = 2 := by rw [rank, if_neg ha2, if_neg hd2]
  have hkept : ¬(rank field c₁ < 2 ∧ rank field c₁ ≤ rank field c₂) := by omega
  have hkept' : ¬rank field c₂ < rank field c₁ := by omega
  rw [if_neg hd2, if_neg hkept, if_neg hkept']
  unfold folded
  rcases field.foldCase with _ | _
  · exact (if_neg hne).symm
  · rfl

theorem cmpLoop_equal (hc : c ≠ newline) (s₁ s₂ : List ℕ) :
    cmpLoop field (c :: s₁) (c :: s₂) = cmpLoop field s₁ s₂ := by
  rw [cmpLoop, if_pos rfl, if_neg hc]

/-- A loop that skips characters stops before the newline if there is something to stop at. -/
theorem skip_line {flag : ℕ} (h : ∃ e ∈ t, isIn flag e = true) :
    skipOthers flag (t ++ [newline]) = skipOthers flag t ++ [newline] := by
  induction t with
  | nil => exact absurd h (by simp)
  | cons c t ih =>
    unfold skipOthers at ih ⊢
    rw [List.cons_append, List.dropWhile_cons, List.dropWhile_cons]
    split
    next hc =>
      apply ih
      obtain ⟨e, he, hin⟩ := h
      rcases List.mem_cons.mp he with rfl | he
      · rw [hin] at hc
        exact absurd hc (by decide)
      · exact ⟨e, he, hin⟩
    next => rfl

/-- There is a character that counts more, at which the loop stops. -/
theorem exists_stop (hc : rank field c < 2) (h : ¬Lost field c t) :
    ∃ e ∈ t, isIn (stops (rank field c)) e = true := by
  unfold Lost at h
  push Not at h
  obtain ⟨e, he, hlt⟩ := h
  refine ⟨e, he, ?_⟩
  by_contra hin
  exact absurd (rank_le_of_not_isIn hc (by simpa using hin)) (not_le.mpr hlt)

theorem skip_lost (hc : rank field c < 2) (h : ¬Lost field c t) :
    skipOthers (stops (rank field c)) (t ++ [newline]) =
      skipOthers (stops (rank field c)) t ++ [newline] := skip_line (exists_stop hc h)

/-! ## §4 Keys -/

/-- What a character stands for in a key. -/
def symbol (field : Field) (c : ℕ) : ℕ ×ₗ ℕ :=
  toLex (rank field c, if rank field c = 2 then folded field c else c)

/-- What two lines are compared by: the characters that are not ignored, and those that are ignored
but after which nothing comes that counts more. -/
def key (field : Field) : List ℕ → List (ℕ ×ₗ ℕ)
  | [] => []
  | c :: t => if rank field c = 2 ∨ Lost field c t then symbol field c :: key field t else key field t

theorem key_kept (h : rank field c = 2) : key field (c :: t) = symbol field c :: key field t := by
  rw [key, if_pos (.inl h)]

theorem key_lost (h : Lost field c t) : key field (c :: t) = symbol field c :: key field t := by
  rw [key, if_pos (.inr h)]

theorem key_ignored (hc : rank field c < 2) (h : ¬Lost field c t) :
    key field (c :: t) = key field t := by
  rw [key, if_neg]
  rintro (htwo | hlost)
  · omega
  · exact h hlost

/-- Nothing in the key counts more than what is in the line. -/
theorem key_le {r : ℕ} (h : ∀ e ∈ t, rank field e ≤ r) : ∀ x ∈ key field t, (ofLex x).1 ≤ r := by
  induction t with
  | nil => simp [key]
  | cons c t ih =>
    have hrest := ih fun e he => h e (List.mem_cons_of_mem _ he)
    rw [key]
    split
    · intro x hx
      rcases List.mem_cons.mp hx with rfl | hx
      · exact h c (List.mem_cons_self ..)
      · exact hrest x hx
    · exact hrest

/-- The key begins with something that counts if there is such a thing in the line. -/
theorem key_head {r : ℕ} (h : ∃ e ∈ t, r < rank field e) :
    ∃ x l, key field t = x :: l ∧ r < (ofLex x).1 := by
  induction t with
  | nil => exact absurd h (by simp)
  | cons c t ih =>
    obtain ⟨e, he, hlt⟩ := h
    by_cases hkept : rank field c = 2 ∨ Lost field c t
    · refine ⟨symbol field c, key field t, by rw [key, if_pos hkept], ?_⟩
      show r < rank field c
      rcases hkept with htwo | hlost
      · have := rank_le_two field e
        omega
      · rcases List.mem_cons.mp he with rfl | he
        · exact hlt
        · exact lt_of_lt_of_le hlt (hlost e he)
    · -- what the character has been dropped for is in the rest
      have hmore : ∃ e' ∈ t, r < rank field e' := by
        rcases List.mem_cons.mp he with rfl | he
        · obtain ⟨-, hnot⟩ := not_or.mp hkept
          unfold Lost at hnot
          push Not at hnot
          obtain ⟨e', he', hlt'⟩ := hnot
          exact ⟨e', he', hlt.trans hlt'⟩
        · exact ⟨e, he, hlt⟩
      obtain ⟨x, l, hl, hx⟩ := ih hmore
      exact ⟨x, l, by rw [key, if_neg hkept, hl], hx⟩

theorem key_ne_nil (field : Field) (c : ℕ) (t : List ℕ) : key field (c :: t) ≠ [] := by
  rw [key]
  split
  · exact List.cons_ne_nil _ _
  · next h =>
    obtain ⟨-, hnot⟩ := not_or.mp h
    unfold Lost at hnot
    push Not at hnot
    obtain ⟨x, l, hl, -⟩ := key_head hnot
    rw [hl]
    exact List.cons_ne_nil _ _

/-- The characters that are skipped are not in the key. -/
theorem key_skip (hc : rank field c < 2) (h : ¬Lost field c t) :
    key field (skipOthers (stops (rank field c)) t) = key field t := by
  induction t with
  | nil => rfl
  | cons d t ih =>
    unfold skipOthers at ih ⊢
    rw [List.dropWhile_cons]
    split
    next hd =>
      have hle := rank_le_of_not_isIn hc (by simpa using hd)
      unfold Lost at h
      push Not at h
      obtain ⟨e, he, hlt⟩ := h
      have het : e ∈ t := by
        rcases List.mem_cons.mp he with rfl | he
        · exact absurd hle (not_le.mpr hlt)
        · exact he
      have hlost : ∀ c', rank field c' ≤ rank field c → ¬Lost field c' t := fun c' hle' hlost =>
        absurd (hlost e het) (not_le.mpr (lt_of_le_of_lt hle' hlt))
      rw [ih (hlost c le_rfl), key_ignored (lt_of_le_of_lt hle hc) (hlost d hle)]
    next => rfl

theorem nil_lt_of_ne_nil {α : Type*} [LT α] {l : List α} (h : l ≠ []) : [] < l := by
  obtain ⟨a, m, rfl⟩ := List.exists_cons_of_ne_nil h
  exact List.nil_lt_cons a m

/-- A line in which nothing counts more than `c` comes before one in which something does. -/
theorem key_lt (h1 : Lost field c t₁) (h2 : ¬Lost field c t₂) :
    key field t₁ < key field t₂ ∧ symbol field c :: key field t₁ < key field t₂ := by
  unfold Lost at h2
  push Not at h2
  obtain ⟨x, l, hl, hx⟩ := key_head h2
  rw [hl]
  have hbelow : ∀ y : ℕ ×ₗ ℕ, (ofLex y).1 ≤ rank field c → y < x := fun y hy =>
    Prod.Lex.lt_iff.mpr (.inl (lt_of_le_of_lt hy hx))
  constructor
  · rcases hk : key field t₁ with _ | ⟨y, m⟩
    · exact List.nil_lt_cons x l
    · have hy := key_le h1 y (by rw [hk]; exact List.mem_cons_self ..)
      exact List.cons_lt_cons_iff.mpr (.inl (hbelow y hy))
  · exact List.cons_lt_cons_iff.mpr (.inl (hbelow _ le_rfl))

/-! ## §5 Lines without Numbers -/

/-- The loop of `cmp` compares two lines by their keys. -/
def Compared (field : Field) (t₁ t₂ : List ℕ) : Prop :=
  ∃ r, cmpLoop field (t₁ ++ [newline]) (t₂ ++ [newline]) = some r ∧
    Reflects r (key field t₁) (key field t₂)

/-- A common character in front makes no difference. -/
theorem reflects_cons {r : ℤ} (h : Reflects r (key field t₁) (key field t₂)) :
    Reflects r (key field (c :: t₁)) (key field (c :: t₂)) := by
  by_cases htwo : rank field c = 2
  · rw [key_kept htwo, key_kept htwo]
    exact (Reflects.cons_iff _).mpr h
  have hc : rank field c < 2 := lt_of_le_of_ne (rank_le_two field c) htwo
  by_cases h1 : Lost field c t₁ <;> by_cases h2 : Lost field c t₂
  · rw [key_lost h1, key_lost h2]
    exact (Reflects.cons_iff _).mpr h
  · obtain ⟨hlt, hlt'⟩ := key_lt h1 h2
    rw [key_lost h1, key_ignored hc h2]
    exact (h.iff_of_lt hlt).mpr hlt'
  · obtain ⟨hlt, hlt'⟩ := key_lt h2 h1
    rw [key_ignored hc h1, key_lost h2]
    exact (h.iff_of_gt hlt).mpr hlt'
  · rw [key_ignored hc h1, key_ignored hc h2]
    exact h

/-- Lines of which nothing is lost are compared by their keys. -/
theorem cmpLoop_reflects (n : ℕ) : ∀ t₁ t₂ : List ℕ, t₁.length + t₂.length = n →
    newline ∉ t₁ → newline ∉ t₂ → ¬Faulty field t₁ t₂ → Compared field t₁ t₂ := by
  induction n using Nat.strong_induction_on with
  | _ n ih =>
  intro t₁ t₂ hn ht1 ht2 hok
  rcases t₁ with _ | ⟨c₁, t₁⟩ <;> rcases t₂ with _ | ⟨c₂, t₂⟩
  · refine ⟨same, ?_, .refl _⟩
    rw [List.nil_append, cmpLoop, if_pos rfl, if_pos rfl]
  · -- the first line has come to its end
    have hne : newline ≠ c₂ := fun he => ht2 (by rw [← he]; exact List.mem_cons_self ..)
    refine ⟨lower, ?_, .of_lt (by decide) (nil_lt_of_ne_nil (key_ne_nil field c₂ t₂))⟩
    rw [List.nil_append, List.cons_append, cmpLoop, if_neg hne, if_pos rfl]
  · have hne : c₁ ≠ newline := fun he => ht1 (by rw [← he]; exact List.mem_cons_self ..)
    refine ⟨higher, ?_, .of_gt (by decide) (nil_lt_of_ne_nil (key_ne_nil field c₁ t₁))⟩
    rw [List.nil_append, List.cons_append, cmpLoop, if_neg hne, if_neg hne, if_pos rfl]
  have hsub1 := ht1
  have hsub2 := ht2
  rw [List.mem_cons, not_or] at hsub1 hsub2
  simp only [List.length_cons] at hn
  have hnew1 : c₁ ≠ newline := Ne.symm hsub1.1
  have hnew2 : c₂ ≠ newline := Ne.symm hsub2.1
  unfold Compared
  rw [List.cons_append, List.cons_append]
  rcases eq_or_ne c₁ c₂ with rfl | hdiff
  · obtain ⟨r, hr, hreflects⟩ :=
      ih _ (by omega) t₁ t₂ rfl hsub1.2 hsub2.2 fun h => hok (.equal h)
    rw [cmpLoop_equal hnew1]
    exact ⟨r, hr, reflects_cons hreflects⟩
  rw [cmpLoop_cons hdiff hnew1 hnew2]
  split
  next h =>
    -- the first line is skipped up to something that counts more
    have hlost : ¬Lost field c₁ t₁ := fun hl => hok (.lostLeft hdiff h.1 h.2 hl)
    have hle := skipOthers_length (stops (rank field c₁)) t₁
    rw [skip_lost h.1 hlost, key_ignored h.1 hlost, ← key_skip h.1 hlost]
    exact ih _ (by simp only [List.length_cons]; omega) _ (c₂ :: t₂) rfl
      (fun hmem => hsub1.2 ((List.dropWhile_suffix _).mem hmem)) ht2
      fun hf => hok (.skipLeft hdiff h.1 h.2 hf)
  next h1 =>
  split
  next h =>
    have hc : rank field c₂ < 2 := lt_of_lt_of_le h (rank_le_two field c₁)
    have hlost : ¬Lost field c₂ t₂ := fun hl => hok (.lostRight h hl)
    have hle := skipOthers_length (stops (rank field c₂)) t₂
    rw [skip_lost hc hlost, key_ignored hc hlost, ← key_skip hc hlost]
    exact ih _ (by simp only [List.length_cons]; omega) (c₁ :: t₁) _ rfl ht1
      (fun hmem => hsub2.2 ((List.dropWhile_suffix _).mem hmem)) fun hf => hok (.skipRight h hf)
  next h2 =>
  -- both characters count
  have hr1 : rank field c₁ = 2 := by
    have := rank_le_two field c₁
    omega
  have hr2 : rank field c₂ = 2 := by
    have := rank_le_two field c₂
    omega
  rw [key_kept hr1, key_kept hr2, symbol, symbol, if_pos hr1, if_pos hr2, hr1, hr2]
  split
  next heq =>
    obtain ⟨r, hr, hreflects⟩ :=
      ih _ (by omega) t₁ t₂ rfl hsub1.2 hsub2.2 fun h => hok (.folded hdiff hr1 hr2 heq h)
    rw [heq]
    exact ⟨r, hr, (Reflects.cons_iff _).mpr hreflects⟩
  next hne =>
    refine ⟨_, rfl, (Reflects.head_iff ?_ _ _).mpr ((Reflects.sub _ _).congr ?_ ?_)⟩
    · simpa using hne
    · simp [Prod.Lex.toLex_lt_toLex]
    · simp [Prod.Lex.toLex_lt_toLex]

/-! ## §6 Past the Newline -/

/-- The tab, the only character that is `DICT` but not `ASCII`. -/
def tab : ℕ := 9

theorem isIn_dict {e : ℕ} (h : isIn ascii e = false) (htab : e ≠ tab) : isIn dict e = false := by
  have hnine : e ≠ 9 := htab
  revert h
  unfold isIn table
  rw [if_neg hnine]
  split_ifs <;> decide

/-- Where nothing counts more than the character that is skipped, nothing stops the loop. -/
theorem Lost.not_isIn (hc : rank field c < 2) (h : Lost field c t)
    (htab : field.ascii = true → field.dictionary = true → tab ∉ t) {e : ℕ} (he : e ∈ t) :
    isIn (stops (rank field c)) e = false := by
  have hle := h e he
  by_cases hzero : rank field e = 0
  · obtain ⟨hascii, hnot⟩ := rank_eq_zero.mp hzero
    by_cases hc0 : rank field c = 0
    · rw [hc0]
      exact hnot
    · have hc1 : rank field c = 1 := by omega
      have hdict : field.dictionary = true := by
        unfold rank at hc1
        split at hc1
        · cases hc1
        split at hc1
        · next h => exact h.1
        · cases hc1
      rw [hc1]
      apply isIn_dict hnot
      rintro rfl
      exact htab hascii hdict he
  · have hone : rank field e = 1 ∧ rank field c = 1 := by omega
    rw [hone.2]
    obtain ⟨hone, -⟩ := hone
    unfold rank at hone
    split at hone
    · cases hone
    split at hone
    · next h =>
      have hnot := h.2
      rw [Bool.not_eq_true'] at hnot
      exact hnot
    · cases hone

theorem isIn_newline (r : ℕ) : isIn (stops r) newline = false := by
  unfold stops
  split <;> decide

theorem skip_all {flag : ℕ} (h : ∀ e ∈ t, isIn flag e = false) (hflag : isIn flag newline = false) :
    skipOthers flag (t ++ [newline]) = [] := by
  apply List.dropWhile_eq_nil_iff.mpr
  intro e he
  rcases List.mem_append.mp he with he | he
  · rw [h e he]
    rfl
  · rw [List.mem_singleton.mp he, hflag]
    rfl

theorem cmpLoop_nil (s : List ℕ) : cmpLoop field [] s = none ∧ cmpLoop field s [] = none := by
  constructor
  · unfold cmpLoop
    rfl
  · cases s <;> (unfold cmpLoop; rfl)

theorem not_mem_tail {a e : ℕ} (h : a ∉ e :: t) : a ∉ t := fun hmem => h (List.mem_cons_of_mem _ hmem)

theorem ne_of_rank (h : rank field c₂ < rank field c₁) : c₁ ≠ c₂ := by
  rintro rfl
  exact lt_irrefl _ h

theorem cmpLoop_lostLeft (hne : c₁ ≠ c₂) (hc : rank field c₁ < 2) (hle : rank field c₁ ≤ rank field c₂)
    (hlost : Lost field c₁ t₁) (h1 : newline ∉ c₁ :: t₁) (h2 : newline ∉ c₂ :: t₂)
    (htab : field.ascii = true → field.dictionary = true → tab ∉ c₁ :: t₁) :
    cmpLoop field (c₁ :: t₁ ++ [newline]) (c₂ :: t₂ ++ [newline]) = none := by
  have hnew1 : c₁ ≠ newline := fun he => h1 (he ▸ List.mem_cons_self ..)
  have hnew2 : c₂ ≠ newline := fun he => h2 (he ▸ List.mem_cons_self ..)
  have hnone : ∀ e ∈ t₁, isIn (stops (rank field c₁)) e = false := fun e he =>
    hlost.not_isIn hc (fun ha hd => not_mem_tail (htab ha hd)) he
  rw [List.cons_append, List.cons_append, cmpLoop_cons hne hnew1 hnew2, if_pos ⟨hc, hle⟩,
    skip_all hnone (isIn_newline _)]
  exact (cmpLoop_nil _).1

theorem cmpLoop_lostRight (hlt : rank field c₂ < rank field c₁) (hlost : Lost field c₂ t₂)
    (h1 : newline ∉ c₁ :: t₁) (h2 : newline ∉ c₂ :: t₂)
    (htab : field.ascii = true → field.dictionary = true → tab ∉ c₂ :: t₂) :
    cmpLoop field (c₁ :: t₁ ++ [newline]) (c₂ :: t₂ ++ [newline]) = none := by
  have hnew1 : c₁ ≠ newline := fun he => h1 (he ▸ List.mem_cons_self ..)
  have hnew2 : c₂ ≠ newline := fun he => h2 (he ▸ List.mem_cons_self ..)
  have hc : rank field c₂ < 2 := lt_of_lt_of_le hlt (rank_le_two field c₁)
  have hnone : ∀ e ∈ t₂, isIn (stops (rank field c₂)) e = false := fun e he =>
    hlost.not_isIn hc (fun ha hd => not_mem_tail (htab ha hd)) he
  rw [List.cons_append, List.cons_append, cmpLoop_cons (ne_of_rank hlt) hnew1 hnew2,
    if_neg (by omega), if_pos hlt, skip_all hnone (isIn_newline _)]
  exact (cmpLoop_nil _).2

/-- **The loop runs past the newline** of a line that is lost. -/
theorem cmpLoop_past (h : Faulty field t₁ t₂) (h1 : newline ∉ t₁) (h2 : newline ∉ t₂)
    (htab : field.ascii = true → field.dictionary = true → tab ∉ t₁ ∧ tab ∉ t₂) :
    cmpLoop field (t₁ ++ [newline]) (t₂ ++ [newline]) = none := by
  induction h with
  | @equal c s₁ s₂ _ ih =>
    rw [List.mem_cons, not_or] at h1 h2
    rw [List.cons_append, List.cons_append, cmpLoop_equal (Ne.symm h1.1)]
    exact ih h1.2 h2.2 fun ha hd => ⟨not_mem_tail (htab ha hd).1, not_mem_tail (htab ha hd).2⟩
  | @folded c₁ c₂ s₁ s₂ hne hr1 hr2 heq _ ih =>
    rw [List.mem_cons, not_or] at h1 h2
    rw [List.cons_append, List.cons_append, cmpLoop_cons hne (Ne.symm h1.1) (Ne.symm h2.1),
      if_neg (by omega), if_neg (by omega), if_pos heq]
    exact ih h1.2 h2.2 fun ha hd => ⟨not_mem_tail (htab ha hd).1, not_mem_tail (htab ha hd).2⟩
  | @lostLeft c₁ c₂ s₁ s₂ hne hc hle hlost =>
    exact cmpLoop_lostLeft hne hc hle hlost h1 h2 fun ha hd => (htab ha hd).1
  | @skipLeft c₁ c₂ s₁ s₂ hne hc hle _ ih =>
    by_cases hlost : Lost field c₁ s₁
    · exact cmpLoop_lostLeft hne hc hle hlost h1 h2 fun ha hd => (htab ha hd).1
    have hsub := List.dropWhile_suffix (l := s₁) fun c => !isIn (stops (rank field c₁)) c
    have hnew := h1
    rw [List.mem_cons, not_or] at hnew
    have hnew2 : c₂ ≠ newline := fun he => h2 (he ▸ List.mem_cons_self ..)
    rw [List.cons_append, List.cons_append, cmpLoop_cons hne (Ne.symm hnew.1) hnew2,
      if_pos ⟨hc, hle⟩, skip_lost hc hlost]
    exact ih (fun hmem => hnew.2 (hsub.mem hmem)) h2 fun ha hd =>
      ⟨fun hmem => not_mem_tail (htab ha hd).1 (hsub.mem hmem), (htab ha hd).2⟩
  | @lostRight c₁ c₂ s₁ s₂ hlt hlost =>
    exact cmpLoop_lostRight hlt hlost h1 h2 fun ha hd => (htab ha hd).2
  | @skipRight c₁ c₂ s₁ s₂ hlt _ ih =>
    by_cases hlost : Lost field c₂ s₂
    · exact cmpLoop_lostRight hlt hlost h1 h2 fun ha hd => (htab ha hd).2
    have hsub := List.dropWhile_suffix (l := s₂) fun c => !isIn (stops (rank field c₂)) c
    have hc : rank field c₂ < 2 := lt_of_lt_of_le hlt (rank_le_two field c₁)
    have hnew := h2
    rw [List.mem_cons, not_or] at hnew
    have hnew1 : c₁ ≠ newline := fun he => h1 (he ▸ List.mem_cons_self ..)
    rw [List.cons_append, List.cons_append, cmpLoop_cons (ne_of_rank hlt) hnew1 (Ne.symm hnew.1),
      if_neg (by omega), if_pos hlt, skip_lost hc hlost]
    exact ih h1 (fun hmem => hnew.2 (hsub.mem hmem)) fun ha hd =>
      ⟨(htab ha hd).1, fun hmem => not_mem_tail (htab ha hd).2 (hsub.mem hmem)⟩

end

end LisaMinix.Commands.Sort
