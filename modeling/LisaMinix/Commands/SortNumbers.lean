import LisaMinix.Commands.SortCompare
import Mathlib.Data.List.DropRight

/-!
# `sort`: Comparing Numbers

What `digits` compares lines by, and the numbers that they begin with.

- `parts`: the strings of digits between the points.  `digits` compares them one by one, a longer
  string being the higher one.
- `value`: the decimal number that a line begins with.
- `NumbersFine`: the pairs of lines in which the longer string belongs to the greater number.
- `compare_orders_iff`: the lines that `compare` puts in order.
-/

namespace LisaMinix.Commands.Sort

open LisaMinix.Library

variable {g g' f : List ℕ} {r : ℤ} {c : ℕ}

/-! ## §1 Strings of Digits -/

def consHead (c : ℕ) : List (List ℕ) → List (List ℕ)
  | g :: gs => (c :: g) :: gs
  | [] => [[c]]

/-- The strings of digits that a text begins with, which points separate. -/
def groups : List ℕ → List (List ℕ)
  | [] => [[]]
  | c :: s => if isIn digit c then consHead c (groups s) else if c = 46 then [] :: groups s else [[]]

/-- The longer string is the higher one. -/
def shortlex (g : List ℕ) : ℕ ×ₗ List ℕ := toLex (g.length, g)

def groupKey (s : List ℕ) : List (ℕ ×ₗ List ℕ) := (groups s).map shortlex

theorem shortlex_lt :
    shortlex g < shortlex g' ↔ g.length < g'.length ∨ g.length = g'.length ∧ g < g' :=
  Prod.Lex.toLex_lt_toLex

theorem shortlex_inj : shortlex g = shortlex g' ↔ g = g' := by
  constructor
  · intro h
    exact congrArg (fun x => (ofLex x).2) h
  · rintro rfl
    rfl

theorem groups_eq (s : List ℕ) : ∃ gs, groups s = s.takeWhile (isIn digit) :: gs := by
  induction s with
  | nil => exact ⟨[], rfl⟩
  | cons c s ih =>
    obtain ⟨gs, hgs⟩ := ih
    rw [groups, List.takeWhile_cons]
    split
    next hc => exact ⟨gs, by rw [hgs, consHead]⟩
    next hc =>
      split
      next => exact ⟨groups s, rfl⟩
      next => exact ⟨[], rfl⟩

theorem groupKey_eq (s : List ℕ) : ∃ gs, groupKey s = shortlex (s.takeWhile (isIn digit)) :: gs := by
  obtain ⟨gs, hgs⟩ := groups_eq s
  exact ⟨gs.map shortlex, by rw [groupKey, hgs, List.map_cons]⟩

/-- A common digit in front makes no difference. -/
theorem reflects_digit {s₁ s₂ : List ℕ} (hc : isIn digit c = true)
    (h : Reflects r (groupKey s₁) (groupKey s₂)) :
    Reflects r (groupKey (c :: s₁)) (groupKey (c :: s₂)) := by
  obtain ⟨gs₁, h1⟩ := groups_eq s₁
  obtain ⟨gs₂, h2⟩ := groups_eq s₂
  unfold groupKey at h ⊢
  rw [h1, h2] at h
  rw [groups, groups, if_pos hc, if_pos hc, h1, h2]
  simp only [consHead, List.map_cons] at h ⊢
  generalize s₁.takeWhile (isIn digit) = g₁ at h
  generalize s₂.takeWhile (isIn digit) = g₂ at h
  rcases eq_or_ne g₁ g₂ with rfl | hne
  · rw [Reflects.cons_iff] at h ⊢
    exact h
  · rw [Reflects.head_iff (shortlex_inj.not.mpr hne)] at h
    rw [Reflects.head_iff (shortlex_inj.not.mpr (by simpa using hne))]
    refine h.congr ?_ ?_
    all_goals
      rw [shortlex_lt, shortlex_lt, List.cons_lt_cons_iff]
      simp

/-- A string that begins with a digit. -/
theorem groupKey_digit (hc : isIn digit c = true) (s : List ℕ) :
    ∃ g gs, groupKey (c :: s) = shortlex (c :: g) :: gs ∧ countDigits (c :: s) = g.length + 1 := by
  obtain ⟨gs, hgs⟩ := groupKey_eq (c :: s)
  rw [List.takeWhile_cons_of_pos hc] at hgs
  refine ⟨_, gs, hgs, ?_⟩
  rw [countDigits, List.takeWhile_cons_of_pos hc, List.length_cons]
  rfl

/-- Two digits that differ. -/
theorem reflects_differ {c₁ c₂ : ℕ} {s₁ s₂ : List ℕ} (h1 : isIn digit c₁ = true)
    (h2 : isIn digit c₂ = true) (hne : c₁ ≠ c₂) :
    let pow := countDigits (c₁ :: s₁) - countDigits (c₂ :: s₂)
    Reflects (if pow = 0 then (c₁ : ℤ) - c₂ else pow) (groupKey (c₁ :: s₁)) (groupKey (c₂ :: s₂)) := by
  intro pow
  obtain ⟨g₁, gs₁, hkey1, hcount1⟩ := groupKey_digit h1 s₁
  obtain ⟨g₂, gs₂, hkey2, hcount2⟩ := groupKey_digit h2 s₂
  have hpow : pow = (g₁.length : ℤ) - g₂.length := by
    simp only [pow]
    omega
  rw [hkey1, hkey2, Reflects.head_iff (shortlex_inj.not.mpr (by simp [hne])), hpow]
  split
  next hzero =>
    refine (Reflects.sub c₁ c₂).congr ?_ ?_
    all_goals
      rw [shortlex_lt, List.cons_lt_cons_iff, List.length_cons, List.length_cons]
      omega
  next hdiff =>
    refine (Reflects.sub g₁.length g₂.length).congr ?_ ?_
    all_goals
      rw [shortlex_lt, List.length_cons, List.length_cons]
      omega

theorem groupKey_other (hc : isIn digit c = false) (hpoint : c ≠ 46) (s : List ℕ) :
    groupKey (c :: s) = [shortlex []] := by
  rw [groupKey, groups, if_neg (by simp [hc]), if_neg hpoint]
  rfl

theorem groupKey_point (s : List ℕ) : groupKey (46 :: s) = shortlex [] :: groupKey s := by
  rw [groupKey, groups, if_neg (by decide), if_pos rfl]
  rfl

/-- An empty string is lower than one with a digit. -/
theorem reflects_lower (hc : isIn digit c = true) (s : List ℕ) (gs : List (ℕ ×ₗ List ℕ)) :
    Reflects lower (shortlex [] :: gs) (groupKey (c :: s)) := by
  obtain ⟨g, gs', hkey, -⟩ := groupKey_digit hc s
  rw [hkey, Reflects.head_iff (shortlex_inj.not.mpr (by simp))]
  exact .of_lt (by decide) (shortlex_lt.mpr (.inl (by simp)))

theorem reflects_higher (hc : isIn digit c = true) (s : List ℕ) (gs : List (ℕ ×ₗ List ℕ)) :
    Reflects higher (groupKey (c :: s)) (shortlex [] :: gs) :=
  (reflects_lower hc s gs).swap

/-- A point is higher than the end of the number. -/
theorem reflects_point (s : List ℕ) : Reflects lower [shortlex []] (shortlex [] :: groupKey s) := by
  obtain ⟨gs, hgs⟩ := groupKey_eq s
  rw [Reflects.cons_iff, hgs]
  exact .nil_cons (by decide) _ _

/-- What is behind a character that is not the newline. -/
theorem last_tail {s : List ℕ} (h : (c :: s).getLast? = some newline) (hc : c ≠ newline) :
    s.getLast? = some newline := by
  rw [List.getLast?_cons] at h
  rcases hs : s.getLast? with _ | e
  · rw [hs] at h
    exact absurd (Option.some.inj h) hc
  · rw [hs] at h
    exact h

/-- `digits` compares the strings of digits of two lines, one by one. -/
theorem unsignedDigits_reflects (el₁ el₂ : List ℕ) (h1 : el₁.getLast? = some newline)
    (h2 : el₂.getLast? = some newline) :
    ∃ r, unsignedDigits el₁ el₂ = some r ∧ Reflects r (groupKey el₁) (groupKey el₂) := by
  fun_induction unsignedDigits el₁ el₂ with
  | case1 c₁ s₁ c₂ s₂ h ih =>
    obtain ⟨hd, -, rfl⟩ := h
    have hc : c₁ ≠ newline := by
      rintro rfl
      exact absurd hd (by decide)
    obtain ⟨r, hr, hreflects⟩ := ih (last_tail h1 hc) (last_tail h2 hc)
    exact ⟨r, hr, reflects_digit hd hreflects⟩
  | case2 s₁ s₂ _ _ ih =>
    obtain ⟨r, hr, hreflects⟩ := ih (last_tail h1 (by decide)) (last_tail h2 (by decide))
    rw [groupKey_point, groupKey_point]
    exact ⟨r, hr, (Reflects.cons_iff _).mpr hreflects⟩
  | case3 s₁ c₂ s₂ hpoint _ _ =>
    refine ⟨_, rfl, ?_⟩
    rw [groupKey_point]
    rcases hc : isIn digit c₂ with _ | _
    · rw [groupKey_other hc hpoint]
      exact (reflects_point s₁).swap
    · exact reflects_lower hc s₂ _
  | case4 c₁ s₁ c₂ s₂ _ hor hpoint =>
    obtain rfl : c₂ = 46 := hor.resolve_left hpoint
    refine ⟨_, rfl, ?_⟩
    rw [groupKey_point]
    rcases hc : isIn digit c₁ with _ | _
    · rw [groupKey_other hc hpoint]
      exact reflects_point s₂
    · exact reflects_higher hc s₁ _
  | case5 c₁ s₁ c₂ s₂ hequal _ hdigits =>
    refine ⟨_, rfl, reflects_differ hdigits.1 hdigits.2 ?_⟩
    exact fun heq => hequal ⟨hdigits.1, hdigits.2, heq⟩
  | case6 c₁ s₁ c₂ s₂ _ hpoint _ hc1 =>
    obtain ⟨hpoint1, hpoint2⟩ := not_or.mp hpoint
    refine ⟨_, rfl, ?_⟩
    rw [groupKey_other (by simpa using hc1) hpoint1]
    rcases hc : isIn digit c₂ with _ | _
    · rw [groupKey_other hc hpoint2]
      exact .refl _
    · exact reflects_lower hc s₂ _
  | case7 c₁ s₁ c₂ s₂ _ hpoint hdigits hc1 =>
    obtain ⟨hpoint1, hpoint2⟩ := not_or.mp hpoint
    have hd : isIn digit c₁ = true := by simpa using hc1
    have hc2 : isIn digit c₂ = false := by
      by_contra hc
      exact hdigits ⟨hd, by simpa using hc⟩
    refine ⟨_, rfl, ?_⟩
    rw [groupKey_other hc2 hpoint2]
    exact reflects_higher hd s₁ _
  | case8 el₁ el₂ hnone =>
    rcases el₁ with _ | ⟨c₁, s₁⟩
    · exact absurd h1 (by simp)
    rcases el₂ with _ | ⟨c₂, s₂⟩
    · exact absurd h2 (by simp)
    exact (hnone c₁ s₁ c₂ s₂ rfl rfl).elim

/-! ## §2 Signs -/

/-- The strings of digits that a number consists of. -/
def parts (el : List ℕ) : List (List ℕ) := groups (splitSign el).2

/-- Negative numbers come first, in the opposite order. -/
def signedKey (el : List ℕ) : (List (ℕ ×ₗ List ℕ))ᵒᵈ ⊕ₗ List (ℕ ×ₗ List ℕ) :=
  if (splitSign el).1 then Sum.inlₗ (OrderDual.toDual ((parts el).map shortlex))
  else Sum.inrₗ ((parts el).map shortlex)

theorem splitSign_last {el : List ℕ} (h : el.getLast? = some newline) :
    (splitSign el).2.getLast? = some newline := by
  unfold splitSign
  split
  next => exact last_tail h (by decide)
  next => exact last_tail h (by decide)
  next => exact h

theorem digits_reflects {el₁ el₂ : List ℕ} (h1 : el₁.getLast? = some newline)
    (h2 : el₂.getLast? = some newline) :
    ∃ r, digits el₁ el₂ = some r ∧ Reflects r (signedKey el₁) (signedKey el₂) := by
  obtain ⟨ret, hret, hreflects⟩ := unsignedDigits_reflects _ _ (splitSign_last h1) (splitSign_last h2)
  unfold digits signedKey
  simp only [hret]
  rcases (splitSign el₁).1 with _ | _ <;> rcases (splitSign el₂).1 with _ | _
  · refine ⟨ret, rfl, hreflects.congr ?_ ?_⟩
    all_goals simp [groupKey, parts]
  · exact ⟨higher, rfl, .of_gt (by decide) (by simp)⟩
  · exact ⟨lower, rfl, .of_lt (by decide) (by simp)⟩
  · refine ⟨-ret, rfl, hreflects.dual.congr ?_ ?_⟩
    all_goals simp [groupKey, parts]

/-! ## §3 Decimal Numbers -/

/-- The number that a string of digits stands for. -/
def decimal : List ℕ → ℕ
  | [] => 0
  | c :: g => (c - 48) * 10 ^ g.length + decimal g

/-- Digits, and a fraction if there is one. -/
def magnitude : List (List ℕ) → ℚ
  | g :: f :: _ => decimal g + decimal f / 10 ^ f.length
  | [g] => decimal g
  | [] => 0

/-- The decimal number that a line begins with. -/
def value (el : List ℕ) : ℚ := if (splitSign el).1 then -magnitude (parts el) else magnitude (parts el)

def Digits (g : List ℕ) : Prop := ∀ c ∈ g, isIn digit c = true

theorem isIn_digit : isIn digit c = true ↔ 48 ≤ c ∧ c < 58 := by
  unfold isIn table
  constructor
  · intro h
    by_contra hnot
    revert h
    split_ifs <;> first | decide | omega
  · rintro ⟨hlow, hhigh⟩
    repeat rw [if_neg (by omega)]
    rw [if_pos (by omega)]
    decide

theorem decimal_lt (h : Digits g) : decimal g < 10 ^ g.length := by
  induction g with
  | nil => exact Nat.one_pos
  | cons c g ih =>
    have hc := isIn_digit.mp (h c (List.mem_cons_self ..))
    have hrest := ih fun e he => h e (List.mem_cons_of_mem _ he)
    rw [decimal, List.length_cons, Nat.pow_succ]
    have hmul : (c - 48) * 10 ^ g.length ≤ 9 * 10 ^ g.length := Nat.mul_le_mul_right _ (by omega)
    omega

/-- Strings of one length are in the order of the numbers. -/
theorem decimal_mono (h : Digits g) (h' : Digits g') (hlen : g.length = g'.length) (hlt : g < g') :
    decimal g < decimal g' := by
  induction g generalizing g' with
  | nil =>
    obtain rfl := List.length_eq_zero_iff.mp hlen.symm
    exact absurd hlt (lt_irrefl _)
  | cons c g ih =>
    obtain ⟨c', g', rfl⟩ := List.exists_cons_of_length_eq_add_one (hlen.symm.trans (List.length_cons ..))
    simp only [List.length_cons, Nat.add_right_cancel_iff] at hlen
    have hc := isIn_digit.mp (h c (List.mem_cons_self ..))
    have hrest : Digits g := fun e he => h e (List.mem_cons_of_mem _ he)
    have hrest' : Digits g' := fun e he => h' e (List.mem_cons_of_mem _ he)
    rw [decimal, decimal, hlen]
    rcases List.cons_lt_cons_iff.mp hlt with hless | ⟨rfl, htail⟩
    · have hbound := decimal_lt hrest
      rw [hlen] at hbound
      have hmul : (c - 48 + 1) * 10 ^ g'.length ≤ (c' - 48) * 10 ^ g'.length :=
        Nat.mul_le_mul_right _ (by omega)
      rw [Nat.add_mul, Nat.one_mul] at hmul
      omega
    · exact Nat.add_lt_add_left (ih hrest hrest' hlen htail) _

theorem magnitude_nonneg (gs : List (List ℕ)) : 0 ≤ magnitude gs := by
  unfold magnitude
  split <;> positivity

theorem groups_digits (s : List ℕ) : ∀ g ∈ groups s, Digits g := by
  induction s with
  | nil => simp [groups, Digits]
  | cons c s ih =>
    obtain ⟨gs, hgs⟩ := groups_eq s
    rw [groups]
    split
    next hc =>
      rw [hgs] at ih ⊢
      intro g hg
      rcases List.mem_cons.mp hg with rfl | hg
      · intro e he
        rcases List.mem_cons.mp he with rfl | he
        · exact hc
        · exact ih _ (List.mem_cons_self ..) e he
      · exact ih g (List.mem_cons_of_mem _ hg)
    next =>
      split
      next =>
        intro g hg
        rcases List.mem_cons.mp hg with rfl | hg
        · simp [Digits]
        · exact ih g hg
      next => simp [Digits]

/-! ## §4 Zeros in Front and Behind -/

/-- The digits before the point, and those of the fraction if there is one. -/
def integer (p : List (List ℕ)) : List ℕ := p.headD []

def fraction (p : List (List ℕ)) : List ℕ := p.tail.headD []

def Zeros (g : List ℕ) : Prop := ∀ c ∈ g, c = 48

/-- A fraction is less than another when it comes first, zeros at the end left out. -/
def FractionLess (f f' : List ℕ) : Prop :=
  f.rdropWhile (fun c => c = 48) < f'.rdropWhile (fun c => c = 48)

/-- The longer integer of `p'` makes it the greater number: its first digits are not all zeros, or the
    others or else the fraction come after those of `p`. -/
def LongerInteger (p p' : List (List ℕ)) : Prop :=
  let more := (integer p').length - (integer p).length
  ¬Zeros ((integer p').take more) ∨ integer p < (integer p').drop more ∨
    integer p = (integer p').drop more ∧ FractionLess (fraction p) (fraction p')

/-- The longer one of two integers, or behind the same integers the longer one of two fractions, is
    that of the greater number, and where both are the same there are no other digits. -/
def PartsFine (p p' : List (List ℕ)) : Prop :=
  ((integer p).length < (integer p').length → LongerInteger p p') ∧
  (integer p = integer p' → (fraction p).length < (fraction p').length →
    FractionLess (fraction p) (fraction p')) ∧
  (integer p = integer p' → fraction p = fraction p' → p = p')

/-- Two numbers of one sign are fine if their digits are, and others unless both are zero. -/
def NumbersFine (el₁ el₂ : List ℕ) : Prop :=
  if (splitSign el₁).1 = (splitSign el₂).1 then
    PartsFine (parts el₁) (parts el₂) ∧ PartsFine (parts el₂) (parts el₁)
  else ¬(∀ el ∈ [el₁, el₂], Zeros (integer (parts el)) ∧ Zeros (fraction (parts el)))

theorem decimal_append (g h : List ℕ) : decimal (g ++ h) = decimal g * 10 ^ h.length + decimal h := by
  induction g with
  | nil => simp [decimal]
  | cons c g ih =>
    rw [List.cons_append, decimal, decimal, ih, List.length_append, Nat.pow_add]
    ring

theorem decimal_eq_zero (h : Digits g) : decimal g = 0 ↔ Zeros g := by
  induction g with
  | nil => exact iff_of_true rfl (by simp [Zeros])
  | cons c g ih =>
    have hc := isIn_digit.mp (h c (List.mem_cons_self ..))
    have hpow : 0 < 10 ^ g.length := by positivity
    rw [decimal, Nat.add_eq_zero_iff, ih fun e he => h e (List.mem_cons_of_mem _ he), Nat.mul_eq_zero]
    unfold Zeros
    rw [List.forall_mem_cons]
    exact and_congr_left fun _ => by omega

/-- What a fraction stands for. -/
def part (f : List ℕ) : ℚ := decimal f / 10 ^ f.length

theorem part_cons (c : ℕ) (f : List ℕ) : part (c :: f) = ((c - 48 : ℕ) + part f) / 10 := by
  have hpow : (10 : ℚ) ^ f.length ≠ 0 := by positivity
  unfold part
  rw [decimal, List.length_cons, pow_succ]
  push_cast
  field_simp

theorem part_bounds (h : Digits f) : 0 ≤ part f ∧ part f < 1 := by
  have hpow : (0 : ℚ) < 10 ^ f.length := by positivity
  unfold part
  refine ⟨by positivity, (div_lt_one hpow).mpr ?_⟩
  exact_mod_cast decimal_lt h

theorem part_eq_zero (h : Digits f) : part f = 0 ↔ Zeros f := by
  have hpow : (10 : ℚ) ^ f.length ≠ 0 := by positivity
  rw [part, div_eq_zero_iff, or_iff_left hpow, Nat.cast_eq_zero, decimal_eq_zero h]

/-- Zeros at the end of a fraction stand for nothing. -/
theorem part_rdropWhile (f : List ℕ) : part (f.rdropWhile fun c => c = 48) = part f := by
  induction f using List.reverseRecOn with
  | nil => rfl
  | append_singleton f c ih =>
    rw [List.rdropWhile_concat]
    split
    next hc =>
      have hpow : (10 : ℚ) ^ f.length ≠ 0 := by positivity
      rw [ih, of_decide_eq_true hc]
      unfold part
      rw [decimal_append, List.length_append, List.length_singleton, pow_succ]
      simp only [decimal, Nat.sub_self, Nat.zero_mul, Nat.add_zero]
      push_cast
      field_simp
      ring
    next => rfl

/-- Fractions are in the order of their digits, if the greater one does not end in a zero. -/
theorem part_lt {f' : List ℕ} (h : Digits f) (h' : Digits f') (hend : f'.getLast? ≠ some 48)
    (hlt : f < f') : part f < part f' := by
  induction f generalizing f' with
  | nil =>
    have hne : ¬Zeros f' := fun hzeros => by
      obtain ⟨f', c, rfl⟩ := List.eq_nil_or_concat f' |>.resolve_left (by rintro rfl; exact lt_irrefl _ hlt)
      rw [List.concat_eq_append] at hzeros hend
      rw [List.getLast?_concat, hzeros c (by simp)] at hend
      exact hend rfl
    have hzero : part [] = 0 := (part_eq_zero h).mpr (by simp [Zeros])
    rw [hzero]
    exact lt_of_le_of_ne (part_bounds h').1 (Ne.symm (mt (part_eq_zero h').mp hne))
  | cons c f ih =>
    obtain ⟨c', f', rfl⟩ : ∃ c' g, f' = c' :: g := by
      cases f' with
      | nil => exact absurd hlt (List.not_lt_nil _)
      | cons c' g => exact ⟨c', g, rfl⟩
    have hc := isIn_digit.mp (h c (List.mem_cons_self ..))
    have hrest : Digits f := fun e he => h e (List.mem_cons_of_mem _ he)
    have hrest' : Digits f' := fun e he => h' e (List.mem_cons_of_mem _ he)
    rw [part_cons, part_cons, div_lt_div_iff_of_pos_right (by norm_num)]
    rcases List.cons_lt_cons_iff.mp hlt with hless | ⟨rfl, htail⟩
    · have hstep : ((c - 48 : ℕ) : ℚ) + 1 ≤ (c' - 48 : ℕ) := by
        have hnat : c - 48 + 1 ≤ c' - 48 := by omega
        exact_mod_cast hnat
      linarith [(part_bounds hrest).2, (part_bounds hrest').1]
    · have hend' : f'.getLast? ≠ some 48 := by
        obtain ⟨e, g, rfl⟩ := List.exists_cons_of_ne_nil (l := f') (by
          rintro rfl
          exact absurd htail (List.not_lt_nil _))
        rwa [List.getLast?_cons_cons] at hend
      exact (add_lt_add_iff_left _).mpr (ih hrest hrest' hend' htail)

theorem rdropWhile_digits (h : Digits f) : Digits (f.rdropWhile fun c => c = 48) :=
  fun c hc => h c ((List.rdropWhile_prefix _ _).mem hc)

theorem rdropWhile_end (f : List ℕ) : (f.rdropWhile fun c => c = 48).getLast? ≠ some 48 := by
  intro hlast
  have hne : f.rdropWhile (fun c => c = 48) ≠ [] := by
    intro hnil
    rw [hnil] at hlast
    cases hlast
  have hnot := List.rdropWhile_last_not _ _ hne
  rw [List.getLast?_eq_getLast_of_ne_nil hne] at hlast
  exact hnot (decide_eq_true (Option.some.inj hlast))

theorem part_lt_iff {f' : List ℕ} (h : Digits f) (h' : Digits f') :
    part f < part f' ↔ FractionLess f f' := by
  have hless : ∀ {g g' : List ℕ}, Digits g → Digits g' → FractionLess g g' → part g < part g' := by
    intro g g' hg hg' hlt
    rw [← part_rdropWhile g, ← part_rdropWhile g']
    exact part_lt (rdropWhile_digits hg) (rdropWhile_digits hg') (rdropWhile_end g') hlt
  refine ⟨fun hlt => ?_, hless h h'⟩
  rcases lt_trichotomy (f.rdropWhile fun c => c = 48) (f'.rdropWhile fun c => c = 48) with hl | heq | hg
  · exact hl
  · rw [← part_rdropWhile f, heq, part_rdropWhile f'] at hlt
    exact absurd hlt (lt_irrefl _)
  · exact absurd (hless h' h hg) hlt.not_gt

theorem magnitude_eq (p : List (List ℕ)) : magnitude p = decimal (integer p) + part (fraction p) := by
  rcases p with _ | ⟨g, _ | ⟨f, rest⟩⟩
  · simp [magnitude, integer, fraction, part, decimal]
  · simp [magnitude, integer, fraction, part, decimal]
  · rfl

/-! ## §5 Where the Numbers are Fine -/

theorem reflects_self (x : ℚ) : Reflects r x x ↔ r = 0 := by
  constructor
  · intro h
    exact h.eq_zero_iff.mpr rfl
  · rintro rfl
    exact .refl x

section

variable {r : ℤ} {p p' : List (List ℕ)}

/-- The greater integer makes the greater number. -/
theorem magnitude_lt (hd : Digits (fraction p)) (hd' : Digits (fraction p'))
    (hlt : decimal (integer p) < decimal (integer p')) : magnitude p < magnitude p' := by
  have hstep : (decimal (integer p) : ℚ) + 1 ≤ decimal (integer p') := by exact_mod_cast hlt
  rw [magnitude_eq, magnitude_eq]
  linarith [(part_bounds hd).2, (part_bounds hd').1]

theorem magnitude_lt_iff (heq : decimal (integer p) = decimal (integer p')) (hd : Digits (fraction p))
    (hd' : Digits (fraction p')) :
    magnitude p < magnitude p' ↔ FractionLess (fraction p) (fraction p') := by
  rw [magnitude_eq, magnitude_eq, heq, add_lt_add_iff_left, part_lt_iff hd hd']

/-- The number with the longer integer is the greater one. -/
theorem longer_iff (hg : Digits (integer p)) (hg' : Digits (integer p')) (hd : Digits (fraction p))
    (hd' : Digits (fraction p')) (hlen : (integer p).length < (integer p').length) :
    magnitude p < magnitude p' ↔ LongerInteger p p' := by
  set more := (integer p').length - (integer p).length with hmore
  have hsplit := List.take_append_drop more (integer p')
  have hfirst : Digits ((integer p').take more) := fun e he => hg' e (List.mem_of_mem_take he)
  have hlast : Digits ((integer p').drop more) := fun e he => hg' e (List.mem_of_mem_drop he)
  have hlength : (integer p).length = ((integer p').drop more).length := by
    rw [List.length_drop]
    omega
  have hdecimal : decimal (integer p') = decimal ((integer p').take more) * 10 ^ (integer p).length +
      decimal ((integer p').drop more) := by
    rw [hlength, ← decimal_append, hsplit]
  unfold LongerInteger
  by_cases hzeros : Zeros ((integer p').take more)
  · -- the zeros in front stand for nothing
    rw [(decimal_eq_zero hfirst).mpr hzeros, Nat.zero_mul, Nat.zero_add] at hdecimal
    rcases lt_trichotomy (integer p) ((integer p').drop more) with hless | heq | hgreater
    · refine iff_of_true (magnitude_lt hd hd' ?_) (.inr (.inl hless))
      rw [hdecimal]
      exact decimal_mono hg hlast hlength hless
    · rw [magnitude_lt_iff (by rw [hdecimal, ← heq]) hd hd']
      constructor
      · exact fun hlt => .inr (.inr ⟨heq, hlt⟩)
      · rintro (hnot | hless | ⟨-, hlt⟩)
        · exact absurd hzeros hnot
        · exact absurd heq (ne_of_lt hless)
        · exact hlt
    · refine iff_of_false (magnitude_lt hd' hd ?_).not_gt ?_
      · rw [hdecimal]
        exact decimal_mono hlast hg hlength.symm hgreater
      · rintro (hnot | hless | ⟨heq, -⟩)
        · exact hnot hzeros
        · exact hless.not_gt hgreater
        · exact absurd heq (ne_of_gt hgreater)
  · refine iff_of_true (magnitude_lt hd hd' ?_) (.inl hzeros)
    have hpos : 0 < decimal ((integer p').take more) :=
      Nat.pos_of_ne_zero (mt (decimal_eq_zero hfirst).mp hzeros)
    have hbound := decimal_lt hg
    have hmul := Nat.mul_le_mul_right (10 ^ (integer p).length) hpos
    omega

/-- Behind the same integers the fractions are compared. -/
theorem reflects_fraction {gs gs' : List (List ℕ)} (h : Reflects r (gs.map shortlex) (gs'.map shortlex))
    (hne : gs.headD [] ≠ gs'.headD []) :
    Reflects r (shortlex (gs.headD [])) (shortlex (gs'.headD [])) := by
  have hempty : ∀ {f : List ℕ}, [] ≠ f → shortlex [] < shortlex f := fun {f} hf =>
    shortlex_lt.mpr (.inl (List.length_pos_of_ne_nil (Ne.symm hf)))
  rcases gs with _ | ⟨f, rest⟩ <;> rcases gs' with _ | ⟨f', rest'⟩
  · exact absurd rfl hne
  · exact (h.iff_of_lt (List.nil_lt_cons _ _)).mpr (hempty hne)
  · exact (h.iff_of_gt (List.nil_lt_cons _ _)).mpr (hempty (Ne.symm hne))
  · exact (Reflects.head_iff (shortlex_inj.not.mpr hne) _ _).mp h

/-! The pairs of numbers for which one of the three conditions counts. -/

theorem fine_longer (hlen : (integer p).length < (integer p').length) :
    PartsFine p p' ∧ PartsFine p' p ↔ LongerInteger p p' := by
  have hne : integer p ≠ integer p' := fun heq => by
    rw [heq] at hlen
    exact lt_irrefl _ hlen
  constructor
  · exact fun h => h.1.1 hlen
  · intro h
    constructor
    · exact ⟨fun _ => h, fun heq => absurd heq hne, fun heq => absurd heq hne⟩
    · exact ⟨fun hlt => absurd hlt hlen.not_gt, fun heq => absurd heq.symm hne,
        fun heq => absurd heq.symm hne⟩

theorem fine_fraction (heq : integer p = integer p') (hlen : (fraction p).length < (fraction p').length) :
    PartsFine p p' ∧ PartsFine p' p ↔ FractionLess (fraction p) (fraction p') := by
  have hne : fraction p ≠ fraction p' := fun hsame => by
    rw [hsame] at hlen
    exact lt_irrefl _ hlen
  constructor
  · exact fun h => h.1.2.1 heq hlen
  · intro h
    constructor
    · exact ⟨fun hlt => absurd (congrArg List.length heq) (ne_of_lt hlt), fun _ _ => h,
        fun _ hsame => absurd hsame hne⟩
    · exact ⟨fun hlt => absurd (congrArg List.length heq.symm) (ne_of_lt hlt),
        fun _ hlt => absurd hlt hlen.not_gt, fun _ hsame => absurd hsame.symm hne⟩

theorem fine_same (heq : integer p = integer p') (hsame : fraction p = fraction p') :
    PartsFine p p' ∧ PartsFine p' p ↔ p = p' := by
  constructor
  · exact fun h => h.1.2.2 heq hsame
  · rintro rfl
    exact ⟨⟨fun hlt => absurd hlt (lt_irrefl _), fun _ hlt => absurd hlt (lt_irrefl _), fun _ _ => rfl⟩,
      ⟨fun hlt => absurd hlt (lt_irrefl _), fun _ hlt => absurd hlt (lt_irrefl _), fun _ _ => rfl⟩⟩

/-- Integers or fractions of one length that differ are always fine. -/
theorem fine_differ (hlen : (integer p).length = (integer p').length)
    (hdiff : integer p ≠ integer p' ∨
      (fraction p).length = (fraction p').length ∧ fraction p ≠ fraction p') : PartsFine p p' := by
  refine ⟨fun hlt => absurd hlen (ne_of_lt hlt), fun heq hlt => ?_, fun heq hsame => ?_⟩
  · rcases hdiff with hne | ⟨hflen, -⟩
    · exact absurd heq hne
    · exact absurd hflen (ne_of_lt hlt)
  · rcases hdiff with hne | ⟨-, hne⟩
    · exact absurd heq hne
    · exact absurd hsame hne

/-- What `digits` finds out about the parts of two numbers. -/
structure PartsOrder (r : ℤ) (p p' : List (List ℕ)) : Prop where
  left : ∀ f ∈ p, Digits f
  right : ∀ f ∈ p', Digits f
  integers : integer p ≠ integer p' → Reflects r (shortlex (integer p)) (shortlex (integer p'))
  fractions : integer p = integer p' → fraction p ≠ fraction p' →
    Reflects r (shortlex (fraction p)) (shortlex (fraction p'))
  same : integer p = integer p' → fraction p = fraction p' → (r = 0 ↔ p = p')

theorem PartsOrder.swap (h : PartsOrder r p p') : PartsOrder (-r) p' p where
  left := h.right
  right := h.left
  integers hne := (h.integers (Ne.symm hne)).swap
  fractions heq hne := (h.fractions heq.symm (Ne.symm hne)).swap
  same heq hsame := by rw [neg_eq_zero, h.same heq.symm hsame.symm, eq_comm]

theorem PartsOrder.of_reflects (hp : p ≠ []) (hp' : p' ≠ []) (hd : ∀ f ∈ p, Digits f)
    (hd' : ∀ f ∈ p', Digits f) (h : Reflects r (p.map shortlex) (p'.map shortlex)) :
    PartsOrder r p p' := by
  obtain ⟨g, gs, rfl⟩ := List.exists_cons_of_ne_nil hp
  obtain ⟨g', gs', rfl⟩ := List.exists_cons_of_ne_nil hp'
  rw [List.map_cons, List.map_cons] at h
  have hrest : g = g' → Reflects r (gs.map shortlex) (gs'.map shortlex) := by
    rintro rfl
    exact (Reflects.cons_iff _).mp h
  refine ⟨hd, hd', fun hne => ?_, fun heq hne => reflects_fraction (hrest heq) hne, fun heq _ => ?_⟩
  · exact (Reflects.head_iff (shortlex_inj.not.mpr hne) _ _).mp h
  · have hinj := List.map_injective_iff.mpr fun _ _ => shortlex_inj.mp
    rw [(hrest heq).eq_zero_iff, hinj.eq_iff, show g = g' from heq, List.cons_inj_right]

theorem digits_headD {gs : List (List ℕ)} (h : ∀ f ∈ gs, Digits f) : Digits (gs.headD []) := by
  cases gs with
  | nil => simp [Digits]
  | cons f gs => exact h f (List.mem_cons_self ..)

theorem PartsOrder.digits (h : PartsOrder r p p') : Digits (integer p) ∧ Digits (fraction p) :=
  ⟨digits_headD h.left, digits_headD fun f hf => h.left f (List.mem_of_mem_tail hf)⟩

/-- The first number has the shorter integer, or the same integer and the shorter fraction. -/
theorem PartsOrder.shorter (h : PartsOrder r p p')
    (hlen : (integer p).length < (integer p').length ∨
      integer p = integer p' ∧ (fraction p).length < (fraction p').length) :
    Reflects r (magnitude p) (magnitude p') ↔ PartsFine p p' ∧ PartsFine p' p := by
  obtain ⟨hg, hf⟩ := h.digits
  obtain ⟨hg', hf'⟩ := h.swap.digits
  rcases hlen with hlen | ⟨heq, hlen⟩
  · have hne : integer p ≠ integer p' := fun heq => by
      rw [heq] at hlen
      exact lt_irrefl _ hlen
    rw [fine_longer hlen, ← longer_iff hg hg' hf hf' hlen]
    exact (h.integers hne).iff_of_lt (shortlex_lt.mpr (.inl hlen))
  · have hne : fraction p ≠ fraction p' := fun hsame => by
      rw [hsame] at hlen
      exact lt_irrefl _ hlen
    rw [fine_fraction heq hlen, ← magnitude_lt_iff (by rw [heq]) hf hf']
    exact (h.fractions heq hne).iff_of_lt (shortlex_lt.mpr (.inl hlen))

/-- Strings of one length are compared as numbers. -/
theorem PartsOrder.lower (h : PartsOrder r p p') (hlen : (integer p).length = (integer p').length)
    (hless : integer p < integer p' ∨ integer p = integer p' ∧
      (fraction p).length = (fraction p').length ∧ fraction p < fraction p') :
    Reflects r (magnitude p) (magnitude p') := by
  obtain ⟨hg, hf⟩ := h.digits
  obtain ⟨hg', hf'⟩ := h.swap.digits
  rcases hless with hless | ⟨heq, hflen, hless⟩
  · refine ((h.integers (ne_of_lt hless)).iff_of_lt (shortlex_lt.mpr (.inr ⟨hlen, hless⟩))).mpr ?_
    exact magnitude_lt hf hf' (decimal_mono hg hg' hlen hless)
  · refine ((h.fractions heq (ne_of_lt hless)).iff_of_lt
      (shortlex_lt.mpr (.inr ⟨hflen, hless⟩))).mpr ?_
    have hdecimal : (decimal (fraction p) : ℚ) < decimal (fraction p') := by
      exact_mod_cast decimal_mono hf hf' hflen hless
    rw [magnitude_eq, magnitude_eq, heq, add_lt_add_iff_left, part, part, hflen]
    exact (div_lt_div_iff_of_pos_right (by positivity)).mpr hdecimal

theorem PartsOrder.differ (h : PartsOrder r p p') (hlen : (integer p).length = (integer p').length)
    (hdiff : integer p ≠ integer p' ∨ integer p = integer p' ∧
      (fraction p).length = (fraction p').length ∧ fraction p ≠ fraction p') :
    Reflects r (magnitude p) (magnitude p') := by
  rcases hdiff with hne | ⟨heq, hflen, hne⟩
  · rcases lt_or_gt_of_ne hne with hless | hgreater
    · exact h.lower hlen (.inl hless)
    · exact Reflects.iff_swap.mp (h.swap.lower hlen.symm (.inl hgreater))
  · rcases lt_or_gt_of_ne hne with hless | hgreater
    · exact h.lower hlen (.inr ⟨heq, hflen, hless⟩)
    · exact Reflects.iff_swap.mp (h.swap.lower hlen.symm (.inr ⟨heq.symm, hflen.symm, hgreater⟩))

/-- The order of the parts is that of the numbers just if the numbers are fine. -/
theorem PartsOrder.reflects_iff (h : PartsOrder r p p') :
    Reflects r (magnitude p) (magnitude p') ↔ PartsFine p p' ∧ PartsFine p' p := by
  have hback : (Reflects (-r) (magnitude p') (magnitude p) ↔ PartsFine p' p ∧ PartsFine p p') →
      (Reflects r (magnitude p) (magnitude p') ↔ PartsFine p p' ∧ PartsFine p' p) := by
    intro hswap
    rw [← Reflects.iff_swap, hswap, and_comm]
  rcases lt_trichotomy (integer p).length (integer p').length with hlen | hlen | hlen
  · exact h.shorter (.inl hlen)
  · rcases eq_or_ne (integer p) (integer p') with heq | hne
    · -- the fractions decide
      rcases lt_trichotomy (fraction p).length (fraction p').length with hflen | hflen | hflen
      · exact h.shorter (.inr ⟨heq, hflen⟩)
      · rcases eq_or_ne (fraction p) (fraction p') with hsame | hne
        · rw [fine_same heq hsame, magnitude_eq, magnitude_eq, heq, hsame, reflects_self]
          exact h.same heq hsame
        · refine iff_of_true (h.differ hlen (.inr ⟨heq, hflen, hne⟩)) ⟨?_, ?_⟩
          · exact fine_differ hlen (.inr ⟨hflen, hne⟩)
          · exact fine_differ hlen.symm (.inr ⟨hflen.symm, hne.symm⟩)
      · exact hback (h.swap.shorter (.inr ⟨heq.symm, hflen⟩))
    · refine iff_of_true (h.differ hlen (.inl hne)) ⟨?_, ?_⟩
      · exact fine_differ hlen (.inl hne)
      · exact fine_differ hlen.symm (.inl hne.symm)
  · exact hback (h.swap.shorter (.inl hlen))

end

theorem parts_ne_nil (el : List ℕ) : parts el ≠ [] := by
  obtain ⟨gs, hgs⟩ := groups_eq (splitSign el).2
  rw [parts, hgs]
  exact List.cons_ne_nil _ _

/-- A number without digits other than zeros is zero. -/
theorem magnitude_eq_zero (el : List ℕ) :
    magnitude (parts el) = 0 ↔ Zeros (integer (parts el)) ∧ Zeros (fraction (parts el)) := by
  have hd : ∀ f ∈ parts el, Digits f := groups_digits _
  have hg : Digits (integer (parts el)) := digits_headD hd
  have hf : Digits (fraction (parts el)) := digits_headD fun f hf => hd f (List.mem_of_mem_tail hf)
  rw [magnitude_eq, add_eq_zero_iff_of_nonneg (Nat.cast_nonneg _) (part_bounds hf).1, Nat.cast_eq_zero,
    decimal_eq_zero hg, part_eq_zero hf]

theorem neg_lt_iff {x y : ℚ} (hx : 0 ≤ x) (hy : 0 ≤ y) : -x < y ↔ x ≠ 0 ∨ y ≠ 0 := by
  rw [neg_lt_iff_pos_add', (add_nonneg hx hy).lt_iff_ne', Ne, add_eq_zero_iff_of_nonneg hx hy,
    not_and_or]

/-- `digits` orders two numbers just if they are fine. -/
theorem digits_fine {el₁ el₂ : List ℕ} (h1 : el₁.getLast? = some newline)
    (h2 : el₂.getLast? = some newline) (hr : digits el₁ el₂ = some r) :
    Reflects r (value el₁) (value el₂) ↔ NumbersFine el₁ el₂ := by
  obtain ⟨ret, hret, hreflects⟩ := unsignedDigits_reflects _ _ (splitSign_last h1) (splitSign_last h2)
  have hfine : Reflects ret (magnitude (parts el₁)) (magnitude (parts el₂)) ↔
      PartsFine (parts el₁) (parts el₂) ∧ PartsFine (parts el₂) (parts el₁) :=
    (PartsOrder.of_reflects (parts_ne_nil el₁) (parts_ne_nil el₂) (groups_digits _) (groups_digits _)
      hreflects).reflects_iff
  have hpos1 := magnitude_nonneg (parts el₁)
  have hpos2 := magnitude_nonneg (parts el₂)
  have hzeros : ¬(∀ el ∈ [el₁, el₂], Zeros (integer (parts el)) ∧ Zeros (fraction (parts el))) ↔
      magnitude (parts el₁) ≠ 0 ∨ magnitude (parts el₂) ≠ 0 := by
    rw [List.forall_mem_cons, List.forall_mem_singleton, ← magnitude_eq_zero, ← magnitude_eq_zero,
      not_and_or]
  unfold digits at hr
  unfold NumbersFine value
  simp only [hret] at hr
  rw [hzeros]
  rcases hn1 : (splitSign el₁).1 with _ | _ <;> rcases hn2 : (splitSign el₂).1 with _ | _ <;>
    simp only [hn1, hn2, if_true, if_false, Bool.false_eq_true, reduceCtorEq] at hr ⊢
  · obtain rfl := Option.some.inj hr
    exact hfine
  · -- the first number is the higher one
    obtain rfl := Option.some.inj hr
    have hsign : Reflects higher (magnitude (parts el₁)) (-magnitude (parts el₂)) ↔
        -magnitude (parts el₂) < magnitude (parts el₁) :=
      ⟨fun h => h.2.mp (by decide), fun h => .of_gt (by decide) h⟩
    rw [hsign, neg_lt_iff hpos2 hpos1, or_comm]
  · obtain rfl := Option.some.inj hr
    have hsign : Reflects lower (-magnitude (parts el₁)) (magnitude (parts el₂)) ↔
        -magnitude (parts el₁) < magnitude (parts el₂) :=
      ⟨fun h => h.1.mp (by decide), fun h => .of_lt (by decide) h⟩
    rw [hsign, neg_lt_iff hpos1 hpos2]
  · -- both are negative
    obtain rfl := Option.some.inj hr
    rw [← hfine]
    unfold Reflects
    rw [neg_lt_neg_iff, neg_lt_neg_iff, neg_lt_zero, neg_pos, and_comm]

/-! ## §6 The Order of the Lines -/

section

variable (opts : List Opt)

theorem globalField_spec : ((globalField opts).numeric = true ↔ Opt.n ∈ opts) ∧
    ((globalField opts).reverse = true ↔ Opt.r ∈ opts) ∧
    ((globalField opts).blanks = true ↔ Opt.b ∈ opts ∨ Opt.n ∈ opts) ∧
    ((globalField opts).dictionary = true ↔ Opt.d ∈ opts) ∧
    ((globalField opts).ascii = true ↔ Opt.i ∈ opts) := by
  unfold globalField
  induction opts using List.reverseRecOn with
  | nil => simp
  | append_singleton opts o ih =>
    obtain ⟨hnumeric, hreverse, hblanks, hdict, hascii⟩ := ih
    rw [List.foldl_append, List.foldl_cons, List.foldl_nil]
    generalize opts.foldl _ _ = field at hnumeric hreverse hblanks hdict hascii ⊢
    simp only [List.mem_append, List.mem_singleton]
    cases o <;> simp [getOpts, hnumeric, hreverse, hblanks, hdict, hascii]

/-- The comparison of two lines. -/
def comparison (a b : Text) : Option ℤ := compare (globalField opts) a.line b.line

/-- What is compared of a line, without the newline. -/
def body (t : Text) : List ℕ := if (globalField opts).blanks then skipBlanks t.chars else t.chars

/-- `compare` does for two lines what it should. -/
def Sound (a b : Text) : Prop :=
  if Opt.n ∈ opts then NumbersFine (skipBlanks a.line) (skipBlanks b.line)
  else ¬Faulty (globalField opts) (body opts a) (body opts b)

/-- The lines of `S` are put in order, and with `-n` in that of the numbers that they begin with. -/
def Ordered (S : Set Text) : Prop :=
  OrdersOn (comparison opts) S ∧
    (Opt.n ∈ opts → ∀ a ∈ S, ∀ b ∈ S, ∀ r, comparison opts a b = some r →
      if Opt.r ∈ opts then Reflects r (value (skipBlanks b.line)) (value (skipBlanks a.line))
      else Reflects r (value (skipBlanks a.line)) (value (skipBlanks b.line)))

variable {opts}

theorem skipBlanks_line (t : List ℕ) : skipBlanks (t ++ [newline]) = skipBlanks t ++ [newline] := by
  unfold skipBlanks
  induction t with
  | nil => rfl
  | cons c t ih =>
    rw [List.cons_append, List.dropWhile_cons, List.dropWhile_cons]
    split
    next => exact ih
    next => rfl

theorem body_line (t : Text) :
    (if (globalField opts).blanks then skipBlanks t.line else t.line) = body opts t ++ [newline] := by
  unfold body Text.line
  split
  next => exact skipBlanks_line t.chars
  next => rfl

theorem mem_body {t : Text} {c : ℕ} (h : c ∈ body opts t) : c ∈ t.chars := by
  unfold body at h
  split at h
  next => exact (List.dropWhile_suffix _).mem h
  next => exact h

theorem newline_not_mem (t : Text) : newline ∉ body opts t := fun h => (t.ok _ (mem_body h)).2 rfl

/-- `cmp` with or without `-n`. -/
theorem comparison_eq (a b : Text) : comparison opts a b =
    (if Opt.n ∈ opts then digits (body opts a ++ [newline]) (body opts b ++ [newline])
      else cmpLoop (globalField opts) (body opts a ++ [newline]) (body opts b ++ [newline])).map
        fun ret => if Opt.r ∈ opts then -ret else ret := by
  obtain ⟨hnumeric, hreverse, -, -, -⟩ := globalField_spec opts
  unfold comparison compare cmp
  simp only [body_line, hnumeric, hreverse]

/-- An order of keys, which `-r` turns round. -/
theorem ordersOn_reversed {α : Type} [LinearOrder α] {S : Set Text} (key : Text → α)
    (h : ∀ a ∈ S, ∀ b ∈ S, ∃ r, (if Opt.n ∈ opts then digits (body opts a ++ [newline])
        (body opts b ++ [newline]) else cmpLoop (globalField opts) (body opts a ++ [newline])
        (body opts b ++ [newline])) = some r ∧ Reflects r (key a) (key b)) :
    OrdersOn (comparison opts) S := by
  by_cases hr : Opt.r ∈ opts
  · refine ordersOn_of_key (OrderDual.toDual ∘ key) fun a ha b hb => ?_
    obtain ⟨r, heq, hreflects⟩ := h a ha b hb
    refine ⟨-r, ?_, hreflects.dual⟩
    rw [comparison_eq, heq, Option.map_some, if_pos hr]
  · refine ordersOn_of_key key fun a ha b hb => ?_
    obtain ⟨r, heq, hreflects⟩ := h a ha b hb
    refine ⟨r, ?_, hreflects⟩
    rw [comparison_eq, heq, Option.map_some, if_neg hr]

theorem body_last (t : Text) : (body opts t ++ [newline]).getLast? = some newline := List.getLast?_concat

theorem body_numeric (hn : Opt.n ∈ opts) (t : Text) : body opts t ++ [newline] = skipBlanks t.line := by
  rw [← body_line, if_pos ((globalField_spec opts).2.2.1.mpr (.inr hn))]

/-- With `-n` the lines are put in order, whichever they are. -/
theorem numeric_ordersOn (hn : Opt.n ∈ opts) (S : Set Text) : OrdersOn (comparison opts) S := by
  refine ordersOn_reversed (fun t => signedKey (body opts t ++ [newline])) fun a _ b _ => ?_
  rw [if_pos hn]
  exact digits_reflects (body_last a) (body_last b)

theorem numeric_fine (hn : Opt.n ∈ opts) {a b : Text} {r : ℤ} (hr : comparison opts a b = some r) :
    (if Opt.r ∈ opts then Reflects r (value (skipBlanks b.line)) (value (skipBlanks a.line))
      else Reflects r (value (skipBlanks a.line)) (value (skipBlanks b.line))) ↔
        NumbersFine (skipBlanks a.line) (skipBlanks b.line) := by
  rw [comparison_eq, if_pos hn, Option.map_eq_some_iff] at hr
  obtain ⟨ret, hret, rfl⟩ := hr
  rw [← body_numeric hn, ← body_numeric hn, ← digits_fine (body_last a) (body_last b) hret]
  split
  next => exact Reflects.iff_swap
  next => exact Iff.rfl

/-- Without `-n` lines of which nothing is lost are put in order. -/
theorem text_ordersOn (hn : Opt.n ∉ opts) {S : Set Text} (hS : ∀ a ∈ S, ∀ b ∈ S, Sound opts a b) :
    OrdersOn (comparison opts) S := by
  refine ordersOn_reversed (fun t => key (globalField opts) (body opts t)) fun a ha b hb => ?_
  have hsound := hS a ha b hb
  rw [Sound, if_neg hn] at hsound
  rw [if_neg hn]
  exact cmpLoop_reflects _ _ _ rfl (newline_not_mem a) (newline_not_mem b) hsound

/-- Lines of which something is lost cannot be compared. -/
theorem text_past (hn : Opt.n ∉ opts) {a b : Text} (h : ¬Sound opts a b)
    (htab : Opt.d ∈ opts → Opt.i ∈ opts → tab ∉ a.chars ∧ tab ∉ b.chars) :
    comparison opts a b = none := by
  obtain ⟨-, -, -, hdict, hascii⟩ := globalField_spec opts
  rw [Sound, if_neg hn, not_not] at h
  rw [comparison_eq, if_neg hn, cmpLoop_past h (newline_not_mem a) (newline_not_mem b)]
  · rfl
  · intro ha hd
    obtain ⟨htab1, htab2⟩ := htab (hdict.mp hd) (hascii.mp ha)
    exact ⟨fun hmem => htab1 (mem_body hmem), fun hmem => htab2 (mem_body hmem)⟩

/-- `compare` puts the lines of `S` in order if any two of them are sound, and, but for tabs in lines
    that are compared with both `-d` and `-i`, only then. -/
theorem compare_orders_iff (opts : List Opt) (S : Set Text) :
    ((∀ a ∈ S, ∀ b ∈ S, Sound opts a b) → Ordered opts S) ∧
    ((Opt.n ∉ opts → Opt.d ∈ opts → Opt.i ∈ opts → ∀ t ∈ S, tab ∉ t.chars) →
      Ordered opts S → ∀ a ∈ S, ∀ b ∈ S, Sound opts a b) := by
  by_cases hn : Opt.n ∈ opts
  · have hsound : ∀ a b, Sound opts a b ↔ NumbersFine (skipBlanks a.line) (skipBlanks b.line) :=
      fun a b => by rw [Sound, if_pos hn]
    constructor
    · intro h
      refine ⟨numeric_ordersOn hn S, fun _ a ha b hb r hr => (numeric_fine hn hr).mpr ?_⟩
      exact (hsound a b).mp (h a ha b hb)
    · intro _ h a ha b hb
      obtain ⟨r, hr⟩ := h.1.total a ha b hb
      exact (hsound a b).mpr ((numeric_fine hn hr).mp (h.2 hn a ha b hb r hr))
  · constructor
    · exact fun h => ⟨text_ordersOn hn h, fun hn' => absurd hn' hn⟩
    · intro htab h a ha b hb
      by_contra hnot
      obtain ⟨r, hr⟩ := h.1.total a ha b hb
      rw [text_past hn hnot fun hd hi => ⟨htab hn hd hi a ha, htab hn hd hi b hb⟩] at hr
      exact absurd hr (by simp)

end

/-- With `-d` the line `a!` cannot be compared with `ab`, and with `-n` the line `.5` comes before
    `.25`. -/
theorem compare_disorders : ¬Ordered [.d] Set.univ ∧ ¬Ordered [.n] Set.univ := by
  constructor
  · intro h
    obtain ⟨r, hr⟩ := h.1.total ⟨[97, 33], by decide⟩ trivial ⟨[97, 98], by decide⟩ trivial
    have hfaulty : Faulty (globalField [.d]) [97, 33] [97, 98] :=
      .equal (.lostLeft (by decide) (by decide) (by decide) (by decide))
    rw [comparison_eq, if_neg (by decide)] at hr
    change (cmpLoop (globalField [.d]) ([97, 33] ++ [newline]) ([97, 98] ++ [newline])).map _ = _ at hr
    rw [cmpLoop_past hfaulty (by decide) (by decide) (by decide)] at hr
    exact absurd hr (by simp)
  · intro h
    obtain ⟨r, hr⟩ := h.1.total ⟨[46, 53], by decide⟩ trivial ⟨[46, 50, 53], by decide⟩ trivial
    have hfine := (numeric_fine (by decide) hr).mp (h.2 (by decide) _ trivial _ trivial r hr)
    have hparts : parts (skipBlanks [46, 53, 10]) = [[], [53]] ∧
        parts (skipBlanks [46, 50, 53, 10]) = [[], [50, 53]] := by decide
    change if false = false then PartsFine (parts (skipBlanks [46, 53, 10]))
      (parts (skipBlanks [46, 50, 53, 10])) ∧ _ else _ at hfine
    rw [if_pos rfl, hparts.1, hparts.2] at hfine
    -- 5 does not come before 25
    have hless : FractionLess [53] [50, 53] := hfine.1.2.1 rfl (by decide)
    exact absurd hless (by unfold FractionLess; decide)

end LisaMinix.Commands.Sort
