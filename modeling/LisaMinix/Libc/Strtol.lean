import LisaMinix.Libc.Ctype

/-!
# `strtol`

The conversion of `strtol.c`, and the grammar of ANSI C that it is to accept.

- `strtol`: the function.
- `Accepts`: the grammar, and `Correct`: what the function has to return.
- `strtol_correct_iff`: the inputs that are converted correctly.
-/

namespace LisaMinix.Libc

variable {b c base n : ℕ} {t s rest rest' ds : CString}

/-! ## §1 The Function -/

def longMax : ℤ := 2147483647
def longMin : ℤ := -2147483648

/-- What `strtol` returns; `erange` says that it has set `errno` to `ERANGE`. -/
structure Converted where
  value : ℤ
  endptr : CString
  erange : Bool
  deriving DecidableEq

/-- The variables of the loop. -/
structure Conversion where
  result : ℤ
  overflow : Bool
  sawADigit : Bool
  deriving DecidableEq

/-- `c -= '0'`, or the letter that stands for 10 is subtracted. -/
def charDigit (c : ℕ) : ℤ := if isdigit c then c - 48 else if isupper c then c - (65 - 10) else c - (97 - 10)

/-- A digit comes after the others. -/
def addDigit (base limit : ℤ) (d : ℤ) (st : Conversion) : Conversion :=
  let overflow := st.overflow || decide (limit < st.result)
  if overflow then { result := st.result, overflow := true, sawADigit := true }
  else
    let result := st.result * base
    if longMax - result < d then { result, overflow := true, sawADigit := true }
    else { result := result + d, overflow := false, sawADigit := true }

/-- The loop of `strtol`. -/
def convert (base limit : ℤ) : CString → Conversion → Conversion × CString
  | [], st => (st, [])
  | c :: s, st =>
    let d := charDigit c
    if d < 0 ∨ base ≤ d then (st, c :: s) else convert base limit s (addDigit base limit d st)

/-- The base that is used, and where its digits begin.  `(c = *nptr == 'x') || c == 'X'` is true for `x`
    only. -/
def skipPrefix (base : ℕ) (s : CString) : ℕ × CString :=
  if base = 0 then
    match s with
    | 48 :: c :: s => if c = 120 ∨ c = 88 then (16, s) else (8, c :: s)
    | [48] => (8, [])
    | s => (10, s)
  else if base = 16 then
    match s with
    | 48 :: 120 :: s => (16, s)
    | 48 :: s => (16, s)
    | s => (16, s)
  else (base, s)

/-- The sign, and what comes after it. -/
def skipSign : CString → Bool × CString
  | 43 :: s => (false, s)
  | 45 :: s => (true, s)
  | s => (false, s)

/-- `strtol(nptr, endptr, base)` -/
def strtol (nptr : CString) (base : ℕ) : Converted :=
  let (negative, s) := skipSign (nptr.dropWhile isspace)
  let (base, s) := skipPrefix base s
  let limit := longMax / base
  let (st, s) := convert base limit s { result := 0, overflow := false, sawADigit := false }
  if st.sawADigit = false then { value := 0, endptr := nptr, erange := false }
  else if st.overflow then { value := if negative then longMin else longMax, endptr := s, erange := true }
  else { value := if negative then 0 - st.result else st.result, endptr := s, erange := false }

/-! ## §2 The Grammar -/

/-- The value of a digit or a letter. -/
def digitVal (c : ℕ) : Option ℕ :=
  if 48 ≤ c ∧ c ≤ 57 then some (c - 48)
  else if 65 ≤ c ∧ c ≤ 90 then some (c - 55)
  else if 97 ≤ c ∧ c ≤ 122 then some (c - 87)
  else none

/-- A digit of a base. -/
def isDigitOf (base c : ℕ) : Bool := (digitVal c).any (· < base)

/-- The number that digits stand for. -/
def digitsVal (base : ℕ) (ds : CString) : ℕ := ds.foldl (fun n c => n * base + (digitVal c).getD 0) 0

/-- Text without its sign, in the form for a base, and its number. -/
inductive Numeral : ℕ → CString → ℕ → Prop
  /-- Digits of the base. -/
  | plain {base : ℕ} {ds : CString} : base ≠ 0 → ds ≠ [] → (∀ c ∈ ds, isDigitOf base c) →
      Numeral base ds (digitsVal base ds)
  /-- A prefix and hexadecimal digits. -/
  | hex {base x : ℕ} {ds : CString} : base = 0 ∨ base = 16 → x = 120 ∨ x = 88 → ds ≠ [] →
      (∀ c ∈ ds, isDigitOf 16 c) → Numeral base (48 :: x :: ds) (digitsVal 16 ds)
  /-- An octal constant. -/
  | octal {ds : CString} : (∀ c ∈ ds, isDigitOf 8 c) → Numeral 0 (48 :: ds) (digitsVal 8 ds)
  /-- A decimal constant. -/
  | decimal {c : ℕ} {ds : CString} : c ≠ 48 → isDigitOf 10 c → (∀ c ∈ ds, isDigitOf 10 c) →
      Numeral 0 (c :: ds) (digitsVal 10 (c :: ds))

/-- The text is of the form that is converted, and it denotes the number. -/
inductive Accepts (base : ℕ) : CString → ℤ → Prop
  | unsigned {ws ds : CString} {n : ℕ} : (∀ c ∈ ws, isspace c) → Numeral base ds n →
      Accepts base (ws ++ ds) n
  | plus {ws ds : CString} {n : ℕ} : (∀ c ∈ ws, isspace c) → Numeral base ds n →
      Accepts base (ws ++ 43 :: ds) n
  | minus {ws ds : CString} {n : ℕ} : (∀ c ∈ ws, isspace c) → Numeral base ds n →
      Accepts base (ws ++ 45 :: ds) (-n)

/-- The longest initial part of `s` that is accepted, its number and what comes after it. -/
structure Longest (base : ℕ) (s : CString) (v : ℤ) (rest : CString) : Prop where
  accepted : ∃ t, s = t ++ rest ∧ Accepts base t v
  longest : ∀ t rest' v', s = t ++ rest' → Accepts base t v' → rest.length ≤ rest'.length

/-- What is to be returned for a number. -/
def bounded (v : ℤ) (rest : CString) : Converted :=
  if longMax < v then { value := longMax, endptr := rest, erange := true }
  else if v < longMin then { value := longMin, endptr := rest, erange := true }
  else { value := v, endptr := rest, erange := false }

/-- The right result: that of the longest part that is accepted, or 0 at the start if there is none. -/
def Correct (base : ℕ) (s : CString) (r : Converted) : Prop :=
  (∃ v rest, Longest base s v rest ∧ r = bounded v rest) ∨
    (∀ t rest v, s = t ++ rest → ¬Accepts base t v) ∧ r = { value := 0, endptr := s, erange := false }

/-! ## §3 Reading the Grammar -/

/-- The text begins with a hexadecimal prefix and a digit. -/
def hexPrefixed (base : ℕ) : CString → Bool
  | 48 :: x :: c :: _ => (base = 0 ∨ base = 16) ∧ (x = 120 ∨ x = 88) ∧ isDigitOf 16 c
  | _ => false

/-- The base of a text without a hexadecimal prefix. -/
def plainBase (base : ℕ) (s : CString) : ℕ := if base ≠ 0 then base else if s.head? = some 48 then 8 else 10

/-- The longest numeral that the text begins with, and the rest. -/
def numeral (base : ℕ) (s : CString) : Option (ℕ × CString) :=
  if hexPrefixed base s then
    some (digitsVal 16 ((s.drop 2).takeWhile (isDigitOf 16)), (s.drop 2).dropWhile (isDigitOf 16))
  else
    let b := plainBase base s
    let ds := s.takeWhile (isDigitOf b)
    if ds = [] then none else some (digitsVal b ds, s.dropWhile (isDigitOf b))

theorem isDigitOf_digitVal (h : isDigitOf b c = true) : ∃ d, digitVal c = some d ∧ d < b := by
  unfold isDigitOf at h
  cases hd : digitVal c with
  | none => simp [hd] at h
  | some d => exact ⟨d, rfl, by simpa [hd] using h⟩

theorem digitVal_cases {d : ℕ} (h : digitVal c = some d) :
    48 ≤ c ∧ c ≤ 57 ∧ d = c - 48 ∨ 65 ≤ c ∧ c ≤ 90 ∧ d = c - 55 ∨ 97 ≤ c ∧ c ≤ 122 ∧ d = c - 87 := by
  unfold digitVal at h
  split_ifs at h with h1 h2 h3
  · exact .inl ⟨h1.1, h1.2, (Option.some.inj h).symm⟩
  · exact .inr (.inl ⟨h2.1, h2.2, (Option.some.inj h).symm⟩)
  · exact .inr (.inr ⟨h3.1, h3.2, (Option.some.inj h).symm⟩)

/-- A numeral begins neither with white space nor with a sign. -/
theorem isDigitOf_start (h : isDigitOf b c = true) : isspace c = false ∧ c ≠ 43 ∧ c ≠ 45 := by
  obtain ⟨d, hd, -⟩ := isDigitOf_digitVal h
  have hcases := digitVal_cases hd
  refine ⟨?_, by omega, by omega⟩
  rw [← Bool.not_eq_true, isspace_iff]
  omega

theorem Numeral.start (h : Numeral base t n) :
    ∃ c t', t = c :: t' ∧ isspace c = false ∧ c ≠ 43 ∧ c ≠ 45 := by
  cases h with
  | plain hbase hne hds =>
    obtain ⟨c, t', rfl⟩ := List.exists_cons_of_ne_nil hne
    exact ⟨c, t', rfl, isDigitOf_start (hds c List.mem_cons_self)⟩
  | hex hbase hx hne hds => exact ⟨48, _, rfl, by decide⟩
  | octal hds => exact ⟨48, _, rfl, by decide⟩
  | decimal hc hd hds => exact ⟨_, _, rfl, isDigitOf_start hd⟩

section

variable {p : ℕ → Bool} {t rest s : CString}

/-- What is accepted by a test is not longer than the part that the test accepts. -/
theorem dropWhile_length_le (h : ∀ c ∈ t, p c) : ((t ++ rest).dropWhile p).length ≤ rest.length := by
  rw [List.dropWhile_append_of_pos h]
  exact List.length_dropWhile_le p rest

/-- If as much is left, then it is that part. -/
theorem takeWhile_of_length (h : ∀ c ∈ t, p c) (hlen : rest.length ≤ ((t ++ rest).dropWhile p).length) :
    (t ++ rest).takeWhile p = t := by
  rw [List.dropWhile_append_of_pos h] at hlen
  rw [List.takeWhile_append_of_pos h]
  have hsame : rest.dropWhile p = rest :=
    (List.dropWhile_suffix p).eq_of_length (le_antisymm (List.length_dropWhile_le p rest) hlen)
  have hnone : rest.takeWhile p = [] := by
    have hsplit := List.takeWhile_append_dropWhile (p := p) (l := rest)
    rw [hsame] at hsplit
    simpa using hsplit
  rw [hnone, List.append_nil]

end

theorem hexPrefixed_iff : hexPrefixed base s = true ↔
    ∃ x c s', s = 48 :: x :: c :: s' ∧ (base = 0 ∨ base = 16) ∧ (x = 120 ∨ x = 88) ∧ isDigitOf 16 c = true := by
  constructor
  · intro h
    unfold hexPrefixed at h
    split at h
    next x c s' => exact ⟨x, c, s', rfl, by simpa using h⟩
    next => cases h
  · rintro ⟨x, c, s', rfl, h⟩
    simpa [hexPrefixed] using h

/-- A prefix is no digit of a base that has one. -/
theorem prefix_not_digit {x : ℕ} (hb : b ≤ 16) (hx : x = 120 ∨ x = 88) : isDigitOf b x = false := by
  rw [← Bool.not_eq_true]
  intro h
  obtain ⟨d, hd, hlt⟩ := isDigitOf_digitVal h
  have := digitVal_cases hd
  omega

theorem isDigitOf_zero (h : 0 < b) : isDigitOf b 48 = true := by
  simpa [isDigitOf, digitVal] using h

/-- A numeral that is read is one of the grammar. -/
theorem numeral_sound (h : numeral base s = some (n, rest)) :
    ∃ t, s = t ++ rest ∧ Numeral base t n := by
  unfold numeral at h
  split at h
  next hhex =>
    obtain ⟨x, c, s', rfl, hbase, hx, hc⟩ := hexPrefixed_iff.mp hhex
    simp only [List.drop_succ_cons, List.drop_zero, Option.some.injEq, Prod.mk.injEq] at h
    obtain ⟨rfl, rfl⟩ := h
    refine ⟨48 :: x :: (c :: s').takeWhile (isDigitOf 16), ?_, .hex hbase hx ?_ fun c hc => ?_⟩
    · rw [List.cons_append, List.cons_append, List.takeWhile_append_dropWhile]
    · simp [hc]
    · exact List.mem_takeWhile_imp hc
  next hhex =>
    dsimp only at h
    split at h
    next => cases h
    next hne =>
      simp only [Option.some.injEq, Prod.mk.injEq] at h
      obtain ⟨rfl, rfl⟩ := h
      refine ⟨_, (List.takeWhile_append_dropWhile).symm, ?_⟩
      have hall : ∀ c ∈ s.takeWhile (isDigitOf (plainBase base s)), isDigitOf (plainBase base s) c = true :=
        fun c hc => List.mem_takeWhile_imp hc
      revert hne hall
      unfold plainBase
      split_ifs with hbase hhead
      · exact fun hne hall => .plain hbase hne hall
      · intro hne hall
        cases s with
        | nil => cases hhead
        | cons c s =>
          obtain rfl : c = 48 := Option.some.inj hhead
          obtain rfl : base = 0 := not_ne_iff.mp hbase
          rw [List.takeWhile_cons_of_pos (isDigitOf_zero (by decide))] at hall ⊢
          exact .octal fun c hc => hall c (List.mem_cons_of_mem _ hc)
      · intro hne hall
        cases s with
        | nil => exact absurd rfl hne
        | cons c s =>
          obtain rfl : base = 0 := not_ne_iff.mp hbase
          by_cases hdigit : isDigitOf 10 c = true
          · rw [List.takeWhile_cons_of_pos hdigit] at hall ⊢
            exact .decimal (fun hzero => hhead (by rw [hzero]; rfl)) hdigit fun c hc =>
              hall c (List.mem_cons_of_mem _ hc)
          · exact absurd (List.takeWhile_cons_of_neg hdigit) hne

/-- What is read of a text that begins with a numeral. -/
def Reads (base n : ℕ) (s rest' : CString) : Prop :=
  ∃ n' rest, numeral base s = some (n', rest) ∧ rest.length ≤ rest'.length ∧
    (rest'.length ≤ rest.length → n' = n)

theorem reads_hex {x : ℕ} (hbase : base = 0 ∨ base = 16) (hx : x = 120 ∨ x = 88)
    (hc : isDigitOf 16 c = true) (hle : (s.dropWhile (isDigitOf 16)).length ≤ rest'.length)
    (hsame : rest'.length ≤ (s.dropWhile (isDigitOf 16)).length →
      digitsVal 16 ((c :: s).takeWhile (isDigitOf 16)) = n) :
    Reads base n (48 :: x :: c :: s) rest' := by
  have hhex : hexPrefixed base (48 :: x :: c :: s) = true := hexPrefixed_iff.mpr ⟨x, c, s, rfl, hbase, hx, hc⟩
  have hdrop : (c :: s).dropWhile (isDigitOf 16) = s.dropWhile (isDigitOf 16) := List.dropWhile_cons_of_pos hc
  refine ⟨_, _, by rw [numeral, if_pos hhex], ?_, ?_⟩
  · simpa [hdrop] using hle
  · intro h
    exact hsame (by simpa [hdrop] using h)

/-- A zero before a prefix is a numeral, but not the longest. -/
theorem reads_past_zero (hb : b ≤ 16) (hds : ∀ c ∈ ds, isDigitOf b c = true)
    (hhex : hexPrefixed base (48 :: ds ++ rest') = true) :
    Reads base n (48 :: ds ++ rest') rest' := by
  obtain ⟨x, c, s', hs, hbase, hx, hc⟩ := hexPrefixed_iff.mp hhex
  have hnil : ds = [] := by
    cases ds with
    | nil => rfl
    | cons y ds =>
      obtain rfl : y = x := by simpa using congrArg (fun l => l.getD 1 0) hs
      have hdigit := hds y List.mem_cons_self
      rw [prefix_not_digit hb hx] at hdigit
      cases hdigit
  subst hnil
  obtain rfl : rest' = x :: c :: s' := by simpa using hs
  have hshort : (s'.dropWhile (isDigitOf 16)).length ≤ s'.length := List.length_dropWhile_le _ _
  refine reads_hex hbase hx hc ?_ fun h => ?_
  · simp only [List.length_cons]
    omega
  · simp only [List.length_cons] at h
    omega

/-- Digits that are not a prefix are read to their end. -/
theorem reads_plain (hne : ds ≠ [])
    (hds : ∀ c ∈ ds, isDigitOf (plainBase base (ds ++ rest')) c = true)
    (hhex : ¬hexPrefixed base (ds ++ rest') = true) :
    Reads base (digitsVal (plainBase base (ds ++ rest')) ds) (ds ++ rest') rest' := by
  have hstart : (ds ++ rest').takeWhile (isDigitOf (plainBase base (ds ++ rest'))) ≠ [] := by
    rw [List.takeWhile_append_of_pos hds]
    exact List.append_ne_nil_of_left_ne_nil hne _
  refine ⟨_, _, by rw [numeral, if_neg hhex]; exact if_neg hstart, dropWhile_length_le hds, fun h => ?_⟩
  rw [takeWhile_of_length hds h]

/-- A numeral of the grammar is read, or a longer one. -/
theorem Numeral.reads (h : Numeral base t n) : Reads base n (t ++ rest') rest' := by
  cases h with
  | plain hbase hne hds =>
    have hplain : plainBase base (t ++ rest') = base := if_pos hbase
    by_cases hhex : hexPrefixed base (t ++ rest') = true
    · obtain ⟨x, c, s', hs, hzero, hx, hc⟩ := hexPrefixed_iff.mp hhex
      obtain rfl : base = 16 := hzero.resolve_left hbase
      obtain ⟨y, ds, rfl⟩ := List.exists_cons_of_ne_nil hne
      obtain rfl : y = 48 := (List.cons.inj hs).1
      exact reads_past_zero le_rfl (fun c hc => hds c (List.mem_cons_of_mem _ hc)) hhex
    · have hreads := @reads_plain base _ _ hne (by rwa [hplain]) hhex
      rwa [hplain] at hreads
  | @hex _ x ds hbase hx hne hds =>
    obtain ⟨c, ds, rfl⟩ := List.exists_cons_of_ne_nil hne
    have htail : ∀ c ∈ ds, isDigitOf 16 c = true := fun c hc => hds c (List.mem_cons_of_mem _ hc)
    refine reads_hex hbase hx (hds c List.mem_cons_self) (dropWhile_length_le htail) fun h => ?_
    rw [List.takeWhile_cons_of_pos (hds c List.mem_cons_self)]
    exact congrArg (fun ds => digitsVal 16 (c :: ds)) (takeWhile_of_length htail h)
  | @octal ds hds =>
    by_cases hhex : hexPrefixed 0 (48 :: ds ++ rest') = true
    · exact reads_past_zero (by decide) hds hhex
    · have hall : ∀ c ∈ 48 :: ds, isDigitOf 8 c = true :=
        fun c hc => (List.mem_cons.mp hc).elim (fun h => h ▸ isDigitOf_zero (by decide)) (hds c)
      exact reads_plain (List.cons_ne_nil 48 ds) hall hhex
  | @decimal c ds hc hdigit hds =>
    have hhex : ¬hexPrefixed 0 (c :: ds ++ rest') = true := by
      intro h
      obtain ⟨x, c', s', hs, -⟩ := hexPrefixed_iff.mp h
      exact hc (List.cons.inj hs).1
    have hplain : plainBase 0 (c :: ds ++ rest') = 10 :=
      (if_neg (by decide)).trans (if_neg fun h => hc (Option.some.inj h))
    have hall : ∀ c' ∈ c :: ds, isDigitOf 10 c' = true :=
      fun c' hc' => (List.mem_cons.mp hc').elim (fun h => h ▸ hdigit) (hds c')
    have hreads := @reads_plain 0 _ _ (List.cons_ne_nil c ds) (by rwa [hplain]) hhex
    rwa [hplain] at hreads

/-- The text after white space and the sign, and whether the sign is a minus. -/
def unsignedPart (s : CString) : Bool × CString := skipSign (s.dropWhile isspace)

def signed (negative : Bool) (n : ℕ) : ℤ := if negative then -n else n

theorem dropWhile_spaces {ws s : CString} {c : ℕ} (hws : ∀ c ∈ ws, isspace c = true)
    (hc : isspace c = false) : (ws ++ c :: s).dropWhile isspace = c :: s := by
  rw [List.dropWhile_append_of_pos hws, List.dropWhile_cons_of_neg (by simp [hc])]

theorem skipSign_other (hplus : c ≠ 43) (hminus : c ≠ 45) :
    skipSign (c :: s) = (false, c :: s) := by
  unfold skipSign
  split
  next h => exact absurd (List.cons.inj h).1 hplus
  next h => exact absurd (List.cons.inj h).1 hminus
  next => rfl

/-- The white space and the sign of an accepted text are the ones that are skipped. -/
theorem Accepts.unsignedPart {v : ℤ} (h : Accepts base t v) :
    ∃ negative t' n, unsignedPart (t ++ rest) = (negative, t' ++ rest) ∧ Numeral base t' n ∧
      v = signed negative n := by
  cases h with
  | @unsigned ws ds n hws hds =>
    obtain ⟨c, ds', rfl, hspace, hplus, hminus⟩ := hds.start
    refine ⟨false, _, n, ?_, hds, rfl⟩
    rw [Libc.unsignedPart, List.append_assoc, List.cons_append, dropWhile_spaces hws hspace,
      skipSign_other hplus hminus]
  | @plus ws ds n hws hds =>
    refine ⟨false, ds, n, ?_, hds, rfl⟩
    rw [Libc.unsignedPart, List.append_assoc, List.cons_append, dropWhile_spaces hws (by decide)]
    rfl
  | @minus ws ds n hws hds =>
    refine ⟨true, ds, n, ?_, hds, rfl⟩
    rw [Libc.unsignedPart, List.append_assoc, List.cons_append, dropWhile_spaces hws (by decide)]
    rfl

/-- A numeral after white space and a sign is accepted. -/
theorem accepts_of_numeral {t' : CString} {negative : Bool}
    (hs : unsignedPart s = (negative, t' ++ rest)) (hn : Numeral base t' n) :
    ∃ t, s = t ++ rest ∧ Accepts base t (signed negative n) := by
  have hws : ∀ c ∈ s.takeWhile isspace, isspace c = true := fun c hc => List.mem_takeWhile_imp hc
  have hsplit : s = s.takeWhile isspace ++ s.dropWhile isspace := List.takeWhile_append_dropWhile.symm
  unfold unsignedPart skipSign at hs
  split at hs
  next w hw =>
    obtain ⟨rfl, rfl⟩ := Prod.mk.inj hs
    exact ⟨_, hsplit.trans (by rw [hw, List.append_cons, ← List.append_assoc, ← List.append_cons]), .plus hws hn⟩
  next w hw =>
    obtain ⟨rfl, rfl⟩ := Prod.mk.inj hs
    exact ⟨_, hsplit.trans (by rw [hw, List.append_cons, ← List.append_assoc, ← List.append_cons]), .minus hws hn⟩
  next =>
    obtain ⟨rfl, hw⟩ := Prod.mk.inj hs
    exact ⟨_, hsplit.trans (by rw [hw, List.append_assoc]), .unsigned hws hn⟩

/-- What a conversion by the grammar returns. -/
def reference (base : ℕ) (s : CString) : Converted :=
  match numeral base (unsignedPart s).2 with
  | none => { value := 0, endptr := s, erange := false }
  | some (n, rest) => bounded (signed (unsignedPart s).1 n) rest

theorem correct_iff_reference {r : Converted} : Correct base s r ↔ r = reference base s := by
  -- the longest part that is accepted is the numeral that is read
  have hreads : ∀ {t rest v}, s = t ++ rest → Accepts base t v →
      ∃ n n' rest', v = signed (unsignedPart s).1 n ∧ numeral base (unsignedPart s).2 = some (n', rest') ∧
        rest'.length ≤ rest.length ∧ (rest.length ≤ rest'.length → n' = n) := by
    rintro t rest v rfl ht
    obtain ⟨negative, t', n, hpart, hn, rfl⟩ := @Accepts.unsignedPart _ _ rest _ ht
    obtain ⟨n', rest', hread, hle, hsame⟩ := @Numeral.reads _ _ _ rest hn
    rw [hpart]
    exact ⟨n, n', rest', rfl, hread, hle, hsame⟩
  unfold reference
  cases hread : numeral base (unsignedPart s).2 with
  | none =>
    constructor
    · rintro (⟨v, rest, hlongest, -⟩ | ⟨-, hr⟩)
      · obtain ⟨t, hs, ht⟩ := hlongest.accepted
        obtain ⟨n, n', rest', -, hsome, -⟩ := hreads hs ht
        rw [hread] at hsome
        cases hsome
      · exact hr
    · intro hr
      refine .inr ⟨fun t rest v hs ht => ?_, hr⟩
      obtain ⟨n, n', rest', -, hsome, -⟩ := hreads hs ht
      rw [hread] at hsome
      cases hsome
  | some found =>
    obtain ⟨n, rest⟩ := found
    obtain ⟨t', hw, hn⟩ := numeral_sound hread
    have hsplit : unsignedPart s = ((unsignedPart s).1, t' ++ rest) := Prod.ext rfl hw
    obtain ⟨t, hs, ht⟩ := accepts_of_numeral hsplit hn
    have hlongest : ∀ t rest' v', s = t ++ rest' → Accepts base t v' → rest.length ≤ rest'.length := by
      intro t₁ rest₁ v₁ hs1 ht1
      obtain ⟨n₁, n', rest', -, hsome, hle, -⟩ := hreads hs1 ht1
      rw [hread] at hsome
      obtain ⟨rfl, rfl⟩ := Prod.mk.inj (Option.some.inj hsome)
      exact hle
    constructor
    · rintro (⟨v, rest₁, hlongest1, rfl⟩ | ⟨hnone, -⟩)
      · obtain ⟨t₁, hs1, ht1⟩ := hlongest1.accepted
        have hle := hlongest1.longest _ _ _ hs ht
        obtain ⟨n₁, n', rest', rfl, hsome, hle', hsame⟩ := hreads hs1 ht1
        rw [hread] at hsome
        obtain ⟨rfl, rfl⟩ := Prod.mk.inj (Option.some.inj hsome)
        have hrest : rest₁ = rest := by
          have hlen : t₁.length = t.length := by
            have := congrArg List.length (hs1.symm.trans hs)
            simp only [List.length_append] at this
            omega
          exact (List.append_inj (hs1.symm.trans hs) hlen).2
        rw [hrest, hsame hle]
      · exact absurd ht (hnone _ _ _ hs)
    · rintro rfl
      exact .inl ⟨_, rest, ⟨⟨t, hs, ht⟩, hlongest⟩, rfl⟩

/-! ## §4 The Loop -/

/-- A character that the loop takes for a digit. -/
def looseDigit (base c : ℕ) : Bool := 0 ≤ charDigit c ∧ charDigit c < base

/-- A character between `Z` and `a` from which a digit of the base is computed. -/
def strayDigit (base c : ℕ) : Bool := 91 ≤ c ∧ c ≤ 96 ∧ c - 87 < base

theorem charDigit_of_digitVal {d : ℕ} (h : digitVal c = some d) : charDigit c = d := by
  have hcases := digitVal_cases h
  unfold charDigit
  split_ifs with hdigit hupper
  · rw [isdigit_iff] at hdigit
    omega
  · rw [isupper_iff] at hupper
    omega
  · rw [isdigit_iff] at hdigit
    rw [isupper_iff] at hupper
    omega

/-- The loop takes the digits of the base, and the characters between the letters. -/
theorem looseDigit_eq (hbase : base ≤ 36) (c : ℕ) :
    looseDigit base c = (isDigitOf base c || strayDigit base c) := by
  rw [Bool.eq_iff_iff, Bool.or_eq_true]
  unfold isDigitOf looseDigit strayDigit
  cases hd : digitVal c with
  | some d =>
    have hcases := digitVal_cases hd
    rw [charDigit_of_digitVal hd]
    simp
    omega
  | none =>
    have hother : ¬(48 ≤ c ∧ c ≤ 57) ∧ ¬(65 ≤ c ∧ c ≤ 90) ∧ ¬(97 ≤ c ∧ c ≤ 122) := by
      unfold digitVal at hd
      split_ifs at hd with h1 h2 h3
      exact ⟨h1, h2, h3⟩
    have hval : charDigit c = c - 87 := by
      unfold charDigit
      rw [if_neg (by rw [isdigit_iff]; exact hother.1), if_neg (by rw [isupper_iff]; exact hother.2.1)]
      norm_num
    simp [hval]
    omega

theorem convert_eq (base : ℕ) (limit : ℤ) (s : CString) (st : Conversion) :
    convert base limit s st =
      ((s.takeWhile (looseDigit base)).foldl (fun st c => addDigit base limit (charDigit c) st) st,
        s.dropWhile (looseDigit base)) := by
  induction s generalizing st with
  | nil => rfl
  | cons c s ih =>
    unfold convert
    by_cases h : looseDigit base c = true
    · have hdigit : 0 ≤ charDigit c ∧ charDigit c < base := by simpa [looseDigit] using h
      rw [List.takeWhile_cons_of_pos h, List.dropWhile_cons_of_pos h, List.foldl_cons]
      exact (if_neg (by omega)).trans (ih _)
    · have hnone : charDigit c < 0 ∨ (base : ℤ) ≤ charDigit c := by
        have : ¬(0 ≤ charDigit c ∧ charDigit c < base) := by simpa [looseDigit] using h
        omega
      rw [List.takeWhile_cons_of_neg h, List.dropWhile_cons_of_neg h]
      exact if_pos hnone

/-- The variables after some digits. -/
structure Summed (base : ℕ) (ds : CString) (st : Conversion) : Prop where
  sawADigit : st.sawADigit = decide (ds ≠ [])
  overflow : st.overflow = true ↔ longMax < digitsVal base ds
  result : st.overflow = false → st.result = digitsVal base ds

theorem digitsVal_append_single (base : ℕ) (ds : CString) (c : ℕ) :
    digitsVal base (ds ++ [c]) = digitsVal base ds * base + (digitVal c).getD 0 := by
  simp [digitsVal]

/-- A digit keeps the sum; a number beyond `LONG_MAX` is noticed, and nothing beyond it is computed. -/
theorem Summed.addDigit {st : Conversion} (h : Summed base ds st) (hbase : 0 < base)
    (hc : isDigitOf base c = true) :
    Summed base (ds ++ [c]) (addDigit base (longMax / base) (charDigit c) st) := by
  obtain ⟨d, hd, -⟩ := isDigitOf_digitVal hc
  have hval : (digitsVal base (ds ++ [c]) : ℤ) = digitsVal base ds * base + d := by
    rw [digitsVal_append_single, hd]
    push_cast
    rfl
  have hgrows : (digitsVal base ds : ℤ) ≤ digitsVal base ds * base :=
    le_mul_of_one_le_right (Int.natCast_nonneg _) (by exact_mod_cast hbase)
  have hlimit : longMax / base < digitsVal base ds ↔ longMax < digitsVal base ds * (base : ℤ) :=
    Int.ediv_lt_iff_lt_mul (by exact_mod_cast hbase)
  rw [charDigit_of_digitVal hd]
  unfold LisaMinix.Libc.addDigit
  dsimp only
  split_ifs with hbefore hlast
  · -- the number was too large before, or is after the multiplication
    have hlarge : longMax < digitsVal base ds * (base : ℤ) := by
      cases hover : st.overflow with
      | true =>
        have := h.overflow.mp hover
        omega
      | false =>
        rw [hover, Bool.false_or, decide_eq_true_eq, h.result hover] at hbefore
        exact hlimit.mp hbefore
    exact ⟨by simp, ⟨fun _ => by omega, fun _ => rfl⟩, by simp⟩
  all_goals
    obtain ⟨hover, hsmall⟩ := Bool.or_eq_false_iff.mp (Bool.not_eq_true _ ▸ hbefore)
    rw [h.result hover] at hlast ⊢
  · exact ⟨by simp, ⟨fun _ => by omega, fun _ => rfl⟩, by simp⟩
  · exact ⟨by simp, ⟨by simp, fun h => by omega⟩, fun _ => hval.symm⟩

theorem convert_summed (hbase : 0 < base) (hds : ∀ c ∈ ds, isDigitOf base c = true) :
    Summed base ds (ds.foldl (fun st c => addDigit base (longMax / base) (charDigit c) st)
      { result := 0, overflow := false, sawADigit := false }) := by
  induction ds using List.reverseRecOn with
  | nil => exact ⟨rfl, by simp [digitsVal, longMax], fun _ => rfl⟩
  | append_singleton ds c ih =>
    rw [List.foldl_append]
    have hsum := ih fun c hc => hds c (List.mem_append_left _ hc)
    exact hsum.addDigit hbase (hds c (List.mem_append_right _ (List.mem_singleton_self c)))

/-! ## §5 What Is Converted Correctly -/

/-- The text that the loop begins with, and the base. -/
def loopStart (base : ℕ) (s : CString) : ℕ × CString := skipPrefix base (unsignedPart s).2

/-- The number is in one of the forms that are converted correctly. -/
structure Plain (base : ℕ) (s : CString) : Prop where
  /-- After a prefix that is skipped, the zero of an octal constant included, comes a digit. -/
  prefixDigit : base = 0 ∨ base = 16 → (unsignedPart s).2.head? = some 48 →
    ∃ c ∈ (loopStart base s).2.head?, isDigitOf (loopStart base s).1 c
  /-- No character between `Z` and `a` that counts as a digit comes after the digits. -/
  noStray : ∀ c ∈ ((loopStart base s).2.dropWhile (isDigitOf (loopStart base s).1)).head?,
    strayDigit (loopStart base s).1 c = false
  /-- The number is not the least one. -/
  notLeast : signed (unsignedPart s).1 (digitsVal (loopStart base s).1
    ((loopStart base s).2.takeWhile (isDigitOf (loopStart base s).1))) ≠ longMin

section

variable {base : ℕ} {s : CString}
variable {w w' : CString} {b : ℕ}

theorem unsignedPart_length_le (s : CString) : (unsignedPart s).2.length ≤ s.length := by
  have hskip : ∀ s : CString, (skipSign s).2.length ≤ s.length := by
    intro s
    unfold skipSign
    split
    · exact Nat.le_succ _
    · exact Nat.le_succ _
    · exact le_rfl
  exact (hskip _).trans (List.length_dropWhile_le _ _)

theorem loopStart_base (hbase : base = 0 ∨ 2 ≤ base ∧ base ≤ 36) :
    0 < (loopStart base s).1 ∧ (loopStart base s).1 ≤ 36 := by
  unfold loopStart skipPrefix
  repeat' split
  all_goals dsimp only
  all_goals omega

/-- The rest of a numeral is shorter than the string. -/
theorem numeral_rest_lt {n : ℕ} {rest : CString} (h : numeral base (unsignedPart s).2 = some (n, rest)) :
    rest.length < s.length := by
  obtain ⟨t, hw, hn⟩ := numeral_sound h
  obtain ⟨c, t', rfl, -⟩ := hn.start
  have hle := unsignedPart_length_le s
  rw [hw] at hle
  simp only [List.length_append, List.length_cons] at hle
  omega

/-- The prefix is hexadecimal, or it is the zero of a constant, or there is none. -/
inductive Skipped (base : ℕ) (w : CString) : Prop
  | hex {x : ℕ} {w' : CString} : w = 48 :: x :: w' → base = 0 ∨ base = 16 → x = 120 ∨ x = 88 →
      skipPrefix base w = (16, w') → Skipped base w
  | zero {w' : CString} : w = 48 :: w' → base = 0 ∨ base = 16 →
      skipPrefix base w = (plainBase base w, w') → Skipped base w
  | none : (base = 0 ∨ base = 16 → w.head? ≠ some 48) → skipPrefix base w = (plainBase base w, w) →
      Skipped base w

theorem skipped_zero (w : CString) : Skipped 0 w := by
  cases w with
  | nil => exact .none (by simp) rfl
  | cons c w =>
    by_cases hc : c = 48
    · subst hc
      cases w with
      | nil => exact .zero rfl (.inl rfl) rfl
      | cons x w =>
        by_cases hx : x = 120 ∨ x = 88
        · exact .hex rfl (.inl rfl) hx (if_pos hx)
        · exact .zero rfl (.inl rfl) (if_neg hx)
    · have hhead : (c :: w).head? ≠ some 48 := fun h => hc (Option.some.inj h)
      refine .none (fun _ => hhead) ?_
      rw [plainBase, if_neg (by decide), if_neg hhead]
      unfold skipPrefix
      rw [if_pos rfl]
      split
      next h => exact absurd (List.cons.inj h).1 hc
      next h => exact absurd (List.cons.inj h).1 hc
      next => rfl

theorem skipped_sixteen (w : CString) : Skipped 16 w := by
  have hbase : plainBase 16 w = 16 := if_pos (by decide)
  cases w with
  | nil => exact .none (by simp) rfl
  | cons c w =>
    by_cases hc : c = 48
    · subst hc
      cases w with
      | nil => exact .zero rfl (.inr rfl) rfl
      | cons x w =>
        by_cases hx : x = 120
        · subst hx
          exact .hex rfl (.inr rfl) (.inl rfl) rfl
        · refine .zero rfl (.inr rfl) ?_
          rw [hbase]
          unfold skipPrefix
          rw [if_neg (by decide), if_pos rfl]
          split
          next h => exact absurd (List.cons.inj (List.cons.inj h).2).1 hx
          next h => rw [(List.cons.inj h).2]
          next _ h => exact absurd rfl (h _)
    · refine .none (fun _ h => hc (Option.some.inj h)) ?_
      rw [hbase]
      unfold skipPrefix
      rw [if_neg (by decide), if_pos rfl]
      split
      next h => exact absurd (List.cons.inj h).1 hc
      next h => exact absurd (List.cons.inj h).1 hc
      next => rfl

theorem skipped (base : ℕ) (w : CString) : Skipped base w := by
  by_cases hzero : base = 0
  · exact hzero ▸ skipped_zero w
  · by_cases hhex : base = 16
    · exact hhex ▸ skipped_sixteen w
    · refine .none (fun h => absurd h (not_or.mpr ⟨hzero, hhex⟩)) ?_
      unfold skipPrefix plainBase
      rw [if_neg hzero, if_neg hhex, if_pos hzero]

/-- Without a zero there is no hexadecimal prefix. -/
theorem not_hexPrefixed (h : base = 0 ∨ base = 16 → w.head? ≠ some 48) :
    ¬hexPrefixed base w = true := by
  intro hhex
  obtain ⟨x, c, w', rfl, hbase, -⟩ := hexPrefixed_iff.mp hhex
  exact h hbase rfl

/-- A zero is one of the digits. -/
theorem span_zero (hw : w = 48 :: w') (hb : 0 < b) :
    w.takeWhile (isDigitOf b) = 48 :: w'.takeWhile (isDigitOf b) ∧
      w.dropWhile (isDigitOf b) = w'.dropWhile (isDigitOf b) := by
  subst hw
  exact ⟨List.takeWhile_cons_of_pos (isDigitOf_zero hb), List.dropWhile_cons_of_pos (isDigitOf_zero hb)⟩

/-- With a digit after a prefix, the digits from where the loop begins are the numeral. -/
theorem numeral_eq (hskip : skipPrefix base w = (b, w'))
    (hafter : base = 0 ∨ base = 16 → w.head? = some 48 → ∃ c ∈ w'.head?, isDigitOf b c) :
    numeral base w = if w'.takeWhile (isDigitOf b) = [] then none
      else some (digitsVal b (w'.takeWhile (isDigitOf b)), w'.dropWhile (isDigitOf b)) := by
  have hdigits : ∀ {c : ℕ} {w : CString}, isDigitOf b c = true → (c :: w).takeWhile (isDigitOf b) ≠ [] := by
    intro c w hc
    rw [List.takeWhile_cons_of_pos hc]
    exact List.cons_ne_nil _ _
  cases skipped base w with
  | @hex x w₁ hw hbase hx hskip1 =>
    obtain ⟨rfl, rfl⟩ := Prod.mk.inj (hskip.symm.trans hskip1)
    obtain ⟨c, hhead, hc⟩ := hafter hbase (by rw [hw]; rfl)
    obtain ⟨w₂, rfl⟩ : ∃ w₂, w' = c :: w₂ := List.head?_eq_some_iff.mp hhead
    have hhex : hexPrefixed base w = true := hexPrefixed_iff.mpr ⟨x, c, w₂, hw, hbase, hx, hc⟩
    rw [numeral, if_pos hhex, if_neg (hdigits hc), hw]
    rfl
  | @zero w₁ hw hbase hskip1 =>
    obtain ⟨rfl, rfl⟩ := Prod.mk.inj (hskip.symm.trans hskip1)
    obtain ⟨c, hhead, hc⟩ := hafter hbase (by rw [hw]; rfl)
    obtain ⟨w₂, rfl⟩ : ∃ w₂, w' = c :: w₂ := List.head?_eq_some_iff.mp hhead
    have hb : plainBase base w ≤ 16 := by
      unfold plainBase
      split_ifs <;> omega
    have hpos : 0 < plainBase base w := by
      unfold plainBase
      split_ifs <;> omega
    have hhex : ¬hexPrefixed base w = true := by
      intro h
      obtain ⟨x, c', w₃, hw3, -, hx, -⟩ := hexPrefixed_iff.mp h
      obtain rfl : c = x := (List.cons.inj (List.cons.inj (hw.symm.trans hw3)).2).1
      rw [prefix_not_digit hb hx] at hc
      cases hc
    obtain ⟨htake, hdrop⟩ := span_zero hw hpos
    have hvalue (ds : CString) : digitsVal (plainBase base w) (48 :: ds) = digitsVal (plainBase base w) ds := by
      simp [digitsVal, digitVal]
    rw [numeral, if_neg hhex, if_neg (hdigits hc)]
    dsimp only
    rw [htake, hdrop, hvalue, if_neg (List.cons_ne_nil _ _)]
  | none hhead hskip1 =>
    obtain ⟨rfl, rfl⟩ := Prod.mk.inj (hskip.symm.trans hskip1)
    rw [numeral, if_neg (not_hexPrefixed hhead)]

/-- Without a digit after it, the zero of the prefix is the numeral. -/
theorem numeral_of_zero (hskip : skipPrefix base w = (b, w')) (hbase : base = 0 ∨ base = 16)
    (hzero : w.head? = some 48) (hnone : ∀ c ∈ w'.head?, isDigitOf b c = false) :
    ∃ n rest, numeral base w = some (n, rest) ∧
      ∀ c ∈ w'.head?, strayDigit b c = true → w'.length ≤ rest.length := by
  have hb : plainBase base w ≤ 16 ∧ 0 < plainBase base w := by
    unfold plainBase
    constructor <;> split_ifs <;> omega
  have hplain {w₁ : CString} (hw : w = 48 :: w₁) (hhex : ¬hexPrefixed base w = true)
      (hnext : ∀ c ∈ w₁.head?, isDigitOf (plainBase base w) c = false) :
      ∃ n, numeral base w = some (n, w₁) := by
    have hstop : w₁.takeWhile (isDigitOf (plainBase base w)) = [] ∧
        w₁.dropWhile (isDigitOf (plainBase base w)) = w₁ := by
      cases w₁ with
      | nil => exact ⟨rfl, rfl⟩
      | cons c w₂ =>
        have hc : ¬isDigitOf (plainBase base w) c = true := by simp [hnext c rfl]
        exact ⟨List.takeWhile_cons_of_neg hc, List.dropWhile_cons_of_neg hc⟩
    obtain ⟨htake, hdrop⟩ := span_zero hw hb.2
    rw [hstop.1] at htake
    rw [hstop.2] at hdrop
    refine ⟨digitsVal (plainBase base w) [48], ?_⟩
    rw [numeral, if_neg hhex]
    dsimp only
    rw [htake, hdrop, if_neg (List.cons_ne_nil _ _)]
  cases skipped base w with
  | @hex x w₁ hw _ hx hskip1 =>
    obtain ⟨rfl, rfl⟩ := Prod.mk.inj (hskip.symm.trans hskip1)
    have hhex : ¬hexPrefixed base w = true := by
      intro h
      obtain ⟨x', c, w₃, hw3, -, -, hc⟩ := hexPrefixed_iff.mp h
      obtain rfl : w' = c :: w₃ := (List.cons.inj (List.cons.inj (hw.symm.trans hw3)).2).2
      rw [hnone c rfl] at hc
      cases hc
    obtain ⟨n, hn⟩ := hplain hw hhex fun c hc => by
      obtain rfl : x = c := Option.some.inj hc
      exact prefix_not_digit hb.1 hx
    exact ⟨n, _, hn, fun c _ _ => by simp⟩
  | @zero w₁ hw _ hskip1 =>
    obtain ⟨rfl, rfl⟩ := Prod.mk.inj (hskip.symm.trans hskip1)
    by_cases hhex : hexPrefixed base w = true
    · -- the code knows `0X` for base 0 only
      obtain ⟨x, c, w₃, hw3, -, hx, -⟩ := hexPrefixed_iff.mp hhex
      refine ⟨_, _, by rw [numeral, if_pos hhex], fun c' hc' hstray => ?_⟩
      obtain rfl : w' = x :: c :: w₃ := (List.cons.inj (hw.symm.trans hw3)).2
      obtain rfl : x = c' := Option.some.inj hc'
      have : ¬(x ≤ 96) ∨ ¬(91 ≤ x) := by omega
      simp only [strayDigit, decide_eq_true_eq] at hstray
      omega
    · obtain ⟨n, hn⟩ := hplain hw hhex hnone
      exact ⟨n, _, hn, fun _ _ _ => le_rfl⟩
  | none hhead _ => exact absurd hzero (hhead hbase)

/-- The digits that the loop takes, and what it computes from them. -/
def looseDigits (base : ℕ) (s : CString) : CString :=
  (loopStart base s).2.takeWhile (looseDigit (loopStart base s).1)

def computed (base : ℕ) (s : CString) : Conversion :=
  (looseDigits base s).foldl
    (fun st c => addDigit (loopStart base s).1 (longMax / (loopStart base s).1) (charDigit c) st)
    { result := 0, overflow := false, sawADigit := false }

theorem strtol_eq (s : CString) (base : ℕ) :
    strtol s base =
      let st := computed base s
      let rest := (loopStart base s).2.dropWhile (looseDigit (loopStart base s).1)
      if st.sawADigit = false then { value := 0, endptr := s, erange := false }
      else if st.overflow then
        { value := if (unsignedPart s).1 then longMin else longMax, endptr := rest, erange := true }
      else
        { value := if (unsignedPart s).1 then 0 - st.result else st.result, endptr := rest, erange := false } := by
  unfold strtol
  dsimp only
  rw [convert_eq]
  rfl

theorem addDigit_saw (b limit d : ℤ) (st : Conversion) : (addDigit b limit d st).sawADigit = true := by
  unfold addDigit
  dsimp only
  split_ifs <;> rfl

theorem computed_saw : (computed base s).sawADigit = decide (looseDigits base s ≠ []) := by
  unfold computed
  generalize looseDigits base s = ds
  cases ds using List.reverseRecOn with
  | nil => rfl
  | append_singleton ds c =>
    rw [List.foldl_append, List.foldl_cons, List.foldl_nil, addDigit_saw]
    simp

/-- The end is at the start, or behind a character that is taken for a digit. -/
theorem strtol_endptr : (strtol s base).endptr =
    if looseDigits base s = [] then s
    else (loopStart base s).2.dropWhile (looseDigit (loopStart base s).1) := by
  rw [strtol_eq]
  dsimp only
  rw [computed_saw]
  split_ifs with h1 h2 h3 <;> simp_all

theorem reference_endptr_none (h : numeral base (unsignedPart s).2 = none) :
    (reference base s).endptr = s := by
  rw [reference, h]

theorem reference_endptr_some {n : ℕ} {rest : CString} (h : numeral base (unsignedPart s).2 = some (n, rest)) :
    (reference base s).endptr = rest := by
  rw [reference, h]
  dsimp only [bounded]
  split_ifs <;> rfl

/-- A stray character is taken for a digit. -/
theorem strtol_of_stray {r : CString} {c : ℕ} (hb : (loopStart base s).1 ≤ 36)
    (hw : (loopStart base s).2.dropWhile (isDigitOf (loopStart base s).1) = c :: r)
    (hstray : strayDigit (loopStart base s).1 c = true) : (strtol s base).endptr.length ≤ r.length := by
  have hsplit := List.takeWhile_append_dropWhile (p := isDigitOf (loopStart base s).1) (l := (loopStart base s).2)
  have hloose : looseDigit (loopStart base s).1 c = true := by rw [looseDigit_eq hb, hstray, Bool.or_true]
  have hall : ∀ c ∈ (loopStart base s).2.takeWhile (isDigitOf (loopStart base s).1),
      looseDigit (loopStart base s).1 c = true := by
    intro c hc
    rw [looseDigit_eq hb, List.mem_takeWhile_imp hc, Bool.true_or]
  rw [hw] at hsplit
  have htake : looseDigits base s ≠ [] := by
    rw [looseDigits, ← hsplit, List.takeWhile_append_of_pos hall, List.takeWhile_cons_of_pos hloose]
    simp
  rw [strtol_endptr, if_neg htake, ← hsplit, List.dropWhile_append_of_pos hall,
    List.dropWhile_cons_of_pos hloose]
  exact List.length_dropWhile_le _ _

/-- Without a stray character the loop takes the digits of the base. -/
theorem loose_of_noStray (hb : (loopStart base s).1 ≤ 36)
    (hnone : ∀ c ∈ ((loopStart base s).2.dropWhile (isDigitOf (loopStart base s).1)).head?,
      strayDigit (loopStart base s).1 c = false) :
    looseDigits base s = (loopStart base s).2.takeWhile (isDigitOf (loopStart base s).1) ∧
      (loopStart base s).2.dropWhile (looseDigit (loopStart base s).1) =
        (loopStart base s).2.dropWhile (isDigitOf (loopStart base s).1) := by
  unfold looseDigits
  have hsplit := List.takeWhile_append_dropWhile (p := isDigitOf (loopStart base s).1) (l := (loopStart base s).2)
  have hall : ∀ c ∈ (loopStart base s).2.takeWhile (isDigitOf (loopStart base s).1),
      looseDigit (loopStart base s).1 c = true := by
    intro c hc
    rw [looseDigit_eq hb, List.mem_takeWhile_imp hc, Bool.true_or]
  cases hrest : (loopStart base s).2.dropWhile (isDigitOf (loopStart base s).1) with
  | nil =>
    rw [hrest, List.append_nil] at hsplit
    rw [hsplit] at hall
    exact ⟨(List.takeWhile_eq_self_iff.mpr hall).trans hsplit.symm, List.dropWhile_eq_nil_iff.mpr hall⟩
  | cons c r =>
    have hdigit : isDigitOf (loopStart base s).1 c = false := by
      have h := List.head_dropWhile_not (isDigitOf (loopStart base s).1) (l := (loopStart base s).2)
        (by rw [hrest]; exact List.cons_ne_nil _ _)
      simpa [hrest] using h
    have hloose : ¬looseDigit (loopStart base s).1 c = true := by
      rw [looseDigit_eq hb, hdigit, hnone c (by rw [hrest]; rfl)]
      decide
    rw [hrest] at hsplit
    constructor
    · conv_lhs => rw [← hsplit]
      rw [List.takeWhile_append_of_pos hall, List.takeWhile_cons_of_neg hloose, List.append_nil]
    · conv_lhs => rw [← hsplit]
      rw [List.dropWhile_append_of_pos hall, List.dropWhile_cons_of_neg hloose]

/-- A prefix without a digit is not read as the zero that it begins with. -/
theorem strtol_of_prefix (hbase : base = 0 ∨ base = 16) (hb : (loopStart base s).1 ≤ 36)
    (hzero : (unsignedPart s).2.head? = some 48)
    (hnone : ∀ c ∈ (loopStart base s).2.head?, isDigitOf (loopStart base s).1 c = false) :
    strtol s base ≠ reference base s := by
  have hskip : skipPrefix base (unsignedPart s).2 = ((loopStart base s).1, (loopStart base s).2) := rfl
  obtain ⟨n, rest, hn, hrest⟩ := numeral_of_zero hskip hbase hzero hnone
  have hshort := numeral_rest_lt hn
  intro heq
  have hend := congrArg (fun r => r.endptr.length) heq
  rw [reference_endptr_some hn] at hend
  cases hw : (loopStart base s).2 with
  | nil =>
    rw [strtol_endptr, if_pos (by rw [looseDigits, hw]; rfl)] at hend
    omega
  | cons c r =>
    have hdigit : isDigitOf (loopStart base s).1 c = false := hnone c (by rw [hw]; rfl)
    cases hstray : strayDigit (loopStart base s).1 c with
    | true =>
      have hle := strtol_of_stray hb (by rw [hw]; exact List.dropWhile_cons_of_neg (by simp [hdigit])) hstray
      have hlong := hrest c (by rw [hw]; rfl) hstray
      rw [hw, List.length_cons] at hlong
      omega
    | false =>
      have hloose : ¬looseDigit (loopStart base s).1 c = true := by
        rw [looseDigit_eq hb, hdigit, hstray]
        decide
      rw [strtol_endptr, if_pos (by rw [looseDigits, hw]; exact List.takeWhile_cons_of_neg hloose)] at hend
      omega

theorem loopStart_length_le : (loopStart base s).2.length ≤ s.length := by
  refine le_trans ?_ (unsignedPart_length_le s)
  unfold loopStart
  generalize (unsignedPart s).2 = w
  cases skipped base w with
  | hex hw _ _ hskip =>
    rw [hskip, hw]
    simp only [List.length_cons]
    omega
  | zero hw _ hskip =>
    rw [hskip, hw]
    simp only [List.length_cons]
    omega
  | none _ hskip => rw [hskip]

theorem numeral_loopStart (hafter : base = 0 ∨ base = 16 → (unsignedPart s).2.head? = some 48 →
      ∃ c ∈ (loopStart base s).2.head?, isDigitOf (loopStart base s).1 c) :
    numeral base (unsignedPart s).2 =
      if (loopStart base s).2.takeWhile (isDigitOf (loopStart base s).1) = [] then none
      else some (digitsVal (loopStart base s).1 ((loopStart base s).2.takeWhile (isDigitOf (loopStart base s).1)),
        (loopStart base s).2.dropWhile (isDigitOf (loopStart base s).1)) :=
  numeral_eq rfl hafter

/-- With a digit after a prefix and no stray character, the conversion is right but for the least number. -/
theorem strtol_eq_reference_iff (hb : 0 < (loopStart base s).1 ∧ (loopStart base s).1 ≤ 36)
    (hafter : base = 0 ∨ base = 16 → (unsignedPart s).2.head? = some 48 →
      ∃ c ∈ (loopStart base s).2.head?, isDigitOf (loopStart base s).1 c)
    (hnone : ∀ c ∈ ((loopStart base s).2.dropWhile (isDigitOf (loopStart base s).1)).head?,
      strayDigit (loopStart base s).1 c = false) :
    strtol s base = reference base s ↔ signed (unsignedPart s).1 (digitsVal (loopStart base s).1
      ((loopStart base s).2.takeWhile (isDigitOf (loopStart base s).1))) ≠ longMin := by
  obtain ⟨htake, hdrop⟩ := loose_of_noStray hb.2 hnone
  have hread := numeral_loopStart hafter
  have hsum : Summed (loopStart base s).1 (looseDigits base s) (computed base s) :=
    convert_summed hb.1 fun c hc => by
      rw [htake] at hc
      exact List.mem_takeWhile_imp hc
  rw [← htake] at hread ⊢
  rw [strtol_eq, reference, hread, hdrop]
  dsimp only
  rw [hsum.sawADigit]
  by_cases hempty : looseDigits base s = []
  · rw [if_pos hempty, if_pos (by simpa using hempty), hempty]
    dsimp only
    unfold signed digitsVal
    split <;> simp [longMin]
  · rw [if_neg hempty, if_neg (by simpa using hempty)]
    dsimp only
    have hnonneg : (0 : ℤ) ≤ digitsVal (loopStart base s).1 (looseDigits base s) := Int.natCast_nonneg _
    cases hover : (computed base s).overflow with
    | true =>
      have hlarge := hsum.overflow.mp hover
      rw [if_pos rfl]
      unfold signed bounded
      cases (unsignedPart s).1 with
      | false =>
        simp only [Bool.false_eq_true, if_false]
        rw [if_pos hlarge]
        simp only [true_iff]
        unfold longMin longMax at *
        omega
      | true =>
        simp only [if_true]
        rw [if_neg (by unfold longMax; omega)]
        unfold longMin longMax at *
        split_ifs with hless
        · simp only [true_iff]
          omega
        · simp
          omega
    | false =>
      have hsmall := (not_congr hsum.overflow).mp (by simp [hover])
      rw [if_neg (by decide), hsum.result hover]
      unfold signed bounded
      unfold longMin longMax at *
      cases (unsignedPart s).1 with
      | false =>
        simp only [Bool.false_eq_true, if_false]
        rw [if_neg (by omega), if_neg (by omega)]
        simp only [true_iff]
        omega
      | true =>
        simp only [if_true]
        rw [if_neg (by omega), if_neg (by omega)]
        simp only [zero_sub, true_iff]
        omega

/-- `strtol` is right exactly for the numbers in a plain form. -/
theorem strtol_correct_iff (base : ℕ) (s : CString) (hbase : base = 0 ∨ 2 ≤ base ∧ base ≤ 36) :
    Correct base s (strtol s base) ↔ Plain base s := by
  have hb := loopStart_base (s := s) hbase
  rw [correct_iff_reference]
  constructor
  · intro heq
    have hafter : base = 0 ∨ base = 16 → (unsignedPart s).2.head? = some 48 →
        ∃ c ∈ (loopStart base s).2.head?, isDigitOf (loopStart base s).1 c := by
      intro hbase hzero
      by_contra hnone
      refine strtol_of_prefix hbase hb.2 hzero (fun c hc => ?_) heq
      rw [← Bool.not_eq_true]
      exact fun hdigit => hnone ⟨c, hc, hdigit⟩
    have hstray : ∀ c ∈ ((loopStart base s).2.dropWhile (isDigitOf (loopStart base s).1)).head?,
        strayDigit (loopStart base s).1 c = false := by
      intro c hc
      rw [← Bool.not_eq_true]
      intro hstray
      obtain ⟨r, hr⟩ := List.head?_eq_some_iff.mp hc
      have hle := strtol_of_stray hb.2 hr hstray
      -- what is read by the grammar ends before the stray character
      have hlong : r.length < (reference base s).endptr.length := by
        have hrest : r.length < ((loopStart base s).2.dropWhile (isDigitOf (loopStart base s).1)).length := by
          rw [hr]
          exact Nat.lt_succ_self _
        have hread := numeral_loopStart hafter
        split_ifs at hread with hempty
        · rw [reference_endptr_none hread]
          exact hrest.trans_le ((List.length_dropWhile_le _ _).trans loopStart_length_le)
        · rwa [reference_endptr_some hread]
      rw [heq] at hle
      omega
    exact ⟨hafter, hstray, (strtol_eq_reference_iff hb hafter hstray).mp heq⟩
  · intro h
    exact (strtol_eq_reference_iff hb h.prefixDigit h.noStray).mpr h.notLeast

end

/-- `12` in base 10. -/
theorem strtol_correct_iff_twelve : Correct 10 [49, 50] (strtol [49, 50] 10) := by
  refine (strtol_correct_iff 10 [49, 50] (by decide)).mpr ⟨fun h => ?_, ?_, ?_⟩
  · omega
  · decide
  · decide

/-- A zero alone is not converted when the base is to be found from it. -/
theorem strtol_zero : Accepts 0 [48] 0 ∧ (strtol [48] 0).endptr = [48] ∧
    ¬Correct 0 [48] (strtol [48] 0) := by
  have haccepts : Accepts 0 [48] 0 := @Accepts.unsigned 0 [] _ _ (by simp) (@Numeral.octal [] (by simp))
  refine ⟨haccepts, by decide, ?_⟩
  rintro (⟨v, rest, hlongest, hr⟩ | ⟨hnone, -⟩)
  · have hle := hlongest.longest [48] [] 0 rfl haccepts
    have hend : (strtol [48] 0).endptr = rest := by
      rw [hr]
      unfold bounded
      split_ifs <;> rfl
    rw [← hend] at hle
    exact absurd hle (by decide)
  · exact hnone [48] [] 0 rfl haccepts

end LisaMinix.Libc
