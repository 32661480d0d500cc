import LisaMinix.Libc.Ctype
import Mathlib.Data.List.GetD

/-!
# Time

`mktime`, `gmtime` and `localtime` of `ctime.c`, with the time zones that `TZ` describes.

- `gmtime`, `localtime`, `mktime`: the functions.
- `seconds`, `Proper`: the calendar, by the lengths of its years and months.
- `gmtime_seconds`, `exists_proper`: `gmtime` inverts the calendar.
- `localtime_mktime_iff`: the times that `mktime` gives back.
-/

namespace LisaMinix.Libc

variable {n k fuel : ℕ} {lengths : List ℤ}

/-! ## §1 The Functions -/

/-- A `long`, and an `int` of 16 bits. -/
def long (x : ℤ) : ℤ := (x + 2 ^ 31) % 2 ^ 32 - 2 ^ 31
def int (x : ℤ) : ℤ := (x + 2 ^ 15) % 2 ^ 16 - 2 ^ 15

def secsPerMin : ℤ := 60
def secsPerHour : ℤ := 60 * secsPerMin
def secsPerDay : ℤ := 24 * secsPerHour
def secsPerYear : ℤ := 365 * secsPerDay
def secsPerLeapyear : ℤ := secsPerDay + secsPerYear

/-- `struct tm` -/
structure Tm where
  sec : ℤ
  min : ℤ
  hour : ℤ
  mday : ℤ
  mon : ℤ
  year : ℤ
  wday : ℤ
  yday : ℤ
  isdst : ℤ
  deriving DecidableEq

/-- `days_per_mth`, with the length of February that is set in it. -/
def daysPerMth (february : ℤ) : List ℤ := [31, february, 31, 30, 31, 30, 31, 31, 30, 31, 30, 31]

/-- `timezone` and `dst` -/
structure Zone where
  timezone : ℤ
  dst : ℤ
  deriving DecidableEq

/-- The digits at the beginning of a string, as an `int`, and the rest. -/
def toints : CString → ℤ → ℤ × CString
  | [], x => (x, [])
  | c :: s, x => if isdigit c then toints s (int (10 * x + (c - 48))) else (x, c :: s)

/-- `tzoffset(s, hasdst)` -/
def tzoffset : Option CString → Zone
  | none => { timezone := 0, dst := -1 }
  | some [] => { timezone := 0, dst := -1 }
  | some s =>
    let s := s.dropWhile isalpha
    let (sgn, s) := match s with
      | 45 :: s => ((-1 : ℤ), s)
      | s => (1, s)
    let (x, s) := toints s 0
    let off := x * secsPerHour
    let (off, s) := match s with
      | 58 :: s => let (x, s) := toints s 0; (off + x * secsPerMin, s)
      | s => (off, s)
    { timezone := sgn * off, dst := if s.head?.any isalpha then 1 else 0 }

/-- `if (timezone == -1) tzset()` -/
def tzset (env : Option CString) (g : Zone) : Zone := if g.timezone = -1 then tzoffset env else g

/-- `timezone` and `dst` before anything is called. -/
def noZone : Zone := { timezone := -1, dst := -1 }

/-- The loop of `gmtime` over the years. -/
def yearLoop : ℕ → ℤ → ℤ → ℤ × ℤ
  | 0, year, time => (year, time)
  | n + 1, year, time =>
    if time < secsPerYear then (year, time)
    else if year % 4 = 0 then
      if time < secsPerLeapyear then (year, time) else yearLoop n (year + 1) (time - secsPerLeapyear)
    else yearLoop n (year + 1) (time - secsPerYear)

/-- The loop of `gmtime` over the months. -/
def monthLoop : List ℤ → ℤ → ℤ → ℤ × ℤ
  | [], i, mday => (i, mday)
  | n :: lengths, i, mday => if n ≤ mday then monthLoop lengths (i + 1) (mday - n) else (i, mday)

/-- `gmtime(t)`; each turn of the loop takes at least `SECS_PER_YEAR`. -/
def gmtime (t : ℤ) : Option Tm :=
  if t < 0 then none
  else
    let (year, time) := yearLoop ((t / secsPerYear).toNat + 1) 70 t
    let yday := time / secsPerDay
    let (mon, mday) := monthLoop (daysPerMth (if year % 4 ≠ 0 then 28 else 29)) 0 yday
    let wday := (t / secsPerDay + 4) % 7
    let time := time % secsPerDay
    let hour := time / secsPerHour
    let time := time % secsPerHour
    some
      { sec := time % secsPerMin
        min := time / secsPerMin
        hour
        mday := mday + 1
        mon
        year
        wday
        yday
        isdst := 0 }

/-- `indst(t)` -/
def indst (t : Tm) : Bool :=
  if t.mon = 3 then (t.year < 87 ∧ t.wday + 30 - t.mday < 7) ∨ t.wday - t.mday < 0
  else if t.mon = 9 then ¬t.wday + 31 - t.mday < 7
  else 3 < t.mon ∧ t.mon < 9

/-- An hour of daylight saving time is added. -/
def addHour (t : Tm) : Tm :=
  if 23 < t.hour + 1 then
    let length := (daysPerMth (if t.year % 4 ≠ 0 then 28 else 29)).getD t.mon.toNat 0
    let mday := t.mday + 1
    { t with
      isdst := 1
      hour := t.hour + 1 - 24
      wday := (t.wday + 1) % 7
      yday := t.yday + 1
      mday := if length < mday then 1 else mday
      mon := if length < mday then t.mon + 1 else t.mon }
  else { t with isdst := 1, hour := t.hour + 1 }

/-- `localtime(t)`, and `timezone` and `dst` after it. -/
def localtime (env : Option CString) (g : Zone) (t : ℤ) : Zone × Option Tm :=
  let g := tzset env g
  match gmtime (long (t - g.timezone)) with
  | none => (g, none)
  | some stm =>
    let stm := { stm with isdst := if g.dst = -1 then -1 else 0 }
    (g, some (if g.dst = 1 ∧ indst stm then addHour stm else stm))

/-- `mktime(t)` -/
def mktime (env : Option CString) (g : Zone) (t : Tm) : ℤ :=
  let y := t.year - 70
  if y < 0 then -1
  else
    let s := secsPerYear * y + (y + 1) / 4 * secsPerDay
    let s := s + secsPerDay *
      ((daysPerMth (if (y + 2) % 4 ≠ 0 then 28 else 29)).take t.mon.toNat).sum
    let s := s + (t.mday - 1) * secsPerDay + t.hour * secsPerHour + t.min * secsPerMin + t.sec
    let g := tzset env g
    let s := s + g.timezone
    long (if g.dst = 1 ∧ indst t then s - secsPerHour else s)

/-! ## §2 The Calendar -/

/-- The leap years of the Gregorian calendar. -/
def leapYear (year : ℤ) : Prop := year % 4 = 0 ∧ (year % 100 ≠ 0 ∨ year % 400 = 0)

instance (year : ℤ) : Decidable (leapYear year) := inferInstanceAs (Decidable (_ ∧ _))

/-- The lengths of the months of a year. -/
def monthLengths (year : ℤ) : List ℤ := daysPerMth (if leapYear year then 29 else 28)

/-- The day on which the year `1970 + n` begins; day 0 is the first one of 1970. -/
def yearStart : ℕ → ℤ
  | 0 => 0
  | n + 1 => yearStart n + (monthLengths (1970 + n)).sum

/-- The day of a date of the year `1970 + n`. -/
def dayNumber (n m : ℕ) (mday : ℤ) : ℤ := yearStart n + ((monthLengths (1970 + n)).take m).sum + (mday - 1)

/-- Day 0 is a Thursday. -/
def weekday (day : ℤ) : ℤ := (day + 4) % 7

/-- The fields are in range, and the day of the week and of the year are those of the date. -/
structure Proper (n m : ℕ) (t : Tm) : Prop where
  sec : 0 ≤ t.sec ∧ t.sec < 60
  min : 0 ≤ t.min ∧ t.min < 60
  hour : 0 ≤ t.hour ∧ t.hour < 24
  mon : t.mon = m ∧ m < 12
  mday : 1 ≤ t.mday ∧ t.mday ≤ (monthLengths (1970 + n)).getD m 0
  year : t.year = 70 + n
  wday : t.wday = weekday (dayNumber n m t.mday)
  yday : t.yday = dayNumber n m t.mday - yearStart n

/-- The seconds from the beginning of 1970 to a time. -/
def seconds (n m : ℕ) (t : Tm) : ℤ :=
  dayNumber n m t.mday * secsPerDay + t.hour * secsPerHour + t.min * secsPerMin + t.sec

/-- Up to 2100 every fourth year is a leap year. -/
theorem leapYear_iff (h : n < 130) : leapYear (1970 + n) ↔ (70 + n : ℤ) % 4 = 0 := by
  unfold leapYear
  omega

theorem monthLengths_eq (h : n < 130) :
    monthLengths (1970 + n) = daysPerMth (if (70 + n : ℤ) % 4 ≠ 0 then 28 else 29) := by
  unfold monthLengths
  rw [ite_not]
  simp only [leapYear_iff h]

theorem sum_daysPerMth (february : ℤ) : (daysPerMth february).sum = 337 + february := by
  simp only [daysPerMth, List.sum_cons, List.sum_nil]
  ring

/-- The days of the years before, as `mktime` computes them. -/
theorem yearStart_eq (h : n ≤ 130) : yearStart n = 365 * n + (n + 1) / 4 := by
  induction n with
  | zero => rfl
  | succ n ih =>
    rw [yearStart, ih (by omega), monthLengths_eq (by omega), sum_daysPerMth]
    push_cast
    split_ifs <;> omega

theorem monthLengths_pos {year n : ℤ} (h : n ∈ monthLengths year) : 0 < n := by
  unfold monthLengths daysPerMth at h
  simp only [List.mem_cons, List.not_mem_nil, or_false] at h
  split_ifs at h <;> omega

/-! ## §3 `gmtime` -/

/-- The loop over the months finds the month of a day. -/
theorem monthLoop_take (hpos : ∀ n ∈ lengths, 0 < n) (hk : k < lengths.length) {m : ℤ} (hm0 : 0 ≤ m)
    (hm : m < lengths.getD k 0) (i : ℤ) :
    monthLoop lengths i ((lengths.take k).sum + m) = (i + k, m) := by
  induction lengths generalizing k i with
  | nil => cases hk
  | cons n lengths ih =>
    cases k with
    | zero =>
      have hlt : m < n := by simpa using hm
      rw [monthLoop, if_neg (by simp; omega)]
      simp
    | succ k =>
      have hsum : 0 ≤ (lengths.take k).sum :=
        List.sum_nonneg fun x hx => (hpos x (List.mem_cons_of_mem _ (List.mem_of_mem_take hx))).le
      rw [List.take_succ_cons, List.sum_cons, monthLoop, if_pos (by omega),
        show n + (lengths.take k).sum + m - n = (lengths.take k).sum + m by ring,
        ih (fun x hx => hpos x (List.mem_cons_of_mem _ hx)) (by simpa using hk) (by simpa using hm)]
      push_cast
      rw [show i + 1 + (k : ℤ) = i + (k + 1) by ring]

/-- Every day of the year is in a month. -/
theorem exists_month {d : ℤ} (h0 : 0 ≤ d) (h : d < lengths.sum) :
    ∃ k < lengths.length, ∃ m, 0 ≤ m ∧ m < lengths.getD k 0 ∧ d = (lengths.take k).sum + m := by
  induction lengths generalizing d with
  | nil => simp at h; omega
  | cons n lengths ih =>
    rw [List.sum_cons] at h
    rcases lt_or_ge d n with hlt | hge
    · exact ⟨0, by simp, d, h0, by simpa using hlt, by simp⟩
    · obtain ⟨k, hk, m, hm0, hm, hd⟩ := ih (sub_nonneg.mpr hge) (by omega)
      refine ⟨k + 1, by simpa using hk, m, hm0, by simpa using hm, ?_⟩
      rw [List.take_succ_cons, List.sum_cons]
      omega

theorem yearLength_eq (h : n < 130) :
    (monthLengths (1970 + n)).sum = if (70 + n : ℤ) % 4 = 0 then 366 else 365 := by
  rw [monthLengths_eq h, sum_daysPerMth, ite_not]
  split_ifs <;> rfl

/-- The loop ends in a year that is not over. -/
theorem yearLoop_stop {time : ℤ} (hn : n < 130)
    (h : time < (monthLengths (1970 + n)).sum * secsPerDay) :
    yearLoop (fuel + 1) (70 + n) time = ((70 + n : ℤ), time) := by
  rw [yearLength_eq hn] at h
  unfold yearLoop secsPerLeapyear secsPerYear
  unfold secsPerDay secsPerHour secsPerMin at *
  split_ifs at h ⊢ <;> first | rfl | omega

/-- The loop goes on after a year. -/
theorem yearLoop_next {time : ℤ} (hn : n < 130)
    (h : (monthLengths (1970 + n)).sum * secsPerDay ≤ time) :
    yearLoop (fuel + 1) (70 + n) time =
      yearLoop fuel (70 + (n + 1 : ℕ)) (time - (monthLengths (1970 + n)).sum * secsPerDay) := by
  rw [yearLength_eq hn] at h ⊢
  have hyear : (70 + (n + 1 : ℕ) : ℤ) = 70 + n + 1 := by push_cast; ring
  rw [hyear]
  have hday : secsPerDay = 86400 := rfl
  conv_lhs => unfold yearLoop
  by_cases hleap : (70 + n : ℤ) % 4 = 0
  · rw [if_pos hleap] at h ⊢
    rw [if_neg (by unfold secsPerYear; omega), if_pos hleap, if_neg (by unfold secsPerLeapyear secsPerYear; omega),
      show secsPerLeapyear = 366 * secsPerDay from rfl]
  · rw [if_neg hleap] at h ⊢
    rw [if_neg (by unfold secsPerYear; omega), if_neg hleap]
    rfl

/-- The loop over the years finds the year of a time. -/
theorem yearLoop_yearStart {r : ℤ} (hn : n + k < 130) (hr0 : 0 ≤ r)
    (hr : r < (monthLengths (1970 + (n + k : ℕ))).sum * secsPerDay) :
    yearLoop (fuel + k + 1) (70 + n) ((yearStart (n + k) - yearStart n) * secsPerDay + r) =
      ((70 + (n + k : ℕ) : ℤ), r) := by
  induction k generalizing n with
  | zero =>
    simp only [Nat.add_zero, sub_self, zero_mul, zero_add] at hr ⊢
    exact yearLoop_stop hn hr
  | succ k ih =>
    have hcomm : n + (k + 1) = n + 1 + k := by omega
    rw [hcomm] at hn hr ⊢
    have hmono : 0 ≤ yearStart (n + 1 + k) - yearStart (n + 1) := by
      rw [yearStart_eq (by omega), yearStart_eq (by omega)]
      push_cast
      omega
    have hsplit : (yearStart (n + 1 + k) - yearStart n) * secsPerDay + r =
        (yearStart (n + 1 + k) - yearStart (n + 1)) * secsPerDay + r +
          (monthLengths (1970 + n)).sum * secsPerDay := by
      rw [show yearStart (n + 1) = yearStart n + (monthLengths (1970 + n)).sum from rfl]
      ring
    have hrest : 0 ≤ (yearStart (n + 1 + k) - yearStart (n + 1)) * secsPerDay :=
      mul_nonneg hmono (by decide)
    rw [hsplit, show fuel + (k + 1) + 1 = fuel + k + 1 + 1 by omega, yearLoop_next (by omega) (by omega),
      add_sub_cancel_right]
    exact ih hn hr

/-- A month is over before the year is. -/
theorem sum_take_add_le (hpos : ∀ n ∈ lengths, 0 < n) (hk : k < lengths.length) :
    0 ≤ (lengths.take k).sum ∧ (lengths.take k).sum + lengths.getD k 0 ≤ lengths.sum := by
  induction lengths generalizing k with
  | nil => cases hk
  | cons n lengths ih =>
    have hn : 0 < n := hpos n List.mem_cons_self
    have hrest : ∀ x ∈ lengths, 0 < x := fun x hx => hpos x (List.mem_cons_of_mem _ hx)
    cases k with
    | zero =>
      have hsum : 0 ≤ lengths.sum := List.sum_nonneg fun x hx => (hrest x hx).le
      simpa using hsum
    | succ k =>
      have h := ih hrest (Nat.lt_of_succ_lt_succ hk)
      rw [List.take_succ_cons, List.sum_cons, List.sum_cons, List.getD_cons_succ]
      omega

section

variable {n m : ℕ} {t : Tm}

theorem monthLengths_length (year : ℤ) : (monthLengths year).length = 12 := rfl

/-- The day of the year. -/
theorem Proper.yday_eq (h : Proper n m t) :
    t.yday = ((monthLengths (1970 + n)).take m).sum + (t.mday - 1) := by
  rw [h.yday, dayNumber]
  ring

theorem Proper.yday_lt (h : Proper n m t) : 0 ≤ t.yday ∧ t.yday < (monthLengths (1970 + n)).sum := by
  have hsum := sum_take_add_le (fun _ => @monthLengths_pos (1970 + n) _)
    (by rw [monthLengths_length]; exact h.mon.2)
  have hday := h.mday
  rw [h.yday_eq]
  omega

theorem seconds_eq (h : Proper n m t) : seconds n m t =
    (yearStart n + t.yday) * secsPerDay + (t.hour * secsPerHour + t.min * secsPerMin + t.sec) := by
  rw [h.yday, seconds]
  ring

/-- The part of a time after its day. -/
theorem Proper.clock (h : Proper n m t) : 0 ≤ t.hour * secsPerHour + t.min * secsPerMin + t.sec ∧
    t.hour * secsPerHour + t.min * secsPerMin + t.sec < secsPerDay := by
  have := h.sec
  have := h.min
  have := h.hour
  unfold secsPerDay secsPerHour secsPerMin
  omega

/-- `gmtime` takes the calendar apart. -/
theorem gmtime_seconds (h : Proper n m t) (hn : n < 130) (hdst : t.isdst = 0) :
    gmtime (seconds n m t) = some t := by
  have hclock := h.clock
  have hyday := h.yday_lt
  have hstart : yearStart n = 365 * n + (n + 1) / 4 := yearStart_eq (by omega)
  have hday : secsPerDay = 86400 := rfl
  have hseconds := seconds_eq h
  generalize hrest : t.hour * secsPerHour + t.min * secsPerMin + t.sec = rest at hclock hseconds
  have hnonneg : 0 ≤ seconds n m t := by
    rw [hseconds, hday]
    omega
  have hfuel : n ≤ (seconds n m t / secsPerYear).toNat := by
    have : (n : ℤ) ≤ seconds n m t / secsPerYear := by
      rw [Int.le_ediv_iff_mul_le (by decide), hseconds, hday]
      unfold secsPerYear
      rw [hday]
      omega
    omega
  have hyear : yearLoop ((seconds n m t / secsPerYear).toNat + 1) 70 (seconds n m t) =
      (t.year, t.yday * secsPerDay + rest) := by
    obtain ⟨fuel, hfuel⟩ := Nat.exists_eq_add_of_le' hfuel
    have hloop := @yearLoop_yearStart 0 n fuel (t.yday * secsPerDay + rest)
      (by omega) (by rw [hday]; omega) (by rw [Nat.zero_add, hday] at *; omega)
    rw [hfuel, hseconds, h.year]
    simp only [Nat.zero_add, yearStart, Nat.cast_zero, add_zero, sub_zero] at hloop
    rw [← hloop]
    congr 1
    ring
  have hmonth : monthLoop (daysPerMth (if t.year % 4 ≠ 0 then 28 else 29)) 0 t.yday = (t.mon, t.mday - 1) := by
    rw [h.year, ← monthLengths_eq hn, h.yday_eq,
      monthLoop_take (fun _ => monthLengths_pos) (by rw [monthLengths_length]; exact h.mon.2)
        (by have := h.mday; omega) (by have := h.mday; omega), h.mon.1, zero_add]
  have hwday : (seconds n m t / secsPerDay + 4) % 7 = t.wday := by
    rw [h.wday, weekday, dayNumber, hseconds, hday]
    have := h.yday_eq
    omega
  have hdiv : (t.yday * secsPerDay + rest) / secsPerDay = t.yday := by
    rw [hday]
    omega
  have hmod : (t.yday * secsPerDay + rest) % secsPerDay = rest := by
    rw [hday]
    omega
  have hfields : rest / secsPerHour = t.hour ∧ rest % secsPerHour / secsPerMin = t.min ∧
      rest % secsPerHour % secsPerMin = t.sec := by
    have := h.sec
    have := h.min
    have := h.hour
    rw [← hrest]
    unfold secsPerHour secsPerMin
    omega
  unfold gmtime
  rw [if_neg (not_lt.mpr hnonneg), hyear]
  dsimp only
  rw [hdiv, hmonth, hwday, hmod, hfields.1, hfields.2.1, hfields.2.2]
  dsimp only
  rw [sub_add_cancel, ← hdst]

/-- Every day is in a year. -/
theorem exists_year {N : ℕ} {d : ℤ} (h0 : 0 ≤ d) (h : d < yearStart N) :
    ∃ n < N, yearStart n ≤ d ∧ d < yearStart (n + 1) := by
  induction N with
  | zero => exact absurd h (not_lt.mpr h0)
  | succ N ih =>
    rcases lt_or_ge d (yearStart N) with hlt | hge
    · obtain ⟨n, hn, hyear⟩ := ih hlt
      exact ⟨n, hn.trans (Nat.lt_succ_self N), hyear⟩
    · exact ⟨N, Nat.lt_succ_self N, hge, h⟩

/-- Every time is that of a date. -/
theorem exists_proper {time : ℤ} (h0 : 0 ≤ time) (h : time < 2 ^ 31) :
    ∃ n m t, Proper n m t ∧ n < 69 ∧ t.isdst = 0 ∧ seconds n m t = time := by
  have hday : secsPerDay = 86400 := rfl
  have hlast : yearStart 69 = 365 * (69 : ℕ) + ((69 : ℕ) + 1) / 4 := yearStart_eq (by decide)
  obtain ⟨n, hn, hstart, hend⟩ := exists_year (N := 69) (d := time / secsPerDay)
    (Int.ediv_nonneg h0 (by decide)) (by rw [hlast, hday]; omega)
  rw [yearStart] at hend
  obtain ⟨m, hm, d, hd0, hd, hyday⟩ := @exists_month (monthLengths (1970 + n))
    (time / secsPerDay - yearStart n) (by omega) (by omega)
  have hnumber : dayNumber n m (d + 1) = time / secsPerDay := by
    rw [dayNumber]
    omega
  refine ⟨n, m,
    { sec := time % secsPerDay % secsPerHour % secsPerMin
      min := time % secsPerDay % secsPerHour / secsPerMin
      hour := time % secsPerDay / secsPerHour
      mday := d + 1
      mon := m
      year := 70 + n
      wday := weekday (dayNumber n m (d + 1))
      yday := dayNumber n m (d + 1) - yearStart n
      isdst := 0 }, ?_, hn, rfl, ?_⟩
  · unfold secsPerDay secsPerHour secsPerMin
    exact
      { sec := by dsimp only; omega
        min := by dsimp only; omega
        hour := by dsimp only; omega
        mon := ⟨rfl, hm⟩
        mday := by dsimp only; omega
        year := rfl
        wday := rfl
        yday := rfl }
  · rw [seconds]
    dsimp only
    rw [hnumber]
    unfold secsPerDay secsPerHour secsPerMin
    omega

/-! ## §4 `mktime` and Daylight Saving Time -/

theorem tzset_idem (env : Option CString) (g : Zone) : tzset env (tzset env g) = tzset env g := by
  unfold tzset
  split_ifs <;> rfl

/-- `mktime` puts the calendar together. -/
theorem mktime_eq (env : Option CString) (g : Zone) (h : Proper n m t) (hn : n < 130) :
    mktime env g t = long (seconds n m t + (tzset env g).timezone -
      if (tzset env g).dst = 1 ∧ indst t then secsPerHour else 0) := by
  have hyear : t.year - 70 = n := by
    rw [h.year]
    ring
  have hlength : daysPerMth (if ((n : ℤ) + 2) % 4 ≠ 0 then 28 else 29) = monthLengths (1970 + n) := by
    rw [monthLengths_eq hn]
    congr 2
    exact propext (by omega)
  have hmon : t.mon.toNat = m := by
    rw [h.mon.1]
    rfl
  have hstart : secsPerYear * n + (n + 1) / 4 * secsPerDay = yearStart n * secsPerDay := by
    rw [yearStart_eq (by omega), show secsPerYear = 365 * secsPerDay from rfl]
    ring
  unfold mktime
  rw [hyear, if_neg (by omega), hlength, hmon, hstart, seconds, dayNumber]
  dsimp only
  split_ifs
  · congr 1
    ring
  · congr 1
    ring

/-- The hour before the last Sunday of October. -/
structure LastHour (t : Tm) : Prop where
  mon : t.mon = 9
  wday : t.wday = 6
  hour : t.hour = 23
  mday : 24 ≤ t.mday ∧ t.mday ≤ 30

theorem addHour_length (h : Proper n m t) (hn : n < 130) :
    (daysPerMth (if t.year % 4 ≠ 0 then 28 else 29)).getD t.mon.toNat 0 =
      (monthLengths (1970 + n)).getD m 0 := by
  rw [h.year, ← monthLengths_eq hn, h.mon.1]
  rfl

/-- An hour of daylight saving time is added within the year. -/
theorem addHour_proper (h : Proper n m t) (hn : n < 130) (hin : indst t = true) :
    ∃ m', Proper n m' (addHour t) ∧ seconds n m' (addHour t) = seconds n m t + secsPerHour := by
  have hlength := addHour_length h hn
  have hhour := h.hour
  have hwday := h.wday
  have hyday := h.yday
  unfold weekday at hwday
  unfold addHour
  rw [hlength]
  by_cases hlate : 23 < t.hour + 1
  · rw [if_pos hlate]
    have htime : (t.hour + 1 - 24) * secsPerHour + secsPerDay = t.hour * secsPerHour + secsPerHour := by
      unfold secsPerDay
      ring
    by_cases hmonth : (monthLengths (1970 + n)).getD m 0 < t.mday + 1
    · -- the day is the first one of the next month
      have hm : m < 11 := by
        have hmon := h.mon.1
        unfold indst at hin
        split_ifs at hin <;> simp at hin <;> omega
      have hlast : t.mday = (monthLengths (1970 + n)).getD m 0 := by
        have := h.mday
        omega
      have hnumber : dayNumber n (m + 1) 1 = dayNumber n m t.mday + 1 := by
        have hm' : m < (monthLengths (1970 + n)).length := by
          rw [monthLengths_length]
          omega
        rw [dayNumber, dayNumber, List.sum_take_succ _ _ hm', hlast, List.getD_eq_getElem _ _ hm']
        ring
      have hnext : 1 ≤ (monthLengths (1970 + n)).getD (m + 1) 0 := by
        have hm' : m + 1 < (monthLengths (1970 + n)).length := by
          rw [monthLengths_length]
          omega
        rw [List.getD_eq_getElem _ _ hm']
        exact monthLengths_pos (List.getElem_mem hm')
      dsimp only
      rw [if_pos hmonth, if_pos hmonth]
      refine ⟨m + 1, ⟨h.sec, h.min, by dsimp only; omega, ⟨by rw [h.mon.1]; push_cast; rfl, by omega⟩,
        ⟨le_rfl, hnext⟩, h.year, ?_, ?_⟩, ?_⟩
      · unfold weekday
        dsimp only
        rw [hnumber]
        omega
      · dsimp only
        rw [hnumber]
        omega
      · rw [seconds, seconds]
        dsimp only
        rw [hnumber]
        linear_combination htime
    · have hnumber : dayNumber n m (t.mday + 1) = dayNumber n m t.mday + 1 := by
        rw [dayNumber, dayNumber]
        ring
      dsimp only
      rw [if_neg hmonth, if_neg hmonth]
      refine ⟨m, ⟨h.sec, h.min, by dsimp only; omega, h.mon,
        ⟨by have := h.mday; dsimp only; omega, by dsimp only; omega⟩, h.year, ?_, ?_⟩, ?_⟩
      · unfold weekday
        dsimp only
        rw [hnumber]
        omega
      · dsimp only
        rw [hnumber]
        omega
      · rw [seconds, seconds]
        dsimp only
        rw [hnumber]
        linear_combination htime
  · rw [if_neg hlate]
    refine ⟨m, ⟨h.sec, h.min, by dsimp only; omega, h.mon, h.mday, h.year, h.wday, h.yday⟩, ?_⟩
    rw [seconds, seconds]
    ring

theorem indst_iff (t : Tm) : indst t = true ↔
    t.mon = 3 ∧ (t.year < 87 ∧ t.wday + 30 - t.mday < 7 ∨ t.wday - t.mday < 0) ∨
      t.mon = 9 ∧ 7 ≤ t.wday + 31 - t.mday ∨ 3 < t.mon ∧ t.mon < 9 := by
  unfold indst
  split_ifs with hapril hoctober
  · simp
    omega
  · simp
    omega
  · simp
    omega

/-- Daylight saving time is not seen any more when the hour that it adds leads into its last Sunday. -/
theorem indst_addHour_iff (h : Proper n m t) (hn : n < 130) (hin : indst t = true) :
    indst (addHour t) = true ↔ ¬LastHour t := by
  have hlast : LastHour t ↔ t.mon = 9 ∧ t.wday = 6 ∧ t.hour = 23 ∧ 24 ≤ t.mday ∧ t.mday ≤ 30 :=
    ⟨fun h => ⟨h.mon, h.wday, h.hour, h.mday⟩, fun h => ⟨h.1, h.2.1, h.2.2.1, h.2.2.2⟩⟩
  rw [hlast]
  have hlength := addHour_length h hn
  have happril : m = 3 → (monthLengths (1970 + n)).getD m 0 = 30 := fun hm => by rw [hm]; rfl
  have hoctober : m = 9 → (monthLengths (1970 + n)).getD m 0 = 31 := fun hm => by rw [hm]; rfl
  have hmon := h.mon.1
  have hwday : 0 ≤ t.wday ∧ t.wday < 7 := by
    rw [h.wday]
    unfold weekday
    omega
  have hhour := h.hour
  have hmday := h.mday
  rw [indst_iff] at hin ⊢
  unfold addHour
  rw [hlength]
  generalize (monthLengths (1970 + n)).getD m 0 = length at *
  by_cases hlate : 23 < t.hour + 1
  · rw [if_pos hlate]
    dsimp only
    -- the next day is in the same month, or the first one of the next
    rcases hin with ⟨hm, hin⟩ | ⟨hm, hin⟩ | ⟨hm, hin⟩
    · have hlength := happril (by omega)
      clear happril hoctober
      split_ifs with hcarry <;> omega
    · have hlength := hoctober (by omega)
      clear happril hoctober
      split_ifs with hcarry <;> omega
    · split_ifs with hcarry <;> omega
  · rw [if_neg hlate]
    dsimp only
    exact iff_of_true hin fun hall => by omega

end

/-! ## §5 The Round Trip -/

/-- A time, without daylight saving time, in the hour before the last Sunday of an October. -/
def LostHour (time : ℤ) : Prop := ∃ (n : ℕ) (mday : ℤ), 25 ≤ mday ∧ mday ≤ 31 ∧
  weekday (dayNumber n 9 mday) = 0 ∧
    dayNumber n 9 mday * secsPerDay - secsPerHour ≤ time ∧ time < dayNumber n 9 mday * secsPerDay

/-- `localtime` gives a date with all its fields, and `mktime` the time again, unless there is none. -/
def RoundTrip (env : Option CString) (g : Zone) (time : ℤ) : Prop :=
  ∀ tm, (localtime env g time).2 = some tm →
    mktime env (localtime env g time).1 tm = time ∧ ∃ n m, Proper n m tm

theorem yearStart_mono : Monotone yearStart := by
  refine monotone_nat_of_le_succ fun n => ?_
  have hsum : 0 ≤ (monthLengths (1970 + n)).sum := List.sum_nonneg fun x hx => (monthLengths_pos hx).le
  rw [yearStart]
  omega

section

variable {n m : ℕ} {t : Tm} {time : ℤ}

/-- The days of October. -/
theorem dayNumber_october (n : ℕ) (mday : ℤ) :
    yearStart n + 273 ≤ dayNumber n 9 mday - (mday - 1) := by
  rw [dayNumber, monthLengths]
  split_ifs <;> simp [daysPerMth]

/-- The lost hour by the fields of the date. -/
theorem lostHour_seconds_iff (h : Proper n m t) (hn : n < 130) (hdst : t.isdst = 0)
    (hlt : seconds n m t < 2 ^ 31) : LostHour (seconds n m t) ↔ LastHour t := by
  constructor
  · rintro ⟨n', mday, hlow, hhigh, hsunday, hfrom, hto⟩
    have hoctober := dayNumber_october n' mday
    have hn' : n' < 130 := by
      by_contra hlarge
      have hmono := yearStart_mono (not_lt.mp hlarge)
      rw [yearStart_eq le_rfl] at hmono
      unfold secsPerDay secsPerHour secsPerMin at *
      omega
    generalize hr : seconds n m t - (dayNumber n' 9 mday * secsPerDay - secsPerHour) = r
    have hnumber : dayNumber n' 9 (mday - 1) = dayNumber n' 9 mday - 1 := by
      rw [dayNumber, dayNumber]
      ring
    let t' : Tm :=
      { sec := r % 60
        min := r / 60
        hour := 23
        mday := mday - 1
        mon := 9
        year := 70 + n'
        wday := weekday (dayNumber n' 9 (mday - 1))
        yday := dayNumber n' 9 (mday - 1) - yearStart n'
        isdst := 0 }
    have hproper : Proper n' 9 t' :=
      { sec := by dsimp only [t']; omega
        min := by
          unfold secsPerDay secsPerHour secsPerMin at *
          dsimp only [t']
          omega
        hour := show (0 : ℤ) ≤ 23 ∧ (23 : ℤ) < 24 by decide
        mon := ⟨rfl, by decide⟩
        mday := by
          have hlength : (monthLengths (1970 + n')).getD 9 0 = 31 := rfl
          rw [hlength]
          dsimp only [t']
          omega
        year := rfl
        wday := rfl
        yday := rfl }
    have hsame : seconds n' 9 t' = seconds n m t := by
      rw [seconds]
      dsimp only [t']
      rw [hnumber]
      unfold secsPerDay secsPerHour secsPerMin at *
      omega
    have heq : t = t' := by
      have hgm := gmtime_seconds h hn hdst
      rw [← hsame, gmtime_seconds hproper hn' rfl] at hgm
      exact (Option.some.inj hgm).symm
    rw [heq]
    refine ⟨rfl, ?_, rfl, ?_⟩
    · dsimp only [t']
      rw [hnumber]
      unfold weekday at *
      omega
    · dsimp only [t']
      omega
  · intro hlast
    have hmon := h.mon
    have hmday := hlast.mday
    have hm : m = 9 := by
      have := hlast.mon
      omega
    subst hm
    have hnumber : dayNumber n 9 (t.mday + 1) = dayNumber n 9 t.mday + 1 := by
      rw [dayNumber, dayNumber]
      ring
    have hwday := h.wday
    rw [hlast.wday] at hwday
    have hclock := h.clock
    have hmin := h.min
    have hsec := h.sec
    refine ⟨n, t.mday + 1, by omega, by omega, ?_, ?_, ?_⟩
    · unfold weekday at *
      rw [hnumber]
      omega
    all_goals
      rw [hnumber, seconds, hlast.hour] at *
      unfold secsPerDay secsPerHour secsPerMin at *
      omega

/-- No lost hour is before 1970. -/
theorem LostHour.nonneg (h : LostHour time) : 0 ≤ time := by
  obtain ⟨n, mday, hlow, hhigh, -, hfrom, -⟩ := h
  have hoctober := dayNumber_october n mday
  have hstart : yearStart 0 ≤ yearStart n := yearStart_mono (Nat.zero_le n)
  rw [yearStart] at hstart
  unfold secsPerDay secsPerHour secsPerMin at hfrom
  omega

theorem long_bounds (x : ℤ) : -2 ^ 31 ≤ long x ∧ long x < 2 ^ 31 := by
  unfold long
  omega

/-- The date is not changed by the flag for daylight saving time. -/
theorem Proper.withIsdst (h : Proper n m t) (d : ℤ) : Proper n m { t with isdst := d } :=
  ⟨h.sec, h.min, h.hour, h.mon, h.mday, h.year, h.wday, h.yday⟩

end

/-- A time comes back from `localtime` and `mktime` unless it is in the hour, with daylight saving time, that is
    on the last Sunday of October. -/
theorem localtime_mktime_iff (env : Option CString) (g : Zone) (time : ℤ) (h0 : 0 ≤ time) (h : time < 2 ^ 31) :
    RoundTrip env g time ↔
      ¬((tzset env g).dst = 1 ∧ LostHour (long (time - (tzset env g).timezone))) := by
  generalize hzone : tzset env g = z
  have hz : tzset env z = z := by rw [← hzone, tzset_idem]
  generalize hoffset : long (time - z.timezone) = offset
  have hback (k : ℤ) : long (offset + z.timezone + k) = long (time + k) := by
    rw [← hoffset]
    unfold long
    omega
  have hbounds := long_bounds (time - z.timezone)
  rw [hoffset] at hbounds
  unfold RoundTrip localtime
  rw [hzone]
  dsimp only
  rw [hoffset]
  rcases lt_or_ge offset 0 with hneg | hnonneg
  · -- `localtime` is `NULL`
    have hnull : gmtime offset = none := if_pos hneg
    rw [hnull]
    exact ⟨fun _ hlost => absurd hlost.2.nonneg (not_le.mpr hneg), fun _ tm htm => by cases htm⟩
  -- the fields of local standard time, from which both functions work
  obtain ⟨n, m, t, hproper, hn, hdst, hseconds⟩ := exists_proper hnonneg hbounds.2
  have hlost := lostHour_seconds_iff hproper (by omega) hdst (by omega)
  have hgm := gmtime_seconds hproper (by omega) hdst
  rw [hseconds] at hlost hgm
  rw [hgm, hlost]
  dsimp only
  have hlocal := hproper.withIsdst (if z.dst = -1 then -1 else 0)
  generalize hstd : ({ t with isdst := if z.dst = -1 then -1 else 0 } : Tm) = std at hlocal
  have hsame : seconds n m std = offset := by
    rw [← hstd]
    exact hseconds
  have hlast : LastHour std ↔ LastHour t := by
    rw [← hstd]
    exact ⟨fun h => ⟨h.mon, h.wday, h.hour, h.mday⟩, fun h => ⟨h.mon, h.wday, h.hour, h.mday⟩⟩
  by_cases hsummer : z.dst = 1 ∧ indst std = true
  · -- `localtime` has added an hour; `mktime` takes it off if it finds summer time again
    obtain ⟨m', hproper', hlater⟩ := addHour_proper hlocal (by omega) hsummer.2
    have hmk := mktime_eq env z hproper' (by omega)
    have hin := indst_addHour_iff hlocal (by omega) hsummer.2
    rw [hz, hlater, hsame] at hmk
    rw [if_pos hsummer]
    have hgoal : (∀ tm, some (addHour std) = some tm → mktime env z tm = time ∧ ∃ n m, Proper n m tm) ↔
        mktime env z (addHour std) = time :=
      ⟨fun h => (h _ rfl).1, fun h tm htm => by
        obtain rfl := Option.some.inj htm
        exact ⟨h, n, m', hproper'⟩⟩
    rw [hgoal, hmk, ← hlast]
    by_cases hafter : indst (addHour std) = true
    · rw [if_pos ⟨hsummer.1, hafter⟩]
      have hnot := hin.mp hafter
      have hsum : long (offset + secsPerHour + z.timezone - secsPerHour) = time := by
        rw [show offset + secsPerHour + z.timezone - secsPerHour = offset + z.timezone + 0 by ring, hback]
        unfold long
        omega
      exact ⟨fun _ hlast => hnot hlast.2, fun _ => hsum⟩
    · rw [if_neg fun h => hafter h.2]
      have hlasthour : LastHour std := not_not.mp fun hnot => hafter (hin.mpr hnot)
      have hsum : long (offset + secsPerHour + z.timezone - 0) ≠ time := by
        rw [show offset + secsPerHour + z.timezone - 0 = offset + z.timezone + secsPerHour by ring, hback]
        unfold long secsPerHour secsPerMin
        omega
      exact ⟨fun h => absurd h hsum, fun h => absurd ⟨hsummer.1, hlasthour⟩ h⟩
  · -- nothing is added and nothing taken off
    have hmk := mktime_eq env z hlocal (by omega)
    rw [hz, hsame, if_neg hsummer] at hmk
    rw [if_neg hsummer]
    have hsum : mktime env z std = time := by
      rw [hmk, show offset + z.timezone - 0 = offset + z.timezone + 0 by ring, hback]
      unfold long
      omega
    refine ⟨fun _ hlasthour => ?_, fun _ tm htm => ?_⟩
    · -- daylight saving time lasts up to that hour
      obtain ⟨hdst1, hlasthour⟩ := hlasthour
      rw [← hlast] at hlasthour
      have h1 := hlasthour.mon
      have h2 := hlasthour.wday
      have h3 := hlasthour.mday
      exact hsummer ⟨hdst1, (indst_iff std).mpr (.inr (.inl ⟨h1, by omega⟩))⟩
    · obtain rfl := Option.some.inj htm
      exact ⟨hsum, n, m, hlocal⟩

/-- `EST5EDT` -/
def eastern : CString := [69, 83, 84, 53, 69, 68, 84]

/-- An hour before the lost one: 27 October 2001, half past eleven in the evening, in daylight saving
    time. -/
theorem localtime_mktime_iff_summer : RoundTrip (some eastern) noZone 1004239800 ∧
    ∃ tm, (localtime (some eastern) noZone 1004239800).2 = some tm ∧
      tm.mon = 9 ∧ tm.mday = 27 ∧ tm.hour = 23 ∧ tm.min = 30 ∧ tm.isdst = 1 := by
  refine ⟨(localtime_mktime_iff (some eastern) noZone 1004239800 (by decide) (by decide)).mpr ?_,
    _, rfl, by decide +kernel⟩
  -- standard time is then half past ten, and the lost hour begins at eleven
  rintro ⟨-, n, mday, -, -, -, hfrom, hto⟩
  have hstd : long (1004239800 - (tzset (some eastern) noZone).timezone) = 11622 * 86400 + 81000 := by
    decide +kernel
  rw [hstd] at hfrom hto
  unfold secsPerDay secsPerHour secsPerMin at hfrom hto
  omega

/-- Half past midnight of the last Sunday of October 2001, in daylight saving time, comes back as an hour
    later. -/
theorem mktime_lostHour : ∃ tm, (localtime (some eastern) noZone 1004243400).2 = some tm ∧
    tm.mon = 9 ∧ tm.mday = 28 ∧ tm.hour = 0 ∧ tm.min = 30 ∧
    mktime (some eastern) (localtime (some eastern) noZone 1004243400).1 tm = 1004243400 + 3600 := by
  refine ⟨_, rfl, ?_⟩
  decide +kernel

end LisaMinix.Libc
