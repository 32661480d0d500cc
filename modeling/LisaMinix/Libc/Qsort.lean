import LisaMinix.Library.Partition
import LisaMinix.Library.Memory

/-!
# `qsort`

The sort of `qsort.c` in the memory of a process.  An `int` and the difference of two pointers have 16 bits;
when they overflow the result is undefined.

- `qsort`: the function.
- `qexchange_apply`, `q3exchange_apply`: the exchanges, byte for byte.
- `scanLeft_parts`, `scanRight_parts`, `partition_parts`: the loop of `qsort1`.
- `qsort1_sorts`, `qsort_sorts_iff`: the arrays that are sorted.
-/

namespace LisaMinix.Libc

open LisaMinix.Library Function

/-! ## §1 The Function -/

/-- What must not happen: an overflow of an `int`, an access outside the array. -/
inductive SortFault
  | overflow
  | bounds
  /-- The loop has not come to an end. -/
  | endless
  deriving DecidableEq

/-- The content of an element. -/
abbrev Element (width : ℕ) := Fin width → UInt8

/-- The arguments of `qsort`; `compar` is given the contents of two elements. -/
structure SortArgs (width : ℕ) where
  base : ℤ
  nel : ℕ
  compar : Element width → Element width → ℤ

/-- The pointers of `qsort1`. -/
structure SortPtrs where
  left : ℤ
  lefteq : ℤ
  righteq : ℤ
  right : ℤ

/-- The bytes at `p`. -/
def elementAt (width : ℕ) (m : Memory) (p : ℤ) : Element width := fun i => m (p + i.val)

/-- `qexchange(p, q, n)` -/
def qexchange : ℕ → Memory → ℤ → ℤ → Memory
  | 0, m, _, _ => m
  | n + 1, m, p, q =>
    let c := m p
    let m := update m p (m q)
    let m := update m q c
    qexchange n m (p + 1) (q + 1)

/-- `q3exchange(p, q, r, n)` -/
def q3exchange : ℕ → Memory → ℤ → ℤ → ℤ → Memory
  | 0, m, _, _, _ => m
  | n + 1, m, p, q, r =>
    let c := m p
    let m := update m p (m r)
    let m := update m r (m q)
    let m := update m q c
    q3exchange n m (p + 1) (q + 1) (r + 1)

/-- An `int`. -/
def checked (x : ℤ) : Except SortFault ℤ := if -32768 ≤ x ∧ x ≤ 32767 then .ok x else .error .overflow

section

variable {width : ℕ} (a : SortArgs width)

/-- The bytes of an element at `p` are in the array. -/
def SortArgs.inside (p : ℤ) : Prop := a.base ≤ p ∧ p + width ≤ a.base + a.nel * width

instance (p : ℤ) : Decidable (a.inside p) := inferInstanceAs (Decidable (_ ∧ _))

/-- `(*qcompar)(p, q)` -/
def qcompar (m : Memory) (p q : ℤ) : Except SortFault ℤ :=
  if a.inside p ∧ a.inside q then .ok (a.compar (elementAt width m p) (elementAt width m q))
  else .error .bounds

def exchangeIn (m : Memory) (p q : ℤ) : Except SortFault Memory :=
  if a.inside p ∧ a.inside q then .ok (qexchange width m p q) else .error .bounds

def exchange3In (m : Memory) (p q r : ℤ) : Except SortFault Memory :=
  if a.inside p ∧ a.inside q ∧ a.inside r then .ok (q3exchange width m p q r) else .error .bounds

/-- The first loop after `again`. -/
def scanLeft : ℕ → Memory → SortPtrs → Except SortFault (Memory × SortPtrs)
  | 0, _, _ => .error .endless
  | n + 1, m, p =>
    if p.left < p.lefteq then do
      let cmp ← qcompar a m p.left p.lefteq
      if cmp ≤ 0 then
        if cmp < 0 then scanLeft n m { p with left := p.left + width }
        else
          let lefteq := p.lefteq - width
          let m ← exchangeIn a m p.left lefteq
          scanLeft n m { p with lefteq := lefteq }
      else return (m, p)
    else return (m, p)

/-- The second loop; the flag is `goto again`. -/
def scanRight : ℕ → Memory → SortPtrs → Except SortFault (Bool × Memory × SortPtrs)
  | 0, _, _ => .error .endless
  | n + 1, m, p =>
    if p.righteq < p.right then do
      let cmp ← qcompar a m p.right p.righteq
      if cmp < 0 then
        if p.left < p.lefteq then
          let m ← exchangeIn a m p.left p.right
          return (true, m, { p with left := p.left + width, right := p.right - width })
        else
          let righteq := p.righteq + width
          let m ← exchange3In a m p.left righteq p.right
          let lefteq := p.lefteq + width
          scanRight n m { p with righteq := righteq, lefteq := lefteq, left := lefteq }
      else if cmp = 0 then
        let righteq := p.righteq + width
        let m ← exchangeIn a m p.right righteq
        scanRight n m { p with righteq := righteq }
      else scanRight n m { p with right := p.right - width }
    else return (false, m, p)

/-- The loop from `again` on, until the middle is not moved any more. -/
def partition : ℕ → Memory → SortPtrs → Except SortFault (Memory × SortPtrs)
  | 0, _, _ => .error .endless
  | n + 1, m, p => do
    let (m, p) ← scanLeft a (a.nel + 1) m p
    let (again, m, p) ← scanRight a (a.nel + 1) m p
    if again then partition n m p
    else if p.left < p.lefteq then
      let lefteq := p.lefteq - width
      let m ← exchange3In a m p.right lefteq p.left
      let righteq := p.righteq - width
      partition n m { p with lefteq := lefteq, righteq := righteq, right := righteq }
    else return (m, p)

/-- `qsort1(a1, a2, width)`; the loop is the second call. -/
def qsort1 : ℕ → Memory → ℤ → ℤ → Except SortFault Memory
  | 0, _, _, _ => .error .endless
  | n + 1, m, a1, a2 =>
    if a2 ≤ a1 then .ok m
    else do
      let size ← checked (a2 - a1)
      let size ← checked (size + width)
      let two ← checked (2 * width)
      let offset ← checked (width * size.tdiv two)
      let middle := a1 + offset
      let (m, p) ← partition a (a.nel + 1) m { left := a1, lefteq := middle, righteq := middle, right := a2 }
      let m ← qsort1 n m a1 (p.lefteq - width)
      qsort1 n m (p.righteq + width) a2

/-- `qsort(base, nel, width, compar)` -/
def qsort (m : Memory) : Except SortFault Memory :=
  if 0 < a.nel then qsort1 a (a.nel + 1) m a.base (a.base + ((a.nel - 1) * width % 65536 : ℕ)) else .ok m

end

/-! ## §2 The Exchanges -/

variable {n : ℕ}

/-- The bytes at two places are exchanged. -/
theorem qexchange_apply {p q : ℤ} (h : p + n ≤ q ∨ q + n ≤ p) (m : Memory) (x : ℤ) :
    qexchange n m p q x = if p ≤ x ∧ x < p + n then m (x - p + q)
      else if q ≤ x ∧ x < q + n then m (x - q + p) else m x := by
  induction n generalizing m p q with
  | zero => rw [qexchange, if_neg (by omega), if_neg (by omega)]
  | succ n ih =>
    push_cast at h
    have hne : p ≠ q := by omega
    rw [qexchange, ih (by omega)]
    have hat (y : ℤ) : update (update m p (m q)) q (m p) y =
        if y = q then m p else if y = p then m q else m y := by
      simp only [update_apply]
    simp only [hat]
    push_cast
    split_ifs <;> first | rfl | (congr 1; omega)

/-- Nothing is exchanged with itself. -/
theorem qexchange_self (n : ℕ) (m : Memory) (p : ℤ) : qexchange n m p p = m := by
  induction n generalizing m p with
  | zero => rfl
  | succ n ih =>
    rw [qexchange]
    simp only [update_eq_self]
    exact ih m (p + 1)

/-- The bytes at the first place go to the second, those of the second to the third, and those of the third to
    the first; the second and the third may be the same. -/
theorem q3exchange_apply {p q r : ℤ} (hpq : p + n ≤ q ∨ q + n ≤ p) (hpr : p + n ≤ r ∨ r + n ≤ p)
    (hqr : q + n ≤ r ∨ r + n ≤ q ∨ q = r) (m : Memory) (x : ℤ) :
    q3exchange n m p q r x = if p ≤ x ∧ x < p + n then m (x - p + r)
      else if q ≤ x ∧ x < q + n then m (x - q + p)
      else if r ≤ x ∧ x < r + n then m (x - r + q) else m x := by
  induction n generalizing m p q r with
  | zero => rw [q3exchange, if_neg (by omega), if_neg (by omega), if_neg (by omega)]
  | succ n ih =>
    push_cast at hpq hpr hqr
    rw [q3exchange, ih (by omega) (by omega) (by omega)]
    have hq : update m p (m r) q = m q := update_of_ne (by omega) _ _
    have hat (y : ℤ) : update (update (update m p (m r)) r (m q)) q (m p) y =
        if y = q then m p else if y = r then m q else if y = p then m r else m y := by
      simp only [update_apply]
    simp only [hq, hat]
    push_cast
    split_ifs <;> first | rfl | (congr 1; omega)

section

variable {width : ℕ} {a : SortArgs width} {m : Memory} {i j k : ℤ}

/-- Where element `i` is. -/
def SortArgs.addr (a : SortArgs width) (i : ℤ) : ℤ := a.base + width * i

/-- The elements in memory, those before and after the array included. -/
def SortArgs.elements (a : SortArgs width) (m : Memory) (i : ℤ) : Element width := elementAt width m (a.addr i)

/-- Two elements are the same one or apart. -/
theorem addr_apart (h : i ≠ j) : a.addr i + width ≤ a.addr j ∨ a.addr j + width ≤ a.addr i := by
  unfold SortArgs.addr
  rcases lt_or_gt_of_ne h with h | h
  · left
    have := mul_le_mul_of_nonneg_left (show i + 1 ≤ j by omega) (Int.natCast_nonneg width)
    linarith
  · right
    have := mul_le_mul_of_nonneg_left (show j + 1 ≤ i by omega) (Int.natCast_nonneg width)
    linarith

/-- A byte is in one element. -/
theorem addr_iff (b : Fin width) : a.addr i ≤ a.addr k + b.val ∧ a.addr k + b.val < a.addr i + width ↔ k = i := by
  have hb := b.isLt
  constructor
  · intro h
    by_contra hne
    have := addr_apart (a := a) hne
    omega
  · rintro rfl
    omega

theorem elements_qexchange (m : Memory) (i j : ℤ) :
    a.elements (qexchange width m (a.addr i) (a.addr j)) = swapAt (a.elements m) i j := by
  rcases eq_or_ne i j with rfl | hne
  · rw [qexchange_self, swapAt, Equiv.swap_self]
    rfl
  · funext k b
    rw [SortArgs.elements, elementAt, qexchange_apply (addr_apart hne)]
    simp only [addr_iff]
    split_ifs with hi hj
    · rw [hi, swapAt_left, SortArgs.elements, elementAt]
      congr 1
      ring
    · rw [hj, swapAt_right, SortArgs.elements, elementAt]
      congr 1
      ring
    · rw [swapAt_other hi hj, SortArgs.elements, elementAt]

theorem elements_q3exchange (m : Memory) (hij : i ≠ j) (hik : i ≠ k) :
    a.elements (q3exchange width m (a.addr i) (a.addr j) (a.addr k)) = rotateAt (a.elements m) i j k := by
  have hjk : a.addr j + width ≤ a.addr k ∨ a.addr k + width ≤ a.addr j ∨ a.addr j = a.addr k := by
    rcases eq_or_ne j k with rfl | hne
    · exact .inr (.inr rfl)
    · have := addr_apart (a := a) hne
      omega
  funext x b
  rw [SortArgs.elements, elementAt, q3exchange_apply (addr_apart hij) (addr_apart hik) hjk]
  simp only [addr_iff]
  split_ifs with hi hj hk
  · rw [hi, rotateAt_first hij hik, SortArgs.elements, elementAt]
    congr 1
    ring
  · rw [hj, rotateAt_second, SortArgs.elements, elementAt]
    congr 1
    ring
  · rw [hk, rotateAt, swapAt_right, swapAt_other (Ne.symm hij) (hk ▸ Ne.symm hj), SortArgs.elements, elementAt]
    congr 1
    ring
  · rw [rotateAt_other hi hj hk, SortArgs.elements, elementAt]

theorem addr_lt_iff (hw : 0 < width) : a.addr i < a.addr j ↔ i < j := by
  unfold SortArgs.addr
  rw [add_lt_add_iff_left, mul_lt_mul_iff_right₀ (by exact_mod_cast hw)]

theorem addr_add (a : SortArgs width) (i : ℤ) : a.addr i + width = a.addr (i + 1) := by
  unfold SortArgs.addr
  ring

theorem addr_sub (a : SortArgs width) (i : ℤ) : a.addr i - width = a.addr (i - 1) := by
  unfold SortArgs.addr
  ring

/-- The elements of the array are inside it. -/
theorem inside_addr (h : 0 ≤ i ∧ i < a.nel) : a.inside (a.addr i) := by
  have hlow := mul_nonneg (Int.natCast_nonneg width) h.1
  have hhigh := mul_le_mul_of_nonneg_left (show i + 1 ≤ (a.nel : ℤ) by omega) (Int.natCast_nonneg width)
  unfold SortArgs.inside SortArgs.addr
  constructor <;> linarith

theorem qcompar_addr (hi : 0 ≤ i ∧ i < a.nel) (hj : 0 ≤ j ∧ j < a.nel) :
    qcompar a m (a.addr i) (a.addr j) = .ok (a.compar (a.elements m i) (a.elements m j)) :=
  if_pos ⟨inside_addr hi, inside_addr hj⟩

theorem exchangeIn_addr (hi : 0 ≤ i ∧ i < a.nel) (hj : 0 ≤ j ∧ j < a.nel) :
    ∃ m', exchangeIn a m (a.addr i) (a.addr j) = .ok m' ∧ a.elements m' = swapAt (a.elements m) i j :=
  ⟨_, if_pos ⟨inside_addr hi, inside_addr hj⟩, elements_qexchange m i j⟩

theorem exchange3In_addr (hi : 0 ≤ i ∧ i < a.nel) (hj : 0 ≤ j ∧ j < a.nel) (hk : 0 ≤ k ∧ k < a.nel)
    (hij : i ≠ j) (hik : i ≠ k) :
    ∃ m', exchange3In a m (a.addr i) (a.addr j) (a.addr k) = .ok m' ∧
      a.elements m' = rotateAt (a.elements m) i j k :=
  ⟨_, if_pos ⟨inside_addr hi, inside_addr hj, inside_addr hk⟩, elements_q3exchange m hij hik⟩

end

/-! ## §3 The Partition -/

section

variable {width : ℕ} {a : SortArgs width} {m : Memory} {lo hi left lefteq righteq right : ℤ} {v : Element width}

/-- The pointers to four elements. -/
abbrev SortArgs.ptrs (a : SortArgs width) (left lefteq righteq right : ℤ) : SortPtrs :=
  { left := a.addr left, lefteq := a.addr lefteq, righteq := a.addr righteq, right := a.addr right }

/-- A part of the array. -/
structure Part (a : SortArgs width) (lo hi : ℤ) : Prop where
  width_pos : 0 < width
  compar : Preordered a.compar
  within : 0 ≤ lo ∧ hi < a.nel

theorem Part.index (hpart : Part a lo hi) {i : ℤ} (h : lo ≤ i ∧ i ≤ hi) : 0 ≤ i ∧ i < a.nel := by
  have := hpart.within
  omega

/-- The first loop ends at an element that is larger than the pivot, or with none left. -/
theorem scanLeft_parts (hpart : Part a lo hi) (hn : lefteq - left < n)
    (h : Parted a.compar v lo hi (a.elements m) left lefteq righteq right) :
    ∃ m' left' lefteq', scanLeft a n m (a.ptrs left lefteq righteq right) =
        .ok (m', a.ptrs left' lefteq' righteq right) ∧
      Shuffled lo hi (a.elements m) (a.elements m') ∧
      Parted a.compar v lo hi (a.elements m') left' lefteq' righteq right ∧
      (left' < lefteq' → 0 < a.compar (a.elements m' left') v) ∧ lefteq' - left' ≤ lefteq - left := by
  induction n generalizing m left lefteq with
  | zero =>
    have := h.order
    omega
  | succ n ih =>
    have horder := h.order
    unfold scanLeft
    simp only [SortArgs.ptrs]
    split
    next hptr =>
      have hlt := (addr_lt_iff hpart.width_pos).mp hptr
      rw [qcompar_addr (hpart.index (by omega)) (hpart.index (by omega))]
      have hcmp := h.compare hpart.compar (x := left) (i := lefteq) le_rfl (by omega)
      dsimp only [bind, Except.bind]
      split_ifs with hle hsmall
      · -- it is smaller
        rw [addr_add]
        obtain ⟨m', left', lefteq', hrun, hshuffled, hparted, hlarge, hless⟩ :=
          ih (by omega) (h.leftSmall hlt (hcmp.1.mp hsmall))
        exact ⟨m', left', lefteq', hrun, hshuffled, hparted, hlarge, by omega⟩
      · -- it is equal
        rw [addr_sub]
        obtain ⟨m₁, hexchange, helements⟩ := exchangeIn_addr (m := m) (a := a) (i := left) (j := lefteq - 1)
          (hpart.index (by omega)) (hpart.index (by omega))
        have hnext := h.leftEqual hlt (hcmp.2.mp (by omega))
        rw [← helements] at hnext
        obtain ⟨m', left', lefteq', hrun, hshuffled, hparted, hlarge, hless⟩ := ih (by omega) hnext
        rw [hexchange]
        refine ⟨m', left', lefteq', hrun, Shuffled.trans ?_ hshuffled, hparted, hlarge, by omega⟩
        rw [helements]
        exact shuffled_swapAt _ (by omega) (by omega)
      · -- it is larger
        refine ⟨m, left, lefteq, rfl, .refl _ _ _, h, fun _ => ?_, le_rfl⟩
        omega
    next hptr =>
      have hge : ¬left < lefteq := fun hlt => hptr ((addr_lt_iff hpart.width_pos).mpr hlt)
      exact ⟨m, left, lefteq, rfl, .refl _ _ _, h, fun hlt => absurd hlt hge, le_rfl⟩

/-- The second loop finds a smaller element to exchange, or comes to the middle. -/
theorem scanRight_parts (hpart : Part a lo hi) (hn : right - righteq < n)
    (h : Parted a.compar v lo hi (a.elements m) left lefteq righteq right)
    (hstop : left < lefteq → 0 < a.compar (a.elements m left) v) :
    ∃ again m' left' lefteq' righteq' right', scanRight a n m (a.ptrs left lefteq righteq right) =
        .ok (again, m', a.ptrs left' lefteq' righteq' right') ∧
      Shuffled lo hi (a.elements m) (a.elements m') ∧
      Parted a.compar v lo hi (a.elements m') left' lefteq' righteq' right' ∧
      (again = true → lefteq' - left' + (right' - righteq') < lefteq - left + (right - righteq)) ∧
      (again = false → righteq' = right' ∧ lefteq' - left' ≤ lefteq - left ∧
        (left' < lefteq' → 0 < a.compar (a.elements m' left') v)) := by
  induction n generalizing m left lefteq righteq right with
  | zero =>
    have := h.order
    omega
  | succ n ih =>
    have horder := h.order
    unfold scanRight
    simp only [SortArgs.ptrs]
    split
    next hptr =>
      have hlt := (addr_lt_iff hpart.width_pos).mp hptr
      rw [qcompar_addr (hpart.index (by omega)) (hpart.index (by omega))]
      have hcmp := h.compare hpart.compar (x := right) (i := righteq) (by omega) le_rfl
      dsimp only [bind, Except.bind]
      split_ifs with hsmall hleft hsame
      · -- it is smaller, and there is a larger one on the left
        have hlt' := (addr_lt_iff hpart.width_pos).mp hleft
        obtain ⟨m₁, hexchange, helements⟩ := exchangeIn_addr (m := m) (a := a) (i := left) (j := right)
          (hpart.index (by omega)) (hpart.index (by omega))
        have hnext := h.exchange hlt' hlt (hstop hlt') (hcmp.1.mp hsmall)
        rw [← helements] at hnext
        rw [hexchange, addr_add, addr_sub]
        refine ⟨true, m₁, _, _, _, _, rfl, ?_, hnext, fun _ => by omega, by simp⟩
        rw [helements]
        exact shuffled_swapAt _ (by omega) (by omega)
      · -- it is smaller, and the middle moves up
        have hnone : left = lefteq := by
          have : ¬left < lefteq := fun hlt => hleft ((addr_lt_iff hpart.width_pos).mpr hlt)
          omega
        subst hnone
        rw [addr_add, addr_add]
        obtain ⟨m₁, hexchange, helements⟩ := exchange3In_addr (m := m) (a := a) (i := left) (j := righteq + 1)
          (k := right) (hpart.index (by omega)) (hpart.index (by omega)) (hpart.index (by omega)) (by omega)
          (by omega)
        have hnext := h.rightSmall hlt (hcmp.1.mp hsmall)
        rw [← helements] at hnext
        obtain ⟨again, m', left', lefteq', righteq', right', hrun, hshuffled, hparted, hagain, hdone⟩ :=
          ih (by omega) hnext (fun h => absurd h (lt_irrefl _))
        rw [hexchange]
        refine ⟨again, m', left', lefteq', righteq', right', hrun, Shuffled.trans ?_ hshuffled, hparted,
          fun h => ?_, fun h => ?_⟩
        · rw [helements]
          exact shuffled_rotateAt _ (by omega) (by omega) (by omega)
        · have := hagain h
          omega
        · obtain ⟨h1, h2, h3⟩ := hdone h
          exact ⟨h1, by omega, h3⟩
      · -- it is equal
        rw [addr_add]
        obtain ⟨m₁, hexchange, helements⟩ := exchangeIn_addr (m := m) (a := a) (i := right) (j := righteq + 1)
          (hpart.index (by omega)) (hpart.index (by omega))
        have hnext := h.rightEqual hlt (hcmp.2.mp hsame)
        rw [← helements] at hnext
        have hleft : a.elements m₁ left = a.elements m left ∨ ¬left < lefteq := by
          rcases lt_or_ge left lefteq with hlt' | hge
          · left
            rw [helements, swapAt_other (by omega) (by omega)]
          · exact .inr (not_lt.mpr hge)
        obtain ⟨again, m', left', lefteq', righteq', right', hrun, hshuffled, hparted, hagain, hdone⟩ :=
          ih (by omega) hnext fun hlt' => by
            rw [hleft.resolve_right (not_not.mpr hlt')]
            exact hstop hlt'
        rw [hexchange]
        refine ⟨again, m', left', lefteq', righteq', right', hrun, Shuffled.trans ?_ hshuffled, hparted,
          fun h => ?_, hdone⟩
        · rw [helements]
          exact shuffled_swapAt _ (by omega) (by omega)
        · have := hagain h
          omega
      · -- it is larger
        rw [addr_sub]
        have hlarge : 0 < a.compar (a.elements m right) v := by
          have := hcmp.1
          have := hcmp.2
          omega
        obtain ⟨again, m', left', lefteq', righteq', right', hrun, hshuffled, hparted, hagain, hdone⟩ :=
          ih (by omega) (h.rightLarge hlt hlarge) hstop
        refine ⟨again, m', left', lefteq', righteq', right', hrun, hshuffled, hparted, fun h => ?_, hdone⟩
        have := hagain h
        omega
    next hptr =>
      have hge : ¬righteq < right := fun hlt => hptr ((addr_lt_iff hpart.width_pos).mpr hlt)
      exact ⟨false, m, left, lefteq, righteq, right, rfl, .refl _ _ _, h, by simp,
        fun _ => ⟨by omega, le_rfl, hstop⟩⟩

/-- The loop ends with smaller elements below the middle and larger ones above it. -/
theorem partition_parts (hpart : Part a lo hi) (hn : lefteq - left + (right - righteq) < n)
    (h : Parted a.compar v lo hi (a.elements m) left lefteq righteq right) :
    ∃ m' lefteq' righteq', partition a n m (a.ptrs left lefteq righteq right) =
        .ok (m', a.ptrs lefteq' lefteq' righteq' righteq') ∧
      Shuffled lo hi (a.elements m) (a.elements m') ∧
      Parted a.compar v lo hi (a.elements m') lefteq' lefteq' righteq' righteq' := by
  induction n generalizing m left lefteq righteq right with
  | zero =>
    have := h.order
    omega
  | succ n ih =>
    have horder := h.order
    have hwithin := hpart.within
    obtain ⟨m₁, left₁, lefteq₁, hscan1, hshuffled1, hparted1, hlarge1, hless1⟩ :=
      scanLeft_parts hpart (n := a.nel + 1) (by push_cast; omega) h
    obtain ⟨again, m₂, left₂, lefteq₂, righteq₂, right₂, hscan2, hshuffled2, hparted2, hagain, hdone⟩ :=
      scanRight_parts hpart (n := a.nel + 1) (by push_cast; omega) hparted1 hlarge1
    have horder2 := hparted2.order
    unfold partition
    rw [hscan1]
    dsimp only [bind, Except.bind]
    rw [hscan2]
    dsimp only
    cases again with
    | true =>
      have := hagain rfl
      obtain ⟨m', lefteq', righteq', hrun, hshuffled, hparted⟩ := ih (by omega) hparted2
      exact ⟨m', lefteq', righteq', hrun, (hshuffled1.trans hshuffled2).trans hshuffled, hparted⟩
    | false =>
      obtain ⟨hmiddle, hless2, hlarge2⟩ := hdone rfl
      subst hmiddle
      simp only [SortArgs.ptrs, Bool.false_eq_true, if_false]
      split
      next hptr =>
        -- a larger element is left on the left
        have hlt := (addr_lt_iff hpart.width_pos).mp hptr
        rw [addr_sub, addr_sub]
        obtain ⟨m₃, hexchange, helements⟩ := exchange3In_addr (m := m₂) (a := a) (i := righteq₂)
          (j := lefteq₂ - 1) (k := left₂) (hpart.index (by omega)) (hpart.index (by omega))
          (hpart.index (by omega)) (by omega) (by omega)
        have hnext := hparted2.leftLarge hlt (hlarge2 hlt)
        rw [← helements] at hnext
        obtain ⟨m', lefteq', righteq', hrun, hshuffled, hparted⟩ := ih (by omega) hnext
        rw [hexchange]
        refine ⟨m', lefteq', righteq', hrun, ((hshuffled1.trans hshuffled2).trans ?_).trans hshuffled, hparted⟩
        rw [helements]
        exact shuffled_rotateAt _ (by omega) (by omega) (by omega)
      next hptr =>
        have hnone : left₂ = lefteq₂ := by
          have : ¬left₂ < lefteq₂ := fun hlt => hptr ((addr_lt_iff hpart.width_pos).mpr hlt)
          omega
        subst hnone
        exact ⟨m₂, left₂, righteq₂, rfl, hshuffled1.trans hshuffled2, hparted2⟩

/-! ## §4 The Sort -/

theorem checked_ok {x : ℤ} (h : -32768 ≤ x ∧ x ≤ 32767) : checked x = .ok x := if_pos h

theorem checked_overflow {x : ℤ} (h : 32767 < x) : checked x = .error .overflow := if_neg (by omega)

/-- `qsort1` sorts a part of an array of at most 32767 bytes. -/
theorem qsort1_sorts (hpart : Part a lo hi) (hwidth : 2 * width ≤ 32767) (hfits : a.nel * width ≤ 32767)
    (hlo : lo ≤ hi + 1) (hn : hi - lo + 1 < n) :
    ∃ m', qsort1 a n m (a.addr lo) (a.addr hi) = .ok m' ∧ Shuffled lo hi (a.elements m) (a.elements m') ∧
      SortedOn a.compar (a.elements m') lo hi := by
  induction n generalizing m lo hi with
  | zero => omega
  | succ n ih =>
    have hwithin := hpart.within
    have hpos : (0 : ℤ) < width := by exact_mod_cast hpart.width_pos
    unfold qsort1
    split
    next hptr =>
      have hle : hi ≤ lo := not_lt.mp fun hlt => not_lt.mpr hptr ((addr_lt_iff hpart.width_pos).mpr hlt)
      exact ⟨m, rfl, .refl _ _ _, sortedOn_of_le hle⟩
    next hptr =>
      have hlt : lo < hi := (addr_lt_iff hpart.width_pos).mp (not_le.mp hptr)
      generalize hcount : hi - lo + 1 = count
      have hsize : a.addr hi - a.addr lo + width = width * count := by
        unfold SortArgs.addr
        rw [← hcount]
        ring
      have hsmall : width * count ≤ 32767 := by
        have hmul : (width : ℤ) * count ≤ width * a.nel := mul_le_mul_of_nonneg_left (by omega) hpos.le
        have : (a.nel * width : ℤ) ≤ 32767 := by exact_mod_cast hfits
        linarith
      have hlarge : (width : ℤ) * 2 ≤ width * count := mul_le_mul_of_nonneg_left (by omega) hpos.le
      have hdiv : (width * count : ℤ).tdiv (2 * width) = count / 2 := by
        rw [Int.tdiv_eq_ediv_of_nonneg (by omega), mul_comm 2, Int.mul_ediv_mul_of_pos _ _ hpos]
      have hmiddle0 : 0 ≤ (width : ℤ) * (count / 2) := mul_nonneg hpos.le (by omega)
      have hmiddle : (width : ℤ) * (count / 2) ≤ width * count := mul_le_mul_of_nonneg_left (by omega) hpos.le
      rw [checked_ok (by omega)]
      dsimp only [bind, Except.bind]
      rw [hsize, checked_ok (by omega)]
      dsimp only
      rw [checked_ok (by omega)]
      dsimp only
      rw [hdiv, checked_ok (by omega)]
      dsimp only
      have hmid : a.addr lo + width * (count / 2) = a.addr (lo + count / 2) := by
        unfold SortArgs.addr
        ring
      rw [hmid]
      obtain ⟨m₁, lefteq, righteq, hrun1, hshuffled1, hparted⟩ := partition_parts hpart (m := m) (n := a.nel + 1)
        (by push_cast; omega) (parted_start hpart.compar (i := lo + count / 2) (by omega) (by omega))
      have horder := hparted.order
      rw [hrun1]
      dsimp only
      rw [addr_sub, addr_add]
      -- the smaller part, and then the larger one
      obtain ⟨m₂, hrun2, hshuffled2, hsorted2⟩ := @ih m₁ lo (lefteq - 1)
        ⟨hpart.width_pos, hpart.compar, by omega⟩ (by omega) (by omega)
      rw [hrun2]
      dsimp only
      obtain ⟨m₃, hrun3, hshuffled3, hsorted3⟩ := @ih m₂ (righteq + 1) hi
        ⟨hpart.width_pos, hpart.compar, by omega⟩ (by omega) (by omega)
      refine ⟨m₃, hrun3, ?_, ?_⟩
      · have hleft := hshuffled2.mono (le_refl lo) (show lefteq - 1 ≤ hi by omega)
        have hright := hshuffled3.mono (show lo ≤ righteq + 1 by omega) (le_refl hi)
        exact (hshuffled1.trans hleft).trans hright
      · have hbelow : ∀ x, x ≤ righteq → a.elements m₃ x = a.elements m₂ x :=
          fun x hx => hshuffled3.outside (by omega)
        have habove : ∀ x, lefteq ≤ x → a.elements m₂ x = a.elements m₁ x :=
          fun x hx => hshuffled2.outside (by omega)
        have hsmall : ∀ x, lo ≤ x → x < lefteq →
            a.compar (a.elements m₃ x) (a.elements m (lo + count / 2)) < 0 := by
          intro x h1 h2
          rw [hbelow x (by omega)]
          exact hshuffled2.forall (P := fun y => a.compar y _ < 0)
            (fun x h1 h2 => hparted.small x h1 (by omega)) h1 (by omega)
        refine SortedOn.join hpart.compar hsmall (?_ : ∀ x, lefteq ≤ x → x ≤ righteq → _) ?_ ?_ hsorted3
        · intro x h1 h2
          rw [hbelow x h2, habove x h1]
          exact hparted.same x h1 h2
        · intro x h1 h2
          refine hshuffled3.forall (P := fun y => 0 < a.compar y _) (fun x h1 h2 => ?_) (by omega) h2
          rw [habove x (by omega)]
          exact hparted.large x (by omega) h2
        · intro x y h1 h2 h3
          rw [hbelow x (by omega), hbelow y (by omega)]
          exact hsorted2 x y h1 h2 h3

end

/-- The array is in order, with the elements that were in it, and nothing else has been touched. -/
structure SortedFrom {width : ℕ} (a : SortArgs width) (m m' : Memory) : Prop where
  shuffled : Shuffled 0 (a.nel - 1) (a.elements m) (a.elements m')
  sorted : SortedOn a.compar (a.elements m') 0 (a.nel - 1)
  outside : ∀ x, x < a.base ∨ a.base + a.nel * width ≤ x → m' x = m x

/-- Every byte is in an element. -/
theorem exists_addr {width : ℕ} (a : SortArgs width) (hw : 0 < width) (x : ℤ) :
    ∃ (i : ℤ) (b : Fin width), x = a.addr i + b.val := by
  have hpos : (0 : ℤ) < width := by exact_mod_cast hw
  have hlow := Int.emod_nonneg (x - a.base) hpos.ne'
  have hhigh := Int.emod_lt_of_pos (x - a.base) hpos
  refine ⟨(x - a.base) / width, ⟨((x - a.base) % width).toNat, by omega⟩, ?_⟩
  have hdiv := Int.mul_ediv_add_emod (x - a.base) width
  unfold SortArgs.addr
  dsimp only
  rw [Int.toNat_of_nonneg hlow]
  linarith

/-- Arrays of at most 32767 bytes are sorted, and no others: the size of a larger one is no `int`. -/
theorem qsort_sorts_iff {width : ℕ} (a : SortArgs width) (m : Memory) (hw : 0 < width) (hwidth : 2 * width ≤ 32767)
    (hsize : a.nel * width ≤ 65535) (hcompar : Preordered a.compar) :
    (∃ m', qsort a m = .ok m' ∧ SortedFrom a m m') ↔ a.nel * width ≤ 32767 := by
  have hlast (hnel : 0 < a.nel) : a.base + ((a.nel - 1) * width % 65536 : ℕ) = a.addr (a.nel - 1) := by
    have hle : (a.nel - 1) * width ≤ a.nel * width := Nat.mul_le_mul_right _ (Nat.sub_le _ _)
    unfold SortArgs.addr
    rw [Nat.mod_eq_of_lt (by omega)]
    push_cast [Nat.cast_sub hnel]
    ring
  have hfirst : a.base = a.addr 0 := by
    unfold SortArgs.addr
    ring
  unfold qsort
  constructor
  · rintro ⟨m', hrun, -⟩
    by_contra hlarge
    have htwo : 2 ≤ a.nel := by
      by_contra hfew
      have : a.nel * width ≤ 1 * width := Nat.mul_le_mul_right _ (by omega)
      omega
    rw [if_pos (by omega), hlast (by omega)] at hrun
    have hspan : a.addr (a.nel - 1) - a.base + width = a.nel * width := by
      unfold SortArgs.addr
      ring
    have hover : (32767 : ℤ) < a.nel * width := by exact_mod_cast not_le.mp hlarge
    unfold qsort1 at hrun
    rw [if_neg (by omega)] at hrun
    rcases le_or_gt (a.addr (a.nel - 1) - a.base) 32767 with hfits | hspans
    · rw [checked_ok (by omega)] at hrun
      dsimp only [bind, Except.bind] at hrun
      rw [hspan, checked_overflow hover] at hrun
      cases hrun
    · rw [checked_overflow hspans] at hrun
      cases hrun
  · intro hfits
    split
    next hnel =>
      obtain ⟨m', hrun, hshuffled, hsorted⟩ := @qsort1_sorts width a m 0 (a.nel - 1)
        (n := a.nel + 1) ⟨hw, hcompar, by omega⟩ hwidth hfits (by omega) (by push_cast; omega)
      rw [← hfirst, ← hlast hnel] at hrun
      refine ⟨m', hrun, hshuffled, hsorted, fun x hx => ?_⟩
      obtain ⟨i, b, rfl⟩ := exists_addr a hw x
      have hout : i < 0 ∨ (a.nel : ℤ) - 1 < i := by
        by_contra hin
        have hinside := inside_addr (a := a) (i := i) (by omega)
        unfold SortArgs.inside at hinside
        have := b.isLt
        omega
      exact congrFun (hshuffled.outside hout) b
    next hnel =>
      have hzero : a.nel = 0 := by omega
      refine ⟨m, rfl, .refl _ _ _, sortedOn_of_le (by omega), fun _ _ => rfl⟩

/-- Bytes by their values. -/
def byteOrder (x y : Element 1) : ℤ := (x 0).toNat - (y 0).toNat

theorem byteOrder_preordered : Preordered byteOrder where
  swap x y := by
    unfold byteOrder
    omega
  trans x y z hxy hyz := by
    unfold byteOrder at *
    omega

/-- Three bytes. -/
theorem qsort_sorts_iff_three : ∃ m',
    qsort { base := 0, nel := 3, compar := byteOrder } (fun x => 9 - x.toNat.toUInt8) = .ok m' ∧
    SortedFrom { base := 0, nel := 3, compar := byteOrder } (fun x => 9 - x.toNat.toUInt8) m' :=
  (qsort_sorts_iff _ _ (by decide) (by decide) (by decide) byteOrder_preordered).mpr (by decide)

/-- An array of 40000 bytes. -/
def largeArray : SortArgs 1 := { base := 0x20000, nel := 40000, compar := byteOrder }

/-- Its size is no `int`; cut to 16 bits it gives a pivot before the array. -/
theorem qsort_overflows : qsort largeArray (fun _ => 0) = .error .overflow ∧
    ¬largeArray.inside (largeArray.base + ((39999 + 1 + 2 ^ 15) % 2 ^ 16 - 2 ^ 15 : ℤ).tdiv 2) := by
  refine ⟨?_, by decide +kernel⟩
  unfold qsort
  rw [if_pos (by decide)]
  unfold qsort1
  have hlast : largeArray.base + ((largeArray.nel - 1) * 1 % 65536 : ℕ) - largeArray.base = 39999 := by
    decide +kernel
  rw [if_neg (by decide +kernel), hlast, checked_overflow (by decide)]
  rfl

end LisaMinix.Libc
