import LisaMinix.Kernel.VduSteps

/-!
# Editing the Screen

The editing operations of ANSI terminals, and what the routines of the driver make of the grid.

- `Editing.source`: where the character at a place comes from, and `Editing.prescribed`: the grid after an
  operation.  They are stated without the program.
- `cells_cpylineLoop`, `cells_cpycharLoop`: the loops of overlapping copies.
- `cells_run`: while the cursor is on a character, the driver does what is prescribed.
- `cells_clrchar_pastEnd`: what `clrchar` clears when it is given the place past the last column.
-/

namespace LisaMinix.Kernel.Vdu

open LisaMinix.Library (storeLoop storeLoop_of_ne storeLoop_at foldl_eq_storeLoop)

/-! ## §1 The operations -/

/-- The contents of the screen, by row and column. -/
abbrev Grid := ℤ → ℤ → Cell

/-- A place on the screen. -/
abbrev OnScreen (r c : ℤ) : Prop := (0 ≤ r ∧ r < nrow) ∧ 0 ≤ c ∧ c < ncol

/-- Erase in display, erase in line, insert and delete line, insert and delete character. -/
inductive Editing
  | ed | el | il | dl | ich | dch
  deriving DecidableEq

/-- Where the character at a place comes from, with the cursor at a row and column; `none` for what is
cleared.  The parameter `n` is a number of rows or characters, at least 1, or what to erase: from the
cursor, up to the cursor, or all. -/
def Editing.source (op : Editing) (n : ℕ) (row col r c : ℤ) : Option (ℤ × ℤ) :=
  let count : ℤ := max 1 n
  match op with
  | .ed =>
    if (n = 0 ∧ (row < r ∨ r = row ∧ col ≤ c)) ∨ (n = 1 ∧ (r < row ∨ r = row ∧ c ≤ col)) ∨ n = 2
    then none else some (r, c)
  | .el =>
    if r = row ∧ ((n = 0 ∧ col ≤ c) ∨ (n = 1 ∧ c ≤ col) ∨ n = 2) then none else some (r, c)
  | .il =>
    if r < row then some (r, c) else if r < row + count then none else some (r - count, c)
  | .dl =>
    if r < row then some (r, c) else if r + count < nrow then some (r + count, c) else none
  | .ich =>
    if r ≠ row ∨ c < col then some (r, c)
    else if c < col + count then none else some (r, c - count)
  | .dch =>
    if r ≠ row ∨ c < col then some (r, c)
    else if c + count < ncol then some (r, c + count) else none

/-- The character that is taken from a place. -/
def Grid.take (g : Grid) : Option (ℤ × ℤ) → Cell
  | some (r, c) => g r c
  | none => blank

theorem Grid.take_ites {p q : Prop} [Decidable p] [Decidable q] (g : Grid) (x y z : Option (ℤ × ℤ)) :
    g.take (if p then x else if q then y else z) =
      if p then g.take x else if q then g.take y else g.take z := by
  rw [apply_ite g.take, apply_ite g.take]

/-- The grid after an operation. -/
def Editing.prescribed (op : Editing) (n : ℕ) (row col : ℤ) (g : Grid) : Grid := fun r c =>
  g.take (op.source n row col r c)

/-- What the driver does, with the first parameter `j`. -/
def Editing.run (op : Editing) (v : VduInfo) (j : ℤ) : VduInfo :=
  let i := if j ≤ 0 then 1 else j
  match op with
  | .ed => v.ed j
  | .el => v.el j
  | .il => v.il i
  | .dl => v.dl i
  | .ich => v.ich i
  | .dch => v.dch i

/-! ## §2 Loops -/

section Loops

variable {row src dst : ℕ → ℤ} {n : ℕ} {r c : ℤ}

/-- A loop that copies rows is a loop of stores. -/
theorem cells_cpylineLoop (src dst : ℕ → ℤ) (n : ℕ) (s : Screen) :
    ((List.range n).foldl (fun s (k : ℕ) => s.cpyline (src k) (dst k)) s).cells =
      storeLoop (fun _ x => x) src dst n s.cells := by
  refine foldl_eq_storeLoop Screen.cells _ n (fun s k _ => ?_) s
  funext r c
  rw [Screen.cells_cpyline, Function.update_apply]
  split_ifs
  all_goals rfl

/-- A loop that copies characters is a loop of stores. -/
theorem cells_cpycharLoop (r : ℤ) {n : ℕ} (hsrc : ∀ k < n, 0 ≤ src k ∧ src k < ncol)
    (hdst : ∀ k < n, 0 ≤ dst k ∧ dst k < ncol) (s : Screen) :
    ((List.range n).foldl (fun s (k : ℕ) => s.cpychar r (src k) r (dst k)) s).cells r =
      storeLoop (fun _ x => x) src dst n (s.cells r) := by
  refine foldl_eq_storeLoop (fun s => s.cells r) _ n (fun s k hk => ?_) s
  funext c
  rw [Screen.cells_cpychar (hsrc k hk) (hdst k hk), Function.update_apply]
  simp only [true_and]

/-- Copying characters of one row leaves the other rows. -/
theorem cells_cpycharLoop_of_ne {r r' : ℤ} (hr : r' ≠ r)
    {n : ℕ} (hsrc : ∀ k < n, 0 ≤ src k ∧ src k < ncol)
    (hdst : ∀ k < n, 0 ≤ dst k ∧ dst k < ncol) (s : Screen) :
    ((List.range n).foldl (fun s (k : ℕ) => s.cpychar r (src k) r (dst k)) s).cells r' =
      s.cells r' := by
  induction n with
  | zero => rfl
  | succ n ih =>
    rw [List.range_succ, List.foldl_append, List.foldl_cons, List.foldl_nil]
    funext c
    rw [Screen.cells_cpychar (hsrc n (Nat.lt_succ_self n)) (hdst n (Nat.lt_succ_self n)),
      if_neg fun h => hr h.1, ih (fun k hk => hsrc k (Nat.lt_succ_of_lt hk))
        (fun k hk => hdst k (Nat.lt_succ_of_lt hk))]

end Loops

/-! ## §3 Lines -/

section Lines

variable {v : VduInfo} {i r c : ℤ}

/-- Inserting lines: the rows below are moved from the last row up, then rows are cleared. -/
theorem cells_il (h : Placed v) (hi : 1 ≤ i) (hr : 0 ≤ r ∧ r < nrow) (c : ℤ) :
    (v.il i).screen.cells r c =
      if r < v.crow then v.screen.cells r c else if r < v.crow + i then blank
      else v.screen.cells (r - i) c := by
  have hrow := h.row
  unfold VduInfo.il VduInfo.draw
  dsimp only
  set m := min i (nrow - v.crow) with hm
  unfold nrow at *
  rw [Screen.cells_clrlineLoop (fun k : ℕ => v.crow + m - 1 - k),
    cells_cpylineLoop (fun k : ℕ => 40 - 1 - k - m) (fun k : ℕ => 40 - 1 - (k : ℤ))]
  by_cases habove : r < v.crow
  · rw [if_pos habove, if_neg (by rintro ⟨k, hk, hkr⟩; omega),
      storeLoop_of_ne fun k hk => by omega]
  rw [if_neg habove]
  by_cases hblank : r < v.crow + i
  · rw [if_pos hblank, if_pos ⟨(v.crow + m - 1 - r).toNat, by omega, by omega⟩]
  · -- row `r` is stored by round `39 - r`
    rw [if_neg hblank, if_neg (by rintro ⟨k, hk, hkr⟩; omega)]
    rw [storeLoop_at (fun k hk j hj => by omega) (fun k hk j hj => by omega)
      (show (39 - r).toNat < _ by omega) (by omega)]
    congr 1
    omega

/-- Deleting lines: the rows below are moved from the first row down, then rows are cleared. -/
theorem cells_dl (h : Placed v) (hi : 1 ≤ i) (hr : 0 ≤ r ∧ r < nrow) (c : ℤ) :
    (v.dl i).screen.cells r c =
      if r < v.crow then v.screen.cells r c else if r + i < nrow then v.screen.cells (r + i) c
      else blank := by
  have hrow := h.row
  unfold VduInfo.dl VduInfo.draw
  dsimp only
  set m := min i (nrow - v.crow) with hm
  unfold nrow at *
  rw [Screen.cells_clrlineLoop (fun k : ℕ => 40 - m + k),
    cells_cpylineLoop (fun k : ℕ => v.crow + k + m) (fun k : ℕ => v.crow + (k : ℤ))]
  by_cases habove : r < v.crow
  · rw [if_pos habove, if_neg (by rintro ⟨k, hk, hkr⟩; omega),
      storeLoop_of_ne fun k hk => by omega]
  rw [if_neg habove]
  by_cases hshift : r + i < 40
  · -- row `r` is stored by round `r - crow`
    rw [if_pos hshift, if_neg (by rintro ⟨k, hk, hkr⟩; omega)]
    rw [storeLoop_at (fun k hk j hj => by omega) (fun k hk j hj => by omega)
      (show (r - v.crow).toNat < _ by omega) (by omega)]
    congr 1
    omega
  · rw [if_neg hshift, if_pos ⟨(r - (40 - m)).toNat, by omega, by omega⟩]

end Lines

/-! ## §4 Characters of a row -/

section Characters

variable {v : VduInfo} {i r c : ℤ}

/-- Characters of the cursor's row are moved, then some are cleared. -/
theorem cells_shiftChars {n : ℕ} {src dst : ℕ → ℤ} {row c1 c2 : ℤ}
    (hsrc : ∀ k < n, 0 ≤ src k ∧ src k < ncol) (hdst : ∀ k < n, 0 ≤ dst k ∧ dst k < ncol)
    (h1 : 0 ≤ c1 ∧ c1 < ncol) (h2 : 0 ≤ c2 ∧ c2 < ncol) (s : Screen) (r c : ℤ) :
    (((List.range n).foldl (fun s (k : ℕ) => s.cpychar row (src k) row (dst k)) s).clrarea
        row c1 row c2).cells r c =
      if r = row then
        if c1 ≤ c ∧ c ≤ c2 then blank else storeLoop (fun _ x => x) src dst n (s.cells row) c
      else s.cells r c := by
  rw [Screen.cells_clrarea h1 h2 le_rfl]
  by_cases hrow : r = row
  · rw [if_pos hrow, hrow, cells_cpycharLoop row hsrc hdst]
    exact if_congr (by omega) rfl rfl
  · rw [if_neg (by omega), if_neg hrow, cells_cpycharLoop_of_ne hrow hsrc hdst]

/-- Inserting characters: those from the cursor on are moved from the last one, then the place is cleared. -/
theorem cells_ich (h : Placed v) (hcol : v.ccol < ncol) (hi : 1 ≤ i) (hc : 0 ≤ c ∧ c < ncol) (r : ℤ) :
    (v.ich i).screen.cells r c =
      if r ≠ v.crow ∨ c < v.ccol then v.screen.cells r c else if c < v.ccol + i then blank
      else v.screen.cells r (c - i) := by
  have hleft := h.col.1
  unfold VduInfo.ich VduInfo.draw
  dsimp only
  set m := min i (ncol - v.ccol) with hm
  set n := (ncol - v.ccol - m).toNat with hn
  rw [cells_shiftChars (fun k hk => by omega) (fun k hk => by omega) (by omega) (by omega)]
  unfold ncol at *
  by_cases hrow : r = v.crow
  · subst hrow
    rw [if_pos rfl]
    by_cases hbefore : c < v.ccol
    · rw [if_neg (by omega), if_pos (.inr hbefore), storeLoop_of_ne fun k hk => by omega]
    rw [if_neg (by omega : ¬(v.crow ≠ v.crow ∨ c < v.ccol))]
    by_cases hblank : c < v.ccol + i
    · rw [if_pos hblank, if_pos (by omega)]
    · -- column `c` is stored by round `89 - c`
      rw [if_neg (by omega), if_neg hblank]
      rw [storeLoop_at (fun k hk j hj => by omega) (fun k hk j hj => by omega)
        (show (89 - c).toNat < _ by omega) (by omega)]
      congr 1
      omega
  · rw [if_neg hrow, if_pos (.inl hrow)]

/-- Deleting characters: those after them are moved from the first one, then the end is cleared. -/
theorem cells_dch (h : Placed v) (hcol : v.ccol < ncol) (hi : 1 ≤ i) (hc : 0 ≤ c ∧ c < ncol) (r : ℤ) :
    (v.dch i).screen.cells r c =
      if r ≠ v.crow ∨ c < v.ccol then v.screen.cells r c
      else if c + i < ncol then v.screen.cells r (c + i) else blank := by
  have hleft := h.col.1
  unfold VduInfo.dch VduInfo.draw
  dsimp only
  set m := min i (ncol - v.ccol) with hm
  set n := (ncol - v.ccol - m).toNat with hn
  rw [cells_shiftChars (fun k hk => by omega) (fun k hk => by omega) (by omega) (by omega)]
  unfold ncol at *
  by_cases hrow : r = v.crow
  · subst hrow
    rw [if_pos rfl]
    by_cases hbefore : c < v.ccol
    · rw [if_neg (by omega), if_pos (.inr hbefore), storeLoop_of_ne fun k hk => by omega]
    rw [if_neg (by omega : ¬(v.crow ≠ v.crow ∨ c < v.ccol))]
    by_cases hshift : c + i < 90
    · -- column `c` is stored by round `c - ccol`
      rw [if_neg (by omega), if_pos hshift]
      rw [storeLoop_at (fun k hk j hj => by omega) (fun k hk j hj => by omega)
        (show (c - v.ccol).toNat < _ by omega) (by omega)]
      congr 1
      omega
    · rw [if_neg hshift, if_pos (by omega)]
  · rw [if_neg hrow, if_pos (.inl hrow)]

end Characters

/-! ## §5 Operations -/

section Operations

variable {v : VduInfo} {j r c : ℤ}

/-- The driver clears an area. -/
theorem cells_erase {r1 c1 r2 c2 : ℤ} {p : Prop} [Decidable p]
    (h : (0 ≤ c1 ∧ c1 < 90) ∧ (0 ≤ c2 ∧ c2 < 90) ∧ r1 ≤ r2) (hp : Screen.InArea r1 c1 r2 c2 r c ↔ p) :
    (v.draw (·.clrarea r1 c1 r2 c2)).screen.cells r c =
      Grid.take v.screen.cells (if p then none else some (r, c)) := by
  unfold VduInfo.draw
  rw [Screen.cells_clrarea h.1 h.2.1 h.2.2]
  by_cases hin : p
  · rw [if_pos hin, if_pos (hp.mpr hin)]
    rfl
  · rw [if_neg hin, if_neg (mt hp.mp hin)]
    rfl

/-- Erasing, with the cursor on a character or everything erased. -/
theorem cells_ed (h : Placed v) (hcol : v.ccol < ncol ∨ 2 ≤ j) (hrc : OnScreen r c) :
    (v.ed j).screen.cells r c =
      Editing.ed.prescribed j.toNat v.crow v.ccol v.screen.cells r c := by
  have hrow := h.row
  have hleft := h.col.1
  unfold VduInfo.ed Editing.prescribed Editing.source
  dsimp only
  unfold OnScreen nrow ncol at *
  by_cases h0 : j ≤ 0
  · rw [if_pos h0]
    exact cells_erase (by omega) (by omega)
  rw [if_neg h0]
  by_cases h1 : j = 1
  · rw [if_pos h1]
    exact cells_erase (by omega) (by omega)
  rw [if_neg h1]
  by_cases h2 : j = 2
  · rw [if_pos h2]
    exact cells_erase (by omega) (by omega)
  rw [if_neg h2, if_neg (by omega)]
  rfl

theorem cells_el (h : Placed v) (hcol : v.ccol < ncol ∨ 2 ≤ j) (hrc : OnScreen r c) :
    (v.el j).screen.cells r c =
      Editing.el.prescribed j.toNat v.crow v.ccol v.screen.cells r c := by
  have hrow := h.row
  have hleft := h.col.1
  unfold VduInfo.el Editing.prescribed Editing.source
  dsimp only
  unfold OnScreen nrow ncol at *
  by_cases h0 : j ≤ 0
  · rw [if_pos h0]
    exact cells_erase (by omega) (by omega)
  rw [if_neg h0]
  by_cases h1 : j = 1
  · rw [if_pos h1]
    exact cells_erase (by omega) (by omega)
  rw [if_neg h1]
  by_cases h2 : j = 2
  · rw [if_pos h2]
    exact cells_erase (by omega) (by omega)
  rw [if_neg h2, if_neg (by omega)]
  rfl

/-- The operations that do not touch what is to the right of the cursor, or the cursor's own place, by
its column. -/
def Editing.Columnless (op : Editing) (j : ℤ) : Prop :=
  match op with
  | .ed | .el => 2 ≤ j
  | .il | .dl => True
  | .ich | .dch => False

/-- The driver does what is prescribed while the cursor is on a character, and wherever it is when the
column does not matter. -/
theorem cells_run (op : Editing) (h : Placed v) (hcol : v.ccol < ncol ∨ op.Columnless j)
    (hrc : OnScreen r c) :
    (op.run v j).screen.cells r c = op.prescribed j.toNat v.crow v.ccol v.screen.cells r c := by
  have hi : (1 : ℤ) ≤ (if j ≤ 0 then 1 else j) ∧ (if j ≤ 0 then 1 else j) = max 1 (j.toNat : ℤ) := by
    split_ifs
    all_goals omega
  unfold Editing.run Editing.prescribed Editing.source
  dsimp only
  rw [← hi.2]
  cases op with
  | ed => exact cells_ed h hcol hrc
  | el => exact cells_el h hcol hrc
  | il =>
    dsimp only
    rw [Grid.take_ites]
    exact cells_il h hi.1 hrc.1 c
  | dl =>
    dsimp only
    rw [Grid.take_ites]
    exact cells_dl h hi.1 hrc.1 c
  | ich =>
    dsimp only
    rw [Grid.take_ites]
    exact cells_ich h (hcol.resolve_right id) hi.1 hrc.2 r
  | dch =>
    dsimp only
    rw [Grid.take_ites]
    exact cells_dch h (hcol.resolve_right id) hi.1 hrc.2 r

end Operations

/-! ## §6 Past the last column -/

/-- `clrchar` with the place past the end of a row: 8 scan lines of the first character of the row are
cleared, and one of the row below. -/
theorem cells_clrchar_pastEnd (s : Screen) (r r' c' : ℤ) (k : Fin 9) :
    (s.clrchar r ncol).cells r' c' k =
      if c' = 0 ∧ (r' = r ∧ 1 ≤ (k : ℕ) ∨ r' = r + 1 ∧ (k : ℕ) = 0) then 0 else s.cells r' c' k := by
  have hk := k.isLt
  by_cases hc' : 0 ≤ c' ∧ c' < ncol
  · rw [Screen.cells_of_col hc', Screen.cells_of_col hc', Screen.video_clrchar]
    unfold ncol at *
    unfold bytr bytLin linc
    by_cases hhit : c' = 0 ∧ (r' = r ∧ 1 ≤ (k : ℕ) ∨ r' = r + 1 ∧ (k : ℕ) = 0)
    · rw [if_pos hhit]
      -- the byte is stored by the round before, or by the last round
      rcases hhit.2 with ⟨hr, hk1⟩ | ⟨hr, hk1⟩
      · exact storeLoop_at (fun k hk j hj => by omega) (fun k hk j hj => by omega)
          (show (k : ℕ) - 1 < 9 by omega) (by omega)
      · exact storeLoop_at (fun k hk j hj => by omega) (fun k hk j hj => by omega)
          (show 8 < 9 by omega) (by omega)
    · rw [if_neg hhit]
      exact storeLoop_of_ne fun j hj => by omega
  · rw [Screen.cells_of_not_col hc', Screen.cells_of_not_col hc', if_neg fun h => hc' ?_]
    rw [h.1]
    decide

section PastEnd

variable {v : VduInfo} {j r c : ℤ}

/-- What erases from the cursor on clears a byte of the first character of the row when the cursor is past
the last column. -/
theorem run_pastEnd (op : Editing) (hcol : v.ccol = ncol)
    (hop : op ≠ .il ∧ op ≠ .dl ∧ (op = .ed ∨ op = .el → j ≤ 0)) (hrow : v.crow < nrow) :
    (op.run v j).screen.cells v.crow 0 1 = 0 := by
  have hhit (r : ℤ) : ((v.screen.clrchar v.crow ncol).clrlines (v.crow + 1) r).cells v.crow 0 1 = 0 := by
    rw [Screen.cells_clrlines, if_neg (by omega), cells_clrchar_pastEnd]
    exact if_pos ⟨rfl, .inl ⟨rfl, le_rfl⟩⟩
  have harea (r : ℤ) (hr : v.crow ≤ r) :
      (v.screen.clrarea v.crow ncol r (ncol - 1)).cells v.crow 0 1 = 0 := by
    rw [Screen.clrarea_from_pastEnd hr]
    exact hhit _
  have hcount : min (if j ≤ 0 then 1 else j) (ncol - v.ccol) = 0 := by
    rw [hcol]
    split_ifs
    all_goals omega
  cases op with
  | ed =>
    unfold Editing.run VduInfo.ed
    dsimp only
    rw [if_pos (hop.2.2 (.inl rfl)), hcol]
    exact harea _ (by unfold nrow at *; omega)
  | el =>
    unfold Editing.run VduInfo.el
    dsimp only
    rw [if_pos (hop.2.2 (.inr rfl)), hcol]
    exact harea _ le_rfl
  | il => exact absurd rfl hop.1
  | dl => exact absurd rfl hop.2.1
  | ich =>
    unfold Editing.run VduInfo.ich
    dsimp only
    rw [hcount, hcol]
    exact harea _ le_rfl
  | dch =>
    unfold Editing.run VduInfo.dch
    dsimp only
    rw [hcount, hcol]
    exact harea _ le_rfl

/-- Erasing up to the cursor, past the last column: the rows to the cursor's and a byte below. -/
theorem cells_eraseTo_pastEnd {r1 r2 : ℤ} (hr : r1 ≤ r2) (s : Screen) (hc : 0 ≤ c ∧ c < ncol)
    (k : Fin 9) :
    (s.clrarea r1 0 r2 ncol).cells r c k =
      if r1 ≤ r ∧ r ≤ r2 ∨ (c = 0 ∧ r = r2 + 1 ∧ (k : ℕ) = 0) then 0 else s.cells r c k := by
  rw [Screen.clrarea_to_pastEnd hr, cells_clrchar_pastEnd, Screen.cells_clrchars le_rfl le_rfl,
    Screen.cells_clrlines]
  split_ifs
  all_goals first
    | rfl
    | omega

end PastEnd

end LisaMinix.Kernel.Vdu
