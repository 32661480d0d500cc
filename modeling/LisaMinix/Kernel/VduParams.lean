import LisaMinix.Kernel.VduEditing

/-!
# Parameters of Editing Operations

The driver keeps a parameter in 16 bits, and its cursor can be past the last column.  Here is when this
makes a difference.

- `Editing.Right`: with the parameter `j` the driver does what the number `n` asks for, at the cursor's
  place.
- `run_right`: then every screen becomes what is prescribed.
- `run_wrong`: otherwise the black screen does not.
- `Editing.Idle`: nothing is prescribed (`prescribed_idle`, `prescribed_not_idle`).
-/

namespace LisaMinix.Kernel.Vdu

/-! ## §1 Parameters that are right -/

/-- With the parameter `j` the driver does what the number `n` asks for. -/
def Editing.Right (op : Editing) (j : ℤ) (n : ℕ) (row col : ℤ) : Prop :=
  match op with
  | .ed | .el => (j.toNat = n ∨ 2 < j ∧ 2 < n) ∧ (col = ncol → n ≠ 0 ∧ (n = 1 → row = nrow - 1))
  | .il | .dl => min (max 1 j) (nrow - row) = min (max 1 (n : ℤ)) (nrow - row)
  | .ich | .dch => col < ncol ∧ min (max 1 j) (ncol - col) = min (max 1 (n : ℤ)) (ncol - col)

/-- The operation changes nothing. -/
def Editing.Idle (op : Editing) (n : ℕ) (row col : ℤ) : Prop :=
  match op with
  | .ed => 2 < n ∨ (n = 0 ∧ col = ncol ∧ row = nrow - 1)
  | .el => 2 < n ∨ (n = 0 ∧ col = ncol)
  | .il | .dl => False
  | .ich | .dch => col = ncol

section Right

variable {n : ℕ} {row col j r c : ℤ}

/-- Numbers that come to the same give the same grid. -/
theorem prescribed_congr (op : Editing) (hright : op.Right j n row col) (hrow : row < nrow) (g : Grid)
    (hrc : OnScreen r c) : op.prescribed j.toNat row col g r c = op.prescribed n row col g r c := by
  have hmax : max 1 (j.toNat : ℤ) = max 1 j := by omega
  unfold OnScreen at hrc
  unfold Editing.prescribed Editing.source
  cases op with
  | ed | el =>
    rcases hright.1 with heq | ⟨hj, hn⟩
    · rw [heq]
    · dsimp only
      rw [if_neg (by omega), if_neg (by omega)]
  | il | dl =>
    dsimp only [Editing.Right] at hright ⊢
    rw [hmax]
    by_cases hsame : max 1 j = max 1 (n : ℤ)
    · rw [hsame]
    · -- both numbers reach the last row
      split_ifs
      all_goals first
        | rfl
        | omega
  | ich | dch =>
    dsimp only [Editing.Right] at hright ⊢
    rw [hmax]
    by_cases hsame : max 1 j = max 1 (n : ℤ)
    · rw [hsame]
    · split_ifs
      all_goals first
        | rfl
        | omega

/-- The driver does what is prescribed. -/
theorem run_right (op : Editing) {v : VduInfo} (h : Placed v) (hright : op.Right j n v.crow v.ccol)
    (hrc : OnScreen r c) :
    (op.run v j).screen.cells r c = op.prescribed n v.crow v.ccol v.screen.cells r c := by
  by_cases hcol : v.ccol < ncol ∨ op.Columnless j
  · rw [cells_run op h hcol hrc]
    exact prescribed_congr op hright h.row.2 _ hrc
  · -- what is left is to erase up to the cursor, at the end of the last row
    push Not at hcol
    have hend : v.ccol = ncol := le_antisymm h.col.2 hcol.1
    have hrow := h.row
    unfold OnScreen at hrc
    cases op with
    | ed =>
      have hj : j = 1 ∧ n = 1 := by
        have h1 := hright.1
        have h2 := hright.2 hend
        have h3 : ¬2 ≤ j := hcol.2
        omega
      have hlast := (hright.2 hend).2 hj.2
      unfold Editing.run VduInfo.ed VduInfo.draw Editing.prescribed Editing.source
      dsimp only
      rw [hj.1, hj.2, if_neg (by decide), if_pos rfl, hend, if_pos (by omega)]
      funext k
      rw [cells_eraseTo_pastEnd hrow.1 _ hrc.2, if_pos (by omega)]
      rfl
    | el =>
      have hj : j = 1 ∧ n = 1 := by
        have h1 := hright.1
        have h2 := hright.2 hend
        have h3 : ¬2 ≤ j := hcol.2
        omega
      have hlast := (hright.2 hend).2 hj.2
      unfold Editing.run VduInfo.el VduInfo.draw Editing.prescribed Editing.source
      dsimp only
      rw [hj.1, hj.2, if_neg (by decide), if_pos rfl, hend]
      funext k
      rw [cells_eraseTo_pastEnd le_rfl _ hrc.2]
      by_cases hsame : r = v.crow
      · rw [if_pos (by omega), if_pos (by omega)]
        rfl
      · rw [if_neg (by omega), if_neg (by omega)]
        rfl
    | il => exact absurd trivial hcol.2
    | dl => exact absurd trivial hcol.2
    | ich => exact absurd hright.1 (by omega)
    | dch => exact absurd hright.1 (by omega)

/-- Nothing is prescribed. -/
theorem prescribed_idle (op : Editing) (hidle : op.Idle n row col) (g : Grid) (hrc : OnScreen r c) :
    op.prescribed n row col g r c = g r c := by
  unfold OnScreen at hrc
  unfold Editing.prescribed Editing.source
  cases op with
  | ed | el =>
    dsimp only [Editing.Idle] at hidle ⊢
    rw [if_neg (by omega)]
    rfl
  | il | dl => exact hidle.elim
  | ich | dch =>
    dsimp only [Editing.Idle] at hidle ⊢
    rw [if_pos (by omega)]
    rfl

end Right

/-! ## §2 Parameters that are not -/

/-- A screen that is all black, with the cursor somewhere. -/
def filled (row col : ℤ) : VduInfo where
  screen := ⟨fun _ => 0xFF, []⟩
  curs := row * bytr + min col (ncol - 1)
  attr := false
  ccol := col
  crow := row
  savattr := false
  savccol := 0
  savcrow := 0
  vbuf := fun _ => 0
  next := none
  cursorShown := false
  keypad := false
  appMode := false
  spilled := []

section Wrong

variable {n : ℕ} {row col j r c : ℤ}

theorem placed_filled (hrow : 0 ≤ row ∧ row < nrow) (hcol : 0 ≤ col ∧ col ≤ ncol) :
    Placed (filled row col) :=
  ⟨hrow, hcol, rfl, ⟨le_rfl, (by decide : (0 : ℤ) < nrow)⟩, ⟨le_rfl, (by decide : (0 : ℤ) ≤ ncol)⟩,
    fun _ hn => by cases hn⟩

theorem cells_filled (hc : 0 ≤ c ∧ c < ncol) (k : Fin 9) : (filled row col).screen.cells r c k = 0xFF :=
  if_pos hc

theorem cells_run_filled (op : Editing) (hrow : 0 ≤ row ∧ row < nrow) (hcol : 0 ≤ col ∧ col ≤ ncol)
    (hrun : col < ncol ∨ op.Columnless j) (hrc : OnScreen r c) :
    (op.run (filled row col) j).screen.cells r c =
      op.prescribed j.toNat row col (filled row col).screen.cells r c :=
  cells_run op (placed_filled hrow hcol) hrun hrc

/-- On the black screen it shows when one grid has a character where the other is blank. -/
theorem take_ne {src : Option (ℤ × ℤ)} (h : src = none) {r' c' : ℤ} (hc : 0 ≤ c' ∧ c' < ncol) :
    Grid.take (filled row col).screen.cells src ≠ Grid.take (filled row col).screen.cells (some (r', c')) := by
  intro heq
  rw [h] at heq
  have hbyte : (0 : UInt8) = (filled row col).screen.cells r' c' 0 := congrFun heq 0
  rw [cells_filled hc] at hbyte
  exact absurd hbyte (by decide)

/-- A byte that is cleared in one grid and kept in the other. -/
theorem cell_ne {x : Cell} {k : Fin 9} (hx : x k = 0) {r' c' : ℤ} (hc : 0 ≤ c' ∧ c' < ncol) :
    x ≠ (filled row col).screen.cells r' c' := by
  intro heq
  rw [heq, cells_filled hc] at hx
  exact absurd hx (by decide)

/-- Erasing with another number than was sent, or past the last column. -/
theorem erase_wrong {op : Editing} (hop : op = .ed ∨ op = .el) (hrow : 0 ≤ row ∧ row < nrow)
    (hcol : 0 ≤ col ∧ col ≤ ncol) (hj : j.toNat ≠ n → 2 < n) (hwrong : ¬op.Right j n row col) :
    ∃ r c, OnScreen r c ∧ (op.run (filled row col) j).screen.cells r c ≠
      op.prescribed n row col (filled row col).screen.cells r c := by
  have hfirst : OnScreen row 0 := ⟨hrow, le_rfl, by decide⟩
  have hright : ¬((j.toNat = n ∨ 2 < j ∧ 2 < n) ∧ (col = ncol → n ≠ 0 ∧ (n = 1 → row = nrow - 1))) := by
    rcases hop with rfl | rfl
    all_goals exact hwrong
  -- what is prescribed leaves the first character of the row, when it is not to be erased
  have hkeep (hn : 2 < n ∨ (n = 0 ∧ col = ncol)) :
      op.prescribed n row col (filled row col).screen.cells row 0 =
        (filled row col).screen.cells row 0 := by
    unfold Editing.prescribed Editing.source ncol at *
    rcases hop with rfl | rfl
    all_goals
      dsimp only
      rw [if_neg (by omega)]
      rfl
  by_cases hend : col = ncol ∧ j ≤ 0
  · refine ⟨row, 0, hfirst, ?_⟩
    have hnot : op ≠ .il ∧ op ≠ .dl := by
      rcases hop with rfl | rfl
      all_goals exact ⟨by decide, by decide⟩
    rw [hkeep (by omega)]
    exact cell_ne (run_pastEnd op hend.1 ⟨hnot.1, hnot.2, fun _ => hend.2⟩ hrow.2)
      ⟨le_rfl, by decide⟩
  by_cases hup : col = ncol ∧ j = 1
  · -- the row of the cursor is cleared, and a byte of the row below
    have hto : ∃ r1 ≤ row, 0 ≤ r1 ∧ (op.run (filled row col) j).screen =
        (filled row col).screen.clrarea r1 0 row ncol := by
      rcases hop with rfl | rfl
      · refine ⟨0, hrow.1, le_rfl, ?_⟩
        rw [hup.1, hup.2]
        rfl
      · refine ⟨row, le_rfl, hrow.1, ?_⟩
        rw [hup.1, hup.2]
        rfl
    obtain ⟨r1, hr1, -, hscreen⟩ := hto
    rw [hscreen]
    by_cases hn : 2 < n
    · refine ⟨row, 0, hfirst, ?_⟩
      rw [hkeep (.inl hn)]
      refine cell_ne (k := 0) ?_ ⟨le_rfl, by decide⟩
      rw [cells_eraseTo_pastEnd hr1 _ hfirst.2]
      exact if_pos (.inl ⟨hr1, le_rfl⟩)
    · have hbelow : OnScreen (row + 1) 0 := by
        unfold OnScreen nrow ncol at *
        omega
      have hsame : op.prescribed n row col (filled row col).screen.cells (row + 1) 0 =
          (filled row col).screen.cells (row + 1) 0 := by
        unfold Editing.prescribed Editing.source
        rcases hop with rfl | rfl
        all_goals
          dsimp only
          rw [if_neg (by omega)]
          rfl
      refine ⟨row + 1, 0, hbelow, ?_⟩
      rw [hsame]
      refine cell_ne (k := 0) ?_ ⟨le_rfl, by decide⟩
      rw [cells_eraseTo_pastEnd hr1 _ hbelow.2]
      exact if_pos (.inr ⟨rfl, rfl, rfl⟩)
  -- otherwise the driver erases something and nothing should be
  have hrun : col < ncol ∨ op.Columnless j := by
    by_cases hlt : col < ncol
    · exact .inl hlt
    · have hj2 : 2 ≤ j := by omega
      rcases hop with rfl | rfl
      all_goals exact .inr hj2
  have hn : 2 < n ∧ j ≤ 2 := by omega
  obtain ⟨c, hfrom, hto⟩ : ∃ c : ℤ, (j ≤ 0 → c = col) ∧ (0 < j → c = 0) :=
    ⟨if j ≤ 0 then col else 0, fun h => if_pos h, fun h => if_neg (by omega)⟩
  have hat : OnScreen row c := by
    unfold OnScreen ncol at *
    omega
  refine ⟨row, c, hat, ?_⟩
  rw [cells_run_filled op hrow hcol hrun hat]
  have hidle : op.Idle n row col := by
    rcases hop with rfl | rfl
    all_goals exact .inl hn.1
  rw [prescribed_idle op hidle _ hat]
  refine take_ne ?_ hat.2
  unfold Editing.source
  rcases hop with rfl | rfl
  all_goals
    dsimp only
    exact if_pos (by omega)

/-- Inserting or deleting another number of lines. -/
theorem lines_wrong {op : Editing} (hop : op = .il ∨ op = .dl) (hrow : 0 ≤ row ∧ row < nrow)
    (hcol : 0 ≤ col ∧ col ≤ ncol) (hwrong : ¬op.Right j n row col) :
    ∃ r c, OnScreen r c ∧ (op.run (filled row col) j).screen.cells r c ≠
      op.prescribed n row col (filled row col).screen.cells r c := by
  have hfirst : (0 : ℤ) ≤ 0 ∧ (0 : ℤ) < ncol := ⟨le_rfl, by decide⟩
  have hmax : max 1 (j.toNat : ℤ) = max 1 j := by omega
  set a := min (max 1 j) (nrow - row) with ha
  set b := min (max 1 (n : ℤ)) (nrow - row) with hb
  have hne : a ≠ b := by
    rcases hop with rfl | rfl
    all_goals exact hwrong
  rcases hop with rfl | rfl
  · -- the first row that only one of the numbers clears
    have hat : OnScreen (row + min a b) 0 := ⟨by omega, hfirst⟩
    refine ⟨row + min a b, 0, hat, ?_⟩
    rw [cells_run_filled .il hrow hcol (.inr trivial) hat]
    unfold Editing.prescribed Editing.source
    dsimp only
    rw [hmax, if_neg (by omega)]
    rcases lt_or_gt_of_ne hne with hlt | hlt
    · rw [if_neg (by omega), if_neg (by omega), if_pos (by omega)]
      exact (take_ne rfl hfirst).symm
    · rw [if_pos (by omega), if_neg (by omega), if_neg (by omega)]
      exact take_ne rfl hfirst
  · have hat : OnScreen (nrow - max a b) 0 := ⟨by omega, hfirst⟩
    refine ⟨nrow - max a b, 0, hat, ?_⟩
    rw [cells_run_filled .dl hrow hcol (.inr trivial) hat]
    unfold Editing.prescribed Editing.source
    dsimp only
    rw [hmax, if_neg (by omega)]
    rcases lt_or_gt_of_ne hne with hlt | hlt
    · rw [if_pos (by omega), if_neg (by omega), if_neg (by omega)]
      exact (take_ne rfl hfirst).symm
    · rw [if_neg (by omega), if_neg (by omega), if_pos (by omega)]
      exact take_ne rfl hfirst

/-- Inserting or deleting another number of characters, or past the last column. -/
theorem chars_wrong {op : Editing} (hop : op = .ich ∨ op = .dch) (hrow : 0 ≤ row ∧ row < nrow)
    (hcol : 0 ≤ col ∧ col ≤ ncol) (hwrong : ¬op.Right j n row col) :
    ∃ r c, OnScreen r c ∧ (op.run (filled row col) j).screen.cells r c ≠
      op.prescribed n row col (filled row col).screen.cells r c := by
  have hmax : max 1 (j.toNat : ℤ) = max 1 j := by omega
  have hnot : op ≠ .il ∧ op ≠ .dl ∧ ¬(op = .ed ∨ op = .el) := by
    rcases hop with rfl | rfl
    all_goals decide
  by_cases hend : col = ncol
  · refine ⟨row, 0, ⟨hrow, le_rfl, by decide⟩, ?_⟩
    have hidle : op.Idle n row col := by
      rcases hop with rfl | rfl
      all_goals exact hend
    rw [prescribed_idle op hidle _ ⟨hrow, le_rfl, by decide⟩]
    exact cell_ne (run_pastEnd op (v := filled row col) hend
      ⟨hnot.1, hnot.2.1, fun h => absurd h hnot.2.2⟩ hrow.2) ⟨le_rfl, by decide⟩
  have hlt : col < ncol := lt_of_le_of_ne hcol.2 hend
  set a := min (max 1 j) (ncol - col) with ha
  set b := min (max 1 (n : ℤ)) (ncol - col) with hb
  have hne : a ≠ b := by
    intro heq
    apply hwrong
    rcases hop with rfl | rfl
    all_goals exact ⟨hlt, heq⟩
  rcases hop with rfl | rfl
  · have hat : OnScreen row (col + min a b) := ⟨hrow, by omega⟩
    refine ⟨row, col + min a b, hat, ?_⟩
    rw [cells_run_filled .ich hrow hcol (.inl hlt) hat]
    unfold Editing.prescribed Editing.source
    dsimp only
    rw [hmax, if_neg (by omega)]
    rcases lt_or_gt_of_ne hne with hlt | hlt
    · rw [if_neg (by omega), if_neg (by omega), if_pos (by omega)]
      exact (take_ne rfl (by omega)).symm
    · rw [if_pos (by omega), if_neg (by omega), if_neg (by omega)]
      exact take_ne rfl (by omega)
  · have hat : OnScreen row (ncol - max a b) := ⟨hrow, by omega⟩
    refine ⟨row, ncol - max a b, hat, ?_⟩
    rw [cells_run_filled .dch hrow hcol (.inl hlt) hat]
    unfold Editing.prescribed Editing.source
    dsimp only
    rw [hmax, if_neg (by omega)]
    rcases lt_or_gt_of_ne hne with hlt | hlt
    · rw [if_pos (by omega), if_neg (by omega), if_neg (by omega)]
      exact (take_ne rfl (by omega)).symm
    · rw [if_neg (by omega), if_neg (by omega), if_pos (by omega)]
      exact take_ne rfl (by omega)

/-- With a parameter that is not right, the black screen does not become what is prescribed. -/
theorem run_wrong (op : Editing) (hrow : 0 ≤ row ∧ row < nrow) (hcol : 0 ≤ col ∧ col ≤ ncol)
    (hj : j.toNat ≠ n → 2 < n) (hwrong : ¬op.Right j n row col) :
    ∃ r c, OnScreen r c ∧ (op.run (filled row col) j).screen.cells r c ≠
      op.prescribed n row col (filled row col).screen.cells r c := by
  cases op with
  | ed => exact erase_wrong (.inl rfl) hrow hcol hj hwrong
  | el => exact erase_wrong (.inr rfl) hrow hcol hj hwrong
  | il => exact lines_wrong (.inl rfl) hrow hcol hwrong
  | dl => exact lines_wrong (.inr rfl) hrow hcol hwrong
  | ich => exact chars_wrong (.inl rfl) hrow hcol hwrong
  | dch => exact chars_wrong (.inr rfl) hrow hcol hwrong

/-- What is not idle shows on the black screen. -/
theorem prescribed_not_idle (op : Editing) (hrow : 0 ≤ row ∧ row < nrow) (hcol : 0 ≤ col ∧ col ≤ ncol)
    (hidle : ¬op.Idle n row col) :
    ∃ r c, OnScreen r c ∧ op.prescribed n row col (filled row col).screen.cells r c ≠
      (filled row col).screen.cells r c := by
  -- a place that is cleared
  suffices hblank : ∃ r c, OnScreen r c ∧ op.source n row col r c = none by
    obtain ⟨r, c, hat, hsrc⟩ := hblank
    exact ⟨r, c, hat, take_ne hsrc hat.2⟩
  have hncol : ncol = 90 := rfl
  have hnrow : nrow = 40 := rfl
  unfold Editing.Idle at hidle
  unfold OnScreen Editing.source
  cases op with
  | ed =>
    dsimp only at hidle ⊢
    by_cases hbelow : n = 0 ∧ col = 90
    · exact ⟨row + 1, 0, by omega, if_pos (by omega)⟩
    · by_cases h0 : n = 0
      · exact ⟨row, col, by omega, if_pos (by omega)⟩
      · exact ⟨row, 0, by omega, if_pos (by omega)⟩
  | el =>
    dsimp only at hidle ⊢
    by_cases h0 : n = 0
    · exact ⟨row, col, by omega, if_pos (by omega)⟩
    · exact ⟨row, 0, by omega, if_pos (by omega)⟩
  | il =>
    refine ⟨row, 0, by omega, ?_⟩
    dsimp only
    rw [if_neg (by omega), if_pos (by omega)]
  | dl =>
    refine ⟨39, 0, by omega, ?_⟩
    dsimp only
    rw [if_neg (by omega), if_neg (by omega)]
  | ich =>
    dsimp only at hidle ⊢
    refine ⟨row, col, by omega, ?_⟩
    rw [if_neg (by omega), if_pos (by omega)]
  | dch =>
    dsimp only at hidle ⊢
    refine ⟨row, 89, by omega, ?_⟩
    rw [if_neg (by omega), if_neg (by omega)]

end Wrong

end LisaMinix.Kernel.Vdu
