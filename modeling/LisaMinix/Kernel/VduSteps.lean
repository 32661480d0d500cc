import LisaMinix.Kernel.VduScreen

/-!
# Steps of the Screen Driver

What a character does to the state of the screen driver.

- `vduparam_cases`: the parameters of a sequence are read up to its NUL, and no further.
- `Placed`: the cursor and the write position of escape sequences are where they should be.
- `Sound`: `Placed`, and if that is asked for, nothing has been stored past `vbuf` or outside of the 40
  rows.
- `Sound.vduansi_cases`, `Sound.vduesc`, `Sound.ctrl`, `Sound.text_cases`: all commands keep this.
-/

namespace LisaMinix.Kernel.Vdu

open Function

open LisaMinix.Kernel.Tty (wrap16 xtabs crmod)
open LisaMinix.Library (foldl_range_invariant)

/-! ## §1 Parameters -/

section Parameters

variable {vbuf : ℕ → UInt8} {last : ℕ}

/-- The loop for a number ends at the NUL at the latest. -/
theorem digits_cases (hlast : vbuf last = 0) (fuel : ℕ) {next : ℕ} (hnext : next ≤ last) (i : ℤ)
    (c : UInt8) :
    (digits vbuf last fuel i c next = .error .endless ∧ fuel ≤ last - next) ∨
      ∃ i' next', digits vbuf last fuel i c next = .ok (i', vbuf (next' - 1), next') ∧
        next < next' ∧ next' ≤ last + 1 := by
  induction fuel generalizing next i c with
  | zero => exact .inl ⟨rfl, Nat.zero_le _⟩
  | succ fuel ih =>
    unfold digits
    dsimp only
    rw [fetch, if_pos hnext]
    change ((if isDigit (vbuf next) = true then _ else _) = _ ∧ _) ∨
      ∃ i' next', (if isDigit (vbuf next) = true then _ else _) = _ ∧ _
    by_cases hdigit : isDigit (vbuf next) = true
    · -- a digit is not the NUL
      have hlt : next < last := by
        refine lt_of_le_of_ne hnext fun heq => ?_
        rw [heq, hlast] at hdigit
        exact absurd hdigit (by decide)
      rw [if_pos hdigit]
      rcases ih (show next + 1 ≤ last from hlt) _ (vbuf next) with ⟨hend, hfuel⟩ | ⟨i', next', hok, h1, h2⟩
      · exact .inl ⟨hend, by omega⟩
      · exact .inr ⟨i', next', hok, by omega, h2⟩
    · rw [if_neg hdigit]
      exact .inr ⟨_, next + 1, rfl, by omega, by omega⟩

/-- `vduparam` returns after at most as many rounds as there are characters, and what it has read is
behind it when there was a number. -/
theorem vduparam_cases (hlast : vbuf last = 0) (fuel : ℕ) {next : ℕ} (hnext : next ≤ last) :
    (vduparam fuel vbuf last next = .error .endless ∧ fuel ≤ last) ∨
      ∃ i next', vduparam fuel vbuf last next = .ok (i, next') ∧ next' ≤ last ∧
        (0 ≤ i → next < next') := by
  have hsemi {k : ℕ} (hk : k ≤ last) (hne : ¬vbuf k ≠ 59) : k < last := by
    refine lt_of_le_of_ne hk fun heq => hne ?_
    rw [heq, hlast]
    decide
  unfold vduparam
  rw [fetch, if_pos hnext]
  change (((if isDigit (vbuf next) = true then _ else _) : Except Fault (ℤ × UInt8 × ℕ)).bind _ = _ ∧
    _) ∨ ∃ i next', ((if isDigit (vbuf next) = true then _ else _) :
      Except Fault (ℤ × UInt8 × ℕ)).bind _ = _ ∧ _
  by_cases hdigit : isDigit (vbuf next) = true
  · have hlt : next < last := by
      refine lt_of_le_of_ne hnext fun heq => ?_
      rw [heq, hlast] at hdigit
      exact absurd hdigit (by decide)
    rw [if_pos hdigit]
    rcases digits_cases hlast fuel (show next + 1 ≤ last from hlt) 0 (vbuf next) with
      ⟨hend, hfuel⟩ | ⟨i', next', hok, h1, h2⟩
    · rw [hend]
      exact .inl ⟨rfl, by omega⟩
    · rw [hok]
      refine .inr ⟨i', _, rfl, ?_, fun _ => ?_⟩
      · split_ifs with hne
        · omega
        · have := hsemi (show next' - 1 ≤ last by omega) hne
          omega
      · split_ifs
        all_goals omega
  · rw [if_neg hdigit]
    refine .inr ⟨-1, _, rfl, ?_, fun h => absurd h (by decide)⟩
    split_ifs with hne
    · omega
    · have := hsemi hnext hne
      omega

/-- The loop for SGR: each round but the last reads a number. -/
theorem sgr_cases (hlast : vbuf last = 0) (fuel rounds : ℕ) {next : ℕ} (hnext : next ≤ last)
    (attr : Bool) (j : ℤ) :
    (sgr fuel vbuf last rounds attr j next = .error .endless ∧ (fuel ≤ last ∨ rounds ≤ last)) ∨
      ∃ attr', sgr fuel vbuf last rounds attr j next = .ok attr' := by
  have hloop : (sgr fuel vbuf last rounds attr j next = .error .endless ∧
      (fuel ≤ last ∨ rounds ≤ last - next)) ∨
        ∃ attr', sgr fuel vbuf last rounds attr j next = .ok attr' := by
    induction rounds generalizing attr j next with
    | zero => exact .inl ⟨rfl, .inr (Nat.zero_le _)⟩
    | succ rounds ih =>
      unfold sgr
      dsimp only
      rcases vduparam_cases hlast fuel hnext with ⟨hend, hfuel⟩ | ⟨j', next', hok, h1, h2⟩
      · rw [hend]
        exact .inl ⟨rfl, .inl hfuel⟩
      · rw [hok]
        change ((if 0 ≤ j' then _ else _) = _ ∧ _) ∨ ∃ _, (if 0 ≤ j' then _ else _) = _
        by_cases hj : 0 ≤ j'
        · rw [if_pos hj]
          have hlt := h2 hj
          rcases ih h1 _ j' with ⟨hend, hrounds⟩ | hok'
          · exact .inl ⟨hend, by omega⟩
          · exact .inr hok'
        · rw [if_neg hj]
          exact .inr ⟨_, rfl⟩
  rcases hloop with ⟨hend, hrounds⟩ | hok
  · exact .inl ⟨hend, by omega⟩
  · exact .inr hok

end Parameters

/-! ## §2 The cursor and the screen -/

/-- The cursor is on the screen or right past the end of a row, `curs` points to its character, and
the write position is in `vbuf` or right past its end. -/
structure Placed (v : VduInfo) : Prop where
  row : 0 ≤ v.crow ∧ v.crow < nrow
  col : 0 ≤ v.ccol ∧ v.ccol ≤ ncol
  curs : v.curs = v.crow * bytr + min v.ccol (ncol - 1)
  savrow : 0 ≤ v.savcrow ∧ v.savcrow < nrow
  savcol : 0 ≤ v.savccol ∧ v.savccol ≤ ncol
  next : ∀ n, v.next = some n → n ≤ 20

/-- `Placed`; and if `clean` is asked for, all that has been stored is in `vbuf` and on the screen. -/
structure Sound (clean : Prop) (v : VduInfo) : Prop extends Placed v where
  spilled : clean → v.spilled = []
  within : clean → v.screen.Within

namespace Sound

variable {clean : Prop} {v : VduInfo}

theorem moveto (h : Sound clean v) (r c : ℤ) : Sound clean (v.moveto r c) := by
  unfold VduInfo.moveto
  by_cases hout : r < 0 ∨ nrow ≤ r ∨ c < 0 ∨ ncol < c
  · rw [if_pos hout]
    exact h
  · rw [if_neg hout]
    push Not at hout
    refine ⟨⟨⟨hout.1, hout.2.1⟩, hout.2.2, ?_, h.savrow, h.savcol, h.next⟩, h.spilled, h.within⟩
    dsimp only
    congr 1
    split_ifs
    all_goals omega

theorem draw (h : Sound clean v) {f : Screen → Screen}
    (hf : clean → v.screen.Within → (f v.screen).Within) : Sound clean (v.draw f) :=
  ⟨⟨h.row, h.col, h.curs, h.savrow, h.savcol, h.next⟩, h.spilled, fun hc => hf hc (h.within hc)⟩

/-- The scan lines under the cursor are on the screen. -/
theorem curs_within (h : Placed v) {k : ℕ} (hk : k ≤ 8) :
    0 ≤ v.curs + bytLin * (k : ℤ) ∧ v.curs + bytLin * (k : ℤ) < nrow * bytr := by
  have hrow := h.row
  have hcol := h.col
  rw [h.curs]
  unfold nrow ncol bytr bytLin at *
  omega

theorem vducursor (h : Sound clean v) (onoff : Bool) : Sound clean (v.vducursor onoff) := by
  unfold VduInfo.vducursor
  split_ifs
  · exact h
  · have h' : Sound clean { v with cursorShown := onoff } :=
      ⟨⟨h.row, h.col, h.curs, h.savrow, h.savcol, h.next⟩, h.spilled, h.within⟩
    refine h'.draw fun _ hs => foldl_range_invariant (fun s k hk hs => hs.poke ?_) hs
    exact curs_within h.toPlaced (Nat.le_of_lt_succ hk)

theorem paint (h : Sound clean v) (font : ℕ → UInt8) (c : UInt8) : Sound clean (v.paint font c) := by
  unfold VduInfo.paint
  refine h.draw fun _ hs => Screen.Within.poke (foldl_range_invariant (fun s k hk hs => hs.poke ?_) hs)
    (curs_within h.toPlaced (show 8 ≤ 8 from le_rfl))
  exact curs_within h.toPlaced hk.le

theorem scroll (h : Sound clean v) : Sound clean (v.draw VduInfo.scroll) := by
  refine h.draw fun _ hs => ?_
  unfold VduInfo.scroll
  refine (foldl_range_invariant (fun s k hk hs => hs.cpyline ?_ _) hs).clrline (by decide)
  unfold nrow
  omega

theorem scrollBack (h : Sound clean v) : Sound clean (v.draw VduInfo.scrollBack) := by
  refine h.draw fun _ hs => ?_
  unfold VduInfo.scrollBack
  refine (foldl_range_invariant (fun s k hk hs => hs.cpyline ?_ _) hs).clrline (by decide)
  unfold nrow
  omega

theorem index (h : Sound clean v) : Sound clean v.index := by
  unfold VduInfo.index
  split_ifs
  · exact h.scroll
  · exact h.moveto _ _

theorem ctrl (h : Sound clean v) (mode : ℕ) (c : UInt8) : Sound clean (v.ctrl mode c) := by
  unfold VduInfo.ctrl
  split_ifs
  · exact h.moveto _ _
  · exact (h.moveto _ _).index
  · exact h.index
  · exact h.index
  · exact h.moveto _ _
  · exact ⟨⟨h.row, h.col, h.curs, h.savrow, h.savcol, by simp⟩, h.spilled, h.within⟩
  · refine ⟨⟨h.row, h.col, h.curs, h.savrow, h.savcol, fun n hn => ?_⟩, h.spilled, h.within⟩
    cases hn
    exact Nat.zero_le _
  · exact h

theorem vduesc (h : Sound clean v) (mode n : ℕ) (c : UInt8) : Sound clean (v.vduesc mode n c) := by
  have hstored : Sound clean { v with vbuf := update v.vbuf n c } :=
    ⟨⟨h.row, h.col, h.curs, h.savrow, h.savcol, h.next⟩, h.spilled, h.within⟩
  unfold VduInfo.vduesc
  by_cases hfull : 19 ≤ n
  · rw [if_pos hfull]
    exact h
  rw [if_neg hfull]
  extract_lets v' c'
  split_ifs
  · -- the saved position is on the screen, so `moveto` goes there
    refine ⟨?_, ?_, ?_⟩
    · have hok : ¬(v.savcrow < 0 ∨ nrow ≤ v.savcrow ∨ v.savccol < 0 ∨ ncol < v.savccol) := by
        have h1 := h.savrow
        have h2 := h.savcol
        omega
      simp only [VduInfo.moveto, v', if_neg hok]
      refine ⟨h.savrow, h.savcol, ?_, h.savrow, h.savcol, h.next⟩
      dsimp only
      congr 1
      have h2 := h.savcol
      split_ifs
      all_goals omega
    · intro hc
      simp only [VduInfo.moveto]
      split_ifs
      all_goals exact h.spilled hc
    · intro hc
      simp only [VduInfo.moveto]
      split_ifs
      all_goals exact h.within hc
  · exact ⟨⟨h.row, h.col, h.curs, h.row, h.col, h.next⟩, h.spilled, h.within⟩
  · exact ⟨⟨h.row, h.col, h.curs, h.savrow, h.savcol, h.next⟩, h.spilled, h.within⟩
  · exact ⟨⟨h.row, h.col, h.curs, h.savrow, h.savcol, h.next⟩, h.spilled, h.within⟩
  · exact (hstored.ctrl mode 13).ctrl mode 10
  · exact hstored.ctrl mode 10
  · exact hstored.scrollBack
  · exact hstored.moveto _ _
  · have hattr : Sound clean { v' with attr := false } :=
      ⟨⟨h.row, h.col, h.curs, h.savrow, h.savcol, h.next⟩, h.spilled, h.within⟩
    have hdraw : Sound clean (({ v' with attr := false } : VduInfo).moveto 0 0 |>.draw
        (·.clrarea 0 0 (nrow - 1) (ncol - 1))) :=
      (hattr.moveto 0 0).draw fun _ hs =>
        hs.clrarea (by decide) (by decide) le_rfl (by decide) (by decide)
    exact ⟨⟨hdraw.row, hdraw.col, hdraw.curs, hdraw.savrow, hdraw.savcol, hdraw.next⟩,
      hdraw.spilled, hdraw.within⟩
  · exact hstored

end Sound

/-! ## §3 Commands -/

/-- The cursor is past the end of the last row. -/
def AtEnd (v : VduInfo) : Prop := v.crow = nrow - 1 ∧ v.ccol = ncol

/-- The commands that erase from, or up to, the cursor. -/
def Erases (c : UInt8) (j : ℤ) : Prop :=
  match command c with
  | .ed | .el => j ≤ 1
  | .ich | .dch => True
  | _ => False

theorem erases_iff (c : UInt8) (j : ℤ) : Erases c j ↔
    (command c = .ed ∨ command c = .el) ∧ j ≤ 1 ∨ command c = .ich ∨ command c = .dch := by
  unfold Erases
  cases command c with
  | ed | el | ich | dch => simp
  | cuu | cud | cuf | cub | cup | sgr | il | dl | mode | other => simp

instance (v : VduInfo) : Decidable (AtEnd v) := inferInstanceAs (Decidable (_ ∧ _))

instance (c : UInt8) (j : ℤ) : Decidable (Erases c j) := decidable_of_iff _ (erases_iff c j).symm

/-- The first parameter of the sequence in `vbuf`, where `next` is at `n`. -/
def firstParam (v : VduInfo) (n : ℕ) : ℤ :=
  match vduparam 21 (update v.vbuf n 0) n 1 with
  | .ok (j, _) => j
  | .error _ => -1

namespace Sound

variable {clean : Prop} {v : VduInfo} {i j : ℤ}

/-- The cursor is on a character, or past the end of a row that is not the last. -/
theorem col_lt_or (h : Placed v) (hend : ¬AtEnd v) :
    v.ccol < ncol ∨ (v.ccol = ncol ∧ v.crow < nrow - 1) := by
  have hcol := h.col
  have hrow := h.row
  unfold AtEnd at hend
  omega

/-- What begins at the cursor is erased. -/
theorem eraseFrom (h : Sound clean v) (hend : clean → ¬AtEnd v) {r : ℤ} (hr : v.crow ≤ r)
    (hr' : r < nrow) : Sound clean (v.draw (·.clrarea v.crow v.ccol r (ncol - 1))) := by
  refine h.draw fun hc hs => ?_
  rcases col_lt_or h.toPlaced (hend hc) with hlt | ⟨heq, hlast⟩
  · exact hs.clrarea ⟨h.col.1, hlt⟩ ⟨by decide, by decide⟩ h.row.1 hr' hr
  · rw [heq]
    exact hs.clrarea_from_pastEnd h.row.1 hlast hr' hr

/-- What ends at the cursor is erased. -/
theorem eraseTo (h : Sound clean v) (hend : clean → ¬AtEnd v) {r : ℤ} (hr : r ≤ v.crow)
    (hr' : 0 ≤ r) : Sound clean (v.draw (·.clrarea r 0 v.crow v.ccol)) := by
  refine h.draw fun hc hs => ?_
  rcases col_lt_or h.toPlaced (hend hc) with hlt | ⟨heq, hlast⟩
  · exact hs.clrarea ⟨by decide, by decide⟩ ⟨h.col.1, hlt⟩ hr' h.row.2 hr
  · rw [heq]
    exact hs.clrarea_to_pastEnd hr' hlast hr

theorem ed (h : Sound clean v) (hend : clean → ¬(AtEnd v ∧ j ≤ 1)) : Sound clean (v.ed j) := by
  unfold VduInfo.ed
  have hlast : v.crow ≤ nrow - 1 := Int.le_sub_one_of_lt h.row.2
  split_ifs
  · exact h.eraseFrom (fun hc he => hend hc ⟨he, by omega⟩) hlast (by decide)
  · exact h.eraseTo (fun hc he => hend hc ⟨he, by omega⟩) h.row.1 le_rfl
  · exact h.draw fun _ hs =>
      hs.clrarea (by decide) (by decide) le_rfl (by decide) (by decide)
  · exact h

theorem el (h : Sound clean v) (hend : clean → ¬(AtEnd v ∧ j ≤ 1)) : Sound clean (v.el j) := by
  unfold VduInfo.el
  split_ifs
  · exact h.eraseFrom (fun hc he => hend hc ⟨he, by omega⟩) le_rfl h.row.2
  · exact h.eraseTo (fun hc he => hend hc ⟨he, by omega⟩) le_rfl h.row.1
  · exact h.draw fun _ hs =>
      hs.clrarea (by decide) (by decide) h.row.1 h.row.2 le_rfl
  · exact h

theorem il (h : Sound clean v) (hi : 1 ≤ i) : Sound clean (v.il i) := by
  have hrow := h.row
  unfold VduInfo.il
  dsimp only
  set i' := min i (nrow - v.crow) with hi'
  refine h.draw fun _ hs => foldl_range_invariant (fun s k hk hs => hs.clrline ?_)
    (foldl_range_invariant (fun s k hk hs => hs.cpyline ?_ _) hs)
  all_goals
    unfold nrow at *
    omega

theorem dl (h : Sound clean v) (hi : 1 ≤ i) : Sound clean (v.dl i) := by
  have hrow := h.row
  unfold VduInfo.dl
  dsimp only
  set i' := min i (nrow - v.crow) with hi'
  refine h.draw fun _ hs => foldl_range_invariant (fun s k hk hs => hs.clrline ?_)
    (foldl_range_invariant (fun s k hk hs => hs.cpyline ?_ _) hs)
  all_goals
    unfold nrow at *
    omega

/-- Characters of the cursor's row are moved, and an area that is empty past the last column is cleared. -/
theorem shiftChars (h : Sound clean v) (hend : clean → ¬AtEnd v) {n : ℕ} {src dst : ℕ → ℤ} {c1 c2 : ℤ}
    (hdst : ∀ k < n, 0 ≤ dst k ∧ dst k < ncol)
    (hcols : v.ccol < ncol → (0 ≤ c1 ∧ c1 < ncol) ∧ 0 ≤ c2 ∧ c2 < ncol)
    (hpast : v.ccol = ncol → c1 = ncol ∧ c2 = ncol - 1) :
    Sound clean (v.draw fun s => ((List.range n).foldl (fun s (k : ℕ) =>
      s.cpychar v.crow (src k) v.crow (dst k)) s).clrarea v.crow c1 v.crow c2) := by
  refine h.draw fun hc hs => ?_
  have hshift : ((List.range n).foldl (fun s (k : ℕ) =>
      s.cpychar v.crow (src k) v.crow (dst k)) v.screen).Within :=
    foldl_range_invariant (fun s k hk hs => hs.cpychar h.row (hdst k hk) _ _) hs
  rcases col_lt_or h.toPlaced (hend hc) with hlt | ⟨heq, hlast⟩
  · exact hshift.clrarea (hcols hlt).1 (hcols hlt).2 h.row.1 h.row.2 le_rfl
  · rw [(hpast heq).1, (hpast heq).2]
    exact hshift.clrarea_from_pastEnd h.row.1 hlast h.row.2 le_rfl

theorem ich (h : Sound clean v) (hi : 1 ≤ i) (hend : clean → ¬AtEnd v) : Sound clean (v.ich i) := by
  have hcol := h.col
  have hncol : ncol = 90 := rfl
  exact h.shiftChars hend (fun k hk => by omega) (by omega) (by omega)

theorem dch (h : Sound clean v) (hi : 1 ≤ i) (hend : clean → ¬AtEnd v) : Sound clean (v.dch i) := by
  have hcol := h.col
  have hncol : ncol = 90 := rfl
  exact h.shiftChars hend (fun k hk => by omega) (by omega) (by omega)

end Sound

/-! ## §4 Escape sequences -/

/-- More rounds do not change a number that has been read. -/
theorem digits_mono {vbuf : ℕ → UInt8} {last fuel next : ℕ} {i : ℤ} {c : UInt8} {r : ℤ × UInt8 × ℕ}
    (h : digits vbuf last fuel i c next = .ok r) (k : ℕ) :
    digits vbuf last (fuel + k) i c next = .ok r := by
  induction fuel generalizing next i c with
  | zero => cases h
  | succ fuel ih =>
    rw [Nat.succ_add]
    unfold digits at h ⊢
    dsimp only at h ⊢
    cases hfetch : fetch vbuf last next with
    | error e =>
      rw [hfetch] at h
      cases h
    | ok c' =>
      rw [hfetch] at h
      change (if isDigit c' = true then _ else _) = _ at h
      change (if isDigit c' = true then _ else _) = _
      by_cases hdigit : isDigit c' = true
      · rw [if_pos hdigit] at h ⊢
        exact ih h
      · rw [if_neg hdigit] at h ⊢
        exact h

theorem vduparam_mono {vbuf : ℕ → UInt8} {last fuel next : ℕ} {r : ℤ × ℕ}
    (h : vduparam fuel vbuf last next = .ok r) (k : ℕ) :
    vduparam (fuel + k) vbuf last next = .ok r := by
  unfold vduparam at h ⊢
  cases hfetch : fetch vbuf last next with
  | error e =>
    rw [hfetch] at h
    cases h
  | ok c =>
    rw [hfetch] at h
    change ((if isDigit c = true then _ else _) : Except Fault (ℤ × UInt8 × ℕ)).bind _ = _ at h
    change ((if isDigit c = true then _ else _) : Except Fault (ℤ × UInt8 × ℕ)).bind _ = _
    by_cases hdigit : isDigit c = true
    · rw [if_pos hdigit] at h ⊢
      cases hdigits : digits vbuf last fuel 0 c (next + 1) with
      | error e =>
        rw [hdigits] at h
        cases h
      | ok r' =>
        rw [hdigits] at h
        rw [digits_mono hdigits k]
        exact h
    · rw [if_neg hdigit] at h ⊢
      exact h

/-- `firstParam` is the parameter that `vduansi` reads. -/
theorem firstParam_eq {v : VduInfo} {n fuel x : ℕ} {j : ℤ} (hn : 1 ≤ n) (hfull : n < 20)
    (h : vduparam fuel (update v.vbuf n 0) n 1 = .ok (j, x)) : firstParam v n = j := by
  unfold firstParam
  rcases vduparam_cases (update_self n 0 v.vbuf) 21 hn with
    ⟨-, hfuel⟩ | ⟨j', x', hok, -⟩
  · omega
  · have h1 := vduparam_mono h 21
    have h2 := vduparam_mono hok fuel
    rw [Nat.add_comm] at h2
    rw [hok]
    rw [h1] at h2
    cases h2
    rfl

namespace Sound

variable {clean : Prop} {v : VduInfo}

theorem with_vbuf (h : Sound clean v) (vbuf : ℕ → UInt8) : Sound clean { v with vbuf := vbuf } :=
  ⟨⟨h.row, h.col, h.curs, h.savrow, h.savcol, h.next⟩, h.spilled, h.within⟩

/-- The end of an escape sequence. -/
theorem leave (h : Sound clean v) : Sound clean { v with next := none } :=
  ⟨⟨h.row, h.col, h.curs, h.savrow, h.savcol, by simp⟩, h.spilled, h.within⟩

/-- An ANSI sequence returns after 21 rounds at most, and keeps everything in its place, but when it
erases at the end of the screen. -/
theorem vduansi_cases (h : Sound clean v) {n : ℕ} (hn : 1 ≤ n) (fuel : ℕ) (c : UInt8)
    (hsafe : clean → n < 20 → AtEnd v → ¬Erases c (firstParam v n)) :
    (v.vduansi fuel n c = .error .endless ∧ fuel ≤ 20) ∨
      ∃ v', v.vduansi fuel n c = .ok v' ∧ Sound clean v' := by
  unfold VduInfo.vduansi
  by_cases hfull : 20 ≤ n
  · rw [if_pos hfull]
    exact .inr ⟨v, rfl, h⟩
  rw [if_neg hfull]
  extract_lets v₁
  have h₁ : Sound clean v₁ := h.with_vbuf _
  have hend1 : AtEnd v₁ ↔ AtEnd v := Iff.rfl
  have hlast : v₁.vbuf n = 0 := update_self ..
  rcases vduparam_cases hlast fuel hn with ⟨hend, hfuel⟩ | ⟨j, next, hok, hnext, -⟩
  · rw [hend]
    exact .inl ⟨rfl, by omega⟩
  have hparam : firstParam v n = j := firstParam_eq hn (by omega) hok
  rw [hparam] at hsafe
  rw [hok]
  dsimp only [Except.bind]
  set i : ℤ := if j ≤ 0 then 1 else j with hi
  have hi1 : 1 ≤ i := by
    rw [hi]
    split_ifs
    all_goals omega
  unfold Erases at hsafe
  cases hcmd : command c with
  | cuu => exact .inr ⟨_, rfl, h₁.moveto _ _⟩
  | cud => exact .inr ⟨_, rfl, h₁.moveto _ _⟩
  | cuf => exact .inr ⟨_, rfl, h₁.moveto _ _⟩
  | cub => exact .inr ⟨_, rfl, h₁.moveto _ _⟩
  | cup =>
    rcases vduparam_cases hlast fuel hnext with ⟨hend, hfuel⟩ | ⟨j', next', hok', -⟩
    · dsimp only
      rw [hend]
      exact .inl ⟨rfl, by omega⟩
    · dsimp only
      rw [hok']
      exact .inr ⟨_, rfl, h₁.moveto _ _⟩
  | ed =>
    rw [hcmd] at hsafe
    exact .inr ⟨_, rfl, h₁.ed fun hc he => hsafe hc (by omega) he.1 he.2⟩
  | el =>
    rw [hcmd] at hsafe
    exact .inr ⟨_, rfl, h₁.el fun hc he => hsafe hc (by omega) he.1 he.2⟩
  | sgr =>
    rcases sgr_cases hlast fuel fuel hnext v₁.attr j with ⟨hend, hfuel⟩ | ⟨attr, hok'⟩
    · dsimp only
      rw [hend]
      exact .inl ⟨rfl, by omega⟩
    · dsimp only
      rw [hok']
      exact .inr ⟨_, rfl, ⟨h₁.row, h₁.col, h₁.curs, h₁.savrow, h₁.savcol, h₁.next⟩, h₁.spilled,
        h₁.within⟩
  | il => exact .inr ⟨_, rfl, h₁.il hi1⟩
  | dl => exact .inr ⟨_, rfl, h₁.dl hi1⟩
  | ich =>
    rw [hcmd] at hsafe
    exact .inr ⟨_, rfl, h₁.ich hi1 fun hc he => hsafe hc (by omega) he trivial⟩
  | dch =>
    rw [hcmd] at hsafe
    exact .inr ⟨_, rfl, h₁.dch hi1 fun hc he => hsafe hc (by omega) he trivial⟩
  | mode =>
    dsimp only
    rw [fetch, if_pos hnext]
    dsimp only
    by_cases hquestion : v₁.vbuf next = '?'.toUInt8
    · -- the question mark is not the NUL, so one more character may be read
      have hlt : next < n := by
        refine lt_of_le_of_ne hnext fun heq => ?_
        rw [heq, hlast] at hquestion
        exact absurd hquestion (by decide)
      rw [if_pos hquestion, fetch, if_pos (show next + 1 ≤ n from hlt)]
      dsimp only [Except.map]
      refine .inr ⟨_, rfl, ?_⟩
      split_ifs
      · exact ⟨⟨h₁.row, h₁.col, h₁.curs, h₁.savrow, h₁.savcol, h₁.next⟩, h₁.spilled, h₁.within⟩
      · exact h₁
    · rw [if_neg hquestion]
      exact .inr ⟨_, rfl, h₁⟩
  | other => exact .inr ⟨_, rfl, h₁⟩

end Sound

/-! ## §5 Characters and tabs -/

/-- The character that `vdu_out` makes of a byte. -/
def glyph (c : UInt8) : UInt8 := if c &&& 0x80 ≠ 0 then c &&& 0x1F else c

/-- A character is not put into a sequence that is full, and does not end a sequence that erases at
the end of the screen. -/
def SafeText (v : VduInfo) (c : UInt8) : Prop :=
  match v.next with
  | none => True
  | some n =>
    (n = 20 → 48 ≤ c ∧ v.vbuf 0 ≠ '['.toUInt8 ∨ 64 ≤ c) ∧
      (n ≠ 0 ∧ n < 20 ∧ v.vbuf 0 = '['.toUInt8 ∧ 64 ≤ c ∧ AtEnd v → ¬Erases c (firstParam v n))

theorem safeText_iff (v : VduInfo) (c : UInt8) : SafeText v c ↔ ∀ n ∈ v.next,
    (n = 20 → 48 ≤ c ∧ v.vbuf 0 ≠ '['.toUInt8 ∨ 64 ≤ c) ∧
      (n ≠ 0 ∧ n < 20 ∧ v.vbuf 0 = '['.toUInt8 ∧ 64 ≤ c ∧ AtEnd v → ¬Erases c (firstParam v n)) := by
  unfold SafeText
  cases v.next with
  | none => simp
  | some n => simp

instance (v : VduInfo) (c : UInt8) : Decidable (SafeText v c) :=
  decidable_of_iff (∀ n ∈ v.next,
    (n = 20 → 48 ≤ c ∧ v.vbuf 0 ≠ '['.toUInt8 ∨ 64 ≤ c) ∧
      (n ≠ 0 ∧ n < 20 ∧ v.vbuf 0 = '['.toUInt8 ∧ 64 ≤ c ∧ AtEnd v → ¬Erases c (firstParam v n)))
    (safeText_iff v c).symm

/-- The same of a byte; a tab is a blank where tabs are expanded. -/
def Safe (mode : ℕ) (v : VduInfo) (c : UInt8) : Prop :=
  if c = 9 then mode &&& xtabs = xtabs → SafeText v 32
  else if c = 0x7F ∨ c &&& 0o140 = 0 then True
  else SafeText v (glyph c)

instance (mode : ℕ) (v : VduInfo) (c : UInt8) : Decidable (Safe mode v c) :=
  inferInstanceAs (Decidable (if c = 9 then mode &&& xtabs = xtabs → SafeText v 32
    else if c = 0x7F ∨ c &&& 0o140 = 0 then True else SafeText v (glyph c)))

@[simp] theorem vducursor_next (v : VduInfo) (b : Bool) : (v.vducursor b).next = v.next := by
  unfold VduInfo.vducursor
  split_ifs
  all_goals rfl
@[simp] theorem vducursor_vbuf (v : VduInfo) (b : Bool) : (v.vducursor b).vbuf = v.vbuf := by
  unfold VduInfo.vducursor
  split_ifs
  all_goals rfl
@[simp] theorem vducursor_crow (v : VduInfo) (b : Bool) : (v.vducursor b).crow = v.crow := by
  unfold VduInfo.vducursor
  split_ifs
  all_goals rfl
@[simp] theorem vducursor_ccol (v : VduInfo) (b : Bool) : (v.vducursor b).ccol = v.ccol := by
  unfold VduInfo.vducursor
  split_ifs
  all_goals rfl

/-- The cursor does not matter for what is safe. -/
theorem safeText_vducursor (v : VduInfo) (b : Bool) (c : UInt8) :
    SafeText (v.vducursor b) c ↔ SafeText v c := by
  simp only [SafeText, AtEnd, firstParam, vducursor_next, vducursor_vbuf, vducursor_crow,
    vducursor_ccol]

namespace Sound

variable {clean : Prop} {v : VduInfo}

theorem collect (h : Sound clean v) {n : ℕ} (c : UInt8) (hn : v.next = some n)
    (hfull : clean → n ≠ 20) : Sound clean (v.collect n c) := by
  have hle := h.next n hn
  unfold VduInfo.collect
  split_ifs with hroom
  · refine ⟨⟨h.row, h.col, h.curs, h.savrow, h.savcol, fun m hm => ?_⟩, h.spilled, h.within⟩
    cases hm
    omega
  · refine ⟨⟨h.row, h.col, h.curs, h.savrow, h.savcol, h.next⟩, fun hc => ?_, h.within⟩
    exact absurd (by omega) (hfull hc)

/-- `vdu_out` for what is no control character. -/
theorem text_cases (h : Sound clean v) (font : ℕ → UInt8) (fuel mode : ℕ) (c : UInt8)
    (hsafe : clean → SafeText v (glyph c)) :
    (v.text font fuel mode c = .error .endless ∧ fuel ≤ 20) ∨
      ∃ v', v.text font fuel mode c = .ok v' ∧ Sound clean v' := by
  unfold VduInfo.text
  change (match v.next with | none => _ | some n => _ : Except Fault VduInfo) = _ ∧ _ ∨
    ∃ v', (match v.next with | none => _ | some n => _ : Except Fault VduInfo) = _ ∧ _
  unfold SafeText at hsafe
  change clean → (match v.next with | none => _ | some n => _) at hsafe
  generalize hc : glyph c = c' at hsafe
  have hc' : (if c &&& 0x80 ≠ 0 then c &&& 0x1F else c) = c' := hc
  rw [hc']
  cases hnext : v.next with
  | none => exact .inr ⟨_, rfl, (h.paint font c').moveto _ _⟩
  | some n =>
    rw [hnext] at hsafe
    dsimp only at hsafe ⊢
    by_cases hbracket : n = 0 ∧ c' = '['.toUInt8
    · rw [if_pos hbracket]
      have hzero : v.next = some 0 := by rw [hnext, hbracket.1]
      exact .inr ⟨_, rfl, h.collect c' hzero (by simp)⟩
    rw [if_neg hbracket]
    by_cases hesc : 48 ≤ c' ∧ (n = 0 ∨ v.vbuf 0 ≠ '['.toUInt8)
    · rw [if_pos hesc]
      exact .inr ⟨_, rfl, (h.vduesc mode n c').leave⟩
    rw [if_neg hesc]
    by_cases hansi : 64 ≤ c'
    · rw [if_pos hansi]
      -- the sequence has begun with a bracket
      have h48 : (48 : UInt8) ≤ c' := UInt8.le_trans (by decide) hansi
      have hn : n ≠ 0 ∧ v.vbuf 0 = '['.toUInt8 := by
        by_contra hno
        apply hesc
        refine ⟨h48, ?_⟩
        by_contra hnot
        push Not at hnot
        exact hno hnot
      rcases h.vduansi_cases (show 1 ≤ n by omega) fuel c' (fun hcl hlt hend =>
        (hsafe hcl).2 ⟨hn.1, hlt, hn.2, hansi, hend⟩) with ⟨hend, hfuel⟩ | ⟨v', hok, hv'⟩
      · rw [hend]
        exact .inl ⟨rfl, hfuel⟩
      · rw [hok]
        exact .inr ⟨_, rfl, hv'.leave⟩
    · rw [if_neg hansi]
      refine .inr ⟨_, rfl, h.collect c' hnext fun hcl hfull => ?_⟩
      rcases (hsafe hcl).1 hfull with ⟨h48, hvbuf⟩ | h64
      · exact hesc ⟨h48, .inr hvbuf⟩
      · exact hansi h64

end Sound

end LisaMinix.Kernel.Vdu
