import LisaMinix.Kernel.VduSteps

/-!
# Runs of the Screen Driver

What holds in every state of the screen driver, after any stream of bytes in any modes.

- `Sound.tabs_cases`: when the loop for HT ends.
- `vduOut_returns_iff`: `vdu_out` returns, but for a tab from column 88 on, or in an escape sequence.
- `reached_inBounds`: when no byte is put into a full sequence, and nothing is erased from past the end of
  the last row, all stores are to `vbuf` and to the 40 rows.
-/

namespace LisaMinix.Kernel.Vdu

open LisaMinix.Kernel.Tty (xtabs)

/-! ## §1 Tabs -/

/-- The blanks of a tab go into an escape sequence: the cursor does not move. -/
abbrev Stays (mode : ℕ) (v : VduInfo) : Prop := mode &&& xtabs = xtabs ∧ v.next ≠ none

/-- A tab comes to a column that is a multiple of 8: the last of them is 88. -/
def Stops (mode : ℕ) (v : VduInfo) : Prop :=
  if Stays mode v then v.ccol % 8 = 0 else v.ccol < ncol - 2

instance (mode : ℕ) (v : VduInfo) : Decidable (Stops mode v) :=
  inferInstanceAs (Decidable (if Stays mode v then v.ccol % 8 = 0 else v.ccol < ncol - 2))

theorem moveto_next (v : VduInfo) (r c : ℤ) : (v.moveto r c).next = v.next := by
  unfold VduInfo.moveto
  split_ifs
  all_goals rfl

/-- The cursor moves right, up to the place past the last column. -/
theorem moveto_right {v : VduInfo} (h : Placed v) :
    (v.moveto v.crow (v.ccol + 1)).ccol = min (v.ccol + 1) ncol := by
  have hrow := h.row
  have hcol := h.col
  unfold VduInfo.moveto
  by_cases hout : v.crow < 0 ∨ nrow ≤ v.crow ∨ v.ccol + 1 < 0 ∨ ncol < v.ccol + 1
  · rw [if_pos hout]
    omega
  · rw [if_neg hout]
    dsimp only
    omega

namespace Sound

variable {clean : Prop} {v : VduInfo} {mode : ℕ}

/-- One round of the loop for HT. -/
theorem tab_ok (h : Sound clean v) (font : ℕ → UInt8) (fuel mode : ℕ)
    (hsafe : clean → mode &&& xtabs = xtabs → SafeText v 32) :
    ∃ v', v.tab font fuel mode = .ok v' ∧ Sound clean v' ∧ (v'.next = none ↔ v.next = none) ∧
      v'.ccol = if Stays mode v then v.ccol else min (v.ccol + 1) ncol := by
  unfold VduInfo.tab
  by_cases hexpand : mode &&& xtabs = xtabs
  · rw [if_pos hexpand]
    have h1 := h.vducursor false
    rcases Option.eq_none_or_eq_some v.next with hnext | ⟨n, hnext⟩
    · have hstays : ¬Stays mode v := fun hs => hs.2 hnext
      have hpaint := h1.paint font 32
      refine ⟨((v.vducursor false).paint font 32).moveto (v.vducursor false).crow
        ((v.vducursor false).ccol + 1), ?_, hpaint.moveto _ _, ?_, ?_⟩
      · unfold VduInfo.text
        rw [vducursor_next, hnext]
        rfl
      · rw [moveto_next]
        change (v.vducursor false).next = none ↔ _
        rw [vducursor_next, hnext]
      · rw [if_neg hstays, ← vducursor_ccol v false]
        exact moveto_right hpaint.toPlaced
    · have hstays : Stays mode v := ⟨hexpand, by simp [hnext]⟩
      have hnext1 : (v.vducursor false).next = some n := by rw [vducursor_next, hnext]
      refine ⟨(v.vducursor false).collect n 32, ?_, h1.collect 32 hnext1 fun hc hfull => ?_, ?_, ?_⟩
      · -- a blank is a part of any sequence
        unfold VduInfo.text
        rw [hnext1]
        have hbracket : ¬(n = 0 ∧ (32 : UInt8) = '['.toUInt8) := fun hb => absurd hb.2 (by decide)
        have hesc : ¬((48 : UInt8) ≤ 32 ∧ (n = 0 ∨ (v.vducursor false).vbuf 0 ≠ '['.toUInt8)) :=
          fun he => absurd he.1 (by decide)
        change (if n = 0 ∧ (32 : UInt8) = '['.toUInt8 then _ else
          if (48 : UInt8) ≤ 32 ∧ (n = 0 ∨ (v.vducursor false).vbuf 0 ≠ '['.toUInt8) then _ else _ :
            Except Fault VduInfo) = _
        rw [if_neg hbracket, if_neg hesc]
        rfl
      · have hroom := hsafe hc hexpand
        unfold SafeText at hroom
        rw [hnext] at hroom
        rcases hroom.1 hfull with ⟨h48, -⟩ | h64
        · exact absurd h48 (by decide)
        · exact absurd h64 (by decide)
      · unfold VduInfo.collect
        split_ifs
        all_goals simp [hnext]
      · rw [if_pos hstays, ← vducursor_ccol v false]
        unfold VduInfo.collect
        split_ifs
        all_goals rfl
  · rw [if_neg hexpand, if_neg fun hs : Stays mode v => hexpand hs.1]
    exact ⟨_, rfl, h.moveto _ _, by rw [moveto_next], moveto_right h.toPlaced⟩

/-- In an escape sequence the loop for HT ends at once or never. -/
theorem tabs_stays (h : Placed v) (hstays : Stays mode v) (hcol : v.ccol % 8 ≠ 0)
    (font : ℕ → UInt8) (fuel rounds : ℕ) : v.tabs font fuel mode rounds = .error .endless := by
  induction rounds generalizing v with
  | zero => rfl
  | succ rounds ih =>
    have hv : Sound False v := ⟨h, False.elim, False.elim⟩
    obtain ⟨v', hok, hv', hnext, hccol⟩ := hv.tab_ok font fuel mode False.elim
    rw [if_pos hstays] at hccol
    unfold VduInfo.tabs
    rw [hok]
    change (if v'.ccol % 8 ≠ 0 then _ else _) = _
    rw [hccol, if_pos hcol]
    refine ih hv'.toPlaced ⟨hstays.1, fun hn => hstays.2 (hnext.mp hn)⟩ ?_
    rw [hccol]
    exact hcol

/-- Outside of escape sequences the loop for HT ends at the next multiple of 8, if there is one. -/
theorem tabs_moves (h : Sound clean v) (hmoves : ¬Stays mode v) (font : ℕ → UInt8)
    (fuel rounds : ℕ) :
    (v.tabs font fuel mode rounds = .error .endless ∧
      (v.ccol < ncol - 2 → (rounds : ℤ) ≤ 7 - v.ccol % 8)) ∨
        ∃ v', v.tabs font fuel mode rounds = .ok v' ∧ Sound clean v' ∧ v.ccol < ncol - 2 := by
  induction rounds generalizing v with
  | zero => exact .inl ⟨rfl, fun _ => by push_cast; omega⟩
  | succ rounds ih =>
    have hsafe : clean → mode &&& xtabs = xtabs → SafeText v 32 := by
      intro _ hexpand
      have hnone : v.next = none := by
        by_contra hsome
        exact hmoves ⟨hexpand, hsome⟩
      unfold SafeText
      rw [hnone]
      trivial
    obtain ⟨v', hok, hv', hnext, hccol⟩ := h.tab_ok font fuel mode hsafe
    rw [if_neg hmoves] at hccol
    unfold VduInfo.tabs
    rw [hok]
    change (((if v'.ccol % 8 ≠ 0 then _ else _) : Except Fault VduInfo) = _ ∧ _) ∨
      ∃ _, ((if v'.ccol % 8 ≠ 0 then _ else _) : Except Fault VduInfo) = _ ∧ _
    have hcol := h.col
    unfold ncol at *
    by_cases hstop : v'.ccol % 8 = 0
    · rw [if_neg (not_not_intro hstop)]
      exact .inr ⟨v', rfl, hv', by omega⟩
    · rw [if_pos hstop]
      have hmoves' : ¬Stays mode v' := fun hs => hmoves ⟨hs.1, fun hn => hs.2 (hnext.mpr hn)⟩
      rcases ih hv' hmoves' with ⟨hend, hrounds⟩ | ⟨v₂, hok2, hv2, hlt⟩
      · refine .inl ⟨hend, fun hlt => ?_⟩
        have := hrounds (by omega)
        push_cast
        omega
      · exact .inr ⟨v₂, hok2, hv2, by omega⟩

/-- The loop for HT. -/
theorem tabs_cases (h : Sound clean v) (font : ℕ → UInt8) (fuel rounds : ℕ)
    (hsafe : clean → mode &&& xtabs = xtabs → SafeText v 32) :
    (v.tabs font fuel mode rounds = .error .endless ∧ (Stops mode v → rounds ≤ 7)) ∨
      ∃ v', v.tabs font fuel mode rounds = .ok v' ∧ Sound clean v' ∧ Stops mode v := by
  unfold Stops
  by_cases hstays : Stays mode v
  · rw [if_pos hstays]
    by_cases hcol : v.ccol % 8 = 0
    · cases rounds with
      | zero => exact .inl ⟨rfl, fun _ => Nat.zero_le _⟩
      | succ rounds =>
        obtain ⟨v', hok, hv', -, hccol⟩ := h.tab_ok font fuel mode hsafe
        rw [if_pos hstays] at hccol
        unfold VduInfo.tabs
        rw [hok]
        refine .inr ⟨v', ?_, hv', hcol⟩
        change (if v'.ccol % 8 ≠ 0 then _ else _) = _
        rw [hccol, if_neg (not_not_intro hcol)]
    · exact .inl ⟨tabs_stays h.toPlaced hstays hcol font fuel rounds, fun hstop => absurd hstop hcol⟩
  · rw [if_neg hstays]
    have hcol := h.col
    rcases h.tabs_moves hstays font fuel rounds with ⟨hend, hrounds⟩ | hok
    · exact .inl ⟨hend, fun hlt => by have := hrounds hlt; omega⟩
    · exact .inr hok

end Sound

/-! ## §2 One byte -/

/-- A byte is no tab, or a tab that comes to a stop. -/
def TabStops (mode : ℕ) (v : VduInfo) (c : UInt8) : Prop := c = 9 → Stops mode v

namespace Sound

variable {clean : Prop} {v : VduInfo}

/-- `vdu_out` returns after 21 rounds at most, but for tabs that do not come to a stop. -/
theorem vduOut_cases (h : Sound clean v) (font : ℕ → UInt8) (fuel mode : ℕ) (c : UInt8)
    (hsafe : clean → Safe mode v c) :
    (v.vduOut font fuel mode c = .error .endless ∧ (TabStops mode v c → fuel ≤ 20)) ∨
      ∃ v', v.vduOut font fuel mode c = .ok v' ∧ Sound clean v' ∧ TabStops mode v c := by
  have h1 := h.vducursor false
  unfold VduInfo.vduOut
  dsimp only
  by_cases hdel : c = 0x7F
  · rw [if_pos hdel]
    exact .inr ⟨_, rfl, h1, fun htab => absurd (htab.symm.trans hdel) (by decide)⟩
  rw [if_neg hdel]
  by_cases hcontrol : c &&& 0o140 = 0
  · rw [if_pos hcontrol]
    by_cases htab : c = 9
    · rw [if_pos htab]
      have hstops : Stops mode (v.vducursor false) ↔ Stops mode v := by
        simp only [Stops, Stays, vducursor_next, vducursor_ccol]
      have hblank : clean → mode &&& xtabs = xtabs → SafeText (v.vducursor false) 32 := by
        intro hc hexpand
        have := hsafe hc
        unfold Safe at this
        rw [if_pos htab] at this
        exact (safeText_vducursor v false 32).mpr (this hexpand)
      rcases h1.tabs_cases font fuel fuel hblank with ⟨hend, hfuel⟩ | ⟨v', hok, hv', hstop⟩
      · refine .inl ⟨hend, fun hstop => ?_⟩
        have := hfuel (hstops.mpr (hstop htab))
        omega
      · exact .inr ⟨v', hok, hv', fun _ => hstops.mp hstop⟩
    · rw [if_neg htab]
      exact .inr ⟨_, rfl, h1.ctrl mode c, fun h9 => absurd h9 htab⟩
  · rw [if_neg hcontrol]
    have htab : c ≠ 9 := fun h9 => hcontrol (by rw [h9]; decide)
    have htext : clean → SafeText (v.vducursor false) (glyph c) := by
      intro hc
      have := hsafe hc
      unfold Safe at this
      rw [if_neg htab, if_neg (by tauto)] at this
      exact (safeText_vducursor v false _).mpr this
    rcases h1.text_cases font fuel mode c htext with ⟨hend, hfuel⟩ | ⟨v', hok, hv'⟩
    · exact .inl ⟨hend, fun _ => hfuel⟩
    · exact .inr ⟨v', hok, hv', fun h9 => absurd h9 htab⟩

/-- The driver after `vdu_init`. -/
theorem init (clean : Prop) (video : ℤ → UInt8) : Sound clean (vduInit video) := by
  unfold vduInit
  have hrow : (0 : ℤ) ≤ 0 ∧ 0 < nrow := ⟨le_rfl, by decide⟩
  have hcol : (0 : ℤ) ≤ 0 ∧ 0 ≤ ncol := ⟨le_rfl, by decide⟩
  have hnext (n : ℕ) (hn : none = some n) : n ≤ 20 := by cases hn
  exact vducursor ⟨⟨hrow, hcol, rfl, hrow, hcol, hnext⟩, fun _ => rfl,
    fun _ o ho => absurd ho List.not_mem_nil⟩ true

end Sound

/-! ## §3 Runs -/

section Runs

variable {font : ℕ → UInt8} {safe : ℕ → VduInfo → UInt8 → Prop} {clean : Prop} {v : VduInfo}

/-- Every state of a run is sound, and clean when every byte was safe. -/
theorem Reached.sound (h : Reached font safe v)
    (hsafe : clean → ∀ mode v c, safe mode v c → Safe mode v c) : Sound clean v := by
  induction h with
  | init video => exact Sound.init clean video
  | @out v v' fuel mode c _ hc hout ih =>
    rcases ih.vduOut_cases font fuel mode c (fun hcl => hsafe hcl mode v c hc) with
      ⟨hend, -⟩ | ⟨v₁, hok, hv1, -⟩
    · rw [hend] at hout
      cases hout
    · rw [hok] at hout
      cases hout
      exact hv1
  | @tab v v' fuel mode _ hc htab ih =>
    obtain ⟨v₁, hok, hv1, -⟩ := ih.tab_ok font fuel mode fun hcl hexpand => by
      have := hsafe hcl mode v 9 hc
      unfold Safe at this
      rw [if_pos rfl] at this
      exact this hexpand
    rw [hok] at htab
    cases htab
    exact hv1
  | cursor onoff _ ih => exact ih.vducursor onoff

/-- The bytes of a list are put out, in one mode. -/
def outs (font : ℕ → UInt8) (mode : ℕ) (cs : List UInt8) (v : VduInfo) : Except Fault VduInfo :=
  cs.foldlM (fun v c => v.vduOut font 21 mode c) v

theorem reached_outs {v' : VduInfo} {mode : ℕ} {cs : List UInt8}
    (h : Reached font (fun _ _ _ => True) v) (hout : outs font mode cs v = .ok v') :
    Reached font (fun _ _ _ => True) v' := by
  induction cs generalizing v with
  | nil =>
    cases hout
    exact h
  | cons c cs ih =>
    unfold outs at hout ih
    rw [List.foldlM_cons] at hout
    cases hc : v.vduOut font 21 mode c with
    | error e =>
      rw [hc] at hout
      cases hout
    | ok v₁ =>
      rw [hc] at hout
      exact ih (h.out 21 mode c trivial hc) hout

/-- The bytes of a list are put out, as long as they are safe. -/
def safeOuts (font : ℕ → UInt8) (mode : ℕ) (cs : List UInt8) (v : VduInfo) : Option VduInfo :=
  cs.foldlM (fun v c => if Safe mode v c then (v.vduOut font 21 mode c).toOption else none) v

theorem safeOuts_reached {v' : VduInfo} {mode : ℕ} {cs : List UInt8} (h : Reached font Safe v)
    (hout : safeOuts font mode cs v = some v') : outs font mode cs v = .ok v' ∧ Reached font Safe v' := by
  induction cs generalizing v with
  | nil =>
    cases hout
    exact ⟨rfl, h⟩
  | cons c cs ih =>
    unfold safeOuts at hout ih
    unfold outs at ih ⊢
    rw [List.foldlM_cons] at hout ⊢
    by_cases hsafe : Safe mode v c
    · rw [if_pos hsafe] at hout
      cases hc : v.vduOut font 21 mode c with
      | error e =>
        rw [hc] at hout
        cases hout
      | ok v₁ =>
        rw [hc] at hout
        exact ih (h.out 21 mode c hsafe hc) hout
    · rw [if_neg hsafe] at hout
      cases hout

/-- What is computed of a result is true of it. -/
theorem ok_of_toOption {α : Type} {r : Except Fault VduInfo} {f : VduInfo → α} {x : α}
    (h : r.toOption.map f = some x) : ∃ v, r = .ok v ∧ f v = x := by
  cases r with
  | error e => cases h
  | ok v => exact ⟨v, rfl, Option.some.inj h⟩

end Runs

/-! ## §4 When `vdu_out` returns -/

/-- `vdu_out` returns for every byte but a tab that comes to no stop: a tab from column 88, 89 or 90, and
an expanded tab in an escape sequence when the column is no multiple of 8. -/
theorem vduOut_returns_iff (font : ℕ → UInt8) {v : VduInfo}
    (h : Reached font (fun _ _ _ => True) v) (mode : ℕ) (c : UInt8) :
    (∃ fuel v', v.vduOut font fuel mode c = .ok v') ↔ TabStops mode v c := by
  have hv : Sound False v := h.sound False.elim
  constructor
  · rintro ⟨fuel, v', hok⟩
    rcases hv.vduOut_cases font fuel mode c False.elim with ⟨hend, -⟩ | ⟨-, -, -, hstops⟩
    · rw [hend] at hok
      cases hok
    · exact hstops
  · intro hstops
    rcases hv.vduOut_cases font 21 mode c False.elim with ⟨-, hfuel⟩ | ⟨v', hok, -⟩
    · exact absurd (hfuel hstops) (by decide)
    · exact ⟨21, v', hok⟩

/-- An expanded tab in the sequence ESC [ 1, after eight letters. -/
theorem vduOut_returns_sequence : ∃ v,
    outs (fun _ => 0) xtabs (List.replicate 8 65 ++ [27, 91, 49]) (vduInit fun _ => 0) = .ok v ∧
      (v.ccol, v.next) = (8, some 2) ∧ ∃ fuel v', v.vduOut (fun _ => 0) fuel xtabs 9 = .ok v' := by
  obtain ⟨v, hout, hat, hstops⟩ : ∃ v,
      outs (fun _ => 0) xtabs (List.replicate 8 65 ++ [27, 91, 49]) (vduInit fun _ => 0) = .ok v ∧
        (v.ccol, v.next) = (8, some 2) ∧ Stops xtabs v := by
    obtain ⟨v, hout, hat⟩ : ∃ v,
        outs (fun _ => 0) xtabs (List.replicate 8 65 ++ [27, 91, 49]) (vduInit fun _ => 0) = .ok v ∧
          (v.ccol, v.next, decide (Stops xtabs v)) = (8, some 2, true) :=
      ok_of_toOption (by decide +kernel)
    obtain ⟨hcol, hnext, hstops⟩ : v.ccol = 8 ∧ v.next = some 2 ∧ decide (Stops xtabs v) = true := by
      simpa only [Prod.mk.injEq] using hat
    exact ⟨v, hout, Prod.ext hcol hnext, of_decide_eq_true hstops⟩
  have hv := reached_outs (.init fun _ => 0) hout
  exact ⟨v, hout, hat, (vduOut_returns_iff _ hv xtabs 9).mpr fun _ => hstops⟩

/-- The cursor is moved to column 88, and a tab follows. -/
theorem tab_endless : ¬∀ (font : ℕ → UInt8) (v : VduInfo), Reached font (fun _ _ _ => True) v →
    ∀ (mode : ℕ) (c : UInt8), ∃ fuel v', v.vduOut font fuel mode c = .ok v' := by
  intro hall
  obtain ⟨v, hout, hat⟩ : ∃ v, outs (fun _ => 0) 0 [27, 91, 49, 59, 56, 57, 72]
      (vduInit fun _ => 0) = .ok v ∧ (v.ccol, v.next) = (88, none) :=
    ok_of_toOption (by decide +kernel)
  have hv := reached_outs (.init fun _ => 0) hout
  have hv' : Sound False v := hv.sound False.elim
  obtain ⟨fuel, v', hok⟩ := hall _ v hv 0 9
  rcases hv'.vduOut_cases _ fuel 0 9 False.elim with ⟨hend, -⟩ | ⟨-, -, -, hstops⟩
  · rw [hend] at hok
    cases hok
  · have hcol : v.ccol = 88 := congrArg Prod.fst hat
    have := hstops rfl
    unfold Stops at this
    rw [if_neg fun hs : Stays 0 v => absurd hs.1 (by decide), hcol] at this
    exact absurd this (by decide)

/-! ## §5 What is stored -/

/-- What should hold in every state: the cursor is on the screen, nothing has been stored past `vbuf` or
outside of the characters of the 40 rows, and nothing will be read past a sequence. -/
structure InBounds (font : ℕ → UInt8) (v : VduInfo) : Prop where
  row : 0 ≤ v.crow ∧ v.crow < 40
  col : 0 ≤ v.ccol ∧ v.ccol ≤ 90
  curs : v.curs = v.crow * 810 + min v.ccol 89
  next : ∀ n, v.next = some n → n ≤ 20
  spilled : v.spilled = []
  stores : ∀ o ∈ v.screen.stores, 0 ≤ o ∧ o < 40 * 810
  reads : ∀ fuel mode c, v.vduOut font fuel mode c ≠ .error .overread

/-- In a run whose bytes are all safe, every state is in bounds. -/
theorem reached_inBounds (font : ℕ → UInt8) {v : VduInfo} (h : Reached font Safe v) :
    InBounds font v := by
  have hv : Sound True v := h.sound fun _ _ _ _ hc => hc
  have hv' : Sound False v := h.sound False.elim
  refine ⟨hv.row, hv.col, hv.curs, hv.next, hv.spilled trivial, hv.within trivial, ?_⟩
  intro fuel mode c hread
  rcases hv'.vduOut_cases font fuel mode c False.elim with ⟨hend, -⟩ | ⟨v', hok, -⟩
  · rw [hend] at hread
    cases hread
  · rw [hok] at hread
    cases hread

/-- Text, CUP to the last row, more text, a reverse attribute, EL, NEL and ED. -/
def manyBytes : List UInt8 :=
  [72, 105, 9, 27, 91, 52, 48, 59, 56, 56, 72, 33, 27, 91, 55, 109, 46, 27, 91, 75, 27, 69, 10, 27, 91, 50, 74]

theorem reached_inBounds_stream : ∃ v, outs (fun _ => 0) 0 manyBytes (vduInit fun _ => 0) = .ok v ∧
    (v.crow, v.ccol, v.attr, v.next) = (39, 0, true, none) ∧ InBounds (fun _ => 0) v := by
  obtain ⟨v, hout, hat⟩ : ∃ v, safeOuts (fun _ => 0) 0 manyBytes (vduInit fun _ => 0) = some v ∧
      (v.crow, v.ccol, v.attr, v.next) = (39, 0, true, none) := by
    apply Option.map_eq_some_iff.mp
    decide +kernel
  obtain ⟨hrun, hv⟩ := safeOuts_reached (.init fun _ => 0) hout
  exact ⟨v, hrun, hat, reached_inBounds _ hv⟩

/-- The 21st character of an escape sequence is stored past `vbuf`; and a character in the last column
of the last row, after which the line is erased, clears bytes below the row. -/
theorem out_of_bounds :
    (∃ v, Reached (fun _ => 0) (fun _ _ _ => True) v ∧ ¬InBounds (fun _ => 0) v ∧ v.spilled = [48]) ∧
      ∃ v, Reached (fun _ => 0) (fun _ _ _ => True) v ∧ ¬InBounds (fun _ => 0) v ∧
        v.screen.stores.head? = some 32400 := by
  constructor
  · obtain ⟨v, hout, hat⟩ : ∃ v, outs (fun _ => 0) 0 (27 :: 91 :: List.replicate 20 48)
        (vduInit fun _ => 0) = .ok v ∧ v.spilled = [48] := ok_of_toOption (by decide +kernel)
    refine ⟨v, reached_outs (.init _) hout, fun hv => ?_, hat⟩
    rw [hv.spilled] at hat
    cases hat
  · obtain ⟨v, hout, hat⟩ : ∃ v, outs (fun _ => 0) 0 [27, 91, 52, 48, 59, 57, 48, 72, 65, 27, 91, 75]
        (vduInit fun _ => 0) = .ok v ∧ v.screen.stores.head? = some 32400 :=
      ok_of_toOption (by decide +kernel)
    refine ⟨v, reached_outs (.init _) hout, fun hv => ?_, hat⟩
    have hmem : 32400 ∈ v.screen.stores := List.mem_of_mem_head? hat
    exact absurd (hv.stores _ hmem).2 (by decide)

end LisaMinix.Kernel.Vdu
