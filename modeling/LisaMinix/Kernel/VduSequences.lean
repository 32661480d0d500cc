import LisaMinix.Kernel.VduParams
import LisaMinix.Kernel.VduRuns

/-!
# Editing Sequences

The editing operations from the first byte of their sequence to the last.

- `vduparam_number`: the digits of a sequence are read as a number modulo 2 ^ 16.
- `collected`: the state of the driver in the middle of a sequence.
- `edit_prescribed_iff`: exactly when the bytes of an operation do what is prescribed.
-/

namespace LisaMinix.Kernel.Vdu

open Function

open LisaMinix.Kernel.Tty (wrap16)
open LisaMinix.Library (storeLoop_at)

/-! ## §1 Numbers -/

/-- The character of a digit. -/
def digit (d : Fin 10) : UInt8 := UInt8.ofNat (48 + d)

/-- The number that digits stand for, after a number before them. -/
def decimalFrom (n : ℕ) (ds : List (Fin 10)) : ℕ := ds.foldl (fun n d => n * 10 + d) n

/-- The number that digits stand for; no digits are 0. -/
def decimal (ds : List (Fin 10)) : ℕ := decimalFrom 0 ds

/-- The parameter that `vduparam` makes of the digits. -/
def param (ds : List (Fin 10)) : ℤ := if ds = [] then -1 else wrap16 (decimal ds)

theorem isDigit_digit (d : Fin 10) : isDigit (digit d) = true := by
  revert d
  decide

theorem digit_toNat (d : Fin 10) : (digit d).toNat - 48 = (d : ℕ) := by
  revert d
  decide

section Numbers

variable {vbuf : ℕ → UInt8} {last : ℕ}

/-- The digits up to the NUL are read as a number modulo 2 ^ 16. -/
theorem digits_number (hlast : vbuf last = 0) (ds : List (Fin 10)) {next : ℕ} (n : ℕ) (d : Fin 10)
    {fuel : ℕ} (hfuel : ds.length < fuel) (hnext : next + ds.length = last)
    (hds : ∀ k (h : k < ds.length), vbuf (next + k) = digit ds[k]) :
    digits vbuf last fuel (wrap16 n) (digit d) next =
      .ok (wrap16 (decimalFrom (n * 10 + d) ds), 0, last + 1) := by
  have hwrap (n : ℕ) (d : Fin 10) :
      wrap16 (wrap16 (wrap16 n * 10) + ((digit d).toNat - 48 : ℕ)) = wrap16 ((n * 10 + d : ℕ) : ℤ) := by
    rw [digit_toNat]
    unfold wrap16
    push_cast
    omega
  induction ds generalizing next n d fuel with
  | nil =>
    obtain ⟨fuel, rfl⟩ := Nat.exists_eq_succ_of_ne_zero (Nat.ne_of_gt hfuel)
    have hnext : next = last := hnext
    unfold digits
    dsimp only
    rw [hwrap, fetch, if_pos hnext.le, hnext, hlast]
    rfl
  | cons d' ds ih =>
    obtain ⟨fuel, rfl⟩ := Nat.exists_eq_succ_of_ne_zero (Nat.ne_of_gt (Nat.zero_lt_of_lt hfuel))
    rw [List.length_cons] at hfuel hnext
    have hfirst : vbuf next = digit d' := hds 0 (Nat.zero_lt_succ _)
    unfold digits
    dsimp only
    rw [hwrap, fetch, if_pos (by omega), hfirst]
    change (if isDigit (digit d') = true then _ else _) = _
    rw [if_pos (isDigit_digit d')]
    refine ih (n * 10 + d) d' (by omega) (by omega) fun k hk => ?_
    have := hds (k + 1) (Nat.succ_lt_succ hk)
    rw [Nat.add_right_comm next 1 k]
    exact this

/-- The first parameter of a sequence. -/
theorem vduparam_number (ds : List (Fin 10)) (hlast : vbuf (ds.length + 1) = 0) {fuel : ℕ}
    (hfuel : ds.length ≤ fuel) (hds : ∀ k (h : k < ds.length), vbuf (k + 1) = digit ds[k]) :
    ∃ next, vduparam fuel vbuf (ds.length + 1) 1 = .ok (param ds, next) := by
  unfold vduparam
  rw [fetch, if_pos (by omega)]
  cases ds with
  | nil =>
    have hlast : vbuf 1 = 0 := hlast
    rw [hlast]
    exact ⟨_, rfl⟩
  | cons d ds =>
    have hfirst : vbuf 1 = digit d := hds 0 (Nat.zero_lt_succ _)
    rw [hfirst]
    change ∃ next, ((if isDigit (digit d) = true then _ else _) : Except Fault (ℤ × UInt8 × ℕ)).bind _ = _
    rw [if_pos (isDigit_digit d)]
    rw [List.length_cons] at hlast ⊢
    have hnumber : digits vbuf (ds.length + 1 + 1) fuel 0 (digit d) 2 = _ :=
      digits_number hlast ds 0 d hfuel (by omega) fun k hk => by
        rw [Nat.add_comm 2 k]
        exact hds (k + 1) (Nat.succ_lt_succ hk)
    rw [hnumber]
    refine ⟨_, congrArg Except.ok (Prod.ext ?_ rfl)⟩
    unfold param
    rw [if_neg (List.cons_ne_nil d ds)]
    rfl

end Numbers

/-! ## §2 Collecting a sequence -/

/-- The state after ESC, a bracket and digits: the cursor is hidden, and the digits are in `vbuf` as far as
there is room. -/
structure Collected (v : VduInfo) (ds : List (Fin 10)) (v' : VduInfo) : Prop where
  placed : Placed v'
  screen : v'.screen = (v.vducursor false).screen
  shown : v'.cursorShown = false
  row : v'.crow = v.crow
  col : v'.ccol = v.ccol
  next : v'.next = some (min 20 (ds.length + 1))
  first : v'.vbuf 0 = '['.toUInt8
  chars : ∀ k (h : k < ds.length), k < 19 → v'.vbuf (k + 1) = digit ds[k]

section Collecting

variable {font : ℕ → UInt8} {mode : ℕ} {v v' : VduInfo}

theorem vducursor_shown (v : VduInfo) : (v.vducursor false).cursorShown = false := by
  unfold VduInfo.vducursor
  split_ifs with h
  · exact h.symm
  · rfl

/-- A hidden cursor stays hidden. -/
theorem vducursor_of_hidden (h : v.cursorShown = false) : v.vducursor false = v := by
  unfold VduInfo.vducursor
  exact if_pos h.symm

theorem outs_append (cs cs' : List UInt8) (v : VduInfo) :
    outs font mode (cs ++ cs') v = (outs font mode cs v).bind (outs font mode cs') :=
  List.foldlM_append

/-- What `vdu_out` makes of a byte of a sequence of which `n` are in `vbuf`. -/
theorem vduOut_next {n : ℕ} {c : UInt8} (hshown : v.cursorShown = false) (hnext : v.next = some n)
    (hdel : c ≠ 0x7F) (hcontrol : c &&& 0o140 ≠ 0) (hglyph : glyph c = c) :
    v.vduOut font 21 mode c =
      if n = 0 ∧ c = '['.toUInt8 then .ok (v.collect 0 c)
      else if 48 ≤ c ∧ (n = 0 ∨ v.vbuf 0 ≠ '['.toUInt8) then
        .ok { v.vduesc mode n c with next := none }
      else if 64 ≤ c then (v.vduansi 21 n c).map fun v => { v with next := none }
      else .ok (v.collect n c) := by
  have htext : v.vduOut font 21 mode c = v.text font 21 mode c := by
    unfold VduInfo.vduOut
    rw [if_neg hdel, if_neg hcontrol, vducursor_of_hidden hshown]
  have hmask : (if c &&& 0x80 ≠ 0 then c &&& 0x1F else c) = c := hglyph
  rw [htext]
  unfold VduInfo.text
  rw [hnext, hmask]

/-- A digit is collected. -/
theorem vduOut_digit {n : ℕ} (hshown : v.cursorShown = false) (hnext : v.next = some n) (hn : n ≠ 0)
    (hfirst : v.vbuf 0 = '['.toUInt8) (d : Fin 10) :
    v.vduOut font 21 mode (digit d) = .ok (v.collect n (digit d)) := by
  have hclass : digit d ≠ 0x7F ∧ digit d &&& 0o140 ≠ 0 ∧ glyph (digit d) = digit d ∧ ¬64 ≤ digit d := by
    revert d
    decide
  obtain ⟨hdel, hcontrol, hglyph, hfinal⟩ := hclass
  rw [vduOut_next hshown hnext hdel hcontrol hglyph, if_neg fun h => hn h.1,
    if_neg fun h => h.2.elim hn fun hne => hne hfirst, if_neg hfinal]

/-- ESC and a bracket begin a sequence. -/
theorem collected_nil (h : Placed v) :
    ∃ v', outs font mode [27, 91] v = .ok v' ∧ Collected v [] v' := by
  have hv : Sound False v := ⟨h, False.elim, False.elim⟩
  have hbegun := (hv.vducursor false).ctrl mode 27
  have hesc : v.vduOut font 21 mode 27 = .ok ((v.vducursor false).ctrl mode 27) := rfl
  have hshown : ((v.vducursor false).ctrl mode 27).cursorShown = false := vducursor_shown v
  have hnext : ((v.vducursor false).ctrl mode 27).next = some 0 := rfl
  have hbracket : ((v.vducursor false).ctrl mode 27).vduOut font 21 mode 91 =
      .ok (((v.vducursor false).ctrl mode 27).collect 0 91) := by
    unfold VduInfo.vduOut
    dsimp only
    rw [vducursor_of_hidden hshown]
    rfl
  have hplaced := hbegun.collect 91 hnext False.elim
  refine ⟨_, ?_, hplaced.toPlaced, rfl, hshown, vducursor_crow v false, vducursor_ccol v false, rfl,
    rfl, fun k hk => absurd hk (Nat.not_lt_zero k)⟩
  unfold outs
  rw [List.foldlM_cons, hesc]
  change (List.foldlM _ _ [91] : Except Fault VduInfo) = _
  rw [List.foldlM_cons, hbracket]
  rfl

/-- One more digit. -/
theorem Collected.snoc {ds : List (Fin 10)} (h : Collected v ds v') (d : Fin 10) :
    Collected v (ds ++ [d]) (v'.collect (min 20 (ds.length + 1)) (digit d)) := by
  have hplaced : Sound False v' := ⟨h.placed, False.elim, False.elim⟩
  have hlen : (ds ++ [d]).length = ds.length + 1 := by simp
  unfold VduInfo.collect
  by_cases hroom : min 20 (ds.length + 1) < 20
  · have hn : min 20 (ds.length + 1) = ds.length + 1 := by omega
    have hcollect := hplaced.collect (digit d) h.next False.elim
    unfold VduInfo.collect at hcollect
    rw [if_pos hroom] at hcollect ⊢
    rw [hn] at hcollect ⊢
    refine ⟨hcollect.toPlaced, h.screen, h.shown, h.row, h.col, ?_, ?_, fun k hk hk19 => ?_⟩
    · rw [hlen]
      dsimp only
      congr 1
      omega
    · dsimp only
      rw [update_of_ne (Nat.succ_ne_zero _).symm]
      exact h.first
    · dsimp only
      rcases Nat.lt_succ_iff_lt_or_eq.mp (hlen ▸ hk) with hlt | rfl
      · rw [update_of_ne (by omega), List.getElem_append_left hlt]
        exact h.chars k hlt hk19
      · rw [update_self, List.getElem_concat_length rfl]
  · rw [if_neg hroom]
    refine ⟨⟨h.placed.row, h.placed.col, h.placed.curs, h.placed.savrow, h.placed.savcol, h.placed.next⟩,
      h.screen, h.shown, h.row, h.col, ?_, h.first, fun k hk hk19 => ?_⟩
    · rw [hlen]
      refine h.next.trans (congrArg some ?_)
      omega
    · have hlt : k < ds.length := by omega
      rw [List.getElem_append_left hlt]
      exact h.chars k hlt hk19

/-- The digits of a sequence are collected. -/
theorem collected (font : ℕ → UInt8) (mode : ℕ) (h : Placed v) (ds : List (Fin 10)) :
    ∃ v', outs font mode (27 :: 91 :: ds.map digit) v = .ok v' ∧ Collected v ds v' := by
  induction ds using List.reverseRecOn with
  | nil => exact collected_nil h
  | append_singleton ds d ih =>
    obtain ⟨v', hok, hcol⟩ := ih
    refine ⟨_, ?_, hcol.snoc d⟩
    have hsplit : 27 :: 91 :: (ds ++ [d]).map digit = (27 :: 91 :: ds.map digit) ++ [digit d] := by simp
    rw [hsplit, outs_append, hok]
    change (List.foldlM _ _ [digit d] : Except Fault VduInfo) = _
    rw [List.foldlM_cons, vduOut_digit hcol.shown hcol.next (by omega) hcol.first d]
    rfl

end Collecting

/-! ## §3 The end of a sequence -/

/-- The character that ends the sequence of an operation. -/
def Editing.final : Editing → UInt8
  | .ed => 'J'.toUInt8
  | .el => 'K'.toUInt8
  | .il => 'L'.toUInt8
  | .dl => 'M'.toUInt8
  | .ich => '@'.toUInt8
  | .dch => 'P'.toUInt8

section Final

variable {font : ℕ → UInt8} {mode : ℕ} {v v' : VduInfo} {ds : List (Fin 10)}

/-- The last character is given to `vduansi`. -/
theorem vduOut_final (h : Collected v ds v') (op : Editing) :
    v'.vduOut font 21 mode op.final =
      (v'.vduansi 21 (min 20 (ds.length + 1)) op.final).map fun v => { v with next := none } := by
  have hclass : op.final ≠ 0x7F ∧ op.final &&& 0o140 ≠ 0 ∧ glyph op.final = op.final ∧
      64 ≤ op.final := by
    cases op
    all_goals decide
  have hn : min 20 (ds.length + 1) ≠ 0 := by omega
  obtain ⟨hdel, hcontrol, hglyph, hfinal⟩ := hclass
  rw [vduOut_next h.shown h.next hdel hcontrol hglyph, if_neg fun h => hn h.1,
    if_neg fun he => he.2.elim hn fun hne => hne h.first, if_pos hfinal]

/-- A sequence for which there is no room is thrown away. -/
theorem vduansi_long (hlen : 18 < ds.length) (op : Editing) :
    v'.vduansi 21 (min 20 (ds.length + 1)) op.final = .ok v' := by
  unfold VduInfo.vduansi
  exact if_pos (by omega)

/-- An operation is executed with its first parameter. -/
theorem vduansi_short (h : Collected v ds v') (hlen : ds.length ≤ 18) (op : Editing) :
    v'.vduansi 21 (min 20 (ds.length + 1)) op.final =
      .ok (op.run { v' with vbuf := update v'.vbuf (ds.length + 1) 0 } (param ds)) := by
  have hn : min 20 (ds.length + 1) = ds.length + 1 := by omega
  obtain ⟨next, hparam⟩ : ∃ next, vduparam 21 (update v'.vbuf (ds.length + 1) 0)
      (ds.length + 1) 1 = .ok (param ds, next) := by
    refine vduparam_number ds (update_self ..) (by omega) fun k hk => ?_
    rw [update_of_ne (by omega)]
    exact h.chars k hk (by omega)
  unfold VduInfo.vduansi
  rw [hn, if_neg (by omega)]
  dsimp only
  rw [hparam]
  cases op
  all_goals rfl

/-- The operations do not show the cursor. -/
theorem run_shown (op : Editing) (v : VduInfo) (j : ℤ) : (op.run v j).cursorShown = v.cursorShown := by
  cases op with
  | ed =>
    unfold Editing.run VduInfo.ed
    dsimp only
    split_ifs
    all_goals rfl
  | el =>
    unfold Editing.run VduInfo.el
    dsimp only
    split_ifs
    all_goals rfl
  | il | dl | ich | dch => rfl

end Final

/-! ## §4 Line feed and reverse index -/

/-- The rows move up. -/
def scrolled (g : Grid) : Grid := fun r c => if r + 1 < nrow then g (r + 1) c else blank

/-- The rows move down. -/
def scrolledBack (g : Grid) : Grid := fun r c => if r = 0 then blank else g (r - 1) c

theorem cells_scroll (s : Screen) {r : ℤ} (hr : 0 ≤ r ∧ r < nrow) (c : ℤ) :
    (VduInfo.scroll s).cells r c = scrolled s.cells r c := by
  unfold VduInfo.scroll scrolled nrow at *
  rw [Screen.cells_clrline, cells_cpylineLoop (fun k : ℕ => (k : ℤ) + 1) (fun k : ℕ => (k : ℤ))]
  by_cases hlast : r = 39
  · rw [if_pos hlast, if_neg (by omega)]
  · rw [if_neg hlast, if_pos (by omega), storeLoop_at (fun k hk j hj => by omega)
      (fun k hk j hj => by omega) (show r.toNat < 39 by omega) (Int.toNat_of_nonneg hr.1)]
    rw [Int.toNat_of_nonneg hr.1]

theorem cells_scrollBack (s : Screen) {r : ℤ} (hr : 0 ≤ r ∧ r < nrow) (c : ℤ) :
    (VduInfo.scrollBack s).cells r c = scrolledBack s.cells r c := by
  unfold VduInfo.scrollBack scrolledBack nrow at *
  rw [Screen.cells_clrline, cells_cpylineLoop (fun k : ℕ => 38 - (k : ℤ)) (fun k : ℕ => 39 - (k : ℤ))]
  by_cases hfirst : r = 0
  · rw [if_pos hfirst, if_pos hfirst]
  · rw [if_neg hfirst, if_neg hfirst, storeLoop_at (fun k hk j hj => by omega)
      (fun k hk j hj => by omega) (show (39 - r).toNat < 39 by omega) (by omega)]
    congr 1
    omega

section Feeds

variable {font : ℕ → UInt8} {mode : ℕ} {v : VduInfo}

@[simp] theorem moveto_screen (v : VduInfo) (r c : ℤ) : (v.moveto r c).screen = v.screen := by
  unfold VduInfo.moveto
  split_ifs
  all_goals rfl
@[simp] theorem moveto_shown (v : VduInfo) (r c : ℤ) : (v.moveto r c).cursorShown = v.cursorShown := by
  unfold VduInfo.moveto
  split_ifs
  all_goals rfl
@[simp] theorem moveto_sameRow (v : VduInfo) (c : ℤ) : (v.moveto v.crow c).crow = v.crow := by
  unfold VduInfo.moveto
  split_ifs
  all_goals rfl

@[simp] theorem index_shown (v : VduInfo) : v.index.cursorShown = v.cursorShown := by
  unfold VduInfo.index
  split_ifs
  · rfl
  · rw [moveto_shown]

theorem index_screen (v : VduInfo) :
    v.index.screen = if v.crow = nrow - 1 then VduInfo.scroll v.screen else v.screen := by
  unfold VduInfo.index
  split_ifs
  · rfl
  · rw [moveto_screen]

/-- LF, with or without a carriage return, does to the screen what VT and FF do. -/
theorem lineFeed_screen (mode : ℕ) (v : VduInfo) :
    (v.ctrl mode 10).screen = v.index.screen ∧ (v.ctrl mode 10).cursorShown = v.cursorShown := by
  have hctrl : v.ctrl mode 10 =
      (if mode &&& Tty.crmod ≠ 0 then v.moveto v.crow 0 else v).index := rfl
  rw [hctrl]
  by_cases hreturn : mode &&& Tty.crmod ≠ 0
  · rw [if_pos hreturn, index_screen, index_screen, index_shown, moveto_sameRow, moveto_screen,
      moveto_shown]
    exact ⟨rfl, rfl⟩
  · rw [if_neg hreturn, index_shown]
    exact ⟨rfl, rfl⟩

end Feeds

/-! ## §5 Sequences -/

/-- The line feeds: LF, VT, FF, and the sequences IND and NEL. -/
inductive Feed
  | lf | vt | ff | ind | nel

def Feed.bytes : Feed → List UInt8
  | .lf => [10]
  | .vt => [11]
  | .ff => [12]
  | .ind => [27, 'D'.toUInt8]
  | .nel => [27, 'E'.toUInt8]

/-- An operation of a terminal: a control sequence with a number, a line feed, or a reverse index. -/
inductive Edit
  | csi (op : Editing) (ds : List (Fin 10))
  | feed (f : Feed)
  | reverseIndex

namespace Edit

/-- What is sent. -/
def bytes : Edit → List UInt8
  | csi op ds => 27 :: 91 :: ds.map digit ++ [op.final]
  | feed f => f.bytes
  | reverseIndex => [27, 'M'.toUInt8]

/-- What is prescribed, with the cursor at a row and column: the screen moves only when the cursor is in
its last or first row. -/
def prescribed (e : Edit) (row col : ℤ) (g : Grid) : Grid :=
  match e with
  | csi op ds => op.prescribed (decimal ds) row col g
  | feed _ => if row = nrow - 1 then scrolled g else g
  | reverseIndex => if row = 0 then scrolledBack g else g

/-- The sequence fits into `vbuf` and its 16-bit parameter is right for the cursor's place, or nothing is
prescribed and the sequence is thrown away. -/
def Right (e : Edit) (row col : ℤ) : Prop :=
  match e with
  | csi op ds =>
    if ds.length ≤ 18 then op.Right (param ds) (decimal ds) row col
    else op.Idle (decimal ds) row col
  | feed _ => True
  | reverseIndex => True

end Edit

/-- The characters on the screen, without the cursor. -/
def VduInfo.grid (v : VduInfo) : Grid := (v.vducursor false).screen.cells

/-- The operation is sent, and the screen becomes what is prescribed. -/
def Edited (font : ℕ → UInt8) (mode : ℕ) (e : Edit) (v : VduInfo) : Prop :=
  ∃ v', outs font mode e.bytes v = .ok v' ∧
    ∀ r c, OnScreen r c → v'.grid r c = e.prescribed v.crow v.ccol v.grid r c

section Sequences

variable {font : ℕ → UInt8} {mode : ℕ} {v : VduInfo} {ds : List (Fin 10)}

theorem grid_of_hidden (h : v.cursorShown = false) : v.grid = v.screen.cells := by
  unfold VduInfo.grid
  rw [vducursor_of_hidden h]

/-- A sequence that fits: the screen is what the operation makes of it. -/
theorem outs_csi_short (font : ℕ → UInt8) (mode : ℕ) (h : Placed v) (op : Editing) (hlen : ds.length ≤ 18) :
    ∃ w v', outs font mode (Edit.csi op ds).bytes v = .ok v' ∧ Placed w ∧ w.crow = v.crow ∧
      w.ccol = v.ccol ∧ w.screen = (v.vducursor false).screen ∧
        v'.grid = (op.run w (param ds)).screen.cells := by
  obtain ⟨v₁, hok, hcol⟩ := collected font mode h ds
  have hplaced := hcol.placed
  set w : VduInfo := { v₁ with vbuf := update v₁.vbuf (ds.length + 1) 0 }
  have hw : Placed w :=
    ⟨hplaced.row, hplaced.col, hplaced.curs, hplaced.savrow, hplaced.savcol, hplaced.next⟩
  refine ⟨w, { op.run w (param ds) with next := none }, ?_, hw, hcol.row, hcol.col, hcol.screen,
    grid_of_hidden ?_⟩
  · unfold Edit.bytes
    rw [outs_append, hok]
    change (List.foldlM _ _ [op.final] : Except Fault VduInfo) = _
    rw [List.foldlM_cons, vduOut_final hcol, vduansi_short hcol hlen]
    rfl
  · exact (run_shown op _ _).trans hcol.shown

/-- A sequence that does not fit: the screen stays. -/
theorem outs_csi_long (font : ℕ → UInt8) (mode : ℕ) (h : Placed v) (op : Editing) (hlen : 18 < ds.length) :
    ∃ v', outs font mode (Edit.csi op ds).bytes v = .ok v' ∧ v'.grid = v.grid := by
  obtain ⟨v₁, hok, hcol⟩ := collected font mode h ds
  refine ⟨{ v₁ with next := none }, ?_, ?_⟩
  · unfold Edit.bytes
    rw [outs_append, hok]
    change (List.foldlM _ _ [op.final] : Except Fault VduInfo) = _
    rw [List.foldlM_cons, vduOut_final hcol, vduansi_long hlen]
    rfl
  · rw [grid_of_hidden (show ({ v₁ with next := none } : VduInfo).cursorShown = false from hcol.shown)]
    change v₁.screen.cells = _
    rw [hcol.screen]
    rfl

/-- A control sequence is right on every screen when its parameter is. -/
theorem edited_csi (h : Placed v) (op : Editing) (hright : (Edit.csi op ds).Right v.crow v.ccol) :
    Edited font mode (.csi op ds) v := by
  unfold Edit.Right at hright
  dsimp only at hright
  by_cases hlen : ds.length ≤ 18
  · rw [if_pos hlen] at hright
    obtain ⟨w, v', hok, hw, hrow, hcol, hscreen, hgrid⟩ :=
      outs_csi_short font mode h op hlen
    refine ⟨v', hok, fun r c hrc => ?_⟩
    rw [← hrow, ← hcol] at hright
    rw [hgrid, run_right op hw hright hrc, hrow, hcol, hscreen]
    rfl
  · rw [if_neg hlen] at hright
    obtain ⟨v', hok, hgrid⟩ := outs_csi_long font mode h op
      (show 18 < ds.length by omega)
    refine ⟨v', hok, fun r c hrc => ?_⟩
    rw [hgrid]
    exact (prescribed_idle op hright v.grid hrc).symm

/-- The screen after an operation depends on the screen and the cursor's place alone. -/
theorem run_screen (op : Editing) {w : VduInfo} (hscreen : w.screen = v.screen) (hrow : w.crow = v.crow)
    (hcol : w.ccol = v.ccol) (j : ℤ) : (op.run w j).screen = (op.run v j).screen := by
  cases op with
  | ed =>
    unfold Editing.run VduInfo.ed VduInfo.draw
    rw [hrow, hcol]
    split_ifs
    all_goals simp only [hscreen]
  | el =>
    unfold Editing.run VduInfo.el VduInfo.draw
    rw [hrow, hcol]
    split_ifs
    all_goals simp only [hscreen]
  | il =>
    unfold Editing.run VduInfo.il VduInfo.draw
    simp only [hrow, hscreen]
  | dl =>
    unfold Editing.run VduInfo.dl VduInfo.draw
    simp only [hrow, hscreen]
  | ich =>
    unfold Editing.run VduInfo.ich VduInfo.draw
    simp only [hrow, hcol, hscreen]
  | dch =>
    unfold Editing.run VduInfo.dch VduInfo.draw
    simp only [hrow, hcol, hscreen]

/-- A parameter in 16 bits is another number only when the number is large. -/
theorem param_toNat (ds : List (Fin 10)) (hne : (param ds).toNat ≠ decimal ds) : 2 < decimal ds := by
  unfold param at hne
  by_cases hnil : ds = []
  · rw [hnil] at hne
    exact absurd rfl hne
  · rw [if_neg hnil] at hne
    unfold wrap16 at hne
    omega

/-- A control sequence whose parameter is not right fails on the black screen. -/
theorem not_edited_csi {row col : ℤ} (hrow : 0 ≤ row ∧ row < nrow) (hcol : 0 ≤ col ∧ col ≤ ncol)
    (op : Editing) (hwrong : ¬(Edit.csi op ds).Right row col) :
    ¬Edited font mode (.csi op ds) (filled row col) := by
  rintro ⟨v', hok, hcells⟩
  have hplaced := placed_filled hrow hcol
  unfold Edit.Right at hwrong
  dsimp only at hwrong
  by_cases hlen : ds.length ≤ 18
  · rw [if_pos hlen] at hwrong
    obtain ⟨w, v₁, hok1, hw, hwrow, hwcol, hwscreen, hgrid⟩ :=
      outs_csi_short font mode hplaced op hlen
    rw [hok1] at hok
    cases hok
    obtain ⟨r, c, hrc, hne⟩ := run_wrong op hrow hcol (param_toNat ds) hwrong
    apply hne
    have hsame := run_screen (v := filled row col) op hwscreen hwrow hwcol (param ds)
    rw [← hsame, ← hgrid]
    exact hcells r c hrc
  · rw [if_neg hlen] at hwrong
    obtain ⟨v₁, hok1, hgrid⟩ := outs_csi_long font mode hplaced op
      (show 18 < ds.length by omega)
    rw [hok1] at hok
    cases hok
    obtain ⟨r, c, hrc, hne⟩ := prescribed_not_idle op hrow hcol hwrong
    apply hne
    have hcell := hcells r c hrc
    rw [hgrid] at hcell
    exact hcell.symm

/-- A sequence of ESC and one character. -/
theorem outs_esc {c : UInt8} (hc : c ≠ 0x7F ∧ c &&& 0o140 ≠ 0 ∧ glyph c = c ∧ 48 ≤ c ∧ c ≠ '['.toUInt8)
    (v : VduInfo) :
    outs font mode [27, c] v =
      .ok { ({ v.vducursor false with next := some 0 } : VduInfo).vduesc mode 0 c with next := none } := by
  have hesc : v.vduOut font 21 mode 27 = .ok { v.vducursor false with next := some 0 } := rfl
  have hshown : ({ v.vducursor false with next := some 0 } : VduInfo).cursorShown = false :=
    vducursor_shown v
  unfold outs
  rw [List.foldlM_cons, hesc]
  change (List.foldlM _ _ [c] : Except Fault VduInfo) = _
  rw [List.foldlM_cons]
  obtain ⟨hdel, hcontrol, hglyph, hlow, hbracket⟩ := hc
  rw [vduOut_next hshown rfl hdel hcontrol hglyph, if_neg fun h => hbracket h.2, if_pos ⟨hlow, .inl rfl⟩]
  rfl

/-- The screen after a line feed. -/
theorem grid_feed {v' u : VduInfo} (hshown : v'.cursorShown = false) (hscreen : v'.screen = u.index.screen)
    (hu : u.screen = (v.vducursor false).screen) (hrow : u.crow = v.crow) (f : Feed) {r c : ℤ}
    (hrc : OnScreen r c) : v'.grid r c = (Edit.feed f).prescribed v.crow v.ccol v.grid r c := by
  rw [grid_of_hidden hshown, hscreen, index_screen, hu, hrow]
  unfold Edit.prescribed
  dsimp only
  split_ifs
  · exact cells_scroll _ hrc.1 c
  · rfl

/-- Line feeds are right. -/
theorem edited_feed (f : Feed) (v : VduInfo) : Edited font mode (.feed f) v := by
  have hshown := vducursor_shown v
  have hrow := vducursor_crow v false
  cases f with
  | lf =>
    have hlf := lineFeed_screen mode (v.vducursor false)
    exact ⟨_, rfl, fun r c hrc => grid_feed (hlf.2.trans hshown) hlf.1 rfl hrow _ hrc⟩
  | vt =>
    exact ⟨_, rfl, fun r c hrc => grid_feed ((index_shown _).trans hshown) rfl rfl hrow _ hrc⟩
  | ff =>
    exact ⟨_, rfl, fun r c hrc => grid_feed ((index_shown _).trans hshown) rfl rfl hrow _ hrc⟩
  | ind =>
    refine ⟨_, outs_esc (by decide) v, fun r c hrc => ?_⟩
    set w : VduInfo := { v.vducursor false with
      next := some 0, vbuf := update (v.vducursor false).vbuf 0 'D'.toUInt8 }
    have hlf := lineFeed_screen mode w
    refine grid_feed (u := w) ?_ ?_ rfl hrow .ind hrc
    · exact hlf.2.trans hshown
    · exact hlf.1
  | nel =>
    refine ⟨_, outs_esc (by decide) v, fun r c hrc => ?_⟩
    -- the carriage return comes first
    set w : VduInfo := { v.vducursor false with
      next := some 0, vbuf := update (v.vducursor false).vbuf 0 'E'.toUInt8 }
    have hlf := lineFeed_screen mode (w.moveto w.crow 0)
    refine grid_feed (u := w.moveto w.crow 0) ?_ ?_ (moveto_screen w _ _)
      ((moveto_sameRow w 0).trans hrow) .nel hrc
    · exact hlf.2.trans ((moveto_shown w _ _).trans hshown)
    · exact hlf.1

/-- The reverse index is right. -/
theorem edited_reverseIndex (v : VduInfo) : Edited font mode .reverseIndex v := by
  have hshown := vducursor_shown v
  refine ⟨_, outs_esc (by decide) v, fun r c hrc => ?_⟩
  set w : VduInfo := { v.vducursor false with
    next := some 0, vbuf := update (v.vducursor false).vbuf 0 'M'.toUInt8 } with hw
  have hrow : w.crow = v.crow := vducursor_crow v false
  change VduInfo.grid { (if w.crow = 0 then w.draw VduInfo.scrollBack else w.moveto (w.crow - 1) w.ccol) with
    next := none } r c = _
  unfold Edit.prescribed
  dsimp only
  rw [hrow]
  split_ifs
  · rw [grid_of_hidden (by exact hshown)]
    exact cells_scrollBack _ hrc.1 c
  · rw [grid_of_hidden (by exact (moveto_shown w _ _).trans hshown)]
    change (w.moveto _ _).screen.cells r c = _
    rw [moveto_screen]
    rfl

end Sequences

/-- For every place of the cursor: the bytes of an operation make of every screen what is prescribed, if
and only if the sequence has room and its parameter is right. -/
theorem edit_prescribed_iff (font : ℕ → UInt8) (mode : ℕ) (e : Edit) {row col : ℤ}
    (hrow : 0 ≤ row ∧ row < nrow) (hcol : 0 ≤ col ∧ col ≤ ncol) :
    (∀ v, Placed v → v.crow = row → v.ccol = col → Edited font mode e v) ↔ e.Right row col := by
  constructor
  · intro hall
    cases e with
    | csi op ds =>
      by_contra hwrong
      exact not_edited_csi hrow hcol op hwrong (hall _ (placed_filled hrow hcol) rfl rfl)
    | feed f => exact trivial
    | reverseIndex => exact trivial
  · rintro hright v hv rfl rfl
    cases e with
    | csi op ds => exact edited_csi hv op hright
    | feed f => exact edited_feed f v
    | reverseIndex => exact edited_reverseIndex v

/-- Two lines are inserted in row 3, which has been filled. -/
theorem edit_prescribed_insertLines :
    (0 : ℤ) ≤ 3 ∧ (3 : ℤ) < nrow ∧ Edited (fun _ => 0) 0 (.csi .il [2]) (filled 3 ncol) := by
  have hrow : (0 : ℤ) ≤ 3 ∧ 3 < nrow := ⟨by decide, by decide⟩
  have hcol : (0 : ℤ) ≤ ncol ∧ ncol ≤ ncol := ⟨by decide, le_rfl⟩
  have hright : (Edit.csi .il [2]).Right 3 ncol :=
    show min (max 1 (param [2])) (nrow - 3) = min (max 1 (decimal [2] : ℤ)) (nrow - 3) by decide
  exact ⟨hrow.1, hrow.2, (edit_prescribed_iff (fun _ => 0) 0 (.csi .il [2]) hrow hcol).mpr hright _
    (placed_filled hrow hcol) rfl rfl⟩

/-- After a row has been filled, the cursor is past its last column.  Erasing to the end of the line
clears 8 scan lines of its first character. -/
theorem erase_clears_first :
    ¬∀ (e : Edit) (v : VduInfo), Placed v → Edited (fun _ => 0) 0 e v := by
  intro hall
  have hrow : (0 : ℤ) ≤ 0 ∧ 0 < nrow := ⟨le_rfl, by decide⟩
  have hcol : (0 : ℤ) ≤ ncol ∧ ncol ≤ ncol := ⟨by decide, le_rfl⟩
  have hwrong : ¬(Edit.csi .el []).Right 0 ncol := fun hright => (hright.2 rfl).1 rfl
  exact not_edited_csi hrow hcol .el hwrong (hall _ _ (placed_filled hrow hcol))

end LisaMinix.Kernel.Vdu
