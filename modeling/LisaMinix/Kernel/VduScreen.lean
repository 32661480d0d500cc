import LisaMinix.Kernel.Vdu
import LisaMinix.Library.Copies

/-!
# The Screen as a Grid of Characters

What the routines that manipulate the video memory do to the 40 rows of 90 characters.

- `Screen.cells s r c`: the 9 bytes of the character at row `r` and column `c`.
- `cells_clrchar`, `cells_cpychar`, `cells_clrline`, `cells_cpyline`, `cells_clrarea`: each routine,
  character by character.
- `Screen.Within`: all stores have been to bytes of the 40 rows.
-/

namespace LisaMinix.Kernel.Vdu

open Function

open LisaMinix.Library (storeLoop storeLoop_of_ne storeLoop_apply storeLoop_succ foldl_eq_storeLoop
  foldl_range_invariant)

/-- The 9 scan lines of a character. -/
abbrev Cell := Fin 9 → UInt8

def blank : Cell := fun _ => 0

namespace Screen

variable {s : Screen} {r c r' c' r1 c1 r2 c2 : ℤ}

/-- The character at a row and a column. -/
def cells (s : Screen) (r c : ℤ) : Cell := fun k =>
  if 0 ≤ c ∧ c < ncol then s.video (r * bytr + c + bytLin * k) else 0

/-- There is nothing beside the columns. -/
theorem cells_of_not_col (h : ¬(0 ≤ c ∧ c < ncol)) : s.cells r c = blank := by
  funext k
  exact if_neg h

theorem cells_of_col (h : 0 ≤ c ∧ c < ncol) :
    s.cells r c = fun k : Fin 9 => s.video (r * bytr + c + bytLin * k) := by
  funext k
  exact if_pos h

/-! ## §1 Single characters -/

theorem video_clrchar (s : Screen) (r c : ℤ) :
    (s.clrchar r c).video =
      storeLoop (fun _ _ => 0) (fun k : ℕ => r * bytr + c + bytLin * k)
        (fun k : ℕ => r * bytr + c + bytLin * k) linc s.video := by
  unfold clrchar
  apply foldl_eq_storeLoop
  intro s k _
  rfl

theorem video_cpychar (s : Screen) (r1 c1 r2 c2 : ℤ) :
    (s.cpychar r1 c1 r2 c2).video =
      storeLoop (fun _ b => b) (fun k : ℕ => r1 * bytr + c1 + bytLin * k)
        (fun k : ℕ => r2 * bytr + c2 + bytLin * k) linc s.video := by
  unfold cpychar
  apply foldl_eq_storeLoop
  intro s k _
  rfl

/-- The scan lines of a character are at different offsets. -/
theorem scanLine_ne (a : ℤ) : ∀ k < linc, ∀ j < k, a + bytLin * (j : ℕ) ≠ a + bytLin * (k : ℕ) := by
  intro k _ j hj
  unfold bytLin
  omega

theorem cells_clrchar (hc : 0 ≤ c ∧ c < ncol) (s : Screen) (r r' c' : ℤ) :
    (s.clrchar r c).cells r' c' = if r' = r ∧ c' = c then blank else s.cells r' c' := by
  funext k
  have hk := k.isLt
  by_cases hc' : 0 ≤ c' ∧ c' < ncol
  · rw [cells_of_col hc', cells_of_col hc', video_clrchar]
    split_ifs with hsame
    · obtain ⟨rfl, rfl⟩ := hsame
      exact storeLoop_apply (scanLine_ne _) (scanLine_ne _) hk
    · apply storeLoop_of_ne
      intro j hj
      unfold bytr bytLin ncol linc at *
      omega
  · rw [cells_of_not_col hc', cells_of_not_col hc', ite_self]

theorem cells_cpychar (hc1 : 0 ≤ c1 ∧ c1 < ncol) (hc2 : 0 ≤ c2 ∧ c2 < ncol) (s : Screen)
    (r1 r2 r' c' : ℤ) :
    (s.cpychar r1 c1 r2 c2).cells r' c' =
      if r' = r2 ∧ c' = c2 then s.cells r1 c1 else s.cells r' c' := by
  funext k
  have hk := k.isLt
  by_cases hc' : 0 ≤ c' ∧ c' < ncol
  · rw [cells_of_col hc', cells_of_col hc1, cells_of_col hc', video_cpychar]
    split_ifs with hsame
    · obtain ⟨rfl, rfl⟩ := hsame
      refine storeLoop_apply (fun k hk j hj => ?_) (scanLine_ne _) hk
      unfold bytr bytLin ncol linc at *
      omega
    · apply storeLoop_of_ne
      intro j hj
      unfold bytr bytLin ncol linc at *
      omega
  · have hne : ¬(r' = r2 ∧ c' = c2) := fun h => hc' (h.2 ▸ hc2)
    rw [cells_of_not_col hc', cells_of_not_col hc', if_neg hne]

/-! ## §2 Rows -/

/-- A `long` is copied to where it does not overlap, or to itself. -/
theorem video_copyLong (s : Screen) (src dst x : ℤ) :
    (s.copyLong src dst).video x =
      if dst ≤ x ∧ x < dst + 4 then s.video (src + (x - dst)) else s.video x := by
  have hx (k : ℤ) (h : x = dst + k) : s.video (src + k) = s.video (src + (x - dst)) := by
    rw [h]
    congr 1
    ring
  simp only [copyLong, poke, update_apply]
  split_ifs with h3 h2 h1 h0
  all_goals first
    | exact hx _ (by omega)
    | omega
    | rfl

/-- `n` `long`s of one row are copied to another row. -/
theorem video_copyLongs (s : Screen) (r1 r2 : ℤ) {n : ℕ} (hn : n ≤ 202) (x : ℤ) :
    ((List.range n).foldl (fun s (k : ℕ) => s.copyLong (r1 * bytr + 4 * k) (r2 * bytr + 4 * k)) s).video x =
      if r2 * bytr ≤ x ∧ x < r2 * bytr + 4 * n then s.video (x + (r1 - r2) * bytr)
      else s.video x := by
  induction n generalizing x with
  | zero =>
    rw [if_neg (by omega)]
    rfl
  | succ n ih =>
    rw [List.range_succ, List.foldl_append, List.foldl_cons, List.foldl_nil, video_copyLong,
      ih (by omega), ih (by omega)]
    unfold bytr at *
    by_cases hlast : r2 * 810 + 4 * (n : ℤ) ≤ x ∧ x < r2 * 810 + 4 * n + 4
    · -- what is read has not been stored before: it is in another row, or further on
      rw [if_pos hlast, if_neg (by omega), if_pos (by push_cast; omega)]
      congr 1
      ring
    · rw [if_neg hlast]
      by_cases hin : r2 * 810 ≤ x ∧ x < r2 * 810 + 4 * (n : ℤ)
      · rw [if_pos hin, if_pos (by push_cast; omega)]
      · rw [if_neg hin, if_neg (by push_cast; omega)]

/-- A row is copied. -/
theorem video_cpyline (s : Screen) (r1 r2 x : ℤ) :
    (s.cpyline r1 r2).video x =
      if r2 * bytr ≤ x ∧ x < r2 * bytr + bytr then s.video (x + (r1 - r2) * bytr) else s.video x := by
  have hlongs := video_copyLongs s r1 r2 le_rfl
  unfold cpyline
  dsimp only
  generalize (List.range 202).foldl (fun s (k : ℕ) =>
    s.copyLong (r1 * bytr + 4 * k) (r2 * bytr + 4 * k)) s = s' at hlongs ⊢
  -- two bytes are left over
  have hrange : List.range 2 = [0, 1] := rfl
  simp only [hrange, List.foldl_cons, List.foldl_nil, poke, update_apply, hlongs]
  unfold bytr
  split_ifs
  all_goals first
    | omega
    | rfl
    | (congr 1; omega)

theorem cells_cpyline (s : Screen) (r1 r2 r' c' : ℤ) :
    (s.cpyline r1 r2).cells r' c' = if r' = r2 then s.cells r1 c' else s.cells r' c' := by
  by_cases hc' : 0 ≤ c' ∧ c' < ncol
  · rw [cells_of_col hc', cells_of_col hc', cells_of_col hc']
    funext k
    have hk := k.isLt
    rw [video_cpyline]
    unfold bytr bytLin ncol at *
    split_ifs with hin hrow hrow
    · rw [hrow]
      congr 1
      ring
    · omega
    · omega
    · rfl
  · rw [cells_of_not_col hc', cells_of_not_col hc', cells_of_not_col hc', ite_self]

theorem video_clrLong (s : Screen) (p x : ℤ) :
    (s.clrLong p).video x = if p ≤ x ∧ x < p + 4 then 0 else s.video x := by
  simp only [clrLong, poke, update_apply]
  split_ifs
  all_goals first
    | omega
    | rfl

/-- `n` `long`s of a row are cleared. -/
theorem video_clrLongs (s : Screen) (r : ℤ) (n : ℕ) (x : ℤ) :
    ((List.range n).foldl (fun s (k : ℕ) => s.clrLong (r * bytr + 4 * k)) s).video x =
      if r * bytr ≤ x ∧ x < r * bytr + 4 * n then 0 else s.video x := by
  induction n with
  | zero =>
    rw [if_neg (by omega)]
    rfl
  | succ n ih =>
    rw [List.range_succ, List.foldl_append, List.foldl_cons, List.foldl_nil, video_clrLong, ih]
    push_cast
    split_ifs
    all_goals first
      | omega
      | rfl

/-- A row is cleared. -/
theorem video_clrline (s : Screen) (r x : ℤ) :
    (s.clrline r).video x =
      if r * bytr ≤ x ∧ x < r * bytr + bytr then 0 else s.video x := by
  have hlongs := video_clrLongs s r 202
  unfold clrline
  dsimp only
  generalize (List.range 202).foldl (fun s (k : ℕ) => s.clrLong (r * bytr + 4 * k)) s = s'
    at hlongs ⊢
  have hrange : List.range 2 = [0, 1] := rfl
  simp only [hrange, List.foldl_cons, List.foldl_nil, poke, update_apply, hlongs]
  unfold bytr
  split_ifs
  all_goals first
    | omega
    | rfl

theorem cells_clrline (s : Screen) (r r' c' : ℤ) :
    (s.clrline r).cells r' c' = if r' = r then blank else s.cells r' c' := by
  by_cases hc' : 0 ≤ c' ∧ c' < ncol
  · rw [cells_of_col hc', cells_of_col hc']
    funext k
    have hk := k.isLt
    rw [video_clrline]
    unfold bytr bytLin ncol at *
    split_ifs
    all_goals first
      | omega
      | rfl
  · rw [cells_of_not_col hc', cells_of_not_col hc', ite_self]

/-! ## §3 Areas -/

theorem clrchars_of_le (h : c2 ≤ c1) (s : Screen) (r : ℤ) : s.clrchars r c1 c2 = s := by
  unfold clrchars
  rw [Int.toNat_of_nonpos (by omega)]
  rfl

theorem cells_clrchars (h1 : 0 ≤ c1) (h2 : c2 ≤ ncol) (s : Screen) (r r' c' : ℤ) :
    (s.clrchars r c1 c2).cells r' c' =
      if r' = r ∧ c1 ≤ c' ∧ c' < c2 then blank else s.cells r' c' := by
  have hloop (n : ℕ) (hn : c1 + n ≤ ncol) :
      ((List.range n).foldl (fun s (k : ℕ) => s.clrchar r (c1 + k)) s).cells r' c' =
        if r' = r ∧ c1 ≤ c' ∧ c' < c1 + n then blank else s.cells r' c' := by
    induction n with
    | zero =>
      rw [if_neg (by omega)]
      rfl
    | succ n ih =>
      rw [List.range_succ, List.foldl_append, List.foldl_cons, List.foldl_nil,
        cells_clrchar (by push_cast at hn; omega), ih (by push_cast at hn; omega)]
      push_cast
      split_ifs
      all_goals first
        | omega
        | rfl
  unfold clrchars
  by_cases hlt : c1 ≤ c2
  · rw [hloop _ (by omega), Int.toNat_of_nonneg (by omega), show c1 + (c2 - c1) = c2 by ring]
  · rw [Int.toNat_of_nonpos (by omega), if_neg (by omega)]
    rfl

/-- A loop that clears rows. -/
theorem cells_clrlineLoop (row : ℕ → ℤ) (n : ℕ) (s : Screen) (r c : ℤ) :
    ((List.range n).foldl (fun s (k : ℕ) => s.clrline (row k)) s).cells r c =
      if ∃ k < n, row k = r then blank else s.cells r c := by
  induction n with
  | zero =>
    rw [if_neg (by rintro ⟨k, hk, -⟩; exact absurd hk (Nat.not_lt_zero k))]
    rfl
  | succ n ih =>
    rw [List.range_succ, List.foldl_append, List.foldl_cons, List.foldl_nil, cells_clrline, ih]
    by_cases hlast : r = row n
    · rw [if_pos hlast, if_pos ⟨n, Nat.lt_succ_self n, hlast.symm⟩]
    · rw [if_neg hlast]
      refine if_congr ⟨?_, ?_⟩ rfl rfl
      · rintro ⟨k, hk, hrow⟩
        exact ⟨k, Nat.lt_succ_of_lt hk, hrow⟩
      · rintro ⟨k, hk, hrow⟩
        refine ⟨k, lt_of_le_of_ne (Nat.le_of_lt_succ hk) fun heq => hlast ?_, hrow⟩
        rw [← hrow, heq]

theorem cells_clrlines (s : Screen) (r1 r2 r' c' : ℤ) :
    (s.clrlines r1 r2).cells r' c' = if r1 ≤ r' ∧ r' < r2 then blank else s.cells r' c' := by
  unfold clrlines
  rw [cells_clrlineLoop fun k : ℕ => r1 + k]
  refine if_congr ⟨?_, fun h => ⟨(r' - r1).toNat, by omega, by omega⟩⟩ rfl rfl
  rintro ⟨k, hk, hrow⟩
  omega

/-- The characters from one point to another, inclusive, in reading order. -/
abbrev InArea (r1 c1 r2 c2 r c : ℤ) : Prop :=
  (r1 < r ∨ (r = r1 ∧ c1 ≤ c)) ∧ (r < r2 ∨ (r = r2 ∧ c ≤ c2))

/-- An area between two characters is cleared. -/
theorem cells_clrarea (h1 : 0 ≤ c1 ∧ c1 < ncol) (h2 : 0 ≤ c2 ∧ c2 < ncol) (hr : r1 ≤ r2)
    (s : Screen) (r' c' : ℤ) :
    (s.clrarea r1 c1 r2 c2).cells r' c' =
      if InArea r1 c1 r2 c2 r' c' then blank else s.cells r' c' := by
  by_cases hc' : 0 ≤ c' ∧ c' < ncol
  · have hcol : (0 : ℤ) ≤ 0 := le_rfl
    unfold clrarea
    by_cases hlast : c2 + 1 = ncol
    · rw [if_pos hlast]
      dsimp only
      by_cases hfirst : 0 < c1 ∧ r1 < r2 + 1
      · rw [if_pos hfirst]
        dsimp only
        rw [cells_clrchars hcol (by unfold ncol; omega), cells_clrlines,
          cells_clrchars (by omega) le_rfl, cells_clrchar h1]
        unfold InArea ncol at *
        split_ifs
        all_goals first
          | omega
          | rfl
      · rw [if_neg hfirst]
        dsimp only
        rw [cells_clrchars h1.1 (by unfold ncol; omega), cells_clrlines]
        unfold InArea ncol at *
        split_ifs
        all_goals first
          | omega
          | rfl
    · rw [if_neg hlast]
      dsimp only
      by_cases hfirst : 0 < c1 ∧ r1 < r2
      · rw [if_pos hfirst]
        dsimp only
        rw [cells_clrchars hcol (by omega), cells_clrlines, cells_clrchars (by omega) le_rfl,
          cells_clrchar h1]
        unfold InArea ncol at *
        split_ifs
        all_goals first
          | omega
          | rfl
      · rw [if_neg hfirst]
        dsimp only
        rw [cells_clrchars h1.1 (by omega), cells_clrlines]
        unfold InArea ncol at *
        split_ifs
        all_goals first
          | omega
          | rfl
  · rw [cells_of_not_col hc', cells_of_not_col hc', ite_self]

/-! ## §4 Past the last column -/

/-- An area that begins past the last column: the "character" there is cleared, and the rows below. -/
theorem clrarea_from_pastEnd (hr : r1 ≤ r2) (s : Screen) :
    s.clrarea r1 ncol r2 (ncol - 1) = (s.clrchar r1 ncol).clrlines (r1 + 1) (r2 + 1) := by
  unfold clrarea
  rw [if_pos (by ring)]
  dsimp only
  rw [if_pos ⟨by decide, by omega⟩]
  dsimp only
  rw [clrchars_of_le le_rfl, clrchars_of_le (by omega)]

/-- An area that ends past the last column: its last row is cleared and the "character" there. -/
theorem clrarea_to_pastEnd (hr : r1 ≤ r2) (s : Screen) :
    s.clrarea r1 0 r2 ncol = ((s.clrlines r1 r2).clrchars r2 0 ncol).clrchar r2 ncol := by
  unfold clrarea
  rw [if_neg (by decide)]
  dsimp only
  rw [if_neg (by simp)]
  dsimp only
  rw [max_eq_right hr]
  rfl

/-! ## §5 Where is stored -/

/-- All stores are to the 40 rows. -/
def Within (s : Screen) : Prop := ∀ o ∈ s.stores, 0 ≤ o ∧ o < nrow * bytr

namespace Within

variable {o : ℤ} {b : UInt8} {src dst : ℤ}

theorem poke (h : s.Within) (ho : 0 ≤ o ∧ o < nrow * bytr) : (s.poke o b).Within := by
  intro x hx
  rcases List.mem_cons.mp hx with rfl | hx
  · exact ho
  · exact h x hx

theorem copyLong (h : s.Within) (hdst : 0 ≤ dst ∧ dst + 3 < nrow * bytr) :
    (s.copyLong src dst).Within :=
  (((h.poke (by omega)).poke (by omega)).poke (by omega)).poke (by omega)

theorem clrLong (h : s.Within) (hdst : 0 ≤ dst ∧ dst + 3 < nrow * bytr) : (s.clrLong dst).Within :=
  (((h.poke (by omega)).poke (by omega)).poke (by omega)).poke (by omega)

theorem cpyline (h : s.Within) (hr : 0 ≤ r2 ∧ r2 < nrow) (r1 : ℤ) : (s.cpyline r1 r2).Within := by
  unfold Screen.cpyline
  unfold nrow at hr
  refine foldl_range_invariant (fun s k hk hs => hs.poke ?_)
    (foldl_range_invariant (fun s k hk hs => hs.copyLong ?_) h)
  all_goals
    unfold nrow bytr
    omega

theorem clrline (h : s.Within) (hr : 0 ≤ r ∧ r < nrow) : (s.clrline r).Within := by
  unfold Screen.clrline
  unfold nrow at hr
  refine foldl_range_invariant (fun s k hk hs => hs.poke ?_)
    (foldl_range_invariant (fun s k hk hs => hs.clrLong ?_) h)
  all_goals
    unfold nrow bytr
    omega

/-- The bytes of a character, or of the "character" past the end of a row but the last. -/
theorem clrchar (h : s.Within) (hr : 0 ≤ r ∧ r < nrow) (hc : 0 ≤ c ∧ c ≤ ncol)
    (hend : ¬(r = nrow - 1 ∧ c = ncol)) : (s.clrchar r c).Within := by
  unfold Screen.clrchar
  refine foldl_range_invariant (fun s k hk hs => hs.poke ?_) h
  unfold nrow ncol linc bytr bytLin at *
  omega

theorem cpychar (h : s.Within) (hr : 0 ≤ r2 ∧ r2 < nrow) (hc : 0 ≤ c2 ∧ c2 < ncol) (r1 c1 : ℤ) :
    (s.cpychar r1 c1 r2 c2).Within := by
  unfold Screen.cpychar
  refine foldl_range_invariant (fun s k hk hs => hs.poke ?_) h
  unfold nrow ncol linc bytr bytLin at *
  omega

theorem clrchars (h : s.Within) (hr : 0 ≤ r ∧ r < nrow) (h1 : 0 ≤ c1) (h2 : c2 ≤ ncol) :
    (s.clrchars r c1 c2).Within := by
  unfold Screen.clrchars
  exact foldl_range_invariant
    (fun s k hk hs => hs.clrchar hr ⟨by omega, by omega⟩ (by omega)) h

theorem clrlines (h : s.Within) (h1 : 0 ≤ r1) (h2 : r2 ≤ nrow) : (s.clrlines r1 r2).Within := by
  unfold Screen.clrlines
  exact foldl_range_invariant (fun s k hk hs => hs.clrline ⟨by omega, by omega⟩) h

theorem clrarea (h : s.Within) (h1 : 0 ≤ c1 ∧ c1 < ncol) (h2 : 0 ≤ c2 ∧ c2 < ncol) (hr1 : 0 ≤ r1)
    (hr2 : r2 < nrow) (hr : r1 ≤ r2) : (s.clrarea r1 c1 r2 c2).Within := by
  unfold Screen.clrarea
  by_cases hlast : c2 + 1 = ncol
  · rw [if_pos hlast]
    dsimp only
    by_cases hfirst : 0 < c1 ∧ r1 < r2 + 1
    · rw [if_pos hfirst]
      dsimp only
      have hfirst := (h.clrchar ⟨hr1, by omega⟩ ⟨h1.1, h1.2.le⟩ (by omega)).clrchars
        ⟨hr1, by omega⟩ (show 0 ≤ c1 + 1 by omega) le_rfl
      rw [clrchars_of_le le_rfl]
      exact hfirst.clrlines (by omega) (show r2 + 1 ≤ nrow by omega)
    · rw [if_neg hfirst]
      dsimp only
      have hlines := h.clrlines hr1 (show r2 + 1 ≤ nrow by omega)
      rw [clrchars_of_le h1.1]
      exact hlines
  · rw [if_neg hlast]
    dsimp only
    by_cases hfirst : 0 < c1 ∧ r1 < r2
    · rw [if_pos hfirst]
      dsimp only
      have hchars := (h.clrchar ⟨hr1, by omega⟩ ⟨h1.1, h1.2.le⟩ (by omega)).clrchars
        ⟨hr1, by omega⟩ (show 0 ≤ c1 + 1 by omega) le_rfl
      exact (hchars.clrlines (by omega) hr2.le).clrchars ⟨by omega, by omega⟩ le_rfl (by omega)
    · rw [if_neg hfirst]
      dsimp only
      exact (h.clrlines hr1 hr2.le).clrchars ⟨by omega, by omega⟩ h1.1 (by omega)

/-- Erasing from past the last column, but for the last row. -/
theorem clrarea_from_pastEnd (h : s.Within) (hr1 : 0 ≤ r1) (hlast : r1 < nrow - 1) (hr2 : r2 < nrow)
    (hr : r1 ≤ r2) : (s.clrarea r1 ncol r2 (ncol - 1)).Within := by
  rw [Screen.clrarea_from_pastEnd hr]
  exact (h.clrchar ⟨hr1, by omega⟩ ⟨by decide, le_rfl⟩ (by omega)).clrlines (by omega) (by omega)

/-- Erasing up to past the last column, but for the last row. -/
theorem clrarea_to_pastEnd (h : s.Within) (hr1 : 0 ≤ r1) (hlast : r2 < nrow - 1) (hr : r1 ≤ r2) :
    (s.clrarea r1 0 r2 ncol).Within := by
  rw [Screen.clrarea_to_pastEnd hr]
  exact ((h.clrlines hr1 (by omega)).clrchars ⟨by omega, by omega⟩ le_rfl le_rfl).clrchar
    ⟨by omega, by omega⟩ ⟨by decide, le_rfl⟩ (by omega)

end Within

end Screen

end LisaMinix.Kernel.Vdu
