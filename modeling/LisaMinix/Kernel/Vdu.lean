import LisaMinix.Kernel.Tty

/-!
# The Screen Driver

Model of `src/kernel/lisa/lisavdu.c`: the Lisa's screen as a terminal of 40 rows and 90 columns that
understands a part of the ANSI escape sequences.

A character is 9 scan lines of 8 pixels, and a scan line of the screen has 90 bytes.  So the byte of
scan line `k` of the character at row `r` and column `c` is at offset `810 * r + c + 90 * k` from
`vram`; the offsets of all characters are those from 0 to 32399.

- `Screen`: the video memory, and a list of all offsets that have been stored to.  The list is a
  history that no function reads.
- `VduInfo`: `struct vduinfo` and the other variables of the driver; `next` and `curs` are an index and an
  offset.  `spilled` is a history too: the bytes that `vdu_out` has stored past the end of `vbuf`.
- `vduOut`: one character.  Its loops are given a number of rounds; when that is used up the result is
  the fault `endless`.  A character of an escape sequence that is read beyond the stored sequence is
  the fault `overread`.

The `int`s of the Lisa have 16 bits.  The byte behind `vbuf` is the high byte of the pointer `next`
itself.  An address on the bus has 24 bits, so a pointer that has been changed there still points to
the same place, and in every comparison of the driver it is on the side where `&vbuf[20]` is: `next`
stays 20.
-/

namespace LisaMinix.Kernel.Vdu

open Function

open LisaMinix.Kernel.Tty (wrap16 xtabs crmod)

/-! ## §1 The screen -/

/-- `NCOL`, `NROW`, `BYT_LIN`, `LINC`, `BYTR` -/
def ncol : ℤ := 90
def nrow : ℤ := 40
def bytLin : ℤ := 90
def linc : ℕ := 9
def bytr : ℤ := 810

/-- The video memory, by the offset from `vram`, and the offsets that have been stored to. -/
structure Screen where
  video : ℤ → UInt8
  stores : List ℤ

namespace Screen

/-- A byte is stored. -/
def poke (s : Screen) (off : ℤ) (b : UInt8) : Screen :=
  ⟨update s.video off b, off :: s.stores⟩

/-- `*dst++ = *src++` for a `long`: the four bytes are read before they are stored. -/
def copyLong (s : Screen) (src dst : ℤ) : Screen :=
  let b (k : ℤ) := s.video (src + k)
  (((s.poke dst (b 0)).poke (dst + 1) (b 1)).poke (dst + 2) (b 2)).poke (dst + 3) (b 3)

/-- `*p++ = 0` for a `long`. -/
def clrLong (s : Screen) (p : ℤ) : Screen :=
  (((s.poke p 0).poke (p + 1) 0).poke (p + 2) 0).poke (p + 3) 0

/-- `cpyline(r1, r2)` -/
def cpyline (s : Screen) (r1 r2 : ℤ) : Screen :=
  let src := r1 * bytr
  let dst := r2 * bytr
  let s := (List.range 202).foldl (fun s (k : ℕ) => s.copyLong (src + 4 * k) (dst + 4 * k)) s
  (List.range 2).foldl (fun s (k : ℕ) => s.poke (dst + 808 + k) (s.video (src + 808 + k))) s

/-- `cpychar(r1, c1, r2, c2)` -/
def cpychar (s : Screen) (r1 c1 r2 c2 : ℤ) : Screen :=
  (List.range linc).foldl (fun s (k : ℕ) =>
    s.poke (r2 * bytr + c2 + bytLin * k) (s.video (r1 * bytr + c1 + bytLin * k))) s

/-- `clrline(r)` -/
def clrline (s : Screen) (r : ℤ) : Screen :=
  let s := (List.range 202).foldl (fun s (k : ℕ) => s.clrLong (r * bytr + 4 * k)) s
  (List.range 2).foldl (fun s (k : ℕ) => s.poke (r * bytr + 808 + k) 0) s

/-- `clrchar(r, c)` -/
def clrchar (s : Screen) (r c : ℤ) : Screen :=
  (List.range linc).foldl (fun s (k : ℕ) => s.poke (r * bytr + c + bytLin * k) 0) s

/-- `while (c1 < c2) clrchar(r, c1++)` -/
def clrchars (s : Screen) (r c1 c2 : ℤ) : Screen :=
  (List.range (c2 - c1).toNat).foldl (fun s (k : ℕ) => s.clrchar r (c1 + k)) s

/-- `while (r1 < r2) clrline(r1++)` -/
def clrlines (s : Screen) (r1 r2 : ℤ) : Screen :=
  (List.range (r2 - r1).toNat).foldl (fun s (k : ℕ) => s.clrline (r1 + k)) s

/-- `clrarea(r1, c1, r2, c2)` -/
def clrarea (s : Screen) (r1 c1 r2 c2 : ℤ) : Screen :=
  let (r2, c2) := if c2 + 1 = ncol then (r2 + 1, 0) else (r2, c2 + 1)
  -- `do clrchar(r1, c1); while (++c1 < NCOL)`: one character at least
  let (s, r1, c1) :=
    if 0 < c1 ∧ r1 < r2 then ((s.clrchar r1 c1).clrchars r1 (c1 + 1) ncol, r1 + 1, 0)
    else (s, r1, c1)
  let s := s.clrlines r1 r2
  s.clrchars (max r1 r2) c1 c2

end Screen

/-! ## §2 The driver -/

/-- The variables of the driver. -/
structure VduInfo where
  screen : Screen
  /-- the cursor position in the video memory -/
  curs : ℤ
  /-- reverse video -/
  attr : Bool
  ccol : ℤ
  crow : ℤ
  savattr : Bool
  savccol : ℤ
  savcrow : ℤ
  /-- a partial escape sequence, of 20 bytes -/
  vbuf : ℕ → UInt8
  /-- where the next byte goes in `vbuf`; `none` outside of escape sequences -/
  next : Option ℕ
  /-- `cursor_shown` -/
  cursorShown : Bool
  /-- variables of the keyboard -/
  keypad : Bool
  appMode : Bool
  spilled : List UInt8

namespace VduInfo

/-- Change the screen. -/
def draw (v : VduInfo) (f : Screen → Screen) : VduInfo := { v with screen := f v.screen }

/-- `moveto(r, c)` -/
def moveto (v : VduInfo) (r c : ℤ) : VduInfo :=
  if r < 0 ∨ nrow ≤ r ∨ c < 0 ∨ ncol < c then v
  else { v with
    crow := r
    ccol := c
    curs := r * bytr + if c = ncol then c - 1 else c }

/-- `paint(c)`; `font` is `font8[]`. -/
def paint (font : ℕ → UInt8) (v : VduInfo) (c : UInt8) : VduInfo :=
  let fp := (c &&& 0x7F).toNat * 8
  let line (k : ℕ) : UInt8 := if v.attr then ~~~font (fp + k) else font (fp + k)
  let last : UInt8 := if v.attr then 0xFF else 0
  v.draw fun s =>
    ((List.range 8).foldl (fun s (k : ℕ) => s.poke (v.curs + bytLin * k) (line k)) s).poke
      (v.curs + bytLin * 8) last

/-- `vducursor(onoff)` -/
def vducursor (v : VduInfo) (onoff : Bool) : VduInfo :=
  if onoff = v.cursorShown then v
  else { v with cursorShown := onoff }.draw fun s =>
    (List.range linc).foldl (fun s (k : ℕ) =>
      s.poke (v.curs + bytLin * k) (~~~s.video (v.curs + bytLin * k))) s

/-! ## §3 Control characters -/

/-- A line feed in the last row moves all rows up. -/
def scroll (s : Screen) : Screen :=
  ((List.range 39).foldl (fun s (k : ℕ) => s.cpyline (k + 1) k) s).clrline 39

/-- A reverse index in the first row moves all rows down. -/
def scrollBack (s : Screen) : Screen :=
  ((List.range 39).foldl (fun s (k : ℕ) => s.cpyline (38 - k) (39 - k)) s).clrline 0

/-- The code of VT and FF, to which LF falls through. -/
def index (v : VduInfo) : VduInfo :=
  if v.crow = nrow - 1 then v.draw scroll else v.moveto (v.crow + 1) v.ccol

/-- `vductrl(c)` but for HT. -/
def ctrl (mode : ℕ) (v : VduInfo) (c : UInt8) : VduInfo :=
  if c = 8 then v.moveto v.crow (v.ccol - 1)
  else if c = 10 then (if mode &&& crmod ≠ 0 then v.moveto v.crow 0 else v).index
  else if c = 11 ∨ c = 12 then v.index
  else if c = 13 then v.moveto v.crow 0
  else if c = 24 ∨ c = 26 then { v with next := none }
  else if c = 27 then { v with next := some 0 }
  else v

/-! ## §4 Escape sequences -/

end VduInfo

/-- A call that does not return, or reads past the stored sequence. -/
inductive Fault
  | endless
  | overread
  deriving DecidableEq

def isDigit (c : UInt8) : Bool := 48 ≤ c && c ≤ 57

/-- `*v->next`, where the sequence ends with the NUL at `last`. -/
def fetch (vbuf : ℕ → UInt8) (last i : ℕ) : Except Fault UInt8 :=
  if i ≤ last then .ok (vbuf i) else .error .overread

/-- The loop of `vduparam`, with the digit `c`: the number, the character after it, and `next`. -/
def digits (vbuf : ℕ → UInt8) (last : ℕ) : ℕ → ℤ → UInt8 → ℕ → Except Fault (ℤ × UInt8 × ℕ)
  | 0, _, _, _ => .error .endless
  | fuel + 1, i, c, next =>
    let i := wrap16 (wrap16 (i * 10) + (c.toNat - 48 : ℕ))
    (fetch vbuf last next).bind fun c =>
      if isDigit c then digits vbuf last fuel i c (next + 1) else .ok (i, c, next + 1)

/-- `vduparam()`: the parameter, and `next`. -/
def vduparam (fuel : ℕ) (vbuf : ℕ → UInt8) (last next : ℕ) : Except Fault (ℤ × ℕ) :=
  (fetch vbuf last next).bind fun c =>
    (if isDigit c then digits vbuf last fuel 0 c (next + 1) else .ok (-1, c, next + 1)).bind
      fun (i, c, next) => .ok (i, if c ≠ 59 then next - 1 else next)

/-- The loop for SGR: the attribute. -/
def sgr (fuel : ℕ) (vbuf : ℕ → UInt8) (last : ℕ) : ℕ → Bool → ℤ → ℕ → Except Fault Bool
  | 0, _, _, _ => .error .endless
  | rounds + 1, attr, j, next =>
    let attr := if j ≤ 0 then false else if j = 4 ∨ j = 7 then true else attr
    (vduparam fuel vbuf last next).bind fun (j, next) =>
      if 0 ≤ j then sgr fuel vbuf last rounds attr j next else .ok attr

/-- The commands that `vduansi` knows, by their final characters. -/
inductive Command
  | cuu | cud | cuf | cub | cup | ed | el | sgr | il | dl | ich | dch | mode | other
  deriving DecidableEq

/-- The `switch` of `vduansi`. -/
def command (c : UInt8) : Command :=
  if c = 'A'.toUInt8 then .cuu
  else if c = 'B'.toUInt8 then .cud
  else if c = 'C'.toUInt8 then .cuf
  else if c = 'D'.toUInt8 then .cub
  else if c = 'H'.toUInt8 ∨ c = 'f'.toUInt8 then .cup
  else if c = 'J'.toUInt8 then .ed
  else if c = 'K'.toUInt8 then .el
  else if c = 'm'.toUInt8 then .sgr
  else if c = 'L'.toUInt8 then .il
  else if c = 'M'.toUInt8 then .dl
  else if c = '@'.toUInt8 then .ich
  else if c = 'P'.toUInt8 then .dch
  else if c = 'l'.toUInt8 ∨ c = 'h'.toUInt8 then .mode
  else .other

namespace VduInfo

/-- ED: erase in display. -/
def ed (v : VduInfo) (j : ℤ) : VduInfo :=
  if j ≤ 0 then v.draw (·.clrarea v.crow v.ccol (nrow - 1) (ncol - 1))
  else if j = 1 then v.draw (·.clrarea 0 0 v.crow v.ccol)
  else if j = 2 then v.draw (·.clrarea 0 0 (nrow - 1) (ncol - 1))
  else v

/-- EL: erase in line. -/
def el (v : VduInfo) (j : ℤ) : VduInfo :=
  if j ≤ 0 then v.draw (·.clrarea v.crow v.ccol v.crow (ncol - 1))
  else if j = 1 then v.draw (·.clrarea v.crow 0 v.crow v.ccol)
  else if j = 2 then v.draw (·.clrarea v.crow 0 v.crow (ncol - 1))
  else v

/-- IL: insert line. -/
def il (v : VduInfo) (i : ℤ) : VduInfo :=
  let i := min i (nrow - v.crow)
  v.draw fun s =>
    let s := (List.range (nrow - (v.crow + i)).toNat).foldl
      (fun s (k : ℕ) => s.cpyline (nrow - 1 - k - i) (nrow - 1 - k)) s
    (List.range i.toNat).foldl (fun s (k : ℕ) => s.clrline (v.crow + i - 1 - k)) s

/-- DL: delete line. -/
def dl (v : VduInfo) (i : ℤ) : VduInfo :=
  let i := min i (nrow - v.crow)
  v.draw fun s =>
    let s := (List.range (nrow - i - v.crow).toNat).foldl
      (fun s (k : ℕ) => s.cpyline (v.crow + k + i) (v.crow + k)) s
    (List.range i.toNat).foldl (fun s (k : ℕ) => s.clrline (nrow - i + k)) s

/-- ICH: insert char. -/
def ich (v : VduInfo) (i : ℤ) : VduInfo :=
  let i := min i (ncol - v.ccol)
  let n := (ncol - v.ccol - i).toNat
  v.draw fun s =>
    let s := (List.range n).foldl (fun s (k : ℕ) =>
      s.cpychar v.crow (v.ccol + (n - 1 - k)) v.crow (v.ccol + (n - 1 - k) + i)) s
    s.clrarea v.crow v.ccol v.crow (v.ccol + i - 1)

/-- DCH: delete char. -/
def dch (v : VduInfo) (i : ℤ) : VduInfo :=
  let i := min i (ncol - v.ccol)
  let n := (ncol - v.ccol - i).toNat
  v.draw fun s =>
    let s := (List.range n).foldl (fun s (k : ℕ) =>
      s.cpychar v.crow (ncol - 1 - (n - 1 - k)) v.crow (ncol - 1 - (n - 1 - k) - i)) s
    s.clrarea v.crow (ncol - i) v.crow (ncol - 1)

/-- `vduansi(c)`, where `next` is at `n`. -/
def vduansi (fuel : ℕ) (v : VduInfo) (n : ℕ) (c : UInt8) : Except Fault VduInfo :=
  if 20 ≤ n then .ok v
  else
    let v := { v with vbuf := update v.vbuf n 0 }
    (vduparam fuel v.vbuf n 1).bind fun (j, next) =>
      let i := if j ≤ 0 then 1 else j
      match command c with
      | .cuu => .ok (v.moveto (max 0 (v.crow - i)) v.ccol)
      | .cud =>
        let i := wrap16 (i + v.crow)
        .ok (v.moveto (if nrow ≤ i then nrow - 1 else i) v.ccol)
      | .cuf =>
        let i := wrap16 (i + v.ccol)
        .ok (v.moveto v.crow (if ncol ≤ i then ncol - 1 else i))
      | .cub => .ok (v.moveto v.crow (max 0 (v.ccol - i)))
      | .cup =>
        (vduparam fuel v.vbuf n next).bind fun (j, _) =>
          let j := if j ≤ 0 then 1 else j
          .ok (v.moveto (min i nrow - 1) (min j ncol - 1))
      | .ed => .ok (v.ed j)
      | .el => .ok (v.el j)
      | .sgr => (sgr fuel v.vbuf n fuel v.attr j next).map fun attr => { v with attr := attr }
      | .il => .ok (v.il i)
      | .dl => .ok (v.dl i)
      | .ich => .ok (v.ich i)
      | .dch => .ok (v.dch i)
      | .mode =>
        (fetch v.vbuf n next).bind fun a =>
          if a = '?'.toUInt8 then
            (fetch v.vbuf n (next + 1)).map fun b =>
              if b = '1'.toUInt8 then { v with appMode := c = 'l'.toUInt8 } else v
          else .ok v
      | .other => .ok v

/-- `vduesc(c)`, where `next` is at `n`. -/
def vduesc (mode : ℕ) (v : VduInfo) (n : ℕ) (c : UInt8) : VduInfo :=
  if 19 ≤ n then v
  else
    let v := { v with vbuf := update v.vbuf n c }
    let c := v.vbuf 0
    if c = '8'.toUInt8 then
      { v with ccol := v.savccol, crow := v.savcrow, attr := v.savattr }.moveto v.savcrow v.savccol
    else if c = '7'.toUInt8 then
      { v with savccol := v.ccol, savcrow := v.crow, savattr := v.attr }
    else if c = '='.toUInt8 then { v with keypad := true }
    else if c = '>'.toUInt8 then { v with keypad := false }
    else if c = 'E'.toUInt8 then (v.ctrl mode 13).ctrl mode 10
    else if c = 'D'.toUInt8 then v.ctrl mode 10
    else if c = 'M'.toUInt8 then
      if v.crow = 0 then v.draw scrollBack else v.moveto (v.crow - 1) v.ccol
    else if c = 'c'.toUInt8 then
      { ({ v with attr := false }.moveto 0 0).draw (·.clrarea 0 0 (nrow - 1) (ncol - 1)) with
        keypad := false
        appMode := false }
    else v

/-! ## §5 Characters -/

/-- A byte is put into the escape sequence; `n` is 20 when there is no room. -/
def collect (v : VduInfo) (n : ℕ) (c : UInt8) : VduInfo :=
  if n < 20 then { v with vbuf := update v.vbuf n c, next := some (n + 1) }
  else { v with spilled := c :: v.spilled }

/-- The rest of `vdu_out`, for what is no control character. -/
def text (font : ℕ → UInt8) (fuel mode : ℕ) (v : VduInfo) (c : UInt8) : Except Fault VduInfo :=
  let c := if c &&& 0x80 ≠ 0 then c &&& 0x1F else c
  match v.next with
  | none => .ok ((v.paint font c).moveto v.crow (v.ccol + 1))
  | some n =>
    if n = 0 ∧ c = '['.toUInt8 then .ok (v.collect 0 c)
    else if 48 ≤ c ∧ (n = 0 ∨ v.vbuf 0 ≠ '['.toUInt8) then
      .ok { v.vduesc mode n c with next := none }
    else if 64 ≤ c then (v.vduansi fuel n c).map fun v => { v with next := none }
    else .ok (v.collect n c)

/-- One round of the loop for HT: `vdu_out(' ')`, or a move. -/
def tab (font : ℕ → UInt8) (fuel mode : ℕ) (v : VduInfo) : Except Fault VduInfo :=
  if mode &&& xtabs = xtabs then (v.vducursor false).text font fuel mode 32
  else .ok (v.moveto v.crow (v.ccol + 1))

/-- The loop for HT. -/
def tabs (font : ℕ → UInt8) (fuel mode : ℕ) : ℕ → VduInfo → Except Fault VduInfo
  | 0, _ => .error .endless
  | rounds + 1, v =>
    (v.tab font fuel mode).bind fun v =>
      if v.ccol % 8 ≠ 0 then tabs font fuel mode rounds v else .ok v

/-- `vdu_out(c)`, after `vdu_init`. -/
def vduOut (font : ℕ → UInt8) (fuel mode : ℕ) (v : VduInfo) (c : UInt8) : Except Fault VduInfo :=
  let v := v.vducursor false
  if c = 0x7F then .ok v
  else if c &&& 0o140 = 0 then
    if c = 9 then v.tabs font fuel mode fuel else .ok (v.ctrl mode c)
  else v.text font fuel mode c

end VduInfo

/-! ## §6 Runs -/

/-- The driver after `vdu_init`, with `video` in the video memory before. -/
def vduInit (video : ℤ → UInt8) : VduInfo :=
  let screen : Screen :=
    { video := fun o => if nrow * bytr ≤ o ∧ o < 32768 then 0xFF else video o, stores := [] }
  let v : VduInfo := ⟨screen, 0, false, 0, 0, false, 0, 0, fun _ => 0, none, false, false, false, []⟩
  let v := (v.moveto 0 0).draw (·.clrarea 0 0 (nrow - 1) (ncol - 1))
  -- the stores are recorded from here on
  { v with screen := { v.screen with stores := [] } }.vducursor true

/-- The states that the driver passes through: after calls of `vdu_out` and of `vducursor`, and after
each round of the loop for HT.  Every byte meets the condition `safe`. -/
inductive Reached (font : ℕ → UInt8) (safe : ℕ → VduInfo → UInt8 → Prop) : VduInfo → Prop
  | init (video : ℤ → UInt8) : Reached font safe (vduInit video)
  | out {v v' : VduInfo} (fuel mode : ℕ) (c : UInt8) :
      Reached font safe v → safe mode v c → v.vduOut font fuel mode c = .ok v' →
        Reached font safe v'
  | tab {v v' : VduInfo} (fuel mode : ℕ) :
      Reached font safe v → safe mode v 9 → v.tab font fuel mode = .ok v' → Reached font safe v'
  | cursor {v : VduInfo} (onoff : Bool) : Reached font safe v → Reached font safe (v.vducursor onoff)

end LisaMinix.Kernel.Vdu
