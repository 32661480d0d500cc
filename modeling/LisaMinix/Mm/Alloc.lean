import LisaMinix.Library.Chain

/-!
# The Hole Table of the Memory Manager

Model of `src/mm/alloc.c` as built for the Lisa.  The hole table has `NR_HOLES` slots,
each holding the base and length of a hole (in clicks of 256 bytes) and a pointer to
another slot.  Two lists are threaded through it: the holes, from `hole_head`, and the
unused slots, from `free_slots`.

`phys_clicks` is a 16-bit unsigned integer, so every sum is taken modulo `65536`.  A loop
over a list is bounded by the number of slots: a list that does not end within that many
steps is cyclic, and the C loop would never return (`Fault.endless`).
-/

namespace LisaMinix.Mm

open LisaMinix.Library

/-! ## §1 Data -/

/-- `NR_HOLES`. -/
def nrHoles : ℕ := 128

/-- A pointer into `hole[]`. -/
abbrev Slot := Fin nrHoles

/-- `NO_MEM`: what `alloc_mem` returns when it finds no hole. -/
def noMem : ℕ := 0

/-- Conversion to `phys_clicks`, a 16-bit unsigned integer. -/
def toClicks (n : ℕ) : ℕ := n % 65536

/-- `(clicks + 1) & ~1` in 16-bit arithmetic: the Lisa rounds requests to whole MMU pages. -/
def evenClicks (clicks : ℕ) : ℕ := toClicks (clicks + 1) / 2 * 2

/-- `struct hole`. -/
structure Hole where
  hBase : ℕ
  hLen : ℕ
  hNext : Option Slot
  deriving DecidableEq

/-- What a caller of `alloc_mem(clicks)` holds when it returned `base`. -/
structure Block where
  base : ℕ
  clicks : ℕ
  deriving DecidableEq

/-- The private variables of `alloc.c`. -/
structure HoleTable where
  hole : Slot → Hole
  holeHead : Option Slot
  freeSlots : Option Slot

/-- How a call of MM can fail to return. -/
inductive Fault
  /-- `panic("Hole table full")` -/
  | holeTableFull
  /-- `panic("MM hole list is inconsistent")` -/
  | holeListInconsistent
  /-- use of `prev_ptr` before it is set, or of a slot past the end of a table -/
  | wildPointer
  /-- a loop that never ends -/
  | endless
  /-- the kernel's `panic("no shadow?")` (`stshadow.c`) -/
  | noShadow
  /-- a panic of `do_brk2`: the memory does not hold MINIX and the RAM disk -/
  | noRoomAtBoot
  deriving DecidableEq, Repr

namespace HoleTable

/-- `hp->h_next`, as a function of the slot. -/
def next (t : HoleTable) (s : Slot) : Option Slot := (t.hole s).hNext

/-- `hp->h_next = p`. -/
def setNext (t : HoleTable) (s : Slot) (p : Option Slot) : HoleTable :=
  { t with hole := Function.update t.hole s { t.hole s with hNext := p } }

/-- `hp->h_base = base; hp->h_len = len`. -/
def setArea (t : HoleTable) (s : Slot) (base len : ℕ) : HoleTable :=
  { t with hole := Function.update t.hole s { t.hole s with hBase := base, hLen := len } }

end HoleTable

/-! ## §2 The functions of `alloc.c` -/

/-- `del_slot(prev_ptr, hp)`; `prev` is `none` while `prev_ptr` is uninitialised. -/
def delSlot (t : HoleTable) (prev : Option Slot) (hp : Slot) : Except Fault HoleTable :=
  let unlinked : Except Fault HoleTable :=
    if t.holeHead = some hp then .ok { t with holeHead := t.next hp }
    else match prev with
      | some p => .ok (t.setNext p (t.next hp))
      | none => .error .wildPointer
  unlinked.map fun t => { t.setNext hp t.freeSlots with freeSlots := some hp }

/-- The loop of `alloc_mem`, with `clicks` already rounded. -/
def allocLoop (t : HoleTable) (clicks : ℕ) :
    ℕ → Option Slot → Option Slot → Except Fault (HoleTable × ℕ)
  | _, _, none => .ok (t, noMem)
  | 0, _, some _ => .error .endless
  | fuel + 1, prev, some hp =>
    -- "cannot happen; never use such a hole"
    if (t.hole hp).hBase % 2 = 1 then allocLoop t clicks fuel (some hp) (t.next hp)
    else if clicks ≤ (t.hole hp).hLen then
      let oldBase := (t.hole hp).hBase
      let t' := t.setArea hp (toClicks (oldBase + clicks)) ((t.hole hp).hLen - clicks)
      if (t'.hole hp).hLen ≠ 0 then .ok (t', oldBase)
      else (delSlot t' prev hp).map fun t'' => (t'', oldBase)
    else allocLoop t clicks fuel (some hp) (t.next hp)

/-- `alloc_mem(clicks)`: first fit. -/
def allocMem (t : HoleTable) (clicks : ℕ) : Except Fault (HoleTable × ℕ) :=
  allocLoop t (evenClicks clicks) nrHoles none t.holeHead

/-- The body of one of the two tests of `merge`: `hp` absorbs its successor. -/
def absorb (t : HoleTable) (hp nextPtr : Slot) : Except Fault HoleTable :=
  delSlot (t.setArea hp (t.hole hp).hBase (toClicks ((t.hole hp).hLen + (t.hole nextPtr).hLen)))
    (some hp) nextPtr

/-- The holes `hp` and `nextPtr` are contiguous. -/
def contiguous (t : HoleTable) (hp nextPtr : Slot) : Bool :=
  toClicks ((t.hole hp).hBase + (t.hole hp).hLen) = (t.hole nextPtr).hBase

/-- The second test of `merge`. -/
def mergeNext (t : HoleTable) (hp : Slot) : Except Fault HoleTable :=
  match t.next hp with
  | none => .ok t
  | some nextPtr => if contiguous t hp nextPtr then absorb t hp nextPtr else .ok t

/-- `merge(hp)`: `hp` is the first of up to three holes that may all be contiguous. -/
def merge (t : HoleTable) (hp : Slot) : Except Fault HoleTable :=
  match t.next hp with
  | none => .ok t
  | some nextPtr =>
    if contiguous t hp nextPtr then (absorb t hp nextPtr).bind fun t' => mergeNext t' hp
    else mergeNext t nextPtr

/-- The loop of `free_mem`: the last hole that starts below `base`. -/
def findPrev (t : HoleTable) (base : ℕ) : ℕ → Slot → Option Slot → Except Fault Slot
  | _, prev, none => .ok prev
  | 0, _, some _ => .error .endless
  | fuel + 1, prev, some hp =>
    if (t.hole hp).hBase < base then findPrev t base fuel hp (t.next hp) else .ok prev

/-- `free_mem(base, clicks)`. -/
def freeMem (t : HoleTable) (base clicks : ℕ) : Except Fault HoleTable :=
  match t.freeSlots with
  | none => .error .holeTableFull
  | some newPtr =>
    let t := { t.setArea newPtr base (evenClicks clicks) with freeSlots := t.next newPtr }
    match t.holeHead with
    | none => merge { t.setNext newPtr none with holeHead := some newPtr } newPtr
    | some hp =>
      if base ≤ (t.hole hp).hBase then
        merge { t.setNext newPtr (some hp) with holeHead := some newPtr } newPtr
      else
        (findPrev t base nrHoles hp (t.next hp)).bind fun prev =>
          merge ((t.setNext newPtr (t.next prev)).setNext prev (some newPtr)) prev

/-- The loop of `max_hole`. -/
def maxHoleLoop (t : HoleTable) : ℕ → ℕ → Option Slot → Except Fault ℕ
  | _, max, none => .ok max
  | 0, _, some _ => .error .endless
  | fuel + 1, max, some hp =>
    maxHoleLoop t fuel (if max < (t.hole hp).hLen then (t.hole hp).hLen else max) (t.next hp)

/-- `max_hole()`. -/
def maxHole (t : HoleTable) : Except Fault ℕ := maxHoleLoop t nrHoles 0 t.holeHead

/-- The table before the chunks of physical memory are freed into it: all slots unused. -/
def emptyTable : HoleTable where
  hole s := ⟨0, 0, if h : s.val + 1 < nrHoles then some ⟨s.val + 1, h⟩ else none⟩
  holeHead := none
  freeSlots := some ⟨0, by decide⟩

/-- `mem_init()`.  The kernel answers `get_mem` with one chunk, from click 0 to the end of
the memory Minix may use (`system.c`, `do_mem`). -/
def memInit (size : ℕ) : Except Fault HoleTable := freeMem emptyTable 0 size

/-- The allocation made by `new_mem` (`exec.c`): the request is checked against the largest
hole first, so that the allocation cannot fail once the old image is given up.  `none` is
the error return `EAGAIN`. -/
def allocForExec (t : HoleTable) (clicks : ℕ) : Except Fault (HoleTable × Option ℕ) :=
  (maxHole t).bind fun max =>
    if max < clicks then .ok (t, none)
    else (allocMem t clicks).bind fun (t', newBase) =>
      if newBase = noMem then .error .holeListInconsistent else .ok (t', some newBase)

end LisaMinix.Mm
