import LisaMinix.Kernel.Proc

/-!
# The Memory Management Unit

Model of `src/kernel/lisa/lisammu.c`: the three user contexts of the Lisa's MMU, the latches
that select one, and `lisa_mmu_switch`, which loads the context of a process that is about to
run in user mode.

The hardware is what the file says of it: a segment of 128 KB has an origin register and a limit
register of 12 bits each, a register write goes to the context that the latches select, a
limit register with `256 - n` in its low 8 bits admits the pages `0` to `n - 1`, and origin plus
page number is taken modulo 4096.

A `long` is an integer: the values computed here are far below `2^31` as long as the fields of
the map are 16-bit numbers.  A shift to the right is then a division that rounds down.
-/

namespace LisaMinix.Kernel

open LisaMinix.Library Function
open LisaMinix.Mm (MemMap MemMaps)

/-! ## §1 The hardware -/

/-- `NSEGS`: the MMU segments of a context. -/
abbrev nsegs : ℕ := 128

/-- `1 << SEG_SHIFT`. -/
abbrev segSize : ℕ := 131072

/-- `1 << PAGE_SHIFT`. -/
abbrev pageSize : ℕ := 512

/-- `USER_SEGS`: the last two segments are the I/O spaces. -/
abbrev userSegs : ℕ := 126

/-- `MMU_SLR`: where the limit register of a segment is. -/
def mmuSlr : ℕ := 0x8000

/-- `MMU_SOR`: where the origin register of a segment is. -/
def mmuSor : ℕ := 0x8008

def mmuAccRw : ℕ := 0x700

def mmuAccInval : ℕ := 0xC00

/-- The registers of one context. -/
structure Context where
  limit : ℕ → ℕ
  origin : ℕ → ℕ

namespace Context

/-- A register write in setup mode. -/
def write (x : Context) (addr value : ℕ) : Context :=
  if addr % segSize = mmuSlr then
    { x with limit := update x.limit (addr / segSize) (value % 4096) }
  else if addr % segSize = mmuSor then
    { x with origin := update x.origin (addr / segSize) (value % 4096) }
  else x

/-- Where an access at the (24-bit) address `v` goes; nothing when it traps. -/
def translate (x : Context) (v : ℕ) : Option ℕ :=
  let s := v / segSize % nsegs
  let page := v % segSize / pageSize
  if x.limit s / 256 = 7 ∧ page < 256 - x.limit s % 256 then
    some ((x.origin s + page) % 4096 * pageSize + v % pageSize)
  else none

end Context

/-- The SEG latches and the contexts they select among; context 0 is the kernel's. -/
structure Hardware where
  seg1 : Bool
  seg2 : Bool
  context : ℕ → Context

/-- SEG1 alone is context 1, SEG2 alone context 2, both context 3. -/
def Hardware.selected (h : Hardware) : ℕ := h.seg1.toNat + 2 * h.seg2.toNat

/-- `lisa_mmu_write`: perform the writes of the table. -/
def lisaMmuWrite (h : Hardware) (table : List (ℕ × ℕ)) : Hardware :=
  { h with
    context := update h.context h.selected
      (table.foldl (fun x w => x.write w.1 w.2) (h.context h.selected)) }

/-! ## §2 The contexts in memory -/

/-- `NCTX`. -/
abbrev nctx : ℕ := 3

/-- `struct uctx`. -/
structure Uctx where
  segValid : ℕ → Bool
  proc : Option ProcPtr
  map : MemMaps

/-- The variables of `lisammu.c`, and the hardware. -/
structure Mmu where
  hw : Hardware
  uctx : Fin nctx → Uctx
  /-- `cur_ctx`; nothing for -1 -/
  curCtx : Option (Fin nctx)
  /-- the first `nwrites` entries of `lisa_mmu_table` -/
  table : List (ℕ × ℕ)

/-- Why `lisa_mmu_switch` panics. -/
inductive MmuPanic
  | differentOffsets
  | notOnPageBoundary
  | imageTooHigh
  deriving DecidableEq

namespace Mmu

/-- `MAX_WRITES`. -/
def maxWrites : ℕ := 2 * nsegs

def selectCtx (m : Mmu) (c : Fin nctx) : Mmu :=
  if m.curCtx = some c then m
  else { m with hw := { m.hw with seg1 := c ≠ 1, seg2 := c ≠ 0 }, curCtx := some c }

def flushWrites (m : Mmu) : Mmu :=
  { m with hw := if m.table = [] then m.hw else lisaMmuWrite m.hw m.table, table := [] }

def addWrite (m : Mmu) (addr value : ℕ) : Mmu :=
  let m := if m.table.length = maxWrites then m.flushWrites else m
  { m with table := m.table ++ [(addr, value)] }

/-- `u->seg_valid[s] = valid`. -/
def setValid (m : Mmu) (c : Fin nctx) (s : ℕ) (valid : Bool) : Mmu :=
  { m with
    uctx := update m.uctx c
      { m.uctx c with segValid := update (m.uctx c).segValid s valid } }

/-- The body of the loop of `lisa_mmu_init`. -/
def clearCtx (m : Mmu) (c : Fin nctx) : Mmu :=
  let m := { m.selectCtx c with table := [] }
  let m := (List.range nsegs).foldl
    (fun m s => (m.addWrite (s * segSize + mmuSlr) mmuAccInval).setValid c s false) m
  let m := m.flushWrites
  { m with uctx := update m.uctx c { m.uctx c with proc := none } }

/-- `lisa_mmu_init`. -/
def lisaMmuInit (m : Mmu) : Mmu := [2, 1, 0].foldl clearCtx m

end Mmu

/-! ## §3 Loading a context -/

/-- The segments `T`, `D` and `S`. -/
def segments (mp : MemMaps) : List MemMap := [mp.text, mp.data, mp.stack]

/-- The variables of the loop that finds the image: `lo`, `hi`, `delta` and `first`. -/
structure Span where
  lo : ℤ
  hi : ℤ
  delta : ℤ
  first : Bool

namespace Span

/-- One round of the loop over the segments. -/
def add (z : Span) (mp : MemMap) : Except MmuPanic Span :=
  if mp.memLen = 0 then .ok z
  else
    let d := ((mp.memPhys : ℤ) - mp.memVir) * 256
    if z.first = false ∧ d ≠ z.delta then .error .differentOffsets
    else
      let base := (mp.memVir : ℤ) * 256
      let last := ((mp.memVir : ℤ) + mp.memLen) * 256
      .ok { lo := if base < z.lo then base else z.lo
            hi := if last > z.hi then last else z.hi
            delta := d
            first := false }

/-- The loop over the segments, and the two checks after it. -/
def ofMap (mp : MemMaps) : Except MmuPanic Span :=
  (segments mp).foldlM add { lo := 0x7FFFFFFF, hi := 0, delta := 0, first := true } >>= fun z =>
    if z.delta % pageSize ≠ 0 then .error .notOnPageBoundary
    else if z.hi > userSegs * segSize then .error .imageTooHigh
    else .ok z

/-- The value for the origin register of segment `s`. -/
def origin (z : Span) (membase : ℤ) (s : ℕ) : ℕ :=
  ((s * segSize + z.delta + membase) / pageSize % 4096).toNat

/-- The number of pages of segment `s` up to the end of the image. -/
def pages (z : Span) (s : ℕ) : ℕ :=
  let last := z.hi - s * segSize
  let last := if last > segSize then (segSize : ℤ) else last
  ((last + pageSize - 1) / pageSize).toNat

/-- The MMU segments of the image, from that of `lo` to that of `hi - 1`. -/
def touched (z : Span) : List ℕ :=
  if z.hi > z.lo then
    let low := (z.lo / segSize).toNat
    List.range' low (((z.hi - 1) / segSize).toNat + 1 - low)
  else []

end Span

namespace Mmu

/-- The context of a process: MM and FS have one of their own. -/
def ctxOf (rp : ProcPtr) : Fin nctx := if rp = mm then 1 else if rp = fs then 2 else 0

/-- The writes for a segment of the image. -/
def mapSegment (m : Mmu) (z : Span) (membase : ℤ) (s : ℕ) : Mmu :=
  (m.addWrite (s * segSize + mmuSor) (z.origin membase s)).addWrite (s * segSize + mmuSlr)
    (mmuAccRw ||| (256 - z.pages s) % 256)

/-- The loop over the segments of the image, which also fills `want[]`. -/
def mapImage (m : Mmu) (z : Span) (membase : ℤ) : Mmu × (ℕ → Bool) :=
  z.touched.foldl (fun x s => (x.1.mapSegment z membase s, update x.2 s true))
    ({ m with table := [] }, fun _ => false)

/-- One round of the loop that invalidates what is not wanted any more. -/
def unmapSegment (want : ℕ → Bool) (c : Fin nctx) (m : Mmu) (s : ℕ) : Mmu :=
  (if (m.uctx c).segValid s && !want s then m.addWrite (s * segSize + mmuSlr) mmuAccInval
    else m).setValid c s (want s)

/-- The part of `lisa_mmu_switch` that loads the context `c` with the map `mp` of `rp`. -/
def loadCtx (m : Mmu) (membase : ℤ) (z : Span) (c : Fin nctx) (rp : ProcPtr) (mp : MemMaps) :
    Mmu :=
  let x := m.mapImage z membase
  let m := (List.range nsegs).foldl (unmapSegment x.2 c) x.1
  let m := m.flushWrites
  { m with uctx := update m.uctx c { m.uctx c with proc := some rp, map := mp } }

/-- `lisa_mmu_switch(rp)`, when the map of `rp` is `mp`. -/
def lisaMmuSwitch (membase : ℤ) (m : Mmu) (rp : ProcPtr) (mp : MemMaps) : Except MmuPanic Mmu :=
  let c := ctxOf rp
  let m := m.selectCtx c
  if (m.uctx c).proc = some rp ∧ (m.uctx c).map = mp then .ok m
  else (Span.ofMap mp).map fun z => m.loadCtx membase z c rp mp

end Mmu

end LisaMinix.Kernel
