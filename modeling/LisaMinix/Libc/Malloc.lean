import LisaMinix.Library.Chain
import LisaMinix.Library.Memory
import LisaMinix.Library.Programs

/-!
# The Heap of the C Library

`malloc`, `calloc`, `realloc` and `free` of `src/lib/ansi/malloc.c` on the Lisa: a pointer has 32 bits, an
`unsigned` 16, and `ptrint` is `long`.  A slot is preceded by a pointer to the next slot, and a free slot
begins with a pointer to the next free one; both pointers are in the memory that is handed out.

- `malloc`, `calloc`, `realloc` and `free` are programs over the memory and the three variables of the file.
  They may fail in an `ASSERT`, or go round a list of free slots without end.
- `call`: what a program can do with the heap; it also writes to its blocks.
-/

namespace LisaMinix.Libc.Malloc

open LisaMinix.Library

/-! ## §1 The State -/

/-- `PTRSIZE` -/
def ptrSize : ℤ := 4

/-- `BRKSIZE` -/
def brkSize : ℤ := 1024

/-- The processor has addresses of 24 bits. -/
def addressLimit : ℤ := 2 ^ 24

structure Heap where
  mem : Memory
  /-- `_bottom`: the first slot, 0 before there is one -/
  bottom : ℤ
  /-- `_top`: the last slot, of which there is only the pointer in front of it -/
  top : ℤ
  /-- `_empty`: the first free slot -/
  empty : ℤ
  /-- the end of the data segment -/
  brk : ℤ
  /-- whether the calls of `brk` to come are granted -/
  grants : ℕ → Bool

inductive Fault where
  | assertFailed
  /-- a list of free slots that does not end -/
  | endless
  deriving DecidableEq

/-- `Align` in `w` bits. -/
def align (w : ℕ) (x a : ℤ) : ℤ := (x + (a - 1)) % 2 ^ w / a * a

/-- The sum of a pointer and an `unsigned`. -/
def plus (p n : ℤ) : ℤ := (p + n) % 2 ^ 32

/-- `Align(size, PTRSIZE) + PTRSIZE`, kept in an `unsigned`. -/
def slotLen (size : ℤ) : ℤ := (align 16 size ptrSize + ptrSize) % 2 ^ 16

/-- `NextSlot(p)` -/
def nextSlot (m : Memory) (p : ℤ) : ℤ := m.long (p - ptrSize)

/-- `NextFree(p)` -/
def nextFree (m : Memory) (p : ℤ) : ℤ := m.long p

namespace Heap

def setNextSlot (h : Heap) (p v : ℤ) : Heap := { h with mem := h.mem.storeLong (p - ptrSize) v.toNat }

def setNextFree (h : Heap) (p v : ℤ) : Heap := { h with mem := h.mem.storeLong p v.toNat }

/-- `if (prev) NextFree(prev) = v; else _empty = v;` -/
def setLink (h : Heap) (prev v : ℤ) : Heap := if prev ≠ 0 then h.setNextFree prev v else { h with empty := v }

end Heap

/-- A function of the file that returns an `α`. -/
abbrev C (α : Type) : Type := Prog Heap Fault α

/-- `ASSERT` -/
def assert (b : Prop) [Decidable b] : C PUnit := if b then pure ⟨⟩ else throw .assertFailed

/-- A search of the list of free slots takes no more steps than there are pointers, if it ends. -/
def pointers : ℕ := 2 ^ 32

/-! ## §2 `free` -/

/-- The loop of `free`: the free slots before and behind `p`. -/
def freeLoop (p : ℤ) : ℕ → ℤ → ℤ → C (ℤ × ℤ)
  | 0, _, _ => throw .endless
  | n + 1, prev, next =>
    if next = 0 ∨ p < next then pure (prev, next)
    else do
      let h ← get
      freeLoop p n next (nextFree h.mem next)

/-- `if (NextSlot(p) == q)`: merge `p` and `q`. -/
def mergeSlots (p q : ℤ) : C PUnit := do
  let h ← get
  if nextSlot h.mem p = q then
    modify fun h => h.setNextSlot p (nextSlot h.mem q)
    modify fun h => h.setNextFree p (nextFree h.mem q)

/-- `p` and the slot `q` behind it are looked at if the free one of them is `there`. -/
def joinSlots (there : Prop) [Decidable there] (p q : ℤ) : C PUnit :=
  if there then do
    let h ← get
    assert (nextSlot h.mem p ≤ q)
    mergeSlots p q
  else pure ⟨⟩

def free (p : ℤ) : C PUnit := do
  let h ← get
  assert (p < nextSlot h.mem p)
  let (prev, next) ← freeLoop p pointers 0 h.empty
  modify fun h => h.setNextFree p next
  modify fun h => h.setLink prev p
  joinSlots (next ≠ 0) p next
  joinSlots (prev ≠ 0) prev p

/-! ## §3 `malloc` -/

/-- `brk`: the area grows if that is granted. -/
def sysBrk (p : ℤ) : C Bool := do
  let h ← get
  let granted := h.grants 0 && decide (p ≤ addressLimit)
  set { h with grants := fun n => h.grants (n + 1), brk := if granted then p else h.brk }
  return granted

def grow (len : ℤ) : C Bool := do
  let h ← get
  assert (nextSlot h.mem h.top = 0)
  let p := align 32 (h.top + len) brkSize
  if p < h.top then return false
  else
    let granted ← sysBrk p
    if granted then
      modify fun h => h.setNextSlot h.top p
      modify fun h => h.setNextSlot p 0
      free h.top
      modify fun h => { h with top := p }
    return granted

/-- "Too big, so split". -/
def splitFree (p new : ℤ) : C PUnit := do
  let h ← get
  let next := nextSlot h.mem p
  if plus new ptrSize < next then
    assert (new < plus new ptrSize)
    modify fun h => h.setNextSlot new next
    modify fun h => h.setNextSlot p new
    modify fun h => h.setNextFree new (nextFree h.mem p)
    modify fun h => h.setNextFree p new

/-- The loop over the free slots: the first one that is long enough, or 0. -/
def findFit (len : ℤ) : ℕ → ℤ → ℤ → C ℤ
  | 0, _, _ => throw .endless
  | n + 1, prev, p =>
    if p = 0 then return 0
    else do
      let h ← get
      let new := plus p len
      if nextSlot h.mem p < new ∨ new ≤ p then findFit len n p (nextFree h.mem p)
      else
        splitFree p new
        modify fun h => h.setLink prev (nextFree h.mem p)
        return p

/-- The first call: two pointers are asked for, so that one of them is at an aligned address. -/
def initHeap : C Bool := do
  let h ← get
  let granted ← sysBrk (h.brk + 2 * ptrSize)
  if granted then
    let p := align 32 h.brk ptrSize
    assert (p < plus p ptrSize)
    modify fun h => { h with top := plus p ptrSize, bottom := plus p ptrSize }
    modify fun h => h.setNextSlot h.top 0
  return granted

/-- The tries that `malloc` has left.  After the last one `ntries` is 2. -/
def mallocLoop (len : ℤ) : ℕ → C ℤ
  | 0 => throw .assertFailed
  | tries + 1 =>
    if len < 2 * ptrSize then return 0
    else do
      let h ← get
      let ready ← if h.bottom = 0 then initHeap else pure true
      if ready then
        let h ← get
        let p ← findFit len pointers 0 h.empty
        if p ≠ 0 then return p
        else
          let grown ← grow len
          if grown then mallocLoop len tries else return 0
      else return 0

def malloc (size : UInt16) : C ℤ := mallocLoop (slotLen (if size = 0 then ptrSize else size.toNat)) 2

/-! ## §4 `realloc` and `calloc` -/

/-- The loop of `realloc`: a free slot just behind `old` is merged with it. -/
def extendLoop (old next : ℤ) : ℕ → ℤ → ℤ → C PUnit
  | 0, _, _ => throw .endless
  | n + 1, prev, p =>
    if p = 0 ∨ next < p then return ⟨⟩
    else if p = next then do
      modify fun h => h.setNextSlot old (nextSlot h.mem p)
      modify fun h => h.setLink prev (nextFree h.mem p)
    else do
      let h ← get
      extendLoop old next n p (nextFree h.mem p)

/-- The old slot is used; what is too much of it is given back. -/
def shrink (old new : ℤ) : C PUnit := do
  let h ← get
  let next := nextSlot h.mem old
  if plus new ptrSize < next then
    assert (new < plus new ptrSize)
    modify fun h => h.setNextSlot new next
    modify fun h => h.setNextSlot old new
    free new

/-- The block is moved: "it didn't fit". -/
def move (old : ℤ) (n : ℕ) (size : UInt16) : C ℤ := do
  let new ← malloc size
  if new = 0 then return 0
  else
    modify fun h => { h with mem := h.mem.write new (h.mem.read old n) }
    free old
    return new

def realloc (old : ℤ) (size : UInt16) : C ℤ :=
  if 2 ^ 16 - 2 * ptrSize < size.toNat then return 0
  else do
    let h ← get
    let len := slotLen size.toNat
    let next := nextSlot h.mem old
    let n := (next - old) % 2 ^ 16
    extendLoop old next pointers 0 h.empty
    let h ← get
    let next := nextSlot h.mem old
    let new := plus old len
    if new ≤ next ∧ old ≤ new then
      shrink old new
      return old
    else move old n.toNat size

/-- The loop of `calloc`. -/
def clear : ℕ → ℤ → Memory → Memory
  | 0, _, m => m
  | n + 1, p, m => clear n (p + 1) (Function.update m p 0)

def calloc (n size : UInt16) : C ℤ := do
  let p ← malloc (n * size)
  if p = 0 then return 0
  else
    modify fun h => { h with mem := clear (n * size).toNat p h.mem }
    return p

/-! ## §5 What a Program Does -/

inductive Call where
  | malloc (size : UInt16)
  | calloc (n size : UInt16)
  | realloc (p : ℤ) (size : UInt16)
  | free (p : ℤ)
  /-- the program writes byte `i` of its block `p` -/
  | store (p : ℤ) (i : ℕ) (c : UInt8)

/-- The pointer that is returned, 0 where none is. -/
def call : Call → Heap → Except Fault ℤ × Heap
  | .malloc size => malloc size
  | .calloc n size => calloc n size
  | .realloc p size => realloc p size
  | .free p => (do free p; return 0 : C ℤ)
  | .store p i c => (do modify fun h => { h with mem := Function.update h.mem (p + i) c }; return 0 : C ℤ)

/-- Before the first call.  Nothing is known of the memory. -/
def initial (mem : Memory) (brk : ℕ) (grants : ℕ → Bool) : Heap where
  mem := mem
  bottom := 0
  top := 0
  empty := 0
  brk := brk
  grants := grants

end LisaMinix.Libc.Malloc
