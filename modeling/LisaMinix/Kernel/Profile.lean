import Mathlib.Tactic

/-!
# The ProFile Disk Task

Model of `do_rdwt` (`src/kernel/lisa/lisapro.c`) and of `do_vrdwt` (`src/kernel/misc.c`), which
unpacks a vector of requests for it.  The drive is a parameter: `pro_block` may fail for any
block at any attempt.  Memory is the data areas of the buffers that the requests name, and `log`
keeps every block that went over, in order.

- `doRdwt` and `doVrdwt` model the two functions.
- `doRdwt_spec`: the sectors of one request that went over, and what is answered for them.
- `doVrdwt_answered`: the same for a vector of requests with different buffers.
- `doVrdwt_performed`: the log is what the drive has done.
- `doVrdwt_ready`: a drive that works leaves no bytes of requests that lie in the partition.
-/

namespace LisaMinix.Kernel.Profile

open Function

/-! ## §1 The Drive -/

def sectorSize : ℕ := 512
def maxErrors : ℕ := 5
def nrMinors : ℕ := 2

def eio : ℤ := -5
def einval : ℤ := -22

/-- `pro_block` for a read and a write: the 512 data bytes, or whether the block was taken.  The
    block number goes to the drive as three bytes. -/
structure Drive (δ : Type*) where
  proRead : δ → ℕ → Option (List UInt8) × δ
  proWrite : δ → ℕ → List UInt8 → Bool × δ
  length_proRead : ∀ d b l d', proRead d b = (some l, d') → l.length = sectorSize

/-- A partition, in ProFile blocks; it lies on the drive, whose block numbers have three bytes. -/
structure Part where
  start : ℕ
  size : ℕ
  onDrive : start + size ≤ 2 ^ 24

/-- A block that went over: the ProFile block, the place in memory and the data. -/
structure Transfer (β : Type*) where
  write : Bool
  block : ℕ
  buf : β
  offset : ℕ
  bytes : List UInt8
deriving DecidableEq

/-- What the task works on: the drive, the data areas of the buffers, and what has gone over. -/
structure Io (δ β : Type*) where
  drive : δ
  mem : β → ℕ → UInt8
  log : List (Transfer β)

/-- `n` bytes of memory. -/
def span (m : ℕ → UInt8) (a n : ℕ) : List UInt8 := (List.range n).map fun k => m (a + k)

/-- Memory with `bytes` put at `a`. -/
def place (m : ℕ → UInt8) (a : ℕ) (bytes : List UInt8) : ℕ → UInt8 := fun x =>
  if a ≤ x ∧ x < a + bytes.length then bytes.getD (x - a) 0 else m x

variable {δ β : Type*}

/-- Up to `n` attempts at a read. -/
def retryRead (D : Drive δ) (block : ℕ) : ℕ → δ → Option (List UInt8) × δ
  | 0, d => (none, d)
  | n + 1, d =>
    match D.proRead d block with
    | (some bytes, d) => (some bytes, d)
    | (none, d) => retryRead D block n d

/-- Up to `n` attempts at a write. -/
def retryWrite (D : Drive δ) (block : ℕ) (bytes : List UInt8) : ℕ → δ → Bool × δ
  | 0, d => (false, d)
  | n + 1, d =>
    match D.proWrite d block bytes with
    | (true, d) => (true, d)
    | (false, d) => retryWrite D block bytes n d

/-- One round of the loop over the sectors of a request: is `r` still `OK`? -/
def doSector [DecidableEq β] (D : Drive δ) (write : Bool) (block : ℕ) (buf : β) (n : ℕ)
    (io : Io δ β) : Bool × Io δ β :=
  let blk := (block + n) % 2 ^ 24
  let p := n * sectorSize
  if write then
    let bytes := span (io.mem buf) p sectorSize
    match retryWrite D blk bytes maxErrors io.drive with
    | (true, d) => (true, { io with drive := d, log := io.log ++ [⟨true, blk, buf, p, bytes⟩] })
    | (false, d) => (false, { io with drive := d })
  else
    match retryRead D blk maxErrors io.drive with
    | (some bytes, d) =>
      (true, {
        drive := d
        mem := update io.mem buf (place (io.mem buf) p bytes)
        log := io.log ++ [⟨false, blk, buf, p, bytes⟩] })
    | (none, d) => (false, { io with drive := d })

/-- The loop over the sectors: the outcome, and `n` as the loop leaves it. -/
def doSectors [DecidableEq β] (D : Drive δ) (write : Bool) (block : ℕ) (buf : β) :
    ℕ → ℕ → Io δ β → (Bool × ℕ) × Io δ β
  | 0, n, io => ((true, n), io)
  | left + 1, n, io =>
    match doSector D write block buf n io with
    | (true, io) => doSectors D write block buf left (n + 1) io
    | (false, io) => ((false, n + 1), io)

/-- A request, as a message or an element of an i/o vector has it. -/
structure IoRequest (β : Type*) where
  position : ℕ
  buf : β
  nbytes : ℕ
  write : Bool
  optional : Bool
deriving DecidableEq

/-- `do_rdwt`: the number of bytes that went over, 0 at the end of the partition, or an error.
    `mapped` says whether `umap` finds the buffer. -/
def doRdwt [DecidableEq β] (D : Drive δ) (part : ℕ → Part) (mapped : β → Bool) (device : ℕ)
    (m : IoRequest β) (io : Io δ β) : ℤ × Io δ β :=
  if nrMinors ≤ device ∨ (part device).size = 0 then (eio, io)
  else if m.position % sectorSize ≠ 0 ∨ m.nbytes % sectorSize ≠ 0 then (einval, io)
  else
    let block := m.position / sectorSize
    let count := m.nbytes / sectorSize
    if mapped m.buf = false then (einval, io)
    else if (part device).size ≤ block then (0, io)
    else
      let avail := (part device).size - block
      let count := if avail < count then avail else count
      match doSectors D m.write (block + (part device).start) m.buf count 0 io with
      | ((true, _), io) => (count * sectorSize, io)
      | ((false, n), io) => (if 1 < n then ((n - 1 : ℕ) * sectorSize : ℕ) else eio, io)

/-- A value stored in an `unsigned short`. -/
def toU16 (n : ℤ) : ℕ := (n % 65536).toNat

/-- `do_vrdwt`: the requests one at a time, with their status in the vector; the end of the
    partition, or an error of an optional request, ends it. -/
def doVrdwt [DecidableEq β] (D : Drive δ) (part : ℕ → Part) (mapped : β → Bool) (device : ℕ) :
    List (IoRequest β) → Io δ β → List (IoRequest β) × Io δ β
  | [], io => ([], io)
  | iop :: iovec, io =>
    let (result, io) := doRdwt D part mapped device iop io
    if result = 0 then (iop :: iovec, io)
    else if result < 0 then
      let iop := { iop with nbytes := toU16 result }
      if iop.optional then (iop :: iovec, io)
      else
        let (iovec, io) := doVrdwt D part mapped device iovec io
        (iop :: iovec, io)
    else
      let iop := { iop with nbytes := toU16 (iop.nbytes - result) }
      let (iovec, io) := doVrdwt D part mapped device iovec io
      (iop :: iovec, io)

/-! ## §2 The Sectors of One Request -/

theorem span_congr {m m' : ℕ → UInt8} {a n : ℕ} (h : ∀ x, a ≤ x → x < a + n → m' x = m x) :
    span m' a n = span m a n := by
  apply List.map_congr_left
  intro k hk
  have := List.mem_range.mp hk
  exact h (a + k) (by omega) (by omega)

theorem span_place (m : ℕ → UInt8) (a : ℕ) (bytes : List UInt8) :
    span (place m a bytes) a bytes.length = bytes := by
  apply List.ext_getElem
  · simp [span]
  · intro k hk _
    have hk' : k < bytes.length := by simpa [span] using hk
    simp [span, place, hk']

/-- The transfer of sector `h` of a buffer whose block starts at `block`, as it stands in `m`. -/
def sectorTransfer (write : Bool) (block : ℕ) (buf : β) (m : β → ℕ → UInt8) (h : ℕ) : Transfer β :=
  ⟨write, (block + h) % 2 ^ 24, buf, h * sectorSize, span (m buf) (h * sectorSize) sectorSize⟩

/-- The sectors `n` to `n + k` went over, and nothing else changed. -/
structure Moved (write : Bool) (block : ℕ) (buf : β) (n k : ℕ) (io io' : Io δ β) : Prop where
  log : io'.log = io.log ++ (List.range' n k).map (sectorTransfer write block buf io'.mem)
  other : ∀ b, b ≠ buf → io'.mem b = io.mem b
  outside : ∀ x, x < n * sectorSize ∨ (n + k) * sectorSize ≤ x → io'.mem buf x = io.mem buf x
  unread : write = true → io'.mem = io.mem

theorem Moved.nothing (write : Bool) (block : ℕ) (buf : β) (n : ℕ) {io io' : Io δ β}
    (hmem : io'.mem = io.mem) (hlog : io'.log = io.log) : Moved write block buf n 0 io io' where
  log := by simp [hlog]
  other b _ := by rw [hmem]
  outside x _ := by rw [hmem]
  unread _ := hmem

/-- Sectors that go over one after the other. -/
theorem Moved.trans {write : Bool} {block : ℕ} {buf : β} {n k k' : ℕ} {io io₁ io₂ : Io δ β}
    (h : Moved write block buf n k io io₁) (h' : Moved write block buf (n + k) k' io₁ io₂) :
    Moved write block buf n (k + k') io io₂ where
  log := by
    -- the later sectors leave the earlier ones as they are in memory
    have hkeep : (List.range' n k).map (sectorTransfer write block buf io₂.mem) =
        (List.range' n k).map (sectorTransfer write block buf io₁.mem) := by
      apply List.map_congr_left
      intro j hj
      have hj := List.mem_range'_1.mp hj
      have hspan : span (io₂.mem buf) (j * sectorSize) sectorSize =
          span (io₁.mem buf) (j * sectorSize) sectorSize := by
        apply span_congr
        intro x _ hx
        apply h'.outside
        left
        calc x < j * sectorSize + sectorSize := hx
          _ = (j + 1) * sectorSize := by ring
          _ ≤ (n + k) * sectorSize := Nat.mul_le_mul_right _ (by omega)
      simp [sectorTransfer, hspan]
    rw [h'.log, h.log, List.append_assoc, ← hkeep, ← List.map_append, List.range'_append_1]
  other b hb := by rw [h'.other b hb, h.other b hb]
  outside x hx := by
    have h1 : n * sectorSize ≤ (n + k) * sectorSize := Nat.mul_le_mul_right _ (by omega)
    have h2 : (n + k) * sectorSize ≤ (n + k + k') * sectorSize := Nat.mul_le_mul_right _ (by omega)
    rw [h'.outside x (by rw [← Nat.add_assoc] at hx; omega), h.outside x (by
      rw [← Nat.add_assoc] at hx; omega)]
  unread hw := by rw [h'.unread hw, h.unread hw]

theorem retryRead_length (D : Drive δ) {block n : ℕ} {d d' : δ} {bytes : List UInt8}
    (h : retryRead D block n d = (some bytes, d')) : bytes.length = sectorSize := by
  induction n generalizing d with
  | zero => cases h
  | succ n ih =>
    unfold retryRead at h
    split at h
    · next heq =>
      cases h
      exact D.length_proRead _ _ _ _ heq
    · exact ih h

/-- **One sector**: it went over, or nothing did. -/
theorem doSector_spec [DecidableEq β] (D : Drive δ) (write : Bool) (block : ℕ) (buf : β) (n : ℕ)
    (io : Io δ β) :
    Moved write block buf n (if (doSector D write block buf n io).1 then 1 else 0) io
      (doSector D write block buf n io).2 := by
  unfold doSector
  dsimp only
  split
  · next hw =>
    subst hw
    split
    · exact ⟨by simp [sectorTransfer], fun _ _ => rfl, fun _ _ => rfl, fun _ => rfl⟩
    · exact .nothing _ _ _ _ rfl rfl
  · next hw =>
    have hw : write = false := Bool.eq_false_iff.mpr hw
    subst hw
    split
    · next bytes d hread =>
      have hlen := retryRead_length D hread
      constructor
      · have hspan := span_place (io.mem buf) (n * sectorSize) bytes
        rw [hlen] at hspan
        simp [sectorTransfer, hspan]
      · intro b hb
        simp [hb]
      · intro x hx
        have hmul : (n + 1) * sectorSize = n * sectorSize + sectorSize := by ring
        simp only [if_true] at hx
        simp [place, hlen]
        omega
      · intro h
        cases h
    · exact .nothing _ _ _ _ rfl rfl

/-- **The loop over the sectors**: those before the first that failed went over. -/
theorem doSectors_spec [DecidableEq β] (D : Drive δ) (write : Bool) (block : ℕ) (buf : β) (left n : ℕ)
    (io : Io δ β) :
    ∃ k, Moved write block buf n k io (doSectors D write block buf left n io).2 ∧
      ((doSectors D write block buf left n io).1 = (true, n + left) ∧ k = left ∨
        (doSectors D write block buf left n io).1 = (false, n + k + 1) ∧ k < left) := by
  induction left generalizing n io with
  | zero => exact ⟨0, .nothing _ _ _ _ rfl rfl, .inl ⟨rfl, rfl⟩⟩
  | succ left ih =>
    have hone := doSector_spec D write block buf n io
    unfold doSectors
    split
    · next io₁ heq =>
      rw [heq] at hone
      obtain ⟨k, hmoved, hend⟩ := ih (n + 1) io₁
      refine ⟨1 + k, hone.trans hmoved, ?_⟩
      rcases hend with ⟨hres, rfl⟩ | ⟨hres, hlt⟩
      · left
        rw [hres]
        exact ⟨by congr 1; omega, by omega⟩
      · right
        rw [hres]
        exact ⟨by congr 1; omega, by omega⟩
    · next io₁ heq =>
      rw [heq] at hone
      exact ⟨0, hone, .inr ⟨rfl, by omega⟩⟩

/-! ## §3 One Request -/

/-- **What `do_rdwt` answers is what went over**: `k` sectors at the start of the request, all
    inside the partition, and their bytes as the result; with none, 0 or an error. -/
theorem doRdwt_spec [DecidableEq β] (D : Drive δ) (part : ℕ → Part) (mapped : β → Bool) (device : ℕ)
    (m : IoRequest β) (io : Io δ β) :
    ∃ k, Moved m.write (m.position / sectorSize + (part device).start) m.buf 0 k io
        (doRdwt D part mapped device m io).2 ∧
      k ≤ m.nbytes / sectorSize ∧
      (0 < k → m.position / sectorSize + k ≤ (part device).size) ∧
      ((doRdwt D part mapped device m io).1 = (k * sectorSize : ℕ) ∧ 0 < k ∨
        k = 0 ∧ ((doRdwt D part mapped device m io).1 = 0 ∨
          (doRdwt D part mapped device m io).1 = eio ∨
          (doRdwt D part mapped device m io).1 = einval)) := by
  have hnone : ∀ r, r = 0 ∨ r = eio ∨ r = einval → ∃ k,
      Moved m.write (m.position / sectorSize + (part device).start) m.buf 0 k io (r, io).2 ∧
      k ≤ m.nbytes / sectorSize ∧ (0 < k → m.position / sectorSize + k ≤ (part device).size) ∧
      ((r, io).1 = (k * sectorSize : ℕ) ∧ 0 < k ∨
        k = 0 ∧ ((r, io).1 = 0 ∨ (r, io).1 = eio ∨ (r, io).1 = einval)) :=
    fun r hr => ⟨0, .nothing _ _ _ _ rfl rfl, Nat.zero_le _, by omega, .inr ⟨rfl, hr⟩⟩
  unfold doRdwt
  split
  · exact hnone eio (by simp)
  split
  · exact hnone einval (by simp)
  dsimp only
  split
  · exact hnone einval (by simp)
  split
  · exact hnone 0 (by simp)
  next hin =>
  obtain ⟨k, hmoved, hend⟩ := doSectors_spec D m.write
    (m.position / sectorSize + (part device).start) m.buf
    (if (part device).size - m.position / sectorSize < m.nbytes / sectorSize then
      (part device).size - m.position / sectorSize else m.nbytes / sectorSize) 0 io
  generalize hcount : (if (part device).size - m.position / sectorSize < m.nbytes / sectorSize then
      (part device).size - m.position / sectorSize else m.nbytes / sectorSize) = count at *
  have hle : count ≤ m.nbytes / sectorSize ∧
      count ≤ (part device).size - m.position / sectorSize := by
    split at hcount <;> omega
  split
  · next n io' heq =>
    rw [heq] at hmoved hend
    obtain ⟨-, rfl⟩ | ⟨h, -⟩ := hend
    · refine ⟨k, hmoved, hle.1, by omega, ?_⟩
      rcases Nat.eq_zero_or_pos k with rfl | hpos
      · exact .inr ⟨rfl, .inl (by simp)⟩
      · exact .inl ⟨by push_cast; rfl, hpos⟩
    · cases h
  · next n io' heq =>
    rw [heq] at hmoved hend
    obtain ⟨h, -⟩ | ⟨h, hlt⟩ := hend
    · cases h
    · cases h
      refine ⟨k, hmoved, by omega, by omega, ?_⟩
      rcases Nat.eq_zero_or_pos k with rfl | hpos
      · exact .inr ⟨rfl, .inr (.inl (by simp))⟩
      · left
        have hn : 0 + k + 1 - 1 = k := by omega
        rw [if_pos (by omega), hn]
        exact ⟨rfl, hpos⟩

/-! ## §4 A Vector of Requests -/

/-- The requests of a vector, of which the first `ks` sectors went over. -/
structure VMoved (start : ℕ) (iovec : List (IoRequest β)) (ks : β → ℕ) (io io' : Io δ β) :
    Prop where
  log : io'.log = io.log ++ iovec.flatMap fun r => (List.range' 0 (ks r.buf)).map
    (sectorTransfer r.write (r.position / sectorSize + start) r.buf io'.mem)
  other : ∀ b, b ∉ iovec.map IoRequest.buf → io'.mem b = io.mem b
  outside : ∀ r ∈ iovec, ∀ x, ks r.buf * sectorSize ≤ x → io'.mem r.buf x = io.mem r.buf x
  unread : ∀ r ∈ iovec, r.write = true → io'.mem r.buf = io.mem r.buf

/-- A request before the others of the vector. -/
theorem VMoved.cons [DecidableEq β] {start : ℕ} {r : IoRequest β} {iovec : List (IoRequest β)}
    {k : ℕ} {ks : β → ℕ} {io io₁ io₂ : Io δ β} (hbuf : r.buf ∉ iovec.map IoRequest.buf)
    (h : Moved r.write (r.position / sectorSize + start) r.buf 0 k io io₁)
    (h' : VMoved start iovec ks io₁ io₂) :
    VMoved start (r :: iovec) (update ks r.buf k) io io₂ := by
  have hmem : io₂.mem r.buf = io₁.mem r.buf := h'.other _ hbuf
  have hne : ∀ r' ∈ iovec, r'.buf ≠ r.buf := by
    intro r' hr' heq
    exact hbuf (heq ▸ List.mem_map_of_mem hr')
  have hks : ∀ r' ∈ iovec, update ks r.buf k r'.buf = ks r'.buf :=
    fun r' hr' => update_of_ne (hne r' hr') _ _
  constructor
  · have hfirst : (List.range' 0 k).map (sectorTransfer r.write (r.position / sectorSize + start)
        r.buf io₂.mem) = (List.range' 0 k).map
          (sectorTransfer r.write (r.position / sectorSize + start) r.buf io₁.mem) := by
      simp [sectorTransfer, hmem]
    have hrest : (iovec.flatMap fun r' => (List.range' 0 (update ks r.buf k r'.buf)).map
        (sectorTransfer r'.write (r'.position / sectorSize + start) r'.buf io₂.mem)) =
        iovec.flatMap fun r' => (List.range' 0 (ks r'.buf)).map
          (sectorTransfer r'.write (r'.position / sectorSize + start) r'.buf io₂.mem) := by
      apply List.flatMap_congr
      intro r' hr'
      rw [hks r' hr']
    rw [List.flatMap_cons, update_self, hrest, hfirst, h'.log, h.log, List.append_assoc]
  · intro b hb
    simp only [List.map_cons, List.mem_cons, not_or] at hb
    rw [h'.other b hb.2, h.other b hb.1]
  · intro r' hr' x hx
    rcases List.mem_cons.mp hr' with rfl | hr'
    · rw [update_self] at hx
      rw [hmem, h.outside x (.inr (by simpa using hx))]
    · rw [hks r' hr'] at hx
      rw [h'.outside r' hr' x hx, h.other _ (hne r' hr')]
  · intro r' hr' hw
    rcases List.mem_cons.mp hr' with rfl | hr'
    · rw [hmem, h.unread hw]
    · rw [h'.unread r' hr' hw, h.other _ (hne r' hr')]

theorem VMoved.nothing (start : ℕ) (iovec : List (IoRequest β)) (io : Io δ β) :
    VMoved start iovec (fun _ => 0) io io where
  log := by simp
  other _ _ := rfl
  outside _ _ _ _ := rfl
  unread _ _ _ := rfl

/-- The size of the requests that `rw_scattered` makes. -/
def requestSize : ℕ := 1024

/-- A vector was answered: each request for its own buffer, with none of its bytes left exactly
    when both sectors went over, inside the partition. -/
def Answered (p : Part) (iovec : List (IoRequest β)) (io : Io δ β)
    (res : List (IoRequest β) × Io δ β) : Prop :=
  ∃ ks left : β → ℕ, VMoved p.start iovec ks io res.2 ∧
    res.1 = iovec.map (fun r => { r with nbytes := left r.buf }) ∧
    ∀ r ∈ iovec, ks r.buf ≤ 2 ∧ (left r.buf = 0 ↔ ks r.buf = 2) ∧
      (0 < ks r.buf → r.position / sectorSize + ks r.buf ≤ p.size)

section Vector

variable {p : Part} {iop : IoRequest β} {iovec : List (IoRequest β)} {io io₁ : Io δ β} {k n : ℕ}

theorem buf_ne_of_notMem (hbuf : iop.buf ∉ iovec.map IoRequest.buf) :
    ∀ r ∈ iovec, r.buf ≠ iop.buf := by
  intro r hr heq
  exact hbuf (heq ▸ List.mem_map_of_mem hr)

/-- A vector that goes on after its first request. -/
theorem Answered.cons [DecidableEq β] (hbuf : iop.buf ∉ iovec.map IoRequest.buf)
    (hm : Moved iop.write (iop.position / sectorSize + p.start) iop.buf 0 k io io₁) (hk : k ≤ 2)
    (hin : 0 < k → iop.position / sectorSize + k ≤ p.size) (hn : n = 0 ↔ k = 2)
    {res : List (IoRequest β) × Io δ β} (h : Answered p iovec io₁ res) :
    Answered p (iop :: iovec) io ({ iop with nbytes := n } :: res.1, res.2) := by
  have hne := buf_ne_of_notMem hbuf
  obtain ⟨ks, left, hv, hvec, hall⟩ := h
  refine ⟨update ks iop.buf k, update left iop.buf n, hv.cons hbuf hm, ?_, ?_⟩
  · dsimp only
    rw [hvec, List.map_cons, update_self]
    congr 1
    apply List.map_congr_left
    intro r hr
    rw [update_of_ne (hne r hr)]
  · intro r hr
    rcases List.mem_cons.mp hr with rfl | hr
    · simp only [update_self]
      exact ⟨hk, hn, hin⟩
    · simp only [update_of_ne (hne r hr)]
      exact hall r hr

/-- Requests that are not carried out are answered too: all their bytes are left. -/
theorem Answered.skipped (p : Part) (hsize : ∀ r ∈ iovec, r.nbytes = requestSize) (io : Io δ β) :
    Answered p iovec io (iovec, io) := by
  refine ⟨fun _ => 0, fun _ => requestSize, .nothing _ _ _, ?_, ?_⟩
  · conv_lhs => rw [← List.map_id iovec]
    apply List.map_congr_left
    intro r hr
    rw [← hsize r hr]
    rfl
  · intro r _
    simp [requestSize]

end Vector

/-- **A vector of requests for whole blocks is answered.** -/
theorem doVrdwt_answered [DecidableEq β] (D : Drive δ) (part : ℕ → Part) (mapped : β → Bool)
    (device : ℕ) {iovec : List (IoRequest β)} (hbufs : (iovec.map IoRequest.buf).Nodup)
    (hsize : ∀ r ∈ iovec, r.nbytes = requestSize) (io : Io δ β) :
    Answered (part device) iovec io (doVrdwt D part mapped device iovec io) := by
  induction iovec generalizing io with
  | nil => exact .skipped _ hsize io
  | cons iop iovec ih =>
    rw [List.map_cons, List.nodup_cons] at hbufs
    obtain ⟨hbuf, hbufs⟩ := hbufs
    have hiop : iop.nbytes = requestSize := hsize iop (List.mem_cons_self ..)
    have hsize' : ∀ r ∈ iovec, r.nbytes = requestSize :=
      fun r hr => hsize r (List.mem_cons_of_mem _ hr)
    have hself : iop = { iop with nbytes := requestSize } := by rw [← hiop]
    obtain ⟨k, hmoved, hle, hin, hres⟩ := doRdwt_spec D part mapped device iop io
    rw [hiop] at hle
    have hk : k ≤ 2 := hle
    unfold doVrdwt
    generalize doRdwt D part mapped device iop io = res at hmoved hres
    obtain ⟨result, io₁⟩ := res
    dsimp only at hmoved hres ⊢
    rcases hres with ⟨rfl, hpos⟩ | ⟨rfl, hnone⟩
    · -- some sectors went over: the rest of the vector follows
      have hn : toU16 ((iop.nbytes : ℤ) - (k * sectorSize : ℕ)) = 0 ↔ k = 2 := by
        rw [hiop]
        interval_cases k <;> decide
      have hmul : (0 : ℤ) < (k * sectorSize : ℕ) := by
        have : 0 < k * sectorSize := Nat.mul_pos hpos (by decide)
        exact_mod_cast this
      rw [if_neg hmul.ne', if_neg (by omega)]
      exact .cons hbuf hmoved hk hin hn (ih hbufs hsize' io₁)
    · rcases hnone with rfl | herr
      · -- the end of the partition
        rw [if_pos rfl]
        have h := Answered.cons hbuf hmoved hk hin (n := requestSize) (by decide)
          (.skipped (part device) hsize' io₁)
        rwa [← hself] at h
      · -- an error: an optional request ends the vector
        have hneg : result < 0 := by rcases herr with rfl | rfl <;> decide
        have hn : toU16 result = 0 ↔ 0 = 2 := by rcases herr with rfl | rfl <;> decide
        rw [if_neg hneg.ne, if_pos hneg]
        split
        · exact .cons hbuf hmoved hk hin hn (.skipped (part device) hsize' io₁)
        · exact .cons hbuf hmoved hk hin hn (ih hbufs hsize' io₁)

/-! ## §5 The Drive -/

/-- What the drive was made to do: attempts that fail leave no entry in the log, a read leaves the
    bytes that the drive returned, and a write those that it took. -/
inductive Performed (D : Drive δ) (d₀ : δ) (log₀ : List (Transfer β)) : δ → List (Transfer β) → Prop
  | nothing : Performed D d₀ log₀ d₀ log₀
  | noRead {d d' block log} (h : Performed D d₀ log₀ d log) (hread : D.proRead d block = (none, d')) :
      Performed D d₀ log₀ d' log
  | read {d d' block log buf offset bytes} (h : Performed D d₀ log₀ d log)
      (hread : D.proRead d block = (some bytes, d')) :
      Performed D d₀ log₀ d' (log ++ [⟨false, block, buf, offset, bytes⟩])
  | noWrite {d d' block log bytes} (h : Performed D d₀ log₀ d log)
      (hwrite : D.proWrite d block bytes = (false, d')) : Performed D d₀ log₀ d' log
  | write {d d' block log buf offset bytes} (h : Performed D d₀ log₀ d log)
      (hwrite : D.proWrite d block bytes = (true, d')) :
      Performed D d₀ log₀ d' (log ++ [⟨true, block, buf, offset, bytes⟩])

theorem Performed.trans {D : Drive δ} {d d₁ d₂ : δ} {log log₁ log₂ : List (Transfer β)}
    (h : Performed D d log d₁ log₁) (h' : Performed D d₁ log₁ d₂ log₂) : Performed D d log d₂ log₂ := by
  induction h' with
  | nothing => exact h
  | noRead _ hread ih => exact ih.noRead hread
  | read _ hread ih => exact ih.read hread
  | noWrite _ hwrite ih => exact ih.noWrite hwrite
  | write _ hwrite ih => exact ih.write hwrite

section Performed

variable {D : Drive δ} {block n : ℕ} {d d' : δ}

/-- The attempts at a read: all but the last have failed. -/
theorem retryRead_performed {res : Option (List UInt8)} (h : retryRead D block n d = (res, d')) (buf : β)
    (offset : ℕ) (log : List (Transfer β)) :
    Performed D d log d' (log ++ res.toList.map fun bytes => ⟨false, block, buf, offset, bytes⟩) := by
  induction n generalizing d with
  | zero =>
    cases h
    simpa using Performed.nothing
  | succ n ih =>
    unfold retryRead at h
    split at h
    · next heq =>
      cases h
      exact Performed.nothing.read heq
    · next heq => exact (Performed.nothing.noRead heq).trans (ih h)

theorem retryWrite_performed {bytes : List UInt8} {res : Bool}
    (h : retryWrite D block bytes n d = (res, d')) (buf : β) (offset : ℕ) (log : List (Transfer β)) :
    Performed D d log d' (log ++ if res then [⟨true, block, buf, offset, bytes⟩] else []) := by
  induction n generalizing d with
  | zero =>
    cases h
    simpa using Performed.nothing
  | succ n ih =>
    unfold retryWrite at h
    split at h
    · next heq =>
      cases h
      exact Performed.nothing.write heq
    · next heq => exact (Performed.nothing.noWrite heq).trans (ih h)

variable [DecidableEq β] {write : Bool} {buf : β} {io io' : Io δ β}

theorem doSector_performed {ok : Bool} (h : doSector D write block buf n io = (ok, io')) :
    Performed D io.drive io.log io'.drive io'.log := by
  unfold doSector at h
  dsimp only at h
  split at h
  all_goals
    split at h
    all_goals
      next heq =>
      cases h
      first
        | simpa using retryWrite_performed heq buf (n * sectorSize) io.log
        | simpa using retryRead_performed heq buf (n * sectorSize) io.log

theorem doSectors_performed {left : ℕ} {res : Bool × ℕ}
    (h : doSectors D write block buf left n io = (res, io')) :
    Performed D io.drive io.log io'.drive io'.log := by
  induction left generalizing n io with
  | zero =>
    cases h
    exact .nothing
  | succ left ih =>
    unfold doSectors at h
    split at h
    · next heq => exact (doSector_performed heq).trans (ih h)
    · next heq =>
      cases h
      exact doSector_performed heq

theorem doRdwt_performed (D : Drive δ) (part : ℕ → Part) (mapped : β → Bool) (device : ℕ)
    (m : IoRequest β) (io : Io δ β) : Performed D io.drive io.log
      (doRdwt D part mapped device m io).2.drive (doRdwt D part mapped device m io).2.log := by
  unfold doRdwt
  split
  · exact .nothing
  split
  · exact .nothing
  dsimp only
  split
  · exact .nothing
  split
  · exact .nothing
  split
  · next heq => exact doSectors_performed heq
  · next heq => exact doSectors_performed heq

/-- **The log of a vector is what the drive has done.** -/
theorem doVrdwt_performed (D : Drive δ) (part : ℕ → Part) (mapped : β → Bool) (device : ℕ)
    (iovec : List (IoRequest β)) (io : Io δ β) : Performed D io.drive io.log
      (doVrdwt D part mapped device iovec io).2.drive (doVrdwt D part mapped device iovec io).2.log := by
  induction iovec generalizing io with
  | nil => exact .nothing
  | cons iop iovec ih =>
    have hone := doRdwt_performed D part mapped device iop io
    unfold doVrdwt
    generalize doRdwt D part mapped device iop io = res at hone
    obtain ⟨result, io₁⟩ := res
    dsimp only at hone ⊢
    split
    · exact hone
    split
    · split
      · exact hone
      · exact hone.trans (ih io₁)
    · exact hone.trans (ih io₁)

/-- A drive that works. -/
def Drive.Ready (D : Drive δ) : Prop :=
  ∀ d block, (D.proRead d block).1 ≠ none ∧ ∀ bytes, (D.proWrite d block bytes).1 = true

theorem retryRead_ready (hD : D.Ready) : retryRead D block (n + 1) d ≠ (none, d') := by
  intro h
  unfold retryRead at h
  split at h
  · cases h
  · next heq => exact (hD d block).1 (by rw [heq])

theorem retryWrite_ready (hD : D.Ready) {bytes : List UInt8} :
    retryWrite D block bytes (n + 1) d ≠ (false, d') := by
  intro h
  have hok := (hD d block).2 bytes
  unfold retryWrite at h
  split at h
  · cases h
  · next heq =>
    rw [heq] at hok
    cases hok

theorem doSectors_ready (hD : D.Ready) {left : ℕ} {res : Bool × ℕ}
    (h : doSectors D write block buf left n io = (res, io')) : res = (true, n + left) := by
  induction left generalizing n io with
  | zero =>
    cases h
    rfl
  | succ left ih =>
    unfold doSectors at h
    split at h
    · rw [ih h, Nat.add_assoc, Nat.add_comm 1]
    · next heq =>
      unfold doSector at heq
      dsimp only at heq
      split at heq
      · split at heq
        · cases heq
        · next hfail => exact absurd hfail (retryWrite_ready hD)
      · split at heq
        · cases heq
        · next hfail => exact absurd hfail (retryRead_ready hD)

variable {part : ℕ → Part} {mapped : β → Bool} {device : ℕ} {m : IoRequest β}

/-- A request for a block in the partition, with a buffer that `umap` finds. -/
structure Feasible (p : Part) (mapped : β → Bool) (m : IoRequest β) : Prop where
  nbytes : m.nbytes = requestSize
  mapped : mapped m.buf = true
  position : m.position % sectorSize = 0
  inside : m.position / sectorSize + 2 ≤ p.size

theorem doRdwt_ready (hD : D.Ready) (hdevice : device < nrMinors) (h : Feasible (part device) mapped m) :
    (doRdwt D part mapped device m io).1 = requestSize := by
  have hinside := h.inside
  have hcount : requestSize / sectorSize = 2 := rfl
  have hsize : 0 < (part device).size := lt_of_lt_of_le (Nat.succ_pos _) hinside
  unfold doRdwt
  rw [h.nbytes, if_neg (by omega), if_neg (not_or.mpr ⟨not_not.mpr h.position, by decide⟩)]
  dsimp only
  rw [h.mapped, if_neg (by decide), if_neg (by omega), hcount, if_neg (by omega)]
  split
  · rfl
  · next heq => cases doSectors_ready hD heq

/-- **A drive that works carries out every request of a vector.** -/
theorem doVrdwt_ready (hD : D.Ready) (hdevice : device < nrMinors) {iovec : List (IoRequest β)}
    (hall : ∀ r ∈ iovec, Feasible (part device) mapped r) (io : Io δ β) :
    (doVrdwt D part mapped device iovec io).1 = iovec.map fun r => { r with nbytes := 0 } := by
  induction iovec generalizing io with
  | nil => rfl
  | cons iop iovec ih =>
    have hiop := hall iop List.mem_cons_self
    have hone : (doRdwt D part mapped device iop io).1 = requestSize := doRdwt_ready hD hdevice hiop
    unfold doVrdwt
    generalize doRdwt D part mapped device iop io = res at hone
    obtain ⟨result, io₁⟩ := res
    obtain rfl : result = requestSize := hone
    dsimp only
    rw [if_neg (by decide), if_neg (by decide), List.map_cons, hiop.nbytes]
    rw [ih (fun r hr => hall r (List.mem_cons_of_mem _ hr)) io₁]
    rfl

end Performed

end LisaMinix.Kernel.Profile
