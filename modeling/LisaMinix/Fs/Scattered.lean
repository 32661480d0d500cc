import LisaMinix.Library.ShellSort
import LisaMinix.Kernel.Profile

/-!
# Scattered Input and Output

Model of `rw_scattered` (`src/fs/cache.c`): the buffers are sorted on their block numbers, a
vector of requests goes to the disk task, and the results are harvested by position.  A buffer's
place in the LRU chain is left out.

- `rwScattered` models the function; `gaps` are the steps of its Shell sort.
- `scattered_io`: the sort, what a buffer has got when it is valid afterwards, and that a working
  drive makes every buffer valid.
-/

namespace LisaMinix.Fs

open LisaMinix.Library Function
open LisaMinix.Kernel.Profile

/-! ## §1 The Code -/

def nrBufs : ℕ := 30

/-- `NO_DEV` -/
def noDev : ℕ := 65535

abbrev BufId := Fin nrBufs

/-- The fields of a buffer that matter here; the data are in `Io.mem`. -/
structure Buf where
  blocknr : ℕ
  dev : ℕ
  dirt : Bool
  count : ℕ
deriving DecidableEq, Repr

/-- `do gap = 3 * gap + 1; while (gap <= bufqsize);` -/
def growGap (bufqsize gap : ℕ) : ℕ :=
  if 3 * gap + 1 ≤ bufqsize then growGap bufqsize (3 * gap + 1) else 3 * gap + 1
termination_by bufqsize - gap

/-- The gaps of the passes: `while (gap != 1) { gap /= 3; ... }`; the gap is never 0. -/
def shrinkGap (gap : ℕ) : List ℕ :=
  if gap ≤ 1 then [] else gap / 3 :: shrinkGap (gap / 3)
termination_by gap

def gaps (bufqsize : ℕ) : List ℕ := shrinkGap (growGap bufqsize 1)

/-- What becomes of a buffer with the result of its request. -/
def harvestBuf (dev : ℕ) (write : Bool) (bp : Buf) (iop : IoRequest BufId) : Buf :=
  if write then
    { bp with dev := if iop.nbytes ≠ 0 then noDev else bp.dev, dirt := false }
  else
    { bp with dev := if iop.nbytes = 0 then dev else bp.dev, count := bp.count - 1 }

/-- The result of one request goes to the buffer in the same place of the queue. -/
def harvest (dev : ℕ) (write : Bool) (c : BufId → Buf) (res : BufId × IoRequest BufId) :
    BufId → Buf :=
  update c res.1 (harvestBuf dev write (c res.1) res.2)

variable {δ : Type*}

/-- The i/o vector for the sorted queue. -/
def iovecOf (write : Bool) (c : BufId → Buf) (bufq : List BufId) : List (IoRequest BufId) :=
  bufq.map fun bp =>
    { position := (c bp).blocknr * requestSize
      buf := bp
      nbytes := requestSize
      write := write
      optional := !write }

/-- `rw_scattered`: the queue as it is left, the buffers and the disk; `none` is the panic. -/
def rwScattered (D : Drive δ) (part : ℕ → Part) (mapped : BufId → Bool) (dev : ℕ)
    (bufq : ℕ → BufId) (bufqsize : ℕ) (write : Bool) (c : BufId → Buf) (io : Io δ BufId) :
    Option ((ℕ → BufId) × (BufId → Buf) × Io δ BufId) :=
  if bufqsize = 0 then some (bufq, c, io)
  else if nrBufs < bufqsize then none
  else
    let bufq := shellSort (fun bp => (c bp).blocknr) (gaps bufqsize) bufqsize bufq
    let queue := (List.range bufqsize).map bufq
    let (iovec, io) := doVrdwt D part mapped (dev % 256) (iovecOf write c queue) io
    some (bufq, (queue.zip iovec).foldl (harvest dev write) c, io)

/-! ## §2 The Sort -/

/-- The first gap of the source is one of 4, 13, 40, ... -/
inductive IsGap : ℕ → Prop where
  | one : IsGap 1
  | next {g : ℕ} : IsGap g → IsGap (3 * g + 1)

theorem isGap_growGap {bufqsize gap : ℕ} (h : IsGap gap) :
    ∃ g, IsGap g ∧ growGap bufqsize gap = 3 * g + 1 := by
  induction gap using growGap.induct bufqsize with
  | case1 gap hle ih =>
    rw [growGap, if_pos hle]
    exact ih h.next
  | case2 gap hgt =>
    rw [growGap, if_neg hgt]
    exact ⟨gap, h, rfl⟩

theorem shrinkGap_last {g : ℕ} (h : IsGap g) : ∃ gs, shrinkGap (3 * g + 1) = gs ++ [1] := by
  induction h with
  | one =>
    refine ⟨[], ?_⟩
    rw [shrinkGap, if_neg (by omega), shrinkGap]
    rfl
  | @next g hg ih =>
    obtain ⟨gs, hgs⟩ := ih
    have hdiv : (3 * (3 * g + 1) + 1) / 3 = 3 * g + 1 := by omega
    refine ⟨(3 * g + 1) :: gs, ?_⟩
    rw [shrinkGap, if_neg (by omega), hdiv, hgs]
    rfl

/-- **The last pass of the sort has gap 1.** -/
theorem gaps_last (bufqsize : ℕ) : ∃ gs, gaps bufqsize = gs ++ [1] := by
  obtain ⟨g, hg, heq⟩ := @isGap_growGap bufqsize 1 .one
  obtain ⟨gs, hgs⟩ := shrinkGap_last hg
  exact ⟨gs, by rw [gaps, heq, hgs]⟩

/-! ## §3 The Harvest -/

/-- Each buffer of the queue gets the result of its own request. -/
theorem foldl_harvest (dev : ℕ) (write : Bool) {queue : List BufId} (hnodup : queue.Nodup)
    (req : BufId → IoRequest BufId) (c : BufId → Buf) {b : BufId} (hb : b ∈ queue) :
    ((queue.zip (queue.map req)).foldl (harvest dev write) c) b =
      harvestBuf dev write (c b) (req b) := by
  have hother : ∀ (l : List BufId) (c : BufId → Buf) (x : BufId), x ∉ l →
      ((l.zip (l.map req)).foldl (harvest dev write) c) x = c x := by
    intro l
    induction l with
    | nil => exact fun _ _ _ => rfl
    | cons bp l ih =>
      intro c x hx
      rw [List.mem_cons, not_or] at hx
      rw [List.map_cons, List.zip_cons_cons, List.foldl_cons, ih _ x hx.2]
      exact update_of_ne hx.1 _ _
  induction queue generalizing c with
  | nil => cases hb
  | cons bp queue ih =>
    rw [List.nodup_cons] at hnodup
    rw [List.map_cons, List.zip_cons_cons, List.foldl_cons]
    rcases List.mem_cons.mp hb with rfl | hmem
    · rw [hother _ _ b hnodup.1]
      exact update_self ..
    · have hne : b ≠ bp := fun h => hnodup.1 (h ▸ hmem)
      rw [ih hnodup.2 _ hmem]
      congr 1
      exact update_of_ne hne _ _

theorem harvestBuf_valid {dev : ℕ} {write : Bool} {bp : Buf} (hdev : dev ≠ noDev)
    (hpre : bp.dev = if write then dev else noDev) (iop : IoRequest BufId) :
    (harvestBuf dev write bp iop).dev = dev ↔ iop.nbytes = 0 := by
  unfold harvestBuf
  cases write with
  | true =>
    simp only [if_true] at hpre ⊢
    split
    · next h => exact ⟨fun h' => absurd h'.symm hdev, fun h' => absurd h' h⟩
    · next h => exact ⟨fun _ => not_not.mp h, fun _ => hpre⟩
  | false =>
    simp only [Bool.false_eq_true, if_false] at hpre ⊢
    split
    · next h => exact ⟨fun _ => h, fun _ => rfl⟩
    · next h =>
      rw [hpre]
      exact ⟨fun h' => absurd h'.symm hdev, fun h' => absurd h' h⟩

/-! ## §4 End to End -/

/-- Half `h` of block `blocknr` went over between the data area of `b` and the partition: the
    ProFile block is the block's own, inside the partition, and the bytes are those in memory. -/
structure OwnTransfer (p : Part) (write : Bool) (blocknr : ℕ) (b : BufId) (h : ℕ)
    (mem : BufId → ℕ → UInt8) (t : Transfer BufId) : Prop where
  write : t.write = write
  buf : t.buf = b
  offset : t.offset = h * sectorSize
  block : t.block = p.start + 2 * blocknr + h
  inside : t.block < p.start + p.size
  bytes : t.bytes = span (mem b) (h * sectorSize) sectorSize

theorem sectorTransfer_own {p : Part} {write : Bool} {blocknr : ℕ} {b : BufId}
    {mem : BufId → ℕ → UInt8} {h k : ℕ} (hk : h < k)
    (hin : 0 < k → blocknr * requestSize / sectorSize + k ≤ p.size) :
    OwnTransfer p write blocknr b h mem
      (sectorTransfer write (blocknr * requestSize / sectorSize + p.start) b mem h) := by
  have hdiv : blocknr * requestSize / sectorSize = 2 * blocknr := by
    unfold requestSize sectorSize
    omega
  have hsize := hin (by omega)
  have hdrive := p.onDrive
  rw [hdiv] at hsize ⊢
  have hmod : (2 * blocknr + p.start + h) % 2 ^ 24 = p.start + 2 * blocknr + h := by omega
  have hblock : (sectorTransfer write (2 * blocknr + p.start) b mem h).block =
      p.start + 2 * blocknr + h := by
    unfold sectorTransfer
    exact hmod
  exact ⟨rfl, rfl, rfl, hblock, lt_of_eq_of_lt hblock (by omega), by simp only [sectorTransfer]⟩

/-- What `rw_scattered` does once the queue is sorted. -/
def scattered (D : Drive δ) (part : ℕ → Part) (mapped : BufId → Bool) (dev : ℕ)
    (bufq : ℕ → BufId) (bufqsize : ℕ) (write : Bool) (c : BufId → Buf) (io : Io δ BufId) :
    (ℕ → BufId) × (BufId → Buf) × Io δ BufId :=
  let queue := (List.range bufqsize).map bufq
  let res := doVrdwt D part mapped (dev % 256) (iovecOf write c queue) io
  (bufq, (queue.zip res.1).foldl (harvest dev write) c, res.2)

/-- The transfers for a queue of different buffers, and the buffers after the harvest. -/
theorem scattered_queue (D : Drive δ) (part : ℕ → Part) (mapped : BufId → Bool) {dev : ℕ}
    (hdev : dev ≠ noDev) (write : Bool) (c : BufId → Buf) (io : Io δ BufId) {queue : List BufId}
    (hnodup : queue.Nodup) (hpre : ∀ b ∈ queue, (c b).dev = if write then dev else noDev) :
    let res := doVrdwt D part mapped (dev % 256) (iovecOf write c queue) io
    ∃ new, res.2.log = io.log ++ new ∧
      (∀ b ∈ queue, (((queue.zip res.1).foldl (harvest dev write) c) b).dev = dev ↔
        ∀ h, h < 2 → ∃ t ∈ new,
          OwnTransfer (part (dev % 256)) write (c b).blocknr b h res.2.mem t) ∧
      (∀ t ∈ new, ∃ b ∈ queue, ∃ h, h < 2 ∧
        OwnTransfer (part (dev % 256)) write (c b).blocknr b h res.2.mem t) ∧
      (write = true → res.2.mem = io.mem) ∧
      (∀ b x, (∀ t ∈ new, t.buf = b → x < t.offset ∨ t.offset + sectorSize ≤ x) →
        res.2.mem b x = io.mem b x) ∧
      Performed D io.drive io.log res.2.drive res.2.log ∧
      (D.Ready → dev % 256 < nrMinors → (∀ b ∈ queue, mapped b = true ∧
        2 * (c b).blocknr + 2 ≤ (part (dev % 256)).size) →
        ∀ b ∈ queue, (((queue.zip res.1).foldl (harvest dev write) c) b).dev = dev) := by
  have hbufs : (iovecOf write c queue).map IoRequest.buf = queue := by
    simp [iovecOf, Function.comp_def]
  obtain ⟨ks, left, hv, hvec, hall⟩ := @doVrdwt_answered δ BufId _ D part mapped (dev % 256)
    (iovecOf write c queue) (by rw [hbufs]; exact hnodup) (by simp [iovecOf]) io
  intro res
  -- the requests, by buffer
  have hreq : ∀ b ∈ queue, ks b ≤ 2 ∧ (left b = 0 ↔ ks b = 2) ∧
      (0 < ks b → (c b).blocknr * requestSize / sectorSize + ks b ≤ (part (dev % 256)).size) := by
    intro b hb
    exact hall _ (List.mem_map_of_mem hb)
  have hnew : ∀ t, t ∈ ((iovecOf write c queue).flatMap fun r => (List.range' 0 (ks r.buf)).map
        (sectorTransfer r.write (r.position / sectorSize + (part (dev % 256)).start) r.buf
          res.2.mem)) ↔
      ∃ b ∈ queue, ∃ h, h < ks b ∧ t = sectorTransfer write
        ((c b).blocknr * requestSize / sectorSize + (part (dev % 256)).start) b res.2.mem h := by
    intro t
    rw [List.mem_flatMap]
    constructor
    · rintro ⟨r, hr, ht⟩
      obtain ⟨b, hb, rfl⟩ := List.mem_map.mp hr
      obtain ⟨h, hh, rfl⟩ := List.mem_map.mp ht
      have hlt : h < 0 + ks b := (List.mem_range'_1.mp hh).2
      exact ⟨b, hb, h, by omega, rfl⟩
    · rintro ⟨b, hb, h, hh, rfl⟩
      have hlt : h < 0 + ks b := by omega
      exact ⟨_, List.mem_map_of_mem hb,
        List.mem_map_of_mem (List.mem_range'_1.mpr ⟨Nat.zero_le h, hlt⟩)⟩
  have hvalid : ∀ b ∈ queue, (((queue.zip res.1).foldl (harvest dev write) c) b).dev = dev ↔ left b = 0 := by
    intro b hb
    have hvec' : res.1 = queue.map fun b =>
        { position := (c b).blocknr * requestSize
          buf := b
          nbytes := left b
          write := write
          optional := !write } := by
      rw [show res.1 = _ from hvec, iovecOf, List.map_map]
      rfl
    rw [hvec', foldl_harvest dev write hnodup _ c hb, harvestBuf_valid hdev (hpre b hb)]
  refine ⟨_, hv.log, ?_, ?_, ?_, ?_, doVrdwt_performed _ _ _ _ _ _, ?_⟩
  · intro b hb
    rw [hvalid b hb, (hreq b hb).2.1]
    constructor
    · intro hk h hh
      exact ⟨_, (hnew _).mpr ⟨b, hb, h, by omega, rfl⟩,
        sectorTransfer_own (show h < ks b by omega) (hreq b hb).2.2⟩
    · intro hboth
      -- the second half went over, so both did
      obtain ⟨t, ht, hown⟩ := hboth 1 (by omega)
      obtain ⟨b', hb', h, hh, rfl⟩ := (hnew t).mp ht
      have hbuf : b' = b := hown.buf
      subst hbuf
      have hoff : h * sectorSize = 1 * sectorSize := hown.offset
      have hone : h = 1 := Nat.eq_of_mul_eq_mul_right (by decide) hoff
      have := (hreq b' hb).1
      omega
  · intro t ht
    obtain ⟨b, hb, h, hh, rfl⟩ := (hnew t).mp ht
    have := (hreq b hb).1
    exact ⟨b, hb, h, by omega, sectorTransfer_own hh (hreq b hb).2.2⟩
  · intro hw
    funext b
    by_cases hb : b ∈ queue
    · exact hv.unread _ (List.mem_map_of_mem hb) hw
    · exact hv.other b (by rw [hbufs]; exact hb)
  · intro b x hx
    by_cases hb : b ∈ queue
    · apply hv.outside _ (List.mem_map_of_mem hb)
      by_contra hlt
      -- the byte would be in one of the sectors that went over
      have hlt : x < ks b * sectorSize := not_le.mp hlt
      have hsec : x / sectorSize < ks b := Nat.div_lt_of_lt_mul (by rwa [Nat.mul_comm] at hlt)
      have hin := hx _ ((hnew _).mpr ⟨b, hb, x / sectorSize, hsec, rfl⟩) rfl
      have hdiv := Nat.div_add_mod x sectorSize
      have hmod := Nat.mod_lt x (show 0 < sectorSize by decide)
      have hoff : (sectorTransfer write ((c b).blocknr * requestSize / sectorSize +
          (part (dev % 256)).start) b res.2.mem (x / sectorSize)).offset =
          sectorSize * (x / sectorSize) := Nat.mul_comm _ _
      rw [hoff] at hin
      omega
    · rw [show res.2.mem b = io.mem b from hv.other b (by rw [hbufs]; exact hb)]
  · intro hD hdevice hin b hb
    have hfeasible : ∀ r ∈ iovecOf write c queue, Feasible (part (dev % 256)) mapped r := by
      intro r hr
      obtain ⟨b, hb, rfl⟩ := List.mem_map.mp hr
      obtain ⟨hmapped, hinside⟩ := hin b hb
      refine ⟨rfl, hmapped, ?_, ?_⟩ <;> dsimp only <;> unfold requestSize sectorSize <;> omega
    have hready := hvec.symm.trans (doVrdwt_ready hD hdevice hfeasible io)
    rw [hvalid b hb]
    exact congrArg IoRequest.nbytes (List.map_inj_left.mp hready _ (List.mem_map_of_mem hb))

/-- **Scattered input and output, end to end.**  Buffers with different blocks of one device are
    sorted in ascending order; afterwards a buffer is valid exactly when both halves of its own
    block went over between its own data area and the partition, and nothing else went over.  The log
    is what the drive has done, and all the buffers are valid when it works. -/
theorem scattered_io (D : Drive δ) (part : ℕ → Part) (mapped : BufId → Bool) {dev : ℕ}
    (hdev : dev ≠ noDev) (bufq : ℕ → BufId) {bufqsize : ℕ} (hsize : bufqsize ≤ nrBufs)
    (write : Bool) (c : BufId → Buf) (io : Io δ BufId)
    (hdistinct : ∀ i j, i < bufqsize → j < bufqsize →
      (c (bufq i)).blocknr = (c (bufq j)).blocknr → i = j)
    (hpre : ∀ i, i < bufqsize → (c (bufq i)).dev = if write then dev else noDev) :
    ∃ bufq' c' io' new, rwScattered D part mapped dev bufq bufqsize write c io =
        some (bufq', c', io') ∧
      Rearranges bufqsize bufq bufq' ∧
      (∀ i j, i < j → j < bufqsize → (c (bufq' i)).blocknr < (c (bufq' j)).blocknr) ∧
      io'.log = io.log ++ new ∧
      (∀ i, i < bufqsize → ((c' (bufq i)).dev = dev ↔ ∀ h, h < 2 → ∃ t ∈ new,
        OwnTransfer (part (dev % 256)) write (c (bufq i)).blocknr (bufq i) h io'.mem t)) ∧
      (∀ t ∈ new, ∃ i h, i < bufqsize ∧ h < 2 ∧
        OwnTransfer (part (dev % 256)) write (c (bufq i)).blocknr (bufq i) h io'.mem t) ∧
      (write = true → io'.mem = io.mem) ∧
      (∀ b x, (∀ t ∈ new, t.buf = b → x < t.offset ∨ t.offset + sectorSize ≤ x) →
        io'.mem b x = io.mem b x) ∧
      Performed D io.drive io.log io'.drive io'.log ∧
      (D.Ready → dev % 256 < nrMinors → (∀ i, i < bufqsize → mapped (bufq i) = true ∧
        2 * (c (bufq i)).blocknr + 2 ≤ (part (dev % 256)).size) →
        ∀ i, i < bufqsize → (c' (bufq i)).dev = dev) := by
  rcases Nat.eq_zero_or_pos bufqsize with rfl | hpos
  · exact ⟨bufq, c, io, [], rfl, .refl _ _, by omega, (List.append_nil _).symm, by omega, by simp,
      fun _ => rfl, fun _ _ _ => rfl, .nothing, by omega⟩
  -- the sort
  obtain ⟨gs, hgs⟩ := gaps_last bufqsize
  have hperm := shellSort_perm (fun bp => (c bp).blocknr) (gaps bufqsize) bufqsize bufq
  have hasc : Ascending (fun bp => (c bp).blocknr) bufqsize
      (shellSort (fun bp => (c bp).blocknr) (gaps bufqsize) bufqsize bufq) := by
    rw [hgs]
    exact shellSort_sorted _ gs bufqsize bufq
  have hrun : rwScattered D part mapped dev bufq bufqsize write c io =
      some (scattered D part mapped dev
        (shellSort (fun bp => (c bp).blocknr) (gaps bufqsize) bufqsize bufq) bufqsize write c io) := by
    unfold rwScattered
    rw [if_neg hpos.ne', if_neg (by omega)]
    rfl
  generalize shellSort (fun bp => (c bp).blocknr) (gaps bufqsize) bufqsize bufq = bufq'
    at hperm hasc hrun
  have hinj := hperm.injective (fun bp => (c bp).blocknr) hdistinct
  have hmem : ∀ b, b ∈ (List.range bufqsize).map bufq' ↔ ∃ i, i < bufqsize ∧ bufq i = b := by
    intro b
    rw [← hperm.exists_iff b]
    simp
  have hnodup : ((List.range bufqsize).map bufq').Nodup := by
    apply List.Nodup.map_on _ List.nodup_range
    intro i hi j hj heq
    exact hinj i j (List.mem_range.mp hi) (List.mem_range.mp hj) (by rw [heq])
  obtain ⟨new, hlog, hvalid, hown, hwrite, hout, hdone, hready⟩ := scattered_queue D part mapped hdev write c io
    hnodup (fun b hb => by obtain ⟨i, hi, rfl⟩ := (hmem b).mp hb; exact hpre i hi)
  refine ⟨bufq', _, _, new, hrun, hperm, ?_, hlog, ?_, ?_, hwrite, hout, hdone, ?_⟩
  · intro i j hij hj
    apply lt_of_le_of_ne (hasc i j hij hj)
    intro heq
    exact absurd (hinj i j (by omega) hj heq) (by omega)
  · intro i hi
    exact hvalid (bufq i) ((hmem _).mpr ⟨i, hi, rfl⟩)
  · intro t ht
    obtain ⟨b, hb, h, hh, hot⟩ := hown t ht
    obtain ⟨i, hi, rfl⟩ := (hmem b).mp hb
    exact ⟨i, h, hi, hh, hot⟩
  · intro hD hdevice hin i hi
    refine hready hD hdevice (fun b hb => ?_) _ ((hmem _).mpr ⟨i, hi, rfl⟩)
    obtain ⟨i, hi, rfl⟩ := (hmem b).mp hb
    exact hin i hi

/-- A drive that never fails. -/
def readyDrive : Drive Unit where
  proRead d _ := (some (List.replicate sectorSize 0), d)
  proWrite d _ _ := (true, d)
  length_proRead := by
    intro d b l d' h
    cases h
    exact List.length_replicate

def firstBuf : BufId := ⟨0, by decide⟩
def secondBuf : BufId := ⟨1, by decide⟩

/-- Two buffers for reading, with blocks 5 and 3. -/
def twoBufs (b : BufId) : Buf := ⟨if b = firstBuf then 5 else 3, noDev, false, 1⟩

/-- The theorem at these two buffers and a partition of 20 blocks: both are read. -/
theorem scattered_io_two :
    ∃ bufq' c' io', rwScattered readyDrive (fun _ => ⟨100, 20, by decide⟩) (fun _ => true) 0x300
        (fun i => if i = 0 then firstBuf else secondBuf) 2 false twoBufs ⟨(), fun _ _ => 0xff, []⟩ =
          some (bufq', c', io') ∧ (twoBufs (bufq' 0)).blocknr < (twoBufs (bufq' 1)).blocknr ∧
      (c' firstBuf).dev = 0x300 ∧ (c' secondBuf).dev = 0x300 ∧
      ∃ t ∈ io'.log, OwnTransfer ⟨100, 20, by decide⟩ false 5 firstBuf 1 io'.mem t := by
  obtain ⟨bufq', c', io', new, hrun, -, hasc, hlog, hvalid, -, -, -, -, hready⟩ := scattered_io readyDrive
    (fun _ => ⟨100, 20, by decide⟩) (fun _ => true) (show 0x300 ≠ noDev by decide)
    (fun i => if i = 0 then firstBuf else secondBuf) (show 2 ≤ nrBufs by decide) false twoBufs
    ⟨(), fun _ _ => 0xff, []⟩
    (by
      intro i j hi hj
      interval_cases i <;> interval_cases j <;> decide)
    (fun i _ => rfl)
  have hdev := hready (fun _ _ => ⟨by simp [readyDrive], fun _ => rfl⟩) (by decide)
    (by
      intro i hi
      interval_cases i <;> decide)
  obtain ⟨t, ht, hown⟩ := (hvalid 0 (by decide)).mp (hdev 0 (by decide)) 1 (by decide)
  exact ⟨bufq', c', io', hrun, hasc 0 1 (by decide) (by decide), hdev 0 (by decide), hdev 1 (by decide),
    t, by rw [hlog]; exact List.mem_append_right _ ht, hown⟩

end LisaMinix.Fs
