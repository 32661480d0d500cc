import LisaMinix.Mm.OwnedRuns
import LisaMinix.Tools.BootImage

/-!
# The Start of the System from Its Boot Image

`build.py` writes the sizes of the programs into two tables of the image; three parties read them
when the system starts.  The kernel's `main` builds the memory maps of tasks, MM, FS and INIT, the
`load_ram` of FS tells MM where INIT is and how much memory the RAM disk takes, and the `do_brk2`
of MM takes both out of the hole list and says where the RAM disk is.

- `mapTask`, `mapUsers`, `doBrk2` and `loadRam` model the three parties.
- `Placed`: the image and the system that has started from it agree.
- `placed_of_lt`: they do, unless the image has 65536 clicks or more; clicks are 16-bit numbers.
- `mainLisa_placed`: so every image that is in memory as a whole is placed as it was built.
-/

namespace LisaMinix.Mm

open LisaMinix.Library
open LisaMinix.Tools

/-! ## §1 The Three Parties -/

/-- What stops the system while it starts. -/
inductive StartFault where
  | fault (f : Fault)
  | ramDiskTooBig (count : ℤ)
  | inconsistentBase (base : ℕ)
  | noMemoryForRamDisk
  | notEnoughMemory
  deriving DecidableEq

/-- The maps of a task, from the table `sizes` of the kernel. -/
def mapTask (sizes : ℕ → ℕ) : MemMaps where
  text := ⟨0, 0, sizes 0⟩
  data := ⟨sizes 0, sizes 0, sizes 1⟩
  stack := ⟨toClicks (sizes 0 + sizes 1), toClicks (sizes 0 + sizes 1), 0⟩

/-- The loop of `main` over MM, FS and INIT, from process `t` and click `base` on. -/
def mapUsers (sizes : ℕ → ℕ) : List ℕ → ℕ → List MemMaps
  | [], _ => []
  | t :: ts, base =>
    let data := toClicks (base + sizes (2 * t + 2))
    let stack := toClicks (data + sizes (2 * t + 3))
    ⟨⟨base, base, sizes (2 * t + 2)⟩, ⟨data, data, sizes (2 * t + 3)⟩, ⟨stack, stack, 0⟩⟩ ::
      mapUsers sizes ts stack

/-- `LOW_USER`: the process number of INIT. -/
def lowUser : ℕ := 2

/-- The part of `main` that builds the maps of the processes. -/
def mainMaps (sizes : ℕ → ℕ) : List MemMaps :=
  mapUsers sizes (List.range (lowUser + 1)) (toClicks (sizes 0 + sizes 1))

/-- The loop of `mem_left`. -/
def memLeftLoop (t : HoleTable) : ℕ → ℕ → Option Slot → Except Fault ℕ
  | _, tot, none => .ok tot
  | 0, _, some _ => .error .endless
  | fuel + 1, tot, some hp => memLeftLoop t fuel (toClicks (tot + (t.hole hp).hLen)) (t.next hp)

/-- `mem_left()`. -/
def memLeft (t : HoleTable) : Except Fault ℕ := memLeftLoop t nrHoles 0 t.holeHead

/-- `click_to_round_k(n)`. -/
def clickToRoundK (n : ℕ) : ℕ := toClicks ((n * 256 + 512) / 1024)

/-- The memory that `do_brk2` reports as available, in K; `left` is what `mem_left` returns. -/
def available (minixClicks ramClicks left : ℕ) : ℤ :=
  clickToRoundK (toClicks (toClicks (minixClicks + ramClicks) + left)) -
    clickToRoundK minixClicks - clickToRoundK ramClicks

def liftFault {α : Type} : Except Fault α → Except StartFault α
  | .error f => .error (.fault f)
  | .ok a => .ok a

/-- `mm_init()` and `do_brk2()` on a machine with `size` clicks of memory: the `POSITION` of the
    reply and the state of MM. -/
def doBrk2 (size org text data tot : ℕ) : Except StartFault (ℕ × MmState) := do
  let minixClicks := toClicks (org + toClicks (text + data))
  let holes ← liftFault (memInit size)
  let (holes, base) ← liftFault (allocMem holes minixClicks)
  if base ≠ 0 then throw (.inconsistentBase base)
  let ramClicks := subClicks tot minixClicks
  let (holes, base) ← liftFault (allocMem holes ramClicks)
  if base = noMem then throw .noMemoryForRamDisk
  let left ← liftFault (memLeft holes)
  if available minixClicks ramClicks left < 32 then throw .notEnoughMemory
  return (base * clickSize, bootState org text data holes)

/-- A 16-bit word read as an `int`. -/
def toInt16 (w : ℕ) : ℤ := if w < 32768 then w else w - 65536

def maxRam : ℤ := 16384

inductive RootDev where
  | ram
  | hd0
  deriving DecidableEq

/-- The system when `load_ram` is done: the state of MM, the device with the root file system, and
    the limits of the RAM disk that the driver has been told. -/
structure StartUp where
  mm : MmState
  rootDev : RootDev
  ramOrigin : ℤ
  ramLimit : ℤ

/-- `load_ram()`, with the words of `data_org` that `build.py` has written. -/
def loadRam (size initOrg initText initData blocks : ℕ) : Except StartFault StartUp := do
  let count := toInt16 blocks
  if maxRam < count then throw (.ramDiskTooBig count)
  let ramClicks := (count * 4 % 65536).toNat
  let (position, mm) ← doBrk2 size initOrg initText initData
    (toClicks (initOrg + initText + initData + ramClicks))
  return ⟨mm, if count ≠ 0 then .ram else .hd0, position, position + count * 1024⟩

/-- The start of FS from an image in memory, with `data_org` at `dataOrg`. -/
def startUp (size : ℕ) (image : List UInt8) (dataOrg : ℕ) : Except StartFault StartUp :=
  loadRam size (word image (dataOrg + 4)) (word image (dataOrg + 6)) (word image (dataOrg + 8))
    (word image (dataOrg + 10))

/-! ## §2 What Agreement Is -/

/-- The maps of a program whose text and data are one segment, in whole numbers. -/
def straight (org clicks : ℕ) : MemMaps :=
  ⟨⟨org, org, 0⟩, ⟨org, org, clicks⟩, ⟨org + clicks, org + clicks, 0⟩⟩

/-- The holes of a table, in the order of the list. -/
def HoleAreas (t : HoleTable) (areas : List Area) : Prop :=
  ∃ holes free, Rep t holes free ∧ holes.map t.area = areas

/-- **The image and the system that has started from it agree.** -/
structure Placed (z : Sizes) (rootfs image : List UInt8) (r : StartUp) : Prop where
  /-- the programs are in order, each where the one before it ends -/
  order : z.kern.start = 0 ∧ z.mm.start = clickSize * z.kern.clicks ∧
    z.fs.start = z.mm.start + clickSize * z.mm.clicks ∧
    z.init.start = z.fs.start + clickSize * z.fs.clicks
  /-- the maps of the kernel are these places -/
  tasks : mapTask (fun i => word image (z.kern.text + 2 * i)) = straight 0 z.kern.clicks
  users : mainMaps (fun i => word image (z.kern.text + 2 * i)) =
    [straight (z.mm.start / clickSize) z.mm.clicks, straight (z.fs.start / clickSize) z.fs.clicks,
      straight (z.init.start / clickSize) z.init.clicks]
  /-- and so is the map of INIT in MM -/
  init : (r.mm.mproc initProcNr).seg = straight (z.init.start / clickSize) z.init.clicks
  /-- the RAM disk begins where INIT ends, and is the root file system of the image -/
  origin : r.ramOrigin = z.init.start + clickSize * z.init.clicks
  limit : r.ramLimit = image.length
  contents : image.drop (z.init.start + clickSize * z.init.clicks) =
    rootfs ++ List.replicate (ramBlocks rootfs * 1024 - rootfs.length) 0
  device : r.rootDev = if rootfs = [] then .hd0 else .ram
  /-- the memory that MM hands out begins behind the RAM disk -/
  apart : ∃ areas, HoleAreas r.mm.holes areas ∧ ∀ a ∈ areas, r.ramLimit ≤ clickSize * a.base

/-! ## §3 The Hole List at the Start -/

theorem memLeftLoop_spec {t : HoleTable} {p : Option Slot} {l : List Slot} {fuel tot : ℕ}
    (h : Chain t.next p l) (hfuel : l.length ≤ fuel) (htot : tot < 65536) :
    memLeftLoop t fuel tot p = .ok (toClicks (tot + total (l.map t.area))) := by
  induction l generalizing p fuel tot with
  | nil =>
    rw [show p = none from h]
    have hsum : toClicks (tot + total (List.map t.area [])) = tot := Nat.mod_eq_of_lt htot
    rw [hsum]
    cases fuel <;> rfl
  | cons hp l ih =>
    cases fuel with
    | zero => exact absurd hfuel (by simp)
    | succ fuel =>
      have hstep : memLeftLoop t (fuel + 1) tot p =
          memLeftLoop t fuel (toClicks (tot + (t.area hp).len)) (t.next hp) := by
        rw [h.1]
        rfl
      have hlt : toClicks (tot + (t.area hp).len) < 65536 := Nat.mod_lt _ (by decide)
      rw [hstep, ih h.2 (by simpa using hfuel) hlt, List.map_cons, total_cons]
      simp only [toClicks]
      congr 1
      omega

theorem HoleAreas.memLeft {t : HoleTable} {areas : List Area} (h : HoleAreas t areas) :
    memLeft t = .ok (toClicks (total areas)) := by
  obtain ⟨holes, free, hrep, rfl⟩ := h
  have hsum := @memLeftLoop_spec t t.holeHead holes nrHoles 0 hrep.holesChain hrep.length_le
    (by decide)
  rwa [Nat.zero_add] at hsum

/-- An allocation while there is one hole: from its front, if it is long enough. -/
theorem HoleAreas.allocOne {t : HoleTable} {base len : ℕ} (h : HoleAreas t [⟨base, len⟩])
    (hbase : base % 2 = 0) (hfits : base + len < 65536) {c : ℕ} (hc : evenClicks c = c) :
    if c ≤ len then ∃ t', allocMem t c = .ok (t', base) ∧
      HoleAreas t' (if len - c ≠ 0 then [⟨base + c, len - c⟩] else [])
    else allocMem t c = .ok (t, noMem) := by
  obtain ⟨holes, free, hrep, hmap⟩ := h
  have hspec := allocMem_spec hrep (by simpa [hmap] using hbase)
    (by simpa [hmap, Fits, Area.stop] using hfits) c
  rw [hc, hmap] at hspec
  unfold takeFirst at hspec
  split
  · next hle =>
    simp only [if_pos hle] at hspec
    obtain ⟨t', holes', free', hrun, hrep', hmap'⟩ := hspec
    exact ⟨t', hrun, holes', free', hrep', hmap'⟩
  · next hgt =>
    simp only [if_neg hgt, takeFirst, Option.map_none] at hspec
    exact hspec

theorem HoleAreas.allocNone {t : HoleTable} (h : HoleAreas t []) (c : ℕ) :
    allocMem t c = .ok (t, noMem) := by
  obtain ⟨holes, free, hrep, hmap⟩ := h
  have hspec := allocMem_spec hrep (by simp [hmap]) (by simp [hmap, Fits]) c
  rw [hmap] at hspec
  exact hspec

theorem evenClicks_of_even {c : ℕ} (hc : c < 65536) (heven : c % 2 = 0) : evenClicks c = c := by
  rw [evenClicks_of_lt (by omega)]
  omega

theorem memInit_areas {size : ℕ} (hpos : 0 < size) (heven : size % 2 = 0) (hsize : size < 65536) :
    ∃ t, memInit size = .ok t ∧ HoleAreas t [⟨0, size⟩] := by
  obtain ⟨t, hrun, htiled⟩ := memInit_tiled hpos heven hsize
  exact ⟨t, hrun, htiled.rep⟩

/-- What is left of the memory when MINIX and the RAM disk have been taken out. -/
def leftOver (size used : ℕ) : List Area :=
  if size - used ≠ 0 then [⟨used, size - used⟩] else []

theorem total_leftOver (size used : ℕ) : total (leftOver size used) = size - used := by
  unfold leftOver
  split
  · simp
  · next h => simp [not_not.mp h]

/-- **What `do_brk2` does**, for sizes in whole pages: with room for both it takes MINIX and the
    RAM disk from the bottom of the memory, else it does not return. -/
theorem doBrk2_spec {size org text data tot minix ram : ℕ} (hpos : 0 < size)
    (heven : size % 2 = 0) (hsize : size < 65536)
    (hminix : toClicks (org + toClicks (text + data)) = minix) (hminixPos : 0 < minix)
    (hminixEven : minix % 2 = 0) (hram : subClicks tot minix = ram) (hramEven : ram % 2 = 0) :
    if minix < size ∧ minix + ram ≤ size then
      ∃ t, HoleAreas t (leftOver size (minix + ram)) ∧
        doBrk2 size org text data tot =
          if available minix ram (size - (minix + ram)) < 32 then .error .notEnoughMemory
          else .ok (minix * clickSize, bootState org text data t)
    else doBrk2 size org text data tot = .error .noMemoryForRamDisk := by
  have hminixLt : minix < 65536 := hminix ▸ Nat.mod_lt _ (by decide)
  have hramLt : ram < 65536 := hram ▸ Nat.mod_lt _ (by decide)
  have hcm := evenClicks_of_even hminixLt hminixEven
  have hcr := evenClicks_of_even hramLt hramEven
  obtain ⟨t₀, hinit, hone⟩ := memInit_areas hpos heven hsize
  have hfirst := hone.allocOne rfl (by omega) hcm
  unfold doBrk2
  simp only [hminix, hram, hinit, liftFault, ok_bind]
  by_cases hle : minix ≤ size
  · simp only [if_pos hle] at hfirst
    obtain ⟨t₁, hrun1, hrest⟩ := hfirst
    simp only [hrun1, ok_bind]
    by_cases hfull : size - minix = 0
    · -- nothing is left for the RAM disk, and not even an empty one can be placed
      rw [if_neg (not_not.mpr hfull)] at hrest
      rw [if_neg (by omega), hrest.allocNone ram]
      rfl
    · rw [if_pos hfull, Nat.zero_add] at hrest
      have hsecond := hrest.allocOne hminixEven (by omega) hcr
      by_cases hroom : ram ≤ size - minix
      · rw [if_pos (by omega)]
        simp only [if_pos hroom] at hsecond
        obtain ⟨t₂, hrun2, hareas⟩ := hsecond
        have hleft : HoleAreas t₂ (leftOver size (minix + ram)) := by
          rwa [leftOver, ← Nat.sub_sub]
        have hne : ¬minix = noMem := by simp only [noMem]; omega
        have hsum : toClicks (total (leftOver size (minix + ram))) = size - (minix + ram) := by
          rw [total_leftOver]
          exact Nat.mod_eq_of_lt (by omega)
        refine ⟨t₂, hleft, ?_⟩
        simp only [hrun2, hleft.memLeft, ok_bind, hsum, hne, if_false]
        rfl
      · rw [if_neg (by omega)]
        simp only [if_neg hroom] at hsecond
        rw [hsecond]
        rfl
  · -- MINIX itself does not fit: the answer 0 looks like its base, and is then the disk's
    simp only [if_neg hle] at hfirst
    rw [if_neg (by omega)]
    simp only [hfirst, ok_bind]
    have hsecond := hone.allocOne rfl (by omega) hcr
    split at hsecond
    · obtain ⟨t₂, hrun2, -⟩ := hsecond
      simp only [hrun2]
      rfl
    · simp only [hsecond]
      rfl

theorem liftFault_ok {α : Type} {x : Except Fault α} {a : α} (h : liftFault x = .ok a) :
    x = .ok a := by
  cases x with
  | error f => cases h
  | ok b => exact congrArg Except.ok (Except.ok.inj h)

/-- What has started is a start of MM as the runs of its requests take it. -/
theorem mmBoot_of_doBrk2 {size org text data tot position : ℕ} {s : MmState}
    (h : doBrk2 size org text data tot = .ok (position, s)) :
    mmBoot size org text data tot = .ok s := by
  obtain ⟨t₀, h0, h⟩ := bind_eq_ok h
  obtain ⟨⟨t₁, base₁⟩, h1, h⟩ := bind_eq_ok h
  dsimp only at h h1
  unfold mmBoot
  simp only [liftFault_ok h0, ok_bind, liftFault_ok h1]
  by_cases hbase : base₁ = 0
  · rw [if_neg (not_not.mpr hbase)]
    simp only [hbase, ne_eq, not_true_eq_false, if_false] at h
    obtain ⟨⟨t₂, base₂⟩, h2, h⟩ := bind_eq_ok h
    rw [liftFault_ok h2, ok_bind]
    dsimp only at h ⊢
    by_cases hno : base₂ = noMem
    · rw [if_pos hno] at h
      cases h
    · rw [if_neg hno] at h ⊢
      obtain ⟨left, -, h⟩ := bind_eq_ok h
      split at h
      · cases h
      · cases h
        rfl
  · rw [if_pos hbase] at h
    cases h

/-- The state of MM after `load_ram` is one that the runs of its requests start from. -/
theorem reached_of_loadRam {size org text data blocks : ℕ} {r : StartUp}
    (h : loadRam size org text data blocks = .ok r)
    (safe : MmState → ProcNr → Request → Prop) :
    ∃ tot, Reached size org text data tot safe r.mm := by
  unfold loadRam at h
  by_cases hbig : maxRam < toInt16 blocks
  · simp only [if_pos hbig] at h
    cases h
  · simp only [if_neg hbig] at h
    obtain ⟨⟨position, mm⟩, hbrk, h⟩ := bind_eq_ok h
    cases h
    exact ⟨_, .boot (mmBoot_of_doBrk2 hbrk)⟩

/-! ## §4 The Start from an Image -/

/-- **What `load_ram` does** for an image of fewer than 65536 clicks without its RAM disk. -/
theorem loadRam_spec {size org data blocks : ℕ} (hpos : 0 < size) (heven : size % 2 = 0)
    (hsize : size < 65536) (hminix : org + data < 65536) (hminixPos : 0 < org + data)
    (hminixEven : (org + data) % 2 = 0) (hcount : toInt16 blocks ≤ maxRam) :
    if org + data < size ∧ org + data + 4 * blocks % 65536 ≤ size then
      ∃ t, HoleAreas t (leftOver size (org + data + 4 * blocks % 65536)) ∧
        loadRam size org 0 data blocks =
          if available (org + data) (4 * blocks % 65536)
              (size - (org + data + 4 * blocks % 65536)) < 32 then .error .notEnoughMemory
          else .ok ⟨bootState org 0 data t, if toInt16 blocks ≠ 0 then .ram else .hd0,
            ((org + data) * clickSize : ℕ), ((org + data) * clickSize : ℕ) + toInt16 blocks * 1024⟩
    else loadRam size org 0 data blocks = .error .noMemoryForRamDisk := by
  have hclicks : (toInt16 blocks * 4 % 65536).toNat = 4 * blocks % 65536 := by
    unfold toInt16
    split <;> omega
  have hsum : toClicks (org + toClicks (0 + data)) = org + data := by
    simp only [toClicks]
    omega
  have hram : subClicks (toClicks (org + 0 + data + 4 * blocks % 65536)) (org + data) =
      4 * blocks % 65536 := by
    simp only [subClicks, toClicks]
    omega
  have hspec := doBrk2_spec hpos heven hsize hsum hminixPos hminixEven hram (by omega)
  unfold loadRam
  simp only [if_neg (not_lt.mpr hcount), hclicks]
  split
  · next hfits =>
    rw [if_pos hfits] at hspec
    obtain ⟨t, hareas, hrun⟩ := hspec
    refine ⟨t, hareas, ?_⟩
    rw [hrun]
    split <;> rfl
  · next hfits =>
    rw [if_neg hfits] at hspec
    rw [hspec]
    rfl

section Image

variable {z : Sizes} {rootfs image : List UInt8} {size : ℕ} {r : StartUp}

theorem startUp_eq (hb : Built z rootfs image) (size : ℕ) :
    startUp size image z.fsData =
      loadRam size z.initOrg 0 z.init.clicks (ramBlocks rootfs) := by
  have horg := hb.dataOrg 0 (by decide)
  have htext := hb.dataOrg 1 (by decide)
  have hdata := hb.dataOrg 2 (by decide)
  have hblocks := hb.dataOrg 3 (by decide)
  unfold startUp
  rw [show z.fsData + 6 = z.fsData + 4 + 2 * 1 by omega,
    show z.fsData + 8 = z.fsData + 4 + 2 * 2 by omega,
    show z.fsData + 10 = z.fsData + 4 + 2 * 3 by omega, htext, hdata, hblocks]
  congr 1

theorem mapTask_eq (hb : Built z rootfs image) :
    mapTask (fun i => word image (z.kern.text + 2 * i)) = straight 0 z.kern.clicks := by
  have hlt : z.kern.clicks < 65536 := by
    have := hb.bound.1
    unfold Sizes.initOrg at this
    omega
  have hsum : toClicks (0 + z.kern.clicks) = 0 + z.kern.clicks :=
    Nat.mod_eq_of_lt (by omega)
  have h0 := hb.sizes 0 (by decide)
  have h1 := hb.sizes 1 (by decide)
  simp only [List.getElem_cons_zero, List.getElem_cons_succ] at h0 h1
  simp only [mapTask, straight, h0, h1, hsum]

/-- One round of the loop of `main`, for a program that has no text of its own. -/
theorem mapUsers_cons {sizes : ℕ → ℕ} {t base clicks : ℕ} (htext : sizes (2 * t + 2) = 0)
    (hdata : sizes (2 * t + 3) = clicks) (hbase : base < 65536) (ts : List ℕ) :
    mapUsers sizes (t :: ts) base =
      ⟨⟨base, base, 0⟩, ⟨base, base, clicks⟩, ⟨toClicks (base + clicks), toClicks (base + clicks), 0⟩⟩
        :: mapUsers sizes ts (toClicks (base + clicks)) := by
  have hstart : toClicks (base + 0) = base := Nat.mod_eq_of_lt hbase
  simp only [mapUsers, htext, hdata, hstart]

/-- The maps that `main` builds; only the end of INIT can be more than a click number holds. -/
theorem mainMaps_eq (hb : Built z rootfs image) :
    mainMaps (fun i => word image (z.kern.text + 2 * i)) =
      [straight z.kern.clicks z.mm.clicks, straight (z.kern.clicks + z.mm.clicks) z.fs.clicks,
        ⟨⟨z.initOrg, z.initOrg, 0⟩, ⟨z.initOrg, z.initOrg, z.init.clicks⟩,
          ⟨toClicks z.clicks, toClicks z.clicks, 0⟩⟩] := by
  have hlt := hb.bound.1
  unfold Sizes.initOrg at hlt
  have hstart : toClicks (word image (z.kern.text + 2 * 0) + word image (z.kern.text + 2 * 1)) =
      z.kern.clicks := by
    rw [hb.sizes 0 (by decide), hb.sizes 1 (by decide)]
    show toClicks (0 + z.kern.clicks) = _
    rw [Nat.zero_add]
    exact Nat.mod_eq_of_lt (by omega)
  have hm : toClicks (z.kern.clicks + z.mm.clicks) = z.kern.clicks + z.mm.clicks :=
    Nat.mod_eq_of_lt (by omega)
  have hf : toClicks (z.kern.clicks + z.mm.clicks + z.fs.clicks) =
      z.kern.clicks + z.mm.clicks + z.fs.clicks := Nat.mod_eq_of_lt (by omega)
  unfold mainMaps
  rw [hstart]
  show mapUsers _ [0, 1, 2] _ = _
  rw [mapUsers_cons (hb.sizes 2 (by decide)) (hb.sizes 3 (by decide)) (by omega),
    mapUsers_cons (hb.sizes 4 (by decide)) (hb.sizes 5 (by decide))
      (show toClicks _ < 65536 from Nat.mod_lt _ (by decide)),
    mapUsers_cons (hb.sizes 6 (by decide)) (hb.sizes 7 (by decide))
      (show toClicks _ < 65536 from Nat.mod_lt _ (by decide))]
  show [_, _, _] = _
  simp only [List.getElem_cons_zero, List.getElem_cons_succ, hm, hf]
  rfl

/-- **The start-up goes through** when the memory holds the image and 33 K more. -/
theorem startUp_ok (hb : Built z rootfs image) (heven : size % 2 = 0) (hsize : size < 65536)
    (hroom : z.clicks + 4 * ramBlocks rootfs + 132 ≤ size) :
    ∃ r, startUp size image z.fsData = .ok r := by
  have hsum : z.initOrg + z.init.clicks = z.clicks := rfl
  have hpos := hb.kern_pos
  obtain ⟨hk, hm, hf, hi⟩ := hb.even
  have hclicks : 0 < z.clicks ∧ z.clicks % 2 = 0 := by
    unfold Sizes.clicks
    omega
  have hcount : toInt16 (ramBlocks rootfs) = ramBlocks rootfs := by
    rw [toInt16, if_pos (by omega)]
  have hmod : 4 * ramBlocks rootfs % 65536 = 4 * ramBlocks rootfs := Nat.mod_eq_of_lt (by omega)
  have hspec := @loadRam_spec size z.initOrg z.init.clicks (ramBlocks rootfs) (by omega) heven
    hsize (by omega) (by omega) (by omega) (by rw [hcount, maxRam]; omega)
  rw [hsum, hmod, if_pos (by omega)] at hspec
  obtain ⟨t, -, hrun⟩ := hspec
  have havail : ¬available z.clicks (4 * ramBlocks rootfs)
      (size - (z.clicks + 4 * ramBlocks rootfs)) < 32 := by
    simp only [available, clickToRoundK, toClicks]
    omega
  rw [if_neg havail] at hrun
  rw [startUp_eq hb, hrun]
  exact ⟨_, rfl⟩

/-- What the system is when it has started from an image without its RAM disk in reach of click
    numbers. -/
theorem startUp_inv (hb : Built z rootfs image) (hpos : 0 < size) (heven : size % 2 = 0)
    (hsize : size < 65536) (hclicks : z.clicks < 65536)
    (hr : startUp size image z.fsData = .ok r) :
    toInt16 (ramBlocks rootfs) ≤ maxRam ∧ z.clicks < size ∧
      z.clicks + 4 * ramBlocks rootfs % 65536 ≤ size ∧
      ∃ t, HoleAreas t (leftOver size (z.clicks + 4 * ramBlocks rootfs % 65536)) ∧
        r = ⟨bootState z.initOrg 0 z.init.clicks t,
          if toInt16 (ramBlocks rootfs) ≠ 0 then .ram else .hd0, (z.clicks * clickSize : ℕ),
          (z.clicks * clickSize : ℕ) + toInt16 (ramBlocks rootfs) * 1024⟩ := by
  rw [startUp_eq hb] at hr
  have hcount : toInt16 (ramBlocks rootfs) ≤ maxRam := by
    by_contra hgt
    unfold loadRam at hr
    simp only [if_pos (not_le.mp hgt)] at hr
    cases hr
  have hsum : z.initOrg + z.init.clicks = z.clicks := rfl
  have hkern := hb.kern_pos
  obtain ⟨hk, hm, hf, hi⟩ := hb.even
  have hminix : 0 < z.clicks ∧ z.clicks % 2 = 0 := by
    unfold Sizes.clicks
    omega
  have hspec := loadRam_spec hpos heven hsize (by rwa [hsum]) (by rw [hsum]; exact hminix.1)
    (by rw [hsum]; exact hminix.2) hcount
  rw [hsum] at hspec
  split at hspec
  · next hfits =>
    obtain ⟨t, hareas, hrun⟩ := hspec
    rw [hr] at hrun
    split at hrun
    · cases hrun
    · cases hrun
      exact ⟨hcount, hfits.1, hfits.2, t, hareas, rfl⟩
  · rw [hr] at hspec
    cases hspec

/-- An image that ends below click 65536 is placed as it was built. -/
theorem placed_of_lt (hb : Built z rootfs image) (hpos : 0 < size) (heven : size % 2 = 0)
    (hsize : size < 65536) (hr : startUp size image z.fsData = .ok r)
    (hlt : z.clicks + 4 * ramBlocks rootfs < 65536) : Placed z rootfs image r := by
  obtain ⟨-, -, hroom, t, hareas, rfl⟩ := startUp_inv hb hpos heven hsize (by omega) hr
  have hmod : 4 * ramBlocks rootfs % 65536 = 4 * ramBlocks rootfs := Nat.mod_eq_of_lt (by omega)
  have hcount : toInt16 (ramBlocks rootfs) = ramBlocks rootfs := by
    rw [toInt16, if_pos (by omega)]
  have hmm : z.mm.start / clickSize = z.kern.clicks := by
    rw [hb.mm_start]
    exact Nat.mul_div_cancel_left _ (by decide)
  have hfs : z.fs.start / clickSize = z.kern.clicks + z.mm.clicks := by
    rw [hb.fs_start]
    exact Nat.mul_div_cancel_left _ (by decide)
  have hinit : z.init.start / clickSize = z.initOrg := by
    rw [hb.init_start]
    exact Nat.mul_div_cancel_left _ (by decide)
  have hend : toClicks z.clicks = z.initOrg + z.init.clicks := Nat.mod_eq_of_lt (by omega)
  have hlimit : ((z.clicks * clickSize : ℕ) : ℤ) + toInt16 (ramBlocks rootfs) * 1024 =
      image.length := by
    rw [hcount, hb.length]
    push_cast
    ring
  constructor
  case order =>
    refine ⟨hb.kern_start, hb.mm_start, ?_, ?_⟩
    · rw [hb.fs_start, hb.mm_start, Nat.mul_add]
    · rw [hb.init_start, hb.fs_start, ← Nat.mul_add]
      rfl
  case tasks => exact mapTask_eq hb
  case users =>
    rw [mainMaps_eq hb, hmm, hfs, hinit, hend]
    rfl
  case init =>
    show (bootMproc z.initOrg 0 z.init.clicks initProcNr).seg = _
    have hlt' : z.initOrg + z.init.clicks < 65536 := by
      have : z.initOrg + z.init.clicks = z.clicks := rfl
      omega
    rw [(bootMproc_init _ _ _).1, hinit]
    have hdata : toClicks (z.initOrg + 0) = z.initOrg := toClicks_of_lt (by omega)
    have hsize' : toClicks (0 + z.init.clicks) = z.init.clicks := by
      rw [Nat.zero_add]
      exact toClicks_of_lt (by omega)
    simp only [initSeg, straight, hdata, hsize', toClicks_of_lt hlt']
  case origin =>
    have hstop := hb.init_stop
    show ((z.clicks * clickSize : ℕ) : ℤ) = _
    rw [← Nat.cast_mul, ← Nat.cast_add, hstop, Nat.mul_comm]
  case limit => exact hlimit
  case contents =>
    rw [hb.init_stop]
    exact hb.disk
  case device =>
    show (if toInt16 (ramBlocks rootfs) ≠ 0 then RootDev.ram else .hd0) = _
    rw [hcount]
    cases rootfs with
    | nil => rfl
    | cons b rest =>
      have hne : ((ramBlocks (b :: rest) : ℕ) : ℤ) ≠ 0 := by
        unfold ramBlocks
        rw [List.length_cons]
        omega
      rw [if_pos hne, if_neg (List.cons_ne_nil _ _)]
  case apart =>
    rw [hmod] at hareas
    refine ⟨_, hareas, fun a ha => ?_⟩
    unfold leftOver at ha
    split at ha
    · rw [List.mem_singleton.mp ha]
      show ((z.clicks * clickSize : ℕ) : ℤ) + toInt16 (ramBlocks rootfs) * 1024 ≤ _
      rw [hcount]
      simp only [clickSize]
      omega
    · cases ha

end Image

/-! ## §5 Every Image of `build.py` -/

/-- **Every image that is in memory is placed as it was built.**  `main`, `load_ram` and `do_brk2`
    take the image for what `build.py` wrote, on every machine whose memory holds it; the system
    starts when there are 33 K more, and MM is then in a state that the runs of its requests start
    from. -/
theorem mainLisa_placed {args : LisaArgs} {image : List UInt8} (hbuild : mainLisa args = .ok image)
    (hkern : HasSizeTable args.kern) {pages : ℕ} (hpages : pages < 32768)
    (hmemory : image.length ≤ 2 * pages * clickSize) :
    ∃ out z rootfs, Tools.layOut args = .ok (out, z) ∧ args.rootfs.read = .ok rootfs ∧
      (z.clicks + 4 * ramBlocks rootfs + 132 ≤ 2 * pages →
        ∃ r, startUp (2 * pages) image z.fsData = .ok r) ∧
      ∀ r, startUp (2 * pages) image z.fsData = .ok r →
        Placed z rootfs image r ∧
        ∀ safe, ∃ tot, Reached (2 * pages) z.initOrg 0 z.init.clicks tot safe r.mm := by
  obtain ⟨out, z, rootfs, hlay, hroot, hb⟩ := mainLisa_built hbuild hkern
  have hkernPos := hb.kern_pos
  have hlength := hb.length
  -- clicks are 16-bit numbers, but so is the size of the memory
  have hlt : z.clicks + 4 * ramBlocks rootfs < 65536 := by
    unfold clickSize at hlength hmemory
    omega
  have hpos : 0 < pages := by
    unfold Sizes.clicks at hlength
    unfold clickSize at hlength hmemory
    omega
  refine ⟨out, z, rootfs, hlay, hroot, ?_, ?_⟩
  · intro hroom
    exact startUp_ok hb (by omega) (by omega) hroom
  · intro r hr
    refine ⟨placed_of_lt hb (by omega) (by omega) (by omega) hr hlt, fun safe => ?_⟩
    rw [startUp_eq hb] at hr
    exact reached_of_loadRam hr safe

/-- A program with nothing but data, and nothing to relocate. -/
def tinyExe (data : List UInt8) : List UInt8 :=
  [aMagicd, 0x20, 0, data.length, 0, 0, 0, 0].flatMap (beBytes 4) ++ (data ++ [0, 0, 0, 0])

/-- Four programs with nothing but their tables. -/
def tinyArgs (rootfs : List UInt8) : LisaArgs where
  kern := some (tinyExe (0x52 :: 0x6F :: List.replicate 14 0))
  mm := some (tinyExe [0xDA, 0xDA])
  fs := some (tinyExe (0xDA :: 0xDA :: List.replicate 10 0))
  init := some (tinyExe [0x4E, 0x71])
  rootfs := .file (some rootfs)

theorem tinyArgs_hasSizeTable (rootfs : List UInt8) : HasSizeTable (tinyArgs rootfs).kern := by
  intro e he
  have hsize : (readExe (tinyArgs []).kern).map (·.aDsize) = .ok 16 := by decide +kernel
  rw [show readExe (tinyArgs []).kern = .ok e from he] at hsize
  exact (Except.ok.inj hsize).ge

theorem exists_of_isSome {ε α : Type} {x : Except ε α} (h : x.toOption.isSome = true) :
    ∃ a, x = .ok a := by
  cases x with
  | error e => cases h
  | ok a => exact ⟨a, rfl⟩

/-- An image with one block of root file system, on a machine with 1 MB of memory. -/
theorem mainLisa_smallDisk_placed :
    ∃ image out z rootfs r, mainLisa (tinyArgs [1, 2, 3]) = .ok image ∧
      Tools.layOut (tinyArgs [1, 2, 3]) = .ok (out, z) ∧ startUp (2 * 2048) image z.fsData = .ok r ∧
      Placed z rootfs image r := by
  obtain ⟨image, hbuild⟩ := exists_of_isSome
    (show (mainLisa (tinyArgs [1, 2, 3])).toOption.isSome = true by decide +kernel)
  have hlength : (mainLisa (tinyArgs [1, 2, 3])).map List.length = .ok 3072 := by decide +kernel
  rw [hbuild] at hlength
  have hmemory : image.length ≤ 2 * 2048 * clickSize := by
    rw [Except.ok.inj hlength]
    decide
  obtain ⟨out, z, rootfs, hlay, hroot, hstart, hplaced⟩ := mainLisa_placed hbuild
    (tinyArgs_hasSizeTable _) (show 2048 < 32768 by decide) hmemory
  cases hroot
  have hz : (Tools.layOut (tinyArgs [1, 2, 3])).map (fun p => p.2.clicks) = .ok 8 := by decide +kernel
  rw [hlay] at hz
  have hclicks : z.clicks = 8 := Except.ok.inj hz
  have hblocks : ramBlocks [1, 2, 3] = 1 := by decide
  obtain ⟨r, hr⟩ := hstart (by rw [hclicks, hblocks]; decide)
  exact ⟨image, out, z, [1, 2, 3], r, hbuild, hlay, hr, (hplaced r hr).1⟩

end LisaMinix.Mm
