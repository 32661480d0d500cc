import LisaMinix.Library.Loops
import LisaMinix.Tools.Relocation

/-!
# The Boot Image of the Lisa

`build.py --lisa` lays kernel, MM, FS and INIT behind one another, each filled up to whole MMU
pages and relocated to its place, writes the sizes into the tables of the kernel and of FS, and
appends the root file system.

- `mainLisa` models the tool, from the files to the image.
- `Built` and `mainLisa_built`: what it has laid where, and what its two tables read as.
-/

namespace LisaMinix.Tools

open LisaMinix.Library

variable {base p : ℕ} {out out' : List UInt8} {z : Sizes} {args : LisaArgs}

/-! ## §1 The Tool -/

def clickSize : ℕ := 256
def kernelDMagic : ℕ := 0x526F
def fsDMagic : ℕ := 0xDADA
def aMagicd : ℕ := 0x04100301

/-- An executable file with the sizes in its header. -/
structure Exe where
  exe : List UInt8
  aTsize : ℕ
  aDsize : ℕ
  aBsize : ℕ
  aSsize : ℕ

/-- `read_exe`; a file that cannot be opened is `none`. -/
def readExe : Option (List UInt8) → Except BuildError Exe
  | none => .error .cantOpen
  | some exe =>
    if exe.length < szHead then .error .headerTooShort
    else
      let field i := beVal (sub exe (4 * i) 4)
      if field 0 ≠ aMagicd then .error .badHeaderType
      else if field 5 ≠ 0 then .error .entryPointNotZero
      else .ok ⟨exe, field 2, field 3, field 4, field 7⟩

/-- `(-tot) % (2 * CLICK_SIZE)`. -/
def filler (tot : ℕ) : ℕ := (2 * clickSize - tot % (2 * clickSize)) % (2 * clickSize)

/-- An entry of `sizes`, with the filler in the bss. -/
structure SizeEntry where
  start : ℕ
  text : ℕ
  data : ℕ
  bss : ℕ
  deriving DecidableEq

/-- The size of a program in clicks. -/
def SizeEntry.clicks (s : SizeEntry) : ℕ := (s.text + s.data + s.bss) / clickSize

/-- One round of the loop over the four programs. -/
def addProgram (out : List UInt8) (file : Option (List UInt8)) :
    Except BuildError (List UInt8 × SizeEntry) := do
  let e ← readExe file
  let aBsize := e.aBsize + filler (e.aTsize + e.aDsize + e.aBsize)
  let body ← relocate e.exe e.aTsize e.aDsize e.aSsize out.length
  return (out ++ (body ++ List.replicate aBsize 0), ⟨out.length, e.aTsize, e.aDsize, aBsize⟩)

/-- The 16-bit word at position `p`. -/
def word (out : List UInt8) (p : ℕ) : ℕ := beVal (sub out p 2)

/-- `struct.unpack_from(">H", out, p)`. -/
def unpackWord (out : List UInt8) (p : ℕ) : Except BuildError ℕ :=
  if out.length < p + 2 then .error .structError else .ok (word out p)

/-- `struct.pack_into(">HH..", out, p, ..)`. -/
def packWords (out : List UInt8) (p : ℕ) (words : List ℕ) : Except BuildError (List UInt8) :=
  if out.length < p + 2 * words.length then .error .structError
  else if words.all (· < 65536) then .ok (patch out p (words.flatMap (beBytes 2)))
  else .error .structError

/-- `if struct.unpack_from(..)[0] != magic: pexit(..)`. -/
def checkMagic (out : List UInt8) (p magic : ℕ) (e : BuildError) : Except BuildError Unit :=
  unpackWord out p >>= fun w => if w ≠ magic then .error e else .ok ()

/-- The file with the root file system: `-` for none, else what `open` gives. -/
inductive RootFile where
  | dash
  | file (contents : Option (List UInt8))

def RootFile.read : RootFile → Except BuildError (List UInt8)
  | .dash => .ok []
  | .file none => .error .cantOpen
  | .file (some rootfs) => .ok rootfs

def ramBlocks (rootfs : List UInt8) : ℕ := (rootfs.length + 1023) / 1024

/-- The files of one run: four programs and the root file system. -/
structure LisaArgs where
  kern : Option (List UInt8)
  mm : Option (List UInt8)
  fs : Option (List UInt8)
  init : Option (List UInt8)
  rootfs : RootFile

/-- `sizes`: the entries of the four programs. -/
structure Sizes where
  kern : SizeEntry
  mm : SizeEntry
  fs : SizeEntry
  init : SizeEntry
  deriving DecidableEq

/-- The loop over the four programs: the operating system, not yet patched. -/
def layOut (args : LisaArgs) : Except BuildError (List UInt8 × Sizes) := do
  let (out, kern) ← addProgram [] args.kern
  let (out, mm) ← addProgram out args.mm
  let (out, fs) ← addProgram out args.fs
  let (out, init) ← addProgram out args.init
  return (out, ⟨kern, mm, fs, init⟩)

/-- The size table in the kernel's data space. -/
def patchSizes (out : List UInt8) (dataOffset : ℕ) :
    ℕ → List SizeEntry → Except BuildError (List UInt8)
  | _, [] => .ok out
  | i, s :: rest => do
    let out ← packWords out (dataOffset + 4 * i) [0, s.clicks]
    patchSizes out dataOffset (i + 1) rest

/-- Where the data of FS begins in the image. -/
def Sizes.fsData (z : Sizes) : ℕ := z.fs.start + z.fs.text

/-- `main_lisa`: the image that is written. -/
def mainLisa (args : LisaArgs) : Except BuildError (List UInt8) := do
  let (out, z) ← layOut args
  checkMagic out z.kern.text kernelDMagic .noKernelMagic
  let out ← patchSizes out z.kern.text 0 [z.kern, z.mm, z.fs, z.init]
  checkMagic out (z.mm.start + z.mm.text) fsDMagic .noMmMagic
  checkMagic out z.fsData fsDMagic .noFsMagic
  let rootfs ← args.rootfs.read
  let out ← packWords out (z.fsData + 4)
    [z.init.start / clickSize, 0, z.init.clicks, ramBlocks rootfs]
  return out ++ (rootfs ++ List.replicate (ramBlocks rootfs * 1024 - rootfs.length) 0)

/-! ## §2 The Programs Behind One Another -/

theorem length_relocateLong {length : ℕ} {buf buf' : List UInt8}
    (h : relocateLong length base p buf = .ok buf') : buf'.length = buf.length := by
  unfold relocateLong at h
  split at h
  · cases h
  split at h
  · cases h
  · next hlen =>
    cases h
    exact length_addLong (by omega)

theorem length_relocateBytes {length : ℕ} {rel : List UInt8} {buf buf' : List UInt8}
    (h : relocateBytes length base rel p buf = .ok buf') : buf'.length = buf.length := by
  induction rel generalizing p buf with
  | nil => cases h
  | cons c rel ih =>
    unfold relocateBytes at h
    split at h
    · exact ih h
    split at h
    · cases h
      rfl
    split at h
    · cases h
    · obtain ⟨buf₁, hlong, hrest⟩ := bind_eq_ok h
      rw [ih hrest, length_relocateLong hlong]

/-- What `relocate` returns has the length of text and data. -/
theorem length_relocate {exe body : List UInt8} {aTsize aDsize aSsize : ℕ}
    (h : relocate exe aTsize aDsize aSsize base = .ok body) : body.length = aTsize + aDsize := by
  unfold relocate at h
  dsimp only at h
  split at h
  · cases h
  next hrel =>
    rw [List.length_drop] at hrel
    have hbuf : (sub exe szHead (aTsize + aDsize)).length = aTsize + aDsize :=
      length_sub (by omega)
    split at h
    · cases h
      exact hbuf
    · obtain ⟨buf₁, hlong, hrest⟩ := bind_eq_ok h
      rw [length_relocateBytes hrest, length_relocateLong hlong, hbuf]

theorem filler_whole (tot : ℕ) : (tot + filler tot) % 512 = 0 := by
  simp only [filler, clickSize]
  omega

/-- What an entry says of the stretch of the image that it is for. -/
structure SizeEntry.Laid (s : SizeEntry) (out out' : List UInt8) : Prop where
  start : s.start = out.length
  length : out'.length = out.length + clickSize * s.clicks
  whole : s.text + s.data + s.bss = clickSize * s.clicks
  even : s.clicks % 2 = 0

theorem addProgram_laid {file : Option (List UInt8)} {s : SizeEntry}
    (h : addProgram out file = .ok (out', s)) : s.Laid out out' := by
  obtain ⟨e, -, h⟩ := bind_eq_ok h
  obtain ⟨body, hbody, h⟩ := bind_eq_ok h
  cases h
  have hlen := length_relocate hbody
  have hwhole := filler_whole (e.aTsize + e.aDsize + e.aBsize)
  have hclicks : e.aTsize + e.aDsize + (e.aBsize + filler (e.aTsize + e.aDsize + e.aBsize)) =
      clickSize * ((e.aTsize + e.aDsize +
        (e.aBsize + filler (e.aTsize + e.aDsize + e.aBsize))) / clickSize) := by
    simp only [clickSize] at hwhole ⊢
    omega
  refine ⟨rfl, ?_, hclicks, ?_⟩
  · rw [SizeEntry.clicks, ← hclicks]
    simp only [List.length_append, hlen, List.length_replicate]
  · simp only [SizeEntry.clicks, clickSize]
    omega

/-! ## §3 The Tables -/

theorem length_flatMap_beBytes (n : ℕ) (words : List ℕ) :
    (words.flatMap (beBytes n)).length = n * words.length := by
  induction words with
  | nil => rfl
  | cons w words ih =>
    rw [List.flatMap_cons, List.length_append, length_beBytes, ih, List.length_cons]
    ring

theorem drop_flatMap_beBytes (n : ℕ) (words : List ℕ) (i : ℕ) :
    (words.flatMap (beBytes n)).drop (n * i) = (words.drop i).flatMap (beBytes n) := by
  induction i generalizing words with
  | zero => rfl
  | succ i ih =>
    cases words with
    | nil => simp
    | cons w words =>
      rw [List.flatMap_cons, Nat.mul_succ, Nat.add_comm, ← List.drop_drop,
        List.drop_left' (length_beBytes n w), ih]
      rfl

/-- What `struct.pack_into` leaves behind: the words it was given, and the rest as it was. -/
structure Packed (out : List UInt8) (p : ℕ) (words : List ℕ) (out' : List UInt8) : Prop where
  length : out'.length = out.length
  bound : ∀ w ∈ words, w < 65536
  written : ∀ i (h : i < words.length), word out' (p + 2 * i) = words[i]
  frame : ∀ q, q + 2 ≤ p ∨ p + 2 * words.length ≤ q → word out' q = word out q

theorem packWords_packed {words : List ℕ} (h : packWords out p words = .ok out') :
    Packed out p words out' := by
  unfold packWords at h
  split at h
  · cases h
  next hlen =>
    split at h
    case isFalse => cases h
    case isTrue hall =>
      cases h
      have hnew : (words.flatMap (beBytes 2)).length = 2 * words.length :=
        length_flatMap_beBytes 2 words
      have hfits : p + (words.flatMap (beBytes 2)).length ≤ out.length := by omega
      have hbound : ∀ w ∈ words, w < 65536 := by simpa using hall
      refine ⟨length_patch hfits, hbound, fun i hi => ?_, fun q hq => ?_⟩
      · -- the two bytes of the `i`-th word are in the new stretch
        have hsub : sub (patch out p (words.flatMap (beBytes 2))) (p + 2 * i) 2 =
            beBytes 2 words[i] := by
          have hp : (out.take p).length = p := by
            rw [List.length_take]
            omega
          have hhead : (words.drop i).flatMap (beBytes 2) =
              beBytes 2 words[i] ++ (words.drop (i + 1)).flatMap (beBytes 2) := by
            rw [List.drop_eq_getElem_cons hi, List.flatMap_cons]
          rw [sub, patch, ← List.drop_drop, List.drop_left' hp, List.drop_append_of_le_length
            (by omega), drop_flatMap_beBytes, hhead, List.append_assoc,
            List.take_left' (length_beBytes 2 _)]
        rw [word, hsub, beVal_beBytes]
        exact Nat.mod_eq_of_lt (hbound _ (List.getElem_mem hi))
      · rw [word, sub_patch_of_disjoint hfits (by rwa [hnew])]
        rfl

/-- The size table, entry by entry. -/
theorem patchSizes_packed {off : ℕ} {entries : List SizeEntry} {i : ℕ}
    (h : patchSizes out off i entries = .ok out') :
    Packed out (off + 4 * i) (entries.flatMap fun s => [0, s.clicks]) out' := by
  induction entries generalizing out i with
  | nil =>
    cases h
    exact ⟨rfl, by simp, by simp, fun _ _ => rfl⟩
  | cons s entries ih =>
    obtain ⟨out₁, hpack, hrest⟩ := bind_eq_ok h
    have h1 := packWords_packed hpack
    have h2 := ih hrest
    have hflat : (s :: entries).flatMap (fun s => [0, s.clicks]) =
        [0, s.clicks] ++ entries.flatMap fun s => [0, s.clicks] := List.flatMap_cons ..
    refine ⟨h2.length.trans h1.length, ?_, ?_, ?_⟩
    · intro w hw
      rw [hflat, List.mem_append] at hw
      exact hw.elim (h1.bound w) (h2.bound w)
    · intro k hk
      simp only [hflat] at hk ⊢
      rcases Nat.lt_or_ge k 2 with hlt | hge
      · -- the words of this entry: the later rounds leave them alone
        rw [List.getElem_append_left (by simpa using hlt), h2.frame _ (by omega)]
        exact h1.written k (by simpa using hlt)
      · rw [List.getElem_append_right (by simpa using hge)]
        have hpos : off + 4 * i + 2 * k = off + 4 * (i + 1) + 2 * (k - 2) := by omega
        rw [hpos]
        apply h2.written
    · intro q hq
      rw [hflat, List.length_append, List.length_cons, List.length_singleton] at hq
      rw [h2.frame q (by omega), h1.frame q (by simp only [List.length_cons, List.length_nil]; omega)]

theorem packWords_fits {words : List ℕ} (h : packWords out p words = .ok out') :
    p + 2 * words.length ≤ out.length := by
  unfold packWords at h
  split at h
  · cases h
  · next hlen => omega

theorem word_append (h : p + 2 ≤ out.length) (rest : List UInt8) :
    word (out ++ rest) p = word out p := by
  unfold word sub
  rw [List.drop_append_of_le_length (by omega), List.take_append_of_le_length]
  rw [List.length_drop]
  omega

/-! ## §4 The Image -/

/-- The four sizes in clicks, and their sum: the size of MINIX. -/
def Sizes.clicks (z : Sizes) : ℕ := z.kern.clicks + z.mm.clicks + z.fs.clicks + z.init.clicks

/-- The origin of INIT in clicks. -/
def Sizes.initOrg (z : Sizes) : ℕ := z.kern.clicks + z.mm.clicks + z.fs.clicks

/-- **What `build.py` has put where**: the programs behind one another from address 0 on, the
    root file system behind them, and the sizes in the tables of the kernel and of FS. -/
structure Built (z : Sizes) (rootfs image : List UInt8) : Prop where
  kern_start : z.kern.start = 0
  mm_start : z.mm.start = clickSize * z.kern.clicks
  fs_start : z.fs.start = clickSize * (z.kern.clicks + z.mm.clicks)
  init_start : z.init.start = clickSize * z.initOrg
  kern_pos : 0 < z.kern.clicks
  even : z.kern.clicks % 2 = 0 ∧ z.mm.clicks % 2 = 0 ∧ z.fs.clicks % 2 = 0 ∧ z.init.clicks % 2 = 0
  disk : image.drop (clickSize * z.clicks) =
    rootfs ++ List.replicate (ramBlocks rootfs * 1024 - rootfs.length) 0
  length : image.length = clickSize * z.clicks + 1024 * ramBlocks rootfs
  sizes : ∀ i (h : i < 8), word image (z.kern.text + 2 * i) =
    [0, z.kern.clicks, 0, z.mm.clicks, 0, z.fs.clicks, 0, z.init.clicks][i]
  dataOrg : ∀ i (h : i < 4), word image (z.fsData + 4 + 2 * i) =
    [z.initOrg, 0, z.init.clicks, ramBlocks rootfs][i]
  bound : z.initOrg < 65536 ∧ z.init.clicks < 65536 ∧ ramBlocks rootfs < 65536

theorem Built.init_stop {rootfs image : List UInt8} (hb : Built z rootfs image) :
    z.init.start + clickSize * z.init.clicks = clickSize * z.clicks := by
  rw [hb.init_start, ← Nat.mul_add]
  rfl

theorem layOut_laid (h : layOut args = .ok (out, z)) :
    ∃ out₁ out₂ out₃, z.kern.Laid [] out₁ ∧ z.mm.Laid out₁ out₂ ∧ z.fs.Laid out₂ out₃ ∧
      z.init.Laid out₃ out := by
  obtain ⟨⟨out₁, kern⟩, h1, h⟩ := bind_eq_ok h
  obtain ⟨⟨out₂, mm⟩, h2, h⟩ := bind_eq_ok h
  obtain ⟨⟨out₃, fs⟩, h3, h⟩ := bind_eq_ok h
  obtain ⟨⟨out₄, init⟩, h4, h⟩ := bind_eq_ok h
  cases h
  exact ⟨out₁, out₂, out₃, addProgram_laid h1, addProgram_laid h2, addProgram_laid h3,
    addProgram_laid h4⟩

theorem length_le_ramBlocks (rootfs : List UInt8) :
    rootfs.length ≤ ramBlocks rootfs * 1024 := by
  unfold ramBlocks
  omega

/-- The data of the kernel begin with `sizes`, a table of eight words (`lisampx.s`). -/
def HasSizeTable (kern : Option (List UInt8)) : Prop := ∀ e, readExe kern = .ok e → 16 ≤ e.aDsize

theorem layOut_kern_data (h : layOut args = .ok (out, z)) (hkern : HasSizeTable args.kern) :
    16 ≤ z.kern.data := by
  obtain ⟨⟨out₁, kern⟩, h1, h⟩ := bind_eq_ok h
  obtain ⟨⟨out₂, mm⟩, -, h⟩ := bind_eq_ok h
  obtain ⟨⟨out₃, fs⟩, -, h⟩ := bind_eq_ok h
  obtain ⟨⟨out₄, init⟩, -, h⟩ := bind_eq_ok h
  cases h
  obtain ⟨e, he, h1⟩ := bind_eq_ok h1
  obtain ⟨body, -, h1⟩ := bind_eq_ok h1
  cases h1
  exact hkern e he

theorem mainLisa_built {image : List UInt8} (h : mainLisa args = .ok image)
    (hkern : HasSizeTable args.kern) :
    ∃ out z rootfs, layOut args = .ok (out, z) ∧ args.rootfs.read = .ok rootfs ∧
      Built z rootfs image := by
  obtain ⟨⟨out, z⟩, hlay, h⟩ := bind_eq_ok h
  obtain ⟨-, -, h⟩ := bind_eq_ok h
  obtain ⟨out₁, hsizes, h⟩ := bind_eq_ok h
  obtain ⟨-, -, h⟩ := bind_eq_ok h
  obtain ⟨-, -, h⟩ := bind_eq_ok h
  obtain ⟨rootfs, hroot, h⟩ := bind_eq_ok h
  obtain ⟨out₂, horg, h⟩ := bind_eq_ok h
  cases h
  refine ⟨out, z, rootfs, hlay, hroot, ?_⟩
  have hdata := layOut_kern_data hlay hkern
  obtain ⟨o₁, o₂, o₃, hk, hm, hf, hi⟩ := layOut_laid hlay
  have htable := patchSizes_packed hsizes
  have hinfo := packWords_packed horg
  have hfits := packWords_fits horg
  have hlen : out₂.length = clickSize * z.clicks := by
    rw [hinfo.length, htable.length, hi.length, hf.length, hm.length, hk.length, Sizes.clicks]
    simp only [List.length_nil]
    ring
  have hmm : z.mm.start = clickSize * z.kern.clicks := by
    rw [hm.start, hk.length, List.length_nil, Nat.zero_add]
  have hfs : z.fs.start = clickSize * (z.kern.clicks + z.mm.clicks) := by
    rw [hf.start, hm.length, hk.length, List.length_nil]
    ring
  have hinit : z.init.start = clickSize * z.initOrg := by
    rw [hi.start, hf.length, hm.length, hk.length, List.length_nil, Sizes.initOrg]
    ring
  have horigin : z.init.start / clickSize = z.initOrg := by
    rw [hinit]
    exact Nat.mul_div_cancel_left _ (by decide)
  rw [horigin] at hinfo horg
  -- the kernel's table ends before the data of FS
  have hend : z.kern.text + 16 ≤ clickSize * z.kern.clicks := by
    have := hk.whole
    omega
  have hafter : z.kern.text + 16 ≤ z.fsData := by
    rw [Sizes.fsData, hfs, Nat.mul_add]
    omega
  have htot : clickSize * z.kern.clicks ≤ clickSize * z.clicks :=
    Nat.mul_le_mul_left _ (by unfold Sizes.clicks; omega)
  constructor
  case kern_start => exact hk.start
  case mm_start => exact hmm
  case fs_start => exact hfs
  case init_start => exact hinit
  case kern_pos =>
    simp only [clickSize] at hend
    omega
  case even => exact ⟨hk.even, hm.even, hf.even, hi.even⟩
  case disk => rw [← hlen, List.drop_left]
  case length =>
    have := length_le_ramBlocks rootfs
    rw [List.length_append, hlen, List.length_append, List.length_replicate]
    omega
  case sizes =>
    intro i hi'
    rw [word_append (by omega), hinfo.frame _ (by omega)]
    exact htable.written i hi'
  case dataOrg =>
    intro i hi'
    rw [hinfo.length] at hlen
    simp only [List.length_cons, List.length_nil] at hfits
    rw [word_append (by rw [hinfo.length]; omega)]
    exact hinfo.written i hi'
  case bound => exact ⟨hinfo.bound _ (by simp), hinfo.bound _ (by simp), hinfo.bound _ (by simp)⟩

end LisaMinix.Tools
