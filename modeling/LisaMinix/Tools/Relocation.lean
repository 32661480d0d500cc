import LisaMinix.Library.Bytes

/-!
# Relocation Tables

The relocation table of an executable, in the GEMDOS format: a longword with the first offset to
relocate, then one byte for each further one, its distance, where 1 stands for 254 bytes and no
relocation and 0 ends the table.  `elf2mnx.py` writes the table, `build.py` applies it to the
programs of a boot image.

- `relocTable` models the encoder of `elf2mnx.py`, `relocate` the decoder of `build.py`.
- `decode` reads the format for its own sake: the offsets a table names.
- `decode_chain`: what the encoder writes for ascending offsets reads back as these offsets.
- `relocate_table`: `build.py` adds the load base to the longwords at exactly these offsets.
-/

namespace LisaMinix.Tools

open LisaMinix.Library

variable {last base p : ℕ} {os : List ℕ} {buf : List UInt8}

/-! ## §1 The Encoder of `elf2mnx.py` -/

/-- The bytes for the distance from `last` to `curr`: `while curr - last > 254`. -/
def appendDistance (last curr : ℕ) : List UInt8 :=
  if 254 < curr - last then 1 :: appendDistance (last + 254) curr
  else [UInt8.ofNat (curr - last)]
termination_by curr - last
decreasing_by omega

/-- One round of the loop over the sorted relocations. -/
def encodeStep (acc : List UInt8 × ℕ) (curr : ℕ) : List UInt8 × ℕ :=
  let (rel, last) := acc
  (rel ++ (if last = 0 then beBytes 4 curr else appendDistance last curr), curr)

/-- The relocation table for a set of offsets. -/
def relocTable (relocs : Finset ℕ) : List UInt8 :=
  let (rel, last) := relocs.sort.foldl encodeStep ([], 0)
  rel ++ (if last = 0 then beBytes 4 0 else [0])

def szHead : ℕ := 32

def magicCombined : ℕ := 0x04100301
def headerVersion : ℕ := 0x20

/-- What `elf2mnx.py` has found in its input: the sizes fit the 32-bit fields of an ELF file, and
    the relocations passed its checks. -/
structure Program where
  image : List UInt8
  textSize : ℕ
  dataSize : ℕ
  bssSize : ℕ
  total : ℕ
  relocs : Finset ℕ
  length_image : image.length = textSize + dataSize
  fits : image.length + bssSize < 2 ^ 32
  even : ∀ o ∈ relocs, o % 2 = 0
  nonzero : ∀ o ∈ relocs, o ≠ 0
  inside : ∀ o ∈ relocs, o + 4 ≤ image.length

def Program.header (prog : Program) : List UInt8 :=
  [magicCombined, headerVersion, prog.textSize, prog.dataSize, prog.bssSize, 0, prog.total,
    0].flatMap (beBytes 4)

/-- The output file: header, text and data, relocation table. -/
def Program.exe (prog : Program) : List UInt8 :=
  prog.header ++ (prog.image ++ relocTable prog.relocs)

/-! ## §2 The Decoder of `build.py` -/

inductive BuildError where
  | cantOpen
  | headerTooShort
  | badHeaderType
  | entryPointNotZero
  | relocationMissing
  | badRelocation
  | readError
  | oddReloByte
  | noKernelMagic
  | noMmMagic
  | noFsMagic
  | structError
deriving DecidableEq, Repr

/-- `buf1` with the load base added to the longword at `p1`. -/
def addLong (reloshift : ℕ) (buf1 : List UInt8) (p1 : ℕ) : List UInt8 :=
  patch buf1 p1 (beBytes 4 ((beVal (sub buf1 p1 4) + reloshift) % 2 ^ 32))

/-- The relocation of one longword; `struct.unpack_from` fails where four bytes are not left. -/
def relocateLong (length reloshift p1 : ℕ) (buf1 : List UInt8) : Except BuildError (List UInt8) :=
  if length ≤ p1 then .error .badRelocation
  else if buf1.length < p1 + 4 then .error .structError
  else .ok (addLong reloshift buf1 p1)

/-- The bytes of the table after the longword at `p1` has been relocated. -/
def relocateBytes (length reloshift : ℕ) :
    List UInt8 → ℕ → List UInt8 → Except BuildError (List UInt8)
  | [], _, _ => .error .readError
  | c :: rel, p1, buf1 =>
    if c = 1 then relocateBytes length reloshift rel (p1 + 254) buf1
    else if c = 0 then .ok buf1
    else if c.toNat % 2 = 1 then .error .oddReloByte
    else do
      let buf1 ← relocateLong length reloshift (p1 + c.toNat) buf1
      relocateBytes length reloshift rel (p1 + c.toNat) buf1

/-- `relocate` of `build.py`: text and data of `exe`, relocated by `reloshift`. -/
def relocate (exe : List UInt8) (aTsize aDsize aSsize reloshift : ℕ) :
    Except BuildError (List UInt8) :=
  let length := aTsize + aDsize
  let buf1 := sub exe szHead length
  let rel := exe.drop (szHead + length + aSsize)
  if rel.length < 4 then .error .relocationMissing
  else
    let p1 := beVal (sub rel 0 4)
    if p1 = 0 then .ok buf1
    else do
      let buf1 ← relocateLong length reloshift p1 buf1
      relocateBytes length reloshift (rel.drop 4) p1 buf1

/-! ## §3 The Format -/

/-- The offsets that the bytes of a table name after offset `p`, or `none` for a bad table. -/
def decode : ℕ → List UInt8 → Option (List ℕ)
  | _, [] => none
  | p, c :: rel =>
    if c = 1 then decode (p + 254) rel
    else if c = 0 then some []
    else if c.toNat % 2 = 1 then none
    else (decode (p + c.toNat) rel).map ((p + c.toNat) :: ·)

/-- The bytes of the encoder for the offsets `os`, of which the first comes after `last`. -/
def chain : ℕ → List ℕ → List UInt8
  | _, [] => []
  | last, o :: os => appendDistance last o ++ chain o os

theorem foldl_encodeStep {last : ℕ} (hlast : last ≠ 0) (os : List ℕ) (hos : ∀ o ∈ os, o ≠ 0)
    (rel : List UInt8) :
    (os.foldl encodeStep (rel, last)).1 = rel ++ chain last os ∧
      (os.foldl encodeStep (rel, last)).2 ≠ 0 := by
  induction os generalizing last rel with
  | nil => exact ⟨(List.append_nil rel).symm, hlast⟩
  | cons o os ih =>
    have ho : o ≠ 0 := hos o (List.mem_cons_self ..)
    obtain ⟨hrel, hne⟩ := ih ho (fun o' h => hos o' (List.mem_cons_of_mem _ h))
      (rel ++ appendDistance last o)
    have hstep : encodeStep (rel, last) o = (rel ++ appendDistance last o, o) := by
      simp [encodeStep, hlast]
    rw [List.foldl_cons, hstep]
    refine ⟨?_, hne⟩
    rw [hrel, chain, List.append_assoc]

/-- **The table in one piece**: nothing but a zero longword, or the first offset, the distances
    of the others and the end mark. -/
theorem relocTable_eq (relocs : Finset ℕ) (hne : ∀ o ∈ relocs, o ≠ 0) :
    relocTable relocs = match relocs.sort with
      | [] => beBytes 4 0
      | o :: os => beBytes 4 o ++ (chain o os ++ [0]) := by
  have hsort : ∀ o ∈ relocs.sort, o ≠ 0 := fun o h => hne o ((Finset.mem_sort _).mp h)
  unfold relocTable
  cases h : relocs.sort with
  | nil => rfl
  | cons o os =>
    rw [h] at hsort
    have ho : o ≠ 0 := hsort o (List.mem_cons_self ..)
    obtain ⟨hrel, hlast⟩ := foldl_encodeStep ho os
      (fun o' h' => hsort o' (List.mem_cons_of_mem _ h')) (beBytes 4 o)
    have hfirst : encodeStep ([], 0) o = (beBytes 4 o, o) := by simp [encodeStep]
    simp only [List.foldl_cons, hfirst, hlast, if_false, hrel, List.append_assoc]

/-- The bytes of one distance bring the decoder from `last` to `curr`. -/
theorem decode_appendDistance {curr : ℕ} (hlt : last < curr) (heven : (curr - last) % 2 = 0)
    (rel : List UInt8) :
    decode last (appendDistance last curr ++ rel) = (decode curr rel).map (curr :: ·) := by
  induction last using appendDistance.induct curr with
  | case1 last hfar ih =>
    -- an escape: the decoder advances by 254 and relocates nothing
    unfold appendDistance
    simp only [hfar, if_true, List.cons_append, decode]
    exact ih (by omega) (by omega)
  | case2 last hnear =>
    unfold appendDistance
    have hval : (UInt8.ofNat (curr - last)).toNat = curr - last := by
      rw [UInt8.toNat_ofNat']
      omega
    have hone : UInt8.ofNat (curr - last) ≠ 1 := by
      intro h
      have := congrArg UInt8.toNat h
      rw [hval] at this
      simp at this
      omega
    have hzero : UInt8.ofNat (curr - last) ≠ 0 := by
      intro h
      have := congrArg UInt8.toNat h
      rw [hval] at this
      simp at this
      omega
    have hsum : last + (curr - last) = curr := by omega
    simp only [hnear, if_false, List.cons_append, List.nil_append, decode, hone, hzero, hval,
      heven, Nat.zero_ne_one, hsum]

/-- **The table reads back**: the distances of ascending even offsets decode to these offsets. -/
theorem decode_chain (hsorted : (last :: os).Pairwise (· < ·)) (heven : ∀ o ∈ last :: os, o % 2 = 0)
    (rel : List UInt8) : decode last (chain last os ++ (0 :: rel)) = some os := by
  induction os generalizing last with
  | nil => simp [chain, decode]
  | cons o os ih =>
    have hlt : last < o := (List.pairwise_cons.mp hsorted).1 o (List.mem_cons_self ..)
    have hl : last % 2 = 0 := heven last (List.mem_cons_self ..)
    have ho : o % 2 = 0 := heven o (by simp)
    have htail := ih (List.pairwise_cons.mp hsorted).2
      (fun o' h => heven o' (List.mem_cons_of_mem _ h))
    rw [chain, List.append_assoc, decode_appendDistance hlt (by omega), htail]
    rfl

/-! ## §4 What a Relocated Image Is -/

/-- The image with the load base added to the longwords at the offsets, in ascending order. -/
def relocated (base : ℕ) (relocs : Finset ℕ) (image : List UInt8) : List UInt8 :=
  relocs.sort.foldl (addLong base) image

theorem length_addLong (h : p + 4 ≤ buf.length) : (addLong base buf p).length = buf.length := by
  apply length_patch
  rwa [length_beBytes]

/-- A byte outside all the longwords is not touched. -/
theorem getElem?_foldl_addLong {k : ℕ} (h : ∀ o ∈ os, o + 4 ≤ buf.length)
    (hk : ∀ o ∈ os, k < o ∨ o + 4 ≤ k) : (os.foldl (addLong base) buf)[k]? = buf[k]? := by
  induction os generalizing buf with
  | nil => rfl
  | cons o os ih =>
    have ho := h o (List.mem_cons_self ..)
    have hlen := @length_addLong base o buf ho
    rw [List.foldl_cons, ih]
    · have hout := hk o (List.mem_cons_self ..)
      rw [addLong, getElem?_patch (by rwa [length_beBytes]), length_beBytes, if_neg (by omega)]
    · intro o' h'
      rw [hlen]
      exact h o' (List.mem_cons_of_mem _ h')
    · exact fun o' h' => hk o' (List.mem_cons_of_mem _ h')

/-! ## §5 `build.py` Applies the Table -/

theorem relocateLong_ok {length : ℕ} (hlen : buf.length = length) (h : p + 4 ≤ length) :
    relocateLong length base p buf = .ok (addLong base buf p) := by
  unfold relocateLong
  rw [if_neg (by omega), if_neg (by omega)]

/-- The decoder of `build.py` goes through the offsets that the format gives the table. -/
theorem relocateBytes_decode {length : ℕ} {rel : List UInt8} (hdec : decode p rel = some os)
    (hlen : buf.length = length) (hin : ∀ o ∈ os, o + 4 ≤ length) :
    relocateBytes length base rel p buf = .ok (os.foldl (addLong base) buf) := by
  induction rel generalizing p os buf with
  | nil => cases hdec
  | cons c rel ih =>
    unfold decode at hdec
    unfold relocateBytes
    split at hdec
    · next hone => rw [if_pos hone, ih hdec hlen hin]
    next hone =>
      rw [if_neg hone]
      split at hdec
      · next hzero =>
        rw [if_pos hzero]
        cases hdec
        rfl
      next hzero =>
        rw [if_neg hzero]
        split at hdec
        · cases hdec
        next hodd =>
          obtain ⟨os', htail, rfl⟩ := Option.map_eq_some_iff.mp hdec
          have ho := hin _ (List.mem_cons_self ..)
          rw [if_neg hodd, relocateLong_ok hlen ho]
          apply ih htail
          · rw [length_addLong (by omega), hlen]
          · exact fun o' h' => hin o' (List.mem_cons_of_mem _ h')

theorem Program.length_header (prog : Program) : prog.header.length = szHead := by
  simp [Program.header, szHead]

theorem Program.sorted (prog : Program) : prog.relocs.sort.Pairwise (· < ·) :=
  prog.relocs.sortedLT_sort.pairwise

/-- **`build.py` relocates exactly the offsets of the set.** -/
theorem relocate_table (prog : Program) (base : ℕ) :
    relocate prog.exe prog.textSize prog.dataSize 0 base =
      .ok (relocated base prog.relocs prog.image) := by
  have hbuf : sub prog.exe szHead (prog.textSize + prog.dataSize) = prog.image := by
    rw [sub, Program.exe, ← prog.length_header, List.drop_left, ← prog.length_image,
      List.take_left]
  have hrel : prog.exe.drop (szHead + (prog.textSize + prog.dataSize) + 0) =
      relocTable prog.relocs := by
    rw [Nat.add_zero, ← List.drop_drop, Program.exe, ← prog.length_header, List.drop_left,
      ← prog.length_image, List.drop_left]
  unfold relocate relocated
  simp only [hbuf, hrel]
  have htable := relocTable_eq prog.relocs prog.nonzero
  have hsorted := prog.sorted
  have hmem : ∀ o ∈ prog.relocs.sort, o ∈ prog.relocs := fun o => (Finset.mem_sort _).mp
  cases h : prog.relocs.sort with
  | nil =>
    simp only [h] at htable
    rw [htable]
    rfl
  | cons o os =>
    rw [h] at hsorted hmem
    simp only [h] at htable
    have ho := prog.inside o (hmem o (List.mem_cons_self ..))
    have hfits := prog.fits
    have hfirst : beVal (sub (relocTable prog.relocs) 0 4) = o := by
      rw [htable, sub, List.drop_zero, List.take_left' (length_beBytes 4 o), beVal_beBytes,
        Nat.mod_eq_of_lt (by omega)]
    have hrest : (relocTable prog.relocs).drop 4 = chain o os ++ [0] := by
      rw [htable, List.drop_left' (length_beBytes 4 o)]
    have hlen : ¬(relocTable prog.relocs).length < 4 := by
      rw [htable, List.length_append, length_beBytes]
      omega
    have hne := prog.nonzero o (hmem o (List.mem_cons_self ..))
    have hdec : decode o (chain o os ++ [0]) = some os :=
      decode_chain hsorted (fun o' h' => prog.even o' (hmem o' h')) []
    rw [if_neg hlen, hfirst, if_neg hne, hrest,
      relocateLong_ok prog.length_image (by rw [← prog.length_image]; exact ho)]
    apply relocateBytes_decode hdec
    · rw [length_addLong ho, prog.length_image]
    · intro o' h'
      rw [← prog.length_image]
      exact prog.inside o' (hmem o' (List.mem_cons_of_mem _ h'))

end LisaMinix.Tools
