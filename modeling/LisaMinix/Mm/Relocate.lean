import LisaMinix.Tools.Relocation

/-!
# Relocation by the Memory Manager

`relocate` of `exec.c` applies the relocation table to a program that has been loaded.  The table
comes in buffer loads, one for each `read`, and the longwords are changed in place, in physical
memory, at 32-bit addresses.

- `relocate` models the function; `loads` is what its `read`s return, one after the other.
- `window_bump`: changing a longword in memory is changing it in the image loaded there.
- `relocation_codec`: both decoders, on the table `elf2mnx.py` writes.
-/

namespace LisaMinix.Mm

open LisaMinix.Library
open LisaMinix.Tools

/-! ## §1 The Code -/

/-- Physical memory, by 32-bit address. -/
abbrev PhysMem := BitVec 32 → UInt8

/-- The longword at `adr`. -/
def loadLong (m : PhysMem) (adr : BitVec 32) : ℕ :=
  beVal ((List.range 4).map fun k => m (adr + BitVec.ofNat 32 k))

def storeLong (m : PhysMem) (adr : BitVec 32) (v : ℕ) : PhysMem := fun a =>
  if (a - adr).toNat < 4 then (beBytes 4 v).getD (a - adr).toNat 0 else m a

/-- `*((long *)adr) += off` -/
def bump (off : BitVec 32) (m : PhysMem) (adr : BitVec 32) : PhysMem :=
  storeLong m adr ((loadLong m adr + off.toNat) % 2 ^ 32)

def sizeofLong : ℕ := 4

/-- The loop over the bytes of the table, after the longword at `adr` has been relocated.  `buf`
    is what is left of the last load; a `read` that returns nothing is an error. -/
def relocateLoop (off : BitVec 32) :
    List (List UInt8) → List UInt8 → BitVec 32 → PhysMem → ℤ × PhysMem
  | loads, c :: buf, adr, m =>
    if c = 1 then relocateLoop off loads buf (adr + 254) m
    else if c = 0 then (0, m)
    else if c.toNat % 2 = 1 then (-1, m)
    else
      let adr := adr + BitVec.ofNat 32 c.toNat
      relocateLoop off loads buf adr (bump off m adr)
  | (c :: buf) :: loads, [], adr, m => relocateLoop off loads (c :: buf) adr m
  | [] :: _, [], _, m => (-1, m)
  | [], [], _, m => (-1, m)
termination_by loads buf => (loads.length, buf.length)

/-- `relocate`: the program has been loaded at `off`; 0 is success and -1 an error. -/
def relocate (off : BitVec 32) (loads : List (List UInt8)) (m : PhysMem) : ℤ × PhysMem :=
  let buf := loads.headD []
  if buf.length < sizeofLong then (-1, m)
  else
    let first := beVal (sub buf 0 sizeofLong)
    if first = 0 then (0, m)
    else
      let adr := off + BitVec.ofNat 32 first
      relocateLoop off loads.tail (buf.drop sizeofLong) adr (bump off m adr)

/-! ## §2 The Image in Memory -/

/-- The `n` bytes of memory from `off` on. -/
def window (m : PhysMem) (off : BitVec 32) (n : ℕ) : List UInt8 :=
  (List.range n).map fun k => m (off + BitVec.ofNat 32 k)

@[simp] theorem length_window (m : PhysMem) (off : BitVec 32) (n : ℕ) :
    (window m off n).length = n := by
  simp [window]

theorem getElem?_window (m : PhysMem) (off : BitVec 32) (n k : ℕ) :
    (window m off n)[k]? = if k < n then some (m (off + BitVec.ofNat 32 k)) else none := by
  unfold window
  split
  · next hk => simp [hk]
  · next hk => simp [List.getElem?_eq_none (show (List.range n).length ≤ k by simp; omega)]

variable {loads : List (List UInt8)} {off : BitVec 32} {m : PhysMem}

theorem loadLong_window {n p : ℕ} (h : p + 4 ≤ n) :
    loadLong m (off + BitVec.ofNat 32 p) = beVal (sub (window m off n) p 4) := by
  unfold loadLong
  congr 1
  apply List.ext_getElem?
  intro k
  rw [getElem?_sub, getElem?_window]
  split
  · next hk =>
    have hadd : off + BitVec.ofNat 32 p + BitVec.ofNat 32 k = off + BitVec.ofNat 32 (p + k) := by
      rw [BitVec.add_assoc, BitVec.ofNat_add]
    simp [hk, hadd, show p + k < n by omega]
  · next hk => simp [List.getElem?_eq_none (show (List.range 4).length ≤ k by simp; omega)]

/-- The distance of two addresses of the image is the distance of the offsets. -/
theorem toNat_sub_window (off : BitVec 32) {p k : ℕ} (hp : p < 2 ^ 32) (hk : k < 2 ^ 32) :
    (off + BitVec.ofNat 32 k - (off + BitVec.ofNat 32 p)).toNat =
      if p ≤ k then k - p else 2 ^ 32 + k - p := by
  simp only [BitVec.toNat_sub, BitVec.toNat_add, BitVec.toNat_ofNat]
  have hoff := off.isLt
  split <;> omega

/-- **A longword changed in memory is a longword changed in the image.** -/
theorem window_bump {n p : ℕ} (h : p + 4 ≤ n) (hn : n ≤ 2 ^ 32) :
    window (bump off m (off + BitVec.ofNat 32 p)) off n =
      addLong off.toNat (window m off n) p := by
  apply List.ext_getElem?
  intro k
  rw [addLong, getElem?_patch (by rw [length_beBytes, length_window]; exact h), length_beBytes,
    getElem?_window, getElem?_window]
  split
  · next hk =>
    unfold bump storeLong
    rw [loadLong_window h, toNat_sub_window off (by omega) (by omega)]
    split
    · next hle =>
      split
      · next hlt =>
        rw [if_pos (by omega), List.getD_eq_getElem?_getD,
          List.getElem?_eq_getElem (show k - p < (beBytes 4 _).length by simp; omega)]
        rfl
      · next hge => rw [if_neg (by omega)]
    · next hgt =>
      rw [if_neg (by omega), if_neg (by omega)]
  · next hk => rw [if_neg (by omega)]

/-- Memory outside the image is not touched. -/
theorem bump_outside {off a : BitVec 32} {n p : ℕ} (h : p + 4 ≤ n)
    (ha : n ≤ (a - off).toNat) : bump off m (off + BitVec.ofNat 32 p) a = m a := by
  have hdist : ¬(a - (off + BitVec.ofNat 32 p)).toNat < 4 := by
    simp only [BitVec.toNat_sub, BitVec.toNat_add, BitVec.toNat_ofNat] at ha ⊢
    have hoff := off.isLt
    have hlt := a.isLt
    omega
  unfold bump storeLong
  rw [if_neg hdist]

/-! ## §3 The Decoder and the Format -/

/-- One byte of the table, when the loop does on the rest what the format says. -/
theorem relocateLoop_byte {n : ℕ} (hn : n ≤ 2 ^ 32)
    {c : UInt8} {buf : List UInt8} {p : ℕ} {os : List ℕ}
    (hdec : decode p (c :: buf ++ loads.flatten) = some os) (hin : ∀ o ∈ os, o + 4 ≤ n)
    (m : PhysMem)
    (hrest : ∀ {p os}, decode p (buf ++ loads.flatten) = some os → (∀ o ∈ os, o + 4 ≤ n) →
      ∀ m, ∃ m', relocateLoop off loads buf (off + BitVec.ofNat 32 p) m = (0, m') ∧
        window m' off n = os.foldl (addLong off.toNat) (window m off n) ∧
        ∀ a, n ≤ (a - off).toNat → m' a = m a) :
    ∃ m', relocateLoop off loads (c :: buf) (off + BitVec.ofNat 32 p) m = (0, m') ∧
      window m' off n = os.foldl (addLong off.toNat) (window m off n) ∧
      ∀ a, n ≤ (a - off).toNat → m' a = m a := by
  have hadd : ∀ d, off + BitVec.ofNat 32 p + BitVec.ofNat 32 d = off + BitVec.ofNat 32 (p + d) := by
    intro d
    rw [BitVec.add_assoc, BitVec.ofNat_add]
  rw [List.cons_append, decode] at hdec
  rw [relocateLoop]
  split at hdec
  · next hone =>
    rw [if_pos hone, show (254 : BitVec 32) = BitVec.ofNat 32 254 from rfl, hadd]
    exact hrest hdec hin m
  next hone =>
    rw [if_neg hone]
    split at hdec
    · next hzero =>
      rw [if_pos hzero]
      cases hdec
      exact ⟨m, rfl, rfl, fun _ _ => rfl⟩
    next hzero =>
      rw [if_neg hzero]
      split at hdec
      · cases hdec
      next hodd =>
        obtain ⟨os', htail, rfl⟩ := Option.map_eq_some_iff.mp hdec
        have ho := hin _ (List.mem_cons_self ..)
        obtain ⟨m', hrun, hwin, hout⟩ := hrest htail
          (fun o' h' => hin o' (List.mem_cons_of_mem _ h'))
          (bump off m (off + BitVec.ofNat 32 (p + c.toNat)))
        rw [if_neg hodd]
        simp only [hadd]
        refine ⟨m', hrun, ?_, ?_⟩
        · rw [hwin, window_bump ho hn]
          rfl
        · intro a ha
          rw [hout a ha, bump_outside ho ha]

/-- **However the table is split**, the memory manager goes through the offsets that the format
    gives it. -/
theorem relocateLoop_decode {n : ℕ} (hn : n ≤ 2 ^ 32)
    {buf : List UInt8} (hloads : ∀ l ∈ loads, l ≠ []) {p : ℕ}
    {os : List ℕ} (hdec : decode p (buf ++ loads.flatten) = some os)
    (hin : ∀ o ∈ os, o + 4 ≤ n) (m : PhysMem) :
    ∃ m', relocateLoop off loads buf (off + BitVec.ofNat 32 p) m = (0, m') ∧
      window m' off n = os.foldl (addLong off.toNat) (window m off n) ∧
      ∀ a, n ≤ (a - off).toNat → m' a = m a := by
  -- the induction is that of the loop: load after load, and byte after byte of a load
  induction loads generalizing buf p os m with
  | nil =>
    induction buf generalizing p os m with
    | nil => cases hdec
    | cons c buf ih => exact relocateLoop_byte hn hdec hin m fun hdec' hin' m' => ih hdec' hin' m'
  | cons l loads ihLoads =>
    induction buf generalizing p os m with
    | nil =>
      cases l with
      | nil => exact absurd rfl (hloads [] (List.mem_cons_self ..))
      | cons c l =>
        rw [relocateLoop]
        exact ihLoads (fun l' h => hloads l' (List.mem_cons_of_mem _ h)) hdec hin m
    | cons c buf ih => exact relocateLoop_byte hn hdec hin m fun hdec' hin' m' => ih hdec' hin' m'

theorem relocate_cons {l : List UInt8} (h : 4 ≤ l.length) : relocate off (l :: loads) m =
      if beVal (sub l 0 4) = 0 then (0, m)
      else relocateLoop off loads (l.drop 4) (off + BitVec.ofNat 32 (beVal (sub l 0 4)))
        (bump off m (off + BitVec.ofNat 32 (beVal (sub l 0 4)))) :=
  if_neg (Nat.not_lt.mpr h)

/-- **The memory manager relocates exactly the offsets of the set**, for every split of the table
    into loads of which the first holds the leading longword. -/
theorem relocate_table_loads (prog : Program) (off : BitVec 32)
    (htable : loads.flatten = relocTable prog.relocs) (hloads : ∀ l ∈ loads, l ≠ [])
    (hfirst : sizeofLong ≤ (loads.headD []).length)
    (himage : window m off prog.image.length = prog.image) :
    ∃ m', relocate off loads m = (0, m') ∧
      window m' off prog.image.length = relocated off.toNat prog.relocs prog.image ∧
      ∀ a, prog.image.length ≤ (a - off).toNat → m' a = m a := by
  have hfits := prog.fits
  have heq := relocTable_eq prog.relocs prog.nonzero
  have hsorted := prog.sorted
  have hmem : ∀ o ∈ prog.relocs.sort, o ∈ prog.relocs := fun o => (Finset.mem_sort _).mp
  cases loads with
  | nil => exact absurd hfirst (by decide)
  | cons l loads =>
    have hfirst : 4 ≤ l.length := hfirst
    have hhead : sub l 0 4 = sub (relocTable prog.relocs) 0 4 := by
      rw [← htable, List.flatten_cons, sub, sub, List.drop_zero, List.drop_zero,
        List.take_append_of_le_length hfirst]
    have hrest : l.drop 4 ++ loads.flatten = (relocTable prog.relocs).drop 4 := by
      rw [← htable, List.flatten_cons, List.drop_append_of_le_length hfirst]
    rw [relocate_cons hfirst, hhead]
    unfold relocated
    cases h : prog.relocs.sort with
    | nil =>
      simp only [h] at heq
      rw [heq]
      exact ⟨m, rfl, himage, fun _ _ => rfl⟩
    | cons o os =>
      rw [h] at hsorted hmem
      simp only [h] at heq
      have ho := prog.inside o (hmem o (List.mem_cons_self ..))
      have hne := prog.nonzero o (hmem o (List.mem_cons_self ..))
      have hval : beVal (sub (relocTable prog.relocs) 0 4) = o := by
        rw [heq, sub, List.drop_zero, List.take_left' (length_beBytes 4 o), beVal_beBytes,
          Nat.mod_eq_of_lt (by omega)]
      have hdec : decode o (l.drop 4 ++ loads.flatten) = some os := by
        rw [hrest, heq, List.drop_left' (length_beBytes 4 o)]
        exact decode_chain hsorted (fun o' h' => prog.even o' (hmem o' h')) []
      rw [hval, if_neg hne]
      obtain ⟨m', hrun, hwin, hout⟩ := @relocateLoop_decode loads off
        prog.image.length (by omega) (l.drop 4) (fun l' h' => hloads l' (List.mem_cons_of_mem _ h')) o os hdec
        (fun o' h' => prog.inside o' (hmem o' (List.mem_cons_of_mem _ h')))
        (bump off m (off + BitVec.ofNat 32 o))
      refine ⟨m', hrun, ?_, ?_⟩
      · rw [hwin, window_bump ho (by omega), himage]
        rfl
      · intro a ha
        rw [hout a ha, bump_outside ho ha]

/-! ## §4 Both Decoders -/

/-- **The table of `elf2mnx.py`, decoded twice.**  `build.py`, and the memory manager for every
    split of the table into loads of which the first holds the leading longword, succeed and add
    the load base to the longwords at the offsets of the set, each once and in ascending order;
    every other byte stays as it was. -/
theorem relocation_codec (prog : Program) (base : ℕ) (off : BitVec 32)
    {loads : List (List UInt8)} (htable : loads.flatten = relocTable prog.relocs)
    (hloads : ∀ l ∈ loads, l ≠ []) (hfirst : sizeofLong ≤ (loads.headD []).length) {m : PhysMem}
    (himage : window m off prog.image.length = prog.image) :
    Tools.relocate prog.exe prog.textSize prog.dataSize 0 base =
        .ok (relocated base prog.relocs prog.image) ∧
      (∃ m', relocate off loads m = (0, m') ∧
        window m' off prog.image.length = relocated off.toNat prog.relocs prog.image ∧
        ∀ a, prog.image.length ≤ (a - off).toNat → m' a = m a) ∧
      ∀ base k, (∀ o ∈ prog.relocs, k < o ∨ o + 4 ≤ k) →
        (relocated base prog.relocs prog.image)[k]? = prog.image[k]? := by
  have hmem : ∀ o ∈ prog.relocs.sort, o ∈ prog.relocs := fun o => (Finset.mem_sort _).mp
  refine ⟨relocate_table prog base, relocate_table_loads prog off htable hloads hfirst himage, ?_⟩
  intro base k hk
  apply getElem?_foldl_addLong
  · exact fun o h => prog.inside o (hmem o h)
  · exact fun o h => hk o (hmem o h)

/-- Six bytes with one longword to relocate. -/
def oneLong : Program where
  image := List.replicate 6 0
  textSize := 6
  dataSize := 0
  bssSize := 0
  total := 6
  relocs := {2}
  length_image := rfl
  fits := by decide
  even := by decide
  nonzero := by decide
  inside := by decide

theorem relocTable_oneLong : relocTable oneLong.relocs = [0, 0, 0, 2, 0] := by
  rw [relocTable_eq _ oneLong.nonzero]
  simp only [oneLong, Finset.sort_singleton]
  decide

/-- Three longwords, the second 600 bytes after the first. -/
def threeLongs : Program where
  image := List.replicate 620 0
  textSize := 620
  dataSize := 0
  bssSize := 0
  total := 620
  relocs := {2, 602, 612}
  length_image := List.length_replicate
  fits := by
    rw [List.length_replicate]
    decide
  even := by decide
  nonzero := by decide
  inside := by
    rw [List.length_replicate]
    decide

/-- The codec at a table in three loads; the distance of 600 bytes takes two escapes, and the first
load ends between them. -/
theorem relocation_codec_threeLongs :
    [[0, 0, 0, 2, 1], [1, 92], [(10 : UInt8), 0]].flatten = relocTable threeLongs.relocs ∧
    Tools.relocate threeLongs.exe 620 0 0 512 =
      .ok (relocated 512 threeLongs.relocs threeLongs.image) ∧
    ∃ m', relocate 256 [[0, 0, 0, 2, 1], [1, 92], [10, 0]] (fun _ => 0) = (0, m') ∧
      window m' 256 threeLongs.image.length = relocated 256 threeLongs.relocs threeLongs.image ∧
      ∀ a : BitVec 32, threeLongs.image.length ≤ (a - 256).toNat → m' a = 0 := by
  have htable : relocTable threeLongs.relocs = [0, 0, 0, 2, 1, 1, 92, 10, 0] := by
    rw [relocTable_eq _ threeLongs.nonzero]
    simp only [threeLongs]
    have hsort : ({2, 602, 612} : Finset ℕ).sort = [2, 602, 612] := by
      rw [Finset.sort_insert _ (by decide) (by decide), Finset.sort_insert _ (by decide) (by decide),
        Finset.sort_singleton]
    rw [hsort]
    decide +kernel
  have himage : window (fun _ => 0) 256 threeLongs.image.length = threeLongs.image := by
    rw [window, List.map_const', List.length_range, show threeLongs.image.length = 620 from List.length_replicate]
    rfl
  have hcodec := @relocation_codec threeLongs 512 256 [[0, 0, 0, 2, 1], [1, 92], [10, 0]] htable.symm
    (by decide) (by decide) (fun _ => 0) himage
  exact ⟨htable.symm, hcodec.1, hcodec.2.1⟩

/-- **A first load without the whole leading longword is refused**: the table is good, split in
    two, and the program is left as it was. -/
theorem short_first_load_refused :
    [[0, 0], [(0 : UInt8), 2, 0]].flatten = relocTable oneLong.relocs ∧
    (∀ l ∈ [[0, 0], [(0 : UInt8), 2, 0]], l ≠ []) ∧
    window (fun _ => 0) 256 oneLong.image.length = oneLong.image ∧
    (relocate 256 [[0, 0], [0, 2, 0]] (fun _ => 0)).1 = -1 :=
  ⟨relocTable_oneLong.symm, by decide, by decide, by decide⟩

end LisaMinix.Mm
