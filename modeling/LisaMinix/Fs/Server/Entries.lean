import LisaMinix.Fs.Server.NewBlocks
import LisaMinix.Fs.Server.Path
import LisaMinix.Library.Slots
import Mathlib.Data.List.GetD

/-!
# Entries of a Directory

The slots of a directory as its blocks hold them.  A slot is free if its inode number is 0; a name is
compared up to its first zero byte.

- `key`, `sameName_iff`: what two names have in common if they are the same.
- `slotOf`: what a slot of a block holds, and how it changes when an entry is made or erased.
- `DirOk`: the directory is a map, it has no holes, and its size covers every entry.
- `dirOk_write`, `dirOk_grow`: one slot changes.
-/

namespace LisaMinix.Fs.Server

open LisaMinix.Library Function

/-! ## §1 Names -/

/-- The name up to its first zero byte. -/
def key (name : Name) : List UInt8 := name.takeWhile (· ≠ 0)

theorem sameName_iff {a b : Name} (hlen : a.length = b.length) :
    sameName a b = true ↔ key a = key b := by
  induction a generalizing b with
  | nil =>
    cases b with
    | nil => exact iff_of_true rfl rfl
    | cons y ys => simp at hlen
  | cons x xs ih =>
    cases b with
    | nil => simp at hlen
    | cons y ys =>
      have hrest := ih (b := ys) (by simpa using hlen)
      unfold key at hrest ⊢
      rw [sameName, List.takeWhile_cons, List.takeWhile_cons]
      rcases eq_or_ne x y with rfl | hne
      · rcases eq_or_ne x 0 with rfl | hx
        · simp
        · simp [hx, hrest]
      · by_cases hx : x = 0
        · subst hx
          simp [hne, hne.symm]
        · by_cases hy : y = 0
          · subst hy
            simp [hne]
          · simp [hne, hx, hy]

theorem key_eq_nil {name : Name} : key name = [] ↔ name.headD 0 = 0 := by
  cases name with
  | nil => simp [key]
  | cons x xs => simp [key, List.takeWhile_cons]

theorem length_dName (data : Block) (k : ℕ) : (dName data k).length = nameMax := by
  simp [dName]

theorem getElem_dName (data : Block) (k i : ℕ) (h : i < (dName data k).length) :
    (dName data k)[i] = data (dirEntrySize * k + 2 + i) := by
  simp [dName]

/-! ## §2 Slots of a Block -/

/-- The name and the inode number in a slot that is in use. -/
def slotOf (data : Block) (k : ℕ) : Option (List UInt8 × ℕ) :=
  if dInum data k = 0 then none else some (key (dName data k), dInum data k)

/-- An entry that is erased, with its number at the end of the name. -/
def erasedEntry (data : Block) (k : ℕ) : Block :=
  putWord (putWord data (dirEntrySize * k + 2 + nameMax - 2) (dInum data k)) (dirEntrySize * k) 0

def enteredEntry (data : Block) (string : Name) (numb k : ℕ) : Block :=
  putWord (copyBytes data (dirEntrySize * k + 2) (fun i => string.getD i 0) 0 nameMax)
    (dirEntrySize * k) numb

section

variable {data data' : Block} {j k : ℕ}

theorem slotOf_eq_none : slotOf data k = none ↔ dInum data k = 0 := by
  unfold slotOf
  split
  next h => simp [h]
  next h => simp [h]

theorem slotOf_eq_some {name : List UInt8} {numb : ℕ} :
    slotOf data k = some (name, numb) ↔
      numb ≠ 0 ∧ key (dName data k) = name ∧ dInum data k = numb := by
  unfold slotOf
  split
  next h =>
    rw [h]
    simp only [reduceCtorEq, false_iff]
    rintro ⟨hne, -, rfl⟩
    exact hne rfl
  next h =>
    rw [Option.some_inj, Prod.mk.injEq]
    constructor
    · rintro ⟨rfl, rfl⟩
      exact ⟨h, rfl, rfl⟩
    · rintro ⟨-, rfl, rfl⟩
      exact ⟨rfl, rfl⟩

/-- A slot depends on its 16 bytes. -/
theorem slotOf_congr (h : ∀ i, i < 16 → data' (16 * j + i) = data (16 * j + i)) :
    slotOf data' j = slotOf data j := by
  have hinum : dInum data' j = dInum data j := by
    unfold dInum getWord getByte dirEntrySize
    rw [h 1 (by decide), show 16 * j = 16 * j + 0 from rfl, h 0 (by decide)]
  have hname : dName data' j = dName data j := by
    unfold dName dirEntrySize
    apply List.map_congr_left
    intro i hi
    rw [Nat.add_assoc]
    apply h
    have := List.mem_range.mp hi
    unfold nameMax at this
    omega
  unfold slotOf
  rw [hinum, hname]

theorem putWord_other {b : Block} {p q v : ℕ} (h : q < p ∨ p + 1 < q) : putWord b p v q = b q := by
  unfold putWord putByte
  rw [update_of_ne (by omega), update_of_ne (by omega)]

theorem getWord_putWord_self (b : Block) {p v : ℕ} (hv : v < 65536) : getWord (putWord b p v) p = v := by
  rw [getWord_putWord b v (.inl rfl), if_pos rfl, Nat.mod_eq_of_lt hv]

theorem slotOf_erased : slotOf (erasedEntry data k) j = if j = k then none else slotOf data j := by
  split
  next h =>
    subst h
    rw [slotOf_eq_none]
    exact getWord_putWord_self _ (by decide)
  next hne =>
    apply slotOf_congr
    intro i hi
    unfold erasedEntry dirEntrySize nameMax
    rw [putWord_other (by omega), putWord_other (by omega)]

theorem slotOf_entered {string : Name} {numb : ℕ} (hlen : string.length = nameMax) (hpos : numb ≠ 0)
    (hnumb : numb < 65536) : slotOf (enteredEntry data string numb k) j =
      if j = k then some (key string, numb) else slotOf data j := by
  split
  next h =>
    subst h
    rw [slotOf_eq_some]
    refine ⟨hpos, ?_, getWord_putWord_self _ hnumb⟩
    congr 1
    apply List.ext_getElem
    · rw [length_dName, hlen]
    · intro i hi hi'
      have hlt : i < 14 := by rwa [length_dName] at hi
      rw [getElem_dName]
      unfold enteredEntry dirEntrySize
      rw [putWord_other (by omega), copyBytes, if_pos ⟨by omega, by unfold nameMax; omega⟩]
      rw [show 0 + (16 * j + 2 + i - (16 * j + 2)) = i by omega]
      exact List.getD_eq_getElem string 0 hi'
  next hne =>
    apply slotOf_congr
    intro i hi
    unfold enteredEntry dirEntrySize
    rw [putWord_other (by omega), copyBytes, if_neg]
    unfold nameMax
    omega

end

/-! ## §3 Directories -/

/-- Slot `n` of a directory, also beyond its end. -/
def dirSlot (x : Super) (v : FileView) (n : ℕ) : Option (List UInt8 × ℕ) :=
  slotOf (v.blocks (v.block x (n / nrDirEntries))) (n % nrDirEntries)

/-- The entries of a directory of that many slots. -/
def dirTable (x : Super) (v : FileView) (slots : ℕ) : Slots (List UInt8) ℕ :=
  fun n => if n < slots then dirSlot x v n else none

/-- A directory: a map without holes, whose entries are all before its end.  The number of slots is
    16 bits wide. -/
structure DirOk (x : Super) (v : FileView) (slots : ℕ) : Prop where
  ok : v.Ok x
  most : slots < 65536
  whole : ∀ m, m * nrDirEntries < slots → v.block x m ≠ 0
  covered : ∀ n, n / nrDirEntries * nrDirEntries < slots → slots ≤ n → dirSlot x v n = none
  functional : Functional (dirTable x v slots)

section

variable {x : Super} {v v' : FileView} {slots m k : ℕ}

theorem dirSlot_congr {n : ℕ} (hblock : v'.block x (n / nrDirEntries) = v.block x (n / nrDirEntries))
    (hdata : v'.blocks (v.block x (n / nrDirEntries)) = v.blocks (v.block x (n / nrDirEntries))) :
    dirSlot x v' n = dirSlot x v n := by
  rw [dirSlot, hblock, hdata, dirSlot]

/-- One slot of block `m` is written. -/
theorem dirSlot_write {n : ℕ} {data : Block} {e : Option (List UInt8 × ℕ)} (hok : v.Ok x)
    (hg : Geometry x) (hm : v.block x m ≠ 0) (hk : k < nrDirEntries)
    (hslot : ∀ j, slotOf data j = if j = k then e else slotOf (v.blocks (v.block x m)) j)
    (hn : v.block x (n / nrDirEntries) ≠ 0) :
    dirSlot x (v.writeBlock x m data) n =
      if n = m * nrDirEntries + k then e else dirSlot x v n := by
  obtain ⟨-, hblock, hself, hother⟩ := writeBlock_spec hok hg hm data
  unfold nrDirEntries at *
  by_cases hmn : n / 64 = m
  · have hif : n % 64 = k ↔ n = m * 64 + k := by omega
    unfold dirSlot nrDirEntries
    rw [hblock, hmn, hself, hslot]
    simp only [hif]
  · have hne : n ≠ m * 64 + k := by omega
    rw [if_neg hne]
    apply dirSlot_congr
    · exact hblock _
    · exact hother _ hn hmn

/-- How the number of slots changes when slot `n` is written: it may be the next one. -/
def Extends (slots n slots' : ℕ) : Prop :=
  slots' = slots ∧ n < slots ∨ slots' = slots + 1 ∧ n = slots ∧ slots' < 65536

theorem dirOk_write {slots' : ℕ} {data : Block} {e : Option (List UInt8 × ℕ)} (hd : DirOk x v slots)
    (hg : Geometry x) (hm : m * nrDirEntries < slots) (hk : k < nrDirEntries)
    (hslot : ∀ j, slotOf data j = if j = k then e else slotOf (v.blocks (v.block x m)) j)
    (hslots : Extends slots (m * nrDirEntries + k) slots')
    (hfunctional : Functional (update (dirTable x v slots) (m * nrDirEntries + k) e)) :
    DirOk x (v.writeBlock x m data) slots' ∧ dirTable x (v.writeBlock x m data) slots' =
      update (dirTable x v slots) (m * nrDirEntries + k) e := by
  obtain ⟨hok', hblock, -, -⟩ := writeBlock_spec hd.ok hg (hd.whole m hm) data
  have hwrite : ∀ n, n / nrDirEntries * nrDirEntries < slots →
      dirSlot x (v.writeBlock x m data) n = if n = m * nrDirEntries + k then e else dirSlot x v n :=
    fun n hn => dirSlot_write hd.ok hg (hd.whole m hm) hk hslot (hd.whole _ hn)
  have hmost := hd.most
  unfold Extends at hslots
  unfold nrDirEntries at *
  have htable : dirTable x (v.writeBlock x m data) slots' =
      update (dirTable x v slots) (m * 64 + k) e := by
    funext n
    unfold dirTable
    rcases eq_or_ne n (m * 64 + k) with rfl | hne
    · rw [update_self, if_pos (by omega), hwrite _ (by omega), if_pos rfl]
    · rw [update_of_ne hne]
      by_cases hn : n < slots
      · rw [if_pos (by omega), if_pos hn, hwrite n (by omega), if_neg hne]
      · rw [if_neg (by omega), if_neg hn]
  refine ⟨⟨hok', by omega, fun m' hm' => ?_, fun n hn hge => ?_, by rw [htable]; exact hfunctional⟩,
    htable⟩
  · rw [hblock]
    exact hd.whole m' (by unfold nrDirEntries at *; omega)
  · unfold nrDirEntries at hn
    rw [hwrite n (by omega), if_neg (by omega)]
    exact hd.covered n (by unfold nrDirEntries; omega) (by omega)

/-- The directory, all of whose blocks are full, gets one more. -/
theorem dirOk_grow {v₁ : FileView} (data : Block) {e : List UInt8 × ℕ} (hd : DirOk x v slots)
    (hg : Geometry x) (hslots : slots = m * nrDirEntries) (hmost : slots + 1 < 65536)
    (hgrown : Grown x m v v₁) (hslot : ∀ j, slotOf data j = if j = 0 then some e else none)
    (hfunctional : Functional (update (dirTable x v slots) slots (some e))) :
    DirOk x (v₁.writeBlock x m data) (slots + 1) ∧ dirTable x (v₁.writeBlock x m data) (slots + 1) =
      update (dirTable x v slots) slots (some e) := by
  obtain ⟨hok', hblock, hself, hother⟩ := writeBlock_spec hgrown.ok hg hgrown.block data
  unfold nrDirEntries at hslots
  -- the old slots
  have hold : ∀ n, n < slots → dirSlot x (v₁.writeBlock x m data) n = dirSlot x v n := by
    intro n hn
    have hwhole := hd.whole (n / nrDirEntries) (by unfold nrDirEntries; omega)
    have hsame := hgrown.same _ hwhole
    apply dirSlot_congr
    · rw [hblock, hsame]
    · have hkept := hother (n / nrDirEntries) (by rw [hsame]; exact hwhole)
        (by unfold nrDirEntries; omega)
      rw [hsame] at hkept
      rw [hkept, hgrown.blocks _ hwhole]
  -- the slots of the new block
  have hnew : ∀ n, n / 64 = m → dirSlot x (v₁.writeBlock x m data) n =
      if n = slots then some e else none := by
    intro n hn
    have hif : n % 64 = 0 ↔ n = slots := by omega
    unfold dirSlot nrDirEntries
    rw [hblock, hn, hself, hslot]
    simp only [hif]
  have htable : dirTable x (v₁.writeBlock x m data) (slots + 1) =
      update (dirTable x v slots) slots (some e) := by
    funext n
    unfold dirTable
    rcases eq_or_ne n slots with rfl | hne
    · rw [update_self, if_pos (Nat.lt_succ_self n), hnew n (by omega), if_pos rfl]
    · rw [update_of_ne hne]
      by_cases hn : n < slots
      · rw [if_pos (by omega), if_pos hn, hold n hn]
      · rw [if_neg (by omega), if_neg hn]
  refine ⟨⟨hok', hmost, fun m' hm' => ?_, fun n hn hge => ?_, by rw [htable]; exact hfunctional⟩,
    htable⟩
  · rw [hblock]
    unfold nrDirEntries at hm'
    rcases eq_or_ne m' m with rfl | hne
    · exact hgrown.block
    · have hwhole := hd.whole m' (by unfold nrDirEntries; omega)
      rw [hgrown.same m' hwhole]
      exact hwhole
  · unfold nrDirEntries at hn
    rw [hnew n (by omega), if_neg (by omega)]

/-- Nothing but indirect blocks have been attached. -/
theorem dirOk_kept (hd : DirOk x v slots) (hg : Geometry x) (h : Kept x v v') :
    DirOk x v' slots ∧ dirTable x v' slots = dirTable x v slots := by
  have hblock : ∀ m, v'.block x m = v.block x m := fun m => block_same (h.data _)
  have hslot : ∀ n, n / nrDirEntries * nrDirEntries < slots → dirSlot x v' n = dirSlot x v n :=
    fun n hn => dirSlot_congr (hblock _) (block_kept hd.ok hg h.kept (hd.whole _ hn))
  have htable : dirTable x v' slots = dirTable x v slots := by
    funext n
    unfold dirTable
    split
    next hn => exact hslot n (lt_of_le_of_lt (Nat.div_mul_le_self ..) hn)
    next => rfl
  refine ⟨⟨h.ok, hd.most, fun m hm => ?_, fun n hn hge => ?_, by rw [htable]; exact hd.functional⟩,
    htable⟩
  · rw [hblock]
    exact hd.whole m hm
  · rw [hslot n hn]
    exact hd.covered n hn hge

end

end LisaMinix.Fs.Server
