import LisaMinix.Fs.Server.Entries

/-!
# The Search of a Directory

The loops of `search_dir`, and what is done with the slot that they find.

- `Hits`: the names that a search stops at.
- `searchEntries_spec`, `searchBlocksOf_surely`: what the search of a block and of all blocks finds.
- `useEntry_surely`, `enterEntry_surely`: an entry is looked up, erased or made.
-/

namespace LisaMinix.Fs.Server

open LisaMinix.Library Function

/-! ## §1 The Search of a Block -/

/-- The key is one that a search for `string` stops at: any but `.` and `..` if `string` is empty. -/
def Hits (string : Name) (k : List UInt8) : Prop :=
  if key string = [] then k ≠ key dot ∧ k ≠ key dotDot else k = key string

theorem hits_iff {string name : Name} (hstring : string.length = nameMax) (hname : name.length = nameMax) :
    (if string.headD 0 = 0 then !sameName name dot && !sameName name dotDot
      else sameName name string) = true ↔ Hits string (key name) := by
  have hdot : sameName name dot = true ↔ key name = key dot := sameName_iff hname
  have hdotDot : sameName name dotDot = true ↔ key name = key dotDot := sameName_iff hname
  unfold Hits
  by_cases hempty : string.headD 0 = 0
  · rw [if_pos hempty, if_pos (key_eq_nil.mpr hempty), Bool.and_eq_true, Bool.not_eq_true',
      Bool.not_eq_true', ← Bool.not_eq_true, ← Bool.not_eq_true, hdot, hdotDot]
  · rw [if_neg hempty, if_neg (key_eq_nil.not.mpr hempty)]
    exact sameName_iff (hname.trans hstring.symm)

/-- What the search of a block from entry `k` on comes to; slot 0 of the block is slot `base` of the
    directory. -/
def FoundIn (data : Block) (string : Name) (op : DirOp) (slots base k : ℕ) : Found × ℕ → Prop
  | (.matched j, _) => op.isEnter = false ∧ j < nrDirEntries ∧
      ∃ name numb, slotOf data j = some (name, numb) ∧ Hits string name
  | (.slot j, newSlots) => op.isEnter = true ∧ j < nrDirEntries ∧ slotOf data j = none ∧
      newSlots = toShort (base + j + 1) ∧ ∀ i, k ≤ i → i < j → slotOf data i ≠ none
  | (.nothing, newSlots) => (base + nrDirEntries ≤ slots → newSlots = toShort (base + nrDirEntries)) ∧
      ∀ i, k ≤ i → i < nrDirEntries →
        if op.isEnter then slotOf data i ≠ none
        else ∀ name numb, slotOf data i = some (name, numb) → ¬Hits string name

variable {string : Name}

theorem FoundIn.step {data : Block} {op : DirOp} {slots base k : ℕ} {f : Found × ℕ}
    (h : FoundIn data string op slots base (k + 1) f)
    (hk : if op.isEnter then slotOf data k ≠ none
      else ∀ name numb, slotOf data k = some (name, numb) → ¬Hits string name) :
    FoundIn data string op slots base k f := by
  obtain ⟨found, newSlots⟩ := f
  cases found with
  | matched j => exact h
  | slot j =>
    obtain ⟨henter, hj, hfree, hnew, hused⟩ := h
    rw [if_pos henter] at hk
    refine ⟨henter, hj, hfree, hnew, fun i hi hij => ?_⟩
    rcases eq_or_lt_of_le hi with rfl | hlt
    · exact hk
    · exact hused i hlt hij
  | nothing =>
    refine ⟨h.1, fun i hi hlt => ?_⟩
    rcases eq_or_lt_of_le hi with rfl | hlt'
    · exact hk
    · exact h.2 i hlt' hlt

/-- The inner loop of `search_dir`, from entry `k` on.  A slot past the end is free; slot 65535 is
    not seen to be past the end, since its count has become 0. -/
theorem searchEntries_spec {data : Block} (op : DirOp) (slots base : ℕ)
    (hstring : string.length = nameMax)
    (hcovered : ∀ j, j < nrDirEntries → slots ≤ base + j → slotOf data j = none) (n k : ℕ)
    (hk : k + n = nrDirEntries) :
    FoundIn data string op slots base k
      (searchEntries data string op slots n k (toShort (base + k))) := by
  induction n generalizing k with
  | zero =>
    refine ⟨fun _ => ?_, fun i hi hlt => ?_⟩
    · rw [show k = nrDirEntries from hk]
    · omega
  | succ n ih =>
    have hlt : k < nrDirEntries := by omega
    have hnext : toShort (toShort (base + k) + 1) = toShort (base + (k + 1)) := by
      unfold toShort
      omega
    have hhit := hits_iff hstring (length_dName data k)
    unfold searchEntries
    dsimp only
    rw [hnext]
    generalize (if string.headD 0 = 0 then
      !sameName (dName data k) dot && !sameName (dName data k) dotDot
        else sameName (dName data k) string) = hit at hhit ⊢
    split
    next hpast =>
      -- the slot is past the end, and so are those after it
      have hend : slots ≤ base + k := by
        unfold toShort at hpast
        omega
      have hfree := hcovered k hlt hend
      cases henter : op.isEnter with
      | true =>
        rw [if_pos rfl]
        exact ⟨henter, hlt, hfree, rfl, fun i hi hik => absurd hik (not_lt.mpr hi)⟩
      | false =>
        rw [if_neg (by simp)]
        refine ⟨fun hle => by omega, fun i hi hin => ?_⟩
        rw [if_neg (by simp [henter]), hcovered i hin (by omega)]
        simp
    next hnot =>
      split
      next hmatch =>
        obtain ⟨henter, hused, hhits⟩ := hmatch
        refine ⟨henter, hlt, _, _, slotOf_eq_some.mpr ⟨hused, rfl, rfl⟩, ?_⟩
        exact hhit.mp hhits
      next hmiss =>
        split
        next hslot =>
          refine ⟨hslot.1, hlt, slotOf_eq_none.mpr hslot.2, rfl, fun i hi hik => ?_⟩
          exact absurd hik (not_lt.mpr hi)
        next hnoSlot =>
          refine (ih (k + 1) (by omega)).step ?_
          cases henter : op.isEnter with
          | true =>
            rw [if_pos rfl]
            exact fun hfree => hnoSlot ⟨henter, slotOf_eq_none.mp hfree⟩
          | false =>
            rw [if_neg (by simp)]
            intro name numb hentry hhits
            obtain ⟨hne, rfl, rfl⟩ := slotOf_eq_some.mp hentry
            exact hmiss ⟨henter, hne, hhit.mpr hhits⟩

/-! ## §2 An Entry Is Used -/

/-- A directory of that many slots, whose device is mounted. -/
structure Directory (ldir : InodeId) (sp : SuperId) (slots : ℕ) (s : FsState) : Prop
    extends Mounted ldir sp s where
  isDir : (s.inodes ldir).isDir = true
  size : (s.inodes ldir).size = (slots * dirEntrySize : ℕ)
  dir : DirOk (s.supers sp) (viewOf ldir s) slots

/-- An inode is in the inode table, and in use. -/
def InUse (s : FsState) (dev numb : ℕ) : Prop :=
  ∃ i, 0 < (s.inodes i).count ∧ (s.inodes i).dev = dev ∧ (s.inodes i).num = numb

/-- The cache is changed and one block of the directory is written. -/
structure Rewrote (ldir : InodeId) (sp : SuperId) (m : ℕ) (data : Block) (s s' : FsState) : Prop where
  only : Only ldir s s'
  view : viewOf ldir s' = (viewOf ldir s).writeBlock (s.supers sp) m data

section

variable {ldir : InodeId} {sp : SuperId} {slots : ℕ} {s s₁ s₂ : FsState} {bp : BufId} {m k : ℕ}
  {data : Block}

theorem getInode_inUse {E : Panic → FsState → Prop} {dev numb : ℕ} (h : InUse s dev numb)
    {Q : Option InodeId → FsState → Prop}
    (hQ : ∀ rip, 0 < (s.inodes rip).count → Q (some rip) { s with
      inodes := update s.inodes rip
        { s.inodes rip with count := (s.inodes rip).count + 1 } }) :
    Wp E (getInode dev numb) s Q := by
  unfold getInode
  simp only [wp_bind, wp_get]
  cases hfound : firstId fun i =>
      decide (0 < (s.inodes i).count ∧ (s.inodes i).dev = dev ∧ (s.inodes i).num = numb) with
  | none =>
    obtain ⟨i, hi⟩ := h
    have hnot := List.find?_eq_none.mp hfound i (List.mem_finRange i)
    exact absurd (decide_eq_true hi) hnot
  | some rip =>
    have hrip := List.find?_some hfound
    exact hQ rip (of_decide_eq_true hrip).1

/-- An inode that is still in use after it has been put. -/
theorem putInode_inUse {E : Panic → FsState → Prop} {rip : InodeId} (h : (s.inodes rip).count - 1 ≠ 0)
    {Q : PUnit → FsState → Prop} (hQ : Q ⟨⟩ { s with
      inodes := update s.inodes rip
        { s.inodes rip with count := (s.inodes rip).count - 1 } }) :
    Wp E (putInode (some rip)) s Q := by
  unfold putInode putInodeId
  simp only [wp_bind, wp_modInode, wp_readInode, update_self]
  rw [if_neg h]
  exact hQ

/-- The block that is in use is written and given back. -/
theorem Held.rewrote {b : ℕ} {f : Block → Block} {inodes : InodeId → Inode}
    (hm : Mounted ldir sp s) (hheld : Held ldir b data bp s s₁)
    (hb : b = (viewOf ldir s).block (s.supers sp) m)
    (hinodes : ∃ dirt update, inodes = Function.update s.inodes ldir
      { s.inodes ldir with dirt := dirt, update := update }) {c : Cache}
    (hopened : Opened (s.inodes ldir).dev b (f data) bp c) (hlent : Lent none s₁.cache c)
    (hstored : Stored (s.inodes ldir).dev b (f data) s₁.cache c) :
    SurelyC (putBlock (.to bp) .directoryBlock) c fun _ c' =>
      Rewrote ldir sp m (f data) s { s with cache := c', inodes := inodes } := by
  refine (hopened.put hm.able (hheld.lent.trans hlent) rfl (by simp)).mono ?_
  rintro _ c' ⟨hable, hlent', hblocks⟩
  obtain ⟨dirt, update, rfl⟩ := hinodes
  have hupdate := ((hheld.stored.trans hstored).same hblocks).eq_update hm.driver.ne_noDev
  refine ⟨⟨?_, ?_, hable, hlent'⟩, ?_⟩
  · simp only [update_self]
  · simp only [update_self]
  · simp only [viewOf, FileView.writeBlock, update_self]
    rw [hupdate, hb]
    rfl

/-- A block that has been looked at is given back. -/
theorem Held.put {b : ℕ} (hm : Mounted ldir sp s) (hheld : Held ldir b data bp s s₁)
    (hdata : data = (viewOf ldir s).blocks b) :
    Surely (liftC (putBlock (.to bp) .directoryBlock)) s₁ fun _ s' => Calm s s' := by
  obtain ⟨c₁, rfl⟩ : ∃ c₁, s₁ = { s with cache := c₁ } := ⟨_, hheld.frame⟩
  rw [Surely, wp_liftC]
  refine Wp.mono (hheld.opened.put hm.able hheld.lent rfl (by simp)) ?_
  rintro _ c' ⟨hable, hlent, hblocks⟩
  refine ⟨rfl, hable, hlent, fun d b' hd => ?_⟩
  rw [hblocks d b' hd, hheld.stored d b' hd]
  split
  next he =>
    rw [he.1, he.2, hdata]
    rfl
  next => rfl

/-- `LOOK_UP` and `DELETE` of an entry that has been found. -/
theorem useEntry_surely {b : ℕ} {op : DirOp} (hm : Mounted ldir sp s) (hheld : Held ldir b data bp s s₁)
    (hb : b = (viewOf ldir s).block (s.supers sp) m) (hdata : data = (viewOf ldir s).blocks b)
    (huse : op = .delete → InUse s (s.inodes ldir).dev (dInum data k)) :
    Surely (useEntry ldir bp k op) s₁ fun r s' => r = dInum data k ∧
      if op = .delete then Rewrote ldir sp m (erasedEntry data k) s s' else Calm s s' := by
  obtain ⟨c₁, rfl⟩ : ∃ c₁, s₁ = { s with cache := c₁ } := ⟨_, hheld.frame⟩
  unfold useEntry Surely
  simp only [wp_bind, wp_liftC, wp_readBuf]
  rw [hheld.opened.inBuf]
  refine wp_ite (fun hdelete => ?_) fun hnot => ?_
  · simp only [wp_bind, wp_readInode]
    -- the inode is in use, so it stays as it is
    have hin : InUse { s with cache := c₁ } (s.inodes ldir).dev (dInum data k) := huse hdelete
    apply getInode_inUse hin
    intro rip hrip
    simp only [wp_liftC, wp_modInode]
    refine Wp.mono hheld.opened.dirty ?_
    rintro _ c₂ ⟨hopened, hlent, hstored⟩
    have hcount : ∀ inodes : InodeId → Inode, inodes = update (update s.inodes rip
        { s.inodes rip with count := (s.inodes rip).count + 1 }) ldir
        { update s.inodes rip
            { s.inodes rip with count := (s.inodes rip).count + 1 } ldir with update := mtime } →
        (inodes rip).count = (s.inodes rip).count + 1 ∧
          update inodes rip { inodes rip with count := (inodes rip).count - 1 } =
            update s.inodes ldir { s.inodes ldir with update := mtime } := by
      rintro inodes rfl
      rcases eq_or_ne rip ldir with rfl | hne
      · simp
      · refine ⟨by simp [hne], ?_⟩
        funext i
        rcases eq_or_ne i rip with rfl | hi
        · simp [hne]
        · rcases eq_or_ne i ldir with rfl | hi'
          · simp [hi]
          · simp [hi, hi']
    obtain ⟨hone, hback⟩ := hcount _ rfl
    apply putInode_inUse
    · rw [hone, add_sub_cancel_right]
      exact ne_of_gt hrip
    simp only [wp_pure]
    rw [hback]
    refine Wp.mono (hheld.rewrote (f := fun data => erasedEntry data k) hm hb
      ⟨(s.inodes ldir).dirt, mtime, rfl⟩ hopened hlent hstored) ?_
    intro _ c' hrewrote
    refine ⟨trivial, ?_⟩
    rw [if_pos hdelete]
    exact hrewrote
  · rw [wp_bind]
    refine (hheld.put hm hdata).mono fun _ s' hcalm => ?_
    refine ⟨rfl, ?_⟩
    rw [if_neg hnot]
    exact hcalm

/-- The size of the directory has been set. -/
def sized (ldir : InodeId) (size : ℤ) (s : FsState) : FsState :=
  { s with inodes := update s.inodes ldir { s.inodes ldir with size := size } }

theorem sized_inode (ldir : InodeId) (size : ℤ) (s : FsState) :
    (sized ldir size s).inodes ldir = { s.inodes ldir with size := size } := update_self ..

theorem viewOf_sized (ldir : InodeId) (size : ℤ) (s : FsState) :
    viewOf ldir (sized ldir size s) = viewOf ldir s := by
  simp only [viewOf, sized_inode]
  rfl

theorem Mounted.withSize (hm : Mounted ldir sp s) (size : ℤ) : Mounted ldir sp (sized ldir size s) where
  super := by
    rw [sized_inode]
    exact hm.super
  geometry := hm.geometry
  driver := by
    rw [sized_inode]
    exact hm.driver
  able := hm.able
  zmap := hm.zmap

/-- `ENTER` when a slot has been found. -/
theorem enterEntry_surely {b numb newSlots : ℕ} (hm : Mounted ldir sp s)
    (hheld : Held ldir b data bp s s₁) (hb : b = (viewOf ldir s).block (s.supers sp) m) :
    Surely (enterEntry ldir string numb bp k slots newSlots) s₁ fun r s' => r = OK ∧ ∃ s₂,
      Rewrote ldir sp m (enteredEntry data string numb k) s s₂ ∧
      s' = sized ldir (if slots < newSlots then (newSlots * dirEntrySize : ℕ)
        else (s.inodes ldir).size) s₂ := by
  obtain ⟨c₁, rfl⟩ : ∃ c₁, s₁ = { s with cache := c₁ } := ⟨_, hheld.frame⟩
  unfold enterEntry Surely
  simp only [wp_bind, wp_liftC, wp_modInode, wp_pure]
  refine Wp.mono hheld.opened.dirty ?_
  rintro _ c₂ ⟨hopened, hlent, hstored⟩
  refine Wp.mono (hheld.rewrote (f := fun data => enteredEntry data string numb k) hm hb
    ⟨true, mtime, rfl⟩ hopened hlent hstored) ?_
  intro _ c' hrewrote
  refine ⟨trivial, _, hrewrote, ?_⟩
  unfold sized
  simp only [update_self, update_idem]
  congr

/-! ## §3 The Search of the Blocks -/

/-- What the search from block `m` of the directory on comes to. -/
def SearchedFrom (ldir : InodeId) (sp : SuperId) (slots : ℕ) (string : Name) (op : DirOp) (m : ℕ)
    (s : FsState) : Searched → FsState → Prop
  | .done numb, s' => op.isEnter = false ∧ ∃ m' k name, m' * nrDirEntries < slots ∧ k < nrDirEntries ∧
      dirSlot (s.supers sp) (viewOf ldir s) (m' * nrDirEntries + k) = some (name, numb) ∧
      Hits string name ∧
      if op = .delete then
        ∃ s₁, Calm s s₁ ∧ Rewrote ldir sp m' (erasedEntry ((viewOf ldir s).blocks
          ((viewOf ldir s).block (s.supers sp) m')) k) s₁ s'
      else Calm s s'
  | .slot bp k newSlots, s' => op.isEnter = true ∧ ∃ m' s₁, m' * nrDirEntries < slots ∧
      k < nrDirEntries ∧ dirSlot (s.supers sp) (viewOf ldir s) (m' * nrDirEntries + k) = none ∧
      newSlots = toShort (m' * nrDirEntries + k + 1) ∧
      (∀ i, m * nrDirEntries ≤ i → i < m' * nrDirEntries + k →
        dirSlot (s.supers sp) (viewOf ldir s) i ≠ none) ∧
      Calm s s₁ ∧ Held ldir ((viewOf ldir s).block (s.supers sp) m')
        ((viewOf ldir s).blocks ((viewOf ldir s).block (s.supers sp) m')) bp s₁ s'
  | .exhausted newSlots, s' => Calm s s' ∧
      (op.isEnter = true → newSlots = toShort ((slots + 63) / 64 * nrDirEntries)) ∧
      ∀ i, m * nrDirEntries ≤ i → i < (slots + 63) / 64 * nrDirEntries →
        if op.isEnter then dirSlot (s.supers sp) (viewOf ldir s) i ≠ none
        else ∀ name numb, dirSlot (s.supers sp) (viewOf ldir s) i = some (name, numb) → ¬Hits string name

theorem Calm.directory (h : Calm s s₁) (hd : Directory ldir sp slots s) : Directory ldir sp slots s₁ where
  toMounted := (h.only ldir).mounted hd.toMounted
  isDir := by
    rw [h.frame]
    exact hd.isDir
  size := by
    rw [h.frame]
    exact hd.size
  dir := by
    rw [h.view hd.driver, (h.only ldir).supers]
    exact hd.dir

theorem dirSlot_at {x : Super} {v : FileView} {j : ℕ} (hj : j < nrDirEntries) :
    dirSlot x v (m * nrDirEntries + j) = slotOf (v.blocks (v.block x m)) j := by
  unfold nrDirEntries at hj
  unfold dirSlot nrDirEntries
  rw [show (m * 64 + j) / 64 = m by omega, show (m * 64 + j) % 64 = j by omega]

/-- The search goes on with the next block. -/
theorem SearchedFrom.step {op : DirOp} {r : Searched} {s' : FsState}
    (hd : Directory ldir sp slots s) (hcalm : Calm s s₁)
    (hblock : ∀ i, m * nrDirEntries ≤ i → i < (m + 1) * nrDirEntries →
      if op.isEnter then dirSlot (s.supers sp) (viewOf ldir s) i ≠ none
      else ∀ name numb, dirSlot (s.supers sp) (viewOf ldir s) i = some (name, numb) → ¬Hits string name)
    (h : SearchedFrom ldir sp slots string op (m + 1) s₁ r s') :
    SearchedFrom ldir sp slots string op m s r s' := by
  have hview := hcalm.view hd.driver
  have hsupers := (hcalm.only ldir).supers
  cases r with
  | done numb =>
    obtain ⟨henter, m', k, name, hm', hk, hslot, hhits, huse⟩ := h
    rw [hview, hsupers] at hslot huse
    refine ⟨henter, m', k, name, hm', hk, hslot, hhits, ?_⟩
    split at huse
    next hdelete =>
      obtain ⟨s₂, hcalm2, hrewrote⟩ := huse
      rw [if_pos hdelete]
      exact ⟨s₂, hcalm.trans hcalm2, hrewrote⟩
    next hnot =>
      rw [if_neg hnot]
      exact hcalm.trans huse
  | slot bp k newSlots =>
    obtain ⟨henter, m', s₂, hm', hk, hslot, hnew, hused, hcalm2, hheld⟩ := h
    rw [hview, hsupers] at hslot hheld
    refine ⟨henter, m', s₂, hm', hk, hslot, hnew, fun i hi hlt => ?_, hcalm.trans hcalm2, hheld⟩
    rcases Nat.lt_or_ge i ((m + 1) * nrDirEntries) with hin | hout
    · have hfull := hblock i hi hin
      rwa [if_pos henter] at hfull
    · have hfull := hused i hout hlt
      rwa [hview, hsupers] at hfull
  | exhausted newSlots =>
    obtain ⟨hcalm2, hnew, hrest⟩ := h
    refine ⟨hcalm.trans hcalm2, hnew, fun i hi hlt => ?_⟩
    rcases Nat.lt_or_ge i ((m + 1) * nrDirEntries) with hin | hout
    · exact hblock i hi hin
    · have hentry := hrest i hout hlt
      rwa [hview, hsupers] at hentry

/-- An entry is before the end of the directory. -/
theorem Directory.slot_lt (hd : Directory ldir sp slots s) (hm : m * nrDirEntries < slots)
    (hk : k < nrDirEntries) {e : List UInt8 × ℕ}
    (hslot : dirSlot (s.supers sp) (viewOf ldir s) (m * nrDirEntries + k) = some e) :
    m * nrDirEntries + k < slots ∧
      dirTable (s.supers sp) (viewOf ldir s) slots (m * nrDirEntries + k) = some e := by
  have hlt : m * nrDirEntries + k < slots := by
    by_contra hge
    have hfree := hd.dir.covered (m * nrDirEntries + k) (by unfold nrDirEntries at *; omega) (not_lt.mp hge)
    rw [hslot] at hfree
    exact absurd hfree (by simp)
  exact ⟨hlt, (if_pos hlt).trans hslot⟩

/-- The outer loop of `search_dir`, from block `m` on. -/
theorem searchBlocksOf_surely {op : DirOp} (hstring : string.length = nameMax)
    (hd : Directory ldir sp slots s)
    (huse : op = .delete → ∀ name numb, Maps (dirTable (s.supers sp) (viewOf ldir s) slots) name numb →
      Hits string name → InUse s (s.inodes ldir).dev numb) (n m newSlots : ℕ)
    (hblocks : m + n = (slots + 63) / 64)
    (hnew : op.isEnter = true ∨ m * nrDirEntries < slots → newSlots = toShort (m * nrDirEntries)) :
    Surely (searchBlocksOf ldir string op slots n (m * blockSize : ℕ) newSlots) s fun r s' =>
      SearchedFrom ldir sp slots string op m s r s' := by
  induction n generalizing m newSlots s with
  | zero =>
    refine ⟨.refl hd.able, fun henter => ?_, fun i hi hlt => ?_⟩
    · rw [← hblocks]
      exact hnew (.inl henter)
    · rw [← hblocks] at hlt
      exact absurd hlt (not_lt.mpr hi)
  | succ n ih =>
    have hm : m * nrDirEntries < slots := by
      unfold nrDirEntries
      omega
    rw [hnew (.inr hm)]
    unfold searchBlocksOf Surely
    rw [wp_bind]
    refine (readMap_surely hd.toMounted (by positivity)).mono ?_
    rintro b s₁ ⟨rfl, hcalm⟩
    rw [blockPos_eq]
    have hview := hcalm.view hd.driver
    have hsupers := (hcalm.only ldir).supers
    have hd1 := hcalm.directory hd
    simp only [wp_bind, wp_readInode]
    refine Wp.mono (getBlock_held hd1.toMounted _) ?_
    intro bp s₂ hheld
    simp only [wp_liftC, wp_readBuf]
    rw [hheld.opened.inBuf, hview]
    rw [hview] at hheld
    have hslot : ∀ j, j < nrDirEntries →
        dirSlot (s.supers sp) (viewOf ldir s) (m * nrDirEntries + j) = slotOf ((viewOf ldir s).blocks
          ((viewOf ldir s).block (s.supers sp) m)) j := fun j hj => dirSlot_at hj
    have hfound := searchEntries_spec op slots (m * nrDirEntries) hstring
      (fun j hj hge => by
        rw [← hslot j hj]
        apply hd.dir.covered _ _ hge
        unfold nrDirEntries at *
        omega) nrDirEntries 0 (Nat.zero_add _)
    rw [Nat.add_zero] at hfound
    generalize searchEntries _ string op slots nrDirEntries 0 _ = f at hfound ⊢
    obtain ⟨found, newSlots'⟩ := f
    cases found with
    | matched k =>
      obtain ⟨henter, hk, name, numb, hentry, hhits⟩ := hfound
      have hat : dirSlot (s.supers sp) (viewOf ldir s) (m * nrDirEntries + k) = some (name, numb) := by
        rw [hslot k hk]
        exact hentry
      obtain ⟨-, -, hnumb⟩ := slotOf_eq_some.mp hentry
      have huse' : op = .delete → InUse s₁ (s₁.inodes ldir).dev numb := by
        intro hdelete
        rw [(hcalm.only ldir).dev, hcalm.frame]
        exact huse hdelete name numb ⟨_, (hd.slot_lt hm hk hat).2⟩ hhits
      rw [wp_bind]
      refine (useEntry_surely (m := m) hd1.toMounted hheld (by rw [hview, hsupers]) (by rw [hview])
        (by rw [hnumb]; exact huse')).mono ?_
      rintro _ s' ⟨rfl, hused⟩
      refine ⟨henter, m, k, name, hm, hk, by rw [hat, hnumb], hhits, ?_⟩
      split at hused
      next hdelete =>
        rw [if_pos hdelete]
        exact ⟨s₁, hcalm, hused⟩
      next hnot =>
        rw [if_neg hnot]
        exact hcalm.trans hused
    | slot k =>
      obtain ⟨henter, hk, hfree, hnew', hused⟩ := hfound
      refine ⟨henter, m, s₁, hm, hk, ?_, hnew', fun i hi hlt => ?_, hcalm, hheld⟩
      · rw [hslot k hk]
        exact hfree
      · obtain ⟨j, rfl⟩ := Nat.exists_eq_add_of_le hi
        rw [hslot j (by omega)]
        exact hused j (Nat.zero_le j) (by omega)
    | nothing =>
      obtain ⟨hcount, hrest⟩ := hfound
      have hblock : ∀ i, m * nrDirEntries ≤ i → i < (m + 1) * nrDirEntries →
          if op.isEnter then dirSlot (s.supers sp) (viewOf ldir s) i ≠ none
          else ∀ name numb, dirSlot (s.supers sp) (viewOf ldir s) i = some (name, numb) →
            ¬Hits string name := by
        intro i hi hlt
        rw [Nat.add_mul, Nat.one_mul] at hlt
        obtain ⟨j, rfl⟩ := Nat.exists_eq_add_of_le hi
        rw [hslot j (by omega)]
        exact hrest j (Nat.zero_le j) (by omega)
      rw [wp_bind]
      refine (hheld.put hd1.toMounted (by rw [hview])).mono fun _ s₃ hcalm3 => ?_
      have hcalm' := hcalm.trans hcalm3
      have hstep := ih (hcalm'.directory hd) (fun hdelete name numb hmaps hhits => by
        rw [hcalm'.view hd.driver, (hcalm'.only ldir).supers] at hmaps
        rw [(hcalm'.only ldir).dev, hcalm'.frame]
        exact huse hdelete name numb hmaps hhits) (m + 1) newSlots' (by omega) ?_
      · rw [show ((m * blockSize : ℕ) : ℤ) + blockSize = ((m + 1) * blockSize : ℕ) by push_cast; ring]
        exact hstep.mono fun r s' h => h.step hd hcalm' hblock
      · -- a block without a free slot ends before the end of the directory
        intro hor
        have hnext : (m + 1) * nrDirEntries = m * nrDirEntries + nrDirEntries := Nat.succ_mul m nrDirEntries
        have hend : m * nrDirEntries + nrDirEntries ≤ slots := by
          rcases hor with henter | hlt
          · by_contra hpast
            have hfull := hblock slots (le_of_lt hm) (by omega)
            rw [if_pos henter] at hfull
            apply hfull
            apply hd.dir.covered slots _ (le_refl slots)
            unfold nrDirEntries at *
            omega
          · omega
        rw [hcount hend, Nat.add_mul, Nat.one_mul]

end

end LisaMinix.Fs.Server
