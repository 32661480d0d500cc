import LisaMinix.Fs.Server.Directories
import LisaMinix.Fs.Server.Main

/-!
# Directories Are Finite Maps

`search_dir` as an operation on a map from names to inode numbers.

- `Serves`: what the three operations are to do with the map, and what they are to answer.
- `searchDir_find`, `searchDir_enter`: what they do.
- `actsAsMap_iff`: they do so unless `ENTER` finds a full directory of 65535 slots.  The count of
  slots is then 0 after slot 65535, which is not seen to be past the end, and the entry is made there.
-/

namespace LisaMinix.Fs.Server

open LisaMinix.Library Function

variable {m n count : ℕ}

section

variable {ldir : InodeId} {sp : SuperId} {slots : ℕ} {s s₁ s₂ : FsState} {bp : BufId} {m k : ℕ}
  {data : Block}
variable {string : Name} {numb : ℕ}

/-! ## §1 `search_dir` -/

/-- What `forbidden` answers for a file of a device that is mounted in slot `sp`. -/
def permission (rip : InodeId) (sp : SuperId) (desired : ℕ) (s : FsState) : ℤ :=
  let fp := s.fprocs s.g.fp
  let r := accessCode (s.inodes rip) desired fp.effuid fp.effgid
  if r = OK ∧ desired &&& wBit ≠ 0 then if (s.supers sp).rdOnly ≠ 0 then EROFS else OK else r

theorem forbidden_spec {E : Panic → FsState → Prop} (hm : Mounted ldir sp s) (desired : ℕ)
    {Q : ℤ → FsState → Prop} (h : Q (permission ldir sp desired s) s) :
    Wp E (forbidden ldir desired false) s Q := by
  unfold permission at h
  unfold forbidden readOnly
  simp only [wp_bind, wp_caller, wp_readInode, Bool.false_eq_true, if_false]
  dsimp only at h
  refine wp_ite (fun hwrite => ?_) fun hnot => ?_
  · rw [if_pos hwrite] at h
    simp only [wp_bind, wp_readInode]
    rw [getSuper_spec hm.super]
    simp only [wp_readSuper, wp_pure]
    exact h
  · rw [if_neg hnot] at h
    exact h

/-- The bits that `search_dir` asks for. -/
def searchBits (op : DirOp) : ℕ := if op = .lookUp then xBit else wBit ||| xBit

/-- `search_dir` refuses the directory, or searches it. -/
theorem searchDir_start {op : DirOp} {E : Panic → FsState → Prop} {Q : ℤ × ℕ → FsState → Prop}
    (hd : Directory ldir sp slots s)
    (hrefused : permission ldir sp (searchBits op) s ≠ OK →
      Q (permission ldir sp (searchBits op) s, 0) s)
    (hallowed : permission ldir sp (searchBits op) s = OK → Wp E (do
      match ← searchBlocksOf ldir string op slots ((slots + 63) / 64) (0 * blockSize : ℕ) 0 with
      | .done numb => return (OK, numb)
      | .slot bp k newSlots =>
        match op with
        | .enter numb => return (← enterEntry ldir string numb bp k slots newSlots, 0)
        | _ => return (ENOENT, 0)
      | .exhausted newSlots =>
        match op with
        | .enter numb =>
          let newSlots := toShort (newSlots + 1)
          if newSlots = 0 then return (EFBIG, 0)
          else match ← newBlock ldir (← readInode ldir).size with
            | none => return ((← globals).errCode, 0)
            | some bp => return (← enterEntry ldir string numb bp 0 slots newSlots, 0)
        | _ => return (ENOENT, 0)) s Q) : Wp E (searchDir ldir string op) s Q := by
  have hmost := hd.dir.most
  have hslots : toShort ((s.inodes ldir).size / dirEntrySize).toNat = slots := by
    rw [hd.size]
    unfold toShort dirEntrySize
    omega
  have hblocks : (((s.inodes ldir).size + blockSize - 1) / blockSize).toNat = (slots + 63) / 64 := by
    rw [hd.size]
    unfold blockSize dirEntrySize
    omega
  unfold searchDir
  rw [wp_bind, wp_readInode, if_neg (by rw [hd.isDir]; decide), wp_bind]
  apply forbidden_spec hd.toMounted
  refine wp_ite hrefused fun hok => ?_
  dsimp only
  rw [hslots, hblocks]
  exact hallowed (not_not.mp hok)

/-- The entries of the directory. -/
abbrev tableOf (ldir : InodeId) (sp : SuperId) (slots : ℕ) (s : FsState) : Slots (List UInt8) ℕ :=
  dirTable (s.supers sp) (viewOf ldir s) slots

/-- What the operations are to do with the directory as a map from names to inode numbers, and what
    they are to answer. -/
def Serves (op : DirOp) (string : Name) (t t' : Slots (List UInt8) ℕ) (r : ℤ × ℕ) : Prop :=
  match op with
  | .lookUp => t' = t ∧ (r.1 = OK ∧ (∃ name, Maps t name r.2 ∧ Hits string name) ∨
      r.1 = ENOENT ∧ ∀ name numb, Maps t name numb → ¬Hits string name)
  | .enter numb =>
    r.1 = OK ∧ (∀ name n, Maps t' name n ↔ name = key string ∧ n = numb ∨ Maps t name n) ∨
      r.1 ≠ OK ∧ t' = t
  | .delete =>
    r.1 = OK ∧ (∃ n, Maps t (key string) n) ∧
        (∀ name n, Maps t' name n ↔ name ≠ key string ∧ Maps t name n) ∨
      r.1 = ENOENT ∧ (∀ n, ¬Maps t (key string) n) ∧ t' = t

/-- `search_dir` does so, and the entries are then all before the end of the directory, which moves
    only if the answer is OK; a directory that may not be searched is left as it is. -/
def ActsAsMap (ldir : InodeId) (sp : SuperId) (slots : ℕ) (op : DirOp) (string : Name)
    (s : FsState) : Prop :=
  Surely (searchDir ldir string op) s fun r s' =>
    if permission ldir sp (searchBits op) s = OK then
      ∃ slots', Directory ldir sp slots' s' ∧ (r.1 ≠ OK → slots' = slots) ∧
        Serves op string (tableOf ldir sp slots s) (tableOf ldir sp slots' s') r
    else r.1 = permission ldir sp (searchBits op) s ∧ s' = s

/-- What the callers of `search_dir` see to: `ENTER` gets a name that is not there, and the inode of
    an entry that is to be deleted is in use. -/
structure ProperCall (ldir : InodeId) (sp : SuperId) (slots : ℕ) (op : DirOp) (string : Name)
    (s : FsState) : Prop where
  length : string.length = nameMax
  enter : ∀ numb, op = .enter numb → key string ≠ [] ∧ numb ≠ 0 ∧ numb < 65536 ∧
    ∀ n, ¬Maps (tableOf ldir sp slots s) (key string) n
  delete : op = .delete → key string ≠ [] ∧
    ∀ n, Maps (tableOf ldir sp slots s) (key string) n → InUse s (s.inodes ldir).dev n

theorem Calm.table (h : Calm s s₁) (hd : Directory ldir sp slots s) :
    tableOf ldir sp slots s₁ = tableOf ldir sp slots s := by
  unfold tableOf
  rw [h.view hd.driver, (h.only ldir).supers]

/-- A directory, one block of which has been written, and whose size has been set. -/
theorem Rewrote.directory (slots' : ℕ) (size : ℤ) (h : Rewrote ldir sp m data s s₁)
    (hm : Mounted ldir sp s) (hdir : (s.inodes ldir).isDir = true)
    (hok : DirOk (s.supers sp) ((viewOf ldir s).writeBlock (s.supers sp) m data) slots')
    (hsize : size = (slots' * dirEntrySize : ℕ)) :
    Directory ldir sp slots' (sized ldir size s₁) ∧ tableOf ldir sp slots' (sized ldir size s₁) =
      dirTable (s.supers sp) ((viewOf ldir s).writeBlock (s.supers sp) m data) slots' := by
  have hview : viewOf ldir (sized ldir size s₁) =
      (viewOf ldir s).writeBlock (s.supers sp) m data := by rw [viewOf_sized, h.view]
  have hsupers : (sized ldir size s₁).supers = s.supers := h.only.supers
  refine ⟨⟨(h.only.mounted hm).withSize size, ?_, ?_, ?_⟩, ?_⟩
  · have hmode : (s₁.inodes ldir).mode = (s.inodes ldir).mode := by rw [h.only.inode]
    unfold Inode.isDir Inode.type at hdir ⊢
    simp only [sized, update_self]
    rw [hmode]
    exact hdir
  · simp only [sized, update_self]
    exact hsize
  · rw [hview, hsupers]
    exact hok
  · unfold tableOf
    rw [hview, hsupers]

theorem sized_self : sized ldir (s.inodes ldir).size s = s := by
  unfold sized
  rw [show { s.inodes ldir with size := (s.inodes ldir).size } = s.inodes ldir from rfl,
    update_eq_self]

theorem maps_dirSlot {name : List UInt8} (h : Maps (tableOf ldir sp slots s) name numb) :
    ∃ n, n < slots ∧ dirSlot (s.supers sp) (viewOf ldir s) n = some (name, numb) := by
  obtain ⟨n, hn⟩ := h
  unfold tableOf dirTable at hn
  split at hn
  next hlt => exact ⟨n, hlt, hn⟩
  next => exact absurd hn (by simp)

/-- `LOOK_UP` and `DELETE`. -/
theorem searchDir_find {op : DirOp} (hd : Directory ldir sp slots s)
    (hr : ProperCall ldir sp slots op string s) (hop : op.isEnter = false) :
    ActsAsMap ldir sp slots op string s := by
  apply searchDir_start hd
  · intro hrefused
    rw [if_neg hrefused]
    exact ⟨rfl, rfl⟩
  intro hallowed
  have hname : op = .delete → ∀ name, Hits string name → name = key string := by
    intro hdelete name hhits
    rwa [Hits, if_neg (hr.delete hdelete).1] at hhits
  have huse : op = .delete → ∀ name numb, Maps (tableOf ldir sp slots s) name numb →
      Hits string name → InUse s (s.inodes ldir).dev numb := by
    intro hdelete name numb hmaps hhits
    rw [hname hdelete name hhits] at hmaps
    exact (hr.delete hdelete).2 numb hmaps
  rw [wp_bind]
  refine (searchBlocksOf_surely hr.length hd huse ((slots + 63) / 64) 0 0 (Nat.zero_add _)
    fun _ => rfl).mono ?_
  intro r s' hsearched
  simp only [hallowed, if_true]
  cases r with
  | done numb =>
    obtain ⟨-, m, k, name, hm, hk, hslot, hhits, hused⟩ := hsearched
    obtain ⟨hlt, htable⟩ := hd.slot_lt hm hk hslot
    split at hused
    next hdelete =>
      obtain ⟨s₁, hcalm, hrewrote⟩ := hused
      obtain rfl := hname hdelete name hhits
      obtain ⟨hok, herased⟩ := dirOk_write (e := none) hd.dir hd.geometry hm hk
        (fun _ => slotOf_erased) (.inl ⟨rfl, hlt⟩) hd.dir.functional.erase
      have hd1 := hcalm.directory hd
      have hview := hcalm.view hd.driver
      have hsupers := (hcalm.only ldir).supers
      obtain ⟨hd', htable'⟩ := hrewrote.directory slots (s'.inodes ldir).size hd1.toMounted
        hd1.isDir (by rw [hview, hsupers]; exact hok)
        (by rw [hrewrote.only.inode]; exact hd1.size)
      rw [sized_self] at hd' htable'
      rw [hview, hsupers, herased] at htable'
      subst hdelete
      refine ⟨slots, hd', fun _ => rfl, .inl ⟨rfl, ⟨numb, _, htable⟩, fun name' n => ?_⟩⟩
      rw [htable']
      exact hd.dir.functional.maps_erase htable
    next hnot =>
      obtain rfl : op = .lookUp := by cases op <;> simp_all [DirOp.isEnter]
      refine ⟨slots, hused.directory hd, fun _ => rfl, hused.table hd, .inl ⟨rfl, name, ⟨_, htable⟩, hhits⟩⟩
  | slot bp k newSlots =>
    obtain ⟨henter, -⟩ := hsearched
    rw [hop] at henter
    exact absurd henter (by decide)
  | exhausted newSlots =>
    obtain ⟨hcalm, -, hrest⟩ := hsearched
    have habsent : ∀ name numb, Maps (tableOf ldir sp slots s) name numb → ¬Hits string name := by
      intro name numb hmaps
      obtain ⟨n, hn, hslot⟩ := maps_dirSlot hmaps
      have hmiss := hrest n (by omega) (by unfold nrDirEntries; omega)
      rw [if_neg (by simp [hop])] at hmiss
      exact hmiss name numb hslot
    cases op with
    | enter => exact absurd hop (by simp [DirOp.isEnter])
    | lookUp => exact ⟨slots, hcalm.directory hd, fun _ => rfl, hcalm.table hd, .inr ⟨rfl, habsent⟩⟩
    | delete =>
      refine ⟨slots, hcalm.directory hd, fun _ => rfl, .inr ⟨rfl, fun n hn => ?_, hcalm.table hd⟩⟩
      apply habsent _ _ hn
      rw [Hits, if_neg (hr.delete rfl).1]

/-- What `ENTER` comes to.  The entry goes to the first free slot of the blocks that are there, or
    to a new block, or there is no space. -/
def EnterOutcome (ldir : InodeId) (sp : SuperId) (slots : ℕ) (string : Name) (numb : ℕ) (s : FsState)
    (r : ℤ × ℕ) (s' : FsState) : Prop :=
  (∃ m k s₁ s₂, m * nrDirEntries < slots ∧ k < nrDirEntries ∧
    dirSlot (s.supers sp) (viewOf ldir s) (m * nrDirEntries + k) = none ∧
    (∀ i, i < m * nrDirEntries + k → dirSlot (s.supers sp) (viewOf ldir s) i ≠ none) ∧
    r.1 = OK ∧ Calm s s₁ ∧
    Rewrote ldir sp m (enteredEntry ((viewOf ldir s).blocks ((viewOf ldir s).block (s.supers sp) m))
      string numb k) s₁ s₂ ∧
    s' = sized ldir (if slots < toShort (m * nrDirEntries + k + 1) then
      (toShort (m * nrDirEntries + k + 1) * dirEntrySize : ℕ) else (s.inodes ldir).size) s₂) ∨
  ∃ m, slots = m * nrDirEntries ∧
    (r.1 ≠ OK ∧ Only ldir s s' ∧ Kept (s.supers sp) (viewOf ldir s) (viewOf ldir s') ∨
      r.1 = OK ∧ ∃ s₁ s₂, Only ldir s s₁ ∧
        Grown (s.supers sp) m (viewOf ldir s) (viewOf ldir s₁) ∧
        Rewrote ldir sp m (enteredEntry zeroBytes string numb 0) s₁ s₂ ∧
        s' = sized ldir ((slots + 1) * dirEntrySize : ℕ) s₂)

theorem searchDir_enter (hd : Directory ldir sp slots s) (hstring : string.length = nameMax)
    (hallowed : permission ldir sp (searchBits (.enter numb)) s = OK) :
    Surely (searchDir ldir string (.enter numb)) s fun r s' =>
      EnterOutcome ldir sp slots string numb s r s' := by
  have hmost := hd.dir.most
  apply searchDir_start hd fun hrefused => absurd hallowed hrefused
  intro _
  rw [wp_bind]
  refine (searchBlocksOf_surely hstring hd (by simp) ((slots + 63) / 64) 0 0 (Nat.zero_add _)
    fun _ => rfl).mono ?_
  intro r s' hsearched
  cases r with
  | done numb => exact absurd hsearched.1 (by simp [DirOp.isEnter])
  | slot bp k newSlots =>
    obtain ⟨-, m, s₁, hm, hk, hslot, hnew, hused, hcalm, hheld⟩ := hsearched
    have hd1 := hcalm.directory hd
    rw [wp_bind]
    refine (enterEntry_surely (m := m) hd1.toMounted hheld ?_).mono ?_
    · rw [hcalm.view hd.driver, (hcalm.only ldir).supers]
    rintro _ s₃ ⟨rfl, s₂, hrewrote, rfl⟩
    refine .inl ⟨m, k, s₁, s₂, hm, hk, hslot, fun i hi => hused i (by omega) hi, rfl, hcalm,
      hrewrote, ?_⟩
    rw [hnew, hcalm.frame]
  | exhausted newSlots =>
    obtain ⟨hcalm, hnew, hrest⟩ := hsearched
    have hd1 := hcalm.directory hd
    -- all slots of all blocks are in use, so the last block ends where the directory ends
    have hfull : slots = slots / 64 * 64 := by
      by_contra hne
      have hentry := hrest slots (by omega) (by unfold nrDirEntries; omega)
      rw [if_pos (by rfl)] at hentry
      exact hentry (hd.dir.covered slots (by unfold nrDirEntries; omega) (le_refl slots))
    have hcount : toShort (newSlots + 1) = slots + 1 := by
      rw [hnew rfl]
      unfold toShort nrDirEntries
      omega
    dsimp only
    rw [hcount, if_neg (Nat.succ_ne_zero slots), wp_bind, wp_readInode]
    have hsize : (s'.inodes ldir).size = (slots / 64 * blockSize : ℕ) := by
      rw [hd1.size]
      unfold dirEntrySize blockSize
      omega
    have hfits : slots / 64 / 2 ^ (s'.supers sp).logZoneSize <
        nrDzoneNum + nrIndirects + nrIndirects * nrIndirects := by
      refine lt_of_le_of_lt (Nat.div_le_self ..) ?_
      unfold nrDzoneNum nrIndirects
      omega
    have hview := hcalm.view hd.driver
    have hsupers := (hcalm.only ldir).supers
    rw [hsize, wp_bind]
    refine (newBlock_surely ⟨hd1.toMounted, hd1.dir.ok⟩ hsize hfits).mono ?_
    intro r s₃ hblock
    cases r with
    | none =>
      obtain ⟨honly, hkept, herr⟩ := hblock
      rw [hview, hsupers] at hkept
      exact .inr ⟨slots / 64, hfull, .inl ⟨herr, (hcalm.only ldir).trans honly, hkept⟩⟩
    | some bp =>
      obtain ⟨s₁, honly, hgrown, hheld⟩ := hblock
      have hm1 := honly.mounted hd1.toMounted
      rw [wp_bind]
      refine (enterEntry_surely (m := slots / 64) hm1 hheld (by rw [honly.supers])).mono ?_
      rintro _ s₄ ⟨rfl, s₂, hrewrote, rfl⟩
      rw [hview, hsupers] at hgrown
      refine .inr ⟨slots / 64, hfull, .inr ⟨rfl, s₁, s₂, (hcalm.only ldir).trans honly, hgrown,
        hrewrote, ?_⟩⟩
      rw [if_pos (Nat.lt_succ_self slots)]

theorem Only.isDir (h : Only ldir s s₁) : (s₁.inodes ldir).isDir = (s.inodes ldir).isDir := by
  rw [h.inode]
  rfl

/-- The first free slot is at most the one after the last. -/
theorem Directory.free_le (hd : Directory ldir sp slots s) (hm : m * nrDirEntries < slots)
    (hk : k < nrDirEntries) (hused : ∀ i, i < m * nrDirEntries + k →
      dirSlot (s.supers sp) (viewOf ldir s) i ≠ none) : m * nrDirEntries + k ≤ slots := by
  by_contra hlt
  apply hused slots (not_le.mp hlt)
  apply hd.dir.covered slots _ (le_refl slots)
  unfold nrDirEntries at *
  omega

/-- `ENTER` in a slot of the blocks that are there. -/
theorem Rewrote.entered {slots' : ℕ} {r : ℤ × ℕ} (hd : Directory ldir sp slots s)
    (hr : ProperCall ldir sp slots (.enter numb) string s) (hm : m * nrDirEntries < slots)
    (hk : k < nrDirEntries) (hfree : tableOf ldir sp slots s (m * nrDirEntries + k) = none)
    (hslots : Extends slots (m * nrDirEntries + k) slots') (hok : r.1 = OK) (hcalm : Calm s s₁)
    (h : Rewrote ldir sp m (enteredEntry ((viewOf ldir s).blocks
      ((viewOf ldir s).block (s.supers sp) m)) string numb k) s₁ s₂) :
    Directory ldir sp slots' (sized ldir (slots' * dirEntrySize : ℕ) s₂) ∧ (r.1 ≠ OK → slots' = slots) ∧
      Serves (.enter numb) string (tableOf ldir sp slots s)
        (tableOf ldir sp slots' (sized ldir (slots' * dirEntrySize : ℕ) s₂)) r := by
  obtain ⟨-, hpos, hnumb, habsent⟩ := hr.enter numb rfl
  have hd1 := hcalm.directory hd
  have hview := hcalm.view hd.driver
  have hsupers := (hcalm.only ldir).supers
  obtain ⟨hdir, htable⟩ := dirOk_write (e := some (key string, numb)) hd.dir hd.geometry hm hk
    (fun _ => slotOf_entered hr.length hpos hnumb) hslots (hd.dir.functional.enter habsent)
  obtain ⟨hd', htable'⟩ := h.directory slots' _ hd1.toMounted hd1.isDir
    (by rw [hview, hsupers]; exact hdir) rfl
  rw [hview, hsupers, htable] at htable'
  refine ⟨hd', fun hfailed => absurd hok hfailed, .inl ⟨hok, fun name n => ?_⟩⟩
  rw [htable']
  exact maps_enter hfree

/-- `ENTER`, unless the directory is full and has as many slots as can be counted. -/
theorem searchDir_enters (hd : Directory ldir sp slots s)
    (hr : ProperCall ldir sp slots (.enter numb) string s)
    (hroom : permission ldir sp (searchBits (.enter numb)) s = OK →
      slots < 65535 ∨ ∃ n, n < slots ∧ tableOf ldir sp slots s n = none) :
    ActsAsMap ldir sp slots (.enter numb) string s := by
  by_cases hallowed : permission ldir sp (searchBits (.enter numb)) s = OK
  swap
  · apply searchDir_start hd
    · intro hrefused
      rw [if_neg hrefused]
      exact ⟨rfl, rfl⟩
    · exact fun hok => absurd hok hallowed
  obtain ⟨-, hpos, hnumb, habsent⟩ := hr.enter numb rfl
  refine (searchDir_enter hd hr.length hallowed).mono ?_
  rintro r s' houtcome
  rw [if_pos hallowed]
  rcases houtcome with ⟨m, k, s₁, s₂, hm, hk, hslot, hused, hok, hcalm, hrewrote, rfl⟩ |
    ⟨m, hslots, ⟨hfailed, honly, hkept⟩ | ⟨hok, s₁, s₂, honly, hgrown, hrewrote, rfl⟩⟩
  · have hle := hd.free_le hm hk hused
    have hmost := hd.dir.most
    rcases Nat.lt_or_eq_of_le hle with hlt | heq
    · -- a slot that has been freed
      have hold : ¬slots < toShort (m * nrDirEntries + k + 1) := by
        unfold toShort
        omega
      rw [if_neg hold, hd.size]
      exact ⟨slots,
        hrewrote.entered hd hr hm hk ((if_pos hlt).trans hslot) (.inl ⟨rfl, hlt⟩) hok hcalm⟩
    · -- the slot after the last
      have hcount : slots < 65535 := by
        rcases hroom hallowed with hlt | ⟨n, hn, hfree⟩
        · exact hlt
        · have hentry := hused n (by omega)
          exact absurd ((if_pos hn).symm.trans hfree) hentry
      have hnext : toShort (m * nrDirEntries + k + 1) = slots + 1 := by
        unfold toShort
        omega
      rw [hnext, if_pos (Nat.lt_succ_self slots)]
      refine ⟨slots + 1,
        hrewrote.entered hd hr hm hk (if_neg ?_) (.inr ⟨rfl, heq, by omega⟩) hok hcalm⟩
      omega
  · -- there is no space
    obtain ⟨hdir, htable⟩ := dirOk_kept hd.dir hd.geometry hkept
    refine ⟨slots, ⟨honly.mounted hd.toMounted, ?_, ?_, ?_⟩, fun _ => rfl, .inr ⟨hfailed, ?_⟩⟩
    · rw [honly.isDir]
      exact hd.isDir
    · rw [honly.inode]
      exact hd.size
    · rw [honly.supers]
      exact hdir
    · unfold tableOf
      rw [honly.supers, htable]
  · -- a new block
    have hmost := hd.dir.most
    have hfew : slots + 1 < 65536 := by
      unfold nrDirEntries at hslots
      omega
    obtain ⟨hdir, htable⟩ := dirOk_grow (enteredEntry zeroBytes string numb 0) hd.dir hd.geometry
      hslots hfew hgrown (e := (key string, numb)) (fun j => by
        rw [slotOf_entered hr.length hpos hnumb, slotOf_eq_none.mpr rfl])
      (hd.dir.functional.enter habsent)
    obtain ⟨hd', htable'⟩ := hrewrote.directory (slots + 1) _ (honly.mounted hd.toMounted)
      (by rw [honly.isDir]; exact hd.isDir) (by rw [honly.supers]; exact hdir) rfl
    rw [honly.supers, htable] at htable'
    refine ⟨slots + 1, hd', fun hfailed => absurd hok hfailed, .inl ⟨hok, fun name n => ?_⟩⟩
    rw [htable']
    exact maps_enter (if_neg (lt_irrefl slots))

/-- `ENTER` when all of 65535 slots are in use: the entry goes to slot 65535, and the directory does
    not become longer. -/
theorem searchDir_overflows (hd : Directory ldir sp 65535 s)
    (hr : ProperCall ldir sp 65535 (.enter numb) string s)
    (hallowed : permission ldir sp (searchBits (.enter numb)) s = OK)
    (hfull : ∀ n, n < 65535 → tableOf ldir sp 65535 s n ≠ none) :
    Surely (searchDir ldir string (.enter numb)) s fun r s' => r.1 = OK ∧
      (s'.inodes ldir).size = (65535 * dirEntrySize : ℕ) ∧
      dirSlot (s'.supers sp) (viewOf ldir s') 65535 = some (key string, numb) := by
  obtain ⟨-, hpos, hnumb, -⟩ := hr.enter numb rfl
  refine (searchDir_enter hd hr.length hallowed).mono ?_
  rintro r s' (⟨m, k, s₁, s₂, hm, hk, hslot, hused, hok, hcalm, hrewrote, rfl⟩ | ⟨m, hslots, -⟩)
  · have hlast : m * nrDirEntries + k = 65535 := by
      have hle := hd.free_le hm hk hused
      by_contra hne
      have hlt : m * nrDirEntries + k < 65535 := by omega
      exact hfull _ hlt ((if_pos hlt).trans hslot)
    have hview := hcalm.view hd.driver
    have hsupers := (hcalm.only ldir).supers
    have hview' : viewOf ldir (sized ldir (s.inodes ldir).size s₂) = (viewOf ldir s).writeBlock
        (s.supers sp) m (enteredEntry ((viewOf ldir s).blocks ((viewOf ldir s).block (s.supers sp) m))
          string numb k) := by
      have hwritten := hrewrote.view
      rw [hview, hsupers] at hwritten
      rw [← hwritten, viewOf_sized]
    -- the count of the slots has become 0
    rw [hlast, if_neg (by decide)]
    refine ⟨hok, ?_, ?_⟩
    · simp only [sized, update_self]
      exact hd.size
    · rw [hview', show (sized ldir (s.inodes ldir).size s₂).supers = s.supers from
        hrewrote.only.supers.trans hsupers, ← hlast]
      rw [dirSlot_write (e := some (key string, numb)) hd.dir.ok hd.geometry (hd.dir.whole m hm) hk
        (fun _ => slotOf_entered hr.length hpos hnumb) ?_, if_pos rfl]
      apply hd.dir.whole
      unfold nrDirEntries at *
      omega
  · unfold nrDirEntries at hslots
    omega

/-- A directory whose size does not cover an entry is no map any more. -/
theorem searchDir_uncovers (hd : Directory ldir sp 65535 s)
    (hr : ProperCall ldir sp 65535 (.enter numb) string s)
    (hallowed : permission ldir sp (searchBits (.enter numb)) s = OK)
    (hfull : ∀ n, n < 65535 → tableOf ldir sp 65535 s n ≠ none) :
    ¬ActsAsMap ldir sp 65535 (.enter numb) string s := by
  intro hacts
  obtain ⟨r, s', hmap, -, hsize, hslot⟩ :=
    Surely.returns (Wp.and hacts (searchDir_overflows hd hr hallowed hfull))
  rw [if_pos hallowed] at hmap
  obtain ⟨slots', hd', -⟩ := hmap
  have hslots : slots' = 65535 := by
    have heq := hd'.size.symm.trans hsize
    unfold dirEntrySize at heq
    omega
  subst hslots
  have hcovered := hd'.dir.covered 65535 (by decide) (le_refl _)
  rw [hslot] at hcovered
  exact absurd hcovered (by simp)

/-- **A directory is a finite map**: `LOOK_UP`, `ENTER` and `DELETE` treat it as such, and its size
    covers every entry, if and only if it is not `ENTER` in a full directory of 65535 slots. -/
theorem actsAsMap_iff {op : DirOp} {string : Name} (hd : Directory ldir sp slots s)
    (hr : ProperCall ldir sp slots op string s) :
    ActsAsMap ldir sp slots op string s ↔
      (op.isEnter = true → permission ldir sp (searchBits op) s = OK →
        slots < 65535 ∨ ∃ n, n < slots ∧ tableOf ldir sp slots s n = none) := by
  cases op with
  | lookUp => exact iff_of_true (searchDir_find hd hr rfl) fun henter => absurd henter (by decide)
  | delete => exact iff_of_true (searchDir_find hd hr rfl) fun henter => absurd henter (by decide)
  | enter numb =>
    refine ⟨fun hacts _ hallowed => ?_, fun hroom => searchDir_enters hd hr (hroom rfl)⟩
    by_contra hfull
    push Not at hfull
    obtain ⟨hcount, hused⟩ := hfull
    obtain rfl : slots = 65535 := by
      have hmost := hd.dir.most
      omega
    exact searchDir_uncovers hd hr hallowed hused hacts

end

/-! ## §2 A Directory in One Zone -/

/-- Four letters for the 16 bits of a slot number. -/
def letters (n : ℕ) : List UInt8 :=
  [97 + UInt8.ofNat (n % 16), 97 + UInt8.ofNat (n / 16 % 16), 97 + UInt8.ofNat (n / 256 % 16),
    97 + UInt8.ofNat (n / 4096 % 16)]

/-- Block `m` of a directory with entries for inode 1 in its first `count` slots. -/
def lettersBlock (count m : ℕ) : Block := fun p =>
  let n := 64 * m + p / 16
  if n < count then (0 :: 1 :: letters n).getD (p % 16) 0 else 0

/-- The zone map, in which the only zone is marked. -/
def oneZoneMap : Block := fun p => if p = 1 then 3 else 0

def zmapBuf : BufId := ⟨0, by decide⟩
def imapBuf : BufId := ⟨1, by decide⟩

/-- Two buffers hold the bit maps of the device. -/
def mapBufs (bp : BufId) : Buf :=
  if bp = zmapBuf then { data := oneZoneMap, blocknr := 3, dev := 256, dirt := false, count := 1 }
  else if bp = imapBuf then { data := oneZoneMap, blocknr := 2, dev := 256, dirt := false, count := 1 }
  else { data := zeroBytes, blocknr := 0, dev := noDev, dirt := false, count := 0 }

def lettersCache (count : ℕ) : Cache where
  buf := mapBufs
  lru := List.finRange nrBufs
  hash h := (List.finRange nrBufs).filter fun bp => (mapBufs bp).blocknr % nrBufHash = h
  bufsInUse := 2
  peak := 2
  rdwtErr := OK
  disk _ b := if b = 2 ∨ b = 3 then oneZoneMap
    else if 1024 ≤ b ∧ b < 2048 then lettersBlock count (b - 1024) else zeroBytes
  writes := []
  io _ := { ok := true, err := 0, junk := zeroBytes }
  tick := 0

theorem mapBufs_valid : ∀ bp, (mapBufs bp).dev ≠ noDev → bp = zmapBuf ∨ bp = imapBuf := by
  decide

theorem mapBufs_blocknr : ∀ bp, (mapBufs bp).blocknr < 1024 := by decide

theorem lettersCache_able (count : ℕ) : Able (lettersCache count) where
  lru := .refl _
  nodup h := by
    change (List.filter (fun bp => decide ((mapBufs bp).blocknr % nrBufHash = h))
      (List.finRange nrBufs)).Nodup
    exact (List.nodup_finRange nrBufs).filter _
  hash h bp := by
    simp only [lettersCache, List.mem_filter, List.mem_finRange, true_and, decide_eq_true_eq]
  nonneg bp := by
    change 0 ≤ (mapBufs bp).count
    revert bp
    decide
  inUse := by
    change 2 = (Finset.univ.filter fun bp => (mapBufs bp).count ≠ 0).card
    decide
  unique bp bp' := by
    change (mapBufs bp).dev ≠ noDev → (mapBufs bp').dev = (mapBufs bp).dev ∧
      (mapBufs bp').blocknr = (mapBufs bp).blocknr → bp' = bp
    revert bp bp'
    decide
  drives _ := rfl
  held _ h := absurd h (by simp)
  clean bp _ hvalid _ := by
    rcases mapBufs_valid bp hvalid with rfl | rfl
    · rfl
    · rfl
  served bp := by
    change (mapBufs bp).dev ≠ noDev → HasDriver (mapBufs bp).dev
    unfold HasDriver
    revert bp
    decide
  room := by
    change 2 < nrBufs
    decide

def lettersSuper : Super :=
  { noSuperBlock with
    ninodes := 32
    nzones := 2
    imapBlocks := 1
    zmapBlocks := 1
    firstdatazone := 1
    logZoneSize := 10
    magic := superMagic
    imap := fun i => if i = 0 then .to imapBuf else .nil
    zmap := fun i => if i = 0 then .to zmapBuf else .nil
    dev := 256 }

def theDir : InodeId := ⟨0, nrInodes_pos⟩

/-- The directory, in zone 1 of a device whose zones are 1024 blocks. -/
def lettersDir (count : ℕ) : FsState :=
  let s := atBoot (smallWorld [] fun _ => { status := OK, revives := [] })
  { s with
    cache := lettersCache count
    supers := fun sp => if sp = rootSuper then lettersSuper else noSuperBlock
    inodes := fun i => if i = theDir then
      { noInode with
        mode := 0o040777
        nlinks := 3
        size := (count * dirEntrySize : ℕ)
        zone := fun i => if i = 0 then 1 else 0
        dev := 256
        num := 1
        count := 1 }
      else noInode }

theorem lettersSuper_geometry : Geometry lettersSuper :=
  ⟨by decide, by decide, by decide, by decide, by decide, by decide, by decide, by decide, by decide⟩

theorem lettersDir_mounted (count : ℕ) : Mounted theDir rootSuper (lettersDir count) where
  super := rfl
  geometry := lettersSuper_geometry
  driver := show HasDriver 256 from ⟨by decide, by decide⟩
  able := lettersCache_able count
  zmap := by
    intro k hk
    obtain rfl : k = 0 := Nat.lt_one_iff.mp hk
    exact ⟨zmapBuf, rfl, ⟨rfl, rfl⟩, Int.one_pos⟩

/-- The only zone of the file. -/
theorem zoneIn_one (B : ℕ → Block) (scale : ℕ) (p : Place) :
    zoneIn B (fun i => if i = 0 then 1 else 0) scale p = if p = .data 0 then 1 else 0 := by
  cases p with
  | single | double => rfl
  | ind k => simp [zoneIn, entry, nrDzoneNum]
  | data n =>
    rcases Nat.lt_or_ge n nrDzoneNum with hlt | hge
    · rw [zoneIn_direct_place hlt]
      simp
    · have hne : Place.data n ≠ .data 0 := by
        intro heq
        obtain rfl := Place.data.inj heq
        exact absurd hge (by decide)
      obtain ⟨q, e, hq, he, rfl⟩ := exists_under hge
      rw [zoneIn_under hq he, if_neg hne]
      cases q with
      | data | double => exact absurd hq id
      | single => simp [zoneIn, entry, nrDzoneNum]
      | ind k => simp [zoneIn, entry, nrDzoneNum]

/-- What the blocks of the device hold. -/
theorem lettersCache_map (count : ℕ) : blockAt (lettersCache count) 256 3 = oneZoneMap :=
  (lettersCache_able count).toLinked.blockAt_held
    (show Holds (lettersCache count) zmapBuf 256 3 from ⟨rfl, rfl⟩) (by decide)

theorem lettersCache_block (count : ℕ) (hm : m < 1024) :
    blockAt (lettersCache count) 256 (1024 + m) = lettersBlock count m := by
  rw [blockAt_absent fun bp hholds => ?_]
  · unfold lettersCache
    dsimp only
    rw [if_neg (by omega), if_pos (by omega), Nat.add_sub_cancel_left]
  · have hlt := mapBufs_blocknr bp
    have hnr : (mapBufs bp).blocknr = 1024 + m := hholds.2
    omega

theorem lettersDir_ok (count : ℕ) : (viewOf theDir (lettersDir count)).Ok lettersSuper := by
  have hzone : ∀ p, zoneIn (viewOf theDir (lettersDir count)).blocks
      (viewOf theDir (lettersDir count)).izone lettersSuper.logZoneSize p =
        if p = .data 0 then 1 else 0 := fun p => zoneIn_one _ _ p
  have hplace : ∀ p, (if p = Place.data 0 then 1 else 0) ≠ 0 → p = .data 0 := by
    intro p hp
    by_contra hne
    exact hp (if_neg hne)
  refine ⟨fun p hp => ?_, fun p hp => ?_, fun p q hp heq => ?_⟩
  · rw [hzone] at hp ⊢
    rw [if_pos (hplace p hp)]
    exact ⟨by decide, by decide⟩
  · rw [hzone] at hp ⊢
    rw [if_pos (hplace p hp)]
    change blockBit (blockAt (lettersCache count) 256 3) 1 = true
    rw [lettersCache_map]
    decide
  · rw [heq, hzone] at hp
    rw [hzone, hzone, if_pos (hplace q hp)] at heq
    rw [hplace q hp]
    apply hplace
    rw [heq]
    decide

/-! ### Its entries -/

/-- The letters for four bits. -/
theorem letter_spec : ∀ a < 16, 97 + UInt8.ofNat a ≠ 0 ∧
    ∀ b < 16, 97 + UInt8.ofNat a = 97 + UInt8.ofNat b → a = b := by
  decide

theorem letter_ne_zero (x : ℕ) : 97 + UInt8.ofNat (x % 16) ≠ 0 :=
  (letter_spec _ (Nat.mod_lt x (by decide))).1

theorem letter_inj {x y : ℕ} (h : 97 + UInt8.ofNat (x % 16) = 97 + UInt8.ofNat (y % 16)) :
    x % 16 = y % 16 :=
  (letter_spec _ (Nat.mod_lt x (by decide))).2 _ (Nat.mod_lt y (by decide)) h

theorem letters_inj (hn : n < 65536) (hm : m < 65536) (h : letters n = letters m) : n = m := by
  unfold letters at h
  simp only [List.cons.injEq, and_true] at h
  obtain ⟨h0, h1, h2, h3⟩ := h
  have e₀ := letter_inj h0
  have e₁ := letter_inj h1
  have e₂ := letter_inj h2
  have e₃ := letter_inj h3
  omega

theorem slotOf_lettersBlock {k : ℕ} :
    slotOf (lettersBlock count m) k =
      if 64 * m + k < count then some (letters (64 * m + k), 1) else none := by
  have hbyte : ∀ i, i < 16 → lettersBlock count m (16 * k + i) =
      if 64 * m + k < count then (0 :: 1 :: letters (64 * m + k)).getD i 0 else 0 := by
    intro i hi
    unfold lettersBlock
    rw [show (16 * k + i) / 16 = k by omega, show (16 * k + i) % 16 = i by omega]
  have h0 : lettersBlock count m (16 * k) = 0 := by
    rw [show 16 * k = 16 * k + 0 from rfl, hbyte 0 (by decide)]
    exact ite_self _
  have h1 := hbyte 1 (by decide)
  split
  next hlt =>
    rw [if_pos hlt] at h1
    rw [slotOf_eq_some]
    have hinum : dInum (lettersBlock count m) k = 1 := by
      unfold dInum getWord getByte dirEntrySize
      rw [h0, h1]
      rfl
    refine ⟨by decide, ?_, hinum⟩
    have hname : dName (lettersBlock count m) k = letters (64 * m + k) ++ List.replicate 10 0 := by
      have hmap : dName (lettersBlock count m) k =
          (List.range 14).map fun i => (0 :: 1 :: letters (64 * m + k)).getD (2 + i) 0 := by
        apply List.map_congr_left
        intro i hi
        have hi' : i < 14 := List.mem_range.mp hi
        rw [show dirEntrySize * k + 2 + i = 16 * k + (2 + i) from Nat.add_assoc .., hbyte _ (by omega),
          if_pos hlt]
      rw [hmap]
      rfl
    rw [hname]
    unfold key letters
    simp [letter_ne_zero]
  next hge =>
    rw [if_neg hge] at h1
    rw [slotOf_eq_none]
    unfold dInum getWord getByte dirEntrySize
    rw [h0, h1]
    rfl

theorem lettersDir_block (count : ℕ) (hm : m < 1024) :
    (viewOf theDir (lettersDir count)).block lettersSuper m = 1024 + m := by
  have hzone : zoneIn (viewOf theDir (lettersDir count)).blocks
      (viewOf theDir (lettersDir count)).izone 10 (.data (m / 1024)) = 1 := by
    rw [Nat.div_eq_of_lt hm]
    exact zoneIn_one _ _ _
  change (if zoneIn _ _ 10 (.data (m / 1024)) = 0 then 0 else
    toShort (zoneIn _ _ 10 (.data (m / 1024)) * 1024 + m % 1024)) = _
  rw [hzone, if_neg (by decide)]
  unfold toShort
  omega

theorem lettersDir_slot (count : ℕ) (hn : n < 65536) :
    dirSlot lettersSuper (viewOf theDir (lettersDir count)) n =
      if n < count then some (letters n, 1) else none := by
  have hm : n / 64 < 1024 := by omega
  have hblock := lettersDir_block count hm
  unfold dirSlot nrDirEntries
  rw [hblock]
  change slotOf (blockAt (lettersCache count) 256 (1024 + n / 64)) (n % 64) = _
  rw [lettersCache_block count hm, slotOf_lettersBlock, Nat.div_add_mod]

theorem lettersDir_entry {v : ℕ} {k : List UInt8} (hcount : count < 65536)
    (h : tableOf theDir rootSuper count (lettersDir count) n = some (k, v)) :
    n < count ∧ k = letters n := by
  unfold tableOf dirTable at h
  split at h
  next hlt =>
    have hslot := (lettersDir_slot count (by omega)).symm.trans h
    rw [if_pos hlt] at hslot
    exact ⟨hlt, (Prod.mk.inj (Option.some.inj hslot)).1.symm⟩
  next => exact absurd h (by simp)

theorem lettersDir_directory (hcount : count < 65536) :
    Directory theDir rootSuper count (lettersDir count) where
  toMounted := lettersDir_mounted count
  isDir := by
    change decide (0o040777 &&& iType = iDirectory) = true
    decide
  size := rfl
  dir := by
    refine ⟨lettersDir_ok count, hcount, fun m hm => ?_, fun n hn hge => ?_, fun n m k v w hn hm => ?_⟩
    · unfold nrDirEntries at hm
      rw [show (lettersDir count).supers rootSuper = lettersSuper from rfl,
        lettersDir_block count (by omega)]
      omega
    · unfold nrDirEntries at hn
      exact (lettersDir_slot count (by omega)).trans (if_neg (not_lt.mpr hge))
    · obtain ⟨hn', hk⟩ := lettersDir_entry hcount hn
      obtain ⟨hm', hk'⟩ := lettersDir_entry hcount hm
      exact letters_inj (by omega) (by omega) (hk.symm.trans hk')

/-- The name `new`. -/
def newName : Name := padName [110, 101, 119]

theorem newName_proper (hcount : count < 65536) :
    ProperCall theDir rootSuper count (.enter 1) newName (lettersDir count) where
  length := by decide
  enter numb hop := by
    obtain rfl : numb = 1 := (DirOp.enter.inj hop).symm
    refine ⟨by decide, by decide, by decide, ?_⟩
    rintro v ⟨n, hn⟩
    obtain ⟨-, hk⟩ := lettersDir_entry hcount hn
    have hthree : (key newName).length = 3 := by decide
    have hfour : (letters n).length = 4 := rfl
    rw [hk, hfour] at hthree
    exact absurd hthree (by decide)
  delete hop := absurd hop (by simp)

theorem newName_allowed (count : ℕ) :
    permission theDir rootSuper (searchBits (.enter 1)) (lettersDir count) = OK := by
  have hmode : ((lettersDir count).inodes theDir).mode = 0o040777 := rfl
  have huid : ((lettersDir count).fprocs (lettersDir count).g.fp).effuid = suUid := rfl
  have hro : ((lettersDir count).supers rootSuper).rdOnly = 0 := rfl
  have hcode : ∀ gid, accessCode ((lettersDir count).inodes theDir) (wBit ||| xBit) suUid gid = OK := by
    intro gid
    unfold accessCode permBits
    rw [hmode, if_pos rfl]
    decide
  unfold permission searchBits
  simp only [reduceCtorEq, if_false]
  rw [huid, hcode, hro]
  rfl

/-- All of 65535 slots are in use. -/
theorem letters_overflow : Directory theDir rootSuper 65535 (lettersDir 65535) ∧
    ProperCall theDir rootSuper 65535 (.enter 1) newName (lettersDir 65535) ∧
    ¬ActsAsMap theDir rootSuper 65535 (.enter 1) newName (lettersDir 65535) := by
  have hd := lettersDir_directory (show 65535 < 65536 by decide)
  have hr := newName_proper (show 65535 < 65536 by decide)
  refine ⟨hd, hr, searchDir_uncovers hd hr (newName_allowed _) fun n hn hfree => ?_⟩
  have hslot := (lettersDir_slot 65535 (Nat.lt_succ_of_lt hn)).trans (if_pos hn)
  have hnone := (if_pos hn).symm.trans hfree
  exact absurd (hslot.symm.trans hnone) (by simp)

theorem letters_enter : ActsAsMap theDir rootSuper 3 (.enter 1) newName (lettersDir 3) :=
  (actsAsMap_iff (lettersDir_directory (by decide)) (newName_proper (by decide))).mpr
    fun _ _ => .inl (by decide)

end LisaMinix.Fs.Server
