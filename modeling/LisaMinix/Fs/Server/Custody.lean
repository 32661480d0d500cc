import LisaMinix.Fs.Server.Fetching
import LisaMinix.Fs.Server.Path

/-!
# What a Program Has in Its Hands

Whatever the disks answer, a program of the server that is neither opening nor closing inodes uses at
most one buffer at a time, gives it back, and changes no inode but the one that it works on.  Two
disciplines say so, one for programs of the cache and one for those of the server; what they hold is
the buffer that is in use.

- `Orderly`, `lending`: the discipline of the cache.
- `Custody`, `custody`: the discipline of the server, of programs that work on one inode.
- `truncate_keeps`, `rwInode_keeps`: what is needed to release an inode and to load it.
-/

namespace LisaMinix.Fs.Server

open LisaMinix.Library Function
open Discipline (Passes Keeps)

variable {c c₀ : Cache} {s s₀ : FsState} {q : Bool} {r : InodeId} {o : Option BufId}

/-! ## §1 Buffers -/

/-- Whether a buffer is the one in hand. -/
def inHand (o : Option BufId) (x : BufId) : ℤ := if o = some x then 1 else 0

@[simp] theorem inHand_none (x : BufId) : inHand none x = 0 := if_neg (by simp)

/-- Since `c₀` a program has obtained the buffer `o`, if any, and given back all others. -/
structure Orderly (c₀ : Cache) (o : Option BufId) (c : Cache) : Prop where
  linked : Linked c
  served : Served c
  count : ∀ x, (c.buf x).count = (c₀.buf x).count + inHand o x

/-- A cache with a buffer that is not in use. -/
structure Spacious (c : Cache) : Prop where
  linked : Linked c
  served : Served c
  room : c.bufsInUse < nrBufs

theorem Spacious.orderly (h : Spacious c) : Orderly c none c :=
  ⟨h.linked, h.served, fun x => by rw [inHand_none, add_zero]⟩

theorem Orderly.spacious (h : Orderly c₀ none c) (h0 : Spacious c₀) : Spacious c where
  linked := h.linked
  served := h.served
  room := by
    have hsame : c.bufsInUse = c₀.bufsInUse := by
      rw [h.linked.inUse, h0.linked.inUse]
      congr 1
      apply Finset.filter_congr
      intro x _
      rw [h.count x, inHand_none, add_zero]
    rw [hsame]
    exact h0.room

theorem Orderly.used {bp : BufId} (h : Orderly c₀ (some bp) c) (h0 : Linked c₀) :
    (c.buf bp).count ≠ 0 := by
  have hnonneg := h0.nonneg bp
  rw [h.count bp, inHand, if_pos rfl]
  omega

/-- `get_block` keeps the chains and the counts in order, whatever the disk answers. -/
theorem getBlock_linked {dev b : ℕ} {search : Search} (hc : Linked c) :
    ReturnsC (getBlock dev b search) c fun bp c' =>
      Linked c' ∧ ∀ x, (c'.buf x).count = (c.buf x).count + inHand (some bp) x := by
  refine (getBlock_fetched hc).mono fun bp c' h => ⟨h.linked, fun x => ?_⟩
  rw [h.count, inHand]
  simp only [Option.some.injEq, eq_comm]

/-! ## §2 Programs of the Cache -/

section

variable {E : Panic → Prop} {c₀ : Cache} {o : Option BufId} {α β : Type} {dev b : ℕ} {bp : BufId}
  {blockType : BlockType}

/-- The discipline of the programs that use at most one buffer at a time. -/
def lending (E : Panic → Prop) (c₀ : Cache) : Discipline Cache Panic (Option BufId) where
  inv o c := Orderly c₀ o c
  rel _ _ _ _ := True
  err e _ := E e
  refl _ _ := trivial
  trans _ _ := trivial

theorem getBlock_lends {search : Search} (h0 : Spacious c₀) (hdev : HasDriver dev) :
    (lending E c₀).Passes none (getBlock dev b search) some := by
  intro c hc
  have hroom := (Orderly.spacious hc h0).room
  have hserves : SurelyC (getBlock dev b search) c fun _ c' => Served c' :=
    getBlock_surely hc.linked hc.served hroom hdev
  have hspec := hserves.and (getBlock_linked hc.linked)
  refine hspec.mono' (fun _ _ h => h.elim) ?_
  rintro bp c' ⟨hserved, hlinked, hcount⟩
  refine ⟨⟨hlinked, hserved, fun x => ?_⟩, trivial⟩
  rw [hcount, hc.count, inHand_none, add_zero]

theorem putBlock_lends (h0 : Spacious c₀) (htype : blockType.writeImmed = false)
    (hzuper : blockType ≠ .zuperBlock) :
    (lending E c₀).Passes (some bp) (putBlock (.to bp) blockType) fun _ => none := by
  intro c hc
  have hused := Orderly.used hc h0.linked
  have hnonneg := hc.linked.nonneg bp
  have hpos : 0 ≤ (c.buf bp).count - 1 := by omega
  have hlinked : ReturnsC (putBuf bp blockType) c fun _ c' =>
      Linked c' ∧ ∀ x, (c'.buf x).count = (c₀.buf x).count := by
    refine (putBuf_counted hc.linked hused htype hzuper).mono ?_
    rintro _ c' ⟨hcounted, -⟩
    refine ⟨hcounted.linked hpos hc.linked, fun x => ?_⟩
    rw [hcounted.put.count, hc.count]
    simp [inHand, eq_comm]
  refine (Surely.and (putBuf_surely htype hzuper hc.served) hlinked).mono' (fun _ _ h => h.elim) ?_
  rintro _ c' ⟨hserved, hlinked', hcount⟩
  exact ⟨⟨hlinked', hserved, fun x => by rw [hcount, inHand_none, add_zero]⟩, trivial⟩

/-- The data of a buffer, or its dirt, are changed. -/
theorem modBuf_lends {f : Buf → Buf} (hf : ∀ x, (f x).dev = x.dev ∧ (f x).blocknr = x.blocknr ∧
    (f x).count = x.count) : (lending E c₀).Keeps o (modBuf bp f) := by
  intro c hc
  have htouched := touched_update (f (c.buf bp)) (hf _).1 (hf _).2.1 (hf _).2.2
  refine ⟨⟨htouched.linked hc.linked, hc.served.of_dev fun x => .inl (htouched.keeps x).1, fun x => ?_⟩,
    trivial⟩
  rw [(htouched.keeps x).2.2]
  exact hc.count x

theorem readBuf_lends : (lending E c₀).Keeps o (readBuf bp) := fun _ hc => ⟨hc, trivial⟩

theorem dirtyBuf_lends {f : Block → Block} : (lending E c₀).Keeps o (dirtyBuf bp f) :=
  modBuf_lends fun _ => ⟨rfl, rfl, rfl⟩

theorem zeroBlock_lends : (lending E c₀).Keeps o (zeroBlock bp) := modBuf_lends fun _ => ⟨rfl, rfl, rfl⟩

theorem indirectEntry_lends {i : ℕ} (h0 : Spacious c₀) (hdev : HasDriver dev) :
    (lending E c₀).Keeps none (indirectEntry dev b i) := by
  refine Passes.bind (getBlock_lends h0 hdev) fun bp => ?_
  refine Passes.bind readBuf_lends fun data => ?_
  refine Passes.bind (putBlock_lends h0 rfl (by decide)) fun _ => ?_
  exact Keeps.pure _

theorem zoneOf_lends {izone : ℕ → ℕ} {scale zone : ℕ} (h0 : Spacious c₀) (hdev : HasDriver dev) :
    (lending E c₀).Keeps none (zoneOf dev izone scale zone) := by
  unfold zoneOf
  dsimp only
  split
  · exact Keeps.pure _
  · split
    · split
      · exact Keeps.pure _
      · exact indirectEntry_lends h0 hdev
    · split
      · exact Keeps.pure _
      · refine Passes.bind (indirectEntry_lends h0 hdev) fun z => ?_
        split
        · exact Keeps.pure _
        · exact indirectEntry_lends h0 hdev

theorem clearBlocks_lends {n : ℕ} (h0 : Spacious c₀) (hdev : HasDriver dev) :
    (lending E c₀).Keeps none (clearBlocks dev n b) := by
  induction n generalizing b with
  | zero => exact Keeps.pure _
  | succ n ih =>
    refine Passes.bind (getBlock_lends h0 hdev) fun bp => ?_
    refine Passes.bind zeroBlock_lends fun _ => ?_
    refine Passes.bind (putBlock_lends h0 rfl (by decide)) fun _ => ?_
    exact ih

/-- A map none of whose pointers is wild. -/
def TameMap (map : ℕ → Ptr BufId) : Prop := ∀ i < 8, ∀ a, map i ≠ .wild a

variable {map : ℕ → Ptr BufId}

theorem freeBit_lends {bit : ℕ} (hmap : TameMap map) (hbit : bit < 65536) :
    (lending E c₀).Keeps o (freeBit map bit) := by
  have hslot : bit / bitsPerBlock < 8 := by
    unfold bitsPerBlock
    omega
  unfold freeBit
  split
  · exact Keeps.pure _
  · next a hptr => exact absurd hptr (hmap _ hslot a)
  · exact dirtyBuf_lends

end

/-! ## §3 Programs of the Server -/

/-- What no program on the contents of an inode changes, from `y` to `x`; that it is a pipe in use may
    be forgotten. -/
structure SameInode (x y : Inode) : Prop where
  count : x.count = y.count
  dev : x.dev = y.dev
  num : x.num = y.num
  mount : x.mount = y.mount
  pipe : x.pipe = true → y.pipe = true

theorem SameInode.refl (x : Inode) : SameInode x x := ⟨rfl, rfl, rfl, rfl, id⟩

theorem SameInode.trans {x y z : Inode} (h : SameInode x y) (h' : SameInode y z) : SameInode x z :=
  ⟨h.count.trans h'.count, h.dev.trans h'.dev, h.num.trans h'.num, h.mount.trans h'.mount,
    fun hx => h'.pipe (h.pipe hx)⟩

/-- A super block of which only the time may have changed, and that it is dirty. -/
def SameSuper (x y : Super) : Prop := x = { y with time := x.time, dirt := x.dirt }

theorem SameSuper.trans {x y z : Super} (h : SameSuper x y) (h' : SameSuper y z) : SameSuper x z := by
  unfold SameSuper at *
  rw [h, h']

/-- The device is in the super block table. -/
def KnownDev (s : FsState) (dev : ℕ) : Prop := dev ≠ noDev ∧ ∃ sp, (s.supers sp).dev = dev

/-- The tables of a server that can do its work: there is room in the cache, the devices in the super
    block table have drivers and maps, and the root device is one of them. -/
structure Furnished (s : FsState) : Prop where
  cache : Spacious s.cache
  driver : ∀ sp, (s.supers sp).dev ≠ noDev → HasDriver (s.supers sp).dev
  root : KnownDev s s.g.rootDev
  maps : ∀ sp, (s.supers sp).dev ≠ noDev → TameMap (s.supers sp).imap ∧ TameMap (s.supers sp).zmap

theorem Furnished.hasDriver (h : Furnished s) {dev : ℕ} (hdev : KnownDev s dev) :
    HasDriver dev := by
  obtain ⟨hvalid, sp, rfl⟩ := hdev
  exact h.driver sp hvalid

/-- Since `s₀` a program has worked on inode `r`, with buffer `o` in hand; it is `quiet` if it has not set
    `err_code`. -/
structure Custody (quiet : Bool) (r : InodeId) (s₀ : FsState) (o : Option BufId) (s : FsState) : Prop where
  cache : Orderly s₀.cache o s.cache
  others : ∀ i, i ≠ r → s.inodes i = s₀.inodes i
  self : SameInode (s.inodes r) (s₀.inodes r)
  super : ∀ sp, SameSuper (s.supers sp) (s₀.supers sp)
  filps : s.filps = s₀.filps
  fprocs : s.fprocs = s₀.fprocs
  globals : s.g = { s₀.g with errCode := s.g.errCode, tick := s.g.tick }
  err : quiet = true → s.g.errCode = s₀.g.errCode

theorem Custody.inode (h : Custody q r s₀ o s) (i : InodeId) :
    SameInode (s.inodes i) (s₀.inodes i) := by
  rcases eq_or_ne i r with rfl | hi
  · exact h.self
  · rw [h.others i hi]
    exact .refl _

theorem Custody.refl (r : InodeId) (h : Furnished s) : Custody q r s none s where
  cache := h.cache.orderly
  others _ _ := rfl
  self := .refl _
  super _ := rfl
  filps := rfl
  fprocs := rfl
  globals := rfl
  err _ := rfl

theorem Orderly.trans {c' : Cache} (h : Orderly c₀ none c) (h' : Orderly c o c') :
    Orderly c₀ o c' where
  linked := h'.linked
  served := h'.served
  count x := by rw [h'.count, h.count, inHand_none, add_zero]

theorem Custody.trans {s' : FsState} (h : Custody q r s₀ none s) (h' : Custody q r s o s') :
    Custody q r s₀ o s' where
  cache := h.cache.trans h'.cache
  others i hi := by rw [h'.others i hi, h.others i hi]
  self := h'.self.trans h.self
  super sp := (h'.super sp).trans (h.super sp)
  filps := h'.filps.trans h.filps
  fprocs := h'.fprocs.trans h.fprocs
  globals := by rw [h'.globals, h.globals]
  err hq := (h'.err hq).trans (h.err hq)

theorem Custody.knownDev (h : Custody q r s₀ o s) {dev : ℕ} (hdev : KnownDev s₀ dev) :
    KnownDev s dev := by
  obtain ⟨hvalid, sp, hsp⟩ := hdev
  refine ⟨hvalid, sp, ?_⟩
  rw [h.super sp]
  exact hsp

theorem Custody.furnished (h : Custody q r s₀ none s) (h0 : Furnished s₀) : Furnished s where
  cache := h.cache.spacious h0.cache
  driver sp := by
    rw [h.super sp]
    exact h0.driver sp
  root := by
    rw [h.globals]
    exact h.knownDev h0.root
  maps sp := by
    rw [h.super sp]
    exact h0.maps sp

theorem Custody.dev (h : Custody q r s₀ o s) (sp : SuperId) :
    (s.supers sp).dev = (s₀.supers sp).dev := by
  rw [h.super sp]

/-- The discipline of the programs that work on inode `r`. -/
def custody (E : Panic → Prop) (q : Bool) (r : InodeId) (s₀ : FsState) :
    Discipline FsState Panic (Option BufId) where
  inv o s := Custody q r s₀ o s
  rel _ _ _ _ := True
  err e _ := E e
  refl _ _ := trivial
  trans _ _ := trivial

section

variable {E : Panic → Prop} {q : Bool} {r : InodeId} {s₀ : FsState} {α β : Type} {o : Option BufId}
  {o' : β → Option BufId} {dev : ℕ}

/-! What a program does that reads a table and goes on with what it has read. -/

theorem reads_inode {i : InodeId} {f : Inode → FsM β}
    (h : ∀ x, SameInode x (s₀.inodes i) → (custody E q r s₀).Passes o (f x) o') :
    (custody E q r s₀).Passes o (readInode i >>= f) o' := by
  intro s hs
  rw [wp_bind, wp_readInode]
  exact h _ (Custody.inode hs i) s hs

theorem reads_super {sp : SuperId} {f : Super → FsM β}
    (h : ∀ x, SameSuper x (s₀.supers sp) → (custody E q r s₀).Passes o (f x) o') :
    (custody E q r s₀).Passes o (readSuper sp >>= f) o' := by
  intro s hs
  rw [wp_bind, wp_readSuper]
  exact h _ (Custody.super hs sp) s hs

theorem reads_globals {f : Globals → FsM β}
    (h : ∀ g, g = { s₀.g with errCode := g.errCode, tick := g.tick } →
      (custody E q r s₀).Passes o (f g) o') : (custody E q r s₀).Passes o (globals >>= f) o' := by
  intro s hs
  rw [wp_bind, wp_globals]
  exact h _ (Custody.globals hs) s hs

theorem reads_caller {f : Fproc → FsM β} (h : ∀ x, (custody E q r s₀).Passes o (f x) o') :
    (custody E q r s₀).Passes o (caller >>= f) o' := by
  intro s hs
  rw [wp_bind, wp_caller]
  exact h _ s hs

theorem getSuper_keeps (hdev : ∃ sp, (s₀.supers sp).dev = dev) {f : SuperId → FsM β}
    (h : ∀ sp, (s₀.supers sp).dev = dev → (custody E q r s₀).Passes o (f sp) o') :
    (custody E q r s₀).Passes o (getSuper dev >>= f) o' := by
  intro s hs
  obtain ⟨sp, hsp⟩ := hdev
  unfold getSuper
  simp only [wp_bind, wp_get]
  cases hfirst : firstId fun sp => decide ((s.supers sp).dev = dev) with
  | none =>
    have hnot := List.find?_eq_none.mp hfirst sp (List.mem_finRange sp)
    rw [Custody.dev hs sp] at hnot
    exact absurd (decide_eq_true hsp) hnot
  | some sp' =>
    have hfound : (s.supers sp').dev = dev := by simpa using List.find?_some hfirst
    rw [Custody.dev hs sp'] at hfound
    exact h sp' hfound s hs

/-- A program of the cache as one of the server. -/
theorem liftC_passes {p : CacheM β} (h : (lending E s₀.cache).Passes o p o') :
    (custody E q r s₀).Passes o (liftC p) o' := by
  intro s hs
  rw [wp_liftC]
  refine (h s.cache hs.cache).mono ?_
  rintro a c ⟨hc, -⟩
  exact ⟨⟨hc, hs.others, hs.self, hs.super, hs.filps, hs.fprocs, hs.globals, hs.err⟩, trivial⟩

theorem modInode_keeps {f : Inode → Inode} (hf : ∀ x, SameInode (f x) x) :
    (custody E q r s₀).Keeps o (modInode r f) := by
  refine Passes.modify fun s hs => ?_
  refine ⟨⟨hs.cache, fun i hi => ?_, ?_, hs.super, hs.filps, hs.fprocs, hs.globals, hs.err⟩, trivial⟩
  · dsimp only
    rw [update_of_ne hi]
    exact hs.others i hi
  · dsimp only
    rw [update_self]
    exact (hf _).trans hs.self

theorem modSuper_keeps {sp : SuperId} {f : Super → Super} (hf : ∀ x, SameSuper (f x) x) :
    (custody E q r s₀).Keeps o (modSuper sp f) := by
  refine Passes.modify fun s hs => ?_
  refine ⟨⟨hs.cache, hs.others, hs.self, fun sp' => ?_, hs.filps, hs.fprocs, hs.globals, hs.err⟩, trivial⟩
  dsimp only
  rcases eq_or_ne sp' sp with rfl | hsp
  · rw [update_self]
    exact (hf _).trans (hs.super sp')
  · rw [update_of_ne hsp]
    exact hs.super sp'

theorem modGlobals_keeps {f : Globals → Globals}
    (hf : ∀ g, f g = { g with errCode := (f g).errCode, tick := (f g).tick })
    (herr : q = true → ∀ g, (f g).errCode = g.errCode) :
    (custody E q r s₀).Keeps o (modGlobals f) := by
  refine Passes.modify fun s hs => ?_
  refine ⟨⟨hs.cache, hs.others, hs.self, hs.super, hs.filps, hs.fprocs, ?_, fun hq => ?_⟩, trivial⟩
  · dsimp only
    rw [hf, hs.globals]
  · exact (herr hq _).trans (hs.err hq)

theorem setErr_keeps (e : ℤ) : (custody E false r s₀).Keeps o (setErr e) :=
  modGlobals_keeps (fun _ => rfl) (by simp)

theorem if_keeps {p p' : FsM β} {c : Prop} [Decidable c]
    (hp : c → (custody E q r s₀).Passes o p o') (hp' : ¬c → (custody E q r s₀).Passes o p' o') :
    (custody E q r s₀).Passes o (if c then p else p') o' := by
  split
  next h => exact hp h
  next h => exact hp' h

end

/-! ## §4 Zones -/

section

variable {E : Panic → Prop} {q : Bool} {r : InodeId} {s₀ : FsState} {o : Option BufId} {dev : ℕ}
variable {n : ℕ} {string : Name} {op : DirOp}

theorem scaleFactor_keeps (hr : KnownDev s₀ (s₀.inodes r).dev) :
    (custody E q r s₀).Keeps o (scaleFactor r) := by
  refine reads_inode fun i hi => ?_
  rw [hi.dev]
  refine getSuper_keeps hr.2 fun sp _ => ?_
  refine reads_super fun x _ => ?_
  exact Keeps.pure _

/-- `read_map` for a position that is not an overflow. -/
theorem readMap_keeps {position : ℤ} (h0 : Furnished s₀) (hr : KnownDev s₀ (s₀.inodes r).dev)
    (hpos : E .wildPointer ∨ -(blockSize : ℤ) < position) :
    (custody E q r s₀).Keeps none (readMap r position) := by
  refine Passes.bind (scaleFactor_keeps hr) fun scale => ?_
  refine reads_inode fun i hi => ?_
  refine if_keeps (fun hlow => ?_) fun _ => ?_
  · rcases hpos with hE | hpos
    · exact .throw fun _ _ => hE
    · exact absurd hlow (not_le.mpr hpos)
  · have hzone : (lending E s₀.cache).Keeps none (zoneOf i.dev i.zone scale
        ((position / blockSize).toNat / 2 ^ scale)) := by
      rw [hi.dev]
      exact zoneOf_lends h0.cache (h0.hasDriver hr)
    refine Passes.bind (liftC_passes hzone) fun z => ?_
    exact if_keeps (fun _ => Keeps.pure _) fun _ => Keeps.pure _

theorem toShort_lt (n : ℕ) : toShort n < 65536 := Nat.mod_lt _ (by decide)

theorem freeZone_keeps {numb : ℕ} (h0 : Furnished s₀) (hdev : KnownDev s₀ dev) :
    (custody E q r s₀).Keeps o (freeZone dev numb) := by
  refine if_keeps (fun _ => Keeps.pure _) fun _ => ?_
  refine getSuper_keeps hdev.2 fun sp hsp => ?_
  refine reads_super fun x hx => ?_
  have hmap : TameMap x.zmap := by
    rw [hx]
    exact (h0.maps sp (hsp ▸ hdev.1)).2
  exact liftC_passes (freeBit_lends hmap (toShort_lt _))

theorem freeInode_keeps {numb : ℕ} (h0 : Furnished s₀) (hdev : KnownDev s₀ dev) (hnumb : numb < 65536) :
    (custody E q r s₀).Keeps o (freeInode dev numb) := by
  refine getSuper_keeps hdev.2 fun sp hsp => ?_
  refine reads_super fun x hx => ?_
  have hmap : TameMap x.imap := by
    rw [hx]
    exact (h0.maps sp (hsp ▸ hdev.1)).1
  exact liftC_passes (freeBit_lends hmap hnumb)

theorem freeZones_keeps {scale : ℕ} {position : ℤ} (h0 : Furnished s₀)
    (hr : KnownDev s₀ (s₀.inodes r).dev) (hdev : KnownDev s₀ dev) (hpos : 0 ≤ position) :
    (custody E q r s₀).Keeps none (freeZones r dev scale n position) := by
  induction n generalizing position with
  | zero => exact Keeps.pure _
  | succ n ih =>
    have hnext : 0 ≤ position + blockSize * 2 ^ scale := by positivity
    have hlow : -(blockSize : ℤ) < position := lt_of_lt_of_le (by decide) hpos
    refine Passes.bind (readMap_keeps h0 hr (.inr hlow)) fun b => ?_
    have hrest : (custody E q r s₀).Keeps none
        (freeZones r dev scale n (position + blockSize * 2 ^ scale)) := ih hnext
    dsimp only
    refine if_keeps (fun _ => ?_) fun _ => hrest
    exact Passes.bind (freeZone_keeps h0 hdev) fun _ => hrest

theorem freeIndirects_keeps {bp : BufId} {i : ℕ} (h0 : Furnished s₀) (hdev : KnownDev s₀ dev) :
    (custody E q r s₀).Keeps o (freeIndirects dev bp n i) := by
  induction n generalizing i with
  | zero => exact Keeps.pure _
  | succ n ih =>
    refine Passes.bind (liftC_passes readBuf_lends) fun data => ?_
    exact Passes.bind (freeZone_keeps h0 hdev) fun _ => ih

theorem wipeInode_keeps : (custody E q r s₀).Keeps o (wipeInode r) :=
  modInode_keeps fun _ => ⟨rfl, rfl, rfl, rfl, id⟩

/-- `truncate` uses no more than the double indirect block. -/
theorem truncate_keeps (h0 : Furnished s₀) (hr : KnownDev s₀ (s₀.inodes r).dev) :
    (custody E q r s₀).Keeps none (truncate r) := by
  refine reads_inode fun i hi => ?_
  have hdev : KnownDev s₀ i.dev := by
    rw [hi.dev]
    exact hr
  refine if_keeps (fun _ => Keeps.pure _) fun _ => ?_
  refine Passes.bind (scaleFactor_keeps hr) fun scale => ?_
  -- the size of a pipe is forgotten, and its zones too
  refine Passes.join ?_ fun hfree =>
    Passes.bind (modInode_keeps fun _ => ⟨rfl, rfl, rfl, rfl, id⟩) fun _ => hfree
  refine reads_inode fun x _ => ?_
  refine Passes.bind (freeZones_keeps h0 hr hdev le_rfl) fun _ => ?_
  refine Passes.bind (freeZone_keeps h0 hdev) fun _ => ?_
  refine Passes.join ?_ fun hlast => ?_
  · refine Passes.join ?_ fun hsoil => Passes.bind wipeInode_keeps fun _ => hsoil
    exact modInode_keeps fun _ => ⟨rfl, rfl, rfl, rfl, id⟩
  · refine Passes.bind (liftC_passes (getBlock_lends h0.cache (h0.hasDriver hdev))) fun bp => ?_
    refine Passes.bind (freeIndirects_keeps h0 hdev) fun _ => ?_
    refine Passes.bind (liftC_passes (putBlock_lends h0.cache rfl (by decide))) fun _ => ?_
    exact Passes.bind (freeZone_keeps h0 hdev) fun _ => hlast

/-! ## §5 Inodes and Their Blocks -/

theorem clockTime_keeps (h0 : Furnished s₀) : (custody E q r s₀).Keeps o clockTime := by
  refine reads_globals fun g hg => ?_
  refine Passes.bind (modGlobals_keeps (fun _ => rfl) fun _ _ => rfl) fun _ => ?_
  have hroot : ∃ sp, (s₀.supers sp).dev = g.rootDev := by
    rw [hg]
    exact h0.root.2
  refine getSuper_keeps hroot fun sp _ => ?_
  refine Passes.bind (modSuper_keeps fun _ => rfl) fun _ => ?_
  exact Keeps.pure _

theorem updateTimes_keeps (h0 : Furnished s₀) : (custody E q r s₀).Keeps o (updateTimes r) :=
  Passes.bind (clockTime_keeps h0) fun _ => modInode_keeps fun _ => ⟨rfl, rfl, rfl, rfl, id⟩

theorem rwInode_keeps {rw : RwFlag} (h0 : Furnished s₀) (hr : KnownDev s₀ (s₀.inodes r).dev) :
    (custody E q r s₀).Keeps none (rwInode r rw) := by
  refine reads_inode fun i hi => ?_
  have hdev : KnownDev s₀ i.dev := by
    rw [hi.dev]
    exact hr
  refine getSuper_keeps hdev.2 fun sp _ => ?_
  refine reads_super fun x _ => ?_
  refine Passes.bind (liftC_passes (getBlock_lends h0.cache (h0.hasDriver hdev))) fun bp => ?_
  have hlast : (custody E q r s₀).Passes (some bp) (do
      liftC (putBlock (.to bp) .inodeBlock)
      modInode r fun x => { x with dirt := false }) fun _ => none := by
    refine Passes.bind (liftC_passes (putBlock_lends h0.cache rfl (by decide))) fun _ => ?_
    exact modInode_keeps fun _ => ⟨rfl, rfl, rfl, rfl, id⟩
  cases rw with
  | reading =>
    refine Passes.bind (liftC_passes readBuf_lends) fun data => ?_
    exact Passes.bind (modInode_keeps fun _ => ⟨rfl, rfl, rfl, rfl, id⟩) fun _ => hlast
  | writing =>
    refine Passes.join ?_ fun hwrite => Passes.bind (updateTimes_keeps h0) fun _ => hwrite
    refine reads_inode fun i' _ => ?_
    exact Passes.bind (liftC_passes dirtyBuf_lends) fun _ => hlast

/-! ## §6 The Search of a Directory -/

theorem readOnly_keeps (hr : KnownDev s₀ (s₀.inodes r).dev) :
    (custody E q r s₀).Keeps o (readOnly r) := by
  refine reads_inode fun i hi => ?_
  rw [hi.dev]
  refine getSuper_keeps hr.2 fun sp _ => ?_
  refine reads_super fun x _ => ?_
  exact Keeps.pure _

theorem forbidden_keeps {access : ℕ} {real : Bool} (hr : KnownDev s₀ (s₀.inodes r).dev) :
    (custody E q r s₀).Keeps o (forbidden r access real) := by
  refine reads_caller fun fp => ?_
  refine reads_inode fun i _ => ?_
  exact if_keeps (fun _ => readOnly_keeps hr) fun _ => Keeps.pure _

/-- The search for an entry that is not to be made has no slot to offer. -/
theorem searchEntries_noSlot {data : Block} {string : Name} {op : DirOp}
    {oldSlots n k newSlots k' : ℕ} (hop : op.isEnter = false) :
    (searchEntries data string op oldSlots n k newSlots).1 ≠ .slot k' := by
  induction n generalizing k newSlots with
  | zero => simp [searchEntries]
  | succ n ih =>
    unfold searchEntries
    simp only [hop, Bool.false_eq_true, if_false, false_and, true_and]
    split_ifs
    · simp
    · simp
    · exact ih
    · simp
    · exact ih

/-- The buffer that the search has ended with. -/
def Searched.inHand (op : DirOp) : Searched → Option BufId
  | .slot bp _ _ => if op.isEnter then some bp else none
  | _ => none

theorem returns_searched (x : Searched) :
    (custody E q r s₀).Passes (x.inHand op) (pure x) (Searched.inHand op) := Passes.pure x

theorem useEntry_keeps {bp : BufId} {k : ℕ} (h0 : Furnished s₀) (hop : op ≠ .delete) :
    (custody E q r s₀).Passes (some bp) (useEntry r bp k op) fun _ => none := by
  refine Passes.bind (liftC_passes readBuf_lends) fun data => ?_
  dsimp only
  rw [if_neg hop]
  refine Passes.bind (liftC_passes (putBlock_lends h0.cache rfl (by decide))) fun _ => ?_
  exact Keeps.pure _

theorem searchBlocksOf_keeps {oldSlots newSlots : ℕ} {pos : ℤ} (h0 : Furnished s₀)
    (hr : KnownDev s₀ (s₀.inodes r).dev) (hop : op ≠ .delete) (hpos : 0 ≤ pos) :
    (custody E q r s₀).Passes none (searchBlocksOf r string op oldSlots n pos newSlots)
      (Searched.inHand op) := by
  induction n generalizing pos newSlots with
  | zero => exact returns_searched (.exhausted newSlots)
  | succ n ih =>
    have hlow : -(blockSize : ℤ) < pos := lt_of_lt_of_le (by decide) hpos
    have hnext : 0 ≤ pos + blockSize := by positivity
    refine Passes.bind (readMap_keeps h0 hr (.inr hlow)) fun b => ?_
    refine reads_inode fun i hi => ?_
    have hdev : HasDriver i.dev := by
      rw [hi.dev]
      exact h0.hasDriver hr
    refine Passes.bind (liftC_passes (getBlock_lends h0.cache hdev)) fun bp => ?_
    refine Passes.bind (liftC_passes readBuf_lends) fun data => ?_
    split
    next k _ _ =>
      refine Passes.bind (useEntry_keeps h0 hop) fun numb => ?_
      exact returns_searched (.done numb)
    next k newSlots hfound =>
      have henter : op.isEnter = true := by
        by_contra hnot
        exact searchEntries_noSlot (Bool.eq_false_iff.mpr hnot) (congrArg Prod.fst hfound)
      have hslot : (Searched.slot bp k newSlots).inHand op = some bp := if_pos henter
      rw [← hslot]
      exact returns_searched _
    next newSlots _ =>
      exact Passes.bind (liftC_passes (putBlock_lends h0.cache rfl (by decide))) fun _ => ih hnext

/-- `search_dir` for `LOOK_UP` -/
theorem searchDir_lookUp_keeps (h0 : Furnished s₀) (hr : KnownDev s₀ (s₀.inodes r).dev) :
    (custody E q r s₀).Keeps none (searchDir r string .lookUp) := by
  refine reads_inode fun i _ => ?_
  refine if_keeps (fun _ => Keeps.pure _) fun _ => ?_
  refine Passes.bind (forbidden_keeps hr) fun code => ?_
  refine if_keeps (fun _ => Keeps.pure _) fun _ => ?_
  refine Passes.bind (searchBlocksOf_keeps h0 hr (by decide) le_rfl) fun found => ?_
  cases found with
  | done numb => exact Keeps.pure _
  | slot bp k newSlots => exact Keeps.pure _
  | exhausted newSlots => exact Keeps.pure _

end

/-! ## §7 New Blocks -/

section

variable {E : Panic → Prop} {r : InodeId} {s₀ : FsState} {c₀ : Cache} {o : Option BufId} {dev : ℕ}
variable {scale z excess : ℕ} {position : ℤ}

theorem writeIndirect_keeps {newZone : ℕ} {newInd : Bool} (h0 : Furnished s₀)
    (hr : KnownDev s₀ (s₀.inodes r).dev) :
    (custody E false r s₀).Keeps none (writeIndirect r scale z excess newZone newInd) := by
  refine reads_inode fun i hi => ?_
  have hdev : HasDriver i.dev := by
    rw [hi.dev]
    exact h0.hasDriver hr
  refine Passes.bind (liftC_passes (getBlock_lends h0.cache hdev)) fun bp => ?_
  refine Passes.join ?_ fun hlast => Passes.bind (liftC_passes zeroBlock_lends) fun _ => hlast
  refine Passes.bind (liftC_passes dirtyBuf_lends) fun _ => ?_
  refine Passes.bind (modInode_keeps fun _ => ⟨rfl, rfl, rfl, rfl, id⟩) fun _ => ?_
  refine Passes.bind (liftC_passes (putBlock_lends h0.cache rfl (by decide))) fun _ => ?_
  exact Keeps.pure _

theorem returns_error : (custody E false r s₀).Keeps o (do return (← globals).errCode) :=
  reads_globals fun _ _ => Keeps.pure _

theorem setZone_keeps {i : ℕ} : (custody E false r s₀).Keeps o (setZone r i z) :=
  modInode_keeps fun _ => ⟨rfl, rfl, rfl, rfl, id⟩

theorem enterEntry_keeps {string : Name} {numb k oldSlots newSlots : ℕ} {bp : BufId}
    (h0 : Furnished s₀) : (custody E false r s₀).Passes (some bp)
      (enterEntry r string numb bp k oldSlots newSlots) fun _ => none := by
  refine Passes.bind (liftC_passes dirtyBuf_lends) fun _ => ?_
  refine Passes.bind (liftC_passes (putBlock_lends h0.cache rfl (by decide))) fun _ => ?_
  exact Passes.bind (modInode_keeps fun _ => ⟨rfl, rfl, rfl, rfl, id⟩) fun _ => Keeps.pure _

variable (hE : ∀ e, E e)

include hE

theorem searchBlocks_lends {mapBits bitBlocks count b w : ℕ} :
    (lending E c₀).Keeps o (searchBlocks map mapBits bitBlocks count b w) := by
  induction count generalizing b w with
  | zero => exact Keeps.pure _
  | succ count ih =>
    unfold searchBlocks
    split
    · exact .throw fun _ _ => hE _
    · exact .throw fun _ _ => hE _
    · refine Passes.bind readBuf_lends fun data => ?_
      split
      · exact Passes.bind dirtyBuf_lends fun _ => Keeps.pure _
      · exact ih

theorem allocBit_lends {mapBits bitBlocks origin : ℕ} :
    (lending E c₀).Keeps o (allocBit map mapBits bitBlocks origin) := searchBlocks_lends hE

theorem allocZone_keeps (hdev : KnownDev s₀ dev) :
    (custody E false r s₀).Keeps o (allocZone dev z) := by
  refine getSuper_keeps hdev.2 fun sp _ => ?_
  refine reads_super fun x _ => ?_
  refine Passes.bind (liftC_passes (allocBit_lends hE)) fun b => ?_
  refine if_keeps (fun _ => ?_) fun _ => Keeps.pure _
  exact Passes.bind (setErr_keeps _) fun _ => Keeps.pure _

theorem writeSingle_keeps {newZone : ℕ} (h0 : Furnished s₀) (hr : KnownDev s₀ (s₀.inodes r).dev) :
    (custody E false r s₀).Keeps none (writeSingle r scale excess newZone) := by
  refine reads_inode fun i hi => ?_
  refine if_keeps (fun _ => writeIndirect_keeps h0 hr) fun _ => ?_
  rw [hi.dev]
  refine Passes.bind (allocZone_keeps hE hr) fun z => ?_
  refine Passes.bind (setZone_keeps) fun _ => ?_
  exact if_keeps (fun _ => returns_error) fun _ => writeIndirect_keeps h0 hr

theorem writeDouble_keeps {index newZone : ℕ} {newDbl : Bool} (h0 : Furnished s₀)
    (hr : KnownDev s₀ (s₀.inodes r).dev) :
    (custody E false r s₀).Keeps none (writeDouble r scale z index excess newZone newDbl) := by
  refine reads_inode fun i hi => ?_
  rw [hi.dev]
  refine Passes.bind (liftC_passes (getBlock_lends h0.cache (h0.hasDriver hr))) fun bp => ?_
  refine Passes.join ?_ fun hlast => Passes.bind (liftC_passes zeroBlock_lends) fun _ => hlast
  refine Passes.bind (liftC_passes readBuf_lends) fun data => ?_
  refine if_keeps (fun _ => ?_) fun _ => ?_
  · refine Passes.bind (liftC_passes (putBlock_lends h0.cache rfl (by decide))) fun _ => ?_
    exact writeIndirect_keeps h0 hr
  · refine Passes.bind (allocZone_keeps hE hr) fun z' => ?_
    refine Passes.bind (liftC_passes dirtyBuf_lends) fun _ => ?_
    refine Passes.bind (liftC_passes (putBlock_lends h0.cache rfl (by decide))) fun _ => ?_
    exact if_keeps (fun _ => returns_error) fun _ => writeIndirect_keeps h0 hr

theorem writeMap_keeps {newZone : ℕ} (h0 : Furnished s₀) (hr : KnownDev s₀ (s₀.inodes r).dev) :
    (custody E false r s₀).Keeps none (writeMap r position newZone) := by
  refine Passes.bind (modInode_keeps fun _ => ⟨rfl, rfl, rfl, rfl, id⟩) fun _ => ?_
  refine Passes.bind (scaleFactor_keeps hr) fun scale => ?_
  refine if_keeps (fun _ => ?_) fun _ => ?_
  · refine Passes.bind (setZone_keeps) fun _ => ?_
    exact Passes.bind (modInode_keeps fun _ => ⟨rfl, rfl, rfl, rfl, id⟩) fun _ => Keeps.pure _
  · refine if_keeps (fun _ => writeSingle_keeps hE h0 hr) fun _ => ?_
    refine reads_inode fun i hi => ?_
    refine if_keeps (fun _ => ?_) fun _ => ?_
    · exact if_keeps (fun _ => Keeps.pure _) fun _ => writeDouble_keeps hE h0 hr
    · rw [hi.dev]
      refine Passes.bind (allocZone_keeps hE hr) fun z => ?_
      refine if_keeps (fun _ => returns_error) fun _ => ?_
      refine Passes.bind (setZone_keeps) fun _ => ?_
      exact if_keeps (fun _ => Keeps.pure _) fun _ => writeDouble_keeps hE h0 hr

theorem clearZone_keeps {pos : ℤ} {flag : Bool} (h0 : Furnished s₀)
    (hr : KnownDev s₀ (s₀.inodes r).dev) :
    (custody E false r s₀).Keeps none (clearZone r pos flag) := by
  refine Passes.bind (scaleFactor_keeps hr) fun scale => ?_
  refine if_keeps (fun _ => Keeps.pure _) fun _ => ?_
  refine if_keeps (fun _ => Keeps.pure _) fun _ => ?_
  refine Passes.bind (readMap_keeps h0 hr (.inl (hE _))) fun blo => ?_
  refine if_keeps (fun _ => Keeps.pure _) fun _ => ?_
  refine if_keeps (fun _ => .throw fun _ _ => hE _) fun _ => ?_
  refine reads_inode fun i hi => ?_
  rw [hi.dev]
  exact liftC_passes (clearBlocks_lends h0.cache (h0.hasDriver hr))

theorem newZone_keeps (h0 : Furnished s₀) (hr : KnownDev s₀ (s₀.inodes r).dev) :
    (custody E false r s₀).Keeps none (newZone r position) := by
  refine reads_inode fun i hi => ?_
  rw [hi.dev]
  have hzone (near : ℕ) : (custody E false r s₀).Keeps none (do
      let z ← allocZone (s₀.inodes r).dev near
      if z = 0 then return none
      else
        let code ← writeMap r position z
        if code ≠ OK then
          freeZone (s₀.inodes r).dev z
          setErr code
          return none
        else
          if position ≠ (← readInode r).size then clearZone r position true
          let scale ← scaleFactor r
          let zoneSize : ℤ := blockSize * 2 ^ scale
          return some (toShort (z * 2 ^ scale + (position % zoneSize / blockSize).toNat))) := by
    refine Passes.bind (allocZone_keeps hE hr) fun z => ?_
    refine if_keeps (fun _ => Keeps.pure _) fun _ => ?_
    refine Passes.bind (writeMap_keeps hE h0 hr) fun code => ?_
    refine if_keeps (fun _ => ?_) fun _ => ?_
    · refine Passes.bind (freeZone_keeps h0 hr) fun _ => ?_
      exact Passes.bind (setErr_keeps _) fun _ => Keeps.pure _
    · refine reads_inode fun x _ => ?_
      refine Passes.join ?_ fun hlast => Passes.bind (clearZone_keeps hE h0 hr) fun _ => hlast
      exact Passes.bind (scaleFactor_keeps hr) fun _ => Keeps.pure _
  refine if_keeps (fun _ => ?_) fun _ => hzone _
  refine getSuper_keeps hr.2 fun sp _ => ?_
  exact reads_super fun x _ => hzone _

theorem newBlock_keeps (h0 : Furnished s₀) (hr : KnownDev s₀ (s₀.inodes r).dev) :
    (custody E false r s₀).Passes none (newBlock r position) id := by
  refine Passes.bind (readMap_keeps h0 hr (.inl (hE _))) fun b => ?_
  have hzone (b : ℕ) : (custody E false r s₀).Passes none (do
      let dev := (← readInode r).dev
      let bp ← liftC (getBlock dev b .noRead)
      liftC (zeroBlock bp)
      return some bp) id := by
    refine reads_inode fun i hi => ?_
    have hdev : HasDriver i.dev := by
      rw [hi.dev]
      exact h0.hasDriver hr
    refine Passes.bind (liftC_passes (getBlock_lends h0.cache hdev)) fun bp => ?_
    refine Passes.bind (liftC_passes zeroBlock_lends) fun _ => ?_
    have hreturn : (custody E false r s₀).Passes (id (some bp)) (pure (some bp)) id := Passes.pure _
    exact hreturn
  have hnone : (custody E false r s₀).Passes none (pure none) id := Keeps.pure (none : Option BufId)
  refine if_keeps (fun _ => ?_) fun _ => Passes.bind (Keeps.pure (some b)) fun found => ?_
  · refine Passes.bind (newZone_keeps hE h0 hr) fun found => ?_
    cases found with
    | none => exact hnone
    | some b => exact hzone b
  · cases found with
    | none => exact hnone
    | some b => exact hzone b

/-- `search_dir` for `ENTER` -/
theorem searchDir_enter_keeps {string : Name} {numb : ℕ} (h0 : Furnished s₀)
    (hr : KnownDev s₀ (s₀.inodes r).dev) :
    (custody E false r s₀).Keeps none (searchDir r string (.enter numb)) := by
  refine reads_inode fun i _ => ?_
  refine if_keeps (fun _ => Keeps.pure _) fun _ => ?_
  refine Passes.bind (forbidden_keeps hr) fun code => ?_
  refine if_keeps (fun _ => Keeps.pure _) fun _ => ?_
  refine Passes.bind (searchBlocksOf_keeps h0 hr (by simp) le_rfl) fun found => ?_
  cases found with
  | done numb => exact Keeps.pure _
  | slot bp k newSlots => exact Passes.bind (enterEntry_keeps h0) fun _ => Keeps.pure _
  | exhausted newSlots =>
    refine if_keeps (fun _ => Keeps.pure _) fun _ => ?_
    refine reads_inode fun x _ => ?_
    refine Passes.bind (newBlock_keeps hE h0 hr) fun made => ?_
    cases made with
    | none => exact reads_globals fun _ _ => Keeps.pure _
    | some bp => exact Passes.bind (enterEntry_keeps h0) fun _ => Keeps.pure _

end

end LisaMinix.Fs.Server
