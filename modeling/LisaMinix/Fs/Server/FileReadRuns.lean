import LisaMinix.Library.Simulation
import LisaMinix.Fs.Server.FileReads
import LisaMinix.Fs.Server.Unpause
import LisaMinix.Fs.Server.DirectoryMaps

/-!
# Runs of Reads

Processes read regular files and move their positions, in any order; a file may be open more than once.
Each read gets what is in the file from the position of its filp on.

- `Browsed`: what reading leaves alone; all files are among it.
- `readWrite_reads`, `readAhead_calm`: `read_write`, and what is read after the answer.
- `serve_idle`: a turn of `main` is the call and the answer to it.
- `serve_reads`, `serve_seeks`: one request.
- `reads_follow`: sequences of them.
-/

namespace LisaMinix.Fs.Server

open LisaMinix.Library Function

/-! ## §1 What Reading Leaves Alone -/

/-- The positions, what is in the cache and what is noted about the next read may have changed. -/
structure Browsed (s s' : FsState) : Prop where
  supers : s'.supers = s.supers
  fprocs : s'.fprocs = s.fprocs
  inode : ∀ i, s'.inodes i = { s.inodes i with seek := (s'.inodes i).seek }
  filp : ∀ f, s'.filps f = { s.filps f with pos := (s'.filps f).pos }
  copy : s'.g.copy = s.g.copy
  able : Able s'.cache
  zmap : ∀ x, ZmapHeld x s.cache → ZmapHeld x s'.cache
  blocks : SameBlocks s.cache s'.cache

section

variable {rip : InodeId} {sp : SuperId} {f : FilpId} {s s' s'' : FsState} {usr : ProcId}
  {bytes : List UInt8}

theorem Browsed.refl (h : Able s.cache) : Browsed s s where
  supers := rfl
  fprocs := rfl
  inode _ := rfl
  filp _ := rfl
  copy := rfl
  able := h
  zmap _ hx := hx
  blocks := .refl _

theorem Browsed.trans (h : Browsed s s') (h' : Browsed s' s'') : Browsed s s'' where
  supers := h'.supers.trans h.supers
  fprocs := h'.fprocs.trans h.fprocs
  inode i := by
    refine (h'.inode i).trans ?_
    rw [h.inode i]
  filp f := by
    refine (h'.filp f).trans ?_
    rw [h.filp f]
  copy := h'.copy.trans h.copy
  able := h'.able
  zmap x hx := h'.zmap x (h.zmap x hx)
  blocks := h.blocks.trans h'.blocks

/-- Only the cache has changed, and not what it stands for, and what is noted about the call. -/
theorem browsed_cache (hframe : s' = { s with cache := s'.cache, g := s'.g })
    (hcopy : s'.g.copy = s.g.copy) (hable : Able s'.cache)
    (hzmap : ∀ x, ZmapHeld x s.cache → ZmapHeld x s'.cache) (hblocks : SameBlocks s.cache s'.cache) :
    Browsed s s' where
  supers := by rw [hframe]
  fprocs := by rw [hframe]
  inode _ := by rw [hframe]
  filp _ := by rw [hframe]
  copy := hcopy
  able := hable
  zmap := hzmap
  blocks := hblocks

theorem Handed.browsed (h : Handed usr bytes s s') : Browsed s s' := by
  apply browsed_cache ?_ ?_ h.able (fun _ hx => hx.lent h.lent) h.blocks
  · rw [h.frame]
  · rw [h.frame]

theorem Calm.browsed (h : Calm s s') : Browsed s s' := by
  apply browsed_cache ?_ ?_ h.able (fun _ hx => hx.lent h.lent) h.blocks
  · rw [h.frame]
  · rw [h.frame]

/-- The cache notes how it has been used, and `main` what it has been asked for. -/
theorem browsed_noted {peak : ℕ} {err : ℤ} {g : Globals} (h : Able s.cache) (hcopy : g.copy = s.g.copy) :
    Browsed s { s with cache := { s.cache with peak := peak, rdwtErr := err }, g := g } := by
  refine browsed_cache rfl hcopy ?_ (fun _ hx => hx) fun _ _ _ => rfl
  exact
    { lru := h.lru, nodup := h.nodup, hash := h.hash, nonneg := h.nonneg, inUse := h.inUse
      unique := h.unique, drives := h.drives, held := h.held, clean := h.clean, served := h.served
      room := h.room }

/-- The position of a filp and the mark of `lseek` on an inode change. -/
theorem browsed_moved {seek : Bool} {pos : ℤ} {g : Globals} (h : Able s.cache)
    (hcopy : g.copy = s.g.copy) : Browsed s { s with
      inodes := update s.inodes rip { s.inodes rip with seek := seek }
      filps := update s.filps f { s.filps f with pos := pos }
      g := g } where
  supers := rfl
  fprocs := rfl
  inode i := by
    rcases eq_or_ne i rip with rfl | hne
    · simp only [update_self]
    · simp only [update_of_ne hne]
  filp f' := by
    rcases eq_or_ne f' f with rfl | hne
    · simp only [update_self]
    · simp only [update_of_ne hne]
  copy := hcopy
  able := h
  zmap _ hx := hx
  blocks := .refl _

theorem Browsed.view (h : Browsed s s') (hdev : HasDriver (s.inodes rip).dev) :
    viewOf rip s' = viewOf rip s := by
  have hblocks : blockAt s'.cache (s.inodes rip).dev = blockAt s.cache (s.inodes rip).dev :=
    funext fun b => h.blocks _ b hdev.ne_noDev
  rw [viewOf, viewOf, h.inode rip, ← hblocks]

theorem Browsed.fileAt (h : Browsed s s') (hdev : HasDriver (s.inodes rip).dev) :
    fileAt rip sp s' = fileAt rip sp s := by
  unfold Server.fileAt
  rw [h.view hdev, h.supers, h.inode rip]

theorem Browsed.regular (h : Browsed s s') (hr : Regular rip sp s) : Regular rip sp s' := by
  have hinode := h.inode rip
  refine ⟨⟨⟨?_, ?_, ?_, h.able, ?_⟩, ?_⟩, ?_, ?_, ?_, ?_⟩
  · rw [h.supers, hinode]
    exact hr.super
  · rw [h.supers]
    exact hr.geometry
  · rw [hinode]
    exact hr.driver
  · rw [h.supers]
    exact h.zmap _ hr.zmap
  · rw [h.view hr.driver, h.supers]
    exact hr.ok
  · rw [hinode]
    exact hr.type
  · rw [hinode]
    exact hr.pipe
  · rw [hinode]
    exact hr.nonneg
  · rw [hinode]
    exact hr.size

/-! ## §2 `read_write` -/

/-- A regular file is open for reading. -/
structure OpenFile (f : FilpId) (rip : InodeId) (sp : SuperId) (s : FsState) : Prop
    extends Regular rip sp s where
  ino : (s.filps f).ino = some rip
  mode : (s.filps f).mode &&& rBit ≠ 0
  start : 0 ≤ (s.filps f).pos
  near : (s.filps f).pos < 2 ^ 31 - blockSize

/-- `n` bytes have been read through `f`, and `r` has been returned. -/
structure HasRead (f : FilpId) (rip : InodeId) (sp : SuperId) (usr : ProcId) (n : ℕ) (r : ℤ)
    (s s' : FsState) : Prop where
  browsed : Browsed s s'
  g : s'.g = { s.g with
    fd := s'.g.fd, errCode := s'.g.errCode, tick := s'.g.tick, toUser := s'.g.toUser, buffer := s'.g.buffer
    nbytes := s'.g.nbytes, rdahedInode := s'.g.rdahedInode, rdahedpos := s'.g.rdahedpos }
  filps : s'.filps = update s.filps f { s.filps f with pos := (s.filps f).pos + n }
  le : n ≤ wanted (s.inodes rip).size.toNat s.g.nbytes.toNat (s.filps f).pos.toNat
  answer : if n = wanted (s.inodes rip).size.toNat s.g.nbytes.toNat (s.filps f).pos.toNat then r = n
    else r ≠ OK ∧ ∃ t, r = s.g.copy t
  memory : ∀ mem, afterCopies mem s'.g.toUser =
    written (afterCopies mem s.g.toUser) usr s.g.buffer ((fileAt rip sp s).read (s.filps f).pos.toNat n)
  ahead : s'.g.rdahedInode = s.g.rdahedInode ∨
    s'.g.rdahedInode = some rip ∧ s'.g.rdahedpos = (s.filps f).pos + n ∧ s'.cache.rdwtErr = OK

theorem filpInode_surely {Q : InodeId → FsState → Prop} (h : (s.filps f).ino = some rip) (hQ : Q rip s) :
    Surely (filpInode f) s Q := by
  unfold filpInode
  simp only [Surely, wp_bind, wp_readFilp, h, wp_pure]
  exact hQ

/-- The end of `read_write` keeps the position, and says where to read ahead. -/
theorem rwFinish_reads {fSize position r cumIo : ℤ} (h : Regular rip sp s) (hnone : s.cache.rdwtErr = OK) :
    Surely (rwFinish f rip fSize .reading r position cumIo) s fun r' s' =>
      r' = (if r = OK then cumIo else r) ∧
        s' = { s with
          inodes := update s.inodes rip { s.inodes rip with seek := false }
          filps := update s.filps f { s.filps f with pos := position }
          g := { s.g with rdahedInode := s'.g.rdahedInode, rdahedpos := s'.g.rdahedpos } } ∧
        (s'.g.rdahedInode = s.g.rdahedInode ∨
          s'.g.rdahedInode = some rip ∧ s'.g.rdahedpos = position) := by
  have hend : ¬OK = END_OF_FILE := by decide
  have hpipe : ¬(s.inodes rip).pipe = true := by simp [h.pipe]
  unfold rwFinish
  simp only [Surely, wp_bind, wp_readInode]
  -- a pipe that has been emptied is another case
  refine wp_ite (fun hempty => absurd hempty.1 hpipe) fun _ => ?_
  simp only [wp_bind, wp_pure, wp_modFilp]
  refine wp_ite (fun _ => ?_) fun _ => ?_
  · simp only [wp_bind, wp_modGlobals, wp_modInode, wp_get, hnone, if_neg hend, ne_eq, not_true, if_false,
      wp_pure]
    exact ⟨trivial, trivial, .inr ⟨trivial, trivial⟩⟩
  · simp only [wp_bind, wp_pure, wp_modInode, wp_get, hnone, if_neg hend, ne_eq, not_true, if_false]
    exact ⟨trivial, trivial, .inl trivial⟩

/-- What `read_write` does for a regular file. -/
theorem rwFile_reads (h : OpenFile f rip sp s) (hnone : s.cache.rdwtErr = OK) (hzero : 0 ≤ s.g.nbytes)
    (hmax : s.g.nbytes ≤ 32767) :
    Surely (rwFile f rip .reading usr) s fun r s' => ∃ n, HasRead f rip sp usr n r s s' := by
  obtain ⟨p, hp⟩ : ∃ p : ℕ, (s.filps f).pos = p := Int.eq_ofNat_of_zero_le h.start
  have hpipe : ¬((s.inodes rip).pipe = true) := by simp [h.pipe]
  have herr : 0 ≤ s.cache.rdwtErr := hnone.ge
  unfold rwFile
  simp only [Surely, wp_bind, wp_readFilp, wp_readInode, wp_globals, h.blockSpec, reduceCtorEq,
    Bool.false_eq_true, false_and, if_false, wp_pure, hpipe, hp]
  refine Wp.mono (rwLoop_reads h.toRegular herr hzero (by omega) hmax) ?_
  rintro ⟨r, position, cumIo⟩ s₁ ⟨n, hmoved, hle, hanswer, hcopied⟩
  obtain ⟨rfl, rfl⟩ := Prod.ext_iff.mp hmoved
  have hnone1 : s₁.cache.rdwtErr = OK := hcopied.lent.drive.2.trans hnone
  refine Wp.mono (rwFinish_reads (hcopied.regular h.toRegular) hnone1) ?_
  rintro r' s' ⟨rfl, hs', hahead⟩
  have hg1 : s₁.g.rdahedInode = s.g.rdahedInode := by rw [hcopied.frame]
  have hfilps : s₁.filps = s.filps := by rw [hcopied.frame]
  have htoUser : s'.g.toUser = s₁.g.toUser := by rw [hs']
  refine ⟨n, ?_, ?_, ?_, ?_, ?_, ?_, ?_⟩
  · rw [hs']
    apply hcopied.browsed.trans
    exact browsed_moved hcopied.able rfl
  · rw [hs', hcopied.frame]
  · rw [hs']
    dsimp only
    rw [hfilps, hp, Nat.cast_add]
  · rw [hp, Int.toNat_natCast]
    exact hle
  · rw [hp, Int.toNat_natCast]
    by_cases hall : n = wanted (s.inodes rip).size.toNat s.g.nbytes.toNat p
    · rw [if_pos hall] at hanswer ⊢
      rw [if_pos hanswer, zero_add]
    · rw [if_neg hall] at hanswer ⊢
      rw [if_neg hanswer.1]
      exact hanswer
  · intro mem
    rw [htoUser, hcopied.memory, hp, Int.toNat_natCast]
  · rw [hg1] at hahead
    rw [hp, ← Nat.cast_add]
    refine hahead.imp_right fun hset => ⟨hset.1, hset.2, ?_⟩
    rw [hs']
    exact hnone1

theorem OpenFile.browsed (h : OpenFile f rip sp s) (hb : Browsed s s')
    (hpos : 0 ≤ (s'.filps f).pos ∧ (s'.filps f).pos < 2 ^ 31 - blockSize) : OpenFile f rip sp s' where
  toRegular := hb.regular h.toRegular
  ino := by
    rw [hb.filp f]
    exact h.ino
  mode := by
    rw [hb.filp f]
    exact h.mode
  start := hpos.1
  near := hpos.2

/-- The call notes its descriptor, and that there has been no error. -/
theorem OpenFile.noted (h : OpenFile f rip sp s) (fd err : ℤ) : OpenFile f rip sp
    { s with cache := { s.cache with rdwtErr := OK }, g := { s.g with fd := fd, errCode := err } } := by
  refine OpenFile.browsed h ?_ ?_
  · exact browsed_noted h.able rfl
  · exact ⟨h.start, h.near⟩

/-- The position stays in range. -/
theorem OpenFile.range {n nbytes : ℕ} (h : OpenFile f rip sp s)
    (hle : n ≤ wanted (s.inodes rip).size.toNat nbytes (s.filps f).pos.toNat) :
    0 ≤ (s.filps f).pos + n ∧ (s.filps f).pos + n < 2 ^ 31 - blockSize := by
  have hstart := h.start
  have hnear := h.near
  have hsize := h.size
  unfold wanted at hle
  omega

/-- The call has noted its descriptor, and that there has been no error. -/
theorem HasRead.noted {n : ℕ} {r fd err : ℤ} (h : OpenFile f rip sp s)
    (h' : HasRead f rip sp usr n r
      { s with cache := { s.cache with rdwtErr := OK }, g := { s.g with fd := fd, errCode := err } } s') :
    HasRead f rip sp usr n r s s' := by
  have hnoted : Browsed s
      { s with cache := { s.cache with rdwtErr := OK }, g := { s.g with fd := fd, errCode := err } } :=
    browsed_noted h.able rfl
  obtain ⟨hbrowsed, hg, hfilps, hle, hanswer, hmemory, hahead⟩ := h'
  rw [hnoted.fileAt h.driver] at hmemory
  exact ⟨hnoted.trans hbrowsed, hg, hfilps, hle, hanswer, hmemory, hahead⟩

/-- Nothing has been asked for. -/
theorem HasRead.nothing {fd err : ℤ} (h : OpenFile f rip sp s) (hnone : s.g.nbytes = 0) :
    HasRead f rip sp usr 0 0 s { s with g := { s.g with fd := fd, errCode := err } } where
  browsed := browsed_noted h.able rfl
  g := rfl
  filps := by
    rw [Nat.cast_zero, add_zero]
    exact (update_eq_self ..).symm
  le := Nat.zero_le _
  answer := by
    rw [hnone, wanted, Int.toNat_zero, Nat.zero_min, if_pos rfl]
    rfl
  memory mem := by
    rw [File.read_zero, written_nil]
  ahead := .inl rfl

/-- **`read_write` reads.**  It copies what is in the file, up to its end unless a copy fails. -/
theorem readWrite_reads (h : OpenFile f rip sp s) (hfd : 0 ≤ descriptor s.g ∧ descriptor s.g < openMax)
    (hfilp : (s.fprocs s.g.fp).filp (descriptor s.g).toNat = some f) (hzero : 0 ≤ s.g.nbytes)
    (hmax : s.g.nbytes ≤ 32767) :
    Surely (readWrite .reading) s fun r s' => ∃ n, HasRead f rip sp (rwUsr s.g) n r s s' := by
  have hg : (if s.g.who = mmProcNr ∧ s.g.fd / 256 ≠ 0 then { s.g with fd := s.g.fd % 64 } else s.g) =
      { s.g with fd := descriptor s.g } := congrArg FsState.g (mmDescriptor_spec s)
  have hpos : ¬((s.filps f).pos < 0 ∨ maxFilePos < (s.filps f).pos) := by
    have hstart := h.start
    have hnear := h.near
    unfold maxFilePos
    unfold blockSize at hnear
    omega
  have htype : ¬(s.inodes rip).type = iCharSpecial := by
    rw [h.type]
    decide
  unfold readWrite mmDescriptor getFilp
  simp only [Surely, wp_bind, wp_globals, wp_modGlobals, hg]
  refine wp_ite (fun hneg => absurd hneg (not_lt.mpr hzero)) fun _ => ?_
  -- `get_filp` finds the filp
  rw [if_neg (by omega)]
  simp only [wp_bind, wp_setErr, wp_caller, wp_pure, hfilp, wp_readFilp, if_true]
  refine wp_ite (fun hmode => absurd hmode h.mode) fun _ => ?_
  -- a read of no bytes does not look at the file
  refine wp_ite (fun hnone => ?_) fun _ => ?_
  · exact ⟨0, HasRead.nothing h hnone⟩
  refine wp_ite (fun hbad => absurd hbad hpos) fun _ => ?_
  rw [wp_bind]
  refine filpInode_surely h.ino ?_
  simp only [wp_bind, wp_liftC, wp_modify, wp_readInode]
  refine wp_ite (fun hchar => absurd hchar htype) fun _ => ?_
  refine Wp.mono (rwFile_reads (h.noted _ _) rfl hzero hmax) ?_
  rintro r s' ⟨n, hread⟩
  exact ⟨n, hread.noted h⟩

/-! ## §3 A Turn of `main` -/

/-- What is read ahead after the answer is brought into the cache, and nothing else happens. -/
theorem readAhead_calm (h : Regular rip sp s) (herr : 0 ≤ s.cache.rdwtErr) (hstart : 0 ≤ s.g.rdahedpos)
    (hnear : s.g.rdahedpos < 2 ^ 31 - blockSize) :
    Surely (readAhead rip) s fun _ s' => Calm { s with g := { s.g with rdahedInode := none } } s' := by
  obtain ⟨p, hp⟩ : ∃ p : ℕ, s.g.rdahedpos = p := Int.eq_ofNat_of_zero_le hstart
  rw [hp] at hnear
  have hn : ((p : ℤ) / blockSize).toNat = p / blockSize := by
    unfold blockSize
    omega
  have hone : (blockSize : ℤ) ≤ 32767 := by decide
  generalize hs1 : { s with g := { s.g with rdahedInode := none } } = s₁
  have hb1 : Browsed s s₁ := hs1 ▸ browsed_noted h.able rfl
  have h1 := hb1.regular h
  have herr1 : 0 ≤ s₁.cache.rdwtErr := by
    rw [← hs1]
    exact herr
  unfold readAhead
  simp only [Surely, wp_bind, wp_globals, wp_modGlobals, hs1]
  rw [hp]
  refine Wp.mono (readMap_surely h1.toMounted (Int.natCast_nonneg p)) ?_
  rintro b s₂ ⟨rfl, hcalm⟩
  have h2 := hcalm.browsed.regular h1
  have hsupers : s₁.supers = s₂.supers := by rw [hcalm.frame]
  rw [hn, ← hcalm.view h1.driver, hsupers]
  -- nothing is read ahead where there is no block
  refine wp_ite (fun _ => hcalm) fun _ => ?_
  rw [wp_bind]
  have hbrings := rahead_file h2.toReady h2.blockSpec h2.size.le (hcalm.lent.drive.2 ▸ herr1)
    (Int.natCast_div p blockSize) hnear hone
  refine Wp.mono hbrings ?_
  rintro bp s₃ ⟨hheld, hblocks⟩
  have hput := putChunk_able (hheld.inBuffer hblocks) False h2.able
  rw [if_neg id] at hput
  rw [wp_liftC]
  refine Wp.mono hput ?_
  rintro _ c' ⟨hable, hlent, hblocks'⟩
  exact hcalm.trans ⟨by rw [hheld.frame], hable, hlent, hblocks'⟩

/-- What `get_work` copies from a message. -/
def fromMessage (q : Request) (g : Globals) : Globals :=
  { g with who := q.who, fd := q.fd, buffer := q.buffer, nbytes := q.nbytes }

/-- A request to read a regular file. -/
structure AsksRead (q : Request) (f : FilpId) (rip : InodeId) (sp : SuperId) (s : FsState) : Prop
    extends OpenFile f rip sp s where
  call : q.call = 3
  fd : 0 ≤ descriptor (fromMessage q s.g) ∧ descriptor (fromMessage q s.g) < openMax
  filp : (s.fprocs q.who).filp (descriptor (fromMessage q s.g)).toNat = some f
  zero : 0 ≤ q.nbytes
  most : q.nbytes ≤ 32767

/-- Nobody is to be served again, and nothing is to be read ahead. -/
structure Idle (s : FsState) : Prop where
  reviving : s.g.reviving = 0
  ahead : s.g.rdahedInode = none

/-- The state in which `main` makes the call that a message asks for. -/
def begun (q : Request) (s : FsState) : FsState :=
  { s with
    cache := { s.cache with peak := s.cache.bufsInUse }
    g :=
      { fromMessage q s.g with
        fp := q.who
        superUser := (s.fprocs q.who).effuid = suUid
        dontReply := false
        fsCall := q.call.toNat
        user := q.user } }

/-- The process has been sent the answer. -/
def replied (q : Request) (r : ℤ) (s : FsState) : FsState :=
  { s with g := { s.g with replies := ((q.who.val : ℤ), r) :: s.g.replies } }

variable {q : Request}

/-- A turn of `main` in which a message is received, and answered. -/
theorem serve_idle {Q : FsState → Prop} (hidle : Idle s) (hcall : 0 ≤ q.call ∧ q.call < nCalls)
    (h : Surely (callVector q q.call.toNat) (begun q s) fun r s' => s'.g.dontReply = false ∧
      s'.g.who = q.who ∧ (s'.g.rdahedInode = none → Q (replied q r s')) ∧
      ∀ rip, s'.g.rdahedInode = some rip → Surely (readAhead rip) (replied q r s') fun _ => Q) :
    Surely (serve q) s fun _ => Q := by
  have hvalid : ¬(q.call < 0 ∨ nCalls ≤ q.call) := by omega
  have hnobody : ¬s.g.reviving ≠ 0 := not_not.mpr hidle.reviving
  unfold serve getWork setUp
  simp only [Surely, wp_bind, wp_get]
  rw [if_neg hnobody]
  simp only [wp_bind, wp_modGlobals, wp_pure, wp_modify, if_neg hvalid]
  refine Wp.mono h ?_
  rintro r s' ⟨hquiet, hwho, hnone, hsome⟩
  rw [wp_globals, if_neg (by simp [hquiet])]
  have hreplied : { s' with g := { s'.g with replies := ((s'.g.who.val : ℤ), r) :: s'.g.replies } } =
      replied q r s' := by
    rw [replied, hwho]
  simp only [reply, wp_bind, wp_modGlobals, hreplied]
  cases hahead : s'.g.rdahedInode with
  | none => exact hnone hahead
  | some rip => exact hsome rip hahead

/-- The request has been answered with `r` after `n` bytes have been read. -/
structure ServedRead (q : Request) (f : FilpId) (rip : InodeId) (sp : SuperId) (n : ℕ) (r : ℤ)
    (s s' : FsState) : Prop where
  browsed : Browsed s s'
  idle : Idle s'
  filps : s'.filps = update s.filps f { s.filps f with pos := (s.filps f).pos + n }
  le : n ≤ wanted (s.inodes rip).size.toNat q.nbytes.toNat (s.filps f).pos.toNat
  answer : if n = wanted (s.inodes rip).size.toNat q.nbytes.toNat (s.filps f).pos.toNat then r = n
    else r ≠ OK ∧ ∃ t, r = s.g.copy t
  memory : ∀ mem, afterCopies mem s'.g.toUser = written (afterCopies mem s.g.toUser)
    (rwUsr (fromMessage q s.g)) q.buffer ((fileAt rip sp s).read (s.filps f).pos.toNat n)
  replies : s'.g.replies = ((q.who.val : ℤ), r) :: s.g.replies

/-- Whether or not something is read ahead after the answer, it is the answer of `read_write` that counts. -/
theorem HasRead.served {n : ℕ} {r : ℤ} (h : OpenFile f rip sp s) (hidle : Idle s)
    (hread : HasRead f rip sp (rwUsr (begun q s).g) n r (begun q s) s')
    (hb : Browsed (replied q r s') s'') (hfilps : s''.filps = s'.filps)
    (hg : s''.g = { (replied q r s').g with rdahedInode := none }) : ServedRead q f rip sp n r s s'' := by
  have hb1 : Browsed s (begun q s) := browsed_noted h.able rfl
  have hb2 : Browsed s' (replied q r s') := browsed_noted hread.browsed.able rfl
  obtain ⟨hbrowsed, hg', hfilps', hle, hanswer, hmemory, -⟩ := hread
  rw [hb1.fileAt h.driver] at hmemory
  refine ⟨hb1.trans (hbrowsed.trans (hb2.trans hb)), ⟨?_, ?_⟩, ?_, hle, hanswer, fun mem => ?_, ?_⟩
  · rw [hg]
    dsimp only [replied]
    rw [hg']
    exact hidle.reviving
  · rw [hg]
  · rw [hfilps, hfilps']
    rfl
  · rw [hg]
    exact hmemory mem
  · rw [hg]
    dsimp only [replied]
    rw [hg']
    rfl

/-- **A read is served.** -/
theorem serve_reads (h : AsksRead q f rip sp s) (hidle : Idle s) :
    Surely (serve q) s fun _ s' => ∃ n r, ServedRead q f rip sp n r s s' := by
  have hb1 : Browsed s (begun q s) := browsed_noted h.able rfl
  have hopen : OpenFile f rip sp (begun q s) := h.toOpenFile.browsed hb1 ⟨h.start, h.near⟩
  apply serve_idle hidle (by rw [h.call]; decide)
  rw [h.call]
  refine Wp.mono (readWrite_reads hopen h.fd h.filp h.zero h.most) ?_
  rintro r s₂ ⟨n, hread⟩
  have hb3 : Browsed s₂ (replied q r s₂) := browsed_noted hread.browsed.able rfl
  have hregular := hb3.regular (hread.browsed.regular hopen.toRegular)
  refine ⟨?_, ?_, fun hnone => ?_, fun rip' hsome => ?_⟩
  · rw [hread.g]
    rfl
  · rw [hread.g]
    rfl
  · refine ⟨n, r, hread.served h.toOpenFile hidle (.refl hb3.able) rfl ?_⟩
    dsimp only [replied]
    rw [← hnone]
  · -- only this call has said where to read ahead
    rcases hread.ahead with hsame | ⟨hset, hpos, herr⟩
    · exact absurd ((hsome.symm.trans hsame).trans hidle.ahead) (by simp)
    · obtain rfl : rip' = rip := Option.some.inj (hsome.symm.trans hset)
      have hrange := hopen.range hread.le
      rw [← hpos] at hrange
      refine Wp.mono (readAhead_calm hregular herr.ge hrange.1 hrange.2) ?_
      rintro _ s' hcalm
      refine ⟨n, r, hread.served h.toOpenFile hidle (.trans ?_ hcalm.browsed) ?_ ?_⟩
      · exact browsed_noted hb3.able rfl
      · rw [hcalm.frame]
        rfl
      · rw [hcalm.frame]

/-! ### `lseek` -/

/-- The position that `lseek` is asked for. -/
def seekTo (q : Request) (size pos : ℤ) : ℤ :=
  toLong ((if q.whence = 0 then 0 else if q.whence = 1 then pos else size) + q.offset)

/-- There is no such position. -/
abbrev SeekRefused (q : Request) (size pos : ℤ) : Prop :=
  (q.whence < 0 ∨ 2 < q.whence) ∨ seekTo q size pos < 0

/-- The position after the call. -/
def sought (q : Request) (size pos : ℤ) : ℤ := if SeekRefused q size pos then pos else seekTo q size pos

/-- The answer to the call. -/
def seekAnswer (q : Request) (size pos : ℤ) : ℤ := if SeekRefused q size pos then EINVAL else OK

theorem doLseek_seeks (h : OpenFile f rip sp s) (hfd : 0 ≤ q.fd ∧ q.fd < openMax)
    (hfilp : (s.fprocs s.g.fp).filp q.fd.toNat = some f)
    (hnear : seekTo q (s.inodes rip).size (s.filps f).pos < 2 ^ 31 - blockSize) :
    Surely (doLseek q) s fun r s' => r = seekAnswer q (s.inodes rip).size (s.filps f).pos ∧
      Browsed s s' ∧ s'.g = { s.g with errCode := s'.g.errCode, out := s'.g.out } ∧
      s'.filps = update s.filps f
        { s.filps f with pos := sought q (s.inodes rip).size (s.filps f).pos } := by
  have hpipe : ¬(s.inodes rip).pipe = true := by simp [h.pipe]
  unfold doLseek getFilp
  simp only [Surely, wp_bind, wp_setErr]
  rw [if_neg (by omega)]
  simp only [wp_bind, wp_caller, wp_pure, hfilp, wp_readFilp, wp_readInode]
  refine filpInode_surely h.ino ?_
  refine wp_ite (fun hp => absurd hp hpipe) fun _ => ?_
  unfold seekAnswer sought
  refine wp_ite (fun hwhence => ?_) fun hwhence => ?_
  · rw [if_pos (.inl hwhence), if_pos (.inl hwhence)]
    exact ⟨rfl, browsed_noted h.able rfl, rfl, (update_eq_self ..).symm⟩
  refine wp_ite (fun hbad => ?_) fun hgood => ?_
  · -- no position is as large as `MAX_FILE_POS` here
    have hneg : seekTo q (s.inodes rip).size (s.filps f).pos < 0 := by
      rcases hbad with hneg | hfar
      · exact hneg
      · have hfar' : maxFilePos < seekTo q (s.inodes rip).size (s.filps f).pos := hfar
        unfold maxFilePos at hfar'
        unfold blockSize at hnear
        omega
    rw [if_pos (.inr hneg), if_pos (.inr hneg)]
    exact ⟨rfl, browsed_noted h.able rfl, rfl, (update_eq_self ..).symm⟩
  · have hmay : ¬SeekRefused q (s.inodes rip).size (s.filps f).pos := by
      rintro (hbad | hneg)
      · exact hwhence hbad
      · exact hgood (.inl hneg)
    rw [if_neg hmay, if_neg hmay]
    refine wp_ite (fun _ => ?_) fun _ => ?_
    · exact ⟨rfl, browsed_moved h.able rfl, rfl, rfl⟩
    · -- the position is where it has been
      have hinode : update s.inodes rip { s.inodes rip with seek := (s.inodes rip).seek } =
          s.inodes := update_eq_self ..
      refine ⟨rfl, ?_, rfl, rfl⟩
      rw [← hinode]
      exact browsed_moved h.able rfl

/-- A request to move the position in a regular file. -/
structure AsksSeek (q : Request) (f : FilpId) (rip : InodeId) (sp : SuperId) (s : FsState) : Prop
    extends OpenFile f rip sp s where
  call : q.call = 19
  fd : 0 ≤ q.fd ∧ q.fd < openMax
  filp : (s.fprocs q.who).filp q.fd.toNat = some f

/-- The position has been moved, or not. -/
structure ServedSeek (q : Request) (f : FilpId) (rip : InodeId) (s s' : FsState) : Prop where
  browsed : Browsed s s'
  idle : Idle s'
  filps : s'.filps = update s.filps f
    { s.filps f with pos := sought q (s.inodes rip).size (s.filps f).pos }
  toUser : s'.g.toUser = s.g.toUser
  replies : s'.g.replies =
    ((q.who.val : ℤ), seekAnswer q (s.inodes rip).size (s.filps f).pos) :: s.g.replies

/-- **A seek is served.** -/
theorem serve_seeks (h : AsksSeek q f rip sp s) (hidle : Idle s)
    (hnear : seekTo q (s.inodes rip).size (s.filps f).pos < 2 ^ 31 - blockSize) :
    Surely (serve q) s fun _ s' => ServedSeek q f rip s s' := by
  have hb1 : Browsed s (begun q s) := browsed_noted h.able rfl
  have hopen : OpenFile f rip sp (begun q s) := h.toOpenFile.browsed hb1 ⟨h.start, h.near⟩
  apply serve_idle hidle (by rw [h.call]; decide)
  rw [h.call]
  refine Wp.mono (doLseek_seeks hopen h.fd h.filp hnear) ?_
  rintro r s₂ ⟨rfl, hb2, hg, hfilps⟩
  have hb3 : Browsed s₂ (replied q (seekAnswer q (s.inodes rip).size (s.filps f).pos) s₂) :=
    browsed_noted hb2.able rfl
  refine ⟨?_, ?_, fun hnone => ?_, fun rip' hsome => ?_⟩
  · rw [hg]
    rfl
  · rw [hg]
    rfl
  · refine ⟨hb1.trans (hb2.trans hb3), ⟨?_, hnone⟩, hfilps, ?_, ?_⟩
    · dsimp only [replied]
      rw [hg]
      exact hidle.reviving
    · dsimp only [replied]
      rw [hg]
      rfl
    · dsimp only [replied]
      rw [hg]
      rfl
  · rw [hg] at hsome
    exact absurd (hsome.symm.trans hidle.ahead) (by simp)

/-- The position stays in range. -/
theorem OpenFile.sought_range {size : ℤ} (h : OpenFile f rip sp s)
    (hnear : seekTo q size (s.filps f).pos < 2 ^ 31 - blockSize) :
    0 ≤ sought q size (s.filps f).pos ∧ sought q size (s.filps f).pos < 2 ^ 31 - blockSize := by
  unfold sought
  by_cases hbad : SeekRefused q size (s.filps f).pos
  · rw [if_pos hbad]
    exact ⟨h.start, h.near⟩
  · rw [if_neg hbad]
    exact ⟨not_lt.mp fun hneg => hbad (.inr hneg), hnear⟩

theorem AsksSeek.browsed (h : AsksSeek q f rip sp s) (hb : Browsed s s')
    (hpos : 0 ≤ (s'.filps f).pos ∧ (s'.filps f).pos < 2 ^ 31 - blockSize) : AsksSeek q f rip sp s' where
  toOpenFile := h.toOpenFile.browsed hb hpos
  call := h.call
  fd := h.fd
  filp := by
    rw [hb.fprocs]
    exact h.filp

theorem AsksRead.browsed (h : AsksRead q f rip sp s) (hb : Browsed s s')
    (hpos : 0 ≤ (s'.filps f).pos ∧ (s'.filps f).pos < 2 ^ 31 - blockSize) : AsksRead q f rip sp s' where
  toOpenFile := h.toOpenFile.browsed hb hpos
  call := h.call
  fd := h.fd
  filp := by
    rw [hb.fprocs]
    exact h.filp
  zero := h.zero
  most := h.most

end

/-! ## §4 Runs -/

/-- What processes see of the server while they read. -/
structure Reader where
  pos : FilpId → ℤ
  memory : ProcId → Memory
  replies : List (ℤ × ℤ)

/-- The processes have had `mem` at first. -/
def readerOf (mem : ProcId → Memory) (s : FsState) : Reader where
  pos f := (s.filps f).pos
  memory := afterCopies mem s.g.toUser
  replies := s.g.replies

/-- A file is read through `f`: all that has been asked for and is there, or the answer is that of a copy
    that has failed. -/
def Reads (file : File UInt8) (f : FilpId) (usr : ProcId) (copy : ℕ → ℤ) (q : Request) (a a' : Reader) :
    Prop :=
  ∃ n ≤ wanted file.size q.nbytes.toNat (a.pos f).toNat, ∃ r : ℤ,
    (if n = wanted file.size q.nbytes.toNat (a.pos f).toNat then r = n else r ≠ OK ∧ ∃ t, r = copy t) ∧
    a' =
      { pos := update a.pos f (a.pos f + n)
        memory := written a.memory usr q.buffer (file.read (a.pos f).toNat n)
        replies := ((q.who.val : ℤ), r) :: a.replies }

/-- The position of `f` is moved, if there is such a position. -/
def Seeks (file : File UInt8) (f : FilpId) (q : Request) (a a' : Reader) : Prop :=
  a' = { a with
    pos := update a.pos f (sought q file.size (a.pos f))
    replies := ((q.who.val : ℤ), seekAnswer q file.size (a.pos f)) :: a.replies }

/-- A request to read, or to move the position to where there may be something to read. -/
def Asks (s₀ : FsState) (q : Request) (a : Reader) : Prop :=
  (∃ f rip sp, AsksRead q f rip sp s₀) ∨
    ∃ f rip sp, AsksSeek q f rip sp s₀ ∧
      seekTo q (fileAt rip sp s₀).size (a.pos f) < 2 ^ 31 - blockSize

/-- What is done for it. -/
def Answers (s₀ : FsState) (q : Request) (a a' : Reader) : Prop :=
  (∃ f rip sp, AsksRead q f rip sp s₀ ∧
      Reads (fileAt rip sp s₀) f (rwUsr (fromMessage q s₀.g)) s₀.g.copy q a a') ∨
    ∃ f rip sp, AsksSeek q f rip sp s₀ ∧ Seeks (fileAt rip sp s₀) f q a a'

/-- While files have been read, those that were open for reading stay so. -/
structure Reading (s₀ s : FsState) : Prop where
  browsed : Browsed s₀ s
  idle : Idle s
  near : ∀ f rip sp, OpenFile f rip sp s₀ → 0 ≤ (s.filps f).pos ∧ (s.filps f).pos < 2 ^ 31 - blockSize

section

variable {rip : InodeId} {sp : SuperId} {f : FilpId} {s₀ s s' : FsState} {q : Request} {n : ℕ} {r : ℤ}

/-- One position has changed. -/
theorem Reading.move {pos : ℤ} (hr : Reading s₀ s) (hb : Browsed s s') (hidle : Idle s')
    (hfilps : s'.filps = update s.filps f { s.filps f with pos := pos })
    (hpos : 0 ≤ pos ∧ pos < 2 ^ 31 - blockSize) : Reading s₀ s' where
  browsed := hr.browsed.trans hb
  idle := hidle
  near f' rip' sp' h' := by
    rw [hfilps]
    rcases eq_or_ne f' f with rfl | hne
    · rw [update_self]
      exact hpos
    · rw [update_of_ne hne]
      exact hr.near f' rip' sp' h'

theorem pos_update {pos : ℤ}
    (hfilps : s'.filps = update s.filps f { s.filps f with pos := pos }) :
    (fun f' => (s'.filps f').pos) = update (fun f' => (s.filps f').pos) f pos := by
  funext f'
  rw [hfilps]
  rcases eq_or_ne f' f with rfl | hne
  · rw [update_self, update_self]
  · rw [update_of_ne hne, update_of_ne hne]

theorem Browsed.size (h : Browsed s₀ s) : (Server.fileAt rip sp s₀).size = (s.inodes rip).size.toNat := by
  rw [h.inode rip]
  rfl

/-- What has been read is from the file as it was at first. -/
theorem ServedRead.reads (h : ServedRead q f rip sp n r s s') (hb : Browsed s₀ s)
    (hdev : HasDriver (s₀.inodes rip).dev) (mem : ProcId → Memory) :
    Reads (fileAt rip sp s₀) f (rwUsr (fromMessage q s₀.g)) s₀.g.copy q (readerOf mem s)
      (readerOf mem s') := by
  have hsize : (fileAt rip sp s₀).size = (s.inodes rip).size.toNat := hb.size
  have hmemory := h.memory mem
  rw [hb.fileAt hdev] at hmemory
  have hanswer := h.answer
  rw [hb.copy] at hanswer
  refine ⟨n, hsize ▸ h.le, r, hsize ▸ hanswer, ?_⟩
  unfold readerOf
  rw [pos_update h.filps, hmemory, h.replies]
  rfl

theorem ServedSeek.seeks (h : ServedSeek q f rip s s')
    (hsize : (fileAt rip sp s₀).size = (s.inodes rip).size) (mem : ProcId → Memory) : Seeks (fileAt rip sp s₀) f q (readerOf mem s) (readerOf mem s') := by
  unfold Seeks readerOf
  dsimp only
  rw [pos_update h.filps, h.toUser, h.replies, hsize]

/-- What has been done is what has been asked for. -/
theorem Reading.serves {mem : ProcId → Memory} (hr : Reading s₀ s) (h : Asks s₀ q (readerOf mem s)) :
    Surely (serve q) s fun _ s' => Reading s₀ s' ∧ Answers s₀ q (readerOf mem s) (readerOf mem s') := by
  rcases h with ⟨f, rip, sp, hasks⟩ | ⟨f, rip, sp, hasks, hnear⟩
  · -- the file is as it was, and still open
    have hasks' := hasks.browsed hr.browsed (hr.near f rip sp hasks.toOpenFile)
    refine Wp.mono (serve_reads hasks' hr.idle) ?_
    rintro _ s' ⟨n, r, hserved⟩
    refine ⟨hr.move hserved.browsed hserved.idle hserved.filps (hasks'.range hserved.le), ?_⟩
    exact .inl ⟨f, rip, sp, hasks, hserved.reads hr.browsed hasks.driver mem⟩
  · have hasks' := hasks.browsed hr.browsed (hr.near f rip sp hasks.toOpenFile)
    have hsize : ((fileAt rip sp s₀).size : ℤ) = (s.inodes rip).size := by
      rw [hr.browsed.size]
      exact Int.toNat_of_nonneg hasks'.nonneg
    rw [hsize] at hnear
    refine Wp.mono (serve_seeks hasks' hr.idle hnear) ?_
    rintro _ s' hserved
    refine ⟨hr.move hserved.browsed hserved.idle hserved.filps (hasks'.sought_range hnear), ?_⟩
    exact .inr ⟨f, rip, sp, hasks, hserved.seeks hsize mem⟩

end

/-- **Reads.**  Whoever reads regular files, through whatever descriptors and in whatever order, gets
what is in the file from the position on, and the position moves behind it, or where `lseek` is told:
whether a block is in the cache, a hole, found through indirect blocks or has been read ahead. -/
theorem reads_follow {s₀ : FsState} (mem : ProcId → Memory) (hable : Able s₀.cache) (hidle : Idle s₀)
    (qs : List Request) :
    Follows serve (fun q _ a => Asks s₀ q a)
      (fun q a r s' a' => r = .ok ⟨⟩ ∧ a' = readerOf mem s' ∧ Browsed s₀ s' ∧ Answers s₀ q a a')
      qs s₀ (readerOf mem s₀) := by
  have hstart : Reading s₀ s₀ := ⟨.refl hable, hidle, fun f rip sp h => ⟨h.start, h.near⟩⟩
  apply Follows.of_simulation (fun s a => Reading s₀ s ∧ a = readerOf mem s) ?_ qs ⟨hstart, rfl⟩
  rintro q s a ⟨hreading, rfl⟩ hasks
  have hserves := hreading.serves hasks
  unfold Surely Wp at hserves
  cases hrun : serve q s with
  | mk r s' =>
    rw [hrun] at hserves
    cases r with
    | error e => exact hserves.elim
    | ok _ =>
      obtain ⟨hreading', hanswers⟩ := hserves
      exact ⟨readerOf mem s', ⟨rfl, rfl, hreading'.browsed, hanswers⟩, hreading', rfl⟩

theorem nrFilps_pos : 0 < nrFilps := by decide

def theFilp : FilpId := ⟨0, nrFilps_pos⟩

/-- A file of 100 names, open as descriptor 0 of `init`. -/
def lettersFile : FsState :=
  let s := lettersDir 100
  { s with
    inodes := fun i => if i = theDir then { s.inodes theDir with mode := 0o100644 } else noInode
    filps := fun f => if f = theFilp then
      { mode := rBit, flags := 0, count := 1, ino := some theDir, pos := 0 }
      else s.filps f
    fprocs := fun p => if p = initProcNr then
      { noFproc with filp := fun fd => if fd = 0 then some theFilp else none }
      else noFproc }

theorem lettersFile_open : OpenFile theFilp theDir rootSuper lettersFile where
  super := rfl
  geometry := lettersSuper_geometry
  driver := show HasDriver 256 from ⟨by decide, by decide⟩
  able := lettersCache_able 100
  zmap := (lettersDir_mounted 100).zmap
  ok := lettersDir_ok 100
  type := by decide
  pipe := rfl
  nonneg := by decide
  size := by decide
  ino := rfl
  mode := by decide
  start := by decide
  near := by decide

def readThousand : Request := { initRequest 3 with nbytes := 1000 }
def seekLate : Request := { initRequest 19 with offset := 1500 }

theorem readThousand_asks : AsksRead readThousand theFilp theDir rootSuper lettersFile :=
  ⟨lettersFile_open, rfl, by decide, rfl, by decide, by decide⟩

theorem seekLate_asks : AsksSeek seekLate theFilp theDir rootSuper lettersFile :=
  ⟨lettersFile_open, rfl, by decide, rfl⟩

/-- The filp is of one file. -/
theorem lettersFile_unique {rip : InodeId} {sp : SuperId} (h : OpenFile theFilp rip sp lettersFile) :
    rip = theDir ∧ sp = rootSuper := by
  obtain rfl : theDir = rip := Option.some.inj h.ino
  exact ⟨rfl, (Option.some.inj h.super).symm⟩

/-- A read of the file returns what has been asked for and is there. -/
theorem lettersFile_reads {a a' : Reader} {p : ℕ} (hp : a.pos theFilp = p)
    (h : Answers lettersFile readThousand a a') :
    a'.replies = ((initProcNr.val : ℤ), (wanted 1600 1000 p : ℤ)) :: a.replies ∧
      a'.memory = written a.memory initProcNr 0
        ((fileAt theDir rootSuper lettersFile).read p (wanted 1600 1000 p)) := by
  rcases h with ⟨f, rip, sp, hasks, n, -, r, hanswer, rfl⟩ | ⟨f, rip, sp, hasks, -⟩
  · obtain rfl : theFilp = f := Option.some.inj hasks.filp
    obtain ⟨rfl, rfl⟩ := lettersFile_unique hasks.toOpenFile
    have hwanted : wanted (fileAt theDir rootSuper lettersFile).size readThousand.nbytes.toNat
        (a.pos theFilp).toNat = wanted 1600 1000 p := by
      rw [hp]
      rfl
    rw [hwanted] at hanswer
    by_cases hall : n = wanted 1600 1000 p
    · rw [if_pos hall] at hanswer
      subst hanswer hall
      rw [hp]
      exact ⟨rfl, rfl⟩
    · -- no copy fails
      rw [if_neg hall] at hanswer
      obtain ⟨hbad, t, ht⟩ := hanswer
      exact absurd ht hbad
  · exact absurd hasks.call (by decide)

theorem lettersFile_seeks {a a' : Reader} (h : Answers lettersFile seekLate a a') :
    a'.pos theFilp = (1500 : ℕ) ∧ a'.replies = ((initProcNr.val : ℤ), OK) :: a.replies ∧
      a'.memory = a.memory := by
  rcases h with ⟨f, rip, sp, hasks, -⟩ | ⟨f, rip, sp, hasks, rfl⟩
  · exact absurd hasks.call (by decide)
  · obtain rfl : theFilp = f := Option.some.inj hasks.filp
    have hmay : ∀ size pos, seekTo seekLate size pos = 1500 := fun _ _ => rfl
    have hgood : ∀ size pos, ¬SeekRefused seekLate size pos := by
      intro size pos
      rw [SeekRefused, hmay]
      decide
    dsimp only
    rw [update_self, sought, seekAnswer, if_neg (hgood _ _), if_neg (hgood _ _), hmay]
    exact ⟨rfl, rfl, rfl⟩

/-- A read of a file of 1600 bytes from its start, and one near its end into the same buffer. -/
theorem reads_follow_letters : ∃ s₁ s₂ s₃, serve readThousand lettersFile = (.ok ⟨⟩, s₁) ∧
    serve seekLate s₁ = (.ok ⟨⟩, s₂) ∧ serve readThousand s₂ = (.ok ⟨⟩, s₃) ∧
      s₃.g.replies = [((initProcNr.val : ℤ), (100 : ℤ)), ((initProcNr.val : ℤ), OK),
        ((initProcNr.val : ℤ), (1000 : ℤ))] ∧
      afterCopies (fun _ _ => 0) s₃.g.toUser =
        written (written (fun _ _ => 0) initProcNr 0 ((fileAt theDir rootSuper lettersFile).read 0 1000))
          initProcNr 0 ((fileAt theDir rootSuper lettersFile).read 1500 100) := by
  have hidle : Idle lettersFile := ⟨rfl, rfl⟩
  have hmay : ∀ a, Asks lettersFile readThousand a := fun _ => .inl ⟨_, _, _, readThousand_asks⟩
  have hseek : ∀ a, Asks lettersFile seekLate a := fun _ =>
    .inr ⟨_, _, _, seekLate_asks, show (1500 : ℤ) < 2 ^ 31 - blockSize by decide⟩
  have hruns := reads_follow (fun _ _ => 0) lettersFile_open.able hidle
    [readThousand, seekLate, readThousand]
  obtain ⟨a₁, ⟨hrun1, -, -, hread1⟩, hruns⟩ := hruns (hmay _)
  generalize hx1 : serve readThousand lettersFile = x₁ at hrun1 hruns
  obtain ⟨r₁, s₁⟩ := x₁
  obtain ⟨a₂, ⟨hrun2, -, -, hread2⟩, hruns⟩ := hruns (hseek _)
  dsimp only at hrun1 hrun2 hruns
  generalize hx2 : serve seekLate s₁ = x₂ at hrun2 hruns
  obtain ⟨r₂, s₂⟩ := x₂
  obtain ⟨a₃, ⟨hrun3, hseen3, -, hread3⟩, -⟩ := hruns (hmay _)
  dsimp only at hrun2 hrun3 hseen3
  generalize hx3 : serve readThousand s₂ = x₃ at hrun3 hseen3
  obtain ⟨r₃, s₃⟩ := x₃
  dsimp only at hrun3 hseen3
  subst hrun1 hrun2 hrun3
  have hall : wanted 1600 1000 0 = 1000 := by decide
  have hrest : wanted 1600 1000 1500 = 100 := by decide
  obtain ⟨hfirst, hcopied1⟩ := lettersFile_reads (Nat.cast_zero).symm hread1
  obtain ⟨hpos, hsecond, hcopied2⟩ := lettersFile_seeks hread2
  obtain ⟨hthird, hcopied3⟩ := lettersFile_reads hpos hread3
  rw [hseen3, hsecond, hfirst, hall, hrest] at hthird
  rw [hseen3, hcopied2, hcopied1, hall, hrest] at hcopied3
  exact ⟨s₁, s₂, s₃, rfl, hx2, hx3, hthird, hcopied3⟩

end LisaMinix.Fs.Server
