import LisaMinix.Fs.Server.Resolution

/-!
# New Nodes

What `mknod` records.  `do_mknod` calls `new_node` without its last parameter, the size, and
`put_inode` with one too many; `new_node` stores the device number as the first zone of an inode
of any type.

- `lastDir_over`: a path is opened down to the last directory.
- `Created`, `newNode_creates`: the inode that `new_node` has made.
- `rwLoop_ends`: where reads of a block device end.
- `doMknod_records`: when a new node holds what has been asked for.
-/

namespace LisaMinix.Fs.Server

open LisaMinix.Library Function
open Discipline (Passes Keeps)

/-! ## §1 Down to the Last Directory -/

section

variable {level : ℕ → ℕ} {s₀ s : FsState} {d : InodeId → ℕ} {r : InodeId} {string : Name}

/-- `advance` for any component, the empty one included. -/
theorem advance_over (h0 : Sane s₀) (ht : MountTree level s₀) (h : Over d s₀ s)
    (hr : (s.inodes r).count ≠ 0) :
    Surely (advance advanceFuel (some r) string) s fun x s' => Over (d + holding x) s₀ s' ∧
      (x = none → s'.g.errCode ≠ OK) := by
  by_cases hstring : string.headD 0 = 0
  · obtain ⟨hdev, hnum⟩ := h.sane.known r hr
    unfold advance advanceFuel
    simp only [Surely, wp_bind, wp_readInode]
    rw [if_pos hstring]
    refine Wp.mono (getInode_over h.sane hdev hnum) ?_
    rintro x s' ⟨h', hnone, -⟩
    refine ⟨h.trans h' h0, fun hx => ?_⟩
    rw [(hnone hx).1]
    decide
  · refine Wp.mono (advance_leads h0 ht hstring h hr (ht.fuel h hr)) ?_
    rintro x s' ⟨h', hnone, -⟩
    exact ⟨h', fun hx => (hnone hx).ne_ok⟩

/-- The loop of `last_dir`: one reference to a directory becomes one to the last one. -/
theorem walk_over {fuel p : ℕ} (h0 : Sane s₀) (ht : MountTree level s₀)
    (h : Over (d + holding (some r)) s₀ s) :
    Returns (walk fuel p r) s fun x s' => Over (d + holding (x.map Prod.fst)) s₀ s' ∧
      (x = none → s'.g.errCode ≠ OK) := by
  induction fuel generalizing p r s with
  | zero => trivial
  | succ fuel ih =>
    unfold walk Returns
    simp only [wp_bind, wp_globals]
    split
    next =>
      simp only [wp_bind, wp_setErr]
      have hkeeps : (custody (fun _ => False) false r s).Keeps none (setErr ENAMETOOLONG) :=
        setErr_keeps _
      have hset := h.trans (Custody.over (hkeeps s (.refl r h.sane.toFurnished)).1 h.sane) h0
      rw [add_zero] at hset
      refine (hset.put h0).mono' (fun _ _ _ => trivial) ?_
      rintro _ s₁ ⟨h1, hreleased⟩
      refine ⟨by simpa using h1, fun _ => ?_⟩
      rw [hreleased.err]
      change ENAMETOOLONG ≠ OK
      decide
    next string newName _ =>
      refine wp_ite (fun _ => ⟨h, by simp⟩) fun _ => ?_
      rw [wp_bind]
      refine (advance_over h0 ht h (h.held h0)).mono' (fun _ _ _ => trivial) ?_
      rintro x s₁ ⟨h1, hnone⟩
      rw [add_right_comm] at h1
      rw [wp_bind]
      refine (h1.put h0).mono' (fun _ _ _ => trivial) ?_
      rintro _ s₂ ⟨h2, hreleased⟩
      cases x with
      | none =>
        refine ⟨h2, fun _ => ?_⟩
        rw [hreleased.err]
        exact hnone rfl
      | some r' => exact ih h2

/-- It makes no difference whether the path is prepared before or after an inode is acquired. -/
theorem prepared_after {α : Type} {E : Panic → FsState → Prop} {Q : α → FsState → Prop} {path : ℕ}
    {start : InodeId} {rest : FsM α}
    (h : Wp E (dupInode start >>= fun _ => rest) (prepared path s) Q) :
    Wp E (dupInode start) s fun _ s' => Wp E (if s.g.fsCall = unlinkCall ∨ s.g.fsCall = rmdirCall then do
        modGlobals fun g => { g with userPath := stripDots path 65536 g.userPath }
        rest
      else rest) s' Q := by
  unfold prepared at h
  unfold dupInode at h ⊢
  simp only [wp_bind, wp_modInode] at h ⊢
  refine wp_ite (fun hstrips => ?_) fun hstrips => ?_
  · rw [if_pos (show Strips s from hstrips)] at h
    rw [wp_bind, wp_modGlobals]
    exact h
  · rw [if_neg (show ¬Strips s from hstrips)] at h
    exact h

/-- `last_dir` acquires the last directory, or fails with an error. -/
theorem lastDir_over {path : ℕ} (hs : Sane s) (ht : MountTree level s)
    (hstart : ∀ start, startDir path s = some start → (s.inodes start).count ≠ 0) :
    Returns (lastDir path) s fun x s' => match x with
      | none => s'.g.errCode ≠ OK
      | some (dir, _) => Over (holding (some dir)) (prepared path s) s' := by
  unfold lastDir Returns
  simp only [wp_bind, wp_caller, wp_globals]
  cases hdir : startDir path s with
  | none =>
    unfold startDir at hdir
    rw [hdir]
    trivial
  | some start =>
    have hsome : (if s.g.userPath path = slash then (s.fprocs s.g.fp).rootdir
      else (s.fprocs s.g.fp).workdir) = some start := hdir
    rw [hsome]
    simp only [wp_bind, wp_readInode]
    refine wp_ite (fun _ => ?_) fun _ => ?_
    · change ENOENT ≠ OK
      decide
    have hsane : Sane (prepared path s) := prepared_sane hs
    have hused : ((prepared path s).inodes start).count ≠ 0 := by
      rw [prepared_inodes]
      exact hstart start hdir
    rw [wp_bind]
    apply prepared_after
    rw [wp_bind]
    refine (dupInode_over hsane hused).mono' (fun _ _ _ => trivial) fun _ s₁ h1 => ?_
    rw [← zero_add (holding (some start))] at h1
    refine Wp.mono (walk_over hsane (prepared_tree ht) h1) ?_
    rintro x s₂ ⟨h2, hnone⟩
    cases x with
    | none => exact hnone rfl
    | some found =>
      rw [zero_add] at h2
      exact h2

end

/-! ## §2 A Slot for the Inode -/

/-- An inode that has just been allocated: nothing is recorded in it. -/
structure Blank (dev bits : ℕ) (x : Inode) : Prop where
  mode : x.mode = bits
  dev : x.dev = dev
  count : x.count = 1
  nlinks : x.nlinks = 0
  size : x.size = 0
  zone : ∀ k, x.zone k = 0
  pipe : x.pipe = false

section

variable {s₀ s : FsState} {dev bits : ℕ}

/-- No inode in use is one of no device, so that `get_inode` takes a free slot for such a one. -/
theorem getInode_noDev {numb : ℕ} (hs : Sane s) :
    Returns (getInode noDev numb) s fun x s' => match x with
      | none => s' = { s with g := { s.g with errCode := ENFILE } }
      | some rip => (s.inodes rip).count = 0 ∧
        s' = { s with
          inodes := update s.inodes rip
            { s.inodes rip with dev := noDev, num := numb, count := 1, update := 0 } } := by
  unfold getInode Returns
  simp only [wp_bind, wp_get]
  split
  next rip hfound =>
    have hrip : 0 < (s.inodes rip).count ∧ (s.inodes rip).dev = noDev ∧ (s.inodes rip).num = numb := by
      simpa using List.find?_some hfound
    exact absurd hrip.2.1 (hs.known rip (ne_of_gt hrip.1)).1.1
  next =>
    split
    next => rfl
    next xp hfree =>
      have hle : (s.inodes xp).count ≤ 0 := by simpa using List.find?_some hfree
      have hzero : (s.inodes xp).count = 0 := le_antisymm hle (hs.nonneg xp)
      rw [if_neg (not_not.mpr rfl)]
      refine ⟨hzero, ?_⟩
      dsimp only
      rw [update_idem, update_self]

/-- `alloc_inode` takes a slot that is not in use, or fails with an error. -/
theorem allocInode_spec (hs : Sane s) :
    Returns (allocInode dev bits) s fun x s' => match x with
      | none => Over 0 s s' ∧ s'.g.errCode ≠ OK
      | some rip => ∃ s₁ y, Over 0 s s₁ ∧ (s.inodes rip).count = 0 ∧ Blank dev bits y ∧
        s' = { s₁ with inodes := update s₁.inodes rip y } := by
  have hall : ∀ _ : Panic, True := fun _ => trivial
  have hfull (t : FsState) (ht : Over 0 s t) :
      Over 0 s { t with g := { t.g with errCode := ENFILE } } := by
    have hkeeps : (custody (fun _ => True) false rootSlot t).Keeps none (setErr ENFILE) := setErr_keeps _
    have hset := ht.trans (Custody.over (hkeeps t (.refl rootSlot ht.sane.toFurnished)).1 ht.sane) hs
    rwa [add_zero] at hset
  have hnofile : ENFILE ≠ OK := by decide
  unfold allocInode getSuper Returns
  simp only [wp_bind, wp_get]
  split
  next sp _ =>
    simp only [wp_pure, wp_readSuper]
    have halloc : (custody (fun _ => True) false rootSlot s).Keeps none
        (liftC (allocBit (s.supers sp).imap (toShort ((s.supers sp).ninodes + 1))
          (s.supers sp).imapBlocks 0)) := liftC_passes (allocBit_lends hall)
    refine (halloc s (.refl rootSlot hs.toFurnished)).mono' (fun _ _ _ => trivial) ?_
    rintro b s₁ ⟨hcustody, -⟩
    have h1 := Custody.over hcustody hs
    refine wp_ite (fun _ => ⟨hfull s₁ h1, hnofile⟩) fun _ => ?_
    rw [wp_bind]
    refine Wp.mono (getInode_noDev h1.sane) ?_
    rintro x s₂ hx
    cases x with
    | none =>
      have h2 : Over 0 s s₂ := by
        rw [show s₂ = _ from hx]
        exact hfull s₁ h1
      have hfree : (custody (fun _ => True) true rootSlot s₂).Keeps none
          (liftC (freeBit (s.supers sp).imap b)) := by
        refine liftC_passes ?_
        unfold freeBit
        split
        · exact Keeps.pure _
        · exact .throw fun _ _ => trivial
        · exact dirtyBuf_lends
      rw [wp_bind]
      refine (hfree s₂ (.refl rootSlot h2.sane.toFurnished)).mono' (fun _ _ _ => trivial) ?_
      rintro _ s₃ ⟨h3, -⟩
      have hover := h2.trans (Custody.over h3 h2.sane) hs
      rw [add_zero] at hover
      refine ⟨hover, ?_⟩
      rw [Custody.err h3 rfl, show s₂ = _ from hx]
      exact hnofile
    | some rip =>
      obtain ⟨hzero, hs2⟩ := hx
      have hcount : (s.inodes rip).count = 0 := by
        have := h1.count rip
        rw [hzero] at this
        simpa using this.symm
      subst hs2
      unfold wipeInode
      simp only [wp_bind, wp_caller, wp_modInode, wp_pure, update_self, update_idem]
      refine ⟨s₁, _, h1, hcount, ?_, rfl⟩
      exact ⟨rfl, rfl, rfl, rfl, rfl, fun _ => rfl, (h1.sane.idle rip hzero).1⟩
  next => trivial

end

/-! ## §3 Writing the Inode -/

/-- An inode of which only the times may have been changed. -/
def Timed (x y : Inode) : Prop :=
  y = { x with atime := y.atime, ctime := y.ctime, mtime := y.mtime, update := y.update, dirt := y.dirt }

/-- The discipline of the programs that change no more in the inode table than the times of an inode. -/
def timing (rip : InodeId) (s₀ : FsState) : Discipline FsState Panic PUnit where
  inv _ s := (∀ i, i ≠ rip → s.inodes i = s₀.inodes i) ∧ Timed (s₀.inodes rip) (s.inodes rip)
  rel _ _ _ _ := True
  err _ _ := True
  refl _ _ := trivial
  trans _ _ := trivial

section

variable {s₀ s : FsState} {rip : InodeId} {α : Type}

/-- A program that leaves the inode table alone. -/
theorem timing_keeps {p : FsM α} (h : ∀ s, Returns p s fun _ s' => s'.inodes = s.inodes) :
    (timing rip s₀).Keeps ⟨⟩ p := by
  rintro s ⟨hothers, hself⟩
  refine (h s).mono fun _ s' hs' => ?_
  change ((∀ i, i ≠ rip → s'.inodes i = s₀.inodes i) ∧ Timed (s₀.inodes rip) (s'.inodes rip)) ∧ True
  rw [hs']
  exact ⟨⟨hothers, hself⟩, trivial⟩

theorem returns_liftC {p : CacheM α} : Returns (liftC p) s fun _ s' => s'.inodes = s.inodes := by
  rw [Returns, wp_liftC]
  exact wp_true.mono fun _ _ _ => rfl

theorem returns_getSuper {dev : ℕ} : Returns (getSuper dev) s fun _ s' => s'.inodes = s.inodes := by
  unfold getSuper Returns
  simp only [wp_bind, wp_get]
  split
  · rfl
  · trivial

theorem returns_clockTime : Returns clockTime s fun _ s' => s'.inodes = s.inodes := by
  unfold clockTime Returns
  simp only [wp_bind, wp_globals, wp_modGlobals]
  exact Wp.mono returns_getSuper fun sp s₁ h1 => h1

theorem timing_modInode {f : Inode → Inode} (hf : ∀ x, Timed x (f x)) :
    (timing rip s₀).Keeps ⟨⟩ (modInode rip f) := by
  refine Passes.modify fun s hs => ⟨⟨fun i hi => ?_, ?_⟩, trivial⟩
  · dsimp only
    rw [update_of_ne hi]
    exact hs.1 i hi
  · have hbefore := hs.2
    have hstep := hf (s.inodes rip)
    dsimp only
    rw [update_self]
    unfold Timed at hbefore hstep ⊢
    rw [hbefore] at hstep ⊢
    exact hstep

/-- `rw_inode` for writing changes no more of the inode than its times. -/
theorem rwInode_timing : (timing rip s₀).Keeps ⟨⟩ (rwInode rip .writing) := by
  have hread (t : FsState) : Returns (readInode rip) t fun _ t' => t'.inodes = t.inodes := rfl
  have hsuper (sp : SuperId) (t : FsState) : Returns (readSuper sp) t fun _ t' => t'.inodes = t.inodes := rfl
  refine Passes.bind (timing_keeps hread) fun i => ?_
  refine Passes.bind (timing_keeps fun _ => returns_getSuper) fun sp => ?_
  refine Passes.bind (timing_keeps (hsuper sp)) fun x => ?_
  refine Passes.bind (timing_keeps fun _ => returns_liftC) fun bp => ?_
  refine Passes.join ?_ fun hwrite => ?_
  · refine Passes.bind (timing_keeps hread) fun i => ?_
    refine Passes.bind (timing_keeps fun _ => returns_liftC) fun _ => ?_
    refine Passes.bind (timing_keeps fun _ => returns_liftC) fun _ => ?_
    exact timing_modInode fun _ => rfl
  · refine Passes.bind (Passes.bind (timing_keeps fun _ => returns_clockTime) fun now => ?_) fun _ => hwrite
    exact timing_modInode fun _ => rfl

theorem rwInode_clean {rw : RwFlag} :
    Returns (rwInode rip rw) s fun _ s' => (s'.inodes rip).dirt = false := by
  -- whatever comes before, the last step clears the flag
  have hclean (t : FsState) : Returns (modInode rip fun x => { x with dirt := false }) t
      fun _ t' => (t'.inodes rip).dirt = false := by
    rw [Returns, wp_modInode]
    dsimp only
    rw [update_self]
  unfold rwInode Returns
  rw [wp_bind]
  refine wp_true.mono fun i s₁ _ => Wp.bind wp_true fun sp s₂ _ => Wp.bind wp_true fun x s₃ _ => ?_
  refine Wp.bind wp_true fun bp s₄ _ => ?_
  cases rw with
  | reading =>
    refine Wp.bind wp_true fun data s₅ _ => Wp.bind wp_true fun _ s₆ _ => ?_
    exact Wp.bind wp_true fun _ s₇ _ => hclean s₇
  | writing =>
    refine wp_join (fun _ => True) trivial (fun s₅ _ => ?_) fun _ hwrite => Wp.bind wp_true fun _ => hwrite
    refine Wp.bind wp_true fun _ s₆ _ => Wp.bind wp_true fun _ s₇ _ => ?_
    exact Wp.bind wp_true fun _ s₈ _ => hclean s₈

end

/-! ## §4 `new_node` -/

/-- From `s` to `s'` a node has been made in a slot that was free, and there is one reference to it. -/
structure Created (bits z0 : ℕ) (lsize : ℤ) (rip : InodeId) (s s' : FsState) : Prop where
  free : (s.inodes rip).count = 0
  count : ∀ i, (s'.inodes i).count = (s.inodes i).count + holding (some rip) i
  mode : (s'.inodes rip).mode = bits
  nlinks : (s'.inodes rip).nlinks = 1
  zone : ∀ k, (s'.inodes rip).zone k = if k = 0 then z0 else 0
  size : (s'.inodes rip).size = lsize
  clean : (s'.inodes rip).dirt = false
  pipe : (s'.inodes rip).pipe = false
  err : s'.g.errCode = OK

/-- The inode as `new_node` writes it. -/
def nodeOf (z0 : ℕ) (lsize : ℤ) (y : Inode) : Inode :=
  { y.moreLinks with zone := update y.zone 0 z0, size := lsize }

/-- An inode in a slot of the table. -/
def placed (rip : InodeId) (y : Inode) (s : FsState) : FsState :=
  { s with inodes := update s.inodes rip y }

section

variable {s₀ s : FsState} {rip dir : InodeId} {y : Inode} {bits z0 : ℕ} {lsize : ℤ} {string : Name}

theorem placed_self : (placed rip y s).inodes rip = y := update_self ..

variable {i : InodeId}

theorem placed_other (hi : i ≠ rip) : (placed rip y s).inodes i = s.inodes i :=
  update_of_ne hi ..

theorem placed_furnished (h : Furnished s) : Furnished (placed rip y s) :=
  ⟨h.cache, h.driver, h.root, h.maps⟩

theorem lessCount_self :
    (lessCount rip s).inodes rip = { s.inodes rip with count := (s.inodes rip).count - 1 } :=
  update_self ..

theorem lessCount_other (hi : i ≠ rip) : (lessCount rip s).inodes i = s.inodes i :=
  update_of_ne hi ..

/-- The inode is written before there is an entry for it. -/
theorem rwInode_placed (hs : Furnished s) (hdev : KnownDev s y.dev) :
    Returns (rwInode rip .writing) (placed rip y s) fun _ s' =>
      Custody true rip (placed rip y s) none s' ∧ Timed y (s'.inodes rip) ∧
        (s'.inodes rip).dirt = false := by
  have hfurnished : Furnished (placed rip y s) := placed_furnished hs
  have hknown : KnownDev (placed rip y s) ((placed rip y s).inodes rip).dev := by
    rw [placed_self]
    exact hdev
  have hkeeps : (custody (fun _ => True) true rip (placed rip y s)).Keeps none (rwInode rip .writing) :=
    rwInode_keeps hfurnished hknown
  have htimes : Returns (rwInode rip .writing) (placed rip y s) fun _ s' =>
      Timed ((placed rip y s).inodes rip) (s'.inodes rip) := by
    refine Wp.mono (rwInode_timing (placed rip y s) ⟨fun _ _ => rfl, rfl⟩) ?_
    rintro _ s' ⟨h, -⟩
    exact h.2
  rw [placed_self] at htimes
  refine (((hkeeps _ (.refl rip hfurnished)).and htimes).and rwInode_clean).mono'
    (fun _ _ _ => trivial) ?_
  rintro _ s' ⟨⟨⟨hcustody, -⟩, htimed⟩, hclean⟩
  exact ⟨hcustody, htimed, hclean⟩

/-- The entry is made and the directory released, or the node is removed again. -/
theorem enterNode (hs : Furnished s) (hdev : KnownDev s (s.inodes dir).dev)
    (hnum : (s.inodes dir).num < 65536) (hne : rip ≠ dir) {numb : ℕ} :
    Returns (do
      let (r, _) ← searchDir dir string (.enter numb)
      if r ≠ OK then
        putInodeId dir
        modInode rip fun x => x.fewerLinks.soil
        putInodeId rip
        setErr r
        return none
      else
        putInodeId dir
        setErr OK
        return some rip) s fun x s' => match x with
      | none => s'.g.errCode ≠ OK
      | some i => i = rip ∧ s'.inodes rip = s.inodes rip ∧ s'.g.errCode = OK ∧
        ∀ i, (s'.inodes i).count + holding (some dir) i = (s.inodes i).count := by
  have henter : (custody (fun _ => True) false dir s).Keeps none (searchDir dir string (.enter numb)) :=
    searchDir_enter_keeps (fun _ => trivial) hs hdev
  rw [Returns, wp_bind]
  refine (henter s (.refl dir hs)).mono' (fun _ _ _ => trivial) ?_
  rintro ⟨code, n⟩ s₁ ⟨h1, -⟩
  dsimp only
  refine wp_ite (fun hcode => ?_) fun _ => ?_
  · refine Wp.bind wp_true fun _ s₂ _ => Wp.bind wp_true fun _ s₃ _ => Wp.bind wp_true fun _ s₄ _ => ?_
    exact hcode
  have hsame := Custody.self h1
  have hdev1 : KnownDev s₁ (s₁.inodes dir).dev := by
    rw [hsame.dev]
    exact Custody.knownDev h1 hdev
  have hnum1 : (s₁.inodes dir).num < 65536 := by
    rw [hsame.num]
    exact hnum
  rw [wp_bind]
  refine (putInodeId_custody (Custody.furnished h1 hs) hdev1 hnum1).mono' (fun _ _ _ => trivial) ?_
  rintro _ s₂ ⟨h2, -⟩
  rw [wp_bind, wp_setErr, wp_pure]
  refine ⟨rfl, ?_, rfl, fun i => ?_⟩
  · change s₂.inodes rip = _
    rw [h2.others rip hne, lessCount_other hne, Custody.others h1 rip hne]
  · change (s₂.inodes i).count + _ = _
    rcases eq_or_ne i dir with rfl | hi
    · rw [h2.self.count, lessCount_self, holding, if_pos rfl]
      dsimp only
      rw [hsame.count]
      exact sub_add_cancel _ _
    · rw [h2.others i hi, lessCount_other hi, Custody.others h1 i hi, holding,
        if_neg fun he => hi (Option.some.inj he).symm]
      exact add_zero _

theorem makeNode_creates (h0 : Sane s₀) (h : Over (holding (some dir)) s₀ s) :
    Returns (makeNode dir string bits z0 lsize) s fun x s' => match x with
      | none => s'.g.errCode ≠ OK
      | some rip => Created bits z0 lsize rip s₀ s' := by
  have hhold : Over (0 + holding (some dir)) s₀ s := by rwa [zero_add]
  have hdir := hhold.held h0
  obtain ⟨hdev, hnum⟩ := h.sane.known dir hdir
  unfold makeNode Returns
  rw [wp_bind, wp_readInode, wp_bind]
  refine Wp.mono (allocInode_spec h.sane) ?_
  intro x s₁ hx
  cases x with
  | none =>
    obtain ⟨h1, herr⟩ := hx
    have hheld := hhold.trans h1 h0
    rw [add_zero] at hheld
    dsimp only
    rw [wp_bind]
    refine (hheld.put h0).mono' (fun _ _ _ => trivial) ?_
    rintro _ s₂ ⟨-, hreleased⟩
    change s₂.g.errCode ≠ OK
    rw [hreleased.err]
    exact herr
  | some rip =>
    obtain ⟨t, y, ht, hfree, hblank, rfl⟩ := hx
    have hne : rip ≠ dir := by
      rintro rfl
      exact hdir hfree
    dsimp only
    rw [wp_bind, wp_modInode, wp_bind]
    simp only [update_self, update_idem]
    have hknown : KnownDev t (s.inodes dir).dev := ht.knownDev hdev
    have hnode : KnownDev t (nodeOf z0 lsize y).dev := by
      change KnownDev t y.dev
      rw [hblank.dev]
      exact hknown
    refine Wp.mono (rwInode_placed ht.sane.toFurnished hnode) ?_
    rintro _ s₂ ⟨h2, htimed, hclean⟩
    have hplaced : Furnished (placed rip (nodeOf z0 lsize y) t) := placed_furnished ht.sane.toFurnished
    have hdir2 : s₂.inodes dir = t.inodes dir := by
      rw [h2.others dir hne.symm, placed_other hne.symm]
    have hdev2 : KnownDev s₂ (s₂.inodes dir).dev := by
      rw [hdir2, (ht.ident dir hdir).1]
      exact h2.knownDev hknown
    have hnum2 : (s₂.inodes dir).num < 65536 := by
      rw [hdir2, (ht.ident dir hdir).2]
      exact hnum
    rw [wp_bind, wp_readInode]
    refine Wp.mono (enterNode (h2.furnished hplaced) hdev2 hnum2 hne) ?_
    intro x s₃ hx
    cases x with
    | none => exact hx
    | some i =>
      obtain ⟨rfl, hself, herr, hcount⟩ := hx
      rw [← hself] at htimed hclean
      have hzero : (s₀.inodes i).count = 0 := by
        have hat := h.count i
        have hnonneg := h0.nonneg i
        omega
      -- the only count that has changed is that of the new node
      have hcounts (j : InodeId) :
          (s₃.inodes j).count = (s₀.inodes j).count + holding (some i) j := by
        have hlast := hcount j
        have hfirst := h.count j
        rcases eq_or_ne j i with rfl | hj
        · have hone : (s₃.inodes j).count = 1 := by
            rw [htimed]
            exact hblank.count
          rw [hone, hzero, holding, if_pos rfl]
          rfl
        · have hmiddle := ht.count j
          rw [h2.others j hj, placed_other hj, hmiddle, hfirst, Pi.zero_apply] at hlast
          rw [holding, if_neg fun he => hj (Option.some.inj he).symm]
          push_cast at hlast ⊢
          omega
      refine ⟨hzero, hcounts, ?_, ?_, fun k => ?_, ?_, hclean, ?_, herr⟩
      · rw [htimed]
        exact hblank.mode
      · rw [htimed]
        change (y.nlinks + 1) % 256 = 1
        rw [hblank.nlinks]
      · rw [htimed]
        change update y.zone 0 z0 k = _
        rw [update_apply, hblank.zone]
      · rw [htimed]
      · rw [htimed]
        exact hblank.pipe

/-- `new_node` makes a node, or it leaves an error; the inode of a node that is there already is acquired. -/
theorem newNode_creates {level : ℕ → ℕ} (hs : Sane s) (ht : MountTree level s)
    (hstart : ∀ start, startDir 0 s = some start → (s.inodes start).count ≠ 0) :
    Returns (newNode bits z0 lsize) s fun x s' => match x with
      | none => s'.g.errCode ≠ OK
      | some rip => Created bits z0 lsize rip (prepared 0 s) s' ∨
        Over (holding (some rip)) (prepared 0 s) s' ∧ s'.g.errCode = EEXIST := by
  have h0 : Sane (prepared 0 s) := prepared_sane hs
  unfold newNode Returns
  rw [wp_bind]
  refine Wp.mono (lastDir_over hs ht hstart) ?_
  intro x s₁ hx
  cases x with
  | none => exact hx
  | some found =>
    obtain ⟨dir, string⟩ := found
    have h1 : Over (0 + holding (some dir)) (prepared 0 s) s₁ := by rwa [zero_add]
    dsimp only
    rw [wp_bind]
    refine (advance_over h0 (prepared_tree ht) h1 (h1.held h0)).mono' (fun _ _ _ => trivial) ?_
    rintro rip s₂ ⟨h2, hnone⟩
    rw [add_right_comm] at h2
    unfold errCode
    simp only [wp_bind, wp_globals, wp_pure]
    refine wp_ite (fun hnew => ?_) fun hold => ?_
    · -- the last component does not exist
      obtain ⟨rfl, -⟩ := hnew
      rw [holding_none, add_zero, zero_add] at h2
      refine Wp.mono (makeNode_creates h0 h2) ?_
      intro y s₃ hy
      cases y with
      | none => exact hy
      | some rip => exact .inl hy
    · rw [wp_bind]
      refine (h2.put h0).mono' (fun _ _ _ => trivial) ?_
      rintro _ s₃ ⟨h3, -⟩
      rw [wp_bind, wp_setErr, wp_pure]
      cases rip with
      | none => exact hnone rfl
      | some rip =>
        refine .inr ⟨?_, rfl⟩
        have hkeeps : (custody (fun _ => False) false dir s₃).Keeps none (setErr EEXIST) := setErr_keeps _
        have hset := h3.trans (Custody.over (hkeeps s₃ (.refl dir h3.sane.toFurnished)).1 h3.sane) h0
        rw [add_zero, zero_add] at hset
        exact hset

end

/-! ## §5 Where Reads of a Block Device End -/

/-- The discipline of the programs that leave alone the count of the bytes that are yet to be read. -/
def counting (n : ℤ) : Discipline FsState Panic PUnit where
  inv _ s := s.g.nbytes = n
  rel _ _ _ _ := True
  err _ _ := True
  refl _ _ := trivial
  trans _ _ := trivial

section

variable {s : FsState} {rip : InodeId} {n : ℤ} {α : Type}

theorem counting_keeps {p : FsM α} (h : ∀ s, Returns p s fun _ s' => s'.g.nbytes = s.g.nbytes) :
    (counting n).Keeps ⟨⟩ p := fun s hs =>
  (h s).mono fun _ _ hs' => ⟨hs'.trans hs, trivial⟩

theorem counting_liftC {p : CacheM α} : (counting n).Keeps ⟨⟩ (liftC p) :=
  counting_keeps fun s => by
    rw [Returns, wp_liftC]
    exact wp_true.mono fun _ _ _ => rfl

theorem counting_readInode : (counting n).Keeps ⟨⟩ (readInode i) := fun _ hs => ⟨hs, trivial⟩

theorem counting_readSuper {sp : SuperId} : (counting n).Keeps ⟨⟩ (readSuper sp) := fun _ hs => ⟨hs, trivial⟩

theorem counting_getSuper {dev : ℕ} : (counting n).Keeps ⟨⟩ (getSuper dev) :=
  counting_keeps fun s => by
    unfold getSuper Returns
    simp only [wp_bind, wp_get]
    split
    · rfl
    · trivial

theorem counting_readMap {position : ℤ} : (counting n).Keeps ⟨⟩ (readMap rip position) := by
  have hscale : (counting n).Keeps ⟨⟩ (scaleFactor rip) := by
    refine Passes.bind counting_readInode fun i => Passes.bind counting_getSuper fun sp => ?_
    exact Passes.bind counting_readSuper fun x => Keeps.pure _
  refine Passes.bind hscale fun scale => Passes.bind counting_readInode fun i => ?_
  split
  · exact .throw fun _ _ => trivial
  refine Passes.bind counting_liftC fun z => ?_
  split <;> exact Keeps.pure _

theorem counting_aheadLoop {a : AheadArgs} {readingAhead : Bool} {k : ℕ} {st : Ahead} :
    (counting n).Keeps ⟨⟩ (aheadLoop a readingAhead k st) := by
  induction k generalizing st with
  | zero => exact Keeps.pure _
  | succ k ih =>
    refine Passes.bind Passes.get fun s => ?_
    split
    · exact Keeps.pure _
    refine Passes.bind ?_ fun st => ih
    have hblock : (counting n).Keeps ⟨⟩ (aheadBlock a st.position) := by
      unfold aheadBlock
      split
      · exact Keeps.pure _
      · exact counting_readMap
    refine Passes.bind hblock fun block => ?_
    dsimp only
    split
    · exact Keeps.pure _
    split
    · refine Passes.bind counting_liftC fun bp => Passes.bind Passes.get fun s => ?_
      split
      · exact Keeps.pure _
      · exact Passes.bind counting_liftC fun _ => Keeps.pure _
    · exact Keeps.pure _

theorem counting_rahead {b : ℕ} {position ahead : ℤ} :
    (counting n).Keeps ⟨⟩ (rahead rip b position ahead) := by
  refine Passes.bind counting_readInode fun i => Passes.bind counting_liftC fun bp => ?_
  refine Passes.bind Passes.get fun s => ?_
  dsimp only
  split
  · exact Keeps.pure _
  refine Passes.bind counting_aheadLoop fun st => ?_
  split
  · refine Passes.bind counting_aheadLoop fun st => ?_
    refine Passes.bind counting_liftC fun _ => ?_
    exact counting_liftC
  · refine Passes.bind (Keeps.pure st) fun st => Passes.bind counting_liftC fun _ => ?_
    exact counting_liftC

theorem counting_rwChunk {position left : ℤ} {off chunk buff : ℕ} {usr : ProcId} :
    (counting n).Keeps ⟨⟩ (rwChunk rip position off chunk left .reading buff usr) := by
  have hbuf : (counting n).Keeps ⟨⟩ (chunkBuf rip position off chunk left .reading) := by
    have hfound (i : Inode) (b : ℕ) : (counting n).Keeps ⟨⟩ (do
        if i.blockSpec = false ∧ b = 0 then
          let bp ← liftC (getBlock noDev 0 .normal)
          liftC (zeroBlock bp)
          return some bp
        else return some (← rahead rip b position left)) := by
      split
      · exact Passes.bind counting_liftC fun bp => Passes.bind counting_liftC fun _ => Keeps.pure _
      · exact Passes.bind counting_rahead fun bp => Keeps.pure _
    refine Passes.bind counting_readInode fun i => ?_
    dsimp only
    split
    · exact Passes.bind (Keeps.pure _) fun b => hfound i b
    · exact Passes.bind counting_readMap fun b => hfound i b
  have huser (bp : BufId) : (counting n).Keeps ⟨⟩ (rwUser .reading usr buff chunk bp off) := by
    have hcopy : (counting n).Keeps ⟨⟩ nextCopy := counting_keeps fun s => rfl
    refine Passes.bind hcopy fun r => ?_
    dsimp only
    split
    · refine Passes.bind counting_liftC fun data => ?_
      exact Passes.bind (counting_keeps fun s => rfl) fun _ => Keeps.pure _
    · exact Keeps.pure _
  refine Passes.bind hbuf fun found => ?_
  cases found with
  | none => exact counting_keeps fun s => rfl
  | some bp =>
    refine Passes.bind counting_readInode fun i => ?_
    refine Passes.bind (huser bp) fun r => ?_
    exact Passes.bind counting_liftC fun _ => Keeps.pure _

/-- The loop of `read_write` reads no further than the limit, and up to it unless there is an error. -/
theorem rwLoop_ends {blockSpec : Bool} {limit position cumIo : ℤ} {usr : ProcId} {k : ℕ}
    (hlimit : limit ≤ maxPLong) (hpos : 0 ≤ position) (hbytes : 0 ≤ s.g.nbytes)
    (hk : s.g.nbytes ≤ k) :
    Returns (rwLoop rip blockSpec limit .reading usr k OK position cumIo) s fun x s' =>
      position ≤ x.2.1 ∧ x.2.1 ≤ max position limit ∧ x.2.2 = cumIo + (x.2.1 - position) ∧
        (x.1 = OK → 0 ≤ s'.cache.rdwtErr →
          x.2.1 = max position (min (position + s.g.nbytes) limit)) := by
  induction k generalizing position cumIo s with
  | zero =>
    unfold rwLoop Returns
    rw [wp_pure]
    dsimp only
    omega
  | succ k ih =>
    unfold rwLoop Returns
    simp only [wp_bind, wp_globals]
    refine wp_ite (fun hzero => ?_) fun hmore => ?_
    · rw [wp_pure]
      dsimp only
      omega
    simp only [decide_true, Bool.true_or, true_and, if_true]
    refine wp_ite (fun hend => ?_) fun hbefore => ?_
    · rw [wp_pure]
      dsimp only
      omega
    generalize hchunk : min (min s.g.nbytes (blockSize - position % blockSize)) (limit - position) = chunk
    have hoff : position % blockSize < blockSize := Int.emod_lt_of_pos _ (by decide)
    rw [wp_bind]
    refine Wp.mono (counting_rwChunk s rfl) ?_
    rintro r s₁ ⟨hsame, -⟩
    change s₁.g.nbytes = s.g.nbytes at hsame
    rw [wp_bind, wp_get]
    refine wp_ite (fun hstop => ?_) fun hgo => ?_
    · rw [wp_pure]
      refine ⟨le_rfl, le_max_left _ _, by simp, fun hr herr => ?_⟩
      rcases hstop with hbad | hbad
      · exact absurd hr hbad
      · exact absurd herr (not_le.mpr hbad)
    obtain ⟨hr, -⟩ := not_or.mp hgo
    rw [not_not.mp hr, wp_bind, wp_modGlobals]
    have hnext : toLong (position + chunk) = position + chunk := by
      unfold maxPLong at hlimit
      unfold toLong
      split <;> omega
    rw [hnext]
    generalize hs2 : FsState.mk _ _ _ _ _ _ = s₂
    have hleft : s₂.g.nbytes = s.g.nbytes - chunk := by
      rw [← hs2, ← hsame]
    refine Wp.mono (ih (s := s₂) (by omega) (by omega) (by omega)) ?_
    rintro ⟨r', position', cumIo'⟩ s₃ ⟨hle, hmax, hcum, hfull⟩
    dsimp only at hle hmax hcum hfull ⊢
    refine ⟨by omega, by omega, by omega, fun hr' herr => ?_⟩
    have := hfull hr' herr
    omega

end

/-- Reads of a block device end at the limit: `read_write` reads in its loop up to it, and no further. -/
structure EndsAt (limit : ℤ) (rip : InodeId) (t : FsState) : Prop where
  enters : ∀ f usr, rwFile f rip .reading usr t = (do
    let (r, position, cumIo) ← rwLoop rip true limit .reading usr t.g.nbytes.toNat OK (t.filps f).pos 0
    rwFinish f rip limit .reading r position cumIo) t
  ends : ∀ usr position, 0 ≤ position →
    Returns (rwLoop rip true limit .reading usr t.g.nbytes.toNat OK position 0) t fun x t' =>
      position ≤ x.2.1 ∧ x.2.1 ≤ max position limit ∧ x.2.2 = x.2.1 - position ∧
        (x.1 = OK → 0 ≤ t'.cache.rdwtErr →
          x.2.1 = max position (min (position + t.g.nbytes) limit))

/-- The size that a block device has for `read_write`. -/
def deviceEnd (size : ℤ) : ℤ := if size = 0 then maxPLong else size

theorem blockSpec_endsAt {rip : InodeId} {t : FsState} (htype : (t.inodes rip).type = iBlockSpecial)
    (hpipe : (t.inodes rip).pipe = false) (hsize : (t.inodes rip).size ≤ maxPLong)
    (hbytes : 0 ≤ t.g.nbytes) : EndsAt (deviceEnd (t.inodes rip).size) rip t where
  enters f usr := by
    have hspec : (t.inodes rip).blockSpec = true := decide_eq_true htype
    have hread : rwFile f rip .reading usr t = (do
        let r ← if (t.inodes rip).pipe then pipeCheck rip .reading (t.filps f).flags t.g.nbytes (t.filps f).pos
          else pure OK
        if (t.inodes rip).pipe ∧ r ≤ 0 then return r
        else
          let fSize := if (t.inodes rip).blockSpec ∧ (t.inodes rip).size = 0 then maxPLong
            else (t.inodes rip).size
          let (r, position, cumIo) ← rwLoop rip (t.inodes rip).blockSpec fSize .reading usr
            t.g.nbytes.toNat r (t.filps f).pos 0
          rwFinish f rip fSize .reading r position cumIo) t := by
      unfold rwFile
      rfl
    rw [hread, hpipe, hspec]
    simp only [Bool.false_eq_true, if_false, false_and, true_and, pure_bind]
    rfl
  ends usr position hpos := by
    have hlimit : deviceEnd (t.inodes rip).size ≤ maxPLong := by
      unfold deviceEnd
      split
      · exact le_rfl
      · exact hsize
    refine Wp.mono (rwLoop_ends hlimit hpos hbytes ?_) ?_
    · exact Int.self_le_toNat _
    · rintro x t' ⟨hle, hmax, hcum, hfull⟩
      rw [zero_add] at hcum
      exact ⟨hle, hmax, hcum, hfull⟩

/-! ## §6 `do_mknod` -/

/-- `addr` and `size` as `do_mknod` takes them from a request. -/
def Request.nodeDev (q : Request) : ℕ := (q.addr % 65536).toNat
def Request.nodeSize (q : Request) : ℕ := q.name2.addr % 65536

/-- A node for a device is asked for. -/
def Request.Special (q : Request) : Prop :=
  q.mode &&& iType = iBlockSpecial ∨ q.mode &&& iType = iCharSpecial

/-- What an inode holds if it holds what has been asked for. -/
structure Asked (q : Request) (x : Inode) : Prop where
  special : q.Special → x.zone 0 = q.nodeDev ∧ x.size = q.nodeSize * blockSize
  plain : ¬q.Special → x.size = 0 ∧ ∀ k, x.zone k = 0

/-- What `new_node` finds in place of the size is the size asked for, and a node for no device is asked for
    with device 0. -/
def Fits (q : Request) : Prop :=
  (q.Special → q.lsize = q.nodeSize * blockSize) ∧ (¬q.Special → q.lsize = 0 ∧ q.nodeDev = 0)

/-- The node in slot `i` holds what has been asked for, and has been released once: it was made between `s`
    and `s₁`, and in `s'` every inode has as many references as in `s`. -/
structure Recorded (q : Request) (i : InodeId) (s s₁ s' : FsState) : Prop where
  asked : Asked q (s'.inodes i)
  type : (s'.inodes i).type = q.mode &&& iType
  free : (s.inodes i).count = 0
  made : (s₁.inodes i).count = 1
  released : ∀ k, (s'.inodes k).count = (s.inodes k).count
  reads : q.mode &&& iType = iBlockSpecial → ∀ rip t, (t.inodes rip).type = (s'.inodes i).type →
    (t.inodes rip).size = (s'.inodes i).size → (t.inodes rip).pipe = false → 0 ≤ t.g.nbytes →
      EndsAt (deviceEnd (q.nodeSize * blockSize)) rip t

section

variable {level : ℕ → ℕ} {s s' : FsState} {q : Request}

/-- The state after a path has been fetched. -/
def fetched (s : FsState) (userPath : Block) (err : ℤ) (tick : ℕ) : FsState :=
  { s with g := { s.g with userPath := userPath, errCode := err, tick := tick } }

theorem fetchName_spec {arg : NameArg} {m3 : Bool} :
    Returns (fetchName arg m3) s fun r s' => (r ≠ OK → s'.g.errCode ≠ OK) ∧
      ∃ userPath err tick, s' = fetched s userPath err tick := by
  have hinval : EINVAL ≠ OK := by decide
  have hlong : ENAMETOOLONG ≠ OK := by decide
  unfold fetchName Returns
  refine wp_ite (fun _ => ⟨fun _ => hinval, _, _, _, rfl⟩) fun _ => ?_
  refine wp_ite (fun _ => ⟨fun h => absurd rfl h, _, _, _, rfl⟩) fun _ => ?_
  refine wp_ite (fun _ => ⟨fun _ => hlong, _, _, _, rfl⟩) fun _ => ?_
  unfold nextCopy
  simp only [wp_bind, wp_globals, wp_modGlobals, wp_pure]
  refine wp_ite (fun _ => ?_) fun _ => ?_
  · exact ⟨id, _, _, _, rfl⟩
  · exact ⟨id, _, _, _, rfl⟩

/-- The tables are in order whatever the global variables are, but for the root device. -/
theorem Sane.globals {g : Globals} (hs : Sane s) (hg : g.rootDev = s.g.rootDev) :
    Sane { s with g := g } := by
  refine ⟨⟨hs.cache, hs.driver, ?_, hs.maps⟩, hs.nonneg, hs.known, hs.idle, hs.unique⟩
  dsimp only
  rw [hg]
  exact hs.root

theorem MountTree.globals {g : Globals} (ht : MountTree level s) : MountTree level { s with g := g } :=
  ⟨ht.up, ht.point, ht.below, ht.bound⟩

/-- The last reference to an inode that has links and is clean is released: nothing is written. -/
theorem putInodeId_last (hcount : (s.inodes i).count = 1) (hlinks : (s.inodes i).nlinks ≠ 0)
    (hpipe : (s.inodes i).pipe = false) (hclean : (s.inodes i).dirt = false) :
    Surely (putInodeId i) s fun _ s' =>
      s' = placed i { s.inodes i with count := 0, pipe := false } s := by
  unfold putInodeId
  simp only [Surely, wp_bind, wp_modInode, wp_readInode, update_self]
  rw [hcount, sub_self, if_pos rfl, if_neg hlinks, hpipe]
  simp only [Bool.false_eq_true, if_false, wp_bind, wp_modInode, wp_readInode, update_self,
    update_idem, hclean, wp_pure]
  rfl

/-- The mode of the new node has the type that is asked for. -/
theorem nodeBits_type (mode umask : ℕ) :
    ((mode &&& iType) ||| (mode &&& allModes &&& umask)) &&& iType = mode &&& iType := by
  have hdisjoint : allModes &&& iType = 0 := by decide
  have hrest : mode &&& allModes &&& umask &&& iType = 0 := by
    rw [Nat.and_assoc (mode &&& allModes), Nat.and_comm umask, ← Nat.and_assoc, Nat.and_assoc mode,
      hdisjoint, Nat.and_zero, Nat.zero_and]
  rw [Nat.and_or_distrib_right, hrest, Nat.or_zero, Nat.and_assoc, Nat.and_self]

/-- A node that has been made and released once holds what has been asked for if what was found in place
    of the size fits. -/
theorem Created.recorded_iff {s₁ : FsState} {bits : ℕ}
    (h : Created bits q.nodeDev q.lsize i s s₁) (hbits : bits &&& iType = q.mode &&& iType)
    (hs' : s' = placed i { s₁.inodes i with count := 0, pipe := false } s₁) :
    Recorded q i s s₁ s' ↔ Fits q := by
  have hnode : s'.inodes i = { s₁.inodes i with count := 0, pipe := false } := by
    rw [hs', placed_self]
  constructor
  · intro hrecorded
    have hsize : (s'.inodes i).size = q.lsize := by
      rw [hnode]
      exact h.size
    have hzone : (s'.inodes i).zone 0 = q.nodeDev := by
      rw [hnode]
      exact h.zone 0
    refine ⟨fun hspecial => ?_, fun hplain => ?_⟩
    · rw [← hsize]
      exact (hrecorded.asked.special hspecial).2
    · obtain ⟨hempty, hnone⟩ := hrecorded.asked.plain hplain
      exact ⟨hsize.symm.trans hempty, hzone.symm.trans (hnone 0)⟩
  · rintro ⟨hspecial, hplain⟩
    have htype : (s'.inodes i).type = q.mode &&& iType := by
      rw [hnode]
      change (s₁.inodes i).mode &&& iType = _
      rw [h.mode, hbits]
    have hsize : (s'.inodes i).size = q.lsize := by
      rw [hnode]
      exact h.size
    refine ⟨⟨fun hq => ⟨?_, ?_⟩, fun hq => ⟨?_, fun k => ?_⟩⟩, htype, h.free, ?_, fun k => ?_, ?_⟩
    · rw [hnode]
      exact h.zone 0
    · rw [hsize, hspecial hq]
    · rw [hsize, (hplain hq).1]
    · rw [hnode]
      change (s₁.inodes i).zone k = 0
      rw [h.zone, (hplain hq).2, ite_self]
    · rw [h.count, h.free, holding, if_pos rfl]
      rfl
    · have hcount := h.count k
      rw [hs']
      rcases eq_or_ne k i with rfl | hk
      · rw [placed_self, h.free]
      · rw [placed_other hk, hcount, holding, if_neg fun he => hk (Option.some.inj he).symm]
        exact add_zero _
    · intro hblock rip t htype' hsize' hpipe hbytes
      rw [htype, hblock] at htype'
      have hfits : (t.inodes rip).size = q.nodeSize * blockSize := by
        rw [hsize', hsize, hspecial (.inl hblock)]
      have hsmall : (t.inodes rip).size ≤ maxPLong := by
        have hshort : q.nodeSize < 65536 := Nat.mod_lt _ (by decide)
        rw [hfits]
        unfold blockSize maxPLong
        omega
      rw [← hfits]
      exact blockSpec_endsAt htype' hpipe hsmall hbytes

/-- A `mknod` that succeeds has fetched the path, made a node, and released it once. -/
theorem doMknod_records (hs : Sane s) (ht : MountTree level s)
    (hroot : ∀ dir, (s.fprocs s.g.fp).rootdir = some dir → (s.inodes dir).count ≠ 0)
    (hwork : ∀ dir, (s.fprocs s.g.fp).workdir = some dir → (s.inodes dir).count ≠ 0)
    (hrun : doMknod q s = (.ok OK, s')) :
    ∃ s₀ s₁ i umask, fetchName q.name1 false s = (.ok OK, s₀) ∧
      newNode ((q.mode &&& iType) ||| (q.mode &&& allModes &&& umask)) q.nodeDev q.lsize s₀ =
        (.ok (some i), s₁) ∧
      putInodeId i s₁ = (.ok ⟨⟩, s') ∧ (Recorded q i s s₁ s' ↔ Fits q) := by
  have hcall : Returns (doMknod q) s fun code s' => code = OK →
      ∃ s₀ s₁ i umask, fetchName q.name1 false s = (.ok OK, s₀) ∧
        newNode ((q.mode &&& iType) ||| (q.mode &&& allModes &&& umask)) q.nodeDev q.lsize s₀ =
          (.ok (some i), s₁) ∧
        putInodeId i s₁ = (.ok ⟨⟩, s') ∧ (Recorded q i s s₁ s' ↔ Fits q) := by
    unfold doMknod Returns
    rw [wp_bind, wp_globals]
    refine wp_ite (fun _ hok => absurd hok (by decide)) fun _ => ?_
    rw [wp_bind]
    refine fetchName_spec.run.mono ?_
    rintro code s₀ ⟨hfetch, herr, userPath, err, tick, hs0⟩
    refine wp_ite (fun hcode hok => absurd hok (herr hcode)) fun hcode => ?_
    rw [not_not.mp hcode] at hfetch
    rw [wp_bind, wp_caller, wp_bind]
    have hsane0 : Sane s₀ := by
      rw [hs0]
      exact hs.globals rfl
    have htree0 : MountTree level s₀ := by
      rw [hs0]
      exact ht.globals
    have hstart : ∀ start, startDir 0 s₀ = some start → (s₀.inodes start).count ≠ 0 := by
      intro start hdir
      rw [hs0] at hdir ⊢
      unfold startDir at hdir
      split at hdir
      · exact hroot start hdir
      · exact hwork start hdir
    refine Wp.mono (newNode_creates hsane0 htree0 hstart).run ?_
    rintro x s₁ ⟨hnew, hx⟩
    rw [wp_bind]
    cases x with
    | none => exact fun hok => absurd hok hx
    | some i =>
      rcases hx with hcreated | ⟨hover, hexist⟩
      · have hcount : (s₁.inodes i).count = 1 := by
          rw [hcreated.count, hcreated.free, holding, if_pos rfl]
          rfl
        have hlinks : (s₁.inodes i).nlinks ≠ 0 := by
          rw [hcreated.nlinks]
          exact one_ne_zero
        refine (putInodeId_last hcount hlinks hcreated.pipe hcreated.clean).run.mono'
          (fun _ _ _ => trivial) ?_
        rintro _ s₂ ⟨hput, hs2⟩ -
        refine ⟨s₀, s₁, i, _, hfetch, hnew, hput, ?_⟩
        have hsame : (prepared 0 s₀).inodes = s.inodes := by
          rw [prepared_inodes, hs0]
          rfl
        have hmade : Created _ q.nodeDev q.lsize i s s₁ :=
          { hcreated with
            free := by
              rw [← hsame]
              exact hcreated.free
            count := fun k => by
              rw [← hsame]
              exact hcreated.count k }
        exact hmade.recorded_iff (nodeBits_type _ _) hs2
      · have hheld : Over (0 + holding (some i)) (prepared 0 s₀) s₁ := by rwa [zero_add]
        refine (hheld.put (prepared_sane hsane0)).mono' (fun _ _ _ => trivial) ?_
        rintro _ s₂ ⟨-, hreleased⟩ hok
        change s₂.g.errCode = OK at hok
        rw [hreleased.err, hexist] at hok
        exact absurd hok (by decide)
  exact hcall.ok hrun rfl

end

/-- A block device of five blocks, and the name `/g` for it. -/
def blockNode : Request :=
  { initRequest 14 with
    user := wordBlock [0x2f67]
    name1 := { addr := 0, len := 3, inMessage := zeroBytes }
    name2 := { addr := 5, len := 0, inMessage := zeroBytes }
    mode := 0o060644
    addr := 0x0201
    lsize := 5120 }

def twoDisksCall : FsState := { twoDisks with g := { twoDisks.g with user := blockNode.user } }

theorem doMknod_block : ∃ s₀ s₁ i umask, fetchName blockNode.name1 false twoDisksCall = (.ok OK, s₀) ∧
    newNode ((blockNode.mode &&& iType) ||| (blockNode.mode &&& allModes &&& umask)) blockNode.nodeDev
      blockNode.lsize s₀ = (.ok (some i), s₁) ∧
    putInodeId i s₁ = (.ok ⟨⟩, (doMknod blockNode twoDisksCall).2) ∧
    (Recorded blockNode i twoDisksCall s₁ (doMknod blockNode twoDisksCall).2 ↔ Fits blockNode) := by
  have hrun : (doMknod blockNode twoDisksCall).1 = .ok OK := by decide +kernel
  have hdir (dir : InodeId) (h : some theDir = some dir) : (twoDisksCall.inodes dir).count ≠ 0 := by
    obtain rfl := Option.some.inj h
    decide
  exact doMknod_records (twoDisks_sane.globals rfl) twoDisks_tree.globals hdir hdir (run_eq hrun)

/-- A regular file, with a device number that `do_mknod` makes its first zone. -/
def plainNode : Request :=
  { initRequest 14 with
    user := wordBlock [0x2f67]
    name1 := { addr := 0, len := 3, inMessage := zeroBytes }
    mode := 0o100644
    addr := 7 }

def atPlain : FsState := (beginCall plainNode started).2
def plainMade : FsState :=
  (newNode 0o100644 plainNode.nodeDev plainNode.lsize (fetchName plainNode.name1 false atPlain).2).2

/-- The slot that the new inode is in. -/
def newSlot : InodeId := ⟨30, by decide⟩

/-- A regular file that has just been made has a zone. -/
theorem mknod_plain : Reached pipeWorld started ∧ beginCall plainNode started = (.ok 14, atPlain) ∧
    doMknod plainNode atPlain = (.ok OK, (doMknod plainNode atPlain).2) ∧
    newNode 0o100644 plainNode.nodeDev plainNode.lsize (fetchName plainNode.name1 false atPlain).2 =
      (.ok (some newSlot), plainMade) ∧
    ¬plainNode.Special ∧ ((doMknod plainNode atPlain).2.inodes newSlot).zone 0 = 7 ∧
    ¬Asked plainNode ((doMknod plainNode atPlain).2.inodes newSlot) := by
  have hruns : (fsInit (atBoot pipeWorld)).1 = .ok ⟨⟩ ∧ (beginCall plainNode started).1 = .ok 14 ∧
      (doMknod plainNode atPlain).1 = .ok OK ∧
      (newNode 0o100644 plainNode.nodeDev plainNode.lsize
        (fetchName plainNode.name1 false atPlain).2).1 = .ok (some newSlot) ∧
      ((doMknod plainNode atPlain).2.inodes newSlot).zone 0 = 7 := by decide +kernel
  obtain ⟨hinit, hbegin, hcall, hnew, hzone⟩ := hruns
  have hplain : ¬plainNode.Special := by
    unfold Request.Special
    decide
  refine ⟨.start (run_eq hinit), run_eq hbegin, run_eq hcall, run_eq hnew, hplain, hzone, fun hasked => ?_⟩
  have hnone := (hasked.plain hplain).2 0
  rw [hzone] at hnone
  exact absurd hnone (by decide)

end LisaMinix.Fs.Server
