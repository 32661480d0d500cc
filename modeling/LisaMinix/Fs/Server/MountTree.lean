import LisaMinix.Fs.Server.Holding
import LisaMinix.Fs.Server.Zones

/-!
# The Tree of Mounted File Systems

A component of a path leads from a directory to the inode that its entry names, from a mount point on
into the file system that is mounted there, and by `..` from the root of a mounted file system to where
it leads from the mount point.

- `MountTree`: the file systems are mounted on one another as a tree.
- `Through`, `Leads`, `Fails`: where a component leads, and what it fails with.
- `advance_leads`: `advance` finds the inode there, acquires it, and keeps no other reference.
-/

namespace LisaMinix.Fs.Server

open LisaMinix.Library
open Discipline (Passes Keeps)

/-! ## §1 Mount Points -/

/-- The number that identifies an inode in use. -/
def identity (s : FsState) (i : InodeId) : ℕ × ℕ := ((s.inodes i).dev, (s.inodes i).num)

/-- The file systems in the super block table form a tree, in which every device has a level: all but
    the first super block are mounted on an inode in use of a device further up, and the inodes that are
    mounted on are theirs. -/
structure MountTree (level : ℕ → ℕ) (s : FsState) : Prop where
  up : ∀ sp, 0 < sp.val → (s.supers sp).dev ≠ noDev → ∃ m, (s.supers sp).imount = .to m ∧
    (s.inodes m).count ≠ 0 ∧ level (s.inodes m).dev < level (s.supers sp).dev
  point : ∀ i, (s.inodes i).mount = true → ∃ sp, (s.supers sp).imount = .to i
  below : ∀ sp i, (s.supers sp).imount = .to i → (s.inodes i).mount = true →
    0 < sp.val ∧ (s.supers sp).dev ≠ noDev
  bound : ∀ sp, level (s.supers sp).dev < nrSupers

/-- From an inode into the file system mounted there, as far as it goes. -/
inductive Through (s : FsState) : ℕ × ℕ → ℕ × ℕ → Prop
  /-- nothing is mounted on the inode -/
  | stay {p : ℕ × ℕ} (h : ∀ i, (s.inodes i).mount = true → identity s i ≠ p) : Through s p p
  /-- the inode is a mount point: on to the root of what is mounted there -/
  | cross {i : InodeId} {sp : SuperId} {q : ℕ × ℕ} (hi : (s.inodes i).mount = true)
      (hsp : (s.supers sp).imount = .to i) (h : Through s ((s.supers sp).dev, rootInode) q) :
      Through s (identity s i) q

section

variable {level : ℕ → ℕ} {s₀ s : FsState} {d : InodeId → ℕ} {r : InodeId}

theorem Over.identity_eq (h : Over d s₀ s) {i : InodeId} (hi : (s₀.inodes i).count ≠ 0) :
    identity s i = identity s₀ i := by
  unfold identity
  rw [(h.ident i hi).1, (h.ident i hi).2]

theorem Sane.ident_inj (h : Sane s) {i j : InodeId} (hi : (s.inodes i).count ≠ 0)
    (hj : (s.inodes j).count ≠ 0) (heq : identity s i = identity s j) : i = j :=
  h.unique i j hi hj (congrArg Prod.fst heq) (congrArg Prod.snd heq)

theorem Sane.mount_used (h : Sane s) {i : InodeId} (hi : (s.inodes i).mount = true) :
    (s.inodes i).count ≠ 0 := by
  intro hzero
  rw [(h.idle i hzero).2] at hi
  exact absurd hi (by decide)

theorem Over.held (h : Over (d + holding (some r)) s₀ s) (h0 : Sane s₀) :
    (s.inodes r).count ≠ 0 := by
  have hcount := h.count r
  have hnonneg := h0.nonneg r
  rw [Pi.add_apply, holding, if_pos rfl] at hcount
  push_cast at hcount
  omega

/-- An inode that is not marked as mounted on is not a mount point. -/
theorem through_stay (h : Over (d + holding (some r)) s₀ s) (h0 : Sane s₀)
    (hr : (s.inodes r).mount = false) : Through s₀ (identity s r) (identity s r) := by
  refine .stay fun i hi heq => ?_
  have hused := h0.mount_used hi
  rw [← h.identity_eq hused] at heq
  obtain rfl := h.sane.ident_inj (h.in_use h0 hused) (h.held h0) heq
  rw [h.mount, hi] at hr
  exact absurd hr (by decide)

/-- An inode that is not mounted on stays as it is. -/
theorem crossMounts_plain {fuel : ℕ} {E : Panic → FsState → Prop}
    {Q : Option InodeId → FsState → Prop} (h : (s.inodes r).mount = false) :
    Wp E (crossMounts (fuel + 1) r) s Q ↔ Q (some r) s := by
  unfold crossMounts
  simp only [wp_bind, wp_get]
  rw [if_pos h, wp_pure]

theorem Over.super_dev (h : Over d s₀ s) (sp : SuperId) :
    (s.supers sp).dev = (s₀.supers sp).dev := by
  rw [h.super sp]

/-- The loop over inodes that are mounted on: a reference to one inode becomes one to the root of what
    is mounted there. -/
theorem crossMounts_spec {fuel : ℕ} (h0 : Sane s₀) (ht : MountTree level s₀)
    (h : Over (d + holding (some r)) s₀ s) (hfuel : nrSupers - level (s.inodes r).dev < fuel) :
    Surely (crossMounts fuel r) s fun x s' => Over (d + holding x) s₀ s' ∧
      (x = none → s'.g.errCode = ENFILE ∧ TableFull s') ∧ ∀ j, x = some j →
        (s'.inodes j).mount = false ∧ Through s₀ (identity s r) (identity s' j) := by
  induction fuel generalizing r s with
  | zero => exact absurd hfuel (Nat.not_lt_zero _)
  | succ fuel ih =>
    unfold crossMounts
    simp only [Surely, wp_bind, wp_get]
    refine wp_ite (fun hmount => ?_) fun hmount => ?_
    · refine ⟨h, by simp, fun j hj => ?_⟩
      obtain rfl := Option.some.inj hj
      exact ⟨hmount, through_stay h h0 hmount⟩
    · have hmount0 : (s₀.inodes r).mount = true := by
        rw [← h.mount]
        exact eq_true_of_ne_false hmount
      have hused := h0.mount_used hmount0
      have himount (sp : SuperId) : (s.supers sp).imount = (s₀.supers sp).imount := by rw [h.super sp]
      have hdev (sp : SuperId) : (s.supers sp).dev = (s₀.supers sp).dev := by rw [h.super sp]
      cases hfirst : firstId fun sp => decide ((s.supers sp).imount = .to r) with
      | none =>
        obtain ⟨sp, hsp⟩ := ht.point r hmount0
        have hnot := List.find?_eq_none.mp hfirst sp (List.mem_finRange sp)
        rw [himount sp] at hnot
        exact absurd (decide_eq_true hsp) hnot
      | some sp =>
        have hsp : (s₀.supers sp).imount = .to r := by
          rw [← himount]
          simpa using List.find?_some hfirst
        obtain ⟨hpos, hvalid⟩ := ht.below sp r hsp hmount0
        obtain ⟨m, hm, -, hlevel⟩ := ht.up sp hpos hvalid
        obtain rfl : m = r := by
          rw [hm] at hsp
          exact Ptr.to.inj hsp
        dsimp only
        rw [wp_bind]
        refine Wp.mono (h.put h0) ?_
        rintro _ s₁ ⟨h1, -⟩
        simp only [wp_bind, wp_readSuper]
        have hknown : KnownDev s₁ (s₁.supers sp).dev := by
          rw [h1.super sp]
          exact h1.knownDev ⟨hvalid, sp, rfl⟩
        refine Wp.mono (getInode_over h1.sane hknown (by decide)) ?_
        rintro x s₂ ⟨h2, herr, hident⟩
        have hover := h1.trans h2 h0
        cases x with
        | none => exact ⟨hover, herr, by simp⟩
        | some root =>
          obtain ⟨hroot, hnum⟩ := hident root rfl
          have hroot0 : (s₂.inodes root).dev = (s₀.supers sp).dev := by
            rw [hroot, h1.super sp]
          have hbelow : nrSupers - level (s₂.inodes root).dev < fuel := by
            have hbound := ht.bound sp
            have hhere : (s.inodes m).dev = (s₀.inodes m).dev := (h.ident m hused).1
            rw [hroot0]
            rw [hhere] at hfuel
            omega
          refine Wp.mono (ih hover hbelow) ?_
          rintro y s₃ ⟨h3, herr', hy⟩
          refine ⟨h3, herr', fun j hj => ?_⟩
          obtain ⟨hplain, hthrough⟩ := hy j hj
          refine ⟨hplain, ?_⟩
          rw [h.identity_eq hused]
          have hto : identity s₂ root = ((s₀.supers sp).dev, rootInode) := by
            unfold identity
            rw [hroot0, hnum]
          rw [hto] at hthrough
          exact .cross hmount0 hsp hthrough

/-! ## §2 One Component -/

variable {string : Name}

/-- An inode number that is found in a directory has 16 bits. -/
theorem searchBlocksOf_numb {ldir : InodeId} {op : DirOp} {oldSlots n newSlots : ℕ}
    {pos : ℤ} (hop : op ≠ .delete) :
    Returns (searchBlocksOf ldir string op oldSlots n pos newSlots) s fun x _ =>
      ∀ numb, x = .done numb → numb < 65536 := by
  induction n generalizing pos newSlots s with
  | zero => exact fun _ h => Searched.noConfusion h
  | succ n ih =>
    unfold searchBlocksOf Returns
    simp only [wp_bind]
    refine wp_true.mono fun b s₁ _ => wp_true.mono fun i s₂ _ => wp_true.mono fun bp s₃ _ => ?_
    refine wp_true.mono fun data s₄ _ => ?_
    split
    next k _ _ =>
      unfold useEntry
      simp only [wp_bind, if_neg hop, wp_pure]
      refine wp_true.mono fun data' s₅ _ => wp_true.mono fun _ s₆ _ => ?_
      rintro numb h
      obtain rfl := Searched.done.inj h
      exact getWord_lt _ _
    next => exact fun _ h => Searched.noConfusion h
    next =>
      rw [wp_bind]
      exact wp_true.mono fun _ s₅ _ => ih

theorem searchDir_numb {ldir : InodeId} :
    Returns (searchDir ldir string .lookUp) s fun x _ => x.2 < 65536 := by
  unfold searchDir Returns
  simp only [wp_bind, wp_readInode]
  refine wp_ite (fun _ => by simp) fun _ => ?_
  rw [wp_bind]
  refine wp_true.mono fun code s₁ _ => ?_
  refine wp_ite (fun _ => by simp) fun _ => ?_
  rw [wp_bind]
  refine (searchBlocksOf_numb (by decide)).mono fun found s₂ hfound => ?_
  cases found with
  | done numb => exact hfound numb rfl
  | slot bp k newSlots => simp
  | exhausted newSlots => simp

/-- `search_dir` finds the name in the directory. -/
def Finds (s : FsState) (dir : InodeId) (string : Name) (numb : ℕ) : Prop :=
  ∃ s', searchDir dir string .lookUp s = (.ok (OK, numb), s')

/-- The entry is `..` of the root directory of the file system of `sp`, which is mounted: the entry names
    the root itself. -/
def LeavesBy (s : FsState) (sp : SuperId) (d : Inode) (string : Name) (numb : ℕ) : Prop :=
  numb = rootInode ∧ d.num = rootInode ∧ string.getD 1 0 = 46 ∧ 0 < sp.val ∧ (s.supers sp).dev = d.dev

/-- Where a component leads from a directory, in the tree that `s₀` has.  The directories on the way are
    searched one after the other, in the states that the server is in then. -/
inductive Leads (s₀ : FsState) (string : Name) : FsState → InodeId → ℕ × ℕ → Prop
  /-- to the inode that the entry names, and through mount points -/
  | entry {s : FsState} {dir : InodeId} {numb : ℕ} {q : ℕ × ℕ} (hfinds : Finds s dir string numb)
      (hstays : ∀ sp, ¬LeavesBy s₀ sp (s.inodes dir) string numb)
      (h : Through s₀ ((s.inodes dir).dev, numb) q) : Leads s₀ string s dir q
  /-- out of a mounted file system, to where the component leads from the mount point -/
  | out {s s' : FsState} {dir m : InodeId} {sp : SuperId} {numb : ℕ} {q : ℕ × ℕ} {d : InodeId → ℕ}
      (hfinds : Finds s dir string numb) (hleaves : LeavesBy s₀ sp (s.inodes dir) string numb)
      (hm : (s₀.supers sp).imount = .to m) (hover : Over d s₀ s') (h : Leads s₀ string s' m q) :
      Leads s₀ string s dir q

/-- What a component fails with from a directory: the error of `search_dir`, there or in a directory that the
    component leads up to, or ENFILE when there is no slot for the inode that it names. -/
inductive Fails (s₀ : FsState) (string : Name) : FsState → InodeId → ℤ → Prop
  /-- the entry cannot be found -/
  | unfound {s s' : FsState} {dir : InodeId} {code : ℤ} {numb : ℕ}
      (hrun : searchDir dir string .lookUp s = (.ok (code, numb), s')) (hcode : code ≠ OK) :
      Fails s₀ string s dir code
  /-- the entry is there, and the inode table has no slot -/
  | full {s s' : FsState} {dir : InodeId} {numb : ℕ} {d : InodeId → ℕ} (hfinds : Finds s dir string numb)
      (hover : Over d s₀ s') (hfull : TableFull s') : Fails s₀ string s dir ENFILE
  /-- out of a mounted file system, where the component fails -/
  | out {s s' : FsState} {dir m : InodeId} {sp : SuperId} {numb : ℕ} {code : ℤ} {d : InodeId → ℕ}
      (hfinds : Finds s dir string numb) (hleaves : LeavesBy s₀ sp (s.inodes dir) string numb)
      (hm : (s₀.supers sp).imount = .to m) (hover : Over d s₀ s') (h : Fails s₀ string s' m code) :
      Fails s₀ string s dir code

theorem Fails.ne_ok {dir : InodeId} {code : ℤ} (h : Fails s₀ string s dir code) : code ≠ OK := by
  induction h with
  | unfound _ hcode => exact hcode
  | full => decide
  | out _ _ _ _ _ ih => exact ih

/-- `advance` for a component: what it returns is acquired, and is where the component leads; when it returns
    nothing, that is because the component fails. -/
theorem advance_leads {fuel : ℕ} {dir : InodeId} (h0 : Sane s₀)
    (ht : MountTree level s₀) (hstring : string.headD 0 ≠ 0) (h : Over d s₀ s)
    (hdir : (s.inodes dir).count ≠ 0) (hfuel : level (s.inodes dir).dev < fuel) :
    Surely (advance fuel (some dir) string) s fun x s' => Over (d + holding x) s₀ s' ∧
      (x = none → Fails s₀ string s dir s'.g.errCode) ∧ ∀ j, x = some j →
        (s'.inodes j).mount = false ∧ Leads s₀ string s dir (identity s' j) := by
  induction fuel generalizing dir d s with
  | zero => exact absurd hfuel (Nat.not_lt_zero _)
  | succ fuel ih =>
    have hknown := (h.sane.known dir hdir).1
    unfold advance
    simp only [Surely, wp_bind, wp_readInode]
    rw [if_neg hstring, wp_bind]
    have hkeeps : (custody (fun _ => False) true dir s).Keeps none (searchDir dir string .lookUp) :=
      searchDir_lookUp_keeps h.sane.toFurnished hknown
    have hsearch := Surely.and (Passes.over hkeeps h.sane) searchDir_numb
    refine Wp.mono hsearch.run ?_
    rintro ⟨code, numb⟩ s₁ ⟨hrun, ⟨-, h1⟩, hnumb⟩
    have hover1 : Over d s₀ s₁ := by simpa using h.trans h1 h0
    dsimp only at hnumb ⊢
    refine wp_ite (fun hcode => ?_) fun hfound => ?_
    · have hkeeps : (custody (fun _ => False) false dir s₁).Keeps none (setErr code) := setErr_keeps code
      have hover := (Custody.over (hkeeps s₁ (.refl dir hover1.sane.toFurnished)).1 hover1.sane)
      simp only [wp_bind, wp_setErr, wp_pure]
      refine ⟨?_, fun _ => .unfound hrun hcode, by simp⟩
      simpa using hover1.trans hover h0
    have hfinds : Finds s dir string numb := ⟨s₁, by rw [hrun, not_not.mp hfound]⟩
    rw [wp_bind]
    refine Wp.mono (getInode_over h1.sane (h1.knownDev hknown) hnumb) ?_
    rintro x s₂ ⟨h2, hfull, hident⟩
    have hover2 := hover1.trans h2 h0
    cases x with
    | none =>
      obtain ⟨herr, htable⟩ := hfull rfl
      refine ⟨hover2, fun _ => ?_, by simp⟩
      rw [herr]
      exact .full hfinds hover2 htable
    | some rip =>
      obtain ⟨hdev, hnum⟩ := hident rip rfl
      simp only [wp_bind, wp_get, hdev, hnum]
      split
      next hup =>
        -- nothing leads out of the file system here
        have hstays : ∀ sp, ¬LeavesBy s₀ sp (s.inodes dir) string numb := by
          rintro sp ⟨hroot, hdroot, hdots, hpos, hsp⟩
          rw [if_pos ⟨hroot, hdroot, hdots⟩] at hup
          have hnot := List.find?_eq_none.mp hup sp (List.mem_finRange sp)
          rw [← hover2.super_dev sp] at hsp
          exact hnot (decide_eq_true ⟨hpos, hsp⟩)
        have hfuel' : nrSupers - level (s₂.inodes rip).dev < nrInodes + 1 :=
          lt_of_le_of_lt (Nat.sub_le _ _) (by decide)
        refine Wp.mono (crossMounts_spec h0 ht hover2 hfuel') ?_
        rintro x s₃ ⟨h3, hfull', hx⟩
        refine ⟨h3, fun hnone => ?_, fun j hj => ?_⟩
        · obtain ⟨herr, htable⟩ := hfull' hnone
          rw [herr]
          exact .full hfinds h3 htable
        obtain ⟨hplain, hthrough⟩ := hx j hj
        refine ⟨hplain, .entry hfinds hstays ?_⟩
        have hto : identity s₂ rip = ((s.inodes dir).dev, numb) := Prod.ext hdev hnum
        rw [← hto]
        exact hthrough
      next sp hup =>
        have hcond : numb = rootInode ∧ (s.inodes dir).num = rootInode ∧ string.getD 1 0 = 46 := by
          by_contra hnot
          rw [if_neg hnot] at hup
          exact absurd hup (by simp)
        rw [if_pos hcond] at hup
        have hsp : 0 < sp.val ∧ (s₂.supers sp).dev = (s.inodes dir).dev := by
          simpa using List.find?_some hup
        have hdev0 : (s₀.supers sp).dev = (s.inodes dir).dev := by rw [← hover2.super_dev, hsp.2]
        have hleaves : LeavesBy s₀ sp (s.inodes dir) string numb :=
          ⟨hcond.1, hcond.2.1, hcond.2.2, hsp.1, hdev0⟩
        obtain ⟨m, hm, hused, hlevel⟩ := ht.up sp hsp.1 (by rw [hdev0]; exact hknown.1)
        rw [wp_bind]
        refine Wp.mono (hover2.put h0) ?_
        rintro _ s₃ ⟨h3, -⟩
        have himount : (s₃.supers sp).imount = .to m := by rw [h3.super sp, hm]
        simp only [wp_bind, wp_readSuper, himount, wp_readInode]
        obtain ⟨hmdev, hmnum⟩ := h3.ident m hused
        have hmused := h3.in_use h0 hused
        obtain ⟨hmknown, hm16⟩ := h3.sane.known m hmused
        refine Wp.mono (getInode_over h3.sane hmknown hm16) ?_
        rintro y s₄ ⟨h4, hfull', hy⟩
        have hover4 := h3.trans h4 h0
        have hlow : level (s₄.inodes m).dev < fuel := by
          rw [(hover4.ident m hused).1]
          rw [hdev0] at hlevel
          exact lt_of_lt_of_le hlevel (Nat.lt_succ_iff.mp hfuel)
        cases y with
        | none =>
          obtain ⟨fuel, rfl⟩ : ∃ n, fuel = n + 1 := ⟨fuel - 1, by omega⟩
          unfold advance
          rw [if_neg hstring]
          obtain ⟨herr, htable⟩ := hfull' rfl
          refine ⟨hover4, fun _ => ?_, by simp⟩
          rw [herr]
          exact .full hfinds hover4 htable
        | some rip2 =>
          obtain rfl : rip2 = m := by
            obtain ⟨hd, hn⟩ := hy rip2 rfl
            refine h4.sane.unique rip2 m (hover4.held h0) (hover4.in_use h0 hused) ?_ ?_
            · rw [hd, (h4.ident m hmused).1]
            · rw [hn, (h4.ident m hmused).2]
          refine Wp.mono (ih hover4 (hover4.held h0) hlow) ?_
          rintro z s₅ ⟨h5, hlost, hz⟩
          rw [add_right_comm] at h5
          refine Wp.mono (h5.put h0) ?_
          rintro _ s₆ ⟨h6, hreleased⟩
          cases z with
          | none =>
            refine ⟨h6, fun _ => ?_, by simp⟩
            rw [hreleased.err]
            exact .out hfinds hleaves hm hover4 (hlost rfl)
          | some j =>
            obtain ⟨hplain, hleads⟩ := hz j rfl
            have hplain6 : (s₆.inodes j).mount = false := by rw [h6.mount, ← h5.mount, hplain]
            refine (crossMounts_plain hplain6).mpr ⟨h6, by simp, fun j' hj' => ?_⟩
            obtain rfl := Option.some.inj hj'
            have hsame : identity s₆ j = identity s₅ j :=
              Prod.ext (hreleased.ident j).1 (hreleased.ident j).2.1
            refine ⟨hplain6, .out hfinds hleaves hm hover4 ?_⟩
            rw [hsame]
            exact hleads

end

end LisaMinix.Fs.Server
