import LisaMinix.Fs.Server.Bystanders
import LisaMinix.Fs.Server.Unpause
import LisaMinix.Library.References

/-!
# Descriptors Are Counted

Each filp counts the descriptors that refer to it, in every state between requests and whatever the
processes ask for: opening, closing, duplicating, pipes, forks and exits keep the count, and nothing
else changes it.  MM forks into slots only that have no process; then a slot without a process has
no descriptors either.

- `Descriptors`, `Revivals`: the invariants.
- `Descriptors.assign`: one descriptor changes.
- `Run`: the runs of the server with the processes that are live.
- `Run.books`: the invariants hold in all of them.
-/

namespace LisaMinix.Fs.Server

open LisaMinix.Library Function

variable {new' : Set FilpId} {p : ProcId} {k : ℕ} {f : FilpId} {α : Type} {fd : ℤ}

/-! ## §1 The Invariants -/

/-- What a descriptor refers to. -/
def opened (s : FsState) (d : ProcId × Fin openMax) : Option FilpId := (s.fprocs d.1).filp d.2

/-- Filps count their descriptors, and those that have any have an inode, apart from the filps in
    `new`.  Only live processes have descriptors. -/
structure Descriptors (live : Set ProcId) (new : Set FilpId) (s : FsState) : Prop where
  beyond : ∀ p k, openMax ≤ k → (s.fprocs p).filp k = none
  count : ∀ f, (s.filps f).count = refCount (opened s) f
  ino : ∀ f ∉ new, (s.filps f).count ≠ 0 → (s.filps f).ino ≠ none
  dead : ∀ p ∉ live, ∀ k, (s.fprocs p).filp k = none

/-- The calls that are made again are those that pipes are for, and `reviving` is their number. -/
structure Revivals (s : FsState) : Prop where
  pipe : ∀ p, OnPipe (s.fprocs p) →
    (s.fprocs p).fd % 256 = readCall ∨ (s.fprocs p).fd % 256 = writeCall
  reviving : s.g.reviving = awaited s

variable {K : ℤ → Prop} {live : Set ProcId} {new : Set FilpId} {s s' : FsState}

/-- The counts and the descriptors are the same. -/
theorem Descriptors.of_eq (h : Descriptors live new s)
    (hcount : ∀ f, (s'.filps f).count = (s.filps f).count)
    (hino : ∀ f, (s'.filps f).ino = (s.filps f).ino)
    (hfilp : ∀ p, (s'.fprocs p).filp = (s.fprocs p).filp) : Descriptors live new s' where
  beyond p k hk := by
    rw [hfilp]
    exact h.beyond p k hk
  count f := by
    have hopened : opened s' = opened s := by
      funext d
      exact congrFun (hfilp d.1) _
    rw [hcount, hopened]
    exact h.count f
  ino f hf hused := by
    rw [hino]
    exact h.ino f hf (hcount f ▸ hused)
  dead p hp k := by
    rw [hfilp]
    exact h.dead p hp k

theorem Descriptors.untouched (h : Descriptors live new s) (hs : Untouched K s s') :
    Descriptors live new s' := h.of_eq hs.count hs.ino hs.filp

/-- **Step lemma**: one descriptor changes, and the counts with it. -/
theorem Descriptors.assign {x : Option FilpId} (h : Descriptors live new s)
    (hp : p ∈ live ∨ x = none) (hk : k < openMax)
    (hself : (s'.fprocs p).filp = update (s.fprocs p).filp k x)
    (hother : ∀ q ≠ p, (s'.fprocs q).filp = (s.fprocs q).filp)
    (hcount : ∀ f, (s'.filps f).count + refOf ((s.fprocs p).filp k) f = (s.filps f).count + refOf x f)
    (hino : ∀ f ∉ new', (s'.filps f).count ≠ 0 → (s'.filps f).ino ≠ none) :
    Descriptors live new' s' where
  beyond q j hj := by
    rcases eq_or_ne q p with rfl | hq
    · rw [hself, update_of_ne (by omega)]
      exact h.beyond q j hj
    · rw [hother q hq]
      exact h.beyond q j hj
  count f := by
    have hopened : opened s' = update (opened s) (p, ⟨k, hk⟩) x := by
      funext d
      obtain ⟨q, j⟩ := d
      rcases eq_or_ne q p with rfl | hq
      · rcases eq_or_ne j ⟨k, hk⟩ with rfl | hj
        · rw [update_self, opened, hself]
          exact update_self ..
        · have hjk : (j : ℕ) ≠ k := fun heq => hj (Fin.ext heq)
          rw [update_of_ne (fun heq => hj (congrArg Prod.snd heq)), opened, hself]
          exact update_of_ne hjk ..
      · rw [update_of_ne (fun heq => hq (congrArg Prod.fst heq)), opened, hother q hq]
        rfl
    have hchange := refCount_update (opened s) (p, ⟨k, hk⟩) x f
    rw [← hopened] at hchange
    have hold : refOf (opened s (p, ⟨k, hk⟩)) f = refOf ((s.fprocs p).filp k) f := rfl
    have := h.count f
    have := hcount f
    omega
  ino := hino
  dead q hq j := by
    rcases eq_or_ne q p with rfl | hne
    · rw [hself]
      rcases hp with hp | rfl
      · exact absurd hp hq
      · rcases eq_or_ne j k with rfl | hj
        · exact update_self ..
        · rw [update_of_ne hj]
          exact h.dead q hq j
    · rw [hother q hne]
      exact h.dead q hq j

/-- A state with another descriptor. -/
def setFd (s : FsState) (p : ProcId) (k : ℕ) (x : Option FilpId) : FsState :=
  { s with
    fprocs := update s.fprocs p
      { s.fprocs p with filp := update (s.fprocs p).filp k x } }

theorem setFd_self (s : FsState) (p : ProcId) (k : ℕ) (x : Option FilpId) :
    ((setFd s p k x).fprocs p).filp = update (s.fprocs p).filp k x := by
  unfold setFd
  dsimp only
  rw [update_self]

theorem setFd_other (s : FsState) {q : ProcId} (h : q ≠ p) (k : ℕ) (x : Option FilpId) :
    ((setFd s p k x).fprocs q).filp = (s.fprocs q).filp := by
  unfold setFd
  dsimp only
  rw [update_of_ne h]

/-- A filp that a descriptor refers to is in use. -/
theorem Descriptors.used (h : Descriptors live new s) (hf : (s.fprocs p).filp k = some f) :
    0 < (s.filps f).count := by
  have hk : k < openMax := by
    by_contra hk
    rw [h.beyond p k (by omega)] at hf
    cases hf
  have hopened : opened s (p, ⟨k, hk⟩) = some f := hf
  have := refCount_pos hopened
  rw [h.count f]
  omega

theorem Revivals.unmoved (h : Revivals s) (hs : Unmoved K s s')
    (hk : OnPipe (s.fprocs s.g.fp) ∧ (∃ t, K t) ∨ K xpipe →
      s.g.fsCall = readCall ∨ s.g.fsCall = writeCall) : Revivals s' where
  pipe p hp := by
    rcases hs.pipe p hp with ⟨hold, hfd⟩ | ⟨rfl, hfd, hwhy⟩
    · rw [hfd]
      exact h.pipe p hold
    · rw [hfd]
      rcases hk hwhy with hcall | hcall
      · exact .inl (by rw [hcall]; rfl)
      · exact .inr (by rw [hcall]; rfl)
  reviving := by
    have := hs.reviving
    have := h.reviving
    omega

/-- While nobody is to be served again, processes may change in whatever way keeps them waiting for
    the same. -/
theorem Revivals.of_waits (h : Revivals s) (hreviving : s'.g.reviving = s.g.reviving)
    (hrevived : ∀ p, (s'.fprocs p).revived = (s.fprocs p).revived)
    (hpipe : ∀ p, OnPipe (s'.fprocs p) → ∃ q, OnPipe (s.fprocs q) ∧ (s'.fprocs p).fd = (s.fprocs q).fd) :
    Revivals s' where
  pipe p hp := by
    obtain ⟨q, hq, hfd⟩ := hpipe p hp
    rw [hfd]
    exact h.pipe q hq
  reviving := by
    rw [hreviving, awaited_of_eq hrevived]
    exact h.reviving

/-- Nobody is to be served again. -/
theorem Revivals.nobody (h : Revivals s) (hreviving : s.g.reviving = 0) (p : ProcId) :
    (s.fprocs p).revived = false := by
  have hzero : awaited s = 0 := by
    have := h.reviving
    omega
  unfold awaited at hzero
  rw [Finset.card_eq_zero, Finset.filter_eq_empty_iff] at hzero
  simpa using hzero (Finset.mem_univ p)

/-! ## §2 One Descriptor -/

def anyTask : ℤ → Prop := fun _ => True
def noTask : ℤ → Prop := fun _ => False
def openTask : ℤ → Prop := fun task => task = xopen

instance anyTask_allows {task : ℤ} : Allows anyTask task := ⟨trivial⟩
instance openTask_allows : Allows openTask xopen := ⟨rfl⟩

/-- What is left alone, with whatever else is known. -/
theorem aloof_and {p : FsM α} [hp : Aloof K p] {Q : α → FsState → Prop} (h : Returns p s Q) :
    Returns p s fun a s' => Untouched K s s' ∧ Q a s' := (hp.run s).and h

theorem firstId_some {n : ℕ} {P : Fin n → Bool} {i : Fin n} (h : firstId P = some i) : P i = true :=
  List.find?_some h

/-- The descriptor that is found is free, and so is the filp. -/
theorem getFd_free (K : ℤ → Prop) (start bits : ℕ) (s : FsState) : Returns (getFd start bits) s fun r s' =>
    Untouched K s s' ∧ ∀ k f, r = .ok (k, f) →
      k < openMax ∧ (s.fprocs s.g.fp).filp k = none ∧ (s.filps f).count = 0 := by
  apply aloof_and
  unfold getFd Returns
  rw [wp_bind, wp_caller]
  split
  · rw [wp_pure]
    rintro k f ⟨⟩
  next k hk =>
  have hfree := List.find?_some hk
  have hmem := List.mem_of_find?_eq_some hk
  rw [decide_eq_true_eq] at hfree
  rw [wp_bind, wp_get]
  split
  · rw [wp_pure]
    rintro k f ⟨⟩
  next f hf =>
  rw [wp_bind, wp_modFilp, wp_pure]
  rintro k f ⟨⟩
  exact ⟨List.mem_range.mp hmem, hfree.2, by simpa using firstId_some hf⟩

/-- `refOf` as an integer. -/
theorem refOf_ite (x : Option FilpId) (f : FilpId) : (refOf x f : ℤ) = if x = some f then 1 else 0 := by
  unfold refOf
  split <;> rfl

theorem claimFd_descriptors (h : Descriptors live new s) (hlive : s.g.fp ∈ live) (hk : k < openMax)
    (hnone : (s.fprocs s.g.fp).filp k = none) (hf : f ∉ new) (hused : (s.filps f).count ≠ 0) :
    Returns (claimFd f k) s fun _ s' => Descriptors live new s' := by
  simp only [claimFd, wp_bind, wp_modFilp, wp_globals, wp_modProc]
  refine h.assign (x := some f) (.inl hlive) hk ?_ ?_ ?_ ?_
  · dsimp only
    rw [update_self]
  · intro q hq
    dsimp only
    rw [update_of_ne hq]
  · intro j
    dsimp only
    rw [hnone, refOf_ite, refOf_ite]
    rcases eq_or_ne j f with rfl | hj
    · rw [update_self]
      simp
    · rw [update_of_ne hj]
      simp [hj.symm]
  · intro j hnew hcount
    dsimp only at hcount ⊢
    rcases eq_or_ne j f with rfl | hj
    · rw [update_self]
      exact h.ino j hf hused
    · rw [update_of_ne hj] at hcount ⊢
      exact h.ino j hnew hcount

/-! ## §3 Closing -/

/-- The rule of sequence for a program that leaves descriptors alone. -/
theorem aloof_bind {β : Type} (K : ℤ → Prop) {p : FsM α} [hp : Aloof K p] {f : α → FsM β}
    {Q : β → FsState → Prop} (h : ∀ a s', Untouched K s s' → Returns (f a) s' Q) :
    Returns (p >>= f) s Q :=
  Wp.bind (hp.run s) h

/-- What `getFilp` says about the descriptor. -/
def Describes (s : FsState) (fild : ℤ) : Option FilpId → Prop
  | some f => 0 ≤ fild ∧ fild.toNat < openMax ∧ (s.fprocs s.g.fp).filp fild.toNat = some f
  | none => 0 ≤ fild → fild.toNat < openMax → (s.fprocs s.g.fp).filp fild.toNat = none

theorem getFilp_describes (K : ℤ → Prop) (fild : ℤ) (s : FsState) : Returns (getFilp fild) s fun r s' =>
    Untouched K s s' ∧ Describes s fild r := by
  apply aloof_and
  simp only [getFilp, wp_bind, wp_setErr]
  refine wp_ite (fun hout => ?_) fun hin => ?_
  · rw [wp_pure]
    intro hnonneg hlt
    omega
  · simp only [wp_bind, wp_caller, wp_pure]
    cases hf : (s.fprocs s.g.fp).filp fild.toNat with
    | none => exact fun _ _ => hf
    | some f => exact ⟨by omega, by omega, hf⟩

/-- A descriptor of the caller is closed. -/
structure Closed (fd : ℤ) (s s' : FsState) : Prop where
  fp : s'.g.fp = s.g.fp
  filp : 0 ≤ fd →
    (s'.fprocs s.g.fp).filp = update (s.fprocs s.g.fp).filp fd.toNat none

/-- The descriptor is given up, after the filp has one user less. -/
theorem Descriptors.close (h : Descriptors live new s) (hfd : fd.toNat < openMax)
    (hf : (s.fprocs s.g.fp).filp fd.toNat = some f)
    (hs : Untouched noTask
      { s with
        filps := update s.filps f
          { mode := (s.filps f).mode, flags := (s.filps f).flags, count := (s.filps f).count - 1
            ino := (s.filps f).ino, pos := (s.filps f).pos } } s') :
    Descriptors live new (setFd s' s'.g.fp fd.toNat none) ∧
      Closed fd s (setFd s' s'.g.fp fd.toNat none) := by
  have hfp : s'.g.fp = s.g.fp := hs.fp
  have hself : (s'.fprocs s.g.fp).filp = (s.fprocs s.g.fp).filp := hs.filp _
  rw [hfp]
  have hclosed : ((setFd s' s.g.fp fd.toNat none).fprocs s.g.fp).filp =
      update (s.fprocs s.g.fp).filp fd.toNat none := by rw [setFd_self, hself]
  refine ⟨h.assign (x := none) (.inr rfl) hfd hclosed ?_ ?_ ?_, hfp, fun _ => hclosed⟩
  · intro q hq
    rw [setFd_other s' hq]
    exact hs.filp q
  · intro j
    have hj : ((setFd s' s.g.fp fd.toNat none).filps j).count = _ := hs.count j
    rw [hj, hf, refOf_ite, refOf_ite]
    dsimp only
    rcases eq_or_ne j f with rfl | hj
    · rw [update_self]
      simp
    · rw [update_of_ne hj]
      simp [hj.symm]
  · intro j hnew hcount
    have hcount : (s'.filps j).count ≠ 0 := hcount
    have hino : ((setFd s' s.g.fp fd.toNat none).filps j).ino = _ := hs.ino j
    rw [hs.count] at hcount
    rw [hino]
    dsimp only at hcount ⊢
    rcases eq_or_ne j f with rfl | hj
    · rw [update_self]
      exact h.ino j hnew (h.used hf).ne'
    · rw [update_of_ne hj] at hcount ⊢
      exact h.ino j hnew hcount

theorem Closed.of_untouched {s₁ : FsState} (hs : Untouched K s s₁) (h : Closed fd s₁ s') :
    Closed fd s s' where
  fp := h.fp.trans hs.fp
  filp hfd := by
    rw [← hs.fp, h.filp hfd, hs.filp]

/-- The end of `do_close`, when only functions that leave descriptors alone have come before. -/
theorem closeEnd_descriptors {rip : InodeId} {s₁ : FsState} (h : Descriptors live new s)
    (hfd : fd.toNat < openMax) (hf : (s.fprocs s.g.fp).filp fd.toNat = some f)
    (hs : Untouched noTask s s₁) :
    Returns (do
        modFilp f fun x => { x with count := x.count - 1 }
        if (← readFilp f).count = 0 then putInodeId rip
        let fp := (← globals).fp
        modProc fp fun p => { p with filp := update p.filp fd.toNat none }
        return OK) s₁ fun _ s' => Descriptors live new s' ∧ Closed fd s s' := by
  have h1 := h.untouched hs
  have hf1 : (s₁.fprocs s₁.g.fp).filp fd.toNat = some f := by
    rw [hs.fp, hs.filp]
    exact hf
  simp only [wp_bind, wp_modFilp, wp_readFilp]
  refine wp_ite (fun _ => ?_) fun _ => ?_
  · apply aloof_bind noTask
    intro _ s₂ hs2
    simp only [wp_bind, wp_globals, wp_modProc, wp_pure]
    obtain ⟨hnew, hclosed⟩ := h1.close hfd hf1 hs2
    exact ⟨hnew, .of_untouched hs hclosed⟩
  · simp only [wp_bind, wp_globals, wp_modProc, wp_pure]
    obtain ⟨hnew, hclosed⟩ := h1.close hfd hf1 (refl _)
    exact ⟨hnew, .of_untouched hs hclosed⟩

theorem doClose_descriptors (fd : ℤ) (h : Descriptors live new s) :
    Returns (doClose fd) s fun _ s' => Descriptors live new s' ∧ Closed fd s s' := by
  unfold doClose
  apply Wp.bind (getFilp_describes noTask fd s)
  rintro r s₁ ⟨hs1, hr⟩
  cases r with
  | none =>
    dsimp only
    apply ((errCode_aloof (K := noTask)).run s₁).mono
    intro _ s₂ hs2
    have hs2 : Untouched noTask s s₂ := trans_of _ hs1 hs2
    refine ⟨h.untouched hs2, hs2.fp, fun hnonneg => ?_⟩
    -- there was nothing to close
    have hnone : (s.fprocs s.g.fp).filp fd.toNat = none := by
      by_cases hlt : fd.toNat < openMax
      · exact hr hnonneg hlt
      · exact h.beyond _ _ (by omega)
    rw [hs2.filp, update_eq_self_iff.mpr hnone.symm]
  | some f =>
    obtain ⟨-, hlt, hf⟩ := hr
    dsimp only
    apply aloof_bind noTask
    intro rip s₂ hs2
    have hs2 : Untouched noTask s s₂ := trans_of _ hs1 hs2
    apply aloof_bind noTask
    intro i s₃ hs3
    have hs3 : Untouched noTask s s₃ := trans_of _ hs2 hs3
    refine wp_join (Untouched noTask s) hs3 (fun s₄ hs4 => ?_) fun _ hpipe => ?_
    · -- a pipe is released in either case
      simp only [wp_bind, wp_readInode]
      refine wp_ite (fun _ => ?_) fun _ => closeEnd_descriptors h hlt hf hs4
      apply aloof_bind noTask
      intro x s₅ hs5
      apply aloof_bind noTask
      intro _ s₆ hs6
      exact closeEnd_descriptors h hlt hf (trans_of _ hs4 (trans_of _ hs5 hs6))
    · apply aloof_bind noTask
      intro _ s₄ hs4
      exact hpipe s₄ (trans_of _ hs3 hs4)

/-! ## §4 Opening -/

/-- The slots that have been found are used. -/
theorem Descriptors.open {x : Filp} (h : Descriptors live new s) (hlive : s.g.fp ∈ live)
    (hk : k < openMax) (hnone : (s.fprocs s.g.fp).filp k = none) (hfree : (s.filps f).count = 0)
    (hx : x.count = 1) (hnew : ∀ j ∉ new', j ≠ f → j ∉ new) (hino : f ∉ new' → x.ino ≠ none) :
    Descriptors live new' { setFd s s.g.fp k (some f) with filps := update s.filps f x } := by
  refine h.assign (x := some f) (.inl hlive) hk (setFd_self ..) (fun q hq => setFd_other s hq ..) ?_ ?_
  · intro j
    dsimp only
    rw [hnone, refOf_ite, refOf_ite]
    rcases eq_or_ne j f with rfl | hj
    · rw [update_self, hx, hfree]
      simp
    · rw [update_of_ne hj]
      simp [hj.symm]
  · intro j hj hcount
    dsimp only at hcount ⊢
    rcases eq_or_ne j f with rfl | hne
    · rw [update_self]
      exact hino hj
    · rw [update_of_ne hne] at hcount ⊢
      exact h.ino j (hnew j hj hne) hcount

theorem commonOpen_descriptors (oflags omode : ℕ) (h : Descriptors live ∅ s) (hlive : s.g.fp ∈ live) :
    Returns (commonOpen oflags omode) s fun _ s' => Descriptors live ∅ s' := by
  unfold commonOpen
  dsimp only
  apply Wp.bind (getFd_free anyTask 0 (modeMap oflags) s)
  rintro r s₁ ⟨hs1, hr⟩
  cases r with
  | error r => exact h.untouched hs1
  | ok slots =>
    obtain ⟨k, f⟩ := slots
    obtain ⟨hk, hnone, hfree⟩ := hr k f rfl
    dsimp only
    apply aloof_bind anyTask
    intro _ s₂ hs2
    apply aloof_bind anyTask
    intro node s₃ hs3
    have hs3 : Untouched anyTask s s₃ := trans_of _ hs1 (trans_of _ hs2 hs3)
    cases node with
    | error r => exact h.untouched hs3
    | ok node =>
      obtain ⟨rip, exist, r⟩ := node
      dsimp only
      -- the slots are still free when the file is open
      have hend : ∀ r s₄, Untouched anyTask s s₄ → Returns (do
          if r ≠ OK then
            putInodeId rip
            return r
          else
            let fp := (← globals).fp
            modProc fp fun p => { p with filp := update p.filp k (some f) }
            modFilp f fun x => { x with count := 1, ino := some rip, flags := oflags }
            return (k : ℤ)) s₄ fun _ s' => Descriptors live ∅ s' := by
        intro r s₄ hs4
        refine wp_ite (fun _ => ?_) fun _ => ?_
        · apply aloof_bind anyTask
          intro _ s₅ hs5
          exact h.untouched (trans_of _ hs4 hs5)
        · simp only [wp_bind, wp_globals, wp_modProc, wp_modFilp, wp_pure]
          apply (h.untouched hs4).open
          · exact hs4.fp ▸ hlive
          · exact hk
          · rw [hs4.fp, hs4.filp]
            exact hnone
          · rw [hs4.count]
            exact hfree
          · rfl
          · exact fun _ _ _ => id
          · exact fun _ => Option.some_ne_none rip
      split
      · apply aloof_bind anyTask
        intro r s₄ hs4
        exact hend r s₄ (trans_of _ hs3 hs4)
      · exact hend r s₃ hs3

theorem doCreat_descriptors (q : Request) (h : Descriptors live ∅ s) (hlive : s.g.fp ∈ live) :
    Returns (doCreat q) s fun _ s' => Descriptors live ∅ s' := by
  unfold doCreat
  apply aloof_bind noTask
  intro r s₁ hs1
  refine wp_ite (fun _ => ?_) fun _ => ?_
  · exact ((errCode_aloof (K := noTask)).run s₁).mono fun _ _ hs2 => h.untouched (trans_of _ hs1 hs2)
  · exact commonOpen_descriptors _ _ (h.untouched hs1) (hs1.fp ▸ hlive)

theorem doOpen_descriptors (q : Request) (h : Descriptors live ∅ s) (hlive : s.g.fp ∈ live) :
    Returns (doOpen q) s fun _ s' => Descriptors live ∅ s' := by
  have hend : ∀ r s₁, Untouched noTask s s₁ → Returns (do
      if r ≠ OK then errCode
      else commonOpen q.mode (if q.mode &&& oCreat ≠ 0 then q.cMode else 0)) s₁
      fun _ s' => Descriptors live ∅ s' := by
    intro r s₁ hs1
    refine wp_ite (fun _ => ?_) fun _ => ?_
    · exact ((errCode_aloof (K := noTask)).run s₁).mono
        fun _ _ hs2 => h.untouched (trans_of _ hs1 hs2)
    · exact commonOpen_descriptors _ _ (h.untouched hs1) (hs1.fp ▸ hlive)
  unfold doOpen
  dsimp only
  split
  · next hc =>
    rw [if_pos hc] at hend
    exact aloof_bind noTask fun r s₁ hs1 => hend r s₁ hs1
  · next hc =>
    rw [if_neg hc] at hend
    exact aloof_bind noTask fun r s₁ hs1 => hend r s₁ hs1

/-- A descriptor that has been found refers to a filp that is in use. -/
theorem claimFound_descriptors {start : ℕ} (h : Descriptors live ∅ s) (hlive : s.g.fp ∈ live)
    (hused : (s.filps f).count ≠ 0) : Returns (do
      match ← getFd start 0 with
      | .error r => return r
      | .ok (fd2, _) =>
        claimFd f fd2
        return (fd2 : ℤ)) s fun _ s' => Descriptors live ∅ s' := by
  apply Wp.bind (getFd_free noTask start 0 s)
  rintro r s₁ ⟨hs1, hr⟩
  cases r with
  | error r => exact h.untouched hs1
  | ok slots =>
    obtain ⟨k, j⟩ := slots
    obtain ⟨hk, hnone, -⟩ := hr k j rfl
    apply Wp.bind (P := fun _ s' => Descriptors live ∅ s')
    · apply claimFd_descriptors (h.untouched hs1) (hs1.fp ▸ hlive) hk
      · rw [hs1.fp, hs1.filp]
        exact hnone
      · exact id
      · rw [hs1.count]
        exact hused
    · exact fun _ _ h2 => h2

theorem doDup_descriptors (q : Request) (h : Descriptors live ∅ s) (hlive : s.g.fp ∈ live) :
    Returns (doDup q) s fun _ s' => Descriptors live ∅ s' := by
  unfold doDup
  dsimp only
  generalize (if q.fd / 64 % 2 = 1 then q.fd - 64 else q.fd) = rfd
  apply Wp.bind (getFilp_describes noTask rfd s)
  rintro r s₁ ⟨hs1, hr⟩
  have h1 := h.untouched hs1
  cases r with
  | none =>
    exact ((errCode_aloof (K := noTask)).run s₁).mono fun _ _ hs2 => h1.untouched hs2
  | some f =>
    obtain ⟨hnonneg, hlt, hf⟩ := hr
    have hf1 : (s₁.fprocs s₁.g.fp).filp rfd.toNat = some f := by
      rw [hs1.fp, hs1.filp]
      exact hf
    have hlive1 : s₁.g.fp ∈ live := hs1.fp ▸ hlive
    refine wp_ite (fun _ => ?_) fun _ => ?_
    · exact claimFound_descriptors h1 hlive1 (h1.used hf1).ne'
    refine wp_ite (fun _ => h1) fun hfd2 => ?_
    refine wp_ite (fun _ => h1) fun hne => ?_
    -- the descriptor that is closed is another one, so that the filp stays in use
    apply Wp.bind (doClose_descriptors q.fd2 h1)
    rintro _ s₂ ⟨h2, hclosed⟩
    have hfilp := hclosed.filp (by omega)
    have hf2 : (s₂.fprocs s₁.g.fp).filp rfd.toNat = some f := by
      rw [hfilp, update_of_ne (by omega)]
      exact hf1
    apply Wp.bind (P := fun _ s' => Descriptors live ∅ s')
    · apply claimFd_descriptors h2 (hclosed.fp ▸ hlive1)
      · omega
      · rw [hclosed.fp, hfilp, update_self]
      · exact id
      · exact (h2.used hf2).ne'
    · exact fun _ _ h3 => h3

theorem doFcntl_descriptors (q : Request) (h : Descriptors live ∅ s) (hlive : s.g.fp ∈ live) :
    Returns (doFcntl q) s fun _ s' => Descriptors live ∅ s' := by
  unfold doFcntl
  apply Wp.bind (getFilp_describes noTask q.fd s)
  rintro r s₁ ⟨hs1, hr⟩
  have h1 := h.untouched hs1
  cases r with
  | none =>
    exact ((errCode_aloof (K := noTask)).run s₁).mono fun _ _ hs2 => h1.untouched hs2
  | some f =>
    obtain ⟨hnonneg, hlt, hf⟩ := hr
    have hf1 : (s₁.fprocs s₁.g.fp).filp q.fd.toNat = some f := by
      rw [hs1.fp, hs1.filp]
      exact hf
    have hlive1 : s₁.g.fp ∈ live := hs1.fp ▸ hlive
    refine wp_ite (fun _ => ?_) fun _ => ?_
    · refine wp_ite (fun _ => h1) fun _ => ?_
      exact claimFound_descriptors h1 hlive1 (h1.used hf1).ne'
    refine wp_ite (fun _ => ?_) fun _ => ?_
    · exact aloof_bind noTask fun _ s₂ hs2 => h1.untouched hs2
    refine wp_ite (fun _ => ?_) fun _ => h1
    exact aloof_bind noTask fun _ s₂ hs2 => h1.untouched hs2

/-! ## §5 Pipes -/

theorem takeFd_descriptors (h : Descriptors live new s) (hlive : s.g.fp ∈ live) (hk : k < openMax)
    (hnone : (s.fprocs s.g.fp).filp k = none) (hfree : (s.filps f).count = 0) :
    Returns (takeFd k f) s fun _ s' => Descriptors live (insert f new) s' ∧ s'.g = s.g ∧
      (s'.fprocs s.g.fp).filp = update (s.fprocs s.g.fp).filp k (some f) ∧
      (∀ j ≠ f, s'.filps j = s.filps j) ∧ (s'.filps f).count = 1 := by
  simp only [takeFd, wp_bind, wp_globals, wp_modProc, wp_modFilp]
  refine ⟨?_, trivial, setFd_self .., fun j hj => update_of_ne hj .., ?_⟩
  · apply h.open hlive hk hnone hfree rfl
    · exact fun j hj _ hnew => hj (.inr hnew)
    · exact fun hf => absurd (.inl rfl) hf
  · rw [update_self]

theorem dropFd_descriptors (h : Descriptors live new s) (hk : k < openMax)
    (hf : (s.fprocs s.g.fp).filp k = some f) (hone : (s.filps f).count = 1) :
    Returns (dropFd k f) s fun _ s' => Descriptors live (new \ {f}) s' ∧ s'.g = s.g ∧
      (s'.fprocs s.g.fp).filp = update (s.fprocs s.g.fp).filp k none ∧
      (∀ j ≠ f, s'.filps j = s.filps j) := by
  simp only [dropFd, wp_bind, wp_globals, wp_modProc, wp_modFilp]
  refine ⟨?_, trivial, setFd_self .., fun j hj => update_of_ne hj ..⟩
  refine h.assign (x := none) (.inr rfl) hk (setFd_self ..) (fun q hq => setFd_other s hq ..) ?_ ?_
  · intro j
    dsimp only
    rw [hf, refOf_ite, refOf_ite]
    rcases eq_or_ne j f with rfl | hj
    · rw [update_self, hone]
      simp
    · rw [update_of_ne hj]
      simp [hj.symm]
  · intro j hj hcount
    dsimp only at hcount ⊢
    rcases eq_or_ne j f with rfl | hne
    · rw [update_self] at hcount
      exact absurd rfl hcount
    · rw [update_of_ne hne] at hcount ⊢
      exact h.ino j (fun hnew => hj ⟨hnew, hne⟩) hcount

/-- A new filp gets its inode. -/
theorem Descriptors.getIno (h : Descriptors live new s) (rip : InodeId) :
    Returns (modFilp f fun x => { x with ino := some rip }) s fun _ s' =>
      Descriptors live (new \ {f}) s' := by
  rw [Returns, wp_modFilp]
  have hcount : ∀ j, (update s.filps f
      { mode := (s.filps f).mode, flags := (s.filps f).flags, count := (s.filps f).count
        ino := some rip, pos := (s.filps f).pos } j).count = (s.filps j).count := by
    intro j
    rcases eq_or_ne j f with rfl | hj
    · rw [update_self]
    · rw [update_of_ne hj]
  refine ⟨h.beyond, fun j => (hcount j).trans (h.count j), fun j hj hused => ?_, h.dead⟩
  dsimp only at hused ⊢
  rcases eq_or_ne j f with rfl | hne
  · rw [update_self]
    exact Option.some_ne_none rip
  · rw [update_of_ne hne] at hused ⊢
    exact h.ino j (fun hnew => hj ⟨hnew, hne⟩) hused

theorem Descriptors.mono (h : Descriptors live new s) (hnew : new ⊆ new') :
    Descriptors live new' s :=
  ⟨h.beyond, h.count, fun f hf => h.ino f fun hmem => hf (hnew hmem), h.dead⟩

/-- The two ends of a pipe that has no inode yet. -/
structure Ends (live : Set ProcId) (k₀ k₁ : ℕ) (f₀ f₁ : FilpId) (s : FsState) : Prop where
  desc : Descriptors live (insert f₁ (insert f₀ ∅)) s
  read : (s.fprocs s.g.fp).filp k₀ = some f₀
  write : (s.fprocs s.g.fp).filp k₁ = some f₁
  readOne : (s.filps f₀).count = 1
  writeOne : (s.filps f₁).count = 1
  readLt : k₀ < openMax
  writeLt : k₁ < openMax
  ne : f₀ ≠ f₁

variable {k₀ k₁ : ℕ} {f₀ f₁ : FilpId}

theorem Ends.untouched (h : Ends live k₀ k₁ f₀ f₁ s) (hs : Untouched K s s') :
    Ends live k₀ k₁ f₀ f₁ s' where
  desc := h.desc.untouched hs
  read := by
    rw [hs.fp, hs.filp]
    exact h.read
  write := by
    rw [hs.fp, hs.filp]
    exact h.write
  readOne := (hs.count f₀).trans h.readOne
  writeOne := (hs.count f₁).trans h.writeOne
  readLt := h.readLt
  writeLt := h.writeLt
  ne := h.ne

theorem both_removed (f₀ f₁ : FilpId) : (insert f₁ (insert f₀ (∅ : Set FilpId)) \ {f₀}) \ {f₁} ⊆ ∅ := by
  rintro f ⟨⟨rfl | rfl | hf, hf0⟩, hf1⟩
  · exact hf1 rfl
  · exact hf0 rfl
  · exact hf

/-- Without an inode both descriptors are given up. -/
theorem Ends.drop (h : Ends live k₀ k₁ f₀ f₁ s) : Returns (do
      dropFd k₀ f₀
      dropFd k₁ f₁
      errCode) s fun _ s' => Descriptors live ∅ s' := by
  apply Wp.bind (dropFd_descriptors h.desc h.readLt h.read h.readOne)
  rintro _ s₁ ⟨h1, hg1, hfilp1, hother1⟩
  have hk : k₁ ≠ k₀ := by
    rintro rfl
    exact h.ne (Option.some.inj (h.read.symm.trans h.write))
  have hwrite : (s₁.fprocs s₁.g.fp).filp k₁ = some f₁ := by
    rw [hg1, hfilp1, update_of_ne hk]
    exact h.write
  have hone : (s₁.filps f₁).count = 1 := by
    rw [hother1 f₁ h.ne.symm]
    exact h.writeOne
  apply Wp.bind (dropFd_descriptors h1 h.writeLt hwrite hone)
  rintro _ s₂ ⟨h2, -⟩
  apply ((errCode_aloof (K := noTask)).run s₂).mono
  exact fun _ _ hs => (h2.mono (both_removed f₀ f₁)).untouched hs

/-- With an inode they are the ends of a pipe. -/
theorem Ends.join (h : Ends live k₀ k₁ f₀ f₁ s) (rip : InodeId) (fds : List ℤ) : Returns (do
      modInode rip fun x => { x with pipe := true }
      modFilp f₀ fun x => { x with ino := some rip }
      dupInode rip
      modFilp f₁ fun x => { x with ino := some rip }
      rwInode rip .writing
      modGlobals fun g => { g with out := fds }
      return OK) s fun _ s' => Descriptors live ∅ s' := by
  apply aloof_bind noTask
  intro _ s₁ hs1
  apply Wp.bind ((h.desc.untouched hs1).getIno (f := f₀) rip)
  intro _ s₂ h2
  apply aloof_bind noTask
  intro _ s₃ hs3
  apply Wp.bind ((h2.untouched hs3).getIno (f := f₁) rip)
  intro _ s₄ h4
  apply aloof_bind noTask
  intro _ s₅ hs5
  apply aloof_bind noTask
  intro _ s₆ hs6
  exact ((h4.mono (both_removed f₀ f₁)).untouched hs5).untouched hs6

theorem doPipe_descriptors (h : Descriptors live ∅ s) (hlive : s.g.fp ∈ live) :
    Returns doPipe s fun _ s' => Descriptors live ∅ s' := by
  unfold doPipe
  apply Wp.bind (getFd_free noTask 0 rBit s)
  rintro r s₁ ⟨hs1, hr⟩
  have h1 := h.untouched hs1
  cases r with
  | error r => exact h1
  | ok slots =>
  obtain ⟨k₀, f₀⟩ := slots
  obtain ⟨hk0, hnone0, hfree0⟩ := hr k₀ f₀ rfl
  rw [← hs1.filp, ← hs1.fp] at hnone0
  rw [← hs1.count] at hfree0
  rw [← hs1.fp] at hlive
  apply Wp.bind (takeFd_descriptors h1 hlive hk0 hnone0 hfree0)
  rintro _ s₂ ⟨h2, hg2, hfilp2, -, hone2⟩
  apply Wp.bind (getFd_free noTask 0 wBit s₂)
  rintro r s₃ ⟨hs3, hr3⟩
  have h3 := h2.untouched hs3
  have hfp3 : s₃.g.fp = s₁.g.fp := hs3.fp.trans (by rw [hg2])
  have hf3 : (s₃.fprocs s₃.g.fp).filp k₀ = some f₀ := by
    rw [hfp3, hs3.filp, hfilp2, update_self]
  have hone3 : (s₃.filps f₀).count = 1 := (hs3.count f₀).trans hone2
  cases r with
  | error r =>
    -- no second descriptor
    apply Wp.bind (dropFd_descriptors h3 hk0 hf3 hone3)
    rintro _ s₄ ⟨h4, -⟩
    apply h4.mono
    simp
  | ok slots =>
  obtain ⟨k₁, f₁⟩ := slots
  obtain ⟨hk1, hnone1, hfree1⟩ := hr3 k₁ f₁ rfl
  rw [← hs3.filp, ← hs3.fp] at hnone1
  rw [← hs3.count] at hfree1
  apply Wp.bind (takeFd_descriptors h3 (hfp3 ▸ hlive) hk1 hnone1 hfree1)
  rintro _ s₄ ⟨h4, hg4, hfilp4, hother4, hone4⟩
  have hends : Ends live k₀ k₁ f₀ f₁ s₄ := by
    have hne : f₀ ≠ f₁ := by
      rintro rfl
      omega
    have hk : k₀ ≠ k₁ := by
      rintro rfl
      rw [hf3] at hnone1
      cases hnone1
    refine ⟨h4, ?_, ?_, ?_, hone4, hk0, hk1, hne⟩
    · rw [hg4, hfilp4, update_of_ne hk]
      exact hf3
    · rw [hg4, hfilp4, update_self]
    · rw [hother4 f₀ hne]
      exact hone3
  apply aloof_bind noTask
  intro x s₅ hs5
  cases x.workdir with
  | none => trivial
  | some dir =>
  apply aloof_bind noTask
  intro i s₆ hs6
  apply aloof_bind noTask
  intro rip s₇ hs7
  have h7 := hends.untouched (trans_of (Untouched noTask) hs5 (trans_of (Untouched noTask) hs6 hs7))
  cases rip with
  | none => exact h7.drop
  | some rip => exact h7.join rip _

/-! ## §6 The Calls of MM -/

/-- One more descriptor for each that the process has. -/
theorem forkCounts {p : Fproc} {body : ℕ → FsM PUnit} (hnone : ∀ i, p.filp i = none → body i = pure ⟨⟩)
    (hsome : ∀ i f, p.filp i = some f → body i = modFilp f fun x => { x with count := x.count + 1 })
    (l : List ℕ) (s : FsState) : Returns (forAll body l) s fun _ s' =>
      s'.fprocs = s.fprocs ∧ s'.g = s.g ∧ (∀ f, (s'.filps f).ino = (s.filps f).ino) ∧
        ∀ f, (s'.filps f).count = (s.filps f).count + (l.map fun i => refOf (p.filp i) f).sum := by
  induction l generalizing s with
  | nil => exact ⟨rfl, rfl, fun _ => rfl, fun _ => by simp⟩
  | cons i l ih =>
    cases hi : p.filp i with
    | none =>
      unfold forAll
      rw [hnone i hi]
      apply (ih s).mono
      rintro _ s' ⟨hprocs, hg, hino, hcount⟩
      refine ⟨hprocs, hg, hino, fun f => ?_⟩
      rw [hcount, List.map_cons, List.sum_cons, hi, refOf_none]
      omega
    | some j =>
      unfold forAll
      rw [hsome i j hi]
      apply (ih _).mono
      rintro _ s' ⟨hprocs, hg, hino, hcount⟩
      refine ⟨hprocs, hg, fun f => ?_, fun f => ?_⟩
      · rw [hino]
        dsimp only
        rcases eq_or_ne f j with rfl | hf
        · rw [update_self]
        · rw [update_of_ne hf]
      · rw [hcount, List.map_cons, List.sum_cons, hi, Nat.cast_add, refOf_ite]
        dsimp only
        rcases eq_or_ne f j with rfl | hf
        · rw [update_self, if_pos rfl]
          dsimp only
          ring
        · rw [update_of_ne hf, if_neg fun heq => hf (Option.some.inj heq).symm]
          ring

/-- The descriptors of one process, counted one by one. -/
theorem refCount_filp (x : Fproc) (f : FilpId) :
    refCount (fun k : Fin openMax => x.filp k) f =
      ((List.range openMax).map fun i => refOf (x.filp i) f).sum := by
  rw [refCount_eq_sum, Fin.sum_univ_def, ← List.map_coe_finRange_eq_range, List.map_map]
  rfl

/-- The child has what the parent has. -/
theorem Descriptors.fork {c : ProcId} {p : Fproc} (h : Descriptors live ∅ s) (hc : c ∉ live)
    (hp : ∀ k, openMax ≤ k → p.filp k = none) (hself : (s'.fprocs c).filp = p.filp)
    (hother : ∀ q ≠ c, (s'.fprocs q).filp = (s.fprocs q).filp)
    (hino : ∀ f, (s'.filps f).ino = (s.filps f).ino)
    (hused : ∀ k f, p.filp k = some f → (s.filps f).count ≠ 0)
    (hcount : ∀ f, (s'.filps f).count =
      (s.filps f).count + ((List.range openMax).map fun i => refOf (p.filp i) f).sum) :
    Descriptors (insert c live) ∅ s' where
  beyond q k hk := by
    rcases eq_or_ne q c with rfl | hq
    · rw [hself]
      exact hp k hk
    · rw [hother q hq]
      exact h.beyond q k hk
  count f := by
    have hrow := refCount_row (opened s) (opened s') c
      (fun q hq k => congrFun (hother q hq) k) f
    have hold : refCount (fun k => opened s (c, k)) f = 0 := by
      rw [refCount_eq_sum]
      apply Finset.sum_eq_zero
      intro k _
      rw [opened, h.dead c hc]
      rfl
    have hnew : refCount (fun k => opened s' (c, k)) f = _ := refCount_filp (s'.fprocs c) f
    rw [hself] at hnew
    have := h.count f
    have := hcount f
    omega
  ino f hf hne := by
    rw [hino]
    apply h.ino f hf
    rw [hcount] at hne
    by_contra hzero
    -- then no descriptor of the parent refers to it
    have hnone : ((List.range openMax).map fun i => refOf (p.filp i) f).sum = 0 := by
      apply List.sum_eq_zero
      intro n hn
      obtain ⟨i, -, rfl⟩ := List.mem_map.mp hn
      exact if_neg fun hi => hused i f hi hzero
    rw [hnone, hzero] at hne
    exact hne rfl
  dead q hq k := by
    have hne : q ≠ c := fun heq => hq (heq ▸ Set.mem_insert ..)
    rw [hother q hne]
    exact h.dead q (fun hmem => hq (Set.mem_insert_of_mem _ hmem)) k

/-- Both invariants. -/
structure Books (live : Set ProcId) (s : FsState) : Prop where
  desc : Descriptors live ∅ s
  rev : Revivals s

theorem Revivals.unmoved_noTask (h : Revivals s) (hs : Unmoved noTask s s') : Revivals s' := by
  apply h.unmoved hs
  rintro (⟨-, t, ht⟩ | ht)
  · exact ht.elim
  · exact ht.elim

theorem Books.untouched (h : Books live s) (hs : Untouched noTask s s') : Books live s' :=
  ⟨h.desc.untouched hs, h.rev.unmoved_noTask hs.toUnmoved⟩

theorem Books.aloof {p : FsM α} [hp : Aloof noTask p] (h : Books live s) :
    Returns p s fun _ s' => Books live s' := (hp.run s).mono fun _ _ => h.untouched

/-- One process changes, but neither its descriptors nor what it waits for. -/
theorem Books.setProc {x : Fproc} (h : Books live s) (hfilp : x.filp = (s.fprocs p).filp)
    (hrevived : x.revived = (s.fprocs p).revived) (hpipe : OnPipe x → OnPipe (s.fprocs p))
    (hfd : x.fd = (s.fprocs p).fd) : Books live { s with fprocs := update s.fprocs p x } where
  desc := by
    refine h.desc.of_eq (fun _ => rfl) (fun _ => rfl) fun q => ?_
    rcases update_same_or s p q x with hq | ⟨rfl, hq⟩
    · exact congrArg Fproc.filp hq
    · exact (congrArg Fproc.filp hq).trans hfilp
  rev := by
    refine h.rev.of_waits rfl (fun q => ?_) fun q hon => ?_
    · rcases update_same_or s p q x with hq | ⟨rfl, hq⟩
      · exact congrArg Fproc.revived hq
      · exact (congrArg Fproc.revived hq).trans hrevived
    · refine ⟨q, ?_⟩
      dsimp only at hon ⊢
      rcases update_same_or s p q x with hq | ⟨rfl, hq⟩ <;> rw [hq] at hon ⊢
      · exact ⟨hon, rfl⟩
      · exact ⟨hpipe hon, hfd⟩

theorem doFork_books (q : Request) (hs : Books live s) (hreviving : s.g.reviving = 0)
    (hwho : s.g.who = mmProcNr) (hc : q.child ∉ live) :
    Returns (doFork q) s fun _ s' => Books (insert q.child live) s' := by
  obtain ⟨h, hr⟩ := hs
  unfold doFork
  simp only [wp_bind, wp_globals]
  refine wp_ite (fun hne => absurd hwho hne) fun _ => ?_
  simp only [wp_bind, wp_readProc, wp_modProc]
  apply (forkCounts (p := s.fprocs q.parent) ?_ ?_ (List.range openMax) _).mono
  · rintro _ s₁ ⟨hprocs, hg, hino, hcount⟩
    dsimp only at hprocs hg hino hcount
    have hself : s₁.fprocs q.child = s.fprocs q.parent := by
      rw [hprocs, update_self]
    have hother : ∀ p ≠ q.child, s₁.fprocs p = s.fprocs p := by
      intro p hp
      rw [hprocs, update_of_ne hp]
    have hd1 : Descriptors (insert q.child live) ∅ s₁ := by
      apply h.fork hc (h.beyond q.parent) (congrArg Fproc.filp hself)
      · exact fun p hp => congrArg Fproc.filp (hother p hp)
      · exact hino
      · exact fun k f hf => (h.used hf).ne'
      · exact hcount
    have hr1 : Revivals s₁ := by
      -- the child waits for what the parent waits for
      have hfrom : ∀ p, ∃ p₀, s₁.fprocs p = s.fprocs p₀ := by
        intro p
        rcases eq_or_ne p q.child with rfl | hp
        · exact ⟨_, hself⟩
        · exact ⟨_, hother p hp⟩
      apply hr.of_waits (congrArg Globals.reviving hg)
      · intro p
        obtain ⟨p₀, hp0⟩ := hfrom p
        rw [hp0, hr.nobody hreviving, hr.nobody hreviving]
      · intro p hp
        obtain ⟨p₀, hp0⟩ := hfrom p
        rw [hp0] at hp ⊢
        exact ⟨p₀, hp, rfl⟩
    have hlast := Books.setProc (p := q.child) ⟨hd1, hr1⟩ (x :=
      { s₁.fprocs q.child with
        pid := q.pid
        pgrp := if q.parent = initProcNr then q.pid else (s₁.fprocs q.child).pgrp }) rfl rfl id rfl
    exact hlast.aloof.mono fun _ _ h2 => h2.aloof.mono fun _ _ h3 => h3
  · intro i hi
    simp only [hi]
  · intro i f hi
    simp only [hi]

theorem doSet_books (q : Request) (h : Books live s) :
    Returns (doSet q) s fun _ s' => Books live s' := by
  have hgid : ∀ s₁, Books live s₁ → Returns (do
      if s.g.fsCall = setgidCall then
        modProc q.slot1 fun x => { x with effgid := q.effGrpId, realgid := q.realGrpId }
      return OK) s₁ fun _ s' => Books live s' := by
    intro s₁ h1
    refine wp_ite (fun _ => ?_) fun _ => h1
    exact h1.setProc rfl rfl id rfl
  unfold doSet
  simp only [wp_bind, wp_globals]
  refine wp_ite (fun _ => h) fun _ => ?_
  refine wp_ite (fun _ => ?_) fun _ => hgid s h
  exact hgid _ (h.setProc rfl rfl id rfl)

theorem doChdir_books (q : Request) (h : Books live s) :
    Returns (doChdir q) s fun _ s' => Books live s' := by
  unfold doChdir
  simp only [wp_bind, wp_globals]
  refine wp_ite (fun _ => ?_) fun _ => h.aloof
  simp only [wp_bind, wp_caller, wp_readProc, wp_modProc]
  refine Wp.mono h.aloof fun _ s₁ h1 => ?_
  refine Wp.mono (Books.aloof ?_ : Returns _ _ fun _ s' => Books live s') fun _ _ h2 => h2
  exact h1.setProc rfl rfl id rfl

/-- Only the caller and its request are other ones. -/
theorem Books.setGlobals (h : Books live s) {g : Globals} (hg : g.reviving = s.g.reviving) :
    Books live { s with g := g } where
  desc := h.desc.of_eq (fun _ => rfl) (fun _ => rfl) fun _ => rfl
  rev := h.rev.of_waits hg (fun _ => rfl) fun p hp => ⟨p, hp, rfl⟩

theorem doClose_books (fd : ℤ) (h : Books live s) :
    Returns (doClose fd) s fun _ s' => Books live s' ∧ Closed fd s s' := by
  have hunmoved : Respects (Unmoved noTask) (doClose fd) := doClose_unmoved
  apply ((hunmoved.run s).and (doClose_descriptors fd h.desc)).mono
  rintro _ s' ⟨hs, hd, hclosed⟩
  exact ⟨⟨hd, h.rev.unmoved_noTask hs⟩, hclosed⟩

/-- The loop of `do_exit` closes one descriptor after the other. -/
theorem closeAll_books {l : List ℤ} (hl : ∀ i ∈ l, 0 ≤ i) (h : Books live s) : Returns (forAll (fun i => do
      modGlobals fun g => { g with fd := i }
      let _ ← doClose i) l) s fun _ s' => Books live s' ∧
        (∀ i ∈ l, (s'.fprocs s.g.fp).filp i.toNat = none) ∧
        ∀ k, (s.fprocs s.g.fp).filp k = none → (s'.fprocs s.g.fp).filp k = none := by
  induction l generalizing s with
  | nil => exact ⟨h, fun k hk => absurd hk List.not_mem_nil, fun _ => id⟩
  | cons i l ih =>
    have h1 : Books live { s with g := { s.g with fd := i } } := h.setGlobals rfl
    unfold forAll
    simp only [wp_bind, wp_modGlobals, wp_pure]
    apply (doClose_books i h1).mono
    rintro _ s₂ ⟨h2, hclosed⟩
    have hfp2 : s₂.g.fp = s.g.fp := hclosed.fp
    have hfilp : (s₂.fprocs s.g.fp).filp = update (s.fprocs s.g.fp).filp i.toNat none :=
      hclosed.filp (hl i List.mem_cons_self)
    apply (ih (fun j hj => hl j (List.mem_cons_of_mem _ hj)) h2).mono
    rw [hfp2]
    rintro _ s₃ ⟨h3, hall, hkeep⟩
    refine ⟨h3, fun j hj => ?_, fun k hk => hkeep k ?_⟩
    · rcases List.mem_cons.mp hj with rfl | hj
      · apply hkeep
        rw [hfilp, update_self]
      · exact hall j hj
    · rw [hfilp]
      rcases eq_or_ne k i.toNat with rfl | hki
      · exact update_self ..
      · rw [update_of_ne hki]
        exact hk

/-- A process without descriptors may go. -/
theorem Books.remove (h : Books live s) (hp : ∀ k, (s.fprocs p).filp k = none) :
    Books (live \ {p}) s where
  desc :=
    { beyond := h.desc.beyond
      count := h.desc.count
      ino := h.desc.ino
      dead := fun q hq k => by
        rcases eq_or_ne q p with rfl | hne
        · exact hp k
        · exact h.desc.dead q (fun hmem => hq ⟨hmem, hne⟩) k }
  rev := h.rev

/-- The end of `do_exit`. -/
theorem exitEnd_books (h : Books live s) (hfp : s.g.fp = p) : Returns (do
      forAll (fun i => do
        modGlobals fun g => { g with fd := i }
        let _ ← doClose i) (List.range openMax)
      let x ← caller
      putInode x.rootdir
      putInode x.workdir
      modProc p fun x => { x with rootdir := none, workdir := none }
      return OK) s fun _ s' => Books (live \ {p}) s' := by
  apply Wp.bind (closeAll_books (fun i hi => ?_) h)
  · rintro _ s₁ ⟨h1, hall, -⟩
    have hnone : ∀ k, (s₁.fprocs p).filp k = none := by
      intro k
      by_cases hk : k < openMax
      · rw [← hfp]
        exact hall k (by simpa using hk)
      · exact h1.desc.beyond _ k (by omega)
    exact (h1.remove hnone).aloof
  · obtain ⟨k, -, rfl⟩ := by simpa using hi
    exact Int.natCast_nonneg k

theorem doExit_books (q : Request) (h : Books live s) (hwho : s.g.who = mmProcNr) :
    Returns (doExit q) s fun _ s' => Books (live \ {q.slot1}) s' := by
  unfold doExit
  simp only [wp_bind, wp_globals]
  refine wp_ite (fun hne => absurd hwho hne) fun _ => ?_
  rw [wp_bind, wp_modGlobals, wp_bind, wp_caller]
  generalize hs1 : { s with g := { s.g with fp := q.slot1 } } = s₁
  have h1 : Books live s₁ := hs1 ▸ h.setGlobals rfl
  have hfp1 : s₁.g.fp = q.slot1 := by rw [← hs1]
  -- up to the loop, descriptors are left alone
  have hend := fun s₂ (hs2 : Untouched noTask s₁ s₂) =>
    exitEnd_books (h1.untouched hs2) (hs2.fp.trans hfp1)
  refine wp_join (Untouched noTask s₁) (refl _) (fun s₂ hs2 => ?_) fun _ hwake =>
    aloof_bind noTask fun _ => hwake
  simp only [wp_bind, wp_caller]
  refine wp_ite (fun _ => ?_) fun _ => hend s₂ hs2
  simp only [wp_bind, wp_caller]
  refine wp_join (Untouched noTask s₁) hs2 (fun s₃ hs3 => ?_) fun _ hunpause => ?_
  · apply aloof_bind noTask
    intro _ s₄ hs4
    apply aloof_bind noTask
    intro _ s₅ hs5
    exact hend s₅ (trans_of _ hs3 (trans_of _ hs4 hs5))
  · apply aloof_bind noTask
    intro _ s₃ hs3
    exact hunpause s₃ (trans_of _ hs2 hs3)

/-! ## §7 One Request -/

/-- A transfer may leave the caller waiting for a pipe. -/
theorem readWrite_books (rw : RwFlag) (h : Books live s)
    (hcall : s.g.fsCall = readCall ∨ s.g.fsCall = writeCall) :
    Returns (readWrite rw) s fun _ s' => Books live s' := by
  have haloof : Aloof anyTask (readWrite rw) := readWrite_aloof
  apply (haloof.run s).mono
  exact fun _ _ hs => ⟨h.desc.untouched hs, h.rev.unmoved hs.toUnmoved fun _ => hcall⟩

/-- The call of a process that is not waiting, and is no fork and no exit. -/
theorem callVector_books {n : ℕ} (q : Request) (h : Books live s) (hcall : s.g.fsCall = n)
    (hlive : s.g.fp ∈ live) (hawake : ¬OnPipe (s.fprocs s.g.fp)) (hexit : n ≠ 1) (hfork : n ≠ 2) :
    Returns (callVector q n) s fun _ s' => Books live s' := by
  -- opening suspends the caller for no pipe
  have hopen : ∀ {p : FsM ℤ}, Respects (Unmoved openTask) p →
      Returns p s (fun _ s' => Descriptors live ∅ s') → Returns p s fun _ s' => Books live s' := by
    intro p hunmoved hdesc
    apply ((hunmoved.run s).and hdesc).mono
    rintro _ s' ⟨hs, hd⟩
    refine ⟨hd, h.rev.unmoved hs ?_⟩
    rintro (⟨hon, -⟩ | hx)
    · exact absurd hon hawake
    · have : xpipe ≠ xopen := by decide
      exact absurd hx this
  have hother : ∀ {p : FsM ℤ}, Respects (Unmoved noTask) p →
      Returns p s (fun _ s' => Descriptors live ∅ s') → Returns p s fun _ s' => Books live s' := by
    intro p hunmoved hdesc
    apply ((hunmoved.run s).and hdesc).mono
    rintro _ s' ⟨hs, hd⟩
    exact ⟨hd, h.rev.unmoved_noTask hs⟩
  unfold callVector
  split
  case h_1 => exact absurd rfl hexit
  case h_2 => exact absurd rfl hfork
  case h_3 => exact readWrite_books _ h (.inl hcall)
  case h_4 => exact readWrite_books _ h (.inr hcall)
  case h_5 => exact hopen doOpen_unmoved (doOpen_descriptors q h.desc hlive)
  case h_6 => exact hother doClose_unmoved ((doClose_descriptors q.fd h.desc).mono fun _ _ h' => h'.1)
  case h_7 => exact hopen doCreat_unmoved (doCreat_descriptors q h.desc hlive)
  case h_10 => exact doChdir_books q h
  case h_19 => exact doSet_books q h
  case h_28 => exact hother doDup_unmoved (doDup_descriptors q h.desc hlive)
  case h_29 => exact hother doPipe_unmoved (doPipe_descriptors h.desc hlive)
  case h_31 => exact doSet_books q h
  case h_33 => exact hother doFcntl_unmoved (doFcntl_descriptors q h.desc hlive)
  all_goals exact h.aloof

theorem Books.of_tables (h : Books live s) (hfilps : s'.filps = s.filps) (hprocs : s'.fprocs = s.fprocs)
    (hreviving : s'.g.reviving = s.g.reviving) : Books live s' where
  desc := h.desc.of_eq (fun f => by rw [hfilps]) (fun f => by rw [hfilps]) fun p => by rw [hprocs]
  rev := h.rev.of_waits hreviving (fun p => by rw [hprocs]) fun p hp => ⟨p, hprocs ▸ hp, by rw [hprocs]⟩

/-- Somebody is to be served again if `reviving` says so. -/
theorem Revivals.somebody (h : Revivals s) (hreviving : s.g.reviving ≠ 0) :
    ∃ p, firstId (fun p => (s.fprocs p).revived) = some p := by
  have hpos : 0 < awaited s := by
    have := h.reviving
    omega
  obtain ⟨p, hp⟩ := Finset.card_pos.mp hpos
  rw [Finset.mem_filter] at hp
  rw [← Option.isSome_iff_exists]
  unfold firstId
  rw [List.find?_isSome]
  exact ⟨p, List.mem_finRange p, hp.2⟩

/-- One process less is to be served again. -/
theorem awaited_served (h : (s.fprocs p).revived = true) (g : Globals) :
    awaited { s with
      fprocs := update s.fprocs p { s.fprocs p with suspended := false, revived := false }
      g := g } + 1 = awaited s := by
  have hnew : (Finset.univ.filter fun q => (update s.fprocs p
      { s.fprocs p with suspended := false, revived := false } q).revived) =
      (Finset.univ.filter fun q => (s.fprocs q).revived).erase p := by
    ext q
    rcases eq_or_ne q p with rfl | hq
    · simp
    · simp [hq]
  have hmem : p ∈ Finset.univ.filter fun q => ((s.fprocs q).revived : Prop) := by
    simp [h]
  unfold awaited
  dsimp only
  rw [hnew, Finset.card_erase_add_one hmem]

/-- The next call is that of a message, or one that is made again. -/
theorem getWork_books (q : Request) (h : Books live s) : Returns (getWork q) s fun call s₁ =>
    Books live s₁ ∧
      (s.g.reviving ≠ 0 ∧ (call = readCall ∨ call = writeCall) ∨
        s.g.reviving = 0 ∧ call = q.call ∧ s₁.g.who = q.who ∧ s₁.g.reviving = 0 ∧
          s₁.fprocs = s.fprocs) := by
  unfold getWork
  rw [Returns, wp_bind, wp_get]
  refine wp_ite (fun hreviving => ?_) fun hreviving => ?_
  · obtain ⟨p, hp⟩ := h.rev.somebody hreviving
    have hrevived : (s.fprocs p).revived = true := firstId_some hp
    rw [hp]
    simp only [wp_bind, wp_modGlobals, wp_modProc, wp_pure]
    refine ⟨⟨h.desc.of_eq (fun _ => rfl) (fun _ => rfl) fun q' => ?_, fun q' hq' => ?_, ?_⟩, .inl ?_⟩
    · dsimp only
      rcases update_same_or s p q' { s.fprocs p with suspended := false, revived := false } with
        hq | ⟨rfl, hq⟩ <;> rw [hq]
    · dsimp only at hq' ⊢
      rcases update_same_or s p q' { s.fprocs p with suspended := false, revived := false } with
        hq | ⟨rfl, hq⟩ <;> rw [hq] at hq' ⊢
      · exact h.rev.pipe q' hq'
      · simp [OnPipe] at hq'
    · dsimp only
      rw [sub_eq_iff_eq_add, h.rev.reviving]
      exact_mod_cast (awaited_served hrevived _).symm
    · exact ⟨hreviving, h.rev.pipe p (.inl hrevived)⟩
  · rw [not_not] at hreviving
    simp only [wp_bind, wp_modGlobals, wp_pure]
    exact ⟨h.of_tables rfl rfl rfl, .inr ⟨hreviving, trivial, trivial, hreviving, trivial⟩⟩

/-! ## §8 Runs -/

/-- What MM and the kernel see to when a message is received: it is from a task, which revives a
    process, or from a live process that does not wait for an answer; and the child of a fork is not
    live. -/
structure Lawful (live : Set ProcId) (s : FsState) (q : Request) : Prop where
  caller : q.fromTask ∧ q.call = 67 ∨ q.who ∈ live ∧ (s.fprocs q.who).suspended = false
  child : q.who = mmProcNr → q.call = 2 → q.child ∉ live

/-- The processes that are live after a request.  While processes are to be served again no message is
    received. -/
def liveAfter (live : Set ProcId) (s : FsState) (q : Request) : Set ProcId :=
  if s.g.reviving = 0 ∧ q.who = mmProcNr ∧ q.call = 1 then live \ {q.slot1}
  else if s.g.reviving = 0 ∧ q.who = mmProcNr ∧ q.call = 2 then insert q.child live
  else live

/-- Only MM changes who is live. -/
theorem liveAfter_of_ne {q : Request} (h : q.who ≠ mmProcNr) : liveAfter live s q = live := by
  unfold liveAfter
  rw [if_neg fun hand => h hand.2.1, if_neg fun hand => h hand.2.1]

/-- The call that is made for a message. -/
theorem request_books (q : Request) {s₀ : FsState} (h : Books live s) (hwho : s.g.who = q.who)
    (hfp : s.g.fp = q.who) (hreviving : s₀.g.reviving = 0) (hreviving' : s.g.reviving = 0)
    (hprocs : s.fprocs = s₀.fprocs) (hq : Lawful live s₀ q) (hcall : s.g.fsCall = q.call.toNat)
    (hlow : 0 ≤ q.call) : Returns (callVector q q.call.toNat) s fun _ s' =>
      Books (liveAfter live s₀ q) s' := by
  have hnat : ∀ n : ℕ, q.call = n → q.call.toNat = n := fun n hn => by rw [hn]; rfl
  have hint : ∀ n : ℕ, q.call.toNat = n → q.call = n := fun n hn => by omega
  unfold liveAfter
  by_cases hexit : q.call = 1
  · rw [hnat 1 hexit]
    by_cases hmm : q.who = mmProcNr
    · rw [if_pos ⟨hreviving, hmm, hexit⟩]
      exact doExit_books q h (hwho.trans hmm)
    · rw [if_neg fun hand => hmm hand.2.1, if_neg fun hand => hmm hand.2.1]
      unfold callVector doExit
      simp only [wp_bind, wp_globals]
      exact wp_ite (fun _ => h) fun heq => absurd (hwho.symm.trans (not_not.mp heq)) hmm
  by_cases hfork : q.call = 2
  · rw [hnat 2 hfork, if_neg fun hand => hexit hand.2.2]
    by_cases hmm : q.who = mmProcNr
    · rw [if_pos ⟨hreviving, hmm, hfork⟩]
      exact doFork_books q h hreviving' (hwho.trans hmm) (hq.child hmm hfork)
    · rw [if_neg fun hand => hmm hand.2.1]
      unfold callVector doFork
      simp only [wp_bind, wp_globals]
      exact wp_ite (fun _ => h) fun heq => absurd (hwho.symm.trans (not_not.mp heq)) hmm
  rw [if_neg fun hand => hexit hand.2.2, if_neg fun hand => hfork hand.2.2]
  rcases hq.caller with ⟨-, hrevive⟩ | ⟨hlive, hawake⟩
  · rw [hnat 67 hrevive]
    exact Books.aloof (p := doRevive q) h
  · apply callVector_books q h hcall
    · rw [hfp]
      exact hlive
    · rintro (hrevived | ⟨hsusp, -⟩)
      · rw [h.rev.nobody hreviving'] at hrevived
        cases hrevived
      · rw [hfp, hprocs, hawake] at hsusp
        cases hsusp
    · exact fun h1 => hexit (hint 1 h1)
    · exact fun h2 => hfork (hint 2 h2)

/-- The reply, and what is read ahead. -/
theorem reply_books (error : ℤ) (h : Books live s) : Returns (do
      let g ← globals
      if g.dontReply then pure ⟨⟩
      else
        reply g.who.val error
        match g.rdahedInode with
        | none => pure ⟨⟩
        | some rip => readAhead rip) s fun _ s' => Books live s' := by
  apply aloof_bind noTask
  intro g s₁ hs1
  have h1 := h.untouched hs1
  refine wp_ite (fun _ => h1) fun _ => ?_
  apply aloof_bind noTask
  intro _ s₂ hs2
  have h2 := h1.untouched hs2
  split
  · exact h2
  · exact h2.aloof

/-- **Step lemma**: a request keeps the books. -/
theorem serve_books (q : Request) (h : Books live s) (hq : s.g.reviving = 0 → Lawful live s q) :
    Returns (serve q) s fun _ s' => Books (liveAfter live s q) s' := by
  unfold serve
  apply Wp.bind (getWork_books q h)
  rintro call s₁ ⟨h1, hwork⟩
  unfold setUp
  rw [wp_bind, wp_modify]
  generalize hs2 : { s₁ with
    cache := { s₁.cache with peak := s₁.cache.bufsInUse }
    g :=
      { s₁.g with
        fp := s₁.g.who
        superUser := (s₁.fprocs s₁.g.who).effuid = suUid
        dontReply := false
        fsCall := call.toNat
        user := q.user } } = s₂
  have h2 : Books live s₂ := hs2 ▸ h1.of_tables rfl rfl rfl
  have hmade : Returns (if call < 0 ∨ nCalls ≤ call then pure EBADCALL else callVector q call.toNat) s₂
      fun _ s' => Books (liveAfter live s q) s' := by
    rcases hwork with ⟨hreviving, hcall⟩ | ⟨hreviving, hcall, hwho, hreviving1, hprocs⟩
    · -- a call that is made again
      have hafter : liveAfter live s q = live := by
        unfold liveAfter
        rw [if_neg fun hand => hreviving hand.1, if_neg fun hand => hreviving hand.1]
      rw [hafter]
      refine wp_ite (fun _ => h2) fun _ => ?_
      rcases hcall with rfl | rfl
      · exact readWrite_books .reading h2 (.inl (by rw [← hs2]; rfl))
      · exact readWrite_books .writing h2 (.inr (by rw [← hs2]; rfl))
    · subst hcall
      refine wp_ite (fun hout => ?_) fun hin => ?_
      · have hafter : liveAfter live s q = live := by
          have hbound : nCalls = 70 := rfl
          unfold liveAfter
          rw [if_neg (by omega), if_neg (by omega)]
        rw [hafter]
        exact h2
      · apply request_books q h2
        · rw [← hs2]
          exact hwho
        · rw [← hs2]
          exact hwho
        · exact hreviving
        · rw [← hs2]
          exact hreviving1
        · rw [← hs2]
          exact hprocs
        · exact hq hreviving
        · rw [← hs2]
        · omega
  dsimp only
  by_cases hout : call < 0 ∨ nCalls ≤ call
  · rw [if_pos hout] at hmade ⊢
    exact Wp.bind hmade fun error _ h3 => reply_books error h3
  · rw [if_neg hout] at hmade ⊢
    exact Wp.bind hmade fun error _ h3 => reply_books error h3

/-- At boot nothing is open. -/
theorem atBoot_books (w : World) : Books live (atBoot w) where
  desc :=
    { beyond := fun _ _ _ => rfl
      count := fun f => by
        have hzero : refCount (opened (atBoot w)) f = 0 := by
          rw [refCount_eq_sum]
          exact Finset.sum_eq_zero fun _ _ => refOf_none f
        rw [hzero]
        rfl
      ino := fun f _ hcount => absurd rfl hcount
      dead := fun _ _ _ => rfl }
  rev :=
    { pipe := fun p hp => by
        rcases hp with hp | ⟨hp, -⟩
        · cases hp
        · cases hp
      reviving := by
        have hzero : awaited (atBoot w) = 0 := by
          unfold awaited
          rw [Finset.card_eq_zero, Finset.filter_eq_empty_iff]
          exact fun p _ hp => Bool.noConfusion hp
        rw [hzero]
        rfl }

instance loadSuper_aloof {dev : ℕ} : Aloof K (loadSuper dev) := by
  unfold loadSuper
  apply Respects.andThen
  intro _
  apply Respects.andThen
  intro _
  apply Respects.andThen
  intro rip
  split <;> infer_instance

theorem initProc_books (p : ProcId) (h : Books live s) :
    Returns (initProc p) s fun _ s' => Books live s' := by
  unfold initProc
  apply aloof_bind noTask
  intro g s₁ hs1
  apply aloof_bind noTask
  intro rip s₂ hs2
  apply aloof_bind noTask
  intro _ s₃ hs3
  exact (h.untouched (trans_of _ hs1 (trans_of _ hs2 hs3))).setProc rfl rfl id rfl

theorem fsInit_books (h : Books live s) : Returns fsInit s fun _ s' => Books live s' := by
  unfold fsInit
  apply aloof_bind noTask
  intro g s₁ hs1
  apply aloof_bind noTask
  intro _ s₂ hs2
  apply Wp.bind (initProc_books mmProcNr (h.untouched (trans_of _ hs1 hs2)))
  exact fun _ s₃ h3 => initProc_books initProcNr h3

/-- The runs of the server, with the processes that are live. -/
inductive Run (w : World) : Set ProcId → FsState → Prop
  | start {s : FsState} (h : fsInit (atBoot w) = (.ok ⟨⟩, s)) : Run w {mmProcNr, initProcNr} s
  | step {live : Set ProcId} {s s' : FsState} (q : Request) (hs : Run w live s)
      (hq : s.g.reviving = 0 → Lawful live s q) (h : serve q s = (.ok ⟨⟩, s')) :
      Run w (liveAfter live s q) s'

/-- **Run lemma**: the books are kept. -/
theorem Run.books {w : World} (h : Run w live s) : Books live s := by
  induction h with
  | start h => exact (fsInit_books (atBoot_books w)).ok h
  | step q hs hq h ih => exact (serve_books q ih hq).ok h

/-- `get_work` finds a process to serve again when there is one. -/
theorem Revivals.getWork_returns (h : Revivals s) (q : Request) :
    ∃ call s', getWork q s = (.ok call, s') := by
  have hnever : Wp (fun _ _ => False) (getWork q) s fun _ _ => True := by
    unfold getWork
    rw [wp_bind, wp_get]
    refine wp_ite (fun hreviving => ?_) fun _ => trivial
    obtain ⟨p, hp⟩ := h.somebody hreviving
    rw [hp]
    trivial
  unfold Wp at hnever
  rcases hrun : getWork q s with ⟨e | call, s'⟩
  · rw [hrun] at hnever
    exact hnever.elim
  · exact ⟨call, s', rfl⟩

/-- Between requests, every filp counts the descriptors that refer to it, a filp that has any has an
    inode, and a process that is not live has none.  The processes that are to be served again have
    waited for a pipe, and `get_work` always finds one when there are any. -/
theorem run_counted {w : World} (h : Run w live s) :
    (∀ f, (s.filps f).count = refCount (opened s) f ∧
      ((s.filps f).count ≠ 0 → (s.filps f).ino ≠ none)) ∧
    (∀ p ∉ live, ∀ k, (s.fprocs p).filp k = none) ∧
    (∀ p, (s.fprocs p).revived →
      (s.fprocs p).fd % 256 = readCall ∨ (s.fprocs p).fd % 256 = writeCall) ∧
    s.g.reviving = awaited s ∧ ∀ q, ∃ call s', getWork q s = (.ok call, s') := by
  have hbooks := h.books
  exact ⟨fun f => ⟨hbooks.desc.count f, hbooks.desc.ino f (Set.notMem_empty f)⟩, hbooks.desc.dead,
    fun p hp => hbooks.rev.pipe p (.inl hp), hbooks.rev.reviving, hbooks.rev.getWork_returns⟩

/-- `init` has made a pipe, and MM forks it. -/
def forkWorld : World := smallWorld [] fun _ => { status := OK, revives := [] }
def childOfInit : ProcId := ⟨3, by decide⟩
def forkInit : Request := { initRequest 2 with who := mmProcNr, child := childOfInit, pid := 5 }
def beforePipe : FsState := (fsInit (atBoot forkWorld)).2
def beforeFork : FsState := (serve (initRequest 42) beforePipe).2
def afterFork : FsState := (serve forkInit beforeFork).2

theorem run_counted_fork : (∀ f, (afterFork.filps f).count = refCount (opened afterFork) f ∧
      ((afterFork.filps f).count ≠ 0 → (afterFork.filps f).ino ≠ none)) ∧
    (∀ p ∉ ({childOfInit, mmProcNr, initProcNr} : Set ProcId), ∀ k, (afterFork.fprocs p).filp k = none) ∧
    (∀ p, (afterFork.fprocs p).revived →
      (afterFork.fprocs p).fd % 256 = readCall ∨ (afterFork.fprocs p).fd % 256 = writeCall) ∧
    afterFork.g.reviving = awaited afterFork ∧ ∀ q, ∃ call s', getWork q afterFork = (.ok call, s') := by
  have hruns : (fsInit (atBoot forkWorld)).1 = .ok ⟨⟩ ∧
      (serve (initRequest 42) beforePipe).1 = .ok ⟨⟩ ∧ (serve forkInit beforeFork).1 = .ok ⟨⟩ := by
    decide +kernel
  have hstates : (beforePipe.fprocs initProcNr).suspended = false ∧
      (beforeFork.fprocs mmProcNr).suspended = false ∧ beforeFork.g.reviving = 0 := by decide +kernel
  obtain ⟨hinit, hpipe, hfork⟩ := hruns
  obtain ⟨hawake, hawake', hreviving⟩ := hstates
  have hne : childOfInit ≠ mmProcNr ∧ childOfInit ≠ initProcNr ∧ initProcNr ≠ mmProcNr := by decide
  have hinitWho : (initRequest 42).who = initProcNr := rfl
  have hforkWho : forkInit.who = mmProcNr := rfl
  have hstart : Run forkWorld {mmProcNr, initProcNr} beforePipe := .start (run_eq hinit)
  have hpiped : Run forkWorld {mmProcNr, initProcNr} beforeFork := by
    have hlawful : Lawful {mmProcNr, initProcNr} beforePipe (initRequest 42) := by
      refine ⟨.inr ⟨.inr hinitWho, ?_⟩, fun hmm => absurd hmm hne.2.2⟩
      rw [hinitWho]
      exact hawake
    have hstep := hstart.step (initRequest 42) (fun _ => hlawful) (run_eq hpipe)
    rw [liveAfter_of_ne hne.2.2] at hstep
    exact hstep
  have hforked : Run forkWorld {childOfInit, mmProcNr, initProcNr} afterFork := by
    have hlawful : Lawful {mmProcNr, initProcNr} beforeFork forkInit := by
      refine ⟨.inr ⟨.inl hforkWho, ?_⟩, fun _ _ hmem => ?_⟩
      · rw [hforkWho]
        exact hawake'
      · rcases hmem with hmem | hmem
        · exact hne.1 hmem
        · exact hne.2.1 hmem
    have hstep := hpiped.step forkInit (fun _ => hlawful) (run_eq hfork)
    have hcall : forkInit.call ≠ 1 := by decide
    unfold liveAfter at hstep
    rw [if_neg fun hand => hcall hand.2.2, if_pos ⟨hreviving, hforkWho, rfl⟩] at hstep
    exact hstep
  exact run_counted hforked

end LisaMinix.Fs.Server
