import LisaMinix.Fs.Server.Custody

/-!
# References to Inodes

What `get_inode` and `put_inode` do to the inode table as a whole, in a server whose tables are in
order and whatever the disks answer: neither panics, and the references that a program holds are
counted exactly.

- `Sane`: the tables of the server are in order.
- `Over`: a program that has been started with one state and has reached another holds references.
- `getInode_over`, `Over.put`: a reference is acquired and released.
-/

namespace LisaMinix.Fs.Server

open LisaMinix.Library Function
open Discipline (Passes Keeps)

/-! ## §1 Tables in Order -/

/-- A furnished server with an inode table in order: an inode in use is one of a known device and in one
    slot only, and a slot that is not in use is neither a pipe nor mounted on. -/
structure Sane (s : FsState) : Prop extends Furnished s where
  nonneg : ∀ i, 0 ≤ (s.inodes i).count
  known : ∀ i, (s.inodes i).count ≠ 0 → KnownDev s (s.inodes i).dev ∧ (s.inodes i).num < 65536
  idle : ∀ i, (s.inodes i).count = 0 → (s.inodes i).pipe = false ∧ (s.inodes i).mount = false
  unique : ∀ i j, (s.inodes i).count ≠ 0 → (s.inodes j).count ≠ 0 →
    (s.inodes i).dev = (s.inodes j).dev → (s.inodes i).num = (s.inodes j).num → i = j

/-- The references to an inode that a program has got, if it has got one. -/
def holding (x : Option InodeId) (i : InodeId) : ℕ := if x = some i then 1 else 0

@[simp] theorem holding_none : holding none = 0 := funext fun _ => if_neg (by simp)

/-- Since `s₀` a program has acquired the references `d`, and has changed nothing else that identifies
    the inodes in use. -/
structure Over (d : InodeId → ℕ) (s₀ s : FsState) : Prop where
  sane : Sane s
  count : ∀ i, (s.inodes i).count = (s₀.inodes i).count + d i
  ident : ∀ i, (s₀.inodes i).count ≠ 0 →
    (s.inodes i).dev = (s₀.inodes i).dev ∧ (s.inodes i).num = (s₀.inodes i).num
  mount : ∀ i, (s.inodes i).mount = (s₀.inodes i).mount
  super : ∀ sp, SameSuper (s.supers sp) (s₀.supers sp)
  filps : s.filps = s₀.filps
  fprocs : s.fprocs = s₀.fprocs
  globals : s.g = { s₀.g with errCode := s.g.errCode, tick := s.g.tick }

theorem Over.in_use {d : InodeId → ℕ} {s₀ s : FsState} (h : Over d s₀ s) (h0 : Sane s₀) {i : InodeId}
    (hi : (s₀.inodes i).count ≠ 0) : (s.inodes i).count ≠ 0 := by
  have hnonneg := h0.nonneg i
  rw [h.count i]
  omega

theorem Over.trans {d d' : InodeId → ℕ} {s₀ s s' : FsState} (h : Over d s₀ s) (h' : Over d' s s')
    (h0 : Sane s₀) : Over (d + d') s₀ s' where
  sane := h'.sane
  count i := by
    rw [h'.count, h.count, Pi.add_apply, Nat.cast_add, add_assoc]
  ident i hi := by
    obtain ⟨hdev, hnum⟩ := h.ident i hi
    obtain ⟨hdev', hnum'⟩ := h'.ident i (h.in_use h0 hi)
    exact ⟨hdev'.trans hdev, hnum'.trans hnum⟩
  mount i := (h'.mount i).trans (h.mount i)
  super sp := (h'.super sp).trans (h.super sp)
  filps := h'.filps.trans h.filps
  fprocs := h'.fprocs.trans h.fprocs
  globals := by rw [h'.globals, h.globals]

theorem Over.knownDev {d : InodeId → ℕ} {s₀ s : FsState} (h : Over d s₀ s) {dev : ℕ}
    (hdev : KnownDev s₀ dev) : KnownDev s dev := by
  obtain ⟨hvalid, sp, hsp⟩ := hdev
  refine ⟨hvalid, sp, ?_⟩
  rw [h.super sp]
  exact hsp

section

variable {q : Bool} {s₀ s : FsState} {r : InodeId} {d : InodeId → ℕ}

/-- A program that works on an inode without opening or closing any keeps the tables in order. -/
theorem Custody.over (h : Custody q r s none s₀) (hs : Sane s) : Over 0 s s₀ where
  sane :=
    { toFurnished := h.furnished hs.toFurnished
      nonneg := fun i => by
        rw [(h.inode i).count]
        exact hs.nonneg i
      known := fun i hi => by
        rw [(h.inode i).count] at hi
        rw [(h.inode i).dev, (h.inode i).num]
        exact ⟨h.knownDev (hs.known i hi).1, (hs.known i hi).2⟩
      idle := fun i hi => by
        rw [(h.inode i).count] at hi
        rw [(h.inode i).mount]
        obtain ⟨hpipe, hmount⟩ := hs.idle i hi
        exact ⟨Bool.eq_false_iff.mpr fun hp => absurd ((h.inode i).pipe hp) (by simp [hpipe]), hmount⟩
      unique := fun i j hi hj hdev hnum => by
        rw [(h.inode i).count] at hi
        rw [(h.inode j).count] at hj
        rw [(h.inode i).dev, (h.inode j).dev] at hdev
        rw [(h.inode i).num, (h.inode j).num] at hnum
        exact hs.unique i j hi hj hdev hnum }
  count i := by rw [(h.inode i).count, Pi.zero_apply, Nat.cast_zero, add_zero]
  ident i _ := ⟨(h.inode i).dev, (h.inode i).num⟩
  mount i := (h.inode i).mount
  super := h.super
  filps := h.filps
  fprocs := h.fprocs
  globals := h.globals

/-- A program that follows the discipline of an inode in use. -/
theorem Passes.over {α : Type} {p : FsM α} (h : (custody (fun _ => False) q r s).Keeps none p)
    (hs : Sane s) : Surely p s fun _ s' => Custody q r s none s' ∧ Over 0 s s' := by
  refine (h s (.refl r hs.toFurnished)).mono ?_
  rintro _ s' ⟨hcustody, -⟩
  exact ⟨hcustody, Custody.over hcustody hs⟩

/-! ## §2 `get_inode` -/

/-- What `get_inode` does to a slot that is not in use, before the inode is read. -/
def claimed (xp : InodeId) (dev numb : ℕ) (s : FsState) : FsState :=
  { s with
    inodes := update s.inodes xp
      { s.inodes xp with dev := dev, num := numb, count := 1 } }

theorem claimed_over {xp : InodeId} {dev numb : ℕ} (hs : Sane s) (hfree : (s.inodes xp).count = 0)
    (hnew : ∀ i, (s.inodes i).count ≠ 0 → (s.inodes i).dev = dev → (s.inodes i).num ≠ numb)
    (hdev : KnownDev s dev) (hnumb : numb < 65536) :
    Over (holding (some xp)) s (claimed xp dev numb s) := by
  have hother {i : InodeId} (hi : i ≠ xp) : (claimed xp dev numb s).inodes i = s.inodes i :=
    update_of_ne hi ..
  have hself : (claimed xp dev numb s).inodes xp =
      { s.inodes xp with dev := dev, num := numb, count := 1 } := update_self ..
  constructor
  · refine ⟨⟨hs.cache, hs.driver, hs.root, hs.maps⟩, fun i => ?_, fun i hi => ?_, fun i hi => ?_,
      fun i j hi hj hd hn => ?_⟩
    all_goals rcases eq_or_ne i xp with rfl | hne
    · rw [hself]
      exact Int.one_nonneg
    · rw [hother hne]
      exact hs.nonneg i
    · rw [hself]
      exact ⟨hdev, hnumb⟩
    · rw [hother hne] at hi ⊢
      exact hs.known i hi
    · rw [hself] at hi
      exact absurd hi one_ne_zero
    · rw [hother hne] at hi ⊢
      exact hs.idle i hi
    · rcases eq_or_ne j i with rfl | hj'
      · rfl
      · rw [hself, hother hj'] at hd hn
        rw [hother hj'] at hj
        exact absurd hn.symm (hnew j hj hd.symm)
    · rcases eq_or_ne j xp with rfl | hj'
      · rw [hself, hother hne] at hd hn
        rw [hother hne] at hi
        exact absurd hn (hnew i hi hd)
      · rw [hother hne, hother hj'] at hd hn
        rw [hother hne] at hi
        rw [hother hj'] at hj
        exact hs.unique i j hi hj hd hn
  · intro i
    rcases eq_or_ne i xp with rfl | hne
    · rw [hself, hfree, holding, if_pos rfl]
      rfl
    · rw [hother hne, holding, if_neg fun h => hne (Option.some.inj h).symm]
      simp
  · intro i hi
    rcases eq_or_ne i xp with rfl | hne
    · exact absurd hfree hi
    · rw [hother hne]
      exact ⟨rfl, rfl⟩
  · intro i
    rcases eq_or_ne i xp with rfl | hne
    · rw [hself]
    · rw [hother hne]
  · exact fun _ => rfl
  · rfl
  · rfl
  · rfl

/-- An inode in use is used once more. -/
theorem dupInode_over (hs : Sane s) (hr : (s.inodes r).count ≠ 0) :
    Surely (dupInode r) s fun _ s' => Over (holding (some r)) s s' := by
  have hpos : 0 < (s.inodes r).count := lt_of_le_of_ne (hs.nonneg r) (Ne.symm hr)
  have hrest (i : InodeId) : SameInode
      { update s.inodes r { s.inodes r with count := (s.inodes r).count + 1 } i with
        count := (s.inodes i).count } (s.inodes i) := by
    rcases eq_or_ne i r with rfl | hne
    · rw [update_self]
      exact ⟨rfl, rfl, rfl, rfl, id⟩
    · rw [update_of_ne hne]
      exact ⟨rfl, rfl, rfl, rfl, id⟩
  have hcount (i : InodeId) :
      (update s.inodes r { s.inodes r with count := (s.inodes r).count + 1 } i).count =
        (s.inodes i).count + holding (some r) i := by
    rcases eq_or_ne i r with rfl | hne
    · rw [update_self, holding, if_pos rfl]
      rfl
    · rw [update_of_ne hne, holding, if_neg fun h => hne (Option.some.inj h).symm]
      simp
  have hused (i : InodeId)
      (h : (s.inodes i).count + (holding (some r) i : ℤ) = 0) : (s.inodes i).count = 0 := by
    have := hs.nonneg i
    omega
  have hstill (i : InodeId) (h : (update s.inodes r
      { s.inodes r with count := (s.inodes r).count + 1 } i).count ≠ 0) : (s.inodes i).count ≠ 0 := by
    intro hzero
    rcases eq_or_ne i r with rfl | hne
    · exact hr hzero
    · rw [hcount, holding, if_neg fun h => hne (Option.some.inj h).symm, hzero] at h
      exact h rfl
  unfold dupInode
  rw [Surely, wp_modInode]
  refine ⟨⟨⟨hs.cache, hs.driver, hs.root, hs.maps⟩, fun i => ?_, fun i hi => ?_, fun i hi => ?_,
    fun i j hi hj hd hn => ?_⟩, hcount, fun i _ => ⟨(hrest i).dev, (hrest i).num⟩,
    fun i => (hrest i).mount, fun _ => rfl, rfl, rfl, rfl⟩
  · rw [hcount]
    have := hs.nonneg i
    positivity
  · have hdev := (hrest i).dev
    have hnum := (hrest i).num
    dsimp only at hdev hnum ⊢
    rw [hdev, hnum]
    exact hs.known i (hstill i hi)
  · rw [hcount] at hi
    obtain ⟨hpipe, hmount⟩ := hs.idle i (hused i hi)
    have hm := (hrest i).mount
    dsimp only at hm ⊢
    rw [hm]
    exact ⟨Bool.eq_false_iff.mpr fun hp => absurd ((hrest i).pipe hp) (by simp [hpipe]), hmount⟩
  · have hdi := (hrest i).dev
    have hdj := (hrest j).dev
    have hni := (hrest i).num
    have hnj := (hrest j).num
    dsimp only at hdi hdj hni hnj hd hn
    rw [hdi, hdj] at hd
    rw [hni, hnj] at hn
    exact hs.unique i j (hstill i hi) (hstill j hj) hd hn

/-- No slot of the inode table is free. -/
def TableFull (s : FsState) : Prop := ∀ i, (s.inodes i).count ≠ 0

/-- `get_inode` acquires one reference to the inode that is asked for, or none to any when the table is full. -/
theorem getInode_over {dev numb : ℕ} (hs : Sane s) (hdev : KnownDev s dev) (hnumb : numb < 65536) :
    Surely (getInode dev numb) s fun x s' => Over (holding x) s s' ∧
      (x = none → s'.g.errCode = ENFILE ∧ TableFull s') ∧
      ∀ i, x = some i → (s'.inodes i).dev = dev ∧ (s'.inodes i).num = numb := by
  unfold getInode
  simp only [Surely, wp_bind, wp_get]
  split
  next rip hfound =>
    have hrip : 0 < (s.inodes rip).count ∧ (s.inodes rip).dev = dev ∧ (s.inodes rip).num = numb := by
      simpa using List.find?_some hfound
    rw [wp_bind]
    refine (dupInode_over hs (ne_of_gt hrip.1)).mono fun _ s' h => ?_
    refine ⟨h, by simp, fun i hi => ?_⟩
    obtain rfl := Option.some.inj hi
    obtain ⟨hdev', hnum'⟩ := h.ident rip (ne_of_gt hrip.1)
    rw [hdev', hnum']
    exact hrip.2
  next hnone =>
    have hnew : ∀ i, (s.inodes i).count ≠ 0 → (s.inodes i).dev = dev → (s.inodes i).num ≠ numb := by
      intro i hi hd hn
      have hnot := List.find?_eq_none.mp hnone i (List.mem_finRange i)
      have hpos : 0 < (s.inodes i).count := lt_of_le_of_ne (hs.nonneg i) (Ne.symm hi)
      exact hnot (decide_eq_true ⟨hpos, hd, hn⟩)
    split
    next hfull =>
      simp only [wp_bind, wp_setErr, wp_pure]
      rw [holding_none]
      refine ⟨⟨?_, fun _ => by simp, fun _ _ => ⟨rfl, rfl⟩, fun _ => rfl, fun _ => rfl, rfl, rfl, rfl⟩,
        fun _ => ⟨trivial, fun i hzero => ?_⟩, by simp⟩
      case refine_2 =>
        have hused := List.find?_eq_none.mp hfull i (List.mem_reverse.mpr (List.mem_finRange i))
        have hzero : (s.inodes i).count = 0 := hzero
        exact hused (decide_eq_true hzero.le)
      exact ⟨⟨hs.cache, hs.driver, hs.root, hs.maps⟩, hs.nonneg, hs.known, hs.idle, hs.unique⟩
    next xp hfree =>
      have hzero : (s.inodes xp).count = 0 := by
        have hle : (s.inodes xp).count ≤ 0 := by simpa using List.find?_some hfree
        exact le_antisymm hle (hs.nonneg xp)
      have hclaimed := claimed_over hs hzero hnew hdev hnumb
      simp only [wp_bind, wp_modInode]
      rw [if_pos hdev.1, wp_bind]
      have hself : (claimed xp dev numb s).inodes xp =
          { s.inodes xp with dev := dev, num := numb, count := 1 } := update_self ..
      have hknown : KnownDev (claimed xp dev numb s) ((claimed xp dev numb s).inodes xp).dev := by
        rw [hself]
        exact hdev
      have hread : (custody (fun _ => False) true xp (claimed xp dev numb s)).Keeps none (do
          rwInode xp .reading
          modInode xp fun x => { x with update := 0 }) :=
        Passes.bind (rwInode_keeps hclaimed.sane.toFurnished hknown) fun _ =>
          modInode_keeps fun _ => ⟨rfl, rfl, rfl, rfl, id⟩
      have hrun := Passes.over hread hclaimed.sane
      rw [Surely, wp_bind] at hrun
      refine hrun.mono fun _ s₁ h1 => ?_
      simp only [wp_bind]
      refine Wp.mono h1 fun _ s₂ h2 => ?_
      have hover := hclaimed.trans h2.2 hs
      rw [add_zero] at hover
      refine ⟨hover, by simp, fun i hi => ?_⟩
      obtain rfl := Option.some.inj hi
      rw [(h2.1.inode xp).dev, (h2.1.inode xp).num, hself]
      exact ⟨rfl, rfl⟩

/-! ## §3 `put_inode` -/

/-- A reference has been released: nothing else that identifies the inodes in use has changed. -/
structure Released (r : InodeId) (s s' : FsState) : Prop where
  sane : Sane s'
  count : ∀ i, (s.inodes i).count = (s'.inodes i).count + holding (some r) i
  others : ∀ i, i ≠ r → s'.inodes i = s.inodes i
  self : (s'.inodes r).dev = (s.inodes r).dev ∧ (s'.inodes r).num = (s.inodes r).num ∧
    (s'.inodes r).mount = (s.inodes r).mount
  super : ∀ sp, SameSuper (s'.supers sp) (s.supers sp)
  filps : s'.filps = s.filps
  fprocs : s'.fprocs = s.fprocs
  globals : s'.g = { s.g with errCode := s'.g.errCode, tick := s'.g.tick }
  err : s'.g.errCode = s.g.errCode

theorem Released.ident (h : Released r s₀ s) (i : InodeId) :
    (s.inodes i).dev = (s₀.inodes i).dev ∧ (s.inodes i).num = (s₀.inodes i).num ∧
      (s.inodes i).mount = (s₀.inodes i).mount := by
  rcases eq_or_ne i r with rfl | hi
  · exact h.self
  · rw [h.others i hi]
    exact ⟨rfl, rfl, rfl⟩

/-- The count of an inode in use, one less. -/
def lessCount (r : InodeId) (s : FsState) : FsState :=
  { s with
    inodes := update s.inodes r { s.inodes r with count := (s.inodes r).count - 1 } }

theorem Custody.released {t : FsState} (h : Custody true r (lessCount r s) none t) (hs : Sane s)
    (hused : (s.inodes r).count ≠ 0) (hmount : (s.inodes r).mount = true → 1 < (s.inodes r).count)
    (hpipe : (s.inodes r).count = 1 → (t.inodes r).pipe = false) : Released r s t := by
  have hbase : Furnished (lessCount r s) := ⟨hs.cache, hs.driver, hs.root, hs.maps⟩
  have hself : (lessCount r s).inodes r = { s.inodes r with count := (s.inodes r).count - 1 } :=
    update_self ..
  have hother {i : InodeId} (hi : i ≠ r) : t.inodes i = s.inodes i := by
    rw [h.others i hi]
    exact update_of_ne hi ..
  have hcount : (t.inodes r).count = (s.inodes r).count - 1 := by
    rw [h.self.count, hself]
  have hpos : 0 < (s.inodes r).count := lt_of_le_of_ne (hs.nonneg r) (Ne.symm hused)
  have hident : (t.inodes r).dev = (s.inodes r).dev ∧ (t.inodes r).num = (s.inodes r).num ∧
      (t.inodes r).mount = (s.inodes r).mount := by
    rw [h.self.dev, h.self.num, h.self.mount, hself]
    exact ⟨rfl, rfl, rfl⟩
  constructor
  · refine ⟨h.furnished hbase, fun i => ?_, fun i hi => ?_, fun i hi => ?_, fun i j hi hj hd hn => ?_⟩
    rotate_right
    · have hsame (k : InodeId) : (t.inodes k).dev = (s.inodes k).dev ∧
          (t.inodes k).num = (s.inodes k).num ∧ ((t.inodes k).count ≠ 0 → (s.inodes k).count ≠ 0) := by
        rcases eq_or_ne k r with rfl | hne
        · exact ⟨hident.1, hident.2.1, fun _ => hused⟩
        · rw [hother hne]
          exact ⟨rfl, rfl, id⟩
      rw [(hsame i).1, (hsame j).1] at hd
      rw [(hsame i).2.1, (hsame j).2.1] at hn
      exact hs.unique i j ((hsame i).2.2 hi) ((hsame j).2.2 hj) hd hn
    all_goals rcases eq_or_ne i r with rfl | hne
    · rw [hcount]
      exact Int.sub_nonneg_of_le hpos
    · rw [hother hne]
      exact hs.nonneg i
    · rw [hident.1, hident.2.1]
      exact ⟨h.knownDev (hs.known i hused).1, (hs.known i hused).2⟩
    · rw [hother hne] at hi ⊢
      exact ⟨h.knownDev (hs.known i hi).1, (hs.known i hi).2⟩
    · have hlast : (s.inodes i).count = 1 := by
        rw [hcount] at hi
        omega
      refine ⟨hpipe hlast, ?_⟩
      rw [hident.2.2]
      exact Bool.eq_false_iff.mpr fun hm => absurd (hmount hm) (by rw [hlast]; decide)
    · rw [hother hne] at hi ⊢
      exact hs.idle i hi
  · intro i
    rcases eq_or_ne i r with rfl | hne
    · rw [hcount, holding, if_pos rfl]
      simp
    · rw [hother hne, holding, if_neg fun he => hne (Option.some.inj he).symm]
      simp
  · exact fun i hi => hother hi
  · exact hident
  · exact h.super
  · exact h.filps
  · exact h.fprocs
  · exact h.globals
  · exact h.err rfl

/-- What `put_inode` does to an inode that is no longer used, when it has been freed if it has no
    links. -/
theorem rest_surely (h0 : Furnished s₀) (hr : KnownDev s₀ (s₀.inodes r).dev) (h : Custody true r s₀ none s) :
    Surely (do
      modInode r fun x => { x with pipe := false }
      if (← readInode r).dirt then rwInode r .writing) s fun _ s' =>
        Custody true r s₀ none s' ∧ (s'.inodes r).pipe = false := by
  simp only [Surely, wp_bind, wp_modInode, wp_readInode]
  have hcleared : Custody true r s₀ none
      { s with inodes := update s.inodes r { s.inodes r with pipe := false } } := by
    have hkeeps : (custody (fun _ => False) true r s₀).Keeps none
        (modInode r fun x => { x with pipe := false }) :=
      modInode_keeps fun _ => ⟨rfl, rfl, rfl, rfl, by simp⟩
    exact (hkeeps s h).1
  have hpipe : (update s.inodes r { s.inodes r with pipe := false } r).pipe = false := by
    rw [update_self]
  refine wp_ite (fun _ => ?_) fun _ => ⟨hcleared, hpipe⟩
  -- the inode is written in a state in which it is no pipe
  have hknown := hcleared.knownDev hr
  rw [← hcleared.self.dev] at hknown
  refine Wp.mono (rwInode_keeps (q := true) (hcleared.furnished h0) hknown _ (.refl r (hcleared.furnished h0))) ?_
  rintro _ s' ⟨hwritten, -⟩
  refine ⟨hcleared.trans hwritten, Bool.eq_false_iff.mpr fun hp => ?_⟩
  exact absurd (hwritten.self.pipe hp) (by simp)

/-- `put_inode` works on the inode that is released. -/
theorem putInodeId_custody (hs : Furnished s) (hr : KnownDev s (s.inodes r).dev)
    (hnum : (s.inodes r).num < 65536) :
    Surely (putInodeId r) s fun _ s' => Custody true r (lessCount r s) none s' ∧
      ((s.inodes r).count = 1 → (s'.inodes r).pipe = false) := by
  have hbase : Furnished (lessCount r s) := ⟨hs.cache, hs.driver, hs.root, hs.maps⟩
  have hself : (lessCount r s).inodes r = { s.inodes r with count := (s.inodes r).count - 1 } :=
    update_self ..
  have hknown : KnownDev (lessCount r s) ((lessCount r s).inodes r).dev := by
    rw [hself]
    exact hr
  have hstart : Custody true r (lessCount r s) none (lessCount r s) := .refl r hbase
  have hunused : (custody (fun _ => False) true r (lessCount r s)).Keeps none
      (modInode r fun x => { x with mode := 0 }) :=
    modInode_keeps fun _ => ⟨rfl, rfl, rfl, rfl, id⟩
  unfold putInodeId
  simp only [Surely, wp_bind, wp_modInode, wp_readInode]
  refine wp_ite (fun _ => ?_) fun hmore => ?_
  · refine wp_ite (fun _ => ?_) fun _ => ?_
    · rw [wp_bind]
      refine Wp.mono (truncate_keeps hbase hknown _ hstart) ?_
      rintro _ s₁ ⟨h1, -⟩
      rw [wp_bind]
      refine Wp.mono (hunused s₁ h1) ?_
      rintro _ s₂ ⟨h2, -⟩
      rw [wp_bind]
      refine Wp.mono (freeInode_keeps hbase hknown ?_ s₂ h2) ?_
      · rw [update_self]
        exact hnum
      · rintro _ s₃ ⟨h3, -⟩
        exact (rest_surely hbase hknown h3).mono fun _ _ h => ⟨h.1, fun _ => h.2⟩
    · refine wp_join (Custody true r (lessCount r s) none) hstart (fun s₁ h1 => ?_) fun _ hrest => ?_
      · exact (rest_surely hbase hknown h1).mono fun _ _ h => ⟨h.1, fun _ => h.2⟩
      · rw [wp_bind]
        exact Wp.mono (truncate_keeps hbase hknown _ hstart) fun _ s₁ h1 => hrest s₁ h1.1
  · rw [update_self] at hmore
    refine ⟨hstart, fun hone => ?_⟩
    exact absurd (by rw [hone]; rfl) hmore

/-- `put_inode` releases one reference. -/
theorem putInodeId_releases (hs : Sane s) (hused : (s.inodes r).count ≠ 0)
    (hmount : (s.inodes r).mount = true → 1 < (s.inodes r).count) :
    Surely (putInodeId r) s fun _ s' => Released r s s' := by
  obtain ⟨hknown, hnum⟩ := hs.known r hused
  refine (putInodeId_custody hs.toFurnished hknown hnum).mono ?_
  rintro _ s' ⟨hcustody, hpipe⟩
  exact hcustody.released hs hused hmount hpipe

/-- A reference that has been acquired since `s₀` is released. -/
theorem Over.put (h : Over (d + holding (some r)) s₀ s) (h0 : Sane s₀) :
    Surely (putInodeId r) s fun _ s' => Over d s₀ s' ∧ Released r s s' := by
  have hcount := h.count r
  rw [Pi.add_apply, holding, if_pos rfl] at hcount
  have hnonneg := h0.nonneg r
  have hused : (s.inodes r).count ≠ 0 := by
    push_cast at hcount
    omega
  have hmount : (s.inodes r).mount = true → 1 < (s.inodes r).count := by
    intro hm
    rw [h.mount] at hm
    have hpos : (s₀.inodes r).count ≠ 0 := by
      intro hzero
      rw [(h0.idle r hzero).2] at hm
      exact absurd hm (by decide)
    push_cast at hcount
    omega
  refine (putInodeId_releases h.sane hused hmount).mono fun _ s' hput => ⟨?_, hput⟩
  constructor
  · exact hput.sane
  · intro i
    have hi := h.count i
    rw [hput.count i, Pi.add_apply] at hi
    push_cast at hi
    omega
  · intro i hi
    obtain ⟨hdev, hnum⟩ := h.ident i hi
    rw [(hput.ident i).1, (hput.ident i).2.1]
    exact ⟨hdev, hnum⟩
  · exact fun i => (hput.ident i).2.2.trans (h.mount i)
  · exact fun sp => (hput.super sp).trans (h.super sp)
  · exact hput.filps.trans h.filps
  · exact hput.fprocs.trans h.fprocs
  · rw [hput.globals, h.globals]

end

end LisaMinix.Fs.Server
