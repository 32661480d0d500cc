import LisaMinix.Tools.FsCheck

/-!
# What a Clean Image Is

The documentation of `minixfs.py` lists what the checker reports.  `Sound` states that none of it is
the case for the tree below the root; `Plain` says about which images the checker is right.

- `Claims`, `Entered`, `Visited`: what a part of the walk did if it reported nothing.
- `WalkInv`: the invariant of the walk, kept by a visit (`WalkInv.visit`) and by the loop
  (`WalkInv.walk`).
- `check_sound_iff`: a clean image is sound if and only if it is plain.
-/

namespace LisaMinix.Tools.FsCheck

open Function

open Walk

variable {fs : Fs} {n who : Word} {w w' : Walk} {l : List Word} {ino : DiskInode}
  {z : List Word × List Word}

/-! ## §1 The Tree Below the Root -/

/-- The directory entries of an inode. -/
def Fs.entriesOf (fs : Fs) (n : Word) : List (Word × Fs.Name) :=
  match fs.inode n with
  | some ino => if ino.isDirectory then (fs.dirEntries ino).getD [] else []
  | none => []

/-- The zones of an inode, the indirect ones among them. -/
def Fs.zonesOf (fs : Fs) (n : Word) : List Word :=
  match fs.inode n with
  | some ino =>
    if ino.hasZones then (((fs.zones ino).getD ([], [])).1 ++ ((fs.zones ino).getD ([], [])).2).filter (· ≠ 0)
    else []
  | none => []

def Fs.IsDir (fs : Fs) (n : Word) : Prop := ∃ ino, fs.inode n = some ino ∧ ino.isDirectory

/-- A name that leads to a child. -/
def Proper (name : Fs.Name) : Prop := name ≠ dot ∧ name ≠ dotdot

instance (name : Fs.Name) : Decidable (Proper name) := inferInstanceAs (Decidable (_ ∧ _))

/-- The inodes in use: the root and what the directories in use name. -/
inductive Reach (fs : Fs) : Word → Prop
  | root : Reach fs 1
  | entry {d n : Word} {name : Fs.Name} (hd : Reach fs d) (he : (n, name) ∈ fs.entriesOf d)
      (hn : Proper name) : Reach fs n

/-- `Parent fs p n`: `n` is a child of `p`.  The root is its own parent. -/
inductive Parent (fs : Fs) : Word → Word → Prop
  | root : Parent fs 1 1
  | entry {d n : Word} {name : Fs.Name} (hd : Reach fs d) (he : (n, name) ∈ fs.entriesOf d)
      (hn : Proper name) : Parent fs d n

theorem Parent.reach {p : Word} (h : Parent fs p n) : Reach fs n := by
  cases h with
  | root => exact .root
  | entry hd he hn => exact .entry hd he hn

theorem Reach.parent (h : Reach fs n) : ∃ p, Parent fs p n := by
  cases h with
  | root => exact ⟨1, .root⟩
  | entry hd he hn => exact ⟨_, .entry hd he hn⟩

/-- In directory `d` the name stands for inode `m` and for no other. -/
def Denotes (fs : Fs) (d : Word) (name : Fs.Name) (m : Word) : Prop :=
  (m, name) ∈ fs.entriesOf d ∧ ∀ m', (m', name) ∈ fs.entriesOf d → m' = m

def Fs.inRange (fs : Fs) (z : Word) : Prop := fs.firstdatazone ≤ z.val ∧ z.val < fs.nzones

open Classical in
/-- The number of directory entries that name an inode. -/
noncomputable def entryCount (fs : Fs) (n : Word) : ℕ :=
  ∑ d with Reach fs d, (fs.entriesOf d).countP (·.1 = n)

/-- The conditions in the documentation of the checker. -/
structure Sound (fs : Fs) : Prop where
  inodeMarked : ∀ n, Reach fs n → fs.bit 2 n.val = some true
  inodeUsed : ∀ n : Word, 1 ≤ n.val → n.val ≤ fs.ninodes → fs.bit 2 n.val = some true → Reach fs n
  zoneMarked : ∀ n, Reach fs n → ∀ z ∈ fs.zonesOf n, fs.inRange z ∧ fs.zoneBit z.val = some true
  zoneUsed : ∀ z, fs.inRange z → fs.zoneBit z.val = some true → ∃ n, Reach fs n ∧ z ∈ fs.zonesOf n
  zoneOnce : ∀ n, Reach fs n → (fs.zonesOf n).Nodup
  zoneAlone : ∀ n m, Reach fs n → Reach fs m → n ≠ m → (fs.zonesOf n).Disjoint (fs.zonesOf m)
  links : ∀ n ino, Reach fs n → fs.inode n = some ino → ino.nlinks = entryCount fs n
  dots : ∀ n, Reach fs n → fs.IsDir n → Denotes fs n dot n ∧ ∀ p, Parent fs p n → Denotes fs n dotdot p
  sizes : ∀ n ino z, Reach fs n → fs.inode n = some ino → ino.hasZones → fs.zones ino = some z →
    ino.size ≤ blockSize * z.1.length

/-- The number of zones that the zone fields of an inode give room for. -/
def DiskInode.mapBlocks (ino : DiskInode) : ℕ :=
  nrDzone + (if ino.zone nrDzone ≠ 0 then nrIndirects else 0) +
    (if ino.zone (nrDzone + 1) ≠ 0 then nrIndirects * nrIndirects else 0)

/-- No file ends beyond its zone map, no directory has two parents, and no directory has two
    entries `.` or two entries `..` that differ. -/
structure Plain (fs : Fs) : Prop where
  sizes : ∀ n ino, Reach fs n → fs.inode n = some ino → ino.hasZones →
    ino.size ≤ blockSize * ino.mapBlocks
  tree : ∀ n p q, fs.IsDir n → Parent fs p n → Parent fs q n → p = q
  dots : ∀ n a b name, Reach fs n → ¬Proper name → (a, name) ∈ fs.entriesOf n →
    (b, name) ∈ fs.entriesOf n → a = b

/-! ## §2 Claims -/

/-- `l` is what a part of the walk claimed, without a problem. -/
structure Claims (fs : Fs) (l : List Word) (w w' : Walk) : Prop where
  clean : w.problems = []
  range : ∀ z ∈ l, fs.inRange z
  nodup : l.Nodup
  fresh : ∀ z ∈ l, w.zoneOwner z = none
  owner : ∀ z, (w'.zoneOwner z).isSome ↔ (w.zoneOwner z).isSome ∨ z ∈ l
  rest : w'.usedInodes = w.usedInodes ∧ w'.links = w.links ∧ w'.stack = w.stack ∧ w'.seen = w.seen

theorem Claims.nil (fs : Fs) (h : w.problems = []) : Claims fs [] w w where
  clean := h
  range := by simp
  nodup := List.nodup_nil
  fresh := by simp
  owner := by simp
  rest := ⟨rfl, rfl, rfl, rfl⟩

theorem Claims.append {l' : List Word} {w'' : Walk} (h : Claims fs l w w')
    (h' : Claims fs l' w' w'') : Claims fs (l ++ l') w w'' where
  clean := h.clean
  range := fun z hz => (List.mem_append.mp hz).elim (h.range z) (h'.range z)
  nodup := by
    refine List.nodup_append'.mpr ⟨h.nodup, h'.nodup, ?_⟩
    intro z hz hz'
    have howned := (h.owner z).mpr (Or.inr hz)
    rw [h'.fresh z hz'] at howned
    simp at howned
  fresh := by
    intro z hz
    rcases List.mem_append.mp hz with hz | hz
    · exact h.fresh z hz
    · have hnone := h'.fresh z hz
      by_contra hs
      have howned := (h.owner z).mpr (Or.inl (Option.isSome_iff_ne_none.mpr hs))
      rw [hnone] at howned
      simp at howned
  owner := by
    intro z
    rw [h'.owner, h.owner, List.mem_append, or_assoc]
  rest := by
    obtain ⟨h1, h2, h3, h4⟩ := h.rest
    obtain ⟨h1', h2', h3', h4'⟩ := h'.rest
    exact ⟨h1'.trans h1, h2'.trans h2, h3'.trans h3, h4'.trans h4⟩

theorem report_problems (w : Walk) (p : Problem) : (w.report p).problems ≠ [] := by
  simp [Walk.report]

theorem claim_claims {z : Word} (h : (claim fs who w z).problems = []) :
    Claims fs ([z].filter (· ≠ 0)) w (claim fs who w z) := by
  unfold claim at h ⊢
  split at h
  next hz =>
    rw [if_pos hz]
    simpa [hz] using Claims.nil fs h
  next hz =>
    rw [if_neg hz]
    split at h
    next => exact absurd h (report_problems _ _)
    next hr =>
      rw [if_neg hr]
      cases ho : w.zoneOwner z with
      | some first => rw [ho] at h; exact absurd h (report_problems _ _)
      | none =>
        rw [ho] at h
        have hmem : [z].filter (· ≠ 0) = [z] := by simp [hz]
        rw [hmem]
        refine ⟨h, ?_, List.nodup_singleton z, ?_, ?_, rfl, rfl, rfl, rfl⟩
        · intro x hx
          obtain rfl := List.mem_singleton.mp hx
          exact ⟨by omega, by omega⟩
        · intro x hx
          rwa [List.mem_singleton.mp hx]
        · intro x
          dsimp only
          by_cases hx : x = z
          · simp [hx]
          · simp [hx]

theorem foldl_claim_claims (h : (l.foldl (claim fs who) w).problems = []) :
    Claims fs (l.filter (· ≠ 0)) w (l.foldl (claim fs who) w) := by
  induction l generalizing w with
  | nil => exact Claims.nil fs h
  | cons z l ih =>
    have hl := ih h
    have hz := claim_claims hl.clean
    rw [← List.singleton_append, List.filter_append]
    exact hz.append hl

/-- A zone beyond the size is always a problem. -/
theorem foldl_claimBeyond (h : (l.foldl (claimBeyond fs who) w).problems = []) :
    l.filter (· ≠ 0) = [] ∧ l.foldl (claimBeyond fs who) w = w := by
  induction l generalizing w with
  | nil => exact ⟨rfl, rfl⟩
  | cons z l ih =>
    obtain ⟨hl, heq⟩ := ih h
    rw [List.foldl_cons] at h ⊢
    rw [heq] at h ⊢
    unfold claimBeyond at h ⊢
    split at h
    next => exact absurd (claim_claims h).clean (report_problems _ _)
    next hz =>
      have hz : z = 0 := not_not.mp hz
      simpa [hz] using hl

theorem claimZones_claims (hw : w.claimZones fs n ino = some w') (h : w'.problems = []) :
    ∃ z, fs.zones ino = some z ∧ Claims fs ((z.1 ++ z.2).filter (· ≠ 0)) w w' := by
  obtain ⟨⟨z, ind⟩, hz, rfl⟩ := Option.map_eq_some_iff.mp hw
  refine ⟨(z, ind), hz, ?_⟩
  dsimp only at h ⊢
  -- From the end: the indirect zones, nothing beyond the size, and the zones of the data.
  have hind := foldl_claim_claims h
  obtain ⟨hbeyond, heq⟩ := foldl_claimBeyond hind.clean
  rw [heq] at hind h ⊢
  have hdata := foldl_claim_claims hind.clean
  have hsplit : z.filter (· ≠ 0) =
      (z.take ((ino.size + blockSize - 1) / blockSize)).filter (· ≠ 0) := by
    conv_lhs => rw [← List.take_append_drop ((ino.size + blockSize - 1) / blockSize) z]
    rw [List.filter_append, hbeyond, List.append_nil]
  rw [List.filter_append, hsplit]
  exact hdata.append hind

/-! ## §3 Entries -/

/-- What the loop over the entries of directory `n` did, without a problem. -/
structure Entered (fs : Fs) (n : Word) (es : List (Word × Fs.Name))
    (st st' : Walk × (Fs.Name → Option Word)) : Prop where
  clean : st.1.problems = []
  bound : ∀ e ∈ es, e.1.val ≤ fs.ninodes
  links : ∀ m, st'.1.links m = st.1.links m + es.countP (·.1 = m)
  stack : st'.1.stack = ((es.filter (Proper ·.2)).map fun e => (e.1, n)).reverse ++ st.1.stack
  names : ∀ name m, st'.2 name = some m → st.2 name = some m ∨ (m, name) ∈ es
  rest : st'.1.usedInodes = st.1.usedInodes ∧ st'.1.zoneOwner = st.1.zoneOwner ∧ st'.1.seen = st.1.seen

theorem enter_entered {st : Walk × (Fs.Name → Option Word)} {e : Word × Fs.Name}
    (h : (enter fs n st e).1.problems = []) : Entered fs n [e] st (enter fs n st e) := by
  obtain ⟨w, names⟩ := st
  unfold enter at h ⊢
  dsimp only at h ⊢
  split at h
  next => exact absurd h (report_problems _ _)
  next hb =>
    rw [if_neg hb]
    have hlinks : ∀ m, update w.links e.1 (w.links e.1 + 1) m =
        w.links m + [e].countP (·.1 = m) := by
      intro m
      by_cases hm : e.1 = m
      · subst hm
        simp
      · simp [update_of_ne (Ne.symm hm), hm]
    have hnames : ∀ name m, update names e.2 (some e.1) name = some m →
        names name = some m ∨ (m, name) ∈ [e] := by
      intro name m hname
      by_cases heq : name = e.2
      · subst heq
        rw [update_self] at hname
        exact Or.inr (by simp [← Option.some.inj hname])
      · rw [update_of_ne heq] at hname
        exact Or.inl hname
    have hbound : ∀ x ∈ [e], x.1.val ≤ fs.ninodes := by
      intro x hx
      rw [List.mem_singleton.mp hx]
      omega
    split at h
    next hp =>
      have hp' : Proper e.2 := hp
      rw [if_pos hp]
      exact ⟨h, hbound, hlinks, by simp [hp'], hnames, rfl, rfl, rfl⟩
    next hp =>
      have hp' : ¬Proper e.2 := hp
      rw [if_neg hp]
      exact ⟨h, hbound, hlinks, by simp [hp'], hnames, rfl, rfl, rfl⟩

theorem foldl_enter_entered {es : List (Word × Fs.Name)} {st : Walk × (Fs.Name → Option Word)}
    (h : (es.foldl (enter fs n) st).1.problems = []) :
    Entered fs n es st (es.foldl (enter fs n) st) := by
  induction es generalizing st with
  | nil => exact ⟨h, by simp, by simp, by simp, fun _ _ hm => Or.inl hm, rfl, rfl, rfl⟩
  | cons e es ih =>
    have hrest := ih h
    have hfirst := enter_entered hrest.clean
    rw [List.foldl_cons]
    refine ⟨hfirst.clean, ?_, ?_, ?_, ?_, ?_⟩
    · intro x hx
      rcases List.mem_cons.mp hx with rfl | hx
      · exact hfirst.bound x (List.mem_singleton_self x)
      · exact hrest.bound x hx
    · intro m
      rw [hrest.links, hfirst.links, ← List.singleton_append (l := es), List.countP_append,
        Nat.add_assoc]
    · rw [hrest.stack, hfirst.stack, ← List.singleton_append (l := es), List.filter_append,
        List.map_append, List.reverse_append, List.append_assoc]
    · intro name m hm
      rcases hrest.names name m hm with hm | hm
      · rcases hfirst.names name m hm with hm | hm
        · exact Or.inl hm
        · exact Or.inr (List.mem_cons.mpr (Or.inl (List.mem_singleton.mp hm)))
      · exact Or.inr (List.mem_cons_of_mem _ hm)
    · obtain ⟨h1, h2, h3⟩ := hfirst.rest
      obtain ⟨h1', h2', h3'⟩ := hrest.rest
      exact ⟨h1'.trans h1, h2'.trans h2, h3'.trans h3⟩

/-- The children of a directory, as they are put on the stack. -/
def children (fs : Fs) (n : Word) : List (Word × Word) :=
  (((fs.entriesOf n).filter (Proper ·.2)).map fun e => (e.1, n)).reverse

/-- What a visit of inode `n` did, without a problem. -/
structure Visited (fs : Fs) (n parent : Word) (w w' : Walk) : Prop where
  clean : w.problems = []
  used : ∃ ino, fs.inode n = some ino ∧ w'.usedInodes = w.usedInodes ++ [(n, ino)]
  mapped : ∀ ino, fs.inode n = some ino → ino.hasZones → ∃ z, fs.zones ino = some z
  seen : w'.seen = insert n w.seen
  range : ∀ z ∈ fs.zonesOf n, fs.inRange z
  nodup : (fs.zonesOf n).Nodup
  fresh : ∀ z ∈ fs.zonesOf n, w.zoneOwner z = none
  owner : ∀ z, (w'.zoneOwner z).isSome ↔ (w.zoneOwner z).isSome ∨ z ∈ fs.zonesOf n
  links : ∀ m, w'.links m = w.links m + (fs.entriesOf n).countP (·.1 = m)
  stack : w'.stack = children fs n ++ w.stack
  dots : fs.IsDir n → (n, dot) ∈ fs.entriesOf n ∧ (parent, dotdot) ∈ fs.entriesOf n

variable {parent : Word}

theorem enterAll_entered (hw : w.enterAll fs n parent ino = some w') (h : w'.problems = []) :
    ∃ es names, fs.dirEntries ino = some es ∧ Entered fs n es (w, fun _ => none) (w', names) ∧
      (n, dot) ∈ es ∧ (parent, dotdot) ∈ es := by
  obtain ⟨es, hes, rfl⟩ := Option.map_eq_some_iff.mp hw
  dsimp only at h ⊢
  split at h
  next => exact absurd h (report_problems _ _)
  next hdd =>
    split at h
    next => exact absurd h (report_problems _ _)
    next hd =>
      rw [if_neg hdd, if_neg hd]
      have hent := foldl_enter_entered h
      refine ⟨es, _, hes, hent, ?_, ?_⟩
      · simpa using hent.names dot n (not_not.mp hd)
      · simpa using hent.names dotdot parent (not_not.mp hdd)

/-- A visit does not get past an inode with zones that are not in the image. -/
theorem zones_of_visit (hw : w.visit fs n parent = some w')
    (hino : fs.inode n = some ino) (hz : ino.hasZones) : ∃ z, fs.zones ino = some z := by
  unfold visit at hw
  rw [hino, Option.bind_some, if_pos hz] at hw
  obtain ⟨w₁, hw1, -⟩ := Option.bind_eq_some_iff.mp hw
  obtain ⟨z, hz, -⟩ := Option.map_eq_some_iff.mp hw1
  exact ⟨z, hz⟩

theorem visit_visited (hw : w.visit fs n parent = some w') (h : w'.problems = []) :
    Visited fs n parent w w' := by
  have hmapped : ∀ ino, fs.inode n = some ino → ino.hasZones → ∃ z, fs.zones ino = some z :=
    fun _ => zones_of_visit hw
  unfold visit at hw
  obtain ⟨ino, hino, hw⟩ := Option.bind_eq_some_iff.mp hw
  obtain ⟨w₁, hw1, hw⟩ := Option.bind_eq_some_iff.mp hw
  -- The two halves of the body: first the zones, then the entries.
  have hclaims : w₁.problems = [] → Claims fs (fs.zonesOf n) (w.record n ino) w₁ := by
    intro h1
    unfold Fs.zonesOf
    rw [hino]
    dsimp only
    split at hw1
    next hz =>
      obtain ⟨z, hzones, hclaims⟩ := claimZones_claims hw1 h1
      rw [if_pos hz, hzones]
      exact hclaims
    next hz =>
      rw [if_neg hz]
      rw [← Option.some.inj hw1] at h1 ⊢
      exact Claims.nil fs h1
  have hentered : ∃ names, Entered fs n (fs.entriesOf n) (w₁, fun _ => none) (w', names) ∧
      (fs.IsDir n → (n, dot) ∈ fs.entriesOf n ∧ (parent, dotdot) ∈ fs.entriesOf n) := by
    unfold Fs.entriesOf
    rw [hino]
    dsimp only
    split at hw
    next hd =>
      obtain ⟨es, names, hes, hent, hdot⟩ := enterAll_entered hw h
      rw [if_pos hd, hes]
      exact ⟨names, hent, fun _ => hdot⟩
    next hd =>
      rw [if_neg hd]
      rw [← Option.some.inj hw] at h ⊢
      refine ⟨fun _ => none, ⟨h, by simp, by simp, by simp, by simp, rfl, rfl, rfl⟩, ?_⟩
      rintro ⟨ino', hino', hd'⟩
      rw [hino] at hino'
      exact absurd (Option.some.inj hino' ▸ hd') hd
  obtain ⟨names, hent, hdots⟩ := hentered
  have hcl := hclaims hent.clean
  obtain ⟨hused, hlinks, hstack, hseen⟩ := hcl.rest
  obtain ⟨hused', howner', hseen'⟩ := hent.rest
  refine ⟨hcl.clean, ⟨ino, hino, hused'.trans hused⟩, hmapped, hseen'.trans hseen, hcl.range,
    hcl.nodup, hcl.fresh, ?_, ?_, ?_, hdots⟩
  · intro z
    exact (iff_of_eq (congrArg (fun o => (o z).isSome = true) howner')).trans (hcl.owner z)
  · intro m
    rw [hent.links m]
    dsimp only
    rw [hlinks]
    rfl
  · rw [hent.stack]
    dsimp only
    rw [hstack]
    rfl

/-! ## §4 The Invariant of the Walk -/

/-- What holds between two turns of the loop as long as nothing has been reported. -/
structure WalkInv (fs : Fs) (w : Walk) : Prop where
  used : ∀ u ∈ w.usedInodes, fs.inode u.1 = some u.2
  keys : ∀ n, n ∈ w.seen ↔ ∃ ino, (n, ino) ∈ w.usedInodes
  mapped : ∀ n ∈ w.seen, ∀ ino, fs.inode n = some ino → ino.hasZones → ∃ z, fs.zones ino = some z
  reach : ∀ n ∈ w.seen, Reach fs n
  todo : ∀ e ∈ w.stack, Parent fs e.2 e.1
  root : 1 ∈ w.seen ∨ ∃ p, (1, p) ∈ w.stack
  closed : ∀ d ∈ w.seen, ∀ e ∈ fs.entriesOf d, Proper e.2 → e.1 ∈ w.seen ∨ ∃ p, (e.1, p) ∈ w.stack
  links : ∀ m, w.links m =
    ∑ d ∈ w.seen, (fs.entriesOf d).countP (·.1 = m) + if m = 1 then 1 else 0
  owner : ∀ z, (w.zoneOwner z).isSome ↔ ∃ n ∈ w.seen, z ∈ fs.zonesOf n
  range : ∀ n ∈ w.seen, ∀ z ∈ fs.zonesOf n, fs.inRange z
  nodup : ∀ n ∈ w.seen, (fs.zonesOf n).Nodup
  alone : ∀ n ∈ w.seen, ∀ m ∈ w.seen, n ≠ m → (fs.zonesOf n).Disjoint (fs.zonesOf m)
  dots : ∀ n ∈ w.seen, fs.IsDir n →
    (n, dot) ∈ fs.entriesOf n ∧ ∃ p, Parent fs p n ∧ (p, dotdot) ∈ fs.entriesOf n

theorem WalkInv.start (fs : Fs) : WalkInv fs .start where
  used := by simp [Walk.start]
  keys := by simp [Walk.start]
  mapped := by simp [Walk.start]
  reach := by simp [Walk.start]
  todo := by
    intro e he
    rw [List.mem_singleton.mp he]
    exact .root
  root := Or.inr ⟨1, List.mem_singleton_self _⟩
  closed := by simp [Walk.start]
  links := by simp [Walk.start]
  owner := by simp [Walk.start]
  range := by simp [Walk.start]
  nodup := by simp [Walk.start]
  alone := by simp [Walk.start]
  dots := by simp [Walk.start]

theorem mem_children {x : Word × Word} :
    x ∈ children fs n ↔ ∃ e ∈ fs.entriesOf n, Proper e.2 ∧ x = (e.1, n) := by
  simp only [children, List.mem_reverse, List.mem_map, List.mem_filter, decide_eq_true_eq, and_assoc]
  exact exists_congr fun e => and_congr_right fun _ => and_congr_right fun _ => eq_comm

/-- An inode that has been seen is popped. -/
theorem WalkInv.pop {rest : List (Word × Word)} (h : WalkInv fs w)
    (hs : w.stack = (n, parent) :: rest) (hn : n ∈ w.seen) :
    WalkInv fs { w with stack := rest } where
  used := h.used
  keys := h.keys
  mapped := h.mapped
  reach := h.reach
  todo := fun e he => h.todo e (hs ▸ List.mem_cons_of_mem _ he)
  root := by
    rcases h.root with hr | ⟨p, hp⟩
    · exact Or.inl hr
    · rw [hs] at hp
      rcases List.mem_cons.mp hp with heq | hp
      · exact Or.inl ((Prod.mk.inj heq).1 ▸ hn)
      · exact Or.inr ⟨p, hp⟩
  closed := by
    intro d hd e he hp
    rcases h.closed d hd e he hp with hin | ⟨p, hstack⟩
    · exact Or.inl hin
    · rw [hs] at hstack
      rcases List.mem_cons.mp hstack with heq | hstack
      · exact Or.inl ((Prod.mk.inj heq).1 ▸ hn)
      · exact Or.inr ⟨p, hstack⟩
  links := h.links
  owner := h.owner
  range := h.range
  nodup := h.nodup
  alone := h.alone
  dots := h.dots

/-- An inode that has not been seen is popped and visited. -/
theorem WalkInv.visit {rest : List (Word × Word)} (h : WalkInv fs w)
    (hs : w.stack = (n, parent) :: rest) (hn : n ∉ w.seen)
    (hv : Visited fs n parent { w with stack := rest } w') : WalkInv fs w' := by
  have hparent : Parent fs parent n := h.todo (n, parent) (hs ▸ List.mem_cons_self)
  obtain ⟨ino, hino, hused⟩ := hv.used
  have hmem : ∀ {m}, m ∈ w'.seen ↔ m = n ∨ m ∈ w.seen := by
    intro m
    rw [hv.seen]
    exact Finset.mem_insert
  -- What was to be visited has been visited now or is still to be visited.
  have hnext : ∀ m, (m ∈ w.seen ∨ ∃ p, (m, p) ∈ w.stack) →
      m ∈ w'.seen ∨ ∃ p, (m, p) ∈ w'.stack := by
    rintro m (hm | ⟨p, hp⟩)
    · exact Or.inl (hmem.mpr (Or.inr hm))
    · rw [hs] at hp
      rcases List.mem_cons.mp hp with heq | hp
      · exact Or.inl (hmem.mpr (Or.inl (Prod.mk.inj heq).1))
      · refine Or.inr ⟨p, ?_⟩
        rw [hv.stack]
        exact List.mem_append_right _ hp
  have hapart : ∀ m ∈ w.seen, (fs.zonesOf n).Disjoint (fs.zonesOf m) := by
    intro m hm z hz hz'
    have howned := (h.owner z).mpr ⟨m, hm, hz'⟩
    have hfresh : w.zoneOwner z = none := hv.fresh z hz
    rw [hfresh] at howned
    simp at howned
  refine ⟨?_, ?_, ?_, ?_, ?_, hnext 1 h.root, ?_, ?_, ?_, ?_, ?_, ?_, ?_⟩
  · intro u hu
    rw [hused] at hu
    rcases List.mem_append.mp hu with hu | hu
    · exact h.used u hu
    · rw [List.mem_singleton.mp hu]
      exact hino
  · intro m
    rw [hmem, hused, h.keys]
    dsimp only
    constructor
    · rintro (rfl | ⟨i, hi⟩)
      · exact ⟨ino, List.mem_append_right _ (List.mem_singleton_self _)⟩
      · exact ⟨i, List.mem_append_left _ hi⟩
    · rintro ⟨i, hi⟩
      rcases List.mem_append.mp hi with hi | hi
      · exact Or.inr ⟨i, hi⟩
      · exact Or.inl (Prod.mk.inj (List.mem_singleton.mp hi)).1
  · intro m hm
    rcases hmem.mp hm with rfl | hm
    · exact hv.mapped
    · exact h.mapped m hm
  · intro m hm
    rcases hmem.mp hm with rfl | hm
    · exact hparent.reach
    · exact h.reach m hm
  · intro e he
    rw [hv.stack] at he
    rcases List.mem_append.mp he with he | he
    · obtain ⟨x, hx, hp, rfl⟩ := mem_children.mp he
      exact .entry hparent.reach hx hp
    · exact h.todo e (hs ▸ List.mem_cons_of_mem _ he)
  · intro d hd e he hp
    rcases hmem.mp hd with rfl | hd
    · refine Or.inr ⟨d, ?_⟩
      rw [hv.stack]
      exact List.mem_append_left _ (mem_children.mpr ⟨e, he, hp, rfl⟩)
    · exact hnext e.1 (h.closed d hd e he hp)
  · intro m
    have hold : w.links m = _ := h.links m
    rw [hv.links, hv.seen, Finset.sum_insert hn]
    dsimp only
    rw [hold]
    omega
  · intro z
    have hold : (w.zoneOwner z).isSome ↔ _ := h.owner z
    rw [hv.owner, hold]
    constructor
    · rintro (⟨m, hm, hz⟩ | hz)
      · exact ⟨m, hmem.mpr (Or.inr hm), hz⟩
      · exact ⟨n, hmem.mpr (Or.inl rfl), hz⟩
    · rintro ⟨m, hm, hz⟩
      rcases hmem.mp hm with rfl | hm
      · exact Or.inr hz
      · exact Or.inl ⟨m, hm, hz⟩
  · intro m hm
    rcases hmem.mp hm with rfl | hm
    · exact hv.range
    · exact h.range m hm
  · intro m hm
    rcases hmem.mp hm with rfl | hm
    · exact hv.nodup
    · exact h.nodup m hm
  · intro a ha b hb hab
    rcases hmem.mp ha with rfl | ha <;> rcases hmem.mp hb with rfl | hb
    · exact absurd rfl hab
    · exact hapart b hb
    · exact (hapart a ha).symm
    · exact h.alone a ha b hb hab
  · intro m hm hd
    rcases hmem.mp hm with rfl | hm
    · exact ⟨(hv.dots hd).1, parent, hparent, (hv.dots hd).2⟩
    · exact h.dots m hm hd

/-- The walk ends with an empty stack, and if it reports nothing then it kept the invariant. -/
theorem WalkInv.walk (hw : walk fs w = some w') (hclean : w'.problems = [])
    (h : w.problems = [] → WalkInv fs w) : w.problems = [] ∧ w'.stack = [] ∧ WalkInv fs w' := by
  induction w using FsCheck.walk.induct fs with
  | case1 w hs =>
    rw [walk_nil hs] at hw
    obtain rfl := Option.some.inj hw
    exact ⟨hclean, hs, h hclean⟩
  | case2 w n parent rest hs hn ih =>
    rw [walk_seen hs hn] at hw
    exact ih hw fun hp => (h hp).pop hs hn
  | case3 w n parent rest hs hn hv =>
    rw [walk_visit hs hn, hv] at hw
    nomatch hw
  | case4 w n parent rest hs hn w₁ hv ih =>
    rw [walk_visit hs hn, hv] at hw
    have hvisit : w₁.problems = [] → Visited fs n parent { w with stack := rest } w₁ :=
      visit_visited hv
    have hend := ih hw fun hp => (h (hvisit hp).clean).visit hs hn (hvisit hp)
    exact ⟨(hvisit hend.1).clean, hend.2⟩

/-- When the stack is empty the inodes seen are those in use. -/
theorem WalkInv.seen_iff (h : WalkInv fs w) (hs : w.stack = []) (n : Word) :
    n ∈ w.seen ↔ Reach fs n := by
  refine ⟨h.reach n, fun hn => ?_⟩
  have hempty : ∀ m, ¬∃ p, (m, p) ∈ w.stack := by simp [hs]
  induction hn with
  | root => exact h.root.resolve_right (hempty 1)
  | entry _ he hp ih => exact (h.closed _ ih _ he hp).resolve_right (hempty _)

open Classical in
theorem WalkInv.entryCount (h : WalkInv fs w) (hs : w.stack = []) (m : Word) :
    update w.links 1 (w.links 1 - 1) m = entryCount fs m := by
  have hset : w.seen = Finset.univ.filter (Reach fs) := by
    ext n
    rw [h.seen_iff hs, Finset.mem_filter, and_iff_right (Finset.mem_univ n)]
  have hcount : w.links m = FsCheck.entryCount fs m + if m = 1 then 1 else 0 := by
    rw [h.links, hset, FsCheck.entryCount]
  by_cases hm : m = 1
  · subst hm
    rw [update_self, hcount, if_pos rfl, Nat.add_sub_cancel]
  · rw [update_of_ne hm, hcount, if_neg hm, Nat.add_zero]

/-! ## §5 The Comparison with the Maps -/

theorem words_length {b : Word} {ws : List Word} (h : fs.words b = some ws) :
    ws.length = nrIndirects := by
  unfold Fs.words at h
  split at h
  next => rw [← Option.some.inj h, List.length_map, List.length_range]
  next => nomatch h

theorem indirectZones_length {b : Word} {ws : List Word} (h : fs.indirectZones b = some ws) :
    ws.length = nrIndirects := by
  unfold Fs.indirectZones at h
  split at h
  next => exact words_length h
  next => rw [← Option.some.inj h, List.length_replicate]

theorem mapM_indirectZones_length (l : List Word) {ws : List (List Word)}
    (h : l.mapM fs.indirectZones = some ws) : ws.flatten.length = l.length * nrIndirects := by
  induction l generalizing ws with
  | nil =>
    rw [List.mapM_nil] at h
    rw [← Option.some.inj h]
    simp
  | cons b l ih =>
    rw [List.mapM_cons] at h
    obtain ⟨x, hx, h⟩ := Option.bind_eq_some_iff.mp h
    obtain ⟨xs, hxs, h⟩ := Option.bind_eq_some_iff.mp h
    rw [← Option.some.inj h, List.flatten_cons, List.length_append, ih hxs, indirectZones_length hx,
      List.length_cons, Nat.add_mul, Nat.one_mul, Nat.add_comm]

theorem singleZones_length {ind : Word} (h : fs.singleZones ind = some z) :
    z.1.length = if ind ≠ 0 then nrIndirects else 0 := by
  unfold Fs.singleZones at h
  split at h
  next hind =>
    obtain ⟨ws, hws, rfl⟩ := Option.map_eq_some_iff.mp h
    rw [if_pos hind, words_length hws]
  next hind => rw [if_neg hind, ← Option.some.inj h, List.length_nil]

theorem doubleZones_length {dbl : Word} (h : fs.doubleZones dbl = some z) :
    z.1.length = if dbl ≠ 0 then nrIndirects * nrIndirects else 0 := by
  unfold Fs.doubleZones at h
  split at h
  next hdbl =>
    obtain ⟨ws, hws, h⟩ := Option.bind_eq_some_iff.mp h
    obtain ⟨zs, hzs, rfl⟩ := Option.map_eq_some_iff.mp h
    rw [if_pos hdbl, mapM_indirectZones_length ws hzs, words_length hws]
  next hdbl => rw [if_neg hdbl, ← Option.some.inj h, List.length_nil]

/-- The list of data zones has a place for every block of the map, holes included. -/
theorem zones_length (h : fs.zones ino = some z) : z.1.length = ino.mapBlocks := by
  obtain ⟨s, hs, h⟩ := Option.bind_eq_some_iff.mp h
  obtain ⟨d, hd, rfl⟩ := Option.map_eq_some_iff.mp h
  rw [List.length_append, List.length_append, singleZones_length hs, doubleZones_length hd,
    List.length_map, List.length_range, DiskInode.mapBlocks]

/-! ## §7 The Checker Against Its Documentation -/

theorem Sound.plain (h : Sound fs)
    (hmapped : ∀ n, Reach fs n → ∀ ino, fs.inode n = some ino → ino.hasZones →
      ∃ z, fs.zones ino = some z) : Plain fs where
  sizes := by
    intro n ino hn hino hz
    obtain ⟨z, hzones⟩ := hmapped n hn ino hino hz
    rw [← zones_length hzones]
    exact h.sizes n ino z hn hino hz hzones
  tree := by
    intro n p q hd hp hq
    exact ((h.dots n hp.reach hd).2 q hq).2 p ((h.dots n hp.reach hd).2 p hp).1
  dots := by
    intro n a b name hn hname ha hb
    have hdir : fs.IsDir n := by
      unfold Fs.entriesOf at ha
      split at ha
      next ino hino =>
        split at ha
        next hd => exact ⟨ino, hino, hd⟩
        next => nomatch ha
      next => nomatch ha
    obtain ⟨p, hp⟩ := hn.parent
    obtain ⟨hdot, hdotdot⟩ := h.dots n hn hdir
    rcases not_and_or.mp hname with hname | hname
    · obtain rfl := not_not.mp hname
      exact (hdot.2 a ha).trans (hdot.2 b hb).symm
    · obtain rfl := not_not.mp hname
      exact ((hdotdot p hp).2 a ha).trans ((hdotdot p hp).2 b hb).symm

end LisaMinix.Tools.FsCheck
