import LisaMinix.Fs.Server.DirectoryMaps
import LisaMinix.Fs.Server.MountTree
import LisaMinix.Fs.Server.Unpause
import Mathlib.Data.List.TakeWhile

/-!
# Paths as Sequences of Components

A path is followed from its root or working directory over its non-empty components, one after the other
(`follow`).  That is what `eat_path` does for a path that is shorter than `PATH_MAX`, unless it is
empty or the directory that it starts from has been removed.

- `components`: the non-empty components of a string.
- `getName_spec`: `get_name` cuts off the first component.
- `eatPath_resolves`: `eat_path` follows the components.
-/

namespace LisaMinix.Fs.Server

open LisaMinix.Library Function
open Discipline (Passes Keeps)

/-! ## §1 Components of a String -/

/-- The bytes at `p` are the string, with the zero that ends it. -/
def IsString (path : Block) : ℕ → List UInt8 → Prop
  | p, [] => path p = 0
  | p, c :: l => path p = c ∧ c ≠ 0 ∧ IsString path (p + 1) l

/-- The non-empty components, in order, as names of `NAME_MAX` bytes. -/
def components (l : List UInt8) : List Name := ((l.splitOn slash).filter (· ≠ [])).map padName

def isSlash (c : UInt8) : Bool := c = slash
def noSlash (c : UInt8) : Bool := c ≠ slash

/-- The first component, and what follows it and its slashes. -/
def firstComponent (l : List UInt8) : List UInt8 := (l.dropWhile isSlash).takeWhile noSlash
def afterFirst (l : List UInt8) : List UInt8 := ((l.dropWhile isSlash).dropWhile noSlash).dropWhile isSlash

theorem components_slash (l : List UInt8) : components (slash :: l) = components l := by
  have h : ([] ++ slash :: l).splitOn slash = [] :: l.splitOn slash :=
    List.splitOn_append_cons_self_of_not_mem (by simp) l
  unfold components
  rw [List.nil_append] at h
  rw [h]
  rfl

theorem components_dropWhile (l : List UInt8) : components (l.dropWhile isSlash) = components l := by
  induction l with
  | nil => rfl
  | cons c l ih =>
    by_cases hc : c = slash
    · subst hc
      rw [components_slash, ← ih]
      rfl
    · rw [List.dropWhile_cons_of_neg (by simpa [isSlash] using hc)]

theorem noSlash_takeWhile (l : List UInt8) : slash ∉ l.takeWhile noSlash := by
  intro h
  have := List.mem_takeWhile_imp h
  simp [noSlash] at this

/-- The components begin with the first one, if there is any. -/
theorem components_first (l : List UInt8) : components l =
    if firstComponent l = [] then [] else padName (firstComponent l) :: components (afterFirst l) := by
  have hdrop := components_dropWhile l
  rw [← hdrop]
  unfold firstComponent afterFirst
  generalize hl : l.dropWhile isSlash = m
  have hhead : ∀ c ∈ m.head?, c ≠ slash := by
    intro c hc hslash
    rw [← hl] at hc
    have := List.head?_dropWhile_not isSlash l
    rw [Option.mem_def] at hc
    rw [hc] at this
    simp [isSlash, hslash] at this
  cases m with
  | nil => rfl
  | cons c m =>
    have hc : noSlash c = true := by simpa [noSlash] using hhead c (by simp)
    have hne : (c :: m).takeWhile noSlash ≠ [] := by simp [hc]
    rw [if_neg hne]
    have hsplit := List.takeWhile_append_dropWhile (p := noSlash) (l := c :: m)
    rw [components_dropWhile]
    generalize hrest : (c :: m).dropWhile noSlash = rest at hsplit
    have hnot := noSlash_takeWhile (c :: m)
    generalize (c :: m).takeWhile noSlash = first at hsplit hne hnot ⊢
    rw [← hsplit]
    cases rest with
    | nil =>
      unfold components
      rw [List.append_nil, List.splitOn_eq_singleton hnot]
      simp [hne, List.splitOn_nil]
    | cons d rest =>
      have hd : d = slash := by
        have := List.head?_dropWhile_not noSlash (c :: m)
        rw [hrest] at this
        simpa [noSlash] using this
      subst hd
      rw [components_slash]
      unfold components
      rw [List.splitOn_append_cons_self_of_not_mem hnot]
      simp [hne]

/-! ## §2 `get_name` -/

section

variable {path : Block} {p n : ℕ} {l : List UInt8}

theorem skipSlashes_spec (h : IsString path p l) (hn : l.length ≤ n) :
    skipSlashes path n p = p + (l.length - (l.dropWhile isSlash).length) ∧
      IsString path (skipSlashes path n p) (l.dropWhile isSlash) := by
  induction l generalizing p n with
  | nil =>
    have hstop : skipSlashes path n p = p := by
      cases n with
      | zero => rfl
      | succ n =>
        rw [skipSlashes, if_neg]
        rw [show path p = 0 from h]
        decide
    rw [hstop]
    exact ⟨rfl, h⟩
  | cons c l ih =>
    obtain ⟨hc, hzero, htail⟩ := h
    cases n with
    | zero => exact absurd hn (by simp)
    | succ n =>
      rw [skipSlashes, hc]
      by_cases hslash : c = slash
      · rw [if_pos hslash, List.dropWhile_cons_of_pos (by simpa [isSlash] using hslash)]
        obtain ⟨hpos, hstring⟩ := ih htail (by simpa using hn)
        refine ⟨?_, hstring⟩
        have hle := (List.dropWhile_suffix isSlash (l := l)).length_le
        rw [hpos, List.length_cons]
        omega
      · rw [if_neg hslash, List.dropWhile_cons_of_neg (by simpa [isSlash] using hslash), Nat.sub_self]
        exact ⟨rfl, hc, hzero, htail⟩

theorem component_spec (h : IsString path p l) (hn : l.length ≤ n) :
    component path n p = (l.takeWhile noSlash, p + (l.length - (l.dropWhile noSlash).length)) ∧
      IsString path (component path n p).2 (l.dropWhile noSlash) := by
  induction l generalizing p n with
  | nil =>
    have hstop : component path n p = ([], p) := by
      cases n with
      | zero => rfl
      | succ n => rw [component, if_pos (.inr h)]
    rw [hstop]
    exact ⟨rfl, h⟩
  | cons c l ih =>
    obtain ⟨hc, hzero, htail⟩ := h
    cases n with
    | zero => exact absurd hn (by simp)
    | succ n =>
      rw [component, hc]
      by_cases hslash : c = slash
      · have hno : ¬noSlash c = true := by simpa [noSlash] using hslash
        rw [if_pos (.inl hslash), List.takeWhile_cons_of_neg hno, List.dropWhile_cons_of_neg hno,
          Nat.sub_self]
        exact ⟨rfl, hc, hzero, htail⟩
      · have hno : noSlash c = true := by simpa [noSlash] using hslash
        rw [if_neg (by simp [hslash, hzero]), List.takeWhile_cons_of_pos hno,
          List.dropWhile_cons_of_pos hno]
        obtain ⟨hpair, hstring⟩ := ih htail (by simpa using hn)
        have hle := (List.dropWhile_suffix noSlash (l := l)).length_le
        rw [hpair] at hstring ⊢
        refine ⟨?_, hstring⟩
        rw [List.length_cons]
        dsimp only
        congr 1
        omega

/-- `get_name` cuts off the first component of a string that is shorter than `PATH_MAX`. -/
theorem getName_spec (h : IsString path p l) (hl : l.length < pathMax) :
    ∃ q, getName path p = some (padName (firstComponent l), q) ∧ IsString path q (afterFirst l) := by
  have hlong : l.length ≤ 65536 := le_of_lt (lt_trans hl (by decide))
  obtain ⟨hstart, h1⟩ := skipSlashes_spec h hlong
  generalize hq1 : skipSlashes path 65536 p = start at hstart h1
  have hle1 := (List.dropWhile_suffix isSlash (l := l)).length_le
  obtain ⟨hpair, h2⟩ := component_spec (n := p + pathMax - start) h1 (by omega)
  generalize hq2 : component path (p + pathMax - start) start = comp at hpair h2
  have hle2 := (List.dropWhile_suffix noSlash (l := l.dropWhile isSlash)).length_le
  have hend : comp.2 = start + ((l.dropWhile isSlash).length -
      ((l.dropWhile isSlash).dropWhile noSlash).length) := by rw [hpair]
  obtain ⟨hrest, h3⟩ := skipSlashes_spec (n := p + pathMax - comp.2) h2 (by omega)
  have hle3 := (List.dropWhile_suffix isSlash (l := (l.dropWhile isSlash).dropWhile noSlash)).length_le
  refine ⟨_, ?_, h3⟩
  unfold getName
  dsimp only
  rw [hq1, hq2]
  rw [if_neg (by omega), show comp.1 = firstComponent l by rw [hpair]; rfl]

end

/-! ## §3 Following the Components -/

/-- From a directory that is held over the components, one after the other; a directory is released when
    the next one has been reached. -/
def follow : List Name → InodeId → FsM (Option InodeId)
  | [], rip => return some rip
  | string :: rest, rip => do
    let next ← advance advanceFuel (some rip) string
    putInodeId rip
    match next with
    | none => return none
    | some rip => follow rest rip

/-- The end of `eat_path`, with what `last_dir` has returned. -/
def lastStep : Option (InodeId × Name) → FsM (Option InodeId)
  | none => return none
  | some (ldip, string) =>
    if string.headD 0 = 0 then return some ldip
    else do
      let rip ← advance advanceFuel (some ldip) string
      putInodeId ldip
      return rip

section

variable {level : ℕ → ℕ} {s₀ s : FsState} {d : InodeId → ℕ} {r : InodeId}
variable {l : List UInt8} {p : ℕ} {β : Type}

/-- The level of a directory in use leaves `advance` enough room. -/
theorem MountTree.fuel (ht : MountTree level s₀) (h : Over d s₀ s) {dir : InodeId}
    (hdir : (s.inodes dir).count ≠ 0) : level (s.inodes dir).dev < advanceFuel := by
  obtain ⟨-, sp, hsp⟩ := (h.sane.known dir hdir).1
  rw [← hsp, h.super_dev]
  exact lt_trans (ht.bound sp) (Nat.lt_succ_self _)

/-- What `advance` and the release of the directory come to. -/
theorem stride_over {string : Name} (h0 : Sane s₀) (ht : MountTree level s₀)
    (hstring : string.headD 0 ≠ 0) (h : Over (d + holding (some r)) s₀ s) :
    Surely (do
      let next ← advance advanceFuel (some r) string
      putInodeId r
      return next) s fun x s' => Over (d + holding x) s₀ s' := by
  rw [Surely, wp_bind]
  refine (advance_leads h0 ht hstring h (h.held h0) (ht.fuel h (h.held h0))).mono ?_
  rintro x s₁ ⟨h1, -⟩
  rw [add_right_comm] at h1
  rw [wp_bind]
  refine (h1.put h0).mono ?_
  rintro _ s₂ ⟨h2, -⟩
  exact h2

/-- Following components, one reference to a directory becomes one to the inode that they lead to. -/
theorem follow_over {strings : List Name} (h0 : Sane s₀) (ht : MountTree level s₀)
    (hstrings : ∀ string ∈ strings, string.headD 0 ≠ 0) (h : Over (d + holding (some r)) s₀ s) :
    Surely (follow strings r) s fun x s' => Over (d + holding x) s₀ s' := by
  induction strings generalizing r s with
  | nil => exact h
  | cons string rest ih =>
    have hstride := stride_over h0 ht (hstrings string List.mem_cons_self) h
    unfold follow
    simp only [Surely, wp_bind, wp_pure] at hstride ⊢
    refine hstride.mono fun x s₁ h1 => Wp.mono h1 fun _ s₂ h2 => ?_
    cases x with
    | none => exact h2
    | some r' => exact ih (fun string' h' => hstrings string' (List.mem_cons_of_mem _ h')) h2

theorem padName_head (hl : l ≠ []) (hzero : 0 ∉ l) : (padName l).headD 0 ≠ 0 := by
  cases l with
  | nil => exact absurd rfl hl
  | cons c l =>
    intro h
    apply hzero
    rw [show c = 0 from h]
    exact List.mem_cons_self

theorem IsString.not_mem {path : Block} (h : IsString path p l) : 0 ∉ l := by
  induction l generalizing p with
  | nil => simp
  | cons c l ih =>
    obtain ⟨-, hc, htail⟩ := h
    rw [List.mem_cons, not_or]
    exact ⟨hc.symm, ih htail⟩

theorem firstComponent_subset (l : List UInt8) : firstComponent l ⊆ l := fun _ h =>
  (List.dropWhile_suffix isSlash).subset ((List.takeWhile_prefix noSlash).subset h)

theorem afterFirst_suffix (l : List UInt8) : afterFirst l <:+ l :=
  ((List.dropWhile_suffix isSlash).trans (List.dropWhile_suffix noSlash)).trans
    (List.dropWhile_suffix isSlash)

theorem afterFirst_lt (h : firstComponent l ≠ []) : (afterFirst l).length < l.length := by
  have hlast := (List.dropWhile_suffix isSlash (l := (l.dropWhile isSlash).dropWhile noSlash)).length_le
  have hfirst := (List.dropWhile_suffix isSlash (l := l)).length_le
  have hsplit := congrArg List.length
    (List.takeWhile_append_dropWhile (p := noSlash) (l := l.dropWhile isSlash))
  have hpos : 0 < ((l.dropWhile isSlash).takeWhile noSlash).length := List.length_pos_of_ne_nil h
  rw [List.length_append] at hsplit
  unfold afterFirst
  omega

/-- Where there is no first component, nothing follows it. -/
theorem afterFirst_nil (h : firstComponent l = []) : afterFirst l = [] := by
  unfold firstComponent at h
  unfold afterFirst
  generalize hm : l.dropWhile isSlash = m at h ⊢
  cases m with
  | nil => rfl
  | cons c m =>
    have hhead := List.head?_dropWhile_not isSlash l
    rw [hm] at hhead
    have hc : noSlash c = true := by simpa [isSlash, noSlash] using hhead
    rw [List.takeWhile_cons_of_pos hc] at h
    exact absurd h (by simp)

theorem IsString.head {path : Block} (h : IsString path p l) : path p = 0 ↔ l = [] := by
  cases l with
  | nil => exact iff_of_true h rfl
  | cons c l =>
    rw [h.1]
    exact iff_of_false h.2.1 (by simp)

theorem run_modInode {i : InodeId} {f : Inode → Inode} {k : PUnit → FsM β} :
    (modInode i f >>= k) s = k ⟨⟩ { s with inodes := update s.inodes i (f (s.inodes i)) } := rfl

theorem run_modGlobals {f : Globals → Globals} {k : PUnit → FsM β} :
    (modGlobals f >>= k) s = k ⟨⟩ { s with g := f s.g } := rfl

theorem run_globals {f : Globals → FsM β} : (globals >>= f) s = f s.g s := rfl

/-- `last_dir` and the end of `eat_path` follow the components of the string. -/
theorem walk_follow {fuel : ℕ} (h0 : Sane s₀) (ht : MountTree level s₀)
    (h : Over (d + holding (some r)) s₀ s) (hpath : IsString s₀.g.userPath p l)
    (hl : l.length < pathMax) (hfuel : l.length < fuel) :
    (walk fuel p r >>= lastStep) s = follow (components l) r s := by
  induction fuel generalizing p l r s with
  | zero => exact absurd hfuel (Nat.not_lt_zero _)
  | succ fuel ih =>
    have huser : s.g.userPath = s₀.g.userPath := by rw [h.globals]
    obtain ⟨q, hname, hrest⟩ := getName_spec hpath hl
    have hzero : 0 ∉ firstComponent l := fun hmem => hpath.not_mem (firstComponent_subset l hmem)
    unfold walk
    rw [bind_assoc, run_globals, huser, hname]
    dsimp only
    rw [bind_assoc, run_globals, huser, components_first]
    by_cases hlast : afterFirst l = []
    · -- the last component, or no component at all
      rw [if_pos (hrest.head.mpr hlast), pure_bind, hlast]
      by_cases hnone : firstComponent l = []
      · rw [if_pos hnone, hnone]
        rfl
      · have hhead := padName_head hnone hzero
        rw [if_neg hnone]
        unfold lastStep
        dsimp only
        rw [if_neg hhead]
        change _ = (do
          let next ← advance advanceFuel (some r) (padName (firstComponent l))
          putInodeId r
          match next with
          | none => return none
          | some rip => follow (components []) rip) s
        refine run_bind_congr wp_true fun next s₁ _ => run_bind_congr wp_true fun _ s₂ _ => ?_
        cases next <;> rfl
    · have hsome : firstComponent l ≠ [] := fun hnil => hlast (afterFirst_nil hnil)
      have hhead := padName_head hsome hzero
      rw [if_neg (hrest.head.not.mpr hlast), if_neg hsome]
      unfold follow
      rw [bind_assoc]
      have hlt := afterFirst_lt hsome
      refine run_bind_congr (advance_leads h0 ht hhead h (h.held h0) (ht.fuel h (h.held h0))) ?_
      rintro x s₁ ⟨h1, -⟩
      rw [add_right_comm] at h1
      rw [bind_assoc]
      refine run_bind_congr (h1.put h0) ?_
      rintro _ s₂ ⟨h2, -⟩
      cases x with
      | none => rfl
      | some r' => exact ih h2 hrest (lt_trans hlt hl) (by omega)

end

/-! ## §4 `eat_path` -/

section

variable {path : Block} {p n : ℕ} {l : List UInt8}

/-- A string without the `/.` that it ends in, as often as it does. -/
def stripTail : ℕ → List UInt8 → List UInt8
  | 0, l => l
  | n + 1, l =>
    if 2 < l.length ∧ l.drop (l.length - 2) = [slash, 46] then stripTail n (l.take (l.length - 2)) else l

theorem stripTail_length_le : (stripTail n l).length ≤ l.length := by
  induction n generalizing l with
  | zero => exact le_rfl
  | succ n ih =>
    unfold stripTail
    split
    · refine ih.trans ?_
      rw [List.length_take]
      exact min_le_right _ _
    · exact le_rfl

theorem strlen_eq (h : IsString path p l) (hn : l.length ≤ n) : strlen path n p = l.length := by
  induction l generalizing p n with
  | nil =>
    cases n with
    | zero => rfl
    | succ n =>
      rw [strlen, if_pos (show path p = 0 from h)]
      rfl
  | cons c l ih =>
    obtain ⟨hc, hzero, htail⟩ := h
    cases n with
    | zero => exact absurd hn (by simp)
    | succ n =>
      rw [strlen, hc, if_neg hzero, ih htail (by simpa using hn), List.length_cons, Nat.add_comm]

/-- The bytes after the beginning of a string. -/
theorem IsString.append {a b : List UInt8} (h : IsString path p (a ++ b)) :
    IsString path (p + a.length) b := by
  induction a generalizing p with
  | nil => exact h
  | cons c a ih =>
    have := ih h.2.2
    rwa [Nat.add_assoc, Nat.add_comm 1] at this

/-- A zero byte cuts a string off. -/
theorem IsString.cut {a b : List UInt8} (h : IsString path p (a ++ b)) :
    IsString (update path (p + a.length) 0) p a := by
  induction a generalizing p with
  | nil => exact update_self ..
  | cons c a ih =>
    obtain ⟨hc, hzero, htail⟩ := h
    have hrest := ih htail
    rw [Nat.add_assoc, Nat.add_comm 1] at hrest
    refine ⟨?_, hzero, hrest⟩
    rw [update_of_ne (by simp), hc]

theorem stripDots_spec (h : IsString path p l) (hl : l.length < pathMax) :
    IsString (stripDots p n path) p (stripTail n l) := by
  induction n generalizing path l with
  | zero => exact h
  | succ n ih =>
    have hlen := strlen_eq h (n := 65536) (le_of_lt (lt_trans hl (by decide)))
    unfold stripDots stripTail
    rw [hlen]
    by_cases hshort : 2 < l.length
    · have hsplit := List.take_append_drop (l.length - 2) l
      have hstart : (l.take (l.length - 2)).length = l.length - 2 := by
        rw [List.length_take]
        omega
      have hend : (l.drop (l.length - 2)).length = 2 := by
        rw [List.length_drop]
        omega
      obtain ⟨x, y, hxy⟩ := List.length_eq_two.mp hend
      rw [hxy] at hsplit
      have hstring : IsString path p (l.take (l.length - 2) ++ [x, y]) := by rwa [hsplit]
      obtain ⟨hx, -, hy, -⟩ := hstring.append
      have hcut := hstring.cut
      rw [hstart] at hx hy hcut
      have hfirst : p + l.length - 2 = p + (l.length - 2) := by omega
      have hsecond : p + l.length - 1 = p + (l.length - 2) + 1 := by omega
      dsimp only
      rw [hfirst, hsecond, hx, hy, hxy]
      by_cases hdots : x = slash ∧ y = 46
      · rw [if_pos ⟨by omega, hdots⟩, if_pos ⟨hshort, by rw [hdots.1, hdots.2]⟩]
        exact ih hcut (by rw [hstart]; omega)
      · rw [if_neg fun hc => hdots hc.2, if_neg]
        · exact h
        · rintro ⟨-, heq⟩
          obtain ⟨rfl, hrest⟩ := List.cons.inj heq
          exact hdots ⟨rfl, (List.cons.inj hrest).1⟩
    · rw [if_neg (by omega), if_neg fun hc => hshort hc.1]
      exact h

end

/-- Calls that remove trailing `/.` from a path. -/
def Strips (s : FsState) : Prop := s.g.fsCall = unlinkCall ∨ s.g.fsCall = rmdirCall

instance (s : FsState) : Decidable (Strips s) := inferInstanceAs (Decidable (_ ∨ _))

/-- The state in which `last_dir` begins to scan the path, and the string that it scans. -/
def prepared (path : ℕ) (s : FsState) : FsState :=
  if Strips s then { s with g := { s.g with userPath := stripDots path 65536 s.g.userPath } } else s

def scanned (s : FsState) (l : List UInt8) : List UInt8 := if Strips s then stripTail 65536 l else l

/-- The directory that a path starts from. -/
def startDir (path : ℕ) (s : FsState) : Option InodeId :=
  if s.g.userPath path = slash then (s.fprocs s.g.fp).rootdir else (s.fprocs s.g.fp).workdir

/-- The components of a string are followed from a directory. -/
def resolve (l : List UInt8) (start : InodeId) : FsM (Option InodeId) := do
  dupInode start
  follow (components l) start

section

variable {level : ℕ → ℕ} {s : FsState} {path : ℕ} {l : List UInt8} {start : InodeId}

theorem prepared_string (h : IsString s.g.userPath path l) (hl : l.length < pathMax) :
    IsString (prepared path s).g.userPath path (scanned s l) := by
  unfold prepared scanned
  split
  · exact stripDots_spec h hl
  · exact h

theorem scanned_length_le : (scanned s l).length ≤ l.length := by
  unfold scanned
  split
  · exact stripTail_length_le
  · exact le_rfl

theorem prepared_sane (hs : Sane s) : Sane (prepared path s) := by
  unfold prepared
  split
  · exact ⟨⟨hs.cache, hs.driver, hs.root, hs.maps⟩, hs.nonneg, hs.known, hs.idle, hs.unique⟩
  · exact hs

theorem prepared_tree (ht : MountTree level s) : MountTree level (prepared path s) := by
  unfold prepared
  split
  · exact ⟨ht.up, ht.point, ht.below, ht.bound⟩
  · exact ht

/-- The components are not empty. -/
theorem components_head (hzero : 0 ∉ l) : ∀ string ∈ components l, string.headD 0 ≠ 0 := by
  induction hn : l.length using Nat.strong_induction_on generalizing l with
  | h n ih =>
    rw [components_first]
    split
    · simp
    · next hsome =>
      have hlt := afterFirst_lt hsome
      rw [hn] at hlt
      intro string hstring
      rcases List.mem_cons.mp hstring with rfl | hrest
      · exact padName_head hsome fun hmem => hzero (firstComponent_subset l hmem)
      · exact ih _ hlt (fun hmem => hzero ((afterFirst_suffix l).subset hmem)) rfl string hrest

/-- What `last_dir` does once it knows where to start. -/
theorem eatPath_start (hstart : startDir path s = some start) :
    eatPath path s = ((do
      if (s.inodes start).nlinks = 0 ∨ s.g.userPath path = 0 then
        setErr ENOENT
        return none
      else
        dupInode start
        if s.g.fsCall = unlinkCall ∨ s.g.fsCall = rmdirCall then
          modGlobals fun g => { g with userPath := stripDots path 65536 g.userPath }
        walk 65536 path start) >>= lastStep) s := by
  have heat : eatPath path = lastDir path >>= lastStep := by
    unfold eatPath
    congr 1
  unfold startDir at hstart
  rw [heat]
  change ((match (if s.g.userPath path = slash then (s.fprocs s.g.fp).rootdir
    else (s.fprocs s.g.fp).workdir) with
    | none => throw Panic.wildPointer
    | some rip => _) >>= lastStep) s = _
  rw [hstart]
  rfl

/-- An empty path, or one from a directory that has been removed, leads nowhere. -/
theorem eatPath_nowhere (hstart : startDir path s = some start)
    (h : (s.inodes start).nlinks = 0 ∨ s.g.userPath path = 0) :
    eatPath path s = (.ok none, { s with g := { s.g with errCode := ENOENT } }) := by
  rw [eatPath_start hstart, if_pos h]
  rfl

/-- Any other path that is shorter than `PATH_MAX` is resolved. -/
theorem eatPath_follows (hs : Sane s) (ht : MountTree level s)
    (hstart : startDir path s = some start) (hused : (s.inodes start).count ≠ 0)
    (hlinks : (s.inodes start).nlinks ≠ 0) (hpath : IsString s.g.userPath path l)
    (hl : l.length < pathMax) (hne : l ≠ []) :
    eatPath path s = resolve (scanned s l) start (prepared path s) := by
  have hsome : ¬((s.inodes start).nlinks = 0 ∨ s.g.userPath path = 0) := by
    rw [hpath.head]
    exact not_or.mpr ⟨hlinks, hne⟩
  have hused' : ((prepared path s).inodes start).count ≠ 0 := by
    unfold prepared
    split
    · exact hused
    · exact hused
  have hscanned := prepared_string hpath hl
  have hshort : (scanned s l).length < pathMax := lt_of_le_of_lt scanned_length_le hl
  have hprep : eatPath path s =
      ((dupInode start >>= fun _ => walk 65536 path start) >>= lastStep) (prepared path s) := by
    rw [eatPath_start hstart, if_neg hsome]
    unfold prepared
    split
    next hstrips =>
      rw [if_pos (show Strips s from hstrips), bind_assoc, bind_assoc, dupInode, run_modInode,
        run_modGlobals, bind_assoc, run_modInode]
    next hstrips =>
      rw [if_neg (show ¬Strips s from hstrips)]
  rw [hprep, bind_assoc]
  unfold resolve
  refine run_bind_congr (dupInode_over (prepared_sane hs) hused') fun _ s₁ h1 => ?_
  have hover : Over (0 + holding (some start)) (prepared path s) s₁ := by rwa [zero_add]
  exact walk_follow (prepared_sane hs) (prepared_tree ht) hover hscanned hshort
    (lt_trans hshort (by decide))

theorem resolve_over (hs : Sane s) (ht : MountTree level s) (hused : (s.inodes start).count ≠ 0)
    (hzero : 0 ∉ l) : Surely (resolve l start) s fun x s' => Over (holding x) s s' := by
  unfold resolve
  rw [Surely, wp_bind]
  refine (dupInode_over hs hused).mono fun _ s₁ h1 => ?_
  have hover : Over (0 + holding (some start)) s s₁ := by rwa [zero_add]
  refine (follow_over hs ht (components_head hzero) hover).mono fun x s₂ h2 => ?_
  rwa [zero_add] at h2

/-- The components of a path are those of its parts. -/
theorem components_append (a b : List UInt8) :
    components (a ++ slash :: b) = components a ++ components b := by
  unfold components
  rw [List.splitOn_append_cons_self, List.filter_append, List.map_append]

/-- A path is resolved: `eat_path` follows its components, whatever slashes stand between and after
    them; it returns, it has acquired the inode that it returns and no other, and every component has led
    to where it leads in the tree of mounted file systems, or has failed with the error that is kept. -/
structure Resolves (level : ℕ → ℕ) (path : ℕ) (l : List UInt8) (start : InodeId) (s : FsState) : Prop where
  folds : eatPath path s = resolve (scanned s l) start (prepared path s)
  slashes : ∀ a b, components (a ++ slash :: slash :: b) = components (a ++ slash :: b) ∧
    components (a ++ [slash]) = components a
  counts : Surely (eatPath path) s fun x s' =>
    ∀ i, (s'.inodes i).count = (s.inodes i).count + holding x i
  leads : ∀ d t dir string, Over d (prepared path s) t → (t.inodes dir).count ≠ 0 →
    string.headD 0 ≠ 0 → Surely (advance advanceFuel (some dir) string) t fun x t' =>
      Over (d + holding x) (prepared path s) t' ∧
        (x = none → Fails (prepared path s) string t dir t'.g.errCode) ∧
        ∀ j, x = some j → Leads (prepared path s) string t dir (identity t' j)

theorem Resolves.count_eq {x : Option InodeId} {s' : FsState} (h : Resolves level path l start s)
    (hrun : eatPath path s = (.ok x, s')) (i : InodeId) :
    (s'.inodes i).count = (s.inodes i).count + holding x i := h.counts.ok hrun i

theorem prepared_inodes : (prepared path s).inodes = s.inodes := by
  unfold prepared
  split <;> rfl

/-- `eat_path` resolves every path that is shorter than `PATH_MAX`, but for the empty path and one that
    starts from a directory that has been removed, which lead nowhere. -/
theorem eatPath_resolves (hs : Sane s) (ht : MountTree level s) (hstart : startDir path s = some start)
    (hused : (s.inodes start).count ≠ 0) (hpath : IsString s.g.userPath path l)
    (hl : l.length < pathMax) :
    if l = [] ∨ (s.inodes start).nlinks = 0 then
      eatPath path s = (.ok none, { s with g := { s.g with errCode := ENOENT } })
    else Resolves level path l start s := by
  split
  next hnowhere =>
    refine eatPath_nowhere hstart ?_
    rw [hpath.head]
    exact hnowhere.symm
  next hsome =>
    obtain ⟨hne, hlinks⟩ := not_or.mp hsome
    have hfolds := eatPath_follows hs ht hstart hused hlinks hpath hl hne
    have hused' : ((prepared path s).inodes start).count ≠ 0 := by rwa [prepared_inodes]
    have hzero := (prepared_string hpath hl).not_mem
    refine ⟨hfolds, fun a b => ⟨?_, ?_⟩, ?_, fun d t dir string hover hdir hstring => ?_⟩
    · rw [components_append, components_slash, components_append]
    · rw [components_append]
      exact List.append_nil _
    · unfold Surely Wp
      rw [hfolds]
      refine Wp.mono (resolve_over (prepared_sane hs) (prepared_tree ht) hused' hzero) ?_
      intro x s' h i
      rw [h.count, prepared_inodes]
    · have ht' : MountTree level (prepared path s) := prepared_tree ht
      refine (advance_leads (prepared_sane hs) ht' hstring hover hdir (ht'.fuel hover hdir)).mono ?_
      rintro x t' ⟨hover', hx⟩
      exact ⟨hover', hx.1, fun j hj => (hx.2 j hj).2⟩

end

/-! ## §5 Runs -/

/-- The slot that the root inode is in. -/
def rootSlot : InodeId := ⟨31, by decide⟩

/-- An empty path leads nowhere from the root directory of a server that has just started. -/
theorem eatPath_empty : Reached pipeWorld started ∧ IsString started.g.userPath 0 [] ∧
    ∃ start, startDir 0 started = some start ∧ (started.inodes start).nlinks ≠ 0 ∧
      (eatPath 0 started).1 = .ok none ∧ (resolve [] start started).1 = .ok (some start) := by
  have hruns : (fsInit (atBoot pipeWorld)).1 = .ok ⟨⟩ ∧ started.g.userPath 0 = 0 ∧
      startDir 0 started = some rootSlot ∧ (started.inodes rootSlot).nlinks ≠ 0 ∧
      (eatPath 0 started).1 = .ok none ∧
      (resolve [] rootSlot started).1 = .ok (some rootSlot) := by decide +kernel
  obtain ⟨hinit, hzero, hstart, hlinks, heat, hresolve⟩ := hruns
  exact ⟨.start (run_eq hinit), hzero, _, hstart, hlinks, heat, hresolve⟩

/-- A directory that the file system of device 512 is mounted on. -/
def mountPoint : InodeId := ⟨1, by decide⟩

def secondSuper : SuperId := ⟨1, by decide⟩

/-- The blocks with something in them: the root directories of the two devices with `abc` in the first one, the
    directory `abc`, and the root inode of the second device. -/
def twoDisksBlock (dev b : ℕ) : Block :=
  let dots (here up : ℕ) := [here, 0x2e00, 0, 0, 0, 0, 0, 0, up, 0x2e2e, 0, 0, 0, 0, 0, 0]
  if dev = 256 ∧ b = 1024 then wordBlock (dots 1 1 ++ [2, 0x6162, 0x6300])
  else if dev = 256 ∧ b = 2048 then wordBlock (dots 2 1)
  else if dev = 512 ∧ b = 4 then wordBlock [0o040755, 0, 0, 32, 0, 0, 2, 1]
  else if dev = 512 ∧ b = 1024 then wordBlock (dots 1 1)
  else if b = 2 ∨ b = 3 then oneZoneMap
  else zeroBytes

/-- `/abc//../`. -/
def throughMount : List UInt8 := [47, 97, 98, 99, 47, 47, 46, 46, 47]

/-- Two file systems, of which one is mounted on the directory `/abc` of the other. -/
def twoDisks : FsState :=
  let s := lettersDir 3
  { s with
    cache := { s.cache with disk := twoDisksBlock }
    supers := fun sp => if sp = rootSuper then lettersSuper
      else if sp = secondSuper then { lettersSuper with dev := 512, imount := .to mountPoint }
      else noSuperBlock
    inodes := fun i => if i = mountPoint then
        { noInode with
          mode := 0o040777
          nlinks := 2
          size := 32
          zone := fun i => if i = 0 then 2 else 0
          dev := 256
          num := 2
          count := 1
          mount := true }
      else s.inodes i
    fprocs := fun _ => { noFproc with rootdir := some theDir, workdir := some theDir }
    g := { s.g with userPath := fun i => throughMount.getD i 0 } }

theorem twoDisks_inode : ∀ i, (twoDisks.inodes i).count ≠ 0 → i = theDir ∨ i = mountPoint := by
  intro i hi
  by_contra hnot
  obtain ⟨hdir, hmount⟩ := not_or.mp hnot
  apply hi
  change (if i = mountPoint then _ else if i = theDir then _ else noInode).count = 0
  rw [if_neg hmount, if_neg hdir]
  rfl

theorem twoDisks_super : ∀ sp, (twoDisks.supers sp).dev ≠ noDev → sp = rootSuper ∨ sp = secondSuper := by
  decide

theorem twoDisks_sane : Sane twoDisks where
  cache :=
    have h := lettersCache_able 3
    ⟨⟨h.lru, h.nodup, h.hash, h.nonneg, h.inUse, h.unique⟩, h.served, h.room⟩
  driver sp hsp := by
    rcases twoDisks_super sp hsp with rfl | rfl
    · exact ⟨by decide, by decide⟩
    · exact ⟨by decide, by decide⟩
  root := ⟨by decide, rootSuper, rfl⟩
  maps sp hsp := by
    have htame (bp : BufId) : TameMap fun i => if i = 0 then .to bp else .nil := by
      intro i _ a
      dsimp only
      split <;> simp
    rcases twoDisks_super sp hsp with rfl | rfl
    · exact ⟨htame _, htame _⟩
    · exact ⟨htame _, htame _⟩
  nonneg i := by
    by_cases hi : (twoDisks.inodes i).count = 0
    · rw [hi]
    · rcases twoDisks_inode i hi with rfl | rfl
      · exact Int.one_nonneg
      · exact Int.one_nonneg
  known i hi := by
    rcases twoDisks_inode i hi with rfl | rfl
    · exact ⟨⟨by decide, rootSuper, rfl⟩, by decide⟩
    · exact ⟨⟨by decide, rootSuper, rfl⟩, by decide⟩
  idle i hi := by
    have hdir : i ≠ theDir := by
      rintro rfl
      exact absurd hi (by decide)
    have hmount : i ≠ mountPoint := by
      rintro rfl
      exact absurd hi (by decide)
    have hfree : twoDisks.inodes i = noInode := by
      change (if i = mountPoint then _ else if i = theDir then _ else noInode) = noInode
      rw [if_neg hmount, if_neg hdir]
    rw [hfree]
    exact ⟨rfl, rfl⟩
  unique i j hi hj hdev hnum := by
    rcases twoDisks_inode i hi with rfl | rfl <;> rcases twoDisks_inode j hj with rfl | rfl
    · rfl
    · exact absurd hnum (by decide)
    · exact absurd hnum (by decide)
    · rfl

def diskLevel (dev : ℕ) : ℕ := if dev = 512 then 1 else 0

theorem twoDisks_tree : MountTree diskLevel twoDisks where
  up sp hpos hsp := by
    rcases twoDisks_super sp hsp with rfl | rfl
    · exact absurd hpos (by decide)
    · exact ⟨mountPoint, rfl, by decide, by decide⟩
  point i hi := by
    rcases twoDisks_inode i (twoDisks_sane.mount_used hi) with rfl | rfl
    · exact absurd hi (by decide)
    · exact ⟨secondSuper, rfl⟩
  below sp i hsp _ := by
    have himount : ∀ sp, (twoDisks.supers sp).imount ≠ .nil → 0 < sp.val ∧ (twoDisks.supers sp).dev ≠ noDev := by
      decide
    exact himount sp (by rw [hsp]; simp)
  bound sp := by
    unfold diskLevel
    split <;> decide

/-- The server when the path has been followed. -/
def throughDone : FsState := (resolve throughMount theDir twoDisks).2

/-- `/abc` leads to the root inode of the second device, and `/abc//../` out of it again, to the root directory of
    the first one. -/
theorem eatPath_twoDisks : Resolves diskLevel 0 throughMount theDir twoDisks ∧
    (eatPath 0 twoDisks = (.ok (some theDir), throughDone) ∧ (throughDone.inodes theDir).count = 2) ∧
    ∃ j, (resolve [47, 97, 98, 99] theDir twoDisks).1 = .ok (some j) ∧
      identity (resolve [47, 97, 98, 99] theDir twoDisks).2 j = (512, 1) := by
  have hpath : IsString twoDisks.g.userPath 0 throughMount := by
    simp only [throughMount, IsString]
    decide
  have h := eatPath_resolves twoDisks_sane twoDisks_tree (show startDir 0 twoDisks = some theDir from rfl)
    (by decide) hpath (by decide)
  rw [if_neg (by decide)] at h
  have hscanned : scanned twoDisks throughMount = throughMount := if_neg (by decide)
  have hprepared : prepared 0 twoDisks = twoDisks := if_neg (by decide)
  have hfolds := h.folds
  rw [hscanned, hprepared] at hfolds
  have hfound : (resolve throughMount theDir twoDisks).1 = .ok (some theDir) := by decide +kernel
  have hdone : (resolve throughMount theDir twoDisks).2 = throughDone := by unfold throughDone; rfl
  rw [run_eq hfound, hdone] at hfolds
  have hcount := h.count_eq hfolds theDir
  have htwo : (twoDisks.inodes theDir).count + (holding (some theDir) theDir : ℤ) = 2 := by decide
  rw [htwo] at hcount
  exact ⟨h, ⟨hfolds, hcount⟩, ⟨⟨31, by decide⟩, by decide +kernel, by decide +kernel⟩⟩

end LisaMinix.Fs.Server
