import LisaMinix.Library.Memory
import LisaMinix.Mm.ExecImage

/-!
# Arguments Across Exec

`execve` of the library builds the initial stack of the new program in the caller's memory: `argc`,
the argument pointers, a null, the environment pointers, a null, and the strings.  Pointers count
from the start of that stack.  MM takes a copy, adds the address at which the stack is going to be
(`patch_ptr`), and puts it at the top of the stack segment.

- `execve`: the library, with its 16-bit sizes.
- `HasArgs`: memory holds an argument vector.
- `execve_hasArgs`: the library lays one out.
- `HasArgs.patchPtr`: `patch_ptr` moves one.
- `exec_arguments`: the new program finds its arguments.
-/

namespace LisaMinix.Mm

open LisaMinix.Library
open LisaMinix.Kernel

/-! ## §1 The Library -/

/-- A string, without the null at its end. -/
abbrev CString := { l : List UInt8 // 0 ∉ l }

/-- The string as it stands in memory. -/
def CString.stored (s : CString) : List UInt8 := s.val ++ [0]

/-- `strlen`; `size_t` is an `unsigned int`. -/
def strlen (s : CString) : ℤ := (s.val.length : ℤ) % 65536

/-- The difference of two pointers that are `n` pointers apart; `ptrdiff_t` is an `int`. -/
def ptrDiff (n : ℕ) : ℤ := asInt (4 * n) / 4

/-- `stackbytes` and `overflow`. -/
structure StackSize where
  bytes : ℤ
  overflow : Bool
  deriving DecidableEq

/-- `temp = stackbytes + n; if (temp < stackbytes) overflow = TRUE; stackbytes = temp;` -/
def StackSize.add (z : StackSize) (n : ℤ) : StackSize :=
  ⟨asInt (z.bytes + n), z.overflow || decide (asInt (z.bytes + n) < z.bytes)⟩

/-- `npointers` -/
def npointers (nargs nenvps : ℤ) : ℤ := asInt (1 + nargs + 1 + nenvps + 1)

/-- The size of the stack as `__execve` adds it up. -/
def stackSize (argv envp : List CString) (nargs nenvps : ℤ) : StackSize :=
  let np := npointers nargs nenvps
  -- for nulls in strings
  let bytes := asInt (nargs + nenvps)
  let overflow := nargs < 0 || nenvps < 0 || bytes < nargs || np < bytes
  let z := (List.replicate 4 np).foldl StackSize.add ⟨bytes, overflow⟩
  let z := (argv.map strlen).foldl StackSize.add z
  let z := (envp.map strlen).foldl StackSize.add z
  let z := z.add 3
  -- `(temp / PTRSIZE) * PTRSIZE`, and `PTRSIZE` is unsigned
  ⟨asInt (z.bytes % 65536 / 4 * 4), z.overflow⟩

/-- `ap` and `hp`, and the memory they write to. -/
structure Cursor where
  mem : Memory
  ap : ℤ
  hp : ℤ

/-- `*ap++ = v` -/
def Cursor.putPtr (c : Cursor) (v : ℤ) : Cursor :=
  { c with mem := c.mem.storeLong c.ap (v % 2 ^ 32).toNat, ap := c.ap + 4 }

/-- `*ap++ = hp - stack`, and the string is copied to `hp`. -/
def Cursor.putString (stack : ℤ) (c : Cursor) (s : CString) : Cursor :=
  let c := c.putPtr (asInt (c.hp - stack))
  { c with mem := c.mem.write c.hp s.stored, hp := c.hp + s.stored.length }

/-- The vector and the strings, from `stack` on. -/
def layOut (mem : Memory) (stack : ℤ) (argv envp : List CString) (nargs nenvps : ℤ) : Memory :=
  let c : Cursor := ⟨mem, stack, stack + npointers nargs nenvps * 4 % 65536⟩
  let c := argv.foldl (Cursor.putString stack) (c.putPtr nargs)
  let c := envp.foldl (Cursor.putString stack) (c.putPtr 0)
  (c.putPtr 0).mem

/-- `execve` up to the message to MM: the memory and the size of the stack, or `none` for `E2BIG`.
    `brk` is the break, at which `sbrk` makes room if it can, and `room` says that it can. -/
def execve (mem : Memory) (brk : ℤ) (room : Bool) (argv envp : List CString) :
    Option (Memory × ℤ) :=
  -- `__execve(path, argv, envp, argtop - argv, envtop - envp)`
  let nargs := ptrDiff argv.length
  let nenvps := ptrDiff envp.length
  let argv := argv.take nargs.toNat
  let envp := envp.take nenvps.toNat
  let z := stackSize argv envp nargs nenvps
  if z.overflow || decide (argMax < z.bytes) || !room then none
  else some (layOut mem brk argv envp nargs nenvps, z.bytes)

/-! ## §2 The Memory Manager -/

/-- The loop of `patch_ptr`; `flag` counts the null pointers seen. -/
def patchLoop (base : ℤ) (m : Memory) (ap flag : ℕ) : Memory :=
  if flag < 2 then
    if argMax ≤ ap then m
    else if m.long ap ≠ 0 then
      patchLoop base (m.storeLong ap ((m.long ap + base) % 2 ^ 32).toNat) (ap + 4) flag
    else patchLoop base m (ap + 4) (flag + 1)
  else m
termination_by argMax.toNat - ap
decreasing_by
  all_goals
    unfold argMax at *
    omega

/-- `patch_ptr(stack, base)`, where memory is MM's and `stack` its buffer, at 0. -/
def patchPtr (m : Memory) (base : ℤ) : Memory := patchLoop base m 4 0

/-- The address of the new stack, with the map of the new image. -/
def newSp (seg : MemMaps) (stk : ℤ) : ℤ :=
  wrap32 ((seg.stack.memVir * 256 : ℤ) + seg.stack.memLen * 256 - stk)

/-- Memory after the stack has been copied, `none` for the panic.  `user` is what the caller has at
    `stackPtr`, `mbuf` what was in the buffer of MM before. -/
def copyStack (seg : MemMaps) (user : Memory) (stackPtr : ℤ) (stk : ℕ) (mbuf phys : Memory) :
    Option Memory :=
  let mbuf := patchPtr (mbuf.write 0 (user.read stackPtr stk)) (newSp seg stk)
  if stk = 0 then some phys
  else
    let dst := umap seg 1 (newSp seg stk) stk
    if dst = 0 then none else some (phys.write dst (mbuf.read 0 stk))

/-- What `load_seg` can do to memory: bytes that none of its reads asked for stay. -/
def LoadSeg (phys : ℕ) (n : ℤ) (m m' : Memory) : Prop :=
  ∀ x, (∀ r, LoadRead (phys * 256) n r → x < r.1 ∨ r.1 + r.2 ≤ x) → m' x = m x

/-! ## §3 The Size -/

/-- An overflow is not forgotten. -/
theorem StackSize.overflow_of_foldl (l : List ℤ) : ∀ z : StackSize,
    (l.foldl StackSize.add z).overflow = false → z.overflow = false := by
  induction l with
  | nil => exact fun z h => h
  | cons n l ih =>
    intro z h
    have hadd := ih (z.add n) h
    exact (Bool.or_eq_false_iff.mp hadd).1

/-- A sum that has not overflowed is the sum. -/
theorem StackSize.add_eq {z : StackSize} {n : ℤ} (hn : 0 ≤ n) (hlt : n < 65536)
    (hz : z.overflow = false → 0 ≤ z.bytes ∧ z.bytes < 32768) (h : (z.add n).overflow = false) :
    z.overflow = false ∧ (z.add n).bytes = z.bytes + n ∧ z.bytes + n < 32768 := by
  unfold add at h ⊢
  simp only [Bool.or_eq_false_iff, decide_eq_false_iff_not] at h
  obtain ⟨hno, hle⟩ := h
  obtain ⟨hpos, hbound⟩ := hz hno
  refine ⟨hno, ?_, ?_⟩
  · unfold asInt at hle ⊢
    dsimp only
    omega
  · unfold asInt at hle
    omega

/-- The same for several sums. -/
theorem StackSize.foldl_add (l : List ℤ) (hl : ∀ n ∈ l, 0 ≤ n ∧ n < 65536) : ∀ z : StackSize,
    (z.overflow = false → 0 ≤ z.bytes ∧ z.bytes < 32768) →
    (l.foldl StackSize.add z).overflow = false →
    z.overflow = false ∧ (l.foldl StackSize.add z).bytes = z.bytes + l.sum ∧
      z.bytes + l.sum < 32768 := by
  induction l with
  | nil =>
    intro z hz h
    have := hz h
    simp only [List.foldl_nil, List.sum_nil, add_zero, true_and]
    exact ⟨h, this.2⟩
  | cons n l ih =>
    intro z hz h
    obtain ⟨hn, hlt⟩ := hl n List.mem_cons_self
    rw [List.foldl_cons] at h ⊢
    -- overflow of the first sum would still show at the end
    have hnext : (z.add n).overflow = false → 0 ≤ (z.add n).bytes ∧ (z.add n).bytes < 32768 := by
      intro hno
      obtain ⟨hzno, heq, hbound⟩ := add_eq hn hlt hz hno
      have := hz hzno
      omega
    obtain ⟨hno, hsum, hbound⟩ := ih (fun k hk => hl k (List.mem_cons_of_mem _ hk)) _ hnext h
    obtain ⟨hzno, heq, -⟩ := add_eq hn hlt hz hno
    rw [List.sum_cons]
    exact ⟨hzno, by omega, by omega⟩

/-- The strings of a vector as they stand in memory. -/
def storedLength (l : List CString) : ℕ := (l.map fun s => s.stored.length).sum

@[simp] theorem CString.length_stored (s : CString) : s.stored.length = s.val.length + 1 := by
  simp [CString.stored]

/-- What a string adds to the size, for strings that are objects of this machine. -/
theorem sum_strlen {l : List CString} (h : ∀ s ∈ l, s.val.length < 65536) :
    (l.map strlen).sum + l.length = storedLength l := by
  induction l with
  | nil => rfl
  | cons s l ih =>
    have hs := h s List.mem_cons_self
    have hl := ih fun t ht => h t (List.mem_cons_of_mem _ ht)
    simp only [List.map_cons, List.sum_cons, storedLength, List.length_cons, CString.length_stored,
      strlen] at hl ⊢
    push_cast at hl ⊢
    omega

/-- The longwords of the vector: `argc`, the pointers and two nulls. -/
def vectorWords (argv envp : List CString) : ℕ := argv.length + envp.length + 3

/-- What is added up: the words of the vector, the strings, and what it takes to round up. -/
def addends (argv envp : List CString) (np : ℤ) : List ℤ :=
  List.replicate 4 np ++ argv.map strlen ++ envp.map strlen ++ [3]

/-- `stackbytes` and `overflow` before anything is added to them. -/
def startSize (nargs nenvps : ℤ) : StackSize :=
  ⟨asInt (nargs + nenvps), nargs < 0 || nenvps < 0 || asInt (nargs + nenvps) < nargs ||
    npointers nargs nenvps < asInt (nargs + nenvps)⟩

/-- The four loops are one. -/
theorem stackSize_fold (argv envp : List CString) (nargs nenvps : ℤ) :
    stackSize argv envp nargs nenvps =
      ⟨asInt (((addends argv envp (npointers nargs nenvps)).foldl StackSize.add
          (startSize nargs nenvps)).bytes % 65536 / 4 * 4),
        ((addends argv envp (npointers nargs nenvps)).foldl StackSize.add
          (startSize nargs nenvps)).overflow⟩ := by
  simp only [addends, List.foldl_append]
  rfl

variable {argv envp : List CString} {f : ExecFile}

/-- Without overflow there are no negative numbers of pointers, and their sums fit. -/
theorem startSize_of_stackSize {nargs nenvps : ℤ}
    (h : (stackSize argv envp nargs nenvps).overflow = false) :
    0 ≤ nargs ∧ 0 ≤ nenvps ∧ nargs ≤ asInt (nargs + nenvps) ∧
      asInt (nargs + nenvps) ≤ npointers nargs nenvps := by
  rw [stackSize_fold] at h
  have hstart := StackSize.overflow_of_foldl _ _ h
  simp only [startSize, Bool.or_eq_false_iff, decide_eq_false_iff_not, not_lt] at hstart
  obtain ⟨⟨⟨hargs, henvs⟩, hbytes⟩, hwords⟩ := hstart
  exact ⟨hargs, henvs, hbytes, hwords⟩

/-- The size that `__execve` finds, if it finds no overflow, is the size that is needed, rounded up
    to longwords. -/
theorem stackSize_eq (hargv : ∀ s ∈ argv, s.val.length < 65536)
    (henvp : ∀ s ∈ envp, s.val.length < 65536) (ha : argv.length < 32768)
    (he : envp.length < 32768)
    (h : (stackSize argv envp argv.length envp.length).overflow = false) :
    npointers argv.length envp.length = vectorWords argv envp ∧
    4 * vectorWords argv envp + storedLength argv + storedLength envp ≤
      (stackSize argv envp argv.length envp.length).bytes ∧
    4 * vectorWords argv envp + storedLength argv + storedLength envp < 32768 := by
  obtain ⟨-, -, hbytes, hwords⟩ := startSize_of_stackSize h
  rw [stackSize_fold] at h ⊢
  dsimp only at h ⊢
  set np := npointers argv.length envp.length with hnp
  set z₀ := startSize argv.length envp.length with hz0
  have hnp' : np = vectorWords argv envp := by
    unfold npointers at hnp
    unfold vectorWords
    unfold asInt at hnp hbytes hwords
    push_cast
    omega
  have hz0' : z₀.bytes = argv.length + envp.length := by
    rw [hz0]
    unfold startSize
    dsimp only
    unfold asInt at hbytes ⊢
    omega
  have hlt : argv.length + envp.length < 32765 := by
    unfold npointers at hnp
    unfold asInt at hnp hbytes hwords
    omega
  have hfold := StackSize.foldl_add (addends argv envp np) ?_ z₀ ?_ h
  · obtain ⟨-, hsum, hbound⟩ := hfold
    have hargs := sum_strlen hargv
    have henvs := sum_strlen henvp
    simp only [addends, List.sum_append, List.sum_replicate, List.sum_cons, List.sum_nil,
      nsmul_eq_mul, Nat.cast_ofNat] at hsum hbound
    refine ⟨hnp', ?_, ?_⟩
    · unfold addends
      rw [hsum]
      unfold asInt
      omega
    · omega
  · intro n hn
    simp only [addends, List.mem_append, List.mem_replicate, List.mem_map, List.mem_singleton] at hn
    rcases hn with ((⟨-, hn⟩ | ⟨s, -, hn⟩) | ⟨s, -, hn⟩) | hn
    · unfold vectorWords at hnp'
      push_cast at hnp'
      omega
    · unfold strlen at hn
      omega
    · unfold strlen at hn
      omega
    · omega
  · intro _
    omega

/-! ## §4 The Layout -/

/-- Pointer `p` leads to string `s`, which is after the vector of `words` longwords and inside of the
    `n` bytes that start at `lo`.  Pointers count from `base`. -/
structure StringAt (m : Memory) (lo base : ℤ) (words n p : ℕ) (s : CString) : Prop where
  above : base + 4 * words ≤ p
  below : (p : ℤ) + s.stored.length ≤ base + n
  bytes : m.read (lo + (p - base)) s.stored.length = s.stored

/-- The `n` bytes at `lo` are an argument vector and its strings. -/
structure HasArgs (m : Memory) (lo base : ℤ) (n : ℕ) (argv envp : List CString) : Prop where
  fits : 4 * vectorWords argv envp ≤ n
  argc : m.long lo = argv.length
  args : ∀ i (h : i < argv.length),
    StringAt m lo base (vectorWords argv envp) n (m.long (lo + 4 * (1 + i : ℕ))) argv[i]
  argsEnd : m.long (lo + 4 * (1 + argv.length : ℕ)) = 0
  envs : ∀ i (h : i < envp.length),
    StringAt m lo base (vectorWords argv envp) n (m.long (lo + 4 * (2 + argv.length + i : ℕ))) envp[i]
  envsEnd : m.long (lo + 4 * (2 + argv.length + envp.length : ℕ)) = 0

/-- The pointers from `ap` on and the strings from `hp` on belong together. -/
def Laid (m : Memory) (stack : ℤ) : ℤ → ℤ → List CString → Prop
  | _, _, [] => True
  | ap, hp, s :: l => (m.long ap : ℤ) = hp - stack ∧ m.read hp s.stored.length = s.stored ∧
      Laid m stack (ap + 4) (hp + s.stored.length) l

@[simp] theorem storedLength_nil : storedLength [] = 0 := rfl

@[simp] theorem storedLength_cons (s : CString) (l : List CString) :
    storedLength (s :: l) = s.stored.length + storedLength l := rfl

section Layout

variable {m m' : Memory} {stack ap hp : ℤ} {l : List CString}

theorem Laid.congr (h : Laid m stack ap hp l) (hptr : Memory.Agree m m' ap (4 * l.length))
    (hstr : Memory.Agree m m' hp (storedLength l)) : Laid m' stack ap hp l := by
  induction l generalizing ap hp with
  | nil => trivial
  | cons s l ih =>
    obtain ⟨hlong, hread, hrest⟩ := h
    rw [List.length_cons] at hptr
    rw [storedLength_cons] at hstr
    refine ⟨?_, ?_, ih hrest (hptr.mono (by omega) (by push_cast; omega))
      (hstr.mono (by omega) (by push_cast; omega))⟩
    · rw [Memory.long_congr (hptr.mono le_rfl (by push_cast; omega))]
      exact hlong
    · rw [Memory.read_congr (hstr.mono le_rfl (by push_cast; omega))]
      exact hread

/-- Each pointer leads to its string. -/
theorem Laid.string (h : Laid m stack ap hp l) (i : ℕ) (hi : i < l.length) :
    hp - stack ≤ m.long (ap + 4 * i) ∧
      (m.long (ap + 4 * i) : ℤ) + l[i].stored.length ≤ hp - stack + storedLength l ∧
      m.read (stack + m.long (ap + 4 * i)) l[i].stored.length = l[i].stored := by
  induction l generalizing ap hp i with
  | nil => exact absurd hi (Nat.not_lt_zero i)
  | cons s l ih =>
    obtain ⟨hlong, hread, hrest⟩ := h
    rw [storedLength_cons]
    cases i with
    | zero =>
      simp only [Nat.cast_zero, mul_zero, add_zero, List.getElem_cons_zero]
      rw [hlong]
      refine ⟨le_rfl, by push_cast; omega, ?_⟩
      rw [add_sub_cancel]
      exact hread
    | succ i =>
      have hnext := ih hrest i (by simpa using hi)
      have haddr : ap + 4 * ((i + 1 : ℕ) : ℤ) = ap + 4 + 4 * (i : ℤ) := by
        push_cast
        ring
      rw [haddr, List.getElem_cons_succ]
      obtain ⟨hlo, hhi, hbytes⟩ := hnext
      refine ⟨by omega, by push_cast; omega, hbytes⟩

/-- What the loop over a vector does: the pointers, the strings, and nothing else. -/
theorem putStrings (stack : ℤ) (l : List CString) : ∀ c : Cursor, c.ap + 4 * l.length ≤ c.hp →
    stack ≤ c.hp → c.hp + storedLength l < stack + 32768 →
    (l.foldl (Cursor.putString stack) c).ap = c.ap + 4 * l.length ∧
    (l.foldl (Cursor.putString stack) c).hp = c.hp + storedLength l ∧
    Laid (l.foldl (Cursor.putString stack) c).mem stack c.ap c.hp l ∧
    ∀ x, (x < c.ap ∨ c.ap + 4 * l.length ≤ x) → (x < c.hp ∨ c.hp + storedLength l ≤ x) →
      (l.foldl (Cursor.putString stack) c).mem x = c.mem x := by
  induction l with
  | nil => exact fun c _ _ _ => ⟨by simp, by simp, trivial, fun _ _ _ => rfl⟩
  | cons s l ih =>
    intro c hap hst hlt
    rw [List.length_cons] at hap
    rw [storedLength_cons] at hlt
    push_cast at hap hlt
    have hap' : (c.putString stack s).ap = c.ap + 4 := rfl
    have hhp' : (c.putString stack s).hp = c.hp + s.stored.length := rfl
    have hmem' : (c.putString stack s).mem =
        (c.mem.storeLong c.ap (asInt (c.hp - stack) % 2 ^ 32).toNat).write c.hp s.stored := rfl
    obtain ⟨h1, h2, h3, h4⟩ := ih (c.putString stack s) (by rw [hap', hhp']; omega)
      (by rw [hhp']; omega) (by rw [hhp']; omega)
    rw [hap', hhp'] at h4
    rw [List.foldl_cons, List.length_cons, storedLength_cons, h1, h2, hap', hhp']
    refine ⟨by push_cast; ring, by push_cast; ring, ⟨?_, ?_, ?_⟩, ?_⟩
    · -- the pointer is not touched again
      rw [Memory.long_congr (m := (c.putString stack s).mem)
        fun x hlo hhi => h4 x (.inl (by omega)) (.inl (by omega))]
      rw [hmem', Memory.long_congr (Memory.agree_write (.inl (by push_cast; omega))),
        Memory.long_storeLong]
      have hoff : asInt (c.hp - stack) = c.hp - stack := by
        unfold asInt
        omega
      rw [hoff]
      omega
    · rw [Memory.read_congr (m := (c.putString stack s).mem)
        fun x hlo hhi => h4 x (.inr (by omega)) (.inl (by omega)), hmem']
      exact Memory.read_write _ _ _
    · rw [hap', hhp'] at h3
      exact h3
    · intro x hptr hstr
      push_cast at hptr hstr
      rw [h4 x (by omega) (by omega), hmem', Memory.write_outside (by omega)]
      exact Memory.write_outside (by rw [length_beBytes]; omega)

theorem Cursor.putPtr_outside {c : Cursor} {v x : ℤ} (h : x < c.ap ∨ c.ap + 4 ≤ x) :
    (c.putPtr v).mem x = c.mem x :=
  Memory.write_outside (by rw [length_beBytes]; omega)

theorem Cursor.long_putPtr {c : Cursor} {v : ℤ} :
    ((c.putPtr v).mem.long c.ap : ℤ) = v % 2 ^ 32 := by
  have hlong := Memory.long_storeLong c.mem c.ap (v % 2 ^ 32).toNat
  unfold Cursor.putPtr
  dsimp only
  rw [hlong]
  omega

/-- **The layout.**  Of the five parts of the stack none overwrites another. -/
theorem layOut_laid {mem : Memory} (hnp : npointers argv.length envp.length = vectorWords argv envp)
    (hlt : 4 * vectorWords argv envp + storedLength argv + storedLength envp < 32768) :
    let mem' := layOut mem stack argv envp argv.length envp.length
    mem'.long stack = argv.length ∧
    Laid mem' stack (stack + 4) (stack + 4 * vectorWords argv envp) argv ∧
    mem'.long (stack + 4 + 4 * argv.length) = 0 ∧
    Laid mem' stack (stack + 8 + 4 * argv.length)
      (stack + 4 * vectorWords argv envp + storedLength argv) envp ∧
    mem'.long (stack + 8 + 4 * argv.length + 4 * envp.length) = 0 := by
  have hhp : npointers argv.length envp.length * 4 % 65536 = 4 * vectorWords argv envp := by
    rw [hnp]
    omega
  unfold layOut
  rw [hhp]
  set w := vectorWords argv envp with hw
  have hwords : w = argv.length + envp.length + 3 := rfl
  set c₁ := Cursor.putPtr ⟨mem, stack, stack + 4 * w⟩ argv.length with hc1
  have hap1 : c₁.ap = stack + 4 := rfl
  have hhp1 : c₁.hp = stack + 4 * w := rfl
  obtain ⟨hap2, hhp2, hlaid2, hsame2⟩ := putStrings stack argv c₁ (by omega) (by omega) (by omega)
  set c₂ := argv.foldl (Cursor.putString stack) c₁ with hc2
  set c₃ := c₂.putPtr 0 with hc3
  have hap3 : c₃.ap = c₂.ap + 4 := rfl
  have hhp3 : c₃.hp = c₂.hp := rfl
  obtain ⟨hap4, hhp4, hlaid4, hsame4⟩ := putStrings stack envp c₃ (by omega) (by omega) (by omega)
  set c₄ := envp.foldl (Cursor.putString stack) c₃ with hc4
  -- what each part leaves alone, in terms of the start of the stack
  have hsame5 : ∀ x, (x < c₄.ap ∨ c₄.ap + 4 ≤ x) → (c₄.putPtr 0).mem x = c₄.mem x :=
    fun x hx => Cursor.putPtr_outside hx
  have hsame3 : ∀ x, (x < c₂.ap ∨ c₂.ap + 4 ≤ x) → c₃.mem x = c₂.mem x :=
    fun x hx => Cursor.putPtr_outside hx
  dsimp only
  refine ⟨?_, ?_, ?_, ?_, ?_⟩
  · have hlong : (c₁.mem.long stack : ℤ) = (argv.length : ℤ) % 2 ^ 32 := Cursor.long_putPtr
    rw [Memory.long_congr (m := c₁.mem)]
    · omega
    · intro x hlo hhi
      rw [hsame5 x (by omega), hsame4 x (by omega) (by omega), hsame3 x (by omega),
        hsame2 x (by omega) (by omega)]
  · rw [hap1, hhp1] at hlaid2
    apply hlaid2.congr
    · intro x hlo hhi
      push_cast at hhi
      rw [hsame5 x (by omega), hsame4 x (by omega) (by omega), hsame3 x (by omega)]
    · intro x hlo hhi
      rw [hsame5 x (by omega), hsame4 x (by omega) (by omega), hsame3 x (by omega)]
  · have hlong : (c₃.mem.long c₂.ap : ℤ) = (0 : ℤ) % 2 ^ 32 := Cursor.long_putPtr
    have haddr : stack + 4 + 4 * (argv.length : ℤ) = c₂.ap := by omega
    rw [haddr, Memory.long_congr (m := c₃.mem)]
    · omega
    · intro x hlo hhi
      rw [hsame5 x (by omega), hsame4 x (by omega) (by omega)]
  · have hapaddr : stack + 8 + 4 * (argv.length : ℤ) = c₃.ap := by omega
    have hhpaddr : stack + 4 * (w : ℤ) + storedLength argv = c₃.hp := by omega
    rw [hapaddr, hhpaddr]
    apply hlaid4.congr
    · intro x hlo hhi
      push_cast at hhi
      exact hsame5 x (by omega)
    · intro x hlo hhi
      exact hsame5 x (by omega)
  · have hlong : ((c₄.putPtr 0).mem.long c₄.ap : ℤ) = (0 : ℤ) % 2 ^ 32 := Cursor.long_putPtr
    have haddr : stack + 8 + 4 * (argv.length : ℤ) + 4 * envp.length = c₄.ap := by omega
    have hzero : (c₄.putPtr 0).mem.long c₄.ap = 0 := by omega
    rw [haddr]
    exact hzero

theorem ptrDiff_eq {n : ℕ} (h : n < 16384) : ptrDiff n = n ∨ ptrDiff n < 0 := by
  unfold ptrDiff asInt
  omega

/-- **What `execve` sends to MM** is an argument vector. -/
theorem execve_hasArgs {mem mem' : Memory} {brk z : ℤ} {room : Bool}
    (hargv : ∀ s ∈ argv, s.val.length < 65536) (henvp : ∀ s ∈ envp, s.val.length < 65536)
    (ha : argv.length < 16384) (he : envp.length < 16384)
    (h : execve mem brk room argv envp = some (mem', z)) :
    0 ≤ z ∧ z ≤ argMax ∧ HasArgs mem' brk 0 z.toNat argv envp := by
  unfold execve at h
  dsimp only at h
  split at h
  · cases h
  next hno =>
  simp only [Bool.or_eq_true, decide_eq_true_eq, not_or, Bool.not_eq_true, not_lt] at hno
  obtain ⟨⟨hover, hmax⟩, -⟩ := hno
  obtain ⟨hnargs, hnenvps, -, -⟩ := startSize_of_stackSize hover
  -- so the differences of the pointers are the numbers of strings
  have hna : ptrDiff argv.length = argv.length := (ptrDiff_eq ha).resolve_right (by omega)
  have hne : ptrDiff envp.length = envp.length := (ptrDiff_eq he).resolve_right (by omega)
  rw [hna, hne, Int.toNat_natCast, Int.toNat_natCast, List.take_length, List.take_length] at hover hmax h
  obtain ⟨hmem, hz⟩ := Prod.mk.inj (Option.some.inj h)
  obtain ⟨hnp, hle, hlt⟩ := stackSize_eq hargv henvp (by omega) (by omega) hover
  rw [hz] at hle hmax
  obtain ⟨hargc, hargs, hnull, henvs, hnull'⟩ := @layOut_laid argv envp brk mem hnp hlt
  rw [hmem] at hargc hargs hnull henvs hnull'
  refine ⟨by omega, hmax, by omega, hargc, ?_, ?_, ?_, ?_⟩
  · intro i hi
    have haddr : brk + 4 * ((1 + i : ℕ) : ℤ) = brk + 4 + 4 * (i : ℤ) := by
      push_cast
      ring
    obtain ⟨hlo, hhi, hbytes⟩ := hargs.string i hi
    rw [haddr]
    refine ⟨by omega, by omega, ?_⟩
    rw [sub_zero]
    exact hbytes
  · have haddr : brk + 4 * ((1 + argv.length : ℕ) : ℤ) = brk + 4 + 4 * (argv.length : ℤ) := by
      push_cast
      ring
    rw [haddr]
    exact hnull
  · intro i hi
    have haddr : brk + 4 * ((2 + argv.length + i : ℕ) : ℤ) =
        brk + 8 + 4 * (argv.length : ℤ) + 4 * (i : ℤ) := by
      push_cast
      ring
    obtain ⟨hlo, hhi, hbytes⟩ := henvs.string i hi
    rw [haddr]
    refine ⟨by omega, by omega, ?_⟩
    rw [sub_zero]
    exact hbytes
  · have haddr : brk + 4 * ((2 + argv.length + envp.length : ℕ) : ℤ) =
        brk + 8 + 4 * (argv.length : ℤ) + 4 * (envp.length : ℤ) := by
      push_cast
      ring
    rw [haddr]
    exact hnull'

end Layout

/-! ## §5 Pointers Are Moved -/

/-- The `k` longwords from `ap` on, moved by `base`. -/
def movePtrs (base : ℤ) : ℕ → Memory → ℤ → Memory
  | 0, m, _ => m
  | k + 1, m, ap => movePtrs base k (m.storeLong ap ((m.long ap + base) % 2 ^ 32).toNat) (ap + 4)

section Patch

variable {base : ℤ} {m : Memory}

theorem storeLong_outside {a x : ℤ} {v : ℕ} (h : x < a ∨ a + 4 ≤ x) : m.storeLong a v x = m x :=
  Memory.write_outside (by rw [length_beBytes]; omega)

theorem movePtrs_outside (k : ℕ) : ∀ (m : Memory) (ap x : ℤ), x < ap ∨ ap + 4 * k ≤ x →
    movePtrs base k m ap x = m x := by
  induction k with
  | zero => exact fun _ _ _ _ => rfl
  | succ k ih =>
    intro m ap x hx
    push_cast at hx
    rw [movePtrs, ih _ _ x (by omega)]
    exact storeLong_outside (by omega)

theorem long_movePtrs (k : ℕ) : ∀ (m : Memory) (ap : ℤ) (i : ℕ), i < k →
    ((movePtrs base k m ap).long (ap + 4 * i) : ℤ) = (m.long (ap + 4 * i) + base) % 2 ^ 32 := by
  induction k with
  | zero => exact fun _ _ i hi => absurd hi (Nat.not_lt_zero i)
  | succ k ih =>
    intro m ap i hi
    rw [movePtrs]
    cases i with
    | zero =>
      -- the first one is not touched again
      rw [Memory.long_congr fun x hlo hhi => movePtrs_outside k _ _ x (by push_cast at hlo hhi; omega)]
      simp only [Nat.cast_zero, mul_zero, add_zero]
      rw [Memory.long_storeLong]
      omega
    | succ i =>
      have haddr : ap + 4 * ((i + 1 : ℕ) : ℤ) = ap + 4 + 4 * (i : ℤ) := by
        push_cast
        ring
      rw [haddr, ih _ _ i (by omega), Memory.long_congr (Memory.agree_storeLong (by omega))]

/-- One run of pointers and the null after it. -/
theorem patchLoop_run (k : ℕ) : ∀ (m : Memory) (ap flag : ℕ), flag < 2 → (ap + 4 * k : ℤ) < argMax →
    (∀ i < k, m.long (ap + 4 * i) ≠ 0) → m.long (ap + 4 * k) = 0 →
    patchLoop base m ap flag =
      patchLoop base (movePtrs base k m ap) (ap + 4 * k + 4) (flag + 1) := by
  induction k with
  | zero =>
    intro m ap flag hflag hap _ hnull
    simp only [Nat.cast_zero, mul_zero, add_zero] at hap hnull
    rw [patchLoop, if_pos hflag, if_neg (by omega), if_neg (not_not.mpr hnull)]
    rfl
  | succ k ih =>
    intro m ap flag hflag hap hptr hnull
    push_cast at hap hnull
    have hfirst := hptr 0 (Nat.succ_pos k)
    simp only [Nat.cast_zero, mul_zero, add_zero] at hfirst
    rw [patchLoop, if_pos hflag, if_neg (by omega), if_pos hfirst,
      ih _ _ flag hflag (by push_cast; omega) ?_ ?_]
    · have haddr : ap + 4 + 4 * k + 4 = ap + 4 * (k + 1) + 4 := by ring
      rw [movePtrs, haddr]
      push_cast
      rfl
    · intro i hi
      have hnext := hptr (i + 1) (by omega)
      push_cast at hnext ⊢
      rw [Memory.long_congr (Memory.agree_storeLong (by omega))]
      have haddr : (ap : ℤ) + 4 + 4 * i = ap + 4 * (i + 1) := by ring
      rw [haddr]
      exact hnext
    · push_cast
      rw [Memory.long_congr (Memory.agree_storeLong (by omega))]
      have haddr : (ap : ℤ) + 4 + 4 * k = ap + 4 * (k + 1) := by ring
      rw [haddr]
      exact hnull

theorem patchLoop_done {ap flag : ℕ} (h : ¬flag < 2) : patchLoop base m ap flag = m := by
  rw [patchLoop, if_neg h]

/-- The loop changes nothing below the pointer it starts with and nothing above the buffer. -/
theorem patchLoop_outside {ap flag : ℕ} (hap : 4 ∣ ap) {x : ℤ} (hx : x < ap ∨ argMax ≤ x) :
    patchLoop base m ap flag x = m x := by
  induction m, ap, flag using patchLoop.induct base with
  | case1 m ap flag hflag hmax => rw [patchLoop, if_pos hflag, if_pos hmax]
  | case2 m ap flag hflag hmax hptr ih =>
    rw [patchLoop, if_pos hflag, if_neg hmax, if_pos hptr,
      ih (hap.add (dvd_refl 4)) (by push_cast; omega)]
    apply storeLong_outside
    unfold argMax at *
    omega
  | case3 m ap flag hflag hmax hnull ih =>
    rw [patchLoop, if_pos hflag, if_neg hmax, if_neg hnull]
    exact ih (hap.add (dvd_refl 4)) (by push_cast; omega)
  | case4 m ap flag hflag => exact congrFun (patchLoop_done hflag) x

/-- The loop ends at the second null pointer, and changes nothing above it. -/
theorem patchLoop_above {ap flag a b : ℕ} (hap : 4 ∣ ap) (ha : 4 ∣ a) (hb : 4 ∣ b)
    (hfirst : flag = 0 → ap ≤ a ∧ a < b ∧ m.long a = 0) (hsecond : flag < 2 → ap ≤ b ∧ m.long b = 0)
    {x : ℤ} (hx : b + 4 ≤ x) : patchLoop base m ap flag x = m x := by
  induction m, ap, flag using patchLoop.induct base with
  | case1 m ap flag hflag hmax => rw [patchLoop, if_pos hflag, if_pos hmax]
  | case2 m ap flag hflag hmax hptr ih =>
    -- the pointer that is moved is neither of the two
    have hnext (c : ℕ) (hc : 4 ∣ c) (hle : ap ≤ c) (hnull : m.long c = 0) : ap + 4 ≤ c ∧
        (m.storeLong ap ((m.long ap + base) % 2 ^ 32).toNat).long c = 0 := by
      have hne : c ≠ ap := by
        rintro rfl
        exact hptr hnull
      have hlt : ap + 4 ≤ c := by omega
      rw [Memory.long_congr (Memory.agree_storeLong (by omega))]
      exact ⟨hlt, hnull⟩
    have hlast := hnext b hb (hsecond hflag).1 (hsecond hflag).2
    rw [patchLoop, if_pos hflag, if_neg hmax, if_pos hptr, ih (hap.add (dvd_refl 4)) ?_ fun _ => hlast]
    · exact storeLong_outside (by omega)
    · intro h0
      obtain ⟨hle, hlt, hnull⟩ := hfirst h0
      obtain ⟨hle', hnull'⟩ := hnext a ha hle hnull
      exact ⟨hle', hlt, hnull'⟩
  | case3 m ap flag hflag hmax hnull ih =>
    rw [patchLoop, if_pos hflag, if_neg hmax, if_neg hnull]
    refine ih (hap.add (dvd_refl 4)) (fun h0 => by omega) fun h2 => ?_
    obtain ⟨hle, hlt, -⟩ := hfirst (by omega)
    exact ⟨by omega, (hsecond hflag).2⟩
  | case4 m ap flag hflag => exact congrFun (patchLoop_done hflag) x

/-- What a vector of pointers becomes. -/
theorem HasArgs.patchPtr_eq {n : ℕ} (h : HasArgs m 0 0 n argv envp)
    (hn : n ≤ argMax) : patchPtr m base =
      movePtrs base envp.length (movePtrs base argv.length m 4) (8 + 4 * argv.length) := by
  have hfits := h.fits
  unfold vectorWords at hfits
  have hargs : ∀ i < argv.length, m.long ((4 : ℕ) + 4 * (i : ℤ)) ≠ 0 := by
    intro i hi hzero
    have habove := (h.args i hi).above
    have haddr : (0 : ℤ) + 4 * ((1 + i : ℕ) : ℤ) = (4 : ℕ) + 4 * (i : ℤ) := by
      push_cast
      ring
    rw [haddr, hzero] at habove
    unfold vectorWords at habove
    push_cast at habove
    omega
  have hend : m.long ((4 : ℕ) + 4 * (argv.length : ℤ)) = 0 := by
    have hzero := h.argsEnd
    push_cast at hzero ⊢
    rw [← hzero]
    congr 1
    ring
  have henvs : ∀ i < envp.length, m.long (8 + 4 * (argv.length : ℤ) + 4 * (i : ℤ)) ≠ 0 := by
    intro i hi hzero
    have habove := (h.envs i hi).above
    have haddr : (0 : ℤ) + 4 * ((2 + argv.length + i : ℕ) : ℤ) =
        8 + 4 * (argv.length : ℤ) + 4 * (i : ℤ) := by
      push_cast
      ring
    rw [haddr, hzero] at habove
    unfold vectorWords at habove
    push_cast at habove
    omega
  have hend' : m.long (8 + 4 * (argv.length : ℤ) + 4 * envp.length) = 0 := by
    have hzero := h.envsEnd
    push_cast at hzero
    rw [← hzero]
    congr 1
    ring
  -- the second run is where the first one has not been
  have hsame : ∀ i : ℕ, (movePtrs base argv.length m 4).long (8 + 4 * (argv.length : ℤ) + 4 * (i : ℤ)) =
      m.long (8 + 4 * (argv.length : ℤ) + 4 * (i : ℤ)) := by
    intro i
    exact Memory.long_congr fun x hlo _ => movePtrs_outside _ _ _ x (.inr (by omega))
  have haddr : ((4 + 4 * argv.length + 4 : ℕ) : ℤ) = 8 + 4 * (argv.length : ℤ) := by
    push_cast
    ring
  unfold patchPtr
  rw [patchLoop_run argv.length m 4 0 (by decide) (by push_cast; omega) hargs hend,
    patchLoop_run envp.length _ _ 1 (by decide) (by push_cast; omega) ?_ ?_, patchLoop_done (by decide)]
  · rw [haddr]
    rfl
  · intro i hi
    rw [haddr]
    push_cast
    rw [hsame]
    exact henvs i hi
  · rw [haddr]
    push_cast
    rw [hsame]
    exact hend'

/-- **`patch_ptr` moves an argument vector** to where the stack is going to be. -/
theorem HasArgs.patchPtr {n : ℕ} (h : HasArgs m 0 0 n argv envp)
    (hn : n ≤ argMax) (hbase : 0 ≤ base) (hlt : base + n < 2 ^ 32) :
    HasArgs (patchPtr m base) 0 base n argv envp := by
  have hfits := h.fits
  rw [h.patchPtr_eq hn]
  set m₁ := movePtrs base argv.length m 4 with hm1
  set m₂ := movePtrs base envp.length m₁ (8 + 4 * argv.length) with hm2
  -- a word that is not one of the pointers, and the strings, are as they were
  have hsame : ∀ x : ℤ, (x < 4 ∨ 4 + 4 * (argv.length : ℤ) ≤ x) →
      (x < 8 + 4 * (argv.length : ℤ) ∨ 8 + 4 * (argv.length : ℤ) + 4 * envp.length ≤ x) →
      m₂ x = m x := by
    intro x h1 h2
    rw [hm2, movePtrs_outside _ _ _ x h2, hm1, movePtrs_outside _ _ _ x h1]
  have hstring : ∀ {p p' : ℕ} {s : CString}, StringAt m 0 0 (vectorWords argv envp) n p s →
      (p' : ℤ) = (p + base) % 2 ^ 32 → StringAt m₂ 0 base (vectorWords argv envp) n p' s := by
    intro p p' s hs hp'
    have habove := hs.above
    have hbelow := hs.below
    have hmoved : (p' : ℤ) = p + base := by omega
    refine ⟨by omega, by omega, ?_⟩
    rw [hmoved, add_sub_cancel_right]
    have hbytes := hs.bytes
    rw [sub_zero] at hbytes
    refine (Memory.read_congr fun x hlo _ => ?_).trans hbytes
    unfold vectorWords at habove
    push_cast at habove
    exact hsame x (by omega) (by omega)
  refine ⟨hfits, ?_, ?_, ?_, ?_, ?_⟩
  · rw [Memory.long_congr fun x hlo hhi => hsame x (by push_cast at hhi; omega) (by push_cast at hhi; omega)]
    exact h.argc
  · intro i hi
    apply hstring (h.args i hi)
    have haddr : (0 : ℤ) + 4 * ((1 + i : ℕ) : ℤ) = 4 + 4 * (i : ℤ) := by
      push_cast
      ring
    rw [haddr, hm2, Memory.long_congr fun x hlo hhi => movePtrs_outside _ _ _ x
      (by push_cast at hhi; omega), hm1]
    exact long_movePtrs _ _ _ i hi
  · rw [Memory.long_congr fun x hlo hhi => hsame x (by push_cast at hlo; omega)
      (by push_cast at hhi; omega)]
    exact h.argsEnd
  · intro i hi
    apply hstring (h.envs i hi)
    have haddr : (0 : ℤ) + 4 * ((2 + argv.length + i : ℕ) : ℤ) =
        8 + 4 * (argv.length : ℤ) + 4 * (i : ℤ) := by
      push_cast
      ring
    rw [haddr, hm2, long_movePtrs _ _ _ i hi, hm1,
      Memory.long_congr fun x hlo hhi => movePtrs_outside _ _ _ x (by omega)]
  · rw [Memory.long_congr fun x hlo hhi => hsame x (by push_cast at hlo; omega)
      (by push_cast at hlo; omega)]
    exact h.envsEnd

end Patch

/-! ## §6 The New Image -/

/-- Memory as the process sees it. -/
def userView (seg : MemMaps) (phys : Memory) : Memory := fun v => phys (moved seg v)

/-- An argument vector is one wherever its bytes are. -/
theorem HasArgs.shift {m m' : Memory} {lo lo' base : ℤ} {n : ℕ} (h : HasArgs m lo base n argv envp)
    (hsame : ∀ k : ℤ, 0 ≤ k → k < n → m' (lo' + k) = m (lo + k)) :
    HasArgs m' lo' base n argv envp := by
  have hread : ∀ (k : ℤ) (j : ℕ), 0 ≤ k → k + j ≤ n → m'.read (lo' + k) j = m.read (lo + k) j := by
    intro k j hk hj
    apply List.map_congr_left
    intro i hi
    have hlt := List.mem_range.mp hi
    rw [add_assoc, add_assoc]
    exact hsame (k + i) (by omega) (by omega)
  have hlong : ∀ k : ℕ, k < vectorWords argv envp → m'.long (lo' + 4 * k) = m.long (lo + 4 * k) := by
    intro k hk
    have hfits := h.fits
    exact congrArg beVal (hread (4 * k) 4 (by omega) (by push_cast; omega))
  have hstring : ∀ {p : ℕ} {s : CString}, StringAt m lo base (vectorWords argv envp) n p s →
      StringAt m' lo' base (vectorWords argv envp) n p s := by
    intro p s hs
    have habove := hs.above
    have hbelow := hs.below
    exact ⟨habove, hbelow, (hread _ _ (by omega) (by omega)).trans hs.bytes⟩
  have hw : vectorWords argv envp = argv.length + envp.length + 3 := rfl
  refine ⟨h.fits, ?_, ?_, ?_, ?_, ?_⟩
  · have hfirst := hlong 0 (by omega)
    simp only [Nat.cast_zero, mul_zero, add_zero] at hfirst
    rw [hfirst]
    exact h.argc
  · intro i hi
    rw [hlong _ (by omega)]
    exact hstring (h.args i hi)
  · rw [hlong _ (by omega)]
    exact h.argsEnd
  · intro i hi
    rw [hlong _ (by omega)]
    exact hstring (h.envs i hi)
  · rw [hlong _ (by omega)]
    exact h.envsEnd

section Copy

variable {seg : MemMaps} {stk : ℕ}

/-- The new stack ends where the stack segment ends. -/
theorem newSp_eq (h : Shape seg) (hstk : stk ≤ seg.stack.memLen * 256) :
    newSp seg stk = ((seg.stack.memVir + seg.stack.memLen : ℕ) : ℤ) * 256 - stk := by
  have htop := h.virTop
  unfold newSp wrap32
  push_cast
  omega

/-- The kernel finds the new stack in the stack segment. -/
theorem umap_newSp (h : Shape seg) (hpos : 0 < stk) (hstk : stk ≤ seg.stack.memLen * 256) :
    umap seg 1 (newSp seg stk) stk = moved seg (newSp seg stk) ∧
      umap seg 1 (newSp seg stk) stk =
        ((seg.stack.memPhys + seg.stack.memLen : ℕ) : ℤ) * 256 - stk := by
  obtain ⟨hdv, hdp, horder, hsp, hvt, hpt, hne⟩ := h
  have hsp' := newSp_eq ⟨hdv, hdp, horder, hsp, hvt, hpt, hne⟩ hstk
  have hclick : clickOf (wrap32 (newSp seg stk + stk - 1)) = seg.stack.memVir + seg.stack.memLen - 1 := by
    rw [hsp']
    unfold clickOf wrap32
    push_cast
    omega
  have hchosen : umapSeg seg 1 (clickOf (wrap32 (newSp seg stk + stk - 1))) = seg.stack := by
    rw [hclick]
    unfold umapSeg segT
    rw [if_neg (by decide), if_neg]
    rw [segEnd, toClicks_of_lt (by omega)]
    omega
  have hend : ¬(segEnd (umapSeg seg 1 (clickOf (wrap32 (newSp seg stk + stk - 1)))) : ℤ)
      ≤ newSp seg stk / 256 := by
    rw [hchosen, segEnd, toClicks_of_lt hvt, hsp']
    push_cast
    omega
  have hmoved : moved seg (newSp seg stk) =
      ((seg.stack.memPhys + seg.stack.memLen : ℕ) : ℤ) * 256 - stk := by
    rw [hsp']
    unfold moved
    push_cast
    omega
  rw [umap_of_accepted ⟨hdv, hdp, horder, hsp, hvt, hpt, hne⟩ (by omega) hend, hmoved]
  unfold wrap32
  push_cast
  omega

/-- **The arguments are copied** to the top of the stack segment. -/
theorem copyStack_hasArgs {user mbuf phys : Memory} {stackPtr : ℤ}
    (h : Shape seg) (hphys : 0 < seg.text.memPhys) (hmax : stk ≤ argMax) (hstk : stk ≤ seg.stack.memLen * 256)
    (hargs : HasArgs user stackPtr 0 stk argv envp) :
    ∃ phys', copyStack seg user stackPtr stk mbuf phys = some phys' ∧
      HasArgs phys' (moved seg (newSp seg stk)) (newSp seg stk) stk argv envp := by
  have hpos : 0 < stk := by
    have hfits := hargs.fits
    unfold vectorWords at hfits
    omega
  obtain ⟨humap, hdst⟩ := umap_newSp h hpos hstk
  have hsp := newSp_eq h hstk
  have hvt := h.virTop
  -- in the buffer of MM
  have hbuf : HasArgs (mbuf.write 0 (user.read stackPtr stk)) 0 0 stk argv envp := by
    apply hargs.shift
    intro k hlo hhi
    exact Memory.copy_apply _ _ 0 stackPtr hlo hhi
  have hmoved := @HasArgs.patchPtr _ _ (newSp seg stk) _ _ hbuf hmax (by rw [hsp]; push_cast; omega)
    (by rw [hsp]; push_cast; omega)
  refine ⟨phys.write (umap seg 1 (newSp seg stk) stk)
    ((patchPtr (mbuf.write 0 (user.read stackPtr stk)) (newSp seg stk)).read 0 stk), ?_, ?_⟩
  · unfold copyStack
    dsimp only
    have hsp := h.stackPhys
    have hdp := h.dataPhys
    have hdv := h.dataVir
    have horder := h.order
    rw [if_neg (by omega), if_neg (by rw [hdst]; push_cast; omega)]
  · apply hmoved.shift
    intro k hlo hhi
    rw [← humap]
    exact Memory.copy_apply _ _ _ 0 hlo hhi

end Copy

/-! ## §7 The Arguments -/

/-- `load_seg` of a segment changes nothing above the segment. -/
theorem LoadSeg.above {phys : ℕ} {n x : ℤ} {m m' : Memory} (h : LoadSeg phys n m m') (hn : 0 ≤ n)
    (hx : phys * 256 + n ≤ x) : m' x = m x := by
  apply h
  intro r hr
  have hin := hr.within hn
  right
  omega

/-- The sizes in the header are sizes, and they fit. -/
structure HeaderSound (f : ExecFile) (z : ImageSizes) : Prop extends ExecFits f z where
  textb : 0 ≤ f.textb
  datab : 0 ≤ f.datab
  bssb : 0 ≤ f.bssb

/-- The initialised data are part of the data segment. -/
theorem HeaderSound.dataBytes {stk : ℤ} (h : HeaderSound f (f.sizes stk)) :
    0 ≤ f.dataBytes ∧ f.dataBytes ≤ (f.sizes stk).data * 256 := by
  have hneed := (le_clicksOf_iff _).mpr h.data
  rw [← sizes_data f stk] at hneed
  obtain ⟨ht, hd, hb⟩ := And.intro h.textb (And.intro h.datab h.bssb)
  have hmax := h.data
  unfold ExecFile.dataBytes wrap32
  unfold ExecFile.dataNeeded ExecFile.textBytes at *
  split_ifs at * <;> omega

theorem HeaderSound.textBytes {stk : ℤ} (h : HeaderSound f (f.sizes stk)) :
    0 ≤ f.textBytes ∧ f.textBytes ≤ (f.sizes stk).text * 256 := by
  have hneed := (le_clicksOf_iff _).mpr h.text
  rw [← sizes_text f stk] at hneed
  have ht := h.textb
  refine ⟨?_, hneed⟩
  unfold ExecFile.textBytes
  split <;> omega

/-- The map of a process whose `exec` has succeeded. -/
theorem doExec_seg {s s' : MmState} {who : ProcNr} {call : ExecCall} {h : Header}
    {len : ℕ} {setUid : Option ℕ} {L : Layout} (hown : Owned L s)
    (hfile : call.file = h.file len setUid) (hf : call.file = .ok f)
    (hsum : (f.sizes call.stackBytes).text + (f.sizes call.stackBytes).tot < 65536)
    (hrun : doExec s who call = .ok (s', ok)) : Feasible (f.sizes call.stackBytes) ∧
      ∃ base, (s'.mproc who).seg = (f.sizes call.stackBytes).seg base ∧ 0 < base ∧
        base + ((f.sizes call.stackBytes).text + (f.sizes call.stackBytes).tot) < 65536 := by
  by_cases href : ExecRefused s call
  · obtain ⟨e, he, hfail⟩ := @ExecRefused.fails s who call h len setUid hfile href
    rw [hfail] at hrun
    exact absurd (Prod.mk.inj (Except.ok.inj hrun)).2 he
  · obtain ⟨heq, hfeas, -, hhole⟩ := @doExec_eq s who call f href hf
    rw [heq] at hrun
    obtain ⟨⟨s₁, r⟩, hnew, hpair⟩ := map_eq_ok hrun
    obtain ⟨t, base, halloc, rfl, hseg, -, -⟩ := newMem_result hfeas.gap_lt hhole hnew
    obtain ⟨hpos, hfit⟩ := block_within hown hfeas hsum halloc
    rw [toClicks_of_lt hsum] at hfit
    refine ⟨hfeas, base, ?_, hpos, hfit⟩
    dsimp only at hpair
    rw [if_pos rfl] at hpair
    obtain ⟨rfl, -⟩ := Prod.mk.inj hpair
    rw [finishExec_seg, hseg]

/-- **Arguments.**  In every state that MM reaches, for every program with a sound header and every
    argument and environment vector of this machine's objects: if the library does not report `E2BIG`
    and `do_exec` succeeds, then the stack is at the top of the stack segment, and when text and data
    have been read the new program finds its arguments there, whatever was in the buffer of MM and in
    the memory before.  For every stack image whatsoever, `patch_ptr` changes only the buffer, of an image
    with two null pointers only bytes of the image, and of the buffer only the stack image goes to the
    new program. -/
theorem exec_arguments :
    (∀ {size org text data tot : ℕ} {s s' : MmState} {who : ProcNr} {h : Header} {len : ℕ}
      {setUid : Option ℕ} {f : ExecFile} {argv envp : List CString} {user user' : Memory} {brk z : ℤ}
      {room : Bool}, BootLayout size org text data →
      Mm.Reached size org text data tot StepSafe s → alive s who = true →
      h.file len setUid = .ok f → HeaderSound f (f.sizes z) →
      (∀ a ∈ argv, a.val.length < 65536) → (∀ a ∈ envp, a.val.length < 65536) →
      argv.length < 16384 → envp.length < 16384 →
      execve user brk room argv envp = some (user', z) →
      doExec s who ⟨z, h.file len setUid, true⟩ = .ok (s', ok) →
      0 ≤ z ∧
      newSp (s'.mproc who).seg z + z =
        (((s'.mproc who).seg.stack.memVir + (s'.mproc who).seg.stack.memLen : ℕ) : ℤ) * 256 ∧
      ∀ mbuf phys, ∃ phys₁, copyStack (s'.mproc who).seg user' brk z.toNat mbuf phys = some phys₁ ∧
        ∀ phys₂ phys₃, LoadSeg (s'.mproc who).seg.text.memPhys f.textBytes phys₁ phys₂ →
          LoadSeg (s'.mproc who).seg.data.memPhys f.dataBytes phys₂ phys₃ →
          HasArgs (userView (s'.mproc who).seg phys₃) (newSp (s'.mproc who).seg z)
            (newSp (s'.mproc who).seg z) z.toNat argv envp) ∧
    (∀ (m : Memory) (base x : ℤ), x < 0 ∨ argMax ≤ x → patchPtr m base x = m x) ∧
    (∀ (m : Memory) (base : ℤ) (a b : ℕ), 4 ∣ a → 4 ∣ b → 4 ≤ a → a < b → m.long a = 0 → m.long b = 0 →
      ∀ x : ℤ, x < 4 ∨ b + 4 ≤ x → patchPtr m base x = m x) ∧
    (∀ (seg : MemMaps) (user : Memory) (stackPtr : ℤ) (stk : ℕ) (mbuf phys phys₁ : Memory),
      copyStack seg user stackPtr stk mbuf phys = some phys₁ →
      ∀ x, x < umap seg 1 (newSp seg stk) stk ∨ umap seg 1 (newSp seg stk) stk + stk ≤ x →
        phys₁ x = phys x) := by
  refine ⟨?_, ?_, ?_, ?_⟩
  · intro size org text data tot s s' who h len setUid f argv envp user user' brk z room hboot hr hp
      hf hsound hargv henvp ha he hlib hrun
    obtain ⟨L, -, -, hown⟩ := hr.owned hboot
    obtain ⟨hz, hmax, hargs⟩ := execve_hasArgs hargv henvp ha he hlib
    obtain ⟨n, rfl⟩ := Int.eq_ofNat_of_zero_le hz
    obtain ⟨hfeas, base, hseg, hbase, hfit⟩ :=
      @doExec_seg f s s' who ⟨(n : ℤ), h.file len setUid, true⟩ h len setUid L hown rfl hf
        hsound.sum hrun
    obtain ⟨hshape, -⟩ := seg_shape hfeas base hsound.sum hfit
    have hstack : (n : ℤ) ≤ ((f.sizes n).stack : ℤ) * 256 := by
      refine (le_clicksOf_iff n).mpr ?_
      unfold argMax at hmax
      omega
    dsimp only at hseg hfeas hfit hshape
    rw [hseg]
    set seg := (f.sizes n).seg base with hseg'
    have hlen : n ≤ seg.stack.memLen * 256 := by
      have hmem : seg.stack.memLen = (f.sizes n).stack := rfl
      rw [hmem]
      exact_mod_cast hstack
    have hsp := newSp_eq hshape hlen
    refine ⟨hz, by rw [hsp]; ring, fun mbuf phys => ?_⟩
    rw [Int.toNat_natCast] at hargs ⊢
    obtain ⟨phys₁, hcopy, hplaced⟩ := @copyStack_hasArgs argv envp seg n user' mbuf phys brk hshape hbase
      hmax hlen hargs
    refine ⟨phys₁, hcopy, fun phys₂ phys₃ htext hdata => ?_⟩
    -- text and data are below the stack segment
    apply hplaced.shift
    intro k hlo hhi
    obtain ⟨htlo, hthi⟩ := hsound.textBytes
    obtain ⟨hdlo, hdhi⟩ := hsound.dataBytes
    have hmoved : moved seg (newSp seg n + k) = moved seg (newSp seg n) + k := by
      unfold moved
      ring
    have habove : (seg.data.memPhys : ℤ) * 256 + (f.sizes n).data * 256 ≤ moved seg (newSp seg n) := by
      rw [hsp]
      unfold moved
      obtain ⟨hdv, hdp, horder, hstp, -, -, -⟩ := hshape
      have hdlen : seg.data.memLen = (f.sizes n).data := rfl
      push_cast
      omega
    have hbelow : (seg.text.memPhys : ℤ) * 256 + (f.sizes n).text * 256 ≤ seg.data.memPhys * 256 := by
      have hdp := hshape.dataPhys
      have htlen : seg.text.memLen = (f.sizes n).text := rfl
      omega
    unfold userView
    rw [hmoved, hdata.above hdlo (by omega), htext.above htlo (by omega)]
  · intro m base x hx
    exact patchLoop_outside (dvd_refl 4) (by push_cast; omega)
  · intro m base a b ha hb hle hlt hnull hnull' x hx
    rcases hx with hx | hx
    · exact patchLoop_outside (dvd_refl 4) (.inl hx)
    · exact patchLoop_above (dvd_refl 4) ha hb (fun _ => ⟨hle, hlt, hnull⟩)
        (fun _ => ⟨by omega, hnull'⟩) hx
  · intro seg user stackPtr stk mbuf phys phys₁ hcopy x hx
    unfold copyStack at hcopy
    dsimp only at hcopy
    split at hcopy
    · rw [← Option.some.inj hcopy]
    split at hcopy
    · cases hcopy
    · rw [← Option.some.inj hcopy]
      exact Memory.write_outside (by rw [Memory.length_read]; exact hx)

/-- `execve` of vectors whose size does not overflow. -/
theorem execve_of_size {mem : Memory} {brk z : ℤ}
    (ha : ptrDiff argv.length = argv.length) (he : ptrDiff envp.length = envp.length)
    (hz : stackSize argv envp argv.length envp.length = ⟨z, false⟩) (hle : z ≤ argMax) :
    execve mem brk true argv envp =
      some (layOut mem brk argv envp argv.length envp.length, z) := by
  unfold execve
  dsimp only
  rw [ha, he, Int.toNat_natCast, Int.toNat_natCast, List.take_length, List.take_length, hz, if_neg]
  simpa using hle

/-- `ls` -/
def lsString : CString := ⟨[108, 115], by decide⟩

/-- A child of INIT executes a small program with one argument. -/
theorem exec_arguments_ls : ∃ s s' user', Mm.Reached 4096 100 20 30 200 StepSafe s ∧
    execve (fun _ => 0) 8192 true [lsString] [] = some (user', 20) ∧
    doExec s 3 ⟨20, (Header.separate 512 256 256 2048).file 800 none, true⟩ = .ok (s', ok) ∧
    ∀ mbuf phys, ∃ phys₁, copyStack (s'.mproc 3).seg user' 8192 20 mbuf phys = some phys₁ ∧
      ∀ phys₂ phys₃, LoadSeg (s'.mproc 3).seg.text.memPhys 512 phys₁ phys₂ →
        LoadSeg (s'.mproc 3).seg.data.memPhys 256 phys₂ phys₃ →
        HasArgs (userView (s'.mproc 3).seg phys₃) (newSp (s'.mproc 3).seg 20)
          (newSp (s'.mproc 3).seg 20) 20 [lsString] [] := by
  obtain ⟨s, hr, hval⟩ := exists_reached 4096 100 20 30 200 StepSafe quietEnv [(2, .fork)]
    (fun s => (alive s 3, (doExec s 3
      ⟨20, (Header.separate 512 256 256 2048).file 800 none, true⟩).map Prod.snd))
    (true, .ok ok) (by decide +kernel) (by simp [StepSafe])
  obtain ⟨hp, hrun⟩ := Prod.mk.inj hval
  obtain ⟨⟨s', r⟩, hexec, hr'⟩ := map_eq_ok hrun
  cases hr'
  have hlayout : BootLayout 4096 100 20 30 := by constructor <;> decide
  have hlib := @execve_of_size [lsString] [] (fun _ => 0) 8192 20 (by decide) (by decide) (by decide)
    (by decide)
  have hsound : HeaderSound smallFile (smallFile.sizes 20) :=
    ⟨by constructor <;> decide, by decide, by decide, by decide⟩
  obtain ⟨-, -, hcopy⟩ := exec_arguments.1 hlayout hr hp (f := smallFile) rfl hsound (by decide)
    (by decide) (by decide) (by decide) hlib hexec
  exact ⟨s, s', _, hr, hlib, hexec, hcopy⟩

/-- A string of `n` bytes. -/
def onesString (n : ℕ) : CString := ⟨List.replicate n 1, by simp [List.mem_replicate]⟩

theorem length_onesString (n : ℕ) : (onesString n).val.length = n := List.length_replicate

/-- `strlen` of a string of 65536 bytes is 0. -/
theorem stackSize_onesString : stackSize [onesString 65536] [] 1 0 = ⟨20, false⟩ := by
  have hlen : strlen (onesString 65536) = 0 := by
    unfold strlen
    rw [length_onesString]
    norm_num
  unfold stackSize
  rw [List.map_cons, hlen]
  decide

/-- **Limits.**  `patch_ptr` changes memory above a stack image without null pointers; a string of
    65536 bytes is not refused by the library and does not arrive; and data that the header says are
    more than the data segment holds are read over the arguments. -/
theorem exec_arguments_limits :
    (∃ (mbuf : Memory) (img : List UInt8) (base : ℤ), img.length = 4 ∧
      patchPtr (mbuf.write 0 img) base 6 ≠ mbuf.write 0 img 6) ∧
    (∃ s s' user' a, Mm.Reached 4096 100 20 30 200 StepSafe s ∧ alive s 3 = true ∧
      execve (fun _ => 0) 8192 true [a] [] = some (user', 20) ∧
      doExec s 3 ⟨20, (Header.separate 512 256 256 2048).file 800 none, true⟩ = .ok (s', ok) ∧
      ∀ m lo base, ¬HasArgs m lo base 20 [a] []) ∧
    (∃ s s' user', Mm.Reached 4096 100 20 30 200 StepSafe s ∧ alive s 3 = true ∧
      execve (fun _ => 0) 8192 true [lsString] [] = some (user', 20) ∧
      doExec s 3 ⟨20, (Header.separate 512 2048 (-1792) 2048).file 2800 none, true⟩ = .ok (s', ok) ∧
      ∀ phys₁, ∃ phys₃, LoadSeg (s'.mproc 3).seg.data.memPhys 2048 phys₁ phys₃ ∧
        ¬HasArgs (userView (s'.mproc 3).seg phys₃) (newSp (s'.mproc 3).seg 20)
          (newSp (s'.mproc 3).seg 20) 20 [lsString] []) := by
  refine ⟨⟨fun _ => 1, [0, 0, 0, 0], 512, rfl, ?_⟩, ?_, ?_⟩
  · rw [patchPtr, patchLoop, if_pos (by decide), if_neg (by decide), if_pos (by decide),
      patchLoop_outside (by decide) (.inl (by decide))]
    decide
  · obtain ⟨s, hr, hval⟩ := exists_reached 4096 100 20 30 200 StepSafe quietEnv [(2, .fork)]
      (fun s => (alive s 3, (doExec s 3
        ⟨20, (Header.separate 512 256 256 2048).file 800 none, true⟩).map Prod.snd))
      (true, .ok ok) (by decide +kernel) (by simp [StepSafe])
    obtain ⟨hp, hrun⟩ := Prod.mk.inj hval
    obtain ⟨⟨s', r⟩, hexec, hr'⟩ := map_eq_ok hrun
    cases hr'
    refine ⟨s, s', _, onesString 65536, hr, hp, execve_of_size (by decide) (by decide)
      stackSize_onesString (by decide), hexec, ?_⟩
    intro m lo base hargs
    have hbelow := (hargs.args 0 (by decide)).below
    have habove := (hargs.args 0 (by decide)).above
    rw [List.getElem_cons_zero, CString.length_stored, length_onesString] at hbelow
    omega
  · obtain ⟨s, hr, hval⟩ := exists_reached 4096 100 20 30 200 StepSafe quietEnv [(2, .fork)]
      (fun s => (alive s 3, (doExec s 3
        ⟨20, (Header.separate 512 2048 (-1792) 2048).file 2800 none, true⟩).map
          fun x => (x.2, (x.1.mproc 3).seg)))
      (true, .ok (ok, ⟨⟨0, 250, 2⟩, ⟨2, 252, 1⟩, ⟨9, 259, 1⟩⟩)) (by decide +kernel) (by simp [StepSafe])
    obtain ⟨hp, hrun⟩ := Prod.mk.inj hval
    obtain ⟨⟨s', r⟩, hexec, hr'⟩ := map_eq_ok hrun
    obtain ⟨rfl, hseg⟩ := Prod.mk.inj hr'
    refine ⟨s, s', _, hr, hp, execve_of_size (by decide) (by decide) (by decide) (by decide), hexec,
      fun phys₁ => ⟨phys₁.write 64512 (List.replicate 2048 255), ?_, ?_⟩⟩
    · -- the first read is of all data
      intro x hx
      rw [hseg] at hx
      have hfirst := hx _ (.ask (by decide))
      apply Memory.write_outside
      rw [List.length_replicate]
      exact hfirst
    · intro hargs
      have hargc := hargs.argc
      rw [hseg] at hargc
      have hlong : (userView ⟨⟨0, 250, 2⟩, ⟨2, 252, 1⟩, ⟨9, 259, 1⟩⟩
          (phys₁.write 64512 (List.replicate 2048 255))).read
            (newSp ⟨⟨0, 250, 2⟩, ⟨2, 252, 1⟩, ⟨9, 259, 1⟩⟩ 20) 4 = List.replicate 4 255 := by
        rw [List.eq_replicate_iff]
        refine ⟨Memory.length_read, fun b hb => ?_⟩
        obtain ⟨k, hk, rfl⟩ := List.mem_map.mp hb
        have hlt := List.mem_range.mp hk
        unfold userView moved newSp wrap32
        apply Memory.write_replicate
        · push_cast
          omega
        · push_cast
          omega
      rw [Memory.long, hlong] at hargc
      exact absurd hargc (by decide)

end LisaMinix.Mm
