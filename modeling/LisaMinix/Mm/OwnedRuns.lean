import LisaMinix.Mm.Fork

/-!
# The Memory of Processes along Every Run of MM

From start-up, through any sequence of requests that meet `StepSafe`, the images of the live
processes are apart from each other and from every hole, and every block that was allocated
for an image is freed once, when its process is gone or has a new image.

Without the condition there are runs in which a block is freed twice: see
`zombie_freed_twice`.
-/

namespace LisaMinix.Mm

open LisaMinix.Library

/-! ## §1 One request -/

/-- Who makes a request: a live user process, or the kernel on behalf of one. -/
def mayAsk (s : MmState) (who : ProcNr) : Request → Bool
  | .ksig _ => initProcNr ≤ who
  | _ => alive s who

/-- The condition under which a request keeps the memory owned. -/
def StepSafe (s : MmState) (who : ProcNr) : Request → Prop
  | .kill pid sig => 1 ≤ sig → sig ≤ nsig → pid = -1 → (s.mproc who).effuid = superUser →
      ∀ q, initProcNr ≤ q → ZombieSafe sig s q
  | .trace request pid data => TraceSafe s request pid data
  | .exec call => ExecSafe call
  | .ksig sigMap => KsigSafe s sigMap
  | _ => True

section Requests

variable {L : Layout} {s : MmState} {who : ProcNr}

theorem getWork_sameMem (s : MmState) (who : ProcNr) (r : Request) : SameMem s (getWork s who r) :=
  ⟨fun _ => rfl, rfl, rfl, rfl, rfl, rfl, rfl⟩

theorem getWork_mayAsk {r : Request} (h : mayAsk s who r = true) :
    mayAsk (getWork s who r) who r = true := by
  cases r <;> exact h

theorem getWork_safe {r : Request} (h : StepSafe s who r) : StepSafe (getWork s who r) who r := by
  cases r <;> exact h

theorem Owned.answer {r : MmState × ℤ} (h : Owned L r.1) : Owned L (answer who r) :=
  h.of_sameMem (SameMem.reply ..)

/-- **One turn of the main loop keeps the memory owned**, and MM does not panic. -/
theorem handle_owned (h : Owned L s) (env : Env) {r : Request} (hask : mayAsk s who r = true)
    (hsafe : StepSafe s who r) : ∃ s', handle s env who r = .ok s' ∧ Owned L s' := by
  cases r with
  | exit status =>
    obtain ⟨s', hrun, hown, -⟩ := mmExit_spec h hask status
    exact ⟨s', hrun, hown⟩
  | fork =>
    obtain ⟨s', e, hrun, hown⟩ := doFork_owned h hask
    exact ⟨Mm.answer who (s', e), by simp [handle, hrun], hown.answer⟩
  | wait =>
    obtain ⟨s', e, hrun, hown⟩ := waitLoop_owned h who (List.finRange nrProcs) false
    cases e with
    | none => exact ⟨s', by simp [handle, doWait, hrun], hown⟩
    | some e => exact ⟨reply s' who e 0, by simp [handle, doWait, hrun], hown.of_sameMem (SameMem.reply ..)⟩
  | exec call =>
    obtain ⟨s', e, hrun, hown⟩ := doExec_owned h hask hsafe
    refine ⟨_, by rw [handle, hrun]; rfl, ?_⟩
    dsimp only
    split
    · exact hown.of_sameMem (SameMem.note ..)
    · exact hown.answer
  | brk addr => exact ⟨_, rfl, (doBrk_owned h env hask addr).answer⟩
  | kill pid sig =>
    obtain ⟨s', e, hrun, hown⟩ := checkSig_owned h env who pid sig (s.mproc who).effuid hsafe
    have hrun' : doKill s env who pid sig = .ok (s',
        if (!(s'.mproc who).inUse || (s'.mproc who).hanging) && (1 ≤ sig && sig ≤ nsig) then none
        else some e) := by
      rw [doKill, hrun]
      rfl
    rw [handle, hrun']
    refine ⟨_, rfl, ?_⟩
    simp only
    split
    · exact hown
    · exact hown.of_sameMem (SameMem.reply ..)
  | trace request pid data =>
    obtain ⟨s', e, hrun, hown⟩ := doTrace_owned h env who hsafe
    exact ⟨Mm.answer who (s', e), by simp [handle, hrun], hown.answer⟩
  | signal sig func =>
    refine ⟨_, rfl, Owned.answer ?_⟩
    unfold doSignal
    split
    · exact h
    split
    · exact h
    · dsimp only
      exact h.of_sameMem (SameMem.modify _ _ fun _ => rfl)
  | alarm seconds =>
    refine ⟨_, rfl, Owned.answer ?_⟩
    dsimp only [doAlarm]
    exact h.of_sameMem (SameMem.modify _ _ fun _ => rfl)
  | pause => exact ⟨_, rfl, h.of_sameMem (SameMem.modify _ _ fun _ => rfl)⟩
  | setuid uid =>
    refine ⟨_, rfl, Owned.answer ?_⟩
    unfold doSetuid
    simp only
    split
    · exact h
    · dsimp only
      exact h.of_sameMem (SameMem.modify _ _ fun _ => rfl)
  | ksig sigMap =>
    exact doKsig_owned h env (by simpa [mayAsk] using hask) hsafe

end Requests

/-! ## §2 Start-up -/

/-- What the parameters of `do_brk2` describe: INIT is above MINIX, and both are inside the
memory.  The image for the Lisa is built of whole pages of two clicks. -/
structure BootLayout (size org text data : ℕ) : Prop where
  size_lt : size < 65536
  size_even : size % 2 = 0
  org_pos : 0 < org
  org_even : org % 2 = 0
  data_pos : 0 < data
  fits : org + (text + data) ≤ size

section Boot

variable {size org text data tot : ℕ}

theorem BootLayout.initSeg_shape (h : BootLayout size org text data) :
    Shape (initSeg org text data) ∧ image (initSeg org text data) = ⟨org, text + data⟩ := by
  obtain ⟨hsize, -, -, -, hdata, hfits⟩ := h
  simp only [initSeg]
  rw [toClicks_of_lt (n := text + data) (by omega), toClicks_of_lt (n := org + text) (by omega),
    toClicks_of_lt (n := org + (text + data)) (by omega)]
  refine ⟨⟨?_, ?_, ?_, ?_, ?_, ?_, ?_⟩, ?_⟩
  all_goals simp only [image, Block.mk.injEq, true_and]
  all_goals omega

/-- The first allocation takes MINIX and INIT out of the memory. -/
theorem BootLayout.takeMinix (h : BootLayout size org text data) :
    ∃ t₀ t areas, memInit size = .ok t₀ ∧
      allocMem t₀ (toClicks (org + toClicks (text + data))) = .ok (t, 0) ∧
      Tiled size t areas [⟨0, org⟩, ⟨org, evenClicks (text + data)⟩] := by
  obtain ⟨hsize, heven, horg, horgeven, hdata, hfits⟩ := h
  obtain ⟨t₀, hinit, htiled⟩ := memInit_tiled (by omega) heven hsize
  rw [toClicks_of_lt (n := text + data) (by omega), toClicks_of_lt (n := org + (text + data)) (by omega)]
  -- the size of MINIX is rounded where that of INIT is
  have hround : evenClicks (org + (text + data)) = org + evenClicks (text + data) := by
    rw [evenClicks_of_lt (by omega), evenClicks_of_lt (by omega)]
    omega
  have hpos : 0 < evenClicks (text + data) := evenClicks_pos (by omega) (by omega)
  have hle : evenClicks (org + (text + data)) ≤ size := by
    rw [evenClicks_of_lt (by omega)]
    omega
  rcases htiled.alloc hsize (by omega : 0 < evenClicks (org + (text + data))) with
    ⟨-, hno⟩ | ⟨t, b, areas, hrun, hres, htiled'⟩
  · have := hno ⟨0, size⟩ (by simp)
    simp only at this
    omega
  · have hb : b = 0 := by
      simp only [takeFirst, if_pos hle, Option.some.injEq, Prod.mk.injEq] at hres
      exact hres.1.symm
    subst hb
    rw [hround] at htiled'
    refine ⟨t₀, t, areas, hinit, hrun, htiled'.rep, ?_, fun a ha => ?_⟩
    · simpa using htiled'.partition.split horg hpos
    · simp only [List.mem_append, List.mem_cons, List.not_mem_nil, or_false] at ha
      rcases ha with ha | rfl | rfl
      · exact htiled'.even a (by simp [ha])
      · exact ⟨rfl, horgeven⟩
      · exact ⟨horgeven, evenClicks_even _⟩

theorem bootMproc_flags (org text data : ℕ) (p : ProcNr) :
    (bootMproc org text data p).inUse = decide (p ≤ initProcNr) ∧
      (bootMproc org text data p).hanging = false := by
  unfold bootMproc
  split
  · next hp => exact ⟨by simp [hp], rfl⟩
  split
  · next hp =>
    rcases hp with rfl | rfl
    · exact ⟨rfl, rfl⟩
    · exact ⟨rfl, rfl⟩
  · next hinit hserver =>
    refine ⟨?_, rfl⟩
    have hgt : ¬ p ≤ initProcNr := by
      simp only [initProcNr, mmProcNr, fsProcNr, Fin.le_def, Fin.ext_iff] at hinit hserver ⊢
      omega
    simp [Mproc.zero, hgt]

theorem bootState_alive (t : HoleTable) (p : ProcNr) :
    alive (bootState org text data t) p = decide (p = initProcNr) := by
  obtain ⟨huse, hhang⟩ := bootMproc_flags org text data p
  simp only [alive, bootState, huse, hhang]
  rw [Bool.eq_iff_iff]
  simp only [Bool.and_eq_true, decide_eq_true_eq, Bool.not_false, and_true]
  exact ⟨fun hp => le_antisymm hp.2 hp.1, fun hp => ⟨hp.ge, hp.le⟩⟩

theorem bootMproc_init (org text data : ℕ) :
    (bootMproc org text data initProcNr).seg = initSeg org text data ∧
      (bootMproc org text data initProcNr).pid = initPid := by
  simp [bootMproc]

/-- The tables that `mm_init` sets up, when the memory of INIT has been taken out. -/
theorem bootState_owned (h : BootLayout size org text data) {t : HoleTable} {areas : List Area}
    (L : Layout) (hfirst : L.first = ⟨org, text + data⟩)
    (htiled : Tiled L.size t areas (L.system ++ [⟨org, evenClicks (text + data)⟩])) :
    Owned L (bootState org text data t) := by
  obtain ⟨hshape, himage⟩ := h.initSeg_shape
  obtain ⟨hseg, hpid⟩ := bootMproc_init org text data
  have hinit : ∀ p, alive (bootState org text data t) p = true → p = initProcNr := by
    intro p hp
    rw [bootState_alive] at hp
    simpa using hp
  have husers : users (bootState org text data t) = [initProcNr] := by
    unfold users
    rw [List.filter_congr fun p _ => bootState_alive t p]
    decide
  have himages : images (bootState org text data t) = [⟨org, text + data⟩] := by
    rw [images, husers, List.map_singleton]
    show [image (bootMproc org text data initProcNr).seg] = _
    rw [hseg, himage]
  constructor
  case servers =>
    intro p hp
    obtain ⟨huse, hhang⟩ := bootMproc_flags org text data p
    exact ⟨huse.trans (by simpa using le_of_lt hp), hhang⟩
  case zombie =>
    intro p hp
    exact absurd ((bootMproc_flags org text data p).2.symm.trans hp) (by decide)
  case count =>
    have hslots : slotsInUse (bootState org text data t) = 3 := by
      unfold slotsInUse
      rw [List.countP_congr fun p _ => by
        rw [show ((bootState org text data t).mproc p).inUse = _ from (bootMproc_flags org text data p).1]]
      decide
    rw [hslots]
    rfl
  case pids => exact ⟨le_refl 2, show (2 : ℤ) ≤ 30000 by decide⟩
  case pid_pos =>
    intro p hp
    rw [hinit p hp]
    show 0 < (bootMproc org text data initProcNr).pid
    rw [hpid]
    decide
  case agree =>
    intro p hp
    rw [hinit p hp]
    exact hseg.symm
  case shape =>
    intro p hp
    rw [hinit p hp]
    show Shape (bootMproc org text data initProcNr).seg
    rw [hseg]
    exact hshape
  case slot =>
    intro p hp
    rw [bootState_alive]
    show decide (initProcNr < p) = _
    rw [Bool.eq_iff_iff]
    simp only [decide_eq_true_eq, Bool.not_eq_true', decide_eq_false_iff_not]
    exact ⟨fun hlt => ne_of_gt hlt, fun hne => lt_of_le_of_ne hp (Ne.symm hne)⟩
  case tiled =>
    rw [himages]
    exact ⟨areas, htiled⟩
  case ledger =>
    rw [himages]
    exact ⟨[L.first], rfl, by rw [hfirst]⟩

/-- **After start-up the memory is owned**: by MINIX, the RAM disk and INIT. -/
theorem mmBoot_owned (h : BootLayout size org text data) {s : MmState}
    (hboot : mmBoot size org text data tot = .ok s) :
    ∃ L : Layout, L.first = ⟨org, text + data⟩ ∧ ⟨0, org⟩ ∈ L.system ∧ Owned L s := by
  obtain ⟨t₀, t₁, areas₁, hinit, hminix, htiled1⟩ := h.takeMinix
  have hsize := h.size_lt
  -- the RAM disk, if there is one
  obtain ⟨t₂, base, disk, areas₂, hrun, hdisk, htiled2⟩ : ∃ t₂ base disk areas₂,
      allocMem t₁ (subClicks tot (toClicks (org + toClicks (text + data)))) = .ok (t₂, base) ∧
      disk.length ≤ 1 ∧
      Tiled size t₂ areas₂ (⟨0, org⟩ :: disk ++ [⟨org, evenClicks (text + data)⟩]) := by
    set c := subClicks tot (toClicks (org + toClicks (text + data))) with hc
    by_cases hzero : evenClicks c = 0
    · obtain ⟨t₂, base, hrun, htiled2, -⟩ := htiled1.allocNothing hsize hzero
      exact ⟨t₂, base, [], areas₁, hrun, by simp, htiled2⟩
    · rcases htiled1.alloc hsize (Nat.pos_of_ne_zero hzero) with ⟨hrun, -⟩ | ⟨t₂, b, areas₂, hrun, -, h2⟩
      · exact ⟨t₁, noMem, [], areas₁, hrun, by simp, htiled1⟩
      · refine ⟨t₂, b, [⟨b, evenClicks c⟩], areas₂, hrun, by simp, h2.perm ?_⟩
        exact List.Perm.swap _ _ _
  simp only [mmBoot, hinit, hminix, hrun, ok_bind] at hboot
  rw [if_neg (by simp)] at hboot
  split at hboot
  · exact absurd hboot (by simp)
  · cases hboot
    refine ⟨⟨size, ⟨0, org⟩ :: disk, ⟨org, text + data⟩, hsize, by simpa using hdisk,
      ⟨⟨0, org⟩, by simp, rfl⟩⟩, rfl, by simp, bootState_owned h _ rfl htiled2⟩

end Boot

/-! ## §3 Runs -/

/-- The states reached from start-up by requests that meet the condition `safe`. -/
inductive Reached (size org text data tot : ℕ) (safe : MmState → ProcNr → Request → Prop) :
    MmState → Prop
  | boot {s} : mmBoot size org text data tot = .ok s → Reached size org text data tot safe s
  | step {s s' env who r} : Reached size org text data tot safe s → mayAsk s who r = true →
      safe s who r → handle (getWork s who r) env who r = .ok s' →
      Reached size org text data tot safe s'

/-- The click `c` is in the text of a process, or from the start of its data to the end of
its stack. -/
def Occupies (seg : MemMaps) (c : ℕ) : Prop :=
  (seg.text.memPhys ≤ c ∧ c < seg.text.memPhys + seg.text.memLen) ∨
    (seg.data.memPhys ≤ c ∧ c < seg.stack.memPhys + seg.stack.memLen)

instance (seg : MemMaps) (c : ℕ) : Decidable (Occupies seg c) :=
  inferInstanceAs (Decidable (_ ∨ _))

/-- Every live process has its memory for itself.  `org` is the size of MINIX and `first` the
image of INIT at start-up. -/
structure OwnMemory (org : ℕ) (first : Block) (s : MmState) : Prop where
  /-- no click is used by two processes -/
  apart : ∀ p q c, alive s p = true → alive s q = true → p ≠ q → Occupies (s.pMap p) c →
    ¬ Occupies (s.pMap q) c
  /-- nor by a process and MINIX -/
  minix : ∀ p c, alive s p = true → Occupies (s.pMap p) c → org ≤ c
  /-- nor by a process while it is in a hole -/
  holes : ∃ holes, Chain s.holes.next s.holes.holeHead holes ∧ ∀ h ∈ holes, ∀ p c,
    alive s p = true → Occupies (s.pMap p) c →
      c < (s.holes.area h).base ∨ (s.holes.area h).stop ≤ c
  /-- no call has freed a block that was not outstanding, and the blocks outstanding now are
  the images of the live processes -/
  balanced : ∃ blocks, replay first s.events = some blocks ∧ blocks.Perm (images s)

theorem occupies_image {seg : MemMaps} (h : Shape seg) {c : ℕ} (hc : Occupies seg c) :
    (image seg).base ≤ c ∧ c < (image seg).base + (image seg).clicks := by
  obtain ⟨-, hdp, -, -, -, -, hne⟩ := h
  simp only [Occupies] at hc
  simp only [image]
  omega

section Runs

variable {L : Layout} {s : MmState} {size org text data tot : ℕ}

/-- A process uses only clicks of its block. -/
theorem Owned.occupies_area (h : Owned L s) {p : ProcNr} (hp : alive s p = true) {c : ℕ}
    (hc : Occupies (s.pMap p) c) :
    (image (s.mproc p).seg).area.base ≤ c ∧ c < (image (s.mproc p).seg).area.stop := by
  rw [h.agree p hp] at hc
  have hin := occupies_image (h.shape p hp) hc
  have hle := (h.le_block hp).1
  simp only [Block.area, Area.stop]
  omega

theorem Owned.mem_blocks {p : ProcNr} (hp : alive s p = true) :
    (image (s.mproc p).seg).area ∈ (images s).map Block.area :=
  List.mem_map_of_mem (List.mem_map_of_mem (mem_users.mpr hp))

theorem Owned.ownMemory (h : Owned L s) (hminix : ⟨0, org⟩ ∈ L.system) :
    OwnMemory org L.first s := by
  obtain ⟨areas, htiled⟩ := h.tiled
  obtain ⟨holes, free, hrep, hareas⟩ := htiled.rep
  constructor
  case apart =>
    intro p q c hp hq hne hcp hcq
    have hsep := h.apart hp hq hne
    have hinp := h.occupies_area hp hcp
    have hinq := h.occupies_area hq hcq
    simp only [Area.Apart] at hsep
    omega
  case minix =>
    intro p c hp hc
    have hsep := (List.pairwise_append.mp htiled.partition.apart).2.2 _ hminix _ (mem_blocks hp)
    have hpos := htiled.partition.pos _ (List.mem_append_left _ hminix)
    have hin := h.occupies_area hp hc
    simp only [Area.Apart, Area.stop] at hsep hin hpos
    omega
  case holes =>
    refine ⟨holes, hrep.holesChain, fun x hx p c hp hc => ?_⟩
    have hmem : s.holes.area x ∈ areas := hareas ▸ List.mem_map_of_mem hx
    have hsep := htiled.partition.sep _ hmem _ (List.mem_append_right _ (mem_blocks hp))
    have hin := h.occupies_area hp hc
    simp only [Area.Apart] at hsep
    omega
  case balanced => exact h.ledger

/-- The invariant holds along every run. -/
theorem Reached.owned (h : BootLayout size org text data)
    (hr : Reached size org text data tot StepSafe s) :
    ∃ L : Layout, L.first = ⟨org, text + data⟩ ∧ ⟨0, org⟩ ∈ L.system ∧ Owned L s := by
  induction hr with
  | boot hboot => exact mmBoot_owned h hboot
  | step _ hask hsafe hrun ih =>
    obtain ⟨L, hfirst, hminix, hown⟩ := ih
    obtain ⟨s', hrun', hown'⟩ :=
      handle_owned (hown.of_sameMem (getWork_sameMem ..)) _ (getWork_mayAsk hask) (getWork_safe hsafe)
    rw [hrun] at hrun'
    cases hrun'
    exact ⟨L, hfirst, hminix, hown'⟩

/-- **Every process has its memory for itself**, in every state that MM reaches by requests
that meet `StepSafe`, and such a request never makes MM panic. -/
theorem reached_ownMemory (h : BootLayout size org text data)
    (hr : Reached size org text data tot StepSafe s) :
    OwnMemory org ⟨org, text + data⟩ s ∧ ∀ env who r, mayAsk s who r = true → StepSafe s who r →
      ∃ s', handle (getWork s who r) env who r = .ok s' := by
  obtain ⟨L, hfirst, hminix, hown⟩ := hr.owned h
  refine ⟨hfirst ▸ hown.ownMemory hminix, fun env who r hask hsafe => ?_⟩
  obtain ⟨s', hrun, -⟩ :=
    handle_owned (hown.of_sameMem (getWork_sameMem ..)) env (getWork_mayAsk hask) (getWork_safe hsafe)
  exact ⟨s', hrun⟩

/-- Handle some requests one after the other. -/
def play (env : Env) : List (ProcNr × Request) → MmState → Except Fault MmState
  | [], s => .ok s
  | (who, r) :: rs, s =>
    if mayAsk s who r then handle (getWork s who r) env who r >>= play env rs else .error .endless

/-- Requests that are handled one after the other are a run. -/
theorem Reached.play {safe : MmState → ProcNr → Request → Prop} {env : Env}
    {rs : List (ProcNr × Request)} {s' : MmState} (hr : Reached size org text data tot safe s)
    (hplay : play env rs s = .ok s') (hsafe : ∀ t x, x ∈ rs → safe t x.1 x.2) :
    Reached size org text data tot safe s' := by
  induction rs generalizing s with
  | nil =>
    cases hplay
    exact hr
  | cons x rs ih =>
    obtain ⟨who, r⟩ := x
    unfold Mm.play at hplay
    split at hplay
    · next hask =>
      cases hrun : handle (getWork s who r) env who r with
      | error e =>
        rw [hrun] at hplay
        exact absurd hplay (by simp [bind, Except.bind])
      | ok t =>
        rw [hrun, ok_bind] at hplay
        exact ih (hr.step hask (hsafe s (who, r) (by simp)) hrun) hplay
          fun t x hx => hsafe t x (List.mem_cons_of_mem _ hx)
    · exact absurd hplay (by simp)

/-- A run from start-up, and something that is computed from the state it reaches. -/
theorem exists_reached {α : Type} (size org text data tot : ℕ)
    (safe : MmState → ProcNr → Request → Prop) (env : Env) (rs : List (ProcNr × Request))
    (f : MmState → α) (a : α)
    (h : ((mmBoot size org text data tot).bind (play env rs)).map f = .ok a)
    (hsafe : ∀ t x, x ∈ rs → safe t x.1 x.2) :
    ∃ s, Reached size org text data tot safe s ∧ f s = a := by
  cases hboot : mmBoot size org text data tot with
  | error e =>
    rw [hboot] at h
    exact absurd h (by simp [Except.bind, Except.map])
  | ok s₀ =>
    rw [hboot] at h
    cases hplay : play env rs s₀ with
    | error e => exact absurd h (by simp [Except.bind, Except.map, hplay])
    | ok s =>
      have hf : f s = a := by simpa [Except.bind, Except.map, hplay] using h
      exact ⟨s, (Reached.boot hboot).play hplay hsafe, hf⟩

end Runs

/-- A kernel that reports the same stack pointer for everybody. -/
def quietEnv : Env := ⟨fun _ => 0, fun _ => false, true, 0⟩

/-- INIT forks twice, and a child exits and is waited for. -/
theorem reached_ownMemory_forks : ∃ s, Reached 4096 100 20 30 200 StepSafe s ∧
    images s = [⟨100, 50⟩, ⟨250, 50⟩] ∧ OwnMemory 100 ⟨100, 50⟩ s := by
  obtain ⟨s, hr, himages⟩ := exists_reached 4096 100 20 30 200 StepSafe quietEnv
    [(2, .fork), (2, .fork), (3, .exit 0), (2, .wait)] images [⟨100, 50⟩, ⟨250, 50⟩]
    (by decide +kernel) (by simp [StepSafe])
  have hlayout : BootLayout 4096 100 20 30 := by constructor <;> decide
  exact ⟨s, hr, himages, (reached_ownMemory hlayout hr).1⟩

/-- **A block is freed twice**: INIT forks two children, one exits, and before INIT waits for
it the other, which is a super-user process, sends a signal to everybody. -/
theorem zombie_freed_twice : ∃ s, Reached 4096 100 20 30 200 (fun _ _ _ => True) s ∧
    ¬ OwnMemory 100 ⟨100, 50⟩ s := by
  obtain ⟨s, hr, hreplay⟩ := exists_reached 4096 100 20 30 200 (fun _ _ _ => True)
    quietEnv [(2, .fork), (2, .fork), (3, .exit 0), (4, .kill (-1) 15)]
    (fun s => replay ⟨100, 50⟩ s.events) none (by decide +kernel) (by simp)
  refine ⟨s, hr, fun hown => ?_⟩
  obtain ⟨blocks, hblocks, -⟩ := hown.balanced
  rw [hreplay] at hblocks
  exact absurd hblocks (by simp)

/-- The same happens to a traced child that was stopped and then killed, when its parent
makes it exit. -/
theorem traced_freed_twice : ∃ s, Reached 4096 100 20 30 200 (fun _ _ _ => True) s ∧
    ¬ OwnMemory 100 ⟨100, 50⟩ s := by
  obtain ⟨s, hr, hreplay⟩ := exists_reached 4096 100 20 30 200 (fun _ _ _ => True)
    quietEnv [(2, .fork), (3, .trace 0 0 0), (2, .kill 3 15), (2, .kill 3 9), (2, .trace 8 3 0)]
    (fun s => replay ⟨100, 50⟩ s.events) none (by decide +kernel) (by simp)
  refine ⟨s, hr, fun hown => ?_⟩
  obtain ⟨blocks, hblocks, -⟩ := hown.balanced
  rw [hreplay] at hblocks
  exact absurd hblocks (by simp)

/-- An executable file whose text has 65535 clicks and the rest 3: the sum is 2 in 16 bits,
and the data segment starts below the block, in the image of another process. -/
def wrappingFile : ExecFile := ⟨true, 16776960, 256, 0, 768, none⟩

theorem exec_overlaps : ∃ s, Reached 4096 100 20 30 200 (fun _ _ _ => True) s ∧
    ¬ OwnMemory 100 ⟨100, 50⟩ s := by
  obtain ⟨s, hr, hboth⟩ := exists_reached 4096 100 20 30 200 (fun _ _ _ => True)
    quietEnv [(2, .fork), (2, .fork), (4, .fork), (4, .exec ⟨256, .ok wrappingFile, true⟩)]
    (fun s => alive s 4 && alive s 5 && decide (Occupies (s.pMap 4) 349) &&
      decide (Occupies (s.pMap 5) 349)) true (by decide +kernel) (by simp)
  simp only [Bool.and_eq_true, decide_eq_true_eq] at hboth
  obtain ⟨⟨⟨h4, h5⟩, hc4⟩, hc5⟩ := hboth
  exact ⟨s, hr, fun hown => hown.apart 4 5 349 h4 h5 (by decide) hc4 hc5⟩

end LisaMinix.Mm
