import LisaMinix.Kernel.Floppy

/-!
# Floppy Commands Are Not Mixed Up

What holds of the floppy task, its handler and the controller in every state of a run in which
they do not get into each other's way.

- `Loaded`, `Numbered`, `Collected` and `Owned`: registers, requests, results and messages.
- `Inv.step`: one action keeps them; `sound_of_reached`: what follows for every run.
-/

namespace LisaMinix.Kernel.Floppy

variable {δ : Type*}

/-! ## §1 The Invariant -/

/-- The order of the statements. -/
def Pc.rank : Pc → ℕ
  | .main => 0
  | .loop => 1
  | .diskIn => 2
  | .ready₁ => 3
  | .side => 4
  | .drive => 5
  | .track => 6
  | .sector => 7
  | .func => 8
  | .data => 9
  | .ready₂ => 10
  | .arm => 11
  | .go => 12
  | .receive => 13
  | .wait => 14
  | .cancel => 15
  | .test => 16
  | .ret _ => 17

/-- The registers that have been written so far; no interrupt is dealt with after the last. -/
structure Loaded (s : State δ) : Prop where
  side : 4 < s.pc.rank → s.pc.rank ≤ 12 → s.regs.side = 0
  drive : 5 < s.pc.rank → s.pc.rank ≤ 12 → s.regs.drive = drive2
  track : 6 < s.pc.rank → s.pc.rank ≤ 12 → s.regs.track = trackOf s.block
  sector : 7 < s.pc.rank → s.pc.rank ≤ 12 → s.regs.sector = sectorOf s.block
  func : 8 < s.pc.rank → s.pc.rank ≤ 12 → s.regs.func = s.op.code ∧ s.handler = .off

/-- A request that was made before; the one the task is working on has not been made yet. -/
def Old (s : State δ) (i : ℕ) : Prop :=
  i ≤ s.request ∧ (2 ≤ s.pc.rank → s.pc.rank ≤ 12 → i < s.request)

/-- Which requests the controller, the watchdog and the handler are busy with. -/
structure Numbered (s : State δ) : Prop where
  go : ∀ i, s.go = some (.rw, i) → Old s i
  running : ∀ i, s.running = some i → Old s i
  finished : ∀ d, s.finished = some d → Old s d.request
  idle : 11 ≤ s.pc.rank → s.pc.rank ≤ 12 → s.go = none ∧ s.running = none
  single : ∀ i, s.running = some i → ∀ j, s.go ≠ some (.rw, j)
  once : ∀ d, s.finished = some d → d.request = s.request →
    s.running = none ∧ (∀ i, s.go ≠ some (.rw, i)) ∧ s.status = d.status ∧ s.data = d.data
  busy : s.fdBusy = true → 13 ≤ s.pc.rank ∧ s.pc.rank ≤ 16 ∧ s.fdOp = s.op ∧
    (∀ i, s.running = some i → i = s.request) ∧ ∀ i, s.go = some (.rw, i) → i = s.request
  timer : ∀ i, s.timer = some i → i = s.request ∧ 12 ≤ s.pc.rank ∧ s.pc.rank ≤ 15

/-- The result of the request has been collected. -/
def HasResult (s : State δ) : Prop :=
  ∃ d, s.finished = some d ∧ d.request = s.request ∧ s.fdStatus = some d.status ∧
    (s.op = .read → d.status = 0 → s.sectorBuf = d.data)

/-- When the result is there: while the handler works on it, after that, and at the end. -/
structure Collected (s : State δ) : Prop where
  handling : s.fdBusy = true → s.handler ≠ .off → HasResult s
  answered : s.fdBusy = false → 13 ≤ s.pc.rank → s.pc.rank ≤ 16 → HasResult s
  returned : s.pc = .ret .ok → HasResult s ∧ s.fdStatus = some 0

/-- The messages for the request. -/
structure Owned (s : State δ) : Prop where
  held : 13 ≤ s.pc.rank → s.pc.rank ≤ 16 → ∀ o ∈ s.intHeld, s.Own o
  blocked : 13 ≤ s.pc.rank → s.pc.rank ≤ 16 → ∀ o ∈ s.intBlocked, s.Own o
  received : s.pc = .cancel ∨ s.pc = .test → ∀ o ∈ s.received, s.Own o

structure Inv (s : State δ) : Prop where
  loaded : Loaded s
  numbered : Numbered s
  collected : Collected s
  owned : Owned s

variable {s s' : State δ}

@[grind =] theorem State.ready_iff : s.ready = true ↔ s.running = none ∧ s.go = none := by
  simp [State.ready]

theorem State.commanding_iff : s.commanding ↔ 8 < s.pc.rank ∧ s.pc.rank ≤ 12 := by
  unfold State.commanding
  cases s.pc <;> simp [Pc.rank]

theorem inv_initial (d : δ) : Inv (.initial d) := by
  refine ⟨?_, ?_, ?_, ?_⟩
  · constructor <;> simp [State.initial, Pc.rank]
  · constructor <;> simp [State.initial, Pc.rank]
  · constructor <;> simp [State.initial, Pc.rank]
  · constructor <;> simp [State.initial, Pc.rank]

/-! ## §2 Messages -/

/-- What a message does: the task gets it if it waits for it, and else only the queue changes. -/
theorem State.interruptNow_cases (s : State δ) (os : List Origin) :
    s.pc = .wait ∧ s.interruptNow os = { s with intBlocked := [], received := os, pc := .cancel } ∨
      s.pc ≠ .wait ∧ ∃ os', (os' = [] ∧ s.pc = .main ∨ os' = s.intBlocked ++ os) ∧
        s.interruptNow os = { s with intBlocked := os' } := by
  unfold State.interruptNow
  split
  next hpc => exact .inl ⟨hpc, rfl⟩
  next hpc => exact .inr ⟨by simp [hpc], [], .inl ⟨rfl, hpc⟩, rfl⟩
  next hpc _ => exact .inr ⟨hpc, _, .inr rfl, rfl⟩

/-- A message that is about the request, if the task may get it. -/
theorem Inv.interruptNow (h : Inv s) {os : List Origin}
    (hos : 13 ≤ s.pc.rank → s.pc.rank ≤ 16 → ∀ o ∈ os, s.Own o) : Inv (s.interruptNow os) := by
  obtain ⟨⟨l1, l2, l3, l4, l5⟩, ⟨n1, n2, n3, n4, n8, n5, n6, n7⟩, ⟨c1, c2, c3⟩, ⟨o1, o2, o3⟩⟩ := h
  rcases State.interruptNow_cases s os with ⟨hpc, heq⟩ | ⟨hpc, os', hos', heq⟩
  · rw [heq]
    have hlo : 13 ≤ s.pc.rank := by rw [hpc]; decide
    have hhi : s.pc.rank ≤ 16 := by rw [hpc]; decide
    have hpast : ¬(Pc.cancel.rank ≤ 12) := by decide
    have hwaits : 13 ≤ Pc.cancel.rank ∧ Pc.cancel.rank ≤ 15 := by decide
    have hold : ∀ i, Old s i → Old { s with intBlocked := [], received := os, pc := .cancel } i :=
      fun i hi => ⟨hi.1, fun _ h => absurd h hpast⟩
    refine ⟨⟨fun _ h => absurd h hpast, fun _ h => absurd h hpast, fun _ h => absurd h hpast,
      fun _ h => absurd h hpast, fun _ h => absurd h hpast⟩, ?_, ?_, ?_⟩
    · exact ⟨fun i hi => hold i (n1 i hi), fun i hi => hold i (n2 i hi), fun d hd => hold _ (n3 d hd),
        fun _ h => absurd h hpast, n8, n5, fun hb => ⟨hwaits.1, le_trans hwaits.2 (by decide), (n6 hb).2.2⟩,
        fun i hi => ⟨(n7 i hi).1, le_trans (by decide) hwaits.1, hwaits.2⟩⟩
    · exact ⟨c1, fun hb _ _ => c2 hb hlo hhi, nofun⟩
    · exact ⟨fun _ _ => o1 hlo hhi, fun _ _ _ => nofun, fun _ => hos hlo hhi⟩
  · rw [heq]
    refine ⟨⟨l1, l2, l3, l4, l5⟩, ⟨n1, n2, n3, n4, n8, n5, n6, n7⟩, ⟨c1, c2, c3⟩,
      ⟨o1, fun h1 h2 o ho => ?_, o3⟩⟩
    rcases hos' with ⟨rfl, -⟩ | rfl
    · exact absurd ho (by simp)
    · rcases List.mem_append.mp ho with hold | hnew
      · exact o2 h1 h2 o hold
      · exact hos h1 h2 o hnew

theorem Inv.interrupt (h : Inv s) {o : Origin} (busy : Bool)
    (ho : 13 ≤ s.pc.rank → s.pc.rank ≤ 16 → s.Own o) : Inv (s.interrupt o busy) := by
  unfold State.interrupt
  cases busy with
  | true =>
    refine ⟨⟨h.loaded.1, h.loaded.2, h.loaded.3, h.loaded.4, h.loaded.5⟩,
      ⟨h.numbered.1, h.numbered.2, h.numbered.3, h.numbered.4, h.numbered.5, h.numbered.6, h.numbered.7,
        h.numbered.8⟩,
      ⟨h.collected.1, h.collected.2, h.collected.3⟩,
      ⟨fun h1 h2 o' ho' => ?_, h.owned.2, h.owned.3⟩⟩
    rcases List.mem_append.mp ho' with hold | hnew
    · exact h.owned.held h1 h2 o' hold
    · obtain rfl := List.mem_singleton.mp hnew
      exact ho h1 h2
  | false =>
    exact h.interruptNow fun h1 h2 o' ho' => List.mem_singleton.mp ho' ▸ ho h1 h2

/-! ## §3 The Task -/

theorem Loaded.task (h : Loaded s) (hoff : s.handler = .off) (hs : s.task = some s') :
    Loaded s' := by
  obtain ⟨h1, h2, h3, h4, h5⟩ := h
  unfold State.task at hs
  split at hs <;> rename_i hpc <;> simp only [hpc, Pc.rank] at h1 h2 h3 h4 h5
  all_goals try (split at hs)
  all_goals cases hs
  all_goals constructor <;> simp_all [Pc.rank]

/-- Nothing is under way before the watchdog is set. -/
theorem Numbered.quiet (h : Numbered s) (hpc : s.pc.rank ≤ 11) : s.fdBusy = false ∧ s.timer = none := by
  constructor
  · by_contra hbusy
    have hlo := (h.busy (Bool.eq_true_of_not_eq_false hbusy)).1
    omega
  · by_contra htimer
    obtain ⟨i, hi⟩ := Option.ne_none_iff_exists'.mp htimer
    have hlo := (h.timer i hi).2.1
    omega

/-- The task goes on before it writes `GO_RW`. -/
theorem Numbered.prepare {pc' : Pc} {timer : Option ℕ} (h : Numbered s) (regs : Regs) (data : δ)
    (hlo : 2 ≤ s.pc.rank) (hhi : s.pc.rank ≤ 11) (hhi' : pc'.rank ≤ 12)
    (hidle : 11 ≤ pc'.rank → s.go = none ∧ s.running = none)
    (htimer : ∀ i, timer = some i → i = s.request ∧ 12 ≤ pc'.rank) :
    Numbered { s with regs := regs, data := data, timer := timer, pc := pc' } := by
  have hold {i : ℕ} (hi : Old s i) : i < s.request := hi.2 hlo (by omega)
  have hnow {i : ℕ} (hi : Old s i) :
      Old { s with regs := regs, data := data, timer := timer, pc := pc' } i :=
    ⟨hi.1, fun _ _ => hold hi⟩
  refine ⟨fun i hi => hnow (h.go i hi), fun i hi => hnow (h.running i hi),
    fun d hd => hnow (h.finished d hd), fun hlo' _ => hidle hlo', h.single, fun d hd hreq => ?_,
    fun hbusy => ?_, fun i hi => ?_⟩
  · -- the request has not been made yet
    exact absurd hreq (ne_of_lt (hold (h.finished d hd)))
  · exact absurd hbusy (by simp [(h.quiet hhi).1])
  · obtain ⟨hreq, hlo'⟩ := htimer i hi
    exact ⟨hreq, hlo', by dsimp only; omega⟩

/-- The task goes on after it has written `GO_RW`, or leaves `fd_sector`. -/
theorem Numbered.leave {pc' : Pc} {timer : Option ℕ} {fdBusy : Bool} {intBlocked received : List Origin}
    (h : Numbered s) (hpc : pc'.rank ≤ 1 ∨ 13 ≤ pc'.rank)
    (hbusy : fdBusy = true → s.fdBusy = true ∧ 13 ≤ pc'.rank ∧ pc'.rank ≤ 16)
    (htimer : ∀ i, timer = some i → s.timer = some i ∧ 12 ≤ pc'.rank ∧ pc'.rank ≤ 15) :
    Numbered { s with
      timer := timer
      fdBusy := fdBusy
      intBlocked := intBlocked
      received := received
      pc := pc' } := by
  have hnow {i : ℕ} (hi : Old s i) : Old { s with
      timer := timer
      fdBusy := fdBusy
      intBlocked := intBlocked
      received := received
      pc := pc' } i :=
    ⟨hi.1, fun hlo hhi => by dsimp only at hlo hhi; omega⟩
  refine ⟨fun i hi => hnow (h.go i hi), fun i hi => hnow (h.running i hi),
    fun d hd => hnow (h.finished d hd), fun hlo hhi => ?_, h.single, h.once, fun hb => ?_, fun i hi => ?_⟩
  · dsimp only at hlo hhi
    omega
  · obtain ⟨hb', hrange⟩ := hbusy hb
    exact ⟨hrange.1, hrange.2, (h.busy hb').2.2⟩
  · obtain ⟨hi', hrange⟩ := htimer i hi
    exact ⟨(h.timer i hi').1, hrange⟩

/-- `GO_RW` is written. -/
theorem Numbered.command (h : Numbered s) (hpc : s.pc = .go) :
    Numbered { s with
      fdOp := s.op
      fdStatus := none
      fdBusy := true
      go := some (.rw, s.request)
      pc := .receive } := by
  have hlo : 11 ≤ s.pc.rank := by rw [hpc]; decide
  have hhi : s.pc.rank ≤ 12 := by rw [hpc]; decide
  have hpast : ¬(Pc.receive.rank ≤ 12) := by decide
  have hwaits : 12 ≤ Pc.receive.rank ∧ Pc.receive.rank ≤ 15 := by decide
  have hbusy : 13 ≤ Pc.receive.rank ∧ Pc.receive.rank ≤ 16 := by decide
  -- the controller is idle when it gets the command
  have hidle (i : ℕ) (hi : s.running = some i) : False :=
    absurd ((h.idle hlo hhi).2.symm.trans hi) (by simp)
  refine ⟨fun i hi => ?_, fun i hi => (hidle i hi).elim,
    fun d hd => ⟨(h.finished d hd).1, fun _ hle => absurd hle hpast⟩, fun _ hle => absurd hle hpast,
    fun i hi => (hidle i hi).elim, fun d hd hreq => ?_,
    fun _ => ⟨hbusy.1, hbusy.2, rfl, fun i hi => (hidle i hi).elim, fun i hi => ?_⟩,
    fun i hi => ⟨(h.timer i hi).1, hwaits⟩⟩
  · cases hi
    exact ⟨le_rfl, fun _ hle => absurd hle hpast⟩
  · exact absurd hreq (ne_of_lt ((h.finished d hd).2 (by omega) hhi))
  · cases hi
    rfl

theorem Numbered.task (h : Numbered s) (hs : s.task = some s') : Numbered s' := by
  have hnone (hpc : s.pc.rank ≤ 11) (n : ℕ) : ∀ i, s.timer = some i → i = s.request ∧ 12 ≤ n :=
    fun i hi => absurd ((h.quiet hpc).2.symm.trans hi) (by simp)
  unfold State.task at hs
  cases hpc : s.pc with
  | main | loop | wait =>
    rw [hpc] at hs
    cases hs
  | diskIn | side | drive | track | sector | func | data =>
    rw [hpc] at hs
    cases hs
    exact h.prepare _ _ (by rw [hpc]; decide) (by rw [hpc]; decide) (by decide)
      (fun hlo => absurd hlo (by decide)) (hnone (by rw [hpc]; decide) _)
  | ready₁ =>
    rw [hpc] at hs
    obtain ⟨-, hs⟩ := Option.ite_none_right_eq_some.mp hs
    cases hs
    exact h.prepare _ _ (by rw [hpc]; decide) (by rw [hpc]; decide) (by decide)
      (fun hlo => absurd hlo (by decide)) (hnone (by rw [hpc]; decide) _)
  | ready₂ =>
    rw [hpc] at hs
    obtain ⟨hready, hs⟩ := Option.ite_none_right_eq_some.mp hs
    cases hs
    have hidle := State.ready_iff.mp hready
    exact h.prepare _ _ (by rw [hpc]; decide) (by rw [hpc]; decide) (by decide)
      (fun _ => hidle.symm) (hnone (by rw [hpc]; decide) _)
  | arm =>
    rw [hpc] at hs
    cases hs
    refine h.prepare _ _ (by rw [hpc]; decide) (by rw [hpc]; decide) (by decide)
      (fun _ => h.idle (by rw [hpc]; decide) (by rw [hpc]; decide)) fun i hi => ?_
    cases hi
    exact ⟨rfl, by decide⟩
  | go =>
    rw [hpc] at hs
    cases hs
    exact h.command hpc
  | receive =>
    rw [hpc] at hs
    dsimp only at hs
    split at hs
    all_goals
      cases hs
      exact h.leave (.inr (by decide)) (fun hb => ⟨hb, by decide, by decide⟩)
        fun i hi => ⟨hi, by decide, by decide⟩
  | cancel =>
    rw [hpc] at hs
    cases hs
    exact h.leave (.inr (by decide)) (fun hb => ⟨hb, by decide, by decide⟩) nofun
  | test =>
    -- the watchdog has been cancelled
    have hcancelled (i : ℕ) (hi : s.timer = some i) : False := by
      have hle := (h.timer i hi).2.2
      rw [hpc] at hle
      exact absurd hle (by decide)
    rw [hpc] at hs
    dsimp only at hs
    split at hs
    next =>
      cases hs
      exact h.leave (.inr (by simp [Pc.rank])) nofun fun i hi => (hcancelled i hi).elim
    next hidle =>
      cases hs
      exact h.leave (.inr (by simp [Pc.rank])) (fun hb => absurd hb hidle)
        fun i hi => (hcancelled i hi).elim
  | ret r =>
    have hlate : 16 < s.pc.rank := by simp [hpc, Pc.rank]
    rw [hpc] at hs
    cases hs
    refine h.leave (.inl (by decide)) (fun hb => ?_) fun i hi => ?_
    · exact absurd (h.busy hb).2.1 (not_le.mpr hlate)
    · exact absurd (h.timer i hi).2.2 (by omega)

theorem Collected.task (h : Collected s) (hn : Numbered s) (hoff : s.handler = .off)
    (hs : s.task = some s') : Collected s' := by
  obtain ⟨h1, h2, h3⟩ := h
  have hbusy := hn.busy
  unfold State.task at hs
  unfold HasResult at h1 h2 h3
  split at hs <;> rename_i hpc <;> simp only [hpc, Pc.rank] at h1 h2 h3 hbusy
  all_goals try (split at hs)
  all_goals cases hs
  all_goals constructor <;> grind -linarith [Pc.rank, HasResult]

theorem Owned.task (h : Owned s) (hg : Good s .task) (hs : s.task = some s') : Owned s' := by
  obtain ⟨h1, h2, h3⟩ := h
  unfold Good at hg
  unfold State.task at hs
  unfold State.Own at h1 h2 h3
  split at hs <;> rename_i hpc <;> simp only [hpc, Pc.rank] at h1 h2 h3 hg
  all_goals try (split at hs)
  all_goals cases hs
  all_goals constructor <;> grind -linarith [Pc.rank, State.Own]

theorem Inv.task (h : Inv s) (hoff : s.handler = .off) (hg : Good s .task)
    (hs : s.task = some s') : Inv s' :=
  ⟨h.loaded.task hoff hs, h.numbered.task hs, h.collected.task h.numbered hoff hs,
    h.owned.task hg hs⟩

/-- `fd_sector` returns early. -/
theorem Inv.giveUp (h : Inv s) (hs : s.giveUp = some s') : Inv s' := by
  have hleft (r : Result) (hr : r ≠ .ok) (hpc : s.pc.rank ≤ 11) : Inv { s with pc := .ret r } := by
    obtain ⟨hbusy, htimer⟩ := h.numbered.quiet hpc
    have hlate : ¬Pc.rank (.ret r) ≤ 16 := by simp [Pc.rank]
    have hlate' : ¬Pc.rank (.ret r) ≤ 12 := by simp [Pc.rank]
    refine ⟨⟨fun _ hle => absurd hle hlate', fun _ hle => absurd hle hlate', fun _ hle => absurd hle hlate',
      fun _ hle => absurd hle hlate', fun _ hle => absurd hle hlate'⟩,
      h.numbered.leave (.inr (by simp [Pc.rank])) (fun hb => ?_) (fun i hi => ?_),
      ⟨fun hb => ?_, fun _ _ hle => absurd hle hlate, fun hret => absurd (Pc.ret.inj hret) hr⟩,
      ⟨fun _ hle => absurd hle hlate, fun _ hle => absurd hle hlate, nofun⟩⟩
    · exact absurd (hbusy.symm.trans hb) (by decide)
    · exact absurd (htimer.symm.trans hi) (by simp)
    · exact absurd (hbusy.symm.trans hb) (by decide)
  unfold State.giveUp at hs
  split at hs
  next hpc =>
    cases hs
    exact hleft _ (by decide) (by rw [hpc]; decide)
  next hpc =>
    cases hs
    exact hleft _ (by decide) (by rw [hpc]; decide)
  next hpc =>
    cases hs
    exact hleft _ (by decide) (by rw [hpc]; decide)
  next => cases hs

/-- A state of the task in which nothing is asked of the registers, the results and the messages. -/
theorem Inv.of_numbered (h : Numbered s) (hlow : s.pc.rank ≤ 4) (hbusy : s.fdBusy = false) : Inv s where
  loaded := by constructor <;> omega
  numbered := h
  collected := by
    refine ⟨fun hb => absurd (hbusy.symm.trans hb) (by decide), fun _ hlo => ?_, fun hret => ?_⟩
    · omega
    · rw [hret] at hlow
      exact absurd hlow (by decide)
  owned := by
    refine ⟨fun hlo => ?_, fun hlo => ?_, fun hpc => ?_⟩
    · omega
    · omega
    · rcases hpc with hpc | hpc
      all_goals
        rw [hpc] at hlow
        exact absurd hlow (by decide)

/-- The task is not in `fd_sector`. -/
theorem Inv.outside (h : Inv s) (hpc : s.pc.rank ≤ 1) (op : Op) (block : ℕ) (buf : δ) :
    Inv (s.call op block buf) ∧
      ∀ pc' : Pc, pc'.rank ≤ 1 → ∀ os, Inv { s with pc := pc', intBlocked := os } := by
  obtain ⟨hbusy, htimer⟩ := h.numbered.quiet (le_trans hpc (by decide))
  constructor
  · have hearly : ¬11 ≤ Pc.diskIn.rank := by decide
    -- the requests that were made before have smaller numbers
    have hnow {i : ℕ} (hi : Old s i) : Old (s.call op block buf) i :=
      ⟨Nat.le_succ_of_le hi.1, fun _ _ => Nat.lt_succ_of_le hi.1⟩
    have hnumbered : Numbered (s.call op block buf) := by
      refine ⟨fun i hi => hnow (h.numbered.go i hi), fun i hi => hnow (h.numbered.running i hi),
        fun d hd => hnow (h.numbered.finished d hd), fun hlo => absurd hlo hearly, h.numbered.single,
        fun d hd hreq => ?_, fun hb => ?_, fun i hi => ?_⟩
      · exact absurd hreq (ne_of_lt (Nat.lt_succ_of_le (h.numbered.finished d hd).1))
      · exact absurd (hbusy.symm.trans hb) (by decide)
      · exact absurd (htimer.symm.trans hi) (by simp)
    exact .of_numbered hnumbered (show Pc.diskIn.rank ≤ 4 by decide) hbusy
  · intro pc' hpc' os
    have hnumbered : Numbered { s with pc := pc', intBlocked := os } := by
      refine h.numbered.leave (.inl hpc') (fun hb => ?_) fun i hi => ?_
      · exact absurd (hbusy.symm.trans hb) (by decide)
      · exact absurd (htimer.symm.trans hi) (by simp)
    exact .of_numbered hnumbered (le_trans hpc' (by decide)) hbusy

/-! ## §4 The Handler -/

/-- "Collect the result": it is that of the request. -/
theorem Inv.collect (h : Inv s) (hg : Good s .irq) : Inv s.collect := by
  obtain ⟨⟨l1, l2, l3, l4, l5⟩, ⟨n1, n2, n3, n4, n8, n5, n6, n7⟩, ⟨c1, c2, c3⟩, ⟨o1, o2, o3⟩⟩ := h
  obtain ⟨hfree, hdone⟩ := hg
  rw [State.commanding_iff] at hfree
  have hloaded : ∀ p : Prop, 8 < s.pc.rank → s.pc.rank ≤ 12 → p := fun p h1 h2 =>
    absurd ⟨h1, h2⟩ hfree
  unfold State.collect
  split
  · next hbusy =>
    obtain ⟨d, hd, hreq⟩ := Option.map_eq_some_iff.mp (hdone hbusy)
    obtain ⟨-, -, hstatus, hdata⟩ := n5 d hd hreq
    obtain ⟨hlo, hhi, hop, hbusy'⟩ := n6 hbusy
    -- status and data are those of the function that was finished last
    have hresult : HasResult { s with
        fdStatus := some s.status
        sectorBuf := if s.status = 0 ∧ s.fdOp = .read then s.data else s.sectorBuf
        handler := .poll } := by
      refine ⟨d, hd, hreq, congrArg some hstatus, fun hread hzero => ?_⟩
      have hcopy : s.status = 0 ∧ s.fdOp = .read := ⟨hstatus.trans hzero, hop.trans hread⟩
      exact (if_pos hcopy).trans hdata
    exact ⟨⟨l1, l2, l3, l4, fun h1 h2 => hloaded _ h1 h2⟩, ⟨n1, n2, n3, n4, n8, n5, n6, n7⟩,
      ⟨fun _ _ => hresult, fun hno => absurd (hbusy.symm.trans hno) (by decide),
        fun hret => absurd hhi (by rw [show s.pc = .ret .ok from hret]; decide)⟩, ⟨o1, o2, o3⟩⟩
  · next hidle =>
    exact ⟨⟨l1, l2, l3, l4, fun h1 h2 => hloaded _ h1 h2⟩, ⟨n1, n2, n3, n4, n8, n5, n6, n7⟩,
      ⟨fun hbusy => absurd hbusy hidle, c2, c3⟩, ⟨o1, o2, o3⟩⟩

/-- The rest of the handler: it leaves the registers alone that the task has written. -/
theorem Inv.handle (h : Inv s) {busy : Bool} (hs : s.handle busy = some s') : Inv s' := by
  obtain ⟨⟨l1, l2, l3, l4, l5⟩, ⟨n1, n2, n3, n4, n8, n5, n6, n7⟩, ⟨c1, c2, c3⟩, ⟨o1, o2, o3⟩⟩ := h
  have hfree : s.handler ≠ .off → ∀ p : Prop, 8 < s.pc.rank → s.pc.rank ≤ 12 → p :=
    fun hon p h1 h2 => absurd (l5 h1 h2).2 hon
  unfold State.handle at hs
  split at hs <;> rename_i hon
  · cases hs
  iterate 2
    · cases hs
      have hon' : s.handler ≠ .off := by simp [hon]
      exact ⟨⟨l1, l2, l3, l4, hfree hon' _⟩, ⟨n1, n2, n3, n4, n8, n5, n6, n7⟩,
        ⟨fun hbusy _ => c1 hbusy hon', c2, c3⟩, ⟨o1, o2, o3⟩⟩
  · cases hs
    have hon' : s.handler ≠ .off := by simp [hon]
    exact ⟨⟨l1, l2, l3, l4, hfree hon' _⟩,
      ⟨nofun, n2, n3, fun h1 h2 => hfree hon' _ (Nat.lt_of_lt_of_le (by decide) h1) h2,
        fun _ _ => nofun,
        fun d hd hreq => ⟨(n5 d hd hreq).1, nofun, (n5 d hd hreq).2.2⟩,
        fun hbusy => ⟨(n6 hbusy).1, (n6 hbusy).2.1, (n6 hbusy).2.2.1, (n6 hbusy).2.2.2.1, nofun⟩,
        n7⟩,
      ⟨fun hbusy _ => c1 hbusy hon', c2, c3⟩, ⟨o1, o2, o3⟩⟩
  · have hon' : s.handler ≠ .off := by simp [hon]
    split at hs
    · next hbusy =>
      cases hs
      obtain ⟨d, hd, hreq, hrest⟩ := c1 hbusy hon'
      have hmine : s.origin = .completion s.request := by
        rw [State.origin, hd]
        exact congrArg Origin.completion hreq
      have hoff : Inv { s with fdBusy := false, handler := .off } :=
        ⟨⟨l1, l2, l3, l4, hfree hon' _⟩, ⟨n1, n2, n3, n4, n8, n5, nofun, n7⟩,
          ⟨nofun, fun _ _ _ => ⟨d, hd, hreq, hrest⟩, c3⟩, ⟨o1, o2, o3⟩⟩
      exact hoff.interrupt busy fun _ _ => .inl hmine
    · next hidle =>
      cases hs
      exact ⟨⟨l1, l2, l3, l4, hfree hon' _⟩, ⟨n1, n2, n3, n4, n8, n5, n6, n7⟩,
        ⟨fun hbusy => absurd hbusy hidle, c2, c3⟩, ⟨o1, o2, o3⟩⟩

/-! ## §5 The Controller and the Watchdog -/

/-- A command is taken: `GO_RW` of the request, or one that changes nothing but FDIR. -/
theorem Inv.take (h : Inv s) (hs : s.take = some s') : Inv s' := by
  obtain ⟨⟨l1, l2, l3, l4, l5⟩, ⟨n1, n2, n3, n4, n8, n5, n6, n7⟩, ⟨c1, c2, c3⟩, ⟨o1, o2, o3⟩⟩ := h
  have hbusy : ∀ g, s.fdBusy = true → 13 ≤ s.pc.rank ∧ s.pc.rank ≤ 16 ∧ s.fdOp = s.op ∧
      (∀ i, s.running = some i → i = s.request) ∧ ∀ i, (none : Option (Go × ℕ)) = some (g, i) →
        i = s.request := fun g hb =>
    ⟨(n6 hb).1, (n6 hb).2.1, (n6 hb).2.2.1, (n6 hb).2.2.2.1, nofun⟩
  unfold State.take at hs
  split at hs
  · next i hrun hgo =>
    cases hs
    have hold := n1 i hgo
    refine ⟨⟨l1, l2, l3, l4, l5⟩, ⟨nofun, fun j hj => ?_, n3, fun h1 h2 => ?_, fun _ _ => nofun,
      fun d hd hreq => ?_,
      fun hb => ⟨(n6 hb).1, (n6 hb).2.1, (n6 hb).2.2.1, fun j hj => ?_, nofun⟩, n7⟩,
      ⟨c1, c2, c3⟩, ⟨o1, o2, o3⟩⟩
    · cases hj
      exact hold
    · rw [(n4 h1 h2).1] at hgo
      cases hgo
    · exact absurd hgo ((n5 d hd hreq).2.1 i)
    · cases hj
      exact (n6 hb).2.2.2.2 i hgo
  iterate 2
    · cases hs
      exact ⟨⟨l1, l2, l3, l4, l5⟩, ⟨nofun, n2, n3, fun h1 h2 => ⟨rfl, (n4 h1 h2).2⟩,
        fun _ _ => nofun,
        fun d hd hreq => ⟨(n5 d hd hreq).1, nofun, (n5 d hd hreq).2.2⟩, hbusy .rw, n7⟩,
        ⟨c1, c2, c3⟩, ⟨o1, o2, o3⟩⟩
  · cases hs

/-- A function is finished.  Nothing has been collected for the request yet. -/
theorem Inv.finish (h : Inv s) {status : ℕ} {data : δ} (hs : s.finish status data = some s') :
    Inv s' := by
  obtain ⟨⟨l1, l2, l3, l4, l5⟩, ⟨n1, n2, n3, n4, n8, n5, n6, n7⟩, ⟨c1, c2, c3⟩, ⟨o1, o2, o3⟩⟩ := h
  obtain ⟨i, hrun, rfl⟩ := Option.map_eq_some_iff.mp hs
  -- a request that has a result is not running any more
  have hnone : ¬ HasResult s := by
    rintro ⟨d, hd, hreq, -⟩
    rw [(n5 d hd hreq).1] at hrun
    cases hrun
  refine ⟨⟨l1, l2, l3, l4, l5⟩, ⟨n1, nofun, fun d hd => ?_, fun h1 h2 => ⟨(n4 h1 h2).1, rfl⟩,
    nofun, fun d hd _ => ?_, fun hb => ⟨(n6 hb).1, (n6 hb).2.1, (n6 hb).2.2.1, nofun, (n6 hb).2.2.2.2⟩,
    n7⟩, ⟨fun hb hon => absurd (c1 hb hon) hnone, fun hb h1 h2 => absurd (c2 hb h1 h2) hnone,
    fun hret => absurd (c3 hret).1 hnone⟩, ⟨o1, o2, o3⟩⟩
  · cases hd
    exact n2 i hrun
  · cases hd
    exact ⟨rfl, n8 i hrun, rfl, rfl⟩

/-- The watchdog is that of the request. -/
theorem Inv.timeout (h : Inv s) {i : ℕ} (htimer : s.timer = some i) (busy : Bool) :
    Inv (if s.fdBusy then { s with timer := none }.interrupt (.timeout i) busy
      else { s with timer := none }) := by
  have hmine := (h.numbered.timer i htimer).1
  obtain ⟨⟨l1, l2, l3, l4, l5⟩, ⟨n1, n2, n3, n4, n8, n5, n6, n7⟩, ⟨c1, c2, c3⟩, ⟨o1, o2, o3⟩⟩ := h
  have hoff : Inv { s with timer := none } :=
    ⟨⟨l1, l2, l3, l4, l5⟩, ⟨n1, n2, n3, n4, n8, n5, n6, nofun⟩, ⟨c1, c2, c3⟩, ⟨o1, o2, o3⟩⟩
  split
  · exact hoff.interrupt busy fun _ _ => .inr (congrArg Origin.timeout hmine)
  · exact hoff

/-- A held-up interrupt is repeated. -/
theorem Inv.unhold (h : Inv s) : Inv ({ s with intHeld := [] }.interruptNow s.intHeld) := by
  have hheld := h.owned.held
  obtain ⟨⟨l1, l2, l3, l4, l5⟩, ⟨n1, n2, n3, n4, n8, n5, n6, n7⟩, ⟨c1, c2, c3⟩, ⟨o1, o2, o3⟩⟩ := h
  have hoff : Inv { s with intHeld := [] } :=
    ⟨⟨l1, l2, l3, l4, l5⟩, ⟨n1, n2, n3, n4, n8, n5, n6, n7⟩, ⟨c1, c2, c3⟩,
      ⟨fun _ _ o ho => absurd ho List.not_mem_nil, o2, o3⟩⟩
  exact hoff.interruptNow hheld

/-! ## §6 Runs -/

/-- The step: an action in good order keeps the invariant. -/
theorem Inv.step {a : Action δ} (h : Inv s) (hg : Good s a) (hs : step s a = some s') : Inv s' := by
  cases a with
  | request =>
    obtain ⟨⟨-, hpc⟩, hs⟩ := Option.ite_none_right_eq_some.mp hs
    obtain rfl := Option.some.inj hs
    exact (h.outside (by rw [hpc]; decide) .read 0 s.sectorBuf).2 .loop (by decide) _
  | stray =>
    obtain ⟨⟨-, hpc, -⟩, hs⟩ := Option.ite_none_right_eq_some.mp hs
    obtain rfl := Option.some.inj hs
    exact (h.outside (by rw [hpc]; decide) .read 0 s.sectorBuf).2 s.pc (by rw [hpc]; decide) _
  | reply =>
    obtain ⟨⟨-, hpc⟩, hs⟩ := Option.ite_none_right_eq_some.mp hs
    obtain rfl := Option.some.inj hs
    exact (h.outside (by rw [hpc]; decide) .read 0 s.sectorBuf).2 .main (by decide) _
  | call op block buf =>
    obtain ⟨⟨-, hpc⟩, hs⟩ := Option.ite_none_right_eq_some.mp hs
    obtain rfl := Option.some.inj hs
    exact (h.outside (by rw [hpc]; decide) op block buf).1
  | task =>
    obtain ⟨hoff, hs⟩ := Option.ite_none_right_eq_some.mp hs
    exact h.task hoff hg hs
  | giveUp =>
    obtain ⟨-, hs⟩ := Option.ite_none_right_eq_some.mp hs
    exact h.giveUp hs
  | irq =>
    obtain ⟨-, hs⟩ := Option.ite_none_right_eq_some.mp hs
    obtain rfl := Option.some.inj hs
    exact h.collect hg
  | handle busy => exact h.handle hs
  | unhold =>
    obtain ⟨-, hs⟩ := Option.ite_none_right_eq_some.mp hs
    obtain rfl := Option.some.inj hs
    exact h.unhold
  | timeout busy =>
    obtain ⟨-, hs⟩ := Option.ite_none_right_eq_some.mp hs
    obtain ⟨i, htimer, rfl⟩ := Option.map_eq_some_iff.mp hs
    exact h.timeout htimer busy
  | take => exact h.take hs
  | finish status data => exact h.finish hs
  | event =>
    obtain rfl := Option.some.inj hs
    obtain ⟨⟨l1, l2, l3, l4, l5⟩, ⟨n1, n2, n3, n4, n8, n5, n6, n7⟩, ⟨c1, c2, c3⟩, ⟨o1, o2, o3⟩⟩ := h
    exact ⟨⟨l1, l2, l3, l4, l5⟩, ⟨n1, n2, n3, n4, n8, n5, n6, n7⟩, ⟨c1, c2, c3⟩, ⟨o1, o2, o3⟩⟩

/-- What the invariant says of the request. -/
theorem Inv.sound (h : Inv s) : s.Sound where
  command hpc := by
    have hlo : s.pc.rank = 12 := by rw [hpc]; rfl
    obtain ⟨hside, hdrive, htrack, hsector, hfunc⟩ := h.loaded
    have hregs : s.regs = ⟨s.regs.func, s.regs.drive, s.regs.side, s.regs.track, s.regs.sector⟩ := rfl
    rw [hregs, hside (by omega) hlo.le, hdrive (by omega) hlo.le, htrack (by omega) hlo.le,
      hsector (by omega) hlo.le, (hfunc (by omega) hlo.le).1]
    rfl
  delivered hpc hread := by
    obtain ⟨⟨d, hd, hreq, hstatus, hdata⟩, hzero⟩ := h.collected.returned hpc
    have hok : d.status = 0 := Option.some.inj (hstatus.symm.trans hzero)
    rw [hd, hdata hread hok, ← hreq, ← hok]
  message := h.owned.received
  status hpc hidle := by
    have hlo : s.pc.rank = 16 := by rw [hpc]; rfl
    obtain ⟨d, hd, hreq, hstatus, -⟩ := h.collected.answered hidle (by omega) hlo.le
    exact ⟨d, hd, hreq, hstatus⟩

/-- **Command integrity**: while the task, the handler and the watchdog keep to the good order, in
    every state of every run, a command goes out with the registers of its request, a read returns
    `OK` with the data of its request, and no message or status is about another one. -/
theorem sound_of_reached (h : Reached Good s) : s.Sound := by
  have hinv : Inv s := by
    induction h with
    | initial d => exact inv_initial d
    | step _ hg hs ih => exact ih.step hg hs
  exact hinv.sound

/-! ## §7 Some Runs -/

/-- Some actions one after the other, with a check. -/
def play (check : State δ → Action δ → Bool) : List (Action δ) → State δ → Option (State δ)
  | [], s => some s
  | a :: as, s => if check s a then (step s a).bind (play check as) else none

theorem Reached.play {allowed : State δ → Action δ → Prop} {check : State δ → Action δ → Bool}
    (hcheck : ∀ s a, check s a = true → allowed s a) {as : List (Action δ)}
    (h : Reached allowed s) (hplay : play check as s = some s') : Reached allowed s' := by
  induction as generalizing s with
  | nil =>
    cases hplay
    exact h
  | cons a as ih =>
    obtain ⟨hc, hrun⟩ := Option.ite_none_right_eq_some.mp hplay
    obtain ⟨s₁, hs1, hrest⟩ := Option.bind_eq_some_iff.mp hrun
    exact ih (h.step (hcheck s a hc) hs1) hrest

/-- A run from the set-up, and something that is computed from the state it reaches. -/
theorem exists_reached (allowed : State δ → Action δ → Prop) (check : State δ → Action δ → Bool)
    (hcheck : ∀ s a, check s a = true → allowed s a) (as : List (Action δ)) (d : δ) {α : Type}
    (f : State δ → α) (a : α) (h : (play check as (.initial d)).map f = some a) :
    ∃ s, Reached allowed s ∧ f s = a := by
  obtain ⟨s, hplay, hf⟩ := Option.map_eq_some_iff.mp h
  exact ⟨s, (Reached.initial d).play hcheck hplay, hf⟩

instance (s : State δ) (a : Action δ) : Decidable (Good s a) := by
  cases a <;> unfold Good State.commanding <;> infer_instance

/-- The read of block 0, up to `GO_RW`; the controller takes the command before it. -/
def begin : List (Action ℕ) :=
  [.take, .request, .call .read 0 0] ++ List.replicate 10 .task

/-- The function is finished, and the handler collects the result. -/
def complete (data : ℕ) : List (Action ℕ) :=
  [.task, .task, .take, .finish 0 data, .irq] ++ List.replicate 4 (.handle false)

/-- A read from the command to its end. -/
theorem sound_of_reached_read : ∃ s : State ℕ, Reached Good s ∧ s.pc = .ret .ok ∧
    s.sectorBuf = 7 ∧ s.finished = some ⟨1, 0, 7⟩ := by
  obtain ⟨s, hr, hf⟩ := exists_reached Good (fun s a => decide (Good s a))
    (fun s a h => of_decide_eq_true h)
    (begin ++ complete 7 ++ [.task, .task]) 0 (fun s => (s.pc, s.op, s.request, s.sectorBuf))
    (.ret .ok, .read, 1, 7) (by decide +kernel)
  simp only [Prod.mk.injEq] at hf
  obtain ⟨hpc, hread, hreq, hbuf⟩ := hf
  have hfin := (sound_of_reached hr).delivered hpc hread
  rw [hreq, hbuf] at hfin
  exact ⟨s, hr, hpc, hbuf, hfin⟩

/-- **What goes wrong otherwise.**  A disk is inserted before `GO_RW`, and the command is no read
    any more; a disk is inserted while the controller works, and the read returns `OK` with nothing
    read; the watchdog fires just before the controller has finished, and the next request takes
    its message. -/
theorem unsound_runs :
    (∃ s : State ℕ, Reached (fun _ _ => True) s ∧ s.pc = .go ∧
      s.regs ≠ command s.op s.block) ∧
    (∃ s : State ℕ, Reached (fun _ _ => True) s ∧ s.pc = .ret .ok ∧ s.op = .read ∧
      s.finished = none) ∧
    ∃ s : State ℕ, Reached (fun _ _ => True) s ∧ s.pc = .cancel ∧ s.request = 2 ∧
      s.received = [.timeout 1] := by
  refine ⟨?_, ?_, ?_⟩
  · obtain ⟨s, hr, hf⟩ := exists_reached (fun _ _ => True) (fun _ _ => true) (fun _ _ _ => trivial)
      (begin ++ [.event, .irq, .handle false, .handle false, .handle false]) 0
      (fun s => (s.pc, decide (s.regs = command s.op s.block))) (.go, false) (by decide +kernel)
    simp only [Prod.mk.injEq, decide_eq_false_iff_not] at hf
    exact ⟨s, hr, hf⟩
  · obtain ⟨s, hr, hf⟩ := exists_reached (fun _ _ => True) (fun _ _ => true) (fun _ _ _ => trivial)
      (begin ++ [.task, .task, .event, .irq] ++ List.replicate 4 (.handle false) ++
        [.task, .task]) 0
      (fun s => (s.pc, s.op, s.finished)) (.ret .ok, .read, none) (by decide +kernel)
    simp only [Prod.mk.injEq] at hf
    exact ⟨s, hr, hf⟩
  · obtain ⟨s, hr, hf⟩ := exists_reached (fun _ _ => True) (fun _ _ => true) (fun _ _ _ => trivial)
      (begin ++ [.task, .task, .timeout true, .take, .finish 0 7, .irq] ++
        List.replicate 4 (.handle false) ++ [.unhold, .take] ++ List.replicate 3 .task ++
        [.call .read 1 0] ++ List.replicate 12 .task) 0
      (fun s => (s.pc, s.request, s.received)) (.cancel, 2, [.timeout 1]) (by decide +kernel)
    simp only [Prod.mk.injEq] at hf
    exact ⟨s, hr, hf⟩

end LisaMinix.Kernel.Floppy
