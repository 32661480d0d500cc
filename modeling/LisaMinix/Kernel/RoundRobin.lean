import LisaMinix.Kernel.UserQueue

/-!
# Round Robin

The clock task calls `sched` when a process has run for too long.  However this is mixed with
other events, user processes take turns (`reached_fair`): of two processes that stay ready, neither
is sent to the end of the queue twice more than the other, and a process that stays ready is
preceded by nobody but those that were ahead of it from the start.

A signal can take a process off its queue and put it back within one event (`SIGSTKFLT`), so a
process that is signalled does not count as staying ready.
-/

namespace LisaMinix.Kernel

open LisaMinix.Library
open LisaMinix.Mm (MemMaps)

/-! ## §1 One event -/

/-- `p` is ready before and after an event that does not signal it. -/
def GoesOn (p : ProcPtr) (k : KState) (e : Event) (k' : KState) : Prop :=
  Runnable k.pFlags p ∧ Runnable k'.pFlags p ∧ (signalOf e).map Prod.fst ≠ some p

instance (p : ProcPtr) (k : KState) (e : Event) (k' : KState) : Decidable (GoesOn p k e k') :=
  inferInstanceAs (Decidable (_ ∧ _ ∧ _))

section Events

variable {k k' : KState} {p q : ProcPtr} {e : Event} {n : ℤ}

/-- Nobody comes ahead of a user process that stays ready, unless `sched` is called. -/
theorem perform_holds (h : Inv k) (hpr : Promised k e) (huser : isuserp p)
    (hgo : GoesOn p k e k') (hs : e ≠ .sched) (hrun : k.perform e = .ok (n, k')) :
    HoldsTurn p k.rdy k'.rdy := by
  obtain ⟨hp, hp', hsig⟩ := hgo
  have hres := KState.resumed_inv h
  cases e with
  | sysCall f srcDest mPtr =>
    have hholds := sysCall_holds hres hpr.1 hpr.2 huser hp'.1 hrun
    exact hholds
  | store addr msg =>
    obtain ⟨-, rfl⟩ := Prod.mk.inj (Except.ok.inj hrun)
    exact .refl p _
  | async rp busy =>
    obtain ⟨k₁, hk1, hout⟩ := map_eq_ok hrun
    obtain ⟨-, rfl⟩ := Prod.mk.inj hout
    exact async_holds h hpr hk1
  | unhold =>
    obtain ⟨k₁, hk1, hout⟩ := map_eq_ok hrun
    obtain ⟨-, rfl⟩ := Prod.mk.inj hout
    exact unhold_holds h hk1
  | sched => exact absurd rfl hs
  | causeSig rp sigNr =>
    obtain ⟨k₁, hk1, hout⟩ := map_eq_ok hrun
    obtain ⟨-, rfl⟩ := Prod.mk.inj hout
    have hne : rp ≠ p := fun hx => hsig (by simp [signalOf, hx])
    have hholds := causeSig_holds hres hpr hne hk1
    exact hholds
  | fork proc1 proc2 base =>
    simp only [KState.perform, KState.doFork] at hrun
    cases hpp : susern proc1 with
    | none =>
      simp only [hpp] at hrun
      obtain ⟨-, rfl⟩ := Prod.mk.inj (Except.ok.inj hrun)
      exact .refl p _
    | some rpp =>
      cases hpc : susern proc2 with
      | none =>
        simp only [hpp, hpc] at hrun
        obtain ⟨-, rfl⟩ := Prod.mk.inj (Except.ok.inj hrun)
        exact .refl p _
      | some rpc =>
        simp only [hpp, hpc] at hrun
        obtain ⟨-, rfl⟩ := Prod.mk.inj (Except.ok.inj hrun)
        simp only [Promised, hpp, hpc] at hpr
        have hholds : HoldsTurn p k.resumed.rdy _ := forked_holds hres hpr base
        exact hholds
  | exec proc1 traced =>
    have hholds := doExec_holds (p := p) hres hp (fun rp hrp => by
      simp only [Promised, hrp] at hpr
      exact hpr) hrun
    exact hholds
  | xit proc1 proc2 =>
    have hholds := doXit_holds hres hp'.1 hrun
    exact hholds
  | sig pr signum =>
    simp only [KState.perform, KState.doSig] at hrun
    cases hrp : usern pr with
    | none =>
      simp only [hrp] at hrun
      obtain ⟨-, rfl⟩ := Prod.mk.inj (Except.ok.inj hrun)
      exact .refl p _
    | some rp =>
      simp only [hrp] at hrun
      split at hrun
      · obtain ⟨k₁, hk1, hout⟩ := map_eq_ok hrun
        obtain ⟨-, rfl⟩ := Prod.mk.inj hout
        by_cases hcount : k.resumed.pPendcount rp = 0
        · -- nothing is finished
          unfold KState.finishSig at hk1
          rw [if_pos hcount] at hk1
          obtain rfl := Except.ok.inj hk1
          exact .refl p _
        · have hpend := (h.rest.slots rp).counted hcount
          have hholds : HoldsTurn p k.resumed.rdy k₁.rdy :=
            finishSig_holds hres.rdy (not_runnable (f := Flags.sigPending) hpend rfl) hk1
          exact hholds
      · obtain ⟨-, rfl⟩ := Prod.mk.inj (Except.ok.inj hrun)
        exact .refl p _
  | kill pr signum =>
    simp only [KState.perform, KState.doKill] at hrun
    cases hrp : usern pr with
    | none =>
      simp only [hrp] at hrun
      obtain ⟨-, rfl⟩ := Prod.mk.inj (Except.ok.inj hrun)
      exact .refl p _
    | some rp =>
      simp only [hrp] at hrun
      obtain ⟨k₁, hk1, hout⟩ := map_eq_ok hrun
      obtain ⟨-, rfl⟩ := Prod.mk.inj hout
      have hne : rp ≠ p := fun hx => hsig (by simp [signalOf, hrp, hx])
      have hholds := causeSig_holds hres (not_isKernelp_of_isuserp (usern_eq_some hrp)) hne hk1
      exact hholds
  | trace procnr request =>
    have hholds := doTrace_holds hres hp'.1 (fun rp hrp => by
      have hpr' := hpr.2
      simp only [hrp] at hpr'
      exact hpr') hrun
    exact hholds
  | newmap proc1 map =>
    simp only [KState.perform, KState.doNewmap] at hrun
    split at hrun
    · obtain ⟨-, rfl⟩ := Prod.mk.inj (Except.ok.inj hrun)
      exact .refl p _
    · obtain ⟨-, rfl⟩ := Prod.mk.inj (Except.ok.inj hrun)
      exact .refl p _

end Events

/-! ## §2 Runs -/

/-- The elements that are reached from a pointer, at most `fuel` of them. -/
def follow (next : ProcPtr → Option ProcPtr) : ℕ → Option ProcPtr → List ProcPtr
  | 0, _ => []
  | _, none => []
  | fuel + 1, some p => p :: follow next fuel (next p)

/-- The processes on the user queue. -/
def KState.userQueue (k : KState) : List ProcPtr := follow k.rdy.nextready fuel (k.rdy.head .userQ)

/-- 1 when `p` has had its turn: `sched` is called, and `p` is the first user process. -/
def hasTurn (k : KState) (e : Event) (p : ProcPtr) : ℕ :=
  if e = .sched ∧ k.rdy.head .userQ = some p then 1 else 0

/-- A part of a run in which `p` and `q` stay ready: they have had `i` and `j` turns, and `sched`
has been called `n` times. -/
inductive Segment (p q : ProcPtr) (k : KState) : ℕ → ℕ → ℕ → KState → Prop
  | start : Segment p q k 0 0 0 k
  | step {i j n : ℕ} {k₁ k₂ : KState} {e : Event} {r : ℤ} (h : Segment p q k i j n k₁)
      (hpr : Promised k₁ e) (hrun : k₁.perform e = .ok (r, k₂)) (hp : GoesOn p k₁ e k₂)
      (hq : GoesOn q k₁ e k₂) :
      Segment p q k (i + hasTurn k₁ e p) (j + hasTurn k₁ e q)
        (n + if e = .sched then 1 else 0) k₂

section Runs

variable {L : Layout} {map : ProcPtr → MemMaps} {memory : Cell → Message} {k k' : KState}
  {p q : ProcPtr} {i j n : ℕ}

variable {l : List ProcPtr}

theorem follow_chain {next : ProcPtr → Option ProcPtr} {a : Option ProcPtr}
    (h : Chain next a l) (m : ℕ) (hm : l.length ≤ m) : follow next m a = l := by
  induction l generalizing a m with
  | nil =>
    obtain rfl : a = none := h
    cases m <;> rfl
  | cons x l ih =>
    obtain ⟨rfl, hrest⟩ := h
    cases m with
    | zero => simp at hm
    | succ m => rw [follow, ih hrest m (by simpa using hm)]

theorem KState.userQueue_eq (h : k.rdy.UserQ l) : k.userQueue = l :=
  follow_chain h.chain fuel (length_le_fuel h.nodup)

theorem queueOf_user (h : isuserp p) : queueOf p = .userQ := by
  unfold queueOf
  rw [if_neg fun ht => not_isKernelp_of_isuserp h ht.1, if_pos h]

theorem mem_userQueue (h : Inv k) (hp : isuserp p) (hr : Runnable k.pFlags p)
    (hl : k.rdy.UserQ l) : p ∈ l :=
  (h.rdy.mem_userQ hl).mpr ⟨hr, queueOf_user hp⟩

/-- In terms of queues, a part of a run is a history of turns. -/
theorem Segment.history (hs : Segment p q k i j n k') (hinv : Inv k) (hup : isuserp p)
    (huq : isuserp q) (hl : k.rdy.UserQ l) :
    Inv k' ∧ ∃ l', k'.rdy.UserQ l' ∧ History p q l i j n l' := by
  induction hs with
  | start => exact ⟨hinv, l, hl, .start⟩
  | @step i j n k₁ k₂ e r _ hpr hrun hp hq ih =>
    obtain ⟨hinv1, l₁, hl1, hhist⟩ := ih
    refine ⟨(KState.perform_cases hinv1 hpr hrun).1, ?_⟩
    have hmemp := mem_userQueue hinv1 hup hp.1 hl1
    have hmemq := mem_userQueue hinv1 huq hq.1 hl1
    by_cases he : e = .sched
    · -- the first process has its turn
      subst he
      obtain ⟨rdy, hsched, hout⟩ := map_eq_ok hrun
      obtain ⟨-, rfl⟩ := Prod.mk.inj hout
      cases l₁ with
      | nil => simp at hmemp
      | cons a m =>
        have hhead : k₁.rdy.head .userQ = some a := hl1.chain.1
        refine ⟨m ++ [a], sched_userQ hsched hl1, ?_⟩
        have hturn : ∀ x, hasTurn k₁ .sched x = turnOf a x := by
          intro x
          simp [hasTurn, turnOf, hhead]
        rw [hturn, hturn, if_pos rfl]
        exact hhist.turn hl1.nodup
    · -- any other event leaves the two in their order, with none new ahead of them
      obtain ⟨l₂, hl2, hsp⟩ := perform_holds hinv1 hpr hup hp he hrun l₁ hl1 hmemp
      obtain ⟨l₃, hl3, hsq⟩ := perform_holds hinv1 hpr huq hq he hrun l₁ hl1 hmemq
      obtain rfl := hl2.unique hl3
      refine ⟨l₂, hl2, ?_⟩
      have hturn : ∀ x, hasTurn k₁ e x = 0 := by
        intro x
        simp [hasTurn, he]
      rw [hturn, hturn, if_neg he]
      exact hhist.stay hsp hsq

/-- **Round robin**, in every part of every run: two user processes that stay ready have the same
number of turns, up to one, and `sched` is not called more often before the first turn of a
process than there were processes ahead of it; until then nobody else comes ahead of it. -/
theorem reached_fair (h : Reached Promised L map memory k) (hup : isuserp p) (huq : isuserp q)
    (hpq : p ≠ q) (hp : Runnable k.pFlags p) (hq : Runnable k.pFlags q)
    (hs : Segment p q k i j n k') :
    i ≤ j + 1 ∧ j ≤ i + 1 ∧ (i = 0 → n ≤ (ahead p k.userQueue).length ∧
      (ahead p k'.userQueue).Sublist (ahead p k.userQueue)) := by
  have hinv := h.inv
  obtain ⟨l, hl, -⟩ := hinv.rdy.userQ
  obtain ⟨-, l', hl', hhist⟩ := hs.history hinv hup huq hl
  have hmemp := mem_userQueue hinv hup hp hl
  have hmemq := mem_userQueue hinv huq hq hl
  obtain ⟨hij, hji⟩ := hhist.fair hmemp hmemq hpq
  refine ⟨hij, hji, fun hi => ?_⟩
  rw [KState.userQueue_eq hl, KState.userQueue_eq hl']
  obtain ⟨hwait, hsub⟩ := hhist.waiting hmemp hmemq hi
  exact ⟨by omega, hsub⟩

/-- Deal with some events one after the other, and count the turns, as long as `p` and `q` stay
ready. -/
def playTurns (p q : ProcPtr) : List Event → ℕ × ℕ × ℕ → KState → Except Fault ((ℕ × ℕ × ℕ) × KState)
  | [], c, k => .ok (c, k)
  | e :: es, c, k =>
    k.perform e >>= fun res =>
    if Promised k e ∧ GoesOn p k e res.2 ∧ GoesOn q k e res.2 then
      playTurns p q es (c.1 + hasTurn k e p, c.2.1 + hasTurn k e q,
        c.2.2 + if e = .sched then 1 else 0) res.2
    else .error .endless

theorem Segment.play {es : List Event} {c c' : ℕ × ℕ × ℕ} {k₁ : KState}
    (h : Segment p q k c.1 c.2.1 c.2.2 k₁) (hplay : playTurns p q es c k₁ = .ok (c', k')) :
    Segment p q k c'.1 c'.2.1 c'.2.2 k' := by
  induction es generalizing c k₁ with
  | nil =>
    obtain ⟨rfl, rfl⟩ := Prod.mk.inj (Except.ok.inj hplay)
    exact h
  | cons e es ih =>
    unfold playTurns at hplay
    obtain ⟨res, hrun, hplay⟩ := bind_eq_ok hplay
    split at hplay
    next hc => exact ih (h.step (r := res.1) hc.1 hrun hc.2.1 hc.2.2) hplay
    next => exact absurd hplay (by simp)

/-- What the clock task does while two processes are ready. -/
def quanta : List Event := [.sched, .store 0 ⟨0, 0, 0, 0, 0⟩, .sched, .sched]

/-- INIT forks, MM answers both, and then the clock task calls `sched` three times. -/
theorem reached_fair_fork : ∃ k k', Reached Promised plainLayout plainMap noMessage k ∧
    k.userQueue = [12, init] ∧ Segment 12 init k 2 1 3 k' ∧
    2 ≤ 1 + 1 ∧ 1 ≤ 2 + 1 ∧ (2 = 0 → 3 ≤ (ahead 12 k.userQueue).length ∧
      (ahead 12 k'.userQueue).Sublist (ahead 12 k.userQueue)) := by
  have hcheck : ∀ k e, decide (Promised k e) = true → Promised k e :=
    fun _ _ h => of_decide_eq_true h
  obtain ⟨k, hr, hf⟩ := exists_reached Promised plainLayout plainMap noMessage
    (fun k e => decide (Promised k e)) hcheck
    (forkRun ++ [.sysCall .send 2 2304, .sysCall .receive any 2304])
    (fun k => decide (k.userQueue = [12, init] ∧ Runnable k.pFlags 12 ∧ Runnable k.pFlags init ∧
      ((playTurns 12 init quanta (0, 0, 0) k).map Prod.fst).toOption = some (2, 1, 3)))
    true (by decide +kernel)
  obtain ⟨hqueue, hp, hq, hplay⟩ := of_decide_eq_true hf
  cases hrun : playTurns 12 init quanta (0, 0, 0) k with
  | error f =>
    rw [hrun] at hplay
    exact absurd hplay (by simp [Except.map, Except.toOption])
  | ok res =>
    rw [hrun] at hplay
    have hc : res.1 = (2, 1, 3) := by simpa [Except.toOption] using hplay
    have hs : Segment 12 init k res.1.1 res.1.2.1 res.1.2.2 res.2 :=
      Segment.play (c := (0, 0, 0)) .start hrun
    rw [hc] at hs
    exact ⟨k, res.2, hr, hqueue, hs,
      reached_fair hr (by decide) (by decide) (by decide) hp hq hs⟩

end Runs

end LisaMinix.Kernel
