import LisaMinix.Mm.Alarms
import LisaMinix.Mm.OwnedRuns

/-!
# Process Identifiers

`do_fork` is the only function of MM that writes `next_pid` and the pids.  Along every run of MM
`next_pid` is a pid that a user process other than INIT can have, and no two live processes have
the same pid.

- `Ends`: what a request other than FORK does to the pids; processes may end.
- `handle_ends`: every request but FORK does so.
- `doFork_forks`: the child of FORK gets a pid of its own.
- `reached_numbered`: the pids along every run, whatever is requested.
-/

namespace LisaMinix.Mm

open LisaMinix.Library

/-! ## §1 Requests That Give No Pid -/

/-- No process is born and no pid changes. -/
structure Ends (s s' : MmState) : Prop where
  pid : ∀ p, (s'.mproc p).pid = (s.mproc p).pid
  live : ∀ p, Alarm.live (s'.mproc p) = true → Alarm.live (s.mproc p) = true
  nextPid : s'.nextPid = s.nextPid

section Frames

variable {s s' s'' : MmState} {p who : ProcNr} {env : Env}

theorem Ends.refl (s : MmState) : Ends s s := ⟨fun _ => rfl, fun _ h => h, rfl⟩

theorem Ends.trans (h : Ends s s') (h' : Ends s' s'') : Ends s s'' where
  pid p := (h'.pid p).trans (h.pid p)
  live p hp := h.live p (h'.live p hp)
  nextPid := h'.nextPid.trans h.nextPid

/-- What does nothing to the alarms does nothing to the pids. -/
theorem Ends.of_steady (h : Alarm.Steady s s') : Ends s s' where
  pid p := Alarm.pid_of_part (h.part p)
  live p hp := (h.live p) ▸ hp
  nextPid := h.nextPid

/-- A process that is silenced may be gone. -/
theorem Ends.of_silenced (h : Alarm.Silenced p s s') : Ends s s' where
  pid q := by
    by_cases hq : q = p
    · rw [hq]
      exact h.pid
    · exact Alarm.pid_of_part (h.others q hq)
  live q hl := by
    by_cases hq : q = p
    · rw [hq] at hl ⊢
      exact h.live hl
    · rw [← Alarm.live_of_part (h.others q hq)]
      exact hl
  nextPid := h.nextPid

/-- A change to one slot that leaves its pid alone and brings nobody to life. -/
theorem Ends.modify (s : MmState) (p : ProcNr) {f : Mproc → Mproc}
    (hpid : ∀ m, (f m).pid = m.pid) (hlive : ∀ m, Alarm.live (f m) = Alarm.live m) :
    Ends s (s.modify p f) := by
  refine ⟨fun q => ?_, fun q hl => ?_, rfl⟩
  · by_cases hq : q = p
    · rw [hq, mproc_modify_self, hpid]
    · rw [mproc_modify_of_ne hq]
  · by_cases hq : q = p
    · rw [hq, mproc_modify_self, hlive] at hl
      rw [hq]
      exact hl
    · rw [mproc_modify_of_ne hq] at hl
      exact hl

theorem Ends.reply (s : MmState) (p : ProcNr) (result : ℤ) (res2 : ℕ) :
    Ends s (Mm.reply s p result res2) :=
  Ends.of_steady (Alarm.Steady.reply ..)

/-- **Signals and TRACE** give no pid. -/
theorem ends_upkeep (s : MmState) : Upkeep (Ends s) where
  undisturbed hs h := h.trans (Ends.of_steady (Alarm.Steady.of_undisturbed hs))
  alarm t p _ h := h.trans (Ends.modify t p (fun _ => rfl) fun _ => rfl)
  stopProc t p sigNr h := h.trans (Ends.of_steady (Alarm.stopProc_steady t p sigNr))
  unpause t p h := h.trans (Ends.of_steady (Alarm.unpause_steady t p))
  killProc h _ hrun := h.trans (Ends.of_silenced (Alarm.killProc_silenced hrun))
  mmExit h _ hrun := h.trans (Ends.of_silenced (Alarm.mmExit_silenced hrun).1)

/-! ### The requests -/

theorem getWork_ends (s : MmState) (who : ProcNr) (r : Request) : Ends s (getWork s who r) :=
  ⟨fun _ => rfl, fun _ => id, rfl⟩

/-- **A request other than FORK** gives no pid. -/
theorem handle_ends {r : Request} (hfork : r ≠ .fork) (hrun : handle s env who r = .ok s') :
    Ends s s' := by
  cases r with
  | fork => exact absurd rfl hfork
  | exit status => exact Ends.of_silenced (Alarm.mmExit_silenced hrun).1
  | wait =>
    obtain ⟨⟨s₁, e⟩, hwait, rfl⟩ := map_eq_ok hrun
    have hends : Ends s s₁ := Ends.of_steady (Alarm.waitLoop_steady hwait)
    cases e with
    | none => exact hends
    | some e => exact hends.trans (Ends.reply ..)
  | pause =>
    cases hrun
    exact Ends.modify _ _ (fun _ => rfl) fun _ => rfl
  | ksig sigMap => exact (ends_upkeep s).doKsig (Ends.refl s) hrun
  | exec | brk | kill | trace | signal | alarm | setuid =>
    obtain ⟨s₁, hends, rfl | rfl | ⟨e, k, rfl⟩⟩ := (ends_upkeep s).answered (Ends.refl s) hrun trivial
    · exact hends
    · exact ⟨hends.pid, hends.live, hends.nextPid⟩
    · exact hends.trans (Ends.reply ..)

end Frames

/-! ## §2 FORK -/

/-- The process in slot `child` has been given the pid `n`, which no other slot has as its pid or
its process group. -/
structure PidGiven (s s' : MmState) (child : ProcNr) (n : ℤ) : Prop where
  self : (s'.mproc child).pid = n
  next : s'.nextPid = n
  le : n ≤ 30000
  ge : initPid ≤ s.nextPid → initPid < n
  pids : ∀ q, q ≠ child → (s.mproc q).pid ≠ n
  groups : ∀ q, q ≠ child → (s.mproc q).procgrp ≠ n
  others : ∀ q, q ≠ child → (s'.mproc q).pid = (s.mproc q).pid ∧
    Alarm.live (s'.mproc q) = Alarm.live (s.mproc q)

section Fork

variable {s s' : MmState} {who child : ProcNr} {base : ℕ}

/-- **FORK** fails, or gives the first free slot a pid of its own. -/
theorem doFork_forks {r : ℤ} (hrun : doFork s who = .ok (s', r)) :
    r = eagain ∧ Ends s s' ∨ ∃ child, freeSlot s = some child ∧ PidGiven s s' child r := by
  rcases doFork_cases hrun with ⟨t, heq⟩ | ⟨t, b, child, base, n, hslot, -, hn, heq⟩
  · cases heq
    exact .inl ⟨rfl, fun _ => rfl, fun _ => id, rfl⟩
  obtain ⟨rfl, rfl⟩ := Prod.mk.inj heq
  set s₁ : MmState := { s with holes := t, events := .alloc b :: s.events }
  -- telling the kernel and the child leaves the pids alone
  have hsteady : Alarm.Steady (withChild s₁ who child base r)
      (reply (sysFork (withChild s₁ who child base r) who child base) child 0 0) := by
    apply Alarm.Steady.then_reply
    exact ⟨fun _ => rfl, rfl⟩
  refine .inr ⟨child, hslot, ?_, hsteady.nextPid, hn.le, hn.ge, fun q hq => (hn.others q hq).1,
    fun q hq => (hn.others q hq).2, fun q hq => ?_⟩
  · rw [Alarm.pid_of_part (hsteady.part child), withChild_self]
    rfl
  · rw [Alarm.pid_of_part (hsteady.part q), hsteady.live q, withChild_of_ne _ _ _ _ hq]
    exact ⟨rfl, rfl⟩

end Fork

/-! ## §3 Runs -/

/-- `next_pid` is a pid for a user process other than INIT, and no two live processes have the same
pid. -/
structure Numbered (s : MmState) : Prop extends Alarm.Pids s where
  range : initPid < s.nextPid ∧ s.nextPid ≤ 30000

section Runs

variable {s s' : MmState} {who : ProcNr} {env : Env} {size org text data tot : ℕ}
  {safe : MmState → ProcNr → Request → Prop}

theorem Numbered.ends (h : Numbered s) (hends : Ends s s') : Numbered s' where
  toPids := h.toPids.of_shrunk hends.pid hends.live hends.nextPid
  range := by
    rw [hends.nextPid]
    exact h.range

theorem Numbered.given (h : Numbered s) {child : ProcNr} {n : ℤ} (hgiven : PidGiven s s' child n) :
    Numbered s' := by
  have hge : initPid < n := hgiven.ge (le_of_lt h.range.1)
  have hpos : 0 < n := lt_trans (by decide) hge
  refine ⟨⟨fun q hq hl => ?_, fun q q' hq hq' hl hl' heq => ?_, ?_⟩, ?_⟩
  · by_cases hqc : q = child
    · rw [hqc, hgiven.self]
      exact hpos
    · obtain ⟨hpid, hlive⟩ := hgiven.others q hqc
      rw [hpid]
      exact h.pos q hq (hlive ▸ hl)
  · by_cases hqc : q = child
    · by_cases hqc' : q' = child
      · rw [hqc, hqc']
      · -- the pid of the new process is nobody else's
        rw [hqc, hgiven.self, (hgiven.others q' hqc').1] at heq
        exact absurd heq.symm (hgiven.pids q' hqc')
    · obtain ⟨hpid, hlive⟩ := hgiven.others q hqc
      by_cases hqc' : q' = child
      · rw [hqc', hgiven.self, hpid] at heq
        exact absurd heq (hgiven.pids q hqc)
      · obtain ⟨hpid', hlive'⟩ := hgiven.others q' hqc'
        rw [hpid, hpid'] at heq
        exact h.inj q q' hq hq' (hlive ▸ hl) (hlive' ▸ hl') heq
  · rw [hgiven.next]
    exact hpos
  · rw [hgiven.next]
    exact ⟨hge, hgiven.le⟩

/-- **One turn of the main loop.** -/
theorem handle_numbered (h : Numbered s) {r : Request} (hrun : handle s env who r = .ok s') :
    Numbered s' := by
  -- only FORK gives pids
  by_cases hfork : r = .fork
  · rw [hfork] at hrun
    obtain ⟨⟨s₁, e⟩, hdo, rfl⟩ := map_eq_ok hrun
    have hreply : Ends s₁ (answer who (s₁, e)) := Ends.reply ..
    rcases doFork_forks hdo with ⟨-, hends⟩ | ⟨child, -, hgiven⟩
    · exact h.ends (hends.trans hreply)
    · exact (h.given hgiven).ends hreply
  · exact h.ends (handle_ends hfork hrun)

theorem mmBoot_numbered (hboot : mmBoot size org text data tot = .ok s) : Numbered s := by
  refine ⟨(Alarm.boot_inv hboot).pids, ?_⟩
  obtain ⟨holes, rfl⟩ := mmBoot_state hboot
  exact ⟨show initPid < initPid + 1 by decide, show initPid + 1 ≤ 30000 by decide⟩

/-- **The pids along every run**, whatever is requested. -/
theorem reached_numbered (hr : Reached size org text data tot safe s) : Numbered s := by
  induction hr with
  | boot hboot => exact mmBoot_numbered hboot
  | step _ _ _ hrun ih =>
    exact handle_numbered (ih.ends (getWork_ends ..)) hrun

/-- **The pids of MM.**  For every process table and every `next_pid` the search of `do_fork` ends,
with a pid that no other slot has as its pid and no slot as its process group.  Along every run
`next_pid` is between `INIT_PID + 1` and 30000, so that this pid is, too. -/
theorem fork_pids :
    (∀ (s : MmState) (child : ProcNr), ∃ n, findPid 30000 s child = .ok (withPid s child n) ∧
      FreshPid s child n ∧ n ≤ 30000 ∧ (initPid ≤ s.nextPid → initPid + 1 ≤ n)) ∧
    ∀ {size org text data tot : ℕ} {safe : MmState → ProcNr → Request → Prop} {s : MmState},
      Reached size org text data tot safe s →
      Numbered s ∧ ∀ who s' r, doFork s who = .ok (s', r) → r = eagain ∨
        (initPid + 1 ≤ r ∧ r ≤ 30000) ∧ ∃ child, freeSlot s = some child ∧
          PidGiven s s' child r := by
  refine ⟨findPid_range, fun hr => ?_⟩
  have hnumbered := reached_numbered hr
  refine ⟨hnumbered, fun who s' r hrun => ?_⟩
  rcases doFork_forks hrun with ⟨hfail, -⟩ | ⟨child, hslot, hgiven⟩
  · exact .inl hfail
  · exact .inr ⟨⟨hgiven.ge (le_of_lt hnumbered.range.1), hgiven.le⟩, child, hslot, hgiven⟩

/-- INIT forks twice, and a child exits; and a search that begins again at `INIT_PID + 1`. -/
theorem fork_pids_wrap :
    (∃ s, Reached 4096 100 20 30 200 (fun _ _ _ => True) s ∧ s.nextPid = 4 ∧ Numbered s) ∧
    ∃ s : MmState, s.nextPid = 30000 ∧ ∃ n, findPid 30000 s 3 = .ok (withPid s 3 n) ∧
      FreshPid s 3 n ∧ initPid + 1 ≤ n ∧ n ≤ 30000 := by
  obtain ⟨s, hr, hnext⟩ := exists_reached 4096 100 20 30 200 (fun _ _ _ => True) quietEnv
    [(2, .fork), (2, .fork), (3, .exit 0), (2, .wait)] (fun s => s.nextPid) 4
    (by decide +kernel) (by simp)
  refine ⟨⟨s, hr, hnext, (fork_pids.2 hr).1⟩, { s with nextPid := 30000 }, rfl, ?_⟩
  obtain ⟨n, hrun, hfresh, hle, hge⟩ := fork_pids.1 { s with nextPid := 30000 } 3
  exact ⟨n, hrun, hfresh, hge (show initPid ≤ 30000 by decide), hle⟩

end Runs

end LisaMinix.Mm
