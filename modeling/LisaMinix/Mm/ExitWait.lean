import LisaMinix.Mm.Reports

/-!
# Exit and Wait along Every Run of MM

Every call of MM keeps the processes one family: the history is one that the machine of
`Lineage` allows, and the table is the state the machine is in.  From this follows, for every
run, that a process is reported and its slot released once, that every process has a parent
in use, that no zombie is kept from a waiting parent, and that a process that has ended gets
no message.  What the reports say, and that they answer a WAIT, comes from `Reports`.

No assumption is made about the requests: the memory of a zombie that is signalled again is
freed twice (see `zombie_freed_twice`), but its slot is not.
-/

namespace LisaMinix.Mm

open LisaMinix.Library Function

/-! ## §1 Leaving -/

/-- The state of the table between two requests. -/
structure Family (s : MmState) : Prop where
  kin : Kin ∅ s
  collected : ∀ p, Collected s p

section Leaving

variable {s s' : MmState} {p q : ProcNr}

theorem SameKin.of_undisturbed (h : Undisturbed s s') : SameKin s s' where
  part p := by rw [kinPart, h.inUse, h.hanging, h.parent]; rfl
  waiting p hp := by rwa [h.waiting] at hp
  procsInUse := h.procsInUse
  history := h.history

theorem Family.of_sameKin (h : Family s) (hs : SameKin s s') : Family s' :=
  ⟨h.kin.of_sameKin hs, fun p => hs.collected (h.collected p)⟩

theorem Family.modify (h : Family s) (p : ProcNr) {f : Mproc → Mproc}
    (hf : ∀ m, kinPart (f m) = kinPart m)
    (hw : ∀ m, (f m).waiting = true → m.waiting = true) : Family (s.modify p f) :=
  h.of_sameKin (SameKin.modify s p hf hw)

theorem Family.reply (h : Family s) (p : ProcNr) (result : ℤ) (res2 : ℕ) :
    Family (reply s p result res2) :=
  ⟨h.kin.reply p result res2, fun q => (h.collected q).reply p result res2⟩

/-- An event that does not concern the family. -/
theorem Family.mention (h : Family s) {e : ProcEvent}
    (he : ∀ g : Lineage, g.step e = some { g with said := none }) : Family (s.note e) :=
  ⟨h.kin.mention he, h.collected⟩

/-- A process hangs when its parent does not wait. -/
theorem Family.hang (h : Family s) (hin : (s.mproc p).inUse = true)
    (hwait : (s.mproc (s.mproc p).parent).waiting = false) :
    Family ((s.modify p fun m => { m with hanging := true }).note (.hung p)) := by
  set s₁ := (s.modify p fun m => { m with hanging := true }).note (.hung p) with hs1
  have hself : s₁.mproc p = { s.mproc p with hanging := true } := by
    rw [hs1, mproc_note, mproc_modify_self]
  have hother : ∀ q, q ≠ p → s₁.mproc q = s.mproc q := fun q hq => by
    rw [hs1, mproc_note, mproc_modify_of_ne hq]
  have hpart : ∀ q, (s₁.mproc q).inUse = (s.mproc q).inUse ∧
      (s₁.mproc q).parent = (s.mproc q).parent ∧ (s₁.mproc q).waiting = (s.mproc q).waiting := by
    intro q
    by_cases hq : q = p
    · rw [hq, hself]
      exact ⟨rfl, rfl, rfl⟩
    · rw [hother q hq]
      exact ⟨rfl, rfl, rfl⟩
  refine ⟨?_, fun q => ?_⟩
  · constructor
    case lineage =>
      refine h.kin.noted rfl fun g ht => ?_
      refine ⟨⟨update g.phase p .zombie, g.parent, none⟩, ?_, fun q => ?_, fun q => ?_⟩
      · rw [Lineage.step, if_pos]
        rw [ht.phase, Ne, phase_free, hin]
        decide
      · dsimp only
        by_cases hq : q = p
        · rw [hq, update_self, hself, Mproc.phase]
          simp [hin]
        · rw [update_of_ne hq, ht.phase, hother q hq]
      · rw [ht.parent, (hpart q).2.1]
    case counted =>
      have hslots : slotsInUse s₁ = slotsInUse s := List.countP_congr fun q _ => by rw [(hpart q).1]
      rw [hslots]
      exact h.kin.counted
    case zombie =>
      intro q hq
      rw [(hpart q).1]
      by_cases hqp : q = p
      · rw [hqp]
        exact hin
      · rw [hother q hqp] at hq
        exact h.kin.zombie q hq
    case parents =>
      intro q hq
      rw [(hpart q).1] at hq
      rw [(hpart q).2.1, (hpart _).1]
      exact h.kin.parents q hq
    case roots =>
      intro q hq
      rw [(hpart q).1, (hpart q).2.1]
      exact h.kin.roots q hq
    case mm_waiting =>
      rw [(hpart mmProcNr).2.2]
      exact h.kin.mm_waiting
  · intro hh
    rw [(hpart q).2.1, (hpart _).2.2]
    by_cases hq : q = p
    · rw [hq]
      exact hwait
    · rw [hother q hq] at hh
      exact h.collected q hh

theorem leaveSlot_family (h : Family s) (hin : (s.mproc p).inUse = true)
    (hrun : leaveSlot s p = .ok s') : Family s' := by
  unfold leaveSlot at hrun
  split at hrun
  · next hwait =>
    -- MM never waits, so this is not the end of MM, FS or INIT
    have hparent : (s.mproc p).parent ≠ mmProcNr := fun heq => by
      rw [heq, h.kin.mm_waiting] at hwait
      exact absurd hwait (by decide)
    have hclean := cleanup_cleanedUp h.kin (fun q _ => h.collected q) hin hparent hrun
    exact ⟨hclean.kin, hclean.collected⟩
  · next hwait =>
    cases hrun
    exact h.hang hin (Bool.eq_false_iff.mpr hwait)

theorem sysXit_sameKin {r : MmState × ℕ × ℕ} (hrun : sysXit s p = .ok r) : SameKin s r.1 := by
  obtain ⟨r', -, rfl⟩ := map_eq_ok hrun
  exact SameKin.of_mproc rfl rfl rfl

theorem mmExit_family (h : Family s) (hin : (s.mproc p).inUse = true) {status : ℤ}
    (hrun : mmExit s p status = .ok s') : Family s' := by
  unfold mmExit at hrun
  obtain ⟨s₁, hleave, hrun⟩ := bind_eq_ok hrun
  obtain ⟨⟨s₂, base, size⟩, hxit, hrun⟩ := bind_eq_ok hrun
  have hstatus : SameKin s (s.modify p fun m => { m with exitstatus := (status % 256).toNat }) :=
    SameKin.modify s p (fun _ => rfl) fun _ => id
  have hended : Family ((s.modify p fun m => { m with exitstatus := (status % 256).toNat }).note
      (.ended p (s.mproc p).sigstatus (status % 256).toNat)) :=
    (h.of_sameKin hstatus).mention fun _ => rfl
  have h1 : Family s₁ :=
    leaveSlot_family hended (by rw [mproc_note, hstatus.inUse]; exact hin) hleave
  have h2 : Family s₂ := by
    refine Family.of_sameKin ?_ (sysXit_sameKin hxit)
    exact h1.modify p (fun _ => rfl) fun _ => id
  exact h2.of_sameKin (SameKin.of_undisturbed (releaseMem_undisturbed hrun))

end Leaving

/-! ## §2 Signals -/

section Signals

variable {s s' : MmState} {p q : ProcNr}

theorem stopProc_family (h : Family s) (p : ProcNr) (sigNr : ℕ) : Family (stopProc s p sigNr) := by
  have hstop : Family (s.modify p fun m => { m with stopped := true }) :=
    h.modify p (fun _ => rfl) fun _ => id
  unfold stopProc
  simp only
  split
  · exact h
  split
  · refine Family.reply ?_ ..
    exact hstop.modify _ (fun _ => rfl) fun _ hw => absurd hw Bool.false_ne_true
  · exact hstop.modify p (fun _ => rfl) fun _ => id

theorem unpause_family (h : Family s) (p : ProcNr) : Family (unpause s p) := by
  unfold unpause
  simp only
  split
  · refine Family.reply ?_ ..
    exact h.modify p (fun _ => rfl) fun _ => id
  split
  · refine Family.reply ?_ ..
    exact h.modify p (fun _ => rfl) fun _ hw => absurd hw Bool.false_ne_true
  · exact h

theorem killProc_family (h : Family s) (env : Env) (hin : (s.mproc p).inUse = true) {sigNr : ℕ}
    (hrun : killProc s env p sigNr = .ok s') : Family s' := by
  unfold killProc at hrun
  refine mmExit_family ?_ ?_ hrun
  · exact h.modify p (fun _ => rfl) fun _ => id
  · rw [mproc_modify_self]
    exact hin

/-- **Signals and TRACE keep the family.** -/
theorem family_upkeep : Upkeep Family where
  undisturbed hs h := h.of_sameKin (SameKin.of_undisturbed hs)
  alarm _ p _ h := h.modify p (fun _ => rfl) fun _ => id
  stopProc _ p sigNr h := stopProc_family h p sigNr
  unpause _ p h := unpause_family h p
  killProc h hin hrun := killProc_family h _ hin hrun
  mmExit h hin hrun := mmExit_family h hin hrun

end Signals

/-! ## §3 The other calls -/

section Calls

variable {s s' : MmState} {who p : ProcNr}

/-- A new child of a live process, in a slot that was free. -/
theorem Family.birth {child : ProcNr} {m : Mproc} (h : Family s)
    (hfree : (s.mproc child).inUse = false) (hwho : (s.mproc who).phase = .live)
    (hm : m.phase = .live) (hparent : m.parent = who) :
    Family { (s.set child m).note (.born child who) with procsInUse := s.procsInUse + 1 } := by
  set s₁ : MmState := { (s.set child m).note (.born child who) with
    procsInUse := s.procsInUse + 1 } with hs1
  have hself : s₁.mproc child = m := update_self ..
  have hother : ∀ q, q ≠ child → s₁.mproc q = s.mproc q := fun q hq => update_of_ne hq ..
  have hmlive : m.inUse = true ∧ m.hanging = false := by
    revert hm
    unfold Mproc.phase
    cases m.inUse <;> cases m.hanging <;> simp
  have hwlive := phase_live.mp hwho
  have hne : who ≠ child := fun heq => by
    rw [heq, hfree] at hwlive
    exact absurd hwlive.1 (by decide)
  -- nobody else has the free slot as parent
  have hnot : ∀ q, (s.mproc q).inUse = true → (s.mproc q).parent ≠ child := by
    intro q hq heq
    rcases h.kin.parents q hq with hu | hx
    · rw [heq, hfree] at hu
      exact absurd hu (by decide)
    · exact hx
  have hroot : ∀ q, q ≤ initProcNr → q ≠ child := fun q hq heq => by
    have hu := (h.kin.roots q hq).1
    rw [heq, hfree] at hu
    exact absurd hu (by decide)
  refine ⟨?_, fun q => ?_⟩
  · constructor
    case lineage =>
      refine h.kin.noted rfl fun g ht => ?_
      refine ⟨⟨update g.phase child .live, update g.parent child who, none⟩, ?_,
        fun q => ?_, fun q => ?_⟩
      · rw [Lineage.step, if_pos]
        rw [ht.phase, ht.phase, phase_free]
        exact ⟨hfree, hwho⟩
      · dsimp only
        by_cases hq : q = child
        · rw [hq, update_self, hself, hm]
        · rw [update_of_ne hq, hother q hq, ht.phase]
      · dsimp only
        by_cases hq : q = child
        · rw [hq, update_self, hself, hparent]
        · rw [update_of_ne hq, hother q hq, ht.parent]
    case counted =>
      have hslots : slotsInUse s₁ = slotsInUse s + 1 := by
        refine countP_succ (List.nodup_finRange nrProcs) (List.mem_finRange child) ?_ hfree
          fun q hq => ?_
        · rw [hself]
          exact hmlive.1
        · rw [hother q hq]
      rw [hslots, Nat.cast_succ, ← h.kin.counted]
    case zombie =>
      intro q hq
      by_cases hqc : q = child
      · rw [hqc, hself]
        exact hmlive.1
      · rw [hother q hqc] at hq ⊢
        exact h.kin.zombie q hq
    case parents =>
      intro q hq
      by_cases hqc : q = child
      · rw [hqc, hself, hparent, hother who hne]
        exact .inl hwlive.1
      · rw [hother q hqc] at hq ⊢
        rw [hother _ (hnot q hq)]
        exact h.kin.parents q hq
    case roots =>
      intro q hq
      rw [hother q (hroot q hq)]
      exact h.kin.roots q hq
    case mm_waiting =>
      rw [hother mmProcNr (hroot _ (by decide))]
      exact h.kin.mm_waiting
  · intro hh
    by_cases hqc : q = child
    · rw [hqc, hself, hmlive.2] at hh
      exact absurd hh (by decide)
    · rw [hother q hqc] at hh ⊢
      rw [hother _ (hnot q (h.kin.zombie q hh))]
      exact h.collected q hh

theorem sysFork_family (h : Family s) (parent child : ProcNr) (base : ℕ) :
    Family (sysFork s parent child base) := by
  have hnoted : Family (s.note (.named child (s.mproc child).pid)) := h.mention fun _ => rfl
  exact hnoted.of_sameKin (SameKin.of_mproc rfl rfl rfl)

theorem doFork_family {r : MmState × ℤ} (h : Family s) (hwho : (s.mproc who).phase = .live)
    (hrun : doFork s who = .ok r) : Family r.1 := by
  rcases doFork_cases hrun with ⟨t, rfl⟩ | ⟨t, b, child, base, n, -, hfree, -, rfl⟩
  · exact h.of_sameKin (SameKin.of_mproc rfl rfl rfl)
  set s₁ : MmState := { s with holes := t, events := .alloc b :: s.events } with hs1
  have halloc : Family s₁ := h.of_sameKin (SameKin.of_mproc rfl rfl rfl)
  have hborn := halloc.birth (m := childSlot (s.mproc who) who base n) hfree hwho hwho rfl
  have hchild : Family (withChild s₁ who child base n) :=
    hborn.of_sameKin (SameKin.of_mproc rfl rfl rfl)
  exact Family.reply (sysFork_family hchild ..) ..

/-- A process with no zombie among its children may wait. -/
theorem Family.await (h : Family s) (hne : who ≠ mmProcNr)
    (hnone : ∀ p, (s.mproc p).parent = who → (s.mproc p).hanging = false) :
    Family (s.modify who fun m => { m with waiting := true }) := by
  set s₁ := s.modify who fun m => { m with waiting := true } with hs1
  have hpart : ∀ q, (s₁.mproc q).inUse = (s.mproc q).inUse ∧
      (s₁.mproc q).parent = (s.mproc q).parent ∧ (s₁.mproc q).hanging = (s.mproc q).hanging := by
    intro q
    by_cases hq : q = who
    · rw [hq, hs1, mproc_modify_self]
      exact ⟨rfl, rfl, rfl⟩
    · rw [hs1, mproc_modify_of_ne hq]
      exact ⟨rfl, rfl, rfl⟩
  refine ⟨?_, fun q hq => ?_⟩
  · constructor
    case lineage =>
      obtain ⟨g, hg, ht⟩ := h.kin.lineage
      refine ⟨g, hg, fun q => ?_, fun q => ?_⟩
      · rw [ht.phase, Mproc.phase, Mproc.phase, (hpart q).1, (hpart q).2.2]
      · rw [ht.parent, (hpart q).2.1]
    case counted =>
      have hslots : slotsInUse s₁ = slotsInUse s := List.countP_congr fun q _ => by rw [(hpart q).1]
      rw [hslots]
      exact h.kin.counted
    case zombie =>
      intro q hq
      rw [(hpart q).2.2] at hq
      rw [(hpart q).1]
      exact h.kin.zombie q hq
    case parents =>
      intro q hq
      rw [(hpart q).1] at hq
      rw [(hpart q).2.1, (hpart _).1]
      exact h.kin.parents q hq
    case roots =>
      intro q hq
      rw [(hpart q).1, (hpart q).2.1]
      exact h.kin.roots q hq
    case mm_waiting =>
      rw [hs1, mproc_modify_of_ne hne.symm]
      exact h.kin.mm_waiting
  · rw [(hpart q).2.2] at hq
    have hpw : (s.mproc q).parent ≠ who := fun heq => by
      rw [hnone q heq] at hq
      exact absurd hq (by decide)
    rw [(hpart q).2.1, hs1, mproc_modify_of_ne hpw]
    exact h.collected q hq

/-- WAIT reports a zombie or a stopped child, or waits when there is no zombie. -/
theorem waitLoop_family {l : List ProcNr} {children : Bool} {r : MmState × Option ℤ}
    (h : Family s) (hne : who ≠ mmProcNr)
    (hseen : ∀ p, p ∉ l → (s.mproc p).parent = who → (s.mproc p).hanging = false)
    (hrun : waitLoop s who l children = .ok r) : Family r.1 := by
  induction l generalizing children with
  | nil =>
    unfold waitLoop at hrun
    split at hrun
    · cases hrun
      exact h.await hne fun p => hseen p List.not_mem_nil
    · cases hrun
      exact h
  | cons rp rest ih =>
    -- a slot that is passed over holds no zombie of the caller
    have hpass : ((s.mproc rp).parent = who → (s.mproc rp).hanging = false) →
        ∀ p, p ∉ rest → (s.mproc p).parent = who → (s.mproc p).hanging = false := by
      intro hrp p hp
      by_cases heq : p = rp
      · rw [heq]
        exact hrp
      · exact hseen p fun hmem => (List.mem_cons.mp hmem).elim heq hp
    unfold waitLoop at hrun
    simp only at hrun
    split at hrun
    · next hchild =>
      rw [Bool.and_eq_true, beq_iff_eq] at hchild
      split at hrun
      · obtain ⟨s₁, hclean, rfl⟩ := map_eq_ok hrun
        have hdone := cleanup_cleanedUp h.kin (fun q _ => h.collected q) hchild.1
          (by rw [hchild.2]; exact hne) hclean
        exact ⟨hdone.kin, hdone.collected⟩
      · next hhang =>
        split at hrun
        · cases hrun
          dsimp only
          exact (h.reply ..).modify rp (fun _ => rfl) fun _ => id
        · exact ih (hpass fun _ => Bool.eq_false_iff.mpr hhang) hrun
    · next hchild =>
      refine ih (hpass fun hp => ?_) hrun
      by_contra hhang
      rw [Bool.not_eq_false] at hhang
      exact hchild (by rw [h.kin.zombie rp hhang, hp]; simp)

end Calls

/-! ## §4 Runs -/

section Runs

variable {s s' : MmState} {who : ProcNr}

theorem live_of_alive (h : alive s who = true) :
    (s.mproc who).phase = .live ∧ who ≠ mmProcNr := by
  obtain ⟨hle, hin, hhang⟩ := alive_iff.mp h
  exact ⟨phase_live.mpr ⟨hin, hhang⟩, fun heq => absurd hle (by rw [heq]; decide)⟩

/-- **One turn of the main loop keeps the family**, whatever is asked. -/
theorem handle_family (h : Family s) {env : Env} {r : Request} (hask : mayAsk s who r = true)
    (hrun : handle s env who r = .ok s') : Family s' := by
  cases r with
  | exit status => exact mmExit_family h (alive_iff.mp hask).2.1 hrun
  | fork =>
    obtain ⟨r, hfork, rfl⟩ := map_eq_ok hrun
    exact (doFork_family h (live_of_alive hask).1 hfork).reply ..
  | wait =>
    obtain ⟨⟨s₁, e⟩, hwait, rfl⟩ := map_eq_ok hrun
    have h1 := waitLoop_family h (live_of_alive hask).2
      (fun p hp => absurd (List.mem_finRange p) hp) hwait
    cases e with
    | none => exact h1
    | some e => exact h1.reply ..
  | pause =>
    cases hrun
    exact h.modify who (fun _ => rfl) fun _ => id
  | ksig sigMap => exact family_upkeep.doKsig h hrun
  | exec | brk | kill | trace | signal | alarm | setuid =>
    obtain ⟨s₁, h1, rfl | rfl | ⟨e, k, rfl⟩⟩ := family_upkeep.answered h hrun trivial
    · exact h1
    · exact h1.mention fun _ => rfl
    · exact h1.reply ..

theorem bootMproc_parent (org text data : ℕ) (p : ProcNr) :
    (bootMproc org text data p).parent = mmProcNr ∧
      (bootMproc org text data p).waiting = false := by
  unfold bootMproc
  split
  · exact ⟨rfl, rfl⟩
  split
  · exact ⟨rfl, rfl⟩
  · exact ⟨rfl, rfl⟩

theorem bootState_family (org text data : ℕ) (t : HoleTable) :
    Family (bootState org text data t) := by
  have hflags := bootMproc_flags org text data
  have hroot := bootMproc_parent org text data
  refine ⟨?_, fun p hp => ?_⟩
  · constructor
    case lineage =>
      refine ⟨Lineage.boot, rfl, fun p => ?_, fun p => (hroot p).1.symm⟩
      show _ = (bootMproc org text data p).phase
      rw [Mproc.phase, (hflags p).1, (hflags p).2]
      simp [Lineage.boot]
    case counted =>
      have hslots : slotsInUse (bootState org text data t) =
          (List.finRange nrProcs).countP fun p => decide (p ≤ initProcNr) :=
        List.countP_congr fun p _ => by rw [← (hflags p).1]; rfl
      rw [hslots]
      show (3 : ℤ) = _
      decide
    case zombie =>
      intro p hp
      exact absurd ((hflags p).2.symm.trans hp) (by decide)
    case parents =>
      intro p _
      refine .inl ?_
      show (bootMproc org text data (bootMproc org text data p).parent).inUse = true
      rw [(hroot p).1, (hflags _).1]
      decide
    case roots =>
      intro p hp
      exact ⟨(hflags p).1.trans (by simpa using hp), (hroot p).1⟩
    case mm_waiting => exact (hroot mmProcNr).2
  · exact absurd ((hflags p).2.symm.trans hp) (by decide)

variable {size org text data tot : ℕ}

theorem mmBoot_family (hboot : mmBoot size org text data tot = .ok s) : Family s := by
  obtain ⟨holes, rfl⟩ := mmBoot_state hboot
  exact bootState_family org text data holes

theorem getWork_family (h : Family s) (who : ProcNr) (r : Request) : Family (getWork s who r) := by
  cases r with
  | ksig => exact h
  | _ => exact h.mention fun _ => rfl

theorem Reached.family {safe : MmState → ProcNr → Request → Prop}
    (h : Reached size org text data tot safe s) : Family s := by
  induction h with
  | boot hboot => exact mmBoot_family hboot
  | step _ hask _ hrun ih => exact handle_family (getWork_family ih _ _) (getWork_mayAsk hask) hrun

/-- What holds of exit and wait in a state: how the table stands, and what has happened.  The
history has the latest event first. -/
structure ExitWait (s : MmState) : Prop where
  /-- `procs_in_use` is the number of slots in use -/
  counted : s.procsInUse = slotsInUse s
  /-- the parent of a process is in use -/
  parents : ∀ p, (s.mproc p).inUse = true → (s.mproc (s.mproc p).parent).inUse = true
  /-- no process hangs while its parent waits -/
  collected : ∀ p, (s.mproc p).hanging = true → (s.mproc (s.mproc p).parent).waiting = false
  /-- the history is one that the machine allows, and it leads to the table: in particular the
  parent is the process that forked, or INIT after the slot of that one was released -/
  lineage : ∃ g, Lineage.boot.after s.history = some g ∧ g.Tracks s
  /-- a slot is released once for every process in it -/
  once : ∀ p r r' l₁ l₂ l₃, s.history = l₁ ++ .released p r' :: (l₂ ++ .released p r :: l₃) →
    ∃ q, .born p q ∈ l₂
  /-- a process whose slot is no longer in use has been released -/
  released : ∀ p q l₁ l₂, s.history = l₁ ++ .born p q :: l₂ → (s.mproc p).inUse = false →
    ∃ r, .released p r ∈ l₁
  /-- the report goes to the parent at that time, if it is alive, as the answer to its WAIT -/
  reported : ∀ p r l₁ l₂, s.history = l₁ ++ .released p r :: l₂ →
    ∃ g, Lineage.boot.after l₂ = some g ∧ r.procNr = g.parent p ∧
      (g.phase (g.parent p) = .live →
        ∃ l, l₂ = .replied r :: l ∧ (Polite l → pending r.procNr l = some .wait))
  /-- the report tells the pid that FORK has given the process, and how the process has ended -/
  told : ∀ p r l₁ l₂, s.history = l₁ ++ .released p r :: l₂ →
    r.result = pidOf p l₂ ∧
      ∃ sig exit, endOf p l₂ = some (sig, exit) ∧ r.res2 = sig % 256 + exit * 256
  /-- every message answers one call, and no call is answered twice -/
  answered : ∀ r l₁ l₂, s.history = l₁ ++ .replied r :: l₂ → Polite l₂ →
    pending r.procNr l₂ ≠ none
  /-- what WAIT is told is the report on the child whose slot is released then, or that no child
  has ended -/
  waits : Settled s.history
  /-- after the end of a process there is no message for its slot, until the next is born -/
  silent : ∀ r e l₁ l₂ l₃, Lineage.Ended r.procNr e →
    s.history = l₁ ++ .replied r :: (l₂ ++ e :: l₃) → ∃ q, .born r.procNr q ∈ l₂

theorem Family.exitWait (h : Family s) (hbooks : Books none ∅ s) : ExitWait s := by
  obtain ⟨g, hg, ht⟩ := h.kin.lineage
  constructor
  case counted => exact h.kin.counted
  case parents =>
    intro p hp
    exact (h.kin.parents p hp).resolve_right id
  case collected => exact h.collected
  case lineage => exact h.kin.lineage
  case once =>
    intro p r r' l₁ l₂ l₃ hh
    rw [hh] at hg
    exact Lineage.born_between_releases hg
  case released =>
    intro p q l₁ l₂ hh hfree
    rw [hh] at hg
    obtain ⟨g₁, h1, hlate⟩ := Lineage.after_append hg
    obtain ⟨g₂, -, hborn⟩ := Lineage.after_cons h1
    refine Lineage.after_free hlate ?_ (by rw [ht.phase, phase_free, hfree])
    rw [Lineage.step_phase hborn p]
    simp [Lineage.makes]
  case reported =>
    intro p r l₁ l₂ hh
    rw [hh] at hg
    obtain ⟨g₁, h1, -⟩ := Lineage.after_append hg
    obtain ⟨g₂, h2, hrel⟩ := Lineage.after_cons h1
    simp only [Lineage.step, Option.ite_none_right_eq_some] at hrel
    have hdue := hbooks.audited
    rw [hh] at hdue
    refine ⟨g₂, h2, hrel.1.2.1, fun hlive => ?_⟩
    obtain ⟨l, hl⟩ := Lineage.replied_of_said h2 rfl (hrel.1.2.2 hlive)
    refine ⟨l, hl, fun hpol => hdue.accounted.2.2 ?_ l hl⟩
    rw [hl]
    exact hpol
  case told =>
    intro p r l₁ l₂ hh
    have hdue := hbooks.audited
    rw [hh] at hdue
    exact ⟨hdue.accounted.1, hdue.accounted.2.1⟩
  case answered =>
    intro r l₁ l₂ hh
    have hdue := hbooks.audited
    rw [hh] at hdue
    exact hdue.accounted
  case waits => exact hbooks.settled
  case silent =>
    intro r e l₁ l₂ l₃ hend hh
    rw [hh] at hg
    exact Lineage.born_before_reply hend hg

/-- **Exit and wait in every state that MM reaches**, whatever is asked of it. -/
theorem reached_exitWait {size org text data tot : ℕ}
    (h : Reached size org text data tot (fun _ _ _ => True) s) : ExitWait s :=
  h.family.exitWait h.books

end Runs

/-- INIT forks a child, which forks a grandchild and exits.  INIT waits for the child, and then
for the grandchild, which kills itself. -/
def orphanHistory : List ProcEvent :=
  [.released 4 ⟨2, 4, 9⟩, .replied ⟨2, 4, 9⟩, .ended 4 9 0, .asked 4 .other,
    .asked 2 .wait,
    .adopted 4, .released 3 ⟨2, 3, 1 * 256⟩, .replied ⟨2, 3, 1 * 256⟩, .asked 2 .wait,
    .hung 3, .ended 3 0 1, .asked 3 .other,
    .replied ⟨3, 4, 0⟩, .replied ⟨4, 0, 0⟩, .named 4 4, .born 4 3, .asked 3 .other,
    .replied ⟨2, 3, 0⟩, .replied ⟨3, 0, 0⟩, .named 3 3, .born 3 2, .asked 2 .other]

theorem reached_exitWait_orphan : ∃ s, Reached 4096 100 20 30 200 (fun _ _ _ => True) s ∧
    s.history = orphanHistory ∧ Polite s.history ∧ ExitWait s := by
  obtain ⟨s, hr, hhist⟩ := exists_reached 4096 100 20 30 200 (fun _ _ _ => True) quietEnv
    [(2, .fork), (3, .fork), (3, .exit 1), (2, .wait), (2, .wait), (4, .kill 4 9)]
    (fun s => s.history) orphanHistory (by decide +kernel) (by simp)
  refine ⟨s, hr, hhist, ?_, reached_exitWait hr⟩
  rw [show s.history = orphanHistory from hhist]
  decide

end LisaMinix.Mm
