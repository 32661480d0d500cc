import LisaMinix.Mm.OwnedCalls

/-!
# Fork

`do_fork` gives the child a block of its own, a slot and a pid.

The search for a pid ends: a pid is refused only if some slot has it as pid or process
group, the pids tried one after the other are different, and there are more of them than
entries in the table.
-/

namespace LisaMinix.Mm

open LisaMinix.Library Function

/-! ## §1 The search for a pid -/

section Pids

variable {s : MmState} {child : ProcNr}

theorem succPid_le (n : ℤ) : succPid n ≤ 30000 := by
  unfold succPid initPid
  split
  · omega
  · omega

variable {n : ℤ}

theorem succPid_ge (h : initPid ≤ n) : initPid < succPid n := by
  unfold succPid initPid at *
  split
  · omega
  · omega

theorem succPid_ne : succPid n ≠ n := by
  unfold succPid initPid
  split
  · omega
  · omega

/-- The pids are tried in a circle, from wherever the search starts. -/
theorem succPid_iterate (h : n ≤ 30000) {k : ℕ} (hk : k < 65) :
    succPid^[k] n = if n + k ≤ 30000 then n + k else n + k - 29999 := by
  induction k with
  | zero =>
    rw [Function.iterate_zero, id_eq, Nat.cast_zero, add_zero, if_pos h]
  | succ k ih =>
    have hprev := ih (Nat.lt_of_succ_lt hk)
    rw [Function.iterate_succ_apply', hprev]
    unfold succPid initPid
    push_cast
    split_ifs
    all_goals omega

theorem succPid_iterate_ge (h : initPid ≤ n) (k : ℕ) : initPid ≤ succPid^[k] n := by
  induction k with
  | zero => exact h
  | succ k ih =>
    rw [Function.iterate_succ_apply']
    exact le_of_lt (succPid_ge ih)

/-- The pids and process groups that the child cannot get; its own pid is the last one
tried, or its parent's. -/
def takenPids (s : MmState) (child : ProcNr) : Finset ℤ :=
  insert (s.mproc child).pid
    (((Finset.univ.erase child).image fun p => (s.mproc p).pid) ∪
      Finset.univ.image fun p => (s.mproc p).procgrp)

theorem takenPids_card (s : MmState) (child : ProcNr) : (takenPids s child).card ≤ 64 := by
  have hpids : ((Finset.univ.erase child).image fun p => (s.mproc p).pid).card ≤ 31 := by
    refine Finset.card_image_le.trans ?_
    simp [Finset.card_erase_of_mem (Finset.mem_univ child)]
  have hgroups : (Finset.univ.image fun p => (s.mproc p).procgrp).card ≤ 32 := by
    refine Finset.card_image_le.trans ?_
    rw [Finset.card_univ, Fintype.card_fin]
  have hunion := Finset.card_union_le ((Finset.univ.erase child).image fun p => (s.mproc p).pid)
    (Finset.univ.image fun p => (s.mproc p).procgrp)
  have hinsert := Finset.card_insert_le (s.mproc child).pid
    (((Finset.univ.erase child).image fun p => (s.mproc p).pid) ∪
      Finset.univ.image fun p => (s.mproc p).procgrp)
  unfold takenPids
  omega

theorem mem_takenPids (child : ProcNr) (h : pidTaken s n = true) : n ∈ takenPids s child := by
  simp only [pidTaken, List.any_eq_true, List.mem_finRange, true_and, Bool.or_eq_true,
    beq_iff_eq] at h
  obtain ⟨p, hpid | hgrp⟩ := h
  · by_cases hp : p = child
    · simp [takenPids, ← hpid, hp]
    · refine Finset.mem_insert_of_mem (Finset.mem_union_left _ ?_)
      exact Finset.mem_image.mpr ⟨p, by simp [hp], hpid⟩
  · refine Finset.mem_insert_of_mem (Finset.mem_union_right _ ?_)
    exact Finset.mem_image.mpr ⟨p, Finset.mem_univ p, hgrp⟩

/-- One of the next 65 pids is not taken. -/
theorem exists_fresh_pid (s : MmState) (child : ProcNr) :
    ∃ k < 65, succPid^[k + 1] s.nextPid ∉ takenPids s child := by
  set tried := (Finset.range 65).image fun k => succPid^[k + 1] s.nextPid with htried
  have hinj : Set.InjOn (fun k => succPid^[k + 1] s.nextPid) (Finset.range 65) := by
    intro i hi j hj heq
    simp only [Finset.coe_range, Set.mem_Iio] at hi hj
    have hle := succPid_le s.nextPid
    simp only [Function.iterate_succ_apply, succPid_iterate hle hi, succPid_iterate hle hj] at heq
    split_ifs at heq
    all_goals omega
  have hcard : tried.card = 65 := by
    rw [htried, Finset.card_image_of_injOn hinj, Finset.card_range]
  have hlt : (takenPids s child).card < tried.card := by
    have := takenPids_card s child
    omega
  obtain ⟨n, hn, hfree⟩ := Finset.exists_mem_notMem_of_card_lt_card hlt
  obtain ⟨k, hk, rfl⟩ := Finset.mem_image.mp hn
  exact ⟨k, Finset.mem_range.mp hk, hfree⟩

/-- The state in which the child has the pid `n`. -/
def withPid (s : MmState) (child : ProcNr) (n : ℤ) : MmState :=
  { s.modify child fun m => { m with pid := n } with nextPid := n }

theorem withPid_withPid (s : MmState) (child : ProcNr) (n n' : ℤ) :
    withPid (withPid s child n) child n' = withPid s child n' := by
  simp [withPid, MmState.modify, MmState.set]

/-- A pid that is refused in the next round is taken by somebody else: the pid tried last,
which the child has, is not tried again. -/
theorem pidTaken_withPid (h : pidTaken (withPid s child n) (succPid n) = true) :
    succPid n ∈ takenPids s child := by
  have hmem := mem_takenPids child h
  have hself : (withPid s child n).mproc child = { s.mproc child with pid := n } :=
    mproc_modify_self s child fun m => { m with pid := n }
  have hother : ∀ q, q ≠ child → (withPid s child n).mproc q = s.mproc q := fun q hq =>
    mproc_modify_of_ne (s := s) hq fun m => { m with pid := n }
  simp only [takenPids, Finset.mem_insert, Finset.mem_union, Finset.mem_image, Finset.mem_erase,
    Finset.mem_univ, and_true, true_and] at hmem ⊢
  rcases hmem with hpid | ⟨q, hq, hpid⟩ | ⟨q, hgrp⟩
  · rw [hself] at hpid
    exact absurd hpid succPid_ne
  · rw [hother q hq] at hpid
    exact .inr (.inl ⟨q, hq, hpid⟩)
  · refine .inr (.inr ⟨q, ?_⟩)
    by_cases hq : q = child
    · rw [hq, hself] at hgrp
      rw [hq]
      exact hgrp
    · rw [hother q hq] at hgrp
      exact hgrp

/-- No other slot, in use or not, has the pid `n`, and no slot has it as process group. -/
structure FreshPid (s : MmState) (child : ProcNr) (n : ℤ) : Prop where
  pids : ∀ q, q ≠ child → (s.mproc q).pid ≠ n
  groups : ∀ q, (s.mproc q).procgrp ≠ n

theorem freshPid_of_not_taken (h : ¬ pidTaken s n = true) : FreshPid s child n := by
  have hnone : ∀ q, (s.mproc q).pid ≠ n ∧ (s.mproc q).procgrp ≠ n := by
    simpa [pidTaken, not_or] using h
  exact ⟨fun q _ => (hnone q).1, fun q => (hnone q).2⟩

/-- The pid that the child has itself does not matter. -/
theorem FreshPid.of_withPid {m n : ℤ} (h : FreshPid (withPid s child m) child n) :
    FreshPid s child n := by
  have hother : ∀ q, q ≠ child → (withPid s child m).mproc q = s.mproc q := fun q hq =>
    mproc_modify_of_ne (s := s) hq fun x => { x with pid := m }
  have hself : (withPid s child m).mproc child = { s.mproc child with pid := m } :=
    mproc_modify_self s child fun x => { x with pid := m }
  constructor
  · intro q hq
    rw [← hother q hq]
    exact h.pids q hq
  · intro q
    by_cases hq : q = child
    · have hgroup := h.groups child
      rw [hself] at hgroup
      rw [hq]
      exact hgroup
    · rw [← hother q hq]
      exact h.groups q

/-- The rounds that are left end, if one of the pids to be tried is free. -/
theorem findPid_withPid {k fuel : ℕ} (hk : k < fuel)
    (hfree : succPid^[k + 1] n ∉ takenPids s child) :
    ∃ i ≤ k, findPid fuel (withPid s child n) child = .ok (withPid s child (succPid^[i + 1] n)) ∧
      FreshPid s child (succPid^[i + 1] n) := by
  induction k generalizing n fuel with
  | zero =>
    obtain ⟨fuel, rfl⟩ : ∃ f, fuel = f + 1 := ⟨fuel - 1, by omega⟩
    have hno : ¬ pidTaken (withPid s child n) (succPid n) = true := fun h => hfree (pidTaken_withPid h)
    refine ⟨0, le_rfl, ?_, (freshPid_of_not_taken hno).of_withPid⟩
    show (if pidTaken (withPid s child n) (succPid n) = true then _ else _) = _
    rw [if_neg hno]
    exact congrArg _ (withPid_withPid s child n (succPid n))
  | succ k ih =>
    obtain ⟨fuel, rfl⟩ : ∃ f, fuel = f + 1 := ⟨fuel - 1, by omega⟩
    by_cases htaken : pidTaken (withPid s child n) (succPid n) = true
    · have hstep : findPid (fuel + 1) (withPid s child n) child =
          findPid fuel (withPid s child (succPid n)) child := by
        show (if pidTaken (withPid s child n) (succPid n) = true then _ else _) = _
        rw [if_pos htaken]
        exact congrArg (findPid fuel · child) (withPid_withPid s child n (succPid n))
      obtain ⟨i, hi, hrun, hfresh⟩ := @ih (succPid n) fuel (by omega) hfree
      exact ⟨i + 1, by omega, hstep.trans hrun, hfresh⟩
    · refine ⟨0, Nat.zero_le _, ?_, (freshPid_of_not_taken htaken).of_withPid⟩
      show (if pidTaken (withPid s child n) (succPid n) = true then _ else _) = _
      rw [if_neg htaken]
      exact congrArg _ (withPid_withPid s child n (succPid n))

/-- **The search for a pid ends**, whatever the table and wherever it starts. -/
theorem findPid_finds (s : MmState) (child : ProcNr) :
    ∃ k < 65, findPid 30000 s child = .ok (withPid s child (succPid^[k + 1] s.nextPid)) ∧
      FreshPid s child (succPid^[k + 1] s.nextPid) := by
  obtain ⟨k, hk, hfree⟩ := exists_fresh_pid s child
  have hfirst : findPid 30000 s child =
      if pidTaken s (succPid s.nextPid) = true then
        findPid 29999 (withPid s child (succPid s.nextPid)) child
      else .ok (withPid s child (succPid s.nextPid)) := rfl
  rw [hfirst]
  split
  · next htaken =>
    -- the first pid is taken, so the free one comes later
    cases k with
    | zero => exact absurd (mem_takenPids child htaken) hfree
    | succ k =>
      have hk' : k < 29999 := by omega
      obtain ⟨i, hi, hrun, hfresh⟩ := @findPid_withPid s child (succPid s.nextPid) k 29999 hk' hfree
      exact ⟨i + 1, by omega, hrun, hfresh⟩
  · next hno => exact ⟨0, by decide, rfl, freshPid_of_not_taken hno⟩

/-- **The search of `do_fork`**: the pid is INIT's only if `next_pid` was below. -/
theorem findPid_range (s : MmState) (child : ProcNr) :
    ∃ n, findPid 30000 s child = .ok (withPid s child n) ∧ FreshPid s child n ∧ n ≤ 30000 ∧
      (initPid ≤ s.nextPid → initPid < n) := by
  obtain ⟨k, -, hrun, hfresh⟩ := findPid_finds s child
  refine ⟨_, hrun, hfresh, ?_, fun hnext => ?_⟩
  · rw [Function.iterate_succ_apply']
    exact succPid_le _
  · rw [Function.iterate_succ_apply']
    exact succPid_ge (succPid_iterate_ge hnext k)

end Pids

/-! ## §2 The child -/

section Child

variable {L : Layout} {s s' : MmState} {who child : ProcNr}

/-- `s'` is `s` with a new process in the slot `child`, whose image is a block `b` that was
just allocated. -/
structure Born (s s' : MmState) (child : ProcNr) (seg : MemMaps) (b : Block) : Prop where
  others : ∀ q, q ≠ child → memPart (s'.mproc q) = memPart (s.mproc q)
  self : (s'.mproc child).inUse = true ∧ (s'.mproc child).hanging = false ∧
    0 < (s'.mproc child).pid ∧ (s'.mproc child).seg = seg
  procsInUse : s'.procsInUse = s.procsInUse + 1
  pids : 2 ≤ s'.nextPid ∧ s'.nextPid ≤ 30000
  pMap : s'.pMap = update s.pMap child seg
  slotFree : s'.slotFree = update s.slotFree child false
  events : s'.events = .alloc b :: s.events

/-- A process in a slot that was not in use, with a block of its own. -/
theorem Owned.born (h : Owned L s) {seg : MemMaps} {b : Block} (hfree : (s.mproc child).inUse = false)
    (hb : Born s s' child seg b) (hshape : Shape seg) (himage : image seg = b) {areas : List Area}
    (htiled : Tiled L.size s'.holes areas (b.area :: (L.system ++ (images s).map Block.area))) :
    Owned L s' := by
  have hchild : initProcNr ≤ child := by
    by_contra hlt
    rw [(h.servers child (not_le.mp hlt)).1] at hfree
    exact absurd hfree (by decide)
  have hdead : alive s child = false := by simp [alive, hfree]
  have hborn : alive s' child = true := alive_iff.mpr ⟨hchild, hb.self.1, hb.self.2.1⟩
  have hpart : ∀ q, q ≠ child → (s'.mproc q).seg = (s.mproc q).seg ∧
      (s'.mproc q).inUse = (s.mproc q).inUse ∧ (s'.mproc q).hanging = (s.mproc q).hanging ∧
      (s'.mproc q).pid = (s.mproc q).pid := by
    intro q hq
    simpa [memPart] using hb.others q hq
  have halive : ∀ q, q ≠ child → alive s' q = alive s q := by
    intro q hq
    rw [alive, alive, (hpart q hq).2.1, (hpart q hq).2.2.1]
  have himages : (b :: images s).Perm (images s') := by
    have hperm : (users s').Perm (child :: users s) := 
      filter_perm_cons (List.nodup_finRange nrProcs) (List.mem_finRange _) hborn hdead halive
    have hmap := hperm.map fun q => image (s'.mproc q).seg
    have hsame : (users s).map (fun q => image (s'.mproc q).seg) = images s := by
      refine List.map_congr_left fun q hq => ?_
      have hne : q ≠ child := fun heq => by
        rw [mem_users, heq, hdead] at hq
        exact absurd hq (by decide)
      rw [(hpart q hne).1]
    rw [List.map_cons, hsame, hb.self.2.2.2, himage] at hmap
    exact hmap.symm
  refine ⟨fun q hq => ?_, fun q hq => ?_, ?_, hb.pids, fun q hq => ?_, fun q hq => ?_, fun q hq => ?_,
    fun q hq => ?_, ?_, ?_⟩
  · have hne : q ≠ child := fun heq => absurd hq (by rw [heq]; exact not_lt.mpr hchild)
    rw [(hpart q hne).2.1, (hpart q hne).2.2.1]
    exact h.servers q hq
  · by_cases hqc : q = child
    · rw [hqc]
      exact hb.self.1
    · rw [(hpart q hqc).2.2.1] at hq
      rw [(hpart q hqc).2.1]
      exact h.zombie q hq
  · have hslots : slotsInUse s' = slotsInUse s + 1 :=
      countP_succ (List.nodup_finRange nrProcs) (List.mem_finRange child) hb.self.1 hfree
        fun q hq => (hpart q hq).2.1
    have hcount := h.count
    rw [hb.procsInUse, hslots, hcount]
    push_cast
    rfl
  · by_cases hqc : q = child
    · rw [hqc]
      exact hb.self.2.2.1
    · rw [halive q hqc] at hq
      rw [(hpart q hqc).2.2.2]
      exact h.pid_pos q hq
  · rw [hb.pMap]
    by_cases hqc : q = child
    · rw [hqc, update_self, hb.self.2.2.2]
    · rw [halive q hqc] at hq
      rw [update_of_ne hqc, (hpart q hqc).1]
      exact h.agree q hq
  · by_cases hqc : q = child
    · rw [hqc, hb.self.2.2.2]
      exact hshape
    · rw [halive q hqc] at hq
      rw [(hpart q hqc).1]
      exact h.shape q hq
  · rw [hb.slotFree]
    by_cases hqc : q = child
    · rw [hqc, update_self, hborn]
      rfl
    · rw [update_of_ne hqc, halive q hqc]
      exact h.slot q hq
  · refine ⟨areas, htiled.perm ?_⟩
    exact List.perm_middle.symm.trans ((himages.map Block.area).append_left L.system)
  · obtain ⟨bs, hbs, hperm⟩ := h.ledger
    refine ⟨b :: bs, ?_, (hperm.cons b).trans himages⟩
    rw [hb.events, replay, hbs]
    rfl

/-- While not every slot is in use, there is a free one. -/
theorem freeSlot_some (h : Owned L s) (hfull : s.procsInUse ≠ nrProcs) :
    ∃ child, freeSlot s = some child ∧ (s.mproc child).inUse = false := by
  cases hfind : freeSlot s with
  | some child =>
    have hno := List.find?_some hfind
    exact ⟨child, rfl, by simpa using hno⟩
  | none =>
    -- otherwise the count of slots in use would be `NR_PROCS`
    have hall : ∀ p, (s.mproc p).inUse = true := by
      intro p
      have := List.find?_eq_none.mp hfind p (List.mem_finRange p)
      simpa using this
    refine absurd ?_ hfull
    rw [h.count, slotsInUse, List.countP_eq_length.mpr fun p _ => hall p, List.length_finRange]

/-- The slot of a child of `who` whose image is at `base` and whose pid is `n`. -/
def childSlot (rmp : Mproc) (who : ProcNr) (base : ℕ) (n : ℤ) : Mproc :=
  { rmp with
    parent := who, traced := false, exitstatus := 0, sigstatus := 0, seg := childSeg rmp.seg base
    pid := n, procgrp := if who = initProcNr then n else rmp.procgrp }

/-- The table with the child in it; the kernel knows nothing of it yet. -/
def withChild (s : MmState) (who child : ProcNr) (base : ℕ) (n : ℤ) : MmState :=
  { (s.set child (childSlot (s.mproc who) who base n)).note (.born child who) with
    procsInUse := s.procsInUse + 1, nextPid := n }

@[simp] theorem withChild_self (s : MmState) (who child : ProcNr) (base : ℕ) (n : ℤ) :
    (withChild s who child base n).mproc child = childSlot (s.mproc who) who base n := update_self ..

theorem withChild_of_ne (s : MmState) (who : ProcNr) (base : ℕ) (n : ℤ) {q : ProcNr} (hq : q ≠ child) :
    (withChild s who child base n).mproc q = s.mproc q := update_of_ne hq ..

/-- The pid `n` is nobody else's. -/
structure PidFound (s : MmState) (child : ProcNr) (n : ℤ) : Prop where
  le : n ≤ 30000
  ge : initPid ≤ s.nextPid → initPid < n
  others : ∀ q, q ≠ child → (s.mproc q).pid ≠ n ∧ (s.mproc q).procgrp ≠ n

/-- **`copySlot`** sets the slot up for a copy of `who`, and tells the kernel. -/
theorem copySlot_eq (s : MmState) (who child : ProcNr) (base : ℕ) : ∃ n, PidFound s child n ∧
    copySlot s who child base =
      .ok (reply (sysFork (withChild s who child base n) who child base) child 0 0) := by
  set s₁ : MmState := { (s.set child { s.mproc who with
      parent := who, traced := false, exitstatus := 0, sigstatus := 0
      seg := childSeg (s.mproc who).seg base }).note (.born child who) with
    procsInUse := s.procsInUse + 1 } with hs1
  obtain ⟨n, hrun, hfresh, hle, hge⟩ := findPid_range s₁ child
  have hother : ∀ q, q ≠ child → s₁.mproc q = s.mproc q := fun q hq => update_of_ne hq ..
  refine ⟨n, ⟨hle, hge, fun q hq => ?_⟩, ?_⟩
  · rw [← hother q hq]
    exact ⟨hfresh.pids q hq, hfresh.groups q⟩
  -- the process group of a child of INIT is its own
  have hslot : (if who = initProcNr then
      (withPid s₁ child n).modify child fun m => { m with procgrp := m.pid } else withPid s₁ child n) =
        withChild s who child base n := by
    unfold withChild childSlot
    split <;> simp [withPid, hs1, MmState.modify, MmState.set, MmState.note]
  rw [← hslot]
  show (findPid 30000 s₁ child).map _ = _
  rw [hrun]
  rfl

/-- **`do_fork`** has no room for the child, or sets up the first free slot for it. -/
theorem doFork_cases {r : MmState × ℤ} (hrun : doFork s who = .ok r) :
    (∃ t, r = ({ s with holes := t }, eagain)) ∨ ∃ t b child base n, freeSlot s = some child ∧
      (s.mproc child).inUse = false ∧ PidFound s child n ∧
      r = (reply (sysFork (withChild { s with holes := t, events := .alloc b :: s.events }
        who child base n) who child base) child 0 0, n) := by
  unfold doFork at hrun
  simp only at hrun
  split at hrun
  · cases hrun
    exact .inl ⟨s.holes, rfl⟩
  split at hrun
  · cases hrun
    exact .inl ⟨s.holes, rfl⟩
  obtain ⟨⟨t, base⟩, -, hrun⟩ := bind_eq_ok hrun
  simp only at hrun
  split at hrun
  · cases hrun
    exact .inl ⟨t, rfl⟩
  split at hrun
  · cases hrun
  next child hslot =>
  set b : Block := ⟨base, progClicks (s.mproc who).seg⟩
  obtain ⟨n, hn, hcopy⟩ := copySlot_eq { s with holes := t, events := .alloc b :: s.events } who child base
  rw [hcopy] at hrun
  have hfree : (s.mproc child).inUse = false := by simpa using List.find?_some hslot
  refine .inr ⟨t, b, child, base, n, hslot, hfree, ⟨hn.le, hn.ge, hn.others⟩, ?_⟩
  rw [← Except.ok.inj hrun]
  exact congrArg (Prod.mk _) (SameMem.reply ..).nextPid

/-- **`copySlot`**: the slot is set up for a copy of `who` whose image is at `base`. -/
theorem copySlot_born (h : Owned L s) (hp : alive s who = true) (child : ProcNr) {t : HoleTable}
    {base : ℕ} (hfit : base + (image (s.mproc who).seg).clicks < 65536) :
    ∃ s', copySlot { s with
        holes := t
        events := .alloc ⟨base, (image (s.mproc who).seg).clicks⟩ :: s.events } who child base
          = .ok s' ∧
      Born s s' child (childSeg (s.mproc who).seg base)
        ⟨base, (image (s.mproc who).seg).clicks⟩ ∧ s'.holes = t := by
  obtain ⟨hwho, huse, hhang⟩ := alive_iff.mp hp
  set b : Block := ⟨base, (image (s.mproc who).seg).clicks⟩ with hb
  set s₁ : MmState := { s with holes := t, events := .alloc b :: s.events } with hs1
  obtain ⟨n, hn, hcopy⟩ := copySlot_eq s₁ who child base
  have hpid : initPid < n := hn.ge (le_trans (by decide) h.pids.1)
  -- the answer to the child changes nothing that matters for memory
  have hreply := SameMem.reply (sysFork (withChild s₁ who child base n) who child base) child 0 0
  refine ⟨_, hcopy, ?_, hreply.holes⟩
  constructor
  case others =>
    intro q hq
    rw [hreply.part]
    exact congrArg memPart (withChild_of_ne s₁ who base n hq)
  case self =>
    have hself : (sysFork (withChild s₁ who child base n) who child base).mproc child =
        childSlot (s.mproc who) who base n := withChild_self ..
    rw [hreply.inUse, hreply.hanging, hreply.pid, hreply.seg, hself]
    exact ⟨huse, hhang, lt_trans (by decide) hpid, rfl⟩
  case procsInUse => exact hreply.procsInUse
  case pids =>
    rw [hreply.nextPid]
    exact ⟨hpid, hn.le⟩
  case pMap =>
    rw [hreply.pMap]
    funext q
    by_cases hq : q = child
    · have hmap : (withChild s₁ who child base n).pMap who = (s.mproc who).seg := h.agree who hp
      rw [hq, update_self, sysFork_pMap (by rw [hmap]; exact h.shape who hp) (by rw [hmap]; exact hfit),
        hmap]
    · rw [update_of_ne hq]
      exact update_of_ne hq ..
  case slotFree =>
    rw [hreply.slotFree]
    have hwhofree : s.slotFree who = false := (h.slot who hwho).trans (by rw [hp]; rfl)
    rw [← hwhofree]
    rfl
  case events => exact hreply.events

/-- **`do_fork`** either has no room for the child, or the child is born, in a block that was
not in use. -/
theorem doFork_spec (h : Owned L s) (hp : alive s who = true) :
    doFork s who = .ok (s, eagain) ∨ ∃ child base s' areas,
      freeSlot s = some child ∧ (s.mproc child).inUse = false ∧
      doFork s who = .ok (s', s'.nextPid) ∧
      Born s s' child (childSeg (s.mproc who).seg base)
        ⟨base, (image (s.mproc who).seg).clicks⟩ ∧
      base + (image (s.mproc who).seg).clicks < 65536 ∧
      Tiled L.size s'.holes areas (⟨base, evenClicks (image (s.mproc who).seg).clicks⟩ ::
        (L.system ++ (images s).map Block.area)) := by
  have hshape := h.shape who hp
  unfold doFork
  simp only
  split
  · exact .inl rfl
  next hfull =>
  split
  · exact .inl rfl
  rw [progClicks_eq hshape]
  obtain ⟨areas, htiled⟩ := h.tiled
  rcases htiled.alloc L.size_lt (h.le_block hp).2 with ⟨hrun, -⟩ | ⟨t, base, areas', hrun, hres, htiled'⟩
  · -- there is no hole for the image
    rw [hrun, ok_bind]
    exact .inl rfl
  · have hbase : base ≠ noMem := by
      obtain ⟨pre, x, post, hpre, -, hb, -⟩ := takeFirst_eq_some hres
      rw [hb]
      exact L.base_ne_zero htiled x (by simp [hpre])
    have hfit : base + (image (s.mproc who).seg).clicks < 65536 := by
      have hwithin := htiled'.partition.within _ (List.mem_append_right _ (List.mem_cons_self ..))
      have hle := (h.le_block hp).1
      have := L.size_lt
      simp only [Area.stop] at hwithin
      omega
    obtain ⟨child, hslot, hfree⟩ := freeSlot_some h hfull
    obtain ⟨s', hcopy, hborn, hholes⟩ := copySlot_born (t := t) h hp child hfit
    have hslot' : freeSlot { s with
        holes := t
        events := .alloc ⟨base, (image (s.mproc who).seg).clicks⟩ :: s.events } = some child := hslot
    refine .inr ⟨child, base, s', areas', hslot, hfree, ?_, hborn, hfit, hholes ▸ htiled'⟩
    rw [hrun, ok_bind]
    simp only
    rw [if_neg hbase, hslot']
    simp only
    rw [hcopy]
    rfl

/-- `do_fork` keeps the memory owned, and it always returns. -/
theorem doFork_owned (h : Owned L s) (hp : alive s who = true) :
    ∃ s' r, doFork s who = .ok (s', r) ∧ Owned L s' := by
  rcases doFork_spec h hp with hrun | ⟨child, base, s', areas, -, hfree, hrun, hborn, hfit, htiled⟩
  · exact ⟨s, eagain, hrun, h⟩
  · obtain ⟨hshape, himage⟩ := childSeg_shape (h.shape who hp) hfit
    exact ⟨s', s'.nextPid, hrun, h.born hfree hborn hshape himage htiled⟩

end Child

end LisaMinix.Mm
