import LisaMinix.Library.Counting
import LisaMinix.Kernel.SigView
import LisaMinix.Mm.Calls

/-!
# Counting Signals

The invariant of the signal machine `SigView` together with the loop of `do_ksig`
(`src/mm/signal.c`): what `p_pendcount` counts is what MM has not been told of and what the loop
has not come to.  Each operation of the machine keeps it, as long as SIGSTKFLT is alone in a bit
map, if it is there at all.
-/

namespace LisaMinix.Kernel

open LisaMinix.Library Function
open LisaMinix.Mm (nrProcs sigsOf)

/-! ## §1 Bit maps -/

/-- `SIGSTKFLT`. -/
def sigstkflt : ℕ := 16

/-- The signals of a bit map, from 1 to 16. -/
def signalsOf (sigMap : ℕ) : List ℕ := ((List.range 16).filter sigMap.testBit).map (· + 1)

/-- The signals that `do_ksig` acts on: a stack fault that is alone, and those of its loop. -/
def actedOn (sigMap : ℕ) : List ℕ :=
  (if sigMap = 2 ^ 15 then [sigstkflt] else []) ++ sigsOf sigMap

theorem length_signalsOf (m : ℕ) : (signalsOf m).length = (List.range 16).countP m.testBit := by
  rw [signalsOf, List.length_map, List.countP_eq_length_filter]

@[simp] theorem signalsOf_zero : signalsOf 0 = [] := by decide

theorem signalsOf_ne_nil {m : ℕ} (hm : m < 2 ^ 16) (h : m ≠ 0) : (signalsOf m).length ≠ 0 := by
  rw [length_signalsOf]
  intro hnone
  apply h
  apply Nat.eq_of_testBit_eq
  intro i
  rw [Nat.zero_testBit]
  by_cases hi : i < 16
  · have hall := List.countP_eq_zero.mp hnone i (List.mem_range.mpr hi)
    simpa using hall
  · exact Nat.testBit_lt_two_pow (hm.trans_le (Nat.pow_le_pow_right (by decide) (by omega)))

/-- A signal that was not in the bit map is added. -/
theorem length_signalsOf_or {m i : ℕ} (hi : i < 16) (hbit : m.testBit i = false) :
    (signalsOf (m ||| 2 ^ i)).length = (signalsOf m).length + 1 := by
  rw [length_signalsOf, length_signalsOf]
  refine countP_succ List.nodup_range (List.mem_range.mpr hi) ?_ hbit fun q hq => ?_
  · simp [Nat.testBit_or]
  · rw [Nat.testBit_or, Nat.testBit_two_pow]
    simp [Ne.symm hq]

theorem length_signalsOf_le (m : ℕ) : (signalsOf m).length ≤ 16 := by
  rw [length_signalsOf]
  exact List.countP_le_length.trans (by decide)

/-- Without SIGSTKFLT the loop of `do_ksig` comes to every signal. -/
theorem sigsOf_eq {m : ℕ} (h : m.testBit 15 = false) : sigsOf m = signalsOf m := by
  have hloop : List.range' 1 (Mm.nsig - 1) = (List.range 15).map (· + 1) := by decide
  have hall : List.range 16 = List.range 15 ++ [15] := by decide
  unfold sigsOf signalsOf
  rw [hloop, hall, List.filter_map, List.filter_append, List.filter_cons_of_neg (by simp [h]),
    List.filter_nil, List.append_nil]
  rfl

theorem length_sigsOf_le (m : ℕ) : (sigsOf m).length ≤ 15 := by
  refine (List.length_filter_le _ _).trans ?_
  decide

theorem sigsOf_stkflt : sigsOf (2 ^ 15) = [] := by decide

/-- `do_ksig` acts on every signal of a bit map in which SIGSTKFLT is alone, if at all. -/
theorem actedOn_eq {m : ℕ} (h : m.testBit 15 = true → m = 2 ^ 15) : actedOn m = signalsOf m := by
  unfold actedOn
  by_cases hbit : m.testBit 15 = true
  · rw [h hbit]
    decide
  · have hne : m ≠ 2 ^ 15 := by
      rintro rfl
      exact hbit (by decide)
    rw [if_neg hne, List.nil_append, sigsOf_eq (by simpa using hbit)]

/-! ## §2 The invariant of the signal machine -/

/-- What is true of the signals, with the loop of `do_ksig` at `todo` for the process `target`. -/
structure SigOk (v : SigView) (target : ProcPtr) (todo : List ℕ) (caused finished : ProcPtr → ℕ) :
    Prop where
  free : ∀ p, v.free p = true ∨ ¬ isuserp p → v.pPending p = 0 ∧ v.pPendcount p = 0
  counted : ∀ p, v.free p = false → v.pPendcount p + finished p = caused p
  outstanding : ∀ p, v.free p = false → v.pPendcount p =
    (signalsOf (v.pPending p)).length + if target = p then todo.length else 0
  sigPending : ∀ p, v.sigPending p = true ↔ 0 < v.pPendcount p
  pending : ∀ p, v.pending p = true ↔ v.pPending p ≠ 0
  low : ∀ p, v.pPending p < 2 ^ 16
  alone : ∀ p, (v.pPending p).testBit 15 = true → v.pPending p = 2 ^ 15
  sigProcs : v.sigProcs = ((List.finRange (nrTasks + nrProcs)).countP v.pending : ℕ)
  short : todo.length ≤ 15
  user : todo ≠ [] → isuserp target

namespace SigOk

variable {v : SigView} {target p : ProcPtr} {todo : List ℕ} {caused finished : ProcPtr → ℕ} {i : ℕ}

theorem live_of_pending (h : SigOk v target todo caused finished) (hp : v.pending p = true) :
    v.free p = false ∧ isuserp p := by
  constructor
  · by_contra hfree
    exact (h.pending p).mp hp (h.free p (.inl (by simpa using hfree))).1
  · by_contra huser
    exact (h.pending p).mp hp (h.free p (.inr huser)).1

theorem pendcount_le (h : SigOk v target todo caused finished) (p : ProcPtr) :
    v.pPendcount p ≤ 31 := by
  cases hfree : v.free p with
  | true =>
    rw [(h.free p (.inl hfree)).2]
    omega
  | false =>
    have hlen := length_signalsOf_le (v.pPending p)
    have htodo := h.short
    rw [h.outstanding p hfree]
    split <;> omega

/-- The number of processes with `PENDING` set, when one of them changes. -/
theorem countP_update_false {f : ProcPtr → Bool} (hp : f p = true) :
    (List.finRange (nrTasks + nrProcs)).countP f =
      (List.finRange (nrTasks + nrProcs)).countP (update f p false) + 1 := by
  refine countP_succ (List.nodup_finRange _) (List.mem_finRange p) hp (by simp) fun q hq => ?_
  rw [update_of_ne hq]

theorem countP_update_true {f : ProcPtr → Bool} (hp : f p = false) :
    (List.finRange (nrTasks + nrProcs)).countP (update f p true) =
      (List.finRange (nrTasks + nrProcs)).countP f + 1 := by
  refine countP_succ (List.nodup_finRange _) (List.mem_finRange p) (by simp) hp fun q hq => ?_
  rw [update_of_ne hq]

/-- What a new signal does to the bit map and the count of a process. -/
theorem note_facts (h : SigOk v target todo caused finished) (hi : i < 16)
    (hbit : (v.pPending p).testBit i = false)
    (hapart : v.pPending p = 0 ∨ (i = 15 ↔ (v.pPending p).testBit 15 = true)) :
    v.pPending p ||| 2 ^ i < 2 ^ 16 ∧
      ((v.pPending p ||| 2 ^ i).testBit 15 = true → v.pPending p ||| 2 ^ i = 2 ^ 15) ∧
      v.pPending p ||| 2 ^ i ≠ 0 ∧ (v.pPendcount p + 1) % 65536 = v.pPendcount p + 1 := by
  have hcount := h.pendcount_le p
  refine ⟨?_, fun h15 => ?_, fun hzero => ?_, by omega⟩
  · exact Nat.or_lt_two_pow (h.low p) (Nat.pow_lt_pow_right (by decide) hi)
  · rcases hapart with hzero | hiff
    · rw [hzero, Nat.zero_or, Nat.testBit_two_pow] at h15
      have hi15 : i = 15 := by simpa using h15
      rw [hzero, hi15, Nat.zero_or]
    · rw [Nat.testBit_or, Nat.testBit_two_pow] at h15
      by_cases hi15 : i = 15
      · have := hiff.mp hi15
        rw [hi15] at hbit
        rw [hbit] at this
        cases this
      · have hnot : ¬ (v.pPending p).testBit 15 = true := fun hb => hi15 (hiff.mpr hb)
        simp [hi15] at h15
        exact absurd h15 hnot
  · have hset : (v.pPending p ||| 2 ^ i).testBit i = true := by simp [Nat.testBit_or]
    rw [hzero, Nat.zero_testBit] at hset
    cases hset

/-- A signal is noted, and the process is marked as having signals to be told of. -/
theorem note {w : SigView} (h : SigOk v target todo caused finished) (hi : i < 16)
    (hlive : v.free p = false) (huser : isuserp p) (hbit : (v.pPending p).testBit i = false)
    (hapart : v.pPending p = 0 ∨ (i = 15 ↔ (v.pPending p).testBit 15 = true))
    (hw : (v.pending p = true ∧ w = v.note p (i + 1)) ∨
      (v.pending p = false ∧ w = (v.note p (i + 1)).signal p)) :
    SigOk w target todo (update caused p (caused p + 1)) finished := by
  obtain ⟨hlow, halone, hne, hmod⟩ := h.note_facts hi hbit hapart
  -- in both cases `PENDING` and `SIG_PENDING` are set in the end
  have hfree : w.free = v.free := by rcases hw with ⟨-, rfl⟩ | ⟨-, rfl⟩ <;> rfl
  have hpp : w.pPending = update v.pPending p (v.pPending p ||| 2 ^ i) := by
    rcases hw with ⟨-, rfl⟩ | ⟨-, rfl⟩ <;> rfl
  have hpc : w.pPendcount = update v.pPendcount p (v.pPendcount p + 1) := by
    rcases hw with ⟨-, rfl⟩ | ⟨-, rfl⟩ <;> simp [SigView.note, SigView.signal, hmod]
  have hpending : w.pending = update v.pending p true := by
    rcases hw with ⟨hp, rfl⟩ | ⟨-, rfl⟩
    · exact (update_eq_self_iff.mpr hp.symm).symm
    · rfl
  have hsig : w.sigPending = update v.sigPending p true := by
    rcases hw with ⟨hp, rfl⟩ | ⟨-, rfl⟩
    · have hset : v.sigPending p = true := by
        rw [h.sigPending, h.outstanding p hlive]
        have := signalsOf_ne_nil (h.low p) ((h.pending p).mp hp)
        omega
      exact (update_eq_self_iff.mpr hset.symm).symm
    · rfl
  refine ⟨fun q hq => ?_, fun q hq => ?_, fun q hq => ?_, fun q => ?_, fun q => ?_, fun q => ?_,
    fun q => ?_, ?_, h.short, h.user⟩
  · rw [hfree] at hq
    have hqp : q ≠ p := by
      rintro rfl
      simp [hlive, huser] at hq
    rw [hpp, hpc, update_of_ne hqp, update_of_ne hqp]
    exact h.free q hq
  · rw [hfree] at hq
    by_cases hqp : q = p
    · subst hqp
      have := h.counted q hq
      simp only [hpc, update_self]
      omega
    · simp only [hpc, update_of_ne hqp]
      exact h.counted q hq
  · rw [hfree] at hq
    by_cases hqp : q = p
    · subst hqp
      simp only [hpc, hpp, update_self, length_signalsOf_or hi hbit]
      rw [h.outstanding q hq]
      omega
    · simp only [hpc, hpp, update_of_ne hqp]
      exact h.outstanding q hq
  · rw [hsig, hpc]
    by_cases hqp : q = p
    · simp [hqp]
    · simp only [update_of_ne hqp]
      exact h.sigPending q
  · rw [hpending, hpp]
    by_cases hqp : q = p
    · simp only [hqp, update_self, true_iff]
      exact hne
    · simp only [update_of_ne hqp]
      exact h.pending q
  · rw [hpp]
    by_cases hqp : q = p
    · simp only [hqp, update_self]
      exact hlow
    · simp only [update_of_ne hqp]
      exact h.low q
  · rw [hpp]
    by_cases hqp : q = p
    · simp only [hqp, update_self]
      exact halone
    · simp only [update_of_ne hqp]
      exact h.alone q
  · rcases hw with ⟨hp, rfl⟩ | ⟨hp, rfl⟩
    · exact h.sigProcs
    · show v.sigProcs + 1 = _
      rw [hpending, countP_update_true hp, h.sigProcs]
      push_cast
      rfl

/-- `MM` is told of the signals of `p`, none of which is SIGSTKFLT. -/
theorem tell (h : SigOk v target [] caused finished) (hp : v.pending p = true)
    (h15 : (v.pPending p).testBit 15 = false) :
    SigOk (v.tell p) p (sigsOf (v.pPending p)) caused finished := by
  obtain ⟨hlive, huser⟩ := h.live_of_pending hp
  refine ⟨fun q hq => ?_, h.counted, fun q hq => ?_, h.sigPending, fun q => ?_, fun q => ?_,
    fun q => ?_, ?_, length_sigsOf_le _, fun _ => huser⟩
  · have hqp : q ≠ p := by
      rintro rfl
      simp [SigView.tell, hlive, huser] at hq
    simpa [SigView.tell, hqp] using h.free q hq
  · have hout := h.outstanding q hq
    simp only [List.length_nil, ite_self, add_zero] at hout
    by_cases hqp : q = p
    · subst hqp
      simpa [SigView.tell, sigsOf_eq h15] using hout
    · simpa [SigView.tell, hqp, Ne.symm hqp] using hout
  · by_cases hqp : q = p
    · simp [SigView.tell, hqp]
    · simpa [SigView.tell, hqp] using h.pending q
  · by_cases hqp : q = p
    · simp [SigView.tell, hqp]
    · simpa [SigView.tell, hqp] using h.low q
  · by_cases hqp : q = p
    · simp [SigView.tell, hqp]
    · simpa [SigView.tell, hqp] using h.alone q
  · have := countP_update_false hp
    show v.sigProcs - 1 = _
    rw [h.sigProcs, this]
    simp [SigView.tell]

/-- `MM` is told of a stack fault of `p`, which is finished with that. -/
theorem tell_stkflt (h : SigOk v target [] caused finished) (hp : v.pending p = true)
    (h15 : v.pPending p = 2 ^ 15) :
    SigOk ((v.tell p).finish p) p [] caused
      (update finished p (finished p + 1)) := by
  obtain ⟨hlive, huser⟩ := h.live_of_pending hp
  have hone : v.pPendcount p = 1 := by
    have hout := h.outstanding p hlive
    rw [h15] at hout
    simp only [List.length_nil, ite_self, add_zero] at hout
    rw [hout]
    decide
  have hfin : (v.tell p).finish p =
      { v.tell p with
        sigPending := update v.sigPending p false
        pPendcount := update v.pPendcount p 0 } := by
    unfold SigView.finish
    rw [if_neg (by simp [SigView.tell, hone]), if_pos (by simp [SigView.tell, hone])]
    rfl
  rw [hfin]
  refine ⟨fun q hq => ?_, fun q hq => ?_, fun q hq => ?_, fun q => ?_, fun q => ?_, fun q => ?_,
    fun q => ?_, ?_, by simp, by simp⟩
  · have hqp : q ≠ p := by
      rintro rfl
      simp [SigView.tell, hlive, huser] at hq
    simpa [SigView.tell, hqp] using h.free q hq
  · have hcount := h.counted q hq
    by_cases hqp : q = p
    · subst hqp
      simp only [update_self]
      omega
    · simpa [hqp] using hcount
  · have hout := h.outstanding q hq
    simp only [List.length_nil, ite_self, add_zero] at hout ⊢
    by_cases hqp : q = p
    · simp [SigView.tell, hqp]
    · simpa [SigView.tell, hqp] using hout
  · by_cases hqp : q = p
    · simp [hqp]
    · simpa [hqp] using h.sigPending q
  · by_cases hqp : q = p
    · simp [SigView.tell, hqp]
    · simpa [SigView.tell, hqp] using h.pending q
  · by_cases hqp : q = p
    · simp [SigView.tell, hqp]
    · simpa [SigView.tell, hqp] using h.low q
  · by_cases hqp : q = p
    · simp [SigView.tell, hqp]
    · simpa [SigView.tell, hqp] using h.alone q
  · have := countP_update_false hp
    show v.sigProcs - 1 = _
    rw [h.sigProcs, this]
    simp [SigView.tell]

/-- The loop of `do_ksig` finishes a signal of a live process. -/
theorem finish {j : ℕ} {rest : List ℕ} (h : SigOk v p (j :: rest) caused finished)
    (hlive : v.free p = false) :
    SigOk (v.finish p) p rest caused (update finished p (finished p + 1)) := by
  have hout := h.outstanding p hlive
  have hcount := h.counted p hlive
  have htodo := h.short
  rw [if_pos rfl, List.length_cons] at hout
  rw [List.length_cons] at htodo
  have hpc : (v.finish p).pPendcount = update v.pPendcount p (v.pPendcount p - 1) := by
    unfold SigView.finish
    rw [if_neg (by omega)]
    split
    · rename_i hone
      simp [hone]
    · rfl
  have hsig : ∀ q, (v.finish p).sigPending q = true ↔ 0 < (v.finish p).pPendcount q := by
    intro q
    rw [hpc]
    by_cases hqp : q = p
    · subst hqp
      unfold SigView.finish
      rw [if_neg (by omega), update_self]
      split
      · rename_i hone
        simp [hone]
      · rename_i hone
        have hset := (h.sigPending q).mpr (by omega)
        simp only [hset, true_iff]
        omega
    · have hsame : (v.finish p).sigPending q = v.sigPending q := by
        unfold SigView.finish
        split
        · rfl
        · split
          · simp [hqp]
          · rfl
      rw [hsame, update_of_ne hqp]
      exact h.sigPending q
  have hkeep : (v.finish p).free = v.free ∧ (v.finish p).pending = v.pending ∧
      (v.finish p).pPending = v.pPending ∧ (v.finish p).sigProcs = v.sigProcs := by
    unfold SigView.finish
    split
    · exact ⟨rfl, rfl, rfl, rfl⟩
    · split <;> exact ⟨rfl, rfl, rfl, rfl⟩
  obtain ⟨hfree, hpend, hpp, hprocs⟩ := hkeep
  have huser := h.user (by simp)
  refine ⟨fun q hq => ?_, fun q hq => ?_, fun q hq => ?_, hsig, fun q => ?_, fun q => ?_,
    fun q => ?_, ?_, by omega, fun _ => huser⟩
  · rw [hfree] at hq
    have hqp : q ≠ p := by
      rintro rfl
      simp [hlive, huser] at hq
    rw [hpp, hpc, update_of_ne hqp]
    exact h.free q hq
  · rw [hfree] at hq
    rw [hpc]
    by_cases hqp : q = p
    · subst hqp
      simp only [update_self]
      omega
    · simp only [update_of_ne hqp]
      exact h.counted q hq
  · rw [hfree] at hq
    rw [hpc, hpp]
    by_cases hqp : q = p
    · subst hqp
      simp only [update_self, if_true]
      omega
    · have := h.outstanding q hq
      simp only [update_of_ne hqp]
      rw [if_neg (Ne.symm hqp)] at this ⊢
      exact this
  · rw [hpend, hpp]
    exact h.pending q
  · rw [hpp]
    exact h.low q
  · rw [hpp]
    exact h.alone q
  · rw [hprocs, hpend]
    exact h.sigProcs

/-- The loop of `do_ksig` goes on for a process that has exited: the kernel counts nothing. -/
theorem skip {j : ℕ} {rest : List ℕ} (h : SigOk v p (j :: rest) caused finished)
    (hfree : v.free p = true) : v.finish p = v ∧ SigOk v p rest caused finished := by
  refine ⟨if_pos (h.free p (.inl hfree)).2, h.free, h.counted, fun q hq => ?_, h.sigPending,
    h.pending, h.low, h.alone, h.sigProcs, ?_, fun _ => h.user (by simp)⟩
  · have hqp : p ≠ q := by
      rintro rfl
      simp [hfree] at hq
    have := h.outstanding q hq
    rw [if_neg hqp] at this ⊢
    exact this
  · have := h.short
    rw [List.length_cons] at this
    omega

/-- A slot is freed, or a child is put into a free slot when `do_ksig` is not at work. -/
theorem renew {b : Bool} {n : ℤ} (h : SigOk v target todo caused finished)
    (hb : b = true ∨ todo = []) (hn : n = if v.pending p then v.sigProcs - 1 else v.sigProcs) :
    SigOk { v.renew p b with sigProcs := n } target todo (update caused p 0)
      (update finished p 0) := by
  refine ⟨fun q hq => ?_, fun q hq => ?_, fun q hq => ?_, fun q => ?_, fun q => ?_, fun q => ?_,
    fun q => ?_, ?_, h.short, h.user⟩
  · by_cases hqp : q = p
    · simp [SigView.renew, hqp]
    · simp only [SigView.renew, update_of_ne hqp] at hq ⊢
      exact h.free q hq
  · by_cases hqp : q = p
    · simp [SigView.renew, hqp]
    · simp only [SigView.renew, update_of_ne hqp] at hq ⊢
      exact h.counted q hq
  · by_cases hqp : q = p
    · subst hqp
      simp only [SigView.renew, update_self] at hq ⊢
      rcases hb with rfl | rfl
      · cases hq
      · simp
    · simp only [SigView.renew, update_of_ne hqp] at hq ⊢
      exact h.outstanding q hq
  · by_cases hqp : q = p
    · simp [SigView.renew, hqp]
    · simpa [SigView.renew, hqp] using h.sigPending q
  · by_cases hqp : q = p
    · simp [SigView.renew, hqp]
    · simpa [SigView.renew, hqp] using h.pending q
  · by_cases hqp : q = p
    · simp [SigView.renew, hqp]
    · simpa [SigView.renew, hqp] using h.low q
  · by_cases hqp : q = p
    · simp [SigView.renew, hqp]
    · simpa [SigView.renew, hqp] using h.alone q
  · show n = ((List.finRange (nrTasks + nrProcs)).countP (update v.pending p false) : ℕ)
    rw [hn]
    cases hp : v.pending p with
    | true =>
      rw [if_pos rfl, h.sigProcs, countP_update_false hp]
      push_cast
      omega
    | false =>
      rw [if_neg (by simp), h.sigProcs, update_eq_self_iff.mpr hp.symm]

end SigOk

end LisaMinix.Kernel
