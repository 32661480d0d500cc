import LisaMinix.Mm.OwnedRuns

/-!
# The Life of a Process

What EXIT and WAIT are for, as a machine on its own: a slot is free, holds a live process or
holds a zombie, and every slot has a parent.  The machine says which events may come next:
only a free slot is taken, only a slot in use is released, the report of a release goes to the
parent if that is alive, INIT inherits the children of released slots only, and only live
processes get messages.

The module shows what follows for every history the machine allows, and that releasing slots
and hanging (`cleanup`, `mm_exit`) are steps of it.
-/

namespace LisaMinix.Mm

open LisaMinix.Library Function

/-! ## §1 The machine -/

/-- What a slot of `mproc[]` holds. -/
inductive Phase
  | free
  | live
  | zombie
  deriving DecidableEq

/-- How far a process is from being gone. -/
def Phase.left : Phase → ℕ
  | .live => 2
  | .zombie => 1
  | .free => 0

structure Lineage where
  phase : ProcNr → Phase
  parent : ProcNr → ProcNr
  /-- the message sent by the last event, if it was one -/
  said : Option Reply

namespace Lineage

/-- The next state, or none if the event may not happen now. -/
def step (g : Lineage) : ProcEvent → Option Lineage
  | .born p q =>
    if g.phase p = .free ∧ g.phase q = .live then
      some ⟨update g.phase p .live, update g.parent p q, none⟩
    else none
  | .hung p =>
    if g.phase p ≠ .free then some ⟨update g.phase p .zombie, g.parent, none⟩ else none
  | .released p r =>
    if g.phase p ≠ .free ∧ r.procNr = g.parent p ∧
        (g.phase (g.parent p) = .live → g.said = some r) then
      some ⟨update g.phase p .free, g.parent, none⟩
    else none
  | .adopted p =>
    if g.phase (g.parent p) = .free then
      some ⟨g.phase, update g.parent p initProcNr, none⟩
    else none
  | .replied r => if g.phase r.procNr = .live then some { g with said := some r } else none
  -- calls, pids, images and the ways in which processes end do not concern the family
  | .asked .. | .named .. | .started .. | .ended .. => some { g with said := none }

/-- The state after a history, the latest event first. -/
def after (first : Lineage) : List ProcEvent → Option Lineage
  | [] => some first
  | e :: earlier => (after first earlier).bind fun g => g.step e

/-- MM, FS and INIT. -/
def boot : Lineage where
  phase p := if p ≤ initProcNr then .live else .free
  parent _ := mmProcNr
  said := none

variable {g g' first : Lineage} {e : ProcEvent} {p q : ProcNr} {r : Reply} {l : List ProcEvent}

theorem after_cons (h : first.after (e :: l) = some g') :
    ∃ g, first.after l = some g ∧ g.step e = some g' :=
  Option.bind_eq_some_iff.mp h

theorem after_append {l l' : List ProcEvent} (h : first.after (l ++ l') = some g') :
    ∃ g, first.after l' = some g ∧ g.after l = some g' := by
  induction l generalizing g' with
  | nil => exact ⟨g', h, rfl⟩
  | cons e l ih =>
    obtain ⟨g₁, h1, hstep⟩ := after_cons h
    obtain ⟨g, hg, hl⟩ := ih h1
    exact ⟨g, hg, by rw [after, hl]; exact hstep⟩

/-- What an event makes of slot `p`, if anything. -/
def makes (p : ProcNr) : ProcEvent → Option Phase
  | .born c _ => if c = p then some .live else none
  | .hung c => if c = p then some .zombie else none
  | .released c _ => if c = p then some .free else none
  | _ => none

theorem step_phase (h : g.step e = some g') (p : ProcNr) :
    g'.phase p = (makes p e).getD (g.phase p) := by
  have hupdate : ∀ (c : ProcNr) (f : Phase), update g.phase c f p =
      (if c = p then some f else none).getD (g.phase p) := by
    intro c f
    by_cases hc : c = p
    · simp [hc]
    · simp [hc, update_of_ne (Ne.symm hc)]
  cases e <;> simp only [step, Option.ite_none_right_eq_some, Option.some.injEq] at h
  case born c q => obtain ⟨-, rfl⟩ := h; exact hupdate c .live
  case hung c => obtain ⟨-, rfl⟩ := h; exact hupdate c .zombie
  case released c r => obtain ⟨-, rfl⟩ := h; exact hupdate c .free
  case adopted c => obtain ⟨-, rfl⟩ := h; rfl
  case replied r => obtain ⟨-, rfl⟩ := h; rfl
  all_goals subst h; rfl

/-- Only a birth gives a slot new life. -/
theorem step_left (h : g.step e = some g') (hp : ∀ q, e ≠ .born p q) :
    (g'.phase p).left ≤ (g.phase p).left := by
  rw [step_phase h p]
  cases e with
  | born c q =>
    have hne : c ≠ p := fun heq => hp q (by rw [heq])
    simp [makes, hne]
  | hung c =>
    simp only [step, Option.ite_none_right_eq_some] at h
    by_cases hc : c = p
    · subst hc
      obtain ⟨hfree, -⟩ := h
      revert hfree
      cases g.phase c <;> simp [makes, Phase.left]
    · simp [makes, hc]
  | released c r =>
    by_cases hc : c = p
    · simp [makes, hc, Phase.left]
    · simp [makes, hc]
  | adopted => exact le_rfl
  | replied => exact le_rfl
  | asked => exact le_rfl
  | named => exact le_rfl
  | started => exact le_rfl
  | ended => exact le_rfl

theorem after_left (h : g.after l = some g') (hp : ∀ q, .born p q ∉ l) :
    (g'.phase p).left ≤ (g.phase p).left := by
  induction l generalizing g' with
  | nil =>
    cases h
    exact le_rfl
  | cons e l ih =>
    obtain ⟨g₁, h1, hstep⟩ := after_cons h
    have hlast := step_left hstep fun q heq => hp q (by rw [heq]; exact List.mem_cons_self)
    exact hlast.trans (ih h1 fun q hq => hp q (List.mem_cons_of_mem _ hq))

theorem phase_of_released (h : g.step (.released p r) = some g') : g.phase p ≠ .free := by
  simp only [step, Option.ite_none_right_eq_some] at h
  exact h.1.1

theorem phase_of_replied (h : g.step (.replied r) = some g') : g.phase r.procNr = .live := by
  simp only [step, Option.ite_none_right_eq_some] at h
  exact h.1

/-- What has been said last is the last event. -/
theorem replied_of_said (h : first.after l = some g) (hfirst : first.said = none)
    (hsaid : g.said = some r) : ∃ l', l = .replied r :: l' := by
  cases l with
  | nil =>
    cases h
    rw [hfirst] at hsaid
    cases hsaid
  | cons e l =>
    obtain ⟨g₁, -, hstep⟩ := after_cons h
    cases e <;> simp only [step, Option.ite_none_right_eq_some, Option.some.injEq] at hstep
    case replied r' =>
      obtain ⟨-, rfl⟩ := hstep
      cases hsaid
      exact ⟨l, rfl⟩
    case born => obtain ⟨-, rfl⟩ := hstep; cases hsaid
    case hung => obtain ⟨-, rfl⟩ := hstep; cases hsaid
    case released => obtain ⟨-, rfl⟩ := hstep; cases hsaid
    case adopted => obtain ⟨-, rfl⟩ := hstep; cases hsaid
    all_goals subst hstep; cases hsaid

/-- Between two releases of a slot it has been taken for a new process. -/
theorem born_between_releases {l₁ l₂ l₃ : List ProcEvent} {r' : Reply}
    (h : first.after (l₁ ++ .released p r' :: (l₂ ++ .released p r :: l₃)) = some g) :
    ∃ q, .born p q ∈ l₂ := by
  obtain ⟨g₁, h1, -⟩ := after_append h
  obtain ⟨g₂, h2, hlate⟩ := after_cons h1
  obtain ⟨g₃, h3, hmid⟩ := after_append h2
  obtain ⟨g₄, -, hearly⟩ := after_cons h3
  by_contra hno
  have hle := after_left hmid fun q hq => hno ⟨q, hq⟩
  rw [step_phase hearly p] at hle
  have hne := phase_of_released hlate
  revert hle hne
  cases g₂.phase p <;> simp [makes, Phase.left]

/-- The process in slot `p` has ended: it hangs, or its slot is released. -/
def Ended (p : ProcNr) : ProcEvent → Prop
  | .hung q => q = p
  | .released q _ => q = p
  | _ => False

/-- A message that goes to a slot after its process has ended is for a new process. -/
theorem born_before_reply {l₁ l₂ l₃ : List ProcEvent} (hend : Ended r.procNr e)
    (h : first.after (l₁ ++ .replied r :: (l₂ ++ e :: l₃)) = some g) :
    ∃ q, .born r.procNr q ∈ l₂ := by
  obtain ⟨g₁, h1, -⟩ := after_append h
  obtain ⟨g₂, h2, hlate⟩ := after_cons h1
  obtain ⟨g₃, h3, hmid⟩ := after_append h2
  obtain ⟨g₄, -, hearly⟩ := after_cons h3
  have hthen : (g₃.phase r.procNr).left ≤ 1 := by
    rw [step_phase hearly]
    cases e with
    | hung c => simp [makes, show c = r.procNr from hend, Phase.left]
    | released c r' => simp [makes, show c = r.procNr from hend, Phase.left]
    | _ => exact hend.elim
  by_contra hno
  have hle := after_left hmid fun q hq => hno ⟨q, hq⟩
  rw [phase_of_replied hlate] at hle
  exact absurd (hle.trans hthen) (by decide)

/-- Only a release makes a slot free. -/
theorem after_free (h : g.after l = some g') (hlive : g.phase p ≠ .free)
    (hfree : g'.phase p = .free) : ∃ r, .released p r ∈ l := by
  induction l generalizing g' with
  | nil =>
    cases h
    exact absurd hfree hlive
  | cons e l ih =>
    obtain ⟨g₁, h1, hstep⟩ := after_cons h
    by_cases hthen : g₁.phase p = .free
    · obtain ⟨r, hr⟩ := ih h1 hthen
      exact ⟨r, List.mem_cons_of_mem _ hr⟩
    · rw [step_phase hstep p] at hfree
      cases e with
      | released c r =>
        by_cases hc : c = p
        · exact ⟨r, by rw [hc]; exact List.mem_cons_self⟩
        · exact absurd (by simpa [makes, hc] using hfree) hthen
      | born c q =>
        by_cases hc : c = p
        · simp [makes, hc] at hfree
        · exact absurd (by simpa [makes, hc] using hfree) hthen
      | hung c =>
        by_cases hc : c = p
        · simp [makes, hc] at hfree
        · exact absurd (by simpa [makes, hc] using hfree) hthen
      | _ => exact absurd hfree hthen

end Lineage

/-! ## §2 The table as a state of the machine -/

def Mproc.phase (m : Mproc) : Phase :=
  if m.inUse then if m.hanging then .zombie else .live else .free

/-- The machine has seen what the table says. -/
structure Lineage.Tracks (g : Lineage) (s : MmState) : Prop where
  phase : ∀ p, g.phase p = (s.mproc p).phase
  parent : ∀ p, g.parent p = (s.mproc p).parent

/-- A zombie is not kept from a parent that waits. -/
def Collected (s : MmState) (p : ProcNr) : Prop :=
  (s.mproc p).hanging = true → (s.mproc (s.mproc p).parent).waiting = false

/-- The processes are one family, apart from the children of the slots `orphaned`, which are
just being cleaned up. -/
structure Kin (orphaned : Set ProcNr) (s : MmState) : Prop where
  lineage : ∃ g, Lineage.boot.after s.history = some g ∧ g.Tracks s
  counted : s.procsInUse = slotsInUse s
  zombie : ∀ p, (s.mproc p).hanging = true → (s.mproc p).inUse = true
  parents : ∀ p, (s.mproc p).inUse = true →
    (s.mproc (s.mproc p).parent).inUse = true ∨ (s.mproc p).parent ∈ orphaned
  roots : ∀ p, p ≤ initProcNr → (s.mproc p).inUse = true ∧ (s.mproc p).parent = mmProcNr
  mm_waiting : (s.mproc mmProcNr).waiting = false

/-- What the family reads of a slot, apart from the flag WAITING. -/
def kinPart (m : Mproc) : Bool × Bool × ProcNr := (m.inUse, m.hanging, m.parent)

/-- Nothing happens to the family, but a process may stop waiting. -/
structure SameKin (s s' : MmState) : Prop where
  part : ∀ p, kinPart (s'.mproc p) = kinPart (s.mproc p)
  waiting : ∀ p, (s'.mproc p).waiting = true → (s.mproc p).waiting = true
  procsInUse : s'.procsInUse = s.procsInUse
  history : s'.history = s.history

namespace SameKin

variable {s s' : MmState} {p : ProcNr}

theorem of_mproc (hm : s'.mproc = s.mproc) (hp : s'.procsInUse = s.procsInUse)
    (hh : s'.history = s.history) : SameKin s s' :=
  ⟨fun p => by rw [hm], fun p => by rw [hm]; exact id, hp, hh⟩

theorem modify (s : MmState) (p : ProcNr) {f : Mproc → Mproc}
    (hf : ∀ m, kinPart (f m) = kinPart m)
    (hw : ∀ m, (f m).waiting = true → m.waiting = true) : SameKin s (s.modify p f) := by
  refine ⟨fun q => ?_, fun q => ?_, rfl, rfl⟩
  · by_cases h : q = p
    · rw [h, mproc_modify_self, hf]
    · rw [mproc_modify_of_ne h]
  · by_cases h : q = p
    · rw [h, mproc_modify_self]
      exact hw _
    · rw [mproc_modify_of_ne h]
      exact id

theorem inUse (h : SameKin s s') (p : ProcNr) : (s'.mproc p).inUse = (s.mproc p).inUse :=
  congrArg Prod.fst (h.part p)

theorem hanging (h : SameKin s s') (p : ProcNr) : (s'.mproc p).hanging = (s.mproc p).hanging :=
  congrArg (fun x => x.2.1) (h.part p)

theorem parent (h : SameKin s s') (p : ProcNr) : (s'.mproc p).parent = (s.mproc p).parent :=
  congrArg (fun x => x.2.2) (h.part p)

theorem not_waiting (h : SameKin s s') (hp : (s.mproc p).waiting = false) :
    (s'.mproc p).waiting = false := by
  cases hw : (s'.mproc p).waiting with
  | false => rfl
  | true => rw [← hp, h.waiting p hw]

theorem collected (h : SameKin s s') (hp : Collected s p) : Collected s' p := by
  intro hh
  rw [h.parent]
  exact h.not_waiting (hp (by rw [← h.hanging]; exact hh))

end SameKin

section Kin

variable {X : Set ProcNr} {s s' : MmState} {p : ProcNr}

theorem Kin.of_sameKin (h : Kin X s) (hs : SameKin s s') : Kin X s' where
  lineage := by
    obtain ⟨g, hg, ht⟩ := h.lineage
    refine ⟨g, by rw [hs.history]; exact hg, fun p => ?_, fun p => ?_⟩
    · rw [ht.phase, Mproc.phase, Mproc.phase, hs.inUse, hs.hanging]
    · rw [ht.parent, hs.parent]
  counted := by
    have hslots : slotsInUse s' = slotsInUse s := List.countP_congr fun p _ => by rw [hs.inUse p]
    rw [hs.procsInUse, h.counted, hslots]
  zombie p hp := by
    rw [hs.inUse]
    exact h.zombie p (by rw [← hs.hanging]; exact hp)
  parents p hp := by
    rw [hs.parent, hs.inUse]
    exact h.parents p (by rw [← hs.inUse]; exact hp)
  roots p hp := by
    rw [hs.inUse, hs.parent]
    exact h.roots p hp
  mm_waiting := hs.not_waiting h.mm_waiting

theorem phase_live : (s.mproc p).phase = .live ↔
    (s.mproc p).inUse = true ∧ (s.mproc p).hanging = false := by
  unfold Mproc.phase
  cases (s.mproc p).inUse <;> cases (s.mproc p).hanging <;> simp

theorem phase_free : (s.mproc p).phase = .free ↔ (s.mproc p).inUse = false := by
  unfold Mproc.phase
  cases (s.mproc p).inUse <;> cases (s.mproc p).hanging <;> simp

/-- An event that the machine allows, and that does to the machine what `s'` says. -/
theorem Kin.noted (h : Kin X s) {e : ProcEvent} (hh : s'.history = e :: s.history)
    (hstep : ∀ g : Lineage, g.Tracks s → ∃ g', g.step e = some g' ∧ g'.Tracks s') :
    ∃ g, Lineage.boot.after s'.history = some g ∧ g.Tracks s' := by
  obtain ⟨g, hg, ht⟩ := h.lineage
  obtain ⟨g', hg', ht'⟩ := hstep g ht
  refine ⟨g', ?_, ht'⟩
  rw [hh, Lineage.after, hg]
  exact hg'

/-- An event that does not concern the family. -/
theorem Kin.mention (h : Kin X s) {e : ProcEvent}
    (he : ∀ g : Lineage, g.step e = some { g with said := none }) :
    Kin X (s.note e) :=
  { h with lineage := h.noted rfl fun g ht => ⟨_, he g, ht.phase, ht.parent⟩ }

/-- `reply` checks that the destination is still alive. -/
theorem Kin.reply (h : Kin X s) (p : ProcNr) (result : ℤ) (res2 : ℕ) :
    Kin X (reply s p result res2) := by
  unfold Mm.reply
  split
  · exact h
  · next hlive =>
    simp only [Bool.or_eq_true, Bool.not_eq_true', not_or, Bool.not_eq_false,
      Bool.not_eq_true] at hlive
    refine { h with lineage := h.noted rfl fun g ht => ?_ }
    refine ⟨{ g with said := some ⟨p, result, res2⟩ }, ?_, ht.phase, ht.parent⟩
    rw [Lineage.step, if_pos]
    rw [ht.phase, phase_live]
    exact hlive

theorem Collected.reply {q : ProcNr} (h : Collected s q) (p : ProcNr) (result : ℤ) (res2 : ℕ) :
    Collected (Mm.reply s p result res2) q := by
  unfold Collected
  rw [reply_mproc]
  exact h

/-! ## §3 `cleanup` -/

/-- What `cleanup` does to slots other than the one it is called for. -/
structure Shrunk (s s' : MmState) : Prop where
  inUse : ∀ p, (s.mproc p).inUse = false → (s'.mproc p).inUse = false
  waiting : ∀ p, (s.mproc p).waiting = false → (s'.mproc p).waiting = false
  parent : ∀ p, (s'.mproc p).parent = (s.mproc p).parent ∨ (s'.mproc p).parent = initProcNr

theorem Shrunk.refl (s : MmState) : Shrunk s s := ⟨fun _ => id, fun _ => id, fun _ => .inl rfl⟩

theorem Shrunk.trans {s'' : MmState} (h : Shrunk s s') (h' : Shrunk s' s'') : Shrunk s s'' where
  inUse p hp := h'.inUse p (h.inUse p hp)
  waiting p hp := h'.waiting p (h.waiting p hp)
  parent p := by
    rcases h'.parent p with heq | heq
    · rw [heq]
      exact h.parent p
    · exact .inr heq

/-- The slots after `releaseSlot`: one is free, and its parent no longer waits. -/
theorem releaseSlot_mproc (s : MmState) (child q : ProcNr) :
    ((releaseSlot s child).mproc q).parent = (s.mproc q).parent ∧
      ((releaseSlot s child).mproc q).inUse = (decide (q ≠ child) && (s.mproc q).inUse) ∧
      ((releaseSlot s child).mproc q).hanging = (decide (q ≠ child) && (s.mproc q).hanging) ∧
      ((releaseSlot s child).mproc q).waiting =
        (decide (q ≠ (s.mproc child).parent) && (s.mproc q).waiting) := by
  set mid := s.modify (s.mproc child).parent fun m => { m with waiting := false } with hmid
  have hdef : (releaseSlot s child).mproc = (mid.modify child Mproc.released).mproc := by
    simp [releaseSlot, hmid, MmState.modify, MmState.set]
  have hwait : (mid.mproc q).parent = (s.mproc q).parent ∧ (mid.mproc q).inUse = (s.mproc q).inUse ∧
      (mid.mproc q).hanging = (s.mproc q).hanging ∧ (mid.mproc q).waiting =
        (decide (q ≠ (s.mproc child).parent) && (s.mproc q).waiting) := by
    by_cases hp : q = (s.mproc child).parent
    · rw [hmid, hp, mproc_modify_self]
      simp
    · rw [hmid, mproc_modify_of_ne hp]
      simp [hp]
  obtain ⟨hparent, hin, hhang, hw⟩ := hwait
  rw [hdef, ← hparent, ← hin, ← hhang, ← hw]
  by_cases hc : q = child
  · rw [hc, mproc_modify_self]
    simp [Mproc.released]
  · rw [mproc_modify_of_ne hc]
    simp [hc]

theorem releaseSlot_history (s : MmState) (child : ProcNr) :
    (releaseSlot s child).history = .released child (s.mproc child).report ::
      (reply s (s.mproc child).parent (s.mproc child).report.result
        (s.mproc child).report.res2).history := rfl

/-- The parent is told first, if it is still alive. -/
theorem Kin.report (h : Kin X s) (child : ProcNr) :
    ∃ g, Lineage.boot.after (Mm.reply s (s.mproc child).parent (s.mproc child).report.result
        (s.mproc child).report.res2).history = some g ∧ g.Tracks s ∧
      ((s.mproc (s.mproc child).parent).phase = .live → g.said = some (s.mproc child).report) := by
  obtain ⟨g, hg, ht⟩ := h.lineage
  unfold Mm.reply
  split
  · next hdead =>
    refine ⟨g, hg, ht, fun hlive => ?_⟩
    rw [phase_live] at hlive
    rw [hlive.1, hlive.2] at hdead
    exact absurd hdead (by decide)
  · next hlive =>
    simp only [Bool.or_eq_true, Bool.not_eq_true', not_or, Bool.not_eq_false,
      Bool.not_eq_true] at hlive
    refine ⟨{ g with said := some (s.mproc child).report }, ?_, ⟨ht.phase, ht.parent⟩, fun _ => rfl⟩
    show (Lineage.boot.after s.history).bind _ = _
    rw [hg, Option.bind_some, Lineage.step, if_pos]
    · rfl
    · rw [ht.phase, phase_live]
      exact hlive

/-- Releasing a slot is a step of the machine that leaves orphans. -/
theorem Kin.releaseSlot {child : ProcNr} (h : Kin X s) (hin : (s.mproc child).inUse = true)
    (hparent : (s.mproc child).parent ≠ mmProcNr) :
    Kin (insert child X) (releaseSlot s child) := by
  have hpart := releaseSlot_mproc s child
  -- MM, FS and INIT have MM as parent
  have hroot : ∀ p, p ≤ initProcNr → p ≠ child := fun p hp heq => hparent (heq ▸ (h.roots p hp).2)
  constructor
  case lineage =>
    obtain ⟨g, hg, ht, hsaid⟩ := h.report child
    refine ⟨⟨update g.phase child .free, g.parent, none⟩, ?_, fun q => ?_, fun q => ?_⟩
    · rw [releaseSlot_history, Lineage.after, hg, Option.bind_some, Lineage.step, if_pos]
      refine ⟨?_, (ht.parent child).symm, ?_⟩
      · rw [ht.phase, Ne, phase_free, hin]
        decide
      · rw [ht.parent, ht.phase]
        exact hsaid
    · dsimp only
      by_cases hq : q = child
      · subst hq
        rw [update_self, eq_comm, phase_free, (hpart q).2.1]
        simp
      · rw [update_of_ne hq, ht.phase, Mproc.phase, Mproc.phase, (hpart q).2.1,
          (hpart q).2.2.1]
        simp [hq]
    · rw [ht.parent, (hpart q).1]
  case counted =>
    have hcount := (releaseSlot_spec hin).1.count
    have := h.counted
    omega
  case zombie =>
    intro p hp
    rw [(hpart p).2.2.1, Bool.and_eq_true] at hp
    rw [(hpart p).2.1, Bool.and_eq_true]
    exact ⟨hp.1, h.zombie p hp.2⟩
  case parents =>
    intro p hp
    rw [(hpart p).2.1, Bool.and_eq_true] at hp
    rw [(hpart p).1, (hpart _).2.1, Bool.and_eq_true, decide_eq_true_eq, Set.mem_insert_iff]
    by_cases hc : (s.mproc p).parent = child
    · exact .inr (.inl hc)
    · exact (h.parents p hp.2).imp (fun hu => ⟨hc, hu⟩) .inr
  case roots =>
    intro p hp
    rw [(hpart p).1, (hpart p).2.1, (h.roots p hp).1]
    exact ⟨by simpa using hroot p hp, (h.roots p hp).2⟩
  case mm_waiting =>
    rw [(hpart mmProcNr).2.2.2, h.mm_waiting, Bool.and_false]

theorem releaseSlot_shrunk (s : MmState) (child : ProcNr) : Shrunk s (releaseSlot s child) where
  inUse p hp := by rw [(releaseSlot_mproc s child p).2.1, hp, Bool.and_false]
  waiting p hp := by rw [(releaseSlot_mproc s child p).2.2.2, hp, Bool.and_false]
  parent p := .inl (releaseSlot_mproc s child p).1

/-- No zombie is left behind by a release, if none was before. -/
theorem releaseSlot_collected {child : ProcNr} (h : ∀ p, p ≠ child → Collected s p) (p : ProcNr) :
    Collected (releaseSlot s child) p := by
  intro hp
  rw [(releaseSlot_mproc s child p).2.2.1, Bool.and_eq_true, decide_eq_true_eq] at hp
  rw [(releaseSlot_mproc s child p).1]
  exact (releaseSlot_shrunk s child).waiting _ (h p hp.1 hp.2)

/-- The slots after an adoption. -/
theorem adopted_mproc (s : MmState) (rp : ProcNr) :
    let s' := (s.modify rp fun m => { m with parent := initProcNr }).note (.adopted rp)
    s'.mproc rp = { s.mproc rp with parent := initProcNr } ∧
      (∀ q, q ≠ rp → s'.mproc q = s.mproc q) ∧
      ∀ q, (s'.mproc q).waiting = (s.mproc q).waiting := by
  refine ⟨by rw [mproc_note, mproc_modify_self],
    fun q hq => by rw [mproc_note, mproc_modify_of_ne hq], fun q => ?_⟩
  by_cases hq : q = rp
  · rw [hq, mproc_note, mproc_modify_self]
  · rw [mproc_note, mproc_modify_of_ne hq]

theorem adopted_shrunk (s : MmState) (rp : ProcNr) :
    Shrunk s ((s.modify rp fun m => { m with parent := initProcNr }).note (.adopted rp)) := by
  obtain ⟨hself, hother, hwaits⟩ := adopted_mproc s rp
  refine ⟨fun p hp => ?_, fun p hp => (hwaits p).trans hp, fun p => ?_⟩
  · by_cases hpr : p = rp
    · rw [hpr] at hp ⊢
      rw [hself]
      exact hp
    · rw [hother p hpr]
      exact hp
  · by_cases hpr : p = rp
    · rw [hpr, hself]
      exact .inr rfl
    · rw [hother p hpr]
      exact .inl rfl

/-- INIT takes over a child of a released slot. -/
theorem Kin.adopt {rp : ProcNr} (h : Kin X s) (hgone : (s.mproc (s.mproc rp).parent).inUse = false)
    (hne : (s.mproc rp).parent ≠ mmProcNr) :
    Kin X ((s.modify rp fun m => { m with parent := initProcNr }).note (.adopted rp)) := by
  obtain ⟨hself, hother, hwaits⟩ := adopted_mproc s rp
  set s₁ := (s.modify rp fun m => { m with parent := initProcNr }).note (.adopted rp) with hs1
  have hflags : ∀ q, (s₁.mproc q).inUse = (s.mproc q).inUse ∧
      (s₁.mproc q).hanging = (s.mproc q).hanging := by
    intro q
    by_cases hq : q = rp
    · rw [hq, hself]
      exact ⟨rfl, rfl⟩
    · rw [hother q hq]
      exact ⟨rfl, rfl⟩
  constructor
  case lineage =>
    refine h.noted rfl fun g ht => ?_
    refine ⟨⟨g.phase, update g.parent rp initProcNr, none⟩, ?_, fun q => ?_, fun q => ?_⟩
    · rw [Lineage.step, if_pos]
      rw [ht.parent, ht.phase, phase_free]
      exact hgone
    · dsimp only
      rw [ht.phase, Mproc.phase, Mproc.phase, (hflags q).1, (hflags q).2]
    · dsimp only
      by_cases hq : q = rp
      · rw [hq, update_self, hself]
      · rw [update_of_ne hq, hother q hq, ht.parent]
  case counted =>
    have hslots : slotsInUse s₁ = slotsInUse s := List.countP_congr fun q _ => by rw [(hflags q).1]
    rw [hslots]
    exact h.counted
  case zombie =>
    intro q hq
    rw [(hflags q).2] at hq
    rw [(hflags q).1]
    exact h.zombie q hq
  case parents =>
    intro q hq
    rw [(hflags q).1] at hq
    rw [(hflags _).1]
    by_cases hqr : q = rp
    · rw [hqr, hself]
      exact .inl (h.roots initProcNr le_rfl).1
    · rw [hother q hqr]
      exact h.parents q hq
  case roots =>
    intro q hq
    have hqr : q ≠ rp := fun heq => hne (heq ▸ (h.roots q hq).2)
    rw [hother q hqr]
    exact h.roots q hq
  case mm_waiting =>
    rw [hwaits]
    exact h.mm_waiting

/-- What has been achieved by the loop of `cleanup(child)` since `s₁`, with the slots `rest` to
come: `st.2` tells whether INIT still waits. -/
structure Disinheriting (X : Set ProcNr) (child : ProcNr) (s₁ : MmState) (rest : List ProcNr)
    (st : MmState × Bool) : Prop where
  kin : Kin (insert child X) st.1
  collected : ∀ p, Collected st.1 p
  shrunk : Shrunk s₁ st.1
  gone : (st.1.mproc child).inUse = false
  wait : st.2 = (st.1.mproc initProcNr).waiting
  rest : ∀ p, (st.1.mproc p).parent = child → p ∈ rest

/-- What a call of `cleanup(child)` does. -/
structure CleanedUp (X : Set ProcNr) (child : ProcNr) (s s' : MmState) : Prop where
  kin : Kin X s'
  collected : ∀ p, Collected s' p
  shrunk : Shrunk s s'
  init : (s.mproc child).parent = initProcNr → (s'.mproc initProcNr).waiting = false

/-- Nobody is left without a parent, and no zombie is kept from INIT if it waits. -/
theorem cleanup_cleanedUp {fuel : ℕ} {child : ProcNr} (h : Kin X s)
    (hcol : ∀ p, p ≠ child → Collected s p) (hin : (s.mproc child).inUse = true)
    (hparent : (s.mproc child).parent ≠ mmProcNr) (hrun : cleanup fuel s child = .ok s') :
    CleanedUp X child s s' := by
  -- the recursive call cleans up an orphan while the children of `child` are still orphans
  induction fuel generalizing X s s' child with
  | zero => cases hrun
  | succ fuel ih =>
    have hne : ∀ p, p ≤ initProcNr → p ≠ child := fun p hp heq => hparent (heq ▸ (h.roots p hp).2)
    have hmm : mmProcNr ≠ child := hne _ (by decide)
    have hinit : initProcNr ≠ child := hne _ le_rfl
    unfold cleanup at hrun
    obtain ⟨⟨s₂, w⟩, hloop, rfl⟩ := map_eq_ok hrun
    set s₁ := Mm.releaseSlot s child with hs1
    have hshrunk : Shrunk s s₁ := releaseSlot_shrunk s child
    have hstart : Disinheriting X child s₁ (List.finRange nrProcs)
        (s₁, (s₁.mproc initProcNr).waiting) := by
      refine ⟨h.releaseSlot hin hparent, releaseSlot_collected hcol, Shrunk.refl _, ?_, rfl,
        fun p _ => List.mem_finRange p⟩
      rw [hs1, (releaseSlot_mproc s child child).2.1]
      simp
    have hend := foldlM_preserves (Disinheriting X child s₁) ?_ _ hstart hloop
    · refine ⟨{ hend.kin with parents := fun p hp => ?_ }, hend.collected,
        hshrunk.trans hend.shrunk, fun hp => hend.shrunk.waiting _ ?_⟩
      · rcases hend.kin.parents p hp with hu | hx
        · exact .inl hu
        · rcases Set.mem_insert_iff.mp hx with hc | hx
          · exact absurd (hend.rest p hc) List.not_mem_nil
          · exact .inr hx
      · rw [hs1, (releaseSlot_mproc s child initProcNr).2.2.2, hp]
        simp
    · rintro rp l ⟨t, w⟩ st' hinv hround
      dsimp only at hround
      split at hround
      · next hrp =>
        set t₁ := (t.modify rp fun m => { m with parent := initProcNr }).note (.adopted rp) with ht1
        have hkin : Kin (insert child X) t₁ :=
          hinv.kin.adopt (by rw [hrp]; exact hinv.gone) (by rw [hrp]; exact hmm.symm)
        obtain ⟨hself, hother, hwaits⟩ := adopted_mproc t rp
        rw [← ht1] at hself hother hwaits
        have hshr : Shrunk t t₁ := adopted_shrunk t rp
        have hcol1 : ∀ p, p ≠ rp → Collected t₁ p := by
          intro p hp hh
          rw [hother p hp] at hh ⊢
          rw [hwaits]
          exact hinv.collected p hh
        have hrest : ∀ p, (t₁.mproc p).parent = child → p ∈ l := by
          intro p hp
          by_cases hpr : p = rp
          · rw [hpr, hself] at hp
            exact absurd hp hinit
          · rw [hother p hpr] at hp
            exact (List.mem_cons.mp (hinv.rest p hp)).resolve_left hpr
        split at hround
        · next hnest =>
          -- INIT was waiting, and inherits a zombie
          rw [Bool.and_eq_true] at hnest
          obtain ⟨t₂, hcall, rfl⟩ := map_eq_ok hround
          have hpar : (t₁.mproc rp).parent = initProcNr := by rw [hself]
          have hclean := ih hkin hcol1 (hkin.zombie rp hnest.2) (by rw [hpar]; decide) hcall
          refine ⟨hclean.kin, hclean.collected, (hinv.shrunk.trans hshr).trans hclean.shrunk,
            hclean.shrunk.inUse _ (hshr.inUse _ hinv.gone), (hclean.init hpar).symm, fun p hp => ?_⟩
          rcases hclean.shrunk.parent p with heq | heq
          · exact hrest p (by rw [← heq]; exact hp)
          · rw [heq] at hp
            exact absurd hp hinit
        · next hnest =>
          cases hround
          refine ⟨hkin, fun p => ?_, hinv.shrunk.trans hshr, hshr.inUse _ hinv.gone,
            by rw [hwaits]; exact hinv.wait, hrest⟩
          by_cases hpr : p = rp
          · intro hh
            rw [hpr] at hh ⊢
            rw [hself, hwaits, ← show w = _ from hinv.wait]
            cases w with
            | false => rfl
            | true => exact absurd (by rw [hh]; rfl) hnest
          · exact hcol1 p hpr
      · next hrp =>
        cases hround
        refine ⟨hinv.kin, hinv.collected, hinv.shrunk, hinv.gone, hinv.wait, fun p hp => ?_⟩
        refine (List.mem_cons.mp (hinv.rest p hp)).resolve_left fun heq => hrp ?_
        rw [← heq]
        exact hp

end Kin

end LisaMinix.Mm
