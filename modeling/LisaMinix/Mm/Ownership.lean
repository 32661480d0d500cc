import LisaMinix.Library.Counting
import LisaMinix.Library.Loops
import LisaMinix.Mm.HoleRuns
import LisaMinix.Mm.Image

/-!
# Who Owns the Memory

The invariant of MM: the images of the live processes, the memory of the system and the
holes tile the physical memory, MM and the kernel have the same map of every live process,
and the history of `alloc_mem` and `free_mem` calls is balanced.

Most of what MM does leaves memory alone.  Two relations say so:

- `SameMem s s'`: the parts of the state that the invariant reads are equal;
- `Reaped gone s s'`: some slots of processes that are gone have been released.

## References

`src/mm/forkexit.c`, `exec.c`, `signal.c`, `trace.c`; `src/kernel/stshadow.c`.
-/

namespace LisaMinix.Mm

open LisaMinix.Library

variable {L : Layout} {s s' : MmState} {p child : ProcNr}

/-! ## §1 The invariant -/

/-- How memory is divided at start-up: its size, the areas that belong to the system, and
the image of INIT. -/
structure Layout where
  size : ℕ
  system : List Area
  first : Block
  size_lt : size < 65536
  system_short : system.length ≤ 2
  system_zero : ∃ a ∈ system, a.base = 0

/-- The user processes whose image is in memory. -/
def alive (s : MmState) (p : ProcNr) : Bool :=
  initProcNr ≤ p && (s.mproc p).inUse && !(s.mproc p).hanging

def users (s : MmState) : List ProcNr := (List.finRange nrProcs).filter (alive s)

def images (s : MmState) : List Block := (users s).map fun p => image (s.mproc p).seg

/-- The blocks outstanding after a history of calls, the latest call first.  There is no
such list if a block was freed that was not outstanding. -/
def replay (first : Block) : List MemEvent → Option (List Block)
  | [] => some [first]
  | .alloc b :: es => (replay first es).map (b :: ·)
  | .free b :: es => (replay first es).bind fun bs =>
    if b ∈ bs then some (bs.erase b) else none

/-- The number of slots in use. -/
def slotsInUse (s : MmState) : ℕ := (List.finRange nrProcs).countP fun p => (s.mproc p).inUse

/-- The invariant of MM. -/
structure Owned (L : Layout) (s : MmState) : Prop where
  /-- MM and FS never end -/
  servers : ∀ p, p < initProcNr → (s.mproc p).inUse = true ∧ (s.mproc p).hanging = false
  /-- a zombie still has its slot -/
  zombie : ∀ p, (s.mproc p).hanging = true → (s.mproc p).inUse = true
  count : s.procsInUse = slotsInUse s
  pids : 2 ≤ s.nextPid ∧ s.nextPid ≤ 30000
  pid_pos : ∀ p, alive s p = true → 0 < (s.mproc p).pid
  /-- MM and the kernel agree on the map of a live process -/
  agree : ∀ p, alive s p = true → s.pMap p = (s.mproc p).seg
  shape : ∀ p, alive s p = true → Shape (s.mproc p).seg
  slot : ∀ p, initProcNr ≤ p → s.slotFree p = !alive s p
  tiled : ∃ areas, Tiled L.size s.holes areas (L.system ++ (images s).map Block.area)
  ledger : ∃ bs, replay L.first s.events = some bs ∧ bs.Perm (images s)

/-- Start-up sets up the tables, whatever the holes. -/
theorem mmBoot_state {size org text data tot : ℕ} {mm : MmState}
    (hboot : mmBoot size org text data tot = .ok mm) :
    ∃ holes, mm = bootState org text data holes := by
  unfold mmBoot at hboot
  obtain ⟨t₀, -, hboot⟩ := bind_eq_ok hboot
  obtain ⟨⟨t₁, base⟩, -, hboot⟩ := bind_eq_ok hboot
  dsimp only at hboot
  split at hboot
  · cases hboot
  obtain ⟨⟨t₂, base'⟩, -, hboot⟩ := bind_eq_ok hboot
  dsimp only at hboot
  split at hboot
  · cases hboot
  · cases hboot
    exact ⟨t₂, rfl⟩

/-! ## §2 Steps that leave memory alone -/

/-- The part of a slot that the invariant reads. -/
def memPart (m : Mproc) : MemMaps × Bool × Bool × ℤ := (m.seg, m.inUse, m.hanging, m.pid)

/-- The parts of the state that the invariant reads are equal. -/
structure SameMem (s s' : MmState) : Prop where
  part : ∀ p, memPart (s'.mproc p) = memPart (s.mproc p)
  procsInUse : s'.procsInUse = s.procsInUse
  nextPid : s'.nextPid = s.nextPid
  holes : s'.holes = s.holes
  pMap : s'.pMap = s.pMap
  slotFree : s'.slotFree = s.slotFree
  events : s'.events = s.events

namespace SameMem

variable {s s' s'' : MmState}

theorem refl (s : MmState) : SameMem s s := ⟨fun _ => rfl, rfl, rfl, rfl, rfl, rfl, rfl⟩

theorem trans (h : SameMem s s') (h' : SameMem s' s'') : SameMem s s'' where
  part p := (h'.part p).trans (h.part p)
  procsInUse := h'.procsInUse.trans h.procsInUse
  nextPid := h'.nextPid.trans h.nextPid
  holes := h'.holes.trans h.holes
  pMap := h'.pMap.trans h.pMap
  slotFree := h'.slotFree.trans h.slotFree
  events := h'.events.trans h.events

variable {f : Mproc → Mproc}

theorem modify (s : MmState) (p : ProcNr)
    (hf : ∀ m, memPart (f m) = memPart m) : SameMem s (s.modify p f) := by
  refine ⟨fun q => ?_, rfl, rfl, rfl, rfl, rfl, rfl⟩
  by_cases h : q = p
  · subst h
    simp [MmState.modify, MmState.set, hf]
  · simp [MmState.modify, MmState.set, h]

theorem note (s : MmState) (e : ProcEvent) : SameMem s (s.note e) :=
  ⟨fun _ => rfl, rfl, rfl, rfl, rfl, rfl, rfl⟩

theorem reply (s : MmState) (p : ProcNr) (result : ℤ) (res2 : ℕ) :
    SameMem s (reply s p result res2) := by
  unfold Mm.reply
  split
  · exact refl s
  · exact note ..

theorem then_modify (h : SameMem s s') (p : ProcNr)
    (hf : ∀ m, memPart (f m) = memPart m) : SameMem s (s'.modify p f) :=
  h.trans (modify s' p hf)

theorem then_reply (h : SameMem s s') (p : ProcNr) (result : ℤ) (res2 : ℕ) :
    SameMem s (Mm.reply s' p result res2) :=
  h.trans (reply s' p result res2)

theorem seg (h : SameMem s s') (p : ProcNr) : (s'.mproc p).seg = (s.mproc p).seg :=
  congrArg Prod.fst (h.part p)

theorem inUse (h : SameMem s s') (p : ProcNr) : (s'.mproc p).inUse = (s.mproc p).inUse :=
  congrArg (fun x => x.2.1) (h.part p)

theorem hanging (h : SameMem s s') (p : ProcNr) : (s'.mproc p).hanging = (s.mproc p).hanging :=
  congrArg (fun x => x.2.2.1) (h.part p)

theorem pid (h : SameMem s s') (p : ProcNr) : (s'.mproc p).pid = (s.mproc p).pid :=
  congrArg (fun x => x.2.2.2) (h.part p)

theorem alive (h : SameMem s s') (p : ProcNr) : Mm.alive s' p = Mm.alive s p := by
  simp only [Mm.alive, h.inUse, h.hanging]

theorem users (h : SameMem s s') : Mm.users s' = Mm.users s := by
  unfold Mm.users
  exact List.filter_congr fun p _ => h.alive p

theorem images (h : SameMem s s') : Mm.images s' = Mm.images s := by
  unfold Mm.images
  rw [h.users]
  exact List.map_congr_left fun p _ => by rw [h.seg]

theorem slotsInUse (h : SameMem s s') : Mm.slotsInUse s' = Mm.slotsInUse s := by
  unfold Mm.slotsInUse
  exact List.countP_congr fun p _ => by rw [h.inUse]

end SameMem

theorem Owned.of_sameMem (h : Owned L s) (hs : SameMem s s') : Owned L s' where
  servers p hp := by
    rw [hs.inUse, hs.hanging]
    exact h.servers p hp
  zombie p hp := by
    rw [hs.hanging] at hp
    rw [hs.inUse]
    exact h.zombie p hp
  count := by rw [hs.procsInUse, hs.slotsInUse, h.count]
  pids := by rw [hs.nextPid]; exact h.pids
  pid_pos p hp := by
    rw [hs.alive] at hp
    rw [hs.pid]
    exact h.pid_pos p hp
  agree p hp := by
    rw [hs.alive] at hp
    rw [hs.pMap, hs.seg]
    exact h.agree p hp
  shape p hp := by
    rw [hs.alive] at hp
    rw [hs.seg]
    exact h.shape p hp
  slot p hp := by rw [hs.slotFree, hs.alive, h.slot p hp]
  tiled := by rw [hs.holes, hs.images]; exact h.tiled
  ledger := by rw [hs.events, hs.images]; exact h.ledger

/-! ## §3 One slot changes -/

@[simp] theorem mproc_note (s : MmState) (e : ProcEvent) : (s.note e).mproc = s.mproc := rfl

@[simp] theorem reply_mproc (s : MmState) (p : ProcNr) (result : ℤ) (res2 : ℕ) :
    (reply s p result res2).mproc = s.mproc := by
  unfold reply
  split <;> rfl

@[simp] theorem mproc_modify_self (s : MmState) (p : ProcNr) (f : Mproc → Mproc) :
    (s.modify p f).mproc p = f (s.mproc p) := by
  simp [MmState.modify, MmState.set]

@[simp] theorem mproc_modify_of_ne {q : ProcNr} (h : q ≠ p) (f : Mproc → Mproc) :
    (s.modify p f).mproc q = s.mproc q := by
  simp [MmState.modify, MmState.set, h]

/-- A change of the map of a live process that keeps its image. -/
theorem Owned.setMap (h : Owned L s) {seg' : MemMaps} (hp : alive s p = true) (hshape : Shape seg')
    (himage : image seg' = image (s.mproc p).seg) :
    Owned L (s.setMap p seg') ∧ ∀ q, alive (s.setMap p seg') q = alive s q := by
  have hm : ∀ q, (s.setMap p seg').mproc q =
      if q = p then { s.mproc p with seg := seg' } else s.mproc q := by
    intro q
    simp [MmState.setMap, MmState.modify, MmState.set, Function.update_apply]
  have hsame : ∀ q, ((s.setMap p seg').mproc q).inUse = (s.mproc q).inUse ∧
      ((s.setMap p seg').mproc q).hanging = (s.mproc q).hanging ∧
      ((s.setMap p seg').mproc q).pid = (s.mproc q).pid := by
    intro q
    rw [hm q]
    split
    · next heq => subst heq; exact ⟨rfl, rfl, rfl⟩
    · exact ⟨rfl, rfl, rfl⟩
  have halive : ∀ q, alive (s.setMap p seg') q = alive s q := by
    intro q
    rw [alive, alive, (hsame q).1, (hsame q).2.1]
  have himages : images (s.setMap p seg') = images s := by
    unfold images
    rw [show users (s.setMap p seg') = users s from List.filter_congr fun q _ => halive q]
    refine List.map_congr_left fun q _ => ?_
    rw [hm q]
    split
    · next heq => rw [himage, heq]
    · rfl
  have hcount : slotsInUse (s.setMap p seg') = slotsInUse s :=
    List.countP_congr fun q _ => by rw [(hsame q).1]
  refine ⟨⟨fun q hq => ?_, fun q hq => ?_, ?_, h.pids, fun q hq => ?_, fun q hq => ?_, fun q hq => ?_,
    fun q hq => ?_, ?_, ?_⟩, halive⟩
  · rw [(hsame q).1, (hsame q).2.1]
    exact h.servers q hq
  · rw [(hsame q).2.1] at hq
    rw [(hsame q).1]
    exact h.zombie q hq
  · rw [hcount]
    exact h.count
  · rw [halive] at hq
    rw [(hsame q).2.2]
    exact h.pid_pos q hq
  · rw [halive] at hq
    rw [hm q]
    by_cases heq : q = p
    · simp [heq, MmState.setMap]
    · rw [if_neg heq]
      simpa [MmState.setMap, heq] using h.agree q hq
  · rw [halive] at hq
    rw [hm q]
    split
    · exact hshape
    · exact h.shape q hq
  · rw [halive]
    exact h.slot q hq
  · rw [himages]
    exact h.tiled
  · rw [himages]
    exact h.ledger

/-! ## §4 Released slots -/

/-- What is known of a zombie while others are dealt with. -/
def zombiePart (m : Mproc) : Bool × ℤ × (ℕ → Bool) × Bool × Bool :=
  (m.hanging, m.pid, m.ignore, m.traced, m.alarmOn)

/-- Some slots of processes that are `gone` have been released; nothing else that matters
for memory has changed. -/
structure Reaped (gone : ProcNr → Prop) (s s' : MmState) : Prop where
  slot : ∀ q, ((s'.mproc q).inUse = (s.mproc q).inUse ∧
      (s'.mproc q).hanging = (s.mproc q).hanging) ∨
    gone q ∧ (s'.mproc q).inUse = false ∧ (s'.mproc q).hanging = false
  seg : ∀ q, (s'.mproc q).seg = (s.mproc q).seg
  pid : ∀ q, (s'.mproc q).pid = (s.mproc q).pid
  count : s'.procsInUse - slotsInUse s' = s.procsInUse - slotsInUse s
  nextPid : s'.nextPid = s.nextPid
  holes : s'.holes = s.holes
  pMap : s'.pMap = s.pMap
  slotFree : s'.slotFree = s.slotFree
  events : s'.events = s.events
  zombies : ∀ q, (s'.mproc q).hanging = true → zombiePart (s'.mproc q) = zombiePart (s.mproc q)

namespace Reaped

variable {gone gone' : ProcNr → Prop} {s s' s'' : MmState}

theorem of_sameMem (h : SameMem s s')
    (hz : ∀ q, zombiePart (s'.mproc q) = zombiePart (s.mproc q)) : Reaped gone s s' where
  slot q := .inl ⟨h.inUse q, h.hanging q⟩
  seg := h.seg
  pid := h.pid
  count := by rw [h.procsInUse, h.slotsInUse]
  nextPid := h.nextPid
  holes := h.holes
  pMap := h.pMap
  slotFree := h.slotFree
  events := h.events
  zombies q _ := hz q

theorem hanging_of (h : Reaped gone s s') {q : ProcNr} (hq : (s'.mproc q).hanging = true) :
    (s.mproc q).hanging = true := by
  rcases h.slot q with ⟨-, heq⟩ | ⟨-, -, hno⟩
  · rwa [heq] at hq
  · rw [hno] at hq
    exact absurd hq (by decide)

theorem trans (h : Reaped gone s s') (h' : Reaped gone s' s'') : Reaped gone s s'' where
  slot q := by
    rcases h'.slot q with ⟨hu, hh⟩ | hg
    · rcases h.slot q with ⟨hu', hh'⟩ | ⟨hg, hu', hh'⟩
      · exact .inl ⟨hu.trans hu', hh.trans hh'⟩
      · exact .inr ⟨hg, hu.trans hu', hh.trans hh'⟩
    · exact .inr hg
  seg q := (h'.seg q).trans (h.seg q)
  pid q := (h'.pid q).trans (h.pid q)
  count := h'.count.trans h.count
  nextPid := h'.nextPid.trans h.nextPid
  holes := h'.holes.trans h.holes
  pMap := h'.pMap.trans h.pMap
  slotFree := h'.slotFree.trans h.slotFree
  events := h'.events.trans h.events
  zombies q hq := (h'.zombies q hq).trans (h.zombies q (h'.hanging_of hq))

theorem mono (h : Reaped gone s s') (hg : ∀ q, gone q → gone' q) : Reaped gone' s s' where
  slot q := (h.slot q).imp_right fun hq => ⟨hg q hq.1, hq.2⟩
  seg := h.seg
  pid := h.pid
  count := h.count
  nextPid := h.nextPid
  holes := h.holes
  pMap := h.pMap
  slotFree := h.slotFree
  events := h.events
  zombies := h.zombies

theorem zombie (h : Reaped gone s s')
    (hz : ∀ q, (s.mproc q).hanging = true → (s.mproc q).inUse = true) (q : ProcNr)
    (hq : (s'.mproc q).hanging = true) : (s'.mproc q).inUse = true := by
  rcases h.slot q with ⟨hu, hh⟩ | ⟨-, -, hno⟩
  · rw [hu]
    exact hz q (hh ▸ hq)
  · rw [hno] at hq
    exact absurd hq (by decide)

theorem inUse_false (h : Reaped gone s s') {q : ProcNr} (hq : (s.mproc q).inUse = false) :
    (s'.mproc q).inUse = false := by
  rcases h.slot q with ⟨hu, -⟩ | ⟨-, hu, -⟩
  · rw [hu, hq]
  · exact hu

end Reaped

/-- The slots that `cleanup(child)` may release: the child, and zombies that INIT inherits. -/
def goneWith (s : MmState) (child q : ProcNr) : Prop := q = child ∨ (s.mproc q).hanging = true

theorem releaseSlot_spec (hin : (s.mproc child).inUse = true) :
    Reaped (goneWith s child) s (releaseSlot s child) ∧
      ((releaseSlot s child).mproc child).inUse = false ∧
      ((s.mproc child).parent = initProcNr →
        ((releaseSlot s child).mproc initProcNr).waiting = false) := by
  set c := s.mproc child with hc
  set s₁ := (reply s c.report.procNr c.report.result c.report.res2).modify c.parent
    fun m => { m with waiting := false } with hs1
  have hsame : SameMem s s₁ := (SameMem.reply ..).trans (SameMem.modify _ _ fun _ => rfl)
  have hz : ∀ q, zombiePart (s₁.mproc q) = zombiePart (s.mproc q) := by
    intro q
    have hr := reply_mproc s c.report.procNr c.report.result c.report.res2
    rw [hs1]
    by_cases hq : q = c.parent
    · subst hq
      rw [mproc_modify_self, hr]
      rfl
    · rw [mproc_modify_of_ne hq, hr]
  set s₂ : MmState := { (s₁.modify child Mproc.released).note (.released child c.report) with
    procsInUse := s₁.procsInUse - 1 } with hs2
  have hdef : releaseSlot s child = s₂ := rfl
  have hself : s₂.mproc child = (s₁.mproc child).released := mproc_modify_self ..
  have hother : ∀ q, q ≠ child → s₂.mproc q = s₁.mproc q := fun q hq => mproc_modify_of_ne hq _
  have hcount : slotsInUse s₁ = slotsInUse s₂ + 1 := by
    refine countP_succ (List.nodup_finRange nrProcs) (List.mem_finRange child)
      ((hsame.inUse child).trans hin) ?_ fun q hq => ?_
    · rw [hself]
      rfl
    · rw [hother q hq]
  have hreaped : Reaped (goneWith s child) s₁ s₂ := by
    refine ⟨fun q => ?_, fun q => ?_, fun q => ?_, ?_, rfl, rfl, rfl, rfl, rfl, fun q hq => ?_⟩
    · by_cases hq : q = child
      · subst hq
        refine .inr ⟨.inl rfl, ?_⟩
        rw [hself]
        exact ⟨rfl, rfl⟩
      · rw [hother q hq]
        exact .inl ⟨rfl, rfl⟩
    · by_cases hq : q = child
      · rw [hq, hself]
        rfl
      · rw [hother q hq]
    · by_cases hq : q = child
      · rw [hq, hself]
        rfl
      · rw [hother q hq]
    · have : s₂.procsInUse = s₁.procsInUse - 1 := rfl
      omega
    · by_cases hqc : q = child
      · rw [hqc, hself] at hq
        exact absurd hq (by simp [Mproc.released])
      · rw [hother q hqc]
  rw [hdef]
  refine ⟨(Reaped.of_sameMem hsame hz).trans hreaped, by rw [hself]; rfl, fun hparent => ?_⟩
  have hwait : (s₁.mproc initProcNr).waiting = false := by
    rw [hs1, ← hparent, mproc_modify_self]
  by_cases hq : initProcNr = child
  · rw [hq] at hwait ⊢
    rw [hself]
    exact hwait
  · rw [hother _ hq]
    exact hwait

/-- One round of the loop of `cleanup`, given what the recursive call does. -/
theorem cleanup_spec (fuel : ℕ) (hin : (s.mproc child).inUse = true)
    (hzombie : ∀ q, (s.mproc q).hanging = true → (s.mproc q).inUse = true)
    (hcall : (s.mproc child).parent = initProcNr ∨ ∀ t rp, (t.mproc rp).inUse = true →
      (∀ q, (t.mproc q).hanging = true → (t.mproc q).inUse = true) →
      (t.mproc rp).parent = initProcNr →
      ∃ t', cleanup fuel t rp = .ok t' ∧ Reaped (goneWith t rp) t t' ∧
        (t'.mproc rp).inUse = false) :
    ∃ s', cleanup (fuel + 1) s child = .ok s' ∧ Reaped (goneWith s child) s s' ∧
      (s'.mproc child).inUse = false := by
  obtain ⟨hrel, hgone, hwait⟩ := releaseSlot_spec hin
  -- the loop releases only zombies, so the child stays released
  set R : List ProcNr → MmState × Bool → Prop := fun _ st =>
    Reaped (goneWith s child) s st.1 ∧ (st.1.mproc child).inUse = false ∧
      ((s.mproc child).parent = initProcNr → st.2 = false) with hR
  have hstart : R (List.finRange nrProcs) (releaseSlot s child,
      ((releaseSlot s child).mproc initProcNr).waiting) := ⟨hrel, hgone, hwait⟩
  have hround : ∀ rp l st, R (rp :: l) st → ∃ st',
      (if (st.1.mproc rp).parent = child then
        let t := (st.1.modify rp fun m => { m with parent := initProcNr }).note (.adopted rp)
        if st.2 && (t.mproc rp).hanging then (cleanup fuel t rp).map fun t => (t, false)
        else .ok (t, st.2)
      else .ok st : Except Fault (MmState × Bool)) = .ok st' ∧ R l st' := by
    rintro rp l ⟨t, w⟩ ⟨hre, hno, hw⟩
    split
    · set t₁ := (t.modify rp fun m => { m with parent := initProcNr }).note (.adopted rp) with ht1
      have hre1 : Reaped (goneWith s child) t t₁ := by
        have hsame : SameMem t (t.modify rp fun m => { m with parent := initProcNr }) :=
          SameMem.modify _ _ fun _ => rfl
        refine Reaped.of_sameMem (hsame.trans (SameMem.note ..)) fun q => ?_
        by_cases hq : q = rp
        · rw [hq, ht1, mproc_note, mproc_modify_self]
          rfl
        · rw [ht1, mproc_note, mproc_modify_of_ne hq]
      have hs1 := hre.trans hre1
      simp only
      split
      · next hnest =>
        obtain ⟨hwt, hhang⟩ := Bool.and_eq_true_iff.mp hnest
        have hcall' := hcall.resolve_left fun hp => absurd ((hw hp).symm.trans hwt) (by decide)
        obtain ⟨t₂, hrun, hre2, -⟩ := hcall' t₁ rp (hs1.zombie hzombie rp hhang)
          (hs1.zombie hzombie) (by rw [ht1, mproc_note, mproc_modify_self])
        have hre2' : Reaped (goneWith s child) t₁ t₂ := by
          refine hre2.mono fun q hq => .inr ?_
          rcases hq with rfl | hq
          · exact hs1.hanging_of hhang
          · exact hs1.hanging_of hq
        exact ⟨(t₂, false), by rw [hrun]; rfl, hs1.trans hre2',
          hre2.inUse_false (hre1.inUse_false hno), fun _ => rfl⟩
      · exact ⟨(t₁, w), rfl, hs1, hre1.inUse_false hno, hw⟩
    · exact ⟨(t, w), rfl, hre, hno, hw⟩
  obtain ⟨⟨s', w⟩, hrun, hre, hno, -⟩ := foldlM_invariant R hround _ _ hstart
  refine ⟨s', ?_, hre, hno⟩
  rw [cleanup, hrun]
  rfl

/-- `cleanup` never recurses more than once: INIT is no longer waiting then. -/
theorem cleanup_ok (hin : (s.mproc child).inUse = true)
    (hzombie : ∀ q, (s.mproc q).hanging = true → (s.mproc q).inUse = true) :
    ∃ s', cleanup nrProcs s child = .ok s' ∧ Reaped (goneWith s child) s s' ∧
      (s'.mproc child).inUse = false := by
  refine cleanup_spec 31 hin hzombie (.inr fun t rp hrp hz hp => ?_)
  exact cleanup_spec 30 hrp hz (.inl hp)

/-- Releasing the slots of zombies leaves every image where it is. -/
theorem Owned.of_reaped {gone : ProcNr → Prop} (h : Owned L s) (hr : Reaped gone s s')
    (hg : ∀ q, gone q → (s.mproc q).hanging = true) : Owned L s' ∧ ∀ q, alive s' q = alive s q := by
  have halive : ∀ q, alive s' q = alive s q := by
    intro q
    rcases hr.slot q with ⟨hu, hh⟩ | ⟨hq, hu, hh⟩
    · rw [alive, alive, hu, hh]
    · simp [alive, hu, hg q hq]
  have himages : images s' = images s := by
    unfold images
    rw [show users s' = users s from List.filter_congr fun q _ => halive q]
    exact List.map_congr_left fun q _ => by rw [hr.seg q]
  refine ⟨⟨fun q hq => ?_, hr.zombie h.zombie, ?_, ?_, fun q hq => ?_, fun q hq => ?_,
    fun q hq => ?_, fun q hq => ?_, ?_, ?_⟩, halive⟩
  · have hserver := h.servers q hq
    rcases hr.slot q with ⟨hu, hh⟩ | ⟨hgone, -, -⟩
    · rw [hu, hh]
      exact hserver
    · rw [hg q hgone] at hserver
      exact absurd hserver.2 (by decide)
  · have := hr.count
    have := h.count
    omega
  · rw [hr.nextPid]
    exact h.pids
  · rw [halive] at hq
    rw [hr.pid]
    exact h.pid_pos q hq
  · rw [halive] at hq
    rw [hr.pMap, hr.seg]
    exact h.agree q hq
  · rw [halive] at hq
    rw [hr.seg]
    exact h.shape q hq
  · rw [hr.slotFree, halive]
    exact h.slot q hq
  · rw [hr.holes, himages]
    exact h.tiled
  · rw [hr.events, himages]
    exact h.ledger

/-! ## §5 Images -/

section Images

variable {L : Layout} {s s' : MmState} {p : ProcNr}

theorem mem_users : p ∈ users s ↔ alive s p = true := by
  simp [users]

theorem users_length_le (s : MmState) : (users s).length ≤ 32 := by
  simpa [users] using List.length_filter_le (alive s) (List.finRange nrProcs)

/-- The images of two live processes do not overlap. -/
theorem Owned.apart (h : Owned L s) {q : ProcNr} (hp : alive s p = true) (hq : alive s q = true)
    (hne : p ≠ q) :
    (image (s.mproc p).seg).area.Apart (image (s.mproc q).seg).area := by
  obtain ⟨areas, htiled⟩ := h.tiled
  have hpair := (List.pairwise_append.mp htiled.partition.apart).2.1
  rw [images, List.map_map, List.pairwise_map] at hpair
  have hpair' : (users s).Pairwise fun p q =>
    (image (s.mproc p).seg).area.Apart (image (s.mproc q).seg).area := hpair
  have : Std.Symm fun p q => (image (s.mproc p).seg).area.Apart (image (s.mproc q).seg).area :=
    ⟨fun _ _ hab => hab.symm⟩
  exact hpair'.forall (mem_users.mpr hp) (mem_users.mpr hq) hne

/-- Every image ends below `2 ^ 16`. -/
theorem image_clicks_lt {seg : MemMaps} (h : Shape seg) : (image seg).clicks < 65536 := by
  have := h.physTop
  simp only [image]
  omega

/-- The block of an image holds the whole image. -/
theorem Owned.le_block (h : Owned L s) (hp : alive s p = true) :
    (image (s.mproc p).seg).clicks ≤ evenClicks (image (s.mproc p).seg).clicks ∧
      0 < evenClicks (image (s.mproc p).seg).clicks := by
  obtain ⟨areas, htiled⟩ := h.tiled
  have hpos : 0 < evenClicks (image (s.mproc p).seg).clicks :=
    htiled.partition.pos (image (s.mproc p).seg).area
      (List.mem_append_right _ (List.mem_map_of_mem (List.mem_map_of_mem (mem_users.mpr hp))))
  refine ⟨le_evenClicks (lt_of_evenClicks_ne_zero (image_clicks_lt (h.shape p hp)) ?_), hpos⟩
  exact Nat.pos_iff_ne_zero.mp hpos

/-- The data segments of two live processes start at different addresses, so the kernel
never takes one for the shadow of the other. -/
theorem Owned.dataPhys_ne (h : Owned L s) {q : ProcNr} (hp : alive s p = true)
    (hq : alive s q = true) (hne : p ≠ q) :
    (s.mproc p).seg.data.memPhys ≠ (s.mproc q).seg.data.memPhys := by
  have hapart := h.apart hp hq hne
  have hbp := (h.le_block hp).1
  have hbq := (h.le_block hq).1
  obtain ⟨-, hdp, -, -, -, -, hnp⟩ := h.shape p hp
  obtain ⟨-, hdq, -, -, -, -, hnq⟩ := h.shape q hq
  simp only [Area.Apart, Area.stop, Block.area] at hapart
  simp only [image] at hapart hbp hbq
  omega

end Images

/-! ## §6 The end of a process -/

/-- The process `p` is no longer live, but its memory has not been freed yet. -/
structure Departed (p : ProcNr) (s s' : MmState) : Prop where
  gone : alive s' p = false
  others : ∀ q, q ≠ p → alive s' q = alive s q
  servers : ∀ q, q < initProcNr → (s'.mproc q).inUse = true ∧ (s'.mproc q).hanging = false
  zombie : ∀ q, (s'.mproc q).hanging = true → (s'.mproc q).inUse = true
  seg : ∀ q, (s'.mproc q).seg = (s.mproc q).seg
  pid : ∀ q, (s'.mproc q).pid = (s.mproc q).pid
  count : s'.procsInUse - slotsInUse s' = s.procsInUse - slotsInUse s
  nextPid : s'.nextPid = s.nextPid
  holes : s'.holes = s.holes
  pMap : s'.pMap = s.pMap
  slotFree : s'.slotFree = s.slotFree
  events : s'.events = s.events
  frame : ∀ q, q ≠ p → (s'.mproc q).hanging = true →
    zombiePart (s'.mproc q) = zombiePart (s.mproc q)

theorem Departed.users_perm (h : Departed p s s') (hp : alive s p = true) :
    (users s).Perm (p :: users s') :=
  filter_perm_cons (List.nodup_finRange nrProcs) (List.mem_finRange _) hp h.gone
    fun q hq => (h.others q hq).symm

theorem Departed.images_perm (h : Departed p s s') (hp : alive s p = true) :
    (images s).Perm (image (s.mproc p).seg :: images s') := by
  have hmap := (h.users_perm hp).map fun q => image (s.mproc q).seg
  have hsame : (users s').map (fun q => image (s.mproc q).seg) = images s' :=
    List.map_congr_left fun q _ => by rw [h.seg q]
  rw [List.map_cons, hsame] at hmap
  exact hmap

theorem Departed.modify (h : Departed p s s')
    (hf : ∀ m, memPart (f m) = memPart m) : Departed p s (s'.modify p f) := by
  have hsame : SameMem s' (s'.modify p f) := SameMem.modify s' p hf
  refine ⟨?_, fun q hq => ?_, fun q hq => ?_, fun q hq => ?_, fun q => ?_, fun q => ?_, ?_, ?_, ?_, ?_,
    ?_, ?_, fun q hq hh => ?_⟩
  · rw [hsame.alive, h.gone]
  · rw [hsame.alive, h.others q hq]
  · rw [hsame.inUse, hsame.hanging]
    exact h.servers q hq
  · rw [hsame.hanging] at hq
    rw [hsame.inUse]
    exact h.zombie q hq
  · rw [hsame.seg, h.seg]
  · rw [hsame.pid, h.pid]
  · rw [hsame.procsInUse, hsame.slotsInUse, h.count]
  · rw [hsame.nextPid, h.nextPid]
  · rw [hsame.holes, h.holes]
  · rw [hsame.pMap, h.pMap]
  · rw [hsame.slotFree, h.slotFree]
  · rw [hsame.events, h.events]
  · rw [mproc_modify_of_ne hq] at hh ⊢
    exact h.frame q hq hh

/-- **The memory of a process is freed when it has departed**, and with it the invariant is
restored. -/
theorem Departed.release {s₁ : MmState} (hd : Departed p s s₁) (h : Owned L s)
    (hp : alive s p = true) :
    ∃ s₂, ((sysXit s₁ p).bind fun (t, base, size) => releaseMem t base size) = .ok s₂ ∧
      Owned L s₂ ∧ s₂.mproc = s₁.mproc := by
  have hmap : s₁.pMap p = (s.mproc p).seg := by rw [hd.pMap, h.agree p hp]
  have hshape := h.shape p hp
  have hmm : rmshadow s₁ p = .ok ((image (s.mproc p).seg).base, (image (s.mproc p).seg).clicks) := by
    rw [rmshadow_eq (hmap ▸ hshape), hmap]
    intro q hq hfree hne
    rw [hd.slotFree, h.slot q hq] at hfree
    have hqa : alive s q = true := by simpa using hfree
    rw [hd.pMap, h.agree q hqa, h.agree p hp]
    exact h.dataPhys_ne hqa hp hne
  -- the block goes back to the hole list
  obtain ⟨areas, htiled⟩ := h.tiled
  have himages := hd.images_perm hp
  have hblocks : (L.system ++ (images s).map Block.area).Perm
      ((image (s.mproc p).seg).area :: (L.system ++ (images s₁).map Block.area)) :=
    ((himages.map Block.area).append_left L.system).trans List.perm_middle
  have hshort : (L.system ++ (images s₁).map Block.area).length < 126 := by
    have hsys := L.system_short
    have husers := users_length_le s₁
    simp only [images, List.length_append, List.length_map] at husers ⊢
    omega
  obtain ⟨t, hfree, htiled'⟩ := (htiled.perm hblocks).free L.size_lt hshort
  obtain ⟨bs, hbs, hperm⟩ := h.ledger
  have hmem : image (s.mproc p).seg ∈ bs :=
    (hperm.trans himages).mem_iff.mpr (List.mem_cons_self ..)
  set s₂ : MmState := { s₁ with
    slotFree := Function.update s₁.slotFree p true
    holes := t
    events := .free (image (s.mproc p).seg) :: s₁.events } with hs2
  refine ⟨s₂, ?_, ?_, rfl⟩
  · simp only [sysXit, hmm, Except.map, Except.bind, releaseMem, hd.holes, hfree]
    rfl
  · have halive : ∀ q, alive s₂ q = alive s₁ q := fun _ => rfl
    have hal : ∀ q, alive s₁ q = true → q ≠ p ∧ alive s q = true := by
      intro q hq
      have hne : q ≠ p := fun heq => by
        rw [heq, hd.gone] at hq
        exact absurd hq (by decide)
      exact ⟨hne, by rw [← hd.others q hne]; exact hq⟩
    refine ⟨hd.servers, hd.zombie, ?_, ?_, fun q hq => ?_, fun q hq => ?_, fun q hq => ?_, fun q hq => ?_,
      ⟨_, htiled'⟩, ?_⟩
    · have hcount := hd.count
      have hc := h.count
      have hslots : slotsInUse s₂ = slotsInUse s₁ := rfl
      have hproc : s₂.procsInUse = s₁.procsInUse := rfl
      omega
    · have : s₂.nextPid = s₁.nextPid := rfl
      rw [this, hd.nextPid]
      exact h.pids
    · rw [show (s₂.mproc q).pid = (s₁.mproc q).pid from rfl, hd.pid]
      exact h.pid_pos q (hal q hq).2
    · rw [show s₂.pMap = s₁.pMap from rfl, show s₂.mproc = s₁.mproc from rfl, hd.pMap, hd.seg]
      exact h.agree q (hal q hq).2
    · rw [show s₂.mproc = s₁.mproc from rfl, hd.seg]
      exact h.shape q (hal q hq).2
    · by_cases hqp : q = p
      · rw [hqp, halive, hd.gone, hs2]
        simp
      · rw [halive, hd.others q hqp, ← h.slot q hq, hs2]
        simp [hqp, hd.slotFree]
    · refine ⟨bs.erase (image (s.mproc p).seg), ?_, ?_⟩
      · show (replay L.first s₁.events).bind _ = _
        rw [hd.events, hbs, Option.bind_some, if_pos hmem]
      · have := (hperm.trans himages).erase (image (s.mproc p).seg)
        rwa [List.erase_cons_head] at this

/-- What is known of the other processes while `p` is dealt with. -/
structure Spared (p : ProcNr) (s s' : MmState) : Prop where
  alive : ∀ q, q ≠ p → alive s' q = alive s q
  zombies : ∀ q, q ≠ p → (s'.mproc q).hanging = true →
    zombiePart (s'.mproc q) = zombiePart (s.mproc q)

namespace Spared

variable {p : ProcNr} {s s' s'' : MmState}
variable {f : Mproc → Mproc}

theorem refl (p : ProcNr) (s : MmState) : Spared p s s := ⟨fun _ _ => rfl, fun _ _ _ => rfl⟩

theorem trans (h : Spared p s s') (h' : Spared p s' s'') : Spared p s s'' where
  alive q hq := (h'.alive q hq).trans (h.alive q hq)
  zombies q hq hh := by
    have h1 := h'.zombies q hq hh
    have hh' : (s'.mproc q).hanging = true := (congrArg Prod.fst h1).symm.trans hh
    exact h1.trans (h.zombies q hq hh')

theorem of_sameMem (h : SameMem s s')
    (hz : ∀ q, q ≠ p → zombiePart (s'.mproc q) = zombiePart (s.mproc q)) : Spared p s s' :=
  ⟨fun q _ => h.alive q, fun q hq _ => hz q hq⟩

theorem modify (p : ProcNr) (s : MmState) (hf : ∀ m, memPart (f m) = memPart m) :
    Spared p s (s.modify p f) :=
  of_sameMem (SameMem.modify s p hf) fun _ hq => by rw [mproc_modify_of_ne hq]

theorem reply (p q : ProcNr) (s : MmState) (result : ℤ) (res2 : ℕ) :
    Spared p s (reply s q result res2) := by
  refine of_sameMem (SameMem.reply ..) fun r _ => ?_
  unfold Mm.reply
  split <;> rfl

theorem then_modify (h : Spared p s s') (hf : ∀ m, memPart (f m) = memPart m) :
    Spared p s (s'.modify p f) :=
  h.trans (modify p s' hf)

/-- A change of any slot that neither memory nor the handling of zombies depends on. -/
theorem then_modify_any (h : Spared p s s') (r : ProcNr) (hf : ∀ m, memPart (f m) = memPart m)
    (hz : ∀ m, zombiePart (f m) = zombiePart m) : Spared p s (s'.modify r f) := by
  refine h.trans (of_sameMem (SameMem.modify s' r hf) fun q _ => ?_)
  by_cases hq : q = r
  · rw [hq, mproc_modify_self, hz]
  · rw [mproc_modify_of_ne hq]

theorem then_reply (h : Spared p s s') (q : ProcNr) (result : ℤ) (res2 : ℕ) :
    Spared p s (Mm.reply s' q result res2) :=
  h.trans (reply p q s' result res2)

end Spared

/-- **`mm_exit` frees the image of a live process once**, and no other. -/
theorem mmExit_spec (h : Owned L s) (hp : alive s p = true) (status : ℤ) :
    ∃ s', mmExit s p status = .ok s' ∧ Owned L s' ∧ Spared p s s' ∧ alive s' p = false := by
  set s₀ := (s.modify p fun m => { m with exitstatus := (status % 256).toNat }).note
    (.ended p (s.mproc p).sigstatus (status % 256).toNat) with hs0
  have hstatus : SameMem s (s.modify p fun m => { m with exitstatus := (status % 256).toNat }) :=
    SameMem.modify _ _ fun _ => rfl
  have hsame : SameMem s s₀ := hstatus.trans (SameMem.note ..)
  have h0 := h.of_sameMem hsame
  have hp0 : alive s₀ p = true := by rw [hsame.alive, hp]
  have hpin : (s₀.mproc p).inUse = true := by
    simp only [alive, Bool.and_eq_true] at hp0
    exact hp0.1.2
  have hpinit : initProcNr ≤ p := by
    simp only [alive, Bool.and_eq_true, decide_eq_true_eq] at hp0
    exact hp0.1.1
  -- the process departs: its slot is released, or it becomes a zombie
  have hdepart : ∃ s₁, leaveSlot s₀ p = .ok s₁ ∧ Departed p s₀ s₁ := by
    unfold leaveSlot
    split
    · obtain ⟨s₁, hrun, hr, hgone⟩ := cleanup_ok hpin h0.zombie
      refine ⟨s₁, hrun, by simp [alive, hgone], fun q hq => ?_, fun q hq => ?_, hr.zombie h0.zombie,
        hr.seg, hr.pid, hr.count, hr.nextPid, hr.holes, hr.pMap, hr.slotFree, hr.events,
        fun q _ hq => hr.zombies q hq⟩
      · rcases hr.slot q with ⟨hu, hh⟩ | ⟨hg, hu, hh⟩
        · rw [alive, alive, hu, hh]
        · have hz : (s₀.mproc q).hanging = true := hg.resolve_left hq
          simp [alive, hu, hz]
      · have hserver := h0.servers q hq
        rcases hr.slot q with ⟨hu, hh⟩ | ⟨hg, -, -⟩
        · rw [hu, hh]
          exact hserver
        · rcases hg with rfl | hg
          · exact absurd hq (not_lt.mpr hpinit)
          · rw [hg] at hserver
            exact absurd hserver.2 (by decide)
    · refine ⟨_, rfl, ?_⟩
      set s₁ := (s₀.modify p fun m => { m with hanging := true }).note (.hung p) with hs1
      have hself : s₁.mproc p = { s₀.mproc p with hanging := true } := by
        rw [hs1, mproc_note, mproc_modify_self]
      have hother : ∀ q, q ≠ p → s₁.mproc q = s₀.mproc q := fun q hq => by
        rw [hs1, mproc_note, mproc_modify_of_ne hq]
      have hpart : ∀ q, (s₁.mproc q).seg = (s₀.mproc q).seg ∧ (s₁.mproc q).pid = (s₀.mproc q).pid ∧
          (s₁.mproc q).inUse = (s₀.mproc q).inUse := by
        intro q
        by_cases hq : q = p
        · rw [hq, hself]
          exact ⟨rfl, rfl, rfl⟩
        · rw [hother q hq]
          exact ⟨rfl, rfl, rfl⟩
      refine ⟨by simp [alive, hself], fun q hq => ?_, fun q hq => ?_, fun q hq => ?_,
        fun q => (hpart q).1, fun q => (hpart q).2.1, ?_, rfl, rfl, rfl, rfl, rfl,
        fun q hq _ => by rw [hother q hq]⟩
      · rw [alive, alive, hother q hq]
      · rw [hother q fun heq => absurd hq (not_lt.mpr (heq ▸ hpinit))]
        exact h0.servers q hq
      · rw [(hpart q).2.2]
        by_cases hqp : q = p
        · rw [hqp]
          exact hpin
        · rw [hother q hqp] at hq
          exact h0.zombie q hq
      · have hslots : slotsInUse s₁ = slotsInUse s₀ :=
          List.countP_congr fun q _ => by rw [(hpart q).2.2]
        rw [hslots]
        rfl
  obtain ⟨s₁, hrun1, hd⟩ := hdepart
  have hd2 := hd.modify (f := fun m => { m with alarmOn := false }) fun _ => rfl
  obtain ⟨s', hrun2, hown, hmproc⟩ := hd2.release h0 hp0
  have halive : ∀ q, alive s' q = alive (s₁.modify p fun m => { m with alarmOn := false }) q :=
    fun q => by rw [alive, alive, hmproc]
  refine ⟨s', ?_, hown, ?_, by rw [halive, hd2.gone]⟩
  · unfold mmExit
    rw [← hs0, hrun1]
    exact hrun2
  · have hmodify : Spared p s (s.modify p fun m =>
        { m with exitstatus := (status % 256).toNat }) := Spared.modify p s fun _ => rfl
    have hspared : Spared p s s₀ := ⟨hmodify.alive, hmodify.zombies⟩
    refine hspared.trans ⟨fun q hq => ?_, fun q hq hh => ?_⟩
    · rw [halive, hd2.others q hq]
    · rw [hmproc] at hh ⊢
      exact hd2.frame q hq hh

end LisaMinix.Mm
