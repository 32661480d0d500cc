import LisaMinix.Kernel.IpcRuns
import LisaMinix.Mm.OwnedCalls

/-!
# Message Buffers of User Processes

`mini_send` checks the buffer of a message against the data segment of the caller, by the click of
its last byte; `cp_mess` copies from and to the buffer at once or later, when the map of the process
may have changed.  The maps that MM installs keep a shape (`MapOk`), for which the check is right
but for one case: when the text segment is empty, a message that starts in the click below the data
segment and ends in its first click is accepted, and is not inside the image.  This is the map of
INIT, and of its children until they execute a program.

## References

`src/kernel/proc.c` (`mini_send`, `mini_rec`, `cp_mess`), `src/mm/break.c` (`adjust`),
`src/mm/exec.c` (`new_mem`).
-/

namespace LisaMinix.Kernel

open LisaMinix.Library Function
open LisaMinix.Mm (MemMap MemMaps MmState ProcNr Env ExecFile clickOf toClicks subClicks nrProcs)

variable {m m' : MemMaps} {mPtr : ℤ} {k : KState}

/-! ## §1 What a map describes -/

/-- The address on the bus of the byte at `a`, as `cp_mess` computes it. -/
def busAddr (m : MemMap) (a : ℤ) : ℤ :=
  (a + ((m.memPhys : ℤ) * 256 - (m.memVir : ℤ) * 256)) % 2 ^ 24

/-- The number of clicks from the start of the data to the end of the stack. -/
def dataExtent (m : MemMaps) : ℤ :=
  ((m.stack.memPhys : ℤ) + m.stack.memLen - m.data.memPhys) % 65536

/-- The click `c` belongs to the image that the map describes: to the text, or to what lies from
the start of the data to the end of the stack. -/
def Describes (m : MemMaps) (c : ℤ) : Prop :=
  (c - m.text.memPhys) % 65536 < m.text.memLen ∨ (c - m.data.memPhys) % 65536 < dataExtent m

instance (m : MemMaps) (c : ℤ) : Decidable (Describes m c) := inferInstanceAs (Decidable (_ ∨ _))

/-- Every byte of a message at `mPtr` is in the image. -/
def Inside (m : MemMaps) (mPtr : ℤ) : Prop :=
  ∀ i, 0 ≤ i → i < messSize → Describes m (busAddr m.data (mPtr + i) / 256)

/-- The message starts in the click below the data segment and ends in the first click of it,
and there is no text segment. -/
def Straddles (m : MemMaps) (mPtr : ℤ) : Prop :=
  m.text.memLen = 0 ∧ clickOf mPtr + 1 = m.data.memVir ∧
    clickOf (mPtr + messSize - 1) = m.data.memVir

instance (m : MemMaps) (mPtr : ℤ) : Decidable (Straddles m mPtr) :=
  inferInstanceAs (Decidable (_ ∧ _))

/-- The shape of the maps that MM installs, with addresses and lengths of 16 bits. -/
structure MapOk (m : MemMaps) : Prop where
  /-- the data is right above the text -/
  adjacent : ((m.data.memPhys : ℤ) - m.text.memPhys - m.text.memLen) % 65536 = 0
  /-- the gap is as large in virtual memory as in physical memory -/
  gap : ((m.stack.memPhys : ℤ) - m.data.memPhys - (m.stack.memVir - m.data.memVir)) % 65536 = 0
  dataLen : (m.data.memLen : ℤ) ≤ dataExtent m
  order : m.data.memVir ≤ m.stack.memVir →
    m.stack.memVir + m.stack.memLen < m.data.memVir + 65536
  textLen : m.text.memLen < 65536
  textPhys : m.text.memPhys < 65536
  dataVir : m.data.memVir < 65536
  stackVir : m.stack.memVir < 65536

theorem busAddr_click (m : MemMap) (a : ℤ) :
    busAddr m a / 256 = (a / 256 + m.memPhys - m.memVir) % 65536 := by
  unfold busAddr
  omega

/-- Where a buffer is in the image depends only on the distances between the segments. -/
theorem Inside.congr (h : Inside m mPtr) (hvir : m'.data.memVir = m.data.memVir)
    (hlen : m'.text.memLen = m.text.memLen) (hext : dataExtent m' = dataExtent m)
    (hdist : ((m'.data.memPhys : ℤ) - m'.text.memPhys - (m.data.memPhys - m.text.memPhys)) % 65536 = 0) :
    Inside m' mPtr := by
  intro i h0 hi
  have hin := h i h0 hi
  simp only [Describes, busAddr_click, hvir, hlen, hext] at hin ⊢
  rcases hin with htext | hdata
  · left
    omega
  · right
    omega

/-- **The check of `mini_send` is right unless the message straddles the start of the image.** -/
theorem inside_iff (h : MapOk m) (hok : ¬ KState.badAddr m.data mPtr) :
    Inside m mPtr ↔ ¬ Straddles m mPtr := by
  obtain ⟨hadj, -, hlen, -, htext, -, hvir, -⟩ := h
  simp only [KState.badAddr, not_or, not_lt, not_le] at hok
  obtain ⟨hwrap, hlast⟩ := hok
  have hext : dataExtent m < 65536 := Int.emod_lt_of_pos _ (by decide)
  unfold clickOf at hwrap hlast
  simp only [messSize] at hwrap hlast
  constructor
  · rintro hin ⟨hnone, hlow, hhigh⟩
    have hfirst := hin 0 (le_refl 0) (by decide)
    unfold clickOf at hlow hhigh
    simp only [messSize] at hhigh
    simp only [Describes, busAddr_click, hnone] at hfirst
    omega
  · intro hnot i h0 hi
    simp only [messSize] at hi
    simp only [Describes, busAddr_click]
    -- the byte is in the click of the last byte, or in the one below it
    have hclick : (mPtr + i) / 256 = (mPtr + 26 - 1) / 256 ∨
        ((mPtr + i) / 256 = mPtr / 256 ∧ (mPtr + 26 - 1) / 256 = mPtr / 256 + 1) := by
      omega
    rcases hclick with heq | ⟨heq, hnext⟩
    · right
      rw [heq]
      omega
    · by_cases hzero : ((mPtr + 26 - 1) / 256 - m.data.memVir) % 65536 = 0
      · -- the click below the data segment is the last one of the text
        by_cases hnone : m.text.memLen = 0
        · exfalso
          apply hnot
          refine ⟨hnone, ?_, ?_⟩
          · unfold clickOf
            omega
          · unfold clickOf
            simp only [messSize]
            omega
        · left
          rw [heq]
          omega
      · right
        rw [heq]
        omega

/-! ## §2 The maps that MM installs -/

/-- `sys_newmap` after a change of a map: by `do_brk`, or by `adjust` for a stack that grows (a
stack fault, or a signal that is caught). -/
inductive Adjusted (m : MemMaps) : MemMaps → Prop
  | brk (s : MmState) (env : Env) (q : ProcNr) (addr : ℤ) (hm : (s.mproc q).seg = m) :
      Adjusted m ((Mm.doBrk s env q addr).1.mproc q).seg
  | stack (s : MmState) (q : ProcNr) (sp : ℤ) (hm : (s.mproc q).seg = m) :
      Adjusted m ((Mm.adjust s q m.data.memLen sp).1.mproc q).seg

/-- The map of a new image, which `new_mem` installs at `base` when a file has passed the checks
of `do_exec`. -/
def Fresh (m : MemMaps) : Prop :=
  ∃ (f : ExecFile) (stackBytes : ℤ) (base : ℕ), base < 65536 ∧ 0 ≤ stackBytes ∧
    stackBytes ≤ Mm.argMax ∧ Mm.readHeader f (f.sizes stackBytes) = true ∧
    (f.sizes stackBytes).gap < 32768 ∧ m = (f.sizes stackBytes).seg base

/-- The map of INIT, whose program follows MINIX at `org`. -/
def IsInitMap (m : MemMaps) : Prop :=
  ∃ org text data, org + (text + data) < 65536 ∧ m = Mm.initSeg org text data

/-- Where the segments are has not changed, as far as a message can tell. -/
structure SamePlace (m m' : MemMaps) : Prop where
  vir : m'.data.memVir = m.data.memVir
  len : m'.text.memLen = m.text.memLen
  extent : dataExtent m' = dataExtent m
  dist : ((m'.data.memPhys : ℤ) - m'.text.memPhys - (m.data.memPhys - m.text.memPhys)) % 65536 = 0

theorem SamePlace.refl (m : MemMaps) : SamePlace m m := ⟨rfl, rfl, rfl, by simp⟩

theorem Inside.moved (h : Inside m mPtr) (hsame : SamePlace m m') : Inside m' mPtr :=
  h.congr hsame.vir hsame.len hsame.extent hsame.dist

/-- Clicks go from the gap to the data or to the stack, or back; `hdata` says that the data stays
below the stack. -/
theorem adjustedSeg_mapOk (h : MapOk m) {dataClicks grow : ℕ} (hgrow : grow ≤ m.stack.memVir)
    (hdata : dataClicks = m.data.memLen ∨ m.data.memVir + dataClicks ≤ m.stack.memVir - grow) :
    MapOk (Mm.adjustedSeg m dataClicks grow) ∧ SamePlace m (Mm.adjustedSeg m dataClicks grow) := by
  obtain ⟨hadj, hgap, hlen, hord, htl, htp, hvir, hsv⟩ := h
  have hext : dataExtent (Mm.adjustedSeg m dataClicks grow) = dataExtent m := by
    simp only [dataExtent, Mm.adjustedSeg, subClicks, toClicks]
    omega
  refine ⟨⟨hadj, ?_, ?_, ?_, htl, htp, hvir, ?_⟩, rfl, rfl, hext, by simp [Mm.adjustedSeg]⟩
  · simp only [Mm.adjustedSeg, subClicks]
    omega
  · rw [hext]
    rcases hdata with rfl | hdata
    · exact hlen
    · simp only [Mm.adjustedSeg]
      simp only [dataExtent] at hlen ⊢
      omega
  · intro hle
    simp only [Mm.adjustedSeg, toClicks] at hle ⊢
    omega
  · simp only [Mm.adjustedSeg]
    omega

theorem adjust_mapOk (h : MapOk m) {s : MmState} {q : ProcNr} (hm : (s.mproc q).seg = m)
    {dataClicks : ℕ} (hdata : dataClicks = m.data.memLen ∨ m.data.memVir + dataClicks < 65536)
    (sp : ℤ) : MapOk ((Mm.adjust s q dataClicks sp).1.mproc q).seg ∧
      SamePlace m ((Mm.adjust s q dataClicks sp).1.mproc q).seg := by
  have hsame : MapOk (s.mproc q).seg ∧ SamePlace m (s.mproc q).seg := by
    rw [hm]
    exact ⟨h, SamePlace.refl m⟩
  unfold Mm.adjust
  simp only
  split
  · exact hsame
  split
  · exact hsame
  split
  · exact hsame
  split
  next hok =>
    have hbelow : dataClicks = m.data.memLen ∨ m.data.memVir + dataClicks ≤
        m.stack.memVir - (m.stack.memVir - clickOf sp) := by
      rcases hdata with heq | hlt
      · exact .inl heq
      · right
        simp only [Mm.sizeOk, Bool.not_eq_true', decide_eq_false_iff_not, not_lt, hm] at hok
        rwa [Mm.toClicks_of_lt hlt] at hok
    have hadjusted := adjustedSeg_mapOk h (Nat.sub_le _ _) hbelow
    rw [hm]
    split
    · simpa [Mm.sysNewmap, MmState.modify, MmState.set] using hadjusted
    · simpa [MmState.modify, MmState.set] using hadjusted
  next => exact hsame

/-- A map that is adjusted keeps its shape, and its segments stay where they are. -/
theorem Adjusted.mapOk (h : MapOk m) (ha : Adjusted m m') : MapOk m' ∧ SamePlace m m' := by
  cases ha with
  | brk s env q addr hm =>
    unfold Mm.doBrk
    simp only
    split
    · rw [hm]
      exact ⟨h, SamePlace.refl m⟩
    next hge =>
      apply adjust_mapOk h hm
      right
      have := Mm.clicksOf_lt addr
      rw [hm] at hge ⊢
      omega
  | stack s q sp hm => exact adjust_mapOk h hm (.inl rfl) sp

theorem Fresh.mapOk (h : Fresh m) : MapOk m := by
  obtain ⟨f, stackBytes, base, hbase, hpos, hmax, hread, hgap, rfl⟩ := h
  have hz := Mm.feasible_of_checks hmax hpos hread hgap
  have hsum := Mm.gap_eq hz
  have htext : (f.sizes stackBytes).text < 65536 := Mm.clicksOf_lt _
  obtain ⟨hdata, hstack, -, htot⟩ := hz
  simp only [Mm.ImageSizes.seg, toClicks]
  constructor <;> simp only [dataExtent] <;> omega

theorem IsInitMap.mapOk (h : IsInitMap m) : MapOk m := by
  obtain ⟨org, text, data, hsum, rfl⟩ := h
  simp only [Mm.initSeg, toClicks]
  constructor <;> simp only [dataExtent] <;> omega

/-- What the kernel computes for a segment of a child is the distance from the parent's text,
modulo 16 bits. -/
theorem toClicks_moved (base phys : ℕ) {org : ℕ} (horg : org < 65536) :
    ∃ q : ℤ, (toClicks (base + (phys + 65536 - org)) : ℤ) = base + phys - org + 65536 * q := by
  refine ⟨1 - ((base + (phys + 65536 - org)) / 65536 : ℕ), ?_⟩
  simp only [toClicks]
  omega

/-- The map that the kernel makes for a child. -/
theorem childMap_mapOk (h : MapOk m) (base : ℕ) :
    MapOk (childMap m base) ∧ SamePlace m (childMap m base) := by
  obtain ⟨hadj, hgap, hlen, hord, htl, htp, hvir, hsv⟩ := h
  obtain ⟨t, ht⟩ := toClicks_moved base m.text.memPhys htp
  obtain ⟨d, hd⟩ := toClicks_moved base m.data.memPhys htp
  obtain ⟨u, hu⟩ := toClicks_moved base m.stack.memPhys htp
  have hext : dataExtent (childMap m base) = dataExtent m := by
    simp only [dataExtent, childMap, hd, hu]
    omega
  refine ⟨⟨?_, ?_, hext ▸ hlen, hord, htl, Nat.mod_lt _ (by decide), hvir, hsv⟩, rfl, rfl, hext, ?_⟩
  · simp only [childMap, ht, hd]
    omega
  · simp only [childMap, hd, hu]
    omega
  · simp only [childMap, ht, hd]
    omega

/-! ## §3 Runs -/

/-- The kernel, and which processes have got the map of a new image but have not been started
again by `sys_exec`. -/
structure BufState where
  k : KState
  loading : ProcPtr → Bool

/-- An event of the kernel, or `sys_fresh`, which installs the map of a new image as `sys_newmap`
does. -/
inductive BufEvent
  | kernel (e : Event)
  | fresh (proc1 : ℤ) (map : MemMaps)

/-- The process that an event starts again, frees, or puts in its slot. -/
def startedBy (e : Event) : Option ProcPtr := (execedBy e).or (renewedBy e)

namespace BufState

def perform (s : BufState) : BufEvent → Except Fault BufState
  | .kernel e => (s.k.perform e).map fun res =>
      { k := res.2
        loading := match startedBy e with
          | some p => update s.loading p false
          | none => s.loading }
  | .fresh proc1 map => (s.k.perform (.newmap proc1 map)).map fun res =>
      { k := res.2
        loading := match procAddr proc1 with
          | some p => update s.loading p true
          | none => s.loading }

/-- What MM promises besides: it adjusts maps with `adjust`, makes new ones for processes that
wait for its answer, and does not answer or fork a process while it makes a new image for it. -/
def Promised (s : BufState) : BufEvent → Prop
  | .kernel e => Kernel.Promised s.k e ∧
      match e with
      | .newmap proc1 map => ∀ p, procAddr proc1 = some p → isuserp p → Adjusted (s.k.pMap p) map
      | .sysCall _ srcDest _ => ∀ p, procAddr srcDest = some p → s.loading p = false
      | .fork proc1 _ _ => ∀ p, susern proc1 = some p → isuserp p ∧ s.loading p = false
      | _ => True
  | .fresh proc1 map => 0 ≤ proc1 ∧ Fresh map ∧ ∀ p, procAddr proc1 = some p → isuserp p ∧
      (s.k.pFlags p).receiving = true ∧ (s.k.pFlags p).sending = false

/-- The message that a user process sends does not straddle the start of its image. -/
def Above (s : BufState) : BufEvent → Prop
  | .kernel (.sysCall _ _ mPtr) => isuserp s.k.rdy.procPtr →
      ¬ Straddles (s.k.pMap s.k.rdy.procPtr) mPtr
  | _ => True

end BufState

/-- The states that are reached by events that are `allowed`. -/
inductive BufReached (allowed : BufState → BufEvent → Prop) (L : Layout)
    (map : ProcPtr → MemMaps) (memory : Cell → Message) : BufState → Prop
  | boot {k : KState} (h : boot L map memory = .ok k) :
      BufReached allowed L map memory ⟨k, fun _ => false⟩
  | step {s s' : BufState} {e : BufEvent} (hs : BufReached allowed L map memory s)
      (hp : allowed s e) (h : s.perform e = .ok s') : BufReached allowed L map memory s'

/-- `cp_mess` touches no byte outside the image of a user process.  It is called with the buffer
of a process that waits to send or to receive, with the map that the process has then, or with
the buffer of the running process, when `mini_send` has accepted it. -/
structure Contained (s : BufState) : Prop where
  waiting : ∀ p, isuserp p → InUse s.k p →
    (s.k.pFlags p).sending = true ∨ ((s.k.pFlags p).receiving = true ∧ s.loading p = false) →
    Inside (s.k.pMap p) (s.k.pMessbuf p)
  running : ∀ mPtr, isuserp s.k.rdy.procPtr → InUse s.k s.k.rdy.procPtr →
    ¬ KState.badAddr (s.k.pMap s.k.rdy.procPtr).data mPtr →
    ¬ Straddles (s.k.pMap s.k.rdy.procPtr) mPtr → Inside (s.k.pMap s.k.rdy.procPtr) mPtr

/-! ## §4 Every event keeps the buffers inside -/

/-- What is true of a process: the shape of its map, that it waits for an answer while it is being
loaded, and the buffer it waits with. -/
structure BufOk (k : KState) (loading : Bool) (p : ProcPtr) : Prop where
  map : isuserp p → InUse k p → MapOk (k.pMap p)
  load : loading = true → isuserp p ∧ (k.pFlags p).receiving = true ∧ (k.pFlags p).sending = false
  waiting : isuserp p → InUse k p →
    (k.pFlags p).sending = true ∨ ((k.pFlags p).receiving = true ∧ loading = false) →
    Inside (k.pMap p) (k.pMessbuf p)

/-- The invariant of a run. -/
def BufInv (s : BufState) : Prop := ∀ p, BufOk s.k (s.loading p) p

/-- What a step may do to a process: nothing to its map, and it waits no more than before, or with
a buffer that has been checked. -/
structure BufKept (s : BufState) (k' : KState) (p : ProcPtr) : Prop where
  slotFree : (k'.pFlags p).slotFree = (s.k.pFlags p).slotFree
  pMap : isuserp p → k'.pMap p = s.k.pMap p
  sending : s.loading p = true → (k'.pFlags p).sending = true → (s.k.pFlags p).sending = true
  receiving : s.loading p = true → (k'.pFlags p).receiving = (s.k.pFlags p).receiving
  buffer : isuserp p →
    (k'.pMessbuf p = s.k.pMessbuf p ∧
      ((k'.pFlags p).sending = true → (s.k.pFlags p).sending = true) ∧
      ((k'.pFlags p).receiving = true → (s.k.pFlags p).receiving = true)) ∨
    Inside (s.k.pMap p) (k'.pMessbuf p)

theorem BufKept.ok {s : BufState} {k' : KState} {p : ProcPtr} (hk : BufKept s k' p)
    (h : BufOk s.k (s.loading p) p) : BufOk k' (s.loading p) p := by
  refine ⟨fun hu huse => ?_, fun hload => ?_, fun hu huse hwait => ?_⟩
  · rw [hk.pMap hu]
    exact h.map hu (hk.slotFree.symm.trans huse)
  · obtain ⟨hu, hrec, hsend⟩ := h.load hload
    refine ⟨hu, (hk.receiving hload).trans hrec, ?_⟩
    by_contra hs
    have := hk.sending hload (by simpa using hs)
    rw [hsend] at this
    cases this
  · rw [hk.pMap hu]
    rcases hk.buffer hu with ⟨hbuf, hsend, hrec⟩ | hin
    · rw [hbuf]
      refine h.waiting hu (hk.slotFree.symm.trans huse) ?_
      rcases hwait with hs | ⟨hr, hl⟩
      · exact .inl (hsend hs)
      · exact .inr ⟨hrec hr, hl⟩
    · exact hin

namespace BufInv

variable {s : BufState} {k k₁ k' : KState}
variable {rp p : ProcPtr} {mPtr : ℤ}

theorem of_kept (h : BufInv s) (hkept : ∀ p, BufKept s k' p) : BufInv ⟨k', s.loading⟩ :=
  fun p => (hkept p).ok (h p)

/-- A process is no longer being loaded, and something happens to it alone. -/
theorem of_started {rp : ProcPtr} (h : BufInv s) (hothers : ∀ p, p ≠ rp → BufKept s k' p)
    (hrp : BufOk k' false rp) : BufInv ⟨k', update s.loading rp false⟩ := by
  intro p
  by_cases hp : p = rp
  · subst hp
    simpa using hrp
  · simpa [hp] using (hothers p hp).ok (h p)

theorem of_mail (h : BufInv s) (hmail : SameMail s.k k') : BufInv ⟨k', s.loading⟩ := by
  refine h.of_kept fun p => ⟨hmail.slotFree p, fun _ => by rw [hmail.pMap], fun _ => ?_,
    fun _ => hmail.receiving p, fun _ => .inl ⟨by rw [hmail.pMessbuf], ?_, ?_⟩⟩
  · exact (hmail.sending p).symm.trans
  · exact (hmail.sending p).symm.trans
  · exact (hmail.receiving p).symm.trans

/-- Nothing happens to the process. -/
theorem kept_of_same (hflags : k'.pFlags p = s.k.pFlags p) (hmap : k'.pMap p = s.k.pMap p)
    (hbuf : k'.pMessbuf p = s.k.pMessbuf p) : BufKept s k' p where
  slotFree := congrArg _ hflags
  pMap _ := hmap
  sending _ := (congrArg Flags.sending hflags).symm.trans
  receiving _ := congrArg _ hflags
  buffer _ := .inl ⟨hbuf, (congrArg Flags.sending hflags).symm.trans,
    (congrArg Flags.receiving hflags).symm.trans⟩

/-- A process that is not being loaded gets other flags or another buffer, which has been checked
if it is a user process. -/
theorem kept_of_buffer (hload : s.loading p = false)
    (hslot : (k'.pFlags p).slotFree = (s.k.pFlags p).slotFree) (hmap : k'.pMap p = s.k.pMap p)
    (hin : isuserp p → Inside (s.k.pMap p) (k'.pMessbuf p)) : BufKept s k' p where
  slotFree := hslot
  pMap _ := hmap
  sending hl := by simp [hload] at hl
  receiving hl := by simp [hload] at hl
  buffer hu := .inr (hin hu)

theorem not_loading_of_zero (h : BufInv s) (hzero : s.k.pFlags rp = Flags.zero) :
    s.loading rp = false := by
  by_contra hl
  have := ((h rp).load (by simpa using hl)).2.1
  simp [hzero, Flags.zero] at this

/-- Only user processes are loaded. -/
theorem not_loading_of_system (h : BufInv s) (hsys : ¬ isuserp rp) : s.loading rp = false := by
  by_contra hl
  exact hsys ((h rp).load (by simpa using hl)).1

/-- The caller sends: the buffer has been checked, and it is not straddling. -/
theorem of_sent {rp : ProcPtr} {dest mPtr n : ℤ} (h : BufInv s)
    (hzero : s.k.pFlags rp = Flags.zero)
    (habove : isuserp rp → ¬ Straddles (s.k.pMap rp) mPtr)
    (hdest : ∀ d, procAddr dest = some d → s.loading d = false)
    (hsent : Sent s.k rp dest mPtr n k') : BufInv ⟨k', s.loading⟩ := by
  have hnot := h.not_loading_of_zero hzero
  have huse : InUse s.k rp := by rw [InUse, hzero]; rfl
  cases hsent with
  | refused => exact h
  | delivered hd haddr hacc hproc =>
    rename_i d r
    have hload := hdest d hd
    refine h.of_kept fun p => ?_
    by_cases hp : p = d
    · subst hp
      refine ⟨?_, fun _ => rfl, fun hl => ?_, fun hl => ?_, fun _ => .inl ⟨rfl, ?_, ?_⟩⟩
      · simp [KState.delivered, KState.setFlags]
      · simp [hload] at hl
      · simp [hload] at hl
      · simp [KState.delivered, KState.setFlags]
      · simp [KState.delivered, KState.setFlags]
    · have hflags : (s.k.delivered rp d mPtr).pFlags p = s.k.pFlags p := by
        simp [KState.delivered, KState.setFlags, KState.put, hp]
      exact kept_of_same hflags rfl rfl
  | queued hd haddr hacc hcross =>
    rename_i d r c
    refine h.of_kept fun p => ?_
    by_cases hp : p = rp
    · subst hp
      refine kept_of_buffer hnot ?_ rfl fun hu => ?_
      · simp [KState.queued, KState.setFlags]
      · simp only [KState.queued, update_self]
        exact (inside_iff ((h p).map hu huse) haddr).mpr (habove hu)
    · have hflags : (s.k.queued rp d mPtr).pFlags p = s.k.pFlags p := by
        simp [KState.queued, KState.setFlags, hp]
      have hbuf : (s.k.queued rp d mPtr).pMessbuf p = s.k.pMessbuf p := by
        simp [KState.queued, hp]
      exact kept_of_same hflags rfl hbuf

/-- The flags and the buffer of a process change that is not a user process and is not being
loaded. -/
theorem of_system (h : BufInv s) (hsys : ¬ isuserp p)
    (hslot : (k'.pFlags p).slotFree = (s.k.pFlags p).slotFree) (hmap : k'.pMap = s.k.pMap)
    (hflags : ∀ x, x ≠ p → k'.pFlags x = s.k.pFlags x)
    (hbuf : ∀ x, x ≠ p → k'.pMessbuf x = s.k.pMessbuf x) : BufInv ⟨k', s.loading⟩ := by
  refine h.of_kept fun x => ?_
  by_cases hx : x = p
  · subst hx
    exact kept_of_buffer (h.not_loading_of_system hsys) hslot (congrFun hmap x)
      fun hu => absurd hu hsys
  · exact kept_of_same (hflags x hx) (congrFun hmap x) (hbuf x hx)

/-- MM is told of signals. -/
theorem of_informed (h : BufInv s) (hinf : Informed s.k k') :
    BufInv ⟨k', s.loading⟩ := by
  obtain ⟨-, -, rp, -, hsame⟩ := hinf
  have hdel : BufInv ⟨(s.k.writeKsig rp).delivered hardware mm s.k.layout.addrM, s.loading⟩ := by
    refine h.of_system (p := mm) (by decide) ?_ rfl (fun x hx => ?_) fun x _ => rfl
    · simp [KState.delivered, KState.setFlags, KState.writeKsig]
    · simp [KState.delivered, KState.setFlags, KState.put, KState.writeKsig, hx]
  exact hdel.of_mail hsame

theorem of_caused {sigNr : ℕ} (h : BufInv s) (hcaused : Caused s.k rp sigNr k') :
    BufInv ⟨k', s.loading⟩ := by
  rcases Caused.mail hcaused with hmail | ⟨k₁, hmail, hinf⟩
  · exact h.of_mail hmail
  · exact (h.of_mail hmail).of_informed hinf

theorem of_received {src : ℤ} (h : BufInv s) (hload : s.loading rp = false)
    (hin : isuserp rp → Inside (s.k.pMap rp) mPtr) (hrec : Received s.k rp src mPtr k') :
    BufInv ⟨k', s.loading⟩ := by
  cases hrec with
  | took hq hpre hs hproc =>
    rename_i x pre post r c
    refine h.of_kept fun p => ?_
    by_cases hp : p = x
    · subst hp
      refine ⟨?_, fun _ => rfl, fun _ => ?_, fun _ => ?_, fun _ => .inl ⟨rfl, ?_, ?_⟩⟩
      · simp [KState.took, KState.setFlags]
      · simp [KState.took, KState.setFlags]
      · simp [KState.took, KState.setFlags]
      · simp [KState.took, KState.setFlags]
      · simp [KState.took, KState.setFlags]
    · have hflags : (s.k.took rp src mPtr x).pFlags p = s.k.pFlags p := by
        simp [KState.took, KState.setFlags, KState.put, hp]
      exact kept_of_same hflags rfl rfl
  | interrupted => exact h.of_kept fun p => kept_of_same rfl rfl rfl
  | blocked hnone hout =>
    rename_i r
    have hblocked : BufInv ⟨{ s.k.receiverBlocked rp src mPtr with rdy := r }, s.loading⟩ := by
      refine h.of_kept fun p => ?_
      by_cases hp : p = rp
      · subst hp
        refine kept_of_buffer hload ?_ rfl fun hu => ?_
        · simp [KState.receiverBlocked, KState.setFlags]
        · simp only [KState.receiverBlocked, update_self]
          exact hin hu
      · have hflags : (s.k.receiverBlocked rp src mPtr).pFlags p = s.k.pFlags p := by
          simp [KState.receiverBlocked, KState.setFlags, hp]
        have hbuf : (s.k.receiverBlocked rp src mPtr).pMessbuf p = s.k.pMessbuf p := by
          simp [KState.receiverBlocked, hp]
        exact kept_of_same hflags rfl hbuf
    rcases hout with rfl | ⟨rfl, -, hinf⟩
    · exact hblocked
    · exact hblocked.of_informed hinf

theorem of_called {srcDest n : ℤ} (h : BufInv s) (hzero : s.k.pFlags rp = Flags.zero)
    (habove : isuserp rp → ¬ Straddles (s.k.pMap rp) mPtr)
    (hdest : ∀ d, procAddr srcDest = some d → s.loading d = false)
    (hcalled : Called s.k rp srcDest mPtr n k') : BufInv ⟨k', s.loading⟩ := by
  have hload := h.not_loading_of_zero hzero
  cases hcalled with
  | refused => exact h
  | sent hsent => exact h.of_sent hzero habove hdest hsent
  | received hnot hrec => exact h.of_received hload (fun hu => absurd hu hnot) hrec
  | both hsent hinv hrec =>
    rename_i k₁
    have huse : InUse s.k rp := by rw [InUse, hzero]; rfl
    refine (h.of_sent hzero habove hdest hsent).of_received hload (fun hu => ?_) hrec
    -- what was sent was accepted
    cases hsent with
    | refused hn => exact absurd rfl hn
    | delivered hd haddr => exact (inside_iff ((h rp).map hu huse) haddr).mpr (habove hu)
    | queued hd haddr => exact (inside_iff ((h rp).map hu huse) haddr).mpr (habove hu)

theorem of_interrupted (h : BufInv s) (hrp : IsDriver rp) (hint : Interrupted s.k rp k') :
    BufInv ⟨k', s.loading⟩ := by
  have hsys : ¬ isuserp rp := fun hu => not_driver_of_not_isKernelp (not_isKernelp_of_isuserp hu) hrp
  cases hint with
  | woken =>
    refine h.of_system hsys ?_ rfl (fun x hx => ?_) fun _ _ => rfl
    · simp [KState.woken, KState.setFlags]
    · simp [KState.woken, KState.setFlags, KState.putInterrupt, KState.put, hx]
  | blocked => exact h.of_kept fun p => kept_of_same rfl rfl rfl

/-- A child is put into a free slot. -/
theorem of_forked {rpp rpc : ProcPtr} {b : ℕ} (h : BufInv s) (hu : isuserp rpp)
    (hload : s.loading rpp = false) (hp : ForkPromise s.k rpp rpc) :
    BufInv ⟨s.k.forked rpp rpc b, update s.loading rpc false⟩ := by
  obtain ⟨hlive, -, -, -, -⟩ := hp
  obtain ⟨hmap, hsame⟩ := childMap_mapOk ((h rpp).map hu hlive) b
  have hself : (s.k.forked rpp rpc b).pMap rpc = childMap (s.k.pMap rpp) b := by
    simp [KState.forked]
  refine h.of_started (fun p hne => ?_) ⟨fun _ _ => hself ▸ hmap, by simp, fun _ _ hwait => ?_⟩
  · refine kept_of_same ?_ ?_ ?_
    · simp [KState.forked, hne]
    · simp [KState.forked, hne]
    · simp [KState.forked, hne]
  · have hbuf : (s.k.forked rpp rpc b).pMessbuf rpc = s.k.pMessbuf rpp := by
      simp [KState.forked]
    rw [hself, hbuf]
    refine ((h rpp).waiting hu hlive ?_).moved hsame
    simpa [KState.forked, hload] using hwait

/-- A process is started again. -/
theorem of_execed {r : Ready} (h : BufInv s) :
    BufInv ⟨{ s.k.setFlags p { s.k.pFlags p with receiving := false } with rdy := r },
      update s.loading p false⟩ := by
  refine h.of_started (fun x hne => ?_) ⟨fun hu huse => ?_, by simp, fun hu huse hwait => ?_⟩
  · refine kept_of_same ?_ rfl rfl
    simp [KState.setFlags, hne]
  · refine (h p).map hu ?_
    simpa [InUse, KState.setFlags] using huse
  · refine (h p).waiting hu ?_ ?_
    · simpa [InUse, KState.setFlags] using huse
    · left
      simpa [KState.setFlags] using hwait

/-- A process exits. -/
theorem of_exited {r : Ready} {c : Callers} (h : BufInv s) :
    BufInv ⟨{ s.k.exited p with rdy := r, callers := c }, update s.loading p false⟩ := by
  have hfree : ((s.k.exited p).pFlags p).slotFree = true := by
    simp [KState.exited, KState.slotFreed, KState.setFlags, Flags.free]
  refine h.of_started (fun x hne => ?_) ⟨fun _ huse => ?_, by simp, fun _ huse => ?_⟩
  · refine kept_of_same ?_ rfl rfl
    simp [KState.exited, KState.slotFreed, KState.setFlags, hne]
  · simp [InUse, hfree] at huse
  · simp [InUse, hfree] at huse

/-- A new map is installed, that keeps the segments where they are. -/
theorem of_adjusted {rp : ProcPtr} {map : MemMaps} (h : BufInv s)
    (hadj : isuserp rp → Adjusted (s.k.pMap rp) map) :
    BufInv ⟨{ s.k with pMap := update s.k.pMap rp map }, s.loading⟩ := by
  intro p
  by_cases hp : p = rp
  · subst hp
    refine ⟨fun hu huse => ?_, (h p).load, fun hu huse hwait => ?_⟩
    · simpa using ((hadj hu).mapOk ((h p).map hu huse)).1
    · simpa using ((h p).waiting hu huse hwait).moved ((hadj hu).mapOk ((h p).map hu huse)).2
  · have hkept : BufKept s { s.k with pMap := update s.k.pMap rp map } p :=
      kept_of_same rfl (update_of_ne hp _ _) rfl
    exact hkept.ok (h p)

/-- Every event of the kernel keeps the invariant. -/
theorem kernel {e : Event} {s' : BufState} (h : BufInv s) (hinv : Inv s.k)
    (hp : s.Promised (.kernel e)) (ha : s.Above (.kernel e))
    (hrun : s.perform (.kernel e) = .ok s') : Inv s'.k ∧ BufInv s' := by
  obtain ⟨⟨n, k'⟩, hk', rfl⟩ := map_eq_ok hrun
  obtain ⟨hprom, hmm⟩ := hp
  obtain ⟨hinv', hout⟩ := KState.perform_cases hinv hprom hk'
  refine ⟨hinv', ?_⟩
  have hres : BufInv ⟨s.k.resumed, s.loading⟩ := h.of_kept fun p => kept_of_same rfl rfl rfl
  cases hout with
  | called hzero hcalled => exact hres.of_called hzero.1 ha hmm hcalled
  | stored => exact h.of_kept fun p => kept_of_same rfl rfl rfl
  | async hrp hasync =>
    cases hasync with
    | held => exact h.of_kept fun p => kept_of_same rfl rfl rfl
    | now hnow =>
      have hnow' := h.of_interrupted hrp hnow
      exact hnow'.of_kept fun p => kept_of_same rfl rfl rfl
  | unheld hun =>
    cases hun with
    | nothing => exact h
    | repeated hhead hnow =>
      rename_i rp
      have hrel : BufInv ⟨s.k.released rp, s.loading⟩ := h.of_kept fun p => kept_of_same rfl rfl rfl
      exact hrel.of_interrupted (KState.released_inv hinv hhead).2 hnow
  | quiet hsame hview hcause hrenew hexec =>
    simp only [startedBy, hexec, hrenew, Option.or_none]
    exact hres.of_mail hsame
  | finished hrp hrun hsame => exact hres.of_mail hsame
  | caused he hcaused =>
    rcases he with rfl | ⟨pr, rfl, -⟩
    · exact hres.of_caused hcaused
    · exact hres.of_caused hcaused
  | forked hpp hpc hfork =>
    rename_i rpp rpc base
    obtain ⟨hu, hload⟩ := hmm _ hpp
    have hforked := hres.of_forked (b := base) hu hload hfork
    simpa [startedBy, execedBy, renewedBy, hpp, hpc] using hforked
  | execed hrp hcaused hinv1 =>
    rename_i proc1 traced rp k₁ r
    have hbuf : BufInv ⟨k₁, s.loading⟩ := by
      rcases hcaused with ⟨-, rfl⟩ | ⟨-, hcaused⟩
      · exact hres
      · exact hres.of_caused hcaused
    have hexeced := hbuf.of_execed (p := rp) (r := r)
    simpa [startedBy, execedBy, hrp] using hexeced
  | remapped hrp => exact hres.of_adjusted fun hu => hmm _ hrp hu
  | exited hrp hrc hpx =>
    rename_i rp rc r c
    have hexited := hres.of_exited (p := rc) (r := r) (c := c)
    simpa [startedBy, execedBy, renewedBy, hrp, hrc] using hexited

/-- A process that has asked for a new image gets the map of it. -/
theorem fresh {proc1 : ℤ} {map : MemMaps} {s' : BufState} (h : BufInv s) (hinv : Inv s.k)
    (hp : s.Promised (.fresh proc1 map)) (hrun : s.perform (.fresh proc1 map) = .ok s') :
    Inv s'.k ∧ BufInv s' := by
  obtain ⟨⟨n, k'⟩, hk', rfl⟩ := map_eq_ok hrun
  obtain ⟨hpos, hfresh, hproc⟩ := hp
  have hinv' := (KState.perform_cases (e := .newmap proc1 map) hinv hpos hk').1
  refine ⟨hinv', ?_⟩
  unfold KState.perform KState.doNewmap at hk'
  cases hrp : procAddr proc1 with
  | none =>
    simp only [hrp] at hk' ⊢
    cases hk'
    exact h.of_kept fun p => kept_of_same rfl rfl rfl
  | some rp =>
    obtain ⟨hu, hrec, hsend⟩ := hproc rp hrp
    simp only [hrp] at hk' ⊢
    cases hk'
    intro p
    by_cases hpr : p = rp
    · subst hpr
      refine ⟨fun _ _ => ?_, fun _ => ⟨hu, hrec, hsend⟩, fun _ _ hwait => ?_⟩
      · simpa using hfresh.mapOk
      · -- a process that is being loaded does not wait to send
        simp only [update_self] at hwait
        rcases hwait with hs | ⟨-, hl⟩
        · rw [show (s.k.resumed.pFlags p).sending = false from hsend] at hs
          cases hs
        · cases hl
    · have hkept : BufKept s { s.k.resumed with
          pMap := update s.k.resumed.pMap rp map } p :=
        kept_of_same rfl (update_of_ne hpr _ _) rfl
      simpa [hpr] using hkept.ok (h p)

theorem contained (h : BufInv s) : Contained s where
  waiting p := (h p).waiting
  running _ hu huse haddr hnot :=
    (inside_iff ((h s.k.rdy.procPtr).map hu huse) haddr).mpr hnot

end BufInv

variable {L : Layout} {map : ProcPtr → MemMaps} {memory : Cell → Message}

theorem boot_bufInv (hinit : IsInitMap (map init)) (h : boot L map memory = .ok k) :
    BufInv ⟨k, fun _ => false⟩ := by
  obtain ⟨r, -, rfl⟩ := map_eq_ok h
  intro p
  have hflags : ∀ p, isuserp p → (startFlags p).slotFree = false →
      p = init ∧ (startFlags p).sending = false ∧ (startFlags p).receiving = false := by decide
  refine ⟨fun hu huse => ?_, by simp, fun hu huse hwait => ?_⟩
  · obtain ⟨rfl, -⟩ := hflags p hu huse
    exact hinit.mapOk
  · obtain ⟨-, hsend, hrec⟩ := hflags p hu huse
    simp [hsend, hrec] at hwait

/-- **No copy of a message leaves the image of a user process**, in every run in which no message
straddles the start of the image of a process that has no text segment. -/
theorem reached_contained (hinit : IsInitMap (map init)) {s : BufState}
    (h : BufReached (fun s e => s.Promised e ∧ s.Above e) L map memory s) : Contained s := by
  suffices Inv s.k ∧ BufInv s from this.2.contained
  induction h with
  | boot h =>
    obtain ⟨k, hk, hinv⟩ := boot_inv L map memory
    rw [h] at hk
    cases hk
    exact ⟨hinv, boot_bufInv hinit h⟩
  | @step s s' e _ hp hrun ih =>
    cases e with
    | kernel e => exact ih.2.kernel ih.1 hp.1 hp.2 hrun
    | fresh proc1 map => exact ih.2.fresh ih.1 hp.1 hrun

/-- INIT is 50 clicks of data at click 400, as `build` makes it; everybody else as before. -/
def initMap : ProcPtr → MemMaps := update plainMap init (Mm.initSeg 400 0 50)

/-- INIT forks with a message at `mPtr`: the child in slot 3 gets the block at click 2000, and
waits for the answer of MM. -/
def forkAt (mPtr : ℤ) : List Event :=
  settle ++ [.sysCall .both 0 mPtr, .sysCall .both (-2) 2304, .fork 2 3 2000]

/-- The promises of the events of `forkAt`, in a form that can be computed. -/
def forkCheck (k : KState) : Event → Bool
  | .fork proc1 proc2 base => decide (Kernel.Promised k (.fork proc1 proc2 base)) &&
      decide (susern proc1 = some init)
  | .sysCall f srcDest mPtr => decide (Kernel.Promised k (.sysCall f srcDest mPtr))
  | _ => false

/-- While nobody is being loaded, a run of the kernel is a run here. -/
theorem BufReached.play {allowed : BufState → BufEvent → Prop} {check : KState → Event → Bool}
    (hcheck : ∀ k e, check k e = true → allowed ⟨k, fun _ => false⟩ (.kernel e)) {es : List Event}
    {k' : KState} (h : BufReached allowed L map memory ⟨k, fun _ => false⟩)
    (hplay : play check es k = .ok k') : BufReached allowed L map memory ⟨k', fun _ => false⟩ := by
  induction es generalizing k with
  | nil =>
    cases hplay
    exact h
  | cons e es ih =>
    unfold Kernel.play at hplay
    split at hplay
    next hc =>
      obtain ⟨⟨n, k₁⟩, hrun, hplay⟩ := bind_eq_ok hplay
      refine ih (h.step (hcheck k e hc) ?_) hplay
      simp only [BufState.perform, hrun, map_ok]
      split
      · simp
      · rfl
    next => cases hplay

theorem forkCheck_promised {e : Event} (h : forkCheck k e = true) :
    BufState.Promised ⟨k, fun _ => false⟩ (.kernel e) := by
  unfold forkCheck at h
  split at h
  · simp only [Bool.and_eq_true, decide_eq_true_eq] at h
    refine ⟨h.1, fun p hp => ⟨?_, rfl⟩⟩
    rw [h.2] at hp
    cases hp
    decide
  · exact ⟨of_decide_eq_true h, fun _ _ => rfl⟩
  · cases h

/-- A run of the events of `forkAt`, and something that is computed from the state it reaches. -/
theorem exists_forkAt {α : Type} (allowed : BufState → BufEvent → Prop) (mPtr : ℤ)
    (check : KState → Event → Bool)
    (hcheck : ∀ k e, check k e = true → allowed ⟨k, fun _ => false⟩ (.kernel e))
    (f : KState → α) (a : α)
    (h : ((boot plainLayout initMap noMessage).bind (play check (forkAt mPtr))).map f = .ok a) :
    ∃ k, BufReached allowed plainLayout initMap noMessage ⟨k, fun _ => false⟩ ∧ f k = a := by
  obtain ⟨k, hk, hf⟩ := map_eq_ok h
  obtain ⟨k₀, hboot, hplay⟩ := bind_eq_ok hk
  exact ⟨k, (BufReached.boot hboot).play hcheck hplay, hf⟩

/-- A child of INIT waits for an answer with a buffer inside its own image. -/
theorem reached_contained_child : ∃ s,
    BufReached (fun s e => s.Promised e ∧ s.Above e) plainLayout initMap noMessage s ∧
    (s.k.pFlags 12).receiving = true ∧ (s.k.pMap 12).data.memPhys = 2000 ∧ Contained s := by
  obtain ⟨k, hr, hf⟩ := exists_forkAt (fun s e => s.Promised e ∧ s.Above e) 104960
    (fun k e => forkCheck k e && match e with
      | .sysCall _ _ mPtr => decide (isuserp k.rdy.procPtr → ¬ Straddles (k.pMap k.rdy.procPtr) mPtr)
      | _ => true)
    (fun k e h => by
      simp only [Bool.and_eq_true] at h
      refine ⟨forkCheck_promised h.1, ?_⟩
      cases e with
      | sysCall f srcDest mPtr =>
        intro hu
        exact of_decide_eq_true h.2 hu
      | _ => trivial)
    (fun k => ((k.pFlags 12).receiving, (k.pMap 12).data.memPhys)) (true, 2000) (by decide +kernel)
  obtain ⟨hrec, hphys⟩ := Prod.mk.inj hf
  have hinit : IsInitMap (initMap init) := ⟨400, 0, 50, by decide, by simp [initMap]⟩
  exact ⟨_, hr, hrec, hphys, reached_contained hinit hr⟩

/-- **A message outside the image**: INIT forks with a message that starts 4 bytes below its data
segment; the child waits for the answer, which will be written to the end of click 1999, below
its block. -/
theorem straddling_message : ∃ s,
    BufReached (fun s e => s.Promised e) plainLayout initMap noMessage s ∧
    (s.k.pFlags 12).receiving = true ∧ s.loading 12 = false ∧ ¬ Contained s := by
  obtain ⟨k, hr, hf⟩ := exists_forkAt (fun s e => s.Promised e) 102396 forkCheck
    (fun k e h => forkCheck_promised h)
    (fun k => ((k.pFlags 12).receiving, (k.pFlags 12).slotFree, k.pMessbuf 12, k.pMap 12))
    (true, false, 102396, Mm.childSeg (Mm.initSeg 400 0 50) 2000) (by decide +kernel)
  simp only [Prod.mk.injEq] at hf
  obtain ⟨hrec, hfree, hbuf, hmap⟩ := hf
  refine ⟨_, hr, hrec, rfl, fun hcon => ?_⟩
  have hin := hcon.waiting 12 (by decide) hfree (.inr ⟨hrec, rfl⟩) 0 (le_refl 0) (by decide)
  rw [hbuf, hmap] at hin
  exact absurd hin (by decide)

end LisaMinix.Kernel
