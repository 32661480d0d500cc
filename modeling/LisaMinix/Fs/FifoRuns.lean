import LisaMinix.Fs.FifoPlaces

/-!
# FIFOs along Every Run

Between the first open of a FIFO and the last close, what is read is what was written, in
order and without loss, in every run in which the FIFO is opened and read with care (`Careful`).

A second opener gets a filp whose position is 0, and when the FIFO is drained only one writer
is reset.  So with several filps at one end bytes are overwritten: see
`second_writer_overwrites`.
-/

namespace LisaMinix.Fs.Fifo

open LisaMinix.Mm (ProcNr nrProcs)

/-! ## §1 Runs -/

/-- Who can make a request: a process that is not suspended.  MM speaks for the others, and
forks into a slot that is not in use. -/
def mayAsk (s : State) (who : ProcNr) : Request → Prop
  | .exit => True
  | .unpause => True
  | .fork child => (s.fproc who).suspended = false ∧ ∀ fd, (s.fproc child).filp fd = none
  | _ => (s.fproc who).suspended = false

/-- A FIFO is opened so that its positions stay right, and read so that no other reader is left
behind.  Nothing is asked of a write. -/
def Careful (s : State) (who : ProcNr) : Request → Prop
  | .open call => ∀ ip, call.found = .ok ip → call.forbidden = ok → OpensFine s ip call
  | .io .reading fd nbytes _ => ∀ f, (s.fproc who).filp fd = some f → ReadsFine s f nbytes
  | _ => True

/-- The tables before the first open. -/
def initialState : State where
  fproc _ := ⟨fun _ => none, false, false, .xpipe, ⟨.read, ⟨0, openMax_pos⟩, 0, fun _ => 0⟩⟩
  filp _ := ⟨⟨false, false⟩, false, false, 0, ⟨0, nrInodes_pos⟩, 0⟩
  inode _ := ⟨⟨0, 0, fun _ => 0, [], []⟩, false, 0⟩
  suspCount := 0
  reviving := 0
  replies := []

/-- The states reached by turns of the main loop that are all `safe`.  A transfer that is tried again
is one as well. -/
inductive Reached (safe : State → ProcNr → Request → Prop) : State → Prop
  | start : Reached safe initialState
  | request {s env who r} : Reached safe s → s.reviving = 0 → mayAsk s who r → safe s who r →
      Reached safe (handle s env who r)
  | revive {s s' env p rw} : Reached safe s → s.reviving ≠ 0 → getRevived s = some (s', p) →
      retried (s'.fproc p).call.nr = some rw →
      safe s' p (.io rw (s'.fproc p).call.fd (s'.fproc p).call.nbytes (s'.fproc p).call.buffer) →
      Reached safe (answer p (readWrite s' env p rw (s'.fproc p).call))

section Runs

variable {s s' : State} {who : ProcNr}

theorem FifosOk.reply (h : FifosOk s) (whom : ProcNr) (r : ℤ) : FifosOk (s.reply whom r) :=
  h.of_calm ⟨rfl, rfl, rfl⟩

theorem FifosOk.answer {r : State × Option ℤ} (h : FifosOk r.1) (whom : ProcNr) :
    FifosOk (answer whom r) := by
  unfold Fifo.answer
  split
  · exact h
  · exact h.reply ..

theorem initialState_ok : FifosOk initialState := by
  refine ⟨⟨fun f => ?_, fun i => ?_⟩, fun i hi => absurd rfl hi⟩
  · exact (Finset.card_eq_zero.mpr (Finset.filter_eq_empty_iff.mpr fun _ _ h => by cases h)).symm
  · exact (Finset.card_eq_zero.mpr (Finset.filter_eq_empty_iff.mpr fun _ _ h => by cases h)).symm

theorem Positions.reply (h : Positions s) (whom : ProcNr) (r : ℤ) : Positions (s.reply whom r) :=
  h.of_calm ⟨rfl, rfl, rfl⟩

theorem Positions.answer {r : State × Option ℤ} (h : Positions r.1) (whom : ProcNr) :
    Positions (answer whom r) := by
  unfold Fifo.answer
  split
  next => exact h
  next e _ => exact h.reply whom e

theorem initialState_positions : Positions initialState := fun _ =>
  .of_unused (fun _ hg => hg.1 rfl) fun _ => rfl

/-- What every step keeps: the streams, and the positions in them. -/
structure Streaming (s : State) : Prop where
  fifos : FifosOk s
  positions : Positions s

/-- What `Careful` says of a read. -/
theorem Careful.reads {rw : Rw} {fd : Fd} {nbytes : ℤ} {buffer : ℕ → UInt8}
    (h : Careful s who (.io rw fd nbytes buffer)) (hrw : rw = .reading) :
    ∀ f, (s.fproc who).filp fd = some f → ReadsFine s f nbytes := by
  subst hrw
  exact h

theorem Streaming.readWrite (h : Streaming s) (env : Env) {rw : Rw} (call : Call)
    (hcareful : Careful s who (.io rw call.fd call.nbytes call.buffer)) :
    Streaming (Fifo.answer who (readWrite s env who rw call)) where
  fifos := (readWrite_ok h.fifos env
    (h.positions.inPlace h.fifos.tables fun hrw => hcareful.reads hrw)).answer who
  positions := (h.positions.readWrite h.fifos env fun hrw => hcareful.reads hrw).answer who

theorem Streaming.handle (h : Streaming s) (env : Env) {r : Request} (hask : mayAsk s who r)
    (hcareful : Careful s who r) : Streaming (handle s env who r) := by
  obtain ⟨hok, hpos⟩ := h
  cases r with
  | «open» call =>
    exact ⟨(commonOpen_ok hok who call).answer who,
      (hpos.commonOpen hok who call hcareful).answer who⟩
  | io rw fd nbytes buffer =>
    exact Streaming.readWrite ⟨hok, hpos⟩ env ⟨callNr rw, fd, nbytes, buffer⟩ hcareful
  | close fd => exact ⟨(doClose_ok hok who fd).reply .., (hpos.doClose hok who fd).reply _ _⟩
  | dup fd fd2 => exact ⟨(doDup_ok hok who fd fd2).reply .., (hpos.doDup hok who fd fd2).reply _ _⟩
  | fork child => exact ⟨doFork_ok hok hask.2, hpos.doFork hok⟩
  | exit => exact ⟨doExit_ok hok who, hpos.doExit hok who⟩
  | unpause => exact ⟨hok.of_calm (doUnpause_calm s who), hpos.of_calm (doUnpause_calm s who)⟩

theorem Reached.streaming (h : Reached Careful s) : Streaming s := by
  induction h with
  | start => exact ⟨initialState_ok, initialState_positions⟩
  | request _ _ hask hcareful ih => exact ih.handle _ hask hcareful
  | revive _ _ hget _ hcareful ih =>
    have hcalm := getRevived_calm hget
    exact Streaming.readWrite ⟨ih.fifos.of_calm hcalm, ih.positions.of_calm hcalm⟩ _ _ hcareful

/-- What a FIFO promises: the bytes that have been read are the first of those that were accepted, the
others are still in the file, and the next read and the next write come there. -/
structure FifoGuarantee (s : State) (i : InodeNr) : Prop where
  order : (s.inode i).received <+: sentBytes (s.inode i).toInode
  kept : sentBytes (s.inode i).toInode = (s.inode i).received ++
    slice (s.inode i).data (s.inode i).consumed ((s.inode i).size - (s.inode i).consumed)
  next : ∀ g, Reads s i g → (s.filp g).pos = (s.inode i).consumed
  ends : ∀ g, Writes s i g → startPos s g .writing = (s.inode i).size

/-- **A FIFO that somebody has open keeps its stream**, if it is opened and read with care. -/
theorem fifo_stream (h : Reached Careful s) {f : FilpNr} (hf : (s.filp f).count ≠ 0) :
    FifoGuarantee s (s.filp f).ino := by
  obtain ⟨hok, hpos⟩ := h.streaming
  have hflow := hok.flow _ (hok.tables.inode_ne_zero hf)
  exact ⟨⟨_, hflow.stream.symm⟩, hflow.stream, (hpos _).readers, fun _ hg => hpos.startPos hg⟩

end Runs

section Example

/-- A device with room. -/
def roomyEnv : Env := ⟨1000000, 100, -28, .error enfile⟩

/-- Open the FIFO in inode slot 0 for one end. -/
def openEnd (bits : Mode) : Request := .open ⟨.openCall, bits, false, false, .ok ⟨0, nrInodes_pos⟩, ok⟩

/-- Write two bytes, or one. -/
def writeTwo : Request := .io .writing 0 2 fun k => UInt8.ofNat (k + 1)
def writeNine : Request := .io .writing 0 1 fun _ => 9

instance (s : State) (who : ProcNr) : (r : Request) → Decidable (mayAsk s who r)
  | .open _ => inferInstanceAs (Decidable (_ = _))
  | .io _ _ _ _ => inferInstanceAs (Decidable (_ = _))
  | .close _ => inferInstanceAs (Decidable (_ = _))
  | .dup _ _ => inferInstanceAs (Decidable (_ = _))
  | .fork child => inferInstanceAs (Decidable (_ ∧ ∀ fd, (s.fproc child).filp fd = none))
  | .exit => isTrue trivial
  | .unpause => isTrue trivial

instance (s : State) (i : InodeNr) (g : FilpNr) : Decidable (Uses s i g) :=
  inferInstanceAs (Decidable (_ ∧ _))

instance (s : State) (i : InodeNr) (g : FilpNr) : Decidable (Reads s i g) :=
  inferInstanceAs (Decidable (_ ∧ _ ∧ _))

instance (s : State) (i : InodeNr) (g : FilpNr) : Decidable (Writes s i g) :=
  inferInstanceAs (Decidable (_ ∧ _))

instance (s : State) (f : FilpNr) (nbytes : ℤ) : Decidable (ReadsFine s f nbytes) :=
  inferInstanceAs (Decidable (_ → _ ∧ ((∀ g, Reads s (s.filp f).ino g → g = f) ∨ _)))

instance (s : State) (ip : InodeNr) (call : OpenCall) : Decidable (OpensFine s ip call) := by
  unfold OpensFine
  infer_instance

instance (s : State) (who : ProcNr) : (r : Request) → Decidable (Careful s who r)
  | .open call =>
    inferInstanceAs (Decidable (∀ ip, call.found = .ok ip → call.forbidden = ok → OpensFine s ip call))
  | .io .reading fd nbytes _ =>
    inferInstanceAs (Decidable (∀ f, (s.fproc who).filp fd = some f → ReadsFine s f nbytes))
  | .io .writing _ _ _ | .close _ | .dup _ _ | .fork _ | .exit | .unpause => isTrue trivial

/-- Some requests, one after the other, each of which meets the condition. -/
def play (safe : State → ProcNr → Request → Prop) [∀ s who r, Decidable (safe s who r)] :
    List (ProcNr × Request) → State → Option State
  | [], s => some s
  | (who, r) :: rs, s =>
    if s.reviving = 0 ∧ mayAsk s who r ∧ safe s who r then play safe rs (handle s roomyEnv who r)
    else none

theorem Reached.play {safe : State → ProcNr → Request → Prop} [∀ s who r, Decidable (safe s who r)]
    {rs : List (ProcNr × Request)} {s s' : State} (h : Reached safe s)
    (hplay : play safe rs s = some s') : Reached safe s' := by
  induction rs generalizing s with
  | nil =>
    cases hplay
    exact h
  | cons x rs ih =>
    obtain ⟨who, r⟩ := x
    unfold Fifo.play at hplay
    split at hplay
    · next hask => exact ih (.request h hask.1 hask.2.1 hask.2.2) hplay
    · cases hplay

/-- A run from the start, and something that is computed from the state it reaches. -/
theorem exists_reached {α : Type} (safe : State → ProcNr → Request → Prop)
    [∀ s who r, Decidable (safe s who r)] (rs : List (ProcNr × Request)) (v : State → α) (a : α)
    (hval : (play safe rs initialState).map v = some a) : ∃ s, Reached safe s ∧ v s = a := by
  obtain ⟨s, hplay, hv⟩ := Option.map_eq_some_iff.mp hval
  exact ⟨s, Reached.start.play hplay, hv⟩

/-- What the examples look at: whether the ends are open, and the two streams. -/
def look (s : State) : (Option FilpNr × Option FilpNr) × List UInt8 × List UInt8 :=
  ((findFilp s ⟨0, nrInodes_pos⟩ .reading, findFilp s ⟨0, nrInodes_pos⟩ .writing),
    (s.inode ⟨0, nrInodes_pos⟩).received, sentBytes (s.inode ⟨0, nrInodes_pos⟩).toInode)

/-- Process 3 opens a FIFO and hangs until process 4 opens it too; 4 writes two bytes, which 3 reads
one by one, so that both begin at the start again; 4 writes two more bytes and 3 reads one of them. -/
def drainedRun : List (ProcNr × Request) :=
  [(3, openEnd ⟨true, false⟩), (4, openEnd ⟨false, true⟩), (4, writeTwo),
    (3, .io .reading 0 1 fun _ => 0), (3, .io .reading 0 10 fun _ => 0), (4, writeTwo),
    (3, .io .reading 0 1 fun _ => 0)]

theorem fifo_stream_pair : ∃ s, Reached Careful s ∧
    look s = ((some 0, some 1), [1, 2, 1], [1, 2, 1, 2]) ∧ FifoGuarantee s (s.filp 0).ino := by
  obtain ⟨s, hr, hv⟩ := exists_reached Careful drainedRun (fun s => (look s, (s.filp 0).count))
    (((some 0, some 1), [1, 2, 1], [1, 2, 1, 2]), 1) (by decide +kernel)
  obtain ⟨hlook, hcount⟩ := Prod.mk.inj hv
  exact ⟨s, hr, hlook, fifo_stream hr (by rw [hcount]; decide)⟩

/-- **Bytes are overwritten**: processes 4 and 5 both open the FIFO for writing, and the byte
that 5 writes replaces the first one of 4, before process 3 reads. -/
theorem second_writer_overwrites : ∃ s, Reached (fun _ _ _ => True) s ∧
    (findFilp s ⟨0, by decide⟩ .reading).isSome = true ∧
    (findFilp s ⟨0, by decide⟩ .writing).isSome = true ∧
    ¬ (s.inode ⟨0, by decide⟩).received <+: sentBytes (s.inode ⟨0, by decide⟩).toInode := by
  obtain ⟨s, hr, hv⟩ := exists_reached (fun _ _ _ => True)
    [(3, openEnd ⟨true, false⟩), (4, openEnd ⟨false, true⟩), (5, openEnd ⟨false, true⟩),
      (4, writeTwo), (5, writeNine), (3, .io .reading 0 10 fun _ => 0)]
    look ((some 0, some 1), [9, 2], [1, 2, 9]) (by decide +kernel)
  simp only [look, Prod.mk.injEq] at hv
  obtain ⟨⟨hread, hwrite⟩, hreceived, hsent⟩ := hv
  refine ⟨s, hr, by rw [hread]; rfl, by rw [hwrite]; rfl, ?_⟩
  rw [hreceived, hsent]
  decide

end Example

end LisaMinix.Fs.Fifo
