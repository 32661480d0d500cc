import LisaMinix.Kernel.IpcRuns
import LisaMinix.Library.Mailboxes

/-!
# Messages and Mailboxes

What `mini_send` and `mini_rec` do, seen from the outside, is to run mailboxes with a selective
receive: the log of the kernel is a run of `Library.Mailboxes`, and the queues of blocked
senders, with the messages in their buffers, are the mailboxes that it ends with.

`MailOk` is the invariant that says so.  Messages are copied between the buffers of the processes
themselves, so it rests on who may write where: a process waits with its message in a buffer of
its own, and tasks, which share one address space, are trusted to use their own variables
(`Layout.home`).
-/

namespace LisaMinix.Kernel

open LisaMinix.Library Function
open LisaMinix.Mm (MemMaps nrProcs)

/-! ## §1 What the log says -/

/-- An entry of the log, as something that happens to mailboxes. -/
def LogEntry.mail : LogEntry → Mail ProcPtr Message ℤ
  | .sent s d msg => .sent s d msg
  | .taken s d msg src _ => .taken s d msg src
  | .lost s d msg => .lost s d msg
  | .interrupted d _ src => .passed d src

/-- The message names its sender; that of an interrupt is only for who wants one. -/
def LogEntry.Signed : LogEntry → Prop
  | .sent s _ msg => msg.mSource = procNumber s
  | .taken s _ msg _ _ => msg.mSource = procNumber s
  | .lost s _ msg => msg.mSource = procNumber s
  | .interrupted _ msg src => msg.mSource = hardwareNr ∧ msg.mType = hardInt ∧ isrxhardware src

/-- The message that `p` has been given. -/
def LogEntry.given (p : ProcPtr) : LogEntry → Option Message
  | .taken _ d msg _ _ => if d = p then some msg else none
  | .interrupted d msg _ => if d = p then some msg else none
  | _ => none

/-- The messages that `p` has been given, one after the other. -/
def givenTo (p : ProcPtr) (log : List LogEntry) : List Message := log.filterMap (LogEntry.given p)

/-- The receiver and the message that `s` has sent. -/
def LogEntry.sentBy (s : ProcPtr) : LogEntry → Option (ProcPtr × Message)
  | .sent a d msg => if a = s then some (d, msg) else none
  | _ => none

/-- What `s` has sent, one after the other. -/
def sentBy (s : ProcPtr) (log : List LogEntry) : List (ProcPtr × Message) :=
  log.filterMap (LogEntry.sentBy s)

theorem givenTo_append (p : ProcPtr) (log log' : List LogEntry) :
    givenTo p (log ++ log') = givenTo p log ++ givenTo p log' := List.filterMap_append

@[simp] theorem givenTo_sent : givenTo p (.sent s d msg :: log) = givenTo p log := rfl

@[simp] theorem givenTo_lost : givenTo p (.lost s d msg :: log) = givenTo p log := rfl

section Given

variable {p s d : ProcPtr} {msg : Message} {src : ℤ} {ahead : List ProcPtr} {log : List LogEntry}

@[simp] theorem givenTo_taken :
    givenTo p (.taken s d msg src ahead :: log) =
      (if d = p then [msg] else []) ++ givenTo p log := by
  by_cases h : d = p
  · simp [givenTo, LogEntry.given, h]
  · simp [givenTo, LogEntry.given, h]

@[simp] theorem givenTo_interrupted :
    givenTo p (.interrupted d msg src :: log) = (if d = p then [msg] else []) ++ givenTo p log := by
  by_cases h : d = p
  · simp [givenTo, LogEntry.given, h]
  · simp [givenTo, LogEntry.given, h]

@[simp] theorem givenTo_nil : givenTo p [] = [] := rfl

/-- Nobody is given a message that is lost. -/
theorem givenTo_map_lost (l : List (ProcPtr × ProcPtr)) :
    givenTo p (l.map fun x => .lost s x.2 msg) = [] := by
  induction l with
  | nil => rfl
  | cons x l ih => exact ih

end Given

theorem procNumber_injective : Function.Injective procNumber := by
  intro p q h
  simp only [procNumber] at h
  apply Fin.ext
  omega

theorem procNumber_ne_any (p : ProcPtr) : procNumber p ≠ any := by
  have hlt := p.isLt
  simp only [procNumber, any, nrTasks, nrProcs] at hlt ⊢
  omega

/-- Whose buffer a cell is in. -/
def owner (L : Layout) (c : Cell) : ProcPtr := c.space.getD (L.home c.addr)

theorem owner_user {L : Layout} {p : ProcPtr} (h : ¬ isKernelp p) (a : ℤ) :
    owner L (cell p a) = p := by
  simp [owner, cell, h]

theorem owner_m (k : KState) : owner k.layout k.cellM = systask := by
  simp [owner, KState.cellM, cell, k.layout.home_m, show isKernelp hardware by decide]

namespace KState

/-- The processes that wait to send to `d`, with their messages. -/
def mailbox (k : KState) (d : ProcPtr) : List (ProcPtr × Message) :=
  (callersOf k.waiting d).map fun s => (s, k.outgoing s (k.pMessbuf s))

/-- `p` uses a buffer of its own. -/
def Own (k : KState) (p : ProcPtr) (a : ℤ) : Prop := owner k.layout (cell p a) = p

/-- The processes that are sending are those that wait. -/
def Listed (k : KState) : Prop :=
  ∀ p, (k.pFlags p).sending = true ↔ p ∈ k.waiting.map Prod.fst

end KState

/-- What the kernel knows about messages. -/
structure MailOk (k : KState) : Prop where
  run : Run wanted (fun _ => []) (k.log.map LogEntry.mail) k.mailbox
  signed : ∀ e ∈ k.log, e.Signed
  /-- nobody waits to send to a process that waits for just that -/
  refused : ∀ s d, (s, d) ∈ k.waiting → s ≠ d → (k.pFlags d).receiving = true →
    wanted (k.pGetfrom d) s = false
  /-- a blocked `BOTH` waits for the answer of the process it sends to -/
  answer : ∀ s d, (s, d) ∈ k.waiting → (k.pFlags s).receiving = true →
    k.pGetfrom s = procNumber d
  buffer : ∀ p, (k.pFlags p).sending = true ∨ (k.pFlags p).receiving = true →
    k.Own p (k.pMessbuf p)
  /-- a message that has been copied is still there when the process runs -/
  arrived : ∀ p c msg, k.arrived p = some (c, msg) →
    owner k.layout c = p ∧ k.memory c = msg ∧ (givenTo p k.log).getLast? = some msg

/-! ## §2 What does not matter -/

section Frame

variable {k k' : KState} {p s d : ProcPtr} {a b src : ℤ} {msg : Message}

theorem KState.mailbox_congr (hw : k'.waiting = k.waiting)
    (hout : ∀ s d, (s, d) ∈ k.waiting →
      k'.outgoing s (k'.pMessbuf s) = k.outgoing s (k.pMessbuf s)) : k'.mailbox = k.mailbox := by
  funext d
  unfold KState.mailbox
  rw [hw]
  apply List.map_congr_left
  intro s hs
  rw [hout s d (mem_callersOf.mp hs)]

/-- The message of a process does not change when another one is given a message. -/
theorem KState.outgoing_put (hs : k.Own s a) (hd : k.Own d b) (hne : s ≠ d) :
    (k.put d b msg).outgoing s a = k.outgoing s a := by
  have hcell : cell s a ≠ cell d b := by
    intro heq
    apply hne
    rw [← hs, ← hd, heq]
  simp [outgoing, put, update_of_ne hcell]

/-- A process that is not sending waits for nobody to take its message. -/
theorem KState.Listed.ne (h : k.Listed) (hd : (k.pFlags d).sending = false)
    {x : ProcPtr} (hs : (s, x) ∈ k.waiting) : s ≠ d := by
  rintro rfl
  have hsend := (h s).mpr (List.mem_map_of_mem (f := Prod.fst) hs)
  simp [hd] at hsend

theorem MailOk.sameMail (h : MailOk k) (hsame : SameMail k k') : MailOk k' := by
  have hbox : k'.mailbox = k.mailbox := by
    apply KState.mailbox_congr hsame.waiting
    intro s d _
    simp only [KState.outgoing, hsame.memory, hsame.pMessbuf]
  refine ⟨?_, ?_, ?_, ?_, ?_, ?_⟩
  · rw [hsame.log, hbox]
    exact h.run
  · rw [hsame.log]
    exact h.signed
  · rw [hsame.waiting, hsame.pGetfrom]
    intro s d hsd hne hr
    exact h.refused s d hsd hne (by rw [← hsame.receiving]; exact hr)
  · rw [hsame.waiting, hsame.pGetfrom]
    intro s d hsd hr
    exact h.answer s d hsd (by rw [← hsame.receiving]; exact hr)
  · intro p hp
    rw [hsame.sending, hsame.receiving] at hp
    unfold KState.Own
    rw [hsame.layout, hsame.pMessbuf]
    exact h.buffer p hp
  · rw [hsame.arrived, hsame.layout, hsame.memory, hsame.log]
    exact h.arrived

/-- A process has used the message that has arrived. -/
theorem MailOk.forget (h : MailOk k) (p : ProcPtr) :
    MailOk { k with arrived := update k.arrived p none } := by
  refine ⟨h.run, h.signed, h.refused, h.answer, h.buffer, fun q c msg hq => ?_⟩
  dsimp only at hq
  by_cases hqp : q = p
  · subst hqp
    simp at hq
  · rw [update_of_ne hqp] at hq
    exact h.arrived q c msg hq

end Frame

/-! ## §3 Copying messages -/

section Copies

variable {k : KState} {p s d : ProcPtr} {a b src mPtr : ℤ} {msg : Message}

/-- The processes that wait go on waiting with the same messages when `d`, which is not
sending, is given one. -/
theorem MailOk.mailbox_put (h : MailOk k) (hl : k.Listed)
    (hd : (k.pFlags d).sending = false) (hb : k.Own d b) : (k.put d b msg).mailbox = k.mailbox := by
  have hout : ∀ s x, (s, x) ∈ k.waiting →
      (k.put d b msg).outgoing s ((k.put d b msg).pMessbuf s) = k.outgoing s (k.pMessbuf s) := by
    intro s x hs
    have hsend := (hl s).mpr (List.mem_map_of_mem (f := Prod.fst) hs)
    exact KState.outgoing_put (h.buffer s (.inl hsend)) hb (hl.ne hd hs)
  exact KState.mailbox_congr rfl hout

/-- The messages that have arrived, after `d` has been given one. -/
theorem MailOk.arrived_put (h : MailOk k) (hb : k.Own d b) {new : List LogEntry}
    (hnew : ∀ p, givenTo p new = if d = p then [msg] else []) :
    ∀ p c m, (k.put d b msg).arrived p = some (c, m) →
      owner k.layout c = p ∧ (k.put d b msg).memory c = m ∧
        (givenTo p (k.log ++ new)).getLast? = some m := by
  intro p c m hp
  rw [givenTo_append, hnew p]
  by_cases hdp : d = p
  · subst hdp
    simp only [KState.put, update_self, Option.some.injEq, Prod.mk.injEq] at hp
    obtain ⟨rfl, rfl⟩ := hp
    refine ⟨hb, ?_, ?_⟩
    · simp [KState.put]
    · simp
  · simp only [KState.put, update_of_ne (Ne.symm hdp)] at hp
    obtain ⟨hown, hmem, hlast⟩ := h.arrived p c m hp
    have hne : c ≠ cell d b := by
      rintro rfl
      exact hdp (hb.symm.trans hown)
    refine ⟨hown, ?_, ?_⟩
    · rw [← hmem]
      exact update_of_ne hne _ _
    · rw [if_neg hdp, List.append_nil]
      exact hlast

theorem KState.mem_mailbox {x : ProcPtr × Message} (hx : x ∈ k.mailbox d) :
    (x.1, d) ∈ k.waiting := by
  obtain ⟨s, hs, rfl⟩ := List.mem_map.mp hx
  exact mem_callersOf.mp hs

/-- Nobody in the mailbox of a process that is receiving is wanted. -/
theorem MailOk.mailbox_refused (h : MailOk k) (hl : k.Listed)
    (hrec : (k.pFlags d).receiving = true) (hsend : (k.pFlags d).sending = false) :
    ∀ x ∈ k.mailbox d, wanted (k.pGetfrom d) x.1 = false := by
  intro x hx
  have hmem := KState.mem_mailbox hx
  exact h.refused x.1 d hmem (hl.ne hsend hmem) hrec

/-- A message goes straight to a process that waits for it: it is put into the mailbox, and
taken from there at once. -/
theorem MailOk.delivered (h : MailOk k) (hl : k.Listed) (hacc : k.accepts d s = true)
    (mPtr : ℤ) : MailOk (k.delivered s d mPtr) := by
  simp only [KState.accepts, Bool.and_eq_true, Bool.not_eq_true'] at hacc
  obtain ⟨⟨hrec, hsend⟩, hwant⟩ := hacc
  have hb : k.Own d (k.pMessbuf d) := h.buffer d (.inr hrec)
  have hbox : (k.delivered s d mPtr).mailbox = k.mailbox := h.mailbox_put hl hsend hb
  have hflags : ∀ x, ((k.delivered s d mPtr).pFlags x).receiving = true →
      (k.pFlags x).receiving = true := by
    intro x hx
    by_cases hxd : x = d
    · rw [hxd, hrec]
    · simpa [KState.delivered, KState.setFlags, KState.put, hxd] using hx
  refine ⟨?_, ?_, ?_, ?_, ?_, ?_⟩
  · rw [hbox]
    simp only [KState.delivered, List.map_append, List.map_cons, List.map_nil, LogEntry.mail]
    rw [List.append_cons]
    refine (h.run.snoc .sent).snoc ?_
    have htaken : Delivers wanted
        (update k.mailbox d (k.mailbox d ++ [(s, k.outgoing s mPtr)]))
        (.taken s d (k.outgoing s mPtr) (k.pGetfrom d))
        (update (update k.mailbox d (k.mailbox d ++ [(s, k.outgoing s mPtr)])) d
          (k.mailbox d ++ [])) :=
      .taken (by rw [update_self]) (h.mailbox_refused hl hrec hsend) hwant
    simpa using htaken
  · intro e he
    simp only [KState.delivered, List.mem_append, List.mem_cons, List.not_mem_nil, or_false] at he
    rcases he with he | rfl | rfl
    · exact h.signed e he
    · rfl
    · rfl
  · intro x y hxy hne hr
    exact h.refused x y hxy hne (hflags y hr)
  · intro x y hxy hr
    exact h.answer x y hxy (hflags x hr)
  · intro x hx
    apply h.buffer x
    by_cases hxd : x = d
    · rw [hxd]
      exact .inr hrec
    · simpa [KState.delivered, KState.setFlags, KState.put, hxd] using hx
  · apply h.arrived_put hb
    intro p
    simp

/-- A receiver that does not accept a sender does not want it: when it is itself sending, it
waits for the answer of another process. -/
theorem MailOk.refused_new (h : MailOk k) (hc : k.Consistent) (hrec : (k.pFlags d).receiving = true)
    (hacc : k.accepts d s = false) (hcross : (d, s) ∉ k.waiting) :
    wanted (k.pGetfrom d) s = false := by
  cases hsend : (k.pFlags d).sending with
  | false => simpa [KState.accepts, hrec, hsend] using hacc
  | true =>
    obtain ⟨⟨a, e⟩, hmem, rfl⟩ := List.mem_map.mp ((hc.sending d).mp hsend)
    rw [h.answer _ e hmem hrec]
    unfold wanted
    simp only [decide_eq_false_iff_not, not_or]
    refine ⟨procNumber_ne_any e, fun heq => hcross ?_⟩
    rw [← procNumber_injective heq]
    exact hmem

/-- A sender that is not received from waits, with its message. -/
theorem MailOk.queued (h : MailOk k) (hc : k.Consistent) (hs : k.pFlags s = Flags.zero)
    (hown : k.Own s mPtr) (hacc : k.accepts d s = false) (hcross : (d, s) ∉ k.waiting) :
    MailOk (k.queued s d mPtr) := by
  have hnot : ∀ x, (s, x) ∉ k.waiting := by
    apply KState.not_waiting hc
    rw [hs]
    rfl
  have hflags : ∀ x, x ≠ s → (k.queued s d mPtr).pFlags x = k.pFlags x := by
    intro x hx
    exact update_of_ne hx _ _
  have hrec : ((k.queued s d mPtr).pFlags s).receiving = false := by
    simp [KState.queued, KState.setFlags, hs, Flags.zero]
  have hmess : ∀ x, x ≠ s → (k.queued s d mPtr).pMessbuf x = k.pMessbuf x := by
    intro x hx
    exact update_of_ne hx _ _
  refine ⟨?_, ?_, ?_, ?_, ?_, fun p c msg hp => ?_⟩
  · have hbox : (k.queued s d mPtr).mailbox =
        update k.mailbox d (k.mailbox d ++ [(s, k.outgoing s mPtr)]) := by
      have hold : ∀ x, (callersOf k.waiting x).map
            (fun y => (y, (k.queued s d mPtr).outgoing y ((k.queued s d mPtr).pMessbuf y))) =
          k.mailbox x := by
        intro x
        apply List.map_congr_left
        intro y hy
        rw [hmess y]
        · rfl
        · rintro rfl
          exact hnot x (mem_callersOf.mp hy)
      have hnew : (k.queued s d mPtr).pMessbuf s = mPtr := by simp [KState.queued, KState.setFlags]
      funext x
      by_cases hx : x = d
      · subst hx
        rw [update_self, ← hold]
        unfold KState.mailbox
        rw [show (k.queued s x mPtr).waiting = k.waiting ++ [(s, x)] from rfl,
          callersOf_append_self, List.map_append, List.map_singleton, hnew]
        rfl
      · rw [update_of_ne hx, ← hold]
        unfold KState.mailbox
        rw [show (k.queued s d mPtr).waiting = k.waiting ++ [(s, d)] from rfl,
          callersOf_append_of_ne hx]
    rw [hbox]
    simp only [KState.queued, List.map_append, List.map_cons, List.map_nil, LogEntry.mail]
    exact h.run.snoc .sent
  · intro e he
    rcases List.mem_append.mp he with he | he
    · exact h.signed e he
    · obtain rfl := List.mem_singleton.mp he
      rfl
  · intro x y hxy hne hr
    have hy : y ≠ s := by
      rintro rfl
      simp [hrec] at hr
    rw [hflags y hy] at hr
    rcases List.mem_append.mp hxy with hold | hnew
    · exact h.refused x y hold hne hr
    · obtain ⟨rfl, rfl⟩ := Prod.mk.inj (List.mem_singleton.mp hnew)
      exact h.refused_new hc hr hacc hcross
  · intro x y hxy hr
    have hx : x ≠ s := by
      rintro rfl
      simp [hrec] at hr
    rw [hflags x hx] at hr
    rcases List.mem_append.mp hxy with hold | hnew
    · exact h.answer x y hold hr
    · exact absurd (Prod.mk.inj (List.mem_singleton.mp hnew)).1 hx
  · intro x hx
    unfold KState.Own
    by_cases hxs : x = s
    · subst hxs
      rw [show (k.queued x d mPtr).pMessbuf x = mPtr by simp [KState.queued, KState.setFlags]]
      exact hown
    · rw [hflags x hxs] at hx
      rw [hmess x hxs]
      exact h.buffer x hx
  · obtain ⟨hc', hmem, hlast⟩ := h.arrived p c msg hp
    refine ⟨hc', hmem, ?_⟩
    simp only [KState.queued, givenTo_append, givenTo_sent, givenTo_nil, List.append_nil]
    exact hlast

/-- The mailboxes after the message of `s` has been taken. -/
theorem KState.mailbox_took (hc : k.Consistent) {pre post : List ProcPtr}
    (hq : callersOf k.waiting d = pre ++ s :: post) (hput : (k.put d mPtr msg).mailbox = k.mailbox)
    (hmsg : msg = k.outgoing s (k.pMessbuf s)) :
    (k.took d src mPtr s).mailbox = update k.mailbox d
      ((pre ++ post).map fun x => (x, k.outgoing x (k.pMessbuf x))) := by
  have hmem : (s, d) ∈ k.waiting := mem_callersOf.mp (by rw [hq]; simp)
  have hw : (k.took d src mPtr s).waiting = k.waiting.filter fun x => decide (x.1 ≠ s) := rfl
  -- the senders that are left still have their messages
  have hold : ∀ x, ∀ y ∈ callersOf k.waiting x,
      (k.took d src mPtr s).outgoing y ((k.took d src mPtr s).pMessbuf y) =
        k.outgoing y (k.pMessbuf y) := by
    intro x y hy
    have hx := congrFun hput x
    simp only [KState.mailbox] at hx
    have := List.map_inj_left.mp hx y hy
    rw [Prod.mk.injEq] at this
    rw [← this.2, hmsg]
    rfl
  funext x
  by_cases hx : x = d
  · subst hx
    rw [update_self]
    unfold KState.mailbox
    rw [hw, hc.callers.callersOf_filter_self pre post hq]
    apply List.map_congr_left
    intro y hy
    rw [hold x y]
    rw [hq]
    simp only [List.mem_append, List.mem_cons] at hy ⊢
    tauto
  · rw [update_of_ne hx]
    unfold KState.mailbox
    rw [hw, hc.callers.callersOf_filter_of_ne hmem hx]
    apply List.map_congr_left
    intro y hy
    rw [hold x y hy]

/-- The first sender that is wanted is no longer waiting. -/
theorem MailOk.took (h : MailOk k) (hc : k.Consistent) (hd : k.pFlags d = Flags.zero)
    (hown : k.Own d mPtr) {pre post : List ProcPtr}
    (hq : callersOf k.waiting d = pre ++ s :: post) (hpre : ∀ x ∈ pre, wanted src x = false)
    (hs : wanted src s = true) : MailOk (k.took d src mPtr s) := by
  have hmem : (s, d) ∈ k.waiting := mem_callersOf.mp (by rw [hq]; simp)
  have hsend : (k.pFlags d).sending = false := by rw [hd]; rfl
  have hput : ∀ msg, (k.put d mPtr msg).mailbox = k.mailbox :=
    fun _ => h.mailbox_put hc.sending hsend hown
  have hflags : ∀ x, ((k.took d src mPtr s).pFlags x).receiving = (k.pFlags x).receiving := by
    intro x
    by_cases hx : x = s
    · simp [KState.took, KState.setFlags, hx]
    · simp [KState.took, KState.setFlags, KState.put, hx]
  have hwait : ∀ x y, (x, y) ∈ (k.took d src mPtr s).waiting → (x, y) ∈ k.waiting := by
    intro x y hxy
    exact (List.mem_filter.mp hxy).1
  refine ⟨?_, ?_, ?_, ?_, ?_, ?_⟩
  · rw [KState.mailbox_took hc hq (hput _) rfl]
    simp only [KState.took, List.map_append, List.map_cons, List.map_nil, LogEntry.mail]
    have hbox : k.mailbox d = pre.map (fun x => (x, k.outgoing x (k.pMessbuf x))) ++
        (s, k.outgoing s (k.pMessbuf s)) :: post.map fun x => (x, k.outgoing x (k.pMessbuf x)) := by
      simp only [KState.mailbox, hq, List.map_append, List.map_cons]
    refine h.run.snoc (.taken hbox (fun x hx => ?_) hs)
    obtain ⟨y, hy, rfl⟩ := List.mem_map.mp hx
    exact hpre y hy
  · intro e he
    rcases List.mem_append.mp he with he | he
    · exact h.signed e he
    · obtain rfl := List.mem_singleton.mp he
      rfl
  · intro x y hxy hne hr
    rw [hflags] at hr
    exact h.refused x y (hwait x y hxy) hne hr
  · intro x y hxy hr
    rw [hflags] at hr
    exact h.answer x y (hwait x y hxy) hr
  · intro x hx
    rw [hflags] at hx
    apply h.buffer x
    rcases hx with hx | hx
    · left
      by_cases hxs : x = s
      · simp [KState.took, KState.setFlags, hxs] at hx
      · simpa [KState.took, KState.setFlags, KState.put, hxs] using hx
    · exact .inr hx
  · apply h.arrived_put hown
    intro p
    simp

/-- The message of an interrupt is put into the buffer of a process that finds no message. -/
theorem MailOk.putInterrupt (h : MailOk k) (hc : k.Consistent)
    (hsend : (k.pFlags d).sending = false) (hown : k.Own d mPtr) (hsrc : isrxhardware src)
    (hnone : ∀ x ∈ callersOf k.waiting d, wanted src x = false) :
    MailOk (k.putInterrupt d src mPtr) := by
  refine ⟨?_, ?_, h.refused, h.answer, h.buffer, ?_⟩
  · rw [show (k.putInterrupt d src mPtr).mailbox = k.mailbox from h.mailbox_put hc.sending hsend hown]
    simp only [KState.putInterrupt, List.map_append, List.map_cons, List.map_nil, LogEntry.mail]
    refine h.run.snoc (.passed fun x hx => ?_)
    exact hnone x.1 (mem_callersOf.mpr (KState.mem_mailbox hx))
  · intro e he
    rcases List.mem_append.mp he with he | he
    · exact h.signed e he
    · obtain rfl := List.mem_singleton.mp he
      exact ⟨rfl, rfl, hsrc⟩
  · apply h.arrived_put hown
    intro p
    simp

/-- A process is no longer receiving. -/
theorem MailOk.stop_receiving (h : MailOk k) (p : ProcPtr) :
    MailOk (k.setFlags p { k.pFlags p with receiving := false }) := by
  have hflags : ∀ x, ((k.setFlags p { k.pFlags p with receiving := false }).pFlags x).receiving =
      true → (k.pFlags x).receiving = true := by
    intro x hx
    by_cases hxp : x = p
    · simp [KState.setFlags, hxp] at hx
    · simpa [KState.setFlags, hxp] using hx
  refine ⟨h.run, h.signed, fun s d hsd hne hr => ?_, fun s d hsd hr => ?_, fun x hx => ?_, h.arrived⟩
  · exact h.refused s d hsd hne (hflags d hr)
  · exact h.answer s d hsd (hflags s hr)
  · apply h.buffer x
    rcases hx with hx | hx
    · left
      by_cases hxp : x = p
      · simpa [KState.setFlags, hxp] using hx
      · simpa [KState.setFlags, hxp] using hx
    · exact .inr (hflags x hx)

/-- A task that waits for an interrupt is given the message of one. -/
theorem MailOk.woken (h : MailOk k) (hc : k.Consistent) (hrec : (k.pFlags p).receiving = true)
    (hsend : (k.pFlags p).sending = false) (hsrc : isrxhardware (k.pGetfrom p)) :
    MailOk (k.woken p) := by
  have hput := h.putInterrupt hc hsend (h.buffer p (.inr hrec)) hsrc fun x hx =>
    h.mailbox_refused hc.sending hrec hsend (x, k.outgoing x (k.pMessbuf x)) (List.mem_map_of_mem hx)
  exact hput.stop_receiving p

/-- A process is blocked until a message from `src` comes: there is none yet, or its own has not
been taken by `src`. -/
theorem MailOk.receiverBlocked (h : MailOk k) (hown : k.Own d mPtr)
    (hnone : ∀ x ∈ callersOf k.waiting d, x ≠ d → wanted src x = false)
    (hsame : ∀ e, (d, e) ∈ k.waiting → src = procNumber e ∧ k.pMessbuf d = mPtr) :
    MailOk (k.receiverBlocked d src mPtr) := by
  have hmess : ∀ x y, (x, y) ∈ k.waiting → (k.receiverBlocked d src mPtr).pMessbuf x = k.pMessbuf x := by
    intro x y hxy
    by_cases hx : x = d
    · subst hx
      simp [KState.receiverBlocked, KState.setFlags, (hsame y hxy).2]
    · simp [KState.receiverBlocked, KState.setFlags, hx]
  have hflags : ∀ x, x ≠ d → (k.receiverBlocked d src mPtr).pFlags x = k.pFlags x := by
    intro x hx
    exact update_of_ne hx _ _
  have hfrom : ∀ x, x ≠ d → (k.receiverBlocked d src mPtr).pGetfrom x = k.pGetfrom x := by
    intro x hx
    exact update_of_ne hx _ _
  have hfrom' : (k.receiverBlocked d src mPtr).pGetfrom d = src := by
    simp [KState.receiverBlocked]
  refine ⟨?_, h.signed, ?_, ?_, ?_, h.arrived⟩
  · have hout : ∀ s x, (s, x) ∈ k.waiting →
        (k.receiverBlocked d src mPtr).outgoing s ((k.receiverBlocked d src mPtr).pMessbuf s) =
          k.outgoing s (k.pMessbuf s) := by
      intro s x hs
      rw [hmess s x hs]
      rfl
    have hbox : (k.receiverBlocked d src mPtr).mailbox = k.mailbox := KState.mailbox_congr rfl hout
    rw [hbox]
    exact h.run
  · intro s x hsx hne hr
    by_cases hx : x = d
    · subst hx
      rw [hfrom']
      exact hnone s (mem_callersOf.mpr hsx) hne
    · rw [hflags x hx] at hr
      rw [hfrom x hx]
      exact h.refused s x hsx hne hr
  · intro s x hsx hr
    by_cases hs : s = d
    · subst hs
      rw [hfrom']
      exact (hsame x hsx).1
    · rw [hflags s hs] at hr
      rw [hfrom s hs]
      exact h.answer s x hsx hr
  · intro x hx
    by_cases hxd : x = d
    · subst hxd
      unfold KState.Own
      rw [show (k.receiverBlocked x src mPtr).pMessbuf x = mPtr by
        simp [KState.receiverBlocked, KState.setFlags]]
      exact hown
    · rw [hflags x hxd] at hx
      unfold KState.Own
      rw [show (k.receiverBlocked d src mPtr).pMessbuf x = k.pMessbuf x by
        simp [KState.receiverBlocked, KState.setFlags, hxd]]
      exact h.buffer x hx

end Copies

/-! ## §4 Writing into buffers, new processes and old ones -/

section Changes

variable {k : KState} {p rc rpp rpc : ProcPtr} {c : Cell} {msg : Message} {addr : ℤ}

/-- A buffer is written that holds no message to be sent or read. -/
theorem MailOk.write (h : MailOk k) (hsend : ∀ x y, (x, y) ∈ k.waiting → cell x (k.pMessbuf x) ≠ c)
    (hread : ∀ x m, k.arrived x ≠ some (c, m)) (msg : Message) :
    MailOk { k with memory := update k.memory c msg } := by
  have hout : ∀ x y, (x, y) ∈ k.waiting →
      KState.outgoing { k with memory := update k.memory c msg } x (k.pMessbuf x) =
        k.outgoing x (k.pMessbuf x) := by
    intro x y hxy
    simp only [KState.outgoing, update_of_ne (hsend x y hxy)]
  have hbox : KState.mailbox { k with memory := update k.memory c msg } = k.mailbox :=
    KState.mailbox_congr rfl hout
  refine ⟨?_, h.signed, h.refused, h.answer, h.buffer, fun x c' m hx => ?_⟩
  · rw [hbox]
    exact h.run
  · obtain ⟨hown, hmem, hlast⟩ := h.arrived x c' m hx
    have hne : c' ≠ c := by
      rintro rfl
      exact hread x m hx
    refine ⟨hown, ?_, hlast⟩
    dsimp only
    rw [update_of_ne hne]
    exact hmem

/-- The running process has no flag set, also when it is IDLE. -/
theorem KState.running_flags (h : Inv k) : k.pFlags k.rdy.procPtr = Flags.zero := by
  by_cases hidle : k.rdy.procPtr = idle
  · exact (h.rest.slots _).pseudo (.inl hidle)
  · exact (KState.running_zero h hidle).1

/-- The running process writes into one of its buffers. -/
theorem MailOk.store (h : MailOk k) (hinv : Inv k) (hown : k.Own k.rdy.procPtr addr)
    (msg : Message) : MailOk (k.resumed.store addr msg) := by
  have hsend : (k.pFlags k.rdy.procPtr).sending = false := by
    rw [KState.running_flags hinv]
    rfl
  refine (h.forget k.rdy.procPtr).write (fun x y hxy heq => ?_) (fun x m hx => ?_) msg
  · have hx := (hinv.rest.sending x).mpr (List.mem_map_of_mem (f := Prod.fst) hxy)
    have hbuf := h.buffer x (.inl hx)
    unfold KState.Own at hbuf
    rw [heq] at hbuf
    exact KState.Listed.ne hinv.rest.sending hsend hxy (hbuf.symm.trans hown)
  · -- what has arrived for another process is in a buffer of that process
    dsimp only at hx
    by_cases hxp : x = k.rdy.procPtr
    · simp [hxp] at hx
    · rw [update_of_ne hxp] at hx
      exact hxp ((h.arrived x _ m hx).1.symm.trans hown)

/-- A child is given a copy of what is in the buffers of its parent. -/
theorem MailOk.forked (h : MailOk k) (hinv : Inv k) (hp : ForkPromise k rpp rpc)
    (hpc : ¬ isKernelp rpc) (base : ℕ) :
    MailOk (k.forked rpp rpc base) := by
  obtain ⟨hlive, hrec, hsend, hq, hfree⟩ := hp
  have hto : ∀ x, (x, rpc) ∉ k.waiting := fun x hmem => by
    simp [(hinv.rest.live x rpc hmem).2] at hfree
  have hfrom : ∀ x, (rpc, x) ∉ k.waiting := fun x hmem => by
    simp [(hinv.rest.live rpc x hmem).1] at hfree
  have hflags : ∀ x, x ≠ rpc → (k.forked rpp rpc base).pFlags x = k.pFlags x := by
    intro x hx
    exact update_of_ne hx _ _
  have hget : ∀ x, x ≠ rpc → (k.forked rpp rpc base).pGetfrom x = k.pGetfrom x := by
    intro x hx
    exact update_of_ne hx _ _
  have hmess : ∀ x, x ≠ rpc → (k.forked rpp rpc base).pMessbuf x = k.pMessbuf x := by
    intro x hx
    exact update_of_ne hx _ _
  -- only the buffers of the child change
  have hmem : ∀ c, owner k.layout c ≠ rpc → (k.forked rpp rpc base).memory c = k.memory c := by
    intro c hc
    refine if_neg fun hspace => hc ?_
    simp [owner, hspace]
  have hout : ∀ x y, (x, y) ∈ k.waiting →
      (k.forked rpp rpc base).outgoing x ((k.forked rpp rpc base).pMessbuf x) =
        k.outgoing x (k.pMessbuf x) := by
    intro x y hxy
    have hx : x ≠ rpc := fun hx => hfrom y (hx ▸ hxy)
    have hsx := (hinv.rest.sending x).mpr (List.mem_map_of_mem (f := Prod.fst) hxy)
    have hbuf := h.buffer x (.inl hsx)
    simp only [KState.outgoing]
    rw [hmess x hx, hmem _ (by rw [hbuf]; exact hx)]
  have hbox : (k.forked rpp rpc base).mailbox = k.mailbox := KState.mailbox_congr rfl hout
  refine ⟨?_, h.signed, fun x y hxy hne hr => ?_, fun x y hxy hr => ?_, fun x hx => ?_,
    fun x c msg hx => ?_⟩
  · rw [hbox]
    exact h.run
  · have hy : y ≠ rpc := fun hy => hto x (hy ▸ hxy)
    rw [hflags y hy] at hr
    rw [hget y hy]
    exact h.refused x y hxy hne hr
  · have hx : x ≠ rpc := fun hx => hfrom y (hx ▸ hxy)
    rw [hflags x hx] at hr
    rw [hget x hx]
    exact h.answer x y hxy hr
  · by_cases hxc : x = rpc
    · rw [hxc]
      exact owner_user hpc _
    · rw [hflags x hxc] at hx
      unfold KState.Own
      rw [hmess x hxc]
      exact h.buffer x hx
  · simp only [KState.forked] at hx
    by_cases hxc : x = rpc
    · simp [hxc] at hx
    · rw [update_of_ne hxc] at hx
      obtain ⟨hown, hmc, hlast⟩ := h.arrived x c msg hx
      refine ⟨hown, ?_, hlast⟩
      rw [hmem c (by rw [hown]; exact hxc), hmc]

/-- Every process waits to send one message only. -/
theorem filter_fst_eq {w : List (ProcPtr × ProcPtr)} {s d : ProcPtr}
    (hnd : (w.map Prod.fst).Nodup) (hmem : (s, d) ∈ w) :
    (w.filter fun x => decide (x.1 = s)) = [(s, d)] := by
  obtain ⟨l₁, l₂, rfl⟩ := List.append_of_mem hmem
  rw [List.map_append, List.map_cons] at hnd
  have hnot := (List.nodup_cons.mp (List.nodup_middle.mp hnd)).1
  rw [List.mem_append, not_or] at hnot
  have hnone : ∀ l : List (ProcPtr × ProcPtr), s ∉ l.map Prod.fst →
      (l.filter fun x => decide (x.1 = s)) = [] := by
    intro l hl
    refine List.filter_eq_nil_iff.mpr fun x hx => ?_
    simp only [decide_eq_true_eq]
    rintro rfl
    exact hl (List.mem_map_of_mem hx)
  rw [List.filter_append, hnone l₁ hnot.1, List.filter_cons_of_pos (by simp), hnone l₂ hnot.2]
  rfl

theorem KState.mailbox_exited (k : KState) (rc d : ProcPtr) :
    (k.exited rc).mailbox d = (k.mailbox d).filter fun x => decide (x.1 ≠ rc) := by
  simp only [mailbox, List.filter_map]
  rw [show (k.exited rc).waiting = k.waiting.filter fun x => decide (x.1 ≠ rc) from rfl,
    callersOf_filter]
  rfl

theorem MailOk.run_exited (h : MailOk k) (hc : k.Consistent) (rc : ProcPtr) :
    Run wanted (fun _ => []) ((k.exited rc).log.map LogEntry.mail) (k.exited rc).mailbox := by
  by_cases hmem : ∃ d, (rc, d) ∈ k.waiting
  · obtain ⟨d, hd⟩ := hmem
    obtain ⟨pre, post, hq⟩ := List.append_of_mem (mem_callersOf.mpr hd)
    have hleft := hc.callers.callersOf_filter_self pre post hq
    rw [callersOf_filter, hq] at hleft
    have hpre : ∀ x ∈ pre, x ≠ rc := by
      have hnd := (hc.callers.chain d).nodup
      rw [hq] at hnd
      rintro x hx rfl
      have hnot := (List.nodup_cons.mp (List.nodup_middle.mp hnd)).1
      exact hnot (List.mem_append_left _ hx)
    have hbox : (k.exited rc).mailbox = update k.mailbox d
        (pre.map (fun x => (x, k.outgoing x (k.pMessbuf x))) ++
          post.map fun x => (x, k.outgoing x (k.pMessbuf x))) := by
      funext x
      rw [KState.mailbox_exited]
      by_cases hx : x = d
      · subst hx
        rw [update_self, KState.mailbox, hq, List.filter_map, ← List.map_append, ← hleft]
        rfl
      · rw [update_of_ne hx]
        refine List.filter_eq_self.mpr fun y hy => ?_
        simp only [decide_eq_true_eq]
        rintro rfl
        exact hx (waiting_unique hc.callers.nodup (KState.mem_mailbox hy) hd)
    rw [hbox]
    simp only [KState.exited, filter_fst_eq hc.callers.nodup hd, List.map_append, List.map_cons,
      List.map_nil, LogEntry.mail]
    refine h.run.snoc (.lost ?_ fun x hx => ?_)
    · simp only [KState.mailbox, hq, List.map_append, List.map_cons]
    · obtain ⟨y, hy, rfl⟩ := List.mem_map.mp hx
      exact hpre y hy
  · have hnone : ∀ x ∈ k.waiting, x.1 ≠ rc := by
      rintro x hx rfl
      exact hmem ⟨x.2, hx⟩
    have hnil : (k.waiting.filter fun x => decide (x.1 = rc)) = [] :=
      List.filter_eq_nil_iff.mpr fun x hx => by simpa using hnone x hx
    have hsame : (k.exited rc).mailbox = k.mailbox := by
      funext d
      rw [KState.mailbox_exited]
      refine List.filter_eq_self.mpr fun x hx => ?_
      simpa using hnone _ (KState.mem_mailbox hx)
    rw [hsame]
    simp only [KState.exited, hnil, List.map_nil, List.append_nil]
    exact h.run

/-- A process exits: its message, if it was waiting to send one, is lost. -/
theorem MailOk.exited (h : MailOk k) (hc : k.Consistent) (rc : ProcPtr) : MailOk (k.exited rc) := by
  have hflags : ∀ x, x ≠ rc → (k.exited rc).pFlags x = k.pFlags x := by
    intro x hx
    exact update_of_ne hx _ _
  have hfree : (k.exited rc).pFlags rc = Flags.free := update_self ..
  have hwait : ∀ x y, (x, y) ∈ (k.exited rc).waiting → (x, y) ∈ k.waiting ∧ x ≠ rc := by
    intro x y hxy
    simpa [KState.exited] using hxy
  refine ⟨h.run_exited hc rc, fun e he => ?_, fun x y hxy hne hr => ?_, fun x y hxy hr => ?_,
    fun x hx => ?_, fun x c msg hx => ?_⟩
  · rcases List.mem_append.mp he with he | he
    · exact h.signed e he
    · obtain ⟨x, -, rfl⟩ := List.mem_map.mp he
      rfl
  · have hy : y ≠ rc := by
      rintro rfl
      simp [hfree, Flags.free, Flags.zero] at hr
    rw [hflags y hy] at hr
    exact h.refused x y (hwait x y hxy).1 hne hr
  · obtain ⟨hmem, hx⟩ := hwait x y hxy
    rw [hflags x hx] at hr
    exact h.answer x y hmem hr
  · have hxc : x ≠ rc := by
      rintro rfl
      simp [hfree, Flags.free, Flags.zero] at hx
    rw [hflags x hxc] at hx
    exact h.buffer x hx
  · simp only [KState.exited, KState.slotFreed] at hx
    by_cases hxc : x = rc
    · simp [hxc] at hx
    · rw [update_of_ne hxc] at hx
      obtain ⟨hown, hmc, hlast⟩ := h.arrived x c msg hx
      refine ⟨hown, hmc, ?_⟩
      simp only [KState.exited, givenTo_append]
      rw [givenTo_map_lost, List.append_nil]
      exact hlast

end Changes

end LisaMinix.Kernel
