import LisaMinix.Kernel.Messages

/-!
# Messages Are Delivered

Every call of the kernel keeps `MailOk`, so that messages are delivered in every run.

One buffer has two users: `inform` puts its message for MM into the variable `m` of the system
task, also when it is called by another task.  A run is `Careful` as long as this does not happen
while `m` holds a message that the system task has still to read or to send; `m_overwritten` is
what happens otherwise.
-/

namespace LisaMinix.Kernel

open LisaMinix.Library
open LisaMinix.Mm (MemMaps)

/-! ## §1 Signals -/

/-- The variable `m` of the system task holds no message that the task has still to read or to
send. -/
def MFree (k : KState) : Prop :=
  (k.arrived systask).map Prod.fst ≠ some k.cellM ∧
    ((k.pFlags systask).sending = true → k.pMessbuf systask ≠ k.layout.addrM)

section Signals

variable {k k' : KState} {rp : ProcPtr} {sigNr : ℕ}

theorem MFree.sameMail (h : MFree k) (hsame : SameMail k k') : MFree k' := by
  unfold MFree KState.cellM
  rw [hsame.arrived, hsame.layout, hsame.sending, hsame.pMessbuf]
  exact h

theorem KState.Listed.sameMail (h : k.Listed) (hsame : SameMail k k') : k'.Listed := by
  intro p
  rw [hsame.sending, hsame.waiting]
  exact h p

theorem cell_systask (k : KState) (a : ℤ) : cell systask a = k.cellM ↔ a = k.layout.addrM := by
  simp [cell, KState.cellM, show isKernelp systask by decide, show isKernelp hardware by decide]

/-- The message about the signals of `rp` is put into `m`. -/
theorem MailOk.writeKsig (h : MailOk k) (hl : k.Listed) (hfree : MFree k) (rp : ProcPtr) :
    MailOk (k.writeKsig rp) := by
  have hw : MailOk { k with
      memory := Function.update k.memory k.cellM
        { k.memory k.cellM with
          mType := ksig, proc1 := procNumber rp, sigMap := k.pPending rp } } := by
    refine h.write (fun x y hxy heq => ?_) (fun x m hx => ?_) _
    · have hx := (hl x).mpr (List.mem_map_of_mem (f := Prod.fst) hxy)
      have hown := h.buffer x (.inl hx)
      unfold KState.Own at hown
      rw [heq, owner_m] at hown
      subst hown
      exact hfree.2 hx ((cell_systask k _).mp heq)
    · have hown := (h.arrived x _ m hx).1
      rw [owner_m] at hown
      subst hown
      exact hfree.1 (by rw [hx]; rfl)
  exact hw.sameMail ⟨rfl, rfl, rfl, rfl, rfl, rfl, rfl, rfl, rfl, rfl, fun _ => rfl, fun _ => rfl,
    fun _ => rfl⟩

/-- MM is told of signals. -/
theorem MailOk.informed (h : MailOk k) (hl : k.Listed)
    (hmm : k.mmIdle = true → (k.pFlags mm).sending = false) (hfree : MFree k)
    (hinf : Informed k k') : MailOk k' := by
  obtain ⟨hidle, -, rp, -, hsame⟩ := hinf
  have hsend := hmm hidle
  simp only [KState.mmIdle, Bool.and_eq_true, decide_eq_true_eq] at hidle
  have hacc : (k.writeKsig rp).accepts mm hardware = true := by
    simp [KState.accepts, KState.writeKsig, wanted, hidle.1, hidle.2, hsend]
  have hdel := (h.writeKsig hl hfree rp).delivered (s := hardware) (d := mm) hl hacc k.layout.addrM
  exact hdel.sameMail hsame

/-- When MM waits for anyone it is not sending. -/
theorem Inv.mm_not_sending (h : Inv k) (hsame : SameMail k k') (hidle : k'.mmIdle = true) :
    (k'.pFlags mm).sending = false := by
  simp only [KState.mmIdle, Bool.and_eq_true, decide_eq_true_eq, hsame.receiving,
    hsame.pGetfrom] at hidle
  rw [hsame.sending]
  exact (h.rest.slots mm).fromAny hidle.1 hidle.2

theorem MailOk.caused (h : MailOk k) (hinv : Inv k) (hfree : MFree k)
    (hc : Caused k rp sigNr k') : MailOk k' := by
  rcases hc.mail with hsame | ⟨k₁, hsame, hinf⟩
  · exact h.sameMail hsame
  · exact (h.sameMail hsame).informed (KState.Listed.sameMail hinv.rest.sending hsame)
      (hinv.mm_not_sending hsame) (hfree.sameMail hsame) hinf

end Signals

/-! ## §2 System calls -/

section Calls

variable {k k' : KState} {s d : ProcPtr} {f : Func} {dest srcDest src mPtr n : ℤ}

theorem sentBy_informed (hinf : Informed k k') (hs : s ≠ hardware) :
    sentBy s k'.log = sentBy s k.log := by
  obtain ⟨-, -, rp, -, hsame⟩ := hinf
  rw [hsame.log]
  simp [KState.delivered, KState.writeKsig, sentBy, LogEntry.sentBy, Ne.symm hs]

/-- `mini_send`: the message is logged when the result is `OK`, and nothing changes otherwise. -/
theorem MailOk.sent (h : MailOk k) (hinv : Inv k) (hs : k.pFlags s = Flags.zero)
    (hown : k.Own s mPtr) (hsent : Sent k s dest mPtr n k') :
    MailOk k' ∧ (n ≠ ok → k' = k) ∧ (n = ok → ∃ d, procAddr dest = some d ∧
      sentBy s k'.log = sentBy s k.log ++ [(d, k.outgoing s mPtr)]) := by
  cases hsent with
  | refused hn => exact ⟨h, fun _ => rfl, fun hok => absurd hok hn⟩
  | delivered hd haddr hacc hproc =>
    refine ⟨(h.delivered hinv.rest.sending hacc mPtr).sameMail ((SameMail.refl _).with_rdy _),
      fun hn => absurd rfl hn, fun _ => ⟨_, hd, ?_⟩⟩
    simp [KState.delivered, sentBy, LogEntry.sentBy]
  | queued hd haddr hacc hcross =>
    refine ⟨(h.queued hinv.rest hs hown hacc hcross).sameMail
      ⟨rfl, rfl, rfl, rfl, rfl, rfl, rfl, rfl, rfl, rfl, fun _ => rfl, fun _ => rfl, fun _ => rfl⟩,
      fun hn => absurd rfl hn, fun _ => ⟨_, hd, ?_⟩⟩
    simp [KState.queued, sentBy, LogEntry.sentBy]

/-- The end of `mini_rec`: the caller is blocked, and MM may be told of signals. -/
theorem MailOk.blocked (h : MailOk k) (hinv : Inv k) {r : Ready} (hown : k.Own d mPtr)
    (hnone : ∀ x ∈ callersOf k.waiting d, x ≠ d → wanted src x = false)
    (hsame : ∀ e, (d, e) ∈ k.waiting → src = procNumber e ∧ k.pMessbuf d = mPtr)
    (hany : src = any → (k.pFlags d).sending = false) (hfree : d = mm → src = any → MFree k)
    (hout : k' = { k.receiverBlocked d src mPtr with rdy := r } ∨
      (d = mm ∧ src = any ∧ Informed { k.receiverBlocked d src mPtr with rdy := r } k')) :
    MailOk k' := by
  have hb : MailOk { k.receiverBlocked d src mPtr with rdy := r } :=
    (h.receiverBlocked hown hnone hsame).sameMail ((SameMail.refl _).with_rdy _)
  have hsend : ∀ x, ((k.receiverBlocked d src mPtr).pFlags x).sending = (k.pFlags x).sending := by
    intro x
    by_cases hx : x = d
    · simp [KState.receiverBlocked, KState.setFlags, hx]
    · simp [KState.receiverBlocked, KState.setFlags, hx]
  rcases hout with rfl | ⟨rfl, rfl, hinf⟩
  · exact hb
  · refine hb.informed (fun p => ?_) (fun _ => ?_) ?_ hinf
    · exact (iff_of_eq (congrArg (· = true) (hsend p))).trans (hinv.rest.sending p)
    · exact (hsend mm).trans (hany rfl)
    · -- only the slot of MM has changed
      have hne : systask ≠ mm := by decide
      obtain ⟨hread, hm⟩ := hfree rfl rfl
      refine ⟨hread, fun hs => ?_⟩
      simp only [KState.receiverBlocked, Function.update_of_ne hne]
      exact hm (((hsend systask).symm.trans hs))

/-- `mini_rec`, called by a process that is running. -/
theorem MailOk.received (h : MailOk k) (hinv : Inv k) (hd : k.pFlags d = Flags.zero)
    (hown : k.Own d mPtr) (hfree : d = mm → src = any → MFree k)
    (hrec : Received k d src mPtr k') : MailOk k' := by
  have hsend : (k.pFlags d).sending = false := by rw [hd]; rfl
  cases hrec with
  | took hq hpre hs hproc =>
    exact (h.took hinv.rest hd hown hq hpre hs).sameMail
      ⟨rfl, rfl, rfl, rfl, rfl, rfl, rfl, rfl, rfl, rfl, fun _ => rfl, fun _ => rfl, fun _ => rfl⟩
  | interrupted _ hnone hblocked hsrc => exact h.putInterrupt hinv.rest hsend hown hsrc hnone
  | blocked hnone hout =>
    exact h.blocked hinv hown (fun x hx _ => (hnone hsend).1 x hx)
      (fun e he => absurd he (KState.not_waiting hinv.rest hsend e)) (fun _ => hsend) hfree hout

theorem sentBy_received (hs : s ≠ hardware) (hrec : Received k d src mPtr k') :
    sentBy s k'.log = sentBy s k.log := by
  cases hrec with
  | took => simp [KState.took, sentBy, LogEntry.sentBy]
  | interrupted => simp [KState.putInterrupt, sentBy, LogEntry.sentBy]
  | blocked _ hout =>
    rcases hout with rfl | ⟨-, -, hinf⟩
    · rfl
    · exact (sentBy_informed hinf hs).trans rfl

/-- `mini_rec` in a `BOTH` whose message has not been taken yet. -/
theorem MailOk.both_queued (h : MailOk k) (hinv : Inv k) (hreal : ¬ isIdleHardware s)
    (hown : k.Own s mPtr) (hd : procAddr srcDest = some d) (hmem : (s, d) ∈ k.waiting)
    (hmess : k.pMessbuf s = mPtr) (hrun : k.miniRec s srcDest mPtr = .ok k') :
    MailOk k' ∧ sentBy s k'.log = sentBy s k.log := by
  have hsrc := procAddr_eq_some hd
  have hany : srcDest ≠ any := by
    rw [hsrc]
    exact procNumber_ne_any d
  have hsend := (hinv.rest.sending s).mpr (List.mem_map_of_mem (f := Prod.fst) hmem)
  obtain ⟨r, k₁, hk1, -, hout⟩ :=
    KState.blockReceiver_spec hinv hreal (fun ha => absurd ha hany) mPtr
  have heq : k₁ = k' := by
    unfold KState.miniRec at hrun
    rw [if_pos hsend, hk1] at hrun
    exact Except.ok.inj hrun
  subst heq
  refine ⟨h.blocked hinv hown (fun x hx hne => ?_) (fun e he => ?_) (fun ha => absurd ha hany)
    (fun _ ha => absurd ha hany) hout, ?_⟩
  · -- the process whose answer is wanted is not sending to this one
    have hcross := hinv.rest.crossed s d
    unfold wanted
    simp only [decide_eq_false_iff_not, not_or]
    refine ⟨hany, fun hx' => ?_⟩
    have hxd : d = x := procNumber_injective (hsrc.symm.trans hx')
    subst hxd
    exact hcross (Ne.symm hne) hmem (mem_callersOf.mp hx)
  · have hed : e = d := waiting_unique hinv.rest.callers.nodup he hmem
    subst hed
    exact ⟨hsrc, hmess⟩
  · rcases hout with rfl | ⟨-, ha, -⟩
    · rfl
    · exact absurd ha hany

/-- A system call keeps what is known about messages; a send is logged, once, when it returns
`OK`, and a call that is refused changes nothing. -/
theorem MailOk.sysCall (h : MailOk k) (hinv : Inv k) (hidle : k.rdy.procPtr ≠ idle)
    (htrust : isuserp k.rdy.procPtr ∨ f = .receive ∨ srcDest ≠ any)
    (hown : k.Own k.rdy.procPtr mPtr) (hfree : k.rdy.procPtr = mm → srcDest = any → MFree k)
    (hrun : k.sysCall f srcDest mPtr = .ok (n, k')) :
    MailOk k' ∧ (n ≠ ok → k' = k) ∧
      (n = ok → f ≠ .receive → ∃ d, procAddr srcDest = some d ∧
        sentBy k.rdy.procPtr k'.log =
          sentBy k.rdy.procPtr k.log ++ [(d, k.outgoing k.rdy.procPtr mPtr)]) := by
  obtain ⟨hzero, hreal⟩ := KState.running_zero hinv hidle
  have hhard : k.rdy.procPtr ≠ hardware := fun hx => hreal (.inr hx)
  unfold KState.sysCall at hrun
  by_cases hsrc : ¬ isoksrcDest srcDest
  · rw [if_pos hsrc] at hrun
    obtain ⟨rfl, rfl⟩ := Prod.mk.inj (Except.ok.inj hrun)
    exact ⟨h, fun _ => rfl, fun hn => absurd hn (by decide)⟩
  rw [if_neg hsrc] at hrun
  by_cases hperm : f ≠ .both ∧ isuserp k.rdy.procPtr
  · rw [if_pos hperm] at hrun
    obtain ⟨rfl, rfl⟩ := Prod.mk.inj (Except.ok.inj hrun)
    exact ⟨h, fun _ => rfl, fun hn => absurd hn (by decide)⟩
  rw [if_neg hperm] at hrun
  have hdest : f ≠ .receive → isuserp k.rdy.procPtr ∨ isokprocn srcDest := by
    intro hf
    rcases htrust with hu | hr | hne
    · exact .inl hu
    · exact absurd hr hf
    · exact .inr ((not_not.mp hsrc).resolve_right hne)
  cases f with
  | send =>
    obtain ⟨n', k₁, hk1, -, hsent⟩ := KState.miniSend_spec hinv hzero hreal (hdest (by decide)) mPtr
    obtain ⟨rfl, rfl⟩ := Prod.mk.inj (Except.ok.inj (hk1.symm.trans hrun))
    obtain ⟨hok, hbad, hlog⟩ := h.sent hinv hzero hown hsent
    exact ⟨hok, hbad, fun hn _ => hlog hn⟩
  | receive =>
    obtain ⟨k₁, hk1, -, hrec⟩ := KState.miniRec_spec srcDest hinv hreal
      (fun _ => by rw [hzero]; rfl) mPtr
    simp only [hk1, map_ok] at hrun
    obtain ⟨rfl, rfl⟩ := Prod.mk.inj (Except.ok.inj hrun)
    exact ⟨h.received hinv hzero hown hfree hrec, fun hn => absurd rfl hn,
      fun _ hf => absurd rfl hf⟩
  | both =>
    obtain ⟨n', k₁, hk1, hinv1, hsent⟩ :=
      KState.miniSend_spec hinv hzero hreal (hdest (by decide)) mPtr
    obtain ⟨hok, hbad, hlog⟩ := h.sent hinv hzero hown hsent
    simp only [hk1, ok_bind] at hrun
    by_cases hn : n' ≠ ok
    · rw [if_pos hn] at hrun
      obtain ⟨rfl, rfl⟩ := Prod.mk.inj (Except.ok.inj hrun)
      exact ⟨hok, hbad, fun ho => absurd ho hn⟩
    rw [if_neg hn] at hrun
    obtain rfl := not_not.mp hn
    obtain ⟨d, hd, hlog'⟩ := hlog rfl
    have hany : srcDest ≠ any := by
      rw [procAddr_eq_some hd]
      exact procNumber_ne_any d
    obtain ⟨k₂, hk2, hres⟩ := map_eq_ok hrun
    obtain ⟨rfl, rfl⟩ := Prod.mk.inj hres
    suffices hs : MailOk k₂ ∧ sentBy k.rdy.procPtr k₂.log = sentBy k.rdy.procPtr k₁.log from
      ⟨hs.1, fun hn => absurd rfl hn, fun _ _ => ⟨d, hd, hs.2.trans hlog'⟩⟩
    cases hsent with
    | refused hn => exact absurd rfl hn
    | @delivered e r he haddr hacc hproc =>
      -- the caller is still running
      have hne : k.rdy.procPtr ≠ e := by
        rintro rfl
        simp [KState.accepts, hzero, Flags.zero] at hacc
      have hzero' : (k.delivered k.rdy.procPtr e mPtr).pFlags k.rdy.procPtr = Flags.zero := by
        simp [KState.delivered, KState.setFlags, KState.put, hne, hzero]
      obtain ⟨k₃, hk3, -, hrec⟩ := KState.miniRec_spec srcDest hinv1 hreal
        (fun _ => by rw [hzero']; rfl) mPtr
      obtain rfl := Except.ok.inj (hk3.symm.trans hk2)
      exact ⟨hok.received hinv1 hzero' hown (fun _ ha => absurd ha hany) hrec,
        sentBy_received hhard hrec⟩
    | @queued e r c he haddr hacc hcross =>
      refine hok.both_queued hinv1 hreal hown he ?_ ?_ hk2
      · exact List.mem_append_right _ (List.mem_singleton_self _)
      · simp [KState.queued, KState.setFlags]

end Calls

/-! ## §3 Runs -/

/-- Processes use their own buffers. -/
def OwnBuffer (k : KState) : Event → Prop
  | .sysCall _ _ mPtr => k.Own k.rdy.procPtr mPtr
  | .store addr _ => k.Own k.rdy.procPtr addr
  | _ => True

/-- MM is not told of signals while `m` is in use. -/
def MCare (k : KState) : Event → Prop
  | .sysCall _ srcDest _ => k.rdy.procPtr = mm → srcDest = any → MFree k.resumed
  | .causeSig .. => MFree k.resumed
  | .kill .. => MFree k.resumed
  | .exec .. => MFree k.resumed
  | _ => True

/-- The events of the runs in which messages are delivered. -/
def Careful (k : KState) (e : Event) : Prop := Promised k e ∧ OwnBuffer k e ∧ MCare k e

instance (k : KState) (p : ProcPtr) (a : ℤ) : Decidable (k.Own p a) :=
  inferInstanceAs (Decidable (_ = _))

instance (k : KState) : Decidable (MFree k) := inferInstanceAs (Decidable (_ ∧ _))

instance (k : KState) : DecidablePred (OwnBuffer k)
  | .sysCall _ _ mPtr => inferInstanceAs (Decidable (k.Own k.rdy.procPtr mPtr))
  | .store addr _ => inferInstanceAs (Decidable (k.Own k.rdy.procPtr addr))
  | .async .. | .unhold | .sched | .causeSig .. | .fork .. | .exec .. | .xit .. | .sig ..
  | .kill .. | .trace .. | .newmap .. => .isTrue trivial

instance (k : KState) : DecidablePred (MCare k)
  | .sysCall _ srcDest _ =>
    inferInstanceAs (Decidable (k.rdy.procPtr = mm → srcDest = any → MFree k.resumed))
  | .causeSig .. => inferInstanceAs (Decidable (MFree k.resumed))
  | .kill .. => inferInstanceAs (Decidable (MFree k.resumed))
  | .exec .. => inferInstanceAs (Decidable (MFree k.resumed))
  | .store .. | .async .. | .unhold | .sched | .fork .. | .xit .. | .sig .. | .trace ..
  | .newmap .. => .isTrue trivial

instance (k : KState) : DecidablePred (Careful k) := fun _ =>
  inferInstanceAs (Decidable (_ ∧ _ ∧ _))

section Events

variable {k k' : KState} {e : Event} {rp : ProcPtr} {n : ℤ}

theorem MailOk.interrupted (h : MailOk k) (hinv : Inv k) (hint : Interrupted k rp k') :
    MailOk k' := by
  cases hint with
  | woken hrec hsend hsrc hproc =>
    exact (h.woken hinv.rest hrec hsend hsrc).sameMail ((SameMail.refl _).with_rdy _)
  | blocked hnot => exact ⟨h.run, h.signed, h.refused, h.answer, h.buffer, h.arrived⟩

/-- Every careful event keeps what is known about messages. -/
theorem MailOk.perform (h : MailOk k) (hinv : Inv k) (hc : Careful k e)
    (hrun : k.perform e = .ok (n, k')) : MailOk k' := by
  have hres : MailOk k.resumed := h.forget k.rdy.procPtr
  have hinv' : Inv k.resumed := KState.resumed_inv hinv
  obtain ⟨hp, hown, hcare⟩ := hc
  obtain ⟨-, hout⟩ := KState.perform_cases hinv hp hrun
  cases hout with
  | called hzero hcalled =>
    exact (hres.sysCall hinv' hp.1 hp.2 hown hcare hrun).1
  | stored => exact h.store hinv hown _
  | async hrp hasync =>
    cases hasync with
    | held => exact ⟨h.run, h.signed, h.refused, h.answer, h.buffer, h.arrived⟩
    | now hnow => exact (h.interrupted hinv hnow).sameMail ((SameMail.refl _).with_rdy _)
  | unheld hun =>
    cases hun with
    | nothing => exact h
    | @repeated rp _ hhead hnow =>
      have hrel : MailOk (k.released rp) :=
        ⟨h.run, h.signed, h.refused, h.answer, h.buffer, h.arrived⟩
      exact hrel.interrupted (KState.released_inv hinv hhead).1 hnow
  | quiet hsame => exact hres.sameMail hsame
  | finished _ _ hsame => exact hres.sameMail hsame
  | caused he hcaused =>
    rcases he with rfl | ⟨pr, rfl, -⟩
    · exact hres.caused hinv' hcare hcaused
    · exact hres.caused hinv' hcare hcaused
  | forked hpp hpc hfork => exact hres.forked hinv' hfork (susern_eq_some hpc) _
  | @execed proc1 traced rp k₁ r hrp hcaused =>
    have hk1 : MailOk k₁ := by
      rcases hcaused with ⟨-, rfl⟩ | ⟨-, hcaused⟩
      · exact hres
      · exact hres.caused hinv' hcare hcaused
    exact (hk1.stop_receiving rp).sameMail ((SameMail.refl _).with_rdy _)
  | remapped hrp => exact ⟨hres.run, hres.signed, hres.refused, hres.answer, hres.buffer, hres.arrived⟩
  | exited hrp hrc hxit =>
    exact (hres.exited hinv'.rest _).sameMail
      ⟨rfl, rfl, rfl, rfl, rfl, rfl, rfl, rfl, rfl, rfl, fun _ => rfl, fun _ => rfl, fun _ => rfl⟩

variable {L : Layout} {map : ProcPtr → MemMaps} {memory : Cell → Message}

theorem boot_mailOk (h : boot L map memory = .ok k) : MailOk k := by
  obtain ⟨r, -, rfl⟩ := map_eq_ok h
  have hidle : ∀ p, (startFlags p).sending = false ∧ (startFlags p).receiving = false := by decide
  refine ⟨Run.nil, ?_, ?_, ?_, fun p hp => ?_, ?_⟩
  · simp
  · simp
  · simp
  · simp [hidle p] at hp
  · simp

theorem Reached.promised {allowed : KState → Event → Prop} (hall : ∀ k e, allowed k e → Promised k e)
    (h : Reached allowed L map memory k) : Reached Promised L map memory k := by
  induction h with
  | boot h => exact .boot h
  | step _ hp hrun ih => exact ih.step (hall _ _ hp) hrun

theorem Reached.mailOk (h : Reached Careful L map memory k) : MailOk k := by
  induction h with
  | boot h => exact boot_mailOk h
  | step hk hp hrun ih => exact ih.perform (hk.promised fun _ _ hc => hc.1).inv hp hrun

/-- What the processes can rely on. -/
structure MailsKept (k : KState) : Prop where
  /-- the log is a run of mailboxes with a selective receive, which ends with the queues of
  senders -/
  run : Run wanted (fun _ => []) (k.log.map LogEntry.mail) k.mailbox
  /-- every message was received once, or lost, in the order in which they were sent, unless it is
  still in the buffer of its sender, which is blocked -/
  conserved : ∀ s d, sentTo s d (k.log.map LogEntry.mail) =
    goneFrom s d (k.log.map LogEntry.mail) ++
      if (s, d) ∈ k.waiting then [k.outgoing s (k.pMessbuf s)] else []
  /-- messages name their senders -/
  signed : ∀ e ∈ k.log, e.Signed
  /-- the last message that a process was given is in its own buffer when it runs again -/
  arrived : ∀ p c msg, k.arrived p = some (c, msg) →
    owner k.layout c = p ∧ k.memory c = msg ∧ (givenTo p k.log).getLast? = some msg

/-- A blocked sender has one message in the mailbox of its receiver. -/
theorem messagesOf_mailbox (hc : k.Consistent) (s d : ProcPtr) :
    messagesOf s (k.mailbox d) =
      if (s, d) ∈ k.waiting then [k.outgoing s (k.pMessbuf s)] else [] := by
  by_cases hmem : (s, d) ∈ k.waiting
  · rw [if_pos hmem]
    obtain ⟨pre, post, hq⟩ := List.append_of_mem (mem_callersOf.mpr hmem)
    have hnd := (hc.callers.chain d).nodup
    rw [hq] at hnd
    have hnot := (List.nodup_cons.mp (List.nodup_middle.mp hnd)).1
    rw [List.mem_append, not_or] at hnot
    have hnone : ∀ l : List ProcPtr, s ∉ l →
        messagesOf s (l.map fun x => (x, k.outgoing x (k.pMessbuf x))) = [] := by
      intro l hl
      apply messagesOf_eq_nil
      intro x hx
      obtain ⟨y, hy, rfl⟩ := List.mem_map.mp hx
      rintro rfl
      exact hl hy
    rw [KState.mailbox, hq, List.map_append, List.map_cons, messagesOf_append,
      messagesOf_cons_self, hnone pre hnot.1, hnone post hnot.2]
    rfl
  · rw [if_neg hmem]
    apply messagesOf_eq_nil
    rintro x hx rfl
    exact hmem (KState.mem_mailbox hx)

theorem MailOk.delivered_all (h : MailOk k) (hinv : Inv k) : MailsKept k where
  run := h.run
  conserved := fun s d => by rw [h.run.conserved s d, messagesOf_mailbox hinv.rest]
  signed := h.signed
  arrived := h.arrived

/-- **Messages are delivered**, in every careful run and whatever the order of its events: the
kernel runs mailboxes with a selective receive.  A `SEND` or `BOTH` is logged, once, when it
returns `OK` (of a `BOTH`, the first half), and a call with another result changes nothing but
that the caller has gone on. -/
theorem reached_delivered (h : Reached Careful L map memory k) :
    MailsKept k ∧ ∀ f srcDest mPtr n k', Careful k (.sysCall f srcDest mPtr) →
      k.perform (.sysCall f srcDest mPtr) = .ok (n, k') →
      (n ≠ ok → k' = k.resumed) ∧
        (n = ok → f ≠ .receive → ∃ d, procAddr srcDest = some d ∧
          sentBy k.rdy.procPtr k'.log =
            sentBy k.rdy.procPtr k.log ++ [(d, k.outgoing k.rdy.procPtr mPtr)]) := by
  have hinv := (h.promised fun _ _ hc => hc.1).inv
  refine ⟨h.mailOk.delivered_all hinv, fun f srcDest mPtr n k' hc hrun => ?_⟩
  have hres : MailOk k.resumed := h.mailOk.forget k.rdy.procPtr
  exact (hres.sysCall (KState.resumed_inv hinv) hc.1.1 hc.1.2 hc.2.1 hc.2.2 hrun).2

/-- INIT calls FS, and FS answers. -/
def callFs : List Event :=
  settle ++ [.store 2816 ⟨0, 20, 0, 0, 7⟩, .sysCall .both 1 2816, .store 2560 ⟨0, 0, 0, 0, 8⟩,
    .sysCall .send 2 2560]

theorem reached_delivered_answer : ∃ k, Reached Careful plainLayout plainMap noMessage k ∧
    k.arrived init = some (cell init 2816, ⟨1, 0, 0, 0, 8⟩) ∧ MailsKept k := by
  obtain ⟨k, hr, hf⟩ := exists_reached Careful plainLayout plainMap noMessage
    (fun k e => decide (Careful k e)) (fun k e h => of_decide_eq_true h) callFs
    (fun k => k.arrived init) (some (cell init 2816, ⟨1, 0, 0, 0, 8⟩)) (by decide +kernel)
  exact ⟨k, hr, hf, (reached_delivered hr).1⟩

/-- An interrupt for the clock task is held up while FS answers INIT, so that the clock task is
ready, but FS goes on.  FS then calls the system task and is blocked; the clock task runs first,
and causes a signal. -/
def lateSignal : List Event :=
  callFs ++ [.async clock true, .unhold, .store 2560 ⟨0, 14, 0, 0, 9⟩, .sysCall .both (-2) 2560,
    .causeSig init 14]

/-- **Why the care is needed**: the message of FS is in `m`, the system task has not run since, and
the message for MM overwrites it. -/
theorem m_overwritten : ∃ k, Reached (fun k e => Promised k e ∧ OwnBuffer k e) plainLayout plainMap
    noMessage k ∧ (k.arrived systask).map Prod.snd = some ⟨1, 14, 0, 0, 9⟩ ∧
      k.memory k.cellM = ⟨1, ksig, 2, 8192, 9⟩ := by
  obtain ⟨k, hr, hf⟩ := exists_reached (fun k e => Promised k e ∧ OwnBuffer k e) plainLayout
    plainMap noMessage (fun k e => decide (Promised k e ∧ OwnBuffer k e))
    (fun k e h => of_decide_eq_true h) lateSignal
    (fun k => ((k.arrived systask).map Prod.snd, k.memory k.cellM))
    (some ⟨1, 14, 0, 0, 9⟩, ⟨1, ksig, 2, 8192, 9⟩) (by decide +kernel)
  exact ⟨k, hr, Prod.mk.inj hf⟩

end Events

end LisaMinix.Kernel
