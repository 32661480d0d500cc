import LisaMinix.Kernel.IpcRuns
import LisaMinix.Library.Turns

/-!
# The Order of the User Processes

What the calls of the kernel do to the queue of user processes: as long as a process is ready,
nothing comes ahead of it, but for `sched`, which moves the first process to the end.
-/

namespace LisaMinix.Kernel

open LisaMinix.Library Function
open LisaMinix.Mm (nrProcs)

/-! ## §1 The primitives -/

/-- The processes on the user queue are `l`. -/
def Ready.UserQ (r : Ready) (l : List ProcPtr) : Prop :=
  IsQueue r.nextready (r.head .userQ) (r.tail .userQ) l

/-- `p` stays on the user queue when it is there. -/
def HoldsTurn (p : ProcPtr) (r r' : Ready) : Prop :=
  ∀ l, r.UserQ l → p ∈ l → ∃ l', r'.UserQ l' ∧ Stays p l l'

section Primitives

variable {r r' r₁ : Ready} {R : ProcPtr → Prop} {p x : ProcPtr} {l : List ProcPtr}

theorem Ready.UserQ.unique {l' : List ProcPtr} (h : r.UserQ l) (h' : r.UserQ l') : l = l' :=
  Chain.unique h.chain h'.chain

theorem HoldsTurn.refl (p : ProcPtr) (r : Ready) : HoldsTurn p r r := fun l hl hp => ⟨l, hl, .refl hp⟩

theorem HoldsTurn.trans (h : HoldsTurn p r r₁) (h' : HoldsTurn p r₁ r') : HoldsTurn p r r' := by
  intro l hl hp
  obtain ⟨l₁, hl1, hs1⟩ := h l hl hp
  obtain ⟨l', hl', hs'⟩ := h' l₁ hl1 hs1.after
  exact ⟨l', hl', hs1.trans hs'⟩

/-- The user queue is not touched. -/
theorem HoldsTurn.of_same (hhead : r'.head .userQ = r.head .userQ)
    (htail : r'.tail .userQ = r.tail .userQ)
    (hnext : ∀ l, r.UserQ l → ∀ y ∈ l, r'.nextready y = r.nextready y) : HoldsTurn p r r' := by
  intro l hl hp
  refine ⟨l, ?_, .refl hp⟩
  unfold Ready.UserQ
  rw [hhead, htail]
  exact hl.congr (hnext l hl)

theorem Ready.UserQ.pickProc (h : r.UserQ l) : (pickProc r).UserQ l := by
  have hsame : (Kernel.pickProc r).nextready = r.nextready ∧
      (Kernel.pickProc r).head = r.head ∧ (Kernel.pickProc r).tail = r.tail := by
    unfold Kernel.pickProc
    repeat' split
    all_goals exact ⟨rfl, rfl, rfl⟩
  obtain ⟨hnext, hhead, htail⟩ := hsame
  unfold Ready.UserQ
  rw [hnext, hhead, htail]
  exact h

theorem pickProc_holds (p : ProcPtr) (r : Ready) : HoldsTurn p r (pickProc r) :=
  fun l hl hp => ⟨l, hl.pickProc, .refl hp⟩

/-- The processes of the user queue are user processes, and ready. -/
theorem Ready.Rep.userQ (h : r.Rep R) :
    ∃ l, r.UserQ l ∧ ∀ y, y ∈ l ↔ R y ∧ queueOf y = .userQ := by
  obtain ⟨ls, hl⟩ := h.lists
  exact ⟨ls .userQ, hl.queue .userQ, hl.mem .userQ⟩

theorem Ready.Rep.mem_userQ (h : r.Rep R) (hl : r.UserQ l) {y : ProcPtr} :
    y ∈ l ↔ R y ∧ queueOf y = .userQ := by
  obtain ⟨l', hl', hmem⟩ := h.userQ
  rw [hl.unique hl']
  exact hmem y

/-- A process joins its queue at the end. -/
theorem append_holds (h : r.Rep R) (hx : ¬ R x) {q : Queue} (hq : queueOf x = q)
    (happ : append r q x = .ok r') : HoldsTurn p r r' := by
  obtain ⟨ls, hl⟩ := h.lists
  by_cases huser : q = .userQ
  · -- the queue of user processes
    subst huser
    intro l hlq hp
    have hnot : x ∉ l := fun hmem => hx ((h.mem_userQ hlq).mp hmem).1
    refine ⟨l ++ [x], ?_, .append hp [x]⟩
    unfold append at happ
    cases hhead : r.head .userQ with
    | none =>
      unfold Ready.UserQ at hlq
      rw [hhead] at hlq
      simp [hlq.eq_nil] at hp
    | some a =>
      obtain ⟨m, t, ht, hm⟩ := IsQueue.eq_snoc hlq (by simp [hhead])
      simp only [hhead, ht] at happ
      obtain rfl := Except.ok.inj happ
      unfold Ready.UserQ at hlq ⊢
      rw [ht] at hlq
      simp only [update_self]
      exact hlq.push (by simp [hm]) hnot
  · -- another queue
    unfold append at happ
    have hne : ∀ l, r.UserQ l → ∀ y ∈ l, y ≠ x := by
      rintro l hlq y hy rfl
      exact huser (hq.symm.trans ((h.mem_userQ hlq).mp hy).2)
    cases hhead : r.head q with
    | none =>
      simp only [hhead] at happ
      obtain rfl := Except.ok.inj happ
      refine .of_same (update_of_ne (Ne.symm huser) _ _)
        (update_of_ne (Ne.symm huser) _ _) fun l hlq y hy => ?_
      exact update_of_ne (hne l hlq y hy) _ _
    | some a =>
      have hqueue := hl.queue q
      obtain ⟨m, t, ht, hm⟩ := hqueue.eq_snoc (by simp [hhead])
      have htq : queueOf t = q := hl.queueOf_mem (q := q) (by simp [hm])
      simp only [hhead, ht] at happ
      obtain rfl := Except.ok.inj happ
      refine .of_same rfl (update_of_ne (Ne.symm huser) _ _) fun l hlq y hy => ?_
      have hyt : y ≠ t := by
        rintro rfl
        exact huser (htq.symm.trans ((h.mem_userQ hlq).mp hy).2)
      dsimp only
      rw [update_of_ne (hne l hlq y hy), update_of_ne hyt]

/-- The list without an element that is in its body. -/
theorem filter_remove {pre post : List ProcPtr} {y : ProcPtr} (hnd : (pre ++ y :: x :: post).Nodup) :
    (pre ++ y :: x :: post).filter (fun z => decide (z ≠ x)) = pre ++ y :: post := by
  have hmid : (pre ++ [y]) ++ x :: post = pre ++ y :: x :: post := by simp
  rw [← hmid] at hnd ⊢
  have hnot := (List.nodup_cons.mp (List.nodup_middle.mp hnd)).1
  rw [List.filter_append, List.filter_cons_of_neg (by simp), ← List.filter_append]
  rw [List.filter_eq_self.mpr]
  · simp
  · intro z hz
    simp only [decide_eq_true_eq]
    rintro rfl
    exact hnot hz

/-- Another process leaves its queue. -/
theorem unready_holds (h : r.Rep R) (hxp : x ≠ p) (hun : unready r x = .ok r') : HoldsTurn p r r' := by
  obtain ⟨ls, hl⟩ := h.lists
  unfold unready at hun
  have hqueue := hl.queue (queueOf x)
  cases hhead : r.head (queueOf x) with
  | none =>
    simp only [hhead] at hun
    obtain rfl := Except.ok.inj hun
    exact .refl p r
  | some a =>
    simp only [hhead] at hun
    by_cases hax : a = x
    · -- it is the first one
      subst hax
      rw [if_pos rfl] at hun
      have hfirst : HoldsTurn p r { r with
          head := update r.head (queueOf a) (r.nextready a) } := by
        by_cases huser : queueOf a = .userQ
        · intro l hlq hp
          unfold Ready.UserQ at hlq
          rw [← huser, hhead] at hlq
          obtain ⟨m, rfl⟩ := hlq.eq_cons
          have hnot := (List.nodup_cons.mp hlq.nodup).1
          have hm : (a :: m).filter (fun z => decide (z ≠ a)) = m := by
            rw [List.filter_cons_of_neg (by simp)]
            refine List.filter_eq_self.mpr fun z hz => ?_
            simp only [decide_eq_true_eq]
            rintro rfl
            exact hnot hz
          refine ⟨m, ?_, ?_⟩
          · unfold Ready.UserQ
            rw [← huser]
            simp only [update_self]
            exact hlq.pop
          · have hs := Stays.filter hp hxp
            rwa [hm] at hs
        · exact .of_same (update_of_ne (Ne.symm huser) _ _) rfl fun _ _ _ _ => rfl
      split at hun
      · obtain rfl := Except.ok.inj hun
        exact hfirst.trans (pickProc_holds p _)
      · obtain rfl := Except.ok.inj hun
        exact hfirst
    · rw [if_neg hax] at hun
      unfold unreadyBody at hun
      rw [← hhead, search_chain _ hqueue.chain, ok_bind] at hun
      cases hfound : firstWith (fun y => decide (r.nextready y = some x)) none (ls (queueOf x)) with
      | none =>
        simp only [hfound] at hun
        obtain rfl := Except.ok.inj hun
        exact .refl p r
      | some found =>
        obtain ⟨prev, y⟩ := found
        obtain ⟨pre, post, hpre, -, hy, -⟩ := firstWith_eq_some hfound
        obtain ⟨pre, post, hmid⟩ :=
          hqueue.chain.next_mem (by rw [hpre]; simp) (of_decide_eq_true hy)
        rw [hfound] at hun
        obtain ⟨last, hlast, rfl⟩ := map_eq_ok hun
        have hyq : queueOf y = queueOf x := hl.queueOf_mem (q := queueOf x) (by simp [hmid])
        by_cases huser : queueOf x = .userQ
        · intro l hlq hp
          have hlu : l = pre ++ y :: x :: post := by
            rw [← hmid, huser]
            exact hlq.unique (hl.queue .userQ)
          subst hlu
          refine ⟨pre ++ y :: post, ?_, ?_⟩
          · -- the tail is searched for from `y` on
            have hend : last.map Prod.snd = (pre ++ y :: post).getLast? := by
              obtain ⟨z, -, hz⟩ := seg_append.mp hlq.chain.unlink
              have hzy : z = some y := hz.1
              rw [hzy] at hz
              rw [List.getLast?_append_of_ne_nil _ (by simp)]
              rcases List.eq_nil_or_concat' (y :: post) with hnil | ⟨s, b, hs⟩
              · simp at hnil
              · rw [hs] at hz
                obtain ⟨w, hw⟩ := search_last hz
                obtain rfl := Except.ok.inj (hw.symm.trans hlast)
                rw [hs]
                simp
            unfold Ready.UserQ
            simp only [huser, update_self, hend]
            exact hlq.remove
          · have hs := Stays.filter hp hxp
            rwa [filter_remove hlq.nodup] at hs
        · refine .of_same rfl (update_of_ne (Ne.symm huser) _ _) fun l hlq z hz => ?_
          refine update_of_ne ?_ _ _
          rintro rfl
          exact huser (hyq.symm.trans ((h.mem_userQ hlq).mp hz).2)

/-- `sched` moves the first user process to the end. -/
theorem sched_userQ (hs : sched r = .ok r') {a : ProcPtr} {m : List ProcPtr}
    (hl : r.UserQ (a :: m)) : r'.UserQ (m ++ [a]) := by
  have hhead : r.head .userQ = some a := hl.chain.1
  obtain ⟨m', t, ht, hm⟩ := IsQueue.eq_snoc hl (by simp [hhead])
  unfold sched at hs
  simp only [hhead, ht] at hs
  obtain rfl := Except.ok.inj hs
  apply Ready.UserQ.pickProc
  unfold Ready.UserQ at hl ⊢
  rw [hhead, ht] at hl
  simp only [update_self]
  cases m with
  | nil =>
    have hta : t = a := by
      rcases m' with _ | ⟨c, m'⟩
      · simpa using hm.symm
      · simp at hm
    rw [hta, update_self, update_idem]
    exact IsQueue.push_empty a
  | cons c s =>
    have hta : a ≠ t := by
      rintro rfl
      have hnd := hl.nodup
      rw [hm] at hnd
      rcases m' with _ | ⟨d, m'⟩
      · simp at hm
      · simp only [List.cons_append, List.cons.injEq] at hm
        rw [List.cons_append, ← hm.1] at hnd
        simp at hnd
    rw [update_of_ne hta]
    exact hl.rotate (by simp)

end Primitives

/-! ## §2 The calls of the kernel -/

section Calls

variable {k k' : KState} {p x s d rp : ProcPtr} {R : ProcPtr → Prop} {src mPtr dest n : ℤ}
  {sigNr : ℕ}

theorem readyIfZero_holds (h : k.rdy.Rep R) (hx : ¬ R x) (hrun : k.readyIfZero x = .ok k') :
    HoldsTurn p k.rdy k'.rdy := by
  unfold KState.readyIfZero at hrun
  split at hrun
  · obtain ⟨r, hr, rfl⟩ := map_eq_ok hrun
    exact append_holds h hx rfl hr
  · obtain rfl := Except.ok.inj hrun
    exact .refl p _

theorem unreadyIfZero_holds (h : k.rdy.Rep R) (hx : x ≠ p) (hrun : k.unreadyIfZero x = .ok k') :
    HoldsTurn p k.rdy k'.rdy := by
  unfold KState.unreadyIfZero at hrun
  split at hrun
  · obtain ⟨r, hr, rfl⟩ := map_eq_ok hrun
    exact unready_holds h hx hr
  · obtain rfl := Except.ok.inj hrun
    exact .refl p _

/-- A process with a flag is not on a ready queue. -/
theorem not_runnable {f : Flags → Bool} (hf : f (k.pFlags x) = true) (hzero : f Flags.zero = false) :
    ¬ Runnable k.pFlags x := by
  intro h
  rw [h.1, hzero] at hf
  exact absurd hf (by simp)

theorem deliver_holds (h : Inv k) (hacc : k.accepts d s = true)
    (hrun : k.deliver s d mPtr = .ok k') : HoldsTurn p k.rdy k'.rdy := by
  simp only [KState.accepts, Bool.and_eq_true] at hacc
  have hnot : ¬ Runnable k.pFlags d := not_runnable (f := Flags.receiving) hacc.1.1 rfl
  unfold KState.deliver at hrun
  exact readyIfZero_holds (k := k.delivered s d mPtr) h.rdy hnot hrun

theorem blockSender_holds (h : Inv k) (hs : s ≠ p) (hrun : k.blockSender s d mPtr = .ok k') :
    HoldsTurn p k.rdy k'.rdy := by
  unfold KState.blockSender at hrun
  obtain ⟨k₁, hk1, hrun⟩ := bind_eq_ok hrun
  obtain ⟨c, -, rfl⟩ := map_eq_ok hrun
  have hholds := unreadyIfZero_holds h.rdy hs hk1
  exact hholds

/-- A blocked sender is sending. -/
theorem blockSender_sending (hrun : k.blockSender s d mPtr = .ok k') :
    (k'.pFlags s).sending = true := by
  unfold KState.blockSender at hrun
  obtain ⟨k₁, hk1, hrun⟩ := bind_eq_ok hrun
  obtain ⟨c, -, rfl⟩ := map_eq_ok hrun
  simp [KState.queued, KState.setFlags]

/-- `mini_send` refuses, or delivers the message, or blocks the caller. -/
theorem miniSend_cases (hrun : k.miniSend s dest mPtr = .ok (n, k')) :
    (n ≠ ok ∧ k' = k) ∨ ∃ d, procAddr dest = some d ∧
      (k.accepts d s = true ∧ k.deliver s d mPtr = .ok k' ∨
        k.accepts d s = false ∧ k.blockSender s d mPtr = .ok k') := by
  have refused : ∀ {m : ℤ}, m ≠ ok → (.ok (m, k) : Except Fault (ℤ × KState)) = .ok (n, k') →
      n ≠ ok ∧ k' = k := by
    intro m hm heq
    obtain ⟨rfl, rfl⟩ := Prod.mk.inj (Except.ok.inj heq)
    exact ⟨hm, rfl⟩
  unfold KState.miniSend at hrun
  split at hrun
  · exact .inl (refused (by decide) hrun)
  split at hrun
  · exact absurd hrun (by simp)
  next d hd =>
    split at hrun
    · exact .inl (refused (by decide) hrun)
    split at hrun
    · exact .inl (refused (by decide) hrun)
    obtain ⟨l, -, hrun⟩ := bind_eq_ok hrun
    split at hrun
    · exact .inl (refused (by decide) hrun)
    obtain ⟨k₁, hk1, hres⟩ := map_eq_ok hrun
    obtain ⟨-, rfl⟩ := Prod.mk.inj hres
    cases hacc : k.accepts d s with
    | true => exact .inr ⟨d, hd, .inl ⟨hacc, by simpa [hacc] using hk1⟩⟩
    | false => exact .inr ⟨d, hd, .inr ⟨hacc, by simpa [hacc] using hk1⟩⟩

theorem miniSend_holds (h : Inv k) (hp : s = p → (k'.pFlags p).sending = false)
    (hrun : k.miniSend s dest mPtr = .ok (n, k')) : HoldsTurn p k.rdy k'.rdy := by
  rcases miniSend_cases hrun with ⟨-, rfl⟩ | ⟨d, -, ⟨hacc, hk'⟩ | ⟨-, hk'⟩⟩
  · exact .refl p _
  · exact deliver_holds h hacc hk'
  · refine blockSender_holds h (fun hs => ?_) hk'
    have hsend := blockSender_sending hk'
    rw [hs, hp hs] at hsend
    exact absurd hsend (by simp)

theorem finishSig_holds (h : k.rdy.Rep R) (hx : ¬ R x) (hrun : k.finishSig x = .ok k') :
    HoldsTurn p k.rdy k'.rdy := by
  unfold KState.finishSig at hrun
  split at hrun
  · obtain rfl := Except.ok.inj hrun
    exact .refl p _
  split at hrun
  · have hholds := fun hr => readyIfZero_holds (p := p) hr hx hrun
    exact hholds h
  · obtain rfl := Except.ok.inj hrun
    exact .refl p _

theorem informed_holds (h : k.rdy.Rep R) (hx : ¬ R x) (hrun : k.informed x = .ok k') :
    HoldsTurn p k.rdy k'.rdy := by
  unfold KState.informed at hrun
  obtain ⟨k₁, hk1, rfl⟩ := map_eq_ok hrun
  refine HoldsTurn.trans ?_ (pickProc_holds p k₁.rdy)
  split at hk1
  · exact finishSig_holds (k := k.told x) h hx hk1
  · obtain rfl := Except.ok.inj hk1
    exact .refl p _

/-- MM is told of signals: it was not ready, and neither was the process with the signals. -/
theorem inform_holds (h : Inv k) (hmm : k.mmIdle = true) (hrun : k.inform = .ok k') :
    HoldsTurn p k.rdy k'.rdy := by
  have hidle := hmm
  simp only [KState.mmIdle, Bool.and_eq_true, decide_eq_true_eq] at hidle
  have hsend := (h.rest.slots mm).fromAny hidle.1 hidle.2
  unfold KState.inform at hrun
  cases hpend : k.pendingProc with
  | none =>
    simp only [hpend] at hrun
    obtain rfl := Except.ok.inj hrun
    exact .refl p _
  | some x =>
    simp only [hpend] at hrun
    obtain ⟨⟨n, k₁⟩, hk1, hrun⟩ := bind_eq_ok hrun
    split at hrun
    · exact absurd hrun (by simp)
    next hn =>
      have hw : Inv (k.writeKsig x) := ⟨h.rdy, h.rest, h.hardware⟩
      have hacc : (k.writeKsig x).accepts mm hardware = true := by
        simp [KState.accepts, KState.writeKsig, wanted, hidle.1, hidle.2, hsend]
      have hpx : (k.pFlags x).pending = true := by
        have := List.find?_some hpend
        simp only [Bool.and_eq_true] at this
        exact this.2
      rcases miniSend_cases hk1 with ⟨hbad, -⟩ | ⟨d, hd, hcase⟩
      · exact absurd hbad hn
      rw [procAddr_procNumber] at hd
      obtain rfl := Option.some.inj hd
      rcases hcase with ⟨-, hdel⟩ | ⟨hrej, -⟩
      · have hdeliver : HoldsTurn p (k.writeKsig x).rdy k₁.rdy := deliver_holds hw hacc hdel
        obtain ⟨r, hr, hinv1, -⟩ := KState.deliver_spec hw hacc k.layout.addrM
        obtain rfl := Except.ok.inj (hr.symm.trans hdel)
        have hpx' : ((KState.delivered (k.writeKsig x) hardware mm k.layout.addrM).pFlags x).pending
            = true := by
          by_cases hx : x = mm
          · subst hx
            simpa [KState.delivered, KState.setFlags, KState.put, KState.writeKsig] using hpx
          · simpa [KState.delivered, KState.setFlags, KState.put, KState.writeKsig, hx] using hpx
        have hnot : ¬ Runnable
            (KState.delivered (k.writeKsig x) hardware mm k.layout.addrM).pFlags x :=
          not_runnable (f := Flags.pending) hpx' rfl
        exact hdeliver.trans (informed_holds hinv1.rdy hnot hrun)
      · rw [hacc] at hrej
        exact absurd hrej (by simp)

/-- A signal for another process. -/
theorem causeSig_holds (h : Inv k) (hrp : ¬ isKernelp rp) (hne : rp ≠ p)
    (hrun : k.causeSig rp sigNr = .ok k') : HoldsTurn p k.rdy k'.rdy := by
  unfold KState.causeSig at hrun
  split at hrun
  · obtain rfl := Except.ok.inj hrun
    exact .refl p _
  split at hrun
  · obtain rfl := Except.ok.inj hrun
    exact .refl p _
  unfold KState.newlyPending at hrun
  obtain ⟨k₁, hk1, hrun⟩ := bind_eq_ok hrun
  have hblock : HoldsTurn p k.rdy k₁.rdy := by
    have hholds := fun hr => unreadyIfZero_holds (p := p) (R := Runnable k.pFlags) hr hne hk1
    exact hholds h.rdy
  dsimp only at hrun
  split at hrun
  next hmm =>
    -- the process is not ready any more when MM is told
    obtain ⟨r, hr, hrep⟩ := KState.unreadyIfZero_spec (k := k.noteSig rp sigNr) h.rdy rp
    obtain rfl := Except.ok.inj (hr.symm.trans hk1)
    have hinv : Inv (({ k.noteSig rp sigNr with rdy := r } : KState).signalled rp) := by
      refine ⟨KState.rep_blocked hrep ?_, ?_, h.hardware⟩
      · intro hzero
        simpa [Flags.zero] using congrArg Flags.pending hzero
      · exact h.rest.setFlags ((h.rest.slots rp).signalled hrp _) rfl rfl (fun _ _ => rfl)
          fun x hx => update_of_ne hx _ _
    have htold := inform_holds (p := p) hinv hmm hrun
    exact hblock.trans htold
  next =>
    obtain rfl := Except.ok.inj hrun
    exact hblock

theorem blockReceiver_holds (h : Inv k) (hreal : ¬ isIdleHardware d) (hd : d ≠ p)
    (hany : src = any → (k.pFlags d).sending = false)
    (hrun : k.blockReceiver d src mPtr = .ok k') : HoldsTurn p k.rdy k'.rdy := by
  unfold KState.blockReceiver at hrun
  obtain ⟨k₁, hk1, hrun⟩ := bind_eq_ok hrun
  have hblock := unreadyIfZero_holds h.rdy hd hk1
  dsimp only at hrun
  split at hrun
  next hmm =>
    obtain ⟨-, rfl, rfl⟩ := hmm
    obtain ⟨r, hr, hrep⟩ := KState.unreadyIfZero_spec h.rdy mm
    obtain rfl := Except.ok.inj (hr.symm.trans hk1)
    have hinv : Inv ({ k with rdy := r }.receiverBlocked mm any mPtr) := by
      refine ⟨KState.rep_blocked hrep ?_, ?_, h.hardware⟩
      · intro hzero
        simpa [Flags.zero] using congrArg Flags.receiving hzero
      · refine h.rest.setFlags (p := mm) ?_ rfl rfl (fun x hx => update_of_ne hx _ _)
          fun _ _ => rfl
        simpa [KState.receiverBlocked, KState.setFlags] using
          (h.rest.slots mm).start_receiving hreal hany
    have htold := inform_holds (p := p) hinv
      (by simp [KState.mmIdle, KState.receiverBlocked, KState.setFlags]) hrun
    exact hblock.trans htold
  next =>
    obtain rfl := Except.ok.inj hrun
    exact hblock

/-- A process that is blocked in `mini_rec` is receiving, but for MM. -/
theorem blockReceiver_receiving (hmm : d ≠ mm) (hrun : k.blockReceiver d src mPtr = .ok k') :
    (k'.pFlags d).receiving = true := by
  unfold KState.blockReceiver at hrun
  obtain ⟨k₁, hk1, hrun⟩ := bind_eq_ok hrun
  dsimp only at hrun
  rw [if_neg fun h => hmm h.2.1] at hrun
  obtain rfl := Except.ok.inj hrun
  simp [KState.receiverBlocked, KState.setFlags]

theorem miniRec_holds (h : Inv k) (hreal : ¬ isIdleHardware d)
    (hany : src = any → (k.pFlags d).sending = false)
    (hp : d = p → d ≠ mm ∧ (k'.pFlags p).receiving = false)
    (hrun : k.miniRec d src mPtr = .ok k') : HoldsTurn p k.rdy k'.rdy := by
  have hblocked : k.blockReceiver d src mPtr = .ok k' → HoldsTurn p k.rdy k'.rdy := by
    intro hk'
    refine blockReceiver_holds h hreal (fun hd => ?_) hany hk'
    obtain ⟨hmm, hrec⟩ := hp hd
    have hrec' := blockReceiver_receiving hmm hk'
    rw [hd, hrec] at hrec'
    exact absurd hrec' (by simp)
  unfold KState.miniRec at hrun
  split at hrun
  · exact hblocked hrun
  obtain ⟨found, hfound, hrun⟩ := bind_eq_ok hrun
  cases found with
  | some found =>
    -- the sender was not ready
    dsimp only at hrun
    rw [h.rest.callers.findSender_eq] at hfound
    obtain ⟨pre, post, hq, -, -, -⟩ :=
      firstWith_eq_some (p := found.1) (a := found.2) (Except.ok.inj hfound)
    have hmem : (found.2, d) ∈ k.waiting := mem_callersOf.mp (by rw [hq]; simp)
    have hsend := (h.rest.sending found.2).mpr (List.mem_map_of_mem (f := Prod.fst) hmem)
    unfold KState.takeMessage at hrun
    obtain ⟨c, -, hrun⟩ := bind_eq_ok hrun
    have hholds := fun hr => readyIfZero_holds (p := p) (R := Runnable k.pFlags) hr
      (not_runnable (f := Flags.sending) hsend rfl) hrun
    exact hholds h.rdy
  | none =>
    dsimp only at hrun
    split at hrun
    · obtain rfl := Except.ok.inj hrun
      exact .refl p _
    · exact hblocked hrun

/-- A system call: the caller stays on its queue unless it is blocked at the end. -/
theorem sysCall_holds {f : Func} {srcDest : ℤ} (h : Inv k) (hidle : k.rdy.procPtr ≠ idle)
    (htrust : isuserp k.rdy.procPtr ∨ f = .receive ∨ srcDest ≠ any) (huser : isuserp p)
    (hp : k'.pFlags p = Flags.zero) (hrun : k.sysCall f srcDest mPtr = .ok (n, k')) :
    HoldsTurn p k.rdy k'.rdy := by
  obtain ⟨hzero, hreal⟩ := KState.running_zero h hidle
  have hmm : p ≠ mm := by
    rintro rfl
    exact absurd huser (by decide)
  have hsend' : (k'.pFlags p).sending = false := by rw [hp]; rfl
  have hrec' : (k'.pFlags p).receiving = false := by rw [hp]; rfl
  unfold KState.sysCall at hrun
  dsimp only at hrun
  by_cases hsrc : ¬ isoksrcDest srcDest
  · rw [if_pos hsrc] at hrun
    obtain ⟨-, rfl⟩ := Prod.mk.inj (Except.ok.inj hrun)
    exact .refl p _
  rw [if_neg hsrc] at hrun
  by_cases hperm : f ≠ .both ∧ isuserp k.rdy.procPtr
  · rw [if_pos hperm] at hrun
    obtain ⟨-, rfl⟩ := Prod.mk.inj (Except.ok.inj hrun)
    exact .refl p _
  rw [if_neg hperm] at hrun
  cases f with
  | send => exact miniSend_holds h (fun _ => hsend') hrun
  | receive =>
    obtain ⟨k₁, hk1, hres⟩ := map_eq_ok hrun
    obtain ⟨-, rfl⟩ := Prod.mk.inj hres
    exact miniRec_holds h hreal (fun _ => by rw [hzero]; rfl)
      (fun hd => ⟨fun hx => hmm (hd.symm.trans hx), hrec'⟩) hk1
  | both =>
    have hok : isuserp k.rdy.procPtr ∨ isokprocn srcDest := by
      rcases htrust with hu | hr | hne
      · exact .inl hu
      · exact absurd hr (by simp)
      · exact .inr ((not_not.mp hsrc).resolve_right hne)
    obtain ⟨⟨n', k₁⟩, hk1, hrun⟩ := bind_eq_ok hrun
    obtain ⟨n₂, k₂, hk2, hinv1, -⟩ := KState.miniSend_spec h hzero hreal hok mPtr
    obtain ⟨rfl, rfl⟩ := Prod.mk.inj (Except.ok.inj (hk2.symm.trans hk1))
    dsimp only at hrun
    by_cases hn : n₂ ≠ ok
    · rw [if_pos hn] at hrun
      obtain ⟨-, rfl⟩ := Prod.mk.inj (Except.ok.inj hrun)
      exact miniSend_holds h (fun _ => hsend') hk1
    rw [if_neg hn] at hrun
    obtain ⟨k₃, hk3, hres⟩ := map_eq_ok hrun
    obtain ⟨-, rfl⟩ := Prod.mk.inj hres
    -- a destination was found, so the source is not "anyone"
    have hany : srcDest ≠ any := by
      rintro rfl
      rcases miniSend_cases hk1 with ⟨hbad, -⟩ | ⟨d, hd, -⟩
      · exact hn hbad
      · simp [procAddr, any, isokprocn] at hd
    have hrec : HoldsTurn p k₂.rdy k₃.rdy := miniRec_holds hinv1 hreal (fun hx => absurd hx hany)
      (fun hd => ⟨fun hx => hmm (hd.symm.trans hx), hrec'⟩) hk3
    refine (miniSend_holds h (fun hs => ?_) hk1).trans hrec
    -- a caller that is sending stays so, and is blocked in the second half
    cases hsend : (k₂.pFlags p).sending with
    | false => rfl
    | true =>
      have hs' : (k₂.pFlags k.rdy.procPtr).sending = true := by rw [hs]; exact hsend
      unfold KState.miniRec at hk3
      rw [if_pos hs'] at hk3
      have hblocked := blockReceiver_receiving (fun hx => hmm (hs.symm.trans hx)) hk3
      rw [hs, hrec'] at hblocked
      exact absurd hblocked (by simp)

/-- An interrupt makes a task ready. -/
theorem interruptNow_holds (h : Inv k) (hrp : IsDriver rp) (hrun : k.interruptNow rp = .ok k') :
    HoldsTurn p k.rdy k'.rdy := by
  unfold KState.interruptNow at hrun
  split at hrun
  next hw =>
    obtain ⟨r, hr, rfl⟩ := map_eq_ok hrun
    exact append_holds h.rdy (not_runnable (f := Flags.receiving) hw.1 rfl)
      (KState.queueOf_driver hrp) hr
  next =>
    obtain rfl := Except.ok.inj hrun
    exact .refl p _

theorem async_holds (h : Inv k) (hrp : IsDriver rp) {busy : Bool}
    (hrun : k.async rp busy = .ok k') : HoldsTurn p k.rdy k'.rdy := by
  unfold KState.async KState.interrupt at hrun
  obtain ⟨k₁, hk1, rfl⟩ := map_eq_ok hrun
  have hint : HoldsTurn p k.rdy k₁.rdy := by
    split at hk1
    · obtain ⟨held, -, rfl⟩ := map_eq_ok hk1
      exact .refl p _
    · exact interruptNow_holds h hrp hk1
  split
  · exact hint.trans (pickProc_holds p _)
  · exact hint

theorem unhold_holds (h : Inv k) (hrun : k.unhold = .ok k') : HoldsTurn p k.rdy k'.rdy := by
  unfold KState.unhold at hrun
  split at hrun
  · obtain rfl := Except.ok.inj hrun
    exact .refl p _
  next rp hhead =>
    obtain ⟨hinv, hdriver⟩ := KState.released_inv h hhead
    have hholds : HoldsTurn p (k.released rp).rdy k'.rdy := interruptNow_holds hinv hdriver hrun
    exact hholds

/-- The slot of a new process is not on a ready queue. -/
theorem forked_holds (h : Inv k) {rpp rpc : ProcPtr} (hp : ForkPromise k rpp rpc) (base : ℕ) :
    HoldsTurn p k.rdy (k.forked rpp rpc base).rdy := by
  have hnot : ¬ Runnable k.pFlags rpc :=
    not_runnable (f := Flags.slotFree) hp.2.2.2.2 rfl
  refine .of_same rfl rfl fun l hl y hy => update_of_ne ?_ _ _
  rintro rfl
  exact hnot ((h.rdy.mem_userQ hl).mp hy).1

theorem doExec_holds (h : Inv k) {proc1 : ℤ} {traced : Bool} (hp : Runnable k.pFlags p)
    (hpromise : ∀ rp, susern proc1 = some rp → ExecPromise k rp)
    (hrun : k.doExec proc1 traced = .ok (n, k')) : HoldsTurn p k.rdy k'.rdy := by
  unfold KState.doExec at hrun
  cases hrp : susern proc1 with
  | none =>
    simp only [hrp] at hrun
    obtain ⟨-, rfl⟩ := Prod.mk.inj (Except.ok.inj hrun)
    exact .refl p _
  | some rp =>
    simp only [hrp] at hrun
    obtain ⟨huser, hrec⟩ := hpromise rp hrp
    have hne : rp ≠ p := by
      rintro rfl
      exact not_runnable (f := Flags.receiving) hrec rfl hp
    have hmm : rp ≠ mm := by
      rintro rfl
      exact absurd huser (by decide)
    have hkernel := not_isKernelp_of_isuserp huser
    obtain ⟨k₁, hk1, hrun⟩ := bind_eq_ok hrun
    obtain ⟨k₂, hk2, hres⟩ := map_eq_ok hrun
    obtain ⟨-, rfl⟩ := Prod.mk.inj hres
    have hsig : HoldsTurn p k.rdy k₁.rdy ∧ Inv k₁ ∧ (k₁.pFlags rp).receiving = true := by
      split at hk1
      · obtain ⟨k₃, hk3, hinv, hcaused⟩ := KState.causeSig_spec h hkernel sigtrap
        obtain rfl := Except.ok.inj (hk3.symm.trans hk1)
        exact ⟨causeSig_holds h hkernel hne hk1, hinv,
          (KState.receiving_of_caused hcaused hmm).trans hrec⟩
      · obtain rfl := Except.ok.inj hk1
        exact ⟨.refl p _, h, hrec⟩
    obtain ⟨hholds, hinv, hrec'⟩ := hsig
    have hready := fun hr => readyIfZero_holds (p := p) (R := Runnable k₁.pFlags) hr
      (not_runnable (f := Flags.receiving) hrec' rfl) hk2
    exact hholds.trans (hready hinv.rdy)

theorem doXit_holds (h : Inv k) {proc1 proc2 : ℤ} (hp : k'.pFlags p = Flags.zero)
    (hrun : k.doXit proc1 proc2 = .ok (n, k')) : HoldsTurn p k.rdy k'.rdy := by
  unfold KState.doXit at hrun
  split at hrun
  next rp rc hrp hrc =>
    obtain ⟨k₁, hk1, hrun⟩ := bind_eq_ok hrun
    obtain ⟨k₂, hk2, hres⟩ := map_eq_ok hrun
    obtain ⟨-, rfl⟩ := Prod.mk.inj hres
    have hne : rc ≠ p := by
      rintro rfl
      simp [KState.slotFreed, KState.setFlags, Flags.free, Flags.zero] at hp
    have hleave : k₂.rdy = k₁.rdy := by
      unfold KState.leaveQueues at hk2
      split at hk2
      · obtain ⟨c, -, rfl⟩ := map_eq_ok hk2
        rfl
      · obtain rfl := Except.ok.inj hk2
        rfl
    have hholds := unreadyIfZero_holds h.rdy hne hk1
    rw [← hleave] at hholds
    exact hholds
  next =>
    obtain ⟨-, rfl⟩ := Prod.mk.inj (Except.ok.inj hrun)
    exact .refl p _

theorem doTrace_holds (h : Inv k) {procnr request : ℤ} (hp : k'.pFlags p = Flags.zero)
    (hstop : ∀ rp, procAddr procnr = some rp → request = 7 ∨ request = 9 →
      (k.pFlags rp).slotFree = false → (k.pFlags rp).stop = true)
    (hrun : k.doTrace procnr request = .ok (n, k')) : HoldsTurn p k.rdy k'.rdy := by
  unfold KState.doTrace at hrun
  split at hrun
  · exact absurd hrun (by simp)
  next rp hrp =>
    split at hrun
    · obtain ⟨-, rfl⟩ := Prod.mk.inj (Except.ok.inj hrun)
      exact .refl p _
    next hfree =>
      split at hrun
      · obtain ⟨r, hr, hres⟩ := map_eq_ok hrun
        obtain ⟨-, rfl⟩ := Prod.mk.inj hres
        refine unready_holds h.rdy ?_ hr
        rintro rfl
        simp [KState.setFlags, Flags.zero] at hp
      split at hrun
      next hreq =>
        obtain ⟨k₁, hk1, hres⟩ := map_eq_ok hrun
        obtain ⟨-, rfl⟩ := Prod.mk.inj hres
        have hs := hstop rp hrp hreq (by simpa using hfree)
        have hready := fun hr => readyIfZero_holds (p := p) (R := Runnable k.pFlags) hr
          (not_runnable (f := Flags.stop) hs rfl) hk1
        exact hready h.rdy
      next =>
        obtain ⟨-, rfl⟩ := Prod.mk.inj (Except.ok.inj hrun)
        exact .refl p _

end Calls

end LisaMinix.Kernel
