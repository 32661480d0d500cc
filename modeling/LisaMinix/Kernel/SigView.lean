import LisaMinix.Library.Loops
import LisaMinix.Kernel.System

/-!
# The Signals of the Process Table

What the kernel keeps about signals (`p_pending`, `p_pendcount`, the flags `PENDING` and
`SIG_PENDING`, and `sig_procs`) is a machine of its own inside of the kernel: `SigView` is its
state, and each function of the kernel either leaves it alone or does one of its operations.
-/

namespace LisaMinix.Kernel

open LisaMinix.Library Function
open LisaMinix.Mm (nrProcs)

/-! ## §1 The machine -/

/-- The part of the process table that is about signals. -/
@[ext] structure SigView where
  free : ProcPtr → Bool
  pending : ProcPtr → Bool
  sigPending : ProcPtr → Bool
  pPending : ProcPtr → ℕ
  pPendcount : ProcPtr → ℕ
  sigProcs : ℤ

namespace SigView

/-- Count a signal of `p` as done. -/
def finish (v : SigView) (p : ProcPtr) : SigView :=
  if v.pPendcount p = 0 then v
  else if v.pPendcount p = 1 then
    { v with
      sigPending := update v.sigPending p false
      pPendcount := update v.pPendcount p 0 }
  else { v with pPendcount := update v.pPendcount p (v.pPendcount p - 1) }

/-- MM is told of the signals of `p`. -/
def tell (v : SigView) (p : ProcPtr) : SigView :=
  { v with
    pending := update v.pending p false
    pPending := update v.pPending p 0
    sigProcs := v.sigProcs - 1 }

/-- The first process with a pending signal. -/
def pendingProc (v : SigView) : Option ProcPtr :=
  (List.finRange (nrTasks + nrProcs)).find? fun p => !decide (isKernelp p) && v.pending p

/-- MM is told of the signals of one process; a stack fault alone is done with that. -/
def inform (v : SigView) : SigView :=
  match v.pendingProc with
  | none => v
  | some p => if v.pPending p = 2 ^ 15 then (v.tell p).finish p else v.tell p

/-- A signal is noted and counted. -/
def note (v : SigView) (p : ProcPtr) (sigNr : ℕ) : SigView :=
  { v with
    pPending := update v.pPending p (v.pPending p ||| 2 ^ (sigNr - 1))
    pPendcount := update v.pPendcount p ((v.pPendcount p + 1) % 65536) }

/-- A process has signals that MM is to be told of. -/
def signal (v : SigView) (p : ProcPtr) : SigView :=
  { v with
    pending := update v.pending p true
    sigPending := update v.sigPending p true
    sigProcs := v.sigProcs + 1 }

/-- The slot of `p` begins anew: free, or with the child of a fork. -/
def renew (v : SigView) (p : ProcPtr) (free : Bool) : SigView :=
  { v with
    free := update v.free p free
    pending := update v.pending p false
    sigPending := update v.sigPending p false
    pPending := update v.pPending p 0
    pPendcount := update v.pPendcount p 0 }

end SigView

namespace KState

/-- What the state of the kernel says about signals. -/
def sigView (k : KState) : SigView where
  free := fun p => (k.pFlags p).slotFree
  pending := fun p => (k.pFlags p).pending
  sigPending := fun p => (k.pFlags p).sigPending
  pPending := k.pPending
  pPendcount := k.pPendcount
  sigProcs := k.sigProcs

/-! ## §2 What leaves the signals alone -/

variable {k k' : KState} {p s d rp : ProcPtr} {f : Flags}

/-- Only flags that are not about signals change. -/
theorem setFlags_sigView (hfree : f.slotFree = (k.pFlags p).slotFree)
    (hpend : f.pending = (k.pFlags p).pending) (hsig : f.sigPending = (k.pFlags p).sigPending) :
    (k.setFlags p f).sigView = k.sigView := by
  have hview : ∀ g : Flags → Bool, g f = g (k.pFlags p) →
      (fun x => g ((k.setFlags p f).pFlags x)) = fun x => g (k.pFlags x) := by
    intro g hg
    funext x
    by_cases hx : x = p
    · simp [setFlags, hx, hg]
    · simp [setFlags, hx]
  apply SigView.ext
  · exact hview Flags.slotFree hfree
  · exact hview Flags.pending hpend
  · exact hview Flags.sigPending hsig
  · rfl
  · rfl
  · rfl

theorem readyIfZero_sigView (h : k.readyIfZero p = .ok k') : k'.sigView = k.sigView := by
  unfold readyIfZero at h
  split at h
  · obtain ⟨r, -, rfl⟩ := map_eq_ok h
    rfl
  · cases h
    rfl

theorem unreadyIfZero_sigView (h : k.unreadyIfZero p = .ok k') : k'.sigView = k.sigView := by
  unfold unreadyIfZero at h
  split at h
  · obtain ⟨r, -, rfl⟩ := map_eq_ok h
    rfl
  · cases h
    rfl

theorem delivered_sigView (k : KState) (s d : ProcPtr) (mPtr : ℤ) :
    (k.delivered s d mPtr).sigView = k.sigView :=
  setFlags_sigView (k := k) (p := d) (f := { k.pFlags d with receiving := false }) rfl rfl rfl

theorem queued_sigView (k : KState) (s d : ProcPtr) (mPtr : ℤ) :
    (k.queued s d mPtr).sigView = k.sigView :=
  setFlags_sigView (k := k) (p := s) (f := { k.pFlags s with sending := true }) rfl rfl rfl

theorem took_sigView (k : KState) (d : ProcPtr) (src mPtr : ℤ) (s : ProcPtr) :
    (k.took d src mPtr s).sigView = k.sigView :=
  setFlags_sigView (k := k) (p := s) (f := { k.pFlags s with sending := false }) rfl rfl rfl

theorem receiverBlocked_sigView (k : KState) (d : ProcPtr) (src mPtr : ℤ) :
    (k.receiverBlocked d src mPtr).sigView = k.sigView :=
  setFlags_sigView (k := k) (p := d) (f := { k.pFlags d with receiving := true }) rfl rfl rfl

theorem woken_sigView (k : KState) (p : ProcPtr) : (k.woken p).sigView = k.sigView :=
  setFlags_sigView (k := k) (p := p) (f := { k.pFlags p with receiving := false }) rfl rfl rfl

theorem miniSend_sigView {dest mPtr n : ℤ} (h : k.miniSend s dest mPtr = .ok (n, k')) :
    k'.sigView = k.sigView := by
  unfold miniSend at h
  split at h
  · cases h
    rfl
  · split at h
    · cases h
    · rename_i d hd
      split at h
      · cases h
        rfl
      · split at h
        · cases h
          rfl
        · obtain ⟨l, -, hl⟩ := bind_eq_ok h
          split at hl
          · cases hl
            rfl
          · obtain ⟨k₁, hk1, heq⟩ := map_eq_ok hl
            cases heq
            split at hk1
            · rw [readyIfZero_sigView hk1, delivered_sigView]
            · obtain ⟨k₂, hk2, hc⟩ := bind_eq_ok hk1
              obtain ⟨c, -, rfl⟩ := map_eq_ok hc
              rw [← unreadyIfZero_sigView hk2]
              exact queued_sigView k₂ s d mPtr

theorem doTrace_sigView {procnr request n : ℤ} (h : k.doTrace procnr request = .ok (n, k')) :
    k'.sigView = k.sigView := by
  unfold doTrace at h
  split at h
  · cases h
  · rename_i rp hrp
    split at h
    · cases h
      rfl
    · split at h
      · obtain ⟨r, -, heq⟩ := map_eq_ok h
        cases heq
        exact setFlags_sigView (k := { k with rdy := r }) (p := rp)
          (f := { k.pFlags rp with stop := true }) rfl rfl rfl
      · split at h
        · obtain ⟨k₁, hk1, heq⟩ := map_eq_ok h
          cases heq
          rw [readyIfZero_sigView hk1]
          exact setFlags_sigView (k := k) (p := rp) (f := { k.pFlags rp with stop := false })
            rfl rfl rfl
        · cases h
          rfl

/-! ## §3 What does an operation -/

theorem finishSig_sigView (h : k.finishSig p = .ok k') : k'.sigView = k.sigView.finish p := by
  unfold finishSig at h
  unfold SigView.finish
  show _ = if k.pPendcount p = 0 then _ else if k.pPendcount p = 1 then _ else _
  split at h
  · rename_i hzero
    cases h
    rw [if_pos hzero]
  · rename_i hzero
    rw [if_neg hzero]
    split at h
    · rename_i hone
      rw [readyIfZero_sigView h, if_pos hone]
      apply SigView.ext
      · funext x
        by_cases hx : x = p <;> simp [sigView, setFlags, hx]
      · funext x
        by_cases hx : x = p <;> simp [sigView, setFlags, hx]
      · funext x
        by_cases hx : x = p <;> simp [sigView, setFlags, hx]
      · rfl
      · rfl
      · rfl
    · rename_i hone
      cases h
      rw [if_neg hone]
      rfl

theorem pendingProc_sigView (k : KState) : k.sigView.pendingProc = k.pendingProc := rfl

theorem inform_sigView (h : k.inform = .ok k') : k'.sigView = k.sigView.inform := by
  unfold inform at h
  unfold SigView.inform
  rw [pendingProc_sigView]
  cases hrp : k.pendingProc with
  | none =>
    simp only [hrp] at h
    cases h
    rfl
  | some rp =>
    simp only [hrp] at h ⊢
    obtain ⟨⟨n, k₁⟩, hsend, h⟩ := bind_eq_ok h
    split at h
    · cases h
    · obtain ⟨k₂, hk2, rfl⟩ := map_eq_ok h
      have hview := miniSend_sigView hsend
      -- nothing about signals but `sig_procs` has changed yet
      have hpend : k₁.pPending rp = k.pPending rp := congrFun (congrArg SigView.pPending hview) rp
      have htold : (k₁.told rp).sigView = k.sigView.tell rp := by
        have hone : (k.writeKsig rp).sigView = { k.sigView with sigProcs := k.sigProcs - 1 } := rfl
        have htold1 : (k₁.told rp).sigView =
            { k₁.sigView with
              pending := update k₁.sigView.pending rp false
              pPending := update k₁.sigView.pPending rp 0 } := by
          apply SigView.ext
          · funext x
            by_cases hx : x = rp <;> simp [sigView, told, setFlags, hx]
          · funext x
            by_cases hx : x = rp <;> simp [sigView, told, setFlags, hx]
          · funext x
            by_cases hx : x = rp <;> simp [sigView, told, setFlags, hx]
          · rfl
          · rfl
          · rfl
        rw [htold1, hview, hone]
        rfl
      show k₂.sigView = _
      rw [hpend] at hk2
      show _ = if k.pPending rp = 2 ^ 15 then _ else _
      split at hk2
      · rename_i hbit
        rw [if_pos hbit, finishSig_sigView hk2, htold]
      · rename_i hbit
        cases hk2
        rw [if_neg hbit, htold]

theorem signalled_sigView (k : KState) (p : ProcPtr) :
    (k.signalled p).sigView = k.sigView.signal p := by
  apply SigView.ext
  · funext x
    by_cases hx : x = p <;> simp [sigView, signalled, setFlags, SigView.signal, hx]
  · funext x
    by_cases hx : x = p <;> simp [sigView, signalled, setFlags, SigView.signal, hx]
  · funext x
    by_cases hx : x = p <;> simp [sigView, signalled, setFlags, SigView.signal, hx]
  · rfl
  · rfl
  · rfl

end KState

end LisaMinix.Kernel
