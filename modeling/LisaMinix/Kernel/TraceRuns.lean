import LisaMinix.Kernel.IpcRuns
import LisaMinix.Kernel.Trace

/-!
# Traced Processes, in Any Order of Signals and Requests

MM lets a process be traced while it has the flag `STOPPED`; the kernel keeps it from running by
`P_STOP`.  A run of both: events of the kernel, `stop_proc`, `do_trace` and `do_fork` of MM.

- `Tracing` and `Move` model the two together.
- `Agree`: a stopped process has `P_STOP`, unless it was made to do a single step.
- `trace_contained_iff`: in every state of a run, which requests are contained.
-/

namespace LisaMinix.Kernel

open LisaMinix.Library Function
open LisaMinix.Mm (MemMaps Shape)

/-! ## §1 MM and the Kernel -/

/-- The kernel, and what MM knows of the processes that are traced. -/
structure Tracing where
  k : KState
  /-- the flag `STOPPED` of `mp_flags` -/
  stopped : ProcPtr → Bool
  /-- history: request 9 was made since the process was last stopped -/
  stepping : ProcPtr → Bool

/-- What happens: an event of the kernel that is neither a fork nor a `sys_trace`, or what MM does
    about traced processes. -/
inductive Move where
  | kernel (e : Event)
  /-- `stop_proc`: a traced process got a signal -/
  | stopProc (child : ℤ)
  /-- `do_trace` for a process that MM has found -/
  | doTrace (child request addr data : ℤ)
  /-- `do_fork`: the child has the flags of its parent, but for `TRACED` -/
  | doFork (parent child : ℤ) (base : ℕ)

/-- `flags` with the flag of the slot `n` set to `b`. -/
def withFlag (flags : ProcPtr → Bool) (n : ℤ) (b : Bool) : ProcPtr → Bool :=
  match procAddr n with
  | none => flags
  | some rp => update flags rp b

/-- The flag of the slot `n`. -/
def flagOf (flags : ProcPtr → Bool) (n : ℤ) : Bool := (procAddr n).elim false flags

namespace Tracing

variable (t : Tracing)

/-- `stop_proc(rmp, sig_nr)`. -/
def stopProc (child : ℤ) : Except Fault Tracing :=
  (t.k.perform (.trace child (-1))).map fun res =>
    if res.1 ≠ ok then { t with k := res.2 }
    else ⟨res.2, withFlag t.stopped child true, withFlag t.stepping child false⟩

/-- `do_trace`, from the test of `STOPPED` on.  A signal that request 7 issues, and the exit of
    request 8, are events of the kernel. -/
def doTrace (child request : ℤ) : Except Fault Tracing :=
  if !flagOf t.stopped child ∨ request = 0 ∨ request = 8 then .ok t
  else
    let stopped := if request = 7 then withFlag t.stopped child false else t.stopped
    (t.k.perform (.trace child request)).map fun res =>
      ⟨res.2, stopped,
        if request = 9 ∧ res.1 = ok then withFlag t.stepping child true else t.stepping⟩

/-- The part of `do_fork` that copies the flags. -/
def doFork (parent child : ℤ) (base : ℕ) : Except Fault Tracing :=
  (t.k.perform (.fork parent child base)).map fun res =>
    ⟨res.2, withFlag t.stopped child (flagOf t.stopped parent), withFlag t.stepping child false⟩

def perform : Move → Except Fault Tracing
  | .kernel e => (t.k.perform e).map fun res => { t with k := res.2 }
  | .stopProc child => t.stopProc child
  | .doTrace child request _ _ => t.doTrace child request
  | .doFork parent child base => t.doFork parent child base

end Tracing

/-! ## §2 What Tracing Depends On -/

namespace KState

variable {mPtr n : ℤ}

/-- The part of the process table that `do_trace` looks at. -/
def traceView (k : KState) : (ProcPtr → Bool × Bool) × (ProcPtr → MemMaps) :=
  (fun p => ((k.pFlags p).slotFree, (k.pFlags p).stop), k.pMap)

variable {k k' : KState} {p s d rp : ProcPtr} {f : Flags}

theorem setFlags_traceView (hfree : f.slotFree = (k.pFlags p).slotFree)
    (hstop : f.stop = (k.pFlags p).stop) : (k.setFlags p f).traceView = k.traceView := by
  refine Prod.ext (funext fun x => ?_) rfl
  by_cases hx : x = p
  · simp [traceView, setFlags, hx, hfree, hstop]
  · simp [traceView, setFlags, hx]

theorem readyIfZero_traceView (h : k.readyIfZero p = .ok k') : k'.traceView = k.traceView := by
  unfold readyIfZero at h
  split at h
  · obtain ⟨r, -, rfl⟩ := map_eq_ok h
    rfl
  · cases h
    rfl

theorem unreadyIfZero_traceView (h : k.unreadyIfZero p = .ok k') : k'.traceView = k.traceView := by
  unfold unreadyIfZero at h
  split at h
  · obtain ⟨r, -, rfl⟩ := map_eq_ok h
    rfl
  · cases h
    rfl

theorem deliver_traceView (h : k.deliver s d mPtr = .ok k') : k'.traceView = k.traceView := by
  rw [readyIfZero_traceView h]
  exact setFlags_traceView (k := k) (p := d) (f := { k.pFlags d with receiving := false }) rfl rfl

theorem blockSender_traceView (h : k.blockSender s d mPtr = .ok k') :
    k'.traceView = k.traceView := by
  obtain ⟨k₁, hk1, hc⟩ := bind_eq_ok h
  obtain ⟨c, -, rfl⟩ := map_eq_ok hc
  rw [← unreadyIfZero_traceView hk1]
  exact setFlags_traceView (k := k₁) (p := s) (f := { k₁.pFlags s with sending := true }) rfl rfl

theorem miniSend_traceView {dest : ℤ} (h : k.miniSend s dest mPtr = .ok (n, k')) :
    k'.traceView = k.traceView := by
  unfold miniSend at h
  split at h
  · cases h
    rfl
  split at h
  · cases h
  next d hd =>
    split at h
    · cases h
      rfl
    split at h
    · cases h
      rfl
    obtain ⟨l, -, hl⟩ := bind_eq_ok h
    split at hl
    · cases hl
      rfl
    obtain ⟨k₁, hk1, heq⟩ := map_eq_ok hl
    cases heq
    split at hk1
    · exact deliver_traceView hk1
    · exact blockSender_traceView hk1

theorem finishSig_traceView (h : k.finishSig p = .ok k') : k'.traceView = k.traceView := by
  unfold finishSig at h
  split at h
  · cases h
    rfl
  split at h
  · rw [readyIfZero_traceView h]
    exact setFlags_traceView (k := k) (p := p) (f := { k.pFlags p with sigPending := false }) rfl rfl
  · cases h
    rfl

theorem informed_traceView (h : k.informed rp = .ok k') : k'.traceView = k.traceView := by
  have htold : (k.told rp).traceView = k.traceView :=
    setFlags_traceView (k := k) (p := rp) (f := { k.pFlags rp with pending := false }) rfl rfl
  obtain ⟨k₁, hk1, rfl⟩ := map_eq_ok h
  change k₁.traceView = _
  split at hk1
  · rw [finishSig_traceView hk1, htold]
  · cases hk1
    exact htold

theorem inform_traceView (h : k.inform = .ok k') : k'.traceView = k.traceView := by
  unfold inform at h
  split at h
  · cases h
    rfl
  · obtain ⟨⟨n, k₁⟩, hsend, h⟩ := bind_eq_ok h
    split at h
    · cases h
    · rw [informed_traceView h, miniSend_traceView hsend]
      rfl

theorem causeSig_traceView {sigNr : ℕ} (h : k.causeSig rp sigNr = .ok k') :
    k'.traceView = k.traceView := by
  unfold causeSig at h
  split at h
  · cases h
    rfl
  split at h
  · cases h
    rfl
  obtain ⟨k₁, hk1, h⟩ := bind_eq_ok h
  have hsig : (k₁.signalled rp).traceView = k.traceView := by
    rw [show k.traceView = k₁.traceView from (unreadyIfZero_traceView hk1).symm]
    exact setFlags_traceView (k := k₁) (p := rp)
      (f := { k₁.pFlags rp with pending := true, sigPending := true }) rfl rfl
  simp only at h
  split at h
  · rw [inform_traceView h, hsig]
  · cases h
    exact hsig

theorem blockReceiver_traceView {src : ℤ} (h : k.blockReceiver d src mPtr = .ok k') :
    k'.traceView = k.traceView := by
  obtain ⟨k₁, hk1, h⟩ := bind_eq_ok h
  have hblocked : (k₁.receiverBlocked d src mPtr).traceView = k.traceView := by
    rw [← unreadyIfZero_traceView hk1]
    exact setFlags_traceView (k := k₁) (p := d) (f := { k₁.pFlags d with receiving := true }) rfl rfl
  simp only at h
  split at h
  · rw [inform_traceView h, hblocked]
  · cases h
    exact hblocked

theorem miniRec_traceView {src : ℤ} (h : k.miniRec d src mPtr = .ok k') :
    k'.traceView = k.traceView := by
  unfold miniRec at h
  split at h
  · exact blockReceiver_traceView h
  obtain ⟨found, -, h⟩ := bind_eq_ok h
  cases found with
  | some found =>
    obtain ⟨c, -, h⟩ := bind_eq_ok h
    rw [readyIfZero_traceView h]
    exact setFlags_traceView (k := k) (p := found.2)
      (f := { k.pFlags found.2 with sending := false }) rfl rfl
  | none =>
    simp only at h
    split at h
    · cases h
      rfl
    · exact blockReceiver_traceView h

theorem sysCall_traceView {f : Func} {srcDest : ℤ} (h : k.sysCall f srcDest mPtr = .ok (n, k')) :
    k'.traceView = k.traceView := by
  unfold sysCall at h
  simp only at h
  split at h
  · cases h
    rfl
  split at h
  · cases h
    rfl
  cases f with
  | send => exact miniSend_traceView h
  | receive =>
    obtain ⟨k₁, hk1, heq⟩ := map_eq_ok h
    cases heq
    exact miniRec_traceView hk1
  | both =>
    obtain ⟨⟨m, k₁⟩, hsend, h⟩ := bind_eq_ok h
    simp only at h
    split at h
    · cases h
      exact miniSend_traceView hsend
    · obtain ⟨k₂, hk2, heq⟩ := map_eq_ok h
      cases heq
      rw [miniRec_traceView hk2, miniSend_traceView hsend]

theorem interruptNow_traceView (h : k.interruptNow rp = .ok k') : k'.traceView = k.traceView := by
  unfold interruptNow at h
  split at h
  · obtain ⟨r, -, rfl⟩ := map_eq_ok h
    exact setFlags_traceView (k := k) (p := rp) (f := { k.pFlags rp with receiving := false }) rfl rfl
  · cases h
    rfl

theorem async_traceView {busy : Bool} (h : k.async rp busy = .ok k') :
    k'.traceView = k.traceView := by
  obtain ⟨k₁, hk1, rfl⟩ := map_eq_ok h
  have hint : k₁.traceView = k.traceView := by
    unfold interrupt at hk1
    split at hk1
    · obtain ⟨held, -, rfl⟩ := map_eq_ok hk1
      rfl
    · exact interruptNow_traceView hk1
  split
  · exact hint
  · exact hint

theorem unhold_traceView (h : k.unhold = .ok k') : k'.traceView = k.traceView := by
  unfold unhold at h
  split at h
  · cases h
    rfl
  · exact (interruptNow_traceView h).trans rfl

theorem doExec_traceView {proc1 : ℤ} {traced : Bool} (h : k.doExec proc1 traced = .ok (n, k')) :
    k'.traceView = k.traceView := by
  unfold doExec at h
  split at h
  · cases h
    rfl
  next rp hrp =>
    obtain ⟨k₁, hk1, h⟩ := bind_eq_ok h
    obtain ⟨k₂, hk2, heq⟩ := map_eq_ok h
    cases heq
    have hsig : k₁.traceView = k.traceView := by
      split at hk1
      · exact causeSig_traceView hk1
      · cases hk1
        rfl
    rw [readyIfZero_traceView hk2, ← hsig]
    exact setFlags_traceView (k := k₁) (p := rp) (f := { k₁.pFlags rp with receiving := false })
      rfl rfl

theorem doSig_traceView {pr signum : ℤ} (h : k.doSig pr signum = .ok (n, k')) :
    k'.traceView = k.traceView := by
  unfold doSig at h
  split at h
  · cases h
    rfl
  split at h
  · obtain ⟨k₁, hk1, heq⟩ := map_eq_ok h
    cases heq
    exact finishSig_traceView hk1
  · cases h
    rfl

theorem doKill_traceView {pr : ℤ} {signum : ℕ} (h : k.doKill pr signum = .ok (n, k')) :
    k'.traceView = k.traceView := by
  unfold doKill at h
  split at h
  · cases h
    rfl
  · obtain ⟨k₁, hk1, heq⟩ := map_eq_ok h
    cases heq
    exact causeSig_traceView hk1

/-- Nothing but a fork, an exit, `do_trace` and `do_newmap` changes what tracing depends on. -/
theorem perform_traceView {e : Event} (h : k.perform e = .ok (n, k'))
    (hfork : ∀ proc1 proc2 base, e ≠ .fork proc1 proc2 base)
    (hxit : ∀ proc1 proc2, e ≠ .xit proc1 proc2)
    (htrace : ∀ procnr request, e ≠ .trace procnr request)
    (hmap : ∀ proc1 map, e ≠ .newmap proc1 map) : k'.traceView = k.traceView := by
  have hres : k.resumed.traceView = k.traceView := rfl
  cases e with
  | sysCall f srcDest mPtr => exact (sysCall_traceView h).trans hres
  | store addr msg =>
    cases h
    rfl
  | async rp busy =>
    obtain ⟨k₁, hk1, heq⟩ := map_eq_ok h
    cases heq
    exact async_traceView hk1
  | unhold =>
    obtain ⟨k₁, hk1, heq⟩ := map_eq_ok h
    cases heq
    exact unhold_traceView hk1
  | sched =>
    obtain ⟨r, -, heq⟩ := map_eq_ok h
    cases heq
    rfl
  | causeSig rp sigNr =>
    obtain ⟨k₁, hk1, heq⟩ := map_eq_ok h
    cases heq
    exact (causeSig_traceView hk1).trans hres
  | fork proc1 proc2 base => exact absurd rfl (hfork proc1 proc2 base)
  | exec proc1 traced => exact (doExec_traceView h).trans hres
  | xit proc1 proc2 => exact absurd rfl (hxit proc1 proc2)
  | sig pr signum => exact (doSig_traceView h).trans hres
  | kill pr signum => exact (doKill_traceView h).trans hres
  | trace procnr request => exact absurd rfl (htrace procnr request)
  | newmap proc1 map => exact absurd rfl (hmap proc1 map)

theorem readyIfZero_flags (h : k.readyIfZero p = .ok k') :
    k'.pMap = k.pMap ∧ k'.pFlags = k.pFlags := by
  unfold readyIfZero at h
  split at h
  · obtain ⟨r, -, rfl⟩ := map_eq_ok h
    exact ⟨rfl, rfl⟩
  · cases h
    exact ⟨rfl, rfl⟩

/-- `P_STOP` after a request. -/
def stopAfter (request : ℤ) (stop : Bool) : Bool :=
  if request = -1 then true else if request = 7 ∨ request = 9 then false else stop

/-- What `do_trace` can do to the process table. -/
theorem doTrace_cases {procnr request : ℤ} (hrp : procAddr procnr = some rp)
    (h : k.doTrace procnr request = .ok (n, k')) :
    ((k.pFlags rp).slotFree = true ∧ n = eio ∧ k' = k) ∨
      ((k.pFlags rp).slotFree = false ∧ n = ok ∧ k'.pMap = k.pMap ∧
        k'.pFlags = update k.pFlags rp
          { k.pFlags rp with stop := stopAfter request (k.pFlags rp).stop }) := by
  unfold doTrace at h
  rw [hrp] at h
  simp only at h
  split at h
  · next hfree =>
    cases h
    exact .inl ⟨hfree, rfl, rfl⟩
  next hlive =>
  refine .inr ⟨Bool.not_eq_true _ ▸ hlive, ?_⟩
  unfold stopAfter
  split at h
  · next hstop =>
    obtain ⟨r, -, heq⟩ := map_eq_ok h
    cases heq
    rw [if_pos hstop]
    exact ⟨rfl, rfl, rfl⟩
  next hstop =>
  rw [if_neg hstop]
  split at h
  · next hgo =>
    obtain ⟨k₁, hk1, heq⟩ := map_eq_ok h
    cases heq
    obtain ⟨hmap, hflags⟩ := readyIfZero_flags hk1
    rw [if_pos hgo]
    exact ⟨rfl, hmap, hflags⟩
  · next hgo =>
    cases h
    rw [if_neg hgo]
    exact ⟨rfl, rfl, (update_eq_self rp k.pFlags).symm⟩

theorem setFlags_self (k : KState) (p : ProcPtr) : k.setFlags p (k.pFlags p) = k := by
  rw [setFlags, update_eq_self]

/-- A process that is not stopped but blocked is not made to go on. -/
theorem doTrace_of_blocked {procnr request : ℤ} (hrp : procAddr procnr = some rp)
    (hreq : request = 7 ∨ request = 9) (hlive : (k.pFlags rp).slotFree = false)
    (hstop : (k.pFlags rp).stop = false) (hblocked : k.pFlags rp ≠ Flags.zero) :
    k.doTrace procnr request = .ok (ok, k) := by
  have hsame : { k.pFlags rp with stop := false } = k.pFlags rp := by rw [← hstop]
  have hne : request ≠ -1 := by omega
  have hused : ¬ (k.pFlags rp).slotFree = true := by simp [hlive]
  rw [doTrace, hrp]
  dsimp only
  rw [if_neg hused, if_neg hne, if_pos hreq, hsame, setFlags_self, readyIfZero, if_neg hblocked,
    map_ok]

theorem doXit_cases {proc1 proc2 : ℤ} (h : k.doXit proc1 proc2 = .ok (n, k')) :
    k'.pMap = k.pMap ∧ (k'.pFlags = k.pFlags ∨
      ∃ rc, susern proc2 = some rc ∧ k'.pFlags = update k.pFlags rc Flags.free) := by
  unfold doXit at h
  split at h
  · next rp rc hrp hrc =>
    obtain ⟨k₁, hk1, h⟩ := bind_eq_ok h
    obtain ⟨k₂, hk2, heq⟩ := map_eq_ok h
    cases heq
    have hfirst : k₁.pMap = k.pMap ∧ k₁.pFlags = k.pFlags := by
      unfold unreadyIfZero at hk1
      split at hk1
      · obtain ⟨r, -, rfl⟩ := map_eq_ok hk1
        exact ⟨rfl, rfl⟩
      · cases hk1
        exact ⟨rfl, rfl⟩
    have hsecond : k₂.pMap = k₁.pMap ∧ k₂.pFlags = k₁.pFlags := by
      unfold leaveQueues at hk2
      split at hk2
      · obtain ⟨c, -, rfl⟩ := map_eq_ok hk2
        exact ⟨rfl, rfl⟩
      · cases hk2
        exact ⟨rfl, rfl⟩
    refine ⟨hsecond.1.trans hfirst.1, .inr ⟨rc, hrc, ?_⟩⟩
    change update k₂.pFlags rc Flags.free = _
    rw [hsecond.2, hfirst.2]
  · cases h
    exact ⟨rfl, .inl rfl⟩

end KState

/-! ## §3 The Two Flags Agree -/

namespace Tracing

variable {t t' : Tracing}
variable {n child request : ℤ} {k' : KState} {rp : ProcPtr}

/-- What MM promises: the maps it installs are those of images, and it traces user processes. -/
def Promised (t : Tracing) : Move → Prop
  | .kernel e =>
    Kernel.Promised t.k e ∧
      match e with
      | .fork .. | .trace .. => False
      | .newmap _ map => Shape map
      | _ => True
  | .stopProc child => isokusern child
  | .doTrace child _ addr _ => isokusern child ∧ IsLong addr
  | .doFork parent child base =>
    Kernel.Promised t.k (.fork parent child base) ∧
      ∀ rpp, susern parent = some rpp → Shape (childMap (t.k.pMap rpp) base)

/-- The moves that keep tracing in order: the address of a request is good, a process that is
    doing a single step is not made to go on while it is ready, and no stopped process forks. -/
def Good (t : Tracing) : Move → Prop
  | .doTrace child request addr _ => ∀ rp, procAddr child = some rp → t.stopped rp = true →
      GoodAddr (t.k.pFlags rp).slotFree (t.k.pMap rp) request addr ∧
        (request = 7 ∨ request = 9 → t.stepping rp = true → t.k.pFlags rp ≠ Flags.zero)
  | .doFork parent _ _ => flagOf t.stopped parent = false
  | .kernel _ | .stopProc _ => True

/-- **The flags agree**: a process with `STOPPED` has `P_STOP`, unless it does a single step. -/
structure Agree (t : Tracing) : Prop where
  inv : Inv t.k
  shape : ∀ p, isuserp p → (t.k.pFlags p).slotFree = false → Shape (t.k.pMap p)
  stop : ∀ p, t.stopped p = true → (t.k.pFlags p).slotFree = false → t.stepping p = false →
    (t.k.pFlags p).stop = true

/-- A user process that MM names. -/
theorem exists_usern (h : isokusern n) : ∃ rp, procAddr n = some rp ∧ isuserp rp := by
  have husern : usern n = procAddr n := if_pos h
  obtain ⟨rp, hrp⟩ := procAddr_of_isokprocn (n := n) (by
    obtain ⟨h0, h1⟩ := h
    simp only [isokprocn, nrTasks, Mm.nrProcs] at h1 ⊢
    omega)
  exact ⟨rp, hrp, usern_eq_some (husern.trans hrp)⟩

theorem Agree.of_traceView (h : Agree t) (hinv : Inv k') (hview : k'.traceView = t.k.traceView) :
    Agree { t with k := k' } := by
  have hflags : ∀ p, (k'.pFlags p).slotFree = (t.k.pFlags p).slotFree ∧
      (k'.pFlags p).stop = (t.k.pFlags p).stop := fun p =>
    Prod.mk.inj (congrFun (congrArg Prod.fst hview) p)
  have hmap : k'.pMap = t.k.pMap := congrArg Prod.snd hview
  refine ⟨hinv, fun p hp hlive => ?_, fun p hs hlive hstep => ?_⟩
  · rw [show k'.pMap p = t.k.pMap p from congrFun hmap p]
    exact h.shape p hp ((hflags p).1.symm.trans hlive)
  · rw [show (k'.pFlags p).stop = _ from (hflags p).2]
    exact h.stop p hs ((hflags p).1.symm.trans hlive) hstep

theorem withFlag_eq {flags : ProcPtr → Bool} (hrp : procAddr n = some rp) (b : Bool) :
    withFlag flags n b = update flags rp b := by
  rw [withFlag, hrp]

theorem flagOf_eq {flags : ProcPtr → Bool} (hrp : procAddr n = some rp) :
    flagOf flags n = flags rp := by
  rw [flagOf, hrp]
  rfl

/-- An event of the kernel. -/
theorem Agree.kernel {e : Event} (h : Agree t) (hp : t.Promised (.kernel e))
    (hrun : t.k.perform e = .ok (n, k')) : Agree { t with k := k' } := by
  have hinv := (KState.perform_cases h.inv hp.1 hrun).1
  have hquiet : ∀ (_ : ∀ proc1 proc2 base, e ≠ .fork proc1 proc2 base)
      (_ : ∀ proc1 proc2, e ≠ .xit proc1 proc2) (_ : ∀ procnr request, e ≠ .trace procnr request)
      (_ : ∀ proc1 map, e ≠ .newmap proc1 map), Agree { t with k := k' } :=
    fun hfork hxit htrace hmap =>
      h.of_traceView hinv (KState.perform_traceView hrun hfork hxit htrace hmap)
  cases e with
  | fork proc1 proc2 base => exact hp.2.elim
  | trace procnr request => exact hp.2.elim
  | xit proc1 proc2 =>
    obtain ⟨hmap, hflags⟩ := KState.doXit_cases hrun
    rcases hflags with hflags | ⟨rc, -, hflags⟩
    · refine h.of_traceView hinv (Prod.ext ?_ hmap)
      funext p
      simp only [KState.traceView, hflags]
      rfl
    · -- the slot of the process that exits is free, the others are as they were
      have hother : ∀ p, (k'.pFlags p).slotFree = false → k'.pFlags p = t.k.pFlags p := by
        intro p hlive
        rw [hflags] at hlive ⊢
        by_cases hpc : p = rc
        · rw [hpc, update_self] at hlive
          exact absurd hlive (by decide)
        · rw [update_of_ne hpc]
          rfl
      refine ⟨hinv, fun p hu hlive => ?_, fun p hs hlive hstep => ?_⟩
      · have hsame := hother p hlive
        change Shape (k'.pMap p)
        rw [hmap]
        exact h.shape p hu (hsame ▸ hlive)
      · have hsame := hother p hlive
        change (k'.pFlags p).stop = true
        rw [hsame]
        exact h.stop p hs (hsame ▸ hlive) hstep
  | newmap proc1 map =>
    have hshape : Shape map := hp.2
    change t.k.resumed.doNewmap proc1 map = _ at hrun
    unfold KState.doNewmap at hrun
    split at hrun
    · cases hrun
      exact h.of_traceView hinv rfl
    · next rp hrp =>
      cases hrun
      refine ⟨hinv, fun p hu hlive => ?_, h.stop⟩
      change Shape (update t.k.pMap rp map p)
      by_cases hpr : p = rp
      · rw [hpr, update_self]
        exact hshape
      · rw [update_of_ne hpr]
        exact h.shape p hu hlive
  | sysCall f srcDest mPtr => exact hquiet nofun nofun nofun nofun
  | store addr msg => exact hquiet nofun nofun nofun nofun
  | async rp busy => exact hquiet nofun nofun nofun nofun
  | unhold => exact hquiet nofun nofun nofun nofun
  | sched => exact hquiet nofun nofun nofun nofun
  | causeSig rp sigNr => exact hquiet nofun nofun nofun nofun
  | exec proc1 traced => exact hquiet nofun nofun nofun nofun
  | sig pr signum => exact hquiet nofun nofun nofun nofun
  | kill pr signum => exact hquiet nofun nofun nofun nofun

/-- A `sys_trace` for one process, with what it does to the flags of that process. -/
theorem Agree.trace (h : Agree t) (hrp : procAddr child = some rp) (hinv : Inv k')
    (hrun : t.k.perform (.trace child request) = .ok (n, k')) {stopped stepping : ProcPtr → Bool}
    (hother : ∀ p, p ≠ rp → stopped p = t.stopped p ∧ stepping p = t.stepping p)
    (hself : stopped rp = true → stepping rp = false → (t.k.pFlags rp).slotFree = false →
      KState.stopAfter request (t.k.pFlags rp).stop = true) : Agree ⟨k', stopped, stepping⟩ := by
  have hrun' : t.k.resumed.doTrace child request = .ok (n, k') := hrun
  rcases KState.doTrace_cases hrp hrun' with ⟨hfree, -, rfl⟩ | ⟨hlive, -, hmap, hflags⟩
  · -- the slot is free: nothing happens, and nothing is said about it
    refine ⟨hinv, h.shape, fun p hs hlive hstep => ?_⟩
    have hne : p ≠ rp := by
      rintro rfl
      exact absurd (hlive.symm.trans hfree) (by decide)
    obtain ⟨hstop, hstep'⟩ := hother p hne
    exact h.stop p (hstop.symm.trans hs) hlive (hstep'.symm.trans hstep)
  · have hat : ∀ p, p ≠ rp → k'.pFlags p = t.k.pFlags p := fun p hne => by
      rw [hflags, update_of_ne hne]
      rfl
    have hrpFlags : k'.pFlags rp = { t.k.pFlags rp with
        stop := KState.stopAfter request (t.k.pFlags rp).stop } := by
      rw [hflags, update_self]
      rfl
    refine ⟨hinv, fun p hu hlive' => ?_, fun p hs hlive' hstep => ?_⟩
    · change Shape (k'.pMap p)
      rw [hmap]
      by_cases hne : p = rp
      · exact h.shape p hu (hne ▸ hlive)
      · exact h.shape p hu (hat p hne ▸ hlive')
    · change (k'.pFlags p).stop = true
      by_cases hne : p = rp
      · subst hne
        rw [hrpFlags]
        exact hself hs hstep hlive
      · rw [hat p hne]
        obtain ⟨hstop, hstep'⟩ := hother p hne
        exact h.stop p (hstop.symm.trans hs) (hat p hne ▸ hlive') (hstep'.symm.trans hstep)

/-- `stop_proc`. -/
theorem Agree.stopProc (h : Agree t) (hp : isokusern child) (hrun : t.stopProc child = .ok t') :
    Agree t' := by
  obtain ⟨rp, hrp, -⟩ := exists_usern hp
  obtain ⟨⟨n, k'⟩, hk, heq⟩ := map_eq_ok hrun
  have hpk : Kernel.Promised t.k (.trace child (-1)) := by
    refine ⟨hp, ?_⟩
    rw [hrp]
    exact fun hreq => absurd hreq (by decide)
  have hinv := (KState.perform_cases h.inv hpk hk).1
  simp only at heq
  split at heq
  · subst heq
    exact h.trace hrp hinv hk (fun _ _ => ⟨rfl, rfl⟩) fun _ _ _ => rfl
  · subst heq
    rw [withFlag_eq hrp, withFlag_eq hrp]
    refine h.trace hrp hinv hk (fun p hne => ?_) fun _ _ _ => rfl
    exact ⟨update_of_ne hne _ _, update_of_ne hne _ _⟩

/-- A process that is made to go on: it has `P_STOP`, or it is blocked and nothing happens. -/
theorem Agree.perform_trace (h : Agree t) (hp : isokusern child) (hrp : procAddr child = some rp)
    (hs : t.stopped rp = true)
    (hg : request = 7 ∨ request = 9 → t.stepping rp = true → t.k.pFlags rp ≠ Flags.zero)
    (hrun : t.k.perform (.trace child request) = .ok (n, k')) : Inv k' := by
  by_cases hpk : Kernel.Promised t.k (.trace child request)
  · exact (KState.perform_cases h.inv hpk hrun).1
  · -- the kernel is asked to go on with a process that is not stopped: it is doing a step
    have hnot : (request = 7 ∨ request = 9) ∧ (t.k.pFlags rp).slotFree = false ∧
        (t.k.pFlags rp).stop = false := by
      simp only [Kernel.Promised, hrp] at hpk
      push Not at hpk
      obtain ⟨hreq, hlive, hstop⟩ := hpk hp
      exact ⟨hreq, hlive, Bool.not_eq_true _ ▸ hstop⟩
    obtain ⟨hreq, hlive, hstop⟩ := hnot
    have hstep : t.stepping rp = true := by
      by_contra hstep
      have hagree := h.stop rp hs hlive (Bool.not_eq_true _ ▸ hstep)
      exact absurd (hagree.symm.trans hstop) (by decide)
    have hblocked := hg hreq hstep
    have hidle : t.k.resumed.doTrace child request = .ok (ok, t.k.resumed) :=
      KState.doTrace_of_blocked hrp hreq hlive hstop hblocked
    obtain ⟨-, rfl⟩ := Prod.mk.inj (Except.ok.inj (hidle.symm.trans hrun))
    exact KState.resumed_inv h.inv

/-- `do_trace`. -/
theorem Agree.doTrace {addr data : ℤ} (h : Agree t) (hp : isokusern child)
    (hg : t.Good (.doTrace child request addr data)) (hrun : t.doTrace child request = .ok t') :
    Agree t' := by
  obtain ⟨rp, hrp, -⟩ := exists_usern hp
  unfold Tracing.doTrace at hrun
  split at hrun
  · cases hrun
    exact h
  next hgo =>
  have hs : t.stopped rp = true := by
    rw [flagOf_eq hrp] at hgo
    simp only [not_or, Bool.not_eq_true', Bool.not_eq_false] at hgo
    exact hgo.1
  obtain ⟨⟨n, k'⟩, hk, heq⟩ := map_eq_ok hrun
  have hgood := (hg rp hrp hs).2
  have hinv := h.perform_trace hp hrp hs hgood hk
  subst heq
  by_cases hresume : request = 7
  · rw [if_pos hresume, if_neg (by omega), withFlag_eq hrp]
    refine h.trace hrp hinv hk (fun p hne => ⟨update_of_ne hne _ _, rfl⟩) fun hst => ?_
    exact absurd hst (by simp)
  rw [if_neg hresume]
  by_cases hstep : request = 9 ∧ n = ok
  · rw [if_pos hstep, withFlag_eq hrp]
    refine h.trace hrp hinv hk (fun p hne => ⟨rfl, update_of_ne hne _ _⟩) fun _ hst => ?_
    exact absurd hst (by simp)
  · rw [if_neg hstep]
    refine h.trace hrp hinv hk (fun p hne => ⟨rfl, rfl⟩) fun hst hstep' hlive => ?_
    -- a request 9 that the kernel has refused was made for a free slot
    have hnine : request ≠ 9 := by
      intro hnine
      rcases KState.doTrace_cases hrp (show t.k.resumed.doTrace child request = _ from hk) with
        ⟨hfree, -, -⟩ | ⟨-, hn, -, -⟩
      · exact absurd (hlive.symm.trans hfree) (by decide)
      · exact hstep ⟨hnine, hn⟩
    have hkept := h.stop rp hst hlive hstep'
    unfold KState.stopAfter
    rw [if_neg (not_or.mpr ⟨hresume, hnine⟩), hkept]
    simp

/-- `do_fork` of a process that is not stopped. -/
theorem Agree.doFork {parent : ℤ} {base : ℕ} (h : Agree t)
    (hp : t.Promised (.doFork parent child base)) (hg : t.Good (.doFork parent child base))
    (hrun : t.doFork parent child base = .ok t') : Agree t' := by
  obtain ⟨⟨n, k'⟩, hk, heq⟩ := map_eq_ok hrun
  have hinv := (KState.perform_cases h.inv hp.1 hk).1
  have hparent : flagOf t.stopped parent = false := hg
  have hk' : t.k.resumed.doFork parent child base = .ok (n, k') := hk
  subst heq
  simp only [hparent]
  unfold KState.doFork at hk'
  split at hk'
  · next rpp rpc hpp hpc =>
    cases hk'
    have hrp : procAddr child = some rpc := by
      unfold susern at hpc
      split at hpc
      · exact hpc
      · cases hpc
    rw [withFlag_eq hrp, withFlag_eq hrp]
    refine ⟨hinv, fun p hu hlive => ?_, fun p hs hlive hstep => ?_⟩
    · change Shape (update t.k.pMap rpc _ p)
      by_cases hne : p = rpc
      · rw [hne, update_self]
        exact hp.2 rpp hpp
      · rw [update_of_ne hne]
        refine h.shape p hu ?_
        change (update t.k.pFlags rpc _ p).slotFree = false at hlive
        rwa [update_of_ne hne] at hlive
    · have hne : p ≠ rpc := by
        rintro rfl
        exact absurd hs (by simp)
      change (update t.k.pFlags rpc _ p).stop = true
      change (update t.k.pFlags rpc _ p).slotFree = false at hlive
      rw [update_of_ne hne] at hlive ⊢
      simp only [update_of_ne hne] at hs hstep
      exact h.stop p hs hlive hstep
  · cases hk'
    refine ⟨hinv, h.shape, fun p hs hlive hstep => ?_⟩
    cases hrp : procAddr child with
    | none =>
      simp only [withFlag, hrp] at hs hstep
      exact h.stop p hs hlive hstep
    | some rp =>
      simp only [withFlag_eq hrp] at hs hstep
      have hne : p ≠ rp := by
        rintro rfl
        exact absurd hs (by simp)
      rw [update_of_ne hne] at hs hstep
      exact h.stop p hs hlive hstep

/-- The step: a good move keeps the flags in agreement. -/
theorem Agree.perform {m : Move} (h : Agree t) (hp : t.Promised m) (hg : t.Good m)
    (hrun : t.perform m = .ok t') : Agree t' := by
  cases m with
  | kernel e =>
    obtain ⟨⟨n, k'⟩, hk, rfl⟩ := map_eq_ok hrun
    exact h.kernel hp hk
  | stopProc child => exact h.stopProc hp hrun
  | doTrace child request addr data => exact h.doTrace hp.1 hg hrun
  | doFork parent child base => exact h.doFork hp hg hrun

/-! ## §4 Runs -/

/-- The states of the runs whose moves are `allowed`. -/
inductive Reached (allowed : Tracing → Move → Prop) (L : Layout) (map : ProcPtr → MemMaps)
    (memory : Cell → Message) : Tracing → Prop
  | boot {k : KState} (h : boot L map memory = .ok k) :
      Reached allowed L map memory ⟨k, fun _ => false, fun _ => false⟩
  | step {t t' : Tracing} {m : Move} (ht : Reached allowed L map memory t) (hm : allowed t m)
      (h : t.perform m = .ok t') : Reached allowed L map memory t'

/-- A promised move that keeps tracing in order. -/
def Orderly (t : Tracing) (m : Move) : Prop := t.Promised m ∧ t.Good m

variable {L : Layout} {map : ProcPtr → MemMaps} {memory : Cell → Message}

/-- INIT is the only user process at the start. -/
theorem startFlags_user : ∀ p, isuserp p → (startFlags p).slotFree = false → p = init := by
  decide

/-- The run: the flags agree in every state. -/
theorem Reached.agree (hmap : Shape (map init)) (h : Reached Orderly L map memory t) : Agree t := by
  induction h with
  | boot hboot =>
    obtain ⟨k₀, hk, hinv⟩ := boot_inv L map memory
    obtain rfl := Except.ok.inj (hboot.symm.trans hk)
    refine ⟨hinv, fun p hu hlive => ?_, fun p hs => absurd hs (by simp)⟩
    obtain ⟨r, -, rfl⟩ := map_eq_ok hboot
    obtain rfl : p = init := startFlags_user p hu hlive
    exact hmap
  | step _ hm hrun ih => exact ih.perform hm.1 hm.2 hrun

/-! ## §5 Which Requests Are Contained -/

/-- The process is on a ready queue. -/
def OnQueue (k : KState) (rp : ProcPtr) : Prop :=
  ∃ q l, Chain k.rdy.nextready (k.rdy.head q) l ∧ rp ∈ l

theorem onQueue_iff {k : KState} (h : Inv k) (rp : ProcPtr) :
    OnQueue k rp ↔ Runnable k.pFlags rp := by
  obtain ⟨l, hl⟩ := h.rdy.lists
  constructor
  · rintro ⟨q, m, hchain, hmem⟩
    have hm : m = l q := Chain.unique hchain (hl.queue q).chain
    exact ((hl.mem q rp).mp (hm ▸ hmem)).1
  · intro hrun
    exact ⟨queueOf rp, l (queueOf rp), (hl.queue _).chain, (hl.mem _ rp).mpr ⟨hrun, rfl⟩⟩

/-- The entry that `do_trace` looks at. -/
def entry (t : Tracing) (rp : ProcPtr) (psw : BitVec 16) : TraceEntry :=
  ⟨(t.k.pFlags rp).slotFree, t.k.pMap rp, psw⟩

/-- **A contained request**: what it touches is the traced process's own, `EIO` has no effect, and
    a process that is made ready was not ready before. -/
structure Contained (t : Tracing) (rp : ProcPtr) (child request addr data : ℤ)
    (psw : BitVec 16) : Prop where
  inBounds : InBounds (t.entry rp psw) (traceAccess (t.entry rp psw) request addr data)
  refused : traceAccess (t.entry rp psw) request addr data = .refused →
    ∃ n, t.k.perform (.trace child request) = .ok (n, t.k.resumed)
  queued : request = 7 ∨ request = 9 → (t.k.pFlags rp).slotFree = false →
    { t.k.pFlags rp with stop := false } = Flags.zero → ¬ OnQueue t.k rp

/-- A request that is refused changes nothing in the kernel. -/
theorem perform_refused {addr data : ℤ} {psw : BitVec 16} (hrp : procAddr child = some rp)
    (h : traceAccess (t.entry rp psw) request addr data = .refused) :
    ∃ n, t.k.perform (.trace child request) = .ok (n, t.k.resumed) := by
  change ∃ n, t.k.resumed.doTrace child request = _
  unfold KState.doTrace
  rw [hrp]
  dsimp only
  split
  · exact ⟨eio, rfl⟩
  next hlive =>
  -- the requests that stop a process or let it go on are not refused
  have hnot : ¬ (request = -1 ∨ request = 7 ∨ request = 9) := by
    intro hsched
    have hfree : ¬ (t.entry rp psw).slotFree = true := hlive
    unfold traceAccess at h
    simp only [if_neg hfree, if_pos hsched] at h
    cases h
  rw [if_neg fun h => hnot (.inl h), if_neg fun h => hnot (.inr h)]
  exact ⟨ok, rfl⟩

/-- **When a request is contained.**  In every state of a run of moves that keep tracing in order,
    for every request that MM accepts for a stopped process: it is contained just when it keeps
    tracing in order itself. -/
theorem trace_contained_iff (hmap : Shape (map init)) (h : Reached Orderly L map memory t)
    {child request addr data : ℤ} {rp : ProcPtr} (hchild : isokusern child)
    (hrp : procAddr child = some rp) (hstopped : t.stopped rp = true) (haddr : IsLong addr)
    (psw : BitVec 16) :
    t.Contained rp child request addr data psw ↔ t.Good (.doTrace child request addr data) := by
  have hagree := h.agree hmap
  have huser : isuserp rp := by
    obtain ⟨rp', hrp', huser⟩ := exists_usern hchild
    exact Option.some.inj (hrp'.symm.trans hrp) ▸ huser
  have haccess : InBounds (t.entry rp psw) (traceAccess (t.entry rp psw) request addr data) ↔
      GoodAddr (t.k.pFlags rp).slotFree (t.k.pMap rp) request addr :=
    traceAccess_inBounds_iff (fun hlive => hagree.shape rp huser hlive) haddr
  constructor
  · intro hc rp' hrp' _
    obtain rfl := Option.some.inj (hrp'.symm.trans hrp)
    refine ⟨haccess.mp hc.inBounds, fun hreq _ hzero => ?_⟩
    -- a ready process would be put on its queue once more
    have hlive : (t.k.pFlags rp').slotFree = false := by
      rw [hzero]
      rfl
    have hrun : Runnable t.k.pFlags rp' :=
      ⟨hzero, not_pseudo_of_not_isKernelp (not_isKernelp_of_isuserp huser)⟩
    refine hc.queued hreq hlive ?_ ((onQueue_iff hagree.inv rp').mpr hrun)
    rw [hzero]
    rfl
  · intro hg
    obtain ⟨haddr', hready⟩ := hg rp hrp hstopped
    refine ⟨haccess.mpr haddr', perform_refused hrp, fun hreq hlive _ hon => ?_⟩
    have hzero := ((onQueue_iff hagree.inv rp).mp hon).1
    have hstop := hagree.stop rp hstopped hlive
    cases hstep : t.stepping rp with
    | true => exact hready hreq hstep hzero
    | false =>
      have hset := hstop hstep
      rw [hzero] at hset
      exact absurd hset (by decide)

/-! ## §6 A Debugger -/

instance (map : MemMaps) : Decidable (Shape map) :=
  decidable_of_iff
    (map.data.memVir = map.text.memVir + map.text.memLen ∧
      map.data.memPhys = map.text.memPhys + map.text.memLen ∧
      map.data.memVir + map.data.memLen ≤ map.stack.memVir ∧
      map.stack.memPhys + map.data.memVir = map.data.memPhys + map.stack.memVir ∧
      map.stack.memVir + map.stack.memLen < 65536 ∧
      map.stack.memPhys + map.stack.memLen < 65536 ∧
      map.data.memPhys < map.stack.memPhys + map.stack.memLen)
    ⟨fun ⟨h1, h2, h3, h4, h5, h6, h7⟩ => ⟨h1, h2, h3, h4, h5, h6, h7⟩,
      fun ⟨h1, h2, h3, h4, h5, h6, h7⟩ => ⟨h1, h2, h3, h4, h5, h6, h7⟩⟩

/-- A check that a move is promised and good; of the requests it lets only single steps pass. -/
def checkMove (t : Tracing) : Move → Bool
  | .kernel (.sysCall f srcDest mPtr) => decide (Kernel.Promised t.k (.sysCall f srcDest mPtr))
  | .kernel _ => false
  | .stopProc child => decide (isokusern child)
  | .doTrace child request addr _ =>
    decide (isokusern child) && decide (addr = 0) && decide (request = 9) &&
      !flagOf t.stepping child
  | .doFork parent child base =>
    decide (Kernel.Promised t.k (.fork parent child base)) && !flagOf t.stopped parent &&
      (susern parent).all fun rpp => decide (Shape (childMap (t.k.pMap rpp) base))

theorem orderly_of_checkMove {m : Move} (h : checkMove t m = true) : Orderly t m := by
  cases m with
  | kernel e =>
    cases e with
    | sysCall f srcDest mPtr => exact ⟨⟨of_decide_eq_true h, trivial⟩, trivial⟩
    | _ => exact absurd h (by simp [checkMove])
  | stopProc child => exact ⟨(of_decide_eq_true h : isokusern child), trivial⟩
  | doTrace child request addr data =>
    simp only [checkMove, Bool.and_eq_true, decide_eq_true_eq, Bool.not_eq_true'] at h
    obtain ⟨⟨⟨hchild, rfl⟩, rfl⟩, hstep⟩ := h
    refine ⟨⟨hchild, by decide, by decide⟩, fun rp hrp _ => ⟨.inr ⟨?_, ?_, ?_⟩, fun _ hs => ?_⟩⟩
    · exact fun hreq => absurd hreq (by decide)
    · exact fun hreq => absurd hreq (by decide)
    · exact fun hreq => absurd hreq (by decide)
    · rw [flagOf_eq hrp, hs] at hstep
      cases hstep
  | doFork parent child base =>
    simp only [checkMove, Bool.and_eq_true, decide_eq_true_eq, Bool.not_eq_true',
      Option.all_eq_true] at h
    obtain ⟨⟨hpromised, hstopped⟩, hshape⟩ := h
    exact ⟨⟨hpromised, fun rpp hrpp => hshape rpp hrpp⟩, hstopped⟩

/-- Make some moves one after the other, as long as they pass the check. -/
def play : List Move → Tracing → Except Fault Tracing
  | [], t => .ok t
  | m :: ms, t => if checkMove t m then t.perform m >>= play ms else .error .endless

theorem Reached.play {ms : List Move} (h : Reached Orderly L map memory t)
    (hplay : play ms t = .ok t') : Reached Orderly L map memory t' := by
  induction ms generalizing t with
  | nil =>
    cases hplay
    exact h
  | cons m ms ih =>
    unfold Tracing.play at hplay
    split at hplay
    · next hc =>
      obtain ⟨t₁, ht1, hrest⟩ := bind_eq_ok hplay
      exact ih (h.step (orderly_of_checkMove hc) ht1) hrest
    · cases hplay

/-- INIT forks, and the child is stopped by a signal. -/
def stopRun : List Move :=
  (forkRun.map fun e =>
    match e with
    | .fork parent child base => .doFork parent child base
    | e => .kernel e) ++ [.stopProc 3]

/-- What a run leaves of the child in slot 3: its flags, and whether it is on the queue. -/
def childState (t : Tracing) : Bool × Bool × Flags × Bool :=
  (t.stopped 12, t.stepping 12, t.k.pFlags 12,
    decide (Chain t.k.rdy.nextready (t.k.rdy.head .userQ) [12]))

theorem exists_reached_of_play (ms : List Move) (a : Bool × Bool × Flags × Bool)
    (h : ((boot plainLayout plainMap noMessage).bind fun k =>
        play ms ⟨k, fun _ => false, fun _ => false⟩).map childState = .ok a) :
    ∃ t, Reached Orderly plainLayout plainMap noMessage t ∧ childState t = a := by
  obtain ⟨t, hrun, hstate⟩ := map_eq_ok h
  obtain ⟨k, hboot, hplay⟩ := bind_eq_ok hrun
  exact ⟨t, (Reached.boot hboot).play hplay, hstate⟩

/-- The child may be made to do a single step. -/
theorem trace_contained_step : ∃ t, Reached Orderly plainLayout plainMap noMessage t ∧
    t.stopped 12 = true ∧ t.Contained 12 3 9 0 0 0#16 := by
  obtain ⟨t, hr, hstate⟩ := exists_reached_of_play stopRun
    (true, false, { Flags.zero with stop := true }, false) (by decide +kernel)
  simp only [childState, Prod.mk.injEq] at hstate
  obtain ⟨hstopped, hstepping, -, -⟩ := hstate
  refine ⟨t, hr, hstopped, (trace_contained_iff (by decide) hr (by decide) (by decide) hstopped
    ⟨by decide, by decide⟩ 0#16).mpr fun rp hrp _ => ⟨.inr ⟨?_, ?_, ?_⟩, fun _ hs => ?_⟩⟩
  · exact fun hreq => absurd hreq (by decide)
  · exact fun hreq => absurd hreq (by decide)
  · exact fun hreq => absurd hreq (by decide)
  · have hslot : procAddr 3 = some 12 := by decide
    obtain rfl := Option.some.inj (hslot.symm.trans hrp)
    exact absurd (hs.symm.trans hstepping) (by decide)

/-- **Requests that go wrong.**  The child does a single step, so that it is ready while MM still
    has it as stopped: the next step puts it on the queue once more.  And request 3 at address -4
    reads in front of its entry. -/
theorem trace_not_contained : ∃ t, Reached Orderly plainLayout plainMap noMessage t ∧
    t.stopped 12 = true ∧ ¬ t.Contained 12 3 9 0 0 0#16 ∧ ¬ t.Contained 12 3 3 (-4) 0 0#16 := by
  obtain ⟨t, hr, hstate⟩ := exists_reached_of_play (stopRun ++ [.doTrace 3 9 0 0])
    (true, true, Flags.zero, true) (by decide +kernel)
  simp only [childState, Prod.mk.injEq, decide_eq_true_eq] at hstate
  obtain ⟨hstopped, -, hflags, hchain⟩ := hstate
  have hlive : (t.k.pFlags 12).slotFree = false := by
    rw [hflags]
    rfl
  refine ⟨t, hr, hstopped, fun hc => ?_, fun hc => ?_⟩
  · refine hc.queued (.inr rfl) hlive ?_ ⟨.userQ, [12], hchain, by simp⟩
    rw [hflags]
    rfl
  · have hread := hc.inBounds
    rw [traceAccess_entry hlive, if_neg (by decide)] at hread
    exact absurd hread.1 (by decide)

end Tracing

end LisaMinix.Kernel