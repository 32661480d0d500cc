import LisaMinix.Library.Loops
import LisaMinix.Kernel.System

/-!
# What the Queues of the Process Table Represent

The three groups of linked lists of `Kernel.Proc`, each related to what it stands for:

- `Ready.Rep r R`: just the processes in `R` are on a ready queue, each on the queue of its
  class, and the running process is the first of its queue (or IDLE);
- `Callers.Rep c w`: the queues of senders are those of the list `w` of who is waiting to send
  to whom, in the order in which they blocked;
- `Held.Rep h`: the processes with `p_int_held` set are on the held queue.

For each operation on the lists there is one theorem: it returns, and what is represented
afterwards.
-/

namespace LisaMinix.Kernel

open LisaMinix.Library Function
open LisaMinix.Mm (nrProcs)

/-! ## §1 Searches -/

section

variable {next : ProcPtr → Option ProcPtr} {p : Option ProcPtr} {l r : List ProcPtr} {a b : ProcPtr}

theorem length_le_fuel (h : l.Nodup) : l.length ≤ fuel := by
  have := List.Nodup.length_le_card h
  simpa [fuel] using this

/-- A search over a chain ends. -/
theorem search_chain (stop : ProcPtr → Bool) (h : Chain next p l) :
    search next stop p = .ok (firstWith stop none l) := by
  unfold search
  rw [scan_chain h fuel (length_le_fuel h.nodup)]

theorem search_last (h : Chain next p (l ++ [a])) :
    ∃ x, search next (fun x => decide (next x = none)) p = .ok (some (x, a)) := by
  have hlen := length_le_fuel h.nodup
  simp only [List.length_append, List.length_singleton] at hlen
  obtain ⟨x, hx⟩ : ∃ x, scan next _ fuel none p = some (some (x, a)) := scan_last h fuel hlen
  exact ⟨x, by unfold search; rw [hx]⟩

theorem search_before (h : Chain next p (l ++ a :: b :: r)) :
    ∃ x, search next (fun x => decide (next x = some b)) p = .ok (some (x, a)) := by
  obtain ⟨x, hx⟩ : ∃ x, scan next _ fuel none p = some (some (x, a)) :=
    scan_before h fuel (length_le_fuel h.nodup)
  exact ⟨x, by unfold search; rw [hx]⟩

theorem search_absent (h : Chain next p l) (hb : b ∉ l) :
    search next (fun x => decide (next x = some b)) p = .ok none := by
  unfold search
  rw [scan_absent h hb fuel (length_le_fuel h.nodup)]

end

/-! ## §2 The ready queues -/

/-- The lists on the three ready queues. -/
structure Ready.Lists (r : Ready) (l : Queue → List ProcPtr) (R : ProcPtr → Prop) : Prop where
  queue : ∀ q, IsQueue r.nextready (r.head q) (r.tail q) (l q)
  mem : ∀ q p, p ∈ l q ↔ R p ∧ queueOf p = q

/-- The running process is IDLE, or the first of its queue. -/
def Ready.Current (r : Ready) : Prop :=
  r.procPtr = idle ∨ r.head (queueOf r.procPtr) = some r.procPtr

/-- Just the processes in `R` are ready. -/
structure Ready.Rep (r : Ready) (R : ProcPtr → Prop) : Prop where
  lists : ∃ l, r.Lists l R
  current : r.Current

namespace Ready

variable {r : Ready} {R R' : ProcPtr → Prop} {l : Queue → List ProcPtr} {p rp : ProcPtr}
  {q : Queue}

theorem Lists.queueOf_mem (h : r.Lists l R) (hp : p ∈ l q) : queueOf p = q :=
  ((h.mem q p).mp hp).2

theorem Lists.head_mem (h : r.Lists l R) (hp : r.head q = some p) : p ∈ l q := by
  have hq := h.queue q
  rw [hp] at hq
  obtain ⟨t, ht⟩ := hq.eq_cons
  simp [ht]

theorem Rep.congr (h : r.Rep R) (hR : ∀ p, R p ↔ R' p) : r.Rep R' := by
  obtain ⟨l, hl⟩ := h.lists
  exact ⟨⟨l, hl.queue, fun q p => by rw [hl.mem, hR]⟩, h.current⟩

/-- The running process is ready, unless it is IDLE. -/
theorem Rep.running (h : r.Rep R) (hidle : r.procPtr ≠ idle) : R r.procPtr := by
  obtain ⟨l, hl⟩ := h.lists
  rcases h.current with hc | hc
  · exact absurd hc hidle
  · exact ((hl.mem _ _).mp (hl.head_mem hc)).1

theorem Lists.pickProc_current (h : r.Lists l R) : (pickProc r).Current := by
  unfold pickProc
  split
  next p hp => exact .inr (by simp [h.queueOf_mem (h.head_mem hp), hp])
  next =>
    split
    next p hp => exact .inr (by simp [h.queueOf_mem (h.head_mem hp), hp])
    next =>
      split
      next p hp => exact .inr (by simp [h.queueOf_mem (h.head_mem hp), hp])
      next => exact .inl rfl

theorem pickProc_lists (h : r.Lists l R) : (pickProc r).Lists l R := by
  have hqueues : (pickProc r).nextready = r.nextready ∧ (pickProc r).head = r.head ∧
      (pickProc r).tail = r.tail := by
    unfold pickProc
    repeat' split
    all_goals exact ⟨rfl, rfl, rfl⟩
  obtain ⟨hnext, hhead, htail⟩ := hqueues
  exact ⟨fun q => by rw [hnext, hhead, htail]; exact h.queue q, h.mem⟩

theorem Lists.pickProc_rep (h : r.Lists l R) : (pickProc r).Rep R :=
  ⟨⟨l, pickProc_lists h⟩, h.pickProc_current⟩

theorem Rep.pickProc (h : r.Rep R) : (pickProc r).Rep R := by
  obtain ⟨l, hl⟩ := h.lists
  exact hl.pickProc_rep

/-- One queue changes, by writes to the pointers of processes of its class. -/
theorem Lists.update_queue (h : r.Lists l R) {r' : Ready} {m : List ProcPtr}
    (hq : IsQueue r'.nextready (r'.head q) (r'.tail q) m)
    (hmem : ∀ p, p ∈ m ↔ R' p ∧ queueOf p = q)
    (hR : ∀ p, queueOf p ≠ q → (R' p ↔ R p))
    (hnext : ∀ p, queueOf p ≠ q → r'.nextready p = r.nextready p)
    (hhead : ∀ q', q' ≠ q → r'.head q' = r.head q')
    (htail : ∀ q', q' ≠ q → r'.tail q' = r.tail q') :
    r'.Lists (update l q m) R' := by
  constructor
  · intro q'
    by_cases hq' : q' = q
    · subst hq'
      simpa using hq
    · rw [update_of_ne hq', hhead q' hq', htail q' hq']
      exact (h.queue q').congr fun x hx => hnext x fun hxq => hq' ((h.queueOf_mem hx).symm.trans hxq)
  · intro q' p
    by_cases hq' : q' = q
    · subst hq'
      simpa using hmem p
    · rw [update_of_ne hq', h.mem]
      constructor
      · rintro ⟨hp, rfl⟩
        exact ⟨(hR p hq').mpr hp, rfl⟩
      · rintro ⟨hp, rfl⟩
        exact ⟨(hR p hq').mp hp, rfl⟩

/-- `rp` joins the queue of its class. -/
theorem append_rep (h : r.Rep R) (hrp : ¬ R rp) (hq : queueOf rp = q) :
    ∃ r', append r q rp = .ok r' ∧ r'.Rep (fun x => R x ∨ x = rp) ∧ r'.procPtr = r.procPtr := by
  obtain ⟨l, hl⟩ := h.lists
  have hnot : rp ∉ l q := fun hmem => hrp ((hl.mem q rp).mp hmem).1
  have hqueue := hl.queue q
  have hmem : ∀ p, p ∈ l q ++ [rp] ↔ (R p ∨ p = rp) ∧ queueOf p = q := by
    intro p
    simp only [List.mem_append, hl.mem, List.mem_singleton]
    constructor
    · rintro (⟨hp, hpq⟩ | rfl)
      · exact ⟨.inl hp, hpq⟩
      · exact ⟨.inr rfl, hq⟩
    · rintro ⟨hp | rfl, hpq⟩
      · exact .inl ⟨hp, hpq⟩
      · exact .inr rfl
  have hR : ∀ p, queueOf p ≠ q → ((R p ∨ p = rp) ↔ R p) := by
    intro p hp
    exact ⟨fun hx => hx.resolve_right fun hprp => hp (by rw [hprp, hq]), .inl⟩
  have hne : ∀ p, queueOf p ≠ q → p ≠ rp := fun p hp hprp => hp (by rw [hprp, hq])
  cases hhead : r.head q with
  | none =>
    -- the queue was empty
    rw [hhead] at hqueue
    have hnil := hqueue.eq_nil
    have happend : append r q rp = .ok { r with
        head := update r.head q (some rp)
        tail := update r.tail q (some rp)
        nextready := update r.nextready rp none } := by
      simp only [append, hhead]
    refine ⟨_, happend, ⟨⟨_, hl.update_queue (q := q) (m := l q ++ [rp]) ?_ hmem hR ?_ ?_ ?_⟩, ?_⟩,
      rfl⟩
    · simp only [hnil, List.nil_append, update_self]
      exact IsQueue.push_empty rp
    · exact fun p hp => update_of_ne (hne p hp) _ _
    · exact fun q' hq' => update_of_ne hq' _ _
    · exact fun q' hq' => update_of_ne hq' _ _
    · refine h.current.imp id fun hc => ?_
      have hcq : queueOf r.procPtr ≠ q := fun hcq => by simp [hcq, hhead] at hc
      simpa [update_of_ne hcq] using hc
  | some x =>
    obtain ⟨m, t, ht, hm⟩ := hqueue.eq_snoc (by simp [hhead])
    have htq : queueOf t = q := hl.queueOf_mem (q := q) (by simp [hm])
    have happend : append r q rp = .ok { r with
        tail := update r.tail q (some rp)
        nextready := update (update r.nextready t (some rp)) rp none } := by
      simp only [append, hhead, ht]
    refine ⟨_, happend, ⟨⟨_, hl.update_queue (q := q) (m := l q ++ [rp]) ?_ hmem hR ?_
      (fun _ _ => rfl) ?_⟩, h.current⟩, rfl⟩
    · rw [ht] at hqueue
      simp only [update_self]
      exact hqueue.push (by simp [hm]) hnot
    · intro p hp
      dsimp only
      rw [update_of_ne (hne p hp), update_of_ne]
      exact fun hpt => hp (by rw [hpt, htq])
    · exact fun q' hq' => update_of_ne hq' _ _

theorem ready_rep (h : r.Rep R) (hrp : ¬ R rp) :
    ∃ r', ready r rp = .ok r' ∧ r'.Rep (fun x => R x ∨ x = rp) ∧ r'.procPtr = r.procPtr :=
  append_rep h hrp rfl

/-- The head of the queue leaves, and another process is picked when it was running. -/
theorem unready_head (h : r.Rep R) (hl : r.Lists l R) (hhead : r.head (queueOf rp) = some rp) :
    ∃ r', unready r rp = .ok r' ∧ r'.Rep fun x => R x ∧ x ≠ rp := by
  have hqueue := hl.queue (queueOf rp)
  rw [hhead] at hqueue
  obtain ⟨m, hm⟩ := hqueue.eq_cons
  rw [hm] at hqueue
  have hnot : rp ∉ m := (List.nodup_cons.mp hqueue.nodup).1
  have hl' : Ready.Lists { r with head := update r.head (queueOf rp) (r.nextready rp) }
      (update l (queueOf rp) m) (fun x => R x ∧ x ≠ rp) := by
    refine hl.update_queue ?_ ?_ ?_ (fun _ _ => rfl) ?_ fun _ _ => rfl
    · simp only [update_self]
      exact hqueue.pop
    · intro p
      have hp := hl.mem (queueOf rp) p
      rw [hm, List.mem_cons] at hp
      constructor
      · intro hpm
        obtain ⟨hRp, hpq⟩ := hp.mp (.inr hpm)
        exact ⟨⟨hRp, fun hprp => hnot (hprp ▸ hpm)⟩, hpq⟩
      · rintro ⟨⟨hRp, hprp⟩, hpq⟩
        exact (hp.mpr ⟨hRp, hpq⟩).resolve_left hprp
    · intro p hp
      exact ⟨fun hx => hx.1, fun hx => ⟨hx, fun hprp => hp (by rw [hprp])⟩⟩
    · exact fun q' hq' => update_of_ne hq' _ _
  by_cases hrun : rp = r.procPtr
  · exact ⟨_, by simp only [unready, hhead, if_true, if_pos hrun], hl'.pickProc_rep⟩
  · refine ⟨_, by simp only [unready, hhead, if_true, if_neg hrun], ⟨_, hl'⟩,
      h.current.imp id fun hc => ?_⟩
    -- the running process is the first of another queue
    have hcq : queueOf r.procPtr ≠ queueOf rp := by
      intro hcq
      rw [hcq, hhead] at hc
      exact hrun (Option.some.inj hc)
    simpa [update_of_ne hcq] using hc

/-- A process in the body of the queue leaves. -/
theorem unready_body (h : r.Rep R) (hl : r.Lists l R) {x : ProcPtr}
    (hhead : r.head (queueOf rp) = some x) (hx : x ≠ rp) (hrp : R rp) :
    ∃ r', unready r rp = .ok r' ∧ r'.Rep fun x => R x ∧ x ≠ rp := by
  have hqueue := hl.queue (queueOf rp)
  have hmem : rp ∈ l (queueOf rp) := (hl.mem _ _).mpr ⟨hrp, rfl⟩
  obtain ⟨pre, post, hpre⟩ := List.append_of_mem hmem
  -- there is a process before `rp`, since `rp` is not the first
  rcases List.eq_nil_or_concat' pre with rfl | ⟨m, a, rfl⟩
  · rw [hhead, hpre] at hqueue
    exact absurd (Option.some.inj hqueue.chain.1) hx
  have hm : l (queueOf rp) = m ++ a :: rp :: post := by simpa using hpre
  rw [hm] at hqueue
  have hchain := hqueue.chain
  obtain ⟨y, hy⟩ := search_before hchain
  have hrest := hchain.unlink
  have hseg : Chain (update r.nextready a (r.nextready rp)) (some a) (a :: post) := by
    obtain ⟨z, -, hz⟩ := seg_append.mp hrest
    have hza : z = some a := hz.1
    rwa [hza] at hz
  obtain ⟨last, z, hlast, hz⟩ : ∃ last z,
      (a :: post).getLast? = some last ∧
        search (update r.nextready a (r.nextready rp))
          (fun y => decide (update r.nextready a (r.nextready rp) y = none)) (some a) =
            .ok (some (z, last)) := by
    rcases List.eq_nil_or_concat' (a :: post) with hnil | ⟨s, last, hs⟩
    · exact absurd hnil (by simp)
    · rw [hs] at hseg
      obtain ⟨z, hz⟩ := search_last hseg
      exact ⟨last, z, by rw [hs]; simp, hz⟩
  have haq : queueOf a = queueOf rp := hl.queueOf_mem (q := queueOf rp) (by simp [hm])
  have hnd := hchain.nodup
  have hunready : unready r rp = .ok { r with
      nextready := update r.nextready a (r.nextready rp)
      tail := update r.tail (queueOf rp) (some last) } := by
    simp only [unready, hhead, if_neg hx, unreadyBody]
    rw [← hhead, hy]
    simp only [ok_bind, hz, map_ok, Option.map_some]
  refine ⟨_, hunready, ⟨⟨_, hl.update_queue (q := queueOf rp) (m := m ++ a :: post) ?_ ?_ ?_ ?_
    (fun _ _ => rfl) ?_⟩, h.current⟩⟩
  · have hfinal := hqueue.remove
    simp only [update_self]
    rwa [List.getLast?_append_of_ne_nil _ (by simp), hlast] at hfinal
  · intro p
    have hp := hl.mem (queueOf rp) p
    rw [hm] at hp
    have hsplit : p ∈ m ++ a :: rp :: post ↔ p ∈ m ++ a :: post ∨ p = rp := by
      simp only [List.mem_append, List.mem_cons]
      tauto
    have hnot : rp ∉ m ++ a :: post := by
      have hperm : (m ++ a :: rp :: post).Perm (rp :: (m ++ a :: post)) := by
        have hmid : ((m ++ [a]) ++ rp :: post).Perm (rp :: ((m ++ [a]) ++ post)) :=
          List.perm_middle
        simpa using hmid
      exact (List.nodup_cons.mp (hperm.nodup_iff.mp hnd)).1
    constructor
    · intro hpm
      obtain ⟨hRp, hpq⟩ := hp.mp (hsplit.mpr (.inl hpm))
      exact ⟨⟨hRp, fun hprp => hnot (hprp ▸ hpm)⟩, hpq⟩
    · rintro ⟨⟨hRp, hprp⟩, hpq⟩
      exact (hsplit.mp (hp.mpr ⟨hRp, hpq⟩)).resolve_right hprp
  · intro p hp
    exact ⟨fun hx => hx.1, fun hx => ⟨hx, fun hprp => hp (by rw [hprp])⟩⟩
  · exact fun p hp => update_of_ne (fun hpa => hp (by rw [hpa, haq])) _ _
  · exact fun q' hq' => update_of_ne hq' _ _

/-- `rp` is no longer ready. -/
theorem unready_rep (h : r.Rep R) (rp : ProcPtr) :
    ∃ r', unready r rp = .ok r' ∧ r'.Rep fun x => R x ∧ x ≠ rp := by
  obtain ⟨l, hl⟩ := h.lists
  by_cases hrp : R rp
  · have hmem : rp ∈ l (queueOf rp) := (hl.mem _ _).mpr ⟨hrp, rfl⟩
    cases hhead : r.head (queueOf rp) with
    | none =>
      have hqueue := hl.queue (queueOf rp)
      rw [hhead] at hqueue
      simp [hqueue.eq_nil] at hmem
    | some x =>
      by_cases hx : x = rp
      · exact unready_head h hl (by rw [hhead, hx])
      · exact unready_body h hl hhead hx hrp
  · -- not on the queue: nothing is found, and nothing changes
    have hsame : r.Rep fun x => R x ∧ x ≠ rp :=
      h.congr fun p => ⟨fun hp => ⟨hp, fun hprp => hrp (hprp ▸ hp)⟩, fun hp => hp.1⟩
    have hnot : rp ∉ l (queueOf rp) := fun hmem => hrp ((hl.mem _ _).mp hmem).1
    refine ⟨r, ?_, hsame⟩
    cases hhead : r.head (queueOf rp) with
    | none => simp only [unready, hhead]
    | some x =>
      have hx : x ≠ rp := by
        rintro rfl
        exact hnot (hl.head_mem hhead)
      simp only [unready, hhead, if_neg hx, unreadyBody]
      rw [← hhead, search_absent (hl.queue _).chain hnot]
      rfl

/-- `sched` changes the order of the user processes only. -/
theorem sched_rep (h : r.Rep R) : ∃ r', sched r = .ok r' ∧ r'.Rep R := by
  obtain ⟨l, hl⟩ := h.lists
  have hqueue := hl.queue .userQ
  cases hhead : r.head .userQ with
  | none => exact ⟨r, by simp only [sched, hhead], h⟩
  | some a =>
    obtain ⟨m, t, ht, hm⟩ := hqueue.eq_snoc (by simp [hhead])
    rw [hhead, ht] at hqueue
    obtain ⟨s, hs⟩ := hqueue.eq_cons
    have haq : queueOf a = .userQ := hl.queueOf_mem (q := .userQ) (by simp [hs])
    have htq : queueOf t = .userQ := hl.queueOf_mem (q := .userQ) (by simp [hm])
    have hne : ∀ p, queueOf p ≠ .userQ → p ≠ a ∧ p ≠ t := fun p hp =>
      ⟨fun hpa => hp (by rw [hpa, haq]), fun hpt => hp (by rw [hpt, htq])⟩
    have hqueue' : IsQueue (update (update r.nextready t (some a)) a none)
        (update r.nextready t (some a) a) (some a) (s ++ [a]) := by
      cases s with
      | nil =>
        have hta : t = a := by
          rw [hs] at hm
          rcases m with _ | ⟨c, m⟩ <;> simp at hm
          exact hm.symm
        rw [hta, update_self, update_idem]
        exact IsQueue.push_empty a
      | cons c s =>
        rw [hs] at hqueue
        have hta : a ≠ t := by
          rintro rfl
          have hnd := hqueue.nodup
          rw [← hs, hm] at hnd
          rw [hs] at hm
          rcases m with _ | ⟨d, m⟩
          · simp at hm
          · simp only [List.cons_append, List.cons.injEq] at hm
            rw [hm.1] at hnd
            simp at hnd
        rw [update_of_ne hta]
        exact hqueue.rotate (by simp)
    refine ⟨_, by simp only [sched, hhead, ht]; rfl, Lists.pickProc_rep
      (l := update l .userQ (s ++ [a])) (hl.update_queue ?_ ?_ (fun _ _ => Iff.rfl)
        ?_ ?_ ?_)⟩
    · simp only [update_self]
      exact hqueue'
    · intro p
      rw [← hl.mem, hs]
      simp [or_comm]
    · intro p hp
      dsimp only
      rw [update_of_ne (hne p hp).1, update_of_ne (hne p hp).2]
    · exact fun q' hq' => update_of_ne hq' _ _
    · exact fun q' hq' => update_of_ne hq' _ _

end Ready

/-! ## §3 The queues of senders -/

section

variable {w : List (ProcPtr × ProcPtr)} {s d d' : ProcPtr}

@[simp] theorem mem_callersOf : s ∈ callersOf w d ↔ (s, d) ∈ w := by
  simp only [callersOf, List.mem_map, List.mem_filter, decide_eq_true_eq]
  constructor
  · rintro ⟨⟨a, b⟩, ⟨hmem, rfl⟩, rfl⟩
    exact hmem
  · exact fun hmem => ⟨(s, d), ⟨hmem, rfl⟩, rfl⟩

theorem callersOf_append_self : callersOf (w ++ [(s, d)]) d = callersOf w d ++ [s] := by
  simp [callersOf]

theorem callersOf_append_of_ne (h : d' ≠ d) : callersOf (w ++ [(s, d)]) d' = callersOf w d' := by
  simp [callersOf, Ne.symm h]

theorem callersOf_filter :
    callersOf (w.filter fun x => decide (x.1 ≠ s)) d =
      (callersOf w d).filter fun x => decide (x ≠ s) := by
  simp only [callersOf, List.filter_filter, List.filter_map]
  congr 1
  refine List.filter_congr fun x _ => ?_
  simp [Bool.and_comm]

/-- A process is waiting to send to one process only. -/
theorem waiting_unique (hnd : (w.map Prod.fst).Nodup) (h : (s, d) ∈ w) (h' : (s, d') ∈ w) :
    d = d' := by
  have := List.inj_on_of_nodup_map hnd h h' rfl
  exact (Prod.mk.injEq ..).mp this |>.2

end

/-- The queues of senders are those of `w`. -/
structure Callers.Rep (c : Callers) (w : List (ProcPtr × ProcPtr)) : Prop where
  chain : ∀ d, Chain c.sendlink (c.callerq d) (callersOf w d)
  nodup : (w.map Prod.fst).Nodup

namespace Callers.Rep

variable {c : Callers} {w : List (ProcPtr × ProcPtr)} {s d rc : ProcPtr}

theorem not_mem_of_ne (h : c.Rep w) {d' : ProcPtr} (hs : (s, d) ∈ w) (hne : d' ≠ d) :
    s ∉ callersOf w d' :=
  fun hs' => hne (waiting_unique h.nodup (mem_callersOf.mp hs') hs)

theorem isCaller_eq (h : c.Rep w) : isCaller c d s = .ok (decide ((s, d) ∈ w)) := by
  unfold isCaller
  rw [search_chain _ (h.chain d), map_ok]
  congr 1
  cases hfound : firstWith (fun y => decide (y = s)) none (callersOf w d) with
  | none =>
    have hnot := firstWith_eq_none.mp hfound
    have hs : (s, d) ∉ w := fun hs => by simpa using hnot s (mem_callersOf.mpr hs)
    simp [hs]
  | some found =>
    obtain ⟨pre, post, heq, -, hs, -⟩ := firstWith_eq_some (p := found.1) (a := found.2) hfound
    have hmem : found.2 ∈ callersOf w d := by
      rw [heq]
      simp
    rw [decide_eq_true_eq.mp hs, mem_callersOf] at hmem
    simp [hmem]

theorem findSender_eq (h : c.Rep w) (src : ℤ) :
    findSender c d src = .ok (firstWith (wanted src) none (callersOf w d)) :=
  search_chain _ (h.chain d)

/-- `s` joins the queue of `d`. -/
theorem enqueue (h : c.Rep w) (hs : s ∉ w.map Prod.fst) (d : ProcPtr) :
    ∃ c', Kernel.enqueue c s d = .ok c' ∧ c'.Rep (w ++ [(s, d)]) := by
  have hfree : ∀ d', s ∉ callersOf w d' := fun d' hmem =>
    hs (List.mem_map_of_mem (f := Prod.fst) (mem_callersOf.mp hmem))
  have hnd : ((w ++ [(s, d)]).map Prod.fst).Nodup := by
    rw [List.map_append, List.nodup_append]
    refine ⟨h.nodup, by simp, fun a ha b hb hab => ?_⟩
    simp only [List.map_cons, List.map_nil, List.mem_singleton] at hb
    exact hs (hb ▸ hab ▸ ha)
  cases hq : c.callerq d with
  | none =>
    have hnil : callersOf w d = [] := by
      have := h.chain d
      rw [hq] at this
      exact Chain.unique this rfl
    refine ⟨{ callerq := update c.callerq d (some s)
              sendlink := update c.sendlink s none },
      by simp only [Kernel.enqueue, hq], fun d' => ?_, hnd⟩
    by_cases hd : d' = d
    · subst hd
      rw [callersOf_append_self, hnil]
      simp
    · rw [callersOf_append_of_ne hd]
      dsimp only
      rw [update_of_ne hd]
      exact (h.chain d').update (hfree d') _
  | some x =>
    rcases List.eq_nil_or_concat' (callersOf w d) with hnil | ⟨m, y, hm⟩
    · have := h.chain d
      rw [hnil, hq] at this
      exact absurd this (by simp)
    have hchain := h.chain d
    rw [hm] at hchain
    obtain ⟨z, hz⟩ := search_last hchain
    have hy : (y, d) ∈ w := mem_callersOf.mp (by rw [hm]; simp)
    refine ⟨{ c with
      sendlink := update (update c.sendlink y (some s)) s none }, ?_,
      fun d' => ?_, hnd⟩
    · simp only [Kernel.enqueue, hq]
      rw [← hq, hz]
      rfl
    · by_cases hd : d' = d
      · subst hd
        have hqueue : IsQueue c.sendlink (c.callerq d') (some y) (m ++ [y]) :=
          ⟨hchain, fun _ => by simp⟩
        have hsm : s ∉ m ++ [y] := hm ▸ hfree d'
        rw [callersOf_append_self, hm]
        exact (hqueue.push (by simp) hsm).chain
      · rw [callersOf_append_of_ne hd]
        exact ((h.chain d').update (h.not_mem_of_ne hy hd) _).update (hfree d') _

theorem filter_nodup (h : c.Rep w) (s : ProcPtr) :
    ((w.filter fun x => decide (x.1 ≠ s)).map Prod.fst).Nodup :=
  h.nodup.sublist (List.filter_sublist.map _)

theorem callersOf_filter_of_ne (h : c.Rep w) (hs : (s, d) ∈ w) {d' : ProcPtr} (hne : d' ≠ d) :
    callersOf (w.filter fun x => decide (x.1 ≠ s)) d' = callersOf w d' := by
  rw [callersOf_filter]
  refine List.filter_eq_self.mpr fun x hx => ?_
  simp only [decide_eq_true_eq]
  rintro rfl
  exact h.not_mem_of_ne hs hne hx

theorem callersOf_filter_self (h : c.Rep w) (pre post : List ProcPtr)
    (heq : callersOf w d = pre ++ s :: post) :
    callersOf (w.filter fun x => decide (x.1 ≠ s)) d = pre ++ post := by
  have hnd := (h.chain d).nodup
  rw [heq] at hnd
  rw [callersOf_filter, heq, List.filter_append, List.filter_cons_of_neg (by simp)]
  have hmid := List.nodup_middle.mp hnd
  obtain ⟨hnot, -⟩ := List.nodup_cons.mp hmid
  simp only [List.mem_append, not_or] at hnot
  congr 1 <;> refine List.filter_eq_self.mpr fun x hx => ?_
  · simpa using fun hxs : x = s => hnot.1 (hxs ▸ hx)
  · simpa using fun hxs : x = s => hnot.2 (hxs ▸ hx)

/-- The first sender of the queue of `d` leaves. -/
theorem remove_first (h : c.Rep w) {post : List ProcPtr} (heq : callersOf w d = s :: post) :
    Callers.Rep { c with callerq := update c.callerq d (c.sendlink s) }
      (w.filter fun x => decide (x.1 ≠ s)) := by
  have hs : (s, d) ∈ w := mem_callersOf.mp (by rw [heq]; simp)
  refine ⟨fun d' => ?_, h.filter_nodup s⟩
  by_cases hd : d' = d
  · subst hd
    have hchain := h.chain d'
    rw [heq] at hchain
    rw [h.callersOf_filter_self [] _ heq]
    simpa using hchain.2
  · rw [h.callersOf_filter_of_ne hs hd]
    dsimp only
    rw [update_of_ne hd]
    exact h.chain d'

/-- A sender in the body of the queue of `d` leaves. -/
theorem remove_mid (h : c.Rep w) {m post : List ProcPtr} {a : ProcPtr}
    (heq : callersOf w d = m ++ a :: s :: post) :
    Callers.Rep { c with sendlink := update c.sendlink a (c.sendlink s) }
      (w.filter fun x => decide (x.1 ≠ s)) := by
  have hs : (s, d) ∈ w := mem_callersOf.mp (by rw [heq]; simp)
  have ha : (a, d) ∈ w := mem_callersOf.mp (by rw [heq]; simp)
  refine ⟨fun d' => ?_, h.filter_nodup s⟩
  by_cases hd : d' = d
  · subst hd
    have hchain := h.chain d'
    rw [heq] at hchain
    rw [h.callersOf_filter_self (m ++ [a]) post (by simpa using heq)]
    simpa using hchain.unlink
  · rw [h.callersOf_filter_of_ne hs hd]
    exact (h.chain d').update (h.not_mem_of_ne ha hd) _

/-- The sender `s` that `mini_rec` has found leaves the queue of `d`. -/
theorem unlinkSender (h : c.Rep w) {pre post : List ProcPtr}
    (heq : callersOf w d = pre ++ s :: post) :
    ∃ c', Kernel.unlinkSender c d pre.getLast? s = .ok c' ∧
      c'.Rep (w.filter fun x => decide (x.1 ≠ s)) := by
  have hchain := h.chain d
  rw [heq] at hchain
  rcases List.eq_nil_or_concat' pre with rfl | ⟨m, a, rfl⟩
  · have hq : c.callerq d = some s := hchain.1
    exact ⟨_, by simp only [Kernel.unlinkSender, hq, if_true], h.remove_first heq⟩
  · have hm : callersOf w d = m ++ a :: s :: post := by simpa using heq
    have hfirst : c.callerq d ≠ some s :=
      Chain.head_ne (l := m) (a := a) (r := post) (by simpa using hchain)
    refine ⟨_, ?_, h.remove_mid hm⟩
    simp only [Kernel.unlinkSender, if_neg hfirst, List.getLast?_concat]

/-- The loop of `do_xit` goes past a slot where `rc` is not queued. -/
theorem unqueue_skip (h : c.Rep w) {rp : ProcPtr} (hrp : (rc, rp) ∉ w) (l : List ProcPtr) :
    unqueue rc (rp :: l) c = unqueue rc l c := by
  have hnot : rc ∉ callersOf w rp := fun hmem => hrp (mem_callersOf.mp hmem)
  have hchain := h.chain rp
  cases hq : c.callerq rp with
  | none => simp only [unqueue, hq]
  | some np =>
    have hnp : np ≠ rc := by
      rintro rfl
      rw [hchain.head_eq] at hq
      exact hnot (List.mem_of_head? hq)
    simp only [unqueue, hq, if_neg hnp]
    rw [← hq, search_absent hchain hnot]
    rfl

theorem unqueue_absent (h : c.Rep w) {l : List ProcPtr} (hl : ∀ rp ∈ l, (rc, rp) ∉ w) :
    unqueue rc l c = .ok c := by
  induction l with
  | nil => rfl
  | cons rp l ih =>
    rw [h.unqueue_skip (hl rp (List.mem_cons_self ..))]
    exact ih fun x hx => hl x (List.mem_cons_of_mem _ hx)

/-- The loop of `do_xit` takes `rc` out of the queue it is on. -/
theorem unqueue (h : c.Rep w) (hrc : (rc, d) ∈ w) {l : List ProcPtr} (hl : d ∈ l)
    (hnd : l.Nodup) :
    ∃ c', Kernel.unqueue rc l c = .ok c' ∧ c'.Rep (w.filter fun x => decide (x.1 ≠ rc)) := by
  obtain ⟨l₁, l₂, rfl⟩ := List.append_of_mem hl
  have hrest : ∀ rp ∈ l₂, (rc, rp) ∉ w.filter fun x => decide (x.1 ≠ rc) := by
    intro rp _ hmem
    simp at hmem
  induction l₁ with
  | nil =>
    have hmem : rc ∈ callersOf w d := mem_callersOf.mpr hrc
    obtain ⟨pre, post, heq⟩ := List.append_of_mem hmem
    have hchain := h.chain d
    rw [heq] at hchain
    rcases List.eq_nil_or_concat' pre with rfl | ⟨m, a, rfl⟩
    · have hq : c.callerq d = some rc := hchain.1
      exact ⟨_, by simp only [List.nil_append, Kernel.unqueue, hq, if_true],
        h.remove_first heq⟩
    · have hm : callersOf w d = m ++ a :: rc :: post := by simpa using heq
      have hchain' : Chain c.sendlink (c.callerq d) (m ++ a :: rc :: post) := by
        rw [← hm]
        exact h.chain d
      cases hq : c.callerq d with
      | none =>
        rw [hq] at hchain'
        exact absurd (Chain.unique hchain' (r := []) rfl) (by simp)
      | some np =>
        have hnp : np ≠ rc := by
          rintro rfl
          exact hchain'.head_ne hq
        obtain ⟨x, hx⟩ := search_before hchain'
        have hrep := h.remove_mid hm
        refine ⟨_, ?_, hrep⟩
        simp only [List.nil_append, Kernel.unqueue, hq, if_neg hnp]
        rw [← hq, hx]
        exact hrep.unqueue_absent hrest
  | cons rp l₁ ih =>
    have hne : d ≠ rp := by
      rintro rfl
      simp at hnd
    have hrp : (rc, rp) ∉ w := fun hmem => hne (waiting_unique h.nodup hrc hmem)
    rw [List.cons_append, h.unqueue_skip hrp]
    exact ih (by simp) (List.nodup_cons.mp hnd).2

end Callers.Rep

/-! ## §4 The held queue -/

/-- The processes with `p_int_held` set are on the held queue, and no others. -/
def Held.Rep (h : Held) (l : List ProcPtr) : Prop :=
  IsQueue h.nextheld h.head h.tail l ∧ ∀ p, p ∈ l ↔ h.intHeld p = true

namespace Held.Rep

variable {h : Held} {l : List ProcPtr}

/-- An interrupt for `rp` is held up. -/
theorem hold (hrep : h.Rep l) (rp : ProcPtr) :
    ∃ h' l', KState.hold h rp = .ok h' ∧ h'.Rep l' ∧ ∀ p ∈ l', p ∈ l ∨ p = rp := by
  obtain ⟨hqueue, hmem⟩ := hrep
  cases hheld : h.intHeld rp with
  | true => exact ⟨h, l, by simp [KState.hold, hheld], ⟨hqueue, hmem⟩, fun p hp => .inl hp⟩
  | false =>
    have hnot : rp ∉ l := fun hrp => by simp [(hmem rp).mp hrp] at hheld
    have hmem' : ∀ p, p ∈ l ++ [rp] ↔ update h.intHeld rp true p = true := by
      intro p
      by_cases hp : p = rp
      · simp [hp]
      · simp [hp, hmem]
    have hsub : ∀ p ∈ l ++ [rp], p ∈ l ∨ p = rp := fun p hp => by simpa using hp
    cases hhead : h.head with
    | none =>
      rw [hhead] at hqueue
      obtain rfl := hqueue.eq_nil
      exact ⟨{ intHeld := update h.intHeld rp true
               nextheld := update h.nextheld rp none
               head := some rp
               tail := some rp }, [rp], by simp [KState.hold, hheld, hhead],
        ⟨IsQueue.push_empty rp, hmem'⟩, hsub⟩
    | some x =>
      obtain ⟨m, t, ht, hm⟩ := hqueue.eq_snoc (by simp [hhead])
      rw [ht] at hqueue
      exact ⟨{ h with
          intHeld := update h.intHeld rp true
          nextheld := update (update h.nextheld t (some rp)) rp none
          tail := some rp }, l ++ [rp], by simp [KState.hold, hheld, hhead, ht],
        ⟨hqueue.push (by simp [hm]) hnot, hmem'⟩, hsub⟩

/-- The first held-up interrupt is taken from the queue. -/
theorem pop (hrep : h.Rep l) {rp : ProcPtr} (hhead : h.head = some rp) :
    ∃ l', l = rp :: l' ∧ Held.Rep { h with
      head := h.nextheld rp
      tail := if h.nextheld rp = none then none else h.tail
      intHeld := update h.intHeld rp false } l' := by
  obtain ⟨hqueue, hmem⟩ := hrep
  rw [hhead] at hqueue
  obtain ⟨l', rfl⟩ := hqueue.eq_cons
  have hnot : rp ∉ l' := (List.nodup_cons.mp hqueue.nodup).1
  refine ⟨l', rfl, ⟨hqueue.pop.chain, fun hne => ?_⟩, fun p => ?_⟩
  · have hnext : h.nextheld rp ≠ none := by
      intro hnone
      have hchain := hqueue.pop.chain
      rw [hnone] at hchain
      exact hne (Chain.unique hchain rfl)
    rw [if_neg hnext]
    exact hqueue.pop.tail_eq hne
  · by_cases hp : p = rp
    · simp [hp, hnot]
    · have := hmem p
      simp only [List.mem_cons, hp, false_or] at this
      simp [update_of_ne hp, this]

end Held.Rep

end LisaMinix.Kernel
