import Mathlib.Tactic
import LisaMinix.Library.Chain

/-!
# Queues Threaded Through a Table

Loops over a linked list, and first-in first-out queues with a head and a tail pointer, in the
setting of `Library.Chain`.

- `scan` is the loop "follow the pointers until a cell passes a test"; on a chain it ends, and
  it computes `firstWith`, its meaning on lists.
- `IsQueue next head tail l`: the cells `l` are chained from `head`, and `tail` points to the
  last of them.  The tail pointer of an empty queue is not constrained.
-/

namespace LisaMinix.Library
variable {α : Type*}

/-! ## §1 Searching -/

/-- Follow `next` from a pointer until a cell passes `stop`, for at most `fuel` cells.  The
result is the cell found with the one before it, or nothing when the list ends first; the outer
`none` is a loop that has not ended. -/
def scan (next : α → Option α) (stop : α → Bool) :
    ℕ → Option α → Option α → Option (Option (Option α × α))
  | _, _, none => some none
  | 0, _, some _ => none
  | fuel + 1, prev, some a =>
    if stop a then some (some (prev, a)) else scan next stop fuel (some a) (next a)

/-- The first element that passes `stop`, with the one before it. -/
def firstWith (stop : α → Bool) : Option α → List α → Option (Option α × α)
  | _, [] => none
  | prev, a :: l => if stop a then some (prev, a) else firstWith stop (some a) l

section Search

variable {next : α → Option α} {stop : α → Bool} {p prev : Option α} {l r : List α} {a b : α}

/-- On a chain the loop ends, and finds the first cell that passes the test. -/
theorem scan_chain (h : Chain next p l) (fuel : ℕ) (hfuel : l.length ≤ fuel) (prev : Option α) :
    scan next stop fuel prev p = some (firstWith stop prev l) := by
  induction l generalizing p fuel prev with
  | nil =>
    have hp : p = none := h
    subst hp
    cases fuel <;> rfl
  | cons a l ih =>
    obtain ⟨rfl, hrest⟩ := h
    cases fuel with
    | zero => simp at hfuel
    | succ fuel =>
      simp only [scan, firstWith]
      split
      · rfl
      · exact ih hrest fuel (by simpa using hfuel) (some a)

theorem firstWith_eq_none : firstWith stop prev l = none ↔ ∀ x ∈ l, stop x = false := by
  induction l generalizing prev with
  | nil => simp [firstWith]
  | cons a l ih =>
    simp only [firstWith, List.forall_mem_cons]
    cases ha : stop a with
    | true => simp
    | false => simp [ih]

/-- The element found, with everything before it. -/
theorem firstWith_eq_some (h : firstWith stop prev l = some (p, a)) :
    ∃ pre post, l = pre ++ a :: post ∧ (∀ x ∈ pre, stop x = false) ∧ stop a = true ∧
      p = pre.getLast?.or prev := by
  induction l generalizing prev with
  | nil => simp [firstWith] at h
  | cons x l ih =>
    simp only [firstWith] at h
    split at h
    next hx =>
      simp only [Option.some.injEq, Prod.mk.injEq] at h
      obtain ⟨rfl, rfl⟩ := h
      exact ⟨[], l, rfl, by simp, hx, rfl⟩
    next hx =>
      obtain ⟨pre, post, rfl, hpre, ha, rfl⟩ := ih h
      refine ⟨x :: pre, post, rfl, ?_, ha, ?_⟩
      · intro y hy
        rcases List.mem_cons.mp hy with rfl | hy
        · simpa using hx
        · exact hpre y hy
      · cases pre with
        | nil => rfl
        | cons z pre => simp [List.getLast?_cons]

theorem firstWith_append (hl : ∀ x ∈ l, stop x = false) (ha : stop a = true) :
    firstWith stop prev (l ++ a :: r) = some (l.getLast?.or prev, a) := by
  induction l generalizing prev with
  | nil => simp [firstWith, ha]
  | cons x l ih =>
    have hx : stop x = false := hl x (List.mem_cons_self ..)
    simp only [List.cons_append, firstWith, hx, Bool.false_eq_true, if_false]
    rw [ih fun y hy => hl y (List.mem_cons_of_mem _ hy)]
    cases l with
    | nil => rfl
    | cons z l => simp [List.getLast?_cons]

theorem Chain.next_mid (h : Chain next p (l ++ a :: b :: r)) : next a = some b := by
  obtain ⟨m, -, hm⟩ := seg_append.mp h
  exact hm.2.1

theorem Chain.next_last (h : Chain next p (l ++ [a])) : next a = none :=
  (seg_snoc.mp h).2

/-- A cell with another one before it is not the first. -/
theorem Chain.head_ne (h : Chain next p (l ++ a :: b :: r)) : p ≠ some b := by
  have hnd := h.nodup
  rw [h.head_eq]
  intro hhead
  cases l with
  | nil =>
    simp only [List.nil_append, List.head?_cons, Option.some.injEq] at hhead
    simp [hhead] at hnd
  | cons c l =>
    simp only [List.cons_append, List.head?_cons, Option.some.injEq] at hhead
    simp [hhead] at hnd

/-- A cell of a chain points to the cell after it, or nowhere. -/
theorem Chain.next_mem (h : Chain next p l) (ha : a ∈ l) (hb : next a = some b) :
    ∃ pre post, l = pre ++ a :: b :: post := by
  obtain ⟨pre, post, rfl⟩ := List.append_of_mem ha
  cases post with
  | nil => simp [Chain.next_last h] at hb
  | cons c post =>
    have hc : c = b := Option.some.inj ((Chain.next_mid h).symm.trans hb)
    exact ⟨pre, post, by rw [hc]⟩

/-- The search for the last cell of a chain that is not empty. -/
theorem scan_last (h : Chain next p (l ++ [a])) (fuel : ℕ) (hfuel : l.length < fuel) :
    ∃ x, scan next (fun x => decide (next x = none)) fuel prev p = some (some (x, a)) := by
  have hl : ∀ x ∈ l, decide (next x = none) = false := by
    intro x hx
    obtain ⟨s, t, rfl⟩ := List.append_of_mem hx
    cases t with
    | nil => simp [Chain.next_mid (r := []) (b := a) (by simpa using h)]
    | cons c t => simp [Chain.next_mid (r := t ++ [a]) (b := c) (by simpa using h)]
  refine ⟨l.getLast?.or prev, ?_⟩
  rw [scan_chain h fuel (by simp; omega)]
  rw [firstWith_append hl (by simp [h.next_last])]

variable [DecidableEq α]

/-- The search for the cell before `b`. -/
theorem scan_before (h : Chain next p (l ++ a :: b :: r)) (fuel : ℕ)
    (hfuel : (l ++ a :: b :: r).length ≤ fuel) :
    ∃ x, scan next (fun x => decide (next x = some b)) fuel prev p = some (some (x, a)) := by
  have hnd := h.nodup
  have hl : ∀ x ∈ l, decide (next x = some b) = false := by
    intro x hx
    simp only [decide_eq_false_iff_not]
    intro hxb
    -- two cells before `b` would put `b` on the chain twice
    obtain ⟨s, t, rfl⟩ := List.append_of_mem hx
    cases t with
    | nil =>
      have hxa := Chain.next_mid (a := x) (b := a) (l := s) (r := b :: r) (by simpa using h)
      have hab : a = b := Option.some.inj (hxa.symm.trans hxb)
      simp [hab, List.nodup_append] at hnd
    | cons c t =>
      have hxc := Chain.next_mid (a := x) (b := c) (l := s) (r := t ++ a :: b :: r)
        (by simpa using h)
      have hcb : c = b := Option.some.inj (hxc.symm.trans hxb)
      simp [hcb, List.nodup_append] at hnd
  refine ⟨l.getLast?.or prev, ?_⟩
  rw [scan_chain h fuel hfuel, firstWith_append hl (by simp [h.next_mid])]

/-- No cell points to a cell that is not on the chain. -/
theorem scan_absent (h : Chain next p l) (hb : b ∉ l) (fuel : ℕ) (hfuel : l.length ≤ fuel) :
    scan next (fun x => decide (next x = some b)) fuel prev p = some none := by
  rw [scan_chain h fuel hfuel]
  congr 1
  refine firstWith_eq_none.mpr fun x hx => ?_
  simp only [decide_eq_false_iff_not]
  intro hxb
  obtain ⟨s, t, rfl⟩ := h.next_mem hx hxb
  exact hb (by simp)

end Search

/-! ## §2 Queues -/

/-- The cells `l` are chained from `head`, and `tail` points to the last of them. -/
structure IsQueue (next : α → Option α) (head tail : Option α) (l : List α) : Prop where
  chain : Chain next head l
  tail_eq : l ≠ [] → tail = l.getLast?

namespace IsQueue

variable {next next' : α → Option α} {head tail : Option α} {l r : List α} {a b t : α}

theorem nodup (h : IsQueue next head tail l) : l.Nodup := h.chain.nodup

/-- The empty queue. -/
theorem empty : IsQueue next none tail [] := ⟨rfl, fun h => absurd rfl h⟩

theorem eq_nil (h : IsQueue next none tail l) : l = [] :=
  Chain.unique h.chain rfl

theorem eq_cons (h : IsQueue next (some a) tail l) : ∃ r, l = a :: r := by
  cases l with
  | nil => exact absurd h.chain (by simp)
  | cons x l =>
    obtain ⟨hx, -⟩ := h.chain
    exact ⟨l, by rw [Option.some.inj hx]⟩

/-- Frame rule: only the pointers of the cells of the queue matter. -/
theorem congr (h : IsQueue next head tail l) (heq : ∀ x ∈ l, next' x = next x) :
    IsQueue next' head tail l :=
  ⟨h.chain.congr heq, h.tail_eq⟩

/-- A queue that is not empty ends in the cell that `tail` points to. -/
theorem eq_snoc (h : IsQueue next head tail l) (hne : head ≠ none) :
    ∃ m t, tail = some t ∧ l = m ++ [t] := by
  rcases List.eq_nil_or_concat' l with rfl | ⟨m, t, rfl⟩
  · exact absurd h.chain hne
  · exact ⟨m, t, by rw [h.tail_eq (by simp)]; simp, rfl⟩

/-- The first cell leaves; the tail pointer stays. -/
theorem pop (h : IsQueue next (some a) tail (a :: l)) : IsQueue next (next a) tail l := by
  refine ⟨h.chain.2, fun hne => ?_⟩
  rw [h.tail_eq (by simp)]
  cases l with
  | nil => exact absurd rfl hne
  | cons b l => rw [List.getLast?_cons_cons]

variable [DecidableEq α]

theorem update (h : IsQueue next head tail l) (ha : a ∉ l) (v : Option α) :
    IsQueue (Function.update next a v) head tail l :=
  ⟨h.chain.update ha v, h.tail_eq⟩

/-- A new cell joins an empty queue. -/
theorem push_empty (a : α) : IsQueue (Function.update next a none) (some a) (some a) [a] :=
  ⟨⟨rfl, Function.update_self ..⟩, fun _ => rfl⟩

/-- A new cell joins a queue that is not empty, behind the cell `t`. -/
theorem push (h : IsQueue next head (some t) l) (hne : l ≠ []) (ha : a ∉ l) :
    IsQueue (Function.update (Function.update next t (some a)) a none) head (some a)
      (l ++ [a]) := by
  rcases List.eq_nil_or_concat' l with rfl | ⟨m, x, rfl⟩
  · exact absurd rfl hne
  have hx : t = x := by
    have := h.tail_eq hne
    simpa using this
  subst hx
  have hat : t ≠ a := fun hat => ha (by simp [hat])
  have htm : t ∉ m := by
    have hnd := h.nodup
    simp only [List.nodup_append] at hnd
    exact fun htm => hnd.2.2 t htm t (by simp) rfl
  have ham : a ∉ m := fun ham => ha (by simp [ham])
  have hm := (seg_snoc.mp h.chain).1
  refine ⟨?_, fun _ => by simp⟩
  refine seg_snoc.mpr ⟨seg_snoc.mpr ⟨(hm.update htm _).update ham _, ?_⟩,
    Function.update_self ..⟩
  rw [Function.update_of_ne hat, Function.update_self]

/-- The cell `b` leaves from the body of the queue; `tail` is set to the last cell again. -/
theorem remove (h : IsQueue next head tail (l ++ a :: b :: r)) :
    IsQueue (Function.update next a (next b)) head (l ++ a :: r).getLast? (l ++ a :: r) :=
  ⟨h.chain.unlink, fun _ => rfl⟩

/-- The first cell moves to the end of a queue of two or more: three pointer writes. -/
theorem rotate (h : IsQueue next (some a) (some t) (a :: l)) (hne : l ≠ []) :
    IsQueue (Function.update (Function.update next t (some a)) a none) (next a) (some a)
      (l ++ [a]) := by
  have ha : a ∉ l := (List.nodup_cons.mp h.nodup).1
  exact h.pop.push hne ha

end IsQueue

end LisaMinix.Library
