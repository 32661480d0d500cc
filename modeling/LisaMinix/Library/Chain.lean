import Mathlib.Data.List.Nodup
import Mathlib.Logic.Function.Basic

/-!
# Linked Lists Threaded Through a Table

A table whose cells hold a pointer to another cell (or the nil pointer) can carry
several singly linked lists at once.  This module relates such a table to the lists
it represents:

- `Seg next p l q`: from pointer `p`, following `next`, the cells `l` are visited in
  order and the pointer reached after them is `q`;
- `Chain next p l`: the same, ending in the nil pointer.

A chain determines its list (`Chain.unique`) and never visits a cell twice
(`Chain.nodup`), so a represented list is finite and acyclic by construction.  The
remaining lemmas are frame and surgery rules: writing the pointer of a cell that is not
visited changes nothing, and one pointer write inserts or removes a cell.
-/

namespace LisaMinix.Library

open Function

variable {α : Type*}

/-- From pointer `p`, following `next`, the cells `l` are visited in order and `q` is the
pointer reached after them. -/
def Seg (next : α → Option α) : Option α → List α → Option α → Prop
  | p, [], q => p = q
  | p, a :: l, q => p = some a ∧ Seg next (next a) l q

/-- A segment that ends in the nil pointer. -/
abbrev Chain (next : α → Option α) (p : Option α) (l : List α) : Prop :=
  Seg next p l none

instance Seg.decidable [DecidableEq α] (next : α → Option α) :
    ∀ p l q, Decidable (Seg next p l q)
  | p, [], q => inferInstanceAs (Decidable (p = q))
  | p, a :: l, q =>
    have := Seg.decidable next (next a) l q
    inferInstanceAs (Decidable (p = some a ∧ Seg next (next a) l q))

section

variable {next next' : α → Option α} {p q : Option α} {l r : List α} {a b : α}

@[simp] theorem seg_nil : Seg next p [] q ↔ p = q := Iff.rfl

@[simp] theorem seg_cons : Seg next p (a :: l) q ↔ p = some a ∧ Seg next (next a) l q :=
  Iff.rfl

theorem seg_append :
    Seg next p (l ++ r) q ↔ ∃ m, Seg next p l m ∧ Seg next m r q := by
  induction l generalizing p with
  | nil => simp
  | cons a l ih =>
    simp only [List.cons_append, seg_cons, ih, and_assoc]
    exact ⟨fun ⟨hp, m, h⟩ => ⟨m, hp, h⟩, fun ⟨m, hp, h⟩ => ⟨hp, m, h⟩⟩

/-- The end of a segment is the pointer stored in its last cell. -/
theorem seg_snoc : Seg next p (l ++ [a]) q ↔ Seg next p l (some a) ∧ next a = q := by
  rw [seg_append]
  constructor
  · rintro ⟨m, hl, hm⟩
    simp only [seg_cons, seg_nil] at hm
    obtain ⟨rfl, hq⟩ := hm
    exact ⟨hl, hq⟩
  · rintro ⟨hl, hq⟩
    exact ⟨some a, hl, by simp [hq]⟩

/-- Frame rule: only the pointers of the visited cells matter. -/
theorem Seg.congr (h : Seg next p l q) (heq : ∀ x ∈ l, next' x = next x) :
    Seg next' p l q := by
  induction l generalizing p with
  | nil => exact h
  | cons a l ih =>
    refine ⟨h.1, ?_⟩
    rw [heq a (List.mem_cons_self ..)]
    exact ih h.2 fun x hx => heq x (List.mem_cons_of_mem _ hx)

/-- Writing the pointer of a cell off the segment does not change the segment. -/
theorem Seg.update [DecidableEq α] (h : Seg next p l q) (ha : a ∉ l) (v : Option α) :
    Seg (update next a v) p l q :=
  h.congr fun _ hx => update_of_ne (ne_of_mem_of_not_mem hx ha) v next

/-- A chain determines the list it represents. -/
theorem Chain.unique (h : Chain next p l) (h' : Chain next p r) : l = r := by
  induction l generalizing p r with
  | nil =>
    cases r with
    | nil => rfl
    | cons b r =>
      have hp : p = none := h
      rw [hp] at h'
      exact absurd h'.1 (by simp)
  | cons a l ih =>
    cases r with
    | nil =>
      have hp : p = none := h'
      rw [hp] at h
      exact absurd h.1 (by simp)
    | cons b r =>
      have hab : a = b := Option.some.inj (h.1.symm.trans h'.1)
      subst hab
      rw [ih h.2 h'.2]

/-- A chain visits no cell twice. -/
theorem Chain.nodup (h : Chain next p l) : l.Nodup := by
  induction l generalizing p with
  | nil => exact List.nodup_nil
  | cons a l ih =>
    refine List.nodup_cons.mpr ⟨fun ha => ?_, ih h.2⟩
    -- a second visit of `a` would make the tail after it equal to the whole tail
    obtain ⟨s, t, rfl⟩ := List.append_of_mem ha
    obtain ⟨m, _, hm⟩ := seg_append.mp h.2
    have htail : s ++ a :: t = t := Chain.unique h.2 hm.2
    have hlen := congrArg List.length htail
    simp only [List.length_append, List.length_cons] at hlen
    omega

theorem Chain.head_eq (h : Chain next p l) : p = l.head? := by
  cases l with
  | nil => exact h
  | cons a l => simpa using h.1

/-- Surgery rule: after `a`, the pointer of the cell before it, is redirected past `b`,
the chain misses `b` and nothing else. -/
theorem Chain.unlink [DecidableEq α] (h : Chain next p (l ++ a :: b :: r)) :
    Chain (update next a (next b)) p (l ++ a :: r) := by
  have hnd := h.nodup
  obtain ⟨m, hl, hm⟩ := seg_append.mp h
  have ha : a ∉ l := fun hal =>
    List.disjoint_of_nodup_append hnd hal (List.mem_cons_self ..)
  have har : a ∉ r := by
    have hcons := List.nodup_cons.mp (List.nodup_append.mp hnd).2.1
    exact fun har => hcons.1 (List.mem_cons_of_mem _ har)
  refine seg_append.mpr ⟨m, hl.update ha _, hm.1, ?_⟩
  rw [update_self]
  exact hm.2.2.update har _

/-- Surgery rule: a cell `b` off the chain is inserted after `a` by two pointer writes. -/
theorem Chain.link [DecidableEq α] (h : Chain next p (l ++ a :: r)) (hb : b ∉ l ++ a :: r) :
    Chain (update (update next b (next a)) a (some b)) p
      (l ++ a :: b :: r) := by
  have hnd := h.nodup
  obtain ⟨m, hl, hm⟩ := seg_append.mp h
  have hal : a ∉ l := fun hal =>
    List.disjoint_of_nodup_append hnd hal (List.mem_cons_self ..)
  have har : a ∉ r := (List.nodup_cons.mp (List.nodup_append.mp hnd).2.1).1
  have hbl : b ∉ l := fun hbl => hb (List.mem_append_left _ hbl)
  have hba : b ≠ a := fun hba => hb (by simp [hba])
  have hbr : b ∉ r := fun hbr => hb (by simp [hbr])
  refine seg_append.mpr ⟨m, (hl.update hbl _).update hal _, hm.1, ?_⟩
  rw [update_self]
  refine ⟨rfl, ?_⟩
  rw [update_of_ne hba, update_self]
  exact (hm.2.update hbr _).update har _

end

end LisaMinix.Library
