import Mathlib.Tactic

/-!
# Taking Turns

A queue whose first element moves to the end (it has had a turn), and which others leave or join
at the end between two turns.

- `ahead p l` is what is in front of `p`; `Stays p l l'` says that `p` stays on the queue and is
  not overtaken.
- `History p q l i j n l'`: from `l` to `l'` there were `n` turns, `i` of them of `p` and `j` of
  `q`, and both have stayed.
- `History.fair`: `p` and `q` had the same number of turns, up to one.
- `History.waiting`: each turn before the first one of `p` was of something ahead of it.
-/

namespace LisaMinix.Library

variable {α : Type*} [DecidableEq α] {p q a x : α} {l l' l₁ : List α}

/-- What is in front of `p`. -/
def ahead (p : α) (l : List α) : List α := l.takeWhile fun x => decide (x ≠ p)

@[simp] theorem ahead_cons_self : ahead p (p :: l) = [] := by
  simp [ahead]

theorem ahead_cons_of_ne (h : a ≠ p) : ahead p (a :: l) = a :: ahead p l := by
  simp [ahead, h]

/-- What joins at the end is not ahead. -/
theorem ahead_append (h : p ∈ l) : ahead p (l ++ l') = ahead p l := by
  induction l with
  | nil => simp at h
  | cons a l ih =>
    by_cases ha : a = p
    · subst ha
      rw [List.cons_append, ahead_cons_self, ahead_cons_self]
    · rw [List.cons_append, ahead_cons_of_ne ha, ahead_cons_of_ne ha,
        ih ((List.mem_cons.mp h).resolve_left (Ne.symm ha))]

/-- When another element leaves, nothing comes ahead of `p`. -/
theorem ahead_filter (h : x ≠ p) :
    (ahead p (l.filter fun y => decide (y ≠ x))).Sublist (ahead p l) := by
  induction l with
  | nil => exact List.Sublist.refl _
  | cons a l ih =>
    by_cases ha : a = p
    · subst ha
      rw [List.filter_cons_of_pos (by simpa using Ne.symm h), ahead_cons_self]
      exact List.nil_sublist _
    · rw [ahead_cons_of_ne ha]
      by_cases hax : a = x
      · rw [List.filter_cons_of_neg (by simp [hax])]
        exact ih.cons _
      · rw [List.filter_cons_of_pos (by simpa using hax), ahead_cons_of_ne ha]
        exact ih.cons_cons _

/-- Of two elements, one is ahead of the other. -/
theorem ahead_total (hp : p ∈ l) (hq : q ∈ l) (hne : p ≠ q) : p ∈ ahead q l ↔ q ∉ ahead p l := by
  induction l with
  | nil => simp at hp
  | cons a l ih =>
    by_cases hap : a = p
    · subst hap
      rw [ahead_cons_self, ahead_cons_of_ne hne]
      simp
    · by_cases haq : a = q
      · subst haq
        rw [ahead_cons_self, ahead_cons_of_ne hap]
        simp
      · rw [ahead_cons_of_ne haq, ahead_cons_of_ne hap]
        have hp' := (List.mem_cons.mp hp).resolve_left (Ne.symm hap)
        have hq' := (List.mem_cons.mp hq).resolve_left (Ne.symm haq)
        simp [ih hp' hq', Ne.symm hap, Ne.symm haq]

/-! ## Staying on the queue -/

/-- `p` stays on the queue, and nothing comes ahead of it. -/
structure Stays (p : α) (l l' : List α) : Prop where
  before : p ∈ l
  after : p ∈ l'
  sub : (ahead p l').Sublist (ahead p l)

theorem Stays.refl (h : p ∈ l) : Stays p l l := ⟨h, h, List.Sublist.refl _⟩

theorem Stays.trans (h : Stays p l l₁) (h' : Stays p l₁ l') : Stays p l l' :=
  ⟨h.before, h'.after, h'.sub.trans h.sub⟩

theorem Stays.append (h : p ∈ l) (l' : List α) : Stays p l (l ++ l') :=
  ⟨h, List.mem_append_left _ h, by rw [ahead_append h]⟩

theorem Stays.filter (h : p ∈ l) (hx : x ≠ p) : Stays p l (l.filter fun y => decide (y ≠ x)) :=
  ⟨h, List.mem_filter.mpr ⟨h, by simpa using Ne.symm hx⟩, ahead_filter hx⟩

/-- Two elements that stay keep their order. -/
theorem Stays.order (hp : Stays p l l') (hq : Stays q l l') (hne : p ≠ q) :
    p ∈ ahead q l' ↔ p ∈ ahead q l := by
  constructor
  · exact fun h => hq.sub.subset h
  · intro h
    rw [ahead_total hp.after hq.after hne]
    rw [ahead_total hp.before hq.before hne] at h
    exact fun h' => h (hp.sub.subset h')

/-! ## Turns -/

/-- 1 when `a` is the element that is counted. -/
def turnOf (a p : α) : ℕ := if a = p then 1 else 0

/-- From `l` to `l'` there were `n` turns, of which `p` had `i` and `q` had `j`. -/
inductive History (p q : α) (l : List α) : ℕ → ℕ → ℕ → List α → Prop
  | start : History p q l 0 0 0 l
  | stay {i j n : ℕ} {l₁ l₂ : List α} (h : History p q l i j n l₁) (hp : Stays p l₁ l₂)
      (hq : Stays q l₁ l₂) : History p q l i j n l₂
  | turn {i j n : ℕ} {a : α} {m : List α} (h : History p q l i j n (a :: m))
      (hnd : (a :: m).Nodup) :
      History p q l (i + turnOf a p) (j + turnOf a q) (n + 1) (m ++ [a])

/-- The order of two elements after a turn. -/
theorem order_rotate {m : List α} (hnd : (a :: m).Nodup) (hp : p ∈ a :: m) (hq : q ∈ a :: m)
    (hne : p ≠ q) :
    turnOf a p + (if p ∈ ahead q (m ++ [a]) then 1 else 0) =
      turnOf a q + if p ∈ ahead q (a :: m) then 1 else 0 := by
  obtain ⟨ha, -⟩ := List.nodup_cons.mp hnd
  by_cases hap : a = p
  · -- `p` was the first, and is the last now
    subst hap
    have hqm : q ∈ m := (List.mem_cons.mp hq).resolve_left (Ne.symm hne)
    have hnot : a ∉ ahead q m := fun h => ha ((List.takeWhile_sublist _).subset h)
    rw [ahead_append hqm, if_neg hnot, ahead_cons_of_ne hne]
    simp [turnOf, hne]
  · have hpm : p ∈ m := (List.mem_cons.mp hp).resolve_left (Ne.symm hap)
    by_cases haq : a = q
    · subst haq
      have hlast : p ∈ ahead a (m ++ [a]) := by
        rw [ahead_total (List.mem_append_left _ hpm) (by simp) hne, ahead_append hpm]
        exact fun h => ha ((List.takeWhile_sublist _).subset h)
      rw [if_pos hlast, ahead_cons_self]
      simp [turnOf, hap]
    · have hqm : q ∈ m := (List.mem_cons.mp hq).resolve_left (Ne.symm haq)
      rw [ahead_append hqm, ahead_cons_of_ne haq]
      simp [turnOf, hap, haq, Ne.symm hap]

variable {i j n : ℕ}

theorem History.mem (h : History p q l i j n l') (hp : p ∈ l) (hq : q ∈ l) :
    p ∈ l' ∧ q ∈ l' := by
  induction h with
  | start => exact ⟨hp, hq⟩
  | stay _ hp hq _ => exact ⟨hp.after, hq.after⟩
  | turn _ _ ih =>
    simp only [List.mem_cons, List.mem_append, List.not_mem_nil, or_false] at ih ⊢
    tauto

/-- The numbers of turns of `p` and `q` differ by a change of their order. -/
theorem History.balance (h : History p q l i j n l') (hp : p ∈ l) (hq : q ∈ l) (hne : p ≠ q) :
    i + (if p ∈ ahead q l' then 1 else 0) = j + if p ∈ ahead q l then 1 else 0 := by
  induction h with
  | start => rfl
  | stay _ hps hqs ih => simpa only [hps.order hqs hne] using ih
  | turn h hnd ih =>
    obtain ⟨hpm, hqm⟩ := h.mem hp hq
    have hstep := order_rotate hnd hpm hqm hne
    omega

/-- **Turns are fair**: of two elements that stay, neither has two turns more than the other. -/
theorem History.fair (h : History p q l i j n l') (hp : p ∈ l) (hq : q ∈ l) (hne : p ≠ q) :
    i ≤ j + 1 ∧ j ≤ i + 1 := by
  have hb := h.balance hp hq hne
  split_ifs at hb <;> omega

/-- **Nobody waits for long**: as long as `p` has had no turn, every turn was of an element that
was ahead of it and is so no longer, and nothing else has come ahead of it. -/
theorem History.waiting (h : History p q l i j n l') (hp : p ∈ l) (hq : q ∈ l) (hi : i = 0) :
    n + (ahead p l').length ≤ (ahead p l).length ∧ (ahead p l').Sublist (ahead p l) := by
  induction h with
  | start => exact ⟨le_of_eq (Nat.zero_add _), .refl _⟩
  | stay _ hps _ ih =>
    obtain ⟨hbound, hsub⟩ := ih hi
    exact ⟨le_trans (Nat.add_le_add_left hps.sub.length_le _) hbound, hps.sub.trans hsub⟩
  | @turn i j n a m h hnd ih =>
    obtain ⟨hpm, -⟩ := h.mem hp hq
    have hap : a ≠ p := by
      rintro rfl
      simp [turnOf] at hi
    have hm : p ∈ m := (List.mem_cons.mp hpm).resolve_left (Ne.symm hap)
    obtain ⟨hbound, hsub⟩ := ih (by omega)
    rw [ahead_cons_of_ne hap] at hbound hsub
    rw [List.length_cons] at hbound
    rw [ahead_append hm]
    exact ⟨by omega, (List.sublist_cons_self a _).trans hsub⟩

end LisaMinix.Library
