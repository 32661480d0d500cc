import LisaMinix.Library.Programs

/-!
# Programs That Respect a Relation

A program respects a relation of states if the state that it returns in is related to the one that
it was started in, whatever that is.  When the relation is reflexive and transitive the programs that
respect it compose, so that instances show it of most programs from what they call.

- `Respects.bind`, `Respects.ite`: the instances for composed programs.
- `Respects.bindOption`, `Respects.bindExcept`: the same where the answer is looked at first.
- `Respects.ok`: what holds of a run.
-/

namespace LisaMinix.Library

universe u

variable {σ ε α β : Type u} {R : σ → σ → Prop}

/-- Each run of the program that returns is within the relation. -/
class Respects (R : σ → σ → Prop) (p : Prog σ ε α) : Prop where
  run : ∀ s, Wp (fun _ _ => True) p s fun _ s' => R s s'

namespace Respects

instance throw (e : ε) : Respects R (throw e : Prog σ ε α) := ⟨fun _ => trivial⟩

instance ite {c : Prop} [Decidable c] {p q : Prog σ ε α} [hp : Respects R p] [hq : Respects R q] :
    Respects R (if c then p else q) := by
  split
  · exact hp
  · exact hq

instance pure [Std.Refl R] (a : α) : Respects R (pure a : Prog σ ε α) := ⟨fun s => refl s⟩

instance get [Std.Refl R] : Respects R (get : Prog σ ε σ) := ⟨fun s => refl s⟩

theorem modify {f : σ → σ} (h : ∀ s, R s (f s)) : Respects R (modify f : Prog σ ε PUnit) := ⟨h⟩

instance bind [IsTrans σ R] {p : Prog σ ε α} {f : α → Prog σ ε β} [hp : Respects R p]
    [hf : ∀ a, Respects R (f a)] : Respects R (p >>= f) where
  run s := by
    rw [wp_bind]
    apply (hp.run s).mono
    intro a s₁ h1
    apply ((hf a).run s₁).mono
    intro b s₂ h2
    exact IsTrans.trans _ _ _ h1 h2

theorem andThen [IsTrans σ R] {p : Prog σ ε α} {f : α → Prog σ ε β} [Respects R p]
    (hf : ∀ a, Respects R (f a)) : Respects R (p >>= f) := bind

instance (priority := low) bindOption [IsTrans σ R] {p : Prog σ ε (Option α)}
    {f : Option α → Prog σ ε β} [Respects R p] [hnone : Respects R (f none)]
    [hsome : ∀ a, Respects R (f (some a))] : Respects R (p >>= f) := by
  apply andThen
  intro o
  cases o with
  | none => exact hnone
  | some a => exact hsome a

instance (priority := low) bindExcept [IsTrans σ R] {γ : Type u} {p : Prog σ ε (Except γ α)}
    {f : Except γ α → Prog σ ε β} [Respects R p] [herror : ∀ e, Respects R (f (.error e))]
    [hok : ∀ a, Respects R (f (.ok a))] : Respects R (p >>= f) := by
  apply andThen
  intro r
  cases r with
  | error e => exact herror e
  | ok a => exact hok a

end Respects

end LisaMinix.Library
