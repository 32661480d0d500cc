import Mathlib.Tactic

/-!
# Streams of Frames

A stream is the concatenation of frames, each written by a code `c`.  When no frame's code is a
prefix of another's, the frames of a stream are determined by it, and so are the whole frames of
any beginning of it.

- `prefix_of_flatMap_prefix`: a beginning of a stream that is made of whole frames is the
  beginning of the list of frames.
- `frames_unique`: the frames of a stream.
-/

namespace LisaMinix.Library

variable {ρ β : Type*} {c : ρ → List β}

/-- A code of which no word is a beginning of another, the empty one excluded. -/
structure PrefixCode (c : ρ → List β) : Prop where
  ne_nil : ∀ r, c r ≠ []
  eq_of_prefix : ∀ r r', c r <+: c r' → r = r'

namespace PrefixCode

/-- Two streams with a common beginning start with the same frame. -/
theorem head_eq (hc : PrefixCode c) {r r' : ρ} {t t' : List β}
    (h : c r ++ t <+: c r' ++ t') : r = r' := by
  have hr : c r <+: c r' ++ t' := (List.prefix_append _ _).trans h
  rcases List.prefix_or_prefix_of_prefix hr (List.prefix_append _ _) with h' | h'
  · exact hc.eq_of_prefix r r' h'
  · exact (hc.eq_of_prefix r' r h').symm

/-- **Whole frames at the beginning of a stream are its first frames.** -/
theorem prefix_of_flatMap_prefix (hc : PrefixCode c) {rs rs' : List ρ}
    (h : rs.flatMap c <+: rs'.flatMap c) : rs <+: rs' := by
  induction rs generalizing rs' with
  | nil => exact List.nil_prefix
  | cons r rs ih =>
    rw [List.flatMap_cons] at h
    cases rs' with
    | nil =>
      rw [List.flatMap_nil] at h
      have hnil : c r ++ rs.flatMap c = [] := List.prefix_nil.mp h
      exact absurd (List.append_eq_nil_iff.mp hnil).1 (hc.ne_nil r)
    | cons r' rs' =>
      rw [List.flatMap_cons] at h
      obtain rfl := hc.head_eq h
      exact List.cons_prefix_cons.mpr ⟨rfl, ih ((List.prefix_append_right_inj _).mp h)⟩

/-- **The frames of a stream are unique**, and a stream has no beginning of a further frame. -/
theorem frames_unique (hc : PrefixCode c) {rs rs' : List ρ} {part : List β}
    (hpart : ∃ r t, t ≠ [] ∧ c r = part ++ t) (h : rs.flatMap c ++ part = rs'.flatMap c) :
    rs' = rs ∧ part = [] := by
  obtain ⟨rest, rfl⟩ := hc.prefix_of_flatMap_prefix (h ▸ List.prefix_append _ part)
  rw [List.flatMap_append] at h
  have hrest : part = rest.flatMap c := List.append_cancel_left h
  cases rest with
  | nil => exact ⟨List.append_nil rs, hrest⟩
  | cons r' rest =>
    -- the next frame would be a proper beginning of the frame that `part` belongs to
    obtain ⟨r, t, ht, hr⟩ := hpart
    rw [List.flatMap_cons] at hrest
    have hpre : c r' <+: c r := by
      rw [hr, hrest, List.append_assoc]
      exact List.prefix_append _ _
    obtain rfl := hc.eq_of_prefix r' r hpre
    rw [hrest, List.append_assoc] at hr
    have hlen := congrArg List.length hr
    simp only [List.length_append] at hlen
    exact absurd (List.length_eq_zero_iff.mp (by omega)) ht

end PrefixCode

end LisaMinix.Library
