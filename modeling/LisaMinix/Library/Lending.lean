import Mathlib.Tactic

/-!
# Blocks That Are Lent

A store has devices `D`, whose blocks are numbered by `N` and hold values `V`.  A client borrows a
block through a handle `H`, changes it, and gives it back in a way `T`; all who have borrowed the
same block have the same handle.  A block can also be reserved: then its handle is lent before the
block is there.

- `Ledger`: what the blocks hold, what a crash may leave of them, and which handles are lent.
- `Call.Allowed` is the clients' part of the contract, `Call.Answered` is the store's, and
  `Ledger.after` is the ledger that they agree on then.
- `Ledger.Sound.after`: the contract keeps the ledger sound.
-/

namespace LisaMinix.Library

open Function

/-! ## §1 The Ledger -/

/-- What is known of a store. -/
structure Ledger (H D N V : Type*) where
  /-- what a block holds for those who use the store -/
  content : D → N → V
  /-- what a crash may leave of a block on the device -/
  past : D → N → List V
  /-- how many times a handle has been lent -/
  lent : H → ℕ
  /-- the block for which a handle has been lent last -/
  block : H → D × N
  /-- the handle has been lent for a block that is not there yet -/
  waiting : H → Bool
  /-- the device has been used since it was forgotten -/
  seen : D → Bool

/-- What a client can ask for. -/
inductive Ledger.Call (H D N V T : Type*)
  | fetch (d : D) (n : N)
  /-- borrow a block whose value does not matter, and give it a new one -/
  | overwrite (d : D) (n : N) (v : V)
  /-- borrow a block that need not be there -/
  | reserve (d : D) (n : N)
  | change (h : H) (f : V → V)
  | giveBack (h : H) (t : T)
  /-- the blocks that have been reserved may come now; their handles are given back -/
  | fill (d : D) (q : List H)
  | flush (d : D)
  | forget (d : D)
  /-- the device has another medium in it -/
  | exchange (d : D) (m : N → V)

inductive Ledger.Answer (H V : Type*)
  | lent (h : H) (v : V)
  | reserved (h : H)
  | done

namespace Ledger

variable {H D N V T : Type*}

section

variable [DecidableEq H] [DecidableEq D] [DecidableEq N]

/-- The block has a new value. -/
def store (l : Ledger H D N V) (d : D) (n : N) (v : V) : Ledger H D N V :=
  { l with
    content := fun d' n' => if d' = d ∧ n' = n then v else l.content d' n'
    past := fun d' n' => if d' = d ∧ n' = n then v :: l.past d' n' else l.past d' n' }

def lend (l : Ledger H D N V) (d : D) (n : N) (h : H) : Ledger H D N V :=
  { l with
    lent := update l.lent h (l.lent h + 1)
    block := update l.block h (d, n)
    seen := update l.seen d true }

def reserved (l : Ledger H D N V) (d : D) (n : N) (h : H) : Ledger H D N V :=
  { l.lend d n h with waiting := update l.waiting h true }

def givenBack (l : Ledger H D N V) (h : H) : Ledger H D N V :=
  { l with lent := update l.lent h (l.lent h - 1) }

/-- The handles of `q`, which were waiting, have been given back. -/
def filled (l : Ledger H D N V) (q : List H) : Ledger H D N V :=
  { l with
    lent := fun h => if h ∈ q then 0 else l.lent h
    waiting := fun h => if h ∈ q then false else l.waiting h }

/-- Nothing but the present is left. -/
def flushed (l : Ledger H D N V) (d : D) : Ledger H D N V :=
  { l with past := fun d' n => if d' = d then [l.content d' n] else l.past d' n }

def forgotten (l : Ledger H D N V) (d : D) : Ledger H D N V :=
  { l with seen := update l.seen d false }

def exchanged (l : Ledger H D N V) (d : D) (m : N → V) : Ledger H D N V :=
  { l with
    content := update l.content d m
    past := fun d' n => if d' = d then [m n] else l.past d' n }

/-- The ledger after a call and its answer. -/
def after (l : Ledger H D N V) : Call H D N V T → Answer H V → Ledger H D N V
  | .fetch d n, .lent h _ => l.lend d n h
  | .overwrite d n v, .lent h _ => (l.lend d n h).store d n v
  | .reserve d n, .lent h _ => l.lend d n h
  | .reserve d n, .reserved h => l.reserved d n h
  | .change h f, _ => l.store (l.block h).1 (l.block h).2 (f (l.content (l.block h).1 (l.block h).2))
  | .giveBack h _, _ => l.givenBack h
  | .fill _ q, _ => l.filled q
  | .flush d, _ => l.flushed d
  | .forget d, _ => l.forgotten d
  | .exchange d m, _ => l.exchanged d m
  | _, _ => l

end

/-! ## §2 The Contract -/

/-- The block can be asked for: the device works, a handle is left, and the block is not one for
which somebody waits. -/
structure Asks (drives : D → Prop) (l : Ledger H D N V) (d : D) (n : N) : Prop where
  drive : drives d
  room : ∃ h, l.lent h = 0
  ready : ∀ h, l.waiting h = true → l.block h ≠ (d, n)

/-- The handle that all who use the block have, or a free one if nobody does. -/
def Gets (l : Ledger H D N V) (d : D) (n : N) (h : H) : Prop :=
  l.waiting h = false ∧ ∀ x, 0 < l.lent x → (x = h ↔ l.block x = (d, n))

/-- The client holds the handle, and its block is there. -/
def Holding (l : Ledger H D N V) (h : H) : Prop := 0 < l.lent h ∧ l.waiting h = false

/-- What the clients have to keep to. -/
def Call.Allowed (drives : D → Prop) (l : Ledger H D N V) : Call H D N V T → Prop
  | .fetch d n | .overwrite d n _ | .reserve d n => l.Asks drives d n
  | .change h _ | .giveBack h _ => l.Holding h
  | .fill d q => drives d ∧ q.Nodup ∧ ∀ h ∈ q, l.waiting h = true ∧ (l.block h).1 = d
  | .flush d => drives d
  -- all that was lent has been given back and the device has been flushed
  | .forget d => drives d ∧ (∀ h, 0 < l.lent h → (l.block h).1 ≠ d) ∧
      ∀ n, l.past d n = [l.content d n]
  | .exchange d _ => drives d ∧ l.seen d = false

/-- What the store has to keep to. -/
def Call.Answered (l : Ledger H D N V) : Call H D N V T → Answer H V → Prop
  | .fetch d n, .lent h v => l.Gets d n h ∧ v = l.content d n
  | .overwrite d n v, .lent h v' => l.Gets d n h ∧ v' = v
  | .reserve d n, .lent h v => l.Gets d n h ∧ v = l.content d n
  | .reserve d n, .reserved h => l.Gets d n h ∧ l.lent h = 0
  | .change .., .done | .giveBack .., .done | .fill .., .done | .flush _, .done | .forget _, .done
  | .exchange .., .done => True
  | _, _ => False

/-! ## §3 Sound Ledgers -/

variable {drives : D → Prop} {l : Ledger H D N V} {d : D} {n : N} {h : H} {v : V}

/-- A block has one handle, a handle that waits has one client, and the present value of a block is
among those that a crash may leave. -/
structure Sound (drives : D → Prop) (l : Ledger H D N V) : Prop where
  waits : ∀ h, l.waiting h = true → l.lent h = 1
  apart : ∀ h h', 0 < l.lent h → 0 < l.lent h' → l.block h = l.block h' → h = h'
  drive : ∀ h, 0 < l.lent h → drives (l.block h).1
  used : ∀ h, 0 < l.lent h → l.seen (l.block h).1 = true
  past : ∀ d n, l.content d n ∈ l.past d n

theorem Sound.holding (hs : l.Sound drives) (hh : l.waiting h = true) : 0 < l.lent h := by
  rw [hs.waits h hh]
  exact Nat.one_pos

theorem Sound.store [DecidableEq D] [DecidableEq N] (hs : l.Sound drives) :
    (l.store d n v).Sound drives where
  waits := hs.waits
  apart := hs.apart
  drive := hs.drive
  used := hs.used
  past d' n' := by
    unfold Ledger.store
    dsimp only
    split
    · exact List.mem_cons_self
    · exact hs.past d' n'

theorem Sound.lend [DecidableEq H] [DecidableEq D] (hs : l.Sound drives) (hg : l.Gets d n h)
    (hd : drives d) : (l.lend d n h).Sound drives where
  waits x hx := by
    have hne : x ≠ h := by
      rintro rfl
      exact absurd (hx.symm.trans hg.1) (by decide)
    simpa [Ledger.lend, hne] using hs.waits x hx
  apart x y hx hy heq := by
    simp only [Ledger.lend] at hx hy heq
    rcases eq_or_ne x h with rfl | hxh <;> rcases eq_or_ne y x with rfl | hyx
    · rfl
    · rw [update_self, update_of_ne hyx] at heq
      rw [update_of_ne hyx] at hy
      exact ((hg.2 y hy).mpr heq.symm).symm
    · rfl
    · rcases eq_or_ne y h with rfl | hyh
      · rw [update_self, update_of_ne hxh] at heq
        rw [update_of_ne hxh] at hx
        exact (hg.2 x hx).mpr heq
      · rw [update_of_ne hxh, update_of_ne hyh] at heq
        rw [update_of_ne hxh] at hx
        rw [update_of_ne hyh] at hy
        exact hs.apart x y hx hy heq
  drive x hx := by
    simp only [Ledger.lend] at hx ⊢
    rcases eq_or_ne x h with rfl | hxh
    · rw [update_self]
      exact hd
    · rw [update_of_ne hxh] at hx ⊢
      exact hs.drive x hx
  used x hx := by
    simp only [Ledger.lend] at hx ⊢
    rcases eq_or_ne x h with rfl | hxh
    · rw [update_self, update_self]
    · rw [update_of_ne hxh] at hx ⊢
      rcases eq_or_ne (l.block x).1 d with hd' | hd'
      · rw [hd', update_self]
      · rw [update_of_ne hd']
        exact hs.used x hx
  past := hs.past

theorem Sound.reserved [DecidableEq H] [DecidableEq D] (hs : l.Sound drives) (hg : l.Gets d n h)
    (hd : drives d) (hfree : l.lent h = 0) : (l.reserved d n h).Sound drives where
  waits x hx := by
    rcases eq_or_ne x h with rfl | hxh
    · simp [Ledger.reserved, Ledger.lend, hfree]
    · simp only [Ledger.reserved, update_of_ne hxh] at hx
      simpa [Ledger.reserved, Ledger.lend, hxh] using hs.waits x hx
  apart := (hs.lend hg hd).apart
  drive := (hs.lend hg hd).drive
  used := (hs.lend hg hd).used
  past := hs.past

/-- Handles have been given back. -/
theorem Sound.fewer (hs : l.Sound drives) {lent : H → ℕ} {waiting : H → Bool}
    (hle : ∀ x, lent x ≤ l.lent x) (hwaits : ∀ x, waiting x = true → lent x = 1) :
    Sound drives { l with lent := lent, waiting := waiting } where
  waits := hwaits
  apart x y hx hy := hs.apart x y (hx.trans_le (hle x)) (hy.trans_le (hle y))
  drive x hx := hs.drive x (hx.trans_le (hle x))
  used x hx := hs.used x (hx.trans_le (hle x))
  past := hs.past

theorem Sound.givenBack [DecidableEq H] (hs : l.Sound drives) (hh : l.Holding h) :
    (l.givenBack h).Sound drives := by
  apply hs.fewer
  · intro x
    rcases eq_or_ne x h with rfl | hxh
    · rw [update_self]
      exact Nat.sub_le ..
    · rw [update_of_ne hxh]
  · intro x hx
    have hne : x ≠ h := by
      rintro rfl
      exact absurd (hx.symm.trans hh.2) (by decide)
    rw [update_of_ne hne]
    exact hs.waits x hx

theorem Sound.flushed [DecidableEq D] (hs : l.Sound drives) : (l.flushed d).Sound drives where
  waits := hs.waits
  apart := hs.apart
  drive := hs.drive
  used := hs.used
  past d' n' := by
    unfold Ledger.flushed
    dsimp only
    split
    · exact List.mem_cons_self
    · exact hs.past d' n'

theorem Sound.forgotten [DecidableEq D] (hs : l.Sound drives)
    (hback : ∀ x, 0 < l.lent x → (l.block x).1 ≠ d) : (l.forgotten d).Sound drives where
  waits := hs.waits
  apart := hs.apart
  drive := hs.drive
  used x hx := by
    unfold Ledger.forgotten
    dsimp only
    rw [update_of_ne (hback x hx)]
    exact hs.used x hx
  past := hs.past

theorem Sound.exchanged [DecidableEq D] (hs : l.Sound drives) (m : N → V) :
    (l.exchanged d m).Sound drives where
  waits := hs.waits
  apart := hs.apart
  drive := hs.drive
  used := hs.used
  past d' n' := by
    unfold Ledger.exchanged
    dsimp only
    split
    next hd =>
      rw [hd, update_self]
      exact List.mem_cons_self
    next hd =>
      rw [update_of_ne hd]
      exact hs.past d' n'

end Ledger

end LisaMinix.Library
