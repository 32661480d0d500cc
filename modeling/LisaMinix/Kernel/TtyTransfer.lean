import LisaMinix.Kernel.TtyKeys

/-!
# Characters for a Reader

What `rd_chars` takes out of the input queue.

- `firstLine`: a list up to and including its first end of line, that is a line feed or a `MARKER`.
- `fillBuf_spec`: the inner loop takes the oldest characters, in cooked mode not beyond the first line.
- `Transfer.loop_spec`: the outer loop ends, and what it has taken is the beginning of the queue.
- `rdChars_of_noInput`, `rdChars_of_badAddr`, `rdChars_of_input`: `rd_chars` takes nothing and answers
  `SUSPEND` or `E_BAD_ADDR`, or it takes characters and copies them to the process.
-/

namespace LisaMinix.Kernel.Tty

open LisaMinix.Library (ringList ringList_cons ringList_drop ringList_take ringList_mod length_ringList)

/-! ## §1 Lines -/

/-- A line feed, or the mark of an end of file. -/
def IsEnd (c : UInt8) : Prop := c = newline ∨ c = marker

instance (c : UInt8) : Decidable (IsEnd c) := inferInstanceAs (Decidable (_ ∨ _))

/-- The characters up to the first end of line. -/
def firstLine : List UInt8 → List UInt8
  | [] => []
  | c :: l => if IsEnd c then [c] else c :: firstLine l

theorem firstLine_isPrefix (l : List UInt8) : firstLine l <+: l := by
  induction l with
  | nil => exact List.prefix_rfl
  | cons c l ih =>
    unfold firstLine
    split_ifs
    · exact ⟨l, rfl⟩
    · exact List.cons_prefix_cons.mpr ⟨rfl, ih⟩

theorem firstLine_append_of_none {l : List UInt8} (h : ∀ c ∈ l, ¬IsEnd c) (r : List UInt8) :
    firstLine (l ++ r) = l ++ firstLine r := by
  induction l with
  | nil => rfl
  | cons c l ih =>
    rw [List.cons_append, firstLine, if_neg (h c (List.mem_cons_self ..)),
      ih fun c hc => h c (List.mem_cons_of_mem _ hc), List.cons_append]

/-- A line that ends does not depend on what follows. -/
theorem firstLine_append_of_mem {l : List UInt8} (h : ∃ c ∈ l, IsEnd c) (r : List UInt8) :
    firstLine (l ++ r) = firstLine l := by
  induction l with
  | nil => simp at h
  | cons c l ih =>
    rw [List.cons_append, firstLine, firstLine]
    split_ifs with hc
    · rfl
    · obtain ⟨d, hd, hend⟩ := h
      rw [ih ⟨d, (List.mem_cons.mp hd).resolve_left fun he => hc (he ▸ hend), hend⟩]

theorem firstLine_ne_nil {l : List UInt8} (h : l ≠ []) : firstLine l ≠ [] := by
  cases l with
  | nil => exact absurd rfl h
  | cons c l =>
    unfold firstLine
    split_ifs
    all_goals exact List.cons_ne_nil _ _

/-- Of a line, all is transmitted but the `MARKER` at its end. -/
theorem deliverable_firstLine (l : List UInt8) :
    deliverable true (firstLine l) =
      if marker ∈ firstLine l then (firstLine l).dropLast else firstLine l := by
  induction l with
  | nil => rfl
  | cons c l ih =>
    simp only [deliverable, if_true] at ih ⊢
    by_cases hc : IsEnd c
    · rw [firstLine, if_pos hc]
      by_cases hm : c = marker
      · simp [hm]
      · simp [hm, Ne.symm hm]
    · have hm : c ≠ marker := fun h => hc (.inr h)
      rw [firstLine, if_neg hc, List.filter_cons_of_pos (by simpa using hm), ih]
      simp only [List.mem_cons, Ne.symm hm, false_or]
      split_ifs with hmem
      · rw [List.dropLast_cons_of_ne_nil (List.ne_nil_of_mem hmem)]
      · rfl

theorem deliverable_append (cooked : Bool) (l r : List UInt8) :
    deliverable cooked (l ++ r) = deliverable cooked l ++ deliverable cooked r := by
  cases cooked with
  | false => rfl
  | true => exact List.filter_append ..

/-- The characters for which `rd_chars` decrements `tty_lfct`. -/
def uncounted (cooked : Bool) (chars : List UInt8) : ℕ :=
  chars.countP fun c => c = newline ∨ (c = marker ∧ cooked)

theorem uncounted_cons (cooked : Bool) (c : UInt8) (l : List UInt8) :
    uncounted cooked (c :: l) =
      uncounted cooked l + if c = newline ∨ (c = marker ∧ cooked = true) then 1 else 0 := by
  simp only [uncounted, List.countP_cons, decide_eq_true_eq]

theorem uncounted_append (cooked : Bool) (l r : List UInt8) :
    uncounted cooked (l ++ r) = uncounted cooked l + uncounted cooked r := List.countP_append ..

/-! ## §2 A counter of 16 bits -/

/-- A value that an `int` can have. -/
def InRange (n : ℤ) : Prop := -32768 ≤ n ∧ n < 32768

theorem wrap16_inRange (n : ℤ) : InRange (wrap16 n) := by
  unfold InRange wrap16
  constructor <;> omega

theorem wrap16_modEq (n : ℤ) : wrap16 n ≡ n [ZMOD 65536] := by
  unfold wrap16 Int.ModEq
  omega

/-- A counter that has been decremented `k` times. -/
structure Dropped (n : ℤ) (k : ℕ) (m : ℤ) : Prop where
  inRange : InRange n → InRange m
  modEq : m ≡ n - k [ZMOD 65536]

namespace Dropped

theorem zero (n : ℤ) : Dropped n 0 n := ⟨id, by simp⟩

theorem one (n : ℤ) : Dropped n 1 (wrap16 (n - 1)) :=
  ⟨fun _ => wrap16_inRange _, by simpa using wrap16_modEq (n - 1)⟩

theorem trans {n m o : ℤ} {k j : ℕ} (h : Dropped n k m) (h' : Dropped m j o) :
    Dropped n (k + j) o := by
  refine ⟨fun hn => h'.inRange (h.inRange hn), ?_⟩
  calc o ≡ m - j [ZMOD 65536] := h'.modEq
    _ ≡ n - k - j [ZMOD 65536] := h.modEq.sub_right _
    _ = n - (k + j : ℕ) := by push_cast; ring

end Dropped

/-! ## §3 The inner loop -/

/-- What the inner loop makes of a terminal with the characters `l` at its tail. -/
structure Filled (cooked : Bool) (tp : Line) (l : List UInt8)
    (r : Line × List UInt8 × Bool × Bool) : Prop where
  chars : r.2.1 = if cooked then firstLine l else l
  lfct : Dropped tp.lfct (uncounted cooked r.2.1) r.1.lfct
  tp_eq : r.1 = { tp with intail := (tp.intail + r.2.1.length) % ttyInBytes, lfct := r.1.lfct }
  eot : r.2.2.1 = true ↔ cooked = true ∧ marker ∈ r.2.1
  enough : r.2.2.2 = true ↔ ∃ c ∈ r.2.1, c = newline ∨ (c = marker ∧ cooked = true)

theorem fillBuf_spec (cooked : Bool) (n : ℕ) (tp : Line) (htail : tp.intail < ttyInBytes) :
    Filled cooked tp (ringList ttyInBytes tp.inqueue tp.intail n) (fillBuf cooked n tp) := by
  induction n generalizing tp with
  | zero =>
    refine ⟨by cases cooked <;> rfl, Dropped.zero _, ?_, by simp [fillBuf], by simp [fillBuf]⟩
    simp [fillBuf, Nat.mod_eq_of_lt htail]
  | succ n ih =>
    have hnext : next tp.intail < ttyInBytes := by
      rw [next_eq htail]
      exact Nat.mod_lt _ (by decide)
    have hlist : ringList ttyInBytes tp.inqueue tp.intail (n + 1) =
        tp.inqueue tp.intail :: ringList ttyInBytes tp.inqueue (next tp.intail) n := by
      rw [ringList_cons, Nat.mod_eq_of_lt htail, next_eq htail, ringList_mod]
    have hmove (k : ℕ) : (next tp.intail + k) % ttyInBytes =
        (tp.intail + (k + 1)) % ttyInBytes := by
      rw [next_eq htail, Nat.mod_add_mod]
      congr 1
      omega
    rw [hlist]
    set c := tp.inqueue tp.intail with hc
    unfold fillBuf
    simp only [← hc]
    by_cases hend : c = newline ∨ (c = marker ∧ cooked = true)
    · rw [if_pos hend]
      cases cooked with
      | true =>
        have hisEnd : IsEnd c := hend.imp_right And.left
        refine ⟨?_, ?_, ?_, ?_, ?_⟩
        · simp [firstLine, hisEnd]
        · have hone : uncounted true [c] = 1 := by
            rw [uncounted_cons, if_pos hend]
            rfl
          simpa only [if_true, hone] using Dropped.one tp.lfct
        · simp [next_eq htail]
        · simp [eq_comm]
        · simpa using hend
      | false =>
        have hline : c = newline := by simpa using hend
        have h := ih { tp with intail := next tp.intail, lfct := wrap16 (tp.lfct - 1) } hnext
        simp only [Bool.false_eq_true, if_false]
        refine ⟨?_, ?_, ?_, ?_, ?_⟩
        · have := h.chars
          simpa using this
        · rw [uncounted_cons, if_pos hend, Nat.add_comm]
          exact (Dropped.one tp.lfct).trans h.lfct
        · refine h.tp_eq.trans ?_
          simp only [List.length_cons, ← hmove]
        · have := h.eot
          simp only [Bool.false_eq_true, false_and, iff_false] at this ⊢
          have hm : c ≠ marker := by rw [hline]; decide
          simp [this, hm]
        · simp [hline]
    · rw [if_neg hend]
      have h := ih { tp with intail := next tp.intail } hnext
      refine ⟨?_, ?_, ?_, ?_, ?_⟩
      · have := h.chars
        cases cooked with
        | true =>
          have hisEnd : ¬IsEnd c := by simpa [IsEnd] using hend
          simpa [firstLine, hisEnd] using this
        | false => simpa using this
      · rw [uncounted_cons, if_neg hend]
        exact h.lfct
      · refine h.tp_eq.trans ?_
        simp only [List.length_cons, ← hmove]
      · rw [h.eot]
        push Not at hend
        constructor
        · exact fun hm => ⟨hm.1, List.mem_cons_of_mem _ hm.2⟩
        · intro hm
          exact ⟨hm.1, (List.mem_cons.mp hm.2).resolve_left fun he => hend.2 he.symm hm.1⟩
      · rw [h.enough, List.exists_mem_cons_iff, or_iff_right hend]

/-! ## §4 The outer loop -/

/-- What the outer loop has done to the terminal `tp` so far. -/
structure Transfer.After (cooked : Bool) (tp : Line) (copies : List (ℤ × List UInt8))
    (x : Transfer) : Prop where
  isPrefix : x.chars <+: tp.contents
  length_le : x.chars.length ≤ tp.inleft.toNat
  tp_eq : x.tp = { tp with
    intail := (tp.intail + x.chars.length) % ttyInBytes
    incount := tp.incount - x.chars.length
    inleft := tp.inleft - x.chars.length
    lfct := x.tp.lfct }
  lfct : Dropped tp.lfct (uncounted cooked x.chars) x.tp.lfct
  given : x.given = deliverable cooked x.chars
  copied : Tty.copied x.copies = Tty.copied copies ++ x.given
  unfinished : cooked = true → x.enough = false → ∀ c ∈ x.chars, ¬IsEnd c
  finished : cooked = true → x.enough = true → x.chars = firstLine tp.contents

namespace Transfer.After

variable {cooked : Bool} {tp : Line} {copies : List (ℤ × List UInt8)} {x : Transfer}

theorem init (cooked : Bool) (copies : List (ℤ × List UInt8)) (htail : tp.intail < ttyInBytes)
    (phys : ℤ) :
    Transfer.After cooked tp copies ⟨tp, phys, [], [], copies, false⟩ where
  isPrefix := List.nil_prefix
  length_le := Nat.zero_le _
  tp_eq := by simp [Nat.mod_eq_of_lt htail]
  lfct := Dropped.zero _
  given := by cases cooked <;> rfl
  copied := (List.append_nil _).symm
  unfinished := by simp
  finished := by simp

theorem contents_eq (h : x.After cooked tp copies) :
    tp.contents = x.chars ++ x.tp.contents := by
  obtain ⟨r, hr⟩ := h.isPrefix
  have hdrop : x.tp.contents = tp.contents.drop x.chars.length := by
    rw [h.tp_eq, Line.contents, Line.contents, ringList_mod, ringList_drop]
  rw [hdrop, ← hr, List.drop_left]

/-- One round takes at least one character, as long as there is one. -/
theorem round (h : x.After cooked tp copies) (henough : x.enough = false) (hleft : 0 < x.tp.inleft)
    (hcount : 0 < x.tp.incount) :
    (x.round cooked).After cooked tp copies ∧ (x.round cooked).tp.incount < x.tp.incount := by
  set n := min (min x.tp.inleft.toNat x.tp.incount) ttyBufSize with hn
  have htail : x.tp.intail < ttyInBytes := by
    rw [h.tp_eq]
    exact Nat.mod_lt _ (by decide)
  have hlist : ringList ttyInBytes x.tp.inqueue x.tp.intail n = x.tp.contents.take n := by
    rw [Line.contents, ringList_take, min_eq_left (by omega)]
  have hfill := fillBuf_spec cooked n x.tp htail
  rw [hlist] at hfill
  set r := fillBuf cooked n x.tp with hr
  have hround : x.round cooked = {
      tp := { r.1 with
        inleft := r.1.inleft - r.2.1.length
        incount := r.1.incount - r.2.1.length }
      userPhys := x.userPhys + (if r.2.2.1 then r.2.1.dropLast else r.2.1).length
      chars := x.chars ++ r.2.1
      given := x.given ++ if r.2.2.1 then r.2.1.dropLast else r.2.1
      copies := (x.userPhys, if r.2.2.1 then r.2.1.dropLast else r.2.1) :: x.copies
      enough := r.2.2.2 } := rfl
  have hpre : r.2.1 <+: x.tp.contents.take n := by
    rw [hfill.chars]
    split_ifs
    · exact firstLine_isPrefix _
    · exact List.prefix_rfl
  have hlen : r.2.1.length ≤ n := hpre.length_le.trans (List.length_take_le ..)
  have hpos : 0 < r.2.1.length := by
    have htake : x.tp.contents.take n ≠ [] := by
      rw [← List.length_pos_iff_ne_nil, List.length_take, Line.length_contents]
      have : 0 < ttyBufSize := by decide
      omega
    rw [List.length_pos_iff_ne_nil, hfill.chars]
    split_ifs
    · exact firstLine_ne_nil htake
    · exact htake
  have hdeliver : (if r.2.2.1 then r.2.1.dropLast else r.2.1) = deliverable cooked r.2.1 := by
    have heot := hfill.eot
    cases cooked with
    | false =>
      rw [if_neg (by simpa using heot)]
      rfl
    | true =>
      have hchars : r.2.1 = firstLine (x.tp.contents.take n) := hfill.chars
      rw [hchars, deliverable_firstLine, ← hchars]
      simp only [heot, true_and]
  have hk : x.chars.length ≤ tp.incount := by
    simpa using h.isPrefix.length_le
  rw [hround]
  constructor
  · refine ⟨?_, ?_, ?_, ?_, ?_, ?_, ?_, ?_⟩
    · change x.chars ++ r.2.1 <+: tp.contents
      rw [h.contents_eq]
      exact (List.prefix_append_right_inj _).mpr (hpre.trans (List.take_prefix ..))
    · have hleft' : x.tp.inleft = tp.inleft - x.chars.length := by rw [h.tp_eq]
      simp only [List.length_append]
      omega
    · have hrtp := hfill.tp_eq
      rw [hrtp, h.tp_eq]
      simp only [List.length_append, Nat.mod_add_mod, Line.mk.injEq, and_true, true_and]
      refine ⟨?_, ?_, ?_⟩
      · rw [Nat.add_assoc]
      · omega
      · push_cast
        ring
    · change Dropped tp.lfct (uncounted cooked (x.chars ++ r.2.1)) r.1.lfct
      rw [uncounted_append]
      exact h.lfct.trans hfill.lfct
    · change x.given ++ _ = deliverable cooked (x.chars ++ r.2.1)
      rw [deliverable_append, h.given, hdeliver]
    · change Tty.copied x.copies ++ _ = _
      rw [h.copied, List.append_assoc]
    · intro hcooked hnot c hc
      rcases List.mem_append.mp hc with hc | hc
      · exact h.unfinished hcooked henough c hc
      · intro hend
        have : r.2.2.2 = true := hfill.enough.mpr ⟨c, hc, hend.imp_right fun hm => ⟨hm, hcooked⟩⟩
        exact absurd (this.symm.trans hnot) (by simp)
    · intro hcooked hfin
      obtain ⟨c, hc, hend⟩ := hfill.enough.mp hfin
      have hchars : r.2.1 = firstLine (x.tp.contents.take n) := by
        rw [hfill.chars, if_pos hcooked]
      have hmem : ∃ c ∈ x.tp.contents.take n, IsEnd c :=
        ⟨c, hpre.subset hc, hend.imp_right And.left⟩
      change x.chars ++ r.2.1 = firstLine tp.contents
      rw [h.contents_eq, firstLine_append_of_none (h.unfinished hcooked henough), hchars]
      conv_rhs => rw [← List.take_append_drop n x.tp.contents]
      rw [firstLine_append_of_mem hmem]
  · have : r.1.incount = x.tp.incount := by rw [hfill.tp_eq]
    simp only [this]
    omega

end Transfer.After

/-- The outer loop ends because the request is satisfied, because the queue is empty, or because a
line is complete. -/
theorem Transfer.loop_spec {cooked : Bool} {tp : Line} {copies : List (ℤ × List UInt8)} (fuel : ℕ)
    {x : Transfer} (h : x.After cooked tp copies) (henough : x.enough = false)
    (hcount : 0 < x.tp.incount) (hfuel : x.tp.incount ≤ fuel) :
    (x.loop cooked fuel).After cooked tp copies ∧
      ((x.loop cooked fuel).tp.inleft ≤ 0 ∨ (x.loop cooked fuel).tp.incount = 0 ∨
        (x.loop cooked fuel).enough = true) := by
  induction fuel generalizing x with
  | zero => omega
  | succ fuel ih =>
    unfold Transfer.loop
    by_cases hleft : x.tp.inleft ≤ 0
    · rw [if_pos hleft]
      exact ⟨h, .inl hleft⟩
    rw [if_neg hleft]
    obtain ⟨hround, hlt⟩ := h.round henough (by omega) hcount
    extract_lets x'
    by_cases hstop : x'.tp.incount = 0 ∨ x'.enough
    · rw [if_pos hstop]
      exact ⟨hround, .inr hstop⟩
    · rw [if_neg hstop]
      push Not at hstop
      have hlt' : x'.tp.incount < x.tp.incount := hlt
      exact ih hround (by simpa using hstop.2) (by omega) (by omega)

/-! ## §5 `rd_chars` -/

/-- The state after `chars` have been taken out of the queue. -/
def takeChars (s : State) (chars : List UInt8) (lfct : ℤ) (copies : List (ℤ × List UInt8)) : State :=
  State.note
    { s with
      tp := { s.tp with
        intail := (s.tp.intail + chars.length) % ttyInBytes
        incount := s.tp.incount - chars.length
        inleft := 0
        lfct := lfct }
      copies := copies }
    (.taken s.tp.cooked chars (deliverable s.tp.cooked chars))

/-- What `rd_chars` takes, and what it counts and copies. -/
structure Took (s : State) (chars : List UInt8) (lfct : ℤ) (copies : List (ℤ × List UInt8)) :
    Prop where
  isPrefix : chars <+: s.tp.contents
  length_le : chars.length ≤ s.tp.inleft.toNat
  line : s.tp.cooked = true → chars = (firstLine s.tp.contents).take s.tp.inleft.toNat
  lfct : Dropped s.tp.lfct (uncounted s.tp.cooked chars) lfct
  copied : copied copies = Tty.copied s.copies ++ deliverable s.tp.cooked chars

/-- The first test of `rd_chars`: there is nothing to be had. -/
def Line.NoInput (tp : Line) : Prop := tp.incount = 0 ∨ (tp.cooked = true ∧ tp.lfct = 0)

instance (tp : Line) : Decidable tp.NoInput := inferInstanceAs (Decidable (_ ∨ _))

/-- The address of the reader, in the physical memory. -/
def Line.userPhys (env : Env) (tp : Line) : ℤ := umap (env.map tp.inproc) 1 tp.inVir tp.inleft

theorem rdChars_of_noInput {env : Env} {s : State} (h : s.tp.NoInput) :
    rdChars env s = (suspend, s) := by
  exact if_pos h

theorem rdChars_of_badAddr {env : Env} {s : State} (h : ¬s.tp.NoInput)
    (hphys : s.tp.userPhys env = 0) : rdChars env s = (eBadAddr, s) := by
  unfold rdChars
  exact (if_neg h).trans (if_pos hphys)

/-- With input and a good address `rd_chars` takes the beginning of the queue. -/
theorem rdChars_of_input {env : Env} {s : State} (htail : s.tp.intail < ttyInBytes)
    (h : ¬s.tp.NoInput) (hphys : s.tp.userPhys env ≠ 0) :
    ∃ chars lfct copies, Took s chars lfct copies ∧
      rdChars env s =
        (((deliverable s.tp.cooked chars).length : ℤ), takeChars s chars lfct copies) := by
  have hcount : 0 < s.tp.incount := Nat.pos_of_ne_zero fun h0 => h (.inl h0)
  obtain ⟨hloop, hstop⟩ := Transfer.loop_spec s.tp.incount
    (Transfer.After.init s.tp.cooked s.copies htail (s.tp.userPhys env)) rfl
    hcount le_rfl
  set x := Transfer.loop s.tp.cooked s.tp.incount
    ⟨s.tp, s.tp.userPhys env, [], [], s.copies, false⟩ with hx
  have hrd : rdChars env s = ((x.given.length : ℤ),
      { s with tp := { x.tp with inleft := 0 }, copies := x.copies }.note
        (.taken s.tp.cooked x.chars x.given)) := by
    unfold rdChars
    exact (if_neg h).trans (if_neg hphys)
  refine ⟨x.chars, x.tp.lfct, x.copies, ?_, ?_⟩
  · refine ⟨hloop.isPrefix, hloop.length_le, ?_, hloop.lfct, ?_⟩
    · intro hcooked
      have hcontents := hloop.contents_eq
      cases henough : x.enough with
      | true =>
        have hline := hloop.finished hcooked henough
        rw [← hline, List.take_of_length_le hloop.length_le]
      | false =>
        -- no line has been completed, so the request or the queue has come to its end
        have hnone := hloop.unfinished hcooked henough
        rw [hcontents, firstLine_append_of_none hnone]
        rcases hstop with hleft | hempty | hen
        · have hinleft : x.tp.inleft = s.tp.inleft - x.chars.length := by rw [hloop.tp_eq]
          have hall : x.chars.length = s.tp.inleft.toNat := by
            have := hloop.length_le
            omega
          rw [← hall, List.take_left]
        · have hnil : x.tp.contents = [] :=
            List.length_eq_zero_iff.mp (by rw [Line.length_contents, hempty])
          rw [hnil, firstLine, List.append_nil, List.take_of_length_le hloop.length_le]
        · rw [henough] at hen
          cases hen
    · rw [hloop.copied, hloop.given]
  · rw [hrd, hloop.given, takeChars, hloop.tp_eq]

end LisaMinix.Kernel.Tty
