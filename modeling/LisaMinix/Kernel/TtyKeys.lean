import LisaMinix.Kernel.TtyQueue
import Mathlib.Data.List.DropRight

/-!
# What a Key Does to the Queue

The events of the input queue that one character brings about, as they follow from the terminal
alone.

- `Line.unfinished`: the characters that can be rubbed out.
- `Line.keyEvents`: what is stored, erased, dropped or discarded for a character.
- `inChar_log`: `in_char` does this to the queue, and nothing else.
-/

namespace LisaMinix.Kernel.Tty

open LisaMinix.Library (IsRing)

/-! ## §1 The Events of a Key -/

/-- The characters of the last line, as far as it has been typed: `chuck` stops at its beginning. -/
def Line.unfinished (tp : Line) : List UInt8 :=
  tp.contents.rtakeWhile fun c => c ≠ newline ∧ c ≠ carriageReturn

/-- A character is stored. -/
def Line.storedEvent (tp : Line) (c : UInt8) (counted : Bool) : QueueEvent :=
  if tp.incount < ttyInBytes then .stored c counted
  else .overran (tp.inqueue tp.inhead) c counted

/-- A character outside RAW mode is stored if it is not one of the special ones, and if output is not
stopped.  What has been counted before is noted when it is dropped. -/
def Line.specialEvents (tp : Line) (ch : UInt8) (counted : Bool) : List QueueEvent :=
  let dropped := if counted then [QueueEvent.dropped] else []
  if tp.mapCr ch = tp.intr ∨ tp.mapCr ch = tp.quit then .discarded :: dropped
  else if tp.mapCr ch = tp.xoff ∨ tp.inhibited = true then dropped
  else [tp.storedEvent (tp.mapCr ch) (counted || tp.mapCr ch = newline)]

def Line.cookedEvents (tp : Line) (ch : UInt8) : List QueueEvent :=
  if tp.escaped = false then
    if ch = tp.erase then tp.unfinished.getLast?.toList.map .erased
    else if ch = tp.kill then tp.unfinished.map .erased
    else if ch = backslash then []
    else if ch = tp.eof then tp.specialEvents marker true
    else tp.specialEvents ch false
  else if ch = tp.erase ∨ ch = tp.kill ∨ ch = tp.eof then tp.specialEvents ch false
  else (tp.put backslash).specialEvents ch false ++ [tp.storedEvent backslash false]

/-- What a character does to the queue, the last event first. -/
def Line.keyEvents (tp : Line) (ch : UInt8) : List QueueEvent :=
  if ttyInBytes ≤ tp.incount then []
  else if tp.inputMode = 0 then tp.cookedEvents (ch &&& 0x7F)
  else if tp.inputMode = cbreak then tp.specialEvents (ch &&& 0x7F) false
  else
    let c := if tp.inputMode = raw then ch else ch &&& 0x7F
    [.stored c (c = newline)]

/-! ## §2 `in_char` -/

section

variable {env : Env} {s s' : State} {ch c : UInt8}

theorem log_of_input (h : s'.input = s.input) : s'.log = s.log :=
  congrArg Queue.log (queue_of_input h)

theorem store_log (s : State) (c : UInt8) (counted : Bool) :
    (store s c counted).log = s.tp.storedEvent c counted :: s.log := rfl

theorem storeChar_log (s : State) (ch : UInt8) (counted : Bool) :
    (storeChar s ch counted).log = s.tp.storedEvent ch (counted || ch = newline) :: s.log := by
  unfold storeChar
  rw [log_of_input (echo_input _ _), store_log]
  split
  · rfl
  · rfl

theorem sigchar_log (s : State) (sig : ℕ) : (sigchar s sig).log = .discarded :: s.log := by
  have hdone : (finish (s.modTp fun tp => { tp with inhibited := false }) eintr).log = s.log :=
    log_of_input ((finish_input _ _).trans rfl)
  unfold sigchar
  extract_lets s₁
  have hdiscard : s₁.log = .discarded :: s.log := by
    rw [← hdone]
    rfl
  split
  · exact hdiscard
  · exact hdiscard

theorem dropCounted_log (s : State) (counted : Bool) :
    (dropCounted s counted).log = (if counted then [.dropped] else []) ++ s.log := by
  cases counted with
  | false => rfl
  | true => rfl

theorem specialChar_log (env : Env) (s : State) (ch : UInt8) (counted : Bool) :
    (specialChar env s ch counted).log = s.tp.specialEvents ch counted ++ s.log := by
  rw [specialChar_eq, Line.specialEvents]
  by_cases hsig : s.tp.mapCr ch = s.tp.intr ∨ s.tp.mapCr ch = s.tp.quit
  · rw [if_pos hsig, if_pos hsig, sigchar_log, dropCounted_log]
    rfl
  rw [if_neg hsig, if_neg hsig]
  by_cases hstop : s.tp.mapCr ch = s.tp.xoff
  · rw [if_pos hstop, if_pos (.inl hstop)]
    exact dropCounted_log s counted
  rw [if_neg hstop]
  by_cases hstart : s.tp.inhibited = true
  · rw [if_pos hstart, if_pos (.inr hstart), log_of_input (console_input _ _)]
    exact dropCounted_log s counted
  · have hrun : ¬(s.tp.mapCr ch = s.tp.xoff ∨ s.tp.inhibited = true) := by
      rintro (h | h)
      · exact hstop h
      · exact hstart h
    rw [if_neg hstart, if_neg hrun, storeChar_log]
    rfl

/-- `chuck` erases the newest character of the line, if there is one. -/
theorem unfinished_of_chuck (hs : Tracked s) :
    (chuck s = none → s.tp.unfinished = []) ∧
      ∀ s', chuck s = some s' → ∃ c, s.tp.unfinished = s'.tp.unfinished ++ [c] ∧
        s'.log = .erased c :: s.log := by
  unfold chuck Line.unfinished
  by_cases hempty : s.tp.incount = 0
  · have hnil : s.tp.contents = [] :=
      List.length_eq_zero_iff.mp (by rw [Line.length_contents, hempty])
    rw [if_pos hempty, hnil]
    exact ⟨fun _ => rfl, fun _ h => absurd h (by simp)⟩
  obtain ⟨hcontents, -⟩ := contents_chuck hs.ring hempty
  rw [if_neg hempty]
  extract_lets c
  by_cases hline : c = newline ∨ c = carriageReturn
  · have hstop : ¬(c ≠ newline ∧ c ≠ carriageReturn) := fun h => hline.elim h.1 h.2
    rw [if_pos hline, hcontents, List.rtakeWhile_concat_neg _ _ _ (by rwa [decide_eq_true_eq])]
    exact ⟨fun _ => rfl, fun _ h => absurd h (by simp)⟩
  · rw [if_neg hline, hcontents, List.rtakeWhile_concat_pos _ _ _ (by simpa using hline)]
    refine ⟨fun h => absurd h (by simp), ?_⟩
    rintro s' ⟨rfl⟩
    exact ⟨c, rfl, rfl⟩

theorem chuckAll_log {n : ℕ} (hs : Tracked s) (hn : s.tp.unfinished.length ≤ n) :
    (chuckAll n s).log = s.tp.unfinished.map .erased ++ s.log := by
  induction n generalizing s with
  | zero =>
    rw [List.length_eq_zero_iff.mp (Nat.le_zero.mp hn)]
    rfl
  | succ n ih =>
    obtain ⟨hnone, hsome⟩ := unfinished_of_chuck hs
    unfold chuckAll
    cases h : chuck s with
    | none =>
      rw [hnone h]
      rfl
    | some s' =>
      obtain ⟨c, hunfinished, hlog⟩ := hsome s' h
      rw [hunfinished, List.length_append, List.length_singleton] at hn
      have hrest := ih (hs.chuck h) (Nat.le_of_succ_le_succ hn)
      simp only [hrest, hlog, hunfinished, List.map_append, List.append_assoc]
      rfl

theorem unfinished_length (tp : Line) : tp.unfinished.length ≤ tp.incount := by
  rw [← tp.length_contents]
  exact (List.rtakeWhile_suffix _ _).length_le

theorem cookedChar_log (env : Env) (hs : Tracked s) (ch : UInt8) :
    (cookedChar env s ch).log = s.tp.cookedEvents ch ++ s.log := by
  unfold cookedChar Line.cookedEvents
  by_cases hescaped : s.tp.escaped = false
  · rw [if_pos hescaped, if_pos hescaped]
    by_cases herase : ch = s.tp.erase
    · rw [if_pos ⟨herase, hescaped⟩, if_pos herase]
      obtain ⟨hnone, hsome⟩ := unfinished_of_chuck hs
      cases h : chuck s with
      | none =>
        rw [hnone h]
        rfl
      | some s' =>
        obtain ⟨c, hunfinished, hlog⟩ := hsome s' h
        have hecho : (echo (echo (echo s' backspace) blank) backspace).input = s'.input := by simp
        rw [hunfinished, List.getLast?_concat]
        exact (log_of_input hecho).trans hlog
    rw [if_neg fun h => herase h.1, if_neg herase]
    by_cases hkill : ch = s.tp.kill
    · rw [if_pos ⟨hkill, hescaped⟩, if_pos hkill]
      exact (log_of_input ((echo_input _ _).trans (echo_input _ _))).trans
        (chuckAll_log hs (unfinished_length _))
    rw [if_neg fun h => hkill h.1, if_neg hkill]
    by_cases hback : ch = backslash
    · rw [if_pos hback, if_pos hback]
      exact log_of_input ((echo_input _ _).trans rfl)
    rw [if_neg hback, if_neg hback]
    by_cases heof : ch = s.tp.eof
    · rw [if_pos heof, if_pos heof]
      exact specialChar_log env _ marker true
    · rw [if_neg heof, if_neg heof]
      exact specialChar_log env s ch false
  · rw [if_neg fun h => hescaped h.2, if_neg fun h => hescaped h.2, if_neg hescaped, if_neg hescaped]
    extract_lets s₁
    by_cases hordinary : ch ≠ s₁.tp.erase ∧ ch ≠ s₁.tp.kill ∧ ch ≠ s₁.tp.eof
    · have hnot : ¬(ch = s.tp.erase ∨ ch = s.tp.kill ∨ ch = s.tp.eof) := by
        rintro (h | h | h)
        · exact hordinary.1 h
        · exact hordinary.2.1 h
        · exact hordinary.2.2 h
      rw [if_pos hordinary, if_neg hnot, List.append_assoc]
      exact specialChar_log env (store s₁ backslash false) ch false
    · have hspecial : ch = s.tp.erase ∨ ch = s.tp.kill ∨ ch = s.tp.eof := by
        by_contra hnot
        simp only [not_or] at hnot
        exact hordinary hnot
      rw [if_neg hordinary, if_pos hspecial]
      exact specialChar_log env s₁ ch false

/-- **A key**: `in_char` does to the queue what the terminal and the character say. -/
theorem inChar_log (env : Env) (hs : Tracked s) (ch : UInt8) :
    (inChar env s ch).log = s.tp.keyEvents ch ++ s.log := by
  unfold inChar Line.keyEvents
  by_cases hfull : ttyInBytes ≤ s.tp.incount
  · rw [if_pos hfull, if_pos hfull]
    rfl
  rw [if_neg hfull, if_neg hfull]
  extract_lets mode c
  by_cases hcooked : mode = 0
  · have hc : c = ch &&& 0x7F := if_pos (by rw [hcooked]; decide)
    rw [if_pos hcooked, if_pos hcooked, hc]
    exact cookedChar_log env hs _
  rw [if_neg hcooked, if_neg hcooked]
  by_cases hcbreak : mode = cbreak
  · have hc : c = ch &&& 0x7F := if_pos (by rw [hcbreak]; decide)
    rw [if_pos hcbreak, if_pos hcbreak, hc]
    exact specialChar_log env s _ false
  · have hc : c = if s.tp.inputMode = raw then ch else ch &&& 0x7F := by
      change (if s.tp.inputMode ≠ raw then _ else _) = _
      rw [ite_not]
    rw [if_neg hcbreak, if_neg hcbreak, storeChar_log, hc, Line.storedEvent,
      if_pos (Nat.lt_of_not_le hfull), Bool.false_or]
    rfl

/-- `in_char` does not touch the request on the line, nor the mode. -/
theorem inChar_request (env : Env) (s : State) (ch : UInt8) :
    (inChar env s ch).tp.inleft = s.tp.inleft ∧ (inChar env s ch).tp.inproc = s.tp.inproc ∧
      (inChar env s ch).tp.inVir = s.tp.inVir ∧ (inChar env s ch).reads = s.reads ∧
      (inChar env s ch).tp.mode = s.tp.mode := by
  refine inChar_rule (P := fun s' => s'.tp.inleft = s.tp.inleft ∧ s'.tp.inproc = s.tp.inproc ∧
    s'.tp.inVir = s.tp.inVir ∧ s'.reads = s.reads ∧ s'.tp.mode = s.tp.mode)
    ?_ ?_ ?_ ?_ ?_ ?_ ⟨rfl, rfl, rfl, rfl, rfl⟩
  · intro s₁ s₂ hinput hs
    simp only [State.input, Input.mk.injEq] at hinput
    obtain ⟨-, hmode, hproc, hvir, hleft, -, hreads⟩ := hinput
    exact ⟨hleft.trans hs.1, hproc.trans hs.2.1, hvir.trans hs.2.2.1, hreads.trans hs.2.2.2.1,
      hmode.trans hs.2.2.2.2⟩
  · intro s₁ s₂ hchuck hs
    obtain ⟨-, -, rfl⟩ := chuck_eq_some hchuck
    exact hs
  · exact fun s₁ hs => hs
  · exact fun s₁ hs => hs
  · intro s₁ c b _ hs
    cases b
    all_goals exact hs
  · intro _ s₁ c b _ hs
    cases b
    all_goals exact hs

end

end LisaMinix.Kernel.Tty
