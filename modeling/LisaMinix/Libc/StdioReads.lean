import LisaMinix.Libc.Stdio

/-!
# Streams That Are Read

What a plain file does when it is read, and the streams that do the same.

- `ReadExpected`: the results that are expected of the calls.
- `ReadOk`: the calls that give them.
- `readCall_reads`: a stream that stands for a reader goes on to do so.
-/

namespace LisaMinix.Libc

/-! ## §1 Plain Files -/

/-- The position that `fseek` is to go to. -/
def target (file : List UInt8) (pos offset whence : ℤ) : ℤ :=
  if whence = 0 then offset else if whence = 1 then pos + offset else file.length + offset

/-- A position that a file can have, which `whence` tells how to find. -/
def IsPosition (whence pos : ℤ) : Prop :=
  (whence = 0 ∨ whence = 1 ∨ whence = 2) ∧ 0 ≤ pos ∧ pos ≤ longMax

instance (whence pos : ℤ) : Decidable (IsPosition whence pos) := inferInstanceAs (Decidable (_ ∧ _))

def IsLong (x : ℤ) : Prop := longMin ≤ x ∧ x ≤ longMax

/-- A stream that is read, as its user sees it.  After a character has been pushed back there has to be
    a read before the next one. -/
structure Reader where
  pos : ℤ
  pushed : Option UInt8
  mayPush : Bool

/-- What is expected of a call on a stream that is read. -/
inductive ReadExpected (file : List UInt8) : ReadCall → Reader → ℤ → Stream → Reader → Prop where
  | pushed {pos may c s} : ReadExpected file .fgetc ⟨pos, some c, may⟩ c.toNat s ⟨pos + 1, none, true⟩
  | byte {n : ℕ} {may c s} (h : file[n]? = some c) :
      ReadExpected file .fgetc ⟨n, none, may⟩ c.toNat s ⟨n + 1, none, true⟩
  | atEnd {pos : ℤ} {may s} (h : file.length ≤ pos) :
      ReadExpected file .fgetc ⟨pos, none, may⟩ eof s ⟨pos, none, may⟩
  | ungetc {pos may ch s} (h : 0 ≤ ch) :
      ReadExpected file (.ungetc ch) ⟨pos, none, may⟩ ch s ⟨pos - 1, some (UInt8.ofNat ch.toNat), false⟩
  | refused {a ch} {s : Stream} (h : ch < 0 ∨ bufsiz ≤ s.count) : ReadExpected file (.ungetc ch) a eof s a
  | fseek {a offset whence s} (h : IsPosition whence (target file a.pos offset whence)) :
      ReadExpected file (.fseek offset whence) a 0 s ⟨target file a.pos offset whence, none, a.mayPush⟩
  | noSeek {a offset whence s} (h : ¬IsPosition whence (target file a.pos offset whence)) :
      ReadExpected file (.fseek offset whence) a (-1) s a
  | ftell {a s} : ReadExpected file .ftell a a.pos s a

/-- From `pos` places beyond the pointer on, the buffer holds what is in the file. -/
def Agrees (pos : ℤ) (s : Stream) : Prop :=
  ∀ i : ℕ, i < s.count - pos →
    0 ≤ s.offset - s.count + pos ∧
      s.file[(s.offset - s.count + pos + i).toNat]? = some (s.buf (s.ptr + pos + i).toNat)

/-- A character is pushed back only where there is a place for it in front of the unread ones and the
    end of the file has not been seen; `fseek` goes to a position, and stays in the buffer only where this
    holds what is in the file.  The user pushes back no second character before the next read. -/
def ReadOk (c : ReadCall) (s : Stream) (a : Reader) : Prop :=
  match c with
  | .fgetc | .ftell => True
  | .ungetc ch => a.mayPush = true ∧
      (0 ≤ ch → s.count < bufsiz → s.eofFlag = false ∧ (s.ptr = 0 → s.count = 0))
  | .fseek offset whence => IsLong offset ∧
      (IsPosition whence (target s.file a.pos offset whence) ∨ s.count = 0) ∧
        (StaysInBuffer offset whence s → Agrees (seekPos offset whence s) s)

/-! ## §2 Streams That Are Read -/

/-- The stream stands for the reader. -/
structure Stands (file : List UInt8) (s : Stream) (a : Reader) : Prop where
  file_eq : s.file = file
  short : s.offset ≤ longMax
  room : s.ptr + s.count ≤ bufsiz
  pos : a.pos = s.offset - s.count
  unread : ∃ n, s.count = n + (if a.pushed.isSome then 1 else 0) ∧ n ≤ s.offset ∧
    ∀ i < n, file[s.offset - n + i]? = some (s.buf (s.ptr + (s.count - n) + i))
  pushed : ∀ c, a.pushed = some c → s.buf s.ptr = c ∧ a.mayPush = false
  atEnd : s.eofFlag = true → s.count = 0 ∧ file.length ≤ s.offset

section

variable {file : List UInt8} {s : Stream} {a : Reader}

theorem Stands.not_pushed (h : Stands file s a) (hcount : s.count = 0) : a.pushed = none := by
  obtain ⟨n, hn, -, -⟩ := h.unread
  rcases hp : a.pushed with _ | c
  · rfl
  · rw [hp, Option.isSome_some, if_pos rfl] at hn
    omega

/-- What a read from the file gives. -/
theorem readBytes_spec {n : ℕ} (hn : 0 < n) : (readBytes n s).length ≤ n ∧
    (0 < (readBytes n s).length → s.offset + (readBytes n s).length ≤ s.file.length) ∧
    (∀ i < (readBytes n s).length, s.file[s.offset + i]? = some ((readBytes n s).getD i 0)) ∧
    ((readBytes n s).length = 0 → s.file.length ≤ s.offset) := by
  have hlength : (readBytes n s).length = min n (s.file.length - s.offset) := by
    rw [readBytes, List.length_take, List.length_drop]
  refine ⟨by omega, by omega, fun i hi => ?_, by omega⟩
  rw [List.getD_eq_getElem?_getD, readBytes, List.getElem?_take_of_lt (by omega), List.getElem?_drop]
  have hlt : s.offset + i < s.file.length := by omega
  rw [List.getElem?_eq_getElem hlt]
  rfl

theorem fgetc_reads (h : Stands file s a) (hshort : file.length ≤ longMax) :
    ∃ a', ReadExpected file .fgetc a (fgetc s).1 (fgetc s).2 a' ∧ Stands file (fgetc s).2 a' := by
  obtain ⟨pos, pushed, may⟩ := a
  unfold fgetc
  by_cases heof : s.eofFlag = true
  · -- the end of the file has been seen
    rw [if_pos heof]
    obtain ⟨hcount, hend⟩ := h.atEnd heof
    obtain rfl : pushed = none := h.not_pushed hcount
    have hpos := h.pos
    rw [hcount] at hpos
    refine ⟨_, .atEnd ?_, h⟩
    simp only at hpos
    omega
  rw [if_neg heof]
  by_cases hcount : s.count = 0
  · -- the buffer is filled
    obtain rfl : pushed = none := h.not_pushed hcount
    obtain rfl : pos = s.offset := by
      have hpos := h.pos
      rw [hcount] at hpos
      simpa using hpos
    obtain ⟨hle, hlength, hbytes, hempty⟩ := readBytes_spec (n := bufsiz) (s := s) (by decide)
    rw [h.file_eq] at hlength hbytes hempty
    rw [if_pos hcount]
    dsimp only
    generalize readBytes bufsiz s = bytes at hle hlength hbytes hempty ⊢
    by_cases hnone : bytes.length = 0
    · rw [if_pos hnone]
      have hend := hempty hnone
      refine ⟨_, .atEnd (by exact_mod_cast hend), ⟨h.file_eq, ?_, ?_, ?_, ⟨0, rfl, by simp, by simp⟩, by simp, ?_⟩⟩
      · rw [hnone]
        exact h.short
      · have hroom := h.room
        rw [hcount] at hroom
        exact hroom
      · simp [hnone]
      · rw [hnone]
        exact fun _ => ⟨rfl, hend⟩
    · rw [if_neg hnone]
      have hpos := Nat.pos_of_ne_zero hnone
      have hfirst := hbytes 0 hpos
      dsimp only
      rw [if_pos hpos]
      refine ⟨_, .byte hfirst, ⟨h.file_eq, ?_, ?_, ?_, ⟨bytes.length - 1, rfl, ?_, fun i hi => ?_⟩,
        by simp, ?_⟩⟩
      · have hbound := hlength hpos
        push_cast
        omega
      · dsimp only
        omega
      · push_cast [Nat.cast_sub hpos]
        ring
      · dsimp only
        omega
      · dsimp only
        rw [Nat.sub_self, Nat.add_zero, if_pos (by omega), show s.offset + bytes.length -
          (bytes.length - 1) + i = s.offset + (1 + i) by omega]
        exact hbytes (1 + i) (by omega)
      · exact fun heof' => absurd heof' heof
  · -- the next character is in the buffer
    rw [if_neg hcount]
    obtain ⟨n, hn, hoff, hbytes⟩ := h.unread
    have hroom := h.room
    have hpos := h.pos
    have hend : s.eofFlag = true → s.count - 1 = 0 ∧ file.length ≤ s.offset :=
      fun heof' => absurd heof' heof
    rcases pushed with _ | c
    · simp only [Option.isSome_none, Bool.false_eq_true, if_false, Nat.add_zero] at hn
      subst hn
      obtain rfl : pos = (s.offset - s.count : ℕ) := by
        simp only at hpos
        omega
      have hfirst := hbytes 0 (by omega)
      simp only [Nat.sub_self, Nat.add_zero] at hfirst
      refine ⟨_, .byte hfirst, ⟨h.file_eq, h.short, ?_, ?_, ⟨s.count - 1, rfl, ?_, fun i hi => ?_⟩,
        by simp, hend⟩⟩
      · dsimp only
        omega
      · dsimp only
        omega
      · dsimp only
        omega
      · have hbyte := hbytes (i + 1) (by omega)
        dsimp only
        rw [show s.offset - (s.count - 1) + i = s.offset - s.count + (i + 1) by omega,
          show s.ptr + 1 + (s.count - 1 - (s.count - 1)) + i = s.ptr + (s.count - s.count) + (i + 1) by omega]
        exact hbyte
    · simp only [Option.isSome_some, if_true] at hn
      obtain ⟨hc, -⟩ := h.pushed c rfl
      rw [hc]
      refine ⟨_, .pushed, ⟨h.file_eq, h.short, ?_, ?_, ⟨n, ?_, hoff, fun i hi => ?_⟩, by simp, hend⟩⟩
      · dsimp only
        omega
      · simp only at hpos ⊢
        omega
      · simp only [Option.isSome_none, Bool.false_eq_true, if_false]
        omega
      · have hbyte := hbytes i hi
        dsimp only
        rw [show s.ptr + 1 + (s.count - 1 - n) + i = s.ptr + (s.count - n) + i by omega]
        exact hbyte

theorem ungetc_reads {ch : ℤ} (h : Stands file s a) (hok : ReadOk (.ungetc ch) s a) :
    ∃ a', ReadExpected file (.ungetc ch) a (ungetc ch s).1 (ungetc ch s).2 a' ∧
      Stands file (ungetc ch s).2 a' := by
  obtain ⟨pos, pushed, may⟩ := a
  obtain ⟨rfl, hplace⟩ := hok
  unfold ungetc
  by_cases hch : ch < 0
  · rw [if_pos hch]
    exact ⟨_, .refused (.inl hch), h⟩
  by_cases hfull : bufsiz ≤ s.count
  · rw [if_neg hch, if_pos hfull]
    exact ⟨_, .refused (.inr hfull), h⟩
  rw [if_neg hch, if_neg hfull]
  obtain ⟨heof, hempty⟩ := hplace (by omega) (by omega)
  obtain rfl : pushed = none := by
    rcases pushed with _ | c
    · rfl
    · exact absurd (h.pushed c rfl).2 (by simp)
  obtain ⟨n, hn, hoff, hbytes⟩ := h.unread
  simp only [Option.isSome_none, Bool.false_eq_true, if_false, Nat.add_zero] at hn
  have hroom := h.room
  have hpos := h.pos
  simp only at hpos
  -- the pointer after the character has been pushed back
  have hptr : (if s.ptr = 0 then 1 else s.ptr) - 1 + (s.count + 1) ≤ bufsiz := by
    split
    next hzero =>
      rw [hempty hzero]
      decide
    next => omega
  have hnext : 0 < n → (if s.ptr = 0 then 1 else s.ptr) - 1 + 1 = s.ptr := by
    intro hpos
    have hne : s.ptr ≠ 0 := fun hzero => by
      have hcount := hempty hzero
      omega
    rw [if_neg hne]
    omega
  dsimp only
  generalize (if s.ptr = 0 then 1 else s.ptr) - 1 = ptr at hptr hnext ⊢
  refine ⟨_, .ungetc (not_lt.mp hch), ⟨h.file_eq, h.short, hptr, ?_, ⟨n, ?_, hoff, fun i hi => ?_⟩,
    fun c hc => ?_, fun heof' => ?_⟩⟩
  · simp only
    omega
  · simp only [Option.isSome_some, if_true]
    omega
  · have hbyte := hbytes i hi
    simp only
    rw [Function.update_of_ne (by omega), show ptr + (s.count + 1 - n) + i = s.ptr + (s.count - n) + i by
      have hplace := hnext (by omega)
      omega]
    exact hbyte
  · obtain rfl := Option.some.inj hc
    exact ⟨Function.update_self .., rfl⟩
  · rw [heof] at heof'
    exact absurd heof' (by decide)

theorem long_of_isLong {x : ℤ} (h : IsLong x) : long x = x := by
  obtain ⟨hlow, hhigh⟩ := h
  unfold long longMin longMax at *
  omega

variable {offset whence : ℤ}

/-- Whether a seek stays in the buffer is decided by where it goes to. -/
theorem seekPos_eq (h : Stands file s a)
    (hposition : IsPosition whence (target s.file a.pos offset whence)) (hstays : StaysInBuffer offset whence s) :
    target s.file a.pos offset whence = s.offset - s.count + seekPos offset whence s := by
  obtain ⟨hwhence, hcount, hhigh, hlow⟩ := hstays
  obtain ⟨hcases, hnonneg, hmax⟩ := hposition
  have hshort := h.short
  have hroom := h.room
  have hpos := h.pos
  unfold seekPos target at *
  unfold longMax bufsiz at *
  by_cases hset : whence = 0
  · simp only [if_pos hset] at *
    unfold long at *
    omega
  · simp only [show whence = 1 by omega, if_true] at *
    omega

theorem stays_reads (h : Stands file s a)
    (hposition : IsPosition whence (target s.file a.pos offset whence))
    (hstays : StaysInBuffer offset whence s) (hagrees : Agrees (seekPos offset whence s) s)
    (heof : s.eofFlag = false) :
    Stands file { s with
      ptr := (s.ptr + seekPos offset whence s).toNat
      count := (s.count - seekPos offset whence s).toNat }
        ⟨target file a.pos offset whence, none, a.mayPush⟩ := by
  have htarget := seekPos_eq h hposition hstays
  obtain ⟨-, -, hhigh, hlow⟩ := hstays
  rw [h.file_eq] at htarget
  have hroom := h.room
  unfold Agrees at hagrees
  generalize seekPos offset whence s = pos at *
  refine ⟨h.file_eq, h.short, ?_, ?_, ⟨(s.count - pos).toNat, rfl, ?_, fun i hi => ?_⟩, by simp, by simp [heof]⟩
  · dsimp only
    omega
  · dsimp only
    omega
  · dsimp only
    by_contra hnot
    have hfirst := (hagrees 0 (by omega)).1
    omega
  · obtain ⟨hnonneg, hbyte⟩ := hagrees i (by omega)
    rw [h.file_eq] at hbyte
    dsimp only
    rw [Nat.sub_self, Nat.add_zero, show s.offset - (s.count - pos).toNat + i =
      (s.offset - s.count + pos + i).toNat by omega, show (s.ptr + pos).toNat + i =
      (s.ptr + pos + i).toNat by omega]
    exact hbyte

/-- Where the system call goes to. -/
theorem seekTo_eq (h : Stands file s a) (hlong : IsLong offset)
    (hposition : IsPosition whence (target s.file a.pos offset whence) ∨ s.count = 0) :
    seekTo s (if whence < 2 ∧ whence ≠ 0 then long (offset - s.count) else offset) whence =
      if IsPosition whence (target s.file a.pos offset whence) then
        some (target s.file a.pos offset whence).toNat else none := by
  have hpos := h.pos
  have hshort := h.short
  have htarget : (if whence = 0 then (if whence < 2 ∧ whence ≠ 0 then long (offset - s.count) else offset)
      else if whence = 1 then
        s.offset + (if whence < 2 ∧ whence ≠ 0 then long (offset - s.count) else offset)
      else s.file.length + (if whence < 2 ∧ whence ≠ 0 then long (offset - s.count) else offset)) =
        target s.file a.pos offset whence ∨ ¬(whence = 0 ∨ whence = 1 ∨ whence = 2) := by
    by_cases hcases : whence = 0 ∨ whence = 1 ∨ whence = 2
    · left
      rcases hcases with rfl | rfl | rfl
      · simp [target]
      · -- the difference is the way from the position of the descriptor
        have hdiff : IsLong (offset - s.count) := by
          rcases hposition with hp | hcount
          · obtain ⟨-, hnonneg, hmax⟩ := hp
            simp only [target, one_ne_zero, if_false, if_true] at hnonneg hmax
            unfold IsLong longMin longMax at *
            omega
          · rwa [hcount, Nat.cast_zero, sub_zero]
        simp only [target, one_ne_zero, if_false, if_true, ne_eq, not_false_eq_true, and_true,
          show (1 : ℤ) < 2 by decide, long_of_isLong hdiff]
        omega
      · simp [target]
    · exact .inr hcases
  unfold seekTo
  rcases htarget with heq | hnone
  · simp only [heq]
    rfl
  · simp only [hnone, false_and, if_false, IsPosition]

theorem seekCleared_reads (h : Stands file s a)
    (hok : ReadOk (.fseek offset whence) s a) (heof : s.eofFlag = false) :
    ∃ a', ReadExpected file (.fseek offset whence) a (seekCleared offset whence s).1
      (seekCleared offset whence s).2 a' ∧ Stands file (seekCleared offset whence s).2 a' := by
  obtain ⟨hlong, hposition, hagrees⟩ := hok
  have hroom := h.room
  unfold seekCleared
  by_cases hstays : StaysInBuffer offset whence s
  · have hp : IsPosition whence (target s.file a.pos offset whence) :=
      hposition.resolve_right (Nat.pos_iff_ne_zero.mp hstays.2.1)
    rw [if_pos hstays]
    refine ⟨_, .fseek ?_, stays_reads h hp hstays (hagrees hstays) heof⟩
    rwa [← h.file_eq]
  · rw [if_neg hstays]
    have hseek := seekTo_eq h hlong hposition
    rw [h.file_eq] at hseek hposition
    dsimp only
    rw [lseek, hseek]
    by_cases hp : IsPosition whence (target file a.pos offset whence)
    · rw [if_pos hp]
      have hnonneg : ((target file a.pos offset whence).toNat : ℤ) = target file a.pos offset whence :=
        Int.toNat_of_nonneg hp.2.1
      have hne := hp.2.1
      dsimp only
      rw [if_neg (by omega)]
      refine ⟨_, .fseek hp, ⟨h.file_eq, ?_, ?_, ?_, ⟨0, rfl, Nat.zero_le _, by simp⟩, by simp, ?_⟩⟩
      · dsimp only
        rw [hnonneg]
        exact hp.2.2
      · dsimp only
        omega
      · dsimp only
        rw [hnonneg, Nat.cast_zero, sub_zero]
      · simp [heof]
    · have hcount := hposition.resolve_left hp
      have hnone := h.not_pushed hcount
      have hpos := h.pos
      rw [if_neg hp]
      dsimp only
      rw [if_pos rfl]
      refine ⟨a, .noSeek hp, ⟨h.file_eq, h.short, ?_, ?_, ⟨0, ?_, Nat.zero_le _, by simp⟩, ?_, ?_⟩⟩
      · dsimp only
        omega
      · dsimp only
        omega
      · rw [hnone]
        rfl
      · rw [hnone]
        simp
      · simp [heof]

theorem fseek_reads (h : Stands file s a) (hok : ReadOk (.fseek offset whence) s a) :
    ∃ a', ReadExpected file (.fseek offset whence) a (fseekRead offset whence s).1
      (fseekRead offset whence s).2 a' ∧ Stands file (fseekRead offset whence s).2 a' :=
  seekCleared_reads ⟨h.file_eq, h.short, h.room, h.pos, h.unread, h.pushed, by simp⟩ hok rfl

theorem ftell_reads (h : Stands file s a) :
    ∃ a', ReadExpected file .ftell a (ftellRead s).1 (ftellRead s).2 a' ∧ Stands file (ftellRead s).2 a' := by
  have hseek : seekTo s 0 1 = some s.offset := by
    have hshort := h.short
    unfold seekTo
    simp only [one_ne_zero, if_false, if_true, add_zero, Int.toNat_natCast]
    rw [if_pos]
    exact ⟨by decide, by omega, hshort⟩
  unfold ftellRead lseek
  rw [hseek]
  dsimp only
  rw [if_neg (by omega), ← h.pos]
  exact ⟨a, .ftell, h⟩

/-- Each call on a stream that stands for a reader. -/
theorem readCall_reads (hshort : file.length ≤ longMax) (c : ReadCall) (h : Stands file s a)
    (hok : ReadOk c s a) : ∃ a', ReadExpected file c a (readCall c s).1 (readCall c s).2 a' ∧
      Stands file (readCall c s).2 a' := by
  cases c with
  | fgetc => exact fgetc_reads h hshort
  | ungetc ch => exact ungetc_reads h hok
  | fseek offset whence => exact fseek_reads h hok
  | ftell => exact ftell_reads h

end

end LisaMinix.Libc
