import LisaMinix.Libc.StdioReads
import LisaMinix.Library.Simulation
import Mathlib.Data.UInt

/-!
# Streams That Are Written

What a plain file does when it is written, and the streams of both kinds.

- `WriteExpected`: the results that are expected of the calls.
- `writeCall_writes`: a stream that stands for a writer goes on to do so.
- `stream_follows`: as long as the calls meet the conditions, the streams are plain files.
-/

namespace LisaMinix.Libc

open LisaMinix.Library Function

/-! ## §1 Streams That Are Written -/

/-- A stream that is written, as its user sees it. -/
structure Writer where
  pos : ℕ
  file : List UInt8

/-- What is expected of a call on a stream that is written. -/
inductive WriteExpected : WriteCall → Writer → ℤ → Stream → Writer → Prop where
  | fputc {pos file c s} : WriteExpected (.fputc c) ⟨pos, file⟩ c.toNat s ⟨pos + 1, store file pos c⟩
  | fflush {a r} {s : Stream} (h : s.file = a.file) (hr : r ≠ eof) : WriteExpected .fflush a r s a
  | fseek {a offset whence s} (h : IsPosition whence (target a.file a.pos offset whence)) :
      WriteExpected (.fseek offset whence) a 0 s ⟨(target a.file a.pos offset whence).toNat, a.file⟩
  | noSeek {a offset whence s} (h : ¬IsPosition whence (target a.file a.pos offset whence)) :
      WriteExpected (.fseek offset whence) a (-1) s a
  | ftell {a s} : WriteExpected .ftell a a.pos s a

/-- A character can be stored at the position, and the offset is a `long`. -/
def WriteOk (c : WriteCall) (_ : Stream) (a : Writer) : Prop :=
  match c with
  | .fputc _ => a.pos < longMax
  | .fseek offset _ => IsLong offset
  | .fflush | .ftell => True

/-- The file together with what is in the buffer. -/
structure StandsFor (s : Stream) (a : Writer) : Prop where
  ptr : s.ptr = s.count
  room : s.count < bufsiz
  pos : a.pos = s.offset + s.count
  short : a.pos ≤ longMax
  file_eq : a.file = writeBytes s.file s.offset ((List.range s.count).map s.buf)

section

variable {s : Stream} {a : Writer}

theorem writeBytes_append (file : List UInt8) (pos : ℕ) (l : List UInt8) (c : UInt8) :
    writeBytes file pos (l ++ [c]) = store (writeBytes file pos l) (pos + l.length) c := by
  induction l generalizing file pos with
  | nil => rfl
  | cons e l ih =>
    rw [List.cons_append, writeBytes, writeBytes, ih, List.length_cons]
    congr 1
    omega

theorem StandsFor.written (h : StandsFor s a) : StandsFor (writeBuffer s) a where
  ptr := rfl
  room := show 0 < bufsiz by decide
  pos := h.pos
  short := h.short
  file_eq := h.file_eq

theorem writeBuffer_file (h : StandsFor s a) : (writeBuffer s).file = a.file := h.file_eq.symm

theorem fputc_writes {c : UInt8} (h : StandsFor s a) (hok : WriteOk (.fputc c) s a) :
    ∃ a', WriteExpected (.fputc c) a (fputc c s).1 (fputc c s).2 a' ∧ StandsFor (fputc c s).2 a' := by
  refine ⟨⟨a.pos + 1, store a.file a.pos c⟩, .fputc, ?_⟩
  have hpos := h.pos
  have hmax : (a.pos : ℤ) < longMax := hok
  -- the character is at the end of what is in the buffer
  have hbuf : (List.range (s.count + 1)).map (update s.buf s.ptr c) =
      (List.range s.count).map s.buf ++ [c] := by
    rw [List.range_succ, List.map_append, List.map_singleton, h.ptr, update_self]
    congr 1
    apply List.map_congr_left
    intro i hi
    exact update_of_ne (ne_of_lt (List.mem_range.mp hi)) ..
  have hfile : store a.file a.pos c = writeBytes s.file s.offset
      ((List.range (s.count + 1)).map (update s.buf s.ptr c)) := by
    rw [hbuf, writeBytes_append, ← h.file_eq, hpos, List.length_map, List.length_range]
  unfold fputc
  dsimp only
  split
  next => exact ⟨rfl, show 0 < bufsiz by decide, by dsimp only [writeBuffer]; omega,
    by push_cast; omega, hfile⟩
  next hroom => exact ⟨by dsimp only; rw [h.ptr], not_le.mp hroom, by dsimp only; omega,
    by push_cast; omega, hfile⟩

theorem fflush_writes (h : StandsFor s a) :
    (fflush s).2.file = a.file ∧ (fflush s).2.count = 0 ∧ StandsFor (fflush s).2 a ∧
      (fflush s).1 ≠ eof := by
  unfold fflush
  split
  next hzero =>
    refine ⟨?_, hzero, h, show (0 : ℤ) ≠ eof by decide⟩
    rw [h.file_eq, hzero]
    rfl
  next =>
    refine ⟨writeBuffer_file h, rfl, h.written, ?_⟩
    unfold eof
    dsimp only
    omega

theorem fseek_writes {offset whence : ℤ} (h : StandsFor s a) :
    ∃ a', WriteExpected (.fseek offset whence) a (fseekWrite offset whence s).1
      (fseekWrite offset whence s).2 a' ∧ StandsFor (fseekWrite offset whence s).2 a' := by
  obtain ⟨hfile, hcount, hstands, -⟩ := fflush_writes h
  unfold fseekWrite
  generalize (fflush s).2 = s₁ at hfile hcount hstands ⊢
  have hpos : s₁.offset = a.pos := by
    have hpos := hstands.pos
    rw [hcount, Nat.add_zero] at hpos
    exact hpos.symm
  have hseek : seekTo s₁ offset whence = if IsPosition whence (target a.file a.pos offset whence) then
      some (target a.file a.pos offset whence).toNat else none := by
    unfold seekTo
    rw [hfile, hpos]
    rfl
  rw [lseek, hseek]
  by_cases hp : IsPosition whence (target a.file a.pos offset whence)
  · have hnonneg : ((target a.file a.pos offset whence).toNat : ℤ) = target a.file a.pos offset whence :=
      Int.toNat_of_nonneg hp.2.1
    have hmin := hp.2.1
    rw [if_pos hp]
    dsimp only
    rw [if_neg (by omega)]
    refine ⟨_, .fseek hp, ⟨hstands.ptr, hstands.room, ?_, ?_, ?_⟩⟩
    · rw [hcount]
      rfl
    · dsimp only
      rw [hnonneg]
      exact hp.2.2
    · dsimp only
      rw [hcount]
      exact hfile.symm
  · rw [if_neg hp]
    exact ⟨a, .noSeek hp, hstands⟩

theorem ftell_writes (h : StandsFor s a) :
    ∃ a', WriteExpected .ftell a (ftellWrite s).1 (ftellWrite s).2 a' ∧ StandsFor (ftellWrite s).2 a' := by
  have hpos := h.pos
  have hshort := h.short
  have hseek : seekTo s 0 1 = some s.offset := by
    unfold seekTo
    simp only [one_ne_zero, if_false, if_true, add_zero, Int.toNat_natCast]
    rw [if_pos]
    exact ⟨by decide, by omega, by omega⟩
  have hlong : long (s.offset + s.ptr) = a.pos := by
    rw [h.ptr, long_of_isLong]
    · omega
    · unfold IsLong longMin longMax at *
      omega
  unfold ftellWrite lseek
  rw [hseek]
  dsimp only
  rw [if_neg (by omega), hlong]
  exact ⟨a, .ftell, h⟩

/-- Each call on a stream that stands for a writer. -/
theorem writeCall_writes (c : WriteCall) (h : StandsFor s a) (hok : WriteOk c s a) :
    ∃ a', WriteExpected c a (writeCall c s).1 (writeCall c s).2 a' ∧ StandsFor (writeCall c s).2 a' := by
  cases c with
  | fputc c => exact fputc_writes h hok
  | fflush =>
    obtain ⟨hfile, -, hstands, hr⟩ := fflush_writes h
    exact ⟨a, .fflush hfile hr, hstands⟩
  | fseek offset whence => exact fseek_writes h
  | ftell => exact ftell_writes h

end

/-! ## §2 Streams and Files -/

/-- A stream that `fopen` returns; what the buffer holds at first is not known. -/
def opened (file : List UInt8) (buf : ℕ → UInt8) (offset : ℕ) : Stream where
  count := 0
  ptr := 0
  buf := buf
  eofFlag := false
  offset := offset
  file := file

/-- Buffered streams are plain files as long as their calls meet the conditions. -/
theorem stream_follows (file : List UInt8) (buf : ℕ → UInt8) (hshort : file.length ≤ longMax) :
    (∀ calls, Follows readCall ReadOk (ReadExpected file) calls (opened file buf 0) ⟨0, none, true⟩) ∧
      ∀ offset ≤ file.length, ∀ calls,
        Follows writeCall WriteOk WriteExpected calls (opened file buf offset) ⟨offset, file⟩ := by
  constructor
  · intro calls
    refine .of_simulation (Stands file) (fun c s a h hok => readCall_reads hshort c h hok) calls ?_
    exact ⟨rfl, show ((0 : ℕ) : ℤ) ≤ longMax by decide, show 0 + 0 ≤ bufsiz by decide, rfl,
      ⟨0, rfl, Nat.zero_le _, by simp⟩, by simp, by simp [opened]⟩
  · intro offset hoffset calls
    refine .of_simulation StandsFor (fun c s a h hok => writeCall_writes c h hok) calls ?_
    exact ⟨rfl, show 0 < bufsiz by decide, rfl, by dsimp only; omega, rfl⟩

theorem stream_follows_three :
    (∀ calls, Follows readCall ReadOk (ReadExpected [65, 66, 67]) calls (opened [65, 66, 67] 0 0)
      ⟨0, none, true⟩) ∧
    ∀ offset ≤ 3, ∀ calls, Follows writeCall WriteOk WriteExpected calls (opened [65, 66, 67] 0 offset)
      ⟨offset, [65, 66, 67]⟩ :=
  stream_follows [65, 66, 67] 0 (by decide)

/-- What the user of a stream has to see to. -/
def Legal (c : ReadCall) (s : Stream) (a : Reader) : Prop :=
  match c with
  | .fgetc | .ftell => True
  | .ungetc _ => a.mayPush = true
  | .fseek offset whence => IsLong offset ∧ IsPosition whence (target s.file a.pos offset whence)

section

variable {file : List UInt8} {a a' : Reader} {r : ℤ} {s : Stream}

theorem ReadExpected.byte_eq {n : ℕ} {c : UInt8} (h : ReadExpected file .fgetc a r s a')
    (ha : a.pos = n) (hnone : a.pushed = none) (hc : file[n]? = some c) :
    r = c.toNat ∧ a' = ⟨n + 1, none, true⟩ := by
  cases h with
  | pushed => exact absurd hnone (by simp)
  | byte h =>
    obtain rfl := Int.ofNat.inj ha
    rw [hc] at h
    rw [Option.some.inj h]
    exact ⟨rfl, rfl⟩
  | atEnd h =>
    have hlt := (List.getElem?_eq_some_iff.mp hc).1
    dsimp only at ha
    omega

theorem ReadExpected.ungetc_eq {ch : ℤ} (h : ReadExpected file (.ungetc ch) a r s a') (hr : r ≠ eof) :
    a' = ⟨a.pos - 1, some (UInt8.ofNat ch.toNat), false⟩ := by
  cases h with
  | ungetc => rfl
  | refused => exact absurd rfl hr

theorem ReadExpected.fseek_eq {offset whence : ℤ} (h : ReadExpected file (.fseek offset whence) a r s a')
    (hr : r = 0) : a' = ⟨target file a.pos offset whence, none, a.mayPush⟩ := by
  cases h with
  | fseek => rfl
  | noSeek => exact absurd hr (by decide)

end

/-- A character that has been pushed back is read in place of the first one of the file, although
    `fseek` has gone to the beginning. -/
theorem fseek_keepsPushed : ¬Follows readCall Legal (ReadExpected [65, 66])
    [.fgetc, .ungetc 90, .fseek 0 0, .fgetc] (opened [65, 66] 0 0) ⟨0, none, true⟩ := by
  intro h
  obtain ⟨a₁, h1, h⟩ := h trivial
  obtain ⟨-, rfl⟩ := h1.byte_eq (n := 0) (c := 65) rfl rfl rfl
  obtain ⟨a₂, h2, h⟩ := h rfl
  obtain rfl := h2.ungetc_eq (by decide)
  obtain ⟨a₃, h3, h⟩ := h ⟨⟨by decide, by decide⟩, by decide⟩
  obtain rfl := h3.fseek_eq (by decide)
  obtain ⟨a₄, h4, -⟩ := h trivial
  obtain ⟨hr, -⟩ := h4.byte_eq (n := 0) (c := 65) rfl rfl rfl
  exact absurd hr (by decide)

end LisaMinix.Libc
