import LisaMinix.Libc.Ctime
import LisaMinix.Libc.Strtol

/-!
# Buffered Streams

`fgetc`, `ungetc`, `fputc`, `fflush`, `fseek` and `ftell` on a stream that has a buffer.  No other
process changes the file, and the system calls do not fail but for an `lseek` to a position that is none.

- `readCall`, `writeCall`: the functions on a stream that is open for reading, or for writing.
-/

namespace LisaMinix.Libc

/-! ## §1 Streams and System Calls -/

def bufsiz : ℕ := 1024
def eof : ℤ := -1

/-- `struct _io_buf` of a stream with a buffer, with the position of its file descriptor and the file.
    `_ptr` is an index of the buffer. -/
structure Stream where
  count : ℕ
  ptr : ℕ
  buf : ℕ → UInt8
  eofFlag : Bool
  offset : ℕ
  file : List UInt8

/-- The new position, unless there is none. -/
def seekTo (s : Stream) (offset whence : ℤ) : Option ℕ :=
  let pos := if whence = 0 then offset else if whence = 1 then s.offset + offset else s.file.length + offset
  if (whence = 0 ∨ whence = 1 ∨ whence = 2) ∧ 0 ≤ pos ∧ pos ≤ longMax then some pos.toNat else none

/-- `lseek` -/
def lseek (offset whence : ℤ) (s : Stream) : ℤ × Stream :=
  match seekTo s offset whence with
  | some pos => (pos, { s with offset := pos })
  | none => (-1, s)

/-- What `read(fd, p, n)` reads. -/
def readBytes (n : ℕ) (s : Stream) : List UInt8 := (s.file.drop s.offset).take n

/-- One byte of a file is stored; what is missing before it is zero. -/
def store (file : List UInt8) (pos : ℕ) (c : UInt8) : List UInt8 :=
  (file ++ List.replicate (pos + 1 - file.length) 0).set pos c

/-- `write` at a position. -/
def writeBytes : List UInt8 → ℕ → List UInt8 → List UInt8
  | file, _, [] => file
  | file, pos, c :: cs => writeBytes (store file pos c) (pos + 1) cs

/-! ## §2 Reading -/

def fgetc (s : Stream) : ℤ × Stream :=
  if s.eofFlag then (eof, s)
  else if s.count = 0 then
    let bytes := readBytes bufsiz s
    let s := { s with
      offset := s.offset + bytes.length
      buf := fun i => if i < bytes.length then bytes.getD i 0 else s.buf i }
    if bytes.length = 0 then (eof, { s with count := 0, eofFlag := true })
    else ((s.buf 0).toNat, { s with count := bytes.length - 1, ptr := 1 })
  else ((s.buf s.ptr).toNat, { s with count := s.count - 1, ptr := s.ptr + 1 })

def ungetc (ch : ℤ) (s : Stream) : ℤ × Stream :=
  if ch < 0 then (eof, s)
  else if bufsiz ≤ s.count then (eof, s)
  else
    let ptr := if s.ptr = 0 then 1 else s.ptr
    (ch, { s with
      count := s.count + 1
      ptr := ptr - 1
      buf := Function.update s.buf (ptr - 1) (UInt8.ofNat ch.toNat) })

/-- How far `fseek` moves the pointer if it stays in the buffer. -/
def seekPos (offset whence : ℤ) (s : Stream) : ℤ :=
  if whence = 0 then long (offset + long (s.count - s.offset)) else offset

/-- `fseek` stays in the buffer. -/
def StaysInBuffer (offset whence : ℤ) (s : Stream) : Prop :=
  whence < 2 ∧ 0 < s.count ∧ seekPos offset whence s ≤ s.count ∧ -(s.ptr : ℤ) ≤ seekPos offset whence s

instance (offset whence : ℤ) (s : Stream) : Decidable (StaysInBuffer offset whence s) :=
  inferInstanceAs (Decidable (_ ∧ _))

/-- What `fseek` does when it has cleared the flags. -/
def seekCleared (offset whence : ℤ) (s : Stream) : ℤ × Stream :=
  if StaysInBuffer offset whence s then
    let pos := seekPos offset whence s
    (0, { s with ptr := (s.ptr + pos).toNat, count := (s.count - pos).toNat })
  else
    let offset := if whence < 2 ∧ whence ≠ 0 then long (offset - s.count) else offset
    let (pos, s) := lseek offset whence s
    (if pos = -1 then -1 else 0, { s with count := 0 })

def fseekRead (offset whence : ℤ) (s : Stream) : ℤ × Stream :=
  seekCleared offset whence { s with eofFlag := false }

def ftellRead (s : Stream) : ℤ × Stream :=
  let (result, s) := lseek 0 1 s
  (if result < 0 then result else result - s.count, s)

inductive ReadCall where
  | fgetc
  | ungetc (ch : ℤ)
  | fseek (offset whence : ℤ)
  | ftell

def readCall : ReadCall → Stream → ℤ × Stream
  | .fgetc, s => fgetc s
  | .ungetc ch, s => ungetc ch s
  | .fseek offset whence, s => fseekRead offset whence s
  | .ftell, s => ftellRead s

/-! ## §3 Writing -/

/-- The stream has no error: `write` stores all that is in the buffer. -/
def writeBuffer (s : Stream) : Stream :=
  { s with
    file := writeBytes s.file s.offset ((List.range s.count).map s.buf)
    offset := s.offset + s.count
    ptr := 0
    count := 0 }

def fputc (ch : UInt8) (s : Stream) : ℤ × Stream :=
  let s := { s with buf := Function.update s.buf s.ptr ch, ptr := s.ptr + 1, count := s.count + 1 }
  (ch.toNat, if bufsiz ≤ s.count then writeBuffer s else s)

def fflush (s : Stream) : ℤ × Stream := if s.count = 0 then (0, s) else (s.count, writeBuffer s)

def fseekWrite (offset whence : ℤ) (s : Stream) : ℤ × Stream :=
  let (pos, s) := lseek offset whence (fflush s).2
  (if pos = -1 then -1 else 0, s)

def ftellWrite (s : Stream) : ℤ × Stream :=
  let (result, s) := lseek 0 1 s
  (if result < 0 then result else long (result + s.ptr), s)

inductive WriteCall where
  | fputc (ch : UInt8)
  | fflush
  | fseek (offset whence : ℤ)
  | ftell

def writeCall : WriteCall → Stream → ℤ × Stream
  | .fputc ch, s => fputc ch s
  | .fflush, s => fflush s
  | .fseek offset whence, s => fseekWrite offset whence s
  | .ftell, s => ftellWrite s

end LisaMinix.Libc
