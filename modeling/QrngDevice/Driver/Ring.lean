import Mathlib.Data.UInt
import Mathlib.Logic.Function.Basic

/-!
# The ring of `kernelspace/qrng-driver.c`

The driver keeps its bytes in `qrng_buffer`, a flag for each of them in `qrng_buff_ready`, and two
cursors. Only two functions change them, each in one section under `buff_mutex`: `get_random_byte`
takes the byte under the read cursor, and `write_random_bytes_qrng` appends bytes from an
`iov_iter` until the ring is full, the source is used up, or a copy fails. This module is their
sections, as functions on the state of the ring. The test `mutex_is_locked(&buff_mutex) == 0` after
`mutex_lock` never succeeds, so its branch has no counterpart here.

The driver moves bytes and never looks at one: the type `β` of bytes is a parameter with a zero, the
value that a taken slot is cleared to. The code is `β = UInt8`; other types label the bytes.
-/

namespace QrngDevice

/-- The number of slots of the ring. -/
abbrev BUFF_SIZE : ℕ := 1024

/-! ## Iterators over a caller's memory -/

/-- An `iov_iter` over one buffer of the caller: the source of a write or the destination of a
read. -/
structure IovIter (β : Type*) where
  /-- The bytes of the buffer. -/
  buf : List β
  /-- How many of them have been copied. -/
  off : ℕ
  /-- The offset of the first byte that cannot be accessed. -/
  limit : ℕ
  /-- Whether a copy has come back short. The driver does not read it. -/
  faulted : Bool
  deriving DecidableEq, Repr

section

variable {β : Type*}

/-- The iterator at the start of a buffer of which the first `limit` bytes are accessible. -/
def IovIter.start (buf : List β) (limit : ℕ) : IovIter β := ⟨buf, 0, limit, false⟩

/-- `iov_iter_count`: the number of bytes left. -/
def iovIterCount (it : IovIter β) : ℕ := it.buf.length - it.off

/-- `copy_to_iter` of one byte: the number of bytes copied, one or zero. A copy that fails leaves
the remaining count as it was. -/
def copyToIter (b : β) (it : IovIter β) : ℕ × IovIter β :=
  if it.off < it.buf.length ∧ it.off < it.limit then
    (1, { it with buf := it.buf.set it.off b, off := it.off + 1 })
  else
    -- The page is not there: nothing is copied, and the iterator stays where it is.
    (0, { it with faulted := true })

/-- `copy_from_iter` of one byte: the byte, unless the copy fails. -/
def copyFromIter (it : IovIter β) : Option β × IovIter β :=
  match it.buf[it.off]? with
  | some b =>
    if it.off < it.limit then (some b, { it with off := it.off + 1 })
    else (none, { it with faulted := true })
  | none => (none, { it with faulted := true })

end

/-! ## The ring -/

/-- `qrng_buffer`, `qrng_buff_ready`, and the two cursors. -/
structure RingBuffer (β : Type*) where
  /-- The bytes. -/
  qrngBuffer : ℕ → β
  /-- Which bytes are ready to be read. -/
  qrngBuffReady : ℕ → Bool
  /-- The read cursor. -/
  qrngBuffReadIt : ℕ
  /-- The write cursor. -/
  qrngBuffWriteIt : ℕ

namespace RingBuffer

variable {β : Type*}

/-- The ring when the module is loaded: zeroed static storage. -/
def init [Zero β] : RingBuffer β := ⟨fun _ => 0, fun _ => false, 0, 0⟩

/-- `read_ready`: the flag under the read cursor. -/
def readReady (r : RingBuffer β) : Bool := r.qrngBuffReady r.qrngBuffReadIt

/-- `write_ready`: the flag under the write cursor, negated. -/
def writeReady (r : RingBuffer β) : Bool := !r.qrngBuffReady r.qrngBuffWriteIt

/-- The section of `get_random_byte`: the byte under the read cursor and the ring without it, or
`none` where the function returns 0. -/
def getRandomByte [Zero β] (r : RingBuffer β) : Option (β × RingBuffer β) :=
  if r.readReady then
    some (r.qrngBuffer r.qrngBuffReadIt,
      { r with
        qrngBuffReady := Function.update r.qrngBuffReady r.qrngBuffReadIt false
        qrngBuffer := Function.update r.qrngBuffer r.qrngBuffReadIt 0
        qrngBuffReadIt := (r.qrngBuffReadIt + 1) % BUFF_SIZE })
  else none

/-- One byte stored under the write cursor, as the loop of `write_random_bytes_qrng` does. -/
def put (r : RingBuffer β) (b : β) : RingBuffer β :=
  { r with
    qrngBuffer := Function.update r.qrngBuffer r.qrngBuffWriteIt b
    qrngBuffReady := Function.update r.qrngBuffReady r.qrngBuffWriteIt true
    qrngBuffWriteIt := (r.qrngBuffWriteIt + 1) % BUFF_SIZE }

/-- What the section of `write_random_bytes_qrng` works on: `ret`, the ring, and the iterator. -/
structure WriteState (β : Type*) where
  /-- The number of bytes appended. -/
  ret : ℕ
  /-- The ring. -/
  ring : RingBuffer β
  /-- The source. -/
  iter : IovIter β

/-- The loop of `write_random_bytes_qrng`, for at most as many rounds as its first argument. -/
def writeLoop : ℕ → WriteState β → WriteState β
  | 0, s => s
  | rounds + 1, s =>
    if s.ring.writeReady ∧ iovIterCount s.iter ≠ 0 then
      match copyFromIter s.iter with
      -- `copied != sizeof(byte)`: the loop ends.
      | (none, it) => { s with iter := it }
      | (some b, it) => writeLoop rounds ⟨s.ret + 1, s.ring.put b, it⟩
    else s

/-- The section of `write_random_bytes_qrng`. Every round of its loop uses up a byte of the source
or ends it, so the bytes left bound the rounds. -/
def writeRandomBytesQrng (r : RingBuffer β) (it : IovIter β) : WriteState β :=
  -- The test of `write_ready` under the mutex, before the loop.
  if r.writeReady then writeLoop (iovIterCount it) ⟨0, r, it⟩ else ⟨0, r, it⟩

end RingBuffer

end QrngDevice
