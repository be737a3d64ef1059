import QrngDevice.Lib.CyclicBuffer
import QrngDevice.Lib.Fifo
import QrngDevice.Driver.Ring

/-!
# The ring is a bounded queue

`RingBuffer.Represents r q` says that the ring's flags and cursors hold the queue `q` and that every
slot without a byte is zero. The initial ring represents the empty queue, and each of the two
sections keeps a representation and acts on the queue as the operations of `Fifo` do:
`getRandomByte` removes the head (`getRandomByte_eq_none_iff`, `getRandomByte_of_cons`) and
`writeRandomBytesQrng` appends the longest prefix of its source that is readable and fits
(`writeRandomBytesQrng_spec`). `ring_refines_fifo` puts them together for any sequence of sections, and
`ring_layout` says where the ring keeps its bytes after it.
-/

namespace QrngDevice

open CyclicBuffer

variable {β : Type*}

/-! ## Iterators -/

namespace IovIter

/-- The bytes that can still be copied from the iterator. -/
def readable (it : IovIter β) : List β := (it.buf.take it.limit).drop it.off

/-- At most as many bytes are readable as are left. -/
theorem length_readable (it : IovIter β) :
    it.readable.length = min it.limit it.buf.length - it.off := by
  rw [readable, List.length_drop, List.length_take]

/-- The first readable bytes of a source are its next bytes. -/
theorem take_readable (it : IovIter β) (m : ℕ) :
    it.readable.take m = (it.buf.drop it.off).take (it.readable.take m).length := by
  have hpre : it.readable <+: it.buf.drop it.off := by
    rw [readable, List.drop_take]
    exact List.take_prefix _ _
  exact List.prefix_iff_eq_take.mp ((List.take_prefix m _).trans hpre)

/-- The iterator after `m` bytes have been copied from it. -/
def skip (it : IovIter β) (m : ℕ) : IovIter β := { it with off := it.off + m }

@[simp] theorem skip_zero (it : IovIter β) : it.skip 0 = it := rfl

@[simp] theorem skip_skip (it : IovIter β) (m n : ℕ) : (it.skip m).skip n = it.skip (m + n) := by
  simp [skip, Nat.add_assoc]

end IovIter

/-- While a byte is readable, `copy_from_iter` copies it. -/
theorem copyFromIter_of_readable {it : IovIter β} {b : β} {bs : List β}
    (h : it.readable = b :: bs) :
    copyFromIter it = (some b, it.skip 1) ∧ (it.skip 1).readable = bs ∧ iovIterCount it ≠ 0 := by
  have hlen := it.length_readable
  rw [h, List.length_cons] at hlen
  -- The first readable byte is the next byte of the buffer.
  have hb : it.buf[it.off]? = some b := by
    have h0 : it.readable[0]? = some b := by rw [h]; rfl
    rw [IovIter.readable, List.getElem?_drop, List.getElem?_take_of_lt (by omega)] at h0
    exact h0
  refine ⟨?_, ?_, ?_⟩
  · simp only [copyFromIter, hb]
    rw [if_pos (by omega)]
    rfl
  · have htail : it.readable.tail = bs := by rw [h]; rfl
    rw [← htail, IovIter.readable, IovIter.readable, List.tail_drop]
    rfl
  · unfold iovIterCount
    omega

/-- With no byte readable, `copy_from_iter` fails. -/
theorem copyFromIter_of_readable_nil {it : IovIter β} (h : it.readable = []) :
    copyFromIter it = (none, { it with faulted := true }) := by
  have hlen := it.length_readable
  rw [h, List.length_nil] at hlen
  unfold copyFromIter
  -- The next byte is beyond the end of the buffer, or beyond the limit.
  cases hb : it.buf[it.off]? with
  | none => rfl
  | some b =>
    have hoff := (List.getElem?_eq_some_iff.mp hb).1
    simp only
    rw [if_neg (by omega)]

namespace RingBuffer

/-! ## Representation -/

/-- What a slot holds: its byte if it is ready. -/
def slot (r : RingBuffer β) (i : ℕ) : Option β :=
  if r.qrngBuffReady i then some (r.qrngBuffer i) else none

/-- The bytes of the ring, from the read cursor on. -/
def contents (r : RingBuffer β) : List β :=
  CyclicBuffer.contents BUFF_SIZE r.slot r.qrngBuffReadIt

/-- The ring holds the queue `q`, and the slots that hold nothing are zero. -/
structure Represents [Zero β] (r : RingBuffer β) (q : List β) : Prop where
  /-- Flags, bytes, and cursors are those of the queue. -/
  holds : Holds BUFF_SIZE r.slot r.qrngBuffReadIt r.qrngBuffWriteIt q
  /-- A slot that is not ready is zero. -/
  erased : ∀ i, r.qrngBuffReady i = false → r.qrngBuffer i = 0

variable [Zero β] {r : RingBuffer β} {q : List β}

/-- The initial ring represents the empty queue. -/
theorem represents_init : (init : RingBuffer β).Represents [] :=
  ⟨holds_empty (by simp [init]) fun _ => rfl, fun _ _ => rfl⟩

/-- A ring's contents are the queue that it represents. -/
theorem Represents.contents_eq (h : r.Represents q) : r.contents = q := h.holds.contents_eq

/-- `read_ready` tests for a byte in the queue. -/
theorem Represents.readReady_iff (h : r.Represents q) : r.readReady = true ↔ q ≠ [] := by
  have hs := h.holds.slot_read
  unfold slot at hs
  unfold readReady
  -- The flag under the cursor is set exactly if the slot holds a byte.
  cases hr : r.qrngBuffReady r.qrngBuffReadIt with
  | true =>
    rw [hr, if_pos rfl] at hs
    simp only [true_iff]
    rintro rfl
    simp at hs
  | false =>
    rw [hr, if_neg (by simp)] at hs
    simpa using hs.symm

/-- `write_ready` tests for a free slot. -/
theorem Represents.writeReady_iff (h : r.Represents q) :
    r.writeReady = true ↔ q.length < BUFF_SIZE := by
  rw [← h.holds.slot_write_eq_none_iff, slot, writeReady]
  cases r.qrngBuffReady r.qrngBuffWriteIt <;> simp

/-! ## The layout of the ring -/

omit [Zero β] in
/-- A slot holds something exactly if it is ready. -/
theorem isSome_slot (r : RingBuffer β) (i : ℕ) :
    (r.slot i).isSome = true ↔ r.qrngBuffReady i = true := by
  unfold slot
  cases r.qrngBuffReady i <;> simp

/-- Where a ring of `len` bytes keeps them: in the cyclic run of `len` slots from the read cursor to
the write cursor. -/
structure Layout (r : RingBuffer β) (len : ℕ) : Prop where
  /-- The bytes fit. -/
  le : len ≤ BUFF_SIZE
  /-- The read cursor is a slot. -/
  readIt_lt : r.qrngBuffReadIt < BUFF_SIZE
  /-- The write cursor is a slot. -/
  writeIt_lt : r.qrngBuffWriteIt < BUFF_SIZE
  /-- The slots that are ready are those of the run. -/
  ready_iff : ∀ i < BUFF_SIZE, r.qrngBuffReady i = true ↔
    ∃ j < len, (r.qrngBuffReadIt + j) % BUFF_SIZE = i
  /-- The write cursor stands just after the run. -/
  writeIt_eq : r.qrngBuffWriteIt = (r.qrngBuffReadIt + len) % BUFF_SIZE
  /-- The cursors are equal exactly when the ring is empty or full. -/
  cursors_eq_iff : r.qrngBuffReadIt = r.qrngBuffWriteIt ↔ len = 0 ∨ len = BUFF_SIZE
  /-- A slot that is not ready is zero: a byte that has been handed out is no longer in the ring. -/
  erased : ∀ i < BUFF_SIZE, r.qrngBuffReady i = false → r.qrngBuffer i = 0
  /-- `read_ready` tests for a byte. -/
  readReady_iff : r.readReady = true ↔ 0 < len
  /-- `write_ready` tests for a free slot. -/
  writeReady_iff : r.writeReady = true ↔ len < BUFF_SIZE

/-- A ring that represents a queue has the layout for its length. -/
theorem Represents.layout (h : r.Represents q) : r.Layout q.length where
  le := h.holds.length_le
  readIt_lt := h.holds.read_lt
  writeIt_lt := h.holds.write_lt
  ready_iff i hi := by
    rw [← isSome_slot]
    exact h.holds.isSome_iff hi
  writeIt_eq := h.holds.write_eq
  cursors_eq_iff := h.holds.cursors_eq_iff
  erased i _ := h.erased i
  readReady_iff := by
    rw [h.readReady_iff]
    exact List.length_pos_iff.symm
  writeReady_iff := h.writeReady_iff

omit [Zero β] in
/-- How many slots are free. -/
def freeSlots (r : RingBuffer β) : ℕ := (List.range BUFF_SIZE).countP fun i => !r.qrngBuffReady i

/-- A ring has room for what is missing from the queue to its capacity. -/
theorem Represents.freeSlots_eq (h : r.Represents q) : r.freeSlots = BUFF_SIZE - q.length := by
  have hready : (List.range BUFF_SIZE).countP (fun i => r.qrngBuffReady i) = q.length := by
    rw [← h.holds.countP_isSome]
    refine List.countP_congr fun i _ => ?_
    exact (isSome_slot r i).symm
  have hall := List.length_eq_countP_add_countP (fun i => r.qrngBuffReady i)
    (l := List.range BUFF_SIZE)
  rw [List.length_range, hready] at hall
  have hfree : r.freeSlots = (List.range BUFF_SIZE).countP fun i => ¬ r.qrngBuffReady i := by
    refine List.countP_congr fun i _ => ?_
    simp
  rw [hfree]
  omega

/-! ## Taking a byte -/

/-- `get_random_byte` returns 0 exactly when the queue is empty. -/
theorem Represents.getRandomByte_eq_none_iff (h : r.Represents q) :
    r.getRandomByte = none ↔ q = [] := by
  have hready := h.readReady_iff
  unfold getRandomByte
  cases hr : r.readReady with
  | true => simpa using hready.mp hr
  | false => simpa [hr] using hready

/-- The slots after a byte has been taken. -/
theorem slot_of_getRandomByte {b : β} {r' : RingBuffer β} (h : r.getRandomByte = some (b, r')) :
    r'.slot = Function.update r.slot r.qrngBuffReadIt none := by
  unfold getRandomByte at h
  split_ifs at h
  cases h
  funext i
  -- Only the slot under the read cursor changes.
  rcases eq_or_ne i r.qrngBuffReadIt with rfl | hi
  · simp [slot]
  · simp [slot, hi]

/-- On a nonempty queue, `get_random_byte` yields its head and removes it. -/
theorem Represents.getRandomByte_of_cons {b : β} {bs : List β} (h : r.Represents (b :: bs)) :
    ∃ r', r.getRandomByte = some (b, r') ∧ r'.Represents bs := by
  have hready : r.readReady = true := h.readReady_iff.mpr (by simp)
  have hb : r.qrngBuffer r.qrngBuffReadIt = b := by
    have hs := h.holds.slot_read
    rw [slot, if_pos (show r.qrngBuffReady r.qrngBuffReadIt = true from hready)] at hs
    simpa using hs
  -- So the section takes `b`, and this is the ring that it leaves.
  have hget : r.getRandomByte = some (b, { r with
      qrngBuffReady := Function.update r.qrngBuffReady r.qrngBuffReadIt false
      qrngBuffer := Function.update r.qrngBuffer r.qrngBuffReadIt 0
      qrngBuffReadIt := (r.qrngBuffReadIt + 1) % BUFF_SIZE }) := by
    rw [getRandomByte, if_pos hready, hb]
  refine ⟨_, hget, ?_, ?_⟩
  · rw [slot_of_getRandomByte hget]
    exact h.holds.pop
  · intro i hi
    rcases eq_or_ne i r.qrngBuffReadIt with rfl | hne
    · simp
    · simp only [Function.update_of_ne hne] at hi ⊢
      exact h.erased i hi

/-- What `get_random_byte` yields is the head of the queue, and it removes it. -/
theorem Represents.of_getRandomByte {b : β} {r' : RingBuffer β} (h : r.Represents q)
    (hget : r.getRandomByte = some (b, r')) : ∃ bs, q = b :: bs ∧ r'.Represents bs := by
  rcases q with _ | ⟨b', bs⟩
  · rw [h.getRandomByte_eq_none_iff.mpr rfl] at hget
    cases hget
  · obtain ⟨r'', hget', hrep⟩ := h.getRandomByte_of_cons
    rw [hget'] at hget
    cases hget
    exact ⟨bs, rfl, hrep⟩

/-! ## Appending bytes -/

omit [Zero β] in
/-- The slots after a byte has been stored. -/
theorem slot_put (r : RingBuffer β) (b : β) :
    (r.put b).slot = Function.update r.slot r.qrngBuffWriteIt (some b) := by
  funext i
  rcases eq_or_ne i r.qrngBuffWriteIt with rfl | hi
  · simp [slot, put]
  · simp [slot, put, hi]

/-- Storing a byte appends it to a queue that is not full. -/
theorem Represents.put (h : r.Represents q) (hlt : q.length < BUFF_SIZE) (b : β) :
    (r.put b).Represents (q ++ [b]) := by
  refine ⟨?_, ?_⟩
  · rw [slot_put]
    exact h.holds.push hlt b
  · intro i hi
    rcases eq_or_ne i r.qrngBuffWriteIt with rfl | hne
    · simp [RingBuffer.put] at hi
    · simp only [RingBuffer.put, Function.update_of_ne hne] at hi ⊢
      exact h.erased i hi

/-- From a state `s` whose ring represents `q`, the section's loop has gone to `s'` and appended `xs`
on its way. -/
structure Appends (q : List β) (s : WriteState β) (xs : List β) (s' : WriteState β) : Prop where
  /-- The count has grown by the bytes appended. -/
  ret : s'.ret = s.ret + xs.length
  /-- The queue has grown by the bytes appended. -/
  represents : s'.ring.Represents (q ++ xs)
  /-- The read cursor has not moved. -/
  readIt : s'.ring.qrngBuffReadIt = s.ring.qrngBuffReadIt
  /-- The source is the same. -/
  buf : s'.iter.buf = s.iter.buf
  /-- The readable part of the source is the same. -/
  limit : s'.iter.limit = s.iter.limit
  /-- The iterator has moved past the bytes appended. -/
  off : s'.iter.off = s.iter.off + xs.length
  /-- A copy has failed exactly when it was tried: with bytes still wanted and the ring not full. -/
  faulted : s'.iter.faulted = true ↔ s.iter.faulted = true ∨
    q.length + xs.length < BUFF_SIZE ∧ s.iter.off + xs.length < s.iter.buf.length

/-- A loop that stops at once has appended nothing. -/
theorem Represents.appends_nil {s : WriteState β} (h : s.ring.Represents q)
    (hstop : ¬ (q.length < BUFF_SIZE ∧ s.iter.off < s.iter.buf.length)) : Appends q s [] s where
  ret := rfl
  represents := by simpa using h
  readIt := rfl
  buf := rfl
  limit := rfl
  off := rfl
  faulted := by
    simp only [List.length_nil, Nat.add_zero]
    exact ⟨Or.inl, fun hf => hf.resolve_right hstop⟩

/-- One round that stores a byte, and then the rest of the loop. -/
theorem Appends.cons {s s' : WriteState β} {b : β} {xs : List β}
    (h : Appends (q ++ [b]) ⟨s.ret + 1, s.ring.put b, s.iter.skip 1⟩ xs s') :
    Appends q s (b :: xs) s' where
  ret := by
    rw [h.ret, List.length_cons, Nat.add_assoc, Nat.add_comm 1]
  represents := by simpa using h.represents
  readIt := h.readIt
  buf := h.buf
  limit := h.limit
  off := by
    rw [h.off, List.length_cons, IovIter.skip, Nat.add_assoc, Nat.add_comm 1]
  faulted := by
    rw [h.faulted]
    simp only [IovIter.skip, List.length_append, List.length_cons, List.length_nil]
    rw [Nat.add_assoc q.length, Nat.add_assoc s.iter.off, Nat.zero_add, Nat.add_comm 1 xs.length]

/-- The loop of `write_random_bytes_qrng` appends the longest prefix of the source that is readable
and fits. -/
theorem Represents.writeLoop_spec (rounds : ℕ) {s : WriteState β} (h : s.ring.Represents q)
    (hrounds : iovIterCount s.iter ≤ rounds) :
    Appends q s (s.iter.readable.take (BUFF_SIZE - q.length)) (writeLoop rounds s) := by
  induction rounds generalizing s q with
  | zero =>
    -- With no round left, nothing of the source is left.
    have hlen := s.iter.length_readable
    unfold iovIterCount at hrounds
    rw [List.eq_nil_of_length_eq_zero (by omega : s.iter.readable.length = 0), List.take_nil]
    exact h.appends_nil (by omega)
  | succ rounds ih =>
    have hlen := s.iter.length_readable
    rw [writeLoop]
    split_ifs with hgo
    · obtain ⟨hw, hcount⟩ := hgo
      have hlt : q.length < BUFF_SIZE := h.writeReady_iff.mp hw
      rcases hread : s.iter.readable with _ | ⟨b, bs⟩
      · -- The next byte of the source faults.
        unfold iovIterCount at hcount
        rw [copyFromIter_of_readable_nil hread, List.take_nil]
        refine ⟨rfl, by simpa using h, rfl, rfl, rfl, rfl, ?_⟩
        simp only [List.length_nil, Nat.add_zero, true_iff]
        exact Or.inr ⟨hlt, by omega⟩
      · -- One byte is copied and stored, and the loop goes on.
        obtain ⟨hcopy, htail, -⟩ := copyFromIter_of_readable hread
        rw [hcopy]
        have hrest := ih (s := ⟨s.ret + 1, s.ring.put b, s.iter.skip 1⟩) (h.put hlt b)
          (by simp only [iovIterCount, IovIter.skip] at hrounds ⊢; omega)
        rw [htail, List.length_append, List.length_singleton] at hrest
        rw [show BUFF_SIZE - q.length = BUFF_SIZE - (q.length + 1) + 1 by omega,
          List.take_succ_cons]
        exact hrest.cons
    · -- The ring is full, or nothing is left of the source.
      have hstop : ¬ (q.length < BUFF_SIZE ∧ s.iter.off < s.iter.buf.length) := by
        rintro ⟨hlt, hoff⟩
        exact hgo ⟨h.writeReady_iff.mpr hlt, by unfold iovIterCount; omega⟩
      have hnil : s.iter.readable.take (BUFF_SIZE - q.length) = [] := by
        apply List.eq_nil_of_length_eq_zero
        rw [List.length_take]
        omega
      rw [hnil]
      exact h.appends_nil hstop

/-- The section of `write_random_bytes_qrng` appends the longest prefix of its source that is
readable and fits. -/
theorem Represents.writeRandomBytesQrng_spec (h : r.Represents q) (it : IovIter β) :
    Appends q ⟨0, r, it⟩ (it.readable.take (BUFF_SIZE - q.length)) (r.writeRandomBytesQrng it) := by
  unfold writeRandomBytesQrng
  split_ifs with hw
  · exact h.writeLoop_spec _ le_rfl
  · have hfull : ¬ q.length < BUFF_SIZE := fun hlt => hw (h.writeReady_iff.mpr hlt)
    rw [show BUFF_SIZE - q.length = 0 by omega, List.take_zero]
    exact h.appends_nil fun hlt => hfull hlt.1

omit [Zero β] in
/-- The loop never counts down, and if it counts nothing it has left the ring alone. -/
theorem writeLoop_ring (rounds : ℕ) (s : WriteState β) :
    s.ret ≤ (writeLoop rounds s).ret ∧
      ((writeLoop rounds s).ret = s.ret → (writeLoop rounds s).ring = s.ring) := by
  induction rounds generalizing s with
  | zero => exact ⟨le_rfl, fun _ => rfl⟩
  | succ rounds ih =>
    rw [writeLoop]
    split_ifs
    · rcases copyFromIter s.iter with ⟨_ | b, it⟩
      · exact ⟨le_rfl, fun _ => rfl⟩
      · have hle := (ih ⟨s.ret + 1, s.ring.put b, it⟩).1
        simp only at hle ⊢
        exact ⟨by omega, fun h => by omega⟩
    · exact ⟨le_rfl, fun _ => rfl⟩

omit [Zero β] in
/-- A write section that reports nothing has left the ring alone. -/
theorem writeRandomBytesQrng_of_ret_eq_zero {r : RingBuffer β} {it : IovIter β}
    (h : (r.writeRandomBytesQrng it).ret = 0) : (r.writeRandomBytesQrng it).ring = r := by
  unfold writeRandomBytesQrng at h ⊢
  split_ifs with hw
  · rw [if_pos hw] at h
    exact (writeLoop_ring _ ⟨0, r, it⟩).2 h
  · rfl

/-! ## Sequences of sections -/

/-- A section under `buff_mutex`: that of `get_random_byte`, or that of `write_random_bytes_qrng` on
some source. Any process may be the one that runs it. -/
inductive Section (β : Type*)
  /-- `get_random_byte`. -/
  | getRandomByte
  /-- `write_random_bytes_qrng`. -/
  | writeRandomBytesQrng (it : IovIter β)

omit [Zero β] in
/-- What a section does to the queue: a take removes its head, and a write appends what fits of the
readable part of its source. -/
def Section.op : Section β → Fifo.Op β
  | .getRandomByte => .deq
  | .writeRandomBytesQrng it => .enq it.readable

/-- One section: the bytes that it takes, the bytes of its source that it counts as written, and the
ring that it leaves. -/
def step (r : RingBuffer β) : Section β → List β × List β × RingBuffer β
  | .getRandomByte =>
    match r.getRandomByte with
    | none => ([], [], r)
    | some (b, r') => ([b], [], r')
  | .writeRandomBytesQrng it =>
    let s := r.writeRandomBytesQrng it
    ([], (it.buf.drop it.off).take s.ret, s.ring)

/-- A sequence of sections: all bytes taken, in order of taking, all bytes written, in order of
writing, and the ring at the end. -/
def exec (r : RingBuffer β) : List (Section β) → List β × List β × RingBuffer β
  | [] => ([], [], r)
  | s :: ss =>
    let (out, inn, r') := r.step s
    let (outs, inns, r'') := r'.exec ss
    (out ++ outs, inn ++ inns, r'')

/-- One section does to a ring what its operation does to the queue that the ring represents. -/
theorem step_refines {q : Fifo β BUFF_SIZE} (h : r.Represents q.items) (s : Section β) :
    (r.step s).1 = (q.step s.op).1 ∧ (r.step s).2.1 = (q.step s.op).2.1 ∧
      (r.step s).2.2.Represents (q.step s.op).2.2.items := by
  cases s with
  | getRandomByte =>
    rcases hq : q.items with _ | ⟨b, bs⟩
    · have hnone := h.getRandomByte_eq_none_iff.mpr hq
      simp only [step, hnone, Section.op, Fifo.step, Fifo.deq_of_nil hq]
      exact ⟨trivial, trivial, h⟩
    · rw [hq] at h
      obtain ⟨r', hget, hrep⟩ := h.getRandomByte_of_cons
      obtain ⟨q', hdeq, hitems⟩ := Fifo.deq_of_cons hq
      simp only [step, hget, Section.op, Fifo.step, hdeq, hitems]
      exact ⟨trivial, trivial, hrep⟩
  | writeRandomBytesQrng it =>
    have hspec := h.writeRandomBytesQrng_spec it
    refine ⟨rfl, ?_, hspec.represents⟩
    simp only [step, Section.op, Fifo.step, Fifo.room]
    -- The bytes counted as written are those that the queue accepts.
    rw [hspec.ret, Nat.zero_add, ← it.take_readable]

/-- A sequence of sections does to a ring what their operations do to the queue that it
represents. -/
theorem exec_refines {q : Fifo β BUFF_SIZE} (h : r.Represents q.items) (ss : List (Section β)) :
    (r.exec ss).1 = (q.exec (ss.map Section.op)).1 ∧
      (r.exec ss).2.1 = (q.exec (ss.map Section.op)).2.1 ∧
      (r.exec ss).2.2.Represents (q.exec (ss.map Section.op)).2.2.items := by
  induction ss generalizing r q with
  | nil => exact ⟨rfl, rfl, h⟩
  | cons s ss ih =>
    -- The first section, then the rest from the ring that it leaves.
    obtain ⟨hout, hinn, hrep⟩ := step_refines h s
    obtain ⟨houts, hinns, hreps⟩ := ih hrep
    simp only [exec, List.map_cons, Fifo.exec]
    exact ⟨by rw [hout, houts], by rw [hinn, hinns], hreps⟩

/-- The ring is a bounded queue of capacity `BUFF_SIZE`. After any sequence of sections from the
initial ring, run by any processes and with sources that may fault anywhere, the ring holds what the
operations of the sections leave in the queue, and the sections have taken and written what the
operations removed and appended. A next `get_random_byte` returns 0 exactly when the queue is empty,
and otherwise yields its head and removes it. A next write section returns the length of the longest
prefix of its source that is readable and fits, and appends that prefix. All bytes taken, followed by
those in the ring, are all bytes written. -/
theorem ring_refines_fifo (ss : List (Section β)) :
    let r := ((init : RingBuffer β).exec ss).2.2
    let q := ((Fifo.empty : Fifo β BUFF_SIZE).exec (ss.map Section.op)).2.2
    (r.Represents q.items ∧ r.contents = q.items) ∧
      (init.exec ss).1 = ((Fifo.empty : Fifo β BUFF_SIZE).exec (ss.map Section.op)).1 ∧
      (init.exec ss).2.1 = ((Fifo.empty : Fifo β BUFF_SIZE).exec (ss.map Section.op)).2.1 ∧
      (r.getRandomByte = none ↔ q.items = []) ∧
      (∀ b bs, q.items = b :: bs → ∃ r', r.getRandomByte = some (b, r') ∧ r'.contents = bs) ∧
      (∀ it, (r.writeRandomBytesQrng it).ret = min q.room it.readable.length ∧
        (r.writeRandomBytesQrng it).ring.contents = q.items ++ it.readable.take q.room ∧
        (r.writeRandomBytesQrng it).iter.off = it.off + (r.writeRandomBytesQrng it).ret) ∧
      (init.exec ss).1 ++ r.contents = (init.exec ss).2.1 := by
  obtain ⟨hout, hinn, hrep⟩ := exec_refines (q := Fifo.empty) (represents_init (β := β)) ss
  have hcons := Fifo.exec_conservation (Fifo.empty : Fifo β BUFF_SIZE) (ss.map Section.op)
  refine ⟨⟨hrep, hrep.contents_eq⟩, hout, hinn, hrep.getRandomByte_eq_none_iff, ?_, ?_, ?_⟩
  · intro b bs hq
    rw [hq] at hrep
    obtain ⟨r', hget, hrep'⟩ := hrep.getRandomByte_of_cons
    exact ⟨r', hget, hrep'.contents_eq⟩
  · intro it
    have hspec := hrep.writeRandomBytesQrng_spec it
    have hret := hspec.ret
    rw [Nat.zero_add, List.length_take] at hret
    refine ⟨hret, hspec.represents.contents_eq, ?_⟩
    rw [hspec.off, hspec.ret, Nat.zero_add]
  · rw [hrep.contents_eq, hout, hinn, hcons]
    rfl

/-- After any sequence of sections from the initial ring, the ring is laid out as a cyclic run of
ready slots between its cursors, and all other slots are erased. The run has as many slots as bytes were
written less those that were taken. -/
theorem ring_layout (ss : List (Section β)) :
    ∃ len, ((init : RingBuffer β).exec ss).2.2.Layout len ∧
      ((init : RingBuffer β).exec ss).1.length + len = ((init : RingBuffer β).exec ss).2.1.length := by
  obtain ⟨hout, hinn, hrep⟩ := exec_refines (q := Fifo.empty) (represents_init (β := β)) ss
  have hcons := Fifo.exec_conservation (Fifo.empty : Fifo β BUFF_SIZE) (ss.map Section.op)
  refine ⟨_, hrep.layout, ?_⟩
  rw [hout, hinn, ← List.length_append, hcons]
  rfl

end RingBuffer

end QrngDevice
