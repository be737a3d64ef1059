import QrngDevice.Driver.ReadNonblocking

/-!
# A read alone is a bulk dequeue

`RingBuffer.dequeue m` clears the first `m` slots of the ring at once and moves the read cursor past
them. A read takes its bytes one by one and locks the ring anew for each. `read_is_bulk_dequeue` says
that this comes to the same, if no other process moves in between: for a queue `q` in the ring and a
destination of `n` bytes, the ring afterwards is the one that `dequeue` leaves, for the least of `n` and
the length of `q`, and the destination starts with the bytes dequeued. So a read of `a` bytes and one of
`b` bytes after it are a read of `a + b` bytes.

`SoloRead` describes such a read on its way, and `SoloRead.step` follows it.
-/

namespace QrngDevice

open Runs RingBuffer CyclicBuffer

variable {β : Type*}

/-! ## Bulk dequeue -/

namespace RingBuffer

variable [Zero β]

/-- The ring with its first `m` slots cleared, and the read cursor after them. -/
def dequeue (m : ℕ) (r : RingBuffer β) : RingBuffer β :=
  { r with
    qrngBuffReady := overwrite BUFF_SIZE r.qrngBuffReadIt m false r.qrngBuffReady
    qrngBuffer := overwrite BUFF_SIZE r.qrngBuffReadIt m 0 r.qrngBuffer
    qrngBuffReadIt := place BUFF_SIZE r.qrngBuffReadIt m }

variable {r r' : RingBuffer β} {q : List β} {m : ℕ}

/-- To dequeue nothing changes nothing. -/
theorem dequeue_zero (h : r.qrngBuffReadIt < BUFF_SIZE) : r.dequeue 0 = r := by
  rw [dequeue, overwrite_zero, overwrite_zero, place_zero h]

/-- To dequeue one byte is to take it. -/
theorem dequeue_one (h : r.qrngBuffReadIt < BUFF_SIZE) {b : β}
    (hget : r.getRandomByte = some (b, r')) : r.dequeue 1 = r' := by
  unfold getRandomByte at hget
  split_ifs at hget with hready
  simp only [Option.some.injEq, Prod.mk.injEq] at hget
  rw [dequeue, overwrite_one h, overwrite_one h]
  exact hget.2

/-- To dequeue `m` and then `n` bytes is to dequeue `m + n`. -/
theorem dequeue_add (r : RingBuffer β) (m n : ℕ) : (r.dequeue m).dequeue n = r.dequeue (m + n) := by
  simp only [dequeue, overwrite_add, place_place]

/-- A ring that has dequeued `m` bytes represents the rest of the queue. -/
theorem Represents.dequeue (h : r.Represents q) (hm : m ≤ q.length) :
    (r.dequeue m).Represents (q.drop m) := by
  induction m with
  | zero => rwa [dequeue_zero h.holds.read_lt]
  | succ m ih =>
    have hrep := ih (by omega)
    rw [List.drop_eq_getElem_cons (by omega)] at hrep
    obtain ⟨r', hget, hrep'⟩ := hrep.getRandomByte_of_cons
    rwa [← dequeue_add, dequeue_one hrep.holds.read_lt hget]

end RingBuffer

variable [Zero β] {nb : Bool} {buf : List β} {limit : ℕ} {q : List β} {r₀ r : RingBuffer β}
  {P : Proc β} {xs : List β}

/-! ## The steps of a read alone -/

/-- A read into `buf` that no other process has come between, from the ring `r₀` with the queue `q`.
The ring is `r` now, and the read has taken `xs`. -/
structure SoloRead (nb : Bool) (buf : List β) (limit : ℕ) (q : List β) (r₀ r : RingBuffer β)
    (P : Proc β) (xs : List β) : Prop where
  /-- The read has taken `xs`. -/
  phase : ReadPhase nb buf limit P xs
  /-- These are the first bytes of the queue. -/
  isPrefix : xs <+: q
  /-- They have been dequeued, and nothing else has happened to the ring. -/
  ring_eq : r = r₀.dequeue xs.length
  /-- The read is at its first test, with the current cursor if it has loaded one; or the queue is not
  empty, and the read is before a take or has a byte in hand. -/
  place : ∀ c pc, P = .read c pc → pc = .testCursor ∨ pc = .testFlag r.qrngBuffReadIt ∨
    q ≠ [] ∧ (pc = .take ∨ pc.held.isSome = true)
  /-- When it has returned, it has returned `-EAGAIN` for the empty queue, and otherwise the number of
  bytes that a bulk dequeue yields. -/
  complete : ∀ v, P.Returns v → v = if q = [] then -EAGAIN else (min buf.length q.length : ℕ)

/-- The ring has the rest of the queue. -/
theorem SoloRead.represents (h : SoloRead nb buf limit q r₀ r P xs) (hrep : r₀.Represents q) :
    r.Represents (q.drop xs.length) := by
  rw [h.ring_eq]
  exact hrep.dequeue h.isPrefix.length_le

/-- Such a read does not wait. -/
theorem SoloRead.not_waits (h : SoloRead nb buf limit q r₀ r P xs) : P.waits = false := by
  rcases P with _ | ⟨c, pc⟩ | ⟨c, pc⟩ | ⟨c, pc⟩ | res
  · rfl
  · rcases h.place c pc rfl with rfl | rfl | ⟨-, rfl | hpc⟩
    · rfl
    · rfl
    · rfl
    · cases pc <;> simp [ReadPc.held, Proc.waits, ReadPc.waiting] at hpc ⊢
  · rfl
  · rfl
  · rfl

/-- Past its first test, such a read has found a queue that is not empty. -/
theorem SoloRead.ne_nil {c : ReadCall β} {pc : ReadPc β}
    (h : SoloRead nb buf limit q r₀ r (.read c pc) xs) (hpc : pc = .take ∨ pc.held.isSome = true) :
    q ≠ [] := by
  rcases h.place c pc rfl with rfl | rfl | ⟨hq, -⟩
  · simp [ReadPc.held] at hpc
  · simp [ReadPc.held] at hpc
  · exact hq

/-- A step of a read takes a byte, or leaves the ring alone. -/
theorem ReadPhase.step_section (h : ReadPhase nb buf limit P xs) (r : RingBuffer β) :
    (P.step r).taken = [] ∧ (P.step r).ring = r ∨
      ∃ b r', r.getRandomByte = some (b, r') ∧ (P.step r).taken = [b] ∧ (P.step r).ring = r' := by
  obtain ⟨htaken, -, hring⟩ := P.step_exec r
  rw [htaken, hring]
  rcases P with _ | ⟨c, pc⟩ | ⟨c, pc⟩ | ⟨c, pc⟩ | res
  · exact Or.inl ⟨rfl, rfl⟩
  · cases pc with
    | take =>
      simp only [Proc.sections, exec, RingBuffer.step]
      cases r.getRandomByte with
      | none => exact Or.inl ⟨rfl, rfl⟩
      | some br => exact Or.inr ⟨br.1, br.2, rfl, rfl, rfl⟩
    | _ => exact Or.inl ⟨rfl, rfl⟩
  · cases h
  · cases h
  · exact Or.inl ⟨rfl, rfl⟩

/-- A step takes the next byte of the queue, or nothing. -/
theorem SoloRead.step_taken (h : SoloRead nb buf limit q r₀ r P xs) (hrep : r₀.Represents q) :
    xs ++ (P.step r).taken <+: q ∧
      (P.step r).ring = r₀.dequeue (xs ++ (P.step r).taken).length := by
  rcases h.phase.step_section r with ⟨htaken, hring⟩ | ⟨b, r', hget, htaken, hring⟩
  · rw [htaken, hring, List.append_nil]
    exact ⟨h.isPrefix, h.ring_eq⟩
  · have hrest := h.represents hrep
    obtain ⟨bs, hq, -⟩ := hrest.of_getRandomByte hget
    rw [htaken, hring]
    constructor
    · -- The byte is the head of what is left of the queue.
      have hsplit : xs ++ b :: bs = q := by
        rw [← hq]
        exact (List.prefix_append_drop h.isPrefix).symm
      exact ⟨bs, by rw [← hsplit, List.append_assoc]; rfl⟩
    · have hone := dequeue_one hrest.holds.read_lt hget
      rw [h.ring_eq, dequeue_add] at hone
      rw [List.length_append]
      exact hone.symm

omit [Zero β] in
/-- The head of the loop is before a take, or a return. -/
theorem ReadCall.loop_eq_read {c c' : ReadCall β} {pc : ReadPc β} (h : c.loop = .read c' pc) :
    pc = .take := by
  unfold ReadCall.loop at h
  split_ifs at h
  cases h
  rfl

/-- Where a step takes such a read. -/
theorem SoloRead.step_place (h : SoloRead nb buf limit q r₀ r P xs) (hrep : r₀.Represents q)
    (hbuf : buf ≠ []) (hlimit : buf.length ≤ limit) (hmode : nb = true ∨ buf.length ≤ q.length)
    (c' : ReadCall β) (pc' : ReadPc β) (heq : (P.step r).proc = .read c' pc') :
    pc' = .testCursor ∨ pc' = .testFlag (P.step r).ring.qrngBuffReadIt ∨
      q ≠ [] ∧ (pc' = .take ∨ pc'.held.isSome = true) := by
  have hready := (h.represents hrep).readReady_iff
  have hempty := (h.represents hrep).getRandomByte_eq_none_iff
  have hlen := List.length_pos_iff.mpr hbuf
  have hphase := h.phase
  have hprefix := h.isPrefix
  cases hphase with
  | @start c pc _ hpc hnb hit hret hxs =>
    rcases h.place c pc rfl with rfl | rfl | ⟨-, hpc'⟩
    · -- The cursor is loaded.
      cases heq
      exact Or.inr (Or.inl rfl)
    · -- The flag under it is set, or the read is a blocking one, and then the queue is long enough.
      simp only [Proc.step, ReadCall.step] at heq
      split_ifs at heq with hagain hcount
      refine Or.inr (Or.inr ⟨?_, Or.inl (ReadCall.loop_eq_read heq)⟩)
      rintro rfl
      have hflag : r.qrngBuffReady r.qrngBuffReadIt = false := by
        rw [← Bool.not_eq_true]
        intro hflag
        exact hready.mp hflag List.drop_nil
      rcases hmode with hmode | hmode
      · simp [hflag, hnb, hmode] at hagain
      · rw [List.length_nil] at hmode
        omega
    · rcases hpc with rfl | ⟨k, rfl⟩ <;> simp [ReadPc.held] at hpc'
  | @take c _ hnb hit hlt hret =>
    have hq : q ≠ [] := h.ne_nil (Or.inl rfl)
    simp only [Proc.step, ReadCall.step] at heq
    cases hget : r.getRandomByte with
    | some br =>
      rw [hget] at heq
      cases heq
      exact Or.inr (Or.inr ⟨hq, Or.inr rfl⟩)
    | none =>
      -- The ring is only empty for a non-blocking read, and that returns.
      have hdrop := hempty.mp hget
      rw [List.drop_eq_nil_iff] at hdrop
      have hoff := hit.off_eq
      rcases hmode with hmode | hmode
      · simp [hget, hnb, hmode] at heq
      · omega
  | @held c pc b _ ys hpc hnb hit hlt hret hxs =>
    have hq : q ≠ [] := h.ne_nil (Or.inr (by rw [hpc]; rfl))
    refine Or.inr (Or.inr ⟨hq, ?_⟩)
    cases pc with
    | copy b' => exact Or.inl (ReadCall.loop_eq_read heq)
    | wakeFlag b' k =>
      simp only [Proc.step, ReadCall.step] at heq
      split_ifs at heq
      · cases heq
        exact Or.inr rfl
      · cases heq
        exact Or.inr rfl
    | wakePoll b' =>
      cases heq
      exact Or.inr rfl
    | wakeCursor b' =>
      cases heq
      exact Or.inr rfl
    | wakeRead b' =>
      cases heq
      exact Or.inr rfl
    | _ => cases hpc
  | wait hpc hnb hblock hit hlt hret => exact absurd h.not_waits (by simp [Proc.waits, hpc])
  | again hnb hit hxs => cases heq
  | short hnb hit hlt => cases heq
  | full hit hoff => cases heq
  | interrupted hnb hit hlt => cases heq

/-- What such a read returns early. -/
theorem SoloRead.earlyReturn (h : SoloRead nb buf limit q r₀ r P xs) (hrep : r₀.Represents q)
    (hlimit : buf.length ≤ limit) {v : ℤ} (hearly : P.earlyReturn r = some v) :
    v = if q = [] then -EAGAIN else (min buf.length q.length : ℕ) := by
  have hready := (h.represents hrep).readReady_iff
  have hle := h.isPrefix.length_le
  have hphase := h.phase
  cases hphase with
  | @start c pc _ hpc hnb hit hret hxs =>
    rcases h.place c pc rfl with rfl | rfl | ⟨-, hpc'⟩
    · cases hearly
    · simp only [Proc.earlyReturn] at hearly
      split_ifs at hearly with hagain
      simp only [Option.some.injEq] at hearly
      -- The flag under the current cursor is clear, and nothing has been taken.
      have hflag : r.readReady = false := by
        simp only [Bool.and_eq_true, Bool.not_eq_true'] at hagain
        exact hagain.1
      have hq : q = [] := by
        by_contra hne
        have hset : r.readReady = true := hready.mpr (by rwa [hxs, List.length_nil, List.drop_zero])
        rw [hflag] at hset
        cases hset
      rw [if_pos hq, hearly]
    · rcases hpc with rfl | ⟨k, rfl⟩ <;> simp [ReadPc.held] at hpc'
  | @take c _ hnb hit hlt hret =>
    have hq : q ≠ [] := h.ne_nil (Or.inl rfl)
    simp only [Proc.earlyReturn] at hearly
    split_ifs at hearly with hagain
    simp only [Option.some.injEq] at hearly
    -- The ring is empty, so the whole queue has been taken.
    have hdrop : q.drop xs.length = [] := by
      by_contra hne
      simp [hready.mpr hne] at hagain
    rw [List.drop_eq_nil_iff] at hdrop
    have hoff := hit.off_eq
    rw [if_neg hq, ← hearly, hret]
    congr 1
    omega
  | @held c pc b _ ys hpc hnb hit hlt hret hxs =>
    cases pc <;> simp [Proc.earlyReturn, ReadPc.held] at hearly hpc
  | wait hpc hnb hblock hit hlt hret => exact absurd h.not_waits (by simp [Proc.waits, hpc])
  | again hnb hit hxs => cases hearly
  | short hnb hit hlt => cases hearly
  | full hit hoff => cases hearly
  | interrupted hnb hit hlt => cases hearly

/-- A step of such a read. -/
theorem SoloRead.step (h : SoloRead nb buf limit q r₀ r P xs) (hrep : r₀.Represents q)
    (hbuf : buf ≠ []) (hlimit : buf.length ≤ limit) (hmode : nb = true ∨ buf.length ≤ q.length) :
    SoloRead nb buf limit q r₀ (P.step r).ring (P.step r).proc (xs ++ (P.step r).taken) where
  phase := h.phase.step r
  isPrefix := (h.step_taken hrep).1
  ring_eq := (h.step_taken hrep).2
  place := h.step_place hrep hbuf hlimit hmode
  complete v hv := by
    by_cases hfull : v = buf.length
    · -- The destination is full, with bytes of the queue.
      have hle := (h.step_taken hrep).1.length_le
      have hphase := h.phase.step r
      obtain ⟨it, heq⟩ := hv
      rw [heq] at hphase
      have hlen := List.length_pos_iff.mpr hbuf
      rcases hphase.result hlimit with ⟨hv, -, -⟩ | ⟨hv, -⟩ | ⟨hv, -, -⟩
      · rw [EAGAIN] at hv
        omega
      · rw [ERESTARTSYS] at hv
        omega
      · have hq : q ≠ [] := List.ne_nil_of_length_pos (by omega)
        rw [if_neg hq, hfull]
        congr 1
        omega
    · rcases (h.phase.returns_step r hbuf hfull).mp hv with hold | hearly
      · exact h.complete v hold
      · exact h.earlyReturn hrep hlimit hearly

/-- At the start of a read. -/
theorem SoloRead.start (hrep : r.Represents q) (kiocb : Kiocb) (buf : List β) (limit : ℕ) :
    SoloRead kiocb.nonblocking buf limit q r r (.start (.read kiocb buf limit)) [] where
  phase := .entry kiocb buf limit
  isPrefix := List.nil_prefix
  ring_eq := (dequeue_zero hrep.holds.read_lt).symm
  place c pc heq := by
    cases heq
    exact Or.inl rfl
  complete v hv := absurd hv (Proc.not_returns_read _ _ _)

/-- Wake-ups and signals leave such a read alone, since it does not wait. -/
theorem SoloRead.nudge {P' : Proc β} (h : SoloRead nb buf limit q r₀ r P xs) (hn : P.Nudge P') :
    SoloRead nb buf limit q r₀ r P' xs where
  phase := h.phase.nudge hn
  isPrefix := h.isPrefix
  ring_eq := h.ring_eq
  place c' pc' heq := by
    rcases P with _ | ⟨c, pc⟩ | ⟨c, pc⟩ | ⟨c, pc⟩ | res
    · rw [hn.idle] at heq
      cases heq
    · obtain ⟨s, pc'', heq', rfl | ⟨hw, -⟩⟩ := hn.read
      · rw [heq'] at heq
        cases heq
        exact h.place c _ rfl
      · have hnot : pc.waiting = false := h.not_waits
        rw [hnot] at hw
        cases hw
    · cases h.phase
    · cases h.phase
    · rw [hn.returned] at heq
      cases heq
  complete v hv := h.complete v ((h.phase.returns_nudge hn v).mp hv)

/-- While no other process moves, a read stays such a read. -/
theorem soloReads (hrep : r₀.Represents q) (hbuf : buf ≠ []) (hlimit : buf.length ≤ limit)
    (hmode : nb = true ∨ buf.length ≤ q.length) :
    SoloInvariant fun r P => ∃ xs, SoloRead nb buf limit q r₀ r P xs where
  own h := by
    obtain ⟨xs, h⟩ := h
    exact ⟨_, h.step hrep hbuf hlimit hmode⟩
  nudge h hn := by
    obtain ⟨xs, h⟩ := h
    exact ⟨xs, h.nudge hn⟩

/-! ## The run of a read alone -/

omit [Zero β] in
/-- In a run of `ls'`, process `p` has the time to finish a read into `buf`, and is alone. -/
structure ReadsAlone (p : Pid) (buf : List β) (limit : ℕ) (ls' : List (Label β)) : Prop where
  /-- At least one byte is wanted. -/
  ne_nil : buf ≠ []
  /-- The destination is accessible. -/
  accessible : buf.length ≤ limit
  /-- No other process moves. -/
  solo : ∀ l ∈ ls', l.Solo p
  /-- The process makes enough steps. -/
  steps : 6 * buf.length + 8 ≤ ls'.countP (Label.isSched p)

namespace Driver

variable {ls ls' : List (Label β)} {p : Pid} {kiocb : Kiocb}

/-- A read alone is such a read in every state that it passes through, and has returned in the end. -/
theorem read_alone (hfree : (((init : Driver β).run ls).procs p).free = true)
    (h : ReadsAlone p buf limit ls') (hmode : kiocb.nonblocking = true ∨
      buf.length ≤ ((init : Driver β).run ls).ring.contents.length) :
    (∀ t l, At Driver.step (enter ls p (.read kiocb buf limit)) ls' t l → (t.procs p).waits = false) ∧
      ∃ v it xs, ((enter ls p (.read kiocb buf limit)).run ls').procs p = .returned (.read v it) ∧
        SoloRead kiocb.nonblocking buf limit ((init : Driver β).run ls).ring.contents
          ((init : Driver β).run ls).ring ((enter ls p (.read kiocb buf limit)).run ls').ring
          (((enter ls p (.read kiocb buf limit)).run ls').procs p) xs := by
  have hrep := run_represents ls
  obtain ⟨hproc, hring, -, -⟩ := enter_of_free (c := .read kiocb buf limit) hfree
  have hstart : ∃ xs, SoloRead kiocb.nonblocking buf limit ((init : Driver β).run ls).ring.contents
      ((init : Driver β).run ls).ring (enter ls p (.read kiocb buf limit)).ring
      ((enter ls p (.read kiocb buf limit)).procs p) xs := by
    rw [hproc, hring]
    exact ⟨[], .start hrep kiocb buf limit⟩
  have hΦ := soloReads hrep h.ne_nil h.accessible hmode
  constructor
  · -- It does not wait in any state that it passes through, so it takes its steps,
    intro t l hat
    obtain ⟨xs, hsolo⟩ := hat.invariant hΦ.step h.solo hstart
    exact hsolo.not_waits
  · -- and they are enough for the rank to reach zero.
    obtain ⟨xs, hsolo⟩ := hΦ.run h.solo hstart
    have hrank := hΦ.rank (M := Proc.readRank)
      (fun ⟨_, h'⟩ => h'.phase.readRank_step h.accessible h'.not_waits _)
      (fun ⟨_, h'⟩ hn => h'.phase.readRank_nudge hn) h.solo hstart
    have hrank0 : ((enter ls p (.read kiocb buf limit)).procs p).readRank = 6 * buf.length + 8 := by
      rw [hproc]
      rfl
    have hsteps := h.steps
    have hzero : (((enter ls p (.read kiocb buf limit)).run ls').procs p).readRank = 0 := by omega
    obtain ⟨v, it, hret⟩ := hsolo.phase.returned hsolo.not_waits hzero
    exact ⟨v, it, xs, hret, hsolo⟩

/-- A read alone from a queue that is not empty is a bulk dequeue. -/
theorem read_dequeues (hfree : (((init : Driver β).run ls).procs p).free = true)
    (h : ReadsAlone p buf limit ls') (kiocb : Kiocb) {q : List β} {m : ℕ}
    (hq : q = ((init : Driver β).run ls).ring.contents) (hm : m = min buf.length q.length)
    (hmode : kiocb.nonblocking = true ∧ q ≠ [] ∨ buf.length ≤ q.length) :
    ∃ it, ((enter ls p (.read kiocb buf limit)).run ls').procs p = .returned (.read m it) ∧
      it.buf = q.take m ++ buf.drop m ∧
      ((enter ls p (.read kiocb buf limit)).run ls').ring = ((init : Driver β).run ls).ring.dequeue m := by
  have hlen := List.length_pos_iff.mpr h.ne_nil
  -- In both modes there is a byte to begin with, so the read gets past its first test.
  have hne : q ≠ [] := by
    rcases hmode with ⟨-, hne⟩ | hle
    · exact hne
    · exact List.ne_nil_of_length_pos (by omega)
  have hmode' : kiocb.nonblocking = true ∨
      buf.length ≤ ((init : Driver β).run ls).ring.contents.length := by
    rw [← hq]
    exact hmode.imp_left fun h => h.1
  obtain ⟨-, v, it, xs, hret, hsolo⟩ := read_alone hfree h hmode'
  rw [← hq] at hsolo
  have hring := hsolo.ring_eq
  have hphase := hsolo.phase
  have hv := hsolo.complete v (by rw [hret]; exact ⟨it, rfl⟩)
  rw [if_neg hne, ← hm] at hv
  rw [hret] at hphase
  -- Its value is a count, which neither error is.
  rcases hphase.result h.accessible with ⟨hv', -, -⟩ | ⟨hv', -⟩ | ⟨hv', -, hbuf⟩
  · rw [EAGAIN] at hv'
    omega
  · rw [ERESTARTSYS] at hv'
    omega
  · have hxs : xs.length = m := by omega
    have htake := List.prefix_iff_eq_take.mp hsolo.isPrefix
    rw [hxs] at hbuf hring htake
    exact ⟨it, by rw [hret, hv], by rw [hbuf, ← htake], hring⟩

/-- A non-blocking read alone from the empty queue changes nothing. -/
theorem read_of_empty (hfree : (((init : Driver β).run ls).procs p).free = true)
    (h : ReadsAlone p buf limit ls') (hnb : kiocb.nonblocking = true)
    (hq : ((init : Driver β).run ls).ring.contents = []) :
    ((enter ls p (.read kiocb buf limit)).run ls').procs p =
        .returned (.read (-EAGAIN) (.start buf limit)) ∧
      ((enter ls p (.read kiocb buf limit)).run ls').ring = ((init : Driver β).run ls).ring := by
  obtain ⟨-, v, it, xs, hret, hsolo⟩ := read_alone hfree h (Or.inl hnb)
  have hxs : xs = [] := by
    have hprefix := hsolo.isPrefix
    rw [hq] at hprefix
    exact List.prefix_nil.mp hprefix
  have hring := hsolo.ring_eq
  have hphase := hsolo.phase
  have hv := hsolo.complete v (by rw [hret]; exact ⟨it, rfl⟩)
  rw [hxs, List.length_nil, dequeue_zero (run_represents ls).holds.read_lt] at hring
  rw [if_pos hq] at hv
  rw [hret] at hphase
  -- With nothing to take, only `-EAGAIN` is left.
  rcases hphase.result h.accessible with ⟨-, -, hit⟩ | ⟨hv', -⟩ | ⟨hv', -, -⟩
  · exact ⟨by rw [hret, hv, hit], hring⟩
  · rw [hv, EAGAIN, ERESTARTSYS] at hv'
    omega
  · rw [hv, EAGAIN] at hv'
    omega

/-- What a ring has when a part of its contents has been dequeued. -/
theorem contents_dequeue (ls : List (Label β)) {m : ℕ}
    (hm : m ≤ ((init : Driver β).run ls).ring.contents.length) :
    (((init : Driver β).run ls).ring.dequeue m).contents =
      ((init : Driver β).run ls).ring.contents.drop m :=
  ((run_represents ls).dequeue hm).contents_eq

/-- Two reads alone, one after the other, deliver what one read of as many bytes as both delivers, and
leave the same ring. -/
theorem read_read (hfree : (((init : Driver β).run ls).procs p).free = true) {k₁ k₂ k₃ : Kiocb}
    {buf₁ buf₂ buf₃ : List β} {limit₁ limit₂ limit₃ : ℕ} {ls₁ ls₂ ls₃ : List (Label β)}
    (h₁ : ReadsAlone p buf₁ limit₁ ls₁) (h₂ : ReadsAlone p buf₂ limit₂ ls₂)
    (h₃ : ReadsAlone p buf₃ limit₃ ls₃) (hlen : buf₃.length = buf₁.length + buf₂.length)
    (hle : buf₃.length ≤ ((init : Driver β).run ls).ring.contents.length) :
    ∃ it₁ it₂ it₃,
      ((enter ls p (.read k₁ buf₁ limit₁)).run ls₁).procs p =
          .returned (.read buf₁.length it₁) ∧
      ((enter (ls ++ .call p (.read k₁ buf₁ limit₁) :: ls₁) p (.read k₂ buf₂ limit₂)).run ls₂).procs p
          = .returned (.read buf₂.length it₂) ∧
      ((enter ls p (.read k₃ buf₃ limit₃)).run ls₃).procs p =
          .returned (.read buf₃.length it₃) ∧
      it₁.buf ++ it₂.buf = it₃.buf ∧
      ((enter (ls ++ .call p (.read k₁ buf₁ limit₁) :: ls₁) p (.read k₂ buf₂ limit₂)).run ls₂).ring =
        ((enter ls p (.read k₃ buf₃ limit₃)).run ls₃).ring := by
  have hle₁ : buf₁.length ≤ ((init : Driver β).run ls).ring.contents.length := by omega
  obtain ⟨it₁, hret₁, hbuf₁, hring₁⟩ :=
    read_dequeues hfree h₁ k₁ rfl (Nat.min_eq_left hle₁).symm (Or.inr hle₁)
  obtain ⟨it₃, hret₃, hbuf₃, hring₃⟩ :=
    read_dequeues hfree h₃ k₃ rfl (Nat.min_eq_left hle).symm (Or.inr hle)
  have hret := hret₁
  -- The second read finds what the first one has left.
  rw [← run_enter] at hret₁ hring₁
  have hcontents := contents_dequeue ls hle₁
  rw [← hring₁] at hcontents
  have hfree₁ : (((init : Driver β).run (ls ++ .call p (.read k₁ buf₁ limit₁) :: ls₁)).procs p).free =
      true := by
    rw [hret₁]
    rfl
  have hle₂ : buf₂.length ≤
      (((init : Driver β).run ls).ring.contents.drop buf₁.length).length := by
    rw [List.length_drop]
    omega
  obtain ⟨it₂, hret₂, hbuf₂, hring₂⟩ :=
    read_dequeues hfree₁ h₂ k₂ hcontents.symm (Nat.min_eq_left hle₂).symm (Or.inr hle₂)
  refine ⟨it₁, it₂, it₃, hret, hret₂, hret₃, ?_, ?_⟩
  · rw [hbuf₁, hbuf₂, hbuf₃, List.drop_length, List.drop_length, List.drop_length, List.append_nil,
      List.append_nil, List.append_nil, hlen, List.take_add]
  · rw [hring₂, hring₁, hring₃, dequeue_add, hlen]

/-- A read alone agrees with a bulk dequeue. Let the ring hold the queue `q`. A non-blocking read
returns `-EAGAIN` and changes nothing if `q` is empty. Otherwise, and if it is a blocking read of at most
as many bytes as `q` has, it returns the number `m` of bytes that the bulk dequeue yields, has these
bytes at the front of its destination, whose rest is as it was, and leaves the ring of the bulk dequeue,
with the rest of `q` and the same write cursor. It never waits. So two reads, one after the other,
deliver the same bytes and leave the same ring as one read of as many bytes as both. -/
theorem read_is_bulk_dequeue (hfree : (((init : Driver β).run ls).procs p).free = true) :
    let r := ((init : Driver β).run ls).ring
    let q := r.contents
    (∀ (kiocb : Kiocb) (buf : List β) (limit : ℕ) (ls' : List (Label β)),
      ReadsAlone p buf limit ls' →
        let σ := (enter ls p (.read kiocb buf limit)).run ls'
        let m := min buf.length q.length
        (kiocb.nonblocking = true → q = [] →
          σ.procs p = .returned (.read (-EAGAIN) (.start buf limit)) ∧ σ.ring = r) ∧
        (kiocb.nonblocking = true ∧ q ≠ [] ∨ buf.length ≤ q.length →
          (∃ it, σ.procs p = .returned (.read m it) ∧ it.buf = q.take m ++ buf.drop m) ∧
            σ.ring = r.dequeue m ∧ σ.ring.Represents (q.drop m) ∧
            σ.ring.qrngBuffWriteIt = r.qrngBuffWriteIt ∧
            ∀ t l, At Driver.step (enter ls p (.read kiocb buf limit)) ls' t l →
              (t.procs p).waits = false)) ∧
    ∀ (k₁ k₂ k₃ : Kiocb) (buf₁ buf₂ buf₃ : List β) (limit₁ limit₂ limit₃ : ℕ)
      (ls₁ ls₂ ls₃ : List (Label β)), ReadsAlone p buf₁ limit₁ ls₁ → ReadsAlone p buf₂ limit₂ ls₂ →
      ReadsAlone p buf₃ limit₃ ls₃ → buf₃.length = buf₁.length + buf₂.length →
      buf₃.length ≤ q.length →
        let σ₁ := (enter ls p (.read k₁ buf₁ limit₁)).run ls₁
        let σ₂ := (σ₁.step (.call p (.read k₂ buf₂ limit₂))).run ls₂
        let σ₃ := (enter ls p (.read k₃ buf₃ limit₃)).run ls₃
        ∃ it₁ it₂ it₃, σ₁.procs p = .returned (.read buf₁.length it₁) ∧
          σ₂.procs p = .returned (.read buf₂.length it₂) ∧
          σ₃.procs p = .returned (.read buf₃.length it₃) ∧
          it₁.buf ++ it₂.buf = it₃.buf ∧ σ₂.ring = σ₃.ring := by
  intro r q
  have hrep : r.Represents q := run_represents ls
  constructor
  · intro kiocb buf limit ls' halone σ m
    refine ⟨fun hnb hq => read_of_empty hfree halone hnb hq, fun hmode => ?_⟩
    obtain ⟨it, hret, hbuf, hring⟩ := read_dequeues hfree halone kiocb rfl rfl hmode
    have hrep' : σ.ring.Represents (q.drop m) := by
      rw [show σ.ring = r.dequeue m from hring]
      exact hrep.dequeue (Nat.min_le_right _ _)
    have hwrite : σ.ring.qrngBuffWriteIt = r.qrngBuffWriteIt := by
      rw [show σ.ring = r.dequeue m from hring]
      rfl
    exact ⟨⟨it, hret, hbuf⟩, hring, hrep', hwrite,
      (read_alone hfree halone (hmode.imp_left fun h => h.1)).1⟩
  · intro k₁ k₂ k₃ buf₁ buf₂ buf₃ limit₁ limit₂ limit₃ ls₁ ls₂ ls₃ h₁ h₂ h₃ hlen hle σ₁ σ₂ σ₃
    have hσ₂ : σ₂ = (enter (ls ++ .call p (.read k₁ buf₁ limit₁) :: ls₁) p
        (.read k₂ buf₂ limit₂)).run ls₂ := by
      rw [enter, run_enter]
    rw [hσ₂]
    exact read_read hfree h₁ h₂ h₃ hlen hle

/-- Process 0 appends three bytes. -/
def threeBytes : List (Label UInt8) :=
  .call 0 (.write [7, 8, 9] 3) :: List.replicate 6 (.sched 0)

/-- The theorem for a ring that holds three bytes: a read of two leaves the third, and with a read of one
after it the ring is the one that a read of three leaves. -/
theorem read_is_bulk_dequeue_two_of_three :
    let σ₁ := (enter threeBytes 1 (.read ⟨false, false, false⟩ [0, 0] 2)).run
      (List.replicate 20 (.sched 1))
    let σ₂ := (σ₁.step (.call 1 (.read ⟨false, false, true⟩ [0] 1))).run (List.replicate 14 (.sched 1))
    let σ₃ := (enter threeBytes 1 (.read ⟨false, false, false⟩ [0, 0, 0] 3)).run
      (List.replicate 26 (.sched 1))
    (∃ it, σ₁.procs 1 = .returned (.read 2 it) ∧ it.buf = [7, 8]) ∧ σ₁.ring.Represents [9] ∧
      σ₂.ring = σ₃.ring := by
  have hfree : (((init : Driver UInt8).run threeBytes).procs 1).free = true :=
    run_free (by simp [threeBytes, Label.KeepsCall])
  have h₁ : ReadsAlone 1 [(0 : UInt8), 0] 2 (List.replicate 20 (.sched 1)) :=
    ⟨by simp, le_rfl, by simp [Label.Solo], by decide⟩
  have h₂ : ReadsAlone 1 [(0 : UInt8)] 1 (List.replicate 14 (.sched 1)) :=
    ⟨by simp, le_rfl, by simp [Label.Solo], by decide⟩
  have h₃ : ReadsAlone 1 [(0 : UInt8), 0, 0] 3 (List.replicate 26 (.sched 1)) :=
    ⟨by simp, le_rfl, by simp [Label.Solo], by decide⟩
  have hcontents : ((init : Driver UInt8).run threeBytes).ring.contents = [7, 8, 9] := by
    have htaken : ((init : Driver UInt8).run threeBytes).taken = [] := rfl
    have happ : ((init : Driver UInt8).run threeBytes).appended = [(0, 7), (0, 8), (0, 9)] := rfl
    have hcons := run_contents threeBytes
    rwa [htaken, happ, List.map_nil, List.nil_append] at hcons
  obtain ⟨hone, htwo⟩ := read_is_bulk_dequeue hfree
  simp only [hcontents] at hone htwo
  obtain ⟨hret, -, hrep, -, -⟩ :=
    (hone ⟨false, false, false⟩ [0, 0] 2 _ h₁).2 (Or.inr (by decide))
  obtain ⟨-, -, -, -, -, -, -, hring⟩ :=
    htwo ⟨false, false, false⟩ ⟨false, false, true⟩ ⟨false, false, false⟩ [0, 0] [0] [0, 0, 0] 2 1 3
      _ _ _ h₁ h₂ h₃ rfl le_rfl
  exact ⟨hret, hrep, hring⟩

end Driver

end QrngDevice
