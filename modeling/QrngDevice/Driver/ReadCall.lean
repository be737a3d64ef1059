import QrngDevice.Driver.Steps

/-!
# A read, from its entry to its return

`ReadPhase nb buf limit P xs` says where a process in a read into `buf` can be, given that the read
has taken `xs` from the ring so far. The destination holds the bytes of `xs` that were copied, and
the iterator has faulted exactly when some were not (`IovIter.Filled`). `ReadPhase.step` shows that
its own steps keep this, and `ReadPhase.nudge` that wake-ups and signals do.
-/

namespace QrngDevice

open Runs RingBuffer

variable {β : Type*}

/-! ## The destination -/

/-- The iterator of a read into `buf`, of which the first `limit` bytes are accessible, after all of
`xs` was to be copied through it, one byte at a time. -/
structure IovIter.Filled (it : IovIter β) (buf : List β) (limit : ℕ) (xs : List β) : Prop where
  /-- The bytes were copied up to the limit. -/
  off_eq : it.off = min xs.length (min limit buf.length)
  /-- They are at the front of the destination, and the rest of it is as it was. -/
  buf_eq : it.buf = xs.take it.off ++ buf.drop it.off
  /-- The limit is `limit`. -/
  limit_eq : it.limit = limit
  /-- A copy has failed exactly when a byte was not copied. -/
  faulted : it.faulted = true ↔ it.off < xs.length
  /-- No byte was asked for beyond the end of an accessible destination. -/
  fits : buf.length ≤ limit → xs.length ≤ buf.length

variable {buf : List β} {limit : ℕ} {it : IovIter β} {xs : List β}

/-- The iterator at the start of a read. -/
theorem IovIter.filled_start (buf : List β) (limit : ℕ) :
    (IovIter.start buf limit).Filled buf limit [] where
  off_eq := by simp [IovIter.start]
  buf_eq := by simp [IovIter.start]
  limit_eq := rfl
  faulted := by simp [IovIter.start]
  fits := fun _ => Nat.zero_le _

/-- The destination keeps its length. -/
theorem IovIter.Filled.length_eq (h : it.Filled buf limit xs) : it.buf.length = buf.length := by
  have hoff := h.off_eq
  rw [h.buf_eq, List.length_append, List.length_take, List.length_drop]
  omega

/-- What is left of the destination. -/
theorem IovIter.Filled.count_eq (h : it.Filled buf limit xs) :
    iovIterCount it = buf.length - it.off := by
  rw [iovIterCount, h.length_eq]

/-- In an accessible destination, all bytes taken have been copied. -/
theorem IovIter.Filled.take_eq {it : IovIter β} (h : it.Filled buf limit xs)
    (hlimit : buf.length ≤ limit) : it.off = xs.length ∧ it.buf.take xs.length = xs := by
  have hoff := h.off_eq
  have hfits := h.fits hlimit
  have hlen : it.off = xs.length := by omega
  refine ⟨hlen, ?_⟩
  rw [h.buf_eq, hlen, List.take_length, List.take_left]

/-- `copy_to_iter` of one more byte: it is copied, or the copy fails, and the count returned is the
number of bytes by which the iterator has moved. -/
theorem IovIter.Filled.copyToIter (h : it.Filled buf limit xs) (hlt : it.off < buf.length) (b : β) :
    (copyToIter b it).2.Filled buf limit (xs ++ [b]) ∧
      (copyToIter b it).2.off = it.off + (copyToIter b it).1 ∧
      ((copyToIter b it).1 = 1 ↔ it.off < limit) := by
  have hoff := h.off_eq
  have hlen := h.length_eq
  have hlim := h.limit_eq
  unfold QrngDevice.copyToIter
  split_ifs with hgo
  · -- The byte is copied, so all bytes before it were.
    have hxs : xs.length = it.off := by omega
    have hset : it.buf.set it.off b = (xs ++ [b]) ++ buf.drop (it.off + 1) := by
      rw [h.buf_eq, ← hxs, List.take_length, List.set_append_right _ _ le_rfl, Nat.sub_self,
        List.drop_eq_getElem_cons (by omega), List.set_cons_zero, List.append_assoc]
      rfl
    refine ⟨⟨?_, ?_, hlim, ?_, ?_⟩, rfl, ?_⟩
    · simp only [List.length_append, List.length_singleton]
      omega
    · simp only [hset]
      rw [List.take_of_length_le (by simp [hxs])]
    · simp only
      rw [h.faulted, List.length_append, List.length_singleton]
      omega
    · intro _
      simp only [List.length_append, List.length_singleton]
      omega
    · rw [← hlim]
      exact ⟨fun _ => hgo.2, fun _ => rfl⟩
  · -- The copy fails: the accessible part is used up.
    have hlimit : limit ≤ it.off := by omega
    refine ⟨⟨?_, ?_, hlim, ?_, ?_⟩, rfl, ?_⟩
    · simp only [List.length_append, List.length_singleton]
      omega
    · simp only
      rw [List.take_append_of_le_length (by omega)]
      exact h.buf_eq
    · simp only [List.length_append, List.length_singleton, true_iff]
      omega
    · intro hfits
      omega
    · refine ⟨False.elim, fun hlt' => ?_⟩
      omega

/-! ## The phases of a read -/

/-- The byte that a read has taken from the ring and not yet tried to copy. -/
def ReadPc.held : ReadPc β → Option β
  | .wakePoll b => some b
  | .wakeCursor b => some b
  | .wakeFlag b _ => some b
  | .wakeRead b => some b
  | .copy b => some b
  | _ => none

/-- The read is in `wait_event_interruptible`. -/
def ReadPc.waiting : ReadPc β → Bool
  | .waitJoin => true
  | .waitCursor _ => true
  | .waitFlag _ _ => true
  | .asleep => true
  | _ => false

/-- Where a process in a read can be when the read has taken `xs` from the ring. -/
inductive ReadPhase (nb : Bool) (buf : List β) (limit : ℕ) : Proc β → List β → Prop
  /-- In the first test of `read_ready`. -/
  | start {c : ReadCall β} {pc : ReadPc β} {xs : List β}
      (hpc : pc = .testCursor ∨ ∃ k, pc = .testFlag k) (hnb : c.nonblocking = nb)
      (hit : c.iter = .start buf limit) (hret : c.ret = 0) (hxs : xs = []) :
      ReadPhase nb buf limit (.read c pc) xs
  /-- Before a take, with bytes still wanted. -/
  | take {c : ReadCall β} {xs : List β} (hnb : c.nonblocking = nb)
      (hit : c.iter.Filled buf limit xs) (hlt : c.iter.off < buf.length)
      (hret : c.ret = c.iter.off) : ReadPhase nb buf limit (.read c .take) xs
  /-- With a byte in hand. -/
  | held {c : ReadCall β} {pc : ReadPc β} {b : β} {xs ys : List β} (hpc : pc.held = some b)
      (hnb : c.nonblocking = nb) (hit : c.iter.Filled buf limit ys)
      (hlt : c.iter.off < buf.length) (hret : c.ret = c.iter.off) (hxs : xs = ys ++ [b]) :
      ReadPhase nb buf limit (.read c pc) xs
  /-- In the wait. -/
  | wait {c : ReadCall β} {pc : ReadPc β} {xs : List β} (hpc : pc.waiting = true)
      (hnb : c.nonblocking = nb) (hblock : nb = false) (hit : c.iter.Filled buf limit xs)
      (hlt : c.iter.off < buf.length) (hret : c.ret = c.iter.off) :
      ReadPhase nb buf limit (.read c pc) xs
  /-- After `-EAGAIN`. -/
  | again {it : IovIter β} {xs : List β} (hnb : nb = true) (hit : it = .start buf limit)
      (hxs : xs = []) : ReadPhase nb buf limit (.returned (.read (-EAGAIN) it)) xs
  /-- After a non-blocking read that has found the ring empty. -/
  | short {it : IovIter β} {xs : List β} (hnb : nb = true) (hit : it.Filled buf limit xs)
      (hlt : it.off < buf.length) : ReadPhase nb buf limit (.returned (.read it.off it)) xs
  /-- After a read that has filled its destination. -/
  | full {it : IovIter β} {xs : List β} (hit : it.Filled buf limit xs)
      (hoff : it.off = buf.length) : ReadPhase nb buf limit (.returned (.read it.off it)) xs
  /-- After a wait that a signal has ended. -/
  | interrupted {it : IovIter β} {xs : List β} (hnb : nb = false) (hit : it.Filled buf limit xs)
      (hlt : it.off < buf.length) :
      ReadPhase nb buf limit (.returned (.read (-ERESTARTSYS) it)) xs

variable {nb : Bool} {P : Proc β}

/-- The head of the loop of `get_random_bytes_qrng`. Its end is reached with a full destination only,
so that `ret` is not zero there. -/
theorem ReadPhase.loop {c : ReadCall β} (hnb : c.nonblocking = nb)
    (hit : c.iter.Filled buf limit xs) (hret : c.ret = c.iter.off) (hbuf : buf ≠ []) :
    ReadPhase nb buf limit c.loop xs := by
  have hoff := hit.off_eq
  have hpos : 0 < buf.length := List.length_pos_iff.mpr hbuf
  unfold ReadCall.loop
  rw [hit.count_eq]
  split_ifs with hcount
  · exact .take hnb hit (by omega) hret
  · rw [hret]
    exact .full hit (by omega)
  · -- `ret` is not 0 at the end of the loop, since at least one byte was wanted.
    omega

variable [Zero β] {r : RingBuffer β} {q : List β}

/-- Its own steps take a read from phase to phase. -/
theorem ReadPhase.step (h : ReadPhase nb buf limit P xs) (r : RingBuffer β) :
    ReadPhase nb buf limit (P.step r).proc (xs ++ (P.step r).taken) := by
  cases h with
  | @start c pc _ hpc hnb hit hret hxs =>
    subst hxs
    -- The cursor is loaded, and then the flag there is tested.
    rcases hpc with rfl | ⟨k, rfl⟩
    · exact .start (Or.inr ⟨_, rfl⟩) hnb hit hret rfl
    · simp only [Proc.step, ReadCall.step, hit]
      split_ifs with hagain hcount
      · -- The flag is clear and the read does not block.
        refine .again ?_ rfl rfl
        rw [← hnb]
        simp only [Bool.and_eq_true] at hagain
        exact hagain.2
      · -- No byte is wanted, so the loop ends at once.
        have hfull : (IovIter.start buf limit).off = buf.length := by
          simp only [iovIterCount, IovIter.start, Nat.sub_zero] at hcount ⊢
          exact hcount.symm
        exact (ReadPhase.full (IovIter.filled_start buf limit) hfull : ReadPhase nb buf limit _ _)
      · have hbuf : buf ≠ [] := by
          rintro rfl
          exact hcount rfl
        have hfilled : c.iter.Filled buf limit [] := by
          rw [hit]
          exact IovIter.filled_start buf limit
        exact .loop hnb hfilled (by rw [hret, hit]; rfl) hbuf
  | @take c _ hnb hit hlt hret =>
    simp only [Proc.step, ReadCall.step]
    cases hget : r.getRandomByte with
    | none =>
      simp only
      split_ifs with hc
      · -- A read that does not block ends at an empty ring with what it has.
        rw [List.append_nil, hret]
        exact .short (hnb.symm.trans hc) hit hlt
      · rw [List.append_nil]
        exact .wait rfl hnb (hnb.symm.trans (by simpa using hc)) hit hlt hret
    | some br => exact .held rfl hnb hit hlt hret rfl
  | @held c pc b _ ys hpc hnb hit hlt hret hxs =>
    cases pc with
    | copy b' =>
      -- Until this step the byte is in hand; from here on the iterator has it.
      obtain rfl : b' = b := by simpa [ReadPc.held] using hpc
      obtain ⟨hit', hoff', -⟩ := hit.copyToIter hlt b'
      have hbuf : buf ≠ [] := List.ne_nil_of_length_pos (by omega)
      simp only [Proc.step, ReadCall.step, List.append_nil]
      rw [hxs]
      exact .loop (c := { c with iter := _, ret := c.ret + _ }) hnb hit'
        (by simp only; rw [hoff', hret]) hbuf
    -- The wake-ups after a take move on with the byte still in hand.
    | wakePoll b' => exact .held hpc hnb hit hlt hret (by simpa [Proc.step, ReadCall.step] using hxs)
    | wakeCursor b' => exact .held hpc hnb hit hlt hret (by simpa [Proc.step, ReadCall.step] using hxs)
    | wakeFlag b' k =>
      simp only [Proc.step, ReadCall.step, List.append_nil]
      split_ifs
      · exact .held hpc hnb hit hlt hret hxs
      · exact .held hpc hnb hit hlt hret hxs
    | wakeRead b' => exact .held hpc hnb hit hlt hret (by simpa [Proc.step, ReadCall.step] using hxs)
    | _ => simp [ReadPc.held] at hpc
  | @wait c pc _ hpc hnb hblock hit hlt hret =>
    have hbuf : buf ≠ [] := List.ne_nil_of_length_pos (by omega)
    cases pc with
    -- A wait takes nothing. It ends with a flag that is set or with a signal, and goes on
    -- otherwise.
    | waitJoin =>
      simp only [Proc.step, ReadCall.step, List.append_nil]
      exact .wait rfl hnb hblock hit hlt hret
    | waitCursor woken =>
      simp only [Proc.step, ReadCall.step, List.append_nil]
      exact .wait rfl hnb hblock hit hlt hret
    | waitFlag woken k =>
      simp only [Proc.step, ReadCall.step]
      split_ifs
      · rw [List.append_nil]
        exact .loop hnb hit hret hbuf
      · rw [List.append_nil]
        exact .interrupted hblock hit hlt
      · rw [List.append_nil]
        exact .wait rfl hnb hblock hit hlt hret
      · rw [List.append_nil]
        exact .wait rfl hnb hblock hit hlt hret
    | asleep =>
      simp only [Proc.step, ReadCall.step, List.append_nil]
      exact .wait rfl hnb hblock hit hlt hret
    | _ => simp [ReadPc.waiting] at hpc
  | again hnb hit hxs => simpa [Proc.step] using .again hnb hit hxs
  | short hnb hit hlt => simpa [Proc.step] using .short hnb hit hlt
  | full hit hoff => simpa [Proc.step] using .full hit hoff
  | interrupted hnb hit hlt => simpa [Proc.step] using .interrupted hnb hit hlt

/-! ## Wake-ups and signals -/

section

omit [Zero β]

/-- A wake-up or a signal leaves a read where it is, or moves it within the wait. -/
theorem Proc.Nudge.read {c : ReadCall β} {pc : ReadPc β} {P : Proc β}
    (h : (Proc.read c pc).Nudge P) :
    ∃ s pc', P = .read { c with sig := s } pc' ∧
      (pc' = pc ∨ pc.waiting = true ∧ pc'.waiting = true) := by
  cases h with
  -- Wake-ups of `read_queue` move a read within its wait, and leave it alone elsewhere.
  | woken wr wp =>
    cases wr <;> cases wp <;> cases pc <;> exact ⟨c.sig, _, rfl, by simp [ReadPc.waiting]⟩
  | signalled => cases pc <;> exact ⟨true, _, rfl, by simp [ReadPc.waiting]⟩

/-- Others leave a read in its phase. -/
theorem ReadPhase.nudge {P' : Proc β} (h : ReadPhase nb buf limit P xs) (hn : P.Nudge P') :
    ReadPhase nb buf limit P' xs := by
  cases h with
  -- Outside of the wait, the counter is as it was. A wake-up that moves it finds a waiting read.
  | start hpc hnb hit hret hxs =>
    obtain ⟨s, pc', rfl, rfl | ⟨hw, -⟩⟩ := hn.read
    · exact .start hpc hnb hit hret hxs
    · rcases hpc with rfl | ⟨k, rfl⟩ <;> simp [ReadPc.waiting] at hw
  | take hnb hit hlt hret =>
    obtain ⟨s, pc', rfl, rfl | ⟨hw, -⟩⟩ := hn.read
    · exact .take hnb hit hlt hret
    · simp [ReadPc.waiting] at hw
  | @held c pc b _ ys hpc hnb hit hlt hret hxs =>
    obtain ⟨s, pc', rfl, rfl | ⟨hw, -⟩⟩ := hn.read
    · exact .held hpc hnb hit hlt hret hxs
    · cases pc <;> simp [ReadPc.waiting, ReadPc.held] at hw hpc
  | wait hpc hnb hblock hit hlt hret =>
    obtain ⟨s, pc', rfl, rfl | ⟨-, hw⟩⟩ := hn.read
    · exact .wait hpc hnb hblock hit hlt hret
    · exact .wait hw hnb hblock hit hlt hret
  | again hnb hit hxs => rw [hn.returned]; exact .again hnb hit hxs
  | short hnb hit hlt => rw [hn.returned]; exact .short hnb hit hlt
  | full hit hoff => rw [hn.returned]; exact .full hit hoff
  | interrupted hnb hit hlt => rw [hn.returned]; exact .interrupted hnb hit hlt

/-- A read starts at its first test. -/
theorem ReadPhase.entry (kiocb : Kiocb) (buf : List β) (limit : ℕ) :
    ReadPhase kiocb.nonblocking buf limit (.start (.read kiocb buf limit)) [] :=
  .start (Or.inl rfl) rfl rfl rfl rfl

end

/-- What `ReadPhase` says stays true in the course of a read. -/
theorem readPhases (nb : Bool) (buf : List β) (limit : ℕ) :
    CallInvariant fun P xs _ => ReadPhase nb buf limit P xs where
  own _ h := h.step _
  nudge h hn := h.nudge hn

/-! ## Where a read returns -/

section

omit [Zero β]

/-- The process has returned `v` from a read. -/
def Proc.Returns (v : ℤ) (P : Proc β) : Prop := ∃ it, P = .returned (.read v it)

/-- What the next step of a read returns, at one of the three places where a read returns before its
destination is full. -/
def Proc.earlyReturn (r : RingBuffer β) : Proc β → Option ℤ
  | .read c (.testFlag k) =>
    if !r.qrngBuffReady k && c.nonblocking then some (-EAGAIN) else none
  | .read c .take => if !r.readReady && c.nonblocking then some c.ret else none
  | .read c (.waitFlag _ k) =>
    if !r.qrngBuffReady k && c.sig then some (-ERESTARTSYS) else none
  | _ => none

/-- A process in a read has not returned. -/
@[simp] theorem Proc.not_returns_read (v : ℤ) (c : ReadCall β) (pc : ReadPc β) :
    ¬ (Proc.read c pc).Returns v := by
  rintro ⟨it, heq⟩
  cases heq

@[simp] theorem Proc.returns_returned (v w : ℤ) (it : IovIter β) :
    (Proc.returned (.read w it)).Returns v ↔ w = v := by
  constructor
  · rintro ⟨it', heq⟩
    simp only [Proc.returned.injEq, Result.read.injEq] at heq
    exact heq.1
  · rintro rfl
    exact ⟨it, rfl⟩

/-- The end of the loop of `get_random_bytes_qrng` returns the length of the destination only. -/
theorem ReadCall.not_returns_loop {c : ReadCall β} (hit : c.iter.Filled buf limit xs)
    (hret : c.ret = c.iter.off) (hbuf : buf ≠ []) {v : ℤ} (hv : v ≠ buf.length) :
    ¬ c.loop.Returns v := by
  intro hloop
  have hphase := ReadPhase.loop rfl hit hret hbuf
  obtain ⟨it, heq⟩ := hloop
  unfold ReadCall.loop at heq hphase
  split_ifs at heq hphase with hcount hzero
  · -- The destination is full, so what is returned is its length.
    simp only [Proc.returned.injEq, Result.read.injEq] at heq
    rw [hit.count_eq] at hcount
    have hoff := hit.off_eq
    apply hv
    rw [← heq.1, hret]
    omega
  · have hoff := hit.off_eq
    have hpos : 0 < buf.length := List.length_pos_iff.mpr hbuf
    rw [hit.count_eq] at hcount
    omega

end

/-- A step takes a read to its return with `v`, other than the length of the destination, exactly at
one of the three places. -/
theorem ReadPhase.returns_step (h : ReadPhase nb buf limit P xs) (r : RingBuffer β) (hbuf : buf ≠ [])
    {v : ℤ} (hv : v ≠ buf.length) :
    (P.step r).proc.Returns v ↔ P.Returns v ∨ P.earlyReturn r = some v := by
  cases h with
  | @start c pc _ hpc hnb hit hret hxs =>
    -- The first place is the test: `-EAGAIN`, or on to the loop.
    have hfilled : c.iter.Filled buf limit [] := by
      rw [hit]
      exact IovIter.filled_start buf limit
    have hoff : c.iter.off = 0 := by rw [hit]; rfl
    rcases hpc with rfl | ⟨k, rfl⟩
    · simp [Proc.step, ReadCall.step, Proc.earlyReturn]
    · have hcount : iovIterCount c.iter ≠ 0 := by
        rw [hfilled.count_eq, hoff]
        exact (List.length_pos_iff.mpr hbuf).ne'
      have hloop := ReadCall.not_returns_loop hfilled (hret.trans hoff.symm) hbuf hv
      simp only [Proc.step, ReadCall.step, Proc.earlyReturn, Proc.not_returns_read, false_or,
        if_neg hcount]
      split_ifs
      · simp
      · simpa using hloop
  | @take c _ hnb hit hlt hret =>
    simp only [Proc.step, ReadCall.step, Proc.earlyReturn, Proc.not_returns_read, false_or,
      getRandomByte]
    -- The second place is the take, where a read that does not block returns what it has so far.
    cases hready : r.readReady with
    | true => simp
    | false =>
      simp only [Bool.false_eq_true, if_false, Bool.not_false, Bool.true_and]
      split_ifs
      · simp
      · simp
  | @held c pc b _ ys hpc hnb hit hlt hret hxs =>
    cases pc with
    | copy b' =>
      -- The last copy returns the length of the destination, which `v` is not.
      obtain ⟨hit', hoff', -⟩ := hit.copyToIter hlt b'
      have hloop := ReadCall.not_returns_loop (c := { c with
        iter := (copyToIter b' c.iter).2
        ret := c.ret + (copyToIter b' c.iter).1 }) hit' (by simp only; rw [hoff', hret]) hbuf hv
      simpa [Proc.step, ReadCall.step, Proc.earlyReturn] using hloop
    | wakeFlag b' k =>
      simp only [Proc.step, ReadCall.step, Proc.earlyReturn]
      split_ifs <;> simp
    | _ => simp_all [Proc.step, ReadCall.step, Proc.earlyReturn, ReadPc.held]
  | @wait c pc _ hpc hnb hblock hit hlt hret =>
    cases pc with
    -- The third place is the test in the wait: `-ERESTARTSYS` after a signal.
    | waitFlag woken k =>
      have hloop := ReadCall.not_returns_loop hit hret hbuf hv
      simp only [Proc.step, ReadCall.step, Proc.earlyReturn, Proc.not_returns_read, false_or]
      cases hk : r.qrngBuffReady k with
      | true => simpa using hloop
      | false => cases hs : c.sig <;> simp
    | _ => simp_all [Proc.step, ReadCall.step, Proc.earlyReturn, ReadPc.waiting]
  | again hnb hit hxs => simp [Proc.step, Proc.earlyReturn]
  | short hnb hit hlt => simp [Proc.step, Proc.earlyReturn]
  | full hit hoff => simp [Proc.step, Proc.earlyReturn]
  | interrupted hnb hit hlt => simp [Proc.step, Proc.earlyReturn]

omit [Zero β] in
/-- Others do not change whether a read has returned. -/
theorem ReadPhase.returns_nudge {P' : Proc β} (h : ReadPhase nb buf limit P xs) (hn : P.Nudge P')
    (v : ℤ) : P'.Returns v ↔ P.Returns v := by
  rcases P with _ | ⟨c, pc⟩ | ⟨c, pc⟩ | ⟨c, pc⟩ | res
  · cases h
  · obtain ⟨s, pc', rfl, -⟩ := hn.read
    simp
  · cases h
  · cases h
  · rw [hn.returned]

/-- What a read has returned stays. -/
theorem Proc.Returns.step {σ : Driver β} {p : Pid} {l : Label β} {v : ℤ} (hl : l.KeepsCall p)
    (h : (σ.procs p).Returns v) : ((σ.step l).procs p).Returns v := by
  obtain ⟨it, heq⟩ := h
  exact ⟨it, Driver.returned_step hl heq⟩

/-- A read of a nonempty destination has returned `v`, other than the length of the destination,
exactly when it has come to one of the three places where it returns `v` early. -/
theorem Driver.read_returns_iff {ls ls' : List (Label β)} {p : Pid}
    (hfree : (((init : Driver β).run ls).procs p).free = true) (kiocb : Kiocb) {buf : List β}
    (hbuf : buf ≠ []) (limit : ℕ) (hkeep : ∀ l ∈ ls', l.KeepsCall p) {v : ℤ}
    (hv : v ≠ buf.length) :
    (((enter ls p (.read kiocb buf limit)).run ls').procs p).Returns v ↔
      ∃ t, At Driver.step (enter ls p (.read kiocb buf limit)) ls' t (.sched p) ∧
        (t.procs p).earlyReturn t.ring = some v := by
  refine (readPhases kiocb.nonblocking buf limit).mark (M := Proc.Returns v)
    (B := fun r P => P.earlyReturn r = some v) (fun _ h => h.returns_step _ hbuf hv)
    (fun h hn => h.returns_nudge hn v) hkeep (CallInvariant.enter hfree (.entry kiocb buf limit)) ?_
  rw [(enter_of_free hfree).1]
  exact Proc.not_returns_read _ _ _

/-! ## The steps of a read -/

/-- The process is at a take and will find a byte in the ring. -/
def Proc.FindsByte (r : RingBuffer β) : Proc β → Prop
  | .read _ .take => r.readReady = true
  | _ => False

/-- A step takes one byte if the process finds one, and otherwise none. -/
theorem Proc.step_taken (r : RingBuffer β) (P : Proc β) :
    (P.FindsByte r ∧ ∃ b, (P.step r).taken = [b]) ∨ (¬ P.FindsByte r ∧ (P.step r).taken = []) := by
  have hexec := (Proc.step_exec r P).1
  rcases P with _ | ⟨c, pc⟩ | ⟨c, pc⟩ | ⟨c, pc⟩ | res
  · exact Or.inr ⟨id, rfl⟩
  · cases pc with
    | take =>
      simp only [Proc.sections, exec, RingBuffer.step, getRandomByte] at hexec
      rw [hexec]
      simp only [Proc.FindsByte]
      cases hready : r.readReady with
      | true => exact Or.inl ⟨rfl, _, rfl⟩
      | false => exact Or.inr ⟨by simp, rfl⟩
    | _ => exact Or.inr ⟨id, hexec⟩
  · refine Or.inr ⟨id, ?_⟩
    cases pc <;> exact hexec
  · exact Or.inr ⟨id, hexec⟩
  · exact Or.inr ⟨id, rfl⟩

namespace Driver

variable {p : Pid} {ls ls' : List (Label β)} {kiocb : Kiocb}

/-- A process that enters a read is in its first phase. -/
theorem enter_read (hfree : (((init : Driver β).run ls).procs p).free = true) (kiocb : Kiocb)
    (buf : List β) (limit : ℕ) :
    InCall (fun P xs _ => ReadPhase kiocb.nonblocking buf limit P xs) p ((init : Driver β).run ls)
      (enter ls p (.read kiocb buf limit)) :=
  CallInvariant.enter hfree (.entry kiocb buf limit)

/-- At each step of a read, it is in some phase. -/
theorem read_at (hfree : (((init : Driver β).run ls).procs p).free = true)
    (hkeep : ∀ l ∈ ls', l.KeepsCall p) {t : Driver β}
    (hat : At Driver.step (enter ls p (.read kiocb buf limit)) ls' t (.sched p)) :
    ∃ xs, ReadPhase kiocb.nonblocking buf limit (t.procs p) xs ∧
      t.ring.Represents t.ring.contents := by
  have hin := hat.invariant (readPhases kiocb.nonblocking buf limit).step hkeep
    (enter_read hfree kiocb buf limit)
  obtain ⟨xs, -, hphase, -, -⟩ := hin.phase
  obtain ⟨q, hrep, -⟩ := hin.accounted
  exact ⟨xs, hphase, by rwa [hrep.contents_eq]⟩

/-- A read has taken something exactly when one of its takes has found a byte. -/
theorem read_taken_iff (hfree : (((init : Driver β).run ls).procs p).free = true) (kiocb : Kiocb)
    (buf : List β) (limit : ℕ) (hkeep : ∀ l ∈ ls', l.KeepsCall p) :
    ((enter ls p (.read kiocb buf limit)).run ls').takenBy p ≠
        (enter ls p (.read kiocb buf limit)).takenBy p ↔
      ∃ t, At Driver.step (enter ls p (.read kiocb buf limit)) ls' t (.sched p) ∧
        (t.procs p).FindsByte t.ring := by
  have hin := enter_read hfree kiocb buf limit
  have htaken0 := (enter_of_free (c := .read kiocb buf limit) hfree).2.2.1
  refine run_iff_exists_at (M := fun τ : Driver β => τ.takenBy p ≠
      (enter ls p (.read kiocb buf limit)).takenBy p)
    (B := fun τ => (τ.procs p).FindsByte τ.ring)
    (readPhases kiocb.nonblocking buf limit).step (fun τ l hl hτ => ?_) hkeep hin (by simp)
  obtain ⟨xs, -, -, htaken, -⟩ := hτ.phase
  rw [← htaken0] at htaken
  by_cases hown : l = .sched p
  · -- The step of a read takes a byte exactly at a take that finds one.
    subst hown
    rw [Driver.step, sched_takenBy, if_pos rfl, htaken]
    rcases (τ.procs p).step_taken τ.ring with ⟨hfinds, b, hb⟩ | ⟨hfinds, hnil⟩
    · simp [hfinds, hb]
    · simp [hfinds, hnil]
  · rw [(step_records τ hown).1]
    simp [hown]

end Driver

end QrngDevice
