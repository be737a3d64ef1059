import QrngDevice.Driver.Steps

/-!
# A write, from its entry to its return

`WritePhase buf limit P xs` says where a process in a write of `buf` can be, given that the write has
appended `xs` so far: always the first `off` bytes of the source, for the offset `off` of its
iterator. `WritePhase.step` shows that its own steps keep this, and `WritePhase.eq_of_nudge` that
others leave a write alone. `Proc.writeRank` bounds the number of its steps, so that every write
returns (`write_returns`).

`write_efault_iff` is about the result `-EFAULT`. The last line of `qrng_write_iter` returns it
whenever nothing was written, so it reports a fault also for a full ring. The theorem says exactly
when it does not.
-/

namespace QrngDevice

open Runs RingBuffer

variable {β : Type*}

/-! ## The phases of a write -/

/-- The iterator walks over `buf`, of which the first `limit` bytes are accessible. -/
structure IovIter.Over (it : IovIter β) (buf : List β) (limit : ℕ) : Prop where
  /-- The source is `buf`. -/
  buf_eq : it.buf = buf
  /-- The limit is `limit`. -/
  limit_eq : it.limit = limit
  /-- Only accessible bytes have been copied. -/
  off_le : it.off ≤ min limit buf.length
  /-- A copy fails only at the limit, with bytes still wanted. -/
  faulted : it.faulted = true → limit ≤ it.off ∧ it.off < buf.length

/-- Where a process in a write can be when the write has appended `xs`. -/
inductive WritePhase (buf : List β) (limit : ℕ) : Proc β → List β → Prop
  /-- At the entry. -/
  | entry {xs : List β} (hxs : xs = []) :
      WritePhase buf limit (.write ⟨.start buf limit, 0⟩ .entry) xs
  /-- Before or in one of the two tests, with bytes still to be written. -/
  | test {c : WriteCall β} {pc : WritePc} {xs : List β}
      (hpc : pc = .testCursor ∨ (∃ k, pc = .testFlag k) ∨ pc = .append)
      (hit : c.iter.Over buf limit) (hlt : c.iter.off < buf.length) (hret : c.ret = c.iter.off)
      (hfault : c.iter.off = 0 → c.iter.faulted = false) (hxs : xs = buf.take c.iter.off) :
      WritePhase buf limit (.write c pc) xs
  /-- Before one of the two wake-ups, after `copied` bytes. -/
  | wake {c : WriteCall β} {pc : WritePc} {xs : List β} {copied : ℕ}
      (hpc : pc = .wakeRead copied ∨ pc = .wakePoll copied) (hpos : 0 < copied)
      (hit : c.iter.Over buf limit) (hret : c.ret + copied = c.iter.off)
      (hxs : xs = buf.take c.iter.off) : WritePhase buf limit (.write c pc) xs
  /-- After an empty write. -/
  | empty {it : IovIter β} {xs : List β} (hbuf : buf = []) (hit : it.Over buf limit)
      (hxs : xs = []) : WritePhase buf limit (.returned (.write 0 it)) xs
  /-- After a write that has written something. -/
  | wrote {it : IovIter β} {xs : List β} (hit : it.Over buf limit) (hpos : 0 < it.off)
      (hxs : xs = buf.take it.off) : WritePhase buf limit (.returned (.write it.off it)) xs
  /-- After a write that has written nothing. -/
  | efault {it : IovIter β} {xs : List β} (hit : it.Over buf limit) (hoff : it.off = 0)
      (hbuf : buf ≠ []) (hxs : xs = []) : WritePhase buf limit (.returned (.write (-EFAULT) it)) xs

variable {buf : List β} {limit : ℕ}

/-- The iterator at the start of a call. -/
theorem IovIter.over_start (buf : List β) (limit : ℕ) :
    (IovIter.start buf limit).Over buf limit :=
  ⟨rfl, rfl, Nat.zero_le _, fun h => absurd h (by simp [IovIter.start])⟩

/-- The end of `qrng_write_iter`. -/
theorem WritePhase.finish {c : WriteCall β} (hit : c.iter.Over buf limit)
    (hret : c.ret = c.iter.off) (hbuf : buf ≠ []) :
    WritePhase buf limit c.finish (buf.take c.iter.off) := by
  unfold WriteCall.finish
  split_ifs with h0
  · rw [hret]
    exact .wrote hit (by omega) rfl
  · have hoff : c.iter.off = 0 := by omega
    exact .efault hit hoff hbuf (by rw [hoff, List.take_zero])

/-- The head of the loop of `qrng_write_iter`. -/
theorem WritePhase.loop {c : WriteCall β} (hit : c.iter.Over buf limit)
    (hret : c.ret = c.iter.off) (hbuf : buf ≠ [])
    (hfault : c.iter.off = 0 → c.iter.faulted = false) :
    WritePhase buf limit c.loop (buf.take c.iter.off) := by
  unfold WriteCall.loop
  split_ifs with hcount
  · unfold iovIterCount at hcount
    rw [hit.buf_eq] at hcount
    exact .test (Or.inl rfl) hit (by omega) hret hfault rfl
  · exact .finish hit hret hbuf

/-- A write section moves the iterator over what it appends. -/
theorem RingBuffer.Appends.over [Zero β] {r : RingBuffer β} {q : List β} {it : IovIter β}
    {s : WriteState β} (h : Appends q ⟨0, r, it⟩ (it.readable.take (BUFF_SIZE - q.length)) s)
    (hq : q.length ≤ BUFF_SIZE) (hit : it.Over buf limit) (hlt : it.off < buf.length) :
    s.iter.Over buf limit := by
  have hlen := it.length_readable
  have hoff := hit.off_le
  rw [hit.buf_eq, hit.limit_eq] at hlen
  have htake : (it.readable.take (BUFF_SIZE - q.length)).length =
      min (BUFF_SIZE - q.length) it.readable.length := List.length_take
  have hoff' : s.iter.off = it.off + min (BUFF_SIZE - q.length) it.readable.length := by
    rw [← htake]
    exact h.off
  refine ⟨h.buf.trans hit.buf_eq, h.limit.trans hit.limit_eq, by omega, fun hf => ?_⟩
  rcases h.faulted.mp hf with hold | ⟨hroom, hmore⟩
  · -- The copy had failed before: nothing more is readable.
    have := hit.faulted hold
    omega
  · -- The copy fails now: all that was readable has been appended.
    have hmore' : it.off + min (BUFF_SIZE - q.length) it.readable.length < buf.length := by
      rw [← htake, ← hit.buf_eq]
      exact hmore
    rw [htake] at hroom
    omega

variable [Zero β] {r : RingBuffer β} {q : List β} {P : Proc β} {xs : List β}

/-- Its own steps take a write from phase to phase. -/
theorem WritePhase.step (h : WritePhase buf limit P xs) (hr : r.Represents q) :
    WritePhase buf limit (P.step r).proc (xs ++ (P.step r).appended) := by
  cases h with
  | entry hxs =>
    subst hxs
    simp only [Proc.step, WriteCall.step]
    split_ifs with hcount
    · have hbuf : buf = [] := List.eq_nil_of_length_eq_zero hcount
      exact .empty hbuf (IovIter.over_start buf limit) rfl
    · have hbuf : buf ≠ [] := by
        rintro rfl
        exact hcount rfl
      exact .loop (c := ⟨.start buf limit, 0⟩) (IovIter.over_start buf limit) rfl hbuf fun _ => rfl
  | @test c pc _ hpc hit hlt hret hfault hxs =>
    have hbuf : buf ≠ [] := List.ne_nil_of_length_pos (by omega)
    rcases hpc with rfl | ⟨k, rfl⟩ | rfl
    · simp only [Proc.step, WriteCall.step, List.append_nil]
      exact .test (Or.inr (Or.inl ⟨_, rfl⟩)) hit hlt hret hfault hxs
    · simp only [Proc.step, WriteCall.step, List.append_nil]
      split_ifs
      · rw [hxs]
        exact .finish hit hret hbuf
      · exact .test (Or.inr (Or.inr rfl)) hit hlt hret hfault hxs
    · -- The section appends the next bytes of the source.
      have hspec := hr.writeRandomBytesQrng_spec c.iter
      have hover := hspec.over hr.holds.length_le hit hlt
      have hoff := hspec.off
      have hsret := hspec.ret
      simp only at hoff hsret
      simp only [Proc.step, WriteCall.step]
      generalize r.writeRandomBytesQrng c.iter = s at hspec hover hoff hsret
      have hxs' : xs ++ (c.iter.buf.drop c.iter.off).take s.ret = buf.take s.iter.off := by
        calc xs ++ (c.iter.buf.drop c.iter.off).take s.ret
            = buf.take c.iter.off ++ (buf.drop c.iter.off).take s.ret := by rw [hxs, hit.buf_eq]
          _ = buf.take (c.iter.off + s.ret) := List.take_add.symm
          _ = buf.take s.iter.off := by rw [hoff, hsret, Nat.zero_add]
      rw [hxs']
      split_ifs with h0
      · exact .finish (c := { c with iter := s.iter }) hover (by simp only; omega) hbuf
      · exact .wake (Or.inl rfl) (Nat.pos_of_ne_zero h0) hover (by simp only; omega) rfl
  | @wake c pc _ copied hpc hpos hit hret hxs =>
    have hoff := hit.off_le
    have hbuf : buf ≠ [] := List.ne_nil_of_length_pos (by omega)
    rcases hpc with rfl | rfl
    · simp only [Proc.step, WriteCall.step, List.append_nil]
      exact .wake (Or.inr rfl) hpos hit hret hxs
    · simp only [Proc.step, WriteCall.step, List.append_nil]
      rw [hxs]
      exact .loop (c := { c with ret := c.ret + copied }) hit hret hbuf
        fun h0 => by simp only at h0; omega
  | empty hbuf hit hxs => simpa [Proc.step] using .empty hbuf hit hxs
  | wrote hit hpos hxs => simpa [Proc.step] using .wrote hit hpos hxs
  | efault hit hoff hbuf hxs => simpa [Proc.step] using .efault hit hoff hbuf hxs

/-! ## The run of a write -/

omit [Zero β] in
/-- A bound on the steps that a write has left. -/
def Proc.writeRank : Proc β → ℕ
  | .write c .entry => 6 * iovIterCount c.iter + 4
  | .write c .testCursor => 6 * iovIterCount c.iter + 3
  | .write c (.testFlag _) => 6 * iovIterCount c.iter + 2
  | .write c .append => 6 * iovIterCount c.iter + 1
  | .write c (.wakeRead _) => 6 * iovIterCount c.iter + 5
  | .write c (.wakePoll _) => 6 * iovIterCount c.iter + 4
  | _ => 0

omit [Zero β] in
/-- The head of the loop is at most three steps from the next section. -/
theorem WriteCall.writeRank_loop (c : WriteCall β) :
    c.loop.writeRank ≤ 6 * iovIterCount c.iter + 3 := by
  unfold WriteCall.loop
  split_ifs
  · exact le_rfl
  · exact Nat.zero_le _

/-- Every step of a write lowers the bound. -/
theorem WritePhase.writeRank_step (h : WritePhase buf limit P xs) (hr : r.Represents q) :
    (P.step r).proc.writeRank ≤ P.writeRank - 1 := by
  cases h with
  | entry hxs =>
    simp only [Proc.step, WriteCall.step]
    split_ifs
    · exact Nat.zero_le _
    · exact (WriteCall.writeRank_loop _).trans (by simp [Proc.writeRank])
  | @test c pc _ hpc hit hlt hret hfault hxs =>
    rcases hpc with rfl | ⟨k, rfl⟩ | rfl
    · simp [Proc.step, WriteCall.step, Proc.writeRank]
    · simp only [Proc.step, WriteCall.step]
      split_ifs
      · exact Nat.zero_le _
      · simp [Proc.writeRank]
    · have hspec := hr.writeRandomBytesQrng_spec c.iter
      have hsret := hspec.ret
      have hsoff := hspec.off
      have hsbuf := hspec.buf
      simp only at hsret hsoff hsbuf
      simp only [Proc.step, WriteCall.step]
      split_ifs with h0
      · exact Nat.zero_le _
      · -- The section has appended something, so fewer bytes are left.
        simp only [Proc.writeRank, iovIterCount, hsbuf, hit.buf_eq]
        omega
  | @wake c pc _ copied hpc hpos hit hret hxs =>
    rcases hpc with rfl | rfl
    · simp [Proc.step, WriteCall.step, Proc.writeRank]
    · exact (WriteCall.writeRank_loop _).trans (by simp [Proc.writeRank])
  | empty hbuf hit hxs => exact Nat.zero_le _
  | wrote hit hpos hxs => exact Nat.zero_le _
  | efault hit hoff hbuf hxs => exact Nat.zero_le _

omit [Zero β] in
/-- Others leave a process that is in a write, or has returned from one, as it is. -/
theorem WritePhase.eq_of_nudge {P' : Proc β} (h : WritePhase buf limit P xs) (hn : P.Nudge P') :
    P' = P := by
  cases h with
  | entry hxs => exact hn.write
  | test hpc hit hlt hret hfault hxs => exact hn.write
  | wake hpc hpos hit hret hxs => exact hn.write
  | empty hbuf hit hxs => exact hn.returned
  | wrote hit hpos hxs => exact hn.returned
  | efault hit hoff hbuf hxs => exact hn.returned

omit [Zero β] in
/-- A write of `n` bytes has at most `6 n + 4` steps left. -/
theorem WritePhase.writeRank_le (h : WritePhase buf limit P xs) :
    P.writeRank ≤ 6 * buf.length + 4 := by
  cases h with
  | entry hxs => exact le_rfl
  | test hpc hit hlt hret hfault hxs =>
    rcases hpc with rfl | ⟨k, rfl⟩ | rfl <;> simp only [Proc.writeRank, iovIterCount, hit.buf_eq] <;>
      omega
  | wake hpc hpos hit hret hxs =>
    have hoff := hit.off_le
    rcases hpc with rfl | rfl <;> simp only [Proc.writeRank, iovIterCount, hit.buf_eq] <;> omega
  | empty hbuf hit hxs => exact Nat.zero_le _
  | wrote hit hpos hxs => exact Nat.zero_le _
  | efault hit hoff hbuf hxs => exact Nat.zero_le _

omit [Zero β] in
/-- A write appends its source from the front. -/
theorem WritePhase.isPrefix (h : WritePhase buf limit P xs) : xs <+: buf := by
  cases h with
  | entry hxs => exact hxs ▸ List.nil_prefix
  | test hpc hit hlt hret hfault hxs => exact hxs ▸ List.take_prefix _ _
  | wake hpc hpos hit hret hxs => exact hxs ▸ List.take_prefix _ _
  | empty hbuf hit hxs => exact hxs ▸ List.nil_prefix
  | wrote hit hpos hxs => exact hxs ▸ List.take_prefix _ _
  | efault hit hoff hbuf hxs => exact hxs ▸ List.nil_prefix

omit [Zero β] in
/-- The iterator that a write returns with. -/
theorem WritePhase.iter_over {ret : ℤ} {it : IovIter β}
    (h : WritePhase buf limit (.returned (.write ret it)) xs) : it.Over buf limit := by
  cases h with
  | empty hbuf hit hxs => exact hit
  | wrote hit hpos hxs => exact hit
  | efault hit hoff hbuf hxs => exact hit

omit [Zero β] in
/-- A write with no step left has returned. -/
theorem WritePhase.returned (h : WritePhase buf limit P xs) (h0 : P.writeRank = 0) :
    ∃ ret it, P = .returned (.write ret it) := by
  cases h with
  | entry hxs => simp [Proc.writeRank] at h0
  | test hpc hit hlt hret hfault hxs =>
    rcases hpc with rfl | ⟨k, rfl⟩ | rfl <;> simp [Proc.writeRank] at h0
  | wake hpc hpos hit hret hxs =>
    rcases hpc with rfl | rfl <;> simp [Proc.writeRank] at h0
  | empty hbuf hit hxs => exact ⟨_, _, rfl⟩
  | wrote hit hpos hxs => exact ⟨_, _, rfl⟩
  | efault hit hoff hbuf hxs => exact ⟨_, _, rfl⟩

omit [Zero β] in
/-- A write starts at its entry. -/
theorem WritePhase.start (buf : List β) (limit : ℕ) :
    WritePhase buf limit (.start (.write buf limit)) [] := .entry rfl

/-- What `WritePhase` says stays true in the course of a write. -/
theorem writePhases (buf : List β) (limit : ℕ) :
    CallInvariant fun P _ xs => WritePhase buf limit P xs where
  own hrep h := h.step hrep
  nudge h hn := by rwa [h.eq_of_nudge hn]

namespace Driver

variable {p : Pid}

/-- A write of `n` bytes has returned after `6 n + 4` steps of its own. -/
theorem write_returns {ls ls' : List (Label β)}
    (hfree : (((init : Driver β).run ls).procs p).free = true) (buf : List β) (limit : ℕ)
    (hkeep : ∀ l ∈ ls', l.KeepsCall p)
    (hsteps : 6 * buf.length + 4 ≤ ls'.countP (Label.isSched p)) :
    ∃ ret it, ((enter ls p (.write buf limit)).run ls').procs p = .returned (.write ret it) := by
  have hrank := (writePhases buf limit).rank (M := Proc.writeRank)
    (fun hrep h => h.writeRank_step hrep) (fun h hn => by rw [h.eq_of_nudge hn]) hkeep
    (CallInvariant.enter hfree (.start buf limit))
  have hstart : ((enter ls p (.write buf limit)).procs p).writeRank = 6 * buf.length + 4 := by
    rw [(enter_of_free hfree).1]
    rfl
  obtain ⟨-, xs, hphase, -, -⟩ := ((writePhases buf limit).run hfree (.start buf limit) hkeep).phase
  exact hphase.returned (by omega)

end Driver

/-! ## The result `-EFAULT` -/

omit [Zero β] in
/-- The process is at one of the two tests of a write, has written nothing, and will find the slot at
the cursor that it looks at taken: in a full ring, or with a cursor that has moved on since it was
loaded. -/
def Proc.FindsFull (r : RingBuffer β) : Proc β → Prop
  | .write c (.testFlag k) => c.iter.off = 0 ∧ r.qrngBuffReady k = true
  | .write c .append => c.iter.off = 0 ∧ r.writeReady = false
  | _ => False

omit [Zero β] in
/-- The process has returned `-EFAULT` from a write, and no copy has failed. -/
def Proc.FullEfault (P : Proc β) : Prop :=
  ∃ it, P = .returned (.write (-EFAULT) it) ∧ it.faulted = false

omit [Zero β] in
/-- The end of `qrng_write_iter` returns `-EFAULT` exactly when nothing has been written. -/
theorem WriteCall.fullEfault_finish (c : WriteCall β) :
    c.finish.FullEfault ↔ c.ret = 0 ∧ c.iter.faulted = false := by
  unfold WriteCall.finish Proc.FullEfault
  constructor
  · rintro ⟨it, heq, hfault⟩
    obtain ⟨hret, rfl⟩ : (if c.ret ≠ 0 then (c.ret : ℤ) else -EFAULT) = -EFAULT ∧ c.iter = it := by
      simpa using heq
    refine ⟨?_, hfault⟩
    by_contra h0
    rw [if_pos h0, EFAULT] at hret
    omega
  · rintro ⟨hret, hfault⟩
    exact ⟨c.iter, by simp [hret], hfault⟩

omit [Zero β] in
/-- At the head of the loop, after something has been written, the write will not return
`-EFAULT`. -/
theorem WriteCall.not_fullEfault_loop {c : WriteCall β} (h : c.ret ≠ 0 ∨ iovIterCount c.iter ≠ 0) :
    ¬ c.loop.FullEfault := by
  unfold WriteCall.loop
  split_ifs with hcount
  · rintro ⟨it, heq, -⟩
    cases heq
  · rw [WriteCall.fullEfault_finish]
    exact fun h0 => h.elim (fun hr => hr h0.1) hcount

/-- A step takes a write to `-EFAULT` without a failed copy exactly when it finds no free slot. -/
theorem WritePhase.fullEfault_step (h : WritePhase buf limit P xs) (hr : r.Represents q) :
    (P.step r).proc.FullEfault ↔ P.FullEfault ∨ P.FindsFull r := by
  have hwrite : ∀ (c : WriteCall β) pc, ¬ (Proc.write c pc).FullEfault := by
    rintro c pc ⟨it, heq, -⟩
    cases heq
  cases h with
  | entry hxs =>
    simp only [hwrite, Proc.FindsFull, or_self, iff_false, Proc.step, WriteCall.step]
    split_ifs with hcount
    · rintro ⟨it, heq, -⟩
      simp at heq
    · exact WriteCall.not_fullEfault_loop (Or.inr hcount)
  | @test c pc _ hpc hit hlt hret hfault hxs =>
    rcases hpc with rfl | ⟨k, rfl⟩ | rfl
    · simp [Proc.FindsFull, Proc.step, WriteCall.step, hwrite]
    · simp only [hwrite, Proc.FindsFull, false_or, Proc.step, WriteCall.step]
      cases hk : r.qrngBuffReady k with
      | true =>
        rw [if_pos rfl, WriteCall.fullEfault_finish, hret]
        exact ⟨fun h => ⟨h.1, rfl⟩, fun h => ⟨h.1, hfault h.1⟩⟩
      | false => simp [hwrite]
    · -- Without a byte written before, the section reports nothing if the ring is full or the first
      -- copy fails.
      have hspec := hr.writeRandomBytesQrng_spec c.iter
      have hfull : r.writeReady = false ↔ ¬ q.length < BUFF_SIZE := by
        rw [← hr.writeReady_iff, Bool.not_eq_true]
      simp only [hwrite, Proc.FindsFull, false_or, Proc.step, WriteCall.step]
      rw [hfull]
      have hsret := hspec.ret
      have hsfault := hspec.faulted
      simp only [Nat.zero_add] at hsret hsfault
      rw [List.length_take] at hsret
      split_ifs with h0
      · rw [WriteCall.fullEfault_finish]
        simp only
        rw [hret]
        have hlen : (c.iter.readable.take (BUFF_SIZE - q.length)).length = 0 := by
          rw [List.length_take]
          omega
        rw [hlen, hit.buf_eq] at hsfault
        constructor
        · rintro ⟨hoff, hnf⟩
          refine ⟨hoff, fun hroom => ?_⟩
          rw [hsfault.mpr (Or.inr ⟨hroom, hlt⟩)] at hnf
          exact absurd hnf (by simp)
        · rintro ⟨hoff, hroom⟩
          refine ⟨hoff, Bool.eq_false_iff.mpr fun hf => ?_⟩
          rcases hsfault.mp hf with hold | ⟨hlt', -⟩
          · rw [hfault hoff] at hold
            exact absurd hold (by simp)
          · exact hroom hlt'
      · simp only [hwrite, false_iff, not_and]
        intro _
        omega
  | @wake c pc _ copied hpc hpos hit hret hxs =>
    rcases hpc with rfl | rfl
    · simp [Proc.FindsFull, Proc.step, WriteCall.step, hwrite]
    · simp only [hwrite, Proc.FindsFull, or_self, iff_false, Proc.step, WriteCall.step]
      exact WriteCall.not_fullEfault_loop (Or.inl (by simp only; omega))
  | empty hbuf hit hxs => simp [Proc.FindsFull, Proc.step]
  | wrote hit hpos hxs => simp [Proc.FindsFull, Proc.step]
  | efault hit hoff hbuf hxs => simp [Proc.FindsFull, Proc.step]

namespace Driver

/-- A write has returned `-EFAULT` without a failed copy exactly when it has found no free slot before
it had written anything. -/
theorem fullEfault_iff {ls ls' : List (Label β)} {p : Pid}
    (hfree : (((init : Driver β).run ls).procs p).free = true) (buf : List β) (limit : ℕ)
    (hkeep : ∀ l ∈ ls', l.KeepsCall p) :
    (((enter ls p (.write buf limit)).run ls').procs p).FullEfault ↔
      ∃ t, At Driver.step (enter ls p (.write buf limit)) ls' t (.sched p) ∧
        (t.procs p).FindsFull t.ring := by
  have hstart : ¬ ((enter ls p (.write buf limit)).procs p).FullEfault := by
    rintro ⟨it, heq, -⟩
    rw [(enter_of_free hfree).1] at heq
    cases heq
  exact (writePhases buf limit).mark (fun hrep h => h.fullEfault_step hrep)
    (fun h hn => by rw [h.eq_of_nudge hn]) hkeep (CallInvariant.enter hfree (.start buf limit)) hstart

/-- When a write reports a fault only for a fault. It returns, and then it has
returned `-EFAULT` only after a failed copy, and not at all if its whole source is readable, exactly
if neither of its two tests has found the slot at its cursor taken before it had written anything. -/
theorem write_efault_iff {ls ls' : List (Label β)} {p : Pid}
    (hfree : (((init : Driver β).run ls).procs p).free = true) (buf : List β) (limit : ℕ)
    (hkeep : ∀ l ∈ ls', l.KeepsCall p)
    (hsteps : 6 * buf.length + 4 ≤ ls'.countP (Label.isSched p)) :
    ∃ ret it,
      ((enter ls p (.write buf limit)).run ls').procs p = .returned (.write ret it) ∧
        (((ret = -EFAULT → it.faulted = true) ∧ (buf.length ≤ limit → ret ≠ -EFAULT)) ↔
          ∀ t, At Driver.step (enter ls p (.write buf limit)) ls' t (.sched p) →
            ¬ (t.procs p).FindsFull t.ring) := by
  obtain ⟨ret, it, hret⟩ := write_returns hfree buf limit hkeep hsteps
  have hfull := fullEfault_iff hfree buf limit hkeep
  obtain ⟨-, xs, hphase, -, -⟩ := ((writePhases buf limit).run hfree (.start buf limit) hkeep).phase
  rw [hret] at hfull hphase
  refine ⟨ret, it, hret, ?_⟩
  constructor
  · rintro ⟨hfault, -⟩ t hat hfinds
    obtain ⟨it', heq, hnf⟩ := hfull.mpr ⟨t, hat, hfinds⟩
    obtain ⟨rfl, rfl⟩ : ret = -EFAULT ∧ it = it' := by simpa using heq
    rw [hfault rfl] at hnf
    exact absurd hnf (by simp)
  · intro hnever
    have hfault : ret = -EFAULT → it.faulted = true := by
      rintro rfl
      by_contra hnf
      obtain ⟨t, hat, hfinds⟩ := hfull.mp ⟨it, rfl, by simpa using hnf⟩
      exact hnever t hat hfinds
    refine ⟨hfault, fun hreadable heq => ?_⟩
    -- A copy cannot fail in a readable source.
    have hlimit := (hphase.iter_over).faulted (hfault heq)
    omega

/-- Process 1 loads the cursor of its first test, process 2 writes a byte to the slot there, and process 1
goes on. -/
def writeBetweenLoads : List (Label UInt8) :=
  [.sched 1, .sched 1, .call 2 (.write [9] 1)] ++ List.replicate 10 (.sched 2) ++
    List.replicate 10 (.sched 1)

/-- The theorem for that run: the write of process 1 returns `-EFAULT`, and it has found the slot taken. -/
theorem write_efault_iff_stale :
    ∃ t, At Driver.step (enter [] 1 (.write [(7 : UInt8)] 1)) writeBetweenLoads t (.sched 1) ∧
      (t.procs 1).FindsFull t.ring := by
  have hfree : (((init : Driver UInt8).run []).procs 1).free = true := rfl
  have hkeep : ∀ l ∈ writeBetweenLoads, l.KeepsCall 1 := by simp [writeBetweenLoads, Label.KeepsCall]
  obtain ⟨ret, it, hret, hiff⟩ := write_efault_iff hfree [7] 1 hkeep (by decide)
  -- The whole source is readable, so the property excludes this result.
  have hproc : ((enter [] 1 (.write [(7 : UInt8)] 1)).run writeBetweenLoads).procs 1 =
      .returned (.write (-EFAULT) (.start [7] 1)) := rfl
  rw [hproc] at hret
  obtain rfl : -EFAULT = ret := by cases hret; rfl
  by_contra hnot
  push Not at hnot
  exact (hiff.mpr hnot).2 le_rfl rfl

/-! ## A full ring -/

/-- With nobody else at work, a write into a full ring returns `-EFAULT` at its first test. -/
theorem write_of_full {ls : List (Label β)} {p : Pid}
    (hfree : (((init : Driver β).run ls).procs p).free = true)
    (hfull : ((init : Driver β).run ls).ring.writeReady = false) (b : β) (bs : List β) (limit : ℕ) :
    ((enter ls p (.write (b :: bs) limit)).run [.sched p, .sched p, .sched p]).procs p =
      .returned (.write (-EFAULT) (.start (b :: bs) limit)) := by
  unfold enter
  generalize (init : Driver β).run ls = σ at hfree hfull
  have hflag : σ.ring.qrngBuffReady σ.ring.qrngBuffWriteIt = true := by
    simpa [writeReady] using hfull
  simp [Driver.step, hfree, sched, Proc.start, Proc.step, WriteCall.step, WriteCall.loop,
    WriteCall.finish, iovIterCount, IovIter.start, hflag]

/-- With nobody else at work, the first section of a write is its fourth step. -/
theorem write_section {σ : Driver β} {p : Pid} (hfree : (σ.procs p).free = true)
    (hready : σ.ring.writeReady = true) (b : β) (bs : List β) (limit : ℕ) :
    (σ.run [.call p (.write (b :: bs) limit), .sched p, .sched p, .sched p, .sched p]).ring =
      (σ.ring.writeRandomBytesQrng (.start (b :: bs) limit)).ring := by
  have hflag : σ.ring.qrngBuffReady σ.ring.qrngBuffWriteIt = false := by
    simpa [writeReady] using hready
  simp [Driver.step, hfree, sched, Proc.start, Proc.step, WriteCall.step, WriteCall.loop,
    WriteCall.finish, iovIterCount, IovIter.start, hflag]

/-- Process 0 writes `b :: bs`, up to the end of the first section. -/
def writeOnce (b : β) (bs : List β) (limit : ℕ) : List (Label β) :=
  [.call 0 (.write (b :: bs) limit), .sched 0, .sched 0, .sched 0, .sched 0]

/-- A first write of enough bytes fills the ring. -/
theorem writeOnce_full (b : β) (bs : List β) (limit : ℕ) (hlimit : BUFF_SIZE ≤ limit)
    (hlen : BUFF_SIZE ≤ bs.length + 1) :
    ((init : Driver β).run (writeOnce b bs limit)).ring.writeReady = false := by
  have hrep := ((represents_init (β := β)).writeRandomBytesQrng_spec
    (.start (b :: bs) limit)).represents
  have hring := write_section (σ := (init : Driver β)) (p := 0) rfl rfl b bs limit
  rw [writeOnce, hring, ← Bool.not_eq_true]
  change ¬ (RingBuffer.init.writeRandomBytesQrng _).ring.writeReady = true
  rw [hrep.writeReady_iff, List.nil_append, List.length_take, IovIter.length_readable]
  simp only [IovIter.start, List.length_nil, List.length_cons]
  omega

/-- Only process 0 makes a call in it. -/
theorem writeOnce_free (b : β) (bs : List β) (limit : ℕ) :
    (((init : Driver β).run (writeOnce b bs limit)).procs 1).free = true :=
  run_free (by simp [writeOnce, Label.KeepsCall])

/-- Process 0 has filled the ring, and process 1 writes one byte. -/
theorem write_efault_full_ring :
    ∃ ret it, ((enter (writeOnce (0 : UInt8) (List.replicate 1023 0) 1024) 1 (.write [7] 1)).run
        [.sched 1, .sched 1, .sched 1]).procs 1 = .returned (.write ret it) ∧
      ¬ ((ret = -EFAULT → it.faulted = true) ∧ ([(7 : UInt8)].length ≤ 1 → ret ≠ -EFAULT)) := by
  have hfull := writeOnce_full (0 : UInt8) (List.replicate 1023 0) 1024 le_rfl
    (by rw [List.length_replicate])
  refine ⟨_, _, write_of_full (writeOnce_free _ _ _) hfull 7 [] 1, fun h => ?_⟩
  exact absurd (h.1 rfl) (by decide)

end Driver

end QrngDevice
