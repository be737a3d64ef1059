import QrngDevice.Driver.ReadNonblocking

/-!
# Reads that fail

Two of the error paths of `get_random_bytes_qrng` lose bytes that the read has already taken.

When a signal ends the wait of a blocking read, the call returns `-ERESTARTSYS` whatever it has taken
before, so `interrupted_read_iff` says that it accounts for all bytes exactly if it was not
interrupted or had found the ring empty at every take.

When a copy to the destination fails, `ret` does not grow and the loop goes on, since the count of
bytes left is the same. The last line, with its `-EFAULT`, is reached only with a full destination.
`stopsAtFault_iff` says exactly which reads into a bad destination stop and report the fault.
-/

namespace QrngDevice

open Runs RingBuffer

variable {β : Type*} {buf : List β} {limit : ℕ} {P : Proc β} {xs : List β} {nb : Bool}

/-! ## Interrupted reads -/

/-- The process is in the wait of a read, will find the flag clear, and has a signal pending. -/
def Proc.FindsSignal (r : RingBuffer β) : Proc β → Prop
  | .read c (.waitFlag _ k) => r.qrngBuffReady k = false ∧ c.sig = true
  | _ => False

/-- A read returns `-ERESTARTSYS` exactly where its wait finds a signal. -/
theorem ReadPhase.earlyReturn_restart (h : ReadPhase nb buf limit P xs) (r : RingBuffer β) :
    P.earlyReturn r = some (-ERESTARTSYS) ↔ P.FindsSignal r := by
  cases h with
  | @start c pc _ hpc hnb hit hret hxs =>
    rcases hpc with rfl | ⟨k, rfl⟩
    · simp [Proc.earlyReturn, Proc.FindsSignal]
    · simp only [Proc.earlyReturn, Proc.FindsSignal, iff_false]
      split_ifs
      · simp
      · simp
  | @take c _ hnb hit hlt hret =>
    simp only [Proc.earlyReturn, Proc.FindsSignal, iff_false]
    split_ifs
    · -- A count is no error.
      simp only [Option.some.injEq, ERESTARTSYS]
      omega
    · simp
  | @held c pc b _ ys hpc hnb hit hlt hret hxs =>
    cases pc <;> simp [Proc.earlyReturn, Proc.FindsSignal, ReadPc.held] at hpc ⊢
  | @wait c pc _ hpc hnb hblock hit hlt hret =>
    cases pc <;> simp [Proc.earlyReturn, Proc.FindsSignal, ReadPc.waiting] at hpc ⊢
  | again hnb hit hxs => simp [Proc.earlyReturn, Proc.FindsSignal]
  | short hnb hit hlt => simp [Proc.earlyReturn, Proc.FindsSignal]
  | full hit hoff => simp [Proc.earlyReturn, Proc.FindsSignal]
  | interrupted hnb hit hlt => simp [Proc.earlyReturn, Proc.FindsSignal]

namespace Driver

variable [Zero β] {p : Pid} {ls ls' : List (Label β)} {kiocb : Kiocb}

/-- When a blocking read accounts for every byte that it took. After it has returned, a value that is
not negative is the number of bytes taken, and they are at the front of the destination, and after a
negative value nothing was taken, exactly if the read has not both found a signal in its wait and
found a byte at one of its takes. -/
theorem interrupted_read_iff (hfree : (((init : Driver β).run ls).procs p).free = true)
    (hblock : kiocb.nonblocking = false) (hbuf : buf ≠ []) (hlimit : buf.length ≤ limit)
    (hkeep : ∀ l ∈ ls', l.KeepsCall p) {ret : ℤ} {it : IovIter β}
    (hret : ((enter ls p (.read kiocb buf limit)).run ls').procs p = .returned (.read ret it)) :
    (∃ xs, ((enter ls p (.read kiocb buf limit)).run ls').takenBy p =
          (enter ls p (.read kiocb buf limit)).takenBy p ++ xs ∧
        (0 ≤ ret → ret = xs.length ∧ it.buf.take xs.length = xs) ∧ (ret < 0 → xs = [])) ↔
      ¬ ((∃ t, At Driver.step (enter ls p (.read kiocb buf limit)) ls' t (.sched p) ∧
            (t.procs p).FindsSignal t.ring) ∧
          ∃ t, At Driver.step (enter ls p (.read kiocb buf limit)) ls' t (.sched p) ∧
            (t.procs p).FindsByte t.ring) := by
  have hrun := (readPhases kiocb.nonblocking buf limit).run hfree (.entry kiocb buf limit) hkeep
  obtain ⟨xs, -, hphase, htaken, -⟩ := hrun.phase
  rw [← (enter_of_free (c := .read kiocb buf limit) hfree).2.2.1] at htaken
  have hrestart := read_returns_iff hfree kiocb hbuf limit hkeep (v := -ERESTARTSYS)
    (by simp only [ERESTARTSYS]; omega)
  have hsome := read_taken_iff hfree kiocb buf limit hkeep
  have hsignal : (∃ t, At Driver.step (enter ls p (.read kiocb buf limit)) ls' t (.sched p) ∧
      (t.procs p).FindsSignal t.ring) ↔ ret = -ERESTARTSYS := by
    rw [hret, Proc.returns_returned] at hrestart
    rw [hrestart]
    constructor
    · rintro ⟨t, hat, hsig⟩
      obtain ⟨ys, hphase, -⟩ := read_at hfree hkeep hat
      exact ⟨t, hat, (hphase.earlyReturn_restart _).mpr hsig⟩
    · rintro ⟨t, hat, hearly⟩
      obtain ⟨ys, hphase, -⟩ := read_at hfree hkeep hat
      exact ⟨t, hat, (hphase.earlyReturn_restart _).mp hearly⟩
  rw [hsignal, ← hsome, htaken]
  simp only [ne_eq, List.append_right_eq_self, List.append_cancel_left_eq, not_and, not_not,
    exists_eq_left']
  rw [hret, hblock] at hphase
  -- Only a read with its destination full, and an interrupted one, can have returned in blocking
  -- mode.
  cases hphase with
  | again hnb hit hxs => exact absurd hnb (by simp)
  | short hnb hit hlt => exact absurd hnb (by simp)
  | full hit hoff =>
    obtain ⟨hlen, htake⟩ := hit.take_eq hlimit
    have hpos : 0 < buf.length := List.length_pos_iff.mpr hbuf
    refine ⟨fun _ h => ?_, fun _ => ⟨fun _ => ⟨by rw [hlen], htake⟩, fun h => ?_⟩⟩
    · simp only [ERESTARTSYS] at h
      omega
    · omega
  | interrupted hnb hit hlt =>
    -- The value is negative, so the property says that nothing was taken.
    refine ⟨fun h _ => h.2 (by simp [ERESTARTSYS]), fun h => ⟨fun h0 => ?_, fun _ => h rfl⟩⟩
    simp only [ERESTARTSYS] at h0
    omega

/-- Process 1 takes the only byte and waits for a second one until a signal ends its wait. -/
def signalInWait : List (Label UInt8) :=
  List.replicate 12 (.sched 1) ++ [.signal 1, .sched 1, .sched 1, .sched 1]

/-- In that run, the read of process 1 returns `-ERESTARTSYS` and the byte is lost. -/
theorem interrupted_read_loses_byte :
    ∃ ret it, ((enter oneByte 1 (.read ⟨false, false, false⟩ [0, 0] 2)).run signalInWait).procs 1 =
        .returned (.read ret it) ∧
      ¬ ∃ xs, ((enter oneByte 1 (.read ⟨false, false, false⟩ [0, 0] 2)).run signalInWait).takenBy 1 =
          (enter oneByte 1 (.read ⟨false, false, false⟩ [0, 0] 2)).takenBy 1 ++ xs ∧
        (0 ≤ ret → ret = xs.length ∧ it.buf.take xs.length = xs) ∧ (ret < 0 → xs = []) := by
  refine ⟨-ERESTARTSYS, ⟨[7, 0], 1, 2, false⟩, rfl, ?_⟩
  rintro ⟨xs, htaken, -, hneg⟩
  have hnil := hneg (by decide)
  rw [hnil] at htaken
  exact absurd htaken (by decide)

/-- The theorem for that run, where the property fails: the wait of the read has found the signal, and
one of its takes the byte. -/
theorem interrupted_read_iff_signal_in_wait :
    (∃ t, At Driver.step (enter oneByte 1 (.read ⟨false, false, false⟩ [0, 0] 2)) signalInWait t
        (.sched 1) ∧ (t.procs 1).FindsSignal t.ring) ∧
      ∃ t, At Driver.step (enter oneByte 1 (.read ⟨false, false, false⟩ [0, 0] 2)) signalInWait t
        (.sched 1) ∧ (t.procs 1).FindsByte t.ring := by
  have hkeep : ∀ l ∈ signalInWait, l.KeepsCall 1 := by simp [signalInWait, Label.KeepsCall]
  have hret : ((enter oneByte 1 (.read ⟨false, false, false⟩ [0, 0] 2)).run signalInWait).procs 1 =
      .returned (.read (-ERESTARTSYS) ⟨[7, 0], 1, 2, false⟩) := rfl
  by_contra hnot
  obtain ⟨xs, htaken, -, hneg⟩ :=
    (interrupted_read_iff oneByte_free rfl (by simp) le_rfl hkeep hret).mpr hnot
  rw [hneg (by decide)] at htaken
  exact absurd htaken (by decide)

end Driver

/-! ## Reads into a bad destination -/

/-- A copy to the destination of the read has failed. -/
def Proc.Faulted : Proc β → Prop
  | .read c _ => c.iter.faulted = true
  | .returned (.read _ it) => it.faulted = true
  | _ => False

/-- The process is at a take with the accessible part of its destination used up, and will find a
byte. -/
def Proc.TakesPastEnd (r : RingBuffer β) : Proc β → Prop
  | .read c .take => c.iter.off = c.iter.limit ∧ r.readReady = true
  | _ => False

/-- The process is at a take although a copy has failed, and will find a byte. -/
def Proc.TakesAfterFault (r : RingBuffer β) : Proc β → Prop
  | .read c .take => c.iter.faulted = true ∧ r.readReady = true
  | _ => False

/-- How far a read that has taken one byte too many is from the failing copy. -/
def Proc.faultRank : Proc β → ℕ
  | .read c pc => if c.iter.faulted then 0 else pc.rank
  | _ => 0

/-- In a bad destination, bytes are copied up to the limit, and a copy has failed when there were
more. -/
theorem IovIter.Filled.bad {it : IovIter β} (h : it.Filled buf limit xs)
    (hlimit : limit < buf.length) :
    it.off = min xs.length limit ∧ (it.faulted = true ↔ limit < xs.length) ∧ it.limit = limit := by
  have hoff := h.off_eq
  refine ⟨by omega, ?_, h.limit_eq⟩
  rw [h.faulted]
  omega

/-- A read into a bad destination has taken more than the limit when a copy has failed, and at most
one byte more before that. -/
theorem ReadPhase.lt_length_of_faulted (h : ReadPhase nb buf limit P xs)
    (hlimit : limit < buf.length) (hf : P.Faulted) : limit < xs.length := by
  cases h with
  | @start c pc _ hpc hnb hit hret hxs =>
    simp only [Proc.Faulted, hit] at hf
    exact absurd hf (by simp [IovIter.start])
  | take hnb hit hlt hret => exact (hit.bad hlimit).2.1.mp hf
  | @held c pc b _ ys hpc hnb hit hlt hret hxs =>
    have hys := (hit.bad hlimit).2.1.mp hf
    rw [hxs, List.length_append]
    omega
  | wait hpc hnb hblock hit hlt hret => exact (hit.bad hlimit).2.1.mp hf
  | again hnb hit hxs =>
    simp only [Proc.Faulted, hit] at hf
    exact absurd hf (by simp [IovIter.start])
  | short hnb hit hlt => exact (hit.bad hlimit).2.1.mp hf
  | full hit hoff => exact (hit.bad hlimit).2.1.mp hf
  | interrupted hnb hit hlt => exact (hit.bad hlimit).2.1.mp hf

/-- A take past the end is one that finds a byte when the read has taken all that fits. -/
theorem ReadPhase.takesPastEnd_iff (h : ReadPhase nb buf limit P xs) (hlimit : limit < buf.length)
    (r : RingBuffer β) : P.TakesPastEnd r ↔ limit ≤ xs.length ∧ P.FindsByte r := by
  cases h with
  | start hpc hnb hit hret hxs =>
    rcases hpc with rfl | ⟨k, rfl⟩ <;> simp [Proc.TakesPastEnd, Proc.FindsByte]
  | take hnb hit hlt hret =>
    obtain ⟨hoff, -, hlim⟩ := hit.bad hlimit
    simp only [Proc.TakesPastEnd, Proc.FindsByte, hoff, hlim]
    rw [min_eq_right_iff]
  | @held c pc b _ ys hpc hnb hit hlt hret hxs =>
    cases pc <;> simp [Proc.TakesPastEnd, Proc.FindsByte, ReadPc.held] at hpc ⊢
  | @wait c pc _ hpc hnb hblock hit hlt hret =>
    cases pc <;> simp [Proc.TakesPastEnd, Proc.FindsByte, ReadPc.waiting] at hpc ⊢
  | again hnb hit hxs => simp [Proc.TakesPastEnd, Proc.FindsByte]
  | short hnb hit hlt => simp [Proc.TakesPastEnd, Proc.FindsByte]
  | full hit hoff => simp [Proc.TakesPastEnd, Proc.FindsByte]
  | interrupted hnb hit hlt => simp [Proc.TakesPastEnd, Proc.FindsByte]

/-- A take after a failed copy is one that finds a byte when the read has taken more than fits. -/
theorem ReadPhase.takesAfterFault_iff (h : ReadPhase nb buf limit P xs)
    (hlimit : limit < buf.length) (r : RingBuffer β) :
    P.TakesAfterFault r ↔ limit + 1 ≤ xs.length ∧ P.FindsByte r := by
  cases h with
  | start hpc hnb hit hret hxs =>
    rcases hpc with rfl | ⟨k, rfl⟩ <;> simp [Proc.TakesAfterFault, Proc.FindsByte]
  | take hnb hit hlt hret =>
    simp only [Proc.TakesAfterFault, Proc.FindsByte, (hit.bad hlimit).2.1]
    exact Iff.rfl
  | @held c pc b _ ys hpc hnb hit hlt hret hxs =>
    cases pc <;> simp [Proc.TakesAfterFault, Proc.FindsByte, ReadPc.held] at hpc ⊢
  | @wait c pc _ hpc hnb hblock hit hlt hret =>
    cases pc <;> simp [Proc.TakesAfterFault, Proc.FindsByte, ReadPc.waiting] at hpc ⊢
  | again hnb hit hxs => simp [Proc.TakesAfterFault, Proc.FindsByte]
  | short hnb hit hlt => simp [Proc.TakesAfterFault, Proc.FindsByte]
  | full hit hoff => simp [Proc.TakesAfterFault, Proc.FindsByte]
  | interrupted hnb hit hlt => simp [Proc.TakesAfterFault, Proc.FindsByte]

/-- A read that has taken more than fits, and no copy of which has failed, has the byte in hand. -/
theorem ReadPhase.faulted_of_faultRank (h : ReadPhase nb buf limit P xs)
    (hlimit : limit < buf.length) (hxs : limit < xs.length) (h0 : P.faultRank = 0) :
    P.Faulted := by
  cases h with
  | start hpc hnb hit hret hxs' => simp [hxs'] at hxs
  | take hnb hit hlt hret => exact (hit.bad hlimit).2.1.mpr hxs
  | @held c pc b _ ys hpc hnb hit hlt hret hxs' =>
    by_contra hf
    cases pc <;> simp_all [Proc.faultRank, Proc.Faulted, ReadPc.rank, ReadPc.held]
  | wait hpc hnb hblock hit hlt hret => exact (hit.bad hlimit).2.1.mpr hxs
  | again hnb hit hxs' => simp [hxs'] at hxs
  | short hnb hit hlt => exact (hit.bad hlimit).2.1.mpr hxs
  | full hit hoff => exact (hit.bad hlimit).2.1.mpr hxs
  | interrupted hnb hit hlt => exact (hit.bad hlimit).2.1.mpr hxs

/-- Nothing is left to do for a copy that has failed. -/
theorem Proc.Faulted.faultRank (h : P.Faulted) : P.faultRank = 0 := by
  rcases P with _ | ⟨c, pc⟩ | ⟨c, pc⟩ | ⟨c, pc⟩ | res
  · rfl
  · exact if_pos h
  · rfl
  · rfl
  · rfl

/-- Others do not change whether a copy has failed. -/
theorem Proc.Nudge.faulted {P' : Proc β} (hn : P.Nudge P') (h : P.Faulted) : P'.Faulted := by
  rcases P with _ | ⟨c, pc⟩ | ⟨c, pc⟩ | ⟨c, pc⟩ | res
  · exact h.elim
  · obtain ⟨s, pc', rfl, -⟩ := hn.read
    exact h
  · exact h.elim
  · exact h.elim
  · rw [hn.returned]
    exact h

/-- Others do not bring a read closer to a failing copy, or further from it. -/
theorem Proc.Nudge.faultRank {P' : Proc β} (hn : P.Nudge P') (h : ReadPhase nb buf limit P xs) :
    P'.faultRank ≤ P.faultRank := by
  rcases P with _ | ⟨c, pc⟩ | ⟨c, pc⟩ | ⟨c, pc⟩ | res
  · cases h
  · obtain ⟨s, pc', rfl, rfl | ⟨-, hw⟩⟩ := hn.read
    · exact le_rfl
    · have hrank : pc'.rank = 0 := by
        cases pc' <;> simp [ReadPc.waiting, ReadPc.rank] at hw ⊢
      simp [Proc.faultRank, hrank]
  · cases h
  · cases h
  · rw [hn.returned]

/-- The loop keeps its iterator. -/
theorem ReadCall.faulted_loop {c : ReadCall β} (h : c.iter.faulted = true) : c.loop.Faulted := by
  unfold ReadCall.loop
  split_ifs <;> exact h

variable [Zero β]

/-- A failed copy stays on record. -/
theorem Proc.Faulted.step (h : P.Faulted) (r : RingBuffer β) : (P.step r).proc.Faulted := by
  rcases P with _ | ⟨c, pc⟩ | ⟨c, pc⟩ | ⟨c, pc⟩ | res
  · exact h.elim
  · cases pc with
    | testFlag k =>
      simp only [Proc.step, ReadCall.step]
      split_ifs
      · exact h
      · exact h
      · exact ReadCall.faulted_loop h
    | take =>
      simp only [Proc.step, ReadCall.step]
      cases r.getRandomByte with
      | none => simp only; split_ifs <;> exact h
      | some br => exact h
    | copy b =>
      -- A copy keeps the mark, or sets it.
      have hcopy : (copyToIter b c.iter).2.faulted = true := by
        unfold copyToIter
        split_ifs
        · exact h
        · rfl
      exact ReadCall.faulted_loop hcopy
    | waitFlag woken k =>
      simp only [Proc.step, ReadCall.step]
      split_ifs
      · exact ReadCall.faulted_loop h
      · exact h
      · exact h
      · exact h
    | _ => exact h
  · exact h.elim
  · exact h.elim
  · exact h

/-- Once a read into a bad destination has taken more than fits, each of its steps brings it closer
to the failing copy. -/
theorem ReadPhase.faultRank_step (h : ReadPhase nb buf limit P xs) (hlimit : limit < buf.length)
    (hxs : limit < xs.length) (r : RingBuffer β) :
    (P.step r).proc.faultRank ≤ P.faultRank - 1 := by
  by_cases hf : P.Faulted
  · rw [(hf.step r).faultRank]
    exact Nat.zero_le _
  · cases h with
    | start hpc hnb hit hret hxs' => simp [hxs'] at hxs
    | take hnb hit hlt hret => exact absurd ((hit.bad hlimit).2.1.mpr hxs) hf
    | @held c pc b _ ys hpc hnb hit hlt hret hxs' =>
      have hnf : c.iter.faulted = false := by simpa [Proc.Faulted] using hf
      cases pc with
      | copy b' =>
        -- The byte in hand does not fit, so this copy fails.
        obtain rfl : b' = b := by simpa [ReadPc.held] using hpc
        obtain ⟨hit', -, -⟩ := hit.copyToIter hlt b'
        rw [← hxs'] at hit'
        have hfault : ((Proc.read c (.copy b')).step r).proc.Faulted :=
          ReadCall.faulted_loop ((hit'.bad hlimit).2.1.mpr hxs)
        rw [hfault.faultRank]
        exact Nat.zero_le _
      | wakeFlag b' k =>
        simp only [Proc.step, ReadCall.step, Proc.faultRank, hnf]
        split_ifs <;> simp_all [ReadPc.rank]
      | wakePoll b' => simp [Proc.step, ReadCall.step, Proc.faultRank, ReadPc.rank, hnf]
      | wakeCursor b' => simp [Proc.step, ReadCall.step, Proc.faultRank, ReadPc.rank, hnf]
      | wakeRead b' => simp [Proc.step, ReadCall.step, Proc.faultRank, ReadPc.rank, hnf]
      | _ => simp [ReadPc.held] at hpc
    | wait hpc hnb hblock hit hlt hret => exact absurd ((hit.bad hlimit).2.1.mpr hxs) hf
    | again hnb hit hxs' => simp [hxs'] at hxs
    | short hnb hit hlt => exact absurd ((hit.bad hlimit).2.1.mpr hxs) hf
    | full hit hoff => exact absurd ((hit.bad hlimit).2.1.mpr hxs) hf
    | interrupted hnb hit hlt => exact absurd ((hit.bad hlimit).2.1.mpr hxs) hf

namespace Driver

variable {p : Pid} {ls : List (Label β)} {kiocb : Kiocb} {sched : ℕ → Label β}

/-- From `σ` on, process `p` takes at most `limit + 1` bytes, and once a copy has failed it returns
`limit`, or `-EFAULT` if nothing was copied. -/
def StopsAtFault (p : Pid) (limit : ℕ) (σ : Driver β) (sched : ℕ → Label β) : Prop :=
  (∀ n, ((after Driver.step σ sched n).takenBy p).length ≤ (σ.takenBy p).length + (limit + 1)) ∧
    ((∃ n, ((after Driver.step σ sched n).procs p).Faulted) →
      ∃ n, ((after Driver.step σ sched n).procs p).Returns (if 0 < limit then limit else -EFAULT))

/-- A process has taken more than `m` bytes exactly when one of its takes has found a byte after it
had taken `m`. -/
theorem taken_lt_iff (σ : Driver β) (sched : ℕ → Label β) (p : Pid) (m n : ℕ) :
    (σ.takenBy p).length + m < ((after Driver.step σ sched n).takenBy p).length ↔
      ∃ i < n, sched i = .sched p ∧
        (σ.takenBy p).length + m ≤ ((after Driver.step σ sched i).takenBy p).length ∧
        ((after Driver.step σ sched i).procs p).FindsByte (after Driver.step σ sched i).ring := by
  refine after_iff_exists (A := fun _ => True) (I := fun _ => True)
    (M := fun τ : Driver β => (σ.takenBy p).length + m < (τ.takenBy p).length)
    (B := fun τ => (σ.takenBy p).length + m ≤ (τ.takenBy p).length ∧ (τ.procs p).FindsByte τ.ring)
    (fun _ _ _ h => h) (fun τ l _ _ => ?_) (fun _ => trivial) trivial (by simp) n
  by_cases hown : l = .sched p
  · subst hown
    rw [Driver.step, sched_takenBy, if_pos rfl, List.length_append]
    rcases (τ.procs p).step_taken τ.ring with ⟨hfinds, b, hb⟩ | ⟨hfinds, hnil⟩
    · simp only [hb, hfinds, List.length_singleton, and_true, true_and]
      omega
    · simp [hfinds, hnil]
  · rw [(step_records τ hown).1]
    simp [hown]

section

variable (hfree : (((init : Driver β).run ls).procs p).free = true) (kiocb : Kiocb) (buf : List β)
  (limit : ℕ) (hkeep : ∀ n, (sched n).KeepsCall p)

include hfree hkeep

/-- At every moment of the schedule, the read is in some phase. -/
theorem read_after (n : ℕ) :
    ∃ xs, ReadPhase kiocb.nonblocking buf limit
        ((after Driver.step (enter ls p (.read kiocb buf limit)) sched n).procs p) xs ∧
      (after Driver.step (enter ls p (.read kiocb buf limit)) sched n).takenBy p =
        (enter ls p (.read kiocb buf limit)).takenBy p ++ xs := by
  have hin := after_invariant (readPhases kiocb.nonblocking buf limit).step hkeep
    (enter_read hfree kiocb buf limit) n
  obtain ⟨xs, -, hphase, htaken, -⟩ := hin.phase
  rw [← (enter_of_free (c := .read kiocb buf limit) hfree).2.2.1] at htaken
  exact ⟨xs, hphase, htaken⟩

/-- A read into a bad destination has taken more than fits exactly when it has made a take past the
end. -/
theorem read_past_iff (hlimit : limit < buf.length) (n : ℕ) :
    ((enter ls p (.read kiocb buf limit)).takenBy p).length + limit <
        ((after Driver.step (enter ls p (.read kiocb buf limit)) sched n).takenBy p).length ↔
      ∃ i < n, sched i = .sched p ∧
        ((after Driver.step (enter ls p (.read kiocb buf limit)) sched i).procs p).TakesPastEnd
          (after Driver.step (enter ls p (.read kiocb buf limit)) sched i).ring := by
  rw [taken_lt_iff]
  refine exists_congr fun i => and_congr_right fun _ => and_congr_right fun _ => ?_
  obtain ⟨xs, hphase, htaken⟩ := read_after hfree kiocb buf limit hkeep i
  rw [hphase.takesPastEnd_iff hlimit, htaken, List.length_append, Nat.add_le_add_iff_left]

/-- It has taken two more than fit exactly when it has made a take after a failed copy. -/
theorem read_past_fault_iff (hlimit : limit < buf.length) (n : ℕ) :
    ((enter ls p (.read kiocb buf limit)).takenBy p).length + (limit + 1) <
        ((after Driver.step (enter ls p (.read kiocb buf limit)) sched n).takenBy p).length ↔
      ∃ i < n, sched i = .sched p ∧
        ((after Driver.step (enter ls p (.read kiocb buf limit)) sched i).procs p).TakesAfterFault
          (after Driver.step (enter ls p (.read kiocb buf limit)) sched i).ring := by
  rw [taken_lt_iff]
  refine exists_congr fun i => and_congr_right fun _ => and_congr_right fun _ => ?_
  obtain ⟨xs, hphase, htaken⟩ := read_after hfree kiocb buf limit hkeep i
  rw [hphase.takesAfterFault_iff hlimit, htaken, List.length_append, Nat.add_le_add_iff_left]

/-- Under a fair schedule, a read that has taken more than fits comes to a failing copy. -/
theorem read_faults (hlimit : limit < buf.length) (hfair : Fair (Label.isSched p) sched) {n : ℕ}
    (hpast : ((enter ls p (.read kiocb buf limit)).takenBy p).length + limit <
      ((after Driver.step (enter ls p (.read kiocb buf limit)) sched n).takenBy p).length) :
    ∃ m, n ≤ m ∧
      ((after Driver.step (enter ls p (.read kiocb buf limit)) sched m).procs p).Faulted := by
  have hΦ := readPhases kiocb.nonblocking buf limit
  have henter := enter_read hfree kiocb buf limit
  have htaken0 := (enter_of_free (c := .read kiocb buf limit) hfree).2.2.1
  -- What holds from the take past the end on.
  let I : Driver β → Prop := fun τ =>
    InCall (fun P xs _ => ReadPhase kiocb.nonblocking buf limit P xs) p ((init : Driver β).run ls) τ ∧
      (((init : Driver β).run ls).takenBy p).length + limit < (τ.takenBy p).length
  have hphaseI : ∀ τ, I τ → ∃ xs, ReadPhase kiocb.nonblocking buf limit (τ.procs p) xs ∧
      limit < xs.length := by
    rintro τ ⟨hin, hlt⟩
    obtain ⟨xs, -, hphase, htaken, -⟩ := hin.phase
    rw [htaken, List.length_append] at hlt
    exact ⟨xs, hphase, by omega⟩
  have hI : ∀ τ l, l.KeepsCall p → I τ → I (τ.step l) := by
    rintro τ l hl ⟨hin, hlt⟩
    refine ⟨hΦ.step τ l hl hin, ?_⟩
    by_cases hown : l = .sched p
    · subst hown
      rw [Driver.step, sched_takenBy, List.length_append]
      omega
    · rwa [(step_records τ hown).1]
  have hown : ∀ τ (l : Label β), l.KeepsCall p → I τ → l.isSched p = true →
      ((τ.step l).procs p).faultRank ≤ (τ.procs p).faultRank - 1 := by
    intro τ l _ hτ hl
    obtain rfl := Label.isSched_iff.mp hl
    obtain ⟨xs, hphase, hxs⟩ := hphaseI τ hτ
    rw [Driver.step, sched_procs_self]
    exact hphase.faultRank_step hlimit hxs _
  have hother : ∀ τ (l : Label β), l.KeepsCall p → I τ → l.isSched p = false →
      ((τ.step l).procs p).faultRank ≤ (τ.procs p).faultRank := by
    intro τ l hl hτ hne
    have hne' : l ≠ .sched p := fun h => by simp [Label.isSched_iff.mpr h] at hne
    obtain ⟨xs, hphase, -⟩ := hphaseI τ hτ
    exact (step_nudge τ hl hne').faultRank hphase
  have hn : I (after Driver.step (enter ls p (.read kiocb buf limit)) sched n) := by
    refine ⟨after_invariant hΦ.step hkeep henter n, ?_⟩
    rwa [htaken0] at hpast
  obtain ⟨m, hnm, h0⟩ := exists_after_eq_zero (M := fun τ : Driver β => (τ.procs p).faultRank)
    hI hown hother hkeep hfair _ n hn le_rfl
  obtain ⟨xs, hphase, hxs⟩ := hphaseI _ (after_stable hI hkeep hnm hn)
  exact ⟨m, hnm, hphase.faulted_of_faultRank hlimit hxs h0⟩

/-- A read into a bad destination that has taken more than fits, and has still returned the number of
bytes that fit, or `-EFAULT` if there are none, is non-blocking and has copied some bytes. -/
theorem read_returns_limit (hlimit : limit < buf.length) {n : ℕ}
    (hpast : ((enter ls p (.read kiocb buf limit)).takenBy p).length + limit <
      ((after Driver.step (enter ls p (.read kiocb buf limit)) sched n).takenBy p).length)
    (hret : ((after Driver.step (enter ls p (.read kiocb buf limit)) sched n).procs p).Returns
      (if 0 < limit then limit else -EFAULT)) : kiocb.nonblocking = true ∧ 0 < limit := by
  obtain ⟨xs, hphase, htaken⟩ := read_after hfree kiocb buf limit hkeep n
  rw [htaken, List.length_append] at hpast
  obtain ⟨it, heq⟩ := hret
  rw [heq] at hphase
  generalize hv : (if 0 < limit then (limit : ℤ) else -EFAULT) = v at hphase
  simp only [EFAULT] at hv
  cases hphase with
  | again hnb hit hxs =>
    -- Nothing was taken, so no copy was tried past the limit.
    rw [hxs, List.length_nil] at hpast
    omega
  | short hnb hit hlt =>
    -- With a limit of 0, the value would be `-EFAULT`, but it is a count.
    refine ⟨hnb, ?_⟩
    by_contra hpos
    rw [if_neg hpos] at hv
    omega
  | full hit hoff =>
    have hoff' := (hit.bad hlimit).1
    omega
  | interrupted hnb hit hlt =>
    split_ifs at hv
    · simp only [ERESTARTSYS] at hv
      omega
    · simp [ERESTARTSYS] at hv

/-- Under a fair schedule, a non-blocking read that takes nothing after a failed copy returns the
number of bytes copied. -/
theorem faulted_read_returns (hlimit : limit < buf.length) (hnb : kiocb.nonblocking = true)
    (hfair : Fair (Label.isSched p) sched)
    (hstop : ∀ n, sched n = .sched p →
      ¬ ((after Driver.step (enter ls p (.read kiocb buf limit)) sched n).procs p).TakesAfterFault
        (after Driver.step (enter ls p (.read kiocb buf limit)) sched n).ring) {n : ℕ}
    (hf : ((after Driver.step (enter ls p (.read kiocb buf limit)) sched n).procs p).Faulted) :
    ∃ m, ((after Driver.step (enter ls p (.read kiocb buf limit)) sched m).procs p).Returns
      limit := by
  obtain ⟨xs, hphase, htaken⟩ := read_after hfree kiocb buf limit hkeep n
  have hnever : ¬ limit + 1 < xs.length := by
    intro hlt
    obtain ⟨i, -, hi, htakes⟩ := (read_past_fault_iff hfree kiocb buf limit hkeep hlimit n).mp (by
      rw [htaken, List.length_append]
      omega)
    exact hstop i hi htakes
  have hpast := hphase.lt_length_of_faulted hlimit hf
  generalize hP : (after Driver.step (enter ls p (.read kiocb buf limit)) sched n).procs p = P
    at hphase hf
  cases hphase with
  | start hpc hnb' hit hret hxs => simp [hxs] at hpast
  | @take c _ hnb' hit hlt hret =>
    -- It stays at this take until its next step, and that step finds the ring empty.
    let J : Driver β → Prop := fun τ => ∃ c : ReadCall β, τ.procs p = .read c .take ∧
      c.nonblocking = true ∧ c.iter.faulted = true ∧ c.ret = limit
    have hJ : ∀ τ (l : Label β), l.KeepsCall p → l.isSched p = false → J τ → J (τ.step l) := by
      rintro τ l hl hne ⟨c', hc', hnb'', hf', hret'⟩
      have hne' : l ≠ .sched p := fun h => by simp [Label.isSched_iff.mpr h] at hne
      have hnudge := step_nudge τ hl hne'
      rw [hc'] at hnudge
      obtain ⟨s, pc', heq, rfl | ⟨hw, -⟩⟩ := hnudge.read
      · exact ⟨_, heq, hnb'', hf', hret'⟩
      · simp [ReadPc.waiting] at hw
    have hret' : c.ret = limit := by
      rw [hret, (hit.bad hlimit).1]
      omega
    obtain ⟨m, -, hm, c', hc', hnb'', hf', hret''⟩ :=
      hfair.stays hkeep hJ ⟨c, hP, hnb'.trans hnb, hf, hret'⟩
    obtain hm' := Label.isSched_iff.mp hm
    have hready : (after Driver.step (enter ls p (.read kiocb buf limit)) sched m).ring.readReady =
        false := by
      rw [Bool.eq_false_iff]
      intro hready
      exact hstop m hm' (by rw [hc']; exact ⟨hf', hready⟩)
    refine ⟨m + 1, c'.iter, ?_⟩
    rw [after_succ, hm', Driver.step, sched_procs_self, hc']
    simp [Proc.step, ReadCall.step, getRandomByte, hready, hnb'', hret'']
  | @held c pc b _ ys hpc hnb' hit hlt hret hxs =>
    have hys := (hit.bad hlimit).2.1.mp hf
    rw [hxs, List.length_append, List.length_singleton] at hnever
    omega
  | wait hpc hnb' hblock hit hlt hret =>
    rw [hnb] at hblock
    exact absurd hblock (by simp)
  | again hnb' hit hxs => simp [hxs] at hpast
  | @short it _ hnb' hit hlt =>
    have hoff : it.off = limit := by
      rw [(hit.bad hlimit).1]
      omega
    exact ⟨n, it, by rw [hP, hoff]⟩
  | full hit hoff =>
    have hoff' := (hit.bad hlimit).1
    omega
  | interrupted hnb' hit hlt =>
    rw [hnb] at hnb'
    exact absurd hnb' (by simp)

end

/-- What a process has taken is not forgotten. -/
theorem taken_mono (σ : Driver β) (sched : ℕ → Label β) (p : Pid) {n m : ℕ} (hnm : n ≤ m) :
    ((after Driver.step σ sched n).takenBy p).length ≤
      ((after Driver.step σ sched m).takenBy p).length := by
  refine after_stable (A := fun _ => True)
    (P := fun τ : Driver β => ((after Driver.step σ sched n).takenBy p).length ≤
      (τ.takenBy p).length) (fun τ l _ hτ => ?_) (fun _ => trivial) hnm le_rfl
  by_cases hown : l = .sched p
  · subst hown
    rw [Driver.step, sched_takenBy, List.length_append]
    omega
  · rwa [(step_records τ hown).1]

/-- When a read into a bad destination stops and reports the fault. Under every schedule that lets the
reader run, it takes at most one byte more than fits, and once a copy has failed it returns the number
of bytes copied, or `-EFAULT` if there are none, exactly if it never makes a take past the end of the
accessible part that finds a byte; or if it is non-blocking, some bytes fit, and no take after the
failed copy finds a byte. -/
theorem stopsAtFault_iff (hfree : (((init : Driver β).run ls).procs p).free = true) (kiocb : Kiocb)
    {buf : List β} {limit : ℕ} (hlimit : limit < buf.length) (hkeep : ∀ n, (sched n).KeepsCall p)
    (hfair : Fair (Label.isSched p) sched) :
    StopsAtFault p limit (enter ls p (.read kiocb buf limit)) sched ↔
      (∀ n, sched n = .sched p →
        ¬ ((after Driver.step (enter ls p (.read kiocb buf limit)) sched n).procs p).TakesPastEnd
          (after Driver.step (enter ls p (.read kiocb buf limit)) sched n).ring) ∨
      (kiocb.nonblocking = true ∧ 0 < limit ∧ ∀ n, sched n = .sched p →
        ¬ ((after Driver.step (enter ls p (.read kiocb buf limit)) sched n).procs p).TakesAfterFault
          (after Driver.step (enter ls p (.read kiocb buf limit)) sched n).ring) := by
  have hpast := read_past_iff hfree kiocb buf limit hkeep hlimit
  have hpastFault := read_past_fault_iff hfree kiocb buf limit hkeep hlimit
  constructor
  · rintro ⟨hfew, hreport⟩
    by_contra hcond
    push Not at hcond
    obtain ⟨⟨i, hi, htakes⟩, hthen⟩ := hcond
    -- The read has taken more than fits, so a copy fails, and by the assumption it returns.
    have hlt := (hpast (i + 1)).mpr ⟨i, by omega, hi, htakes⟩
    obtain ⟨m, him, hf⟩ := read_faults hfree kiocb buf limit hkeep hlimit hfair hlt
    obtain ⟨m', hret⟩ := hreport ⟨m, hf⟩
    have hlate : ((after Driver.step (enter ls p (.read kiocb buf limit)) sched
        (max (i + 1) m')).procs p).Returns (if 0 < limit then limit else -EFAULT) := by
      refine after_stable (P := fun τ : Driver β => (τ.procs p).Returns _) ?_ hkeep
        (le_max_right _ _) hret
      exact fun τ l hl h => Proc.Returns.step hl h
    have hmono := taken_mono (enter ls p (.read kiocb buf limit)) sched p (le_max_left (i + 1) m')
    obtain ⟨hnb, hpos⟩ := read_returns_limit hfree kiocb buf limit hkeep hlimit
      (hlt.trans_le hmono) hlate
    obtain ⟨j, hj, htakes'⟩ := hthen hnb hpos
    have hlt' := (hpastFault (j + 1)).mpr ⟨j, by omega, hj, htakes'⟩
    have := hfew (j + 1)
    omega
  · rintro (hnever | ⟨hnb, hpos, hnever⟩)
    · -- It takes no more than fits, so no copy fails.
      have hle : ∀ n, ¬ ((enter ls p (.read kiocb buf limit)).takenBy p).length + limit <
          ((after Driver.step (enter ls p (.read kiocb buf limit)) sched n).takenBy p).length := by
        intro n hlt
        obtain ⟨i, -, hi, htakes⟩ := (hpast n).mp hlt
        exact hnever i hi htakes
      refine ⟨fun n => ?_, ?_⟩
      · have := hle n
        omega
      · rintro ⟨n, hf⟩
        obtain ⟨xs, hphase, htaken⟩ := read_after hfree kiocb buf limit hkeep n
        have hlt := hphase.lt_length_of_faulted hlimit hf
        refine absurd ?_ (hle n)
        rw [htaken, List.length_append]
        omega
    · refine ⟨fun n => ?_, ?_⟩
      · by_contra hlt
        obtain ⟨i, -, hi, htakes⟩ := (hpastFault n).mp (by omega)
        exact hnever i hi htakes
      · rintro ⟨n, hf⟩
        rw [if_pos hpos]
        exact faulted_read_returns hfree kiocb buf limit hkeep hlimit hnb hfair hnever hf

/-- A non-blocking read of one byte into a destination that accepts none takes the only byte and
returns 0. -/
theorem read_drains_at_fault :
    ¬ StopsAtFault 1 0 (enter oneByte 1 (.read ⟨false, false, true⟩ [0] 0)) fun _ => .sched 1 := by
  rintro ⟨-, hreport⟩
  obtain ⟨n, hret⟩ := hreport ⟨8, rfl⟩
  have hzero : ((after Driver.step (enter oneByte 1 (.read ⟨false, false, true⟩ [0] 0))
      (fun _ => .sched 1) 8).procs 1).Returns 0 := ⟨_, rfl⟩
  -- What the call has returned after eight steps stays.
  have hstay : ∀ (v : ℤ) {i j : ℕ}, i ≤ j →
      ((after Driver.step (enter oneByte 1 (.read ⟨false, false, true⟩ [0] 0))
        (fun _ => .sched 1) i).procs 1).Returns v →
      ((after Driver.step (enter oneByte 1 (.read ⟨false, false, true⟩ [0] 0))
        (fun _ => .sched 1) j).procs 1).Returns v := by
    intro v i j hij h
    exact after_stable (P := fun τ : Driver UInt8 => (τ.procs 1).Returns v)
      (fun τ l hl h => Proc.Returns.step hl h) (A := fun l => l.KeepsCall 1) (fun _ => trivial) hij h
  obtain ⟨it, heq⟩ := hstay _ (le_max_left n 8) hret
  have hzero' := hstay _ (le_max_right n 8) hzero
  rw [heq, Proc.returns_returned] at hzero'
  exact absurd hzero' (by decide)

/-- The theorem for that read. -/
theorem stopsAtFault_iff_one_byte :
    StopsAtFault 1 0 (enter oneByte 1 (.read ⟨false, false, true⟩ [0] 0)) (fun _ => .sched 1) ↔
      (∀ n, (.sched 1 : Label UInt8) = .sched 1 →
        ¬ ((after Driver.step (enter oneByte 1 (.read ⟨false, false, true⟩ [0] 0))
            (fun _ => .sched 1) n).procs 1).TakesPastEnd
          (after Driver.step (enter oneByte 1 (.read ⟨false, false, true⟩ [0] 0))
            (fun _ => .sched 1) n).ring) ∨
      ((⟨false, false, true⟩ : Kiocb).nonblocking = true ∧ 0 < 0 ∧
        ∀ n, (.sched 1 : Label UInt8) = .sched 1 →
          ¬ ((after Driver.step (enter oneByte 1 (.read ⟨false, false, true⟩ [0] 0))
              (fun _ => .sched 1) n).procs 1).TakesAfterFault
            (after Driver.step (enter oneByte 1 (.read ⟨false, false, true⟩ [0] 0))
              (fun _ => .sched 1) n).ring) := by
  exact stopsAtFault_iff oneByte_free _ (by decide) (fun _ => trivial) fun n => ⟨n, le_rfl, rfl⟩

end Driver

end QrngDevice
