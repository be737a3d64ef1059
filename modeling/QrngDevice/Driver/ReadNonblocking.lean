import QrngDevice.Driver.ReadCall

/-!
# Non-blocking reads

A non-blocking read into an accessible destination returns after at most `6 n + 8` steps of its own
(`nonblocking_read_returns`). Emptiness is tested twice, once without the mutex by `qrng_read_iter`
and once in each section of `get_random_byte`, and the two tests report it in different ways.
`nonblocking_read_iff` says exactly when the call keeps the contract of a non-blocking read: a count
of bytes read, or `-EAGAIN` after the ring was empty at some moment. It does not when another reader
drains the ring between the two tests, since the call then returns 0, nor when other readers move the
cursor between the two loads of the first test, since the flag that it loads then is that of a slot
already taken.
-/

namespace QrngDevice

open Runs RingBuffer

variable {β : Type*}

/-! ## The number of steps -/

/-- A bound on the steps that a read makes up to the next head of its loop. -/
def ReadPc.rank : ReadPc β → ℕ
  | .testCursor => 8
  | .testFlag _ => 7
  | .take => 6
  | .wakePoll _ => 5
  | .wakeCursor _ => 4
  | .wakeFlag _ _ => 3
  | .wakeRead _ => 2
  | .copy _ => 1
  | _ => 0

/-- A bound on the steps that a read has left if it does not wait. -/
def Proc.readRank : Proc β → ℕ
  | .read c pc => 6 * iovIterCount c.iter + pc.rank
  | _ => 0

/-- The process is in the wait of a read. -/
def Proc.waits : Proc β → Bool
  | .read _ pc => pc.waiting
  | _ => false

variable {nb : Bool} {buf : List β} {limit : ℕ} {P : Proc β} {xs : List β}

/-- The head of the loop is followed by a take at most. -/
theorem ReadCall.readRank_loop (c : ReadCall β) : c.loop.readRank ≤ 6 * iovIterCount c.iter + 6 := by
  unfold ReadCall.loop
  split_ifs
  · exact le_rfl
  · exact Nat.zero_le _
  · exact Nat.zero_le _

/-- A non-blocking read does not wait. -/
theorem ReadPhase.not_waits (h : ReadPhase true buf limit P xs) : P.waits = false := by
  cases h with
  | start hpc hnb hit hret hxs => rcases hpc with rfl | ⟨k, rfl⟩ <;> rfl
  | take hnb hit hlt hret => rfl
  | @held c pc b _ ys hpc hnb hit hlt hret hxs =>
    cases pc <;> simp [Proc.waits, ReadPc.waiting, ReadPc.held] at hpc ⊢
  | wait hpc hnb hblock hit hlt hret => exact absurd hblock (by simp)
  | again hnb hit hxs => rfl
  | short hnb hit hlt => rfl
  | full hit hoff => rfl
  | interrupted hnb hit hlt => rfl

/-- Outside the wait, every step of a read into an accessible destination lowers the bound. -/
theorem ReadPhase.readRank_step [Zero β] (h : ReadPhase nb buf limit P xs)
    (hlimit : buf.length ≤ limit) (hwaits : P.waits = false) (r : RingBuffer β) :
    (P.step r).proc.readRank ≤ P.readRank - 1 := by
  cases h with
  | @start c pc _ hpc hnb hit hret hxs =>
    rcases hpc with rfl | ⟨k, rfl⟩
    · simp [Proc.step, ReadCall.step, Proc.readRank, ReadPc.rank]
    · simp only [Proc.step, ReadCall.step]
      split_ifs
      · exact Nat.zero_le _
      · exact Nat.zero_le _
      · exact (ReadCall.readRank_loop c).trans (by simp [Proc.readRank, ReadPc.rank])
  | @take c _ hnb hit hlt hret =>
    simp only [Proc.step, ReadCall.step]
    cases r.getRandomByte with
    | none =>
      simp only
      split_ifs
      · exact Nat.zero_le _
      · simp [Proc.readRank, ReadPc.rank]
    | some br => simp [Proc.readRank, ReadPc.rank]
  | @held c pc b _ ys hpc hnb hit hlt hret hxs =>
    cases pc with
    | copy b' =>
      -- The copy succeeds, so fewer bytes are wanted.
      obtain ⟨hit', hoff', hone⟩ := hit.copyToIter hlt b'
      have hcopied : (copyToIter b' c.iter).1 = 1 := hone.mpr (by omega)
      have hcount := hit.count_eq
      have hcount' := hit'.count_eq
      have hloop := ReadCall.readRank_loop { c with
        iter := (copyToIter b' c.iter).2
        ret := c.ret + (copyToIter b' c.iter).1 }
      simp only at hloop
      refine hloop.trans ?_
      simp only [Proc.readRank, ReadPc.rank]
      omega
    | wakeFlag b' k =>
      simp only [Proc.step, ReadCall.step, Proc.readRank]
      split_ifs <;> simp [ReadPc.rank]
    | wakePoll b' => simp [Proc.step, ReadCall.step, Proc.readRank, ReadPc.rank]
    | wakeCursor b' => simp [Proc.step, ReadCall.step, Proc.readRank, ReadPc.rank]
    | wakeRead b' => simp [Proc.step, ReadCall.step, Proc.readRank, ReadPc.rank]
    | _ => simp [ReadPc.held] at hpc
  | wait hpc hnb hblock hit hlt hret => exact absurd hwaits (by simp [Proc.waits, hpc])
  | again hnb hit hxs => exact Nat.zero_le _
  | short hnb hit hlt => exact Nat.zero_le _
  | full hit hoff => exact Nat.zero_le _
  | interrupted hnb hit hlt => exact Nat.zero_le _

/-- Others do not raise the bound. -/
theorem ReadPhase.readRank_nudge {P' : Proc β} (h : ReadPhase nb buf limit P xs)
    (hn : P.Nudge P') : P'.readRank ≤ P.readRank := by
  rcases P with _ | ⟨c, pc⟩ | ⟨c, pc⟩ | ⟨c, pc⟩ | res
  · cases h
  · obtain ⟨s, pc', rfl, rfl | ⟨hw, hw'⟩⟩ := hn.read
    · exact le_rfl
    · have hrank : pc'.rank = 0 := by
        cases pc' <;> simp [ReadPc.waiting, ReadPc.rank] at hw' ⊢
      simp [Proc.readRank, hrank]
  · cases h
  · cases h
  · rw [hn.returned]

/-- A read with no step left has returned, unless it waits. -/
theorem ReadPhase.returned (h : ReadPhase nb buf limit P xs) (hwaits : P.waits = false)
    (h0 : P.readRank = 0) : ∃ v it, P = .returned (.read v it) := by
  cases h with
  | start hpc hnb hit hret hxs =>
    rcases hpc with rfl | ⟨k, rfl⟩ <;> simp [Proc.readRank, ReadPc.rank] at h0
  | take hnb hit hlt hret => simp [Proc.readRank, ReadPc.rank] at h0
  | @held c pc b _ ys hpc hnb hit hlt hret hxs =>
    cases pc <;> simp [Proc.readRank, ReadPc.rank, ReadPc.held] at h0 hpc
  | wait hpc hnb hblock hit hlt hret => exact absurd hwaits (by simp [Proc.waits, hpc])
  | again hnb hit hxs => exact ⟨_, _, rfl⟩
  | short hnb hit hlt => exact ⟨_, _, rfl⟩
  | full hit hoff => exact ⟨_, _, rfl⟩
  | interrupted hnb hit hlt => exact ⟨_, _, rfl⟩

/-- What a read into an accessible destination has returned: `-EAGAIN` with nothing taken,
`-ERESTARTSYS` out of a wait, or the number of bytes taken, which are then at the front of the
destination. -/
theorem ReadPhase.result {v : ℤ} {it : IovIter β}
    (h : ReadPhase nb buf limit (.returned (.read v it)) xs) (hlimit : buf.length ≤ limit) :
    (v = -EAGAIN ∧ xs = [] ∧ it = .start buf limit) ∨ (v = -ERESTARTSYS ∧ nb = false) ∨
      (v = xs.length ∧ xs.length ≤ buf.length ∧ it.buf = xs ++ buf.drop xs.length) := by
  have hcount : it.Filled buf limit xs → (it.off : ℤ) = xs.length ∧ xs.length ≤ buf.length ∧
      it.buf = xs ++ buf.drop xs.length := by
    intro hit
    obtain ⟨hlen, -⟩ := hit.take_eq hlimit
    have hbuf := hit.buf_eq
    rw [hlen, List.take_length] at hbuf
    exact ⟨by rw [hlen], hit.fits hlimit, hbuf⟩
  cases h with
  | again hnb hit hxs => exact Or.inl ⟨rfl, hxs, hit⟩
  | short hnb hit hlt => exact Or.inr (Or.inr (hcount hit))
  | full hit hoff => exact Or.inr (Or.inr (hcount hit))
  | interrupted hnb hit hlt => exact Or.inr (Or.inl ⟨rfl, hnb⟩)

namespace Driver

variable [Zero β] {p : Pid} {ls ls' : List (Label β)} {kiocb : Kiocb}

/-- A non-blocking read of `n` bytes into an accessible destination has returned after `6 n + 8`
steps of its own. It has returned `-EAGAIN` and taken nothing, or it has returned the number of bytes
that it has taken, and all of `n` unless it has found the ring empty. -/
theorem nonblocking_read_returns (hfree : (((init : Driver β).run ls).procs p).free = true)
    (hnb : kiocb.nonblocking = true) (hlimit : buf.length ≤ limit)
    (hkeep : ∀ l ∈ ls', l.KeepsCall p)
    (hsteps : 6 * buf.length + 8 ≤ ls'.countP (Label.isSched p)) :
    ∃ ret it xs, ((enter ls p (.read kiocb buf limit)).run ls').procs p =
        .returned (.read ret it) ∧
      ((enter ls p (.read kiocb buf limit)).run ls').takenBy p =
        (enter ls p (.read kiocb buf limit)).takenBy p ++ xs ∧
      (ret = -EAGAIN ∧ xs = [] ∨ ret = xs.length ∧ xs.length ≤ buf.length) := by
  have henter := CallInvariant.enter (Φ := fun P xs _ => ReadPhase true buf limit P xs)
    (c := .read kiocb buf limit) hfree (by rw [← hnb]; exact .entry kiocb buf limit)
  have hrank := (readPhases true buf limit).rank (M := Proc.readRank)
    (fun _ h => h.readRank_step hlimit h.not_waits _) (fun h hn => h.readRank_nudge hn) hkeep henter
  have hstart : ((enter ls p (.read kiocb buf limit)).procs p).readRank = 6 * buf.length + 8 := by
    rw [(enter_of_free hfree).1]
    rfl
  have hrun := run_invariant (readPhases true buf limit).step hkeep henter
  obtain ⟨xs, -, hphase, htaken, -⟩ := hrun.phase
  have htaken0 : (enter ls p (.read kiocb buf limit)).takenBy p =
      ((init : Driver β).run ls).takenBy p := (enter_of_free hfree).2.2.1
  -- The steps of the process use up the rank, so it has returned.
  have hzero : (((enter ls p (.read kiocb buf limit)).run ls').procs p).readRank = 0 := by omega
  obtain ⟨v, it, hret⟩ := hphase.returned hphase.not_waits hzero
  rw [hret] at hphase
  refine ⟨v, it, xs, hret, by rw [htaken0, htaken], ?_⟩
  rcases hphase.result hlimit with ⟨hv, hxs, -⟩ | ⟨-, hfalse⟩ | ⟨hv, hle, -⟩
  · exact Or.inl ⟨hv, hxs⟩
  · exact absurd hfalse (by simp)
  · exact Or.inr ⟨hv, hle⟩

end Driver

/-! ## The results `-EAGAIN` and 0 -/

/-- The process is at the first test of a read, has loaded a cursor that is no longer the current
one, and will find the flag there clear. -/
def Proc.FindsStale (r : RingBuffer β) : Proc β → Prop
  | .read _ (.testFlag k) => k ≠ r.qrngBuffReadIt ∧ r.qrngBuffReady k = false
  | _ => False

/-- The process is at the first take of a read and will find the ring empty. -/
def Proc.FindsDrained (r : RingBuffer β) : Proc β → Prop
  | .read c .take => c.iter.off = 0 ∧ r.readReady = false
  | _ => False

/-- A non-blocking read returns `-EAGAIN` exactly where its first test finds the flag clear. -/
theorem ReadPhase.earlyReturn_again (h : ReadPhase true buf limit P xs) (r : RingBuffer β) :
    P.earlyReturn r = some (-EAGAIN) ↔
      ∃ c k, P = .read c (.testFlag k) ∧ r.qrngBuffReady k = false := by
  cases h with
  | @start c pc _ hpc hnb hit hret hxs =>
    rcases hpc with rfl | ⟨k, rfl⟩
    · simp [Proc.earlyReturn]
    · simp [Proc.earlyReturn, hnb]
  | @take c _ hnb hit hlt hret =>
    simp only [Proc.earlyReturn, reduceCtorEq, Proc.read.injEq, and_false, false_and, exists_false,
      iff_false]
    split_ifs
    · -- `ret` is a count there.
      simp only [Option.some.injEq, EAGAIN]
      omega
    · simp
  | @held c pc b _ ys hpc hnb hit hlt hret hxs =>
    cases pc <;> simp [Proc.earlyReturn, ReadPc.held] at hpc ⊢
  | wait hpc hnb hblock hit hlt hret => exact absurd hblock (by simp)
  | again hnb hit hxs => simp [Proc.earlyReturn]
  | short hnb hit hlt => simp [Proc.earlyReturn]
  | full hit hoff => simp [Proc.earlyReturn]
  | interrupted hnb hit hlt => simp [Proc.earlyReturn]

/-- A non-blocking read returns 0 early exactly where its first take finds the ring empty. -/
theorem ReadPhase.earlyReturn_zero (h : ReadPhase true buf limit P xs) (r : RingBuffer β) :
    P.earlyReturn r = some 0 ↔ P.FindsDrained r := by
  cases h with
  | @start c pc _ hpc hnb hit hret hxs =>
    rcases hpc with rfl | ⟨k, rfl⟩
    · simp [Proc.earlyReturn, Proc.FindsDrained]
    · simp only [Proc.earlyReturn, Proc.FindsDrained, iff_false]
      split_ifs
      · simp
      · simp
  | @take c _ hnb hit hlt hret =>
    simp only [Proc.earlyReturn, Proc.FindsDrained, hnb, Bool.and_true, hret]
    cases r.readReady <;> simp
  | @held c pc b _ ys hpc hnb hit hlt hret hxs =>
    cases pc <;> simp [Proc.earlyReturn, Proc.FindsDrained, ReadPc.held] at hpc ⊢
  | wait hpc hnb hblock hit hlt hret => exact absurd hblock (by simp)
  | again hnb hit hxs => simp [Proc.earlyReturn, Proc.FindsDrained]
  | short hnb hit hlt => simp [Proc.earlyReturn, Proc.FindsDrained]
  | full hit hoff => simp [Proc.earlyReturn, Proc.FindsDrained]
  | interrupted hnb hit hlt => simp [Proc.earlyReturn, Proc.FindsDrained]

namespace Driver

variable [Zero β] {p : Pid} {ls ls' : List (Label β)} {kiocb : Kiocb}

/-- When a non-blocking read keeps its contract. It returns, and then either it has returned a count
in `1..n` of the bytes that it has taken from the ring, or it has returned `-EAGAIN` and the ring was
empty at some moment during the call, exactly if its first take has not found the ring empty, and its
first test has not found the flag clear under a stale cursor while the ring was never empty. -/
theorem nonblocking_read_iff (hfree : (((init : Driver β).run ls).procs p).free = true)
    (hnb : kiocb.nonblocking = true) (hbuf : buf ≠ []) (hlimit : buf.length ≤ limit)
    (hkeep : ∀ l ∈ ls', l.KeepsCall p)
    (hsteps : 6 * buf.length + 8 ≤ ls'.countP (Label.isSched p)) :
    ∃ ret it xs, ((enter ls p (.read kiocb buf limit)).run ls').procs p =
        .returned (.read ret it) ∧
      ((enter ls p (.read kiocb buf limit)).run ls').takenBy p =
        (enter ls p (.read kiocb buf limit)).takenBy p ++ xs ∧
      ((1 ≤ ret ∧ ret ≤ buf.length ∧ ret = xs.length ∨
          ret = -EAGAIN ∧ ∃ t, During (enter ls p (.read kiocb buf limit)) ls' p t ∧
            t.ring.contents = []) ↔
        (∀ t, At Driver.step (enter ls p (.read kiocb buf limit)) ls' t (.sched p) →
            ¬ (t.procs p).FindsDrained t.ring) ∧
          ((∀ t, During (enter ls p (.read kiocb buf limit)) ls' p t → t.ring.contents ≠ []) →
            ∀ t, At Driver.step (enter ls p (.read kiocb buf limit)) ls' t (.sched p) →
              ¬ (t.procs p).FindsStale t.ring)) := by
  obtain ⟨ret, it, xs, hret, htaken, hresult⟩ :=
    nonblocking_read_returns hfree hnb hlimit hkeep hsteps
  have hpos : 0 < buf.length := List.length_pos_iff.mpr hbuf
  have hagain := read_returns_iff hfree kiocb hbuf limit hkeep (v := -EAGAIN)
    (by simp only [EAGAIN]; omega)
  have hzero := read_returns_iff hfree kiocb hbuf limit hkeep (v := 0) (by omega)
  rw [hret, Proc.returns_returned] at hagain hzero
  refine ⟨ret, it, xs, hret, htaken, ?_⟩
  constructor
  · rintro hprop
    refine ⟨fun t hat hdrained => ?_, fun hnever t hat hstale => ?_⟩
    · -- A drained first take returns 0.
      obtain ⟨ys, hphase, -⟩ := read_at hfree hkeep hat
      rw [hnb] at hphase
      have h0 := hzero.mpr ⟨t, hat, (hphase.earlyReturn_zero _).mpr hdrained⟩
      rcases hprop with ⟨h1, -, -⟩ | ⟨h1, -⟩
      · omega
      · simp only [EAGAIN] at h1
        omega
    · -- A stale first test returns `-EAGAIN`.
      obtain ⟨ys, hphase, -⟩ := read_at hfree hkeep hat
      rw [hnb] at hphase
      have hclear : ∃ c k, t.procs p = .read c (.testFlag k) ∧ t.ring.qrngBuffReady k = false := by
        generalize t.procs p = P at hstale
        unfold Proc.FindsStale at hstale
        split at hstale
        · exact ⟨_, _, rfl, hstale.2⟩
        · exact hstale.elim
      have h11 := hagain.mpr ⟨t, hat, (hphase.earlyReturn_again _).mpr hclear⟩
      rcases hprop with ⟨h1, -, -⟩ | ⟨-, u, hduring, hempty⟩
      · simp only [EAGAIN] at h11
        omega
      · exact hnever u hduring hempty
  · rintro ⟨hdrained, hstale⟩
    rcases hresult with ⟨hret', -⟩ | ⟨hret', hle⟩
    · -- The first test has found the flag clear: the ring was empty then, or the cursor was stale.
      refine Or.inr ⟨hret', ?_⟩
      by_contra hnever
      push Not at hnever
      obtain ⟨t, hat, hearly⟩ := hagain.mp hret'
      obtain ⟨ys, hphase, hrep⟩ := read_at hfree hkeep hat
      rw [hnb] at hphase
      obtain ⟨c, k, hproc, hflag⟩ := (hphase.earlyReturn_again _).mp hearly
      by_cases hk : k = t.ring.qrngBuffReadIt
      · have hduring : During (enter ls p (.read kiocb buf limit)) ls' p t :=
          ⟨hat.visits, by rw [hproc]; rfl⟩
        have hready := hrep.readReady_iff.mpr (hnever t hduring)
        rw [readReady, ← hk, hflag] at hready
        exact absurd hready (by simp)
      · exact hstale (fun u hu => hnever u hu) t hat (by rw [hproc]; exact ⟨hk, hflag⟩)
    · refine Or.inl ⟨?_, by omega, hret'⟩
      by_contra hlt
      obtain ⟨t, hat, hearly⟩ := hzero.mp (by omega)
      obtain ⟨ys, hphase, -⟩ := read_at hfree hkeep hat
      rw [hnb] at hphase
      exact hdrained t hat ((hphase.earlyReturn_zero _).mp hearly)

/-- Process 0 appends one byte. -/
def oneByte : List (Label UInt8) :=
  [.call 0 (.write [7] 1), .sched 0, .sched 0, .sched 0, .sched 0, .sched 0, .sched 0]

/-- Process 1 makes no call in it. -/
theorem oneByte_free : (((init : Driver UInt8).run oneByte).procs 1).free = true :=
  run_free (by simp [oneByte, Label.KeepsCall])

/-- After that, process 1 is in a non-blocking read and passes its first test, process 2 takes the byte,
and process 1 goes on. -/
def drainedBetweenTests : List (Label UInt8) :=
  [.sched 1, .sched 1, .call 2 (.read ⟨false, false, true⟩ [0] 1), .sched 2, .sched 2, .sched 2] ++
    List.replicate 14 (.sched 1)

/-- In that run, the read of process 1 returns 0. -/
theorem nonblocking_read_zero :
    ∃ ret it, ((enter oneByte 1 (.read ⟨false, false, true⟩ [0] 1)).run drainedBetweenTests).procs 1 =
        .returned (.read ret it) ∧
      ¬ ((1 ≤ ret ∧ ret ≤ [(0 : UInt8)].length) ∨ ret = -EAGAIN) :=
  ⟨0, .start [0] 1, rfl, by decide⟩

/-- The theorem for that run: the read returns 0, and it has found the ring drained. -/
theorem nonblocking_read_iff_drained :
    ∃ t, At Driver.step (enter oneByte 1 (.read ⟨false, false, true⟩ [0] 1)) drainedBetweenTests t
      (.sched 1) ∧ (t.procs 1).FindsDrained t.ring := by
  have hkeep : ∀ l ∈ drainedBetweenTests, l.KeepsCall 1 := by
    simp [drainedBetweenTests, Label.KeepsCall]
  have hnb : (⟨false, false, true⟩ : Kiocb).nonblocking = true := rfl
  have hlimit : [(0 : UInt8)].length ≤ 1 := le_rfl
  obtain ⟨ret, it, xs, hret, -, hiff⟩ :=
    nonblocking_read_iff oneByte_free hnb (List.cons_ne_nil 0 []) hlimit hkeep (by decide)
  -- The read returns 0, which the property excludes.
  have hproc : ((enter oneByte 1 (.read ⟨false, false, true⟩ [0] 1)).run
      drainedBetweenTests).procs 1 = .returned (.read 0 (.start [0] 1)) := rfl
  rw [hproc] at hret
  obtain rfl : 0 = ret := by cases hret; rfl
  -- Process 2 leaves the ring empty during the call, so the second condition holds.
  have hempty : ∃ t, During (enter oneByte 1 (.read ⟨false, false, true⟩ [0] 1)) drainedBetweenTests 1
      t ∧ t.ring.contents = [] := by
    refine ⟨_, ⟨⟨drainedBetweenTests.take 6, drainedBetweenTests.drop 6, rfl, rfl⟩, rfl⟩, ?_⟩
    by_contra hne
    have hready := (run_represents (oneByte ++ .call 1 (.read ⟨false, false, true⟩ [0] 1) ::
      drainedBetweenTests.take 6)).readReady_iff.mpr hne
    exact absurd hready (by decide)
  obtain ⟨t, hduring, hcontents⟩ := hempty
  by_contra hnot
  push Not at hnot
  rcases hiff.mpr ⟨hnot, fun hnever => absurd hcontents (hnever t hduring)⟩ with ⟨h, -⟩ | ⟨h, -⟩
  · omega
  · exact absurd h (by decide)

end Driver

end QrngDevice
