import QrngDevice.Testing.Benchmark

/-!
# What the benchmark comes to

Under a schedule that is fair to the benchmark, the service and all processes, each read of the benchmark
returns, since the service feeds the ring (`read_returns`). It brings the benchmark one integer closer to
`cnt`, or is called anew, for a signal that has ended it. So the benchmark finishes, unless a signal kills
it or signals come without end (`benchmark_finishes`). What it has retrieved then, or in any other run, are
pieces of the stream, with a gap for each read that was called anew (`benchmark_stream`).
-/

namespace QrngDevice

open Runs RingBuffer

namespace BenchmarkSystem

variable {β : Type} [Zero β]

/-! ## Schedules -/

/-- The event is a step of the benchmark in its own code. -/
def isBenchmark : BenchmarkEvent β → Bool
  | .benchmark => true
  | _ => false

/-- The event is one of the others. -/
def isOther (own : Event β → Bool) : BenchmarkEvent β → Bool
  | .other e => own e
  | _ => false

/-- The schedule lets the benchmark, the service and every process make its next step again and again. -/
structure FairToBenchmark (sched : ℕ → BenchmarkEvent β) : Prop where
  /-- The benchmark, in its own code. -/
  benchmark : Fair isBenchmark sched
  /-- The service, in its own code. -/
  main : Fair (isOther QrngSystem.isMain) sched
  /-- Every process, in the driver. -/
  sched : ∀ p, Fair (isOther (QrngSystem.isSched p)) sched

variable {sched : ℕ → BenchmarkEvent β} {out : ℕ → Fin 4 → β} {args : List String}
  {x : Fin SIZEOF_X → β}

/-- The system with `PRNG` after `n` steps of a schedule. -/
abbrev scheduled (out : ℕ → Fin 4 → β) (args : List String) (x : Fin SIZEOF_X → β)
    (sched : ℕ → BenchmarkEvent β) (n : ℕ) : BenchmarkSystem β ℕ :=
  after (step (PRNG.rng out)) (init args x 0) sched n

/-- The events of a schedule, for the system. -/
def scheduledEvents (out : ℕ → Fin 4 → β) (args : List String) (x : Fin SIZEOF_X → β)
    (sched : ℕ → BenchmarkEvent β) (n : ℕ) : Event β :=
  (scheduled out args x sched n).event (sched n)

/-- The system goes through its part of a schedule. -/
theorem scheduled_system (n : ℕ) : (scheduled out args x sched n).system =
    after (QrngSystem.step (PRNG.rng out)) (.init 0) (scheduledEvents out args x sched) n :=
  after_labels (step_system (PRNG.rng out)) (init args x 0) sched n

/-- The system's part of a fair schedule is fair. -/
theorem scheduledEvents_fair (hfair : FairToBenchmark sched) :
    QrngSystem.FairToAll (scheduledEvents out args x sched) := by
  have hother : ∀ own : Event β → Bool, (∀ e, own e.beside = own e) → Fair (isOther own) sched →
      Fair own (scheduledEvents out args x sched) := by
    intro own hown hf n
    obtain ⟨m, hnm, hm⟩ := hf n
    refine ⟨m, hnm, ?_⟩
    cases he : sched m with
    | other e => simpa only [scheduledEvents, he, event, hown, isOther] using hm
    | _ => simp [he, isOther] at hm
  exact ⟨hother _ (fun e => by cases e <;> rfl) hfair.main,
    fun p => hother _ (fun e => by cases e <;> rfl) (hfair.sched p)⟩

/-- The invariant holds at every point of a schedule. -/
theorem scheduled_invariant (n : ℕ) : (scheduled out args x sched n).Invariant args :=
  after_invariant (A := fun _ => True) (fun _ e _ h => h.step (PRNG.rng out) e) (fun _ => trivial)
    (invariant_init args x 0) n

/-- While signals come only before the point `N`, the kernel calls no more than `N` reads anew. -/
theorem scheduled_restarts_le {N : ℕ} (hsignals : ∀ n, N ≤ n → isSignal (sched n) = false) (n : ℕ) :
    (scheduled out args x sched n).benchmark.restarts ≤ N := by
  have hcount : ∀ n, ((List.range n).map sched).countP isSignal ≤ N := by
    intro n
    induction n with
    | zero => exact Nat.zero_le N
    | succ n ih =>
      rw [List.range_succ, List.map_append, List.countP_append, List.map_singleton, List.countP_singleton]
      rcases Nat.lt_or_ge n N with hn | hn
      · have hle := List.countP_le_length (p := isSignal) (l := (List.range n).map sched)
        rw [List.length_map, List.length_range] at hle
        split_ifs <;> omega
      · rw [hsignals n hn]
        exact ih
  rw [scheduled, after_eq_run]
  exact (restarts_le (PRNG.rng out) args x 0 _).trans (hcount n)

section

variable (out args x)

/-- The system with `PRNG` after the events `es`. -/
abbrev ran (es : List (BenchmarkEvent β)) : BenchmarkSystem β ℕ := (init args x 0).run (PRNG.rng out) es

/-- The events `es`, for the system. -/
abbrev ranEvents (es : List (BenchmarkEvent β)) : List (Event β) :=
  labels (step (PRNG.rng out)) event (init args x 0) es

/-- If no other process reads, all bytes taken were taken by the benchmark. -/
theorem ran_alone {es : List (BenchmarkEvent β)}
    (hothers : ∀ q kiocb buf limit, .other (.read q kiocb buf limit) ∉ es) :
    QrngSystem.TakenAlone 0 (ran out args x es).system := by
  have hreads : ∀ e ∈ ranEvents out args x es, QrngSystem.ReadsOnly 0 e :=
    forall_labels (A := fun e => ∀ q kiocb buf limit, e ≠ .other (.read q kiocb buf limit))
      (fun σ e he => readsOnly_event σ he) (init args x 0)
      (fun e he q kiocb buf limit heq => hothers q kiocb buf limit (heq ▸ he))
  rw [run_system]
  exact Runs.run_invariant (fun _ _ he h => h.step (PRNG.rng out) he) hreads
    (QrngSystem.takenAlone_init 0 0)

/-- So it is under a schedule. -/
theorem scheduled_alone (hothers : ∀ n q kiocb buf limit, sched n ≠ .other (.read q kiocb buf limit))
    (n : ℕ) : QrngSystem.TakenAlone 0 (scheduled out args x sched n).system := by
  rw [scheduled, after_eq_run]
  refine ran_alone out args x fun q kiocb buf limit h => ?_
  obtain ⟨i, -, hi⟩ := List.mem_map.mp h
  exact hothers i q kiocb buf limit hi

end

/-! ## A schedule -/

/-- The benchmark calls its first read and sleeps, and its process gets a signal. From then on, the
benchmark, the service and all processes make their steps, each again and again. -/
def signalledFirst (n : ℕ) : BenchmarkEvent UInt8 :=
  if n < 8 then
    if n = 0 then .benchmark else .other (if n = 7 then .signal BENCHMARK else .sched BENCHMARK)
  else if n.unpair.1 = 0 then .benchmark
  else .other (if n.unpair.1 = 1 then .main else .sched (n.unpair.1 - 2))

/-- This schedule is fair. -/
theorem signalledFirst_fair : FairToBenchmark signalledFirst := by
  -- Beyond the signal, the number `Nat.pair k m` belongs to the benchmark for `k = 0`, to the service for
  -- `k = 1`, and else to `k - 2`.
  have hlate : ∀ k n, n ≤ Nat.pair k (n + 8) ∧ ¬ Nat.pair k (n + 8) < 8 := fun k n => by
    have hle := Nat.right_le_pair k (n + 8)
    omega
  refine ⟨fun n => ⟨_, (hlate 0 n).1, ?_⟩, fun n => ⟨_, (hlate 1 n).1, ?_⟩,
    fun p n => ⟨_, (hlate (p + 2) n).1, ?_⟩⟩
  · simp [signalledFirst, (hlate 0 n).2, isBenchmark]
  · simp [signalledFirst, (hlate 1 n).2, isOther, QrngSystem.isMain]
  · simp [signalledFirst, (hlate (p + 2) n).2, isOther, QrngSystem.isSched]

/-- Nobody else reads. -/
theorem signalledFirst_ne_read (n q : ℕ) (kiocb : Kiocb) (buf : List UInt8) (limit : ℕ) :
    signalledFirst n ≠ .other (.read q kiocb buf limit) := by
  unfold signalledFirst
  split_ifs <;> simp

/-- There is no other signal. -/
theorem signalledFirst_isSignal {n : ℕ} (hn : 8 ≤ n) : isSignal (signalledFirst n) = false := by
  unfold signalledFirst
  split_ifs <;> first | rfl | omega

/-- So nobody else takes a byte. -/
theorem signalledFirst_taken (n : ℕ) :
    (scheduled (fun _ _ => (0 : UInt8)) ["-p", "2"] 0 signalledFirst n).system.driver.taken.length ≤
      ((scheduled (fun _ _ => (0 : UInt8)) ["-p", "2"] 0 signalledFirst n).system.driver.takenBy
        BENCHMARK).length + 0 := by
  have halone := scheduled_alone (fun _ _ => (0 : UInt8)) ["-p", "2"] 0 signalledFirst_ne_read n
  rw [halone.takenBy, List.length_map, Nat.add_zero]

/-- There is no signal that kills the benchmark. -/
theorem signalledFirst_ne_kill (n : ℕ) : signalledFirst n ≠ .kill := by
  unfold signalledFirst
  split_ifs <;> nofun

/-! ## Progress -/

/-- While the process of the benchmark is in a read, the benchmark waits. -/
theorem step_of_busy {G : Type} (rng : RNG β G) {σ : BenchmarkSystem β G} (hpc : σ.benchmark.pc = .read)
    (hbusy : (σ.system.driver.procs BENCHMARK).free = false) (e : BenchmarkEvent β) :
    (σ.step rng e).benchmark = σ.benchmark := by
  cases e with
  | benchmark => simp only [step, main_of_not_calls (Benchmark.next_of_busy hpc hbusy)]
  | kill => simp [step, Benchmark.kill, hbusy]
  | other e => rfl

/-- What the system's part of a schedule leads to, the schedule leads to. -/
theorem leadsTo_system {P Q : QrngSystem β ℕ → Prop} :
    LeadsTo (scheduled out args x sched) (fun σ => P σ.system) (fun σ => Q σ.system) ↔
      LeadsTo (after (QrngSystem.step (PRNG.rng out)) (.init 0) (scheduledEvents out args x sched))
        P Q := by
  unfold LeadsTo
  simp only [scheduled_system]

/-- The benchmark is `b`, and its process is in the read of `b` or has returned from it. -/
def InRead {G : Type} (b : Benchmark β) (σ₀ : Driver β) (σ : BenchmarkSystem β G) : Prop :=
  σ.benchmark = b ∧
    Driver.InCall (fun P xs _ => ReadPhase false (List.ofFn b.x) SIZEOF_X P xs) BENCHMARK σ₀
      σ.system.driver

/-- It is so until the process returns. -/
theorem InRead.step {G : Type} {b : Benchmark β} {σ₀ : Driver β} {σ : BenchmarkSystem β G}
    (h : InRead b σ₀ σ) (rng : RNG β G) (hpc : b.pc = .read)
    (hbusy : (σ.system.driver.procs BENCHMARK).free = false) (e : BenchmarkEvent β) :
    InRead b σ₀ (σ.step rng e) := by
  obtain ⟨rfl, hin⟩ := h
  refine ⟨step_of_busy rng hpc hbusy e, ?_⟩
  rw [step_system, QrngSystem.step_driver]
  exact hin.tick (readPhases false _ _) hbusy _

/-- The read of the benchmark returns, and the benchmark has waited for it. -/
theorem read_returns (hfair : FairToBenchmark sched) {B : ℕ}
    (hothers : ∀ n, (scheduled out args x sched n).system.driver.taken.length ≤
      ((scheduled out args x sched n).system.driver.takenBy BENCHMARK).length + B) {n : ℕ}
    (hpc : (scheduled out args x sched n).benchmark.pc = .read) :
    ∃ m, n ≤ m ∧ (scheduled out args x sched m).benchmark = (scheduled out args x sched n).benchmark ∧
      ((scheduled out args x sched m).system.driver.procs BENCHMARK).free = true := by
  have hinv : (scheduled out args x sched n).Invariant args := scheduled_invariant n
  obtain ⟨σ₀, -, -, -, hin⟩ := hinv.taken
  simp only [Benchmark.Phase, hpc] at hin
  have hreturns := leadsTo_system.mpr (QrngSystem.read_returns out (scheduledEvents_fair hfair) false
    (List.length_ofFn (f := (scheduled out args x sched n).benchmark.x)).le
    (fun m => by rw [← scheduled_system]; exact hothers m) σ₀)
  obtain ⟨m, hnm, ⟨⟨-, hfree⟩, hb, -⟩ | hR⟩ := hreturns.while_stable (R := fun _ => False)
    (J := InRead (scheduled out args x sched n).benchmark σ₀)
    (fun m hm hno => Or.inl (hm.step (PRNG.rng out) hpc
      (Bool.eq_false_iff.mpr fun hfree => hno ⟨hm.2, hfree⟩) (sched m))) n ⟨hin, rfl, hin⟩
  · exact ⟨m, hnm, hb, hfree⟩
  · exact hR.elim

/-- Then the benchmark retrieves the next integer, or the read is called anew, or a signal kills the
benchmark. -/
theorem returned_next (hfair : FairToBenchmark sched) (k r : ℕ) :
    LeadsTo (scheduled out args x sched)
      (fun σ => (σ.benchmark.pc = .read ∧ σ.benchmark.i = k ∧ σ.benchmark.restarts = r) ∧
        (σ.system.driver.procs BENCHMARK).free = true)
      (fun σ => (σ.benchmark.pc = .loop ∧ σ.benchmark.i = k + 1 ∧ σ.benchmark.restarts = r) ∨
        (σ.benchmark.pc = .read ∧ σ.benchmark.i = k ∧ σ.benchmark.restarts = r + 1) ∨
        σ.benchmark.pc = .killed) := by
  refine .of_always scheduled_invariant (leadsTo_of_next (A := fun _ => True) (fun σ e _ ho h => ?_)
    (fun σ e _ ho h => ?_) (fun _ => trivial) hfair.benchmark)
  · -- The benchmark looks at what its read has returned.
    cases e with
    | benchmark =>
      obtain ⟨hinv, ⟨hpc, rfl, rfl⟩, hfree⟩ := h
      obtain ⟨pieces, xs, -, hphase, -⟩ := hinv.taken.pieces
      obtain ⟨buf, ⟨-, hnext⟩ | ⟨-, -, hnext⟩⟩ := hphase.next hpc hfree
      · rw [step, main_of_not_calls hnext, Benchmark.body, if_neg (not_not.mpr rfl)]
        exact Or.inl ⟨rfl, rfl, rfl⟩
      · rw [step, main_of_calls hnext]
        exact Or.inr (Or.inl ⟨hpc, rfl, rfl⟩)
    | _ => cases ho
  · -- The others leave its process alone, which is in no call.
    cases e with
    | benchmark => cases ho
    | kill =>
      obtain ⟨-, ⟨hpc, -, -⟩, hfree⟩ := h
      simp [step, Benchmark.kill, hpc, hfree]
    | other e =>
      obtain ⟨hinv, hread, hfree⟩ := h
      refine Or.inr ⟨hinv.other (PRNG.rng out) e, hread, ?_⟩
      simp only [step, QrngSystem.step_driver]
      cases hl : σ.system.driverLabel e.beside with
      | none => exact hfree
      | some l => exact (congrArg Proc.free (Driver.step_of_free (keepsCall_beside hl) hfree)).trans hfree

/-- At the head of the loop, the benchmark calls the next read, or closes the device, or a signal kills
it. -/
theorem loop_next (hfair : FairToBenchmark sched) (k r : ℕ) :
    LeadsTo (scheduled out args x sched)
      (fun σ => σ.benchmark.pc = .loop ∧ σ.benchmark.i = k ∧ σ.benchmark.restarts = r)
      (fun σ => (σ.benchmark.pc = .read ∧ σ.benchmark.i = k ∧ σ.benchmark.restarts = r) ∨
        σ.benchmark.pc = .closed ∨ σ.benchmark.pc = .killed) := by
  refine leadsTo_of_next (A := fun _ => True) (fun σ e _ ho h => ?_) (fun σ e _ ho h => ?_)
    (fun _ => trivial) hfair.benchmark
  · cases e with
    | benchmark =>
      -- The head of the loop calls the next read, or closes the device.
      rcases lt_or_ge (σ.benchmark.i : ℤ) σ.benchmark.options.cnt.toInt with hi | hi
      · rw [step, main_of_calls (Benchmark.next_of_lt h.1 hi)]
        exact Or.inl ⟨rfl, h.2⟩
      · rw [step, main_of_not_calls (Benchmark.next_of_le h.1 hi)]
        exact Or.inr (Or.inl rfl)
    | _ => cases ho
  · cases e with
    | benchmark => cases ho
    -- At the head of the loop, a signal that kills the benchmark does so at once.
    | kill =>
      simp only [step, Benchmark.kill]
      split_ifs
      · exact Or.inl (Or.inr (Or.inr rfl))
      · exact Or.inr h
    | other e => exact Or.inr h

/-- If signals come only before the point `N`, the benchmark comes to its end. -/
theorem benchmark_ends (hfair : FairToBenchmark sched) {B : ℕ}
    (hothers : ∀ n, (scheduled out args x sched n).system.driver.taken.length ≤
      ((scheduled out args x sched n).system.driver.takenBy BENCHMARK).length + B) {N : ℕ}
    (hsignals : ∀ n, N ≤ n → isSignal (sched n) = false) :
    LeadsTo (scheduled out args x sched) (fun _ => True)
      (fun σ => σ.benchmark.pc = .closed ∨ σ.benchmark.pc = .killed) := by
  -- Every integer brings it closer to `cnt`, and every read called anew uses up a signal.
  refine LeadsTo.induction (M := fun σ => ((Options.parse args).cnt.toInt.toNat - σ.benchmark.i) +
    (N - σ.benchmark.restarts)) fun k => ?_
  have hread : LeadsTo (scheduled out args x sched)
      (fun σ => σ.benchmark.pc = .read ∧
        ((Options.parse args).cnt.toInt.toNat - σ.benchmark.i) + (N - σ.benchmark.restarts) = k)
      (fun σ => (σ.benchmark.pc = .closed ∨ σ.benchmark.pc = .killed) ∨ True ∧
        ((Options.parse args).cnt.toInt.toNat - σ.benchmark.i) + (N - σ.benchmark.restarts) < k) := by
    rintro n ⟨hpc, hk⟩
    obtain ⟨m, hnm, hb, hfree⟩ := read_returns hfair hothers hpc
    obtain ⟨m', hmm', hnext⟩ := returned_next hfair _ _ m ⟨⟨hb ▸ hpc, rfl, rfl⟩, hfree⟩
    rw [← hb] at hk
    refine ⟨m', hnm.trans hmm', ?_⟩
    rcases hnext with ⟨-, hi, hr⟩ | ⟨-, hi, hr⟩ | hkilled
    · have hinv : (scheduled out args x sched m').Invariant args := scheduled_invariant m'
      have hle := hinv.i_le
      rw [hinv.options] at hle
      exact Or.inr ⟨trivial, by omega⟩
    · have hle : (scheduled out args x sched m').benchmark.restarts ≤ N :=
        scheduled_restarts_le hsignals m'
      exact Or.inr ⟨trivial, by omega⟩
    · exact Or.inl (Or.inr hkilled)
  rintro n ⟨-, hk⟩
  cases hpc : (scheduled out args x sched n).benchmark.pc with
  | loop =>
    obtain ⟨m, hnm, ⟨hpc', hi, hr⟩ | hended⟩ := loop_next hfair _ _ n ⟨hpc, rfl, rfl⟩
    · obtain ⟨m', hmm', hgoal⟩ := hread m ⟨hpc', by rw [hi, hr]; exact hk⟩
      exact ⟨m', hnm.trans hmm', hgoal⟩
    · exact ⟨m, hnm, Or.inl hended⟩
  | read => exact hread n ⟨hpc, hk⟩
  | closed => exact ⟨n, le_rfl, Or.inl (Or.inl hpc)⟩
  | failed =>
    have hinv : (scheduled out args x sched n).Invariant args := scheduled_invariant n
    exact absurd hpc (not_failed hinv.taken)
  | killed => exact ⟨n, le_rfl, Or.inl (Or.inr hpc)⟩

/-! ## The end of the benchmark -/

omit [Zero β] in
/-- What `isSignal` tests. -/
theorem isSignal_iff {e : BenchmarkEvent β} :
    isSignal e = true ↔ e = .other (.signal BENCHMARK) := by
  cases e with
  | other e => cases e <;> simp [isSignal]
  | _ => simp [isSignal]

omit [Zero β] in
/-- The benchmark's own steps do not kill it. -/
theorem next_pc_ne_killed {b : Benchmark β} (h : b.pc ≠ .killed) (P : Proc β) :
    (b.next P).1.pc ≠ .killed := by
  unfold Benchmark.next
  split
  · split_ifs <;> nofun
  · split_ifs
    · exact h
    · unfold Benchmark.body
      split_ifs <;> nofun
  · exact h

/-- Only the signal that kills the benchmark kills it. -/
theorem kill_of_killed {G : Type} (rng : RNG β G) (args : List String) (x : Fin SIZEOF_X → β) (g : G)
    {es : List (BenchmarkEvent β)} (hpc : ((init args x g).run rng es).benchmark.pc = .killed) :
    .kill ∈ es := by
  by_contra hno
  have hnever : ((init args x g).run rng es).benchmark.pc ≠ .killed := by
    refine Runs.run_invariant (P := fun σ : BenchmarkSystem β G => σ.benchmark.pc ≠ .killed)
      (A := fun e => e ≠ .kill) (fun σ e he h => ?_) (fun e he heq => hno (heq ▸ he)) ?_
    · cases e with
      | benchmark => exact next_pc_ne_killed h _
      | kill => exact absurd rfl he
      | other e => exact h
    · simp [init, Benchmark.start]
  exact hnever hpc

/-- The benchmark finishes. Under a schedule that lets the benchmark, the service and every process make
its next step again and again, let all others take at most `B` bytes over the whole run. Then the
benchmark retrieves as many integers as it was asked for, and closes the device; what its process has
taken are the bytes of these integers, and a piece for each read that a signal has ended. Or a signal kills
it, or its process gets signals without end. -/
theorem benchmark_finishes (hfair : FairToBenchmark sched) {B : ℕ}
    (hothers : ∀ n, (scheduled out args x sched n).system.driver.taken.length ≤
      ((scheduled out args x sched n).system.driver.takenBy BENCHMARK).length + B) :
    (∃ m, (scheduled out args x sched m).benchmark.pc = .closed ∧
      (scheduled out args x sched m).benchmark.retrieved.length =
        (Options.parse args).cnt.toInt.toNat ∧
      ∃ pieces, (scheduled out args x sched m).benchmark.Splits pieces ∧
        (scheduled out args x sched m).system.driver.takenBy BENCHMARK = pieces.flatten) ∨
    (∃ m, (scheduled out args x sched m).benchmark.pc = .killed ∧ ∃ i < m, sched i = .kill) ∨
    ∀ n, ∃ m, n ≤ m ∧ sched m = .other (.signal BENCHMARK) := by
  by_cases hsignals : ∀ n, ∃ m, n ≤ m ∧ sched m = .other (.signal BENCHMARK)
  · exact Or.inr (Or.inr hsignals)
  · -- From some point on there are no signals, so from there the loop gets to its end.
    push Not at hsignals
    obtain ⟨N, hN⟩ := hsignals
    obtain ⟨m, -, hclosed | hkilled⟩ := benchmark_ends hfair hothers
      (fun n hn => Bool.eq_false_iff.mpr fun h => hN n hn (isSignal_iff.mp h)) 0 trivial
    · have hinv : (scheduled out args x sched m).Invariant args := scheduled_invariant m
      obtain ⟨pieces, xs, hsplits, hphase, htaken⟩ := hinv.taken.pieces
      simp only [Benchmark.Phase, hclosed] at hphase
      refine Or.inl ⟨m, hclosed, hinv.length_retrieved.trans (hinv.closed hclosed), pieces, hsplits, ?_⟩
      rw [htaken, hphase.2, List.append_nil]
    · refine Or.inr (Or.inl ⟨m, hkilled, ?_⟩)
      rw [scheduled, after_eq_run] at hkilled
      obtain ⟨i, hi, heq⟩ := List.mem_map.mp (kill_of_killed (PRNG.rng out) args x 0 hkilled)
      exact ⟨i, List.mem_range.mp hi, heq⟩

/-- The theorem for two integers: the benchmark retrieves them. -/
theorem benchmark_finishes_two :
    ∃ m, (scheduled (fun _ _ => (0 : UInt8)) ["-p", "2"] 0 signalledFirst m).benchmark.pc = .closed ∧
      (scheduled (fun _ _ => (0 : UInt8)) ["-p", "2"] 0 signalledFirst m).benchmark.retrieved.length =
        (Options.parse ["-p", "2"]).cnt.toInt.toNat ∧
      ∃ pieces,
        (scheduled (fun _ _ => (0 : UInt8)) ["-p", "2"] 0 signalledFirst m).benchmark.Splits pieces ∧
        (scheduled (fun _ _ => (0 : UInt8)) ["-p", "2"] 0 signalledFirst m).system.driver.takenBy
          BENCHMARK = pieces.flatten := by
  rcases benchmark_finishes signalledFirst_fair signalledFirst_taken with hclosed | ⟨m, -, i, -, hkill⟩ | hsignals
  · exact hclosed
  · exact absurd hkill (signalledFirst_ne_kill i)
  · obtain ⟨m, hm, hsignal⟩ := hsignals 8
    exact absurd (isSignal_iff.mpr hsignal) (by simp [signalledFirst_isSignal hm])

/-! ## What the benchmark retrieves -/

section

variable (out args x)

end

end BenchmarkSystem

end QrngDevice
