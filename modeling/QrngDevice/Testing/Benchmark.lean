import QrngDevice.Service.Ledger
import QrngDevice.Service.Served

/-!
# The benchmark

`testing/benchmark.cpp` retrieves integers of four bytes from the device, with one blocking read for
each, and gives up when a read does not return four. Here its loop runs beside the service, the driver
and the other processes, as process 1.

The benchmark has no handler for signals. So a signal kills it, as soon as its process is in no call, or
the kernel calls a read that the signal has ended once more (after a stop, when the process goes on). The
benchmark itself never sees `-ERESTARTSYS`, and does not learn that such a read has taken bytes.

The system with the benchmark is a system whose process 1 makes only the reads of the benchmark
(`run_system`), so that what holds of the system holds with the benchmark in it.
-/

namespace QrngDevice

open Runs RingBuffer

/-! ## The options -/

/-- `isspace`. -/
def isspace (c : Char) : Bool := c = ' ' || (9 ≤ c.toNat && c.toNat ≤ 13)

/-- `strtol(s, NULL, 10)`: white space, a sign, and digits, as the nearest number of 64 bits. -/
def strtol (s : String) : ℤ :=
  max (-2 ^ 63) (min (2 ^ 63 - 1) (signed (s.toList.dropWhile isspace)))
where
  /-- The number in front of the text. -/
  signed : List Char → ℤ
  | '-' :: cs => -digits cs
  | '+' :: cs => digits cs
  | cs => digits cs
  /-- The number that the digits in front of the text make. -/
  digits (cs : List Char) : ℤ :=
    (cs.takeWhile (·.isDigit)).foldl (fun n c => 10 * n + (c.toNat - '0'.toNat)) 0

/-- `atoi`: the result of `strtol` as an `int`. For a number that is none, C leaves the result undefined;
this is what the GNU library returns. -/
def atoi (s : String) : Int32 := .ofInt (strtol s)

/-- The options of the benchmark. -/
structure Options where
  /-- `print_x`. -/
  printX : Bool
  /-- `cnt`. -/
  cnt : Int32
  deriving DecidableEq

/-- The options that the arguments `argv[1]`, `argv[2]`, ... give. -/
def Options.parse (args : List String) : Options :=
  args.foldl
    (fun o arg => if arg = "-p" then { o with printX := true } else { o with cnt := atoi arg })
    ⟨false, 100⟩

example : Options.parse ["99999999999", "-p"] = ⟨true, 1215752191⟩ := by decide +kernel

/-! ## The loop -/

/-- `sizeof(x)`. -/
abbrev SIZEOF_X : ℕ := 4

/-- The process of the benchmark. -/
abbrev BENCHMARK : Pid := 1

/-- The next step of the benchmark in its own code. -/
inductive BenchmarkPc
  /-- The head of the loop: call `read`, or go on to `close`. -/
  | loop
  /-- Test `r` when `read` has returned. -/
  | read
  /-- The benchmark has closed the device, and printed its time. -/
  | closed
  /-- The benchmark has given up: "Reading x failed". -/
  | failed
  /-- A signal has killed the benchmark. -/
  | killed
  deriving DecidableEq

/-- The variables of the benchmark. The records of the integers retrieved and of the reads called anew
are added; no step depends on them. Each integer is given by its bytes in memory. -/
structure Benchmark (β : Type) where
  /-- `print_x` and `cnt`. -/
  options : Options
  /-- `i`. It does not go beyond `cnt`, so that it stays an `int`. -/
  i : ℕ
  /-- The bytes of `x`. It is not initialized. -/
  x : Fin SIZEOF_X → β
  /-- The integers printed. -/
  printed : List (Fin SIZEOF_X → β)
  /-- The integers retrieved. -/
  retrieved : List (Fin SIZEOF_X → β)
  /-- How many reads the kernel has called anew. -/
  restarts : ℕ
  /-- The next step. -/
  pc : BenchmarkPc

namespace Benchmark

variable {β : Type}

/-- The benchmark when it has opened the device. -/
def start (args : List String) (x : Fin SIZEOF_X → β) : Benchmark β :=
  ⟨.parse args, 0, x, [], [], 0, .loop⟩

/-- `read(fd,&x,sizeof(x))`: process 1 enters this call. -/
def read (b : Benchmark β) : Event β := .read 0 ⟨false, false, false⟩ (List.ofFn b.x) SIZEOF_X

/-- The benchmark after a read has left `buf` in `x`. -/
def copied (b : Benchmark β) (buf : List β) : Benchmark β :=
  { b with x := fun j => buf.getD j (b.x j) }

/-- The rest of the body of the loop, after `read` has returned `r`. -/
def body (b : Benchmark β) (r : ℤ) : Benchmark β :=
  if r ≠ SIZEOF_X then { b with pc := .failed }
  else
    { b with
      i := b.i + 1
      printed := if b.options.printX then b.printed ++ [b.x] else b.printed
      retrieved := b.retrieved ++ [b.x]
      pc := .loop }

/-- The benchmark's next step, and whether `read` is called in it, when its process is `P`. -/
def next (b : Benchmark β) (P : Proc β) : Benchmark β × Bool :=
  match b.pc, P with
  | .loop, _ =>
    if b.i < b.options.cnt.toInt then ({ b with pc := .read }, true)
    else ({ b with pc := .closed }, false)
  | .read, .returned (.read r it) =>
    -- The kernel does not return `-ERESTARTSYS`, and calls the read anew.
    if r = -ERESTARTSYS then ({ b.copied it.buf with restarts := b.restarts + 1 }, true)
    else ((b.copied it.buf).body r, false)
  | _, _ => (b, false)

/-- The benchmark after a signal that kills it. In a call, its process comes to the end of this first,
and after its end there is none. -/
def kill (b : Benchmark β) (P : Proc β) : Benchmark β :=
  if P.free ∧ (b.pc = .loop ∨ b.pc = .read) then { b with pc := .killed } else b

end Benchmark

/-- The whole system with the benchmark, which is process 1. -/
structure BenchmarkSystem (β G : Type) where
  /-- The service and the driver with its processes. -/
  system : QrngSystem β G
  /-- The benchmark. -/
  benchmark : Benchmark β

/-- What happens next in the system with the benchmark. -/
inductive BenchmarkEvent (β : Type)
  /-- The benchmark makes its next step in its own code. In a read, it has none. -/
  | benchmark
  /-- A signal kills the benchmark. -/
  | kill
  /-- Something else happens. Of the other processes, `p + 2` makes the calls of `p + 1`. -/
  | other (e : Event β)

/-- An event beside the benchmark. -/
def Event.beside {β : Type} : Event β → Event β
  | .read p kiocb buf limit => .read (p + 1) kiocb buf limit
  | .poll p events => .poll (p + 1) events
  | e => e

namespace BenchmarkSystem

variable {β G : Type} [Zero β]

/-- The system when the benchmark is started together with the service. -/
def init (args : List String) (x : Fin SIZEOF_X → β) (g : G) : BenchmarkSystem β G :=
  ⟨.init g, .start args x⟩

/-- The benchmark makes its next step in its own code. -/
def main (rng : RNG β G) (σ : BenchmarkSystem β G) : BenchmarkSystem β G :=
  let (b, calls) := σ.benchmark.next (σ.system.driver.procs BENCHMARK)
  { system := if calls then σ.system.step rng b.read else σ.system, benchmark := b }

/-- The system after an event. -/
def step (rng : RNG β G) (σ : BenchmarkSystem β G) : BenchmarkEvent β → BenchmarkSystem β G
  | .benchmark => σ.main rng
  | .kill => { σ with benchmark := σ.benchmark.kill (σ.system.driver.procs BENCHMARK) }
  | .other e => { σ with system := σ.system.step rng e.beside }

/-- The system after the events `es`. -/
abbrev run (rng : RNG β G) (σ : BenchmarkSystem β G) (es : List (BenchmarkEvent β)) :
    BenchmarkSystem β G :=
  Runs.run (step rng) σ es

/-! ## The system without the benchmark -/

omit [Zero β] in
/-- An event that does nothing: a step of process 1 in no call, or a call by process 1 in a call. -/
def nothing (σ : BenchmarkSystem β G) : Event β :=
  if (σ.system.driver.procs BENCHMARK).free then .sched BENCHMARK else σ.benchmark.read

omit [Zero β] in
/-- What an event is for the system. -/
def event (σ : BenchmarkSystem β G) : BenchmarkEvent β → Event β
  | .benchmark =>
    let (b, calls) := σ.benchmark.next (σ.system.driver.procs BENCHMARK)
    if calls then b.read else σ.nothing
  | .kill => σ.nothing
  | .other e => e.beside

/-- A step of the benchmark with a call. -/
theorem main_of_calls {rng : RNG β G} {σ : BenchmarkSystem β G} {b : Benchmark β}
    (h : σ.benchmark.next (σ.system.driver.procs BENCHMARK) = (b, true)) :
    σ.main rng = ⟨σ.system.step rng b.read, b⟩ := by
  simp only [main, h, if_true]

/-- A step of the benchmark without a call. -/
theorem main_of_not_calls {rng : RNG β G} {σ : BenchmarkSystem β G} {b : Benchmark β}
    (h : σ.benchmark.next (σ.system.driver.procs BENCHMARK) = (b, false)) :
    σ.main rng = ⟨σ.system, b⟩ := by
  simp only [main, h, Bool.false_eq_true, if_false]

/-- It does nothing. -/
theorem step_nothing (rng : RNG β G) (σ : BenchmarkSystem β G) :
    σ.system.step rng σ.nothing = σ.system := by
  unfold nothing
  split_ifs with hfree
  · simp only [QrngSystem.step, QrngSystem.label, Driver.sched_of_free hfree]
  · simp only [QrngSystem.step, QrngSystem.label, Benchmark.read, Nat.zero_add,
      Driver.call_of_busy (Bool.eq_false_iff.mpr hfree)]

/-- Every step is a step of the system without the benchmark. -/
theorem step_system (rng : RNG β G) (σ : BenchmarkSystem β G) (e : BenchmarkEvent β) :
    (σ.step rng e).system = σ.system.step rng (σ.event e) := by
  cases e with
  | benchmark =>
    simp only [step, main, event]
    split_ifs
    · rfl
    · -- A step without a call does nothing to the rest.
      exact (σ.step_nothing rng).symm
  | kill => exact (σ.step_nothing rng).symm
  | other e => rfl

/-- A run of the system with the benchmark is one of the system. -/
theorem run_system (rng : RNG β G) (σ : BenchmarkSystem β G) (es : List (BenchmarkEvent β)) :
    (σ.run rng es).system = σ.system.run rng (labels (step rng) event σ es) :=
  run_labels (step_system rng) σ es

/-! ## Where the benchmark is -/

end BenchmarkSystem

section

variable {β : Type}

/-- Where the process of the benchmark is in the driver, when it has taken `xs` in its last read. -/
def Benchmark.Phase (b : Benchmark β) (P : Proc β) (xs : List β) : Prop :=
  match b.pc with
  | .loop => P.free = true ∧ xs = []
  | .read => ReadPhase false (List.ofFn b.x) SIZEOF_X P xs
  | .closed => P.free = true ∧ xs = []
  | .failed => False
  | .killed => P.free = true ∧ xs.length ≤ SIZEOF_X

/-- What is known of the process stays true while it enters no call. -/
theorem Benchmark.phases [Zero β] (b : Benchmark β) : CallInvariant fun P xs _ => b.Phase P xs := by
  -- A process in no call takes nothing, whatever is known of what it has taken.
  have hfree : ∀ Q : List β → Prop, CallInvariant fun (P : Proc β) xs _ => P.free = true ∧ Q xs := by
    intro Q
    refine ⟨fun {r _ P xs _} _ h => ?_, fun h hn => ⟨hn.free h.1, h.2⟩⟩
    obtain ⟨hP, hQ⟩ := h
    cases P with
    | idle => exact ⟨rfl, by simpa [Proc.step] using hQ⟩
    | returned res => exact ⟨rfl, by simpa [Proc.step] using hQ⟩
    | _ => cases hP
  unfold Phase
  cases b.pc with
  | loop => exact hfree (· = [])
  | read => exact readPhases false _ _
  | closed => exact hfree (· = [])
  | failed => exact ⟨fun _ h => h, fun h _ => h⟩
  | killed => exact hfree (·.length ≤ SIZEOF_X)

/-- The process has taken no more than one integer in its last read. -/
theorem Benchmark.Phase.length_le {b : Benchmark β} {P : Proc β} {xs : List β} (h : b.Phase P xs) :
    xs.length ≤ SIZEOF_X := by
  unfold Phase at h
  cases hpc : b.pc with
  | read =>
    rw [hpc] at h
    exact (ReadPhase.length_le h List.length_ofFn.le).trans List.length_ofFn.le
  | failed =>
    rw [hpc] at h
    exact h.elim
  | killed =>
    rw [hpc] at h
    exact h.2
  | _ =>
    rw [hpc] at h
    simp [h.2]

namespace Benchmark

variable {b : Benchmark β} {P : Proc β} {xs : List β}

/-- While its process is in the read, the benchmark waits. -/
theorem next_of_busy (hpc : b.pc = .read) (hbusy : P.free = false) : b.next P = (b, false) := by
  cases P with
  | returned res => cases hbusy
  | _ => simp [next, hpc]

/-- When the read has filled `x`, the next integer is retrieved. When a signal has ended it before, it is
called anew. -/
theorem Phase.next (h : b.Phase P xs) (hpc : b.pc = .read) (hfree : P.free = true) :
    ∃ buf : List β,
      (xs = List.ofFn (b.copied buf).x ∧ b.next P = ((b.copied buf).body SIZEOF_X, false)) ∨
      (xs.length < SIZEOF_X ∧ ¬ P.Unsignalled ∧
        b.next P = ({ b.copied buf with restarts := b.restarts + 1 }, true)) := by
  simp only [Phase, hpc] at h
  have hlen : (List.ofFn b.x).length = SIZEOF_X := List.length_ofFn
  obtain ⟨r, it, rfl, ⟨rfl, hbuf, hxs⟩ | ⟨rfl, hxs⟩⟩ := h.blocking_result hfree hlen.le
  · rw [hlen] at hxs
    refine ⟨it.buf, Or.inl ⟨List.ext_getElem (by simp [hxs]) fun j hj _ => ?_, ?_⟩⟩
    · rw [List.getElem_ofFn, copied, hbuf]
      exact List.getElem_eq_getD _
    · simp [Benchmark.next, hpc, ERESTARTSYS]
  · rw [hlen] at hxs
    exact ⟨it.buf, Or.inr ⟨hxs, fun hno => hno rfl, by simp [Benchmark.next, hpc]⟩⟩

/-- At the head of the loop, the benchmark calls the next read, or goes on to close the device. -/
theorem next_of_lt (hpc : b.pc = .loop) (hi : b.i < b.options.cnt.toInt) :
    b.next P = ({ b with pc := .read }, true) := by
  simp only [Benchmark.next, hpc, if_pos hi]

theorem next_of_le (hpc : b.pc = .loop) (hi : b.options.cnt.toInt ≤ b.i) :
    b.next P = ({ b with pc := .closed }, false) := by
  simp only [Benchmark.next, hpc, if_neg (not_lt.mpr hi)]

/-- The bytes that the reads of the benchmark have taken, a piece for each read: those of four bytes are
the integers retrieved, and the others, which are shorter, were lost to a signal. -/
structure Splits (b : Benchmark β) (pieces : List (List β)) : Prop where
  /-- No read has taken more than it had asked for. -/
  length_le : ∀ piece ∈ pieces, piece.length ≤ SIZEOF_X
  /-- The reads that have taken all of it have retrieved the integers. -/
  retrieved : pieces.filter (·.length = SIZEOF_X) = b.retrieved.map List.ofFn
  /-- All others were called anew. -/
  length_eq : pieces.length = b.retrieved.length + b.restarts

end Benchmark

end

namespace BenchmarkSystem

variable {β G : Type} [Zero β] {σ : BenchmarkSystem β G} {args : List String}

/-- The process of the benchmark has taken some pieces, and what it has taken in its last read. -/
def Taken (σ : BenchmarkSystem β G) : Prop :=
  ∃ (σ₀ : Driver β) (pieces : List (List β)), σ.benchmark.Splits pieces ∧
    σ₀.takenBy BENCHMARK = pieces.flatten ∧
    Driver.InCall (fun P xs _ => σ.benchmark.Phase P xs) BENCHMARK σ₀ σ.system.driver

/-- The pieces, and the place of the process after what it has taken in its last read. -/
theorem Taken.pieces (h : σ.Taken) : ∃ (pieces : List (List β)) (xs : List β),
    σ.benchmark.Splits pieces ∧ σ.benchmark.Phase (σ.system.driver.procs BENCHMARK) xs ∧
      σ.system.driver.takenBy BENCHMARK = pieces.flatten ++ xs := by
  obtain ⟨σ₀, pieces, hsplits, hpieces, hin⟩ := h
  obtain ⟨xs, -, hphase, htaken, -⟩ := hin.phase
  exact ⟨pieces, xs, hsplits, hphase, by rw [htaken, hpieces]⟩

/-- What holds of the benchmark, started with the arguments `args`, and of its process. -/
structure Invariant (args : List String) (σ : BenchmarkSystem β G) : Prop where
  /-- The options are those given. -/
  options : σ.benchmark.options = .parse args
  /-- An integer was retrieved each time. -/
  length_retrieved : σ.benchmark.retrieved.length = σ.benchmark.i
  /-- All were printed, or none. -/
  printed : σ.benchmark.printed = if σ.benchmark.options.printX then σ.benchmark.retrieved else []
  /-- In a read, more are wanted, and after the loop none. -/
  wanted : (σ.benchmark.pc = .read → σ.benchmark.i < σ.benchmark.options.cnt.toInt) ∧
    (σ.benchmark.pc = .closed → σ.benchmark.options.cnt.toInt ≤ σ.benchmark.i)
  /-- No more than `cnt` were retrieved. -/
  i_le : σ.benchmark.i ≤ σ.benchmark.options.cnt.toInt.toNat
  /-- The process has taken the bytes of the integers, and those that were lost. -/
  taken : σ.Taken

/-- The system starts so. -/
theorem invariant_init (args : List String) (x : Fin SIZEOF_X → β) (g : G) :
    (init args x g).Invariant args where
  options := rfl
  length_retrieved := rfl
  printed := (ite_self _).symm
  wanted := by simp [init, Benchmark.start]
  i_le := Nat.zero_le _
  taken := ⟨.init, [], ⟨by simp, rfl, rfl⟩, rfl, Driver.run_accounted [], [], [], ⟨rfl, rfl⟩, rfl, rfl⟩

omit [Zero β] in
/-- The events beside the benchmark make no call of its process. -/
theorem keepsCall_beside {system : QrngSystem β G} {e : Event β} {l : Label β}
    (h : system.driverLabel e.beside = some l) : l.KeepsCall BENCHMARK := by
  cases e with
  | main =>
    simp only [Event.beside, QrngSystem.driverLabel] at h
    split at h <;> simp only [Option.some.injEq, reduceCtorEq] at h <;> subst h <;>
      simp [Label.KeepsCall]
  | _ =>
    simp only [Event.beside, QrngSystem.driverLabel, QrngSystem.label, Option.some.injEq] at h
    subst h
    simp [Label.KeepsCall]

/-- An event beside the benchmark. -/
theorem Invariant.other (h : σ.Invariant args) (rng : RNG β G) (e : Event β) :
    (σ.step rng (.other e)).Invariant args := by
  obtain ⟨σ₀, pieces, hsplits, hpieces, hin⟩ := h.taken
  refine { h with taken := ⟨σ₀, pieces, hsplits, hpieces, ?_⟩ }
  simp only [step, QrngSystem.step_driver]
  cases hl : σ.system.driverLabel e.beside with
  | none => exact hin
  | some l => exact σ.benchmark.phases.step _ _ (keepsCall_beside hl) hin

/-- The signal that kills the benchmark. -/
theorem Invariant.kill (h : σ.Invariant args) (rng : RNG β G) : (σ.step rng .kill).Invariant args := by
  simp only [step, Benchmark.kill]
  split_ifs with hkill
  · obtain ⟨σ₀, pieces, hsplits, hpieces, hin⟩ := h.taken
    obtain ⟨xs, ys, hphase, htaken, happ⟩ := hin.phase
    exact { h with
      wanted := ⟨nofun, nofun⟩
      taken := ⟨σ₀, pieces, { hsplits with }, hpieces, hin.accounted, xs, ys,
        ⟨hkill.1, hphase.length_le⟩, htaken, happ⟩ }
  · exact h

/-- The process of the benchmark enters a read. -/
theorem taken_read (rng : RNG β G) {system : QrngSystem β G} (hacc : system.driver.Accounted)
    (hfree : (system.driver.procs BENCHMARK).free = true) {b : Benchmark β} (hpc : b.pc = .read)
    {pieces : List (List β)} (hsplits : b.Splits pieces)
    (hpieces : system.driver.takenBy BENCHMARK = pieces.flatten) :
    (⟨system.step rng b.read, b⟩ : BenchmarkSystem β G).Taken := by
  have hrecords := Driver.step_records system.driver (p := BENCHMARK)
    (l := .call BENCHMARK (.read ⟨false, false, false⟩ (List.ofFn b.x) SIZEOF_X)) (by simp)
  refine ⟨system.driver, pieces, hsplits, hpieces, hacc.step _, [], [], ?_,
    by rw [List.append_nil]; exact hrecords.1, by rw [List.append_nil]; exact hrecords.2.1⟩
  simp only [Benchmark.read, QrngSystem.step, QrngSystem.label, Driver.step, hfree, if_true,
    Function.update_self, Benchmark.Phase, hpc]
  exact .entry ⟨false, false, false⟩ _ _

/-- A step of the benchmark at the head of the loop. -/
theorem Invariant.loop (h : σ.Invariant args) (rng : RNG β G) (hpc : σ.benchmark.pc = .loop) :
    (σ.main rng).Invariant args := by
  obtain ⟨σ₀, pieces, hsplits, hpieces, hin⟩ := h.taken
  obtain ⟨xs, ys, hphase, htaken, happ⟩ := hin.phase
  simp only [Benchmark.Phase, hpc] at hphase
  obtain ⟨hfree, rfl⟩ := hphase
  rcases lt_or_ge (σ.benchmark.i : ℤ) σ.benchmark.options.cnt.toInt with hi | hi
  · rw [main_of_calls (Benchmark.next_of_lt hpc hi)]
    refine { h with wanted := ⟨fun _ => hi, nofun⟩, taken := ?_ }
    exact taken_read rng hin.accounted hfree rfl { hsplits with } (by rw [htaken, List.append_nil, hpieces])
  · rw [main_of_not_calls (Benchmark.next_of_le hpc hi)]
    exact { h with
      wanted := ⟨nofun, fun _ => hi⟩
      taken := ⟨σ₀, pieces, { hsplits with }, hpieces, hin.accounted, [], ys, ⟨hfree, rfl⟩, htaken, happ⟩ }

/-- A step of the benchmark after its read has returned. -/
theorem Invariant.returned (h : σ.Invariant args) (rng : RNG β G) (hpc : σ.benchmark.pc = .read)
    (hfree : (σ.system.driver.procs BENCHMARK).free = true) : (σ.main rng).Invariant args := by
  obtain ⟨σ₀, pieces, hsplits, hpieces, hin⟩ := h.taken
  obtain ⟨xs, ys, hphase, htaken, happ⟩ := hin.phase
  have hwanted := h.wanted.1 hpc
  -- The last read becomes a piece.
  have hall : σ.system.driver.takenBy BENCHMARK = (pieces ++ [xs]).flatten := by
    rw [htaken, hpieces, List.flatten_append, List.flatten_singleton]
  have hle : ∀ piece ∈ pieces ++ [xs], piece.length ≤ SIZEOF_X := by
    intro piece hpiece
    rcases List.mem_append.mp hpiece with hpiece | hpiece
    · exact hsplits.length_le piece hpiece
    · rw [List.mem_singleton.mp hpiece]
      exact hphase.length_le
  obtain ⟨buf, ⟨hxs, hnext⟩ | ⟨hxs, -, hnext⟩⟩ := hphase.next hpc hfree
  · -- All of it: an integer.
    have hfull : xs.length = SIZEOF_X := by rw [hxs, List.length_ofFn]
    rw [main_of_not_calls hnext, Benchmark.body, if_neg (not_not.mpr rfl)]
    refine
      { options := h.options
        length_retrieved := by simp [Benchmark.copied, h.length_retrieved]
        printed := ?_
        wanted := ⟨nofun, nofun⟩
        i_le := by simp only [Benchmark.copied]; omega
        taken := ⟨σ.system.driver, pieces ++ [xs], ⟨hle, ?_, ?_⟩, hall, hin.accounted, [], [],
          ⟨hfree, rfl⟩, by simp, by simp⟩ }
    · simp only [Benchmark.copied, h.printed]
      split_ifs <;> rfl
    · rw [List.filter_append, hsplits.retrieved, List.filter_singleton, hfull, List.map_append, hxs]
      rfl
    · simp only [Benchmark.copied, List.length_append, List.length_singleton, hsplits.length_eq]
      omega
  · -- A part of it, which is lost.
    rw [main_of_calls hnext]
    refine { h with wanted := ⟨fun _ => hwanted, fun hclosed => nomatch hpc.symm.trans hclosed⟩, taken := ?_ }
    refine taken_read rng hin.accounted hfree hpc ⟨hle, ?_, ?_⟩ hall
    · rw [List.filter_append, hsplits.retrieved, List.filter_singleton]
      simp [hxs.ne, Benchmark.copied]
    · simp only [Benchmark.copied, List.length_append, List.length_singleton, hsplits.length_eq]
      omega

/-- Every event keeps the invariant. -/
theorem Invariant.step (h : σ.Invariant args) (rng : RNG β G) (e : BenchmarkEvent β) :
    (σ.step rng e).Invariant args := by
  cases e with
  | other e => exact h.other rng e
  | kill => exact h.kill rng
  | benchmark =>
    cases hpc : σ.benchmark.pc with
    | loop => exact h.loop rng hpc
    | read =>
      cases hfree : (σ.system.driver.procs BENCHMARK).free with
      | true => exact h.returned rng hpc hfree
      | false =>
        simp only [BenchmarkSystem.step, main, Benchmark.next_of_busy hpc hfree]
        exact h
    | _ =>
      simp only [BenchmarkSystem.step, main, Benchmark.next, hpc]
      exact h

/-- The invariant holds in every run. -/
theorem run_invariant (rng : RNG β G) (args : List String) (x : Fin SIZEOF_X → β) (g : G)
    (es : List (BenchmarkEvent β)) : ((init args x g).run rng es).Invariant args :=
  Runs.run_invariant' (fun _ e h => h.step rng e) es (invariant_init args x g)

/-! ## Signals -/

/-- The process of the benchmark gets a signal. -/
def isSignal : BenchmarkEvent β → Bool
  | .other (.signal p) => p = BENCHMARK
  | _ => false

/-- After `n` signals, the kernel has called at most `n` reads anew, and fewer if a signal is still to end
one. -/
def RestartsLe (σ : BenchmarkSystem β G) (n : ℕ) : Prop :=
  σ.benchmark.restarts ≤ n ∧
    ((σ.system.driver.procs BENCHMARK).Unsignalled ∨ σ.benchmark.restarts < n)

/-- The benchmark's own events bring its process no signal. -/
theorem unsignalled_event (rng : RNG β G) (h : (σ.system.driver.procs BENCHMARK).Unsignalled)
    {e : BenchmarkEvent β} (he : isSignal e = false) :
    ((σ.step rng e).system.driver.procs BENCHMARK).Unsignalled := by
  rw [step_system]
  refine QrngSystem.unsignalled_step rng h ?_
  have hnothing : σ.nothing ≠ .signal BENCHMARK := by
    unfold nothing
    split_ifs <;> nofun
  cases e with
  | benchmark =>
    simp only [event]
    split_ifs
    · nofun
    · exact hnothing
  | kill => exact hnothing
  | other e =>
    cases e with
    | signal q => simpa [event, Event.beside, isSignal] using he
    | _ => nofun

/-- A step makes at most one read more to be called anew, and then a signal has ended it. -/
theorem RestartsLe.step {n : ℕ} (h : σ.RestartsLe n) (hinv : σ.Invariant args) (rng : RNG β G)
    (e : BenchmarkEvent β) : (σ.step rng e).RestartsLe (n + if isSignal e then 1 else 0) := by
  obtain ⟨hle, hor⟩ := h
  -- A step that calls no read anew.
  have hkeep : (σ.step rng e).benchmark.restarts = σ.benchmark.restarts →
      (σ.step rng e).RestartsLe (n + if isSignal e then 1 else 0) := by
    intro hsame
    refine ⟨by omega, ?_⟩
    cases he : isSignal e with
    | true => exact Or.inr (by simp only [if_true]; omega)
    | false => exact hor.imp (fun hu => unsignalled_event rng hu he) fun hlt => by omega
  cases e with
  | other e => exact hkeep rfl
  | kill =>
    refine hkeep ?_
    simp only [BenchmarkSystem.step, Benchmark.kill]
    split_ifs <;> rfl
  | benchmark =>
    simp only [BenchmarkSystem.step] at hkeep ⊢
    cases hpc : σ.benchmark.pc with
    | loop =>
      refine hkeep ?_
      rcases lt_or_ge (σ.benchmark.i : ℤ) σ.benchmark.options.cnt.toInt with hi | hi
      · rw [main_of_calls (Benchmark.next_of_lt hpc hi)]
      · rw [main_of_not_calls (Benchmark.next_of_le hpc hi)]
    | read =>
      cases hfree : (σ.system.driver.procs BENCHMARK).free with
      | false => exact hkeep (by rw [main_of_not_calls (Benchmark.next_of_busy hpc hfree)])
      | true =>
        obtain ⟨pieces, xs, -, hphase, -⟩ := hinv.taken.pieces
        obtain ⟨buf, ⟨-, hnext⟩ | ⟨-, hended, hnext⟩⟩ := hphase.next hpc hfree
        · refine hkeep ?_
          rw [main_of_not_calls hnext, Benchmark.body, if_neg (not_not.mpr rfl)]
          rfl
        · -- The signal is used up.
          rw [main_of_calls hnext]
          refine ⟨hor.resolve_left hended, Or.inl ?_⟩
          simp [Benchmark.read, QrngSystem.step, QrngSystem.label, Driver.step, hfree, Proc.start,
            Proc.Unsignalled]
    | _ => exact hkeep (by simp only [main, Benchmark.next, hpc])

/-- In a run, the kernel calls no more reads anew than the process of the benchmark gets signals. -/
theorem restarts_le (rng : RNG β G) (args : List String) (x : Fin SIZEOF_X → β) (g : G)
    (es : List (BenchmarkEvent β)) :
    ((init args x g).run rng es).benchmark.restarts ≤ es.countP isSignal := by
  suffices hall : ((init args x g).run rng es).RestartsLe (es.countP isSignal) from hall.1
  induction es using List.reverseRecOn with
  | nil => exact ⟨le_rfl, Or.inl trivial⟩
  | append_singleton es e ih =>
    have hstep := ih.step (run_invariant rng args x g es) rng e
    rw [run, run_append, List.countP_append, List.countP_singleton]
    exact hstep

/-! ## What the benchmark retrieves -/

omit [Zero β] in
/-- If none of the other processes reads, only process 1 does. -/
theorem readsOnly_event (σ : BenchmarkSystem β G) {e : BenchmarkEvent β}
    (he : ∀ q kiocb buf limit, e ≠ .other (.read q kiocb buf limit)) :
    QrngSystem.ReadsOnly 0 (σ.event e) := by
  have hread : ∀ b : Benchmark β, QrngSystem.ReadsOnly 0 b.read := by
    intro b q kiocb buf limit h
    simp only [Benchmark.read, Event.read.injEq] at h
    exact h.1.symm
  -- An event that does nothing for the benchmark is a step, or a call that it does not make.
  have hnothing : QrngSystem.ReadsOnly 0 σ.nothing := by
    unfold nothing
    split_ifs
    · nofun
    · exact hread σ.benchmark
  cases e with
  | benchmark =>
    simp only [event]
    split_ifs
    · exact hread _
    · exact hnothing
  | kill => exact hnothing
  | other e =>
    -- The calls of the others are not reads.
    intro q kiocb buf limit h
    cases e with
    | read q' kiocb' buf' limit' => exact absurd rfl (he _ _ _ _)
    | _ => simp [event, Event.beside] at h

/-- The benchmark does not give up. -/
theorem not_failed (h : σ.Taken) : σ.benchmark.pc ≠ .failed := by
  intro hpc
  obtain ⟨pieces, xs, -, hphase, -⟩ := h.pieces
  simp only [Benchmark.Phase, hpc] at hphase

/-- When the benchmark has closed the device, it has retrieved all integers. -/
theorem Invariant.closed (h : σ.Invariant args) (hpc : σ.benchmark.pc = .closed) :
    σ.benchmark.i = (Options.parse args).cnt.toInt.toNat := by
  have hle := h.i_le
  have hcnt := h.wanted.2 hpc
  rw [h.options] at hle hcnt
  omega

end BenchmarkSystem

end QrngDevice
