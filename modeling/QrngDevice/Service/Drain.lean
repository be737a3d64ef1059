import QrngDevice.Driver.ReadAlone
import QrngDevice.Driver.WriteAppends
import QrngDevice.Service.Schedules
import QrngDevice.Service.Stream

/-!
# The service and a reader in turns

All that the generator puts out can be read. In a round, the service polls, renews its bytes, and writes
them, and then process 1 reads as many. Each of these calls runs alone, so that its result is known
(`Driver.poll_alone`, `Driver.write_alone`, and `Driver.read_dequeues`). A round leaves nothing in the ring,
so after `n` rounds, the reader has got the first `256 n` bytes of the stream (`rounds_delivered`).
-/

namespace QrngDevice

open Runs

variable {β : Type} [Zero β]

namespace Driver

variable {ls ls' : List (Label β)} {p : Pid}

/-- The step of a process in a poll does nothing to the ring. -/
theorem sched_poll {σ : Driver β} {c : PollCall} {pc : PollPc} (h : σ.procs p = .poll c pc) :
    (σ.sched p).ring = σ.ring ∧ (σ.sched p).procs p = (c.step σ.ring pc).proc := by
  have hstep : (σ.procs p).step σ.ring = c.step σ.ring pc := by rw [h]; rfl
  refine ⟨?_, by rw [sched_procs_self, hstep]⟩
  rw [sched, hstep]
  cases pc with
  | inFlag k => simp only [PollCall.step]; split_ifs <;> rfl
  | _ => rfl

/-- A poll for `POLLOUT` alone, on a ring with a free slot, returns after five steps. -/
theorem poll_alone {σ : Driver β} {events : PollMask} (hfree : (σ.procs p).free = true)
    (hready : σ.ring.qrngBuffReady σ.ring.qrngBuffWriteIt = false) (hout : events.epollout = true) :
    ((σ.step (.call p (.poll events))).run (List.replicate 5 (.sched p))).ring = σ.ring ∧
      ∃ revents, ((σ.step (.call p (.poll events))).run (List.replicate 5 (.sched p))).procs p =
        .returned (.poll (some revents)) ∧ revents.epollout = true := by
  simp only [List.replicate, run_cons, run_nil]
  have hcall : (σ.step (.call p (.poll events))).ring = σ.ring ∧
      (σ.step (.call p (.poll events))).procs p = .poll ⟨events, .none, false, false⟩ .register := by
    simp [step, hfree, Proc.start]
  generalize σ.step (.call p (.poll events)) = σ₀ at hcall
  obtain ⟨hring₀, hproc₀⟩ := hcall
  obtain ⟨hring₁, hproc₁⟩ := sched_poll hproc₀
  simp only [PollCall.step, hring₀] at hring₁ hproc₁
  obtain ⟨hring₂, hproc₂⟩ := sched_poll hproc₁
  simp only [PollCall.step, hring₁] at hring₂ hproc₂
  obtain ⟨hring₃, hproc₃⟩ := sched_poll hproc₂
  simp only [PollCall.step, hring₂, hready, Bool.not_false] at hring₃ hproc₃
  obtain ⟨hring₄, hproc₄⟩ := sched_poll hproc₃
  simp only [PollCall.step, hring₃] at hring₄ hproc₄
  obtain ⟨hring₅, hproc₅⟩ := sched_poll hproc₄
  simp only [PollCall.step, hring₄] at hring₅ hproc₅
  simp only [PollMask.inter, hout, Bool.and_self, PollMask.none, ne_eq, PollMask.mk.injEq, reduceCtorEq, false_and,
    not_false_eq_true, if_true] at hproc₅
  exact ⟨hring₅, _, hproc₅, rfl⟩

omit [Zero β] in
/-- In these steps, only `p` moves. -/
theorem solo_replicate (p : Pid) (n : ℕ) :
    (∀ l ∈ List.replicate n (Label.sched p : Label β), l.Solo p) ∧
      (List.replicate n (Label.sched p : Label β)).countP (Label.isSched p) = n := by
  constructor
  · intro l hl
    rw [List.eq_of_mem_replicate hl]
    rfl
  · rw [List.countP_replicate, if_pos (Label.isSched_iff.mpr rfl)]

/-- A write alone appends as much of its source as fits, and returns how much that is. -/
theorem write_alone (hfree : (((init : Driver β).run ls).procs p).free = true) (buf : List β)
    (limit : ℕ) {m n : ℕ} (hn : 6 * buf.length + 4 ≤ n) (hpos : 0 < m) (hm : m = min buf.length
      (min limit (BUFF_SIZE - ((init : Driver β).run ls).ring.contents.length))) :
    ∃ it xs, ((enter ls p (.write buf limit)).run (List.replicate n (.sched p))).procs p =
        .returned (.write m it) ∧ xs.length = m ∧
      ((enter ls p (.write buf limit)).run (List.replicate n (.sched p))).ring.contents =
        ((init : Driver β).run ls).ring.contents ++ xs := by
  obtain ⟨hsolo, hcount⟩ := solo_replicate (β := β) p n
  obtain ⟨hproc, hring, -, -⟩ := enter_of_free (c := .write buf limit) hfree
  have hstart : SoloWrite buf limit ((init : Driver β).run ls).ring.contents
      (enter ls p (.write buf limit)).ring ((enter ls p (.write buf limit)).procs p) [] := by
    rw [hproc, hring]
    exact .start (run_represents ls) buf limit
  obtain ⟨ret, it, hret⟩ := write_returns hfree buf limit (fun l hl => (hsolo l hl).keepsCall)
    (hn.trans hcount.ge)
  obtain ⟨xs, hend⟩ := (soloWrites buf limit _).run hsolo ⟨[], hstart⟩
  have hphase := hend.phase
  rw [hret] at hphase
  obtain ⟨-, hlen⟩ := hphase.result
  have hxs := (hend.complete (by rw [hret]; rfl)).trans hm.symm
  have hret' : ret = m := by omega
  exact ⟨it, xs, by rw [hret, hret'], hxs, hend.represents.contents_eq⟩

end Driver

namespace QrngSystem

variable {G : Type}

/-! ## A round -/

/-- The service polls, renews its bytes and writes them, and process 1 reads as many, one after the
other. -/
def round : List (Event β) :=
  (.main :: List.replicate 5 (.sched SERVICE)) ++
    (.main :: .main :: .main :: List.replicate (6 * WRITE_SIZE + 4) (.sched SERVICE)) ++
    (.main :: .read 0 ⟨false, false, true⟩ (List.replicate WRITE_SIZE 0) WRITE_SIZE ::
      List.replicate (6 * WRITE_SIZE + 8) (.sched 1))

/-- Some rounds. -/
def rounds : ℕ → List (Event β)
  | 0 => []
  | n + 1 => rounds n ++ round

/-- All bytes written have been read, and the service is at the head of its loop. -/
structure AtRest (σ : QrngSystem β G) : Prop where
  /-- The service polls next. -/
  pc : σ.pc = .poll
  /-- The service is in no call. -/
  service : (σ.driver.procs SERVICE).free = true
  /-- Process 1 is in no call. -/
  reader : (σ.driver.procs 1).free = true
  /-- The ring is empty. -/
  empty : σ.driver.ring.contents = []

variable {rng : RNG β G} {F : ℕ → β} {state : ℕ → G} {ks : List ℕ} {σ : QrngSystem β G}

/-- Steps in the driver are no results of writes. -/
theorem writeResults_sched (rng : RNG β G) (σ : QrngSystem β G) (p : Pid) (n : ℕ) :
    σ.writeResults rng (List.replicate n (.sched p)) = [] := by
  induction n generalizing σ with
  | zero => rfl
  | succ n ih => rw [List.replicate_succ, writeResults, ih]; rfl

/-- The results in two parts of a run. -/
theorem writeResults_append (rng : RNG β G) (σ : QrngSystem β G) (es es' : List (Event β)) :
    σ.writeResults rng (es ++ es') = σ.writeResults rng es ++ (σ.run rng es).writeResults rng es' := by
  induction es generalizing σ with
  | nil => rfl
  | cons e es ih => simp only [List.cons_append, writeResults, ih, run, run_cons, List.append_assoc]

/-- The poll of a round. -/
theorem AtRest.poll (rng : RNG β G) (hrun : σ.DriverRun) (h : σ.AtRest) {τ : QrngSystem β G}
    (hτ : τ = σ.run rng (.main :: List.replicate 5 (.sched SERVICE))) :
    τ.pc = .polled ∧ τ.service = σ.service ∧ τ.driver.ring = σ.driver.ring ∧
      (∃ revents, τ.driver.procs SERVICE = .returned (.poll (some revents)) ∧
        revents.epollout = true) ∧ (τ.driver.procs 1).free = true ∧
      σ.writeResults rng (.main :: List.replicate 5 (.sched SERVICE)) = [] := by
  obtain ⟨driver, service, pc⟩ := σ
  obtain rfl := h.pc
  obtain ⟨ls, -, rfl⟩ := hrun
  have hready := (Driver.run_represents ls).writeReady_iff.mpr (by
    simp only [h.empty, List.length_nil]
    decide)
  rw [RingBuffer.writeReady, Bool.not_eq_true'] at hready
  obtain ⟨hring, hret⟩ := Driver.poll_alone h.service hready (rfl : POLLOUT.epollout = true)
  have hkeep : ∀ l ∈ (.call SERVICE (.poll POLLOUT) :: List.replicate 5 (.sched SERVICE) :
      List (Label β)), l.KeepsCall 1 := by
    simp [Label.KeepsCall]
  have hother := Driver.run_of_free hkeep h.reader
  simp only [run, run_cons, step, label, main, run_sched] at hτ
  subst hτ
  refine ⟨rfl, rfl, hring, hret, ?_, ?_⟩
  · simp only [Driver.run, run_cons] at hother
    rw [hother]
    exact h.reader
  · rw [writeResults, writeResults_sched]
    rfl

/-- The write of a round. -/
theorem write_round (hrng : rng.Yields F REQUEST_SIZE state) (hrun : σ.DriverRun)
    (hstream : σ.Streaming F state ks) (hpc : σ.pc = .polled)
    (hpolled : ∃ revents, σ.driver.procs SERVICE = .returned (.poll (some revents)) ∧
      revents.epollout = true) (hreader : (σ.driver.procs 1).free = true)
    (hempty : σ.driver.ring.contents = []) {n : ℕ} (hn : 6 * WRITE_SIZE + 4 ≤ n)
    {τ : QrngSystem β G}
    (hτ : τ = σ.run rng (.main :: .main :: .main :: List.replicate n (.sched SERVICE))) :
    τ.pc = .written ∧ (∃ it, τ.driver.procs SERVICE = .returned (.write WRITE_SIZE it)) ∧
      τ.driver.ring.contents.length = WRITE_SIZE ∧ (τ.driver.procs 1).free = true ∧
      σ.writeResults rng (.main :: .main :: .main :: List.replicate n (.sched SERVICE)) = [] := by
  obtain ⟨driver, service, pc⟩ := σ
  obtain ⟨revents, hret, hout⟩ := hpolled
  obtain ⟨ls, -, hls⟩ := hrun
  obtain ⟨w, hw, -⟩ := hstream
  simp only at hpc hret hls hreader hempty hw
  subst hpc hls
  obtain ⟨s, hs, hs', -⟩ := Service.Streams.prepare hrng hw
  have hfree : (((Driver.init : Driver β).run ls).procs SERVICE).free = true := by rw [hret]; rfl
  have hlen := hs'.arr_length
  obtain ⟨it, xs, hwrite, hxs, hring⟩ := Driver.write_alone (m := WRITE_SIZE) (n := n) hfree
    s.qrngWriteArr WRITE_SIZE (by rw [hlen]; exact hn) (by decide) (by
      simp only [hempty, hlen, List.length_nil]
      decide)
  have hkeep : ∀ l ∈ (.call SERVICE (.write s.qrngWriteArr WRITE_SIZE) ::
      List.replicate n (.sched SERVICE) : List (Label β)), l.KeepsCall 1 := by
    simp [Label.KeepsCall]
  have hother := Driver.run_of_free hkeep hreader
  simp only [run, run_cons, step, label, main, hret, Option.any_some, hout, if_true, hs, run_sched] at hτ
  subst hτ
  refine ⟨rfl, ⟨it, hwrite⟩, ?_, ?_, ?_⟩
  · rw [hempty, List.nil_append] at hring
    exact (congrArg List.length hring).trans hxs
  · simp only [Driver.run, run_cons] at hother
    rw [hother]
    exact hreader
  · simp only [writeResults, writeResults_sched, writeResult, step, label, main, hret,
      Option.any_some, hout, if_true, hs, List.append_nil]

/-- The end of a round. -/
theorem read_round (rng : RNG β G) (hrun : σ.DriverRun) (hstream : σ.Streaming F state ks) (hpc : σ.pc = .written)
    (hwritten : ∃ it, σ.driver.procs SERVICE = .returned (.write WRITE_SIZE it))
    (hlen : σ.driver.ring.contents.length = WRITE_SIZE) (hreader : (σ.driver.procs 1).free = true)
    {n : ℕ} (hn : 6 * WRITE_SIZE + 8 ≤ n) :
    (σ.run rng (.main :: .read 0 ⟨false, false, true⟩ (List.replicate WRITE_SIZE 0) WRITE_SIZE ::
      List.replicate n (.sched 1))).AtRest ∧
    σ.writeResults rng (.main :: .read 0 ⟨false, false, true⟩ (List.replicate WRITE_SIZE 0)
      WRITE_SIZE :: List.replicate n (.sched 1)) = [WRITE_SIZE] := by
  obtain ⟨driver, service, pc⟩ := σ
  obtain ⟨it, hret⟩ := hwritten
  obtain ⟨ls, -, hls⟩ := hrun
  obtain ⟨w, hw, -⟩ := hstream
  simp only at hpc hret hls hreader hlen hw
  subst hpc hls
  obtain ⟨s, hs, -⟩ := Service.Streams.finish hw (k := WRITE_SIZE) le_rfl
  obtain ⟨hsolo, hcount⟩ := Driver.solo_replicate (β := β) 1 n
  have hbuf : (List.replicate WRITE_SIZE (0 : β)).length = WRITE_SIZE := List.length_replicate
  have hreads : ReadsAlone 1 (List.replicate WRITE_SIZE (0 : β)) WRITE_SIZE
      (List.replicate n (.sched 1)) :=
    ⟨by simp, hbuf.le, hsolo, by rw [hcount, hbuf]; exact hn⟩
  obtain ⟨it', hread, -, hring⟩ := Driver.read_dequeues hreader hreads ⟨false, false, true⟩ rfl
    (m := WRITE_SIZE) (by rw [hlen, hbuf, min_self]) (Or.inr (by rw [hlen, hbuf]))
  have hkeep : ∀ l ∈ (.call 1 (.read ⟨false, false, true⟩ (List.replicate WRITE_SIZE 0) WRITE_SIZE) ::
      List.replicate n (.sched 1) : List (Label β)), l.KeepsCall SERVICE := by
    simp [Label.KeepsCall]
  have hother := Driver.run_of_free hkeep (show (((Driver.init : Driver β).run ls).procs SERVICE).free =
    true by rw [hret]; rfl)
  simp only [Driver.run, run_cons] at hother
  refine ⟨?_, ?_⟩
  · simp only [run, run_cons, step, label, main, hret, hs, run_sched]
    refine ⟨rfl, ?_, ?_, ?_⟩
    · exact (congrArg Proc.free hother).trans (by rw [hret]; rfl)
    · exact (congrArg Proc.free hread).trans rfl
    · refine (congrArg RingBuffer.contents hring).trans ?_
      rw [Driver.contents_dequeue ls hlen.ge, List.drop_eq_nil_of_le hlen.le]
  · simp only [writeResults, writeResults_sched, writeResult, hret, Int.toNat_natCast, List.append_nil]

/-- A round from rest, in a run of the system. -/
theorem AtRest.next (out : ℕ → Fin 4 → β) {es : List (Event β)}
    (h : ((init 0 : QrngSystem β ℕ).run (PRNG.rng out) es).AtRest) :
    ((init 0 : QrngSystem β ℕ).run (PRNG.rng out) (es ++ round)).AtRest ∧
      (init 0 : QrngSystem β ℕ).writeResults (PRNG.rng out) (es ++ round) =
        (init 0 : QrngSystem β ℕ).writeResults (PRNG.rng out) es ++ [WRITE_SIZE] := by
  have hrun := fun es : List (Event β) => driver_run (PRNG.rng out) 0 es
  have hstream := fun es : List (Event β) => (run_streaming out es).1
  have happend : ∀ es es' : List (Event β), ((init 0 : QrngSystem β ℕ).run (PRNG.rng out) es).run
      (PRNG.rng out) es' = (init 0).run (PRNG.rng out) (es ++ es') :=
    fun es es' => (run_append _ _ _ _).symm
  obtain ⟨hpc₁, -, hring₁, hret₁, hreader₁, hres₁⟩ := h.poll (PRNG.rng out) (hrun es) (happend _ _).symm
  obtain ⟨hpc₂, hret₂, hlen₂, hreader₂, hres₂⟩ := write_round (PRNG.yields out) (hrun _) (hstream _)
    hpc₁ hret₁ hreader₁ (hring₁ ▸ h.empty) le_rfl (happend _ _).symm
  obtain ⟨hrest, hres₃⟩ := read_round (PRNG.rng out) (hrun _) (hstream _) hpc₂ hret₂ hlen₂
    hreader₂ le_rfl
  rw [happend] at hrest
  refine ⟨?_, ?_⟩
  · simpa only [round, List.append_assoc] using hrest
  · rw [writeResults_append, QrngSystem.round, writeResults_append, writeResults_append, hres₁, happend,
      hres₂, happend, ← List.append_assoc es, hres₃, List.nil_append, List.nil_append]

/-- The rounds are the same for all bytes. -/
theorem map_rounds {γ : Type} [Zero γ] {f : β → γ} (hf : f 0 = 0) (n : ℕ) :
    (rounds n).map (Event.map f) = rounds n := by
  induction n with
  | zero => rfl
  | succ n ih => simp only [rounds, round, List.map_append, List.map_cons, List.map_replicate,
      Event.map, ih, hf]

/-- All bytes of the rounds have been written 256 at a time, and read. -/
theorem run_rounds (out : ℕ → Fin 4 → β) (n : ℕ) :
    ((init 0 : QrngSystem β ℕ).run (PRNG.rng out) (rounds n)).AtRest ∧
      (init 0 : QrngSystem β ℕ).writeResults (PRNG.rng out) (rounds n) = List.replicate n WRITE_SIZE := by
  induction n with
  | zero =>
    refine ⟨⟨rfl, rfl, rfl, ?_⟩, rfl⟩
    exact RingBuffer.represents_init.contents_eq
  | succ n ih =>
    obtain ⟨hrest, hres⟩ := ih.1.next out
    exact ⟨hrest, by rw [rounds, hres, ih.2, List.replicate_succ']⟩

/-- In the rounds, only process 1 reads, and it has room for all that it asks for. -/
theorem reads_rounds {n : ℕ} {e : Event β} (he : e ∈ rounds n) :
    ReadsOnly 0 e ∧ ∀ kiocb buf limit, e = .read 0 kiocb buf limit → buf.length ≤ limit := by
  induction n with
  | zero => cases he
  | succ n ih =>
    rcases List.mem_append.mp he with he | he
    · exact ih he
    · simp only [round, List.mem_append, List.mem_cons, List.mem_replicate] at he
      rcases he with ((rfl | ⟨-, rfl⟩) | (rfl | rfl | rfl | ⟨-, rfl⟩)) | (rfl | rfl | ⟨-, rfl⟩) <;>
        simp +contextual [ReadsOnly, eq_comm]

/-- All its destinations are accessible. -/
theorem accessible_rounds (n : ℕ) (kiocb : Kiocb) (buf : List β) (limit : ℕ)
    (h : .read 0 kiocb buf limit ∈ rounds n) : buf.length ≤ limit :=
  (reads_rounds h).2 kiocb buf limit rfl

/-- In the rounds, process 1 gets the first bytes of the stream. -/
theorem rounds_delivered (out : ℕ → Fin 4 → β) (n : ℕ) :
    ((init 0 : QrngSystem β ℕ).run (PRNG.rng out) (rounds n)).driver.deliveredBy 1 =
      (List.range (n * WRITE_SIZE)).map (PRNG.stream out) := by
  obtain ⟨hrest, hres⟩ := run_rounds out n
  obtain ⟨⟨w, -, -, hacc⟩, -⟩ := run_streaming out (rounds n)
  obtain ⟨m, happ, hm⟩ := run_offered out (rounds n)
  obtain ⟨q, hrep, hcons⟩ := (driver_run (PRNG.rng out) (0 : ℕ) (rounds n)).facts.1
  have hcopied := (run_hasCopied (PRNG.rng out) 0 (accessible_rounds n)).taken
  have halone : TakenAlone 0 ((init 0 : QrngSystem β ℕ).run (PRNG.rng out) (rounds n)) :=
    run_invariant (fun _ _ he h => h.step (PRNG.rng out) he) (fun _ he => (reads_rounds he).1)
      (takenAlone_init 0 0)
  -- Nothing is left in the ring, in the hand of the reader, or on offer.
  rw [← hrep.contents_eq, hrest.empty, List.append_nil] at hcons
  rw [Proc.held_of_free hrest.reader, List.append_nil, halone.takenBy] at hcopied
  have hm0 : m = 0 := hm.resolve_right fun hpc => by
    rw [hrest.pc] at hpc
    cases hpc
  rw [← hcopied, hcons, happ, hm0, List.take_zero, List.append_nil, hacc, hres,
    (Window.run_replicate _ _).1]

end QrngSystem

end QrngDevice
