import QrngDevice.Service.Origins

/-!
# The promises of a poll, and the service

The service writes only after a poll that has reported `POLLOUT`, and it is the only writer. So each of
its writes takes something, and its `ABORT_F` is never reached. The invariant of `SystemSpec.lean` says
this of the system on tagged bytes, where `PRNG` never fetches a byte twice, and without the tags it is
what the system itself does.
-/

namespace QrngDevice

open Runs Driver

variable {β : Type} [Zero β]

omit [Zero β] in
/-- A tagged process that has returned from a write. -/
theorem Proc.map_eq_returned_write {α : Type} {f : α → β} {P : Proc α} {ret : ℤ} {it : IovIter β} :
    P.map f = .returned (.write ret it) ↔
      ∃ it', P = .returned (.write ret it') ∧ it'.map f = it := by
  constructor
  · intro h
    rcases P with _ | _ | _ | _ | (_ | ⟨ret', it'⟩ | _) <;>
      simp only [Proc.map, Result.map, reduceCtorEq, Proc.returned.injEq, Result.write.injEq] at h
    exact ⟨it', by rw [h.1], h.2⟩
  · rintro ⟨it', rfl, rfl⟩
    rfl

namespace QrngSystem

variable (out : ℕ → Fin 4 → β)

/-- In every run of the service, its writes return values in `1..256`, it does not stop, and
`qrng_write_arr_renew` stays in `1..256`. -/
theorem run_writes (es : List (Event β)) :
    (∀ ret it, ((init 0 : QrngSystem β ℕ).run (PRNG.rng out) es).driver.procs SERVICE =
        .returned (.write ret it) → 1 ≤ ret ∧ ret ≤ WRITE_SIZE) ∧
      (∀ stop, ((init 0 : QrngSystem β ℕ).run (PRNG.rng out) es).pc ≠ .stopped stop) ∧
      1 ≤ ((init 0 : QrngSystem β ℕ).run (PRNG.rng out) es).service.qrngWriteArrRenew ∧
      ((init 0 : QrngSystem β ℕ).run (PRNG.rng out) es).service.qrngWriteArrRenew ≤ WRITE_SIZE := by
  have hinv := tagged_invariant out es
  obtain ⟨it, hbytes, -⟩ := hinv.account
  rw [← tagged_val]
  refine ⟨fun ret it hret => ?_, hinv.not_stopped, hinv.renew_pos, hbytes.renew_le⟩
  obtain ⟨it', hret', -⟩ := Proc.map_eq_returned_write.mp hret
  exact hinv.write_ret hret'

/-- Each of its writes returns. -/
theorem run_writes_return {es es' : List (Event β)}
    (hpc : ((init 0 : QrngSystem β ℕ).run (PRNG.rng out) es).pc = .written)
    (hes : ∀ e ∈ es', e ≠ .main) (hsteps : 6 * WRITE_SIZE + 4 ≤ es'.countP isService) :
    ∃ ret it, ((init 0 : QrngSystem β ℕ).run (PRNG.rng out) (es ++ es')).driver.procs SERVICE =
      .returned (.write ret it) := by
  -- On tagged bytes, the invariant holds, and the run of the tags is that of the bytes.
  rw [← tagged_val] at hpc
  have htags : ∀ e ∈ es'.map (Event.map Tagged.plain), e ≠ .main := by
    simp only [List.forall_mem_map]
    intro e he heq
    cases e <;> simp [Event.map] at heq
    exact hes _ he rfl
  have hcount : (es'.map (Event.map Tagged.plain)).countP isService = es'.countP isService := by
    rw [List.countP_map]
    refine List.countP_congr fun e _ => ?_
    cases e <;> simp [isService, Event.map]
  have hrun : tagged out (es ++ es') =
      (tagged out es).run (PRNG.rng (Tagged.out out)) (es'.map (Event.map Tagged.plain)) := by
    simp only [tagged, run, List.map_append, run_append]
  obtain ⟨ret, it, hret⟩ : ∃ ret it, ((tagged out es).run (PRNG.rng (Tagged.out out))
      (es'.map (Event.map Tagged.plain))).driver.procs SERVICE = .returned (.write ret it) :=
    (tagged_invariant out es).write_returns hpc htags (by rw [hcount]; exact hsteps)
  refine ⟨ret, it.map Tagged.val, ?_⟩
  rw [← tagged_val, hrun]
  exact Proc.map_eq_returned_write.mpr ⟨it, hret, rfl⟩

/-- When the service has found `POLLOUT`, its next two steps in its own code take it into a write. -/
theorem run_renew {es : List (Event β)}
    (hpc : ((init 0 : QrngSystem β ℕ).run (PRNG.rng out) es).pc = .renew) :
    ((init 0 : QrngSystem β ℕ).run (PRNG.rng out) (es ++ [.main, .main])).pc = .written := by
  have hnot := (run_writes out (es ++ [.main])).2.1
  simp only [run, run_append, run_cons, run_nil] at hnot hpc ⊢
  generalize Runs.run (step (PRNG.rng out)) (init 0) es = σ at hnot hpc
  simp only [step, label, main, hpc] at hnot ⊢
  cases hs : σ.service.prepare (PRNG.rng out) with
  | error stop =>
    simp only [hs] at hnot
    exact absurd rfl (hnot stop)
  | ok s => rfl

/-- The promises of a poll are kept, and the service therefore never aborts.

If a poll has reported `EPOLLOUT` to a process that was the only writer from the start of the poll on,
then after any further steps `ls₁`, its next write of `n > 0` readable bytes returns a value in `1..n`.
If a poll has reported `POLLIN` to a process that was the only reader, then after any further steps
`ls₁`, its next read, if it is a non-blocking one of `n > 0` bytes into an accessible destination,
returns a value in `1..n`. In every run of the service as the only writer, every write returns, with a
value in `1..256`, the service does not stop, and `qrng_write_arr_renew` stays in `1..256`. -/
theorem poll_promises :
    (∀ (p : Pid) (ls ls₁ ls₂ : List (Label β)) (revents : PollMask) (buf : List β) (limit : ℕ),
        Polled Side.out p ls revents → revents.epollout = true →
        (∀ l ∈ ls₁, l.Avoids Side.out) →
        (((Driver.init : Driver β).run (ls ++ ls₁)).procs p).free = true →
        buf ≠ [] → buf.length ≤ limit → (∀ l ∈ ls₂, l.KeepsCall p ∧ l.Leaves Side.out p) →
        6 * buf.length + 4 ≤ ls₂.countP (Label.isSched p) →
        ∃ ret it, ((enter (ls ++ ls₁) p (.write buf limit)).run ls₂).procs p =
          .returned (.write ret it) ∧ 1 ≤ ret ∧ ret ≤ buf.length) ∧
      (∀ (p : Pid) (ls ls₁ ls₂ : List (Label β)) (revents : PollMask) (kiocb : Kiocb) (buf : List β)
          (limit : ℕ),
        Polled Side.inn p ls revents → revents.pollin = true →
        (∀ l ∈ ls₁, l.Avoids Side.inn) →
        (((Driver.init : Driver β).run (ls ++ ls₁)).procs p).free = true →
        kiocb.nonblocking = true → buf ≠ [] → buf.length ≤ limit →
        (∀ l ∈ ls₂, l.KeepsCall p ∧ l.Leaves Side.inn p) →
        6 * buf.length + 8 ≤ ls₂.countP (Label.isSched p) →
        ∃ ret it, ((enter (ls ++ ls₁) p (.read kiocb buf limit)).run ls₂).procs p =
          .returned (.read ret it) ∧ 1 ≤ ret ∧ ret ≤ buf.length) ∧
      (∀ es : List (Event β),
        (∀ ret it, ((init 0 : QrngSystem β ℕ).run (PRNG.rng out) es).driver.procs SERVICE =
            .returned (.write ret it) → 1 ≤ ret ∧ ret ≤ WRITE_SIZE) ∧
          (∀ stop, ((init 0 : QrngSystem β ℕ).run (PRNG.rng out) es).pc ≠ .stopped stop) ∧
          1 ≤ ((init 0 : QrngSystem β ℕ).run (PRNG.rng out) es).service.qrngWriteArrRenew ∧
          ((init 0 : QrngSystem β ℕ).run (PRNG.rng out) es).service.qrngWriteArrRenew ≤ WRITE_SIZE) ∧
      ∀ es es' : List (Event β), ((init 0 : QrngSystem β ℕ).run (PRNG.rng out) es).pc = .written →
        (∀ e ∈ es', e ≠ .main) → 6 * WRITE_SIZE + 4 ≤ es'.countP isService →
        ∃ ret it, ((init 0 : QrngSystem β ℕ).run (PRNG.rng out) (es ++ es')).driver.procs SERVICE =
          .returned (.write ret it) := by
  refine ⟨?_, ?_, run_writes out, ?_⟩
  · intro p ls ls₁ ls₂ revents buf limit hpolled hout hls₁ hfree hbuf hlimit hls₂ hsteps
    exact write_after_poll hpolled hout hls₁ hfree hbuf hlimit hls₂ hsteps
  · intro p ls ls₁ ls₂ revents kiocb buf limit hpolled hin hls₁ hfree hnb hbuf hlimit hls₂ hsteps
    exact read_after_poll hpolled hin hls₁ hfree hnb hbuf hlimit hls₂ hsteps
  · intro es es' hpc hes hsteps
    exact run_writes_return out hpc hes hsteps

/-- Process `p` polls for `events`. -/
def pollOnce (p : Pid) (events : PollMask) : List (Label UInt8) :=
  .call p (.poll events) :: List.replicate 5 (.sched p)

/-- The service polls. -/
def firstPoll : List (Event UInt8) := .main :: List.replicate 5 (.sched SERVICE) ++ [.main]

/-- The service has found `POLLOUT` then. -/
theorem firstPoll_pc (out : ℕ → Fin 4 → UInt8) :
    ((init 0 : QrngSystem UInt8 ℕ).run (PRNG.rng out) firstPoll).pc = .renew := by
  have hproc : ((Driver.init : Driver UInt8).run (pollOnce SERVICE POLLOUT)).procs SERVICE =
      .returned (.poll (some POLLOUT)) := rfl
  simp only [pollOnce, run_cons] at hproc
  simp only [firstPoll, run, run_append, run_cons, run_nil]
  rw [run_sched]
  simp only [step, label, main, init, hproc]
  rfl

/-- The theorem for a write into the empty ring, a read from a ring that holds one byte, and the first
write of the service. The ring got its byte from another process. -/
theorem poll_promises_one_byte :
    (∃ ret it, ((enter (pollOnce 1 POLLOUT ++ [.call 2 (.read ⟨false, false, false⟩ [0] 1)]) 1
        (.write [(7 : UInt8)] 1)).run (List.replicate 10 (.sched 1))).procs 1 =
          .returned (.write ret it) ∧ 1 ≤ ret ∧ ret ≤ [(7 : UInt8)].length) ∧
      (∃ ret it, ((enter (oneByte ++ pollOnce 1 ⟨false, true, true⟩ ++ [.sched 0]) 1
        (.read ⟨false, false, true⟩ [(0 : UInt8)] 1)).run (List.replicate 14 (.sched 1))).procs 1 =
          .returned (.read ret it) ∧ 1 ≤ ret ∧ ret ≤ [(0 : UInt8)].length) ∧
      ∃ ret it, ((init 0 : QrngSystem UInt8 ℕ).run (PRNG.rng fun _ _ => 0)
        (firstPoll ++ [.main, .main] ++
          List.replicate (6 * WRITE_SIZE + 4) (.sched SERVICE))).driver.procs SERVICE =
          .returned (.write ret it) := by
  -- Process 1 polls the empty ring for `POLLOUT`, and later one with a byte for `POLLIN`.
  have hout : Polled Side.out 1 (pollOnce 1 POLLOUT) POLLOUT :=
    ⟨[], POLLOUT, List.replicate 5 (.sched 1), rfl, rfl, fun _ _ => rfl, by simp [Label.Leaves], rfl⟩
  have hin : Polled Side.inn 1 (oneByte ++ pollOnce 1 ⟨false, true, true⟩) ⟨false, true, true⟩ := by
    refine ⟨oneByte, _, List.replicate 5 (.sched 1), rfl, rfl, ?_, by simp [Label.Leaves], rfl⟩
    exact run_invariant (A := Label.Leaves Side.inn 1) (fun _ _ hl h => h.step Side.inn_lawful hl)
      (by simp [oneByte, Label.Leaves, Side.inn, Proc.start, Proc.isRead]) fun _ _ => rfl
  obtain ⟨hwrite, hread, -, hreturns⟩ := poll_promises fun _ _ => (0 : UInt8)
  refine ⟨hwrite 1 _ _ _ POLLOUT _ 1 hout rfl ?_ rfl (by simp) le_rfl ?_ (by decide),
    hread 1 _ _ _ ⟨false, true, true⟩ _ _ 1 hin rfl ?_ rfl rfl (by simp) le_rfl ?_ (by decide),
    hreturns _ _ (run_renew _ (firstPoll_pc _)) ?_ ?_⟩
  · simp [Label.Avoids, Side.out, Proc.start, Proc.isWrite]
  · simp [Label.KeepsCall, Label.Leaves]
  · simp [Label.Avoids]
  · simp [Label.KeepsCall, Label.Leaves]
  · intro e he heq
    rw [List.eq_of_mem_replicate he] at heq
    cases heq
  · rw [List.countP_replicate]
    exact (if_pos rfl).ge

end QrngSystem

end QrngDevice
