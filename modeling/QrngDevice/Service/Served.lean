import QrngDevice.Service.Refill

/-!
# Readers are served

With the service at work, what `Driver/Progress.lean` says of a ring that is not empty holds of every
ring. A blocking read returns, with all the bytes that it asks for unless it gets a signal
(`blocking_read_served`), as long as others do not take bytes without bound.
-/

namespace QrngDevice

open Runs RingBuffer

/-! ## The result of a blocking read -/

section

variable {β : Type*} [Zero β] {buf : List β} {limit : ℕ} {P : Proc β} {xs : List β}

omit [Zero β] in
/-- A blocking read into an accessible destination that has returned has filled it with what it has
taken, or was interrupted before. -/
theorem ReadPhase.blocking_result (h : ReadPhase false buf limit P xs) (hfree : P.free = true)
    (hlimit : buf.length ≤ limit) : ∃ v it, P = .returned (.read v it) ∧
      (v = buf.length ∧ it.buf = xs ∧ xs.length = buf.length ∨
        v = -ERESTARTSYS ∧ xs.length < buf.length) := by
  cases h with
  | again hnb hit hxs => cases hnb
  | short hnb hit hlt => cases hnb
  | @full it _ hit hoff =>
    have hlen := (hit.take_eq hlimit).1
    have hbuf : it.buf = xs := by
      rw [hit.buf_eq, hoff, List.drop_length, List.append_nil, List.take_of_length_le (by omega)]
    exact ⟨_, it, rfl, Or.inl ⟨by rw [hoff], hbuf, by omega⟩⟩
  | @interrupted it _ hnb hit hlt =>
    rw [(hit.take_eq hlimit).1] at hlt
    exact ⟨_, it, rfl, Or.inr ⟨rfl, hlt⟩⟩
  | _ => cases hfree

omit [Zero β] in
/-- If the process is in a read, no signal is pending, and if it has returned from one, it was not
interrupted. -/
def Proc.Unsignalled : Proc β → Prop
  | .read c _ => c.sig = false
  | .returned (.read v _) => v ≠ -ERESTARTSYS
  | _ => True

/-- A step of a read without a pending signal. -/
theorem ReadCall.step_unsignalled {c : ReadCall β} (h : c.sig = false) (r : RingBuffer β)
    (pc : ReadPc β) : (c.step r pc).proc.Unsignalled := by
  have hloop : ∀ c' : ReadCall β, c'.sig = false → c'.loop.Unsignalled := by
    intro c' h'
    unfold ReadCall.loop
    split_ifs
    · exact h'
    · simp only [Proc.Unsignalled, ERESTARTSYS]
      omega
    · simp only [Proc.Unsignalled, ERESTARTSYS, EFAULT]
      omega
  cases pc with
  | testFlag k =>
    simp only [ReadCall.step]
    split_ifs
    · simp only [Proc.Unsignalled, ERESTARTSYS, EAGAIN]
      omega
    · simp only [Proc.Unsignalled, ERESTARTSYS]
      omega
    · exact hloop c h
  | take =>
    simp only [ReadCall.step]
    cases r.getRandomByte with
    | none =>
      simp only
      split_ifs
      · simp only [Proc.Unsignalled, ERESTARTSYS]
        omega
      · exact h
    | some br => exact h
  | copy b => exact hloop _ h
  | waitFlag woken k =>
    simp only [ReadCall.step, h, Bool.false_eq_true, if_false]
    split_ifs
    · exact hloop c h
    · exact h
    · exact h
  | _ => exact h

/-- A step of any process. -/
theorem Proc.Unsignalled.step (h : P.Unsignalled) (r : RingBuffer β) :
    (P.step r).proc.Unsignalled := by
  rcases P with _ | ⟨c, pc⟩ | ⟨c, pc⟩ | ⟨c, pc⟩ | res
  · exact h
  · exact ReadCall.step_unsignalled h r pc
  · rcases (c.step_proc r pc).1 with ⟨c', pc', heq⟩ | ⟨v, it, heq⟩
    · simp [Proc.step, heq, Proc.Unsignalled]
    · simp [Proc.step, heq, Proc.Unsignalled]
  · rcases (c.step_proc r pc).1 with ⟨c', pc', heq⟩ | ⟨e, heq⟩
    · simp [Proc.step, heq, Proc.Unsignalled]
    · simp [Proc.step, heq, Proc.Unsignalled]
  · exact h

omit [Zero β] in
/-- Wake-ups bring no signal. -/
theorem Proc.Unsignalled.woken (h : P.Unsignalled) (wr wp : Bool) : (P.woken wr wp).Unsignalled := by
  rcases P with _ | ⟨c, pc⟩ | ⟨c, pc⟩ | ⟨c, pc⟩ | res
  · cases wr <;> cases wp <;> exact h
  · cases wr <;> cases wp <;> cases pc <;> exact h
  · cases wr <;> cases wp <;> exact h
  · cases wr <;> cases wp <;> cases pc <;> trivial
  · cases wr <;> cases wp <;> exact h

/-- Only a signal to the process itself changes this. -/
theorem Driver.unsignalled_step {σ : Driver β} {p : Pid} (h : (σ.procs p).Unsignalled) {l : Label β}
    (hl : l ≠ .signal p) : ((σ.step l).procs p).Unsignalled := by
  by_cases hkeep : l.KeepsCall p
  · by_cases hown : l = .sched p
    · subst hown
      rw [Driver.step, Driver.sched_procs_self]
      exact h.step _
    · obtain ⟨wr, wp, heq⟩ := Driver.step_woken σ hkeep hown hl
      rw [heq]
      exact h.woken wr wp
  · cases l with
    | call q c =>
      obtain rfl : q = p := not_not.mp hkeep
      simp only [Driver.step]
      split_ifs
      · cases c <;> simp [Proc.start, Proc.Unsignalled]
      · exact h
    | sched q => exact absurd trivial hkeep
    | signal q => exact absurd trivial hkeep

end

namespace QrngSystem

variable {β : Type} [Zero β] {out : ℕ → Fin 4 → β} {sched : ℕ → Event β}

/-! ## Reads -/

/-- Only a signal to a process itself brings it one. -/
theorem unsignalled_step {G : Type} (rng : RNG β G) {σ : QrngSystem β G} {p : Pid}
    (h : (σ.driver.procs p).Unsignalled) {e : Event β} (he : e ≠ .signal p) :
    ((σ.step rng e).driver.procs p).Unsignalled := by
  rw [step_driver]
  cases hl : σ.driverLabel e with
  | none => exact h
  | some l =>
    refine Driver.unsignalled_step h ?_
    rintro rfl
    cases e with
    | signal q =>
      obtain rfl : q = p := by simpa [driverLabel, label] using hl
      exact he rfl
    | main =>
      simp only [driverLabel] at hl
      split at hl <;> simp at hl
    | _ => simp [driverLabel, label] at hl

/-- A process that has not been signalled from one point of a schedule to another. -/
theorem unsignalled_of_le {G : Type} (rng : RNG β G) (σ : QrngSystem β G) {p n m : ℕ} (hnm : n ≤ m)
    (h : ((after (step rng) σ sched n).driver.procs (p + 1)).Unsignalled)
    (hsig : ∀ i, n ≤ i → i < m → sched i ≠ .signal (p + 1)) :
    ((after (step rng) σ sched m).driver.procs (p + 1)).Unsignalled := by
  induction m, hnm using Nat.le_induction with
  | base => exact h
  | succ m hnm ih =>
    rw [after_succ]
    exact unsignalled_step rng (ih fun i hni him => hsig i hni (by omega)) (hsig m hnm (by omega))

/-- The service feeds the driver. -/
theorem driver_fed (out : ℕ → Fin 4 → β) (hfair : FairToAll sched) (N : ℕ) :
    LeadsTo (after Driver.tick Driver.init (driverSched (PRNG.rng out) 0 sched))
      (fun σ => σ.ring.contents = [] ∧ σ.appended.length = N) (fun σ => N < σ.appended.length) := by
  refine leadsTo_driver.mp ((appended_grows out hfair N).mono ?_ fun _ h => h)
  rintro σ ⟨hempty, hcount⟩
  refine ⟨?_, hcount⟩
  simp [hempty]

/-- What `Driver.fed_read_returns` says of a driver that is fed, here. -/
theorem read_returns (out : ℕ → Fin 4 → β) (hfair : FairToAll sched) {p : Pid} (nb : Bool)
    {buf : List β} {limit : ℕ} (hlimit : buf.length ≤ limit) {B : ℕ}
    (hothers : ∀ n, (after (step (PRNG.rng out)) (init 0) sched n).driver.taken.length ≤
      ((after (step (PRNG.rng out)) (init 0) sched n).driver.takenBy p).length + B) (σ₀ : Driver β) :
    LeadsTo (after (step (PRNG.rng out)) (init 0) sched)
      (fun σ => Driver.InCall (fun P xs _ => ReadPhase nb buf limit P xs) p σ₀ σ.driver)
      (fun σ => Driver.InCall (fun P xs _ => ReadPhase nb buf limit P xs) p σ₀ σ.driver ∧
        (σ.driver.procs p).free = true) :=
  leadsTo_driver.mpr (Driver.fed_read_returns (driverSched_fair (PRNG.rng out) 0 hfair)
    (driver_fed out hfair) hlimit (fun m => by rw [← after_driver]; exact hothers m) σ₀)

/-- A blocking read is served. Under a schedule that lets the service and every process make its next
step again and again, let process `p + 1` enter a blocking read of `n` bytes into an accessible
destination, and let all others take at most `B` bytes over the whole run. Then the read returns. It
returns `n`, with the next `n` bytes that the process has taken from the ring in its destination, or it
returns `-ERESTARTSYS`, and has got a signal. -/
theorem blocking_read_served (out : ℕ → Fin 4 → β) (hfair : FairToAll sched) {p n B : ℕ}
    {kiocb : Kiocb} {buf : List β} {limit : ℕ} (hnb : kiocb.nonblocking = false)
    (hlimit : buf.length ≤ limit) (hcall : sched n = .read p kiocb buf limit)
    (hfree : ((after (step (PRNG.rng out)) (init 0) sched n).driver.procs (p + 1)).free = true)
    (hothers : ∀ m, (after (step (PRNG.rng out)) (init 0) sched m).driver.taken.length ≤
      ((after (step (PRNG.rng out)) (init 0) sched m).driver.takenBy (p + 1)).length + B) :
    ∃ m, n < m ∧ ∃ ret it,
      (after (step (PRNG.rng out)) (init 0) sched m).driver.procs (p + 1) =
        .returned (.read ret it) ∧
      (ret = buf.length ∧ it.buf.length = buf.length ∧
          (after (step (PRNG.rng out)) (init 0) sched m).driver.takenBy (p + 1) =
            (after (step (PRNG.rng out)) (init 0) sched n).driver.takenBy (p + 1) ++ it.buf ∨
        ret = -ERESTARTSYS ∧ ∃ i, n < i ∧ i < m ∧ sched i = .signal (p + 1)) := by
  have hafter := after_driver (PRNG.rng out) 0 sched
  have hacc := Driver.after_tick (P := Driver.Accounted) (fun σ l h => h.step l)
    (Driver.run_accounted []) (driverSched (PRNG.rng out) 0 sched)
  simp only [← hafter] at hacc
  -- The process enters its read.
  have hstep : (after (step (PRNG.rng out)) (init 0) sched (n + 1)).driver =
      (after (step (PRNG.rng out)) (init 0) sched n).driver.step
        (.call (p + 1) (.read kiocb buf limit)) := by
    rw [after_succ, hcall]
    rfl
  have hproc : (after (step (PRNG.rng out)) (init 0) sched (n + 1)).driver.procs (p + 1) =
      .start (.read kiocb buf limit) := by
    rw [hstep]
    simp [Driver.step, hfree]
  have henter : Driver.InCall (fun P xs _ => ReadPhase false buf limit P xs) (p + 1)
      (after (step (PRNG.rng out)) (init 0) sched n).driver
      (after (step (PRNG.rng out)) (init 0) sched (n + 1)).driver := by
    have hrecords := Driver.step_records (after (step (PRNG.rng out)) (init 0) sched n).driver
      (p := p + 1) (l := .call (p + 1) (.read kiocb buf limit)) (by simp)
    rw [← hstep] at hrecords
    refine ⟨hacc _, [], [], ?_, by rw [hrecords.1, List.append_nil],
      by rw [hrecords.2.1, List.append_nil]⟩
    rw [hproc, ← hnb]
    exact .entry kiocb buf limit
  obtain ⟨m, hnm, hin, hdone⟩ := read_returns out hfair false hlimit hothers _ (n + 1) henter
  obtain ⟨xs, -, hphase, htaken, -⟩ := hin.phase
  obtain ⟨v, it, hret, hresult⟩ := hphase.blocking_result hdone hlimit
  refine ⟨m, by omega, v, it, hret, ?_⟩
  rcases hresult with ⟨hv, hbuf, hlen⟩ | ⟨hv, -⟩
  · exact Or.inl ⟨hv, by rw [hbuf, hlen], by rw [htaken, hbuf]⟩
  · -- Without a signal, the read would not have been interrupted.
    refine Or.inr ⟨hv, ?_⟩
    by_contra hnone
    push Not at hnone
    have hsig := unsignalled_of_le (PRNG.rng out) (init 0) hnm
      (by rw [hproc]; rfl) fun i hni him => hnone i (by omega) him
    rw [hret] at hsig
    exact hsig hv

/-! ## An example -/

/-- A process that blocks in a read of one byte before the service has made a step. -/
def firstRead : List (Event UInt8) := [.read 0 ⟨false, false, false⟩ [0] 1]

/-- Nobody else reads. -/
theorem firstRead_alone (n : ℕ) : ReadsOnly 0 (thenAll firstRead n) := by
  intro q kiocb buf limit h
  cases n with
  | zero =>
    have hq : (0 : ℕ) = q := by
      simp only [thenAll, firstRead, List.getD_cons_zero, Event.read.injEq] at h
      exact h.1
    exact hq.symm
  | succ n =>
    simp only [thenAll, firstRead, List.getD_cons_succ, List.getD_nil] at h
    split_ifs at h

/-- The theorem for that read. -/
theorem blocking_read_served_first : ∃ m, 0 < m ∧ ∃ ret it,
    (after (step (PRNG.rng fun _ _ => (0 : UInt8))) (init 0) (thenAll firstRead) m).driver.procs 1 =
      .returned (.read ret it) ∧
    (ret = [(0 : UInt8)].length ∧ it.buf.length = [(0 : UInt8)].length ∧
        (after (step (PRNG.rng fun _ _ => (0 : UInt8))) (init 0)
            (thenAll firstRead) m).driver.takenBy 1 =
          (after (step (PRNG.rng fun _ _ => (0 : UInt8))) (init 0)
            (thenAll firstRead) 0).driver.takenBy 1 ++ it.buf ∨
      ret = -ERESTARTSYS ∧ ∃ i, 0 < i ∧ i < m ∧ thenAll firstRead i = .signal 1) := by
  refine blocking_read_served _ (thenAll_fair firstRead) (p := 0) (n := 0) (B := 0)
    (show Kiocb.nonblocking ⟨false, false, false⟩ = false from rfl) le_rfl rfl rfl fun m => ?_
  have halone : TakenAlone 0 (after _ (init 0) (thenAll firstRead) m) :=
    after_invariant (fun _ _ he h => h.step (PRNG.rng fun _ _ => (0 : UInt8)) he) firstRead_alone
      (takenAlone_init 0 0) m
  rw [halone.takenBy, List.length_map, Nat.add_zero]

end QrngSystem

end QrngDevice
