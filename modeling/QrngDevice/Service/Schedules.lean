import QrngDevice.Driver.Copied
import QrngDevice.Driver.Progress
import QrngDevice.Service.Origins

/-!
# Schedules of the whole system

An infinite schedule of the system lets the service, the other processes, and the signals take their
turns. The driver goes through its own part of it (`after_driver`), so that what holds under every fair
schedule of the driver holds here (`leadsTo_driver`). The system on tagged bytes goes through the same
states as the system on bytes (`after_tagged`). A process that alone reads takes all bytes that are taken
(`TakenAlone`), and copies them if its destinations are accessible (`run_hasCopied`).
-/

namespace QrngDevice

open Runs RingBuffer

/-- The contents of a ring with the images of its bytes. -/
theorem RingBuffer.contents_map {α β : Type*} (f : α → β) (r : RingBuffer α) :
    (r.map f).contents = r.contents.map f := by
  have hslot : (r.map f).slot = fun i => (r.slot i).map f := by
    funext i
    simp only [slot]
    split_ifs <;> rfl
  unfold contents
  rw [hslot]
  exact CyclicBuffer.contents_map f _ _ _

variable {β G : Type} [Zero β]

namespace QrngSystem

/-! ## The driver's part of a schedule -/

section

omit [Zero β]

/-- The event is a step of the service in its own code. -/
def isMain : Event β → Bool
  | .main => true
  | _ => false

/-- The event is a step of process `p` in the driver. -/
def isSched (p : Pid) : Event β → Bool
  | .sched q => q = p
  | _ => false

/-- The schedule lets the service and every process make its next step again and again. -/
structure FairToAll (sched : ℕ → Event β) : Prop where
  /-- The service, in its own code. -/
  main : Fair isMain sched
  /-- Every process, in the driver. -/
  sched : ∀ p, Fair (isSched p) sched

/-- What an event is for the driver. -/
def driverLabel (σ : QrngSystem β G) : Event β → Option (Label β)
  | .main =>
    match σ.pc with
    | .poll => some (.call SERVICE (.poll POLLOUT))
    | .write => some (.call SERVICE (.write σ.service.qrngWriteArr WRITE_SIZE))
    | _ => none
  | e => label e

end

variable {rng : RNG β G} {σ : QrngSystem β G}

/-- The driver's part of an event. -/
theorem step_driver (rng : RNG β G) (σ : QrngSystem β G) (e : Event β) :
    (σ.step rng e).driver = σ.driver.tick (σ.driverLabel e) := by
  cases e with
  | main =>
    simp only [step, label, main, driverLabel]
    cases hpc : σ.pc with
    | poll => rfl
    | polled => simp only; split <;> rfl
    | renew => simp only; split <;> rfl
    | write => rfl
    | written => simp only; split <;> [(split <;> rfl); rfl]
    | stopped stop => rfl
  | _ => rfl

/-- An event that is no step of the service in its own code leaves its variables alone. -/
theorem step_of_not_isMain (rng : RNG β G) (σ : QrngSystem β G) {e : Event β}
    (he : isMain e = false) :
    ∃ l, label e = some l ∧ σ.step rng e = { σ with driver := σ.driver.step l } := by
  cases e with
  | main => cases he
  | _ => exact ⟨_, rfl, rfl⟩

/-- The driver's part of a schedule. -/
def driverSched (rng : RNG β G) (g : G) (sched : ℕ → Event β) (n : ℕ) : Option (Label β) :=
  (after (step rng) (init g) sched n).driverLabel (sched n)

/-- The driver goes through its part of the schedule. -/
theorem after_driver (rng : RNG β G) (g : G) (sched : ℕ → Event β) (n : ℕ) :
    (after (step rng) (init g) sched n).driver =
      after Driver.tick Driver.init (driverSched rng g sched) n :=
  after_labels (step_driver rng) (init g) sched n

/-- The driver's part of a fair schedule is fair. -/
theorem driverSched_fair (rng : RNG β G) (g : G) {sched : ℕ → Event β} (hfair : FairToAll sched)
    (p : Pid) : Fair (Driver.ofProc p) (driverSched rng g sched) := by
  intro n
  obtain ⟨m, hnm, hm⟩ := hfair.sched p n
  refine ⟨m, hnm, Driver.ofProc_iff.mpr ?_⟩
  unfold driverSched
  cases he : sched m with
  | sched q =>
    simp only [he, isSched, decide_eq_true_eq] at hm
    rw [← hm]
    rfl
  | _ => simp [he, isSched] at hm

/-- What the driver's part of a schedule leads to is what the schedule leads to for the driver. -/
theorem leadsTo_driver {g : G} {sched : ℕ → Event β} {P Q : Driver β → Prop} :
    LeadsTo (after (step rng) (init g) sched) (fun σ => P σ.driver) (fun σ => Q σ.driver) ↔
      LeadsTo (after Driver.tick Driver.init (driverSched rng g sched)) P Q := by
  unfold LeadsTo
  simp only [after_driver]

/-- The events `es`, and then steps of the service and of all processes, each again and again. -/
def thenAll (es : List (Event β)) (n : ℕ) : Event β :=
  es.getD n (if n.unpair.1 = 0 then .main else .sched (n.unpair.1 - 1))

omit [Zero β] in
/-- This schedule is fair to everyone. -/
theorem thenAll_fair (es : List (Event β)) : FairToAll (thenAll es) := by
  -- Beyond `es`, the number `Nat.pair k m` belongs to the service for `k = 0`, and else to `k - 1`.
  have hlate : ∀ k n, n ≤ Nat.pair k (n + es.length) ∧ es.length ≤ Nat.pair k (n + es.length) :=
    fun k n => ⟨(Nat.le_add_right _ _).trans (Nat.right_le_pair _ _),
      (Nat.le_add_left _ _).trans (Nat.right_le_pair _ _)⟩
  refine ⟨fun n => ⟨Nat.pair 0 (n + es.length), (hlate 0 n).1, ?_⟩,
    fun p n => ⟨Nat.pair (p + 1) (n + es.length), (hlate (p + 1) n).1, ?_⟩⟩
  · simp [thenAll, List.getElem?_eq_none (hlate 0 n).2, isMain]
  · simp [thenAll, List.getElem?_eq_none (hlate (p + 1) n).2, isSched]

/-! ## Tags -/

/-- A schedule of the system on tagged bytes is one of the system on bytes. -/
theorem after_tagged (out : ℕ → Fin 4 → β) (sched : ℕ → Event β) (n : ℕ) :
    (after (step (PRNG.rng (Tagged.out out))) (init 0)
        (fun n => (sched n).map Tagged.plain) n).map Tagged.val =
      after (step (PRNG.rng out)) (init 0) sched n := by
  have hzero : (0 : Tagged β).val = 0 := rfl
  induction n with
  | zero => exact map_init hzero 0
  | succ n ih =>
    have hevent : ((sched n).map Tagged.plain).map Tagged.val = sched n := by
      cases sched n <;> simp [Event.map, Tagged.plain, Function.comp_def]
    have hstep := step_map hzero (PRNG.maps_rng Tagged.val (Tagged.out out))
      (after (step (PRNG.rng (Tagged.out out))) (init 0) (fun n => (sched n).map Tagged.plain) n)
      ((sched n).map Tagged.plain)
    rw [ih, hevent] at hstep
    rw [after_succ, after_succ]
    exact hstep.symm

omit [Zero β] in
/-- It is as fair. -/
theorem FairToAll.tagged {sched : ℕ → Event β} (hfair : FairToAll sched) :
    FairToAll fun n => (sched n).map Tagged.plain where
  main n := by
    obtain ⟨m, hnm, hm⟩ := hfair.main n
    refine ⟨m, hnm, ?_⟩
    cases he : sched m <;> simp_all [isMain, Event.map]
  sched p n := by
    obtain ⟨m, hnm, hm⟩ := hfair.sched p n
    refine ⟨m, hnm, ?_⟩
    cases he : sched m <;> simp_all [isSched, Event.map]

/-! ## A single reader -/

omit [Zero β] in
/-- The event lets no process but `p + 1` enter a read. -/
def ReadsOnly (p : ℕ) (e : Event β) : Prop :=
  ∀ q kiocb buf limit, e = .read q kiocb buf limit → q = p

/-- No process but `p + 1` is in a read, and all bytes were taken by it. -/
structure TakenAlone (p : ℕ) (σ : QrngSystem β G) : Prop where
  /-- No other process is in a read. -/
  alone : Driver.Alone Side.inn (p + 1) σ.driver
  /-- No other process has taken a byte. -/
  taken : ∀ e ∈ σ.driver.taken, e.1 = p + 1

omit [Zero β] in
/-- The bytes taken are those of the process. -/
theorem TakenAlone.takenBy {p : ℕ} (h : TakenAlone p σ) :
    σ.driver.takenBy (p + 1) = σ.driver.taken.map Prod.snd := by
  rw [Driver.takenBy, List.filter_eq_self.mpr fun e he => decide_eq_true (h.taken e he)]

/-- The system starts so. -/
theorem takenAlone_init (p : ℕ) (g : G) : TakenAlone p (init g : QrngSystem β G) where
  alone _ _ := rfl
  taken := by simp [init, Driver.init]

/-- It stays so while no other process enters a read. -/
theorem TakenAlone.step {p : ℕ} (h : TakenAlone p σ) (rng : RNG β G) {e : Event β}
    (he : ReadsOnly p e) : TakenAlone p (σ.step rng e) := by
  obtain ⟨halone, htaken⟩ := h
  suffices hall : Driver.Alone Side.inn (p + 1) (σ.step rng e).driver ∧
      ∀ d ∈ (σ.step rng e).driver.taken, d.1 = p + 1 from ⟨hall.1, hall.2⟩
  rw [step_driver]
  cases hl : σ.driverLabel e with
  | none => exact ⟨halone, htaken⟩
  | some l =>
    have hleaves : l.Leaves Side.inn (p + 1) := by
      cases e with
      | main =>
        simp only [driverLabel] at hl
        split at hl <;> simp only [Option.some.injEq, reduceCtorEq] at hl <;> subst hl
        · exact Or.inr rfl
        · exact Or.inr rfl
      | read q kiocb buf limit =>
        obtain rfl := he q kiocb buf limit rfl
        obtain rfl : .call (q + 1) (.read kiocb buf limit) = l := by
          simpa [driverLabel, label] using hl
        exact Or.inl rfl
      | poll q events =>
        obtain rfl : .call (q + 1) (.poll events) = l := by simpa [driverLabel, label] using hl
        exact Or.inr rfl
      | sched q =>
        obtain rfl : .sched q = l := by simpa [driverLabel, label] using hl
        trivial
      | signal q =>
        obtain rfl : .signal q = l := by simpa [driverLabel, label] using hl
        trivial
    refine ⟨halone.step Side.inn_lawful hleaves, ?_⟩
    cases l with
    | call q c =>
      simp only [Driver.tick, Driver.step]
      split_ifs <;> exact htaken
    | signal q => exact htaken
    | sched q =>
      intro d hd
      rcases List.mem_append.mp hd with hd | hd
      · exact htaken d hd
      · by_cases hq : q = p + 1
        · obtain ⟨b, -, rfl⟩ := List.mem_map.mp hd
          exact hq
        · have hread := halone q hq
          rw [Proc.taken_of_not_read σ.driver.ring fun c pc heq => by
            rw [heq] at hread; cases hread] at hd
          simp at hd

/-- What a reader has taken, it has copied, in a system whose run gives it accessible destinations. -/
theorem run_hasCopied (rng : RNG β G) (g : G) {p : ℕ} {es : List (Event β)}
    (hes : ∀ kiocb buf limit, .read p kiocb buf limit ∈ es → buf.length ≤ limit) :
    ((init g : QrngSystem β G).run rng es).driver.HasCopied (p + 1) := by
  refine run_invariant (P := fun σ : QrngSystem β G => σ.driver.HasCopied (p + 1))
    (A := fun e => ∀ kiocb buf limit, e = .read p kiocb buf limit → buf.length ≤ limit)
    (fun σ e he h => ?_) (fun e he kiocb buf limit heq => hes kiocb buf limit (heq ▸ he))
    ⟨trivial, rfl⟩
  rw [step_driver]
  cases hl : σ.driverLabel e with
  | none => exact h
  | some l =>
    refine h.step fun kiocb buf limit heq => ?_
    subst heq
    cases e with
    | main =>
      simp only [driverLabel] at hl
      split at hl <;> simp at hl
    | read q kiocb' buf' limit' =>
      simp only [driverLabel, label, Option.some.injEq, Label.call.injEq, Call.read.injEq] at hl
      obtain ⟨hq, rfl, rfl, rfl⟩ := hl
      obtain rfl : q = p := Nat.succ_injective hq
      exact he _ _ _ rfl
    | _ => simp [driverLabel, label] at hl

end QrngSystem

end QrngDevice
