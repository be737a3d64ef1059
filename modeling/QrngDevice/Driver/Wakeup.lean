import QrngDevice.Lib.WaitQueue
import QrngDevice.Driver.Steps

/-!
# No wake-up is lost

A blocked reader sleeps on `read_queue` and a poller on `poll_queue`. Both evaluate their tests
without the mutex, in two loads, and a consumer wakes up `read_queue` only if such a test succeeds
after it has dropped the mutex. `no_lost_wakeup_readers` and `no_lost_wakeup_pollers` show that
nobody is left asleep for good: while a sleeper's condition holds, some process has completed a take
or an append and is still on its way through its wake-up code.

Each is an invariant `WaitQueue.Covered`, with its own account of who is at risk and who owes the
wake-up. A process whose test has loaded a cursor that is no longer current is at risk, since the
flag that it will load says nothing about the condition. A consumer between the two loads of its
test owes the wake-up to `read_queue` only while the cursor that it loaded is the current one: when
another consumer moves the cursor on, that one owes the wake-up instead.
-/

namespace QrngDevice

open WaitQueue

variable {β : Type*}

/-! ## Who sleeps and who owes -/

/-- The process has completed a take or an append and has not finished its wake-up code. -/
def Proc.OwesWakeUp : Proc β → Prop
  | .read _ (.wakePoll _) => True
  | .read _ (.wakeCursor _) => True
  | .read _ (.wakeFlag _ _) => True
  | .read _ (.wakeRead _) => True
  | .write _ (.wakeRead _) => True
  | .write _ (.wakePoll _) => True
  | _ => False

/-- The process sleeps on `read_queue`, or will on the test that it has begun. -/
def Proc.RiskRead (r : RingBuffer β) : Proc β → Prop
  | .read _ .asleep => True
  | .read _ (.waitFlag woken k) => woken = false ∧ k ≠ r.qrngBuffReadIt
  | _ => False

/-- The process will wake up `read_queue` if the ring stays nonempty and its read cursor where it
is. -/
def Proc.OwesRead (r : RingBuffer β) : Proc β → Prop
  | .read _ (.wakePoll _) => True
  | .read _ (.wakeCursor _) => True
  | .read _ (.wakeFlag _ k) => k = r.qrngBuffReadIt
  | .read _ (.wakeRead _) => True
  | .write _ (.wakeRead _) => True
  | _ => False

/-- The process sleeps in a poll for `EPOLLOUT`, or will on the tests that it has begun. -/
def Proc.RiskOut (r : RingBuffer β) : Proc β → Prop
  | .poll c .asleep => c.events.epollout = true
  | .poll c (.outFlag k) =>
    c.triggered = false ∧ c.events.epollout = true ∧ k ≠ r.qrngBuffWriteIt
  | .poll c .inCursor => c.triggered = false ∧ c.events.epollout = true ∧ c.res.epollout = false
  | .poll c (.inFlag _) => c.triggered = false ∧ c.events.epollout = true ∧ c.res.epollout = false
  | _ => False

/-- The process sleeps in a poll for `POLLIN`, or will on the tests that it has begun. -/
def Proc.RiskIn (r : RingBuffer β) : Proc β → Prop
  | .poll c .asleep => c.events.pollin = true
  | .poll c (.inFlag k) => c.triggered = false ∧ c.events.pollin = true ∧ k ≠ r.qrngBuffReadIt
  | _ => False

/-- The process will wake up `poll_queue`. -/
def Proc.OwesPoll (_ : RingBuffer β) : Proc β → Prop
  | .read _ (.wakePoll _) => True
  | .write _ (.wakeRead _) => True
  | .write _ (.wakePoll _) => True
  | _ => False

/-- Whoever will wake up `read_queue` has not finished its wake-up code. -/
theorem Proc.OwesRead.owesWakeUp {r : RingBuffer β} {P : Proc β} (h : P.OwesRead r) :
    P.OwesWakeUp := by
  unfold Proc.OwesRead at h
  split at h <;> trivial

/-- Whoever will wake up `poll_queue` has not finished its wake-up code. -/
theorem Proc.OwesPoll.owesWakeUp {r : RingBuffer β} {P : Proc β} (h : P.OwesPoll r) :
    P.OwesWakeUp := by
  unfold Proc.OwesPoll at h
  split at h <;> trivial

/-! ## What a step does to the ring and the queues -/

variable [Zero β]

/-- A step takes a byte, after which its process stands before its wake-ups; or it appends some, with
the same effect; or it leaves the ring alone. -/
theorem Proc.step_kinds (r : RingBuffer β) (P : Proc β) :
    (∃ c b, (P.step r).proc = .read c (.wakePoll b)) ∨
      (∃ c n, (P.step r).proc = .write c (.wakeRead n)) ∨ (P.step r).ring = r := by
  cases P with
  | idle => exact Or.inr (Or.inr rfl)
  | returned _ => exact Or.inr (Or.inr rfl)
  | poll c pc =>
    have h := (Proc.step_exec r (.poll c pc)).2.2
    exact Or.inr (Or.inr h)
  | write c pc =>
    cases pc with
    -- The section of a write is followed by a wake-up, unless it has written nothing.
    | append =>
      simp only [Proc.step, WriteCall.step]
      split_ifs with hret
      · exact Or.inr (Or.inr (RingBuffer.writeRandomBytesQrng_of_ret_eq_zero hret))
      · exact Or.inr (Or.inl ⟨_, _, rfl⟩)
    | _ => exact Or.inr (Or.inr (Proc.step_exec r (.write c _)).2.2)
  | read c pc =>
    cases pc with
    | take =>
      simp only [Proc.step, ReadCall.step]
      cases r.getRandomByte with
      -- A take is followed by a wake-up exactly if it has taken a byte.
      | none =>
        simp only
        split_ifs
        · exact Or.inr (Or.inr rfl)
        · exact Or.inr (Or.inr rfl)
      | some br => exact Or.inl ⟨c, br.1, rfl⟩
    | _ => exact Or.inr (Or.inr (Proc.step_exec r (.read c _)).2.2)

/-! ## Wake-ups and signals -/

section

omit [Zero β]

variable (r : RingBuffer β) (P : Proc β)

@[simp] theorem Proc.not_riskRead_wokenRead : ¬ P.wokenRead.RiskRead r := by
  rcases P with _ | ⟨c, pc⟩ | ⟨c, pc⟩ | ⟨c, pc⟩ | _ <;> (try cases pc) <;>
    simp_all [Proc.wokenRead, Proc.RiskRead]

@[simp] theorem Proc.riskRead_wokenPoll : P.wokenPoll.RiskRead r ↔ P.RiskRead r := by
  rcases P with _ | ⟨c, pc⟩ | ⟨c, pc⟩ | ⟨c, pc⟩ | _ <;> (try cases pc) <;>
    simp_all [Proc.wokenPoll, Proc.RiskRead]

@[simp] theorem Proc.owesRead_wokenRead : P.wokenRead.OwesRead r ↔ P.OwesRead r := by
  rcases P with _ | ⟨c, pc⟩ | ⟨c, pc⟩ | ⟨c, pc⟩ | _ <;> (try cases pc) <;>
    simp_all [Proc.wokenRead, Proc.OwesRead]

@[simp] theorem Proc.owesRead_wokenPoll : P.wokenPoll.OwesRead r ↔ P.OwesRead r := by
  rcases P with _ | ⟨c, pc⟩ | ⟨c, pc⟩ | ⟨c, pc⟩ | _ <;> (try cases pc) <;>
    simp_all [Proc.wokenPoll, Proc.OwesRead]

@[simp] theorem Proc.owesRead_signalled : P.signalled.OwesRead r ↔ P.OwesRead r := by
  rcases P with _ | ⟨c, pc⟩ | ⟨c, pc⟩ | ⟨c, pc⟩ | _ <;> (try cases pc) <;>
    simp_all [Proc.signalled, Proc.OwesRead]

/-- A signal ends a sleep on `read_queue` and changes no test. -/
theorem Proc.riskRead_of_signalled (h : P.signalled.RiskRead r) : P.RiskRead r := by
  rcases P with _ | ⟨c, pc⟩ | ⟨c, pc⟩ | ⟨c, pc⟩ | _ <;> (try cases pc) <;>
    simp_all [Proc.signalled, Proc.RiskRead]

@[simp] theorem Proc.not_riskOut_wokenPoll : ¬ P.wokenPoll.RiskOut r := by
  rcases P with _ | ⟨c, pc⟩ | ⟨c, pc⟩ | ⟨c, pc⟩ | _ <;> (try cases pc) <;>
    simp_all [Proc.wokenPoll, Proc.RiskOut]

@[simp] theorem Proc.riskOut_wokenRead : P.wokenRead.RiskOut r ↔ P.RiskOut r := by
  rcases P with _ | ⟨c, pc⟩ | ⟨c, pc⟩ | ⟨c, pc⟩ | _ <;> (try cases pc) <;>
    simp_all [Proc.wokenRead, Proc.RiskOut]

/-- A signal ends a sleep in a poll for `EPOLLOUT` and changes no test. -/
theorem Proc.riskOut_of_signalled (h : P.signalled.RiskOut r) : P.RiskOut r := by
  rcases P with _ | ⟨c, pc⟩ | ⟨c, pc⟩ | ⟨c, pc⟩ | _ <;> (try cases pc) <;>
    simp_all [Proc.signalled, Proc.RiskOut]

@[simp] theorem Proc.not_riskIn_wokenPoll : ¬ P.wokenPoll.RiskIn r := by
  rcases P with _ | ⟨c, pc⟩ | ⟨c, pc⟩ | ⟨c, pc⟩ | _ <;> (try cases pc) <;>
    simp_all [Proc.wokenPoll, Proc.RiskIn]

@[simp] theorem Proc.riskIn_wokenRead : P.wokenRead.RiskIn r ↔ P.RiskIn r := by
  rcases P with _ | ⟨c, pc⟩ | ⟨c, pc⟩ | ⟨c, pc⟩ | _ <;> (try cases pc) <;>
    simp_all [Proc.wokenRead, Proc.RiskIn]

/-- A signal ends a sleep in a poll for `POLLIN` and changes no test. -/
theorem Proc.riskIn_of_signalled (h : P.signalled.RiskIn r) : P.RiskIn r := by
  rcases P with _ | ⟨c, pc⟩ | ⟨c, pc⟩ | ⟨c, pc⟩ | _ <;> (try cases pc) <;>
    simp_all [Proc.signalled, Proc.RiskIn]

@[simp] theorem Proc.owesPoll_wokenRead : P.wokenRead.OwesPoll r ↔ P.OwesPoll r := by
  rcases P with _ | ⟨c, pc⟩ | ⟨c, pc⟩ | ⟨c, pc⟩ | _ <;> (try cases pc) <;>
    simp_all [Proc.wokenRead, Proc.OwesPoll]

@[simp] theorem Proc.owesPoll_wokenPoll : P.wokenPoll.OwesPoll r ↔ P.OwesPoll r := by
  rcases P with _ | ⟨c, pc⟩ | ⟨c, pc⟩ | ⟨c, pc⟩ | _ <;> (try cases pc) <;>
    simp_all [Proc.wokenPoll, Proc.OwesPoll]

@[simp] theorem Proc.owesPoll_signalled : P.signalled.OwesPoll r ↔ P.OwesPoll r := by
  rcases P with _ | ⟨c, pc⟩ | ⟨c, pc⟩ | ⟨c, pc⟩ | _ <;> (try cases pc) <;>
    simp_all [Proc.signalled, Proc.OwesPoll]

/-- Wake-ups bring no risk that neither kind of wake-up brings. -/
theorem Proc.risk_of_woken {risk : RingBuffer β → Proc β → Prop} {r : RingBuffer β} {Q : Proc β}
    {wr wp : Bool} (hr : ∀ P, risk r P.wokenRead → risk r P)
    (hp : ∀ P, risk r P.wokenPoll → risk r P) (h : risk r (Q.woken wr wp)) : risk r Q := by
  cases wr <;> cases wp <;> simp only [Proc.woken, if_true, Bool.false_eq_true, if_false] at h
  · exact h
  · exact hp _ h
  · exact hr _ h
  · exact hr _ (hp _ h)

end

/-! ## Queue disciplines -/

/-- What makes an account of risk and debt an invariant of the driver: `ready` is the condition that
the queue's waiters test, `risk` and `owes` are the account, and `wakes` says which steps wake up the
queue. -/
structure Discipline (ready : RingBuffer β → Prop) (risk owes : RingBuffer β → Proc β → Prop)
    (wakes : Proc β → Bool) : Prop where
  /-- A consumer owes the wake-up right after its take. -/
  took : ∀ r c b, owes r (.read c (.wakePoll b))
  /-- A writer owes the wake-up right after its append. -/
  wrote : ∀ r c n, owes r (.write c (.wakeRead n))
  /-- A debt is carried on until it is paid. -/
  step_owes : ∀ r P, ready r → owes r P → wakes P = false → owes r (Proc.step r P).proc
  /-- While the condition holds, a test on the current cursor does not fail. -/
  step_risk : ∀ r P, ready r → risk r (Proc.step r P).proc → risk r P
  /-- Who wakes up the queue is not one of its waiters. -/
  not_risk_of_wakes : ∀ r P, wakes P = true → ¬ risk r P
  /-- A wake-up of the queue ends the risk, and no other wake-up brings one. -/
  risk_of_woken : ∀ r P Q, risk r (Proc.woken (Proc.atWakeRead P) (Proc.atWakePoll P) Q) →
    wakes P = false ∧ risk r Q
  /-- Wake-ups leave debts alone. -/
  owes_woken : ∀ r P wr wp, owes r P → owes r (Proc.woken wr wp P)
  /-- Signals bring no risk. -/
  risk_of_signalled : ∀ r P, risk r (Proc.signalled P) → risk r P
  /-- Signals leave debts alone. -/
  owes_signalled : ∀ r P, owes r P → owes r (Proc.signalled P)
  /-- A call does not begin at risk. -/
  not_risk_start : ∀ r c, ¬ risk r (Proc.start c)
  /-- A process in no call owes nothing. -/
  not_owes_of_free : ∀ r P, P.free = true → ¬ owes r P
  /-- A process that has made no call is not at risk. -/
  not_risk_idle : ∀ r, ¬ risk r .idle

namespace Discipline

variable {ready : RingBuffer β → Prop} {risk owes : RingBuffer β → Proc β → Prop}
  {wakes : Proc β → Bool}

/-- Every label keeps everyone covered. -/
theorem step (d : Discipline ready risk owes wakes) {σ : Driver β}
    (h : Covered ready risk owes σ.ring σ.procs) (l : Label β) :
    Covered ready risk owes (σ.step l).ring (σ.step l).procs := by
  cases l with
  | call p c =>
    simp only [Driver.step]
    split_ifs with hfree
    · -- The caller was free, so it owed nothing, and it does not begin at risk.
      refine h.frame id (fun _ q hq => ?_) (fun _ q hq => ?_)
      · rcases eq_or_ne q p with rfl | hqp
        · exact absurd (by simpa using hq) (d.not_risk_start σ.ring c)
        · simpa [hqp] using hq
      · rcases eq_or_ne q p with rfl | hqp
        · exact absurd hq (d.not_owes_of_free _ _ hfree)
        · simpa [hqp] using hq
    · exact h
  | signal p =>
    refine h.frame id (fun _ q hq => ?_) (fun _ q hq => ?_)
    · rcases eq_or_ne q p with rfl | hqp
      · exact d.risk_of_signalled _ _ (by simpa [Driver.step] using hq)
      · simpa [Driver.step, hqp] using hq
    · rcases eq_or_ne q p with rfl | hqp
      · simpa [Driver.step] using d.owes_signalled _ _ hq
      · simpa [Driver.step, hqp] using hq
  | sched p =>
    show Covered ready risk owes (σ.sched p).ring (σ.sched p).procs
    have hring : (σ.sched p).ring = ((σ.procs p).step σ.ring).ring := rfl
    rcases Proc.step_kinds σ.ring (σ.procs p) with ⟨c, b, htook⟩ | ⟨c, n, hwrote⟩ | hquiet
    · -- A take puts its process in debt.
      refine covered_of_owes (q := p) ?_
      rw [Driver.sched_procs_self, htook]
      exact d.took _ _ _
    · -- So does an append.
      refine covered_of_owes (q := p) ?_
      rw [Driver.sched_procs_self, hwrote]
      exact d.wrote _ _ _
    · rw [hring, hquiet]
      obtain ⟨hwr, hwp⟩ := Proc.step_wakes σ.ring (σ.procs p)
      cases hw : wakes (σ.procs p) with
      | true =>
        -- The queue has been woken up: nobody is left at risk.
        intro hr q hq
        rcases eq_or_ne q p with rfl | hqp
        · rw [Driver.sched_procs_self] at hq
          exact absurd (d.step_risk _ _ hr hq) (d.not_risk_of_wakes _ _ hw)
        · rw [Driver.sched_procs_of_ne σ hqp, hwr, hwp] at hq
          have hf := (d.risk_of_woken _ _ _ hq).1
          rw [hw] at hf
          exact absurd hf (by simp)
      | false =>
        refine h.frame id (fun hr q hq => ?_) (fun hr q hq => ?_)
        · rcases eq_or_ne q p with rfl | hqp
          · rw [Driver.sched_procs_self] at hq
            exact d.step_risk _ _ hr hq
          · rw [Driver.sched_procs_of_ne σ hqp, hwr, hwp] at hq
            exact (d.risk_of_woken _ _ _ hq).2
        · rcases eq_or_ne q p with rfl | hqp
          · rw [Driver.sched_procs_self]
            exact d.step_owes _ _ hr hq hw
          · rw [Driver.sched_procs_of_ne σ hqp]
            exact d.owes_woken _ _ _ _ hq

/-- In every reachable state, everyone is covered. -/
theorem run (d : Discipline ready risk owes wakes) (ls : List (Label β)) :
    Covered ready risk owes ((Driver.init : Driver β).run ls).ring
      ((Driver.init : Driver β).run ls).procs :=
  Runs.run_invariant' (P := fun σ : Driver β => Covered ready risk owes σ.ring σ.procs)
    (fun _ l h => d.step h l) ls (covered_of_no_risk fun _ => d.not_risk_idle _)

end Discipline

/-! ## The two queues -/

section

omit [Zero β]

variable (r : RingBuffer β)

/-- The head of the read loop is not a waiter. -/
theorem ReadCall.loop_quiet (c : ReadCall β) :
    ¬ c.loop.RiskRead r ∧ ¬ c.loop.RiskOut r ∧ ¬ c.loop.RiskIn r := by
  unfold ReadCall.loop
  split_ifs <;> simp [Proc.RiskRead, Proc.RiskOut, Proc.RiskIn]

/-- A write is never a waiter, whatever it does next. -/
theorem WriteCall.step_quiet (c : WriteCall β) (pc : WritePc) :
    ¬ (c.step r pc).proc.RiskRead r ∧ ¬ (c.step r pc).proc.RiskOut r ∧
      ¬ (c.step r pc).proc.RiskIn r := by
  cases pc <;> simp only [WriteCall.step, WriteCall.loop, WriteCall.finish] <;>
    (try split_ifs) <;> simp [Proc.RiskRead, Proc.RiskOut, Proc.RiskIn]

/-- A poll does not wait on `read_queue`. -/
theorem PollCall.step_quiet (c : PollCall) (pc : PollPc) : ¬ (c.step r pc).proc.RiskRead r := by
  cases pc <;> simp only [PollCall.step] <;> (try split_ifs) <;> simp [Proc.RiskRead]

end

/-- A read does not wait on `poll_queue`. -/
theorem ReadCall.step_quiet (r : RingBuffer β) (c : ReadCall β) (pc : ReadPc β) :
    ¬ (c.step r pc).proc.RiskOut r ∧ ¬ (c.step r pc).proc.RiskIn r := by
  have hloop := fun c : ReadCall β => (c.loop_quiet r).2
  cases pc with
  -- Where the read goes on, it is still no poll.
  | take =>
    simp only [ReadCall.step]
    cases r.getRandomByte with
    | none => simp only; split_ifs <;> exact ⟨id, id⟩
    | some br => exact ⟨id, id⟩
  | copy b => exact hloop _
  | testFlag k =>
    simp only [ReadCall.step]
    split_ifs
    · exact ⟨id, id⟩
    · exact ⟨id, id⟩
    · exact hloop c
  | waitFlag w k =>
    simp only [ReadCall.step]
    split_ifs
    · exact hloop c
    · exact ⟨id, id⟩
    · exact ⟨id, id⟩
    · exact ⟨id, id⟩
  | _ => exact ⟨id, id⟩

/-- A step that leaves a process at risk on `read_queue` while the ring is not empty has found it
at risk: it was asleep, or its test had loaded a stale cursor. -/
theorem Proc.step_riskRead {r : RingBuffer β} {P : Proc β} (hr : r.readReady = true)
    (h : (P.step r).proc.RiskRead r) : P.RiskRead r := by
  cases P with
  | idle => exact h
  | returned _ => exact h
  | poll c pc => exact absurd h (c.step_quiet r pc)
  | write c pc => exact absurd h (c.step_quiet r pc).1
  | read c pc =>
    cases pc with
    | waitCursor w =>
      -- The cursor just loaded is the current one.
      exact absurd rfl h.2
    | waitFlag w k =>
      simp only [Proc.step, ReadCall.step] at h
      split_ifs at h with hflag hsig hw
      · exact absurd h (c.loop_quiet r).1
      · exact h.elim
      · exact h.elim
      · -- The test has failed although the ring is not empty, so its cursor is stale.
        refine ⟨by simpa using hw, ?_⟩
        rintro rfl
        exact hflag hr
    | asleep => trivial
    | testFlag k =>
      simp only [Proc.step, ReadCall.step] at h
      split_ifs at h
      · exact h.elim
      · exact h.elim
      · exact absurd h (c.loop_quiet r).1
    | take =>
      simp only [Proc.step, ReadCall.step] at h
      cases hget : r.getRandomByte with
      | none =>
        simp only [hget] at h
        split_ifs at h <;> exact h.elim
      | some br =>
        simp only [hget] at h
        exact h.elim
    | wakeFlag b k =>
      simp only [Proc.step, ReadCall.step] at h
      split_ifs at h <;> exact h.elim
    | copy b => exact absurd h (ReadCall.loop_quiet r _).1
    | _ => exact h.elim

/-- The waiters of `read_queue` are covered. -/
theorem readDiscipline : Discipline (β := β) (fun r => r.readReady = true) (fun r P => P.RiskRead r)
    (fun r P => P.OwesRead r) Proc.atWakeRead where
  took _ _ _ := trivial
  wrote _ _ _ := trivial
  step_owes r P hr ho hw := by
    cases P with
    | idle => exact ho
    | returned _ => exact ho
    | poll c pc => exact ho.elim
    | write c pc => cases pc <;> simp [Proc.OwesRead, Proc.atWakeRead] at ho hw
    | read c pc =>
      cases pc with
      | wakePoll b => trivial
      | wakeCursor b => rfl
      | wakeFlag b k =>
        -- The cursor that was loaded is the current one, and the ring is not empty.
        have hk : k = r.qrngBuffReadIt := ho
        have hflag : r.qrngBuffReady k = true := by rw [hk]; exact hr
        simp [Proc.step, ReadCall.step, hflag, Proc.OwesRead]
      | wakeRead b => exact absurd hw (by simp [Proc.atWakeRead])
      | _ => exact ho.elim
  step_risk r P hr h := Proc.step_riskRead hr h
  not_risk_of_wakes r P hw := by
    unfold Proc.atWakeRead at hw
    split at hw <;> simp_all [Proc.RiskRead]
  risk_of_woken r P Q h := by
    refine ⟨?_, Proc.risk_of_woken (by simp) (by simp) h⟩
    cases hw : P.atWakeRead with
    | false => rfl
    | true => cases hp : P.atWakePoll <;> simp [Proc.woken, hw, hp] at h
  owes_woken r P wr wp h := by
    cases wr <;> cases wp <;> simpa [Proc.woken] using h
  risk_of_signalled r P h := P.riskRead_of_signalled r h
  owes_signalled r P h := by simpa using h
  not_risk_start r c := by cases c <;> simp [Proc.start, Proc.RiskRead]
  not_owes_of_free r P h := by cases P <;> simp [Proc.free, Proc.OwesRead] at h ⊢
  not_risk_idle r := id

/-- A step that leaves a process at risk in a poll for `EPOLLOUT` while the ring is not full has
found it at risk. -/
theorem Proc.step_riskOut {r : RingBuffer β} {P : Proc β} (hr : r.writeReady = true)
    (h : (P.step r).proc.RiskOut r) : P.RiskOut r := by
  cases P with
  | idle => exact h
  | returned _ => exact h
  | read c pc => exact absurd h (c.step_quiet r pc).1
  | write c pc => exact absurd h (c.step_quiet r pc).2.1
  | poll c pc =>
    cases pc with
    | register => exact h.elim
    | outCursor => exact absurd rfl h.2.2
    | outFlag k =>
      obtain ⟨htrig, hout, hres⟩ := h
      refine ⟨htrig, hout, ?_⟩
      -- A test that fails although the ring is not full has loaded a stale cursor.
      rintro rfl
      have hflag : r.qrngBuffReady r.qrngBuffWriteIt = true := by simpa using hres
      rw [RingBuffer.writeReady, hflag] at hr
      exact absurd hr (by simp)
    | inCursor => exact h
    | inFlag k =>
      simp only [Proc.step, PollCall.step] at h
      split_ifs at h with hrev hsig htrig
      · exact h.elim
      · exact h.elim
      · exact h.elim
      · -- It goes to sleep: neither triggered nor anything to report.
        have hout : c.events.epollout = true := h
        refine ⟨by simpa using htrig, hout, ?_⟩
        have hres := congrArg PollMask.epollout (not_not.mp hrev)
        simpa [PollMask.inter, PollMask.none, hout] using hres
    | asleep => exact h

/-- A step that leaves a process at risk in a poll for `POLLIN` while the ring is not empty has
found it at risk. -/
theorem Proc.step_riskIn {r : RingBuffer β} {P : Proc β} (hr : r.readReady = true)
    (h : (P.step r).proc.RiskIn r) : P.RiskIn r := by
  cases P with
  | idle => exact h
  | returned _ => exact h
  | read c pc => exact absurd h (c.step_quiet r pc).2
  | write c pc => exact absurd h (c.step_quiet r pc).2.2
  | poll c pc =>
    cases pc with
    | register => exact h.elim
    | outCursor => exact h.elim
    | outFlag k => exact h.elim
    | inCursor => exact absurd rfl h.2.2
    | inFlag k =>
      simp only [Proc.step, PollCall.step] at h
      split_ifs at h with hrev hsig htrig
      · exact h.elim
      · exact h.elim
      · exact h.elim
      · have hin : c.events.pollin = true := h
        refine ⟨by simpa using htrig, hin, ?_⟩
        -- A test that fails although the ring is not empty has loaded a stale cursor.
        rintro rfl
        have hres := congrArg PollMask.pollin (not_not.mp hrev)
        have hflag : r.qrngBuffReady r.qrngBuffReadIt = false := by
          simpa [PollMask.inter, PollMask.none, hin] using hres
        rw [RingBuffer.readReady, hflag] at hr
        exact absurd hr (by simp)
    | asleep => exact h

/-- Debts to `poll_queue` are carried on until they are paid. -/
theorem Proc.step_owesPoll {r : RingBuffer β} {P : Proc β} (h : P.OwesPoll r)
    (hw : P.atWakePoll = false) : (P.step r).proc.OwesPoll r := by
  rcases P with _ | ⟨c, pc⟩ | ⟨c, pc⟩ | ⟨c, pc⟩ | _
  · exact h
  · cases pc <;> simp [Proc.OwesPoll, Proc.atWakePoll] at h hw
  · cases pc <;>
      simp [Proc.OwesPoll, Proc.atWakePoll, Proc.step, WriteCall.step] at h hw ⊢
  · cases pc <;> exact h.elim
  · exact h

/-- The pollers that wait for `EPOLLOUT` are covered. -/
theorem outDiscipline : Discipline (β := β) (fun r => r.writeReady = true) (fun r P => P.RiskOut r)
    (fun r P => P.OwesPoll r) Proc.atWakePoll where
  took _ _ _ := trivial
  wrote _ _ _ := trivial
  step_owes r P _ ho hw := Proc.step_owesPoll ho hw
  step_risk r P hr h := Proc.step_riskOut hr h
  not_risk_of_wakes r P hw := by
    unfold Proc.atWakePoll at hw
    split at hw <;> simp_all [Proc.RiskOut]
  risk_of_woken r P Q h := by
    refine ⟨?_, Proc.risk_of_woken (by simp) (by simp) h⟩
    cases hp : P.atWakePoll with
    | false => rfl
    | true => simp [Proc.woken, hp] at h
  owes_woken r P wr wp h := by
    cases wr <;> cases wp <;> simpa [Proc.woken] using h
  risk_of_signalled r P h := P.riskOut_of_signalled r h
  owes_signalled r P h := by simpa using h
  not_risk_start r c := by cases c <;> simp [Proc.start, Proc.RiskOut]
  not_owes_of_free r P h := by cases P <;> simp [Proc.free, Proc.OwesPoll] at h ⊢
  not_risk_idle r := id

/-- The pollers that wait for `POLLIN` are covered. -/
theorem inDiscipline : Discipline (β := β) (fun r => r.readReady = true) (fun r P => P.RiskIn r)
    (fun r P => P.OwesPoll r) Proc.atWakePoll where
  took _ _ _ := trivial
  wrote _ _ _ := trivial
  step_owes r P _ ho hw := Proc.step_owesPoll ho hw
  step_risk r P hr h := Proc.step_riskIn hr h
  not_risk_of_wakes r P hw := by
    unfold Proc.atWakePoll at hw
    split at hw <;> simp_all [Proc.RiskIn]
  risk_of_woken r P Q h := by
    refine ⟨?_, Proc.risk_of_woken (by simp) (by simp) h⟩
    cases hp : P.atWakePoll with
    | false => rfl
    | true => simp [Proc.woken, hp] at h
  owes_woken r P wr wp h := by
    cases wr <;> cases wp <;> simpa [Proc.woken] using h
  risk_of_signalled r P h := P.riskIn_of_signalled r h
  owes_signalled r P h := by simpa using h
  not_risk_start r c := by cases c <;> simp [Proc.start, Proc.RiskIn]
  not_owes_of_free r P h := by cases P <;> simp [Proc.free, Proc.OwesPoll] at h ⊢
  not_risk_idle r := id

/-! ## The guarantees -/

/-- No wake-up of a blocked reader is lost. In every reachable state with any number of readers,
writers, and pollers, if a reader is asleep on `read_queue` and the ring is not empty, then some
process has completed a take or an append and has not finished its wake-up code. -/
theorem no_lost_wakeup_readers (ls : List (Label β)) (p : Pid) (c : ReadCall β)
    (hp : ((Driver.init : Driver β).run ls).procs p = .read c .asleep)
    (hne : ((Driver.init : Driver β).run ls).ring.contents ≠ []) :
    ∃ q, (((Driver.init : Driver β).run ls).procs q).OwesWakeUp := by
  have hready := (Driver.run_represents ls).readReady_iff.mpr hne
  obtain ⟨q, hq⟩ := readDiscipline.run ls hready p (by rw [hp]; trivial)
  exact ⟨q, hq.owesWakeUp⟩

/-- Process 0 falls asleep in a read of one byte, and process 1 appends one and stands before its
wake-ups. -/
def sleeperAndWriter : List (Label UInt8) :=
  [.call 0 (.read ⟨false, false, false⟩ [0] 1), .sched 0, .sched 0, .sched 0, .sched 0, .sched 0,
    .sched 0, .call 1 (.write [7] 1), .sched 1, .sched 1, .sched 1, .sched 1]

/-- In that run, `no_lost_wakeup_readers` finds the writer. -/
theorem no_lost_wakeup_readers_run :
    ∃ q, (((Driver.init : Driver UInt8).run sleeperAndWriter).procs q).OwesWakeUp :=
  no_lost_wakeup_readers sleeperAndWriter 0 ⟨false, .start [0] 1, 0, false⟩ rfl
    ((Driver.run_represents sleeperAndWriter).readReady_iff.mp rfl)

/-- No wake-up of a poller is lost. In every reachable state with any number of pollers, readers, and
writers, if a poller is asleep that waits for `EPOLLOUT` and the ring is not full, or that waits for
`POLLIN` and the ring is not empty, then some process has completed a take or an append and has not
finished its wake-up code. So while a poller for `EPOLLOUT` and a blocked reader are both asleep and
the ring is empty, a wake-up is under way. -/
theorem no_lost_wakeup_pollers (ls : List (Label β)) (p : Pid) (c : PollCall)
    (hp : ((Driver.init : Driver β).run ls).procs p = .poll c .asleep) :
    (c.events.epollout = true → ((Driver.init : Driver β).run ls).ring.contents.length < BUFF_SIZE →
        ∃ q, (((Driver.init : Driver β).run ls).procs q).OwesWakeUp) ∧
      (c.events.pollin = true → ((Driver.init : Driver β).run ls).ring.contents ≠ [] →
        ∃ q, (((Driver.init : Driver β).run ls).procs q).OwesWakeUp) ∧
      (c.events.epollout = true → ((Driver.init : Driver β).run ls).ring.contents = [] →
        ∀ reader cr, ((Driver.init : Driver β).run ls).procs reader = .read cr .asleep →
          ∃ q, (((Driver.init : Driver β).run ls).procs q).OwesWakeUp) := by
  have hrep := Driver.run_represents (β := β) ls
  have hout : c.events.epollout = true →
      ((Driver.init : Driver β).run ls).ring.contents.length < BUFF_SIZE →
      ∃ q, (((Driver.init : Driver β).run ls).procs q).OwesWakeUp := by
    -- With a free slot, what a sleeper for `EPOLLOUT` risks is owed to it.
    intro hev hlt
    obtain ⟨q, hq⟩ := outDiscipline.run ls (hrep.writeReady_iff.mpr hlt) p (by rw [hp]; exact hev)
    exact ⟨q, hq.owesWakeUp⟩
  refine ⟨hout, ?_, ?_⟩
  · intro hev hne
    obtain ⟨q, hq⟩ := inDiscipline.run ls (hrep.readReady_iff.mpr hne) p (by rw [hp]; exact hev)
    exact ⟨q, hq.owesWakeUp⟩
  · -- An empty ring has a free slot.
    intro hev hempty _ _ _
    exact hout hev (by rw [hempty, List.length_nil]; decide)

/-- Process 0 falls asleep in a poll for `POLLIN`, and process 1 appends a byte and stands before its
wake-ups. -/
def pollerAndWriter : List (Label UInt8) :=
  [.call 0 (.poll ⟨false, true, false⟩), .sched 0, .sched 0, .sched 0, .sched 0, .sched 0,
    .call 1 (.write [7] 1), .sched 1, .sched 1, .sched 1, .sched 1]

/-- In that run, `no_lost_wakeup_pollers` finds the writer. -/
theorem no_lost_wakeup_pollers_run :
    ∃ q, (((Driver.init : Driver UInt8).run pollerAndWriter).procs q).OwesWakeUp :=
  (no_lost_wakeup_pollers pollerAndWriter 0
      ⟨⟨false, true, false⟩, ⟨true, false, false⟩, false, false⟩ rfl).2.1 rfl
    ((Driver.run_represents pollerAndWriter).readReady_iff.mp rfl)

end QrngDevice
