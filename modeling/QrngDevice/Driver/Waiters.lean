import QrngDevice.Driver.Poll
import QrngDevice.Driver.Wakeup
import QrngDevice.Lib.LeadsTo

/-!
# Waiters and their helpers

A `Waiter` is a kind of process that waits for one side of the ring to be ready, with a distance to its
goal that its own steps lower. When it sleeps, it is not its own steps that help it but those of a
process that owes the wake-up, which exists by `Driver/Wakeup.lean` and is at most four steps away from
paying (`Proc.debt`). So the helper of a waiter is itself or its debtor (`Waiter.Helps`), and under a
schedule that is fair to every process, the waiter returns or a byte passes its side of the ring
(`Waiter.leadsTo`). In the second case it may have to wait anew.
-/

namespace QrngDevice

open Runs RingBuffer WaitQueue

variable {β : Type*} [Zero β]

/-! ## Schedules of the driver -/

namespace Driver

/-- The driver after a step of a schedule: after a label, or as it was while others move. -/
def tick (σ : Driver β) : Option (Label β) → Driver β
  | none => σ
  | some l => σ.step l

omit [Zero β] in
/-- The step of a schedule is a step of process `p`. -/
def ofProc (p : Pid) (o : Option (Label β)) : Bool := o.any (Label.isSched p)

omit [Zero β] in
/-- What `ofProc` tests. -/
theorem ofProc_iff {p : Pid} {o : Option (Label β)} : ofProc p o = true ↔ o = some (.sched p) := by
  cases o <;> simp [ofProc, Label.isSched_iff]

/-- What the labels preserve holds at every point of a schedule. -/
theorem after_tick {P : Driver β → Prop} (hstep : ∀ σ l, P σ → P (σ.step l)) (h : P init)
    (sched : ℕ → Option (Label β)) (n : ℕ) : P (after tick init sched n) := by
  refine after_invariant (A := fun _ => True) (fun σ o _ hσ => ?_) (fun _ => trivial) h n
  cases o with
  | none => exact hσ
  | some l => exact hstep σ l hσ

/-- A process in a call changes by its own steps, and otherwise by nudges only. -/
theorem tick_nudge {σ : Driver β} {p : Pid} (hp : (σ.procs p).free = false)
    {o : Option (Label β)} (ho : o ≠ some (.sched p)) :
    (σ.procs p).Nudge ((σ.tick o).procs p) := by
  have hsame : ∀ P : Proc β, P.Nudge P := fun P => .woken false false
  cases o with
  | none => exact hsame _
  | some l =>
    by_cases hkeep : l.KeepsCall p
    · exact step_nudge σ hkeep fun hl => ho (by rw [hl])
    · -- A call of `p` itself is not possible.
      cases l with
      | call q c =>
        obtain rfl : q = p := not_not.mp hkeep
        simp only [tick, step, hp, Bool.false_eq_true, if_false]
        exact hsame _
      | sched q => exact absurd trivial hkeep
      | signal q => exact absurd trivial hkeep

end Driver

/-! ## The bytes that pass a side -/

/-- A step that takes nothing keeps the side of the readers. -/
theorem Side.keeps_of_taken_nil {r : RingBuffer β} {P : Proc β} (h : (P.step r).taken = []) :
    Side.inn.Keeps r (P.step r).ring := by
  by_cases hread : P.isRead = true
  · have hexec := Proc.step_exec r P
    rcases P with _ | ⟨c, pc⟩ | _ | _ | _
    · cases hread
    · rw [hexec.2.2]
      cases pc with
      | take =>
        rw [hexec.1] at h
        simp only [Proc.sections, exec, RingBuffer.step, getRandomByte] at h ⊢
        split_ifs at h ⊢
        · simp at h
        · exact .refl _ _
      | _ => exact .refl _ _
    · cases hread
    · cases hread
    · cases hread
  · exact Side.inn_lawful.keeps r P (by simpa [Side.inn] using hread)

/-- A step that appends nothing keeps the side of the writers. -/
theorem Side.keeps_of_appended_nil {r : RingBuffer β} {q : List β} {P : Proc β}
    (hrep : r.Represents q) (h : (P.step r).appended = []) : Side.out.Keeps r (P.step r).ring := by
  by_cases hwrite : P.isWrite = true
  · have hexec := Proc.step_exec r P
    rcases P with _ | _ | ⟨c, pc⟩ | _ | _
    · cases hwrite
    · cases hwrite
    · rw [hexec.2.2]
      cases pc with
      | append =>
        have hspec := (hrep.writeRandomBytesQrng_spec c.iter).ret
        have hlen := c.iter.length_readable
        simp only [List.length_take, Nat.zero_add] at hspec
        simp only [Proc.step, WriteCall.step, List.take_eq_nil_iff, List.drop_eq_nil_iff] at h
        have hret : (r.writeRandomBytesQrng c.iter).ret = 0 := by omega
        simp only [Proc.sections, exec, RingBuffer.step, writeRandomBytesQrng_of_ret_eq_zero hret]
        exact .refl _ _
      | _ => exact .refl _ _
    · cases hwrite
    · cases hwrite
  · exact Side.out_lawful.keeps r P (by simpa [Side.out] using hwrite)

/-- The number of bytes that have passed a side of the ring: no step lowers it, and as long as it stays
the same, the side is kept. -/
structure Side.Counts (S : Side β) (count : Driver β → ℕ) : Prop where
  /-- One step of the driver. -/
  step : ∀ (σ : Driver β) (l : Label β), σ.Accounted →
    count σ < count (σ.step l) ∨ count (σ.step l) = count σ ∧ S.Keeps σ.ring (σ.step l).ring

/-- The bytes taken pass the side of the readers. -/
theorem Side.inn_counts : (Side.inn : Side β).Counts fun σ => σ.taken.length where
  step σ l _ := by
    cases l with
    | call p c =>
      simp only [Driver.step]
      split_ifs <;> exact Or.inr ⟨rfl, .refl _ _⟩
    | signal p => exact Or.inr ⟨rfl, .refl _ _⟩
    | sched p =>
      simp only [Driver.step, Driver.sched, List.length_append, List.length_map]
      rcases List.eq_nil_or_concat ((σ.procs p).step σ.ring).taken with hnil | ⟨bs, b, hcons⟩
      · exact Or.inr ⟨by simp [hnil], Side.keeps_of_taken_nil hnil⟩
      · exact Or.inl (by simp [hcons])

/-- The bytes appended pass the side of the writers. -/
theorem Side.out_counts : (Side.out : Side β).Counts fun σ => σ.appended.length where
  step σ l hacc := by
    cases l with
    | call p c =>
      simp only [Driver.step]
      split_ifs <;> exact Or.inr ⟨rfl, .refl _ _⟩
    | signal p => exact Or.inr ⟨rfl, .refl _ _⟩
    | sched p =>
      obtain ⟨q, hrep, -⟩ := hacc
      simp only [Driver.step, Driver.sched, List.length_append, List.length_map]
      rcases List.eq_nil_or_concat ((σ.procs p).step σ.ring).appended with hnil | ⟨bs, b, hcons⟩
      · exact Or.inr ⟨by simp [hnil], Side.keeps_of_appended_nil hrep hnil⟩
      · exact Or.inl (by simp [hcons])

/-! ## Debts -/

section

omit [Zero β]

/-- The process sleeps on one of the queues. -/
def Proc.asleep : Proc β → Bool
  | .read _ .asleep => true
  | .poll _ .asleep => true
  | _ => false

/-- The steps that a process in its wake-up code has left of it. -/
def Proc.debt : Proc β → ℕ
  | .read _ (.wakePoll _) => 4
  | .read _ (.wakeCursor _) => 3
  | .read _ (.wakeFlag _ _) => 2
  | .read _ (.wakeRead _) => 1
  | .write _ (.wakeRead _) => 2
  | .write _ (.wakePoll _) => 1
  | _ => 0

/-- The debts that a process may have to wait for. -/
def Proc.room (P : Proc β) : ℕ := if P.asleep then 4 else 0

/-- They are four at most. -/
theorem Proc.debt_le (P : Proc β) : P.debt ≤ 4 := by
  unfold Proc.debt
  split <;> decide

/-- A process in its wake-up code is in a call. -/
theorem Proc.OwesWakeUp.not_free {P : Proc β} (h : P.OwesWakeUp) : P.free = false := by
  unfold Proc.OwesWakeUp at h
  split at h
  · rfl
  · rfl
  · rfl
  · rfl
  · rfl
  · rfl
  · exact h.elim

/-- A process in its wake-up code does not sleep. -/
theorem Proc.OwesWakeUp.not_asleep {P : Proc β} (h : P.OwesWakeUp) : P.asleep = false := by
  unfold Proc.OwesWakeUp at h
  split at h
  · rfl
  · rfl
  · rfl
  · rfl
  · rfl
  · rfl
  · exact h.elim

/-- Others leave the wake-up code where it is. -/
theorem Proc.OwesWakeUp.debt_nudge {P P' : Proc β} (h : P.OwesWakeUp) (hn : P.Nudge P') :
    P'.debt = P.debt := by
  rcases P with _ | ⟨c, pc⟩ | ⟨c, pc⟩ | ⟨c, pc⟩ | _
  · exact h.elim
  · obtain ⟨s, pc', rfl, rfl | ⟨hw, -⟩⟩ := hn.read
    · cases pc' <;> rfl
    · cases pc <;> first | exact h.elim | simp [ReadPc.waiting] at hw
  · rw [hn.write]
  · exact h.elim
  · exact h.elim

end

/-- A step of the wake-up code leaves the ring alone and the debt smaller. -/
theorem Proc.OwesWakeUp.step {P : Proc β} (h : P.OwesWakeUp) (r : RingBuffer β) :
    (P.step r).ring = r ∧ (P.step r).proc.debt < P.debt := by
  refine ⟨?_, ?_⟩
  · -- Only a take and the section of a write change the ring, and there nothing is owed yet.
    rw [(Proc.step_exec r P).2.2]
    rcases P with _ | ⟨c, pc⟩ | ⟨c, pc⟩ | ⟨c, pc⟩ | _
    · rfl
    · cases pc with
      | take => exact h.elim
      | _ => rfl
    · cases pc with
      | append => exact h.elim
      | _ => rfl
    · rfl
    · rfl
  · rcases P with _ | ⟨c, pc⟩ | ⟨c, pc⟩ | ⟨c, pc⟩ | _
    · exact h.elim
    · cases pc with
      -- Each step from the take or the section to the wake-up pays off a part of the debt.
      | wakePoll b => simp [Proc.step, ReadCall.step, Proc.debt]
      | wakeCursor b => simp [Proc.step, ReadCall.step, Proc.debt]
      | wakeFlag b k =>
        simp only [Proc.step, ReadCall.step]
        split_ifs <;> simp [Proc.debt]
      | wakeRead b => simp [Proc.step, ReadCall.step, Proc.debt]
      | _ => exact h.elim
    · cases pc with
      | wakeRead n => simp [Proc.step, WriteCall.step, Proc.debt]
      | wakePoll n =>
        simp only [Proc.step, WriteCall.step, WriteCall.loop, WriteCall.finish]
        split_ifs <;> simp [Proc.debt]
      | _ => exact h.elim
    · exact h.elim
    · exact h.elim

/-- A queue on which processes wait for a side to become ready: its discipline, and that its debts
last while the side is kept. -/
structure Queue (S : Side β) (risk owes : RingBuffer β → Proc β → Prop) (wakes : Proc β → Bool) :
    Prop where
  /-- The account of risk and debt. -/
  discipline : Discipline S.Ready risk owes wakes
  /-- A debt is a part of the wake-up code. -/
  owesWakeUp : ∀ r P, owes r P → P.OwesWakeUp
  /-- A debt does not depend on the rest of the ring. -/
  owes_keeps : ∀ r r' P, S.Keeps r r' → owes r P → owes r' P

/-- The queue of the readers. -/
theorem readQueue : Queue (Side.inn : Side β) (fun r P => P.RiskRead r) (fun r P => P.OwesRead r)
    Proc.atWakeRead where
  discipline := readDiscipline
  owesWakeUp _ _ h := h.owesWakeUp
  owes_keeps r r' P hk h := by
    unfold Proc.OwesRead at h ⊢
    split at h <;> first | exact h.elim | exact h.trans hk.cursor_eq.symm | trivial

/-- The queue of the pollers for `POLLIN`. -/
theorem pollInQueue : Queue (Side.inn : Side β) (fun r P => P.RiskIn r) (fun r P => P.OwesPoll r)
    Proc.atWakePoll where
  discipline := inDiscipline
  owesWakeUp _ _ h := h.owesWakeUp
  owes_keeps _ _ _ _ h := h

/-- The queue of the pollers for `EPOLLOUT`. -/
theorem pollOutQueue : Queue (Side.out : Side β) (fun r P => P.RiskOut r) (fun r P => P.OwesPoll r)
    Proc.atWakePoll where
  discipline := by
    have hready : (Side.out : Side β).Ready = fun r => r.writeReady = true := by
      funext r
      simp [Side.Ready, Side.out, writeReady]
    rw [hready]
    exact outDiscipline
  owesWakeUp _ _ h := h.owesWakeUp
  owes_keeps _ _ _ _ h := h

/-- What is no step of a debtor leaves it in debt. -/
theorem Queue.owes_tick {S : Side β} {risk owes : RingBuffer β → Proc β → Prop}
    {wakes : Proc β → Bool} {h : Pid} {σ : Driver β} (hq : Queue S risk owes wakes)
    {o : Option (Label β)}
    (ho : o ≠ some (.sched h)) (hk : S.Keeps σ.ring (σ.tick o).ring)
    (howes : owes σ.ring (σ.procs h)) :
    owes (σ.tick o).ring ((σ.tick o).procs h) ∧ ((σ.tick o).procs h).debt = (σ.procs h).debt := by
  have hwake := hq.owesWakeUp _ _ howes
  have hn := Driver.tick_nudge hwake.not_free ho
  refine ⟨hq.owes_keeps _ _ _ hk ?_, hwake.debt_nudge hn⟩
  generalize (σ.tick o).procs h = P' at hn
  cases hn with
  | woken wr wp => exact hq.discipline.owes_woken _ _ _ _ howes
  | signalled => exact hq.discipline.owes_signalled _ _ howes

/-! ## Waiters -/

/-- The processes with `waits` wait on the queue of `risk` for the side `S`. While the side is kept,
the distance of such a process drops with its own steps and is not raised by others. A step into a
sleep leaves room for a debt below the old distance. -/
structure Waiter (S : Side β) (risk : RingBuffer β → Proc β → Prop) (waits : Proc β → Prop)
    (dist : RingBuffer β → Proc β → ℕ) : Prop where
  /-- A waiter is in a call. -/
  not_free : ∀ P, waits P → P.free = false
  /-- If it sleeps, it sleeps on the queue. -/
  risk_of_asleep : ∀ r P, waits P → P.asleep = true → risk r P
  /-- Its own steps, with the side ready. -/
  own : ∀ r P, S.Ready r → waits P → P.asleep = false → S.Keeps r (P.step r).ring →
    (P.step r).proc.free = true ∨ waits (P.step r).proc ∧
      dist (P.step r).ring (P.step r).proc + (P.step r).proc.room < dist r P
  /-- The others. -/
  nudge : ∀ r r' P P', S.Keeps r r' → P.Nudge P' → waits P → waits P' ∧
    (P'.asleep = P.asleep ∧ dist r' P' = dist r P ∨
      P.asleep = true ∧ P'.asleep = false ∧ dist r' P' < dist r P)

/-- A sleeper has no step. -/
theorem Proc.step_of_asleep {P : Proc β} (h : P.asleep = true) (r : RingBuffer β) :
    P.step r = { ring := r, proc := P } := by
  rcases P with _ | ⟨c, pc⟩ | ⟨c, pc⟩ | ⟨c, pc⟩ | _
  · rfl
  · cases pc <;> first | rfl | cases h
  · cases h
  · cases pc <;> first | rfl | cases h
  · rfl

namespace Waiter

variable {S : Side β} {risk owes : RingBuffer β → Proc β → Prop} {wakes : Proc β → Bool}
  {count : Driver β → ℕ} {waits : Proc β → Prop} {dist : RingBuffer β → Proc β → ℕ}
  {p h : Pid} {N : ℕ} {σ : Driver β}

/-- Process `p` waits although the side is ready, and `N` bytes have passed it. -/
structure Waiting (S : Side β) (risk owes : RingBuffer β → Proc β → Prop) (count : Driver β → ℕ)
    (waits : Proc β → Prop) (p : Pid) (N : ℕ) (σ : Driver β) : Prop where
  /-- The ring represents a queue. -/
  accounted : σ.Accounted
  /-- No wake-up is lost. -/
  covered : Covered S.Ready risk owes σ.ring σ.procs
  /-- The side is ready. -/
  ready : S.Ready σ.ring
  /-- The bytes that have passed the side. -/
  count_eq : count σ = N
  /-- The process waits. -/
  waits : waits (σ.procs p)

/-- Process `h` helps process `p`: it owes the wake-up if `p` sleeps, and is `p` otherwise. -/
def Helps (S : Side β) (risk owes : RingBuffer β → Proc β → Prop) (count : Driver β → ℕ)
    (waits : Proc β → Prop) (p : Pid) (N : ℕ) (σ : Driver β) (h : Pid) : Prop :=
  Waiting S risk owes count waits p N σ ∧
    if (σ.procs p).asleep then owes σ.ring (σ.procs h) else h = p

/-- The distance of `p`, and the debt of its helper. -/
def remaining (dist : RingBuffer β → Proc β → ℕ) (p : Pid) (σ : Driver β) (h : Pid) : ℕ :=
  dist σ.ring (σ.procs p) + if (σ.procs p).asleep then (σ.procs h).debt else 0

/-- A waiter has a helper, and not much remains if its distance is small. -/
theorem Waiting.exists_helps (w : Waiter S risk waits dist)
    (hw : Waiting S risk owes count waits p N σ) :
    ∃ h, Helps S risk owes count waits p N σ h ∧ remaining dist p σ h ≤
      dist σ.ring (σ.procs p) + (σ.procs p).room := by
  cases hasleep : (σ.procs p).asleep with
  | false => exact ⟨p, ⟨hw, by simp [hasleep]⟩, by simp [remaining, hasleep, Proc.room]⟩
  | true =>
    obtain ⟨h, howes⟩ := hw.covered hw.ready p (w.risk_of_asleep _ _ hw.waits hasleep)
    refine ⟨h, ⟨hw, by simpa [hasleep] using howes⟩, ?_⟩
    have hdebt := (σ.procs h).debt_le
    simp only [remaining, Proc.room, hasleep, if_true]
    omega

/-- Every step of a schedule passes a byte or keeps the side and all that holds of it. -/
theorem Waiting.tick (hq : Queue S risk owes wakes) (hc : S.Counts count)
    (hw : Waiting S risk owes count waits p N σ) (o : Option (Label β)) :
    N < count (σ.tick o) ∨ S.Keeps σ.ring (σ.tick o).ring ∧
      (waits ((σ.tick o).procs p) → Waiting S risk owes count waits p N (σ.tick o)) := by
  cases o with
  | none => exact Or.inr ⟨.refl _ _, fun _ => hw⟩
  | some l =>
    rcases hc.step σ l hw.accounted with hlt | ⟨hcount, hk⟩
    · exact Or.inl (hw.count_eq ▸ hlt)
    · exact Or.inr ⟨hk, fun hwaits => ⟨hw.accounted.step l, hq.discipline.step hw.covered l,
        hk.readyAt hw.ready, hcount.trans hw.count_eq, hwaits⟩⟩

/-- A step of the waiter itself returns, or leaves it less to do. -/
theorem helps_own (w : Waiter S risk waits dist) (hw : Waiting S risk owes count waits p N σ)
    (hasleep : (σ.procs p).asleep = false) (hk : S.Keeps σ.ring (σ.sched p).ring)
    (hnext : waits ((σ.sched p).procs p) → Waiting S risk owes count waits p N (σ.sched p)) :
    ((σ.sched p).procs p).free = true ∨
      ∃ h', Helps S risk owes count waits p N (σ.sched p) h' ∧
        remaining dist p (σ.sched p) h' < remaining dist p σ p := by
  have hstep := w.own _ _ hw.ready hw.waits hasleep hk
  rw [← Driver.sched_procs_self] at hstep
  refine hstep.imp_right fun ⟨hwaits, hdist⟩ => ?_
  obtain ⟨h', hh', hle⟩ := (hnext hwaits).exists_helps w
  exact ⟨h', hh', hle.trans_lt (lt_of_lt_of_le hdist (Nat.le_add_right _ _))⟩

/-- A step of a debtor that leaves the waiter asleep was not the wake-up, and leaves less of the
debt. -/
theorem helps_debtor (hq : Queue S risk owes wakes) (w : Waiter S risk waits dist)
    (hw : Waiting S risk owes count waits p N σ) (howes : owes σ.ring (σ.procs h))
    (hasleep : (σ.procs p).asleep = true) (hk : S.Keeps σ.ring (σ.sched h).ring)
    (hw' : Waiting S risk owes count waits p N (σ.sched h))
    (hasleep' : ((σ.sched h).procs p).asleep = true)
    (hdist : dist (σ.sched h).ring ((σ.sched h).procs p) = dist σ.ring (σ.procs p)) :
    Helps S risk owes count waits p N (σ.sched h) h ∧
      remaining dist p (σ.sched h) h < remaining dist p σ h := by
  have hwake := hq.owesWakeUp _ _ howes
  -- The waiter sleeps, and a process that owes a wake-up does not.
  have hne : p ≠ h := by
    rintro rfl
    rw [hwake.not_asleep] at hasleep
    exact absurd hasleep (by simp)
  -- The step is not the wake-up itself, since the waiter still sleeps after it.
  have hno : wakes (σ.procs h) = false := by
    have hrisk := w.risk_of_asleep σ.ring _ hw'.waits hasleep'
    rw [Driver.sched_procs_of_ne σ hne, (Proc.step_wakes _ _).1, (Proc.step_wakes _ _).2] at hrisk
    exact (hq.discipline.risk_of_woken _ _ _ hrisk).1
  have hdebt := (hwake.step σ.ring).2
  refine ⟨⟨hw', ?_⟩, ?_⟩
  · rw [if_pos hasleep', Driver.sched_procs_self]
    exact hq.owes_keeps _ _ _ hk (hq.discipline.step_owes _ _ hw.ready howes hno)
  · simp only [remaining, hdist, hasleep, hasleep', if_true, Driver.sched_procs_self]
    omega

/-- What is no step of the waiter while it is awake nudges it at most. -/
theorem Waiting.nudge (w : Waiter S risk waits dist) (hw : Waiting S risk owes count waits p N σ)
    {o : Option (Label β)} (ho : ¬ (o = some (.sched p) ∧ (σ.procs p).asleep = false)) :
    (σ.procs p).Nudge ((σ.tick o).procs p) := by
  by_cases hown : o = some (.sched p)
  · subst hown
    have hasleep : (σ.procs p).asleep = true := by simpa using ho
    have hp : (σ.tick (some (.sched p))).procs p = σ.procs p := by
      refine (Driver.sched_procs_self σ p).trans ?_
      rw [Proc.step_of_asleep hasleep]
    rw [hp]
    exact .woken false false
  · exact Driver.tick_nudge (w.not_free _ hw.waits) hown

/-- A step of the helper brings the waiter to its goal or leaves less to do, and all other steps leave
it the helper and not more to do. -/
theorem helps_tick (hq : Queue S risk owes wakes) (hc : S.Counts count)
    (w : Waiter S risk waits dist) (hh : Helps S risk owes count waits p N σ h)
    (o : Option (Label β)) :
    (((σ.tick o).procs p).free = true ∨ N < count (σ.tick o)) ∨
      (∃ h', Helps S risk owes count waits p N (σ.tick o) h' ∧
        remaining dist p (σ.tick o) h' < remaining dist p σ h) ∨
      (Driver.ofProc h o = false ∧ Helps S risk owes count waits p N (σ.tick o) h ∧
        remaining dist p (σ.tick o) h ≤ remaining dist p σ h) := by
  obtain ⟨hw, hhelp⟩ := hh
  rcases hw.tick hq hc o with hlt | ⟨hk, hnext⟩
  · exact Or.inl (Or.inr hlt)
  by_cases hown : o = some (.sched p) ∧ (σ.procs p).asleep = false
  · obtain ⟨rfl, hasleep⟩ := hown
    obtain rfl : h = p := by rwa [hasleep, if_neg (by simp)] at hhelp
    rcases helps_own w hw hasleep hk hnext with hfree | hless
    · exact Or.inl (Or.inl hfree)
    · exact Or.inr (Or.inl hless)
  · obtain ⟨hwaits, hcases⟩ := w.nudge _ _ _ _ hk (hw.nudge w hown) hw.waits
    have hw' := hnext hwaits
    rcases hcases with ⟨hsame, hdist⟩ | ⟨hasleep, hawake, hdist⟩
    · cases hasleep : (σ.procs p).asleep with
      | false =>
        -- The waiter is awake, and others move.
        obtain rfl : h = p := by rwa [hasleep, if_neg (by simp)] at hhelp
        refine Or.inr (Or.inr ⟨?_, ⟨hw', by simp [hsame, hasleep]⟩, ?_⟩)
        · rw [← Bool.not_eq_true, Driver.ofProc_iff]
          exact fun ho => hown ⟨ho, hasleep⟩
        · simp [remaining, hdist, hsame, hasleep]
      | true =>
        rw [if_pos hasleep] at hhelp
        rw [hasleep] at hsame
        by_cases hoh : o = some (.sched h)
        · subst hoh
          exact Or.inr (Or.inl ⟨h, helps_debtor hq w hw hhelp hasleep hk hw' hsame hdist⟩)
        · obtain ⟨howes, hdebt⟩ := hq.owes_tick hoh hk hhelp
          refine Or.inr (Or.inr ⟨?_, ⟨hw', by simpa [hsame] using howes⟩, ?_⟩)
          · rw [← Bool.not_eq_true, Driver.ofProc_iff]
            exact hoh
          · simp [remaining, hdist, hsame, hasleep, hdebt]
    · -- The waiter has been woken up.
      refine Or.inr (Or.inl ⟨p, ⟨hw', by simp [hawake]⟩, ?_⟩)
      simp only [remaining, hawake, hasleep, if_true, Bool.false_eq_true, if_false]
      omega

/-- Under a fair schedule, a process that waits while the side is ready returns, or a byte passes the
side. -/
theorem leadsTo (hq : Queue S risk owes wakes) (hc : S.Counts count)
    (w : Waiter S risk waits dist) (sched : ℕ → Option (Label β))
    (hfair : ∀ p, Fair (Driver.ofProc p) sched) (p : Pid) (N : ℕ) :
    LeadsTo (after Driver.tick Driver.init sched)
      (fun σ => waits (σ.procs p) ∧ S.Ready σ.ring ∧ count σ = N)
      (fun σ => (σ.procs p).free = true ∨ N < count σ) := by
  have hrun : LeadsTo (after Driver.tick Driver.init sched)
      (fun σ => ∃ h, Helps S risk owes count waits p N σ h)
      (fun σ => (σ.procs p).free = true ∨ N < count σ) :=
    leadsTo_of_helpful (A := fun _ => True) (M := remaining dist p)
      (fun σ o h _ hh => helps_tick hq hc w hh o) (fun _ => trivial) hfair
  intro n ⟨hwaits, hready, hcount⟩
  have hacc := Driver.after_tick (P := Driver.Accounted) (fun σ l h => h.step l)
    (Driver.run_accounted []) sched n
  have hcov := Driver.after_tick (P := fun σ => Covered S.Ready risk owes σ.ring σ.procs)
    (fun σ l h => hq.discipline.step h l) (hq.discipline.run []) sched n
  obtain ⟨h, hh, -⟩ := Waiting.exists_helps w ⟨hacc, hcov, hready, hcount, hwaits⟩
  exact hrun n ⟨h, hh⟩

end Waiter

end QrngDevice
