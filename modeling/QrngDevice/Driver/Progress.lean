import Mathlib.Data.Nat.Pairing
import QrngDevice.Driver.Waiters

/-!
# Waiting comes to an end

`Driver/Wakeup.lean` shows that no wake-up is lost. Here, under a schedule that is fair to every
process, it also arrives: while the ring is not empty, a process in a read returns or some byte is
taken (`read_progress`), and while the condition of a poll holds, the poll returns or some byte passes
that side of the ring (`poll_progress`). Each comes from a distance of the process to its goal.
-/

namespace QrngDevice

open Runs RingBuffer WaitQueue

variable {β : Type*} [Zero β]

/-! ## Reads -/

section

omit [Zero β]

/-- A bound on the steps of a read up to its next take or its return, while the ring is not empty. A
sleep leaves room for a debt, and so does a test on a stale cursor, after which the read may sleep. -/
def Proc.readDist (r : RingBuffer β) : Proc β → ℕ
  | .read _ .take => 1
  | .read _ (.testFlag _) => 2
  | .read _ .testCursor => 3
  | .read _ (.copy _) => 2
  | .read _ (.wakeRead _) => 3
  | .read _ (.wakeFlag _ _) => 4
  | .read _ (.wakeCursor _) => 5
  | .read _ (.wakePoll _) => 6
  | .read _ (.waitFlag _ k) => if k = r.qrngBuffReadIt then 2 else 10
  | .read _ (.waitCursor _) => 3
  | .read _ .waitJoin => 4
  | .read _ .asleep => 5
  | _ => 0

/-- The head of the loop is a take or a return. -/
theorem ReadCall.loop_cases (c : ReadCall β) : c.loop = .read c .take ∨ c.loop.free = true := by
  unfold ReadCall.loop
  split_ifs
  · exact Or.inl rfl
  · exact Or.inr rfl
  · exact Or.inr rfl

/-- A process in a read, or one that has returned from it. -/
theorem ReadPhase.isRead_or_free {nb : Bool} {buf : List β} {limit : ℕ} {P : Proc β} {xs : List β}
    (h : ReadPhase nb buf limit P xs) : P.isRead = true ∨ P.free = true := by
  cases h with
  | start hpc hnb hit hret hxs => exact Or.inl rfl
  | take hnb hit hlt hret => exact Or.inl rfl
  | held hpc hnb hit hlt hret hxs => exact Or.inl rfl
  | wait hpc hnb hblock hit hlt hret => exact Or.inl rfl
  | again hnb hit hxs => exact Or.inr rfl
  | short hnb hit hlt => exact Or.inr rfl
  | full hit hoff => exact Or.inr rfl
  | interrupted hnb hit hlt => exact Or.inr rfl

/-- A read into an accessible destination takes no more bytes than fit. -/
theorem ReadPhase.length_le {nb : Bool} {buf : List β} {limit : ℕ} {P : Proc β} {xs : List β}
    (h : ReadPhase nb buf limit P xs) (hlimit : buf.length ≤ limit) : xs.length ≤ buf.length := by
  cases h with
  | start hpc hnb hit hret hxs => simp [hxs]
  | take hnb hit hlt hret => exact hit.fits hlimit
  | held hpc hnb hit hlt hret hxs =>
    have hoff := (hit.take_eq hlimit).1
    rw [hxs, List.length_append, List.length_singleton]
    omega
  | wait hpc hnb hblock hit hlt hret => exact hit.fits hlimit
  | again hnb hit hxs => simp [hxs]
  | short hnb hit hlt => exact hit.fits hlimit
  | full hit hoff => exact hit.fits hlimit
  | interrupted hnb hit hlt => exact hit.fits hlimit

/-- A take moves the read cursor. -/
theorem RingBuffer.not_keeps_getRandomByte [Zero β] {r r' : RingBuffer β} {b : β}
    (h : r.getRandomByte = some (b, r')) : ¬ Side.inn.Keeps r r' := by
  intro hk
  unfold getRandomByte at h
  split_ifs at h
  simp only [Option.some.injEq, Prod.mk.injEq] at h
  have hcursor : (r.qrngBuffReadIt + 1) % 1024 = r.qrngBuffReadIt := by
    simpa [← h.2, Side.inn] using hk.cursor_eq
  omega

end

/-- A process in a read waits on `read_queue`. -/
theorem readWaiter : Waiter (Side.inn : Side β) (fun r P => P.RiskRead r)
    (fun P => P.isRead = true) Proc.readDist where
  not_free P h := by
    cases P with
    | read c pc => rfl
    | _ => cases h
  risk_of_asleep r P h hasleep := by
    cases P with
    | read c pc => cases pc <;> first | trivial
    | _ => cases h
  own r P hready h hasleep hk := by
    have hloop : ∀ c : ReadCall β, c.loop.free = true ∨ c.loop.isRead = true ∧
        c.loop.readDist r + c.loop.room < 2 := by
      intro c
      rcases c.loop_cases with heq | hfree
      · exact Or.inr (by simp [heq, Proc.isRead, Proc.readDist, Proc.room, Proc.asleep])
      · exact Or.inl hfree
    cases P with
    | read c pc =>
      cases pc with
      | take =>
        -- The ring is not empty, so this is the take.
        have hflag : r.readReady = true := hready
        have hget : r.getRandomByte = some _ := if_pos hflag
        refine absurd ?_ (not_keeps_getRandomByte hget)
        simpa only [Proc.step, ReadCall.step, hget] using hk
      | testFlag k =>
        simp only [Proc.step, ReadCall.step]
        split_ifs
        · exact Or.inl rfl
        · exact Or.inl rfl
        · exact hloop c
      | copy b => exact hloop _
      | wakeFlag b k =>
        simp only [Proc.step, ReadCall.step]
        split_ifs <;> exact Or.inr ⟨rfl, by simp [Proc.readDist, Proc.room, Proc.asleep]⟩
      | waitFlag w k =>
        simp only [Proc.step, ReadCall.step]
        split_ifs with hflag hsig
        · rcases hloop c with hfree | ⟨hr, hd⟩
          · exact Or.inl hfree
          · refine Or.inr ⟨hr, hd.trans_le ?_⟩
            simp only [Proc.readDist]
            split_ifs <;> decide
        · exact Or.inl rfl
        · have hk' : k ≠ r.qrngBuffReadIt := fun heq => hflag (heq ▸ hready)
          exact Or.inr ⟨rfl, by simp [Proc.readDist, Proc.room, Proc.asleep, hk']⟩
        · have hk' : k ≠ r.qrngBuffReadIt := fun heq => hflag (heq ▸ hready)
          exact Or.inr ⟨rfl, by simp [Proc.readDist, Proc.room, Proc.asleep, hk']⟩
      | asleep => cases hasleep
      | _ =>
        exact Or.inr ⟨rfl, by
          simp [Proc.step, ReadCall.step, Proc.readDist, Proc.room, Proc.asleep]⟩
    | _ => cases h
  nudge r r' P P' hk hn h := by
    refine ⟨hn.kind.1.trans h, ?_⟩
    have hcursor : r'.qrngBuffReadIt = r.qrngBuffReadIt := hk.cursor_eq
    cases P with
    | read c pc =>
      cases hn with
      | woken wr wp =>
        cases wr <;> cases wp <;> cases pc <;>
          simp [Proc.woken, Proc.wokenRead, Proc.wokenPoll, Proc.asleep, Proc.readDist, hcursor]
      | signalled => cases pc <;> simp [Proc.signalled, Proc.asleep, Proc.readDist, hcursor]
    | _ => cases h

/-! ## Polls -/

section

omit [Zero β]

/-- The process is in a poll that asks for the event `ev`. -/
def Proc.pollsFor (ev : PollMask → Bool) : Proc β → Bool
  | .poll c _ => ev c.events
  | _ => false

/-- A bound on the steps of a poll for `POLLIN` up to its return, while the ring is not empty. -/
def Proc.pollInDist (r : RingBuffer β) : Proc β → ℕ
  | .poll _ .register => 5
  | .poll _ .outCursor => 4
  | .poll _ (.outFlag _) => 3
  | .poll _ .inCursor => 2
  | .poll _ (.inFlag k) => if k = r.qrngBuffReadIt then 1 else 10
  | .poll _ .asleep => 5
  | _ => 0

/-- A bound on the steps of a poll for `EPOLLOUT` up to its return, while the ring is not full. -/
def Proc.pollOutDist (r : RingBuffer β) : Proc β → ℕ
  | .poll _ .register => 5
  | .poll _ .outCursor => 4
  | .poll _ (.outFlag k) => if k = r.qrngBuffWriteIt then 3 else 12
  | .poll c .inCursor => if c.res.epollout then 2 else 11
  | .poll c (.inFlag _) => if c.res.epollout then 1 else 10
  | .poll _ .asleep => 5
  | _ => 0

/-- The end of `qrng_poll` returns, or it has found nothing that is asked for, and the poll evaluates
again or goes to sleep. -/
theorem PollCall.inFlag_goes_on (c : PollCall) (r : RingBuffer β) (k : ℕ) :
    (c.step r (.inFlag k)).proc.free = true ∨
      (c.res.epollout && c.events.epollout) = false ∧
        (r.qrngBuffReady k && c.events.pollin) = false ∧
        ∃ t pc, (c.step r (.inFlag k)).proc = .poll { c with triggered := t } pc ∧
          (pc = .outCursor ∨ pc = .asleep) := by
  simp only [PollCall.step]
  split_ifs with hrev hsig htrig
  · exact Or.inl rfl
  · exact Or.inl rfl
  · have hnone := not_not.mp hrev
    refine Or.inr ⟨congrArg PollMask.epollout hnone, congrArg PollMask.pollin hnone, ?_⟩
    exact ⟨false, .outCursor, rfl, Or.inl rfl⟩
  · have hnone := not_not.mp hrev
    refine Or.inr ⟨congrArg PollMask.epollout hnone, congrArg PollMask.pollin hnone, ?_⟩
    exact ⟨c.triggered, .asleep, rfl, Or.inr rfl⟩

/-- What others do to a process in a poll, for a distance that does not depend on `triggered` and on
the pending signal: they leave it where it is, or wake it up. -/
theorem Proc.Nudge.pollsFor {ev : PollMask → Bool} {d d' : Proc β → ℕ} {P P' : Proc β}
    (hn : P.Nudge P') (h : P.pollsFor ev = true)
    (hd : ∀ c t s pc, d' (.poll { c with triggered := t, sig := s } pc) = d (.poll c pc))
    (hwake : ∀ c, d (.poll c .outCursor) < d (.poll c .asleep)) :
    P'.pollsFor ev = true ∧ (P'.asleep = P.asleep ∧ d' P' = d P ∨
      P.asleep = true ∧ P'.asleep = false ∧ d' P' < d P) := by
  cases P with
  | poll c pc =>
    obtain ⟨t, s, pc', rfl, rfl | ⟨rfl, rfl⟩⟩ := hn.poll
    · refine ⟨h, Or.inl ⟨?_, hd c t s pc'⟩⟩
      cases pc' <;> rfl
    · exact ⟨h, Or.inr ⟨rfl, rfl, (hd c t s _).trans_lt (hwake c)⟩⟩
  | _ => cases h

/-- A process in a poll is in a call, and not asleep but in its sleep. -/
theorem Proc.pollsFor_cases {ev : PollMask → Bool} {P : Proc β} (h : P.pollsFor ev = true) :
    ∃ c pc, P = .poll c pc ∧ ev c.events = true := by
  cases P with
  | poll c pc => exact ⟨c, pc, rfl, h⟩
  | _ => cases h

end

/-- A process in a poll for `POLLIN` waits on `poll_queue`. -/
theorem pollInWaiter : Waiter (Side.inn : Side β) (fun r P => P.RiskIn r)
    (fun P => P.pollsFor PollMask.pollin = true) Proc.pollInDist where
  not_free P h := by
    obtain ⟨c, pc, rfl, -⟩ := Proc.pollsFor_cases h
    rfl
  risk_of_asleep r P h hasleep := by
    obtain ⟨c, pc, rfl, hev⟩ := Proc.pollsFor_cases h
    cases pc <;> first | exact hev | cases hasleep
  own r P hready h hasleep hk := by
    obtain ⟨c, pc, rfl, hev⟩ := Proc.pollsFor_cases h
    cases pc with
    | inFlag k =>
      rcases c.inFlag_goes_on r k with hfree | ⟨-, hflag, t, pc', heq, hpc'⟩
      · exact Or.inl hfree
      · -- It has found nothing, so its cursor was stale.
        have hk' : k ≠ r.qrngBuffReadIt := by
          rintro rfl
          have hready' : r.qrngBuffReady r.qrngBuffReadIt = true := hready
          simp [hready', hev] at hflag
        refine Or.inr ?_
        simp only [Proc.step, heq]
        rcases hpc' with rfl | rfl
        · exact ⟨hev, by simp [Proc.pollInDist, Proc.room, Proc.asleep, hk']⟩
        · exact ⟨hev, by simp [Proc.pollInDist, Proc.room, Proc.asleep, hk']⟩
    | asleep => cases hasleep
    | _ =>
      exact Or.inr ⟨hev, by
        simp [Proc.step, PollCall.step, Proc.pollInDist, Proc.room, Proc.asleep]⟩
  nudge r r' P P' hk hn h := by
    have hcursor : r'.qrngBuffReadIt = r.qrngBuffReadIt := hk.cursor_eq
    refine hn.pollsFor h (fun c t s pc => ?_) fun c => by simp [Proc.pollInDist]
    cases pc <;> simp [Proc.pollInDist, hcursor]

/-- A process in a poll for `EPOLLOUT` waits on `poll_queue`. -/
theorem pollOutWaiter : Waiter (Side.out : Side β) (fun r P => P.RiskOut r)
    (fun P => P.pollsFor PollMask.epollout = true) Proc.pollOutDist where
  not_free P h := by
    obtain ⟨c, pc, rfl, -⟩ := Proc.pollsFor_cases h
    rfl
  risk_of_asleep r P h hasleep := by
    obtain ⟨c, pc, rfl, hev⟩ := Proc.pollsFor_cases h
    cases pc <;> first | exact hev | cases hasleep
  own r P hready h hasleep hk := by
    obtain ⟨c, pc, rfl, hev⟩ := Proc.pollsFor_cases h
    cases pc with
    | outFlag k =>
      refine Or.inr ⟨hev, ?_⟩
      by_cases hk' : k = r.qrngBuffWriteIt
      · -- The test on the current cursor finds the free slot.
        have hflag : r.qrngBuffReady r.qrngBuffWriteIt = false := hready
        simp [Proc.step, PollCall.step, Proc.pollOutDist, Proc.room, Proc.asleep, hk', hflag]
      · simp only [Proc.step, PollCall.step, Proc.pollOutDist, Proc.room, Proc.asleep, hk', if_false]
        split_ifs <;> simp_all
    | inCursor =>
      refine Or.inr ⟨hev, ?_⟩
      simp only [Proc.step, PollCall.step, Proc.pollOutDist, Proc.room, Proc.asleep]
      split_ifs <;> simp_all
    | inFlag k =>
      rcases c.inFlag_goes_on r k with hfree | ⟨hres, -, t, pc', heq, hpc'⟩
      · exact Or.inl hfree
      · have hres' : c.res.epollout = false := by simpa [hev] using hres
        refine Or.inr ?_
        simp only [Proc.step, heq]
        rcases hpc' with rfl | rfl
        · exact ⟨hev, by simp [Proc.pollOutDist, Proc.room, Proc.asleep, hres']⟩
        · exact ⟨hev, by simp [Proc.pollOutDist, Proc.room, Proc.asleep, hres']⟩
    | asleep => cases hasleep
    | _ =>
      exact Or.inr ⟨hev, by
        simp [Proc.step, PollCall.step, Proc.pollOutDist, Proc.room, Proc.asleep]⟩
  nudge r r' P P' hk hn h := by
    have hcursor : r'.qrngBuffWriteIt = r.qrngBuffWriteIt := hk.cursor_eq
    refine hn.pollsFor h (fun c t s pc => ?_) fun c => by simp [Proc.pollOutDist]
    cases pc <;> simp [Proc.pollOutDist, hcursor]

/-! ## The guarantees -/

namespace Driver

/-- A schedule of labels is a schedule in which nobody else moves. -/
theorem after_tick_some (sched : ℕ → Label β) (n : ℕ) :
    after tick init (fun n => some (sched n)) n = after step init sched n := by
  induction n with
  | zero => rfl
  | succ n ih => rw [after_succ, after_succ, ih]; rfl

/-- In every reachable state, the readers' side is ready exactly if the ring is not empty, and the
writers' side exactly if it is not full. -/
theorem Accounted.ready_iff {σ : Driver β} (h : σ.Accounted) :
    (Side.inn.Ready σ.ring ↔ σ.ring.contents ≠ []) ∧
      (Side.out.Ready σ.ring ↔ σ.ring.contents.length < BUFF_SIZE) := by
  obtain ⟨q, hrep, -⟩ := h
  rw [hrep.contents_eq, ← hrep.readReady_iff, ← hrep.writeReady_iff]
  simp [Side.Ready, Side.inn, Side.out, readReady, writeReady]

/-- The number of bytes in the ring is that of the bytes appended and not taken, and at most
`BUFF_SIZE`. -/
theorem Accounted.length_eq {σ : Driver β} (h : σ.Accounted) :
    σ.appended.length = σ.taken.length + σ.ring.contents.length ∧
      σ.ring.contents.length ≤ BUFF_SIZE := by
  obtain ⟨q, hrep, hcons⟩ := h
  have hlen := congrArg List.length hcons
  rw [List.length_append, List.length_map, List.length_map] at hlen
  rw [hrep.contents_eq]
  exact ⟨hlen.symm, hrep.holds.length_le⟩

/-- What `Waiter.leadsTo` says of a schedule of labels. -/
theorem leadsTo_of_waiter {S : Side β} {risk owes : RingBuffer β → Proc β → Prop}
    {wakes : Proc β → Bool} {count : Driver β → ℕ} {waits : Proc β → Prop}
    {dist : RingBuffer β → Proc β → ℕ} (hq : Queue S risk owes wakes) (hc : S.Counts count)
    (w : Waiter S risk waits dist) {sched : ℕ → Label β}
    (hfair : ∀ p, Fair (Label.isSched p) sched) (p : Pid) (N : ℕ) :
    LeadsTo (after step init sched) (fun σ => waits (σ.procs p) ∧ S.Ready σ.ring ∧ count σ = N)
      (fun σ => (σ.procs p).free = true ∨ N < count σ) := by
  have hall := Waiter.leadsTo hq hc w (fun n => some (sched n)) hfair p N
  intro n hn
  rw [← after_tick_some] at hn
  obtain ⟨m, hnm, hm⟩ := hall n hn
  exact ⟨m, hnm, by rwa [after_tick_some] at hm⟩

variable {sched : ℕ → Label β}

/-- No reader waits for good on a ring that is not empty. Under a schedule that lets every process make
its next step again and again, for any calls and signals in between: if a process is in a read, at
whatever point of it, and the ring is not empty, then the read returns, or some byte is taken. -/
theorem read_progress (hfair : ∀ p, Fair (Label.isSched p) sched) (p : Pid) (N : ℕ) :
    LeadsTo (after step init sched)
      (fun σ => (σ.procs p).isRead = true ∧ σ.ring.contents ≠ [] ∧ σ.taken.length = N)
      (fun σ => (σ.procs p).free = true ∨ N < σ.taken.length) := by
  refine LeadsTo.of_always (I := Accounted) (fun n => ?_)
    ((leadsTo_of_waiter readQueue Side.inn_counts readWaiter hfair p N).mono ?_ fun _ h => h)
  · exact after_invariant (A := fun _ => True) (fun σ l _ h => h.step l) (fun _ => trivial)
      (run_accounted []) n
  · rintro σ ⟨hacc, hread, hne, hcount⟩
    exact ⟨hread, hacc.ready_iff.1.mpr hne, hcount⟩

/-- No poller waits for good while its condition holds. Under such a schedule, if a process is in a poll
for `POLLIN`, at whatever point of it, and the ring is not empty, then the poll returns, or some byte is
taken; and if it is in a poll for `EPOLLOUT` and the ring is not full, then the poll returns, or some
byte is appended. -/
theorem poll_progress (hfair : ∀ p, Fair (Label.isSched p) sched) (p : Pid) (N : ℕ) :
    LeadsTo (after step init sched)
        (fun σ => (σ.procs p).pollsFor PollMask.pollin = true ∧ σ.ring.contents ≠ [] ∧
          σ.taken.length = N)
        (fun σ => (σ.procs p).free = true ∨ N < σ.taken.length) ∧
      LeadsTo (after step init sched)
        (fun σ => (σ.procs p).pollsFor PollMask.epollout = true ∧
          σ.ring.contents.length < BUFF_SIZE ∧ σ.appended.length = N)
        (fun σ => (σ.procs p).free = true ∨ N < σ.appended.length) := by
  have hacc : ∀ n, Accounted (after step init sched n) := fun n =>
    after_invariant (A := fun _ => True) (fun σ l _ h => h.step l) (fun _ => trivial)
      (run_accounted []) n
  refine ⟨LeadsTo.of_always hacc ?_, LeadsTo.of_always hacc ?_⟩
  · refine (leadsTo_of_waiter pollInQueue Side.inn_counts pollInWaiter hfair p N).mono ?_
      fun _ h => h
    rintro σ ⟨hacc, hpoll, hne, hcount⟩
    exact ⟨hpoll, hacc.ready_iff.1.mpr hne, hcount⟩
  · refine (leadsTo_of_waiter pollOutQueue Side.out_counts pollOutWaiter hfair p N).mono ?_
      fun _ h => h
    rintro σ ⟨hacc, hpoll, hlt, hcount⟩
    exact ⟨hpoll, hacc.ready_iff.2.mpr hlt, hcount⟩

/-- The labels `ls`, and then steps of all processes, each again and again. -/
def thenAll (ls : List (Label β)) (n : ℕ) : Label β := ls.getD n (.sched n.unpair.1)

omit [Zero β] in
/-- This schedule is fair to everyone. -/
theorem thenAll_fair (ls : List (Label β)) (p : Pid) : Fair (Label.isSched p) (thenAll ls) := by
  intro n
  refine ⟨Nat.pair p (n + ls.length), ?_, ?_⟩
  · exact (Nat.le_add_right _ _).trans (Nat.right_le_pair _ _)
  · have hle : ls.length ≤ Nat.pair p (n + ls.length) :=
      (Nat.le_add_left _ _).trans (Nat.right_le_pair _ _)
    simp [thenAll, List.getElem?_eq_none hle, Label.isSched]

/-- The theorem for the reader of `sleeperAndWriter`, which is asleep when a byte comes. -/
theorem read_progress_sleeper : ∃ m, 12 ≤ m ∧
    (((after step (init : Driver UInt8) (thenAll sleeperAndWriter) m).procs 0).free = true ∨
      0 < (after step (init : Driver UInt8) (thenAll sleeperAndWriter) m).taken.length) :=
  read_progress (thenAll_fair sleeperAndWriter) 0 0 12
    ⟨rfl, (Driver.run_represents sleeperAndWriter).readReady_iff.mp rfl, rfl⟩

/-- The theorem for the poller of `pollerAndWriter`, which is asleep when a byte comes, and for a poll
for `EPOLLOUT` on the empty ring. -/
theorem poll_progress_sleeper :
    (∃ m, 11 ≤ m ∧
      (((after step (init : Driver UInt8) (thenAll pollerAndWriter) m).procs 0).free = true ∨
        0 < (after step (init : Driver UInt8) (thenAll pollerAndWriter) m).taken.length)) ∧
      ∃ m, 1 ≤ m ∧
        (((after step (init : Driver UInt8) (thenAll [.call 0 (.poll ⟨true, false, false⟩)]) m).procs
            0).free = true ∨
          0 < (after step (init : Driver UInt8)
            (thenAll [.call 0 (.poll ⟨true, false, false⟩)]) m).appended.length) :=
  ⟨(poll_progress (thenAll_fair pollerAndWriter) 0 0).1 11
      ⟨rfl, (Driver.run_represents pollerAndWriter).readReady_iff.mp rfl, rfl⟩,
    (poll_progress (thenAll_fair [.call 0 (.poll ⟨true, false, false⟩)]) 0 0).2 1
      ⟨rfl, (Driver.run_represents [.call 0 (.poll ⟨true, false, false⟩)]).writeReady_iff.mp rfl,
        rfl⟩⟩

/-! ## Reads come to an end -/

/-- The bytes taken and appended are never fewer. -/
theorem length_tick (σ : Driver β) (o : Option (Label β)) :
    σ.taken.length ≤ (σ.tick o).taken.length ∧ σ.appended.length ≤ (σ.tick o).appended.length := by
  cases o with
  | none => exact ⟨le_rfl, le_rfl⟩
  | some l =>
    cases l with
    | call p c =>
      simp only [tick, step]
      split_ifs <;> exact ⟨le_rfl, le_rfl⟩
    | signal p => exact ⟨le_rfl, le_rfl⟩
    | sched p => simp [tick, step, sched]

/-- What describes a call stays true while the process is in it. -/
theorem InCall.tick {Φ : Proc β → List β → List β → Prop} (hΦ : CallInvariant Φ) {p : Pid}
    {σ₀ σ : Driver β} (h : InCall Φ p σ₀ σ) (hbusy : (σ.procs p).free = false)
    (o : Option (Label β)) : InCall Φ p σ₀ (σ.tick o) := by
  cases o with
  | none => exact h
  | some l =>
    by_cases hkeep : l.KeepsCall p
    · exact hΦ.step σ l hkeep h
    · -- The process cannot enter another call.
      cases l with
      | call q c =>
        obtain rfl : q = p := not_not.mp hkeep
        simp only [Driver.tick, step, hbusy, Bool.false_eq_true, if_false]
        exact h
      | sched q => exact absurd trivial hkeep
      | signal q => exact absurd trivial hkeep

/-- A process in a read stays in it until it returns. -/
theorem isRead_tick {σ : Driver β} {p : Pid} (h : (σ.procs p).isRead = true) (o : Option (Label β)) :
    ((σ.tick o).procs p).isRead = true ∨ ((σ.tick o).procs p).free = true := by
  cases hP : σ.procs p with
  | read c pc =>
    by_cases hown : o = some (.sched p)
    · subst hown
      rw [show (σ.tick (some (.sched p))).procs p = _ from sched_procs_self σ p, hP]
      rcases c.step_proc σ.ring pc with ⟨c', pc', heq, -⟩ | ⟨v, it, heq⟩
      · simp [Proc.step, heq, Proc.isRead]
      · simp [Proc.step, heq, Proc.free]
    · have hn := tick_nudge (p := p) (by rw [hP]; rfl) hown
      exact Or.inl (hn.kind.1.trans h)
  | _ =>
    rw [hP] at h
    cases h

section

variable {sched : ℕ → Option (Label β)} (hfair : ∀ p, Fair (ofProc p) sched)
  (hfed : ∀ N, LeadsTo (after tick init sched)
    (fun σ => σ.ring.contents = [] ∧ σ.appended.length = N) (fun σ => N < σ.appended.length))

include hfair hfed

/-- If an empty ring is always refilled, a process in a read returns or some byte is taken. -/
theorem fed_read_progress (p : Pid) (N : ℕ) :
    LeadsTo (after tick init sched)
      (fun σ => (σ.procs p).isRead = true ∧ σ.taken.length = N)
      (fun σ => (σ.procs p).free = true ∨ N < σ.taken.length) := by
  have hacc : ∀ n, (after tick init sched n).Accounted :=
    after_tick (P := Accounted) (fun σ l h => h.step l) (run_accounted []) sched
  have hlen := fun n => (hacc n).length_eq.1
  have hread := Waiter.leadsTo readQueue Side.inn_counts readWaiter sched hfair p
  -- While the read waits for the next byte, it stays a read, and nothing is untaken.
  have hwait := (hfed N).while_stable (R := fun σ => (σ.procs p).free = true)
    (J := fun σ => (σ.procs p).isRead = true ∧ N ≤ σ.taken.length) fun n hn _ => by
      rcases isRead_tick hn.1 (sched n) with hread' | hfree
      · exact Or.inl ⟨hread', hn.2.trans (length_tick _ _).1⟩
      · exact Or.inr hfree
  have hnonempty : LeadsTo (after tick init sched)
      (fun σ => ((σ.procs p).isRead = true ∧ N ≤ σ.taken.length) ∧ N < σ.appended.length)
      (fun σ => (σ.procs p).free = true ∨ N < σ.taken.length) := by
    rintro n ⟨⟨hr, hle⟩, hlt⟩
    rcases hle.lt_or_eq with htaken | htaken
    · exact ⟨n, le_rfl, Or.inr htaken⟩
    · have hne : (after tick init sched n).ring.contents ≠ [] := by
        have := hlen n
        exact List.ne_nil_of_length_pos (by omega)
      exact hread N n ⟨hr, (hacc n).ready_iff.1.mpr hne, htaken.symm⟩
  rintro n ⟨hr, htaken⟩
  have hlen' := hlen n
  by_cases hempty : (after tick init sched n).ring.contents = []
  · rw [hempty, htaken] at hlen'
    obtain ⟨m, hnm, ⟨hlt, hJ⟩ | hfree⟩ := hwait n ⟨⟨hempty, hlen'⟩, hr, htaken.ge⟩
    · obtain ⟨m', hmm', hm'⟩ := hnonempty m ⟨hJ, hlt⟩
      exact ⟨m', hnm.trans hmm', hm'⟩
    · exact ⟨m, hnm, Or.inl hfree⟩
  · have := List.length_pos_iff.mpr hempty
    exact hnonempty n ⟨⟨hr, htaken.ge⟩, by omega⟩

/-- If moreover all others take no more than `B` bytes, a read into an accessible destination
returns. -/
theorem fed_read_returns {p : Pid} {nb : Bool} {buf : List β} {limit : ℕ} (hlimit : buf.length ≤ limit)
    {B : ℕ} (hothers : ∀ n, (after tick init sched n).taken.length ≤
      ((after tick init sched n).takenBy p).length + B) (σ₀ : Driver β) :
    LeadsTo (after tick init sched) (InCall (fun P xs _ => ReadPhase nb buf limit P xs) p σ₀)
      (fun σ => InCall (fun P xs _ => ReadPhase nb buf limit P xs) p σ₀ σ ∧
        (σ.procs p).free = true) := by
  have hbound : ∀ n, InCall (fun P xs _ => ReadPhase nb buf limit P xs) p σ₀
      (after tick init sched n) →
      (after tick init sched n).taken.length ≤ (σ₀.takenBy p).length + buf.length + B := by
    intro n h
    obtain ⟨xs, -, hphase, htaken, -⟩ := h.phase
    have hle := hphase.length_le hlimit
    have := hothers n
    rw [htaken, List.length_append] at this
    omega
  -- Until it returns, the read lets the bound on the bytes taken come closer.
  refine LeadsTo.induction
    (M := fun σ => (σ₀.takenBy p).length + buf.length + B - σ.taken.length) fun k => ?_
  rintro n ⟨hcall, hk⟩
  obtain ⟨xs, -, hphase, -, -⟩ := hcall.phase
  rcases hphase.isRead_or_free with hread | hfree
  · obtain ⟨m, hnm, ⟨hgoal, hcall'⟩ | hR⟩ :=
      ((fed_read_progress hfair hfed p _).while_stable (R := fun _ => False)
        (J := InCall (fun P xs _ => ReadPhase nb buf limit P xs) p σ₀) fun n hn hgoal => Or.inl
          (hn.tick (readPhases nb buf limit) (by simpa using (not_or.mp hgoal).1) (sched n)))
      n ⟨⟨hread, rfl⟩, hcall⟩
    · rcases hgoal with hfree | hlt
      · exact ⟨m, hnm, Or.inl ⟨hcall', hfree⟩⟩
      · have := hbound m hcall'
        exact ⟨m, hnm, Or.inr ⟨hcall', by omega⟩⟩
    · exact hR.elim
  · exact ⟨n, le_rfl, Or.inl ⟨hcall, hfree⟩⟩

end

end Driver

end QrngDevice
