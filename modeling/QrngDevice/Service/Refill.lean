import Mathlib.Order.Lattice.Nat
import QrngDevice.Service.Schedules

/-!
# The service refills the ring

Under a schedule that lets the service and every process make its next step again and again, the ring
does not stay short of bytes: whenever it is not full, the service appends another byte later
(`appended_grows`). So the service never stalls: it appends bytes without end, or the ring is full from
some point on (`refills`). The argument follows the service once around its loop. It comes out of the poll that it is
in, since the ring is not full (`Driver/Waiters.lean`), and out of the `write` that it is in, since a
write returns. The next poll that it enters finds the free slot and reports it, whatever signals come
(`Proc.WillReport`), and the `write` after it appends at least one byte (`Driver/Poll.lean`).
-/

namespace QrngDevice

open Runs RingBuffer

/-! ## A poll that finds the free slot -/

section

variable {β : Type*}

/-- A poll for `EPOLLOUT` that will report a free slot, or has reported it. -/
def Proc.WillReport (r : RingBuffer β) : Proc β → Prop
  | .poll c .register => c.events.epollout = true ∧ Side.out.Ready r
  | .poll c .outCursor => c.events.epollout = true ∧ Side.out.Ready r
  | .poll c (.outFlag k) => c.events.epollout = true ∧ k = r.qrngBuffWriteIt ∧ Side.out.Ready r
  | .poll c .inCursor => c.events.epollout = true ∧ c.res.epollout = true
  | .poll c (.inFlag _) => c.events.epollout = true ∧ c.res.epollout = true
  | .returned (.poll (some revents)) => revents.epollout = true
  | _ => False

/-- It stays so while its process is the only writer. -/
theorem willReport_stable [Zero β] : (Side.out : Side β).Stable fun r P => P.WillReport r where
  own r P h := by
    rcases P with _ | ⟨c, pc⟩ | ⟨c, pc⟩ | ⟨c, pc⟩ | res
    · exact h.elim
    · exact h.elim
    · exact h.elim
    · cases pc with
      | register => exact h
      -- The cursor just loaded is the current one.
      | outCursor => exact ⟨h.1, rfl, h.2⟩
      | outFlag k =>
        obtain ⟨hev, rfl, hready⟩ := h
        refine ⟨hev, ?_⟩
        have hflag : r.qrngBuffReady r.qrngBuffWriteIt = false := hready
        simp [hflag]
      | inCursor => exact h
      | inFlag k =>
        -- `EPOLLOUT` is asked for and was found, so the events are not empty and the poll returns.
        have hne : PollMask.inter { c.res with
            pollin := r.qrngBuffReady k, epollrdnorm := r.qrngBuffReady k } c.events ≠ .none := by
          intro heq
          have hout := congrArg PollMask.epollout heq
          simp [PollMask.inter, PollMask.none, h.1, h.2] at hout
        simp only [Proc.step, PollCall.step, if_pos hne]
        simp [Proc.WillReport, PollMask.inter, h.1, h.2]
      | asleep => exact h.elim
    · exact h
  other r r' P P' hkeeps hn h := by
    rcases P with _ | ⟨c, pc⟩ | ⟨c, pc⟩ | ⟨c, pc⟩ | res
    · exact h.elim
    · exact h.elim
    · exact h.elim
    · obtain ⟨t, s, pc', rfl, rfl | ⟨rfl, rfl⟩⟩ := hn.poll
      · cases pc' with
        | register => exact ⟨h.1, hkeeps.readyAt h.2⟩
        | outCursor => exact ⟨h.1, hkeeps.readyAt h.2⟩
        -- Other processes take bytes, which leaves the write cursor where it is, and the slot there
        -- free.
        | outFlag k => exact ⟨h.1, h.2.1.trans hkeeps.cursor_eq.symm, hkeeps.readyAt h.2.2⟩
        | inCursor => exact h
        | inFlag k => exact h
        | asleep => exact h.elim
      · exact h.elim
    · rw [hn.returned]
      rcases res with _ | _ | (_ | revents)
      · exact h
      · exact h
      · exact h
      · exact h

/-- Such a poll reports it when it returns. -/
theorem Proc.WillReport.returned {r : RingBuffer β} {P : Proc β} (h : P.WillReport r)
    (hfree : P.free = true) :
    ∃ revents, P = .returned (.poll (some revents)) ∧ revents.epollout = true := by
  rcases P with _ | _ | _ | _ | (_ | _ | (_ | revents))
  · exact h.elim
  · exact h.elim
  · exact h.elim
  · cases hfree
  · exact h.elim
  · exact h.elim
  · exact h.elim
  · exact ⟨revents, rfl, h⟩

/-- A process that is not in its poll any more has returned from it. -/
theorem Proc.returned_of_isPoll {P : Proc β} (h : P.isPoll = true) (hfree : P.free = true) :
    ∃ revents, P = .returned (.poll revents) := by
  rcases P with _ | _ | _ | _ | (_ | _ | revents)
  · cases h
  · cases h
  · cases h
  · cases hfree
  · cases h
  · cases h
  · exact ⟨revents, rfl⟩

/-- A poll goes on with the same events. -/
theorem PollCall.step_events {c c' : PollCall} {r : RingBuffer β} {pc pc' : PollPc}
    (h : (c.step r pc).proc = .poll c' pc') : c'.events = c.events := by
  cases pc with
  | inFlag k =>
    simp only [PollCall.step] at h
    split_ifs at h <;> simp_all
    rw [← h.1]
  | _ =>
    simp only [PollCall.step, Proc.poll.injEq] at h
    rw [← h.1]

/-- If the process is in a poll, it asks for the events `ev`. -/
def Proc.Asks (ev : PollMask) : Proc β → Prop
  | .poll c _ => c.events = ev
  | _ => True

/-- Its own steps keep this. -/
theorem Proc.Asks.step [Zero β] {ev : PollMask} {P : Proc β} (h : P.Asks ev) (r : RingBuffer β) :
    (P.step r).proc.Asks ev := by
  rcases P with _ | ⟨c, pc⟩ | ⟨c, pc⟩ | ⟨c, pc⟩ | res
  · trivial
  · rcases c.step_proc r pc with ⟨c', pc', heq, -⟩ | ⟨v, it, heq⟩
    · simp [Proc.step, heq, Proc.Asks]
    · simp [Proc.step, heq, Proc.Asks]
  · rcases (c.step_proc r pc).1 with ⟨c', pc', heq⟩ | ⟨v, it, heq⟩
    · simp [Proc.step, heq, Proc.Asks]
    · simp [Proc.step, heq, Proc.Asks]
  · rcases (c.step_proc r pc).1 with ⟨c', pc', heq⟩ | ⟨e, heq⟩
    · simp only [Proc.step, heq]
      exact (PollCall.step_events heq).trans h
    · simp [Proc.step, heq, Proc.Asks]
  · trivial

/-- Others keep it. -/
theorem Proc.Asks.nudge {ev : PollMask} {P P' : Proc β} (h : P.Asks ev) (hn : P.Nudge P') :
    P'.Asks ev := by
  rcases P with _ | ⟨c, pc⟩ | ⟨c, pc⟩ | ⟨c, pc⟩ | res
  · rw [hn.idle]
    trivial
  · obtain ⟨s, pc', rfl, -⟩ := hn.read
    trivial
  · rw [hn.write]
    trivial
  · obtain ⟨t, s, pc', rfl, -⟩ := hn.poll
    exact h
  · rw [hn.returned]
    trivial

end

variable {β G : Type} [Zero β]

namespace QrngSystem

variable {rng : RNG β G} {σ : QrngSystem β G}

/-! ## A ring that is not full -/

/-- What no call of the service is keeps the events that it asks for. -/
theorem asks_label {ev : PollMask} (h : (σ.driver.procs SERVICE).Asks ev) {l : Label β}
    (hl : l.KeepsCall SERVICE) : ((σ.driver.step l).procs SERVICE).Asks ev := by
  by_cases hown : l = .sched SERVICE
  · subst hown
    rw [Driver.step, Driver.sched_procs_self]
    exact h.step _
  · exact h.nudge (Driver.step_nudge σ.driver hl hown)

/-- The polls of the service ask for `POLLOUT`. -/
theorem asks_step (rng : RNG β G) (h : (σ.driver.procs SERVICE).Asks POLLOUT) (e : Event β) :
    ((σ.step rng e).driver.procs SERVICE).Asks POLLOUT := by
  cases he : isMain e with
  | false =>
    obtain ⟨l, hl, heq⟩ := step_of_not_isMain rng σ he
    rw [heq]
    exact asks_label h (label_leaves hl).1
  | true =>
    -- The only poll that the service enters is for `POLLOUT`.
    have hcall : ∀ c : Call β, (Proc.start c).Asks POLLOUT →
        ((σ.driver.step (.call SERVICE c)).procs SERVICE).Asks POLLOUT := by
      intro c hc
      simp only [Driver.step]
      split_ifs
      · simpa using hc
      · exact h
    rw [step_driver]
    cases e with
    | main =>
      simp only [driverLabel]
      cases σ.pc with
      | poll => exact hcall _ rfl
      | write => exact hcall _ trivial
      | _ => exact h
    | _ => cases he

/-- After `N` bytes have been appended, the ring is not full. -/
structure Hungry (drawn : G → Set β) (N : ℕ) (σ : QrngSystem β G) : Prop where
  /-- The invariant. -/
  invariant : σ.Invariant drawn
  /-- The service polls for `POLLOUT`. -/
  asks : (σ.driver.procs SERVICE).Asks POLLOUT
  /-- The slot under the write cursor is free. -/
  ready : Side.out.Ready σ.driver.ring
  /-- The bytes appended. -/
  count_eq : σ.driver.appended.length = N

/-- After more than `N` bytes have been appended. -/
def Grown (N : ℕ) (σ : QrngSystem β G) : Prop := N < σ.driver.appended.length

variable {drawn : G → Set β} {N : ℕ}

/-- Every event appends something or leaves the ring short of it. -/
theorem Hungry.step (hfresh : rng.Fresh drawn REQUEST_SIZE) (h : σ.Hungry drawn N) (e : Event β) :
    (σ.step rng e).Grown N ∨ (σ.step rng e).Hungry drawn N := by
  have hkeep : N < (σ.step rng e).driver.appended.length ∨
      (σ.step rng e).driver.appended.length = N ∧
        Side.out.Keeps σ.driver.ring (σ.step rng e).driver.ring := by
    rw [step_driver]
    cases σ.driverLabel e with
    | none => exact Or.inr ⟨h.count_eq, .refl _ _⟩
    | some l =>
      rcases Side.out_counts.step σ.driver l h.invariant.driver_run.facts.1 with hlt | ⟨hcount, hk⟩
      · exact Or.inl (h.count_eq ▸ hlt)
      · exact Or.inr ⟨hcount.trans h.count_eq, hk⟩
  refine hkeep.imp_right fun ⟨hcount, hk⟩ => ?_
  exact ⟨h.invariant.step hfresh e, asks_step rng h.asks e, hk.readyAt h.ready, hcount⟩

/-! ## Once around the loop of the service -/

/-- A write of the service that has returned. -/
theorem Hungry.returned (h : σ.Hungry drawn N) (hpc : σ.pc = .written)
    (hfree : (σ.driver.procs SERVICE).free = true) :
    ∃ ret it, σ.driver.procs SERVICE = .returned (.write ret it) := by
  have hat := h.invariant.at_pc
  simp only [AtPc, hpc] at hat
  obtain ⟨xs, hphase, -⟩ := hat.1.phase
  refine hphase.returned ?_
  cases hP : σ.driver.procs SERVICE with
  | write c pc =>
    rw [hP] at hfree
    cases hfree
  | _ => rfl

/-- It has appended something that is not yet counted as accepted. -/
theorem Hungry.accepted_lt (h : σ.Hungry drawn N) (hpc : σ.pc = .written)
    (hfree : (σ.driver.procs SERVICE).free = true) : σ.service.accepted.length < N := by
  obtain ⟨ret, it, hret⟩ := h.returned hpc hfree
  obtain ⟨k, -, hk, hle, happ, hbytes⟩ := h.invariant.at_pc.result hpc hret
  have hlen := congrArg List.length (h.invariant.driver_run.facts.2.2.2.trans happ)
  rw [List.length_map, h.count_eq, List.length_append, List.length_take, hbytes.arr_length] at hlen
  omega

section

variable (hfresh : rng.Fresh drawn REQUEST_SIZE) {sched : ℕ → Event β} (hfair : FairToAll sched)
  (g : G)

include hfresh hfair

/-- A point of the service that its next step in its own code leaves, and nothing else. -/
theorem hungry_next {P Q : QrngSystem β G → Prop}
    (hmain : ∀ σ : QrngSystem β G, σ.Hungry drawn N → P σ → Q (σ.main rng))
    (hother : ∀ (σ : QrngSystem β G) (l : Label β), l.KeepsCall SERVICE → l.Leaves Side.out SERVICE →
      σ.Hungry drawn N → P σ → P { σ with driver := σ.driver.step l }) :
    LeadsTo (after (step rng) (init g) sched) (fun σ => σ.Hungry drawn N ∧ P σ)
      (fun σ => σ.Grown N ∨ σ.Hungry drawn N ∧ Q σ) := by
  refine leadsTo_of_next (A := fun _ => True) ?_ ?_ (fun _ => trivial) hfair.main
  · rintro σ e - he ⟨h, hP⟩
    refine (h.step hfresh e).imp_right fun h' => ⟨h', ?_⟩
    cases e with
    | main => exact hmain σ h hP
    | _ => cases he
  · rintro σ e - he ⟨h, hP⟩
    obtain ⟨l, hl, heq⟩ := step_of_not_isMain rng σ he
    rcases h.step hfresh e with hgrown | h'
    · exact Or.inl (Or.inl hgrown)
    · refine Or.inr ⟨h', ?_⟩
      rw [heq]
      exact hother σ l (label_leaves hl).1 (label_leaves hl).2 h hP

/-- The poll of the service returns, and what is stable about it is still true then. -/
theorem hungry_polled {Φ : RingBuffer β → Proc β → Prop} (hΦ : (Side.out : Side β).Stable Φ) :
    LeadsTo (after (step rng) (init g) sched)
      (fun σ => σ.Hungry drawn N ∧ σ.pc = .polled ∧ Φ σ.driver.ring (σ.driver.procs SERVICE))
      (fun σ => σ.Grown N ∨ σ.Hungry drawn N ∧ σ.pc = .polled ∧
        Φ σ.driver.ring (σ.driver.procs SERVICE) ∧ (σ.driver.procs SERVICE).free = true) := by
  have hwait := leadsTo_driver.mpr (Waiter.leadsTo pollOutQueue Side.out_counts pollOutWaiter
    (driverSched rng g sched) (driverSched_fair rng g hfair) SERVICE N)
  -- The service is in its poll, or has returned from it.
  have hpoll : LeadsTo (after (step rng) (init g) sched)
      (fun σ => σ.Hungry drawn N ∧ σ.pc = .polled ∧ Φ σ.driver.ring (σ.driver.procs SERVICE))
      (fun σ => (σ.driver.procs SERVICE).free = true ∨ N < σ.driver.appended.length) := by
    rintro n ⟨h, hpc, -⟩
    generalize hσ : after (step rng) (init g) sched n = σ at h hpc
    have hat := h.invariant.at_pc
    simp only [AtPc, hpc] at hat
    cases hP : σ.driver.procs SERVICE with
    | poll c pc =>
      have hev : c.events = POLLOUT := by
        have := h.asks
        rwa [hP] at this
      have hasks : (σ.driver.procs SERVICE).pollsFor PollMask.epollout = true := by
        rw [hP]
        exact congrArg PollMask.epollout hev
      exact hwait n (by rw [hσ]; exact ⟨hasks, h.ready, h.count_eq⟩)
    | returned res => exact ⟨n, le_rfl, Or.inl (by rw [hσ, hP]; rfl)⟩
    | _ =>
      rw [hP] at hat
      exact absurd hat.1 (by simp [Proc.isPoll])
  refine (hpoll.while_stable (R := Grown N) (fun n hn hgoal => ?_)).mono (fun σ h => ⟨h, h⟩) ?_
  · rw [after_succ]
    generalize after (step rng) (init g) sched n = σ at hn hgoal
    obtain ⟨h, hpc, hfound⟩ := hn
    rcases h.step hfresh (sched n) with hgrown | h'
    · exact Or.inr hgrown
    · refine Or.inl ⟨h', ?_⟩
      cases he : isMain (sched n) with
      | true =>
        -- The service waits for its poll.
        have hsame : σ.step rng (sched n) = σ := by
          cases hs : sched n with
          | main =>
            simp only [step, label, main, hpc]
            split
            · next hP => exact absurd (by rw [hP]; rfl) (not_or.mp hgoal).1
            · rfl
          | _ => simp [hs, isMain] at he
        rw [hsame]
        exact ⟨hpc, hfound⟩
      | false =>
        obtain ⟨l, hl, heq⟩ := step_of_not_isMain rng σ he
        rw [heq]
        exact ⟨hpc, (hΦ.step Side.out_lawful σ.driver l (label_leaves hl)
          ⟨h.invariant.driver_run.facts.2.1, hfound⟩).2⟩
  · rintro σ (⟨hfree | hgrown, h, hpc, hfound⟩ | hgrown)
    · exact Or.inr ⟨h, hpc, hfound, hfree⟩
    · exact Or.inl hgrown
    · exact Or.inl hgrown

/-- The write of the service returns, and meanwhile the service counts nothing as accepted. -/
theorem hungry_written (a : ℕ) :
    LeadsTo (after (step rng) (init g) sched)
      (fun σ => σ.Hungry drawn N ∧ σ.pc = .written ∧ σ.service.accepted.length = a)
      (fun σ => σ.Grown N ∨ σ.Hungry drawn N ∧ σ.pc = .written ∧
        σ.service.accepted.length = a ∧ (σ.driver.procs SERVICE).free = true) := by
  have hphase : ∀ {σ : QrngSystem β G}, σ.Hungry drawn N → σ.pc = .written →
      ∃ xs, WritePhase σ.service.qrngWriteArr WRITE_SIZE (σ.driver.procs SERVICE) xs := by
    intro σ h hpc
    have hat := h.invariant.at_pc
    simp only [AtPc, hpc] at hat
    obtain ⟨xs, hphase, -⟩ := hat.1.phase
    exact ⟨xs, hphase⟩
  -- While it has not returned, each of its steps lowers `Proc.writeRank`.
  have hrun : LeadsTo (after (step rng) (init g) sched)
      (fun σ => (σ.Hungry drawn N ∧ σ.pc = .written ∧ σ.service.accepted.length = a) ∧
        (σ.driver.procs SERVICE).free = false)
      (fun σ => σ.Grown N ∨ σ.Hungry drawn N ∧ σ.pc = .written ∧
        σ.service.accepted.length = a ∧ (σ.driver.procs SERVICE).free = true) := by
    refine leadsTo_of_rank (A := fun _ => True)
      (M := fun σ : QrngSystem β G => (σ.driver.procs SERVICE).writeRank) ?_ ?_ (fun _ => trivial)
      (hfair.sched SERVICE)
    · rintro σ e - he ⟨⟨h, hpc, hacc⟩, hbusy⟩
      cases e with
      | sched p =>
        obtain rfl : p = SERVICE := by simpa [isSched] using he
        rcases h.step hfresh (.sched SERVICE) with hgrown | h'
        · exact Or.inl (Or.inl hgrown)
        obtain ⟨xs, hwrite⟩ := hphase h hpc
        obtain ⟨q, hrep, -⟩ := h.invariant.driver_run.facts.1
        have hrank := hwrite.writeRank_step hrep
        have hpos : (σ.driver.procs SERVICE).writeRank ≠ 0 := by
          intro h0
          obtain ⟨ret, it, hret⟩ := hwrite.returned h0
          rw [hret] at hbusy
          cases hbusy
        have hproc : (σ.step rng (.sched SERVICE)).driver.procs SERVICE =
            ((σ.driver.procs SERVICE).step σ.driver.ring).proc := Driver.sched_procs_self _ _
        cases hfree : ((σ.step rng (.sched SERVICE)).driver.procs SERVICE).free with
        | true => exact Or.inl (Or.inr ⟨h', hpc, hacc, rfl⟩)
        | false => exact Or.inr ⟨⟨⟨h', hpc, hacc⟩, rfl⟩, by rw [hproc]; omega⟩
      | _ => simp [isSched] at he
    · rintro σ e - he ⟨⟨h, hpc, hacc⟩, hbusy⟩
      rcases h.step hfresh e with hgrown | h'
      · exact Or.inl (Or.inl hgrown)
      refine Or.inr ?_
      cases hm : isMain e with
      | true =>
        -- The service waits for its write.
        have hsame : σ.step rng e = σ := by
          cases e with
          | main =>
            simp only [step, label, main, hpc]
            split
            · next hP => rw [hP] at hbusy; cases hbusy
            · rfl
          | _ => cases hm
        rw [hsame]
        exact ⟨⟨⟨h, hpc, hacc⟩, hbusy⟩, le_rfl⟩
      | false =>
        obtain ⟨l, hl, heq⟩ := step_of_not_isMain rng σ hm
        have hown : l ≠ .sched SERVICE := by
          rintro rfl
          cases e with
          | sched p =>
            obtain rfl : p = SERVICE := by simpa [label] using hl
            simp [isSched] at he
          | _ => simp [label] at hl
        obtain ⟨xs, hwrite⟩ := hphase h hpc
        have hproc : (σ.step rng e).driver.procs SERVICE = σ.driver.procs SERVICE := by
          rw [heq]
          exact hwrite.eq_of_nudge (Driver.step_nudge _ (label_leaves hl).1 hown)
        refine ⟨⟨⟨h', ?_, ?_⟩, ?_⟩, by rw [hproc]⟩
        · rw [heq]
          exact hpc
        · rw [heq]
          exact hacc
        · rwa [hproc]
  rintro n hn
  cases hfree : ((after (step rng) (init g) sched n).driver.procs SERVICE).free with
  | true => exact ⟨n, le_rfl, Or.inr ⟨hn.1, hn.2.1, hn.2.2, hfree⟩⟩
  | false => exact hrun n ⟨hn, hfree⟩

/-- A write of the service that has begun after `N` bytes appends another one. -/
theorem written_leadsTo :
    LeadsTo (after (step rng) (init g) sched)
      (fun σ => σ.Hungry drawn N ∧ σ.pc = .written ∧ σ.service.accepted.length = N) (Grown N) := by
  refine (hungry_written hfresh hfair g N).mono (fun _ h => h) ?_
  rintro σ (hgrown | ⟨h, hpc, hacc, hfree⟩)
  · exact hgrown
  · have := h.accepted_lt hpc hfree
    omega

/-- The service on its way from its poll to its write. -/
theorem renew_leadsTo :
    LeadsTo (after (step rng) (init g) sched)
      (fun σ => σ.Hungry drawn N ∧ (σ.pc = .renew ∨ σ.pc = .write)) (Grown N) := by
  have hwrite : LeadsTo (after (step rng) (init g) sched)
      (fun σ => σ.Hungry drawn N ∧ σ.pc = .write) (Grown N) := by
    refine (hungry_next hfresh hfair g (P := fun σ => σ.pc = .write)
      (Q := fun σ => σ.pc = .written ∧ σ.service.accepted.length = N)
      (fun σ h hpc => ?_) fun σ l _ _ _ hpc => hpc).trans
      ((LeadsTo.of_imp fun _ h => h).or (written_leadsTo hfresh hfair g))
    -- While it is hungry, the service offers all of `qrng_write_arr`, and no byte is appended and
    -- not yet accounted for.
    have hat := h.invariant.at_pc
    simp only [AtPc, hpc] at hat
    have hlen := congrArg List.length (h.invariant.driver_run.facts.2.2.2.trans hat.2.2.appended)
    rw [List.length_map, h.count_eq] at hlen
    simp only [main, hpc]
    exact ⟨trivial, hlen.symm⟩
  have hrenew : LeadsTo (after (step rng) (init g) sched)
      (fun σ => σ.Hungry drawn N ∧ σ.pc = .renew) (Grown N) := by
    refine (hungry_next hfresh hfair g (P := fun σ => σ.pc = .renew) (Q := fun σ => σ.pc = .write)
      (fun σ h hpc => ?_) fun σ l _ _ _ hpc => hpc).trans ((LeadsTo.of_imp fun _ h => h).or hwrite)
    have hat := h.invariant.at_pc
    simp only [AtPc, hpc] at hat
    obtain ⟨s, hs, -⟩ := hat.2.2.bytes.prepare hfresh
    simp only [main, hpc, hs]
  refine (hrenew.or hwrite).mono (fun σ h => ?_) fun _ h => h
  exact h.2.imp (fun hpc => ⟨h.1, hpc⟩) fun hpc => ⟨h.1, hpc⟩

/-- The service before a poll. -/
theorem poll_leadsTo :
    LeadsTo (after (step rng) (init g) sched)
      (fun σ => σ.Hungry drawn N ∧ σ.pc = .poll) (Grown N) := by
  -- The poll reports the free slot.
  have hreport : LeadsTo (after (step rng) (init g) sched)
      (fun σ => σ.Hungry drawn N ∧ σ.pc = .polled ∧
        (σ.driver.procs SERVICE).WillReport σ.driver.ring ∧ (σ.driver.procs SERVICE).free = true)
      (Grown N) := by
    refine (hungry_next hfresh hfair g (P := fun σ => σ.pc = .polled ∧
        (σ.driver.procs SERVICE).WillReport σ.driver.ring ∧ (σ.driver.procs SERVICE).free = true)
      (Q := fun σ => σ.pc = .renew ∨ σ.pc = .write) (fun σ h hP => ?_)
      fun σ l hkeep hleaves h hP => ?_).trans
      ((LeadsTo.of_imp fun _ h => h).or (renew_leadsTo hfresh hfair g))
    · obtain ⟨hpc, hwill, hfree⟩ := hP
      obtain ⟨revents, hret, hout⟩ := hwill.returned hfree
      simp [main, hpc, hret, hout]
    · obtain ⟨hpc, hwill, hfree⟩ := hP
      refine ⟨hpc, (willReport_stable.step Side.out_lawful σ.driver l ⟨hkeep, hleaves⟩
        ⟨h.invariant.driver_run.facts.2.1, hwill⟩).2, ?_⟩
      rwa [Driver.step_of_free hkeep hfree]
  have hpolled := (hungry_polled hfresh hfair g (N := N) willReport_stable).trans
    ((LeadsTo.of_imp fun _ h => h).or hreport)
  refine (hungry_next hfresh hfair g (P := fun σ => σ.pc = .poll)
    (Q := fun σ => σ.pc = .polled ∧ (σ.driver.procs SERVICE).WillReport σ.driver.ring)
    (fun σ h hpc => ?_) fun σ l _ _ _ hpc => hpc).trans ((LeadsTo.of_imp fun _ h => h).or hpolled)
  have hat := h.invariant.at_pc
  simp only [AtPc, hpc] at hat
  simp only [main, hpc, Driver.step, if_pos hat.1.free, Function.update_self]
  exact ⟨trivial, rfl, h.ready⟩

/-- Wherever the service is, it appends another byte. -/
theorem hungry_leadsTo :
    LeadsTo (after (step rng) (init g) sched) (fun σ => σ.Hungry drawn N) (Grown N) := by
  have hpoll := poll_leadsTo (N := N) hfresh hfair g
  have hrenew := renew_leadsTo (N := N) hfresh hfair g
  -- Out of the poll that it is in.
  have hpolled : LeadsTo (after (step rng) (init g) sched)
      (fun σ => σ.Hungry drawn N ∧ σ.pc = .polled) (Grown N) := by
    have hreturned : LeadsTo (after (step rng) (init g) sched)
        (fun σ => σ.Hungry drawn N ∧ σ.pc = .polled ∧ True ∧
          (σ.driver.procs SERVICE).free = true) (Grown N) := by
      refine (hungry_next hfresh hfair g (P := fun σ => σ.pc = .polled ∧ True ∧
          (σ.driver.procs SERVICE).free = true)
        (Q := fun σ => σ.pc = .poll ∨ σ.pc = .renew) (fun σ h hP => ?_)
        fun σ l hkeep _ _ hP => ⟨hP.1, trivial, by
          simp only [Driver.step_of_free hkeep hP.2.2]; exact hP.2.2⟩).trans
        ((LeadsTo.of_imp fun _ h => h).or ((hpoll.or hrenew).mono (fun σ h => ?_) fun _ h => h))
      · obtain ⟨hpc, -, hfree⟩ := hP
        have hat := h.invariant.at_pc
        simp only [AtPc, hpc] at hat
        obtain ⟨revents, hret⟩ := Proc.returned_of_isPoll hat.1 hfree
        simp only [main, hpc, hret]
        split_ifs
        · exact Or.inr rfl
        · exact Or.inl rfl
      · exact h.2.imp (fun hpc => ⟨h.1, hpc⟩) fun hpc => ⟨h.1, Or.inl hpc⟩
    refine ((hungry_polled hfresh hfair g (N := N) (Φ := fun _ _ => True) ⟨fun _ _ _ => trivial,
      fun _ _ _ _ _ _ _ => trivial⟩).trans ((LeadsTo.of_imp fun _ h => h).or hreturned)).mono
      (fun σ h => ⟨h.1, h.2, trivial⟩) fun _ h => h
  -- Out of the write that it is in.
  have hwritten : LeadsTo (after (step rng) (init g) sched)
      (fun σ => σ.Hungry drawn N ∧ σ.pc = .written) (Grown N) := by
    have hreturned : LeadsTo (after (step rng) (init g) sched)
        (fun σ => σ.Hungry drawn N ∧ σ.pc = .written ∧
          (σ.driver.procs SERVICE).free = true) (Grown N) := by
      refine (hungry_next hfresh hfair g (P := fun σ => σ.pc = .written ∧
          (σ.driver.procs SERVICE).free = true) (Q := fun σ => σ.pc = .poll) (fun σ h hP => ?_)
        fun σ l hkeep _ _ hP => ⟨hP.1, by simp only [Driver.step_of_free hkeep hP.2]; exact hP.2⟩).trans
        ((LeadsTo.of_imp fun _ h => h).or hpoll)
      obtain ⟨hpc, hfree⟩ := hP
      obtain ⟨ret, it, hret⟩ := h.returned hpc hfree
      obtain ⟨k, rfl, hk, hle, happ, hbytes⟩ := h.invariant.at_pc.result hpc hret
      obtain ⟨s, hs, -⟩ := hbytes.finish hle
      simp only [main, hpc, hret, hs]
    intro n hn
    obtain ⟨m, hnm, hm⟩ := hungry_written hfresh hfair g _ n ⟨hn.1, hn.2, rfl⟩
    rcases hm with hgrown | ⟨h, hpc, -, hfree⟩
    · exact ⟨m, hnm, hgrown⟩
    · obtain ⟨m', hmm', hm'⟩ := hreturned m ⟨h, hpc, hfree⟩
      exact ⟨m', hnm.trans hmm', hm'⟩
  intro n h
  cases hpc : (after (step rng) (init g) sched n).pc with
  | poll => exact hpoll n ⟨h, hpc⟩
  | polled => exact hpolled n ⟨h, hpc⟩
  | renew => exact hrenew n ⟨h, Or.inl hpc⟩
  | write => exact hrenew n ⟨h, Or.inr hpc⟩
  | written => exact hwritten n ⟨h, hpc⟩
  | stopped stop => exact absurd hpc (h.invariant.not_stopped stop)

end

/-- The invariant holds at every point of a schedule. -/
theorem after_holds (hfresh : rng.Fresh drawn REQUEST_SIZE) (g : G) (sched : ℕ → Event β) (n : ℕ) :
    (after (step rng) (init g) sched n).Invariant drawn ∧
      ((after (step rng) (init g) sched n).driver.procs SERVICE).Asks POLLOUT :=
  after_invariant (A := fun _ => True) (P := fun σ : QrngSystem β G => σ.Invariant drawn ∧
      (σ.driver.procs SERVICE).Asks POLLOUT)
    (fun _ e _ h => ⟨h.1.step hfresh e, asks_step rng h.2 e⟩) (fun _ => trivial)
    ⟨invariant_init drawn g, trivial⟩ n

/-- Whenever the ring is not full, another byte is appended later. -/
theorem fresh_appended_grows (hfresh : rng.Fresh drawn REQUEST_SIZE) {sched : ℕ → Event β}
    (hfair : FairToAll sched) (g : G) (N : ℕ) :
    LeadsTo (after (step rng) (init g) sched)
      (fun σ => σ.driver.ring.contents.length < BUFF_SIZE ∧ σ.driver.appended.length = N)
      (Grown N) := by
  refine LeadsTo.of_always (I := fun σ => σ.Invariant drawn ∧
      (σ.driver.procs SERVICE).Asks POLLOUT) (after_holds hfresh g sched)
    ((hungry_leadsTo hfresh hfair g).mono ?_ fun _ h => h)
  rintro σ ⟨⟨hinv, hasks⟩, hlt, hcount⟩
  exact ⟨hinv, hasks, hinv.driver_run.facts.1.ready_iff.2.mpr hlt, hcount⟩

/-- Under a schedule that lets the service and every process make its next step again and again,
whenever the ring is not full, another byte is appended to it later. -/
theorem appended_grows (out : ℕ → Fin 4 → β) {sched : ℕ → Event β} (hfair : FairToAll sched)
    (N : ℕ) :
    LeadsTo (after (step (PRNG.rng out)) (init 0) sched)
      (fun σ => σ.driver.ring.contents.length < BUFF_SIZE ∧ σ.driver.appended.length = N)
      (fun σ => N < σ.driver.appended.length) := by
  intro n hn
  rw [← after_tagged] at hn
  obtain ⟨m, hnm, hm⟩ := fresh_appended_grows (PRNG.fresh (Tagged.out_injective2 out) REQUEST_SIZE)
    hfair.tagged 0 N n (by simpa [Driver.map, contents_map] using hn)
  refine ⟨m, hnm, ?_⟩
  rw [← after_tagged]
  simpa [Driver.map, Grown] using hm

/-- The bytes appended, and the bytes taken, are never fewer. -/
theorem length_mono {G : Type} (rng : RNG β G) (σ : QrngSystem β G) (sched : ℕ → Event β)
    {n m : ℕ} (hnm : n ≤ m) :
    (after (step rng) σ sched n).driver.taken.length ≤
        (after (step rng) σ sched m).driver.taken.length ∧
      (after (step rng) σ sched n).driver.appended.length ≤
        (after (step rng) σ sched m).driver.appended.length := by
  induction m, hnm using Nat.le_induction with
  | base => exact ⟨le_rfl, le_rfl⟩
  | succ m _ ih =>
    rw [after_succ, step_driver]
    obtain ⟨htaken, happended⟩ := Driver.length_tick (after (step rng) σ sched m).driver
      ((after (step rng) σ sched m).driverLabel (sched m))
    exact ⟨ih.1.trans htaken, ih.2.trans happended⟩

/-- The service never stalls. Under a schedule that lets the service and every process make its next
step again and again, whatever reads, polls, and signals there are: it appends bytes to the ring without
end, or from some point on the ring is full, and nobody takes a byte any more. -/
theorem refills (out : ℕ → Fin 4 → β) {sched : ℕ → Event β} (hfair : FairToAll sched) :
    (∀ N, ∃ m, N < (after (step (PRNG.rng out)) (init 0) sched m).driver.appended.length) ∨
    ∃ n, ∀ m, n ≤ m →
      (after (step (PRNG.rng out)) (init 0) sched m).driver.ring.contents.length = BUFF_SIZE ∧
      (after (step (PRNG.rng out)) (init 0) sched m).driver.taken.length =
        (after (step (PRNG.rng out)) (init 0) sched n).driver.taken.length := by
  have hgrows := appended_grows out hfair
  have hmono := fun n m hnm => length_mono (n := n) (m := m) (PRNG.rng out) (init 0) sched hnm
  have hacc := Driver.after_tick (P := Driver.Accounted) (fun σ l h => h.step l)
    (Driver.run_accounted []) (driverSched (PRNG.rng out) 0 sched)
  simp only [← after_driver (PRNG.rng out) 0 sched] at hacc
  have hlen := fun m => (hacc m).length_eq
  generalize after (step (PRNG.rng out)) (init 0) sched = tr at hgrows hmono hlen
  by_cases hbdd : ∃ N, ∀ m, (tr m).driver.appended.length ≤ N
  · -- From a point on at which most bytes are appended, the ring is full.
    obtain ⟨N, hN⟩ := hbdd
    obtain ⟨n, hn⟩ : sSup (Set.range fun m => (tr m).driver.appended.length) ∈
        Set.range fun m => (tr m).driver.appended.length :=
      Nat.sSup_mem (Set.range_nonempty _) ⟨N, by rintro _ ⟨m, rfl⟩; exact hN m⟩
    have hmax : ∀ m, (tr m).driver.appended.length ≤ (tr n).driver.appended.length := by
      intro m
      rw [show (tr n).driver.appended.length = _ from hn]
      exact le_csSup ⟨N, by rintro _ ⟨k, rfl⟩; exact hN k⟩ ⟨m, rfl⟩
    have hfull : ∀ m, n ≤ m → (tr m).driver.ring.contents.length = BUFF_SIZE := by
      intro m hnm
      by_contra hne
      obtain ⟨k, -, hk⟩ := hgrows _ m ⟨lt_of_le_of_ne (hlen m).2 hne, rfl⟩
      exact absurd (hmax k) (not_le.mpr ((hmono n m hnm).2.trans_lt hk))
    refine Or.inr ⟨n, fun m hnm => ⟨hfull m hnm, ?_⟩⟩
    have := hfull m hnm
    have := hfull n le_rfl
    have := hmax m
    have := (hmono n m hnm).2
    have := hlen m
    have := hlen n
    omega
  · push Not at hbdd
    exact Or.inl hbdd

/-- Process 1 enters a blocking read of one byte again and again, while the service and all processes make
their steps. -/
def readsAgain (n : ℕ) : Event UInt8 :=
  match n.unpair.1 with
  | 0 => .main
  | 1 => .read 0 ⟨false, false, false⟩ [0] 1
  | p + 2 => .sched p

/-- This schedule is fair to everyone. -/
theorem readsAgain_fair : FairToAll readsAgain where
  main n := ⟨Nat.pair 0 n, Nat.right_le_pair _ _, by simp [readsAgain, isMain]⟩
  sched p n := ⟨Nat.pair (p + 2) n, Nat.right_le_pair _ _, by simp [readsAgain, isSched]⟩

/-- The theorem for a system in which process 1 reads like that. -/
theorem refills_read :
    (∀ N, ∃ m, N < (after (step (PRNG.rng fun _ _ => (0 : UInt8))) (init 0)
        readsAgain m).driver.appended.length) ∨
    ∃ n, ∀ m, n ≤ m →
      (after (step (PRNG.rng fun _ _ => (0 : UInt8))) (init 0)
        readsAgain m).driver.ring.contents.length = BUFF_SIZE ∧
      (after (step (PRNG.rng fun _ _ => (0 : UInt8))) (init 0)
          readsAgain m).driver.taken.length =
        (after (step (PRNG.rng fun _ _ => (0 : UInt8))) (init 0)
          readsAgain n).driver.taken.length :=
  refills _ readsAgain_fair

end QrngSystem

end QrngDevice
