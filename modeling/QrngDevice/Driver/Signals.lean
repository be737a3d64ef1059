import Mathlib.Order.Lattice.Nat
import QrngDevice.Driver.Progress

/-!
# Signals end the waits

A process with a signal pending does not go to sleep any more. So its steps bring it to the end of its
call, whatever the others do (`Signalled.step`): a poll returns at its next evaluation, and a read when
it next finds the ring empty, unless some reader takes a byte meanwhile. A read goes on as long as it
finds bytes, and it may try again and again for bytes that others take first. In the end it returns, or
bytes are taken without end (`signal_ends_wait`).
-/

namespace QrngDevice

open Runs RingBuffer

section

variable {β : Type*}

/-- A signal is pending. -/
def Proc.sig : Proc β → Bool
  | .read c _ => c.sig
  | .poll c _ => c.sig
  | _ => false

/-- The process is in a read or a poll with a signal pending, and not asleep. -/
structure Proc.Signalled (P : Proc β) : Prop where
  /-- A signal is pending. -/
  sig : P.sig = true
  /-- The process is awake. -/
  awake : P.asleep = false

/-- A bound on the steps of a signalled read up to its next take or its return. If the ring is empty, a
test on a stale cursor can cost the read another round of its loop. -/
def Proc.readEnd (r : RingBuffer β) : Proc β → ℕ
  | .read _ .take => if r.readReady then 1 else 6
  | .read _ .waitJoin => 5
  | .read _ (.waitCursor _) => 4
  | .read _ (.waitFlag _ k) => if k = r.qrngBuffReadIt then 3 else 8
  | .read _ (.copy _) => 7
  | .read _ (.wakeRead _) => 8
  | .read _ (.wakeFlag _ _) => 9
  | .read _ (.wakeCursor _) => 10
  | .read _ (.wakePoll _) => 11
  | .read _ (.testFlag _) => 12
  | .read _ .testCursor => 13
  | _ => 0

/-- A bound on the steps of a signalled poll up to its return. -/
def Proc.pollEnd : Proc β → ℕ
  | .poll _ (.inFlag _) => 1
  | .poll _ .inCursor => 2
  | .poll _ (.outFlag _) => 3
  | .poll _ .outCursor => 4
  | .poll _ .register => 5
  | _ => 0

/-- A signal wakes up a process that is in a read or a poll. -/
theorem Proc.signalled_signalled {P : Proc β} (h : P.isRead = true ∨ P.isPoll = true)
    (hbusy : P.free = false) : P.signalled.Signalled := by
  rcases P with _ | ⟨c, pc⟩ | _ | ⟨c, pc⟩ | _
  · cases hbusy
  · cases pc <;> exact ⟨rfl, rfl⟩
  · simp [Proc.isRead, Proc.isPoll] at h
  · cases pc <;> exact ⟨rfl, rfl⟩
  · cases hbusy

/-- A signalled process is in a call. -/
theorem Proc.Signalled.not_free {P : Proc β} (h : P.Signalled) : P.free = false := by
  have hsig := h.sig
  cases P <;> simp [Proc.sig, Proc.free] at hsig ⊢

/-- Others leave a signalled process awake, and no farther from the end of a poll. -/
theorem Proc.Signalled.nudge {P P' : Proc β} (h : P.Signalled) (hn : P.Nudge P') :
    P'.Signalled ∧ P'.pollEnd ≤ P.pollEnd := by
  obtain ⟨hsig, hawake⟩ := h
  cases hn with
  | woken wr wp =>
    rcases P with _ | ⟨c, pc⟩ | _ | ⟨c, pc⟩ | _
    · cases hsig
    · cases wr <;> cases wp <;> cases pc <;> first | exact ⟨⟨hsig, rfl⟩, le_rfl⟩ | cases hawake
    · cases hsig
    · cases wr <;> cases wp <;> cases pc <;> first | exact ⟨⟨hsig, rfl⟩, le_rfl⟩ | cases hawake
    · cases hsig
  | signalled =>
    rcases P with _ | ⟨c, pc⟩ | _ | ⟨c, pc⟩ | _
    · cases hsig
    · cases pc <;> exact ⟨⟨rfl, rfl⟩, le_rfl⟩
    · cases hsig
    · cases pc <;> first | exact ⟨⟨rfl, rfl⟩, le_rfl⟩ | cases hawake
    · cases hsig

/-- Nor farther from the end of a read, as long as nothing is taken. -/
theorem Proc.Nudge.readEnd {r r' : RingBuffer β} {P P' : Proc β} (hk : Side.inn.Keeps r r')
    (h : P.Signalled) (hn : P.Nudge P') : P'.readEnd r' ≤ P.readEnd r := by
  have hcursor : r'.qrngBuffReadIt = r.qrngBuffReadIt := hk.cursor_eq
  have hready : r.readReady = true → r'.readReady = true := fun hr => hk.readyAt hr
  -- A ring in which nothing was taken brings no read farther from its end.
  have hsame : ∀ P : Proc β, P.readEnd r' ≤ P.readEnd r := by
    intro P
    unfold Proc.readEnd
    split
    · split_ifs with h' hr hr
      · exact le_rfl
      · decide
      · exact absurd (hready hr) h'
      · exact le_rfl
    all_goals simp only [hcursor, le_refl]
  refine le_trans ?_ (hsame P)
  -- A wake-up and a signal leave the counter of a read that is awake as it is.
  have hawake := h.awake
  rcases P with _ | ⟨c, pc⟩ | ⟨c, pc⟩ | ⟨c, pc⟩ | res
  · rw [hn.idle]
  · cases hn with
    | woken wr wp =>
      cases wr <;> cases wp <;> cases pc <;> first | exact le_rfl | cases hawake
    | signalled => cases pc <;> first | exact le_rfl | cases hawake
  · rw [hn.write]
  · have hpoll := hn.kind.1
    cases P' <;> first | exact Nat.zero_le _ | cases hpoll
  · rw [hn.returned]

variable [Zero β]

omit [Zero β] in
/-- The head of the loop of a signalled read. -/
theorem ReadCall.signalled_loop {c : ReadCall β} (r : RingBuffer β) (h : c.sig = true) :
    c.loop.free = true ∨ c.loop.Signalled ∧ c.loop.readEnd r ≤ 6 ∧
      (r.readReady = true → c.loop.readEnd r ≤ 1) := by
  rcases c.loop_cases with heq | hfree
  · refine Or.inr ?_
    rw [heq]
    refine ⟨⟨h, rfl⟩, ?_, fun hr => ?_⟩
    · simp only [Proc.readEnd]
      split_ifs <;> decide
    · simp only [Proc.readEnd, if_pos hr, le_refl]
  · exact Or.inl hfree

/-- A step of a signalled read ends it, or takes a byte, or brings it closer to the end. -/
theorem ReadCall.step_signalled {c : ReadCall β} {pc : ReadPc β} (h : (Proc.read c pc).Signalled)
    (r : RingBuffer β) :
    (c.step r pc).proc.free = true ∨ (c.step r pc).proc.Signalled ∧
      ((c.step r pc).taken ≠ [] ∨
        (c.step r pc).ring = r ∧ (c.step r pc).proc.readEnd r < (Proc.read c pc).readEnd r) := by
  obtain ⟨hsig, hawake⟩ := h
  -- A step to another counter within the loop, and one to the head of the loop.
  have hnext : ∀ pc' : ReadPc β, (Proc.read c pc').asleep = false →
      (Proc.read c pc').readEnd r < (Proc.read c pc).readEnd r →
      (Proc.read c pc').free = true ∨ (Proc.read c pc').Signalled ∧
        (([] : List β) ≠ [] ∨
          r = r ∧ (Proc.read c pc').readEnd r < (Proc.read c pc).readEnd r) :=
    fun _ hpc hlt => Or.inr ⟨⟨hsig, hpc⟩, Or.inr ⟨rfl, hlt⟩⟩
  have hloop : ∀ {c' : ReadCall β}, c'.sig = true → 6 < (Proc.read c pc).readEnd r →
      c'.loop.free = true ∨ c'.loop.Signalled ∧
        (([] : List β) ≠ [] ∨ r = r ∧ c'.loop.readEnd r < (Proc.read c pc).readEnd r) := by
    intro c' hsig' hlt
    rcases ReadCall.signalled_loop r hsig' with hfree | ⟨hs, hle, -⟩
    · exact Or.inl hfree
    · exact Or.inr ⟨hs, Or.inr ⟨rfl, hle.trans_lt hlt⟩⟩
  cases pc with
  -- Where a test or a take finds nothing, the read returns, or comes closer to its wait.
  | testFlag k =>
    simp only [ReadCall.step]
    split_ifs
    · exact Or.inl rfl
    · exact Or.inl rfl
    · exact hloop hsig (by simp [Proc.readEnd])
  | take =>
    simp only [ReadCall.step, getRandomByte]
    by_cases hr : r.readReady = true
    · simp only [if_pos hr]
      exact Or.inr ⟨⟨hsig, rfl⟩, Or.inl (by simp)⟩
    · simp only [if_neg hr]
      split_ifs
      · exact Or.inl rfl
      · -- With the ring still empty, the wait will find the signal.
        exact hnext .waitJoin rfl (by simp [Proc.readEnd, hr])
  | wakeFlag b k =>
    have hstep : c.step r (.wakeFlag b k) =
        { ring := r, proc := .read c (if r.qrngBuffReady k then .wakeRead b else .copy b) } := rfl
    rw [hstep]
    split_ifs
    · exact hnext (.wakeRead b) rfl (by simp [Proc.readEnd])
    · exact hnext (.copy b) rfl (by simp [Proc.readEnd])
  | copy b => exact hloop hsig (by simp [Proc.readEnd])
  | waitFlag w k =>
    simp only [ReadCall.step]
    split_ifs with hflag hs hw
    · by_cases hk : k = r.qrngBuffReadIt
      · -- The flag is that of the first byte of the ring.
        have hready : r.readReady = true := by rw [← hflag, hk]; rfl
        rcases ReadCall.signalled_loop r hsig with hfree | ⟨hs, -, hle⟩
        · exact Or.inl hfree
        · refine Or.inr ⟨hs, Or.inr ⟨rfl, (hle hready).trans_lt ?_⟩⟩
          simp [Proc.readEnd, hk]
      · exact hloop hsig (by simp [Proc.readEnd, hk])
    · exact Or.inl rfl
    · -- The signal is pending, so the read does not go on waiting.
      exact absurd hsig hs
    · exact absurd hsig hs
  | asleep => cases hawake
  | _ => exact hnext _ rfl (by simp [Proc.readEnd])

omit [Zero β] in
/-- A step of a signalled poll ends it, or brings it closer to the end. -/
theorem PollCall.step_signalled {c : PollCall} {pc : PollPc}
    (h : (Proc.poll c pc : Proc β).Signalled) (r : RingBuffer β) :
    (c.step r pc).proc.free = true ∨ (c.step r pc).proc.Signalled ∧
      (c.step r pc).proc.pollEnd < (Proc.poll c pc : Proc β).pollEnd := by
  obtain ⟨hsig, hawake⟩ := h
  have hsig' : c.sig = true := hsig
  cases pc with
  | inFlag k =>
    refine Or.inl ?_
    simp only [PollCall.step, hsig', if_true]
    split_ifs <;> rfl
  | asleep => cases hawake
  | _ => exact Or.inr ⟨⟨hsig, rfl⟩, by simp [PollCall.step, Proc.pollEnd]⟩

namespace Driver

/-! ## The end of the call -/

variable {sched : ℕ → Label β} {p : Pid}

/-- A signalled process stays so until its call ends. -/
theorem signalled_tick {σ : Driver β} (h : (σ.procs p).Signalled) (l : Label β) :
    ((σ.step l).procs p).free = true ∨ ((σ.step l).procs p).Signalled := by
  by_cases hown : l = .sched p
  · subst hown
    rw [show (σ.step (.sched p)).procs p = _ from sched_procs_self σ p]
    cases hP : σ.procs p with
    | read c pc => exact (ReadCall.step_signalled (hP ▸ h) σ.ring).imp_right And.left
    | poll c pc => exact (PollCall.step_signalled (hP ▸ h) σ.ring).imp_right And.left
    | _ =>
      rw [hP] at h
      cases h.sig
  · exact Or.inr (h.nudge (tick_nudge h.not_free (o := some l) (by simpa using hown))).1

/-- A signalled poll returns. -/
theorem signalled_poll_leadsTo (hfair : Fair (Label.isSched p) sched) :
    LeadsTo (after step init sched)
      (fun σ => (σ.procs p).Signalled ∧ (σ.procs p).isPoll = true)
      (fun σ => (σ.procs p).free = true) := by
  refine leadsTo_of_rank (A := fun _ => True) (M := fun σ => (σ.procs p).pollEnd)
    ?_ ?_ (fun _ => trivial) hfair
  · rintro σ l - hown ⟨h, hpoll⟩
    -- Its own step ends the poll, or lowers the rank.
    obtain rfl := Label.isSched_iff.mp hown
    rw [show (σ.step (.sched p)).procs p = _ from sched_procs_self σ p]
    cases hP : σ.procs p with
    | poll c pc =>
      rw [hP] at h
      refine (PollCall.step_signalled h σ.ring).imp_right fun h' => ⟨⟨h'.1, ?_⟩, h'.2⟩
      exact Proc.isPoll_step _ rfl
    | _ =>
      rw [hP] at h hpoll
      first | cases hpoll | cases h.sig
  · rintro σ l - hown ⟨h, hpoll⟩
    -- Other steps do not raise it.
    have hn := tick_nudge h.not_free (o := some l) fun heq => by
      rw [Option.some.inj heq, Label.isSched_iff.mpr rfl] at hown
      cases hown
    obtain ⟨h', hle⟩ := h.nudge hn
    exact Or.inr ⟨⟨h', hn.kind.2.2.trans hpoll⟩, hle⟩

/-- A signalled read returns, or a byte is taken. -/
theorem signalled_read_leadsTo (hfair : Fair (Label.isSched p) sched) (N : ℕ) :
    LeadsTo (after step init sched)
      (fun σ => ((σ.procs p).Signalled ∧ (σ.procs p).isRead = true) ∧ σ.taken.length = N)
      (fun σ => (σ.procs p).free = true ∨ N < σ.taken.length) := by
  have hacc : ∀ n, (after step init sched n).Accounted := fun n =>
    after_invariant (A := fun _ => True) (fun σ l _ h => h.step l) (fun _ => trivial)
      (run_accounted []) n
  refine LeadsTo.of_always hacc (leadsTo_of_rank (A := fun _ => True)
    (M := fun σ => (σ.procs p).readEnd σ.ring) ?_ ?_ (fun _ => trivial) hfair)
  · rintro σ l - hown ⟨hσ, ⟨h, hread⟩, hN⟩
    obtain rfl := Label.isSched_iff.mp hown
    cases hP : σ.procs p with
    | read c pc =>
      have hproc : (σ.step (.sched p)).procs p = (c.step σ.ring pc).proc := by
        rw [Driver.step, sched_procs_self, hP]
        rfl
      have htaken : (σ.step (.sched p)).taken.length = N + (c.step σ.ring pc).taken.length := by
        simp [Driver.step, Driver.sched, hP, Proc.step, hN]
      rcases ReadCall.step_signalled (hP ▸ h) σ.ring with hfree | ⟨h', htake | ⟨hring, hlt⟩⟩
      · exact Or.inl (Or.inl (by rwa [hproc]))
      · have hpos := List.length_pos_iff.mpr htake
        exact Or.inl (Or.inr (by omega))
      · -- Without a take, the ring is as it was.
        have hring' : (σ.step (.sched p)).ring = σ.ring := by
          simp only [Driver.step, Driver.sched, hP]
          exact hring
        by_cases hmore : N < (σ.step (.sched p)).taken.length
        · exact Or.inl (Or.inr hmore)
        · refine Or.inr ⟨⟨hσ.step _, ⟨by rwa [hproc], ?_⟩, by omega⟩, ?_⟩
          · rcases isRead_tick hread (some (.sched p)) with hread' | hfree
            · exact hread'
            · have hbusy := h'.not_free
              rw [← hproc] at hbusy
              rw [show (σ.tick (some (.sched p))).procs p = (σ.step (.sched p)).procs p from rfl,
                hbusy] at hfree
              cases hfree
          · simpa only [hproc, hring'] using hlt
    | _ =>
      rw [hP] at hread
      cases hread
  · rintro σ l - hown ⟨hσ, ⟨h, hread⟩, hN⟩
    have hn := tick_nudge h.not_free (o := some l) fun heq => by
      rw [Option.some.inj heq, Label.isSched_iff.mpr rfl] at hown
      cases hown
    rcases Side.inn_counts.step σ l hσ with hmore | ⟨hsame, hk⟩
    · exact Or.inl (Or.inr (by omega))
    · exact Or.inr ⟨⟨hσ.step l, ⟨(h.nudge hn).1, hn.kind.1.trans hread⟩, hsame.trans hN⟩,
        hn.readEnd hk h⟩

/-- A signal ends a wait. Let a schedule let process `p` make its next step again and again, whatever the
others do, and let `p` get a signal in a poll or in a read. Then the poll returns. The read returns, or
bytes are taken from the ring without end. -/
theorem signal_ends_wait (hfair : Fair (Label.isSched p) sched) {n : ℕ} (hsig : sched n = .signal p)
    (hbusy : ((after step init sched n).procs p).free = false) :
    (((after step init sched n).procs p).isPoll = true →
        ∃ m, n < m ∧ ((after step init sched m).procs p).free = true) ∧
      (((after step init sched n).procs p).isRead = true →
        (∃ m, n < m ∧ ((after step init sched m).procs p).free = true) ∨
          ∀ N, ∃ m, N < (after step init sched m).taken.length) := by
  have hproc : (after step init sched (n + 1)).procs p =
      ((after step init sched n).procs p).signalled := by
    rw [after_succ, hsig]
    simp [Driver.step]
  refine ⟨fun hpoll => ?_, fun hread => ?_⟩
  · have h := Proc.signalled_signalled (Or.inr hpoll) hbusy
    rw [← hproc] at h
    obtain ⟨m, hnm, hm⟩ := signalled_poll_leadsTo hfair (n + 1)
      ⟨h, by rw [hproc]; exact (Proc.Nudge.signalled.kind.2.2).trans hpoll⟩
    exact ⟨m, by omega, hm⟩
  · by_contra hcontra
    push Not at hcontra
    obtain ⟨hnever, N, hN⟩ := hcontra
    -- The read stays signalled, and brings the takes beyond every bound.
    have hsignalled : ∀ m, n + 1 ≤ m → ((after step init sched m).procs p).Signalled ∧
        ((after step init sched m).procs p).isRead = true := by
      intro m hnm
      induction m, hnm using Nat.le_induction with
      | base =>
        rw [hproc]
        exact ⟨Proc.signalled_signalled (Or.inl hread) hbusy,
          Proc.Nudge.signalled.kind.1.trans hread⟩
      | succ m hnm ih =>
        rw [after_succ]
        have hbusy' := hnever (m + 1) (by omega)
        rw [after_succ] at hbusy'
        exact ⟨(signalled_tick ih.1 _).resolve_left hbusy',
          (isRead_tick ih.2 (some (sched m))).resolve_right hbusy'⟩
    have hgrows : ∀ k, ∃ m, n + 1 ≤ m ∧ k ≤ (after step init sched m).taken.length := by
      intro k
      induction k with
      | zero => exact ⟨n + 1, le_rfl, Nat.zero_le _⟩
      | succ k ih =>
        obtain ⟨m, hnm, hk⟩ := ih
        obtain ⟨m', hmm', hfree | hlt⟩ := signalled_read_leadsTo hfair _ m ⟨hsignalled m hnm, rfl⟩
        · exact absurd hfree (hnever m' (by omega))
        · exact ⟨m', hnm.trans hmm', by omega⟩
    obtain ⟨m, -, hm⟩ := hgrows (N + 1)
    exact absurd (hN m) (by omega)

/-- A process enters a call, and gets a signal. -/
def callThenSignal (c : Call UInt8) : ℕ → Label UInt8 := thenAll [.call 0 c, .signal 0]

/-- The theorem for a poll of the empty ring for `POLLIN`, and for a blocking read from it. -/
theorem signal_ends_wait_empty :
    (∃ m, 1 < m ∧ ((after step (init : Driver UInt8)
        (callThenSignal (.poll ⟨false, true, true⟩)) m).procs 0).free = true) ∧
      ((∃ m, 1 < m ∧ ((after step (init : Driver UInt8)
          (callThenSignal (.read ⟨false, false, false⟩ [0] 1)) m).procs 0).free = true) ∨
        ∀ N, ∃ m, N < (after step (init : Driver UInt8)
          (callThenSignal (.read ⟨false, false, false⟩ [0] 1)) m).taken.length) :=
  ⟨(signal_ends_wait (thenAll_fair _ 0) rfl rfl).1 rfl,
    (signal_ends_wait (thenAll_fair _ 0) rfl rfl).2 rfl⟩

end Driver

end

end QrngDevice
