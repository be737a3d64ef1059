import QrngDevice.Driver.ReadNonblocking
import QrngDevice.Driver.Side
import QrngDevice.Driver.WriteCall

/-!
# What a poll promises

`qrng_poll` answers without the mutex, and any number of steps may separate its answer from the call
that relies on it. The answer still holds then if only one process moves the cursor in question
(`Polled.epollout`, `Polled.pollin`). So the next write or non-blocking read of that process moves at least
one byte (`write_after_poll`, `read_after_poll`).
-/

namespace QrngDevice

open Runs RingBuffer

variable {β : Type*} [Zero β]

/-! ## What a poll has found -/

omit [Zero β] in
/-- What a poll has found about the side of the writers is true. -/
def Proc.FoundOut (r : RingBuffer β) : Proc β → Prop
  | .poll _ (.outFlag k) => k = r.qrngBuffWriteIt
  | .poll c .inCursor => c.res.epollout = true → Side.out.Ready r
  | .poll c (.inFlag _) => c.res.epollout = true → Side.out.Ready r
  | .returned (.poll (some revents)) => revents.epollout = true → Side.out.Ready r
  | _ => True

omit [Zero β] in
/-- What a poll has found about the side of the readers is true. -/
def Proc.FoundIn (r : RingBuffer β) : Proc β → Prop
  | .poll _ (.inFlag k) => k = r.qrngBuffReadIt
  | .returned (.poll (some revents)) => revents.pollin = true → Side.inn.Ready r
  | _ => True

omit [Zero β] in
/-- A process in no poll has found nothing. -/
theorem Proc.found_of_not_isPoll {P : Proc β} (h : ¬ P.isPoll = true) (r : RingBuffer β) :
    P.FoundOut r ∧ P.FoundIn r := by
  rcases P with _ | ⟨c, pc⟩ | ⟨c, pc⟩ | ⟨c, pc⟩ | (_ | _ | _)
  · exact ⟨trivial, trivial⟩
  · exact ⟨trivial, trivial⟩
  · exact ⟨trivial, trivial⟩
  · exact absurd rfl h
  · exact ⟨trivial, trivial⟩
  · exact ⟨trivial, trivial⟩
  · exact absurd rfl h

omit [Zero β] in
/-- The end of `qrng_poll` reports events that it has found, as far as they are asked for, or the poll
goes on, or a signal ends it. -/
theorem PollCall.inFlag_cases (c : PollCall) (r : RingBuffer β) (k : ℕ) :
    (∃ revents, (c.step r (.inFlag k)).proc = .returned (.poll (some revents)) ∧
        (revents.epollout = true → c.res.epollout = true) ∧
        (revents.pollin = true → r.qrngBuffReady k = true)) ∨
      ∀ r', (c.step r (.inFlag k)).proc.FoundOut r' ∧ (c.step r (.inFlag k)).proc.FoundIn r' := by
  simp only [PollCall.step]
  split_ifs
  · refine Or.inl ⟨_, rfl, ?_⟩
    simp only [PollMask.inter, Bool.and_eq_true]
    exact ⟨And.left, And.left⟩
  · exact Or.inr fun _ => ⟨trivial, trivial⟩
  · exact Or.inr fun _ => ⟨trivial, trivial⟩
  · exact Or.inr fun _ => ⟨trivial, trivial⟩

/-- What a poll has found stays true while its process is the only writer. -/
theorem foundOut_stable : (Side.out : Side β).Stable fun r P => P.FoundOut r where
  own r P h := by
    by_cases hpoll : P.isPoll = true
    · rcases P with _ | ⟨c, pc⟩ | ⟨c, pc⟩ | ⟨c, pc⟩ | res
      · trivial
      · exact absurd hpoll (by simp [Proc.isPoll])
      · exact absurd hpoll (by simp [Proc.isPoll])
      · have hring : ((Proc.poll c pc).step r).ring = r := (Proc.step_exec r _).2.2
        rw [hring]
        cases pc with
        | register => trivial
        | outCursor => rfl
        | outFlag k =>
          -- The cursor loaded is still the current one.
          intro hres
          have hk : k = r.qrngBuffWriteIt := h
          simpa [hk, Side.Ready, Side.out] using hres
        | inCursor => exact h
        | inFlag k =>
          rcases c.inFlag_cases r k with ⟨revents, hstep, hout, -⟩ | hfound
          · show ((c.step r (.inFlag k)).proc).FoundOut r
            rw [hstep]
            exact fun hrev => h (hout hrev)
          · exact (hfound r).1
        | asleep => trivial
      · exact h
    · exact (Proc.found_of_not_isPoll (fun h => hpoll ((Proc.step_kind r P).2.2 h)) _).1
  other r r' P P' hkeeps hn h := by
    rcases P with _ | ⟨c, pc⟩ | ⟨c, pc⟩ | ⟨c, pc⟩ | res
    · rw [hn.idle]
      trivial
    · exact (Proc.found_of_not_isPoll (by rw [hn.kind.2.2]; simp [Proc.isPoll]) _).1
    · exact (Proc.found_of_not_isPoll (by rw [hn.kind.2.2]; simp [Proc.isPoll]) _).1
    · obtain ⟨t, s, pc', rfl, rfl | ⟨-, rfl⟩⟩ := hn.poll
      · cases pc' with
        | outFlag k => exact Eq.trans h hkeeps.cursor_eq.symm
        | inCursor => exact fun hres => hkeeps.readyAt (h hres)
        | inFlag k => exact fun hres => hkeeps.readyAt (h hres)
        | _ => trivial
      · trivial
    · rw [hn.returned]
      rcases res with _ | _ | (_ | revents)
      · trivial
      · trivial
      · trivial
      · exact fun hout => hkeeps.readyAt (h hout)

/-- What a poll has found stays true while its process is the only reader. -/
theorem foundIn_stable : (Side.inn : Side β).Stable fun r P => P.FoundIn r where
  own r P h := by
    by_cases hpoll : P.isPoll = true
    · rcases P with _ | ⟨c, pc⟩ | ⟨c, pc⟩ | ⟨c, pc⟩ | res
      · trivial
      · exact absurd hpoll (by simp [Proc.isPoll])
      · exact absurd hpoll (by simp [Proc.isPoll])
      · have hring : ((Proc.poll c pc).step r).ring = r := (Proc.step_exec r _).2.2
        rw [hring]
        cases pc with
        | inCursor => rfl
        | inFlag k =>
          rcases c.inFlag_cases r k with ⟨revents, hstep, -, hin⟩ | hfound
          · -- The cursor loaded is still the current one.
            show ((c.step r (.inFlag k)).proc).FoundIn r
            rw [hstep]
            intro hrev
            have hk : k = r.qrngBuffReadIt := h
            have hflag := hin hrev
            rwa [hk] at hflag
          · exact (hfound r).2
        | _ => trivial
      · exact h
    · exact (Proc.found_of_not_isPoll (fun h => hpoll ((Proc.step_kind r P).2.2 h)) _).2
  other r r' P P' hkeeps hn h := by
    rcases P with _ | ⟨c, pc⟩ | ⟨c, pc⟩ | ⟨c, pc⟩ | res
    · rw [hn.idle]
      trivial
    · exact (Proc.found_of_not_isPoll (by rw [hn.kind.2.2]; simp [Proc.isPoll]) _).2
    · exact (Proc.found_of_not_isPoll (by rw [hn.kind.2.2]; simp [Proc.isPoll]) _).2
    · obtain ⟨t, s, pc', rfl, rfl | ⟨-, rfl⟩⟩ := hn.poll
      · cases pc' with
        | inFlag k => exact Eq.trans h hkeeps.cursor_eq.symm
        | _ => trivial
      · trivial
    · rw [hn.returned]
      rcases res with _ | _ | (_ | revents)
      · trivial
      · trivial
      · trivial
      · exact fun hin => hkeeps.readyAt (h hin)

omit [Zero β] in
/-- Nothing has been found before a call and at its start. -/
theorem Proc.found_start (r : RingBuffer β) (c : Call β) :
    (Proc.start c).FoundOut r ∧ (Proc.start c).FoundIn r := by
  cases c <;> exact ⟨trivial, trivial⟩

namespace Driver

/-- After the labels `ls`, process `p` has returned from a poll that has reported `revents`, and from
the start of that poll on, no other process was in a call on the side. -/
def Polled (S : Side β) (p : Pid) (ls : List (Label β)) (revents : PollMask) : Prop :=
  ∃ ls₀ events ls', ls = ls₀ ++ .call p (.poll events) :: ls' ∧
    (((init : Driver β).run ls₀).procs p).free = true ∧ Alone S p ((init : Driver β).run ls₀) ∧
    (∀ l ∈ ls', l.Leaves S p) ∧
    ((init : Driver β).run ls).procs p = .returned (.poll (some revents))

variable {S : Side β} {p : Pid} {ls ls₁ : List (Label β)} {revents : PollMask}

/-- What such a poll has found, if it is stable, is true, and no process is in a call on the side. -/
theorem Polled.found {Φ : RingBuffer β → Proc β → Prop} (h : Polled S p ls revents)
    (hΦ : S.Stable Φ) (hS : S.Lawful) (hstart : ∀ r c, Φ r (.start c))
    (hacts : S.acts (.returned (.poll (some revents))) = false) :
    Quiet S ((init : Driver β).run ls) ∧
      Φ ((init : Driver β).run ls).ring (.returned (.poll (some revents))) := by
  obtain ⟨ls₀, events, ls', rfl, hfree, halone, hls', hpoll⟩ := h
  have henter : ((init : Driver β).run (ls₀ ++ .call p (.poll events) :: ls')) =
      (enter ls₀ p (.poll events)).run ls' := by
    simp only [Driver.run, run_append, run_cons, enter]
  have hentered : Alone S p (enter ls₀ p (.poll events)) ∧
      Φ (enter ls₀ p (.poll events)).ring ((enter ls₀ p (.poll events)).procs p) := by
    refine ⟨halone.step hS (Or.inl rfl), ?_⟩
    rw [(enter_of_free hfree).1]
    exact hstart _ _
  rw [henter] at hpoll ⊢
  obtain ⟨halone', hfound⟩ := hΦ.run hS hstart hls' hentered
  rw [hpoll] at hfound
  exact ⟨halone'.quiet (by rw [hpoll]; exact hacts), hfound⟩

/-- If a poll has reported `EPOLLOUT` to the only writer, the ring is not full, and stays so while no
process enters a write. -/
theorem Polled.epollout (h : Polled Side.out p ls revents) (hout : revents.epollout = true)
    (hls₁ : ∀ l ∈ ls₁, l.Avoids Side.out) :
    Quiet Side.out ((init : Driver β).run (ls ++ ls₁)) ∧
      Side.out.Ready ((init : Driver β).run (ls ++ ls₁)).ring := by
  obtain ⟨hquiet, hfound⟩ := h.found foundOut_stable Side.out_lawful
    (fun r c => (Proc.found_start r c).1) rfl
  rw [Driver.run, run_append]
  exact run_invariant (Quiet.step Side.out_lawful) hls₁ ⟨hquiet, hfound hout⟩

/-- If a poll has reported `POLLIN` to the only reader, the ring is not empty, and stays so while no
process enters a read. -/
theorem Polled.pollin (h : Polled Side.inn p ls revents) (hin : revents.pollin = true)
    (hls₁ : ∀ l ∈ ls₁, l.Avoids Side.inn) :
    Quiet Side.inn ((init : Driver β).run (ls ++ ls₁)) ∧
      Side.inn.Ready ((init : Driver β).run (ls ++ ls₁)).ring := by
  obtain ⟨hquiet, hfound⟩ := h.found foundIn_stable Side.inn_lawful
    (fun r c => (Proc.found_start r c).2) rfl
  rw [Driver.run, run_append]
  exact run_invariant (Quiet.step Side.inn_lawful) hls₁ ⟨hquiet, hfound hin⟩

end Driver

/-! ## The write after a poll -/

omit [Zero β] in
/-- The iterator of a write section moves by the bytes that the section reports. -/
theorem RingBuffer.writeRandomBytesQrng_off (r : RingBuffer β) (it : IovIter β) :
    (r.writeRandomBytesQrng it).iter.off = it.off + (r.writeRandomBytesQrng it).ret := by
  have hloop : ∀ (rounds : ℕ) (s : WriteState β),
      (writeLoop rounds s).iter.off + s.ret = s.iter.off + (writeLoop rounds s).ret := by
    intro rounds
    induction rounds with
    | zero => exact fun s => rfl
    | succ rounds ih =>
      intro s
      rw [writeLoop]
      split_ifs
      · -- A copy that succeeds moves the iterator by one byte, and a copy that fails does not.
        have hcopy : ∀ b it', copyFromIter s.iter = (some b, it') → it'.off = s.iter.off + 1 := by
          intro b it' h
          unfold copyFromIter at h
          split at h
          · split_ifs at h
            · simp only [Prod.mk.injEq] at h
              rw [← h.2]
            · simp at h
          · simp at h
        have hfail : ∀ it', copyFromIter s.iter = (none, it') → it'.off = s.iter.off := by
          intro it' h
          unfold copyFromIter at h
          split at h
          · split_ifs at h
            · simp at h
            · simp only [Prod.mk.injEq] at h
              rw [← h.2]
          · simp only [Prod.mk.injEq] at h
            rw [← h.2]
        -- A failed copy ends the loop without a count, and the other one is counted.
        rcases hc : copyFromIter s.iter with ⟨_ | b, it'⟩
        · simp only [hfail it' hc]
        · have hrest := ih ⟨s.ret + 1, s.ring.put b, it'⟩
          simp only [hcopy b it' hc] at hrest ⊢
          omega
      · rfl
  unfold writeRandomBytesQrng
  split_ifs
  · simpa using hloop (iovIterCount it) ⟨0, r, it⟩
  · rfl

omit [Zero β] in
/-- A write that has written nothing yet will find the slot under the cursor free. -/
def Proc.WillWrite (r : RingBuffer β) : Proc β → Prop
  | .write c .entry => c.iter.off = 0 → Side.out.Ready r
  | .write c .testCursor => c.iter.off = 0 → Side.out.Ready r
  | .write c (.testFlag k) => c.iter.off = 0 → k = r.qrngBuffWriteIt ∧ Side.out.Ready r
  | .write c .append => c.iter.off = 0 → Side.out.Ready r
  | .write c (.wakeRead _) => c.iter.off ≠ 0
  | .write c (.wakePoll _) => c.iter.off ≠ 0
  | .returned (.write _ _) => True
  | _ => False

/-- The only writer can rely on it. -/
theorem willWrite_stable : (Side.out : Side β).Stable fun r P => P.WillWrite r where
  own r P h := by
    rcases P with _ | ⟨c, pc⟩ | ⟨c, pc⟩ | ⟨c, pc⟩ | res
    · exact h.elim
    · exact h.elim
    · -- After the first section, the iterator is past its start, and nothing more is asked of the
      -- ring. Before it, the ring keeps its free slot.
      have hloop : ∀ (r : RingBuffer β) (c : WriteCall β), (c.iter.off = 0 → Side.out.Ready r) →
          c.loop.WillWrite r := by
        intro r c hready
        unfold WriteCall.loop
        split_ifs
        · exact hready
        · trivial
      cases pc with
      | entry =>
        simp only [Proc.step, WriteCall.step]
        split_ifs
        · trivial
        · exact hloop r c h
      | testCursor => exact fun h0 => ⟨rfl, h h0⟩
      | testFlag k =>
        simp only [Proc.step, WriteCall.step]
        split_ifs
        · trivial
        · exact fun h0 => (h h0).2
      | append =>
        have hoff := r.writeRandomBytesQrng_off c.iter
        simp only [Proc.step, WriteCall.step]
        split_ifs with h0
        · trivial
        · -- Something was written, so the iterator has moved.
          show (r.writeRandomBytesQrng c.iter).iter.off ≠ 0
          omega
      | wakeRead n => exact h
      | wakePoll n => exact hloop r { c with ret := c.ret + n } fun h0 => absurd h0 h
    · exact h.elim
    · exact h
  other r r' P P' hkeeps hn h := by
    rcases P with _ | ⟨c, pc⟩ | ⟨c, pc⟩ | ⟨c, pc⟩ | res
    · exact h.elim
    · exact h.elim
    · rw [hn.write]
      cases pc with
      | entry => exact fun h0 => hkeeps.readyAt (h h0)
      | testCursor => exact fun h0 => hkeeps.readyAt (h h0)
      -- The cursor that was loaded is still the current one, since nobody else moves it.
      | testFlag k => exact fun h0 => ⟨(h h0).1.trans hkeeps.cursor_eq.symm, hkeeps.readyAt (h h0).2⟩
      | append => exact fun h0 => hkeeps.readyAt (h h0)
      | wakeRead n => exact h
      | wakePoll n => exact h
    · exact h.elim
    · rw [hn.returned]
      cases res with
      | write ret it => trivial
      | _ => exact h.elim

omit [Zero β] in
/-- Such a write does not find the ring full. -/
theorem Proc.WillWrite.not_findsFull {r : RingBuffer β} {P : Proc β} (h : P.WillWrite r) :
    ¬ P.FindsFull r := by
  intro hfull
  rcases P with _ | ⟨c, pc⟩ | ⟨c, pc⟩ | ⟨c, pc⟩ | res
  · exact h
  · exact h
  · cases pc with
    | testFlag k =>
      obtain ⟨hk, hready⟩ := h hfull.1
      have hflag : r.qrngBuffReady k = false := by rw [hk]; exact hready
      rw [hfull.2] at hflag
      exact absurd hflag (by simp)
    | append =>
      have hflag : r.qrngBuffReady r.qrngBuffWriteIt = false := h hfull.1
      have hfull' := hfull.2
      rw [writeReady, hflag] at hfull'
      exact absurd hfull' (by simp)
    | _ => exact hfull
  · exact h
  · cases res <;> exact hfull

namespace Driver

/-- Process `p` is in a write of `buf`, as the only writer, and can rely on a free slot. It had
appended `ys` before. -/
structure Promised (buf : List β) (limit : ℕ) (p : Pid) (ys : List β) (σ : Driver β) : Prop where
  /-- The ring represents a queue. -/
  accounted : σ.Accounted
  /-- No other process is in a write. -/
  alone : Alone Side.out p σ
  /-- The phase of the write. -/
  phase : ∃ xs, WritePhase buf limit (σ.procs p) xs ∧ σ.appendedBy p = ys ++ xs
  /-- The write will find a free slot. -/
  will : (σ.procs p).WillWrite σ.ring
  /-- It has not found the ring full. -/
  not_efault : ¬ (σ.procs p).FullEfault

variable {p : Pid} {ls ls₁ ls' : List (Label β)} {revents : PollMask} {buf ys : List β} {limit : ℕ}
  {σ : Driver β}

/-- A write is promised if it is entered with a free slot under the cursor. -/
theorem promised_call (hacc : σ.Accounted) (halone : Alone Side.out p σ)
    (hfree : (σ.procs p).free = true) (hready : Side.out.Ready σ.ring) (hys : σ.appendedBy p = ys) :
    Promised buf limit p ys (σ.step (.call p (.write buf limit))) := by
  have hcall : (σ.step (.call p (.write buf limit))).procs p = .start (.write buf limit) := by
    simp [Driver.step, hfree]
  have hring : (σ.step (.call p (.write buf limit))).ring = σ.ring := by
    simp only [Driver.step, if_pos hfree]
  refine ⟨hacc.step _, halone.step Side.out_lawful (Or.inl rfl), ⟨[], ?_, ?_⟩, ?_, ?_⟩
  · rw [hcall]
    exact .start buf limit
  · rw [List.append_nil, ← hys]
    exact (step_records σ (by simp)).2.1
  · rw [hcall, hring]
    exact fun _ => hready
  · rw [hcall]
    rintro ⟨it, heq, -⟩
    cases heq

/-- What any process does keeps the promise. -/
theorem Promised.step (σ : Driver β) (l : Label β) (hl : l.KeepsCall p ∧ l.Leaves Side.out p)
    (h : Promised buf limit p ys σ) : Promised buf limit p ys (σ.step l) := by
  obtain ⟨xs, hphase, hxs⟩ := h.phase
  obtain ⟨halone, hwill⟩ := willWrite_stable.step Side.out_lawful σ l hl ⟨h.alone, h.will⟩
  obtain ⟨q, hrep, -⟩ := h.accounted
  by_cases hown : l = .sched p
  · subst hown
    refine ⟨h.accounted.step _, halone, ⟨xs ++ ((σ.procs p).step σ.ring).appended, ?_, ?_⟩, hwill,
      ?_⟩
    · rw [Driver.step, sched_procs_self]
      exact hphase.step hrep
    · rw [Driver.step, sched_appendedBy, if_pos rfl, hxs, List.append_assoc]
    · rw [Driver.step, sched_procs_self, hphase.fullEfault_step hrep]
      exact fun h' => h'.elim h.not_efault h.will.not_findsFull
  · have hproc := hphase.eq_of_nudge (step_nudge σ hl.1 hown)
    refine ⟨h.accounted.step _, halone, ⟨xs, ?_, ?_⟩, hwill, ?_⟩
    · rwa [hproc]
    · rw [(step_records σ hown).2.1, hxs]
    · rw [hproc]
      exact h.not_efault

/-- A promised write of `n > 0` readable bytes has returned `k` in `1..n`, and has appended the first
`k` bytes of its source. -/
theorem Promised.result {ret : ℤ} {it : IovIter β} (h : Promised buf limit p ys σ)
    (hret : σ.procs p = .returned (.write ret it)) (hbuf : buf ≠ []) (hlimit : buf.length ≤ limit) :
    ∃ k : ℕ, ret = k ∧ 1 ≤ k ∧ k ≤ buf.length ∧ σ.appendedBy p = ys ++ buf.take k := by
  obtain ⟨xs, hphase, hxs⟩ := h.phase
  have hfull := h.not_efault
  rw [hret] at hphase hfull
  cases hphase with
  | empty hbuf' hit hnil => exact absurd hbuf' hbuf
  | wrote hit hpos htake =>
    have hoff := hit.off_le
    exact ⟨it.off, rfl, hpos, by omega, by rw [hxs, htake]⟩
  | efault hit hoff hbuf' hnil =>
    -- A copy cannot have failed either, since all of the source is readable.
    refine absurd ⟨it, rfl, ?_⟩ hfull
    by_contra hf
    have := hit.faulted (by simpa using hf)
    omega

/-- If a poll has reported `EPOLLOUT` to the only writer, then after any steps `ls₁`, its next write of
`n > 0` readable bytes returns a value in `1..n`. -/
theorem write_after_poll (hpolled : Polled Side.out p ls revents) (hout : revents.epollout = true)
    (hls₁ : ∀ l ∈ ls₁, l.Avoids Side.out)
    (hfree : (((init : Driver β).run (ls ++ ls₁)).procs p).free = true) (hbuf : buf ≠ [])
    (hlimit : buf.length ≤ limit) (hls' : ∀ l ∈ ls', l.KeepsCall p ∧ l.Leaves Side.out p)
    (hsteps : 6 * buf.length + 4 ≤ ls'.countP (Label.isSched p)) :
    ∃ ret it, ((enter (ls ++ ls₁) p (.write buf limit)).run ls').procs p =
        .returned (.write ret it) ∧ 1 ≤ ret ∧ ret ≤ buf.length := by
  obtain ⟨hquiet, hready⟩ := hpolled.epollout hout hls₁
  obtain ⟨ret, it, hret⟩ := write_returns hfree buf limit (fun l hl => (hls' l hl).1) hsteps
  have hpromised : Promised buf limit p (((init : Driver β).run (ls ++ ls₁)).appendedBy p)
      ((enter (ls ++ ls₁) p (.write buf limit)).run ls') :=
    run_invariant Promised.step hls' (promised_call (run_accounted _) (hquiet p) hfree hready rfl)
  obtain ⟨k, rfl, hpos, hle, -⟩ := hpromised.result hret hbuf hlimit
  exact ⟨k, it, hret, by omega, by omega⟩

end Driver

/-! ## The read after a poll -/

omit [Zero β] in
/-- A non-blocking read that has taken nothing yet will find the slot under the cursor filled. -/
def Proc.WillRead (r : RingBuffer β) : Proc β → Prop
  | .read _ .testCursor => Side.inn.Ready r
  | .read _ (.testFlag k) => k = r.qrngBuffReadIt ∧ Side.inn.Ready r
  | .read c .take => c.iter.off = 0 → Side.inn.Ready r
  | _ => True

variable {buf : List β} {limit : ℕ}

/-- The only reader can rely on it, in the course of a non-blocking read. -/
theorem willRead_stable (hlimit : buf.length ≤ limit) :
    (Side.inn : Side β).Stable fun r P => (∃ xs, ReadPhase true buf limit P xs) ∧ P.WillRead r where
  own r P h := by
    obtain ⟨⟨xs, hphase⟩, hwill⟩ := h
    refine ⟨⟨_, hphase.step r⟩, ?_⟩
    have hloop : ∀ (r : RingBuffer β) (c : ReadCall β), (c.iter.off = 0 → Side.inn.Ready r) →
        c.loop.WillRead r := by
      intro r c hready
      unfold ReadCall.loop
      split_ifs
      · exact hready
      · trivial
      · trivial
    cases hphase with
    | @start c pc _ hpc hnb hit hret hxs =>
      rcases hpc with rfl | ⟨k, rfl⟩
      · exact ⟨rfl, hwill⟩
      · simp only [Proc.step, ReadCall.step]
        split_ifs
        · trivial
        · trivial
        · exact hloop r c fun _ => hwill.2
    | @take c _ hnb hit hlt hret =>
      simp only [Proc.step, ReadCall.step, hnb]
      cases r.getRandomByte with
      | none => trivial
      | some br => trivial
    | @held c pc b _ ys hpc hnb hit hlt hret hxs =>
      cases pc with
      | copy b' =>
        -- The copy moves the iterator, so that nothing is promised any more.
        obtain ⟨-, hoff', hone⟩ := hit.copyToIter hlt b'
        have hcopied : (copyToIter b' c.iter).1 = 1 := hone.mpr (by omega)
        have hmoved : (copyToIter b' c.iter).2.off ≠ 0 := by omega
        exact hloop r { c with
          iter := (copyToIter b' c.iter).2
          ret := c.ret + (copyToIter b' c.iter).1 } fun h0 => absurd h0 hmoved
      | wakeFlag b' k =>
        simp only [Proc.step, ReadCall.step]
        split_ifs <;> trivial
      | wakePoll b' => trivial
      | wakeCursor b' => trivial
      | wakeRead b' => trivial
      | _ => simp [ReadPc.held] at hpc
    | wait hpc hnb hblock hit hlt hret => exact absurd hblock (by simp)
    | again hnb hit hxs => trivial
    | short hnb hit hlt => trivial
    | full hit hoff => trivial
    | interrupted hnb hit hlt => trivial
  other r r' P P' hkeeps hn h := by
    obtain ⟨⟨xs, hphase⟩, hwill⟩ := h
    refine ⟨⟨xs, hphase.nudge hn⟩, ?_⟩
    cases hphase with
    | start hpc hnb hit hret hxs =>
      obtain ⟨s, pc', rfl, rfl | ⟨hw, -⟩⟩ := hn.read
      · rcases hpc with rfl | ⟨k, rfl⟩
        · exact hkeeps.readyAt hwill
        · exact ⟨hwill.1.trans hkeeps.cursor_eq.symm, hkeeps.readyAt hwill.2⟩
      · rcases hpc with rfl | ⟨k, rfl⟩ <;> simp [ReadPc.waiting] at hw
    | take hnb hit hlt hret =>
      obtain ⟨s, pc', rfl, rfl | ⟨hw, -⟩⟩ := hn.read
      · exact fun h0 => hkeeps.readyAt (hwill h0)
      · simp [ReadPc.waiting] at hw
    | @held c pc b _ ys hpc hnb hit hlt hret hxs =>
      obtain ⟨s, pc', rfl, rfl | ⟨hw, -⟩⟩ := hn.read
      · cases pc' with
        | take => simp [ReadPc.held] at hpc
        | testCursor => simp [ReadPc.held] at hpc
        | testFlag k => simp [ReadPc.held] at hpc
        | _ => trivial
      · cases pc <;> simp [ReadPc.waiting, ReadPc.held] at hw hpc
    | wait hpc hnb hblock hit hlt hret => exact absurd hblock (by simp)
    | again hnb hit hxs => rw [hn.returned]; trivial
    | short hnb hit hlt => rw [hn.returned]; trivial
    | full hit hoff => rw [hn.returned]; trivial
    | interrupted hnb hit hlt => rw [hn.returned]; trivial

omit [Zero β] in
/-- Such a read finds neither the flag clear in its first test nor the ring empty in its first take. -/
theorem Proc.WillRead.earlyReturn {r : RingBuffer β} {P : Proc β} (h : P.WillRead r) :
    (¬ ∃ c k, P = .read c (.testFlag k) ∧ r.qrngBuffReady k = false) ∧ ¬ P.FindsDrained r := by
  constructor
  · rintro ⟨c, k, rfl, hclear⟩
    have hready : r.qrngBuffReady k = true := by rw [h.1]; exact h.2
    rw [hclear] at hready
    exact absurd hready (by simp)
  · intro hdrained
    unfold Proc.FindsDrained at hdrained
    split at hdrained
    · have hready : r.readReady = true := h hdrained.1
      rw [hdrained.2] at hready
      exact absurd hready (by simp)
    · exact hdrained

namespace Driver

variable {p : Pid} {ls ls₁ ls' : List (Label β)} {revents : PollMask} {kiocb : Kiocb}

/-- If a poll has reported `POLLIN` to the only reader, then after any steps `ls₁`, its next
non-blocking read of `n > 0` bytes into an accessible destination returns a value in `1..n`. -/
theorem read_after_poll (hpolled : Polled Side.inn p ls revents) (hin : revents.pollin = true)
    (hls₁ : ∀ l ∈ ls₁, l.Avoids Side.inn)
    (hfree : (((init : Driver β).run (ls ++ ls₁)).procs p).free = true)
    (hnb : kiocb.nonblocking = true) (hbuf : buf ≠ []) (hlimit : buf.length ≤ limit)
    (hls' : ∀ l ∈ ls', l.KeepsCall p ∧ l.Leaves Side.inn p)
    (hsteps : 6 * buf.length + 8 ≤ ls'.countP (Label.isSched p)) :
    ∃ ret it, ((enter (ls ++ ls₁) p (.read kiocb buf limit)).run ls').procs p =
        .returned (.read ret it) ∧ 1 ≤ ret ∧ ret ≤ buf.length := by
  obtain ⟨hquiet, hready⟩ := hpolled.pollin hin hls₁
  have hkeep' : ∀ l ∈ ls', l.KeepsCall p := fun l hl => (hls' l hl).1
  generalize ls ++ ls₁ = ls at hfree hquiet hready ⊢
  obtain ⟨hprocs, hring, -, -⟩ := enter_of_free (c := .read kiocb buf limit) hfree
  have henter : Alone Side.inn p (enter ls p (.read kiocb buf limit)) ∧
      (∃ xs, ReadPhase true buf limit ((enter ls p (.read kiocb buf limit)).procs p) xs) ∧
        ((enter ls p (.read kiocb buf limit)).procs p).WillRead
          (enter ls p (.read kiocb buf limit)).ring := by
    refine ⟨(hquiet p).step Side.inn_lawful (Or.inl rfl), ?_⟩
    rw [hprocs, hring, ← hnb]
    exact ⟨⟨[], .entry kiocb buf limit⟩, hready⟩
  -- So no step of the read returns early.
  have hearly : ∀ v, v = -EAGAIN ∨ v = 0 →
      ¬ ∃ t, At Driver.step (enter ls p (.read kiocb buf limit)) ls' t (.sched p) ∧
        (t.procs p).earlyReturn t.ring = some v := by
    rintro v hv ⟨t, hat, hret⟩
    obtain ⟨-, ⟨xs, hphase⟩, hwill⟩ :=
      hat.invariant ((willRead_stable hlimit).step Side.inn_lawful) hls' henter
    rcases hv with rfl | rfl
    · exact hwill.earlyReturn.1 ((hphase.earlyReturn_again _).mp hret)
    · exact hwill.earlyReturn.2 ((hphase.earlyReturn_zero _).mp hret)
  obtain ⟨ret, it, xs, hret, -, hresult⟩ := nonblocking_read_returns hfree hnb hlimit hkeep' hsteps
  have hpos : 0 < buf.length := List.length_pos_iff.mpr hbuf
  have hagain := read_returns_iff hfree kiocb hbuf limit hkeep' (v := -EAGAIN)
    (by simp only [EAGAIN]; omega)
  have hzero := read_returns_iff hfree kiocb hbuf limit hkeep' (v := 0) (by omega)
  rw [hret, Proc.returns_returned] at hagain hzero
  refine ⟨ret, it, hret, ?_⟩
  rcases hresult with ⟨hret', -⟩ | ⟨hret', hle⟩
  · exact absurd (hagain.mp hret') (hearly _ (Or.inl rfl))
  · have hne : ret ≠ 0 := fun h0 => hearly _ (Or.inr rfl) (hzero.mp h0)
    omega

end Driver

end QrngDevice
