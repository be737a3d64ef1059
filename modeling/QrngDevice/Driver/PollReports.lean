import QrngDevice.Driver.Side

/-!
# What a poll reports

`qrng_poll` looks at one flag for each side of the ring, without the mutex and at a cursor that may
have moved on since it was loaded. Still, a flag that is clear is that of a free slot, and one that is set
that of a byte, wherever the cursors are. So what a poll reports was there at some moment of the call
(`poll_reports`). It uses that a cursor, once loaded, is an index of the ring, for every process and
whatever the others do (`cursor_lt`).
-/

namespace QrngDevice

variable {β : Type*}

/-! ## The cursors that processes have loaded -/

/-- The index at which the next step of a process loads a flag without the mutex, if it does. -/
def Proc.cursor : Proc β → Option ℕ
  | .read _ (.testFlag k) => some k
  | .read _ (.wakeFlag _ k) => some k
  | .read _ (.waitFlag _ k) => some k
  | .write _ (.testFlag k) => some k
  | .poll _ (.outFlag k) => some k
  | .poll _ (.inFlag k) => some k
  | _ => none

/-- A nudge does not change it. -/
theorem Proc.Nudge.cursor {P P' : Proc β} (hn : P.Nudge P') : P'.cursor = P.cursor := by
  cases hn with
  | woken wr wp =>
    rcases P with _ | ⟨c, pc⟩ | ⟨c, pc⟩ | ⟨c, pc⟩ | res <;> cases wr <;> cases wp <;> try rfl
    all_goals cases pc <;> rfl
  | signalled =>
    rcases P with _ | ⟨c, pc⟩ | ⟨c, pc⟩ | ⟨c, pc⟩ | res <;> try rfl
    all_goals cases pc <;> rfl

/-- At the head of its loop, a read has loaded none. -/
theorem ReadCall.cursor_loop (c : ReadCall β) : c.loop.cursor = none := by
  unfold ReadCall.loop
  split_ifs <;> rfl

/-- Nor has a write. -/
theorem WriteCall.cursor_loop (c : WriteCall β) : c.loop.cursor = none := by
  unfold WriteCall.loop
  split_ifs <;> rfl

variable [Zero β]

/-- A step loads one of the cursors of the ring. -/
theorem Proc.cursor_step (r : RingBuffer β) (P : Proc β) {k : ℕ}
    (h : (P.step r).proc.cursor = some k) : k = r.qrngBuffReadIt ∨ k = r.qrngBuffWriteIt := by
  rcases P with _ | ⟨c, pc⟩ | ⟨c, pc⟩ | ⟨c, pc⟩ | res
  · cases h
  · cases pc with
    -- A read loads the read cursor in its first test, after a take, and in its wait. Its other
    -- steps drop the cursor that they had, and the head of the loop has none.
    | testCursor => exact Or.inl (Option.some.inj h).symm
    | wakeCursor b => exact Or.inl (Option.some.inj h).symm
    | waitCursor woken => exact Or.inl (Option.some.inj h).symm
    | testFlag k' =>
      simp only [step, ReadCall.step] at h
      split_ifs at h
      · cases h
      · cases h
      · rw [c.cursor_loop] at h
        cases h
    | take =>
      simp only [step, ReadCall.step] at h
      split at h
      · split_ifs at h <;> cases h
      · cases h
    | wakeFlag b k' =>
      simp only [step, ReadCall.step] at h
      split_ifs at h <;> cases h
    | waitFlag woken k' =>
      simp only [step, ReadCall.step] at h
      split_ifs at h
      · rw [c.cursor_loop] at h
        cases h
      · cases h
      · cases h
      · cases h
    | copy b =>
      simp only [step, ReadCall.step, ReadCall.cursor_loop] at h
      cases h
    | _ => cases h
  · cases pc with
    -- A write loads the write cursor in its unlocked test only.
    | testCursor => exact Or.inr (Option.some.inj h).symm
    | entry =>
      simp only [step, WriteCall.step] at h
      split_ifs at h
      · cases h
      · rw [c.cursor_loop] at h
        cases h
    | testFlag k' =>
      simp only [step, WriteCall.step] at h
      split_ifs at h <;> cases h
    | append =>
      simp only [step, WriteCall.step] at h
      split_ifs at h <;> cases h
    | wakePoll copied =>
      simp only [step, WriteCall.step, WriteCall.cursor_loop] at h
      cases h
    | _ => cases h
  · cases pc with
    -- A poll loads both, one after the other.
    | outCursor => exact Or.inr (Option.some.inj h).symm
    | inCursor => exact Or.inl (Option.some.inj h).symm
    | inFlag k' =>
      simp only [step, PollCall.step] at h
      split_ifs at h <;> cases h
    | _ => cases h
  · cases h

namespace Driver

/-- Every cursor loaded is an index of the ring. -/
theorem cursor_lt (ls : List (Label β)) (p : Pid) {k : ℕ}
    (h : (((init : Driver β).run ls).procs p).cursor = some k) : k < BUFF_SIZE := by
  induction ls using List.reverseRecOn generalizing k with
  | nil => cases h
  | append_singleton ls l ih =>
    simp only [Driver.run, Runs.run_append, Runs.run_cons, Runs.run_nil] at h ih
    have hholds := (run_represents ls).holds
    simp only [Driver.run] at hholds
    generalize Runs.run step init ls = σ at h ih hholds
    by_cases hown : l = .sched p
    · subst hown
      rw [step, sched_procs_self] at h
      rcases Proc.cursor_step _ _ h with rfl | rfl
      · exact hholds.read_lt
      · exact hholds.write_lt
    · by_cases hkeep : l.KeepsCall p
      · exact ih ((step_nudge σ hkeep hown).cursor ▸ h)
      · -- A call that is entered has loaded no cursor.
        cases l with
        | call q c =>
          obtain rfl : q = p := not_not.mp hkeep
          simp only [step] at h
          split_ifs at h with hfree
          · simp only [Function.update_self] at h
            cases c <;> cases h
          · exact ih h
        | sched q => exact absurd trivial hkeep
        | signal q => exact absurd trivial hkeep

end Driver

/-! ## What a poll has seen -/

/-- A poll for `events` has seen what it is going to report: `out` and `inn` hold if it has found a flag
clear or set, and `sig` if it has got a signal. -/
def Proc.Saw (events : PollMask) (out inn sig : Prop) : Proc β → Prop
  | .poll c _ => c.events = events ∧ (c.res.epollout = true → out) ∧ (c.sig = true → sig)
  | .returned (.poll (some revents)) => revents ≠ .none ∧ revents.inter events = revents ∧
      (revents.epollout = true → out) ∧ (revents.pollin = true ∨ revents.epollrdnorm = true → inn)
  | .returned (.poll none) => sig
  | _ => False

omit [Zero β] in
/-- What a poll has seen stays seen. -/
theorem Proc.Saw.mono {P : Proc β} {events : PollMask} {out out' inn inn' sig sig' : Prop}
    (h : P.Saw events out inn sig) (hout : out → out') (hinn : inn → inn') (hsig : sig → sig') :
    P.Saw events out' inn' sig' := by
  rcases P with _ | ⟨c, pc⟩ | ⟨c, pc⟩ | ⟨c, pc⟩ | (_ | _ | (_ | revents))
  · exact h
  · exact h
  · exact h
  · exact ⟨h.1, hout ∘ h.2.1, hsig ∘ h.2.2⟩
  · exact h
  · exact h
  · exact hsig h
  · exact ⟨h.1, h.2.1, hout ∘ h.2.2.1, hinn ∘ h.2.2.2⟩

omit [Zero β] in
/-- A mask of events asked for has no other ones. -/
theorem PollMask.inter_inter (m events : PollMask) : (m.inter events).inter events = m.inter events := by
  simp [inter]

/-- A flag that is clear is that of a free slot. -/
theorem RingBuffer.Represents.length_lt {r : RingBuffer β} {q : List β} (h : r.Represents q) {k : ℕ}
    (hk : k < BUFF_SIZE) (hflag : r.qrngBuffReady k = false) : q.length < BUFF_SIZE := by
  refine lt_of_le_of_ne h.layout.le fun hfull => ?_
  have hread := h.layout.readIt_lt
  have hready := (h.layout.ready_iff k hk).mpr
    ⟨(k + BUFF_SIZE - r.qrngBuffReadIt) % BUFF_SIZE, by rw [hfull]; exact Nat.mod_lt _ (by decide), by
      simp only [BUFF_SIZE] at hk hread ⊢
      omega⟩
  rw [hflag] at hready
  cases hready

/-- A flag that is set is that of a byte. -/
theorem RingBuffer.Represents.ne_nil {r : RingBuffer β} {q : List β} (h : r.Represents q) {k : ℕ}
    (hk : k < BUFF_SIZE) (hflag : r.qrngBuffReady k = true) : q ≠ [] := by
  rintro rfl
  obtain ⟨j, hj, -⟩ := (h.layout.ready_iff k hk).mp hflag
  exact absurd hj (Nat.not_lt_zero j)

/-- A step of a poll sees what the ring has. -/
theorem Proc.Saw.step {P : Proc β} {events : PollMask} {out inn sig : Prop}
    (h : P.Saw events out inn sig) {r : RingBuffer β} {q : List β} (hrep : r.Represents q)
    (hcursor : ∀ k, P.cursor = some k → k < BUFF_SIZE)
    (hout : P.free = false → q.length < BUFF_SIZE → out) (hinn : P.free = false → q ≠ [] → inn) :
    (P.step r).proc.Saw events out inn sig := by
  rcases P with _ | ⟨c, pc⟩ | ⟨c, pc⟩ | ⟨c, pc⟩ | res
  · exact h.elim
  · exact h.elim
  · exact h.elim
  · obtain ⟨hevents, hres, hsig⟩ := h
    cases pc with
    | outCursor => exact ⟨hevents, fun h => absurd h Bool.false_ne_true, hsig⟩
    -- `write_ready` sees a clear flag at some slot, so the ring is not full now.
    | outFlag k =>
      refine ⟨hevents, fun hflag => ?_, hsig⟩
      exact hout rfl (hrep.length_lt (hcursor k rfl) (by simpa using hflag))
    | inFlag k =>
      simp only [Proc.step, PollCall.step]
      split_ifs with hnone hsignal
      · refine ⟨hnone, ?_, fun hreport => ?_, fun hreport => ?_⟩
        · rw [hevents]
          exact PollMask.inter_inter _ _
        · simp only [PollMask.inter, Bool.and_eq_true] at hreport
          exact hres hreport.1
        · -- `read_ready` sees a set flag at some slot, so the ring is not empty now.
          have hflag : r.qrngBuffReady k = true := by
            simp only [PollMask.inter, Bool.and_eq_true] at hreport
            exact hreport.elim And.left And.left
          exact hinn rfl (hrep.ne_nil (hcursor k rfl) hflag)
      · exact hsig hsignal
      · exact ⟨hevents, hres, hsig⟩
      · exact ⟨hevents, hres, hsig⟩
    | _ => exact ⟨hevents, hres, hsig⟩
  · exact h

omit [Zero β] in
/-- A wake-up shows it nothing. -/
theorem Proc.Saw.woken {P : Proc β} {events : PollMask} {out inn sig : Prop}
    (h : P.Saw events out inn sig) (wr wp : Bool) : (P.woken wr wp).Saw events out inn sig := by
  rcases P with _ | ⟨c, pc⟩ | ⟨c, pc⟩ | ⟨c, pc⟩ | res
  · exact h.elim
  · exact h.elim
  · exact h.elim
  · cases wr <;> cases wp <;> cases pc <;> exact h
  · cases wr <;> cases wp <;> exact h

omit [Zero β] in
/-- A signal is noted. -/
theorem Proc.Saw.signalled {P : Proc β} {events : PollMask} {out inn sig : Prop}
    (h : P.Saw events out inn sig) (hsig : sig) : P.signalled.Saw events out inn sig := by
  rcases P with _ | ⟨c, pc⟩ | ⟨c, pc⟩ | ⟨c, pc⟩ | res
  · exact h.elim
  · exact h.elim
  · exact h.elim
  · cases pc <;> exact ⟨h.1, h.2.1, fun _ => hsig⟩
  · exact h

namespace Driver

variable {ls ls' : List (Label β)} {p : Pid}

/-- What there was at a moment of a call, there was in it after one more label. -/
theorem exists_during_concat {σ : Driver β} {Φ : Driver β → Prop} (l : Label β)
    (h : ∃ t, During σ ls' p t ∧ Φ t) : ∃ t, During σ (ls' ++ [l]) p t ∧ Φ t := by
  obtain ⟨t, ⟨⟨a, b, rfl, ht⟩, hbusy⟩, hΦ⟩ := h
  exact ⟨t, ⟨⟨a, b ++ [l], List.append_assoc _ _ _, ht⟩, hbusy⟩, hΦ⟩

/-- All that a poll reports, it has seen in the call. -/
theorem run_saw (events : PollMask) (hfree : (((init : Driver β).run ls).procs p).free = true)
    (hkeep : ∀ l ∈ ls', l.KeepsCall p) :
    (((enter ls p (.poll events)).run ls').procs p).Saw events
      (∃ t, During (enter ls p (.poll events)) ls' p t ∧ t.ring.contents.length < BUFF_SIZE)
      (∃ t, During (enter ls p (.poll events)) ls' p t ∧ t.ring.contents ≠ [])
      (.signal p ∈ ls') := by
  induction ls' using List.reverseRecOn with
  | nil =>
    rw [Driver.run, Runs.run_nil, (enter_of_free hfree).1]
    exact ⟨rfl, fun h => absurd h Bool.false_ne_true, fun h => absurd h Bool.false_ne_true⟩
  | append_singleton ls' l ih =>
    have hsaw := (ih fun l hl => hkeep l (List.mem_append_left _ hl)).mono
      (exists_during_concat l) (exists_during_concat l) (List.mem_append_left [l])
    have hl := hkeep l (List.mem_append_right _ (List.mem_singleton_self l))
    have hnow : (((enter ls p (.poll events)).run ls').procs p).free = false →
        During (enter ls p (.poll events)) (ls' ++ [l]) p ((enter ls p (.poll events)).run ls') :=
      fun hbusy => ⟨⟨ls', [l], rfl, rfl⟩, hbusy⟩
    have hrep := run_represents (ls ++ .call p (.poll events) :: ls')
    have hcursor := fun k => cursor_lt (ls ++ .call p (.poll events) :: ls') p (k := k)
    rw [run_enter] at hrep
    simp only [run_enter] at hcursor
    rw [Driver.run, Runs.run_append, Runs.run_cons, Runs.run_nil]
    by_cases hown : l = .sched p
    · -- Its own step sees the ring of the last state, which is a state of the call.
      subst hown
      rw [Driver.step, sched_procs_self]
      exact hsaw.step hrep hcursor (fun hbusy hlt => ⟨_, hnow hbusy, hlt⟩)
        fun hbusy hne => ⟨_, hnow hbusy, hne⟩
    · by_cases hsig : l = .signal p
      · subst hsig
        simp only [Driver.step, Function.update_self]
        exact hsaw.signalled (List.mem_append_right _ (List.mem_singleton_self _))
      · -- A step of another process only wakes it.
        obtain ⟨wr, wp, heq⟩ := step_woken _ hl hown hsig
        rw [heq]
        exact hsaw.woken wr wp

/-- A poll reports nothing that was not there. Whatever the other processes do, and wherever the cursors
that it has loaded point by then: if it returns events, then there is one, all are among those asked for,
the ring was not full at some moment of the call if it reports `EPOLLOUT`, and not empty at some moment of
the call if it reports `POLLIN` or `EPOLLRDNORM`. It returns without events only after a signal. -/
theorem poll_reports {events : PollMask} (hfree : (((init : Driver β).run ls).procs p).free = true)
    (hkeep : ∀ l ∈ ls', l.KeepsCall p) {report : Option PollMask}
    (hret : ((enter ls p (.poll events)).run ls').procs p = .returned (.poll report)) :
    (report = none → .signal p ∈ ls') ∧ ∀ revents, report = some revents →
      revents ≠ .none ∧ revents.inter events = revents ∧
      (revents.epollout = true → ∃ t, During (enter ls p (.poll events)) ls' p t ∧
        t.ring.contents.length < BUFF_SIZE) ∧
      (revents.pollin = true ∨ revents.epollrdnorm = true →
        ∃ t, During (enter ls p (.poll events)) ls' p t ∧ t.ring.contents ≠ []) := by
  have hsaw := run_saw events hfree hkeep
  rw [hret] at hsaw
  refine ⟨?_, ?_⟩
  · rintro rfl
    exact hsaw
  · rintro revents rfl
    exact hsaw

/-- Process 1 loads the cursor for `read_ready` in the empty ring, process 2 appends a byte, and process 1
loads the flag. -/
def appendedBetweenLoads : List (Label UInt8) :=
  List.replicate 4 (.sched 1) ++ .call 2 (.write [9] 1) :: List.replicate 10 (.sched 2) ++ [.sched 1]

/-- The theorem for a poll for `POLLIN` in that run: it reports a byte, and the ring has held one. -/
theorem poll_reports_appended :
    ∃ t, During (enter [] 1 (.poll ⟨false, true, true⟩)) appendedBetweenLoads 1 t ∧
      t.ring.contents ≠ [] := by
  have hkeep : ∀ l ∈ appendedBetweenLoads, l.KeepsCall 1 := by
    simp [appendedBetweenLoads, Label.KeepsCall]
  have hret : ((enter [] 1 (.poll ⟨false, true, true⟩)).run appendedBetweenLoads).procs 1 =
      .returned (.poll (some ⟨false, true, true⟩)) := rfl
  obtain ⟨-, -, -, hin⟩ := (poll_reports rfl hkeep hret).2 _ rfl
  exact hin (Or.inl rfl)

end Driver

end QrngDevice
