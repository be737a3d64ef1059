import QrngDevice.Driver.ReadCall

/-!
# What reaches the readers

A read takes a byte from the ring in one step and copies it in a later one, and in between it has the
byte in hand. So in every reachable state, the bytes that a process has copied, followed by the one in
its hand, are a sublist of those that it has taken (`run_delivered_held`), and no two processes take
the same byte of the ring. If no byte is appended twice, then none is delivered twice
(`delivered_nodup`).
-/

namespace QrngDevice

open Runs RingBuffer

variable {β : Type*}

/-- The byte that a process has taken and not yet tried to copy, if any. -/
def Proc.held : Proc β → List β
  | .read _ pc => pc.held.toList
  | _ => []

/-- The part of its destination that a read has filled, also after it has returned. -/
def Proc.filled : Proc β → List β
  | .read c _ => c.iter.buf.take c.iter.off
  | .returned (.read _ it) => it.buf.take it.off
  | _ => []

/-- The head of the loop of a read has nothing in hand, and leaves the destination as it is. -/
theorem ReadCall.held_loop (c : ReadCall β) :
    c.loop.held = [] ∧ c.loop.filled = c.iter.buf.take c.iter.off := by
  unfold ReadCall.loop
  split_ifs <;> exact ⟨rfl, rfl⟩

/-- A free process has nothing in hand. -/
theorem Proc.held_of_free {P : Proc β} (h : P.free = true) : P.held = [] := by
  cases P <;> simp [Proc.free, Proc.held] at h ⊢

/-- A call starts with nothing in hand. -/
theorem Proc.held_start (c : Call β) : (Proc.start c).held = [] := by
  cases c <;> rfl

/-- What a process has in hand does not depend on others. -/
theorem Proc.Nudge.held {P P' : Proc β} (hn : P.Nudge P') : P'.held = P.held := by
  rcases P with _ | ⟨c, pc⟩ | ⟨c, pc⟩ | ⟨c, pc⟩ | res
  · rw [hn.idle]
  · obtain ⟨s, pc', rfl, rfl | ⟨hw, hw'⟩⟩ := hn.read
    · rfl
    · have hnone : ∀ pc : ReadPc β, pc.waiting = true → pc.held = none := by
        intro pc h
        cases pc <;> simp [ReadPc.waiting, ReadPc.held] at h ⊢
      simp only [Proc.held, hnone _ hw, hnone _ hw']
  · rw [hn.write]
  · cases hn with
    | woken wr wp => cases wr <;> cases wp <;> cases pc <;> rfl
    | signalled => cases pc <;> rfl
  · rw [hn.returned]

variable [Zero β]

/-- A process in no read delivers nothing. -/
theorem Proc.step_of_not_read (P : Proc β) (r : RingBuffer β) (h : ∀ c pc, P ≠ .read c pc) :
    (P.step r).delivered = [] ∧ (P.step r).proc.held = [] ∧ (P.step r).proc.filled = P.filled := by
  rcases P with _ | ⟨c, pc⟩ | ⟨c, pc⟩ | ⟨c, pc⟩ | res
  · exact ⟨rfl, rfl, rfl⟩
  · exact absurd rfl (h c pc)
  · simp only [Proc.step]
    obtain ⟨⟨c', pc', heq⟩ | ⟨v, it, heq⟩, hdel⟩ := c.step_proc r pc
    · rw [heq, hdel]
      exact ⟨rfl, rfl, rfl⟩
    · rw [heq, hdel]
      exact ⟨rfl, rfl, rfl⟩
  · simp only [Proc.step]
    obtain ⟨⟨c', pc', heq⟩ | ⟨e, heq⟩, hdel⟩ := c.step_proc r pc
    · rw [heq, hdel]
      exact ⟨rfl, rfl, rfl⟩
    · rw [heq, hdel]
      exact ⟨rfl, rfl, rfl⟩
  · exact ⟨rfl, rfl, rfl⟩

/-- What a step delivers, and then has in hand, it had in hand or takes. -/
theorem Proc.step_held (r : RingBuffer β) (P : Proc β) :
    ((P.step r).delivered ++ (P.step r).proc.held).Sublist (P.held ++ (P.step r).taken) := by
  rcases P with _ | ⟨c, pc⟩ | ⟨c, pc⟩ | ⟨c, pc⟩ | res
  · exact .refl _
  · cases pc with
    | testFlag k =>
      simp only [Proc.step, ReadCall.step]
      split_ifs
      · exact .refl _
      · exact .refl _
      · simp [(ReadCall.held_loop c).1]
    -- A take puts a byte in hand, and only a copy takes it out of it.
    | take =>
      simp only [Proc.step, ReadCall.step]
      cases r.getRandomByte with
      | none => simp only; split_ifs <;> exact .refl _
      | some br => exact .refl _
    | wakeFlag b k =>
      simp only [Proc.step, ReadCall.step]
      split_ifs <;> exact .refl _
    | copy b =>
      simp only [Proc.step, ReadCall.step, (ReadCall.held_loop _).1, List.append_nil]
      split_ifs
      · exact .refl _
      · -- A copy that fails loses the byte.
        exact List.nil_sublist _
    | waitFlag woken k =>
      simp only [Proc.step, ReadCall.step]
      split_ifs
      · simp [(ReadCall.held_loop c).1]
      · exact .refl _
      · exact .refl _
      · exact .refl _
    | _ => exact .refl _
  · rw [((Proc.write c pc).step_of_not_read r (by simp)).1,
      ((Proc.write c pc).step_of_not_read r (by simp)).2.1]
    exact List.nil_sublist _
  · rw [((Proc.poll c pc).step_of_not_read r (by simp)).1,
      ((Proc.poll c pc).step_of_not_read r (by simp)).2.1]
    exact List.nil_sublist _
  · exact .refl _

namespace Driver

/-- In every reachable state, the bytes that a process has copied, followed by the one in its hand, are
a sublist of those that it has taken. -/
theorem run_delivered_held (ls : List (Label β)) (p : Pid) :
    (((init : Driver β).run ls).deliveredBy p ++
      (((init : Driver β).run ls).procs p).held).Sublist (((init : Driver β).run ls).takenBy p) := by
  refine run_invariant' (P := fun σ : Driver β =>
    (σ.deliveredBy p ++ (σ.procs p).held).Sublist (σ.takenBy p)) (fun σ l h => ?_) ls (.refl _)
  by_cases hown : l = .sched p
  · -- What it has copied, it keeps, and the step adds to the end of both sides.
    subst hown
    simp only [Driver.step, sched_procs_self, sched_deliveredBy, sched_takenBy, if_true]
    have hstep := (σ.procs p).step_held σ.ring
    have hleft := (List.Sublist.refl (σ.deliveredBy p)).append hstep
    rw [← List.append_assoc, ← List.append_assoc] at hleft
    exact hleft.trans (h.append (.refl _))
  · obtain ⟨htaken, -, hdel⟩ := step_records σ hown
    rw [htaken, hdel]
    by_cases hkeep : l.KeepsCall p
    · rwa [(step_nudge σ hkeep hown).held]
    · cases l with
      | call q c =>
        obtain rfl : q = p := not_not.mp hkeep
        simp only [Driver.step]
        split_ifs with hfree
        · -- The process was free, so it had nothing in hand before the call either.
          rw [Proc.held_of_free hfree] at h
          simpa [Proc.held_start] using h
        · exact h
      | sched q => exact absurd trivial hkeep
      | signal q => exact absurd trivial hkeep

end Driver

/-! ## The destinations -/

omit [Zero β] in
/-- `copy_to_iter` of a byte adds it to what is filled, unless the copy fails. -/
theorem copyToIter_filled (b : β) (it : IovIter β) :
    (copyToIter b it).2.buf.take (copyToIter b it).2.off =
      it.buf.take it.off ++ if (copyToIter b it).1 = 1 then [b] else [] := by
  unfold copyToIter
  split_ifs with hgo
  · simp only
    rw [List.take_add_one, List.take_set_of_le le_rfl, List.getElem?_set_self hgo.1]
    rfl
  · simp_all
  · simp_all
  · simp

/-- What a step delivers is added to what is filled. -/
theorem Proc.step_filled (r : RingBuffer β) (P : Proc β) :
    (P.step r).proc.filled = P.filled ++ (P.step r).delivered := by
  rcases P with _ | ⟨c, pc⟩ | ⟨c, pc⟩ | ⟨c, pc⟩ | res
  · rfl
  · cases pc with
    | testFlag k =>
      simp only [Proc.step, ReadCall.step]
      split_ifs
      · simp [Proc.filled]
      · simp [Proc.filled]
      · rw [List.append_nil]
        exact (ReadCall.held_loop c).2
    | take =>
      simp only [Proc.step, ReadCall.step]
      cases r.getRandomByte with
      | none => simp only; split_ifs <;> simp [Proc.filled]
      | some br => simp [Proc.filled]
    -- Only the copy changes the destination.
    | copy b => exact (ReadCall.held_loop _).2.trans (copyToIter_filled b c.iter)
    | waitFlag woken k =>
      simp only [Proc.step, ReadCall.step]
      split_ifs
      · rw [List.append_nil]
        exact (ReadCall.held_loop c).2
      · simp [Proc.filled]
      · simp [Proc.filled]
      · simp [Proc.filled]
    | _ => simp [Proc.step, ReadCall.step, Proc.filled]
  · rw [((Proc.write c pc).step_of_not_read r (by simp)).1,
      ((Proc.write c pc).step_of_not_read r (by simp)).2.2, List.append_nil]
  · rw [((Proc.poll c pc).step_of_not_read r (by simp)).1,
      ((Proc.poll c pc).step_of_not_read r (by simp)).2.2, List.append_nil]
  · simp [Proc.step]

omit [Zero β] in
/-- Others do not write to the destination of a read. -/
theorem Proc.Nudge.filled {P P' : Proc β} (hn : P.Nudge P') : P'.filled = P.filled := by
  rcases P with _ | ⟨c, pc⟩ | ⟨c, pc⟩ | ⟨c, pc⟩ | res
  · rw [hn.idle]
  · obtain ⟨s, pc', rfl, -⟩ := hn.read
    rfl
  · rw [hn.write]
  · cases hn with
    | woken wr wp => cases wr <;> cases wp <;> cases pc <;> rfl
    | signalled => cases pc <;> rfl
  · rw [hn.returned]

/-- In every reachable state, what the current or last read of a process has put into its destination
are the last bytes delivered to that process. -/
theorem Driver.run_filled_delivered (ls : List (Label β)) (p : Pid) :
    (((init : Driver β).run ls).procs p).filled <:+ ((init : Driver β).run ls).deliveredBy p := by
  refine run_invariant' (P := fun σ : Driver β => (σ.procs p).filled <:+ σ.deliveredBy p)
    (fun σ l h => ?_) ls (List.nil_suffix)
  by_cases hown : l = .sched p
  · subst hown
    simp only [Driver.step, sched_procs_self, sched_deliveredBy, if_true, Proc.step_filled]
    obtain ⟨ds, hds⟩ := h
    exact ⟨ds, by rw [← List.append_assoc, hds]⟩
  · rw [(step_records σ hown).2.2]
    by_cases hkeep : l.KeepsCall p
    · rwa [(step_nudge σ hkeep hown).filled]
    · cases l with
      | call q c =>
        obtain rfl : q = p := not_not.mp hkeep
        simp only [Driver.step]
        split_ifs
        · -- A new call starts with an empty iterator.
          have hstart : (Proc.start c).filled = [] := by
            cases c <;> simp [Proc.start, Proc.filled, IovIter.start]
          simp [hstart]
        · exact h
      | sched q => exact absurd trivial hkeep
      | signal q => exact absurd trivial hkeep

/-! ## No byte is delivered twice -/

section

variable {κ α : Type*} [DecidableEq κ]

/-- A list of entries has no duplicates if the entries of each key have none. -/
theorem nodup_of_nodup_filter {xs : List (κ × α)}
    (h : ∀ k, ((xs.filter (·.1 = k)).map Prod.snd).Nodup) : xs.Nodup := by
  induction xs with
  | nil => exact List.nodup_nil
  | cons e xs ih =>
    refine List.nodup_cons.mpr ⟨fun hmem => ?_, ih fun k => ?_⟩
    · have hk := h e.1
      simp only [List.filter_cons, decide_true, if_true, List.map_cons, List.nodup_cons] at hk
      exact hk.1 (List.mem_map_of_mem (List.mem_filter.mpr ⟨hmem, by simp⟩))
    · have hk := h k
      rw [List.filter_cons] at hk
      split_ifs at hk
      · exact (List.nodup_cons.mp hk).2
      · exact hk

/-- Entries whose values, for each key, are a sublist of those of another list of entries with distinct
values, are entries of that list and have distinct values. -/
theorem nodup_of_sublist_filter {xs ys : List (κ × α)} (hys : (ys.map Prod.snd).Nodup)
    (h : ∀ k, ((xs.filter (·.1 = k)).map Prod.snd).Sublist ((ys.filter (·.1 = k)).map Prod.snd)) :
    xs ⊆ ys ∧ (xs.map Prod.snd).Nodup := by
  have hsub : xs ⊆ ys := by
    rintro ⟨k, a⟩ hmem
    have ha : a ∈ (xs.filter (·.1 = k)).map Prod.snd :=
      List.mem_map.mpr ⟨(k, a), List.mem_filter.mpr ⟨hmem, by simp⟩, rfl⟩
    obtain ⟨⟨k', a'⟩, hfilter, rfl⟩ := List.mem_map.mp ((h k).subset ha)
    obtain ⟨hy, hk⟩ := List.mem_filter.mp hfilter
    obtain rfl : k' = k := by simpa using hk
    exact hy
  refine ⟨hsub, (nodup_of_nodup_filter fun k => ?_).map_on ?_⟩
  · exact (h k).nodup ((List.filter_sublist.map Prod.snd).nodup hys)
  · intro e he e' he' heq
    exact List.inj_on_of_nodup_map hys (hsub he) (hsub he') heq

end

namespace Driver

/-- If no byte has been appended to the ring twice, then no byte has been delivered twice, and every
byte delivered has been appended. -/
theorem delivered_nodup {ls : List (Label β)}
    (happ : (((init : Driver β).run ls).appended.map Prod.snd).Nodup) :
    (((init : Driver β).run ls).delivered.map Prod.snd).Nodup ∧
      ((init : Driver β).run ls).delivered.map Prod.snd ⊆
        ((init : Driver β).run ls).appended.map Prod.snd := by
  obtain ⟨q, -, hcons⟩ := run_accounted ls
  rw [← hcons] at happ
  obtain ⟨hsub, hnodup⟩ := nodup_of_sublist_filter (List.Nodup.of_append_left happ) fun p =>
    (List.sublist_append_left _ _).trans (run_delivered_held ls p)
  refine ⟨hnodup, ?_⟩
  rw [← hcons]
  exact fun b hb => List.mem_append_left _ (List.map_subset _ hsub hb)

end Driver

end QrngDevice
