import QrngDevice.Driver.Delivered
import QrngDevice.Driver.Side

/-!
# Reads into accessible destinations

A read whose destination is accessible has room for a byte from its take to its copy, so the copy does not
fail (`Proc.Roomy.step`). What a process has taken, it has copied to its destinations, in the same order,
but for a byte in its hand, as long as its destinations are accessible (`Driver.HasCopied.step`).
-/

namespace QrngDevice

open Runs RingBuffer

variable {β : Type*}

/-- The destination of a read is accessible, and from the take of a byte to its copy it has room for it. -/
def Proc.Roomy : Proc β → Prop
  | .read c pc => c.iter.buf.length ≤ c.iter.limit ∧
      ((match pc with | .take => true | pc => pc.held.isSome) = true →
        c.iter.off < c.iter.buf.length)
  | _ => True

/-- This is a matter of reads. -/
theorem Proc.roomy_of_not_read {P : Proc β} (h : ∀ c pc, P ≠ .read c pc) : P.Roomy := by
  rcases P with _ | ⟨c, pc⟩ | _ | _ | _
  · trivial
  · exact absurd rfl (h c pc)
  · trivial
  · trivial
  · trivial

/-- The head of the loop of a read tests for room. -/
theorem ReadCall.roomy_loop {c : ReadCall β} (h : c.iter.buf.length ≤ c.iter.limit) :
    c.loop.Roomy := by
  unfold ReadCall.loop
  split_ifs with hcount
  · refine ⟨h, fun _ => ?_⟩
    unfold iovIterCount at hcount
    omega
  · exact Proc.roomy_of_not_read (by simp)
  · exact Proc.roomy_of_not_read (by simp)

/-- Others leave the room of a read alone. -/
theorem Proc.Roomy.nudge {P P' : Proc β} (h : P.Roomy) (hn : P.Nudge P') : P'.Roomy := by
  rcases P with _ | ⟨c, pc⟩ | ⟨c, pc⟩ | ⟨c, pc⟩ | res
  · rw [hn.idle]
    trivial
  · obtain ⟨hlimit, hroom⟩ := h
    obtain ⟨s, pc', rfl, rfl | ⟨-, hw⟩⟩ := hn.read
    · exact ⟨hlimit, hroom⟩
    · refine ⟨hlimit, fun hbusy => ?_⟩
      cases pc' <;> simp [ReadPc.waiting, ReadPc.held] at hw hbusy
  · rw [hn.write]
    trivial
  · obtain ⟨t, s, pc', rfl, -⟩ := hn.poll
    trivial
  · rw [hn.returned]
    trivial

variable [Zero β]

/-- A step of a process whose destinations are accessible loses no byte: what it delivers, and then has in
hand, is what it had in hand and what it takes. -/
theorem Proc.Roomy.step {P : Proc β} (h : P.Roomy) (r : RingBuffer β) :
    (P.step r).proc.Roomy ∧
      (P.step r).delivered ++ (P.step r).proc.held = P.held ++ (P.step r).taken := by
  rcases P with _ | ⟨c, pc⟩ | ⟨c, pc⟩ | ⟨c, pc⟩ | res
  · exact ⟨trivial, rfl⟩
  · obtain ⟨hlimit, hroom⟩ := h
    have hloop : c.loop.Roomy ∧ [] ++ c.loop.held = [] ++ [] :=
      ⟨ReadCall.roomy_loop hlimit, by rw [(ReadCall.held_loop c).1]⟩
    cases pc with
    | testFlag k =>
      simp only [Proc.step, ReadCall.step]
      split_ifs
      · exact ⟨trivial, rfl⟩
      · exact ⟨trivial, rfl⟩
      · exact hloop
    -- The take comes after a head of the loop that has found room.
    | take =>
      simp only [Proc.step, ReadCall.step]
      cases r.getRandomByte with
      | none =>
        simp only
        split_ifs
        · exact ⟨trivial, rfl⟩
        · exact ⟨⟨hlimit, fun h => by cases h⟩, rfl⟩
      | some br => exact ⟨⟨hlimit, fun _ => hroom rfl⟩, rfl⟩
    | wakeFlag b k =>
      simp only [Proc.step, ReadCall.step]
      split_ifs <;> exact ⟨⟨hlimit, fun _ => hroom rfl⟩, rfl⟩
    | copy b =>
      -- There is room and the destination is accessible, so the copy succeeds, and the byte leaves
      -- the hand.
      have hoff := hroom rfl
      have hcopy : copyToIter b c.iter =
          (1, { c.iter with buf := c.iter.buf.set c.iter.off b, off := c.iter.off + 1 }) :=
        if_pos ⟨hoff, hoff.trans_le hlimit⟩
      simp only [Proc.step, ReadCall.step, hcopy, if_true]
      refine ⟨ReadCall.roomy_loop (by simpa using hlimit), ?_⟩
      rw [(ReadCall.held_loop _).1]
      rfl
    | waitFlag woken k =>
      simp only [Proc.step, ReadCall.step]
      split_ifs
      · exact hloop
      · exact ⟨trivial, rfl⟩
      · exact ⟨⟨hlimit, fun h => by cases h⟩, rfl⟩
      · exact ⟨⟨hlimit, fun h => by cases h⟩, rfl⟩
    | wakePoll b => exact ⟨⟨hlimit, fun _ => hroom rfl⟩, rfl⟩
    | wakeCursor b => exact ⟨⟨hlimit, fun _ => hroom rfl⟩, rfl⟩
    | wakeRead b => exact ⟨⟨hlimit, fun _ => hroom rfl⟩, rfl⟩
    | _ => exact ⟨⟨hlimit, fun h => by cases h⟩, rfl⟩
  · -- Writes and polls deliver nothing and have nothing in hand.
    obtain ⟨hdel, hheld, -⟩ := (Proc.write c pc).step_of_not_read r (by simp)
    rw [hdel, hheld, Proc.taken_of_not_read r (by simp)]
    refine ⟨Proc.roomy_of_not_read fun c' pc' heq => ?_, rfl⟩
    rcases (c.step_proc r pc).1 with ⟨c'', pc'', heq'⟩ | ⟨v, it, heq'⟩
    · simp [Proc.step, heq'] at heq
    · simp [Proc.step, heq'] at heq
  · obtain ⟨hdel, hheld, -⟩ := (Proc.poll c pc).step_of_not_read r (by simp)
    rw [hdel, hheld, Proc.taken_of_not_read r (by simp)]
    refine ⟨Proc.roomy_of_not_read fun c' pc' heq => ?_, rfl⟩
    rcases (c.step_proc r pc).1 with ⟨c'', pc'', heq'⟩ | ⟨e, heq'⟩
    · simp [Proc.step, heq'] at heq
    · simp [Proc.step, heq'] at heq
  · exact ⟨trivial, rfl⟩

namespace Driver

variable {p : Pid}

/-- A process has copied all that it has taken, but for a byte in its hand. -/
structure HasCopied (p : Pid) (σ : Driver β) : Prop where
  /-- Its destination is accessible. -/
  roomy : (σ.procs p).Roomy
  /-- The bytes taken. -/
  taken : σ.takenBy p = σ.deliveredBy p ++ (σ.procs p).held

/-- Whatever happens, a process keeps this, as long as its destinations are accessible. -/
theorem HasCopied.step {σ : Driver β} {l : Label β} (h : σ.HasCopied p)
    (hl : ∀ kiocb buf limit, l = .call p (.read kiocb buf limit) → buf.length ≤ limit) :
    (σ.step l).HasCopied p := by
  by_cases hown : l = .sched p
  · -- Its own step moves the byte in hand to the copied ones, or a byte of the ring to its hand.
    subst hown
    obtain ⟨hroomy, hbytes⟩ := h.roomy.step σ.ring
    simp only [Driver.step]
    refine ⟨by rwa [sched_procs_self], ?_⟩
    rw [sched_takenBy, sched_deliveredBy, sched_procs_self, if_pos rfl, if_pos rfl, h.taken,
      List.append_assoc, List.append_assoc, hbytes]
  · obtain ⟨htaken, -, hdel⟩ := step_records σ hown
    by_cases hkeep : l.KeepsCall p
    · have hn := step_nudge σ hkeep hown
      exact ⟨h.roomy.nudge hn, by rw [htaken, hdel, hn.held, h.taken]⟩
    · cases l with
      -- Only a call of its own is left, and it starts with nothing in hand.
      | call q c =>
        obtain rfl : q = p := not_not.mp hkeep
        by_cases hfree : (σ.procs q).free = true
        · have hproc : (σ.step (.call q c)).procs q = .start c := by
            simp [Driver.step, hfree]
          refine ⟨?_, ?_⟩
          · rw [hproc]
            cases c with
            | read kiocb buf limit => exact ⟨hl kiocb buf limit rfl, fun h => by cases h⟩
            | _ => trivial
          · rw [htaken, hdel, hproc, Proc.held_start, h.taken, Proc.held_of_free hfree]
        · simpa only [Driver.step, if_neg hfree] using h
      | sched q => exact absurd trivial hkeep
      | signal q => exact absurd trivial hkeep

end Driver

end QrngDevice
