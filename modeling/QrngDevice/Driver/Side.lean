import QrngDevice.Driver.ReadCall

/-!
# The two sides of the ring

A `Side` of the ring is a cursor, the flag that means ready for it, and the kind of call that moves it:
the processes in no such call leave the cursor where it is and make slots ready at most
(`Side.Lawful`). So if one process only makes such calls, what it has found about its side stays true
whatever the others do. `Side.Stable` are the descriptions of the ring and the process that survive
this, and `Side.Stable.step` and `Side.Stable.run` are their rules.
-/

namespace QrngDevice

open Runs RingBuffer

variable {β : Type*}

/-! ## The two sides of the ring -/

/-- The process is in a write. -/
def Proc.isWrite : Proc β → Bool
  | .write _ _ => true
  | _ => false

/-- The process is in a read. -/
def Proc.isRead : Proc β → Bool
  | .read _ _ => true
  | _ => false

/-- The process is in a poll, or has returned from one. -/
def Proc.isPoll : Proc β → Bool
  | .poll _ _ => true
  | .returned (.poll _) => true
  | _ => false

/-- A side of the ring: the cursor that it moves, the flag of a slot that is ready for it, and the
processes in a call of its kind. -/
structure Side (β : Type*) where
  /-- The cursor. -/
  cursor : RingBuffer β → ℕ
  /-- The flag of a slot that is ready. -/
  flag : Bool
  /-- The processes that may move the cursor. -/
  acts : Proc β → Bool

/-- The side of the writers. -/
def Side.out : Side β := ⟨qrngBuffWriteIt, false, Proc.isWrite⟩

/-- The side of the readers. -/
def Side.inn : Side β := ⟨qrngBuffReadIt, true, Proc.isRead⟩

/-- The slot under the cursor is ready. -/
def Side.Ready (S : Side β) (r : RingBuffer β) : Prop := r.qrngBuffReady (S.cursor r) = S.flag

/-- The cursor has not moved from `r` to `r'`, and the slots that were ready are ready still. -/
structure Side.Keeps (S : Side β) (r r' : RingBuffer β) : Prop where
  /-- The cursor has not moved. -/
  cursor_eq : S.cursor r' = S.cursor r
  /-- What was ready is ready. -/
  ready : ∀ k, r.qrngBuffReady k = S.flag → r'.qrngBuffReady k = S.flag

/-- Nothing has changed. -/
theorem Side.Keeps.refl (S : Side β) (r : RingBuffer β) : S.Keeps r r := ⟨rfl, fun _ h => h⟩

/-- A ready slot under a cursor that has not moved. -/
theorem Side.Keeps.readyAt {S : Side β} {r r' : RingBuffer β} (h : S.Keeps r r') (hr : S.Ready r) :
    S.Ready r' := by
  unfold Side.Ready at hr ⊢
  rw [h.cursor_eq]
  exact h.ready _ hr

/-- A write section keeps the side of the readers. -/
theorem RingBuffer.keeps_writeRandomBytesQrng (r : RingBuffer β) (it : IovIter β) :
    Side.inn.Keeps r (r.writeRandomBytesQrng it).ring := by
  have hloop : ∀ (rounds : ℕ) (s : WriteState β), Side.inn.Keeps s.ring (writeLoop rounds s).ring := by
    intro rounds
    induction rounds with
    | zero => exact fun s => .refl _ _
    | succ rounds ih =>
      intro s
      rw [writeLoop]
      split_ifs
      · rcases copyFromIter s.iter with ⟨_ | b, it'⟩
        · exact .refl _ _
        · -- A byte put into the ring sets a flag and clears none.
          have hrest := ih ⟨s.ret + 1, s.ring.put b, it'⟩
          refine ⟨hrest.cursor_eq, fun k hk => hrest.ready k ?_⟩
          simp only [RingBuffer.put, Function.update_apply]
          split_ifs
          · rfl
          · exact hk
      · exact .refl _ _
  unfold writeRandomBytesQrng
  split_ifs
  · exact hloop _ ⟨0, r, it⟩
  · exact .refl _ _

/-- What the lemmas on polls use of a side: a process in no call of its kind keeps it, and a step, a
wake-up, or a signal does not put a process into such a call. -/
structure Side.Lawful [Zero β] (S : Side β) : Prop where
  /-- Other processes keep the side. -/
  keeps : ∀ r P, S.acts P = false → S.Keeps r (P.step r).ring
  /-- A step enters no call. -/
  acts_step : ∀ r P, S.acts P = false → S.acts (P.step r).proc = false
  /-- A nudge enters no call. -/
  acts_nudge : ∀ P P', P.Nudge P' → S.acts P = false → S.acts P' = false

/-- A step of a process does not bring it into another kind of call. -/
theorem Proc.step_kind [Zero β] (r : RingBuffer β) (P : Proc β) :
    ((P.step r).proc.isRead = true → P.isRead = true) ∧
      ((P.step r).proc.isWrite = true → P.isWrite = true) ∧
      ((P.step r).proc.isPoll = true → P.isPoll = true) := by
  rcases P with _ | ⟨c, pc⟩ | ⟨c, pc⟩ | ⟨c, pc⟩ | res
  · exact ⟨id, id, id⟩
  · simp only [Proc.step]
    rcases c.step_proc r pc with ⟨c', pc', heq, -⟩ | ⟨v, it, heq⟩
    · simp [heq, Proc.isRead, Proc.isWrite, Proc.isPoll]
    · simp [heq, Proc.isRead, Proc.isWrite, Proc.isPoll]
  · simp only [Proc.step]
    rcases (c.step_proc r pc).1 with ⟨c', pc', heq⟩ | ⟨v, it, heq⟩
    · simp [heq, Proc.isRead, Proc.isWrite, Proc.isPoll]
    · simp [heq, Proc.isRead, Proc.isWrite, Proc.isPoll]
  · simp only [Proc.step]
    rcases (c.step_proc r pc).1 with ⟨c', pc', heq⟩ | ⟨e, heq⟩
    · simp [heq, Proc.isRead, Proc.isWrite, Proc.isPoll]
    · simp [heq, Proc.isRead, Proc.isWrite, Proc.isPoll]
  · exact ⟨id, id, id⟩

/-- A nudge leaves a poll at its point, or wakes it up. -/
theorem Proc.Nudge.poll {c : PollCall} {pc : PollPc} {P : Proc β} (h : (Proc.poll c pc).Nudge P) :
    ∃ t s pc', P = .poll { c with triggered := t, sig := s } pc' ∧
      (pc' = pc ∨ pc = .asleep ∧ pc' = .outCursor) := by
  cases h with
  | woken wr wp =>
    cases wr <;> cases wp <;> cases pc <;> exact ⟨_, _, _, rfl, by simp⟩
  | signalled => cases pc <;> exact ⟨_, true, _, rfl, by simp⟩

/-- A nudge does not change the kind of call that a process is in. -/
theorem Proc.Nudge.kind {P P' : Proc β} (hn : P.Nudge P') :
    P'.isRead = P.isRead ∧ P'.isWrite = P.isWrite ∧ P'.isPoll = P.isPoll := by
  rcases P with _ | ⟨c, pc⟩ | ⟨c, pc⟩ | ⟨c, pc⟩ | res
  · rw [hn.idle]
    exact ⟨rfl, rfl, rfl⟩
  · obtain ⟨s, pc', rfl, -⟩ := hn.read
    exact ⟨rfl, rfl, rfl⟩
  · rw [hn.write]
    exact ⟨rfl, rfl, rfl⟩
  · obtain ⟨t, s, pc', rfl, -⟩ := hn.poll
    exact ⟨rfl, rfl, rfl⟩
  · rw [hn.returned]
    exact ⟨rfl, rfl, rfl⟩

variable [Zero β]

/-- A poll goes on or returns. -/
theorem Proc.isPoll_step (r : RingBuffer β) {P : Proc β} (h : P.isPoll = true) :
    (P.step r).proc.isPoll = true := by
  rcases P with _ | ⟨c, pc⟩ | ⟨c, pc⟩ | ⟨c, pc⟩ | res
  · exact h
  · exact absurd h (by simp [Proc.isPoll])
  · exact absurd h (by simp [Proc.isPoll])
  · rcases (c.step_proc r pc).1 with ⟨c', pc', heq⟩ | ⟨e, heq⟩
    · simp [Proc.step, heq, Proc.isPoll]
    · simp [Proc.step, heq, Proc.isPoll]
  · exact h

/-- A process in no write appends nothing. -/
theorem Proc.step_appended (r : RingBuffer β) {P : Proc β} (h : P.isWrite = false) :
    (P.step r).appended = [] := by
  rw [(Proc.step_exec r P).2.1]
  rcases P with _ | ⟨c, pc⟩ | ⟨c, pc⟩ | ⟨c, pc⟩ | res
  · rfl
  · cases pc with
    | take =>
      simp only [Proc.sections, exec, RingBuffer.step, getRandomByte]
      split_ifs <;> rfl
    | _ => rfl
  · exact absurd h (by simp [Proc.isWrite])
  · rfl
  · rfl

/-- A process in no write keeps the side of the writers: a take clears a flag. -/
theorem Side.out_lawful : (Side.out : Side β).Lawful where
  keeps r P hP := by
    rw [(Proc.step_exec r P).2.2]
    rcases P with _ | ⟨c, pc⟩ | ⟨c, pc⟩ | ⟨c, pc⟩ | res
    · exact .refl _ _
    · cases pc with
      -- Only a take touches the ring here. It clears a flag, and leaves the write cursor alone.
      | take =>
        simp only [Proc.sections, exec, RingBuffer.step, getRandomByte]
        split_ifs
        · refine ⟨rfl, fun k hk => ?_⟩
          simp only [Function.update_apply]
          split_ifs
          · rfl
          · exact hk
        · exact .refl _ _
      | _ => exact .refl _ _
    · exact absurd hP (by simp [Side.out, Proc.isWrite])
    · exact .refl _ _
    · exact .refl _ _
  acts_step r P hP := by
    have := (Proc.step_kind r P).2.1
    simp only [Side.out, ← Bool.not_eq_true] at hP ⊢
    exact fun h => hP (this h)
  acts_nudge P P' hn hP := hn.kind.2.1.trans hP

/-- A process in no read keeps the side of the readers: a write section sets flags. -/
theorem Side.inn_lawful : (Side.inn : Side β).Lawful where
  keeps r P hP := by
    rw [(Proc.step_exec r P).2.2]
    rcases P with _ | ⟨c, pc⟩ | ⟨c, pc⟩ | ⟨c, pc⟩ | res
    · exact .refl _ _
    · exact absurd hP (by simp [Side.inn, Proc.isRead])
    · cases pc with
      | append => exact keeps_writeRandomBytesQrng r c.iter
      | _ => exact .refl _ _
    · exact .refl _ _
    · exact .refl _ _
  acts_step r P hP := by
    have := (Proc.step_kind r P).1
    simp only [Side.inn, ← Bool.not_eq_true] at hP ⊢
    exact fun h => hP (this h)
  acts_nudge P P' hn hP := hn.kind.1.trans hP

/-! ## One process alone on a side -/

omit [Zero β] in
/-- The label does not bring a process other than `p` into a call on the side. -/
def Label.Leaves (S : Side β) (p : Pid) : Label β → Prop
  | .call q c => q = p ∨ S.acts (.start c) = false
  | _ => True

omit [Zero β] in
/-- The label does not bring any process into a call on the side. -/
def Label.Avoids (S : Side β) : Label β → Prop
  | .call _ c => S.acts (.start c) = false
  | _ => True

omit [Zero β] in
/-- A label that brings no process into such a call. -/
theorem Label.Avoids.leaves {S : Side β} {l : Label β} (h : l.Avoids S) (p : Pid) : l.Leaves S p := by
  cases l with
  | call q c => exact Or.inr h
  | sched q => trivial
  | signal q => trivial

namespace Driver

omit [Zero β] in
/-- No process other than `p` is in a call on the side. -/
def Alone (S : Side β) (p : Pid) (σ : Driver β) : Prop := ∀ q, q ≠ p → S.acts (σ.procs q) = false

omit [Zero β] in
/-- No process is in a call on the side. -/
def Quiet (S : Side β) (σ : Driver β) : Prop := ∀ p, Alone S p σ

variable {S : Side β} {p : Pid} {σ : Driver β} {l : Label β}

omit [Zero β] in
/-- The only process that may be in a call on the side is in none. -/
theorem Alone.quiet (h : Alone S p σ) (hp : S.acts (σ.procs p) = false) : Quiet S σ := by
  intro p' q hq
  by_cases hqp : q = p
  · rwa [hqp]
  · exact h q hqp

/-- A process stays alone. -/
theorem Alone.step (hS : S.Lawful) (hl : l.Leaves S p) (h : Alone S p σ) :
    Alone S p (σ.step l) := by
  intro q hq
  by_cases hkeep : l.KeepsCall q
  · by_cases hown : l = .sched q
    · subst hown
      rw [Driver.step, sched_procs_self]
      exact hS.acts_step _ _ (h q hq)
    · exact hS.acts_nudge _ _ (step_nudge σ hkeep hown) (h q hq)
  · -- Process `q` enters a call, but not on the side.
    cases l with
    | call q' c =>
      obtain rfl : q' = q := not_not.mp hkeep
      have hc : S.acts (.start c) = false := hl.resolve_left hq
      simp only [Driver.step]
      split_ifs
      · simpa using hc
      · exact h q' hq
    | sched q' => exact absurd trivial hkeep
    | signal q' => exact absurd trivial hkeep

/-- All bytes are appended by the only writer. -/
theorem appended_alone {ls : List (Label β)} (hls : ∀ l ∈ ls, l.Leaves Side.out p) :
    ∀ e ∈ ((init : Driver β).run ls).appended, e.1 = p := by
  suffices h : Alone Side.out p ((init : Driver β).run ls) ∧
      ∀ e ∈ ((init : Driver β).run ls).appended, e.1 = p from h.2
  refine run_invariant (P := fun σ : Driver β => Alone Side.out p σ ∧ ∀ e ∈ σ.appended, e.1 = p)
    (fun (σ : Driver β) l hl h => ?_) hls ⟨fun _ _ => rfl, by simp [init]⟩
  refine ⟨h.1.step Side.out_lawful hl, ?_⟩
  cases l with
  | call q c =>
    simp only [Driver.step]
    split_ifs <;> exact h.2
  | signal q => exact h.2
  | sched q =>
    intro e he
    rcases List.mem_append.mp he with he | he
    · exact h.2 e he
    · by_cases hq : q = p
      · obtain ⟨b, -, rfl⟩ := List.mem_map.mp he
        exact hq
      · rw [Proc.step_appended σ.ring (h.1 q hq)] at he
        simp at he

/-- What the others do keeps the side. -/
theorem Alone.keeps (hS : S.Lawful) (h : Alone S p σ) (hl : l ≠ .sched p) :
    S.Keeps σ.ring (σ.step l).ring := by
  cases l with
  | call q c =>
    simp only [Driver.step]
    split_ifs <;> exact .refl _ _
  | signal q => exact .refl _ _
  | sched q =>
    have hq : q ≠ p := fun heq => hl (by rw [heq])
    exact hS.keeps _ _ (h q hq)

/-- While no process is in a call on the side, a slot that is ready under its cursor stays ready. -/
theorem Quiet.step (hS : S.Lawful) (σ : Driver β) (l : Label β) (hl : l.Avoids S)
    (h : Quiet S σ ∧ S.Ready σ.ring) : Quiet S (σ.step l) ∧ S.Ready (σ.step l).ring := by
  refine ⟨fun p => (h.1 p).step hS (hl.leaves p), ?_⟩
  -- Some process does not make this step, and it is alone.
  obtain ⟨p, hp⟩ : ∃ p, l ≠ .sched p := by
    cases l with
    | sched q => exact ⟨q + 1, by simp⟩
    | _ => exact ⟨0, by simp⟩
  exact ((h.1 p).keeps hS hp).readyAt h.2

end Driver

/-- A description `Φ r P` of the ring and a process that stays true in the course of a call, as long
as the others keep the side. -/
structure Side.Stable (S : Side β) (Φ : RingBuffer β → Proc β → Prop) : Prop where
  /-- The steps of the process keep it. -/
  own : ∀ r P, Φ r P → Φ (P.step r).ring (P.step r).proc
  /-- The others keep it. -/
  other : ∀ r r' P P', S.Keeps r r' → P.Nudge P' → Φ r P → Φ r' P'

namespace Side.Stable

open Driver

variable {S : Side β} {Φ : RingBuffer β → Proc β → Prop} {p : Pid}

/-- One step of the driver. -/
theorem step (hΦ : S.Stable Φ) (hS : S.Lawful) (σ : Driver β) (l : Label β)
    (hl : l.KeepsCall p ∧ l.Leaves S p) (h : Alone S p σ ∧ Φ σ.ring (σ.procs p)) :
    Alone S p (σ.step l) ∧ Φ (σ.step l).ring ((σ.step l).procs p) := by
  refine ⟨h.1.step hS hl.2, ?_⟩
  by_cases hown : l = .sched p
  · subst hown
    rw [Driver.step, sched_procs_self]
    exact hΦ.own _ _ h.2
  · exact hΦ.other _ _ _ _ (h.1.keeps hS hown) (step_nudge σ hl.1 hown) h.2

/-- A description that also holds at the start of every call stays true while `p` is alone on the
side, also in the course of further calls. -/
theorem run (hΦ : S.Stable Φ) (hS : S.Lawful) (hstart : ∀ r c, Φ r (.start c)) {σ : Driver β}
    {ls : List (Label β)} (hls : ∀ l ∈ ls, l.Leaves S p) (h : Alone S p σ ∧ Φ σ.ring (σ.procs p)) :
    Alone S p (σ.run ls) ∧ Φ (σ.run ls).ring ((σ.run ls).procs p) := by
  refine run_invariant (P := fun σ : Driver β => Alone S p σ ∧ Φ σ.ring (σ.procs p))
    (fun (σ : Driver β) l hl h => ?_) hls h
  by_cases hkeep : l.KeepsCall p
  · exact hΦ.step hS σ l ⟨hkeep, hl⟩ h
  · refine ⟨h.1.step hS hl, ?_⟩
    cases l with
    | call q c =>
      obtain rfl : q = p := not_not.mp hkeep
      simp only [Driver.step]
      split_ifs
      · simpa using hstart _ c
      · exact h.2
    | sched q => exact absurd trivial hkeep
    | signal q => exact absurd trivial hkeep

end Side.Stable

end QrngDevice
