import QrngDevice.Driver.Process
import QrngDevice.Driver.RingSpec

/-!
# What one step can do

`Proc.step_exec` says what a step of a process does to the ring: it runs the section that the
process stands at, if it stands at one, and nothing else. The records of the driver follow, so that
in every reachable state the ring represents a queue, and all bytes taken, followed by the queue,
are all bytes appended (`run_represents`).

The other lemmas say what a label does to one process and to the records of one process: a process
changes by its own steps, and otherwise only by wake-ups and signals, which leave it at the same
point of its call unless it waits.
-/

namespace QrngDevice

variable {β : Type*} [Zero β]

/-! ## The ring -/

omit [Zero β] in
/-- The section that the next step of a process runs, if any. -/
def Proc.sections : Proc β → List (RingBuffer.Section β)
  | .read _ .take => [.getRandomByte]
  | .write c .append => [.writeRandomBytesQrng c.iter]
  | _ => []

/-- A step of a process acts on the ring as its section does. -/
theorem Proc.step_exec (r : RingBuffer β) (p : Proc β) :
    (p.step r).taken = (r.exec p.sections).1 ∧ (p.step r).appended = (r.exec p.sections).2.1 ∧
      (p.step r).ring = (r.exec p.sections).2.2 := by
  cases p with
  | idle => exact ⟨rfl, rfl, rfl⟩
  | returned _ => exact ⟨rfl, rfl, rfl⟩
  | poll c pc =>
    cases pc with
    -- A poll has no section, and a write and a read have one each.
    | inFlag k =>
      simp only [Proc.step, PollCall.step, Proc.sections, RingBuffer.exec]
      split_ifs <;> exact ⟨rfl, rfl, rfl⟩
    | _ => exact ⟨rfl, rfl, rfl⟩
  | write c pc =>
    cases pc with
    | append =>
      simp [Proc.step, WriteCall.step, Proc.sections, RingBuffer.exec, RingBuffer.step]
    | entry =>
      simp only [Proc.step, WriteCall.step, Proc.sections, RingBuffer.exec]
      split_ifs <;> exact ⟨rfl, rfl, rfl⟩
    | _ => exact ⟨rfl, rfl, rfl⟩
  | read c pc =>
    cases pc with
    | take =>
      simp only [Proc.step, ReadCall.step, Proc.sections, RingBuffer.exec, RingBuffer.step]
      cases r.getRandomByte with
      | none => simp only; split_ifs <;> exact ⟨rfl, rfl, rfl⟩
      | some br => exact ⟨rfl, rfl, rfl⟩
    | testFlag k =>
      simp only [Proc.step, ReadCall.step, Proc.sections, RingBuffer.exec]
      split_ifs <;> exact ⟨rfl, rfl, rfl⟩
    | waitFlag w k =>
      simp only [Proc.step, ReadCall.step, Proc.sections, RingBuffer.exec]
      split_ifs <;> exact ⟨rfl, rfl, rfl⟩
    | _ => exact ⟨rfl, rfl, rfl⟩

/-- A process that is in no read takes nothing. -/
theorem Proc.taken_of_not_read (r : RingBuffer β) {P : Proc β} (h : ∀ c pc, P ≠ .read c pc) :
    (P.step r).taken = [] := by
  rw [(P.step_exec r).1]
  cases P with
  | idle => rfl
  | read c pc => exact absurd rfl (h c pc)
  | write c pc => cases pc <;> rfl
  | poll c pc => rfl
  | returned res => rfl

/-- A step takes the queue that the ring represents to another: what it takes, followed by that, is the
old queue with what it appends. -/
theorem Proc.step_represents {r : RingBuffer β} {q : List β} (h : r.Represents q) (P : Proc β) :
    ∃ q', (P.step r).ring.Represents q' ∧ (P.step r).taken ++ q' = q ++ (P.step r).appended := by
  -- A step acts on the ring as its section does, and the section as an operation of the queue does.
  have hfifo : r.Represents (⟨q, h.holds.length_le⟩ : Fifo β BUFF_SIZE).items := h
  obtain ⟨htaken, happ, hring⟩ := P.step_exec r
  obtain ⟨hout, hinn, hrep⟩ := RingBuffer.exec_refines hfifo P.sections
  rw [htaken, happ, hring, hout, hinn]
  exact ⟨_, hrep, Fifo.exec_conservation _ _⟩

/-- A read goes on, with the same pending signal, or returns. -/
theorem ReadCall.step_proc (c : ReadCall β) (r : RingBuffer β) (pc : ReadPc β) :
    (∃ c' pc', (c.step r pc).proc = .read c' pc' ∧ c'.sig = c.sig) ∨
      ∃ v it, (c.step r pc).proc = .returned (.read v it) := by
  -- The head of the loop goes on with the next take, or returns.
  have hloop : ∀ c' : ReadCall β, c'.sig = c.sig →
      (∃ c'' pc', c'.loop = .read c'' pc' ∧ c''.sig = c.sig) ∨
        ∃ v it, c'.loop = .returned (.read v it) := by
    intro c' hsig
    unfold ReadCall.loop
    split_ifs
    · exact Or.inl ⟨_, _, rfl, hsig⟩
    · exact Or.inr ⟨_, _, rfl⟩
    · exact Or.inr ⟨_, _, rfl⟩
  cases pc with
  -- Each other place goes on, goes to the head of the loop, or returns.
  | testFlag k =>
    simp only [ReadCall.step]
    split_ifs
    · exact Or.inr ⟨_, _, rfl⟩
    · exact Or.inr ⟨_, _, rfl⟩
    · exact hloop c rfl
  | take =>
    simp only [ReadCall.step]
    cases r.getRandomByte with
    | none =>
      simp only
      split_ifs
      · exact Or.inr ⟨_, _, rfl⟩
      · exact Or.inl ⟨_, _, rfl, rfl⟩
    | some br => exact Or.inl ⟨_, _, rfl, rfl⟩
  | copy b => exact hloop _ rfl
  | waitFlag woken k =>
    simp only [ReadCall.step]
    split_ifs
    · exact hloop c rfl
    · exact Or.inr ⟨_, _, rfl⟩
    · exact Or.inl ⟨_, _, rfl, rfl⟩
    · exact Or.inl ⟨_, _, rfl, rfl⟩
  | _ => exact Or.inl ⟨_, _, rfl, rfl⟩

omit [Zero β] in
/-- A write goes on or returns, and delivers nothing. -/
theorem WriteCall.step_proc (c : WriteCall β) (r : RingBuffer β) (pc : WritePc) :
    ((∃ c' pc', (c.step r pc).proc = .write c' pc') ∨
      ∃ v it, (c.step r pc).proc = .returned (.write v it)) ∧ (c.step r pc).delivered = [] := by
  -- The head of the loop goes on with the next test, or returns.
  have hloop : ∀ c' : WriteCall β, (∃ c'' pc', c'.loop = .write c'' pc') ∨
      ∃ v it, c'.loop = .returned (.write v it) := by
    intro c'
    unfold WriteCall.loop
    split_ifs
    · exact Or.inl ⟨_, _, rfl⟩
    · exact Or.inr ⟨_, _, rfl⟩
  cases pc with
  | entry =>
    simp only [WriteCall.step]
    split_ifs
    · exact ⟨Or.inr ⟨_, _, rfl⟩, rfl⟩
    · exact ⟨hloop c, rfl⟩
  -- A test that finds no free slot, and a section that writes nothing, return.
  | testFlag k =>
    simp only [WriteCall.step]
    split_ifs
    · exact ⟨Or.inr ⟨_, _, rfl⟩, trivial⟩
    · exact ⟨Or.inl ⟨_, _, rfl⟩, trivial⟩
  | append =>
    simp only [WriteCall.step]
    split_ifs
    · exact ⟨Or.inr ⟨_, _, rfl⟩, trivial⟩
    · exact ⟨Or.inl ⟨_, _, rfl⟩, trivial⟩
  | wakePoll copied => exact ⟨hloop _, rfl⟩
  | _ => exact ⟨Or.inl ⟨_, _, rfl⟩, rfl⟩

omit [Zero β] in
/-- A poll goes on or returns, and delivers nothing. -/
theorem PollCall.step_proc (c : PollCall) (r : RingBuffer β) (pc : PollPc) :
    ((∃ c' pc', (c.step r pc).proc = .poll c' pc') ∨
      ∃ e, (c.step r pc).proc = .returned (.poll e)) ∧ (c.step r pc).delivered = [] := by
  cases pc with
  | inFlag k =>
    simp only [PollCall.step]
    split_ifs
    · exact ⟨Or.inr ⟨_, rfl⟩, rfl⟩
    · exact ⟨Or.inr ⟨_, rfl⟩, rfl⟩
    · exact ⟨Or.inl ⟨_, _, rfl⟩, rfl⟩
    · exact ⟨Or.inl ⟨_, _, rfl⟩, rfl⟩
  | _ => exact ⟨Or.inl ⟨_, _, rfl⟩, rfl⟩

omit [Zero β] in
/-- The next step of the process wakes up `read_queue`. -/
def Proc.atWakeRead : Proc β → Bool
  | .read _ (.wakeRead _) => true
  | .write _ (.wakeRead _) => true
  | _ => false

omit [Zero β] in
/-- The next step of the process wakes up `poll_queue`. -/
def Proc.atWakePoll : Proc β → Bool
  | .read _ (.wakePoll _) => true
  | .write _ (.wakePoll _) => true
  | _ => false

/-- A step wakes up a queue exactly when the process stands at that call. -/
theorem Proc.step_wakes (r : RingBuffer β) (p : Proc β) :
    (p.step r).wakesRead = p.atWakeRead ∧ (p.step r).wakesPoll = p.atWakePoll := by
  cases p with
  | idle => exact ⟨rfl, rfl⟩
  | returned _ => exact ⟨rfl, rfl⟩
  -- Only the counter decides what is woken, in whichever branch a step goes on.
  | poll c pc =>
    cases pc with
    | inFlag k =>
      simp only [Proc.step, PollCall.step]
      split_ifs <;> exact ⟨rfl, rfl⟩
    | _ => exact ⟨rfl, rfl⟩
  | write c pc =>
    cases pc with
    | entry =>
      simp only [Proc.step, WriteCall.step]
      split_ifs <;> exact ⟨rfl, rfl⟩
    | _ => exact ⟨rfl, rfl⟩
  | read c pc =>
    cases pc with
    | take =>
      simp only [Proc.step, ReadCall.step]
      cases r.getRandomByte with
      | none => simp only; split_ifs <;> exact ⟨rfl, rfl⟩
      | some br => exact ⟨rfl, rfl⟩
    | testFlag k =>
      simp only [Proc.step, ReadCall.step]
      split_ifs <;> exact ⟨rfl, rfl⟩
    | waitFlag w k =>
      simp only [Proc.step, ReadCall.step]
      split_ifs <;> exact ⟨rfl, rfl⟩
    | _ => exact ⟨rfl, rfl⟩

namespace Driver

/-- The ring represents a queue that accounts for the records: the bytes taken, followed by the
queue, are the bytes appended. -/
def Accounted (σ : Driver β) : Prop :=
  ∃ q : Fifo β BUFF_SIZE, σ.ring.Represents q.items ∧
    σ.taken.map Prod.snd ++ q.items = σ.appended.map Prod.snd

/-- Every label keeps the account. -/
theorem Accounted.step {σ : Driver β} (h : σ.Accounted) (l : Label β) : (σ.step l).Accounted := by
  obtain ⟨q, hrep, hcons⟩ := h
  cases l with
  | call p c =>
    simp only [Driver.step]
    split_ifs
    · exact ⟨q, hrep, hcons⟩
    · exact ⟨q, hrep, hcons⟩
  | signal p => exact ⟨q, hrep, hcons⟩
  | sched p =>
    obtain ⟨q', hrep', hstep⟩ := Proc.step_represents hrep (σ.procs p)
    refine ⟨⟨q', hrep'.holds.length_le⟩, hrep', ?_⟩
    simp only [Driver.step, Driver.sched, List.map_append, List.map_map, Function.comp_def,
      List.map_id']
    calc (σ.taken.map Prod.snd ++ ((σ.procs p).step σ.ring).taken) ++ q'
        = σ.taken.map Prod.snd ++ (q.items ++ ((σ.procs p).step σ.ring).appended) := by
          rw [List.append_assoc, hstep]
      _ = σ.appended.map Prod.snd ++ ((σ.procs p).step σ.ring).appended := by
          rw [← List.append_assoc, hcons]

/-- In every reachable state, the ring represents a queue, and the bytes taken so far, followed by
that queue, are the bytes appended so far. -/
theorem run_accounted (ls : List (Label β)) : ((init : Driver β).run ls).Accounted :=
  Runs.run_invariant' (fun _ l h => h.step l) ls
    ⟨Fifo.empty, RingBuffer.represents_init, rfl⟩

/-- In every reachable state, the ring represents its contents. -/
theorem run_represents (ls : List (Label β)) :
    ((init : Driver β).run ls).ring.Represents ((init : Driver β).run ls).ring.contents := by
  obtain ⟨q, hrep, -⟩ := run_accounted ls
  rwa [hrep.contents_eq]

/-- In every reachable state, the bytes taken so far, followed by the contents of the ring, are the bytes
appended so far. -/
theorem run_contents (ls : List (Label β)) :
    ((init : Driver β).run ls).taken.map Prod.snd ++ ((init : Driver β).run ls).ring.contents =
      ((init : Driver β).run ls).appended.map Prod.snd := by
  obtain ⟨q, hrep, hcons⟩ := run_accounted ls
  rwa [hrep.contents_eq]

/-! ## One process -/

/-- The bytes that process `p` has taken so far. -/
def takenBy (σ : Driver β) (p : Pid) : List β := (σ.taken.filter (·.1 = p)).map Prod.snd

/-- The bytes that process `p` has appended so far. -/
def appendedBy (σ : Driver β) (p : Pid) : List β := (σ.appended.filter (·.1 = p)).map Prod.snd

/-- The bytes that process `p` has copied to its destinations so far. -/
def deliveredBy (σ : Driver β) (p : Pid) : List β := (σ.delivered.filter (·.1 = p)).map Prod.snd

end Driver

omit [Zero β] in
/-- The entries of process `p` after process `q` has added some. -/
theorem filter_append_map (xs : List (Pid × β)) (ys : List β) (p q : Pid) :
    ((xs ++ ys.map (q, ·)).filter (·.1 = p)).map Prod.snd =
      (xs.filter (·.1 = p)).map Prod.snd ++ if q = p then ys else [] := by
  rw [List.filter_append, List.map_append]
  congr 1
  split_ifs with h
  · simp [List.filter_map, Function.comp_def, h]
  · simp [List.filter_map, Function.comp_def, h]

/-- The label is not an entry of process `p` into a call. -/
def Label.KeepsCall (p : Pid) : Label β → Prop
  | .call q _ => q ≠ p
  | _ => True

/-- The label is a step of process `p`. -/
def Label.isSched (p : Pid) : Label β → Bool
  | .sched q => q = p
  | _ => false

omit [Zero β] in
/-- What `isSched` tests. -/
theorem Label.isSched_iff {p : Pid} {l : Label β} : l.isSched p = true ↔ l = .sched p := by
  cases l <;> simp [Label.isSched]

/-- How a process may change by what others do: by wake-ups and signals. -/
inductive Proc.Nudge (P : Proc β) : Proc β → Prop
  /-- By the wake-ups of another process's step. -/
  | woken (wakesRead wakesPoll : Bool) : Nudge P (P.woken wakesRead wakesPoll)
  /-- By a signal. -/
  | signalled : Nudge P P.signalled

omit [Zero β] in
/-- A nudge leaves a writer alone. -/
theorem Proc.Nudge.write {c : WriteCall β} {pc : WritePc} {P : Proc β}
    (h : (Proc.write c pc).Nudge P) : P = .write c pc := by
  cases h with
  | woken r p => cases r <;> cases p <;> rfl
  | signalled => rfl

omit [Zero β] in
/-- A nudge leaves a process whose call has returned alone. -/
theorem Proc.Nudge.returned {res : Result β} {P : Proc β} (h : (Proc.returned res).Nudge P) :
    P = .returned res := by
  cases h with
  | woken r p => cases r <;> cases p <;> rfl
  | signalled => rfl

omit [Zero β] in
/-- A nudge leaves a process that has made no call alone. -/
theorem Proc.Nudge.idle {P : Proc β} (h : (Proc.idle : Proc β).Nudge P) : P = .idle := by
  cases h with
  | woken r p => cases r <;> cases p <;> rfl
  | signalled => rfl

omit [Zero β] in
/-- A nudge puts a free process into no call. -/
theorem Proc.Nudge.free {P P' : Proc β} (h : P.Nudge P') (hfree : P.free = true) :
    P'.free = true := by
  cases P with
  | idle => rw [h.idle]; rfl
  | returned res => rw [h.returned]; rfl
  | _ => cases hfree

/-- Only process `p` moves: the label is not a step of another process, and `p` stays in its call. -/
def Label.Solo (p : Pid) : Label β → Prop
  | .call q _ => q ≠ p
  | .sched q => q = p
  | .signal _ => True

omit [Zero β] in
/-- While only `p` moves, it stays in its call. -/
theorem Label.Solo.keepsCall {p : Pid} {l : Label β} (h : l.Solo p) : l.KeepsCall p := by
  cases l with
  | call q c => exact h
  | sched q => trivial
  | signal q => trivial

namespace Driver

/-- Its own step takes a process where `Proc.step` says. -/
@[simp] theorem sched_procs_self (σ : Driver β) (p : Pid) :
    (σ.sched p).procs p = ((σ.procs p).step σ.ring).proc := by
  simp [sched]

/-- A step of another process wakes it up at most. -/
theorem sched_procs_of_ne (σ : Driver β) {p q : Pid} (h : q ≠ p) :
    (σ.sched p).procs q = (σ.procs q).woken ((σ.procs p).step σ.ring).wakesRead
      ((σ.procs p).step σ.ring).wakesPoll := by
  simp [sched, h]

@[simp] theorem sched_takenBy (σ : Driver β) (p q : Pid) :
    (σ.sched q).takenBy p =
      σ.takenBy p ++ if q = p then ((σ.procs q).step σ.ring).taken else [] :=
  filter_append_map _ _ _ _

@[simp] theorem sched_appendedBy (σ : Driver β) (p q : Pid) :
    (σ.sched q).appendedBy p =
      σ.appendedBy p ++ if q = p then ((σ.procs q).step σ.ring).appended else [] :=
  filter_append_map _ _ _ _

@[simp] theorem sched_deliveredBy (σ : Driver β) (p q : Pid) :
    (σ.sched q).deliveredBy p =
      σ.deliveredBy p ++ if q = p then ((σ.procs q).step σ.ring).delivered else [] :=
  filter_append_map _ _ _ _

/-- A label that is not a step, a call, or a signal of `p` wakes it up at most. -/
theorem step_woken (σ : Driver β) {p : Pid} {l : Label β} (hkeep : l.KeepsCall p)
    (hl : l ≠ .sched p) (hsig : l ≠ .signal p) :
    ∃ wr wp, (σ.step l).procs p = (σ.procs p).woken wr wp := by
  cases l with
  | call q c =>
    -- Another process enters a call.
    have hqp : p ≠ q := fun h => hkeep h.symm
    refine ⟨false, false, ?_⟩
    simp only [step]
    split_ifs
    · simp [Proc.woken, hqp]
    · rfl
  | signal q =>
    have hqp : p ≠ q := fun h => hsig (by rw [h])
    exact ⟨false, false, by simp [step, Proc.woken, hqp]⟩
  | sched q =>
    -- Another process makes a step, and wakes up whom it wakes up.
    have hqp : p ≠ q := fun h => hl (by rw [h])
    exact ⟨_, _, sched_procs_of_ne σ hqp⟩

/-- A label that is not a step or a call of `p` nudges it at most. -/
theorem step_nudge (σ : Driver β) {p : Pid} {l : Label β} (hkeep : l.KeepsCall p)
    (hl : l ≠ .sched p) : (σ.procs p).Nudge ((σ.step l).procs p) := by
  by_cases hsig : l = .signal p
  · subst hsig
    simpa [step] using Proc.Nudge.signalled
  · obtain ⟨wr, wp, heq⟩ := step_woken σ hkeep hl hsig
    rw [heq]
    exact .woken wr wp

/-- A label that is not a step of `p` leaves the records of `p` alone. -/
theorem step_records (σ : Driver β) {p : Pid} {l : Label β} (hl : l ≠ .sched p) :
    (σ.step l).takenBy p = σ.takenBy p ∧ (σ.step l).appendedBy p = σ.appendedBy p ∧
      (σ.step l).deliveredBy p = σ.deliveredBy p := by
  cases l with
  | call q c =>
    simp only [step]
    split_ifs <;> exact ⟨rfl, rfl, rfl⟩
  | signal q => exact ⟨rfl, rfl, rfl⟩
  | sched q =>
    have hqp : q ≠ p := fun h => hl (by rw [h])
    simp only [step, sched_takenBy, sched_appendedBy, sched_deliveredBy, if_neg hqp,
      List.append_nil]
    exact ⟨trivial, trivial, trivial⟩

end Driver

namespace Driver

/-! ## The run of one call -/

/-- The state in which process `p` has just entered the call `c`, after the labels `ls`. -/
def enter (ls : List (Label β)) (p : Pid) (c : Call β) : Driver β :=
  ((init : Driver β).run ls).step (.call p c)

/-- A free process that enters a call stands at its start, and the rest is as it was. -/
theorem enter_of_free {ls : List (Label β)} {p : Pid} {c : Call β}
    (h : (((init : Driver β).run ls).procs p).free = true) :
    (enter ls p c).procs p = .start c ∧ (enter ls p c).ring = ((init : Driver β).run ls).ring ∧
      (enter ls p c).takenBy p = ((init : Driver β).run ls).takenBy p ∧
      (enter ls p c).appendedBy p = ((init : Driver β).run ls).appendedBy p := by
  unfold enter
  simp only [step, if_pos h]
  exact ⟨by simp, trivial, rfl, rfl⟩

/-- The run of a call, as a run from the start. -/
theorem run_enter (ls : List (Label β)) (p : Pid) (c : Call β) (ls' : List (Label β)) :
    (init : Driver β).run (ls ++ .call p c :: ls') = (enter ls p c).run ls' := by
  rw [Driver.run, Runs.run_append, Runs.run_cons]
  rfl

/-- In the run of `ls` from `σ`, there is a moment at which process `p` has not yet returned and the
state is `τ`. -/
def During (σ : Driver β) (ls : List (Label β)) (p : Pid) (τ : Driver β) : Prop :=
  Runs.Visits step σ ls τ ∧ (τ.procs p).free = false

/-- A process keeps the result of its last call until its next one. -/
theorem returned_step {σ : Driver β} {p : Pid} {l : Label β} {res : Result β} (hl : l.KeepsCall p)
    (h : σ.procs p = .returned res) : (σ.step l).procs p = .returned res := by
  by_cases hown : l = .sched p
  · subst hown
    rw [Driver.step, sched_procs_self, h]
    rfl
  · have hnudge := step_nudge σ hl hown
    rw [h] at hnudge
    exact hnudge.returned

/-- A free process stays as it is until its next call. -/
theorem step_of_free {σ : Driver β} {p : Pid} {l : Label β} (hl : l.KeepsCall p)
    (h : (σ.procs p).free = true) : (σ.step l).procs p = σ.procs p := by
  cases hP : σ.procs p with
  | idle =>
    by_cases hown : l = .sched p
    · subst hown
      rw [Driver.step, sched_procs_self, hP]
      rfl
    · have hnudge := step_nudge σ hl hown
      rw [hP] at hnudge
      exact hnudge.idle
  | returned res => exact returned_step hl hP
  | _ =>
    rw [hP] at h
    cases h

/-- So it does in a run without one. -/
theorem run_of_free {σ : Driver β} {p : Pid} {ls : List (Label β)} (hls : ∀ l ∈ ls, l.KeepsCall p)
    (h : (σ.procs p).free = true) : (σ.run ls).procs p = σ.procs p :=
  Runs.run_invariant (P := fun τ : Driver β => τ.procs p = σ.procs p)
    (fun _ _ hl hτ => (step_of_free hl (hτ ▸ h)).trans hτ) hls rfl

/-- A step of a free process does nothing. -/
theorem sched_of_free {σ : Driver β} {p : Pid} (h : (σ.procs p).free = true) :
    σ.step (.sched p) = σ := by
  have hnone : (σ.procs p).step σ.ring = { ring := σ.ring, proc := σ.procs p } := by
    cases hP : σ.procs p with
    | idle => rfl
    | returned res => rfl
    | _ =>
      rw [hP] at h
      cases h
  obtain ⟨ring, procs, appended, taken, delivered⟩ := σ
  simp only [Driver.step, Driver.sched] at hnone ⊢
  simp only [hnone, Proc.woken, List.map_nil, List.append_nil, Bool.false_eq_true, if_false]
  congr
  funext q
  split_ifs with hq
  · rw [hq]
  · rfl

/-- A process in a call enters no other. -/
theorem call_of_busy {σ : Driver β} {p : Pid} (h : (σ.procs p).free = false) (c : Call β) :
    σ.step (.call p c) = σ := by
  simp [Driver.step, h]

/-- A process that has made no call is free. -/
theorem run_free {p : Pid} {ls : List (Label β)} (hkeep : ∀ l ∈ ls, l.KeepsCall p) :
    (((init : Driver β).run ls).procs p).free = true := by
  -- It has not even left its first state.
  have hidle : ((init : Driver β).run ls).procs p = .idle := by
    refine Runs.run_invariant (P := fun σ : Driver β => σ.procs p = .idle)
      (fun (σ : Driver β) l hl h => ?_) hkeep rfl
    by_cases hown : l = .sched p
    · subst hown
      rw [Driver.step, sched_procs_self, h]
      rfl
    · have hnudge := step_nudge σ hl hown
      rw [h] at hnudge
      exact hnudge.idle
  rw [hidle]
  rfl

end Driver

/-- A description `Φ P xs ys` of a call by the state of its process and the bytes that it has taken
and appended so far, which stays true in the course of the call and after its return. -/
structure CallInvariant (Φ : Proc β → List β → List β → Prop) : Prop where
  /-- The steps of the process keep it. -/
  own : ∀ {r q P xs ys}, r.Represents q → Φ P xs ys →
    Φ (P.step r).proc (xs ++ (P.step r).taken) (ys ++ (P.step r).appended)
  /-- Wake-ups and signals keep it. -/
  nudge : ∀ {P P' xs ys}, Φ P xs ys → P.Nudge P' → Φ P' xs ys

/-- `Φ` describes process `p`, counting its bytes from the state `σ₀` on. -/
structure Driver.InCall (Φ : Proc β → List β → List β → Prop) (p : Pid) (σ₀ σ : Driver β) :
    Prop where
  /-- The ring represents a queue. -/
  accounted : σ.Accounted
  /-- The description holds of the process and its records. -/
  phase : ∃ xs ys, Φ (σ.procs p) xs ys ∧ σ.takenBy p = σ₀.takenBy p ++ xs ∧
    σ.appendedBy p = σ₀.appendedBy p ++ ys

namespace CallInvariant

open Driver

variable {Φ : Proc β → List β → List β → Prop} {p : Pid} {σ₀ σ : Driver β}

/-- Every label but a call of the process keeps the description. -/
theorem step (hΦ : CallInvariant Φ) (σ : Driver β) (l : Label β) (hl : l.KeepsCall p)
    (h : InCall Φ p σ₀ σ) : InCall Φ p σ₀ (σ.step l) := by
  obtain ⟨xs, ys, hphase, htaken, happ⟩ := h.phase
  refine ⟨h.accounted.step l, ?_⟩
  by_cases hown : l = .sched p
  · subst hown
    obtain ⟨q, hrep, -⟩ := h.accounted
    refine ⟨xs ++ ((σ.procs p).step σ.ring).taken, ys ++ ((σ.procs p).step σ.ring).appended,
      ?_, ?_, ?_⟩
    · rw [Driver.step, sched_procs_self]
      exact hΦ.own hrep hphase
    · simp [Driver.step, htaken]
    · simp [Driver.step, happ]
  · obtain ⟨htaken', happ', -⟩ := step_records σ hown
    exact ⟨xs, ys, hΦ.nudge hphase (step_nudge _ hl hown), htaken'.trans htaken, happ'.trans happ⟩

/-- The description holds when the call is entered. -/
theorem enter {ls : List (Label β)} {c : Call β}
    (hfree : (((init : Driver β).run ls).procs p).free = true) (hstart : Φ (.start c) [] []) :
    InCall Φ p ((init : Driver β).run ls) (Driver.enter ls p c) := by
  obtain ⟨hprocs, -, htaken, happ⟩ := enter_of_free (c := c) hfree
  refine ⟨(run_accounted ls).step _, [], [], ?_, ?_, ?_⟩
  · rwa [hprocs]
  · rw [htaken, List.append_nil]
  · rw [happ, List.append_nil]

/-- The description holds from then on, whatever happens. -/
theorem run (hΦ : CallInvariant Φ) {ls ls' : List (Label β)} {c : Call β}
    (hfree : (((init : Driver β).run ls).procs p).free = true) (hstart : Φ (.start c) [] [])
    (hkeep : ∀ l ∈ ls', l.KeepsCall p) :
    InCall Φ p ((init : Driver β).run ls) ((Driver.enter ls p c).run ls') :=
  Runs.run_invariant hΦ.step hkeep (enter hfree hstart)

/-- A measure of a process that its own steps lower and nudges do not raise has dropped, at the end
of a run, by at least the number of its own steps. -/
theorem rank (hΦ : CallInvariant Φ) {M : Proc β → ℕ}
    (hown : ∀ {r q P xs ys}, r.Represents q → Φ P xs ys → M (P.step r).proc ≤ M P - 1)
    (hother : ∀ {P P' xs ys}, Φ P xs ys → P.Nudge P' → M P' ≤ M P) {ls : List (Label β)}
    (hkeep : ∀ l ∈ ls, l.KeepsCall p) (h : InCall Φ p σ₀ σ) :
    M ((σ.run ls).procs p) ≤ M (σ.procs p) - ls.countP (Label.isSched p) := by
  refine Runs.run_measure (M := fun σ => M (σ.procs p)) hΦ.step ?_ ?_ hkeep h
  · intro σ l _ hσ hl
    obtain rfl := Label.isSched_iff.mp hl
    obtain ⟨xs, ys, hphase, -, -⟩ := hσ.phase
    obtain ⟨q, hrep, -⟩ := hσ.accounted
    rw [Driver.step, sched_procs_self]
    exact hown hrep hphase
  · intro σ l hl hσ hne
    have hne' : l ≠ .sched p := fun h => by simp [Label.isSched_iff.mpr h] at hne
    obtain ⟨xs, ys, hphase, -, -⟩ := hσ.phase
    exact hother hphase (step_nudge _ hl hne')

/-- A mark on a process that its own steps set exactly where `B` holds, and that nudges leave as it
is, tells whether the process has made a step where `B` holds. -/
theorem mark (hΦ : CallInvariant Φ) {M : Proc β → Prop} {B : RingBuffer β → Proc β → Prop}
    (hown : ∀ {r q P xs ys}, r.Represents q → Φ P xs ys → (M (P.step r).proc ↔ M P ∨ B r P))
    (hother : ∀ {P P' xs ys}, Φ P xs ys → P.Nudge P' → (M P' ↔ M P)) {ls : List (Label β)}
    (hkeep : ∀ l ∈ ls, l.KeepsCall p) (h : InCall Φ p σ₀ σ) (hM : ¬ M (σ.procs p)) :
    M ((σ.run ls).procs p) ↔ ∃ t, Runs.At Driver.step σ ls t (.sched p) ∧ B t.ring (t.procs p) := by
  refine Runs.run_iff_exists_at (M := fun σ => M (σ.procs p)) (B := fun σ => B σ.ring (σ.procs p))
    hΦ.step ?_ hkeep h hM
  intro σ l hl hσ
  obtain ⟨xs, ys, hphase, -, -⟩ := hσ.phase
  by_cases hl' : l = .sched p
  · subst hl'
    obtain ⟨q, hrep, -⟩ := hσ.accounted
    rw [Driver.step, sched_procs_self, hown hrep hphase]
    simp
  · rw [hother hphase (step_nudge _ hl hl')]
    simp [hl']

end CallInvariant

/-- A description `Φ r P` of the ring and a process that stays true as long as only this process
moves. -/
structure SoloInvariant (Φ : RingBuffer β → Proc β → Prop) : Prop where
  /-- The steps of the process keep it. -/
  own : ∀ {r P}, Φ r P → Φ (P.step r).ring (P.step r).proc
  /-- Wake-ups and signals keep it. -/
  nudge : ∀ {r P P'}, Φ r P → P.Nudge P' → Φ r P'

namespace SoloInvariant

open Driver

variable {Φ : RingBuffer β → Proc β → Prop} {p : Pid}

/-- What is no step of a process leaves the ring alone. -/
theorem step_ring (σ : Driver β) {l : Label β} (hl : l.Solo p) (hown : l ≠ .sched p) :
    (σ.step l).ring = σ.ring := by
  cases l with
  | call q c =>
    simp only [Driver.step]
    split_ifs <;> rfl
  | sched q => exact absurd (congrArg _ hl) hown
  | signal q => rfl

/-- Every label keeps the description. -/
theorem step (hΦ : SoloInvariant Φ) (σ : Driver β) (l : Label β) (hl : l.Solo p)
    (h : Φ σ.ring (σ.procs p)) : Φ (σ.step l).ring ((σ.step l).procs p) := by
  by_cases hown : l = .sched p
  · subst hown
    rw [Driver.step, sched_procs_self]
    exact hΦ.own h
  · rw [step_ring σ hl hown]
    exact hΦ.nudge h (step_nudge σ hl.keepsCall hown)

/-- The description stays true. -/
theorem run (hΦ : SoloInvariant Φ) {σ : Driver β} {ls : List (Label β)} (hls : ∀ l ∈ ls, l.Solo p)
    (h : Φ σ.ring (σ.procs p)) : Φ (σ.run ls).ring ((σ.run ls).procs p) :=
  Runs.run_invariant (P := fun σ : Driver β => Φ σ.ring (σ.procs p)) hΦ.step hls h

/-- A measure of the process that its own steps lower and nudges do not raise has dropped, at the end
of a run, by at least the number of its own steps. -/
theorem rank (hΦ : SoloInvariant Φ) {M : Proc β → ℕ}
    (hown : ∀ {r P}, Φ r P → M (P.step r).proc ≤ M P - 1)
    (hother : ∀ {r P P'}, Φ r P → P.Nudge P' → M P' ≤ M P) {σ : Driver β} {ls : List (Label β)}
    (hls : ∀ l ∈ ls, l.Solo p) (h : Φ σ.ring (σ.procs p)) :
    M ((σ.run ls).procs p) ≤ M (σ.procs p) - ls.countP (Label.isSched p) := by
  refine Runs.run_measure (I := fun σ : Driver β => Φ σ.ring (σ.procs p))
    (M := fun σ => M (σ.procs p)) hΦ.step ?_ ?_ hls h
  · intro σ l _ hσ hl
    obtain rfl := Label.isSched_iff.mp hl
    rw [Driver.step, sched_procs_self]
    exact hown hσ
  · intro σ l hl hσ hne
    have hne' : l ≠ .sched p := fun h => by simp [Label.isSched_iff.mpr h] at hne
    exact hother hσ (step_nudge _ hl.keepsCall hne')

end SoloInvariant

end QrngDevice
