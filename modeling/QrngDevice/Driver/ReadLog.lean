import QrngDevice.Driver.Delivered
import QrngDevice.Driver.ReadErrors
import QrngDevice.Lib.Deal

/-!
# Blocking reads side by side

Any number of processes read at the same time. Each read takes its bytes one by one, and others take,
append and sleep in between. `ReadLog` is the driver with a log of all its reads: the bytes are numbered
in the order in which they are taken, which is the order in which they were appended, and the log keeps
the numbers that each read has got.

`blocking_reads_partition` is about blocking reads into accessible destinations that no signal
interrupts. Each of them that returns has returned all bytes that it wanted, and has them in its
destination in the order of insertion; and the reads share out the bytes appended, from the first on,
with none left out and none given twice.
-/

namespace QrngDevice

open Runs RingBuffer

variable {β : Type*}

/-! ## The log -/

/-- A read is named by its process and its number among the reads of this process, from 1 on. -/
abbrev ReadId : Type := Pid × ℕ

/-- What a read has returned: the value, and the destination at that time. -/
def Proc.readResult : Proc β → Option (ℤ × List β)
  | .returned (.read v it) => some (v, it.buf)
  | _ => none

/-- The driver with a log of its reads. No step of the driver depends on the log. -/
structure ReadLog (β : Type*) where
  /-- The driver. -/
  driver : Driver β
  /-- How many reads each process has entered. -/
  entered : Pid → ℕ
  /-- How many bytes each read wants. -/
  size : ReadId → ℕ
  /-- The numbers of the bytes that each read has taken, in order. -/
  positions : ReadId → List ℕ
  /-- What each read has returned, if it has. -/
  result : ReadId → Option (ℤ × List β)

namespace ReadLog

/-- The last read of a process. -/
def current (L : ReadLog β) (p : Pid) : ReadId := (p, L.entered p)

/-- Process `p` enters a read of `n` bytes. -/
def enter (L : ReadLog β) (p : Pid) (n : ℕ) : ReadLog β :=
  { L with
    entered := Function.update L.entered p (L.entered p + 1)
    size := Function.update L.size (p, L.entered p + 1) n }

/-- The last read of process `p` takes the next `k` bytes, and the process is `P` after that. -/
def note (L : ReadLog β) (p : Pid) (k : ℕ) (P : Proc β) : ReadLog β :=
  { L with
    positions := Function.update L.positions (L.current p)
      (L.positions (L.current p) ++ List.range' L.driver.taken.length k)
    result := Function.update L.result (L.current p) P.readResult }

variable [Zero β]

/-- Nothing has been read yet. -/
def init : ReadLog β := ⟨.init, fun _ => 0, fun _ => 0, fun _ => [], fun _ => none⟩

/-- The log after a label of the driver. -/
def record (L : ReadLog β) : Label β → ReadLog β
  | .call p (.read _ buf _) => if (L.driver.procs p).free then L.enter p buf.length else L
  | .sched p =>
    match L.driver.procs p with
    | .read c pc =>
      let o := (Proc.read c pc).step L.driver.ring
      L.note p o.taken.length o.proc
    | _ => L
  | _ => L

/-- The driver and the log after a label. -/
def step (L : ReadLog β) (l : Label β) : ReadLog β :=
  { L.record l with driver := L.driver.step l }

/-- The driver and the log after the labels `ls`. -/
abbrev run (L : ReadLog β) (ls : List (Label β)) : ReadLog β := Runs.run step L ls

/-- The driver runs as without the log. -/
theorem run_driver (L : ReadLog β) (ls : List (Label β)) : (L.run ls).driver = L.driver.run ls := by
  induction ls generalizing L with
  | nil => rfl
  | cons l ls ih => exact ih (L.step l)

end ReadLog

/-- The label lets no signal interrupt a read, and every read that it enters is a blocking one, of at
least one byte, into an accessible destination. -/
def Label.Uninterrupted : Label β → Prop
  | .call _ (.read kiocb buf limit) =>
    kiocb.nonblocking = false ∧ buf ≠ [] ∧ buf.length ≤ limit
  | .signal _ => False
  | _ => True

/-! ## One read -/

variable [Zero β] {buf : List β} {limit : ℕ} {P : Proc β} {xs : List β}

/-- A step of a blocking read without a signal keeps it such a read, or returns with all bytes wanted,
which fill the destination. -/
theorem ReadPhase.step_uninterrupted {c : ReadCall β} {pc : ReadPc β}
    (h : ReadPhase false buf limit (.read c pc) xs) (hbuf : buf ≠ []) (hlimit : buf.length ≤ limit)
    (hsig : c.sig = false) (r : RingBuffer β) :
    (∃ c' pc', ((Proc.read c pc).step r).proc = .read c' pc' ∧ c'.sig = false) ∨
      ∃ it, ((Proc.read c pc).step r).proc = .returned (.read buf.length it) ∧
        it.buf = xs ++ ((Proc.read c pc).step r).taken ∧ it.buf.length = buf.length := by
  have hphase := h.step r
  have hkeep : ∀ c' pc', ((Proc.read c pc).step r).proc = .read c' pc' → c'.sig = false := by
    intro c' pc' heq
    simp only [Proc.step] at heq
    rcases c.step_proc r pc with ⟨c'', pc'', heq', hsig'⟩ | ⟨v, it, heq'⟩
    · rw [heq', Proc.read.injEq] at heq
      rw [← heq.1, hsig', hsig]
    · rw [heq'] at heq
      cases heq
  -- A wait only ends early with a signal.
  have hrestart : ¬ ((Proc.read c pc).step r).proc.Returns (-ERESTARTSYS) := by
    have hne : (-ERESTARTSYS : ℤ) ≠ buf.length := by
      rw [ERESTARTSYS]
      omega
    rw [h.returns_step r hbuf hne, h.earlyReturn_restart r]
    rintro (hret | hfinds)
    · exact Proc.not_returns_read _ _ _ hret
    · cases pc <;> simp [Proc.FindsSignal, hsig] at hfinds
  generalize ((Proc.read c pc).step r).proc = P' at hphase hkeep hrestart ⊢
  cases hphase with
  | start hpc hnb hit hret hxs => exact Or.inl ⟨_, _, rfl, hkeep _ _ rfl⟩
  | take hnb hit hlt hret => exact Or.inl ⟨_, _, rfl, hkeep _ _ rfl⟩
  | held hpc hnb hit hlt hret hxs => exact Or.inl ⟨_, _, rfl, hkeep _ _ rfl⟩
  | wait hpc hnb hblock hit hlt hret => exact Or.inl ⟨_, _, rfl, hkeep _ _ rfl⟩
  | again hnb hit hxs => cases hnb
  | short hnb hit hlt => cases hnb
  | @full it _ hit hoff =>
    obtain ⟨hlen, htake⟩ := hit.take_eq hlimit
    have hlength := hit.length_eq
    rw [List.take_of_length_le (by omega)] at htake
    exact Or.inr ⟨it, by rw [hoff], htake, hlength⟩
  | @interrupted it _ hnb hit hlt => exact absurd ⟨it, rfl⟩ hrestart

omit [Zero β] in
/-- What a read has put into its destination so far, it has taken. -/
theorem ReadPhase.destination {nb : Bool} {c : ReadCall β} {pc : ReadPc β}
    (h : ReadPhase nb buf limit (.read c pc) xs) (hlimit : buf.length ≤ limit) :
    c.iter.buf.length = buf.length ∧ c.iter.buf.take c.iter.off <+: xs := by
  have hfilled : ∀ {it : IovIter β} {ys : List β}, it.Filled buf limit ys →
      it.buf.length = buf.length ∧ it.buf.take it.off = ys := by
    intro it ys hit
    obtain ⟨hoff, htake⟩ := hit.take_eq hlimit
    exact ⟨hit.length_eq, by rw [hoff, htake]⟩
  cases h with
  | start hpc hnb hit hret hxs =>
    rw [hit]
    exact ⟨rfl, List.nil_prefix⟩
  | take hnb hit hlt hret =>
    rw [(hfilled hit).2]
    exact ⟨(hfilled hit).1, List.prefix_rfl⟩
  | held hpc hnb hit hlt hret hxs =>
    rw [(hfilled hit).2, hxs]
    exact ⟨(hfilled hit).1, List.prefix_append _ _⟩
  | wait hpc hnb hblock hit hlt hret =>
    rw [(hfilled hit).2]
    exact ⟨(hfilled hit).1, List.prefix_rfl⟩

/-! ## What the log says of a process -/

/-- The process is in a read, or its last call was one. -/
def Proc.ofRead : Proc β → Bool
  | .read _ _ => true
  | .returned (.read _ _) => true
  | _ => false

/-- What the log says of the last read of a process: how many bytes it wants, what it has returned, and
the bytes that it has taken. -/
inductive Tracked (size : ℕ) (result : Option (ℤ × List β)) (bytes : List (Option β)) : Proc β → Prop
  /-- The process is in this read. -/
  | running {c : ReadCall β} {pc : ReadPc β} {buf : List β} {limit : ℕ} {xs : List β}
      (hphase : ReadPhase false buf limit (.read c pc) xs) (hbuf : buf ≠ [])
      (hlimit : buf.length ≤ limit) (hsig : c.sig = false) (hsize : size = buf.length)
      (hresult : result = none) (hbytes : bytes = xs.map some) :
      Tracked size result bytes (.read c pc)
  /-- The process has returned from this read. -/
  | returned {v : ℤ} {it : IovIter β} (hresult : result = some (v, it.buf)) :
      Tracked size result bytes (.returned (.read v it))
  /-- The process has made another call since, or none at all. -/
  | other {P : Proc β} (h : P.ofRead = false) : Tracked size result bytes P

section

variable {size : ℕ} {result : Option (ℤ × List β)} {bytes : List (Option β)}

omit [Zero β] in
/-- A wake-up keeps the variables of a read. -/
theorem Proc.woken_read (c : ReadCall β) (pc : ReadPc β) (wr wp : Bool) :
    ∃ pc', (Proc.read c pc).woken wr wp = .read c pc' := by
  cases wr <;> cases wp <;> cases pc <;> exact ⟨_, rfl⟩

omit [Zero β] in
/-- A wake-up does not bring a process into a read. -/
theorem Proc.ofRead_woken (P : Proc β) (wr wp : Bool) : (P.woken wr wp).ofRead = P.ofRead := by
  rcases P with _ | ⟨c, pc⟩ | ⟨c, pc⟩ | ⟨c, pc⟩ | res
  · cases wr <;> cases wp <;> rfl
  · obtain ⟨pc', heq⟩ := Proc.woken_read c pc wr wp
    rw [heq]
    rfl
  · cases wr <;> cases wp <;> rfl
  · cases wr <;> cases wp <;> cases pc <;> rfl
  · cases wr <;> cases wp <;> rfl

omit [Zero β] in
/-- The log stays right when others wake up the process. -/
theorem Tracked.woken (h : Tracked size result bytes P) (wr wp : Bool) :
    Tracked size result bytes (P.woken wr wp) := by
  cases h with
  | @running c pc buf limit xs hphase hbuf hlimit hsig hsize hresult hbytes =>
    have hphase' := hphase.nudge (.woken wr wp)
    obtain ⟨pc', heq⟩ := Proc.woken_read c pc wr wp
    rw [heq] at hphase' ⊢
    exact .running hphase' hbuf hlimit hsig hsize hresult hbytes
  | @returned v it hresult =>
    have hsame : (Proc.returned (.read v it)).woken wr wp = .returned (.read v it) :=
      (Proc.Nudge.woken wr wp).returned
    rw [hsame]
    exact .returned hresult
  | other h => exact .other (by rwa [Proc.ofRead_woken])

/-- A process that is in no read takes nothing, and stays in none. -/
theorem Proc.ofRead_step (r : RingBuffer β) (h : ∀ c pc, P ≠ .read c pc) :
    (P.step r).taken = [] ∧
      ((P.step r).proc = P ∨ P.ofRead = false ∧ (P.step r).proc.ofRead = false) := by
  refine ⟨Proc.taken_of_not_read r h, ?_⟩
  rcases P with _ | ⟨c, pc⟩ | ⟨c, pc⟩ | ⟨c, pc⟩ | res
  · -- A free process does nothing, and a write or a poll stays one, or returns as one.
    exact Or.inl rfl
  · exact absurd rfl (h c pc)
  · refine Or.inr ⟨rfl, ?_⟩
    simp only [Proc.step]
    rcases (c.step_proc r pc).1 with ⟨c', pc', heq⟩ | ⟨v, it, heq⟩
    · rw [heq]
      rfl
    · rw [heq]
      rfl
  · refine Or.inr ⟨rfl, ?_⟩
    simp only [Proc.step]
    rcases (c.step_proc r pc).1 with ⟨c', pc', heq⟩ | ⟨e, heq⟩
    · rw [heq]
      rfl
    · rw [heq]
      rfl
  · exact Or.inl rfl

/-- The log stays right when a process that is in no read makes a step. -/
theorem Tracked.step_other (h : Tracked size result bytes P) (hnot : ∀ c pc, P ≠ .read c pc)
    (r : RingBuffer β) : Tracked size result bytes (P.step r).proc := by
  rcases (Proc.ofRead_step r hnot).2 with hsame | ⟨-, hread⟩
  · rwa [hsame]
  · exact .other hread

/-- The log stays right when a process in a read makes a step, and notes what the read has returned. -/
theorem Tracked.step_read {c : ReadCall β} {pc : ReadPc β}
    (h : Tracked size result bytes (.read c pc)) (r : RingBuffer β) :
    Tracked size ((Proc.read c pc).step r).proc.readResult
        (bytes ++ ((Proc.read c pc).step r).taken.map some) ((Proc.read c pc).step r).proc ∧
      ∀ v dest, ((Proc.read c pc).step r).proc.readResult = some (v, dest) →
        v = size ∧ dest.length = size ∧
          bytes ++ ((Proc.read c pc).step r).taken.map some = dest.map some := by
  cases h with
  | @running _ _ buf limit xs hphase hbuf hlimit hsig hsize hresult hbytes =>
    have hbytes' : bytes ++ ((Proc.read c pc).step r).taken.map some =
        (xs ++ ((Proc.read c pc).step r).taken).map some := by
      rw [hbytes, List.map_append]
    have hphase' := hphase.step r
    rw [hbytes']
    rcases hphase.step_uninterrupted hbuf hlimit hsig r with ⟨c', pc', heq, hsig'⟩ | ⟨it, heq, hit⟩
    · -- The read goes on, with what it has taken now added to its bytes,
      rw [heq] at hphase' ⊢
      refine ⟨.running hphase' hbuf hlimit hsig' hsize rfl rfl, fun v dest hret => ?_⟩
      cases hret
    · rw [heq]
      -- or it has filled its destination, which then holds all its bytes.
      refine ⟨.returned rfl, fun v dest hret => ?_⟩
      cases hret
      rw [hsize, hit.1.symm]
      exact ⟨rfl, hit.2, rfl⟩
  | other h => cases h

end

/-! ## The whole log -/

namespace ReadLog

omit [Zero β] in
/-- The bytes that a read has taken. -/
def bytes (L : ReadLog β) (i : ReadId) : List (Option β) :=
  (L.positions i).map fun j => (L.driver.taken.map Prod.snd)[j]?

/-- The log is right. -/
structure Sound (L : ReadLog β) : Prop where
  /-- The ring accounts for all bytes. -/
  accounted : L.driver.Accounted
  /-- The bytes taken are dealt out to the reads. -/
  dealt : Dealt L.driver.taken.length L.positions
  /-- A read that has not been entered has no byte, and has not returned. -/
  unused : ∀ p k, L.entered p < k → L.positions (p, k) = [] ∧ L.result (p, k) = none
  /-- It is right about the last read of each process. -/
  tracked : ∀ p, Tracked (L.size (L.current p)) (L.result (L.current p)) (L.bytes (L.current p))
    (L.driver.procs p)
  /-- A read that has returned has returned all bytes that it wanted. -/
  finished : ∀ i v dest, L.result i = some (v, dest) →
    v = L.size i ∧ dest.length = L.size i ∧ L.bytes i = dest.map some

/-- At the start. -/
theorem sound_init : (init : ReadLog β).Sound where
  accounted := Driver.run_accounted []
  dealt := dealt_nil
  unused _ _ _ := ⟨rfl, rfl⟩
  tracked _ := .other rfl
  finished i v dest h := by cases h

variable {L : ReadLog β} {p : Pid}

/-- The bytes taken before are the same after more have been taken. -/
theorem Sound.bytes_append (h : L.Sound) (i : ReadId) (ts : List (Pid × β)) :
    ((L.positions i).map fun j => ((L.driver.taken ++ ts).map Prod.snd)[j]?) = L.bytes i := by
  refine List.map_congr_left fun j hj => ?_
  have hlt : j < (L.driver.taken.map Prod.snd).length := by
    rw [List.length_map]
    exact h.dealt.lt hj
  rw [List.map_append, List.getElem?_append_left hlt]

omit [Zero β] in
/-- The bytes at the places after a list are those appended to it. -/
theorem map_range'_getElem? (xs ys : List β) :
    ((List.range' xs.length ys.length).map fun j => (xs ++ ys)[j]?) = ys.map some := by
  refine List.ext_getElem (by simp) fun i hi hi' => ?_
  rw [List.length_map] at hi'
  simp [hi']

/-- A label that no read takes part in. -/
theorem Sound.keep (h : L.Sound) {σ : Driver β} (hacc : σ.Accounted)
    (htaken : σ.taken = L.driver.taken)
    (hprocs : ∀ q, Tracked (L.size (L.current q)) (L.result (L.current q)) (L.bytes (L.current q))
      (σ.procs q)) : Sound { L with driver := σ } where
  accounted := hacc
  dealt := by
    rw [htaken]
    exact h.dealt
  unused := h.unused
  tracked q := by
    simp only [bytes, htaken]
    exact hprocs q
  finished := by
    simp only [bytes, htaken]
    exact h.finished

/-- A process enters a blocking read. -/
theorem Sound.enter (h : L.Sound) {σ : Driver β} (hacc : σ.Accounted)
    (htaken : σ.taken = L.driver.taken) {buf : List β} {limit : ℕ} {kiocb : Kiocb}
    (hblock : kiocb.nonblocking = false) (hbuf : buf ≠ []) (hlimit : buf.length ≤ limit)
    (hprocs : σ.procs = Function.update L.driver.procs p (.start (.read kiocb buf limit))) :
    Sound { L.enter p buf.length with driver := σ } where
  accounted := hacc
  dealt := by
    rw [htaken]
    exact h.dealt
  unused q k hk := by
    rcases eq_or_ne q p with rfl | hq
    · simp only [ReadLog.enter, Function.update_self] at hk
      exact h.unused q k (by omega)
    · simp only [ReadLog.enter, Function.update_of_ne hq] at hk
      exact h.unused q k hk
  tracked q := by
    simp only [bytes, htaken, ReadLog.enter, current, hprocs]
    rcases eq_or_ne q p with rfl | hq
    · -- The new read has taken nothing.
      obtain ⟨hpos, hres⟩ := h.unused q (L.entered q + 1) (Nat.lt_succ_self _)
      have hphase := ReadPhase.entry kiocb buf limit
      rw [hblock] at hphase
      simp only [Function.update_self, hpos, hres, List.map_nil]
      exact .running hphase hbuf hlimit rfl rfl rfl rfl
    · have hne : (q, L.entered q) ≠ (p, L.entered p + 1) := fun heq => hq (congrArg Prod.fst heq)
      simp only [Function.update_of_ne hq, Function.update_of_ne hne]
      exact h.tracked q
  finished i v dest hret := by
    simp only [bytes, htaken, ReadLog.enter] at hret ⊢
    have hne : i ≠ (p, L.entered p + 1) := by
      rintro rfl
      rw [(h.unused p _ (Nat.lt_succ_self _)).2] at hret
      cases hret
    rw [Function.update_of_ne hne]
    exact h.finished i v dest hret

/-- A process makes a step of its read. -/
theorem Sound.note (h : L.Sound) {c : ReadCall β} {pc : ReadPc β}
    (hread : L.driver.procs p = .read c pc) :
    Sound { L.note p ((Proc.read c pc).step L.driver.ring).taken.length
        ((Proc.read c pc).step L.driver.ring).proc with driver := L.driver.sched p } := by
  have htracked := h.tracked p
  rw [hread] at htracked
  obtain ⟨htracked', hfinished⟩ := htracked.step_read L.driver.ring
  have hself := Driver.sched_procs_self L.driver p
  have htaken : (L.driver.sched p).taken = L.driver.taken ++
      ((Proc.read c pc).step L.driver.ring).taken.map (p, ·) := by
    rw [← hread]
    rfl
  rw [hread] at hself
  generalize (Proc.read c pc).step L.driver.ring = o at htracked' hfinished hself htaken ⊢
  -- The bytes of this read are those it had and those it takes now, and the others keep theirs.
  have hbytes : (((L.positions (L.current p)) ++
      List.range' L.driver.taken.length o.taken.length).map fun j =>
        ((L.driver.taken ++ o.taken.map (p, ·)).map Prod.snd)[j]?) =
          L.bytes (L.current p) ++ o.taken.map some := by
    have hnew := map_range'_getElem? (L.driver.taken.map Prod.snd) o.taken
    rw [List.length_map] at hnew
    rw [List.map_append, h.bytes_append, ← hnew]
    simp [List.map_append, Function.comp_def]
  refine ⟨h.accounted.step (.sched p), ?_, ?_, ?_, ?_⟩
  · simp only [htaken, ReadLog.note, List.length_append, List.length_map]
    exact h.dealt.deal (L.current p) o.taken.length
  · intro q k hk
    have hne : (q, k) ≠ L.current p := by
      intro heq
      obtain ⟨rfl, rfl⟩ := Prod.mk.inj heq
      exact absurd hk (lt_irrefl _)
    simp only [ReadLog.note, Function.update_of_ne hne]
    exact h.unused q k hk
  · intro q
    simp only [bytes, htaken]
    rcases eq_or_ne q p with rfl | hq
    · rw [hself]
      simp only [ReadLog.note, current, Function.update_self] at hbytes ⊢
      rw [hbytes]
      exact htracked'
    · have hne : L.current q ≠ L.current p := fun heq => hq (congrArg Prod.fst heq)
      rw [Driver.sched_procs_of_ne L.driver hq]
      simp only [ReadLog.note, current] at hne ⊢
      rw [Function.update_of_ne hne, Function.update_of_ne hne]
      have hold := h.bytes_append (q, L.entered q) (o.taken.map (p, ·))
      rw [hold]
      exact (h.tracked q).woken _ _
  · intro i v dest hret
    simp only [bytes, htaken]
    rcases eq_or_ne i (L.current p) with rfl | hne
    · simp only [ReadLog.note, Function.update_self] at hret hbytes ⊢
      rw [hbytes]
      exact hfinished v dest hret
    · simp only [ReadLog.note, Function.update_of_ne hne] at hret ⊢
      rw [h.bytes_append]
      exact h.finished i v dest hret

/-- A process that is in no read makes a step. -/
theorem Sound.sched_other (h : L.Sound) (hnot : ∀ c pc, L.driver.procs p ≠ .read c pc) :
    Sound { L with driver := L.driver.sched p } := by
  have hnil := (Proc.ofRead_step L.driver.ring hnot).1
  refine h.keep (h.accounted.step (.sched p)) ?_ fun q => ?_
  · rw [Driver.sched, hnil, List.map_nil, List.append_nil]
  · rcases eq_or_ne q p with rfl | hq
    · rw [Driver.sched_procs_self]
      exact (h.tracked q).step_other hnot _
    · rw [Driver.sched_procs_of_ne L.driver hq]
      exact (h.tracked q).woken _ _

/-- A process enters a call that is no read, or is in a call already. -/
theorem Sound.call_other (h : L.Sound) {c : Call β}
    (hc : (Proc.start c).ofRead = false ∨ (L.driver.procs p).free = false) :
    Sound { L with driver := L.driver.step (.call p c) } := by
  refine h.keep (h.accounted.step (.call p c)) ?_ fun q => ?_
  · simp only [Driver.step]
    split_ifs
    · rfl
    · rfl
  · simp only [Driver.step]
    split_ifs with hfree
    · rcases eq_or_ne q p with rfl | hq
      · simp only [Function.update_self]
        refine .other (hc.resolve_right ?_)
        rw [hfree]
        simp
      · simp only [Function.update_of_ne hq]
        exact h.tracked q
    · exact h.tracked q

/-- What the last read of a process has put into its destination are the first bytes that it has
taken. -/
theorem Sound.filled (h : L.Sound) (p : Pid) :
    (L.driver.procs p).filled.map some <+: L.bytes (L.current p) := by
  have htracked := h.tracked p
  have hfinished := h.finished (L.current p)
  generalize L.driver.procs p = P at htracked
  cases htracked with
  | running hphase hbuf hlimit hsig hsize hresult hbytes =>
    rw [hbytes]
    exact (hphase.destination hlimit).2.map some
  | returned hresult =>
    rw [(hfinished _ _ hresult).2.2]
    exact (List.take_prefix _ _).map some
  -- A process that is in no read, and has not returned from one, has filled nothing.
  | other hread =>
    have hnil : P.filled = [] := by
      rcases P with _ | ⟨c, pc⟩ | ⟨c, pc⟩ | ⟨c, pc⟩ | ⟨v, it⟩ | _ | _
      · rfl
      · cases hread
      · rfl
      · rfl
      · cases hread
      · rfl
      · rfl
    rw [hnil]
    exact List.nil_prefix

/-- Every label without signals and with blocking reads only keeps the log right. -/
theorem Sound.step (L : ReadLog β) (l : Label β) (hl : l.Uninterrupted) (h : L.Sound) :
    (L.step l).Sound := by
  cases l with
  | call p c =>
    cases c with
    | read kiocb buf limit =>
      -- A new read gets its entry in the log if the process is free. Otherwise nothing is called.
      obtain ⟨hblock, hbuf, hlimit⟩ := hl
      cases hfree : (L.driver.procs p).free with
      | true =>
        simp only [ReadLog.step, record, hfree, if_true]
        refine h.enter (h.accounted.step _) ?_ hblock hbuf hlimit ?_
        · simp only [Driver.step, hfree, if_true]
        · simp only [Driver.step, hfree, if_true]
      | false =>
        simp only [ReadLog.step, record, hfree, Bool.false_eq_true, if_false]
        exact h.call_other (Or.inr hfree)
    | write buf limit => exact h.call_other (Or.inl rfl)
    | poll events => exact h.call_other (Or.inl rfl)
  | sched p =>
    cases hproc : L.driver.procs p with
    | read c pc =>
      -- Only steps of reads are noted.
      simp only [ReadLog.step, record, hproc]
      exact h.note hproc
    | idle =>
      simp only [ReadLog.step, record, hproc]
      exact h.sched_other (by simp [hproc])
    | write c pc =>
      simp only [ReadLog.step, record, hproc]
      exact h.sched_other (by simp [hproc])
    | poll c pc =>
      simp only [ReadLog.step, record, hproc]
      exact h.sched_other (by simp [hproc])
    | returned res =>
      simp only [ReadLog.step, record, hproc]
      exact h.sched_other (by simp [hproc])
  | signal p => exact hl.elim

/-- The log is right at the end of a run. -/
theorem run_sound {ls : List (Label β)} (hls : ∀ l ∈ ls, l.Uninterrupted) :
    ((init : ReadLog β).run ls).Sound :=
  run_invariant Sound.step hls sound_init

/-- Uninterrupted blocking reads are complete, and share out the bytes in the order of insertion. The log
follows the driver. A read that has returned has returned the number of bytes that it wanted, and its
destination holds the bytes at its positions, in order. The current or last call of a process, if it is
a read, is its last read in the log: it has not returned yet, or has returned what the log says, and what
it has put into its destination so far are the bytes at the first of its positions. The positions of a
read increase, different reads have different ones, and those of all reads together are the first ones,
as many as bytes have been taken. -/
theorem blocking_reads_partition {ls : List (Label β)} (hls : ∀ l ∈ ls, l.Uninterrupted) :
    let σ := (Driver.init : Driver β).run ls
    let L := (init : ReadLog β).run ls
    let stream := σ.appended.map Prod.snd
    L.driver = σ ∧
      (∀ i v dest, L.result i = some (v, dest) → v = L.size i ∧ dest.length = L.size i ∧
        dest.map some = (L.positions i).map fun j => stream[j]?) ∧
      (∀ p, (∀ c pc, σ.procs p = .read c pc → L.result (L.current p) = none ∧
          L.size (L.current p) = c.iter.buf.length) ∧
        (∀ v it, σ.procs p = .returned (.read v it) → L.result (L.current p) = some (v, it.buf)) ∧
        (σ.procs p).filled.map some <+: (L.positions (L.current p)).map fun j => stream[j]?) ∧
      (∀ i, (L.positions i).Pairwise (· < ·)) ∧
      (∀ i j, i ≠ j → (L.positions i).Disjoint (L.positions j)) ∧
      (∀ m, (∃ i, m ∈ L.positions i) ↔ m < σ.taken.length) ∧
      σ.taken.map Prod.snd <+: stream := by
  intro σ L stream
  have hdriver : L.driver = σ := run_driver init ls
  have hsound : L.Sound := run_sound hls
  have hstream : σ.taken.map Prod.snd ++ σ.ring.contents = stream := Driver.run_contents ls
  have hbytes : ∀ i, L.bytes i = (L.positions i).map fun j => stream[j]? := by
    intro i
    refine List.map_congr_left fun j hj => ?_
    have hlt : j < (σ.taken.map Prod.snd).length := by
      rw [List.length_map, ← hdriver]
      exact hsound.dealt.lt hj
    rw [hdriver, ← hstream, List.getElem?_append_left hlt]
  refine ⟨hdriver, ?_, ?_, hsound.dealt.increasing, hsound.dealt.disjoint, ?_, ⟨_, hstream⟩⟩
  · -- What a read has returned.
    intro i v dest hret
    obtain ⟨hv, hlen, hdest⟩ := hsound.finished i v dest hret
    exact ⟨hv, hlen, by rw [← hdest, hbytes]⟩
  · -- What a process that is in a read, or was in one last, has got so far.
    intro p
    have htracked := hsound.tracked p
    have hfilled := hsound.filled p
    rw [hdriver] at htracked hfilled
    rw [hbytes] at hfilled
    refine ⟨fun c pc hproc => ?_, fun v it hproc => ?_, hfilled⟩
    · rw [hproc] at htracked
      cases htracked with
      | running hphase hbuf hlimit hsig hsize hresult hbytes =>
        exact ⟨hresult, by rw [hsize, (hphase.destination hlimit).1]⟩
      | other hread => cases hread
    · rw [hproc] at htracked
      cases htracked with
      | returned hresult => exact hresult
      | other hread => cases hread
  · -- All bytes taken are dealt out.
    intro m
    rw [hsound.dealt.mem_iff, hdriver]

/-- Process 0 appends four bytes, and processes 1 and 2 make a blocking read of two bytes each, step by
step in turns. -/
def twoReads : List (Label UInt8) :=
  .call 0 (.write [7, 8, 9, 5] 4) :: List.replicate 6 (.sched 0) ++
    [.call 1 (.read ⟨false, false, false⟩ [0, 0] 2), .call 2 (.read ⟨false, false, false⟩ [0, 0] 2)] ++
    (List.replicate 16 [.sched 1, .sched 2]).flatten

/-- The theorem for these reads: each delivers what the stream has at its positions, no position is one of
both, and the fourth byte has a reader but not a fifth. -/
theorem blocking_reads_partition_two_reads :
    let L := (init : ReadLog UInt8).run twoReads
    let stream := ((Driver.init : Driver UInt8).run twoReads).appended.map Prod.snd
    [some (7 : UInt8), some 9] = (L.positions (1, 1)).map (fun j => stream[j]?) ∧
      [some (8 : UInt8), some 5] = (L.positions (2, 1)).map (fun j => stream[j]?) ∧
      (L.positions (1, 1)).Disjoint (L.positions (2, 1)) ∧
      ((∃ i, 3 ∈ L.positions i) ∧ ¬ ∃ i, 4 ∈ L.positions i) := by
  have hls : ∀ l ∈ twoReads, l.Uninterrupted := by
    simp [twoReads, Label.Uninterrupted, Kiocb.nonblocking]
  have hret₁ : ((init : ReadLog UInt8).run twoReads).result (1, 1) = some (2, [7, 9]) := by
    decide +kernel
  have hret₂ : ((init : ReadLog UInt8).run twoReads).result (2, 1) = some (2, [8, 5]) := by
    decide +kernel
  have htaken : ((Driver.init : Driver UInt8).run twoReads).taken.length = 4 := by
    decide +kernel
  obtain ⟨-, hresult, -, -, hdisjoint, hall, -⟩ := blocking_reads_partition hls
  obtain ⟨-, -, hdest₁⟩ := hresult (1, 1) 2 [7, 9] hret₁
  obtain ⟨-, -, hdest₂⟩ := hresult (2, 1) 2 [8, 5] hret₂
  refine ⟨hdest₁, hdest₂, hdisjoint (1, 1) (2, 1) (by decide), (hall 3).mpr ?_, fun h => ?_⟩
  · rw [htaken]
    decide
  · rw [hall 4, htaken] at h
    exact absurd h (by decide)

end ReadLog

end QrngDevice
