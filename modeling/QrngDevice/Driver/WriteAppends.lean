import QrngDevice.Driver.WriteCall

/-!
# What a write appends

The loop of `qrng_write_iter` sums up what the sections of `write_random_bytes_qrng` report, and other
processes may take or append bytes between two of them. `write_appends` says that the sum is right: it
is the number of bytes that this write has appended, these are the first bytes of its source, and a
write that returns 0 or an error has not touched the ring.

If no other process moves in between, the first section already appends all that the write can
append. `SoloWrite` describes such a write, and `SoloWrite.step` follows it to its end.
-/

namespace QrngDevice

open Runs RingBuffer

variable {β : Type*} {buf : List β} {limit : ℕ} {P : Proc β} {xs : List β}

/-! ## The result of a write -/

/-- The bytes that the iterator has passed. -/
theorem IovIter.Over.length_take {it : IovIter β} (h : it.Over buf limit) :
    (buf.take it.off).length = it.off := by
  have hoff := h.off_le
  rw [List.length_take]
  omega

/-- What a write returns is the number of bytes that it has appended, unless it has appended none. -/
theorem WritePhase.result {ret : ℤ} {it : IovIter β}
    (h : WritePhase buf limit (.returned (.write ret it)) xs) :
    xs = buf.take ret.toNat ∧ xs.length = ret.toNat := by
  cases h with
  | empty hbuf hit hxs => simp [hxs]
  | wrote hit hpos hxs =>
    rw [hxs, Int.toNat_natCast]
    exact ⟨rfl, hit.length_take⟩
  | efault hit hoff hbuf hxs =>
    have hefault : (-EFAULT).toNat = 0 := rfl
    simp [hxs, hefault]

/-- The write of the process has appended a byte. -/
def Proc.HasWritten : Proc β → Prop
  | .write c _ => c.iter.off ≠ 0
  | .returned (.write _ it) => it.off ≠ 0
  | _ => False

/-- The offset of the iterator tells whether a write has appended a byte. -/
theorem WritePhase.hasWritten_iff (h : WritePhase buf limit P xs) : P.HasWritten ↔ xs ≠ [] := by
  have htake : ∀ {it : IovIter β}, it.Over buf limit → (it.off ≠ 0 ↔ buf.take it.off ≠ []) := by
    intro it hit
    rw [← List.length_pos_iff, hit.length_take, Nat.pos_iff_ne_zero]
  cases h with
  | entry hxs => simp [Proc.HasWritten, IovIter.start, hxs]
  | test hpc hit hlt hret hfault hxs =>
    rw [hxs]
    exact htake hit
  | wake hpc hpos hit hret hxs =>
    rw [hxs]
    exact htake hit
  | @empty it _ hbuf hit hxs =>
    have hoff := hit.off_le
    rw [hbuf, List.length_nil] at hoff
    have hoff0 : it.off = 0 := by omega
    simp [Proc.HasWritten, hoff0, hxs]
  | wrote hit hpos hxs =>
    rw [hxs]
    exact htake hit
  | efault hit hoff hbuf hxs => simp [Proc.HasWritten, hoff, hxs]

variable [Zero β] {r : RingBuffer β} {q : List β}

/-- A write takes no byte. -/
theorem WritePhase.step_taken (h : WritePhase buf limit P xs) (r : RingBuffer β) :
    (P.step r).taken = [] := by
  refine Proc.taken_of_not_read r fun c pc heq => ?_
  rw [heq] at h
  cases h

/-- A step of a write that appends nothing leaves the ring alone. -/
theorem WritePhase.step_ring (h : WritePhase buf limit P xs) (r : RingBuffer β)
    (hnil : (P.step r).appended = []) : (P.step r).ring = r := by
  have hexec := (P.step_exec r).2.2
  cases h with
  | entry hxs => exact hexec
  | @test c pc _ hpc hit hlt hret hfault hxs =>
    rcases hpc with rfl | ⟨k, rfl⟩ | rfl
    · exact hexec
    · exact hexec
    · -- There are bytes left, so if none was appended the section has reported none.
      have hleft : c.iter.buf.drop c.iter.off ≠ [] := by
        rw [hit.buf_eq, ← List.length_pos_iff, List.length_drop]
        omega
      have hret0 : (r.writeRandomBytesQrng c.iter).ret = 0 := by
        simp only [Proc.step, WriteCall.step, List.take_eq_nil_iff] at hnil
        exact hnil.resolve_right hleft
      exact writeRandomBytesQrng_of_ret_eq_zero hret0
  | wake hpc hpos hit hret hxs =>
    rcases hpc with rfl | rfl
    · exact hexec
    · exact hexec
  | empty hbuf hit hxs => exact hexec
  | wrote hit hpos hxs => exact hexec
  | efault hit hoff hbuf hxs => exact hexec

/-! ## A write alone -/

/-- A write that no other process has come between, from a ring that represented `q`. -/
structure SoloWrite (buf : List β) (limit : ℕ) (q : List β) (r : RingBuffer β) (P : Proc β)
    (xs : List β) : Prop where
  /-- The write has appended `xs`. -/
  phase : WritePhase buf limit P xs
  /-- Nothing else has been taken or appended. -/
  represents : r.Represents (q ++ xs)
  /-- A cursor that the write has loaded is still the current one. -/
  cursor : ∀ c k, P = .write c (.testFlag k) → k = r.qrngBuffWriteIt
  /-- When the write has returned, it has appended all that is readable and fits. -/
  complete : P.free = true → xs.length = min buf.length (min limit (BUFF_SIZE - q.length))

omit [Zero β] in
/-- The head of the loop returns exactly if nothing is left. -/
theorem WriteCall.free_loop {c : WriteCall β} : c.loop.free = true ↔ iovIterCount c.iter = 0 := by
  unfold WriteCall.loop
  split_ifs with hcount
  · simp [Proc.free, hcount]
  · exact ⟨fun _ => not_not.mp hcount, fun _ => rfl⟩

omit [Zero β] in
/-- A write that has appended everything, all that is readable, or all that fits is complete. -/
theorem length_eq_min {it : IovIter β} (hit : it.Over buf limit)
    (hfit : q.length + it.off ≤ BUFF_SIZE)
    (hstop : it.off = buf.length ∨ it.off = limit ∨ q.length + it.off = BUFF_SIZE) :
    (buf.take it.off).length = min buf.length (min limit (BUFF_SIZE - q.length)) := by
  have hoff := hit.off_le
  rw [hit.length_take]
  omega

/-- Only a load of the write cursor leads a write to its test of a flag. -/
theorem WritePhase.step_testFlag (h : WritePhase buf limit P xs) {c : WriteCall β} {k : ℕ}
    (heq : (P.step r).proc = .write c (.testFlag k)) : k = (P.step r).ring.qrngBuffWriteIt := by
  have hloop : ∀ c' : WriteCall β, c'.loop ≠ .write c (.testFlag k) := by
    intro c' hc
    unfold WriteCall.loop WriteCall.finish at hc
    split_ifs at hc
    simp at hc
  cases h with
  | entry hxs =>
    simp only [Proc.step, WriteCall.step] at heq
    split_ifs at heq with hcount
    exact absurd heq (hloop _)
  | @test c' pc _ hpc hit hlt hret hfault hxs =>
    rcases hpc with rfl | ⟨k', rfl⟩ | rfl
    · -- The load.
      simp only [Proc.step, WriteCall.step, Proc.write.injEq, WritePc.testFlag.injEq] at heq
      exact heq.2.symm
    · simp only [Proc.step, WriteCall.step, WriteCall.finish] at heq
      split_ifs at heq
      simp at heq
    · simp only [Proc.step, WriteCall.step, WriteCall.finish] at heq
      split_ifs at heq
      simp at heq
  | wake hpc hpos hit hret hxs =>
    rcases hpc with rfl | rfl
    · simp [Proc.step, WriteCall.step] at heq
    · exact absurd heq (hloop _)
  | empty hbuf hit hxs => cases heq
  | wrote hit hpos hxs => cases heq
  | efault hit hoff hbuf hxs => cases heq

/-- When a write alone returns, it has appended all that is readable and fits. -/
theorem SoloWrite.step_complete (h : SoloWrite buf limit q r P xs)
    (hfree : (P.step r).proc.free = true) :
    (xs ++ (P.step r).appended).length = min buf.length (min limit (BUFF_SIZE - q.length)) := by
  obtain ⟨hphase, hrep, hcursor, hcomplete⟩ := h
  have hfit := hrep.holds.length_le
  rw [List.length_append] at hfit
  cases hphase with
  | entry hxs =>
    simp only [Proc.step, WriteCall.step] at hfree ⊢
    split_ifs at hfree ⊢ with hcount
    · -- An empty source.
      have hbuf : buf.length = 0 := hcount
      simp [hxs, hbuf]
    · exact absurd (WriteCall.free_loop.mp hfree) hcount
  | @test c pc _ hpc hit hlt hret hfault hxs =>
    have hlen : xs.length = c.iter.off := by
      rw [hxs]
      exact hit.length_take
    rw [hlen] at hfit
    rcases hpc with rfl | ⟨k, rfl⟩ | rfl
    · cases hfree
    · obtain rfl := hcursor c k rfl
      simp only [Proc.step, WriteCall.step, List.append_nil] at hfree ⊢
      cases hk : r.qrngBuffReady r.qrngBuffWriteIt with
      | false =>
        rw [hk] at hfree
        cases hfree
      | true =>
        -- The ring is full.
        have hfull : ¬ (q ++ xs).length < BUFF_SIZE := by
          rw [← hrep.writeReady_iff, writeReady, hk]
          simp
        rw [List.length_append, hlen] at hfull
        rw [hxs]
        exact length_eq_min hit hfit (by omega)
    · -- The section has reported nothing: the ring is full, or nothing more is readable.
      have hspec := hrep.writeRandomBytesQrng_spec c.iter
      have hsret := hspec.ret
      rw [List.length_take, List.length_append, hlen, IovIter.length_readable, hit.buf_eq,
        hit.limit_eq] at hsret
      have hoff := hit.off_le
      simp only [Proc.step, WriteCall.step] at hfree ⊢
      split_ifs at hfree with hret0
      · rw [hret0, List.take_zero, List.append_nil, hxs]
        exact length_eq_min hit hfit (by omega)
      · cases hfree
  | @wake c pc _ copied hpc hpos hit hret hxs =>
    have hlen : xs.length = c.iter.off := by
      rw [hxs]
      exact hit.length_take
    rw [hlen] at hfit
    rcases hpc with rfl | rfl
    · cases hfree
    · -- Nothing is left of the source.
      simp only [Proc.step, WriteCall.step, List.append_nil] at hfree ⊢
      have hcount := WriteCall.free_loop.mp hfree
      simp only [iovIterCount, hit.buf_eq] at hcount
      have hoff := hit.off_le
      rw [hxs]
      exact length_eq_min hit hfit (by omega)
  | empty hbuf hit hxs => simpa [Proc.step] using hcomplete rfl
  | wrote hit hpos hxs => simpa [Proc.step] using hcomplete rfl
  | efault hit hoff hbuf hxs => simpa [Proc.step] using hcomplete rfl

/-- A step of such a write. -/
theorem SoloWrite.step (h : SoloWrite buf limit q r P xs) :
    SoloWrite buf limit q (P.step r).ring (P.step r).proc (xs ++ (P.step r).appended) where
  phase := h.phase.step h.represents
  represents := by
    obtain ⟨q', hrep', hq'⟩ := Proc.step_represents h.represents P
    rw [h.phase.step_taken r, List.nil_append, List.append_assoc] at hq'
    rwa [← hq']
  cursor c k heq := h.phase.step_testFlag heq
  complete hfree := h.step_complete hfree

/-- At the start of a write. -/
theorem SoloWrite.start (h : r.Represents q) (buf : List β) (limit : ℕ) :
    SoloWrite buf limit q r (.start (.write buf limit)) [] where
  phase := .start buf limit
  represents := by rwa [List.append_nil]
  cursor c k heq := by cases heq
  complete hfree := by cases hfree

/-- While no other process moves, a write stays such a write. -/
theorem soloWrites (buf : List β) (limit : ℕ) (q : List β) :
    SoloInvariant fun r P => ∃ xs, SoloWrite buf limit q r P xs where
  own h := by
    obtain ⟨xs, h⟩ := h
    exact ⟨_, h.step⟩
  nudge h hn := by
    obtain ⟨xs, h⟩ := h
    exact ⟨xs, by rwa [h.phase.eq_of_nudge hn]⟩

namespace Driver

variable {ls ls' : List (Label β)} {p : Pid}

/-- A step of a write is taken in one of its phases, and in a state whose ring represents a queue. -/
theorem write_at (hfree : (((init : Driver β).run ls).procs p).free = true)
    (hkeep : ∀ l ∈ ls', l.KeepsCall p) {t : Driver β}
    (hat : At Driver.step (enter ls p (.write buf limit)) ls' t (.sched p)) :
    ∃ xs, WritePhase buf limit (t.procs p) xs ∧ t.ring.Represents t.ring.contents := by
  have hin := hat.invariant (writePhases buf limit).step hkeep
    (CallInvariant.enter hfree (.start buf limit))
  obtain ⟨-, xs, hphase, -, -⟩ := hin.phase
  obtain ⟨q, hrep, -⟩ := hin.accounted
  exact ⟨xs, hphase, by rwa [hrep.contents_eq]⟩

/-- A write has appended a byte exactly if one of its steps has. -/
theorem hasWritten_iff (hfree : (((init : Driver β).run ls).procs p).free = true) (buf : List β)
    (limit : ℕ) (hkeep : ∀ l ∈ ls', l.KeepsCall p) :
    (((enter ls p (.write buf limit)).run ls').procs p).HasWritten ↔
      ∃ t, At Driver.step (enter ls p (.write buf limit)) ls' t (.sched p) ∧
        ((t.procs p).step t.ring).appended ≠ [] := by
  have hown : ∀ {r : RingBuffer β} {q P} {xs : List β}, r.Represents q →
      WritePhase buf limit P xs →
        ((P.step r).proc.HasWritten ↔ P.HasWritten ∨ (P.step r).appended ≠ []) := by
    intro r q P xs hrep h
    rw [(h.step hrep).hasWritten_iff, h.hasWritten_iff, ne_eq, List.append_eq_nil_iff, not_and_or]
  have hstart : ¬ ((enter ls p (.write buf limit)).procs p).HasWritten := by
    rw [(enter_of_free hfree).1]
    exact fun h => h rfl
  exact (writePhases buf limit).mark (fun hrep h => hown hrep h)
    (fun h hn => by rw [h.eq_of_nudge hn]) hkeep (CallInvariant.enter hfree (.start buf limit)) hstart

/-- A write appends exactly what it reports. Each of its steps adds to the contents of the ring what the
record of appended bytes notes for it. The write returns, and all that it has appended is a first part
of its source. If it returns a positive number, that is the length of this part; otherwise the part is
empty, and no step of the write has changed the ring. If no other process moves in the meantime, the
length is the least of those of the source and of its readable part and the number of free slots. -/
theorem write_appends (hfree : (((init : Driver β).run ls).procs p).free = true) (buf : List β)
    (limit : ℕ) (hkeep : ∀ l ∈ ls', l.KeepsCall p)
    (hsteps : 6 * buf.length + 4 ≤ ls'.countP (Label.isSched p)) :
    ∃ ret it xs,
      ((enter ls p (.write buf limit)).run ls').procs p = .returned (.write ret it) ∧
      ((enter ls p (.write buf limit)).run ls').appendedBy p =
        ((init : Driver β).run ls).appendedBy p ++ xs ∧
      (∀ t, At Driver.step (enter ls p (.write buf limit)) ls' t (.sched p) →
        (t.step (.sched p)).ring.contents =
            t.ring.contents ++ ((t.procs p).step t.ring).appended ∧
          (t.step (.sched p)).appendedBy p =
            t.appendedBy p ++ ((t.procs p).step t.ring).appended) ∧
      xs = buf.take xs.length ∧ (0 < ret → ret = xs.length) ∧
      (ret ≤ 0 → xs = [] ∧ ∀ t, At Driver.step (enter ls p (.write buf limit)) ls' t (.sched p) →
        (t.step (.sched p)).ring = t.ring) ∧
      ((∀ l ∈ ls', l.Solo p) →
        xs.length = min buf.length (min limit ((init : Driver β).run ls).ring.freeSlots) ∧
          ((enter ls p (.write buf limit)).run ls').ring.contents =
            ((init : Driver β).run ls).ring.contents ++ xs) := by
  obtain ⟨ret, it, hret⟩ := write_returns hfree buf limit hkeep hsteps
  obtain ⟨-, xs, hphase, -, happ⟩ :=
    ((writePhases buf limit).run hfree (.start buf limit) hkeep).phase
  have hend := hphase
  rw [hret] at hend
  obtain ⟨htake, hlen⟩ := hend.result
  have hnil : ret ≤ 0 → xs = [] := by
    intro hle
    rw [htake, Int.toNat_of_nonpos hle, List.take_zero]
  refine ⟨ret, it, xs, hret, happ, ?_, by rw [hlen, ← htake], by omega,
    fun hle => ⟨hnil hle, ?_⟩, fun hsolo => ?_⟩
  · intro t hat
    obtain ⟨ys, hphase_t, hrep⟩ := write_at hfree hkeep hat
    obtain ⟨q', hrep', hq'⟩ := Proc.step_represents hrep (t.procs p)
    rw [hphase_t.step_taken, List.nil_append] at hq'
    have hcontents : (t.step (.sched p)).ring.contents = q' := hrep'.contents_eq
    rw [hcontents, hq', Driver.step, sched_appendedBy, if_pos rfl]
    exact ⟨rfl, rfl⟩
  · intro t hat
    obtain ⟨ys, hphase_t, -⟩ := write_at hfree hkeep hat
    have hring : (t.step (.sched p)).ring = ((t.procs p).step t.ring).ring := rfl
    rw [hring]
    refine hphase_t.step_ring t.ring ?_
    -- A step that appended something would have left its mark.
    by_contra hne
    have hwritten := (hasWritten_iff hfree buf limit hkeep).mpr ⟨t, hat, hne⟩
    exact hphase.hasWritten_iff.mp hwritten (hnil hle)
  · obtain ⟨hproc, hring, -, -⟩ := enter_of_free (c := .write buf limit) hfree
    have hstart : SoloWrite buf limit ((init : Driver β).run ls).ring.contents
        (enter ls p (.write buf limit)).ring ((enter ls p (.write buf limit)).procs p) [] := by
      rw [hproc, hring]
      exact .start (run_represents ls) buf limit
    obtain ⟨ys, hend'⟩ := (soloWrites buf limit _).run hsolo ⟨[], hstart⟩
    have hys : ys = xs := by
      have hphase' := hend'.phase
      rw [hret] at hphase'
      rw [htake, hphase'.result.1]
    rw [hys] at hend'
    rw [(run_represents ls).freeSlots_eq]
    exact ⟨hend'.complete (by rw [hret]; rfl), hend'.represents.contents_eq⟩

/-- Process 1 has copied both readable bytes, process 2 takes the first one, and process 1 goes on. -/
def readBetween : List (Label UInt8) :=
  [.sched 1, .sched 1, .sched 1, .sched 1, .call 2 (.read ⟨false, false, false⟩ [0] 1)] ++
    List.replicate 14 (.sched 2) ++ List.replicate 22 (.sched 1)

/-- The theorem for a write of three bytes, two of them readable: in that run it returns 2 and has
appended both, and alone it leaves both in the ring. -/
theorem write_appends_two_of_three :
    (∃ it, ((enter [] 1 (.write [(7 : UInt8), 8, 9] 2)).run readBetween).procs 1 =
        .returned (.write 2 it)) ∧
      ((enter [] 1 (.write [(7 : UInt8), 8, 9] 2)).run readBetween).appendedBy 1 = [7, 8] ∧
      ((enter [] 1 (.write [(7 : UInt8), 8, 9] 2)).run
        (List.replicate 22 (.sched 1))).ring.contents = [7, 8] := by
  have hfree : (((init : Driver UInt8).run []).procs 1).free = true := rfl
  have hkeep : ∀ l ∈ readBetween, l.KeepsCall 1 := by simp [readBetween, Label.KeepsCall]
  have hsolo : ∀ l ∈ List.replicate 22 (.sched 1), (l : Label UInt8).Solo 1 := by
    simp [Label.Solo]
  refine ⟨⟨_, rfl⟩, ?_, ?_⟩
  · obtain ⟨ret, it, xs, hret, happ, -, htake, hpos, -, -⟩ :=
      write_appends hfree [7, 8, 9] 2 hkeep (by decide)
    have hproc : ((enter [] 1 (.write [(7 : UInt8), 8, 9] 2)).run readBetween).procs 1 =
        .returned (.write 2 ⟨[7, 8, 9], 2, 2, true⟩) := rfl
    rw [hproc] at hret
    obtain rfl : 2 = ret := by cases hret; rfl
    have hlen : xs.length = 2 := by omega
    rw [hlen] at htake
    rw [happ, htake]
    rfl
  · obtain ⟨ret, it, xs, -, -, -, htake, -, -, hall⟩ :=
      write_appends hfree [7, 8, 9] 2 (fun l hl => (hsolo l hl).keepsCall) (by decide)
    obtain ⟨hlen, hcontents⟩ := hall hsolo
    have hinit : (init : Driver UInt8).ring.contents = [] := represents_init.contents_eq
    have hfreeSlots := (run_represents ([] : List (Label UInt8))).freeSlots_eq
    simp only [run_nil, hinit, List.length_nil] at hlen hcontents hfreeSlots
    rw [hfreeSlots] at hlen
    rw [hcontents, htake, hlen]
    rfl

end Driver

end QrngDevice
