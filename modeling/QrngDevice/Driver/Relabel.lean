import QrngDevice.Driver.Process

/-!
# The driver does not look at bytes

No function of the driver depends on the value of a byte. So a function `f` on bytes that keeps zero
commutes with all of them, from the iterators up to the steps of the driver (`Driver.map_step`): a step
on labelled bytes becomes the step on bytes when the labels are taken off.
-/

namespace QrngDevice

open RingBuffer

variable {α β : Type*} (f : α → β)

/-! ## Iterators and the ring -/

/-- The iterator over the images of its bytes. -/
abbrev IovIter.map (it : IovIter α) : IovIter β := ⟨it.buf.map f, it.off, it.limit, it.faulted⟩

@[simp] theorem iovIterCount_map (it : IovIter α) : iovIterCount (it.map f) = iovIterCount it := by
  simp [iovIterCount]

/-- `copy_to_iter` of the image of a byte. -/
theorem copyToIter_map (b : α) (it : IovIter α) :
    copyToIter (f b) (it.map f) = ((copyToIter b it).1, (copyToIter b it).2.map f) := by
  unfold copyToIter
  simp only [IovIter.map, List.length_map]
  split_ifs
  · simp only [List.map_set]
  · rfl

/-- `copy_from_iter` of the image of a byte. -/
theorem copyFromIter_map (it : IovIter α) :
    copyFromIter (it.map f) = ((copyFromIter it).1.map f, (copyFromIter it).2.map f) := by
  unfold copyFromIter
  simp only [IovIter.map, List.getElem?_map]
  cases it.buf[it.off]? with
  | none => rfl
  | some b =>
    simp only [Option.map_some]
    split_ifs <;> rfl

namespace RingBuffer

/-- The ring of the images of its bytes. -/
abbrev map (r : RingBuffer α) : RingBuffer β :=
  ⟨f ∘ r.qrngBuffer, r.qrngBuffReady, r.qrngBuffReadIt, r.qrngBuffWriteIt⟩

@[simp] theorem map_readReady (r : RingBuffer α) : (r.map f).readReady = r.readReady := rfl

@[simp] theorem map_writeReady (r : RingBuffer α) : (r.map f).writeReady = r.writeReady := rfl

/-- One byte stored. -/
theorem map_put (r : RingBuffer α) (b : α) : (r.put b).map f = (r.map f).put (f b) := by
  simp only [put, map, Function.comp_update]

/-- What a write section works on, for the images of the bytes. -/
abbrev WriteState.map (s : WriteState α) : WriteState β := ⟨s.ret, s.ring.map f, s.iter.map f⟩

/-- The loop of a write section. -/
theorem writeLoop_map (rounds : ℕ) (s : WriteState α) :
    writeLoop rounds (s.map f) = (writeLoop rounds s).map f := by
  induction rounds generalizing s with
  | zero => rfl
  | succ rounds ih =>
    rw [writeLoop, writeLoop, map_writeReady, iovIterCount_map, copyFromIter_map]
    split_ifs
    · rcases copyFromIter s.iter with ⟨_ | b, it⟩
      · rfl
      · simp only [Option.map_some]
        rw [← map_put]
        exact ih ⟨s.ret + 1, s.ring.put b, it⟩
    · rfl

/-- A write section. -/
theorem writeRandomBytesQrng_map (r : RingBuffer α) (it : IovIter α) :
    (r.map f).writeRandomBytesQrng (it.map f) = (r.writeRandomBytesQrng it).map f := by
  unfold writeRandomBytesQrng
  rw [iovIterCount_map, map_writeReady]
  split_ifs
  · exact writeLoop_map f _ ⟨0, r, it⟩
  · rfl

variable [Zero α] [Zero β] {f} (hf : f 0 = 0)

include hf

/-- The ring of zeros. -/
theorem map_init : (init : RingBuffer α).map f = init := by
  simp only [map, init, Function.comp_def, hf]

/-- A take. -/
theorem getRandomByte_map (r : RingBuffer α) :
    (r.map f).getRandomByte = r.getRandomByte.map fun br => (f br.1, br.2.map f) := by
  unfold getRandomByte
  rw [map_readReady]
  split_ifs
  · simp [map, Function.comp_update, hf]
  · rfl

end RingBuffer

/-! ## Processes -/

/-- The call with the images of its bytes. -/
def Call.map : Call α → Call β
  | .read kiocb buf limit => .read kiocb (buf.map f) limit
  | .write buf limit => .write (buf.map f) limit
  | .poll events => .poll events

/-- The result with the images of its bytes. -/
def Result.map : Result α → Result β
  | .read ret it => .read ret (it.map f)
  | .write ret it => .write ret (it.map f)
  | .poll revents => .poll revents

/-- The variables of a read, for the images of the bytes. -/
abbrev ReadCall.map (c : ReadCall α) : ReadCall β := ⟨c.nonblocking, c.iter.map f, c.ret, c.sig⟩

/-- The point of a read, with the image of the byte in hand. -/
def ReadPc.map : ReadPc α → ReadPc β
  | .testCursor => .testCursor
  | .testFlag k => .testFlag k
  | .take => .take
  | .wakePoll b => .wakePoll (f b)
  | .wakeCursor b => .wakeCursor (f b)
  | .wakeFlag b k => .wakeFlag (f b) k
  | .wakeRead b => .wakeRead (f b)
  | .copy b => .copy (f b)
  | .waitJoin => .waitJoin
  | .waitCursor woken => .waitCursor woken
  | .waitFlag woken k => .waitFlag woken k
  | .asleep => .asleep

/-- The variables of a write, for the images of the bytes. -/
abbrev WriteCall.map (c : WriteCall α) : WriteCall β := ⟨c.iter.map f, c.ret⟩

/-- The process with the images of its bytes. -/
def Proc.map : Proc α → Proc β
  | .idle => .idle
  | .read c pc => .read (c.map f) (pc.map f)
  | .write c pc => .write (c.map f) pc
  | .poll c pc => .poll c pc
  | .returned res => .returned (res.map f)

/-- The outcome with the images of its bytes. -/
def Outcome.map (o : Outcome α) : Outcome β where
  ring := o.ring.map f
  proc := o.proc.map f
  wakesRead := o.wakesRead
  wakesPoll := o.wakesPoll
  taken := o.taken.map f
  appended := o.appended.map f
  delivered := o.delivered.map f

/-- The head of the loop of a read. -/
theorem ReadCall.map_loop (c : ReadCall α) : (c.map f).loop = c.loop.map f := by
  simp only [ReadCall.loop, ReadCall.map, iovIterCount_map]
  split_ifs <;> rfl

/-- The end of a write. -/
theorem WriteCall.map_finish (c : WriteCall α) : (c.map f).finish = c.finish.map f := rfl

/-- The head of the loop of a write. -/
theorem WriteCall.map_loop (c : WriteCall α) : (c.map f).loop = c.loop.map f := by
  simp only [WriteCall.loop, WriteCall.map, iovIterCount_map]
  split_ifs <;> rfl

/-- A step of a write. -/
theorem WriteCall.map_step (c : WriteCall α) (r : RingBuffer α) (pc : WritePc) :
    (c.map f).step (r.map f) pc = (c.step r pc).map f := by
  cases pc with
  | entry =>
    simp only [WriteCall.step, map_loop, iovIterCount_map]
    split_ifs <;> rfl
  | testCursor => rfl
  | testFlag k =>
    simp only [WriteCall.step, map_finish]
    split_ifs <;> rfl
  | append =>
    have hsection : (r.map f).writeRandomBytesQrng (c.map f).iter =
        (r.writeRandomBytesQrng c.iter).map f := writeRandomBytesQrng_map f r c.iter
    simp only [WriteCall.step, hsection, WriteState.map]
    split_ifs <;> simp [Outcome.map, Proc.map, WriteCall.map, WriteCall.finish, Result.map,
      IovIter.map, List.map_take, List.map_drop]
  | wakeRead copied => rfl
  | wakePoll copied =>
    simp only [WriteCall.step, Outcome.map, ← map_loop]
    rfl

/-- A step of a poll. -/
theorem PollCall.step_map (c : PollCall) (r : RingBuffer α) (pc : PollPc) :
    (c.step (r.map f) pc : Outcome β) = (c.step r pc).map f := by
  cases pc with
  | inFlag k =>
    simp only [PollCall.step]
    split_ifs <;> rfl
  | _ => rfl

/-- A wake-up. -/
theorem Proc.map_woken (wr wp : Bool) (P : Proc α) : (P.map f).woken wr wp = (P.woken wr wp).map f := by
  rcases P with _ | ⟨c, pc⟩ | ⟨c, pc⟩ | ⟨c, pc⟩ | res
  · cases wr <;> cases wp <;> rfl
  · cases wr <;> cases wp <;> cases pc <;> rfl
  · cases wr <;> cases wp <;> rfl
  · cases wr <;> cases wp <;> cases pc <;> rfl
  · cases wr <;> cases wp <;> rfl

/-- A signal. -/
theorem Proc.map_signalled (P : Proc α) : (P.map f).signalled = P.signalled.map f := by
  rcases P with _ | ⟨c, pc⟩ | ⟨c, pc⟩ | ⟨c, pc⟩ | res
  · rfl
  · cases pc <;> rfl
  · rfl
  · cases pc <;> rfl
  · rfl

@[simp] theorem Proc.map_free (P : Proc α) : (P.map f).free = P.free := by
  cases P <;> rfl

/-- The start of a call. -/
theorem Proc.start_map (c : Call α) : Proc.start (c.map f) = (Proc.start c).map f := by
  cases c <;> rfl

/-! ## The driver -/

/-- The label with the images of its bytes. -/
def Label.map : Label α → Label β
  | .call p c => .call p (c.map f)
  | .sched p => .sched p
  | .signal p => .signal p

/-- The driver with the images of its bytes. -/
def Driver.map (σ : Driver α) : Driver β where
  ring := σ.ring.map f
  procs := fun p => (σ.procs p).map f
  appended := σ.appended.map (Prod.map id f)
  taken := σ.taken.map (Prod.map id f)
  delivered := σ.delivered.map (Prod.map id f)

/-- The update of a process. -/
theorem Driver.map_update (σ : Driver α) (p : Pid) (P : Proc α) :
    ({ σ with procs := Function.update σ.procs p P } : Driver α).map f =
      { σ.map f with procs := Function.update (σ.map f).procs p (P.map f) } := by
  have hprocs : (fun q => (Function.update σ.procs p P q).map f) =
      Function.update (fun q => (σ.procs q).map f) p (P.map f) := by
    funext q
    by_cases hq : q = p
    · subst hq
      simp
    · simp [hq]
  simp only [Driver.map, hprocs]

variable [Zero α] [Zero β] {f} (hf : f 0 = 0)

include hf

/-- A step of a read. -/
theorem ReadCall.map_step (c : ReadCall α) (r : RingBuffer α) (pc : ReadPc α) :
    (c.map f).step (r.map f) (pc.map f) = (c.step r pc).map f := by
  cases pc with
  | testFlag k =>
    simp only [ReadPc.map, ReadCall.step, map_loop, iovIterCount_map]
    split_ifs <;> rfl
  | take =>
    simp only [ReadPc.map, ReadCall.step, getRandomByte_map hf]
    cases r.getRandomByte with
    | none =>
      simp only [Option.map_none, ReadCall.map]
      split_ifs <;> rfl
    | some br => rfl
  | wakeFlag b k =>
    simp only [ReadPc.map, ReadCall.step]
    split_ifs <;> rfl
  | copy b =>
    -- The count that `copy_to_iter` returns does not depend on the byte.
    have hcopy : copyToIter (f b) (c.map f).iter =
        ((copyToIter b c.iter).1, (copyToIter b c.iter).2.map f) := copyToIter_map f b c.iter
    simp only [ReadPc.map, ReadCall.step, hcopy, Outcome.map, ← map_loop]
    congr 1
    split_ifs <;> rfl
  | waitFlag woken k =>
    simp only [ReadPc.map, ReadCall.step, map_loop]
    simp only [ReadCall.map]
    split_ifs <;> rfl
  | _ => rfl

/-- A step of a process. -/
theorem Proc.map_step (r : RingBuffer α) (P : Proc α) :
    (P.map f).step (r.map f) = (P.step r).map f := by
  rcases P with _ | ⟨c, pc⟩ | ⟨c, pc⟩ | ⟨c, pc⟩ | res
  · rfl
  · exact c.map_step hf r pc
  · exact c.map_step f r pc
  · exact c.step_map f r pc
  · rfl

namespace Driver

/-- The driver when the module is loaded. -/
theorem map_init : (init : Driver α).map f = init := by
  simp only [map, init, RingBuffer.map_init hf, Proc.map, List.map_nil]

/-- A step of a process, for the whole driver. -/
theorem map_sched (σ : Driver α) (p : Pid) : (σ.map f).sched p = (σ.sched p).map f := by
  have hstep : ((σ.map f).procs p).step (σ.map f).ring = ((σ.procs p).step σ.ring).map f :=
    Proc.map_step hf σ.ring (σ.procs p)
  have hprocs : ∀ q, (if q = p then (((σ.procs p).step σ.ring).map f).proc
      else ((σ.procs q).map f).woken ((σ.procs p).step σ.ring).wakesRead
        ((σ.procs p).step σ.ring).wakesPoll) =
      (if q = p then ((σ.procs p).step σ.ring).proc
        else (σ.procs q).woken ((σ.procs p).step σ.ring).wakesRead
          ((σ.procs p).step σ.ring).wakesPoll).map f := by
    intro q
    split_ifs
    · rfl
    · exact Proc.map_woken f _ _ _
  simp only [sched, hstep]
  simp only [map, Outcome.map, List.map_append, List.map_map, Function.comp_def, Prod.map_apply, id]
  simp only [Outcome.map] at hprocs
  simp only [hprocs]

/-- A label. -/
theorem map_step (σ : Driver α) (l : Label α) : (σ.map f).step (l.map f) = (σ.step l).map f := by
  cases l with
  | sched p => exact map_sched hf σ p
  | signal p =>
    simp only [step, Label.map, map_update, ← Proc.map_signalled]
    rfl
  | call p c =>
    -- Whether a process is free does not depend on bytes either.
    have hfree : ((σ.map f).procs p).free = (σ.procs p).free := Proc.map_free f _
    simp only [step, Label.map, hfree]
    split_ifs
    · rw [map_update, Proc.start_map]
    · rfl

end Driver

end QrngDevice
