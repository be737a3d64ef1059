import QrngDevice.Driver.Relabel
import QrngDevice.Service.System

/-!
# The service does not look at bytes

What `Driver/Relabel.lean` says of the driver holds of the service and of the whole system. A function
`f` on bytes that keeps zero commutes with every run (`QrngSystem.map_run`), where the generator on
one side fetches the images of the bytes of the other (`RNG.Maps`).
-/

namespace QrngDevice

variable {α β : Type} (f : α → β)

/-! ## The generator -/

/-- A load from the images of the elements. -/
theorem load_map (arr : List α) (i : ℕ) : load (arr.map f) i = (load arr i).map f := by
  unfold load
  rw [List.getElem?_map]
  cases arr[i]? <;> rfl

/-- A store to the images of the elements. -/
theorem store_map (arr : List α) (i : ℕ) (b : α) :
    store (arr.map f) i (f b) = (store arr i b).map (List.map f) := by
  unfold store
  rw [List.length_map]
  split_ifs
  · simp only [Except.map, List.map_set]
  · rfl

/-- The generator `rng'` fetches the images of the bytes that `rng` fetches. -/
def RNG.Maps {G : Type} (rng : RNG α G) (rng' : RNG β G) : Prop :=
  ∀ g arr cnt, rng'.fetchBytes g (arr.map f) cnt =
    (rng.fetchBytes g arr cnt).map fun ga => (ga.1, ga.2.map f)

namespace PRNG

/-- The variables of `fetch_bytes`, for the images of the bytes. -/
abbrev Fill.map (s : Fill α) : Fill β := ⟨s.arr.map f, s.cnt, s.stored⟩

/-- The inner loop of `fetch_bytes`. -/
theorem copyLoop_map (tmp : List α) (i : ℕ) (s : Fill α) :
    copyLoop (tmp.map f) i (s.map f) = (copyLoop tmp i s).map (Fill.map f) := by
  induction i generalizing s with
  | zero => rfl
  | succ i ih =>
    rw [copyLoop, copyLoop]
    split_ifs
    · simp only [load_map]
      cases load tmp i with
      | error stop => rfl
      | ok b =>
        simp only [Except.map, bind, Except.bind, store_map]
        cases store s.arr (s.cnt - 1) b with
        | error stop => rfl
        | ok arr => exact ih ⟨arr, s.cnt - 1, s.stored ++ [s.cnt - 1]⟩
    · rfl

/-- The outer loop of `fetch_bytes`. -/
theorem fetchLoop_map (out : ℕ → Fin 4 → α) (rounds n : ℕ) (s : Fill α) :
    fetchLoop (fun n i => f (out n i)) rounds n (s.map f) =
      (fetchLoop out rounds n s).map fun ns => (ns.1, ns.2.map f) := by
  induction rounds generalizing n s with
  | zero => rfl
  | succ rounds ih =>
    have htmp : List.ofFn (fun i => f (out n i)) = (List.ofFn (out n)).map f := List.map_ofFn.symm
    rw [fetchLoop, fetchLoop]
    split_ifs
    · simp only [htmp, copyLoop_map]
      cases copyLoop (List.ofFn (out n)) 4 s with
      | error stop => rfl
      | ok s' => exact ih (n + 1) s'
    · rfl

/-- The images of the bytes of an output are an output. -/
theorem maps_rng (out : ℕ → Fin 4 → α) : (rng out).Maps f (rng fun n i => f (out n i)) := by
  intro n arr cnt
  have hloop := fetchLoop_map f out cnt n ⟨arr, cnt, []⟩
  simp only [rng, hloop, bind, Except.bind, Except.map]
  cases fetchLoop out cnt n ⟨arr, cnt, []⟩ <;> rfl

end PRNG

/-! ## The service -/

namespace Service

variable {G : Type}

/-- The service with the images of its bytes. -/
abbrev map (s : Service α G) : Service β G where
  rng := s.rng
  qrngBuff := s.qrngBuff.map f
  qrngBuffReadIt := s.qrngBuffReadIt
  qrngWriteArr := s.qrngWriteArr.map f
  qrngWriteArrRenew := s.qrngWriteArrRenew
  fetched := s.fetched.map f
  accepted := s.accepted.map f
  overwritten := s.overwritten.map f

variable {f} {rng : RNG α G} {rng' : RNG β G}

/-- The fetch at the head of a round. -/
theorem refill_map (hrng : rng.Maps f rng') (s : Service α G) :
    (s.map f).refill rng' = (s.refill rng).map (map f) := by
  unfold refill
  split_ifs
  · simp only [hrng s.rng s.qrngBuff REQUEST_SIZE]
    cases rng.fetchBytes s.rng s.qrngBuff REQUEST_SIZE with
    | error stop => rfl
    | ok ga => simp [Except.map, bind, Except.bind, pure, Except.pure, map, List.map_drop]
  · rfl

/-- The rest of a round. -/
theorem move_map (f : α → β) (it : ℕ) (s : Service α G) :
    (s.map f).move it = (s.move it).map (map f) := by
  unfold move
  simp only [load_map]
  cases load s.qrngBuff s.qrngBuffReadIt with
  | error stop => rfl
  | ok b =>
    simp only [Except.map, bind, Except.bind, store_map]
    cases store s.qrngWriteArr it b <;> rfl

/-- The loop of `write_random_bytes`. -/
theorem renewLoop_map (hrng : rng.Maps f rng') (rounds it : ℕ) (s : Service α G) :
    (s.map f).renewLoop rng' rounds it = (s.renewLoop rng rounds it).map (map f) := by
  induction rounds generalizing it s with
  | zero => rfl
  | succ rounds ih =>
    rw [renewLoop, renewLoop]
    split_ifs
    · simp only [refill_map hrng]
      cases s.refill rng with
      | error stop => rfl
      | ok s₁ =>
        simp only [Except.map, bind, Except.bind, move_map]
        cases s₁.move it with
        | error stop => rfl
        | ok s₂ => exact ih (it + 1) s₂
    · rfl

/-- `write_random_bytes` after the call of `write`. -/
theorem finish_map (f : α → β) (wres : ℤ) (s : Service α G) :
    (s.map f).finish wres = (s.finish wres).map (map f) := by
  unfold finish
  split_ifs
  · rfl
  · simp [Except.map, pure, Except.pure, map, List.map_take]

end Service

/-! ## The system -/

/-- The event with the images of its bytes. -/
def Event.map : Event α → Event β
  | .main => .main
  | .read p kiocb buf limit => .read p kiocb (buf.map f) limit
  | .poll p events => .poll p events
  | .sched p => .sched p
  | .signal p => .signal p

namespace QrngSystem

variable {G : Type}

/-- The system with the images of its bytes. -/
abbrev map (σ : QrngSystem α G) : QrngSystem β G := ⟨σ.driver.map f, σ.service.map f, σ.pc⟩

/-- What an event does to the driver. -/
theorem label_map (e : Event α) : label (e.map f) = (label e).map (Label.map f) := by
  cases e <;> rfl

variable [Zero α] [Zero β] {f} {rng : RNG α G} {rng' : RNG β G} (hf : f 0 = 0)

include hf

/-- The system at the start. -/
theorem map_init (g : G) : (init g : QrngSystem α G).map f = init g := by
  simp only [map, init, Driver.map_init hf, Service.map, Service.init, List.map_replicate, hf,
    List.map_nil]

/-- A step of the service. -/
theorem main_map (hrng : rng.Maps f rng') (σ : QrngSystem α G) :
    (σ.map f).main rng' = (σ.main rng).map f := by
  obtain ⟨driver, service, pc⟩ := σ
  cases pc with
  | poll => simp only [main, map, ← Driver.map_step hf, Label.map, Call.map]
  | polled =>
    simp only [main, map, Driver.map]
    -- Only the events that a poll reports matter, not bytes.
    rcases driver.procs SERVICE with _ | _ | _ | _ | (_ | _ | _) <;> rfl
  | renew =>
    simp only [main, map, Service.prepare, Service.renewLoop_map hrng]
    cases service.renewLoop rng service.qrngWriteArrRenew 0 <;> rfl
  | write => simp only [main, map, ← Driver.map_step hf, Label.map, Call.map]
  | written =>
    simp only [main, map, Driver.map]
    rcases driver.procs SERVICE with _ | _ | _ | _ | (_ | ⟨ret, it⟩ | _)
    · rfl
    · rfl
    · rfl
    · rfl
    · rfl
    · -- The service accepts as many bytes on both sides.
      simp only [Proc.map, Result.map, Service.finish_map]
      cases service.finish ret <;> rfl
    · rfl
  | stopped stop => rfl

/-- An event. -/
theorem step_map (hrng : rng.Maps f rng') (σ : QrngSystem α G) (e : Event α) :
    (σ.map f).step rng' (e.map f) = (σ.step rng e).map f := by
  unfold step
  rw [label_map]
  cases label e with
  | none => exact main_map hf hrng σ
  | some l =>
    simp only [Option.map_some, map]
    rw [Driver.map_step hf]

/-- A run. -/
theorem map_run (hrng : rng.Maps f rng') (σ : QrngSystem α G) (es : List (Event α)) :
    (σ.map f).run rng' (es.map (Event.map f)) = (σ.run rng es).map f :=
  Runs.run_map (step_map hf hrng) σ es

end QrngSystem

end QrngDevice
