import QrngDevice.Lib.Window
import QrngDevice.Service.PollPromises

/-!
# Which bytes the service serves

The fetches of the service yield a stream, one block of 516 bytes after the other. For `PRNG`, it has the
words of each block in reverse order (`PRNG.stream`). The service offers this stream to the device
through `qrng_write_arr`, as a window of 256 places (`Lib/Window.lean`): what a `write` takes, the next
call of `write_random_bytes` renews. So the results of the writes alone fix the bytes that go to the
device (`accepted_stream`), and those that the readers take from it (`taken_stream`), and their order.
-/

namespace QrngDevice

open Runs

/-! ## Streams of generators -/

/-- The fetches of `cnt` bytes yield the stream `F`, one block after the other. In the state `state m`,
there have been `m` fetches. -/
def RNG.Yields {β G : Type*} (rng : RNG β G) (F : ℕ → β) (cnt : ℕ) (state : ℕ → G) : Prop :=
  ∀ m arr, arr.length = cnt → rng.fetchBytes (state m) arr cnt =
    .ok (state (m + 1), (List.range' (m * cnt) cnt).map F)

/-- The stream that `PRNG` yields. Each block takes 129 words, and begins with the last of them. -/
def PRNG.stream {β : Type*} (out : ℕ → Fin 4 → β) (i : ℕ) : β :=
  out (129 * (i / REQUEST_SIZE) + (128 - i % REQUEST_SIZE / 4)) ⟨i % 4, Nat.mod_lt _ (by decide)⟩

/-- The number of words drawn in `m` fetches. -/
def PRNG.words (m : ℕ) : ℕ := 129 * m

/-- `PRNG` yields this stream. -/
theorem PRNG.yields {β : Type*} (out : ℕ → Fin 4 → β) :
    (rng out).Yields (stream out) REQUEST_SIZE words := by
  intro m arr hlen
  obtain ⟨s, hs, hlen', hnew, -, -⟩ := fetchLoop_spec out REQUEST_SIZE (words m)
    ⟨arr, REQUEST_SIZE, []⟩ le_rfl hlen.ge
  simp only at hlen' hnew hs
  simp only [rng, hs, bind, Except.bind, pure, Except.pure, Except.ok.injEq, Prod.mk.injEq]
  refine ⟨by simp only [words, REQUEST_SIZE]; omega, List.ext_getElem? fun x => ?_⟩
  rcases Nat.lt_or_ge x REQUEST_SIZE with hx | hx
  · obtain ⟨i, hi, heq⟩ := origin_of_filled hnew hx
    rw [heq, List.getElem?_map, List.getElem?_range' hx]
    -- Place `x` of a block holds byte `x % 4` of a word.
    have hword : words m + (REQUEST_SIZE - 1 - x) / 4 =
        129 * ((m * REQUEST_SIZE + 1 * x) / REQUEST_SIZE) +
          (128 - (m * REQUEST_SIZE + 1 * x) % REQUEST_SIZE / 4) := by
      simp only [words, REQUEST_SIZE] at hx ⊢
      omega
    have hbyte : i = ⟨(m * REQUEST_SIZE + 1 * x) % 4, Nat.mod_lt _ (by decide)⟩ :=
      Fin.ext (by simp only [REQUEST_SIZE] at hx hi ⊢; omega)
    simp only [Option.map_some, stream, hword, hbyte]
  · rw [List.getElem?_eq_none (by omega), List.getElem?_eq_none (by simpa using hx)]

namespace Service

variable {β G : Type} {rng : RNG β G} {F : ℕ → β} {state : ℕ → G} {w : Window} {it : ℕ}
  {s : Service β G}

/-! ## The service as a window -/

/-- After `n` bytes of the stream have been moved, the rest of those fetched wait in `qrng_buff`. -/
structure Buffered (F : ℕ → β) (state : ℕ → G) (n : ℕ) (s : Service β G) : Prop where
  /-- `qrng_buff` has its size. -/
  buff_length : s.qrngBuff.length = REQUEST_SIZE
  /-- `qrng_buff_read_it` is at a place of `qrng_buff`, or at its end. -/
  readIt_le : s.qrngBuffReadIt ≤ REQUEST_SIZE
  /-- The bytes fetched are those moved and those in `qrng_buff`. -/
  source : ∃ m, s.rng = state m ∧ s.fetched = (List.range (m * REQUEST_SIZE)).map F ∧
    n + (REQUEST_SIZE - s.qrngBuffReadIt) = m * REQUEST_SIZE ∧
    s.qrngBuff.drop s.qrngBuffReadIt = (List.range' n (REQUEST_SIZE - s.qrngBuffReadIt)).map F

/-- In the loop of `write_random_bytes`, the places of `qrng_write_arr` before `it` hold the next bytes
of the stream, and those from `qrng_write_arr_renew` on hold what the window `w` has there. -/
structure Streams (F : ℕ → β) (state : ℕ → G) (w : Window) (it : ℕ) (s : Service β G) : Prop where
  /-- The bytes after those moved wait in `qrng_buff`. -/
  buffered : Buffered F state (w.next + it) s
  /-- A byte of `qrng_buff` has been moved, or nothing has been fetched. -/
  readIt_pos : 0 < s.qrngBuffReadIt
  /-- `qrng_write_arr` has its size. -/
  arr_length : s.qrngWriteArr.length = WRITE_SIZE
  /-- `qrng_write_arr_it` does not pass `qrng_write_arr_renew`. -/
  it_le : it ≤ s.qrngWriteArrRenew
  /-- `qrng_write_arr_renew` is at a place of `qrng_write_arr`, or at its end. -/
  renew_le : s.qrngWriteArrRenew ≤ WRITE_SIZE
  /-- The places renewed hold the next bytes of the stream. -/
  renewed : s.qrngWriteArr.take it = (List.range' w.next it).map F
  /-- The places that are not to be renewed hold what they held. -/
  kept : s.qrngWriteArr.drop s.qrngWriteArrRenew = (w.places.drop s.qrngWriteArrRenew).map F

/-- The service starts with an empty window. -/
theorem streams_init [Zero β] (F : ℕ → β) (state : ℕ → G) :
    Streams F state .empty 0 (init (state 0) : Service β G) where
  buffered := ⟨List.length_replicate, le_rfl, 0, rfl, by simp [init], by simp [init, Window.empty],
    by simp [init]⟩
  readIt_pos := by simp [init]
  arr_length := List.length_replicate
  it_le := Nat.zero_le _
  renew_le := le_rfl
  renewed := rfl
  kept := by simp [init, Window.empty]

/-- A fetch, if one is due, leaves the next byte at `qrng_buff_read_it`. -/
theorem Buffered.refill (hrng : rng.Yields F REQUEST_SIZE state) {n : ℕ} (h : Buffered F state n s) :
    ∃ s', s.refill rng = .ok s' ∧ Buffered F state n s' ∧ s'.qrngBuffReadIt < REQUEST_SIZE ∧
      s'.qrngWriteArr = s.qrngWriteArr ∧ s'.qrngWriteArrRenew = s.qrngWriteArrRenew ∧
      s'.accepted = s.accepted := by
  unfold Service.refill
  split_ifs with hdue
  · obtain ⟨m, hstate, hfetched, hcount, -⟩ := h.source
    rw [hdue, Nat.sub_self, Nat.add_zero] at hcount
    simp only [hstate, hrng m s.qrngBuff h.buff_length, bind, Except.bind]
    refine ⟨_, rfl, ⟨by simp, Nat.zero_le _, m + 1, rfl, ?_, ?_, ?_⟩, by simp, rfl, rfl, rfl⟩
    · rw [hfetched, ← List.map_append, Nat.succ_mul, List.range_eq_range', List.range_eq_range',
        ← List.range'_append_1, Nat.zero_add]
    · rw [hcount, Nat.succ_mul, Nat.sub_zero]
    · rw [List.drop_zero, hcount, Nat.sub_zero]
  · have hle := h.readIt_le
    exact ⟨s, rfl, h, by omega, rfl, rfl, rfl⟩

/-- A move puts the next byte at place `it` of `qrng_write_arr`. -/
theorem Buffered.move {n : ℕ} (h : Buffered F state n s) (hread : s.qrngBuffReadIt < REQUEST_SIZE)
    (hstore : it < s.qrngWriteArr.length) :
    ∃ s', s.move it = .ok s' ∧ Buffered F state (n + 1) s' ∧ 0 < s'.qrngBuffReadIt ∧
      s'.qrngWriteArr = s.qrngWriteArr.set it (F n) ∧
      s'.qrngWriteArrRenew = s.qrngWriteArrRenew ∧ s'.accepted = s.accepted := by
  obtain ⟨m, hstate, hfetched, hcount, hdrop⟩ := h.source
  have hread' : s.qrngBuffReadIt < s.qrngBuff.length := by
    rw [h.buff_length]
    exact hread
  have hsplit : REQUEST_SIZE - s.qrngBuffReadIt = REQUEST_SIZE - (s.qrngBuffReadIt + 1) + 1 := by
    omega
  rw [List.drop_eq_getElem_cons hread', hsplit, List.range'_succ, List.map_cons,
    List.cons.injEq] at hdrop
  simp only [Service.move, load_of_getElem? (List.getElem?_eq_getElem hread'), store_of_lt _ hstore,
    bind, Except.bind, hdrop.1]
  refine ⟨_, rfl, ⟨h.buff_length, hread, m, hstate, hfetched, ?_, hdrop.2⟩, Nat.succ_pos _, rfl, rfl, rfl⟩
  simp only
  omega

/-- A round of the loop moves the next byte of the stream into the window. -/
theorem Streams.round (hrng : rng.Yields F REQUEST_SIZE state) (h : Streams F state w it s)
    (hit : it < s.qrngWriteArrRenew) :
    ∃ s₁ s₂, s.refill rng = .ok s₁ ∧ s₁.move it = .ok s₂ ∧ Streams F state w (it + 1) s₂ ∧
      s₂.qrngWriteArrRenew = s.qrngWriteArrRenew ∧ s₂.accepted = s.accepted := by
  have hstore : it < s.qrngWriteArr.length := by
    rw [h.arr_length]
    exact hit.trans_le h.renew_le
  obtain ⟨s₁, hs₁, h₁, hread, harr₁, hrenew₁, hacc₁⟩ := h.buffered.refill hrng
  obtain ⟨s₂, hs₂, h₂, hpos, harr₂, hrenew₂, hacc₂⟩ := h₁.move hread (by rwa [harr₁])
  rw [harr₁] at harr₂
  rw [hrenew₁] at hrenew₂
  refine ⟨s₁, s₂, hs₁, hs₂, ⟨h₂, hpos, ?_, ?_, ?_, ?_, ?_⟩, hrenew₂, hacc₂.trans hacc₁⟩
  · rw [harr₂, List.length_set, h.arr_length]
  · rw [hrenew₂]
    exact hit
  · rw [hrenew₂]
    exact h.renew_le
  · rw [harr₂, List.take_add_one, List.take_set_of_le le_rfl, List.getElem?_set_self hstore, h.renewed,
      List.range'_concat, List.map_append]
    simp
  · rw [harr₂, hrenew₂, List.drop_set_of_lt hit, h.kept]

/-- The loop renews what is to be renewed. -/
theorem Streams.prepare (hrng : rng.Yields F REQUEST_SIZE state) (h : Streams F state w 0 s) :
    ∃ s', s.prepare rng = .ok s' ∧ Streams F state w s'.qrngWriteArrRenew s' ∧
      s'.qrngWriteArrRenew = s.qrngWriteArrRenew ∧ s'.accepted = s.accepted := by
  have hround : ∀ it' s', (Streams F state w it' s' ∧ s'.accepted = s.accepted) →
      it' < s'.qrngWriteArrRenew → ∃ s₁ s₂, s'.refill rng = .ok s₁ ∧ s₁.move it' = .ok s₂ ∧
        (Streams F state w (it' + 1) s₂ ∧ s₂.accepted = s.accepted) ∧
        s₂.qrngWriteArrRenew = s'.qrngWriteArrRenew := by
    rintro it' s' ⟨h', hacc⟩ hlt
    obtain ⟨s₁, s₂, hs₁, hs₂, h₂, hrenew, hacc'⟩ := h'.round hrng hlt
    exact ⟨s₁, s₂, hs₁, hs₂, ⟨h₂, hacc'.trans hacc⟩, hrenew⟩
  obtain ⟨s', hs', ⟨h', hacc⟩, hrenew⟩ := renewLoop_rule
    (J := fun it s' => Streams F state w it s' ∧ s'.accepted = s.accepted) hround s.qrngWriteArrRenew
    ⟨h, rfl⟩ h.it_le le_rfl
  exact ⟨s', hs', by rwa [hrenew], hrenew, hacc⟩

/-- Then `qrng_write_arr` is the window, with the places renewed. -/
theorem Streams.arr_eq (h : Streams F state w s.qrngWriteArrRenew s) :
    s.qrngWriteArr = (w.renew s.qrngWriteArrRenew).places.map F := by
  rw [← List.take_append_drop s.qrngWriteArrRenew s.qrngWriteArr, h.renewed, h.kept,
    Window.places_renew, List.map_append]

/-- What a write takes is to be renewed next. -/
theorem Streams.finish (h : Streams F state w s.qrngWriteArrRenew s) {k : ℕ} (hk : k ≤ WRITE_SIZE) :
    ∃ s', s.finish k = .ok s' ∧ Streams F state (w.renew s.qrngWriteArrRenew) 0 s' ∧
      s'.qrngWriteArrRenew = k ∧
      s'.accepted = s.accepted ++ ((w.renew s.qrngWriteArrRenew).places.take k).map F := by
  have hneg : ¬ (k : ℤ) < 0 := by omega
  refine ⟨_, if_neg hneg, ⟨⟨h.buffered.buff_length, h.buffered.readIt_le, h.buffered.source⟩,
    h.readIt_pos, h.arr_length, Nat.zero_le _, ?_, rfl, ?_⟩, rfl, ?_⟩
  · rwa [Int.toNat_natCast]
  · simp only [Int.toNat_natCast]
    rw [List.map_drop, ← h.arr_eq]
  · simp only [Int.toNat_natCast]
    rw [List.map_take, ← h.arr_eq]

/-- A sequence of calls. -/
theorem Streams.calls (hrng : rng.Yields F REQUEST_SIZE state) {ks : List ℕ}
    (hks : ∀ k ∈ ks, k ≤ WRITE_SIZE) (h : Streams F state w 0 s) :
    ∃ s' w', s.calls rng (ks.map (↑)) = .ok s' ∧ Streams F state w' 0 s' ∧
      w'.renew s'.qrngWriteArrRenew = run Window.renew (w.renew s.qrngWriteArrRenew) ks ∧
      s'.accepted = s.accepted ++ ((w.renew s.qrngWriteArrRenew).served ks).map F := by
  induction ks generalizing w s with
  | nil => exact ⟨s, w, rfl, h, rfl, by simp [Window.served]⟩
  | cons k ks ih =>
    obtain ⟨hk, hks⟩ := List.forall_mem_cons.mp hks
    obtain ⟨s₁, hs₁, h₁, hrenew₁, hacc₁⟩ := h.prepare hrng
    obtain ⟨s₂, hs₂, h₂, hrenew₂, hacc₂⟩ := h₁.finish hk
    obtain ⟨s₃, w₃, hs₃, h₃, hwindow, hacc₃⟩ := ih hks h₂
    rw [hrenew₁] at h₂ hacc₂ hwindow hacc₃
    rw [hrenew₂] at hwindow hacc₃
    refine ⟨s₃, w₃, ?_, h₃, hwindow, ?_⟩
    · simp only [List.map_cons, Service.calls, writeRandomBytes, hs₁, hs₂, bind, Except.bind]
      exact hs₃
    · rw [hacc₃, hacc₂, hacc₁, Window.served, List.map_append, List.append_assoc]

/-- Fetches are made only when they are due: as many as are needed for the bytes moved. -/
theorem Streams.rng_eq (h : Streams F state w it s) :
    s.rng = state ((w.next + it + (REQUEST_SIZE - 1)) / REQUEST_SIZE) := by
  obtain ⟨m, hstate, -, hcount, -⟩ := h.buffered.source
  have hpos := h.readIt_pos
  rw [hstate]
  refine congrArg state ?_
  simp only [REQUEST_SIZE] at hcount ⊢
  omega

/-- The service is a window onto the stream of its generator. For any sequence of calls of
`write_random_bytes` from the start, where the device takes any `k` in `0..256` of the bytes of each, it
accepts the bytes of the stream in the order in which they leave a window of 256 places. The words drawn
are those of as few blocks as hold the bytes moved so far. -/
theorem accepted_stream [Zero β] (out : ℕ → Fin 4 → β) {ks : List ℕ}
    (hks : ∀ k ∈ ks, k ≤ WRITE_SIZE) :
    ∃ s, (init 0 : Service β ℕ).calls (PRNG.rng out) (ks.map (↑)) = .ok s ∧
      s.accepted = ((Window.full WRITE_SIZE).served ks).map (PRNG.stream out) ∧
      s.qrngWriteArrRenew ≤ WRITE_SIZE ∧
      s.rng = PRNG.words
        ((WRITE_SIZE + ks.sum - s.qrngWriteArrRenew + (REQUEST_SIZE - 1)) / REQUEST_SIZE) := by
  obtain ⟨s, w, hs, hw, hwindow, hacc⟩ :=
    (streams_init (PRNG.stream out) PRNG.words).calls (PRNG.yields out) hks
  refine ⟨s, hs, hacc, hw.renew_le, ?_⟩
  have hnext : w.next + s.qrngWriteArrRenew = WRITE_SIZE + ks.sum := by
    calc w.next + s.qrngWriteArrRenew
        = (w.renew s.qrngWriteArrRenew).next := rfl
      _ = (run Window.renew (.full WRITE_SIZE) ks).next := by rw [hwindow]; rfl
      _ = WRITE_SIZE + ks.sum := by rw [Window.next_run, Window.next_full]
  rw [hw.rng_eq, ← hnext, Nat.add_sub_cancel, Nat.add_zero]

/-- The theorem for three calls. The third write takes the 100 bytes that were renewed after the second
one, before any of those that the second one left. -/
theorem accepted_stream_partial :
    ∃ s, (init 0 : Service ℕ ℕ).calls (PRNG.rng fun n i => 4 * n + i.val)
        (([256, 100, 200] : List ℕ).map (↑)) = .ok s ∧
      s.accepted = ((Window.full WRITE_SIZE).served [256, 100, 200]).map
        (PRNG.stream fun n i => 4 * n + i.val) ∧
      s.qrngWriteArrRenew ≤ WRITE_SIZE ∧
      s.rng = PRNG.words ((WRITE_SIZE + ([256, 100, 200] : List ℕ).sum - s.qrngWriteArrRenew +
        (REQUEST_SIZE - 1)) / REQUEST_SIZE) :=
  accepted_stream _ (by decide)

end Service

/-! ## The results of the writes -/

/-- The places of `qrng_write_arr` that are renewed at a point of the service, of `renew` many. -/
def MainPc.renewed (renew : ℕ) : MainPc → ℕ
  | .write => renew
  | .written => renew
  | _ => 0

namespace QrngSystem

section

variable {β G : Type} [Zero β]

omit [Zero β] in
/-- The result of a write, if the service finds that it has returned and goes on with it. -/
def writeResult (σ : QrngSystem β G) : Event β → List ℕ
  | .main =>
    match σ.pc, σ.driver.procs SERVICE with
    | .written, .returned (.write ret _) => [ret.toNat]
    | _, _ => []
  | _ => []

/-- The results of the writes that the service has gone on with, in order. -/
def writeResults (rng : RNG β G) (σ : QrngSystem β G) : List (Event β) → List ℕ
  | [] => []
  | e :: es => σ.writeResult e ++ (σ.step rng e).writeResults rng es

/-- The results in a run with one more event. -/
theorem writeResults_concat (rng : RNG β G) (σ : QrngSystem β G) (es : List (Event β)) (e : Event β) :
    σ.writeResults rng (es ++ [e]) = σ.writeResults rng es ++ (σ.run rng es).writeResult e := by
  induction es generalizing σ with
  | nil => simp [writeResults]
  | cons e' es ih => simp only [List.cons_append, writeResults, ih, run, run_cons, List.append_assoc]

/-- After writes with the results `ks`, the service offers the window that they leave, and has handed
over what they took. -/
def Streaming (F : ℕ → β) (state : ℕ → G) (ks : List ℕ) (σ : QrngSystem β G) : Prop :=
  ∃ w, σ.service.Streams F state w (σ.pc.renewed σ.service.qrngWriteArrRenew) ∧
    w.renew σ.service.qrngWriteArrRenew = Runs.run Window.renew (.full WRITE_SIZE) ks ∧
    σ.service.accepted = ((Window.full WRITE_SIZE).served ks).map F

variable {rng : RNG β G} {F : ℕ → β} {state : ℕ → G} {ks : List ℕ} {σ : QrngSystem β G}

/-- The system starts so. -/
theorem streaming_init (F : ℕ → β) (state : ℕ → G) :
    Streaming F state [] (init (state 0) : QrngSystem β G) :=
  ⟨.empty, Service.streams_init F state, rfl, rfl⟩

/-- Every event keeps this, as long as the writes return what they may. -/
theorem Streaming.step (hrng : rng.Yields F REQUEST_SIZE state)
    (hret : ∀ ret it, σ.driver.procs SERVICE = .returned (.write ret it) →
      1 ≤ ret ∧ ret ≤ WRITE_SIZE) (h : σ.Streaming F state ks) (e : Event β) :
    (σ.step rng e).Streaming F state (ks ++ σ.writeResult e) := by
  obtain ⟨w, hw, hwindow, hacc⟩ := h
  -- Events that leave the service alone add no result of a write.
  have hsame : ∀ τ : QrngSystem β G, τ.service = σ.service →
      τ.pc.renewed σ.service.qrngWriteArrRenew = σ.pc.renewed σ.service.qrngWriteArrRenew →
      τ.Streaming F state (ks ++ []) := by
    intro τ hservice hpc
    rw [List.append_nil]
    exact ⟨w, by rwa [hservice, hpc], by rwa [hservice], by rwa [hservice]⟩
  cases e with
  | main =>
    obtain ⟨driver, service, pc⟩ := σ
    simp only [QrngSystem.step, label, writeResult]
    cases pc with
    | poll => exact hsame _ rfl rfl
    | polled =>
      refine hsame _ ?_ ?_
      · simp only [main]
        split <;> rfl
      · simp only [main]
        split
        · split_ifs <;> rfl
        · rfl
    | renew =>
      -- The window moves on by what the last write took.
      obtain ⟨s, hs, h', hrenew, hacc'⟩ := hw.prepare hrng
      simp only [main, hs, List.append_nil]
      exact ⟨w, h', by simpa only [hrenew] using hwindow, hacc'.trans hacc⟩
    | write => exact hsame _ rfl rfl
    | written =>
      cases hP : driver.procs SERVICE with
      | returned res =>
        cases res with
        | write ret it =>
          -- The device has served the first `ret` places of the window.
          obtain ⟨hpos, hle⟩ := hret ret it hP
          obtain ⟨s, hs, h', hrenew, hacc'⟩ := hw.finish (k := ret.toNat) (by omega)
          rw [Int.toNat_of_nonneg (by omega)] at hs
          simp only [main, hP, hs]
          refine ⟨_, h', ?_, ?_⟩
          · simp only [hrenew, hwindow, run_append, run_cons, run_nil]
          · simp only at hacc hacc' hwindow
            rw [hacc', hacc, hwindow, Window.served_concat, List.map_append]
        | _ => exact hsame _ (by simp only [main, hP]) (by simp only [main, hP])
      | _ => exact hsame _ (by simp only [main, hP]) (by simp only [main, hP])
    | stopped stop => exact hsame _ rfl rfl
  | _ => exact hsame _ rfl rfl

/-- What the device has taken is what the service counts as accepted and, during a write, the first
places of `qrng_write_arr`. -/
theorem Invariant.offered {drawn : G → Set β} (h : σ.Invariant drawn) :
    ∃ n, σ.driver.appended.map Prod.snd = σ.service.accepted ++ σ.service.qrngWriteArr.take n ∧
      (n = 0 ∨ σ.pc = .written) := by
  rw [h.driver_run.facts.2.2.2]
  have hat := h.at_pc
  -- Outside of a write, what is appended has been accepted.
  have hnone : ∀ it, Offers drawn it σ → ∃ n, σ.driver.appendedBy SERVICE =
      σ.service.accepted ++ σ.service.qrngWriteArr.take n ∧ (n = 0 ∨ σ.pc = .written) :=
    fun it ho => ⟨0, by rw [ho.appended, List.take_zero, List.append_nil], Or.inl rfl⟩
  cases hpc : σ.pc with
  | poll =>
    simp only [AtPc, hpc] at hat hnone
    exact hnone _ hat.2
  | polled =>
    simp only [AtPc, hpc] at hat hnone
    exact hnone _ hat.2
  | renew =>
    simp only [AtPc, hpc] at hat hnone
    exact hnone _ hat.2.2
  | write =>
    simp only [AtPc, hpc] at hat hnone
    exact hnone _ hat.2.2
  | written =>
    simp only [AtPc, hpc] at hat
    -- The write in the driver has appended a first part of `qrng_write_arr`.
    obtain ⟨xs, hphase, hxs⟩ := hat.1.phase
    refine ⟨xs.length, ?_, Or.inr rfl⟩
    rw [hxs, ← List.prefix_iff_eq_take.mp hphase.isPrefix]
  | stopped stop => simp only [AtPc, hpc] at hat

end

/-! ## The whole system -/

variable {β : Type} [Zero β] (out : ℕ → Fin 4 → β)

/-- In every run, the service streams the output of `PRNG`. -/
theorem run_streaming (es : List (Event β)) :
    ((init 0 : QrngSystem β ℕ).run (PRNG.rng out) es).Streaming (PRNG.stream out) PRNG.words
        ((init 0 : QrngSystem β ℕ).writeResults (PRNG.rng out) es) ∧
      ∀ k ∈ (init 0 : QrngSystem β ℕ).writeResults (PRNG.rng out) es, 1 ≤ k ∧ k ≤ WRITE_SIZE := by
  induction es using List.reverseRecOn with
  | nil => exact ⟨streaming_init _ _, by simp [writeResults]⟩
  | append_singleton es e ih =>
    obtain ⟨hstream, hks⟩ := ih
    have hret := (run_writes out es).1
    rw [writeResults_concat]
    refine ⟨?_, fun k hk => ?_⟩
    · -- From the end of the run, with one more event that may bring a result of `write`.
      have hrun : (init 0 : QrngSystem β ℕ).run (PRNG.rng out) (es ++ [e]) =
          ((init 0 : QrngSystem β ℕ).run (PRNG.rng out) es).step (PRNG.rng out) e := by
        simp only [run, run_append, run_cons, run_nil]
      rw [hrun]
      exact hstream.step (PRNG.yields out) hret e
    · rcases List.mem_append.mp hk with hk | hk
      · exact hks k hk
      · unfold writeResult at hk
        split at hk
        · split at hk
          · next ret it _ hP =>
            obtain ⟨hpos, hle⟩ := hret ret it hP
            rw [List.mem_singleton.mp hk]
            omega
          · cases hk
        · cases hk

/-- What the device has taken, in the system on bytes. -/
theorem run_offered (es : List (Event β)) :
    ∃ n, ((init 0 : QrngSystem β ℕ).run (PRNG.rng out) es).driver.appended.map Prod.snd =
        ((init 0 : QrngSystem β ℕ).run (PRNG.rng out) es).service.accepted ++
          ((init 0 : QrngSystem β ℕ).run (PRNG.rng out) es).service.qrngWriteArr.take n ∧
      (n = 0 ∨ ((init 0 : QrngSystem β ℕ).run (PRNG.rng out) es).pc = .written) := by
  obtain ⟨n, happ, hn⟩ := (tagged_invariant out es).offered
  rw [← tagged_val]
  refine ⟨n, ?_, hn⟩
  have hmap := congrArg (List.map Tagged.val) happ
  rw [List.map_append, List.map_take, List.map_map] at hmap
  simpa [Driver.map, Function.comp_def] using hmap

/-- The bytes that the device has taken are the first ones of those that leave the window. -/
theorem run_appended_first (es : List (Event β)) :
    ((init 0 : QrngSystem β ℕ).run (PRNG.rng out) es).driver.appended.map Prod.snd <+:
      ((Window.full WRITE_SIZE).order ((init 0 : QrngSystem β ℕ).writeResults (PRNG.rng out) es)).map
        (PRNG.stream out) := by
  obtain ⟨⟨w, hw, hwindow, hacc⟩, -⟩ := run_streaming out es
  obtain ⟨n, happ, hn⟩ := run_offered out es
  rw [happ, hacc, Window.order, List.map_append]
  refine (List.prefix_append_right_inj _).mpr ?_
  rcases hn with rfl | hpc
  · exact List.nil_prefix
  · rw [hpc] at hw
    rw [Service.Streams.arr_eq hw, hwindow]
    exact List.take_prefix _ _

/-- So are those that the readers have taken. -/
theorem run_taken_first (es : List (Event β)) :
    ((init 0 : QrngSystem β ℕ).run (PRNG.rng out) es).driver.taken.map Prod.snd <+:
      ((Window.full WRITE_SIZE).order ((init 0 : QrngSystem β ℕ).writeResults (PRNG.rng out) es)).map
        (PRNG.stream out) := by
  obtain ⟨q, -, hcons⟩ := (driver_run (PRNG.rng out) (0 : ℕ) es).facts.1
  have htaken : ((init 0 : QrngSystem β ℕ).run (PRNG.rng out) es).driver.taken.map Prod.snd <+:
      ((init 0 : QrngSystem β ℕ).run (PRNG.rng out) es).driver.appended.map Prod.snd :=
    ⟨q.items, hcons⟩
  exact htaken.trans (run_appended_first out es)

/-- What the readers get, and in which order. In every run of the system, the results of the service's
writes are in `1..256`. The bytes that the device has taken from the service, in order, are the first
ones of the stream of `PRNG` in the order in which they leave a window of 256 places under these results,
and so are the bytes that the readers have taken from the device, in order. Every byte that has been moved
into the window leaves it once, or is still in it. -/
theorem taken_stream (es : List (Event β)) :
    (∀ k ∈ (init 0 : QrngSystem β ℕ).writeResults (PRNG.rng out) es, 1 ≤ k ∧ k ≤ WRITE_SIZE) ∧
      ((init 0 : QrngSystem β ℕ).run (PRNG.rng out) es).driver.appended.map Prod.snd =
        (((Window.full WRITE_SIZE).order
          ((init 0 : QrngSystem β ℕ).writeResults (PRNG.rng out) es)).take
            ((init 0 : QrngSystem β ℕ).run (PRNG.rng out) es).driver.appended.length).map
              (PRNG.stream out) ∧
      ((init 0 : QrngSystem β ℕ).run (PRNG.rng out) es).driver.taken.map Prod.snd =
        (((Window.full WRITE_SIZE).order
          ((init 0 : QrngSystem β ℕ).writeResults (PRNG.rng out) es)).take
            ((init 0 : QrngSystem β ℕ).run (PRNG.rng out) es).driver.taken.length).map
              (PRNG.stream out) ∧
      ((Window.full WRITE_SIZE).order
          ((init 0 : QrngSystem β ℕ).writeResults (PRNG.rng out) es)).Perm
        (List.range (WRITE_SIZE +
          ((init 0 : QrngSystem β ℕ).writeResults (PRNG.rng out) es).sum)) := by
  have hfirst := List.prefix_iff_eq_take.mp (run_appended_first out es)
  have hfirst' := List.prefix_iff_eq_take.mp (run_taken_first out es)
  rw [List.length_map, ← List.map_take] at hfirst hfirst'
  exact ⟨(run_streaming out es).2, hfirst, hfirst', Window.order_full_perm _ _⟩

/-- If every write so far has taken all 256 bytes, the readers get the stream as it is. -/
theorem taken_in_order {es : List (Event β)}
    (hall : ∀ k ∈ (init 0 : QrngSystem β ℕ).writeResults (PRNG.rng out) es, k = WRITE_SIZE) :
    ((init 0 : QrngSystem β ℕ).run (PRNG.rng out) es).driver.taken.map Prod.snd =
      (List.range ((init 0 : QrngSystem β ℕ).run (PRNG.rng out) es).driver.taken.length).map
        (PRNG.stream out) := by
  have hinitial := run_taken_first out es
  have hfirst := List.prefix_iff_eq_take.mp hinitial
  have hle := hinitial.length_le
  rw [List.eq_replicate_of_mem hall, Window.order_replicate] at hfirst hle
  rw [List.length_map, List.length_map, List.length_range] at hle
  rw [hfirst, List.length_map, ← List.map_take, List.take_range, Nat.min_eq_left hle]

/-- The service does not run ahead of the readers. In every run, of the bytes drawn from the generator at
most `1024 + 256 + 515` have not been taken by the readers: no more than the ring and `qrng_write_arr` can
hold, and the rest of one fetch from which a byte has been moved. -/
theorem drawn_le (es : List (Event β)) :
    4 * ((init 0 : QrngSystem β ℕ).run (PRNG.rng out) es).service.rng ≤
      ((init 0 : QrngSystem β ℕ).run (PRNG.rng out) es).driver.taken.length +
        (BUFF_SIZE + WRITE_SIZE + (REQUEST_SIZE - 1)) := by
  obtain ⟨⟨w, hw, hwindow, hacc⟩, hks⟩ := run_streaming out es
  obtain ⟨n, happ, -⟩ := run_offered out es
  obtain ⟨q, hrep, hcons⟩ := (driver_run (PRNG.rng out) (0 : ℕ) es).facts.1
  -- The bytes moved out of `qrng_buff` fill the window once, and then replace what was taken;
  have hnext := congrArg Window.next hwindow
  rw [Window.next_renew, Window.next_run, Window.next_full] at hnext
  -- what was taken from the window has been appended, up to one write;
  have hserved := congrArg List.length hacc
  rw [List.length_map, Window.length_served fun k hk => (hks k hk).2] at hserved
  have hoffered := congrArg List.length happ
  rw [List.length_map, List.length_append] at hoffered
  -- and what was appended has been taken from the ring, or is in it.
  have htaken := congrArg List.length hcons
  rw [List.length_append, List.length_map, List.length_map] at htaken
  have hring := q.length_le
  have hmoved : w.next + MainPc.renewed
      ((init 0 : QrngSystem β ℕ).run (PRNG.rng out) es).service.qrngWriteArrRenew
      ((init 0 : QrngSystem β ℕ).run (PRNG.rng out) es).pc ≤ WRITE_SIZE +
        ((init 0 : QrngSystem β ℕ).writeResults (PRNG.rng out) es).sum :=
    hnext ▸ Nat.add_le_add_left hw.it_le _
  rw [hw.rng_eq, PRNG.words]
  simp only [REQUEST_SIZE, WRITE_SIZE, BUFF_SIZE] at hring hmoved ⊢
  omega

end QrngSystem

end QrngDevice
