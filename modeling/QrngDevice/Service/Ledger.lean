import QrngDevice.Service.Drain

/-!
# Where every byte is

The ledger of the whole system. Every byte of every word drawn from the generator is, at every point of
every run, in exactly one place: it has been taken from the ring by a reader, or it is in the ring, or it
still waits in `qrng_write_arr`, or in `qrng_buff` (`nothing_lost`). What a process has taken, it has
copied to its destinations, in the same order, but for a byte in its hand, as long as its destinations
are accessible. A byte is lost only to a copy that fails. So a single reader gets the stream of `PRNG`
without a gap (`single_reader_stream`).
-/

namespace QrngDevice

open Runs RingBuffer

/-! ## The stream of `PRNG` -/

/-- The stream of `PRNG` has all bytes of all words drawn. -/
theorem PRNG.exists_stream_eq {β : Type*} (out : ℕ → Fin 4 → β) {m n : ℕ} (hn : n < words m)
    (i : Fin 4) : ∃ x < m * REQUEST_SIZE, stream out x = out n i := by
  have hi := i.isLt
  simp only [words] at hn
  refine ⟨n / 129 * REQUEST_SIZE + (4 * (128 - n % 129) + i), ?_, ?_⟩
  · simp only [REQUEST_SIZE]
    omega
  · have hword : 129 * ((n / 129 * REQUEST_SIZE + (4 * (128 - n % 129) + i)) / REQUEST_SIZE) +
        (128 - (n / 129 * REQUEST_SIZE + (4 * (128 - n % 129) + i)) % REQUEST_SIZE / 4) = n := by
      simp only [REQUEST_SIZE]
      omega
    have hbyte : (⟨(n / 129 * REQUEST_SIZE + (4 * (128 - n % 129) + i)) % 4,
        Nat.mod_lt _ (by decide)⟩ : Fin 4) = i :=
      Fin.ext (by simp only [REQUEST_SIZE]; omega)
    simp only [stream, hword, hbyte]

namespace QrngSystem

/-! ## The ledger -/

section

variable {β G : Type} [Zero β] {σ : QrngSystem β G} {drawn : G → Set β}

/-- The bytes that have been taken from the ring, that are in it, that wait from place `n` of
`qrng_write_arr` on, and that wait in `qrng_buff`. -/
def everywhere (σ : QrngSystem β G) (n : ℕ) : List β :=
  σ.driver.taken.map Prod.snd ++ σ.driver.ring.contents ++ σ.service.qrngWriteArr.drop n ++
    σ.service.qrngBuff.drop σ.service.qrngBuffReadIt

/-- In every state, every byte fetched is somewhere, and nowhere twice. -/
theorem Invariant.ledger (h : σ.Invariant drawn) :
    ∃ n, σ.service.fetched.Perm (σ.everywhere n) ∧ (σ.everywhere n).Nodup := by
  suffices hperm : ∃ n, σ.service.fetched.Perm (σ.driver.appended.map Prod.snd ++
      σ.service.qrngWriteArr.drop n ++ σ.service.qrngBuff.drop σ.service.qrngBuffReadIt) by
    obtain ⟨n, hn⟩ := hperm
    obtain ⟨q, hrep, hcons⟩ := h.driver_run.facts.1
    have hall : σ.everywhere n = σ.driver.appended.map Prod.snd ++ σ.service.qrngWriteArr.drop n ++
        σ.service.qrngBuff.drop σ.service.qrngBuffReadIt := by
      rw [everywhere, hrep.contents_eq, hcons]
    obtain ⟨it, hbytes, -⟩ := h.account
    refine ⟨n, ?_⟩
    rw [hall]
    exact ⟨hn, hn.nodup_iff.mp hbytes.nodup⟩
  rw [h.driver_run.facts.2.2.2]
  have hat := h.at_pc
  have hoffers : ∀ {it n}, Offers drawn it σ → σ.service.qrngWriteArr.take it ++
      σ.service.qrngWriteArr.drop σ.service.qrngWriteArrRenew = σ.service.qrngWriteArr.drop n →
      ∃ n, σ.service.fetched.Perm (σ.driver.appendedBy SERVICE ++ σ.service.qrngWriteArr.drop n ++
        σ.service.qrngBuff.drop σ.service.qrngBuffReadIt) := by
    intro it n ho heq
    have hperm := ho.bytes.perm
    rw [heq, ← ho.appended] at hperm
    exact ⟨n, hperm⟩
  cases hpc : σ.pc with
  | poll =>
    simp only [AtPc, hpc] at hat
    exact hoffers hat.2 rfl
  | polled =>
    simp only [AtPc, hpc] at hat
    exact hoffers hat.2 rfl
  | renew =>
    simp only [AtPc, hpc] at hat
    exact hoffers hat.2.2 rfl
  | write =>
    simp only [AtPc, hpc] at hat
    exact hoffers (n := 0) hat.2.2 (List.take_append_drop _ _)
  | written =>
    -- The write has taken the first places of `qrng_write_arr`.
    simp only [AtPc, hpc] at hat
    obtain ⟨xs, hphase, hxs⟩ := hat.1.phase
    have hperm := hat.2.perm
    have harr : xs ++ σ.service.qrngWriteArr.drop xs.length = σ.service.qrngWriteArr :=
      List.prefix_iff_eq_append.mp hphase.isPrefix
    rw [List.take_append_drop, ← harr, ← List.append_assoc, ← hxs] at hperm
    exact ⟨xs.length, hperm⟩
  | stopped stop => simp only [AtPc, hpc] at hat

end

variable {β : Type} [Zero β] (out : ℕ → Fin 4 → β)

/-- Nothing is lost. Take any run of the system on tagged bytes. Then the bytes that the readers have
taken from the ring, those in the ring, those that wait in `qrng_write_arr`, and those that wait in
`qrng_buff` are the bytes of all words drawn from the generator, each in one place and once. A process
whose reads have all had accessible destinations has copied to them what it has taken, in this order,
but for a byte that it has in hand. -/
theorem nothing_lost (es : List (Event β)) :
    (∃ n, ((tagged out es).everywhere n).Nodup ∧ ∀ b, b ∈ (tagged out es).everywhere n ↔
        b ∈ PRNG.drawn (Tagged.out out) (tagged out es).service.rng) ∧
      ∀ p, (∀ kiocb buf limit, .read p kiocb buf limit ∈ es → buf.length ≤ limit) →
        (tagged out es).driver.takenBy (p + 1) =
          (tagged out es).driver.deliveredBy (p + 1) ++ ((tagged out es).driver.procs (p + 1)).held := by
  have hinv := tagged_invariant out es
  refine ⟨?_, fun p hes => ?_⟩
  · obtain ⟨n, hperm, hnodup⟩ := hinv.ledger
    refine ⟨n, hnodup, fun b => ?_⟩
    rw [← hperm.mem_iff]
    refine ⟨?_, ?_⟩
    · obtain ⟨it, hbytes, -⟩ := hinv.account
      exact hbytes.drawn_of_fetched b
    · rintro ⟨w, hw, i, rfl⟩
      obtain ⟨⟨win, hstream, -, -⟩, -⟩ :=
        run_streaming (Tagged.out out) (es.map (Event.map Tagged.plain))
      obtain ⟨m, hstate, hfetched, -, -⟩ := hstream.buffered.source
      rw [tagged, hstate] at hw
      obtain ⟨x, hx, heq⟩ := PRNG.exists_stream_eq (Tagged.out out) hw i
      rw [tagged, hfetched, ← heq]
      exact List.mem_map_of_mem (List.mem_range.mpr hx)
  · refine (run_hasCopied _ _ fun kiocb buf limit hmem => ?_).taken
    obtain ⟨e, he, heq⟩ := List.mem_map.mp hmem
    cases e with
    | read q kiocb' buf' limit' =>
      simp only [Event.map, Event.read.injEq] at heq
      obtain ⟨rfl, rfl, rfl, rfl⟩ := heq
      simpa using hes _ _ _ he
    | _ => simp [Event.map] at heq

/-- The theorem for two rounds: process 1 has taken, and copied, the first `2 * 256` bytes of the stream. -/
theorem nothing_lost_rounds :
    (tagged (fun n i => 4 * n + i.val) (rounds 2)).driver.takenBy 1 =
      (List.range (2 * WRITE_SIZE)).map (PRNG.stream (Tagged.out fun n i => 4 * n + i.val)) := by
  have hrest := (run_rounds (Tagged.out fun n i => 4 * n + i.val) 2).1
  rw [(nothing_lost (fun n i => 4 * n + i.val) (rounds 2)).2 0 (accessible_rounds 2), tagged, map_rounds rfl,
    rounds_delivered, Proc.held_of_free hrest.reader, List.append_nil]

/-- What a single reader gets. In a run in which only one process reads, always into accessible
destinations, but in whatever mode, with whatever signals, and in whatever steps: the bytes that it has
copied to its destinations, followed by the one in its hand if any, are the first ones of the stream of
`PRNG` in the order in which they leave the window of `qrng_write_arr`. It misses none, and gets none
twice or out of order. -/
theorem single_reader_stream {p : ℕ} {es : List (Event β)} (honly : ∀ e ∈ es, ReadsOnly p e)
    (haccess : ∀ kiocb buf limit, .read p kiocb buf limit ∈ es → buf.length ≤ limit) :
    ((init 0 : QrngSystem β ℕ).run (PRNG.rng out) es).driver.deliveredBy (p + 1) ++
        (((init 0 : QrngSystem β ℕ).run (PRNG.rng out) es).driver.procs (p + 1)).held =
      (((Window.full WRITE_SIZE).order
        ((init 0 : QrngSystem β ℕ).writeResults (PRNG.rng out) es)).take
          ((init 0 : QrngSystem β ℕ).run (PRNG.rng out) es).driver.taken.length).map
            (PRNG.stream out) := by
  have hcopied := (run_hasCopied (PRNG.rng out) 0 haccess).taken
  have halone : TakenAlone p ((init 0 : QrngSystem β ℕ).run (PRNG.rng out) es) :=
    run_invariant (fun _ _ he h => h.step (PRNG.rng out) he) honly (takenAlone_init p 0)
  have hfirst := List.prefix_iff_eq_take.mp (run_taken_first out es)
  rw [List.length_map, ← List.map_take] at hfirst
  rw [← hcopied, ← hfirst, halone.takenBy]

/-- The theorem for two rounds: what process 1 has got are the first `2 * 256` bytes of the stream. -/
theorem single_reader_stream_rounds :
    (((Window.full WRITE_SIZE).order
      ((init 0 : QrngSystem ℕ ℕ).writeResults (PRNG.rng fun n i => 4 * n + i.val) (rounds 2))).take
        ((init 0 : QrngSystem ℕ ℕ).run (PRNG.rng fun n i => 4 * n + i.val)
          (rounds 2)).driver.taken.length).map (PRNG.stream fun n i => 4 * n + i.val) =
      (List.range (2 * WRITE_SIZE)).map (PRNG.stream fun n i => 4 * n + i.val) := by
  have hrest := (run_rounds (fun n i => 4 * n + i.val) 2).1
  rw [← single_reader_stream (fun n i => 4 * n + i.val) (fun _ he => (reads_rounds he).1)
    (accessible_rounds 2),
    rounds_delivered, Proc.held_of_free hrest.reader, List.append_nil]

end QrngSystem

end QrngDevice
