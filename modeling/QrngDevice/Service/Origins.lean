import QrngDevice.Driver.Delivered
import QrngDevice.Service.Relabel
import QrngDevice.Service.SystemSpec

/-!
# Where the delivered bytes come from

A byte is tagged with its origin, its position in the output of the generator. The bytes that come
from elsewhere, the zeros of static storage and what readers have in their buffers before they read,
have none. Since no code looks at a byte, the run of the system on tagged bytes is its run on bytes,
once the tags are taken off (`tagged_val`). In it, no origin is delivered twice (`delivered_once`).
-/

namespace QrngDevice

/-- A byte with its origin: the number of a word of the generator's output, and of a byte of it. -/
structure Tagged (β : Type) where
  /-- The byte. -/
  val : β
  /-- The origin. -/
  origin : Option (ℕ × Fin 4)

namespace Tagged

variable {β : Type}

instance [Zero β] : Zero (Tagged β) := ⟨⟨0, none⟩⟩

/-- A byte from elsewhere. -/
def plain (b : β) : Tagged β := ⟨b, none⟩

/-- The output `out` of the generator, with the origins. -/
def out (out : ℕ → Fin 4 → β) (n : ℕ) (i : Fin 4) : Tagged β := ⟨out n i, some (n, i)⟩

/-- The origins tell the bytes of the output apart. -/
theorem out_injective2 (out : ℕ → Fin 4 → β) : Function.Injective2 (Tagged.out out) := by
  intro n m i j h
  simp only [Tagged.out, Tagged.mk.injEq, Option.some.injEq, Prod.mk.injEq] at h
  exact h.2

end Tagged

namespace QrngSystem

variable {β : Type} [Zero β]

/-- The system on tagged bytes after the events `es`, with `PRNG` as the generator. -/
def tagged (out : ℕ → Fin 4 → β) (es : List (Event β)) : QrngSystem (Tagged β) ℕ :=
  (init 0).run (PRNG.rng (Tagged.out out)) (es.map (Event.map Tagged.plain))

/-- Without the tags, it is the system on bytes. -/
theorem tagged_val (out : ℕ → Fin 4 → β) (es : List (Event β)) :
    (tagged out es).map Tagged.val = (init 0).run (PRNG.rng out) es := by
  have hzero : (0 : Tagged β).val = 0 := rfl
  have hrun := map_run (f := Tagged.val) hzero (PRNG.maps_rng Tagged.val (Tagged.out out)) (init 0)
    (es.map (Event.map Tagged.plain))
  have hes : (es.map (Event.map Tagged.plain)).map (Event.map Tagged.val) = es := by
    rw [List.map_map]
    refine (List.map_congr_left fun e _ => ?_).trans (List.map_id es)
    cases e <;> simp [Event.map, Tagged.plain, Function.comp_def]
  rw [hes, map_init hzero] at hrun
  exact hrun.symm

/-- The invariant holds on tagged bytes, whatever the generator puts out. -/
theorem tagged_invariant (out : ℕ → Fin 4 → β) (es : List (Event β)) :
    (tagged out es).Invariant (PRNG.drawn (Tagged.out out)) :=
  run_holds (PRNG.fresh (Tagged.out_injective2 out) REQUEST_SIZE) 0 _

/-- No byte of the generator's output is ever handed out twice. Take any run of the system on tagged
bytes. Without the tags, it is the run of the system itself. Every byte delivered to a reader is a byte
of the generator's output, of a word drawn so far, and no two of them have the same origin. What the
current or last read of a process has put into its destination are the last bytes delivered to it. -/
theorem delivered_once (out : ℕ → Fin 4 → β) (es : List (Event β)) :
    (tagged out es).map Tagged.val = (init 0).run (PRNG.rng out) es ∧
      (∀ d ∈ (tagged out es).driver.delivered,
        ∃ n < (tagged out es).service.rng, ∃ i, d.2 = Tagged.out out n i) ∧
      ((tagged out es).driver.delivered.map fun d => d.2.origin).Nodup ∧
      ∀ p, ((tagged out es).driver.procs p).filled <:+ (tagged out es).driver.deliveredBy p := by
  have hinv := tagged_invariant out es
  obtain ⟨happ, hdrawn⟩ := hinv.appended
  obtain ⟨ls, -, hls⟩ := hinv.driver_run
  rw [hls] at happ hdrawn
  obtain ⟨hnodup, hsub⟩ := Driver.delivered_nodup happ
  have horigin : ∀ b ∈ ((Driver.init : Driver (Tagged β)).run ls).delivered.map Prod.snd,
      ∃ n < (tagged out es).service.rng, ∃ i, b = Tagged.out out n i := by
    intro b hb
    obtain ⟨n, hn, i, heq⟩ := hdrawn b (hsub hb)
    exact ⟨n, hn, i, heq.symm⟩
  refine ⟨tagged_val out es, ?_, ?_, ?_⟩
  · intro d hd
    rw [hls] at hd
    exact horigin d.2 (List.mem_map_of_mem hd)
  · have hmap : ((tagged out es).driver.delivered.map fun d => d.2.origin) =
        (((Driver.init : Driver (Tagged β)).run ls).delivered.map Prod.snd).map Tagged.origin := by
      rw [hls, List.map_map]
      rfl
    -- On the bytes of the output, different bytes have different origins.
    rw [hmap]
    refine hnodup.map_on fun b hb b' hb' heq => ?_
    obtain ⟨n, -, i, rfl⟩ := horigin b hb
    obtain ⟨m, -, j, rfl⟩ := horigin b' hb'
    simp only [Tagged.out, Option.some.injEq, Prod.mk.injEq] at heq
    rw [heq.1, heq.2]
  · intro p
    rw [hls]
    exact Driver.run_filled_delivered ls p

end QrngSystem

end QrngDevice
