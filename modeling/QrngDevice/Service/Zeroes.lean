import QrngDevice.Service.Qrng
import QrngDevice.Service.Simulation
import QrngDevice.Service.Stream

/-!
# The system with `QRNG`

`QRNG` leaves the buffer as it is. So it makes the system that `PRNG` would make if all its output was
zero (`run_qrng`): it never aborts, and all that its readers get are zeros (`qrng_serves_zeros`). The
repository's own test, `testing/zeroes-test.py`, tells: it fails as soon as a reader has got more than ten
bytes.
-/

namespace QrngDevice

open Runs

/-! ## `QRNG` -/

/-- On a buffer of zeros, `QRNG` does what `PRNG` does if all its output is zero. -/
theorem PRNG.simulates_qrng {T β : Type} [Zero β] :
    (PRNG.rng fun _ _ => (0 : β)).Simulates (QRNG.rng : RNG β (QRNG T β))
      fun n _ arr => (∃ m, n = words m) ∧ arr = List.replicate REQUEST_SIZE 0 := by
  rintro n q arr ⟨⟨m, rfl⟩, rfl⟩
  refine ⟨_, q, _, PRNG.yields _ m _ List.length_replicate, ?_, ⟨m + 1, rfl⟩, ?_⟩
  · have hmap : (List.range' (m * REQUEST_SIZE) REQUEST_SIZE).map (stream fun _ _ => (0 : β)) =
        List.replicate REQUEST_SIZE 0 := by
      unfold stream
      rw [List.map_const', List.length_range']
    rw [hmap]
    rfl
  · unfold stream
    rw [List.map_const', List.length_range']

namespace QrngSystem

variable {T β : Type} [Zero β]

/-- In every run, the system with `QRNG` is that with `PRNG` if all its output is zero. -/
theorem run_qrng (thread : T) (es : List (Event β)) :
    ∃ q, (init (QRNG.connect thread)).run QRNG.rng es =
      ((init 0).run (PRNG.rng fun _ _ => (0 : β)) es).withRng q :=
  run_withRng PRNG.simulates_qrng ⟨⟨0, rfl⟩, rfl⟩ es

/-- If all output of `PRNG` is zero, then so is every byte delivered. -/
theorem delivered_zero (es : List (Event β)) :
    ∀ d ∈ ((init 0 : QrngSystem β ℕ).run (PRNG.rng fun _ _ => 0) es).driver.delivered, d.2 = 0 := by
  rintro ⟨p, b⟩ hd
  have hinitial := run_taken_first (fun _ _ => (0 : β)) es
  obtain ⟨ls, -, hls⟩ := driver_run (PRNG.rng fun _ _ => (0 : β)) 0 es
  rw [hls] at hd hinitial
  have hsub := (List.sublist_append_left _ _).trans (Driver.run_delivered_held ls p)
  have hb : b ∈ ((Driver.init : Driver β).run ls).takenBy p :=
    hsub.subset (List.mem_map.mpr ⟨(p, b), List.mem_filter.mpr ⟨hd, by simp⟩, rfl⟩)
  -- The byte is one of the stream, which is zero.
  have htaken : b ∈ ((Driver.init : Driver β).run ls).taken.map Prod.snd :=
    (List.filter_sublist.map Prod.snd).subset hb
  obtain ⟨i, -, hi⟩ := List.mem_map.mp (hinitial.subset htaken)
  exact hi.symm

end QrngSystem

/-! ## `testing/zeroes-test.py` -/

/-- `CNT`. -/
abbrev CNT : ℕ := 10

/-- `different`, for a value of `i`: one of `numbers[i+1]`, …, `numbers[i+CNT-1]` is not `numbers[i]`. -/
def different (numbers : List ℕ) (i : ℕ) : Bool :=
  (List.range' (i + 1) (CNT - 1)).any fun j => numbers[j]? != numbers[i]?

/-- The test: the number that it reports to come `CNT` times in a row, or `none` if everything seems to be
fine. -/
def zeroesTest (numbers : List ℕ) : Option ℕ :=
  -- `range(0, len(numbers)-CNT)` leaves out the last place where `CNT` numbers fit.
  ((List.range (numbers.length - CNT)).find? fun i => !different numbers i).bind (numbers[·]?)

/-- When the test reports a number. -/
theorem zeroesTest_eq_some_iff {numbers : List ℕ} {x : ℕ} :
    zeroesTest numbers = some x ↔ ∃ i, i + CNT < numbers.length ∧ numbers[i]? = some x ∧
      different numbers i = false ∧ ∀ j < i, different numbers j = true := by
  unfold zeroesTest
  rw [Option.bind_eq_some_iff]
  simp only [List.find?_range_eq_some, List.mem_range, Bool.not_eq_eq_eq_not, Bool.not_true]
  constructor
  · rintro ⟨i, ⟨hsame, hi, hbefore⟩, hx⟩
    exact ⟨i, by omega, hx, hsame, hbefore⟩
  · rintro ⟨i, hi, hx, hsame, hbefore⟩
    exact ⟨i, ⟨hsame, by omega, hbefore⟩, hx⟩

/-- The test does not look at the last number. -/
theorem zeroesTest_concat (numbers : List ℕ) (x y : ℕ) :
    zeroesTest (numbers ++ [x]) = zeroesTest (numbers ++ [y]) := by
  have hget : ∀ {i z}, i < numbers.length → (numbers ++ [z])[i]? = numbers[i]? :=
    fun hi => List.getElem?_append_left hi
  have hdifferent : ∀ i, i + CNT < numbers.length + 1 →
      different (numbers ++ [x]) i = different (numbers ++ [y]) i := by
    intro i hi
    rw [CNT] at hi
    unfold different
    rw [Bool.eq_iff_iff, List.any_eq_true, List.any_eq_true]
    refine exists_congr fun j => and_congr_right fun hj => ?_
    rw [List.mem_range'_1, CNT] at hj
    rw [hget (by omega), hget (by omega), hget (by omega), hget (by omega)]
  refine Option.ext fun z => ?_
  simp only [zeroesTest_eq_some_iff, List.length_append, List.length_singleton]
  refine exists_congr fun i => and_congr_right fun hi => ?_
  rw [hdifferent i hi]
  rw [CNT] at hi
  rw [hget (by omega), hget (by omega)]
  refine and_congr_right fun _ => and_congr_right fun _ => forall_congr' fun j => ?_
  refine imp_congr_right fun hj => ?_
  rw [hdifferent j (by rw [CNT]; omega)]

/-- On zeros only, it reports them as soon as there are more than `CNT`. -/
theorem zeroesTest_zeros {bytes : List UInt8} (h : ∀ b ∈ bytes, b = 0) :
    zeroesTest (bytes.map UInt8.toNat) = if CNT < bytes.length then some 0 else none := by
  split_ifs with hlt
  · rw [zeroesTest_eq_some_iff, List.eq_replicate_of_mem h, List.map_replicate]
    rw [CNT] at hlt
    refine ⟨0, by simpa using hlt, List.getElem?_replicate_of_lt (by omega), ?_, by simp⟩
    unfold different
    rw [List.any_eq_false]
    intro j hj
    rw [List.mem_range'_1, CNT] at hj
    rw [List.getElem?_replicate_of_lt (by omega), List.getElem?_replicate_of_lt (by omega)]
    simp
  · have hempty : (bytes.map UInt8.toNat).length - CNT = 0 := by
      rw [List.length_map]
      omega
    rw [zeroesTest, hempty]
    rfl

namespace QrngSystem

/-- With `QRNG`, the readers get zeros. In every run, the driver is in the state in which it would be with
`PRNG` if all its output was zero, so the service never stops. All bytes delivered are zero, and the
repository's test, on what any process has got, reports zeros as soon as these are more than ten. -/
theorem qrng_serves_zeros {T : Type} (thread : T) (es : List (Event UInt8)) :
    ((init (QRNG.connect thread)).run QRNG.rng es).driver =
        ((init 0).run (PRNG.rng fun _ _ => 0) es).driver ∧
      (∀ stop, ((init (QRNG.connect thread)).run QRNG.rng es).pc ≠ .stopped stop) ∧
      (∀ d ∈ ((init (QRNG.connect thread)).run QRNG.rng es).driver.delivered, d.2 = 0) ∧
      ∀ p, zeroesTest ((((init (QRNG.connect thread)).run QRNG.rng es).driver.deliveredBy p).map
          UInt8.toNat) =
        if CNT < (((init (QRNG.connect thread)).run QRNG.rng es).driver.deliveredBy p).length then
          some 0 else none := by
  obtain ⟨q, hq⟩ := run_qrng thread es
  rw [hq]
  have hzero := delivered_zero es
  refine ⟨rfl, (run_writes _ es).2.1, hzero, fun p => ?_⟩
  have hall : ∀ b ∈ ((init 0).run (PRNG.rng fun _ _ => (0 : UInt8)) es).driver.deliveredBy p,
      b = 0 := by
    intro b hb
    obtain ⟨d, hd, rfl⟩ := List.mem_map.mp hb
    exact hzero d (List.mem_filter.mp hd).1
  exact zeroesTest_zeros hall

end QrngSystem

end QrngDevice
