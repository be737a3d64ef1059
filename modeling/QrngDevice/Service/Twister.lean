import Mathlib.Tactic.FinCases
import QrngDevice.Lib.MersenneTwister
import QrngDevice.Service.Ledger
import QrngDevice.Service.Simulation

/-!
# `PRNG` with its twister

`PRNG` draws its words from `std::mt19937`, which its constructor seeds with the count of a clock. On the
twister, it fills the buffer as on the sequence of the words that the twister puts out
(`PRNG.simulates_twister`). So what holds of the system for all such sequences holds of this one
(`started_driver`).

The steps of the twister can be undone (`Lib/MersenneTwister.lean`). So 624 of its words in a row tell
the lower 32 bits of the clock, and with them all that the readers ever get (`delivered_predicts`).
-/

namespace QrngDevice

open MersenneTwister

/-- `std::mt19937`. -/
abbrev mt19937 : MersenneTwister where
  w := 32
  n := 624
  m := 397
  r := 31
  a := 0x9908b0df
  u := 11
  d := 0xffffffff
  s := 7
  b := 0x9d2c5680
  t := 15
  c := 0xefc60000
  l := 18
  f := 1812433253
  m_pos := by decide
  m_lt := by decide

/-- Its steps can be undone. -/
theorem mt19937_invertible : mt19937.Invertible where
  u_pos := by decide
  s_pos := by decide
  t_pos := by decide
  l_pos := by decide
  msb_a := by decide
  one_lt_m := by decide

namespace PRNG

/-- `PRNG()`, when the clock has the count `count`. The twister is seeded with the lower 32 bits. -/
def create (count : ℤ) : Engine mt19937 := seed (BitVec.ofInt 32 count)

/-- The first result of the twister with the default seed of the engine. -/
example : (create 5489).next.1 = 3499211612 := by decide +kernel

/-- The bytes of `rnd` in memory. -/
def tmp (rnd : BitVec 32) (i : Fin 4) : UInt8 := littleEndian (.ofBitVec rnd) i

/-- The outer loop of `fetch_bytes` on the twister `mt`, for at most as many rounds as its first
argument. -/
def twisterLoop : ℕ → Engine mt19937 → Fill UInt8 → Except Stop (Engine mt19937 × Fill UInt8)
  | 0, mt, s => .ok (mt, s)
  | rounds + 1, mt, s =>
    if 0 < s.cnt then do
      let (rnd, mt) := mt.next
      let s ← copyLoop (List.ofFn (tmp rnd)) 4 s
      twisterLoop rounds mt s
    else .ok (mt, s)

/-- `PRNG` on its twister. -/
def twisterRng : RNG UInt8 (Engine mt19937) where
  fetchBytes mt arr cnt := do
    let (mt, s) ← twisterLoop cnt mt ⟨arr, cnt, []⟩
    return (mt, s.arr)

/-- The bytes of the words that the twister puts out. -/
def output (mt : Engine mt19937) (n : ℕ) : Fin 4 → UInt8 := tmp (mt.output n)

/-- The loop on the twister is the loop on its output. -/
theorem twisterLoop_eq (mt : Engine mt19937) (rounds n : ℕ) (s : Fill UInt8) :
    twisterLoop rounds (mt.after n) s =
      (fetchLoop (output mt) rounds n s).map fun r => (mt.after r.1, r.2) := by
  induction rounds generalizing n s with
  | zero => rfl
  | succ rounds ih =>
    simp only [twisterLoop, fetchLoop]
    split_ifs with hpos
    · have htmp : tmp (mt.after n).next.1 = output mt n := rfl
      simp only [bind, Except.bind, htmp]
      cases copyLoop (List.ofFn (output mt n)) 4 s with
      | error stop => rfl
      | ok s =>
        simp only [← Engine.after_succ]
        exact ih (n + 1) s
    · rfl

/-- `PRNG` on its twister fills the buffer with the output of the twister. -/
theorem simulates_twister (mt : Engine mt19937) :
    (rng (output mt)).Simulates twisterRng fun n mt' arr =>
      arr.length = REQUEST_SIZE ∧ mt' = mt.after n := by
  rintro n - arr ⟨hlen, rfl⟩
  obtain ⟨s, hs, hlen', -⟩ := fetchLoop_spec (output mt) REQUEST_SIZE n ⟨arr, REQUEST_SIZE, []⟩ le_rfl
    hlen.ge
  refine ⟨n + (REQUEST_SIZE + 3) / 4, mt.after (n + (REQUEST_SIZE + 3) / 4), s.arr, ?_, ?_,
    hlen'.trans hlen, rfl⟩
  · simp only [rng, hs, bind, Except.bind, pure, Except.pure]
  · simp only [twisterRng, twisterLoop_eq, hs, Except.map, bind, Except.bind, pure, Except.pure]

/-- A word is known by its bytes. -/
theorem tmp_injective : Function.Injective tmp := by
  intro x y hxy
  refine BitVec.eq_of_getLsbD_eq fun j hj => ?_
  have hbyte : ∀ i : Fin 4, ∀ t < 8, x.getLsbD (8 * i.val + t) = y.getLsbD (8 * i.val + t) := by
    intro i t ht
    have h := congrArg (fun f => (f i).toBitVec.getLsbD t) hxy
    fin_cases i <;> simpa [tmp, littleEndian, ht] using h
  have h := hbyte ⟨j / 8, by omega⟩ (j % 8) (Nat.mod_lt _ (by decide))
  rwa [Nat.div_add_mod] at h

/-- The lower 32 bits of a count. -/
theorem ofInt_eq_iff {count count' : ℤ} :
    BitVec.ofInt 32 count = BitVec.ofInt 32 count' ↔ count % 2 ^ 32 = count' % 2 ^ 32 := by
  rw [← BitVec.toNat_inj, BitVec.toNat_ofInt, BitVec.toNat_ofInt]
  omega

/-- As many words in a row of the output of its twister as this has in its state tell the clock. -/
theorem clock_of_output {count count' : ℤ} {k : ℕ}
    (h : ∀ j < mt19937.n, output (create count) (k + j) = output (create count') (k + j)) :
    count % 2 ^ 32 = count' % 2 ^ 32 := by
  have hinverse : 2520285293#32 * mt19937.f = 1#32 := by decide
  refine ofInt_eq_iff.mp (seed_eq_of_window mt19937_invertible (by decide) hinverse (k := k) ?_)
  exact fun j hj => tmp_injective (h j hj)

end PRNG

namespace QrngSystem

/-! ## Two runs side by side -/

variable {β : Type} [Zero β] (out out' : ℕ → Fin 4 → β)

/-- A byte delivered to a reader is one of the generator's output. -/
theorem tagged_delivered (es : List (Event β)) {d : Pid × Tagged β}
    (hd : d ∈ (tagged out es).driver.delivered) : ∃ n i, d.2 = Tagged.out out n i := by
  have hinv := tagged_invariant out es
  obtain ⟨happ, hdrawn⟩ := hinv.appended
  obtain ⟨ls, -, hls⟩ := hinv.driver_run
  rw [hls] at happ hdrawn hd
  obtain ⟨n, -, i, heq⟩ := hdrawn d.2 ((Driver.delivered_nodup happ).2 (List.mem_map_of_mem hd))
  exact ⟨n, i, heq.symm⟩

/-- The system on pairs of bytes, those of the one output and those of the other, tagged with their
origin. The events are the same on both sides. -/
def twoRuns (es : List (Event β)) : QrngSystem (Tagged (β × β)) ℕ :=
  tagged (fun n i => (out n i, out' n i)) (es.map (Event.map fun b => (b, b)))

/-- A map of the pairs takes what is delivered in it to what is delivered in a run on other bytes. -/
theorem twoRuns_delivered {γ : Type} [Zero γ] (es : List (Event β)) {f : Tagged (β × β) → γ} {g : β → γ}
    (hzero : f 0 = 0) (hplain : ∀ b, f (.plain (b, b)) = g b) :
    ((init 0).run (PRNG.rng fun n i => f (Tagged.out (fun n i => (out n i, out' n i)) n i))
      (es.map (Event.map g))).driver.delivered =
        (twoRuns out out' es).driver.delivered.map fun d => (d.1, f d.2) := by
  have hrun := map_run hzero (PRNG.maps_rng f (Tagged.out fun n i => (out n i, out' n i))) (init 0)
    ((es.map (Event.map fun b => (b, b))).map (Event.map Tagged.plain))
  have hes : ((es.map (Event.map fun b => (b, b))).map (Event.map Tagged.plain)).map (Event.map f) =
      es.map (Event.map g) := by
    rw [List.map_map, List.map_map]
    refine List.map_congr_left fun e _ => ?_
    cases e <;> simp [Event.map, Function.comp_def, hplain]
  rw [hes, map_init hzero] at hrun
  rw [hrun]
  rfl

/-- If the readers get the same bytes with two outputs, these agree in all that is delivered. -/
theorem out_eq_of_delivered_eq {es : List (Event β)}
    (h : ((init 0 : QrngSystem β ℕ).run (PRNG.rng out) es).driver.delivered =
      ((init 0 : QrngSystem β ℕ).run (PRNG.rng out') es).driver.delivered) {n : ℕ} {i : Fin 4}
    (hd : some (n, i) ∈ (tagged out es).driver.delivered.map fun d => d.2.origin) :
    out n i = out' n i := by
  have hid : es.map (Event.map id) = es := by
    refine (List.map_congr_left fun e _ => ?_).trans (List.map_id es)
    cases e <;> simp [Event.map]
  -- Each of the three runs is the one on pairs, with the bytes of one side.
  have hfst := twoRuns_delivered out out' es (f := fun t => t.val.1) (g := id) rfl fun _ => rfl
  have hsnd := twoRuns_delivered out out' es (f := fun t => t.val.2) (g := id) rfl fun _ => rfl
  have htagged := twoRuns_delivered out out' es (f := fun t => Tagged.mk t.val.1 t.origin)
    (g := Tagged.plain) rfl fun _ => rfl
  rw [hid] at hfst hsnd
  have hsame := List.map_inj_left.mp ((hfst.symm.trans h).trans hsnd)
  have horigin : some (n, i) ∈ (twoRuns out out' es).driver.delivered.map fun d => d.2.origin := by
    have hmap := congrArg (List.map fun d => d.2.origin) htagged
    rw [List.map_map] at hmap
    exact hmap ▸ hd
  obtain ⟨d, hmem, hn⟩ := List.mem_map.mp horigin
  obtain ⟨m, j, heq⟩ := tagged_delivered _ _ hmem
  have hval := congrArg Prod.snd (hsame d hmem)
  rw [heq] at hn hval
  obtain ⟨rfl, rfl⟩ := Prod.mk.inj (Option.some.inj hn)
  exact hval

/-- The readers have got all bytes of `n` words in a row of the output. -/
def GotWords (n : ℕ) (es : List (Event β)) : Prop :=
  ∃ k, ∀ j < n, ∀ i, some (k + j, i) ∈ (tagged out es).driver.delivered.map fun d => d.2.origin

/-- In some rounds, a reader gets the first words. -/
theorem gotWords_rounds {m n : ℕ} (hm : n ≤ PRNG.words m) {rnd : ℕ}
    (hrnd : m * REQUEST_SIZE ≤ rnd * WRITE_SIZE) : GotWords out n (rounds rnd : List (Event β)) := by
  refine ⟨0, fun j hj i => ?_⟩
  obtain ⟨x, hx, heq⟩ := PRNG.exists_stream_eq (Tagged.out out) (hj.trans_le hm) i
  have hdel := rounds_delivered (Tagged.out out) rnd
  have hmem : Tagged.out out j i ∈ (tagged out (rounds rnd)).driver.deliveredBy 1 := by
    rw [tagged, map_rounds rfl, hdel, ← heq]
    exact List.mem_map_of_mem (List.mem_range.mpr (hx.trans_le hrnd))
  obtain ⟨d, hd, hval⟩ := List.mem_map.mp hmem
  refine List.mem_map.mpr ⟨d, (List.mem_filter.mp hd).1, ?_⟩
  rw [hval, Nat.zero_add]
  rfl

/-! ## The system with its twister -/

/-- The system after the events `es`, if the clock had the count `count` when the service was started. -/
def started (count : ℤ) (es : List (Event UInt8)) : QrngSystem UInt8 (Engine mt19937) :=
  (init (PRNG.create count)).run PRNG.twisterRng es

/-- Its driver is that of the system on the output of the twister. -/
theorem started_driver (count : ℤ) (es : List (Event UInt8)) :
    (started count es).driver =
      ((init 0).run (PRNG.rng (PRNG.output (PRNG.create count))) es).driver := by
  have hstart : (List.replicate REQUEST_SIZE (0 : UInt8)).length = REQUEST_SIZE ∧
      PRNG.create count = (PRNG.create count).after 0 := ⟨List.length_replicate, rfl⟩
  obtain ⟨mt, hmt⟩ := run_withRng (PRNG.simulates_twister (PRNG.create count)) hstart es
  rw [started, hmt]
  rfl

/-- What the readers have got tells the rest. Once they have got all bytes of 624 words in a row of the
twister's output, in whatever order and by whatever reads, the lower 32 bits of the clock are known: a
service started at another count would have given other bytes to them under the same events, unless it
agrees in these bits. Then it does the same under all events. -/
theorem delivered_predicts {count : ℤ} {es : List (Event UInt8)}
    (hgot : GotWords (PRNG.output (PRNG.create count)) 624 es) (count' : ℤ) :
    ((started count es).driver.delivered = (started count' es).driver.delivered ↔
        count % 2 ^ 32 = count' % 2 ^ 32) ∧
      ((started count es).driver.delivered = (started count' es).driver.delivered →
        ∀ es', started count es' = started count' es') := by
  have hback : count % 2 ^ 32 = count' % 2 ^ 32 → ∀ es', started count es' = started count' es' := by
    intro h es'
    rw [started, started, PRNG.create, PRNG.create, PRNG.ofInt_eq_iff.mpr h]
  have hclock : (started count es).driver.delivered = (started count' es).driver.delivered →
      count % 2 ^ 32 = count' % 2 ^ 32 := by
    intro h
    rw [started_driver, started_driver] at h
    obtain ⟨k, hk⟩ := hgot
    exact PRNG.clock_of_output fun j hj => funext fun i => out_eq_of_delivered_eq _ _ h (hk j hj i)
  exact ⟨⟨hclock, fun h => by rw [hback h es]⟩, fun h => hback (hclock h)⟩

/-- The theorem for eleven rounds of the service and a reader, and the clocks 1 and 2. -/
theorem delivered_predicts_rounds :
    ((started 1 (rounds 11)).driver.delivered = (started 2 (rounds 11)).driver.delivered ↔
        (1 : ℤ) % 2 ^ 32 = 2 % 2 ^ 32) ∧
      ((started 1 (rounds 11)).driver.delivered = (started 2 (rounds 11)).driver.delivered →
        ∀ es', started 1 es' = started 2 es') :=
  delivered_predicts (gotWords_rounds _ (m := 5) (by decide) (by decide)) 2

end QrngSystem

end QrngDevice
