import Mathlib.Data.List.Nodup
import Mathlib.Data.Set.Basic
import Mathlib.Logic.Function.Basic

/-!
# Generators of bytes

The interface `RNG` of `userspace/src/rng.hpp`, and `PRNG` of `userspace/src/prng.cpp`, which fills a
buffer with the output of a Mersenne twister. The twister itself belongs to the C++ library, so its
output is a parameter here, a sequence of words of four bytes (`Service/Twister.lean` has the twister).

`PRNG.fetchLoop_spec` is what `fetch_bytes` does: it fills the buffer from its end, each word from
its last byte on, and never leaves its arrays (`PRNG.fetch_bytes_fills`). So the bytes of a fetch lie at
distinct positions of the output, after those of all earlier fetches (`PRNG.fresh`).
-/

namespace QrngDevice

/-! ## Arrays -/

/-- How the service can come to an end. -/
inductive Stop
  /-- An access beyond the end of an array. -/
  | outOfBounds
  /-- `ABORT_F`. -/
  | abort
  deriving DecidableEq, Repr

section

variable {β : Type*}

/-- The value of `arr[i]`. -/
def load (arr : List β) (i : ℕ) : Except Stop β :=
  match arr[i]? with
  | some b => .ok b
  | none => .error .outOfBounds

/-- The array after `arr[i] = b`. -/
def store (arr : List β) (i : ℕ) (b : β) : Except Stop (List β) :=
  if i < arr.length then .ok (arr.set i b) else .error .outOfBounds

/-- A load within the bounds. -/
theorem load_of_getElem? {arr : List β} {i : ℕ} {b : β} (h : arr[i]? = some b) :
    load arr i = .ok b := by
  rw [load, h]

/-- A store within the bounds. -/
theorem store_of_lt {arr : List β} {i : ℕ} (b : β) (h : i < arr.length) :
    store arr i b = .ok (arr.set i b) := if_pos h

end

/-! ## The interface -/

/-- `RNG`: a generator of bytes, with states `G`. -/
structure RNG (β G : Type*) where
  /-- `fetch_bytes(arr, cnt)`: the next state of the generator, and `arr`. -/
  fetchBytes : G → List β → ℕ → Except Stop (G × List β)

/-- A fetch of `cnt` bytes into an array of that length overwrites all of it with distinct bytes, none
of which was drawn before. -/
def RNG.Fresh {β G : Type*} (rng : RNG β G) (drawn : G → Set β) (cnt : ℕ) : Prop :=
  ∀ g arr, arr.length = cnt → ∃ g' arr', rng.fetchBytes g arr cnt = .ok (g', arr') ∧
    arr'.length = cnt ∧ arr'.Nodup ∧ (∀ b ∈ arr', b ∉ drawn g ∧ b ∈ drawn g') ∧
    drawn g ⊆ drawn g'

/-! ## `PRNG` -/

namespace PRNG

variable {β : Type*}

/-- The variables of `fetch_bytes`. -/
structure Fill (β : Type*) where
  /-- `arr`. -/
  arr : List β
  /-- `cnt`. -/
  cnt : ℕ
  /-- The indices at which `arr` has been stored to, in order. No step reads them. -/
  stored : List ℕ

/-- The inner loop of `fetch_bytes`, with its counter `i`: `arr[--cnt] = tmp[--i]`. -/
def copyLoop (tmp : List β) : ℕ → Fill β → Except Stop (Fill β)
  | 0, s => .ok s
  | i + 1, s =>
    if 0 < s.cnt then do
      let b ← load tmp i
      let arr ← store s.arr (s.cnt - 1) b
      copyLoop tmp i ⟨arr, s.cnt - 1, s.stored ++ [s.cnt - 1]⟩
    else .ok s

/-- Byte `i` in memory of a word of the twister, on a machine that is little-endian. -/
def littleEndian (w : UInt32) (i : Fin 4) : UInt8 := (w >>> (8 * i.val).toUInt32).toUInt8

/-- The outer loop of `fetch_bytes`, for at most as many rounds as its first argument. The next word
of the output is the one with number `n`, and `out n` are its bytes in memory, of which there are
`sizeof(rnd)`, that is four. -/
def fetchLoop (out : ℕ → Fin 4 → β) : ℕ → ℕ → Fill β → Except Stop (ℕ × Fill β)
  | 0, n, s => .ok (n, s)
  | rounds + 1, n, s =>
    if 0 < s.cnt then do
      let s ← copyLoop (List.ofFn (out n)) 4 s
      fetchLoop out rounds (n + 1) s
    else .ok (n, s)

/-- `PRNG`. Its state is the number of words drawn from the twister. Every round of `fetch_bytes`
stores at least one byte, so `cnt` bounds the rounds. -/
def rng (out : ℕ → Fin 4 → β) : RNG β ℕ where
  fetchBytes n arr cnt := do
    let (n', s) ← fetchLoop out cnt n ⟨arr, cnt, []⟩
    return (n', s.arr)

/-! ## What `fetch_bytes` does -/

/-- The inner loop copies the last bytes before `tmp[i]` to the places before `arr[cnt]`, as many as
both have. -/
theorem copyLoop_spec (tmp : List β) (i : ℕ) (s : Fill β) (hi : i ≤ tmp.length)
    (hcnt : s.cnt ≤ s.arr.length) :
    ∃ s', copyLoop tmp i s = .ok s' ∧ s'.arr.length = s.arr.length ∧ s'.cnt = s.cnt - i ∧
      (∀ j, j < i → j < s.cnt → s'.arr[s.cnt - 1 - j]? = tmp[i - 1 - j]?) ∧
      (∀ x, x < s.cnt - i ∨ s.cnt ≤ x → s'.arr[x]? = s.arr[x]?) ∧
      s'.stored = s.stored ++ (List.range (min i s.cnt)).map (s.cnt - 1 - ·) := by
  induction i generalizing s with
  | zero => exact ⟨s, rfl, rfl, rfl, by simp, by simp, by simp⟩
  | succ i ih =>
    rw [copyLoop]
    split_ifs with hpos
    · obtain ⟨b, hb⟩ : ∃ b, tmp[i]? = some b := ⟨tmp[i], List.getElem?_eq_getElem (by omega)⟩
      obtain ⟨s', hs', hlen, hcnt', hnew, hold, hstored⟩ :=
        ih ⟨s.arr.set (s.cnt - 1) b, s.cnt - 1, s.stored ++ [s.cnt - 1]⟩ (by omega)
          (by simp only [List.length_set]; omega)
      simp only [List.length_set] at hlen hcnt' hnew hold hstored
      refine ⟨s', ?_, hlen, by omega, ?_, ?_, ?_⟩
      · have hlt : s.cnt - 1 < s.arr.length := by omega
        simp only [load_of_getElem? hb, store_of_lt b hlt, bind, Except.bind]
        exact hs'
      · intro j hj hjc
        rcases Nat.eq_zero_or_pos j with rfl | hj0
        · -- The first byte is not overwritten by the rest of the loop.
          rw [Nat.sub_zero, Nat.sub_zero, hold _ (Or.inr le_rfl),
            List.getElem?_set_self (by omega), Nat.add_sub_cancel, hb]
        · have := hnew (j - 1) (by omega) (by omega)
          rwa [show s.cnt - 1 - 1 - (j - 1) = s.cnt - 1 - j by omega,
            show i - 1 - (j - 1) = i + 1 - 1 - j by omega] at this
      · intro x hx
        rw [hold x (by omega), List.getElem?_set_ne (by omega)]
      · rw [hstored, List.append_assoc, show min (i + 1) s.cnt = min i (s.cnt - 1) + 1 by omega,
          List.range_succ_eq_map, List.map_cons, List.map_map]
        refine congrArg _ (congrArg₂ _ rfl (List.map_congr_left fun j _ => ?_))
        simp only [Function.comp_apply]
        omega
    · exact ⟨s, rfl, rfl, by omega, by omega, fun _ _ => rfl, by simp [show s.cnt = 0 by omega]⟩

/-- The last `cnt` places, from the last on, are the last four of them and the `cnt - 4` before. -/
theorem range_map_sub (cnt : ℕ) :
    (List.range cnt).map (cnt - 1 - ·) = (List.range (min 4 cnt)).map (cnt - 1 - ·) ++
      (List.range (cnt - 4)).map (cnt - 4 - 1 - ·) := by
  conv_lhs => rw [show cnt = min 4 cnt + (cnt - 4) by omega, List.range_add, List.map_append,
    List.map_map]
  rw [show min 4 cnt + (cnt - 4) = cnt by omega]
  refine congrArg _ (List.map_congr_left fun j hj => ?_)
  rw [List.mem_range] at hj
  simp only [Function.comp_apply]
  omega

/-- `fetch_bytes` ends, without leaving its arrays. It draws a word for every four bytes wanted, or
part of four, and puts byte `3 - j % 4` of word `j / 4` at the place `j` before the last. It stores to
each place of the part wanted once, from the last to the first, and to no other. -/
theorem fetchLoop_spec (out : ℕ → Fin 4 → β) (rounds n : ℕ) (s : Fill β)
    (hrounds : s.cnt ≤ rounds) (hcnt : s.cnt ≤ s.arr.length) :
    ∃ s', fetchLoop out rounds n s = .ok (n + (s.cnt + 3) / 4, s') ∧
      s'.arr.length = s.arr.length ∧
      (∀ j, j < s.cnt → s'.arr[s.cnt - 1 - j]? =
        some (out (n + j / 4) ⟨3 - j % 4, by omega⟩)) ∧
      (∀ x, s.cnt ≤ x → s'.arr[x]? = s.arr[x]?) ∧
      s'.stored = s.stored ++ (List.range s.cnt).map (s.cnt - 1 - ·) := by
  induction rounds generalizing n s with
  | zero =>
    have h0 : s.cnt = 0 := by omega
    refine ⟨s, by simp [fetchLoop, h0], rfl, by omega, fun _ _ => rfl, by simp [h0]⟩
  | succ rounds ih =>
    rw [fetchLoop]
    split_ifs with hpos
    · obtain ⟨s₁, hs₁, hlen₁, hcnt₁, hnew₁, hold₁, hstored₁⟩ :=
        copyLoop_spec (List.ofFn (out n)) 4 s (by simp) hcnt
      obtain ⟨s₂, hs₂, hlen₂, hnew₂, hold₂, hstored₂⟩ := ih (n + 1) s₁ (by omega) (by omega)
      refine ⟨s₂, ?_, hlen₂.trans hlen₁, ?_, ?_, ?_⟩
      · simp only [hs₁, bind, Except.bind, hs₂]
        rw [show n + 1 + (s₁.cnt + 3) / 4 = n + (s.cnt + 3) / 4 by omega]
      · intro j hj
        rcases Nat.lt_or_ge j 4 with hj4 | hj4
        · -- A byte of the first word, which the later rounds leave alone.
          rw [hold₂ _ (by omega), hnew₁ j hj4 hj, List.getElem?_ofFn, dif_pos (by omega)]
          simp only [show j / 4 = 0 by omega, show j % 4 = j by omega, Nat.add_zero]
        · have := hnew₂ (j - 4) (by omega)
          rw [show s₁.cnt - 1 - (j - 4) = s.cnt - 1 - j by omega] at this
          rw [this]
          simp only [show n + 1 + (j - 4) / 4 = n + j / 4 by omega,
            show (j - 4) % 4 = j % 4 by omega]
      · intro x hx
        rw [hold₂ x (by omega), hold₁ x (Or.inr hx)]
      · -- The places of the first word, and then those of the later rounds.
        calc s₂.stored
            = s.stored ++ ((List.range (min 4 s.cnt)).map (s.cnt - 1 - ·) ++
                (List.range (s.cnt - 4)).map (s.cnt - 4 - 1 - ·)) := by
              rw [hstored₂, hstored₁, List.append_assoc, hcnt₁]
          _ = s.stored ++ (List.range s.cnt).map (s.cnt - 1 - ·) := by rw [← range_map_sub]
    · exact ⟨s, by simp [show s.cnt = 0 by omega], rfl, by omega, fun _ _ => rfl,
        by simp [show s.cnt = 0 by omega]⟩

/-- Where the byte at each place of the filled part comes from. -/
theorem origin_of_filled {out : ℕ → Fin 4 → β} {n cnt : ℕ} {arr : List β}
    (hnew : ∀ j, j < cnt → arr[cnt - 1 - j]? = some (out (n + j / 4) ⟨3 - j % 4, by omega⟩)) {x : ℕ}
    (hx : x < cnt) :
    ∃ i : Fin 4, i.val = 3 - (cnt - 1 - x) % 4 ∧ arr[x]? = some (out (n + (cnt - 1 - x) / 4) i) := by
  have hj := hnew (cnt - 1 - x) (by omega)
  rw [show cnt - 1 - (cnt - 1 - x) = x by omega] at hj
  exact ⟨_, rfl, hj⟩

/-- The filled part does not depend on anything but the words. -/
theorem take_eq_of_filled {out : ℕ → Fin 4 → β} {n cnt : ℕ} {arr arr' : List β}
    (hnew : ∀ j, j < cnt → arr[cnt - 1 - j]? = some (out (n + j / 4) ⟨3 - j % 4, by omega⟩))
    (hnew' : ∀ j, j < cnt → arr'[cnt - 1 - j]? = some (out (n + j / 4) ⟨3 - j % 4, by omega⟩)) :
    arr.take cnt = arr'.take cnt := by
  refine List.ext_getElem? fun x => ?_
  rcases lt_or_ge x cnt with hx | hx
  · obtain ⟨i, hi, heq⟩ := origin_of_filled hnew hx
    obtain ⟨i', hi', heq'⟩ := origin_of_filled hnew' hx
    obtain rfl : i = i' := Fin.ext (hi.trans hi'.symm)
    rw [List.getElem?_take_of_lt hx, List.getElem?_take_of_lt hx, heq, heq']
  · rw [List.getElem?_take_eq_none hx, List.getElem?_take_eq_none hx]

/-- Every byte of the filled part is a byte of one of the words drawn. -/
theorem word_of_filled {out : ℕ → Fin 4 → β} {n cnt : ℕ} {arr : List β}
    (hnew : ∀ j, j < cnt → arr[cnt - 1 - j]? = some (out (n + j / 4) ⟨3 - j % 4, by omega⟩)) {b : β}
    (hb : b ∈ arr.take cnt) : ∃ m i, n ≤ m ∧ m < n + (cnt + 3) / 4 ∧ out m i = b := by
  obtain ⟨x, hx⟩ := List.mem_iff_getElem?.mp hb
  have hxlt : x < cnt := by
    have hlt := (List.getElem?_eq_some_iff.mp hx).1
    rw [List.length_take] at hlt
    omega
  rw [List.getElem?_take_of_lt hxlt] at hx
  obtain ⟨i, -, hi⟩ := origin_of_filled hnew hxlt
  exact ⟨_, i, by omega, by omega, Option.some_inj.mp (hi.symm.trans hx)⟩

/-- If the bytes of the output are named by their positions, those of the filled part are distinct. -/
theorem nodup_of_filled {out : ℕ → Fin 4 → β} (hout : Function.Injective2 out) {n cnt : ℕ}
    {arr : List β}
    (hnew : ∀ j, j < cnt → arr[cnt - 1 - j]? = some (out (n + j / 4) ⟨3 - j % 4, by omega⟩)) :
    (arr.take cnt).Nodup := by
  rw [List.nodup_iff_getElem?_ne_getElem?]
  intro x y hxy hy heq
  rw [List.length_take] at hy
  rw [List.getElem?_take_of_lt (by omega), List.getElem?_take_of_lt (by omega)] at heq
  obtain ⟨i, hi, hx'⟩ := origin_of_filled hnew (show x < cnt by omega)
  obtain ⟨j, hj, hy'⟩ := origin_of_filled hnew (show y < cnt by omega)
  rw [hx', hy', Option.some_inj] at heq
  -- The same byte of the same word only goes to one place.
  obtain ⟨hword, rfl⟩ := hout heq
  omega

/-- The bytes of the first `n` words of the output. -/
def drawn (out : ℕ → Fin 4 → β) (n : ℕ) : Set β := {b | ∃ m < n, ∃ i, out m i = b}

/-- If the bytes of the output are named by their positions, `PRNG` never fetches one twice. -/
theorem fresh {out : ℕ → Fin 4 → β} (hout : Function.Injective2 out) (cnt : ℕ) :
    (rng out).Fresh (drawn out) cnt := by
  intro n arr hlen
  obtain ⟨s, hs, hlen', hnew, -, -⟩ :=
    fetchLoop_spec out cnt n ⟨arr, cnt, []⟩ le_rfl (by simp only; omega)
  simp only at hlen' hnew hs
  have htake : s.arr.take cnt = s.arr := List.take_of_length_le (by omega)
  refine ⟨n + (cnt + 3) / 4, s.arr, ?_, hlen'.trans hlen, ?_, ?_, ?_⟩
  · simp [rng, hs, bind, Except.bind, pure, Except.pure]
  · rw [← htake]
    exact nodup_of_filled hout hnew
  · intro b hb
    rw [← htake] at hb
    obtain ⟨m, i, hm, hlt, rfl⟩ := word_of_filled hnew hb
    refine ⟨?_, m, hlt, i, rfl⟩
    rintro ⟨m', hm', j, heq⟩
    obtain ⟨hword, -⟩ := hout heq
    omega
  · rintro b ⟨m, hm, i, rfl⟩
    exact ⟨m, by omega, i, rfl⟩

/-- `fetch_bytes` fills the part of the buffer that is wanted with bytes of the output, and with no byte
twice. It ends without leaving its arrays, has then drawn a word for every four bytes or part of four,
has put byte `3 - j % 4` of word `j / 4` at the place `j` before the last, and has stored to each place
of the part once and to no other. What was in the buffer before does not matter. The next call, for any
number of bytes, uses other words. -/
theorem fetch_bytes_fills (out : ℕ → Fin 4 → β) (n cnt : ℕ) {arr : List β}
    (hcnt : cnt ≤ arr.length) :
    ∃ s : Fill β, fetchLoop out cnt n ⟨arr, cnt, []⟩ = .ok (n + (cnt + 3) / 4, s) ∧
      s.arr.length = arr.length ∧
      (∀ j, j < cnt → s.arr[cnt - 1 - j]? = some (out (n + j / 4) ⟨3 - j % 4, by omega⟩)) ∧
      (∀ x, cnt ≤ x → s.arr[x]? = arr[x]?) ∧
      s.stored.Perm (List.range cnt) ∧
      (∀ arr' : List β, cnt ≤ arr'.length → ∃ s' : Fill β,
        fetchLoop out cnt n ⟨arr', cnt, []⟩ = .ok (n + (cnt + 3) / 4, s') ∧
          s'.arr.take cnt = s.arr.take cnt) ∧
      (Function.Injective2 out → (s.arr.take cnt).Nodup ∧
        ∀ (cnt' : ℕ) (arr' : List β), cnt' ≤ arr'.length → ∃ n' s',
          fetchLoop out cnt' (n + (cnt + 3) / 4) ⟨arr', cnt', []⟩ = .ok (n', s') ∧
            (∀ m i, out m i ∈ s.arr.take cnt → m < n + (cnt + 3) / 4) ∧
            ∀ m i, out m i ∈ s'.arr.take cnt' → n + (cnt + 3) / 4 ≤ m) := by
  obtain ⟨s, hs, hlen, hnew, hold, hstored⟩ := fetchLoop_spec out cnt n ⟨arr, cnt, []⟩ le_rfl hcnt
  simp only at hs hlen hnew hold
  refine ⟨s, hs, hlen, hnew, hold, ?_, ?_, ?_⟩
  · -- The places from the last on are the places from the first on, reversed.
    have hreverse : s.stored = (List.range cnt).reverse := by
      have hrange : (List.range' 0 cnt).reverse = _ := List.reverse_range'
      rw [← List.range_eq_range'] at hrange
      simpa [hrange] using hstored
    rw [hreverse]
    exact List.reverse_perm _
  · intro arr' hcnt'
    obtain ⟨s', hs', hlen', hnew', -, -⟩ := fetchLoop_spec out cnt n ⟨arr', cnt, []⟩ le_rfl hcnt'
    simp only at hs' hlen' hnew'
    exact ⟨s', hs', take_eq_of_filled hnew' hnew⟩
  · intro hout
    refine ⟨nodup_of_filled hout hnew, fun cnt' arr' hcnt' => ?_⟩
    obtain ⟨s', hs', -, hnew', -, -⟩ :=
      fetchLoop_spec out cnt' (n + (cnt + 3) / 4) ⟨arr', cnt', []⟩ le_rfl hcnt'
    simp only at hs' hnew'
    refine ⟨_, s', hs', ?_, ?_⟩
    · intro m i hm
      obtain ⟨m', j, -, hlt, heq⟩ := word_of_filled hnew hm
      rwa [← (hout heq).1]
    · intro m i hm
      obtain ⟨m', j, hle, -, heq⟩ := word_of_filled hnew' hm
      rwa [← (hout heq).1]

/-- The theorem for six of the seven bytes of a buffer, filled from two words. -/
theorem fetch_bytes_fills_six :
    ∃ s : Fill UInt8, fetchLoop (fun n => littleEndian (0x04030201 + n.toUInt32)) 6 0
        ⟨[9, 9, 9, 9, 9, 9, 9], 6, []⟩ = .ok (2, s) ∧
      s.arr[0]? = some 3 ∧ s.arr[1]? = some 4 ∧ s.arr[2]? = some 1 ∧ s.arr[3]? = some 2 ∧
      s.arr[4]? = some 3 ∧ s.arr[5]? = some 4 ∧ s.arr[6]? = some 9 := by
  have hcnt : 6 ≤ ([9, 9, 9, 9, 9, 9, 9] : List UInt8).length := by decide
  obtain ⟨s, hs, -, hnew, hold, -⟩ := fetch_bytes_fills
    (fun n => littleEndian (0x04030201 + n.toUInt32)) 0 6 hcnt
  exact ⟨s, hs, hnew 5 (by decide), hnew 4 (by decide), hnew 3 (by decide), hnew 2 (by decide),
    hnew 1 (by decide), hnew 0 (by decide), hold 6 le_rfl⟩

end PRNG

end QrngDevice
