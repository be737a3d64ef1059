import Mathlib.Data.Nat.Bitwise
import Mathlib.Logic.Function.Iterate

/-!
# Mersenne twisters

The engine template `std::mersenne_twister_engine` of C++, with its parameters under their names in the
standard. An engine holds the last `n` words of a sequence. A call computes the next word of it from
three of these (`Engine.new`), and returns it tempered.

Tempering can be undone (`temper_injective`), and so can the recurrence, up to some bits of the first
word (`Follows.eq_before`). So `n` results in a row, anywhere in the output of an engine, fix the words
of its sequence (`Engine.word_eq_of_window`), and if it was seeded with a value, this value
(`seed_eq_of_window`).
-/

/-! ## Words -/

section

variable {w : ℕ}

/-- The exclusive or with the word shifted down, under a mask, can be undone. -/
theorem xor_shiftRight_and_injective {u : ℕ} (hu : 0 < u) (d : BitVec w) :
    Function.Injective fun x : BitVec w => x ^^^ x >>> u &&& d := by
  intro x y hxy
  -- From the top bit down: each bit is mixed with a higher one.
  have hbit : ∀ k i, w - k ≤ i → x.getLsbD i = y.getLsbD i := by
    intro k
    induction k with
    | zero => intro i hi; rw [BitVec.getLsbD_of_ge _ _ (by omega), BitVec.getLsbD_of_ge _ _ (by omega)]
    | succ k ih =>
      intro i hi
      have h := congrArg (·.getLsbD i) hxy
      simp only [BitVec.getLsbD_xor, BitVec.getLsbD_and, BitVec.getLsbD_ushiftRight] at h
      rw [ih (u + i) (by omega)] at h
      exact Bool.xor_left_inj.mp h
  exact BitVec.eq_of_getLsbD_eq fun i _ => hbit w i (by omega)

/-- The exclusive or with the word shifted up, under a mask, can be undone. -/
theorem xor_shiftLeft_and_injective {s : ℕ} (hs : 0 < s) (b : BitVec w) :
    Function.Injective fun x : BitVec w => x ^^^ x <<< s &&& b := by
  intro x y hxy
  -- From the lowest bit up.
  refine BitVec.eq_of_getLsbD_eq fun i => ?_
  induction i using Nat.strong_induction_on with
  | _ i ih =>
    intro hi
    have h := congrArg (·.getLsbD i) hxy
    simp only [BitVec.getLsbD_xor, BitVec.getLsbD_and, BitVec.getLsbD_shiftLeft] at h
    rcases Nat.lt_or_ge i s with his | his
    · simpa [his] using h
    · rw [ih (i - s) (by omega) (by omega)] at h
      exact Bool.xor_left_inj.mp h

/-- The exclusive or with the word shifted down can be undone. -/
theorem xor_shiftRight_injective {u : ℕ} (hu : 0 < u) :
    Function.Injective fun x : BitVec w => x ^^^ x >>> u := by
  have h := xor_shiftRight_and_injective (w := w) hu (BitVec.allOnes w)
  simpa only [BitVec.and_allOnes] using h

end

/-! ## Engines -/

/-- The parameters of an engine, named as in the template. -/
structure MersenneTwister where
  /-- `word_size`. -/
  w : ℕ
  /-- `state_size`. -/
  n : ℕ
  /-- `shift_size`. -/
  m : ℕ
  /-- `mask_bits`. -/
  r : ℕ
  /-- `xor_mask`. -/
  a : BitVec w
  /-- `tempering_u`. -/
  u : ℕ
  /-- `tempering_d`. -/
  d : BitVec w
  /-- `tempering_s`. -/
  s : ℕ
  /-- `tempering_b`. -/
  b : BitVec w
  /-- `tempering_t`. -/
  t : ℕ
  /-- `tempering_c`. -/
  c : BitVec w
  /-- `tempering_l`. -/
  l : ℕ
  /-- `initialization_multiplier`. -/
  f : BitVec w
  /-- The recurrence looks back less far for the word it shifts in than for the first two. -/
  m_pos : 0 < m
  /-- It looks at words that are there. -/
  m_lt : m < n

namespace MersenneTwister

variable {P : MersenneTwister}

/-- The state of an engine. -/
structure Engine (P : MersenneTwister) where
  /-- The last words of the sequence, from the first to the last. -/
  x : List (BitVec P.w)
  /-- There are `n`. -/
  length_x : x.length = P.n

/-- The upper `w - r` bits of `x` and the lower `r` bits of `y`. -/
def join (x y : BitVec P.w) : BitVec P.w :=
  x &&& ~~~BitVec.ofNat P.w (2 ^ P.r - 1) ||| y &&& BitVec.ofNat P.w (2 ^ P.r - 1)

/-- A shift by one bit, with `a` for the bit that is lost. -/
def twist (y : BitVec P.w) : BitVec P.w := y >>> 1 ^^^ if y.getLsbD 0 then P.a else 0

/-- The result for a word of the sequence. -/
def temper (x : BitVec P.w) : BitVec P.w :=
  let y := x ^^^ x >>> P.u &&& P.d
  let y := y ^^^ y <<< P.s &&& P.b
  let y := y ^^^ y <<< P.t &&& P.c
  y ^^^ y >>> P.l

namespace Engine

/-- There is a word at each index below `n`. -/
def get (e : Engine P) (i : ℕ) (hi : i < P.n) : BitVec P.w := e.x.get ⟨i, e.length_x ▸ hi⟩

/-- The next word of the sequence. -/
def new (e : Engine P) : BitVec P.w :=
  have hpos := P.m_pos
  have hlt := P.m_lt
  e.get P.m hlt ^^^ twist (join (e.get 0 (by omega)) (e.get 1 (by omega)))

/-- `operator()`: the result, and the state after the call. -/
def next (e : Engine P) : BitVec P.w × Engine P where
  fst := temper e.new
  snd.x := e.x.tail ++ [e.new]
  snd.length_x := by
    have hlt := P.m_lt
    have hlen := e.length_x
    simp only [List.length_append, List.length_tail, List.length_singleton]
    omega

/-- The state after `k` calls. -/
def after (e : Engine P) (k : ℕ) : Engine P := (fun e => e.next.2)^[k] e

/-- The result of the call after `k` others. -/
def output (e : Engine P) (k : ℕ) : BitVec P.w := (e.after k).next.1

/-- Word `k` of the sequence of which the state has the first `n` words. -/
def word (e : Engine P) (k : ℕ) : BitVec P.w := (e.after k).get 0 (Nat.zero_lt_of_lt P.m_lt)

end Engine

/-- Word `i` of the state that an engine is seeded with. -/
def seedWord (value : BitVec P.w) : ℕ → BitVec P.w
  | 0 => value
  | i + 1 =>
    let x := seedWord value i
    P.f * (x ^^^ x >>> (P.w - 2)) + BitVec.ofNat P.w (i + 1)

/-- The engine seeded with `value`. -/
def seed (value : BitVec P.w) : Engine P where
  x := (List.range P.n).map (seedWord value)
  length_x := by rw [List.length_map, List.length_range]

/-! ## The sequence -/

namespace Engine

theorem after_succ (e : Engine P) (k : ℕ) : e.after (k + 1) = (e.after k).next.2 :=
  Function.iterate_succ_apply' _ _ _

/-- A call moves each word down by one place. -/
theorem get_next (e : Engine P) {i : ℕ} (hi : i + 1 < P.n) :
    e.next.2.get i (by omega) = e.get (i + 1) hi := by
  have hlen := e.length_x
  simp only [get, next, List.get_eq_getElem]
  rw [List.getElem_append_left (by rw [List.length_tail]; omega), List.getElem_tail]

/-- The new word is the last one of the state. -/
theorem get_next_last (e : Engine P) :
    e.next.2.get (P.n - 1) (Nat.sub_lt (Nat.zero_lt_of_lt P.m_lt) Nat.one_pos) = e.new := by
  have hlen := e.length_x
  simp only [get, next, List.get_eq_getElem]
  rw [List.getElem_append_right (by rw [List.length_tail, hlen]), List.getElem_singleton]

/-- The state after `k` calls has the words from `k` on. -/
theorem get_after (e : Engine P) (k i : ℕ) (hi : i < P.n) : (e.after k).get i hi = e.word (k + i) := by
  induction i generalizing k with
  | zero => rfl
  | succ i ih => rw [← get_next, ← after_succ, ih, Nat.add_right_comm, Nat.add_assoc]

/-- The word that a call computes. -/
theorem new_after (e : Engine P) (k : ℕ) : (e.after k).new = e.word (k + P.n) := by
  have hlt := P.m_lt
  rw [← get_next_last, ← after_succ, get_after, show k + 1 + (P.n - 1) = k + P.n by omega]

/-- The result of a call. -/
theorem output_eq (e : Engine P) (k : ℕ) : e.output k = temper (e.word (k + P.n)) := by
  rw [← new_after]
  rfl

end Engine

/-- A sequence follows the recurrence of the engine. -/
def Follows (P : MersenneTwister) (x : ℕ → BitVec P.w) : Prop :=
  ∀ k, x (k + P.n) = x (k + P.m) ^^^ twist (join (x k) (x (k + 1)))

/-- The sequence of an engine does. -/
theorem Engine.follows (e : Engine P) : P.Follows e.word := by
  intro k
  have hpos := P.m_pos
  have hlt := P.m_lt
  rw [← new_after, new, get_after e k P.m hlt, get_after e k 0, get_after e k 1, Nat.add_zero]

/-! ## Which results fix the others -/

/-- No step of the engine loses bits: the shifts of the tempering are not by zero, the highest bit of `a`
tells which bit was lost, and `m` is not 1, so that no step needs a word that is yet to be found. -/
structure Invertible (P : MersenneTwister) : Prop where
  u_pos : 0 < P.u
  s_pos : 0 < P.s
  t_pos : 0 < P.t
  l_pos : 0 < P.l
  msb_a : P.a.msb = true
  one_lt_m : 1 < P.m

/-- Tempering can be undone. -/
theorem temper_injective (h : P.Invertible) : Function.Injective (temper : BitVec P.w → _) := by
  have hcomp := (xor_shiftRight_injective (w := P.w) h.l_pos).comp
    ((xor_shiftLeft_and_injective h.t_pos P.c).comp
      ((xor_shiftLeft_and_injective h.s_pos P.b).comp (xor_shiftRight_and_injective h.u_pos P.d)))
  exact hcomp

/-- A twist can be undone. -/
theorem twist_injective (h : P.Invertible) : Function.Injective (twist : BitVec P.w → _) := by
  intro y z hyz
  have hbit := fun i => congrArg (·.getLsbD i) hyz
  simp only [twist, BitVec.getLsbD_xor, BitVec.getLsbD_ushiftRight] at hbit
  have hmsb : P.a.getLsbD (P.w - 1) = true := (BitVec.msb_eq_getLsbD_last _).symm.trans h.msb_a
  -- The highest bit of the result is the lowest bit of the word.
  have hlow : y.getLsbD 0 = z.getLsbD 0 := by
    have htop := hbit (P.w - 1)
    rw [BitVec.getLsbD_of_ge y _ (by omega), BitVec.getLsbD_of_ge z _ (by omega)] at htop
    cases hy : y.getLsbD 0 <;> cases hz : z.getLsbD 0 <;> simp_all
  refine BitVec.eq_of_getLsbD_eq fun i _ => ?_
  cases i with
  | zero => exact hlow
  | succ i =>
    have h := hbit i
    rw [hlow, Nat.add_comm] at h
    exact Bool.xor_left_inj.mp h

/-- The bits of a joined word. -/
theorem getLsbD_join (x y : BitVec P.w) {i : ℕ} (hi : i < P.w) :
    (join x y).getLsbD i = if i < P.r then y.getLsbD i else x.getLsbD i := by
  simp only [join, BitVec.getLsbD_or, BitVec.getLsbD_and, BitVec.getLsbD_not, BitVec.getLsbD_ofNat,
    Nat.testBit_two_pow_sub_one]
  split_ifs with hr <;> simp [hi, hr]

/-- The words from `k` on fix the later ones. -/
theorem Follows.eq_forward {x y : ℕ → BitVec P.w} (hx : P.Follows x) (hy : P.Follows y) {k : ℕ}
    (h : ∀ i < P.n, x (k + i) = y (k + i)) (i : ℕ) : x (k + i) = y (k + i) := by
  have hpos := P.m_pos
  have hlt := P.m_lt
  induction i using Nat.strong_induction_on with
  | _ i ih =>
    rcases Nat.lt_or_ge i P.n with hi | hi
    · exact h i hi
    · have hk : k + i = k + (i - P.n) + P.n := by omega
      rw [hk, hx, hy, Nat.add_assoc k, Nat.add_assoc k, ih _ (by omega), ih _ (by omega),
        ih _ (by omega)]

/-- The words from `k + 2` on fix the one before them. -/
theorem Follows.eq_before (hinv : P.Invertible) {x y : ℕ → BitVec P.w} (hx : P.Follows x)
    (hy : P.Follows y) {k : ℕ} (h : ∀ i < P.n, x (k + 2 + i) = y (k + 2 + i)) :
    x (k + 1) = y (k + 1) := by
  have hone := hinv.one_lt_m
  have hlt := P.m_lt
  -- The words of which a later one is made agree in the bits that are used.
  have hjoin : ∀ j ≤ 1, join (x (k + j)) (x (k + j + 1)) = join (y (k + j)) (y (k + j + 1)) := by
    intro j hj
    apply twist_injective hinv
    have hn := h (j + P.n - 2) (by omega)
    have hm := h (j + P.m - 2) (by omega)
    rw [show k + 2 + (j + P.n - 2) = k + j + P.n by omega, hx, hy] at hn
    rw [show k + 2 + (j + P.m - 2) = k + j + P.m by omega] at hm
    rw [hm] at hn
    exact (BitVec.xor_right_inj _).mp hn
  refine BitVec.eq_of_getLsbD_eq fun i hi => ?_
  rcases Nat.lt_or_ge i P.r with hr | hr
  · have hlow := congrArg (·.getLsbD i) (hjoin 0 (by omega))
    simpa only [Nat.add_zero, getLsbD_join _ _ hi, if_pos hr] using hlow
  · have hhigh := congrArg (·.getLsbD i) (hjoin 1 le_rfl)
    simpa only [getLsbD_join _ _ hi, if_neg (Nat.not_lt.mpr hr)] using hhigh

/-- Words in a row fix all others but the first one. -/
theorem Follows.eq_of_window (hinv : P.Invertible) {x y : ℕ → BitVec P.w} (hx : P.Follows x)
    (hy : P.Follows y) {k : ℕ} (h : ∀ i < P.n, x (k + 1 + i) = y (k + 1 + i)) (i : ℕ) :
    x (i + 1) = y (i + 1) := by
  induction k with
  | zero =>
    have hfirst := hx.eq_forward hy h i
    rwa [Nat.zero_add, Nat.add_comm] at hfirst
  | succ k ih =>
    refine ih fun j hj => ?_
    cases j with
    | zero => exact hx.eq_before hinv hy h
    | succ j =>
      have hnext := h j (by omega)
      rwa [show k + 1 + (j + 1) = k + 1 + 1 + j by omega]

/-- As many results in a row as the state has words, anywhere in the output of an engine, fix all words
of its sequence but the first one. -/
theorem Engine.word_eq_of_window (hinv : P.Invertible) {e e' : Engine P} {k : ℕ}
    (h : ∀ i < P.n, e.output (k + i) = e'.output (k + i)) (i : ℕ) :
    e.word (i + 1) = e'.word (i + 1) := by
  have hlt := P.m_lt
  refine e.follows.eq_of_window hinv e'.follows (k := k + (P.n - 1)) (fun j hj => ?_) i
  have hout := temper_injective hinv (e.output_eq (k + j) ▸ e'.output_eq (k + j) ▸ h j hj)
  rwa [show k + (P.n - 1) + 1 + j = k + j + P.n by omega]

/-- The first words of the sequence of a seeded engine. -/
theorem word_seed (value : BitVec P.w) {i : ℕ} (hi : i < P.n) :
    (seed value : Engine P).word i = seedWord value i := by
  have hget := Engine.get_after (seed value : Engine P) 0 i hi
  rw [Nat.zero_add] at hget
  rw [← hget]
  simp [Engine.after, Engine.get, seed]

/-- They fix the value that the engine was seeded with, if the multiplier has an inverse. -/
theorem seed_eq_of_window (hinv : P.Invertible) (hw : 2 < P.w) {g : BitVec P.w} (hg : g * P.f = 1#P.w)
    {value value' : BitVec P.w} {k : ℕ}
    (h : ∀ i < P.n, (seed value : Engine P).output (k + i) = (seed value' : Engine P).output (k + i)) :
    value = value' := by
  have hone := hinv.one_lt_m
  have hlt := P.m_lt
  have hword := Engine.word_eq_of_window hinv h 0
  rw [word_seed _ (by omega), word_seed _ (by omega)] at hword
  simp only [seedWord, BitVec.add_left_inj] at hword
  have hmul := congrArg (g * ·) hword
  simp only [← BitVec.mul_assoc, hg, BitVec.one_mul] at hmul
  exact xor_shiftRight_injective (show 0 < P.w - 2 by omega) hmul

end MersenneTwister
