import Mathlib.Algebra.GroupWithZero.Nat
import QrngDevice.Service.Prng

/-!
# `write_random_bytes`

The userspace service of `userspace/src/main.cpp` keeps fetched bytes in `qrng_buff` and offers the
256 bytes of `qrng_write_arr` to the device, again and again. Before each `write` it renews the bytes
that the last one took. `prepare` is this part of `write_random_bytes`, and `finish` the part after
the `write`, whose result is an argument: in `Service/System.lean` it comes from the driver.

`write_random_bytes_conserves` accounts for every byte fetched. After any sequence of calls, it has
been accepted by the device, or it waits in `qrng_write_arr` or in `qrng_buff`, and only one of these.

The state records, beside the variables of the service, which bytes have been fetched and accepted,
and which were still in `qrng_buff` when it was filled anew. No step depends on these records.
-/

namespace QrngDevice

/-- `REQUEST_SIZE`. -/
abbrev REQUEST_SIZE : ℕ := 516

/-- `WRITE_SIZE`. -/
abbrev WRITE_SIZE : ℕ := 256

/-- The global variables of the service, and the records of the bytes that it moves. -/
structure Service (β G : Type) where
  /-- The state of `rng`. -/
  rng : G
  /-- `qrng_buff`. -/
  qrngBuff : List β
  /-- `qrng_buff_read_it`. -/
  qrngBuffReadIt : ℕ
  /-- `qrng_write_arr`. -/
  qrngWriteArr : List β
  /-- `qrng_write_arr_renew`. -/
  qrngWriteArrRenew : ℕ
  /-- The bytes fetched so far, in order. -/
  fetched : List β
  /-- The bytes that the device has accepted so far, in order. -/
  accepted : List β
  /-- The bytes of `qrng_buff` from the cursor on, at each fetch so far. -/
  overwritten : List β

namespace Service

variable {β G : Type}

/-- The service when it is started. -/
def init [Zero β] (g : G) : Service β G where
  rng := g
  qrngBuff := List.replicate REQUEST_SIZE 0
  qrngBuffReadIt := REQUEST_SIZE
  qrngWriteArr := List.replicate WRITE_SIZE 0
  qrngWriteArrRenew := WRITE_SIZE
  fetched := []
  accepted := []
  overwritten := []

/-- The fetch at the head of a round of the loop of `write_random_bytes`, if one is due. -/
def refill (rng : RNG β G) (s : Service β G) : Except Stop (Service β G) :=
  if s.qrngBuffReadIt = REQUEST_SIZE then do
    let (g, buff) ← rng.fetchBytes s.rng s.qrngBuff REQUEST_SIZE
    return { s with
      rng := g
      -- `qrng_buff_read_it = 0`: what was left in the buffer is lost.
      qrngBuff := buff
      qrngBuffReadIt := 0
      fetched := s.fetched ++ buff
      overwritten := s.overwritten ++ s.qrngBuff.drop s.qrngBuffReadIt }
  else return s

/-- The rest of the round: `qrng_write_arr[it++] = qrng_buff[qrng_buff_read_it++]`. -/
def move (it : ℕ) (s : Service β G) : Except Stop (Service β G) := do
  let b ← load s.qrngBuff s.qrngBuffReadIt
  let arr ← store s.qrngWriteArr it b
  return { s with qrngWriteArr := arr, qrngBuffReadIt := s.qrngBuffReadIt + 1 }

/-- The loop of `write_random_bytes` from `qrng_write_arr_it = it` on, for at most as many rounds as
its first argument after the generator. -/
def renewLoop (rng : RNG β G) : ℕ → ℕ → Service β G → Except Stop (Service β G)
  | 0, _, s => return s
  | rounds + 1, it, s =>
    if it < s.qrngWriteArrRenew then do
      let s ← s.refill rng
      let s ← s.move it
      renewLoop rng rounds (it + 1) s
    else return s

/-- `write_random_bytes` up to the call of `write`. Every round of its loop increments
`qrng_write_arr_it`, so `qrng_write_arr_renew` bounds the rounds. -/
def prepare (rng : RNG β G) (s : Service β G) : Except Stop (Service β G) :=
  renewLoop rng s.qrngWriteArrRenew 0 s

/-- `write_random_bytes` after the call of `write`, with its result `wres`. The device has taken the
first `wres` bytes of `qrng_write_arr`. -/
def finish (wres : ℤ) (s : Service β G) : Except Stop (Service β G) :=
  if wres < 0 then .error .abort
  -- A result of 0 is no error here: the next call then renews nothing.
  else return { s with
    qrngWriteArrRenew := wres.toNat
    accepted := s.accepted ++ s.qrngWriteArr.take wres.toNat }

/-- `write_random_bytes`, where `write` returns `wres`. -/
def writeRandomBytes (rng : RNG β G) (wres : ℤ) (s : Service β G) : Except Stop (Service β G) := do
  let s ← s.prepare rng
  s.finish wres

/-- A sequence of calls of `write_random_bytes`, in which `write` returns `wress`. -/
def calls (rng : RNG β G) : List ℤ → Service β G → Except Stop (Service β G)
  | [], s => return s
  | wres :: wress, s => do
    let s ← s.writeRandomBytes rng wres
    calls rng wress s

/-! ## The rules of the loops -/

section

variable {rng : RNG β G} {it : ℕ} {s : Service β G}

/-- A description `J it s` of the service that every round of the loop of `write_random_bytes` takes
from `it` to `it + 1` holds at the end of the loop. -/
theorem renewLoop_rule {J : ℕ → Service β G → Prop}
    (hround : ∀ it s, J it s → it < s.qrngWriteArrRenew → ∃ s₁ s₂, s.refill rng = .ok s₁ ∧
      s₁.move it = .ok s₂ ∧ J (it + 1) s₂ ∧ s₂.qrngWriteArrRenew = s.qrngWriteArrRenew)
    (rounds : ℕ) (h : J it s) (hit : it ≤ s.qrngWriteArrRenew)
    (hrounds : s.qrngWriteArrRenew - it ≤ rounds) :
    ∃ s', s.renewLoop rng rounds it = .ok s' ∧ J s.qrngWriteArrRenew s' ∧
      s'.qrngWriteArrRenew = s.qrngWriteArrRenew := by
  induction rounds generalizing it s with
  | zero =>
    obtain rfl : it = s.qrngWriteArrRenew := by omega
    exact ⟨s, rfl, h, rfl⟩
  | succ rounds ih =>
    rw [Service.renewLoop]
    split_ifs with hlt
    · -- One round, and then the rest of the loop.
      obtain ⟨s₁, s₂, hs₁, hs₂, h₂, hrenew⟩ := hround it s h hlt
      obtain ⟨s₃, hs₃, h₃, hrenew₃⟩ := ih h₂ (by omega) (by omega)
      rw [hrenew] at h₃ hrenew₃
      simp only [hs₁, hs₂, bind, Except.bind]
      exact ⟨s₃, hs₃, h₃, hrenew₃⟩
    · obtain rfl : it = s.qrngWriteArrRenew := by omega
      exact ⟨s, rfl, h, rfl⟩

/-- A description `K n s` of the service that every call takes from `n` to `n + k`, where `k` is what its
`write` returns, holds at the end of a sequence of calls. -/
theorem calls_rule {K : ℕ → Service β G → Prop}
    (hcall : ∀ n s k, K n s → k ≤ WRITE_SIZE →
      ∃ s', s.writeRandomBytes rng k = .ok s' ∧ K (n + k) s')
    {ks : List ℕ} (hks : ∀ k ∈ ks, k ≤ WRITE_SIZE) {n : ℕ} (h : K n s) :
    ∃ s', s.calls rng (ks.map (↑)) = .ok s' ∧ K (n + ks.sum) s' := by
  induction ks generalizing s n with
  | nil => exact ⟨s, rfl, h⟩
  | cons k ks ih =>
    obtain ⟨hk, hks⟩ := List.forall_mem_cons.mp hks
    obtain ⟨s₁, hs₁, h₁⟩ := hcall n s k h hk
    obtain ⟨s₂, hs₂, h₂⟩ := ih hks h₁
    refine ⟨s₂, ?_, ?_⟩
    · simp only [List.map_cons, Service.calls, hs₁, bind, Except.bind]
      exact hs₂
    · rwa [List.sum_cons, ← Nat.add_assoc]

end

/-! ## The account of the bytes -/

/-- In the loop of `write_random_bytes`, the places of `qrng_write_arr` before `it` are renewed, and
those from `it` up to `qrng_write_arr_renew` hold bytes already accepted. Every byte fetched is
accepted, or waits in another place of `qrng_write_arr`, or waits in `qrng_buff`. -/
structure Accounted (drawn : G → Set β) (it : ℕ) (s : Service β G) : Prop where
  /-- `qrng_buff` has its size. -/
  buff_length : s.qrngBuff.length = REQUEST_SIZE
  /-- `qrng_write_arr` has its size. -/
  arr_length : s.qrngWriteArr.length = WRITE_SIZE
  /-- `qrng_buff_read_it` is at a place of `qrng_buff`, or at its end. -/
  readIt_le : s.qrngBuffReadIt ≤ REQUEST_SIZE
  /-- `qrng_write_arr_it` does not pass `qrng_write_arr_renew`. -/
  it_le : it ≤ s.qrngWriteArrRenew
  /-- `qrng_write_arr_renew` is at a place of `qrng_write_arr`, or at its end. -/
  renew_le : s.qrngWriteArrRenew ≤ WRITE_SIZE
  /-- Every byte fetched is somewhere, and nowhere twice. -/
  perm : s.fetched.Perm (s.accepted ++
    (s.qrngWriteArr.take it ++ s.qrngWriteArr.drop s.qrngWriteArrRenew) ++
    s.qrngBuff.drop s.qrngBuffReadIt)
  /-- No byte was fetched twice. -/
  nodup : s.fetched.Nodup
  /-- The bytes fetched are bytes drawn. -/
  drawn_of_fetched : ∀ b ∈ s.fetched, b ∈ drawn s.rng
  /-- No byte was overwritten before it had been moved. -/
  overwritten_eq : s.overwritten = []

variable {rng : RNG β G} {drawn : G → Set β} {it : ℕ} {s : Service β G}

/-- The service starts with nothing. -/
theorem accounted_init [Zero β] (drawn : G → Set β) (g : G) :
    Accounted drawn 0 (init g : Service β G) where
  buff_length := List.length_replicate
  arr_length := List.length_replicate
  readIt_le := le_rfl
  it_le := Nat.zero_le _
  renew_le := le_rfl
  perm := by simp [init]
  nodup := List.nodup_nil
  drawn_of_fetched := by simp [init]
  overwritten_eq := rfl

/-- A fetch, if one is due, keeps the account, and leaves a byte in `qrng_buff`. -/
theorem Accounted.refill (hfresh : rng.Fresh drawn REQUEST_SIZE) (h : Accounted drawn it s) :
    ∃ s', s.refill rng = .ok s' ∧ Accounted drawn it s' ∧ s'.qrngBuffReadIt < REQUEST_SIZE ∧
      s'.qrngWriteArrRenew = s.qrngWriteArrRenew ∧ s'.accepted = s.accepted := by
  unfold Service.refill
  split_ifs with hdue
  · obtain ⟨g, buff, hfetch, hlen, hnodup, hnew, hsub⟩ := hfresh s.rng s.qrngBuff h.buff_length
    -- All of `qrng_buff` has been moved, so the fetch overwrites nothing that is needed.
    have hnil : s.qrngBuff.drop s.qrngBuffReadIt = [] :=
      List.drop_eq_nil_of_le (by rw [h.buff_length, hdue])
    have hperm := h.perm
    rw [hnil, List.append_nil] at hperm
    simp only [hfetch, bind, Except.bind]
    refine ⟨_, rfl, ⟨hlen, h.arr_length, Nat.zero_le _, h.it_le, h.renew_le, ?_, ?_, ?_, ?_⟩,
      by simp, rfl, rfl⟩
    · rw [List.drop_zero]
      exact hperm.append_right buff
    · -- The new bytes were never drawn before, and the old ones were.
      refine List.nodup_append'.mpr ⟨h.nodup, hnodup, ?_⟩
      intro b hb hb'
      exact (hnew b hb').1 (h.drawn_of_fetched b hb)
    · intro b hb
      rcases List.mem_append.mp hb with hb | hb
      · exact hsub (h.drawn_of_fetched b hb)
      · exact (hnew b hb).2
    · simp only [h.overwritten_eq, hnil, List.append_nil]
  · have hle := h.readIt_le
    exact ⟨s, rfl, h, by omega, rfl, rfl⟩

/-- Moving a byte from `qrng_buff` to a place to be renewed keeps the account. -/
theorem Accounted.move (h : Accounted drawn it s) (hread : s.qrngBuffReadIt < REQUEST_SIZE)
    (hit : it < s.qrngWriteArrRenew) :
    ∃ s', s.move it = .ok s' ∧ Accounted drawn (it + 1) s' ∧
      s'.qrngWriteArrRenew = s.qrngWriteArrRenew ∧ s'.accepted = s.accepted := by
  have hbuff := h.buff_length
  have harr := h.arr_length
  have hrenew := h.renew_le
  have hread' : s.qrngBuffReadIt < s.qrngBuff.length := by rw [hbuff]; exact hread
  have hstore : it < s.qrngWriteArr.length := by
    rw [harr]
    exact hit.trans_le hrenew
  simp only [Service.move, load_of_getElem? (List.getElem?_eq_getElem hread'),
    store_of_lt _ hstore, bind, Except.bind]
  refine ⟨_, rfl, ⟨hbuff, by rw [List.length_set, harr], hread, hit, hrenew, ?_, h.nodup,
    h.drawn_of_fetched, h.overwritten_eq⟩, rfl, rfl⟩
  -- The byte leaves the front of `qrng_buff` and joins the renewed places.
  have hdrop : s.qrngBuff.drop s.qrngBuffReadIt =
      s.qrngBuff[s.qrngBuffReadIt] :: s.qrngBuff.drop (s.qrngBuffReadIt + 1) :=
    List.drop_eq_getElem_cons hread'
  have htake : (s.qrngWriteArr.set it s.qrngBuff[s.qrngBuffReadIt]).take (it + 1) =
      s.qrngWriteArr.take it ++ [s.qrngBuff[s.qrngBuffReadIt]] := by
    rw [List.take_add_one, List.take_set_of_le le_rfl, List.getElem?_set_self hstore]
    rfl
  have hold : (s.qrngWriteArr.set it s.qrngBuff[s.qrngBuffReadIt]).drop s.qrngWriteArrRenew =
      s.qrngWriteArr.drop s.qrngWriteArrRenew := List.drop_set_of_lt hit
  have hperm := h.perm
  rw [hdrop] at hperm
  simp only [htake, hold]
  refine hperm.trans ?_
  simp only [List.append_assoc, List.singleton_append]
  refine (List.Perm.refl _).append ((List.Perm.refl _).append ?_)
  exact List.perm_middle

/-- The loop of `write_random_bytes` keeps the account, and renews all that is to be renewed. -/
theorem Accounted.renewLoop (hfresh : rng.Fresh drawn REQUEST_SIZE) (rounds : ℕ)
    (h : Accounted drawn it s) (hrounds : s.qrngWriteArrRenew - it ≤ rounds) :
    ∃ s', s.renewLoop rng rounds it = .ok s' ∧ Accounted drawn s.qrngWriteArrRenew s' ∧
      s'.qrngWriteArrRenew = s.qrngWriteArrRenew ∧ s'.accepted = s.accepted := by
  have hround : ∀ it' s', (Accounted drawn it' s' ∧ s'.accepted = s.accepted) →
      it' < s'.qrngWriteArrRenew → ∃ s₁ s₂, s'.refill rng = .ok s₁ ∧ s₁.move it' = .ok s₂ ∧
        (Accounted drawn (it' + 1) s₂ ∧ s₂.accepted = s.accepted) ∧
        s₂.qrngWriteArrRenew = s'.qrngWriteArrRenew := by
    rintro it' s' ⟨h', hacc⟩ hlt
    obtain ⟨s₁, hs₁, h₁, hread, hrenew₁, hacc₁⟩ := h'.refill hfresh
    obtain ⟨s₂, hs₂, h₂, hrenew₂, hacc₂⟩ := h₁.move hread (by omega)
    exact ⟨s₁, s₂, hs₁, hs₂, ⟨h₂, hacc₂.trans (hacc₁.trans hacc)⟩, hrenew₂.trans hrenew₁⟩
  obtain ⟨s', hs', ⟨h', hacc⟩, hrenew⟩ := renewLoop_rule
    (J := fun it s' => Accounted drawn it s' ∧ s'.accepted = s.accepted) hround rounds ⟨h, rfl⟩
    h.it_le hrounds
  exact ⟨s', hs', h', hrenew, hacc⟩

/-- `write_random_bytes` up to the call of `write` does not leave its arrays, and leaves nothing to be
renewed. -/
theorem Accounted.prepare (hfresh : rng.Fresh drawn REQUEST_SIZE) (h : Accounted drawn 0 s) :
    ∃ s', s.prepare rng = .ok s' ∧ Accounted drawn s.qrngWriteArrRenew s' ∧
      s'.qrngWriteArrRenew = s.qrngWriteArrRenew ∧ s'.accepted = s.accepted :=
  h.renewLoop hfresh s.qrngWriteArrRenew le_rfl

/-- What the device accepts passes from `qrng_write_arr` to it. -/
theorem Accounted.finish (h : Accounted drawn s.qrngWriteArrRenew s) {k : ℕ} (hk : k ≤ WRITE_SIZE) :
    ∃ s', s.finish k = .ok s' ∧ Accounted drawn 0 s' ∧ s'.qrngWriteArrRenew = k ∧
      s'.accepted = s.accepted ++ s.qrngWriteArr.take k := by
  have hneg : ¬ (k : ℤ) < 0 := by omega
  refine ⟨_, if_neg hneg, ⟨h.buff_length, h.arr_length, h.readIt_le, Nat.zero_le _, ?_, ?_, h.nodup,
    h.drawn_of_fetched, h.overwritten_eq⟩, rfl, rfl⟩
  · rwa [Int.toNat_natCast]
  · have hperm := h.perm
    rw [List.take_append_drop] at hperm
    simp only [Int.toNat_natCast, List.take_zero, List.nil_append]
    rwa [List.append_assoc s.accepted, List.take_append_drop]

/-- A call of `write_random_bytes` keeps the account, and `k` more bytes are accepted. -/
theorem Accounted.writeRandomBytes (hfresh : rng.Fresh drawn REQUEST_SIZE) (h : Accounted drawn 0 s)
    {k : ℕ} (hk : k ≤ WRITE_SIZE) :
    ∃ s', s.writeRandomBytes rng k = .ok s' ∧ Accounted drawn 0 s' ∧
      s'.accepted.length = s.accepted.length + k := by
  obtain ⟨s₁, hs₁, h₁, hrenew, hacc₁⟩ := h.prepare hfresh
  rw [← hrenew] at h₁
  obtain ⟨s₂, hs₂, h₂, -, hacc₂⟩ := h₁.finish hk
  refine ⟨s₂, ?_, h₂, ?_⟩
  · simp only [Service.writeRandomBytes, hs₁, bind, Except.bind]
    exact hs₂
  · rw [hacc₂, hacc₁, List.length_append, List.length_take, h₁.arr_length, Nat.min_eq_left hk]

/-- The account of a sequence of calls. -/
theorem Accounted.calls (hfresh : rng.Fresh drawn REQUEST_SIZE) (ks : List ℕ)
    (hks : ∀ k ∈ ks, k ≤ WRITE_SIZE) (h : Accounted drawn 0 s) :
    ∃ s', s.calls rng (ks.map (↑)) = .ok s' ∧ Accounted drawn 0 s' ∧
      s'.accepted.length = s.accepted.length + ks.sum := by
  refine calls_rule (K := fun n s => Accounted drawn 0 s ∧ s.accepted.length = n)
    (fun n s k h hk => ?_) hks ⟨h, rfl⟩
  obtain ⟨s', hs', h', hlen⟩ := h.1.writeRandomBytes hfresh hk
  exact ⟨s', hs', h', by rw [hlen, h.2]⟩

/-- The service neither loses nor resends a byte. Let the generator overwrite all of its buffer with
distinct bytes that were never drawn before. Then a sequence of calls of `write_random_bytes` from the
start, where the device takes any `k` in `0..256` of the bytes of each, does not leave its arrays. After
it, no byte was fetched twice, and the bytes fetched are, up to their order, those accepted, those in
`qrng_write_arr` from `qrng_write_arr_renew` on, and those in `qrng_buff` from `qrng_buff_read_it` on.
As many are accepted as the device has taken. No fetch has overwritten a byte of `qrng_buff` that had not
been moved. -/
theorem write_random_bytes_conserves [Zero β] (hfresh : rng.Fresh drawn REQUEST_SIZE) (g : G)
    {ks : List ℕ} (hks : ∀ k ∈ ks, k ≤ WRITE_SIZE) :
    ∃ s, (init g : Service β G).calls rng (ks.map (↑)) = .ok s ∧ s.fetched.Nodup ∧
      s.fetched.Perm (s.accepted ++ s.qrngWriteArr.drop s.qrngWriteArrRenew ++
        s.qrngBuff.drop s.qrngBuffReadIt) ∧
      s.accepted.length = ks.sum ∧
      s.qrngWriteArr.length = WRITE_SIZE ∧ s.qrngBuff.length = REQUEST_SIZE ∧
      s.overwritten = [] := by
  obtain ⟨s, hs, h, hlen⟩ := (accounted_init drawn g).calls hfresh ks hks
  have hperm := h.perm
  rw [List.take_zero, List.nil_append] at hperm
  rw [init, List.length_nil, Nat.zero_add] at hlen
  exact ⟨s, hs, h.nodup, hperm, hlen, h.arr_length, h.buff_length, h.overwritten_eq⟩

/-- The theorem for `PRNG`, with bytes named by their positions in its output, and three calls of which
the device takes all, some, and none. -/
theorem write_random_bytes_conserves_prng :
    ∃ s, (init 0 : Service ℕ ℕ).calls (PRNG.rng fun n i => 4 * n + i.val)
        (([256, 100, 0] : List ℕ).map (↑)) = .ok s ∧ s.fetched.Nodup ∧
      s.fetched.Perm (s.accepted ++ s.qrngWriteArr.drop s.qrngWriteArrRenew ++
        s.qrngBuff.drop s.qrngBuffReadIt) ∧
      s.accepted.length = 356 ∧
      s.qrngWriteArr.length = WRITE_SIZE ∧ s.qrngBuff.length = REQUEST_SIZE ∧
      s.overwritten = [] := by
  have hout : Function.Injective2 fun (n : ℕ) (i : Fin 4) => 4 * n + i.val := by
    intro n m i j h
    simp only at h
    exact ⟨by omega, Fin.ext (by omega)⟩
  have hks : ∀ k ∈ ([256, 100, 0] : List ℕ), k ≤ WRITE_SIZE := List.forall_mem_cons.mpr ⟨le_rfl,
    List.forall_mem_cons.mpr ⟨by decide, List.forall_mem_singleton.mpr (Nat.zero_le _)⟩⟩
  exact write_random_bytes_conserves (PRNG.fresh hout REQUEST_SIZE) 0 hks

end Service

end QrngDevice
