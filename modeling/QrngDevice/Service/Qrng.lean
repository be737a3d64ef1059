import Mathlib.Algebra.Order.BigOperators.Group.List
import Mathlib.Algebra.Order.Ring.Nat
import Mathlib.Data.List.Perm.Subperm
import Mathlib.Data.UInt
import QrngDevice.Service.WriteRandomBytes

/-!
# The service with `QRNG`

The generator `QRNG` of `userspace/src/qrng.cpp` is to fill the buffer with bytes that the library
returns. Its `fetch_bytes` returns before it asks the library, so that the buffer keeps what it had, and
that is the zeros of static storage. `write_random_bytes` does not notice: the device accepts these
zeros, as many as it takes (`calls_stale`). `serves_returned_iff` says that the service hands out what
the library has returned only if the device never takes a byte.
-/

namespace QrngDevice

/-- `QRNG`. -/
structure QRNG (T : Type) (β : Type) where
  /-- `thread`, by which the library keeps its state. -/
  thread : T
  /-- The bytes that `qrng_get_random_bytes` has returned so far. No step depends on this record. -/
  returned : List β

namespace QRNG

variable {T β : Type}

/-- `QRNG()`: the library is connected, and has returned nothing. -/
def connect (thread : T) : QRNG T β := ⟨thread, []⟩

/-- `QRNG` as a generator. -/
def rng : RNG β (QRNG T β) where
  -- `return;` stands before the call of `qrng_get_random_bytes`, which is in a comment.
  fetchBytes g arr _ := return (g, arr)

end QRNG

namespace Service

variable {T β : Type}

/-- What the fetch with number `i` has left in `qrng_buff`. -/
def fetch {G : Type} (s : Service β G) (i : ℕ) : List β :=
  (s.fetched.drop (i * REQUEST_SIZE)).take REQUEST_SIZE

/-- The service hands out what the library returns. -/
structure ServesReturned (s : Service β (QRNG T β)) : Prop where
  /-- The bytes that the device has accepted are bytes that the library has returned, and it has
  accepted none of them twice. -/
  accepted : s.accepted.Subperm s.rng.returned
  /-- No two fetches have left the same bytes in `qrng_buff`. -/
  renewed : ∀ i j, i < j → (j + 1) * REQUEST_SIZE ≤ s.fetched.length → s.fetch i ≠ s.fetch j

variable [Zero β]

/-- In the loop of `write_random_bytes`, after the device has taken `n` bytes: all that the service has
is zero. -/
structure Stale (n it : ℕ) (s : Service β (QRNG T β)) : Prop where
  /-- `qrng_buff` is as it was at the start. -/
  buff_eq : s.qrngBuff = List.replicate REQUEST_SIZE 0
  /-- So is `qrng_write_arr`. -/
  arr_eq : s.qrngWriteArr = List.replicate WRITE_SIZE 0
  /-- `qrng_buff_read_it` is at a place of `qrng_buff`, or at its end. -/
  readIt_le : s.qrngBuffReadIt ≤ REQUEST_SIZE
  /-- `qrng_write_arr_it` does not pass `qrng_write_arr_renew`. -/
  it_le : it ≤ s.qrngWriteArrRenew
  /-- `qrng_write_arr_renew` is at a place of `qrng_write_arr`, or at its end. -/
  renew_le : s.qrngWriteArrRenew ≤ WRITE_SIZE
  /-- The library has returned nothing. -/
  returned_eq : s.rng.returned = []
  /-- The device has accepted zeros. -/
  accepted_eq : s.accepted = List.replicate n 0
  /-- As many bytes have left `qrng_buff` as were renewed. -/
  fetches : ∃ m, s.fetched.length = m * REQUEST_SIZE ∧
    m * REQUEST_SIZE + s.qrngBuffReadIt + (s.qrngWriteArrRenew - it) =
      REQUEST_SIZE + WRITE_SIZE + n

variable {n it : ℕ} {s : Service β (QRNG T β)}

/-- The service starts so. -/
theorem stale_init (thread : T) : Stale 0 0 (init (QRNG.connect thread) : Service β (QRNG T β)) where
  buff_eq := rfl
  arr_eq := rfl
  readIt_le := le_rfl
  it_le := Nat.zero_le _
  renew_le := le_rfl
  returned_eq := rfl
  accepted_eq := rfl
  fetches := ⟨0, by simp [init]⟩

/-- A fetch, if one is due, brings nothing. -/
theorem Stale.refill (h : Stale n it s) :
    ∃ s', s.refill QRNG.rng = .ok s' ∧ Stale n it s' ∧ s'.qrngBuffReadIt < REQUEST_SIZE ∧
      s'.qrngWriteArrRenew = s.qrngWriteArrRenew := by
  unfold Service.refill
  split_ifs with hdue
  · obtain ⟨m, hlen, hcount⟩ := h.fetches
    refine ⟨_, rfl, ⟨h.buff_eq, h.arr_eq, Nat.zero_le _, h.it_le, h.renew_le, h.returned_eq,
      h.accepted_eq, m + 1, ?_, ?_⟩, by simp, rfl⟩
    · rw [List.length_append, hlen, h.buff_eq, List.length_replicate, Nat.succ_mul]
    · -- The bytes fetched are all still to be moved.
      simp only [Nat.add_zero]
      rw [Nat.succ_mul, ← hcount, hdue]
  · have hle := h.readIt_le
    exact ⟨s, rfl, h, by omega, rfl⟩

/-- Moving a byte moves a zero. -/
theorem Stale.move (h : Stale n it s) (hread : s.qrngBuffReadIt < REQUEST_SIZE)
    (hit : it < s.qrngWriteArrRenew) :
    ∃ s', s.move it = .ok s' ∧ Stale n (it + 1) s' ∧
      s'.qrngWriteArrRenew = s.qrngWriteArrRenew := by
  have hrenew := h.renew_le
  have hload : s.qrngBuff[s.qrngBuffReadIt]? = some 0 := by
    rw [h.buff_eq, List.getElem?_replicate, if_pos hread]
  have hstore : it < s.qrngWriteArr.length := by
    rw [h.arr_eq, List.length_replicate]
    omega
  simp only [Service.move, load_of_getElem? hload, store_of_lt _ hstore, bind, Except.bind]
  obtain ⟨m, hlen, hcount⟩ := h.fetches
  refine ⟨_, rfl, ⟨h.buff_eq, ?_, hread, hit, hrenew, h.returned_eq, h.accepted_eq, m, hlen, ?_⟩, rfl⟩
  · simp only [h.arr_eq, List.set_replicate_self]
  · simp only
    omega

/-- A call of `write_random_bytes` whose `write` returns `k` hands `k` zeros to the device. -/
theorem Stale.writeRandomBytes (h : Stale n 0 s) {k : ℕ} (hk : k ≤ WRITE_SIZE) :
    ∃ s', s.writeRandomBytes QRNG.rng k = .ok s' ∧ Stale (n + k) 0 s' := by
  -- A round of the loop fetches nothing but zeros, and moves one.
  have hround : ∀ it (s : Service β (QRNG T β)), Stale n it s → it < s.qrngWriteArrRenew →
      ∃ s₁ s₂, s.refill QRNG.rng = .ok s₁ ∧ s₁.move it = .ok s₂ ∧ Stale n (it + 1) s₂ ∧
        s₂.qrngWriteArrRenew = s.qrngWriteArrRenew := by
    intro it s h hlt
    obtain ⟨s₁, hs₁, h₁, hread, hrenew₁⟩ := h.refill
    obtain ⟨s₂, hs₂, h₂, hrenew₂⟩ := h₁.move hread (by omega)
    exact ⟨s₁, s₂, hs₁, hs₂, h₂, hrenew₂.trans hrenew₁⟩
  obtain ⟨s₁, hs₁, h₁, hrenew⟩ := renewLoop_rule hround s.qrngWriteArrRenew h h.it_le le_rfl
  rw [← hrenew] at h₁
  obtain ⟨m, hlen, hcount⟩ := h₁.fetches
  have hneg : ¬ (k : ℤ) < 0 := by omega
  refine ⟨{ s₁ with
    qrngWriteArrRenew := k
    accepted := s₁.accepted ++ s₁.qrngWriteArr.take k }, ?_, ⟨h₁.buff_eq, h₁.arr_eq, h₁.readIt_le,
      Nat.zero_le _, hk, h₁.returned_eq, ?_, m, hlen, ?_⟩⟩
  · simp only [Service.writeRandomBytes, prepare, hs₁, bind, Except.bind, finish, if_neg hneg,
      Int.toNat_natCast]
    rfl
  · -- The device takes zeros.
    simp only [h₁.accepted_eq, h₁.arr_eq, List.take_replicate, Nat.min_eq_left hk,
      List.replicate_append_replicate]
  · simp only
    omega

/-- After a sequence of calls, the device has accepted zeros only, as many as it has taken. -/
theorem calls_stale (thread : T) {ks : List ℕ} (hks : ∀ k ∈ ks, k ≤ WRITE_SIZE) :
    ∃ s, (init (QRNG.connect thread) : Service β (QRNG T β)).calls QRNG.rng (ks.map (↑)) = .ok s ∧
      Stale ks.sum 0 s := by
  obtain ⟨s, hs, h⟩ := calls_rule (K := fun n => Stale n 0)
    (fun _ _ _ h hk => h.writeRandomBytes hk) hks (stale_init (β := β) thread)
  rw [Nat.zero_add] at h
  exact ⟨s, hs, h⟩

/-- What such a service serves. -/
theorem Stale.servesReturned_iff (h : Stale n 0 s) : s.ServesReturned ↔ n = 0 := by
  constructor
  · intro hserves
    -- The library has returned nothing, so nothing may have been accepted.
    have hlen := hserves.accepted.length_le
    rw [h.returned_eq, h.accepted_eq, List.length_replicate] at hlen
    exact Nat.le_zero.mp hlen
  · rintro rfl
    refine ⟨?_, fun i j hij hj => ?_⟩
    · rw [h.accepted_eq]
      exact List.nil_subperm
    · -- Not more was renewed than `qrng_write_arr` at the start, and one fetch is enough for it.
      obtain ⟨m, hlen, hcount⟩ := h.fetches
      simp only [REQUEST_SIZE, WRITE_SIZE] at hlen hcount hj
      omega

/-- When the service with `QRNG` hands out what the library returns. In any sequence of calls of
`write_random_bytes` where the device takes any `k` in `0..256` of the bytes of each, it does exactly if
the device takes nothing at all. -/
theorem serves_returned_iff (thread : T) {ks : List ℕ} (hks : ∀ k ∈ ks, k ≤ WRITE_SIZE) :
    ∃ s, (init (QRNG.connect thread) : Service β (QRNG T β)).calls QRNG.rng (ks.map (↑)) = .ok s ∧
      (s.ServesReturned ↔ ∀ k ∈ ks, k = 0) := by
  obtain ⟨s, hs, h⟩ := calls_stale (β := β) thread hks
  refine ⟨s, hs, ?_⟩
  rw [h.servesReturned_iff]
  exact List.sum_eq_zero_iff

/-- The theorem for two calls of which the device takes nothing. -/
theorem serves_returned_iff_zero :
    ∃ s, (init (QRNG.connect ()) : Service UInt8 (QRNG Unit UInt8)).calls QRNG.rng
        (([0, 0] : List ℕ).map (↑)) = .ok s ∧
      (s.ServesReturned ↔ ∀ k ∈ ([0, 0] : List ℕ), k = 0) :=
  serves_returned_iff () (by simp)

/-- The device takes the 256 bytes of the first call. -/
theorem serves_zeros :
    ∃ s, (init (QRNG.connect ()) : Service UInt8 (QRNG Unit UInt8)).calls QRNG.rng
        (([256] : List ℕ).map (↑)) = .ok s ∧ ¬ s.ServesReturned := by
  have hks : ∀ k ∈ ([256] : List ℕ), k ≤ WRITE_SIZE := by simp
  obtain ⟨s, hs, h⟩ := calls_stale (β := UInt8) () hks
  refine ⟨s, hs, ?_⟩
  rw [h.servesReturned_iff]
  simp

end Service

end QrngDevice
