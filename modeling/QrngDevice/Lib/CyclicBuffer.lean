import Mathlib.Data.List.Nodup
import Mathlib.Data.List.ReduceOption
import Mathlib.Data.List.TakeWhile
import Mathlib.Data.Nat.ModEq
import Mathlib.Logic.Function.Basic

/-!
# Queues in a cyclic array

A cyclic array of `N` slots keeps a queue between a read cursor and a write cursor, with no length
field: a slot is `none` when it is free and `some x` when it holds `x`. `Holds N slot r w q` says
that the slots from the read cursor `r` on hold the queue `q` and that all others are free, and
`contents` reads the queue back. An empty and a full array have equal cursors, and only the slots
tell them apart (`Holds.slot_read`, `Holds.slot_write_eq_none_iff`, `Holds.cursors_eq_iff`).
`overwrite` stores one value in a run of slots.
-/

namespace CyclicBuffer

variable {α : Type*} {N r w : ℕ} {slot : ℕ → Option α} {q : List α}

/-! ## Places -/

/-- The slot that lies `j` places after `r`. -/
def place (N r j : ℕ) : ℕ := (r + j) % N

theorem place_zero (hr : r < N) : place N r 0 = r := Nat.mod_eq_of_lt hr

/-- Moving the start shifts every place. -/
theorem place_place (N r m j : ℕ) : place N (place N r m) j = place N r (m + j) := by
  unfold place
  rw [Nat.mod_add_mod, Nat.add_assoc]

/-- Moving the start by one place shifts every place by one. -/
theorem place_succ (N r j : ℕ) : place N ((r + 1) % N) j = place N r (j + 1) := by
  rw [Nat.add_comm j 1]
  exact place_place N r 1 j

/-- Every slot lies at some place less than a turn away. -/
theorem exists_place {i : ℕ} (hr : r < N) (hi : i < N) : ∃ j < N, place N r j = i := by
  rcases le_or_gt r i with hle | hgt
  · refine ⟨i - r, by omega, ?_⟩
    rw [place, Nat.add_sub_cancel' hle, Nat.mod_eq_of_lt hi]
  · -- The slots before the start are reached after a wrap.
    refine ⟨i + N - r, by omega, ?_⟩
    calc (r + (i + N - r)) % N = (i + N) % N := by rw [show r + (i + N - r) = i + N by omega]
      _ = i % N := Nat.add_mod_right i N
      _ = i := Nat.mod_eq_of_lt hi

/-- Different places less than a turn apart are different slots. -/
theorem place_injective {i j : ℕ} (hi : i < N) (hj : j < N) (h : place N r i = place N r j) :
    i = j :=
  Nat.ModEq.eq_of_lt_of_lt (Nat.ModEq.add_left_cancel' r h) hi hj

/-- The slots `f` with `a` at the first `m` places from the start. -/
def overwrite (N r m : ℕ) (a : α) (f : ℕ → α) : ℕ → α :=
  fun i => if ∃ j < m, place N r j = i then a else f i

theorem overwrite_zero (N r : ℕ) (a : α) (f : ℕ → α) : overwrite N r 0 a f = f := by
  funext i
  exact if_neg fun ⟨j, hj, _⟩ => Nat.not_lt_zero j hj

theorem overwrite_one (hr : r < N) (a : α) (f : ℕ → α) :
    overwrite N r 1 a f = Function.update f r a := by
  funext i
  have hone : (∃ j < 1, place N r j = i) ↔ i = r := by
    constructor
    · rintro ⟨j, hj, rfl⟩
      rw [Nat.lt_one_iff.mp hj, place_zero hr]
    · rintro rfl
      exact ⟨0, Nat.one_pos, place_zero hr⟩
  rw [Function.update_apply]
  exact if_congr hone rfl rfl

/-- The first `m + n` places are the first `m` and the `n` after them. -/
theorem overwrite_add (N r m n : ℕ) (a : α) (f : ℕ → α) :
    overwrite N (place N r m) n a (overwrite N r m a f) = overwrite N r (m + n) a f := by
  funext i
  have hadd : (∃ j < m + n, place N r j = i) ↔
      (∃ j < n, place N (place N r m) j = i) ∨ ∃ j < m, place N r j = i := by
    constructor
    · rintro ⟨j, hj, hi⟩
      rcases Nat.lt_or_ge j m with hjm | hjm
      · exact Or.inr ⟨j, hjm, hi⟩
      · exact Or.inl ⟨j - m, by omega, by rwa [place_place, Nat.add_sub_cancel' hjm]⟩
    · rintro (⟨j, hj, hi⟩ | ⟨j, hj, hi⟩)
      · exact ⟨m + j, by omega, by rwa [place_place] at hi⟩
      · exact ⟨j, by omega, hi⟩
  rw [overwrite, overwrite, overwrite, if_congr hadd rfl rfl, ite_or]

/-! ## The queue that the slots hold -/

/-- The slots from the read cursor `r` on hold `q`, the others are free, and the write cursor `w`
stands just after the queue. -/
structure Holds (N : ℕ) (slot : ℕ → Option α) (r w : ℕ) (q : List α) : Prop where
  /-- The queue fits. -/
  length_le : q.length ≤ N
  /-- The read cursor is a slot. -/
  read_lt : r < N
  /-- The write cursor is the first place after the queue. -/
  write_eq : w = place N r q.length
  /-- The places from the read cursor on hold the queue and nothing after it. -/
  slots : ∀ j, j < N → slot (place N r j) = q[j]?

/-- The queue read back from the slots: what they hold from the read cursor to the first free
slot. -/
def contents (N : ℕ) (slot : ℕ → Option α) (r : ℕ) : List α :=
  (((List.range N).map fun j => slot (place N r j)).takeWhile Option.isSome).reduceOption

/-- The images of the elements are read back as the images of the queue. -/
theorem contents_map {β : Type*} (f : α → β) (N : ℕ) (slot : ℕ → Option α) (r : ℕ) :
    contents N (fun i => (slot i).map f) r = (contents N slot r).map f := by
  have hsome : Option.isSome ∘ Option.map f = Option.isSome := by
    funext o
    cases o <;> rfl
  have hmap : (List.range N).map (fun j => (slot (place N r j)).map f) =
      ((List.range N).map fun j => slot (place N r j)).map (Option.map f) := by
    rw [List.map_map]
    rfl
  unfold contents
  rw [hmap, List.takeWhile_map, hsome, List.reduceOption_map]

/-- The first `N` optional elements of a list of at most `N` elements. -/
theorem map_range_getElem? (h : q.length ≤ N) :
    (List.range N).map (fun j => q[j]?) =
      q.map some ++ List.replicate (N - q.length) none := by
  -- The two lists agree at every index, whether it is in the queue, after it, or beyond `N`.
  apply List.ext_getElem?
  intro j
  simp only [List.getElem?_map, List.getElem?_append, List.length_map, List.getElem?_replicate]
  rcases lt_or_ge j q.length with hj | hj
  · simp [hj, show j < N by omega]
  · rcases lt_or_ge j N with hjN | hjN
    · simp [show ¬ j < q.length by omega, show j - q.length < N - q.length by omega, hjN]
    · simp [show ¬ j < q.length by omega, show ¬ j - q.length < N - q.length by omega,
        show ¬ j < N by omega]

/-- Slots that hold a queue are read back as that queue. -/
theorem Holds.contents_eq (h : Holds N slot r w q) : contents N slot r = q := by
  have hmap : (List.range N).map (fun j => slot (place N r j)) =
      (List.range N).map (fun j => q[j]?) :=
    List.map_congr_left fun j hj => h.slots j (List.mem_range.mp hj)
  unfold contents
  rw [hmap, map_range_getElem? h.length_le, List.takeWhile_append_of_pos (by simp)]
  -- The free slots after the queue end `takeWhile`.
  have hnone : (List.replicate (N - q.length) (none : Option α)).takeWhile Option.isSome = [] := by
    cases N - q.length <;> simp [List.replicate]
  rw [hnone, List.append_nil]
  simp [List.reduceOption]

/-- The slot under the read cursor holds the head of the queue. -/
theorem Holds.slot_read (h : Holds N slot r w q) : slot r = q.head? := by
  have h0 := h.slots 0 (by have := h.read_lt; omega)
  rw [place_zero h.read_lt] at h0
  rw [h0, List.head?_eq_getElem?]

/-- The occupied slots are those of the queue, from the read cursor on. -/
theorem Holds.isSome_iff (h : Holds N slot r w q) {i : ℕ} (hi : i < N) :
    (slot i).isSome = true ↔ ∃ j < q.length, place N r j = i := by
  obtain ⟨k, hk, rfl⟩ := exists_place h.read_lt hi
  have hsome : (slot (place N r k)).isSome = true ↔ k < q.length := by
    rw [h.slots k hk]
    simp
  rw [hsome]
  constructor
  · intro hlt
    exact ⟨k, hlt, rfl⟩
  · rintro ⟨j, hj, heq⟩
    have hlen := h.length_le
    have hjk : j = k := place_injective (by omega) hk heq
    rwa [← hjk]

/-- As many slots are occupied as the queue is long. -/
theorem Holds.countP_isSome (h : Holds N slot r w q) :
    (List.range N).countP (fun i => (slot i).isSome) = q.length := by
  have hlen := h.length_le
  -- The occupied slots are the places of the queue, in another order.
  have hperm : ((List.range N).filter fun i => (slot i).isSome).Perm
      ((List.range q.length).map (place N r)) := by
    have hnodup : ((List.range q.length).map (place N r)).Nodup := by
      refine List.Nodup.map_on (fun i hi j hj heq => ?_) List.nodup_range
      rw [List.mem_range] at hi hj
      exact place_injective (by omega) (by omega) heq
    refine (List.perm_ext_iff_of_nodup (List.nodup_range.filter _) hnodup).mpr fun i => ?_
    rw [List.mem_filter, List.mem_range, List.mem_map]
    simp only [List.mem_range]
    constructor
    · rintro ⟨hi, hsome⟩
      exact (h.isSome_iff hi).mp hsome
    · rintro ⟨j, hj, rfl⟩
      have hi : place N r j < N := Nat.mod_lt _ (Nat.zero_lt_of_lt h.read_lt)
      exact ⟨hi, (h.isSome_iff hi).mpr ⟨j, hj, rfl⟩⟩
  rw [List.countP_eq_length_filter, hperm.length_eq, List.length_map, List.length_range]

/-- The write cursor is a slot. -/
theorem Holds.write_lt (h : Holds N slot r w q) : w < N := by
  have hr := h.read_lt
  rw [h.write_eq]
  exact Nat.mod_lt _ (by omega)

/-- The cursors are equal exactly when the queue is empty or full. -/
theorem Holds.cursors_eq_iff (h : Holds N slot r w q) :
    r = w ↔ q.length = 0 ∨ q.length = N := by
  have hr := h.read_lt
  have hlen := h.length_le
  have hw : w = (r + q.length) % N := h.write_eq
  rcases lt_or_ge (r + q.length) N with hlt | hge
  · rw [Nat.mod_eq_of_lt hlt] at hw
    omega
  · -- The queue wraps around, and ends less than a turn after the read cursor.
    have hmod : (r + q.length) % N = r + q.length - N := by
      rw [Nat.mod_eq_sub_mod hge, Nat.mod_eq_of_lt (by omega)]
    rw [hmod] at hw
    omega

/-- The slot under the write cursor is free exactly when the queue is not full. -/
theorem Holds.slot_write_eq_none_iff (h : Holds N slot r w q) :
    slot w = none ↔ q.length < N := by
  rcases lt_or_ge q.length N with hlt | hge
  · simp [h.write_eq, h.slots _ hlt, hlt]
  · -- A full queue comes around to the read cursor.
    have hlen : q.length = N := le_antisymm h.length_le hge
    have hr := h.read_lt
    have hw : w = r := by
      calc w = (r + N) % N := by rw [h.write_eq, place, hlen]
        _ = r % N := Nat.add_mod_right r N
        _ = r := Nat.mod_eq_of_lt hr
    rw [hw, h.slot_read, List.head?_eq_none_iff, ← List.length_eq_zero_iff]
    omega

/-! ## Operations -/

/-- An array with no occupied slot and equal cursors holds the empty queue. -/
theorem holds_empty (hr : r < N) (hslot : ∀ k, slot k = none) : Holds N slot r r [] :=
  ⟨by simp, hr, by simp [place_zero hr], fun j _ => by simp [hslot]⟩

/-- Freeing the slot under the read cursor and moving the cursor on removes the head. -/
theorem Holds.pop {x : α} (h : Holds N slot r w (x :: q)) :
    Holds N (Function.update slot r none) ((r + 1) % N) w q := by
  have hr := h.read_lt
  have hlen : q.length + 1 ≤ N := by simpa using h.length_le
  refine ⟨by omega, Nat.mod_lt _ (by omega), ?_, ?_⟩
  · rw [place_succ, h.write_eq, List.length_cons]
  · intro j hj
    rw [place_succ]
    rcases lt_or_ge (j + 1) N with hj1 | hj1
    · -- The slot that was freed is not among the other places.
      have hne : place N r (j + 1) ≠ r := by
        intro heq
        have := place_injective hj1 (by omega : 0 < N) (heq.trans (place_zero hr).symm)
        omega
      rw [Function.update_of_ne hne, h.slots _ hj1, List.getElem?_cons_succ]
    · -- The last place after the new cursor is the slot that was freed.
      have heq : place N r (j + 1) = r := by
        calc (r + (j + 1)) % N = (r + N) % N := by rw [show j + 1 = N by omega]
          _ = r % N := Nat.add_mod_right r N
          _ = r := Nat.mod_eq_of_lt hr
      rw [heq, Function.update_self, eq_comm, List.getElem?_eq_none_iff]
      omega

/-- Filling the slot under the write cursor and moving the cursor on appends to a queue that is
not full. -/
theorem Holds.push (h : Holds N slot r w q) (hlt : q.length < N) (x : α) :
    Holds N (Function.update slot w (some x)) r ((w + 1) % N) (q ++ [x]) := by
  refine ⟨by rw [List.length_append, List.length_singleton]; omega, h.read_lt, ?_, ?_⟩
  · rw [h.write_eq, place, place, Nat.mod_add_mod, List.length_append, List.length_singleton,
      Nat.add_assoc]
  · intro j hj
    rw [h.write_eq]
    -- The slot under the write cursor is the place after the queue.
    rcases eq_or_ne j q.length with rfl | hne
    · simp
    · have hne' : place N r j ≠ place N r q.length := fun heq => hne (place_injective hj hlt heq)
      rw [Function.update_of_ne hne', h.slots j hj]
      rcases lt_or_ge j q.length with hj' | hj'
      · rw [List.getElem?_append_left hj']
      · rw [List.getElem?_eq_none hj', eq_comm, List.getElem?_eq_none_iff]
        simp
        omega

end CyclicBuffer
