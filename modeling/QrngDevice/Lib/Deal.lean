import Mathlib.Data.List.Lattice
import Mathlib.Logic.Function.Basic

/-!
# Dealing out consecutive numbers

The numbers `0, 1, 2, …` are dealt out in order to the members of a family, each some of them at any of
its turns. `Dealt n f` says how the hands `f i` look when the first `n` numbers have been dealt, and
`Dealt.deal` is one turn.
-/

variable {ι : Type*} {n : ℕ} {f : ι → List ℕ}

/-- The hands `f` after the first `n` numbers have been dealt. -/
structure Dealt (n : ℕ) (f : ι → List ℕ) : Prop where
  /-- Each member has its numbers in increasing order. -/
  increasing : ∀ i, (f i).Pairwise (· < ·)
  /-- Different members have different numbers. -/
  disjoint : ∀ i j, i ≠ j → (f i).Disjoint (f j)
  /-- The members together have the numbers up to `n`. -/
  mem_iff : ∀ m, (∃ i, m ∈ f i) ↔ m < n

/-- Before the first turn, all hands are empty. -/
theorem dealt_nil : Dealt 0 fun _ : ι => [] where
  increasing _ := List.Pairwise.nil
  disjoint _ _ _ := List.disjoint_nil_left _
  mem_iff m := by simp

/-- The numbers that a member has are among those dealt. -/
theorem Dealt.lt (h : Dealt n f) {i : ι} {m : ℕ} (hm : m ∈ f i) : m < n := (h.mem_iff m).mp ⟨i, hm⟩

/-- At its turn, a member gets the next `k` numbers. -/
theorem Dealt.deal [DecidableEq ι] (h : Dealt n f) (i : ι) (k : ℕ) :
    Dealt (n + k) (Function.update f i (f i ++ List.range' n k)) where
  increasing j := by
    rcases eq_or_ne j i with rfl | hj
    · rw [Function.update_self, List.pairwise_append]
      refine ⟨h.increasing j, List.pairwise_lt_range', fun a ha b hb => ?_⟩
      have hlt := h.lt ha
      rw [List.mem_range'_1] at hb
      omega
    · rw [Function.update_of_ne hj]
      exact h.increasing j
  disjoint := by
    -- The new numbers are in no other hand.
    have hnew : ∀ j, j ≠ i → (f i ++ List.range' n k).Disjoint (f j) := by
      intro j hj
      rw [List.disjoint_append_left]
      refine ⟨h.disjoint i j hj.symm, fun m hm hmj => ?_⟩
      have hlt := h.lt hmj
      rw [List.mem_range'_1] at hm
      omega
    intro j j' hne
    rcases eq_or_ne j i with rfl | hj
    · rw [Function.update_self, Function.update_of_ne hne.symm]
      exact hnew j' hne.symm
    · rw [Function.update_of_ne hj]
      rcases eq_or_ne j' i with rfl | hj'
      · rw [Function.update_self]
        exact (hnew j hj).symm
      · rw [Function.update_of_ne hj']
        exact h.disjoint j j' hne
  mem_iff m := by
    constructor
    · rintro ⟨j, hm⟩
      rcases eq_or_ne j i with rfl | hj
      · rw [Function.update_self, List.mem_append, List.mem_range'_1] at hm
        rcases hm with hm | hm
        · exact Nat.lt_of_lt_of_le (h.lt hm) (Nat.le_add_right n k)
        · exact hm.2
      · rw [Function.update_of_ne hj] at hm
        exact Nat.lt_of_lt_of_le (h.lt hm) (Nat.le_add_right n k)
    · intro hm
      rcases Nat.lt_or_ge m n with hlt | hge
      · -- A number dealt before is where it was.
        obtain ⟨j, hj⟩ := (h.mem_iff m).mpr hlt
        rcases eq_or_ne j i with rfl | hne
        · exact ⟨j, by rw [Function.update_self]; exact List.mem_append_left _ hj⟩
        · exact ⟨j, by rwa [Function.update_of_ne hne]⟩
      · refine ⟨i, ?_⟩
        rw [Function.update_self, List.mem_append, List.mem_range'_1]
        exact Or.inr ⟨hge, hm⟩
