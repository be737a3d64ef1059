import Mathlib.Data.List.Induction
import Mathlib.Order.Lattice

/-!
# Runs of a labelled machine

A machine is a total step function `step : σ → ℓ → σ`: a label says who moves and how, and a label
that is not enabled leaves the state alone. A finite run is a fold of `step` over its labels, so
that it can be evaluated, and an infinite schedule is a sequence of labels.

- `run_invariant` carries an invariant of the allowed steps along a run.
- `run_map` takes the runs of one system to those of another, and `run_labels` and `after_labels` do
  the same where the label of the other system depends on the state.
- `At` and `Visits` name the steps and the states of a run; `at_concat` says how the steps grow with
  one more label, for inductions from the end of the run, and `run_iff_exists_at` reads off a mark in
  the last state whether some step of the run was taken in a bad state.
- `run_measure` bounds the number of own steps that a process can make before a measure of it
  reaches zero, and `exists_after_eq_zero` is the same for a fair infinite schedule.
-/

namespace Runs

variable {σ ℓ : Type*} (step : σ → ℓ → σ)

/-! ## Finite runs -/

/-- The state after the labels `ls`, taken in order from `s`. -/
def run (s : σ) (ls : List ℓ) : σ := ls.foldl step s

@[simp] theorem run_nil (s : σ) : run step s [] = s := rfl

@[simp] theorem run_cons (s : σ) (l : ℓ) (ls : List ℓ) :
    run step s (l :: ls) = run step (step s l) ls := rfl

@[simp] theorem run_append (s : σ) (ls ls' : List ℓ) :
    run step s (ls ++ ls') = run step (run step s ls) ls' := List.foldl_append

variable {step}

/-- A map of states and labels that commutes with the steps of two systems takes the runs of one to
those of the other. -/
theorem run_map {τ m : Type*} {step' : τ → m → τ} {f : σ → τ} {g : ℓ → m}
    (hstep : ∀ s l, step' (f s) (g l) = f (step s l)) (s : σ) (ls : List ℓ) :
    run step' (f s) (ls.map g) = f (run step s ls) := by
  induction ls generalizing s with
  | nil => rfl
  | cons l ls ih => rw [List.map_cons, run_cons, run_cons, hstep, ih]

/-- The labels of the steps of another system, each chosen in the state of its step. -/
def labels {m : Type*} (step : σ → ℓ → σ) (g : σ → ℓ → m) (s : σ) : List ℓ → List m
  | [] => []
  | l :: ls => g s l :: labels step g (step s l) ls

/-- A map of states that takes every step of one system to a step of another takes its runs to runs. -/
theorem run_labels {τ m : Type*} {step' : τ → m → τ} {f : σ → τ} {g : σ → ℓ → m}
    (hstep : ∀ s l, f (step s l) = step' (f s) (g s l)) (s : σ) (ls : List ℓ) :
    f (run step s ls) = run step' (f s) (labels step g s ls) := by
  induction ls generalizing s with
  | nil => rfl
  | cons l ls ih => rw [run_cons, labels, run_cons, ih, hstep]

/-- What holds of every label that is chosen for an allowed one holds of all labels of the other run. -/
theorem forall_labels {m : Type*} {g : σ → ℓ → m} {A : ℓ → Prop} {B : m → Prop}
    (hAB : ∀ s l, A l → B (g s l)) (s : σ) {ls : List ℓ} (hok : ∀ l ∈ ls, A l) :
    ∀ l ∈ labels step g s ls, B l := by
  induction ls generalizing s with
  | nil => simp [labels]
  | cons l ls ih =>
    obtain ⟨hl, hls⟩ := List.forall_mem_cons.mp hok
    exact List.forall_mem_cons.mpr ⟨hAB s l hl, ih _ hls⟩

/-- An invariant that the allowed steps preserve holds after every run of allowed steps. -/
theorem run_invariant {P : σ → Prop} {A : ℓ → Prop} (hstep : ∀ s l, A l → P s → P (step s l))
    {s : σ} {ls : List ℓ} (hok : ∀ l ∈ ls, A l) (h : P s) : P (run step s ls) := by
  induction ls generalizing s with
  | nil => exact h
  | cons l ls ih =>
    obtain ⟨hl, hls⟩ := List.forall_mem_cons.mp hok
    exact ih hls (hstep s l hl h)

/-- An invariant of every step holds after every run. -/
theorem run_invariant' {P : σ → Prop} (hstep : ∀ s l, P s → P (step s l)) {s : σ} (ls : List ℓ)
    (h : P s) : P (run step s ls) := by
  have hok : ∀ l ∈ ls, (fun _ : ℓ => True) l := fun _ _ => trivial
  exact run_invariant (fun s l _ => hstep s l) hok h

/-! ## The steps and the states of a run -/

/-- In the run of `ls` from `s`, a step with label `l` is taken in state `t`. -/
def At (step : σ → ℓ → σ) (s : σ) (ls : List ℓ) (t : σ) (l : ℓ) : Prop :=
  ∃ a b, ls = a ++ l :: b ∧ t = run step s a

/-- The run of `ls` from `s` passes through the state `t`. -/
def Visits (step : σ → ℓ → σ) (s : σ) (ls : List ℓ) (t : σ) : Prop :=
  ∃ a b, ls = a ++ b ∧ t = run step s a

/-- The empty run takes no step. -/
theorem not_at_nil (s t : σ) (l : ℓ) : ¬ At step s [] t l := by
  rintro ⟨a, b, h, -⟩
  exact absurd h (by simp)

/-- One more label adds one step, taken in the state that the run had reached. -/
theorem at_concat {s t : σ} {ls : List ℓ} {l m : ℓ} :
    At step s (ls ++ [m]) t l ↔ At step s ls t l ∨ t = run step s ls ∧ l = m := by
  constructor
  · rintro ⟨a, b, h, rfl⟩
    -- What follows the step is empty, or ends with the label added.
    rcases List.eq_nil_or_concat b with rfl | ⟨b, m', rfl⟩
    · obtain ⟨rfl, h⟩ := List.append_inj' h rfl
      exact Or.inr ⟨rfl, by simpa using h.symm⟩
    · have h' : ls ++ [m] = (a ++ l :: b) ++ [m'] := by simpa using h
      obtain ⟨rfl, -⟩ := List.append_inj' h' rfl
      exact Or.inl ⟨a, b, rfl, rfl⟩
  · rintro (⟨a, b, rfl, rfl⟩ | ⟨rfl, rfl⟩)
    · exact ⟨a, b ++ [m], by simp, rfl⟩
    · exact ⟨ls, [], rfl, rfl⟩

/-- A step of a run is taken in a state that the run passes through. -/
theorem At.visits {s t : σ} {ls : List ℓ} {l : ℓ} (h : At step s ls t l) : Visits step s ls t := by
  obtain ⟨a, b, rfl, rfl⟩ := h
  exact ⟨a, l :: b, rfl, rfl⟩

/-- What holds of every state that a run passes through holds of the state of each of its steps:
an invariant of the allowed steps. -/
theorem At.invariant {P : σ → Prop} {A : ℓ → Prop} (hstep : ∀ s l, A l → P s → P (step s l))
    {s t : σ} {ls : List ℓ} {l : ℓ} (h : At step s ls t l) (hok : ∀ l ∈ ls, A l) (hs : P s) :
    P t := by
  obtain ⟨a, b, rfl, rfl⟩ := h
  exact run_invariant hstep (fun l hl => hok l (List.mem_append_left _ hl)) hs

/-- One more label adds one chance for a step with label `l` to be taken in a state with `B`. -/
theorem exists_at_concat {B : σ → Prop} {s : σ} {ls : List ℓ} {l m : ℓ} :
    (∃ t, At step s (ls ++ [m]) t l ∧ B t) ↔
      (∃ t, At step s ls t l ∧ B t) ∨ m = l ∧ B (run step s ls) := by
  constructor
  · rintro ⟨t, hat, hB⟩
    rcases at_concat.mp hat with hat | ⟨rfl, rfl⟩
    · exact Or.inl ⟨t, hat, hB⟩
    · exact Or.inr ⟨rfl, hB⟩
  · rintro (⟨t, hat, hB⟩ | ⟨rfl, hB⟩)
    · exact ⟨t, at_concat.mpr (Or.inl hat), hB⟩
    · exact ⟨_, at_concat.mpr (Or.inr ⟨rfl, rfl⟩), hB⟩

/-- A mark `M` that exactly the steps with label `l` in a state with `B` set, and that stays, tells
whether the run has taken such a step. -/
theorem run_iff_exists_at {I M B : σ → Prop} {A : ℓ → Prop} {l : ℓ}
    (hI : ∀ s m, A m → I s → I (step s m))
    (hstep : ∀ s m, A m → I s → (M (step s m) ↔ M s ∨ m = l ∧ B s)) {s : σ} {ls : List ℓ}
    (hok : ∀ m ∈ ls, A m) (hs : I s) (hM : ¬ M s) :
    M (run step s ls) ↔ ∃ t, At step s ls t l ∧ B t := by
  -- From the end of the run, since the mark says something about all steps before.
  induction ls using List.reverseRecOn with
  | nil =>
    refine ⟨fun h => absurd h hM, ?_⟩
    rintro ⟨t, hat, -⟩
    exact absurd hat (not_at_nil _ _ _)
  | append_singleton ls m ih =>
    have hok' : ∀ m ∈ ls, A m := fun k hk => hok k (List.mem_append_left _ hk)
    have hm : A m := hok m (by simp)
    rw [run_append, run_cons, run_nil, hstep _ _ hm (run_invariant hI hok' hs), ih hok',
      exists_at_concat]

/-! ## Progress -/

/-- A measure that the own steps decrease and no other allowed step increases has dropped by at
least the number of own steps. -/
theorem run_measure {I : σ → Prop} {A : ℓ → Prop} {own : ℓ → Bool} {M : σ → ℕ}
    (hI : ∀ s l, A l → I s → I (step s l))
    (hown : ∀ s l, A l → I s → own l = true → M (step s l) ≤ M s - 1)
    (hother : ∀ s l, A l → I s → own l = false → M (step s l) ≤ M s) {s : σ} {ls : List ℓ}
    (hok : ∀ l ∈ ls, A l) (h : I s) : M (run step s ls) ≤ M s - ls.countP own := by
  induction ls generalizing s with
  | nil => simp
  | cons l ls ih =>
    obtain ⟨hl, hls⟩ := List.forall_mem_cons.mp hok
    have hle := ih hls (hI s l hl h)
    rw [run_cons, List.countP_cons]
    cases ho : own l with
    | true =>
      have := hown s l hl h ho
      simp only [if_true]
      omega
    | false =>
      have := hother s l hl h ho
      simp only [Bool.false_eq_true, if_false]
      omega

/-! ## Infinite schedules -/

/-- The state after `n` steps of an infinite schedule. -/
def after (step : σ → ℓ → σ) (s : σ) (sched : ℕ → ℓ) : ℕ → σ
  | 0 => s
  | n + 1 => step (after step s sched n) (sched n)

/-- A schedule is fair to the steps `own` when it takes one of them again and again. -/
def Fair (own : ℓ → Bool) (sched : ℕ → ℓ) : Prop := ∀ n, ∃ m, n ≤ m ∧ own (sched m) = true

/-- An invariant of the allowed steps holds at every point of a schedule of allowed steps. -/
theorem after_invariant {P : σ → Prop} {A : ℓ → Prop} (hstep : ∀ s l, A l → P s → P (step s l))
    {s : σ} {sched : ℕ → ℓ} (hok : ∀ n, A (sched n)) (hs : P s) :
    ∀ n, P (after step s sched n)
  | 0 => hs
  | n + 1 => hstep _ _ (hok n) (after_invariant hstep hok hs n)

/-- What the allowed steps preserve holds at every later point of the schedule. -/
theorem after_stable {P : σ → Prop} {A : ℓ → Prop} (hstep : ∀ s l, A l → P s → P (step s l))
    {s : σ} {sched : ℕ → ℓ} (hok : ∀ n, A (sched n)) {n m : ℕ} (hnm : n ≤ m)
    (h : P (after step s sched n)) : P (after step s sched m) := by
  induction m, hnm using Nat.le_induction with
  | base => exact h
  | succ m _ ih => exact hstep _ _ (hok m) ih

/-- The state after the first `n` steps of a schedule, one step later. -/
theorem after_succ (s : σ) (sched : ℕ → ℓ) (n : ℕ) :
    after step s sched (n + 1) = step (after step s sched n) (sched n) := rfl

/-- The first steps of a schedule are a run. -/
theorem after_eq_run (s : σ) (sched : ℕ → ℓ) (n : ℕ) :
    after step s sched n = run step s ((List.range n).map sched) := by
  induction n with
  | zero => rfl
  | succ n ih =>
    rw [after_succ, ih, List.range_succ, List.map_append, run_append]
    rfl

/-- A map of states that takes every step of one system to a step of another takes its schedules to
schedules. -/
theorem after_labels {τ m : Type*} {step' : τ → m → τ} {f : σ → τ} {g : σ → ℓ → m}
    (hstep : ∀ s l, f (step s l) = step' (f s) (g s l)) (s : σ) (sched : ℕ → ℓ) (n : ℕ) :
    f (after step s sched n) =
      after step' (f s) (fun n => g (after step s sched n) (sched n)) n := by
  induction n with
  | zero => rfl
  | succ n ih => rw [after_succ, after_succ, hstep, ih]

/-- A mark `M` that exactly the steps with label `l` in a state with `B` set, and that stays, tells
whether the schedule has come to such a step. -/
theorem after_iff_exists {I M B : σ → Prop} {A : ℓ → Prop} {l : ℓ}
    (hI : ∀ s m, A m → I s → I (step s m))
    (hstep : ∀ s m, A m → I s → (M (step s m) ↔ M s ∨ m = l ∧ B s)) {s : σ} {sched : ℕ → ℓ}
    (hok : ∀ n, A (sched n)) (hs : I s) (hM : ¬ M s) (n : ℕ) :
    M (after step s sched n) ↔ ∃ i < n, sched i = l ∧ B (after step s sched i) := by
  induction n with
  | zero => simpa [after] using hM
  | succ n ih =>
    rw [after_succ, hstep _ _ (hok n) (after_invariant hI hok hs n), ih]
    constructor
    · rintro (⟨i, hi, hB⟩ | hB)
      · exact ⟨i, by omega, hB⟩
      · exact ⟨n, by omega, hB⟩
    · rintro ⟨i, hi, hB⟩
      -- The step in question is an earlier one, or the last one.
      rcases Nat.lt_succ_iff_lt_or_eq.mp hi with hlt | rfl
      · exact Or.inl ⟨i, hlt, hB⟩
      · exact Or.inr hB

/-- What all other allowed steps preserve still holds when the next own step of a fair schedule is
taken. -/
theorem Fair.stays {J : σ → Prop} {A : ℓ → Prop} {own : ℓ → Bool} {sched : ℕ → ℓ}
    (hfair : Fair own sched) (hok : ∀ n, A (sched n))
    (hother : ∀ s l, A l → own l = false → J s → J (step s l)) {s : σ} {n : ℕ}
    (hn : J (after step s sched n)) :
    ∃ m, n ≤ m ∧ own (sched m) = true ∧ J (after step s sched m) := by
  obtain ⟨m, hnm, hm⟩ := hfair n
  -- By induction on the distance to some own step: if the step here is not an own one, go on.
  obtain ⟨d, rfl⟩ := Nat.exists_eq_add_of_le hnm
  induction d generalizing n with
  | zero => exact ⟨n, le_rfl, hm, hn⟩
  | succ d ih =>
    cases hown : own (sched n) with
    | true => exact ⟨n, le_rfl, hown, hn⟩
    | false =>
      obtain ⟨m, hnm', hm', hJ⟩ := ih (n := n + 1) (hother _ _ (hok n) hown hn) (by omega)
        (by rwa [Nat.add_right_comm, Nat.add_assoc])
      exact ⟨m, by omega, hm', hJ⟩

/-- Under a fair schedule, a measure that the own steps decrease, and that no other step increases,
reaches zero. -/
theorem exists_after_eq_zero {I : σ → Prop} {A : ℓ → Prop} {own : ℓ → Bool} {M : σ → ℕ}
    (hI : ∀ s l, A l → I s → I (step s l))
    (hown : ∀ s l, A l → I s → own l = true → M (step s l) ≤ M s - 1)
    (hother : ∀ s l, A l → I s → own l = false → M (step s l) ≤ M s)
    {s : σ} {sched : ℕ → ℓ} (hok : ∀ n, A (sched n)) (hfair : Fair own sched) :
    ∀ (k n : ℕ), I (after step s sched n) → M (after step s sched n) ≤ k →
      ∃ m, n ≤ m ∧ M (after step s sched m) = 0
  | 0, n, _, h0 => ⟨n, le_rfl, Nat.le_zero.mp h0⟩
  | k + 1, n, hn, hk => by
    obtain ⟨m, hnm, hm⟩ := hfair n
    -- Up to the next own step, the measure has not grown.
    have hmid : I (after step s sched m) ∧ M (after step s sched m) ≤ k + 1 := by
      clear hm
      induction m, hnm using Nat.le_induction with
      | base => exact ⟨hn, hk⟩
      | succ m _ ih =>
        obtain ⟨hi, hle⟩ := ih
        refine ⟨hI _ _ (hok m) hi, ?_⟩
        cases ho : own (sched m) with
        | true => exact (hown _ _ (hok m) hi ho).trans (by omega)
        | false => exact (hother _ _ (hok m) hi ho).trans hle
    have hnext : M (after step s sched (m + 1)) ≤ k := by
      have := hown _ _ (hok m) hmid.1 hm
      show M (step _ _) ≤ k
      omega
    obtain ⟨m', hmm', h0⟩ := exists_after_eq_zero hI hown hother hok hfair k (m + 1)
      (hI _ _ (hok m) hmid.1) hnext
    exact ⟨m', by omega, h0⟩

end Runs
