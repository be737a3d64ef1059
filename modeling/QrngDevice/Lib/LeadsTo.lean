import QrngDevice.Lib.Runs

/-!
# What a schedule leads to

`LeadsTo tr P Q` says of a sequence `tr` of states that every state with `P` is followed by one with
`Q`, then or later. The rules compose such facts (`trans`, `or`, `mono`), and `LeadsTo.induction` brings
a measure down.

The facts themselves come from `leadsTo_of_helpful`. In a state with `helps s h`, the steps of kind `h`
are the helpful ones: the next of them reaches the goal, or lowers a measure and passes on to a state
with a helper of its own. All other steps keep the helper and do not raise its measure. If the schedule
is fair to every kind of step, the goal is reached. The helper may change from state to state, so that
the rule covers a process that has to wait for the steps of others.
-/

namespace Runs

variable {σ ℓ η : Type*}

/-! ## Leads-to -/

/-- Every state of the sequence with `P` is followed by one with `Q`, then or later. -/
def LeadsTo (tr : ℕ → σ) (P Q : σ → Prop) : Prop := ∀ n, P (tr n) → ∃ m, n ≤ m ∧ Q (tr m)

namespace LeadsTo

variable {tr : ℕ → σ} {P P' Q Q' R : σ → Prop}

/-- A goal that is there already. -/
theorem of_imp (h : ∀ s, P s → Q s) : LeadsTo tr P Q := fun n hn => ⟨n, le_rfl, h _ hn⟩

/-- One goal after the other. -/
theorem trans (hPQ : LeadsTo tr P Q) (hQR : LeadsTo tr Q R) : LeadsTo tr P R := by
  intro n hn
  obtain ⟨m, hnm, hm⟩ := hPQ n hn
  obtain ⟨k, hmk, hk⟩ := hQR m hm
  exact ⟨k, hnm.trans hmk, hk⟩

/-- Either way. -/
theorem or (hP : LeadsTo tr P R) (hQ : LeadsTo tr Q R) : LeadsTo tr (fun s => P s ∨ Q s) R := by
  rintro n (hn | hn)
  · exact hP n hn
  · exact hQ n hn

/-- From more, to less. -/
theorem mono (hP : ∀ s, P' s → P s) (h : LeadsTo tr P Q) (hQ : ∀ s, Q s → Q' s) :
    LeadsTo tr P' Q' := by
  intro n hn
  obtain ⟨m, hnm, hm⟩ := h n (hP _ hn)
  exact ⟨m, hnm, hQ _ hm⟩

/-- What leads to the goal or to less of a measure leads to the goal. -/
theorem induction {M : σ → ℕ}
    (h : ∀ k, LeadsTo tr (fun s => P s ∧ M s = k) fun s => Q s ∨ P s ∧ M s < k) :
    LeadsTo tr P Q := by
  suffices hall : ∀ (k n : ℕ), P (tr n) → M (tr n) = k → ∃ m, n ≤ m ∧ Q (tr m) from
    fun n hn => hall _ n hn rfl
  intro k
  induction k using Nat.strong_induction_on with
  | _ k ih =>
    intro n hn hk
    obtain ⟨m, hnm, hQ | ⟨hP, hlt⟩⟩ := h k n ⟨hn, hk⟩
    · exact ⟨m, hnm, hQ⟩
    · obtain ⟨m', hmm', hQ⟩ := ih _ hlt m hP rfl
      exact ⟨m', hnm.trans hmm', hQ⟩

/-- What holds at every state of the sequence may be assumed. -/
theorem of_always {I : σ → Prop} (hI : ∀ n, I (tr n)) (h : LeadsTo tr (fun s => I s ∧ P s) Q) :
    LeadsTo tr P Q := fun n hn => h n ⟨hI n, hn⟩

/-- What stays true until the goal is reached, or else gives way to `R`, is still true at the goal. -/
theorem while_stable {J : σ → Prop} (h : LeadsTo tr P Q)
    (hJ : ∀ n, J (tr n) → ¬ Q (tr n) → J (tr (n + 1)) ∨ R (tr (n + 1))) :
    LeadsTo tr (fun s => P s ∧ J s) (fun s => Q s ∧ J s ∨ R s) := by
  rintro n ⟨hP, hn⟩
  obtain ⟨m, hnm, hm⟩ := h n hP
  obtain ⟨d, rfl⟩ := Nat.exists_eq_add_of_le hnm
  clear hP hnm
  -- By induction on the distance to the goal.
  induction d generalizing n with
  | zero => exact ⟨n, le_rfl, Or.inl ⟨hm, hn⟩⟩
  | succ d ih =>
    by_cases hQ : Q (tr n)
    · exact ⟨n, le_rfl, Or.inl ⟨hQ, hn⟩⟩
    · rcases hJ n hn hQ with hn' | hR
      · obtain ⟨m, hnm, hm'⟩ := ih (n + 1) hn' (by rwa [Nat.add_right_comm, Nat.add_assoc])
        exact ⟨m, by omega, hm'⟩
      · exact ⟨n + 1, by omega, Or.inr hR⟩

end LeadsTo

/-! ## Helpful steps -/

variable {step : σ → ℓ → σ} {s : σ} {sched : ℕ → ℓ}

/-- A schedule that is fair to the steps of every kind reaches the goal from every state with a helper:
each step reaches the goal, or passes on to a helper with a lower measure, or is no step of the helper
and keeps it. -/
theorem leadsTo_of_helpful {A : ℓ → Prop} {helps : σ → η → Prop} {M : σ → η → ℕ}
    {own : η → ℓ → Bool} {Q : σ → Prop}
    (hstep : ∀ s l h, A l → helps s h → Q (step s l) ∨
      (∃ h', helps (step s l) h' ∧ M (step s l) h' < M s h) ∨
      (own h l = false ∧ helps (step s l) h ∧ M (step s l) h ≤ M s h))
    (hok : ∀ n, A (sched n)) (hfair : ∀ h, Fair (own h) sched) :
    LeadsTo (after step s sched) (fun s => ∃ h, helps s h) Q := by
  suffices hall : ∀ (k n : ℕ) (h : η), helps (after step s sched n) h →
      M (after step s sched n) h ≤ k → ∃ m, n ≤ m ∧ Q (after step s sched m) by
    rintro n ⟨h, hn⟩
    exact hall _ n h hn le_rfl
  intro k
  induction k using Nat.strong_induction_on with
  | _ k ih =>
    intro n h hn hk
    obtain ⟨d, hown⟩ : ∃ d, own h (sched (n + d)) = true := by
      obtain ⟨m, hnm, hm⟩ := hfair h n
      obtain ⟨d, rfl⟩ := Nat.exists_eq_add_of_le hnm
      exact ⟨d, hm⟩
    -- By induction on the distance to a step of the helper.
    induction d generalizing n with
    | zero =>
      rcases hstep _ _ h (hok n) hn with hQ | ⟨h', hn', hlt⟩ | ⟨hno, -, -⟩
      · exact ⟨n + 1, by omega, hQ⟩
      · obtain ⟨m, hnm, hQ⟩ := ih _ (hlt.trans_le hk) (n + 1) h' hn' le_rfl
        exact ⟨m, by omega, hQ⟩
      · rw [Nat.add_zero, hno] at hown
        cases hown
    | succ d ihd =>
      rcases hstep _ _ h (hok n) hn with hQ | ⟨h', hn', hlt⟩ | ⟨-, hn', hle⟩
      · exact ⟨n + 1, by omega, hQ⟩
      · obtain ⟨m, hnm, hQ⟩ := ih _ (hlt.trans_le hk) (n + 1) h' hn' le_rfl
        exact ⟨m, by omega, hQ⟩
      · obtain ⟨m, hnm, hQ⟩ := ihd (n + 1) hn' (hle.trans hk)
          (by rwa [Nat.add_right_comm, Nat.add_assoc])
        exact ⟨m, by omega, hQ⟩

/-- A measure that the own steps bring down and the others do not raise, unless the goal is reached. -/
theorem leadsTo_of_rank {A : ℓ → Prop} {P Q : σ → Prop} {M : σ → ℕ} {own : ℓ → Bool}
    (hown : ∀ s l, A l → own l = true → P s → Q (step s l) ∨ P (step s l) ∧ M (step s l) < M s)
    (hother : ∀ s l, A l → own l = false → P s → Q (step s l) ∨ P (step s l) ∧ M (step s l) ≤ M s)
    (hok : ∀ n, A (sched n)) (hfair : Fair own sched) : LeadsTo (after step s sched) P Q := by
  have hall : LeadsTo (after step s sched) (fun s => ∃ _ : Unit, P s) Q := by
    refine leadsTo_of_helpful (M := fun s _ => M s) (fun s l h hl hs => ?_) hok fun _ => hfair
    cases ho : own l with
    | true => exact (hown s l hl ho hs).imp_right fun ⟨hs', hlt⟩ => Or.inl ⟨(), hs', hlt⟩
    | false => exact (hother s l hl ho hs).imp_right fun hs' => Or.inr ⟨rfl, hs'⟩
  exact hall.mono (fun s hs => ⟨(), hs⟩) fun _ h => h

/-- The next own step reaches the goal, and until then the others change nothing. -/
theorem leadsTo_of_next {A : ℓ → Prop} {P Q : σ → Prop} {own : ℓ → Bool}
    (hown : ∀ s l, A l → own l = true → P s → Q (step s l))
    (hother : ∀ s l, A l → own l = false → P s → Q (step s l) ∨ P (step s l))
    (hok : ∀ n, A (sched n)) (hfair : Fair own sched) : LeadsTo (after step s sched) P Q :=
  leadsTo_of_rank (M := fun _ => 0) (fun s l hl ho hs => Or.inl (hown s l hl ho hs))
    (fun s l hl ho hs => (hother s l hl ho hs).imp_right fun hs' => ⟨hs', le_rfl⟩) hok hfair

end Runs
