import QrngDevice.Service.System

/-!
# Generators that fill the buffer in the same way

The service only looks at its generator through the buffer that a fetch fills. So two generators that
fill it in the same way make the same system (`QrngSystem.run_withRng`).
-/

namespace QrngDevice

open Runs

/-- On related states and buffers, the two generators put the same bytes into the buffer of the service,
and come to related states. -/
def RNG.Simulates {β G G' : Type*} (rng : RNG β G) (rng' : RNG β G')
    (R : G → G' → List β → Prop) : Prop :=
  ∀ g g' arr, R g g' arr → ∃ h h' arr', rng.fetchBytes g arr REQUEST_SIZE = .ok (h, arr') ∧
    rng'.fetchBytes g' arr REQUEST_SIZE = .ok (h', arr') ∧ R h h' arr'

namespace Service

variable {β G G' : Type}

/-- The service with another generator in the state `g'`. -/
def withRng (s : Service β G) (g' : G') : Service β G' :=
  ⟨g', s.qrngBuff, s.qrngBuffReadIt, s.qrngWriteArr, s.qrngWriteArrRenew, s.fetched, s.accepted,
    s.overwritten⟩

variable {rng : RNG β G} {rng' : RNG β G'} {R : G → G' → List β → Prop} {s : Service β G} {g' : G'}

/-- A fetch, if one is due. -/
theorem refill_withRng (hrng : rng.Simulates rng' R) (h : R s.rng g' s.qrngBuff) :
    ∃ s₁ g₁, s.refill rng = .ok s₁ ∧ (s.withRng g').refill rng' = .ok (s₁.withRng g₁) ∧
      R s₁.rng g₁ s₁.qrngBuff := by
  by_cases hdue : s.qrngBuffReadIt = REQUEST_SIZE
  · obtain ⟨g₁, g₁', arr, hfetch, hfetch', hR⟩ := hrng _ _ _ h
    simp only [refill, withRng, if_pos hdue, hfetch, hfetch', bind, Except.bind]
    exact ⟨_, g₁', rfl, rfl, hR⟩
  · exact ⟨s, g', if_neg hdue, if_neg hdue, h⟩

/-- A move does not look at the generator. -/
theorem move_withRng (s : Service β G) (g' : G') (it : ℕ) :
    (s.withRng g').move it = (s.move it).map (·.withRng g') := by
  simp only [move, withRng, bind, Except.bind]
  cases load s.qrngBuff s.qrngBuffReadIt with
  | error stop => rfl
  | ok b =>
    simp only
    cases store s.qrngWriteArr it b <;> rfl

/-- A move leaves the generator and the buffer alone. -/
theorem move_rng {it : ℕ} {s' : Service β G} (h : s.move it = .ok s') :
    s'.rng = s.rng ∧ s'.qrngBuff = s.qrngBuff := by
  simp only [move, bind, Except.bind] at h
  cases hb : load s.qrngBuff s.qrngBuffReadIt with
  | error stop => simp [hb] at h
  | ok b =>
    cases harr : store s.qrngWriteArr it b with
    | error stop => simp [hb, harr] at h
    | ok arr =>
      simp only [hb, harr, pure, Except.pure, Except.ok.injEq] at h
      rw [← h]
      exact ⟨rfl, rfl⟩

/-- The loop of `write_random_bytes` does the same with both generators. -/
theorem renewLoop_withRng (hrng : rng.Simulates rng' R) (rounds it : ℕ)
    (h : R s.rng g' s.qrngBuff) :
    ∃ g₁, (s.withRng g').renewLoop rng' rounds it = (s.renewLoop rng rounds it).map (·.withRng g₁) ∧
      ∀ s₁, s.renewLoop rng rounds it = .ok s₁ → R s₁.rng g₁ s₁.qrngBuff := by
  induction rounds generalizing it s g' with
  | zero =>
    refine ⟨g', rfl, fun s₁ hs₁ => ?_⟩
    obtain rfl : s = s₁ := Except.ok.inj hs₁
    exact h
  | succ rounds ih =>
    simp only [renewLoop]
    by_cases hlt : it < s.qrngWriteArrRenew
    · have hlt' : it < (s.withRng g').qrngWriteArrRenew := hlt
      rw [if_pos hlt, if_pos hlt']
      -- A fetch, if one is due, steps both generators, and the move of a byte steps none.
      obtain ⟨s₁, g₁, hs₁, hs₁', h₁⟩ := refill_withRng hrng h
      simp only [hs₁, hs₁', bind, Except.bind, move_withRng]
      cases hs₂ : s₁.move it with
      | error stop => exact ⟨g₁, rfl, fun s₃ hs₃ => by cases hs₃⟩
      | ok s₂ =>
        obtain ⟨hrng₂, hbuff₂⟩ := move_rng hs₂
        exact ih (it + 1) (by rwa [hrng₂, hbuff₂])
    · have hlt' : ¬ it < (s.withRng g').qrngWriteArrRenew := hlt
      rw [if_neg hlt, if_neg hlt']
      refine ⟨g', rfl, fun s₁ hs₁ => ?_⟩
      obtain rfl : s = s₁ := Except.ok.inj hs₁
      exact h

/-- The part after the `write` does not look at the generator. -/
theorem finish_withRng (wres : ℤ) (s : Service β G) (g' : G') :
    (s.withRng g').finish wres = (s.finish wres).map (·.withRng g') := by
  unfold finish
  split_ifs <;> rfl

/-- It leaves the generator and the buffer alone. -/
theorem finish_rng {wres : ℤ} {s' : Service β G} (h : s.finish wres = .ok s') :
    s'.rng = s.rng ∧ s'.qrngBuff = s.qrngBuff := by
  unfold finish at h
  split_ifs at h
  simp only [pure, Except.pure, Except.ok.injEq] at h
  rw [← h]
  exact ⟨rfl, rfl⟩

end Service

namespace QrngSystem

variable {β G G' : Type} [Zero β]

/-- The system with another generator in the state `g'`. -/
def withRng (σ : QrngSystem β G) (g' : G') : QrngSystem β G' :=
  ⟨σ.driver, σ.service.withRng g', σ.pc⟩

variable {rng : RNG β G} {rng' : RNG β G'} {R : G → G' → List β → Prop} {g' : G'}

/-- An event does the same with both generators. -/
theorem step_withRng (hrng : rng.Simulates rng' R) {σ : QrngSystem β G}
    (h : R σ.service.rng g' σ.service.qrngBuff) (e : Event β) :
    ∃ g₁, (σ.withRng g').step rng' e = (σ.step rng e).withRng g₁ ∧
      R (σ.step rng e).service.rng g₁ (σ.step rng e).service.qrngBuff := by
  -- Only `renew` looks at the generator. What leaves it and `qrng_buff` alone keeps the simulation.
  have hsame : ∀ {τ : QrngSystem β G} {τ' : QrngSystem β G'}, τ' = τ.withRng g' →
      τ.service = σ.service →
      ∃ g₁, τ' = τ.withRng g₁ ∧ R τ.service.rng g₁ τ.service.qrngBuff :=
    fun hτ hservice => ⟨g', hτ, by rwa [hservice]⟩
  cases e with
  | main =>
    obtain ⟨driver, service, pc⟩ := σ
    simp only [step, label]
    cases pc with
    | poll => exact hsame rfl rfl
    | polled =>
      simp only [main, withRng]
      split
      · exact hsame rfl rfl
      · exact hsame rfl rfl
    | renew =>
      obtain ⟨g₁, hloop, hR⟩ :=
        Service.renewLoop_withRng hrng service.qrngWriteArrRenew 0 (s := service) h
      have hprepare : (service.withRng g').prepare rng' =
          (service.prepare rng).map (·.withRng g₁) := hloop
      simp only [main, withRng, hprepare]
      cases hs : service.prepare rng with
      | error stop => exact ⟨g', rfl, h⟩
      | ok s => exact ⟨g₁, rfl, hR s hs⟩
    | write => exact hsame rfl rfl
    | written =>
      simp only [main, withRng]
      split
      · next ret it _ =>
        rw [Service.finish_withRng]
        cases hs : service.finish ret with
        | error stop => exact ⟨g', rfl, h⟩
        | ok s =>
          -- The end of a write changes counts only.
          obtain ⟨hrng', hbuff⟩ := Service.finish_rng hs
          exact ⟨g', rfl, by simpa only [hrng', hbuff] using h⟩
      · exact hsame rfl rfl
    | stopped stop => exact hsame rfl rfl
  | _ => exact hsame rfl rfl

/-- Two generators that fill the buffer of the service in the same way make the same system. -/
theorem run_withRng (hrng : rng.Simulates rng' R) {g : G} {g' : G'}
    (h : R g g' (List.replicate REQUEST_SIZE 0)) (es : List (Event β)) :
    ∃ g₁, (init g').run rng' es = ((init g).run rng es).withRng g₁ := by
  suffices hall : ∃ g₁, (init g').run rng' es = ((init g).run rng es).withRng g₁ ∧
      R ((init g).run rng es).service.rng g₁ ((init g).run rng es).service.qrngBuff by
    obtain ⟨g₁, heq, -⟩ := hall
    exact ⟨g₁, heq⟩
  induction es using List.reverseRecOn with
  | nil => exact ⟨g', rfl, h⟩
  | append_singleton es e ih =>
    obtain ⟨g₁, heq, hR⟩ := ih
    simp only [run, run_append, run_cons, run_nil] at heq hR ⊢
    rw [heq]
    exact step_withRng hrng hR e

end QrngSystem

end QrngDevice
