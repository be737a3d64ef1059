import Mathlib.Logic.Basic

/-!
# Wake-up debts

Processes wait on a queue for a condition on a shared state, test it without a lock, and sleep when
the test fails. A process that makes the condition true owes the sleepers a wake-up. `Covered` says
that no wake-up is lost: while the condition holds and some process is at risk, that is, asleep or
about to sleep on a test that has failed or will fail, some process owes the wake-up.

A step keeps `Covered` for one of three reasons, and each is a rule: someone owes the wake-up after
the step (`covered_of_owes`), the step has woken everyone (`covered_of_no_risk`), or the step brings
no new risk and pays no debt (`Covered.frame`).
-/

namespace WaitQueue

variable {ι S P : Type*} {ready : S → Prop} {risk owes : S → P → Prop} {s s' : S}
  {procs procs' : ι → P}

/-- While the condition holds and some process is at risk, some process owes the wake-up. -/
def Covered (ready : S → Prop) (risk owes : S → P → Prop) (s : S) (procs : ι → P) : Prop :=
  ready s → ∀ p, risk s (procs p) → ∃ q, owes s (procs q)

/-- A process that owes the wake-up covers everyone. -/
theorem covered_of_owes {q : ι} (h : owes s (procs q)) : Covered ready risk owes s procs :=
  fun _ _ _ => ⟨q, h⟩

/-- With nobody at risk there is nothing to cover. -/
theorem covered_of_no_risk (h : ∀ p, ¬ risk s (procs p)) : Covered ready risk owes s procs :=
  fun _ p hp => absurd hp (h p)

/-- A step that does not establish the condition, puts no process at risk, and pays no debt keeps
everyone covered. -/
theorem Covered.frame (h : Covered ready risk owes s procs) (hready : ready s' → ready s)
    (hrisk : ready s' → ∀ p, risk s' (procs' p) → risk s (procs p))
    (howes : ready s' → ∀ q, owes s (procs q) → owes s' (procs' q)) :
    Covered ready risk owes s' procs' := by
  intro hr p hp
  obtain ⟨q, hq⟩ := h (hready hr) p (hrisk hr p hp)
  exact ⟨q, howes hr q hq⟩

end WaitQueue
