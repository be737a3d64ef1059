import QrngDevice.Driver.Poll
import QrngDevice.Service.System

/-!
# The service and the driver together

In the whole system, the driver makes a run of its own in which only the service writes
(`driver_run`). `AtPc` says what the service can rely on at each of its points. A poll that reports
`POLLOUT` leaves it with a free slot, which is still free when its `write` comes to it, so the `write`
takes between 1 and 256 bytes, the same ones that the service then counts as taken.
-/

namespace QrngDevice

open Runs RingBuffer

variable {β G : Type} [Zero β]

omit [Zero β] in
/-- The process is in no call, and a write that it has returned from has written something. -/
def Proc.Rests : Proc β → Prop
  | .idle => True
  | .returned (.poll _) => True
  | .returned (.write ret _) => 1 ≤ ret ∧ ret ≤ WRITE_SIZE
  | _ => False

omit [Zero β] in
/-- Such a process is free. -/
theorem Proc.Rests.free {P : Proc β} (h : P.Rests) : P.free = true := by
  rcases P with _ | _ | _ | _ | res
  · rfl
  · exact h.elim
  · exact h.elim
  · exact h.elim
  · rfl

/-- Such a process does nothing. -/
theorem Proc.Rests.step_eq {P : Proc β} (h : P.Rests) (r : RingBuffer β) :
    P.step r = { ring := r, proc := P } := by
  rcases P with _ | _ | _ | _ | res
  · rfl
  · exact h.elim
  · exact h.elim
  · exact h.elim
  · rfl

omit [Zero β] in
/-- Others leave such a process alone. -/
theorem Proc.Rests.eq_of_nudge {P P' : Proc β} (h : P.Rests) (hn : P.Nudge P') : P' = P := by
  rcases P with _ | _ | _ | _ | res
  · exact hn.idle
  · exact h.elim
  · exact h.elim
  · exact h.elim
  · exact hn.returned

namespace QrngSystem

/-! ## The driver's part of a run -/

omit [Zero β] in
/-- An event is no call of the service, and no other process enters a write. -/
theorem label_leaves {e : Event β} {l : Label β} (h : label e = some l) :
    l.KeepsCall SERVICE ∧ l.Leaves Side.out SERVICE := by
  cases e with
  | main => cases h
  | read p kiocb buf limit =>
    cases h
    exact ⟨Nat.succ_ne_zero p, Or.inr rfl⟩
  | poll p events =>
    cases h
    exact ⟨Nat.succ_ne_zero p, Or.inr rfl⟩
  | sched p =>
    cases h
    exact ⟨trivial, trivial⟩
  | signal p =>
    cases h
    exact ⟨trivial, trivial⟩

/-- A step of the service leaves the driver as it is, or is a call of the service. -/
theorem main_driver (rng : RNG β G) (σ : QrngSystem β G) :
    (σ.main rng).driver = σ.driver ∨
      ∃ c, (σ.main rng).driver = σ.driver.step (.call SERVICE c) := by
  unfold main
  cases σ.pc with
  | poll => exact Or.inr ⟨_, rfl⟩
  | polled => left; simp only; split <;> rfl
  | renew => left; simp only; split <;> rfl
  | write => exact Or.inr ⟨_, rfl⟩
  | written => left; simp only; split <;> [(split <;> rfl); rfl]
  | stopped stop => exact Or.inl rfl

/-- The driver has made a run in which only the service writes. -/
def DriverRun (σ : QrngSystem β G) : Prop :=
  ∃ ls, (∀ l ∈ ls, l.Leaves Side.out SERVICE) ∧ σ.driver = (Driver.init : Driver β).run ls

/-- It goes on with one more label. -/
theorem DriverRun.concat {σ τ : QrngSystem β G} (h : σ.DriverRun) {l : Label β}
    (hl : l.Leaves Side.out SERVICE) (hτ : τ.driver = σ.driver.step l) : τ.DriverRun := by
  obtain ⟨ls, hls, hσ⟩ := h
  refine ⟨ls ++ [l], ?_, ?_⟩
  · simpa [or_imp, forall_and] using ⟨hls, hl⟩
  · rw [hτ, hσ]
    simp [Runs.run]

/-- Every event keeps this. -/
theorem DriverRun.step (rng : RNG β G) {σ : QrngSystem β G} (h : σ.DriverRun) (e : Event β) :
    (σ.step rng e).DriverRun := by
  unfold QrngSystem.step
  split
  · rcases main_driver rng σ with heq | ⟨c, heq⟩
    · obtain ⟨ls, hls, hσ⟩ := h
      exact ⟨ls, hls, heq.trans hσ⟩
    · exact h.concat (l := .call SERVICE c) (Or.inl rfl) heq
  · next l hl => exact h.concat (label_leaves hl).2 rfl

/-- In every run of the system, the driver makes a run in which only the service writes. -/
theorem driver_run (rng : RNG β G) (g : G) (es : List (Event β)) :
    ((init g : QrngSystem β G).run rng es).DriverRun :=
  run_invariant' (fun _ e h => h.step rng e) es ⟨[], by simp, rfl⟩

variable {drawn : G → Set β} {rng : RNG β G} {σ : QrngSystem β G}

/-- What is known of the driver. -/
theorem DriverRun.facts (h : σ.DriverRun) :
    σ.driver.Accounted ∧ Driver.Alone Side.out SERVICE σ.driver ∧
      (σ.driver.procs SERVICE).FoundOut σ.driver.ring ∧
      σ.driver.appended.map Prod.snd = σ.driver.appendedBy SERVICE := by
  obtain ⟨ls, hls, hσ⟩ := h
  rw [hσ]
  obtain ⟨halone, hfound⟩ := foundOut_stable.run Side.out_lawful
    (fun r c => (Proc.found_start r c).1) hls (σ := Driver.init) ⟨fun _ _ => rfl, trivial⟩
  refine ⟨Driver.run_accounted ls, halone, hfound, ?_⟩
  have hall := Driver.appended_alone hls
  rw [Driver.appendedBy, List.filter_eq_self.mpr (by simpa using hall)]

/-! ## The points of the service -/

/-- The service has its account, with the places of `qrng_write_arr` before `it` renewed, and what it
counts as accepted is what the device has taken. -/
structure Offers (drawn : G → Set β) (it : ℕ) (σ : QrngSystem β G) : Prop where
  /-- The account. -/
  bytes : σ.service.Accounted drawn it
  /-- The bytes appended are those accepted. -/
  appended : σ.driver.appendedBy SERVICE = σ.service.accepted

/-- What holds at each point of the service. -/
def AtPc (drawn : G → Set β) (σ : QrngSystem β G) : Prop :=
  match σ.pc with
  | .poll => (σ.driver.procs SERVICE).Rests ∧ Offers drawn 0 σ
  | .polled => (σ.driver.procs SERVICE).isPoll = true ∧ Offers drawn 0 σ
  | .renew => (σ.driver.procs SERVICE).Rests ∧ Side.out.Ready σ.driver.ring ∧ Offers drawn 0 σ
  | .write => (σ.driver.procs SERVICE).Rests ∧ Side.out.Ready σ.driver.ring ∧
      Offers drawn σ.service.qrngWriteArrRenew σ
  | .written => Driver.Promised σ.service.qrngWriteArr WRITE_SIZE SERVICE σ.service.accepted
      σ.driver ∧ σ.service.Accounted drawn σ.service.qrngWriteArrRenew
  | .stopped _ => False

/-- What holds in every state of a run. -/
structure Invariant (drawn : G → Set β) (σ : QrngSystem β G) : Prop where
  /-- The driver has made a run in which only the service writes. -/
  driver_run : σ.DriverRun
  /-- `qrng_write_arr_renew` is not zero. -/
  renew_pos : 1 ≤ σ.service.qrngWriteArrRenew
  /-- What holds at the point of the service. -/
  at_pc : σ.AtPc drawn

/-- The system starts so. -/
theorem invariant_init (drawn : G → Set β) (g : G) : (init g : QrngSystem β G).Invariant drawn where
  driver_run := ⟨[], by simp, rfl⟩
  renew_pos := by
    show 1 ≤ WRITE_SIZE
    decide
  at_pc := ⟨trivial, Service.accounted_init drawn g, rfl⟩

/-- What other processes do, and the steps of the service in the driver, keep a resting service. -/
theorem rests_step {l : Label β} (hl : l.KeepsCall SERVICE)
    (h : (σ.driver.procs SERVICE).Rests) :
    (σ.driver.step l).procs SERVICE = σ.driver.procs SERVICE ∧
      (σ.driver.step l).appendedBy SERVICE = σ.driver.appendedBy SERVICE := by
  by_cases hown : l = .sched SERVICE
  · subst hown
    rw [Driver.step, Driver.sched_procs_self, Driver.sched_appendedBy, h.step_eq]
    simp
  · exact ⟨h.eq_of_nudge (Driver.step_nudge _ hl hown), (Driver.step_records _ hown).2.1⟩

/-- They leave a ready slot ready. -/
theorem ready_step {l : Label β} (halone : Driver.Alone Side.out SERVICE σ.driver)
    (h : (σ.driver.procs SERVICE).Rests) (hready : Side.out.Ready σ.driver.ring) :
    Side.out.Ready (σ.driver.step l).ring := by
  by_cases hown : l = .sched SERVICE
  · subst hown
    have hring : (σ.driver.sched SERVICE).ring = σ.driver.ring := by
      rw [Driver.sched, h.step_eq]
    rwa [Driver.step, hring]
  · exact (halone.keeps Side.out_lawful hown).readyAt hready

/-- What other processes do, and the steps of the service in the driver, keep the invariant. -/
theorem Invariant.driver_step {l : Label β} (hl : l.KeepsCall SERVICE ∧ l.Leaves Side.out SERVICE)
    (h : σ.Invariant drawn) : ({ σ with driver := σ.driver.step l } : QrngSystem β G).Invariant drawn := by
  refine ⟨h.driver_run.concat hl.2 rfl, h.renew_pos, ?_⟩
  obtain ⟨-, halone, -, -⟩ := h.driver_run.facts
  have hat := h.at_pc
  obtain ⟨driver, service, pc⟩ := σ
  cases pc with
  | poll =>
    -- While the service is in its own code, no step of the driver is its own.
    obtain ⟨hrests, hbytes, happ⟩ := hat
    obtain ⟨hproc, happ'⟩ := rests_step hl.1 hrests
    refine ⟨?_, hbytes, happ'.trans happ⟩
    simp only [hproc]
    exact hrests
  | polled =>
    obtain ⟨hpoll, hbytes, happ⟩ := hat
    by_cases hown : l = .sched SERVICE
    · subst hown
      -- A poll appends nothing.
      have hnone : ((driver.procs SERVICE).step driver.ring).appended = [] := by
        refine Proc.step_appended _ ?_
        rw [← Bool.not_eq_true]
        intro hw
        cases hP : driver.procs SERVICE <;> simp_all [Proc.isPoll, Proc.isWrite]
      refine ⟨?_, hbytes, ?_⟩
      · simp only [Driver.step, Driver.sched_procs_self]
        exact Proc.isPoll_step _ hpoll
      · simp only [Driver.step, Driver.sched_appendedBy, hnone, ite_self, List.append_nil]
        exact happ
    · exact ⟨(Driver.step_nudge driver hl.1 hown).kind.2.2.trans hpoll, hbytes,
        (Driver.step_records driver hown).2.1.trans happ⟩
  | renew =>
    obtain ⟨hrests, hready, hbytes, happ⟩ := hat
    obtain ⟨hproc, happ'⟩ := rests_step hl.1 hrests
    refine ⟨?_, ready_step halone hrests hready, hbytes, happ'.trans happ⟩
    simp only [hproc]
    exact hrests
  | write =>
    obtain ⟨hrests, hready, hbytes, happ⟩ := hat
    obtain ⟨hproc, happ'⟩ := rests_step hl.1 hrests
    refine ⟨?_, ready_step halone hrests hready, hbytes, happ'.trans happ⟩
    simp only [hproc]
    exact hrests
  | written =>
    -- The service is in a write, which goes on, or stays as it is.
    obtain ⟨hpromised, hbytes⟩ := hat
    exact ⟨hpromised.step _ _ hl, hbytes⟩
  | stopped stop => exact hat

/-- A promised write that has returned. -/
theorem AtPc.result {ret : ℤ} {it : IovIter β} (h : σ.AtPc drawn) (hpc : σ.pc = .written)
    (hret : σ.driver.procs SERVICE = .returned (.write ret it)) :
    ∃ k : ℕ, ret = k ∧ 1 ≤ k ∧ k ≤ WRITE_SIZE ∧
      σ.driver.appendedBy SERVICE = σ.service.accepted ++ σ.service.qrngWriteArr.take k ∧
      σ.service.Accounted drawn σ.service.qrngWriteArrRenew := by
  unfold AtPc at h
  rw [hpc] at h
  obtain ⟨hpromised, hbytes⟩ := h
  have hlen := hbytes.arr_length
  obtain ⟨k, hk, hpos, hle, happ⟩ := hpromised.result hret
    (List.ne_nil_of_length_pos (by rw [hlen]; decide)) hlen.le
  exact ⟨k, hk, hpos, by omega, happ, hbytes⟩

/-- The service's own steps keep the invariant. -/
theorem Invariant.main_step (hfresh : rng.Fresh drawn REQUEST_SIZE) (h : σ.Invariant drawn) :
    (σ.main rng).Invariant drawn := by
  have hrun : (σ.main rng).DriverRun := h.driver_run.step rng .main
  obtain ⟨hacc, halone, hfound, -⟩ := h.driver_run.facts
  have hat := h.at_pc
  have hpos := h.renew_pos
  obtain ⟨driver, service, pc⟩ := σ
  cases pc with
  | poll =>
    -- `poll()` is entered, and the account is as it was.
    obtain ⟨hrests, hbytes, happ⟩ := hat
    refine ⟨hrun, hpos, ?_, hbytes, (Driver.step_records driver (by simp)).2.1.trans happ⟩
    simp only [main, Driver.step, if_pos hrests.free, Function.update_self]
    rfl
  | polled =>
    -- While the poll is in the driver, the service waits for it.
    obtain ⟨hpoll, hbytes, happ⟩ := hat
    simp only [main] at hrun ⊢
    cases hP : driver.procs SERVICE with
    | returned res =>
      cases res with
      | poll revents =>
        rw [hP] at hrun hfound
        refine ⟨hrun, hpos, ?_⟩
        have hrests : (driver.procs SERVICE).Rests := by
          rw [hP]
          trivial
        cases revents with
        | none => exact ⟨hrests, hbytes, happ⟩
        | some revents =>
          simp only [Option.any_some]
          split_ifs with hout
          · -- Only the service appends, so the free slot that the poll has found is still there.
            exact ⟨hrests, hfound hout, hbytes, happ⟩
          · exact ⟨hrests, hbytes, happ⟩
      | _ =>
        rw [hP] at hpoll
        exact absurd hpoll (by simp [Proc.isPoll])
    | _ =>
      rw [hP] at hrun
      exact ⟨hrun, hpos, hpoll, hbytes, happ⟩
  | renew =>
    obtain ⟨hrests, hready, hbytes, happ⟩ := hat
    -- The places that the last write took are renewed, from `qrng_buff`.
    obtain ⟨s, hs, hbytes', hrenew, hacc'⟩ := hbytes.prepare hfresh
    simp only [main, hs] at hrun ⊢
    refine ⟨hrun, by rw [hrenew]; exact hpos, hrests, hready, ?_, happ.trans hacc'.symm⟩
    simp only [hrenew]
    exact hbytes'
  | write =>
    obtain ⟨hrests, hready, hbytes, happ⟩ := hat
    -- `write()` is entered with a free slot in the ring, so it will take a byte.
    exact ⟨hrun, hpos, Driver.promised_call hacc halone hrests.free hready happ, hbytes⟩
  | written =>
    simp only [main] at hrun ⊢
    cases hP : driver.procs SERVICE with
    | returned res =>
      cases res with
      | write ret it =>
        -- The write has returned the number `k` of bytes appended, at least 1 and at most 256.
        obtain ⟨k, rfl, hk, hle, happ, hbytes⟩ := AtPc.result hat rfl hP
        obtain ⟨s, hs, hbytes', hrenew, hacc'⟩ := hbytes.finish hle
        rw [hP] at hrun
        simp only [hs] at hrun ⊢
        refine ⟨hrun, by rw [hrenew]; exact hk, ?_, hbytes', happ.trans hacc'.symm⟩
        simp only [hP]
        exact ⟨by omega, by omega⟩
      | _ =>
        rw [hP] at hrun
        exact ⟨hrun, hpos, hat⟩
    | _ =>
      rw [hP] at hrun
      exact ⟨hrun, hpos, hat⟩
  | stopped stop => exact hat.elim

/-- Every event keeps the invariant. -/
theorem Invariant.step (hfresh : rng.Fresh drawn REQUEST_SIZE) (h : σ.Invariant drawn)
    (e : Event β) : (σ.step rng e).Invariant drawn := by
  unfold QrngSystem.step
  split
  · exact h.main_step hfresh
  · next l hl => exact h.driver_step (label_leaves hl)

/-- The invariant holds in every state of every run. -/
theorem run_holds (hfresh : rng.Fresh drawn REQUEST_SIZE) (g : G) (es : List (Event β)) :
    ((init g : QrngSystem β G).run rng es).Invariant drawn :=
  run_invariant' (fun _ e h => h.step hfresh e) es (invariant_init drawn g)

/-! ## What follows -/

/-- A write of the service that has returned. -/
theorem Invariant.write_ret (h : σ.Invariant drawn) {ret : ℤ} {it : IovIter β}
    (hret : σ.driver.procs SERVICE = .returned (.write ret it)) : 1 ≤ ret ∧ ret ≤ WRITE_SIZE := by
  have hat := h.at_pc
  have hrests : (σ.driver.procs SERVICE).Rests → 1 ≤ ret ∧ ret ≤ WRITE_SIZE := by
    rw [hret]
    exact id
  cases hpc : σ.pc with
  | written =>
    -- Right after the write, its promise tells the value.
    obtain ⟨k, rfl, hk, hle, -⟩ := hat.result hpc hret
    omega
  | polled =>
    simp only [AtPc, hpc, hret] at hat
    exact absurd hat.1 (by simp [Proc.isPoll])
  | poll =>
    -- In its own code, the service rests with the value that it has accepted.
    simp only [AtPc, hpc] at hat
    exact hrests hat.1
  | renew =>
    simp only [AtPc, hpc] at hat
    exact hrests hat.1
  | write =>
    simp only [AtPc, hpc] at hat
    exact hrests hat.1
  | stopped stop =>
    simp only [AtPc, hpc] at hat

/-- The service has not stopped. -/
theorem Invariant.not_stopped (h : σ.Invariant drawn) (stop : Stop) : σ.pc ≠ .stopped stop := by
  intro hpc
  have hat := h.at_pc
  simp only [AtPc, hpc] at hat

/-- The account of the service, and what the device has taken of it: a part of what is accepted or still
in `qrng_write_arr`. -/
theorem Invariant.account (h : σ.Invariant drawn) :
    ∃ it, σ.service.Accounted drawn it ∧ ∃ xs, σ.driver.appendedBy SERVICE = σ.service.accepted ++ xs ∧
      xs.Sublist (σ.service.qrngWriteArr.take it ++
        σ.service.qrngWriteArr.drop σ.service.qrngWriteArrRenew) := by
  have hat := h.at_pc
  -- Outside of a write, nothing is appended that is not yet accepted.
  have hoffers : ∀ it, Offers drawn it σ → ∃ it, σ.service.Accounted drawn it ∧
      ∃ xs, σ.driver.appendedBy SERVICE = σ.service.accepted ++ xs ∧
        xs.Sublist (σ.service.qrngWriteArr.take it ++
          σ.service.qrngWriteArr.drop σ.service.qrngWriteArrRenew) := fun it ho =>
    ⟨it, ho.bytes, [], by rw [ho.appended, List.append_nil], List.nil_sublist _⟩
  cases hpc : σ.pc with
  | poll =>
    simp only [AtPc, hpc] at hat
    exact hoffers _ hat.2
  | polled =>
    simp only [AtPc, hpc] at hat
    exact hoffers _ hat.2
  | renew =>
    simp only [AtPc, hpc] at hat
    exact hoffers _ hat.2.2
  | write =>
    simp only [AtPc, hpc] at hat
    exact hoffers _ hat.2.2
  | written =>
    simp only [AtPc, hpc] at hat
    -- In a write, a first part of `qrng_write_arr` is appended.
    obtain ⟨xs, hphase, hxs⟩ := hat.1.phase
    refine ⟨_, hat.2, xs, hxs, ?_⟩
    rw [List.take_append_drop]
    exact hphase.isPrefix.sublist
  | stopped stop =>
    simp only [AtPc, hpc] at hat

/-- The device has not been given a byte twice, and only bytes drawn from the generator. -/
theorem Invariant.appended (h : σ.Invariant drawn) :
    (σ.driver.appended.map Prod.snd).Nodup ∧
      ∀ b ∈ σ.driver.appended.map Prod.snd, b ∈ drawn σ.service.rng := by
  obtain ⟨it, hbytes, xs, happ, hsub⟩ := h.account
  rw [h.driver_run.facts.2.2.2, happ]
  have hsublist := ((List.Sublist.refl σ.service.accepted).append hsub).trans
    (List.sublist_append_left _ (σ.service.qrngBuff.drop σ.service.qrngBuffReadIt))
  refine ⟨hsublist.nodup (hbytes.perm.nodup_iff.mp hbytes.nodup), fun b hb => ?_⟩
  exact hbytes.drawn_of_fetched b (hbytes.perm.mem_iff.mpr (hsublist.subset hb))

omit [Zero β] in
/-- The event is a step of the service in the driver. -/
def isService : Event β → Bool
  | .sched p => p = SERVICE
  | _ => false

/-- A write of the service returns after at most `6 * WRITE_SIZE + 4` of its steps in the driver. -/
theorem Invariant.write_returns (h : σ.Invariant drawn) (hpc : σ.pc = .written)
    {es : List (Event β)} (hes : ∀ e ∈ es, e ≠ .main)
    (hsteps : 6 * WRITE_SIZE + 4 ≤ es.countP isService) :
    ∃ ret it, (σ.run rng es).driver.procs SERVICE = .returned (.write ret it) := by
  -- While the service is in its write, the write is in one of its phases.
  have hphase : ∀ {σ : QrngSystem β G}, σ.Invariant drawn ∧ σ.pc = .written →
      σ.driver.Accounted ∧ σ.service.qrngWriteArr.length = WRITE_SIZE ∧
        ∃ xs, WritePhase σ.service.qrngWriteArr WRITE_SIZE (σ.driver.procs SERVICE) xs := by
    rintro σ ⟨h, hpc⟩
    have hat := h.at_pc
    simp only [AtPc, hpc] at hat
    obtain ⟨xs, hphase, -⟩ := hat.1.phase
    exact ⟨hat.1.accounted, hat.2.arr_length, xs, hphase⟩
  have hlabel : ∀ {e : Event β}, e ≠ .main → ∃ l, label e = some l := by
    intro e he
    cases e with
    | main => exact absurd rfl he
    | _ => exact ⟨_, rfl⟩
  have hstep : ∀ (σ : QrngSystem β G) (e : Event β), e ≠ .main →
      σ.Invariant drawn ∧ σ.pc = .written →
      (σ.step rng e).Invariant drawn ∧ (σ.step rng e).pc = .written := by
    intro σ e he hσ
    obtain ⟨l, hl⟩ := hlabel he
    simp only [QrngSystem.step, hl]
    exact ⟨hσ.1.driver_step (label_leaves hl), hσ.2⟩
  -- Its own steps lower the rank, and those of others leave the write alone.
  have hrank : ((σ.run rng es).driver.procs SERVICE).writeRank ≤
      (σ.driver.procs SERVICE).writeRank - es.countP isService := by
    refine run_measure (M := fun σ : QrngSystem β G => (σ.driver.procs SERVICE).writeRank) hstep
      (fun σ e he hσ hown => ?_) (fun σ e he hσ hown => ?_) hes ⟨h, hpc⟩
    · obtain ⟨⟨q, hrep, -⟩, -, xs, hwrite⟩ := hphase hσ
      cases e with
      | sched p =>
        obtain rfl : p = SERVICE := by simpa [isService] using hown
        simp only [QrngSystem.step, label, Driver.step, Driver.sched_procs_self]
        exact hwrite.writeRank_step hrep
      | _ => simp [isService] at hown
    · obtain ⟨-, -, xs, hwrite⟩ := hphase hσ
      obtain ⟨l, hl⟩ := hlabel he
      have hne : l ≠ .sched SERVICE := by
        rintro rfl
        cases e with
        | sched p =>
          obtain rfl : p = SERVICE := by simpa [label] using hl
          simp [isService] at hown
        | _ => simp [label] at hl
      simp only [QrngSystem.step, hl]
      rw [hwrite.eq_of_nudge (Driver.step_nudge _ (label_leaves hl).1 hne)]
  have hend : (σ.run rng es).Invariant drawn ∧ (σ.run rng es).pc = .written :=
    run_invariant hstep hes ⟨h, hpc⟩
  obtain ⟨-, hlen, xs, hwrite⟩ := hphase ⟨h, hpc⟩
  obtain ⟨-, -, ys, hwrite'⟩ := hphase hend
  have hle := hwrite.writeRank_le
  rw [hlen] at hle
  -- The events given are enough for the rank to reach zero.
  rw [Nat.sub_eq_zero_of_le (hle.trans hsteps)] at hrank
  exact hwrite'.returned (Nat.le_zero.mp hrank)

end QrngSystem

end QrngDevice
