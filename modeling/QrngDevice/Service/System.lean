import QrngDevice.Driver.Process
import QrngDevice.Service.WriteRandomBytes

/-!
# The whole system

The service of `userspace/src/main.cpp` polls the device for `POLLOUT` and then calls
`write_random_bytes`, again and again. Here its `main` loop runs beside the driver, as one of the
processes that use the device, and any number of other processes read and poll. The service makes its
calls of `poll` and `write` by the driver's steps, and other processes may run between any two steps.

The part of `write_random_bytes` before its `write` uses the variables of the service only, so it is
one step. The loop ends with `ABORT_F`, or with an access beyond an array, or never.
-/

namespace QrngDevice

/-- The next step of the service in its own code. -/
inductive MainPc
  /-- `main`: call `poll`. -/
  | poll
  /-- `main`: test `revents` when `poll` has returned. -/
  | polled
  /-- `write_random_bytes`: renew `qrng_write_arr`. -/
  | renew
  /-- `write_random_bytes`: call `write`. -/
  | write
  /-- `write_random_bytes`: test `wres` when `write` has returned. -/
  | written
  /-- The service has come to an end. -/
  | stopped (stop : Stop)
  deriving DecidableEq

/-- The driver with its processes, and the service, which is one of them. -/
structure QrngSystem (β G : Type) where
  /-- The driver. -/
  driver : Driver β
  /-- The variables of the service. -/
  service : Service β G
  /-- The next step of the service. -/
  pc : MainPc

/-- What happens next. The other processes make no writes. -/
inductive Event (β : Type)
  /-- The service makes its next step in its own code. In a call, it has none. -/
  | main
  /-- Process `p + 1` enters a read, if it is in no call. -/
  | read (p : ℕ) (kiocb : Kiocb) (buf : List β) (limit : ℕ)
  /-- Process `p + 1` enters a poll, if it is in no call. -/
  | poll (p : ℕ) (events : PollMask)
  /-- Process `p` makes its next step in the driver. -/
  | sched (p : Pid)
  /-- Process `p` gets a signal. -/
  | signal (p : Pid)

/-- The process of the service. -/
abbrev SERVICE : Pid := 0

/-- `qrngpoll.events`. -/
abbrev POLLOUT : PollMask := ⟨true, false, false⟩

namespace QrngSystem

variable {β G : Type} [Zero β]

/-- The system when the module is loaded and the service has opened the device. -/
def init (g : G) : QrngSystem β G := ⟨.init, .init g, .poll⟩

/-- What an event does to the driver, other than by a step of the service in its own code. -/
def label : Event β → Option (Label β)
  | .main => none
  | .read p kiocb buf limit => some (.call (p + 1) (.read kiocb buf limit))
  | .poll p events => some (.call (p + 1) (.poll events))
  | .sched p => some (.sched p)
  | .signal p => some (.signal p)

/-- The service makes its next step in its own code. -/
def main (rng : RNG β G) (σ : QrngSystem β G) : QrngSystem β G :=
  match σ.pc with
  | .poll => { σ with driver := σ.driver.step (.call SERVICE (.poll POLLOUT)), pc := .polled }
  | .polled =>
    match σ.driver.procs SERVICE with
    | .returned (.poll revents) =>
      -- A poll that a signal has ended leaves `revents` zero.
      { σ with pc := if revents.any (·.epollout) then .renew else .poll }
    | _ => σ
  | .renew =>
    match σ.service.prepare rng with
    | .ok s => { σ with service := s, pc := .write }
    | .error stop => { σ with pc := .stopped stop }
  | .write =>
    { σ with
      driver := σ.driver.step (.call SERVICE (.write σ.service.qrngWriteArr WRITE_SIZE))
      pc := .written }
  | .written =>
    match σ.driver.procs SERVICE with
    | .returned (.write ret _) =>
      match σ.service.finish ret with
      -- Back to `while (1)`, or the end after `ABORT_F`.
      | .ok s => { σ with service := s, pc := .poll }
      | .error stop => { σ with pc := .stopped stop }
    | _ => σ
  | .stopped _ => σ

/-- The system after an event. -/
def step (rng : RNG β G) (σ : QrngSystem β G) (e : Event β) : QrngSystem β G :=
  match label e with
  | none => σ.main rng
  | some l => { σ with driver := σ.driver.step l }

/-- The system after the events `es`. -/
abbrev run (rng : RNG β G) (σ : QrngSystem β G) (es : List (Event β)) : QrngSystem β G :=
  Runs.run (step rng) σ es

/-- While the service makes no step in its own code, the steps of a process are the driver's. -/
theorem run_sched (rng : RNG β G) (σ : QrngSystem β G) (p : Pid) (n : ℕ) :
    Runs.run (step rng) σ (List.replicate n (.sched p)) =
      { σ with driver := σ.driver.run (List.replicate n (.sched p)) } := by
  induction n generalizing σ with
  | zero => rfl
  | succ n ih =>
    simp only [List.replicate_succ, Runs.run_cons]
    exact ih _

end QrngSystem

end QrngDevice
