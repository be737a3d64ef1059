import QrngDevice.Driver.Ring
import QrngDevice.Lib.Runs

/-!
# Processes in the driver

A process that reads, writes or polls the device runs `qrng_read_iter`, `qrng_write_iter` or
`qrng_poll` in small steps, and other processes may run between any two of them. A section under
`buff_mutex` is one step. A test of `read_ready` or `write_ready` without the mutex is two, the load
of the cursor and the load of the flag at that cursor. A call of `wake_up_interruptible` is one
step. The program counters name the points between the steps, and each `step` below follows the
source from one point to the next.

`wait_event_interruptible` is the kernel's loop: the process joins `read_queue`, evaluates the
condition, and sleeps if it is false, unless it was woken since it joined (then it joins again) or a
signal is pending (then the wait ends). The system call `poll` does the same around `qrng_poll`: it
registers on `poll_queue` once, evaluates, and sleeps unless it was triggered since.

The state records, beside the ring and the processes, which bytes have been appended, taken, and
copied to a reader, each with the process that did it. No step depends on these records.
-/

namespace QrngDevice

/-! ## Calls and their results -/

/-- `EAGAIN`. -/
abbrev EAGAIN : ℤ := 11

/-- `EFAULT`. -/
abbrev EFAULT : ℤ := 14

/-- `ERESTARTSYS`. -/
abbrev ERESTARTSYS : ℤ := 512

/-- The flags of a `kiocb` and of its file that `qrng_read_iter` tests. -/
structure Kiocb where
  /-- `IOCB_NOWAIT` in `ki_flags`. -/
  iocbNowait : Bool
  /-- `IOCB_NOIO` in `ki_flags`. -/
  iocbNoio : Bool
  /-- `O_NONBLOCK` in the file's `f_flags`. -/
  oNonblock : Bool
  deriving DecidableEq, Repr

/-- `nonblocking` in `qrng_read_iter`. -/
def Kiocb.nonblocking (k : Kiocb) : Bool := (k.iocbNowait || k.iocbNoio) || k.oNonblock

/-- The bits of a `__poll_t` that the driver knows. -/
structure PollMask where
  /-- `EPOLLOUT`. -/
  epollout : Bool
  /-- `POLLIN`. -/
  pollin : Bool
  /-- `EPOLLRDNORM`. -/
  epollrdnorm : Bool
  deriving DecidableEq, Repr

namespace PollMask

/-- No event. -/
def none : PollMask := ⟨false, false, false⟩

/-- The events of `m` that are asked for in `events`. -/
def inter (m events : PollMask) : PollMask :=
  ⟨m.epollout && events.epollout, m.pollin && events.pollin, m.epollrdnorm && events.epollrdnorm⟩

end PollMask

/-- A system call on the device. The first `limit` bytes of its buffer are accessible. -/
inductive Call (β : Type*)
  /-- A read into `buf`. -/
  | read (kiocb : Kiocb) (buf : List β) (limit : ℕ)
  /-- A write of `buf`. -/
  | write (buf : List β) (limit : ℕ)
  /-- A poll for some events, without timeout. -/
  | poll (events : PollMask)

/-- What a call returned to its process. -/
inductive Result (β : Type*)
  /-- The return value of a read, and its iterator. -/
  | read (ret : ℤ) (iter : IovIter β)
  /-- The return value of a write, and its iterator. -/
  | write (ret : ℤ) (iter : IovIter β)
  /-- The events that a poll reports, or `none` if a signal ended it. -/
  | poll (revents : Option PollMask)

/-! ## The state of a process -/

/-- The variables of a read: those of `qrng_read_iter` and `get_random_bytes_qrng`. -/
structure ReadCall (β : Type*) where
  /-- `nonblocking`; `get_all` is its negation. -/
  nonblocking : Bool
  /-- `iter`. -/
  iter : IovIter β
  /-- `ret`. -/
  ret : ℕ
  /-- Whether a signal is pending. -/
  sig : Bool

/-- The next step of a read. -/
inductive ReadPc (β : Type*)
  /-- `qrng_read_iter`: load the cursor for `!read_ready`. -/
  | testCursor
  /-- `qrng_read_iter`: load the flag at that cursor. -/
  | testFlag (k : ℕ)
  /-- `get_random_byte`: the section under the mutex. -/
  | take
  /-- `get_random_byte`: wake up `poll_queue`. -/
  | wakePoll (b : β)
  /-- `get_random_byte`: load the cursor for the test of `read_ready` that follows. -/
  | wakeCursor (b : β)
  /-- `get_random_byte`: load the flag at that cursor. -/
  | wakeFlag (b : β) (k : ℕ)
  /-- `get_random_byte`: wake up `read_queue`. -/
  | wakeRead (b : β)
  /-- `get_random_bytes_qrng`: copy the byte to the destination. -/
  | copy (b : β)
  /-- `wait_event_interruptible`: join `read_queue`. -/
  | waitJoin
  /-- `wait_event_interruptible`: load the cursor for `read_ready`. -/
  | waitCursor (woken : Bool)
  /-- `wait_event_interruptible`: load the flag at that cursor. -/
  | waitFlag (woken : Bool) (k : ℕ)
  /-- `wait_event_interruptible`: asleep on `read_queue`. -/
  | asleep

/-- The variables of a write: those of `qrng_write_iter`. -/
structure WriteCall (β : Type*) where
  /-- `iter`. -/
  iter : IovIter β
  /-- `ret`. -/
  ret : ℕ

/-- The next step of a write. -/
inductive WritePc
  /-- `qrng_write_iter`: the test for an empty source. -/
  | entry
  /-- `qrng_write_iter`: load the cursor for `write_ready`. -/
  | testCursor
  /-- `qrng_write_iter`: load the flag at that cursor. -/
  | testFlag (k : ℕ)
  /-- `write_random_bytes_qrng`: the section under the mutex. -/
  | append
  /-- `write_random_bytes_qrng`: wake up `read_queue`, after `copied` bytes. -/
  | wakeRead (copied : ℕ)
  /-- `write_random_bytes_qrng`: wake up `poll_queue`. -/
  | wakePoll (copied : ℕ)
  deriving DecidableEq

/-- The variables of a poll. -/
structure PollCall where
  /-- The events asked for. -/
  events : PollMask
  /-- `res` of `qrng_poll`. -/
  res : PollMask
  /-- Whether `poll_queue` has been woken up since the last evaluation began. -/
  triggered : Bool
  /-- Whether a signal is pending. -/
  sig : Bool

/-- The next step of a poll. -/
inductive PollPc
  /-- `poll_wait`: register on `poll_queue`. -/
  | register
  /-- `qrng_poll`: load the cursor for `write_ready`. -/
  | outCursor
  /-- `qrng_poll`: load the flag at that cursor. -/
  | outFlag (k : ℕ)
  /-- `qrng_poll`: load the cursor for `read_ready`. -/
  | inCursor
  /-- `qrng_poll`: load the flag at that cursor, and return. -/
  | inFlag (k : ℕ)
  /-- Asleep in `poll`. -/
  | asleep
  deriving DecidableEq

/-- The state of a process. -/
inductive Proc (β : Type*)
  /-- It has made no call yet. -/
  | idle
  /-- It is in a read. -/
  | read (c : ReadCall β) (pc : ReadPc β)
  /-- It is in a write. -/
  | write (c : WriteCall β) (pc : WritePc)
  /-- It is in a poll. -/
  | poll (c : PollCall) (pc : PollPc)
  /-- Its last call has returned. -/
  | returned (r : Result β)

/-- What one step of a process does: to the ring, to itself, to the waiters of the two queues, and
to the records. -/
structure Outcome (β : Type*) where
  /-- The ring after the step. -/
  ring : RingBuffer β
  /-- The process after the step. -/
  proc : Proc β
  /-- Whether the step wakes up `read_queue`. -/
  wakesRead : Bool := false
  /-- Whether the step wakes up `poll_queue`. -/
  wakesPoll : Bool := false
  /-- The bytes that it took from the ring. -/
  taken : List β := []
  /-- The bytes that it appended to the ring. -/
  appended : List β := []
  /-- The bytes that it copied to a destination. -/
  delivered : List β := []

variable {β : Type*}

/-! ## The steps of a call -/

/-- The head of the loop of `get_random_bytes_qrng`, and its end. -/
def ReadCall.loop (c : ReadCall β) : Proc β :=
  if iovIterCount c.iter ≠ 0 then .read c .take
  else .returned (.read (if c.ret ≠ 0 then c.ret else -EFAULT) c.iter)

/-- One step of a read. -/
def ReadCall.step [Zero β] (c : ReadCall β) (r : RingBuffer β) : ReadPc β → Outcome β
  | .testCursor => { ring := r, proc := .read c (.testFlag r.qrngBuffReadIt) }
  | .testFlag k =>
    if !r.qrngBuffReady k && c.nonblocking then
      { ring := r, proc := .returned (.read (-EAGAIN) c.iter) }
    -- From here on, `get_random_bytes_qrng`: first its test for an empty destination.
    else if iovIterCount c.iter = 0 then
      { ring := r, proc := .returned (.read 0 c.iter) }
    else
      { ring := r, proc := c.loop }
  | .take =>
    match r.getRandomByte with
    | none =>
      -- `get_random_byte` has returned 0: `else return ret`, or the wait.
      if c.nonblocking then { ring := r, proc := .returned (.read c.ret c.iter) }
      else { ring := r, proc := .read c .waitJoin }
    | some (b, r') => { ring := r', proc := .read c (.wakePoll b), taken := [b] }
  | .wakePoll b => { ring := r, proc := .read c (.wakeCursor b), wakesPoll := true }
  | .wakeCursor b => { ring := r, proc := .read c (.wakeFlag b r.qrngBuffReadIt) }
  | .wakeFlag b k =>
    { ring := r, proc := .read c (if r.qrngBuffReady k then .wakeRead b else .copy b) }
  | .wakeRead b => { ring := r, proc := .read c (.copy b), wakesRead := true }
  | .copy b =>
    let (n, it) := copyToIter b c.iter
    -- The byte is gone from the ring, also if the copy has failed.
    { ring := r
      proc := ReadCall.loop { c with iter := it, ret := c.ret + n }
      delivered := if n = 1 then [b] else [] }
  | .waitJoin => { ring := r, proc := .read c (.waitCursor false) }
  | .waitCursor woken => { ring := r, proc := .read c (.waitFlag woken r.qrngBuffReadIt) }
  | .waitFlag woken k =>
    -- `continue` if the condition holds, `-ERESTARTSYS` if a signal is pending.
    if r.qrngBuffReady k then { ring := r, proc := c.loop }
    else if c.sig then { ring := r, proc := .returned (.read (-ERESTARTSYS) c.iter) }
    else { ring := r, proc := .read c (if woken then .waitJoin else .asleep) }
  | .asleep => { ring := r, proc := .read c .asleep }

/-- The end of `qrng_write_iter`. -/
def WriteCall.finish (c : WriteCall β) : Proc β :=
  .returned (.write (if c.ret ≠ 0 then c.ret else -EFAULT) c.iter)

/-- The head of the loop of `qrng_write_iter`. -/
def WriteCall.loop (c : WriteCall β) : Proc β :=
  if iovIterCount c.iter ≠ 0 then .write c .testCursor else c.finish

/-- One step of a write. -/
def WriteCall.step (c : WriteCall β) (r : RingBuffer β) : WritePc → Outcome β
  | .entry =>
    if iovIterCount c.iter = 0 then { ring := r, proc := .returned (.write 0 c.iter) }
    else { ring := r, proc := c.loop }
  | .testCursor => { ring := r, proc := .write c (.testFlag r.qrngBuffWriteIt) }
  | .testFlag k => { ring := r, proc := if r.qrngBuffReady k then c.finish else .write c .append }
  | .append =>
    let s := r.writeRandomBytesQrng c.iter
    let c' := { c with iter := s.iter }
    -- `if (ret)` around the wake-ups, and `if (copied == 0) break` after the call.
    { ring := s.ring
      proc := if s.ret = 0 then c'.finish else .write c' (.wakeRead s.ret)
      appended := (c.iter.buf.drop c.iter.off).take s.ret }
  | .wakeRead copied => { ring := r, proc := .write c (.wakePoll copied), wakesRead := true }
  | .wakePoll copied =>
    { ring := r, proc := WriteCall.loop { c with ret := c.ret + copied }, wakesPoll := true }

/-- One step of a poll. -/
def PollCall.step (c : PollCall) (r : RingBuffer β) : PollPc → Outcome β
  | .register => { ring := r, proc := .poll c .outCursor }
  | .outCursor => { ring := r, proc := .poll { c with res := .none } (.outFlag r.qrngBuffWriteIt) }
  | .outFlag k =>
    { ring := r
      proc := .poll { c with res := { c.res with epollout := !r.qrngBuffReady k } } .inCursor }
  | .inCursor => { ring := r, proc := .poll c (.inFlag r.qrngBuffReadIt) }
  | .inFlag k =>
    let ready := r.qrngBuffReady k
    let revents := PollMask.inter { c.res with pollin := ready, epollrdnorm := ready } c.events
    -- The kernel's loop returns the events found, and otherwise sleeps until a wake-up.
    if revents ≠ .none then { ring := r, proc := .returned (.poll (some revents)) }
    else if c.sig then { ring := r, proc := .returned (.poll none) }
    else if c.triggered then { ring := r, proc := .poll { c with triggered := false } .outCursor }
    else { ring := r, proc := .poll c .asleep }
  | .asleep => { ring := r, proc := .poll c .asleep }

namespace Proc

/-- One step of a process, on the ring. -/
def step [Zero β] (r : RingBuffer β) : Proc β → Outcome β
  | .read c pc => c.step r pc
  | .write c pc => c.step r pc
  | .poll c pc => c.step r pc
  | p => { ring := r, proc := p }

/-- The process after a wake-up of `read_queue`: a sleeper joins the queue anew, and a process that
has joined and not yet slept will not sleep. -/
def wokenRead : Proc β → Proc β
  | .read c (.waitCursor _) => .read c (.waitCursor true)
  | .read c (.waitFlag _ k) => .read c (.waitFlag true k)
  | .read c .asleep => .read c .waitJoin
  | p => p

/-- The process after a wake-up of `poll_queue`: a sleeper evaluates again, and a process that has
registered and not yet slept will not sleep. -/
def wokenPoll : Proc β → Proc β
  | .poll c .register => .poll c .register
  | .poll c .asleep => .poll c .outCursor
  | .poll c pc => .poll { c with triggered := true } pc
  | p => p

/-- The process after a step of another one that wakes up some of the queues. -/
def woken (wakesRead wakesPoll : Bool) (p : Proc β) : Proc β :=
  let p' := if wakesRead then p.wokenRead else p
  if wakesPoll then p'.wokenPoll else p'

/-- The process after a signal: it is noted for the waits, and ends a sleep. -/
def signalled : Proc β → Proc β
  | .read c .asleep => .read { c with sig := true } .waitJoin
  | .read c pc => .read { c with sig := true } pc
  | .poll c .asleep => .poll { c with sig := true } .outCursor
  | .poll c pc => .poll { c with sig := true } pc
  | p => p

/-- The process is in no call. -/
def free : Proc β → Bool
  | .idle => true
  | .returned _ => true
  | _ => false

/-- The process at the start of a call. -/
def start : Call β → Proc β
  | .read kiocb buf limit => .read ⟨kiocb.nonblocking, .start buf limit, 0, false⟩ .testCursor
  | .write buf limit => .write ⟨.start buf limit, 0⟩ .entry
  | .poll events => .poll ⟨events, .none, false, false⟩ .register

end Proc

/-! ## The driver and its processes -/

/-- A process identifier. Any number of processes may use the device. -/
abbrev Pid : Type := ℕ

/-- The ring, the processes that use it, and the records of the bytes moved so far. -/
structure Driver (β : Type*) where
  /-- The ring. -/
  ring : RingBuffer β
  /-- The processes. -/
  procs : Pid → Proc β
  /-- The bytes appended to the ring so far, in order, each with its writer. -/
  appended : List (Pid × β)
  /-- The bytes taken from the ring so far, in order, each with its reader. -/
  taken : List (Pid × β)
  /-- The bytes copied to destinations so far, in order, each with its reader. -/
  delivered : List (Pid × β)

/-- What happens next. -/
inductive Label (β : Type*)
  /-- Process `p` enters a call, if it is in none. -/
  | call (p : Pid) (c : Call β)
  /-- Process `p` makes its next step. A sleeper, or a process in no call, has none. -/
  | sched (p : Pid)
  /-- Process `p` gets a signal. -/
  | signal (p : Pid)

namespace Driver

/-- The driver when the module is loaded. -/
def init [Zero β] : Driver β := ⟨.init, fun _ => .idle, [], [], []⟩

/-- Process `p` makes its next step. -/
def sched [Zero β] (σ : Driver β) (p : Pid) : Driver β :=
  let o := (σ.procs p).step σ.ring
  -- A process does not wake up itself: at a wake-up it is in no queue.
  { ring := o.ring
    procs := fun q => if q = p then o.proc else (σ.procs q).woken o.wakesRead o.wakesPoll
    appended := σ.appended ++ o.appended.map (p, ·)
    taken := σ.taken ++ o.taken.map (p, ·)
    delivered := σ.delivered ++ o.delivered.map (p, ·) }

/-- The driver after a label. -/
def step [Zero β] (σ : Driver β) : Label β → Driver β
  | .call p c =>
    if (σ.procs p).free then { σ with procs := Function.update σ.procs p (.start c) } else σ
  | .sched p => σ.sched p
  | .signal p => { σ with procs := Function.update σ.procs p (σ.procs p).signalled }

/-- The driver after the labels `ls`. -/
abbrev run [Zero β] (σ : Driver β) (ls : List (Label β)) : Driver β := Runs.run step σ ls

end Driver

end QrngDevice
