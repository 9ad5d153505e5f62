import Yagra.Common.Address
import Yagra.Lib.OrdSet

/-!
# `Yagra.Poller.Limiter`: one probe of a device at a time

The limiter has a number of permits, one for each probe that may run at the same time, and the set
of the devices that are being probed. A task asks for both with `claim_then_permit`: it looks
whether the device is busy, waits for a permit, and claims the device under the lock. If another
task has claimed the device in between, it hands the permit back and waits. `begin_global` asks for
a permit only.

What a task gets is a guard. Dropping the guard takes the device out of the set, and then gives the
permit back. A guard of `begin_global` names no device: its target is the unspecified address.

Each await and each locked section is one step, and any task that is not blocked may make the next
one. Whether the deadline of a wait has passed is told by the step. The semaphore is never closed.
-/

set_option autoImplicit false

namespace Yagra.Poller

open Yagra.Lib (OrdSet)

/-- What is held for the time of one probe, by the call it comes from. The source keeps only the
target. -/
inductive PollGuard where
  | ofClaim (target : IpAddr)
  | ofGlobal
deriving DecidableEq, Repr

/-- The device a guard names. One around a bare permit names the placeholder. -/
def PollGuard.target : PollGuard → IpAddr
  | ofClaim target => target
  | ofGlobal => .unspecified

/-- Where a task is. -/
inductive PollTask where
  /-- About to look whether the device is busy. -/
  | peek (target : IpAddr)
  /-- The device looked free: waiting for a permit. -/
  | awaitPermit (target : IpAddr)
  /-- With a permit, about to claim the device. -/
  | claim (target : IpAddr)
  /-- The device was claimed by another task: about to hand the permit back. -/
  | giveBack (target : IpAddr)
  /-- About to compare the clock with the deadline. -/
  | checkDeadline (target : IpAddr)
  /-- Waiting for a release or for the next tick. -/
  | awaitRelease (target : IpAddr)
  /-- In `begin_global`, waiting for a permit. -/
  | awaitGlobal
  | holding (guard : PollGuard)
  /-- In the middle of dropping its guard: the marker is gone, the permit is not back yet. -/
  | dropping
  | done
deriving DecidableEq, Repr

/-- The two ways to ask for a guard. -/
inductive PollCall where
  | claimThenPermit (target : IpAddr)
  | beginGlobal
deriving DecidableEq, Repr

/-- The limiter and the tasks that use it. -/
structure PollLimiter where
  /-- The permits that are free. -/
  permits : Nat
  inflight : OrdSet IpAddr
  tasks : List PollTask
deriving DecidableEq

namespace PollLimiter

/-- A limiter without tasks. -/
def new (maxConcurrent : Nat) : PollLimiter := ⟨max maxConcurrent 1, ∅, []⟩

/-- The first step of a call. -/
def start : PollCall → PollTask
  | .claimThenPermit target => .peek target
  | .beginGlobal => .awaitGlobal

/-- What can happen next. -/
inductive Op where
  /-- A new task makes a call. -/
  | spawn (call : PollCall)
  /-- A task makes its next step. `late` says whether its deadline has passed. -/
  | advance (i : Nat) (late : Bool)
deriving DecidableEq, Repr

/-- The next step of the task at position `i`. -/
def advance (s : PollLimiter) (i : Nat) (late : Bool) : PollTask → PollLimiter
  | .peek t =>
    if t ∈ s.inflight then { s with tasks := s.tasks.set i (.checkDeadline t) }
    else { s with tasks := s.tasks.set i (.awaitPermit t) }
  | .awaitPermit t =>
    if s.permits = 0 then s
    else { s with permits := s.permits - 1, tasks := s.tasks.set i (.claim t) }
  | .claim t =>
    if t ∈ s.inflight then { s with tasks := s.tasks.set i (.giveBack t) }
    else { s with inflight := s.inflight.insert t, tasks := s.tasks.set i (.holding (.ofClaim t)) }
  | .giveBack t =>
    { s with permits := s.permits + 1, tasks := s.tasks.set i (.checkDeadline t) }
  | .checkDeadline t =>
    if late then { s with tasks := s.tasks.set i .done }
    else { s with tasks := s.tasks.set i (.awaitRelease t) }
  | .awaitRelease t => { s with tasks := s.tasks.set i (.peek t) }
  | .awaitGlobal =>
    if s.permits = 0 then s
    else { s with permits := s.permits - 1, tasks := s.tasks.set i (.holding .ofGlobal) }
  -- The guard is dropped. Its drop does not ask where the guard comes from.
  | .holding guard =>
    { s with inflight := s.inflight.erase guard.target, tasks := s.tasks.set i .dropping }
  | .dropping => { s with permits := s.permits + 1, tasks := s.tasks.set i .done }
  | .done => s

/-- What happens. -/
def step (s : PollLimiter) : Op → PollLimiter
  | .spawn call => { s with tasks := s.tasks ++ [start call] }
  | .advance i late =>
    match s.tasks[i]? with
    | some task => s.advance i late task
    | none => s

end PollLimiter

end Yagra.Poller
