import Yagra.Alert.Alert

/-!
# `Yagra.Notify.Dispatcher`: one channel, with retries and deduplication

A `Dispatcher` delivers notifications over one channel. It keeps the keys of the alerts it
has delivered and that are not resolved yet, and suppresses a notification whose key is among
them. A call the channel refuses is made again, up to the policy's number of attempts.

The channel itself is a parameter: any state with an answer to `deliver` and one to
`deliverResolve`. `CallLog` is the channel that takes every call and remembers it. Reading a
log, `hasIncident key` says whether the last call about a key was a delivery. That is what a
vendor that opens an incident on a delivery and closes it on a resolve shows.

The waiting time between attempts, the duration of a call and the text of a failure are not
modelled: nothing here reads them.
-/

set_option autoImplicit false

namespace Yagra

/-- What is delivered, as far as the dispatcher reads it. -/
structure Notification where
  dedupKey : DedupKey
deriving DecidableEq

/-- What a channel answers to a resolve it did not refuse. -/
inductive ResolveSent where
  | sent
  /-- The channel has no incident to close. -/
  | nothingToSend
deriving DecidableEq, Repr

/-- A channel with a state of its own. A call says whether it was refused. -/
class NotifyChannel (σ : Type) where
  deliver : σ → Notification → σ × Except Unit Unit
  deliverResolve : σ → Notification → σ × Except Unit ResolveSent

/-- How often a call is made before it counts as failed. -/
structure RetryPolicy where
  maxAttempts : Nat
deriving DecidableEq, Repr

/-- The outcome of dispatching one notification. -/
inductive DispatchOutcome where
  | delivered (attempts : Nat)
  /-- A duplicate of an alert that is still active. The channel was not called. -/
  | suppressed
  /-- A resolve on a channel with nothing to send. -/
  | skipped
  | failed (attempts : Nat)
deriving DecidableEq, Repr

/-- A channel with its retry policy and the keys it has delivered and not resolved. -/
structure Dispatcher (σ : Type) where
  channel : σ
  policy : RetryPolicy
  active : DedupKey → Bool

namespace Dispatcher

variable {σ : Type}

/-- A dispatcher that has seen no incident. -/
def new (channel : σ) (policy : RetryPolicy) : Dispatcher σ := ⟨channel, policy, fun _ => false⟩

/-- Forget a key, so that the next notification with it is delivered. -/
def markResolved (d : Dispatcher σ) (key : DedupKey) : Dispatcher σ :=
  { d with active := Function.update d.active key false }

section
variable [NotifyChannel σ]

/-- One call to the channel: `none` when it was refused. -/
def attempt (channel : σ) (n : Notification) (resolve : Bool) : σ × Option ResolveSent :=
  if resolve then
    match NotifyChannel.deliverResolve channel n with
    | (channel, .ok answer) => (channel, some answer)
    | (channel, .error _) => (channel, none)
  else
    match NotifyChannel.deliver channel n with
    | (channel, .ok _) => (channel, some .sent)
    | (channel, .error _) => (channel, none)

/-- Attempt number `attempts + 1` and those after it, with `left` attempts left. -/
def retryLoop (n : Notification) (resolve : Bool) : Nat → Nat → σ → σ × DispatchOutcome
  | 0, attempts, channel => (channel, .failed attempts)
  | left + 1, attempts, channel =>
    match attempt channel n resolve with
    | (channel, some .nothingToSend) => (channel, .skipped)
    | (channel, some .sent) => (channel, .delivered (attempts + 1))
    | (channel, none) => retryLoop n resolve left (attempts + 1) channel

variable (d : Dispatcher σ) (n : Notification)

/-- Deliver with the retry policy. At least one attempt is made. -/
def deliverWithRetry (resolve : Bool) : Dispatcher σ × DispatchOutcome :=
  match retryLoop n resolve (max d.policy.maxAttempts 1) 0 d.channel with
  | (channel, outcome) => ({ d with channel := channel }, outcome)

/-- Deliver a notification unless it is a duplicate. The key is kept only if the delivery
succeeded. -/
def dispatch : Dispatcher σ × DispatchOutcome :=
  if d.active n.dedupKey then (d, .suppressed)
  else
    match d.deliverWithRetry n false with
    | (d, .delivered attempts) =>
      ({ d with active := Function.update d.active n.dedupKey true }, .delivered attempts)
    | (d, outcome) => (d, outcome)

/-- Forget the key and deliver the resolve, whether or not the key was kept. -/
def dispatchResolve : Dispatcher σ × DispatchOutcome :=
  (d.markResolved n.dedupKey).deliverWithRetry n true

end

end Dispatcher

/-! ### A channel that takes every call -/

/-- A call a channel has taken. -/
inductive ChannelCall where
  | deliver (key : DedupKey)
  | resolve (key : DedupKey)
deriving DecidableEq

/-- The key a call is about. -/
def ChannelCall.key : ChannelCall → DedupKey
  | .deliver key | .resolve key => key

/-- The calls a channel has taken, oldest first. -/
structure CallLog where
  calls : List ChannelCall
deriving DecidableEq

namespace CallLog

/-- No calls yet. -/
def empty : CallLog := ⟨[]⟩

variable (log : CallLog) (key : DedupKey)

/-- One more call. -/
def push (call : ChannelCall) : CallLog := ⟨log.calls ++ [call]⟩

instance : NotifyChannel CallLog where
  deliver log n := (log.push (.deliver n.dedupKey), .ok ())
  deliverResolve log n := (log.push (.resolve n.dedupKey), .ok .sent)

/-- What one call makes of whether there is an open incident under a key. -/
def record (incident : Bool) : ChannelCall → Bool
  | .deliver k => incident || decide (k = key)
  | .resolve k => incident && decide (k ≠ key)

/-- Whether a delivery under the key has not been followed by a resolve of it. -/
def hasIncident : Bool := log.calls.foldl (record key) false

@[simp] theorem hasIncident_push_deliver (k key : DedupKey) :
    (log.push (.deliver k)).hasIncident key = (log.hasIncident key || decide (k = key)) := by
  simp [hasIncident, push, record]

@[simp] theorem hasIncident_push_resolve (k key : DedupKey) :
    (log.push (.resolve k)).hasIncident key = (log.hasIncident key && decide (k ≠ key)) := by
  simp [hasIncident, push, record]

end CallLog

namespace Dispatcher

variable (d : Dispatcher CallLog) (n : Notification)

/-- A delivery to the log takes one attempt. -/
theorem deliverWithRetry_log (resolve : Bool) :
    d.deliverWithRetry n resolve
      = ({ d with
            channel := d.channel.push (if resolve then .resolve n.dedupKey else .deliver n.dedupKey)
          }, .delivered 1) := by
  obtain ⟨left, hleft⟩ : ∃ left, max d.policy.maxAttempts 1 = left + 1 :=
    ⟨max d.policy.maxAttempts 1 - 1, by omega⟩
  unfold deliverWithRetry
  rw [hleft]
  cases resolve <;> rfl

/-- A notification is delivered to the log exactly when its key is not kept. -/
theorem dispatch_log :
    d.dispatch n
      = if d.active n.dedupKey then (d, .suppressed)
        else ({ d with
                channel := d.channel.push (.deliver n.dedupKey)
                active := Function.update d.active n.dedupKey true }, .delivered 1) := by
  unfold dispatch
  rw [deliverWithRetry_log]
  rfl

theorem dispatchResolve_log :
    d.dispatchResolve n
      = ({ d with
            channel := d.channel.push (.resolve n.dedupKey)
            active := Function.update d.active n.dedupKey false }, .delivered 1) := by
  unfold dispatchResolve
  rw [deliverWithRetry_log]
  rfl

end Dispatcher

end Yagra
