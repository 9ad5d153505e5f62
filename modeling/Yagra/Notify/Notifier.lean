import Yagra.Alert.System
import Yagra.Notify.Dispatcher

/-!
# `Yagra.Notify.Notifier`: routing, delivering and holding notifications

The notifier takes the engine's actions one at a time. An action about a node outside its
delivery hours is held (`holdIfClosed`); any other is delivered now (`deliver`). A fire goes to
the default route and to every channel a rule selects for its severity. A resolve, or the
roll-up of an alert that had its own incident, closes the incident on the same channels.

A held fire that its own resolve overtakes is dropped together with it. `release` is the pass
that sends what was held for the nodes whose hours have opened, comparing each row with the
alerts that are active.

Channels do not share state, so what is done on every channel is done channel by channel
without an order. The texts of notifications, their templates and the delivery log are not
modelled.
-/

set_option autoImplicit false

namespace Yagra

/-!
## When a node may be notified about, and what is held meanwhile

A node that some schedule covers keeps hours: windows of the week, read in the node's own time
zone. A node no schedule covers is always open, and so is an alert about no node. The zone is a
parameter: the function that reads an instant as an ISO weekday and a minute of the day.

What the notifier holds back until the hours open is a list of rows, oldest first. `HeldStore`
is that list with the ids given out so far. Its writes succeed.
-/

/-- One stretch of a week: the weekdays as bits from Monday, and the minutes of the day. -/
structure Window where
  days : Nat
  start : Nat
  stop : Nat
deriving DecidableEq, Repr

namespace Window

/-- Whether the window lists the ISO weekday. -/
def on (w : Window) (day : Nat) : Bool := w.days.testBit (day - 1)

/-- Whether the window is open at a minute of an ISO weekday. One that ends before it starts
spans midnight. -/
def openAt (w : Window) (day minute : Nat) : Bool :=
  let previous := if day = 1 then 7 else day - 1
  if w.start = w.stop then w.on day
  else if w.start < w.stop then w.on day && w.start ≤ minute && minute < w.stop
  else (w.on day && w.start ≤ minute) || (w.on previous && minute < w.stop)

end Window

/-- The hours one node keeps. -/
structure NodeHours where
  /-- The ISO weekday and the minute of the day of an instant. -/
  zone : UnixMs → Nat × Nat
  windows : List Window

/-- Whether any window is open. -/
def NodeHours.isOpen (h : NodeHours) (now : UnixMs) : Bool :=
  match h.zone now with
  | (day, minute) => h.windows.any fun w => w.openAt day minute

/-- The nodes some schedule covers. -/
structure HoursPolicy where
  nodes : List (NodeId × NodeHours)

namespace HoursPolicy

/-- Whether no node has hours. -/
def isEmpty (p : HoursPolicy) : Bool := p.nodes.isEmpty

/-- Whether a notification about `node` may be delivered. -/
def isOpen (p : HoursPolicy) (node : Option NodeId) (now : UnixMs) : Bool :=
  match node.bind fun n => p.nodes.lookup n with
  | none => true
  | some h => h.isOpen now

end HoursPolicy

/-! ### What is held -/

/-- What the notifier was handed when it held a notification. -/
inductive HeldEvent where
  | fire
  | resolve
  | suppress
deriving DecidableEq, Repr

/-- One held notification. -/
structure HeldRow where
  id : Nat
  event : HeldEvent
  alert : Alert
deriving DecidableEq

/-- Whether the row is a held fire of a check. -/
def HeldRow.isFireOf (subject : Subject) (check : CheckId) (row : HeldRow) : Bool :=
  decide (row.event = .fire ∧ row.alert.subject = subject ∧ row.alert.check = check)

/-- The held notifications, oldest first. An id is given out once. -/
structure HeldStore where
  rows : List HeldRow
  nextId : Nat
  below : ∀ row ∈ rows, row.id < nextId
  distinct : (rows.map (·.id)).Nodup

namespace HeldStore

/-- A store without rows. -/
def empty : HeldStore := ⟨[], 0, by simp, by simp⟩

variable (store : HeldStore)

/-- Keep one more notification. -/
def hold (event : HeldEvent) (alert : Alert) : HeldStore where
  rows := store.rows ++ [⟨store.nextId, event, alert⟩]
  nextId := store.nextId + 1
  below := by
    intro row hrow
    rcases List.mem_append.1 hrow with h | h
    · exact Nat.lt_succ_of_lt (store.below row h)
    · simp [List.mem_singleton.1 h]
  distinct := by
    rw [List.map_append, List.nodup_append]
    refine ⟨store.distinct, by simp, ?_⟩
    intro i hi j hj
    obtain ⟨row, hrow, rfl⟩ := List.mem_map.1 hi
    have hj : j = store.nextId := by simpa using hj
    exact Nat.ne_of_lt (hj ▸ store.below row hrow)

/-- The rows that pass a test. -/
def retain (keep : HeldRow → Bool) : HeldStore where
  rows := store.rows.filter keep
  nextId := store.nextId
  below := fun row hrow => store.below row (List.mem_filter.1 hrow).1
  distinct := store.distinct.sublist (List.filter_sublist.map _)

/-- Drop the held fires of a check, and say how many there were. -/
def discardFires (subject : Subject) (check : CheckId) : HeldStore × Nat :=
  (store.retain fun row => !row.isFireOf subject check,
    (store.rows.filter (HeldRow.isFireOf subject check)).length)

/-- Forget one row. -/
def remove (id : Nat) : HeldStore := store.retain fun row => row.id ≠ id

end HeldStore

/-! ## Routing and delivery -/

/-- A routing rule: the channels for one severity, or for all. -/
structure RoutingRule where
  enabled : Bool
  severity : Option Severity
  channelIds : List Uuid
deriving DecidableEq, Repr

/-- Whether a rule is for a severity. One without a severity is for any. -/
def ruleMatchesSeverity (ruleSeverity : Option Severity) (alertSeverity : Severity) : Bool :=
  ruleSeverity.all fun s => s = alertSeverity

/-- The notifier: its routing, the side each open incident was last delivered with, the delivery
hours, and the store of what they hold back. -/
structure Notifier (σ : Type) where
  default : Option (Dispatcher σ)
  channels : Uuid → Option (Dispatcher σ)
  rules : List RoutingRule
  sides : DedupKey → Option Direction
  hours : HoursPolicy
  held : Option HeldStore

namespace Notifier

variable {σ : Type}

variable (n : Notifier σ)

/-- The channels an enabled rule selects for a severity. -/
def matched (severity : Severity) : List Uuid :=
  (n.rules.filter fun r => r.enabled && ruleMatchesSeverity r.severity severity).flatMap
    (·.channelIds)

/-- Clear a key on every channel. -/
def markResolved (key : DedupKey) : Notifier σ :=
  { n with
      default := n.default.map (·.markResolved key)
      channels := fun id => (n.channels id).map (·.markResolved key) }

/-- Drop the side recorded for an alert. -/
def forgetSide (alert : Alert) : Notifier σ :=
  { n with sides := Function.update n.sides alert.dedupKey none }

/-- Record the side an alert is delivered with, and say whether the last one was another. An
alert without a breach has no side. -/
def sideChanged (alert : Alert) : Notifier σ × Bool :=
  match alert.breach with
  | none => (n, false)
  | some breach =>
    ({ n with sides := Function.update n.sides alert.dedupKey (some breach.direction) },
      (n.sides alert.dedupKey).any fun was => was ≠ breach.direction)

section
variable [NotifyChannel σ]

variable (n : Notifier σ)

/-- Dispatch an alert's notification on the default route and on the channels of its
severity. -/
def dispatchFire (alert : Alert) : Notifier σ :=
  let notification : Notification := ⟨alert.dedupKey⟩
  { n with
      default := n.default.map fun d => (d.dispatch notification).1
      channels := fun id => (n.channels id).map fun d =>
        if id ∈ n.matched alert.severity then (d.dispatch notification).1 else d }

/-- Close an alert's incident on the channels its fire was routed to, and clear its key on the
rest. -/
def close (alert : Alert) : Notifier σ :=
  let notification : Notification := ⟨alert.dedupKey⟩
  { n with
      default := n.default.map fun d => (d.dispatchResolve notification).1
      channels := fun id => (n.channels id).map fun d =>
        if id ∈ n.matched alert.severity then (d.dispatchResolve notification).1
        else d.markResolved alert.dedupKey }

/-- Deliver an action now. -/
def deliver : NotifyAction → Notifier σ
  | .fire alert =>
    -- A rolled-up alert is announced by the alert of its root cause.
    if alert.rootCause.isSome then n
    else
      match n.sideChanged alert with
      | (n, changed) =>
        (if changed then n.markResolved alert.dedupKey else n).dispatchFire alert
  | .resolve alert =>
    let n := n.forgetSide alert
    if alert.rootCause.isSome then n.markResolved alert.dedupKey else n.close alert
  | .suppress alert => (n.forgetSide alert).close alert

end

/-! ### Delivery hours -/

/-- The event an action is held as. -/
def heldEvent : NotifyAction → HeldEvent
  | .fire _ => .fire
  | .resolve _ => .resolve
  | .suppress _ => .suppress

variable (n : Notifier σ)

/-- Hold an action if its node is outside its hours. -/
def holdOutside (store : HeldStore) (action : NotifyAction) (now : UnixMs) : Notifier σ × Bool :=
  if n.hours.isOpen action.alert.node now then (n, false)
  else ({ n with held := some (store.hold (heldEvent action) action.alert) }, true)

/-- The end of an alert whose fire is still held reaches nobody, as the fire did not: both are
dropped, and what the channels remember is cleared. -/
def dropWithFires (store : HeldStore) (alert : Alert) : Notifier σ :=
  ({ n with held := some store }.forgetSide alert).markResolved alert.dedupKey

/-- Keep an action back if its node is outside its delivery hours, and say whether it was
kept. -/
def holdIfClosed (action : NotifyAction) (now : UnixMs) : Notifier σ × Bool :=
  if n.hours.isEmpty then (n, false)
  else
    match n.held with
    | none => (n, false)
    | some store =>
      match action with
      | .fire alert =>
        if alert.rootCause.isSome then (n, false) else n.holdOutside store action now
      | .resolve alert =>
        match store.discardFires alert.subject alert.check with
        | (_, 0) =>
          if alert.rootCause.isSome then (n, false) else n.holdOutside store action now
        | (store, _) => (n.dropWithFires store alert, true)
      | .suppress alert =>
        match store.discardFires alert.subject alert.check with
        | (_, 0) => n.holdOutside store action now
        | (store, _) => (n.dropWithFires store alert, true)

/-- Forget a held row. -/
def removeHeld (id : Nat) : Notifier σ :=
  { n with held := n.held.map (·.remove id) }

section
variable [NotifyChannel σ]

variable (n : Notifier σ) (active : List Alert)

/-- Handle one action of the engine. -/
def handleAt (action : NotifyAction) (now : UnixMs) : Notifier σ :=
  match n.holdIfClosed action now with
  | (n, true) => n
  | (n, false) => n.deliver action

/-- Whether an alert is active under the same key and not rolled up. -/
def openAgain (alert : Alert) : Bool :=
  active.any fun a => a.dedupKey = alert.dedupKey ∧ a.rootCause = none

/-- Send one held row of an open node, given the alerts a fire was already sent for in this
pass. A fire goes out as its alert is now. The end of an alert that is open again is stale. -/
def sendHeld (acc : Notifier σ × List (Subject × CheckId)) (row : HeldRow) :
    Notifier σ × List (Subject × CheckId) :=
  match acc with
  | (n, sent) =>
    match row.event with
    | .fire =>
      match active.find? fun a => a.subject = row.alert.subject ∧ a.check = row.alert.check with
      | none => (n, sent)
      | some a =>
        if a.rootCause = none ∧ (a.subject, a.check) ∉ sent then
          (n.deliver (.fire a), (a.subject, a.check) :: sent)
        else (n, sent)
    | .resolve =>
      if openAgain active row.alert then (n, sent) else (n.deliver (.resolve row.alert), sent)
    | .suppress =>
      if openAgain active row.alert then (n, sent)
      else (n.deliver (.suppress row.alert), sent)

/-- One row of the pass. A row whose node is open is sent or found unnecessary, and then
forgotten. -/
def releaseRow (now : UnixMs) (acc : Notifier σ × List (Subject × CheckId)) (row : HeldRow) :
    Notifier σ × List (Subject × CheckId) :=
  if acc.1.hours.isOpen row.alert.node now then
    match sendHeld active acc row with
    | (n, sent) => (n.removeHeld row.id, sent)
  else acc

/-- Send what was held for every node whose hours are open. -/
def release (rows : List HeldRow) (active : List Alert) (now : UnixMs) : Notifier σ :=
  match n.held with
  | none => n
  | some _ => (rows.foldl (releaseRow active now) (n, [])).1

/-- One turn of the release loop: read what is held, and release it against the alerts that are
active. -/
def releasePass (now : UnixMs) : Notifier σ :=
  match n.held with
  | none => n
  | some store => n.release store.rows active now

end

end Notifier

/-!
## The engine and the notifier together

The notifier is fed with the engine's actions in the order they were emitted. `perform` runs
one operation of the engine and hands over its actions. `releasePass` is one turn of the loop
that sends what delivery hours held back, with the alerts that are active in the engine.
-/

/-- Handle actions in order. -/
def Notifier.handleAll {σ : Type} [NotifyChannel σ] (n : Notifier σ) (now : UnixMs)
    (actions : List NotifyAction) : Notifier σ :=
  actions.foldl (fun n action => n.handleAt action now) n

/-- The engine and the notifier it feeds. -/
structure Deployment (σ : Type) where
  engine : AlertManager
  notifier : Notifier σ

namespace Deployment

variable {σ : Type} [NotifyChannel σ]

/-- One operation of the engine, whose actions are handled at `now`. -/
def perform (d : Deployment σ) (op : Op) (now : UnixMs) : Deployment σ :=
  match d.engine.step op with
  | (engine, actions) => ⟨engine, d.notifier.handleAll now actions⟩

/-- One turn of the release loop. -/
def releasePass (d : Deployment σ) (order : List CheckId) (now : UnixMs) : Deployment σ :=
  { d with notifier := d.notifier.releasePass (d.engine.activeAlerts order) now }

end Deployment

end Yagra
