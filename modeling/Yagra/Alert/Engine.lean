import Yagra.Alert.Alert
import Yagra.Alert.Rules

/-!
# `Yagra.Alert.Engine`: the alert engine's state and `processCheck`

`AlertManager` is the in-memory state of the alert engine. A hash map of the source is a
function to `Option`. Where the source iterates over a hash map, in no particular order,
the model takes the order as an argument (`order`); `Enumerates` says that a list lists the
keys of a map once each.

`processCheck` is one observation of one check. Its stages are definitions of their own:

- `trackSample` moves the check's dwell tracker and, for liveness, the node's live state
  and the down set;
- `closeActive` takes an alert out of the active set, silently if its notification was
  still held;
- `refreshBreachedSide` and `advanceRelease` are what happens without a transition: an open
  alert whose value moved to the other side of its band fires again, and an alert still
  marked by an outage that is over is released after its dwell;
- `onTransition` opens or closes the check's alert;
- `reattribute` goes over the other alerts when the down set changed.

The streams to the user interface and the display-only report ledger are left out: nothing
here reads them.
-/

set_option autoImplicit false

namespace Yagra

open Yagra.Lib Function

/-- How many transitions inside the window make a check flap. -/
def flapThreshold : Nat := 5

/-- How long a hold assumes a poll interval to be before one is known. -/
def heldFallbackIntervalMs : Int := 300000

/-- What a hold adds to the neighbour's expected verdict. -/
def heldSlackMs : Int := 30000

/-- The liveness dwell of a node no liveness rule covers. -/
def defaultLivenessDwell : Nat := 3

/-- The state of the alert engine. -/
structure AlertManager where
  states : CheckId → Option CheckState
  active : CheckId → Option Alert
  /-- The committed liveness of each node. -/
  live : NodeId → Option NodeState
  /-- The nodes committed unreachable. -/
  down : OrdSet NodeId
  config : AlertConfig
  rowNames : NodeId × CheckName × Nat → Option RowText
  /-- The table rows that hold a check state. -/
  rowStates : NodeId × CheckName × Nat → Bool
  /-- The restored node-wide threshold checks of metrics that may now be judged per row. -/
  legacyNodeChecks : CheckId → Bool
  /-- The poll interval of each node in seconds, once published. -/
  intervals : NodeId → Option Nat
  /-- How long an open alert's value has been on the other side of its band. -/
  sidePending : CheckId → Option Nat
  /-- The alerts waiting to lose the marker of an outage that is over, with their run. -/
  releasing : CheckId → Option Nat
  /-- The alerts whose notification is held, with the moment it is held until. -/
  held : CheckId → Option UnixMs

/-- A list that lists every key of a map, once each: an order in which a loop over the map
may visit it. -/
structure Enumerates {κ ν : Type} (order : List κ) (m : κ → Option ν) : Prop where
  nodup : order.Nodup
  covers : ∀ k, (m k).isSome → k ∈ order

namespace AlertManager

/-- The engine at start-up. -/
def fresh : AlertManager where
  states := fun _ => none
  active := fun _ => none
  live := fun _ => none
  down := ∅
  config := .default
  rowNames := fun _ => none
  rowStates := fun _ => false
  legacyNodeChecks := fun _ => false
  intervals := fun _ => none
  sidePending := fun _ => none
  releasing := fun _ => none
  held := fun _ => none

/-- What an operation leaves behind and what it asks the notifier to do. -/
abbrev Outcome := AlertManager × List NotifyAction

variable (s : AlertManager) (check : CheckId) (attribution : NodeId → Option NodeId)

/-- Put an alert into the active set. -/
def setActive (a : Alert) : AlertManager :=
  { s with active := update s.active check (some a) }

/-- Forget that a check's notification is held. -/
def unhold : AlertManager :=
  { s with held := update s.held check none }

/-- Take the alert of a check out of the active set. An alert whose notification was held
was never announced, so it leaves without an action. -/
def closeActive : Outcome :=
  match s.active check with
  | none => (s, [])
  | some a =>
    let s := { s with active := update s.active check none }
    if a.notifyHeldUntil.isSome then (s.unhold check, []) else (s, [.resolve a])

/-! ### Attribution to an outage -/

/-- Whether `reattribute` looks at an alert: another node's liveness alert that the outage
explains or that carries a root cause, or any other alert of the node that changed. -/
def isCandidate (changed : Option NodeId) (a : Alert) : Bool :=
  a.node.any fun n =>
    if a.metric = .liveness then
      decide (some n ≠ changed) && ((attribution n).isSome || a.rootCause.isSome)
    else decide (some n = changed)

/-- The root cause an alert has under the current down set. -/
def newRootCause (down : OrdSet NodeId) (metric : CheckName) (node : NodeId) : Option NodeId :=
  if metric = .liveness then attribution node else if node ∈ down then some node else none

/-- What a changed root cause asks of the notifier: an alert that got one is rolled up, and one
that lost it is announced on its own. -/
def causeActions (old new : Option NodeId) (updated : Alert) : List NotifyAction :=
  match old, new with
  | none, some _ => [.suppress updated]
  | some _, none => [.fire updated]
  | _, _ => []

/-- One alert of the loop in `reattribute`. -/
def reattributeOne (down : OrdSet NodeId) (s : AlertManager) (alert : Alert) : Outcome :=
  match alert.node with
  | none => (s, [])
  | some alertNode =>
    let newRc := newRootCause attribution down alert.metric alertNode
    if alert.metric.isEvent ∧ newRc.isNone then
      -- No observation feeds an event alert, so its marker is taken off here, silently.
      if alert.rootCause.isSome then
        match s.active alert.check with
        | none => (s, [])
        | some cur => (s.setActive alert.check { cur with rootCause := none }, [])
      else (s, [])
    else if alert.metric = .liveness ∧ alert.notifyHeldUntil.isSome then
      -- A held notification that an outage now explains is recorded as rolled up.
      if newRc.isSome then
        match s.active alert.check with
        | none => (s, [])
        | some cur =>
          let updated := { cur with rootCause := newRc, notifyHeldUntil := none }
          ((s.setActive alert.check updated).unhold alert.check, [.fire updated])
      else (s, [])
    else if alert.metric ≠ .liveness ∧ newRc.isNone ∧ alert.rootCause.isSome then
      -- The outage is over, but the marker stays until the check's own dwell has run.
      ({ s with releasing := update s.releasing alert.check (some 0) }, [])
    else
      let s := if alert.metric ≠ .liveness ∧ newRc.isSome then
          { s with releasing := update s.releasing alert.check none }
        else s
      if newRc = alert.rootCause then (s, [])
      else
        match s.active alert.check with
        | none => (s, [])
        | some cur =>
          let updated := { cur with rootCause := newRc }
          (s.setActive alert.check updated, causeActions alert.rootCause newRc updated)

variable (s : AlertManager) (node : NodeId) (order : List CheckId)

/-- Bring the root causes of the open alerts in line with the down set. `changed` is the
node that entered or left it, or `none` when the grouping itself changed. -/
def reattribute (changed : Option NodeId) : Outcome :=
  let attribution := s.config.grouping.attributeDown s.down
  emitAll (reattributeOne attribution s.down) s
    ((order.filterMap s.active).filter (isCandidate attribution changed))

/-- Re-attribute every liveness alert, after the grouping changed. -/
def regroup : Outcome := s.reattribute order none

/-! ### Holding a notification back -/

/-- How often a node is polled. -/
def intervalMsOrFallback : Int :=
  match s.intervals node with
  | none => heldFallbackIntervalMs
  | some secs => (secs : Int) * 1000

/-- The neighbours a node is judged by that are failing but not yet down, each with how
long its verdict takes. -/
def failingNeighbours : List (NodeId × Int) :=
  ((s.config.grouping.judgingNeighbours node).filter fun n => n ∉ s.down).filterMap fun n =>
    (s.states (livenessCheck n)).bind fun cs =>
      match cs.candidate with
      | some (.unreachable, count) =>
        some (n, (max (cs.dwell.dwell - count) 1 : Nat) * s.intervalMsOrFallback n)
      | _ => none

/-- Until when a new liveness alert waits for a neighbour's verdict, if it waits. -/
def holdUntil (alert : Alert) (atUnixMs : UnixMs) : Option UnixMs :=
  if alert.rootCause.isSome ∨ alert.state ≠ .unreachable then none
  else if s.config.groupingWait = false ∨ s.config.grouping.levelOf node = .off then none
  else ((s.failingNeighbours node).map Prod.snd).max?.map fun ms => atUnixMs + ms + heldSlackMs

/-- One held notification of the loop in `releaseHeld`. -/
def releaseOne (now : UnixMs) (s : AlertManager) (entry : CheckId × UnixMs) : Outcome :=
  let (check, heldUntil) := entry
  match s.active check with
  | none => (s.unhold check, [])
  | some alert =>
    match alert.node with
    | none => (s, [])
    | some node =>
      let stillWaiting := s.config.groupingWait && decide (s.config.grouping.levelOf node ≠ .off)
      if s.config.isPaused node now then (s, [])
      else if stillWaiting = true ∧ now < heldUntil ∧ s.failingNeighbours node ≠ [] then (s, [])
      else if alert.notifyHeldUntil.isSome then
        let released := { alert with notifyHeldUntil := none }
        ((s.setActive check released).unhold check, [.fire released])
      else (s.unhold check, [])

/-- Announce the held notifications whose wait is over. `order` lists the held checks. -/
def releaseHeld (now : UnixMs) : Outcome :=
  emitAll (releaseOne now) s (order.filterMap fun c => (s.held c).map fun u => (c, u))

end AlertManager

/-! ### One observation of one check -/

/-- How often a check is observed: once per poll, or once per tick of an evaluator. -/
inductive Cadence where
  | everyPoll
  | everyTick (secs : Nat)
deriving DecidableEq

/-- What a threshold sample says, beside the state it is judged to be in. -/
structure ThresholdEval where
  value : F64
  direction : Direction
  warning : Option F64
  critical : Option F64
deriving DecidableEq

/-- The breach an alert of a severity describes. -/
def breachFor (severity : Severity) (ev : ThresholdEval) : Breach where
  value := ev.value
  threshold := match severity with
    | .critical => ev.critical
    | .warning => ev.warning
    | .info => ev.warning <|> ev.critical
  direction := ev.direction

/-- The check one observation is about, and how it is to be judged. -/
structure CheckSpec where
  check : CheckId
  metric : CheckName
  dwell : Nat
  isLiveness : Bool
  /-- Whether a transition may raise an alert; false for liveness without a rule. -/
  alerting : Bool
  eval : Option ThresholdEval
  ifindex : Option IfIndex
  row : Option Nat
  rowName : Option RowText
  cadence : Cadence
  interval : Option Nat

/-- The dwell of a check in its own observations. -/
def CheckSpec.dwellSamples (spec : CheckSpec) : Nat :=
  match spec.cadence with
  | .everyPoll => spec.dwell
  | .everyTick secs => dwellTicks spec.dwell spec.interval secs

namespace AlertManager

variable (s : AlertManager) (node : NodeId) (raw : NodeState)

/-- The state of a check before an observation, with the rule's dwell and window put in. A
check seen for the first time starts out `ok`, unconfirmed. -/
def checkStateFor (spec : CheckSpec) : CheckState :=
  let flapWindow := flapWindowMs spec.interval
  let cs := (s.states spec.check).getD (.new .ok (max spec.dwellSamples 1) flapWindow flapThreshold)
  (cs.setDwell (max spec.dwellSamples 1)).setFlapWindowMs flapWindow

/-- Record a node's committed liveness and keep the down set beside it. The second component
says whether the other alerts have to be re-attributed: the node entered or left the down
set, and not by entering maintenance, or it left maintenance. -/
def commitLive (committed : NodeState) : AlertManager × Bool :=
  let previous := s.live node
  let flipped := decide (previous = some .unreachable) != decide (committed = .unreachable)
  let down := if flipped then
      if committed = .unreachable then s.down.insert node else s.down.erase node
    else s.down
  let enteringMaintenance := decide (committed = .maintenance)
  let leavingMaintenance := decide (previous = some .maintenance) && !enteringMaintenance
  ({ s with live := update s.live node (some committed), down := down },
    (flipped && !enteringMaintenance) || leavingMaintenance)

/-- Move the check's tracker by one sample and, for liveness, the node's live state. -/
def trackSample (atUnixMs : UnixMs) (spec : CheckSpec) : AlertManager × Option Transition × Bool :=
  match (s.checkStateFor spec).observe raw atUnixMs with
  | (cs, transition) =>
    let s := { s with states := update s.states spec.check (some cs) }
    match spec.isLiveness, cs.observed with
    | true, some committed =>
      match s.commitLive node committed with
      | (s, changed) => (s, transition, changed)
    | _, _ => (s, transition, false)

/-- Fire an open alert again when its value has been on the other side of its band for the
dwell. -/
def refreshBreachedSide (check : CheckId) (raw : NodeState) (atUnixMs : UnixMs)
    (eval : Option ThresholdEval) (dwell : Nat) : Outcome :=
  let settled := { s with sidePending := update s.sidePending check none }
  match eval, s.active check with
  | some ev, some alert =>
    match alert.breach with
    | none => (settled, [])
    | some previous =>
      if alert.state ≠ raw ∨ previous.direction = ev.direction then (settled, [])
      else
        let seen := (s.sidePending check).getD 0 + 1
        if seen < max dwell 1 then
          ({ s with sidePending := update s.sidePending check (some seen) }, [])
        else
          let updated :=
            { alert with breach := some (breachFor alert.severity ev), atUnixMs := atUnixMs }
          (settled.setActive check updated, [.fire updated])
  | _, _ => (settled, [])

/-- Count towards the release of an alert still marked by an outage that is over, and take
the marker off after a dwell of problem samples. -/
def advanceRelease (check : CheckId) (raw : NodeState) (transitioned : Bool) (dwell : Nat) :
    AlertManager × Option NotifyAction :=
  match s.releasing check with
  | none => (s, none)
  | some seen =>
    let dropped := { s with releasing := update s.releasing check none }
    if transitioned then (dropped, none)
    else if raw.isProblem = false then
      ({ s with releasing := update s.releasing check (some 0) }, none)
    else if seen + 1 < max dwell 1 then
      ({ s with releasing := update s.releasing check (some (seen + 1)) }, none)
    else
      match s.active check with
      | none => (dropped, none)
      | some alert =>
        if alert.rootCause.isSome then
          let updated := { alert with rootCause := none }
          (dropped.setActive check updated, some (.fire updated))
        else (dropped, none)

/-- An observation without a transition: the side refresh and the release. A release fires
the alert as it is now, so it replaces a side fire of the same check. -/
def withoutTransition (atUnixMs : UnixMs) (spec : CheckSpec) : Outcome :=
  match s.refreshBreachedSide spec.check raw atUnixMs spec.eval spec.dwellSamples with
  | (s, actions) =>
    match s.advanceRelease spec.check raw false spec.dwellSamples with
    | (s, none) => (s, actions)
    | (s, some released) =>
      (s, actions.filter (fun
        | .fire a => decide (a.check ≠ spec.check)
        | _ => true) ++ [released])

/-- The root cause a new alert is fired with. -/
def rootCauseAtFire (isLiveness : Bool) (state : NodeState) : Option NodeId :=
  if isLiveness then
    if state.isProblem then s.config.grouping.rootCause node s.down else none
  else if node ∈ s.down then some node else none

/-- An alert with what the engine knows about its check filled in. -/
def describeAlert (alert : Alert) (spec : CheckSpec) : Alert :=
  { alert with
      metric := spec.metric
      ifindex := spec.ifindex
      row := spec.row
      rowName := spec.rowName
      breach := match spec.eval with
        | some ev => some (breachFor alert.severity ev)
        | none => alert.breach }

/-- Put a new alert into the active set, and either announce it or hold it back. -/
def openAlert (atUnixMs : UnixMs) (spec : CheckSpec) (alert : Alert) : Outcome :=
  let held := if spec.isLiveness then s.holdUntil node alert atUnixMs else none
  let alert := { alert with notifyHeldUntil := held }
  let s := s.setActive spec.check alert
  match held with
  | some u => ({ s with held := update s.held spec.check (some u) }, [])
  | none => (s, [.fire alert])

/-- A committed transition: open the alert of the state, or close the open one. -/
def onTransition (atUnixMs : UnixMs) (spec : CheckSpec) (t : Transition) : Outcome :=
  let s := (s.advanceRelease spec.check raw true spec.dwellSamples).1
  let s := { s with sidePending := update s.sidePending spec.check none }
  let rootCause := s.rootCauseAtFire node spec.isLiveness t.state
  match t.toAlert (.node node) spec.check atUnixMs rootCause with
  | some alert => s.openAlert node atUnixMs spec (describeAlert alert spec)
  | none => s.closeActive spec.check

/-- A liveness observation of a node no rule covers: an alert still open on the check is
closed, unless no configuration was loaded yet. -/
def withoutRule (check : CheckId) : Outcome :=
  if s.config.loaded then s.closeActive check else (s, [])

/-- Follow an outcome by the re-attribution of the other alerts, when the down set changed. -/
def resweepIf (changed : Bool) (order : List CheckId) (node : NodeId) (r : Outcome) : Outcome :=
  if changed then
    match r.1.reattribute order (some node) with
    | (s, actions) => (s, r.2 ++ actions)
  else r

/-- One observation of one check. -/
def processCheck (order : List CheckId) (node : NodeId) (raw : NodeState) (atUnixMs : UnixMs)
    (spec : CheckSpec) : Outcome :=
  match s.trackSample node raw atUnixMs spec with
  | (s, transition, changed) =>
    if spec.alerting = false then resweepIf changed order node (s.withoutRule spec.check)
    else
      match transition with
      -- This path ends here: a changed down set is not followed by a re-attribution.
      | none => s.withoutTransition raw atUnixMs spec
      | some t => resweepIf changed order node (s.onTransition node raw atUnixMs spec t)

end AlertManager

end Yagra
