import Mathlib.Algebra.Order.Ring.Nat
import Yagra.Alert.Observe

/-!
# `Yagra.Alert.System`: restoring, raising, sweeping, and runs of the engine

The operations of the engine that are not observations, and the engine as a whole as a state
machine. `restore` seeds the engine with the alerts that were open when the previous process
stopped, and `restoreDeleted` with those of nodes the inventory no longer holds. `raiseEvent`
and `resolveEvent` are how other components open and close an alert. The sweeps close alerts
whose rule, whose data or whose node is gone.

`Op` lists the public operations and `step` runs one of them. A run is `emitAll step`.
-/

set_option autoImplicit false

namespace Yagra

open Yagra.Lib

/-! ### Alerts other components raise -/

/-- An alert another component raises on the engine. -/
inductive Raised where
  /-- A log or trap message matched an event rule. -/
  | event (node : NodeId) (ruleId ruleName : String) (severity : Severity) (atUnixMs : UnixMs)
  | poolCoverage (pool : String) (atUnixMs : UnixMs)
  | merakiCollect (org : Uuid) (failures : Nat) (atUnixMs : UnixMs)
  | configPush (failures : Nat) (atUnixMs : UnixMs)
  | deviceReplaced (node : NodeId) (atUnixMs : UnixMs)
  | configStale (node : NodeId) (hours : F64) (atUnixMs : UnixMs)
deriving DecidableEq

namespace Raised

/-- After how many failed collections an organization's alert is raised. -/
def merakiRaiseAfterFailures : Nat := 3

/-- An alert about a subject as a whole, with no root cause and nothing held. -/
def subjectAlert (subject : Subject) (name : Metric) (metric : Metric) (severity : Severity)
    (state : NodeState) (atUnixMs : UnixMs) (breach : Option Breach) : Alert where
  subject := subject
  check := subjectCheckId subject (.metric name)
  severity := severity
  state := state
  atUnixMs := atUnixMs
  rootCause := none
  flapping := false
  metric := .metric metric
  breach := breach
  ifindex := none
  row := none
  rowName := none
  notifyHeldUntil := none

/-- The alert that is raised. The check of an event alert is named after the rule's id, and
the alert after the rule's name. -/
def alert : Raised → Alert
  | .event node ruleId ruleName severity t =>
    subjectAlert (.node node) (.event ruleId) (.event ruleName) severity
      (match severity with
        | .critical => .critical
        | .warning | .info => .warning) t none
  | .poolCoverage pool t =>
    subjectAlert (.pool pool) .poolCoverage .poolCoverage .critical .critical t
      (some ⟨.finite 0, some (.finite 1), .below⟩)
  | .merakiCollect org failures t =>
    subjectAlert (.merakiOrg org) .merakiCollect .merakiCollect .critical .critical t
      (some ⟨.finite failures, some (.finite merakiRaiseAfterFailures), .above⟩)
  | .configPush failures t =>
    subjectAlert .configRemote .configPush .configPush .warning .warning t
      (some ⟨.finite failures, none, .above⟩)
  | .deviceReplaced node t =>
    subjectAlert (.node node) .deviceReplaced .deviceReplaced .warning .warning t none
  | .configStale node hours t =>
    subjectAlert (.node node) .configStale .configStale .warning .warning t
      (some ⟨hours, none, .above⟩)

end Raised

/-- A check another component closes. -/
inductive RaisedCheck where
  | event (node : NodeId) (ruleId : String)
  | poolCoverage (pool : String)
  | merakiCollect (org : Uuid)
  | configPush
  | deviceReplaced (node : NodeId)
  | configStale (node : NodeId)
deriving DecidableEq

/-- The id of such a check. -/
def RaisedCheck.check : RaisedCheck → CheckId
  | .event node ruleId => checkId node (.metric (.event ruleId))
  | .poolCoverage pool => subjectCheckId (.pool pool) (.metric .poolCoverage)
  | .merakiCollect org => subjectCheckId (.merakiOrg org) (.metric .merakiCollect)
  | .configPush => subjectCheckId .configRemote (.metric .configPush)
  | .deviceReplaced node => checkId node (.metric .deviceReplaced)
  | .configStale node => checkId node (.metric .configStale)

namespace AlertManager

variable (s : AlertManager) (order : List CheckId) (alerts : List Alert)

/-- Open an alert another component raised, unless one of the same severity is open. -/
def raiseEventAlert (alert : Alert) : Outcome :=
  if (s.active alert.check).any (fun a => a.severity = alert.severity) then (s, [])
  else (s.setActive alert.check alert, [.fire alert])

/-- Close an alert another component raised. -/
def resolveEventAlert (check : CheckId) : Outcome := s.closeActive check

/-! ### Restoring -/

/-- The state a restored alert's check starts in. -/
def restoredState (a : Alert) : CheckState :=
  .restored a.state defaultLivenessDwell (flapWindowMs none) flapThreshold

/-- Whether an alert is about a table row of a node. -/
def isAboutRow (k : NodeId × CheckName × Nat) (a : Alert) : Bool :=
  match a.node, a.row with
  | some node, some row => decide (k = (node, a.metric, row))
  | _, _ => false

/-- Whether an alert is that of a node-wide threshold check. -/
def isNodeWide (c : CheckId) (a : Alert) : Bool :=
  decide (a.check = c) && a.node.isSome && a.row.isNone && a.ifindex.isNone && a.isThresholdAlert

/-- Seed the check states, the index of rows and the node-wide checks of a list of alerts. -/
def seedStates : AlertManager :=
  { s with
      states := alerts.foldl (fun m a => orInsert m a.check (restoredState a)) s.states
      rowStates := fun k => s.rowStates k || alerts.any (isAboutRow k)
      legacyNodeChecks := fun c => s.legacyNodeChecks c || alerts.any (isNodeWide c) }

/-- One alert of the loop that seeds the live states: the live states so far, and the nodes
newly found down. A node already live keeps its state. -/
def seedLiveOne (acc : (NodeId → Option NodeState) × List NodeId) (a : Alert) :
    (NodeId → Option NodeState) × List NodeId :=
  match a.metric, a.node with
  | .liveness, some node =>
    if (acc.1 node).isSome then acc
    else (Function.update acc.1 node (some a.state),
      if a.state = .unreachable then acc.2 ++ [node] else acc.2)
  | _, _ => acc

/-- Seed the live states of the nodes with a liveness alert, and the down set with those that
were unreachable. -/
def seedLive : AlertManager :=
  match alerts.foldl seedLiveOne (s.live, []) with
  | (live, newlyDown) => { s with live := live, down := s.down.extend newlyDown }

/-- The root cause a restored alert gets. -/
def restoredRootCause (attribution : NodeId → Option NodeId) (down : OrdSet NodeId) (a : Alert) :
    Option NodeId :=
  match a.node with
  | none => a.rootCause
  | some node =>
    if a.metric = .liveness then attribution node
    else if node ∈ down then some node
    else a.rootCause

/-- Seed the active set. An alert already active stays as it is. -/
def seedActive (down : OrdSet NodeId) : AlertManager :=
  let restored (a : Alert) : Alert :=
    { a with rootCause := restoredRootCause (s.config.grouping.attributeDown down) down a }
  { s with active := alerts.foldl (fun m a => orInsert m a.check (restored a)) s.active }

/-- Take back the alerts that were open when the previous process stopped. -/
def restore : AlertManager :=
  if alerts.isEmpty then s
  else
    let s := (s.seedStates alerts).seedLive alerts
    s.seedActive alerts s.down

/-- Take back the alerts of nodes the inventory no longer holds. They do not touch the live
states or the down set, and no outage explains them. -/
def restoreDeleted : AlertManager :=
  if alerts.isEmpty then s else (s.seedStates alerts).seedActive alerts ∅

/-! ### Sweeps -/

/-- The open alerts in the order a loop visits them. -/
def activeAlerts : List Alert := order.filterMap s.active

/-- Whether no rule covers an alert's check any more. -/
def isOrphan (a : Alert) (ifindex : Option IfIndex) (rowName : Option RowText) : Bool :=
  a.node.any fun node => (s.config.resolve node ifindex rowName a.metric).isNone

/-- Close the per-port alerts of derived metrics no rule covers any more. -/
def resolveOrphanedInterfaceAlerts : Outcome :=
  s.resolveOrphans (((s.activeAlerts order).filter fun a =>
    a.ifindex.isSome && (derivedInterfaceMetricName a.metric).isSome &&
      s.isOrphan a a.ifindex none).map (·.check))

/-- Close the alerts of derived metrics of a node no rule covers any more. -/
def resolveOrphanedNodeDerivedAlerts : Outcome :=
  s.resolveOrphans (((s.activeAlerts order).filter fun a =>
    a.ifindex.isNone && (derivedNodeMetric a.metric).isSome &&
      s.isOrphan a none a.rowName).map (·.check))

/-- Whether an alert is one of a collected metric. -/
def isCollectedThresholdAlert (a : Alert) : Bool :=
  a.isThresholdAlert && (derivedNodeMetric a.metric).isNone &&
    (derivedInterfaceMetricName a.metric).isNone

/-- Close the alerts of collected metrics no rule covers any more, once an inventory is
known. -/
def resolveOrphanedCollectedAlerts : Outcome :=
  if s.config.nodeMeta.isEmpty then (s, [])
  else
    s.resolveOrphans (((s.activeAlerts order).filter fun a =>
      isCollectedThresholdAlert a && s.isOrphan a a.ifindex a.rowName).map (·.check))

/-- Close the alerts whose data has gone stale. -/
def resolveStaleAlerts (checks : List CheckId) : Outcome :=
  s.resolveOrphans checks

/-- Whether the inventory no longer holds a node. -/
def isGone (node : NodeId) : Bool := !s.config.knows node

/-- Forget the nodes the inventory no longer holds: their live states and names first, then
their alerts. -/
def forgetDeletedNodes : Outcome :=
  if s.config.nodeMeta.isEmpty then (s, [])
  else
    let orphans := ((s.activeAlerts order).filter fun a => a.node.any s.isGone).map (·.check)
    let forgotten (n : NodeId) : Bool := (s.live n).isSome && s.isGone n
    { s with
        live := fun n => if forgotten n then none else s.live n
        down := s.down.eraseAll (s.down.toList.filter forgotten)
        rowNames := fun k => if forgotten k.1 then none else s.rowNames k
        rowStates := fun k => s.rowStates k && !forgotten k.1 }.resolveOrphans orphans

/-! ### Names and settings -/

/-- Read a row's name, replacing an earlier one. -/
def recordRowName (node : NodeId) (metric : CheckName) (row : Nat) (name : RowText) :
    AlertManager :=
  { s with rowNames := Function.update s.rowNames (node, metric, row) (some name) }

/-- Another configuration. -/
def setConfig (config : AlertConfig) : AlertManager :=
  { s with config := config }

end AlertManager

/-! ### Operations and runs -/

/-- The public operations that change the engine after start-up. A configuration that is
installed was loaded; an order lists the keys of the map a loop visits. -/
inductive Op where
  | observe (result : PollResult) (noReading : List Sample) (order : List CheckId)
  | observeInterface (node : NodeId) (ifindex : IfIndex) (metric : Metric) (value : F64)
      (atUnixMs : UnixMs)
  | observeDerived (node : NodeId) (metric : Metric) (rows : List (Int × F64)) (atUnixMs : UnixMs)
  | setConfig (config : AlertConfig) (loaded : config.loaded = true)
  | publishIntervals (intervals : NodeId → Option Nat)
  | recordRowName (node : NodeId) (metric : CheckName) (row : Nat) (name : RowText)
  | regroup (order : List CheckId)
  | releaseHeld (now : UnixMs) (order : List CheckId)
  | resolveOrphanedInterface (order : List CheckId)
  | resolveOrphanedNodeDerived (order : List CheckId)
  | resolveOrphanedCollected (order : List CheckId)
  | resolveStale (checks : List CheckId)
  | forgetDeletedNodes (order : List CheckId)
  | raiseEvent (raised : Raised)
  | resolveEvent (check : RaisedCheck)

namespace AlertManager

/-- One operation. The observations of evaluators never change the down set, so no order is
needed for them. -/
def step (s : AlertManager) : Op → Outcome
  | .observe result noReading order => s.observeWithNoReading order result noReading
  | .observeInterface node ifindex metric value t =>
    s.observeInterfaceMetric [] node ifindex metric value t
  | .observeDerived node metric rows t => s.observeDerivedMetric [] node metric rows t
  | .setConfig config _ => (s.setConfig config, [])
  | .publishIntervals intervals => ({ s with intervals := intervals }, [])
  | .recordRowName node metric row name => (s.recordRowName node metric row name, [])
  | .regroup order => s.regroup order
  | .releaseHeld now order => s.releaseHeld order now
  | .resolveOrphanedInterface order => s.resolveOrphanedInterfaceAlerts order
  | .resolveOrphanedNodeDerived order => s.resolveOrphanedNodeDerivedAlerts order
  | .resolveOrphanedCollected order => s.resolveOrphanedCollectedAlerts order
  | .resolveStale checks => s.resolveStaleAlerts checks
  | .forgetDeletedNodes order => s.forgetDeletedNodes order
  | .raiseEvent raised => s.raiseEventAlert raised.alert
  | .resolveEvent check => s.resolveEventAlert check.check

end AlertManager

/-!
## The state that is shown for a node

Three accessors roll up what a node is shown as: one for the fleet, one for a page of nodes and one
for a node. Each starts from the committed liveness, lets an `ok` that a controller no longer
confirms read `unknown`, and takes the worst of that and the node's open alerts. `keys` are the
nodes of the live map, and `order` is the order in which the active alerts are visited.
-/

/-! ### Reports of a controller -/

/-- A report is current for this long at least. -/
def freshFloorSecs : Nat := 600

/-- And for this many polls. -/
def freshPolls : Nat := 3

/-- The value of an `i64` that saturates. -/
def saturateI64 (n : Int) : Int := max (-2 ^ 63) (min n (2 ^ 63 - 1))

/-- How long a report stays current. -/
def freshForMs (interval : Option Nat) : Int :=
  let secs := interval.elim freshFloorSecs fun s =>
    max freshFloorSecs (min (s * freshPolls) (2 ^ 64 - 1))
  saturateI64 (min (secs * 1000) (2 ^ 64 - 1))

/-- Whether a report is current. -/
def isCurrent (atUnixMs : UnixMs) (interval : Option Nat) (now : UnixMs) : Bool :=
  decide (saturateI64 (now - atUnixMs) ≤ freshForMs interval)

/-- The last report about one node. -/
structure Report where
  atUnixMs : UnixMs
  reporter : NodeId

/-- The reports, and the order in which a loop visits them. It visits each once, so the length of
the order is the size of the map. -/
structure ReportLedger where
  get : NodeId → Option Report
  order : List NodeId
  nodup : order.Nodup
  mem_order : ∀ n, n ∈ order ↔ (get n).isSome

namespace ReportLedger

/-- Before the first report. -/
def empty : ReportLedger := ⟨fun _ => none, [], .nil, by simp⟩

/-- A report about a node. One older than the one held is ignored. -/
def note (ledger : ReportLedger) (node reporter : NodeId) (atUnixMs : UnixMs) : ReportLedger where
  get := Function.update ledger.get node (some
    (((ledger.get node).filter fun held => decide (atUnixMs < held.atUnixMs)).getD
      ⟨atUnixMs, reporter⟩))
  order := ledger.order.insert node
  nodup := ledger.nodup.insert
  mem_order n := by
    by_cases h : n = node <;> simp [h, ledger.mem_order, Function.update_of_ne]

end ReportLedger

/-! ### The accessors -/

/-- Worse states rank higher. -/
def severityRank : NodeState → Nat
  | .critical => 5
  | .unreachable => 4
  | .warning => 3
  | .unknown => 2
  | .maintenance => 1
  | .ok => 0

/-- A map from nodes to what they are shown as. -/
abbrev Shown := NodeId → Option NodeState

/-- The worst of what a node is shown as so far and an alert on it. -/
def rolledUp (acc : Option NodeState) (alert : Alert) : Option NodeState :=
  match acc with
  | some s => if severityRank s ≥ severityRank alert.state then some s else some alert.state
  | none => some alert.state

/-- Roll up the alerts on the nodes that are asked for. -/
def Shown.rollUp (asked : NodeId → Bool) (out : Shown) (alert : Alert) : Shown :=
  match alert.node with
  | some node =>
    if asked node then
      Function.update out node (some (match out node with
        | some s => if severityRank alert.state > severityRank s then alert.state else s
        | none => alert.state))
    else out
  | none => out

namespace AlertManager
variable (m : AlertManager) (ledger : ReportLedger) (now : UnixMs)

/-- Whether a report is no longer current. -/
def stale (report : Report) : Bool :=
  !isCurrent report.atUnixMs (m.intervals report.reporter) now

/-- One report of the loop over the ledger. -/
def unconfirm (out : Shown) (node : NodeId) : Shown :=
  match ledger.get node, out node with
  | some report, some state =>
    if state = .ok ∧ m.stale now report = true then Function.update out node (some .unknown)
    else out
  | _, _ => out

/-- The loop is over the smaller side. `len` is the size of the map. -/
def unconfirmedOkIsUnknown (out : Shown) (len : Nat) : Shown :=
  if ledger.order = [] then out
  else if len ≤ ledger.order.length then fun node =>
    (out node).map fun state =>
      if state = .ok ∧ (ledger.get node).any (m.stale now) = true then .unknown else state
  else ledger.order.foldl (m.unconfirm ledger now) out

/-- The view of the fleet. -/
def nodeStates (keys : List NodeId) (order : List CheckId) : Shown :=
  (order.filterMap m.active).foldl (Shown.rollUp fun _ => true)
    (m.unconfirmedOkIsUnknown ledger now m.live keys.length)

/-- The view of a page. -/
def nodeStatesFor (nodes : List NodeId) (order : List CheckId) : Shown :=
  let page : List NodeId := (nodes.filter fun n => (m.live n).isSome).dedup
  (order.filterMap m.active).foldl (Shown.rollUp fun n => decide (n ∈ nodes))
    (m.unconfirmedOkIsUnknown ledger now (fun n => if n ∈ page then m.live n else none) page.length)

/-- Whether the report on a node is stale. -/
def reportIsStale (node : NodeId) : Bool := (ledger.get node).any (m.stale now)

/-- The view of one node. -/
def nodeStateAt (node : NodeId) (order : List CheckId) : Option NodeState :=
  let base := if m.live node = some .ok ∧ m.reportIsStale ledger now node = true then some .unknown
    else m.live node
  ((order.filterMap m.active).filter fun a => decide (a.subject = .node node)).foldl rolledUp base

/-- How many nodes are down, and how many of them would page at each level of the deployment. -/
def groupingPreview : Nat × Vector Nat 4 :=
  (m.down.toList.length,
    Topology.Level.all.map fun l => (m.config.grouping.withDefaultLevel l).notifiedCount m.down)

end AlertManager

end Yagra
