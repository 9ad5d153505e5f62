import Yagra.Common.Threshold
import Yagra.Alert.CheckState

/-!
# `Yagra.Alert.Alert`: alerts, their identity, and the actions about them

A check is identified by a hash of its subject, what it measures, and for a port or a table
row its index. `CheckId` is the hashed triple itself. A port and a row of the same metric
with the same index are one id, as in the source, where `rowCheckId` calls
`interfaceCheckId`.

An `Alert` is what the engine holds open on a check. Its `rootCause` is the node it is
rolled up under, and `notifyHeldUntil` is set while its notification waits for a
neighbour's verdict. `NotifyAction` is what the engine hands to the notifier.
-/

set_option autoImplicit false

namespace Yagra

/-- What an alert is about. -/
inductive Subject where
  | node (n : NodeId)
  | pool (name : String)
  | merakiOrg (org : Uuid)
  | configRemote
deriving DecidableEq, Repr

/-- The node of a subject, if it is one. -/
def Subject.asNode : Subject → Option NodeId
  | .node n => some n
  | .pool _ | .merakiOrg _ | .configRemote => none

/-- The identity of a check: subject, name, and the port or table row it is about. -/
structure CheckId where
  subject : Subject
  name : CheckName
  index : Option Nat
deriving DecidableEq, Repr

/-- The check of a subject as a whole. -/
def subjectCheckId (subject : Subject) (name : CheckName) : CheckId := ⟨subject, name, none⟩

/-- The check of a node as a whole. -/
def checkId (node : NodeId) (name : CheckName) : CheckId := subjectCheckId (.node node) name

/-- The check of one port. -/
def interfaceCheckId (node : NodeId) (ifindex : IfIndex) (name : CheckName) : CheckId :=
  ⟨.node node, name, some ifindex⟩

/-- The check of one table row: the port form, with the row as the index. -/
def rowCheckId (node : NodeId) (row : Nat) (name : CheckName) : CheckId :=
  interfaceCheckId node row name

/-- The liveness check of a node. -/
abbrev livenessCheck (node : NodeId) : CheckId := checkId node .liveness

/-- What was measured when a threshold alert fired, and the bound it crossed. -/
structure Breach where
  value : F64
  threshold : Option F64
  direction : Direction
deriving DecidableEq

/-- The key a notification is deduplicated by. -/
structure DedupKey where
  subject : Subject
  check : CheckId
  severity : Severity
deriving DecidableEq

/-- An open alert. -/
structure Alert where
  subject : Subject
  check : CheckId
  severity : Severity
  state : NodeState
  atUnixMs : UnixMs
  rootCause : Option NodeId
  flapping : Bool
  metric : CheckName
  breach : Option Breach
  ifindex : Option IfIndex
  row : Option Nat
  rowName : Option RowText
  notifyHeldUntil : Option UnixMs
deriving DecidableEq

namespace Alert

/-- The node the alert is about, if it is about one. -/
def node (a : Alert) : Option NodeId := a.subject.asNode

/-- The key of the alert's incident in the channels. -/
def dedupKey (a : Alert) : DedupKey := ⟨a.subject, a.check, a.severity⟩

/-- Whether a threshold rule raised the alert: it is not liveness, not an event, and not one
of the two node alerts that other components raise. -/
def isThresholdAlert (a : Alert) : Bool :=
  match a.metric with
  | .liveness => false
  | .metric (.event _) => false
  | .metric .deviceReplaced => false
  | .metric .configStale => false
  | .metric _ => true

end Alert

/-- The alert a transition opens, with the fields the engine fills in left blank; `none` when
the state committed carries no severity. -/
def Transition.toAlert (t : Transition) (subject : Subject) (check : CheckId)
    (atUnixMs : UnixMs) (rootCause : Option NodeId) : Option Alert :=
  t.state.severity.map fun severity =>
    { subject, check, severity, state := t.state, atUnixMs, rootCause
      flapping := t.flapping
      metric := .metric (.series "")
      breach := none
      ifindex := none
      row := none
      rowName := none
      notifyHeldUntil := none }

/-- What the engine asks the notifier to do. -/
inductive NotifyAction where
  | fire (a : Alert)
  | resolve (a : Alert)
  | suppress (a : Alert)
deriving DecidableEq

namespace NotifyAction

/-- The alert an action is about. -/
def alert : NotifyAction → Alert
  | .fire a | .resolve a | .suppress a => a

/-- The check an action is about. -/
def check (x : NotifyAction) : CheckId := x.alert.check

@[simp] theorem check_fire (a : Alert) : (fire a).check = a.check := rfl
@[simp] theorem check_resolve (a : Alert) : (resolve a).check = a.check := rfl
@[simp] theorem check_suppress (a : Alert) : (suppress a).check = a.check := rfl

end NotifyAction

/-! ### Alerts read back from the history -/

/-- One open transition in the alert history. -/
structure AlertHistoryRow where
  subject : Subject
  check : CheckId
  severity : Severity
  state : NodeState
  atUnixMs : UnixMs
  metric : Option CheckName
  observedValue : Option F64
  thresholdValue : Option F64
  direction : Option Direction
  ifindex : Option IfIndex
  row : Option Nat
  rowName : Option RowText
deriving DecidableEq

/-- The metric of a stored row. A row written before the column existed has none, and its
check says whether it was liveness. -/
def AlertHistoryRow.metricName (row : AlertHistoryRow) : CheckName :=
  match row.metric with
  | some m => m
  | none =>
    if row.subject.asNode.any (fun n => livenessCheck n = row.check) then .liveness
    else .metric (.series "")

/-- A stored row as the alert the engine was holding. The root cause is derived again from
the restored down set, and no notification is waiting. -/
def alertFromRow (row : AlertHistoryRow) : Alert where
  subject := row.subject
  check := row.check
  severity := row.severity
  state := row.state
  atUnixMs := row.atUnixMs
  rootCause := none
  flapping := false
  metric := row.metricName
  breach := row.observedValue.map fun value =>
    ⟨value, row.thresholdValue, row.direction.getD .above⟩
  ifindex := row.ifindex
  row := row.row
  rowName := row.rowName
  notifyHeldUntil := none

end Yagra
