import Mathlib.Algebra.Order.Ring.Nat
import Mathlib.Data.Prod.Lex
import Yagra.Alert.Alert

/-!
# `Yagra.History.Table`: the alert history

`alert_history` is a log: every Fire and every Resolve is appended to it, and a roll-up is not. Its
readers find out from the rows alone which alerts are open and how long an outage lasted. The
definitions here are the statements of the store, over a table that lists its rows in the order they
were written.

A row has two times. `atUnixMs` is the time of the alert. The row of a Resolve is about the alert
that was taken out of the active set, so it repeats the time of the Fire. `recordedAt` is when the
row was written.

An `ORDER BY` leaves open how rows that compare equal are ordered. `Answers` says of a list that a
statement with an order and a limit may return it. The limit of `open_alerts` is left out.
-/

set_option autoImplicit false

namespace Yagra

/-! ### Rows -/

/-- The row an action is recorded as: the alert, and whether it was closed. -/
def historyRow : NotifyAction → Option (Alert × Bool)
  | .fire a => some (a, false)
  | .resolve a => some (a, true)
  -- A roll-up means that the node is still down.
  | .suppress _ => none

/-- One row of the table. -/
structure HistoryRow extends AlertHistoryRow where
  id : Uuid
  resolved : Bool
  recordedAt : UnixMs
deriving DecidableEq

/-- The metric column. It is empty for an alert whose metric was never filled in. -/
def metricColumn (a : Alert) : Option CheckName :=
  if a.metric = .metric (.series "") then none else some a.metric

/-- The port column, a signed 32-bit one. A port beyond it is not recorded. -/
def ifindexColumn (a : Alert) : Option IfIndex := a.ifindex.filter fun i => decide (i < 2 ^ 31)

/-- The row that is written for an alert. -/
def HistoryRow.ofAlert (id : Uuid) (now : UnixMs) (a : Alert) (resolved : Bool) : HistoryRow where
  subject := a.subject
  check := a.check
  severity := a.severity
  state := a.state
  atUnixMs := a.atUnixMs
  metric := metricColumn a
  observedValue := a.breach.map (·.value)
  thresholdValue := a.breach.bind (·.threshold)
  direction := a.breach.map (·.direction)
  ifindex := ifindexColumn a
  row := a.row
  rowName := a.rowName
  id := id
  resolved := resolved
  recordedAt := now

/-- The rows of the table in the order they were written. -/
abbrev HistoryTable := List HistoryRow

/-! ### The latest row of a check -/

namespace HistoryRow

/-- What the rows of a check are ordered by: the time of the alert, a Resolve after a Fire of the
same time, and the id. -/
def transitionKey (r : HistoryRow) : UnixMs ×ₗ Bool ×ₗ Uuid :=
  toLex (r.atUnixMs, toLex (r.resolved, r.id))

/-- Whether a row comes after another one. -/
def newerThan (n h : HistoryRow) : Bool := decide (h.transitionKey < n.transitionKey)

end HistoryRow

namespace HistoryTable

variable (table : HistoryTable)

/-- Whether the table has a later row of the same check. -/
def hasNewer (h : HistoryRow) : Bool :=
  table.any fun n => decide (n.check = h.check) && n.newerThan h

/-- The latest row of each check, where it is a Fire. -/
def openRows : List HistoryRow :=
  table.filter fun r => !r.resolved && !table.hasNewer r

/-- The open rows whose subject still exists. A subject that is not a node always does. -/
def openAlerts (inventory : NodeId → Bool) (table : HistoryTable) : List HistoryRow :=
  table.openRows.filter fun r => r.subject.asNode.all inventory

/-- The open rows of nodes that the inventory no longer holds. -/
def openAlertsOfDeletedNodes (inventory : NodeId → Bool) (table : HistoryTable) : List HistoryRow :=
  table.openRows.filter fun r => r.subject.asNode.any fun n => !inventory n

/-- Delete the rows written before the retention time, but not the latest row of a check when it is
a Fire. -/
def pruneOld (now : UnixMs) (olderThanSecs : Int) : HistoryTable :=
  table.filter fun h =>
    !(decide (h.recordedAt < now - olderThanSecs * 1000) && (h.resolved || table.hasNewer h))

end HistoryTable

/-! ### Reading the outages -/

/-- A statement that selects these rows and orders them by the key may return this list. -/
def Answers {α κ : Type} [LE κ] (key : α → κ) (limit : Nat) (rows answer : List α) : Prop :=
  ∃ ordered : List α, ordered.Perm rows ∧ ordered.Pairwise (fun a b => key a ≤ key b) ∧
    answer = ordered.take limit

/-- What the availability graph reads of a row. -/
structure LivenessRow where
  atUnixMs : UnixMs
  recordedAtMs : UnixMs
  resolved : Bool
deriving DecidableEq

/-- The row as the graph reads it. -/
def HistoryRow.toLivenessRow (r : HistoryRow) : LivenessRow :=
  ⟨r.atUnixMs, r.recordedAt, r.resolved⟩

/-- What the rows of a check are ordered by in the availability graph. -/
def HistoryRow.recordedKey (r : HistoryRow) : UnixMs ×ₗ Bool := toLex (r.recordedAt, r.resolved)

/-- What they are ordered by in the replay of the outages. -/
def HistoryRow.timeKey (r : HistoryRow) : UnixMs ×ₗ Bool := toLex (r.atUnixMs, r.resolved)

namespace HistoryTable

variable (table : HistoryTable)

/-- The rows of a check of a node. -/
def ofCheck (check : CheckId) : List HistoryRow :=
  table.filter fun r => decide (r.check = check) && r.subject.asNode.isSome

/-- What `liveness_rows` may return: the last row of the check recorded before the period, and then
those recorded since, a Fire before a Resolve of the same moment. -/
def LivenessRows (check : CheckId) (fromMs : UnixMs) (limit : Nat) (answer : List LivenessRow) :
    Prop :=
  ∃ before inside, answer = (before ++ inside).map (·.toLivenessRow) ∧
    Answers (fun r : HistoryRow => OrderDual.toDual r.recordedKey) 1
      ((table.ofCheck check).filter fun r => decide (r.recordedAt < fromMs)) before ∧
    Answers HistoryRow.recordedKey (max limit 1)
      ((table.ofCheck check).filter fun r => decide (fromMs ≤ r.recordedAt)) inside

/-- The liveness rows of the nodes from a moment on. -/
def livenessFrom (sinceMs : UnixMs) : List HistoryRow :=
  table.filter fun r => r.subject.asNode.isSome && decide (r.metric = some .liveness)
    && decide (sinceMs ≤ r.atUnixMs)

/-- What `liveness_since` may return: those rows by time, a Fire before a Resolve of the same
moment. -/
def LivenessSince (sinceMs : UnixMs) (limit : Nat) (answer : List (NodeId × UnixMs × Bool)) :
    Prop :=
  ∃ rows, Answers HistoryRow.timeKey (max limit 1) (table.livenessFrom sinceMs) rows ∧
    answer = rows.filterMap fun r => r.subject.asNode.map fun n => (n, r.atUnixMs, r.resolved)

end HistoryTable

/-!
## How a transition gets into the alert history

The loop that judges the poll results hands every transition to `enqueue_history`. This puts it into
a bounded channel. If the channel is full, the loop writes the row itself, and waits for that. A
task of its own takes the records out of the channel, many at a time, and writes them with one
statement.

The loop and the task run side by side. A step of the model is what one of them does without
waiting: the attempt to put a record into the channel, the loop's own write, taking one record out
of the channel, and the write of a batch. The steps come in any order. The times are those at which
the database runs the statement, and every write succeeds.

The id of a row is drawn when it is written. Nothing reads it before that, so a record has it from
the start here, and the row of a record can be named. The end of the process is left out.
-/

/-- The most records that are written with one statement. -/
def resultPersistBatchMax : Nat := 500

/-- A transition on its way to the table. -/
structure HistoryRecord where
  id : Uuid
  alert : Alert
  resolved : Bool
deriving DecidableEq

/-- The row of a record. -/
def HistoryRecord.row (now : UnixMs) (record : HistoryRecord) : HistoryRow :=
  .ofAlert record.id now record.alert record.resolved

/-- A history writer, its channel and its table. -/
structure HistoryWriter where
  /-- The records in the channel. -/
  queue : List HistoryRecord
  /-- The record that found the channel full. The loop is writing it. -/
  inline : Option HistoryRecord
  /-- The records that the writer task has taken out of the channel. -/
  batch : List HistoryRecord
  table : HistoryTable
deriving DecidableEq

namespace HistoryWriter

/-- Nothing written yet. -/
def empty : HistoryWriter := ⟨[], none, [], []⟩

/-- A step of the loop or of the writer task. -/
inductive Op where
  /-- The loop hands over a record. -/
  | enqueueHistory (record : HistoryRecord)
  /-- The loop's own write. -/
  | recordInline (now : UnixMs)
  /-- The task takes a record out of the channel. -/
  | receive
  /-- The task writes its batch. -/
  | flushHistory (now : UnixMs)
deriving DecidableEq

/-- One step, with a channel for so many records. A step that has to wait leaves the state alone. -/
def step (cap : Nat) (w : HistoryWriter) : Op → HistoryWriter
  | .enqueueHistory record =>
    match w.inline with
    | some _ => w
    | none =>
      if w.queue.length < cap then { w with queue := w.queue ++ [record] }
      else { w with inline := some record }
  | .recordInline now =>
    match w.inline with
    | some record => { w with inline := none, table := w.table ++ [record.row now] }
    | none => w
  | .receive =>
    match w.queue with
    | record :: rest =>
      if w.batch.length < resultPersistBatchMax then
        { w with queue := rest, batch := w.batch ++ [record] }
      else w
    | [] => w
  | .flushHistory now => { w with batch := [], table := w.table ++ w.batch.map (·.row now) }

/-- The writer after a list of steps. -/
def run (cap : Nat) (ops : List Op) : HistoryWriter := ops.foldl (step cap) empty

/-- When a step writes, if it does. -/
def Op.writesAt : Op → Option UnixMs
  | .recordInline now | .flushHistory now => some now
  | .enqueueHistory _ | .receive => none

/-- The record a step hands over, if it does. -/
def Op.handsOver : Op → Option HistoryRecord
  | .enqueueHistory record => some record
  | .recordInline _ | .receive | .flushHistory _ => none

end HistoryWriter

/-! ### With retention -/

/-- What happens to the table: a step of the writer, or a retention pass. -/
inductive HistoryOp where
  | write (op : HistoryWriter.Op)
  | pruneOld (now : UnixMs) (olderThanSecs : Int)
deriving DecidableEq

/-- The step of the writer, if it is one. -/
def HistoryOp.write? : HistoryOp → Option HistoryWriter.Op
  | .write op => some op
  | .pruneOld _ _ => none

namespace HistoryWriter

/-- A step, or a pass of retention. -/
def stepPruning (cap : Nat) (w : HistoryWriter) : HistoryOp → HistoryWriter
  | .write op => w.step cap op
  | .pruneOld now olderThanSecs => { w with table := w.table.pruneOld now olderThanSecs }

/-- The writer after a list of steps and retention passes. -/
def runPruning (cap : Nat) (ops : List HistoryOp) : HistoryWriter :=
  ops.foldl (stepPruning cap) empty

end HistoryWriter

end Yagra
