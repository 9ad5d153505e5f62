import Yagra.History.Table
import Yagra.Lib.OrdSet

/-!
# `Yagra.History.Timeline`: the availability of a node over a period

`flatten` lays intervals of several kinds onto one timeline, in one sweep over their edges.
`compute` feeds it the outages, the maintenance windows and the time without a record, clipped to
the period, and adds up the spans.

`sort_unstable_by_key` leaves the order of edges at one instant open. Here they are sorted stably;
the sweep takes all edges of an instant before it looks at what is open.
-/

set_option autoImplicit false

namespace Yagra

open Std (ExtTreeMap)
open Yagra.Lib (OrdSet)

/-!
## Outages from the rows of the alert history

Two readers of the history turn its liveness rows into the intervals in which a node was down.

- `downIntervals` is for the availability graph of one node. It goes through the rows in the order
  they were recorded, and takes the time at which a Resolve was recorded for the end of the outage.
- `outagesFromRows` is for the replay of the last days. It goes through the rows of all nodes by the
  time of the alert, and takes that time of a Resolve for the end of the outage.
-/

/-! ### The availability graph -/

/-- What one row does: the interval it ends, if it does, and where the open one begins. `first` says
whether it is the first row. -/
def downRow (fromMs : UnixMs) (first : Bool) (isOpen : Option UnixMs) (row : LivenessRow) :
    List (UnixMs × UnixMs) × Option UnixMs :=
  if row.resolved then
    match isOpen with
    | some start => ([(start, row.recordedAtMs)], none)
    -- The Fire is gone while its Resolve is still there. Only the first row can be that.
    | none =>
      if first ∧ fromMs < row.recordedAtMs then
        ([(min fromMs row.atUnixMs, row.recordedAtMs)], none)
      else ([], none)
  else
    match isOpen with
    -- A second Fire is of the same outage.
    | some start => ([], some start)
    | none => ([], some row.atUnixMs)

/-- The loop of `downIntervals`. -/
def downLoop (fromMs nowMs : UnixMs) :
    Bool → Option UnixMs → List LivenessRow → List (UnixMs × UnixMs)
  | _, isOpen, [] => isOpen.toList.map fun start => (start, nowMs)
  | first, isOpen, row :: rest =>
    match downRow fromMs first isOpen row with
    | (ended, isOpen) => ended ++ downLoop fromMs nowMs false isOpen rest

/-- The intervals in which a node was down. -/
def downIntervals (rows : List LivenessRow) (fromMs nowMs : UnixMs) : List (UnixMs × UnixMs) :=
  downLoop fromMs nowMs true none rows

/-! ### The replay -/

/-- A stretch of time in which a node was down. -/
structure Outage where
  node : NodeId
  fromMs : UnixMs
  /-- `none` while it is still down. -/
  toMs : Option UnixMs
deriving DecidableEq, Repr

/-- The nodes that were seen so far, each with the start of its open outage, and the outages that
have ended. -/
structure Replay where
  isOpen : ExtTreeMap NodeId (Option UnixMs)
  outages : List Outage

/-- One row of the loop in `outagesFromRows`. -/
def Replay.row (sinceMs : UnixMs) (s : Replay) (row : NodeId × UnixMs × Bool) : Replay :=
  let (node, t, resolved) := row
  match resolved, s.isOpen[node]? with
  -- A second Fire adds nothing.
  | false, some (some _) => s
  | false, some none | false, none => { s with isOpen := s.isOpen.insert node (some t) }
  | true, some (some start) =>
    ⟨s.isOpen.insert node none, s.outages ++ [⟨node, start, some t⟩]⟩
  -- The node was already down when the window opened.
  | true, none => ⟨s.isOpen.insert node none, s.outages ++ [⟨node, sinceMs - 1, some t⟩]⟩
  | true, some none => s

/-- The outages of every node. One that has no row but is down has been down all along. -/
def outagesFromRows (rows : List (NodeId × UnixMs × Bool)) (sinceMs : UnixMs)
    (downNow : OrdSet NodeId) : List Outage :=
  let s := rows.foldl (Replay.row sinceMs) ⟨∅, []⟩
  s.outages
    ++ s.isOpen.toList.filterMap (fun (node, start) => start.map fun t => ⟨node, t, none⟩)
    ++ (downNow.toList.filter fun node => !s.isOpen.contains node).map fun node =>
        ⟨node, sinceMs - 1, none⟩

/-! ## The timeline -/

/-- The periods a graph can show. -/
inductive AvailabilityPeriod where
  | day | week | month | quarter
deriving DecidableEq, Repr

/-- How long a period is. -/
def AvailabilityPeriod.millis : AvailabilityPeriod → Int
  | .day => 86400000
  | .week => 7 * 86400000
  | .month => 30 * 86400000
  | .quarter => 90 * 86400000

/-- What a span of time was. Up is not a kind: it is whatever no span covers. -/
inductive SpanKind where
  | down | maintenance | noRecord
deriving DecidableEq, Repr

/-- Which kind wins where two overlap, highest first. -/
def SpanKind.all : List SpanKind := [.noRecord, .down, .maintenance]

/-- A span of one kind. -/
structure AvailabilitySpan where
  kind : SpanKind
  fromMs : Int
  toMs : Int
deriving DecidableEq, Repr

/-- Spans are built newest first. A span that goes on with the last one is joined to it. -/
def pushSpan (out : List AvailabilitySpan) (span : AvailabilitySpan) : List AvailabilitySpan :=
  match out with
  | last :: before =>
    if last.kind = span.kind ∧ last.toMs = span.fromMs then
      { last with toMs := span.toMs } :: before
    else span :: out
  | [] => [span]

/-! ### The sweep -/

/-- An interval of a kind begins or ends. -/
structure SpanEdge where
  time : Int
  kind : SpanKind
  delta : Int
deriving DecidableEq, Repr

/-- Where intervals begin and end. -/
def spanEdges (tagged : List AvailabilitySpan) : List SpanEdge :=
  tagged.flatMap fun i =>
    if i.fromMs < i.toMs then [⟨i.fromMs, i.kind, 1⟩, ⟨i.toMs, i.kind, -1⟩] else []

/-- The highest kind with an interval open. -/
def topKind (openCount : SpanKind → Int) : Option SpanKind :=
  SpanKind.all.find? fun k => decide (0 < openCount k)

/-- The loop of `flatten`: the last edge of an instant begins a gap up to the next edge. -/
def sweepSpans (openCount : SpanKind → Int) (out : List AvailabilitySpan) :
    List SpanEdge → List AvailabilitySpan
  | [] => out
  | e :: rest =>
    let openCount := Function.update openCount e.kind (openCount e.kind + e.delta)
    match rest with
    | [] => out
    | next :: _ =>
      if next.time = e.time then sweepSpans openCount out rest
      else
        match topKind openCount with
        | some kind => sweepSpans openCount (pushSpan out ⟨kind, e.time, next.time⟩) rest
        | none => sweepSpans openCount out rest

/-- Lay tagged intervals onto one timeline. -/
def flatten (tagged : List AvailabilitySpan) : List AvailabilitySpan :=
  (sweepSpans (fun _ => 0) []
    ((spanEdges tagged).mergeSort fun e e' => decide (e.time ≤ e'.time))).reverse

/-! ### The answer -/

/-- One span of the loop in `fillUnrecorded`. The second component is where the covered time ends.
-/
def fillSpan (s : List AvailabilitySpan × Int) (span : AvailabilitySpan) :
    List AvailabilitySpan × Int :=
  (pushSpan (if s.2 < span.fromMs then pushSpan s.1 ⟨.noRecord, s.2, span.fromMs⟩ else s.1) span,
    max s.2 span.toMs)

/-- Fill what the spans leave uncovered. -/
def fillUnrecorded (spans : List AvailabilitySpan) (fromMs toMs : Int) : List AvailabilitySpan :=
  let s := spans.foldl fillSpan ([], fromMs)
  (if s.2 < toMs then pushSpan s.1 ⟨.noRecord, s.2, toMs⟩ else s.1).reverse

/-- What the timeline of a node is made from. -/
structure AvailabilityInputs where
  liveness : List LivenessRow
  maintenance : List (UnixMs × UnixMs)
  monitoringGaps : List (UnixMs × UnixMs)
  createdAtMs : UnixMs
  historyStartMs : UnixMs
  /-- Nothing would record an outage of this node. -/
  unobserved : Bool

/-- The timeline of a node, with its totals. -/
structure NodeAvailability where
  fromMs : Int
  toMs : Int
  spans : List AvailabilitySpan
  truncatedBeforeMs : Option UnixMs
  upSecs : Int
  downSecs : Int
  maintenanceSecs : Int
  noRecordSecs : Int
  outages : Nat

/-- At most this many spans are shown. -/
def spansMax : Nat := 1000

/-- The part of an interval inside the period. -/
def clip (fromMs toMs : Int) (kind : SpanKind) (i : UnixMs × UnixMs) : Option AvailabilitySpan :=
  if max i.1 fromMs < min i.2 toMs then some ⟨kind, max i.1 fromMs, min i.2 toMs⟩ else none

namespace AvailabilityInputs
variable (inputs : AvailabilityInputs) (fromMs toMs : Int)

/-- The outages inside the period. -/
def downs : List AvailabilitySpan :=
  (downIntervals inputs.liveness fromMs toMs).filterMap (clip fromMs toMs .down)

/-- All intervals inside the period. -/
def tagged : List AvailabilitySpan :=
  inputs.downs fromMs toMs ++ inputs.maintenance.filterMap (clip fromMs toMs .maintenance)
    ++ (inputs.monitoringGaps ++ [(fromMs, max inputs.createdAtMs inputs.historyStartMs)]).filterMap
        (clip fromMs toMs .noRecord)

/-- Every span of the period, before the list is cut. -/
def allSpans : List AvailabilitySpan :=
  if inputs.unobserved then fillUnrecorded (flatten (inputs.tagged fromMs toMs)) fromMs toMs
  else flatten (inputs.tagged fromMs toMs)

end AvailabilityInputs

/-- How long the spans of a kind are together. -/
def spanMillis (spans : List AvailabilitySpan) (kind : SpanKind) : Int :=
  ((spans.filter fun s => s.kind = kind).map fun s => s.toMs - s.fromMs).sum

/-- The answer for the period that ends now. -/
def compute (period : AvailabilityPeriod) (nowMs : Int) (inputs : AvailabilityInputs) :
    NodeAvailability :=
  let fromMs := nowMs - period.millis
  let spans := inputs.allSpans fromMs nowMs
  let downSecs := spanMillis spans .down / 1000
  let maintenanceSecs := spanMillis spans .maintenance / 1000
  let noRecordSecs := spanMillis spans .noRecord / 1000
  let kept := spans.drop (spans.length - spansMax)
  { fromMs
    toMs := nowMs
    spans := kept
    truncatedBeforeMs :=
      if spansMax < spans.length then kept.head?.map AvailabilitySpan.fromMs else none
    upSecs := max ((nowMs - fromMs) / 1000 - downSecs - maintenanceSecs - noRecordSecs) 0
    downSecs, maintenanceSecs, noRecordSecs
    outages := min (inputs.downs fromMs nowMs).length 4294967295 }

end Yagra
