import Yagra.Alert.Engine

/-!
# `Yagra.Alert.Observe`: what feeds the engine

The observation entry points. `observeWithNoReading` takes one poll result: the node's
liveness first, then the samples some rule covers. A sample of a per-port metric is judged
on its port. A sample of another metric with an index is a table row, judged on its own
check. The samples without an index are folded to the worst one of each metric.
`observeInterfaceMetric` and `observeDerivedMetric` take the values computed from stored
series, once per evaluator tick.

A healthy table row that holds no state is skipped (`observeRows`). The test that skips a row
is a parameter of the loop over the rows.

The source looks rules up once per distinct key and reuses the answer within a result. The
lookup is a function of the configuration, so the model asks it for each sample.
-/

set_option autoImplicit false

namespace Yagra

open Yagra.Lib

/-- One collected value. -/
structure Sample where
  metric : Metric
  ifindex : Option IfIndex
  value : F64
  kind : MetricKind
deriving DecidableEq

/-- The check name of a sample's metric. -/
def Sample.name (sample : Sample) : CheckName := .metric sample.metric

/-- What a poll found out about reaching the node. -/
inductive CheckOutcome where
  | reachable | unreachable | error
deriving DecidableEq, Repr

/-- One poll result. -/
structure PollResult where
  nodeId : NodeId
  atUnixMs : UnixMs
  outcome : CheckOutcome
  samples : List Sample
  /-- An observational result says nothing about whether the node is up. -/
  observational : Bool

/-- Whether a sample is a reading, or a vendor's placeholder for a row without one. -/
inductive Reading where
  | value | noReading
deriving DecidableEq

/-- Which check of a node a sample is judged on. -/
inductive CheckOn where
  | node
  | port (idx : IfIndex)
  | row (r : Nat) (name : Option RowText)
deriving DecidableEq

/-- When a batch of samples was observed, and how often such a batch arrives. -/
structure Moment where
  atUnixMs : UnixMs
  inMaintenance : Bool
  cadence : Cadence
  interval : Option Nat

/-- One table row to be judged: the sample, its threshold, the row and its name, and whether
the sample is a reading. -/
structure RowObservation where
  sample : Sample
  eff : EffectiveThreshold
  row : Nat
  rowName : Option RowText
  reading : Reading

/-- The tick of the per-port and the derived evaluators, in seconds. -/
def watchTickSecs : Nat := 60

/-- Whether a node's liveness lets the derived metrics be judged. -/
def mayObservePorts (liveness : Option NodeState) : Bool :=
  decide (liveness = some .ok) || decide (liveness = some .maintenance)

/-- The state a sample puts its check in. -/
def rawState (moment : Moment) (sample : Sample) (eff : EffectiveThreshold) (reading : Reading) :
    NodeState :=
  if moment.inMaintenance then .maintenance
  else if reading = .noReading then .ok
  else if sample.kind = .counter then .ok
  else eff.evaluate sample.value

/-- The side a sample crossed, or the rule's primary side, with that side's bounds. -/
def sampleEval (sample : Sample) (eff : EffectiveThreshold) : ThresholdEval :=
  let side := (eff.bounds.breachingSide sample.value).getD eff.direction
  ⟨sample.value, side, eff.bounds.warningOn side, eff.bounds.criticalOn side⟩

/-- The primary side's bounds, which the evaluators report for every value. -/
def primaryEval (value : F64) (eff : EffectiveThreshold) : ThresholdEval :=
  ⟨value, eff.direction, eff.warning, eff.critical⟩

/-- The descriptor of a threshold check. -/
def thresholdSpec (check : CheckId) (metric : CheckName) (eff : EffectiveThreshold)
    (eval : Option ThresholdEval) (cadence : Cadence) (interval : Option Nat) : CheckSpec where
  check := check
  metric := metric
  dwell := eff.dwellSamples
  isLiveness := false
  alerting := true
  eval := eval
  ifindex := none
  row := none
  rowName := none
  cadence := cadence
  interval := interval

/-- The descriptor of a node's liveness check. -/
def livenessSpec (node : NodeId) (livenessDwell : Option Nat) (moment : Moment) : CheckSpec where
  check := livenessCheck node
  metric := .liveness
  dwell := livenessDwell.getD defaultLivenessDwell
  isLiveness := true
  alerting := livenessDwell.isSome
  eval := none
  ifindex := none
  row := none
  rowName := none
  cadence := moment.cadence
  interval := moment.interval

/-- The descriptor of the check a sample is judged on. -/
def sampleSpec (node : NodeId) (moment : Moment) (sample : Sample) (eff : EffectiveThreshold)
    (on : CheckOn) (reading : Reading) : CheckSpec :=
  let eval := if reading = .value then some (sampleEval sample eff) else none
  match on with
  | .node => thresholdSpec (checkId node sample.name) sample.name eff eval moment.cadence
      moment.interval
  | .port idx =>
    { thresholdSpec (interfaceCheckId node idx sample.name) sample.name eff eval moment.cadence
        moment.interval with ifindex := some idx }
  | .row r name =>
    { thresholdSpec (rowCheckId node r sample.name) sample.name eff eval moment.cadence
        moment.interval with row := some r, rowName := name }

/-- Whether a row's sample is a reading that breaches its threshold. -/
def RowObservation.breaching (r : RowObservation) (moment : Moment) : Bool :=
  decide (r.reading = .value) && !moment.inMaintenance && decide (r.sample.kind ≠ .counter) &&
    decide (r.eff.evaluate r.sample.value ≠ .ok)

namespace AlertManager

variable (s : AlertManager) (order : List CheckId) (node : NodeId)

/-- Forget that a node-wide check was restored from a time before its metric was judged per
row. -/
def forgetLegacy (check : CheckId) : AlertManager :=
  { s with legacyNodeChecks := Function.update s.legacyNodeChecks check false }

/-- Close the alert of a check and forget its state with it; nothing when no alert is
open. -/
def resolveOrphan (check : CheckId) : Outcome :=
  match s.active check with
  | none => (s, [])
  | some _ =>
    match s.closeActive check with
    | (s, actions) => ({ s with states := Function.update s.states check none }, actions)

/-- Close the alerts of a list of checks. -/
def resolveOrphans (orphans : List CheckId) : Outcome :=
  emitAll resolveOrphan s orphans

/-- Close the node-wide alert of a metric whose rows are judged one by one now. -/
def retireLegacyNodeCheck (s : AlertManager) (metric : Metric) : Outcome :=
  let id := checkId node (.metric metric)
  if s.legacyNodeChecks id then (s.forgetLegacy id).resolveOrphans [id] else (s, [])

/-- Judge one sample on one check. -/
def observeThresholdSample (moment : Moment) (sample : Sample) (eff : EffectiveThreshold)
    (on : CheckOn) (reading : Reading) : Outcome :=
  let s := match on with
    | .node => s.forgetLegacy (checkId node sample.name)
    | .port _ | .row .. => s
  s.processCheck order node (rawState moment sample eff reading) moment.atUnixMs
    (sampleSpec node moment sample eff on reading)

/-! ### Table rows -/

/-- Whether a row is left out, from whether its sample breaches and whether it holds a
state. -/
abbrev SkipTest := Bool → Bool → Bool

/-- The test of the engine: a healthy row that holds no state is left out. -/
def skipHealthy : SkipTest := fun breaching held => !breaching && !held

/-- The key of a row in the index of rows that hold a state. -/
def rowKey (r : RowObservation) : NodeId × CheckName × Nat :=
  (node, r.sample.name, r.row)

/-- Judge one row, unless the test leaves it out. The flag says whether the row held a state
when the batch began. -/
def observeRow (skip : SkipTest) (order : List CheckId) (node : NodeId) (moment : Moment)
    (s : AlertManager) (entry : RowObservation × Bool) : Outcome :=
  let (r, held) := entry
  if skip (r.breaching moment) held then (s, [])
  else s.observeThresholdSample order node moment r.sample r.eff (.row r.row r.rowName) r.reading

/-- Judge a batch of rows. Which rows hold a state is read once, before the loop, and the
rows that got one are entered after it. -/
def observeRowsUsing (skip : SkipTest) (s : AlertManager) (order : List CheckId) (node : NodeId)
    (moment : Moment) (rows : List RowObservation) : Outcome :=
  match emitAll (retireLegacyNodeCheck node) s (rows.map (·.sample.metric)).eraseDups with
  | (s, retired) =>
    let flagged := rows.map fun r => (r, s.rowStates (rowKey node r))
    match emitAll (observeRow skip order node moment) s flagged with
    | (s, actions) =>
      let newlyHeld := (flagged.filter fun (r, held) =>
        !skip (r.breaching moment) held && !held).map fun (r, _) => rowKey node r
      ({ s with rowStates := fun k => s.rowStates k || decide (k ∈ newlyHeld) }, retired ++ actions)

/-- What judges a batch of rows. -/
abbrev RowsObserver :=
  AlertManager → List CheckId → NodeId → Moment → List RowObservation → Outcome

/-- The engine's own way: healthy rows without a state are skipped. -/
def observeRows : RowsObserver := observeRowsUsing skipHealthy

/-! ### Poll results -/

/-- The port a sample is resolved and judged on: its index, for a per-port metric. -/
def resolvePort (c : AlertConfig) (sample : Sample) : Option IfIndex :=
  if c.isPerInterface sample.name then sample.ifindex else none

/-- The name a row is called by, if one has been read. -/
def rowNameOf (metric : CheckName) (row : Nat) : Option RowText :=
  s.rowNames (node, metric, row)

/-- The row name a sample is resolved under: only for a table row, and only when some rule
of its metric has a row pattern. -/
def resolvingRowName (sample : Sample) : Option RowText :=
  if (resolvePort s.config sample).isSome ∨ s.config.hasRowRules sample.name = false then none
  else sample.ifindex.bind fun row => s.rowNameOf node sample.name row

/-- The threshold in force on a sample. -/
def resolveSample (sample : Sample) : Option EffectiveThreshold :=
  s.config.resolve node (resolvePort s.config sample) (s.resolvingRowName node sample) sample.name

/-- The samples of a result with the threshold of each, placeholders last; samples no rule
covers are left out. -/
def resolvedSamples (result : PollResult) (noReading : List Sample) :
    List (Sample × EffectiveThreshold × Reading) :=
  (result.samples.map (·, Reading.value) ++ noReading.map (·, Reading.noReading)).filterMap
    fun (sample, reading) =>
      (s.resolveSample result.nodeId sample).map fun eff => (sample, eff, reading)

/-- The port samples of a result. A placeholder on a port says nothing. -/
def portSamples (c : AlertConfig) (resolved : List (Sample × EffectiveThreshold × Reading)) :
    List (Sample × EffectiveThreshold × IfIndex) :=
  resolved.filterMap fun (sample, eff, reading) =>
    match resolvePort c sample, reading with
    | some idx, .value => some (sample, eff, idx)
    | _, _ => none

/-- The row samples of a result, placeholders included. -/
def rowSamples (resolved : List (Sample × EffectiveThreshold × Reading)) : List RowObservation :=
  resolved.filterMap fun (sample, eff, reading) =>
    match resolvePort s.config sample, sample.ifindex with
    | none, some row => some ⟨sample, eff, row, s.rowNameOf node sample.name row, reading⟩
    | _, _ => none

/-- Add a node-wide sample to the worst ones found so far, one per metric. -/
def foldSample (folded : List (Sample × EffectiveThreshold)) (sample : Sample)
    (eff : EffectiveThreshold) : List (Sample × EffectiveThreshold) :=
  match folded with
  | [] => [(sample, eff)]
  | (worst, worstEff) :: rest =>
    if worst.metric = sample.metric then
      (if eff.isWorse sample.value worst.value then sample else worst, worstEff) :: rest
    else (worst, worstEff) :: foldSample rest sample eff

/-- The node-wide samples of a result, the worst one of each metric. A placeholder says
nothing. -/
def foldedSamples (resolved : List (Sample × EffectiveThreshold × Reading)) :
    List (Sample × EffectiveThreshold) :=
  (resolved.filter fun (sample, _, reading) =>
    decide (sample.ifindex = none) && decide (reading = .value)).foldl
    (fun folded (sample, eff, _) => foldSample folded sample eff) []

/-- The liveness state a poll outcome means. -/
def livenessRaw (inMaintenance : Bool) : CheckOutcome → NodeState
  | .reachable => if inMaintenance then .maintenance else .ok
  | .unreachable => if inMaintenance then .maintenance else .unreachable
  | .error => if inMaintenance then .maintenance else .unknown

/-- When a result was observed. -/
def pollMoment (result : PollResult) : Moment where
  atUnixMs := result.atUnixMs
  inMaintenance := s.config.inMaintenance result.nodeId
  cadence := .everyPoll
  interval := s.intervals result.nodeId

/-- The dwell of the liveness rule that covers a node, if one does. -/
def livenessDwell : Option Nat :=
  (s.config.resolve node none none .liveness).map (·.dwellSamples)

/-- The liveness observation of a result, unless the result is observational. -/
def observeLiveness (result : PollResult) : Outcome :=
  if result.observational then (s, [])
  else
    s.processCheck order result.nodeId
      (livenessRaw (s.config.inMaintenance result.nodeId) result.outcome) result.atUnixMs
      (livenessSpec result.nodeId (s.livenessDwell result.nodeId) (s.pollMoment result))

/-- One poll result, with what judges its rows as a parameter. Rules and names are read
before anything is judged. -/
def observeUsing (observeRows : RowsObserver) (s : AlertManager) (order : List CheckId)
    (result : PollResult) (noReading : List Sample) : Outcome :=
  let node := result.nodeId
  if s.config.isPaused node result.atUnixMs then (s, [])
  else
    let moment := s.pollMoment result
    let resolved := s.resolvedSamples result noReading
    let rows := s.rowSamples node resolved
    match s.observeLiveness order result with
    | (s₁, a₁) =>
      match emitAll (fun s (p : Sample × EffectiveThreshold × IfIndex) =>
          s.observeThresholdSample order node moment p.1 p.2.1 (.port p.2.2) .value)
          s₁ (portSamples s.config resolved) with
      | (s₂, a₂) =>
        match emitAll (fun s (p : Sample × EffectiveThreshold) =>
            s.observeThresholdSample order node moment p.1 p.2 .node .value)
            s₂ (foldedSamples resolved) with
        | (s₃, a₃) =>
          match if rows.isEmpty then (s₃, []) else observeRows s₃ order node moment rows with
          | (s₄, a₄) => (s₄, a₁ ++ a₂ ++ a₃ ++ a₄)

/-- One poll result. `noReading` holds the placeholders taken out of it before. -/
def observeWithNoReading : AlertManager → List CheckId → PollResult → List Sample → Outcome :=
  observeUsing observeRows

/-! ### Derived values -/

/-- One per-port value computed from stored series. -/
def observeInterfaceMetric (ifindex : IfIndex) (metric : Metric) (value : F64) (atUnixMs : UnixMs) :
    Outcome :=
  match s.config.resolve node (some ifindex) none (.metric metric) with
  | none => (s, [])
  | some eff =>
    if s.config.isPaused node atUnixMs then (s, [])
    else
      s.processCheck order node
        (if s.config.inMaintenance node then .maintenance else eff.evaluate value) atUnixMs
        { thresholdSpec (interfaceCheckId node ifindex (.metric metric)) (.metric metric) eff
            (some (primaryEval value eff)) (.everyTick watchTickSecs) (s.intervals node) with
          ifindex := some ifindex }

/-- Whether a rule is in force on a port. The source's `observe_interface_metric` answers `None`
when there is none, which its caller tells apart from an observation that led to nothing. -/
def watchesPort (ifindex : IfIndex) (metric : Metric) : Bool :=
  (s.config.resolve node (some ifindex) none (.metric metric)).isSome

/-- Whether a port's check has nothing left to recover: no alert is open, and its tracker, if it
has one, rests at `ok`. -/
def interfaceCheckIsQuiet (ifindex : IfIndex) (metric : Metric) : Bool :=
  let check := interfaceCheckId node ifindex (.metric metric)
  ((s.states check).all fun cs => decide (cs.committed = .ok) && !cs.pending) &&
    (s.active check).isNone

/-- The rows of a per-row derived metric with the threshold of each. The names are those of
the rows of the metric's first input. -/
def derivedRows (metric : Metric) (input : String) (rows : List (Int × F64)) :
    List (RowObservation) :=
  rows.filterMap fun (row, value) =>
    if 0 ≤ row ∧ row ≤ u32Max then
      let name := s.rowNameOf node (.metric (.series input)) row.toNat
      let key := if s.config.hasRowRules (.metric metric) then name else none
      (s.config.resolve node none key (.metric metric)).map fun eff =>
        ⟨⟨metric, none, value, .gauge⟩, eff, row.toNat, name, .value⟩
    else none

/-- The values of a per-row derived metric, with what judges the rows as a parameter. -/
def observeDerivedRowsUsing (observeRows : RowsObserver) (s : AlertManager) (order : List CheckId)
    (node : NodeId) (metric : Metric) (input : String) (rows : List (Int × F64))
    (atUnixMs : UnixMs) : Outcome :=
  let observed := s.derivedRows node metric input rows
  if observed.isEmpty then (s, [])
  else if s.config.isPaused node atUnixMs then (s, [])
  else
    observeRows s order node
      { atUnixMs := atUnixMs
        inMaintenance := s.config.inMaintenance node
        cadence := .everyTick watchTickSecs
        interval := s.intervals node }
      observed

/-- The worst of a list of values under a threshold. -/
def worstValue (eff : EffectiveThreshold) : List F64 → Option F64
  | [] => none
  | v :: rest =>
    some (rest.foldl (fun incumbent candidate =>
      if eff.isWorse candidate incumbent then candidate else incumbent) v)

/-- The values of a derived metric of a node, with what judges rows as a parameter. Nothing is
judged while the node is not known to be up. -/
def observeDerivedUsing (observeRows : RowsObserver) (s : AlertManager) (order : List CheckId)
    (node : NodeId) (metric : Metric) (rows : List (Int × F64)) (atUnixMs : UnixMs) : Outcome :=
  if mayObservePorts (s.live node) = false then (s, [])
  else
    match (derivedNodeMetric (.metric metric)).filter (·.perRow) with
    | some d => observeDerivedRowsUsing observeRows s order node metric d.input rows atUnixMs
    | none =>
      match s.config.resolve node none none (.metric metric) with
      | none => (s, [])
      | some eff =>
        if s.config.isPaused node atUnixMs then (s, [])
        else
          match worstValue eff (rows.map Prod.snd) with
          | none => (s, [])
          | some value =>
            let check := checkId node (.metric metric)
            (s.forgetLegacy check).processCheck order node
              (if s.config.inMaintenance node then .maintenance else eff.evaluate value)
              atUnixMs
              (thresholdSpec check (.metric metric) eff (some (primaryEval value eff))
                (.everyTick watchTickSecs) (s.intervals node))

/-- The values of a derived metric of a node. -/
def observeDerivedMetric : AlertManager → List CheckId → NodeId → Metric → List (Int × F64) →
    UnixMs → Outcome :=
  observeDerivedUsing observeRows

end AlertManager

end Yagra
