import Yagra.Alert.System

/-!
# `Yagra.Tsdb.InterfaceWatch`: the loop that watches port utilisation

Once a tick the watch closes the alerts no rule covers any more and then takes the two directions
one after the other (`Watch.pass`). For a direction it plans one query from the rules in force
(`queryPlan`), reads the ports above the floor, and feeds each of them to the engine. A check that
is fed is tracked. A tracked check whose port is not among those read is read again without a
floor and fed what it carries, until it has nothing left to recover (`Watch.recover`).

What the reads of a tick answer is an argument (`TickReads`), failures included, and each call of
a pass answers for itself. `World` is a store and an inventory that answer every read.

The set of tracked checks lives as long as the process. `WatchOp.restart` puts the stored alerts
into a new engine and starts the watch with no tracked check.
-/

set_option autoImplicit false

namespace Yagra

open Yagra.Lib

/-!
## Port utilisation, and which ports are read again

Utilisation is not a stored series. A port's rate comes from the store, and its percentage is that
rate over the speed the inventory holds for the port. This module is the pure half of the watch
over it: the percentage (`utilisationPct`), the rate below which no rule can be breached
(`queryFloorBps`), the readings of a list of ports (`evaluate`), the checks that have been fed
(`TrackedChecks`), and what a check that has left the candidate set is fed (`recoveryFor`).

A rate that is computed with is a finite number, and the model computes with it exactly.
-/

/-! ### The derived metrics of a port -/

/-- The metrics derived for each port, in the order of their names. -/
inductive PortMetric where
  | inBps | inUtilPct | outBps | outUtilPct
deriving DecidableEq, Repr

namespace PortMetric

/-- The name of the metric. -/
def name : PortMetric → String
  | .inBps => "if_in_bps"
  | .inUtilPct => "if_in_util_pct"
  | .outBps => "if_out_bps"
  | .outUtilPct => "if_out_util_pct"

/-- The metric, as the engine calls it. -/
def metric (m : PortMetric) : Metric := .series m.name

/-- The derived metric of a name, if it is one. -/
def ofName (metric : CheckName) : Option PortMetric :=
  (derivedInterfaceMetricName metric).bind fun name =>
    [inBps, inUtilPct, outBps, outUtilPct].find? fun m => m.name = name

/-- The place of a metric in the order of the names. -/
def rank : PortMetric → Nat
  | .inBps => 0
  | .inUtilPct => 1
  | .outBps => 2
  | .outUtilPct => 3

theorem rank_injective : Function.Injective rank := by
  intro a b h
  cases a <;> cases b <;> simp_all [rank]

theorem name_injective : Function.Injective name := by
  intro a b h
  cases a <;> cases b <;> simp_all [name]

end PortMetric

/-- The two metrics of one direction. -/
structure DerivedPair where
  pct : PortMetric
  bps : PortMetric
deriving DecidableEq, Repr

/-- The store's rate a direction's metrics are computed from. -/
inductive InterfaceTopMetric where
  | inBps | outBps
deriving DecidableEq, Repr

/-- The two directions, in the order the watch takes them. -/
def interfaceDimensions : List (DerivedPair × InterfaceTopMetric) :=
  [(⟨.inUtilPct, .inBps⟩, .inBps), (⟨.outUtilPct, .outBps⟩, .outBps)]

/-! ### Percentages and floors -/

/-- A rate as a percentage of the port's own speed, if it has a usable one. -/
def utilisationPct (bitsPerSec : F64) (ifSpeedBps : Option Int) : Option F64 :=
  (ifSpeedBps.filter fun speed => decide (0 < speed)).bind fun speed =>
    match bitsPerSec with
    | .finite q => if q < 0 then none else some (.finite (q / speed * 100))
    | .nan | .negInf | .posInf => none

/-- The rate below which no port of at least this speed reaches the percentage. -/
def candidateFloorBps (slowestCoveredBps : Option Int) (lowestBoundPct : Option F64) : Option F64 :=
  (slowestCoveredBps.filter fun speed => decide (0 < speed)).bind fun speed =>
    match lowestBoundPct with
    | some (.finite pct) =>
      if 0 < pct then some (.finite (min (speed * pct / 100) speed)) else none
    | _ => none

/-- What the rules of one derived metric ask of the candidate query. -/
structure BoundDemand where
  lowestBound : Option F64
  hasBelow : Bool
deriving DecidableEq

/-- Whether some rule of the metric can fire. -/
def BoundDemand.canFire (d : BoundDemand) : Bool := d.lowestBound.isSome

/-- The least rate the candidate query of one direction has to return. A rule on the lower side
asks for every port. -/
def queryFloorBps (slowestCoveredBps : Option Int) (pct abs : BoundDemand) : Option F64 :=
  let pctFloor : Option F64 := match pct.lowestBound with
    | none => none
    | some bound =>
      if pct.hasBelow then some (.finite 0)
      else candidateFloorBps slowestCoveredBps (some bound)
  let absFloor : Option F64 := match abs.lowestBound with
    | none => none
    | some bound =>
      if abs.hasBelow then some (.finite 0)
      else match bound with
        | .finite _ => some (F64.max bound (.finite 0))
        | .nan | .negInf | .posInf => some (.finite 0)
  match pctFloor, absFloor with
  | some a, some b => some (F64.min a b)
  | some a, none | none, some a => some a
  | none, none => none

/-! ### Tracked checks -/

/-- A check of the watch: which node, which port, which derived metric. -/
structure CheckKey where
  node : NodeId
  ifindex : IfIndex
  metric : PortMetric
deriving DecidableEq, Repr

namespace CheckKey

/-- The check the engine keeps for it. -/
def check (k : CheckKey) : CheckId := interfaceCheckId k.node k.ifindex (.metric k.metric.metric)

/-- The fields in the order keys are compared by. -/
def order (k : CheckKey) : Nat ×ₗ Nat ×ₗ Nat := toLex (k.node, toLex (k.ifindex, k.metric.rank))

theorem order_injective : Function.Injective order := by
  rintro ⟨node, ifindex, metric⟩ ⟨node', ifindex', metric'⟩ h
  have h' : (node, toLex (ifindex, metric.rank)) = (node', toLex (ifindex', metric'.rank)) :=
    toLex.injective h
  obtain ⟨hnode, hrest⟩ := Prod.mk.inj h'
  obtain ⟨hidx, hrank⟩ := Prod.mk.inj (toLex.injective hrest)
  rw [hnode, hidx, PortMetric.rank_injective hrank]

instance : LinearOrder CheckKey := LinearOrder.lift' order order_injective

theorem check_injective : Function.Injective check := by
  rintro ⟨node, ifindex, metric⟩ ⟨node', ifindex', metric'⟩ h
  simp only [check, interfaceCheckId, CheckId.mk.injEq, Subject.node.injEq, CheckName.metric.injEq,
    PortMetric.metric, Metric.series.injEq, Option.some.injEq] at h
  obtain ⟨hnode, hname, hidx⟩ := h
  rw [hnode, hidx, PortMetric.name_injective hname]

end CheckKey

/-- The checks that have been fed and not been forgotten since. -/
abbrev TrackedChecks := OrdSet CheckKey

namespace TrackedChecks

variable (t : TrackedChecks)

/-- Track a check. -/
def mark (key : CheckKey) : TrackedChecks := t.insert key

/-- Stop tracking it. -/
def forget (key : CheckKey) : TrackedChecks := t.erase key

/-- The tracked checks of a metric whose port is not among those present. -/
def absent (metric : PortMetric) (present : List (NodeId × IfIndex)) : List CheckKey :=
  (t.toList.filter fun k => decide (k.metric = metric)).filter fun k =>
    present.all fun port => decide (port ≠ (k.node, k.ifindex))

end TrackedChecks

/-! ### Readings -/

/-- One port's reading. -/
structure PortReading where
  node : NodeId
  ifindex : IfIndex
  bps : F64
  /-- The rate as a percentage of the port's own speed, if it has a usable one. -/
  pct : Option F64
deriving DecidableEq

/-- What a check that has left the candidate set is fed. -/
inductive Recovery where
  | observe (value : F64)
  | hold
deriving DecidableEq

/-- The recovery of one check, from the reading of its port, if there is one. -/
def recoveryFor (metric : PortMetric) (pair : DerivedPair) : Option PortReading → Recovery
  | none => .hold
  | some r => if metric = pair.pct then r.pct.elim .hold .observe else .observe r.bps

/-- One row of the store: a node, a port index as the label has it, and a rate. -/
abbrev RateRow := Uuid × Int × F64

/-- The speeds the inventory holds, by node and port index. A port it has a row for may still have
no speed. -/
abbrev SpeedTable := Uuid × Int → Option (Option Int)

/-- The reading of one row. A negative index is no port. -/
def readingOf (speeds : SpeedTable) (row : RateRow) : Option PortReading :=
  if row.2.1 < 0 then none
  else some ⟨row.1, row.2.1.toNat, row.2.2, utilisationPct row.2.2 (speeds (row.1, row.2.1)).join⟩

/-- The readings of a list of rows, and how many rows have no percentage. -/
def evaluate (candidates : List RateRow) (speeds : SpeedTable) : List PortReading × Nat :=
  (candidates.filterMap (readingOf speeds),
    candidates.countP fun row => ((readingOf speeds row).bind PortReading.pct).isNone)

/-! ## The loop -/

/-! ### Reads -/

/-- What the store and the inventory answer; `none` for a read that fails. -/
structure Reads where
  /-- The least usable speed among the ports of the nodes; of the whole fleet when none is
  named. -/
  slowestInterfaceSpeedBps : List Uuid → Option (Option Int)
  /-- The ports at or above a rate. -/
  interfaceCandidates : InterfaceTopMetric → F64 → Option (List Uuid) → Option (List RateRow)
  /-- The speeds of the ports of the nodes. -/
  interfaceIdentsFor : List Uuid → Option SpeedTable

/-- The reads of one direction: those of the candidate query, and those of the second look at the
checks that have left it. -/
structure PassReads where
  candidates : Reads
  absent : Reads

/-- The reads of one tick. -/
abbrev TickReads := InterfaceTopMetric → PassReads

/-! ### The plan of a direction -/

variable (c : AlertConfig) (pair : DerivedPair)

/-- The demand of the rules in force on a metric. -/
def AlertConfig.demand (m : PortMetric) : BoundDemand :=
  let cov := c.ruleCoverage (.metric m.metric)
  ⟨cov.lowestBound, cov.hasBelow⟩

/-- The nodes a direction's query has to cover: those of both metrics' rules, or the fleet. -/
def AlertConfig.coveredNodes : Option (OrdSet Uuid) :=
  match (c.ruleCoverage (.metric pair.pct.metric)).nodes,
    (c.ruleCoverage (.metric pair.bps.metric)).nodes with
  | some a, some b => some (a.extend b.toList)
  | _, _ => none

/-- The query of one direction. -/
structure QueryPlan where
  floor : F64
  /-- The nodes it names; `none` for the fleet. -/
  scope : Option (List Uuid)

/-- The query of one direction. There is none when no rule can fire, when the rules name no node,
when the slowest speed cannot be read, or when there is no floor. -/
def queryPlan (reads : Reads) : Option QueryPlan :=
  let pct := c.demand pair.pct
  let bps := c.demand pair.bps
  let nodes := (c.coveredNodes pair).map OrdSet.toList
  if pct.canFire = false ∧ bps.canFire = false then none
  else if nodes = some [] then none
  else
    (if pct.canFire then reads.slowestInterfaceSpeedBps (nodes.getD []) else some none).bind
      fun slowest => (queryFloorBps slowest pct bps).map fun floor => ⟨floor, nodes⟩

/-- The speeds of the nodes of some rows, read only when a percentage rule can fire. -/
def readSpeeds (reads : Reads) (needed : Bool) (nodes : List Uuid) : Option SpeedTable :=
  if needed then reads.interfaceIdentsFor (OrdSet.ofList nodes).toList else some fun _ => none

/-- The readings of the ports above the floor. -/
def candidateReadings (dimension : InterfaceTopMetric) (reads : Reads) :
    Option (List PortReading) :=
  (queryPlan c pair reads).bind fun plan =>
    (reads.interfaceCandidates dimension plan.floor plan.scope).bind fun rows =>
      (readSpeeds reads (c.demand pair.pct).canFire (rows.map Prod.fst)).map fun speeds =>
        (evaluate rows speeds).1

/-- The reading of each port of the checks that are looked at again: the last row of a port
counts. Without an answer of the store no port has one, and without one of the inventory no port
has a percentage. -/
def evidence (reads : Reads) (pair : DerivedPair) (dimension : InterfaceTopMetric)
    (absent : List CheckKey) (node : NodeId) (ifindex : IfIndex) : Option PortReading :=
  let nodes := (OrdSet.ofList (absent.map CheckKey.node)).toList
  (reads.interfaceCandidates dimension (.finite 0) (some nodes)).bind fun rows =>
    let speeds := (readSpeeds reads (absent.any fun k => k.metric = pair.pct) nodes).getD
      fun _ => none
    (evaluate rows speeds).1.reverse.find? fun r =>
      decide (r.node = node) && decide (r.ifindex = ifindex)

/-! ### The watch -/

/-- The engine, with the checks the watch has fed since the process started. -/
structure Watch where
  engine : AlertManager
  tracked : TrackedChecks

namespace Watch

/-- The state after a change of the watch, with the actions it led to. -/
abbrev Outcome := Watch × List NotifyAction

/-- Feed one value to the engine. -/
def observe (now : UnixMs) (w : Watch) (key : CheckKey) (value : F64) : Outcome :=
  match w.engine.observeInterfaceMetric [] key.node key.ifindex key.metric.metric value now with
  | (engine, actions) => ({ w with engine := engine }, actions)

variable (w : Watch) (key : CheckKey)

/-- Whether a rule is in force on a check. -/
def inForce : Bool :=
  w.engine.watchesPort key.node key.ifindex key.metric.metric

/-- Whether a check has nothing left to recover. -/
def isQuiet : Bool :=
  w.engine.interfaceCheckIsQuiet key.node key.ifindex key.metric.metric

/-- Track the check. -/
def mark : Watch := { w with tracked := w.tracked.mark key }

/-- Stop tracking it. -/
def forget : Watch := { w with tracked := w.tracked.forget key }

/-- Feed a value of a port above the floor. The check is tracked once a rule is in force on it. -/
def feed (now : UnixMs) (w : Watch) (entry : CheckKey × F64) : Outcome :=
  match w.observe now entry.1 entry.2 with
  | (fed, actions) => (if w.inForce entry.1 then fed.mark entry.1 else fed, actions)

variable (w : Watch) (c : AlertConfig) (pair : DerivedPair)

/-- The values of one reading, by check. -/
def entriesOf (r : PortReading) : List (CheckKey × F64) :=
  (if (c.demand pair.pct).canFire then
      r.pct.toList.map fun pct => (⟨r.node, r.ifindex, pair.pct⟩, pct)
    else []) ++
  if (c.demand pair.bps).canFire then [(⟨r.node, r.ifindex, pair.bps⟩, r.bps)] else []

/-- Feed one reading, unless the node is not known to be up. -/
def feedReading (now : UnixMs) (w : Watch) (r : PortReading) : Outcome :=
  if mayObservePorts (w.engine.live r.node) then emitAll (feed now) w (entriesOf c pair r)
  else (w, [])

/-- The checks to look at again. A metric with a rule on the lower side has none. -/
def absentChecks (present : List (NodeId × IfIndex)) : List CheckKey :=
  [pair.pct, pair.bps].flatMap fun m =>
    if (c.demand m).canFire && !(c.demand m).hasBelow then
      (w.tracked.absent m present).filter fun k => mayObservePorts (w.engine.live k.node)
    else []

/-- Look at one check again. It is forgotten once it has nothing left to recover, or once no rule
is in force on it. -/
def recover (reading : NodeId → IfIndex → Option PortReading) (now : UnixMs) (w : Watch)
    (key : CheckKey) : Outcome :=
  match recoveryFor key.metric pair (reading key.node key.ifindex) with
  | .observe value =>
    match w.observe now key value with
    | (fed, actions) =>
      (if !w.inForce key || fed.isQuiet key then fed.forget key else fed, actions)
  | .hold => (if w.isQuiet key then w.forget key else w, [])

/-- Look again at the checks whose port is not among those present. -/
def recoverAbsent (dimension : InterfaceTopMetric) (reads : Reads) (now : UnixMs) (w : Watch)
    (present : List (NodeId × IfIndex)) : Outcome :=
  let absent := w.absentChecks c pair present
  emitAll (recover pair (evidence reads pair dimension absent) now) w absent

/-- One direction of a tick. Without readings nothing is fed and nothing is looked at again. -/
def pass (reads : TickReads) (now : UnixMs) (w : Watch)
    (direction : DerivedPair × InterfaceTopMetric) : Outcome :=
  let (pair, dimension) := direction
  let c := w.engine.config
  match candidateReadings c pair dimension (reads dimension).candidates with
  | none => (w, [])
  | some readings =>
    match emitAll (feedReading c pair now) w readings with
    | (fed, actions) =>
      match fed.recoverAbsent c pair dimension (reads dimension).absent now
          (readings.map fun r => (r.node, r.ifindex)) with
      | (recovered, actions') => (recovered, actions ++ actions')

/-- The check a closed alert was tracked as. -/
def closedKey : NotifyAction → Option CheckKey
  | .resolve a =>
    match a.node, a.ifindex, PortMetric.ofName a.metric with
    | some node, some ifindex, some metric => some ⟨node, ifindex, metric⟩
    | _, _, _ => none
  | _ => none

/-- Close the alerts no rule covers any more, and stop tracking their checks. -/
def sweepOrphans (order : List CheckId) : Outcome :=
  match w.engine.resolveOrphanedInterfaceAlerts order with
  | (engine, actions) =>
    ((actions.filterMap closedKey).foldl forget { w with engine := engine }, actions)

/-- One tick. -/
def tick (reads : TickReads) (order : List CheckId) (now : UnixMs) : Outcome :=
  match w.sweepOrphans order with
  | (swept, closed) =>
    match emitAll (pass reads now) swept interfaceDimensions with
    | (ticked, actions) => (ticked, closed ++ actions)

/-- The watch of a new process that has restored the stored alerts. -/
def start (rows : List AlertHistoryRow) : Watch :=
  ⟨AlertManager.fresh.restore (rows.map alertFromRow), ∅⟩

end Watch

/-! ### Runs -/

/-- What happens to the engine and the watch: an operation of another part of the program, a tick,
or a restart. -/
inductive WatchOp where
  | engine (op : Op)
  | tick (reads : TickReads) (order : List CheckId) (now : UnixMs)
  | restart (rows : List AlertHistoryRow)

/-- The operation is a tick of the watch. -/
def WatchOp.isTick : WatchOp → Bool
  | .tick .. => true
  | _ => false

/-- One operation. -/
def Watch.step (w : Watch) : WatchOp → Watch.Outcome
  | .engine op =>
    match w.engine.step op with
    | (engine, actions) => ({ w with engine := engine }, actions)
  | .tick reads order now => w.tick reads order now
  | .restart rows => (.start rows, [])

/-! ### A store and an inventory that answer -/

/-- The rates and the speeds at a moment. The query collapses the series of a port, so a port has
one row. -/
structure World where
  series : InterfaceTopMetric → List RateRow
  onePerPort : ∀ m, ((series m).map fun row => (row.1, row.2.1)).Nodup
  /-- The rows of the inventory, by node and port index, with the speed if there is one. -/
  interfaces : List ((Uuid × Int) × Option Int)
  /-- Whether a list of nodes is short enough to be named in a query. -/
  nameable : List Uuid → Bool

namespace World

/-- The saturated 32-bit gauge, which is not a speed. -/
def saturatedSpeed : Int := 4294967295

variable (world : World)

/-- The usable speeds of the ports of the nodes; of the whole fleet when none is named. -/
def usableSpeeds (nodes : List Uuid) : List Int :=
  ((world.interfaces.filter fun row => nodes.isEmpty || decide (row.1.1 ∈ nodes)).filterMap
    Prod.snd).filter fun speed => decide (0 < speed) && decide (speed ≠ saturatedSpeed)

/-- The rows of the nodes in scope. A list of nodes too long to be named asks the fleet. -/
def rowsIn (m : InterfaceTopMetric) : Option (List Uuid) → List RateRow
  | none => world.series m
  | some [] => []
  | some (n :: ns) =>
    if world.nameable (n :: ns) then (world.series m).filter fun row => decide (row.1 ∈ n :: ns)
    else world.series m

/-- Its answers. -/
def reads : Reads where
  slowestInterfaceSpeedBps := fun nodes => some (world.usableSpeeds nodes).min?
  interfaceCandidates := fun m floor scope =>
    some ((world.rowsIn m scope).filter fun row => F64.le floor row.2.2)
  interfaceIdentsFor := fun nodes =>
    some fun port => if port.1 ∈ nodes then world.interfaces.lookup port else none

/-- The rate of a port, if it has one. -/
def rate (m : InterfaceTopMetric) (node : NodeId) (ifindex : IfIndex) : Option F64 :=
  ((world.series m).find? fun row =>
    decide (row.1 = node) && decide (row.2.1 = (ifindex : Int))).map
    fun row => row.2.2

/-- The value of a check, if its port has a rate and, for a percentage, a usable speed. -/
def reading (pair : DerivedPair) (m : InterfaceTopMetric) (key : CheckKey) : Option F64 :=
  ((world.rate m key.node key.ifindex).filter fun bps => F64.le (.finite 0) bps).bind fun bps =>
    if key.metric = pair.pct then
      utilisationPct bps (world.interfaces.lookup (key.node, (key.ifindex : Int))).join
    else some bps

end World

end Yagra
