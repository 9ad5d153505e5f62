import Yagra.Alert.System
import Yagra.Fleet.Coordinator

/-!
# `Yagra.Fleet.PoolCoverage`: does every pool with nodes have a poller?

When a pool loses its last live poller, nothing is polled and no result arrives, so the alert
engine sees nothing. The coverage watch looks at the pools themselves: it counts the nodes of each
pool, and reports a pool that has nodes and no live poller.

A tick of the watch takes a sample and feeds it to `CoverageWatch.observe`, which raises an alert
for a pool that stays uncovered for a while, and clears it when the pool is covered again or gone.
What the watch remembers lives as long as the process. The alerts are durable, so a new process
starts from those that are open (`CoverageWatch.seed`).

A read that failed is `none`. What a tick says is its output: the sample, which it publishes as
gauges, and the events. The counters and the log lines are left out.
-/

set_option autoImplicit false

namespace Yagra.Fleet

open Std (ExtTreeMap)
open Yagra.Lib

/-! ### Counting nodes and pollers -/

/-- What the coverage reads of a poller. -/
structure PollerView where
  pool : PoolName
  online : Bool
deriving DecidableEq

/-- The pollers core has heard from. -/
def Coordinator.pollerViews (c : Coordinator) (now : Instant) : List PollerView :=
  c.pollers.toList.map fun (_, e) => ⟨e.pool, isOnline now e⟩

/-- How many nodes depend on a pool, and how many live pollers serve it. -/
structure PoolCoverage where
  pool : PoolName
  nodes : Nat
  livePollers : Nat
deriving DecidableEq, Repr

/-- The pool has nodes and no live poller. -/
def PoolCoverage.isUncovered (c : PoolCoverage) : Bool :=
  decide (0 < c.nodes) && decide (c.livePollers = 0)

/-- The coverage of every pool that has a node or a live poller, or that is described. -/
def coverage (live : List PollerView) (nodePools : ExtTreeMap PoolName Nat)
    (described : List PoolName) : List PoolCoverage :=
  let livePerPool := tally PollerView.pool (live.filter (·.online))
  let names := ((nodePools.keys ++ livePerPool.keys ++ described).insertionSort (· ≤ ·)).dedup
  names.map fun name =>
    { pool := name, nodes := (nodePools[name]?).getD 0
      livePollers := (livePerPool[name]?).getD 0 }

/-- Whether a node is polled by a pool's poller: every node but those of Meraki. -/
def isPoolPolled (node : Node) (merakiIds : List NodeId) : Bool := decide (node.id ∉ merakiIds)

/-- How many of the nodes resolve to each pool. -/
def countByPool (nodes : List Node) (resolver : PoolResolver) : ExtTreeMap PoolName Nat :=
  tally resolver.resolvePool nodes

/-- The nodes that depend on a pool having a live poller. -/
def poolDependentNodes (merakiIds : Option (List NodeId)) (nodes : Option (List Node)) :
    Option (List Node) := do
  let merakiIds ← merakiIds
  let nodes ← nodes
  return nodes.filter fun node => isPoolPolled node merakiIds

/-- The nodes of each pool, unless a read fails. -/
def nodeCountsByPool (poolRows : Option (List (GroupId × Option GroupId × Option String)))
    (merakiIds : Option (List NodeId)) (nodes : Option (List Node)) :
    Option (ExtTreeMap PoolName Nat) := do
  let resolver := PoolResolver.build (← poolRows)
  return countByPool (← poolDependentNodes merakiIds nodes) resolver

/-- The last successful count, with the configuration generation it was read at. -/
abbrev CountsCache := Option (Nat × ExtTreeMap PoolName Nat)

/-- Keep a count that was read. A failed read changes nothing. -/
def remember (cached : CountsCache) (generation : Nat) (read : Option (ExtTreeMap PoolName Nat)) :
    CountsCache :=
  match read with
  | some counts => some (generation, counts)
  | none => cached

/-! ### The watch -/

/-- A change of a pool that somebody is told about. -/
inductive CoverageEvent where
  | raise (pool : PoolName) (nodes : Nat)
  | clear (pool : PoolName)
deriving DecidableEq, Repr

/-- The pool an event is about. -/
def CoverageEvent.pool : CoverageEvent → PoolName
  | .raise pool _ | .clear pool => pool

/-- Since when a pool is uncovered, and whether it was raised. -/
structure PoolWatch where
  since : Instant
  raised : Bool
deriving DecidableEq

/-- The pools that nobody covers. -/
structure CoverageWatch where
  /-- How long a pool has to be uncovered before it is raised. Zero turns the watch off. -/
  raiseAfter : Nat
  watching : ExtTreeMap PoolName PoolWatch

namespace CoverageWatch

variable (w : CoverageWatch) (raiseAfter : Nat)

/-- No pool is watched. -/
def new : CoverageWatch := ⟨raiseAfter, ∅⟩

/-- Whether the watch is turned off. -/
def disabled : Bool := decide (w.raiseAfter = 0)

/-- Start from the pools whose alert is already open. -/
def seed (raised : List PoolName) (now : Instant) : CoverageWatch :=
  if w.disabled then w
  else { w with watching :=
    raised.foldl (fun watching pool => watching.insert pool ⟨now, true⟩) w.watching }

/-- The uncovered pools of a sample, with their nodes. -/
def uncoveredOf (sample : List PoolCoverage) : ExtTreeMap PoolName Nat :=
  ExtTreeMap.ofList ((sample.filter (·.isUncovered)).map fun c => (c.pool, c.nodes))

/-- Whether a pool that is not raised yet has been uncovered for long enough. -/
def isOverdue (now : Instant) (watch : PoolWatch) : Bool :=
  !watch.raised && decide (raiseAfter ≤ now - watch.since)

/-- Watch one uncovered pool. -/
def watchPool (now : Instant) (watching : ExtTreeMap PoolName PoolWatch) (entry : PoolName × Nat) :
    ExtTreeMap PoolName PoolWatch × List CoverageEvent :=
  let watch := (watching[entry.1]?).getD ⟨now, false⟩
  if isOverdue raiseAfter now watch then
    (watching.insert entry.1 { watch with raised := true }, [.raise entry.1 entry.2])
  else (watching.insert entry.1 watch, [])

/-- Feed a sample. The pools that are no longer uncovered are forgotten, and cleared if they were
raised. -/
def observe (sample : List PoolCoverage) (now : Instant) : CoverageWatch × List CoverageEvent :=
  if w.disabled then ({ w with watching := ∅ }, [])
  else
    let uncovered := uncoveredOf sample
    let cleared := w.watching.toList.filter fun (pool, watch) =>
      decide (pool ∉ uncovered) && watch.raised
    let kept := w.watching.filter fun pool _ => decide (pool ∈ uncovered)
    match emitAll (watchPool w.raiseAfter now) kept uncovered.toList with
    | (watching, raised) =>
      let events := cleared.map (fun p => CoverageEvent.clear p.1) ++ raised
      ({ w with watching := watching }, events.insertionSort fun a b => a.pool ≤ b.pool)

end CoverageWatch

/-! ### The loop -/

/-- The pools with an open coverage alert. -/
def raisedPools (active : List Alert) : List PoolName :=
  ((active.filterMap fun a =>
    match a.metric, a.subject with
    | .metric .poolCoverage, .pool pool => some pool
    | _, _ => none).insertionSort (· ≤ ·)).dedup

/-- The check of a pool's coverage alert. -/
def coverageCheck (pool : PoolName) : CheckId := (RaisedCheck.poolCoverage pool).check

/-- The engine and the coverage watch of a core process. -/
structure CoverageLoop where
  manager : AlertManager
  watch : CoverageWatch
  cached : CountsCache

/-- What the loop says. -/
inductive CoverageOutput where
  /-- A process started with this debounce. -/
  | started (raiseAfter : Nat)
  /-- The sample of a tick. -/
  | sampled (now : Instant) (sample : List PoolCoverage)
  | event (e : CoverageEvent)
deriving DecidableEq

/-- What a tick reads. -/
structure CoverageReads where
  generation : Nat
  /-- The node counts, looked at only when the generation changed. -/
  counts : Option (ExtTreeMap PoolName Nat)
  views : List PollerView
  now : Instant
  wall : UnixMs

/-- What happens to the engine and the watch: an operation of another part of the program, a tick,
or a restart. -/
inductive CoverageOp where
  | engine (op : Op)
  | tick (reads : CoverageReads)
  | restart (rows : List AlertHistoryRow) (order : List CheckId) (raiseAfter : Nat) (now : Instant)

namespace CoverageLoop

/-- Raise or resolve the alert of an event. -/
def apply (wall : UnixMs) (manager : AlertManager) : CoverageEvent → AlertManager
  | .raise pool _ => (manager.raiseEventAlert (Raised.poolCoverage pool wall).alert).1
  | .clear pool => (manager.resolveEventAlert (coverageCheck pool)).1

/-- The node counts after a tick looked at them. -/
def refresh (cached : CountsCache) (reads : CoverageReads) : CountsCache :=
  if cached.any fun c => decide (c.1 = reads.generation) then cached
  else remember cached reads.generation reads.counts

/-- The sample of a tick. There is none before the first successful count. -/
def sample (cached : CountsCache) (reads : CoverageReads) : Option (List PoolCoverage) :=
  (refresh cached reads).map fun c => coverage reads.views c.2 []

/-- One tick. -/
def tick (s : CoverageLoop) (reads : CoverageReads) : CoverageLoop × List CoverageOutput :=
  let cached := refresh s.cached reads
  match sample s.cached reads with
  | none => ({ s with cached := cached }, [])
  | some sample =>
    match s.watch.observe sample reads.now with
    | (watch, events) =>
      ({ manager := events.foldl (apply reads.wall) s.manager, watch := watch
         cached := cached },
        .sampled reads.now sample :: events.map .event)

/-- A process that has restored the stored alerts. -/
def start (rows : List AlertHistoryRow) (order : List CheckId) (raiseAfter : Nat) (now : Instant) :
    CoverageLoop :=
  let manager := AlertManager.fresh.restore (rows.map alertFromRow)
  { manager := manager
    watch := (CoverageWatch.new raiseAfter).seed (raisedPools (manager.activeAlerts order)) now
    cached := none }

/-- One operation. -/
def step (s : CoverageLoop) : CoverageOp → CoverageLoop × List CoverageOutput
  | .engine op => ({ s with manager := (s.manager.step op).1 }, [])
  | .tick reads => s.tick reads
  | .restart rows order raiseAfter now =>
    (start rows order raiseAfter now, [.started raiseAfter])

end CoverageLoop

end Yagra.Fleet
