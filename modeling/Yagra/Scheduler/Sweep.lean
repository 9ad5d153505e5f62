import Yagra.Fleet.Coordinator

/-!
# `Yagra.Scheduler.Sweep`: how core turns the inventory into polling work

The scheduler works in rounds. A round serves a pool in one of two ways. For a pool with a live
poller it hands the coordinator the checks of all the pool's nodes (`reconcilePool`). For a pool
without one it publishes the jobs that are due, one by one. A pool that has no live poller but
may soon have one is not served for a short while.

A round that served every pool the first way keeps what it built. The next rounds use it again
while the configuration is the same and all those pools have a live poller (`SweepCache`).

What a round reads from the stores is an input, with `none` for a read that failed. Also an
input is which jobs a node has under an interval, as the dispatcher builds them. A round decides
everything from what it read of the coordinator at its beginning, so `round` gives the calls of
`reconcilePool` as a list, and `Rounds.step` makes them. The delay before each published job,
the counters and the publication of the intervals are left out.
-/

set_option autoImplicit false

namespace Yagra.Scheduler

open Std (ExtTreeMap)
open Yagra.Fleet
open Yagra.Lib

/-- The kind of a job, such as `icmp`. -/
abbrev JobKind := String

/-- The interval of a node: that of its profile, else the default. -/
def resolveInterval (profile : Option ProfileId) (overrides : ProfileId → Option Nat)
    (defaultSecs : Nat) : Nat :=
  (profile.bind overrides).getD defaultSecs

/-- Whether something is due that was last done `elapsed` ago. -/
def due (elapsed : Option Nat) (interval : Nat) : Bool :=
  match elapsed with
  | some elapsed => decide (interval ≤ elapsed)
  | none => true

/-- Whether a pool has a live poller. -/
def poolUsesWorkingSet (pool : PoolName) (live : List PoolName) : Bool := decide (pool ∈ live)

/-- How long a pool without a live poller is waited for. -/
def poolGrace : Nat := offlineAfter

/-- How a pool is served in one round. -/
inductive PoolMode where
  | workingSet | legacy | wait
deriving DecidableEq, Repr

/-- How a pool is served. -/
def poolMode (pool : PoolName) (live : List PoolName) (sinceLastLive : Option Nat)
    (sinceStart : Nat) (registered : List PoolName) : PoolMode :=
  if pool ∈ live then .workingSet
  -- Heard from a moment ago: a poller that restarts.
  else if sinceLastLive.any fun d => decide (d < poolGrace) then .wait
  -- Too early to tell whether a registered poller is gone.
  else if sinceStart < poolGrace ∧ pool ∈ registered then .wait
  else .legacy

/-! ### The cache of the fast path -/

/-- What a round built, to be used again. -/
structure SweepCache (Spec : Type) where
  generation : Nat
  minInterval : Nat
  desiredByPool : ExtTreeMap PoolName (ExtTreeMap NodeId (List Spec))

/-- Whether the cache can serve a round. -/
def SweepCache.reusable {Spec : Type} (c : SweepCache Spec) (generation : Nat)
    (live : List PoolName) : Bool :=
  decide (c.generation = generation) &&
    c.desiredByPool.keys.all fun pool => poolUsesWorkingSet pool live

/-- Whether a round may fill the cache. -/
def cacheSeedable (legacyPools waitingPools : Nat) : Bool :=
  decide (legacyPools = 0) && decide (waitingPools = 0)

/-! ### One round -/

/-- Put a node under its pool, unless something else collects it. -/
def addToPool (collectedElsewhere : List NodeId) (resolver : PoolResolver)
    (groups : ExtTreeMap PoolName (List (Node × Nat))) (member : Node × Nat) :
    ExtTreeMap PoolName (List (Node × Nat)) :=
  if member.1.id ∈ collectedElsewhere then groups
  else
    let pool := resolver.resolvePool member.1
    groups.insert pool ((groups[pool]?).getD [] ++ [member])

/-- The nodes of a round by pool. Every live pool is in the result, also one without a node. -/
def groupByPool (resolved : List (Node × Nat)) (collectedElsewhere : List NodeId)
    (live : List PoolName) (resolver : PoolResolver) :
    ExtTreeMap PoolName (List (Node × Nat)) :=
  let seeded := live.foldl (fun groups pool => groups.insert pool ((groups[pool]?).getD [])) ∅
  resolved.foldl (addToPool collectedElsewhere resolver) seeded

/-- What a round reads from the stores, and which jobs a node has under an interval. -/
structure Reads (Spec : Type) where
  /-- The configuration generation, read before anything else. -/
  generation : Nat
  defaultInterval : Option Nat
  overrides : Option (ProfileId → Option Nat)
  poolRows : Option (List (GroupId × Option GroupId × Option String))
  nodes : Option (List Node)
  apNodeIds : Option (List NodeId)
  merakiNodeIds : Option (List NodeId)
  jobs : Node → Nat → List (Spec × JobKind)

/-- Every read succeeded. -/
def Reads.complete {Spec : Type} (reads : Reads Spec) : Bool :=
  reads.defaultInterval.isSome && reads.overrides.isSome && reads.poolRows.isSome &&
    reads.nodes.isSome && reads.apNodeIds.isSome && reads.merakiNodeIds.isSome

/-- The interval used when the default cannot be read. -/
def defaultPollIntervalSecs : Nat := 300

/-- A job published to a pool. -/
structure PublishedJob (Spec : Type) where
  pool : PoolName
  nodeId : NodeId
  job : Spec
  kind : JobKind

/-- What the scheduler keeps between rounds. -/
structure Sweep (Spec : Type) where
  started : Instant
  /-- The pools of the poller inventory when the scheduler started. -/
  registered : List PoolName
  lastDispatched : NodeId → Option Instant
  /-- The same for jobs that run less often than their node. -/
  lastSlow : NodeId → JobKind → Option Instant
  cache : Option (SweepCache Spec)
  resolver : Option PoolResolver
  apNodeIds : List NodeId
  merakiNodeIds : List NodeId

/-- What a round does. -/
structure Outcome (Spec : Type) where
  sweep : Sweep Spec
  /-- The calls of `reconcilePool`. -/
  reconciled : List (PoolName × ExtTreeMap NodeId (List Spec))
  published : List (PublishedJob Spec)
  sleepSecs : Nat

/-- What a rebuilding round gathers from its pools. -/
structure Gathered (Spec : Type) where
  lastDispatched : NodeId → Option Instant
  lastSlow : NodeId → JobKind → Option Instant
  present : List NodeId
  reconciled : List (PoolName × ExtTreeMap NodeId (List Spec))
  published : List (PublishedJob Spec)
  desiredByPool : ExtTreeMap PoolName (ExtTreeMap NodeId (List Spec))
  legacyPools : Nat
  waitingPools : Nat
  waitRecheck : Option Nat

namespace Sweep

section
variable {Spec : Type}

/-- A scheduler before its first round. -/
def new (started : Instant) (registered : List PoolName) : Sweep Spec :=
  { started := started, registered := registered, lastDispatched := fun _ => none
    lastSlow := fun _ _ => none, cache := none, resolver := none, apNodeIds := []
    merakiNodeIds := [] }

/-- The checks of a node. -/
def buildNodeSpecs (jobs : Node → Nat → List (Spec × JobKind)) (node : Node) (secs : Nat) :
    List Spec :=
  (jobs node secs).map (·.1)

/-- The working set of a pool: its nodes that have a check. -/
def desiredOf (jobs : Node → Nat → List (Spec × JobKind)) (members : List (Node × Nat)) :
    ExtTreeMap NodeId (List Spec) :=
  ExtTreeMap.ofList (members.filterMap fun (node, secs) =>
    let specs := buildNodeSpecs jobs node secs
    if specs.isEmpty then none else some (node.id, specs))

variable [JobSpec Spec]

variable (s : Sweep Spec) (jobs : Node → Nat → List (Spec × JobKind)) (now : Instant)

/-- Publish a job, unless it is one that runs less often than its node and is not due. -/
def dispatchJob (pool : PoolName) (node : Node) (secs : Nat) (g : Gathered Spec)
    (job : Spec × JobKind) : Gathered Spec :=
  let published := g.published ++ [⟨pool, node.id, job.1, job.2⟩]
  if secs < JobSpec.intervalSecs job.1 then
    let elapsed := (g.lastSlow node.id job.2).map (now - ·)
    if due elapsed (JobSpec.intervalSecs job.1 * 1000) then
      let slow := Function.update (g.lastSlow node.id) job.2 (some now)
      { g with published := published, lastSlow := Function.update g.lastSlow node.id slow }
    else g
  else { g with published := published }

/-- Publish the jobs of a node that is due. -/
def dispatchNode (pool : PoolName) (g : Gathered Spec) (member : Node × Nat) : Gathered Spec :=
  let node := member.1
  let secs := member.2
  let elapsed := (g.lastDispatched node.id).map (now - ·)
  let g := { g with present := node.id :: g.present }
  if due elapsed (secs * 1000) then
    let dispatched := Function.update g.lastDispatched node.id (some now)
    (jobs node secs).foldl (dispatchJob now pool node secs) { g with lastDispatched := dispatched }
  else g

/-- Serve one pool. -/
def servePool (mode : PoolName → PoolMode) (remaining : PoolName → Nat) (g : Gathered Spec)
    (group : PoolName × List (Node × Nat)) : Gathered Spec :=
  let pool := group.1
  let members := group.2
  match mode pool with
  | .workingSet =>
    let desired := desiredOf jobs members
    let ids := members.map (·.1.id)
    { g with
        lastDispatched := fun id => if id ∈ ids then none else g.lastDispatched id
        reconciled := g.reconciled ++ [(pool, desired)]
        desiredByPool := g.desiredByPool.insert pool desired }
  | .wait =>
    { g with
        waitRecheck := some ((g.waitRecheck.map (min · (remaining pool))).getD (remaining pool))
        waitingPools := g.waitingPools + 1 }
  | .legacy =>
    let g := members.foldl (dispatchNode jobs now pool) g
    { g with legacyPools := g.legacyPools + 1 }

/-- Serve every pool of a round. -/
def gather (live : List PoolName) (lastLive : PoolName → Option Nat) (now : Instant)
    (groups : ExtTreeMap PoolName (List (Node × Nat))) : Gathered Spec :=
  let sinceStart := now - s.started
  let mode := fun pool => poolMode pool live (lastLive pool) sinceStart s.registered
  let remaining := fun pool => poolGrace - (lastLive pool).getD sinceStart
  groups.toList.foldl (servePool jobs now mode remaining)
    { lastDispatched := s.lastDispatched, lastSlow := s.lastSlow, present := []
      reconciled := [], published := [], desiredByPool := ∅, legacyPools := 0
      waitingPools := 0, waitRecheck := none }

/-- A round that reads the inventory. -/
def rebuild (reads : Reads Spec) (live : List PoolName) (lastLive : PoolName → Option Nat)
    (now : Instant) : Outcome Spec :=
  let defaultSecs := reads.defaultInterval.getD defaultPollIntervalSecs
  let overrides := reads.overrides.getD fun _ => none
  match (reads.poolRows.map PoolResolver.build).or s.resolver with
  -- No folder map was ever read: the nodes would go to the wrong pools.
  | none => { sweep := s, reconciled := [], published := [], sleepSecs := defaultSecs }
  | some resolver =>
    let s := { s with resolver := some resolver }
    match reads.nodes with
    | none => { sweep := s, reconciled := [], published := [], sleepSecs := defaultSecs }
    | some nodes =>
      -- A failed read keeps the last set.
      let apNodeIds := reads.apNodeIds.getD s.apNodeIds
      let merakiNodeIds := reads.merakiNodeIds.getD s.merakiNodeIds
      let resolved := nodes.map fun node =>
        (node, resolveInterval node.profile overrides defaultSecs)
      let minInterval := resolved.foldl (fun m member => min m member.2) defaultSecs
      let groups := groupByPool resolved (merakiNodeIds ++ apNodeIds) live resolver
      let g := s.gather reads.jobs live lastLive now groups
      let cache : SweepCache Spec := ⟨reads.generation, minInterval, g.desiredByPool⟩
      { sweep := { s with
          lastDispatched := fun id => if id ∈ g.present then g.lastDispatched id else none
          lastSlow := fun id kind => if id ∈ g.present then g.lastSlow id kind else none
          cache := if cacheSeedable g.legacyPools g.waitingPools then some cache else none
          apNodeIds := apNodeIds
          merakiNodeIds := merakiNodeIds }
        reconciled := g.reconciled
        published := g.published
        sleepSecs := match g.waitRecheck with
          | some remaining => min minInterval (remaining / 1000 + 1)
          | none => minInterval }

/-- The cache, when it can serve the round. -/
def servingCache (generation : Nat) (live : List PoolName) : Option (SweepCache Spec) :=
  s.cache.filter fun c => c.reusable generation live

/-- One round. -/
def round (reads : Reads Spec) (live : List PoolName) (lastLive : PoolName → Option Nat)
    (now : Instant) : Outcome Spec :=
  match s.servingCache reads.generation live with
  | some c =>
    { sweep := s, reconciled := c.desiredByPool.toList, published := []
      sleepSecs := c.minInterval }
  | none => s.rebuild reads live lastLive now

end

end Sweep

/-! ### The scheduler beside the coordinator -/

/-- The coordinator and the scheduler of a core process. `builtLive` only records which pools
were live in the last round that did not use the cache. -/
structure Rounds (Spec : Type) where
  core : Coordinator
  sweep : Sweep Spec
  builtLive : List PoolName

namespace Rounds

/-- A step of core. -/
inductive Op (Spec : Type) where
  | heartbeat (hb : HeartbeatMsg) (now : Instant)
  | syncRequest (req : SyncRequest) (now : Instant)
  | setPool (pollerId : PollerId) (pool : PoolName)
  | adoptPool (pollerId : PollerId) (pool : PoolName)
  | round (reads : Reads Spec) (now : Instant)

variable {Spec : Type}

/-- A core that has just started. -/
def start (epoch : Uuid) (started : Instant) (registered : List PoolName) : Rounds Spec :=
  { core := Coordinator.new epoch, sweep := Sweep.new started registered, builtLive := [] }

variable [JobSpec Spec]

/-- What the scheduler does in a round. -/
def outcome (s : Rounds Spec) (reads : Reads Spec) (now : Instant) : Outcome Spec :=
  s.sweep.round reads (s.core.livePools now) (s.core.poolsLastLive now) now

/-- The calls of `reconcilePool` of a round, and the messages they send. -/
def reconcileAll (ring : Ring) (s : Rounds Spec) (reads : Reads Spec) (now : Instant) :
    Coordinator × List (SyncMsg Spec) :=
  emitAll (fun (c : Coordinator) (call : PoolName × ExtTreeMap NodeId (List Spec)) =>
    c.reconcilePool ring call.1 call.2 now) s.core (s.outcome reads now).reconciled

/-- One step. -/
def step (ring : Ring) (s : Rounds Spec) : Op Spec → Rounds Spec
  | .heartbeat hb now => { s with core := (s.core.observeHeartbeat hb now).1 }
  | .syncRequest req now => { s with core := s.core.observeSyncRequest req now }
  | .setPool pollerId pool => { s with core := s.core.setPool pollerId pool }
  | .adoptPool pollerId pool => { s with core := s.core.adoptPool pollerId pool }
  | .round reads now =>
    let live := s.core.livePools now
    { core := (s.reconcileAll ring reads now).1
      sweep := (s.outcome reads now).sweep
      builtLive :=
        if (s.sweep.servingCache reads.generation live).isSome then s.builtLive else live }

end Rounds

end Yagra.Scheduler
