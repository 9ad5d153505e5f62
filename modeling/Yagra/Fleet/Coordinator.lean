import Yagra.Base.Groups
import Yagra.Bus.Messages
import Yagra.Lib.Emit

/-!
# `Yagra.Fleet.Coordinator`: core's register of pollers and what it sent them

The coordinator keeps an entry for each poller it has heard from, and for each poller the
fingerprints of the working set it sent last (`published`). `reconcilePool` brings the live
pollers of a pool to a desired set: it assigns each node to one of them, and sends each what
changed.

It takes the lock twice. `planPool` is the first locked section, with the assignment that
follows it. `commitPlan` is the second: it compares each member's target with what was
published and builds the messages. Other operations can come between the two.

The consistent-hash ring is a parameter: a function from the members of the pool and a node to
the member that owns the node. The mirrors of the register in other stores, the log lines and
the wake-ups of the sweep are left out. `adoptPool` is what a heartbeat does when the durable
inventory names another pool for the poller.
-/

set_option autoImplicit false

namespace Yagra.Fleet

open Std (ExtTreeMap)
open Yagra.Lib

/-- What core knows about a poller. -/
structure PollerEntry where
  pool : PoolName
  incarnation : Uuid
  lastSeen : Instant
  /-- The highest sequence number core has sent it. -/
  seq : Nat
  /-- The next message has to be a full snapshot. -/
  needsSnapshot : Bool
  caps : List Cap
deriving DecidableEq

/-- Which member of a pool owns a node. -/
abbrev Ring := List PollerId → NodeId → Option PollerId

/-- What core knows of the pollers. -/
structure Coordinator where
  /-- The id of this core process. -/
  epoch : Uuid
  pollers : ExtTreeMap PollerId PollerEntry
  /-- Per poller, the fingerprints of the working set it was sent last. -/
  published : ExtTreeMap PollerId (ExtTreeMap NodeId Nat)
  /-- When a poller of a pool was last heard from. -/
  poolLastLive : PoolName → Option Instant

namespace Coordinator

/-- A core process that has heard from nobody. -/
def new (epoch : Uuid) : Coordinator := ⟨epoch, ∅, ∅, fun _ => none⟩

variable (c : Coordinator) (now : Instant) (pollerId : PollerId)

/-- Whether a poller was heard from within the offline window. -/
def isOnline (e : PollerEntry) : Bool := decide (now - e.lastSeen < offlineAfter)

/-! ### What pollers say -/

/-- An entry for a poller that core hears from for the first time. -/
def firstContact (pool : PoolName) (incarnation : Uuid) (now : Instant) : PollerEntry :=
  { pool := pool, incarnation := incarnation, lastSeen := now, seq := 0, needsSnapshot := true
    caps := [] }

/-- A heartbeat. The result also says whether it ends a time in which the poller was offline. -/
def observeHeartbeat (hb : HeartbeatMsg) (now : Instant) : Coordinator × Bool :=
  let known := c.pollers[hb.pollerId]?
  if hb.leaving then
    -- The pool core believes in, and the one of the beat only for an unknown poller.
    let pool := (known.map (·.pool)).getD hb.pool
    ({ c with
        pollers := c.pollers.erase hb.pollerId
        published := c.published.erase hb.pollerId
        poolLastLive := Function.update c.poolLastLive pool (some now) }, false)
  else
    let entry := match known with
      | none => firstContact hb.pool hb.incarnation now
      | some e =>
        { e with
            needsSnapshot := e.needsSnapshot || decide (e.incarnation ≠ hb.incarnation)
              || decide (hb.epoch ≠ some c.epoch) || decide (hb.lastSeq ≠ e.seq)
            incarnation := hb.incarnation }
    let gap := known.any fun e => decide (offlineAfter ≤ now - e.lastSeen)
    let entry := { entry with lastSeen := now, caps := hb.caps }
    let lastLive := Function.update c.poolLastLive entry.pool (some now)
    ({ c with
        pollers := c.pollers.insert hb.pollerId entry
        poolLastLive := fun pool => (lastLive pool).filter fun t => now - t < offlineAfter }, gap)

/-- A request for a snapshot. -/
def observeSyncRequest (req : SyncRequest) (now : Instant) : Coordinator :=
  let entry := (c.pollers[req.pollerId]?).getD (firstContact req.pool req.incarnation now)
  let entry := { entry with
    needsSnapshot := true, lastSeen := now, incarnation := req.incarnation }
  { c with pollers := c.pollers.insert req.pollerId entry }

/-! ### What operators decide -/

/-- Move a poller to a pool. -/
def setPool (pool : PoolName) : Coordinator :=
  match c.pollers[pollerId]? with
  | none => c
  | some e =>
    if e.pool ≠ pool then
      let moved := { e with pool := pool, needsSnapshot := true }
      { c with pollers := c.pollers.insert pollerId moved }
    else c

/-- Take the pool of a poller from the inventory. -/
def adoptPool (pool : PoolName) : Coordinator :=
  c.setPool pollerId pool

/-! ### Who is there -/

/-- The pools with a poller that is online. -/
def livePools : List PoolName :=
  (c.pollers.toList.filter fun p => isOnline now p.2).map (·.2.pool)

/-- Per pool, how long ago a poller of it was last heard from. -/
def poolsLastLive (pool : PoolName) : Option Nat :=
  (c.poolLastLive pool).map (now - ·)

/-- The pollers of a pool that are online, in the order of their ids. -/
def liveMembers (pool : PoolName) (now : Instant) : List PollerId :=
  (c.pollers.toList.filter fun p => decide (p.2.pool = pool) && isOnline now p.2).map (·.1)

/-- Whether a poller is registered and online. -/
def isLive : Bool :=
  (c.pollers[pollerId]?).any (isOnline now)

/-- Whether a node is in the working set a poller was sent last. -/
def publishes (node : NodeId) : Bool :=
  (c.published[pollerId]?).any fun set => decide (node ∈ set)

/-- The live poller that has a node in its published set. `order` is the order in which the
published sets are looked through. -/
def ownerOf (order : List PollerId) (node : NodeId) (now : Instant) : Option PollerId :=
  order.find? fun pollerId => c.publishes pollerId node && c.isLive now pollerId

/-! ### Reconciling a pool -/

section
variable {Spec : Type} [JobSpec Spec]

/-- Whether a poller with these capabilities can run a check. -/
def canRun (caps : List Cap) (spec : Spec) : Bool :=
  (JobSpec.requiredCaps spec).all fun cap => caps.contains cap

/-- What the first part of `reconcilePool` leaves for the second: the members it saw, and the
working set it wants each to have. -/
structure Plan (Spec : Type) where
  pool : PoolName
  members : List PollerId
  targets : PollerId → ExtTreeMap NodeId (List Spec)

variable (ring : Ring) (c : Coordinator) (target : ExtTreeMap NodeId (List Spec))

/-- The nodes a member owns, with the checks it can run. -/
def targetOf (members : List PollerId) (caps : List Cap) (desired : ExtTreeMap NodeId (List Spec))
    (m : PollerId) : ExtTreeMap NodeId (List Spec) :=
  ExtTreeMap.ofList (desired.toList.filterMap fun (node, specs) =>
    if ring members node = some m then some (node, specs.filter (canRun caps)) else none)

/-- Who is live, and who gets which nodes. -/
def planPool (pool : PoolName) (desired : ExtTreeMap NodeId (List Spec)) (now : Instant) :
    Option (Plan Spec) :=
  let members := c.liveMembers pool now
  if members.isEmpty then none
  else some
    { pool := pool
      members := members
      targets := fun m =>
        targetOf ring members ((c.pollers[m]?).elim [] (·.caps)) desired m }

/-- The fingerprints of a working set. -/
def fingerprints : ExtTreeMap NodeId Nat :=
  target.map fun _ specs => JobSpec.fingerprint specs

/-- The nodes of a working set, in the order of their ids. -/
def jobsOf : List (NodeJobs Spec) :=
  target.toList.map fun (node, specs) => ⟨node, specs⟩

/-- The nodes of a working set cut into chunks. An empty set is one empty chunk. -/
def chunksOf : List (List (NodeJobs Spec)) :=
  if (jobsOf target).isEmpty then [[]] else (jobsOf target).toChunks snapshotChunkNodes

/-- The messages of a full snapshot. -/
def snapshotOf (epoch : Uuid) (pool : PoolName) (m : PollerId) (seq : Nat)
    (target : ExtTreeMap NodeId (List Spec)) : List (SyncMsg Spec) :=
  (chunksOf target).zipIdx.map fun (nodes, i) => .snapshotChunk
    { pollerId := m, epoch := epoch, seq := seq, chunkIndex := i
      chunkTotal := (chunksOf target).length, nodes := nodes
      totalNodes := (jobsOf target).length, pool := some pool }

/-- The nodes whose checks are new or changed. -/
def upserted (prev : Option (ExtTreeMap NodeId Nat)) (fps : ExtTreeMap NodeId Nat) : List NodeId :=
  (fps.toList.filter fun (node, fp) => decide (prev.bind (·[node]?) ≠ some fp)).map (·.1)

/-- The nodes that are no longer in the set. -/
def removed (prev : Option (ExtTreeMap NodeId Nat)) (fps : ExtTreeMap NodeId Nat) : List NodeId :=
  ((prev.map (·.keys)).getD []).filter fun node => decide (node ∉ fps)

/-- The message of an incremental change. -/
def deltaOf (epoch : Uuid) (m : PollerId) (seq : Nat) (target : ExtTreeMap NodeId (List Spec))
    (upserted removes : List NodeId) : SyncMsg Spec :=
  .delta
    { pollerId := m, epoch := epoch, seq := seq
      upserts := upserted.filterMap fun node => (target[node]?).map fun specs => ⟨node, specs⟩
      removes := removes }

/-- What a member is sent for a target: its new entry and the messages, or nothing when nothing
changed and no snapshot is due. -/
def syncMember (epoch : Uuid) (pool : PoolName) (m : PollerId)
    (target : ExtTreeMap NodeId (List Spec)) (entry : PollerEntry)
    (prev : Option (ExtTreeMap NodeId Nat)) : Option (PollerEntry × List (SyncMsg Spec)) :=
  let fps := fingerprints target
  let ups := upserted prev fps
  let removes := removed prev fps
  let changed := ups.length + removes.length
  if changed = 0 ∧ entry.needsSnapshot = false then none
  else
    let newSeq := entry.seq + 1
    let base := max fps.size ((prev.map (·.size)).getD 0)
    if entry.needsSnapshot = true ∨ base < changed * 2 then
      some ({ entry with seq := newSeq, needsSnapshot := false },
        snapshotOf epoch pool m newSeq target)
    else
      some ({ entry with seq := newSeq }, [deltaOf epoch m newSeq target ups removes])

/-- One member of the second locked section. -/
def commitMember (plan : Plan Spec) (c : Coordinator) (m : PollerId) :
    Coordinator × List (SyncMsg Spec) :=
  match c.pollers[m]? with
  -- The poller left between the two sections.
  | none => (c, [])
  | some entry =>
    match syncMember c.epoch plan.pool m (plan.targets m) entry c.published[m]? with
    | none => (c, [])
    | some (entry, msgs) =>
      ({ c with
          pollers := c.pollers.insert m entry
          published := c.published.insert m (fingerprints (plan.targets m)) }, msgs)

/-- The second locked section, and the messages to publish. -/
def commitPlan (plan : Plan Spec) : Coordinator × List (SyncMsg Spec) :=
  emitAll (commitMember plan) c plan.members

/-- Reconcile a pool with nothing in between. -/
def reconcilePool (pool : PoolName) (desired : ExtTreeMap NodeId (List Spec)) (now : Instant) :
    Coordinator × List (SyncMsg Spec) :=
  match planPool ring c pool desired now with
  | none => (c, [])
  | some plan => c.commitPlan plan

end

end Coordinator

/-!
## The consistent-hash ring of a pool

Every member of a pool has a fixed number of points on the ring. A node belongs to the member of the
first point at or after the hash of the node, and past the last point to the member of the first
one. The two hash functions, of a member's points and of a node, are parameters.
-/

/-- The hash functions of the ring. -/
structure RingHash where
  /-- The position of a member's `i`-th point. -/
  vnodePoint : PollerId → Nat → Nat
  nodeHash : NodeId → Nat

/-- How many points a member has. -/
def vnodesPerMember : Nat := 128

/-- The points of the ring, each with the index of its member. -/
structure HashRing where
  members : List PollerId
  points : List (Nat × Nat)

namespace HashRing

/-- The order of the points: by position, and by member where two share one. -/
def pointLe (a b : Nat × Nat) : Bool :=
  decide (a.1 < b.1) || (decide (a.1 = b.1) && decide (a.2 ≤ b.2))

/-- The points of the members, which are sorted and without duplicates. -/
def mintPoints (h : RingHash) (members : List PollerId) : List (Nat × Nat) :=
  members.zipIdx.flatMap fun member =>
    (List.range vnodesPerMember).map fun i => (h.vnodePoint member.1 i, member.2)

/-- The ring of these members. -/
def new (h : RingHash) (members : List PollerId) : HashRing :=
  let members := (OrdSet.ofList members).toList
  ⟨members, (mintPoints h members).mergeSort pointLe⟩

/-- The member that owns a node. -/
def assign (h : RingHash) (r : HashRing) (node : NodeId) : Option PollerId :=
  let first := r.points.findIdx fun p => !decide (p.1 < h.nodeHash node)
  -- Past the last point the ring starts again.
  let idx := if first = r.points.length then 0 else first
  (r.points[idx]?).bind fun p => r.members[p.2]?

/-- The ring as the coordinator uses it. -/
def ring (h : RingHash) : Ring := fun members node => (new h members).assign h node

end HashRing

/-!
## Reconciles that overlap

Any number of calls of `reconcile_pool` may be between their two locked sections at the same time,
and everything else the coordinator does can come in between. `pending` has the calls that made
their first section, each with the members that have been registered in its pool ever since.
`lastSnapshot` records which pool the last snapshot built for a poller names.
-/

/-- A call of `reconcile_pool` after its first locked section. -/
structure PendingReconcile (Spec : Type) where
  plan : Coordinator.Plan Spec
  /-- The members that have been registered in the pool of the call ever since. -/
  stayed : List PollerId

/-- A core with calls between their two sections. -/
structure Reconciles (Spec : Type) where
  core : Coordinator
  pending : List (PendingReconcile Spec)
  lastSnapshot : PollerId → Option PoolName

namespace Reconciles

/-- A step of core. -/
inductive Op (Spec : Type) where
  | heartbeat (hb : HeartbeatMsg) (now : Instant)
  | syncRequest (req : SyncRequest) (now : Instant)
  | setPool (pollerId : PollerId) (pool : PoolName)
  | adoptPool (pollerId : PollerId) (pool : PoolName)
  /-- The first locked section of a new call. -/
  | plan (pool : PoolName) (desired : ExtTreeMap NodeId (List Spec)) (now : Instant)
  /-- The second locked section of a pending call, which completes it. -/
  | commit (i : Nat)

variable {Spec : Type}

/-- A core that has just started. -/
def start (epoch : Uuid) : Reconciles Spec := ⟨Coordinator.new epoch, [], fun _ => none⟩

/-- Whether a poller is registered in a pool. -/
def registeredIn (core : Coordinator) (pool : PoolName) (m : PollerId) : Bool :=
  (core.pollers[m]?).any fun e => decide (e.pool = pool)

/-- The members of a pending call that are still registered in its pool. -/
def PendingReconcile.settle (core : Coordinator) (p : PendingReconcile Spec) :
    PendingReconcile Spec :=
  { p with stayed := p.stayed.filter (registeredIn core p.plan.pool) }

/-- The state after the coordinator has changed. -/
def withCore (s : Reconciles Spec) (core : Coordinator) : Reconciles Spec :=
  { s with core := core, pending := s.pending.map (PendingReconcile.settle core) }

/-- The pool the last snapshot for a poller names, after these messages were built. -/
def recordSnapshots (last : PollerId → Option PoolName) (msgs : List (SyncMsg Spec)) :
    PollerId → Option PoolName := fun m =>
  match (msgs.filter fun msg => decide (msg.pollerId = m)).getLast? with
  | some (.snapshotChunk snap) => snap.pool
  | _ => last m

variable [JobSpec Spec]

/-- One step. -/
def step (ring : Ring) (s : Reconciles Spec) : Op Spec → Reconciles Spec
  | .heartbeat hb now => s.withCore (s.core.observeHeartbeat hb now).1
  | .syncRequest req now => s.withCore (s.core.observeSyncRequest req now)
  | .setPool pollerId pool => s.withCore (s.core.setPool pollerId pool)
  | .adoptPool pollerId pool => s.withCore (s.core.adoptPool pollerId pool)
  | .plan pool desired now =>
    match Coordinator.planPool ring s.core pool desired now with
    -- No member is live: the call returns at once.
    | none => s
    | some plan => { s with pending := s.pending ++ [⟨plan, plan.members⟩] }
  | .commit i =>
    match s.pending[i]? with
    | none => s
    | some p =>
      match s.core.commitPlan p.plan with
      | (core, msgs) =>
        { { s with pending := s.pending.eraseIdx i }.withCore core with
          lastSnapshot := recordSnapshots s.lastSnapshot msgs }

end Reconciles

/-!
## Which pool polls a node

The effective pool of a node is its own pool, else that of the nearest folder above it that
names one, else the default pool. A blank name counts as no name.
-/

/-- The id of a device profile. -/
abbrev ProfileId := Uuid

/-- What is read here of a node of the inventory. -/
structure Node where
  id : NodeId
  profile : Option ProfileId
  pool : Option String
  group : Option GroupId
deriving DecidableEq

/-- The pool of a node for which nothing names one. -/
def defaultPool : PoolName := "default"

/-- A stored pool name, where a blank one is none. -/
def meaningful (pool : Option String) : Option PoolName :=
  (pool.map trim).filter fun p => !p.isEmpty

/-- Per folder, the pool that it or the nearest folder above it names, and which folder that
was. -/
structure PoolResolver where
  byGroup : ExtTreeMap GroupId (PoolName × GroupId)

namespace PoolResolver

/-- The resolver for the rows of the folder table: id, parent and pool. -/
def build (rows : List (GroupId × Option GroupId × Option String)) : PoolResolver :=
  ⟨Groups.resolveNearestAncestor (rows.map fun (id, parent, pool) =>
    (id, parent, meaningful pool))⟩

/-- The effective pool for the two columns it depends on. -/
def poolOf (r : PoolResolver) (own : Option String) (group : Option GroupId) : PoolName :=
  match meaningful own with
  | some own => own
  | none => ((group.bind (r.byGroup[·]?)).map (·.1)).getD defaultPool

/-- The effective pool of a node. -/
def resolvePool (r : PoolResolver) (node : Node) : PoolName := r.poolOf node.pool node.group

end PoolResolver

end Yagra.Fleet
