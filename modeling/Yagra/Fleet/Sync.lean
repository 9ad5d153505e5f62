import Yagra.Fleet.Coordinator
import Yagra.Poller.WorkingSet

/-!
# `Yagra.Fleet.Sync`: core and one poller, with the streams between them

The poller with the id `me` is one process after another. Its sync messages come in order, but
any of them can be lost. Its heartbeats and its sync requests are two streams that core consumes
independently of each other: each in order, any message lost, and as late as it may be. A process
that stops in good order says so in a last heartbeat. The next one starts with an empty working
set and a sync request.

Other pollers share the pools, and core can be restarted. An id that has to be new (the epoch of
a core process, the incarnation of a poller process) is the next number.

Three fields only record what happened: `assigned` is the working set that core assigned to the
poller with each sequence number since its entry was made, `newest` is the last of them that was
sent as a snapshot, and `received` is what reached the running process.
-/

set_option autoImplicit false

namespace Yagra.Fleet

open Std (ExtTreeMap)
open Yagra.Poller

/-- A running poller process. -/
structure Process (Spec : Type) where
  incarnation : Uuid
  pool : PoolName
  caps : List Cap
  ws : WorkingSet Spec

namespace Process

variable {Spec : Type}

/-- The heartbeat a process sends. -/
def heartbeat (p : Process Spec) (me : PollerId) (leaving : Bool) : HeartbeatMsg :=
  { pollerId := me, pool := p.pool, incarnation := p.incarnation, epoch := p.ws.epoch
    lastSeq := p.ws.lastSeq, caps := p.caps, leaving := leaving }

/-- The sync request a process sends. -/
def request (p : Process Spec) (me : PollerId) : SyncRequest :=
  { pollerId := me, pool := p.pool, incarnation := p.incarnation }

end Process

/-- A snapshot as core sent it. -/
structure SentSnapshot (Spec : Type) where
  pool : PoolName
  seq : Nat
  target : ExtTreeMap NodeId (List Spec)

/-- Core, one poller, and what is between them. -/
structure SyncSystem (Spec : Type) where
  core : Coordinator
  /-- A reconcile that is between its two locked sections. -/
  plan : Option (Coordinator.Plan Spec)
  process : Process Spec
  channel : List (SyncMsg Spec)
  beats : List HeartbeatMsg
  requests : List SyncRequest
  assigned : List (ExtTreeMap NodeId (List Spec))
  newest : Option (SentSnapshot Spec)
  received : List (SyncMsg Spec)

namespace SyncSystem

/-- A step of either side. -/
inductive Op (Spec : Type) where
  /-- The process sends a heartbeat. -/
  | beat
  /-- The process stops, with a last heartbeat or without one, and the next one starts. -/
  | restart (graceful : Bool) (pool : PoolName) (caps : List Cap) (adoptRatePerSec : Nat)
  /-- Core takes the next heartbeat, or one is lost. -/
  | hearBeat (now : Instant)
  | loseBeat (i : Nat)
  /-- Core takes the next sync request, or one is lost. -/
  | hearRequest (now : Instant)
  | loseRequest (i : Nat)
  /-- Core hears from another poller. -/
  | otherBeat (hb : HeartbeatMsg) (now : Instant)
  | otherRequest (req : SyncRequest) (now : Instant)
  /-- A poller is moved to a pool, by an operator or by the inventory. -/
  | setPool (pollerId : PollerId) (pool : PoolName)
  | adoptPool (pollerId : PollerId) (pool : PoolName)
  /-- The two parts of a reconcile. -/
  | plan (pool : PoolName) (desired : ExtTreeMap NodeId (List Spec)) (now : Instant)
  | commit
  /-- The next sync message reaches the process, or one is lost. -/
  | deliver (now : Instant) (jitter : NodeId → Nat → Nat)
  | lose (i : Nat)
  | coreRestart

section
variable {Spec : Type}

/-- A core process that has heard from nobody, and the first process of the poller. -/
def start (me : PollerId) (pool : PoolName) (caps : List Cap) (adoptRatePerSec : Nat) :
    SyncSystem Spec :=
  let process : Process Spec := ⟨0, pool, caps, WorkingSet.new adoptRatePerSec⟩
  { core := Coordinator.new 0, plan := none, process := process, channel := [], beats := []
    requests := [process.request me], assigned := [], newest := none, received := [] }

/-- Core handles a heartbeat. A `leaving` beat of the poller ends its entry, and with it the
sequence of what was assigned to it. -/
def observeBeat (me : PollerId) (s : SyncSystem Spec) (hb : HeartbeatMsg) (now : Instant) :
    SyncSystem Spec :=
  let core := (s.core.observeHeartbeat hb now).1
  if hb.leaving && decide (hb.pollerId = me) then
    { s with core := core, assigned := [], newest := none }
  else { s with core := core }

variable [JobSpec Spec]

/-- The second locked section. The working set of the poller is recorded when a sequence number
was given to it. -/
def commitPlan (me : PollerId) (s : SyncSystem Spec) (plan : Coordinator.Plan Spec) :
    SyncSystem Spec :=
  match s.core.commitPlan plan with
  | (core, msgs) =>
    let mine := msgs.filter fun m => decide (m.pollerId = me)
    let s := { s with core := core, plan := none, channel := s.channel ++ mine }
    match mine with
    | [] => s
    | .delta _ :: _ => { s with assigned := s.assigned ++ [plan.targets me] }
    | .snapshotChunk snap :: _ =>
      { s with
          assigned := s.assigned ++ [plan.targets me]
          newest := some ⟨plan.pool, snap.seq, plan.targets me⟩ }

variable [DecidableEq Spec]

/-- A sync message reaches the process. It takes the pool from a snapshot, and asks for a fresh
one when it cannot apply the message. -/
def receive (me : PollerId) (s : SyncSystem Spec) (msg : SyncMsg Spec) (now : Instant)
    (jitter : NodeId → Nat → Nat) : SyncSystem Spec :=
  let pool := match msg with
    | .snapshotChunk snap => snap.pool.getD s.process.pool
    | .delta _ => s.process.pool
  match s.process.ws.apply msg now jitter with
  | (ws, outcome) =>
    let process := { s.process with pool := pool, ws := ws }
    { s with
        process := process
        received := s.received ++ [msg]
        requests := s.requests ++ (if outcome = .needSync then [process.request me] else []) }

/-- One step. -/
def step (me : PollerId) (ring : Ring) (s : SyncSystem Spec) : Op Spec → SyncSystem Spec
  | .beat => { s with beats := s.beats ++ [s.process.heartbeat me false] }
  | .restart graceful pool caps adoptRatePerSec =>
    let process : Process Spec :=
      ⟨s.process.incarnation + 1, pool, caps, WorkingSet.new adoptRatePerSec⟩
    { s with
        process := process
        beats := s.beats ++ (if graceful then [s.process.heartbeat me true] else [])
        requests := s.requests ++ [process.request me]
        received := [] }
  | .hearBeat now =>
    match s.beats with
    | [] => s
    | hb :: rest => { s with beats := rest }.observeBeat me hb now
  | .loseBeat i => { s with beats := s.beats.eraseIdx i }
  | .hearRequest now =>
    match s.requests with
    | [] => s
    | req :: rest => { s with core := s.core.observeSyncRequest req now, requests := rest }
  | .loseRequest i => { s with requests := s.requests.eraseIdx i }
  | .otherBeat hb now => if hb.pollerId = me then s else s.observeBeat me hb now
  | .otherRequest req now =>
    if req.pollerId = me then s else { s with core := s.core.observeSyncRequest req now }
  | .setPool pollerId pool => { s with core := s.core.setPool pollerId pool }
  | .adoptPool pollerId pool => { s with core := s.core.adoptPool pollerId pool }
  | .plan pool desired now =>
    match s.plan with
    | some _ => s
    | none => { s with plan := Coordinator.planPool ring s.core pool desired now }
  | .commit =>
    match s.plan with
    | none => s
    | some plan => s.commitPlan me plan
  | .deliver now jitter =>
    match s.channel with
    | [] => s
    | msg :: rest => { s with channel := rest }.receive me msg now jitter
  | .lose i => { s with channel := s.channel.eraseIdx i }
  | .coreRestart =>
    { s with core := Coordinator.new (s.core.epoch + 1), plan := none, assigned := []
             newest := none }

end

end SyncSystem

end Yagra.Fleet
