import Yagra.Common.State

/-!
# `Yagra.Bus.Messages`: what core and the pollers say to each other

Core hands each poller the checks it has to run, its working set, as a full snapshot in chunks
or as a delta to what it sent before. A poller says that it is alive with a heartbeat, which
echoes how far it got, and asks for a fresh snapshot with a sync request.

A check specification is only known by what this code reads of it: how often it runs, which
capabilities it needs, and the fingerprint of a list of them. Telemetry on a heartbeat is left
out.
-/

set_option autoImplicit false

namespace Yagra

/-- The id of a poller. Only equality and order are used. -/
abbrev PollerId := Nat
/-- The name of a pool of pollers. -/
abbrev PoolName := String
/-- A moment of a monotonic clock, in milliseconds. -/
abbrev Instant := Nat
/-- A capability a poller can advertise. -/
abbrev Cap := String

/-- What the fleet reads of a check specification. `fingerprint` is of the whole list of a node's
specifications. -/
class JobSpec (Spec : Type) where
  intervalSecs : Spec → Nat
  requiredCaps : Spec → List Cap
  fingerprint : List Spec → Nat

/-- The checks of one node. -/
structure NodeJobs (Spec : Type) where
  nodeId : NodeId
  specs : List Spec
deriving DecidableEq

/-- One chunk of a snapshot. The chunks of a snapshot share its epoch and its sequence number. -/
structure WorkingSetSnapshot (Spec : Type) where
  pollerId : PollerId
  epoch : Uuid
  seq : Nat
  chunkIndex : Nat
  chunkTotal : Nat
  nodes : List (NodeJobs Spec)
  totalNodes : Nat
  pool : Option PoolName
deriving DecidableEq

/-- A change to a working set. -/
structure WorkingSetDelta (Spec : Type) where
  pollerId : PollerId
  epoch : Uuid
  seq : Nat
  upserts : List (NodeJobs Spec)
  removes : List NodeId
deriving DecidableEq

/-- What core sends to a poller. -/
inductive SyncMsg (Spec : Type) where
  | snapshotChunk (snap : WorkingSetSnapshot Spec)
  | delta (delta : WorkingSetDelta Spec)
deriving DecidableEq

namespace SyncMsg

variable {Spec : Type}

/-- The poller a message is addressed to. -/
def pollerId : SyncMsg Spec → PollerId
  | .snapshotChunk snap => snap.pollerId
  | .delta d => d.pollerId

/-- The core process a message comes from. -/
def epoch : SyncMsg Spec → Uuid
  | .snapshotChunk snap => snap.epoch
  | .delta d => d.epoch

end SyncMsg

/-- A sign of life. `epoch` and `lastSeq` say which snapshot or delta the poller applied last,
and `leaving` that the process is about to stop. -/
structure HeartbeatMsg where
  pollerId : PollerId
  pool : PoolName
  incarnation : Uuid
  epoch : Option Uuid
  lastSeq : Nat
  caps : List Cap
  leaving : Bool
deriving DecidableEq

/-- A request for a fresh snapshot. -/
structure SyncRequest where
  pollerId : PollerId
  pool : PoolName
  incarnation : Uuid
deriving DecidableEq

/-- How many nodes one chunk of a snapshot carries. -/
def snapshotChunkNodes : Nat := 100

/-- How long a poller may be silent before it counts as offline. -/
def offlineAfter : Nat := 30 * 1000

end Yagra
