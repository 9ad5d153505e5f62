import Mathlib.Algebra.Order.Ring.Nat
import Yagra.Bus.Messages

/-!
# `Yagra.Poller.WorkingSet`: the checks a poller has been handed

The poller folds core's messages into its working set. A delta has to come from the same core
process as the set and to be the next one in sequence. A snapshot replaces the whole set, once
all its chunks have arrived. `apply` also says what came of a message: applied, in need of a
fresh snapshot, or ignored.

A check that is new to a node gets a first due time, spread over a window whose length depends
on how many checks are new. A check that was already there keeps its due time. `jitter` is the
random source: what it returns for a node and a bound. The ordered index over the due times is
left out, since nothing here reads it.
-/

set_option autoImplicit false

namespace Yagra.Poller

open Std (ExtTreeMap)

/-- The largest 32-bit number. -/
def u32Max : Nat := 2 ^ 32 - 1

/-- How far apart the checks of one node are placed. -/
def specStaggerMs : Nat := 2 * 500

/-- A check with the time its next poll is due. -/
structure ScheduledSpec (Spec : Type) where
  spec : Spec
  nextDue : Instant
deriving DecidableEq

/-- A check that may have to be given a due time. -/
structure PendingSpec (Spec : Type) where
  spec : Spec
  nextDue : Option Instant

/-- A snapshot being put together from its chunks. -/
structure PendingSnapshot (Spec : Type) where
  epoch : Uuid
  seq : Nat
  chunkTotal : Nat
  chunks : ExtTreeMap Nat (List (NodeJobs Spec))

/-- What came of a message. -/
inductive ApplyOutcome where
  | applied | needSync | ignored
deriving DecidableEq, Repr

/-- What a poller knows of its own jobs. -/
structure WorkingSet (Spec : Type) where
  nodes : ExtTreeMap NodeId (List (ScheduledSpec Spec))
  /-- The core process the set comes from. -/
  epoch : Option Uuid
  /-- The highest sequence number applied. -/
  lastSeq : Nat
  pending : Option (PendingSnapshot Spec)
  adoptRatePerSec : Nat

namespace WorkingSet

variable {Spec : Type}

/-- The set of a process that has just started. -/
def new (adoptRatePerSec : Nat) : WorkingSet Spec := ⟨∅, none, 0, none, adoptRatePerSec⟩

/-- The checks of a node, without their due times. -/
def specsOf (ws : WorkingSet Spec) (node : NodeId) : Option (List Spec) :=
  (ws.nodes[node]?).map fun specs => specs.map (·.spec)

/-- The window in milliseconds over which newly adopted checks are spread. -/
def adoptWindowMs (ws : WorkingSet Spec) (added : Nat) : Nat :=
  if ws.adoptRatePerSec = 0 then u32Max else min (added * 1000 / ws.adoptRatePerSec) u32Max

section
variable [DecidableEq Spec]

/-- Let each check keep the due time of an equal check of before. Each old check gives its time
away once, so the old ones that are left are passed on. -/
def reschedule : List (ScheduledSpec Spec) → List Spec → List (PendingSpec Spec)
  | _, [] => []
  | olds, spec :: rest =>
    ⟨spec, (olds.find? fun os => os.spec = spec).map (·.nextDue)⟩
      :: reschedule (olds.eraseP fun os => os.spec = spec) rest

end

section
variable [JobSpec Spec]

/-- Give a due time to each check of a node that has none: one random offset for the node, and a
fixed step by position. `base` is the offset once it has been drawn. -/
def settle (jitter : Nat → Nat) (now : Instant) (windowMs : Nat) :
    Option Nat → Nat → List (PendingSpec Spec) → List (ScheduledSpec Spec)
  | _, _, [] => []
  | base, k, p :: rest =>
    match p.nextDue with
    | some due => ⟨p.spec, due⟩ :: settle jitter now windowMs base (k + 1) rest
    | none =>
      let intervalMs := min (JobSpec.intervalSecs p.spec * 1000) u32Max
      let bound := min intervalMs windowMs
      let drawn := base.getD (if bound = 0 then 0 else jitter bound)
      let offset := if intervalMs = 0 then 0
        else min (drawn + min (k * specStaggerMs) u32Max) u32Max % intervalMs
      ⟨p.spec, now + offset⟩ :: settle jitter now windowMs (some drawn) (k + 1) rest

variable [DecidableEq Spec]

/-- The checks of the nodes of a message, with the due times they keep. -/
def staged (old : ExtTreeMap NodeId (List (ScheduledSpec Spec))) (jobs : List (NodeJobs Spec)) :
    List (NodeId × List (PendingSpec Spec)) :=
  jobs.map fun nj => (nj.nodeId, reschedule ((old[nj.nodeId]?).getD []) nj.specs)

/-- How many checks are new. -/
def addedCount (stage : List (NodeId × List (PendingSpec Spec))) : Nat :=
  (stage.map fun p => (p.2.filter fun spec => spec.nextDue.isNone).length).sum

/-- Put the nodes of a message into a set. -/
def adopt (jitter : NodeId → Nat → Nat) (now : Instant) (windowMs : Nat)
    (nodes : ExtTreeMap NodeId (List (ScheduledSpec Spec)))
    (stage : List (NodeId × List (PendingSpec Spec))) :
    ExtTreeMap NodeId (List (ScheduledSpec Spec)) :=
  stage.foldl (fun nodes p => nodes.insert p.1 (settle (jitter p.1) now windowMs none 0 p.2)) nodes

variable (ws : WorkingSet Spec)

/-- Apply a delta. -/
def applyDelta (delta : WorkingSetDelta Spec) (now : Instant) (jitter : NodeId → Nat → Nat) :
    WorkingSet Spec × ApplyOutcome :=
  if ws.epoch ≠ some delta.epoch then (ws, .needSync)
  else if delta.seq ≠ ws.lastSeq + 1 then (ws, .needSync)
  else
    let stage := staged ws.nodes delta.upserts
    let nodes := adopt jitter now (ws.adoptWindowMs (addedCount stage)) ws.nodes stage
    ({ ws with
        nodes := delta.removes.foldl (fun nodes node => nodes.erase node) nodes
        lastSeq := delta.seq }, .applied)

/-- Replace the whole set by a complete snapshot. -/
def replaceFromGroup (group : PendingSnapshot Spec) (now : Instant) (jitter : NodeId → Nat → Nat) :
    WorkingSet Spec :=
  let stage := staged ws.nodes (group.chunks.toList.flatMap (·.2))
  { ws with
      nodes := adopt jitter now (ws.adoptWindowMs (addedCount stage)) ∅ stage
      epoch := some group.epoch
      lastSeq := group.seq
      pending := none }

/-- The group a chunk belongs to: the one being put together, a new one that supersedes it, or
none when the chunk is older. -/
def groupFor (snap : WorkingSetSnapshot Spec) : Option (PendingSnapshot Spec) :=
  let fresh : PendingSnapshot Spec := ⟨snap.epoch, snap.seq, snap.chunkTotal, ∅⟩
  match ws.pending with
  | none => some fresh
  | some p =>
    if p.epoch = snap.epoch ∧ p.seq = snap.seq then some p
    else if p.epoch = snap.epoch then if p.seq < snap.seq then some fresh else none
    else some fresh

/-- Keep one chunk of a snapshot, and replace the set when it was the last one missing. -/
def applySnapshotChunk (snap : WorkingSetSnapshot Spec) (now : Instant)
    (jitter : NodeId → Nat → Nat) : WorkingSet Spec × ApplyOutcome :=
  if ws.epoch = some snap.epoch ∧ snap.seq ≤ ws.lastSeq then (ws, .ignored)
  else
    match ws.groupFor snap with
    | none => (ws, .ignored)
    | some group =>
      let group := { group with chunks := group.chunks.insert snap.chunkIndex snap.nodes }
      if group.chunks.size < group.chunkTotal then ({ ws with pending := some group }, .ignored)
      else (ws.replaceFromGroup group now jitter, .applied)

/-- Fold one message into the set. -/
def apply (msg : SyncMsg Spec) (now : Instant) (jitter : NodeId → Nat → Nat) :
    WorkingSet Spec × ApplyOutcome :=
  match msg with
  | .snapshotChunk snap => ws.applySnapshotChunk snap now jitter
  | .delta delta => ws.applyDelta delta now jitter

end

end WorkingSet

end Yagra.Poller
