import Yagra.Bus.Messages
import Yagra.Lib.Emit

/-!
# `Yagra.Meraki.Schedule`: what each lane of an organization sends next

An organization is collected in two lanes, each with one collect at a time. The fast lane carries
the tiers that take seconds. The slow lane carries the switch ports, the read of the SSIDs and the
inventory sync. `MerakiSchedule` remembers when each tier and each slow read had its last turn, and
`plan` says what the free lanes send.

`MerakiInflight` says which job holds a lane. A job holds it until it is answered, or until its
lease runs out. The ids of jobs are unique, so at most one lane is held by a job. What the two
remember about failures, for the organization's alert, is left out: no plan reads it.
-/

set_option autoImplicit false

namespace Yagra.Meraki

open Function (update)

/-- A kind of collect. -/
inductive MerakiTier where
  | availability | uplink | wireless | switchPorts | traffic | inventory
deriving DecidableEq, Repr

namespace MerakiTier

/-- Every tier, from the most frequent to the least. -/
def all : List MerakiTier :=
  [.availability, .uplink, .wireless, .switchPorts, .traffic, .inventory]

/-- The name a tier is stored under. -/
def asStr : MerakiTier → String
  | .availability => "availability"
  | .uplink => "uplink"
  | .wireless => "wireless"
  | .switchPorts => "switch_ports"
  | .traffic => "traffic"
  | .inventory => "inventory"

end MerakiTier

/-- What the schedule reads of an organization. -/
structure MerakiOrg where
  id : Uuid
  credentialId : Uuid
  availabilitySecs : Nat
  uplinkSecs : Nat
  trafficSecs : Nat
  inventorySecs : Nat
  switchPortsSecs : Nat
  wirelessSecs : Nat
  enabledTiers : List String
deriving DecidableEq

namespace MerakiOrg

variable (org : MerakiOrg)

/-- The enabled tiers that are collected, in the order of `MerakiTier.all`. -/
def activeTiers : List MerakiTier :=
  (MerakiTier.all.filter fun t => decide (t ≠ .inventory)).filter fun t =>
    org.enabledTiers.any fun s => decide (s = t.asStr)

/-- The seconds between two collects of a tier. -/
def tierCadence : MerakiTier → Nat
  | .availability => org.availabilitySecs
  | .uplink => org.uplinkSecs
  | .wireless => org.wirelessSecs
  | .switchPorts => org.switchPortsSecs
  | .traffic => org.trafficSecs
  | .inventory => org.inventorySecs

/-- The bounds a cadence is stored within. -/
def cadenceBounds : MerakiTier → Nat × Nat
  | .availability | .uplink => (60, 3600)
  | .wireless | .switchPorts => (300, 600)
  | .traffic => (300, 86400)
  | .inventory => (60, 604800)

/-- Every cadence is within its bounds. -/
def InBand : Prop :=
  ∀ tier, (cadenceBounds tier).1 ≤ org.tierCadence tier ∧
    org.tierCadence tier ≤ (cadenceBounds tier).2

end MerakiOrg

/-- What a collect reads only now and then. -/
structure SlowReads where
  portNames : Bool
  ssidStatuses : Bool
  neighbors : Bool
deriving DecidableEq, Repr

/-- No slow read. -/
def SlowReads.default : SlowReads := ⟨false, false, false⟩

/-- The tiers that not every poller can run. -/
structure PoolCaps where
  switchPorts : Bool
  wireless : Bool
deriving DecidableEq

/-- Whether the pool can run a tier. -/
def poolCanRun (tier : MerakiTier) (caps : PoolCaps) : Bool :=
  match tier with
  | .switchPorts => caps.switchPorts
  | .wireless => caps.wireless
  | .availability | .uplink | .traffic | .inventory => true

/-- Collects of two lanes do not wait for each other. -/
inductive MerakiLane where
  | fast | slow
deriving DecidableEq, Repr

/-- The lane of a collect. -/
def MerakiLane.of (tier : MerakiTier) (slow : SlowReads) : MerakiLane :=
  match tier with
  | .switchPorts => .slow
  | .wireless => if slow.ssidStatuses then .slow else .fast
  | .availability | .uplink | .traffic | .inventory => .fast

/-! ### When something is due -/

/-- How often the names of the ports are read. -/
def portNamesEvery : Nat := 3600000
/-- How often the SSIDs are read. -/
def ssidStatusesEvery : Nat := 1200000
/-- How long the switch ports must not be due for a read of the SSIDs to find room. -/
def ssidHold : Nat := 120000
/-- How long a read of the SSIDs that is due waits for room. -/
def ssidDefer : Nat := 450000

variable (last : Option Instant) (now : Instant)

/-- A slow read is due when it was never made, or not for `every`. -/
def dueEvery (every : Nat) : Bool :=
  last.all fun t => decide (every ≤ now - t)

/-- Whether the names of the ports are due. -/
def portNamesDue : Bool := dueEvery last now portNamesEvery

/-- Whether the SSIDs are due. -/
def ssidStatusesDue : Bool :=
  dueEvery last now ssidStatusesEvery

/-- The neighbours are due as often as configured, and never while discovery is off. -/
def neighborsDue (every : Option Nat) : Bool :=
  every.any fun every => dueEvery last now every

/-- One collect to send. -/
structure MerakiWork where
  tier : MerakiTier
  slow : SlowReads
deriving DecidableEq, Repr

namespace MerakiWork

/-- The lane it is sent on. -/
def lane (work : MerakiWork) : MerakiLane := .of work.tier work.slow

/-- Whether it is the read of the SSIDs, which is no round of the wireless tier. -/
def isSsidRead (work : MerakiWork) : Bool :=
  decide (work.tier = .wireless) && work.slow.ssidStatuses

/-- A collect without a slow read. -/
def plain (tier : MerakiTier) : MerakiWork := ⟨tier, .default⟩

/-- The read of the SSIDs. -/
def ssidRead : MerakiWork := ⟨.wireless, ⟨false, true, false⟩⟩

end MerakiWork

/-- What each lane sends. -/
structure LanePlan where
  fast : Option MerakiWork
  slow : Option MerakiWork
deriving DecidableEq

/-- The work of both lanes, the slow one first. -/
def LanePlan.works (plan : LanePlan) : List MerakiWork := plan.slow.toList ++ plan.fast.toList

/-! ### The schedule -/

/-- When each tier and each slow read of an organization had its last turn. -/
structure MerakiSchedule where
  last : Uuid → MerakiTier → Option Instant
  portNamesAt : Uuid → Option Instant
  ssidStatusesAt : Uuid → Option Instant
  neighborsAt : Uuid → Option Instant
  /-- How often the neighbours are read, unless discovery is off. -/
  neighborEvery : Option Nat

namespace MerakiSchedule

/-- Nothing has had a turn. -/
def new : MerakiSchedule := ⟨fun _ _ => none, fun _ => none, fun _ => none, fun _ => none, none⟩

variable (s : MerakiSchedule) (org : MerakiOrg)

/-- How often neighbours are read, if at all. -/
def setNeighborInterval (every : Option Nat) : MerakiSchedule :=
  { s with neighborEvery := every }

/-- Whether a tier is due within `window`, or never had a turn. -/
def dueWithin (tier : MerakiTier) (window : Nat) (now : Instant) : Bool :=
  (s.last org.id tier).all fun t => decide (org.tierCadence tier * 1000 ≤ now - t + window)

/-- Whether a tier is due now. -/
def isDue (tier : MerakiTier) (now : Instant) : Bool :=
  s.dueWithin org tier 0 now

/-- What the slow lane sends: the switch ports when they are due, else the SSIDs when they are due
and there is room for the read, or when it has waited for too long. -/
def slowWork (tiers : List MerakiTier) (now : Instant) : Option MerakiWork :=
  let switchPorts := decide (.switchPorts ∈ tiers)
  if switchPorts && s.isDue org .switchPorts now then
    let portNames := portNamesDue (s.portNamesAt org.id) now
    let neighbors := !portNames && neighborsDue (s.neighborsAt org.id) now s.neighborEvery
    some ⟨.switchPorts, ⟨portNames, false, neighbors⟩⟩
  else if .wireless ∉ tiers then none
  else
    let readAt := s.ssidStatusesAt org.id
    if !ssidStatusesDue readAt now then none
    else
      let room := !(switchPorts && s.dueWithin org .switchPorts ssidHold now)
      let waitedOut := readAt.all fun t => decide (ssidStatusesEvery + ssidDefer ≤ now - t)
      if room || waitedOut then some .ssidRead else none

/-- What the fast lane sends: the first tier of the lane that is due. -/
def fastWork (tiers : List MerakiTier) (now : Instant) : Option MerakiWork :=
  (tiers.find? fun tier =>
    decide (MerakiLane.of tier .default = .fast) && s.isDue org tier now).map .plain

/-- What the lanes of an organization send. -/
def plan (now : Instant) (caps : PoolCaps) (free : MerakiLane → Bool) : LanePlan :=
  let tiers := org.activeTiers.filter fun t => poolCanRun t caps
  { slow := if free .slow then s.slowWork org tiers now else none
    fast := if free .fast then s.fastWork org tiers now else none }

/-- A collect had its turn. The read of the SSIDs moves only its own clock. -/
def dispatched (org : Uuid) (work : MerakiWork) (now : Instant) : MerakiSchedule :=
  if work.isSsidRead then
    { s with ssidStatusesAt := update s.ssidStatusesAt org (some now) }
  else
    { s with
        last := update s.last org (update (s.last org) work.tier (some now))
        portNamesAt :=
          if work.slow.portNames then update s.portNamesAt org (some now)
          else s.portNamesAt
        neighborsAt :=
          if work.slow.neighbors then update s.neighborsAt org (some now)
          else s.neighborsAt }

end MerakiSchedule

/-! ### Who holds a lane -/

/-- The job that holds a lane, and when its lease runs out. -/
structure Flight where
  job : Uuid
  deadline : Instant
deriving DecidableEq

/-- The collects under way, by organisation and lane. -/
structure MerakiInflight where
  flights : Uuid → MerakiLane → Option Flight

namespace MerakiInflight

/-- Nothing is under way. -/
def new : MerakiInflight := ⟨fun _ _ => none⟩

variable (i : MerakiInflight)

/-- Whether a lane is held and its lease runs. -/
def isInflight (org : Uuid) (lane : MerakiLane) (now : Instant) : Bool :=
  (i.flights org lane).any fun held => decide (now < held.deadline)

/-- Take a lane, unless it is held. -/
def take (org : Uuid) (lane : MerakiLane) (job : Uuid) (lease : Nat) (now : Instant) :
    Option MerakiInflight :=
  if i.isInflight org lane now then none
  else some ⟨update i.flights org
    (update (i.flights org) lane (some ⟨job, now + lease⟩))⟩

/-- Release the lane a job holds, if it still holds one. -/
def complete (job : Uuid) : MerakiInflight :=
  ⟨fun org lane => (i.flights org lane).filter fun held => decide (held.job ≠ job)⟩

/-- Move the deadline of the lane a job holds. -/
def extend (job : Uuid) (lease : Nat) (now : Instant) : MerakiInflight :=
  ⟨fun org lane => (i.flights org lane).map fun held =>
    if held.job = job then { held with deadline := now + lease } else held⟩

/-- Forget the flights whose lease ran out. -/
def takeUnanswered (now : Instant) : MerakiInflight :=
  ⟨fun org lane => (i.flights org lane).filter fun held => decide (now < held.deadline)⟩

end MerakiInflight

open Yagra.Lib

/-!
## The loop that sends the collects

Every 15 seconds the loop asks the schedule of each organization what its free lanes send, and sends
it. A collect that has no device to ask about has had its turn. A collect is not sent when its
devices or the watched networks cannot be read, when no network is watched, when the key cannot be
opened, or when the publish fails. It then stays due, and the next tick tries again.

What a tick reads is an input, with `none` for a read that failed. The output of a tick is the turns
it gave. Other parts of the program answer jobs and take lanes for a sync (`SchedulerOp`).
-/

/-- How long a collect may hold its lane unanswered. -/
def lease : Nat := 300000

/-- Why no collect is sent about an organization. -/
inductive NoCollect where
  | nothingWatched | unreadable
deriving DecidableEq

/-- The networks a collect reports on. -/
def networksToCollect (watched : Option (List String)) : Except NoCollect (List String) :=
  match watched with
  | some [] => .error .nothingWatched
  | some ids => .ok ids
  | none => .error .unreadable

/-- What a tick reads. -/
structure TickReads where
  pollingEnabled : Bool
  neighborEvery : Option Nat
  orgs : Option (List MerakiOrg)
  now : Instant
  caps : PoolCaps
  /-- The imported devices a tier asks about. -/
  deviceRefs : Uuid → MerakiTier → Option (List String)
  monitoredNetworks : Uuid → Option (List String)
  /-- The key of a credential. -/
  key : Uuid → Option String
  /-- The id of the job of a collect. -/
  jobId : Uuid → MerakiLane → Uuid
  /-- Whether the publish of a collect succeeds. -/
  publishes : Uuid → MerakiWork → Bool

/-- A turn a collect had: it was sent, or there was no device to ask about. -/
structure Turn where
  org : Uuid
  work : MerakiWork
  time : Instant
  sent : Bool
deriving DecidableEq

/-- The schedule, and what is under way. -/
structure MerakiScheduler where
  schedule : MerakiSchedule
  inflight : MerakiInflight

namespace MerakiScheduler

/-- Before the first round. -/
def new : MerakiScheduler := ⟨.new, .new⟩

/-- Send one collect. -/
def attempt (reads : TickReads) (org : MerakiOrg) (s : MerakiScheduler) (work : MerakiWork) :
    MerakiScheduler × List Turn :=
  let turn := s.schedule.dispatched org.id work reads.now
  match reads.deviceRefs org.id work.tier with
  | none => (s, [])
  | some [] => ({ s with schedule := turn }, [⟨org.id, work, reads.now, false⟩])
  | some _ =>
    match networksToCollect (reads.monitoredNetworks org.id), reads.key org.credentialId with
    | .ok _, some _ =>
      let job := reads.jobId org.id work.lane
      match s.inflight.take org.id work.lane job lease reads.now with
      | none => (s, [])
      | some inflight =>
        if reads.publishes org.id work then
          (⟨turn, inflight⟩, [⟨org.id, work, reads.now, true⟩])
        else ({ s with inflight := inflight.complete job }, [])
    | _, _ => (s, [])

/-- The plan of an organization in a state. -/
def planFor (s : MerakiScheduler) (org : MerakiOrg) (now : Instant) (caps : PoolCaps) : LanePlan :=
  s.schedule.plan org now caps fun lane => !s.inflight.isInflight org.id lane now

/-- Send what the lanes of an organization send. -/
def tickOrg (reads : TickReads) (s : MerakiScheduler) (org : MerakiOrg) :
    MerakiScheduler × List Turn :=
  emitAll (attempt reads org) s (s.planFor org reads.now reads.caps).works

/-- One tick. -/
def tick (s : MerakiScheduler) (reads : TickReads) : MerakiScheduler × List Turn :=
  if !reads.pollingEnabled then (s, [])
  else
    let s := { s with schedule := s.schedule.setNeighborInterval reads.neighborEvery }
    match reads.orgs with
    | none => (s, [])
    | some orgs => emitAll (tickOrg reads) s orgs

end MerakiScheduler

/-- What happens to the scheduler: a tick, an answer to a job, and what the inventory sync and the
health loop do to the lanes. -/
inductive SchedulerOp where
  | tick (reads : TickReads)
  | complete (job : Uuid)
  | acquireSync (org : Uuid) (lane : MerakiLane) (job : Uuid) (lease : Nat) (now : Instant)
  | extend (job : Uuid) (lease : Nat) (now : Instant)
  | takeUnanswered (now : Instant)

/-- One operation. -/
def MerakiScheduler.step (s : MerakiScheduler) : SchedulerOp → MerakiScheduler × List Turn
  | .tick reads => s.tick reads
  | .complete job => ({ s with inflight := s.inflight.complete job }, [])
  | .acquireSync org lane job lease now =>
    ({ s with inflight := (s.inflight.take org lane job lease now).getD s.inflight }, [])
  | .extend job lease now => ({ s with inflight := s.inflight.extend job lease now }, [])
  | .takeUnanswered now => ({ s with inflight := s.inflight.takeUnanswered now }, [])

/-!
## Which collects were never answered

`MerakiInflight` with what the plan of the lanes does not read: the tier a flight collects, and the
collects whose lease ran out with no result, which are handed to the organization's health record. A
sync has no tier; its failures are recorded elsewhere.

The hash map of the source is the list of its entries. Each operation holds the locks it takes to
its end, so operations are atomic.
-/

/-- A lane that is held. -/
structure HeldFlight where
  org : Uuid
  lane : MerakiLane
  job : Uuid
  tier : Option MerakiTier
  deadline : Instant
deriving DecidableEq

/-- The organization and the lane of a flight. -/
def HeldFlight.key (f : HeldFlight) : Uuid × MerakiLane := (f.org, f.lane)

/-- What the health record is told of a flight, if it was a collect. -/
def HeldFlight.collect (f : HeldFlight) : Option (Uuid × MerakiTier) :=
  f.tier.map fun tier => (f.org, tier)

/-- The lanes that are held, and the collects that were never answered. -/
structure CollectInflight where
  flights : List HeldFlight
  unanswered : List (Uuid × MerakiTier)

namespace CollectInflight

/-- Nothing is under way. -/
def new : CollectInflight := ⟨[], []⟩

variable (i : CollectInflight) (job : Uuid)

/-- The flight that holds a lane. -/
def get (key : Uuid × MerakiLane) : Option HeldFlight :=
  i.flights.find? fun f => decide (f.key = key)

/-- The flights of the other lanes. -/
def remove (key : Uuid × MerakiLane) : List HeldFlight :=
  i.flights.filter fun f => decide (f.key ≠ key)

/-- Take a lane, unless it is held. A flight that is replaced was never answered. -/
def take (org : Uuid) (lane : MerakiLane) (job : Uuid) (tier : Option MerakiTier) (lease : Nat)
    (now : Instant) : Option CollectInflight :=
  let flights := i.remove (org, lane) ++ [⟨org, lane, job, tier, now + lease⟩]
  match i.get (org, lane) with
  | some held =>
    if now < held.deadline then none else some ⟨flights, i.unanswered ++ held.collect.toList⟩
  | none => some ⟨flights, i.unanswered⟩

/-- Move the deadline of the lane a job holds. -/
def extend (lease : Nat) (now : Instant) : CollectInflight :=
  { i with
    flights := i.flights.map fun f =>
      if f.job = job then { f with deadline := now + lease } else f }

/-- The flight a job holds. -/
def heldBy : Option HeldFlight :=
  i.flights.find? fun f => decide (f.job = job)

/-- Release the lane a job holds, if it still holds one. -/
def complete : CollectInflight × Option (Uuid × Option MerakiTier) :=
  match i.heldBy job with
  | some held => ({ i with flights := i.remove held.key }, some (held.org, held.tier))
  | none => (i, none)

/-- The flights whose lease ran out. -/
def lapsed (now : Instant) : List HeldFlight :=
  i.flights.filter fun f => !decide (now < f.deadline)

/-- The collects whose lease ran out with no result, each handed over once. -/
def takeUnanswered (now : Instant) : CollectInflight × List (Uuid × MerakiTier) :=
  (⟨i.flights.filter fun f => decide (now < f.deadline), []⟩,
    i.unanswered ++ (i.lapsed now).filterMap HeldFlight.collect)

end CollectInflight

end Yagra.Meraki
