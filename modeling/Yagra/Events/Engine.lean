import Yagra.Alert.System
import Yagra.Bus.Messages

/-!
# `Yagra.Events.Engine`: the matcher of passive events

An event goes through three stages. A repeat of a recent event is dropped (`isDuplicate`). Then
the node it is about is found, from the source's binding or from the address. Then each rule that
applies is tried (`planRule`): a clear closes the rule's alert on the node, a match above the
rule's count opens it or moves its deadline. `sweep` closes the alerts whose deadline has passed.

An event alert has no check state. The engine keeps its deadline (`active`), beside the alert
itself in the active set of the `AlertManager`.

The content of an event is hashed for the repeat test, with the hash function a parameter. The
order in which a sweep goes over the hash map of deadlines is an input of it. Persisting events
and delivering actions are left out. A restart begins with an empty engine and a fresh manager,
into which the open alerts of the history are restored.
-/

set_option autoImplicit false

namespace Yagra.Events

/-!
## Passive events and the rules they are matched against

A passive event is a syslog message, an SNMP trap or a call of a webhook. A rule fires on a
pattern in its text, and can have a second pattern that clears what the first one raised. A rule
applies to some kinds of events, to one source, to one node or to the nodes of a folder.

A regular expression is the predicate it decides. A rule's id is the text of its uuid, as it
stands in the name of its checks.
-/

/-- An address. Only equality is used. -/
abbrev IpAddr := Nat
/-- The text of a rule's id. -/
abbrev RuleId := String

/-- How an event came in. -/
inductive EventKind where
  | syslog | trap | webhook
deriving DecidableEq, Repr

/-- What the engine reads of an event. -/
structure EventMsg where
  kind : EventKind
  atUnixMs : UnixMs
  sourceIp : Option IpAddr
  /-- The pool of pollers that received it. -/
  pool : Option PoolName
  message : String
  trapOid : Option String
deriving DecidableEq

/-- The name of a well-known trap. -/
def trapOidName (oid : String) : Option String :=
  if oid = "1.3.6.1.6.3.1.1.5.1" then some "coldStart"
  else if oid = "1.3.6.1.6.3.1.1.5.2" then some "warmStart"
  else if oid = "1.3.6.1.6.3.1.1.5.3" then some "linkDown"
  else if oid = "1.3.6.1.6.3.1.1.5.4" then some "linkUp"
  else if oid = "1.3.6.1.6.3.1.1.5.5" then some "authenticationFailure"
  else if oid = "1.3.6.1.6.3.1.1.5.6" then some "egpNeighborLoss"
  else if oid = "1.3.6.1.2.1.15.7.1" then some "bgpEstablished"
  else if oid = "1.3.6.1.2.1.15.7.2" then some "bgpBackwardTransition"
  else none

/-- The text the rules see. A trap is preceded by its name. -/
def EventMsg.haystack (msg : EventMsg) : String :=
  match msg.kind, msg.trapOid.bind trapOidName with
  | .trap, some name => name ++ " " ++ msg.message
  | .trap, none | .syslog, _ | .webhook, _ => msg.message

/-- A pattern of a rule. -/
inductive Matcher where
  | substring (s : String)
  | regex (isMatch : String → Bool)

/-- Whether a text matches. -/
def Matcher.matches : Matcher → String → Bool
  | .substring s, text => decide (s.toList <:+: text.toList)
  | .regex isMatch, text => isMatch text

/-- Whether a rule's target covers a node, whose folders are `chain`. -/
def targetsNode (ruleNode : Option NodeId) (ruleGroup : Option GroupId) (node : NodeId)
    (chain : Option (List GroupId)) : Bool :=
  match ruleNode, ruleGroup with
  | some n, _ => decide (n = node)
  | none, some g => chain.any fun c => decide (g ∈ c)
  | none, none => true

/-- A rule, ready to match. -/
structure CompiledRule where
  id : RuleId
  name : String
  sourceKind : Option EventKind
  sourceId : Option Uuid
  nodeId : Option NodeId
  groupId : Option GroupId
  matcher : Matcher
  clearMatcher : Option Matcher
  severity : Severity
  ttlSecs : Nat
  minCount : Nat
  windowSecs : Nat

namespace CompiledRule

variable (rule : CompiledRule) (haystack : String)

/-- Whether the rule applies to an event of a kind, from a source, on a node. -/
def applies (kind : EventKind) (source : Option Uuid) (node : NodeId)
    (chain : Option (List GroupId)) : Bool :=
  (rule.sourceKind.all fun k => decide (k = kind)) &&
    (rule.sourceId.all fun s => decide (some s = source)) &&
    targetsNode rule.nodeId rule.groupId node chain

/-- Whether the text hits the firing pattern. -/
def fireHit : Bool := rule.matcher.matches haystack

/-- Whether the text hits the clear pattern. -/
def clearHit : Bool :=
  rule.clearMatcher.any fun m => m.matches haystack

/-- A match of the firing pattern alone. A message that hits both patterns clears. -/
def fires : Bool :=
  rule.fireHit haystack && !rule.clearHit haystack

/-- How long after a match its alert stays open. -/
def ttlMs : Int := rule.ttlSecs * 1000

/-- How long a match counts towards `minCount`. -/
def windowMs : Int := rule.windowSecs * 1000

/-- The check of the rule's alert on a node. -/
def check (node : NodeId) : CheckId :=
  checkId node (.metric (.event rule.id))

/-- The bounds the API checks. -/
def admitted : Bool :=
  decide (60 ≤ rule.ttlSecs ∧ rule.ttlSecs ≤ 604800) &&
    decide (1 ≤ rule.minCount ∧ rule.minCount ≤ 100) &&
    decide (1 ≤ rule.windowSecs ∧ rule.windowSecs ≤ 3600)

end CompiledRule

/-- The rules in force. Their ids are the keys of a table. -/
structure Snapshot where
  rules : List CompiledRule
  distinct : (rules.map (·.id)).Nodup

/-- No rules. -/
def Snapshot.empty : Snapshot := ⟨[], List.nodup_nil⟩

open Yagra.Lib
open Function (update)

/-! ## The matcher -/

/-- What the pipeline did with an event, from least to most. -/
inductive EventAction where
  | none | info | suppressed | cleared | refreshed | fired
deriving DecidableEq, Repr

/-- The place of an action in its order. -/
def EventAction.rank : EventAction → Nat
  | .none => 0
  | .info => 1
  | .suppressed => 2
  | .cleared => 3
  | .refreshed => 4
  | .fired => 5

/-- Why an action was taken. -/
inductive Reason where
  | fire | clear | ttl
deriving DecidableEq, Repr

/-- How long a repeat of an event is dropped. -/
def dedupWindowMs : Int := 5000

/-- How many events the repeat test remembers. -/
def dedupCap : Nat := 4096

/-- How old the newest match of a counter may be. -/
def counterMaxAgeMs : Int := 2 * 3600 * 1000

/-- The state of the matcher. -/
structure Runtime where
  /-- The recent matches of a rule on a node. A counter that was removed has none. -/
  counters : RuleId → NodeId → List UnixMs
  /-- The deadlines of the open event alerts. -/
  active : CheckId → Option UnixMs
  dedupSeen : Nat → Option UnixMs
  dedupOrder : List Nat

namespace Runtime

/-- A runtime that has seen nothing. -/
def new : Runtime := ⟨fun _ _ => [], fun _ => none, fun _ => none, []⟩

/-- Forget the oldest events until there is room for one more. -/
def evict : List Nat → (Nat → Option UnixMs) → List Nat × (Nat → Option UnixMs)
  | [], seen => ([], seen)
  | old :: rest, seen =>
    if dedupCap ≤ (old :: rest).length then evict rest (update seen old none)
    else (old :: rest, seen)

variable (rt : Runtime)

/-- Whether an event is a repeat of one taken a moment ago. If not, it is taken. -/
def isDuplicate (key : Nat) (now : UnixMs) : Runtime × Bool :=
  match evict rt.dedupOrder rt.dedupSeen with
  | (order, seen) =>
    if (seen key).any fun t => decide (now - t < dedupWindowMs) then
      ({ rt with dedupOrder := order, dedupSeen := seen }, true)
    else
      ({ rt with
          dedupOrder := if (seen key).isNone then order ++ [key] else order
          dedupSeen := update seen key (some now) }, false)

/-- Count a match, and say whether the rule may fire. -/
def gatePasses (rule : CompiledRule) (node : NodeId) (now : UnixMs) : Runtime × Bool :=
  if rule.minCount ≤ 1 then (rt, true)
  else
    let cutoff := now - rule.windowMs
    let recent := (rt.counters rule.id node).dropWhile (fun t => decide (t < cutoff)) ++ [now]
    let counters := update (rt.counters rule.id) node recent
    ({ rt with counters := update rt.counters rule.id counters },
      decide (rule.minCount ≤ recent.length))

/-- Set the deadline of an alert. -/
def arm (check : CheckId) (deadline : UnixMs) : Runtime :=
  { rt with active := update rt.active check (some deadline) }

/-- Forget the deadline of an alert. -/
def disarm (check : CheckId) : Runtime :=
  { rt with active := update rt.active check none }

end Runtime

/-! ### Planning -/

/-- What planning an event has decided so far. -/
structure Planned where
  runtime : Runtime
  manager : AlertManager
  rowAction : EventAction
  matchedRule : Option RuleId
  actions : List (NotifyAction × Reason)

namespace Planned

/-- The strongest outcome describes the event. -/
def bump (p : Planned) (action : EventAction) (rule : RuleId) : Planned :=
  if p.rowAction.rank < action.rank then
    { p with rowAction := action, matchedRule := some rule }
  else p

/-- Close the alert of a check, if the matcher holds its deadline. -/
def clear (p : Planned) (check : CheckId) : Planned :=
  match p.runtime.active check with
  | none => p
  | some _ =>
    let closed := p.manager.resolveEventAlert check
    { p with
        runtime := p.runtime.disarm check
        manager := closed.1
        actions := p.actions ++ closed.2.map fun action => (action, .clear) }

/-- Open the alert of a rule on a node, or move its deadline. -/
def fire (p : Planned) (msg : EventMsg) (rule : CompiledRule) (node : NodeId) (now : UnixMs) :
    Planned :=
  let check := rule.check node
  let armed := p.runtime.arm check (now + rule.ttlMs)
  match p.runtime.active check with
  | some _ => { p with runtime := armed }.bump .refreshed rule.id
  | none =>
    let raised := p.manager.raiseEventAlert
      (Raised.event node rule.id rule.name rule.severity msg.atUnixMs).alert
    let p : Planned := { p with
      runtime := armed, manager := raised.1
      actions := p.actions ++ raised.2.map fun action => (action, .fire) }
    p.bump (if raised.2.isEmpty then .refreshed else .fired) rule.id

end Planned

/-- Try one rule that applies. -/
def planRule (msg : EventMsg) (node : NodeId) (now : UnixMs) (inMaintenance : Bool) (p : Planned)
    (rule : CompiledRule) : Planned :=
  let fireHit := rule.fireHit msg.haystack
  let clearHit := rule.clearHit msg.haystack
  if !fireHit && !clearHit then p
  else if inMaintenance then p.bump .suppressed rule.id
  -- A message that hits both patterns clears.
  else if clearHit then (p.clear (rule.check node)).bump .cleared rule.id
  else if rule.severity = .info then p.bump .info rule.id
  else
    let gate := p.runtime.gatePasses rule node now
    if gate.2 then { p with runtime := gate.1 }.fire msg rule node now
    else { p with runtime := gate.1 }.bump .info rule.id

/-- A source of webhooks, and the node it speaks for. -/
structure SourceBinding where
  sourceId : Uuid
  nodeId : Option NodeId
deriving DecidableEq

/-- What makes two events the same for the repeat test. -/
structure Content where
  kind : EventKind
  sourceIp : Option IpAddr
  sourceId : Option Uuid
  message : String
deriving DecidableEq

/-- A match of a rule's pattern. -/
structure Match where
  check : CheckId
  atMs : UnixMs
  ttlMs : Int
deriving DecidableEq

/-- The event engine and the alert manager. Two fields only record what happened: `matched` are
the matches of firing patterns the planner saw, and `dropped` those in messages that were dropped
as repeats. -/
structure EventSystem where
  snapshot : Snapshot
  addresses : IpAddr → Option PoolName → Option NodeId
  runtime : Runtime
  manager : AlertManager
  matched : List Match
  dropped : List Match

/-- An event as the engine receives it. -/
structure Arrival where
  msg : EventMsg
  source : Option SourceBinding
deriving DecidableEq

namespace Arrival

/-- The source of an arrival. -/
def sourceId (a : Arrival) : Option Uuid := a.source.map (·.sourceId)

/-- What the test for repeats reads. -/
def content (a : Arrival) : Content :=
  ⟨a.msg.kind, a.msg.sourceIp, a.sourceId, a.msg.message⟩

end Arrival

namespace EventSystem

/-- An engine before its first event. -/
def start : EventSystem :=
  { snapshot := .empty, addresses := fun _ _ => none, runtime := .new, manager := .fresh
    matched := [], dropped := [] }

variable (s : EventSystem) (a : Arrival) (node : NodeId)

/-- The node an event is about. -/
def nodeOf : Option NodeId :=
  (a.source.bind (·.nodeId)).or (a.msg.sourceIp.bind fun ip => s.addresses ip a.msg.pool)

/-- Whether nothing may be raised for a node at a moment. -/
def inMaintenance (now : UnixMs) : Bool :=
  s.manager.config.inMaintenance node || s.manager.config.isPaused node now

/-- The rules that apply to an event about a node. -/
def rulesFor : List CompiledRule :=
  let chain := (s.manager.config.metaOf node).map (·.folderChain)
  s.snapshot.rules.filter fun rule => rule.applies a.msg.kind a.sourceId node chain

/-- Try every rule that applies. -/
def plan (now : UnixMs) : Planned :=
  (s.rulesFor a node).foldl (planRule a.msg node now (s.inMaintenance node now))
    { runtime := s.runtime, manager := s.manager, rowAction := .none, matchedRule := none
      actions := [] }

/-- The matches of firing patterns in an event. -/
def matchesOf (now : UnixMs) : List Match :=
  ((s.rulesFor a node).filter fun rule => rule.fireHit a.msg.haystack).map fun rule =>
    ⟨rule.check node, now, rule.ttlMs⟩

/-- An event that is not dropped. -/
def take (now : UnixMs) : EventSystem × List (NotifyAction × Reason) :=
  match s.nodeOf a with
  | none => (s, [])
  | some node =>
    let planned := s.plan a node now
    ({ s with
        runtime := planned.runtime
        manager := planned.manager
        matched := s.matched ++ s.matchesOf a node now }, planned.actions)

/-- An event that is dropped. -/
def drop (now : UnixMs) : EventSystem :=
  match s.nodeOf a with
  | none => s
  | some node => { s with dropped := s.dropped ++ s.matchesOf a node now }

/-- One event. -/
def handleEvent (hash : Content → Nat) (s : EventSystem) (a : Arrival) (now : UnixMs) :
    EventSystem × List (NotifyAction × Reason) :=
  let tested := s.runtime.isDuplicate (hash a.content) now
  if tested.2 then ({ s with runtime := tested.1 }.drop a now, [])
  else { s with runtime := tested.1 }.take a now

/-- Close one alert whose deadline has passed. -/
def expire (check : CheckId) : EventSystem × List (NotifyAction × Reason) :=
  let closed := s.manager.resolveEventAlert check
  ({ s with runtime := s.runtime.disarm check, manager := closed.1 },
    closed.2.map fun action => (action, .ttl))

/-- The alerts whose deadline has passed. -/
def expired (now : UnixMs) (order : List CheckId) : List CheckId :=
  order.filter fun check => (s.runtime.active check).any fun t => decide (t ≤ now)

/-- Close the alerts whose deadline has passed, and forget old counters. -/
def sweep (now : UnixMs) (order : List CheckId) : EventSystem × List (NotifyAction × Reason) :=
  let swept := emitAll expire s (s.expired now order)
  let counters := fun rule node =>
    let times := swept.1.runtime.counters rule node
    if times.getLast?.any fun t => decide (now - counterMaxAgeMs ≤ t) then times else []
  ({ swept.1 with runtime := { swept.1.runtime with counters := counters } }, swept.2)

/-- A new process: an empty engine, and a manager with the open alerts of the history. -/
def restart (rows deleted : List AlertHistoryRow) : EventSystem :=
  { start with
      manager :=
        (AlertManager.fresh.restore (rows.map alertFromRow)).restoreDeleted
          (deleted.map alertFromRow)
      matched := s.matched }

/-- What can happen to an event engine. -/
inductive Op where
  | event (a : Arrival) (now : UnixMs)
  | sweep (now : UnixMs) (order : List CheckId)
  /-- Rules and addresses are read again. -/
  | reload (snapshot : Snapshot) (addresses : IpAddr → Option PoolName → Option NodeId)
  | setConfig (config : AlertConfig)
  | restart (rows deleted : List AlertHistoryRow)

/-- What happens. -/
def step (hash : Content → Nat) (s : EventSystem) : Op → EventSystem
  | .event a now => (s.handleEvent hash a now).1
  | .sweep now order => (s.sweep now order).1
  | .reload snapshot addresses => { s with snapshot := snapshot, addresses := addresses }
  | .setConfig config => { s with manager := s.manager.setConfig config }
  | .restart rows deleted => s.restart rows deleted

/-! ### An engine whose rules stay the same -/

/-- What reaches an engine whose rules, addresses and configuration do not change. -/
inductive Traffic where
  | event (a : Arrival) (now : UnixMs)
  | sweep (now : UnixMs) (order : List CheckId)

/-- When it reaches the engine. -/
def Traffic.time : Traffic → UnixMs
  | .event _ now | .sweep now _ => now

/-- An engine with rules, addresses and a configuration, before its first event. -/
def installed (snapshot : Snapshot) (addresses : IpAddr → Option PoolName → Option NodeId)
    (config : AlertConfig) : EventSystem :=
  { start with
      snapshot := snapshot, addresses := addresses
      manager := AlertManager.fresh.setConfig config }

/-- The engine as it is. -/
def serve (hash : Content → Nat) (s : EventSystem) : Traffic → EventSystem
  | .event a now => (s.handleEvent hash a now).1
  | .sweep now order => (s.sweep now order).1

/-- The same without the repeat test. -/
def serveEvery : Traffic → EventSystem
  | .event a now => (s.take a now).1
  | .sweep now order => (s.sweep now order).1

end EventSystem

end Yagra.Events
