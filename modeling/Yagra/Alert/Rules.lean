import Yagra.Common.Threshold
import Yagra.Lib.TreeMap
import Yagra.Topology.Grouping

/-!
# `Yagra.Alert.Rules`: the alert configuration, and which threshold is in force

`AlertConfig` is the snapshot of rules, inventory and grouping the engine judges samples
by. Rules are indexed by metric and, inside a metric, by node or port where the rule names
one. `resolve` answers which threshold is in force on one check: it collects the candidate
rules, keeps those whose scope applies, keeps only the nearest folder of the folder rules,
lets rules with a row pattern win over the others at the winning level, and merges what is
left.

A rule's scope id is a string in the source. `ScopeId` keeps what the source asks of it:
whether it parses as a node id, whether it is that id's own spelling, and whether it names
a port.
-/

set_option autoImplicit false

namespace Yagra

open Yagra.Lib Yagra.Topology

/-- A scope id of a rule: the canonical spelling of an id, another spelling of one, a port
as `id:index` in some spelling, or any other text. -/
inductive ScopeId where
  | canonical (id : Uuid)
  | spelled (id : Uuid) (text : String)
  | port (id : Uuid) (ifindex : IfIndex) (text : String)
  | text (s : String)
deriving DecidableEq, Repr

namespace ScopeId

/-- The id a scope id parses as. -/
def parseUuid : ScopeId → Option Uuid
  | .canonical id | .spelled id _ => some id
  | .port .. | .text _ => none

/-- The id a scope id spells canonically. -/
def canonicalUuid : ScopeId → Option Uuid
  | .canonical id => some id
  | _ => none

/-- The port a scope id names. -/
def parseInterface : ScopeId → Option (Uuid × IfIndex)
  | .port id ifindex _ => some (id, ifindex)
  | _ => none

end ScopeId

/-- What the configuration knows about a node. -/
structure NodeMeta where
  profile : Option ScopeId
  folderGroup : Option Uuid
  /-- The folders the node is filed under, nearest first. -/
  folderChain : List Uuid
deriving DecidableEq

/-- A stored threshold rule. -/
structure StoredThreshold where
  level : ScopeLevel
  scopeIds : List ScopeId
  rule : ThresholdRule
  rowMatch : Option RowText
deriving DecidableEq

/-! ### Row patterns -/

/-- The pattern walk: `star` stands for any run of characters, and `same` compares the others. The
last star seen is kept with the rest of the name it was tried from, and swallows one more character
on a mismatch. -/
def wildcardLoop (star : Char) (same : Char → Char → Bool) :
    Nat → List Char → List Char → Option (List Char × List Char) → Bool
  | 0, _, _, _ => false
  | _ + 1, pattern, [], _ => pattern.all (fun c => c = star)
  | fuel + 1, pattern, c :: name, backtrack =>
    let retry := match backtrack with
      | some (afterStar, _ :: rest) =>
        wildcardLoop star same fuel afterStar rest (some (afterStar, rest))
      | _ => false
    match pattern with
    | p :: pattern' =>
      if p = star then
        wildcardLoop star same fuel pattern' (c :: name) (some (pattern', c :: name))
      else if same p c then wildcardLoop star same fuel pattern' name backtrack
      else retry
    | [] => retry

/-- A pattern against a name. Every retry shortens the name left to the last star, and between
two retries the walk moves forward in the pattern or in the name. -/
def wildcardMatch (same : Char → Char → Bool) (pattern name : List Char) : Bool :=
  wildcardLoop '*' same ((name.length + 1) * (pattern.length + name.length + 2)) pattern name none

/-- Whether a row's name matches a rule's pattern, upper and lower case alike. Where one of the
texts is not ASCII both are lower-cased first. -/
def rowNameMatches (pattern name : RowText) : Bool :=
  if pattern.isAscii && name.isAscii then
    wildcardMatch (fun a b => decide (a.toLower = b.toLower)) pattern.text.toList name.text.toList
  else wildcardMatch (fun a b => decide (a = b)) pattern.toLowercase name.toLowercase

/-! ### Scope -/

variable (t : StoredThreshold)

/-- How far up a node's folder chain a folder rule applies. -/
def folderDepth (nodeMeta : Option NodeMeta) : Option Nat :=
  if t.level ≠ .folderGroup then none
  else
    nodeMeta.bind fun m =>
      (t.scopeIds.filterMap fun s =>
        s.parseUuid.bind fun want => m.folderChain.findIdx? (fun g => g = want)).min?

/-- The nearest folder any of the matched rules applies at. -/
def nearestFolderDepth (matched : List StoredThreshold) (nodeMeta : Option NodeMeta) : Option Nat :=
  (matched.filterMap fun t => folderDepth t nodeMeta).min?

/-- Whether a rule's scope covers a check. -/
def scopeApplies (node : NodeId) (ifindex : Option IfIndex) (nodeMeta : Option NodeMeta) : Bool :=
  match t.level with
  | .global => true
  | .node => decide (ScopeId.canonical node ∈ t.scopeIds)
  | .profile =>
    (nodeMeta.bind NodeMeta.profile).any fun p => t.scopeIds.any fun s => decide (s = p)
  | .folderGroup => (folderDepth t nodeMeta).isSome
  | .interface =>
    ifindex.any fun idx => t.scopeIds.any fun s => decide (s.parseInterface = some (node, idx))

/-- Whether a rule applies to a check: its row pattern, if it has one, and its scope. -/
def thresholdApplies (node : NodeId) (ifindex : Option IfIndex) (rowName : Option RowText)
    (nodeMeta : Option NodeMeta) : Bool :=
  (t.rowMatch.all fun pattern => rowName.any fun name => rowNameMatches pattern name) &&
    scopeApplies t node ifindex nodeMeta

/-- Inside the winning level, a rule with a row pattern wins over the rules without one. -/
def preferRowRules (matched : List StoredThreshold) : List StoredThreshold :=
  match winningLevel (matched.map (·.level)) with
  | none => matched
  | some winning =>
    if matched.any (fun t => decide (t.level = winning) && t.rowMatch.isSome) then
      matched.filter (fun t => decide (t.level ≠ winning) || t.rowMatch.isSome)
    else matched

/-! ### The index of rules -/

/-- A rule with its position in the list it was loaded in. -/
structure Indexed where
  seq : Nat
  t : StoredThreshold
deriving DecidableEq

/-- The rules of one metric: those naming nodes, those naming ports, and the rest. -/
structure MetricRules where
  broad : List Indexed
  byNode : Uuid → List Indexed
  byPort : Uuid × IfIndex → List Indexed
  /-- The nodes a rule is filed under. -/
  nodeKeys : List Uuid
  /-- The ports a rule is filed under. -/
  portKeys : List (Uuid × IfIndex)

namespace MetricRules

/-- No rules. -/
def empty : MetricRules := ⟨[], fun _ => [], fun _ => [], [], []⟩

/-- The index with a rule appended under each of its keys. -/
def fileUnder {κ : Type} [DecidableEq κ] (f : κ → List Indexed) (keys : List κ) (e : Indexed) :
    κ → List Indexed :=
  keys.foldl (fun f key => Function.update f key (f key ++ [e])) f

variable (m : MetricRules)

/-- File one rule. A node rule is filed under its nodes when every one of its scope ids is
spelled canonically, and a port rule under its ports when every one names a port. -/
def insert (e : Indexed) : MetricRules :=
  match e.t.level with
  | .node =>
    match e.t.scopeIds.mapM ScopeId.canonicalUuid with
    | some (id :: ids) =>
      { m with byNode := fileUnder m.byNode (id :: ids) e
               nodeKeys := m.nodeKeys ∪ (id :: ids) }
    | _ => { m with broad := m.broad ++ [e] }
  | .interface =>
    match e.t.scopeIds.mapM ScopeId.parseInterface with
    | some (port :: ports) =>
      { m with byPort := fileUnder m.byPort (port :: ports) e
               portKeys := m.portKeys ∪ (port :: ports) }
    | _ => { m with broad := m.broad ++ [e] }
  | .global | .profile | .folderGroup => { m with broad := m.broad ++ [e] }

/-- The rules that may apply to a check, in the order they were loaded. -/
def candidates (node : NodeId) (ifindex : Option IfIndex) : List Indexed :=
  (m.broad ++ m.byNode node ++ (ifindex.map fun i => m.byPort (node, i)).getD []).insertionSort
    (fun a b => a.seq ≤ b.seq)

/-- Every rule of the metric, in the order they were loaded. -/
def all : List StoredThreshold :=
  ((m.broad ++ m.nodeKeys.flatMap m.byNode ++ m.portKeys.flatMap m.byPort).insertionSort
    (fun a b => a.seq ≤ b.seq)).map Indexed.t

end MetricRules

/-! ### What the rules of a metric cover -/

/-- What a query for the rules of one metric has to cover. -/
structure RuleCoverage where
  /-- The smallest bound any rule names; `none` when no rule can fire. -/
  lowestBound : Option F64
  hasBelow : Bool
  /-- The nodes the rules name; `none` stands for the whole fleet. -/
  nodes : Option (OrdSet Uuid)

namespace RuleCoverage

/-- What no rule covers. -/
def nothing : RuleCoverage := ⟨none, false, some ∅⟩

/-- The coverage with one more rule. A node rule counts for every id that parses, canonical or
not. -/
def add (cov : RuleCoverage) (t : StoredThreshold) : RuleCoverage where
  lowestBound := match t.rule.bounds.lowestBound with
    | none => cov.lowestBound
    | some lowest => some (cov.lowestBound.elim lowest fun b => F64.min b lowest)
  hasBelow := cov.hasBelow || t.rule.bounds.hasBelow
  nodes := match t.level with
    | .node => cov.nodes.map fun set => set.extend (t.scopeIds.filterMap ScopeId.parseUuid)
    | .interface => cov.nodes.map fun set =>
      set.extend ((t.scopeIds.filterMap ScopeId.parseInterface).map Prod.fst)
    | .global | .profile | .folderGroup => none

end RuleCoverage

/-! ### The configuration -/

/-- The snapshot the engine judges samples by. -/
structure AlertConfig where
  byMetric : CheckName → Option MetricRules
  /-- Whether a configuration has been loaded at all, as opposed to one without rules. -/
  loaded : Bool
  nodeMeta : List (NodeId × NodeMeta)
  grouping : LinkGraph
  groupingWait : Bool
  maintenance : OrdSet NodeId
  pausedUntil : Option UnixMs
  pauseExempt : OrdSet NodeId
  /-- The metrics collected per port. -/
  perInterface : List CheckName
  /-- The metrics some rule with a row pattern is about. -/
  rowRuleMetrics : List CheckName

namespace AlertConfig

/-- The configuration of an engine that has loaded none. -/
def default : AlertConfig where
  byMetric := fun _ => none
  loaded := false
  nodeMeta := []
  grouping := LinkGraph.new .off
  groupingWait := false
  maintenance := ∅
  pausedUntil := none
  pauseExempt := ∅
  perInterface := []
  rowRuleMetrics := []

/-- A configuration built from the stored rules and the inventory. -/
def new (thresholds : List StoredThreshold) (nodeMeta : List (NodeId × NodeMeta)) :
    AlertConfig :=
  { default with
      byMetric := thresholds.zipIdx.foldl
        (fun f (t, seq) => Function.update f t.rule.metric
          (some (((f t.rule.metric).getD .empty).insert ⟨min seq u32Max, t⟩)))
        (fun _ => none)
      loaded := true
      nodeMeta := nodeMeta
      rowRuleMetrics := (thresholds.filter fun t => t.rowMatch.isSome).map fun t => t.rule.metric }

variable (c : AlertConfig) (metric : CheckName) (node : NodeId)

/-- What the inventory says about a node. -/
def metaOf : Option NodeMeta := c.nodeMeta.lookup node

/-- Whether the inventory holds a node. -/
def knows : Bool := (c.metaOf node).isSome

/-- Whether a node is in maintenance. -/
def inMaintenance : Bool := decide (node ∈ c.maintenance)

/-- Whether alerting is paused for a node at a moment. -/
def isPaused (atUnixMs : UnixMs) : Bool :=
  (c.pausedUntil.any fun t => decide (atUnixMs < t)) &&
    decide (node ∉ c.pauseExempt) && decide (node ∉ c.maintenance)

/-- Whether a metric is of ports. -/
def isPerInterface : Bool :=
  decide (metric ∈ c.perInterface)

/-- Whether a rule on the metric has a row pattern. -/
def hasRowRules : Bool :=
  decide (metric ∈ c.rowRuleMetrics)

/-- The threshold in force on one check, if any rule applies to it. -/
def resolve (ifindex : Option IfIndex) (rowName : Option RowText) (metric : CheckName) :
    Option EffectiveThreshold :=
  (c.byMetric metric).bind fun rules =>
    let nodeMeta := c.metaOf node
    let matched := ((rules.candidates node ifindex).map Indexed.t).filter fun t =>
      thresholdApplies t node ifindex rowName nodeMeta
    let nearest := nearestFolderDepth matched nodeMeta
    let matched := matched.filter fun t =>
      decide (t.level ≠ .folderGroup) || decide (folderDepth t nodeMeta = nearest)
    resolveEffective ((preferRowRules matched).map fun t => ⟨t.level, t.rule⟩)

/-- What the rules of a metric cover. Without a bound nothing can fire, and nothing is
covered. -/
def ruleCoverage : RuleCoverage :=
  match c.byMetric metric with
  | none => .nothing
  | some rules =>
    let cov := rules.all.foldl RuleCoverage.add .nothing
    { cov with nodes := if cov.lowestBound.isNone then some ∅ else cov.nodes }

end AlertConfig

open Yagra.Lib

/-!
## The rules of one port

`interfaceMatchingRules` is the list of the rules of one port, each with whether it is in force
there. The source fills two maps by metric for it. Here they are read at the metric of the rule.
-/

variable (rules : List StoredThreshold)

/-- Whether a rule is at the winning level of the rules on its metric, and in the nearest folder. -/
def inForceAmong (ofMetric : List StoredThreshold) (nodeMeta : Option NodeMeta)
    (t : StoredThreshold) : Bool :=
  decide (winningLevel (ofMetric.map (·.level)) = some t.level) &&
    (decide (t.level ≠ .folderGroup) ||
      decide (folderDepth t nodeMeta = nearestFolderDepth ofMetric nodeMeta))

/-- Rules, each with whether it is in force. -/
def flagInForce (matched : List StoredThreshold) (nodeMeta : Option NodeMeta) :
    List (StoredThreshold × Bool) :=
  matched.map fun t =>
    (t, inForceAmong (matched.filter fun t' => decide (t'.rule.metric = t.rule.metric)) nodeMeta t)

/-- The rules that reach a node or a port, each with whether it is in force. -/
def matchingRules (node : NodeId) (ifindex : Option IfIndex) (nodeMeta : Option NodeMeta) :
    List (StoredThreshold × Bool) :=
  flagInForce (rules.filter fun t => thresholdApplies t node ifindex none nodeMeta) nodeMeta

/-- The same for a port, without the metrics of the node. -/
def interfaceMatchingRules (node : NodeId) (ifindex : IfIndex) (nodeMeta : Option NodeMeta)
    (perInterface : List CheckName) : List (StoredThreshold × Bool) :=
  matchingRules (rules.filter fun t => decide (t.rule.metric ∈ perInterface)) node (some ifindex)
    nodeMeta

end Yagra
