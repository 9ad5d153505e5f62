import Yagra.Common.Address
import Yagra.Lib.OrdSet

/-!
# `Yagra.Topology.Derive`: the connectivity graph from what devices reported

`deriveLinks` reads the inventory, the interface addresses, the neighbour tables and the routing
adjacencies of all nodes, and what operators decided. It finds out which node an address stands for,
and makes links from three kinds of evidence in turn: nodes with an address in the same network,
rows of the neighbour tables, and rows of the routing adjacencies. The links of a pair are merged in
this order. Then the decisions are applied, and last a node is kept to a number of links.

A loop of the source that goes over rows is here a function of one row (`neighborRow`, `routingRow`,
`segmentLinks`), and its counters count the rows with an outcome. A sorted map from addresses or
networks to nodes is here the function it stands for, and the keys in their order where the source
goes over them. Counters have no upper bound, except the two the source converts from a size.

The management address of a row is the address its text parses to.
-/

set_option autoImplicit false

namespace Yagra

open Yagra.Lib

/-!
## A derived link, and what an operator decides about it

A link joins an unordered pair of nodes. `LinkKey` is the pair with the smaller id first, so that a
link has one key. `DerivedLink.merge` folds another observation of the same link in: sources
accumulate, and a port is filled in, or overwritten by a stronger source.

The sources of a link are kept in the order of their strength and without repetition, which the
source does by sorting after each merge. A subnet is kept as the network, which the source prints.
-/

/-- What produced a link. -/
inductive LinkSource where
  | manual | lldp | cdp | ospf | route | bgp | l3Subnet
deriving DecidableEq, Repr

namespace LinkSource

/-- The strength of a source, strongest first. -/
def rank : LinkSource → Nat
  | manual => 0
  | lldp => 1
  | cdp => 2
  | ospf => 3
  | route => 4
  | bgp => 5
  | l3Subnet => 6

theorem rank_injective : Function.Injective rank := by
  intro x y
  cases x <;> cases y <;> simp [rank]

instance : LinearOrder LinkSource := LinearOrder.lift' rank rank_injective

/-- The strongest source of a set. -/
def best (sources : OrdSet LinkSource) : Option LinkSource := sources.toList.min?

end LinkSource

/-- An unordered pair of nodes. -/
structure LinkKey where
  aNode : NodeId
  bNode : NodeId
  ordered : aNode ≤ bNode
deriving DecidableEq, Repr

namespace LinkKey

/-- The pair of two nodes. -/
def of (x y : NodeId) : LinkKey :=
  if h : x ≤ y then ⟨x, y, h⟩ else ⟨y, x, Nat.le_of_not_le h⟩

theorem rank_injective : Function.Injective fun k : LinkKey => toLex (k.aNode, k.bNode) := by
  intro x y h
  cases x
  cases y
  simp_all

/-- The order of the key texts is that of the ids, first of the smaller ones. -/
instance : LinearOrder LinkKey := LinearOrder.lift' _ rank_injective

instance : Std.TransCmp (compare : LinkKey → LinkKey → Ordering) := inferInstance

instance : Std.LawfulEqCmp (compare : LinkKey → LinkKey → Ordering) where
  eq_of_compare h := compare_eq_iff_eq.1 h

end LinkKey

/-- A link, with its ports and sources. -/
structure DerivedLink where
  key : LinkKey
  aIfindex : Option Nat
  bIfindex : Option Nat
  aIfName : Option String
  bIfName : Option String
  sources : OrdSet LinkSource
  /-- The network of a link from shared membership. -/
  subnet : Option SubnetKey
  /-- The end an operator declared upstream. -/
  forcedParent : Option NodeId
deriving DecidableEq

namespace DerivedLink

/-- A bare link. -/
def new (x y : NodeId) (source : LinkSource) : DerivedLink :=
  { key := .of x y, aIfindex := none, bIfindex := none, aIfName := none, bIfName := none
    sources := OrdSet.ofList [source], subnet := none, forcedParent := none }

/-- Whether a node is the end that is stored first. -/
def isA (l : DerivedLink) (node : NodeId) : Bool := decide (l.key.aNode = node)

/-- Whether what comes in is from a stronger source than all so far. -/
def incomingIsStronger (cur new : OrdSet LinkSource) : Bool :=
  match LinkSource.best new, LinkSource.best cur with
  | some new, some cur => decide (new.rank < cur.rank)
  | some _, none => true
  | none, _ => false

/-- Fill a field in, or overwrite it when what comes in is stronger. -/
def take {α : Type} (stronger : Bool) (cur new : Option α) : Option α :=
  if new.isSome && (cur.isNone || stronger) then new else cur

/-- Fold another observation of the same link in. -/
def merge (self other : DerivedLink) : DerivedLink :=
  let stronger := incomingIsStronger self.sources other.sources
  { self with
      sources := self.sources.extend other.sources.toList
      aIfindex := take stronger self.aIfindex other.aIfindex
      bIfindex := take stronger self.bIfindex other.bIfindex
      aIfName := take stronger self.aIfName other.aIfName
      bIfName := take stronger self.bIfName other.bIfName
      subnet := if self.subnet.isNone then other.subnet else self.subnet
      forcedParent := if self.forcedParent.isNone then other.forcedParent else self.forcedParent }

end DerivedLink

/-! ### Operator decisions -/

/-- What an operator decides. -/
inductive LinkOverrideAction where
  | pin | hide | direction
deriving DecidableEq, Repr

/-- Which end of a link is upstream. -/
inductive LinkDirection where
  | aParent | bParent
deriving DecidableEq, Repr

/-- A decision about a pair. -/
structure LinkOverride where
  aNode : NodeId
  bNode : NodeId
  action : LinkOverrideAction
  direction : Option LinkDirection
deriving DecidableEq, Repr

namespace LinkOverride

variable (ov : LinkOverride)

/-- The node the decision names as upstream, by the ends as they were given. -/
def forcedParent : Option NodeId :=
  match ov.action, ov.direction with
  | .direction, some .aParent => some ov.aNode
  | .direction, some .bParent => some ov.bNode
  | _, _ => none

/-- The pair the decision is about. -/
def key : LinkKey := .of ov.aNode ov.bNode

/-- The link the decision stands for. -/
def manual : DerivedLink :=
  { DerivedLink.new ov.aNode ov.bNode .manual with forcedParent := ov.forcedParent }

end LinkOverride

/-- What a run observed but did not turn into a link. -/
structure TopologyLinkSummary where
  l3Links : Nat
  cdpLinks : Nat
  lldpLinks : Nat
  ospfLinks : Nat
  routeLinks : Nat
  bgpLinks : Nat
  unmatchedRoutingPeers : Nat
  bgpPeersNotAdjacent : Nat
  unmatchedLldpRows : Nat
  unmatchedCdpRows : Nat
  ambiguousMgmtAddrs : Nat
  duplicateAddresses : Nat
  oversizedSegments : Nat
  subnetPrefixMismatch : Nat
  truncatedNodes : Nat
deriving DecidableEq, Repr

/-- How many links of a node are kept. -/
def maxLinksPerNode : Nat := 512

end Yagra

namespace Yagra.Topology

open Std (ExtTreeMap)
open Yagra.Lib
open OrdSet (ofList)

/-! ## Deriving the links -/

/-- How many members of a network are considered. -/
def maxMembersPerSubnet : Nat := 1024

/-- How many members of a segment are taken for routers. -/
def maxRoutersPerSegment : Nat := 8

/-- Which table a row is from. -/
inductive NeighborProto where
  | lldp | cdp
deriving DecidableEq, Repr

/-- What a chassis id is. -/
inductive NeighborIdKind where
  | mac | networkAddress | text | hex | unknown
deriving DecidableEq, Repr

/-- A row of a neighbour table. -/
structure Neighbor where
  proto : NeighborProto
  localPort : String
  localIfindex : Option Nat
  remoteChassis : String
  remoteChassisKind : Option NeighborIdKind
  remoteMgmtAddr : Option IpAddr
deriving DecidableEq, Repr

/-- What an adjacency is from. -/
inductive RoutingProto where
  | ospf | route | bgp
deriving DecidableEq, Repr

/-- A routing adjacency. -/
structure RoutingAdjacency where
  proto : RoutingProto
  peer : IpAddr
  localIfindex : Option Nat
deriving DecidableEq, Repr

/-- The adjacencies of a node. -/
structure RoutingSnapshot where
  adjacencies : List RoutingAdjacency
  truncated : Bool
deriving DecidableEq, Repr

/-- Everything the derivation reads. -/
structure DeriveInput where
  nodes : List (NodeId × IpAddr)
  l3 : List (NodeId × L3Snapshot)
  neighbors : List (NodeId × List Neighbor)
  routing : List (NodeId × RoutingSnapshot)
  overrides : List LinkOverride
  /-- Hardware addresses of listed devices, as the listing spells them, with the node each is bound
  to. -/
  chassisMacs : List (String × Option NodeId)
deriving DecidableEq, Repr

/-- The graph, and what is not in it. -/
structure DeriveOutput where
  links : List DerivedLink
  summary : TopologyLinkSummary
  unsure : OrdSet NodeId
deriving DecidableEq

/-- The management address of a row, when it is one. -/
def Neighbor.usableMgmtAddr (nb : Neighbor) : Option IpAddr :=
  nb.remoteMgmtAddr.filter fun ip => !ip.isUnspecified

/-- The source of a neighbour row. -/
def Neighbor.source (nb : Neighbor) : LinkSource :=
  match nb.proto with
  | .lldp => .lldp
  | .cdp => .cdp

/-- The source of an adjacency. -/
def RoutingProto.linkSource : RoutingProto → LinkSource
  | ospf => .ospf
  | route => .route
  | bgp => .bgp

/-- Whether an adjacency is evidence of a link without more. -/
def RoutingProto.impliesDirectLink : RoutingProto → Bool
  | ospf | route => true
  | bgp => false

/-- A size as a 32-bit counter. -/
def saturate (n : Nat) : Nat := min n (2 ^ 32 - 1)

/-- The one claimant, if there is exactly one. -/
def soleClaimant {T : Type} [DecidableEq T] (claimants : List T) : Option T :=
  match claimants.dedup with
  | [claimant] => some claimant
  | _ => none

namespace DeriveInput

/-! ### Who owns which address -/

variable (inp : DeriveInput) (ip : IpAddr)

/-- The inventory addresses and the interface addresses, each with its node. -/
def claims : List (IpAddr × NodeId) :=
  inp.nodes.map (fun n => (n.2, n.1)) ++
    inp.l3.flatMap fun s => s.2.addresses.map fun a => (a.ip, s.1)

/-- The nodes that claim an address. -/
def claimants : List NodeId :=
  (inp.claims.filter fun c => decide (c.1 = ip)).map (·.2)

/-- An address that more than one node claims. -/
def contested : Bool :=
  decide (1 < (inp.claimants ip).dedup.length)

/-- The node an address stands for. -/
def owner : Option NodeId := soleClaimant (inp.claimants ip)

/-- The addresses that could place a node on a segment. -/
def edgeEligible : OrdSet IpAddr :=
  ofList (inp.l3.flatMap fun s => (s.2.addresses.filter (·.canFormSubnetEdge)).map (·.ip))

/-- How many such addresses are contested. -/
def duplicateAddresses : Nat :=
  saturate (inp.edgeEligible.toList.filter inp.contested).length

/-- The nodes a hardware address is listed for. An unbound listing is a claimant like any other. -/
def macClaimants (mac : Mac) : List (Option NodeId) :=
  (inp.chassisMacs.filter fun c => decide (parseMac c.1 = some mac)).map (·.2)

/-- The node a hardware address stands for. -/
def macOwner (mac : Mac) : Option NodeId :=
  (soleClaimant (inp.macClaimants mac)).join

/-! ### Shared networks -/

/-- The networks of a snapshot, without those of contested addresses. -/
def uncontestedSubnets (snap : L3Snapshot) : List SubnetKey :=
  snap.addresses.filterMap fun a => if inp.contested a.ip then none else a.subnet

/-- Which node has an address in which network. -/
def memberships : List (SubnetKey × NodeId) :=
  inp.l3.flatMap fun s => (inp.uncontestedSubnets s.2).map fun key => (key, s.1)

/-- All networks. -/
def subnetKeys : OrdSet SubnetKey := ofList (inp.memberships.map (·.1))

/-- The nodes in a network, in the order of their ids. -/
def membersOf (key : SubnetKey) : OrdSet NodeId :=
  ofList ((inp.memberships.filter fun m => decide (m.1 = key)).map (·.2))

/-- The snapshot of a node. The last one counts. -/
def snapshotOf (node : NodeId) : Option L3Snapshot :=
  ((inp.l3.filter fun s => decide (s.1 = node)).getLast?).map (·.2)

/-- In how many networks a node has an address. -/
def networkCount (node : NodeId) : Nat :=
  ((inp.snapshotOf node).map fun snap =>
    (ofList (inp.uncontestedSubnets snap)).toList.length).getD 0

/-- Network addresses that occur under more than one prefix length. -/
def subnetPrefixMismatch : Nat :=
  let keys := inp.subnetKeys.toList
  saturate ((ofList (keys.map (·.network))).toList.filter fun network =>
    decide
      (1 < ((keys.filter fun k => decide (k.network = network)).map (·.prefixLen)).dedup.length)
  ).length

end DeriveInput

/-- A link between two members of a network. -/
def segmentLink (key : SubnetKey) (x y : NodeId) : DerivedLink :=
  { DerivedLink.new x y .l3Subnet with subnet := some key }

/-- The pairs of a list, each once. -/
def pairs {α : Type} : List α → List (α × α)
  | [] => []
  | a :: rest => rest.map (fun b => (a, b)) ++ pairs rest

variable (count : NodeId → Nat) (members : List NodeId)

/-- The largest number of networks a member has an address in. -/
def maxNetworks : Nat :=
  (members.map count).foldl max 0

/-- The members that route for the others. -/
def routersOf : List NodeId :=
  (members.filter fun n => decide (count n = maxNetworks count members)).take maxRoutersPerSegment

/-- The links of one network. -/
def segmentLinks (key : SubnetKey) (members : List NodeId) : List DerivedLink :=
  let m := members.take maxMembersPerSubnet
  match m with
  | [] | [_] => []
  -- A point-to-point network.
  | [x, y] => [segmentLink key x y]
  | m =>
    if maxNetworks count m < 2 then []
    else
      let routers := routersOf count m
      -- Every other member is linked to every router, and the routers to each other.
      (m.filter fun n => decide (n ∉ routers)).flatMap (fun n => routers.map (segmentLink key n)) ++
        (pairs routers).map fun p => segmentLink key p.1 p.2

/-- How often a network counts as oversized: for members left out, and for having no router. -/
def segmentOversized : Nat :=
  let m := members.take maxMembersPerSubnet
  (if maxMembersPerSubnet < members.length then 1 else 0) +
    (if 2 < m.length ∧ maxNetworks count m < 2 then 1 else 0)

/-- What a row comes to. -/
inductive RowOutcome where
  | link (l : DerivedLink)
  /-- The address is contested. -/
  | ambiguous
  /-- No node is known by what the row says. -/
  | unmatched
  /-- The node describes itself. -/
  | loop
  /-- The session says nothing about a link. -/
  | notAdjacent
deriving DecidableEq

/-- The link of a row. -/
def RowOutcome.link? : RowOutcome → Option DerivedLink
  | .link l => some l
  | _ => none

/-- The port of the reporting node, on its side of the link. -/
def withLocal (l : DerivedLink) (node : NodeId) (name : Option String) (ifindex : Option Nat) :
    DerivedLink :=
  if l.isA node then { l with aIfName := name, aIfindex := ifindex }
  else { l with bIfName := name, bIfindex := ifindex }

/-- Whether an address is in one of the networks. -/
def terminates (subnets : Option (List SubnetKey)) (peer : IpAddr) : Bool :=
  match subnets with
  | none => false
  | some subnets => subnets.any fun key => decide (subnetKey peer key.prefixLen = some key)

namespace DeriveInput

/-! ### Rows -/

variable (inp : DeriveInput)

/-- The node a neighbour row is about, by its chassis id. -/
def chassisPeer (nb : Neighbor) : Option NodeId :=
  if nb.remoteChassisKind = some .mac then (parseMac nb.remoteChassis).bind inp.macOwner else none

/-- A row of the neighbour table of `id`. -/
def neighborRow (id : NodeId) (nb : Neighbor) : RowOutcome :=
  let peer := match nb.usableMgmtAddr with
    | some ip => if inp.contested ip then none else some (inp.owner ip)
    | none => some (inp.chassisPeer nb)
  match peer with
  | none => .ambiguous
  | some none => .unmatched
  | some (some peer) =>
    if peer = id then .loop
    else .link (withLocal (.new id peer nb.source) id (some nb.localPort) nb.localIfindex)

/-- A row of the routing adjacencies of `id`. -/
def routingRow (id : NodeId) (adj : RoutingAdjacency) : RowOutcome :=
  if inp.contested adj.peer then .ambiguous
  else
    match inp.owner adj.peer with
    | none => .unmatched
    | some peer =>
      if peer = id then .loop
      else if !adj.proto.impliesDirectLink &&
          !terminates ((inp.snapshotOf id).map fun s => s.addresses.filterMap (·.subnet)) adj.peer
      then .notAdjacent
      else .link (withLocal (.new id peer adj.proto.linkSource) id none adj.localIfindex)

/-- The rows of the neighbour tables, each with its node. -/
def neighborRows : List (NodeId × Neighbor) :=
  inp.neighbors.flatMap fun s => s.2.map fun nb => (s.1, nb)

/-- The rows of the routing adjacencies, each with its node. -/
def routingRows : List (NodeId × RoutingAdjacency) :=
  inp.routing.flatMap fun s => s.2.adjacencies.map fun adj => (s.1, adj)

/-- What a neighbour row comes to. -/
def neighborOutcome (row : NodeId × Neighbor) : RowOutcome :=
  inp.neighborRow row.1 row.2

/-- What an adjacency comes to. -/
def routingOutcome (row : NodeId × RoutingAdjacency) : RowOutcome :=
  inp.routingRow row.1 row.2

/-! ### The links before the decisions -/

/-- The links from shared networks, network by network. -/
def segmentsLinks : List DerivedLink :=
  inp.subnetKeys.toList.flatMap fun key =>
    segmentLinks inp.networkCount key (inp.membersOf key).toList

/-- The links from rows. -/
def rowLinks : List DerivedLink :=
  inp.neighborRows.filterMap (fun row => (inp.neighborOutcome row).link?) ++
    inp.routingRows.filterMap fun row => (inp.routingOutcome row).link?

/-- Every link the observations give, in the order in which they are merged. -/
def observations : List DerivedLink := inp.segmentsLinks ++ inp.rowLinks

end DeriveInput

/-- The links by their pairs. -/
abbrev LinkMap := ExtTreeMap LinkKey DerivedLink

variable (links : LinkMap)

/-- Add a link, or merge it into the one that is there. -/
def addLink (l : DerivedLink) : LinkMap :=
  links.alter l.key fun
    | some existing => some (existing.merge l)
    | none => some l

/-- The links before the decisions. -/
def DeriveInput.observed (inp : DeriveInput) : LinkMap := inp.observations.foldl addLink ∅

/-! ### Manual decisions -/

/-- A decision other than to hide. A direction annotates a link that is there. -/
def applyOverride (ov : LinkOverride) : LinkMap :=
  match ov.action with
  | .pin => addLink links ov.manual
  | .direction => links.modify ov.key fun l => { l with forcedParent := ov.forcedParent }
  | .hide => links

/-- Apply the decisions, those to hide last. -/
def applyOverrides (overrides : List LinkOverride) : LinkMap :=
  let links := (overrides.filter fun ov => decide (ov.action ≠ .hide)).foldl applyOverride links
  (overrides.filter fun ov => decide (ov.action = .hide)).foldl
    (fun links ov => links.erase ov.key) links

/-! ### The limit on the links of a node -/

/-- What is kept so far. -/
structure Capped where
  perNode : ExtTreeMap NodeId Nat
  links : List DerivedLink
  dropped : Nat

namespace Capped

/-- Before the first link. -/
def empty : Capped := ⟨∅, [], 0⟩

/-- How many links of a node are kept. -/
def linksOf (s : Capped) (node : NodeId) : Nat := s.perNode.getD node 0

/-- Count one more link of a node. -/
def bump (s : Capped) (node : NodeId) : Capped :=
  { s with perNode := s.perNode.insert node (s.linksOf node + 1) }

/-- Whether one end of a pair has as many links as it may. -/
def full (s : Capped) (k : LinkKey) : Bool :=
  decide (maxLinksPerNode ≤ s.linksOf k.aNode) || decide (maxLinksPerNode ≤ s.linksOf k.bNode)

/-- Keep a link, unless one of its ends has as many as it may. -/
def capLink (s : Capped) (l : DerivedLink) : Capped :=
  if s.full l.key then { s with dropped := s.dropped + 1 }
  else { (s.bump l.key.aNode).bump l.key.bNode with links := s.links ++ [l] }

end Capped

/-- The links in the order of their pairs. -/
def linkList : List DerivedLink := links.toList.map (·.2)

/-- Apply the limit. -/
def capLinks : Capped := (linkList links).foldl Capped.capLink .empty

/-- How many of the links have a source as their strongest. -/
def countBest (source : LinkSource) (links : List DerivedLink) : Nat :=
  links.countP fun l => decide (LinkSource.best l.sources = some source)

/-- The connectivity graph. -/
def deriveLinks (inp : DeriveInput) : DeriveOutput :=
  let capped := capLinks (applyOverrides inp.observed inp.overrides)
  let neighborCount := fun (p : NeighborProto → Bool) (o : RowOutcome) =>
    inp.neighborRows.countP fun row => p row.2.proto && decide (inp.neighborOutcome row = o)
  let routingCount := fun (o : RowOutcome) =>
    inp.routingRows.countP fun row => decide (inp.routingOutcome row = o)
  { links := capped.links
    summary :=
      { l3Links := countBest .l3Subnet capped.links
        cdpLinks := countBest .cdp capped.links
        lldpLinks := countBest .lldp capped.links
        ospfLinks := countBest .ospf capped.links
        routeLinks := countBest .route capped.links
        bgpLinks := countBest .bgp capped.links
        unmatchedRoutingPeers := routingCount .unmatched
        bgpPeersNotAdjacent := routingCount .notAdjacent
        unmatchedLldpRows := neighborCount (fun p => decide (p = .lldp)) .unmatched
        unmatchedCdpRows := neighborCount (fun p => decide (p = .cdp)) .unmatched
        ambiguousMgmtAddrs :=
          neighborCount (fun _ => true) .ambiguous + routingCount .ambiguous
        duplicateAddresses := inp.duplicateAddresses
        oversizedSegments :=
          (inp.subnetKeys.toList.map fun key =>
            segmentOversized inp.networkCount (inp.membersOf key).toList).sum + capped.dropped
        subnetPrefixMismatch := inp.subnetPrefixMismatch
        truncatedNodes :=
          inp.l3.countP (·.2.truncated) + inp.routing.countP (·.2.truncated) }
    -- The nodes with a row that names no node, or one of several.
    unsure := ofList ((inp.neighborRows.filter fun row =>
      decide (inp.neighborOutcome row = .ambiguous) || decide (inp.neighborOutcome row = .unmatched)
      ).map (·.1)) }

end Yagra.Topology
