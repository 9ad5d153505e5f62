import Mathlib.Data.List.MinMax
import Mathlib.Data.Prod.Lex
import Yagra.Common.State
import Yagra.Lib.Walk

/-!
# `Yagra.Topology.Grouping`: who an outage is attributed to

When nodes go down, the down nodes that are linked to one another form a region. A down
node with a live neighbour is a border and pages on its own. A node inside the region is
rolled up under the node that speaks for it. `rootCause` answers for one node and
`attributeDown` answers for all down nodes at once, with each region computed once.

`LinkGraph` carries what its constructors guarantee: links go both ways, and the members of
a site are the nodes filed under it. `Yagra.Proofs.Grouping` shows from this that all nodes
of a region name one speaker, so that the table `attributeDown` builds agrees with
`rootCause` at every node.
-/

set_option autoImplicit false

namespace Yagra.Topology

open Yagra.Lib Function

/-- How strongly a node's alerts are grouped, weakest first. -/
inductive Level where
  | off | certain | links | site
deriving DecidableEq, Repr

/-- The levels, weakest first. -/
def Level.all : Vector Level 4 := #v[.off, .certain, .links, .site]

/-- The position of a level in its order. -/
def Level.order : Level → Nat
  | .off => 0
  | .certain => 1
  | .links => 2
  | .site => 3

/-- What kind of node speaks for a region first. -/
inductive Rank where
  | edge | l3Switch | l2Switch | accessPoint | other
deriving DecidableEq, Repr

/-- The position of a rank in its order. -/
def Rank.order : Rank → Nat
  | .edge => 0
  | .l3Switch => 1
  | .l2Switch => 2
  | .accessPoint => 3
  | .other => 4

/-- The links between nodes, and what the operator chose for each node. The last three
fields are what `addLink` and `setSite` maintain. -/
structure LinkGraph where
  physical : NodeId → OrdSet NodeId
  logical : NodeId → OrdSet NodeId
  unsure : OrdSet NodeId
  site : NodeId → Option GroupId
  siteMembers : GroupId → OrdSet NodeId
  rank : NodeId → Option Rank
  level : NodeId → Option Level
  defaultLevel : Level
  physical_symm : ∀ a b, b ∈ physical a → a ∈ physical b
  logical_symm : ∀ a b, b ∈ logical a → a ∈ logical b
  site_spec : ∀ n g, n ∈ siteMembers g ↔ site n = some g

namespace LinkGraph

/-- A graph without links whose nodes all group at one level. -/
def new (defaultLevel : Level) : LinkGraph where
  physical := fun _ => ∅
  logical := fun _ => ∅
  unsure := ∅
  site := fun _ => none
  siteMembers := fun _ => ∅
  rank := fun _ => none
  level := fun _ => none
  defaultLevel := defaultLevel
  physical_symm := by simp
  logical_symm := by simp
  site_spec := by simp

/-- One side of the links with the link between `a` and `b` added in both directions. -/
def linkSide (side : NodeId → OrdSet NodeId) (a b : NodeId) : NodeId → OrdSet NodeId :=
  let side := update side a ((side a).insert b)
  update side b ((side b).insert a)

variable {side : NodeId → OrdSet NodeId}

theorem mem_linkSide {a b x y : NodeId} :
    y ∈ linkSide side a b x ↔ y ∈ side x ∨ (x = a ∧ y = b) ∨ (x = b ∧ y = a) := by
  simp only [linkSide, update_apply]
  by_cases hb : x = b <;> by_cases ha : x = a <;> by_cases hab : b = a <;> simp_all <;> tauto

theorem linkSide_symm (h : ∀ x y, y ∈ side x → x ∈ side y) (a b x y : NodeId)
    (hy : y ∈ linkSide side a b x) : x ∈ linkSide side a b y := by
  rw [mem_linkSide] at hy ⊢
  rcases hy with hy | ⟨rfl, rfl⟩ | ⟨rfl, rfl⟩
  · exact .inl (h x y hy)
  · exact .inr (.inr ⟨rfl, rfl⟩)
  · exact .inr (.inl ⟨rfl, rfl⟩)

variable (g : LinkGraph) (node : NodeId) (level : Level)

/-- Add an undirected link; a node is not linked to itself. -/
def addLink (a b : NodeId) (isPhysical : Bool) : LinkGraph :=
  if a = b then g
  else if isPhysical then
    { g with
        physical := linkSide g.physical a b
        physical_symm := linkSide_symm g.physical_symm a b }
  else
    { g with
        logical := linkSide g.logical a b
        logical_symm := linkSide_symm g.logical_symm a b }

/-- Record that a node reported a neighbour that matched no node. -/
def markUnsure : LinkGraph :=
  { g with unsure := g.unsure.insert node }

/-- The members of each site once `node` has left the one it is filed under. -/
def siteMembersWithout : GroupId → OrdSet NodeId :=
  match g.site node with
  | some old => update g.siteMembers old ((g.siteMembers old).erase node)
  | none => g.siteMembers

theorem mem_siteMembersWithout {g : LinkGraph} {node n : NodeId} {s : GroupId} :
    n ∈ g.siteMembersWithout node s ↔ n ≠ node ∧ g.site n = some s := by
  cases hold : g.site node with
  | some old =>
    simp only [siteMembersWithout, hold]
    by_cases hs : s = old
    · subst hs
      rw [update_self, OrdSet.mem_erase, g.site_spec]
    · rw [update_of_ne hs, g.site_spec]
      refine ⟨fun h => ⟨?_, h⟩, And.right⟩
      rintro rfl
      exact hs (Option.some.inj (h.symm.trans hold))
  | none =>
    simp only [siteMembersWithout, hold, g.site_spec]
    refine ⟨fun h => ⟨?_, h⟩, And.right⟩
    rintro rfl
    simp [hold] at h

/-- File a node under a site, taking it out of the one it was filed under before. -/
def setSite (site : GroupId) : LinkGraph :=
  { g with
      site := update g.site node (some site)
      siteMembers := update (g.siteMembersWithout node) site
        ((g.siteMembersWithout node site).insert node)
      site_spec := by
        intro n s
        by_cases hs : s = site
        · subst hs
          by_cases hn : n = node <;> simp [hn, mem_siteMembersWithout]
        · by_cases hn : n = node
          · simp [hn, hs, mem_siteMembersWithout, Ne.symm hs]
          · simp [hn, hs, mem_siteMembersWithout] }

/-- Say what kind of node a node is. -/
def setRank (rank : Rank) : LinkGraph :=
  { g with rank := update g.rank node (some rank) }

/-- Set a node's own level. -/
def setLevel : LinkGraph :=
  { g with level := update g.level node (some level) }

/-- The graph at another level, with each node's own level kept. -/
def withDefaultLevel : LinkGraph :=
  { g with defaultLevel := level }

/-- The level a node groups at. -/
def levelOf : Level := (g.level node).getD g.defaultLevel

/-- The links a node is judged by at a level. Physical links hide logical ones. -/
def linksAt : Option (OrdSet NodeId) :=
  let physical := if g.physical node = ∅ then none else some (g.physical node)
  let logical := if g.logical node = ∅ then none else some (g.logical node)
  match level with
  | .off => none
  | .certain => physical
  | .links | .site => physical <|> logical

/-- The nodes a node is judged by at its own level. -/
def judgingNeighbours : List NodeId :=
  ((g.linksAt node (g.levelOf node)).map OrdSet.toList).getD []

/-- Whether a down node may be judged to sit inside a region at all. -/
def mayBeInside : Bool :=
  match level with
  | .off => false
  | .certain => (g.linksAt node level).isSome && decide (node ∉ g.unsure)
  | .links => (g.linksAt node level).isSome
  | .site => (g.linksAt node level).isSome || (g.site node).isSome

/-- Whether a node has a live neighbour among the links it is judged by. -/
def touchesALiveNode (down : OrdSet NodeId) : Bool :=
  (g.linksAt node level).any fun links => links.toList.any fun n => decide (n ∉ down)

/-- Whether a walk at this level follows logical links too. -/
def walksLogical : Level → Bool
  | .links | .site => true
  | .off | .certain => false

/-- What the walk lists for one node: its links, and at the site level the members of its
site unless an earlier node listed them. The state is the sites listed so far. -/
def visit (sitesWalked : OrdSet GroupId) (n : NodeId) : OrdSet GroupId × List NodeId :=
  let linked := (g.physical n).toList ++ (if walksLogical level then (g.logical n).toList else [])
  match level, g.site n with
  | .site, some s =>
    if s ∈ sitesWalked then (sitesWalked, linked)
    else (sitesWalked.insert s, linked ++ (g.siteMembers s).toList)
  | _, _ => (sitesWalked, linked)

/-- The down nodes connected to `start` at a level, `start` included. Each node joins the
queue at most once, so the number of down nodes bounds the loop. -/
def region (start : NodeId) (level : Level) (down : OrdSet NodeId) : OrdSet NodeId :=
  walk (g.visit level) (fun m => decide (m ∈ down)) (down.toList.length + 1) ∅
    (OrdSet.ofList [start]) [start]

/-- Lowest rank first, then lowest id. -/
def speakerKey (n : NodeId) : Nat ×ₗ NodeId :=
  toLex (((g.rank n).getD .other).order, n)

/-- Who speaks for a region: a border node if there is one, otherwise any node of it. -/
def speaker (region : OrdSet NodeId) (level : Level) (down : OrdSet NodeId) : Option NodeId :=
  let borders := region.toList.filter fun n => g.touchesALiveNode n level down
  let pool := if borders.isEmpty then region.toList else borders
  pool.argmin g.speakerKey

/-- Whether a down node is left to page on its own without looking at its region. -/
def pagesAlone (down : OrdSet NodeId) : Bool :=
  !g.mayBeInside node level || g.touchesALiveNode node level down

/-- The node a node's notification is rolled up into; `none` when it pages on its own. -/
def rootCause (down : OrdSet NodeId) : Option NodeId :=
  if node ∉ down then none
  else
    let level := g.levelOf node
    if g.pagesAlone node level down then none
    else (g.speaker (g.region node level down) level down).filter (fun s => s ≠ node)

/-- The table `attributeDown` builds: the speaker of each region met so far, by level and node,
and the root cause of each node rolled up so far. -/
structure Attribution where
  speakerOf : Level × NodeId → Option NodeId
  out : NodeId → Option NodeId

variable (g : LinkGraph) (down : OrdSet NodeId)

/-- One node of the loop in `attributeDown`. -/
def attributeStep (acc : Attribution) (node : NodeId) : Attribution :=
  let level := g.levelOf node
  if g.pagesAlone node level down then acc
  else
    match acc.speakerOf (level, node) with
    | some s => { acc with out := if s ≠ node then update acc.out node (some s)
                                  else acc.out }
    | none =>
      let region := g.region node level down
      match g.speaker region level down with
      | none => acc
      | some s =>
        { speakerOf := fun k =>
            if k.1 = level ∧ k.2 ∈ region then some s else acc.speakerOf k
          out := if s ≠ node then update acc.out node (some s) else acc.out }

/-- The root cause of every down node, each region computed once per level. -/
def attributeDown : NodeId → Option NodeId :=
  (down.toList.foldl (g.attributeStep down) ⟨fun _ => none, fun _ => none⟩).out

/-- How many of the down nodes page: those that are not rolled up. -/
def notifiedCount : Nat :=
  down.toList.length - down.toList.countP fun n => (g.attributeDown down n).isSome

end LinkGraph

end Yagra.Topology
