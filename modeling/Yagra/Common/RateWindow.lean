import Yagra.Common.State
import Yagra.Lib.TreeMap
import Mathlib.Algebra.Order.Ring.Nat

/-!
# `Yagra.Common.RateWindow`: the rate windows of a counter query

A rate needs two samples inside its window, and nodes are polled at intervals of their own. So a
query is split into classes, each with one window and the nodes it reads through it
(`windowClasses`), and a row that a class answers is kept only by the class that owns its node
(`ClassOwners.of`).

`byNode` is a hash map in the source. Its order reaches no result: each class is sorted before use.
Here it is an ordered map, which lists its entries sorted.
-/

set_option autoImplicit false

namespace Yagra

open Std (ExtTreeMap)
open Lib (collect)

/-- A window that holds two samples of a counter polled every `interval` seconds, and is never
narrower than `floor`. -/
def rateWindowSecs (floor : Nat) (interval : Option Nat) : Nat :=
  interval.elim (max floor 1) fun secs => max (max floor 1) (secs * 2)

/-- Every node's poll interval as of one rebuild of the scheduler. -/
structure IntervalSnapshot where
  defaultSecs : Nat
  /-- Only the nodes whose interval is not the default. -/
  byNode : ExtTreeMap NodeId Nat
  /-- The slowest interval, the default included. -/
  fleetMax : Nat
  default_le : defaultSecs ≤ fleetMax
  node_le : ∀ (node : NodeId) (secs : Nat), byNode[node]? = some secs → secs ≤ fleetMax

namespace IntervalSnapshot

variable (defaultSecs : Nat) (nodes : List (NodeId × Nat))

/-- Keep the entry of a node that is off the default. -/
def keep (m : ExtTreeMap NodeId Nat) (e : NodeId × Nat) : ExtTreeMap NodeId Nat :=
  if e.2 ≠ defaultSecs then m.insert e.1 e.2 else m

theorem le_foldl_max (m : Nat) : m ≤ nodes.foldl (fun m e => max m e.2) m := by
  induction nodes generalizing m with
  | nil => exact Nat.le_refl m
  | cons e rest ih => exact Nat.le_trans (Nat.le_max_left m e.2) (ih _)

theorem kept_le (m : ExtTreeMap NodeId Nat) (top : Nat)
    (h : ∀ (node : NodeId) (secs : Nat), m[node]? = some secs → secs ≤ top) (node : NodeId)
    (secs : Nat) (hkept : (nodes.foldl (keep defaultSecs) m)[node]? = some secs) :
    secs ≤ nodes.foldl (fun m e => max m e.2) top := by
  induction nodes generalizing m top with
  | nil => exact h node secs hkept
  | cons e rest ih =>
    refine ih (keep defaultSecs m e) (max top e.2) (fun node' secs' hsecs => ?_) hkept
    unfold keep at hsecs
    split at hsecs
    · rw [ExtTreeMap.getElem?_insert] at hsecs
      split at hsecs
      · exact Option.some.inj hsecs ▸ Nat.le_max_right top e.2
      · exact Nat.le_trans (h node' secs' hsecs) (Nat.le_max_left top e.2)
    · exact Nat.le_trans (h node' secs' hsecs) (Nat.le_max_left top e.2)

/-- The snapshot for a default and each node's interval. -/
def build : IntervalSnapshot where
  defaultSecs := defaultSecs
  byNode := nodes.foldl (keep defaultSecs) ∅
  fleetMax := nodes.foldl (fun m e => max m e.2) defaultSecs
  default_le := le_foldl_max nodes defaultSecs
  node_le := kept_le defaultSecs nodes ∅ defaultSecs fun _ _ h => by simp at h

/-- A node that is not named polls at the default. -/
def forNode (snap : IntervalSnapshot) (node : NodeId) : Nat :=
  (snap.byNode[node]?).getD snap.defaultSecs

end IntervalSnapshot

/-- Nodes that share a window. -/
structure WindowClass where
  windowSecs : Nat
  /-- The nodes to name, or every node no other class names. -/
  nodes : Option (List NodeId)

/-- Beyond this many, nodes are not named in a query. -/
def namedNodesMax : Nat := 1000

section
variable (snap : IntervalSnapshot) (floor : Nat)

/-- The window of a node. -/
def IntervalSnapshot.window (node : NodeId) : Nat := rateWindowSecs floor (some (snap.forNode node))

/-- The window of a node on the default interval. -/
def IntervalSnapshot.base : Nat := rateWindowSecs floor (some snap.defaultSecs)

/-- The nodes off the default window, by window. -/
def IntervalSnapshot.named : ExtTreeMap Nat (List (NodeId × Nat)) :=
  collect (fun e => rateWindowSecs floor (some e.2))
    (snap.byNode.toList.filter fun e => decide (rateWindowSecs floor (some e.2) ≠ snap.base floor))

/-- How many nodes those are. -/
def IntervalSnapshot.namedCount : Nat :=
  ((snap.named floor).toList.map fun g => g.2.length).sum

end

/-- The classes of a query over `scope`, or over the fleet. -/
def windowClasses (snapshot : Option IntervalSnapshot) (floor : Nat)
    (scope : Option (List NodeId)) :
    List WindowClass :=
  match snapshot with
  | none => [⟨rateWindowSecs floor none, scope⟩]
  | some snap =>
    match scope with
    | some ids =>
      let groups := collect (snap.window floor) ids
      if groups.isEmpty then [⟨snap.base floor, some []⟩]
      else groups.toList.map fun g => ⟨g.1, some g.2⟩
    | none =>
      if snap.namedCount floor = 0 then [⟨snap.base floor, none⟩]
      else if namedNodesMax < snap.namedCount floor then
        -- Too many to name: one query through the slowest window.
        [⟨rateWindowSecs floor (some snap.fleetMax), none⟩]
      else
        ⟨snap.base floor, none⟩ :: (snap.named floor).toList.map fun g =>
          ⟨g.1, some (g.2.map Prod.fst)⟩

/-! ### The owners of the rows -/

/-- Which class owns the rows of a node. -/
structure ClassOwners where
  named : NodeId → Option Nat
  remainder : Option Nat

namespace ClassOwners

/-- File one class under its index. -/
def file (owners : ClassOwners) (entry : WindowClass × Nat) : ClassOwners :=
  match entry.1.nodes with
  | some nodes =>
    { owners with
      named := nodes.foldl (fun m node => Function.update m node (some entry.2)) owners.named }
  | none => { owners with remainder := some entry.2 }

/-- The owners of some classes. -/
def of (classes : List WindowClass) : ClassOwners := classes.zipIdx.foldl file ⟨fun _ => none, none⟩

/-- Whether class `index` owns rows about `node`. -/
def owns (owners : ClassOwners) (index : Nat) (node : NodeId) : Bool :=
  match owners.named node with
  | some owner => owner == index
  | none => owners.remainder == some index

end ClassOwners

end Yagra
