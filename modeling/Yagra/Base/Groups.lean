import Mathlib.Data.String.Basic
import Yagra.Common.State
import Yagra.Lib.Walk

/-!
# `Yagra.Base.Groups`: the folders above a folder and beneath it

Folders form a forest by their parent links, which come from a table and can be wrong: a parent
can be missing, and links can form a cycle. `resolveNearestAncestor` finds for each folder the
nearest folder at or above it that carries a value. It walks up from each folder in turn and
writes the answer to every folder it came through. `accumulateAncestorLabels` walks the same way
and then comes back down, adding and refusing the labels of each folder.

The walk ends after `maxGroupDepth` folders. Here that bound is the number of folders the walk
may still visit. The order in which the hash map yields the folders is a parameter of
`resolveInOrder`.

`groupSubtree` goes the other way, from a folder to those beneath it. It is read as a set.
`mem_groupSubtree` says that it holds every folder below the root, also where links form a cycle.
`groupSubtreeOrder` is the same walk as a list. `groupAncestors` climbs to the folders above one,
and `wouldCreateCycle` climbs from a new parent to see whether a move would close a loop.
-/

set_option autoImplicit false

namespace Yagra.Groups

open Std (ExtTreeMap)
open Yagra.Lib

variable {T : Type}

/-- How deep a chain of folders may be. -/
def maxGroupDepth : Nat := 64

/-- The walk up from a folder: the folders it came through, and the value it found with the
folder that carries it. `fuel` is how many more folders it may visit. -/
def walkUp (own : ExtTreeMap GroupId (Option GroupId × Option T))
    (resolved : ExtTreeMap GroupId (T × GroupId)) :
    Nat → List GroupId → Option GroupId → List GroupId × Option (T × GroupId)
  | _, chain, none => (chain, none)
  | 0, chain, some id => (chain, resolved[id]?)
  | fuel + 1, chain, some id =>
    match resolved[id]? with
    | some found => (chain, some found)
    | none =>
      -- A cycle has nothing to inherit.
      if id ∈ chain then (chain, none)
      else
        match own[id]? with
        | none => (chain, none)
        | some (_, some v) => (chain ++ [id], some (v, id))
        | some (parent, none) => walkUp own resolved fuel (chain ++ [id]) parent

/-- One folder of the outer loop. -/
def resolveGroup (own : ExtTreeMap GroupId (Option GroupId × Option T))
    (resolved : ExtTreeMap GroupId (T × GroupId)) (start : GroupId) :
    ExtTreeMap GroupId (T × GroupId) :=
  if start ∈ resolved then resolved
  else
    match walkUp own resolved (maxGroupDepth + 1) [] (some start) with
    | (_, none) => resolved
    | (chain, some found) => chain.foldl (fun r id => r.insert id found) resolved

/-- The outer loop over the folders in some order. -/
def resolveInOrder (own : ExtTreeMap GroupId (Option GroupId × Option T))
    (order : List GroupId) : ExtTreeMap GroupId (T × GroupId) :=
  order.foldl (resolveGroup own) ∅

/-- For each folder, the nearest value at or above it and the folder that carries the value. -/
def resolveNearestAncestor (rows : List (GroupId × Option GroupId × Option T)) :
    ExtTreeMap GroupId (T × GroupId) :=
  let own := ExtTreeMap.ofList rows
  resolveInOrder own own.keys

/-! ### Labels -/

/-- A folder's parent, the labels added there and the labels refused there. -/
abbrev LabelRow := Option GroupId × List String × List String

section Labels

variable (own : ExtTreeMap GroupId LabelRow) (resolved : ExtTreeMap GroupId (OrdSet String))

/-- The labels of a folder, from those of the folders above it. -/
def foldLabels (id : GroupId) (acc : OrdSet String) : OrdSet String :=
  match own[id]? with
  | none => acc
  | some (_, add, remove) => (acc.eraseAll remove).extend add

/-- The walk up for labels: the folders it came through, and the labels of where it ended. -/
def walkLabels : Nat → List GroupId → Option GroupId → List GroupId × OrdSet String
  | _, chain, none => (chain, ∅)
  | 0, chain, some id => (chain, resolved.getD id ∅)
  | fuel + 1, chain, some id =>
    match resolved[id]? with
    | some found => (chain, found)
    | none =>
      if id ∈ chain then (chain, ∅)
      else
        match own[id]? with
        | none => (chain, ∅)
        | some (parent, _) => walkLabels fuel (chain ++ [id]) parent

/-- Fills in the folders the walk came through, the topmost first. -/
def unwind (walked : List GroupId × OrdSet String) :
    OrdSet String × ExtTreeMap GroupId (OrdSet String) :=
  walked.1.foldr (fun id st =>
    (foldLabels own id st.1, st.2.insert id (foldLabels own id st.1))) (walked.2, resolved)

/-- One folder of the outer loop for labels. -/
def accumulateGroup (start : GroupId) : ExtTreeMap GroupId (OrdSet String) :=
  if start ∈ resolved then resolved
  else (unwind own resolved (walkLabels own resolved (maxGroupDepth + 1) [] (some start))).2

/-- The outer loop for labels over the folders in some order. -/
def accumulateInOrder (order : List GroupId) : ExtTreeMap GroupId (OrdSet String) :=
  order.foldl (accumulateGroup own) ∅

/-- For each folder, the labels of it and of every folder above it. -/
def accumulateAncestorLabels (rows : List (GroupId × LabelRow)) :
    ExtTreeMap GroupId (OrdSet String) :=
  let own := ExtTreeMap.ofList rows
  accumulateInOrder own own.keys

end Labels

/-! ### Subtrees -/

/-- The folders, each with its parent. -/
abbrev GroupEdges := List (GroupId × Option GroupId)

/-- A folder and every folder beneath it. -/
def groupSubtree (edges : GroupEdges) (root : GroupId) : OrdSet GroupId :=
  walk (fun (_ : Unit) cur => ((), (edges.filter fun e => decide (e.2 = some cur)).map Prod.fst))
    (fun id => decide (id ∈ edges.map Prod.fst)) (edges.length + 1) () (OrdSet.ofList [root]) [root]

/-- The subtree in the order the walk comes to it. -/
def groupSubtreeOrder (edges : GroupEdges) (root : GroupId) : List GroupId :=
  walkOrder (fun cur => (edges.filter fun e => decide (e.2 = some cur)).map Prod.fst)
    (fun id => decide (id ∈ edges.map Prod.fst)) (edges.length + 1) (.ofList [root]) [root]

section
variable {edges : GroupEdges}

theorem mem_children {cur id : GroupId} :
    id ∈ (edges.filter fun e => decide (e.2 = some cur)).map Prod.fst ↔ (id, some cur) ∈ edges := by
  simp

theorem listed_of_mem_children (cur id : GroupId)
    (h : id ∈ (edges.filter fun e => decide (e.2 = some cur)).map Prod.fst) :
    decide (id ∈ edges.map Prod.fst) = true :=
  decide_eq_true ((List.filter_sublist.map _).subset h)

/-- The subtree is what the parent links lead to from the root. -/
theorem mem_groupSubtree {root g : GroupId} : g ∈ groupSubtree edges root
    ↔ Relation.ReflTransGen (fun parent id => (id, some parent) ∈ edges) root g := by
  rw [groupSubtree,
    mem_walk_iff (fun m hm => of_decide_eq_true hm) listed_of_mem_children (by simp)]
  simp only [mem_children]

theorem groupSubtreeOrder_spec (edges : GroupEdges) (root : GroupId) :
    (groupSubtreeOrder edges root).Nodup ∧ ∀ g, g ∈ groupSubtreeOrder edges root ↔
      Relation.ReflTransGen (fun parent id => (id, some parent) ∈ edges) root g := by
  have hfuel : (edges.map Prod.fst).length + 1 ≤ edges.length + 1 := by simp
  have hspec :=
    walkOrder_spec (fun m hm => of_decide_eq_true hm) (@listed_of_mem_children edges) hfuel root
  simp only [mem_children] at hspec
  exact hspec

end

/-! ### The chain above a folder -/

section Chain
variable (edges : GroupEdges)

/-- The parent in the first row of a folder. -/
def parentOf (id : GroupId) : Option GroupId := (edges.find? fun e => e.1 = id).bind Prod.snd

/-- The loop of `groupAncestors`: `fuel` is how many more folders it may come to. -/
def climb : Nat → OrdSet GroupId → Option GroupId → List GroupId
  | 0, _, _ | _ + 1, _, none => []
  | fuel + 1, seen, some p =>
    if p ∈ seen then [] else p :: climb fuel (seen.insert p) (parentOf edges p)

/-- The folders above a folder, the nearest first. -/
def groupAncestors (start : GroupId) : List GroupId :=
  climb edges edges.length (.ofList [start]) (parentOf edges start)

/-- Whether the walk up comes to `moving`, or does not end in so many turns. -/
def comesTo (moving : GroupId) : Nat → Option GroupId → Bool
  | 0, _ => true
  | _ + 1, none => false
  | turns + 1, some p => p = moving || comesTo moving turns (parentOf edges p)

/-- Whether a folder would be its own ancestor under the new parent. -/
def wouldCreateCycle (moving : GroupId) (newParent : Option GroupId) : Bool :=
  comesTo edges moving (edges.length + 1) newParent

/-- The rows once a folder has the new parent. -/
def reparent (moving : GroupId) (newParent : Option GroupId) : GroupEdges :=
  edges.map fun e => if e.1 = moving then (e.1, newParent) else e

end Chain

end Yagra.Groups
