import Mathlib.Algebra.Order.BigOperators.Group.List
import Mathlib.Data.List.Induction
import Yagra.Common.RateWindow

/-!
# `Yagra.Proofs.RateWindow`: every node is read once, through a window wide enough

`window_classes_cover`: each node of the scope is owned by one class, and the window of that class
holds two samples of the node. It is the node's own window, unless too many nodes would have to be
named and the whole fleet is read through the slowest one.

A class owns a node by naming it, or by being the remainder when no class names it
(`ClassOwners.owns_named`, `ClassOwners.owns_remainder`). Two classes of a split have two windows,
so no two name the same node.
-/

set_option autoImplicit false

namespace Yagra

open Std (ExtTreeMap)
open Lib ClassOwners IntervalSnapshot List

theorem rateWindowSecs_mono (floor : Nat) {secs secs' : Nat} (h : secs ≤ secs') :
    rateWindowSecs floor (some secs) ≤ rateWindowSecs floor (some secs') := by
  show max (max floor 1) (secs * 2) ≤ max (max floor 1) (secs' * 2)
  omega

/-! ### Owners -/

/-- A loop that writes the index of each item with a property holds the index of one of them, or
nothing if there is none. -/
theorem written_index {α σ : Type} {f : σ → α × Nat → σ} (view : σ → Option Nat)
    {P : α → Prop}
    (hf : ∀ o e, view (f o e) = some e.2 ∧ P e.1 ∨ view (f o e) = view o ∧ ¬ P e.1) (l : List α)
    {o : σ} (ho : view o = none) :
    (∃ (i : Nat) (a : α), view (l.zipIdx.foldl f o) = some i ∧ l[i]? = some a ∧ P a) ∨
      view (l.zipIdx.foldl f o) = none ∧ ∀ a ∈ l, ¬ P a := by
  induction l using reverseRecOn with
  | nil => exact .inr ⟨ho, by simp⟩
  | append_singleton l a ih =>
    rw [zipIdx_append, foldl_append, zipIdx_singleton, foldl_cons,
      foldl_nil]
    rcases hf (l.zipIdx.foldl f o) (a, 0 + l.length) with ⟨heq, ha⟩ | ⟨heq, hnot⟩
    · exact .inl ⟨_, a, heq, by simp, ha⟩
    · rw [heq]
      refine ih.imp (fun ⟨i, b, hi, hb, hP⟩ => ⟨i, b, hi, ?_, hP⟩) fun ⟨hnone, hall⟩ => ⟨hnone, ?_⟩
      · rw [List.getElem?_append_left (List.getElem?_eq_some_iff.1 hb).1, hb]
      · exact forall_mem_append.2 ⟨hall, forall_mem_singleton.2 hnot⟩

/-- The class names the node. -/
def WindowClass.Names (c : WindowClass) (node : NodeId) : Prop :=
  ∃ nodes, c.nodes = some nodes ∧ node ∈ nodes

namespace ClassOwners
variable {classes : List WindowClass} {node : NodeId} {c : WindowClass} {i : Nat}

theorem foldl_update_apply (nodes : List NodeId) (m : NodeId → Option Nat) (i : Nat) :
    nodes.foldl (fun m node => Function.update m node (some i)) m node
      = if node ∈ nodes then some i else m node := by
  induction nodes generalizing m with
  | nil => simp
  | cons n rest ih =>
    rw [foldl_cons, ih]
    by_cases hn : node = n <;> simp [hn]

theorem named_of (classes : List WindowClass) (node : NodeId) :
    (∃ (i : Nat) (c : WindowClass), (of classes).named node = some i ∧ classes[i]? = some c ∧
        c.Names node) ∨
      (of classes).named node = none ∧ ∀ c ∈ classes, ¬ c.Names node := by
  refine written_index (fun o : ClassOwners => o.named node) (fun o e => ?_) classes rfl
  unfold file WindowClass.Names
  cases e.1.nodes with
  | none => simp
  | some nodes => by_cases hmem : node ∈ nodes <;> simp [foldl_update_apply, hmem]

theorem remainder_of (classes : List WindowClass) :
    (∃ (i : Nat) (c : WindowClass), (of classes).remainder = some i ∧ classes[i]? = some c ∧
        c.nodes = none) ∨
      (of classes).remainder = none ∧ ∀ c ∈ classes, ¬ c.nodes = none := by
  refine written_index remainder (fun o e => ?_) classes rfl
  unfold file
  cases e.1.nodes <;> simp

/-- The only class that names a node owns it. -/
theorem owns_named (hi : classes[i]? = some c) (hnames : c.Names node)
    (hunique : ∀ (k : Nat) (c' : WindowClass), classes[k]? = some c' → c'.Names node → k = i)
    (j : Nat) : (of classes).owns j node = true ↔ j = i := by
  unfold owns
  rcases named_of classes node with ⟨k, c', hk, hc', hnames'⟩ | ⟨-, hnone⟩
  · obtain rfl := hunique k c' hc' hnames'
    rw [hk]
    exact beq_iff_eq.trans eq_comm
  · exact absurd hnames (hnone c (mem_of_getElem? hi))

/-- A node that no class names is owned by the remainder. -/
theorem owns_remainder (hi : classes[i]? = some c) (hc : c.nodes = none)
    (hnone : ∀ c ∈ classes, ¬ c.Names node)
    (hunique : ∀ (k : Nat) (c' : WindowClass), classes[k]? = some c' → c'.nodes = none → k = i)
    (j : Nat) : (of classes).owns j node = true ↔ j = i := by
  unfold owns
  rcases named_of classes node with ⟨k, c', -, hc', hnames⟩ | ⟨hnamed, -⟩
  · exact absurd hnames (hnone c' (mem_of_getElem? hc'))
  · rw [hnamed]
    rcases remainder_of classes with ⟨k, c', hk, hc', hrest⟩ | ⟨-, hall⟩
    · obtain rfl := hunique k c' hc' hrest
      rw [hk]
      simp [eq_comm (a := j)]
    · exact absurd hc (hall c (mem_of_getElem? hi))

end ClassOwners

/-! ### The classes -/

/-- Where the groups of a split stand: one group per window, so one place. -/
theorem group_index {κ α : Type} [Ord κ] [Std.TransOrd κ] {groups : ExtTreeMap κ α} {k : κ}
    {g g' : α}
    {i j : Nat} (hi : groups.toList[i]? = some (k, g)) (hj : groups.toList[j]? = some (k, g')) :
    j = i := by
  have hkeys : ∀ {n : Nat} {v : α}, groups.toList[n]? = some (k, v) →
      (groups.toList.map Prod.fst)[n]? = some k := fun h => by rw [getElem?_map, h]; rfl
  refine (getElem?_inj ?_ (nodup_toList_fst groups)).1 ((hkeys hj).trans (hkeys hi).symm)
  rw [length_map]
  exact (List.getElem?_eq_some_iff.1 hj).1

section
variable {snap : IntervalSnapshot} {floor : Nat} {node : NodeId}

/-- The query is read through one window because too many nodes would have to be named. -/
def fallsBack (snapshot : Option IntervalSnapshot) (floor : Nat)
    (scope : Option (List NodeId)) : Bool :=
  match snapshot, scope with
  | some snap, none => decide (namedNodesMax < snap.namedCount floor)
  | _, _ => false

/-- The node is owned by one class, with this window. -/
def OwnedThrough (classes : List WindowClass) (node : NodeId) (window : Nat) : Prop :=
  ∃ (i : Nat) (c : WindowClass), classes[i]? = some c ∧ c.windowSecs = window ∧
    ∀ j, (of classes).owns j node = true ↔ j = i

theorem owned_single {window : Nat} {nodes : Option (List NodeId)}
    (h : ∀ ids, nodes = some ids → node ∈ ids) :
    OwnedThrough [⟨window, nodes⟩] node window := by
  have hzero : ∀ (k : Nat) (c : WindowClass), [⟨window, nodes⟩][k]? = some c → k = 0 := by
    intro k c hk
    simpa using (List.getElem?_eq_some_iff.1 hk).1
  cases nodes with
  | none =>
    refine ⟨0, _, rfl, rfl, owns_remainder rfl rfl (fun c hc => ?_) fun k c hk _ => hzero k c hk⟩
    rw [mem_singleton.1 hc]
    rintro ⟨ids, hids, -⟩
    cases hids
  | some ids =>
    exact ⟨0, _, rfl, rfl, owns_named rfl ⟨ids, rfl, h ids rfl⟩ fun k c hk _ => hzero k c hk⟩

theorem forNode_mem (h : snap.window floor node ≠ snap.base floor) :
    (node, snap.forNode node) ∈ snap.byNode.toList := by
  rw [ExtTreeMap.mem_toList_iff_getElem?_eq_some]
  unfold window forNode at *
  cases hnode : snap.byNode[node]? with
  | none => exact absurd (by rw [hnode]; rfl) h
  | some secs => rfl

theorem forNode_le (node : NodeId) : snap.forNode node ≤ snap.fleetMax := by
  unfold forNode
  cases hnode : snap.byNode[node]? with
  | none => exact snap.default_le
  | some secs => exact snap.node_le node secs hnode

/-- A node off the default window is in the group of its window. -/
theorem named_group (h : snap.window floor node ≠ snap.base floor) :
    ∃ g, (snap.window floor node, g) ∈ (snap.named floor).toList ∧ node ∈ g.map Prod.fst := by
  have hmem : (node, snap.forNode node) ∈ (snap.byNode.toList.filter fun e =>
      decide (rateWindowSecs floor (some e.2) ≠ snap.base floor)).filter fun e =>
        decide (rateWindowSecs floor (some e.2) = snap.window floor node) :=
    mem_filter.2 ⟨mem_filter.2 ⟨forNode_mem h, decide_eq_true h⟩, decide_eq_true rfl⟩
  exact ⟨_, mem_toList_collect.2 ⟨rfl, ne_nil_of_mem hmem⟩,
    mem_map_of_mem (f := Prod.fst) hmem⟩

/-- A group names only nodes with its window, which is not the default one. -/
theorem window_of_named {k : Nat} {g : List (NodeId × Nat)}
    (hg : (k, g) ∈ (snap.named floor).toList)
    (hnode : node ∈ g.map Prod.fst) :
    k = snap.window floor node ∧ snap.window floor node ≠ snap.base floor := by
  obtain ⟨rfl, -⟩ := mem_toList_collect.1 hg
  obtain ⟨e, he, rfl⟩ := mem_map.1 hnode
  obtain ⟨he, hk⟩ := mem_filter.1 he
  obtain ⟨he, hoff⟩ := mem_filter.1 he
  have hsecs : snap.forNode e.1 = e.2 := by
    unfold forNode
    rw [ExtTreeMap.mem_toList_iff_getElem?_eq_some.1 he]
    rfl
  unfold window
  rw [hsecs]
  exact ⟨(of_decide_eq_true hk).symm, of_decide_eq_true hoff⟩

theorem window_eq_base (hcount : snap.namedCount floor = 0) :
    snap.window floor node = snap.base floor := by
  by_contra hoff
  obtain ⟨g, hg, hnode⟩ := named_group hoff
  have hle : g.length ≤ snap.namedCount floor :=
    single_le_sum (fun _ _ => Nat.zero_le _) _ (mem_map_of_mem (f := fun g => g.2.length) hg)
  obtain ⟨e, he, -⟩ := mem_map.1 hnode
  have := length_pos_of_mem he
  omega

/-- A query over given nodes. -/
theorem owned_scope {ids : List NodeId} (h : node ∈ ids) :
    OwnedThrough (windowClasses (some snap) floor (some ids)) node (snap.window floor node) := by
  have hmem : node ∈ ids.filter fun id => snap.window floor id = snap.window floor node := by
    simp [h]
  have hgroup := mem_toList_collect.2 ⟨rfl, ne_nil_of_mem hmem⟩
  obtain ⟨i, hi⟩ := getElem?_of_mem hgroup
  have hsome : (collect (snap.window floor) ids).isEmpty = false := by
    rw [Bool.eq_false_iff, ne_eq, ExtTreeMap.isEmpty_iff]
    intro hempty
    rw [hempty] at hgroup
    simp at hgroup
  rw [windowClasses]
  simp only [hsome, Bool.false_eq_true, if_false]
  refine ⟨i, _, by rw [getElem?_map, hi]; rfl, rfl,
    owns_named (by rw [getElem?_map, hi]; rfl) ⟨_, rfl, hmem⟩ ?_⟩
  rintro j c hj ⟨nodes, hnodes, hnode⟩
  rw [getElem?_map] at hj
  obtain ⟨⟨k, g⟩, hg, rfl⟩ := Option.map_eq_some_iff.1 hj
  cases hnodes
  obtain ⟨rfl, -⟩ := mem_toList_collect.1 (mem_of_getElem? hg)
  obtain rfl := of_decide_eq_true (mem_filter.1 hnode).2
  exact group_index hi hg

/-- A query over the fleet with the nodes off the default window named. -/
theorem owned_fleet : OwnedThrough (⟨snap.base floor, none⟩ ::
    (snap.named floor).toList.map fun g =>
    ⟨g.1, some (g.2.map Prod.fst)⟩) node (snap.window floor node) := by
  have hgroups : ∀ {j : Nat} {c : WindowClass}, ((snap.named floor).toList.map fun g =>
      (⟨g.1, some (g.2.map Prod.fst)⟩ : WindowClass))[j]? = some c → ∃ g,
        (snap.named floor).toList[j]? = some g ∧ c = ⟨g.1, some (g.2.map Prod.fst)⟩ := fun hj => by
    rw [getElem?_map] at hj
    obtain ⟨g, hg, rfl⟩ := Option.map_eq_some_iff.1 hj
    exact ⟨g, hg, rfl⟩
  by_cases hoff : snap.window floor node = snap.base floor
  · refine ⟨0, _, rfl, hoff.symm, owns_remainder rfl rfl (fun c hc => ?_) ?_⟩
    · rintro ⟨nodes, hnodes, hnode⟩
      obtain ⟨_ | j, hj⟩ := getElem?_of_mem hc
      · cases hj
        cases hnodes
      · obtain ⟨⟨k, g⟩, hg, rfl⟩ := hgroups hj
        cases hnodes
        exact (window_of_named (mem_of_getElem? hg) hnode).2 hoff
    · rintro (_ | j) c hj hrest
      · rfl
      · obtain ⟨g, -, rfl⟩ := hgroups hj
        cases hrest
  · obtain ⟨g, hgroup, hmem⟩ := named_group hoff
    obtain ⟨i, hi⟩ := getElem?_of_mem hgroup
    have hclass : (⟨snap.base floor, none⟩ :: (snap.named floor).toList.map fun g =>
        (⟨g.1, some (g.2.map Prod.fst)⟩ : WindowClass))[i + 1]?
          = some ⟨snap.window floor node, some (g.map Prod.fst)⟩ := by simp [hi]
    refine ⟨i + 1, _, hclass, rfl, owns_named hclass ⟨_, rfl, hmem⟩ ?_⟩
    rintro (_ | j) c hj ⟨nodes, hnodes, hnode⟩
    · cases hj
      cases hnodes
    · obtain ⟨⟨k, g'⟩, hg', rfl⟩ := hgroups hj
      cases hnodes
      obtain rfl := (window_of_named (mem_of_getElem? hg') hnode).1
      rw [group_index hi hg']

end

/-- Every node of the scope is owned by one class, whose window is at least the node's own; it is
the node's own unless the nodes to name are too many. -/
theorem window_classes_cover (snapshot : Option IntervalSnapshot) (floor : Nat)
    (scope : Option (List NodeId)) (node : NodeId) (hscope : ∀ ids, scope = some ids → node ∈ ids) :
    ∃ window, OwnedThrough (windowClasses snapshot floor scope) node window ∧
      rateWindowSecs floor (snapshot.map fun snap => snap.forNode node) ≤ window ∧
      (fallsBack snapshot floor scope = false →
        window = rateWindowSecs floor (snapshot.map fun snap => snap.forNode node)) := by
  cases snapshot with
  | none => exact ⟨_, owned_single hscope, Nat.le_refl _, fun _ => rfl⟩
  | some snap =>
    cases scope with
    | some ids => exact ⟨_, owned_scope (hscope ids rfl), Nat.le_refl _, fun _ => rfl⟩
    | none =>
      rw [windowClasses]
      split
      next hnone =>
        have hbase : snap.window floor node = snap.base floor := window_eq_base hnone
        exact ⟨_, owned_single (by simp), hbase.le, fun _ => hbase.symm⟩
      next =>
        split
        next hmany =>
          refine ⟨_, owned_single (by simp), rateWindowSecs_mono floor ?_, fun hnot => ?_⟩
          · exact forNode_le node
          · exact absurd hmany (of_decide_eq_false hnot)
        next => exact ⟨_, owned_fleet, Nat.le_refl _, fun _ => rfl⟩

/-- A node at ten minutes in a fleet at one minute. -/
theorem slow_node_owned : ∃ window,
    OwnedThrough (windowClasses (some (.build 60 [(7, 600)])) 300 (some [7, 8])) 7 window ∧
      1200 ≤ window ∧ (fallsBack (some (.build 60 [(7, 600)])) 300 (some [7, 8]) = false →
        window = 1200) :=
  window_classes_cover (some (.build 60 [(7, 600)])) 300 (some [7, 8]) 7 (by simp)

end Yagra
