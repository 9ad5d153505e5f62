import Yagra.Alert.System

/-!
# `Yagra.Proofs.Display`: the three display accessors agree

`display_accessors_agree`. Each accessor is read at one node. There the two loops of
`unconfirmedOkIsUnknown` do the same (`unconfirmedOkIsUnknown_apply`), and a roll-up over all alerts
is the roll-up over those of the node (`foldl_rollUp_apply`).
-/

set_option autoImplicit false

namespace Yagra.AlertManager

variable (m : AlertManager) (ledger : ReportLedger) (now : UnixMs)

/-- What a committed state reads as. -/
def confirmed (node : NodeId) (state : NodeState) : NodeState :=
  if state = .ok ∧ m.reportIsStale ledger now node = true then .unknown else state

theorem unconfirm_apply (out : Shown) (visited node : NodeId) :
    m.unconfirm ledger now out visited node
      = if node = visited then (out node).map (m.confirmed ledger now node) else out node := by
  unfold unconfirm confirmed reportIsStale
  by_cases hnode : node = visited
  · subst hnode
    cases hreport : ledger.get node <;> cases hstate : out node <;> simp [hstate]
    split <;> simp [hstate]
  · rw [if_neg hnode]
    cases ledger.get visited <;> cases out visited <;> try rfl
    dsimp only
    split
    · exact Function.update_of_ne hnode ..
    · rfl

/-- A state that nothing confirms reads the same if it is looked at twice. -/
theorem confirmed_confirmed (node : NodeId) (state : NodeState) :
    m.confirmed ledger now node (m.confirmed ledger now node state)
      = m.confirmed ledger now node state := by
  unfold confirmed
  split <;> simp_all

theorem foldl_unconfirm_apply (order : List NodeId) (out : Shown) (node : NodeId) :
    order.foldl (m.unconfirm ledger now) out node
      = if node ∈ order then (out node).map (m.confirmed ledger now node) else out node := by
  induction order generalizing out with
  | nil => simp
  | cons visited rest ih =>
    rw [List.foldl_cons, ih, unconfirm_apply]
    by_cases hnode : node = visited
    · subst hnode
      cases out node <;> simp [confirmed_confirmed]
    · simp [hnode]

/-- Whichever side is walked, and whatever the size of the map. -/
theorem unconfirmedOkIsUnknown_apply (out : Shown) (len : Nat) (node : NodeId) :
    m.unconfirmedOkIsUnknown ledger now out len node
      = (out node).map (m.confirmed ledger now node) := by
  -- A node that is not in the ledger keeps its state.
  have hkeeps : node ∉ ledger.order → (out node).map (m.confirmed ledger now node) = out node := by
    intro hnode
    have hnone : ledger.get node = none := by simpa [ledger.mem_order] using hnode
    have hid : m.confirmed ledger now node = id :=
      funext fun state => by simp [confirmed, reportIsStale, hnone]
    rw [hid, Option.map_id_fun, id]
  unfold unconfirmedOkIsUnknown
  split
  · rename_i hempty
    rw [hkeeps (by simp [hempty])]
  split
  · rfl
  · rw [foldl_unconfirm_apply]
    split
    · rfl
    · exact (hkeeps ‹_›).symm

/-- A roll-up of the alerts on some nodes, read at one of them. -/
theorem foldl_rollUp_apply (asked : NodeId → Bool) (alerts : List Alert) (out : Shown)
    (node : NodeId) :
    alerts.foldl (Shown.rollUp asked) out node
      = if asked node then
          (alerts.filter fun a => decide (a.subject = .node node)).foldl rolledUp (out node)
        else out node := by
  induction alerts generalizing out with
  | nil => simp
  | cons a rest ih =>
    rw [List.foldl_cons, ih]
    by_cases hnode : a.subject = .node node
    · have ha : a.node = some node := by rw [Alert.node, hnode, Subject.asNode]
      by_cases hasked : asked node
      · have hraise : out.rollUp asked a node = rolledUp (out node) a := by
          simp only [Shown.rollUp, rolledUp, ha, hasked, if_true, Function.update_self]
          cases out node <;> grind
        simp [hasked, hnode, hraise]
      · simp [Shown.rollUp, ha, hasked]
    · -- The alert is on another node, or on none.
      have hsame : out.rollUp asked a node = out node := by
        unfold Shown.rollUp Alert.node
        cases hsubject : a.subject <;> simp only [Subject.asNode]
        split
        · exact Function.update_of_ne (fun heq => hnode (by rw [hsubject, heq])) ..
        · rfl
      simp [hnode, hsame]

/-- A page shows what the fleet view shows for its nodes, and so does the view of one node. -/
theorem display_accessors_agree (keys : List NodeId) (order : List CheckId) :
    (∀ nodes node, m.nodeStatesFor ledger now nodes order node
      = if node ∈ nodes then m.nodeStates ledger now keys order node else none) ∧
    ∀ node, m.nodeStateAt ledger now node order = m.nodeStates ledger now keys order node := by
  have hfleet : ∀ node, m.nodeStates ledger now keys order node
      = ((order.filterMap m.active).filter fun a => decide (a.subject = .node node)).foldl rolledUp
          ((m.live node).map (m.confirmed ledger now node)) := fun node => by
    rw [nodeStates, foldl_rollUp_apply, if_pos rfl, unconfirmedOkIsUnknown_apply]
  refine ⟨fun nodes node => ?_, fun node => ?_⟩
  · rw [nodeStatesFor, foldl_rollUp_apply, unconfirmedOkIsUnknown_apply, hfleet]
    by_cases hnode : node ∈ nodes
    · cases hlive : m.live node <;> simp [hnode, hlive]
    · simp [hnode]
  · rw [hfleet]
    have hbase : (m.live node).map (m.confirmed ledger now node)
        = if m.live node = some .ok ∧ m.reportIsStale ledger now node = true then some .unknown
          else m.live node := by
      cases m.live node with
      | none => simp
      | some state => simp only [Option.map_some, confirmed, Option.some.injEq]; split <;> rfl
    rw [hbase]
    rfl

end Yagra.AlertManager
