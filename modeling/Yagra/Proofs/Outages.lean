import Yagra.Proofs.Restoring

/-!
# `Yagra.Proofs.Outages`: the down set along runs without maintenance

The engine keeps the down set beside the live states and updates it when a node's liveness
flips. `Watching` is what a run without maintenance windows keeps: the down set lists the nodes
whose live state is unreachable, and no liveness tracker has committed maintenance. It holds
after start-up (`restored_watching`) and every operation keeps it (`step_watching`).

`resweeps_of_flip` is what the re-attribution relies on. An observation that changes the down
set is followed by a re-attribution, unless it ends without a transition on a node that a
liveness rule covers.
-/

set_option autoImplicit false

namespace Yagra

open Yagra.Lib List

namespace AlertManager

/-- What a run without maintenance windows keeps about liveness. -/
structure Watching (s : AlertManager) : Prop where
  down : ∀ n, n ∈ s.down ↔ s.live n = some .unreachable
  committed : ∀ n, s.committedAt (livenessCheck n) ≠ .maintenance
  config : s.config.maintenance = ∅

end AlertManager

/-- The step does not put a node into maintenance. -/
def Atom.Plain : Atom → Prop
  | .check _ _ raw _ spec => spec.isLiveness = true → raw ≠ .maintenance
  | .setConfig config => config.maintenance = ∅
  | _ => True

/-- The operation installs no maintenance window. -/
def Op.Plain : Op → Prop
  | .setConfig config _ => config.maintenance = ∅
  | _ => True

theorem Atom.IsSample.plain {x : Atom} (h : x.IsSample) : x.Plain := by
  have hkeep := h.keepsLive
  have hpoll := h.isPoll
  cases x with
  | check order node raw t spec =>
    intro hl
    have hl' : spec.isLiveness = false := hkeep
    simp [hl] at hl'
  | setConfig config => exact absurd hpoll id
  | _ => trivial

namespace AlertManager

/-! ### Committing a node's liveness -/

variable {s : AlertManager}

/-- The down set stays the set of the unreachable nodes. -/
theorem commitLive_down (h : ∀ n, n ∈ s.down ↔ s.live n = some .unreachable) (node : NodeId)
    (committed : NodeState) (n : NodeId) :
    n ∈ (s.commitLive node committed).1.down
      ↔ (s.commitLive node committed).1.live n = some .unreachable := by
  simp only [commitLive]
  by_cases hc : committed = .unreachable <;>
    by_cases hp : s.live node = some .unreachable <;>
    by_cases he : n = node <;> simp_all

/-- Without a flip the down set is the one before. A flip into any state but maintenance asks
for a re-attribution. -/
theorem commitLive_unchanged {node : NodeId} {committed : NodeState} (hc : committed ≠ .maintenance)
    (h : (s.commitLive node committed).2 = false) :
    (s.commitLive node committed).1.down = s.down := by
  simp only [commitLive, hc, decide_false, Bool.not_false, Bool.and_true, Bool.or_eq_false_iff]
    at h ⊢
  rw [h.1]
  simp

section
variable {s : AlertManager} {node : NodeId} {raw : NodeState} {t : UnixMs} {spec : CheckSpec}

/-- A sample keeps the down set in step with the live states. -/
theorem trackSample_down (h : ∀ n, n ∈ s.down ↔ s.live n = some .unreachable) (n : NodeId) :
    n ∈ (s.trackSample node raw t spec).1.down
      ↔ (s.trackSample node raw t spec).1.live n = some .unreachable := by
  rcases s.trackSample_cases node raw t spec with ⟨_, he⟩ | ⟨committed, _, _, he⟩
  · rw [he]
    exact h n
  · rw [he]
    exact commitLive_down h node committed n

/-- What a check has committed after a sample: what it had committed, or the sample's state. -/
theorem nextState_committed (s : AlertManager) (raw : NodeState) (t : UnixMs) (spec : CheckSpec) :
    (s.nextState raw t spec).committed = s.committedAt spec.check ∨
      (s.nextState raw t spec).committed = raw := by
  cases htr : s.transitionOf raw t spec with
  | none => exact .inl (transitionOf_none htr)
  | some tr => exact .inr (transitionOf_some htr).2.2.1

/-- An observed state is the committed one. -/
theorem observed_eq_committed {cs : CheckState} {committed : NodeState}
    (h : cs.observed = some committed) : committed = cs.committed := by
  simp only [CheckState.observed, DwellTracker.observed] at h
  split at h
  · exact (Option.some.inj h).symm
  · simp at h

section

variable (hw : s.Watching) (hspec : SpecOk node raw spec)
  (hraw : spec.isLiveness = true → raw ≠ .maintenance)

include hw hspec hraw

/-- A sample that changes the down set asks for a re-attribution. -/
theorem trackSample_unchanged (h : (s.trackSample node raw t spec).2.2 = false) :
    (s.trackSample node raw t spec).1.down = s.down := by
  rcases s.trackSample_cases node raw t spec with ⟨_, he⟩ | ⟨committed, hl, ho, he⟩
  · rw [he]
  · rw [he] at h ⊢
    refine commitLive_unchanged ?_ h
    rw [observed_eq_committed ho]
    rcases s.nextState_committed raw t spec with hn | hn <;> rw [hn]
    · rw [(hspec.of_isLiveness hl).1]
      exact hw.committed node
    · exact hraw hl

/-- An observation that changes the down set is followed by a re-attribution, unless a rule
covers the node and there is no transition. -/
theorem resweeps_of_flip (hflip : (s.trackSample node raw t spec).1.down ≠ s.down)
    (hseen : spec.alerting = false ∨ (s.transitionOf raw t spec).isSome) :
    s.resweeps node raw t spec = true := by
  have hchanged : (s.trackSample node raw t spec).2.2 = true := by
    by_contra hne
    exact hflip (trackSample_unchanged hw hspec hraw (by simpa using hne))
  rcases hseen with h | h <;> simp [resweeps, hchanged, h]

end

/-- Without a transition, an observation changes the down set only where the node's live state
and its tracker disagreed. -/
theorem trackSample_down_of_agree (hdown : ∀ n, n ∈ s.down ↔ s.live n = some .unreachable)
    (htr : s.transitionOf raw t spec = none)
    (hagree : s.live node = some .unreachable ↔ s.committedAt spec.check = .unreachable) :
    (s.trackSample node raw t spec).1.down = s.down := by
  rcases s.trackSample_cases node raw t spec with ⟨_, he⟩ | ⟨committed, hl, ho, he⟩
  · rw [he]
  · ext n
    rw [trackSample_down hdown, hdown, trackSample_live, if_pos hl, ho]
    have hc : committed = s.committedAt spec.check :=
      (observed_eq_committed ho).trans (transitionOf_none htr)
    by_cases hn : n = node
    · subst hn
      simp [hc, hagree]
    · simp [hn]

end

/-! ### Every step -/

theorem mem_dropNodes_down {n : NodeId} :
    n ∈ s.dropNodes.down ↔ n ∈ s.down ∧ ((s.live n).isSome && s.isGone n) = false := by
  simp only [dropNodes, OrdSet.mem_eraseAll, mem_filter, OrdSet.mem_toList]
  grind

/-- Every step without maintenance keeps the down set in step with the live states. -/
theorem atom_watching {x : Atom} (hx : AtomOk s x) (hplain : x.Plain) (h : s.Watching) :
    (atomStep s x).1.Watching where
  down := by
    have hkeep : x.KeepsLive →
        ∀ n, n ∈ (atomStep s x).1.down ↔ (atomStep s x).1.live n = some .unreachable := by
      intro hk n
      rw [(atom_live (s := s) hk).1, (atom_live (s := s) hk).2]
      exact h.down n
    cases x with
    | check order node raw t spec =>
      intro n
      have hb := s.processCheck_base order node raw t spec
      rw [atomStep, live_of_base hb, down_of_base hb]
      exact trackSample_down h.down n
    | dropNodes =>
      intro n
      change n ∈ s.dropNodes.down ↔ s.dropNodes.live n = _
      rw [mem_dropNodes_down, h.down n]
      simp only [dropNodes]
      by_cases hf : ((s.live n).isSome && s.isGone n) = true <;> simp [hf]
    | _ => exact hkeep trivial
  committed := by
    intro n
    have hn := h.committed n
    rcases (atom_frame s x).states (livenessCheck n) with
      he | he | ⟨order, node, raw, t, spec, rfl, hc, he⟩
    · rw [committedAt, he]
      exact hn
    · simp [committedAt, he]
    · rw [committedAt_of_states he]
      obtain ⟨hspec, _⟩ := hx
      cases hspec with
      | liveness hl _ _ _ _ =>
        rcases s.nextState_committed raw t spec with hnext | hnext <;> rw [hnext]
        · rw [← hc]
          exact hn
        · exact hplain hl
      | threshold _ _ m _ hname _ _ =>
        rw [← hc] at hname
        simp [checkId, subjectCheckId] at hname
  config := by
    have hkeep : x.KeepsConfig → (atomStep s x).1.config.maintenance = ∅ := by
      intro hk
      rw [atom_config hk]
      exact h.config
    cases x with
    | setConfig config => exact hplain
    | _ => exact hkeep trivial

/-- The atoms of an operation do not put a node into maintenance when no window is installed. -/
theorem plain_atoms (hw : s.config.maintenance = ∅) {op : Op} (hop : op.Plain) :
    ∀ x ∈ op.atoms s, x.Plain := by
  intro x hx
  cases atomOf_atoms hx with
  | sample _ h => exact h.plain
  | @liveness result noReading order _ =>
    intro _
    have hno : s.config.inMaintenance result.nodeId = false := by
      simp [AlertConfig.inMaintenance, hw]
    rw [hno]
    cases result.outcome <;> simp [livenessRaw]
  | setConfig config loaded => exact hop
  | _ => trivial

theorem step_watching (hs : s.Consistent) {op : Op} (hop : op.Ok s) (hplain : op.Plain)
    (h : s.Watching) : (s.step op).1.Watching := by
  rw [step_eq_atoms]
  refine atoms_invariant (I := Watching) (fun s' x hx _ hok hi => ?_) hs (atomOk_atoms hop) h
  exact atom_watching hok (plain_atoms h.config hplain x hx) hi

/-! ### After start-up -/

/-- Seeding the live states keeps the nodes newly found down in step with them. -/
theorem foldl_seedLiveOne_down (l : List Alert)
    (acc : (NodeId → Option NodeState) × List NodeId)
    (h : ∀ n, n ∈ acc.2 ↔ acc.1 n = some .unreachable) :
    ∀ n, n ∈ (l.foldl seedLiveOne acc).2 ↔ (l.foldl seedLiveOne acc).1 n = some .unreachable := by
  induction l generalizing acc with
  | nil => exact h
  | cons a rest ih =>
    refine ih _ fun n => ?_
    have hn := h n
    unfold seedLiveOne
    split
    next node _ _ =>
      split
      · exact hn
      · by_cases he : n = node <;> by_cases hd : a.state = .unreachable <;> simp_all
    · exact hn

variable {rows : List AlertHistoryRow}

/-- The down set after start-up lists the restored outages. -/
theorem restored_watching (hrows : ∀ row ∈ rows, RowOk row) :
    (restored rows).Watching where
  down := by
    intro n
    unfold restored restore
    split
    · simp [fresh]
    · have hseed := foldl_seedLiveOne_down (rows.map alertFromRow) (fresh.live, [])
        (by simp [fresh]) n
      simp only [seedActive, seedLive, seedStates]
      simpa [fresh] using hseed
  committed := by
    intro n
    have hstates := restore_states fresh (rows.map alertFromRow) (livenessCheck n)
    cases hfind : (rows.map alertFromRow).find? fun a => a.check = livenessCheck n with
    | none =>
      rw [hfind] at hstates
      rw [restored, committedAt, hstates]
      simp [fresh]
    | some a =>
      obtain ⟨row, hrow, rfl⟩ := mem_map.1 (mem_of_find?_eq_some hfind)
      rw [hfind] at hstates
      rw [restored, committedAt_of_states hstates]
      have hsev := (hrows row hrow).problem
      intro hm
      have hm : row.state = .maintenance := hm
      simp [hm, NodeState.severity] at hsev
  config := by rw [restored_config]; rfl

/-- Before a configuration is loaded, nothing is grouped. -/
theorem attributeDown_default (down : OrdSet NodeId) (n : NodeId) :
    AlertConfig.default.grouping.attributeDown down n = none := by
  rw [Topology.LinkGraph.attributeDown_eq_rootCause]
  by_cases hn : n ∈ down
  · rw [Topology.LinkGraph.rootCause_of_mem _ hn]
    rfl
  · exact Topology.LinkGraph.rootCause_of_notMem _ hn

theorem restored_releasing (rows : List AlertHistoryRow) (c : CheckId) :
    (restored rows).releasing c = none := by
  unfold restored restore
  split <;> rfl

/-- A restored alert is marked by its own node's outage, if that was restored too, and by nothing
else. -/
theorem restored_root {c : CheckId} {a : Alert} (h : (restored rows).active c = some a) :
    a.rootCause = a.node.bind (newRootCause (fun _ => none) (restored rows).down a.metric) := by
  have hactive := restore_active fresh (rows.map alertFromRow) c
  obtain ⟨_, hdown⟩ := restore_live fresh (rows.map alertFromRow)
  rw [restored] at h
  rw [hactive] at h
  cases hfind : (rows.map alertFromRow).find? fun a => a.check = c with
  | none => simp [hfind, fresh] at h
  | some b =>
    obtain ⟨row, hrow, rfl⟩ := mem_map.1 (mem_of_find?_eq_some hfind)
    rw [hfind] at h
    obtain rfl : fresh.restoredAs (rows.map alertFromRow) (alertFromRow row) = a := by
      simpa [fresh] using h
    have hd : ((fresh.seedStates (rows.map alertFromRow)).seedLive (rows.map alertFromRow)).down
        = (restored rows).down := hdown.symm
    simp only [restoredAs, hd, restoredRootCause, Alert.node, newRootCause]
    cases (alertFromRow row).subject.asNode with
    | none => rfl
    | some n =>
      have hnone := attributeDown_default (restored rows).down n
      simp only [Option.bind_some, show fresh.config = AlertConfig.default from rfl, hnone]
      rfl

end AlertManager

end Yagra
