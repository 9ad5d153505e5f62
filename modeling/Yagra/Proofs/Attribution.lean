import Yagra.Proofs.Holds
import Yagra.Proofs.Outages

/-!
# `Yagra.Proofs.Attribution`: root causes of liveness alerts

The root cause of a liveness alert is written in three places: when the alert is fired, when the
down set changes and the other alerts are re-attributed, and when the grouping is installed and
`regroup` runs. `Attributed` says that every liveness alert has the root cause the grouping gives
its node under the current down set.

`attribution_exact` is the main result. Take a run from the restored alerts without maintenance
windows, in which every new configuration is followed by `regroup` and the grouping mentions only
known nodes. Then the alerts are attributed and another `regroup` does nothing, as long as no
observation flips a node unseen (`flipsUnseen`): without a transition, on a node that a rule
covers and whose live state and tracker disagree. That observation ends before the
re-attribution. Forgetting a deleted node leaves such a disagreement behind, because the live
state is dropped and the tracker stays (`returned_node_flips_unseen`).
-/

set_option autoImplicit false

namespace Yagra

open Yagra.Lib Topology.LinkGraph List Option

namespace AlertManager

/-- Every liveness alert has the root cause the grouping gives its node. -/
def Attributed (s : AlertManager) : Prop :=
  ∀ n a, s.active (livenessCheck n) = some a →
    a.rootCause = s.config.grouping.attributeDown s.down n

/-- What holds in every state of the runs considered here, also between a new configuration and
the `regroup` after it. No liveness alert is waiting to be released, the grouping mentions only
known nodes, and a configuration that was not loaded is the one the engine starts with. -/
structure Tended (s : AlertManager) : Prop where
  watching : s.Watching
  unmarked : ∀ n, s.releasing (livenessCheck n) = none
  graph : ∀ m, s.config.knows m = false → s.config.grouping.Isolated m
  loaded : s.config.loaded = false → s.config = .default

/-! ### Re-attribution -/

/-- A re-attributed liveness alert has its new root cause, and is not waiting for a release. -/
theorem reattributed_liveness {n : NodeId} {a : Alert} (hok : SlotOk (livenessCheck n) a)
    (rc : Option NodeId) (held : Option UnixMs) (release : Option Nat) :
    (reattributed rc a held release).1.release = release ∧
      ∀ b, (reattributed rc a held release).1.alert = some b → b.rootCause = rc := by
  have hm : a.metric = .liveness := hok.liveness.2 rfl
  unfold reattributed
  simp only [hm, CheckName.isEvent, Bool.false_eq_true, false_and, if_false, true_and, ne_eq,
    not_true_eq_false]
  split
  next hheld =>
    split
    · exact ⟨rfl, fun b hb => some.inj hb ▸ rfl⟩
    next hrc =>
      refine ⟨rfl, fun b hb => ?_⟩
      cases hb
      rw [(hok.held hheld).1, not_isSome_iff_eq_none.1 hrc]
  · exact ⟨rfl, fun b hb => some.inj hb ▸ rfl⟩

variable {s : AlertManager}

/-- Re-attribution gives every liveness alert its root cause, apart from that of the node that
changed, which it leaves alone. -/
theorem reattributedAt_liveness (hs : s.Consistent) (changed : Option NodeId) (n : NodeId) :
    (s.reattributedAt changed (livenessCheck n)).1.release = s.releasing (livenessCheck n) ∧
      (some n ≠ changed → ∀ b, (s.reattributedAt changed (livenessCheck n)).1.alert = some b →
        b.rootCause = s.config.grouping.attributeDown s.down n) := by
  unfold reattributedAt
  cases ha : s.active (livenessCheck n) with
  | none => exact ⟨rfl, fun _ b hb => by simp [slot, ha] at hb⟩
  | some a =>
    have hok := hs.slots _ a ha
    have hm : a.metric = .liveness := hok.liveness.2 rfl
    have hnode : a.node = some n := by
      rw [Alert.node, hok.subject]
      rfl
    simp only [hnode]
    split
    · obtain ⟨hrel, hroot⟩ := reattributed_liveness hok
        (newRootCause (s.config.grouping.attributeDown s.down) s.down a.metric n)
        (s.held (livenessCheck n)) (s.releasing (livenessCheck n))
      refine ⟨hrel, fun _ b hb => ?_⟩
      rw [hroot b hb, newRootCause, if_pos hm]
    next hcand =>
      refine ⟨rfl, fun hne b hb => ?_⟩
      cases ha.symm.trans hb
      -- An alert that is passed over has no root cause and gets none.
      simp only [isCandidate, hnode, any_some, hm, if_true, hne, ne_eq, not_false_eq_true,
        decide_true, Bool.true_and, Bool.or_eq_true, not_or, Bool.not_eq_true,
        isSome_eq_false_iff, isNone_iff_eq_none] at hcand
      rw [hcand.1, hcand.2]

/-- Where the alerts are attributed, `regroup` does nothing. -/
theorem regroup_of_attributed (hs : s.Consistent) (h : s.Attributed) (order : List CheckId) :
    s.regroup order = (s, []) := by
  refine emitAll_idle _ fun a ha => ?_
  obtain ⟨ha, hcand⟩ := mem_filter.1 ha
  obtain ⟨c, _, hc⟩ := mem_filterMap.1 ha
  have hok := hs.slots c a hc
  -- Only liveness alerts are looked at when no single node changed.
  have hm : a.metric = .liveness := by
    by_contra hne
    cases hn : a.node <;> simp [isCandidate, hn, hne] at hcand
  obtain ⟨n, rfl⟩ := hok.shape (hok.liveness.1 hm)
  have hnode : a.node = some n := by
    rw [Alert.node, hok.subject]
    rfl
  have hroot := h n a hc
  unfold reattributeOne
  simp only [hnode, newRootCause, hm, CheckName.isEvent, Bool.false_eq_true, false_and, if_false,
    if_true, true_and, ne_eq, not_true_eq_false, ← hroot]
  split
  next hheld => simp [(hok.held hheld).1]
  · rfl

/-! ### A liveness observation -/

section
variable {s : AlertManager} {node : NodeId} {raw : NodeState} {t : UnixMs} {spec : CheckSpec}

/-- An observation without a threshold sample, of a check that is not waiting for a release. -/
theorem withoutTransition_of_liveness (he : spec.eval = none)
    (hr : s.releasing spec.check = none) :
    s.withoutTransition raw t spec
      = ({ s with sidePending := Function.update s.sidePending spec.check none }, []) := by
  simp [withoutTransition, refreshBreachedSide, advanceRelease, he, hr]

/-- What a liveness observation leaves in its own slot: nothing is waiting for a release, and the
alert, if there is one, has the root cause of the new down set. -/
theorem checkCore_attributed (ht : s.Tended) (h : s.Attributed) (hl : spec.isLiveness = true)
    (hc : spec.check = livenessCheck node) (he : spec.eval = none)
    (hagree : spec.alerting = true → s.transitionOf raw t spec = none →
      (s.live node = some .unreachable ↔ s.committedAt spec.check = .unreachable)) :
    (s.checkCore node raw t spec).1.releasing (livenessCheck node) = none ∧
      ∀ a, (s.checkCore node raw t spec).1.active (livenessCheck node) = some a →
        a.rootCause
          = s.config.grouping.attributeDown (s.trackSample node raw t spec).1.down node := by
  have hframe := s.trackSample_frame node raw t spec
  have hrel : (s.trackSample node raw t spec).1.releasing = s.releasing := by rw [hframe]
  have hactive : (s.trackSample node raw t spec).1.active = s.active := by rw [hframe]
  have hconfig : (s.trackSample node raw t spec).1.config = s.config := by rw [hframe]
  rw [← hc]
  unfold checkCore
  simp only
  split
  · -- No rule: the alert is closed, or there is no configuration and so no grouping.
    unfold withoutRule
    rw [hconfig]
    split
    · rw [closeActive_frame, hrel]
      exact ⟨hc ▸ ht.unmarked node, fun a ha => by simp at ha⟩
    next hloaded =>
      rw [hrel, hactive]
      refine ⟨hc ▸ ht.unmarked node, fun a ha => ?_⟩
      have hroot := h node a (hc ▸ ha)
      rw [ht.loaded (by simpa using hloaded), attributeDown_default] at hroot ⊢
      exact hroot
  next halerting =>
    split
    next htr =>
      -- No transition: the alert stays, and so does the down set.
      rw [withoutTransition_of_liveness he (by rw [hrel, hc]; exact ht.unmarked node)]
      simp only [hrel, hactive]
      refine ⟨hc ▸ ht.unmarked node, fun a ha => ?_⟩
      rw [trackSample_down_of_agree ht.watching.down htr
        (hagree (by simpa using halerting) htr)]
      exact h node a (hc ▸ ha)
    next tr _ =>
      have hfire : tr.state.severity.isSome →
          (s.trackSample node raw t spec).1.rootCauseAtFire node spec.isLiveness tr.state
            = s.config.grouping.attributeDown (s.trackSample node raw t spec).1.down node := by
        intro hsev
        rw [rootCauseAtFire, if_pos hl, if_pos (by rwa [← NodeState.severity_isSome]), hconfig,
          attributeDown_eq_rootCause]
      rcases (s.trackSample node raw t spec).1.onTransition_cases node raw t spec tr with
        ⟨_, he⟩ | ⟨severity, hsev, he⟩ | ⟨severity, u, hsev, _, _, he⟩ <;> rw [he]
      · rw [closeActive_frame]
        exact ⟨by simp [settled], fun a ha => by simp at ha⟩
      · refine ⟨by simp, fun a ha => ?_⟩
        rw [withEntries_active] at ha
        cases ha
        exact hfire (by simp [hsev])
      · refine ⟨by simp [withEntries], fun a ha => ?_⟩
        simp only [withEntries, Function.update_self, some.injEq] at ha
        rw [← ha]
        exact hfire (by simp [hsev])

/-- A liveness observation keeps the alerts attributed, if the node's live state and its tracker
agree or there is a transition. -/
theorem processCheck_attributed (hs : s.Consistent) (ht : s.Tended) (h : s.Attributed)
    {order : List CheckId} (ho : Enumerates order s.active) (hspec : SpecOk node raw spec)
    (hl : spec.isLiveness = true) (hraw : raw ≠ .maintenance)
    (hagree : spec.alerting = true → s.transitionOf raw t spec = none →
      (s.live node = some .unreachable ↔ s.committedAt spec.check = .unreachable)) :
    (∀ n, (s.processCheck order node raw t spec).1.releasing (livenessCheck n) = none) ∧
      (s.processCheck order node raw t spec).1.Attributed := by
  obtain ⟨hc, he⟩ := hspec.of_isLiveness hl
  have hcons := (checkCore_any (t := t) hs hspec).consistent
  obtain ⟨hrelOwn, hrootOwn⟩ := checkCore_attributed ht h hl hc he hagree
  have hother : ∀ n, n ≠ node →
      (s.checkCore node raw t spec).1.entries (livenessCheck n) = s.entries (livenessCheck n) :=
    fun n hn => s.checkCore_entries node raw t spec
      (fun heq => hn (livenessCheck_inj (heq.trans hc)))
  have hrelCore : ∀ n, (s.checkCore node raw t spec).1.releasing (livenessCheck n) = none := by
    intro n
    by_cases hn : n = node
    · rw [hn]
      exact hrelOwn
    · exact (releasing_of_entries (hother n hn)).trans (ht.unmarked n)
  have hdown := down_of_base (s.checkCore_base node raw t spec)
  have hconfig := config_of_base (s.checkCore_base node raw t spec)
  rw [trackSample_frame] at hconfig
  rw [processCheck_eq]
  unfold resweepIf
  split
  · -- The other alerts are re-attributed under the new down set.
    have hat := resweep_at (t := t) hs hspec hl ho
    have hrest := base_of_rest ((s.checkCore node raw t spec).1.reattribute_rest order (some node))
    generalize s.checkCore node raw t spec = r at *
    refine ⟨fun n => ?_, fun n a ha => ?_⟩
    · exact ((releasing_of_slot (hat (livenessCheck n)).1).trans
        (reattributedAt_liveness hcons (some node) n).1).trans (hrelCore n)
    · have hslot := active_of_slot (hat (livenessCheck n)).1
      rw [hslot] at ha
      rw [down_of_base hrest, config_of_base hrest]
      by_cases hn : n = node
      · subst hn
        rw [reattributedAt_own hcons] at ha
        rw [hdown, hconfig]
        exact hrootOwn a ha
      · exact (reattributedAt_liveness hcons (some node) n).2 (by simpa using hn) a ha
  next hno =>
    -- No re-attribution: the down set is the one before, so the other alerts are still right.
    have hsame : (s.trackSample node raw t spec).1.down = s.down := by
      by_contra hflip
      by_cases hseen : spec.alerting = false ∨ (s.transitionOf raw t spec).isSome
      · exact hno (resweeps_of_flip ht.watching hspec (fun _ => hraw) hflip hseen)
      · simp only [not_or, Bool.not_eq_false, not_isSome_iff_eq_none] at hseen
        exact hflip (trackSample_down_of_agree ht.watching.down hseen.2 (hagree hseen.1 hseen.2))
    refine ⟨hrelCore, fun n a ha => ?_⟩
    rw [hdown, hconfig]
    by_cases hn : n = node
    · subst hn
      exact hrootOwn a ha
    · rw [hsame]
      exact h n a ((active_of_entries (hother n hn)).symm.trans ha)

end

/-! ### Every step -/

/-- The observation ends without a transition, a rule covers the node, and the node's live state
and its tracker disagree about the outage. Such an observation brings the live state and the down
set in line with the tracker, and nothing is re-attributed. -/
def flipsUnseen (s : AlertManager) : Atom → Bool
  | .check _ node raw t spec =>
    spec.isLiveness && spec.alerting && (s.transitionOf raw t spec).isNone &&
      (decide (s.live node = some .unreachable) !=
        decide (s.committedAt spec.check = .unreachable))
  | _ => false

variable {s' : AlertManager} {x : Atom} {order : List CheckId}

/-- A step that changes neither the down set nor the configuration, and leaves every liveness
alert with the root cause it has, keeps the alerts attributed. -/
theorem Attributed.of_roots (h : s.Attributed) (hdown : s'.down = s.down)
    (hconfig : s'.config = s.config) (hroot : ∀ n a, s'.active (livenessCheck n) = some a →
      ∃ b, s.active (livenessCheck n) = some b ∧ a.rootCause = b.rootCause) : s'.Attributed := by
  intro n a ha
  obtain ⟨b, hb, hab⟩ := hroot n a ha
  rw [hab, hdown, hconfig]
  exact h n b hb

/-- A release pass gives up no release count and changes no root cause. -/
theorem releasedAt_root (s : AlertManager) (now : UnixMs) (c : CheckId) :
    (s.releasedAt now c).1.release = s.releasing c ∧
      ∀ a, (s.releasedAt now c).1.alert = some a →
        ∃ b, s.active c = some b ∧ a.rootCause = b.rootCause := by
  unfold releasedAt
  cases s.held c with
  | none => exact ⟨rfl, fun a ha => ⟨a, ha, rfl⟩⟩
  | some u =>
    simp only [released, slot]
    cases hactive : s.active c with
    | none => exact ⟨rfl, fun a ha => by simp at ha⟩
    | some b =>
      have hsame : ∀ a, some b = some a → ∃ b', some b = some b' ∧ a.rootCause = b'.rootCause :=
        fun a ha => ⟨a, ha, rfl⟩
      simp only
      cases b.node with
      | none => exact ⟨rfl, hsame⟩
      | some n =>
        simp only
        split_ifs
        · exact ⟨rfl, hsame⟩
        · exact ⟨rfl, hsame⟩
        · exact ⟨rfl, fun a ha => ⟨b, rfl, some.inj ha ▸ rfl⟩⟩
        · exact ⟨rfl, hsame⟩

/-- A step about other checks keeps the liveness alerts attributed. -/
theorem attributed_of_leavesAlone (hx : ∀ n, x.LeavesAlone (livenessCheck n)) (hlive : x.KeepsLive)
    (hconfig : x.KeepsConfig) (hun : ∀ n, s.releasing (livenessCheck n) = none) (h : s.Attributed) :
    (∀ n, (atomStep s x).1.releasing (livenessCheck n) = none) ∧ (atomStep s x).1.Attributed := by
  refine ⟨fun n => (releasing_of_entries (atom_entries (hx n))).trans (hun n), ?_⟩
  refine h.of_roots (atom_live hlive).2 (atom_config hconfig) fun n a ha => ?_
  exact ⟨a, (active_of_entries (atom_entries (hx n))).symm.trans ha, rfl⟩

/-- Closing alerts keeps the others attributed. -/
theorem attributed_of_closed {c : CheckId} (hactive : s'.active = Function.update s.active c none)
    (hrel : s'.releasing = s.releasing) (hdown : s'.down = s.down) (hconfig : s'.config = s.config)
    (hun : ∀ n, s.releasing (livenessCheck n) = none) (h : s.Attributed) :
    (∀ n, s'.releasing (livenessCheck n) = none) ∧ s'.Attributed := by
  refine ⟨fun n => hrel ▸ hun n, h.of_roots hdown hconfig fun n a ha => ?_⟩
  rw [hactive] at ha
  by_cases hn : livenessCheck n = c
  · simp [hn] at ha
  · exact ⟨a, by simpa [hn] using ha, rfl⟩

/-- `regroup` attributes the alerts, whatever their root causes were. -/
theorem regroup_attributed (hs : s.Consistent) (ho : Enumerates order s.active)
    (hun : ∀ n, s.releasing (livenessCheck n) = none) :
    (∀ n, (s.regroup order).1.releasing (livenessCheck n) = none) ∧
      (s.regroup order).1.Attributed := by
  have hat := reattribute_at hs.slots.keyed ho.nodup none fun c a ha _ => ho.covers c (by simp [ha])
  refine ⟨fun n => ?_, fun n a ha => ?_⟩
  · exact ((releasing_of_slot (hat (livenessCheck n)).1).trans
      (reattributedAt_liveness hs none n).1).trans (hun n)
  · have hdown : (s.regroup order).1.down = s.down :=
      (atom_live (x := .regroup order) trivial).2
    have hconfig : (s.regroup order).1.config = s.config :=
      atom_config (x := .regroup order) trivial
    rw [hdown, hconfig]
    exact (reattributedAt_liveness hs none n).2 (by simp) a
      ((active_of_slot (hat (livenessCheck n)).1).symm.trans ha)

/-- Every step that installs no configuration and forgets no node keeps the liveness alerts
attributed, unless it flips a node unseen. -/
theorem atom_attributed (hs : s.Consistent) (hx : AtomOk s x) (hplain : x.Plain)
    (hconfig : x.KeepsConfig) (hdrop : x ≠ .dropNodes) (hno : s.flipsUnseen x = false)
    (ht : s.Tended) (h : s.Attributed) :
    (∀ n, (atomStep s x).1.releasing (livenessCheck n) = none) ∧ (atomStep s x).1.Attributed := by
  cases x with
  | check order node raw t spec =>
    cases hl : spec.isLiveness with
    | true =>
      refine processCheck_attributed hs ht h (hx.2 hl) hx.1 hl (hplain hl) ?_
      intro halerting htr
      simpa [flipsUnseen, hl, halerting, htr] using hno
    | false =>
      refine attributed_of_leavesAlone (fun n => ⟨hl, ?_⟩) hl trivial ht.unmarked h
      cases hx.1 with
      | liveness hl' _ _ _ _ => simp [hl] at hl'
      | threshold _ _ m _ hn _ _ =>
        intro he
        rw [← he] at hn
        simp [checkId, subjectCheckId] at hn
  | retire node metric =>
    exact attributed_of_leavesAlone (fun n => by simp [Atom.LeavesAlone, checkId, subjectCheckId])
      trivial trivial ht.unmarked h
  | raise a =>
    obtain ⟨raised, rfl⟩ := hx
    refine attributed_of_leavesAlone (fun n => ?_) trivial trivial ht.unmarked h
    cases raised <;>
      simp [Atom.LeavesAlone, Raised.alert, Raised.subjectAlert, checkId, subjectCheckId]
  | orphan c =>
    exact attributed_of_closed (s.resolveOrphan_active c) (s.resolveOrphan_releasing c)
      (atom_live (x := .orphan c) trivial).2 (atom_config (x := .orphan c) trivial) ht.unmarked h
  | close c =>
    exact attributed_of_closed (s.closeActive_active c)
      (by show (s.closeActive c).1.releasing = _; rw [closeActive_frame])
      (atom_live (x := .close c) trivial).2 (atom_config (x := .close c) trivial) ht.unmarked h
  | regroup order => exact regroup_attributed hs hx ht.unmarked
  | releaseHeld now order =>
    have hat := releaseHeld_at hs.slots.keyed hx now
    refine ⟨fun n => ?_, ?_⟩
    · exact ((releasing_of_slot (hat (livenessCheck n)).1).trans
        (s.releasedAt_root now (livenessCheck n)).1).trans (ht.unmarked n)
    · refine h.of_roots (atom_live (x := .releaseHeld now order) trivial).2
        (atom_config (x := .releaseHeld now order) trivial) fun n a ha => ?_
      exact (s.releasedAt_root now (livenessCheck n)).2 a
        ((active_of_slot (hat (livenessCheck n)).1).symm.trans ha)
  | dropNodes => exact absurd rfl hdrop
  | setConfig config => exact absurd hconfig id
  | forgetLegacy _ | markRows _ | publishIntervals _ | recordRowName _ _ _ _ =>
    exact attributed_of_leavesAlone (fun _ => trivial) trivial trivial ht.unmarked h

theorem Tended.of_step (hx : AtomOk s x) (hplain : x.Plain) (hconfig : x.KeepsConfig)
    (ht : s.Tended) (hun : ∀ n, (atomStep s x).1.releasing (livenessCheck n) = none) :
    (atomStep s x).1.Tended where
  watching := atom_watching hx hplain ht.watching
  unmarked := hun
  graph := by rw [atom_config hconfig]; exact ht.graph
  loaded := by rw [atom_config hconfig]; exact ht.loaded

/-! ### Operations -/

/-- The sweep of deleted nodes keeps the alerts attributed: the nodes it takes out of the down set
are unknown, so the grouping does not mention them. -/
theorem forgetDeletedNodes_attributed (hs : s.Consistent) (ho : Enumerates order s.active)
    (ht : s.Tended) (h : s.Attributed) :
    (s.forgetDeletedNodes order).1.Tended ∧ (s.forgetDeletedNodes order).1.Attributed := by
  have hwatch : (s.forgetDeletedNodes order).1.Watching :=
    step_watching hs (show (Op.forgetDeletedNodes order).Ok s from ho) trivial ht.watching
  have hkeep := s.forgetDeletedNodes_keeps order
  refine ⟨⟨hwatch, fun n => by rw [hkeep.2]; exact ht.unmarked n, by rw [hkeep.1]; exact ht.graph,
    by rw [hkeep.1]; exact ht.loaded⟩, fun n a ha => ?_⟩
  obtain ⟨hbefore, hkept⟩ := forgetDeletedNodes_active hs ho ha
  have hsame : ∀ m, s.isForgotten m = false →
      (m ∈ s.down ↔ m ∈ (s.forgetDeletedNodes order).1.down) := fun m hm => by
    rw [ht.watching.down, hwatch.down, forgetDeletedNodes_live, hm]
    rfl
  rw [h n a hbefore, hkeep.1, attributeDown_eq_rootCause, attributeDown_eq_rootCause]
  refine rootCause_congr _ (fun m hm => hsame m ?_) (hsame n (hkept n ?_))
  · by_contra hgone
    simp only [isForgotten, isGone, Bool.and_eq_false_iff, not_or, Bool.not_eq_false] at hgone
    exact hm (ht.graph m (by simpa using hgone.2))
  · rw [Alert.node, (hs.slots _ a hbefore).subject]
    rfl

/-- Every operation that installs no configuration keeps the alerts attributed, unless it flips a
node unseen. -/
theorem step_attributed (hs : s.Consistent) {op : Op} (hop : op.Ok s) (hplain : op.Plain)
    (hconfig : ∀ config loaded, op ≠ .setConfig config loaded)
    (hno : EachAtom (fun s x => s.flipsUnseen x = false) s op) (ht : s.Tended) (h : s.Attributed) :
    (s.step op).1.Tended ∧ (s.step op).1.Attributed := by
  by_cases hforget : ∃ order, op = .forgetDeletedNodes order
  · obtain ⟨order, rfl⟩ := hforget
    exact forgetDeletedNodes_attributed hs hop ht h
  · have hdrop := dropNodes_notMem (s := s) fun order he => hforget ⟨order, he⟩
    have hkeep : Along (fun _ x => x.Plain ∧ x.KeepsConfig ∧ x ≠ .dropNodes) atomStep s
        (op.atoms s) :=
      Along.of_forall (fun _ x hx => ⟨plain_atoms ht.watching.config hplain x hx,
        keepsConfig_of_mem hconfig hx, fun he => hdrop (he ▸ hx)⟩) s
    rw [step_eq_atoms]
    refine (((atomOk_atoms hop).and (hkeep.and hno)).invariant
      (P := fun s => s.Consistent ∧ s.Tended ∧ s.Attributed) ?_ ⟨hs, ht, h⟩).2
    rintro s x ⟨hx, ⟨hplain, hconfig, hdrop⟩, hno⟩ ⟨hs, ht, h⟩
    obtain ⟨hun, hattr⟩ := atom_attributed hs hx hplain hconfig hdrop hno ht h
    exact ⟨atom_consistent hs hx,
      ht.of_step hx hplain hconfig hun, hattr⟩

end AlertManager

/-! ### Runs -/

/-- The grouping an operation installs mentions only nodes of the inventory it installs. -/
def Op.Mapped : Op → Prop
  | .setConfig config _ => ∀ m, config.knows m = false → config.grouping.Isolated m
  | _ => True

/-- Every configuration is followed by `regroup`. -/
def regroupsAfterConfig : List Op → Bool
  | [] => true
  | .setConfig _ _ :: .regroup _ :: rest => regroupsAfterConfig rest
  | .setConfig _ _ :: _ => false
  | _ :: rest => regroupsAfterConfig rest

namespace AlertManager

/-- A new configuration and the `regroup` after it leave the alerts attributed. -/
theorem setConfig_regroup_attributed {s : AlertManager} (hs : s.Consistent) {config : AlertConfig}
    (loaded : config.loaded = true) {order : List CheckId} (ho : Enumerates order s.active)
    (hplain : config.maintenance = ∅)
    (hmapped : ∀ m, config.knows m = false → config.grouping.Isolated m) (ht : s.Tended) :
    ((s.setConfig config).regroup order).1.Tended ∧
      ((s.setConfig config).regroup order).1.Attributed := by
  have hs' : (s.setConfig config).Consistent :=
    step_consistent hs (show (Op.setConfig config loaded).Ok s from trivial)
  have ht' : (s.setConfig config).Tended :=
    ⟨atom_watching (x := .setConfig config) loaded hplain ht.watching, ht.unmarked, hmapped,
      fun h => by simp [setConfig, loaded] at h⟩
  obtain ⟨hun, hattr⟩ := regroup_attributed hs' ho ht'.unmarked
  exact ⟨ht'.of_step (x := .regroup order) ho trivial trivial hun, hattr⟩

theorem run_attributed {ops : List Op} {s : AlertManager} (hs : s.Consistent)
    (hops : ∀ op ∈ ops, op.Plain ∧ op.Mapped) (hregroup : regroupsAfterConfig ops = true)
    (hok : Along (fun s op => op.Ok s) step s ops)
    (hno : Along (EachAtom fun s x => s.flipsUnseen x = false) step s ops) (ht : s.Tended)
    (h : s.Attributed) :
    (emitAll step s ops).1.Consistent ∧ (emitAll step s ops).1.Tended ∧
      (emitAll step s ops).1.Attributed := by
  induction ops using regroupsAfterConfig.induct generalizing s with
  | case1 => exact ⟨hs, ht, h⟩
  | case2 config loaded order rest ih =>
    obtain ⟨hplain, hmapped⟩ := hops _ mem_cons_self
    have hs' := step_consistent hs hok.1
    obtain ⟨ht'', h''⟩ := setConfig_regroup_attributed hs loaded hok.2.1 hplain hmapped ht
    exact ih (step_consistent hs' hok.2.1)
      (fun op hop => hops op (mem_cons_of_mem _ (mem_cons_of_mem _ hop))) hregroup
      hok.2.2 hno.2.2 ht'' h''
  | case3 config loaded rest hnot => simp [regroupsAfterConfig] at hregroup
  | case4 op rest hnot hnot' ih =>
    obtain ⟨ht', h'⟩ := step_attributed hs hok.1 (hops op mem_cons_self).1
      (fun config loaded he => hnot' config loaded he) hno.1 ht h
    have hrest : regroupsAfterConfig rest = true := by
      rw [regroupsAfterConfig] at hregroup
      · exact hregroup
      · exact hnot
      · exact hnot'
    exact ih (step_consistent hs hok.1) (fun op' hop => hops op' (mem_cons_of_mem _ hop))
      hrest hok.2 hno.2 ht' h'

/-- After start-up nothing is grouped yet, and the restored liveness alerts have no root cause. -/
theorem restored_attributed {rows : List AlertHistoryRow} (hrows : ∀ row ∈ rows, RowOk row) :
    (restored rows).Tended ∧ (restored rows).Attributed := by
  refine ⟨⟨restored_watching hrows, fun n => ?_, ?_, fun _ => restored_config rows⟩,
    fun n a ha => ?_⟩
  · rw [restored_releasing]
  · rw [restored_config]
    exact fun m _ => ⟨rfl, rfl, rfl⟩
  · have hok := (restored_consistent hrows).slots _ a ha
    rw [restored_root ha, restored_config, attributeDown_default, Alert.node, hok.subject]
    simp [newRootCause, hok.liveness.2 rfl, checkId, subjectCheckId, Subject.asNode]

/-- Take a run from the restored alerts without maintenance windows, in which every configuration
is followed by `regroup`, the grouping mentions only nodes of the inventory, and no observation
flips a node unseen. Then the down set lists the nodes whose live state is unreachable, every
liveness alert has the root cause the grouping gives its node, and another `regroup` changes
nothing and asks for nothing. -/
theorem attribution_exact {rows : List AlertHistoryRow} (hrows : ∀ row ∈ rows, RowOk row)
    {ops : List Op} (hops : ∀ op ∈ ops, op.Plain ∧ op.Mapped)
    (hregroup : regroupsAfterConfig ops = true)
    (hok : Along (fun s op => op.Ok s) step (restored rows) ops)
    (hno : Along (EachAtom fun s x => s.flipsUnseen x = false) step (restored rows) ops) :
    let s := (emitAll step (restored rows) ops).1
    (∀ n, n ∈ s.down ↔ s.live n = some .unreachable) ∧
      (∀ c a n, s.active c = some a → a.metric = .liveness → a.node = some n →
        a.rootCause = s.config.grouping.attributeDown s.down n) ∧
      ∀ order, s.regroup order = (s, []) := by
  intro s
  obtain ⟨ht, h⟩ := restored_attributed hrows
  obtain ⟨hs', ht', h'⟩ := run_attributed (restored_consistent hrows) hops hregroup hok hno ht h
  refine ⟨ht'.watching.down, fun c a n ha hm hnode => ?_, regroup_of_attributed hs' h'⟩
  obtain ⟨n', rfl⟩ := (hs'.slots c a ha).shape ((hs'.slots c a ha).liveness.1 hm)
  have hn : n' = n := by
    rw [Alert.node, (hs'.slots _ a ha).subject] at hnode
    exact Option.some.inj hnode
  exact hn ▸ h' n' a ha

/-- The two linked nodes, with the given rules and the inventory of both. -/
def linkedConfig (rules : List StoredThreshold) : AlertConfig :=
  { AlertConfig.new rules [plainNode 1, plainNode 2] with
      grouping := (new .links).addLink 1 2 true }

/-- The link is between nodes of the inventory. -/
theorem linkedConfig_mapped (rules : List StoredThreshold) (m : NodeId)
    (h : (linkedConfig rules).knows m = false) : (linkedConfig rules).grouping.Isolated m := by
  have hm : m ≠ 1 ∧ m ≠ 2 := by
    constructor <;> rintro rfl <;>
      simp [linkedConfig, AlertConfig.new, AlertConfig.knows, AlertConfig.metaOf, plainNode] at h
  refine ⟨?_, rfl, rfl⟩
  ext n
  simp [linkedConfig, addLink, new, mem_linkSide, hm.1, hm.2]

/-- Both nodes go down, one after the other. -/
def bothDownOps : List Op :=
  [.setConfig (linkedConfig [livenessRule 2]) rfl, .regroup bothLiveness,
    pollOp 2 .unreachable 1, pollOp 2 .unreachable 2, pollOp 1 .unreachable 3,
    pollOp 1 .unreachable 4]

theorem both_down_attributed :
    let s := (emitAll step (restored []) bothDownOps).1
    s.config.grouping.attributeDown s.down 2 = some 1 ∧
      (s.active (livenessCheck 2)).map Alert.rootCause = some (some 1) ∧
      s.regroup bothLiveness = (s, []) := by
  intro s
  have hplain : ∀ op ∈ bothDownOps, op.Plain ∧ op.Mapped := by
    intro op hop
    simp only [bothDownOps, List.mem_cons, List.not_mem_nil, or_false] at hop
    rcases hop with rfl | rfl | rfl | rfl | rfl | rfl
    · exact ⟨rfl, linkedConfig_mapped _⟩
    all_goals exact ⟨trivial, trivial⟩
  obtain ⟨_, hroots, hidle⟩ := attribution_exact noRows_ok hplain (by decide)
    (ok_of_fresh_run (by decide +kernel)) (by decide +kernel)
  have hcause : s.config.grouping.attributeDown s.down 2 = some 1 := by decide +kernel
  have hopen : (s.active (livenessCheck 2)).map (fun a => (a.metric, a.node))
      = some (.liveness, some 2) := by decide +kernel
  obtain ⟨a, ha, hmn⟩ := Option.map_eq_some_iff.1 hopen
  refine ⟨hcause, ?_, hidle bothLiveness⟩
  rw [ha, Option.map_some, hroots _ a 2 ha (congrArg Prod.fst hmn) (congrArg Prod.snd hmn), hcause]

/-- Node 1 goes down while no rule covers it, is deleted and added again. Node 2 goes down, and
then node 1's next result is unreachable. -/
def returnedNodeOps : List Op :=
  [.setConfig (linkedConfig []) rfl, .regroup bothLiveness,
    pollOp 1 .unreachable 1, pollOp 1 .unreachable 2, pollOp 1 .unreachable 3,
    .setConfig (AlertConfig.new [] [plainNode 2]) rfl, .regroup bothLiveness,
    .forgetDeletedNodes bothLiveness,
    .setConfig (linkedConfig [livenessRule 1]) rfl, .regroup bothLiveness,
    pollOp 2 .unreachable 4, pollOp 1 .unreachable 5]

/-- Node 1 is back in the down set, which explains node 2's outage. Its alert keeps having no root
cause, until the next `regroup`. -/
theorem returned_node_flips_unseen :
    (∀ op ∈ returnedNodeOps, op.Plain ∧ op.Mapped) ∧
    regroupsAfterConfig returnedNodeOps = true ∧
    Along (fun s op => op.Ok s) step (restored []) returnedNodeOps ∧
    let s := (emitAll step (restored []) returnedNodeOps).1
    s.config.grouping.attributeDown s.down 2 = some 1 ∧
      (s.active (livenessCheck 2)).map Alert.rootCause = some none ∧
      (s.regroup bothLiveness).2 ≠ [] := by
  refine ⟨?_, by decide, ok_of_fresh_run (by decide +kernel), by decide +kernel,
    by decide +kernel, by decide +kernel⟩
  intro op hop
  simp only [returnedNodeOps, List.mem_cons, List.not_mem_nil, or_false] at hop
  rcases hop with rfl | rfl | rfl | rfl | rfl | rfl | rfl | rfl | rfl | rfl | rfl | rfl
  all_goals
    first
    | exact ⟨trivial, trivial⟩
    | exact ⟨rfl, linkedConfig_mapped _⟩
    | exact ⟨rfl, fun m _ => ⟨rfl, rfl, rfl⟩⟩

end AlertManager

end Yagra
