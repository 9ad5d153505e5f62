import Yagra.Proofs.Holds
import Yagra.Proofs.Outages

/-!
# `Yagra.Proofs.Release`: markers of outages that are over

An alert of a node that goes down is marked with the node as its root cause. When the node comes
back, the marker of an event alert is taken off at once. The marker of any other alert stays, and
the check is entered for release: the next observations of the check count towards it.

`no_stranded_marker` is the main result. In a run without maintenance windows, an alert still
marked by an outage that is over is entered for release, and it is a threshold alert, which
observations keep feeding. The condition is that no outage ends while an alert that other
components raise (a replaced device, a stale configuration backup) carries its marker. Such an
alert is entered for release as well, but nothing observes its check
(`replaced_device_stays_marked`).
-/

set_option autoImplicit false

namespace Yagra

open Yagra.Lib Function List

/-- The alert is one of the two that other components raise on a node and no observation feeds,
apart from event alerts. -/
def Alert.isUnfed (a : Alert) : Bool :=
  decide (a.metric = .metric .deviceReplaced) || decide (a.metric = .metric .configStale)

/-- Whatever is not liveness, not an event and not one of those two is a threshold alert. -/
theorem Alert.isThresholdAlert_of {a : Alert} (hm : a.metric ≠ .liveness)
    (he : a.metric.isEvent = false) (hu : a.isUnfed = false) : a.isThresholdAlert = true := by
  simp only [isUnfed, Bool.or_eq_false_iff, decide_eq_false_iff_not] at hu
  unfold isThresholdAlert
  split
  next h => exact absurd h hm
  next h => simp [h, CheckName.isEvent] at he
  next h => exact absurd h hu.1
  next h => exact absurd h hu.2
  · rfl

/-- The step closes no liveness alert outside an observation. -/
def Atom.SparesLiveness : Atom → Prop
  | .orphan c | .close c => c.name ≠ .liveness
  | _ => True

/-- A sweep for stale data is not asked to close a liveness alert: it is given checks of threshold
alerts only. -/
def Op.SparesLiveness : Op → Prop
  | .resolveStale checks => ∀ c ∈ checks, c.name ≠ .liveness
  | _ => True

namespace AlertManager

/-! ### Down nodes are tracked -/

/-- The tracker of a node that is down has committed the outage. -/
def DownTracked (s : AlertManager) : Prop :=
  ∀ n, s.live n = some .unreachable → s.committedAt (livenessCheck n) = .unreachable

variable {s : AlertManager} {c : CheckId} {n node : NodeId}
variable {spec : CheckSpec} {order : List CheckId} {raw : NodeState} {down : OrdSet NodeId}

/-- A liveness observation leaves the node's live state in step with its tracker. -/
theorem processCheck_downTracked {t : UnixMs} (hl : spec.isLiveness = true)
    (hc : spec.check = livenessCheck node) (h : s.DownTracked) :
    (s.processCheck order node raw t spec).1.DownTracked := by
  intro n hn
  rw [processCheck_live order node raw t hl] at hn
  rw [committedAt, processCheck_states, hc]
  by_cases hnode : n = node
  · subst hnode
    rw [update_self] at hn ⊢
    simp only [Option.map_some, Option.getD_some]
    cases ho : (s.nextState raw t spec).observed with
    | some committed =>
      rw [← observed_eq_committed ho]
      simpa [ho] using hn
    | none =>
      -- Nothing is confirmed yet, so there was no transition either.
      have hlive : s.live n = some .unreachable := by simpa [ho] using hn
      cases htr : s.transitionOf raw t spec with
      | none => rw [transitionOf_none htr, hc]; exact h n hlive
      | some tr => simp [(transitionOf_some htr).2.2.2] at ho
  · rw [update_of_ne hnode] at hn
    rw [update_of_ne fun he => hnode (livenessCheck_inj he)]
    exact h n hn

theorem atom_downTracked {x : Atom} (hx : AtomOk s x) (hspare : x.SparesLiveness)
    (h : s.DownTracked) : (atomStep s x).1.DownTracked := by
  have hkeep : x.KeepsLive → (∀ n, x.LeavesAlone (livenessCheck n)) →
      (atomStep s x).1.DownTracked := by
    intro hlive halone n hn
    rw [committedAt, states_of_entries (atom_entries (halone n))]
    rw [(atom_live hlive).1] at hn
    exact h n hn
  have hbase : ∀ {s' : AlertManager}, s'.base = s.base → s'.DownTracked := by
    intro s' hb n hn
    have hstates := congrArg AlertManager.states hb
    rw [committedAt, show s'.states = s.states from hstates]
    rw [live_of_base hb] at hn
    exact h n hn
  cases x with
  | check order node raw t spec =>
    cases hx.1 with
    | liveness hl hc _ _ _ => exact processCheck_downTracked hl hc h
    | threshold hl _ m _ hn _ _ =>
      refine hkeep hl fun n => ⟨hl, livenessCheck_ne ?_⟩
      rw [hn]
      simp
  | retire node metric =>
    exact hkeep trivial fun n => by simp [Atom.LeavesAlone, checkId, subjectCheckId]
  | orphan c | close c => exact hkeep trivial fun n => livenessCheck_ne hspare
  | raise a =>
    obtain ⟨raised, rfl⟩ := hx
    exact hkeep trivial fun n => livenessCheck_ne (raised_name raised)
  | regroup order => exact hbase (base_of_rest (s.reattribute_rest order none))
  | releaseHeld now order => exact hbase (base_of_rest (s.releaseHeld_rest order now))
  | dropNodes =>
    intro n hn
    refine h n ?_
    simp only [atomStep, dropNodes] at hn
    split at hn
    · simp at hn
    · exact hn
  | forgetLegacy _ | markRows _ | setConfig _ | publishIntervals _ | recordRowName _ _ _ _ =>
    exact hkeep trivial fun _ => trivial

/-! ### Markers -/

/-- What holds of the alert and the release count of a check, given the down set: an alert still
marked although its node is up is entered for release, and it is a threshold alert. -/
def Releasable (down : OrdSet NodeId) (alert : Option Alert) (release : Option Nat) : Prop :=
  ∀ a n, alert = some a → a.node = some n → a.metric ≠ .liveness → a.rootCause.isSome → n ∉ down →
    release.isSome ∧ a.isThresholdAlert = true

/-- No alert carries the marker of an outage that is over with nothing able to take it off. -/
def MarkersReleasable (s : AlertManager) : Prop :=
  ∀ c, Releasable s.down (s.active c) (s.releasing c)

theorem Releasable.none (down : OrdSet NodeId) (release : Option Nat) :
    Releasable down none release := by
  intro a n ha
  simp at ha

theorem Releasable.mono {down' : OrdSet NodeId} {alert : Option Alert} {release : Option Nat}
    (h : Releasable down alert release) (hdown : ∀ n, n ∉ down' → n ∉ down) :
    Releasable down' alert release :=
  fun a n ha hn hm hr hd => h a n ha hn hm hr (hdown n hd)

/-- Liveness alerts are not asked about. -/
theorem releasable_liveness (hs : s.Consistent) (hc : c.name = .liveness) (down : OrdSet NodeId)
    (release : Option Nat) : Releasable down (s.active c) release :=
  fun a _ ha _ hm _ _ => absurd ((hs.slots _ a ha).liveness.2 hc) hm

/-- A threshold observation keeps its own check releasable. A transition marks the alert only
while the node is down. Without one, a count is given up only with the marker. -/
theorem checkCore_releasable (hs : s.Consistent) {t : UnixMs} (hl : spec.isLiveness = false)
    (ha : spec.alerting = true) (h : s.MarkersReleasable) :
    Releasable s.down ((s.checkCore node raw t spec).1.active spec.check)
      ((s.checkCore node raw t spec).1.releasing spec.check) := by
  have htrack : (s.trackSample node raw t spec).1 = { s with
      states := update s.states spec.check (some (s.nextState raw t spec)) } := by
    rcases s.trackSample_cases node raw t spec with ⟨_, he⟩ | ⟨_, hl', _⟩
    · rw [he]
    · simp [hl] at hl'
  have hbefore := h spec.check
  unfold checkCore
  simp only [ha, Bool.true_eq_false, if_false, htrack]
  split
  · rcases withoutTransition_cases { s with
        states := update s.states spec.check (some (s.nextState raw t spec)) }
      raw t spec hs.slots with
      ⟨side, release, he, hrel⟩ | ⟨a, a', side, release, hactive, href, _, he, hrel, _⟩ <;>
      rw [he] <;>
      rw [withEntries_active, withEntries_releasing]
    · intro a n hactive hn hm hr hd
      obtain ⟨hsome, hthreshold⟩ := hbefore a n hactive hn hm hr hd
      refine ⟨?_, hthreshold⟩
      rcases hrel with hrel | hrel
      · rw [hrel]
        exact hsome
      · simp [hrel a hactive] at hr
    · intro b n hb hn hm hr hd
      cases hb
      have hroot : a'.rootCause = a.rootCause := by
        rcases href.root with h | h
        · exact h
        · simp [h] at hr
      have hnode : a.node = some n := by rw [Alert.node, ← href.same.subject]; exact hn
      obtain ⟨hsome, hthreshold⟩ := hbefore a n hactive hnode (href.same.metric ▸ hm)
        (hroot ▸ hr) hd
      refine ⟨?_, ?_⟩
      · rcases hrel with hrel | hrel
        · rw [hrel]
          exact hsome
        · simp [hrel] at hr
      · rw [Alert.isThresholdAlert, href.same.metric]
        exact hthreshold
  next tr _ =>
    rcases onTransition_cases { s with
        states := update s.states spec.check (some (s.nextState raw t spec)) }
      node raw t spec tr with
      ⟨_, he⟩ | ⟨severity, _, he⟩ | ⟨_, _, _, hl', _, _⟩
    · rw [he, closeActive_active, update_self]
      exact .none _ _
    · rw [he, withEntries_active]
      intro a n hactive hn _ hr hd
      cases hactive
      have hnode : node = n := Option.some.inj hn
      subst hnode
      simp [alertFor, rootCauseAtFire, hl, hd] at hr
    · simp [hl] at hl'

/-- A re-attributed alert is releasable: it is marked only while its node is down, and otherwise
it loses its marker or is entered for release. -/
theorem reattributed_releasable {a : Alert} (hn : a.node = some n) (hm : a.metric ≠ .liveness)
    (attribution : NodeId → Option NodeId) (held : Option UnixMs) (release : Option Nat)
    (hfed : n ∉ down → a.metric.isEvent = false → a.rootCause.isSome → a.isThresholdAlert = true) :
    Releasable down
      (reattributed (newRootCause attribution down a.metric n) a held release).1.alert
      (reattributed (newRootCause attribution down a.metric n) a held release).1.release := by
  intro b n' hb hn' _ hr hd
  simp only [newRootCause, if_neg hm] at hb ⊢
  have hdown : n ∉ down := by
    have hsame : b.node = a.node := by
      unfold reattributed at hb
      split_ifs at hb <;> exact Option.some.inj hb ▸ rfl
    rw [hsame, hn] at hn'
    exact Option.some.inj hn' ▸ hd
  rw [if_neg hdown] at hb ⊢
  unfold reattributed at hb ⊢
  simp only [hm, Option.isNone_none, and_true, Option.isSome_none, Bool.false_eq_true, false_and,
    if_false, ne_eq, not_false_eq_true, true_and, and_false] at hb ⊢
  split at hb
  · cases hb
    simp at hr
  next hevent =>
    rw [if_neg hevent]
    split at hb
    next hroot =>
      cases hb
      rw [if_pos hroot]
      exact ⟨rfl, hfed hdown (by simpa using hevent) hroot⟩
    · cases hb
      simp at hr

/-- Re-attribution after a node changed keeps a check releasable that is not a liveness check: the
alerts of other nodes are left alone. -/
theorem reattributedAt_releasable (hm : ∀ a, s.active c = some a → a.metric ≠ .liveness)
    (hother : ∀ a n, s.active c = some a → a.node = some n → n ≠ node →
      Releasable s.down (s.active c) (s.releasing c))
    (hfed : ∀ a, s.active c = some a → a.node = some node → node ∉ s.down →
      a.metric.isEvent = false → a.rootCause.isSome → a.isThresholdAlert = true) :
    Releasable s.down (s.reattributedAt (some node) c).1.alert
      (s.reattributedAt (some node) c).1.release := by
  unfold reattributedAt
  cases ha : s.active c with
  | none => exact fun a n hb => by simp [slot, ha] at hb
  | some a =>
    simp only
    cases hnode : a.node with
    | none =>
      intro b n hb hn
      cases ha.symm.trans hb
      simp [hnode] at hn
    | some n =>
      simp only
      by_cases hn : n = node
      · subst hn
        rw [if_pos (by simp [isCandidate, hnode, hm a ha])]
        exact reattributed_releasable hnode (hm a ha) _ _ _ (hfed a ha hnode)
      · rw [if_neg (by simp [isCandidate, hnode, hm a ha, hn])]
        exact hother a n ha hnode hn

/-! ### A liveness observation -/

/-- The observation ends the outage of a node while an alert that no observation feeds carries the
outage's marker. -/
def endsMarkedOutage (s : AlertManager) : Atom → Bool
  | .check order node raw t spec =>
    spec.isLiveness && decide (node ∈ s.down) && decide (raw ≠ .unreachable) &&
      (s.transitionOf raw t spec).isSome &&
      (order.filterMap s.active).any fun a =>
        decide (a.node = some node) && a.rootCause.isSome && a.isUnfed
  | _ => false

section
variable {s : AlertManager} {order : List CheckId} {node : NodeId} {raw : NodeState} {t : UnixMs}
  {spec : CheckSpec}

/-- An observation moves no other node into or out of the down set. -/
theorem trackSample_down_of_ne (hw : s.Watching) (hn : n ≠ node) :
    n ∈ (s.trackSample node raw t spec).1.down ↔ n ∈ s.down := by
  rw [trackSample_down hw.down, hw.down, trackSample_live]
  split
  · rw [update_of_ne hn]
  · rfl

/-- A node only leaves the down set by a transition. -/
theorem transition_of_leaves (hw : s.Watching) (ht : s.DownTracked)
    (hc : spec.check = livenessCheck node) (hbefore : node ∈ s.down)
    (hafter : node ∉ (s.trackSample node raw t spec).1.down) :
    (s.transitionOf raw t spec).isSome ∧ raw ≠ .unreachable := by
  have hlive := (hw.down node).1 hbefore
  have hcommitted : s.committedAt spec.check = .unreachable := hc ▸ ht node hlive
  cases htr : s.transitionOf raw t spec with
  | none =>
    rw [trackSample_down_of_agree hw.down htr (by simp [hlive, hcommitted])] at hafter
    exact absurd hbefore hafter
  | some tr => exact ⟨rfl, hcommitted ▸ (transitionOf_some htr).2.1⟩

/-- A liveness observation keeps the markers releasable, unless it ends the outage that marks an
alert nothing feeds. -/
theorem processCheck_releasable (hs : s.Consistent) (hw : s.Watching) (ht : s.DownTracked)
    (hspec : SpecOk node raw spec) (hl : spec.isLiveness = true) (hraw : raw ≠ .maintenance)
    (ho : Enumerates order s.active)
    (hno : s.endsMarkedOutage (.check order node raw t spec) = false) (h : s.MarkersReleasable) :
    (s.processCheck order node raw t spec).1.MarkersReleasable := by
  obtain ⟨hc, _⟩ := hspec.of_isLiveness hl
  have hcons := atom_consistent (x := .check order node raw t spec) hs ⟨hspec, fun _ => ho⟩
  have hdown := down_of_base (s.processCheck_base order node raw t spec)
  intro c
  by_cases hname : c.name = .liveness
  · exact releasable_liveness hcons hname _ _
  have hne : c ≠ spec.check := by
    rintro rfl
    rw [hc] at hname
    exact hname rfl
  have hother := s.checkCore_entries node raw t spec hne
  have hactive := active_of_entries hother
  have hrel := releasing_of_entries hother
  rw [hdown]
  by_cases hsweep : s.resweeps node raw t spec = true
  · have hcoreDown := down_of_base (s.checkCore_base node raw t spec)
    obtain ⟨hslot, _⟩ := resweep_at (t := t) hs hspec hl ho c
    have hfinal : (s.processCheck order node raw t spec).1
        = ((s.checkCore node raw t spec).1.reattribute order (some node)).1 := by
      rw [processCheck_eq, resweepIf, if_pos hsweep]
    rw [hfinal, active_of_slot hslot, releasing_of_slot hslot]
    have hm : ∀ a, s.active c = some a → a.metric ≠ .liveness :=
      fun a ha hm => hname ((hs.slots c a ha).liveness.1 hm)
    rw [← hcoreDown]
    refine reattributedAt_releasable (by rw [hactive]; exact hm) ?_ ?_ <;>
      rw [hactive, hcoreDown]
    · intro a n ha hnode hn b n' hb hn' hm' hr hd
      rw [hrel]
      cases ha.symm.trans hb
      cases hnode.symm.trans hn'
      exact h c a n ha hnode hm' hr fun hmem => hd ((trackSample_down_of_ne hw hn).2 hmem)
    · intro a ha hnode hup hevent hroot
      by_cases hbefore : node ∈ s.down
      · -- The outage ends here, so the alert is not one that nothing feeds.
        obtain ⟨htr, hother⟩ := transition_of_leaves hw ht hc hbefore hup
        refine Alert.isThresholdAlert_of (hm a ha) hevent ?_
        by_contra hunfed
        simp only [endsMarkedOutage, hl, hbefore, htr, hother, ne_eq, not_false_eq_true,
          decide_true, Bool.true_and, any_eq_false] at hno
        refine hno a (mem_filterMap.2 ⟨c, ho.covers c (by simp [ha]), ha⟩) ?_
        simpa [hnode, hroot] using hunfed
      · exact (h c a node ha hnode (hm a ha) hroot hbefore).2
  · have hfinal : (s.processCheck order node raw t spec).1 = (s.checkCore node raw t spec).1 := by
      rw [processCheck_eq, resweepIf, if_neg hsweep]
    rw [hfinal, hactive, hrel]
    refine (h c).mono fun n hafter hbefore => ?_
    by_cases hn : n = node
    · subst hn
      obtain ⟨htr, _⟩ := transition_of_leaves hw ht hc hbefore hafter
      exact hsweep (resweeps_of_flip hw hspec (fun _ => hraw)
        (fun he => hafter (he ▸ hbefore)) (.inr htr))
    · exact hafter ((trackSample_down_of_ne hw hn).2 hbefore)

end

/-! ### Every step -/

/-- A step that touches one check keeps the markers releasable when it leaves that check
releasable. -/
theorem MarkersReleasable.of_update {s' : AlertManager} (h : s.MarkersReleasable)
    (hdown : s'.down = s.down) (hother : ∀ d, d ≠ c → s'.entries d = s.entries d)
    (hown : Releasable s.down (s'.active c) (s'.releasing c)) : s'.MarkersReleasable := by
  intro d
  rw [hdown]
  by_cases hd : d = c
  · rw [hd]
    exact hown
  · rw [active_of_entries (hother d hd), releasing_of_entries (hother d hd)]
    exact h d

theorem resolveOrphan_releasable (h : s.MarkersReleasable) (c : CheckId) :
    (s.resolveOrphan c).1.MarkersReleasable := by
  refine h.of_update (atom_live (x := .orphan c) trivial).2 (fun d => s.resolveOrphan_entries) ?_
  rw [resolveOrphan_active, update_self]
  exact .none _ _

/-- Every step that forgets no node keeps the markers releasable, unless it ends an outage that
marks an alert nothing feeds. -/
theorem atom_releasable {x : Atom} (hs : s.Consistent) (hx : AtomOk s x) (hplain : x.Plain)
    (hdrop : x ≠ .dropNodes) (hw : s.Watching) (ht : s.DownTracked)
    (hno : s.endsMarkedOutage x = false) (h : s.MarkersReleasable) :
    (atomStep s x).1.MarkersReleasable := by
  cases x with
  | check order node raw t spec =>
    cases hl : spec.isLiveness with
    | true => exact processCheck_releasable hs hw ht hx.1 hl (hplain hl) (hx.2 hl) hno h
    | false =>
      have halerting : spec.alerting = true := by
        cases hx.1 with
        | liveness hl' _ _ _ _ => simp [hl] at hl'
        | threshold _ ha _ _ _ _ _ => exact ha
      have hdown := (atom_live (s := s) (x := .check order node raw t spec) hl).2
      rw [atomStep, processCheck_of_threshold hl] at hdown ⊢
      exact h.of_update hdown (fun d => s.checkCore_entries node raw t spec)
        (checkCore_releasable hs hl halerting h)
  | retire node metric =>
    rw [atomStep, retire_eq]
    split
    · exact resolveOrphan_releasable (s := s.forgetLegacy _) h _
    · exact h
  | orphan c => exact resolveOrphan_releasable h c
  | close c =>
    refine h.of_update (atom_live (x := .close c) trivial).2 (fun d => s.closeActive_entries) ?_
    rw [show (atomStep s (.close c)).1.active = _ from s.closeActive_active c, update_self]
    exact .none _ _
  | raise a =>
    obtain ⟨raised, rfl⟩ := hx
    simp only [atomStep, raiseEventAlert]
    split
    · exact h
    · refine h.of_update rfl (c := raised.alert.check) (fun d hd => ?_) ?_
      · simp [entries, setActive, hd]
      · intro a n ha _ _ hr _
        simp only [setActive, update_self, Option.some.injEq] at ha
        subst ha
        cases raised <;> simp [Raised.alert, Raised.subjectAlert] at hr
  | regroup order =>
    have hat := reattribute_at hs.slots.keyed hx.nodup none
      fun c a ha _ => hx.covers c (by simp [ha])
    have hcons := atom_consistent (x := .regroup order) hs hx
    intro c
    by_cases hname : c.name = .liveness
    · exact releasable_liveness hcons hname _ _
    · -- Without a node that changed, only liveness alerts are looked at.
      have hsame : s.reattributedAt none c = (s.slot c, []) := by
        refine reattributedAt_of_not_candidate fun a ha => ?_
        have hm : a.metric ≠ .liveness := fun hm => hname ((hs.slots c a ha).liveness.1 hm)
        cases hn : a.node <;> simp [isCandidate, hn, hm]
      have hslot := (hat c).1
      rw [hsame] at hslot
      rw [(atom_live (x := .regroup order) trivial).2]
      simp only [atomStep, regroup, active_of_slot hslot, releasing_of_slot hslot]
      exact h c
  | releaseHeld now order =>
    have hat := releaseHeld_at hs.slots.keyed hx now
    have hcons := atom_consistent (x := .releaseHeld now order) hs hx
    intro c
    by_cases hname : c.name = .liveness
    · exact releasable_liveness hcons hname _ _
    · have hheld : s.held c = none := by
        rw [hs.held]
        cases ha : s.active c with
        | none => rfl
        | some a => exact (hs.slots c a ha).not_held (.inr hname)
      have hslot := (hat c).1
      rw [releasedAt, hheld] at hslot
      rw [(atom_live (x := .releaseHeld now order) trivial).2]
      simp only [atomStep, active_of_slot hslot, releasing_of_slot hslot]
      exact h c
  | dropNodes => exact absurd rfl hdrop
  | forgetLegacy _ | markRows _ | setConfig _ | publishIntervals _ | recordRowName _ _ _ _ =>
    exact h

/-! ### Operations -/

theorem resolveOrphans_states (s : AlertManager) {l : List CheckId} (hc : c ∉ l) :
    (s.resolveOrphans l).1.states c = s.states c := by
  refine emitAll_frame (π := fun s : AlertManager => s.states c) resolveOrphan (fun s d hd => ?_) s
  have hne : c ≠ d := fun he => hc (he ▸ hd)
  exact states_of_entries (s.resolveOrphan_entries hne)

/-- The sweep of deleted nodes keeps the states of the liveness checks of the nodes it does not
forget. -/
theorem forgetDeletedNodes_states (hs : s.Consistent) (hn : s.isForgotten n = false)
    (order : List CheckId) :
    (s.forgetDeletedNodes order).1.states (livenessCheck n) = s.states (livenessCheck n) := by
  unfold forgetDeletedNodes
  split
  · rfl
  next hempty =>
    refine resolveOrphans_states _ fun hmem => ?_
    simp [isForgotten, hempty, isGone_of_mem hs hmem] at hn

/-- The sweep of deleted nodes keeps the trackers of down nodes and the markers in order: what it
forgets about a node, it forgets with the node's alerts. -/
theorem forgetDeletedNodes_releasable (hs : s.Consistent) (ho : Enumerates order s.active)
    (hw : s.Watching) (ht : s.DownTracked) (h : s.MarkersReleasable) :
    (s.forgetDeletedNodes order).1.DownTracked ∧
      (s.forgetDeletedNodes order).1.MarkersReleasable := by
  have hwatch : (s.forgetDeletedNodes order).1.Watching :=
    step_watching hs (show (Op.forgetDeletedNodes order).Ok s from ho) trivial hw
  refine ⟨fun n hn => ?_, fun c a n ha hn hm hr hd => ?_⟩
  · rw [forgetDeletedNodes_live] at hn
    split at hn
    · simp at hn
    next hkept =>
      rw [committedAt, forgetDeletedNodes_states hs (by simpa using hkept)]
      exact ht n hn
  · obtain ⟨hbefore, hkept⟩ := forgetDeletedNodes_active hs ho ha
    rw [(s.forgetDeletedNodes_keeps order).2]
    refine h c a n hbefore hn hm hr ?_
    rw [hwatch.down, forgetDeletedNodes_live, hkept n hn] at hd
    exact fun hmem => hd ((hw.down n).1 hmem)

theorem sparesLiveness_atoms (hs : s.Consistent) {op : Op} (hop : op.SparesLiveness)
    (hforget : ∀ order, op ≠ .forgetDeletedNodes order) : ∀ x ∈ op.atoms s, x.SparesLiveness := by
  intro x hx
  cases atomOf_atoms hx with
  | sample _ h =>
    have hpoll := h.isPoll
    cases x with
    | orphan _ | close _ => exact absurd hpoll id
    | _ => trivial
  | orphan _ hp hc => exact not_liveness_of_orphan hs hp hc
  | stale hc => exact hop _ hc
  | gone hc => exact absurd rfl (hforget _)
  | resolved check =>
    cases check <;> simp [Atom.SparesLiveness, RaisedCheck.check, checkId, subjectCheckId]
  | _ => trivial

theorem step_releasable (hs : s.Consistent) {op : Op} (hop : op.Ok s) (hplain : op.Plain)
    (hspare : op.SparesLiveness) (hno : EachAtom (fun s x => s.endsMarkedOutage x = false) s op)
    (hw : s.Watching) (ht : s.DownTracked) (h : s.MarkersReleasable) :
    (s.step op).1.DownTracked ∧ (s.step op).1.MarkersReleasable := by
  by_cases hforget : ∃ order, op = .forgetDeletedNodes order
  · obtain ⟨order, rfl⟩ := hforget
    exact forgetDeletedNodes_releasable hs hop hw ht h
  · have hother : ∀ order, op ≠ .forgetDeletedNodes order := fun order he => hforget ⟨order, he⟩
    have hdrop := dropNodes_notMem (s := s) hother
    have hkeep : Along (fun _ x => x.Plain ∧ x.SparesLiveness ∧ x ≠ .dropNodes) atomStep s
        (op.atoms s) :=
      Along.of_forall (fun _ x hx => ⟨plain_atoms hw.config hplain x hx,
        sparesLiveness_atoms hs hspare hother x hx, fun he => hdrop (he ▸ hx)⟩) s
    rw [step_eq_atoms]
    refine (((atomOk_atoms hop).and (hkeep.and hno)).invariant
      (P := fun s => (s.Consistent ∧ s.Watching) ∧ s.DownTracked ∧ s.MarkersReleasable) ?_
      ⟨⟨hs, hw⟩, ht, h⟩).2
    rintro s x ⟨hx, ⟨hplain, hspare, hdrop⟩, hno⟩ ⟨⟨hs, hw⟩, ht, h⟩
    exact ⟨⟨atom_consistent hs hx, atom_watching hx hplain hw⟩, atom_downTracked hx hspare ht,
      atom_releasable hs hx hplain hdrop hw ht hno h⟩

/-! ### Runs -/

/-- Seeding the live states takes the state of the first liveness alert of each node. -/
theorem foldl_seedLiveOne_live {l : List Alert}
    (hl : ∀ a ∈ l, (a.metric = .liveness ∧ a.node = some n) ↔ a.check = livenessCheck n)
    (acc : (NodeId → Option NodeState) × List NodeId) :
    (l.foldl seedLiveOne acc).1 n
      = (acc.1 n <|> (l.find? fun a => a.check = livenessCheck n).map Alert.state) := by
  induction l generalizing acc with
  | nil => simp
  | cons a rest ih =>
    rw [foldl_cons, ih fun b hb => hl b (mem_cons_of_mem a hb)]
    have ha := hl a mem_cons_self
    by_cases hc : a.check = livenessCheck n
    · obtain ⟨hm, hn⟩ := ha.2 hc
      cases hacc : acc.1 n <;> simp [seedLiveOne, hm, hn, hacc, hc]
    · have hsame : (seedLiveOne acc a).1 n = acc.1 n := by
        unfold seedLiveOne
        split
        next node hm hn =>
          split
          · rfl
          · have hne : n ≠ node := fun he => hc (ha.1 ⟨hm, he ▸ hn⟩)
            simp [hne]
        · rfl
      simp [hsame, hc]

/-- After start-up the trackers of the down nodes have committed the restored outages, and every
marked alert is that of a node that is down. -/
theorem restored_releasable {rows : List AlertHistoryRow} (hrows : ∀ row ∈ rows, RowOk row) :
    (restored rows).DownTracked ∧ (restored rows).MarkersReleasable := by
  refine ⟨fun n hn => ?_, fun c a n ha hn hm hr hd => ?_⟩
  · have hlive : (restored rows).live n
        = ((rows.map alertFromRow).find? fun a => a.check = livenessCheck n).map Alert.state := by
      rw [restored, (restore_live fresh (rows.map alertFromRow)).1, foldl_seedLiveOne_live]
      · simp [fresh]
      · intro a ha
        obtain ⟨row, hrow, rfl⟩ := mem_map.1 ha
        obtain ⟨hsub, hlive, hshape, _⟩ := hrows row hrow
        have hnode : (alertFromRow row).node = row.check.subject.asNode := by
          rw [← hsub]
          rfl
        rw [hnode]
        constructor
        · rintro ⟨hm, hn⟩
          obtain ⟨n', hn'⟩ := hshape (hlive.1 hm)
          rw [hn'] at hn
          exact hn'.trans (congrArg livenessCheck (Option.some.inj hn))
        · intro hc
          have hc : row.check = livenessCheck n := hc
          exact ⟨hlive.2 (by rw [hc]; rfl), by rw [hc]; rfl⟩
    have hstates := restore_states fresh (rows.map alertFromRow) (livenessCheck n)
    rw [hlive] at hn
    obtain ⟨a, ha, hstate⟩ := Option.map_eq_some_iff.1 hn
    rw [ha] at hstates
    rw [restored, committedAt_of_states hstates]
    exact hstate
  · rw [restored_root ha, hn] at hr
    simp [newRootCause, hm, hd] at hr

/-- Take a run from the restored alerts without maintenance windows, in which no outage ends while
an alert that nothing feeds carries its marker. Then an alert that is still marked by its own
node's outage although the node is up is entered for release, and it is a threshold alert. -/
theorem no_stranded_marker {rows : List AlertHistoryRow} (hrows : ∀ row ∈ rows, RowOk row)
    {ops : List Op} (hplain : ∀ op ∈ ops, op.Plain) (hspare : ∀ op ∈ ops, op.SparesLiveness)
    (hok : Along (fun s op => op.Ok s) step (restored rows) ops)
    (hno : Along (EachAtom fun s x => s.endsMarkedOutage x = false) step (restored rows) ops)
    (c : CheckId) (a : Alert) (n : NodeId)
    (ha : (emitAll step (restored rows) ops).1.active c = some a) (hn : a.node = some n)
    (hm : a.metric ≠ .liveness) (hroot : a.rootCause = some n)
    (hup : n ∉ (emitAll step (restored rows) ops).1.down) :
    ((emitAll step (restored rows) ops).1.releasing c).isSome ∧ a.isThresholdAlert = true := by
  have hsteps : Along (fun s op => (op.Plain ∧ op.SparesLiveness) ∧
      EachAtom (fun s x => s.endsMarkedOutage x = false) s op) step (restored rows) ops :=
    (Along.of_forall (fun _ op hop => ⟨hplain op hop, hspare op hop⟩) _).and hno
  obtain ⟨⟨_, _, h⟩, _⟩ := run_invariant
    (I := fun s => s.Watching ∧ s.DownTracked ∧ s.MarkersReleasable)
    (fun s op hs hop ⟨⟨hplain, hspare⟩, hno⟩ ⟨hw, ht, h⟩ =>
      ⟨step_watching hs hop hplain hw, step_releasable hs hop hplain hspare hno hw ht h⟩)
    (restored_consistent hrows) hok hsteps ⟨restored_watching hrows, restored_releasable hrows⟩
  exact h c a n ha hn hm (by simp [hroot]) hup

end AlertManager

/-- The checks of node 1 in the runs below. -/
def markedChecks : List CheckId :=
  [livenessCheck 1, checkId 1 (.metric .deviceReplaced), checkId 1 (.metric cpu)]

/-- A result of node 1 with readings of the metric. -/
def markedPoll (outcome : CheckOutcome) (readings : List F64) (t : UnixMs) : Op :=
  .observe (cpuPoll outcome readings t) [] markedChecks

/-- One node with a liveness rule and a critical bound. -/
def markedConfig : AlertConfig :=
  AlertConfig.new [livenessRule 1, cpuRule (.above none (some (.finite 90)))] [plainNode 1]

namespace AlertManager

theorem ok_of_marked_run {ops : List Op} (h : Along (Within markedChecks) step fresh ops) :
    Along (fun s op => op.Ok s) step fresh ops :=
  ok_of_within (by decide) consistent_fresh (by simp [fresh]) h

/-- The bound is breached, and then the node goes down and comes back. -/
def breachedOutageOps : List Op :=
  [.setConfig markedConfig rfl, markedPoll .reachable [.finite 95] 1, markedPoll .unreachable [] 2,
    markedPoll .reachable [] 3]

theorem breached_outage_released :
    ((emitAll step (restored []) breachedOutageOps).1.releasing
      (checkId 1 (.metric cpu))).isSome = true := by
  have hopen : ((emitAll step (restored []) breachedOutageOps).1.active
      (checkId 1 (.metric cpu))).map (fun a => (a.node, a.metric, a.rootCause))
      = some (some 1, .metric cpu, some 1) := by decide +kernel
  obtain ⟨a, ha, hfields⟩ := Option.map_eq_some_iff.1 hopen
  simp only [Prod.mk.injEq] at hfields
  have hplain : ∀ op ∈ breachedOutageOps, op.Plain := by
    simp [breachedOutageOps, markedPoll, Op.Plain]
    rfl
  exact (no_stranded_marker noRows_ok hplain
    (by simp [breachedOutageOps, markedPoll, cpuPoll, Op.SparesLiveness])
    (ok_of_marked_run (by decide +kernel)) (by decide +kernel) (checkId 1 (.metric cpu)) a 1 ha
    hfields.1 (by rw [hfields.2.1]; simp) hfields.2.2 (by decide +kernel)).1

/-- The device is replaced, and then the node goes down and comes back. -/
def replacedDeviceOps : List Op :=
  [.setConfig markedConfig rfl, .raiseEvent (.deviceReplaced 1 1), markedPoll .unreachable [] 2,
    markedPoll .reachable [] 3, markedPoll .reachable [] 4]

/-- The node is up again, and the alert about the replaced device keeps the marker. No observation
feeds its check. -/
theorem replaced_device_stays_marked :
    (∀ op ∈ replacedDeviceOps, op.Plain) ∧ (∀ op ∈ replacedDeviceOps, op.SparesLiveness) ∧
    Along (fun s op => op.Ok s) step (restored []) replacedDeviceOps ∧
    let s := (emitAll step (restored []) replacedDeviceOps).1
    (s.active (checkId 1 (.metric .deviceReplaced))).map (fun a => (a.node, a.rootCause))
        = some (some 1, some 1) ∧
      1 ∉ s.down ∧
      (s.active (checkId 1 (.metric .deviceReplaced))).map Alert.isThresholdAlert = some false :=
  ⟨by simp [replacedDeviceOps, markedPoll, cpuPoll, Op.Plain]; rfl,
    by simp [replacedDeviceOps, markedPoll, cpuPoll, Op.SparesLiveness],
    ok_of_marked_run (by decide +kernel), by decide +kernel, by decide +kernel, by decide +kernel⟩

end AlertManager

end Yagra
