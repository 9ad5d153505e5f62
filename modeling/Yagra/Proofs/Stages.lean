import Yagra.Alert.System
import Yagra.Proofs.Grouping

/-!
# `Yagra.Proofs.Stages`: what each stage of the engine can do

One lemma per stage of `processCheck`, per loop step and per sweep step. Each says what the
stage can leave behind and what it emits, with the branch conditions. All later proofs about
the engine go through these lemmas and do not unfold the stages.

`SlotOk` is what holds of every alert at its key: it is filed under its own check, about that
check's subject, it is a liveness alert exactly at a node's liveness check, and a held notification
belongs to a liveness alert without a root cause. `WellFormed` says so of a whole engine. The loops
over the active set need it, because they find an alert's entry through the alert.
-/

set_option autoImplicit false

namespace Yagra

open Yagra.Lib Function CheckState

/-- What holds of an alert filed under `c`. -/
structure SlotOk (c : CheckId) (a : Alert) : Prop where
  check : a.check = c
  subject : a.subject = c.subject
  liveness : a.metric = .liveness ↔ c.name = .liveness
  shape : c.name = .liveness → ∃ n, c = livenessCheck n
  held : a.notifyHeldUntil.isSome → a.rootCause = none ∧ c.name = .liveness

/-- Two versions of one incident: the fields that identify it and say what it is about. -/
structure SameIncident (a a' : Alert) : Prop where
  check : a'.check = a.check
  subject : a'.subject = a.subject
  severity : a'.severity = a.severity
  state : a'.state = a.state
  metric : a'.metric = a.metric

/-- A version of an incident without a held notification is filed where the incident was. -/
theorem SlotOk.of_sameIncident {c : CheckId} {a a' : Alert} (h : SlotOk c a)
    (hs : SameIncident a a')
    (hh : a'.notifyHeldUntil = none ∨
      (a'.notifyHeldUntil = a.notifyHeldUntil ∧ a'.rootCause = a.rootCause)) : SlotOk c a' where
  check := hs.check.trans h.check
  subject := hs.subject.trans h.subject
  liveness := by rw [hs.metric]; exact h.liveness
  shape := h.shape
  held := by
    intro hsome
    rcases hh with hh | ⟨hh, hr⟩
    · simp [hh] at hsome
    · rw [hr]; exact h.held (hh ▸ hsome)

/-- Only a liveness alert without a root cause is held. -/
theorem SlotOk.not_held {c : CheckId} {a : Alert} (h : SlotOk c a)
    (hwhy : a.rootCause.isSome ∨ c.name ≠ .liveness) : a.notifyHeldUntil = none := by
  by_contra hne
  obtain ⟨hroot, hname⟩ := h.held (Option.ne_none_iff_isSome.1 hne)
  simp [hroot, hname] at hwhy

namespace AlertManager

variable (s : AlertManager) (c : CheckId)

/-- Every alert in the active set is filed as `SlotOk` says. -/
def WellFormed : Prop := ∀ c a, s.active c = some a → SlotOk c a

theorem wellFormed_fresh : fresh.WellFormed := by
  intro c a h
  simp [fresh] at h

/-! ### Closing an alert -/

/-- Closing finds nothing, or resolves an announced alert, or drops one whose notification was
held. -/
theorem closeActive_cases :
    (s.active c = none ∧ s.closeActive c = (s, [])) ∨
    (∃ a, s.active c = some a ∧ a.notifyHeldUntil = none ∧
      s.closeActive c = ({ s with active := update s.active c none }, [.resolve a])) ∨
    (∃ a u, s.active c = some a ∧ a.notifyHeldUntil = some u ∧
      s.closeActive c = ({ s with
        active := update s.active c none
        held := update s.held c none }, [])) := by
  unfold closeActive
  cases ha : s.active c with
  | none => exact .inl ⟨rfl, rfl⟩
  | some a =>
    cases hu : a.notifyHeldUntil with
    | none => exact .inr (.inl ⟨a, rfl, hu, by simp [hu]⟩)
    | some u => exact .inr (.inr ⟨a, u, rfl, hu, by simp [hu, unhold]⟩)

/-- Raising leaves an alert in the slot. -/
theorem raiseEventAlert_active (m : AlertManager) (a : Alert) :
    ∃ b : Option Alert, b.isSome ∧
      (m.raiseEventAlert a).1.active = update m.active a.check b ∧
      (m.raiseEventAlert a).1.config = m.config := by
  rw [raiseEventAlert]
  split
  next hsame =>
    refine ⟨m.active a.check, ?_, by simp, rfl⟩
    obtain ⟨b, hb, -⟩ := (Option.any_eq_true _ _).1 hsame
    simp [hb]
  next => exact ⟨some a, rfl, rfl, rfl⟩

/-- Closing a check empties its slot and no other. -/
theorem closeActive_active : (s.closeActive c).1.active = update s.active c none := by
  rcases s.closeActive_cases c with ⟨ha, he⟩ | ⟨a, _, _, he⟩ | ⟨a, u, _, _, he⟩ <;> rw [he]
  rw [← ha, update_eq_self]

/-- Closing an alert touches the active set and the held entries only. -/
theorem closeActive_frame :
    (s.closeActive c).1 = { s with
      active := update s.active c none
      held := (s.closeActive c).1.held } := by
  rcases s.closeActive_cases c with ⟨ha, he⟩ | ⟨a, _, _, he⟩ | ⟨a, u, _, _, he⟩ <;> rw [he]
  rw [← ha, update_eq_self]

theorem closeActive_states : (s.closeActive c).1.states = s.states := by
  rw [closeActive_frame]

/-! ### Moving the tracker -/

/-- The check state after a sample. -/
def nextState (raw : NodeState) (atUnixMs : UnixMs) (spec : CheckSpec) :
    CheckState := ((s.checkStateFor spec).observe raw atUnixMs).1

/-- The transition a sample causes. -/
def transitionOf (raw : NodeState) (atUnixMs : UnixMs) (spec : CheckSpec) :
    Option Transition := ((s.checkStateFor spec).observe raw atUnixMs).2

/-- The state a check has committed. A check without a state counts as `ok`. -/
def committedAt : NodeState :=
  ((s.states c).map committed).getD .ok

variable {s : AlertManager} {t : UnixMs}

theorem committedAt_of_states {c : CheckId} {cs : CheckState} (h : s.states c = some cs) :
    s.committedAt c = cs.committed := by
  simp [committedAt, h]

/-- Putting the rule's dwell and window in does not change what is committed. -/
theorem checkStateFor_committed (s : AlertManager) (spec : CheckSpec) :
    (s.checkStateFor spec).committed = s.committedAt spec.check := by
  unfold checkStateFor committedAt
  cases s.states spec.check <;> rfl

variable {spec : CheckSpec} {raw : NodeState}

/-- A transition reports the sample's own state, which was not the committed one before and is
after. -/
theorem transitionOf_some {tr : Transition} (h : s.transitionOf raw t spec = some tr) :
    tr.state = raw ∧ raw ≠ s.committedAt spec.check ∧
      (s.nextState raw t spec).committed = raw ∧
      (s.nextState raw t spec).observed = some raw := by
  have hobs : ((s.checkStateFor spec).dwell.observe raw).2 = some tr.state := by
    rw [← observe_transition _ raw t]
    exact congrArg (Option.map Transition.state) h
  obtain ⟨hstate, hne, hcommitted, hconfirmed, _⟩ := DwellTracker.observe_some hobs
  refine ⟨hstate, ?_, ?_, ?_⟩
  · rw [← checkStateFor_committed]
    exact hne
  · simp only [nextState, committed, observe_dwell, hcommitted]
  · simp only [nextState, observed, observe_dwell, DwellTracker.observed,
      hconfirmed, hcommitted, if_true]

/-- Without a transition the committed state stays. -/
theorem transitionOf_none (h : s.transitionOf raw t spec = none) :
    (s.nextState raw t spec).committed = s.committedAt spec.check := by
  have hobs : ((s.checkStateFor spec).dwell.observe raw).2 = none := by
    rw [← observe_transition _ raw t]
    exact congrArg (Option.map Transition.state) h
  rw [← checkStateFor_committed]
  simp only [nextState, committed, observe_dwell]
  exact DwellTracker.observe_none hobs

section

variable (s : AlertManager) (node : NodeId) (raw : NodeState) (atUnixMs : UnixMs) (spec : CheckSpec)

/-- A sample moves the state of its check. For a confirmed liveness check it also commits the
node's liveness; everything else stays. -/
theorem trackSample_cases :
    let moved : AlertManager := { s with
      states := update s.states spec.check (some (s.nextState raw atUnixMs spec)) }
    ((spec.isLiveness = false ∨ (s.nextState raw atUnixMs spec).observed = none) ∧
      s.trackSample node raw atUnixMs spec = (moved, s.transitionOf raw atUnixMs spec, false)) ∨
    (∃ committed, spec.isLiveness = true ∧
      (s.nextState raw atUnixMs spec).observed = some committed ∧
      s.trackSample node raw atUnixMs spec
        = ((moved.commitLive node committed).1, s.transitionOf raw atUnixMs spec,
            (moved.commitLive node committed).2)) := by
  intro moved
  simp only [trackSample]
  cases hl : spec.isLiveness with
  | false => exact .inl ⟨.inl rfl, rfl⟩
  | true =>
    cases ho : (s.nextState raw atUnixMs spec).observed with
    | none =>
      refine .inl ⟨.inr rfl, ?_⟩
      simp only [nextState] at ho
      simp only [ho]
      rfl
    | some committed =>
      refine .inr ⟨committed, rfl, rfl, ?_⟩
      simp only [nextState] at ho
      simp only [ho]
      rfl

/-- Moving the tracker touches the check states, the live states and the down set only. -/
theorem trackSample_frame :
    (s.trackSample node raw atUnixMs spec).1 = { s with
      states := update s.states spec.check (some (s.nextState raw atUnixMs spec))
      live := (s.trackSample node raw atUnixMs spec).1.live
      down := (s.trackSample node raw atUnixMs spec).1.down } := by
  rcases s.trackSample_cases node raw atUnixMs spec with ⟨_, he⟩ | ⟨committed, _, _, he⟩
  · rw [he]
  · rw [he]; rfl

theorem trackSample_transition :
    (s.trackSample node raw atUnixMs spec).2.1 = s.transitionOf raw atUnixMs spec := by
  rcases s.trackSample_cases node raw atUnixMs spec with ⟨_, he⟩ | ⟨committed, _, _, he⟩ <;>
    rw [he]

/-- A liveness sample makes the node's live state the state its check has committed, once one
is confirmed. No other sample touches the live states. -/
theorem trackSample_live :
    (s.trackSample node raw atUnixMs spec).1.live
      = if spec.isLiveness then
          update s.live node ((s.nextState raw atUnixMs spec).observed <|> s.live node)
        else s.live := by
  rcases s.trackSample_cases node raw atUnixMs spec with ⟨hno, he⟩ | ⟨committed, hl, ho, he⟩
  · rw [he]
    split
    next hl =>
      rcases hno with hno | hno
      · simp [hl] at hno
      · simp [hno]
    · rfl
  · rw [he, if_pos hl, ho]
    rfl

end

/-! ### Without a transition -/

/-- The check's own entries replaced: what an observation without a transition can write. -/
def withEntries (s : AlertManager) (c : CheckId) (alert : Option Alert)
    (side release : Option Nat) : AlertManager :=
  { s with
      active := update s.active c alert
      sidePending := update s.sidePending c side
      releasing := update s.releasing c release }

section

variable (s : AlertManager) (c : CheckId)

variable (raw : NodeState) (dwell : Nat) (alert : Option Alert) (side : Option Nat)
  (release : Option Nat)

@[simp] theorem withEntries_active : (s.withEntries c alert side release).active c = alert := by
  simp [withEntries]

@[simp] theorem withEntries_sidePending :
    (s.withEntries c alert side release).sidePending c = side := by
  simp [withEntries]

@[simp] theorem withEntries_releasing :
    (s.withEntries c alert side release).releasing c = release := by
  simp [withEntries]

/-- The last entries written at a check are the ones that count. -/
@[simp] theorem withEntries_withEntries (alert' : Option Alert)
    (side side' release release' : Option Nat) :
    (s.withEntries c alert side release).withEntries c alert' side' release'
      = s.withEntries c alert' side' release' := by
  simp [withEntries]

/-- A side refresh changes nothing but the pending count, or fires the open alert again with
the other side's breach. -/
theorem refreshBreachedSide_cases (atUnixMs : UnixMs) (eval : Option ThresholdEval) (dwell : Nat) :
    (∃ side, s.refreshBreachedSide c raw atUnixMs eval dwell
      = (s.withEntries c (s.active c) side (s.releasing c), [])) ∨
    (∃ ev a, eval = some ev ∧ s.active c = some a ∧ a.breach.isSome ∧ a.state = raw ∧
      s.refreshBreachedSide c raw atUnixMs eval dwell
        = (s.withEntries c
            (some { a with breach := some (breachFor a.severity ev), atUnixMs := atUnixMs })
            none (s.releasing c),
          [.fire { a with
            breach := some (breachFor a.severity ev), atUnixMs := atUnixMs }])) := by
  have hquiet : ∀ side, ({ s with sidePending := update s.sidePending c side } :
      AlertManager) = s.withEntries c (s.active c) side (s.releasing c) := by
    intro side
    simp only [withEntries, update_eq_self]
  unfold refreshBreachedSide
  cases eval with
  | none => exact .inl ⟨none, congrArg (·, []) (hquiet none)⟩
  | some ev =>
    cases ha : s.active c with
    | none =>
      rw [ha] at hquiet
      exact .inl ⟨none, congrArg (·, []) (hquiet none)⟩
    | some a =>
      rw [ha] at hquiet
      cases hb : a.breach with
      | none =>
        simp only [hb]
        exact .inl ⟨none, congrArg (·, []) (hquiet none)⟩
      | some previous =>
        simp only [hb]
        split
        · exact .inl ⟨none, congrArg (·, []) (hquiet none)⟩
        next hside =>
          split
          · exact .inl ⟨_, congrArg (·, []) (hquiet _)⟩
          · have hstate : a.state = raw := by
              by_contra hne
              exact hside (.inl hne)
            refine .inr ⟨ev, a, rfl, rfl, by simp [hb], hstate, ?_⟩
            simp only [withEntries, setActive, update_eq_self]

/-- Advancing a release changes nothing but the release count, or takes the marker off the
open alert and fires it. A count is only given up when no marked alert is left. -/
theorem advanceRelease_cases :
    (∃ release, s.advanceRelease c raw false dwell
        = (s.withEntries c (s.active c) (s.sidePending c) release, none) ∧
      (release.isSome = (s.releasing c).isSome ∨ ∀ a, s.active c = some a → a.rootCause = none)) ∨
    (∃ a, s.active c = some a ∧ a.rootCause.isSome ∧ (s.releasing c).isSome ∧
      s.advanceRelease c raw false dwell
        = (s.withEntries c (some { a with rootCause := none }) (s.sidePending c) none,
            some (.fire { a with rootCause := none }))) := by
  have hquiet : ∀ release, ({ s with releasing := update s.releasing c release } :
      AlertManager) = s.withEntries c (s.active c) (s.sidePending c) release := by
    intro release
    simp only [withEntries, update_eq_self]
  have hnone : s = s.withEntries c (s.active c) (s.sidePending c) (s.releasing c) := by
    simp only [withEntries, update_eq_self]
  unfold advanceRelease
  cases hr : s.releasing c with
  | none =>
    rw [hr] at hnone
    exact .inl ⟨none, congrArg (·, none) hnone, .inl rfl⟩
  | some seen =>
    simp only [Bool.false_eq_true, if_false]
    split
    · exact .inl ⟨some 0, congrArg (·, none) (hquiet (some 0)), .inl rfl⟩
    · split
      · exact .inl ⟨some (seen + 1), congrArg (·, none) (hquiet _), .inl rfl⟩
      · cases ha : s.active c with
        | none =>
          rw [ha] at hquiet
          exact .inl ⟨none, congrArg (·, none) (hquiet none), .inr (by simp)⟩
        | some a =>
          rw [ha] at hquiet
          simp only
          split
          next hroot =>
            refine .inr ⟨a, rfl, hroot, rfl, ?_⟩
            simp only [withEntries, setActive, update_eq_self]
          next hroot =>
            refine .inl ⟨none, congrArg (·, none) (hquiet none), .inr ?_⟩
            intro a' ha'
            cases ha'
            simpa using hroot

/-- A committed sample gives up the check's release count. -/
theorem advanceRelease_transitioned :
    (s.advanceRelease c raw true dwell).1 = { s with releasing := update s.releasing c none } := by
  have hnone : s = { s with releasing := update s.releasing c (s.releasing c) } := by
    simp only [update_eq_self]
  unfold advanceRelease
  cases hr : s.releasing c with
  | none =>
    rw [hr] at hnone
    exact hnone
  | some seen => rfl

end

/-- How an open alert can be fired again without a transition: with the breach of a sample
that is in the alert's own state, or without its marker, or both. -/
structure Refreshed (raw : NodeState) (eval : Option ThresholdEval) (a a' : Alert) : Prop where
  same : SameIncident a a'
  held : a'.notifyHeldUntil = a.notifyHeldUntil
  root : a'.rootCause = a.rootCause ∨ a'.rootCause = none
  breach : a'.breach = a.breach ∨ ∃ ev, eval = some ev ∧ a.breach.isSome ∧ a.state = raw ∧
    a'.breach = some (breachFor a.severity ev)

variable (s)

/-- An observation without a transition writes the check's own entries. It leaves the alert
alone and emits nothing, or it fires the alert once as it is then. A side fire needs a
threshold sample and a breach; a release needs a marker. A release count is only given up
when no marked alert is left. The time of the alert changes only with the side of its breach. -/
theorem withoutTransition_cases (raw : NodeState) (atUnixMs : UnixMs) (spec : CheckSpec)
    (hw : s.WellFormed) :
    (∃ side release, s.withoutTransition raw atUnixMs spec
        = (s.withEntries spec.check (s.active spec.check) side release, []) ∧
      (release.isSome = (s.releasing spec.check).isSome ∨
        ∀ a, s.active spec.check = some a → a.rootCause = none)) ∨
    (∃ a a' side release, s.active spec.check = some a ∧ Refreshed raw spec.eval a a' ∧
      (spec.eval.isSome ∨ a.rootCause.isSome) ∧
      s.withoutTransition raw atUnixMs spec
        = (s.withEntries spec.check (some a') side release, [.fire a']) ∧
      (release.isSome = (s.releasing spec.check).isSome ∨ a'.rootCause = none) ∧
      (a'.atUnixMs = a.atUnixMs ∨
        a'.atUnixMs = atUnixMs ∧ a.breach.isSome ∧ a.state = raw ∧ spec.eval.isSome)) := by
  unfold withoutTransition
  rcases s.refreshBreachedSide_cases spec.check raw atUnixMs spec.eval spec.dwellSamples with
    ⟨side, he⟩ | ⟨ev, a, hev, ha, hb, hstate, he⟩ <;> simp only [he]
  · -- The side is unchanged: what is left is the release.
    rcases (s.withEntries spec.check (s.active spec.check) side
      (s.releasing spec.check)).advanceRelease_cases spec.check raw spec.dwellSamples with
      ⟨release, he', hrel⟩ | ⟨a, ha, hroot, _, he'⟩ <;>
      simp only [withEntries_active, withEntries_releasing, withEntries_sidePending,
        withEntries_withEntries] at *
    · exact .inl ⟨side, release, by rw [he'], hrel⟩
    · refine .inr ⟨a, { a with rootCause := none }, side, none, ha,
        ⟨⟨rfl, rfl, rfl, rfl, rfl⟩, rfl, .inr rfl, .inl rfl⟩, .inr hroot, ?_, .inr rfl,
        .inl rfl⟩
      rw [he']
      rfl
  · -- The side changed: a release on top of it fires the alert once, with both changes.
    have hcheck : a.check = spec.check := (hw _ _ ha).check
    have hbreach : ∃ ev', spec.eval = some ev' ∧ a.breach.isSome ∧ a.state = raw ∧
        some (breachFor a.severity ev) = some (breachFor a.severity ev') :=
      ⟨ev, hev, hb, hstate, rfl⟩
    rcases AlertManager.advanceRelease_cases (s.withEntries spec.check (some _) none
      (s.releasing spec.check)) spec.check raw spec.dwellSamples with
      ⟨release, he', hrel⟩ | ⟨b, hb', hroot, _, he'⟩ <;>
      simp only [withEntries_active, withEntries_releasing, withEntries_sidePending,
        withEntries_withEntries] at *
    · refine .inr ⟨a, { a with
        breach := some (breachFor a.severity ev), atUnixMs := atUnixMs }, none, release, ha,
        ⟨⟨rfl, rfl, rfl, rfl, rfl⟩, rfl, .inl rfl, .inr hbreach⟩, .inl (by simp [hev]),
        by rw [he'], ?_, .inr ⟨rfl, hb, hstate, by simp [hev]⟩⟩
      exact hrel.imp id fun h => h _ rfl
    · cases hb'
      refine .inr ⟨a, { a with
        breach := some (breachFor a.severity ev), atUnixMs := atUnixMs, rootCause := none },
        none, none, ha, ⟨⟨rfl, rfl, rfl, rfl, rfl⟩, rfl, .inr rfl, .inr hbreach⟩,
        .inl (by simp [hev]), ?_, .inr rfl, .inr ⟨rfl, hb, hstate, by simp [hev]⟩⟩
      rw [he']
      simp [hcheck]

/-! ### A transition -/

/-- The alert a transition to a state of a severity opens, before a hold is decided. -/
def alertFor (node : NodeId) (atUnixMs : UnixMs) (spec : CheckSpec) (t : Transition)
    (severity : Severity) : Alert where
  subject := .node node
  check := spec.check
  severity := severity
  state := t.state
  atUnixMs := atUnixMs
  rootCause := s.rootCauseAtFire node spec.isLiveness t.state
  flapping := t.flapping
  metric := spec.metric
  breach := spec.eval.map (breachFor severity)
  ifindex := spec.ifindex
  row := spec.row
  rowName := spec.rowName
  notifyHeldUntil := none

/-- The engine with a check's pending counts given up, as a transition leaves them. -/
def settled (c : CheckId) : AlertManager :=
  s.withEntries c (s.active c) none none

variable {s}

/-- A hold is only put on a fresh liveness alert of an unreachable node that nothing explains,
while the grouping waits and the node is grouped at all. -/
theorem holdUntil_some {node : NodeId} {a : Alert} {u : UnixMs}
    (h : s.holdUntil node a t = some u) :
    a.rootCause = none ∧ a.state = .unreachable ∧ s.config.groupingWait = true ∧
      s.config.grouping.levelOf node ≠ .off ∧ s.failingNeighbours node ≠ [] := by
  unfold holdUntil at h
  split at h
  · simp at h
  next h1 =>
    split at h
    · simp at h
    next h2 =>
      simp only [not_or, Option.not_isSome_iff_eq_none, ne_eq, not_not] at h1
      simp only [not_or, Bool.not_eq_false] at h2
      refine ⟨h1.1, h1.2, h2.1, h2.2, ?_⟩
      rintro hnil
      simp [hnil] at h

/-- A transition closes the check's alert, or fires the new one, or holds it back. -/
theorem onTransition_cases (s : AlertManager) (node : NodeId) (raw : NodeState)
    (atUnixMs : UnixMs) (spec : CheckSpec) (t : Transition) :
    (t.state.severity = none ∧
      s.onTransition node raw atUnixMs spec t = (s.settled spec.check).closeActive spec.check) ∨
    (∃ severity, t.state.severity = some severity ∧
      s.onTransition node raw atUnixMs spec t
        = (s.withEntries spec.check (some (s.alertFor node atUnixMs spec t severity)) none none,
            [.fire (s.alertFor node atUnixMs spec t severity)])) ∨
    (∃ severity u, t.state.severity = some severity ∧ spec.isLiveness = true ∧
      s.holdUntil node (s.alertFor node atUnixMs spec t severity) atUnixMs = some u ∧
      s.onTransition node raw atUnixMs spec t
        = ({ s.withEntries spec.check (some { s.alertFor node atUnixMs spec t severity with
              notifyHeldUntil := some u }) none none with
            held := update s.held spec.check (some u) }, [])) := by
  have hsettled : ({ (s.advanceRelease spec.check raw true spec.dwellSamples).1 with
      sidePending := update
        (s.advanceRelease spec.check raw true spec.dwellSamples).1.sidePending spec.check none } :
      AlertManager) = s.settled spec.check := by
    simp [advanceRelease_transitioned, settled, withEntries]
  have hrc : (s.settled spec.check).rootCauseAtFire node spec.isLiveness t.state
      = s.rootCauseAtFire node spec.isLiveness t.state := rfl
  simp only [onTransition, hsettled, hrc, Transition.toAlert]
  cases hsev : t.state.severity with
  | none => exact .inl ⟨rfl, rfl⟩
  | some severity =>
    simp only [Option.map_some]
    have halert : describeAlert
        { subject := .node node, check := spec.check, severity := severity, state := t.state,
          atUnixMs := atUnixMs, rootCause := s.rootCauseAtFire node spec.isLiveness t.state,
          flapping := t.flapping, metric := .metric (.series ""), breach := none,
          ifindex := none, row := none, rowName := none, notifyHeldUntil := none } spec
        = s.alertFor node atUnixMs spec t severity := by
      cases he : spec.eval <;> simp [describeAlert, alertFor, he]
    rw [halert]
    have hhold : (s.settled spec.check).holdUntil node
          (s.alertFor node atUnixMs spec t severity) atUnixMs
        = s.holdUntil node (s.alertFor node atUnixMs spec t severity) atUnixMs := rfl
    simp only [openAlert, hhold]
    cases hl : spec.isLiveness with
    | false =>
      refine .inr (.inl ⟨severity, rfl, ?_⟩)
      simp [settled, withEntries, setActive, alertFor]
    | true =>
      simp only [if_true]
      cases hu : s.holdUntil node (s.alertFor node atUnixMs spec t severity) atUnixMs with
      | none =>
        refine .inr (.inl ⟨severity, rfl, ?_⟩)
        simp [settled, withEntries, setActive, alertFor]
      | some u =>
        refine .inr (.inr ⟨severity, u, rfl, trivial, hu, ?_⟩)
        simp [settled, withEntries, setActive]

end AlertManager

end Yagra
