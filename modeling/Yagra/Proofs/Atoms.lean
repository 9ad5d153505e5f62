import Yagra.Proofs.Loops

/-!
# `Yagra.Proofs.Atoms`: operations as runs of atomic steps

A poll result is several observations, a sweep closes several alerts. `Atom` lists the steps
such operations are made of, and `Op.atoms` says which ones an operation runs, in order, from
the state it starts in. `step_eq_atoms` is the point: an operation is the run of its atoms. So
an invariant of the engine needs one lemma per atom, and a condition on single observations
can be stated along the atoms of a run.

The atoms of a poll result are known before the first of them runs, because the
configuration, the row names and the index of rows do not change while it is processed
(`processCheck_settings`).
-/

set_option autoImplicit false

namespace Yagra

open Yagra.Lib List

/-- The steps operations are made of. -/
inductive Atom where
  | check (order : List CheckId) (node : NodeId) (raw : NodeState) (atUnixMs : UnixMs)
      (spec : CheckSpec)
  | forgetLegacy (c : CheckId)
  | retire (node : NodeId) (metric : Metric)
  | markRows (keys : List (NodeId × CheckName × Nat))
  | orphan (c : CheckId)
  | close (c : CheckId)
  | raise (a : Alert)
  | regroup (order : List CheckId)
  | releaseHeld (now : UnixMs) (order : List CheckId)
  | dropNodes
  | setConfig (config : AlertConfig)
  | publishIntervals (intervals : NodeId → Option Nat)
  | recordRowName (node : NodeId) (metric : CheckName) (row : Nat) (name : RowText)

namespace AlertManager

variable (s : AlertManager)

/-- Forget the live states, the down entries and the rows of the nodes that are gone. -/
def dropNodes : AlertManager :=
  let forgotten (n : NodeId) : Bool := (s.live n).isSome && s.isGone n
  { s with
      live := fun n => if forgotten n then none else s.live n
      down := s.down.eraseAll (s.down.toList.filter forgotten)
      rowNames := fun k => if forgotten k.1 then none else s.rowNames k
      rowStates := fun k => s.rowStates k && !forgotten k.1 }

/-- Enter rows into the index of rows that hold a state. -/
def markRows (keys : List (NodeId × CheckName × Nat)) : AlertManager :=
  { s with rowStates := fun k => s.rowStates k || keys.contains k }

/-- One atomic step. -/
def atomStep : Atom → Outcome
  | .check order node raw t spec => s.processCheck order node raw t spec
  | .forgetLegacy c => (s.forgetLegacy c, [])
  | .retire node metric => retireLegacyNodeCheck node s metric
  | .markRows keys => (s.markRows keys, [])
  | .orphan c => s.resolveOrphan c
  | .close c => s.closeActive c
  | .raise a => s.raiseEventAlert a
  | .regroup order => s.regroup order
  | .releaseHeld now order => s.releaseHeld order now
  | .dropNodes => (s.dropNodes, [])
  | .setConfig config => (s.setConfig config, [])
  | .publishIntervals intervals => ({ s with intervals := intervals }, [])
  | .recordRowName node metric row name => (s.recordRowName node metric row name, [])

/-! ### An observation and the re-attribution after it -/

/-- One observation of one check, before the other alerts are re-attributed. -/
def checkCore (node : NodeId) (raw : NodeState) (t : UnixMs) (spec : CheckSpec) : Outcome :=
  let tracked := (s.trackSample node raw t spec).1
  if spec.alerting = false then tracked.withoutRule spec.check
  else
    match s.transitionOf raw t spec with
    | none => tracked.withoutTransition raw t spec
    | some tr => tracked.onTransition node raw t spec tr

/-- Whether an observation is followed by a re-attribution: the down set changed, and the
observation did not end without a transition. -/
def resweeps (node : NodeId) (raw : NodeState) (t : UnixMs) (spec : CheckSpec) : Bool :=
  (s.trackSample node raw t spec).2.2 && (!spec.alerting || (s.transitionOf raw t spec).isSome)

theorem processCheck_eq (order : List CheckId) (node : NodeId) (raw : NodeState) (t : UnixMs)
    (spec : CheckSpec) :
    s.processCheck order node raw t spec
      = resweepIf (s.resweeps node raw t spec) order node (s.checkCore node raw t spec) := by
  have htr := s.trackSample_transition node raw t spec
  unfold processCheck checkCore resweeps
  simp only [htr]
  cases spec.alerting with
  | false => simp
  | true => cases s.transitionOf raw t spec <;> simp [resweepIf]

/-! ### What an observation leaves alone -/

/-- Everything but the entries of the alerts: the check states, the live states, the down set
and the settings. -/
def base : AlertManager :=
  { s with
      active := fun _ => none
      sidePending := fun _ => none
      releasing := fun _ => none
      held := fun _ => none }

/-- The part of the engine no observation of a check changes. -/
def settings : AlertManager :=
  { fresh with
      config := s.config
      rowNames := s.rowNames
      rowStates := s.rowStates
      legacyNodeChecks := s.legacyNodeChecks
      intervals := s.intervals }

/-- What the engine holds for one check. -/
structure Entries where
  state : Option CheckState
  alert : Option Alert
  held : Option UnixMs
  side : Option Nat
  release : Option Nat

/-- The entries of a check. -/
def entries (c : CheckId) : Entries :=
  ⟨s.states c, s.active c, s.held c, s.sidePending c, s.releasing c⟩

variable {s : AlertManager} {d : CheckId} {spec : CheckSpec}

section
variable {s' : AlertManager} {c : CheckId} (h : s'.entries c = s.entries c)
include h

theorem states_of_entries : s'.states c = s.states c := congrArg Entries.state h

theorem active_of_entries : s'.active c = s.active c := congrArg Entries.alert h

theorem releasing_of_entries : s'.releasing c = s.releasing c := congrArg Entries.release h

end

theorem base_of_rest {s' : AlertManager} (h : s'.rest = s.rest) : s'.base = s.base := by
  have := congrArg base h
  exact this

theorem down_of_base {s' : AlertManager} (h : s'.base = s.base) : s'.down = s.down := by
  have := congrArg down h
  exact this

theorem live_of_base {s' : AlertManager} (h : s'.base = s.base) : s'.live = s.live := by
  have := congrArg live h
  exact this

theorem config_of_base {s' : AlertManager} (h : s'.base = s.base) : s'.config = s.config := by
  have := congrArg config h
  exact this

section

variable (s : AlertManager)

theorem closeActive_base (c : CheckId) : (s.closeActive c).1.base = s.base := by
  rw [closeActive_frame]
  rfl

theorem closeActive_entries {c : CheckId} (hd : d ≠ c) :
    (s.closeActive c).1.entries d = s.entries d := by
  rcases s.closeActive_cases c with ⟨_, he⟩ | ⟨a, _, _, he⟩ | ⟨a, u, _, _, he⟩ <;> rw [he] <;>
    simp [entries, hd]

theorem withEntries_entries {c : CheckId} (hd : d ≠ c) (alert : Option Alert)
    (side release : Option Nat) : (s.withEntries c alert side release).entries d = s.entries d := by
  simp [entries, withEntries, hd]

variable (node : NodeId) (raw : NodeState) (t : UnixMs)

/-- An observation without a transition writes the check's own entries. -/
theorem withoutTransition_eq (spec : CheckSpec) :
    ∃ alert side release,
      (s.withoutTransition raw t spec).1 = s.withEntries spec.check alert side release := by
  unfold withoutTransition
  rcases s.refreshBreachedSide_cases spec.check raw t spec.eval spec.dwellSamples with
    ⟨side, he⟩ | ⟨ev, a, _, _, _, _, he⟩ <;> simp only [he]
  all_goals
    rcases AlertManager.advanceRelease_cases (s.withEntries spec.check _ _ _) spec.check raw
      spec.dwellSamples with ⟨release, he', _⟩ | ⟨a, _, _, _, he'⟩ <;> rw [he'] <;>
      exact ⟨_, _, _, withEntries_withEntries ..⟩

/-- After moving the tracker, an observation changes the entries of its own alert only. -/
theorem checkCore_tracked (spec : CheckSpec) :
    (s.checkCore node raw t spec).1.base = (s.trackSample node raw t spec).1.base ∧
      ∀ d ≠ spec.check, (s.checkCore node raw t spec).1.entries d
        = (s.trackSample node raw t spec).1.entries d := by
  unfold checkCore
  simp only
  split
  · unfold withoutRule
    split
    · exact ⟨closeActive_base .., fun d hd => closeActive_entries _ hd⟩
    · exact ⟨rfl, fun _ _ => rfl⟩
  · split
    · obtain ⟨alert, side, release, he⟩ :=
        (s.trackSample node raw t spec).1.withoutTransition_eq raw t spec
      rw [he]
      exact ⟨rfl, fun d hd => withEntries_entries _ hd ..⟩
    next tr _ =>
      rcases (s.trackSample node raw t spec).1.onTransition_cases node raw t spec tr with
        ⟨_, he⟩ | ⟨_, _, he⟩ | ⟨_, _, _, _, _, he⟩ <;> rw [he]
      · refine ⟨closeActive_base .., fun d hd => ?_⟩
        rw [closeActive_entries _ hd, settled, withEntries_entries _ hd]
      · exact ⟨rfl, fun d hd => withEntries_entries _ hd ..⟩
      · exact ⟨rfl, fun d hd => by simp [entries, withEntries, hd]⟩

theorem checkCore_base (spec : CheckSpec) :
    (s.checkCore node raw t spec).1.base = (s.trackSample node raw t spec).1.base :=
  (s.checkCore_tracked node raw t spec).1

/-- An observation leaves the entries of the other checks alone, until the alerts are
re-attributed. -/
theorem checkCore_entries (spec : CheckSpec) (hd : d ≠ spec.check) :
    (s.checkCore node raw t spec).1.entries d = s.entries d := by
  rw [(s.checkCore_tracked node raw t spec).2 d hd, trackSample_frame]
  simp [entries, hd]

section

variable (order : List CheckId) (node : NodeId) (raw : NodeState) (t : UnixMs) (spec : CheckSpec)

theorem processCheck_base :
    (s.processCheck order node raw t spec).1.base = (s.trackSample node raw t spec).1.base := by
  rw [processCheck_eq, ← checkCore_base]
  unfold resweepIf
  split
  · exact base_of_rest (reattribute_rest _ order (some node))
  · rfl

/-- An observation moves the state of its own check. -/
theorem processCheck_states :
    (s.processCheck order node raw t spec).1.states
      = Function.update s.states spec.check (some (s.nextState raw t spec)) := by
  have h := congrArg AlertManager.states (s.processCheck_base order node raw t spec)
  rw [trackSample_frame] at h
  exact h

end

end

/-- A liveness observation makes the node's live state what its check has committed. -/
theorem processCheck_live (order : List CheckId) (node : NodeId) (raw : NodeState) (t : UnixMs)
    (hl : spec.isLiveness = true) :
    (s.processCheck order node raw t spec).1.live
      = Function.update s.live node ((s.nextState raw t spec).observed <|> s.live node) := by
  have h := congrArg AlertManager.live (s.processCheck_base order node raw t spec)
  have htrack := s.trackSample_live node raw t spec
  rw [if_pos hl] at htrack
  exact h.trans htrack

/-- An observation of a check changes no setting: not the configuration, the names, the index
of rows, the restored node-wide checks or the intervals. -/
theorem processCheck_settings (s : AlertManager) (order : List CheckId) (node : NodeId)
    (raw : NodeState) (t : UnixMs) (spec : CheckSpec) :
    (s.processCheck order node raw t spec).1.settings = s.settings := by
  have h := congrArg settings (s.processCheck_base order node raw t spec)
  rw [trackSample_frame] at h
  exact h

/-- Only a liveness observation is followed by a re-attribution. -/
theorem resweeps_isLiveness {node : NodeId} {raw : NodeState} {t : UnixMs}
    (h : s.resweeps node raw t spec = true) : spec.isLiveness = true := by
  unfold resweeps at h
  rcases s.trackSample_cases node raw t spec with ⟨_, he⟩ | ⟨_, hl, _, _⟩
  · simp [he] at h
  · exact hl

theorem processCheck_of_threshold (hl : spec.isLiveness = false) (order : List CheckId)
    (node : NodeId) (raw : NodeState) (t : UnixMs) :
    s.processCheck order node raw t spec = s.checkCore node raw t spec := by
  have hno : s.resweeps node raw t spec = false := by
    by_contra hne
    have := resweeps_isLiveness (s := s) (by simpa using hne)
    simp [hl] at this
  simp [processCheck_eq, resweepIf, hno]

/-! ### The atoms of an operation -/

variable (skip : SkipTest) (s) (order : List CheckId)

/-- The atoms of one judged sample. -/
def sampleAtoms (node : NodeId) (moment : Moment) (sample : Sample) (eff : EffectiveThreshold)
    (on : CheckOn) (reading : Reading) : List Atom :=
  (match on with
    | .node => [.forgetLegacy (checkId node sample.name)]
    | .port _ | .row .. => []) ++
  [.check order node (rawState moment sample eff reading) moment.atUnixMs
    (sampleSpec node moment sample eff on reading)]

/-- The rows of a batch with whether each holds a state. -/
def flagRows (rowStates : NodeId × CheckName × Nat → Bool) (node : NodeId)
    (rows : List RowObservation) : List (RowObservation × Bool) :=
  rows.map fun r => (r, rowStates (rowKey node r))

/-- The rows a batch enters into the index. -/
def newlyHeldRows (node : NodeId) (moment : Moment) (flagged : List (RowObservation × Bool)) :
    List (NodeId × CheckName × Nat) :=
  (flagged.filter fun (r, held) => !skip (r.breaching moment) held && !held).map
    fun (r, _) => rowKey node r

/-- The atoms of one row of a batch: none when the row is skipped. -/
def rowAtoms (node : NodeId) (moment : Moment) (entry : RowObservation × Bool) : List Atom :=
  if skip (entry.1.breaching moment) entry.2 then []
  else sampleAtoms order node moment entry.1.sample entry.1.eff (.row entry.1.row entry.1.rowName)
    entry.1.reading

/-- The atoms of a batch of rows. -/
def rowsAtoms (rowStates : NodeId × CheckName × Nat → Bool) (order : List CheckId) (node : NodeId)
    (moment : Moment) (rows : List RowObservation) : List Atom :=
  (rows.map (·.sample.metric)).eraseDups.map (Atom.retire node) ++
    (flagRows rowStates node rows).flatMap (rowAtoms skip order node moment) ++
    [.markRows (newlyHeldRows skip node moment (flagRows rowStates node rows))]

/-- The liveness atom of a poll result, unless it is observational. -/
def livenessAtoms (result : PollResult) : List Atom :=
  if result.observational then []
  else [.check order result.nodeId
    (livenessRaw (s.config.inMaintenance result.nodeId) result.outcome) result.atUnixMs
    (livenessSpec result.nodeId (s.livenessDwell result.nodeId) (s.pollMoment result))]

/-- The atoms of the node-wide and per-port samples of a poll result. -/
def plainAtoms (result : PollResult) (noReading : List Sample) : List Atom :=
  let resolved := s.resolvedSamples result noReading
  (portSamples s.config resolved).flatMap (fun p =>
    sampleAtoms order result.nodeId (s.pollMoment result) p.1 p.2.1 (.port p.2.2) .value) ++
  (foldedSamples resolved).flatMap (fun p =>
    sampleAtoms order result.nodeId (s.pollMoment result) p.1 p.2 .node .value)

/-- The rows of a poll result. -/
def pollRows (result : PollResult) (noReading : List Sample) : List RowObservation :=
  s.rowSamples result.nodeId (s.resolvedSamples result noReading)

/-- The atoms of a poll result, with the test that skips rows. -/
def observeAtoms (skip : SkipTest) (s : AlertManager) (order : List CheckId) (result : PollResult)
    (noReading : List Sample) : List Atom :=
  if s.config.isPaused result.nodeId result.atUnixMs then []
  else
    s.livenessAtoms order result ++ s.plainAtoms order result noReading ++
      if (s.pollRows result noReading).isEmpty then []
      else rowsAtoms skip s.rowStates order result.nodeId (s.pollMoment result)
        (s.pollRows result noReading)

/-- The atoms of a derived value of a port. -/
def interfaceAtoms (node : NodeId) (ifindex : IfIndex) (metric : Metric) (value : F64)
    (atUnixMs : UnixMs) : List Atom :=
  match s.config.resolve node (some ifindex) none (.metric metric) with
  | none => []
  | some eff =>
    if s.config.isPaused node atUnixMs then []
    else [.check [] node
      (if s.config.inMaintenance node then .maintenance else eff.evaluate value) atUnixMs
      { thresholdSpec (interfaceCheckId node ifindex (.metric metric)) (.metric metric) eff
          (some (primaryEval value eff)) (.everyTick watchTickSecs) (s.intervals node) with
        ifindex := some ifindex }]

/-- When the derived values of a node are judged. -/
def derivedMoment (node : NodeId) (atUnixMs : UnixMs) : Moment where
  atUnixMs := atUnixMs
  inMaintenance := s.config.inMaintenance node
  cadence := .everyTick watchTickSecs
  interval := s.intervals node

/-- The atoms of the derived values of a node, with the test that skips rows. -/
def derivedAtoms (skip : SkipTest) (s : AlertManager) (node : NodeId) (metric : Metric)
    (rows : List (Int × F64)) (atUnixMs : UnixMs) : List Atom :=
  if mayObservePorts (s.live node) = false then []
  else
    match (derivedNodeMetric (.metric metric)).filter (·.perRow) with
    | some d =>
      if (s.derivedRows node metric d.input rows).isEmpty ∨ s.config.isPaused node atUnixMs then []
      else rowsAtoms skip s.rowStates [] node (s.derivedMoment node atUnixMs)
        (s.derivedRows node metric d.input rows)
    | none =>
      match s.config.resolve node none none (.metric metric) with
      | none => []
      | some eff =>
        if s.config.isPaused node atUnixMs then []
        else
          match worstValue eff (rows.map Prod.snd) with
          | none => []
          | some value =>
            [.forgetLegacy (checkId node (.metric metric)),
              .check [] node
                (if s.config.inMaintenance node then .maintenance else eff.evaluate value)
                atUnixMs
                (thresholdSpec (checkId node (.metric metric)) (.metric metric) eff
                  (some (primaryEval value eff)) (.everyTick watchTickSecs)
                  (s.intervals node))]

/-- The alerts of the nodes that are gone. -/
def goneAlerts : List CheckId :=
  ((s.activeAlerts order).filter fun a => a.node.any s.isGone).map (·.check)

variable {s}

end AlertManager

/-- The atoms of an operation, from the state it starts in. -/
def Op.atoms (s : AlertManager) : Op → List Atom
  | .observe result noReading order =>
    s.observeAtoms AlertManager.skipHealthy order result noReading
  | .observeInterface node ifindex metric value t => s.interfaceAtoms node ifindex metric value t
  | .observeDerived node metric rows t => s.derivedAtoms AlertManager.skipHealthy node metric rows t
  | .setConfig config _ => [.setConfig config]
  | .publishIntervals intervals => [.publishIntervals intervals]
  | .recordRowName node metric row name => [.recordRowName node metric row name]
  | .regroup order => [.regroup order]
  | .releaseHeld now order => [.releaseHeld now order]
  | .resolveOrphanedInterface order =>
    (((s.activeAlerts order).filter fun a =>
      a.ifindex.isSome && (derivedInterfaceMetricName a.metric).isSome &&
        s.isOrphan a a.ifindex none).map (·.check)).map .orphan
  | .resolveOrphanedNodeDerived order =>
    (((s.activeAlerts order).filter fun a =>
      a.ifindex.isNone && (derivedNodeMetric a.metric).isSome &&
        s.isOrphan a none a.rowName).map (·.check)).map .orphan
  | .resolveOrphanedCollected order =>
    if s.config.nodeMeta.isEmpty then []
    else (((s.activeAlerts order).filter fun a =>
      AlertManager.isCollectedThresholdAlert a && s.isOrphan a a.ifindex a.rowName).map
        (·.check)).map .orphan
  | .resolveStale checks => checks.map .orphan
  | .forgetDeletedNodes order =>
    if s.config.nodeMeta.isEmpty then []
    else .dropNodes :: (s.goneAlerts order).map .orphan
  | .raiseEvent raised => [.raise raised.alert]
  | .resolveEvent check => [.close check.check]

namespace AlertManager

/-! ### An operation is the run of its atoms -/

variable (skip : SkipTest) (s : AlertManager) (order : List CheckId) (node : NodeId)
  (metric : Metric)

theorem observeThresholdSample_eq (moment : Moment) (sample : Sample) (eff : EffectiveThreshold)
    (on : CheckOn) (reading : Reading) :
    s.observeThresholdSample order node moment sample eff on reading
      = emitAll atomStep s (sampleAtoms order node moment sample eff on reading) := by
  cases on <;> simp [observeThresholdSample, sampleAtoms, emitAll_cons, atomStep]

/-- The index of rows is the same after any run of atoms that leave it alone. -/
theorem emitAll_rowStates {s : AlertManager} {l : List Atom}
    (h : ∀ s, ∀ x ∈ l, (atomStep s x).1.rowStates = s.rowStates) :
    (emitAll atomStep s l).1.rowStates = s.rowStates :=
  emitAll_frame (π := fun s => s.rowStates) atomStep h s

theorem processCheck_rowStates (raw : NodeState) (t : UnixMs) (spec : CheckSpec) :
    (s.processCheck order node raw t spec).1.rowStates = s.rowStates := by
  have h := congrArg AlertManager.rowStates (s.processCheck_settings order node raw t spec)
  exact h

theorem resolveOrphan_rowStates (c : CheckId) : (s.resolveOrphan c).1.rowStates = s.rowStates := by
  rw [resolveOrphan_frame]

/-- Retiring a node-wide check forgets it and closes its alert, when it was restored. -/
theorem retire_eq :
    retireLegacyNodeCheck node s metric =
      if s.legacyNodeChecks (checkId node (.metric metric)) then
        (s.forgetLegacy (checkId node (.metric metric))).resolveOrphan
          (checkId node (.metric metric))
      else (s, []) := by
  simp [retireLegacyNodeCheck, resolveOrphans]

theorem retire_rowStates : (retireLegacyNodeCheck node s metric).1.rowStates = s.rowStates := by
  rw [retire_eq]
  split
  · rw [resolveOrphan_rowStates]
    rfl
  · rfl

theorem sampleAtoms_rowStates {order : List CheckId} {node : NodeId} {moment : Moment}
    {sample : Sample} {eff : EffectiveThreshold} {on : CheckOn} {reading : Reading} {x : Atom}
    (hx : x ∈ sampleAtoms order node moment sample eff on reading) (s : AlertManager) :
    (atomStep s x).1.rowStates = s.rowStates := by
  rcases mem_append.1 hx with hx | hx
  · cases on <;> simp at hx
    subst hx
    rfl
  · rw [mem_singleton.1 hx]
    exact s.processCheck_rowStates ..

/-- A batch of rows is the run of its atoms. -/
theorem observeRowsUsing_eq (moment : Moment) (rows : List RowObservation) :
    observeRowsUsing skip s order node moment rows
      = emitAll atomStep s (rowsAtoms skip s.rowStates order node moment rows) := by
  have hretire : emitAll (retireLegacyNodeCheck node) s (rows.map (·.sample.metric)).eraseDups
      = emitAll atomStep s ((rows.map (·.sample.metric)).eraseDups.map (Atom.retire node)) :=
    (emitAll_map atomStep (Atom.retire node) s _).symm
  have hrowStates : (emitAll atomStep s
      ((rows.map (·.sample.metric)).eraseDups.map (Atom.retire node))).1.rowStates
      = s.rowStates := by
    refine emitAll_rowStates fun s x hx => ?_
    obtain ⟨m, _, rfl⟩ := mem_map.1 hx
    exact s.retire_rowStates node m
  have hloop : ∀ (s : AlertManager) (l : List (RowObservation × Bool)),
      emitAll (observeRow skip order node moment) s l
        = emitAll atomStep s (l.flatMap (rowAtoms skip order node moment)) := by
    intro s l
    rw [emitAll_flatMap]
    congr 1
    funext s entry
    unfold observeRow rowAtoms
    simp only
    split
    · rfl
    · exact s.observeThresholdSample_eq ..
  unfold observeRowsUsing rowsAtoms
  rw [emitAll_append, emitAll_append, hretire]
  simp only [hrowStates, hloop, emitAll_singleton, atomStep, markRows, append_nil,
    contains_eq_mem]
  rfl

theorem observeUsing_eq (result : PollResult) (noReading : List Sample) :
    observeUsing (observeRowsUsing skip) s order result noReading
      = emitAll atomStep s (s.observeAtoms skip order result noReading) := by
  have hlive : s.observeLiveness order result
      = emitAll atomStep s (s.livenessAtoms order result) := by
    unfold observeLiveness livenessAtoms
    split <;> simp [atomStep]
  unfold observeUsing observeAtoms
  simp only
  split
  · rfl
  · rw [hlive, plainAtoms]
    -- The rows are flagged with the index the result began with.
    have hrows : (emitAll atomStep (emitAll atomStep s (s.livenessAtoms order result)).1
        (s.plainAtoms order result noReading)).1.rowStates = s.rowStates := by
      rw [emitAll_rowStates, emitAll_rowStates]
      · intro s' x hx
        unfold livenessAtoms at hx
        split at hx
        · cases hx
        · rw [mem_singleton.1 hx]
          exact s'.processCheck_rowStates ..
      · intro s' x hx
        rcases mem_append.1 hx with hx | hx <;>
          obtain ⟨p, _, hx⟩ := mem_flatMap.1 hx <;>
          exact sampleAtoms_rowStates hx s'
    rw [plainAtoms] at hrows
    simp only [emitAll_append, emitAll_flatMap] at hrows ⊢
    simp only [observeThresholdSample_eq, pollRows]
    by_cases hempty : (s.rowSamples result.nodeId (s.resolvedSamples result noReading)).isEmpty
    · simp [hempty]
    · simp only [hempty, Bool.false_eq_true, if_false]
      rw [observeRowsUsing_eq, hrows]
      simp only [append_assoc]

theorem observeInterfaceMetric_eq (ifindex : IfIndex) (metric : Metric) (value : F64) (t : UnixMs) :
    s.observeInterfaceMetric [] node ifindex metric value t
      = emitAll atomStep s (s.interfaceAtoms node ifindex metric value t) := by
  unfold observeInterfaceMetric interfaceAtoms
  cases s.config.resolve node (some ifindex) none (.metric metric) with
  | none => rfl
  | some eff =>
    simp only
    split
    · rfl
    · rw [emitAll_singleton]
      rfl

theorem observeDerivedUsing_eq (rows : List (Int × F64)) (t : UnixMs) :
    observeDerivedUsing (observeRowsUsing skip) s [] node metric rows t
      = emitAll atomStep s (s.derivedAtoms skip node metric rows t) := by
  unfold observeDerivedUsing derivedAtoms
  split
  · rfl
  · cases (derivedNodeMetric (.metric metric)).filter (·.perRow) with
    | some d =>
      simp only [observeDerivedRowsUsing]
      by_cases hempty : (s.derivedRows node metric d.input rows).isEmpty
      · simp [hempty]
      · by_cases hpaused : s.config.isPaused node t
        · simp [hpaused]
        · simp only [hempty, hpaused, Bool.false_eq_true, if_false, or_self]
          rw [observeRowsUsing_eq]
          rfl
    | none =>
      cases s.config.resolve node none none (.metric metric) with
      | none => rfl
      | some eff =>
        simp only
        split
        · rfl
        · cases worstValue eff (rows.map Prod.snd) with
          | none => rfl
          | some value => simp [emitAll_cons, atomStep]

/-- Closing the alerts of a list of checks is one atom per check. -/
theorem resolveOrphans_eq (l : List CheckId) :
    s.resolveOrphans l = emitAll atomStep s (l.map .orphan) :=
  (emitAll_map atomStep Atom.orphan s l).symm

/-- An operation is the run of its atoms. -/
theorem step_eq_atoms (op : Op) : s.step op = emitAll atomStep s (op.atoms s) := by
  cases op with
  | observe result noReading order => exact s.observeUsing_eq skipHealthy order result noReading
  | observeInterface node ifindex metric value t =>
    exact s.observeInterfaceMetric_eq node ifindex metric value t
  | observeDerived node metric rows t =>
    exact s.observeDerivedUsing_eq skipHealthy node metric rows t
  | resolveOrphanedInterface order | resolveOrphanedNodeDerived order => exact s.resolveOrphans_eq _
  | resolveOrphanedCollected order =>
    simp only [step, resolveOrphanedCollectedAlerts, Op.atoms]
    split
    · rfl
    · exact s.resolveOrphans_eq _
  | resolveStale checks => exact s.resolveOrphans_eq checks
  | forgetDeletedNodes order =>
    simp only [step, forgetDeletedNodes, Op.atoms]
    split
    · rfl
    · exact s.dropNodes.resolveOrphans_eq _
  | setConfig _ _ | publishIntervals _ | recordRowName _ _ _ _ | regroup _ | releaseHeld _ _
  | raiseEvent _ | resolveEvent _ =>
    simp only [Op.atoms, emitAll_singleton]
    rfl

end AlertManager

end Yagra
