import Yagra.Proofs.Restoring

/-!
# `Yagra.Proofs.Trackers`: open alerts and committed states

A check's tracker reports a committed change once. Whether the check's alert is then opened or
closed is up to the step that sees the report. Two results compare the tracker with the active
set.

`no_alert_after_recovery`: in a run of poll results and configurations from the restored alerts,
a check that has committed a state without a severity has no alert. The exception is a result
that recovers a check with an open alert before the first configuration is loaded: the report is
used up and the alert stays (`restored_outage_stays`).

`liveness_rule_takes_effect_iff`: when a liveness rule covers a node, a dwell of unreachable
results leaves an open alert, unless the tracker had committed the outage already while no alert
was open. Then nothing is reported any more. Deleting a rule leaves the engine in that state: the
open alert is closed and the tracker stays (`recreated_rule_is_silent`).
-/

set_option autoImplicit false

open Function (update_of_ne update_self)

namespace Yagra

open Yagra.Lib CheckState List

/-- A move to an open alert begins at one, or opens it. -/
theorem Move.isSome_before {P : Option Alert → Alert → Prop} {c : CheckId} {b b' : Option Alert}
    {acts : List NotifyAction} (h : Move P c b acts b') (hsome : b'.isSome) :
    b.isSome ∨ ∃ a, P b a := by
  cases h with
  | stay => exact .inl hsome
  | opened hp _ _ | holding hp _ _ => exact .inr ⟨_, hp⟩
  | closed | dropped => simp at hsome
  | refired | retagged | suppressed => exact .inl rfl

namespace AlertManager

/-! ### Re-attribution opens and closes nothing -/

theorem reattributeEntry_isSome (attribution : NodeId → Option NodeId) (down : OrdSet NodeId)
    (alert : Alert) (x : Slot) :
    (reattributeEntry attribution down alert x).1.alert.isSome = x.alert.isSome := by
  unfold reattributeEntry
  cases alert.node with
  | none => rfl
  | some n =>
    simp only
    cases hx : x.alert <;> split_ifs <;> simp [hx]

variable (s : AlertManager) (order : List CheckId)

/-- Re-attribution opens and closes no alert. -/
theorem reattribute_isSome (changed : Option NodeId) (c : CheckId) :
    ((s.reattribute order changed).1.active c).isSome = (s.active c).isSome := by
  refine emitAll_frame (π := fun s : AlertManager => (s.active c).isSome) _ (fun s a _ => ?_) s
  rw [reattributeOne_eq]
  by_cases hc : c = a.check
  · subst hc
    simp [withSlot, reattributeEntry_isSome, slot]
  · simp [withSlot, hc]

/-- A release pass opens and closes no alert. -/
theorem releaseHeld_isSome (now : UnixMs) (c : CheckId) :
    ((s.releaseHeld order now).1.active c).isSome = (s.active c).isSome := by
  refine emitAll_frame (π := fun s : AlertManager => (s.active c).isSome) _ (fun s a _ => ?_) s
  rw [releaseOne_eq]
  by_cases hc : c = a.1
  · subst hc
    simp only [withSlot, update_self, released, slot]
    cases ha : s.active a.1 with
    | none => simp
    | some alert =>
      simp only
      cases alert.node with
      | none => simp
      | some n => simp only; split_ifs <;> simp
  · simp [withSlot, hc]

/-- What an observation opens and closes, it does before the other alerts are re-attributed. -/
theorem processCheck_isSome (node : NodeId) (raw : NodeState) (t : UnixMs) (spec : CheckSpec)
    (c : CheckId) :
    ((s.processCheck order node raw t spec).1.active c).isSome
      = ((s.checkCore node raw t spec).1.active c).isSome := by
  rw [processCheck_eq]
  unfold resweepIf
  split
  · exact reattribute_isSome _ _ _ _
  · rfl

/-! ### One observation -/

section
variable {s : AlertManager} {order : List CheckId} {node : NodeId} {raw : NodeState} {t : UnixMs}
  {spec : CheckSpec} {tr : Transition}

/-- A committed state without a severity closes the alert, if a rule covers the check or a
configuration is loaded. -/
theorem checkCore_closes (htr : s.transitionOf raw t spec = some tr)
    (hsev : tr.state.severity = none)
    (hrule : spec.alerting = true ∨ s.config.loaded = true) :
    (s.checkCore node raw t spec).1.active spec.check = none := by
  unfold checkCore
  split
  next halerting =>
    have hloaded : (s.trackSample node raw t spec).1.config.loaded = true := by
      rw [trackSample_frame]
      exact hrule.resolve_left (by simp [halerting])
    rw [withoutRule, if_pos hloaded, closeActive_active, update_self]
  · simp only [htr]
    rcases (s.trackSample node raw t spec).1.onTransition_cases node raw t spec tr with
      ⟨_, he⟩ | ⟨_, hsev', _⟩ | ⟨_, _, hsev', _⟩
    · rw [he, closeActive_active, update_self]
    · simp [hsev] at hsev'
    · simp [hsev] at hsev'

/-- A committed state with a severity opens an alert, if a rule covers the check. -/
theorem checkCore_opens (htr : s.transitionOf raw t spec = some tr)
    (hsev : tr.state.severity.isSome) (halerting : spec.alerting = true) :
    ((s.checkCore node raw t spec).1.active spec.check).isSome := by
  unfold checkCore
  simp only [halerting, Bool.true_eq_false, if_false, htr]
  rcases (s.trackSample node raw t spec).1.onTransition_cases node raw t spec tr with
    ⟨hsev', _⟩ | ⟨_, _, he⟩ | ⟨_, _, _, _, _, he⟩
  · simp [hsev'] at hsev
  · rw [he]
    simp
  · rw [he]
    simp [withEntries]

/-- Without a transition, a check that a rule covers keeps its alert, or has none. -/
theorem checkCore_isSome_of_no_transition (hw : s.WellFormed)
    (htr : s.transitionOf raw t spec = none) (halerting : spec.alerting = true) :
    ((s.checkCore node raw t spec).1.active spec.check).isSome = (s.active spec.check).isSome := by
  have hframe := s.trackSample_frame node raw t spec
  have hactive : (s.trackSample node raw t spec).1.active = s.active := by rw [hframe]
  have hw' : (s.trackSample node raw t spec).1.WellFormed := by
    intro c a ha
    rw [hactive] at ha
    exact hw c a ha
  unfold checkCore
  simp only [halerting, Bool.true_eq_false, if_false, htr]
  rcases (s.trackSample node raw t spec).1.withoutTransition_cases raw t spec hw' with
    ⟨side, release, he, _⟩ | ⟨a, a', side, release, ha, _, _, he, _⟩ <;> rw [he]
  · rw [withEntries_active, hactive]
  · rw [hactive] at ha
    rw [withEntries_active, ha]
    rfl

end

/-! ### No alert outlives its recovery -/

/-- The step recovers a check with an open alert before a configuration is loaded: it commits a
state without a severity, and neither a rule nor a loaded configuration closes the alert. -/
def recoversUnloaded (s : AlertManager) : Atom → Bool
  | .check _ _ raw t spec =>
    !spec.alerting && !s.config.loaded && (s.active spec.check).isSome &&
      (s.transitionOf raw t spec).any (fun tr => tr.state.severity.isNone)
  | _ => false

/-- Every check with an open alert has committed a state with a severity. -/
def AlertsTracked (s : AlertManager) : Prop :=
  ∀ c, (s.active c).isSome → (s.committedAt c).severity.isSome

/-- An observation that is not such a step keeps it so, check by check. -/
theorem processCheck_trackedAt {s : AlertManager} (hs : s.Consistent) {order : List CheckId}
    {node : NodeId} {raw : NodeState} {t : UnixMs} {spec : CheckSpec}
    (hspec : SpecOk node raw spec)
    (hno : s.recoversUnloaded (.check order node raw t spec) = false) {c : CheckId}
    (h : (s.active c).isSome → (s.committedAt c).severity.isSome)
    (hc : ((s.processCheck order node raw t spec).1.active c).isSome) :
    ((s.processCheck order node raw t spec).1.committedAt c).severity.isSome := by
  rw [processCheck_isSome] at hc
  by_cases hd : c = spec.check
  · subst hd
    have hnext : (s.processCheck order node raw t spec).1.committedAt spec.check
        = (s.nextState raw t spec).committed := by
      rw [committedAt_of_states (by rw [processCheck_states, update_self])]
    rw [hnext]
    -- The alert was open before, or the sample committed a state with a severity.
    have hbefore : (s.active spec.check).isSome ∨
        ∃ tr, s.transitionOf raw t spec = some tr ∧ tr.state.severity.isSome := by
      have hmove := (checkCore_effect (P := fun _ _ => ∃ tr,
        s.transitionOf raw t spec = some tr ∧ tr.state.severity.isSome) hs hspec
        fun a (ho : Opens s (.check order node raw t spec) spec.check a) => by
          cases ho with
          | transition _ _ htr hsev _ _ => exact ⟨_, htr, by simp [hsev]⟩).moves spec.check
      exact (hmove.isSome_before hc).imp_right fun ⟨_, hp⟩ => hp
    cases htr : s.transitionOf raw t spec with
    | none =>
      rw [transitionOf_none htr]
      exact h (hbefore.resolve_right (by simp [htr]))
    | some tr =>
      obtain ⟨hstate, _, hcommitted, _⟩ := transitionOf_some htr
      rw [hcommitted, ← hstate]
      by_contra hsev
      have hsev : tr.state.severity = none := by simpa using hsev
      have hopen : (s.active spec.check).isSome :=
        hbefore.resolve_right (by simp [htr, hsev])
      by_cases hrule : spec.alerting = true ∨ s.config.loaded = true
      · simp [checkCore_closes htr hsev hrule] at hc
      · simp only [not_or, Bool.not_eq_true] at hrule
        simp [recoversUnloaded, hrule, hopen, htr, hsev] at hno
  · have hactive := active_of_entries (s.checkCore_entries node raw t spec hd)
    have hstates : (s.processCheck order node raw t spec).1.committedAt c = s.committedAt c := by
      unfold committedAt
      rw [processCheck_states, update_of_ne hd]
    rw [hstates]
    rw [hactive] at hc
    exact h hc

theorem atom_tracked {s : AlertManager} {x : Atom} (hs : s.Consistent) (hx : AtomOk s x)
    (hpoll : x.IsPoll) (hno : s.recoversUnloaded x = false) (h : s.AlertsTracked) :
    (atomStep s x).1.AlertsTracked := by
  cases x with
  | check order node raw t spec => exact fun c => processCheck_trackedAt hs hx.1 hno (h c)
  | retire node metric =>
    intro c hc
    by_cases hd : c = checkId node (.metric metric)
    · -- A node-wide check that is retired has no alert left.
      rw [atomStep, retire_eq] at hc ⊢
      split at hc
      · rw [resolveOrphan_active, hd] at hc
        simp at hc
      next hlegacy =>
        rw [if_neg hlegacy]
        exact h c hc
    · have he := atom_entries (s := s) (x := .retire node metric) hd
      rw [committedAt, states_of_entries he]
      rw [active_of_entries he] at hc
      exact h c hc
  | forgetLegacy _ | markRows _ => exact h
  | orphan _ | close _ | raise _ | regroup _ | releaseHeld _ _ | dropNodes | setConfig _
  | publishIntervals _ | recordRowName _ _ _ _ => exact absurd hpoll id

end AlertManager

/-- A poll result, or a configuration. -/
def Op.isPollOrConfig : Op → Bool
  | .observe .. | .setConfig .. => true
  | _ => false

namespace AlertManager

theorem atoms_tracked {s : AlertManager} (hs : s.Consistent) {l : List Atom}
    (hok : Along AtomOk atomStep s l) (hpoll : ∀ x ∈ l, x.IsPoll)
    (hno : Along (fun s x => s.recoversUnloaded x = false) atomStep s l) (h : s.AlertsTracked) :
    (emitAll atomStep s l).1.AlertsTracked := by
  induction l generalizing s with
  | nil => exact h
  | cons x rest ih =>
    have hcons := atom_consistent hs hok.1
    exact ih hcons hok.2 (fun y hy => hpoll y (mem_cons_of_mem x hy)) hno.2
      (atom_tracked hs hok.1 (hpoll x mem_cons_self) hno.1 h)

theorem step_tracked {s : AlertManager} (hs : s.Consistent) {op : Op} (hop : op.Ok s)
    (hpoll : op.isPollOrConfig = true)
    (hno : EachAtom (fun s x => s.recoversUnloaded x = false) s op) (h : s.AlertsTracked) :
    (s.step op).1.AlertsTracked := by
  cases op with
  | observe result noReading order =>
    rw [step_eq_atoms]
    refine atoms_tracked hs (atomOk_atoms hop) (fun x hx => ?_) hno h
    cases atomOf_atoms hx with
    | sample _ h => exact h.isPoll
    | liveness _ _ _ => trivial
    | orphan hop _ _ => simp [Op.isSweep] at hop
  | setConfig config loaded => exact h
  | _ => simp [Op.isPollOrConfig] at hpoll

/-- A restored alert comes with a tracker committed to the stored state. -/
theorem restored_tracked {rows : List AlertHistoryRow}
    (hrows : ∀ row ∈ rows, RowOk row) : (restored rows).AlertsTracked := by
  intro c hc
  have hactive := restore_active fresh (rows.map alertFromRow) c
  have hstates := restore_states fresh (rows.map alertFromRow) c
  rw [restored] at hc ⊢
  rw [hactive] at hc
  cases hfind : (rows.map alertFromRow).find? fun a => a.check = c with
  | none => simp [hfind, fresh] at hc
  | some a =>
    obtain ⟨row, hrow, rfl⟩ := mem_map.1 (mem_of_find?_eq_some hfind)
    rw [hfind] at hstates
    rw [committedAt_of_states hstates]
    exact (hrows row hrow).problem

/-- Take a run of poll results and configurations from the restored alerts, in which no result
recovers a check with an open alert before the first configuration is loaded. Then a check that
has committed a state without a severity has no alert. -/
theorem no_alert_after_recovery {rows : List AlertHistoryRow} (hrows : ∀ row ∈ rows, RowOk row)
    {ops : List Op} (hpoll : ∀ op ∈ ops, op.isPollOrConfig = true)
    (hok : Along (fun s op => op.Ok s) step (restored rows) ops)
    (hno : Along (EachAtom fun s x => s.recoversUnloaded x = false) step (restored rows) ops)
    (c : CheckId) (cs : CheckState)
    (hcs : (emitAll step (restored rows) ops).1.states c = some cs)
    (hcommitted : cs.committed.severity = none) :
    (emitAll step (restored rows) ops).1.active c = none := by
  obtain ⟨htracked, _⟩ := run_invariant (I := AlertsTracked)
    (C := fun s op => op.isPollOrConfig = true ∧
      EachAtom (fun s x => s.recoversUnloaded x = false) s op)
    (fun s op hs hop ⟨hpoll, hno⟩ h => step_tracked hs hop hpoll hno h)
    (restored_consistent hrows) hok ((Along.of_forall (fun _ op hop => hpoll op hop) _).and hno)
    (restored_tracked hrows)
  by_contra hne
  have := htracked c (Option.ne_none_iff_isSome.1 hne)
  rw [committedAt_of_states hcs, hcommitted] at this
  simp at this

/-- Node 1's restored outage ends after a configuration is loaded. -/
def recoveredOutageOps : List Op :=
  [loadWaiting, pollOp 1 .reachable 1, pollOp 1 .reachable 2]

theorem recovered_outage_closed :
    (emitAll step (restored [outageRow 1]) recoveredOutageOps).1.active (livenessCheck 1)
      = none := by
  have hstate : ((emitAll step (restored [outageRow 1]) recoveredOutageOps).1.states
      (livenessCheck 1)).map committed = some .ok := by decide +kernel
  obtain ⟨cs, hcs, hcommitted⟩ := Option.map_eq_some_iff.1 hstate
  exact no_alert_after_recovery (outageRow_ok 1) (by decide)
    (ok_of_outage_run (by decide +kernel)) (by decide +kernel) (livenessCheck 1) cs hcs
    (by rw [hcommitted]; rfl)

/-- Node 1's restored outage ends before a configuration is loaded, and the node stays up. -/
def earlyRecoveryOps : List Op :=
  [pollOp 1 .reachable 1, pollOp 1 .reachable 2, pollOp 1 .reachable 3,
    loadWaiting, pollOp 1 .reachable 4, pollOp 1 .reachable 5]

/-- The recovery is committed and the alert stays. The results after the configuration is loaded
do not close it, because the tracker has nothing more to report. -/
theorem restored_outage_stays :
    (∀ row ∈ [outageRow 1], RowOk row) ∧
    (∀ op ∈ earlyRecoveryOps, op.isPollOrConfig = true) ∧
    Along (fun s op => op.Ok s) step (restored [outageRow 1]) earlyRecoveryOps ∧
    ((emitAll step (restored [outageRow 1]) earlyRecoveryOps).1.states (livenessCheck 1)).map
      committed = some .ok ∧
    ((emitAll step (restored [outageRow 1]) earlyRecoveryOps).1.active
      (livenessCheck 1)).isSome = true :=
  ⟨outageRow_ok 1, by decide, ok_of_outage_run (by decide +kernel), by decide +kernel,
    by decide +kernel⟩

/-! ### A liveness rule takes effect -/

end AlertManager

/-- A non-observational result of a node. -/
def Op.isResultOf (n : NodeId) : Op → Bool
  | .observe result _ _ => decide (result.nodeId = n) && !result.observational
  | _ => false

/-- What may happen while a node's outage is counted: its own results are unreachable and not
paused, no configuration is installed, and no sweep closes the node's liveness alert. Results of
other nodes, observational results and everything else may come in between. -/
def Op.InOutage (n : NodeId) (s : AlertManager) : Op → Prop
  | .observe result _ _ => result.nodeId = n → result.observational = false →
      result.outcome = .unreachable ∧ s.config.isPaused n result.atUnixMs = false
  | .setConfig .. => False
  | .resolveStale checks => livenessCheck n ∉ checks
  | .forgetDeletedNodes _ => s.config.knows n = true
  | _ => True

instance (n : NodeId) (s : AlertManager) : ∀ op : Op, Decidable (op.InOutage n s)
  | .observe result _ _ => inferInstanceAs (Decidable (result.nodeId = n →
      result.observational = false →
      result.outcome = .unreachable ∧ s.config.isPaused n result.atUnixMs = false))
  | .setConfig .. => isFalse id
  | .resolveStale checks => inferInstanceAs (Decidable (livenessCheck n ∉ checks))
  | .forgetDeletedNodes _ => inferInstanceAs (Decidable (s.config.knows n = true))
  | .observeInterface .. | .observeDerived .. | .publishIntervals _ | .recordRowName ..
  | .regroup _ | .releaseHeld .. | .resolveOrphanedInterface _ | .resolveOrphanedNodeDerived _
  | .resolveOrphanedCollected _ | .raiseEvent _ | .resolveEvent _ => isTrue trivial

/-- The step leaves the state of a check as it is, and opens and closes no alert of it. -/
def Atom.Spares (c : CheckId) : Atom → Prop
  | .check _ _ _ _ spec => c ≠ spec.check
  | .regroup _ | .releaseHeld _ _ => True
  | x => x.LeavesAlone c

namespace AlertManager

variable {s : AlertManager} {n : NodeId}

theorem atom_spares {x : Atom} {c : CheckId} (h : x.Spares c) :
    (atomStep s x).1.states c = s.states c ∧
      ((atomStep s x).1.active c).isSome = (s.active c).isSome := by
  have hentries : ∀ {s' : AlertManager}, s'.entries c = s.entries c →
      s'.states c = s.states c ∧ (s'.active c).isSome = (s.active c).isSome := by
    exact fun he => ⟨states_of_entries he, by rw [active_of_entries he]⟩
  cases x with
  | check order node raw t spec =>
    have hcore := s.checkCore_entries node raw t spec h
    refine ⟨?_, ?_⟩
    · show (s.processCheck order node raw t spec).1.states c = s.states c
      rw [processCheck_states, update_of_ne h]
    · show ((s.processCheck order node raw t spec).1.active c).isSome = _
      rw [processCheck_isSome]
      exact (hentries hcore).2
  | regroup order =>
    exact ⟨congrFun (congrArg AlertManager.states (s.reattribute_rest order none)) c,
      s.reattribute_isSome order none c⟩
  | releaseHeld now order =>
    exact ⟨congrFun (congrArg AlertManager.states (s.releaseHeld_rest order now)) c,
      s.releaseHeld_isSome order now c⟩
  | forgetLegacy _ | markRows _ | dropNodes | setConfig _ | publishIntervals _
  | recordRowName _ _ _ _ => exact ⟨rfl, rfl⟩
  | retire _ _ | orphan _ | close _ | raise _ => exact hentries (atom_entries h)

/-- A step that is no observation of a check spares it or closes its alert. -/
theorem atom_spares_or {x : Atom} {c : CheckId} (hx : AtomOk s x)
    (hcheck : ∀ order node raw t spec, x = .check order node raw t spec → c ≠ spec.check)
    (hretire : ∀ node metric, c ≠ checkId node (.metric metric))
    (hraise : ∀ raised : Raised, c ≠ raised.alert.check) :
    x.Spares c ∨ (atomStep s x).1.active c = none := by
  cases x with
  | check order node raw t spec => exact .inl (hcheck _ _ _ _ _ rfl)
  | retire node metric => exact .inl (hretire node metric)
  | orphan d =>
    by_cases hd : c = d
    · right
      rw [atomStep, resolveOrphan_active, hd, update_self]
    · exact .inl hd
  | close d =>
    by_cases hd : c = d
    · right
      rw [atomStep, closeActive_active, hd, update_self]
    · exact .inl hd
  | raise a =>
    obtain ⟨raised, rfl⟩ := hx
    exact .inl (hraise raised)
  | _ => exact .inl trivial

theorem atoms_spare {c : CheckId} {l : List Atom} (h : ∀ x ∈ l, x.Spares c ∧ x.KeepsConfig) :
    (emitAll atomStep s l).1.states c = s.states c ∧
      ((emitAll atomStep s l).1.active c).isSome = (s.active c).isSome ∧
      (emitAll atomStep s l).1.config = s.config := by
  induction l generalizing s with
  | nil => exact ⟨rfl, rfl, rfl⟩
  | cons x rest ih =>
    obtain ⟨hspares, hkeeps⟩ := h x mem_cons_self
    obtain ⟨hstates, hsome⟩ := atom_spares (s := s) hspares
    obtain ⟨hstates', hsome', hconfig'⟩ :=
      ih (s := (atomStep s x).1) fun y hy => h y (mem_cons_of_mem x hy)
    exact ⟨hstates'.trans hstates, hsome'.trans hsome, hconfig'.trans (atom_config hkeeps)⟩

theorem spares_of_isSample {x : Atom} (h : x.IsSample) (n : NodeId) :
    x.Spares (livenessCheck n) ∧ x.KeepsConfig := by
  refine ⟨?_, h.isPoll.keepsConfig⟩
  have halone := h.alone n
  cases x with
  | check order node raw t spec => exact halone.2
  | regroup _ | releaseHeld _ _ => trivial
  | _ => exact halone

/-- Whatever else happens in between spares the node's liveness check. -/
theorem spares_of_bystander (hs : s.Consistent) {op : Op} (hin : op.InOutage n s)
    (hno : op.isResultOf n = false) :
    ∀ x ∈ op.atoms s, x.Spares (livenessCheck n) ∧ x.KeepsConfig := by
  intro x hx
  cases atomOf_atoms hx with
  | sample _ h => exact spares_of_isSample h n
  | @liveness result noReading order hobs =>
    refine ⟨fun heq => ?_, trivial⟩
    have hnode : n = result.nodeId := livenessCheck_inj heq
    simp [Op.isResultOf, hnode, hobs] at hno
  | orphan _ hp hc => exact ⟨livenessCheck_ne (not_liveness_of_orphan hs hp hc), trivial⟩
  | stale hc => exact ⟨fun heq => hin (by rw [heq]; exact hc), trivial⟩
  | @gone order c hc =>
    -- The alerts that are closed are those of other nodes.
    refine ⟨fun heq => ?_, trivial⟩
    have hgone : s.isGone n = true := isGone_of_mem hs (heq ▸ hc)
    have hknows : s.config.knows n = true := hin
    simp [isGone, hknows] at hgone
  | setConfig config loaded => exact absurd hin id
  | raised raised =>
    exact ⟨livenessCheck_ne (raised_name raised), trivial⟩
  | resolved check =>
    refine ⟨livenessCheck_ne ?_, trivial⟩
    cases check <;> simp [RaisedCheck.check, checkId, subjectCheckId]
  | publishIntervals _ | recordRowName _ _ _ _ | regroup _ | releaseHeld _ _ | dropNodes _ =>
    exact ⟨trivial, trivial⟩

/-! ### Counting an outage -/

variable (s) (c : CheckId)

/-- How many samples of a state in a row a check that has committed another state has seen. -/
def runToward (state : NodeState) : Nat :=
  match (s.states c).bind candidate with
  | some (candidate, k) => if candidate = state then k else 0
  | none => 0

variable {s}

section
variable {s : AlertManager} {spec : CheckSpec} {t : UnixMs} {raw : NodeState}

theorem runToward_of_candidate {c : CheckId} {cs : CheckState} {k : Nat}
    (hstates : s.states c = some cs) (hcand : cs.candidate = some (raw, k)) :
    s.runToward c raw = k := by
  simp [runToward, hstates, hcand]

/-- The tracker counts the sample it is given. -/
theorem checkStateFor_runLength (s : AlertManager) (spec : CheckSpec) (raw : NodeState) :
    (s.checkStateFor spec).dwell.runLength raw = s.runToward spec.check raw + 1 := by
  unfold runToward checkStateFor DwellTracker.runLength
  cases hst : s.states spec.check with
  | none => rfl
  | some cs =>
    simp only [Option.getD_some, Option.bind_some, candidate, setDwell,
      setFlapWindowMs, DwellTracker.setDwell]
    cases cs.dwell.candidate with
    | none => rfl
    | some p => simp only; split_ifs <;> rfl

/-- A sample of a state that is not the committed one commits it, or lengthens its run. -/
theorem sample_of_not_committed (h : s.committedAt spec.check ≠ raw) :
    (∃ tr, s.transitionOf raw t spec = some tr) ∨
    (s.transitionOf raw t spec = none ∧
      s.runToward spec.check raw + 1 < max spec.dwellSamples 1 ∧
      (s.nextState raw t spec).committed = s.committedAt spec.check ∧
      (s.nextState raw t spec).candidate = some (raw, s.runToward spec.check raw + 1)) := by
  have hdwell : (s.checkStateFor spec).dwell.dwell = max spec.dwellSamples 1 := by
    simp [checkStateFor, setDwell, setFlapWindowMs, DwellTracker.setDwell]
  have hrun := s.checkStateFor_runLength spec raw
  cases htr : s.transitionOf raw t spec with
  | some tr => exact .inl ⟨tr, rfl⟩
  | none =>
    have hobs : ((s.checkStateFor spec).dwell.observe raw).2 = none := by
      rw [← observe_transition _ raw t]
      exact congrArg (Option.map Transition.state) htr
    have hcand : (s.nextState raw t spec).candidate
        = ((s.checkStateFor spec).dwell.observe raw).1.candidate := by
      simp only [nextState, candidate, observe_dwell]
    rcases (s.checkStateFor spec).dwell.observe_cases raw with
      ⟨heq, _⟩ | ⟨_, _, he⟩ | ⟨_, hlt, he⟩
    · exact absurd ((s.checkStateFor_committed spec).symm.trans heq.symm) h
    · simp [he] at hobs
    · rw [hdwell, hrun] at hlt
      refine .inr ⟨rfl, hlt, transitionOf_none htr, ?_⟩
      rw [hcand, he, hrun]

/-- An unreachable sample of a check that has committed the outage changes nothing. -/
theorem unreachable_of_committed (h : s.committedAt spec.check = .unreachable) :
    s.transitionOf .unreachable t spec = none ∧
      (s.nextState .unreachable t spec).committed = .unreachable := by
  cases htr : s.transitionOf .unreachable t spec with
  | some tr => exact absurd h.symm (transitionOf_some htr).2.1
  | none => exact ⟨rfl, (transitionOf_none htr).trans h⟩

end

/-- The descriptor of the liveness observation a result makes. -/
def livenessSpecOf (s : AlertManager) (result : PollResult) : CheckSpec :=
  livenessSpec result.nodeId (s.livenessDwell result.nodeId) (s.pollMoment result)

/-- An unreachable result of a node outside maintenance is an unreachable sample of its liveness
check, as far as that check goes. -/
theorem result_effect {result : PollResult} {noReading : List Sample} {order : List CheckId}
    (hobs : result.observational = false) (hout : result.outcome = .unreachable)
    (hpaused : s.config.isPaused result.nodeId result.atUnixMs = false)
    (hmaint : s.config.inMaintenance result.nodeId = false) :
    let s' := (s.step (.observe result noReading order)).1
    s'.states (livenessCheck result.nodeId)
        = some (s.nextState .unreachable result.atUnixMs (s.livenessSpecOf result)) ∧
      (s'.active (livenessCheck result.nodeId)).isSome
        = ((s.checkCore result.nodeId .unreachable result.atUnixMs
            (s.livenessSpecOf result)).1.active
            (livenessCheck result.nodeId)).isSome ∧
      s'.config = s.config := by
  intro s'
  obtain ⟨samples, hsamples, he⟩ := observeAtoms_split skipHealthy s order result noReading
  have hatoms : s' = (emitAll atomStep (s.processCheck order result.nodeId .unreachable
      result.atUnixMs (s.livenessSpecOf result)).1 samples).1 := by
    show (s.step (.observe result noReading order)).1 = _
    rw [step_eq_atoms]
    simp only [Op.atoms]
    rw [he]
    simp only [hpaused, livenessAtoms, hobs, hout, hmaint, livenessRaw, Bool.false_eq_true,
      if_false]
    rfl
  obtain ⟨hstates, hsome, hconfig⟩ := atoms_spare (c := livenessCheck result.nodeId)
    (s := (s.processCheck order result.nodeId .unreachable result.atUnixMs
      (s.livenessSpecOf result)).1)
    fun x hx => spares_of_isSample (hsamples x hx) result.nodeId
  rw [hatoms]
  refine ⟨?_, ?_, ?_⟩
  · rw [hstates, processCheck_states]
    exact update_self ..
  · rw [hsome, processCheck_isSome]
  · rw [hconfig]
    exact atom_config (s := s) (x := .check order result.nodeId .unreachable result.atUnixMs
      (s.livenessSpecOf result)) trivial

/-- What a step of the window does to the node's check: it spares it, or it is an unreachable
sample of it. -/
theorem window_step (hs : s.Consistent) {op : Op} (hin : op.InOutage n s)
    (hmaint : s.config.inMaintenance n = false) :
    (op.isResultOf n = false ∧
      (s.step op).1.states (livenessCheck n) = s.states (livenessCheck n) ∧
      ((s.step op).1.active (livenessCheck n)).isSome = (s.active (livenessCheck n)).isSome ∧
      (s.step op).1.config = s.config) ∨
    (op.isResultOf n = true ∧ ∃ t spec, spec.check = livenessCheck n ∧
      spec.cadence = .everyPoll ∧ spec.alerting = (s.livenessDwell n).isSome ∧
      spec.dwell = (s.livenessDwell n).getD defaultLivenessDwell ∧
      (s.step op).1.states (livenessCheck n) = some (s.nextState .unreachable t spec) ∧
      ((s.step op).1.active (livenessCheck n)).isSome
        = ((s.checkCore n .unreachable t spec).1.active (livenessCheck n)).isSome ∧
      (s.step op).1.config = s.config) := by
  cases hres : op.isResultOf n with
  | false =>
    rw [step_eq_atoms]
    exact .inl ⟨rfl, atoms_spare (spares_of_bystander hs hin hres)⟩
  | true =>
    refine .inr ⟨rfl, ?_⟩
    cases op with
    | observe result noReading order =>
      simp only [Op.isResultOf, Bool.and_eq_true, decide_eq_true_eq, Bool.not_eq_true'] at hres
      obtain ⟨rfl, hobs⟩ := hres
      obtain ⟨hout, hpaused⟩ := hin rfl hobs
      exact ⟨result.atUnixMs, s.livenessSpecOf result, rfl, rfl, rfl, rfl,
        result_effect hobs hout hpaused hmaint⟩
    | _ => simp [Op.isResultOf] at hres

/-- A node that a liveness rule of dwell `d` covers, outside maintenance. -/
def Covered (s : AlertManager) (n : NodeId) (d : Nat) : Prop :=
  s.livenessDwell n = some d ∧ s.config.inMaintenance n = false

theorem Covered.of_config {s' : AlertManager} {d : Nat} (h : s.Covered n d)
    (hconfig : s'.config = s.config) : s'.Covered n d := by
  unfold Covered livenessDwell at h ⊢
  rwa [hconfig]

section

variable (hs : s.Consistent) {d : Nat} (hcov : s.Covered n d) {ops : List Op}
  (hok : Along (fun s op => op.Ok s) step s ops)
  (hwindow : Along (fun s op => op.InOutage n s) step s ops)

include hs hcov hok hwindow

/-- Once the outage is committed, the alert stays open if it is, and stays closed if it is
not. -/
theorem outage_after_commit (hcommitted : s.committedAt (livenessCheck n) = .unreachable) :
    ((emitAll step s ops).1.active (livenessCheck n)).isSome
      = (s.active (livenessCheck n)).isSome := by
  induction ops generalizing s with
  | nil => rfl
  | cons op rest ih =>
    have hs' := step_consistent hs hok.1
    rcases window_step hs hwindow.1 hcov.2 with
      ⟨_, hstates, hsome, hconfig⟩ | ⟨_, t, spec, hc, _, halerting, _, hstates, hsome, hconfig⟩
    · rw [emitAll_cons_fst, ih hs' (hcov.of_config hconfig) hok.2 hwindow.2, hsome]
      rw [committedAt, hstates]
      exact hcommitted
    · rw [← hc] at hcommitted
      obtain ⟨htr, hnext⟩ := unreachable_of_committed (t := t) hcommitted
      rw [emitAll_cons_fst, ih hs' (hcov.of_config hconfig) hok.2 hwindow.2, hsome, ← hc]
      · exact checkCore_isSome_of_no_transition hs.slots htr (by rw [halerting, hcov.1]; rfl)
      · rw [committedAt_of_states hstates, hnext]

/-- An outage that is not committed yet opens an alert after enough results. The run of
unreachable samples grows with each of them until it is as long as the dwell. -/
theorem outage_before_commit (hcommitted : s.committedAt (livenessCheck n) ≠ .unreachable)
    (hsome : 0 < ops.countP (Op.isResultOf n))
    (henough : max d 1 ≤ s.runToward (livenessCheck n) .unreachable
      + ops.countP (Op.isResultOf n)) :
    ((emitAll step s ops).1.active (livenessCheck n)).isSome := by
  induction ops generalizing s with
  | nil => simp at hsome
  | cons op rest ih =>
    have hs' := step_consistent hs hok.1
    rw [emitAll_cons_fst]
    rcases window_step hs hwindow.1 hcov.2 with
      ⟨hres, hstates, _, hconfig⟩ |
      ⟨hres, t, spec, hc, hcadence, halerting, hdwell, hstates, hopen, hconfig⟩
    · rw [countP_cons_of_neg (by simp [hres])] at hsome henough
      refine ih hs' (hcov.of_config hconfig) hok.2 hwindow.2 ?_ hsome ?_
      · rw [committedAt, hstates]
        exact hcommitted
      · rw [runToward, hstates]
        exact henough
    · rw [countP_cons_of_pos hres] at henough
      rw [hcov.1] at halerting hdwell
      rw [← hc] at hcommitted henough
      have hsamples : spec.dwellSamples = spec.dwell := by simp [CheckSpec.dwellSamples, hcadence]
      rcases sample_of_not_committed (t := t) hcommitted with
        ⟨tr, htr⟩ | ⟨_, hlt, hnext, hcand⟩
      · -- The outage is committed here, and the alert is opened and stays open.
        obtain ⟨hstate, _, hnext, _⟩ := transitionOf_some htr
        rw [outage_after_commit hs' (hcov.of_config hconfig) hok.2 hwindow.2 (by
          rw [committedAt_of_states hstates, hnext]), hopen, ← hc]
        exact checkCore_opens htr (by rw [hstate]; rfl) halerting
      · have hrun : (s.step op).1.runToward (livenessCheck n) .unreachable
            = s.runToward spec.check .unreachable + 1 := runToward_of_candidate hstates hcand
        simp only [Option.getD_some] at hdwell
        refine ih hs' (hcov.of_config hconfig) hok.2 hwindow.2 ?_ (by omega) ?_
        · rw [committedAt_of_states hstates, hnext]
          exact hcommitted
        · omega

end

/-- Take any state a run reaches, and a node that a liveness rule covers, outside maintenance.
After as many unreachable results of the node as the rule's dwell, with anything else in between
that leaves its liveness alone, the node has an open liveness alert exactly when it was not
already committed unreachable without one. -/
theorem liveness_rule_takes_effect_iff {rows : List AlertHistoryRow}
    (hrows : ∀ row ∈ rows, RowOk row) {before : List Op}
    (hbefore : Along (fun s op => op.Ok s) step (restored rows) before)
    {n : NodeId} {eff : EffectiveThreshold}
    (hrule : (emitAll step (restored rows) before).1.config.resolve n none none .liveness
      = some eff)
    (hmaint : (emitAll step (restored rows) before).1.config.inMaintenance n = false)
    {ops : List Op}
    (hok : Along (fun s op => op.Ok s) step (emitAll step (restored rows) before).1 ops)
    (hwindow : Along (fun s op => op.InOutage n s) step (emitAll step (restored rows) before).1 ops)
    (hcount : ops.countP (Op.isResultOf n) = max eff.dwellSamples 1) :
    ((emitAll step (emitAll step (restored rows) before).1 ops).1.active
        (livenessCheck n)).isSome = true ↔
      ¬ (((emitAll step (restored rows) before).1.states (livenessCheck n)).map
            committed = some .unreachable ∧
          (emitAll step (restored rows) before).1.active (livenessCheck n) = none) := by
  have hs : (emitAll step (restored rows) before).1.Consistent :=
    (run_invariant (I := fun _ => True) (C := fun _ _ => True) (fun _ _ _ _ _ _ => trivial)
      (restored_consistent hrows) hbefore (Along.of_forall (fun _ _ _ => trivial) _) trivial).2
  generalize (emitAll step (restored rows) before).1 = s at *
  have hcov : s.Covered n eff.dwellSamples := ⟨by simp [livenessDwell, hrule], hmaint⟩
  have hiff : (s.states (livenessCheck n)).map committed = some .unreachable ↔
      s.committedAt (livenessCheck n) = .unreachable := by
    unfold committedAt
    cases s.states (livenessCheck n) <;> simp
  rw [hiff]
  by_cases hcommitted : s.committedAt (livenessCheck n) = .unreachable
  · rw [outage_after_commit hs hcov hok hwindow hcommitted]
    cases s.active (livenessCheck n) <;> simp [hcommitted]
  · simp only [hcommitted, false_and, not_false_eq_true, iff_true]
    exact outage_before_commit hs hcov hok hwindow hcommitted (by omega) (by omega)

/-- After the recovery of its restored outage, node 1 goes down again under a rule of dwell 2,
with a result of node 2 in between. -/
def secondOutageOps : List Op :=
  [pollOp 1 .unreachable 3, pollOp 2 .reachable 4, pollOp 1 .unreachable 5]

theorem second_outage_takes_effect :
    ((emitAll step (emitAll step (restored [outageRow 1]) recoveredOutageOps).1
        secondOutageOps).1.active (livenessCheck 1)).isSome = true ↔
      ¬ (((emitAll step (restored [outageRow 1]) recoveredOutageOps).1.states
            (livenessCheck 1)).map committed = some .unreachable ∧
          (emitAll step (restored [outageRow 1]) recoveredOutageOps).1.active
            (livenessCheck 1) = none) := by
  have hwithin : Along (Within bothLiveness) step (restored [outageRow 1])
      (recoveredOutageOps ++ secondOutageOps) := by decide +kernel
  obtain ⟨hbefore, hok⟩ := along_append.1 (ok_of_outage_run hwithin)
  have hrule : ((emitAll step (restored [outageRow 1]) recoveredOutageOps).1.config.resolve 1
      none none .liveness).map (·.dwellSamples) = some 2 := by decide +kernel
  obtain ⟨eff, hrule, hdwell⟩ := Option.map_eq_some_iff.1 hrule
  exact liveness_rule_takes_effect_iff (outageRow_ok 1) hbefore hrule (by decide +kernel) hok
    (by decide +kernel) (by rw [hdwell]; decide)

/-- The two nodes under some rules. -/
def livenessConfig (rules : List StoredThreshold) : AlertConfig :=
  AlertConfig.new rules [plainNode 1, plainNode 2]

/-- Node 1 goes down under a liveness rule, the rule is deleted, and it is created again. -/
def recreatedRuleOps : List Op :=
  [.setConfig (livenessConfig [livenessRule 1]) rfl, pollOp 1 .unreachable 1,
    .setConfig (livenessConfig []) rfl, pollOp 1 .unreachable 2,
    .setConfig (livenessConfig [livenessRule 1]) rfl]

/-- The deleted rule's alert was closed and the tracker kept the outage, so the next dwell of
unreachable results raises nothing. -/
theorem recreated_rule_is_silent :
    let s := (emitAll step fresh recreatedRuleOps).1
    Along (fun s op => op.Ok s) step fresh recreatedRuleOps ∧ s.config.loaded = true ∧
    (s.config.resolve 1 none none .liveness).map (·.dwellSamples) = some 1 ∧
    s.config.inMaintenance 1 = false ∧ s.config.isPaused 1 3 = false ∧
    (emitAll step s [pollOp 1 .unreachable 3]).1.active (livenessCheck 1) = none :=
  ⟨ok_of_fresh_run (by decide +kernel), by decide +kernel, by decide +kernel, by decide +kernel,
    by decide +kernel, by decide +kernel⟩

end AlertManager

end Yagra
