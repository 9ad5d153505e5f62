import Yagra.Proofs.Moves

/-!
# `Yagra.Proofs.Runs`: runs of the engine

An operation that is given the order its loop goes in is fit to run (`Op.Ok`) when the order
lists the keys of the map the loop goes over. The atoms of such an operation all promise what
`AtomOk` asks (`atomOk_atoms`), so an operation and a run take every check along a path
(`step_effect`, `run_effect`).

Runs begin with the alerts of the previous process. `RowOk` is what the history promises about
a stored row: it was written for an alert filed as `SlotOk` says. `restored_consistent` starts
the runs off.
-/

set_option autoImplicit false

namespace Yagra

open Yagra.Lib AlertManager List

/-! ### The atoms of an operation -/

/-- The order an operation is given lists the keys of the map it goes over. -/
def Op.Ok (s : AlertManager) : Op → Prop
  | .observe _ _ order | .regroup order | .resolveOrphanedInterface order
  | .resolveOrphanedNodeDerived order | .resolveOrphanedCollected order
  | .forgetDeletedNodes order => Enumerates order s.active
  | .releaseHeld _ order => Enumerates order s.held
  | _ => True

/-- A value is judged to be in one of the three threshold states. -/
theorem evaluate_state (eff : EffectiveThreshold) (value : F64) :
    eff.evaluate value = .ok ∨ eff.evaluate value = .warning ∨ eff.evaluate value = .critical :=
  eff.bounds.evaluate_cases value

/-- The state a value is judged to be in, or maintenance. -/
theorem judged_cases (maintenance : Bool) (eff : EffectiveThreshold) (value : F64) :
    let raw := if maintenance then NodeState.maintenance else eff.evaluate value
    raw = .ok ∨ raw = .warning ∨ raw = .critical ∨ raw = .maintenance := by
  intro raw
  cases hm : maintenance with
  | true => simp [raw, hm]
  | false => rcases evaluate_state eff value with h | h | h <;> simp [raw, hm, h]

theorem rawState_cases (moment : Moment) (sample : Sample) (eff : EffectiveThreshold)
    (reading : Reading) :
    rawState moment sample eff reading = .ok ∨ rawState moment sample eff reading = .warning ∨
      rawState moment sample eff reading = .critical ∨
      rawState moment sample eff reading = .maintenance := by
  have hjudged := judged_cases moment.inMaintenance eff sample.value
  unfold rawState
  cases hm : moment.inMaintenance with
  | true => simp
  | false =>
    simp only [hm, Bool.false_eq_true, if_false] at hjudged ⊢
    split
    · exact .inl rfl
    · split
      · exact .inl rfl
      · exact hjudged

theorem livenessRaw_cases (inMaintenance : Bool) (outcome : CheckOutcome) :
    let raw := livenessRaw inMaintenance outcome
    raw = .ok ∨ raw = .unreachable ∨ raw = .unknown ∨ raw = .maintenance := by
  cases inMaintenance <;> cases outcome <;> simp [livenessRaw]

/-- The steps results and evaluator ticks are made of. -/
def Atom.IsPoll : Atom → Prop
  | .check .. | .forgetLegacy _ | .retire .. | .markRows _ => True
  | _ => False

/-- The steps of a result, or of an evaluator's tick, other than a liveness observation: they
promise what they have to in every state, and leave everything about liveness alone. -/
structure Atom.IsSample (x : Atom) : Prop where
  ok : ∀ s, AtomOk s x
  isPoll : x.IsPoll
  keepsLive : x.KeepsLive
  alone : ∀ n, x.LeavesAlone (livenessCheck n)

variable {x : Atom}

theorem Atom.IsPoll.keepsConfig (h : x.IsPoll) : x.KeepsConfig := by
  cases x <;> trivial

variable {s : AlertManager} {order : List CheckId} {node : NodeId} {t : UnixMs}

/-- An observation of a threshold check is such a step. -/
theorem isSample_check {raw : NodeState} {spec : CheckSpec} {m : Metric}
    (hl : spec.isLiveness = false) (ha : spec.alerting = true)
    (hs : spec.check.subject = .node node) (hn : spec.check.name = .metric m)
    (hm : spec.metric = .metric m)
    (hraw : raw = .ok ∨ raw = .warning ∨ raw = .critical ∨ raw = .maintenance) :
    (Atom.check order node raw t spec).IsSample where
  ok := fun s => ⟨.threshold hl ha m hs hn hm hraw, by simp [hl]⟩
  isPoll := trivial
  keepsLive := hl
  alone := by
    refine fun n => ⟨hl, fun he => ?_⟩
    rw [← he] at hn
    simp [checkId, subjectCheckId] at hn

theorem isSample_retire (node : NodeId) (metric : Metric) : (Atom.retire node metric).IsSample :=
  ⟨fun _ => trivial, trivial, trivial, fun n => by simp [Atom.LeavesAlone, checkId, subjectCheckId]⟩

theorem isSample_forgetLegacy (c : CheckId) : (Atom.forgetLegacy c).IsSample :=
  ⟨fun _ => trivial, trivial, trivial, fun _ => trivial⟩

variable {skip : AlertManager.SkipTest} {metric : Metric} {moment : Moment}

theorem isSample_sampleAtoms {sample : Sample} {eff : EffectiveThreshold} {on : CheckOn}
    {reading : Reading}
    (hx : x ∈ sampleAtoms order node moment sample eff on reading) : x.IsSample := by
  rcases mem_append.1 hx with hx | hx
  · cases on <;> simp at hx
    subst hx
    exact isSample_forgetLegacy _
  · rw [mem_singleton.1 hx]
    have hraw := rawState_cases moment sample eff reading
    cases on <;> exact isSample_check (m := sample.metric) rfl rfl rfl rfl rfl hraw

theorem isSample_rowsAtoms {rowStates : NodeId × CheckName × Nat → Bool}
    {rows : List RowObservation}
    (hx : x ∈ rowsAtoms skip rowStates order node moment rows) : x.IsSample := by
  rcases mem_append.1 hx with hx | hx
  · rcases mem_append.1 hx with hx | hx
    · obtain ⟨m, _, rfl⟩ := mem_map.1 hx
      exact isSample_retire node m
    · obtain ⟨entry, _, hx⟩ := mem_flatMap.1 hx
      unfold rowAtoms at hx
      split at hx
      · cases hx
      · exact isSample_sampleAtoms hx
  · rw [mem_singleton.1 hx]
    exact ⟨fun _ => trivial, trivial, trivial, fun _ => trivial⟩

/-- A poll result is its liveness observation, if it makes one, and then samples. -/
theorem observeAtoms_split (skip : AlertManager.SkipTest) (s : AlertManager)
    (order : List CheckId) (result : PollResult) (noReading : List Sample) :
    ∃ samples, (∀ x ∈ samples, x.IsSample) ∧
      s.observeAtoms skip order result noReading
        = (if s.config.isPaused result.nodeId result.atUnixMs then []
            else s.livenessAtoms order result) ++ samples := by
  unfold observeAtoms
  split
  · exact ⟨[], by simp, rfl⟩
  · refine ⟨_, ?_, append_assoc ..⟩
    intro x hx
    rcases mem_append.1 hx with hx | hx
    · rcases mem_append.1 hx with hx | hx <;>
        obtain ⟨p, _, hx⟩ := mem_flatMap.1 hx <;>
        exact isSample_sampleAtoms hx
    · split at hx
      · cases hx
      · exact isSample_rowsAtoms hx

theorem isSample_interfaceAtoms {ifindex : IfIndex} {value : F64}
    (hx : x ∈ s.interfaceAtoms node ifindex metric value t) : x.IsSample := by
  unfold interfaceAtoms at hx
  cases hres : s.config.resolve node (some ifindex) none (.metric metric) with
  | none => simp [hres] at hx
  | some eff =>
    simp only [hres] at hx
    split at hx
    · cases hx
    · rw [mem_singleton.1 hx]
      exact isSample_check (m := metric) rfl rfl rfl rfl rfl (judged_cases _ eff value)

theorem isSample_derivedAtoms {rows : List (Int × F64)}
    (hx : x ∈ s.derivedAtoms skip node metric rows t) : x.IsSample := by
  unfold derivedAtoms at hx
  split at hx
  · cases hx
  · cases hd : (derivedNodeMetric (.metric metric)).filter (·.perRow) with
    | some d =>
      simp only [hd] at hx
      split at hx
      · cases hx
      · exact isSample_rowsAtoms hx
    | none =>
      simp only [hd] at hx
      cases hres : s.config.resolve node none none (.metric metric) with
      | none => simp [hres] at hx
      | some eff =>
        simp only [hres] at hx
        split at hx
        · cases hx
        · cases hv : worstValue eff (rows.map Prod.snd) with
          | none => simp [hv] at hx
          | some value =>
            simp only [hv, mem_cons, not_mem_nil, or_false] at hx
            rcases hx with rfl | rfl
            · exact isSample_forgetLegacy _
            · exact isSample_check (m := metric) rfl rfl rfl rfl rfl (judged_cases _ eff value)

/-- The operation observes checks. -/
def Op.isObservation : Op → Bool
  | .observe .. | .observeInterface .. | .observeDerived .. => true
  | _ => false

/-- The operation closes the alerts no rule covers any more. -/
def Op.isSweep : Op → Bool
  | .resolveOrphanedInterface _ | .resolveOrphanedNodeDerived _
  | .resolveOrphanedCollected _ => true
  | _ => false

/-- What an atom of an operation can be, with what is known about it: a sample, the liveness
observation of a result, the closing of an orphan of some sweep, or the operation itself. -/
inductive AtomOf (s : AlertManager) : Op → Atom → Prop
  | sample {op : Op} {x : Atom} (hop : op.isObservation = true) (h : x.IsSample) : AtomOf s op x
  | liveness {result : PollResult} (noReading : List Sample) (order : List CheckId)
      (hobs : result.observational = false) :
      AtomOf s (.observe result noReading order) (.check order result.nodeId
        (livenessRaw (s.config.inMaintenance result.nodeId) result.outcome)
        result.atUnixMs
        (livenessSpec result.nodeId (s.livenessDwell result.nodeId) (s.pollMoment result)))
  | orphan {op : Op} {c : CheckId} {order : List CheckId} {p : Alert → Bool}
      (hop : op.isSweep = true) (hp : ∀ a, p a = true → a.metric ≠ .liveness)
      (hc : c ∈ ((s.activeAlerts order).filter p).map (·.check)) : AtomOf s op (.orphan c)
  | stale {checks : List CheckId} {c : CheckId} (hc : c ∈ checks) :
      AtomOf s (.resolveStale checks) (.orphan c)
  | dropNodes (order : List CheckId) : AtomOf s (.forgetDeletedNodes order) .dropNodes
  | gone {order : List CheckId} {c : CheckId} (hc : c ∈ s.goneAlerts order) :
      AtomOf s (.forgetDeletedNodes order) (.orphan c)
  | setConfig (config : AlertConfig) (loaded : config.loaded = true) :
      AtomOf s (.setConfig config loaded) (.setConfig config)
  | publishIntervals (intervals : NodeId → Option Nat) :
      AtomOf s (.publishIntervals intervals) (.publishIntervals intervals)
  | recordRowName (node : NodeId) (metric : CheckName) (row : Nat) (name : RowText) :
      AtomOf s (.recordRowName node metric row name) (.recordRowName node metric row name)
  | regroup (order : List CheckId) : AtomOf s (.regroup order) (.regroup order)
  | releaseHeld (now : UnixMs) (order : List CheckId) :
      AtomOf s (.releaseHeld now order) (.releaseHeld now order)
  | raised (raised : Raised) : AtomOf s (.raiseEvent raised) (.raise raised.alert)
  | resolved (check : RaisedCheck) : AtomOf s (.resolveEvent check) (.close check.check)

variable {op : Op}

theorem atomOf_atoms (hx : x ∈ op.atoms s) : AtomOf s op x := by
  cases op with
  | observe result noReading order =>
    obtain ⟨samples, hsamples, he⟩ :=
      observeAtoms_split skipHealthy s order result noReading
    simp only [Op.atoms] at hx
    rw [he] at hx
    rcases mem_append.1 hx with hx | hx
    · unfold livenessAtoms at hx
      split at hx
      · cases hx
      · split at hx
        · cases hx
        next hobs =>
          rw [mem_singleton.1 hx]
          exact .liveness noReading order (by simpa using hobs)
    · exact .sample rfl (hsamples x hx)
  | observeInterface node ifindex metric value t => exact .sample rfl (isSample_interfaceAtoms hx)
  | observeDerived node metric rows t => exact .sample rfl (isSample_derivedAtoms hx)
  | resolveOrphanedInterface order =>
    obtain ⟨c, hc, rfl⟩ := mem_map.1 hx
    refine .orphan rfl (fun a ha hm => ?_) hc
    simp [hm, derivedInterfaceMetricName] at ha
  | resolveOrphanedNodeDerived order =>
    obtain ⟨c, hc, rfl⟩ := mem_map.1 hx
    refine .orphan rfl (fun a ha hm => ?_) hc
    simp [hm, derivedNodeMetric] at ha
  | resolveOrphanedCollected order =>
    simp only [Op.atoms] at hx
    split at hx
    · cases hx
    · obtain ⟨c, hc, rfl⟩ := mem_map.1 hx
      refine .orphan rfl (fun a ha hm => ?_) hc
      simp [isCollectedThresholdAlert, Alert.isThresholdAlert, hm] at ha
  | resolveStale checks =>
    obtain ⟨c, hc, rfl⟩ := mem_map.1 hx
    exact .stale hc
  | forgetDeletedNodes order =>
    simp only [Op.atoms] at hx
    split at hx
    · cases hx
    · rcases mem_cons.1 hx with rfl | hx
      · exact .dropNodes order
      · obtain ⟨c, hc, rfl⟩ := mem_map.1 hx
        exact .gone hc
  | setConfig config loaded =>
    rw [mem_singleton.1 hx]
    exact .setConfig config loaded
  | publishIntervals intervals =>
    rw [mem_singleton.1 hx]
    exact .publishIntervals intervals
  | recordRowName node metric row name =>
    rw [mem_singleton.1 hx]
    exact .recordRowName node metric row name
  | regroup order =>
    rw [mem_singleton.1 hx]
    exact .regroup order
  | releaseHeld now order =>
    rw [mem_singleton.1 hx]
    exact .releaseHeld now order
  | raiseEvent raised =>
    rw [mem_singleton.1 hx]
    exact .raised raised
  | resolveEvent check =>
    rw [mem_singleton.1 hx]
    exact .resolved check

/-- The sweep of deleted nodes is the only operation that drops nodes. -/
theorem dropNodes_notMem (hop : ∀ order, op ≠ .forgetDeletedNodes order) :
    Atom.dropNodes ∉ op.atoms s := by
  intro hx
  cases atomOf_atoms hx with
  | sample _ h => exact h.keepsLive
  | dropNodes order => exact hop order rfl

/-- Only `setConfig` installs a configuration. -/
theorem keepsConfig_of_mem (hop : ∀ config loaded, op ≠ .setConfig config loaded)
    (hx : x ∈ op.atoms s) : x.KeepsConfig := by
  cases atomOf_atoms hx with
  | sample _ h => exact h.isPoll.keepsConfig
  | setConfig config loaded => exact hop config loaded rfl
  | _ => trivial

/-- The atoms of an operation that is fit to run promise what they have to. The liveness
observation of a result comes first, so the order given for the result lists the alerts it
meets. -/
theorem atomOk_atoms (hop : op.Ok s) : Along AtomOk atomStep s (op.atoms s) := by
  have horphans : ∀ (l : List CheckId) (s : AlertManager),
      Along AtomOk atomStep s (l.map .orphan) := by
    intro l s
    refine Along.of_forall (fun s' x hx => ?_) s
    obtain ⟨c, _, rfl⟩ := mem_map.1 hx
    trivial
  cases op with
  | observe result noReading order =>
    obtain ⟨samples, hsamples, he⟩ :=
      observeAtoms_split skipHealthy s order result noReading
    show Along _ _ s (s.observeAtoms skipHealthy order result noReading)
    rw [he, along_append]
    refine ⟨?_, Along.of_forall (fun s' x hx => (hsamples x hx).ok s') _⟩
    split
    · trivial
    · unfold livenessAtoms
      split
      · trivial
      · exact ⟨⟨.liveness rfl rfl rfl rfl (livenessRaw_cases _ _), fun _ => hop⟩, trivial⟩
  | observeInterface node ifindex metric value t =>
    exact Along.of_forall (fun s' x hx => (isSample_interfaceAtoms hx).ok s') s
  | observeDerived node metric rows t =>
    exact Along.of_forall (fun s' x hx => (isSample_derivedAtoms hx).ok s') s
  | resolveOrphanedInterface order | resolveOrphanedNodeDerived order | resolveStale order =>
    exact horphans _ s
  | resolveOrphanedCollected order =>
    simp only [Op.atoms]
    split
    · trivial
    · exact horphans _ s
  | forgetDeletedNodes order =>
    simp only [Op.atoms]
    split
    · trivial
    · exact ⟨trivial, horphans _ _⟩
  | setConfig config loaded => exact ⟨loaded, trivial⟩
  | raiseEvent raised => exact ⟨⟨raised, rfl⟩, trivial⟩
  | regroup order | releaseHeld now order => exact ⟨hop, trivial⟩
  | publishIntervals _ | recordRowName _ _ _ _ | resolveEvent _ => exact ⟨trivial, trivial⟩

namespace AlertManager

/-! ### Runs -/

/-- The opened alerts of a step all satisfy `P`, with what was in their slot. -/
def OpensWith (P : Option Alert → Alert → Prop) (s : AlertManager) (x : Atom) : Prop :=
  ∀ c a, Opens s x c a → P (s.active c) a

/-- A condition on atomic steps, along the atoms of an operation. -/
def EachAtom (ok : AlertManager → Atom → Prop) (s : AlertManager) (op : Op) : Prop :=
  Along ok atomStep s (op.atoms s)

variable {P : Option Alert → Alert → Prop}
variable {s : AlertManager} {c : CheckId} {l : List Atom}

theorem atoms_effect (hs : s.Consistent) (hok : Along AtomOk atomStep s l)
    (hP : Along (OpensWith P) atomStep s l) :
    Paths P s (emitAll atomStep s l).2 (emitAll atomStep s l).1 ∧
      (emitAll atomStep s l).1.Consistent := by
  induction l generalizing s with
  | nil => exact ⟨.refl rfl, hs⟩
  | cons x rest ih =>
    obtain ⟨hmoves, hcons⟩ := atom_effect hs hok.1 hP.1
    obtain ⟨hmoves', hcons'⟩ := ih hcons hok.2 hP.2
    exact ⟨.cons hmoves hmoves', hcons'⟩

/-- An operation takes every check along a path. -/
theorem step_effect (hs : s.Consistent) (hop : op.Ok s) (hP : EachAtom (OpensWith P) s op) :
    Paths P s (s.step op).2 (s.step op).1 ∧ (s.step op).1.Consistent := by
  rw [step_eq_atoms]
  exact atoms_effect hs (atomOk_atoms hop) hP

variable {ops : List Op}

/-- A run takes every check along a path. -/
theorem run_effect (hs : s.Consistent) (hok : Along (fun s op => op.Ok s) step s ops)
    (hP : Along (EachAtom (OpensWith P)) step s ops) :
    Paths P s (emitAll step s ops).2 (emitAll step s ops).1 ∧
      (emitAll step s ops).1.Consistent := by
  induction ops generalizing s with
  | nil => exact ⟨.refl rfl, hs⟩
  | cons op rest ih =>
    obtain ⟨hmoves, hcons⟩ := step_effect hs hok.1 hP.1
    obtain ⟨hmoves', hcons'⟩ := ih hcons hok.2 hP.2
    exact ⟨hmoves.trans hmoves', hcons'⟩

theorem atoms_consistent (hs : s.Consistent) (hok : Along AtomOk atomStep s l) :
    (emitAll atomStep s l).1.Consistent :=
  hok.invariant (P := Consistent) (fun _ _ hx hs => atom_consistent hs hx) hs

theorem step_consistent (hs : s.Consistent) (hop : op.Ok s) : (s.step op).1.Consistent := by
  rw [step_eq_atoms]
  exact atoms_consistent hs (atomOk_atoms hop)

variable {I : AlertManager → Prop} {rows : List AlertHistoryRow}

/-- The invariant rule for runs of atoms: what every step keeps in a consistent engine. -/
theorem atoms_invariant (hstep : ∀ s, ∀ x ∈ l, s.Consistent → AtomOk s x → I s → I (atomStep s x).1)
    (hs : s.Consistent) (hok : Along AtomOk atomStep s l) (hi : I s) :
    I (emitAll atomStep s l).1 := by
  induction l generalizing s with
  | nil => exact hi
  | cons x rest ih =>
    have hcons := atom_consistent hs hok.1
    exact ih (fun s y hy => hstep s y (mem_cons_of_mem x hy)) hcons hok.2
      (hstep s x mem_cons_self hs hok.1 hi)

/-- The invariant rule for runs of operations that each meet a condition. -/
theorem run_invariant {C : AlertManager → Op → Prop}
    (hstep : ∀ s op, s.Consistent → op.Ok s → C s op → I s → I (s.step op).1) (hs : s.Consistent)
    (hops : Along (fun s op => op.Ok s) step s ops) (hok : Along C step s ops) (hi : I s) :
    I (emitAll step s ops).1 ∧ (emitAll step s ops).1.Consistent := by
  refine (hops.and hok).invariant (P := fun s => I s ∧ s.Consistent) ?_ ⟨hi, hs⟩
  rintro s op ⟨hop, hok⟩ ⟨hi, hs⟩
  exact ⟨hstep s op hs hop hok hi, step_consistent hs hop⟩

/-! ### Steps that do not observe liveness -/

theorem livenessCheck_inj {n m : NodeId} (h : livenessCheck n = livenessCheck m) : n = m := by
  simpa [checkId, subjectCheckId] using h

/-- The checks a sweep closes are those of active alerts. -/
theorem slotOk_of_swept (hs : s.Consistent) {p : Alert → Bool}
    (hc : c ∈ ((s.activeAlerts order).filter p).map (·.check)) : ∃ a, p a = true ∧ SlotOk c a := by
  obtain ⟨a, ha, rfl⟩ := mem_map.1 hc
  obtain ⟨ha, hpa⟩ := mem_filter.1 ha
  obtain ⟨d, _, hd⟩ := mem_filterMap.1 ha
  have hok := hs.slots d a hd
  exact ⟨a, hpa, hok.check ▸ hok⟩

/-- The alerts a sweep for orphans closes are not liveness alerts. -/
theorem not_liveness_of_orphan (hs : s.Consistent) {p : Alert → Bool}
    (hp : ∀ a, p a = true → a.metric ≠ .liveness)
    (hc : c ∈ ((s.activeAlerts order).filter p).map (·.check)) : c.name ≠ .liveness := by
  obtain ⟨a, hpa, hok⟩ := slotOk_of_swept hs hc
  exact fun hname => hp a hpa (hok.liveness.2 hname)

theorem isGone_of_mem (hs : s.Consistent) {n : NodeId} (h : livenessCheck n ∈ s.goneAlerts order) :
    s.isGone n = true := by
  obtain ⟨a, hgone, hok⟩ := slotOk_of_swept hs h
  have hnode : a.node = some n := by
    rw [Alert.node, hok.subject]
    rfl
  simpa [hnode] using hgone

theorem livenessCheck_ne {n : NodeId} (h : c.name ≠ .liveness) : livenessCheck n ≠ c := by
  rintro rfl
  exact h rfl

/-- Two states of the engine that agree on everything about liveness. -/
structure SameLiveness (s s' : AlertManager) : Prop where
  entries : ∀ n, s'.entries (livenessCheck n) = s.entries (livenessCheck n)
  live : s'.live = s.live
  down : s'.down = s.down
  config : s'.config = s.config

/-- Samples leave everything about liveness alone and emit nothing about it. -/
theorem samples_effect (hs : s.Consistent) (hl : ∀ x ∈ l, x.IsSample) :
    SameLiveness s (emitAll atomStep s l).1 ∧ (emitAll atomStep s l).1.Consistent ∧
      ∀ n, (emitAll atomStep s l).2.filter (fun x => x.check = livenessCheck n) = [] := by
  induction l generalizing s with
  | nil => exact ⟨⟨fun _ => rfl, rfl, rfl, rfl⟩, hs, fun _ => rfl⟩
  | cons x rest ih =>
    have hx := hl x mem_cons_self
    have hcons := atom_consistent hs (hx.ok s)
    obtain ⟨hsame, hcons', hquiet⟩ := ih hcons fun y hy => hl y (mem_cons_of_mem x hy)
    obtain ⟨hlive, hdown⟩ := atom_live (s := s) hx.keepsLive
    refine ⟨⟨fun n => ?_, hsame.live.trans hlive, hsame.down.trans hdown,
      hsame.config.trans (atom_config hx.isPoll.keepsConfig)⟩, hcons', fun n => ?_⟩
    · rw [emitAll_cons_fst, hsame.entries n, atom_entries (hx.alone n)]
    · rw [emitAll_cons_snd, filter_append, hquiet n, atom_quiet hs (hx.ok s) (hx.alone n)]
      rfl

/-! ### Restoring -/

/-- What the history promises about a stored row: the subject it names is that of its check, it
is a liveness row exactly when its check is a node's liveness check, and its state is one an
alert is raised for. -/
structure RowOk (row : AlertHistoryRow) : Prop where
  subject : row.subject = row.check.subject
  liveness : row.metricName = .liveness ↔ row.check.name = .liveness
  shape : row.check.name = .liveness → ∃ n, row.check = livenessCheck n
  problem : row.state.severity.isSome

/-- What restoring leaves in a slot: what was there, or the first stored alert of the check,
with the root cause the restored outages give it. -/
theorem seedActive_cases {alerts : List Alert} {down : OrdSet NodeId} {a : Alert}
    (h : (s.seedActive alerts down).active c = some a) :
    s.active c = some a ∨ s.active c = none ∧ ∃ x ∈ alerts, x.check = c ∧
      a = { x with rootCause :=
        restoredRootCause (s.config.grouping.attributeDown down) down x } := by
  simp only [seedActive] at h
  rw [foldl_orInsert] at h
  cases hs : s.active c with
  | some b => exact .inl (by simpa [hs] using h)
  | none =>
    refine .inr ⟨rfl, ?_⟩
    rw [hs] at h
    obtain ⟨x, hx, rfl⟩ := Option.map_eq_some_iff.1 (by simpa using h)
    exact ⟨x, mem_of_find?_eq_some hx, by simpa using find?_some hx, rfl⟩

variable (rows)

/-- The engine after start-up: the alerts of the stored rows, taken back into an empty one. -/
def restored : AlertManager :=
  fresh.restore (rows.map alertFromRow)

theorem restored_held : (restored rows).held = fresh.held := by
  unfold restored restore
  split <;> rfl

theorem restored_config : (restored rows).config = .default := by
  unfold restored restore
  split <;> rfl

variable {rows}

/-- A restored alert is that of a stored row of its check. -/
theorem restored_active {a : Alert} (h : (restored rows).active c = some a) :
    ∃ row ∈ rows, row.check = c ∧ ∃ rc, a = { alertFromRow row with rootCause := rc } := by
  unfold restored restore at h
  split at h
  · simp [fresh] at h
  · rcases seedActive_cases h with h | ⟨_, x, hx, hc, rfl⟩
    · simp [seedStates, seedLive, fresh] at h
    · obtain ⟨row, hrow, rfl⟩ := mem_map.1 hx
      exact ⟨row, hrow, hc, _, rfl⟩

/-- A check has a restored alert exactly when a stored row is about it. -/
theorem restored_active_isSome (rows : List AlertHistoryRow) (c : CheckId) :
    ((restored rows).active c).isSome = rows.any fun row => row.check = c := by
  unfold restored restore
  split
  next h =>
    simp only [List.isEmpty_iff, List.map_eq_nil_iff] at h
    simp [h, fresh]
  · simp only [seedActive]
    rw [foldl_orInsert]
    have hnone : ((fresh.seedStates (rows.map alertFromRow)).seedLive
        (rows.map alertFromRow)).active c = none := by
      simp [seedStates, seedLive, fresh]
    have hcheck : ∀ row, (alertFromRow row).check = row.check := fun _ => rfl
    rw [hnone, Bool.eq_iff_iff]
    simp [find?_isSome, hcheck]

/-- The engine is consistent after start-up. -/
theorem restored_consistent (hrows : ∀ row ∈ rows, RowOk row) :
    (restored rows).Consistent where
  slots := by
    intro c a ha
    obtain ⟨row, hrow, rfl, rc, rfl⟩ := restored_active ha
    obtain ⟨hsub, hlive, hshape, _⟩ := hrows row hrow
    exact ⟨rfl, hsub, hlive, hshape, by simp [alertFromRow]⟩
  held := by
    intro c
    rw [restored_held]
    cases ha : (restored rows).active c with
    | none => rfl
    | some a =>
      obtain ⟨row, _, _, rc, rfl⟩ := restored_active ha
      rfl
  loaded := by
    rw [restored_config]
    simp [AlertConfig.default]
  waiting := by
    intro c a ha hh
    obtain ⟨row, _, _, rc, rfl⟩ := restored_active ha
    simp [alertFromRow] at hh

/-! ### Runs over few checks -/

end AlertManager

/-- The checks an atomic step may open an alert on. -/
def Atom.touches : Atom → List CheckId
  | .check _ _ _ _ spec => [spec.check]
  | .raise a => [a.check]
  | _ => []

/-- The operation goes over its map in the order of a list. -/
def Op.InOrder (order : List CheckId) : Op → Prop
  | .observe _ _ o | .regroup o | .resolveOrphanedInterface o | .resolveOrphanedNodeDerived o
  | .resolveOrphanedCollected o | .forgetDeletedNodes o | .releaseHeld _ o => o = order
  | _ => True

instance (order : List CheckId) : ∀ op : Op, Decidable (op.InOrder order)
  | .observe _ _ o | .regroup o | .resolveOrphanedInterface o | .resolveOrphanedNodeDerived o
  | .resolveOrphanedCollected o | .forgetDeletedNodes o | .releaseHeld _ o =>
    inferInstanceAs (Decidable (o = order))
  | .observeInterface .. | .observeDerived .. | .setConfig .. | .publishIntervals _
  | .recordRowName .. | .resolveStale _ | .raiseEvent _ | .resolveEvent _ => isTrue trivial

namespace AlertManager

instance (ok : AlertManager → Atom → Prop) [∀ s x, Decidable (ok s x)] (s : AlertManager)
    (op : Op) : Decidable (EachAtom ok s op) :=
  inferInstanceAs (Decidable (Along ok atomStep s (op.atoms s)))

/-- The operation opens alerts on the listed checks only, and goes over its map in the order of
the list. -/
def Within (order : List CheckId) (s : AlertManager) (op : Op) : Prop :=
  op.InOrder order ∧ EachAtom (fun _ x => x.touches ⊆ order) s op

instance (order : List CheckId) (s : AlertManager) (op : Op) : Decidable (Within order s op) :=
  inferInstanceAs (Decidable (op.InOrder order ∧ EachAtom _ s op))

section

variable {order : List CheckId} (hn : order.Nodup) {s : AlertManager} (hs : s.Consistent)
  (hcov : ∀ c, (s.active c).isSome → c ∈ order)

include hn hs hcov

/-- An operation over few checks is fit to run, and leaves alerts on those checks only: the list
of the checks it touches lists the keys of every map it goes over. -/
theorem step_within (h : Within order s op) :
    op.Ok s ∧ (s.step op).1.Consistent ∧ ∀ c, ((s.step op).1.active c).isSome → c ∈ order := by
  obtain ⟨hin, htouch⟩ := h
  have hheld : ∀ c, (s.held c).isSome → c ∈ order := by
    intro c hc
    refine hcov c ?_
    rw [hs.held c] at hc
    cases ha : s.active c with
    | none => simp [ha] at hc
    | some a => rfl
  have hok : op.Ok s := by
    cases op <;> simp only [Op.InOrder] at hin <;>
      first | trivial | (subst hin; exact ⟨hn, hcov⟩) | (subst hin; exact ⟨hn, hheld⟩)
  have hP : EachAtom (OpensWith fun _ a => a.check ∈ order) s op := by
    refine htouch.mono fun s x hx c a ho => ?_
    cases ho with
    | transition _ hcheck _ _ _ _ => exact hx (by simp [Atom.touches, hcheck])
    | raised _ _ => exact hx (by simp [Atom.touches])
  obtain ⟨hpaths, hcons⟩ := step_effect hs hok hP
  refine ⟨hok, hcons, fun c hc => ?_⟩
  -- An alert that is open after the step was open before, or was opened on a listed check.
  refine (hpaths c).foldl (σ := Unit) (f := fun _ _ => ()) (x := ())
    (J := fun b _ => b.isSome → c ∈ order) ?_ (hs.slots c) (hcov c) hc
  intro b acts b' _ hmove _ hb hsome
  cases hmove with
  | stay => exact hb hsome
  | opened hp hok hh | holding hp hok hh => exact hok.check ▸ hp
  | closed | dropped => simp at hsome
  | refired | retagged | suppressed => exact hb rfl

/-- A run over few checks is fit to run. -/
theorem ok_of_within {ops : List Op} (h : Along (Within order) step s ops) :
    Along (fun s op => op.Ok s) step s ops := by
  induction ops generalizing s with
  | nil => trivial
  | cons op rest ih =>
    obtain ⟨hok, hcons, hcov'⟩ := step_within hn hs hcov h.1
    exact ⟨hok, ih hcons hcov' h.2⟩

end

end AlertManager

/-! ### Small runs

The pieces the concrete runs of this development are made of. -/

/-- A liveness rule for every node. -/
def livenessRule (dwell : Nat) : StoredThreshold where
  level := .global
  scopeIds := []
  rule := ⟨.liveness, .none, dwell⟩
  rowMatch := none

/-- A node filed nowhere. -/
def plainNode (n : NodeId) : NodeId × NodeMeta := (n, ⟨none, none, []⟩)

variable (node) (outcome : CheckOutcome)

/-- A result without samples. -/
def poll (t : UnixMs) : PollResult where
  nodeId := node
  atUnixMs := t
  outcome := outcome
  samples := []
  observational := false

/-- The metric of the small runs. -/
def cpu : Metric := .series "cpu"

/-- Bounds on that metric for every node. -/
def cpuRule (bounds : ThresholdBounds) : StoredThreshold where
  level := .global
  scopeIds := []
  rule := ⟨.metric cpu, bounds, 1⟩
  rowMatch := none

/-- A result of node 1 with readings of the metric. -/
def cpuPoll (readings : List F64) (t : UnixMs) : PollResult :=
  { poll 1 outcome t with samples := readings.map fun v => ⟨cpu, none, v, .gauge⟩ }

/-- The stored row of a node's outage. -/
def outageRow : AlertHistoryRow where
  subject := .node node
  check := livenessCheck node
  severity := .critical
  state := .unreachable
  atUnixMs := 0
  metric := some .liveness
  observedValue := none
  thresholdValue := none
  direction := none
  ifindex := none
  row := none
  rowName := none

/-- The liveness checks of the two nodes the small runs are about. -/
def bothLiveness : List CheckId := [livenessCheck 1, livenessCheck 2]

/-- A result of one of the two nodes. -/
def pollOp (t : UnixMs) : Op :=
  .observe (poll node outcome t) [] bothLiveness

variable {node}

/-- Two linked nodes whose outages wait for each other's verdict, with one liveness rule. -/
def waitingConfig (dwell : Nat) : AlertConfig :=
  { AlertConfig.new [livenessRule dwell] [plainNode 1, plainNode 2] with
      grouping := (Topology.LinkGraph.new .links).addLink 1 2 true
      groupingWait := true }

/-- That configuration is loaded, with a dwell of two samples. -/
def loadWaiting : Op := .setConfig (waitingConfig 2) rfl

/-- The restored outage of node 1 ends. It goes down again while node 2 is failing, so its new
alert is held back. -/
def heldOutageOps : List Op :=
  [loadWaiting, pollOp 1 .reachable 1, pollOp 1 .reachable 2,
    pollOp 2 .unreachable 3, pollOp 1 .unreachable 4, pollOp 1 .unreachable 5]

namespace AlertManager

theorem outageRow_ok (node : NodeId) : ∀ row ∈ [outageRow node], RowOk row := by
  intro row hrow
  rw [mem_singleton.1 hrow]
  exact ⟨rfl, by simp [AlertHistoryRow.metricName, outageRow, checkId, subjectCheckId],
    fun _ => ⟨node, rfl⟩, rfl⟩

/-- Nothing was open when the previous process stopped. -/
theorem noRows_ok : ∀ row ∈ ([] : List AlertHistoryRow), RowOk row := by
  simp

/-- A run of the two nodes that begins with the outage of the first one is fit to run. -/
theorem ok_of_outage_run {ops : List Op}
    (h : Along (Within bothLiveness) step (restored [outageRow 1]) ops) :
    Along (fun s op => op.Ok s) step (restored [outageRow 1]) ops := by
  refine ok_of_within (by decide) (restored_consistent (outageRow_ok 1)) (fun c hc => ?_) h
  obtain ⟨a, ha⟩ := Option.isSome_iff_exists.1 hc
  obtain ⟨row, hrow, rfl, _⟩ := restored_active ha
  rw [mem_singleton.1 hrow]
  exact mem_cons_self

/-- A run of the two nodes from an empty engine is fit to run. -/
theorem ok_of_fresh_run {ops : List Op} (h : Along (Within bothLiveness) step fresh ops) :
    Along (fun s op => op.Ok s) step fresh ops :=
  ok_of_within (by decide) consistent_fresh (by simp [fresh]) h

end AlertManager

end Yagra
