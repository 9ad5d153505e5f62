import Yagra.Proofs.Trackers
import Yagra.Tsdb.InterfaceWatch

/-!
# `Yagra.Proofs.InterfaceWatch`: a port that goes quiet

Only ports above a floor are read at a tick. A port that falls below it is read again because its
check is tracked, and so its alert is closed.

`Recovering c d n` says how far a check is on its way: its alert is closed, or it has seen `n`
samples of `ok` in a row, fewer than the dwell `d`. A sample of `ok` under a rule of that dwell
takes `n` to `n + 1` (`Recovering.sample`), and no step that is calm about the check takes it back
(`atom_recovering`). The closed alert is part of the statement, so it is never a case of its own.
`Watch.Closing` adds that the check is tracked for as long as its alert is open.

A tick feeds a tracked check of a quiet port one sample: in the loop over the candidates if the
port is above the floor, and in the second look if it is not (`ClosingUnder.pass_self`). So after
as many ticks as the dwell the alert is closed (`Watch.port_alert_closes`).

The tracked checks are lost at a restart, and the restored alerts are not put back into them. An
alert whose port is below the floor when the process comes back is never read again
(`Watch.restart_strands_port_alert`).
-/

set_option autoImplicit false

namespace Yagra

open Yagra.Lib CheckKey List OrdSet

/-! ### One step of the engine and the check of a port -/

/-- The step observes a check in no other state than `ok`. -/
def Atom.Calm (c : CheckId) : Atom → Prop
  | .check _ _ raw _ spec => spec.check = c → raw = .ok
  | _ => True

namespace AlertManager

variable {s : AlertManager} {x : Atom} {key : CheckKey}

/-- What a step can be to the check of a port: it spares it, it leaves it without an alert, or it
is an observation of it under a rule. -/
theorem atom_on_port (hx : AtomOk s x) (key : CheckKey) :
    x.Spares key.check ∨ (atomStep s x).1.active key.check = none ∨
      ∃ order node raw t spec, x = .check order node raw t spec ∧ spec.check = key.check ∧
        SpecOk node raw spec ∧ spec.alerting = true := by
  by_cases hobs : ∃ order node raw t spec, x = .check order node raw t spec ∧ key.check = spec.check
  · obtain ⟨order, node, raw, t, spec, rfl, hc⟩ := hobs
    refine .inr (.inr ⟨order, node, raw, t, spec, rfl, hc.symm, hx.1, ?_⟩)
    cases hx.1 with
    | liveness _ hlive _ _ _ =>
      rw [hlive] at hc
      simp [check, interfaceCheckId, checkId, subjectCheckId] at hc
    | threshold _ halerting _ _ _ _ _ => exact halerting
  · refine (atom_spares_or hx (fun order node raw t spec he hc => ?_) (fun node metric hc => ?_)
      fun raised hc => ?_).imp_right .inl
    · exact hobs ⟨order, node, raw, t, spec, he, hc⟩
    · simp [check, interfaceCheckId, checkId, subjectCheckId] at hc
    · cases raised <;> simp [check, interfaceCheckId, Raised.alert, Raised.subjectAlert,
        subjectCheckId] at hc

/-! ### Recovery -/

/-- A check on its way to be closed: it has no alert, or it has committed a problem and seen at
least `n` samples of `ok` in a row. Fewer than a dwell `d` of them, if any were counted. -/
def Recovering (c : CheckId) (d n : Nat) (s : AlertManager) : Prop :=
  s.active c = none ∨
    (s.committedAt c).severity.isSome ∧ n ≤ s.runToward c .ok ∧ (0 < n → n < max d 1)

section
variable {s : AlertManager} {c : CheckId} {d n : Nat}

theorem Recovering.closed (h : s.Recovering c d (max d 1)) : s.active c = none := by
  rcases h with h | ⟨_, _, h⟩
  · exact h
  · exact absurd (h (by omega)) (lt_irrefl _)

theorem Recovering.mono {m : Nat} (h : s.Recovering c d n) (hm : m ≤ n) : s.Recovering c d m := by
  refine h.imp_right fun ⟨hsev, hrun, hlt⟩ => ⟨hsev, hm.trans hrun, fun hpos => ?_⟩
  exact lt_of_le_of_lt hm (hlt (lt_of_lt_of_le hpos hm))

/-- Recovery is about the check's state and whether it has an alert. -/
theorem Recovering.of_eq {s' : AlertManager} (h : s.Recovering c d n)
    (hstates : s'.states c = s.states c) (hsome : (s'.active c).isSome = (s.active c).isSome) :
    s'.Recovering c d n := by
  refine h.imp (fun hnone => ?_) fun hrun => ?_
  · rw [hnone] at hsome
    simpa using hsome
  · unfold committedAt runToward
    rw [hstates]
    exact hrun

end

section
variable {s : AlertManager} {node : NodeId} {t : UnixMs} {spec : CheckSpec}

/-- A sample of `ok` opens no alert. -/
theorem ok_sample_of_closed (hs : s.Consistent) (halerting : spec.alerting = true)
    (order : List CheckId) (h : s.active spec.check = none) :
    (s.processCheck order node .ok t spec).1.active spec.check = none := by
  have hcore : ((s.checkCore node .ok t spec).1.active spec.check).isSome = false := by
    cases htr : s.transitionOf .ok t spec with
    | some tr =>
      obtain ⟨hstate, _, _, _⟩ := transitionOf_some htr
      rw [checkCore_closes htr (by rw [hstate]; rfl) (.inl halerting)]
      rfl
    | none => rw [checkCore_isSome_of_no_transition hs.slots htr halerting, h]; rfl
  simpa [hcore] using s.processCheck_isSome order node .ok t spec spec.check

/-- A sample of `ok` of a check that has committed a problem closes its alert, or it is one more
of a run that is shorter than the dwell. -/
theorem ok_sample_of_problem (halerting : spec.alerting = true) (order : List CheckId)
    (hsev : (s.committedAt spec.check).severity.isSome) :
    let s' := (s.processCheck order node .ok t spec).1
    s'.active spec.check = none ∨
      (s'.committedAt spec.check).severity.isSome ∧
        s'.runToward spec.check .ok = s.runToward spec.check .ok + 1 ∧
        s.runToward spec.check .ok + 1 < max spec.dwellSamples 1 := by
  intro s'
  have hstates : s'.states spec.check = some (s.nextState .ok t spec) := by
    rw [s.processCheck_states, Function.update_self]
  have hne : s.committedAt spec.check ≠ .ok := by
    intro heq
    simp [heq, NodeState.severity] at hsev
  rcases sample_of_not_committed (t := t) hne with ⟨tr, htr⟩ | ⟨_, hlt, hnext, hcand⟩
  · obtain ⟨hstate, _, _, _⟩ := transitionOf_some htr
    have hcore : (s.checkCore node .ok t spec).1.active spec.check = none :=
      checkCore_closes htr (by rw [hstate]; rfl) (.inl halerting)
    refine .inl ?_
    simpa [hcore] using s.processCheck_isSome order node .ok t spec spec.check
  · refine .inr ⟨?_, runToward_of_candidate hstates hcand, hlt⟩
    rw [committedAt_of_states hstates, hnext]
    exact hsev

/-- A sample of `ok` under a rule of dwell `d` brings a recovery one sample forward. -/
theorem Recovering.sample (hs : s.Consistent) (halerting : spec.alerting = true)
    (order : List CheckId) {d n : Nat} (hd : spec.dwellSamples = d)
    (h : s.Recovering spec.check d n) :
    (s.processCheck order node .ok t spec).1.Recovering spec.check d (n + 1) := by
  rcases h with hnone | ⟨hsev, hrun, _⟩
  · exact .inl (ok_sample_of_closed hs halerting order hnone)
  · refine (ok_sample_of_problem halerting order hsev).imp_right fun ⟨hsev', hrun', hlt⟩ => ?_
    rw [hd] at hlt
    exact ⟨hsev', by omega, fun _ => by omega⟩

end

/-- A step that is calm about the check of a port keeps its recovery going. -/
theorem atom_recovering (hs : s.Consistent) (hx : AtomOk s x) (hcalm : x.Calm key.check) {d n : Nat}
    (h : s.Recovering key.check d n) : (atomStep s x).1.Recovering key.check d n := by
  rcases atom_on_port hx key with hspares | hnone | ⟨order, node, raw, t, spec, rfl, hc, _, ha⟩
  · obtain ⟨hstates, hsome⟩ := atom_spares (s := s) hspares
    exact h.of_eq hstates hsome
  · exact .inl hnone
  · obtain rfl : raw = .ok := hcalm hc
    rw [← hc] at h ⊢
    rcases h with hnone | ⟨hsev, hrun, hlt⟩
    · exact .inl (ok_sample_of_closed hs ha order hnone)
    · refine (ok_sample_of_problem ha order hsev).imp_right fun ⟨hsev', hrun', _⟩ => ?_
      exact ⟨hsev', le_trans (by omega) hrun'.ge, hlt⟩

/-- A step that is calm about the check of a port opens no alert of it. -/
theorem atom_closed (hs : s.Consistent) (hx : AtomOk s x) (hcalm : x.Calm key.check)
    (h : s.active key.check = none) : (atomStep s x).1.active key.check = none :=
  (atom_recovering hs hx hcalm (d := 0) (.inl h)).closed

/-- Every step keeps an open port alert and a committed problem together. -/
theorem atom_tracked_port (hs : s.Consistent) (hx : AtomOk s x) {d : Nat}
    (h : s.Recovering key.check d 0) : (atomStep s x).1.Recovering key.check d 0 := by
  rcases atom_on_port hx key with hspares | hnone | ⟨order, node, raw, t, spec, rfl, hc, hspec, ha⟩
  · obtain ⟨hstates, hsome⟩ := atom_spares (s := s) hspares
    exact h.of_eq hstates hsome
  · exact .inl hnone
  · have htracked : (s.active key.check).isSome → (s.committedAt key.check).severity.isSome := by
      rcases h with hnone | ⟨hsev, _⟩
      · simp [hnone]
      · exact fun _ => hsev
    have hno : s.recoversUnloaded (.check order node raw t spec) = false := by
      simp [recoversUnloaded, ha]
    cases hnone : (s.processCheck order node raw t spec).1.active key.check with
    | none => exact .inl hnone
    | some a =>
      refine .inr ⟨?_, Nat.zero_le _, fun hpos => absurd hpos (lt_irrefl 0)⟩
      exact processCheck_trackedAt hs hspec hno htracked (by rw [hnone]; rfl)

/-! ### What an observation of a port changes -/

/-- What the watch reads of the engine beside the entries of a check. -/
def watched (s : AlertManager) :
    AlertConfig × (NodeId → Option NodeState) × (NodeId → Option Nat) :=
  (s.config, s.live, s.intervals)

/-- An observation of a port does nothing, or is one sample of the port's check. -/
theorem observeInterfaceMetric_cases (s : AlertManager) (node : NodeId) (ifindex : IfIndex)
    (metric : Metric) (value : F64) (t : UnixMs) :
    s.observeInterfaceMetric [] node ifindex metric value t = (s, []) ∨
    ∃ raw spec, SpecOk node raw spec ∧ spec.isLiveness = false ∧ spec.alerting = true ∧
      spec.check = interfaceCheckId node ifindex (.metric metric) ∧
      s.observeInterfaceMetric [] node ifindex metric value t
        = s.processCheck [] node raw t spec := by
  unfold observeInterfaceMetric
  cases s.config.resolve node (some ifindex) none (.metric metric) with
  | none => exact .inl rfl
  | some eff =>
    simp only
    split
    · exact .inl rfl
    · exact .inr ⟨_, _, .threshold rfl rfl metric rfl rfl rfl (judged_cases _ eff value), rfl,
        rfl, rfl, rfl⟩

theorem processCheck_watched {spec : CheckSpec} (hl : spec.isLiveness = false)
    (order : List CheckId) (node : NodeId) (raw : NodeState) (t : UnixMs) :
    (s.processCheck order node raw t spec).1.watched = s.watched := by
  have hsettings := s.processCheck_settings order node raw t spec
  have hconfig := congrArg AlertManager.config hsettings
  have hintervals := congrArg AlertManager.intervals hsettings
  have hlive := (atom_live (s := s) (x := .check order node raw t spec) hl).1
  exact Prod.ext hconfig (Prod.ext hlive hintervals)

theorem resolveOrphans_watched (s : AlertManager) (l : List CheckId) :
    (s.resolveOrphans l).1.watched = s.watched := by
  refine emitAll_frame (π := watched) _ (fun s c _ => ?_) s
  rw [resolveOrphan_frame]
  rfl

/-- An alert that is closed was open on one of the listed checks. -/
theorem mem_resolveOrphans {l : List CheckId} {a : Alert}
    (h : NotifyAction.resolve a ∈ (s.resolveOrphans l).2) : ∃ c ∈ l, s.active c = some a := by
  unfold resolveOrphans at h
  induction l generalizing s with
  | nil => simp at h
  | cons c rest ih =>
    rw [emitAll_cons_snd] at h
    rcases mem_append.1 h with h | h
    · refine ⟨c, mem_cons_self, ?_⟩
      rcases s.resolveOrphan_cases c with ⟨_, he⟩ | ⟨_, he⟩ <;> rw [he] at h
      · simp at h
      · rcases s.closeActive_cases c with ⟨_, he⟩ | ⟨b, hb, _, he⟩ | ⟨b, u, _, _, he⟩ <;>
          simp [he] at h
        rw [h, hb]
    · obtain ⟨c', hc', ha⟩ := ih h
      refine ⟨c', mem_cons_of_mem c hc', ?_⟩
      rw [resolveOrphan_active] at ha
      by_cases hcc : c' = c
      · simp [hcc] at ha
      · rwa [Function.update_of_ne hcc] at ha

end AlertManager

/-! ### One check of the watch -/

/-- A dwell of polls is a dwell of ticks on a node that is polled at least once a tick. -/
theorem dwellTicks_of_le {interval : Option Nat} {tickSecs : Nat} (dwell : Nat)
    (h : ∀ secs, interval = some secs → secs ≤ tickSecs) :
    dwellTicks dwell interval tickSecs = dwell := by
  unfold dwellTicks
  cases interval with
  | none => rfl
  | some secs =>
    have hsecs : secs ≤ max tickSecs 1 := le_trans (h secs rfl) (le_max_left _ _)
    have htick : 0 < max tickSecs 1 := by omega
    generalize max tickSecs 1 = tick at hsecs htick
    have hspan : (dwell * secs + (tick - 1)) / tick ≤ dwell := by
      rw [Nat.div_le_iff_le_mul_add_pred htick, Nat.mul_comm tick dwell]
      have := Nat.mul_le_mul_left dwell hsecs
      omega
    simp only
    split_ifs <;> omega

/-- What a tick finds for a check: the node is up, a rule is in force on the port, alerting is
neither paused nor in maintenance, and the node is polled at least once a tick. -/
structure RuleOn (key : CheckKey) (eff : EffectiveThreshold) (now : UnixMs) (s : AlertManager) :
    Prop where
  live : s.live key.node = some .ok
  rule : s.config.resolve key.node (some key.ifindex) none (.metric key.metric.metric) = some eff
  maintenance : s.config.inMaintenance key.node = false
  paused : s.config.isPaused key.node now = false
  interval : ∀ secs, s.intervals key.node = some secs → secs ≤ watchTickSecs

variable {key : CheckKey} {pair : DerivedPair} {dir : DerivedPair × InterfaceTopMetric}
  {m : PortMetric} {r : PortReading} {now : UnixMs}

theorem RuleOn.of_watched {eff : EffectiveThreshold} {s s' : AlertManager}
    (h : RuleOn key eff now s) (hw : s'.watched = s.watched) : RuleOn key eff now s' := by
  have hconfig : s'.config = s.config := congrArg Prod.fst hw
  have hlive : s'.live = s.live := congrArg (fun p => p.2.1) hw
  have hintervals : s'.intervals = s.intervals := congrArg (fun p => p.2.2) hw
  exact ⟨by rw [hlive]; exact h.live, by rw [hconfig]; exact h.rule,
    by rw [hconfig]; exact h.maintenance, by rw [hconfig]; exact h.paused,
    by rw [hintervals]; exact h.interval⟩

/-- A check the watch is about to close: it is on its way, and tracked for as long as its alert is
open. -/
structure Watch.Closing (key : CheckKey) (d n : Nat) (w : Watch) : Prop where
  consistent : w.engine.Consistent
  recovering : w.engine.Recovering key.check d n
  tracked : w.engine.active key.check = none ∨ key ∈ w.tracked

namespace Watch

open AlertManager

section
variable {key key' : CheckKey} {d n : Nat} {w : Watch} {now : UnixMs} {value : F64}

theorem observe_engine (w : Watch) (key : CheckKey) (value : F64) (now : UnixMs) :
    (w.observe now key value).1.engine
      = (w.engine.step (.observeInterface key.node key.ifindex key.metric.metric value now)).1 :=
  rfl

theorem observe_watched (w : Watch) (key : CheckKey) (value : F64) (now : UnixMs) :
    (w.observe now key value).1.engine.watched = w.engine.watched := by
  show (w.engine.observeInterfaceMetric [] key.node key.ifindex key.metric.metric value
    now).1.watched = _
  rcases w.engine.observeInterfaceMetric_cases key.node key.ifindex key.metric.metric value now with
    he | ⟨raw, spec, _, hl, _, _, he⟩ <;> rw [he]
  exact processCheck_watched hl [] key.node raw now

theorem observe_consistent (hs : w.engine.Consistent) (key : CheckKey) (value : F64)
    (now : UnixMs) : (w.observe now key value).1.engine.Consistent := by
  rw [observe_engine]
  exact step_consistent hs trivial

/-- Tracking changes of other checks do not matter, and nothing is lost with the alert closed. -/
theorem Closing.of_tracked {tracked : TrackedChecks} (h : w.Closing key d n)
    (htracked : key ∈ w.tracked → w.engine.active key.check = none ∨ key ∈ tracked) :
    Closing key d n { w with tracked := tracked } :=
  ⟨h.consistent, h.recovering, h.tracked.elim .inl htracked⟩

/-- An observation of another check. -/
theorem Closing.observe_other (h : w.Closing key d n) (hne : key' ≠ key) :
    (w.observe now key' value).1.Closing key d n := by
  have hcons := observe_consistent h.consistent key' value now
  have hspares : (w.observe now key' value).1.engine.states key.check = w.engine.states key.check ∧
      ((w.observe now key' value).1.engine.active key.check).isSome
        = (w.engine.active key.check).isSome := by
    show (w.engine.observeInterfaceMetric [] key'.node key'.ifindex key'.metric.metric value
        now).1.states key.check = _ ∧
      ((w.engine.observeInterfaceMetric [] key'.node key'.ifindex key'.metric.metric value
        now).1.active key.check).isSome = _
    rcases w.engine.observeInterfaceMetric_cases key'.node key'.ifindex key'.metric.metric value
      now with he | ⟨raw, spec, _, hl, _, hc, he⟩ <;> rw [he]
    · exact ⟨rfl, rfl⟩
    · refine atom_spares (x := .check [] key'.node raw now spec) (fun heq => hne ?_)
      exact (check_injective (heq.trans hc)).symm
  refine ⟨hcons, h.recovering.of_eq hspares.1 hspares.2, h.tracked.imp_left fun hnone => ?_⟩
  simpa [hnone] using hspares.2

/-- An observation of the check itself, of a value its rule calls `ok`, brings it one sample
forward. -/
theorem Closing.observe_self {eff : EffectiveThreshold} (h : w.Closing key eff.dwellSamples n)
    (hrule : RuleOn key eff now w.engine) (hok : eff.evaluate value = .ok) :
    (w.observe now key value).1.Closing key eff.dwellSamples (n + 1) := by
  obtain ⟨spec, halerting, hcheck, hdwell, he⟩ : ∃ spec : CheckSpec, spec.alerting = true ∧
      spec.check = key.check ∧ spec.dwellSamples = eff.dwellSamples ∧
      (w.observe now key value).1.engine = (w.engine.processCheck [] key.node .ok now spec).1 := by
    show ∃ spec : CheckSpec, _ ∧ _ ∧ _ ∧ (w.engine.observeInterfaceMetric [] key.node key.ifindex
      key.metric.metric value now).1 = _
    unfold observeInterfaceMetric
    simp only [hrule.rule, hrule.paused, hrule.maintenance, hok, Bool.false_eq_true, if_false]
    refine ⟨_, ?_, ?_, ?_, rfl⟩
    · rfl
    · rfl
    · exact dwellTicks_of_le _ hrule.interval
  have hrec := h.recovering
  have htracked := h.tracked
  rw [← hcheck] at hrec htracked
  refine ⟨observe_consistent h.consistent key value now, ?_, ?_⟩ <;> rw [he, ← hcheck]
  · exact hrec.sample h.consistent halerting [] hdwell
  · exact htracked.imp_left (ok_sample_of_closed h.consistent halerting [])

end

/-! ### The loops of a pass -/

section
variable {key : CheckKey} {eff : EffectiveThreshold} {now : UnixMs} {n : Nat}

/-- The check is on its way to be closed, and the tick still finds its rule in force. -/
def ClosingUnder (key : CheckKey) (eff : EffectiveThreshold) (now : UnixMs) (n : Nat) (w : Watch) :
    Prop :=
  w.Closing key eff.dwellSamples n ∧ RuleOn key eff now w.engine

variable {pair : DerivedPair} {value : F64} {w : Watch}

theorem ClosingUnder.mono {m : Nat} (h : w.ClosingUnder key eff now n) (hm : m ≤ n) :
    w.ClosingUnder key eff now m :=
  ⟨⟨h.1.consistent, h.1.recovering.mono hm, h.1.tracked⟩, h.2⟩

/-- A check is one sample further when it is the one that was fed. -/
theorem ClosingUnder.of_fed {p : Prop} [Decidable p]
    (h : w.ClosingUnder key eff now (if p then n + 1 else n)) : w.ClosingUnder key eff now n :=
  h.mono (by split <;> omega)

section

variable (h : w.ClosingUnder key eff now n)

include h

variable {key' : CheckKey} {entry : CheckKey × F64}
  {reading : NodeId → IfIndex → Option PortReading}

/-- Observing a check, which is another one or is given a value its rule calls `ok`. -/
theorem ClosingUnder.observe (hok : key' = key → eff.evaluate value = .ok) :
    (w.observe now key' value).1.ClosingUnder key eff now (if key' = key then n + 1 else n) := by
  refine ⟨?_, h.2.of_watched (w.observe_watched key' value now)⟩
  split
  next hkey =>
    rw [hkey]
    exact h.1.observe_self h.2 (hok hkey)
  next hkey => exact h.1.observe_other hkey

theorem ClosingUnder.feed (hok : entry.1 = key → eff.evaluate entry.2 = .ok) :
    (w.feed now entry).1.ClosingUnder key eff now (if entry.1 = key then n + 1 else n) := by
  have hfed := h.observe hok
  generalize (if entry.1 = key then n + 1 else n) = m at hfed ⊢
  show ClosingUnder key eff now m (if w.inForce entry.1 then (w.observe now entry.1 entry.2).1.mark
    entry.1 else (w.observe now entry.1 entry.2).1)
  split
  · exact ⟨hfed.1.of_tracked fun hk => .inr (mem_insert.2 (.inr hk)), hfed.2⟩
  · exact hfed

/-- Looking at a check again, which is another one or has a reading its rule calls `ok`. It is
forgotten only with its alert closed. -/
theorem ClosingUnder.recover (hok : key' = key → ∃ value,
    recoveryFor key.metric pair (reading key.node key.ifindex) = .observe value ∧
    eff.evaluate value = .ok) :
    (w.recover pair reading now key').1.ClosingUnder key eff now
      (if key' = key then n + 1 else n) := by
  unfold Watch.recover
  cases hrec : recoveryFor key'.metric pair (reading key'.node key'.ifindex) with
  | observe value =>
    have hfed : (w.observe now key' value).1.ClosingUnder key eff now _ := h.observe fun hkey => by
      obtain ⟨value', hreading, hvalue⟩ := hok hkey
      rw [hkey, hreading] at hrec
      obtain rfl : value' = value := by simpa using hrec
      exact hvalue
    generalize (if key' = key then n + 1 else n) = m at hfed ⊢
    simp only
    split
    next hquiet =>
      refine ⟨hfed.1.of_tracked fun hk => ?_, hfed.2⟩
      by_cases hkey : key = key'
      · subst hkey
        have hforce : w.inForce key = true := by simp [inForce, watchesPort, h.2.rule]
        simp only [hforce, Bool.not_true, Bool.false_or, isQuiet, interfaceCheckIsQuiet,
          Bool.and_eq_true] at hquiet
        exact .inl (Option.isNone_iff_eq_none.1 hquiet.2)
      · exact .inr (mem_erase.2 ⟨hkey, hk⟩)
    · exact hfed
  | hold =>
    have hne : key' ≠ key := by
      intro hkey
      obtain ⟨_, hreading, _⟩ := hok hkey
      simp [hkey, hreading] at hrec
    simp only [if_neg hne]
    split
    · exact ⟨h.1.of_tracked fun hk => .inr (mem_erase.2 ⟨hne.symm, hk⟩), h.2⟩
    · exact h

end

variable {c : AlertConfig} {r : PortReading}

/-- Feeding a reading, whose values of the check the rule calls `ok`. -/
theorem ClosingUnder.feedReading
    (hok : ∀ entry ∈ entriesOf c pair r, entry.1 = key → eff.evaluate entry.2 = .ok)
    (h : w.ClosingUnder key eff now n) :
    (w.feedReading c pair now r).1.ClosingUnder key eff now n := by
  unfold Watch.feedReading
  split
  · exact emitAll_invariant _ (P := ClosingUnder key eff now n)
      (fun w entry he hw => (hw.feed (hok entry he)).of_fed) h
  · exact h

/-- Feeding a reading of the check itself. -/
theorem ClosingUnder.feedReading_self (hmem : (key, value) ∈ entriesOf c pair r)
    (hnode : r.node = key.node)
    (hok : ∀ entry ∈ entriesOf c pair r, entry.1 = key → eff.evaluate entry.2 = .ok)
    (h : w.ClosingUnder key eff now n) :
    (w.feedReading c pair now r).1.ClosingUnder key eff now (n + 1) := by
  unfold Watch.feedReading
  rw [if_pos (by rw [hnode, h.2.live]; rfl)]
  exact emitAll_of_mem hmem (fun _ entry he hw => (hw.feed (hok entry he)).of_fed)
    (fun _ entry he hw => (hw.feed (hok entry he)).of_fed)
    (fun _ hw => by simpa using hw.feed (hok _ hmem)) h

end

end Watch

/-! ### What a direction reads of a port -/

/-- The value of a reading for one of its direction's metrics. -/
def PortReading.value (r : PortReading) (pair : DerivedPair) (metric : PortMetric) : Option F64 :=
  if metric = pair.pct then r.pct else some r.bps

theorem recoveryFor_some {metric : PortMetric} {v : F64} (h : r.value pair metric = some v) :
    recoveryFor metric pair (some r) = .observe v := by
  unfold PortReading.value at h
  unfold recoveryFor
  split at h
  next hpct => simp [hpct, h]
  next hpct => simp_all

/-- A direction's pair of metrics is a percentage and a rate. -/
def DerivedPair.Proper (pair : DerivedPair) : Prop := pair.pct ≠ pair.bps

/-- What a reading is fed as a check: the value of its metric, if a rule of the metric can fire. -/
theorem mem_entriesOf {c : AlertConfig} (hpair : pair.Proper) {v : F64} :
    (key, v) ∈ Watch.entriesOf c pair r ↔
      (key.metric = pair.pct ∨ key.metric = pair.bps) ∧ r.node = key.node ∧
        r.ifindex = key.ifindex ∧ (c.demand key.metric).canFire = true ∧
        r.value pair key.metric = some v := by
  obtain ⟨node, ifindex, metric⟩ := key
  have hne : pair.bps ≠ pair.pct := hpair.symm
  unfold Watch.entriesOf PortReading.value
  rw [mem_append]
  constructor
  · rintro (h | h) <;> split at h
    next hfire =>
      obtain ⟨pct, hpct, he⟩ := mem_map.1 h
      obtain ⟨⟨rfl, rfl, rfl⟩, rfl⟩ := he
      exact ⟨.inl rfl, rfl, rfl, hfire, by simpa using hpct⟩
    · simp at h
    next hfire =>
      simp only [mem_singleton, Prod.mk.injEq, mk.injEq] at h
      obtain ⟨⟨rfl, rfl, rfl⟩, rfl⟩ := h
      exact ⟨.inr rfl, rfl, rfl, hfire, by simp [hne]⟩
    · simp at h
  · rintro ⟨hmetric, rfl, rfl, hfire, hvalue⟩
    rcases hmetric with rfl | rfl
    · left
      rw [if_pos hfire]
      simpa using hvalue
    · right
      rw [if_neg hne] at hvalue
      rw [if_pos hfire, Option.some.inj hvalue]
      exact mem_singleton_self _

/-- The reading of a row has the row's node, port and rate. -/
theorem readingOf_eq_some {speeds : SpeedTable} {row : RateRow}
    (h : readingOf speeds row = some r) :
    row = (r.node, (r.ifindex : Int), r.bps) ∧
      r.pct = utilisationPct r.bps (speeds (r.node, (r.ifindex : Int))).join := by
  unfold readingOf at h
  split at h
  · simp at h
  next hneg =>
    obtain ⟨node, idx, bps⟩ := row
    have hidx : ((idx.toNat : Nat) : Int) = idx := Int.toNat_of_nonneg (by simpa using hneg)
    cases h
    simp [hidx]

namespace World

variable {m : InterfaceTopMetric} {world : World}
variable {ifindex : IfIndex} {node : NodeId} {row : RateRow}

/-- A port has the rate of its row. -/
theorem rate_of_mem {bps : F64} (h : (node, (ifindex : Int), bps) ∈ world.series m) :
    world.rate m node ifindex = some bps := by
  unfold rate
  cases hfind : (world.series m).find? fun row => decide (row.1 = node) &&
      decide (row.2.1 = (ifindex : Int)) with
  | none => simpa using find?_eq_none.1 hfind _ h
  | some row =>
    have hrow := find?_some hfind
    simp only [Bool.and_eq_true, decide_eq_true_eq] at hrow
    -- Both rows have the port's key, and a port has one row.
    have heq := inj_on_of_nodup_map (world.onePerPort m) (mem_of_find?_eq_some hfind) h
      (by simp [hrow])
    simp [heq]

theorem mem_of_rate {bps : F64} (h : world.rate m node ifindex = some bps) :
    (node, (ifindex : Int), bps) ∈ world.series m := by
  obtain ⟨row, hfind, rfl⟩ := Option.map_eq_some_iff.1 h
  have hrow := find?_some hfind
  simp only [Bool.and_eq_true, decide_eq_true_eq] at hrow
  obtain ⟨rfl, hidx⟩ := hrow
  rw [← hidx]
  exact mem_of_find?_eq_some hfind

theorem rowsIn_subset {scope : Option (List Uuid)} {p : RateRow → Bool}
    (h : row ∈ (world.rowsIn m scope).filter p) : row ∈ world.series m := by
  replace h := mem_of_mem_filter h
  unfold rowsIn at h
  split at h
  · exact h
  · simp at h
  · split at h
    · exact mem_of_mem_filter h
    · exact h

/-- A scope that names a node asks for its rows. -/
theorem mem_rowsIn {nodes : List Uuid} (hrow : row ∈ world.series m) (hnode : row.1 ∈ nodes) :
    row ∈ world.rowsIn m (some nodes) := by
  cases nodes with
  | nil => simp at hnode
  | cons n ns =>
    simp only [rowsIn]
    split
    · exact mem_filter.2 ⟨hrow, by simpa using hnode⟩
    · exact hrow

section
variable {world : World} {pair : DerivedPair} {m : InterfaceTopMetric} {key : CheckKey} {v : F64}

/-- A check that has a value has a row. -/
theorem exists_row_of_reading (h : world.reading pair m key = some v) :
    ∃ bps, (key.node, (key.ifindex : Int), bps) ∈ world.series m ∧ F64.le (.finite 0) bps := by
  obtain ⟨bps, hbps, _⟩ := Option.bind_eq_some_iff.1 h
  obtain ⟨hrate, hle⟩ := Option.filter_eq_some_iff.1 hbps
  exact ⟨bps, mem_of_rate hrate, hle⟩

/-- Whichever reading of the port is made from its rows has that value. -/
theorem value_of_reading (h : world.reading pair m key = some v) {rows : List RateRow}
    (hrows : ∀ row ∈ rows, row ∈ world.series m) {speeds : SpeedTable}
    (hspeeds : key.metric = pair.pct → key.node ∈ rows.map Prod.fst →
      speeds (key.node, (key.ifindex : Int))
        = world.interfaces.lookup (key.node, (key.ifindex : Int)))
    (hr : r ∈ (evaluate rows speeds).1) (hnode : r.node = key.node)
    (hidx : r.ifindex = key.ifindex) : r.value pair key.metric = some v := by
  obtain ⟨row, hrow, hreading⟩ := mem_filterMap.1 hr
  obtain ⟨rfl, hpct⟩ := readingOf_eq_some hreading
  rw [hnode, hidx] at hpct hrow
  obtain ⟨bps, hbps, hvalue⟩ := Option.bind_eq_some_iff.1 h
  rw [rate_of_mem (hrows _ hrow)] at hbps
  obtain ⟨hrate, _⟩ := Option.filter_eq_some_iff.1 hbps
  cases hrate
  unfold PortReading.value
  split at hvalue
  next hmetric =>
    rw [if_pos hmetric, hpct, hspeeds hmetric (mem_map.2 ⟨_, hrow, rfl⟩), hvalue]
  next hmetric => rw [if_neg hmetric, hvalue]

/-- The speeds of the nodes that were asked for are those of the inventory. -/
theorem readSpeeds_reads (world : World) (wanted : Bool) (nodes : List Uuid) :
    ∃ speeds, readSpeeds world.reads wanted nodes = some speeds ∧
      (wanted = true → ∀ port : Uuid × Int, port.1 ∈ nodes →
        speeds port = world.interfaces.lookup port) := by
  cases wanted with
  | false => exact ⟨_, rfl, nofun⟩
  | true =>
    refine ⟨_, rfl, fun _ port h => ?_⟩
    simp [mem_toList, h]

/-- A planned query is answered, and the readings of a check whose rules can fire have its
value. -/
theorem candidateReadings_reads {c : AlertConfig} (hplan : (queryPlan c pair world.reads).isSome)
    (hfire : (c.demand key.metric).canFire = true) (h : world.reading pair m key = some v) :
    ∃ readings, candidateReadings c pair m world.reads = some readings ∧
      ∀ r ∈ readings, r.node = key.node → r.ifindex = key.ifindex →
        r.value pair key.metric = some v := by
  obtain ⟨plan, hplan⟩ := Option.isSome_iff_exists.1 hplan
  generalize hrows :
    (world.rowsIn m plan.scope).filter (fun row => F64.le plan.floor row.2.2) = rows
  have hseries : ∀ row ∈ rows, row ∈ world.series m := hrows ▸ fun _ => rowsIn_subset
  obtain ⟨speeds, hread, hspeeds⟩ :=
    world.readSpeeds_reads (c.demand pair.pct).canFire (rows.map Prod.fst)
  refine ⟨(evaluate rows speeds).1, ?_, fun r hr hnode hidx => ?_⟩
  · have hcand : world.reads.interfaceCandidates m plan.floor plan.scope = some rows := by
      rw [← hrows]
      rfl
    simp only [candidateReadings, hplan, hcand, hread, Option.bind_some, Option.map_some]
  · exact value_of_reading h hseries (fun hpct hmem => hspeeds (hpct ▸ hfire) _ hmem) hr hnode hidx

/-- A check that is looked at again has a reading, with its value. -/
theorem evidence_reads (h : world.reading pair m key = some v) {absent : List CheckKey}
    (hkey : key ∈ absent) :
    ∃ r, evidence world.reads pair m absent key.node key.ifindex = some r ∧
      r.value pair key.metric = some v := by
  have hnode : key.node ∈ (ofList (absent.map node)).toList :=
    mem_toList.2 (mem_ofList.2 (mem_map_of_mem hkey))
  unfold evidence
  generalize (ofList (absent.map node)).toList = nodes at hnode
  generalize hrows : (world.rowsIn m (some nodes)).filter
    (fun row => F64.le (.finite 0) row.2.2) = rows
  have hcand : world.reads.interfaceCandidates m (.finite 0) (some nodes) = some rows := by
    rw [← hrows]
    rfl
  have hseries : ∀ row ∈ rows, row ∈ world.series m := hrows ▸ fun _ => rowsIn_subset
  obtain ⟨speeds, hread, hspeeds⟩ :=
    world.readSpeeds_reads (absent.any fun k => decide (k.metric = pair.pct)) nodes
  simp only [hcand, Option.bind_some, hread, Option.getD_some]
  -- The port has a row, so some reading is found, and each of them has the value.
  obtain ⟨bps, hrow, hle⟩ := exists_row_of_reading h
  have hmem : ((key.node, (key.ifindex : Int), bps) : RateRow) ∈ rows := by
    rw [← hrows]
    exact mem_filter.2 ⟨mem_rowsIn hrow hnode, hle⟩
  have hfound : ((evaluate rows speeds).1.reverse.find? fun r =>
      decide (r.node = key.node) && decide (r.ifindex = key.ifindex)).isSome := by
    rw [find?_isSome]
    refine ⟨⟨key.node, key.ifindex, bps, utilisationPct bps
      (speeds (key.node, (key.ifindex : Int))).join⟩, ?_, by simp⟩
    exact mem_reverse.2 (mem_filterMap.2 ⟨_, hmem, by simp [readingOf]⟩)
  obtain ⟨r, hr⟩ := Option.isSome_iff_exists.1 hfound
  have hport := find?_some hr
  simp only [Bool.and_eq_true, decide_eq_true_eq] at hport
  refine ⟨r, hr, value_of_reading h hseries (fun hpct _ => hspeeds ?_ _ hnode)
    (mem_reverse.1 (mem_of_find?_eq_some hr)) hport.1 hport.2⟩
  exact any_eq_true.2 ⟨key, hkey, by simpa using hpct⟩

end

end World

/-! ### One direction of a tick -/

/-- The direction a metric belongs to. -/
def PortMetric.direction : PortMetric → DerivedPair × InterfaceTopMetric
  | .inBps | .inUtilPct => (⟨.inUtilPct, .inBps⟩, .inBps)
  | .outBps | .outUtilPct => (⟨.outUtilPct, .outBps⟩, .outBps)

theorem PortMetric.direction_mem (m : PortMetric) : m.direction ∈ interfaceDimensions := by
  cases m <;> decide

theorem PortMetric.mem_direction (m : PortMetric) :
    m = m.direction.1.pct ∨ m = m.direction.1.bps := by
  cases m <;> decide

theorem proper_of_mem (h : dir ∈ interfaceDimensions) : dir.1.Proper := by
  simp only [interfaceDimensions, mem_cons, not_mem_nil, or_false] at h
  rcases h with rfl | rfl <;> simp [DerivedPair.Proper]

/-- A metric is of one direction only. -/
theorem notMem_of_ne_direction (h : dir ∈ interfaceDimensions) (hne : dir ≠ m.direction) :
    ¬ (m = dir.1.pct ∨ m = dir.1.bps) := by
  simp only [interfaceDimensions, mem_cons, not_mem_nil, or_false] at h
  rcases h with rfl | rfl <;> cases m <;> simp_all [PortMetric.direction]

namespace Watch

/-- The checks that are looked at again: tracked checks of the direction's metrics, where a rule
can fire and none is on the lower side, whose node is up and whose port is not among those
present. -/
theorem mem_absentChecks {w : Watch} {c : AlertConfig} {present : List (NodeId × IfIndex)} :
    key ∈ w.absentChecks c pair present ↔
      (key.metric = pair.pct ∨ key.metric = pair.bps) ∧ (c.demand key.metric).canFire = true ∧
        (c.demand key.metric).hasBelow = false ∧ key ∈ w.tracked ∧
        (key.node, key.ifindex) ∉ present ∧ mayObservePorts (w.engine.live key.node) = true := by
  have hpresent : ∀ key : CheckKey, (present.all fun port =>
      decide (port ≠ (key.node, key.ifindex))) = true ↔ (key.node, key.ifindex) ∉ present := by
    intro key
    simp only [all_eq_true, decide_eq_true_eq]
    exact ⟨fun h hmem => h _ hmem rfl, fun h port hmem heq => h (heq ▸ hmem)⟩
  unfold absentChecks TrackedChecks.absent
  rw [mem_flatMap]
  constructor
  · rintro ⟨m, hm, hkey⟩
    split at hkey
    next hfire =>
      simp only [mem_filter, decide_eq_true_eq, mem_toList, hpresent] at hkey
      obtain ⟨⟨⟨htracked, rfl⟩, habsent⟩, hlive⟩ := hkey
      simp only [Bool.and_eq_true, Bool.not_eq_true'] at hfire
      exact ⟨by simpa using hm, hfire.1, hfire.2, htracked, habsent, hlive⟩
    · simp at hkey
  · rintro ⟨hmetric, hfire, hbelow, htracked, habsent, hlive⟩
    refine ⟨key.metric, by simpa using hmetric, ?_⟩
    rw [if_pos (by simp [hfire, hbelow])]
    simp only [mem_filter, decide_true, mem_toList, hpresent]
    exact ⟨⟨⟨htracked, trivial⟩, habsent⟩, hlive⟩

section

variable {key : CheckKey} {eff : EffectiveThreshold} {now : UnixMs} {n : Nat} {w : Watch}
  (h : w.ClosingUnder key eff now n)

include h

/-- Looking again at a list of checks, with a reading for the check if it is among them. -/
theorem ClosingUnder.recoverAbsent {c : AlertConfig} {m : InterfaceTopMetric} {reads : Reads}
    {present : List (NodeId × IfIndex)} (hok : key ∈ w.absentChecks c pair present → ∃ value,
    recoveryFor key.metric pair
    (evidence reads pair m (w.absentChecks c pair present) key.node key.ifindex)
    = .observe value ∧ eff.evaluate value = .ok) :
    (w.recoverAbsent c pair m reads now present).1.ClosingUnder key eff now n ∧
      (key ∈ w.absentChecks c pair present →
        (w.recoverAbsent c pair m reads now present).1.ClosingUnder key eff now (n + 1)) := by
  have hstep : ∀ (k : Nat) (w' : Watch), ∀ key' ∈ w.absentChecks c pair present,
      w'.ClosingUnder key eff now k →
      (w'.recover pair (evidence reads pair m (w.absentChecks c pair present)) now
        key').1.ClosingUnder key eff now k :=
    fun _ _ key' hkey' hw => (hw.recover fun heq => hok (heq ▸ hkey')).of_fed
  refine ⟨emitAll_invariant _ (hstep n) h, fun hmem => ?_⟩
  exact emitAll_of_mem hmem (hstep n) (hstep (n + 1))
    (fun _ hw => by simpa using hw.recover fun _ : key = key => hok hmem) h

/-- The other direction does not touch the check. -/
theorem ClosingUnder.pass_other (reads : TickReads) (hdir : dir ∈ interfaceDimensions)
    (hne : dir ≠ key.metric.direction) : (w.pass reads now dir).1.ClosingUnder key eff now n := by
  obtain ⟨pair, m⟩ := dir
  have hmetric := notMem_of_ne_direction hdir hne
  unfold pass
  simp only
  cases candidateReadings w.engine.config pair m (reads m).candidates with
  | none => exact h
  | some readings =>
    simp only
    have hfed : (emitAll (Watch.feedReading w.engine.config pair now) w readings).1.ClosingUnder
        key eff now n := by
      refine emitAll_invariant _ (P := ClosingUnder key eff now n)
        (fun w' r _ hw => hw.feedReading fun entry hentry heq => ?_) h
      obtain ⟨k, value⟩ := entry
      obtain rfl : k = key := heq
      exact absurd ((mem_entriesOf (proper_of_mem hdir)).1 hentry).1 hmetric
    exact (hfed.recoverAbsent fun hmem => absurd (mem_absentChecks.1 hmem).1 hmetric).1

end

end Watch

/-- What the reads of a direction find of a port: the query is planned, every read is answered,
and each time the port has a value that the rule calls `ok`. -/
structure QuietPort (key : CheckKey) (eff : EffectiveThreshold) (c : AlertConfig)
    (reads : TickReads) (before after : World) : Prop where
  canFire : (c.demand key.metric).canFire = true
  noBelow : (c.demand key.metric).hasBelow = false
  planned : (queryPlan c key.metric.direction.1 before.reads).isSome
  answered : reads key.metric.direction.2 = ⟨before.reads, after.reads⟩
  candidate : ∃ v, before.reading key.metric.direction.1 key.metric.direction.2 key = some v ∧
    eff.evaluate v = .ok
  again : ∃ v, after.reading key.metric.direction.1 key.metric.direction.2 key = some v ∧
    eff.evaluate v = .ok

namespace Watch

/-- The check's own direction feeds it one sample of `ok`: from the candidate query, or, when its
port is below the floor, because the check is tracked. -/
theorem ClosingUnder.pass_self {eff : EffectiveThreshold} {n : Nat} {w : Watch}
    (h : w.ClosingUnder key eff now n) {reads : TickReads} {before after : World}
    (hq : QuietPort key eff w.engine.config reads before after) :
    (w.pass reads now key.metric.direction).1.ClosingUnder key eff now (n + 1) := by
  have hproper := proper_of_mem key.metric.direction_mem
  have hmetric := key.metric.mem_direction
  obtain ⟨hfire, hbelow, hplanned, hreads, ⟨v, hv, hvok⟩, ⟨v', hv', hvok'⟩⟩ := hq
  generalize key.metric.direction = dir at *
  obtain ⟨pair, m⟩ := dir
  obtain ⟨readings, hreadings, hvalue⟩ := World.candidateReadings_reads hplanned hfire hv
  unfold pass
  simp only [hreads, hreadings]
  generalize w.engine.config = c at *
  have hok : ∀ r ∈ readings, ∀ entry ∈ entriesOf c pair r, entry.1 = key →
      eff.evaluate entry.2 = .ok := by
    rintro r hr ⟨k, value⟩ hentry rfl
    obtain ⟨_, hnode, hidx, _, hval⟩ := (mem_entriesOf hproper).1 hentry
    rw [hvalue r hr hnode hidx] at hval
    cases hval
    exact hvok
  have hstep : ∀ (k : Nat) (w' : Watch), ∀ r ∈ readings, w'.ClosingUnder key eff now k →
      (w'.feedReading c pair now r).1.ClosingUnder key eff now k :=
    fun _ _ r hr hw => hw.feedReading (hok r hr)
  have hagain : ∀ absent : List CheckKey, key ∈ absent → ∃ value,
      recoveryFor key.metric pair (evidence after.reads pair m absent key.node key.ifindex)
        = .observe value ∧ eff.evaluate value = .ok := by
    intro absent hmem
    obtain ⟨r, hr, hval⟩ := World.evidence_reads hv' hmem
    exact ⟨v', by rw [hr, recoveryFor_some hval], hvok'⟩
  by_cases hpresent : (key.node, key.ifindex) ∈ readings.map fun r => (r.node, r.ifindex)
  · -- The port is above the floor.
    obtain ⟨r, hr, heq⟩ := mem_map.1 hpresent
    obtain ⟨hnode, hidx⟩ := Prod.mk.inj heq
    have hentry : (key, v) ∈ entriesOf c pair r :=
      (mem_entriesOf hproper).2 ⟨hmetric, hnode, hidx, hfire, hvalue r hr hnode hidx⟩
    have hfed := emitAll_of_mem hr (hstep n) (hstep (n + 1))
      (fun _ hw => hw.feedReading_self hentry hnode (hok r hr)) h
    exact (hfed.recoverAbsent (hagain _)).1
  · -- The port is below the floor, so the check is looked at again unless its alert is closed.
    have hfed := emitAll_invariant _ (hstep n) h
    rcases hfed.1.tracked with hnone | htracked
    · have hclosed : ClosingUnder key eff now (n + 1)
          (emitAll (Watch.feedReading c pair now) w readings).1 :=
        ⟨⟨hfed.1.consistent, .inl hnone, .inl hnone⟩, hfed.2⟩
      exact (hclosed.recoverAbsent (hagain _)).1
    · refine (hfed.recoverAbsent (hagain _)).2 (mem_absentChecks.2 ?_)
      exact ⟨hmetric, hfire, hbelow, htracked, hpresent, by rw [hfed.2.live]; rfl⟩

/-! ### A tick -/

theorem foldl_forget (l : List CheckKey) (w : Watch) :
    (l.foldl forget w).engine = w.engine ∧
      ∀ key, key ∈ (l.foldl forget w).tracked ↔ key ∈ w.tracked ∧ key ∉ l := by
  induction l generalizing w with
  | nil => simp
  | cons k rest ih =>
    obtain ⟨hengine, htracked⟩ := ih (w.forget k)
    refine ⟨hengine, fun key => ?_⟩
    rw [foldl_cons, htracked key]
    simp only [forget, TrackedChecks.forget, mem_erase, mem_cons, not_or]
    tauto

section
variable {I : AlertManager → Prop} {now : UnixMs}
  (hobs : ∀ (w : Watch) (key : CheckKey) (value : F64), I w.engine →
    I (w.observe now key value).1.engine)

include hobs

section

variable {w : Watch} (h : I w.engine)

include h

theorem feed_engine (entry : CheckKey × F64) : I (w.feed now entry).1.engine := by
  have hfed := hobs w entry.1 entry.2 h
  show I (if w.inForce entry.1 then (w.observe now entry.1 entry.2).1.mark entry.1
    else (w.observe now entry.1 entry.2).1).engine
  split <;> exact hfed

theorem feedReading_engine (c : AlertConfig) (pair : DerivedPair) (r : PortReading) :
    I (w.feedReading c pair now r).1.engine := by
  unfold Watch.feedReading
  split
  · exact emitAll_invariant _ (P := fun w : Watch => I w.engine)
      (fun w entry _ hw => feed_engine hobs hw entry) h
  · exact h

theorem recover_engine (pair : DerivedPair) (reading : NodeId → IfIndex → Option PortReading)
    (key : CheckKey) : I (w.recover pair reading now key).1.engine := by
  unfold Watch.recover
  cases recoveryFor key.metric pair (reading key.node key.ifindex) with
  | observe value =>
    have hfed := hobs w key value h
    simp only
    split <;> exact hfed
  | hold =>
    simp only
    split <;> exact h

/-- What every observation keeps, a pass keeps. -/
theorem pass_engine (reads : TickReads) (dir : DerivedPair × InterfaceTopMetric) :
    I (w.pass reads now dir).1.engine := by
  obtain ⟨pair, m⟩ := dir
  unfold pass
  simp only
  cases candidateReadings w.engine.config pair m (reads m).candidates with
  | none => exact h
  | some readings =>
    refine emitAll_invariant _ (P := fun w : Watch => I w.engine)
      (fun w key _ hw => recover_engine hobs hw pair _ key) ?_
    exact emitAll_invariant _ (P := fun w : Watch => I w.engine)
      (fun w' r _ hw => feedReading_engine hobs hw w.engine.config pair r) h

end

/-- What the sweep and every observation keep, a tick keeps. -/
theorem tick_engine {w : Watch} (reads : TickReads) (order : List CheckId)
    (h : I (w.engine.step (.resolveOrphanedInterface order)).1) :
    I (w.tick reads order now).1.engine := by
  show I (emitAll (pass reads now) (w.sweepOrphans order).1 interfaceDimensions).1.engine
  refine emitAll_invariant _ (P := fun w : Watch => I w.engine)
    (fun w dir _ hw => pass_engine hobs hw reads dir) ?_
  show I ((filterMap closedKey _).foldl forget _).engine
  rw [(foldl_forget _ _).1]
  exact h

end

/-- A pass changes neither the configuration nor what the watch knows about the nodes. -/
theorem pass_watched (w : Watch) (reads : TickReads) (now : UnixMs)
    (dir : DerivedPair × InterfaceTopMetric) :
    (w.pass reads now dir).1.engine.watched = w.engine.watched :=
  pass_engine (I := fun s => s.watched = w.engine.watched)
    (fun w' key value hw => (w'.observe_watched key value now).trans hw) rfl reads dir

end Watch

theorem PortMetric.of_ofName {metric : CheckName} (h : PortMetric.ofName metric = some m) :
    metric = .metric m.metric := by
  obtain ⟨name, hname, hfind⟩ := Option.bind_eq_some_iff.1 h
  have hm : m.name = name := by simpa using find?_some hfind
  unfold derivedInterfaceMetricName at hname
  split at hname
  next n =>
    have hn : name = n := by simpa using find?_some hname
    rw [PortMetric.metric, hm, hn]
  · simp at hname

namespace Watch

open AlertManager

variable {key : CheckKey} {eff : EffectiveThreshold} {w : Watch}
variable {order : List CheckId} {n : Nat} {now : UnixMs}

/-- The checks a sweep stops tracking have no rule in force. -/
theorem not_closedKey (hs : w.engine.Consistent)
    (hrule : w.engine.config.resolve key.node (some key.ifindex) none (.metric key.metric.metric)
      = some eff) :
    key ∉ (w.engine.resolveOrphanedInterfaceAlerts order).2.filterMap closedKey := by
  intro hmem
  obtain ⟨action, haction, hkey⟩ := mem_filterMap.1 hmem
  cases action with
  | fire a | suppress a => simp [closedKey] at hkey
  | resolve a =>
    obtain ⟨c, hc, ha⟩ := mem_resolveOrphans haction
    obtain ⟨b, hb, rfl⟩ := mem_map.1 hc
    obtain ⟨hb, hp⟩ := mem_filter.1 hb
    obtain ⟨d, _, hd⟩ := mem_filterMap.1 hb
    -- The alert was open under its own check, so it is the one that was found to be an orphan.
    rw [(hs.slots d b hd).check, hd] at ha
    cases ha
    simp only [closedKey] at hkey
    split at hkey
    next node ifindex metric hnode hidx hname =>
      cases hkey
      have hmetric := PortMetric.of_ofName hname
      simp only [Bool.and_eq_true, isOrphan, hnode, hidx, hmetric, Option.any_some] at hp
      rw [hrule] at hp
      simp at hp
    · simp at hkey

/-- An operation of the engine whose observations of the check are all `ok`. -/
theorem Closing.engine_step {d : Nat} (h : w.Closing key d n) {op : Op}
    (hok : Along AtomOk atomStep w.engine (op.atoms w.engine))
    (hcalm : EachAtom (fun _ x => x.Calm key.check) w.engine op) :
    Closing key d n { w with engine := (w.engine.step op).1 } := by
  have hrun := (hok.and hcalm).invariant
    (P := fun s => Closing key d n { w with engine := s })
    (fun s x ⟨hx, hcalm⟩ hs =>
      ⟨atom_consistent hs.consistent hx, atom_recovering hs.consistent hx hcalm hs.recovering,
        hs.tracked.imp_left (atom_closed hs.consistent hx hcalm)⟩) h
  rw [step_eq_atoms]
  exact hrun

/-- The atoms of a sweep close alerts. -/
theorem mem_sweep_atoms {s : AlertManager} {x : Atom}
    (hx : x ∈ (Op.resolveOrphanedInterface order).atoms s) : ∃ c, x = .orphan c := by
  obtain ⟨c, _, rfl⟩ := mem_map.1 hx
  exact ⟨c, rfl⟩

theorem sweep_atomOk (s : AlertManager) (order : List CheckId) :
    Along AtomOk atomStep s ((Op.resolveOrphanedInterface order).atoms s) := by
  refine Along.of_forall (fun _ x hx => ?_) s
  obtain ⟨c, rfl⟩ := mem_sweep_atoms hx
  trivial

/-- The sweep at the start of a tick keeps a check on its way while its rule is in force. -/
theorem ClosingUnder.sweepOrphans (h : w.ClosingUnder key eff now n) (order : List CheckId) :
    (w.sweepOrphans order).1.ClosingUnder key eff now n ∧
      (w.sweepOrphans order).1.engine.watched = w.engine.watched := by
  have hcalm :
      EachAtom (fun _ x => x.Calm key.check) w.engine (.resolveOrphanedInterface order) := by
    refine Along.of_forall (fun _ x hx => ?_) _
    obtain ⟨c, rfl⟩ := mem_sweep_atoms hx
    trivial
  have hstep : Closing key eff.dwellSamples n
      { w with engine := (w.engine.step (.resolveOrphanedInterface order)).1 } :=
    h.1.engine_step (sweep_atomOk _ order) hcalm
  have hkept : key ∉ (w.engine.resolveOrphanedInterfaceAlerts order).2.filterMap closedKey :=
    not_closedKey h.1.consistent h.2.rule
  have hwatched : (w.engine.resolveOrphanedInterfaceAlerts order).1.watched = w.engine.watched :=
    resolveOrphans_watched _ _
  unfold Watch.sweepOrphans
  obtain ⟨hengine, htracked⟩ := foldl_forget
    ((w.engine.resolveOrphanedInterfaceAlerts order).2.filterMap closedKey)
    { w with engine := (w.engine.resolveOrphanedInterfaceAlerts order).1 }
  refine ⟨⟨⟨?_, ?_, ?_⟩, ?_⟩, ?_⟩ <;> rw [hengine]
  · exact hstep.consistent
  · exact hstep.recovering
  · exact hstep.tracked.imp_right fun hk => (htracked key).2 ⟨hk, hkept⟩
  · exact h.2.of_watched hwatched
  · exact hwatched

/-- A tick that finds the port quiet brings its check one sample forward. -/
theorem ClosingUnder.tick (h : w.ClosingUnder key eff now n) (order : List CheckId)
    {reads : TickReads} {before after : World}
    (hq : QuietPort key eff w.engine.config reads before after) :
    (w.tick reads order now).1.ClosingUnder key eff now (n + 1) := by
  obtain ⟨hswept, hwatched⟩ := h.sweepOrphans order
  -- The check's own direction moves it forward, and the other one leaves it alone.
  have hpass : ∀ (k : Nat) (w' : Watch), ∀ dir ∈ interfaceDimensions,
      w'.ClosingUnder key eff now k ∧ w'.engine.watched = w.engine.watched →
      (w'.pass reads now dir).1.ClosingUnder key eff now k ∧
        (w'.pass reads now dir).1.engine.watched = w.engine.watched := by
    rintro k w' dir hdir ⟨hw, heq⟩
    refine ⟨?_, (w'.pass_watched reads now dir).trans heq⟩
    by_cases hself : dir = key.metric.direction
    · have hconfig : w'.engine.config = w.engine.config := congrArg Prod.fst heq
      rw [← hconfig] at hq
      rw [hself]
      exact (hw.pass_self hq).mono (Nat.le_succ k)
    · exact hw.pass_other reads hdir hself
  refine (emitAll_of_mem key.metric.direction_mem (hpass n) (hpass (n + 1)) ?_ ⟨hswept, hwatched⟩).1
  rintro w' ⟨hw, heq⟩
  have hconfig : w'.engine.config = w.engine.config := congrArg Prod.fst heq
  rw [← hconfig] at hq
  exact ⟨hw.pass_self hq, (w'.pass_watched reads now _).trans heq⟩

end Watch

/-! ### Runs -/

/-- The operation is fit to run. A sweep may go over the alerts in any order. -/
def WatchOp.Ok (w : Watch) : WatchOp → Prop
  | .engine op => op.Ok w.engine
  | .tick .. => True
  | .restart rows => ∀ row ∈ rows, AlertManager.RowOk row

/-- What may happen while a port is quiet. No restart; every tick finds a rule of dwell `d` in
force and the port quiet; and whatever else observes the check finds it `ok`. -/
def WatchOp.Quiet (key : CheckKey) (d : Nat) (w : Watch) : WatchOp → Prop
  | .engine op => AlertManager.EachAtom (fun _ x => x.Calm key.check) w.engine op
  | .tick reads _ now => ∃ eff before after, eff.dwellSamples = d ∧
      RuleOn key eff now w.engine ∧ QuietPort key eff w.engine.config reads before after
  | .restart _ => False

namespace Watch

open AlertManager

variable {key : CheckKey} {w : Watch} {op : WatchOp}

/-- An operation on a quiet port brings its check forward by a sample if it is a tick. -/
theorem Closing.step {d n : Nat} (h : w.Closing key d n) (hop : op.Ok w)
    (hquiet : op.Quiet key d w) : (w.step op).1.Closing key d (if op.isTick then n + 1 else n) := by
  cases op with
  | engine op => exact h.engine_step (atomOk_atoms hop) hquiet
  | tick reads order now =>
    obtain ⟨eff, before, after, rfl, hrule, hq⟩ := hquiet
    exact (ClosingUnder.tick ⟨h, hrule⟩ order hq).1
  | restart rows => exact absurd hquiet id

/-- A run on a quiet port brings its check forward by a sample a tick. -/
theorem Closing.run {d : Nat} {ops : List WatchOp} {n : Nat} (h : w.Closing key d n)
    (hok : Along (fun w op => op.Ok w) Watch.step w ops)
    (hquiet : Along (fun w op => op.Quiet key d w) Watch.step w ops) :
    (emitAll Watch.step w ops).1.Closing key d (n + ops.countP WatchOp.isTick) := by
  induction ops generalizing w n with
  | nil => exact h
  | cons op rest ih =>
    have hnext := ih (h.step hok.1 hquiet.1) hok.2 hquiet.2
    cases htick : op.isTick with
    | false =>
      simpa [htick] using hnext
    | true =>
      simpa [htick, Nat.add_comm, Nat.add_left_comm] using hnext

/-- What holds of the check of a port in every run: an open alert stands beside a committed
problem. -/
def Reached (key : CheckKey) (s : AlertManager) : Prop :=
  s.Consistent ∧ ∀ d, s.Recovering key.check d 0

theorem Reached.atoms {s : AlertManager} (h : Reached key s) {op : Op}
    (hok : Along AtomOk atomStep s (op.atoms s)) : Reached key (s.step op).1 := by
  rw [step_eq_atoms]
  exact hok.invariant (P := Reached key) (fun s x hx hs =>
    ⟨atom_consistent hs.1 hx, fun d => atom_tracked_port hs.1 hx (hs.2 d)⟩) h

theorem reached_start {rows : List AlertHistoryRow} (hrows : ∀ row ∈ rows, RowOk row)
    (key : CheckKey) : Reached key (start rows).engine := by
  refine ⟨restored_consistent hrows, fun d => ?_⟩
  cases hactive : (restored rows).active key.check with
  | none => exact .inl hactive
  | some a =>
    refine .inr ⟨?_, Nat.zero_le _, fun hpos => absurd hpos (lt_irrefl 0)⟩
    exact restored_tracked hrows key.check (by rw [hactive]; rfl)

theorem Reached.step (h : Reached key w.engine) (hop : op.Ok w) :
    Reached key (w.step op).1.engine := by
  cases op with
  | engine op => exact h.atoms (atomOk_atoms hop)
  | tick reads order now =>
    refine tick_engine (I := Reached key) (fun w key' value hw => ?_) reads order
      (h.atoms (sweep_atomOk _ order))
    rw [observe_engine]
    exact hw.atoms (atomOk_atoms trivial)
  | restart rows => exact reached_start hop key

/-- Take any run of the watch and the engine, restarts included, after which the check of a port
is tracked. Let the node stay up with a rule of dwell `d` in force on the port, the direction's
query be planned, and every reading of the port be `ok`. Then after `max d 1` ticks without a
restart the port has no alert. -/
theorem port_alert_closes {rows : List AlertHistoryRow} (hrows : ∀ row ∈ rows, RowOk row)
    {before : List WatchOp}
    (hbefore : Along (fun w op => op.Ok w) Watch.step (start rows) before) (key : CheckKey)
    (d : Nat)
    (htracked : key ∈ (emitAll Watch.step (start rows) before).1.tracked) {after : List WatchOp}
    (hafter : Along (fun w op => op.Ok w) Watch.step (emitAll Watch.step (start rows) before).1
      after)
    (hquiet : Along (fun w op => op.Quiet key d w) Watch.step
      (emitAll Watch.step (start rows) before).1 after)
    (hticks : max d 1 ≤ after.countP WatchOp.isTick) :
    (emitAll Watch.step (emitAll Watch.step (start rows) before).1 after).1.engine.active key.check
      = none := by
  have hreached : Reached key (emitAll Watch.step (start rows) before).1.engine :=
    hbefore.invariant (P := fun w => Reached key w.engine) (fun _ _ hop hw => hw.step hop)
      (reached_start hrows key)
  have hclosing : (emitAll Watch.step (start rows) before).1.Closing key d 0 :=
    ⟨hreached.1, hreached.2 d, .inr htracked⟩
  have hrun := (hclosing.run hafter hquiet).recovering
  rw [Nat.zero_add] at hrun
  exact (hrun.mono hticks).closed

end Watch

/-! ### One port -/

/-- The received share of port 7 of node 1. -/
def port7 : CheckKey := ⟨1, 7, .inUtilPct⟩

/-- A rule of dwell 2 on that share for every port: critical from 80 percent on. -/
def utilRule : StoredThreshold where
  level := .global
  scopeIds := []
  rule := ⟨.metric port7.metric.metric, .above none (some (.finite 80)), 2⟩
  rowMatch := none

/-- The threshold that rule puts in force. -/
def utilThreshold : EffectiveThreshold := ⟨utilRule.rule.metric, utilRule.rule.bounds, 2⟩

def utilConfig : AlertConfig := AlertConfig.new [utilRule] [plainNode 1]

/-- The rates of a fleet with one port. -/
def port7Series (bps : ℚ) : InterfaceTopMetric → List RateRow
  | .inBps => [(1, 7, .finite bps)]
  | .outBps => []

theorem port7Series_nodup (bps : ℚ) (m : InterfaceTopMetric) :
    ((port7Series bps m).map fun row => (row.1, row.2.1)).Nodup := by
  cases m <;> simp [port7Series]

/-- The port has a speed of 1000 bits a second and receives at some rate. -/
def port7World (bps : ℚ) : World where
  series := port7Series bps
  onePerPort := port7Series_nodup bps
  interfaces := [((1, 7), some 1000)]
  nameable := fun _ => true

/-- A tick at which the port receives at some rate. -/
def port7Tick (bps : ℚ) (now : UnixMs) : WatchOp :=
  .tick (fun _ => ⟨(port7World bps).reads, (port7World bps).reads⟩) [port7.check] now

/-- The configuration is loaded and node 1 answers a poll. -/
def port7Up (t : UnixMs) : List WatchOp :=
  [.engine (.setConfig utilConfig rfl), .engine (.observe (poll 1 .reachable t) [] [port7.check])]

/-- The port is busy for two ticks, and its alert is opened. -/
def port7Busy : List WatchOp := port7Up 0 ++ [port7Tick 900 60000, port7Tick 900 120000]

/-- What a tick needs to find at a quiet moment. -/
def Port7Quiet (now : UnixMs) (w : Watch) : Prop :=
  w.engine.live 1 = some .ok ∧
    w.engine.config.resolve 1 (some 7) none (.metric port7.metric.metric) = some utilThreshold ∧
    w.engine.config.inMaintenance 1 = false ∧ w.engine.config.isPaused 1 now = false ∧
    w.engine.intervals 1 = none ∧ (w.engine.config.demand .inUtilPct).canFire = true ∧
    (w.engine.config.demand .inUtilPct).hasBelow = false ∧
    (queryPlan w.engine.config ⟨.inUtilPct, .inBps⟩ (port7World 100).reads).isSome

instance (now : UnixMs) (w : Watch) : Decidable (Port7Quiet now w) := by
  unfold Port7Quiet
  infer_instance

theorem quiet_port7Tick {w : Watch} (h : Port7Quiet now w) :
    (port7Tick 100 now).Quiet port7 2 w := by
  obtain ⟨hlive, hrule, hmaintenance, hpaused, hinterval, hfire, hbelow, hplan⟩ := h
  have hreading : (port7World 100).reading port7.metric.direction.1 port7.metric.direction.2 port7
      = some (.finite 10) := by decide +kernel
  refine ⟨utilThreshold, port7World 100, port7World 100, rfl,
    ⟨hlive, hrule, hmaintenance, hpaused, fun secs hsecs => ?_⟩,
    ⟨hfire, hbelow, hplan, rfl, ?_, ?_⟩⟩
  · rw [show w.engine.intervals port7.node = none from hinterval] at hsecs
    simp at hsecs
  · exact ⟨_, hreading, by decide +kernel⟩
  · exact ⟨_, hreading, by decide +kernel⟩

/-- The port is quiet for two ticks, with something else in between. -/
def port7Settles : List WatchOp :=
  [port7Tick 100 180000, .engine (.publishIntervals fun _ => none), port7Tick 100 240000]

/-- The stored row of the port's alert. -/
def port7Row : AlertHistoryRow where
  subject := .node 1
  check := port7.check
  severity := .critical
  state := .critical
  atUnixMs := 120000
  metric := some (.metric port7.metric.metric)
  observedValue := some (.finite 90)
  thresholdValue := some (.finite 80)
  direction := some .above
  ifindex := some 7
  row := none
  rowName := none

/-- The process is restarted while the alert is open, and starts over. -/
def port7Restarted : List WatchOp := port7Busy ++ .restart [port7Row] :: port7Up 150000

/-- The port is quiet at every tick. -/
def port7Stays : List WatchOp :=
  [port7Tick 100 180000, port7Tick 100 240000, port7Tick 100 300000]

namespace Watch

open AlertManager

theorem port7Row_ok : ∀ row ∈ [port7Row], RowOk row := by
  intro row hrow
  rw [mem_singleton.1 hrow]
  refine ⟨rfl, ?_, ?_, rfl⟩ <;>
    simp [AlertHistoryRow.metricName, port7Row, check, interfaceCheckId]

/-- A start with no alert but that of the port is fit to run. -/
theorem ok_port7Up {rows : List AlertHistoryRow} (hrows : ∀ row ∈ rows, row.check = port7.check)
    (t : UnixMs) : Along (fun w op => op.Ok w) Watch.step (start rows) (port7Up t) := by
  refine ⟨trivial, ⟨by decide, fun c hc => ?_⟩, trivial⟩
  obtain ⟨a, ha⟩ := Option.isSome_iff_exists.1 hc
  have hrestored : (restored rows).active c = some a := ha
  obtain ⟨row, hrow, rfl, _⟩ := restored_active hrestored
  simp [hrows row hrow]

theorem ok_port7Busy : Along (fun w op => op.Ok w) Watch.step (start []) port7Busy :=
  along_append.2 ⟨ok_port7Up (by simp) 0, trivial, trivial, trivial⟩

/-- The port's alert was opened by this process, so its check is tracked and the alert closed. -/
theorem port7_alert_closes :
    (emitAll Watch.step (emitAll Watch.step (start []) port7Busy).1 port7Settles).1.engine.active
      port7.check = none :=
  port_alert_closes noRows_ok ok_port7Busy port7 2 (by decide +kernel)
    ⟨trivial, trivial, trivial, trivial⟩
    ⟨quiet_port7Tick (by decide +kernel), ⟨trivial, trivial⟩, quiet_port7Tick (by decide +kernel),
      trivial⟩ (by decide)

/-- The alert of the port is open when the process is restarted, and is restored. The port is
below the floor and not tracked, so no tick reads it, and the alert stays. -/
theorem restart_strands_port_alert :
    let w := (emitAll Watch.step (start []) port7Restarted).1
    (∀ row ∈ [port7Row], RowOk row) ∧
    Along (fun w op => op.Ok w) Watch.step (start []) (port7Restarted ++ port7Stays) ∧
    (emitAll Watch.step (start []) port7Busy).1.engine.active port7.check
      = some (alertFromRow port7Row) ∧
    (w.engine.active port7.check).isSome = true ∧
    Along (fun w op => op.Quiet port7 2 w) Watch.step w port7Stays ∧
    max 2 1 ≤ port7Stays.countP WatchOp.isTick ∧
    ((emitAll Watch.step w port7Stays).1.engine.active port7.check).isSome = true := by
  refine ⟨port7Row_ok, ?_, by decide +kernel, by decide +kernel, ?_, by decide, by decide +kernel⟩
  · refine along_append.2 ⟨along_append.2 ⟨ok_port7Busy, port7Row_ok, ?_⟩, ?_⟩
    · exact ok_port7Up (by simp [port7Row]) 150000
    · exact ⟨trivial, trivial, trivial, trivial⟩
  · exact ⟨quiet_port7Tick (by decide +kernel), quiet_port7Tick (by decide +kernel),
      quiet_port7Tick (by decide +kernel), trivial⟩

end Watch

end Yagra
