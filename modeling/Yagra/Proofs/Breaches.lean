import Yagra.Lib.SameMembers
import Yagra.Proofs.Runs

/-!
# `Yagra.Proofs.Breaches`: what a fired alert says about its value is true

A threshold alert carries a breach: a value, a bound, and the side the bound is on. Three
paths fill it in. A polled sample is reported on the side it crossed (`sampleEval`). The
per-port and the derived evaluators report the rule's primary side whatever was crossed
(`primaryEval`), so for a rule that bounds both sides of a band they can name a bound the
value never reached.

`misstates` is the test for that: the value is judged a breach, and the primary side has a
bound of that severity which the value does not reach. `breaches_true` says that this is the
only way a false breach gets out. In a run in which no evaluator meets such a value, every
alert an observation fires carries a true one. And a port seen for the first time, under a
rule that commits at once, does fire a false one when it meets such a value.

The proof follows the breach of one alert. `SlotFrom` lists where the alert of a check can
come from in one step, with what that says about its breach. `TrueSince` is the invariant
that goes through the steps of one operation.
-/

set_option autoImplicit false

namespace Yagra

open Yagra.Lib NotifyAction List Option

/-! ### Bounds that are reached -/

/-- Whether a value is at or beyond a bound on a side. -/
def Direction.reaches : Direction → F64 → F64 → Bool
  | .above, value, bound => F64.le bound value
  | .below, value, bound => F64.le value bound

/-- The bound of a severity on a side. -/
def ThresholdBounds.boundFor (b : ThresholdBounds) (severity : Severity) (side : Direction) :
    Option F64 :=
  match severity with
  | .critical => b.criticalOn side
  | .warning => b.warningOn side
  | .info => b.warningOn side <|> b.criticalOn side

/-- A value in breach has reached the bound of its severity on the side it crossed. -/
theorem ThresholdBounds.classify_reaches {b : ThresholdBounds} {value : F64} {state : NodeState}
    {side : Direction} (h : b.classify value = some (state, side)) :
    ∃ severity t, state.severity = some severity ∧ b.boundFor severity side = some t ∧
      side.reaches value t = true := by
  have hany : ∀ {o : Option F64} {p : F64 → Bool}, o.any p = true → ∃ t, o = some t ∧ p t = true :=
    fun ho => (any_eq_true _ _).1 ho
  unfold classify at h
  split_ifs at h with h1 h2 h3 h4 <;> simp only [some.injEq, Prod.mk.injEq] at h <;>
    obtain ⟨rfl, rfl⟩ := h
  · obtain ⟨t, ht, hle⟩ := hany h1
    exact ⟨.critical, t, rfl, ht, hle⟩
  · obtain ⟨t, ht, hle⟩ := hany h2
    exact ⟨.critical, t, rfl, ht, hle⟩
  · obtain ⟨t, ht, hle⟩ := hany h3
    exact ⟨.warning, t, rfl, ht, hle⟩
  · obtain ⟨t, ht, hle⟩ := hany h4
    exact ⟨.warning, t, rfl, ht, hle⟩

/-- The value is judged a breach, but the bound of that severity on the primary side is one it
does not reach. -/
def EffectiveThreshold.misstates (eff : EffectiveThreshold) (value : F64) : Bool :=
  (eff.evaluate value).severity.any fun severity =>
    (eff.bounds.boundFor severity eff.direction).any fun t => !eff.direction.reaches value t

/-! ### What a sample is reported with -/

/-- A report that names the bounds of a threshold on one side, and whose value reached the one
of its severity. -/
structure EvalTrue (eff : EffectiveThreshold) (raw : NodeState) (ev : ThresholdEval) : Prop where
  bounds : ∀ severity, (breachFor severity ev).threshold = eff.bounds.boundFor severity ev.direction
  reached : ∀ severity t, raw.severity = some severity →
    (breachFor severity ev).threshold = some t → ev.direction.reaches ev.value t = true

/-- A polled sample is reported on the side it crossed. -/
theorem sampleEval_true (moment : Moment) (sample : Sample) (eff : EffectiveThreshold)
    (reading : Reading) :
    EvalTrue eff (rawState moment sample eff reading) (sampleEval sample eff) where
  bounds := by
    intro severity
    cases severity <;> rfl
  reached := by
    intro severity t hsev hbound
    -- Only a value that was judged has a severity.
    have hraw : rawState moment sample eff reading = eff.evaluate sample.value := by
      unfold rawState at hsev ⊢
      split_ifs at hsev ⊢ <;> first | rfl | simp [NodeState.severity] at hsev
    rw [hraw, EffectiveThreshold.evaluate, ThresholdBounds.evaluate] at hsev
    cases hclass : eff.bounds.classify sample.value with
    | none => simp [hclass, NodeState.severity] at hsev
    | some p =>
      obtain ⟨state, side⟩ := p
      have hstate : state.severity = some severity := by simpa [hclass] using hsev
      have hside : (sampleEval sample eff).direction = side := by
        simp [sampleEval, ThresholdBounds.breachingSide, hclass]
      obtain ⟨severity', t', hsev', ht', hreach⟩ := ThresholdBounds.classify_reaches hclass
      obtain rfl : severity' = severity := some.inj (hsev'.symm.trans hstate)
      have hthreshold : (breachFor severity' (sampleEval sample eff)).threshold = some t' := by
        rw [show (breachFor severity' (sampleEval sample eff)).threshold
            = eff.bounds.boundFor severity' (sampleEval sample eff).direction by
          cases severity' <;> rfl, hside]
        exact ht'
      obtain rfl : t' = t := some.inj (hthreshold.symm.trans hbound)
      rw [hside]
      exact hreach

/-- An evaluator's value is reported on the primary side, which is right unless the value
misstates it. -/
theorem primaryEval_true {eff : EffectiveThreshold} {value : F64}
    (h : eff.misstates value = false) (maintenance : Bool) :
    EvalTrue eff (if maintenance then .maintenance else eff.evaluate value)
      (primaryEval value eff) where
  bounds := by
    intro severity
    cases severity <;> rfl
  reached := by
    intro severity t hsev hbound
    have hjudged : (eff.evaluate value).severity = some severity := by
      cases maintenance with
      | true => simp [NodeState.severity] at hsev
      | false => simpa using hsev
    have hbound' : eff.bounds.boundFor severity eff.direction = some t := by
      rw [← hbound]
      cases severity <;> rfl
    show eff.direction.reaches value t = true
    simpa [EffectiveThreshold.misstates, hjudged, hbound'] using h

namespace AlertManager

/-! ### Where an alert comes from -/

/-- Two versions of an alert with one breach, judged in one state. -/
structure SameBreach (a a' : Alert) : Prop where
  breach : a'.breach = a.breach
  severity : a'.severity = a.severity
  state : a'.state = a.state

theorem SameBreach.refl (a : Alert) : SameBreach a a := ⟨rfl, rfl, rfl⟩

/-- Where the alert a step leaves in a slot comes from: it was there, with the same breach; or
another component raised it; or the step committed its state and filled in the sample's breach;
or the step put the breach of a sample in the alert's own state in place of the old one. -/
inductive SlotFrom (s : AlertManager) : Atom → CheckId → Alert → Prop
  | kept {x : Atom} {c : CheckId} {a a' : Alert} (ha : s.active c = some a)
      (hsame : SameBreach a a') : SlotFrom s x c a'
  | raised {raised : Raised} {a' : Alert} (hsame : SameBreach raised.alert a') :
      SlotFrom s (.raise raised.alert) raised.alert.check a'
  | opened {order : List CheckId} {node : NodeId} {raw : NodeState} {t : UnixMs}
      {spec : CheckSpec} {a' : Alert} (hsev : raw.severity = some a'.severity)
      (hstate : a'.state = raw) (hbreach : a'.breach = spec.eval.map (breachFor a'.severity)) :
      SlotFrom s (.check order node raw t spec) spec.check a'
  | refreshed {order : List CheckId} {node : NodeId} {raw : NodeState} {t : UnixMs}
      {spec : CheckSpec} {ev : ThresholdEval} {a a' : Alert} (hev : spec.eval = some ev)
      (ha : s.active spec.check = some a) (hb : a.breach.isSome) (hraw : a.state = raw)
      (hbreach : a'.breach = some (breachFor a.severity ev)) (hsev : a'.severity = a.severity)
      (hstate : a'.state = a.state) : SlotFrom s (.check order node raw t spec) spec.check a'

variable {a' : Alert} {s : AlertManager} {x : Atom} {c : CheckId}

section

variable (hs : s.Consistent)

include hs

theorem Consistent.trackSample (node : NodeId) (raw : NodeState) (t : UnixMs) (spec : CheckSpec) :
    (s.trackSample node raw t spec).1.WellFormed := by
  intro d a ha
  rw [trackSample_frame] at ha
  exact hs.slots d a ha

variable {spec : CheckSpec} {order : List CheckId} {node : NodeId} {raw : NodeState} {t : UnixMs}

/-- What an observation leaves of its check's alert: the alert that was there, that alert fired
again, or one that a transition opened. -/
theorem checkCore_active_cases (h : (s.checkCore node raw t spec).1.active spec.check = some a') :
    s.active spec.check = some a' ∨
    (∃ a, s.active spec.check = some a ∧ Refreshed raw spec.eval a a' ∧
      (s.checkCore node raw t spec).2 = [.fire a'] ∧
      (a'.atUnixMs = a.atUnixMs ∨
        a'.atUnixMs = t ∧ a.breach.isSome ∧ a.state = raw ∧ spec.eval.isSome)) ∨
    (raw.severity = some a'.severity ∧ a'.state = raw ∧
      a'.breach = spec.eval.map (breachFor a'.severity) ∧ a'.atUnixMs = t ∧
      (a'.notifyHeldUntil.isSome ∨ .fire a' ∈ (s.checkCore node raw t spec).2)) := by
  have hactive : (s.trackSample node raw t spec).1.active = s.active := by
    rw [trackSample_frame]
  unfold checkCore at h ⊢
  simp only at h ⊢
  split at h
  · -- Without a rule the slot is closed or left alone.
    unfold withoutRule at h
    split at h
    · rw [closeActive_active] at h
      simp at h
    · exact .inl (hactive ▸ h)
  next hrule =>
    rw [if_neg hrule]
    cases htr : s.transitionOf raw t spec with
    | none =>
      simp only [htr] at h ⊢
      rcases withoutTransition_cases _ raw t spec (hs.trackSample node raw t spec) with
        ⟨side, release, he, -⟩ | ⟨a, b, side, release, ha, href, -, he, -, hdate⟩ <;>
        rw [he, withEntries_active] at h
      · exact .inl (hactive ▸ h)
      · cases h
        exact .inr (.inl ⟨a, hactive ▸ ha, href, by rw [he], hdate⟩)
    | some tr =>
      simp only [htr] at h ⊢
      obtain ⟨hstate, -⟩ := transitionOf_some htr
      rcases onTransition_cases (s.trackSample node raw t spec).1 node raw t spec tr with
        ⟨-, he⟩ | ⟨severity, hsev, he⟩ | ⟨severity, u, hsev, -, -, he⟩ <;> rw [he] at h ⊢
      · rw [closeActive_active] at h
        simp at h
      · rw [withEntries_active] at h
        cases h
        exact .inr (.inr ⟨hstate ▸ hsev, hstate, rfl, rfl, .inr (mem_singleton_self _)⟩)
      · simp only [withEntries, Function.update_self, some.injEq] at h
        subst h
        exact .inr (.inr ⟨hstate ▸ hsev, hstate, rfl, rfl, .inl rfl⟩)

/-- Where an observation's own check gets its alert from. -/
theorem checkCore_slotFrom (h : (s.checkCore node raw t spec).1.active spec.check = some a') :
    SlotFrom s (.check order node raw t spec) spec.check a' := by
  rcases checkCore_active_cases hs h with ha | ⟨a, ha, href, -, -⟩ | ⟨hsev, hstate, hbreach, -, -⟩
  · exact .kept ha (.refl a')
  · rcases href.breach with hsame | ⟨ev, hev, hb, hraw, hbreach⟩
    · exact .kept ha ⟨hsame, href.same.severity, href.same.state⟩
    · exact .refreshed hev ha hb hraw hbreach href.same.severity href.same.state
  · exact .opened hsev hstate hbreach

/-- The re-attribution after an observation does not look at its own check. -/
theorem processCheck_own (hspec : SpecOk node raw spec)
    (horder : spec.isLiveness = true → Enumerates order s.active) :
    (s.processCheck order node raw t spec).1.active spec.check
      = (s.checkCore node raw t spec).1.active spec.check := by
  rw [processCheck_eq]
  unfold resweepIf
  split
  next hsweep =>
    have hl := resweeps_isLiveness hsweep
    have hcore := (checkCore_any (t := t) hs hspec).consistent
    obtain ⟨hslot, -⟩ := resweep_at (t := t) hs hspec hl (horder hl) spec.check
    rw [(hspec.of_isLiveness hl).1, reattributedAt_own hcore] at hslot
    rw [(hspec.of_isLiveness hl).1]
    exact active_of_slot hslot
  · rfl

/-- What a step leaves in a slot: the alert that was there, with another root cause or hold, what an
observation of the check makes of it, or an alert that is raised. -/
theorem atom_active_cases (hx : AtomOk s x) (h : (atomStep s x).1.active c = some a') :
    (∃ a rc u, s.active c = some a ∧ a' = { a with rootCause := rc, notifyHeldUntil := u }) ∨
    (∃ order node raw t spec, x = .check order node raw t spec ∧ c = spec.check ∧
      (s.checkCore node raw t spec).1.active c = some a' ∧
      (s.checkCore node raw t spec).2 ⊆ (atomStep s x).2) ∨
    (x = .raise a' ∧ c = a'.check ∧ .fire a' ∈ (atomStep s x).2) := by
  have hkept : s.active c = some a' →
      ∃ a rc u, s.active c = some a ∧ a' = { a with rootCause := rc, notifyHeldUntil := u } :=
    fun h => ⟨a', _, _, h, rfl⟩
  have hclosed : ∀ {s' : AlertManager} {d : CheckId}, s'.active = Function.update s.active d none →
      s'.active c = some a' → s.active c = some a' := fun hactive h => by
    rw [hactive, Function.update_apply] at h
    split at h
    · cases h
    · exact h
  cases x with
  | check order node raw t spec =>
    by_cases hc : c = spec.check
    · refine .inr (.inl ⟨order, node, raw, t, spec, rfl, hc, ?_, ?_⟩)
      · rw [hc, ← processCheck_own (t := t) hs hx.1 hx.2, ← hc]
        exact h
      · rw [atomStep, processCheck_eq, resweepIf]
        split
        · exact subset_append_left _ _
        · exact List.Subset.refl _
    · left
      have hcore := active_of_entries (s.checkCore_entries node raw t spec hc)
      rw [atomStep, processCheck_eq, resweepIf] at h
      split at h
      next hsweep =>
        have hl := resweeps_isLiveness hsweep
        obtain ⟨hslot, -⟩ := resweep_at hs hx.1 hl (hx.2 hl) c
        obtain ⟨a, rc, u, ha, rfl⟩ := reattributedAt_alert ((active_of_slot hslot).symm.trans h)
        exact ⟨a, rc, u, hcore ▸ ha, rfl⟩
      · exact hkept (hcore ▸ h)
  | retire node metric =>
    rw [atomStep, retire_eq] at h
    split at h
    · exact .inl (hkept (hclosed ((s.forgetLegacy _).resolveOrphan_active _) h))
    · exact .inl (hkept h)
  | orphan d => exact .inl (hkept (hclosed (s.resolveOrphan_active d) h))
  | close d => exact .inl (hkept (hclosed (s.closeActive_active d) h))
  | raise a =>
    simp only [atomStep, raiseEventAlert] at h ⊢
    split at h
    · exact .inl (hkept h)
    next hother =>
      simp only [setActive, Function.update_apply] at h
      split at h
      next hc =>
        cases h
        rw [if_neg hother]
        exact .inr (.inr ⟨rfl, hc, mem_singleton_self _⟩)
      · exact .inl (hkept h)
  | regroup order =>
    obtain ⟨hslot, -⟩ := reattribute_at hs.slots.keyed hx.nodup none
      (fun d a ha _ => hx.covers d (by simp [ha])) c
    obtain ⟨a, rc, u, ha, rfl⟩ := reattributedAt_alert ((active_of_slot hslot).symm.trans h)
    exact .inl ⟨a, rc, u, ha, rfl⟩
  | releaseHeld now order =>
    obtain ⟨hslot, -⟩ := releaseHeld_at hs.slots.keyed hx now c
    obtain ⟨a, u, ha, rfl⟩ := releasedAt_alert ((active_of_slot hslot).symm.trans h)
    exact .inl ⟨a, _, u, ha, rfl⟩
  | forgetLegacy _ | markRows _ | dropNodes | setConfig _ | publishIntervals _
  | recordRowName _ _ _ _ => exact .inl (hkept h)

/-- Where the alert a step leaves in a slot comes from. -/
theorem atom_slotFrom (hx : AtomOk s x) (h : (atomStep s x).1.active c = some a') :
    SlotFrom s x c a' := by
  rcases atom_active_cases hs hx h with
    ⟨a, rc, u, ha, rfl⟩ | ⟨order, node, raw, t, spec, rfl, rfl, hcore, -⟩ | ⟨rfl, rfl, -⟩
  · exact .kept ha ⟨rfl, rfl, rfl⟩
  · exact checkCore_slotFrom hs hcore
  · obtain ⟨raised, rfl⟩ := hx
    exact .raised (.refl _)

/-- What a step fires is in its slot afterwards. -/
theorem atom_fire_active (hx : AtomOk s x) {a : Alert}
    (h : fire a ∈ (atomStep s x).2) : (atomStep s x).1.active a.check = some a := by
  have hmove := (atom_effect (P := fun _ _ => True) hs hx fun _ _ _ => trivial).1 a.check
  have hmem : fire a ∈ (atomStep s x).2.filter fun y => y.check = a.check :=
    mem_filter.2 ⟨h, by simp⟩
  generalize (atomStep s x).2.filter (fun y => y.check = a.check) = acts at hmove hmem
  generalize (atomStep s x).1.active a.check = after at hmove ⊢
  generalize s.active a.check = before at hmove
  cases hmove with
  | stay | holding | dropped | retagged => simp at hmem
  | closed | suppressed => simp at hmem
  | opened hp hok hh | refired hs hh hr =>
    simp only [mem_singleton, fire.injEq] at hmem
    rw [hmem]

end

/-! ### What is told -/

variable (s)

/-- A threshold in force on a check: the configuration resolves it for the check's node and
metric, under some port and row name. -/
def InForce (c : CheckId) (eff : EffectiveThreshold) : Prop :=
  ∃ node port row, c.subject = .node node ∧ s.config.resolve node port row c.name = some eff

/-- What an alert says about its value is so. The value reached the bound on the side named,
and the bound is the one of the alert's severity on that side in a threshold in force, unless
the alert carried this very breach before. -/
def SaysTrue (c : CheckId) (a : Alert) : Prop :=
  ∀ b t, a.breach = some b → b.threshold = some t →
    b.direction.reaches b.value t = true ∧
      ((∃ eff, s.InForce c eff ∧ eff.bounds.boundFor a.severity b.direction = some t) ∨
        ∃ a₀, s.active c = some a₀ ∧ a₀.breach = some b)

/-- What every alert about a node keeps while the steps of an operation that began in `s₀`
run: a breach is that of the alert's own state, and it is told truly. -/
def TrueSince (s₀ s : AlertManager) : Prop :=
  ∀ c a, s.active c = some a → c.subject.asNode.isSome →
    (a.breach.isSome → a.state.severity = some a.severity) ∧ s₀.SaysTrue c a

/-- What every alert about a node keeps from one operation to the next. -/
def AlertsTrue : Prop :=
  ∀ c a, s.active c = some a → c.subject.asNode.isSome →
    (a.breach.isSome → a.state.severity = some a.severity) ∧
      ∀ b t, a.breach = some b → b.threshold = some t → b.direction.reaches b.value t = true

variable {s}

theorem AlertsTrue.trueSince (h : s.AlertsTrue) : TrueSince s s := by
  intro c a ha hn
  obtain ⟨hsev, htold⟩ := h c a ha hn
  exact ⟨hsev, fun b t hb ht => ⟨htold b t hb ht, .inr ⟨a, ha, hb⟩⟩⟩

theorem TrueSince.alertsTrue {s₀ : AlertManager} (h : TrueSince s₀ s) : s.AlertsTrue := by
  intro c a ha hn
  obtain ⟨hsev, htold⟩ := h c a ha hn
  exact ⟨hsev, fun b t hb ht => (htold b t hb ht).1⟩

end AlertManager

/-- The report of an observation is true of a threshold in force in `s`. -/
def Atom.Honest (s : AlertManager) : Atom → Prop
  | .check _ _ raw _ spec => ∀ ev, spec.eval = some ev →
      ∃ eff, s.InForce spec.check eff ∧ EvalTrue eff raw ev
  | _ => True

namespace AlertManager

/-- A raised alert about a node names no bound. -/
theorem raised_says {raised : Raised} (hn : raised.alert.check.subject.asNode.isSome) :
    (raised.alert.breach.isSome → raised.alert.state.severity = some raised.alert.severity) ∧
      ∀ b, raised.alert.breach = some b → b.threshold = none := by
  cases raised <;>
    simp_all [Raised.alert, Raised.subjectAlert, subjectCheckId, Subject.asNode, NodeState.severity]

variable {s s₀ : AlertManager} {eff : EffectiveThreshold}
variable {order : List CheckId} {moment : Moment} {node : NodeId} {raw : NodeState}

/-- A report that is true of a threshold in force makes a true breach. -/
theorem saysTrue_of_evalTrue {c : CheckId} {a : Alert} {ev : ThresholdEval} (hin : s₀.InForce c eff)
    (hev : EvalTrue eff raw ev) (hsev : raw.severity = some a.severity)
    (hbreach : a.breach = some (breachFor a.severity ev)) : s₀.SaysTrue c a := by
  intro b t hb ht
  obtain rfl : breachFor a.severity ev = b := some.inj (hbreach.symm.trans hb)
  exact ⟨hev.reached _ t hsev ht, .inl ⟨eff, hin, (hev.bounds a.severity).symm.trans ht⟩⟩

/-- One honest step keeps what is told true. -/
theorem trueSince_atom {x : Atom} (hs : s.Consistent) (hx : AtomOk s x) (hh : x.Honest s₀)
    (hi : TrueSince s₀ s) : TrueSince s₀ (atomStep s x).1 := by
  intro c a' ha' hn
  cases atom_slotFrom hs hx ha' with
  | @kept _ _ a _ ha hsame =>
    obtain ⟨hsev, htold⟩ := hi c a ha hn
    refine ⟨?_, ?_⟩
    · rw [hsame.breach, hsame.state, hsame.severity]
      exact hsev
    · intro b t hb ht
      rw [hsame.severity]
      exact htold b t (hsame.breach ▸ hb) ht
  | raised hsame =>
    obtain ⟨hsev, hnone⟩ := raised_says hn
    refine ⟨?_, ?_⟩
    · rw [hsame.breach, hsame.state, hsame.severity]
      exact hsev
    · intro b t hb ht
      rw [hnone b (hsame.breach ▸ hb)] at ht
      cases ht
  | @opened order node raw t spec _ hsev hstate hbreach =>
    refine ⟨fun _ => by rw [hstate]; exact hsev, ?_⟩
    cases hev : spec.eval with
    | none =>
      intro b t hb
      simp [hbreach, hev] at hb
    | some ev =>
      obtain ⟨eff, hin, htrue⟩ := hh ev hev
      exact saysTrue_of_evalTrue hin htrue hsev (by rw [hbreach, hev]; rfl)
  | @refreshed order node raw t spec ev a _ hev ha hb hraw hbreach hsev hstate =>
    -- The alert's own state has its severity, and the sample is in that state.
    have hown := (hi _ a ha hn).1 hb
    obtain ⟨eff, hin, htrue⟩ := hh ev hev
    refine ⟨fun _ => by rw [hstate, hsev]; exact hown, ?_⟩
    refine saysTrue_of_evalTrue hin htrue ?_ (by rw [hsev]; exact hbreach)
    rw [← hraw, hsev]
    exact hown

/-- Honest steps fire true breaches only. -/
theorem atoms_say_true (hs : s.Consistent) {l : List Atom} (hok : Along AtomOk atomStep s l)
    (hh : ∀ x ∈ l, x.Honest s₀) (hi : TrueSince s₀ s) :
    TrueSince s₀ (emitAll atomStep s l).1 ∧
      ∀ a, fire a ∈ (emitAll atomStep s l).2 → a.node.isSome → s₀.SaysTrue a.check a := by
  induction l generalizing s with
  | nil => exact ⟨hi, fun a ha => absurd ha not_mem_nil⟩
  | cons x rest ih =>
    have hcons := atom_consistent hs hok.1
    have hnext := trueSince_atom hs hok.1 (hh x mem_cons_self) hi
    obtain ⟨hend, hfires⟩ := ih hcons hok.2 (fun y hy => hh y (mem_cons_of_mem x hy)) hnext
    refine ⟨hend, fun a ha hn => ?_⟩
    rcases mem_append.1 ha with ha | ha
    · have hactive := atom_fire_active hs hok.1 ha
      refine (hnext a.check a hactive ?_).2
      rw [← (hcons.slots _ a hactive).subject]
      exact hn
    · exact hfires a ha hn

/-! ### The observations -/

/-- A judged sample is reported honestly when its threshold is in force on its check. -/
theorem honest_sampleAtoms {sample : Sample} {on : CheckOn} {reading : Reading}
    (hin : ∃ port row, s.config.resolve node port row sample.name = some eff) :
    ∀ x ∈ sampleAtoms order node moment sample eff on reading, x.Honest s := by
  obtain ⟨port, row, hres⟩ := hin
  intro x hx
  rcases mem_append.1 hx with hx | hx
  · cases on <;> simp at hx
    subst hx
    trivial
  · rw [mem_singleton.1 hx]
    intro ev hev
    have hname : ∀ on, (sampleSpec node moment sample eff on reading).check.subject = .node node ∧
        (sampleSpec node moment sample eff on reading).check.name = sample.name := by
      intro on
      cases on <;> exact ⟨rfl, rfl⟩
    have heval : ∀ on, (sampleSpec node moment sample eff on reading).eval
        = if reading = .value then some (sampleEval sample eff) else none := by
      intro on
      cases on <;> rfl
    rw [heval] at hev
    split at hev
    · cases hev
      refine ⟨eff, ⟨node, port, row, (hname on).1, ?_⟩, sampleEval_true moment sample eff reading⟩
      rw [(hname on).2]
      exact hres
    · cases hev

theorem honest_rowsAtoms {skip : SkipTest} {rowStates : NodeId × CheckName × Nat → Bool}
    {rows : List RowObservation}
    (hin : ∀ r ∈ rows, ∃ port row, s.config.resolve node port row r.sample.name = some r.eff) :
    ∀ x ∈ rowsAtoms skip rowStates order node moment rows, x.Honest s := by
  intro x hx
  rcases mem_append.1 hx with hx | hx
  · rcases mem_append.1 hx with hx | hx
    · obtain ⟨m, _, rfl⟩ := mem_map.1 hx
      trivial
    · obtain ⟨entry, hentry, hx⟩ := mem_flatMap.1 hx
      obtain ⟨r, hr, rfl⟩ := mem_map.1 hentry
      unfold rowAtoms at hx
      split at hx
      · cases hx
      · exact honest_sampleAtoms (hin r hr) x hx
  · rw [mem_singleton.1 hx]
    trivial

/-- The worst samples kept for a result each have the metric and the threshold of a sample of
it. -/
theorem foldedSamples_origin {resolved : List (Sample × EffectiveThreshold × Reading)}
    {p : Sample × EffectiveThreshold} (hp : p ∈ foldedSamples resolved) :
    ∃ e ∈ resolved, e.1.metric = p.1.metric ∧ e.2.1 = p.2 := by
  -- One more sample joins as itself, or as the worse of two of one metric.
  have hone : ∀ (folded : List (Sample × EffectiveThreshold)) (sample : Sample)
      (eff : EffectiveThreshold), ∀ p ∈ foldSample folded sample eff,
      (sample.metric = p.1.metric ∧ eff = p.2) ∨
        ∃ q ∈ folded, q.1.metric = p.1.metric ∧ q.2 = p.2 := by
    intro folded sample eff
    induction folded with
    | nil =>
      intro p hp
      simp only [foldSample, mem_singleton] at hp
      exact .inl (by simp [hp])
    | cons q rest ih =>
      obtain ⟨worst, worstEff⟩ := q
      intro p hp
      unfold foldSample at hp
      split at hp
      next hmetric =>
        rcases mem_cons.1 hp with rfl | hp
        · refine .inr ⟨(worst, worstEff), mem_cons_self, ?_, rfl⟩
          split
          · exact hmetric
          · rfl
        · exact .inr ⟨p, mem_cons_of_mem _ hp, rfl, rfl⟩
      · rcases mem_cons.1 hp with rfl | hp
        · exact .inr ⟨(worst, worstEff), mem_cons_self, rfl, rfl⟩
        · rcases ih p hp with h | ⟨q, hq, h⟩
          · exact .inl h
          · exact .inr ⟨q, mem_cons_of_mem _ hq, h⟩
  have hall : ∀ (l : List (Sample × EffectiveThreshold × Reading))
      (folded : List (Sample × EffectiveThreshold)),
      ∀ p ∈ l.foldl (fun folded e => foldSample folded e.1 e.2.1) folded,
      (∃ e ∈ l, e.1.metric = p.1.metric ∧ e.2.1 = p.2) ∨
        ∃ q ∈ folded, q.1.metric = p.1.metric ∧ q.2 = p.2 := by
    intro l
    induction l with
    | nil => exact fun folded p hp => .inr ⟨p, hp, rfl, rfl⟩
    | cons e rest ih =>
      intro folded p hp
      rcases ih _ p hp with ⟨e', he', h⟩ | ⟨q, hq, hm, he⟩
      · exact .inl ⟨e', mem_cons_of_mem _ he', h⟩
      · rcases hone folded e.1 e.2.1 q hq with ⟨hm', he'⟩ | ⟨q', hq', hm', he'⟩
        · exact .inl ⟨e, mem_cons_self, hm'.trans hm, he'.trans he⟩
        · exact .inr ⟨q', hq', hm'.trans hm, he'.trans he⟩
  rcases hall _ [] p hp with ⟨e, he, h⟩ | ⟨q, hq, _⟩
  · exact ⟨e, (mem_filter.1 he).1, h⟩
  · cases hq

/-- The samples of a result carry the threshold in force on them. -/
theorem resolvedSamples_resolved {result : PollResult} {noReading : List Sample}
    {e : Sample × EffectiveThreshold × Reading} (he : e ∈ s.resolvedSamples result noReading) :
    ∃ port row, s.config.resolve result.nodeId port row e.1.name = some e.2.1 := by
  obtain ⟨⟨sample, reading⟩, _, he⟩ := mem_filterMap.1 he
  obtain ⟨eff, heff, rfl⟩ := map_eq_some_iff.1 he
  exact ⟨_, _, heff⟩

theorem honest_observeAtoms (s : AlertManager) (order : List CheckId) (result : PollResult)
    (noReading : List Sample) :
    ∀ x ∈ s.observeAtoms skipHealthy order result noReading, x.Honest s := by
  intro x hx
  unfold observeAtoms at hx
  split at hx
  · cases hx
  rcases mem_append.1 hx with hx | hx
  · rcases mem_append.1 hx with hx | hx
    · unfold livenessAtoms at hx
      split at hx
      · cases hx
      · rw [mem_singleton.1 hx]
        intro ev hev
        cases hev
    · rcases mem_append.1 hx with hx | hx
      · obtain ⟨⟨sample, eff, idx⟩, hp, hx⟩ := mem_flatMap.1 hx
        obtain ⟨e, he, hport⟩ := mem_filterMap.1 hp
        have hsame : e.1 = sample ∧ e.2.1 = eff := by
          simp only at hport
          split at hport
          · simp only [some.injEq, Prod.mk.injEq] at hport
            exact ⟨hport.1, hport.2.1⟩
          · cases hport
        refine honest_sampleAtoms ?_ x hx
        have := resolvedSamples_resolved he
        rwa [hsame.1, hsame.2] at this
      · obtain ⟨p, hp, hx⟩ := mem_flatMap.1 hx
        obtain ⟨e, he, hmetric, heff⟩ := foldedSamples_origin hp
        refine honest_sampleAtoms ?_ x hx
        have := resolvedSamples_resolved he
        rwa [heff, show e.1.name = p.1.name from congrArg CheckName.metric hmetric] at this
  · split at hx
    · cases hx
    · refine honest_rowsAtoms ?_ x hx
      intro r hr
      obtain ⟨e, he, hrow⟩ := mem_filterMap.1 hr
      simp only at hrow
      split at hrow
      · cases hrow
        exact resolvedSamples_resolved he
      · cases hrow

/-- The worst of some values is one of them. -/
theorem worstValue_mem {l : List F64} {v : F64} (h : worstValue eff l = some v) : v ∈ l := by
  cases l with
  | nil => cases h
  | cons w rest =>
    simp only [worstValue, some.injEq] at h
    rw [← h]
    exact (Lib.foldl_best (R := fun _ _ => True) (fun _ _ => trivial) (by simp)).1

/-- The operation hands an evaluator a value that misstates the rule in force: one value of a
port, or one of the values of a derived metric that is not judged per row. -/
def misreports (s : AlertManager) : Op → Bool
  | .observeInterface node ifindex metric value _ =>
    (s.config.resolve node (some ifindex) none (.metric metric)).any (·.misstates value)
  | .observeDerived node metric rows _ =>
    ((derivedNodeMetric (.metric metric)).filter (·.perRow)).isNone &&
      (s.config.resolve node none none (.metric metric)).any fun eff =>
        rows.any fun r => eff.misstates r.2
  | _ => false

/-- Every step of an operation that does not misreport is honest. -/
theorem honest_atoms {op : Op} (h : s.misreports op = false) : ∀ x ∈ op.atoms s, x.Honest s := by
  intro x hx
  cases op with
  | observe result noReading order => exact honest_observeAtoms s order result noReading x hx
  | observeInterface node ifindex metric value t =>
    simp only [Op.atoms, interfaceAtoms] at hx
    cases hres : s.config.resolve node (some ifindex) none (.metric metric) with
    | none => simp [hres] at hx
    | some eff =>
      simp only [hres] at hx
      split at hx
      · cases hx
      · rw [mem_singleton.1 hx]
        intro ev hev
        cases hev
        have hvalue : eff.misstates value = false := by simpa [misreports, hres] using h
        exact ⟨eff, ⟨node, _, _, rfl, hres⟩, primaryEval_true hvalue _⟩
  | observeDerived node metric rows t =>
    simp only [Op.atoms, derivedAtoms] at hx
    split at hx
    · cases hx
    cases hd : (derivedNodeMetric (.metric metric)).filter (·.perRow) with
    | some d =>
      simp only [hd] at hx
      split at hx
      · cases hx
      · refine honest_rowsAtoms ?_ x hx
        intro r hr
        obtain ⟨⟨row, value⟩, _, hrow⟩ := mem_filterMap.1 hr
        simp only at hrow
        split at hrow
        · obtain ⟨eff, heff, rfl⟩ := map_eq_some_iff.1 hrow
          exact ⟨_, _, heff⟩
        · cases hrow
    | none =>
      simp only [hd] at hx
      cases hres : s.config.resolve node none none (.metric metric) with
      | none => simp [hres] at hx
      | some eff =>
        simp only [hres] at hx
        split at hx
        · cases hx
        cases hv : worstValue eff (rows.map Prod.snd) with
        | none => simp [hv] at hx
        | some value =>
          simp only [hv, mem_cons, not_mem_nil, or_false] at hx
          rcases hx with rfl | rfl
          · trivial
          · intro ev hev
            cases hev
            obtain ⟨r, hr, rfl⟩ := mem_map.1 (worstValue_mem hv)
            have hvalue : eff.misstates r.2 = false := by
              have hall : ∀ r ∈ rows, eff.misstates r.2 = false := by
                simpa [misreports, hd, hres] using h
              exact hall r hr
            exact ⟨eff, ⟨node, _, _, rfl, hres⟩, primaryEval_true hvalue _⟩
  | setConfig _ _ | publishIntervals _ | recordRowName _ _ _ _ | regroup _ | releaseHeld _ _
  | resolveOrphanedInterface _ | resolveOrphanedNodeDerived _ | resolveOrphanedCollected _
  | resolveStale _ | forgetDeletedNodes _ | raiseEvent _ | resolveEvent _ =>
    cases atomOf_atoms hx with
    | sample hop _ => cases hop
    | _ => trivial

/-! ### Runs -/

/-- What the history promises about a stored breach: it was written for an alert about a node
in its own state, whose value had reached the bound. -/
def RowTrue (row : AlertHistoryRow) : Prop :=
  row.subject.asNode.isSome → ∀ value, row.observedValue = some value →
    row.state.severity = some row.severity ∧
      ∀ t, row.thresholdValue = some t → (row.direction.getD .above).reaches value t = true

theorem restored_alertsTrue {rows : List AlertHistoryRow} (hrows : ∀ row ∈ rows, RowOk row)
    (htrue : ∀ row ∈ rows, RowTrue row) : (restored rows).AlertsTrue := by
  intro c a ha hn
  obtain ⟨row, hrow, rfl, rc, rfl⟩ := restored_active ha
  have hrow' := htrue row hrow (by rw [(hrows row hrow).subject]; exact hn)
  refine ⟨fun hb => ?_, fun b t hb ht => ?_⟩
  · obtain ⟨value, hvalue⟩ : ∃ value, row.observedValue = some value := by
      simpa [alertFromRow, isSome_iff_exists] using hb
    exact (hrow' value hvalue).1
  · obtain ⟨value, hvalue, rfl⟩ := map_eq_some_iff.1 hb
    exact (hrow' value hvalue).2 t ht

/-- What an observation of a check the engine holds nothing about fires, when the rule commits
at once and the value is judged a breach. -/
theorem fire_of_first_breach (s : AlertManager) (node : NodeId) (t : UnixMs) (spec : CheckSpec)
    {severity : Severity} (hl : spec.isLiveness = false) (ha : spec.alerting = true)
    (hfirst : s.states spec.check = none) (hdwell : spec.dwellSamples ≤ 1)
    (hsev : raw.severity = some severity) :
    ∃ a, fire a ∈ (s.processCheck [] node raw t spec).2 ∧
      a.breach = spec.eval.map (breachFor severity) := by
  have hne : raw ≠ .ok := by
    rintro rfl
    cases hsev
  have htr : ∃ tr, s.transitionOf raw t spec = some tr ∧ tr.state = raw := by
    have hone : max spec.dwellSamples 1 = 1 := by omega
    have hobs : ((s.checkStateFor spec).dwell.observe raw).2 = some raw := by
      simp [checkStateFor, hfirst, CheckState.new, CheckState.setDwell, CheckState.setFlapWindowMs,
        DwellTracker.observe, DwellTracker.new, DwellTracker.setDwell, DwellTracker.runLength, hne,
        hone]
    rw [← CheckState.observe_transition _ raw t] at hobs
    exact map_eq_some_iff.1 hobs
  obtain ⟨tr, htr, hstate⟩ := htr
  rw [processCheck_of_threshold hl]
  unfold checkCore
  simp only [ha, Bool.true_eq_false, if_false, htr]
  rcases onTransition_cases (s.trackSample node raw t spec).1 node raw t spec tr with
    ⟨hnone, _⟩ | ⟨severity', hsev', he⟩ | ⟨_, _, _, hl', _, _⟩
  · rw [hstate, hsev] at hnone
    cases hnone
  · obtain rfl : severity' = severity := by
      rw [hstate, hsev] at hsev'
      exact (some.inj hsev').symm
    rw [he]
    exact ⟨_, mem_singleton.2 rfl, rfl⟩
  · simp [hl] at hl'

/-- Misstating a value means naming a bound on the primary side that it did not reach. -/
theorem misstates_breach {value : F64} (h : eff.misstates value = true) :
    ∃ severity bound, (eff.evaluate value).severity = some severity ∧
      breachFor severity (primaryEval value eff) = ⟨value, some bound, eff.direction⟩ ∧
      eff.direction.reaches value bound = false := by
  obtain ⟨severity, hsev, hbound⟩ := (any_eq_true _ _).1 h
  obtain ⟨bound, hb, hreach⟩ := (any_eq_true _ _).1 hbound
  refine ⟨severity, bound, hsev, ?_, by simpa using hreach⟩
  rw [← hb]
  cases severity <;> rfl

/-- A published breach is true on every path, except where an evaluator meets a value that
breaches a rule on the side its report does not name.

In a run in which no operation hands an evaluator such a value, every alert about a node that
an observation fires says what is so. And such a value of a port does put a false breach out,
when it is the first one the engine sees of the port and the rule commits at once. -/
theorem breaches_true (rows : List AlertHistoryRow) (ops : List Op)
    (hrows : ∀ row ∈ rows, RowOk row) (htrue : ∀ row ∈ rows, RowTrue row)
    (hok : Along (fun s op => op.Ok s) step (restored rows) ops)
    (hcond : Along (fun s op => s.misreports op = false) step (restored rows) ops) :
    Along (fun s op => op.isObservation = true → ∀ a, fire a ∈ (s.step op).2 →
      a.node.isSome → s.SaysTrue a.check a) step (restored rows) ops ∧
    (∀ (s : AlertManager) (node : NodeId) (ifindex : IfIndex) (metric : Metric) (value : F64)
      (t : UnixMs) (eff : EffectiveThreshold),
      s.config.resolve node (some ifindex) none (.metric metric) = some eff →
      s.config.isPaused node t = false → s.config.inMaintenance node = false →
      s.states (interfaceCheckId node ifindex (.metric metric)) = none →
      dwellTicks eff.dwellSamples (s.intervals node) watchTickSecs ≤ 1 →
      s.misreports (.observeInterface node ifindex metric value t) = true →
      ∃ a b bound, fire a ∈ (s.step (.observeInterface node ifindex metric value t)).2 ∧
        a.breach = some b ∧ b.threshold = some bound ∧ b.value = value ∧
        b.direction.reaches b.value bound = false) := by
  refine ⟨?_, ?_⟩
  · have hrun : ∀ (ops : List Op) (s : AlertManager), s.Consistent → s.AlertsTrue →
        Along (fun s op => op.Ok s) step s ops →
        Along (fun s op => s.misreports op = false) step s ops →
        Along (fun s op => op.isObservation = true → ∀ a, fire a ∈ (s.step op).2 →
          a.node.isSome → s.SaysTrue a.check a) step s ops := by
      intro ops
      induction ops with
      | nil => exact fun _ _ _ _ _ => trivial
      | cons op rest ih =>
        intro s hs hi hok hcond
        have hstep := atoms_say_true hs (atomOk_atoms hok.1) (honest_atoms hcond.1) hi.trueSince
        rw [← step_eq_atoms] at hstep
        exact ⟨fun _ => hstep.2, ih _ (step_consistent hs hok.1) hstep.1.alertsTrue hok.2 hcond.2⟩
    exact hrun ops _ (restored_consistent hrows) (restored_alertsTrue hrows htrue) hok hcond
  · intro s node ifindex metric value t eff hres hpaused hmaint hfirst hdwell hmis
    have hvalue : eff.misstates value = true := by simpa [misreports, hres] using hmis
    obtain ⟨severity, bound, hsev, hbreach, hreach⟩ := misstates_breach hvalue
    obtain ⟨a, ha, hab⟩ := fire_of_first_breach s node t
      { thresholdSpec (interfaceCheckId node ifindex (.metric metric)) (.metric metric) eff
          (some (primaryEval value eff)) (.everyTick watchTickSecs) (s.intervals node) with
        ifindex := some ifindex } rfl rfl hfirst hdwell hsev
    refine ⟨a, breachFor severity (primaryEval value eff), bound, ?_, hab, ?_, ?_, ?_⟩
    · simp only [step, observeInterfaceMetric, hres, hpaused, hmaint]
      exact ha
    · rw [hbreach]
    · rw [hbreach]
    · exact hreach

/-- The received bit rate of a port. -/
def inBps : Metric := .series "if_in_bps"

/-- A rule that bounds both sides of it: critical at 1 or less, and at 5000 or more. -/
def bandConfig : AlertConfig :=
  AlertConfig.new [{ cpuRule .none with
    rule := ⟨.metric inBps, ⟨none, some (.finite 1), none, some (.finite 5000)⟩, 1⟩ }] [plainNode 1]

/-- A port's value above the band fires with the bound it reached. -/
theorem high_value_told :
    let ops : List Op := [.setConfig bandConfig rfl, .observeInterface 1 7 inBps (.finite 6000) 60]
    ((emitAll step (restored []) ops).2.map fun x => x.alert.breach)
        = [some ⟨.finite 6000, some (.finite 5000), .above⟩] ∧
      Along (fun s op => op.isObservation = true → ∀ a, fire a ∈ (s.step op).2 →
        a.node.isSome → s.SaysTrue a.check a) step (restored []) ops := by
  intro ops
  refine ⟨by decide +kernel, ?_⟩
  exact (breaches_true [] ops noRows_ok (by simp) ⟨trivial, trivial, trivial⟩ (by decide +kernel)).1

/-- A port's value below the band is published as a breach of the bound above it. -/
theorem low_value_misstated :
    ((emitAll step (restored []) [.setConfig bandConfig rfl,
        .observeInterface 1 7 inBps (.finite (9 / 10)) 60]).2.map fun x => x.alert.breach)
        = [some ⟨.finite (9 / 10), some (.finite 5000), .above⟩] ∧
      Direction.reaches .above (.finite (9 / 10)) (.finite 5000) = false := by
  decide +kernel

end AlertManager

end Yagra
