import Yagra.Proofs.Accounting
import Yagra.Proofs.Breaches
import Yagra.Proofs.Outages
import Yagra.Proofs.Retention
import Yagra.Proofs.Trackers

/-!
# `Yagra.Proofs.History`: the history log and the open alerts

The engine keeps the open alerts by the order in which results arrive. The history log is read by
the times in its rows: an alert is open when the latest row of its check is a Fire. A row has the
time of the result that opened the alert, and a Resolve repeats it.

`DatesLater` is the condition under which the two agree. An observation that finds a problem is
later than every row of its check, and so is an alert that another component raises. Then at every
point of a run the open rows are those of the active alerts whose notification is not held
(`openRows_exact`).

What one step does to a check is told by its `Move`, and by where the time of its alert comes from
(`atom_dated`). `Recorded` is the relation between the alert of a check and its rows that every move
keeps, and `inStep_run` carries it along a run. A node that is polled by one poller and then by
another with a slower clock breaks the condition, and `slow_clock_hides_outage` is such a run.
-/

set_option autoImplicit false

namespace Yagra

open Yagra.Lib List

/-- Two versions of an alert of which a row tells the same. -/
structure SameDate (a a' : Alert) : Prop where
  time : a'.atUnixMs = a.atUnixMs
  severity : a'.severity = a.severity
  state : a'.state = a.state

theorem SameDate.refl (a : Alert) : SameDate a a := ⟨rfl, rfl, rfl⟩

namespace AlertManager

/-! ### Liveness alerts from a fresh start -/

/-- What holds of the liveness checks in a run from a fresh start. -/
structure LivenessSound (s : AlertManager) : Prop where
  states : ∀ n, s.committedAt (livenessCheck n) ≠ .warning ∧
    s.committedAt (livenessCheck n) ≠ .critical
  tracked : ∀ n, (s.active (livenessCheck n)).isSome →
    (s.committedAt (livenessCheck n)).severity.isSome
  unloaded : s.config.loaded = false → ∀ n, s.active (livenessCheck n) = none

theorem livenessSound_fresh : fresh.LivenessSound where
  states := fun n => by simp [committedAt, fresh]
  tracked := fun n h => by simp [fresh] at h
  unloaded := fun _ _ => rfl

variable {s : AlertManager} {x : Atom} {n : NodeId}

theorem LivenessSound.committed (h : s.LivenessSound) (hn : (s.active (livenessCheck n)).isSome) :
    s.committedAt (livenessCheck n) = .unreachable := by
  have hsev := h.tracked n hn
  obtain ⟨hwarning, hcritical⟩ := h.states n
  cases hc : s.committedAt (livenessCheck n) <;> simp_all [NodeState.severity]

/-- Only a loaded configuration has a liveness rule. -/
def Ruled (s : AlertManager) : Atom → Prop
  | .check _ _ _ _ spec => spec.isLiveness = true → spec.alerting = true → s.config.loaded = true
  | _ => True

/-- A step keeps the states of the liveness checks. -/
theorem atom_livenessStates (hx : AtomOk s x) (h : s.committedAt (livenessCheck n) ≠ .warning ∧
      s.committedAt (livenessCheck n) ≠ .critical) :
    (atomStep s x).1.committedAt (livenessCheck n) ≠ .warning ∧
      (atomStep s x).1.committedAt (livenessCheck n) ≠ .critical := by
  rcases (atom_frame s x).states (livenessCheck n) with
    he | he | ⟨order, node, raw, t, spec, rfl, hc, he⟩
  · rw [committedAt, he]
    exact h
  · simp [committedAt, he]
  · rw [committedAt_of_states he]
    rcases s.nextState_committed raw t spec with hn | hn <;> rw [hn]
    · rw [← hc]
      exact h
    · cases hx.1 with
      | liveness _ _ _ _ hraw => rcases hraw with rfl | rfl | rfl | rfl <;> simp
      | threshold _ _ m _ hname _ _ =>
        rw [← hc] at hname
        simp [checkId, subjectCheckId] at hname

/-- A step that is not an observation leaves the tracker of a liveness check and whether it has an
alert, or it closes the alert. -/
theorem atom_liveness_cases (hx : AtomOk s x)
    (hcheck : ∀ order node raw t spec, x ≠ .check order node raw t spec) (n : NodeId) :
    x.Spares (livenessCheck n) ∨ (atomStep s x).1.active (livenessCheck n) = none :=
  atom_spares_or hx (fun order node raw t spec he => absurd he (hcheck order node raw t spec))
    (fun _ _ => livenessCheck_ne (by simp [checkId, subjectCheckId]))
    fun raised => livenessCheck_ne (raised_name raised)

/-- Without a loaded configuration no liveness alert is opened. -/
theorem atom_unloaded (hs : s.Consistent) (hx : AtomOk s x) (hruled : s.Ruled x)
    (hloaded : s.config.loaded = false) (h : s.active (livenessCheck n) = none) :
    (atomStep s x).1.active (livenessCheck n) = none := by
  have hmoves : Moves (fun _ a => a.check.name ≠ .liveness) s (atomStep s x).2
      (atomStep s x).1 := by
    refine (atom_effect hs hx fun c a ho => ?_).1
    cases ho with
    | transition halerting hcheck _ _ _ _ =>
      cases hx.1 with
      | liveness hl _ _ _ _ =>
        have := hruled hl halerting
        simp [hloaded] at this
      | threshold _ _ m _ hname _ _ =>
        rw [hcheck, hname]
        simp
    | raised _ _ =>
      obtain ⟨raised, rfl⟩ := hx
      exact raised_name raised
  have hmove := hmoves (livenessCheck n)
  rw [h] at hmove
  generalize (atomStep s x).1.active (livenessCheck n) = after at hmove ⊢
  generalize (atomStep s x).2.filter _ = acts at hmove
  cases hmove with
  | stay => rfl
  | opened hp hok hh | holding hp hok hh => exact absurd (by rw [hok.check]; rfl) hp

theorem atom_livenessSound (hs : s.Consistent) (hx : AtomOk s x) (hruled : s.Ruled x)
    (h : s.LivenessSound) : (atomStep s x).1.LivenessSound where
  states := fun n => atom_livenessStates hx (h.states n)
  tracked := by
    intro n hn
    by_cases hcheck : ∀ order node raw t spec, x ≠ .check order node raw t spec
    · rcases atom_liveness_cases hx hcheck n with hspares | hnone
      · obtain ⟨hstates, hsome⟩ := atom_spares (s := s) hspares
        rw [committedAt, hstates]
        exact h.tracked n (hsome ▸ hn)
      · simp [hnone] at hn
    · push Not at hcheck
      obtain ⟨order, node, raw, t, spec, rfl⟩ := hcheck
      refine processCheck_trackedAt hs hx.1 ?_ (h.tracked n) hn
      -- Before a configuration is loaded, there is no liveness alert to recover.
      cases hx.1 with
      | liveness _ hc _ _ _ =>
        cases hl : s.config.loaded with
        | true => simp [recoversUnloaded, hl]
        | false => simp [recoversUnloaded, hc, h.unloaded hl]
      | threshold _ halerting _ _ _ _ _ => simp [recoversUnloaded, halerting]
  unloaded := by
    intro hloaded n
    have hkeeps : x.KeepsConfig := by
      cases x with
      | setConfig config =>
        have hl : config.loaded = true := hx
        have : config.loaded = false := hloaded
        simp [hl] at this
      | _ => trivial
    rw [atom_config hkeeps] at hloaded
    exact atom_unloaded hs hx hruled hloaded (h.unloaded hloaded n)

/-- Without a liveness alert over a tracker that has not committed the outage, no outage is
committed again over an announced alert. -/
theorem LivenessSound.not_reopens (hx : AtomOk s x) (h : s.LivenessSound) :
    s.reopensUnderWait x = false := by
  cases x with
  | check order node raw t spec =>
    cases hx.1 with
    | liveness hl hc _ _ _ =>
      cases htr : s.transitionOf raw t spec with
      | none => simp [reopensUnderWait, htr]
      | some tr =>
        obtain ⟨hstate, hne, _⟩ := transitionOf_some htr
        by_contra hre
        have hre : s.reopensUnderWait (.check order node raw t spec) = true := by
          simpa using hre
        simp only [reopensUnderWait, htr, Option.any_some, Bool.and_eq_true,
          decide_eq_true_eq] at hre
        obtain ⟨⟨⟨⟨-, hopen⟩, hun⟩, -⟩, -⟩ := hre
        obtain ⟨a, ha, -⟩ := announced_iff.1 hopen
        rw [hc] at ha hne
        exact hne (by rw [← hstate, hun, h.committed (by simp [ha])])
    | threshold hl _ _ _ _ _ _ => simp [reopensUnderWait, hl]
  | _ => rfl

/-- Without a loaded configuration there is no liveness rule. -/
def RulesLoaded (s : AlertManager) : Prop :=
  s.config.loaded = false → ∀ n, s.livenessDwell n = none

variable {s' : AlertManager} {spec : CheckSpec} {raw : NodeState}

theorem RulesLoaded.of_config (h : s.RulesLoaded) (hconfig : s'.config = s.config) :
    s'.RulesLoaded := by
  intro hl n
  rw [livenessDwell, hconfig]
  exact h (hconfig ▸ hl) n

theorem atom_rulesLoaded (hx : AtomOk s x) (h : s.RulesLoaded) : (atomStep s x).1.RulesLoaded := by
  cases x with
  | setConfig config =>
    have hl : config.loaded = true := hx
    intro hloaded
    exact absurd (hl.symm.trans hloaded) (by decide)
  | _ => exact h.of_config (atom_config trivial)

theorem ruled_of_mem {op : Op} (h : s.RulesLoaded) (hconfig : s'.config = s.config)
    (hx : x ∈ op.atoms s) : s'.Ruled x := by
  cases atomOf_atoms hx with
  | sample _ hsample =>
    have hlive := hsample.keepsLive
    cases x with
    | check order node raw t spec =>
      intro hl
      have : spec.isLiveness = false := hlive
      simp [hl] at this
    | _ => trivial
  | liveness noReading order hobs =>
    intro _ halerting
    by_contra hl
    have hnone := h (by rw [← hconfig]; simpa using hl)
    simp [livenessSpec, hnone] at halerting
  | _ => trivial

theorem ruled_atoms (h : s.RulesLoaded) (op : Op) : Along Ruled atomStep s (op.atoms s) := by
  have hrun : ∀ (l : List Atom) (s' : AlertManager), (∀ x ∈ l, x ∈ op.atoms s) →
      (∀ x ∈ l, x.KeepsConfig) → s'.config = s.config → Along Ruled atomStep s' l := by
    intro l
    induction l with
    | nil => exact fun _ _ _ _ => trivial
    | cons x rest ih =>
      intro s' hmem hkeeps hconfig
      refine ⟨ruled_of_mem h hconfig (hmem x mem_cons_self), ih _
        (fun y hy => hmem y (mem_cons_of_mem x hy))
        (fun y hy => hkeeps y (mem_cons_of_mem x hy)) ?_⟩
      rw [atom_config (hkeeps x mem_cons_self), hconfig]
  by_cases hop : ∀ config loaded, op ≠ .setConfig config loaded
  · exact hrun _ s (fun _ hx => hx) (fun x hx => keepsConfig_of_mem hop hx) rfl
  · push Not at hop
    obtain ⟨config, loaded, rfl⟩ := hop
    exact ⟨trivial, trivial⟩

/-! ### The time of an alert -/

/-- An alert that describes a breach is in a problem state. -/
def BreachesProblem (s : AlertManager) : Prop :=
  ∀ c a, s.active c = some a → a.breach.isSome → a.state.isProblem = true

theorem atom_breachesProblem (hs : s.Consistent) (hx : AtomOk s x) (h : s.BreachesProblem) :
    (atomStep s x).1.BreachesProblem := by
  intro c a' ha' hb
  cases atom_slotFrom hs hx ha' with
  | kept ha hsame =>
    rw [hsame.state]
    exact h c _ ha (hsame.breach ▸ hb)
  | @raised raised _ hsame =>
    rw [hsame.state]
    rw [hsame.breach] at hb
    cases raised <;> simp [Raised.alert, Raised.subjectAlert, NodeState.isProblem] at hb ⊢
  | opened hsev hstate _ =>
    rw [hstate, ← NodeState.severity_isSome, hsev]
    rfl
  | refreshed _ ha hb _ _ _ hstate =>
    rw [hstate]
    exact h _ _ ha hb

/-- Without a transition the time of the alert changes only with the side of its breach. -/
theorem withoutTransition_time {t : UnixMs} {a a' : Alert} (hw : s.WellFormed)
    (ha : s.active spec.check = some a)
    (ha' : (s.withoutTransition raw t spec).1.active spec.check = some a') :
    a'.atUnixMs = a.atUnixMs ∨
      (a'.atUnixMs = t ∧ a.breach.isSome ∧ a.state = raw ∧ spec.eval.isSome) := by
  rcases withoutTransition_cases s raw t spec hw with
    ⟨side, release, he, -⟩ | ⟨b, b', side, release, hb, -, -, he, -, hdate⟩ <;>
    rw [he, withEntries_active] at ha'
  · exact .inl (by rw [Option.some.inj (ha.symm.trans ha')])
  · cases ha'
    cases ha.symm.trans hb
    exact hdate

/-- Where an observation's own check gets the time of its alert from: the alert was there, or it is
opened or fired again with the time of a problem sample. -/
theorem checkCore_dated (hs : s.Consistent) (hb : s.BreachesProblem) {node : NodeId} {t : UnixMs}
    {a' : Alert} (h : (s.checkCore node raw t spec).1.active spec.check = some a') :
    (∃ a, s.active spec.check = some a ∧ SameDate a a') ∨
      (raw.isProblem = true ∧ a'.atUnixMs = t ∧
        (a'.notifyHeldUntil.isSome ∨ .fire a' ∈ (s.checkCore node raw t spec).2)) := by
  rcases checkCore_active_cases hs h with
    ha | ⟨a, ha, href, hfire, hdate⟩ | ⟨hsev, -, -, htime, hout⟩
  · exact .inl ⟨a', ha, .refl a'⟩
  · rcases hdate with htime | ⟨htime, hbreach, hraw, -⟩
    · exact .inl ⟨a, ha, htime, href.same.severity, href.same.state⟩
    · exact .inr ⟨hraw ▸ hb _ a ha hbreach, htime, .inr (by simp [hfire])⟩
  · exact .inr ⟨by rw [← NodeState.severity_isSome, hsev]; rfl, htime, hout⟩

end AlertManager

/-- The check whose alert a step may date, and the time. -/
def Atom.dated : Atom → Option (CheckId × UnixMs)
  | .check _ _ raw t spec => if raw.isProblem = true then some (spec.check, t) else none
  | .raise a => some (a.check, a.atUnixMs)
  | _ => none

namespace AlertManager

/-- Where the time of an alert comes from: it was there, or the step dates the alert, and fires it
unless it is held. -/
theorem atom_dated {s : AlertManager} {x : Atom} (hs : s.Consistent) (hx : AtomOk s x)
    (hb : s.BreachesProblem) {c : CheckId} {a' : Alert}
    (h : (atomStep s x).1.active c = some a') :
    (∃ a, s.active c = some a ∧ SameDate a a') ∨
      (x.dated = some (c, a'.atUnixMs) ∧
        (a'.notifyHeldUntil.isSome ∨ .fire a' ∈ (atomStep s x).2)) := by
  rcases atom_active_cases hs hx h with
    ⟨a, rc, u, ha, rfl⟩ | ⟨order, node, raw, t, spec, rfl, rfl, hcore, hacts⟩ | ⟨rfl, hc, hfire⟩
  · exact .inl ⟨a, ha, rfl, rfl, rfl⟩
  · refine (checkCore_dated hs hb hcore).imp_right fun hopened => ?_
    obtain ⟨hraw, htime, hfired⟩ := hopened
    exact ⟨by simp [Atom.dated, hraw, htime], hfired.imp_right fun hfire => hacts hfire⟩
  · exact .inr ⟨by simp [Atom.dated, hc], .inr hfire⟩

end AlertManager

/-! ### The alert of a check and its rows -/

/-- The rows of a check, without their stamps. -/
def rowsOf (c : CheckId) (acts : List NotifyAction) : List (Alert × Bool) :=
  (acts.filter fun x => x.check = c).filterMap historyRow

/-- The row is that of a Fire of this version of an alert. -/
structure FireOf (a : Alert) (row : Alert × Bool) : Prop where
  fire : row.2 = false
  time : row.1.atUnixMs = a.atUnixMs
  severity : row.1.severity = a.severity
  state : row.1.state = a.state

/-- What the rows of a check say of its alert. An announced alert has a Fire, and the other rows are
earlier or like it. The rows are earlier than a held alert. Without an announced alert, every Fire
is followed by a Resolve. -/
structure Recorded (b : Option Alert) (rows : List (Alert × Bool)) : Prop where
  fire : ∀ a, b = some a → a.notifyHeldUntil = none → ∃ row ∈ rows, FireOf a row
  earlier : ∀ a, b = some a → ∀ row ∈ rows,
    row.1.atUnixMs < a.atUnixMs ∨ (a.notifyHeldUntil = none ∧ FireOf a row)
  closed : announced b = false → ∀ row ∈ rows, row.2 = false →
    ∃ later ∈ rows, later.2 = true ∧ row.1.atUnixMs ≤ later.1.atUnixMs

/-- Without an alert only the Fires count. -/
theorem Recorded.of_none {rows : List (Alert × Bool)}
    (h : ∀ row ∈ rows, row.2 = false →
      ∃ later ∈ rows, later.2 = true ∧ row.1.atUnixMs ≤ later.1.atUnixMs) : Recorded none rows :=
  ⟨fun _ hx => absurd hx (by simp), fun _ hx => absurd hx (by simp), fun _ => h⟩

/-- A row of an alert is one of a version with its time. -/
theorem FireOf.of_sameDate {a a' : Alert} {row : Alert × Bool} (h : FireOf a row)
    (hsame : SameDate a a') : FireOf a' row :=
  ⟨h.fire, h.time.trans hsame.time.symm, h.severity.trans hsame.severity.symm,
    h.state.trans hsame.state.symm⟩

namespace Recorded

variable {a a' : Alert} {b : Option Alert} {rows : List (Alert × Bool)}

/-- A version of the alert with its time is recorded as the alert is. -/
theorem of_sameDate (h : Recorded (some a) rows) (hsame : SameDate a a')
    (hheld : a'.notifyHeldUntil = a.notifyHeldUntil) : Recorded (some a') rows := by
  refine ⟨fun x hx hnone => ?_, fun x hx row hrow => ?_, fun hnot => h.closed ?_⟩
  · cases hx
    obtain ⟨row, hrow, hf⟩ := h.fire a rfl (hheld ▸ hnone)
    exact ⟨row, hrow, hf.of_sameDate hsame⟩
  · cases hx
    rw [hsame.time, hheld]
    exact (h.earlier a rfl row hrow).imp_right fun hf => ⟨hf.1, hf.2.of_sameDate hsame⟩
  · simpa [announced, hheld] using hnot

/-- An alert that is held back, later than every row, where none was announced. -/
theorem holding (h : Recorded b rows) (hnot : announced b = false)
    (hheld : a'.notifyHeldUntil.isSome) (hlater : ∀ row ∈ rows, row.1.atUnixMs < a'.atUnixMs) :
    Recorded (some a') rows := by
  refine ⟨fun x hx hnone => ?_, fun x hx row hrow => ?_, fun _ => h.closed hnot⟩
  · cases hx
    simp [hnone] at hheld
  · cases hx
    exact .inl (hlater row hrow)

/-- The rows from before are earlier than a version of the alert, or its own. -/
theorem behind (h : Recorded b rows)
    (hdate : (∃ a, b = some a ∧ SameDate a a') ∨ ∀ row ∈ rows, row.1.atUnixMs < a'.atUnixMs) :
    ∀ row ∈ rows, row.1.atUnixMs < a'.atUnixMs ∨ (announced b = true ∧ FireOf a' row) := by
  intro row hrow
  rcases hdate with ⟨a, rfl, hsame⟩ | hlater
  · rw [hsame.time]
    refine (h.earlier a rfl row hrow).imp_right fun hf => ⟨?_, hf.2.of_sameDate hsame⟩
    simp [announced, hf.1]
  · exact .inl (hlater row hrow)

/-- An alert that is fired. -/
theorem firing (h : Recorded b rows) (hheld : a'.notifyHeldUntil = none)
    (hdate : (∃ a, b = some a ∧ SameDate a a') ∨ ∀ row ∈ rows, row.1.atUnixMs < a'.atUnixMs) :
    Recorded (some a') (rows ++ [(a', false)]) := by
  refine ⟨fun x hx _ => ?_, fun x hx row hrow => ?_, fun hnot => ?_⟩
  · cases hx
    exact ⟨(a', false), by simp, rfl, rfl, rfl, rfl⟩
  · cases hx
    rcases mem_append.1 hrow with hrow | hrow
    · exact (h.behind hdate row hrow).imp_right fun hf => ⟨hheld, hf.2⟩
    · obtain rfl := mem_singleton.1 hrow
      exact .inr ⟨hheld, rfl, rfl, rfl, rfl⟩
  · simp [announced, hheld] at hnot

/-- An announced alert that is closed. -/
theorem closing (h : Recorded (some a) rows) : Recorded none (rows ++ [(a, true)]) := by
  refine .of_none fun row hrow hfire => ⟨(a, true), by simp, rfl, ?_⟩
  rcases mem_append.1 hrow with hrow | hrow
  · exact (h.earlier a rfl row hrow).elim le_of_lt fun hf => hf.2.time.le
  · obtain rfl := mem_singleton.1 hrow
    simp at hfire

/-- A move that dates an alert later than the rows of its check keeps them in step. -/
theorem move {c : CheckId} {b' : Option Alert} {acts : List NotifyAction} (h : Recorded b rows)
    (hmove : Move NoHoldOver c b acts b')
    (hdate : ∀ a', b' = some a' → (∃ a, b = some a ∧ SameDate a a') ∨
      ((∀ row ∈ rows, row.1.atUnixMs < a'.atUnixMs) ∧
        (a'.notifyHeldUntil.isSome ∨ .fire a' ∈ acts))) :
    Recorded b' (rows ++ acts.filterMap historyRow) := by
  have hdate' : ∀ a', b' = some a' → (∃ a, b = some a ∧ SameDate a a') ∨
      ∀ row ∈ rows, row.1.atUnixMs < a'.atUnixMs := fun a' ha => (hdate a' ha).imp_right And.left
  cases hmove with
  | stay => simpa using h
  | opened hp hok hh | refired hs hh hr => exact h.firing hh (hdate' _ rfl)
  | closed hh => exact h.closing
  | @holding _ a hp hok hh =>
    have hnot := hp hh
    simp only [filterMap_nil, append_nil]
    refine h.holding hnot hh fun row hrow => ?_
    refine (h.behind (hdate' a rfl) row hrow).resolve_right fun hf => ?_
    simp [hnot] at hf
  | @dropped a hh =>
    simp only [filterMap_nil, append_nil]
    refine .of_none (h.closed ?_)
    simpa [announced, Option.ne_none_iff_isSome] using hh
  | @retagged a a' hs hroot hh =>
    simp only [filterMap_nil, append_nil]
    rcases hdate a' rfl with ⟨x, hx, hsame⟩ | ⟨hlater, hfired⟩
    · cases hx
      exact h.of_sameDate hsame hh
    · have hheld := hfired.resolve_right not_mem_nil
      refine h.holding ?_ hheld hlater
      simpa [announced, hh, Option.ne_none_iff_isSome] using hheld
  | @suppressed a a' hs hh hh' hroot hroot' =>
    -- The roll-up writes no row, and the alert is not dated anew.
    have hrows : [NotifyAction.suppress a'].filterMap historyRow = [] := rfl
    rw [hrows, append_nil]
    rcases hdate a' rfl with ⟨x, hx, hsame⟩ | ⟨-, hfired⟩
    · cases hx
      exact h.of_sameDate hsame (hh'.trans hh.symm)
    · simp [hh'] at hfired

end Recorded

/-! ### Along a run -/

namespace AlertManager

/-- The step dates the alert of a check only later than all its rows. -/
def DatesLater (st : AlertManager × List NotifyAction) (x : Atom) : Prop :=
  ∀ p ∈ x.dated, ∀ row ∈ rowsOf p.1 st.2, row.1.atUnixMs < p.2

instance (st : AlertManager × List NotifyAction) (x : Atom) : Decidable (DatesLater st x) :=
  inferInstanceAs (Decidable (∀ p ∈ x.dated, ∀ row ∈ rowsOf p.1 st.2, row.1.atUnixMs < p.2))

/-- What holds of the engine and its actions in a run from a fresh start. -/
structure InStep (st : AlertManager × List NotifyAction) : Prop where
  consistent : st.1.Consistent
  sound : st.1.LivenessSound
  breaches : st.1.BreachesProblem
  recorded : ∀ c, Recorded (st.1.active c) (rowsOf c st.2)

variable {st : AlertManager × List NotifyAction}

theorem InStep.atom {x : Atom} (h : InStep st) (hx : AtomOk st.1 x) (hruled : st.1.Ruled x)
    (hlater : DatesLater st x) : InStep (logged atomStep st x) := by
  obtain ⟨hmoves, hcons⟩ := atom_effect h.consistent hx
    (noHoldOver_of_not_reopens (h.sound.not_reopens hx))
  refine ⟨hcons, atom_livenessSound h.consistent hx hruled h.sound,
    atom_breachesProblem h.consistent hx h.breaches, fun c => ?_⟩
  show Recorded ((atomStep st.1 x).1.active c) (rowsOf c (st.2 ++ (atomStep st.1 x).2))
  rw [rowsOf, filter_append, filterMap_append]
  refine (h.recorded c).move (hmoves c) fun a' ha' => ?_
  refine (atom_dated h.consistent hx h.breaches ha').imp_right fun hdated => ⟨?_, ?_⟩
  · exact hlater (c, a'.atUnixMs) hdated.1
  · have hcheck : a'.check = c := hcons.slots.keyed c a' ha'
    exact hdated.2.imp_right fun hfire => mem_filter.2 ⟨hfire, decide_eq_true hcheck⟩

/-- The steps of an operation all date later. -/
def OpDatesLater (st : AlertManager × List NotifyAction) (op : Op) : Prop :=
  Meets DatesLater (logged atomStep) st (op.atoms st.1)

instance (st : AlertManager × List NotifyAction) (op : Op) : Decidable (OpDatesLater st op) :=
  inferInstanceAs (Decidable (Meets DatesLater (logged atomStep) st (op.atoms st.1)))

theorem InStep.op {op : Op} (h : InStep st) (hrules : st.1.RulesLoaded) (hop : op.Ok st.1)
    (hlater : OpDatesLater st op) :
    InStep (logged step st op) ∧ (logged step st op).1.RulesLoaded := by
  have hatoms := (atomOk_atoms hop).logged st.2
  have hruled := (ruled_atoms hrules op).logged st.2
  rw [logged, step_eq_atoms, ← foldl_logged]
  refine ((hatoms.and hruled).and hlater).invariant
    (I := fun st => InStep st ∧ st.1.RulesLoaded) (fun _ _ hx hi => ?_) ⟨h, hrules⟩
  exact ⟨hi.1.atom hx.1.1 hx.1.2 hx.2, atom_rulesLoaded hx.1.1 hi.2⟩

theorem inStep_fresh : InStep (fresh, []) where
  consistent := consistent_fresh
  sound := livenessSound_fresh
  breaches := fun c a ha => absurd ha (by simp [fresh])
  recorded := fun c => .of_none fun _ hrow => absurd hrow not_mem_nil

theorem inStep_run {ops : List Op} (hok : Along (fun s op => op.Ok s) step fresh ops)
    (hlater : Meets OpDatesLater (logged step) (fresh, []) ops) :
    InStep (emitAll step fresh ops) := by
  have hrun := ((hok.logged []).and hlater).invariant
    (I := fun st => InStep st ∧ st.1.RulesLoaded) (fun _ _ hop hi => hi.1.op hi.2 hop.1 hop.2)
    ⟨inStep_fresh, fun _ _ => rfl⟩
  rw [foldl_logged] at hrun
  exact hrun.1

end AlertManager

/-! ### The open rows -/

/-- The table of the rows of a run, with the id and the moment of each writing. -/
def historyOf (stamp : Nat → Uuid × UnixMs) (acts : List NotifyAction) : HistoryTable :=
  (acts.filterMap historyRow).mapIdx fun i x => .ofAlert (stamp i).1 (stamp i).2 x.1 x.2

section
variable {stamp : Nat → Uuid × UnixMs} {acts : List NotifyAction}

/-- What the open rows are read from: the rows of a check are those of its actions. -/
structure HistoryRow.Of (x : Alert × Bool) (r : HistoryRow) : Prop where
  check : r.check = x.1.check
  time : r.atUnixMs = x.1.atUnixMs
  severity : r.severity = x.1.severity
  state : r.state = x.1.state
  resolved : r.resolved = x.2

theorem rowsOf_eq (c : CheckId) (acts : List NotifyAction) :
    rowsOf c acts = (acts.filterMap historyRow).filter fun x => decide (x.1.check = c) := by
  rw [rowsOf, filter_filterMap, filterMap_filter]
  refine filterMap_congr fun act _ => ?_
  cases act with
  | fire a | resolve a =>
    by_cases h : a.check = c <;>
      simp [historyRow, NotifyAction.check, NotifyAction.alert, Option.filter, h]
  | suppress a => exact ite_self none

variable {c : CheckId} {r : HistoryRow}
variable {x : Alert × Bool} {n : HistoryRow}

theorem mem_rowsOf : x ∈ rowsOf c acts ↔ x ∈ acts.filterMap historyRow ∧ x.1.check = c := by
  rw [rowsOf_eq, mem_filter, decide_eq_true_eq]

theorem exists_of_mem_historyOf (hr : r ∈ historyOf stamp acts) :
    ∃ x ∈ rowsOf r.check acts, HistoryRow.Of x r := by
  obtain ⟨i, hi, rfl⟩ := mem_mapIdx.1 hr
  exact ⟨_, mem_rowsOf.2 ⟨getElem_mem hi, rfl⟩, rfl, rfl, rfl, rfl, rfl⟩

theorem exists_mem_historyOf (stamp : Nat → Uuid × UnixMs) (hx : x ∈ rowsOf c acts) :
    ∃ r ∈ historyOf stamp acts, HistoryRow.Of x r := by
  obtain ⟨hx, -⟩ := mem_rowsOf.1 hx
  obtain ⟨i, hi, rfl⟩ := mem_iff_getElem.1 hx
  exact ⟨_, mem_mapIdx.2 ⟨i, hi, rfl⟩, rfl, rfl, rfl, rfl, rfl⟩

/-- A row with a later time comes after. -/
theorem transitionKey_lt_of_time (h : r.atUnixMs < n.atUnixMs) :
    r.transitionKey < n.transitionKey :=
  Prod.Lex.toLex_lt_toLex.2 (.inl h)

/-- A Resolve comes after a Fire that is not later. -/
theorem transitionKey_lt_of_resolve (h : r.atUnixMs ≤ n.atUnixMs) (hr : r.resolved = false)
    (hn : n.resolved = true) : r.transitionKey < n.transitionKey := by
  rcases h.lt_or_eq with h | h
  · exact transitionKey_lt_of_time h
  · refine Prod.Lex.toLex_lt_toLex.2 (.inr ⟨h, Prod.Lex.toLex_lt_toLex.2 (.inl ?_)⟩)
    simp [hr, hn]

/-- An open row is a Fire of the announced alert of its check. -/
theorem Recorded.of_mem_openRows {b : Option Alert} (hr : r ∈ (historyOf stamp acts).openRows)
    (h : Recorded b (rowsOf r.check acts)) :
    ∃ a, b = some a ∧ a.notifyHeldUntil = none ∧ r.severity = a.severity ∧ r.state = a.state := by
  obtain ⟨hmem, hfire, hlatest⟩ := HistoryTable.mem_openRows.1 hr
  rw [HistoryTable.not_hasNewer_iff] at hlatest
  obtain ⟨x, hx, hof⟩ := exists_of_mem_historyOf hmem
  -- No row of the check comes after this one.
  have hlast : ∀ y ∈ rowsOf r.check acts, ∃ n, HistoryRow.Of y n ∧
      n.transitionKey ≤ r.transitionKey := by
    intro y hy
    obtain ⟨n, hn, hofn⟩ := exists_mem_historyOf stamp hy
    exact ⟨n, hofn, hlatest n hn (hofn.check.trans (mem_rowsOf.1 hy).2)⟩
  cases hopen : announced b with
  | false =>
    obtain ⟨y, hy, hresolve, hle⟩ := h.closed hopen x hx (hof.resolved ▸ hfire)
    obtain ⟨n, hofn, hnle⟩ := hlast y hy
    refine absurd hnle (not_le_of_gt (transitionKey_lt_of_resolve ?_ hfire ?_))
    · rw [hof.time, hofn.time]
      exact hle
    · rw [hofn.resolved, hresolve]
  | true =>
    obtain ⟨a, rfl, hnone⟩ := announced_iff.1 hopen
    refine ⟨a, rfl, hnone, ?_⟩
    rcases h.earlier a rfl x hx with hearlier | hown
    · obtain ⟨y, hy, hown⟩ := h.fire a rfl hnone
      obtain ⟨n, hofn, hnle⟩ := hlast y hy
      refine absurd hnle (not_le_of_gt (transitionKey_lt_of_time ?_))
      rw [hof.time, hofn.time, hown.time]
      exact hearlier
    · exact ⟨hof.severity.trans hown.2.severity, hof.state.trans hown.2.state⟩

/-- An announced alert has an open row. -/
theorem Recorded.exists_openRow {a : Alert} (h : Recorded (some a) (rowsOf c acts))
    (hnone : a.notifyHeldUntil = none) : ∃ r ∈ (historyOf stamp acts).openRows, r.check = c := by
  obtain ⟨y, hy, hfire⟩ := h.fire a rfl hnone
  obtain ⟨r, hr, hof⟩ := exists_mem_historyOf stamp hy
  have hrc : r.check = c := hof.check.trans (mem_rowsOf.1 hy).2
  obtain ⟨m, hm, hmc, hle, hlatest⟩ := HistoryTable.exists_latest hr
  refine ⟨m, HistoryTable.mem_openRows.2 ⟨hm, ?_, hlatest⟩, hmc.trans hrc⟩
  obtain ⟨x, hx, hofm⟩ := exists_of_mem_historyOf hm
  rw [hmc.trans hrc] at hx
  rcases h.earlier a rfl x hx with hearlier | hown
  · -- The latest row cannot be earlier than the Fire.
    refine absurd hle (not_le_of_gt (transitionKey_lt_of_time ?_))
    rw [hof.time, hofm.time, hfire.time]
    exact hearlier
  · rw [hofm.resolved, hown.2.fire]

end

namespace AlertManager

/-- At the end of every run from a fresh start whose steps date later, the checks with an open row
are those with an active alert whose notification is not held. The row has the severity and the
state of the alert, and a restart restores those checks. -/
theorem openRows_exact {ops : List Op} (hok : Along (fun s op => op.Ok s) step fresh ops)
    (hlater : Meets OpDatesLater (logged step) (fresh, []) ops) (stamp : Nat → Uuid × UnixMs) :
    (∀ c, (∃ r ∈ (historyOf stamp (emitAll step fresh ops).2).openRows, r.check = c) ↔
      ∃ a, (emitAll step fresh ops).1.active c = some a ∧ a.notifyHeldUntil = none) ∧
    (∀ r ∈ (historyOf stamp (emitAll step fresh ops).2).openRows,
      ∀ a, (emitAll step fresh ops).1.active r.check = some a →
        r.severity = a.severity ∧ r.state = a.state) ∧
    ∀ c, ((restored ((historyOf stamp (emitAll step fresh ops).2).openRows.map
        (·.toAlertHistoryRow))).active c).isSome ↔
      ∃ a, (emitAll step fresh ops).1.active c = some a ∧ a.notifyHeldUntil = none := by
  have hrun := inStep_run hok hlater
  have hopen : ∀ c, (∃ r ∈ (historyOf stamp (emitAll step fresh ops).2).openRows, r.check = c) ↔
      ∃ a, (emitAll step fresh ops).1.active c = some a ∧ a.notifyHeldUntil = none := by
    intro c
    constructor
    · rintro ⟨r, hr, rfl⟩
      obtain ⟨a, ha, hnone, -⟩ := (hrun.recorded r.check).of_mem_openRows hr
      exact ⟨a, ha, hnone⟩
    · rintro ⟨a, ha, hnone⟩
      exact (ha ▸ hrun.recorded c).exists_openRow hnone
  refine ⟨hopen, fun r hr a ha => ?_, fun c => ?_⟩
  · obtain ⟨b, hb, -, htold⟩ := (hrun.recorded r.check).of_mem_openRows hr
    cases ha.symm.trans hb
    exact htold
  · rw [restored_active_isSome, ← hopen c]
    simp

/-! ### Two runs -/

/-- Node 1 goes down, recovers, and goes down again. -/
def twiceDownOps (t t' : UnixMs) : List Op :=
  [.setConfig (AlertConfig.new [livenessRule 1] [plainNode 1, plainNode 2]) rfl,
    pollOp 1 .unreachable 10, pollOp 1 .reachable t, pollOp 1 .unreachable t']

/-- The rows are numbered as they are written. -/
def numbered (i : Nat) : Uuid × UnixMs := (i, i)

/-- The second outage is open in the log. -/
theorem openRows_exact_twice_down :
    Along (fun s op => op.Ok s) step fresh (twiceDownOps 20 30) ∧
    Meets OpDatesLater (logged step) (fresh, []) (twiceDownOps 20 30) ∧
    ∃ r ∈ (historyOf numbered (emitAll step fresh (twiceDownOps 20 30)).2).openRows,
      r.check = livenessCheck 1 := by
  have hok : Along (fun s op => op.Ok s) step fresh (twiceDownOps 20 30) :=
    ok_of_fresh_run (by decide +kernel)
  have hlater : Meets OpDatesLater (logged step) (fresh, []) (twiceDownOps 20 30) := by
    decide +kernel
  refine ⟨hok, hlater, ((openRows_exact hok hlater numbered).1 (livenessCheck 1)).2 ?_⟩
  exact announced_iff.1 (by decide +kernel)

/-- The second outage is found by a poller whose clock is slow. The alert is active, and the log has
no open row. -/
theorem slow_clock_hides_outage :
    Along (fun s op => op.Ok s) step fresh (twiceDownOps 4 5) ∧
    (∃ a, (emitAll step fresh (twiceDownOps 4 5)).1.active (livenessCheck 1) = some a ∧
      a.notifyHeldUntil = none) ∧
    (historyOf numbered (emitAll step fresh (twiceDownOps 4 5)).2).openRows = [] := by
  refine ⟨ok_of_fresh_run (by decide +kernel), announced_iff.1 ?_, ?_⟩ <;> decide +kernel

end AlertManager

end Yagra
