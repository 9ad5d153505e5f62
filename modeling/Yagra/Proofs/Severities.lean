import Yagra.Proofs.Notifier
import Yagra.Proofs.Runs

/-!
# `Yagra.Proofs.Severities`: every delivered incident is closed

The key a notification is deduplicated by, and the id of the incident it opens at the vendor,
both contain the alert's severity. `incidents_closed` follows them across the engine, the
notifier and one channel that takes every call, without delivery hours. In a run in which no
alert is opened over an active one, the channel keeps a key only while the alert with that key
is active, announced and not rolled up. So when a check has no active alert, every incident of
it has been closed, and its next fire is delivered.

An alert that goes from Warning to Critical is replaced in the active set by one of another
severity. The incident of the first key gets no resolve: the resolve at the end is for the
second key only. `escalated_incident_left_open` is such a run. The warning incident stays
open, and the next warning of the check is suppressed as its duplicate.
-/

set_option autoImplicit false

namespace Yagra

open Yagra.Lib AlertManager List

/-!
## Ticks of the engine and the notifier

The release loop of the notifier runs beside the engine. It may read the active alerts between
any two atomic steps of an operation. `Tick` is a step of the two together at that grain: one
atomic step of the engine, whose actions are handled, or one turn of the release loop.

An operation is the ticks of its atoms (`perform_eq_ticks`), so what holds of every sequence of
ticks holds of operations and release passes in any order. In one tick of the engine each check
makes at most one move, and the notifier handles at most one action about it
(`tick_relation`).
-/

/-- The slot holds the announced alert of an incident: it is under the key, not rolled up, and
its notification is not held. -/
def Owns (b : Option Alert) (key : DedupKey) : Prop :=
  ∃ a, b = some a ∧ a.dedupKey = key ∧ a.rootCause = none ∧ a.notifyHeldUntil = none

theorem owns_some {a : Alert} {key : DedupKey} :
    Owns (some a) key ↔ a.dedupKey = key ∧ a.rootCause = none ∧ a.notifyHeldUntil = none := by
  simp [Owns]

theorem not_owns_none {key : DedupKey} : ¬ Owns none key := by
  simp [Owns]

/-- Two versions of one incident have the same key. -/
theorem SameIncident.dedupKey {a a' : Alert} (h : SameIncident a a') :
    a'.dedupKey = a.dedupKey := by
  simp [Alert.dedupKey, h.check, h.subject, h.severity]

/-! ### Ticks -/

/-- One step of the engine and the notifier together. -/
inductive Tick where
  /-- An atomic step of the engine, with its actions handled at `now`. -/
  | engine (x : Atom) (now : UnixMs)
  /-- A turn of the release loop, which reads the active alerts in the given order. -/
  | release (order : List CheckId) (now : UnixMs)

namespace Deployment

section
variable {σ : Type} [NotifyChannel σ]

variable (d : Deployment σ)

/-- One step. -/
def tick : Tick → Deployment σ × List NotifyAction
  | .engine x now =>
    match d.engine.atomStep x with
    | (engine, actions) => (⟨engine, d.notifier.handleAll now actions⟩, actions)
  | .release order now => (d.releasePass order now, [])

/-- The ticks of atomic steps are a run of the engine whose actions are handled in order. -/
theorem ticks_eq (l : List Atom) (now : UnixMs) :
    (emitAll tick d (l.map (Tick.engine · now))).1
      = ⟨(emitAll atomStep d.engine l).1,
          d.notifier.handleAll now (emitAll atomStep d.engine l).2⟩ := by
  induction l generalizing d with
  | nil => rfl
  | cons x rest ih =>
    rw [map_cons, emitAll_cons_fst, ih, emitAll_cons]
    simp only [tick, Notifier.handleAll, foldl_append]

/-- An operation is the ticks of its atoms. -/
theorem perform_eq_ticks (op : Op) (now : UnixMs) :
    d.perform op now = (emitAll tick d ((op.atoms d.engine).map (Tick.engine · now))).1 := by
  rw [ticks_eq, ← step_eq_atoms]
  rfl

/-- The tick is fit to be taken: an atomic step promises what it has to, and a release pass reads
all the active alerts. -/
def TickOk : Tick → Prop
  | .engine x _ => AtomOk d.engine x
  | .release order _ => Enumerates order d.engine.active

/-- Operations in order, each with the time its actions are handled at. -/
def performAll (ops : List (Op × UnixMs)) : Deployment σ :=
  ops.foldl (fun d p => d.perform p.1 p.2) d

/-- The invariant rule for operations: what every tick of an atomic step keeps, in a consistent
engine and under a condition on the step, holds after operations whose atoms all meet the
condition. -/
theorem performAll_invariant {I : Deployment σ → Prop} {ok : AlertManager → Atom → Prop}
    (hstep : ∀ d x now, d.engine.Consistent → AtomOk d.engine x → ok d.engine x → I d →
      I (d.tick (.engine x now)).1)
    {d : Deployment σ} (hs : d.engine.Consistent) {ops : List (Op × UnixMs)}
    (hops : Along (fun s op => op.Ok s) step d.engine (ops.map Prod.fst))
    (hok : Along (AlertManager.EachAtom ok) step d.engine (ops.map Prod.fst))
    (hi : I d) : I (d.performAll ops) := by
  have hatoms : ∀ (l : List Atom) (now : UnixMs) (d : Deployment σ), d.engine.Consistent →
      Along AtomOk atomStep d.engine l → Along ok atomStep d.engine l →
      I d → I (emitAll tick d (l.map (Tick.engine · now))).1 := by
    intro l now
    induction l with
    | nil => exact fun d _ _ _ hi => hi
    | cons x rest ih =>
      intro d hs hx hok hi
      have hcons := atom_consistent hs hx.1
      exact ih (d.tick (.engine x now)).1 hcons hx.2 hok.2 (hstep d x now hs hx.1 hok.1 hi)
  induction ops generalizing d with
  | nil => exact hi
  | cons p rest ih =>
    refine ih (d := d.perform p.1 p.2) (step_consistent hs hops.1) hops.2 hok.2 ?_
    rw [perform_eq_ticks]
    exact hatoms _ _ d hs (atomOk_atoms hops.1) hok.1 hi

end

/-- The rule for one tick of the engine, at one check: a relation between the check's slot and
the notifier that actions about other checks keep, and that the check's own move takes from
`J` to `J'`, holds after the tick. -/
theorem tick_relation {d : Deployment CallLog} {x : Atom} {P : Option Alert → Alert → Prop}
    (now : UnixMs) (c : CheckId) (J J' : Notifier CallLog → Prop)
    (hs : d.engine.Consistent) (hx : AtomOk d.engine x)
    (hP : AlertManager.OpensWith P d.engine x)
    (hJ : ∀ n y, y.check ≠ c → J n → J (n.handleAt y now))
    (hJ' : ∀ n y, y.check ≠ c → J' n → J' (n.handleAt y now))
    (hstep : ∀ acts n, (∀ y ∈ acts, y ∈ (d.engine.atomStep x).2) →
      Move P c (d.engine.active c) acts ((d.engine.atomStep x).1.active c) →
      J n → J' (n.handleAll now acts))
    (hj : J d.notifier) : J' (d.tick (.engine x now)).1.notifier := by
  have hmove := (atom_effect hs hx hP).1 c
  refine foldl_of_filter (p := fun y => decide (y.check = c)) hmove.length_le
    (fun n y hy => hJ n y (by simpa using hy)) (fun n y hy => hJ' n y (by simpa using hy)) ?_ hj
  exact fun n hj => hstep _ n (fun y hy => (mem_filter.1 hy).1) hmove hj

end Deployment

/-! ### Operations and release passes -/

/-- An operation of the engine, or a release pass. -/
inductive Job where
  | perform (op : Op) (now : UnixMs)
  | release (order : List CheckId) (now : UnixMs)

namespace Job

/-- What a job does to the engine. -/
def engineStep (s : AlertManager) : Job → AlertManager.Outcome
  | .perform op _ => s.step op
  | .release _ _ => (s, [])

/-- The ticks of a job. -/
def ticks (s : AlertManager) : Job → List Tick
  | .perform op now => (op.atoms s).map (Tick.engine · now)
  | .release order now => [.release order now]

/-- The ticks of jobs, from a state of the engine. -/
def allTicks : AlertManager → List Job → List Tick
  | _, [] => []
  | s, job :: rest => job.ticks s ++ allTicks (job.engineStep s).1 rest

/-- The job opens alerts on the listed checks only, and goes over the maps in the order of the
list. -/
def Within (order : List CheckId) (s : AlertManager) : Job → Prop
  | .perform op _ => AlertManager.Within order s op
  | .release o _ => o = order

instance (order : List CheckId) (s : AlertManager) : ∀ job, Decidable (Within order s job)
  | .perform op _ => inferInstanceAs (Decidable (AlertManager.Within order s op))
  | .release o _ => inferInstanceAs (Decidable (o = order))

end Job

namespace Deployment

variable {σ : Type} [NotifyChannel σ]

/-- The ticks of atomic steps that promise what they have to are fit to be taken. -/
theorem tickOk_engine {d : Deployment σ} {l : List Atom} (now : UnixMs)
    (h : Along AtomOk atomStep d.engine l) :
    Along TickOk tick d (l.map (Tick.engine · now)) := by
  induction l generalizing d with
  | nil => trivial
  | cons x rest ih => exact ⟨h.1, ih (d := (d.tick (.engine x now)).1) h.2⟩

/-- The ticks of jobs over few checks are fit to be taken, and leave alerts on those checks
only. -/
theorem tickOk_of_within {order : List CheckId} (hn : order.Nodup) {d : Deployment σ}
    (hs : d.engine.Consistent) (hcov : ∀ c, (d.engine.active c).isSome → c ∈ order)
    {jobs : List Job} (h : Along (Job.Within order) Job.engineStep d.engine jobs) :
    Along TickOk tick d (Job.allTicks d.engine jobs) ∧
      Enumerates order (emitAll tick d (Job.allTicks d.engine jobs)).1.engine.active := by
  induction jobs generalizing d with
  | nil => exact ⟨trivial, hn, hcov⟩
  | cons job rest ih =>
    cases job with
    | perform op now =>
      obtain ⟨hok, hcons, hcov'⟩ := step_within hn hs hcov h.1
      have hperform : (emitAll tick d ((Job.perform op now).ticks d.engine)).1
          = d.perform op now := (d.perform_eq_ticks op now).symm
      obtain ⟨hrest, henum⟩ := ih (d := d.perform op now) hcons hcov' h.2
      rw [Job.allTicks, emitAll_append, along_append, hperform]
      exact ⟨⟨tickOk_engine now (atomOk_atoms hok), hrest⟩, henum⟩
    | release o now =>
      obtain rfl : o = order := h.1
      obtain ⟨hrest, henum⟩ := ih (d := d.releasePass o now) hs hcov h.2
      exact ⟨⟨⟨hn, hcov⟩, hrest⟩, henum⟩

end Deployment

/-! ### Small runs

A channel that takes every call, for every severity, and one node with bounds on a metric. -/

/-- The id of the channel. -/
def pager : Uuid := 7

/-- A notifier that routes every severity to the channel. -/
def pagerNotifier (hours : HoursPolicy) : Notifier CallLog where
  default := none
  channels := fun id => if id = pager then some (.new .empty ⟨3⟩) else none
  rules := [⟨true, none, [pager]⟩]
  sides := fun _ => none
  hours := hours
  held := some .empty

theorem pagerNotifier_matched (hours : HoursPolicy) (severity : Severity) :
    pager ∈ (pagerNotifier hours).matched severity := by
  simp [Notifier.matched, pagerNotifier, ruleMatchesSeverity]

/-- The checks of the node. -/
def cpuChecks : List CheckId := [livenessCheck 1, checkId 1 (.metric cpu)]

/-- The key of the metric's alert at a severity. -/
def cpuKey (severity : Severity) : DedupKey := ⟨.node 1, checkId 1 (.metric cpu), severity⟩

/-- A result of the node with one reading of the metric. -/
def reading (value : F64) (t : UnixMs) : Op := .observe (cpuPoll .reachable [value] t) [] cpuChecks

/-- The node with bounds on the metric. -/
def cpuConfig (bounds : ThresholdBounds) : AlertConfig :=
  AlertConfig.new [cpuRule bounds] [plainNode 1]

/-- A run of the node from an empty engine is fit to run. -/
theorem ok_of_cpu_run {ops : List Op}
    (h : Along (AlertManager.Within cpuChecks) step fresh ops) :
    Along (fun s op => op.Ok s) step fresh ops :=
  ok_of_within (by decide) consistent_fresh (by simp [fresh]) h

/-! ## Incidents -/

/-- A move takes keys that the slot owns to keys that it owns. `K` and `K'` are the keys a
channel keeps before and after the move's actions. -/
theorem Move.owns {c : CheckId} {b b' : Option Alert} {acts : List NotifyAction}
    (h : Move (fun b _ => b = none) c b acts b') (K K' : DedupKey → Prop)
    (hK : ∀ k, K k → Owns b k)
    (hK' : ∀ k, K' k → (∃ x ∈ acts, x.announces k = true) ∨ K k ∧ ∀ x ∈ acts, x.ends k = false) :
    ∀ k, K' k → Owns b' k := by
  have hannounced : ∀ {a : Alert} {k : DedupKey}, a.notifyHeldUntil = none →
      (NotifyAction.fire a).announces k = true → Owns (some a) k := by
    intro a k hh hx
    obtain ⟨hroot, hkey⟩ : a.rootCause = none ∧ a.dedupKey = k := by
      simpa [NotifyAction.announces] using hx
    exact owns_some.2 ⟨hkey, hroot, hh⟩
  intro k hk
  have hkept : acts = [] → Owns b k := by
    rintro rfl
    rcases hK' k hk with ⟨x, hx, _⟩ | ⟨hk, _⟩
    · cases hx
    · exact hK k hk
  cases h with
  | stay => exact hkept rfl
  | opened hp hok hh =>
    subst hp
    rcases hK' k hk with ⟨x, hx, hann⟩ | ⟨hk, _⟩
    · rw [mem_singleton.1 hx] at hann
      exact hannounced hh hann
    · exact absurd (hK k hk) not_owns_none
  | holding hp hok hh =>
    subst hp
    exact absurd (hkept rfl) not_owns_none
  | closed hh =>
    rcases hK' k hk with ⟨x, hx, hann⟩ | ⟨hk, hends⟩
    · rw [mem_singleton.1 hx] at hann
      cases hann
    · obtain ⟨hkey, hroot, _⟩ := owns_some.1 (hK k hk)
      have := hends (.resolve _) mem_cons_self
      simp [NotifyAction.ends, hroot, hkey] at this
  | dropped hh =>
    obtain ⟨_, _, hnot⟩ := owns_some.1 (hkept rfl)
    simp [hnot] at hh
  | refired hs hh hr =>
    rcases hK' k hk with ⟨x, hx, hann⟩ | ⟨hk, _⟩
    · rw [mem_singleton.1 hx] at hann
      exact hannounced hh hann
    · obtain ⟨hkey, hroot, hnot⟩ := owns_some.1 (hK k hk)
      exact owns_some.2 ⟨hs.dedupKey.trans hkey, hr hnot hroot, hh⟩
  | retagged hs hroot hh =>
    obtain ⟨_, hnot, _⟩ := owns_some.1 (hkept rfl)
    simp [hnot] at hroot
  | suppressed hs hh hh' hroot hroot' =>
    rcases hK' k hk with ⟨x, hx, hann⟩ | ⟨hk, hends⟩
    · rw [mem_singleton.1 hx] at hann
      cases hann
    · obtain ⟨hkey, _, _⟩ := owns_some.1 (hK k hk)
      have := hends (.suppress _) mem_cons_self
      simp [NotifyAction.ends, hs.dedupKey.trans hkey] at this

/-! ### Without delivery hours -/

namespace Notifier

variable {n : Notifier CallLog}

/-- Without a delivery-hours policy nothing is held. -/
theorem handleAt_of_isEmpty (h : n.hours.isEmpty = true) (x : NotifyAction) (now : UnixMs) :
    n.handleAt x now = n.deliver x := by
  simp [handleAt, holdIfClosed, h]

/-- Every severity is routed to the channel, and no delivery hours are kept. -/
structure RoutesAll (ch : Uuid) (n : Notifier CallLog) : Prop where
  channel : (n.channels ch).isSome
  hours : n.hours.isEmpty = true
  matched : ∀ severity, ch ∈ n.matched severity

/-- The keys of check `c` the channel keeps are those of the alert in the check's slot. -/
def KeepsOwned (ch : Uuid) (c : CheckId) (b : Option Alert) (n : Notifier CallLog) : Prop :=
  ∀ d, n.channels ch = some d → ∀ k, k.check = c → d.keeps k = true → Owns b k

variable {x : NotifyAction} {b : Option Alert} {ch : Uuid}

theorem RoutesAll.handleAt (h : RoutesAll ch n) (x : NotifyAction) (now : UnixMs) :
    RoutesAll ch (n.handleAt x now) := by
  rw [handleAt_of_isEmpty h.hours]
  have hd := deliver_delivered n x
  obtain ⟨changed, hch⟩ := hd.channel ch h.matched
  refine ⟨by simpa [hch] using h.channel, by rw [hd.hours]; exact h.hours, fun severity => ?_⟩
  simp only [Notifier.matched, hd.rules]
  exact h.matched severity

/-- What a channel keeps after an action, in terms of what it kept before. -/
theorem keeps_handleAt (h : RoutesAll ch n) {now : UnixMs} {d' : Dispatcher CallLog}
    (hd' : (n.handleAt x now).channels ch = some d') :
    ∃ d, n.channels ch = some d ∧ ∀ k, d'.keeps k = true →
      x.announces k = true ∨ d.keeps k = true ∧ x.ends k = false := by
  rw [handleAt_of_isEmpty h.hours] at hd'
  obtain ⟨changed, hch⟩ := (deliver_delivered n x).channel ch h.matched
  rw [hch] at hd'
  obtain ⟨d, hd, rfl⟩ := Option.map_eq_some_iff.1 hd'
  exact ⟨d, hd, fun k => Dispatcher.keeps_act⟩

theorem check_of_announces {k : DedupKey} (h : x.announces k = true) : k.check = x.check := by
  cases x with
  | fire a =>
    have hk : a.dedupKey = k := by simp_all [NotifyAction.announces]
    rw [← hk]
    rfl
  | resolve a | suppress a => cases h

/-- An action about another check changes nothing. -/
theorem KeepsOwned.handleAt_of_ne {c : CheckId} (hr : RoutesAll ch n) (h : KeepsOwned ch c b n)
    (hx : x.check ≠ c) (now : UnixMs) : KeepsOwned ch c b (n.handleAt x now) := by
  intro d' hd' k hk hkeeps
  obtain ⟨d, hd, hof⟩ := keeps_handleAt hr hd'
  rcases hof k hkeeps with hann | ⟨hkept, _⟩
  · exact absurd ((check_of_announces hann).symm.trans hk) hx
  · exact h d hd k hk hkept

/-- The actions of a move keep the relation. -/
theorem KeepsOwned.handleAll {c : CheckId} {b' : Option Alert} {acts : List NotifyAction}
    (hmove : Move (fun b _ => b = none) c b acts b') (hr : RoutesAll ch n) (h : KeepsOwned ch c b n)
    (now : UnixMs) :
    RoutesAll ch (n.handleAll now acts) ∧ KeepsOwned ch c b' (n.handleAll now acts) := by
  cases acts with
  | nil =>
    refine ⟨hr, fun d hd k hk hkeeps => ?_⟩
    exact hmove.owns (fun k => k.check = c ∧ d.keeps k = true)
      (fun k => k.check = c ∧ d.keeps k = true) (fun k hk => h d hd k hk.1 hk.2)
      (fun k hk => .inr ⟨hk, by simp⟩) k ⟨hk, hkeeps⟩
  | cons x rest =>
    obtain rfl : rest = [] := eq_nil_of_length_eq_zero (by simpa using hmove.length_le)
    refine ⟨hr.handleAt x now, fun d' hd' k hk hkeeps => ?_⟩
    obtain ⟨d, hd, hof⟩ := keeps_handleAt hr hd'
    refine hmove.owns (fun k => k.check = c ∧ d.keeps k = true)
      (fun k => k.check = c ∧ d'.keeps k = true) (fun k hk => h d hd k hk.1 hk.2)
      (fun k hk => ?_) k ⟨hk, hkeeps⟩
    simpa [hk.1] using hof k hk.2

end Notifier

namespace AlertManager

/-- The step opens an alert on a check whose alert is active: a transition commits a state with
a severity, or another component raises an alert of another severity. -/
def overwrites (s : AlertManager) : Atom → Bool
  | .check _ _ raw t spec =>
    spec.alerting && (s.active spec.check).isSome &&
      (s.transitionOf raw t spec).any fun tr => tr.state.severity.isSome
  | .raise a => (s.active a.check).any fun b => b.severity ≠ a.severity
  | _ => false

/-- Without such a step, alerts are opened on checks without one. -/
theorem opens_of_not_overwrites {s : AlertManager} {x : Atom} (h : s.overwrites x = false) :
    OpensWith (fun b _ => b = none) s x := by
  intro c a ho
  by_contra hne
  obtain ⟨b, hb⟩ := Option.ne_none_iff_exists'.1 hne
  cases ho with
  | transition halerting hcheck htr hsev hstate hhold =>
    simp [overwrites, halerting, hb, htr, hsev] at h
  | raised hsev hhold => simp [overwrites, hb, hsev b hb] at h

end AlertManager

namespace Deployment

/-- What the channel keeps is owned by the active alerts. -/
structure Owned (ch : Uuid) (d : Deployment CallLog) : Prop where
  routes : d.notifier.RoutesAll ch
  keeps : ∀ c, d.notifier.KeepsOwned ch c (d.engine.active c)

theorem tick_owned {ch : Uuid} {d : Deployment CallLog} {x : Atom} {now : UnixMs}
    (hs : d.engine.Consistent) (hx : AtomOk d.engine x) (hno : d.engine.overwrites x = false)
    (h : Owned ch d) : Owned ch (d.tick (.engine x now)).1 := by
  have hboth : ∀ c, (d.tick (.engine x now)).1.notifier.RoutesAll ch ∧
      (d.tick (.engine x now)).1.notifier.KeepsOwned ch c
        ((d.tick (.engine x now)).1.engine.active c) := by
    intro c
    refine tick_relation now c
      (fun n => n.RoutesAll ch ∧ n.KeepsOwned ch c (d.engine.active c))
      (fun n => n.RoutesAll ch ∧ n.KeepsOwned ch c ((d.engine.atomStep x).1.active c)) hs hx
      (opens_of_not_overwrites hno) ?_ ?_ ?_ ⟨h.routes, h.keeps c⟩
    · exact fun n y hy hj => ⟨hj.1.handleAt y now, hj.2.handleAt_of_ne hj.1 hy now⟩
    · exact fun n y hy hj => ⟨hj.1.handleAt y now, hj.2.handleAt_of_ne hj.1 hy now⟩
    · exact fun acts n _ hmove hj => hj.2.handleAll hmove hj.1 now
  exact ⟨(hboth (livenessCheck 0)).1, fun c => (hboth c).2⟩

/-- In every run from the restored alerts in which no alert is opened over an active one: a check
without an active alert has no open incident on the channel, no key of it is in the dedup set at
any severity, and its next notification is delivered. -/
theorem incidents_closed {rows : List AlertHistoryRow}
    (hrows : ∀ row ∈ rows, AlertManager.RowOk row)
    {n : Notifier CallLog} {ch : Uuid} {policy : RetryPolicy} (hours : n.hours.isEmpty = true)
    (hmatched : ∀ severity, ch ∈ n.matched severity)
    (hnew : n.channels ch = some (.new .empty policy)) {ops : List (Op × UnixMs)}
    (hok : Along (fun s op => op.Ok s) step (restored rows) (ops.map Prod.fst))
    (hno : Along (AlertManager.EachAtom fun s x => s.overwrites x = false) step
      (restored rows) (ops.map Prod.fst)) :
    let final := performAll ⟨restored rows, n⟩ ops
    ∃ d, final.notifier.channels ch = some d ∧
      ∀ c, final.engine.active c = none → ∀ k, k.check = c →
        d.channel.hasIncident k = false ∧ d.active k = false ∧
          (d.dispatch ⟨k⟩).2 = .delivered 1 := by
  intro final
  have howned : Owned ch final := by
    refine performAll_invariant (d := ⟨restored rows, n⟩)
      (fun d x now hs hx hno hi => tick_owned hs hx hno hi)
      (restored_consistent hrows) hok hno ⟨⟨by simp [hnew], hours, hmatched⟩, ?_⟩
    intro c d hd k hk hkeeps
    obtain rfl : d = .new .empty policy := Option.some.inj (hd.symm.trans hnew)
    simp [Dispatcher.keeps, Dispatcher.new, CallLog.hasIncident, CallLog.empty] at hkeeps
  obtain ⟨d, hd⟩ := Option.isSome_iff_exists.1 howned.routes.channel
  refine ⟨d, hd, fun c hnone k hk => ?_⟩
  have hfree : d.keeps k = false := by
    by_contra hkeeps
    have := howned.keeps c d hd k hk (by simpa using hkeeps)
    rw [hnone] at this
    exact not_owns_none this
  obtain ⟨hactive, hincident⟩ := Bool.or_eq_false_iff.1 hfree
  exact ⟨hincident, hactive, by simp [Dispatcher.dispatch_log, hactive]⟩

/-! ### Two runs -/

/-- A warning bound and a critical bound. -/
def twoBounds : AlertConfig := cpuConfig (.above (some (.finite 80)) (some (.finite 90)))

/-- A warning that recovers. -/
def warningOps : List (Op × UnixMs) :=
  [(.setConfig twoBounds rfl, 0), (reading (.finite 85) 1, 1), (reading (.finite 10) 2, 2)]

theorem recovered_warning_closed :
    ((performAll ⟨restored [], pagerNotifier ⟨[]⟩⟩ warningOps).notifier.channels
      pager).map (fun d => (d.channel.hasIncident (cpuKey .warning), d.active (cpuKey .warning)))
      = some (false, false) := by
  have hok : Along (fun s op => op.Ok s) step (restored [])
      (warningOps.map Prod.fst) := ok_of_cpu_run (by decide +kernel)
  obtain ⟨d, hd, hclosed⟩ := incidents_closed noRows_ok rfl
    (pagerNotifier_matched ⟨[]⟩) rfl hok (by decide +kernel)
  obtain ⟨hincident, hactive, _⟩ :=
    hclosed (checkId 1 (.metric cpu)) (by decide +kernel) (cpuKey .warning) rfl
  rw [hd, Option.map_some, hincident, hactive]

/-- A warning that turns critical and then recovers. -/
def escalatedOps : List (Op × UnixMs) :=
  [(.setConfig twoBounds rfl, 0), (reading (.finite 85) 1, 1), (reading (.finite 95) 2, 2),
    (reading (.finite 10) 3, 3)]

/-- The check has no active alert. The incident of the warning was never closed, its key is still
in the dedup set, and the next warning is suppressed. -/
theorem escalated_incident_left_open :
    Along (fun s op => op.Ok s) step (restored []) (escalatedOps.map Prod.fst) ∧
    let final := performAll ⟨restored [], pagerNotifier ⟨[]⟩⟩ escalatedOps
    final.engine.active (checkId 1 (.metric cpu)) = none ∧
    (final.notifier.channels pager).map (fun d => (d.channel.hasIncident (cpuKey .warning),
      d.active (cpuKey .warning), (d.dispatch ⟨cpuKey .warning⟩).2))
      = some (true, true, .suppressed) :=
  ⟨ok_of_cpu_run (by decide +kernel), by decide +kernel, by decide +kernel⟩

end Deployment

end Yagra
