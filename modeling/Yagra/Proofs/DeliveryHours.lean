import Yagra.Proofs.HeldRows
import Yagra.Proofs.Severities

/-!
# `Yagra.Proofs.DeliveryHours`: no incident survives its alert behind delivery hours

One check, all of whose alerts have the same severity, and so one key. `OrderlyView` relates the
alert in the check's slot with what the channel was called with and what is held: an open
incident has an announced alert that is not rolled up, or a held end that will close it, and a
fire is only held for such an alert. Every tick keeps this, except in three situations
(`losesIncident`).

- An end arrives while a fire is held for the check although an earlier fire was delivered, and
  no end is held. `holdIfClosed` drops the end with the held fire, and nothing closes the
  incident.
- A release pass finds a held end and the alert active again, but its notification is held back
  by the grouping. The end is dropped as stale, and no fire went out that the next end would
  answer.
- An alert is opened over an active one of the same severity. The engine only does this after it
  has lost track of a restored alert.

`held_incidents_closed` is about every sequence of ticks without them: once the alert is resolved
and a release pass has run in open hours, the channel has no incident of the check, and the
channel gets no resolve while the alert is active and not rolled up.
`night_refire_left_open` are two runs in which an incident stays open forever.
-/

set_option autoImplicit false

namespace Yagra

open Yagra.Lib AlertManager List
open NotifyAction

/-! ### Incidents in a log -/

/-- Only the calls about a key's check matter to its incident. -/
theorem CallLog.hasIncident_filter (l : List ChannelCall) (key : DedupKey) :
    hasIncident ⟨l.filter fun call => call.key.check = key.check⟩ key = hasIncident ⟨l⟩ key := by
  unfold hasIncident
  rw [foldl_filter]
  congr 1
  funext incident call
  by_cases hc : call.key.check = key.check
  · simp [hc]
  · have hne : call.key ≠ key := fun he => hc (by rw [he])
    cases call with
    | deliver k | resolve k =>
      have hne : k ≠ key := hne
      simp [hc, record, hne]

/-- After calls of one kind the incident is open, or closed. -/
theorem CallLog.hasIncident_append {l ext : List ChannelCall} {key : DedupKey} {live : Bool}
    (hext : ∀ call ∈ ext, call = Notifier.callFor key live) :
    hasIncident ⟨l ++ ext⟩ key = if ext = [] then hasIncident ⟨l⟩ key else live := by
  have hrec : ∀ incident, record key incident (Notifier.callFor key live) = live := by
    intro incident
    cases live <;> simp [Notifier.callFor, record]
  induction ext using reverseRecOn with
  | nil => simp
  | append_singleton rest call _ =>
    have hcall := hext call (by simp)
    simp only [hasIncident, foldl_append, foldl_cons, foldl_nil, hcall, hrec]
    simp

namespace Notifier

/-- Whether the channel has an open incident under a key. -/
def hasIncident (n : Notifier CallLog) (ch : Uuid) (key : DedupKey) : Bool :=
  CallLog.hasIncident ⟨n.log ch⟩ key

/-- How many resolves the channel has taken for a key. -/
def resolves (n : Notifier CallLog) (ch : Uuid) (key : DedupKey) : Nat :=
  (n.log ch).count (.resolve key)

namespace View

/-- Whether the calls about a check leave its incident open. -/
def hasIncident (v : View) (key : DedupKey) : Bool := CallLog.hasIncident ⟨v.calls⟩ key

/-- A fire is held. -/
def holdsFire (v : View) : Bool := v.rows.any fun row => row.event = .fire

/-- The end of an alert is held. -/
def holdsEnd (v : View) : Bool := v.rows.any fun row => row.event ≠ .fire

theorem holdsFire_iff {v : View} : v.holdsFire = true ↔ ∃ row ∈ v.rows, row.event = .fire := by
  simp [holdsFire]

theorem holdsEnd_iff {v : View} : v.holdsEnd = true ↔ ∃ row ∈ v.rows, row.event ≠ .fire := by
  simp [holdsEnd]

/-- Handling the action drops the only thing that would close an open incident. -/
def dropsEnd (v : View) (key : DedupKey) (x : NotifyAction) : Bool :=
  decide (x.check = key.check) && decide (heldEvent x ≠ .fire) && v.holdsFire &&
    v.hasIncident key && !v.holdsEnd

end View

theorem hasIncident_view (n : Notifier CallLog) (ch : Uuid) (key : DedupKey) :
    (n.view ch key.check).hasIncident key = n.hasIncident ch key :=
  CallLog.hasIncident_filter _ _

theorem resolves_view (n : Notifier CallLog) (ch : Uuid) (key : DedupKey) :
    (n.view ch key.check).calls.count (.resolve key) = n.resolves ch key :=
  count_filter (by simp [ChannelCall.key])

/-! ### What relates the alert and the view -/

/-- An open incident has its alert or a held end, and a held fire has its alert. -/
structure OrderlyView (key : DedupKey) (b : Option Alert) (v : View) : Prop where
  rowsFor : ∀ row ∈ v.rows, RowFor key row
  severity : ∀ a, b = some a → a.severity = key.severity
  incident : v.hasIncident key = true → Owns b key ∨ v.holdsEnd = true
  fires : v.holdsFire = true → Owns b key

namespace OrderlyView

variable {key : DedupKey} {b b' : Option Alert} {v v' : View}

/-- An alert that owns no incident may go, or be replaced. -/
theorem of_not_owns (h : OrderlyView key b v) (hnot : ¬ Owns b key)
    (hsev : ∀ a, b' = some a → a.severity = key.severity) : OrderlyView key b' v where
  rowsFor := h.rowsFor
  severity := hsev
  incident := fun hi => .inr ((h.incident hi).resolve_left hnot)
  fires := fun hf => absurd (h.fires hf) hnot

variable {a : Alert} {x : NotifyAction}

/-- Handling a fire. A rolled-up alert is only fired where no incident is owned. -/
theorem fire (h : OrderlyView key b v) (hkey : a.dedupKey = key) (hh : a.notifyHeldUntil = none)
    (hroll : a.rootCause.isSome → ¬ Owns b key) (hv : Handled v (.fire a) v') :
    OrderlyView key (some a) v' := by
  have hsev : ∀ x, some a = some x → x.severity = key.severity := by
    rintro x ⟨⟩
    rw [← hkey]
    rfl
  -- An alert of its own owns its incident, whatever was delivered or held.
  have hown : a.rootCause = none → (∀ row ∈ v'.rows, RowFor key row) →
      OrderlyView key (some a) v' := by
    intro hroot hrows
    have ho : Owns (some a) key := owns_some.2 ⟨hkey, hroot, hh⟩
    exact ⟨hrows, hsev, fun _ => .inl ho, fun _ => ho⟩
  cases hv with
  | quiet =>
    cases hroot : a.rootCause with
    | none => exact hown hroot h.rowsFor
    | some r => exact h.of_not_owns (hroll (by simp [hroot])) hsev
  | delivered hx => exact hown (by simpa [announces, alert] using hx) h.rowsFor
  | closed hx | heldEnd hx => cases hx
  | heldFire hroot =>
    refine hown hroot fun row hrow => ?_
    rcases mem_append.1 hrow with hrow | hrow
    · exact h.rowsFor row hrow
    · rw [mem_singleton.1 hrow]
      exact ⟨hkey, by simp⟩
  | dropped hx => exact absurd rfl hx

/-- A held fire of the check is what an end of the check looks for. -/
theorem isFireOf_eq (h : OrderlyView key b v) (hx : x.alert.dedupKey = key) {row : HeldRow}
    (hrow : row ∈ v.rows) : row.isFireOf x.alert.subject x.check = decide (row.event = .fire) := by
  have hkey : row.alert.dedupKey = x.alert.dedupKey := (h.rowsFor row hrow).key.trans hx.symm
  have hsubject : row.alert.subject = x.alert.subject := by
    have := congrArg DedupKey.subject hkey
    exact this
  have hcheck : row.alert.check = x.check := by
    have := congrArg DedupKey.check hkey
    exact this
  simp [HeldRow.isFireOf, hsubject, hcheck]

theorem any_isFireOf (h : OrderlyView key b v) (hx : x.alert.dedupKey = key) :
    v.rows.any (HeldRow.isFireOf x.alert.subject x.check) = v.holdsFire := by
  rw [Bool.eq_iff_iff, View.holdsFire_iff, any_eq_true]
  refine exists_congr fun row => and_congr_right fun hrow => ?_
  rw [h.isFireOf_eq hx hrow, decide_eq_true_eq]

/-- Handling an end. Where the end closes nothing, the slot owned nothing before. -/
theorem ended (h : OrderlyView key b v) (hkey : x.alert.dedupKey = key) (hend : heldEvent x ≠ .fire)
    (hquiet : x.ends key = false → ¬ Owns b key) (hdrop : v.dropsEnd key x = false)
    (hsev : ∀ a, b' = some a → a.severity = key.severity) (hv : Handled v x v') :
    OrderlyView key b' v' := by
  cases hv with
  | quiet hends => exact h.of_not_owns (hquiet (hkey ▸ hends)) hsev
  | delivered hx => cases x <;> first | exact absurd rfl hend | cases hx
  | heldFire hroot => exact absurd rfl hend
  | closed hx hfires =>
    rw [h.any_isFireOf hkey] at hfires
    refine ⟨h.rowsFor, hsev, fun hi => ?_, fun hf => ?_⟩
    · have hlast : ∀ call ∈ [ChannelCall.resolve key], call = callFor key false := by
        simp [callFor]
      simp only [View.hasIncident, hkey, CallLog.hasIncident_append hlast] at hi
      simp at hi
    · exact absurd hf (by simp only [View.holdsFire] at hfires ⊢; simp [hfires])
  | @heldEnd _ id hx hfires =>
    rw [h.any_isFireOf hkey] at hfires
    refine ⟨fun row hrow => ?_, hsev, fun _ => .inr ?_, fun hf => ?_⟩
    · rcases mem_append.1 hrow with hrow | hrow
      · exact h.rowsFor row hrow
      · rw [mem_singleton.1 hrow]
        refine ⟨hkey, fun hev => ?_⟩
        cases x with
        | fire a | suppress a => cases hev
        | resolve a => simpa [ends, alert] using hx
    · exact View.holdsEnd_iff.2 ⟨⟨id, heldEvent x, x.alert⟩, by simp, hend⟩
    · obtain ⟨row, hrow, hev⟩ := View.holdsFire_iff.1 hf
      rcases mem_append.1 hrow with hrow | hrow
      · rw [View.holdsFire_iff.2 ⟨row, hrow, hev⟩] at hfires
        cases hfires
      · rw [mem_singleton.1 hrow] at hev
        exact absurd hev hend
  | dropped hx hfires =>
    rw [h.any_isFireOf hkey] at hfires
    refine ⟨fun row hrow => h.rowsFor row (mem_filter.1 hrow).1, hsev, fun hi => .inr ?_,
      fun hf => ?_⟩
    · -- The incident was open before, so an end is held, and that row stays.
      have hi : v.hasIncident key = true := hi
      have hcheck : x.check = key.check := by
        have := congrArg DedupKey.check hkey
        exact this
      have hheld : v.holdsEnd = true := by
        simpa [View.dropsEnd, hcheck, hend, hfires, hi] using hdrop
      obtain ⟨row, hrow, hev⟩ := View.holdsEnd_iff.1 hheld
      refine View.holdsEnd_iff.2 ⟨row, mem_filter.2 ⟨hrow, ?_⟩, hev⟩
      rw [h.isFireOf_eq hkey hrow]
      simpa using hev
    · obtain ⟨row, hrow, hev⟩ := View.holdsFire_iff.1 hf
      obtain ⟨hrow, hnot⟩ := mem_filter.1 hrow
      rw [h.isFireOf_eq hkey hrow] at hnot
      simp [hev] at hnot

/-! ### Along a move -/

/-- The alert of a check at the key's severity has the key. -/
theorem dedupKey_of_slotOk (hsubject : key.subject = key.check.subject) (hok : SlotOk key.check a)
    (hsev : a.severity = key.severity) : a.dedupKey = key := by
  cases key
  simp_all [Alert.dedupKey, hok.check, hok.subject]

/-- The alerts of the key's check are opened at its severity, and never over one of that
severity. -/
def OpensAs (key : DedupKey) (b : Option Alert) (a : Alert) : Prop :=
  a.check = key.check → a.severity = key.severity ∧ ∀ a', b = some a' → a'.severity ≠ a.severity

/-- So they are opened on an empty slot. -/
theorem opened_none (h : OrderlyView key b v) (hp : OpensAs key b a) (hok : SlotOk key.check a) :
    b = none ∧ a.severity = key.severity := by
  obtain ⟨hsev, hover⟩ := hp hok.check
  cases b with
  | none => exact ⟨rfl, hsev⟩
  | some a' => exact absurd ((h.severity a' rfl).trans hsev.symm) (hover a' rfl)

/-- A move without an action. -/
theorem move_nil (h : OrderlyView key b v) (hmove : Move (OpensAs key) key.check b [] b') :
    OrderlyView key b' v := by
  cases hmove with
  | stay => exact h
  | holding hp hok hh =>
    obtain ⟨rfl, hsev⟩ := h.opened_none hp hok
    refine h.of_not_owns not_owns_none ?_
    rintro x ⟨⟩
    exact hsev
  | dropped hh =>
    refine h.of_not_owns (fun ho => ?_) (by simp)
    simp [(owns_some.1 ho).2.2] at hh
  | retagged hs hroot hh =>
    refine h.of_not_owns (fun ho => ?_) ?_
    · simp [(owns_some.1 ho).2.1] at hroot
    · rintro x ⟨⟩
      rw [hs.severity]
      exact h.severity _ rfl

/-- A move with an action, and what handling it does. -/
theorem move_one (h : OrderlyView key b v) (hsubject : key.subject = key.check.subject)
    (hb : Filed key.check b) (hmove : Move (OpensAs key) key.check b [x] b')
    (hdrop : v.dropsEnd key x = false) (hv : Handled v x v') : OrderlyView key b' v' := by
  cases hmove with
  | opened hp hok hh =>
    obtain ⟨rfl, hsev⟩ := h.opened_none hp hok
    exact h.fire (dedupKey_of_slotOk hsubject hok hsev) hh (fun _ => not_owns_none) hv
  | @refired a a' hs hh hr =>
    have hkey : a.dedupKey = key := dedupKey_of_slotOk hsubject (hb _ rfl) (h.severity _ rfl)
    refine h.fire (hs.dedupKey.trans hkey) hh (fun hroot ho => ?_) hv
    obtain ⟨_, hnone, hheld⟩ := owns_some.1 ho
    simp [hr hheld hnone] at hroot
  | @closed a hh =>
    have hkey : a.dedupKey = key := dedupKey_of_slotOk hsubject (hb _ rfl) (h.severity _ rfl)
    refine h.ended (x := .resolve a) hkey (by simp [heldEvent]) (fun hquiet ho => ?_) hdrop
      (by simp) hv
    simp [ends, (owns_some.1 ho).2.1, hkey] at hquiet
  | @suppressed a a' hs hh hh' hroot hroot' =>
    have hkey : a.dedupKey = key := dedupKey_of_slotOk hsubject (hb _ rfl) (h.severity _ rfl)
    refine h.ended (x := .suppress a') (hs.dedupKey.trans hkey) (by simp [heldEvent])
      (fun hquiet _ => ?_) hdrop ?_ hv
    · simp [ends, hs.dedupKey.trans hkey] at hquiet
    · rintro y ⟨⟩
      rw [hs.severity]
      exact h.severity _ rfl

end OrderlyView

/-- A resolve only reaches the channel as the alert goes, or is rolled up. -/
theorem root_of_resolved {P : Option Alert → Alert → Prop} {c : CheckId} {b b' : Option Alert}
    {x : NotifyAction} {key : DedupKey} {v v' : View} (hmove : Move P c b [x] b')
    (hv : Handled v x v')
    (hmore : v.calls.count (.resolve key) < v'.calls.count (.resolve key)) :
    ∀ a, b' = some a → a.rootCause ≠ none := by
  cases hv with
  | quiet | heldFire | heldEnd | dropped => exact absurd hmore (Nat.lt_irrefl _)
  | delivered => simp [count_append] at hmore
  | closed hends =>
    cases hmove with
    | opened | refired => cases hends
    | closed hh => simp
    | suppressed hs hh hh' hroot hroot' =>
      rintro a ⟨⟩ hnone
      simp [hnone] at hroot'

end Notifier

/-! ### Along ticks -/

namespace AlertManager

/-- The step opens an alert on the check over an active one of the same severity. -/
def reopens (s : AlertManager) (c : CheckId) : Atom → Bool
  | .check _ _ raw t spec =>
    decide (spec.check = c) && spec.alerting &&
      (s.transitionOf raw t spec).any fun tr =>
        (s.active c).any fun a => tr.state.severity = some a.severity
  | _ => false

/-- The step opens an alert on the key's check at another severity. -/
def opensOther (s : AlertManager) (key : DedupKey) : Atom → Bool
  | .check _ _ raw t spec =>
    decide (spec.check = key.check) && spec.alerting &&
      (s.transitionOf raw t spec).any fun tr => tr.state.severity.any fun v => v ≠ key.severity
  | .raise a => decide (a.check = key.check) && decide (a.severity ≠ key.severity)
  | _ => false

theorem opensAs_of_not {s : AlertManager} {key : DedupKey} {x : Atom}
    (hre : s.reopens key.check x = false) (hother : s.opensOther key x = false) :
    OpensWith (Notifier.OrderlyView.OpensAs key) s x := by
  intro c a ho hc
  cases ho with
  | @transition _ _ _ _ spec tr _ halerting hcheck htr hsev hstate hhold =>
    have hspec : spec.check = key.check := hcheck.symm.trans hc
    refine ⟨?_, fun a' ha' heq => ?_⟩
    · simpa [opensOther, hspec, halerting, htr, hsev] using hother
    · rw [hspec] at ha'
      simp [reopens, hspec, halerting, htr, ha', hsev, heq] at hre
  | raised hsev hhold =>
    exact ⟨by simpa [opensOther, hc] using hother, hsev⟩

/-- The list of active alerts of a check holds the one in its slot. -/
theorem mem_activeAlerts {s : AlertManager} (hs : s.Consistent) {order : List CheckId}
    (ho : Enumerates order s.active) {a : Alert} :
    a ∈ s.activeAlerts order ↔ s.active a.check = some a := by
  unfold activeAlerts
  rw [mem_filterMap]
  constructor
  · rintro ⟨c, _, ha⟩
    rwa [(hs.slots c a ha).check]
  · intro ha
    exact ⟨a.check, ho.covers a.check (by simp [ha]), ha⟩

end AlertManager

namespace Deployment

open Notifier

variable {ch : Uuid} {key : DedupKey} {d : Deployment CallLog}

/-- The tick loses sight of an open incident of the check: it drops an end with a held fire, it
drops a held end for an alert nobody was told about, or it opens an alert over an active one. -/
def losesIncident (ch : Uuid) (key : DedupKey) (d : Deployment CallLog) : Tick → Bool
  | .engine x _ =>
    d.engine.reopens key.check x ||
      (d.engine.atomStep x).2.any fun y => (d.notifier.view ch key.check).dropsEnd key y
  | .release _ now =>
    d.notifier.hours.isOpen key.subject.asNode now && d.notifier.hasIncident ch key &&
      (d.notifier.view ch key.check).holdsEnd &&
      (d.engine.active key.check).any fun a => a.rootCause.isNone && a.notifyHeldUntil.isSome

/-- The tick opens an alert on the key's check at another severity. -/
def opensOther (key : DedupKey) (d : Deployment CallLog) : Tick → Bool
  | .engine x _ => d.engine.opensOther key x
  | .release _ _ => false

/-- What every tick keeps. -/
structure Orderly (ch : Uuid) (key : DedupKey) (d : Deployment CallLog) : Prop where
  consistent : d.engine.Consistent
  keeps : d.notifier.KeepsHours ch
  view : OrderlyView key (d.engine.active key.check) (d.notifier.view ch key.check)

section

variable (hsubject : key.subject = key.check.subject) (h : Orderly ch key d)

include hsubject h

variable {order : List CheckId} {now : UnixMs}

/-- A tick of the engine. -/
theorem engine_orderly {x : Atom} (hx : AtomOk d.engine x)
    (hother : d.engine.opensOther key x = false)
    (hno : d.losesIncident ch key (.engine x now) = false) :
    Orderly ch key (d.tick (.engine x now)).1 := by
  obtain ⟨hre, hdrop⟩ := Bool.or_eq_false_iff.1 hno
  have hP := opensAs_of_not hre hother
  -- Until the check's own action is handled its view stays as it was.
  have hboth := tick_relation now key.check
    (fun n => n.KeepsHours ch ∧ n.view ch key.check = d.notifier.view ch key.check)
    (fun n => n.KeepsHours ch ∧
      OrderlyView key ((d.engine.atomStep x).1.active key.check) (n.view ch key.check))
    h.consistent hx hP
    (fun n y hy hj => ⟨hj.1.handleAt y now, (view_handleAt_of_ne hj.1 hy now).trans hj.2⟩)
    (fun n y hy hj => ⟨hj.1.handleAt y now, by rw [view_handleAt_of_ne hj.1 hy now]; exact hj.2⟩)
    (fun acts n hacts hmove hj => ?_) ⟨h.keeps, rfl⟩
  · exact ⟨(atom_effect h.consistent hx hP).2, hboth.1, hboth.2⟩
  · obtain ⟨hkeeps, hview⟩ := hj
    cases acts with
    | nil =>
      exact ⟨hkeeps, by rw [Notifier.handleAll, foldl_nil, hview]; exact h.view.move_nil hmove⟩
    | cons y rest =>
      obtain rfl : rest = [] := eq_nil_of_length_eq_zero (by simpa using hmove.length_le)
      have hfiled : Filed key.check (d.engine.active key.check) := h.consistent.slots key.check
      have hcheck : y.check = key.check := hmove.check_eq hfiled y mem_cons_self
      have hnot := (any_eq_false.1 hdrop) y (hacts y mem_cons_self)
      have hhandled := handleAt_handled hkeeps hcheck now
      rw [hview] at hhandled
      exact ⟨hkeeps.handleAt y now,
        h.view.move_one hsubject hfiled hmove (by simpa using hnot) hhandled⟩

/-- In an orderly deployment the active alerts of the check have the key. -/
theorem Orderly.dedupKey {a : Alert} (ha : d.engine.active key.check = some a) : a.dedupKey = key :=
  OrderlyView.dedupKey_of_slotOk hsubject (h.consistent.slots key.check a ha) (h.view.severity a ha)

/-- Whether the release pass sees the check live. -/
theorem Orderly.isLive_iff (ho : Enumerates order d.engine.active) :
    isLive (d.engine.activeAlerts order) key = true ↔
      ∃ a, d.engine.active key.check = some a ∧ a.rootCause = none := by
  simp only [isLive, any_eq_true, decide_eq_true_eq, mem_activeAlerts h.consistent ho]
  constructor
  · rintro ⟨a, ha, hkey, hroot⟩
    have hc : a.check = key.check := congrArg DedupKey.check hkey
    exact ⟨a, hc ▸ ha, hroot⟩
  · rintro ⟨a, ha, hroot⟩
    have hc : a.check = key.check := (h.consistent.slots key.check a ha).check
    exact ⟨a, hc.symm ▸ ha, h.dedupKey hsubject ha, hroot⟩

/-- A release pass, at the check. -/
theorem Orderly.release_view (ho : Enumerates order d.engine.active) (now : UnixMs) :
    let n' := d.notifier.releasePass (d.engine.activeAlerts order) now
    let live := isLive (d.engine.activeAlerts order) key
    KeepsHours ch n' ∧
    if d.notifier.hours.isOpen key.subject.asNode now then
      (n'.view ch key.check).rows = [] ∧
      ∃ ext, (n'.view ch key.check).calls = (d.notifier.view ch key.check).calls ++ ext ∧
        (∀ call ∈ ext, call = callFor key live) ∧
        (ext ≠ [] → live = true → (d.notifier.view ch key.check).holdsFire = true) ∧
        (live = false → (d.notifier.view ch key.check).holdsEnd = true → ext ≠ [])
    else n'.view ch key.check = d.notifier.view ch key.check := by
  intro n' live
  have hactive : ∀ a ∈ d.engine.activeAlerts order, a.check = key.check → a.dedupKey = key := by
    intro a ha hc
    rw [mem_activeAlerts h.consistent ho, hc] at ha
    exact h.dedupKey hsubject ha
  obtain ⟨hkeeps, _, hview⟩ := releasePass_view h.keeps hactive h.view.rowsFor now
  refine ⟨hkeeps, ?_⟩
  split
  next hopen =>
    rw [if_pos hopen] at hview
    obtain ⟨hrows, ext, hcalls, hkind, hfire, hend⟩ := hview
    refine ⟨hrows, ext, hcalls, hkind, fun hne hl => View.holdsFire_iff.2 (hfire hne hl), ?_⟩
    intro hl he
    obtain ⟨row, hrow, hev⟩ := View.holdsEnd_iff.1 he
    exact hend hl row hrow hev
  next hclosed =>
    rwa [if_neg hclosed] at hview

/-- A tick of the release loop. -/
theorem release_orderly (ho : Enumerates order d.engine.active)
    (hno : d.losesIncident ch key (.release order now) = false) :
    Orderly ch key (d.tick (.release order now)).1 := by
  obtain ⟨hkeeps, hview⟩ := h.release_view hsubject ho now
  refine ⟨h.consistent, hkeeps, ?_⟩
  show OrderlyView key (d.engine.active key.check)
    ((d.notifier.releasePass (d.engine.activeAlerts order) now).view ch key.check)
  by_cases hopen : d.notifier.hours.isOpen key.subject.asNode now = true
  · rw [if_pos hopen] at hview
    obtain ⟨hrows, ext, hcalls, hkind, hfire, hend⟩ := hview
    refine ⟨by simp [hrows], h.view.severity, fun hi => .inl ?_, by simp [View.holdsFire, hrows]⟩
    rw [View.hasIncident, hcalls, CallLog.hasIncident_append hkind] at hi
    by_cases hlive : isLive (d.engine.activeAlerts order) key = true
    · obtain ⟨a, ha, hroot⟩ := (h.isLive_iff hsubject ho).1 hlive
      by_cases hheld : a.notifyHeldUntil = none
      · rw [ha]
        exact owns_some.2 ⟨h.dedupKey hsubject ha, hroot, hheld⟩
      · -- Nobody was told about this alert: no fire of it is held, so nothing is delivered, and
        -- an incident that was open would have a held end.
        exfalso
        have hnot : ¬ Owns (d.engine.active key.check) key := by
          rw [ha]
          exact fun how => hheld (owns_some.1 how).2.2
        have hext : ext = [] := by
          by_contra hne
          exact hnot (h.view.fires (hfire hne hlive))
        rw [if_pos hext] at hi
        have hheldEnd := (h.view.incident hi).resolve_left hnot
        have hincident : d.notifier.hasIncident ch key = true := by
          rw [← hasIncident_view]
          exact hi
        simp [losesIncident, hopen, hincident, hheldEnd, ha, hroot, hheld] at hno
    · rw [Bool.not_eq_true] at hlive
      by_cases hext : ext = []
      · rw [if_pos hext] at hi
        exact (h.view.incident hi).resolve_right fun he => hend hlive he hext
      · rw [if_neg hext, hlive] at hi
        cases hi
  · rw [if_neg hopen] at hview
    rw [hview]
    exact h.view

theorem tick_orderly {t : Tick} (hok : d.TickOk t) (hother : d.opensOther key t = false)
    (hno : d.losesIncident ch key t = false) : Orderly ch key (d.tick t).1 := by
  cases t with
  | engine x now => exact engine_orderly hsubject h hok hother hno
  | release order now => exact release_orderly hsubject h hok hno

/-- The channel gets no resolve in a tick after which the alert is active and not rolled up. -/
theorem tick_resolves {t : Tick} (hok : d.TickOk t)
    (hmore : d.notifier.resolves ch key < (d.tick t).1.notifier.resolves ch key) :
    ∀ a, (d.tick t).1.engine.active key.check = some a → a.rootCause ≠ none := by
  rw [← resolves_view, ← resolves_view] at hmore
  cases t with
  | engine x now =>
    have hboth := tick_relation (P := fun _ _ => True) now key.check
      (fun n => n.KeepsHours ch ∧ n.view ch key.check = d.notifier.view ch key.check)
      (fun n => n.KeepsHours ch ∧
        ((d.notifier.view ch key.check).calls.count (.resolve key)
          < (n.view ch key.check).calls.count (.resolve key) →
        ∀ a, (d.engine.atomStep x).1.active key.check = some a → a.rootCause ≠ none))
      h.consistent hok (fun _ _ _ => trivial)
      (fun n y hy hj => ⟨hj.1.handleAt y now, (view_handleAt_of_ne hj.1 hy now).trans hj.2⟩)
      (fun n y hy hj => ⟨hj.1.handleAt y now, by
        rw [view_handleAt_of_ne hj.1 hy now]; exact hj.2⟩)
      (fun acts n hacts hmove hj => ?_) ⟨h.keeps, rfl⟩
    · exact hboth.2 hmore
    · obtain ⟨hkeeps, hview⟩ := hj
      cases acts with
      | nil =>
        refine ⟨hkeeps, fun hmore => ?_⟩
        rw [Notifier.handleAll, foldl_nil, hview] at hmore
        exact absurd hmore (Nat.lt_irrefl _)
      | cons y rest =>
        obtain rfl : rest = [] := eq_nil_of_length_eq_zero (by simpa using hmove.length_le)
        have hcheck : y.check = key.check :=
          hmove.check_eq (h.consistent.slots key.check) y mem_cons_self
        have hhandled := handleAt_handled hkeeps hcheck now
        rw [hview] at hhandled
        exact ⟨hkeeps.handleAt y now, root_of_resolved hmove hhandled⟩
  | release order now =>
    intro a ha hroot
    have hlive := (h.isLive_iff hsubject hok).2 ⟨a, ha, hroot⟩
    obtain ⟨_, hview⟩ := h.release_view hsubject hok now
    by_cases hopen : d.notifier.hours.isOpen key.subject.asNode now = true
    · rw [if_pos hopen] at hview
      obtain ⟨_, ext, hcalls, hkind, _⟩ := hview
      have hcount : ext.count (.resolve key) = 0 := by
        rw [count_eq_zero]
        intro hmem
        have := hkind _ hmem
        simp [callFor, hlive] at this
      have hcalls' : ((d.tick (.release order now)).1.notifier.view ch key.check).calls
          = (d.notifier.view ch key.check).calls ++ ext := hcalls
      rw [hcalls', count_append, hcount] at hmore
      exact absurd hmore (Nat.lt_irrefl _)
    · rw [if_neg hopen] at hview
      have hview' : (d.tick (.release order now)).1.notifier.view ch key.check
          = d.notifier.view ch key.check := hview
      rw [hview'] at hmore
      exact absurd hmore (Nat.lt_irrefl _)

end

/-- A check whose alerts all have the key's severity, behind delivery hours. In every sequence of
ticks from the restored alerts that does not lose an incident:

- once the alert is resolved and a release pass has run while the hours of its node are open, the
  channel has no open incident under the key;
- the channel gets no resolve for the key in a tick that leaves the alert active and not rolled
  up. -/
theorem held_incidents_closed {rows : List AlertHistoryRow}
    (hrows : ∀ row ∈ rows, AlertManager.RowOk row)
    (hsev : ∀ row ∈ rows, row.check = key.check → row.severity = key.severity)
    (hsubject : key.subject = key.check.subject) {n : Notifier CallLog} (hn : n.KeepsHours ch)
    (hnew : n.log ch = [] ∧ n.heldRows = []) {ts : List Tick}
    (hok : Along TickOk tick ⟨restored rows, n⟩ ts)
    (hother : Along (fun d t => d.opensOther key t = false) tick ⟨restored rows, n⟩ ts)
    (hno : Along (fun d t => d.losesIncident ch key t = false) tick ⟨restored rows, n⟩ ts) :
    let d := (emitAll tick ⟨restored rows, n⟩ ts).1
    (∀ order now, Enumerates order d.engine.active →
      d.notifier.hours.isOpen key.subject.asNode now = true →
      d.engine.active key.check = none →
      (d.releasePass order now).notifier.hasIncident ch key = false) ∧
    (∀ t, d.TickOk t → d.notifier.resolves ch key < (d.tick t).1.notifier.resolves ch key →
      ∀ a, (d.tick t).1.engine.active key.check = some a → a.rootCause ≠ none) := by
  intro d
  have hstart : Orderly ch key ⟨restored rows, n⟩ := by
    refine ⟨restored_consistent hrows, hn, ?_, ?_, ?_, ?_⟩
    · simp [view, hnew.2]
    · intro a ha
      obtain ⟨row, hrow, hc, rc, rfl⟩ := restored_active ha
      exact hsev row hrow hc
    · simp [View.hasIncident, view, hnew.1, CallLog.hasIncident]
    · simp [View.holdsFire, view, hnew.2]
  have hd : Orderly ch key d := by
    refine ((hok.and hother).and hno).invariant (P := Orderly ch key) ?_ hstart
    rintro d t ⟨⟨hok, hother⟩, hno⟩ h
    exact tick_orderly hsubject h hok hother hno
  refine ⟨fun order now ho hopen hnone => ?_,
    fun t hok hmore => tick_resolves hsubject hd hok hmore⟩
  have hquiet : d.losesIncident ch key (.release order now) = false := by
    simp [losesIncident, hnone]
  have hafter := release_orderly hsubject hd ho hquiet
  have hrows : ((d.releasePass order now).notifier.view ch key.check).rows = [] := by
    obtain ⟨_, hview⟩ := hd.release_view hsubject ho now
    rw [if_pos hopen] at hview
    exact hview.1
  rw [← hasIncident_view]
  by_contra hi
  rcases hafter.view.incident (Bool.eq_true_of_not_eq_false hi) with howns | hheld
  · have hnone' : (d.tick (.release order now)).1.engine.active key.check = none := hnone
    rw [hnone'] at howns
    exact not_owns_none howns
  · have hrows' : ((d.tick (.release order now)).1.notifier.view ch key.check).rows = [] := hrows
    simp [View.holdsEnd, hrows'] at hheld

/-! ### Three runs -/

/-- Node 1 is notified about from eight to eighteen. -/
def officeHours : HoursPolicy := ⟨[(1, ⟨fun t => (1, t.toNat), [⟨1, 480, 1080⟩]⟩)]⟩

/-- The empty engine with a notifier that keeps the hours. -/
def officeStart : Deployment CallLog := ⟨restored [], pagerNotifier officeHours⟩

theorem officeStart_keepsHours : officeStart.notifier.KeepsHours pager where
  channel := rfl
  matched := pagerNotifier_matched officeHours
  hours := rfl
  store := rfl

/-- The deployment after jobs from the start. -/
def officeRun (jobs : List Job) : Deployment CallLog :=
  (emitAll tick officeStart (Job.allTicks officeStart.engine jobs)).1

/-- Jobs over few checks are fit to run. -/
theorem officeRun_ok (order : List CheckId) (jobs : List Job) (hn : order.Nodup)
    (h : Along (Job.Within order) Job.engineStep fresh jobs) :
    Along TickOk tick officeStart (Job.allTicks officeStart.engine jobs) ∧
      Enumerates order (officeRun jobs).engine.active :=
  tickOk_of_within (d := officeStart) hn consistent_fresh (by
    intro c hc
    cases hc) h

/-- A band of values, with a warning on both sides. -/
def bandConfig : AlertConfig := cpuConfig ⟨some (.finite 10), none, some (.finite 80), none⟩

/-- A warning by day that recovers at night. -/
def nightRecoveryJobs : List Job :=
  [.perform (.setConfig bandConfig rfl) 0, .perform (reading (.finite 85) 1) 600,
    .perform (reading (.finite 50) 2) 1200]

theorem night_recovery_closed :
    ((officeRun nightRecoveryJobs).releasePass cpuChecks 500).notifier.hasIncident pager
      (cpuKey .warning) = false := by
  obtain ⟨hok, henum⟩ := officeRun_ok cpuChecks nightRecoveryJobs (by decide) (by decide +kernel)
  have hsubject : (cpuKey .warning).subject = (cpuKey .warning).check.subject := rfl
  exact (held_incidents_closed noRows_ok (by simp) hsubject officeStart_keepsHours
    ⟨rfl, rfl⟩ hok (by decide +kernel) (by decide +kernel)).1 cpuChecks 500 henum
    (by decide +kernel)
    (by decide +kernel)

/-- A warning by day. At night the value leaves the band on the other side, and then recovers. -/
def nightRefireJobs : List Job :=
  [.perform (.setConfig bandConfig rfl) 0, .perform (reading (.finite 85) 1) 600,
    .perform (reading (.finite 5) 2) 1200, .perform (reading (.finite 50) 3) 1300,
    .release cpuChecks 500]

/-- Node 1 goes down by day and recovers at night. It goes down again while node 2 is failing, so
its new alert is held back over the morning, and recovers before the hold ends. -/
def nightOutageJobs : List Job :=
  [.perform loadWaiting 0, .perform (pollOp 2 .reachable 1) 600,
    .perform (pollOp 1 .unreachable 3) 600, .perform (pollOp 1 .unreachable 4) 600,
    .perform (pollOp 1 .reachable 5) 1200, .perform (pollOp 1 .reachable 6) 1200,
    .perform (pollOp 2 .unreachable 7) 1200, .perform (pollOp 1 .unreachable 8) 1200,
    .perform (pollOp 1 .unreachable 9) 1200, .release bothLiveness 500,
    .perform (pollOp 1 .reachable 10) 600, .perform (pollOp 1 .reachable 11) 600,
    .release bothLiveness 700]

/-- In both runs the alert is resolved and a release pass has run in open hours. Nothing is held
any more, and the incident is still open. -/
theorem night_refire_left_open :
    (Along TickOk tick officeStart (Job.allTicks officeStart.engine nightRefireJobs) ∧
      (officeRun nightRefireJobs).engine.active (checkId 1 (.metric cpu)) = none ∧
      (officeRun nightRefireJobs).notifier.heldRows = [] ∧
      (officeRun nightRefireJobs).notifier.hasIncident pager (cpuKey .warning) = true) ∧
    (Along TickOk tick officeStart (Job.allTicks officeStart.engine nightOutageJobs) ∧
      (officeRun nightOutageJobs).engine.active (livenessCheck 1) = none ∧
      (officeRun nightOutageJobs).notifier.heldRows = [] ∧
      (officeRun nightOutageJobs).notifier.hasIncident pager
        ⟨.node 1, livenessCheck 1, .critical⟩ = true) :=
  ⟨⟨(officeRun_ok cpuChecks _ (by decide) (by decide +kernel)).1, by decide +kernel,
    by decide +kernel, by decide +kernel⟩,
    ⟨(officeRun_ok bothLiveness _ (by decide) (by decide +kernel)).1, by decide +kernel,
      by decide +kernel, by decide +kernel⟩⟩

end Deployment

end Yagra
