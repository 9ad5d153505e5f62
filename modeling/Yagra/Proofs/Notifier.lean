import Yagra.Notify.Notifier
import Yagra.Proofs.Moves

/-!
# `Yagra.Proofs.Notifier`: what one channel sees of the notifier

The results about incidents are about one channel that every severity is routed to, and that
takes every call. `Dispatcher.act` is what delivering an action does on such a channel
(`deliver_channel`). It leaves a key alone unless the action is about it (`keeps_act`).

With delivery hours, a check's part of the notifier is its `View`: the calls the channel has
taken about the check, and the rows held for it. `Handled` lists what handling one action does
to the view of its own check (`handleAt_handled`); the views of other checks stay as they are
(`view_handleAt_of_ne`). `releasePass_view` says what a turn of the release loop does.
-/

set_option autoImplicit false

namespace Yagra

open Yagra.Lib NotifyAction HeldStore List
open HeldRow (isFireOf)

namespace NotifyAction

/-- The action fires an alert of its own under the key. -/
def announces (key : DedupKey) : NotifyAction → Bool
  | .fire a => a.rootCause.isNone && decide (a.dedupKey = key)
  | .resolve _ | .suppress _ => false

/-- The action closes the incident under the key. -/
def ends (key : DedupKey) : NotifyAction → Bool
  | .fire _ => false
  | .resolve a => a.rootCause.isNone && decide (a.dedupKey = key)
  | .suppress a => decide (a.dedupKey = key)

end NotifyAction

/-! ### One channel -/

namespace Dispatcher

/-- What delivering an action does on a channel its alert is routed to. `changed` says that the
alert was last delivered with its other side. -/
def act (d : Dispatcher CallLog) (changed : Bool) : NotifyAction → Dispatcher CallLog
  | .fire a =>
    if a.rootCause.isSome then d
    else ((if changed then d.markResolved a.dedupKey else d).dispatch ⟨a.dedupKey⟩).1
  | .resolve a =>
    if a.rootCause.isSome then d.markResolved a.dedupKey
    else (d.dispatchResolve ⟨a.dedupKey⟩).1
  | .suppress a => (d.dispatchResolve ⟨a.dedupKey⟩).1

/-- Whether the channel still has anything under a key: in its dedup set, or an incident. -/
def keeps (d : Dispatcher CallLog) (key : DedupKey) : Bool :=
  d.active key || d.channel.hasIncident key

variable {key : DedupKey} {d : Dispatcher CallLog}

theorem keeps_markResolved {k : DedupKey} (h : (d.markResolved k).keeps key = true) :
    d.keeps key = true := by
  simp only [keeps, markResolved, Function.update_apply, Bool.or_eq_true] at h ⊢
  rcases h with h | h
  · split at h
    · cases h
    · exact .inl h
  · exact .inr h

/-- A dispatched notification adds its own key and no other. -/
theorem keeps_dispatch {n : Notification} (h : (d.dispatch n).1.keeps key = true) :
    n.dedupKey = key ∨ d.keeps key = true := by
  rw [dispatch_log] at h
  split at h
  · exact .inr h
  · by_cases hk : n.dedupKey = key
    · exact .inl hk
    · refine .inr ?_
      simpa [keeps, Function.update_of_ne (Ne.symm hk), hk] using h

/-- A dispatched resolve leaves nothing under its key. -/
theorem keeps_dispatchResolve {n : Notification} (h : (d.dispatchResolve n).1.keeps key = true) :
    n.dedupKey ≠ key ∧ d.keeps key = true := by
  rw [dispatchResolve_log] at h
  by_cases hk : n.dedupKey = key
  · simp [keeps, hk] at h
  · refine ⟨hk, ?_⟩
    simpa [keeps, Function.update_of_ne (Ne.symm hk), hk] using h

/-- What the channel has under a key after an action: the action announces it, or the channel
had it and the action does not close it. -/
theorem keeps_act {changed : Bool} {x : NotifyAction} (h : (d.act changed x).keeps key = true) :
    x.announces key = true ∨ d.keeps key = true ∧ x.ends key = false := by
  cases x with
  | fire a =>
    simp only [act] at h
    split at h
    · exact .inr ⟨h, rfl⟩
    next hroot =>
      rcases keeps_dispatch h with hk | h
      · exact .inl (by simpa [announces] using ⟨by simpa using hroot, hk⟩)
      · refine .inr ⟨?_, rfl⟩
        split at h
        · exact keeps_markResolved h
        · exact h
  | resolve a =>
    simp only [act] at h
    split at h
    next hroot =>
      refine .inr ⟨keeps_markResolved h, ?_⟩
      obtain ⟨r, hr⟩ := Option.isSome_iff_exists.1 hroot
      simp [ends, hr]
    · obtain ⟨hk, h⟩ := keeps_dispatchResolve h
      exact .inr ⟨h, by simpa [ends] using fun _ => hk⟩
  | suppress a =>
    obtain ⟨hk, h⟩ := keeps_dispatchResolve h
    exact .inr ⟨h, by simpa [ends] using hk⟩

/-- The calls an action makes: a resolve when it closes an incident, at most a delivery when it
announces an alert, and none otherwise. -/
theorem act_calls (d : Dispatcher CallLog) (changed : Bool) (x : NotifyAction) :
    ((d.act changed x).channel.calls = d.channel.calls ∧ x.ends x.alert.dedupKey = false) ∨
    ((d.act changed x).channel.calls = d.channel.calls ++ [.deliver x.alert.dedupKey] ∧
      x.announces x.alert.dedupKey = true) ∨
    ((d.act changed x).channel.calls = d.channel.calls ++ [.resolve x.alert.dedupKey] ∧
      x.ends x.alert.dedupKey = true) := by
  cases x with
  | fire a =>
    simp only [act]
    split
    · exact .inl ⟨rfl, rfl⟩
    next hroot =>
      obtain ⟨e, he, hsame⟩ : ∃ e : Dispatcher CallLog,
          (if changed then d.markResolved a.dedupKey else d) = e ∧ e.channel = d.channel :=
        ⟨_, rfl, by cases changed <;> rfl⟩
      rw [he, dispatch_log, ← hsame]
      split
      · exact .inl ⟨rfl, rfl⟩
      · refine .inr (.inl ⟨rfl, ?_⟩)
        simpa [announces, alert] using hroot
  | resolve a =>
    simp only [act]
    split
    next hroot =>
      obtain ⟨r, hr⟩ := Option.isSome_iff_exists.1 hroot
      exact .inl ⟨rfl, by simp [ends, hr]⟩
    next hroot =>
      rw [dispatchResolve_log]
      refine .inr (.inr ⟨rfl, ?_⟩)
      simpa [ends, alert] using hroot
  | suppress a =>
    simp only [act]
    rw [dispatchResolve_log]
    exact .inr (.inr ⟨rfl, by simp [ends, alert]⟩)

end Dispatcher

namespace Notifier

variable {n : Notifier CallLog} {ch : Uuid}

/-- Recording the side of an alert changes nothing else. -/
theorem sideChanged_fst (n : Notifier CallLog) (a : Alert) :
    ∃ sides, (n.sideChanged a).1 = { n with sides := sides } := by
  unfold sideChanged
  cases a.breach with
  | none => exact ⟨n.sides, rfl⟩
  | some breach => exact ⟨_, rfl⟩

theorem dispatchFire_channel {a : Alert} (hm : ch ∈ n.matched a.severity) :
    (n.dispatchFire a).channels ch = (n.channels ch).map fun d => (d.dispatch ⟨a.dedupKey⟩).1 := by
  simp [dispatchFire, hm]

theorem close_channel {a : Alert} (hm : ch ∈ n.matched a.severity) :
    (n.close a).channels ch = (n.channels ch).map fun d => (d.dispatchResolve ⟨a.dedupKey⟩).1 := by
  simp [close, hm]

/-- What delivering an action leaves of the notifier: the routing, the hours and the held rows
stay, and a channel every severity is routed to acts on the action. -/
structure Delivered (n : Notifier CallLog) (x : NotifyAction) (n' : Notifier CallLog) : Prop where
  rules : n'.rules = n.rules
  hours : n'.hours = n.hours
  held : n'.held = n.held
  channel : ∀ ch, (∀ severity, ch ∈ n.matched severity) →
    ∃ changed, n'.channels ch = (n.channels ch).map (·.act changed x)

variable (n)

theorem deliver_delivered (x : NotifyAction) : Delivered n x (n.deliver x) := by
  cases x with
  | fire a =>
    simp only [deliver]
    split
    next hroot =>
      exact ⟨rfl, rfl, rfl, fun ch _ => ⟨false, by simp [Dispatcher.act, hroot]⟩⟩
    next hroot =>
      obtain ⟨sides, hsides⟩ := n.sideChanged_fst a
      rw [hsides]
      refine ⟨by split <;> rfl, by split <;> rfl, by split <;> rfl, fun ch hm => ?_⟩
      refine ⟨(n.sideChanged a).2, ?_⟩
      cases (n.sideChanged a).2 with
      | false =>
        exact (dispatchFire_channel (n := { n with sides := sides }) (hm a.severity)).trans
          (by simp [Dispatcher.act, hroot])
      | true =>
        refine (dispatchFire_channel (n := { n with sides := sides }.markResolved a.dedupKey)
          (hm a.severity)).trans ?_
        simp [Dispatcher.act, hroot, markResolved, Function.comp_def]
  | resolve a =>
    simp only [deliver]
    split
    next hroot =>
      exact ⟨rfl, rfl, rfl, fun ch _ => ⟨false, by
        simp [Dispatcher.act, hroot, markResolved, forgetSide]⟩⟩
    next hroot =>
      refine ⟨rfl, rfl, rfl, fun ch hm => ⟨false, ?_⟩⟩
      exact (close_channel (n := n.forgetSide a) (hm a.severity)).trans
        (by simp [Dispatcher.act, hroot, forgetSide])
  | suppress a =>
    exact ⟨rfl, rfl, rfl, fun ch hm => ⟨false, close_channel (n := n.forgetSide a) (hm a.severity)⟩⟩

/-! ### One check's part of the notifier -/

/-- The calls the channel has taken. -/
def log (ch : Uuid) : List ChannelCall :=
  ((n.channels ch).map (·.channel.calls)).getD []

/-- What is held. -/
def heldRows : List HeldRow := (n.held.map (·.rows)).getD []

/-- The calls about a check, and what is held for it. -/
@[ext] structure View where
  calls : List ChannelCall
  rows : List HeldRow

/-- A check's part of the notifier, as one channel sees it. -/
def view (ch : Uuid) (c : CheckId) : View where
  calls := (n.log ch).filter fun call => call.key.check = c
  rows := n.heldRows.filter fun row => row.alert.check = c

variable {n}

/-- Every severity is routed to the channel, and delivery hours are kept. -/
structure KeepsHours (ch : Uuid) (n : Notifier CallLog) : Prop where
  channel : (n.channels ch).isSome
  matched : ∀ severity, ch ∈ n.matched severity
  hours : n.hours.isEmpty = false
  store : n.held.isSome

/-- The calls that delivering an action adds to the log. -/
theorem deliver_log (h : KeepsHours ch n) (x : NotifyAction) :
    ((n.deliver x).log ch = n.log ch ∧ x.ends x.alert.dedupKey = false) ∨
    ((n.deliver x).log ch = n.log ch ++ [.deliver x.alert.dedupKey] ∧
      x.announces x.alert.dedupKey = true) ∨
    ((n.deliver x).log ch = n.log ch ++ [.resolve x.alert.dedupKey] ∧
      x.ends x.alert.dedupKey = true) := by
  obtain ⟨d, hd⟩ := Option.isSome_iff_exists.1 h.channel
  obtain ⟨changed, hch⟩ := (deliver_delivered n x).channel ch h.matched
  simp only [log, hch, hd, Option.map_some, Option.getD_some]
  exact d.act_calls changed x

@[simp] theorem deliver_heldRows (n : Notifier CallLog) (x : NotifyAction) :
    (n.deliver x).heldRows = n.heldRows := by
  simp only [heldRows, (deliver_delivered n x).held]

theorem KeepsHours.deliver (h : KeepsHours ch n) (x : NotifyAction) :
    KeepsHours ch (n.deliver x) := by
  have hd := deliver_delivered n x
  obtain ⟨changed, hch⟩ := hd.channel ch h.matched
  refine ⟨by simpa [hch] using h.channel, fun severity => ?_, by rw [hd.hours]; exact h.hours,
    by rw [hd.held]; exact h.store⟩
  simp only [Notifier.matched, hd.rules]
  exact h.matched severity

/-- What handling an action about a check does to the check's view. -/
inductive Handled (v : View) : NotifyAction → View → Prop
  /-- A fire that is rolled up or a duplicate, or the resolve of a rolled-up alert. -/
  | quiet {x : NotifyAction} (hends : x.ends x.alert.dedupKey = false) : Handled v x v
  | delivered {x : NotifyAction} (hx : x.announces x.alert.dedupKey = true) :
      Handled v x { v with calls := v.calls ++ [.deliver x.alert.dedupKey] }
  | closed {x : NotifyAction} (hx : x.ends x.alert.dedupKey = true)
      (hfires : v.rows.any (isFireOf x.alert.subject x.check) = false) :
      Handled v x { v with calls := v.calls ++ [.resolve x.alert.dedupKey] }
  | heldFire {a : Alert} {id : Nat} (hroot : a.rootCause = none) :
      Handled v (.fire a) { v with rows := v.rows ++ [⟨id, .fire, a⟩] }
  | heldEnd {x : NotifyAction} {id : Nat} (hx : x.ends x.alert.dedupKey = true)
      (hfires : v.rows.any (isFireOf x.alert.subject x.check) = false) :
      Handled v x { v with rows := v.rows ++ [⟨id, heldEvent x, x.alert⟩] }
  /-- An end that drops the fires held for its check, and is dropped with them. -/
  | dropped {x : NotifyAction} (hx : heldEvent x ≠ .fire)
      (hfires : v.rows.any (isFireOf x.alert.subject x.check) = true) :
      Handled v x { v with rows := v.rows.filter fun row => !row.isFireOf x.alert.subject x.check }

variable {c : CheckId} {x : NotifyAction}

/-- Delivering is a way of handling. -/
theorem deliver_handled (h : KeepsHours ch n) (hx : x.check = c)
    (hfires : (n.view ch c).rows.any (isFireOf x.alert.subject x.check) = false ∨
      x.ends x.alert.dedupKey = false) : Handled (n.view ch c) x ((n.deliver x).view ch c) := by
  have hkey : x.alert.dedupKey.check = c := hx
  rcases deliver_log h x with ⟨hlog, hends⟩ | ⟨hlog, hann⟩ | ⟨hlog, hends⟩
  · have hview : (n.deliver x).view ch c = n.view ch c := by simp [view, hlog]
    rw [hview]
    exact .quiet hends
  · have hview : (n.deliver x).view ch c
        = { n.view ch c with calls := (n.view ch c).calls ++ [.deliver x.alert.dedupKey] } := by
      simp [view, hlog, ChannelCall.key, hkey]
    rw [hview]
    exact .delivered hann
  · have hview : (n.deliver x).view ch c
        = { n.view ch c with calls := (n.view ch c).calls ++ [.resolve x.alert.dedupKey] } := by
      simp [view, hlog, ChannelCall.key, hkey]
    rw [hview]
    refine .closed hends (hfires.resolve_right ?_)
    simp [hends]

/-- Delivering leaves the views of other checks as they are. -/
theorem view_deliver_of_ne (h : KeepsHours ch n) (hx : x.check ≠ c) :
    (n.deliver x).view ch c = n.view ch c := by
  have hkey : x.alert.dedupKey.check ≠ c := hx
  rcases deliver_log h x with ⟨hlog, _⟩ | ⟨hlog, _⟩ | ⟨hlog, _⟩ <;>
    simp [view, hlog, ChannelCall.key, hkey]

/-- The notifier with one more row held. -/
def withHeld (n : Notifier CallLog) (store : HeldStore) : Notifier CallLog :=
  { n with held := some store }

theorem holdOutside_cases (n : Notifier CallLog) (store : HeldStore) (x : NotifyAction)
    (now : UnixMs) :
    n.holdOutside store x now = (n, false) ∨
      n.holdOutside store x now = (n.withHeld (store.hold (heldEvent x) x.alert), true) := by
  unfold holdOutside
  split
  · exact .inl rfl
  · exact .inr rfl

/-- What `holdIfClosed` does with an action: let it pass, hold a fire, hold an end, or drop an end
with the fires held for its check. -/
theorem holdIfClosed_cases (h : KeepsHours ch n) {store : HeldStore} (hstore : n.held = some store)
    (x : NotifyAction) (now : UnixMs) :
    let fires := store.rows.filter (isFireOf x.alert.subject x.check)
    (n.holdIfClosed x now = (n, false) ∧ (fires = [] ∨ x.ends x.alert.dedupKey = false)) ∨
    (∃ a, x = .fire a ∧ a.rootCause = none ∧
      n.holdIfClosed x now = (n.withHeld (store.hold .fire a), true)) ∨
    (x.ends x.alert.dedupKey = true ∧ fires = [] ∧
      n.holdIfClosed x now = (n.withHeld (store.hold (heldEvent x) x.alert), true)) ∨
    (heldEvent x ≠ .fire ∧ fires ≠ [] ∧ n.holdIfClosed x now
        = (n.dropWithFires (store.discardFires x.alert.subject x.check).1 x.alert, true)) := by
  intro fires
  have houtside := n.holdOutside_cases store x now
  cases x with
  | fire a =>
    simp only [holdIfClosed, h.hours, hstore, Bool.false_eq_true, if_false]
    by_cases hroot : a.rootCause.isSome
    · rw [if_pos hroot]
      exact .inl ⟨rfl, .inr rfl⟩
    · rw [if_neg hroot]
      rcases houtside with ho | ho
      · exact .inl ⟨ho, .inr rfl⟩
      · exact .inr (.inl ⟨a, rfl, by simpa using hroot, ho⟩)
  | resolve a | suppress a =>
    simp only [holdIfClosed, h.hours, hstore, Bool.false_eq_true, if_false]
    rcases hdiscard : store.discardFires a.subject a.check with ⟨store', count⟩
    have hcount : fires.length = count := congrArg Prod.snd hdiscard
    cases count with
    | zero =>
      -- Only an end of an alert that was rolled up passes without a look at the hours.
      by_cases hroot : a.rootCause.isSome <;> rcases houtside with ho | ho <;>
        simp_all [ends, alert]
    | succ count =>
      refine .inr (.inr (.inr ⟨by simp [heldEvent], ?_, ?_⟩))
      · exact ne_nil_of_length_eq_add_one hcount
      · simp only [alert, check, hdiscard]

/-- Dropping an end with its fires makes no call. -/
theorem view_dropWithFires (n : Notifier CallLog) (store : HeldStore) (a : Alert) (c : CheckId) :
    (n.dropWithFires store a).view ch c
      = { n.view ch c with rows := store.rows.filter fun row => row.alert.check = c } := by
  have hlog : (n.dropWithFires store a).log ch = n.log ch := by
    simp [log, dropWithFires, markResolved, forgetSide, Dispatcher.markResolved, Function.comp_def]
  simp only [view, hlog]
  rfl

theorem view_withHeld (n : Notifier CallLog) (store : HeldStore) (c : CheckId) :
    (n.withHeld store).view ch c
      = { n.view ch c with rows := store.rows.filter fun row => row.alert.check = c } := rfl

theorem heldRows_of_held {store : HeldStore} (h : n.held = some store) :
    n.heldRows = store.rows := by
  simp [heldRows, h]

theorem KeepsHours.handleAt (h : KeepsHours ch n) (x : NotifyAction) (now : UnixMs) :
    KeepsHours ch (n.handleAt x now) := by
  obtain ⟨store, hstore⟩ := Option.isSome_iff_exists.1 h.store
  unfold Notifier.handleAt
  rcases holdIfClosed_cases h hstore x now with ⟨hhold, _⟩ | ⟨_, _, _, hhold⟩ | ⟨_, _, hhold⟩ |
    ⟨_, _, hhold⟩ <;> rw [hhold]
  · exact h.deliver x
  · exact ⟨h.channel, h.matched, h.hours, rfl⟩
  · exact ⟨h.channel, h.matched, h.hours, rfl⟩
  · refine ⟨?_, h.matched, h.hours, rfl⟩
    simpa [dropWithFires, markResolved, forgetSide] using h.channel

/-- Handling an action about a check. -/
theorem handleAt_handled (h : KeepsHours ch n) (hx : x.check = c) (now : UnixMs) :
    Handled (n.view ch c) x ((n.handleAt x now).view ch c) := by
  obtain ⟨store, hstore⟩ := Option.isSome_iff_exists.1 h.store
  have hrows : (n.view ch c).rows = store.rows.filter fun row => row.alert.check = c := by
    simp only [view, heldRows_of_held hstore]
  -- The fires held for the action's check are all in the view.
  have hfires : (n.view ch c).rows.any (isFireOf x.alert.subject x.check) = false ↔
      store.rows.filter (isFireOf x.alert.subject x.check) = [] := by
    rw [hrows, filter_eq_nil_iff, any_eq_false]
    refine ⟨fun hall row hrow hfire => ?_, fun hall row hrow => hall row (mem_filter.1 hrow).1⟩
    refine hall row (mem_filter.2 ⟨hrow, ?_⟩) hfire
    simp only [isFireOf, decide_eq_true_eq] at hfire
    simp [hfire.2.2, hx]
  unfold handleAt
  rcases holdIfClosed_cases h hstore x now with ⟨hhold, hpass⟩ | ⟨a, rfl, hroot, hhold⟩ |
    ⟨hends, hnone, hhold⟩ | ⟨hend, hsome, hhold⟩ <;> rw [hhold]
  · exact deliver_handled h hx (hpass.imp hfires.2 id)
  · have ha : a.check = c := hx
    have hview : (n.withHeld (store.hold .fire a)).view ch c
        = { n.view ch c with rows := (n.view ch c).rows ++ [⟨store.nextId, .fire, a⟩] } := by
      rw [view_withHeld]
      simp [hrows, hold, ha]
    simp only [hview]
    exact .heldFire hroot
  · have ha : x.alert.check = c := hx
    have hview : (n.withHeld (store.hold (heldEvent x) x.alert)).view ch c
        = { n.view ch c with
            rows := (n.view ch c).rows ++ [⟨store.nextId, heldEvent x, x.alert⟩] } := by
      rw [view_withHeld]
      simp [hrows, hold, ha]
    simp only [hview]
    exact .heldEnd hends (hfires.2 hnone)
  · have hview : (n.dropWithFires (store.discardFires x.alert.subject x.check).1 x.alert).view ch c
        = { n.view ch c with
            rows := (n.view ch c).rows.filter fun row => !row.isFireOf x.alert.subject x.check
          } := by
      simp [view_dropWithFires, hrows, discardFires, retain, filter_filter, Bool.and_comm]
    simp only [hview]
    refine .dropped hend ?_
    by_contra hno
    exact hsome (hfires.1 (by simpa using hno))

/-- Handling an action leaves the views of other checks as they are. -/
theorem view_handleAt_of_ne (h : KeepsHours ch n) (hx : x.check ≠ c) (now : UnixMs) :
    (n.handleAt x now).view ch c = n.view ch c := by
  obtain ⟨store, hstore⟩ := Option.isSome_iff_exists.1 h.store
  have hrows : (n.view ch c).rows = store.rows.filter fun row => row.alert.check = c := by
    simp only [view, heldRows_of_held hstore]
  unfold handleAt
  rcases holdIfClosed_cases h hstore x now with ⟨hhold, _⟩ | ⟨a, rfl, _, hhold⟩ |
    ⟨_, _, hhold⟩ | ⟨_, _, hhold⟩ <;> rw [hhold]
  · exact view_deliver_of_ne h hx
  · have ha : a.check ≠ c := hx
    rw [view_withHeld]
    simp [← hrows, hold, ha]
  · have ha : x.alert.check ≠ c := hx
    rw [view_withHeld]
    simp [← hrows, hold, ha]
  · have hkeep : ((store.discardFires x.alert.subject x.check).1.rows.filter
        fun row => row.alert.check = c) = (n.view ch c).rows := by
      rw [hrows]
      simp only [discardFires, retain, filter_filter]
      refine filter_congr fun row _ => ?_
      by_cases hc : row.alert.check = c
      · simp [isFireOf, hc, Ne.symm hx]
      · simp [hc]
    simp [view_dropWithFires, hkeep]

end Notifier

end Yagra
